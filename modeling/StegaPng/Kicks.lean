import Mathlib.Data.Nat.Count
import StegaPng.Conversations

/-! Kicked sessions between the admin's answer and the sweep: which of them the walk can
still come to. -/

namespace StegaPng

open Interleaving

section

variable {codec : PngCodec} {cfg : RuntimeConfig} {dt : DurationText} {fds : ServerFds}
  {m m' : MainState} {s s' : Sys} {α : Type} {a : α} {p : Task α}

/-! The walk. -/

/-- How many entries of the poll's answer lie between slot `i` and slot `k`. -/
def Clients.between (c : Clients) (i k : Nat) : Nat :=
  Nat.count (fun j => (c.get (i + j)).active = true) (k - i)

theorem between_succ {c d : Clients} {i k : Nat} (hik : i < k)
    (hsame : ∀ j, i < j → (d.get j).active = (c.get j).active) :
    c.between i k = d.between (i + 1) k + if (c.get i).active = true then 1 else 0 := by
  have hlength : k - i = (k - (i + 1)) + 1 := by omega
  have hshift : ∀ j, (d.get (i + 1 + j)).active = (c.get (i + (j + 1))).active := by
    intro j
    rw [hsame _ (by omega), show i + 1 + j = i + (j + 1) by omega]
  rw [Clients.between, hlength, Nat.count_succ']
  simp only [Clients.between, hshift, Nat.add_zero]

/-- The poll has reported nothing for the session, or reading from it gives no byte. -/
def Silent (revents : Nat → Revents) (e : Nat) (s : Sys) (c : ClientSession) : Prop :=
  (revents e).any = false ∨ ((readLine bufferSize (s.world.streams c.fd)).1).getD [] = []

/-- The walk has passed the slot, or it will find nothing to read there. -/
def Passed (ℓ : LoopState) (k : Nat) : Prop :=
  match ℓ.phase with
  | .walking revents _ i idx m =>
    k < i ∨ Silent revents (idx + m.clients.between i k) ℓ.sys (m.clients.get k)
  | .sweeping _ i _ => i ≤ k
  | _ => False

theorem visit_sameOthers {revents : Nat → Revents} {i idx : Nat}
    (h : Amid codec cfg (visitSlot cfg dt revents i idx m) s m' s') :
    SameOthers i m.clients m'.clients := by
  have hyields := h.yields
  unfold visitSlot at hyields
  split at hyields
  · exact handleClientCommand_yields hyields
  · rw [Prog.pure_eq, Prog.yields_ret] at hyields
    rw [hyields]
    exact fun _ _ => rfl

theorem between_visited {revents : Nat → Revents} {i idx k : Nat}
    (hactive : (m.clients.get i).active = true) (hik : i < k)
    (h : Amid codec cfg (visitSlot cfg dt revents i idx m) s m' s') :
    idx + 1 + m'.clients.between (i + 1) k = idx + m.clients.between i k := by
  have hsame := visit_sameOthers h
  have hbetween := between_succ (c := m.clients) (d := m'.clients) hik fun j hj =>
    hsame j (by omega)
  rw [hactive, if_pos rfl] at hbetween
  omega

theorem between_skipped {i k : Nat} (hidle : (m.clients.get i).active = false) (hik : i < k) :
    m.clients.between (i + 1) k = m.clients.between i k := by
  have hbetween := between_succ (c := m.clients) (d := m.clients) hik fun _ _ => rfl
  rw [hidle, if_neg Bool.false_ne_true, Nat.add_zero] at hbetween
  exact hbetween.symm

/-- The walk reads nothing from a session that it has passed. -/
theorem LoopStep.passed {ℓ ℓ' : LoopState} {k : Nat} (hstep : LoopStep codec cfg dt fds ℓ ℓ')
    (htable : SessionTable ℓ.phase.main.clients ℓ.sys.history) (hswept : ℓ.phase.Swept)
    (hdoomed : Doomed ℓ'.phase.main k) (h : Passed ℓ k) : Passed ℓ' k := by
  have hmoves := hstep.moves
  cases hstep with
  | wake _ => exact h.elim
  | interrupted _ => exact h.elim
  | timeout _ => exact h.elim
  | ready _ => exact h.elim
  | accept _ => exact h.elim
  | drain _ => exact h.elim
  | turn => exact h.elim
  | @skip m s revents left i idx hidle =>
    dsimp only [Passed] at h ⊢
    by_cases hik : k < i + 1
    · exact .inl hik
    · rw [between_skipped hidle (by omega)]
      exact h.imp (by omega) id
  | @visit m m' s s' revents left i idx hactive hrun =>
    by_cases hik : k < i + 1
    · exact .inl hik
    · refine .inr ?_
      obtain ⟨marks, hmove, -⟩ := hmoves
      obtain ⟨hlive, hkick⟩ := hmove.pending hdoomed.2 fun hidle => (htable.idle k hidle).2
      dsimp only [Phase.main] at hlive hkick htable
      have hfd : (m'.clients.get k).fd = (m.clients.get k).fd := by rw [hkick]; rfl
      have hapart : (m.clients.get k).fd ≠ (m.clients.get i).fd := by
        intro hsame
        have := htable.distinct _ k i ⟨hlive, rfl⟩ ⟨hactive, hsame.symm⟩
        omega
      have hsilent : Silent revents (idx + m.clients.between i k) s (m.clients.get k) :=
        h.resolve_left (by omega)
      rw [between_visited hactive (by omega) hrun]
      dsimp only [Silent] at hsilent ⊢
      rwa [hfd, amid_visit_streams hapart hrun]
  | walked _ => exact Nat.zero_le k
  | @keep m s left i hkeep =>
    have hpassed : i ≤ k := h
    change i + 1 ≤ k
    rcases Nat.lt_or_eq_of_le hpassed with hlt | rfl
    · exact hlt
    · dsimp only [Doomed, Phase.main] at hdoomed
      rw [hdoomed.1, hdoomed.2] at hkeep
      cases hkeep
  | @close m s s' left i closed hkicked hrun =>
    have hactive := (Bool.and_eq_true _ _ ▸ hkicked).1
    obtain ⟨rfl, -⟩ := amid_closeClient hactive hrun
    change i + 1 ≤ k
    simp only [Doomed, Phase.main, Clients.get_set] at hdoomed
    split at hdoomed
    · cases hdoomed.1
    · next hne =>
      have hpassed : i ≤ k := h
      have hi : i < maxClients := Clients.lt_of_active hactive
      omega
  | @swept m s s' i _ =>
    have hpassed : i ≤ k := h
    obtain ⟨hsum, -⟩ := hswept
    have hactive := hdoomed.1
    dsimp only [Phase.main] at hactive
    rw [m.clients.get_of_ge (by omega)] at hactive
    cases hactive

theorem Passed.no_line {ℓ : LoopState} {k : Nat} (h : Passed ℓ k)
    (htable : SessionTable ℓ.phase.main.clients ℓ.sys.history)
    (hactive : (ℓ.phase.main.clients.get k).active = true) {bytes : Bytes} (hbytes : bytes ≠ []) :
    ¬ ReadsLine ℓ (ℓ.phase.main.clients.get k).fd bytes := by
  rintro ⟨revents, left, i, idx, m, hphase, hreads, hfd, hready, hline⟩
  have hmain : ℓ.phase.main = m := by rw [hphase]; rfl
  rw [hmain] at hactive htable hfd hline
  obtain rfl : i = k := htable.distinct _ i k ⟨hreads, hfd⟩ ⟨hactive, rfl⟩
  simp only [Passed, hphase, Nat.lt_irrefl, false_or, Silent, Clients.between, Nat.sub_self,
    Nat.count_zero, Nat.add_zero] at h
  rcases h with hquiet | hnone
  · rw [hready] at hquiet
    cases hquiet
  · rw [hline] at hnone
    exact hbytes hnone

/-- The walk comes to the slot of a session that is to be kicked. -/
theorem LoopRun.comes_to {files : Bytes → Option Bytes} {f : Int} {revents : Nat → Revents}
    {left i idx n : Nat} (hrun : LoopRun codec cfg dt fds (initialLoop files) ⟨.walking revents
      (n + left) i idx m, s⟩)
    (hkernel : FreshAccepts s.history) (hdoomed : Doomed m (i + n))
    (hfd : (m.clients.get (i + n)).fd = f) :
    ∃ m' s', LoopRun codec cfg dt fds ⟨.walking revents (n + left) i idx m, s⟩
        ⟨.walking revents left (i + n) (idx + m.clients.between i (i + n)) m', s'⟩ ∧
      Doomed m' (i + n) ∧ (m'.clients.get (i + n)).fd = f ∧ s'.world.streams f = s.world.streams f ∧
      Grows (fun mark => mark ≠ .closed f ∧ ∀ g, mark ≠ .opened g) s s' := by
  induction n generalizing i idx m s with
  | zero =>
    refine ⟨m, s, ?_, hdoomed, hfd, rfl, grows_refl⟩
    rw [Nat.zero_add, Nat.add_zero, Clients.between, Nat.sub_self, Nat.count_zero, Nat.add_zero]
  | succ n ih =>
    have hslot : i + (n + 1) = i + 1 + n := by omega
    have hcount : n + 1 + left = n + left + 1 := by omega
    rw [hslot] at hdoomed hfd ⊢
    rw [hcount] at hrun ⊢
    cases hactive : (m.clients.get i).active with
    | false =>
      have hskip : LoopStep codec cfg dt fds ⟨.walking revents (n + left + 1) i idx m, s⟩
          ⟨.walking revents (n + left) (i + 1) idx m, s⟩ := .skip hactive
      obtain ⟨m', s', hlater, hrest⟩ := ih (hrun.tail hskip) hkernel hdoomed hfd
      rw [between_skipped hactive (by omega)] at hlater
      exact ⟨m', s', .head hskip hlater, hrest⟩
    | true =>
      obtain ⟨m₁, s₁, hvisited⟩ := exists_visit_run codec cfg dt revents i idx m s
      have hvisit : Amid codec cfg (visitSlot cfg dt revents i idx m) s m₁ s₁ :=
        hvisited.amid fun _ => .refl
      have hstep : LoopStep codec cfg dt fds ⟨.walking revents (n + left + 1) i idx m, s⟩
          ⟨.walking revents (n + left) (i + 1) (idx + 1) m₁, s₁⟩ := .visit hactive hvisit
      have htable := LoopRun.table hrun hkernel
      have hapart : f ≠ (m.clients.get i).fd := by
        intro hsame
        have := htable.distinct f (i + 1 + n) i ⟨hdoomed.1, hfd⟩ ⟨hactive, hsame.symm⟩
        omega
      obtain ⟨opens, hopens, hnone⟩ := visit_opens_nothing hvisit
      obtain ⟨closes, hcloses, hopen⟩ := visit_leaves_open hapart hvisit
      obtain rfl : opens = closes := List.append_cancel_right (hopens.symm.trans hcloses)
      have hkernel₁ : FreshAccepts s₁.history := by
        rw [hopens]
        exact freshAccepts_append (fun g hmem => hnone _ hmem g rfl) hkernel
      obtain ⟨hdoomed₁, hfd₁⟩ : Doomed m₁ (i + 1 + n) ∧ (m₁.clients.get (i + 1 + n)).fd = f := by
        refine (hstep.doomed hdoomed hfd).resolve_right fun hclosed => ?_
        exact hopen _ (hclosed opens hopens) rfl
      obtain ⟨m', s', hlater, hdoomed', hfd', hstream, hgrows⟩ :=
        ih (hrun.tail hstep) hkernel₁ hdoomed₁ hfd₁
      rw [between_visited hactive (by omega) hvisit] at hlater
      refine ⟨m', s', .head hstep hlater, hdoomed', hfd', ?_, ?_⟩
      · rw [hstream, amid_visit_streams hapart hvisit]
      · exact Grows.trans ⟨opens, hopens, fun mark hmem => ⟨hopen mark hmem,
          hnone mark hmem⟩⟩ hgrows

theorem LoopStep.walk_length {ℓ ℓ' : LoopState} (hstep : LoopStep codec cfg dt fds ℓ ℓ')
    (h : ∀ revents left i idx m, ℓ.phase = .walking revents left i idx m → i + left = maxClients) :
    ∀ revents left i idx m, ℓ'.phase = .walking revents left i idx m → i + left = maxClients := by
  intro revents left i idx m hphase
  cases hstep with
  | @accept m m' s s' revents listener conn _ => cases listener <;> cases hphase
  | drain _ =>
    cases hphase
    exact Nat.zero_add _
  | skip _ =>
    cases hphase
    have := h _ _ _ _ _ rfl
    omega
  | visit _ _ =>
    cases hphase
    have := h _ _ _ _ _ rfl
    omega
  | _ => cases hphase

theorem LoopRun.walk_length {files : Bytes → Option Bytes} {ℓ : LoopState}
    (hrun : LoopRun codec cfg dt fds (initialLoop files) ℓ) :
    ∀ revents left i idx m, ℓ.phase = .walking revents left i idx m → i + left = maxClients := by
  induction hrun with
  | refl => exact nofun
  | tail _ hstep ih => exact hstep.walk_length ih

/-! The admin's answer. -/

/-- The answer tells the admin that the session goes. -/
def Tells (q : ProtocolRequest) (c : ClientSession) (text : Bytes) : Prop :=
  c.active = true ∧ c.type = .user ∧
    (q.command = .kick ∧ parseIntArg q.argument1 = some c.fd ∧
        text = lit "OK kicked fd=" ++ decimal c.fd.toNat ++ lit "\n" ∨
      q.command = .blockip ∧ q.argument1 = c.addr_str ∧ ∃ kicked,
        text = lit "OK blocked ip=" ++ c.addr_str ++ lit " kicked=" ++ decimal kicked ++ lit "\n")

/-- In the step the admin is sent the answer that the session of slot `k` goes. -/
def Announced (ℓ ℓ' : LoopState) (k : Nat) : Prop :=
  ∃ revents left i idx m text new, ℓ.phase = .walking revents (left + 1) i idx m ∧
    (m.clients.get i).active = true ∧ (m.clients.get i).type = .admin ∧
    ℓ'.sys.history = new ++ ℓ.sys.history ∧ .reply (m.clients.get i).fd text ∈ new ∧
    Tells (nextRequest ℓ.sys (m.clients.get i).fd) (m.clients.get k) text

theorem Tells.ok {q : ProtocolRequest} {c : ClientSession} {text : Bytes} (h : Tells q c text) :
    lit "OK " <+: text := by
  obtain ⟨-, -, ⟨-, -, rfl⟩ | ⟨-, -, kicked, rfl⟩⟩ := h
  · exact ⟨lit "kicked fd=" ++ decimal c.fd.toNat ++ lit "\n", rfl⟩
  · exact ⟨lit "blocked ip=" ++ c.addr_str ++ lit " kicked=" ++ decimal kicked ++ lit "\n", rfl⟩

/-- Operations that do not answer OK. -/
def Op.NotOk : Op → Prop
  | .writeAll _ text => ¬ lit "OK " <+: text
  | _ => True

def Mark.NotOk : Mark → Prop
  | .reply _ text => ¬ lit "OK " <+: text
  | _ => True

theorem amid_notOk (hp : p.All Op.NotOk) (h : Amid codec cfg p s a s') : Grows Mark.NotOk s s' := by
  refine amid_grows ?_ ?_ hp h
  · intro mark hquiet
    cases mark <;> trivial
  · intro o b ho mark hmem
    cases o with
    | writeAll fd text =>
      rw [List.mem_singleton.mp hmem]
      exact ho
    | accept l => cases b with
      | none => cases hmem
      | some c => rw [List.mem_singleton.mp hmem]; trivial
    | readLine f => cases b with
      | none => cases hmem
      | some bytes => rw [List.mem_singleton.mp hmem]; trivial
    | close f => rw [List.mem_singleton.mp hmem]; trivial
    | _ => cases hmem

theorem response_notOk {fd : Int} {text : Bytes} (htext : ¬ lit "OK " <+: text) :
    (sendResponsef fd text).All Op.NotOk := by
  unfold sendResponsef
  split
  · trivial
  · exact (Prog.all_perform _).mpr htext

theorem amid_handleBlockIp {fd : Int} {ip : Bytes}
    (h : Amid codec cfg (handleBlockIp m fd ip) s m' s') (hok : ¬ Grows Mark.NotOk s s') {k : Nat}
    (hk : (m.clients.get k).matchesIp ip = true) :
    m'.clients.get k = (m.clients.get k).kick := by
  have hrefused : ∀ {text : Bytes}, ¬ lit "OK " <+: text →
      Amid codec cfg (sendResponsef fd text >>= fun _ => pure m) s m' s' →
        m'.clients.get k = (m.clients.get k).kick := by
    intro text htext hrun
    exact absurd (amid_notOk ((response_notOk htext).bind fun _ => Prog.all_pure _) hrun) hok
  unfold handleBlockIp at h
  split at h
  · exact hrefused (by decide +kernel) h
  · split at h
    · exact hrefused (by decide +kernel) h
    · obtain ⟨_, -, rfl⟩ := amid_map h
      exact (m.clients.get_blocked ip k).trans (if_pos hk)

theorem amid_handleKick {fd target_fd : Int} {argument : Bytes}
    (htarget : parseIntArg argument = some target_fd)
    (h : Amid codec cfg (handleKick m fd argument) s m' s') {k : Nat}
    (hk : (m.clients.get k).matchesFd target_fd = true)
    (hdistinct : ∀ j, m.clients.Holds target_fd j → j = k) :
    m'.clients.get k = (m.clients.get k).kick := by
  have hholds : ∀ j, (m.clients.get j).matchesFd target_fd = true →
    m.clients.Holds target_fd j := by
    intro j hj
    simp only [ClientSession.matchesFd, Bool.and_eq_true, beq_iff_eq] at hj
    exact hj.1
  have hmax : k < maxClients := Clients.lt_of_active (hholds k hk).1
  simp only [handleKick, htarget] at h
  split at h
  · next hnone =>
    have hmem : ∀ session ∈ m.clients.slots, session.matchesFd target_fd = false := by
      simpa [List.findIdx?_eq_none_iff] using hnone
    have hother := Clients.mem_slots_iff.mp hmem k hmax
    rw [hk] at hother
    cases hother
  · next i hfound =>
    obtain ⟨_, s₁, -, hrest⟩ := amid_bind.mp h
    obtain ⟨_, -, rfl⟩ := amid_map hrest
    obtain ⟨hlt, hmatches, -⟩ := List.findIdx?_eq_some_iff_getElem.mp hfound
    have hget : m.clients.get i = m.clients.slots[i] := List.getD_eq_getElem _ _ hlt
    obtain rfl : i = k := hdistinct i (hholds i (by rwa [hget]))
    dsimp only
    rw [Clients.get_set, if_pos ⟨rfl, hmax⟩]
    rfl

theorem announced_doomed {ℓ ℓ' : LoopState} {k : Nat} (hstep : LoopStep codec cfg dt fds ℓ ℓ')
    (htable : SessionTable ℓ.phase.main.clients ℓ.sys.history) (h : Announced ℓ ℓ' k) :
    Doomed ℓ'.phase.main k ∧ (ℓ'.phase.main.clients.get k).fd =
      (ℓ.phase.main.clients.get k).fd := by
  obtain ⟨revents, left, i, idx, m, text, new, hphase, hactive, hadmin, hnew, hreply, htells⟩ := h
  obtain ⟨phase, s⟩ := ℓ
  obtain rfl : phase = .walking revents (left + 1) i idx m := hphase
  have hok := htells.ok
  have hnotAll : ∀ {s' : Sys}, s'.history = new ++ s.history → ¬ Grows Mark.NotOk s s' := by
    rintro s' hs' ⟨new', hnew', hmarks⟩
    obtain rfl : new = new' := List.append_cancel_right (hs'.symm.trans hnew')
    exact hmarks _ hreply hok
  have hkick : ∀ {m' : MainState}, m'.clients.get k = (m.clients.get k).kick →
      Doomed m' k ∧ (m'.clients.get k).fd = (m.clients.get k).fd := by
    intro m' hm'
    rw [Doomed, hm']
    exact ⟨⟨htells.1, rfl⟩, rfl⟩
  cases hstep with
  | skip hidle =>
    rw [hactive] at hidle
    cases hidle
  | @visit m m' s s' _ _ _ _ _ hrun =>
    refine hkick ?_
    have hfails := hnotAll hnew
    unfold visitSlot at hrun
    split at hrun
    · obtain ⟨line, s₁, hread, hrest⟩ := amid_bind.mp hrun
      have hread_all : (call (.readLine (m.clients.get i).fd)).All Op.NotOk :=
        (Prog.all_perform (C := Op.NotOk) _).mpr trivial
      have hfirst : Grows Mark.NotOk s s₁ := amid_notOk hread_all hread
      have hrest_fails : ¬ Grows Mark.NotOk s₁ s' := fun hgrows => hfails (hfirst.trans hgrows)
      split at hrest
      · exact absurd (amid_notOk ((closeClient_all _ trivial).bind fun _ =>
          Prog.all_pure _) hrest) hrest_fails
      · simp only [hadmin, if_true] at hrest
        rw [nextRequest, ← amid_readLine hread] at htells
        obtain ⟨hlive, huser, ⟨hcommand, htarget, -⟩ | ⟨hcommand, hip, -⟩⟩ := htells
        · simp only [handleAdminCommand, hcommand] at hrest
          refine amid_handleKick htarget hrest (by simp [ClientSession.matchesFd, hlive, huser])
            fun j hj => ?_
          exact htable.distinct _ j k hj ⟨hlive, rfl⟩
        · simp only [handleAdminCommand, hcommand] at hrest
          exact amid_handleBlockIp hrest hrest_fails
            (by simp [ClientSession.matchesIp, hlive, huser, hip])
    · exact absurd (amid_notOk (Prog.all_pure _) hrun) hfails

/-- The sessions are being walked over or swept. -/
def Phase.underway : Phase → Bool
  | .walking .. | .sweeping .. => true
  | _ => false

/-- From `ℓ₂` to `ℓ₃` nothing is read from the session that slot `k` had in `ℓ₁` before it is
closed; and when the walk and the sweep are over, it has been closed. -/
def ClosedUnread (ℓ₁ ℓ₂ ℓ₃ : LoopState) (k : Nat) : Prop :=
  ∃ new, ℓ₃.sys.history = new ++ ℓ₂.sys.history ∧
    (ℓ₃.phase.underway = false → .closed (ℓ₁.phase.main.clients.get k).fd ∈ new) ∧
    ∀ later bytes earlier, bytes ≠ [] → new = later ++
      .line (ℓ₁.phase.main.clients.get k).fd bytes :: earlier →
      .closed (ℓ₁.phase.main.clients.get k).fd ∈ earlier

/-- Since `ℓ₂` nothing has been read from the session of slot `k` before its close. -/
abbrev KickedOut (f : Int) (k : Nat) (ℓ₂ ℓ : LoopState) : Prop :=
  KeptOut (· ≠ []) f ((Doomed ℓ.phase.main k ∧ (ℓ.phase.main.clients.get k).fd = f) ∧
    Passed ℓ k) ℓ₂ ℓ

theorem LoopStep.kickedOut {f : Int} {k : Nat} {ℓ₂ ℓ ℓ' : LoopState}
    (hstep : LoopStep codec cfg dt fds ℓ ℓ')
    (htable : SessionTable ℓ.phase.main.clients ℓ.sys.history) (hswept : ℓ.phase.Swept)
    (h : KickedOut f k ℓ₂ ℓ) :
    KickedOut f k ℓ₂ ℓ' := by
  refine hstep.keptOut ?_ ?_ h
  · rintro ⟨⟨hdoomed, rfl⟩, hpassed⟩ bytes hbytes
    exact hpassed.no_line htable hdoomed.1 hbytes
  · rintro ⟨⟨hdoomed, hfd⟩, hpassed⟩
    refine (hstep.doomed hdoomed hfd).imp (fun hnext => ⟨hnext, ?_⟩) id
    exact hstep.passed htable hswept hnext.1 hpassed

theorem LoopRun.kickedOut {files : Bytes → Option Bytes} {f : Int} {k : Nat} {ℓ₂ ℓ₃ : LoopState}
    (hbefore : LoopRun codec cfg dt fds (initialLoop files) ℓ₂)
    (hafter : LoopRun codec cfg dt fds ℓ₂ ℓ₃) (hkernel : FreshAccepts ℓ₃.sys.history)
    (h : KickedOut f k ℓ₂ ℓ₂) : KickedOut f k ℓ₂ ℓ₃ := by
  induction hafter with
  | refl => exact h
  | tail hpre hlast ih =>
    have hearlier := hlast.fresh hkernel
    have hrun := hbefore.trans hpre
    exact hlast.kickedOut (LoopRun.table hrun hearlier) (LoopRun.swept hrun) (ih hearlier)

/-- Some run goes on to read from a kicked session that the walk has not passed. -/
theorem exists_read {files : Bytes → Option Bytes} {revents : Nat → Revents} {left i idx k : Nat}
    (hrun : LoopRun codec cfg dt fds (initialLoop files) ⟨.walking revents left i idx m, s⟩)
    (hkernel : FreshAccepts s.history) (hdoomed : Doomed m k)
    (hreached : ¬ Passed ⟨.walking revents left i idx m, s⟩ k) :
    ∃ ℓ₃ later bytes earlier, LoopRun codec cfg dt fds ⟨.walking revents left i idx m, s⟩ ℓ₃ ∧
      FreshAccepts ℓ₃.sys.history ∧ bytes ≠ [] ∧ .closed (m.clients.get k).fd ∉ earlier ∧
      ℓ₃.sys.history = later ++ .line (m.clients.get k).fd bytes :: (earlier ++ s.history) := by
  simp only [Passed, Silent, not_or, Nat.not_lt, Bool.not_eq_false] at hreached
  obtain ⟨hik, hready, hbytes⟩ := hreached
  have hmax : k < maxClients := Clients.lt_of_active hdoomed.1
  have hlength := LoopRun.walk_length hrun _ _ _ _ _ rfl
  obtain ⟨n, rfl⟩ := Nat.exists_eq_add_of_le hik
  obtain ⟨rest, rfl⟩ : ∃ rest, left = n + (rest + 1) := ⟨left - n - 1, by omega⟩
  obtain ⟨m', s', hlater, hdoomed', hfd, hstream, earlier, hearlier, hapart⟩ :=
    LoopRun.comes_to hrun hkernel hdoomed rfl
  obtain ⟨bytes, hline⟩ : ∃ bytes,
    (readLine bufferSize (s.world.streams (m.clients.get (i + n)).fd)).1 = some bytes := by
    cases hread : (readLine bufferSize (s.world.streams (m.clients.get (i + n)).fd)).1 with
    | none => exact absurd (by rw [hread]; rfl) hbytes
    | some bytes => exact ⟨bytes, rfl⟩
  rw [hline] at hbytes
  rw [← hstream, ← hfd] at hline
  obtain ⟨m₃, s₃, later, hvisit, hhistory, hopens⟩ : ∃ m₃ s₃ later,
      Amid codec cfg (visitSlot cfg dt revents (i + n) _ m') s' m₃ s₃ ∧
      s₃.history = later ++ .line (m'.clients.get (i + n)).fd bytes :: s'.history ∧
        ∀ f, .opened f ∉ later :=
    exists_reading_visit hready hline
  rw [hfd, hearlier] at hhistory
  refine ⟨⟨.walking revents rest (i + n + 1) _ m₃, s₃⟩, later, bytes, earlier,
    hlater.tail (.visit hdoomed'.1 hvisit), ?_,
    hbytes, ?_, hhistory⟩
  · rw [hhistory]
    refine freshAccepts_append hopens ?_
    exact freshAccepts_append (fun g hmem => (hapart _ hmem).2 g rfl) hkernel
  · exact fun hclosed => (hapart _ hclosed).1 rfl

/-- An admin who is about to send KICK takes slot 0, a user who is about to send PING slot 1. -/
def adminThenUser : List (Tid × Env) :=
  [(.main, {}), (.main, pollReports [1]),
    (.main, { connection := some ⟨8, .inet 10 0 0 1, [.chunk 75 (lit "ICK 9\n")]⟩ }),
    (.main, {}), (.main, {}), (.main, {}), (.main, pollReports [0]),
    (.main, { connection := some ⟨9, .inet 10 0 0 7, [.chunk 80 (lit "ING\n")]⟩ }), (.main, {})]

def bothSeated : MainState :=
  MainState.put (MainState.put {} 0 (newSession 8 .admin (lit "10.0.0.1"))) 1
    (newSession 9 .user (lit "10.0.0.7"))

def seatedHistory : List Mark :=
  [.reply 9 (lit "OK connected\n"), .opened 9, .turn .main,
    .reply 8 (lit "OK connected\n"), .opened 8]

/-- The marks of the admin's visit. -/
def kickMarks : List Mark :=
  [.reply 8 (lit "OK kicked fd=9\n"), .reply 9 (lit "ERR kicked by admin\n"),
    .line 8 (lit "KICK 9\n")]

/-- The marks of the user's. -/
def pingMarks : List Mark := [.reply 9 (lit "PONG\n"), .line 9 (lit "PING\n")]

/-- Both visits of a walk that finds both sessions ready. -/
def bothVisits (s : Sys) : Option ((MainState × Sys) × (MainState × Sys)) :=
  (execute boundedCodec .main
    (visitSlot runtimeConfigDefaults plainDurations (pollIn [5, 6]) 0 5 bothSeated)
    (fun _ => {}) s).bind fun r =>
  (execute boundedCodec .main
    (visitSlot runtimeConfigDefaults plainDurations (pollIn [5, 6]) 1 6 r.1)
    (fun _ => {}) r.2).map fun r' => (r, r')

theorem kick_tells {c : ClientSession} (hc : c = newSession 9 .user (lit "10.0.0.7")) :
    Tells (protocolParseLine (lit "KICK 9\n")) c (lit "OK kicked fd=9\n") := by
  subst hc
  exact ⟨rfl, rfl, .inl ⟨by decide +kernel, by decide +kernel, by decide +kernel⟩⟩

def userFirst : MainState :=
  MainState.put (MainState.put {} 0 (newSession 9 .user (lit "10.0.0.7"))) 1
    (newSession 8 .admin (lit "10.0.0.1"))

def adminAlone : MainState := MainState.put {} 1 (newSession 8 .admin (lit "10.0.0.1"))

/-- What the parts of two iterations leave: a user and an admin connect, then both are ready,
and the sweep closes the user's session. -/
structure KickedInTime where
  seated : Sys
  answered : MainState × Sys
  kicked : MainState × Sys
  swept : ClientSession × Sys

/-- The user sends PING, and HELP behind it; the admin sends KICK. -/
def kickInTime : Option KickedInTime :=
  (execute boundedCodec .main (serveListener plainFds (pollIn [0, 1]) {} .user)
    (fun _ => { connection := some ⟨9, .inet 10 0 0 7, [.chunk 80 (lit "ING\nHELP\n")]⟩ })
    { world := { files := fun _ => none }, history := [] }).bind fun r₁ =>
  (execute boundedCodec .main (serveListener plainFds (pollIn [0, 1]) r₁.1.1 .admin)
    (fun _ => { connection := some ⟨8, .inet 10 0 0 1, [.chunk 75 (lit "ICK 9\n")]⟩ })
    r₁.2).bind fun r₂ =>
  (execute boundedCodec .main
    (visitSlot runtimeConfigDefaults plainDurations (pollIn [5, 6]) 0 5 userFirst)
    (fun _ => {}) ((machine boundedCodec).turn .main r₂.2)).bind fun r₃ =>
  (execute boundedCodec .main
    (visitSlot runtimeConfigDefaults plainDurations (pollIn [5, 6]) 1 6 r₃.1)
    (fun _ => {}) r₃.2).bind fun r₄ =>
  (execute boundedCodec .main (closeClient (r₄.1.clients.get 0)) (fun _ => {}) r₄.2).bind fun r₅ =>
    if r₂.1.1 = userFirst then some ⟨r₂.2, r₃, r₄, r₅⟩ else none

theorem put_get_other {k : Nat} {session : ClientSession} (m : MainState) (i : Nat) (hk : k ≠ i) :
    (m.put i session).clients.get k = m.clients.get k := by
  rw [MainState.put, Clients.get_set, if_neg fun h => hk h.1]

theorem userFirst_calm (k : Nat) : ¬ Doomed userFirst k := by
  intro hdoomed
  by_cases hk : 1 < k
  · rw [Doomed, userFirst, put_get_other _ _ (by omega), put_get_other _ _ (by omega)] at hdoomed
    have hidle : ({} : MainState).clients.get k = {} := idle_get k
    exact absurd hdoomed.1 (by rw [hidle]; decide)
  · obtain rfl | rfl : k = 0 ∨ k = 1 := by omega
    · cases hdoomed.2
    · cases hdoomed.2

theorem adminAlone_calm (k : Nat) : ¬ Doomed adminAlone k := by
  intro hdoomed
  by_cases hk : k = 1
  · subst hk
    cases hdoomed.2
  · rw [Doomed, adminAlone, put_get_other _ _ hk] at hdoomed
    have hidle : ({} : MainState).clients.get k = {} := idle_get k
    exact absurd hdoomed.1 (by rw [hidle]; decide)

end

end StegaPng
