import StegaPng.Pipeline
import StegaPng.Replies

/-! What follows the announcement of a download. -/

namespace StegaPng

open Interleaving

def dataLine (size : Nat) : Bytes := lit "DATA " ++ decimal size ++ lit "\n"

/-- The session is sent the content and nothing else. -/
def Delivered (fd : Int) (content : Bytes) (tr : List Call) : Prop :=
  (sentTo fd tr).flatten = content ∧ ∀ text s, (⟨.writeAll fd text, s, false⟩ : Call) ∈ tr →
    text = []

/-- The file is read whole, and if there is anything in it, it is opened and written. -/
def Unfailing (fd : Int) (path content : Bytes) (tr : List Call) : Prop :=
  (∀ s r, (⟨.freadAll path, s, r⟩ : Call) ∈ tr → r.1 = content) ∧
    (content = [] ∨ (∀ s, (⟨.fopenRb path, s, false⟩ : Call) ∉ tr) ∧ ∀ text s,
      (⟨.writeAll fd text, s, false⟩ : Call) ∉ tr)

section

variable {codec : PngCodec} {cfg : RuntimeConfig} {dt : DurationText} {fds : ServerFds}
  {m m' : MainState} {s s' : Sys} {tr pre post : List Call} {fd : Int} {size : Nat}
  {path content : Bytes}

/-- The first text that is sent splits the calls in one way. -/
theorem first_sent {pre' post' : List Call} {c c' : Call} (hpre : sentTo fd pre = [])
    (hpre' : sentTo fd pre' = []) (hc : c.op.sends fd ≠ none) (hc' : c'.op.sends fd ≠ none)
    (h : pre ++ c :: post = pre' ++ c' :: post') :
    pre = pre' ∧ c = c' ∧ post = post' := by
  have hquiet : ∀ {tr : List Call}, sentTo fd tr = [] → ∀ d ∈ tr, d.op.sends fd = none := by
    intro tr htr d hd
    exact List.filterMap_eq_nil_iff.mp htr d hd
  induction pre generalizing pre' with
  | nil =>
    cases pre' with
    | nil =>
      obtain ⟨rfl, rfl⟩ := List.cons.inj h
      exact ⟨rfl, rfl, rfl⟩
    | cons d pre' =>
      obtain ⟨rfl, -⟩ := List.cons.inj h
      exact absurd (hquiet hpre' _ List.mem_cons_self) hc
  | cons d pre ih =>
    have hd := hquiet hpre d List.mem_cons_self
    cases pre' with
    | nil =>
      obtain ⟨rfl, -⟩ := List.cons.inj h
      exact absurd hd hc'
    | cons d' pre' =>
      obtain ⟨rfl, hrest⟩ := List.cons.inj h
      rw [sentTo_cons hd] at hpre hpre'
      obtain ⟨rfl, hsame⟩ := ih hpre hpre' hrest
      exact ⟨rfl, hsame⟩

theorem calls_sendFile {b : Bool} (h : AmidCalls codec cfg (storageSendFile fd path) s tr b s') :
    (∃ s₁, tr = [⟨.fopenRb path, s₁, false⟩]) ∨
      ∃ s₁ s₂ s₃ r sent, tr = [⟨.fopenRb path, s₁, true⟩, ⟨.freadAll path, s₂, r⟩,
        ⟨.writeAll fd r.1, s₃, sent⟩] := by
  obtain ⟨s₁, opened, s₂, rest, rfl, -, -, hrest⟩ := calls_call h
  cases opened with
  | false =>
    obtain ⟨rfl, -, -⟩ := Traced.ret_iff.mp hrest
    exact .inl ⟨s₁, rfl⟩
  | true =>
    obtain ⟨s₃, r, s₄, rest', rfl, -, -, hwrite⟩ := calls_call hrest
    obtain ⟨s₅, sent, s₆, rest'', rfl, -, -, hret⟩ := calls_call hwrite
    have hdone : rest'' = [] := by
      cases sent with
      | false => exact (Traced.ret_iff.mp hret).1
      | true => exact (Traced.ret_iff.mp hret).1
    subst hdone
    exact .inr ⟨s₁, s₃, s₅, r, sent, rfl⟩

theorem delivered_iff {b : Bool} (h : AmidCalls codec cfg (storageSendFile fd path) s tr b s') :
    Delivered fd content tr ↔ Unfailing fd path content tr := by
  rcases calls_sendFile h with ⟨s₁, rfl⟩ | ⟨s₁, s₂, s₃, r, sent, rfl⟩
  · simp [Delivered, Unfailing, sentTo, Op.sends, eq_comm]
  · have hsent : sentTo fd [(⟨.fopenRb path, s₁, true⟩ : Call), ⟨.freadAll path, s₂, r⟩,
      ⟨.writeAll fd r.1, s₃, sent⟩] = [r.1] := by
      simp [sentTo, Op.sends]
    rw [Delivered, hsent, List.flatten_singleton, Unfailing]
    cases sent with
    | true => simp
    | false =>
      have hread : r.1 = content → (r.1 = [] ↔ content = []) := fun hread => by rw [hread]
      simpa using hread

theorem dataLine_head (size : Nat) : (dataLine size).head? = some 68 := rfl

theorem not_announced {β : Type} {text : Bytes} {s₁ : Sys} {sent : Bool} {f : Bool → β} {b : β}
    (htext : text.head? ≠ some 68)
    (h : AmidCalls codec cfg (sendResponsef fd text >>= fun x => pure (f x)) s
      (pre ++ ⟨.writeAll fd (dataLine size), s₁, sent⟩ :: post) b s') : False := by
  have hop := calls_respond h _ (List.mem_append_right _ List.mem_cons_self)
  obtain ⟨-, hdata⟩ := Op.writeAll.inj hop
  exact htext (hdata ▸ dataLine_head size)

theorem announced_later {c : Call} {rest : List Call} {s₁ : Sys} {sent : Bool}
    (hc : c.op.sends fd = none) (hpre : sentTo fd pre = [])
    (h : pre ++ ⟨.writeAll fd (dataLine size), s₁, sent⟩ :: post = c :: rest) :
    ∃ pre', pre = c :: pre' ∧ sentTo fd pre' = [] ∧
      rest = pre' ++ ⟨.writeAll fd (dataLine size), s₁, sent⟩ :: post := by
  cases pre with
  | nil =>
    obtain ⟨rfl, -⟩ := List.cons.inj h
    simp [Op.sends] at hc
  | cons d pre =>
    obtain ⟨rfl, rfl⟩ := List.cons.inj h
    rw [sentTo_cons hc] at hpre
    exact ⟨pre, rfl, hpre, rfl⟩

theorem announced_same {text text' : Bytes} {s₁ s₂ : Sys} {b b' : Bool}
    (h : (⟨.writeAll fd text, s₁, b⟩ : Call) = ⟨.writeAll fd text', s₂, b'⟩) :
    text = text' ∧ b = b' := by
  cases h
  exact ⟨rfl, rfl⟩

theorem dataLine_injective {n n' : Nat} (h : dataLine n = dataLine n') : n = n' := by
  have hdigits := List.append_cancel_left (List.append_cancel_right h)
  exact decimal_injective hdigits

theorem stat_content {e : Env} {w w' : World} {n : Nat} {marks : List Mark}
    (h : exec codec e .main w (.stat path) = some (some n, w', marks)) :
    ∃ content, w.files path = some content ∧ content.length = n := by
  simp only [exec, Option.some.injEq, Prod.mk.injEq] at h
  obtain ⟨hstat, -⟩ := h
  split at hstat
  · exact Option.map_eq_some_iff.mp hstat
  · cases hstat

theorem calls_download {job : Nat} {u : Unit} {s₁ : Sys} (hpre : sentTo fd pre = [])
    (h : AmidCalls codec cfg (handleDownload fd job) s (pre ++
      ⟨.writeAll fd (dataLine size), s₁, true⟩ :: post) u s') :
    ∃ path content s₀, (⟨.stat path, s₀, some size⟩ : Call) ∈ pre ∧
      s₀.world.files path = some content ∧
      content.length = size ∧ (Delivered fd content post ↔ Unfailing fd path content post) := by
  obtain ⟨s₂, st, s₃, rest₁, heq₁, -, -, h₁⟩ := calls_call h
  obtain ⟨pre₁, rfl, hpre₁, rfl⟩ := announced_later rfl hpre heq₁
  split at h₁
  · exact (not_announced (by decide) h₁).elim
  · obtain ⟨s₄, path, s₅, rest₂, heq₂, -, -, h₂⟩ := calls_call h₁
    obtain ⟨pre₂, rfl, hpre₂, rfl⟩ := announced_later rfl hpre₁ heq₂
    split at h₂
    · exact (not_announced (by decide) h₂).elim
    · obtain ⟨s₆, size', s₇, rest₃, heq₃, -, ⟨e, marks, -, hexec, -⟩, h₃⟩ := calls_call h₂
      obtain ⟨pre₃, rfl, hpre₃, rfl⟩ := announced_later rfl hpre₂ heq₃
      cases size' with
      | none => exact (not_announced (by decide) h₃).elim
      | some n =>
        obtain ⟨told, s₈, tr₁, tr₂, heq₄, hline, hsend⟩ := calls_bind h₃
        rcases calls_response hline with ⟨rfl, -, rfl⟩ | ⟨-, s₉, rfl⟩
        · obtain ⟨rfl, -, -⟩ := Traced.ret_iff.mp hsend
          simp at heq₄
        · obtain ⟨rfl, hcall, rfl⟩ :=
            first_sent hpre₃ (rfl : sentTo fd [] = []) (by simp [Op.sends])
            (by simp [Op.sends]) heq₄
          obtain ⟨hsize, rfl⟩ := announced_same hcall
          obtain rfl : size = n := dataLine_injective hsize
          obtain ⟨_, s₁₀, hfile, -⟩ := calls_map hsend
          obtain ⟨content, hcontent, hlength⟩ := stat_content hexec
          exact ⟨path, content, s₆, by simp, hcontent, hlength, delivered_iff hfile⟩

theorem visit_download {revents : Nat → Revents} {i idx : Nat} {s₁ : Sys}
    (hcommand : (nextRequest s (m.clients.get i).fd).command = .download)
    (hpre : sentTo (m.clients.get i).fd pre = [])
    (h : AmidCalls codec cfg (visitSlot cfg dt revents i idx m) s
      (pre ++ ⟨.writeAll (m.clients.get i).fd (dataLine size), s₁, true⟩ :: post) m' s') :
    m' = m ∧ ∃ path content s₀, (⟨.stat path, s₀, some size⟩ : Call) ∈ pre ∧
      s₀.world.files path = some content ∧
      content.length = size ∧
      (Delivered (m.clients.get i).fd content post ↔
        Unfailing (m.clients.get i).fd path content post) := by
  by_cases hserved : (revents idx).any = true ∧
      ((readLine bufferSize (s.world.streams (m.clients.get i).fd)).1).getD [] ≠ []
  · obtain ⟨s₂, b, s₃, rest, heq, hserve⟩ := calls_visit hserved.1 hserved.2 h
    obtain ⟨pre₁, rfl, hpre₁, rfl⟩ := announced_later rfl hpre heq
    by_cases hadmin : (m.clients.get i).type = .admin
    · have hanswer := calls_admin hadmin hserve
      simp only [handleAdminCommand, hcommand] at hanswer
      exact (not_announced (by decide) hanswer).elim
    · obtain ⟨s₄, hanswer, hm⟩ := calls_user hadmin (by rw [hcommand]; decide) hserve
      simp only [answerUserCommand, hcommand] at hanswer
      obtain ⟨s₅, found, s₆, rest₂, heq₂, ⟨-, hnone⟩ | ⟨job, -, hjob⟩⟩ := calls_withJob hanswer
      · obtain ⟨pre₂, rfl, hpre₂, rfl⟩ := announced_later rfl hpre₁ heq₂
        exact (not_announced (by decide) hnone).elim
      · obtain ⟨pre₂, rfl, hpre₂, rfl⟩ := announced_later rfl hpre₁ heq₂
        obtain ⟨path, content, s₀, hmem, hrest⟩ := calls_download hpre₂ hjob
        exact ⟨hm.trans (put_get m i), path, content, s₀,
          List.mem_cons_of_mem _ (List.mem_cons_of_mem _ hmem), hrest⟩
  · have hhangs := calls_hangUp (fun hready => not_not.mp fun hline => hserved ⟨hready, hline⟩) h
    have hhang := hhangs _ (List.mem_append_right _ List.mem_cons_self)
    exact hhang.elim

/-! A session whose close is due. -/

/-- The walk is past the slot, or the sweep has not reached it. -/
def Behind (ℓ : LoopState) (k : Nat) : Prop :=
  match ℓ.phase with
  | .walking _ _ i _ _ => k < i
  | .sweeping _ i _ => i ≤ k
  | _ => False

theorem Behind.no_line {ℓ : LoopState} {k : Nat} (h : Behind ℓ k)
    (htable : SessionTable ℓ.phase.main.clients ℓ.sys.history)
    (hactive : (ℓ.phase.main.clients.get k).active = true) {bytes : Bytes} :
    ¬ ReadsLine ℓ (ℓ.phase.main.clients.get k).fd bytes := by
  rintro ⟨revents, left, i, idx, m, hphase, hreads, hfd, -, -⟩
  have hmain : ℓ.phase.main = m := by rw [hphase]; rfl
  rw [hmain] at htable hactive hfd
  obtain rfl : i = k := htable.distinct _ i k ⟨hreads, hfd⟩ ⟨hactive, rfl⟩
  rw [Behind, hphase] at h
  exact Nat.lt_irrefl _ h

/-- A session that is to be kicked is not passed by in the sweep. -/
theorem LoopStep.behind {ℓ ℓ' : LoopState} {k : Nat} (hstep : LoopStep codec cfg dt fds ℓ ℓ')
    (hswept : ℓ.phase.Swept) (hdoomed : Doomed ℓ.phase.main k) (hlater : Doomed ℓ'.phase.main k)
    (h : Behind ℓ k) : Behind ℓ' k := by
  cases hstep with
  | skip _ => exact Nat.lt_succ_of_lt h
  | visit _ _ => exact Nat.lt_succ_of_lt h
  | walked _ => exact Nat.zero_le k
  | @keep m s left i hkeep =>
    change i ≤ k at h
    change i + 1 ≤ k
    rcases Nat.lt_or_eq_of_le h with hlt | rfl
    · exact hlt
    · dsimp only [Doomed, Phase.main] at hdoomed
      rw [hdoomed.1, hdoomed.2] at hkeep
      cases hkeep
  | @close m s s' left i closed hkicked hrun =>
    have hactive := (Bool.and_eq_true _ _ ▸ hkicked).1
    obtain ⟨rfl, -⟩ := amid_closeClient hactive hrun
    change i ≤ k at h
    change i + 1 ≤ k
    simp only [Doomed, Phase.main, Clients.get_set] at hlater
    split at hlater
    · cases hlater.1
    · next hne =>
      have hi : i < maxClients := Clients.lt_of_active hactive
      omega
  | @swept m s s' i _ =>
    change i ≤ k at h
    obtain ⟨hsum, -⟩ := hswept
    have hactive := hdoomed.1
    dsimp only [Phase.main] at hactive
    rw [m.clients.get_of_ge (by omega)] at hactive
    cases hactive
  | _ => exact h.elim

/-- Before the session is closed, no line of it is read. -/
def ClosedFirst (f : Int) (ℓ₂ ℓ₃ : LoopState) : Prop := KeptOut (fun _ => True) f True ℓ₂ ℓ₃

theorem LoopRun.closedFirst {files : Bytes → Option Bytes} {f : Int} {k : Nat} {ℓ₂ ℓ₃ : LoopState}
    (hbefore : LoopRun codec cfg dt fds (initialLoop files) ℓ₂)
    (hafter : LoopRun codec cfg dt fds ℓ₂ ℓ₃) (hkernel : FreshAccepts ℓ₃.sys.history)
    (hdoomed : Doomed ℓ₂.phase.main k) (hfd : (ℓ₂.phase.main.clients.get k).fd = f)
    (hbehind : Behind ℓ₂ k) : ClosedFirst f ℓ₂ ℓ₃ := by
  have hkept : KeptOut (fun _ => True) f ((Doomed ℓ₃.phase.main k ∧
    (ℓ₃.phase.main.clients.get k).fd = f) ∧ Behind ℓ₃ k) ℓ₂ ℓ₃ := by
    induction hafter with
    | refl => exact keptOut_refl ⟨⟨hdoomed, hfd⟩, hbehind⟩
    | tail hpre hlast ih =>
      have hearlier := hlast.fresh hkernel
      have hrun := hbefore.trans hpre
      refine hlast.keptOut ?_ ?_ (ih hearlier)
      · rintro ⟨⟨hstill, rfl⟩, hpassed⟩ bytes -
        exact hpassed.no_line (LoopRun.table hrun hearlier) hstill.1
      · rintro ⟨⟨hstill, hsame⟩, hpassed⟩
        refine (hlast.doomed hstill hsame).imp (fun hnext => ⟨hnext, ?_⟩) id
        exact hlast.behind (LoopRun.swept hrun) hstill hnext.1 hpassed
  obtain ⟨new, hnew, -, hlines⟩ := hkept
  exact ⟨new, hnew, .inr trivial, hlines⟩

/-- What follows the announcement is the file, or nothing more is done for the client, unless
opening, reading or writing the file goes wrong: then the session is left open. -/
theorem download_framed {files : Bytes → Option Bytes} {revents : Nat → Revents}
    {left i idx : Nat} {s₁ : Sys}
    (hrun : LoopRun codec cfg dt fds (initialLoop files) ⟨.walking revents (left + 1) i idx m, s⟩)
    (hactive : (m.clients.get i).active = true)
    (hcommand : (nextRequest s (m.clients.get i).fd).command = .download)
    (hpre : sentTo (m.clients.get i).fd pre = [])
    (h : AmidCalls codec cfg (visitSlot cfg dt revents i idx m) s
      (pre ++ ⟨.writeAll (m.clients.get i).fd (dataLine size), s₁, true⟩ :: post) m' s') :
    ∃ path content s₀, (⟨.stat path, s₀, some size⟩ : Call) ∈ pre ∧
      s₀.world.files path = some content ∧
      content.length = size ∧
      (Unfailing (m.clients.get i).fd path content post ∨
        (m.clients.get i).kick_requested = true → ∀ ℓ,
        LoopRun codec cfg dt fds ⟨.walking revents left (i + 1) (idx + 1) m', s'⟩ ℓ →
          FreshAccepts ℓ.sys.history →
        Delivered (m.clients.get i).fd content post ∨
          ClosedFirst (m.clients.get i).fd ⟨.walking revents left (i + 1) (idx + 1) m', s'⟩ ℓ) ∧
      (¬ (Unfailing (m.clients.get i).fd path content post ∨
        (m.clients.get i).kick_requested = true) →
        ¬ Delivered (m.clients.get i).fd content post ∧ (m'.clients.get i).active = true ∧
          (m'.clients.get i).kick_requested = false) := by
  obtain ⟨rfl, path, content, s₀, hstat, hfile, hlength, hdelivered⟩ :=
    visit_download hcommand hpre h
  refine ⟨path, content, s₀, hstat, hfile, hlength, fun hgood ℓ hlater hkernel => ?_,
    fun hbad => ?_⟩
  · rcases hgood with hgood | hkicked
    · exact .inl (hdelivered.mpr hgood)
    · refine .inr (LoopRun.closedFirst (k := i) (hrun.tail (.visit hactive h.runs)) hlater hkernel
        ⟨hactive, hkicked⟩ rfl ?_)
      exact Nat.lt_succ_self i
  · exact ⟨fun hsent => hbad (.inl (hdelivered.mp hsent)), hactive,
      Bool.eq_false_iff.mpr fun hkicked => hbad (.inr hkicked)⟩

end

/-- A user has a text hidden, asks for the result and goes on. -/
def downloadThenPing : List (Tid × Env) :=
  let sent := lit "NCODE_TEXT 209 2\n" ++ rawSave (blackStrip 64) ++ lit "hiDOWNLOAD 1\nPING\n"
  [(.main, {}), (.main, pollReports [0]),
    (.main, { connection := some ⟨9, .inet 10 0 0 7, [.chunk 69 sent]⟩ }), (.main, {}), (.main, {}),
      (.main, {}), (.main, pollReports [5])] ++
  steps 16 .main ++ steps 26 (.worker 0)

/-- What a call writes. -/
def Performed.written : Call → Option (Int × Bytes × Bool)
  | ⟨.writeAll fd text, _, sent⟩ => some (fd, text, sent)
  | _ => none

theorem Performed.of_written {c : Call} {fd : Int} {text : Bytes} {sent : Bool}
    (h : Performed.written c = some (fd, text, sent)) :
    ∃ s, c = ⟨.writeAll fd text, s, sent⟩ := by
  obtain ⟨o, s, b⟩ := c
  cases o with
  | writeAll f t =>
    cases h
    exact ⟨s, rfl⟩
  | _ => cases h

theorem sentTo_unwritten {fd : Int} {tr : List Call} (h : ∀ c ∈ tr, Performed.written c = none) :
    sentTo fd tr = [] := by
  refine List.filterMap_eq_nil_iff.mpr fun c hc => ?_
  have hnone := h c hc
  obtain ⟨o, s, b⟩ := c
  cases o with
  | writeAll f text => cases hnone
  | _ => rfl

/-- The session's next visit. -/
def nextVisit (s : Sys) : Option (MainState × Sys) :=
  execute boundedCodec .main (visitSlot runtimeConfigDefaults plainDurations (pollIn [5]) 0 5
    (onlySession .user))
    (fun _ => {}) ((machine boundedCodec).turn .main s)

/-- After a visit in slot 0 that leaves everybody in peace, the next iteration comes to the
session again. -/
theorem seated_again (s : Sys) :
    LoopRun boundedCodec runtimeConfigDefaults plainDurations plainFds
      ⟨.walking (pollIn [5]) 127 1 6 (onlySession .user), s⟩
      ⟨.walking (pollIn [5]) maxClients 0 5 (onlySession .user),
        (machine boundedCodec).turn .main s⟩ := by
  have hquiet : ∀ e, 6 ≤ e → (pollIn [5] e).any = false := by
    intro e he
    have hmem : e ∉ [5] := by simp; omega
    simp [pollIn, Revents.any, hmem]
  exact (quiet_walk hquiet).trans (((quiet_sweep (onlySession_calm .user)).tail .turn).trans
    (ready_walk (r := [5]) (by decide)))

theorem visited_again {s s' : Sys} {m : MainState} (h : nextVisit s = some (m, s')) :
    LoopRun boundedCodec runtimeConfigDefaults plainDurations plainFds
      ⟨.walking (pollIn [5]) 127 1 6 (onlySession .user),
        s⟩ ⟨.walking (pollIn [5]) 127 1 6 m, s'⟩ :=
  (seated_again s).tail (.visit rfl (amid_of_execute h))

/-- `fopen` fails after the announcement; the client's next command is answered. -/
theorem lostDownload_visit :
    ∃ s pre s₁ post s' ℓ, LoopRun boundedCodec runtimeConfigDefaults plainDurations plainFds
      (initialLoop fun _ => none)
        ⟨.walking (pollIn [5]) maxClients 0 5 (onlySession .user), s⟩ ∧
      AmidCalls boundedCodec runtimeConfigDefaults
        (visitSlot runtimeConfigDefaults plainDurations (pollIn [5]) 0 5 (onlySession .user)) s
        (pre ++ ⟨.writeAll 9 (dataLine 209), s₁, true⟩ :: post) (onlySession .user) s' ∧
      (nextRequest s 9).command = .download ∧ sentTo 9 pre = [] ∧ sentTo 9 post = [] ∧
      LoopRun boundedCodec runtimeConfigDefaults plainDurations plainFds
        ⟨.walking (pollIn [5]) 127 1 6 (onlySession .user), s'⟩ ℓ ∧ FreshAccepts ℓ.sys.history ∧
      ¬ ClosedFirst 9 ⟨.walking (pollIn [5]) 127 1 6 (onlySession .user), s'⟩ ℓ := by
  obtain ⟨m, s, tr, m', s', hrun, hcalls, hfacts⟩ :=
    exists_visit boundedCodec runtimeConfigDefaults plainDurations
    plainFds (fun _ => none) downloadThenPing (fun n => { ok := decide (n ≠ 6) }) (fun v =>
      (nextVisit v.2.2.2.2).map fun (r : MainState × Sys) =>
        decide ((v.1 = onlySession .user ∧ v.2.2.2.1 = onlySession .user) ∧
          v.2.2.1.map Performed.written = List.replicate 5 none ++ some
            (9, dataLine 209, true) :: [none] ∧
          (nextRequest v.2.1 9).command = .download ∧ sockets r.2.history = [.opened 9] ∧
          r.2.history = [.reply 9 (lit "PONG\n"), .line 9 (lit "PING\n"), .turn .main] ++
            v.2.2.2.2.history))
    (a := some true) (by decide +kernel)
  obtain ⟨⟨m₂, s₂⟩, hvisit, hdecided⟩ := Option.map_eq_some_iff.mp hfacts
  obtain ⟨⟨rfl, rfl⟩, hwritten, hcommand, hsockets, hhistory⟩ := of_decide_eq_true hdecided
  obtain ⟨pre, rest, rfl, hpre, hrest⟩ := List.map_eq_append_iff.mp hwritten
  obtain ⟨c, post, rfl, hc, hpost⟩ := List.map_eq_cons_iff.mp hrest
  obtain ⟨s₁, rfl⟩ := Performed.of_written hc
  have hsilent : ∀ {calls : List Call} {n : Nat}, calls.map Performed.written =
    List.replicate n none → sentTo 9 calls = [] := by
    intro calls n hcalls
    refine sentTo_unwritten fun c hc => ?_
    exact List.eq_of_mem_replicate (hcalls ▸ List.mem_map_of_mem hc)
  have hkernel : FreshAccepts s₂.history := by
    rw [← freshAccepts_sockets, hsockets]
    simp [FreshAccepts]
  refine ⟨s, pre, s₁, post, s', _, hrun, hcalls, hcommand, hsilent hpre, hsilent (n := 1) hpost,
    visited_again hvisit, hkernel, ?_⟩
  rintro ⟨new, hnew, -, hlines⟩
  obtain rfl : new = [.reply 9 (lit "PONG\n"), .line 9 (lit "PING\n"), .turn .main] :=
    List.append_cancel_right (hnew.symm.trans hhistory)
  have hclosed := hlines [.reply 9 (lit "PONG\n")] (lit "PING\n") [.turn .main] trivial rfl
  simp at hclosed

/-- After an announcement the client may get neither the file nor the end of the session. -/
theorem download_unframed :
    ¬ ∀ m s pre size s₁ post m' s' ℓ,
      LoopRun boundedCodec runtimeConfigDefaults plainDurations plainFds (initialLoop fun _ => none)
        ⟨.walking (pollIn [5]) maxClients 0 5 m, s⟩ → (m.clients.get 0).active = true →
      (nextRequest s (m.clients.get 0).fd).command = .download →
        sentTo (m.clients.get 0).fd pre = [] →
      AmidCalls boundedCodec runtimeConfigDefaults (visitSlot runtimeConfigDefaults plainDurations
        (pollIn [5]) 0 5 m) s
        (pre ++ ⟨.writeAll (m.clients.get 0).fd (dataLine size), s₁, true⟩ :: post) m' s' →
      LoopRun boundedCodec runtimeConfigDefaults plainDurations plainFds
        ⟨.walking (pollIn [5]) 127 1 6 m', s'⟩ ℓ →
      FreshAccepts ℓ.sys.history →
      (∃ content, content.length = size ∧ Delivered (m.clients.get 0).fd content post) ∨
        ClosedFirst (m.clients.get 0).fd ⟨.walking (pollIn [5]) 127 1 6 m', s'⟩ ℓ := by
  intro hclaim
  obtain ⟨s, pre, s₁, post, s', ℓ, hrun, hcalls, hcommand, hpre, hpost, hlater, hkernel, hread⟩ :=
    lostDownload_visit
  rcases hclaim _ _ _ _ _ _ _ _ _ hrun rfl hcommand hpre hcalls hlater hkernel with
    ⟨content, hlength, hsent, -⟩ | hclosed
  · change (sentTo 9 post).flatten = content at hsent
    rw [hpost] at hsent
    rw [← hsent] at hlength
    cases hlength
  · exact hread hclosed

theorem download_framed_lost :
    ∃ path content post, content.length = 209 ∧ ¬ Delivered 9 content post ∧
      ¬ Unfailing 9 path content post := by
  obtain ⟨s, pre, s₁, post, s', ℓ, hrun, hcalls, hcommand, hpre, hpost, hlater, hkernel, hread⟩ :=
    lostDownload_visit
  change LoopRun _ _ _ _ _ ⟨.walking _ (127 + 1) _ _ _, _⟩ at hrun
  obtain ⟨path, content, s₀, -, -, hlength, hgood, -⟩ :=
    download_framed hrun rfl hcommand hpre hcalls
  have hlost : ¬ Delivered 9 content post := by
    rintro ⟨hsent, -⟩
    rw [hpost] at hsent
    rw [← hsent] at hlength
    cases hlength
  refine ⟨path, content, post, hlength, hlost, fun hunfailing => ?_⟩
  exact (hgood (.inl hunfailing) ℓ hlater hkernel).elim hlost hread

end StegaPng
