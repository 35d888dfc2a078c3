import StegaPng.Blocklist
import StegaPng.Privileges

/-! What passes between the poll loop and the sessions: which lines a step reads, and what a
session that is to be closed is kept from. -/

namespace StegaPng

open Interleaving

/-- Marks of what passes between server and clients. -/
def Mark.ofTalk : Mark → Bool
  | .opened _ | .closed _ | .line .. | .reply .. => true
  | _ => false

def Op.talk : (o : Op) → Ans o → List Mark
  | .accept _, some c => [.opened c.fd]
  | .close fd, _ => [.closed fd]
  | .readLine fd, some bytes => [.line fd bytes]
  | .writeAll fd bytes, _ => [.reply fd bytes]
  | _, _ => []

theorem talk_fault {ok : Bool} {t : Tid} {call : FileCall} {path : Bytes} {mark : Mark}
    (hmem : mark ∈ faultUnless ok t call path) : mark.ofTalk = false := by
  cases ok with
  | true => exact absurd hmem List.not_mem_nil
  | false => rw [List.mem_singleton.mp hmem]; rfl

theorem exec_talk {codec : PngCodec} {e : Env} {t : Tid} {w w' : World} {o : Op} {a : Ans o}
    {marks : List Mark} (h : exec codec e t w o = some (a, w', marks)) :
    ∀ mark ∈ marks, mark ∈ o.talk a ∨ mark.ofTalk = false := by
  cases o
  case readLine fd =>
    simp only [exec, Option.some.injEq, Prod.mk.injEq] at h
    obtain ⟨rfl, -, rfl⟩ := h
    intro mark hmem
    cases hline : (readLine bufferSize (w.streams fd)).1 with
    | none => simp [hline] at hmem
    | some bytes => exact .inl (by simpa [hline, Op.talk] using hmem)
  all_goals
    simp only [exec] at h
    (repeat' split at h) <;> cases h <;> intro mark hmem <;> first
      | exact absurd hmem List.not_mem_nil
      | exact .inr (talk_fault hmem)
      | exact .inl hmem
      | exact .inr (List.mem_singleton.mp hmem ▸ rfl)

section

variable {codec : PngCodec} {cfg : RuntimeConfig} {dt : DurationText} {fds : ServerFds}
  {m m' : MainState} {s s' : Sys} {α : Type} {a : α} {p : Task α}

/-- The history has grown by marks of the kind `P`. -/
def Grows (P : Mark → Prop) (s s' : Sys) : Prop := ∃ new, s'.history = new ++ s.history ∧
    ∀ mark ∈ new, P mark

theorem Grows.trans {P : Mark → Prop} {s₁ : Sys} (h : Grows P s s₁) (h' : Grows P s₁ s') :
    Grows P s s' := by
  obtain ⟨new, hnew, hP⟩ := h
  obtain ⟨new', hnew', hP'⟩ := h'
  refine ⟨new' ++ new, by rw [hnew', hnew, List.append_assoc], fun mark hmem => ?_⟩
  exact (List.mem_append.mp hmem).elim (hP' mark) (hP mark)

theorem Grows.mono {P P' : Mark → Prop} (hP : ∀ mark, P mark → P' mark) (h : Grows P s s') :
    Grows P' s s' := by
  obtain ⟨new, hnew, hmarks⟩ := h
  exact ⟨new, hnew, fun mark hmem => hP mark (hmarks mark hmem)⟩

theorem grows_refl {P : Mark → Prop} : Grows P s s :=
  ⟨[], rfl, fun _ hmem => absurd hmem List.not_mem_nil⟩

theorem others_grows (h : (conduct cfg codec).Others .main s s') :
    Grows (fun mark => mark.ofTalk = false) s s' := by
  induction h with
  | refl => exact grows_refl
  | tail _ hstep ih =>
    refine ih.trans ?_
    cases hstep with
    | @turn u _ hne => exact ⟨[.turn u], rfl, fun mark hmem => List.mem_singleton.mp hmem ▸ rfl⟩
    | @op u o b _ hne hinv hallowed hstep =>
      obtain ⟨e, marks, -, hexec, hhistory⟩ := hstep
      have hsilent : o.talk b = [] := by
        cases o <;> first
          | rfl
          | exact absurd hallowed hne
      refine ⟨marks, hhistory, fun mark hmem => (exec_talk hexec mark hmem).resolve_left ?_⟩
      rw [hsilent]
      exact List.not_mem_nil

/-- What a part of the main thread adds to the history: marks of its own operations, and
quiet ones. -/
theorem amid_grows {C : Op → Prop} {P : Mark → Prop} (hquiet : ∀ mark, mark.ofTalk = false → P mark)
    (htalk : ∀ o b, C o → ∀ mark ∈ o.talk b, P mark) (hp : p.All C) (h : Amid codec cfg p s a s') :
    Grows P s s' := by
  refine h.preserves (P := Grows P s) ?_ ?_ hp grows_refl
  · exact fun s₁ s₂ hs henv => hs.trans ((others_grows henv).mono hquiet)
  · rintro o s₁ b s₂ ho hs ⟨e, marks, -, hexec, hhistory⟩
    refine hs.trans ⟨marks, hhistory, fun mark hmem => ?_⟩
    exact (exec_talk hexec mark hmem).elim (htalk o b ho mark) (hquiet mark)

theorem amid_call_grows {o : Op} {b : Ans o} (h : Amid codec cfg (call o) s b s') :
    Grows (fun mark => mark ∈ o.talk b ∨ mark.ofTalk = false) s s' := by
  obtain ⟨s₁, c, s₂, hbefore, ⟨e, marks, -, hexec, hhistory⟩, hret⟩ := RunsAmid.op_iff.mp h
  obtain ⟨rfl, hafter⟩ := RunsAmid.ret_iff.mp hret
  have hother : ∀ {s s' : Sys}, (conduct cfg codec).Others .main s s' →
      Grows (fun mark => mark ∈ o.talk b ∨ mark.ofTalk = false) s s' :=
    fun henv => (others_grows henv).mono fun _ => .inr
  exact ((hother hbefore).trans ⟨marks, hhistory, exec_talk hexec⟩).trans (hother hafter)

theorem amid_streams {client : ClientSession} {f : Int} (hf : f ≠ client.fd)
    (hp : p.All fun o => o.onBehalfOf client ∧ ∀ l, o ≠ .accept l)
    (h : Amid codec cfg p s a s') : s'.world.streams f = s.world.streams f := by
  refine h.preserves (P := fun s₁ => s₁.world.streams f = s.world.streams f) ?_ ?_ hp rfl
  · exact fun _ _ hs henv => by rw [others_streams henv, hs]
  · rintro o s₁ b s₂ ⟨hreads, haccept⟩ hs ⟨e, marks, -, hexec, -⟩
    have hset : ∀ (w : World) (es : Stream), (w.setStream client.fd es).streams f = w.streams f :=
      fun w es => if_neg hf
    rw [← hs]
    by_cases hstream : o.ofStream = true
    · cases o with
      | accept l => exact absurd rfl (haccept l)
      | readLine g | readExact g n | discardExact g n | read g n =>
        obtain rfl : g = client.fd := hreads
        simp only [exec, Option.some.injEq, Prod.mk.injEq] at hexec
        rw [← hexec.2.1, hset]
      | _ => cases hstream
    · rw [exec_streams (Bool.eq_false_iff.mpr hstream) hexec]

theorem amid_client_streams {i : Nat} {f : Int} (hf : f ≠ (m.clients.get i).fd)
    (h : Amid codec cfg (handleClientCommand cfg dt m i (m.clients.get i)) s m' s') :
    s'.world.streams f = s.world.streams f := by
  refine amid_streams hf (handleClientCommand_all (fun o _ hs hr => ⟨hr, ?_⟩) cfg dt m i
    ⟨rfl, nofun⟩ ⟨trivial, nofun⟩) h
  rintro l rfl
  cases hs

theorem amid_visit_streams {revents : Nat → Revents} {i idx : Nat} {f : Int}
    (hf : f ≠ (m.clients.get i).fd)
    (h : Amid codec cfg (visitSlot cfg dt revents i idx m) s m' s') :
    s'.world.streams f = s.world.streams f := by
  unfold visitSlot at h
  split at h
  · exact amid_client_streams hf h
  · rw [others_streams (RunsAmid.ret_iff.mp h).2]

/-! Lines. -/

/-- The step is the visit of a session that has sent the line. -/
def ReadsLine (ℓ : LoopState) (f : Int) (bytes : Bytes) : Prop :=
  ∃ revents left i idx m, ℓ.phase = .walking revents (left + 1) i idx m ∧
    (m.clients.get i).active = true ∧
    (m.clients.get i).fd = f ∧ (revents idx).any = true ∧
    (readLine bufferSize (ℓ.sys.world.streams f)).1 = some bytes

theorem talk_without_line {o : Op} {b : Ans o} (ho : ∀ f, o ≠ .readLine f) :
    ∀ mark ∈ o.talk b, ∀ f bytes, mark ≠ .line f bytes := by
  rintro _ hmem f bytes rfl
  cases o with
  | readLine g => exact ho g rfl
  | accept l => cases b <;> simp [Op.talk] at hmem
  | close g => simp [Op.talk] at hmem
  | writeAll g text => simp [Op.talk] at hmem
  | _ => cases hmem

theorem quiet_without_line {mark : Mark} (hquiet : mark.ofTalk = false) :
    ∀ f bytes, mark ≠ .line f bytes := by
  rintro f bytes rfl
  cases hquiet

theorem amid_without_line (hp : p.All fun o => ∀ f, o ≠ .readLine f) (h : Amid codec cfg p s a s') :
    Grows (fun mark => ∀ f bytes, mark ≠ .line f bytes) s s' :=
  amid_grows (fun _ => quiet_without_line) (fun _ _ => talk_without_line) hp h

theorem plain_without_line (o : Op) (ho : o.plain = true) : ∀ f, o ≠ .readLine f := by
  rintro f rfl
  cases ho

theorem serveListener_without_line (revents : Nat → Revents) (listener : Listener) :
    (serveListener fds revents m listener).All fun o => ∀ f, o ≠ .readLine f := by
  have hclose : ∀ fd, ∀ f, Op.close fd ≠ .readLine f := by simp
  cases listener <;> simp only [serveListener] <;> split
  · exact acceptNewInetConnection_all plain_without_line hclose _ _ _ _ (by simp)
  · exact Prog.all_pure _
  · exact acceptNewInetConnection_all plain_without_line hclose _ _ _ _ (by simp)
  · exact Prog.all_pure _
  · exact acceptNewUnixConnection_all plain_without_line hclose _ _ (by simp)
  · exact Prog.all_pure _

theorem closeClient_without_line (client : ClientSession) : (closeClient client).All fun o => ∀ f,
    o ≠ .readLine f :=
  closeClient_all client nofun

theorem amid_visit_lines {revents : Nat → Revents} {left i idx : Nat}
    (hactive : (m.clients.get i).active = true)
    (h : Amid codec cfg (visitSlot cfg dt revents i idx m) s m' s') :
    Grows (fun mark => ∀ f bytes, mark = .line f bytes →
      ReadsLine ⟨.walking revents (left + 1) i idx m, s⟩ f bytes)
      s s' := by
  have hnone : ∀ mark : Mark, (∀ f bytes, mark ≠ .line f bytes) → ∀ f bytes, mark = .line f bytes →
      ReadsLine ⟨.walking revents (left + 1) i idx m, s⟩ f bytes :=
    fun mark hmark f bytes heq => absurd heq (hmark f bytes)
  unfold visitSlot at h
  split at h
  · next hready =>
    obtain ⟨line, s₁, hread, hrest⟩ := amid_bind.mp h
    have hline := amid_readLine hread
    refine Grows.trans ((amid_call_grows hread).mono ?_) (Grows.mono hnone ?_)
    · rintro mark (hown | hquiet) f bytes rfl
      · cases line with
        | none => cases hown
        | some bytes' =>
          obtain ⟨rfl, rfl⟩ : f = (m.clients.get i).fd ∧ bytes = bytes' := by
            simpa [Op.talk] using hown
          exact ⟨revents, left, i, idx, m, rfl, hactive, rfl, hready, hline.symm⟩
      · cases hquiet
    · split at hrest
      · exact amid_without_line ((closeClient_without_line _).bind fun _ => Prog.all_pure _) hrest
      · dsimp only at hrest
        split at hrest
        · refine amid_without_line (handleAdminCommand_all plain_without_line _ _ _ _ _ ?_ ?_) hrest
          · exact fun _ _ => nofun
          · exact fun _ => nofun
        · refine amid_without_line ((handleUserCommand_all (fun o _ hs _ => ?_) _ _ ?_).bind
            fun _ => Prog.all_pure _) hrest
          · rintro f rfl
            cases hs
          · exact fun _ => nofun
  · exact (amid_without_line (Prog.all_pure _) h).mono hnone

theorem LoopStep.lines {ℓ ℓ' : LoopState} (hstep : LoopStep codec cfg dt fds ℓ ℓ') :
    Grows (fun mark => ∀ f bytes, mark = .line f bytes → ReadsLine ℓ f bytes) ℓ.sys ℓ'.sys := by
  have hnone : ∀ mark : Mark, (∀ f bytes, mark ≠ .line f bytes) → ∀ f bytes, mark = .line f bytes →
    ReadsLine ℓ f bytes :=
    fun mark hmark f bytes heq => absurd heq (hmark f bytes)
  have hcall : ∀ {o : Op} {b : Ans o} {s s' : Sys}, o.plain = true →
    Amid codec cfg (call o) s b s' →
      Grows (fun mark => ∀ f bytes, mark = .line f bytes → ReadsLine ℓ f bytes) s s' :=
    fun ho hrun => (amid_without_line (call_all plain_without_line ho) hrun).mono hnone
  have hothers : ∀ {s s' : Sys}, (conduct cfg codec).Others .main s s' →
      Grows (fun mark => ∀ f bytes, mark = .line f bytes → ReadsLine ℓ f bytes) s s' :=
    fun henv => (others_grows henv).mono fun mark hquiet => hnone mark (quiet_without_line hquiet)
  cases hstep with
  | wake hrun => exact hcall rfl hrun
  | interrupted hrun => exact hcall rfl hrun
  | timeout hrun => exact hcall rfl hrun
  | ready hrun => exact hcall rfl hrun
  | accept hrun => exact (amid_without_line (serveListener_without_line _ _) hrun).mono hnone
  | drain hrun =>
    refine (amid_without_line ?_ hrun).mono hnone
    exact (drainIfReady_all plain_without_line _ _).bind fun _ =>
      drainIfReady_all plain_without_line _ _
  | skip _ => exact grows_refl
  | visit hactive hrun => exact amid_visit_lines hactive hrun
  | walked henv => exact hothers henv
  | keep _ => exact grows_refl
  | close _ hrun => exact (amid_without_line (closeClient_without_line _) hrun).mono hnone
  | swept henv => exact hothers henv
  | turn =>
    exact ⟨[.turn .main], rfl, fun mark hmem => hnone mark fun f bytes =>
      List.mem_singleton.mp hmem ▸ nofun⟩

/-! Visits. -/

theorem exists_visit_run (codec : PngCodec) (cfg : RuntimeConfig) (dt : DurationText)
    (revents : Nat → Revents) (i idx : Nat) (m : MainState) (s : Sys) :
    ∃ m' s', Runs (machine codec) .main (visitSlot cfg dt revents i idx m) s m' s' := by
  have hwaits : (visitSlot cfg dt revents i idx m).All fun o => o.waits = false := by
    unfold visitSlot
    split
    · exact handleClientCommand_all (fun _ ho _ _ => ho) cfg dt m i rfl rfl
    · exact Prog.all_pure _
  exact Runs.exists_of_all (fun _ ho => exists_step ⟨{}, trivial⟩ codec .main ho) hwaits s

theorem visitSlot_accepts_nothing (revents : Nat → Revents) (i idx : Nat) :
    (visitSlot cfg dt revents i idx m).All fun o => ∀ l, o ≠ .accept l := by
  unfold visitSlot
  split
  · refine handleClientCommand_all (fun o _ hs _ => ?_) cfg dt m i nofun nofun
    rintro l rfl
    cases hs
  · exact Prog.all_pure _

theorem amid_opens_nothing (hp : p.All fun o => ∀ l, o ≠ .accept l) (h : Amid codec cfg p s a s') :
    Grows (fun mark => ∀ f, mark ≠ .opened f) s s' := by
  refine amid_grows ?_ ?_ hp h
  · rintro mark hquiet f rfl
    cases hquiet
  · rintro o b ho mark hmem f rfl
    cases o with
    | accept l => exact ho l rfl
    | readLine g => cases b <;> simp [Op.talk] at hmem
    | close g => simp [Op.talk] at hmem
    | writeAll g text => simp [Op.talk] at hmem
    | _ => cases hmem

theorem visit_opens_nothing {revents : Nat → Revents} {i idx : Nat}
    (h : Amid codec cfg (visitSlot cfg dt revents i idx m) s m' s') :
    Grows (fun mark => ∀ f, mark ≠ .opened f) s s' :=
  amid_opens_nothing (visitSlot_accepts_nothing revents i idx) h

/-- A visit neither closes another session nor reads from it. -/
theorem visit_leaves_open {revents : Nat → Revents} {i idx : Nat} {f : Int}
    (hf : f ≠ (m.clients.get i).fd)
    (h : Amid codec cfg (visitSlot cfg dt revents i idx m) s m' s') :
    Grows (fun mark => mark ≠ .closed f) s s' := by
  have hclose : (visitSlot cfg dt revents i idx m).All fun o => o ≠ .close f := by
    have hown : Op.close (m.clients.get i).fd ≠ .close f := by
      intro heq
      exact hf (Op.close.inj heq).symm
    unfold visitSlot
    split
    · refine handleClientCommand_all (fun o _ hs _ => ?_) cfg dt m i nofun hown
      rintro rfl
      cases hs
    · exact Prog.all_pure _
  refine amid_grows ?_ ?_ hclose h
  · rintro mark hquiet rfl
    cases hquiet
  · rintro o b ho mark hmem rfl
    cases o with
    | accept l => cases b <;> simp [Op.talk] at hmem
    | readLine g => cases b <;> simp [Op.talk] at hmem
    | close g => exact ho (by rw [Mark.closed.inj (List.mem_singleton.mp hmem)])
    | writeAll g text => simp [Op.talk] at hmem
    | _ => cases hmem

/-- A session that is visited when there is something to read has a line read from it first. -/
theorem exists_reading_visit {revents : Nat → Revents} {i idx : Nat} {bytes : Bytes}
    (hready : (revents idx).any = true)
    (hline : (readLine bufferSize (s.world.streams (m.clients.get i).fd)).1 = some bytes) :
    ∃ m' s' later, Amid codec cfg (visitSlot cfg dt revents i idx m) s m' s' ∧
      s'.history = later ++ .line (m.clients.get i).fd bytes :: s.history ∧
        ∀ f, .opened f ∉ later := by
  obtain ⟨m', s', hrun⟩ := exists_visit_run codec cfg dt revents i idx m s
  obtain ⟨k, hk⟩ : ∃ k, visitSlot cfg dt revents i idx m =
    .op (.readLine (m.clients.get i).fd) k := by
    rw [visitSlot, if_pos hready]
    exact ⟨_, rfl⟩
  have hall : (visitSlot cfg dt revents i idx m).All fun o => ∀ l, o ≠ .accept l :=
    visitSlot_accepts_nothing revents i idx
  have hrun' := hrun
  rw [hk] at hall hrun'
  obtain ⟨line, s₁, ⟨e, marks, -, hexec, hhistory⟩, hrest⟩ := Runs.op_iff.mp hrun'
  simp only [exec, Option.some.injEq, Prod.mk.injEq] at hexec
  obtain ⟨rfl, -, rfl⟩ := hexec
  have hamid : Amid codec cfg (k _) s₁ m' s' := hrest.amid fun _ => .refl
  obtain ⟨later, hlater, hopens⟩ := amid_opens_nothing (hall.2 _) hamid
  refine ⟨m', s', later, hrun.amid fun _ => .refl, ?_, fun f hmem => hopens _ hmem f rfl⟩
  rw [hlater, hhistory, hline]
  rfl

theorem freshAccepts_append {new h : List Mark} (hnew : ∀ f, .opened f ∉ new)
    (hkernel : FreshAccepts h) :
    FreshAccepts (new ++ h) := by
  induction new with
  | nil => exact hkernel
  | cons mark new ih =>
    have hrest := ih fun f hmem => hnew f (List.mem_cons_of_mem _ hmem)
    cases mark with
    | opened f => exact absurd List.mem_cons_self (hnew f)
    | _ => exact hrest

/-! Sessions that are to be kicked. -/

/-- The session in the slot is to be kicked. -/
def Doomed (m : MainState) (k : Nat) : Prop :=
  (m.clients.get k).active = true ∧ (m.clients.get k).kick_requested = true

theorem SessionMove.doomed {marks : List Mark} (hmove : SessionMove m m' marks) {k : Nat}
    (h : Doomed m k) :
    m'.clients.get k = m.clients.get k ∨ .closed (m.clients.get k).fd ∈ marks := by
  obtain ⟨hactive, hkick⟩ := h
  have hkicked : (m.clients.get k).kick = m.clients.get k := by rw [ClientSession.kick, ← hkick]
  cases hmove with
  | same => exact .inl rfl
  | refused fd => exact .inl rfl
  | @admitted j fd type addr hj hfree _ =>
    refine .inl ?_
    rw [MainState.put, Clients.get_set, if_neg]
    rintro ⟨rfl, -⟩
    rw [hactive] at hfree
    cases hfree
  | @closed i _ =>
    by_cases hki : k = i
    · subst hki
      exact .inr List.mem_cons_self
    · exact .inl (by rw [MainState.put, Clients.get_set, if_neg fun h => hki h.1])
  | @kicked i _ =>
    refine .inl ?_
    rw [MainState.put, Clients.get_set]
    split
    · next hk => rw [← hk.1, hkicked]
    · rfl
  | @blocked ip _ _ =>
    refine .inl ((m.clients.get_blocked ip k).trans ?_)
    split
    · exact hkicked
    · rfl
  | unblocked _ => exact .inl rfl

/-- Since `ℓ₂` no line of the session that is in `L` has been read before its close; if it
has not been closed, `S` holds. -/
def KeptOut (L : Bytes → Prop) (f : Int) (S : Prop) (ℓ₂ ℓ : LoopState) : Prop :=
  ∃ new, ℓ.sys.history = new ++ ℓ₂.sys.history ∧ (.closed f ∈ new ∨ S) ∧
    ∀ later bytes earlier, L bytes → new = later ++ .line f bytes :: earlier → .closed f ∈ earlier

theorem keptOut_refl {L : Bytes → Prop} {f : Int} {S : Prop} {ℓ : LoopState} (hS : S) :
    KeptOut L f S ℓ ℓ := by
  refine ⟨[], rfl, .inr hS, fun later bytes earlier _ heq => ?_⟩
  cases later <;> cases heq

theorem LoopStep.keptOut {L : Bytes → Prop} {f : Int} {S S' : Prop} {ℓ₂ ℓ ℓ' : LoopState}
    (hstep : LoopStep codec cfg dt fds ℓ ℓ') (hread : S → ∀ bytes, L bytes → ¬ ReadsLine ℓ f bytes)
    (hnext : S → S' ∨ ∀ marks, ℓ'.sys.history = marks ++ ℓ.sys.history → .closed f ∈ marks)
    (h : KeptOut L f S ℓ₂ ℓ) : KeptOut L f S' ℓ₂ ℓ' := by
  obtain ⟨new, hnew, hgone, hlines⟩ := h
  obtain ⟨marks, hmarks, hreads⟩ := hstep.lines
  refine ⟨marks ++ new, by rw [hmarks, hnew, List.append_assoc], ?_,
    fun later bytes earlier hcounts heq => ?_⟩
  · rcases hgone with hclosed | hstill
    · exact .inl (List.mem_append_right _ hclosed)
    · rcases hnext hstill with hstill' | hclosed
      · exact .inr hstill'
      · exact .inl (List.mem_append_left _ (hclosed marks hmarks))
  · rcases List.append_eq_append_iff.mp heq with ⟨rest, rfl, hrest⟩ | ⟨rest, hrest, hline⟩
    · exact hlines rest bytes earlier hcounts hrest
    · cases rest with
      | nil =>
        rw [List.nil_append] at hline
        exact hlines [] bytes earlier hcounts hline.symm
      | cons first rest =>
        obtain ⟨rfl, rfl⟩ := List.cons.inj hline
        rcases hgone with hclosed | hstill
        · exact List.mem_append_right _ hclosed
        · have hmem : .line f bytes ∈ marks := by rw [hrest]; simp
          exact absurd (hreads _ hmem f bytes rfl) (hread hstill bytes hcounts)

theorem LoopStep.doomed {f : Int} {k : Nat} {ℓ ℓ' : LoopState}
    (hstep : LoopStep codec cfg dt fds ℓ ℓ') (hdoomed : Doomed ℓ.phase.main k)
    (hfd : (ℓ.phase.main.clients.get k).fd = f) :
    (Doomed ℓ'.phase.main k ∧ (ℓ'.phase.main.clients.get k).fd = f) ∨
      ∀ marks, ℓ'.sys.history = marks ++ ℓ.sys.history → .closed f ∈ marks := by
  obtain ⟨moved, hmove, hsockets⟩ := hstep.moves
  rcases hmove.doomed hdoomed with hkept | hclosed
  · exact .inl ⟨by rwa [Doomed, hkept], by rw [hkept, hfd]⟩
  · refine .inr fun marks hmarks => ?_
    have hmoved : sockets marks = moved := by
      rw [hmarks, sockets_append] at hsockets
      exact List.append_cancel_right hsockets
    rw [← hmoved, hfd] at hclosed
    exact List.mem_of_mem_filter hclosed

/-! Iterations that leave everybody in peace. -/

theorem amid_of_execute {e : Nat → Env} (h : execute codec .main p e s = some (a, s')) :
    Amid codec cfg p s a s' :=
  (execute_runs h).amid fun _ => .refl

def pollIn (ready : List Nat) (e : Nat) : Revents := { pollin := decide (e ∈ ready) }

theorem quiet_walk {revents : Nat → Revents} {left i idx : Nat}
    (hquiet : ∀ e, idx ≤ e → (revents e).any = false) :
    LoopRun codec cfg dt fds ⟨.walking revents left i idx m, s⟩ ⟨.sweeping maxClients 0 m, s⟩ := by
  induction left generalizing i idx with
  | zero => exact .single (.walked .refl)
  | succ left ih =>
    have hidx := hquiet idx (le_refl idx)
    by_cases hactive : (m.clients.get i).active = true
    · have hvisit : Amid codec cfg (visitSlot cfg dt revents i idx m) s m s := by
        rw [visitSlot, hidx, if_neg Bool.false_ne_true]
        exact .ret _ .refl
      exact .head (.visit hactive hvisit) (ih fun e he => hquiet e (by omega))
    · exact .head (.skip (Bool.eq_false_iff.mpr hactive)) (ih hquiet)

theorem quiet_sweep {left i : Nat} (hnone : ∀ k, ¬ Doomed m k) :
    LoopRun codec cfg dt fds ⟨.sweeping left i m, s⟩ ⟨.ended m, s⟩ := by
  induction left generalizing i with
  | zero => exact .single (.swept .refl)
  | succ left ih =>
    refine .head (.keep ?_) ih
    have hi := hnone i
    rw [Doomed] at hi
    simpa using hi

theorem ready_walk {r : List Nat} (hready : ∀ e ∈ r, 5 ≤ e) :
    LoopRun codec cfg dt fds ⟨.waiting m, s⟩ ⟨.walking (pollIn r) maxClients 0 5 m, s⟩ := by
  have hidle : ∀ e < 5, (pollIn r e).pollin = false := by
    intro e he
    refine decide_eq_false fun hmem => ?_
    have := hready e hmem
    omega
  have hwake : Amid codec cfg (call .gRunning) s true s := amid_of_execute (e := fun _ => {}) rfl
  have hpoll : Amid codec cfg (call (.poll (rebuildPollfds fds m.clients))) s
    (.ready (pollIn r)) s :=
    amid_of_execute (e := fun _ => { poll := .ready (pollIn r) }) rfl
  have hlisten : ∀ listener, Amid codec cfg (serveListener fds (pollIn r) m listener) s
    (m, none) s := by
    intro listener
    cases listener <;> rw [serveListener, hidle _ (by decide), if_neg Bool.false_ne_true] <;>
      exact .ret _ .refl
  have hdrain : Amid codec cfg (drainBoth fds (pollIn r)) s () s := by
    rw [drainBoth, drainIfReady, drainIfReady, hidle 3 (by decide), hidle 4 (by decide)]
    exact .ret _ .refl
  exact .head (.wake hwake) (.head (.ready hpoll) (.head (.accept (hlisten .user))
    (.head (.accept (hlisten .admin)) (.head (.accept (hlisten .unix)) (.single (.drain hdrain))))))

theorem connect_run {files : Bytes → Option Bytes} {r : List Nat} (hready : ∀ e ∈ r, e < 3)
    {m₁ m₂ m₃ : MainState} {c₁ c₂ c₃ : Option Connection} {s₁ s₂ s₃ : Sys}
    (huser : Amid codec cfg (serveListener fds (pollIn r) {} .user)
      { world := { files := files }, history := [] } (m₁, c₁) s₁)
    (hadmin : Amid codec cfg (serveListener fds (pollIn r) m₁ .admin) s₁ (m₂, c₂) s₂)
    (hunix : Amid codec cfg (serveListener fds (pollIn r) m₂ .unix) s₂ (m₃, c₃) s₃)
    (hnone : ∀ k, ¬ Doomed m₃ k) :
    LoopRun codec cfg dt fds (initialLoop files) ⟨.waiting m₃, (machine codec).turn .main s₃⟩ := by
  have hidle : ∀ e, 3 ≤ e → (pollIn r e).pollin = false := by
    intro e he
    refine decide_eq_false fun hmem => ?_
    have := hready e hmem
    omega
  have hquiet : ∀ e, 5 ≤ e → (pollIn r e).any = false := by
    intro e he
    have hpollin := hidle e (by omega)
    simp only [Revents.any, hpollin]
    rfl
  have hdrain : Amid codec cfg (drainBoth fds (pollIn r)) s₃ () s₃ := by
    rw [drainBoth, drainIfReady, drainIfReady, hidle 3 (le_refl 3), hidle 4 (by decide)]
    exact .ret _ .refl
  refine .head (.wake (amid_of_execute (e := fun _ => {}) rfl)) (.head (.ready (amid_of_execute
    (e := fun _ => { poll := .ready (pollIn r) }) rfl)) ?_)
  refine .head (.accept huser) (.head (.accept hadmin) (.head (.accept hunix) ?_))
  exact .head (.drain hdrain) ((quiet_walk hquiet).trans ((quiet_sweep hnone).tail .turn))

end

end StegaPng
