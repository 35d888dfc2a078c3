import StegaPng.Blocklist
import StegaPng.LifeCycle

/-! What holds in every state of the poll loop: the invariant of the threads, and the
bounds on the texts of records, sessions and blocklist. -/

namespace StegaPng

open Interleaving

/-- An address as it is stored: short, and without a newline. -/
def Address (addr : Bytes) : Prop := addr.length < 64 ∧ newline ∉ addr

/-- What the locked sections keep up in every record. -/
structure Kempt (cfg : RuntimeConfig) (r : Job) : Prop where
  told : Told cfg r
  result : r.result.length < maxJobResult
  filename : r.result_filename.length < maxJobFilename

/-- What the main thread keeps up in its own state. -/
structure TidyMain (m : MainState) : Prop where
  addr : ∀ i, Address (m.clients.get i).addr_str
  blocked : ∀ ip ∈ m.blocklist, ip.length < 64
  count : m.blocklist.length ≤ maxBlockedIps

theorem address_snprintf {addr : Bytes} (h : newline ∉ addr) : Address (snprintf 64 addr) :=
  ⟨snprintf_length_lt (by decide) addr, newline_snprintf h 64⟩

theorem PeerAddr.text_newline (peer : PeerAddr) : newline ∉ peer.text := by
  cases peer with
  | unknown => decide
  | inet a b c d =>
    have hdot : newline ∉ lit "." := by decide
    exact newline_append (newline_append (newline_append
      (newline_append (newline_append (newline_append
      (newline_decimal _) hdot) (newline_decimal _)) hdot) (newline_decimal _)) hdot)
        (newline_decimal _)

theorem Welcome.newline {m : MainState} {type : ClientType} {addr : Bytes}
    (h : Welcome m type addr) :
    newline ∉ addr := by
  cases h with
  | admin peer _ => exact peer.text_newline
  | user peer _ => exact peer.text_newline
  | unix => decide

theorem SessionMove.tidy {m m' : MainState} {marks : List Mark} (hmove : SessionMove m m' marks)
    (h : TidyMain m) :
    TidyMain m' := by
  have hput : ∀ {k : Nat} {session : ClientSession}, Address session.addr_str →
    TidyMain (m.put k session) := by
    intro k session hsession
    refine ⟨fun i => ?_, h.blocked, h.count⟩
    rw [MainState.put, Clients.get_set]
    split
    · exact hsession
    · exact h.addr i
  cases hmove with
  | same => exact h
  | refused fd => exact h
  | admitted _ _ hwelcome => exact hput (address_snprintf hwelcome.newline)
  | closed _ => exact hput ⟨by decide, List.not_mem_nil⟩
  | @kicked i _ => exact hput (h.addr i)
  | @blocked ip blocklist hadd =>
    have haddr : ∀ i, Address ((m.clients.map fun c => if c.matchesIp ip then c.kick else
      c).get i).addr_str := by
      intro i
      rw [m.clients.get_blocked ip i]
      split <;> exact h.addr i
    exact ⟨haddr, blocklistAdd_entries hadd h.blocked (snprintf_length_lt (by decide) ip),
      blocklistAdd_length hadd h.count⟩
  | @unblocked ip blocklist hremove =>
    exact ⟨h.addr, blocklistRemove_entries hremove h.blocked,
      blocklistRemove_length hremove h.count⟩

section

variable {codec : PngCodec} {cfg : RuntimeConfig} {dt : DurationText} {fds : ServerFds}
  {m m' : MainState} {s s' : Sys} {α : Type} {a : α} {p : Task α} {r : Job}

theorem tidyMain_initial : TidyMain {} := by
  refine ⟨fun i => ?_, nofun, Nat.zero_le _⟩
  have hidle : (({} : MainState).clients.get i) = {} := idle_get i
  rw [hidle]
  exact ⟨by decide, List.not_mem_nil⟩

theorem LoopRun.tidy {files : Bytes → Option Bytes} {ℓ : LoopState}
    (h : LoopRun codec cfg dt fds (initialLoop files) ℓ) :
    TidyMain ℓ.phase.main := by
  induction h with
  | refl => exact tidyMain_initial
  | tail _ hstep ih =>
    obtain ⟨marks, hmove, -⟩ := hstep.moves
    exact hmove.tidy ih

/-! Records. -/

theorem kempt_new (next_id : Nat) (fd : Int) (ip : Bytes) (type : JobType)
    (payload input_path : Option Bytes) (now : Nat) :
    Kempt cfg (newJob next_id fd ip type payload input_path now) where
  told := fun hterminal => absurd hterminal (by decide : ¬ JobState.queued.Terminal)
  result := (by decide : 0 < maxJobResult)
  filename := (by decide : 0 < maxJobFilename)

theorem Kempt.set {j : Nat} {u : JobUpdate} {t : Tid} (h : Kempt cfg (s.world.job j))
    (hinv : Inv cfg codec s) (hallowed : Allowed cfg codec t (.setJob j u) s) (now : Nat) :
    Kempt cfg (u.apply now (s.world.job j)) := by
  have hlive := (hinv.writes_live hallowed).1
  cases u with
  | state st =>
    refine ⟨?_, h.result, h.filename⟩
    rcases hallowed with ⟨-, -, -, -, -, htold⟩ | ⟨-, -, -, htold⟩
    · exact htold
    · exact htold
  | result text =>
    exact ⟨fun hterminal => absurd hterminal hlive, snprintf_length_lt (by decide) text, h.filename⟩
  | storedPath path => exact ⟨fun hterminal => absurd hterminal hlive, h.result, h.filename⟩
  | outputPath path => exact ⟨fun hterminal => absurd hterminal hlive, h.result, h.filename⟩
  | resultMeta kind size filename =>
    exact ⟨fun hterminal => absurd hterminal hlive, h.result,
      snprintf_length_lt (by decide) filename⟩

theorem kempt_stable : (conduct cfg codec).Stable (Records fun _ => Kempt cfg) where
  step := by
    rintro t o s a s' hinv hallowed ⟨e, marks, -, hexec, -⟩ hs
    refine (exec_effect hexec).records ?_ ?_ ?_ hs
    · exact fun _ _ _ _ _ _ _ => kempt_new _ _ _ _ _ _ _
    · rintro j u now rfl hj
      exact hj.set hinv hallowed now
    · exact fun j r hr => ⟨hr.told, hr.result, hr.filename⟩
  turn := fun _ _ hs => hs

theorem frozen_stable {j : Nat} (hterminal : r.state.Terminal) :
    (conduct cfg codec).Stable fun s => j < s.world.jobs.length ∧ s.world.job j = r where
  step := by
    rintro t o s a s' hinv hallowed ⟨e, marks, -, hexec, -⟩ ⟨hj, hr⟩
    obtain ⟨hj', hrecord⟩ := hinv.record_step hallowed (exec_effect hexec) hj
    refine ⟨hj', ?_⟩
    rw [hr] at hrecord
    generalize s'.world.job j = r' at hrecord ⊢
    cases hrecord with
    | same => rfl
    | set u now hlive => exact absurd hterminal hlive
    | cancel hlive => exact absurd hterminal hlive
  turn := fun _ _ hs => hs

theorem World.job_default {w : World} {j : Nat} (hj : w.jobs.length ≤ j) :
    w.job j = { id := 0, owner_fd := 0, type := .unknown } :=
  List.getD_eq_default _ _ hj

theorem job_of_terminal {w : World} {j : Nat} (hterminal : (w.job j).state.Terminal) :
    j < w.jobs.length := by
  by_contra hge
  rw [World.job_default (Nat.le_of_not_lt hge)] at hterminal
  exact absurd hterminal (by decide)

theorem others_frozen {j : Nat} (hinv : Inv cfg codec s)
    (hterminal : (s.world.job j).state.Terminal) (h : (conduct cfg codec).Others .main s s') :
    s'.world.job j = s.world.job j := by
  have hj := job_of_terminal hterminal
  exact ((frozen_stable hterminal).others (conduct_sound cfg codec) hinv ⟨hj, rfl⟩ h).2.2.2

/-- Between two parts of the main thread's work. -/
structure AtRest (cfg : RuntimeConfig) (codec : PngCodec) (s : Sys) : Prop where
  inv : Inv cfg codec s
  idle : making s.history = none
  kempt : Records (fun _ => Kempt cfg) s

theorem AtRest.amid (hs : AtRest cfg codec s) (hp : MainKeeps cfg codec p)
    (h : Amid codec cfg p s a s') :
    AtRest cfg codec s' := by
  have hrests : ∀ (_ : α) (s s' : Sys), making s.history = none → MainRely cfg s s' →
    Inv cfg codec s' →
      making s'.history = none := fun _ _ _ hnone hrely _ => hrely.making.trans hnone
  obtain ⟨hinv, hmaking, hkempt⟩ :=
    kempt_stable.amid (conduct_sound cfg codec) hrests (hp s hs.idle) hs.inv hs.kempt h
  exact ⟨hinv, hmaking, hkempt⟩

theorem AtRest.others (hs : AtRest cfg codec s) (h : (conduct cfg codec).Others .main s s') :
    AtRest cfg codec s' :=
  hs.amid (mainKeeps_pure ()) (.ret () h)

/-- The parts of the main thread's work. -/
inductive LoopPart (cfg : RuntimeConfig) (dt : DurationText) (fds : ServerFds) (m : MainState) :
    {α : Type} → Task α → Prop
  | call {o : Op} (ho : o.plain = true) : LoopPart cfg dt fds m (call o)
  | listen (revents : Nat → Revents) (listener : Listener) :
      LoopPart cfg dt fds m (serveListener fds revents m listener)
  | drain (revents : Nat → Revents) : LoopPart cfg dt fds m (drainBoth fds revents)
  | visit (revents : Nat → Revents) (i idx : Nat) :
      LoopPart cfg dt fds m (visitSlot cfg dt revents i idx m)
  | close (i : Nat) : LoopPart cfg dt fds m (closeClient (m.clients.get i))

/-- What every part of the work, every worker and the end of a turn preserve, a step
of the loop preserves. -/
theorem LoopStep.preserves {P : Sys → Prop} {ℓ ℓ' : LoopState}
    (hstep : LoopStep codec cfg dt fds ℓ ℓ')
    (hpart : ∀ {α : Type} {p : Task α} {s s' : Sys} {a : α},
      LoopPart cfg dt fds ℓ.phase.main p → P s →
      Amid codec cfg p s a s' → P s')
    (hothers : ∀ s s', P s → (conduct cfg codec).Others .main s s' → P s')
    (hturn : ∀ s, P s → P ((machine codec).turn .main s)) (hℓ : P ℓ.sys) : P ℓ'.sys := by
  cases hstep with
  | wake hrun => exact hpart (.call rfl) hℓ hrun
  | interrupted hrun => exact hpart (.call rfl) hℓ hrun
  | timeout hrun => exact hpart (.call rfl) hℓ hrun
  | ready hrun => exact hpart (.call rfl) hℓ hrun
  | accept hrun => exact hpart (.listen _ _) hℓ hrun
  | drain hrun => exact hpart (.drain _) hℓ hrun
  | skip _ => exact hℓ
  | visit _ hrun => exact hpart (.visit _ _ _) hℓ hrun
  | walked henv => exact hothers _ _ hℓ henv
  | keep _ => exact hℓ
  | close _ hrun => exact hpart (.close _) hℓ hrun
  | swept henv => exact hothers _ _ hℓ henv
  | turn => exact hturn _ hℓ

theorem serveListener_all {C : Op → Prop} (hplain : ∀ o : Op, o.plain = true → C o)
    (hsession : ∀ o : Op, o.ofSession = true → (∀ fd, o ≠ .readLine fd) → C o)
    (revents : Nat → Revents) (listener : Listener) :
    (serveListener fds revents m listener).All C := by
  have hclose : ∀ fd, C (.close fd) := fun fd => hsession _ rfl nofun
  have haccept : ∀ fd, C (.accept fd) := fun fd => hsession _ rfl nofun
  cases listener <;> simp only [serveListener] <;> split
  · exact acceptNewInetConnection_all hplain hclose _ _ _ _ (haccept _)
  · exact Prog.all_pure _
  · exact acceptNewInetConnection_all hplain hclose _ _ _ _ (haccept _)
  · exact Prog.all_pure _
  · exact acceptNewUnixConnection_all hplain hclose _ _ (haccept _)
  · exact Prog.all_pure _

theorem drainBoth_all {C : Op → Prop} (hplain : ∀ o : Op, o.plain = true → C o)
    (revents : Nat → Revents) :
    (drainBoth fds revents).All C :=
  (drainIfReady_all hplain _ _).bind fun _ => drainIfReady_all hplain _ _

theorem visitSlot_keeps (revents : Nat → Revents) (i idx : Nat) :
    MainKeeps cfg codec (visitSlot cfg dt revents i idx m) := by
  unfold visitSlot
  split
  · exact handleClientCommand_keeps dt m i _
  · exact mainKeeps_pure m

theorem LoopPart.keeps (hp : LoopPart cfg dt fds m p) : MainKeeps cfg codec p := by
  cases hp with
  | call ho => exact mainKeeps_all (call_all plain_idle ho)
  | listen revents listener =>
    exact mainKeeps_all (serveListener_all plain_idle
      (fun _ ho _ => session_idle ho) revents listener)
  | drain revents => exact mainKeeps_all (drainBoth_all plain_idle revents)
  | visit revents i idx => exact visitSlot_keeps revents i idx
  | close i => exact mainKeeps_all (closeClient_all _ (session_idle rfl))

theorem LoopRun.atRest {files : Bytes → Option Bytes} {ℓ : LoopState}
    (h : LoopRun codec cfg dt fds (initialLoop files) ℓ) : AtRest cfg codec ℓ.sys := by
  induction h with
  | refl => exact ⟨inv_initial files, rfl, nofun⟩
  | tail _ hstep ih =>
    refine hstep.preserves (fun hp hs hrun => hs.amid hp.keeps hrun)
      (fun _ _ hs henv => hs.others henv) ?_ ih
    intro s hs
    exact ⟨(conduct_sound cfg codec).inv_turn (t := .main) (b := none) hs.inv hs.idle,
      hs.idle, hs.kempt⟩

/-! The owners of jobs. -/

/-- Every job's record has its owner's address. -/
def Owned (s : Sys) : Prop := Records (fun _ r => Address r.owner_ip) s

theorem Owned.job (hs : Owned s) (j : Nat) : Address (s.world.job j).owner_ip := by
  by_cases hj : j < s.world.jobs.length
  · exact hs j hj
  · rw [World.job_default (Nat.le_of_not_lt hj)]
    exact ⟨by decide, List.not_mem_nil⟩

theorem Effect.owned {t : Tid} {o : Op} {marks : List Mark}
    (heffect : Effect t s.world o s'.world marks)
    (ho : ∀ fd ip type payload input_path, o = .createJob fd ip type payload input_path →
      newline ∉ ip) (hs : Owned s) :
    Owned s' := by
  refine heffect.records ?_ ?_ ?_ hs
  · exact fun fd ip type payload input_path now hcreate => address_snprintf (ho _ _ _ _ _ hcreate)
  · intro j u now _ hj
    cases u <;> exact hj
  · exact fun j r hr => hr

theorem others_owned (hs : Owned s) (h : (conduct cfg codec).Others .main s s') : Owned s' := by
  induction h with
  | refl => exact hs
  | tail _ hstep ih =>
    cases hstep with
    | op hne _ hallowed hstep =>
      obtain ⟨e, marks, -, hexec, -⟩ := hstep
      refine (exec_effect hexec).owned ?_ ih
      rintro fd ip type payload input_path rfl
      exact absurd hallowed.1 hne
    | turn _ _ _ => exact ih

theorem amid_owned {client : ClientSession} (hclient : Address client.addr_str)
    (hp : p.All fun o => o.onBehalfOf client) (hs : Owned s) (h : Amid codec cfg p s a s') :
    Owned s' := by
  refine h.preserves (P := Owned) (fun _ _ hs henv => others_owned hs henv) ?_ hp hs
  rintro o s₁ b s₂ ho hs₁ ⟨e, marks, -, hexec, -⟩
  refine (exec_effect hexec).owned ?_ hs₁
  rintro fd ip type payload input_path rfl
  exact ho.2 ▸ hclient.2

theorem plain_onBehalfOf (client : ClientSession) (o : Op) (ho : o.plain = true) :
    o.onBehalfOf client := by
  cases o with
  | readLine fd => cases ho
  | _ => trivial

theorem session_onBehalfOf (client : ClientSession) (o : Op) (ho : o.ofSession = true)
    (hline : ∀ fd, o ≠ .readLine fd) :
    o.onBehalfOf client := by
  cases o with
  | readLine fd => exact absurd rfl (hline fd)
  | _ => trivial

theorem visitSlot_onBehalfOf (revents : Nat → Revents) (i idx : Nat) :
    (visitSlot cfg dt revents i idx m).All fun o => o.onBehalfOf (m.clients.get i) := by
  unfold visitSlot
  split
  · exact handleClientCommand_all (fun _ _ _ ho => ho) cfg dt m i rfl trivial
  · exact Prog.all_pure _

theorem LoopPart.onBehalfOf (hp : LoopPart cfg dt fds m p) :
    ∃ i, p.All fun o => o.onBehalfOf (m.clients.get i) := by
  cases hp with
  | call ho => exact ⟨0, call_all (plain_onBehalfOf _) ho⟩
  | listen revents listener =>
    exact ⟨0, serveListener_all (plain_onBehalfOf _) (session_onBehalfOf _) revents listener⟩
  | drain revents => exact ⟨0, drainBoth_all (plain_onBehalfOf _) revents⟩
  | visit revents i idx => exact ⟨i, visitSlot_onBehalfOf revents i idx⟩
  | close i => exact ⟨i, closeClient_all _ trivial⟩

theorem LoopRun.owned {files : Bytes → Option Bytes} {ℓ : LoopState}
    (h : LoopRun codec cfg dt fds (initialLoop files) ℓ) : Owned ℓ.sys := by
  induction h with
  | refl => exact nofun
  | tail hpre hstep ih =>
    have htidy := LoopRun.tidy hpre
    refine hstep.preserves (fun hp hs hrun => ?_)
      (fun _ _ hs henv => others_owned hs henv) (fun _ hs => hs) ih
    obtain ⟨i, hall⟩ := hp.onBehalfOf
    exact amid_owned (htidy.addr i) hall hs hrun

end

end StegaPng
