import StegaPng.Lifetimes
import StegaPng.Shutdown
import StegaPng.Termination

/-! How `server_run` ends: the main thread waits for nothing but workers that can go on,
and once the stop has begun, every schedule ends with every thread gone. -/

namespace StegaPng

open Interleaving

/-- The operation that stops the queue. -/
def LifeOp.stops : LifeOp → Bool
  | .inner .stopQueue => true
  | _ => false

/-- What a step of `server_run` keeps. -/
structure Steady (o : LifeOp) (s s' : LifeState) : Prop where
  events : ∀ e ∈ s.events, e ∈ s'.events
  running : s.sys.world.running = false → s'.sys.world.running = false
  stopped : o.stops = false → s'.sys.world.stopped = s.sys.world.stopped
  stays : s.sys.world.stopped = true → s'.sys.world.stopped = true

theorem lifeExec_steady {codec : PngCodec} {t : Tid} {o : LifeOp} {s s' : LifeState} {a : LifeAns o}
    (h : (lifeMachine codec).step t o s a s') : Steady o s s' := by
  obtain ⟨added, -, hevents⟩ := lifeExec_effect h
  have hgrow : ∀ e ∈ s.events, e ∈ s'.events := by
    intro e he
    rw [hevents]
    exact List.mem_append_right _ he
  obtain ⟨e, hexec⟩ := h
  have hsame : s'.sys = s.sys → Steady o s s' := by
    intro hsys
    constructor
    · exact hgrow
    · rw [hsys]
      exact id
    · intro _
      rw [hsys]
    · rw [hsys]
      exact id
  cases o with
  | inner o =>
    simp only [lifeExec] at hexec
    cases hinner : exec codec e t s.sys.world o with
    | none =>
      rw [hinner] at hexec
      cases hexec
    | some outcome =>
      obtain ⟨b, w, marks⟩ := outcome
      rw [hinner] at hexec
      cases hexec
      obtain ⟨hrunning, hstopped⟩ := exec_flags hinner
      constructor
      · exact hgrow
      · intro hoff
        rcases hrunning with hsame | ⟨-, hoff'⟩
        · exact hsame.trans hoff
        · exact hoff'
      · intro hstops
        refine hstopped.resolve_right ?_
        rintro ⟨rfl, -⟩
        cases hstops
      · intro hon
        rcases hstopped with hsame | ⟨-, hon'⟩
        · exact hsame.trans hon
        · exact hon'
  | start i =>
    simp only [lifeExec] at hexec
    split at hexec
    · cases hexec
      exact hsame rfl
    · cases hexec
  | join i =>
    simp only [lifeExec] at hexec
    split at hexec
    · cases hexec
      exact hsame rfl
    · cases hexec
  | _ =>
    cases hexec
    exact hsame rfl

/-! What the threads know on the way to the end. -/

/-- What a thread may do next. -/
def StopAllowed : Tid → LifeOp → LifeState → Prop
  | .main, .inner o, s =>
    o.ofLoop = true ∨ o = .stopRunning ∨ o = .stopQueue ∧ s.sys.world.running = false
  | .main, .createThread _, s => s.sys.world.stopped = false
  | .main, .join i, s => s.sys.world.stopped = true ∧ .created i ∈ s.events
  | .main, .start _, _ | .main, .finish _, _ => False
  | .main, _, _ => True
  | .worker i, .inner o, s => o.ofWorker = true ∧ .created i ∈ s.events
  | .worker i, .start j, _ => j = i
  | .worker i, .finish j, s => j = i ∧ .created i ∈ s.events
  | .worker _, _, _ => False

/-- The first `n` workers have been created, and whether the stop has begun. -/
structure Standing (n : Nat) (stopped : Bool) (s : LifeState) : Prop where
  created : ∀ i < n, .created i ∈ s.events
  stopped : s.sys.world.stopped = stopped

/-- What a thread knows between its turns. -/
def StopStart (cfg : RuntimeConfig) : Tid → Life.Loc → LifeState → Prop
  | .main, .starting, s => Standing 0 false s
  | .main, .looping _, s => Standing cfg.worker_count false s
  | .worker _, .starting, _ => True
  | .worker i, .looping _, s => .created i ∈ s.events

/-- What is left of a thread that has ended. -/
def StopEnd : Tid → LifeState → Prop
  | .main, s => .returned ∈ s.events
  | .worker i, s => .created i ∈ s.events ∧ .ended i ∈ s.events

def StopFinish (cfg : RuntimeConfig) (t : Tid) : Option Life.Loc → LifeState → Prop
  | none, s => StopEnd t s
  | some .starting, _ => False
  | some (.looping m), s => StopStart cfg t (.looping m) s

/-- What a thread relies on while it pauses: nobody else stops the queue. -/
structure StopRely (t : Tid) (s s' : LifeState) : Prop where
  events : ∀ e ∈ s.events, e ∈ s'.events
  running : s.sys.world.running = false → s'.sys.world.running = false
  stopped : t = .main → s'.sys.world.stopped = s.sys.world.stopped

def stopConduct (cfg : RuntimeConfig) (codec : PngCodec) :
    Discipline (lifeMachine codec) Life.Loc where
  inv s := s.sys.world.stopped = true → s.sys.world.running = false
  allowed := StopAllowed
  rely := StopRely
  start := StopStart cfg
  finish := StopFinish cfg

theorem StopAllowed.only_main {t : Tid} {o : LifeOp} {s : LifeState} (h : StopAllowed t o s)
    (ho : o.stops = true) :
    t = .main ∧ s.sys.world.running = false := by
  obtain rfl : o = .inner .stopQueue := by
    unfold LifeOp.stops at ho
    split at ho
    · rfl
    · cases ho
  cases t with
  | main =>
    rcases h with hloop | hstop | ⟨-, hoff⟩
    · cases hloop
    · cases hstop
    · exact ⟨rfl, hoff⟩
  | worker i => cases h.1

theorem StopEnd.grow {t : Tid} {s s' : LifeState} (h : StopEnd t s)
    (hevents : ∀ e ∈ s.events, e ∈ s'.events) :
    StopEnd t s' := by
  cases t with
  | main => exact hevents _ h
  | worker i => exact ⟨hevents _ h.1, hevents _ h.2⟩

theorem Standing.rely {n : Nat} {stopped : Bool} {s s' : LifeState} (h : Standing n stopped s)
    (hrely : StopRely .main s s') : Standing n stopped s' where
  created i hi := hrely.events _ (h.created i hi)
  stopped := (hrely.stopped rfl).trans h.stopped

theorem StopStart.rely {cfg : RuntimeConfig} {t : Tid} {l : Life.Loc} {s s' : LifeState}
    (h : StopStart cfg t l s) (hrely : StopRely t s s') : StopStart cfg t l s' := by
  cases t with
  | main =>
    cases l with
    | starting => exact Standing.rely h hrely
    | looping m => exact Standing.rely h hrely
  | worker i =>
    cases l with
    | starting => trivial
    | looping m => exact hrely.events _ h

theorem StopStart.turn {cfg : RuntimeConfig} {codec : PngCodec} {t u : Tid} {l : Life.Loc}
    {s : LifeState} (h : StopStart cfg t l s) :
    StopStart cfg t l ((lifeMachine codec).turn u s) := by
  cases t with
  | main =>
    cases l with
    | starting => exact ⟨h.created, h.stopped⟩
    | looping m => exact ⟨h.created, h.stopped⟩
  | worker i =>
    cases l with
    | starting => trivial
    | looping m => exact h

theorem stopConduct_sound (cfg : RuntimeConfig) (codec : PngCodec) :
    (stopConduct cfg codec).Sound where
  inv_step {t o s a s'} hinv hallowed hstep := by
    have hsteady := lifeExec_steady hstep
    intro hstopped
    cases hstops : o.stops with
    | true => exact hsteady.running (StopAllowed.only_main hallowed hstops).2
    | false =>
      rw [hsteady.stopped hstops] at hstopped
      exact hsteady.running (hinv hstopped)
  rely_step {t u o s a s'} _ hallowed hstep htu := by
    have hsteady := lifeExec_steady hstep
    refine ⟨hsteady.events, hsteady.running, fun hmain => hsteady.stopped ?_⟩
    refine Bool.eq_false_iff.mpr fun hstops => ?_
    exact htu (hmain.trans (StopAllowed.only_main hallowed hstops).1.symm)
  rely_refl t s := ⟨fun _ he => he, id, fun _ => rfl⟩
  rely_trans {t s s' s''} h h' :=
    ⟨fun e he => h'.events e (h.events e he), fun hoff => h'.running (h.running hoff),
      fun hmain => (h'.stopped hmain).trans (h.stopped hmain)⟩
  finish_rely {t b s s'} hfinish hrely _ := by
    cases b with
    | none => exact StopEnd.grow hfinish hrely.events
    | some l =>
      cases l with
      | starting => exact hfinish
      | looping m => exact StopStart.rely hfinish hrely
  inv_turn hinv _ := hinv
  rely_turn _ _ _ := ⟨fun _ he => he, id, fun _ => rfl⟩
  start_turn {t l s} _ hfinish := by
    cases l with
    | starting => exact False.elim hfinish
    | looping m => exact StopStart.turn hfinish

section

variable {cfg : RuntimeConfig} {codec : PngCodec} {s : LifeState} {α : Type} {n : Nat}
  {stopped : Bool}

theorem Standing.step {t : Tid} {o : LifeOp} {s' : LifeState} {a : LifeAns o}
    (h : Standing n stopped s) (ho : o.stops = false)
    (hstep : (lifeMachine codec).step t o s a s') : Standing n stopped s' where
  created i hi := (lifeExec_steady hstep).events _ (h.created i hi)
  stopped := ((lifeExec_steady hstep).stopped ho).trans h.stopped

theorem standing_wp {p : LifeTask α}
    (hp : p.All fun o => o.stops = false ∧ ∀ s, Standing n stopped s → StopAllowed .main o s)
    (h : Standing n stopped s) :
    (stopConduct cfg codec).wp .main p (fun _ s => Standing n stopped s) s := by
  refine Discipline.wp_all (P := Standing n stopped) ?_ ?_ ?_ hp h
  · intro s s' h hrely _
    exact h.rely hrely
  · intro o s ho h _
    exact ho.2 s h
  · intro o s a s' ho h _ hstep _
    exact h.step ho.1 hstep

/-- An operation that a thread may always perform. -/
theorem free_wp {o : LifeOp} (ho : o.stops = false)
    (hfree : ∀ s, Standing n stopped s → StopAllowed .main o s) (h : Standing n stopped s) :
    (stopConduct cfg codec).wp .main (lifeCall o) (fun _ s => Standing n stopped s) s :=
  standing_wp ((Prog.all_perform o).mpr ⟨ho, hfree⟩) h

theorem within_loops_wp {p : Task α} (hp : p.Loops) (h : Standing n stopped s) :
    (stopConduct cfg codec).wp .main (within p) (fun _ s => Standing n stopped s) s := by
  refine standing_wp ?_ h
  induction p with
  | ret a => trivial
  | op o k ih =>
    refine ⟨⟨?_, fun s _ => .inl hp.1⟩, fun a => ih a (hp.2 a)⟩
    have hloop := hp.1
    cases o <;> first | rfl | cases hloop

namespace Life

/-- `server_run` returns. -/
theorem returned_wp : (stopConduct cfg codec).wp .main (do
    lifeCall .leave
    return (none : Option Loc)) ((stopConduct cfg codec).finish .main) s := by
  intro s₁ _ _
  refine ⟨trivial, ?_⟩
  rintro a s₂ ⟨e, hexec⟩ _
  cases hexec
  exact List.mem_cons_self

theorem leave_stop_wp (flags : Initialized) (hstarted : flags.workers_started = false)
    (h : Standing n stopped s) :
    (stopConduct cfg codec).wp .main (leave cfg flags)
      ((stopConduct cfg codec).finish .main) s := by
  have hclose : (cleanupServerState cfg flags).All fun o =>
      o.stops = false ∧ ∀ s, Standing n stopped s → StopAllowed .main o s := by
    refine Prog.All.mono ?_ (cleanupServerState_all flags hstarted)
    intro o ho
    cases o with
    | closeDescriptors => exact ⟨rfl, fun _ _ => trivial⟩
    | destroy r => exact ⟨rfl, fun _ _ => trivial⟩
    | leave => exact ⟨rfl, fun _ _ => trivial⟩
    | _ => cases ho
  exact Discipline.wp_seq (standing_wp hclose h) fun _ s _ => returned_wp

theorem setUp_stop_wp {steps : List SetupStep} {flags : Initialized} (h : Standing 0 false s)
    (hstarted : flags.workers_started = false) :
    (stopConduct cfg codec).wp .main (setUp steps flags)
      (fun r s => r.2.workers_started = false ∧ Standing 0 false s) s := by
  induction steps generalizing s flags with
  | nil => exact ⟨hstarted, h⟩
  | cons step steps ih =>
    refine Discipline.wp_seq (free_wp rfl (fun _ _ => trivial) h) fun ok s h => ?_
    have hafter : (flags.after step).workers_started = false := by cases step <;> exact hstarted
    cases ok with
    | false => exact ⟨hstarted, h⟩
    | true => exact ih h hafter

theorem initWorkers_stop_wp {left i : Nat} (h : Standing i false s) :
    (stopConduct cfg codec).wp .main (initWorkers left i)
      (fun ok s => Standing (if ok then i + left else 0) false s) s := by
  induction left generalizing i s with
  | zero => exact h
  | succ left ih =>
    intro s₁ hrely _
    have hstanding := h.rely hrely
    refine ⟨hstanding.stopped, ?_⟩
    rintro ok s₂ hstep -
    have hkept := hstanding.step rfl hstep
    cases ok with
    | false => exact ⟨fun j hj => absurd hj (Nat.not_lt_zero j), hkept.stopped⟩
    | true =>
      have hcreated : .created i ∈ s₂.events := by
        obtain ⟨e, hexec⟩ := hstep
        simp only [lifeExec, Option.some.injEq, Prod.mk.injEq] at hexec
        rw [← hexec.2, hexec.1]
        exact List.mem_cons_self
      have hnext : Standing (i + 1) false s₂ := by
        refine ⟨fun j hj => ?_, hkept.stopped⟩
        rcases Nat.lt_succ_iff_lt_or_eq.mp hj with hlt | rfl
        · exact hkept.created j hlt
        · exact hcreated
      have hcount : i + (left + 1) = i + 1 + left := by omega
      rw [hcount]
      exact ih hnext

theorem serverStart_stop_wp (h : Standing 0 false s) :
    (stopConduct cfg codec).wp .main (serverStart cfg)
      ((stopConduct cfg codec).finish .main) s := by
  refine Discipline.wp_seq (free_wp rfl (fun _ _ => trivial) h) fun ok s h => ?_
  cases ok with
  | false => exact returned_wp
  | true =>
    refine Discipline.wp_seq (setUp_stop_wp h rfl) ?_
    rintro ⟨ok, flags⟩ s ⟨hstarted, h⟩
    cases ok with
    | false => exact leave_stop_wp flags hstarted h
    | true =>
      refine Discipline.wp_seq (initWorkers_stop_wp h) fun ok s h => ?_
      cases ok with
      | false => exact leave_stop_wp flags hstarted h
      | true =>
        rw [if_pos rfl, Nat.zero_add] at h
        exact h

theorem joinWorkers_stop_wp {left i : Nat} (hcount : i + left ≤ n) (h : Standing n true s) :
    (stopConduct cfg codec).wp .main (joinWorkers left i) (fun _ s => Standing n true s) s := by
  induction left generalizing i s with
  | zero => exact h
  | succ left ih =>
    have hjoin : ∀ s, Standing n true s → StopAllowed .main (.join i) s := by
      intro s h
      exact ⟨h.stopped, h.created i (by omega)⟩
    refine Discipline.wp_seq (free_wp rfl hjoin h) fun _ s h => ?_
    exact ih (by omega) h

theorem stopWorkers_stop_wp (h : Standing cfg.worker_count false s) :
    (stopConduct cfg codec).wp .main (stopWorkers cfg)
      (fun _ s => Standing cfg.worker_count true s) s := by
  -- the flag is clear when the queue is stopped, and stays clear
  intro s₁ hrely₁ _
  refine ⟨.inr (.inl rfl), fun a s₂ hstep₁ _ => ?_⟩
  have hstanding₂ := (h.rely hrely₁).step rfl hstep₁
  have hoff₂ : s₂.sys.world.running = false := by
    obtain ⟨e, hexec⟩ := hstep₁
    cases hexec
    rfl
  intro s₃ hrely₃ _
  refine ⟨.inr (.inr ⟨rfl, hrely₃.running hoff₂⟩), fun b s₄ hstep₃ _ => ?_⟩
  have hcreated := (hstanding₂.rely hrely₃).created
  have hstanding₄ : Standing cfg.worker_count true s₄ := by
    refine ⟨fun i hi => (lifeExec_steady hstep₃).events _ (hcreated i hi), ?_⟩
    obtain ⟨e, hexec⟩ := hstep₃
    cases hexec
    rfl
  exact joinWorkers_stop_wp (by omega) hstanding₄

theorem serverTurn_stop_wp (dt : DurationText) (fds : ServerFds) (m : MainState)
    (h : Standing cfg.worker_count false s) :
    (stopConduct cfg codec).wp .main (serverTurn cfg dt fds m)
      ((stopConduct cfg codec).finish .main) s := by
  have hleave : ∀ {s}, Standing cfg.worker_count false s →
      (stopConduct cfg codec).wp .main (leave cfg ⟨true, true, true, true⟩)
        ((stopConduct cfg codec).finish .main) s := by
    intro s h
    have hsplit : leave cfg ⟨true, true, true, true⟩ =
        stopWorkers cfg >>= fun _ => leave cfg ⟨false, true, true, true⟩ := by
      simp only [leave, cleanupServerState, Prog.bind_assoc, if_true]
      rfl
    rw [hsplit]
    exact Discipline.wp_seq (stopWorkers_stop_wp h) fun _ s h => leave_stop_wp _ rfl h
  refine Discipline.wp_seq (within_loops_wp (loops_call (o := .gRunning) rfl) h) fun running s h =>
    ?_
  cases running with
  | false => exact hleave h
  | true =>
    refine Discipline.wp_seq (within_loops_wp (loops_pollIteration dt fds m) h) ?_
    rintro ⟨next, log⟩ s h
    cases next with
    | none => exact hleave h
    | some m => exact h

theorem workerMain_stop_wp (i : Nat) (l : Loc) (h : StopStart cfg (.worker i) l s) :
    (stopConduct cfg codec).wp (.worker i) (workerMain cfg i l)
      ((stopConduct cfg codec).finish (.worker i)) s := by
  cases l with
  | starting =>
    intro s₁ _ _
    refine ⟨rfl, ?_⟩
    rintro a s₂ ⟨e, hexec⟩ -
    simp only [lifeExec] at hexec
    split at hexec
    · next hcreated =>
      cases hexec
      exact List.mem_cons_of_mem _ hcreated
    · cases hexec
  | looping m =>
    have hbody : (stopConduct cfg codec).wp (.worker i) (within (workerTurn cfg i))
        (fun _ s => .created i ∈ s.events) s := by
      have hworks : (within (workerTurn cfg i)).All fun o => ∃ o', o = .inner o' ∧
        o'.ofWorker = true := by
        generalize hturn : workerTurn cfg i = p
        have hp : p.Works := hturn ▸ works_workerTurn i
        clear hturn
        induction p with
        | ret a => trivial
        | op o k ih => exact ⟨⟨o, rfl, hp.1⟩, fun a => ih a (hp.2 a)⟩
      refine Discipline.wp_all (P := fun s : LifeState => .created i ∈ s.events) ?_ ?_ ?_ hworks h
      · intro s s' h hrely _
        exact hrely.events _ h
      · rintro o s ⟨o', rfl, ho⟩ h _
        exact ⟨ho, h⟩
      · rintro o s a s' - h - hstep -
        exact (lifeExec_steady hstep).events _ h
    refine Discipline.wp_seq hbody fun again s h => ?_
    cases again with
    | true => exact h
    | false =>
      intro s₁ hrely _
      have hcreated := hrely.events _ h
      refine ⟨⟨rfl, hcreated⟩, ?_⟩
      rintro a s₂ ⟨e, hexec⟩ -
      cases hexec
      exact ⟨List.mem_cons_of_mem _ hcreated, List.mem_cons_self⟩

theorem body_stop_wp (dt : DurationText) (fds : ServerFds) (t : Tid) (l : Loc) (s : LifeState)
    (h : StopStart cfg t l s) :
    (stopConduct cfg codec).wp t (body cfg dt fds t l) ((stopConduct cfg codec).finish t) s := by
  cases t with
  | worker i => exact workerMain_stop_wp i l h
  | main =>
    cases l with
    | starting => exact serverStart_stop_wp h
    | looping m => exact serverTurn_stop_wp dt fds m h

/-! Every run of `server_run`. -/

variable {dt : DurationText} {fds : ServerFds} {files : Bytes → Option Bytes}
  {c c' : LifeConfig} {t : Tid}

theorem initial_stop_keeps : (stopConduct cfg codec).Keeps (initial cfg dt fds files) where
  inv hstopped := by cases hstopped
  wp t p hp := by
    cases hp
    refine body_stop_wp dt fds t .starting _ ?_
    cases t with
    | main => exact ⟨fun i hi => absurd hi (Nat.not_lt_zero i), rfl⟩
    | worker i => trivial

theorem Reachable.stop_keeps (h : Reachable codec cfg dt fds files c) :
    (stopConduct cfg codec).Keeps c :=
  initial_stop_keeps.reachable (stopConduct_sound cfg codec)
    (fun t l s _ => body_stop_wp dt fds t l s) h

theorem Reachable.gone (h : Reachable codec cfg dt fds files c) (ht : c.thread t = none) :
    StopEnd t c.state := by
  have hended : (stopConduct cfg codec).Ended (initial cfg dt fds files) := by
    intro t ht
    cases ht
  have hturn : ∀ t s, (stopConduct cfg codec).inv s → (stopConduct cfg codec).finish t none s →
      (stopConduct cfg codec).finish t none ((lifeMachine codec).turn t s) :=
    fun t s _ hfinish => StopEnd.grow hfinish fun _ he => he
  exact Discipline.Ended.reachable (stopConduct_sound cfg codec) hturn
    (fun t l s _ => body_stop_wp dt fds t l s)
    initial_stop_keeps hended h t ht

/-- Only a worker that looks for work may have to wait in the server's own code. -/
theorem exists_inner_step (codec : PngCodec) (t : Tid) (s : LifeState) {o : Op}
    (hwaits : o.waits = false ∨ o = .pop ∧ s.sys.world.stopped = true) :
    ∃ a s', (lifeMachine codec).step t (.inner o) s a s' := by
  have hsteps : ∃ a s', (machine codec).step t o s.sys a s' := by
    rcases hwaits with hfree | ⟨rfl, hstopped⟩
    · exact exists_step ⟨{}, trivial⟩ codec t hfree s.sys
    · refine ⟨none, s.sys, {}, [], trivial, ?_, rfl⟩
      simp [exec, hstopped]
  obtain ⟨a, s', e, marks, -, hexec, hhistory⟩ := hsteps
  refine ⟨a, ⟨s', t.touch ++ s.events⟩, e, ?_⟩
  obtain ⟨w, history⟩ := s'
  obtain rfl : history = marks ++ s.sys.history := hhistory
  simp only [lifeExec, hexec]

/-- Why a thread that has not ended may have to wait. -/
def Pauses (codec : PngCodec) (c : LifeConfig) : Tid → Prop
  | .main => ∃ i k, c.thread .main = some (.op (.join i) k) ∧ .created i ∈ c.state.events ∧
      .ended i ∉ c.state.events ∧ ¬ c.Waiting (lifeMachine codec) (.worker i)
  | .worker i =>
    .created i ∉ c.state.events ∨ c.state.sys.world.queue = [] ∧ c.state.sys.world.stopped = false ∧
      ∃ k, c.thread (.worker i) = some (.op (.inner .pop) k)

theorem Reachable.worker_pauses (h : Reachable codec cfg dt fds files c) {i : Nat}
    (halive : c.thread (.worker i) ≠ none) (hwaits : c.Waiting (lifeMachine codec) (.worker i)) :
    Pauses codec c (.worker i) := by
  obtain ⟨p, hp⟩ := Option.ne_none_iff_exists'.mp halive
  obtain ⟨o, k, rfl, hblocked⟩ := hwaits p hp
  have hallowed : StopAllowed (.worker i) o c.state :=
    h.stop_keeps.allowed (stopConduct_sound cfg codec) hp
  cases o with
  | inner o =>
    cases hfree : o.waits with
    | false =>
      obtain ⟨a, s, hstep⟩ := exists_inner_step codec (.worker i) c.state (.inl hfree)
      exact absurd hstep (hblocked a s)
    | true =>
      obtain rfl : o = .pop := Op.ofWorker.pop hallowed.1 hfree
      have hrunning : c.state.sys.world.stopped = false := by
        refine Bool.eq_false_iff.mpr fun hstopped => ?_
        obtain ⟨a, s, hstep⟩ := exists_inner_step codec (.worker i) c.state (.inr ⟨rfl, hstopped⟩)
        exact hblocked a s hstep
      refine .inr ⟨?_, hrunning, k, hp⟩
      cases hqueue : c.state.sys.world.queue with
      | nil => rfl
      | cons job queue =>
        refine absurd ⟨{}, ?_⟩ (hblocked (some job) ⟨⟨{ c.state.sys.world with queue := queue },
          .popped (.worker i) job :: c.state.sys.history⟩, .ran i :: c.state.events⟩)
        simp [lifeExec, exec, hrunning, hqueue, Tid.touch]
  | start j =>
    obtain rfl : j = i := hallowed
    refine .inl fun hcreated => hblocked () (c.state.record (.ran j)) ⟨{}, ?_⟩
    simp [lifeExec, hcreated]
  | finish j => exact absurd ⟨{}, rfl⟩ (hblocked () (c.state.record (.ended j)))
  | _ => exact False.elim hallowed

theorem Reachable.main_pauses (h : Reachable codec cfg dt fds files c)
    (halive : c.thread .main ≠ none) (hwaits : c.Waiting (lifeMachine codec) .main) :
    Pauses codec c .main := by
  obtain ⟨p, hp⟩ := Option.ne_none_iff_exists'.mp halive
  obtain ⟨o, k, rfl, hblocked⟩ := hwaits p hp
  have hallowed : StopAllowed .main o c.state :=
    h.stop_keeps.allowed (stopConduct_sound cfg codec) hp
  cases o with
  | inner o =>
    have hfree : o.waits = false := by
      rcases hallowed with hloop | rfl | ⟨rfl, -⟩
      · exact Op.ofLoop.prompt hloop
      · rfl
      · rfl
    obtain ⟨a, s, hstep⟩ := exists_inner_step codec .main c.state (.inl hfree)
    exact absurd hstep (hblocked a s)
  | join i =>
    have hgoing : .ended i ∉ c.state.events := by
      intro hended
      refine hblocked () (c.state.record (.joined i)) ⟨{}, ?_⟩
      simp [lifeExec, hended]
    refine ⟨i, k, hp, hallowed.2, hgoing, fun hworker => ?_⟩
    have halive' : c.thread (.worker i) ≠ none := fun hnone => hgoing (h.gone hnone).2
    rcases h.worker_pauses halive' hworker with hnot | ⟨-, hrunning, -⟩
    · exact hnot hallowed.2
    · rw [hallowed.1] at hrunning
      cases hrunning
  | setup step => exact absurd ⟨{}, rfl⟩ (hblocked true c.state)
  | createThread i => exact absurd ⟨{}, rfl⟩ (hblocked true (c.state.record (.created i)))
  | closeDescriptors => exact absurd ⟨{}, rfl⟩ (hblocked () c.state)
  | destroy r => exact absurd ⟨{}, rfl⟩ (hblocked () (c.state.record (.destroyed r)))
  | leave => exact absurd ⟨{}, rfl⟩ (hblocked () (c.state.record .returned))
  | start i => exact False.elim hallowed
  | finish i => exact False.elim hallowed

end Life

/-- If `pthread_create` does not fail after it has succeeded, no thread of `server_run` waits but
for work, or for a worker that can go on, and nothing is destroyed that a worker could wait in;
so where nothing moves any more, `server_run` has returned. -/
theorem server_never_stuck {dt : DurationText} {fds : ServerFds} {files : Bytes → Option Bytes}
    {c : Life.LifeConfig} (h : Life.Reachable codec cfg dt fds files c)
    (hcreate : ∀ i, .createFailed i ∈ c.state.events → i = 0) :
    (∀ t, c.thread t ≠ none → c.Waiting (lifeMachine codec) t → Life.Pauses codec c t) ∧
      (∀ r k, c.thread .main = some (.op (.destroy r) k) → ∀ i, .created i ∈ c.state.events →
        .joined i ∈ c.state.events ∧ .ended i ∈ c.state.events) ∧
      (c.Final (lifeMachine codec) → .returned ∈ c.state.events) := by
  have hpauses : ∀ t, c.thread t ≠ none → c.Waiting (lifeMachine codec) t →
      Life.Pauses codec c t := by
    intro t halive hwaits
    cases t with
    | main => exact h.main_pauses halive hwaits
    | worker i => exact h.worker_pauses halive hwaits
  refine ⟨hpauses, fun r k hmain i hi => ?_, fun hfinal => ?_⟩
  · have hkeeps : (lifeConduct cfg codec).Keeps c := h.life_keeps
    have hlate : ¬ LateFailure c.state.events := by
      rintro ⟨j, hj, hfailed⟩
      exact absurd (hcreate j hfailed) (Nat.ne_of_gt hj)
    have hallowed : LifeAllowed .main (.destroy r) c.state.events :=
      (hkeeps.allowed (lifeConduct_sound cfg codec) hmain).2.resolve_left hlate
    have hjoined := hallowed i hi
    exact ⟨hjoined, (hkeeps.inv.resolve_left hlate).joined_ended i hjoined⟩
  · by_cases halive : c.thread .main = none
    · exact h.gone halive
    · obtain ⟨i, k, -, -, -, hgoes⟩ := hpauses .main halive (hfinal .main)
      exact absurd (hfinal (.worker i)) hgoes

/-! Once the stop has begun. -/

namespace Life

/-- The program of a worker that starts no further turn while `running` is clear. -/
def LastTurn (cfg : RuntimeConfig) (i : Nat) (p : LifeTask (Option Loc)) : Prop :=
  (∃ m, p = workerMain cfg i (.looping m)) ∨ ∀ b, p.Yields b → b = none

/-- A worker's turn begins by reading the flag. -/
theorem workerMain_stopped (cfg : RuntimeConfig) (i : Nat) (m : MainState) :
    ∃ k, workerMain cfg i (.looping m) = .op (.inner .readRunning) k ∧ ∀ b, (k false).Yields b →
      b = none := by
  refine ⟨_, rfl, fun b hb => ?_⟩
  change (Prog.op (LifeOp.inner (.exit i)) fun _ => Prog.op (.finish i) fun _ =>
    Prog.ret none).Yields b at hb
  obtain ⟨-, hb⟩ := Prog.yields_op.mp hb
  obtain ⟨-, hb⟩ := Prog.yields_op.mp hb
  exact Prog.yields_ret.mp hb

theorem LastTurn.step {i : Nat} {o : LifeOp} {k : LifeAns o → LifeTask (Option Loc)}
    (h : LastTurn cfg i (.op o k)) {t : Tid} {a : LifeAns o} {s' : LifeState}
    (hoff : s.sys.world.running = false) (hstep : (lifeMachine codec).step t o s a s') :
    LastTurn cfg i (k a) := by
  rcases h with ⟨m, hloop⟩ | hlast
  · obtain ⟨k', heq, hk⟩ := workerMain_stopped cfg i m
    rw [heq] at hloop
    cases hloop
    obtain ⟨e, hexec⟩ := hstep
    obtain rfl : a = false := by
      simp only [lifeExec, exec, Option.some.injEq, Prod.mk.injEq] at hexec
      exact hexec.1.symm.trans hoff
    exact .inr hk
  · exact .inr fun b hb => hlast b (Prog.yields_op.mpr ⟨a, hb⟩)

/-- After the stop has begun: `n` bounds the turns that the threads may still start. -/
structure Closing (codec : PngCodec) (cfg : RuntimeConfig) (dt : DurationText) (fds : ServerFds)
    (files : Bytes → Option Bytes) (live : Finset Tid) (n : Tid → Nat) (c : LifeConfig) : Prop where
  reach : Reachable codec cfg dt fds files c
  stopped : c.state.sys.world.stopped = true
  created : ∀ i, .created i ∈ c.state.events → .worker i ∈ live
  last : ∀ i p, c.thread (.worker i) = some p → n (.worker i) = 0 → LastTurn cfg i p

variable {live : Finset Tid} {turns : Tid → Nat}

/-- Only the main thread and the workers that were created take steps. -/
theorem Closing.takesPart (h : Closing codec cfg dt fds files live turns c) (hmain : .main ∈ live)
    {p : LifeTask (Option Loc)} (ht : c.thread t = some p)
    (hgoes : ¬ c.Waiting (lifeMachine codec) t) : t ∈ live := by
  cases t with
  | main => exact hmain
  | worker i =>
    refine h.created i ?_
    rcases Config.not_waiting_iff.mp hgoes with ⟨b, hb⟩ | ⟨o, k, a, s, ho, hstep⟩
    · have hfinish : StopFinish cfg (.worker i) b c.state := h.reach.stop_keeps.wp _ _ hb
      cases b with
      | none => exact hfinish.1
      | some l =>
        cases l with
        | starting => exact False.elim hfinish
        | looping m => exact hfinish
    · have hallowed : StopAllowed (.worker i) o c.state :=
        h.reach.stop_keeps.allowed (stopConduct_sound cfg codec) ho
      cases o with
      | inner o => exact hallowed.2
      | finish j => exact hallowed.2
      | start j =>
        obtain rfl : j = i := hallowed
        obtain ⟨e, hexec⟩ := hstep
        simp only [lifeExec] at hexec
        split at hexec
        · assumption
        · cases hexec
      | _ => exact False.elim hallowed

theorem Closing.step {o : LifeOp} {k : LifeAns o → LifeTask (Option Loc)} {a : LifeAns o}
    {s' : LifeState} (h : Closing codec cfg dt fds files live turns c)
    (ht : c.thread t = some (.op o k)) (hstep : (lifeMachine codec).step t o c.state a s') :
    Closing codec cfg dt fds files live turns (c.put t (some (k a)) s') where
  reach := h.reach.tail (.op ht hstep)
  stopped := (lifeExec_steady hstep).stays h.stopped
  created i hi := by
    obtain ⟨added, heffect, hevents⟩ := lifeExec_effect hstep
    change .created i ∈ s'.events at hi
    rw [hevents] at hi
    rcases List.mem_append.mp hi with hnew | hold
    · -- no worker is created any more
      have hallowed : StopAllowed t o c.state :=
        h.reach.stop_keeps.allowed (stopConduct_sound cfg codec) ht
      cases heffect with
      | created j =>
        cases t with
        | main =>
          have hrunning : c.state.sys.world.stopped = false := hallowed
          rw [h.stopped] at hrunning
          cases hrunning
        | worker j => exact False.elim hallowed
      | quiet => exact absurd hnew List.not_mem_nil
      | _ => cases List.mem_singleton.mp hnew
    · exact h.created i hold
  last i p hp hzero := by
    by_cases hti : .worker i = t
    · subst hti
      simp only [Config.put, if_true, Option.some.injEq] at hp
      subst hp
      exact (h.last i _ ht hzero).step (h.reach.stop_keeps.inv h.stopped) hstep
    · simp only [Config.put, hti, if_false] at hp
      exact h.last i p hp hzero

theorem closing_rounds (hmain : .main ∈ live) :
    Config.Rounds (lifeMachine codec) (body cfg dt fds) live
      (Closing codec cfg dt fds files live) where
  op h ht hstep :=
    ⟨h.takesPart hmain ht (Config.not_waiting_iff.mpr (.inr ⟨_, _, _, _, ht, hstep⟩)),
      h.step ht hstep⟩
  halt {n c t} h ht := by
    refine ⟨h.takesPart hmain ht (Config.not_waiting_iff.mpr (.inl ⟨_, ht⟩)),
      h.reach.tail (.halt ht), h.stopped, h.created, ?_⟩
    intro i p hp hzero
    by_cases hti : .worker i = t
    · simp [Config.put, hti] at hp
    · simp only [Config.put, hti, if_false] at hp
      exact h.last i p hp hzero
  again {n c t l} h ht := by
    refine ⟨h.takesPart hmain ht (Config.not_waiting_iff.mpr (.inl ⟨_, ht⟩)), ?_⟩
    have hfinish : StopFinish cfg t (some l) c.state := h.reach.stop_keeps.wp _ _ ht
    cases l with
    | starting => exact False.elim hfinish
    | looping m =>
      cases t with
      | main =>
        have hrunning : c.state.sys.world.stopped = false := Standing.stopped hfinish
        rw [h.stopped] at hrunning
        cases hrunning
      | worker i =>
        have hpos : n (.worker i) ≠ 0 := by
          intro hzero
          rcases h.last i _ ht hzero with ⟨m', hloop⟩ | hlast
          · unfold workerMain workerTurn at hloop
            cases hloop
          · cases hlast _ (.ret _)
        refine ⟨0, Nat.pos_of_ne_zero hpos, h.reach.tail (.again ht), h.stopped, h.created, ?_⟩
        intro j p hp hzero
        by_cases hij : j = i
        · subst hij
          simp only [Config.put, if_true, Option.some.injEq] at hp
          exact .inl ⟨m, hp.symm⟩
        · have hne : Tid.worker j ≠ .worker i := by simpa using hij
          rw [Function.update_of_ne hne] at hzero
          simp only [Config.put, hne, if_false] at hp
          exact h.last j p hp hzero

/-- The threads that take part in the end of a run. -/
def participants (events : List LifeEvent) : Finset Tid :=
  insert .main (events.filterMap fun e => match e with
    | .created i => some (.worker i)
    | _ => none).toFinset

end Life

/-- Once `stop_workers` has stopped the queue, no schedule goes on for ever, and each one
that goes on as long as it can ends with `server_run` returned and no worker left. -/
theorem shutdown_ends {dt : DurationText} {fds : ServerFds} {files : Bytes → Option Bytes}
    {c : Life.LifeConfig} (h : Life.Reachable codec cfg dt fds files c)
    (hstopped : c.state.sys.world.stopped = true) :
    ¬ c.Endless (lifeMachine codec) (Life.body cfg dt fds) ∧
      (∃ c', Config.Reachable (lifeMachine codec) (Life.body cfg dt fds) c c' ∧
        c'.Final (lifeMachine codec)) ∧
      ∀ c', Config.Reachable (lifeMachine codec) (Life.body cfg dt fds) c c' →
        c'.Final (lifeMachine codec) →
        .returned ∈ c'.state.events ∧ c'.thread .main = none ∧
          ∀ i, .created i ∈ c'.state.events → .ended i ∈ c'.state.events ∧
            c'.thread (.worker i) = none := by
  have hclosing : Life.Closing codec cfg dt fds files (Life.participants c.state.events)
    (fun _ => 1) c := by
    refine ⟨h, hstopped, fun i hi => ?_, fun i p _ hzero => absurd hzero Nat.one_ne_zero⟩
    refine Finset.mem_insert_of_mem (List.mem_toFinset.mpr ?_)
    exact List.mem_filterMap.mpr ⟨_, hi, rfl⟩
  have hacc := (Life.closing_rounds (Finset.mem_insert_self _ _)).acc hclosing
  refine ⟨Config.not_endless hacc, Config.exists_final hacc, fun c' hreach hfinal => ?_⟩
  have h' : Life.Reachable codec cfg dt fds files c' := h.trans hreach
  have hstopped' : c'.state.sys.world.stopped = true := by
    clear hfinal h'
    induction hreach with
    | refl => exact hstopped
    | tail hpre hlast ih =>
      cases hlast with
      | op ht hstep => exact (lifeExec_steady hstep).stays ih
      | again ht => exact ih
      | halt ht => exact ih
  have hworkers : ∀ i, .created i ∈ c'.state.events → c'.thread (.worker i) = none := by
    intro i hi
    by_contra halive
    rcases h'.worker_pauses halive (hfinal _) with hnot | ⟨-, hrunning, -⟩
    · exact hnot hi
    · rw [hstopped'] at hrunning
      cases hrunning
  have hmain : c'.thread .main = none := by
    by_contra halive
    obtain ⟨i, k, -, -, -, hgoes⟩ := h'.main_pauses halive (hfinal _)
    exact hgoes (hfinal _)
  exact ⟨h'.gone hmain, hmain, fun i hi => ⟨(h'.gone (hworkers i hi)).2, hworkers i hi⟩⟩

end

/-! A run up to the first `pthread_join`. -/

namespace Life

/-- All three workers have been created, none has started, and the queue has been stopped. -/
theorem reachable_stopped :
    ∃ c, Reachable boundedCodec runtimeConfigDefaults plainDurations plainFds (fun _ => none) c ∧
      c.state.sys.world.stopped = true ∧ (∃ k, c.thread .main = some (.op (.join 0) k)) ∧
      c.state.events = [.created 2, .created 1, .created 0] := by
  have hstart : Runs (lifeMachine boundedCodec) .main (serverStart runtimeConfigDefaults)
      ⟨{ world := { files := fun _ => none }, history := [] }, []⟩ (some (.looping {}))
      ⟨{ world := { files := fun _ => none }, history := [] },
        [.created 2, .created 1, .created 0]⟩ := by
    iterate 15 refine .op (b := true) ⟨{}, rfl⟩ ?_
    exact .ret _ _
  have hlooping : Reachable boundedCodec runtimeConfigDefaults plainDurations plainFds
    (fun _ => none) _ :=
    Config.reachable_runs (c := initial runtimeConfigDefaults plainDurations plainFds fun _ =>
      none) (t := .main) rfl hstart
  have hturn := hlooping.tail (.again (t := .main) (l := .looping {}) rfl)
  have hleaving := hturn.tail (.op (t := .main) (a := false) rfl ⟨{ ok := false }, rfl⟩)
  have hcleared := hleaving.tail (.op (t := .main) (a := ()) rfl ⟨{}, rfl⟩)
  have hstopped := hcleared.tail (.op (t := .main) (a := ()) rfl ⟨{}, rfl⟩)
  exact ⟨_, hstopped, rfl, ⟨_, rfl⟩, rfl⟩

end Life

theorem server_never_stuck_joining :
    ∃ c, Life.Reachable boundedCodec runtimeConfigDefaults plainDurations plainFds
      (fun _ => none) c ∧
      c.Waiting (lifeMachine boundedCodec) .main ∧
        ¬ c.Waiting (lifeMachine boundedCodec) (.worker 0) := by
  obtain ⟨c, hreach, -, ⟨k, hmain⟩, hevents⟩ := Life.reachable_stopped
  have hwaits : c.Waiting (lifeMachine boundedCodec) .main := by
    intro p hp
    rw [hmain] at hp
    cases hp
    refine ⟨_, k, rfl, ?_⟩
    rintro a s ⟨e, hexec⟩
    simp [lifeExec, hevents] at hexec
  have hcreate : ∀ i, .createFailed i ∈ c.state.events → i = 0 := by
    intro i hi
    rw [hevents] at hi
    simp at hi
  obtain ⟨i, k', hjoin, -, -, hgoes⟩ :=
    (server_never_stuck hreach hcreate).1 .main (by simp [hmain]) hwaits
  rw [hmain] at hjoin
  cases hjoin
  exact ⟨c, hreach, hwaits, hgoes⟩

theorem shutdown_ends_joining :
    ∃ c, Life.Reachable boundedCodec runtimeConfigDefaults plainDurations plainFds
      (fun _ => none) c ∧
      ¬ c.Endless (lifeMachine boundedCodec)
        (Life.body runtimeConfigDefaults plainDurations plainFds) ∧
      ∃ c', Config.Reachable (lifeMachine boundedCodec)
        (Life.body runtimeConfigDefaults plainDurations plainFds) c c' ∧
        .returned ∈ c'.state.events := by
  obtain ⟨c, hreach, hstopped, -, -⟩ := Life.reachable_stopped
  obtain ⟨hfinite, ⟨c', hreach', hfinal⟩, hends⟩ := shutdown_ends hreach hstopped
  exact ⟨c, hreach, hfinite, c', hreach', (hends c' hreach' hfinal).1⟩

end StegaPng
