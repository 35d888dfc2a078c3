import StegaPng.Pipeline
import StegaPng.ServerRuns

/-! The whole of `server_run`: what it sets up, the threads it creates and what it destroys
at the end. -/

namespace StegaPng

open Interleaving

/-- What can fail before the workers are created, in the order of `server_run`. -/
inductive SetupStep where
  | blocklistInit
  | installSignalHandlers
  | storageSetRoot
  | storageInitDirs
  | jobTableInit
  | jobQueueInit
  | pipe
  | setNonblocking
  | initInotify
  | listenUser
  | listenAdmin
  | listenUnix

/-- What `cleanup_server_state` destroys. -/
inductive Shared where
  | queue
  | jobs
  | blocklist
  deriving DecidableEq

inductive LifeOp where
  | inner (o : Op)
  | setup (step : SetupStep)
  /-- `pthread_create` of worker `i`. -/
  | createThread (i : Nat)
  /-- The first step of the new thread. -/
  | start (i : Nat)
  /-- `worker_main` returns. -/
  | finish (i : Nat)
  /-- `pthread_join` of worker `i`. -/
  | join (i : Nat)
  | closeDescriptors
  | destroy (r : Shared)
  /-- `server_run` returns, and its frame is gone. -/
  | leave

@[reducible] def LifeAns : LifeOp → Type
  | .inner o => Ans o
  | .setup _ => Bool
  | .createThread _ => Bool
  | _ => Unit

abbrev LifeTask (α : Type) := Prog LifeOp LifeAns α

def lifeCall (o : LifeOp) : LifeTask (LifeAns o) := Prog.perform o

/-- The code of the threads, as a part of the whole. -/
def within {α : Type} : Task α → LifeTask α
  | .ret a => .ret a
  | .op o k => .op (.inner o) fun a => within (k a)

inductive LifeEvent where
  | created (i : Nat)
  | createFailed (i : Nat)
  | ran (i : Nat)
  | ended (i : Nat)
  | joined (i : Nat)
  | destroyed (r : Shared)
  | returned
  deriving DecidableEq

/-- The events so far, the newest first. -/
structure LifeState where
  sys : Sys
  events : List LifeEvent

/-- A worker's step touches what it was given. -/
def Tid.touch : Tid → List LifeEvent
  | .main => []
  | .worker i => [.ran i]

def LifeState.record (s : LifeState) (e : LifeEvent) : LifeState :=
  { s with events := e :: s.events }

/-- One operation of thread `t`; there is no outcome while it has to wait. -/
def lifeExec (codec : PngCodec) (e : Env) (t : Tid) (s : LifeState) :
    (o : LifeOp) → Option (LifeAns o × LifeState)
  | .inner o =>
    match exec codec e t s.sys.world o with
    | none => none
    | some (a, w, marks) => some (a, ⟨⟨w, marks ++ s.sys.history⟩, t.touch ++ s.events⟩)
  | .setup _ => some (e.ok, s)
  | .createThread i => some (e.ok, s.record (if e.ok then .created i else .createFailed i))
  | .start i => if .created i ∈ s.events then some ((), s.record (.ran i)) else none
  | .finish i => some ((), s.record (.ended i))
  | .join i => if .ended i ∈ s.events then some ((), s.record (.joined i)) else none
  | .closeDescriptors => some ((), s)
  -- `pthread_cond_destroy` of the queue returns where no worker waits in it, as after a join
  | .destroy r => some ((), s.record (.destroyed r))
  | .leave => some ((), s.record .returned)

def lifeMachine (codec : PngCodec) : Machine LifeOp LifeAns Tid LifeState where
  step t o s a s' := ∃ e, lifeExec codec e t s o = some (a, s')
  turn t s := { s with sys := (machine codec).turn t s.sys }

/-- The flags of `server_run`. -/
structure Initialized where
  workers_started : Bool := false
  queue_initialized : Bool := false
  jobs_initialized : Bool := false
  blocklist_initialized : Bool := false

/-- The flag that is set where a step has succeeded. -/
def Initialized.after (flags : Initialized) : SetupStep → Initialized
  | .blocklistInit => { flags with blocklist_initialized := true }
  | .jobTableInit => { flags with jobs_initialized := true }
  | .jobQueueInit => { flags with queue_initialized := true }
  | _ => flags

namespace Life

def initWorkers : Nat → Nat → LifeTask Bool
  | 0, _ => return true
  | left + 1, i => do
    if !(← lifeCall (.createThread i)) then
      return false
    initWorkers left (i + 1)

def joinWorkers : Nat → Nat → LifeTask Unit
  | 0, _ => return ()
  | left + 1, i => do
    lifeCall (.join i)
    joinWorkers left (i + 1)

def stopWorkers (cfg : RuntimeConfig) : LifeTask Unit := do
  lifeCall (.inner .stopRunning)
  lifeCall (.inner .stopQueue)
  joinWorkers cfg.worker_count 0

def cleanupServerState (cfg : RuntimeConfig) (flags : Initialized) : LifeTask Unit := do
  if flags.workers_started then
    stopWorkers cfg
  lifeCall .closeDescriptors
  if flags.queue_initialized then
    lifeCall (.destroy .queue)
  if flags.jobs_initialized then
    lifeCall (.destroy .jobs)
  if flags.blocklist_initialized then
    lifeCall (.destroy .blocklist)

/-- The steps in turn, up to the first that fails: whether none does, and the flags. -/
def setUp : List SetupStep → Initialized → LifeTask (Bool × Initialized)
  | [], flags => return (true, flags)
  | step :: steps, flags => do
    if !(← lifeCall (.setup step)) then
      return (false, flags)
    setUp steps (flags.after step)

def setupSteps : List SetupStep :=
  [.installSignalHandlers, .storageSetRoot, .storageInitDirs, .jobTableInit, .jobQueueInit, .pipe,
    .setNonblocking, .initInotify, .listenUser, .listenAdmin, .listenUnix]

/-- A thread has its first turn before it, or a turn of its loop. -/
inductive Loc where
  | starting
  | looping (m : MainState)

/-- `server_run` gives up, or is done. -/
def leave (cfg : RuntimeConfig) (flags : Initialized) : LifeTask (Option Loc) := do
  cleanupServerState cfg flags
  lifeCall .leave
  return none

/-- `server_run` up to its loop. -/
def serverStart (cfg : RuntimeConfig) : LifeTask (Option Loc) := do
  if !(← lifeCall (.setup .blocklistInit)) then
    -- nothing to clean up yet
    lifeCall .leave
    return none
  let (ok, flags) ← setUp setupSteps { blocklist_initialized := true }
  if !ok then
    leave cfg flags
  else if !(← initWorkers cfg.worker_count 0) then
    leave cfg flags
  else
    return some (.looping {})

/-- An iteration of its loop, and what follows the last one. -/
def serverTurn (cfg : RuntimeConfig) (dt : DurationText) (fds : ServerFds) (m : MainState) :
    LifeTask (Option Loc) := do
  let flags : Initialized := ⟨true, true, true, true⟩
  if !(← lifeCall (.inner .gRunning)) then
    leave cfg flags
  else
    let (next, _) ← within (pollIteration cfg dt fds m)
    match next with
    | none => leave cfg flags
    | some m => return some (.looping m)

def workerMain (cfg : RuntimeConfig) (i : Nat) (l : Loc) : LifeTask (Option Loc) := do
  match l with
  | .starting =>
    lifeCall (.start i)
    return some (.looping {})
  | .looping m =>
    if ← within (workerTurn cfg i) then
      return some (.looping m)
    lifeCall (.finish i)
    return none

def body (cfg : RuntimeConfig) (dt : DurationText) (fds : ServerFds) :
    Tid → Loc → LifeTask (Option Loc)
  | .main, .starting => serverStart cfg
  | .main, .looping m => serverTurn cfg dt fds m
  | .worker i, l => workerMain cfg i l

abbrev LifeConfig := Config LifeOp LifeAns Tid LifeState Loc

/-- `server_run` is called. A worker that has not been created waits. -/
def initial (cfg : RuntimeConfig) (dt : DurationText) (fds : ServerFds)
    (files : Bytes → Option Bytes) : LifeConfig where
  state := ⟨{ world := { files := files }, history := [] }, []⟩
  thread t := some (body cfg dt fds t .starting)

def Reachable (codec : PngCodec) (cfg : RuntimeConfig) (dt : DurationText) (fds : ServerFds)
    (files : Bytes → Option Bytes) (c : LifeConfig) : Prop :=
  Config.Reachable (lifeMachine codec) (body cfg dt fds) (initial cfg dt fds files) c

end Life

/-! What an operation adds to the events. -/

def LifeEvent.owner : LifeEvent → Tid
  | .ran i | .ended i => .worker i
  | _ => .main

/-- Operations of the main thread that leave no event. -/
def LifeOp.silent : LifeOp → Bool
  | .inner _ | .setup _ | .closeDescriptors => true
  | _ => false

inductive LifeEffect (t : Tid) (events : List LifeEvent) : LifeOp → List LifeEvent → Prop
  | quiet {o : LifeOp} (ho : o.silent = true) : LifeEffect t events o []
  | ran {i : Nat} {o : Op} (ht : t = .worker i) : LifeEffect t events (.inner o) [.ran i]
  | created (i : Nat) : LifeEffect t events (.createThread i) [.created i]
  | createFailed (i : Nat) : LifeEffect t events (.createThread i) [.createFailed i]
  | started {i : Nat} (hcreated : .created i ∈ events) : LifeEffect t events (.start i) [.ran i]
  | ended (i : Nat) : LifeEffect t events (.finish i) [.ended i]
  | joined {i : Nat} (hended : .ended i ∈ events) : LifeEffect t events (.join i) [.joined i]
  | destroyed (r : Shared) : LifeEffect t events (.destroy r) [.destroyed r]
  | returned : LifeEffect t events .leave [.returned]

theorem lifeExec_effect {codec : PngCodec} {t : Tid} {o : LifeOp} {s s' : LifeState} {a : LifeAns o}
    (h : (lifeMachine codec).step t o s a s') : ∃ added, LifeEffect t s.events o added ∧
      s'.events = added ++ s.events := by
  obtain ⟨e, hexec⟩ := h
  cases o with
  | inner o =>
    simp only [lifeExec] at hexec
    cases hinner : exec codec e t s.sys.world o with
    | none =>
      rw [hinner] at hexec
      cases hexec
    | some outcome =>
      rw [hinner] at hexec
      cases hexec
      cases t with
      | main => exact ⟨[], .quiet rfl, rfl⟩
      | worker i => exact ⟨[.ran i], .ran rfl, rfl⟩
  | createThread i =>
    cases hexec
    cases hok : e.ok with
    | true => exact ⟨[.created i], .created i, by simp [LifeState.record]⟩
    | false => exact ⟨[.createFailed i], .createFailed i, by simp [LifeState.record]⟩
  | start i =>
    simp only [lifeExec] at hexec
    split at hexec
    · next hcreated =>
      cases hexec
      exact ⟨_, .started hcreated, rfl⟩
    · cases hexec
  | join i =>
    simp only [lifeExec] at hexec
    split at hexec
    · next hended =>
      cases hexec
      exact ⟨_, .joined hended, rfl⟩
    · cases hexec
  | setup step =>
    cases hexec
    exact ⟨[], .quiet rfl, rfl⟩
  | closeDescriptors =>
    cases hexec
    exact ⟨[], .quiet rfl, rfl⟩
  | finish i =>
    cases hexec
    exact ⟨_, .ended i, rfl⟩
  | destroy r =>
    cases hexec
    exact ⟨_, .destroyed r, rfl⟩
  | leave =>
    cases hexec
    exact ⟨_, .returned, rfl⟩

/-! The property, and what has to be known of a thread for it. -/

/-- The workers' data is gone. -/
def LifeEvent.Over : LifeEvent → Prop
  | .destroyed .queue | .destroyed .jobs | .returned => True
  | _ => False

/-- The data goes only after every worker has been joined, and no worker runs afterwards. -/
structure Outlived (events : List LifeEvent) : Prop where
  joined_first : ∀ newer e older, events = newer ++ e :: older → e.Over →
    ∀ i, .created i ∈ events → .joined i ∈ older
  untouched : ∀ newer i older, events = newer ++ .ran i :: older → ∀ e ∈ older, ¬ e.Over

/-- `pthread_create` fails where it has succeeded before. -/
def LateFailure (events : List LifeEvent) : Prop := ∃ i, 0 < i ∧ .createFailed i ∈ events

structure Tidy (events : List LifeEvent) : Prop where
  joined_ended : ∀ i, .joined i ∈ events → .ended i ∈ events
  over_joined : ∀ e ∈ events, e.Over → ∀ i, .created i ∈ events → .joined i ∈ events

/-- Whose operations they are. -/
def LifeOp.Of : LifeOp → Tid → Prop
  | .start i, t | .finish i, t => t = .worker i
  | .inner _, _ => True
  | _, t => t = .main

/-- What a thread may do next. -/
def LifeAllowed : Tid → LifeOp → List LifeEvent → Prop
  | .main, .createThread _, events => ∀ e ∈ events, ¬ e.Over
  | .main, .destroy _, events | .main, .leave, events =>
    ∀ i, .created i ∈ events → .joined i ∈ events
  | .main, _, _ => True
  | .worker i, .inner _, events => .created i ∈ events ∧ .ended i ∉ events
  | .worker i, _, events => .ended i ∉ events

/-- The threads that a worker count allows have been created, and nothing has been
destroyed. -/
structure Opened (n : Nat) (events : List LifeEvent) : Prop where
  created : ∀ i, .created i ∈ events → i < n
  open_yet : ∀ e ∈ events, ¬ e.Over

/-- What a thread knows between its turns. -/
def LifeStart (cfg : RuntimeConfig) : Tid → Life.Loc → List LifeEvent → Prop
  | .main, .starting, events => Opened 0 events
  | .main, .looping _, events => Opened cfg.worker_count events
  | .worker i, .starting, events => .ended i ∉ events
  | .worker i, .looping _, events => .created i ∈ events ∧ .ended i ∉ events

def LifeFinish (cfg : RuntimeConfig) (t : Tid) (next : Option Life.Loc)
    (events : List LifeEvent) : Prop :=
  ∀ l, next = some l → LifeStart cfg t l events

def lifeConduct (cfg : RuntimeConfig) (codec : PngCodec) :
    Discipline (lifeMachine codec) Life.Loc where
  inv s := LateFailure s.events ∨ Tidy s.events
  allowed t o s := o.Of t ∧ (LateFailure s.events ∨ LifeAllowed t o s.events)
  rely t s s' := ∃ added, s'.events = added ++ s.events ∧ ∀ e ∈ added, e.owner ≠ t
  start t l s := LifeStart cfg t l s.events
  finish t next s := LifeFinish cfg t next s.events

/-! What the events keep. -/

section

variable {events added : List LifeEvent} {t : Tid} {o : LifeOp}

theorem LateFailure.grow (h : LateFailure events) (added : List LifeEvent) :
    LateFailure (added ++ events) := by
  obtain ⟨i, hi, hfailed⟩ := h
  exact ⟨i, hi, List.mem_append_right _ hfailed⟩

theorem LifeEvent.Over.owner {e : LifeEvent} (h : e.Over) : e.owner = .main := by
  cases e with
  | ran i => exact h.elim
  | ended i => exact h.elim
  | _ => rfl

/-- Where the workers are gone, the data may go. -/
theorem Tidy.cons (h : Tidy events) {e : LifeEvent}
    (hjoined : ∀ i, e = .joined i → .ended i ∈ events)
    (hover : e.Over → ∀ i, .created i ∈ events → .joined i ∈ events)
    (hcreated : ∀ i, e = .created i → ∀ e' ∈ events, ¬ e'.Over) : Tidy (e :: events) where
  joined_ended i hi := by
    rcases List.mem_cons.mp hi with heq | hi
    · exact List.mem_cons_of_mem _ (hjoined i heq.symm)
    · exact List.mem_cons_of_mem _ (h.joined_ended i hi)
  over_joined e' he' hover' i hi := by
    refine List.mem_cons_of_mem _ ?_
    rcases List.mem_cons.mp hi with heq | hold
    · rcases List.mem_cons.mp he' with rfl | hmem
      · rw [← heq] at hover'
        exact hover'.elim
      · exact absurd hover' (hcreated i heq.symm e' hmem)
    · rcases List.mem_cons.mp he' with rfl | hmem
      · exact hover hover' i hold
      · exact h.over_joined e' hmem hover' i hold

theorem Outlived.cons (h : Outlived events) {e : LifeEvent}
    (hover : e.Over → ∀ i, .created i ∈ events → .joined i ∈ events)
    (hcreated : ∀ i, e = .created i → ∀ e' ∈ events, ¬ e'.Over)
    (hran : ∀ i, e = .ran i → ∀ e' ∈ events, ¬ e'.Over) : Outlived (e :: events) where
  joined_first newer e' older hsplit hover' i hi := by
    cases newer with
    | nil =>
      obtain ⟨rfl, rfl⟩ := List.cons.inj hsplit
      rcases List.mem_cons.mp hi with heq | hold
      · rw [← heq] at hover'
        exact hover'.elim
      · exact hover hover' i hold
    | cons e₀ newer =>
      have hrest := (List.cons.inj hsplit).2
      rcases List.mem_cons.mp hi with heq | hold
      · have hmem : e' ∈ events := hrest ▸ List.mem_append_right _ List.mem_cons_self
        exact absurd hover' (hcreated i heq.symm e' hmem)
      · exact h.joined_first newer e' older hrest hover' i hold
  untouched newer i older hsplit e' he' := by
    cases newer with
    | nil =>
      obtain ⟨rfl, rfl⟩ := List.cons.inj hsplit
      exact hran i rfl e' he'
    | cons e₀ newer => exact h.untouched newer i older (List.cons.inj hsplit).2 e' he'

theorem Tidy.open_yet (h : Tidy events) {i : Nat} (hcreated : .created i ∈ events)
    (hended : .ended i ∉ events) :
    ∀ e ∈ events, ¬ e.Over :=
  fun e he hover => hended (h.joined_ended i (h.over_joined e he hover i hcreated))

theorem Tidy.step (h : Tidy events) (hof : o.Of t) (hallowed : LifeAllowed t o events)
    (heffect : LifeEffect t events o added) : Tidy (added ++ events) ∧
      (Outlived events → Outlived (added ++ events)) := by
  have hran : ∀ i, .created i ∈ events → .ended i ∉ events →
      Tidy (.ran i :: events) ∧ (Outlived events → Outlived (.ran i :: events)) := by
    intro i hcreated hended
    exact ⟨h.cons nofun nofun nofun, fun hout => hout.cons nofun nofun fun _ _ =>
      h.open_yet hcreated hended⟩
  have hother : ∀ e : LifeEvent, (∀ i, e ≠ .joined i ∧ e ≠ .created i ∧ e ≠ .ran i) →
      (e.Over → ∀ i, .created i ∈ events → .joined i ∈ events) →
      Tidy (e :: events) ∧ (Outlived events → Outlived (e :: events)) := by
    intro e hnot hjoined
    exact ⟨h.cons (fun i hi => absurd hi (hnot i).1) hjoined fun i hi => absurd hi (hnot i).2.1,
      fun hout => hout.cons hjoined (fun i hi => absurd hi (hnot i).2.1) fun i hi =>
        absurd hi (hnot i).2.2⟩
  cases heffect with
  | quiet => exact ⟨h, id⟩
  | ran ht =>
    subst ht
    exact hran _ hallowed.1 hallowed.2
  | created i =>
    obtain rfl : t = .main := hof
    exact ⟨h.cons nofun False.elim fun _ _ => hallowed,
      fun hout => hout.cons False.elim (fun _ _ => hallowed) nofun⟩
  | createFailed i => exact hother _ (fun _ => ⟨nofun, nofun, nofun⟩) False.elim
  | started hcreated =>
    obtain rfl : t = .worker _ := hof
    exact hran _ hcreated hallowed
  | ended i => exact hother _ (fun _ => ⟨nofun, nofun, nofun⟩) False.elim
  | @joined j hended =>
    have hsame : ∀ i, LifeEvent.joined j = .joined i → .ended i ∈ events := by
      rintro i heq
      cases heq
      exact hended
    exact ⟨h.cons hsame False.elim nofun, fun hout => hout.cons False.elim nofun nofun⟩
  | destroyed r =>
    obtain rfl : t = .main := hof
    exact hother _ (fun _ => ⟨nofun, nofun, nofun⟩) fun _ => hallowed
  | returned =>
    obtain rfl : t = .main := hof
    exact hother _ (fun _ => ⟨nofun, nofun, nofun⟩) fun _ => hallowed

theorem LifeEffect.owner (heffect : LifeEffect t events o added) (hof : o.Of t) :
    ∀ e ∈ added, e.owner = t := by
  intro e he
  cases heffect with
  | quiet => exact absurd he List.not_mem_nil
  | ran ht =>
    rw [List.mem_singleton.mp he, ht]
    rfl
  | _ =>
    rw [List.mem_singleton.mp he]
    exact Eq.symm hof

theorem LifeStart.grow {cfg : RuntimeConfig} {l : Life.Loc} (h : LifeStart cfg t l events)
    (hadded : ∀ e ∈ added, e.owner ≠ t) : LifeStart cfg t l (added ++ events) := by
  have hold : ∀ {e : LifeEvent}, e.owner = t → e ∈ added ++ events → e ∈ events := by
    intro e howner he
    exact (List.mem_append.mp he).resolve_left fun hmem => hadded e hmem howner
  have hopened : ∀ n, t = .main → Opened n events → Opened n (added ++ events) := by
    rintro n rfl hopened
    refine ⟨fun i hi => hopened.created i (hold rfl hi), fun e he hover => ?_⟩
    exact hopened.open_yet e (hold hover.owner he) hover
  cases t with
  | main =>
    cases l with
    | starting => exact hopened _ rfl h
    | looping m => exact hopened _ rfl h
  | worker i =>
    cases l with
    | starting => exact fun hended => h (hold rfl hended)
    | looping m => exact ⟨List.mem_append_right _ h.1, fun hended => h.2 (hold rfl hended)⟩

end

theorem lifeConduct_sound (cfg : RuntimeConfig) (codec : PngCodec) :
    (lifeConduct cfg codec).Sound where
  inv_step {t o s a s'} hinv hallowed hstep := by
    obtain ⟨added, heffect, hevents⟩ := lifeExec_effect hstep
    change LateFailure s'.events ∨ Tidy s'.events
    rw [hevents]
    rcases hinv with hlate | htidy
    · exact .inl (hlate.grow added)
    · rcases hallowed.2 with hlate | hallowed'
      · exact .inl (hlate.grow added)
      · exact .inr (htidy.step hallowed.1 hallowed' heffect).1
  rely_step {t u o s a s'} _ hallowed hstep htu := by
    obtain ⟨added, heffect, hevents⟩ := lifeExec_effect hstep
    exact ⟨added, hevents, fun e he howner =>
      htu (howner.symm.trans (heffect.owner hallowed.1 e he))⟩
  rely_refl t s := ⟨[], rfl, fun e he => absurd he List.not_mem_nil⟩
  rely_trans {t s s' s''} h h' := by
    obtain ⟨added, hevents, hadded⟩ := h
    obtain ⟨added', hevents', hadded'⟩ := h'
    refine ⟨added' ++ added, by rw [hevents', hevents, List.append_assoc], fun e he => ?_⟩
    exact (List.mem_append.mp he).elim (hadded' e) (hadded e)
  finish_rely {t b s s'} hfinish hrely _ := by
    obtain ⟨added, hevents, hadded⟩ := hrely
    intro l hl
    rw [hevents]
    exact (hfinish l hl).grow hadded
  inv_turn hinv _ := hinv
  rely_turn _ _ _ := ⟨[], rfl, fun e he => absurd he List.not_mem_nil⟩
  start_turn _ hfinish := hfinish _ rfl

section

variable {cfg : RuntimeConfig} {codec : PngCodec} {s : LifeState} {α : Type}

theorem within_all (p : Task α) : (within p).All fun o => ∃ o', o = .inner o' := by
  induction p with
  | ret a => trivial
  | op o k ih => exact ⟨⟨o, rfl⟩, ih⟩

/-- Every worker that was created has been joined, or there is a late failure. -/
def Cleared (events : List LifeEvent) : Prop :=
  LateFailure events ∨ ∀ i, .created i ∈ events → .joined i ∈ events

theorem Cleared.grow {events added : List LifeEvent} (h : Cleared events)
    (hadded : ∀ i, .created i ∉ added) :
    Cleared (added ++ events) := by
  rcases h with hlate | hjoined
  · exact .inl (hlate.grow added)
  · refine .inr fun i hi => ?_
    exact List.mem_append_right _ (hjoined i ((List.mem_append.mp hi).resolve_left (hadded i)))

theorem Opened.cleared {events : List LifeEvent} (h : Opened 0 events) : Cleared events :=
  .inr fun i hi => absurd (h.created i hi) (Nat.not_lt_zero i)

def LifeOp.closes : LifeOp → Bool
  | .closeDescriptors | .destroy _ | .leave => true
  | _ => false

theorem closing_wp {p : LifeTask α} (hp : p.All fun o => o.closes = true) (h : Cleared s.events) :
    (lifeConduct cfg codec).wp .main p (fun _ s => Cleared s.events) s := by
  refine Discipline.wp_all (P := fun s : LifeState => Cleared s.events) ?_ ?_ ?_ hp h
  · rintro s s' h ⟨added, hevents, hadded⟩ -
    rw [hevents]
    exact h.grow fun i hi => hadded _ hi rfl
  · intro o s ho h _
    cases o with
    | closeDescriptors => exact ⟨rfl, .inr trivial⟩
    | destroy r => exact ⟨rfl, h⟩
    | leave => exact ⟨rfl, h⟩
    | _ => cases ho
  · intro o s a s' ho h _ hstep _
    obtain ⟨added, heffect, hevents⟩ := lifeExec_effect hstep
    rw [hevents]
    refine h.grow fun i hi => ?_
    cases heffect with
    | created j => cases ho
    | quiet => exact List.not_mem_nil hi
    | _ => cases List.mem_singleton.mp hi

def LifeOp.waits : LifeOp → Bool
  | .inner _ | .setup _ | .join _ => true
  | _ => false

theorem Opened.grow {n : Nat} {events added : List LifeEvent} (h : Opened n events)
    (hadded : ∀ e ∈ added, ¬ e.Over ∧ ∀ i, e = .created i → i < n) :
    Opened n (added ++ events) where
  created i hi := (List.mem_append.mp hi).elim (fun hi => (hadded _ hi).2 i rfl) (h.created i)
  open_yet e he := (List.mem_append.mp he).elim (fun he => (hadded e he).1) (h.open_yet e)

theorem Opened.rely {n : Nat} {s' : LifeState} (h : Opened n s.events)
    (hrely : (lifeConduct cfg codec).rely .main s s') :
    Opened n s'.events := by
  obtain ⟨added, hevents, hadded⟩ := hrely
  rw [hevents]
  refine h.grow fun e he => ⟨fun hover => hadded e he hover.owner, ?_⟩
  rintro i rfl
  exact absurd rfl (hadded _ he)

theorem Opened.effect {n : Nat} {events added : List LifeEvent} {t : Tid} {o : LifeOp}
    (h : Opened n events) (ho : o.waits = true) (heffect : LifeEffect t events o added) :
    Opened n (added ++ events) := by
  refine h.grow fun e he => ?_
  cases heffect with
  | quiet => exact absurd he List.not_mem_nil
  | ran ht =>
    rw [List.mem_singleton.mp he]
    exact ⟨id, nofun⟩
  | joined hended =>
    rw [List.mem_singleton.mp he]
    exact ⟨id, nofun⟩
  | _ => cases ho

theorem opened_wp {n : Nat} {p : LifeTask α} (hp : p.All fun o => o.waits = true)
    (h : Opened n s.events) :
    (lifeConduct cfg codec).wp .main p (fun _ s => Opened n s.events) s := by
  refine Discipline.wp_all (P := fun s : LifeState => Opened n s.events)
    (fun s s' h hrely _ => h.rely hrely) ?_ ?_ hp h
  · intro o s ho h _
    cases o with
    | inner o => exact ⟨trivial, .inr trivial⟩
    | setup step => exact ⟨rfl, .inr trivial⟩
    | join i => exact ⟨rfl, .inr trivial⟩
    | _ => cases ho
  · intro o s a s' ho h _ hstep _
    obtain ⟨added, heffect, hevents⟩ := lifeExec_effect hstep
    rw [hevents]
    exact h.effect ho heffect

namespace Life

theorem finish_none (t : Tid) (s : LifeState) : (lifeConduct cfg codec).finish t none s :=
  fun _ h => nomatch h

theorem cleanupServerState_all (flags : Initialized) (hstarted : flags.workers_started = false) :
    (cleanupServerState cfg flags).All fun o => o.closes = true := by
  obtain ⟨started, queue, jobs, blocklist⟩ := flags
  obtain rfl : started = false := hstarted
  cases queue <;> cases jobs <;> cases blocklist <;>
    simp [cleanupServerState, lifeCall, LifeOp.closes, Prog.perform]

theorem leave_wp (flags : Initialized) (hstarted : flags.workers_started = false)
    (h : Cleared s.events) :
    (lifeConduct cfg codec).wp .main (leave cfg flags)
      ((lifeConduct cfg codec).finish .main) s := by
  refine Discipline.wp_seq (closing_wp (cleanupServerState_all flags hstarted) h) fun _ s h => ?_
  have hleave : (lifeCall .leave).All fun o => o.closes = true := ⟨rfl, fun _ => trivial⟩
  exact Discipline.wp_seq (closing_wp hleave h) fun _ s _ => finish_none .main s

theorem joinWorkers_wp {n left i : Nat} (h : Opened n s.events)
    (hjoined : ∀ j < i, .joined j ∈ s.events) :
    (lifeConduct cfg codec).wp .main (joinWorkers left i)
      (fun _ s => Opened n s.events ∧ ∀ j < i + left, .joined j ∈ s.events) s := by
  induction left generalizing i s with
  | zero => exact ⟨h, hjoined⟩
  | succ left ih =>
    intro s₁ hrely _
    refine ⟨⟨rfl, .inr trivial⟩, fun a s₂ hstep _ => ?_⟩
    have hopened := h.rely hrely
    obtain ⟨added₁, hevents₁, -⟩ := hrely
    obtain ⟨added, heffect, hevents⟩ := lifeExec_effect hstep
    have hcount : i + (left + 1) = i + 1 + left := by omega
    rw [hcount]
    refine ih ?_ fun j hj => ?_
    · rw [hevents]
      exact hopened.effect rfl heffect
    · rcases Nat.lt_succ_iff_lt_or_eq.mp hj with hlt | rfl
      · rw [hevents, hevents₁]
        exact List.mem_append_right _ (List.mem_append_right _ (hjoined j hlt))
      · cases heffect with
        | quiet ho => cases ho
        | joined hended =>
          rw [hevents]
          exact List.mem_cons_self

theorem stopWorkers_wp (h : Opened cfg.worker_count s.events) :
    (lifeConduct cfg codec).wp .main (stopWorkers cfg) (fun _ s => Cleared s.events) s := by
  have hcall : ∀ o : Op, (lifeCall (.inner o)).All fun o => o.waits = true :=
    fun o => ⟨rfl, fun _ => trivial⟩
  refine Discipline.wp_seq (opened_wp (hcall .stopRunning) h) fun _ s h => ?_
  refine Discipline.wp_seq (opened_wp (hcall .stopQueue) h) fun _ s h => ?_
  refine Discipline.wp_mono ?_ (joinWorkers_wp (i := 0) h fun j hj => absurd hj (Nat.not_lt_zero j))
  rintro _ s ⟨hopened, hjoined⟩
  exact .inr fun i hi => hjoined i (by have := hopened.created i hi; omega)

theorem leave_all_wp (h : Opened cfg.worker_count s.events) :
    (lifeConduct cfg codec).wp .main (leave cfg ⟨true, true, true, true⟩)
      ((lifeConduct cfg codec).finish .main) s := by
  have hsplit : leave cfg ⟨true, true, true, true⟩ = stopWorkers cfg >>= fun _ =>
    leave cfg ⟨false, true, true, true⟩ := by
    simp only [leave, cleanupServerState, Prog.bind_assoc, if_true]
    rfl
  rw [hsplit]
  exact Discipline.wp_seq (stopWorkers_wp h) fun _ s h => leave_wp _ rfl h

theorem setUp_wp {steps : List SetupStep} {flags : Initialized} (h : Opened 0 s.events)
    (hstarted : flags.workers_started = false) :
    (lifeConduct cfg codec).wp .main (setUp steps flags)
      (fun r s => r.2.workers_started = false ∧ Opened 0 s.events) s := by
  induction steps generalizing s flags with
  | nil => exact ⟨hstarted, h⟩
  | cons step steps ih =>
    have hcall : (lifeCall (.setup step)).All fun o => o.waits = true := ⟨rfl, fun _ => trivial⟩
    refine Discipline.wp_seq (opened_wp hcall h) fun ok s h => ?_
    have hafter : (flags.after step).workers_started = false := by cases step <;> exact hstarted
    cases ok with
    | false => exact ⟨hstarted, h⟩
    | true => exact ih h hafter

/-- Workers are created one after the other, and a failure is late unless it is the first. -/
theorem initWorkers_wp {left i : Nat} (h : Opened i s.events) :
    (lifeConduct cfg codec).wp .main (initWorkers left i)
      (fun ok s => if ok then Opened (i + left) s.events else Cleared s.events) s := by
  induction left generalizing i s with
  | zero => exact h
  | succ left ih =>
    intro s₁ hrely _
    have hopened := h.rely hrely
    refine ⟨⟨rfl, .inr hopened.open_yet⟩, ?_⟩
    rintro ok s₂ ⟨e, hexec⟩ -
    cases hexec
    cases hok : e.ok with
    | true =>
      have hcount : i + (left + 1) = i + 1 + left := by omega
      have hnext : Opened (i + 1) (.created i :: s₁.events) := by
        refine ⟨fun j hj => ?_, fun e he => ?_⟩
        · rcases List.mem_cons.mp hj with heq | hj
          · cases heq
            omega
          · exact Nat.lt_succ_of_lt (hopened.created j hj)
        · rcases List.mem_cons.mp he with rfl | he
          · exact id
          · exact hopened.open_yet e he
      rw [hcount]
      exact ih hnext
    | false =>
      change Cleared (.createFailed i :: s₁.events)
      cases i with
      | zero =>
        have hnothing : ∀ e ∈ [LifeEvent.createFailed 0], ¬ e.Over ∧
          ∀ i, e = .created i → i < 0 := by
          intro e he
          rw [List.mem_singleton.mp he]
          exact ⟨id, nofun⟩
        exact (hopened.grow hnothing).cleared
      | succ i => exact .inl ⟨i + 1, Nat.succ_pos i, List.mem_cons_self⟩

theorem serverStart_wp (h : Opened 0 s.events) :
    (lifeConduct cfg codec).wp .main (serverStart cfg)
      ((lifeConduct cfg codec).finish .main) s := by
  have hcall : (lifeCall (.setup .blocklistInit)).All fun o => o.waits = true :=
    ⟨rfl, fun _ => trivial⟩
  have hleave : (lifeCall .leave).All fun o => o.closes = true := ⟨rfl, fun _ => trivial⟩
  refine Discipline.wp_seq (opened_wp hcall h) fun ok s h => ?_
  cases ok with
  | false => exact Discipline.wp_seq (closing_wp hleave h.cleared) fun _ s _ => finish_none .main s
  | true =>
    refine Discipline.wp_seq (setUp_wp h rfl) ?_
    rintro ⟨ok, flags⟩ s ⟨hstarted, h⟩
    cases ok with
    | false => exact leave_wp flags hstarted h.cleared
    | true =>
      refine Discipline.wp_seq (@initWorkers_wp cfg codec s cfg.worker_count 0 h) fun ok s h => ?_
      cases ok with
      | false => exact leave_wp flags hstarted h
      | true =>
        intro l hl
        cases hl
        rw [if_pos rfl, Nat.zero_add] at h
        exact h

theorem serverTurn_wp (dt : DurationText) (fds : ServerFds) (m : MainState)
    (h : Opened cfg.worker_count s.events) :
    (lifeConduct cfg codec).wp .main (serverTurn cfg dt fds m)
      ((lifeConduct cfg codec).finish .main) s := by
  have hwithin : ∀ {β : Type} (p : Task β), (within p).All fun o => o.waits = true := by
    intro β p
    induction p with
    | ret a => trivial
    | op o k ih => exact ⟨rfl, ih⟩
  refine Discipline.wp_seq (opened_wp (hwithin (call .gRunning)) h) fun running s h => ?_
  cases running with
  | false => exact leave_all_wp h
  | true =>
    refine Discipline.wp_seq (opened_wp (hwithin (pollIteration cfg dt fds m)) h) ?_
    rintro ⟨next, log⟩ s h
    cases next with
    | none => exact leave_all_wp h
    | some m =>
      intro l hl
      cases hl
      exact h

/-- A worker runs while it has been created and has not ended. -/
theorem workerMain_wp (i : Nat) (l : Loc) (h : LifeStart cfg (.worker i) l s.events) :
    (lifeConduct cfg codec).wp (.worker i) (workerMain cfg i l)
      ((lifeConduct cfg codec).finish (.worker i)) s := by
  have hkept : ∀ {s s' : LifeState} {l : Loc}, LifeStart cfg (.worker i) l s.events →
      (lifeConduct cfg codec).rely (.worker i) s s' → LifeStart cfg (.worker i) l s'.events := by
    rintro s s' l h ⟨added, hevents, hadded⟩
    rw [hevents]
    exact h.grow hadded
  cases l with
  | starting =>
    intro s₁ hrely _
    have hended : .ended i ∉ s₁.events := hkept h hrely
    refine ⟨⟨rfl, .inr hended⟩, fun a s₂ hstep _ => ?_⟩
    obtain ⟨added, heffect, hevents⟩ := lifeExec_effect hstep
    intro l hl
    cases hl
    cases heffect with
    | quiet ho => cases ho
    | started hcreated =>
      rw [hevents]
      refine ⟨List.mem_cons_of_mem _ hcreated, fun hmem => ?_⟩
      rcases List.mem_cons.mp hmem with heq | hmem
      · cases heq
      · exact hended hmem
  | looping m =>
    have hbody : (lifeConduct cfg codec).wp (.worker i) (within (workerTurn cfg i))
        (fun _ s => LifeStart cfg (.worker i) (.looping m) s.events) s := by
      refine Discipline.wp_all (P := fun s : LifeState =>
        LifeStart cfg (.worker i) (.looping m) s.events)
        (fun s s' h hrely _ => hkept h hrely) ?_ ?_ (within_all _) h
      · rintro o s ⟨o', rfl⟩ h _
        exact ⟨trivial, .inr h⟩
      · rintro o s a s' ⟨o', rfl⟩ h _ hstep _
        obtain ⟨added, heffect, hevents⟩ := lifeExec_effect hstep
        rw [hevents]
        cases heffect with
        | quiet => exact h
        | ran ht =>
          exact ⟨List.mem_cons_of_mem _ h.1, fun hmem => (List.mem_cons.mp hmem).elim nofun h.2⟩
    refine Discipline.wp_seq hbody fun again s h => ?_
    cases again with
    | true =>
      intro l hl
      cases hl
      exact h
    | false =>
      intro s₁ hrely _
      refine ⟨⟨rfl, .inr (hkept h hrely).2⟩, fun a s₂ _ _ => ?_⟩
      exact finish_none (.worker i) s₂

theorem body_wp (dt : DurationText) (fds : ServerFds) (t : Tid) (l : Loc) (s : LifeState)
    (h : (lifeConduct cfg codec).start t l s) :
    (lifeConduct cfg codec).wp t (body cfg dt fds t l) ((lifeConduct cfg codec).finish t) s := by
  cases t with
  | worker i => exact workerMain_wp i l h
  | main =>
    cases l with
    | starting => exact serverStart_wp h
    | looping m => exact serverTurn_wp dt fds m h

variable {dt : DurationText} {fds : ServerFds} {files : Bytes → Option Bytes} {c : LifeConfig}

theorem initial_keeps : (lifeConduct cfg codec).Keeps (initial cfg dt fds files) where
  inv := .inr ⟨fun i hi => absurd hi List.not_mem_nil, fun e he => absurd he List.not_mem_nil⟩
  wp t p hp := by
    cases hp
    refine body_wp dt fds t .starting _ ?_
    cases t with
    | main => exact ⟨fun i hi => absurd hi List.not_mem_nil, fun e he => absurd he List.not_mem_nil⟩
    | worker i => exact List.not_mem_nil

theorem Reachable.life_keeps (h : Reachable codec cfg dt fds files c) :
    (lifeConduct cfg codec).Keeps c :=
  initial_keeps.reachable (lifeConduct_sound cfg codec) (fun t l s _ => body_wp dt fds t l s) h

end Life

/-- If `pthread_create` does not fail after it has succeeded, no worker outlives its data. -/
theorem workers_joined {dt : DurationText} {fds : ServerFds} {files : Bytes → Option Bytes}
    {c : Life.LifeConfig} (h : Life.Reachable codec cfg dt fds files c)
    (hcreate : ∀ i, .createFailed i ∈ c.state.events → i = 0) :
    Outlived c.state.events := by
  have hstep : ∀ t o (s : LifeState) a s', (lifeConduct cfg codec).inv s →
    (lifeConduct cfg codec).allowed t o s →
      (lifeMachine codec).step t o s a s' → LateFailure s.events ∨ Outlived s.events →
      LateFailure s'.events ∨ Outlived s'.events := by
    intro t o s a s' hinv hallowed hstep hout
    obtain ⟨added, heffect, hevents⟩ := lifeExec_effect hstep
    rw [hevents]
    by_cases hlate : LateFailure s.events
    · exact .inl (hlate.grow added)
    · have htidy := hinv.resolve_left hlate
      have hmay := hallowed.2.resolve_left hlate
      exact .inr ((htidy.step hallowed.1 hmay heffect).2 (hout.resolve_left hlate))
  have hnil : ∀ newer older (e : LifeEvent), [] ≠ newer ++ e :: older := by
    intro newer older e
    cases newer <;> exact nofun
  have hnew : Outlived [] := ⟨fun _ _ _ hsplit => absurd hsplit (hnil _ _ _),
    fun _ _ _ hsplit => absurd hsplit (hnil _ _ _)⟩
  have hend := Life.initial_keeps.preserves (lifeConduct_sound cfg codec)
    (fun t l s _ => Life.body_wp dt fds t l s)
    (P := fun s : LifeState => LateFailure s.events ∨
      Outlived s.events) hstep (fun _ _ _ _ _ h => h)
    (.inr hnew) h
  rcases hend with ⟨i, hi, hfailed⟩ | hout
  · exact absurd (hcreate i hfailed) (Nat.ne_of_gt hi)
  · exact hout

end

namespace Life

def oneWorker : RuntimeConfig := { runtimeConfigDefaults with worker_count := 1 }

/-- The only worker is created, sees that the server stops, and is joined. -/
theorem reachable_joined :
    ∃ c, Reachable boundedCodec oneWorker plainDurations plainFds (fun _ => none) c ∧
      c.state.events = [.returned, .destroyed .blocklist, .destroyed .jobs, .destroyed .queue,
        .joined 0, .ended 0, .ran 0, .ran 0, .ran 0, .created 0] := by
  have hstart : Runs (lifeMachine boundedCodec) .main (serverStart oneWorker)
      ⟨{ world := { files := fun _ => none }, history := [] }, []⟩ (some (.looping {}))
      ⟨{ world := { files := fun _ => none }, history := [] }, [.created 0]⟩ := by
    iterate 13 refine .op (b := true) ⟨{}, rfl⟩ ?_
    exact .ret _ _
  have hlooping : Reachable boundedCodec oneWorker plainDurations plainFds (fun _ => none) _ :=
    Config.reachable_runs (c := initial oneWorker plainDurations plainFds fun _ => none)
      (t := .main) rfl hstart
  have hturn := hlooping.tail (.again (t := .main) (l := .looping {}) rfl)
  have hleaving := hturn.tail (.op (t := .main) (a := false) rfl ⟨{ ok := false }, rfl⟩)
  have hcleared := hleaving.tail (.op (t := .main) (a := ()) rfl ⟨{}, rfl⟩)
  have hstopped := hcleared.tail (.op (t := .main) (a := ()) rfl ⟨{}, rfl⟩)
  have hstarted := hstopped.tail (.op (t := .worker 0) (o := .start 0) (a := ()) rfl ⟨{}, rfl⟩)
  have hworking := hstarted.tail (.again (t := .worker 0) (l := .looping {}) rfl)
  have hsees := hworking.tail (.op (t := .worker 0) (o := .inner .readRunning) (a := false) rfl
    ⟨{}, rfl⟩)
  have hexits := hsees.tail (.op (t := .worker 0) (o := .inner (.exit 0)) (a := ()) rfl ⟨{}, rfl⟩)
  have hended := hexits.tail (.op (t := .worker 0) (o := .finish 0) (a := ()) rfl ⟨{}, rfl⟩)
  have hjoined := hended.tail (.op (t := .main) (o := .join 0) (a := ()) rfl ⟨{}, rfl⟩)
  have hclosed := hjoined.tail (.op (t := .main) (o := .closeDescriptors) (a := ()) rfl ⟨{}, rfl⟩)
  have hqueue := hclosed.tail (.op (t := .main) (o := .destroy .queue) (a := ()) rfl ⟨{}, rfl⟩)
  have hjobs := hqueue.tail (.op (t := .main) (o := .destroy .jobs) (a := ()) rfl ⟨{}, rfl⟩)
  have hlist := hjobs.tail (.op (t := .main) (o := .destroy .blocklist) (a := ()) rfl ⟨{}, rfl⟩)
  have hreturned := hlist.tail (.op (t := .main) (o := .leave) (a := ()) rfl ⟨{}, rfl⟩)
  exact ⟨_, hreturned, rfl⟩

end Life

theorem workers_joined_oneWorker :
    ∃ c, Life.Reachable boundedCodec Life.oneWorker plainDurations plainFds (fun _ => none) c ∧
      .created 0 ∈ c.state.events ∧ .destroyed .queue ∈ c.state.events ∧
        .returned ∈ c.state.events ∧ Outlived c.state.events := by
  obtain ⟨c, hreach, hevents⟩ := Life.reachable_joined
  have hout : Outlived c.state.events := by
    refine workers_joined hreach fun i hi => ?_
    rw [hevents] at hi
    simp at hi
  refine ⟨c, hreach, ?_, ?_, ?_, hout⟩
  · simp [hevents]
  · simp [hevents]
  · simp [hevents]

/-! `pthread_create` fails for the second worker. -/

namespace Life

/-- The main thread gives up, and the first worker starts in what is left. -/
theorem reachable_lateFailure :
    ∃ c, Reachable boundedCodec runtimeConfigDefaults plainDurations plainFds (fun _ => none) c ∧
      c.state.events = [.ran 0, .returned, .destroyed .blocklist, .destroyed .jobs,
        .destroyed .queue, .createFailed 1,
        .created 0] := by
  have hmain : Runs (lifeMachine boundedCodec) .main (serverStart runtimeConfigDefaults)
      ⟨{ world := { files := fun _ => none }, history := [] }, []⟩ none
      ⟨{ world := { files := fun _ => none }, history := [] },
        [.returned, .destroyed .blocklist, .destroyed .jobs,
        .destroyed .queue, .createFailed 1, .created 0]⟩ := by
    iterate 12 refine .op (b := true) ⟨{}, rfl⟩ ?_
    refine .op (b := true) ⟨{}, rfl⟩ ?_
    refine .op (b := false) ⟨{ ok := false }, rfl⟩ ?_
    iterate 5 refine .op (b := ()) ⟨{}, rfl⟩ ?_
    exact .ret _ _
  have hreach : Reachable boundedCodec runtimeConfigDefaults plainDurations plainFds (fun _ => none)
      ((initial runtimeConfigDefaults plainDurations plainFds fun _ =>
        none).put .main (some (.ret none)) _) :=
    Config.reachable_runs rfl hmain
  refine ⟨_, hreach.tail (.op (t := .worker 0) (o := .start 0) (a := ()) rfl ⟨{}, rfl⟩), rfl⟩

end Life

theorem worker_outlives_data :
    ¬ ∀ codec cfg dt fds files c, Life.Reachable codec cfg dt fds files c →
      Outlived c.state.events := by
  intro hclaim
  obtain ⟨c, hreach, hevents⟩ := Life.reachable_lateFailure
  have hout := hclaim _ _ _ _ _ c hreach
  rw [hevents] at hout
  exact hout.untouched [] 0 _ rfl .returned List.mem_cons_self trivial

end StegaPng
