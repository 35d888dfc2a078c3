import StegaPng.Monitor
import StegaPng.PointerQueue

/-! The functions of `queue.c` statement by statement, under the queue's mutex and its
condition variable: the locked sections are atomic, and no wakeup is lost. -/

namespace StegaPng

open Interleaving Monitor

variable {J T : Type}

/-- What `job_queue_push` does to the list. -/
def linkNode (heap : NodeHeap J) (queue : JobQueue) (node : NodePtr) :
    Option (NodeHeap J × JobQueue) :=
  match queue.tail with
  | none => some (heap, { queue with head := some node, tail := some node })
  | some tail =>
    match heap tail with
    | none => none
    | some last =>
      some (Function.update heap tail (some { last with next := some node }),
        { queue with tail := some node })

/-- What `job_queue_pop` does to the list, and the node it takes out. -/
def unlinkHead (heap : NodeHeap J) (queue : JobQueue) : Option (JobQueue × NodePtr) :=
  match queue.head with
  | none => none
  | some node =>
    match heap node with
    | none => none
    | some first =>
      some ({ queue with
        head := first.next
        tail := if first.next = none then none else queue.tail }, node)

theorem jobQueuePush_running {heap : NodeHeap J} {queue : JobQueue} (node : NodePtr)
    (hrunning : queue.stopped = false) :
    jobQueuePush heap queue node = (linkNode heap queue node).map fun linked =>
      (linked.1, linked.2, true) := by
  rw [jobQueuePush, if_neg (by simp [hrunning]), linkNode]
  cases queue.tail with
  | none => rfl
  | some tail =>
    dsimp only
    cases heap tail <;> rfl

theorem jobQueuePop_running {heap : NodeHeap J} {queue : JobQueue}
    (hrunning : queue.stopped = false) :
    jobQueuePop heap queue = (unlinkHead heap queue).map fun unlinked =>
      (unlinked.1, some unlinked.2) := by
  rw [jobQueuePop, if_neg (by simp [hrunning]), unlinkHead]
  cases queue.head with
  | none => rfl
  | some node =>
    dsimp only
    cases heap node <;> rfl

theorem linkNode_stopped {heap heap' : NodeHeap J} {queue queue' : JobQueue} {node : NodePtr}
    (h : linkNode heap queue node = some (heap', queue')) : queue'.stopped = queue.stopped := by
  rw [linkNode] at h
  split at h
  · cases h
    rfl
  · split at h
    · cases h
    · cases h
      rfl

theorem unlinkHead_spec {heap : NodeHeap J} {queue queue' : JobQueue} {node : NodePtr}
    (h : unlinkHead heap queue = some (queue', node)) :
    queue.head = some node ∧ queue'.stopped = queue.stopped ∧ ∃ first, heap node = some first ∧
      queue'.head = first.next := by
  rw [unlinkHead] at h
  split at h
  · cases h
  · rename_i head hhead
    split at h
    · cases h
    · rename_i first hfirst
      cases h
      exact ⟨hhead, rfl, first, hfirst, rfl⟩

/-- What a caller does with the queue next. -/
inductive QueueRequest (J : Type) where
  | push (job : J)
  | pop
  | stop
  | leave

/-- The statements of `queue.c`, the calls of the mutex and the condition variable aside. -/
inductive QueueAccess (J : Type) where
  | request
  | calloc (job : J)
  | isStopped
  | link (node : NodePtr) (job : J)
  | waits
  | unlink
  | setStopped
  | free (node : NodePtr)
  /-- The job of a node, and the node freed. -/
  | giveBack (node : NodePtr)

abbrev QueueAnswer : QueueAccess J → Type
  | .request => QueueRequest J
  | .calloc _ => Option NodePtr
  | .isStopped => Bool
  | .waits => Bool
  | .unlink => NodePtr
  | .giveBack _ => J
  | _ => Unit

/-- The memory, with a record of what was done to it. -/
structure QueueMemory (J T : Type) where
  state : QueueState J T
  history : List (QueueEvent J T)

def QueueMemory.record (m : QueueMemory J T) (e : QueueEvent J T) (state : QueueState J T) :
    QueueMemory J T where
  state := state
  history := e :: m.history

variable [DecidableEq T]

/-- A call that sees `stopped` set is over, but for the node of a push. -/
def QueueMemory.seeStopped (m : QueueMemory J T) (t : T) : QueueMemory J T :=
  match m.state.calls t with
  | .linking node _ =>
    m.record (.visible (.refused t))
      { m.state with calls := Function.update m.state.calls t (.rejected node) }
  | _ => m.record (.visible (.none t)) m.state

def queueEffect (t : T) : (d : QueueAccess J) → QueueMemory J T → QueueAnswer d →
    QueueMemory J T → Prop
  | .request, m, _, m' => m' = m
  | .calloc _, m, none, m' => m' = m.record (.noMemory t) m.state
  | .calloc job, m, some node, m' =>
    m.state.heap node = none ∧
      m' = m.record (.made t) ⟨Function.update m.state.heap node (some ⟨job, none⟩), m.state.queue,
        Function.update m.state.calls t (.linking node job)⟩
  | .isStopped, m, stopped, m' =>
    stopped = m.state.queue.stopped ∧ m' = if stopped then m.seeStopped t else m
  | .link node job, m, _, m' =>
    ∃ heap queue, linkNode m.state.heap m.state.queue node = some (heap, queue) ∧
      m' = m.record (.visible (.pushed t job)) ⟨heap, queue, Function.update m.state.calls t .idle⟩
  | .waits, m, waits, m' => waits = m.state.queue.waits ∧ m' = m
  | .unlink, m, node, m' =>
    ∃ queue first, unlinkHead m.state.heap m.state.queue = some (queue, node) ∧
      m.state.heap node = some first ∧
      m' = m.record (.visible (.took t first.job)) ⟨m.state.heap, queue,
        Function.update m.state.calls t (.unlinked node first.job)⟩
  | .setStopped, m, _, m' =>
    m' = m.record (.visible (.stopped t)) { m.state with queue := jobQueueStop m.state.queue }
  | .free node, m, _, m' => m.state.heap node ≠ none ∧
      m' = m.record (.freed t) ⟨Function.update m.state.heap node none, m.state.queue,
        Function.update m.state.calls t .idle⟩
  | .giveBack node, m, job, m' => ∃ n, m.state.heap node = some n ∧ job = n.job ∧
      m' = m.record (.returned t n.job)
        ⟨Function.update m.state.heap node none, m.state.queue,
          Function.update m.state.calls t .idle⟩

abbrev QueueTask (J : Type) := Prog (Monitor.Op (QueueAccess J)) (Monitor.Answer QueueAnswer)

def access (d : QueueAccess J) : QueueTask J (QueueAnswer d) := .perform (Op.act d)

def lockQueue : QueueTask J Unit := .perform Op.lock

def unlockQueue : QueueTask J Unit := .perform Op.unlock

def queuePush (job : J) : QueueTask J Int := do
  match ← access (.calloc job) with
  | none => pure (-1)
  | some node =>
    lockQueue
    if ← access .isStopped then
      unlockQueue
      access (.free node)
      pure (-1)
    else
      access (.link node job)
      .perform Op.signal
      unlockQueue
      pure 0

def queueStop : QueueTask J Unit := do
  lockQueue
  access .setStopped
  .perform Op.broadcast
  unlockQueue

/-- Where a thread stands when a turn starts: in none of the functions, or at the test of
the loop of `job_queue_pop`. -/
inductive QueueLoc where
  | outside
  | popping

/-- `job_queue_pop` from the test of its loop on; `none` while it goes on waiting. -/
def queuePop : QueueTask J (Option (Option J)) := do
  if ← access .waits then
    condWait
    pure none
  else if ← access .isStopped then
    unlockQueue
    pure (some none)
  else
    let node ← access .unlink
    unlockQueue
    let job ← access (.giveBack node)
    pure (some (some job))

/-- A thread that uses the queue as it likes. -/
def queueClient (_ : T) : QueueLoc → QueueTask J (Option QueueLoc)
  | .outside => do
    match ← access .request with
    | .push job =>
      let _ ← queuePush job
      pure (some .outside)
    | .pop =>
      lockQueue
      pure (some .popping)
    | .stop =>
      queueStop
      pure (some .outside)
    | .leave => pure none
  | .popping => do
    match ← queuePop with
    | none => pure (some .popping)
    | some _ => pure (some .outside)

abbrev QueueConfig (J T : Type) :=
  Config (Monitor.Op (QueueAccess J)) (Monitor.Answer QueueAnswer) T
    (Monitor.State T (QueueMemory J T)) QueueLoc

def queueMachine (J T : Type) [DecidableEq T] := Monitor.machine (queueEffect (J := J) (T := T))

def QueueConfig.initial : QueueConfig J T where
  state := { data := ⟨.initial, []⟩ }
  thread := fun t => some (queueClient t .outside)

/-- The configurations that the threads reach from an empty queue. -/
def QueueReachable (c : QueueConfig J T) : Prop :=
  Config.Reachable (queueMachine J T) queueClient QueueConfig.initial c

/-! Every access is a step of the queue with atomic sections, or shows nothing of it. -/

/-- The list is not longer than `n`. -/
def Backlog (n : Nat) (s : QueueState J T) : Prop := ∃ nodes f, Represents s nodes f ∧
    f.items.length ≤ n

def QueueGuarded : QueueAccess J → Prop
  | .isStopped => True
  | .link _ _ => True
  | .waits => True
  | .unlink => True
  | .setStopped => True
  | _ => False

def QueueReady (t : T) : QueueAccess J → QueueMemory J T → Prop
  | .isStopped, m => m.state.calls t = .idle ∨ ∃ node job, m.state.calls t = .linking node job
  | .link node job, m => m.state.calls t = .linking node job ∧ m.state.queue.stopped = false
  | .unlink, m =>
    m.state.calls t = .idle ∧ m.state.queue.waits = false ∧ m.state.queue.stopped = false
  | .free node, m => m.state.calls t = .rejected node
  | .giveBack node, m => ∃ took, m.state.calls t = .unlinked node took
  | _, m => m.state.calls t = .idle

variable {t u : T} {d : QueueAccess J} {m m' : QueueMemory J T} {a : QueueAnswer d}

theorem seeStopped_step (hready : QueueReady t .isStopped m) (hrun : QueueRun m.history m.state)
    (hstopped : m.state.queue.stopped = true) :
    ∃ e, QueueStep m.state (.visible e) (m.seeStopped t).state ∧
      (m.seeStopped t).history = .visible e :: m.history := by
  obtain ⟨nodes, f, hrep, -⟩ := hrun.represents
  rcases hready with hidle | ⟨node, job, hlinking⟩
  · refine ⟨.none t, ?_, by simp [QueueMemory.seeStopped, hidle, QueueMemory.record]⟩
    simp only [QueueMemory.seeStopped, hidle, QueueMemory.record]
    exact .none hidle (by simp [JobQueue.waits, hstopped]) (by rw [jobQueuePop, if_pos hstopped])
  · refine ⟨.refused t, ?_, by simp [QueueMemory.seeStopped, hlinking, QueueMemory.record]⟩
    simp only [QueueMemory.seeStopped, hlinking, QueueMemory.record]
    exact .reject hlinking (by rw [jobQueuePush, if_pos hstopped])

/-- What an access is to the queue with atomic sections. -/
theorem queueEffect_step (hready : QueueReady t d m) (hrun : QueueRun m.history m.state)
    (hact : queueEffect t d m a m') :
    m' = m ∨ ∃ e, QueueStep m.state e m'.state ∧ m'.history = e :: m.history ∧
      (¬ QueueGuarded d → e.shown = none) := by
  cases d with
  | request => exact .inl hact
  | calloc job =>
    cases a with
    | none =>
      obtain rfl : m' = _ := hact
      exact .inr ⟨_, .noMemory hready, rfl, fun _ => rfl⟩
    | some node =>
      obtain ⟨hfresh, rfl⟩ := hact
      exact .inr ⟨_, .make node job hready hfresh, rfl, fun _ => rfl⟩
  | isStopped =>
    obtain ⟨rfl, rfl⟩ := hact
    cases hstopped : m.state.queue.stopped with
    | false => exact .inl (if_neg (by simp))
    | true =>
      obtain ⟨e, hstep, hhistory⟩ := seeStopped_step hready hrun hstopped
      exact .inr ⟨_, hstep, hhistory, fun hnot => absurd trivial hnot⟩
  | link node job =>
    obtain ⟨heap, queue, hlink, rfl⟩ := hact
    refine .inr ⟨_, .link hready.1 ?_, rfl, fun hnot => absurd trivial hnot⟩
    rw [jobQueuePush_running node hready.2, hlink]
    rfl
  | waits => exact .inl hact.2
  | unlink =>
    obtain ⟨queue, first, hunlink, hfirst, rfl⟩ := hact
    refine .inr ⟨_, .unlink hready.1 hready.2.1 ?_ hfirst, rfl, fun hnot => absurd trivial hnot⟩
    rw [jobQueuePop_running hready.2.2, hunlink]
    rfl
  | setStopped =>
    obtain rfl : m' = _ := hact
    exact .inr ⟨_, .stop t, rfl, fun hnot => absurd trivial hnot⟩
  | free node =>
    obtain ⟨-, rfl⟩ := hact
    exact .inr ⟨_, .free hready, rfl, fun _ => rfl⟩
  | giveBack node =>
    obtain ⟨took, hunlinked⟩ := hready
    obtain ⟨n, hn, -, rfl⟩ := hact
    exact .inr ⟨_, .giveBack hunlinked hn, rfl, fun _ => rfl⟩

theorem queueEffect_run (hready : QueueReady t d m) (hrun : QueueRun m.history m.state)
    (hact : queueEffect t d m a m') :
    QueueRun m'.history m'.state := by
  rcases queueEffect_step hready hrun hact with rfl | ⟨e, hstep, hhistory, -⟩
  · exact hrun
  · rw [hhistory]
    exact hrun.step hstep

theorem queueEffect_backlog (hready : QueueReady t d m) (hrun : QueueRun m.history m.state)
    (hd : ¬ QueueGuarded d) (hact : queueEffect t d m a m') {n : Nat} (h : Backlog n m.state) :
    Backlog n m'.state := by
  rcases queueEffect_step hready hrun hact with rfl | ⟨e, hstep, -, hhidden⟩
  · exact h
  · obtain ⟨nodes, f, hrep, hlength⟩ := h
    obtain ⟨nodes', f', hrep', hmove, -⟩ := hstep.simulates hrep
    rw [hhidden hd] at hmove
    obtain rfl : f' = f := hmove
    exact ⟨nodes', f', hrep', hlength⟩

theorem queueEffect_unguarded (hd : ¬ QueueGuarded d) (hact : queueEffect t d m a m') :
    m'.state.queue = m.state.queue := by
  cases d with
  | request =>
    obtain rfl : m' = m := hact
    rfl
  | calloc job =>
    cases a with
    | none =>
      obtain rfl : m' = _ := hact
      rfl
    | some node =>
      obtain ⟨-, rfl⟩ := hact
      rfl
  | free node =>
    obtain ⟨-, rfl⟩ := hact
    rfl
  | giveBack node =>
    obtain ⟨n, -, -, rfl⟩ := hact
    rfl
  | isStopped => exact absurd trivial hd
  | link node job => exact absurd trivial hd
  | waits => exact absurd trivial hd
  | unlink => exact absurd trivial hd
  | setStopped => exact absurd trivial hd

theorem seeStopped_calls (m : QueueMemory J T) (htu : u ≠ t) :
    (m.seeStopped t).state.calls u = m.state.calls u := by
  rw [QueueMemory.seeStopped]
  split
  · exact Function.update_of_ne htu ..
  · rfl

/-- Nobody changes where another thread stands. -/
theorem queueEffect_calls (hact : queueEffect t d m a m') (htu : u ≠ t) :
    m'.state.calls u = m.state.calls u := by
  cases d with
  | request =>
    obtain rfl : m' = m := hact
    rfl
  | calloc job =>
    cases a with
    | none =>
      obtain rfl : m' = _ := hact
      rfl
    | some node =>
      obtain ⟨-, rfl⟩ := hact
      exact Function.update_of_ne htu ..
  | isStopped =>
    obtain ⟨-, rfl⟩ := hact
    split
    · exact seeStopped_calls m htu
    · rfl
  | link node job =>
    obtain ⟨heap, queue, -, rfl⟩ := hact
    exact Function.update_of_ne htu ..
  | waits =>
    obtain ⟨-, rfl⟩ := hact
    rfl
  | unlink =>
    obtain ⟨queue, first, -, -, rfl⟩ := hact
    exact Function.update_of_ne htu ..
  | setStopped =>
    obtain rfl : m' = _ := hact
    rfl
  | free node =>
    obtain ⟨-, rfl⟩ := hact
    exact Function.update_of_ne htu ..
  | giveBack node =>
    obtain ⟨n, -, -, rfl⟩ := hact
    exact Function.update_of_ne htu ..

/-- An access that is in order has a result: it follows no dangling pointer. -/
theorem queueEffect_total (hready : QueueReady t d m) (hrun : QueueRun m.history m.state) :
    ∃ a m', queueEffect t d m a m' := by
  obtain ⟨nodes, f, hrep, -⟩ := hrun.represents
  cases d with
  | request => exact ⟨.leave, m, rfl⟩
  | calloc job => exact ⟨none, _, rfl⟩
  | isStopped => exact ⟨_, _, rfl, rfl⟩
  | waits => exact ⟨_, _, rfl, rfl⟩
  | setStopped => exact ⟨(), _, rfl⟩
  | link node job =>
    have hdefined := hrep.push_defined node
    rw [jobQueuePush_running node hready.2] at hdefined
    cases hlink : linkNode m.state.heap m.state.queue node with
    | none => exact absurd (by rw [hlink]; rfl) hdefined
    | some linked => exact ⟨(), _, linked.1, linked.2, hlink, rfl⟩
  | unlink =>
    have hdefined := hrep.pop_defined hready.2.1
    rw [jobQueuePop_running hready.2.2] at hdefined
    cases hunlink : unlinkHead m.state.heap m.state.queue with
    | none => exact absurd (by rw [hunlink]; rfl) hdefined
    | some unlinked =>
      obtain ⟨queue, node⟩ := unlinked
      obtain ⟨-, -, first, hfirst, -⟩ := unlinkHead_spec hunlink
      exact ⟨node, _, queue, first, hunlink, hfirst, rfl⟩
  | free node =>
    obtain ⟨-, n, hn, -⟩ := hrep.held t node (by rw [hready]; rfl)
    exact ⟨(), _, by rw [hn]; exact Option.some_ne_none n, rfl⟩
  | giveBack node =>
    obtain ⟨took, hunlinked⟩ := hready
    obtain ⟨-, n, hn, -⟩ := hrep.held t node (by rw [hunlinked]; rfl)
    exact ⟨n.job, _, n, hn, rfl, rfl⟩

/-! Who holds the mutex, and how many wakeups are on their way. -/

/-- Whoever still sleeps does so for a list that the woken threads, and `owed` more, can
empty. -/
def Attended (owed : Nat) (waiting woken : Finset T) (m : QueueMemory J T) : Prop :=
  waiting.Nonempty → m.state.queue.stopped = false ∧ Backlog (woken.card + owed) m.state

omit [DecidableEq T] in
theorem Backlog.mono {n k : Nat} {s : QueueState J T} (h : Backlog n s) (hle : n ≤ k) :
    Backlog k s := by
  obtain ⟨nodes, f, hrep, hlength⟩ := h
  exact ⟨nodes, f, hrep, hlength.trans hle⟩

variable {waiting woken up : Finset T} {owed : Nat}

theorem Attended.wake (h : Attended owed waiting woken m) :
    Attended owed (waiting \ up) (woken ∪ up) m := by
  rintro ⟨t, ht⟩
  obtain ⟨hrunning, hbacklog⟩ := h ⟨t, (Finset.mem_sdiff.mp ht).1⟩
  have hcard : woken.card ≤ (woken ∪ up).card := Finset.card_le_card Finset.subset_union_left
  exact ⟨hrunning, hbacklog.mono (by omega)⟩

def queueRules (J T : Type) [DecidableEq T] : Rules (queueEffect (J := J) (T := T)) QueueLoc where
  guarded := QueueGuarded
  inv m := QueueRun m.history m.state
  calm := Attended 0
  ready := QueueReady
  rely t held m m' := m'.state.calls t = m.state.calls t ∧
    (held = true → m'.state.queue = m.state.queue ∧ ∀ n, Backlog n m.state → Backlog n m'.state)
  start
    | t, .outside => Outside t fun m => m.state.calls t = .idle
    | t, .popping =>
      Holds t fun waiting woken m => m.state.calls t = .idle ∧ Attended 1 waiting woken m
  done t m := m.state.calls t = .idle

/-- What the thread in a function knows while it has the mutex. -/
def Within (t : T) (call : QueueCall J) (queue : JobQueue → Prop) (owed : Nat)
    (waiting woken : Finset T) (m : QueueMemory J T) : Prop :=
  m.state.calls t = call ∧ queue m.state.queue ∧ Attended owed waiting woken m

variable {call : QueueCall J} {queue : JobQueue → Prop}

theorem within_stable (t : T) (call : QueueCall J) (queue : JobQueue → Prop) (owed : Nat) :
    (queueRules J T).HeldStable t (Within t call queue owed) where
  wake _ h := ⟨h.1, h.2.1, h.2.2.wake⟩
  data h hrely _ := by
    obtain ⟨hcall, hqueue, hattended⟩ := h
    obtain ⟨hcalls, hheld⟩ := hrely
    obtain ⟨hsame, hbacklog⟩ := hheld rfl
    refine ⟨hcalls.trans hcall, hsame ▸ hqueue, fun hsome => ?_⟩
    obtain ⟨hrunning, hlength⟩ := hattended hsome
    exact ⟨hsame ▸ hrunning, hbacklog _ hlength⟩

theorem calls_stable (t : T) (call : QueueCall J) : (queueRules J T).Stable t fun m =>
    m.state.calls t = call :=
  fun _ _ _ hcall hrely _ => hrely.1.trans hcall

theorem queueRules_lawful : (queueRules J T).Lawful where
  calm_wake _ h := Attended.wake h
  inv_act hinv hready hact := queueEffect_run hready hinv hact
  calm_act hinv hready hd hact hcalm hsome := by
    obtain ⟨hrunning, hbacklog⟩ := hcalm hsome
    rw [queueEffect_unguarded hd hact]
    exact ⟨hrunning, queueEffect_backlog hready hinv hd hact hbacklog⟩
  rely_act hinv hready hact htu hheld :=
    ⟨queueEffect_calls hact htu, fun htrue => ⟨queueEffect_unguarded (hheld htrue) hact,
      fun _ hbacklog => queueEffect_backlog hready hinv (hheld htrue) hact hbacklog⟩⟩
  rely_refl t held m := ⟨rfl, fun _ => ⟨rfl, fun _ hbacklog => hbacklog⟩⟩
  rely_trans h h' := by
    refine ⟨h'.1.trans h.1, fun htrue => ?_⟩
    obtain ⟨hqueue, hbacklog⟩ := h.2 htrue
    obtain ⟨hqueue', hbacklog'⟩ := h'.2 htrue
    exact ⟨hqueue'.trans hqueue, fun n hn => hbacklog' n (hbacklog n hn)⟩
  start_rely {t l s s'} hstart hrely hinv := by
    cases l with
    | outside =>
      have hidle : Outside t (fun m => m.state.calls t = .idle) s := hstart
      exact hidle.rely (calls_stable t .idle) hrely hinv
    | popping =>
      have hknows : Holds t (Within t .idle (fun _ => True) 1) s :=
        ⟨hstart.1, hstart.2.1, trivial, hstart.2.2⟩
      obtain ⟨howner, hcall, -, hattended⟩ := hknows.rely (within_stable t .idle _ 1) hrely hinv
      exact ⟨howner, hcall, hattended⟩
  done_stable t := calls_stable t .idle

/-! What the guarded accesses do to the list. -/

omit [DecidableEq T] in
theorem backlog_empty {s : QueueState J T} {nodes : List NodePtr} {f : Fifo.State J}
    (h : Represents s nodes f) (hhead : s.queue.head = none) : Backlog 0 s := by
  have hnodes : nodes = [] := by
    rw [h.linked.head_eq, List.head?_eq_none_iff] at hhead
    exact hhead
  subst hnodes
  refine ⟨[], f, h, ?_⟩
  have hlinked := h.linked
  cases hitems : f.items with
  | nil => simp
  | cons job jobs =>
    rw [hitems] at hlinked
    exact hlinked.elim

theorem queueEffect_grows (hready : QueueReady t d m) (hrun : QueueRun m.history m.state)
    (hact : queueEffect t d m a m') {n : Nat} (h : Backlog n m.state) :
    Backlog (n + 1) m'.state := by
  rcases queueEffect_step hready hrun hact with rfl | ⟨e, hstep, -, -⟩
  · exact h.mono (Nat.le_succ n)
  · obtain ⟨nodes, f, hrep, hlength⟩ := h
    obtain ⟨nodes', f', hrep', hmove, -⟩ := hstep.simulates hrep
    refine ⟨nodes', f', hrep', ?_⟩
    cases hshown : e.shown with
    | none =>
      rw [hshown] at hmove
      obtain rfl : f' = f := hmove
      omega
    | some e =>
      rw [hshown] at hmove
      have hmove : Fifo.Step f e f' := hmove
      cases hmove <;> simp at hlength ⊢ <;> omega

theorem queueEffect_shrinks {node : NodePtr} (hready : QueueReady t .unlink m)
    (hact : queueEffect t .unlink m node m') {n : Nat} (h : Backlog (n + 1) m.state) :
    Backlog n m'.state := by
  obtain ⟨queue, first, hunlink, hfirst, rfl⟩ := hact
  obtain ⟨nodes, f, hrep, hlength⟩ := h
  have hpop : jobQueuePop m.state.heap m.state.queue = some (queue, some node) := by
    rw [jobQueuePop_running hready.2.2, hunlink]
    rfl
  obtain ⟨nodes', f', hrep', hmove, -⟩ :=
    (QueueStep.unlink hready.1 hready.2.1 hpop hfirst).simulates hrep
  have hmove : Fifo.Step f (.took t first.job) f' := hmove
  refine ⟨nodes', f', hrep', ?_⟩
  cases hmove
  simpa using hlength

omit [DecidableEq T] in
/-- Whoever sees `stopped` set finds nobody asleep. -/
theorem attended_stopped (hstopped : m.state.queue.stopped = true)
    (h : Attended owed waiting woken m) :
    waiting = ∅ := by
  refine Finset.not_nonempty_iff_eq_empty.mp fun hsome => ?_
  have hrunning := (h hsome).1
  rw [hstopped] at hrunning
  cases hrunning

/-! The functions keep to the rules. -/

abbrev BetweenCalls (t : T) : Monitor.State T (QueueMemory J T) → Prop :=
  Outside t fun m => m.state.calls t = .idle

variable {s : Monitor.State T (QueueMemory J T)} {α : Type}
  {Q : α → Monitor.State T (QueueMemory J T) → Prop}

theorem unlock_wp (h : Holds t (Within t call queue 0) s) {k : Unit → QueueTask J α}
    (hk : ∀ s, Outside t (fun m => m.state.calls t = call) s →
      (queueRules J T).conduct.wp t (k ()) Q s) :
    (queueRules J T).conduct.wp t (.op .unlock k) Q s :=
  wp_unlock (within_stable t call queue 0) h (fun h => ⟨h.2.2, h.1⟩) hk

theorem lock_wp (h : Outside t (fun m => m.state.calls t = call) s) {k : Unit → QueueTask J α}
    (hk : ∀ s, Holds t (Within t call (fun _ => True) 0) s →
      (queueRules J T).conduct.wp t (k ()) Q s) :
    (queueRules J T).conduct.wp t (.op .lock k) Q s :=
  wp_lock queueRules_lawful (calls_stable t call) h fun s h => hk s ⟨h.1, h.2.2, trivial, h.2.1⟩

/-- Where a thread stands that has seen `stopped` set. -/
def QueueCall.over : QueueCall J → QueueCall J
  | .linking node _ => .rejected node
  | call => call

theorem isStopped_wp (hcall : call = .idle ∨ ∃ node job, call = .linking node job)
    (h : Holds t (Within t call queue owed) s) {k : Bool → QueueTask J α}
    (hstopped : ∀ s, Holds t (Within t call.over (fun _ => True) 0) s →
      (queueRules J T).conduct.wp t (k true) Q s)
    (hrunning : ∀ s, Holds t (Within t call (fun q => queue q ∧ q.stopped = false) owed) s →
      (queueRules J T).conduct.wp t (k false) Q s) :
    (queueRules J T).conduct.wp t (.op (.act .isStopped) k) Q s := by
  refine wp_access (C := queueRules J T) (d := .isStopped) (within_stable t call queue owed) h
    (G := fun stopped => if stopped then Within t call.over (fun _ => True) 0
      else Within t call (fun q => queue q ∧ q.stopped = false) owed) ?_ ?_ fun stopped s h => ?_
  · intro waiting woken m hwithin _
    rcases hcall with rfl | ⟨node, job, rfl⟩
    · exact .inl hwithin.1
    · exact .inr ⟨node, job, hwithin.1⟩
  · rintro waiting woken m stopped m' ⟨hcalls, hqueue, hattended⟩ - ⟨rfl, rfl⟩
    cases hset : m.state.queue.stopped with
    | false => exact ⟨hcalls, ⟨hqueue, hset⟩, hattended⟩
    | true =>
      rw [attended_stopped hset hattended]
      refine ⟨?_, trivial, fun hsome => absurd hsome Finset.not_nonempty_empty⟩
      rcases hcall with rfl | ⟨node, job, rfl⟩
      · simp [QueueMemory.seeStopped, hcalls, QueueMemory.record, QueueCall.over]
      · simp [QueueMemory.seeStopped, hcalls, QueueMemory.record, QueueCall.over]
  · cases stopped with
    | true => exact hstopped s h
    | false => exact hrunning s h

theorem queuePush_wp (job : J) (h : BetweenCalls t s) :
    (queueRules J T).conduct.wp t (queuePush job) (fun _ => BetweenCalls t) s := by
  simp only [queuePush, access, lockQueue, unlockQueue, Prog.perform_bind]
  refine wp_outside (C := queueRules J T) (d := .calloc job) (G := fun node m => m.state.calls t =
    node.elim .idle fun node => .linking node job)
    (calls_stable t .idle) h id (fun hidle _ => hidle) ?_ fun node s h => ?_
  · intro m node m' hidle _ hact
    cases node with
    | none =>
      obtain rfl : m' = _ := hact
      exact hidle
    | some node =>
      obtain ⟨-, rfl⟩ := hact
      exact Function.update_self ..
  · cases node with
    | none => exact h
    | some node =>
      refine lock_wp h fun s h => isStopped_wp (.inr ⟨node, job, rfl⟩) h (fun s h => ?_)
        fun s h => ?_
      · refine unlock_wp h fun s h => ?_
        refine wp_outside (C := queueRules J T) (d := .free node)
          (G := fun _ m => m.state.calls t = .idle) (calls_stable t _) h id
          (fun hcall _ => hcall) ?_ fun _ s h => h
        rintro m a m' - - ⟨-, rfl⟩
        exact Function.update_self ..
      · refine wp_access (C := queueRules J T) (d := .link node job) (within_stable t _ _ 0) h
          (G := fun _ => Within t .idle (fun q => q.stopped = false) 1) ?_ ?_ fun _ s h => ?_
        · intro waiting woken m hwithin _
          exact ⟨hwithin.1, hwithin.2.1.2⟩
        · intro waiting woken m a m' hwithin hrun hact
          obtain ⟨hcall, ⟨-, hrunning⟩, hattended⟩ := hwithin
          have hready : QueueReady t (.link node job) m := ⟨hcall, hrunning⟩
          have hgrows := fun n => queueEffect_grows (n := n) hready hrun hact
          obtain ⟨heap, queue, hlink, rfl⟩ := hact
          have hstill : queue.stopped = false := (linkNode_stopped hlink).trans hrunning
          refine ⟨Function.update_self .., hstill, fun hsome => ⟨hstill, ?_⟩⟩
          exact hgrows _ (hattended hsome).2
        · refine wp_signal (within_stable t _ _ 1) h (G := Within t .idle (fun _ => True) 0) ?_
            fun s h => ?_
          · rintro waiting woken up m ⟨hcall, -, hattended⟩ hapart hup hwakes
            refine ⟨hcall, trivial, fun hsome => ?_⟩
            have hsleepers : waiting.Nonempty := hsome.mono Finset.sdiff_subset
            obtain ⟨hrunning, hbacklog⟩ := hattended hsleepers
            have hcard : (woken ∪ up).card = woken.card + up.card :=
              Finset.card_union_of_disjoint (hapart.symm.mono_right hup)
            have hwoken : 0 < up.card := Finset.card_pos.mpr (hwakes hsleepers)
            exact ⟨hrunning, hbacklog.mono (by omega)⟩
          · exact unlock_wp h fun s h => h

theorem queueStop_wp (h : BetweenCalls t s) :
    (queueRules J T).conduct.wp t (queueStop : QueueTask J Unit) (fun _ => BetweenCalls t) s := by
  simp only [queueStop, access, lockQueue, unlockQueue, Prog.perform_bind]
  refine lock_wp h fun s h => ?_
  -- Between the two statements nothing is known of those who sleep.
  have hstable : (queueRules J T).HeldStable t fun _ _ m => m.state.calls t = .idle :=
    ⟨fun _ hcall => hcall, fun hcall hrely _ => hrely.1.trans hcall⟩
  refine wp_access (C := queueRules J T) (d := .setStopped) (within_stable t _ _ 0) h
    (G := fun _ _ _ m => m.state.calls t = .idle)
    (fun hwithin _ => hwithin.1) ?_ fun _ s h => ?_
  · rintro waiting woken m a m' ⟨hcall, -⟩ - hact
    obtain rfl : m' = _ := hact
    exact hcall
  · refine wp_broadcast hstable h (G := Within t .idle (fun _ => True) 0) ?_ fun s h => ?_
    · intro waiting woken m hcall
      exact ⟨hcall, trivial, fun hsome => absurd hsome Finset.not_nonempty_empty⟩
    · exact unlock_wp h fun s h => h

theorem queuePop_wp (h : (queueRules J T).start t .popping s) :
    (queueRules J T).conduct.wp t (queuePop : QueueTask J (Option (Option J)))
      (fun r => (queueRules J T).start t (r.elim .popping fun _ => .outside)) s := by
  simp only [queuePop, access, unlockQueue, Prog.perform_bind]
  have hknows : Holds t (Within t .idle (fun _ => True) 1) s := ⟨h.1, h.2.1, trivial, h.2.2⟩
  refine wp_access (C := queueRules J T) (d := .waits) (within_stable t _ _ 1) hknows
    (G := fun waits => if waits then fun _ _ m => m.state.calls t = .idle ∧
      m.state.queue.stopped = false ∧ Backlog 0 m.state
      else Within t .idle (fun q => q.waits = false) 1) (fun hwithin _ => hwithin.1) ?_
        fun waits s h => ?_
  · rintro waiting woken m waits m' ⟨hcall, -, hattended⟩ hrun ⟨rfl, rfl⟩
    cases hwaits : m'.state.queue.waits with
    | true =>
      obtain ⟨hhead, hrunning⟩ : m'.state.queue.head = none ∧ m'.state.queue.stopped = false := by
        simpa [JobQueue.waits] using hwaits
      obtain ⟨nodes, f, hrep, -⟩ := QueueRun.represents hrun
      exact ⟨hcall, hrunning, backlog_empty hrep hhead⟩
    | false => exact ⟨hcall, hwaits, hattended⟩
  · cases waits with
    | true =>
      have hstable : (queueRules J T).HeldStable t
          fun _ _ m => m.state.calls t = .idle ∧ m.state.queue.stopped = false ∧
            Backlog 0 m.state := by
        refine ⟨fun _ h => h, fun h hrely _ => ?_⟩
        obtain ⟨hcall, hrunning, hempty⟩ := h
        obtain ⟨hqueue, hbacklog⟩ := hrely.2 rfl
        exact ⟨hrely.1.trans hcall, hqueue ▸ hrunning, hbacklog 0 hempty⟩
      refine wp_condWait queueRules_lawful hstable (calls_stable t .idle) h ?_ fun s h => ?_
      · rintro waiting woken m ⟨hcall, hrunning, hempty⟩
        exact ⟨fun _ => ⟨hrunning, hempty.mono (Nat.zero_le _)⟩, hcall⟩
      · obtain ⟨howner, hcalm, hcall⟩ := h
        refine ⟨howner, hcall, fun hsome => ?_⟩
        obtain ⟨hrunning, hbacklog⟩ := hcalm hsome
        exact ⟨hrunning, hbacklog.mono (Finset.card_insert_le t _)⟩
    | false =>
      have h : Holds t (Within t .idle (fun q => q.waits = false) 1) s := h
      refine isStopped_wp (.inl rfl) h (fun s h => ?_) fun s h => ?_
      · exact unlock_wp h fun s h => h
      · refine wp_access (C := queueRules J T) (d := .unlink) (within_stable t _ _ 1) h
          (G := fun node waiting woken m => ∃ took,
            Within t (.unlinked node took) (fun _ => True) 0 waiting woken m)
          ?_ ?_ fun node s h => ?_
        · intro waiting woken m hwithin _
          exact ⟨hwithin.1, hwithin.2.1.1, hwithin.2.1.2⟩
        · rintro waiting woken m node m' ⟨hcall, ⟨hready, hrunning⟩, hattended⟩ - hact
          have hshrinks := fun n => queueEffect_shrinks (n := n) ⟨hcall, hready, hrunning⟩ hact
          obtain ⟨queue, first, hunlink, -, rfl⟩ := hact
          refine ⟨first.job, Function.update_self .., trivial, fun hsome => ?_⟩
          exact ⟨(unlinkHead_spec hunlink).2.1.trans hrunning, hshrinks _ (hattended hsome).2⟩
        · obtain ⟨howner, took, hwithin⟩ := h
          have h : Holds t (Within t (.unlinked node took) (fun _ => True) 0) s := ⟨howner, hwithin⟩
          refine unlock_wp h fun s h => ?_
          refine wp_outside (C := queueRules J T) (d := .giveBack node)
            (G := fun _ m => m.state.calls t = .idle)
            (calls_stable t _) h id (fun hcall _ => ⟨took, hcall⟩) ?_ fun _ s h => h
          rintro m job m' - - ⟨n, -, -, rfl⟩
          exact Function.update_self ..

theorem queueClient_wp (t : T) (l : QueueLoc) (h : (queueRules J T).start t l s) :
    (queueRules J T).conduct.wp t (queueClient t l : QueueTask J (Option QueueLoc))
      ((queueRules J T).conduct.finish t) s := by
  cases l with
  | outside =>
    have h : BetweenCalls t s := h
    simp only [queueClient, access, lockQueue, Prog.perform_bind]
    refine wp_outside (C := queueRules J T) (d := .request)
      (G := fun _ m => m.state.calls t = .idle)
      (calls_stable t .idle) h id (fun hcall _ => hcall) ?_ fun request s h => ?_
    · intro m request m' hcall _ hact
      obtain rfl : m' = m := hact
      exact hcall
    · cases request with
      | push job => exact Discipline.wp_seq (queuePush_wp job h) fun _ _ h => h
      | stop => exact Discipline.wp_seq (queueStop_wp h) fun _ _ h => h
      | leave => exact h
      | pop =>
        refine lock_wp h fun s h => ⟨h.1, h.2.1, fun hsome => ?_⟩
        obtain ⟨hrunning, hbacklog⟩ := h.2.2.2 hsome
        exact ⟨hrunning, hbacklog.mono (Nat.le_succ _)⟩
  | popping =>
    refine Discipline.wp_seq (queuePop_wp h) fun r s h => ?_
    cases r with
    | none => exact h
    | some job => exact h

/-! Every run of the threads. -/

variable {c : QueueConfig J T}

theorem queue_initial_keeps : (queueRules J T).conduct.Keeps QueueConfig.initial where
  inv := ⟨.initial, Finset.disjoint_empty_left _, fun t ht => (nomatch ht),
    fun _ hsome => absurd hsome Finset.not_nonempty_empty⟩
  wp t p hp := by
    cases hp
    exact queueClient_wp t .outside ⟨by simp [QueueConfig.initial], by simp [QueueConfig.initial],
      rfl⟩

theorem QueueReachable.keeps (h : QueueReachable c) : (queueRules J T).conduct.Keeps c :=
  queue_initial_keeps.reachable (conduct_sound queueRules_lawful)
    (fun t l _ _ => queueClient_wp t l) h

theorem QueueReachable.ended (h : QueueReachable c) : (queueRules J T).conduct.Ended c :=
  Discipline.Ended.reachable (conduct_sound queueRules_lawful) (fun _ _ _ hfinish => hfinish)
    (fun t l _ _ => queueClient_wp t l) queue_initial_keeps (fun _ hnone => nomatch hnone) h

/-- The statements that are in order only under the mutex. -/
def NeedsMutex : Monitor.Op (QueueAccess J) → Prop
  | .lock => False
  | .reacquire => False
  | .act d => QueueGuarded d
  | _ => True

/-- Whoever is about to touch the list or its condition variable has the mutex, so the
locked sections are atomic: what the threads do statement by statement is a run of the queue. -/
theorem job_queue_locked (h : QueueReachable c) :
    (∀ t o k, c.thread t = some (.op o k) → NeedsMutex o → c.state.owner = some t) ∧
      QueueRun c.state.data.history c.state.data.state := by
  have hkeeps := h.keeps
  refine ⟨fun t o k ht hneeds => ?_, hkeeps.inv.data⟩
  have hallowed : Allowed (queueRules J T) t o c.state :=
    hkeeps.allowed (conduct_sound queueRules_lawful) ht
  cases o with
  | lock => exact hneeds.elim
  | unlock => exact hallowed.1
  | wait => exact hallowed.1
  | reacquire => exact hneeds.elim
  | signal => exact hallowed
  | broadcast => exact hallowed
  | act d => exact hallowed.2.1 hneeds

theorem QueueReachable.op (h : QueueReachable c) {t : T} {o : Monitor.Op (QueueAccess J)}
    {k : Monitor.Answer QueueAnswer o → QueueTask J (Option QueueLoc)}
    {s : Monitor.State T (QueueMemory J T)} (ht : c.thread t = some (.op o k))
    (a : Monitor.Answer QueueAnswer o) (hs : effect queueEffect t o c.state a s) :
    QueueReachable (c.put t (some (k a)) s) :=
  Relation.ReflTransGen.tail h (.op ht (effect_step hs))

theorem QueueReachable.again (h : QueueReachable c) {t : T} {l : QueueLoc}
    (ht : c.thread t = some (.ret (some l))) :
    QueueReachable (c.put t (some (queueClient t l)) c.state) :=
  Relation.ReflTransGen.tail h (.again ht)

theorem QueueReachable.halt (h : QueueReachable c) {t : T} (ht : c.thread t = some (.ret none)) :
    QueueReachable (c.put t none c.state) :=
  Relation.ReflTransGen.tail h (.halt ht)

theorem asleep_waits {t : T} {k : Unit → QueueTask J (Option QueueLoc)}
    (ht : c.thread t = some (.op .reacquire k)) (hwoken : t ∉ c.state.woken) :
    c.Waiting (queueMachine J T) t := by
  intro p hp
  obtain rfl := Option.some.inj (ht.symm.trans hp)
  refine ⟨_, _, rfl, ?_⟩
  rintro a s ⟨up, hup, -, hin, -⟩
  rcases Finset.mem_union.mp hin with hin | hin
  · exact hwoken hin
  · exact absurd (hup hin) (Finset.notMem_erase t _)

/-- Two threads wait for a job when a third pushes one and a fourth comes; in the end all who
stay wait. -/
theorem reachable_contended :
    ∃ c c' c'' : QueueConfig Nat (Fin 4), (QueueReachable c ∧
      (∃ k, c.thread 2 = some (.op (.act (.link 0 7)) k)) ∧
      ∃ k, c.thread 3 = some (.op .lock k)) ∧
      (QueueReachable c' ∧ c'.state.owner = none ∧ c'.state.waiting = {1} ∧
        c'.state.woken = {0} ∧ c'.state.data.state.queue.head = some 0) ∧
      QueueReachable c'' ∧ c''.Final (queueMachine Nat (Fin 4)) ∧ c''.thread 1 ≠ none ∧
        c''.thread 3 ≠ none ∧ .returned 0 7 ∈ c''.state.data.history := by
  have start : QueueReachable (QueueConfig.initial : QueueConfig Nat (Fin 4)) := .refl
  -- 0 and 1 wait for a job, and 3 comes for one
  have pops := start.op (t := 0) rfl QueueRequest.pop ⟨_, rfl, rfl⟩
  have locks := pops.op (t := 0) rfl () ⟨rfl, rfl⟩
  have tests := locks.again (t := 0) rfl
  have waits := tests.op (t := 0) rfl true ⟨_, ⟨rfl, rfl⟩, rfl⟩
  have asleep := waits.op (t := 0) rfl () rfl
  have pops := asleep.op (t := 1) rfl QueueRequest.pop ⟨_, rfl, rfl⟩
  have locks := pops.op (t := 1) rfl () ⟨rfl, rfl⟩
  have tests := locks.again (t := 1) rfl
  have waits := tests.op (t := 1) rfl true ⟨_, ⟨rfl, rfl⟩, rfl⟩
  have asleep := waits.op (t := 1) rfl () rfl
  have comes := asleep.op (t := 3) rfl QueueRequest.pop ⟨_, rfl, rfl⟩
  -- 2 pushes one
  have pushes := comes.op (t := 2) rfl (QueueRequest.push 7) ⟨_, rfl, rfl⟩
  have makes := pushes.op (t := 2) rfl (some (0 : Nat)) ⟨_, ⟨rfl, rfl⟩, rfl⟩
  have locks := makes.op (t := 2) rfl () ⟨rfl, rfl⟩
  have runs := locks.op (t := 2) rfl false ⟨_, ⟨rfl, rfl⟩, rfl⟩
  have links := runs.op (t := 2) rfl () ⟨_, ⟨_, _, rfl, rfl⟩, rfl⟩
  have signals := links.op (t := 2) rfl () ⟨{0}, by decide, fun _ => by decide, rfl⟩
  have pushed := signals.op (t := 2) rfl () rfl
  -- 0 takes it
  have wakes := pushed.op (t := 0) rfl () ⟨rfl, by decide, rfl⟩
  have tests := wakes.again (t := 0) rfl
  have finds := tests.op (t := 0) rfl false ⟨_, ⟨rfl, rfl⟩, rfl⟩
  have runs' := finds.op (t := 0) rfl false ⟨_, ⟨rfl, rfl⟩, rfl⟩
  have takes := runs'.op (t := 0) rfl (0 : Nat) ⟨_, ⟨_, _, rfl, rfl, rfl⟩, rfl⟩
  have unlocks := takes.op (t := 0) rfl () rfl
  have returns := unlocks.op (t := 0) rfl (7 : Nat) ⟨_, ⟨_, rfl, rfl, rfl⟩, rfl⟩
  -- 0 and 2 leave, and 3 waits too
  have leaves := (returns.again (t := 0) rfl).op (t := 0) rfl QueueRequest.leave ⟨_, rfl, rfl⟩
  have left := leaves.halt (t := 0) rfl
  have leaves := (left.again (t := 2) rfl).op (t := 2) rfl QueueRequest.leave ⟨_, rfl, rfl⟩
  have left := leaves.halt (t := 2) rfl
  have locks := left.op (t := 3) rfl () ⟨rfl, rfl⟩
  have tests := locks.again (t := 3) rfl
  have waits := tests.op (t := 3) rfl true ⟨_, ⟨rfl, rfl⟩, rfl⟩
  have asleep := waits.op (t := 3) rfl () rfl
  refine ⟨_, _, _, ⟨runs, ⟨_, rfl⟩, ⟨_, rfl⟩⟩, ⟨pushed, rfl, by decide, by decide, rfl⟩, asleep, ?_,
    Option.some_ne_none _, Option.some_ne_none _, List.mem_cons_self⟩
  intro t
  match t with
  | 0 => exact fun p hp => nomatch hp
  | 1 => exact asleep_waits rfl (by decide)
  | 2 => exact fun p hp => nomatch hp
  | 3 => exact asleep_waits rfl (by decide)
theorem job_queue_locked_contended :
    ∃ c : QueueConfig Nat (Fin 4), QueueReachable c ∧ (∃ k, c.thread 3 = some (.op .lock k)) ∧
      c.state.owner = some 2 ∧ QueueRun c.state.data.history c.state.data.state := by
  obtain ⟨c, -, -, ⟨hreach, ⟨k, hk⟩, hlocks⟩, -⟩ := reachable_contended
  have hlocked := job_queue_locked hreach
  exact ⟨c, hreach, hlocks, hlocked.1 2 _ k hk trivial, hlocked.2⟩

/-- While the mutex is free and somebody sleeps, the queue is not stopped and each of its
jobs has a woken thread on its way; where nothing moves any more, whoever is left waits in
`job_queue_pop` for a job, and the queue is empty and not stopped. -/
theorem job_queue_no_lost_wakeup (h : QueueReachable c) :
    (c.state.owner = none → c.state.waiting.Nonempty → c.state.data.state.queue.stopped = false ∧
      ∃ nodes jobs, Linked c.state.data.state.heap c.state.data.state.queue.head nodes jobs ∧
        jobs.length ≤ c.state.woken.card) ∧
    (c.Final (queueMachine J T) → ∀ t, c.thread t ≠ none → t ∈ c.state.waiting ∧
      (∃ k, c.thread t = some (.op .reacquire k)) ∧ c.state.data.state.queue.head = none ∧
      c.state.data.state.queue.stopped = false) := by
  have hkeeps := h.keeps
  have hattended : c.state.owner = none → c.state.waiting.Nonempty →
    c.state.data.state.queue.stopped = false ∧
      ∃ nodes jobs, Linked c.state.data.state.heap c.state.data.state.queue.head nodes jobs ∧
        jobs.length ≤ c.state.woken.card := by
    intro hfree hsome
    obtain ⟨hrunning, nodes, f, hrep, hlength⟩ := hkeeps.inv.calm hfree hsome
    exact ⟨hrunning, nodes, f.items, hrep.linked, hlength⟩
  refine ⟨hattended, fun hfinal t ht => ?_⟩
  obtain ⟨hfree, hwoken, hasleep⟩ :=
    final_asleep queueRules_lawful (fun hinv hready => queueEffect_total hready hinv)
    hkeeps h.ended hfinal
  obtain ⟨hwaits, hstands⟩ := hasleep t ht
  obtain ⟨hrunning, nodes, jobs, hlinked, hlength⟩ := hattended hfree ⟨t, hwaits⟩
  refine ⟨hwaits, hstands, ?_, hrunning⟩
  rw [hwoken, Finset.card_empty, Nat.le_zero, List.length_eq_zero_iff] at hlength
  subst hlength
  cases nodes with
  | nil => exact hlinked
  | cons node nodes => exact hlinked.elim

theorem job_queue_no_lost_wakeup_contended :
    ∃ c c' : QueueConfig Nat (Fin 4), (c.state.waiting = {1} ∧
      c.state.data.state.queue.head = some 0 ∧ ∃ nodes jobs,
        Linked c.state.data.state.heap c.state.data.state.queue.head nodes jobs ∧
          jobs.length ≤ 1) ∧
      c'.Final (queueMachine Nat (Fin 4)) ∧ .returned 0 7 ∈ c'.state.data.history ∧
      1 ∈ c'.state.waiting ∧ 3 ∈ c'.state.waiting ∧ c'.state.data.state.queue.head = none := by
  obtain ⟨-, c, c', -, ⟨hreach, hfree, hwaiting, hwoken, hhead⟩, hreach', hfinal, hone, hthree,
    htaken⟩ := reachable_contended
  have hsome : c.state.waiting.Nonempty := hwaiting ▸ Finset.singleton_nonempty 1
  obtain ⟨-, nodes, jobs, hlinked, hlength⟩ := (job_queue_no_lost_wakeup hreach).1 hfree hsome
  rw [hwoken, Finset.card_singleton] at hlength
  have hasleep := (job_queue_no_lost_wakeup hreach').2 hfinal
  obtain ⟨hin, -, hempty, -⟩ := hasleep 1 hone
  obtain ⟨hin', -⟩ := hasleep 3 hthree
  exact ⟨c, c', ⟨hwaiting, hhead, nodes, jobs, hlinked, hlength⟩, hfinal, htaken, hin, hin',
    hempty⟩

end StegaPng
