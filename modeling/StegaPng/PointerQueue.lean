import Mathlib.Data.List.Nodup
import StegaPng.Fifo
import StegaPng.System

/-! The job queue as `queue.c` keeps it: nodes on the heap, two pointers and a flag,
used by any number of threads. What a thread does outside the lock is a step of its
own. -/

namespace StegaPng

abbrev NodePtr := Nat

/-- `job_node_t`. -/
structure JobNode (J : Type) where
  job : J
  next : Option NodePtr

/-- The nodes that are allocated. -/
abbrev NodeHeap (J : Type) := NodePtr → Option (JobNode J)

/-- `job_queue_t`, its lock aside. -/
structure JobQueue where
  head : Option NodePtr := none
  tail : Option NodePtr := none
  stopped : Bool := false

variable {J T : Type}

/-- The locked section of `job_queue_push`: the heap, the queue, and whether the node is
linked. There is no result when it follows a pointer to a freed node. -/
def jobQueuePush (heap : NodeHeap J) (queue : JobQueue) (node : NodePtr) :
    Option (NodeHeap J × JobQueue × Bool) :=
  if queue.stopped then some (heap, queue, false) else
  match queue.tail with
  | none => some (heap, { queue with head := some node, tail := some node }, true)
  | some tail =>
    match heap tail with
    | none => none
    | some last =>
      some (Function.update heap tail (some { last with next := some node }),
        { queue with tail := some node }, true)

/-- `job_queue_pop` stays in its wait. -/
def JobQueue.waits (queue : JobQueue) : Bool := queue.head.isNone && !queue.stopped

/-- The locked section of `job_queue_pop` after its wait: the queue and the node that was
taken out of it. -/
def jobQueuePop (heap : NodeHeap J) (queue : JobQueue) : Option (JobQueue × Option NodePtr) :=
  if queue.stopped then some (queue, none) else
  match queue.head with
  | none => none
  | some node =>
    match heap node with
    | none => none
    | some first =>
      some ({ queue with
        head := first.next
        tail := if first.next = none then none else queue.tail }, some node)

def jobQueueStop (queue : JobQueue) : JobQueue := { queue with stopped := true }

/-- Where a thread stands between its locked sections. -/
inductive QueueCall (J : Type) where
  | idle
  /-- In `job_queue_push`, the node made. -/
  | linking (node : NodePtr) (job : J)
  /-- In `job_queue_push`, refused. -/
  | rejected (node : NodePtr)
  /-- In `job_queue_pop`, the node taken out; `took` is the job it held then. -/
  | unlinked (node : NodePtr) (took : J)

def QueueCall.node : QueueCall J → Option NodePtr
  | .idle => none
  | .linking node _ => some node
  | .rejected node => some node
  | .unlinked node _ => some node

def QueueCall.pending : QueueCall J → List J
  | .unlinked _ took => [took]
  | _ => []

structure QueueState (J T : Type) where
  heap : NodeHeap J
  queue : JobQueue
  calls : T → QueueCall J

def QueueState.initial : QueueState J T where
  heap := fun _ => none
  queue := {}
  calls := fun _ => .idle

inductive QueueEvent (J T : Type) where
  | visible (e : Fifo.Event T J)
  | made (t : T)
  | noMemory (t : T)
  | freed (t : T)
  | returned (t : T) (job : J)

/-- A thread takes a step of `job_queue_push`, `job_queue_pop` or `job_queue_stop`. -/
inductive QueueStep [DecidableEq T] : QueueState J T → QueueEvent J T → QueueState J T → Prop where
  | make {s : QueueState J T} {t : T} (node : NodePtr) (job : J)
      (hcall : s.calls t = .idle) (hfresh : s.heap node = none) :
    QueueStep s (.made t)
      ⟨Function.update s.heap node (some ⟨job, none⟩), s.queue,
        Function.update s.calls t (.linking node job)⟩
  | noMemory {s : QueueState J T} {t : T} (hcall : s.calls t = .idle) : QueueStep s (.noMemory t) s
  | link {s : QueueState J T} {t : T} {node : NodePtr} {job : J} {heap : NodeHeap J}
      {queue : JobQueue}
    (hcall : s.calls t = .linking node job)
    (hpush : jobQueuePush s.heap s.queue node = some (heap, queue, true)) :
    QueueStep s (.visible (.pushed t job)) ⟨heap, queue, Function.update s.calls t .idle⟩
  | reject {s : QueueState J T} {t : T} {node : NodePtr} {job : J} {heap : NodeHeap J}
      {queue : JobQueue}
    (hcall : s.calls t = .linking node job)
    (hpush : jobQueuePush s.heap s.queue node = some (heap, queue, false)) :
    QueueStep s (.visible (.refused t)) ⟨heap, queue, Function.update s.calls t (.rejected node)⟩
  | free {s : QueueState J T} {t : T} {node : NodePtr} (hcall : s.calls t = .rejected node) :
    QueueStep s (.freed t) ⟨Function.update s.heap node none, s.queue,
      Function.update s.calls t .idle⟩
  | unlink {s : QueueState J T} {t : T} {node : NodePtr} {first : JobNode J} {queue : JobQueue}
    (hcall : s.calls t = .idle) (hready : s.queue.waits = false)
    (hpop : jobQueuePop s.heap s.queue = some (queue, some node))
    (hfirst : s.heap node = some first) :
    QueueStep s (.visible (.took t first.job)) ⟨s.heap, queue,
      Function.update s.calls t (.unlinked node first.job)⟩
  | none {s : QueueState J T} {t : T} {queue : JobQueue}
      (hcall : s.calls t = .idle) (hready : s.queue.waits = false)
    (hpop : jobQueuePop s.heap s.queue = some (queue, none)) :
      QueueStep s (.visible (.none t)) ⟨s.heap, queue, s.calls⟩
  | giveBack {s : QueueState J T} {t : T} {node : NodePtr} {took : J} {n : JobNode J}
    (hcall : s.calls t = .unlinked node took) (hnode : s.heap node = some n) :
    QueueStep s (.returned t n.job) ⟨Function.update s.heap node none, s.queue,
      Function.update s.calls t .idle⟩
  | stop {s : QueueState J T} (t : T) : QueueStep s (.visible (.stopped t))
      ⟨s.heap, jobQueueStop s.queue, s.calls⟩

/-- The steps of a run, newest first. -/
inductive QueueRun [DecidableEq T] : List (QueueEvent J T) → QueueState J T → Prop where
  | initial : QueueRun [] .initial
  | step {h : List (QueueEvent J T)} {s s' : QueueState J T} {e : QueueEvent J T}
      (run : QueueRun h s)
    (step : QueueStep s e s') : QueueRun (e :: h) s'

/-- A chain of nodes from a pointer to NULL, and the jobs in it. -/
def Linked (heap : NodeHeap J) : Option NodePtr → List NodePtr → List J → Prop
  | p, [], [] => p = none
  | p, node :: nodes, job :: jobs =>
    p = some node ∧ ∃ next, heap node = some ⟨job, next⟩ ∧ Linked heap next nodes jobs
  | _, _, _ => False

section

variable {heap heap' : NodeHeap J} {p : Option NodePtr} {nodes : List NodePtr} {jobs : List J}

theorem Linked.congr (h : Linked heap p nodes jobs)
    (hsame : ∀ node ∈ nodes, heap' node = heap node) :
    Linked heap' p nodes jobs := by
  induction nodes generalizing p jobs with
  | nil =>
    cases jobs with
    | nil => exact h
    | cons job jobs => exact h.elim
  | cons node nodes ih =>
    cases jobs with
    | nil => exact h.elim
    | cons job jobs =>
      obtain ⟨hp, next, hnode, hrest⟩ := h
      refine ⟨hp, next, ?_, ih hrest fun n hn => hsame n (List.mem_cons_of_mem _ hn)⟩
      rw [hsame node List.mem_cons_self, hnode]

theorem Linked.allocated (h : Linked heap p nodes jobs) : ∀ node ∈ nodes, heap node ≠ none := by
  induction nodes generalizing p jobs with
  | nil => exact fun node hnode => absurd hnode List.not_mem_nil
  | cons node nodes ih =>
    cases jobs with
    | nil => exact h.elim
    | cons job jobs =>
      obtain ⟨-, next, hnode, hrest⟩ := h
      intro n hn
      rcases List.mem_cons.mp hn with rfl | hn
      · rw [hnode]
        exact Option.some_ne_none _
      · exact ih hrest n hn

theorem Linked.head_eq (h : Linked heap p nodes jobs) : p = nodes.head? := by
  cases nodes with
  | nil =>
    cases jobs with
    | nil => exact h
    | cons job jobs => exact h.elim
  | cons node nodes =>
    cases jobs with
    | nil => exact h.elim
    | cons job jobs => exact h.1

theorem Linked.snoc {last : JobNode J} {tail node : NodePtr} {job : J}
    (h : Linked heap p nodes jobs) (hnodup : nodes.Nodup) (htail : nodes.getLast? = some tail)
    (hlast : heap tail = some last) (hnode : heap node = some ⟨job, none⟩) (hfresh : node ∉ nodes) :
    Linked (Function.update heap tail (some { last with next := some node })) p
      (nodes ++ [node]) (jobs ++ [job]) := by
  induction nodes generalizing p jobs with
  | nil => cases htail
  | cons n nodes ih =>
    cases jobs with
    | nil => exact h.elim
    | cons j jobs =>
      obtain ⟨hp, next, hn, hrest⟩ := h
      obtain ⟨hout, hnodup⟩ := List.nodup_cons.mp hnodup
      cases nodes with
      | nil =>
        cases jobs with
        | cons j' jobs => exact hrest.elim
        | nil =>
          obtain rfl : n = tail := Option.some.inj htail
          have hne : node ≠ n := fun heq => hfresh (heq ▸ List.mem_cons_self)
          rw [hlast] at hn
          obtain rfl := Option.some.inj hn
          refine ⟨hp, some node, Function.update_self _ _ _, rfl, none, ?_, rfl⟩
          rw [Function.update_of_ne hne, hnode]
      | cons n' nodes =>
        have hmem : tail ∈ n' :: nodes := List.mem_of_getLast? htail
        have hne : n ≠ tail := fun heq => hout (heq ▸ hmem)
        refine ⟨hp, next, ?_, ih hrest hnodup htail fun hin => hfresh (List.mem_cons_of_mem _ hin)⟩
        rw [Function.update_of_ne hne, hn]

end

/-- The heap node a thread holds is as its call expects it. -/
def QueueCall.Holds : QueueCall J → JobNode J → Prop
  | .linking _ job, n => n = ⟨job, none⟩
  | .unlinked _ took, n => n.job = took
  | _, _ => True

/-- The linked list represents an abstract queue, and every node outside it that is still
allocated for a call belongs to one thread. -/
structure Represents (s : QueueState J T) (nodes : List NodePtr) (f : Fifo.State J) : Prop where
  linked : Linked s.heap s.queue.head nodes f.items
  nodup : nodes.Nodup
  tail : s.queue.tail = nodes.getLast?
  stopped : s.queue.stopped = f.stopped
  held : ∀ t node, (s.calls t).node = some node → node ∉ nodes ∧ ∃ n, s.heap node = some n ∧
    (s.calls t).Holds n
  apart : ∀ t u node, (s.calls t).node = some node → (s.calls u).node = some node → t = u

theorem represents_initial : Represents (.initial : QueueState J T) [] {} where
  linked := rfl
  nodup := List.nodup_nil
  tail := rfl
  stopped := rfl
  held _ _ h := nomatch h
  apart _ _ _ h := nomatch h

section

variable {s : QueueState J T} {nodes : List NodePtr} {f : Fifo.State J}

theorem Represents.push_defined (r : Represents s nodes f) (node : NodePtr) :
    jobQueuePush s.heap s.queue node ≠ none := by
  rw [jobQueuePush]
  by_cases hstopped : s.queue.stopped = true
  · rw [if_pos hstopped]
    exact Option.some_ne_none _
  · rw [if_neg hstopped]
    cases htail : s.queue.tail with
    | none => exact Option.some_ne_none _
    | some tail =>
      have hmem : tail ∈ nodes := List.mem_of_getLast? (r.tail ▸ htail)
      cases hlast : s.heap tail with
      | none => exact absurd hlast (r.linked.allocated tail hmem)
      | some last => simp [hlast]

theorem Represents.pop_defined (r : Represents s nodes f) (hready : s.queue.waits = false) :
    jobQueuePop s.heap s.queue ≠ none := by
  rw [jobQueuePop]
  by_cases hstopped : s.queue.stopped = true
  · rw [if_pos hstopped]
    exact Option.some_ne_none _
  · rw [if_neg hstopped]
    cases hhead : s.queue.head with
    | none => simp [JobQueue.waits, hhead, hstopped] at hready
    | some node =>
      have hmem : node ∈ nodes := List.mem_of_mem_head? (r.linked.head_eq ▸ hhead)
      cases hfirst : s.heap node with
      | none => exact absurd hfirst (r.linked.allocated node hmem)
      | some first => simp [hfirst]

end

section

variable [DecidableEq T] {s : QueueState J T} {nodes : List NodePtr} {f : Fifo.State J} {t : T}

/-- A thread's call changes to one that holds no node, or the node it held. -/
theorem node_update {c : QueueCall J} {u : T} {node : NodePtr}
    (h : (Function.update s.calls t c u).node = some node) :
    (u = t ∧ c.node = some node) ∨ (u ≠ t ∧ (s.calls u).node = some node) := by
  by_cases hu : u = t
  · subst hu
    rw [Function.update_self] at h
    exact .inl ⟨rfl, h⟩
  · rw [Function.update_of_ne hu] at h
    exact .inr ⟨hu, h⟩

theorem Represents.apart_update (r : Represents s nodes f) {c : QueueCall J}
    (hc : ∀ node, c.node = some node → ∀ u, (s.calls u).node = some node → u = t) :
    ∀ u v node, (Function.update s.calls t c u).node = some node →
      (Function.update s.calls t c v).node = some node → u = v := by
  intro u v node hu hv
  rcases node_update hu with ⟨hut, hcu⟩ | ⟨-, hcu⟩ <;>
    rcases node_update hv with ⟨hvt, hcv⟩ | ⟨-, hcv⟩
  · rw [hut, hvt]
  · rw [hut, hc node hcu v hcv]
  · rw [hvt, hc node hcv u hcu]
  · exact r.apart u v node hcu hcv

theorem Represents.make (r : Represents s nodes f) {node : NodePtr} (job : J)
    (hfresh : s.heap node = none) :
    Represents ⟨Function.update s.heap node (some ⟨job, none⟩), s.queue,
      Function.update s.calls t (.linking node job)⟩
      nodes f := by
  have hout : node ∉ nodes := fun hmem => r.linked.allocated node hmem hfresh
  have hfree : ∀ u, (s.calls u).node ≠ some node := by
    intro u hu
    obtain ⟨-, n, hn, -⟩ := r.held u node hu
    rw [hfresh] at hn
    cases hn
  have hlinked : Linked (Function.update s.heap node (some ⟨job, none⟩)) s.queue.head
    nodes f.items :=
    r.linked.congr fun n hn => Function.update_of_ne (fun heq : n = node => hout (heq ▸ hn)) _ _
  refine ⟨hlinked, r.nodup, r.tail, r.stopped, ?_, r.apart_update fun n hn u hu => ?_⟩
  · intro u n hu
    dsimp only at hu ⊢
    by_cases hut : u = t
    · subst hut
      rw [Function.update_self] at hu ⊢
      obtain rfl := Option.some.inj hu
      exact ⟨hout, _, Function.update_self _ _ _, rfl⟩
    · rw [Function.update_of_ne hut] at hu ⊢
      have hne : n ≠ node := fun heq => hfree u (heq ▸ hu)
      rw [Function.update_of_ne hne]
      exact r.held u n hu
  · obtain rfl := Option.some.inj hn
    exact absurd hu (hfree u)

theorem Represents.release (r : Represents s nodes f) {node : NodePtr}
    (hnode : (s.calls t).node = some node) :
    Represents ⟨Function.update s.heap node none, s.queue,
      Function.update s.calls t .idle⟩ nodes f := by
  have hout := (r.held t node hnode).1
  have hlinked : Linked (Function.update s.heap node none) s.queue.head nodes f.items :=
    r.linked.congr fun n hn => Function.update_of_ne (fun heq : n = node => hout (heq ▸ hn)) _ _
  refine ⟨hlinked, r.nodup, r.tail, r.stopped, ?_, r.apart_update fun n hn => nomatch hn⟩
  intro u n hu
  dsimp only at hu ⊢
  by_cases hut : u = t
  · subst hut
    rw [Function.update_self] at hu
    cases hu
  · rw [Function.update_of_ne hut] at hu ⊢
    have hne : n ≠ node := fun heq => hut (r.apart u t node (heq ▸ hu) hnode)
    rw [Function.update_of_ne hne]
    exact r.held u n hu

theorem Represents.push (r : Represents s nodes f) {node : NodePtr} {job : J} {heap : NodeHeap J}
    {queue : JobQueue} {linked : Bool} (hcall : s.calls t = .linking node job)
    (hpush : jobQueuePush s.heap s.queue node = some (heap, queue, linked)) :
    (linked = false ∧ f.stopped = true ∧ heap = s.heap ∧ queue = s.queue) ∨
      (linked = true ∧ f.stopped = false ∧
        Represents ⟨heap, queue, Function.update s.calls t .idle⟩ (nodes ++ [node])
          ⟨f.items ++ [job], false⟩) := by
  have hnode : (s.calls t).node = some node := by rw [hcall]; rfl
  obtain ⟨hout, n, hn, hholds⟩ := r.held t node hnode
  rw [hcall] at hholds
  obtain rfl : n = ⟨job, none⟩ := hholds
  have hnodup : (nodes ++ [node]).Nodup :=
    List.Nodup.append r.nodup (List.nodup_singleton node) fun a ha hb =>
      hout (List.mem_singleton.mp hb ▸ ha)
  have hothers : ∀ u m, (Function.update s.calls t .idle u).node = some m → u ≠ t ∧
    (s.calls u).node = some m := by
    intro u m hu
    rcases node_update hu with ⟨-, hu⟩ | hu
    · cases hu
    · exact hu
  have hfresh : ∀ u m, u ≠ t → (s.calls u).node = some m → m ∉ nodes ++ [node] := by
    intro u m hut hu hmem
    rcases List.mem_append.mp hmem with hmem | hmem
    · exact (r.held u m hu).1 hmem
    · rw [List.mem_singleton.mp hmem] at hu
      exact hut (r.apart u t node hu hnode)
  unfold jobQueuePush at hpush
  by_cases hstopped : s.queue.stopped = true
  · rw [if_pos hstopped] at hpush
    obtain ⟨rfl, hrest⟩ := Prod.mk.inj (Option.some.inj hpush)
    obtain ⟨rfl, rfl⟩ := Prod.mk.inj hrest
    exact .inl ⟨rfl, r.stopped ▸ hstopped, rfl, rfl⟩
  · rw [if_neg hstopped] at hpush
    have hrunning : s.queue.stopped = false := Bool.eq_false_iff.mpr hstopped
    right
    cases htail : s.queue.tail with
    | none =>
      rw [htail] at hpush
      obtain ⟨rfl, hrest⟩ := Prod.mk.inj (Option.some.inj hpush)
      obtain ⟨rfl, rfl⟩ := Prod.mk.inj hrest
      obtain rfl : nodes = [] := List.getLast?_eq_none_iff.mp (r.tail ▸ htail)
      have hempty : f.items = [] := by
        have hlinked := r.linked
        cases hitems : f.items with
        | nil => rfl
        | cons j js => rw [hitems] at hlinked; exact hlinked.elim
      refine ⟨rfl, r.stopped ▸ hrunning, ⟨?_, hnodup, rfl, hrunning, ?_,
        r.apart_update fun _ h => nomatch h⟩⟩
      · rw [hempty]
        exact ⟨rfl, none, hn, rfl⟩
      · intro u m hu
        obtain ⟨hut, hu⟩ := hothers u m hu
        refine ⟨hfresh u m hut hu, ?_⟩
        dsimp only
        rw [Function.update_of_ne hut]
        exact (r.held u m hu).2
    | some tail =>
      rw [htail] at hpush
      have hlastNode : nodes.getLast? = some tail := r.tail ▸ htail
      have hmem : tail ∈ nodes := List.mem_of_getLast? hlastNode
      cases hlast : s.heap tail with
      | none => exact absurd hlast (r.linked.allocated tail hmem)
      | some last =>
        dsimp only at hpush
        rw [hlast] at hpush
        obtain ⟨rfl, hrest⟩ := Prod.mk.inj (Option.some.inj hpush)
        obtain ⟨rfl, rfl⟩ := Prod.mk.inj hrest
        refine ⟨rfl, r.stopped ▸ hrunning, ⟨r.linked.snoc r.nodup hlastNode hlast hn hout, hnodup,
          ?_, hrunning, ?_,
          r.apart_update fun _ h => nomatch h⟩⟩
        · rw [List.getLast?_concat]
        · intro u m hu
          obtain ⟨hut, hu⟩ := hothers u m hu
          have hne : m ≠ tail := fun heq => (r.held u m hu).1 (heq ▸ hmem)
          refine ⟨hfresh u m hut hu, ?_⟩
          dsimp only
          rw [Function.update_of_ne hut, Function.update_of_ne hne]
          exact (r.held u m hu).2

theorem Represents.pop (r : Represents s nodes f) {queue : JobQueue} {popped : Option NodePtr}
    (hcall : s.calls t = .idle) (hpop : jobQueuePop s.heap s.queue = some (queue, popped)) :
    (popped = none ∧ f.stopped = true ∧ queue = s.queue) ∨
      ∃ node first items nodes', popped = some node ∧ s.heap node = some first ∧
        f = ⟨first.job :: items, false⟩ ∧
        Represents ⟨s.heap, queue, Function.update s.calls t (.unlinked node first.job)⟩ nodes'
          ⟨items, false⟩ := by
  unfold jobQueuePop at hpop
  by_cases hstopped : s.queue.stopped = true
  · rw [if_pos hstopped] at hpop
    obtain ⟨rfl, rfl⟩ := Prod.mk.inj (Option.some.inj hpop)
    exact .inl ⟨rfl, r.stopped ▸ hstopped, rfl⟩
  · rw [if_neg hstopped] at hpop
    have hrunning : s.queue.stopped = false := Bool.eq_false_iff.mpr hstopped
    right
    have hlinked := r.linked
    have hnodup := r.nodup
    have htail := r.tail
    have hheld := r.held
    obtain ⟨items, stopped⟩ := f
    obtain rfl : s.queue.stopped = stopped := r.stopped
    cases nodes with
    | nil =>
      rw [hlinked.head_eq] at hpop
      cases hpop
    | cons node nodes =>
      cases items with
      | nil => exact hlinked.elim
      | cons job items =>
        obtain ⟨hhead, next, hnode, hrest⟩ := hlinked
        obtain ⟨hout, hnodup⟩ := List.nodup_cons.mp hnodup
        rw [hhead] at hpop
        dsimp only at hpop
        rw [hnode] at hpop
        obtain ⟨rfl, rfl⟩ := Prod.mk.inj (Option.some.inj hpop)
        rw [hrunning]
        refine ⟨node, ⟨job, next⟩, items, nodes, rfl, hnode, rfl, ⟨hrest, hnodup, ?_, rfl, ?_, ?_⟩⟩
        · dsimp only
          rw [hrest.head_eq, htail]
          cases nodes with
          | nil => rfl
          | cons n nodes =>
            rw [List.head?_cons, if_neg (Option.some_ne_none n), List.getLast?_cons_cons]
        · intro u m hu
          dsimp only at hu ⊢
          by_cases hut : u = t
          · subst hut
            rw [Function.update_self] at hu ⊢
            obtain rfl := Option.some.inj hu
            exact ⟨hout, _, hnode, rfl⟩
          · rw [Function.update_of_ne hut] at hu ⊢
            obtain ⟨hmem, hcallNode⟩ := hheld u m hu
            exact ⟨fun hin => hmem (List.mem_cons_of_mem _ hin), hcallNode⟩
        · refine r.apart_update fun m hm u hu => ?_
          obtain rfl := Option.some.inj hm
          exact absurd List.mem_cons_self (hheld u _ hu).1

/-- What a step shows of the abstract queue. -/
def QueueEvent.shown : QueueEvent J T → Option (Fifo.Event T J)
  | .visible e => some e
  | _ => none

/-- Every step of a thread is a step of the abstract queue, or invisible to it. -/
theorem QueueStep.simulates {s' : QueueState J T} {e : QueueEvent J T} (step : QueueStep s e s')
    (r : Represents s nodes f) :
    ∃ nodes' f', Represents s' nodes' f' ∧
      (match e.shown with
      | some e => Fifo.Step f e f'
      | Option.none =>
        f' = f) ∧ (s.queue.stopped = true → s'.queue = s.queue ∧ nodes' = nodes) := by
  cases step with
  | make node job hcall hfresh => exact ⟨nodes, f, r.make job hfresh, rfl, fun _ => ⟨rfl, rfl⟩⟩
  | noMemory hcall => exact ⟨nodes, f, r, rfl, fun _ => ⟨rfl, rfl⟩⟩
  | free hcall => exact ⟨nodes, f, r.release (by rw [hcall]; rfl), rfl, fun _ => ⟨rfl, rfl⟩⟩
  | giveBack hcall hnode =>
    exact ⟨nodes, f, r.release (by rw [hcall]; rfl), rfl, fun _ => ⟨rfl, rfl⟩⟩
  | stop t =>
    refine ⟨nodes, ⟨f.items, true⟩, ⟨r.linked, r.nodup, r.tail, rfl, r.held, r.apart⟩, .stop f t,
      fun hstopped => ⟨?_, rfl⟩⟩
    change { s.queue with stopped := true } = s.queue
    rw [← hstopped]
  | link hcall hpush =>
    rcases r.push hcall hpush with ⟨hfalse, -⟩ | ⟨-, hrunning, hrep⟩
    · cases hfalse
    · obtain ⟨items, stopped⟩ := f
      obtain rfl : stopped = false := hrunning
      exact ⟨_, _, hrep, .push items _ _, fun hstopped =>
        absurd (r.stopped.symm.trans hstopped) Bool.false_ne_true⟩
  | @reject t node job heap queue hcall hpush =>
    rcases r.push hcall hpush with ⟨-, hstopped, rfl, rfl⟩ | ⟨hfalse, -⟩
    · obtain ⟨items, stopped⟩ := f
      obtain rfl : stopped = true := hstopped
      refine ⟨nodes, ⟨items, true⟩, ⟨r.linked, r.nodup, r.tail, r.stopped, ?_, ?_⟩, .refuse items _,
        fun _ => ⟨rfl, rfl⟩⟩
      · intro u m hu
        dsimp only at hu ⊢
        rcases node_update hu with ⟨hut, hcu⟩ | ⟨hut, hcu⟩
        · rw [hut, Function.update_self]
          obtain ⟨hout, n, hn, -⟩ := r.held t m (by rw [hcall]; exact hcu)
          exact ⟨hout, n, hn, trivial⟩
        · rw [Function.update_of_ne hut]
          exact r.held u m hcu
      · refine r.apart_update fun m hm u hu => ?_
        exact r.apart u t m hu (by rw [hcall]; exact hm)
    · cases hfalse
  | unlink hcall hready hpop hfirst =>
    rcases r.pop hcall hpop with ⟨hnone, -⟩ | ⟨node, first, items, nodes', hnode, hheap, rfl, hrep⟩
    · cases hnone
    · obtain rfl := Option.some.inj hnode
      rw [hfirst] at hheap
      obtain rfl := Option.some.inj hheap
      exact ⟨nodes', _, hrep, .take _ items _, fun hstopped =>
        absurd (r.stopped.symm.trans hstopped) Bool.false_ne_true⟩
  | none hcall hready hpop =>
    rcases r.pop hcall hpop with ⟨-, hstopped, rfl⟩ | ⟨node, first, items, nodes', hnode, -⟩
    · obtain ⟨items, stopped⟩ := f
      obtain rfl : stopped = true := hstopped
      exact ⟨nodes, _, ⟨r.linked, r.nodup, r.tail, r.stopped, r.held, r.apart⟩, .none items _,
        fun _ => ⟨rfl, rfl⟩⟩
    · cases hnode

/-- Every run of the threads is a run of the abstract queue. -/
theorem QueueRun.represents {h : List (QueueEvent J T)} (run : QueueRun h s) :
    ∃ nodes f, Represents s nodes f ∧ Fifo.Run (h.filterMap QueueEvent.shown) f := by
  induction run with
  | initial => exact ⟨[], {}, represents_initial, .empty⟩
  | @step h s s' e run step ih =>
    obtain ⟨nodes, f, hrep, hrun⟩ := ih
    obtain ⟨nodes', f', hrep', hstep, -⟩ := step.simulates hrep
    refine ⟨nodes', f', hrep', ?_⟩
    cases hshown : e.shown with
    | none =>
      rw [hshown] at hstep
      obtain rfl : f' = f := hstep
      rw [List.filterMap_cons_none hshown]
      exact hrun
    | some e =>
      rw [hshown] at hstep
      rw [List.filterMap_cons_some hshown]
      exact hrun.step hstep

/-- The jobs that thread `t` has taken out, and that its pops have returned, oldest first. -/
def takenBy (t : T) (h : List (QueueEvent J T)) : List J :=
  h.reverse.filterMap fun
    | .visible (.took u job) => if u = t then some job else none
    | _ => none

def returnedBy (t : T) (h : List (QueueEvent J T)) : List J :=
  h.reverse.filterMap fun
    | .returned u job => if u = t then some job else none
    | _ => none

theorem QueueRun.returned {h : List (QueueEvent J T)} (run : QueueRun h s) (t : T) :
    takenBy t h = returnedBy t h ++ (s.calls t).pending := by
  induction run with
  | initial => rfl
  | @step h s s' e run step ih =>
    obtain ⟨nodes, f, hrep, -⟩ := run.represents
    have hcall : ∀ {u : T} {c : QueueCall J}, (s.calls u).pending = c.pending →
        (Function.update s.calls u c t).pending = (s.calls t).pending := by
      intro u c hsame
      by_cases htu : t = u
      · rw [htu, Function.update_self, hsame]
      · rw [Function.update_of_ne htu]
    cases step with
    | @make u node job hidle hfresh =>
      have hkept := hcall (u := u) (c := .linking node job) (by rw [hidle]; rfl)
      simpa [takenBy, returnedBy, hkept] using ih
    | noMemory hidle => simpa [takenBy, returnedBy] using ih
    | @link u node job heap queue hlinking hpush =>
      have hkept := hcall (u := u) (c := .idle) (by rw [hlinking]; rfl)
      simpa [takenBy, returnedBy, hkept] using ih
    | @reject u node job heap queue hlinking hpush =>
      have hkept := hcall (u := u) (c := .rejected node) (by rw [hlinking]; rfl)
      simpa [takenBy, returnedBy, hkept] using ih
    | @free u node hrejected =>
      have hkept := hcall (u := u) (c := .idle) (by rw [hrejected]; rfl)
      simpa [takenBy, returnedBy, hkept] using ih
    | none hidle hready hpop => simpa [takenBy, returnedBy] using ih
    | stop u => simpa [takenBy, returnedBy] using ih
    | @unlink u node first queue hidle hready hpop hfirst =>
      by_cases htu : u = t
      · subst htu
        rw [hidle] at ih
        simp only [takenBy, returnedBy, QueueCall.pending, List.append_nil] at ih
        simp [takenBy, returnedBy, QueueCall.pending, ih]
      · simpa [takenBy, returnedBy, htu, Function.update_of_ne (Ne.symm htu)] using ih
    | @giveBack u node took n hunlinked hnode =>
      by_cases htu : u = t
      · subst htu
        obtain ⟨-, n', hn', hholds⟩ := hrep.held u node (by rw [hunlinked]; rfl)
        rw [hunlinked] at ih hholds
        rw [hnode] at hn'
        obtain rfl := Option.some.inj hn'
        obtain rfl : n.job = took := hholds
        simp only [takenBy, returnedBy, QueueCall.pending] at ih
        simp [takenBy, returnedBy, QueueCall.pending, ih]
      · simpa [takenBy, returnedBy, htu, Function.update_of_ne (Ne.symm htu)] using ih

end

/-- The queue and its list as they should be after the history `h`. -/
structure QueueSound [DecidableEq T] (h : List (QueueEvent J T)) (s : QueueState J T)
    (nodes : List NodePtr) (jobs : List J) : Prop where
  linked : Linked s.heap s.queue.head nodes jobs
  acyclic : nodes.Nodup
  tail_last : s.queue.tail = nodes.getLast?
  empty_iff : s.queue.head = none ↔ s.queue.tail = none
  /-- What was pushed has been taken out in the same order, or is still in the list. -/
  in_order : Fifo.pushedItems (h.filterMap QueueEvent.shown) =
    Fifo.takenItems (h.filterMap QueueEvent.shown) ++ jobs
  returned : ∀ t, takenBy t h = returnedBy t h ++ (s.calls t).pending
  none_after_stop : ∀ newer t older, h = newer ++ .visible (.none t) :: older →
    ∃ u, .visible (.stopped u) ∈ older
  idle_after_stop : ∀ newer t older, h = newer ++ .visible (.stopped t) :: older →
    ∀ u job, .visible (.pushed u job) ∉ newer ∧ .visible (.took u job) ∉ newer
  /-- A stopped queue refuses every push, answers every pop with NULL at once, and keeps
  its list. -/
  stopped : s.queue.stopped = true →
    (∀ node, jobQueuePush s.heap s.queue node = some (s.heap, s.queue, false)) ∧
      (s.queue.waits = false ∧ jobQueuePop s.heap s.queue = some (s.queue, none)) ∧
      ∀ e s', QueueStep s e s' → s'.queue = s.queue ∧ Linked s'.heap s'.queue.head nodes jobs
  /-- No section follows a pointer to freed memory. -/
  push_defined : ∀ node, jobQueuePush s.heap s.queue node ≠ none
  pop_defined : s.queue.waits = false → jobQueuePop s.heap s.queue ≠ none

/-- The linked list refines a first-in first-out queue, whatever the threads do. -/
theorem job_queue_fifo [DecidableEq T] (h : List (QueueEvent J T)) (s : QueueState J T)
    (run : QueueRun h s) :
    ∃ nodes jobs, QueueSound h s nodes jobs := by
  obtain ⟨nodes, f, hrep, hrun⟩ := run.represents
  have hsplit : ∀ newer older (e : Fifo.Event T J), h = newer ++ .visible e :: older →
      h.filterMap QueueEvent.shown = newer.filterMap QueueEvent.shown ++
        e :: older.filterMap QueueEvent.shown := by
    intro newer older e he
    have hhead : (QueueEvent.visible (J := J) e).shown = some e := rfl
    rw [he, List.filterMap_append, List.filterMap_cons_some hhead]
  have hshown : ∀ (l : List (QueueEvent J T)) (e : Fifo.Event T J),
    e ∈ l.filterMap QueueEvent.shown ↔ .visible e ∈ l := by
    intro l e
    rw [List.mem_filterMap]
    constructor
    · rintro ⟨e', he', hshow⟩
      cases e' with
      | visible e' =>
        obtain rfl := Option.some.inj hshow
        exact he'
      | made t => cases hshow
      | noMemory t => cases hshow
      | freed t => cases hshow
      | returned t job => cases hshow
    · exact fun he => ⟨_, he, rfl⟩
  refine ⟨nodes, f.items, hrep.linked, hrep.nodup, hrep.tail, ?_, hrun.conserved,
    run.returned, ?_, ?_, ?_,
    hrep.push_defined, hrep.pop_defined⟩
  · rw [hrep.linked.head_eq, hrep.tail, List.head?_eq_none_iff, List.getLast?_eq_none_iff]
  · intro newer t older he
    obtain ⟨u, hu⟩ := hrun.none_after_stop (hsplit newer older _ he)
    exact ⟨u, (hshown older _).mp hu⟩
  · intro newer t older he u job
    have hidle := hrun.idle_after_stop (hsplit newer older _ he)
    refine ⟨fun hmem => ?_, fun hmem => ?_⟩
    · cases (hidle _ ((hshown newer _).mpr hmem)).1
    · cases (hidle _ ((hshown newer _).mpr hmem)).2
  · intro hstopped
    have hwaits : s.queue.waits = false := by
      rw [JobQueue.waits, hstopped, Bool.not_true, Bool.and_false]
    refine ⟨fun node => ?_, ⟨hwaits, ?_⟩, fun e s' hstep => ?_⟩
    · rw [jobQueuePush, if_pos hstopped]
    · rw [jobQueuePop, if_pos hstopped]
    · obtain ⟨nodes', f', hrep', hmove, hkept⟩ := hstep.simulates hrep
      obtain ⟨hqueue, rfl⟩ := hkept hstopped
      have hsame : f' = f := by
        cases hshow : e.shown with
        | none =>
          rw [hshow] at hmove
          exact hmove
        | some e =>
          rw [hshow] at hmove
          exact hmove.kept (hrep.stopped ▸ hstopped)
      exact ⟨hqueue, hsame ▸ hrep'.linked⟩

/-- Three jobs are pushed, two are taken, and the third is left behind by the stop. -/
def stoppedEarly : List (QueueEvent Nat Bool) :=
  [.freed true, .visible (.refused true), .made true, .visible (.none false),
    .visible (.stopped true),
    .returned false 8, .visible (.took false 8), .returned false 7, .visible (.took false 7),
    .visible (.pushed true 9), .made true, .visible (.pushed true 8), .made true,
    .visible (.pushed true 7), .made true]

theorem queueRun_stoppedEarly : ∃ s, QueueRun stoppedEarly s := by
  have made := QueueRun.initial.step (QueueStep.make (t := true) 0 (7 : Nat) rfl rfl)
  have linked := made.step (@QueueStep.link Nat Bool _ _ true 0 7 _ _ rfl rfl)
  have made := linked.step (QueueStep.make (t := true) 1 8 rfl rfl)
  have linked := made.step (@QueueStep.link Nat Bool _ _ true 1 8 _ _ rfl rfl)
  have made := linked.step (QueueStep.make (t := true) 2 9 rfl rfl)
  have linked := made.step (@QueueStep.link Nat Bool _ _ true 2 9 _ _ rfl rfl)
  have taken := linked.step
    (@QueueStep.unlink Nat Bool _ _ false 0 ⟨7, some 1⟩ _ rfl rfl rfl rfl)
  have back := taken.step (@QueueStep.giveBack Nat Bool _ _ false 0 7 ⟨7, some 1⟩ rfl rfl)
  have taken := back.step
    (@QueueStep.unlink Nat Bool _ _ false 1 ⟨8, some 2⟩ _ rfl rfl rfl rfl)
  have back := taken.step (@QueueStep.giveBack Nat Bool _ _ false 1 8 ⟨8, some 2⟩ rfl rfl)
  have stopped := back.step (.stop true)
  have none := stopped.step (@QueueStep.none Nat Bool _ _ false _ rfl rfl rfl)
  have made := none.step (QueueStep.make (t := true) 0 5 rfl rfl)
  have refused := made.step (@QueueStep.reject Nat Bool _ _ true 0 5 _ _ rfl rfl)
  exact ⟨_, refused.step (@QueueStep.free Nat Bool _ _ true 0 rfl)⟩

theorem job_queue_fifo_stoppedEarly : ∃ s nodes, QueueSound stoppedEarly s nodes [9] := by
  obtain ⟨s, run⟩ := queueRun_stoppedEarly
  obtain ⟨nodes, jobs, hsound⟩ := job_queue_fifo _ s run
  obtain rfl : [9] = jobs := @List.append_cancel_left _ [7, 8] _ _ hsound.in_order
  exact ⟨s, nodes, hsound⟩

/-! The server's threads use the queue through the abstract one: every operation of theirs
leaves it alone or is a step of it. -/

def World.fifo (w : World) : Fifo.State Nat := ⟨w.queue, w.stopped⟩

theorem exec_queue {codec : PngCodec} {e : Env} {t : Tid} {w w' : World} {o : Op} {a : Ans o}
    {marks : List Mark} (h : exec codec e t w o = some (a, w', marks)) : w'.fifo = w.fifo ∨ ∃ event,
      Fifo.Step (T := Tid) w.fifo event w'.fifo := by
  cases o with
  | push job =>
    simp only [exec] at h
    by_cases hok : (!e.ok) = true
    · rw [if_pos hok] at h
      cases h
      exact .inl rfl
    · rw [if_neg hok] at h
      cases hstopped : w.stopped with
      | true =>
        rw [hstopped, if_pos rfl] at h
        cases h
        exact .inl rfl
      | false =>
        rw [hstopped, if_neg Bool.false_ne_true] at h
        cases h
        simp only [World.fifo, hstopped]
        exact .inr ⟨_, .push w.queue t job⟩
  | pop =>
    simp only [exec] at h
    cases hstopped : w.stopped with
    | true =>
      rw [hstopped, if_pos rfl] at h
      cases h
      exact .inl rfl
    | false =>
      rw [hstopped, if_neg Bool.false_ne_true] at h
      cases hqueue : w.queue with
      | nil =>
        rw [hqueue] at h
        cases h
      | cons job queue =>
        rw [hqueue] at h
        cases h
        simp only [World.fifo, hstopped, hqueue]
        exact .inr ⟨_, .take job queue t⟩
  | stopQueue =>
    cases h
    exact .inr ⟨_, .stop w.fifo t⟩
  | createJob owner_fd owner_ip type payload input_path =>
    simp only [exec] at h
    split at h
    · cases h
      exact .inl rfl
    · split at h <;> cases h <;> exact .inl rfl
  | accept fd =>
    simp only [exec] at h
    split at h <;> cases h <;> exact .inl rfl
  | join i =>
    simp only [exec] at h
    split at h <;> cases h
    exact .inl rfl
  | pngLoad path =>
    simp only [exec] at h
    split at h <;> cases h <;> exact .inl rfl
  | fopenWb path =>
    cases h
    cases e.ok <;> exact .inl rfl
  | fclose path =>
    cases h
    cases e.ok <;> exact .inl rfl
  | _ =>
    cases h
    exact .inl rfl

end StegaPng
