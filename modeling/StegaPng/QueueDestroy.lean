import StegaPng.QueueMonitor

/-! The nodes of the queue: each is in the list or in the hands of one call until it is
freed, so `job_queue_destroy` frees what is left, and nothing twice. -/

namespace StegaPng

open Interleaving Monitor

variable {J T : Type}

/-- The loop of `job_queue_destroy`. There is no result when it follows a pointer to a freed
node. -/
def freeNodes : Nat → NodeHeap J → Option NodePtr → Option (NodeHeap J)
  | _, heap, none => some heap
  | 0, _, some _ => none
  | fuel + 1, heap, some node =>
    match heap node with
    | none => none
    | some n => freeNodes fuel (Function.update heap node none) n.next

/-- What `job_queue_destroy` does under the mutex. -/
def jobQueueDestroy (fuel : Nat) (heap : NodeHeap J) (queue : JobQueue) :
    Option (NodeHeap J × JobQueue) :=
  (freeNodes fuel heap queue.head).map fun heap => (heap, { queue with head := none, tail := none })

theorem freeNodes_linked {heap : NodeHeap J} {p : Option NodePtr} {nodes : List NodePtr}
    {jobs : List J} (h : Linked heap p nodes jobs) (hnodup : nodes.Nodup) {fuel : Nat}
    (hfuel : nodes.length ≤ fuel) :
    freeNodes fuel heap p = some fun node => if node ∈ nodes then none else heap node := by
  induction nodes generalizing heap p jobs fuel with
  | nil =>
    obtain rfl : p = none := h.head_eq
    cases fuel <;> simp [freeNodes]
  | cons node nodes ih =>
    cases jobs with
    | nil => exact h.elim
    | cons job jobs =>
      obtain ⟨rfl, next, hnode, hrest⟩ := h
      obtain ⟨hout, hnodup⟩ := List.nodup_cons.mp hnodup
      cases fuel with
      | zero => simp at hfuel
      | succ fuel =>
        have hkept : Linked (Function.update heap node none) next nodes jobs :=
          hrest.congr fun n hn => Function.update_of_ne (fun heq : n = node => hout (heq ▸ hn)) _ _
        rw [freeNodes, hnode]
        dsimp only
        rw [ih hkept hnodup (by simpa using hfuel)]
        congr 1
        funext n
        by_cases hn : n = node
        · subst hn
          simp [hout]
        · simp [hn]

theorem Linked.unique {heap : NodeHeap J} {p : Option NodePtr} {nodes nodes' : List NodePtr}
    {jobs jobs' : List J} (h : Linked heap p nodes jobs) (h' : Linked heap p nodes' jobs') :
    nodes = nodes' := by
  induction nodes generalizing p jobs nodes' jobs' with
  | nil =>
    obtain rfl : p = none := h.head_eq
    exact (List.head?_eq_none_iff.mp h'.head_eq.symm).symm
  | cons node nodes ih =>
    have hhead := h'.head_eq
    rw [h.head_eq] at hhead
    cases nodes' with
    | nil => cases hhead
    | cons node' nodes' =>
      obtain rfl : node = node' := Option.some.inj hhead
      cases jobs with
      | nil => exact h.elim
      | cons job jobs =>
        cases jobs' with
        | nil => exact h'.elim
        | cons job' jobs' =>
          obtain ⟨-, next, hnode, hrest⟩ := h
          obtain ⟨-, next', hnode', hrest'⟩ := h'
          rw [hnode] at hnode'
          obtain ⟨-, rfl⟩ := JobNode.mk.inj (Option.some.inj hnode')
          rw [ih hrest hrest']

/-- Every node that is allocated is in the list, or a call has it. -/
def NodesAccounted (nodes : List NodePtr) (s : QueueState J T) : Prop :=
  ∀ node, s.heap node ≠ none → node ∈ nodes ∨ ∃ t, (s.calls t).node = some node

variable [DecidableEq T] {s s' : QueueState J T} {nodes nodes' : List NodePtr} {f f' : Fifo.State J}
  {e : QueueEvent J T}

/-- A call gives its node up, and the heap loses it. -/
theorem NodesAccounted.release (h : NodesAccounted nodes s) {t : T} {node : NodePtr}
    (hnode : (s.calls t).node = some node) :
    NodesAccounted nodes ⟨Function.update s.heap node none, s.queue,
      Function.update s.calls t .idle⟩ := by
  intro n hn
  dsimp only at hn ⊢
  have hne : n ≠ node := by
    rintro rfl
    exact hn (Function.update_self ..)
  rw [Function.update_of_ne hne] at hn
  rcases h n hn with hmem | ⟨u, hu⟩
  · exact .inl hmem
  · have hut : u ≠ t := by
      rintro rfl
      exact hne (Option.some.inj (hu.symm.trans hnode))
    exact .inr ⟨u, by rwa [Function.update_of_ne hut]⟩

/-- A call goes on with whatever node it had. -/
theorem NodesAccounted.call (h : NodesAccounted nodes s) {t : T} {c : QueueCall J}
    (hc : ∀ node, (s.calls t).node = some node →
    c.node = some node) : NodesAccounted nodes { s with calls := Function.update s.calls t c } := by
  intro n hn
  refine (h n hn).imp id ?_
  rintro ⟨u, hu⟩
  by_cases hut : u = t
  · subst hut
    exact ⟨u, by simpa using hc n hu⟩
  · exact ⟨u, by simpa [Function.update_of_ne hut] using hu⟩

theorem linkNode_allocated {heap heap' : NodeHeap J} {queue queue' : JobQueue} {node n : NodePtr}
    (h : linkNode heap queue node = some (heap', queue')) (hn : heap' n ≠ none) :
    heap n ≠ none := by
  rw [linkNode] at h
  split at h
  · cases h
    exact hn
  · rename_i tail htail
    split at h
    · cases h
    · rename_i last hlast
      cases h
      by_cases hnt : n = tail
      · rw [hnt, hlast]
        exact Option.some_ne_none last
      · rwa [Function.update_of_ne hnt] at hn

theorem QueueStep.accounted (step : QueueStep s e s') (r : Represents s nodes f)
    (r' : Represents s' nodes' f') (h : NodesAccounted nodes s) : NodesAccounted nodes' s' := by
  cases step with
  | @make t node job hcall hfresh =>
    obtain rfl := (r.make (t := t) job hfresh).linked.unique r'.linked
    intro n hn
    dsimp only at hn ⊢
    by_cases hnode : n = node
    · exact .inr ⟨t, by rw [Function.update_self, hnode]; rfl⟩
    · rw [Function.update_of_ne hnode] at hn
      exact h.call (t := t) (c := .linking node job)
        (fun m hm => by rw [hcall] at hm; cases hm) n hn
  | noMemory hcall =>
    obtain rfl := r.linked.unique r'.linked
    exact h
  | @link t node job heap queue hcall hpush =>
    rcases r.push hcall hpush with ⟨hfalse, -⟩ | ⟨-, hrunning, hrep⟩
    · cases hfalse
    · obtain rfl := hrep.linked.unique r'.linked
      rw [jobQueuePush_running node (r.stopped.trans hrunning), Option.map_eq_some_iff] at hpush
      obtain ⟨⟨heap', queue'⟩, hlink, heq⟩ := hpush
      cases heq
      intro n hn
      rcases h n (linkNode_allocated hlink hn) with hmem | ⟨u, hu⟩
      · exact .inl (List.mem_append_left _ hmem)
      · by_cases hut : u = t
        · rw [hut, hcall] at hu
          obtain rfl := Option.some.inj hu
          exact .inl (List.mem_append_right _ (List.mem_singleton_self node))
        · refine .inr ⟨u, ?_⟩
          dsimp only
          rwa [Function.update_of_ne hut]
  | @reject t node job heap queue hcall hpush =>
    rcases r.push hcall hpush with ⟨-, -, rfl, rfl⟩ | ⟨hfalse, -⟩
    · obtain rfl := r.linked.unique r'.linked
      refine h.call fun n hn => ?_
      rwa [hcall] at hn
    · cases hfalse
  | free hcall =>
    obtain rfl := (r.release (by rw [hcall]; rfl)).linked.unique r'.linked
    exact h.release (by rw [hcall]; rfl)
  | giveBack hcall hnode =>
    obtain rfl := (r.release (by rw [hcall]; rfl)).linked.unique r'.linked
    exact h.release (by rw [hcall]; rfl)
  | @unlink t node first queue hcall hready hpop hfirst =>
    rcases r.pop hcall hpop with ⟨hnone, -⟩ | ⟨node', first', items, rest, hnode, hheap, rfl, hrep⟩
    · cases hnone
    · obtain rfl := Option.some.inj hnode
      obtain rfl := hrep.linked.unique r'.linked
      have hrunning : s.queue.stopped = false := r.stopped
      rw [jobQueuePop_running hrunning, Option.map_eq_some_iff] at hpop
      obtain ⟨⟨queue', head⟩, hunlink, heq⟩ := hpop
      cases heq
      obtain ⟨hhead, -, first', hfirst', hnext⟩ := unlinkHead_spec hunlink
      have hwhole : Linked s.heap s.queue.head (head :: rest) (first'.job :: items) :=
        ⟨hhead, first'.next, hfirst', hnext ▸ hrep.linked⟩
      obtain rfl := r.linked.unique hwhole
      intro n hn
      rcases h n hn with hmem | ⟨u, hu⟩
      · rcases List.mem_cons.mp hmem with rfl | hmem
        · refine .inr ⟨t, ?_⟩
          dsimp only
          rw [Function.update_self]
          rfl
        · exact .inl hmem
      · have hut : u ≠ t := by
          rintro rfl
          rw [hcall] at hu
          cases hu
        refine .inr ⟨u, ?_⟩
        dsimp only
        rwa [Function.update_of_ne hut]
  | none hcall hready hpop =>
    rcases r.pop hcall hpop with ⟨-, -, rfl⟩ | ⟨node, first, items, rest, hnode, -⟩
    · obtain rfl := r.linked.unique r'.linked
      exact h
    · cases hnode
  | stop t =>
    obtain rfl := r.linked.unique r'.linked
    exact h

theorem QueueRun.accounted {h : List (QueueEvent J T)} (run : QueueRun h s)
    (r : Represents s nodes f) :
    NodesAccounted nodes s := by
  induction run generalizing nodes f with
  | initial => exact fun node hnode => absurd rfl hnode
  | step run step ih =>
    obtain ⟨before, fbefore, hrep, -⟩ := run.represents
    exact step.accounted hrep r (ih hrep)

/-- Once every thread has left, nobody has the mutex or waits, and `job_queue_destroy` frees
each node that is left, once, so that no node stays allocated. -/
theorem job_queue_destroy_frees_all {c : QueueConfig J T} (h : QueueReachable c)
    (hleft : ∀ t, c.thread t = none) :
    c.state.owner = none ∧ c.state.waiting = ∅ ∧ c.state.woken = ∅ ∧
      ∃ n, ∀ fuel ≥ n, jobQueueDestroy fuel c.state.data.state.heap c.state.data.state.queue =
        some (fun _ => none, { c.state.data.state.queue with head := none, tail := none }) := by
  have hdone : ∀ t, Outside t (fun m => m.state.calls t = .idle) c.state :=
    fun t => h.ended t (hleft t)
  have hasleep : ∀ t, t ∉ c.state.waiting ∪ c.state.woken := fun t => (hdone t).2.1
  obtain ⟨nodes, f, hrep, -⟩ := QueueRun.represents h.keeps.inv.data
  refine ⟨?_, ?_, ?_, nodes.length, fun fuel hfuel => ?_⟩
  · cases howner : c.state.owner with
    | none => rfl
    | some t => exact absurd howner (hdone t).1
  · exact Finset.eq_empty_of_forall_notMem fun t ht => hasleep t (Finset.mem_union_left _ ht)
  · exact Finset.eq_empty_of_forall_notMem fun t ht => hasleep t (Finset.mem_union_right _ ht)
  · rw [jobQueueDestroy, freeNodes_linked hrep.linked hrep.nodup hfuel, Option.map_some]
    congr 2
    funext node
    by_cases hmem : node ∈ nodes
    · rw [if_pos hmem]
    · rw [if_neg hmem]
      by_contra hallocated
      rcases QueueRun.accounted h.keeps.inv.data hrep node hallocated with hin | ⟨t, ht⟩
      · exact hmem hin
      · rw [(hdone t).2.2] at ht
        cases ht

/-- A thread leaves a job behind. -/
theorem reachable_left :
    ∃ c : QueueConfig Nat Unit, QueueReachable c ∧ (∀ t, c.thread t = none) ∧
      c.state.data.state.queue.head = some 0 ∧
      c.state.data.state.heap 0 = some ⟨7, none⟩ := by
  have start : QueueReachable (QueueConfig.initial : QueueConfig Nat Unit) := .refl
  have asked := start.op (t := ()) rfl (.push 7) ⟨_, rfl, rfl⟩
  have made := asked.op (t := ()) rfl (some 0) ⟨_, ⟨rfl, rfl⟩, rfl⟩
  have locked := made.op (t := ()) rfl () ⟨rfl, rfl⟩
  have running := locked.op (t := ()) rfl false ⟨_, ⟨rfl, rfl⟩, rfl⟩
  have linked := running.op (t := ()) rfl () ⟨_, ⟨_, _, rfl, rfl⟩, rfl⟩
  have signalled := linked.op (t := ()) rfl () ⟨∅, Finset.empty_subset _, id, rfl⟩
  have unlocked := signalled.op (t := ()) rfl () rfl
  have leaving := (unlocked.again (t := ()) rfl).op (t := ()) rfl .leave ⟨_, rfl, rfl⟩
  exact ⟨_, leaving.halt (t := ()) rfl, fun _ => rfl, rfl, rfl⟩

theorem job_queue_destroy_frees_all_left :
    ∃ c : QueueConfig Nat Unit, QueueReachable c ∧ c.state.data.state.heap 0 = some ⟨7, none⟩ ∧
      ∃ n, ∀ fuel ≥ n, jobQueueDestroy fuel c.state.data.state.heap c.state.data.state.queue =
        some (fun _ => none, { c.state.data.state.queue with head := none, tail := none }) := by
  obtain ⟨c, hreach, hleft, -, hnode⟩ := reachable_left
  exact ⟨c, hreach, hnode, (job_queue_destroy_frees_all hreach hleft).2.2.2⟩

end StegaPng
