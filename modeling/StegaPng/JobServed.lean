import StegaPng.JobNumbers

/-! Programs that use `job.c`, with the server's operations in place of its functions:
whatever the first reach statement by statement, the second reach in the server's model. -/

namespace StegaPng

namespace Locked

open Interleaving

/-- Where the jobs of a run are: the address for each place in the table, and back. -/
structure Layout where
  addr : Nat → JobPtr
  place : JobPtr → Nat
  back : ∀ i, place (addr i) = i

/-- The server's operations for a call. -/
def JobCall.task (lay : Layout) : (b : JobCall) → StegaPng.Task b.Res
  | .create owner_fd owner_ip type payload input_path => do
    let job ← call (.createJob owner_fd owner_ip type payload input_path)
    return Option.map lay.addr job
  | .find job_id => do
    let job ← call (.findJob job_id)
    return Option.map lay.addr job
  | .requestCancel p => call (.requestCancel (lay.place p))
  | .setState p s => call (.setJob (lay.place p) (.state s))
  | .setResult p result => call (.setJob (lay.place p) (.result result))
  | .setStoredPath p path => call (.setJob (lay.place p) (.storedPath path))
  | .setOutputPath p path => call (.setJob (lay.place p) (.outputPath path))
  | .setResultMeta p kind size filename =>
    call (.setJob (lay.place p) (.resultMeta kind size (filename.getD [])))
  | .getState p => call (.getJob (lay.place p) .state)
  | .isCancelRequested p => call (.getJob (lay.place p) .cancelRequested)
  | .getResult p => call (.getJob (lay.place p) .result)
  | .getPayload p => call (.getJob (lay.place p) .payload)
  | .getInputPath p => call (.getJob (lay.place p) .inputPath)
  | .getStoredPath p => call (.getJob (lay.place p) .storedPath)
  | .getOutputPath p => call (.getJob (lay.place p) .outputPath)
  | .getResultMeta p => call (.getJob (lay.place p) .resultMeta)
  | .getOwnerFd p => do
    let job ← call (.getJob (lay.place p) .record)
    return Job.owner_fd job
  | .getOwnerIp p => do
    let job ← call (.getJob (lay.place p) .record)
    return Job.owner_ip job
  | .getType p => call (.getJob (lay.place p) .type)
  | .statsItem p st => do
    let job ← call (.getJob (lay.place p) .record)
    return st.count job
  | .listItem p => do
    let job ← call (.getJob (lay.place p) .record)
    return listEntry job
  | .historyItem dt p => do
    let job ← call (.getJob (lay.place p) .record)
    return if (Job.state job).Terminal then some (historyEntry dt job) else none
  | .cancelItem p owner_fd => do
    let job ← call (.getJob (lay.place p) .record)
    if Job.owner_fd job = owner_fd then call (.requestCancel (lay.place p)) else return false

/-- What the loops over the table do between the calls; the mutexes are gone. -/
def primTask (lay : Layout) : (o : Locks.Op objects) → StegaPng.Task (Locks.Answer objects o)
  | .lock _ => return ()
  | .alloc => return none
  | .release _ _ => return ()
  | .act .table .readCount => call .jobCount
  | .act .table (.readSlot i) => return some (lay.addr i)
  | .act .table .readNextId => call .nextId
  | .act l d => return (objects.act l d (objects.zero l)).1
  | .peek (.job p) => call (.getJob (lay.place p) .id)
  | .peek .table => return ()
  | .ask .clock => return (0 : Nat)
  | .ask .mutexInit => return true
  | .ask .request => return (0 : Nat)

def serverTask {α : Type} (lay : Layout) : JobClient α → StegaPng.Task α
  | .ret a => .ret a
  | .op (.call b) k => b.task lay >>= fun r => serverTask lay (k r)
  | .op (.prim o) k => primTask lay o >>= fun a => serverTask lay (k a)

/-! What the loops read. -/

/-- What a program does with the table by itself, when it has read that there are `bound` jobs. -/
def PrimScans (bound : Nat) : Locks.Op objects → Prop
  | .act .table (.readSlot i) => i < bound
  | .ask _ => False
  | _ => True

def boundAfter (bound : Nat) : (o : Locks.Op objects) → Locks.Answer objects o → Nat
  | .act .table .readCount, (n : Nat) => max bound n
  | _, _ => bound

/-- The program reads no slot beyond the number of jobs that it has read before. -/
def Scans {α : Type} : Nat → JobClient α → Prop
  | _, .ret _ => True
  | bound, .op (.call _) k => ∀ r, Scans bound (k r)
  | bound, .op (.prim o) k => PrimScans bound o ∧ ∀ a, Scans (boundAfter bound o a) (k a)

variable {α β : Type} {bound bound' : Nat}

theorem boundAfter_mono (hle : bound ≤ bound') (o : Locks.Op objects) (a : Locks.Answer objects o) :
    boundAfter bound o a ≤ boundAfter bound' o a ∧ bound ≤ boundAfter bound o a := by
  cases o with
  | act l d =>
    cases l with
    | table =>
      cases d with
      | readCount => exact ⟨max_le_max_right _ hle, Nat.le_max_left ..⟩
      | _ => exact ⟨hle, Nat.le_refl _⟩
    | job p => exact ⟨hle, Nat.le_refl _⟩
  | _ => exact ⟨hle, Nat.le_refl _⟩

theorem PrimScans.mono {o : Locks.Op objects} (hle : bound ≤ bound') (h : PrimScans bound o) :
    PrimScans bound' o := by
  cases o with
  | act l d =>
    cases l with
    | table =>
      cases d with
      | readSlot i => exact Nat.lt_of_lt_of_le h hle
      | _ => trivial
    | job p => trivial
  | ask i => exact h.elim
  | _ => trivial

theorem Scans.mono {q : JobClient α} (hle : bound ≤ bound') (h : Scans bound q) :
    Scans bound' q := by
  induction q generalizing bound bound' with
  | ret a => trivial
  | op c k ih =>
    cases c with
    | call b => exact fun r => ih r hle (h r)
    | prim o => exact ⟨h.1.mono hle, fun a => ih a (boundAfter_mono hle o a).1 (h.2 a)⟩

theorem Scans.bind {q : JobClient α} {f : α → JobClient β} (hq : Scans bound q)
    (hf : ∀ a, Scans bound (f a)) :
    Scans bound (q >>= f) := by
  induction q generalizing bound with
  | ret a => exact hf a
  | op c k ih =>
    cases c with
    | call b => exact fun r => ih r (hq r) hf
    | prim o =>
      exact ⟨hq.1, fun a => ih a (hq.2 a) fun b =>
        (hf b).mono (boundAfter_mono (Nat.le_refl _) o a).2⟩

theorem jobCall_scans (b : JobCall) : Scans bound (jobCall b) := fun _ => trivial

theorem scanJobs_scans {visit : α → JobPtr → JobClient (α × Bool)}
    (hvisit : ∀ acc p, Scans bound (visit acc p)) {slots : List Nat}
    (hslots : ∀ i ∈ slots, i < bound) (acc : α) : Scans bound (scanJobs visit slots acc) := by
  induction slots generalizing acc with
  | nil => trivial
  | cons i slots ih =>
    have hrest : ∀ acc, Scans bound (scanJobs visit slots acc) :=
      ih fun j hj => hslots j (List.mem_cons_of_mem _ hj)
    refine ⟨hslots i (List.mem_cons_self ..), fun slot => ?_⟩
    cases slot with
    | none => exact hrest acc
    | some job =>
      refine (hvisit acc job).bind fun visited => ?_
      split
      · exact hrest visited.1
      · trivial

theorem underTable_scans {body : Nat → JobClient α} (hbody : ∀ n, Scans n (body n)) :
    Scans 0 (underTable body) := by
  refine ⟨trivial, fun _ => ⟨trivial, fun n => ((hbody n).mono (Nat.le_max_right ..)).bind
    fun a => ?_⟩⟩
  exact ⟨trivial, fun _ => trivial⟩

/-! What the server's model holds. -/

variable {codec : PngCodec} {t : Tid} {s s' : Memory Tid} {w w' : World} {lay : Layout}

/-- The model's jobs are those of the table. -/
structure Placed (lay : Layout) (s : Memory Tid) (w : World) : Prop where
  count : (s .table).data.count = w.jobs.length
  next_id : (s .table).data.next_id = w.next_id
  slots : ∀ i < w.jobs.length, (s .table).data.slots i = some (lay.addr i)
  shared : ∀ i < w.jobs.length, Locks.Shared s (.job (lay.addr i))
  data : ∀ i < w.jobs.length, (s (.job (lay.addr i))).data = w.job i
  only : ∀ p, Locks.Shared s (.job p) → ∃ i < w.jobs.length, lay.addr i = p

theorem Placed.of_same (h : Placed lay s w) (htable : (s' .table).data = (s .table).data)
    (hkept : ∀ p, Locks.Shared s (.job p) → s' (.job p) = s (.job p))
    (hnew : ∀ p, Locks.Shared s' (.job p) → Locks.Shared s (.job p)) : Placed lay s' w := by
  refine ⟨by rw [htable, h.count], by rw [htable, h.next_id],
    fun i hi => by rw [htable, h.slots i hi], fun i hi => ?_, fun i hi => ?_,
    fun p hp => h.only p (hnew p hp)⟩
  · rw [Locks.Shared, hkept _ (h.shared i hi)]
    exact h.shared i hi
  · rw [hkept _ (h.shared i hi)]
    exact h.data i hi

/-- Of the jobs, at most the one in place `i` has changed: it is `job` now. -/
structure Rewritten (i : Nat) (job : Job) (w w' : World) : Prop where
  length : w'.jobs.length = w.jobs.length
  next_id : w'.next_id = w.next_id
  here : w'.job i = job
  there : ∀ j, j ≠ i → w'.job j = w.job j

theorem Rewritten.of_update {i : Nat} {f : Job → Job} (hi : i < w.jobs.length)
    (hw : w' = w.updateJob i f) :
    Rewritten i (f (w.job i)) w w' := by
  subst hw
  exact ⟨World.updateJob_length .., rfl, World.updateJob_job _ hi,
    fun j hj => World.updateJob_job_ne _ hj⟩

theorem Rewritten.of_eq (i : Nat) (hw : w' = w) : Rewritten i (w.job i) w w' := by
  subst hw
  exact ⟨rfl, rfl, rfl, fun j _ => rfl⟩

theorem Placed.serve (h : Placed lay s w) {i : Nat} {job : Job} (hi : i < w.jobs.length)
    (hw : Rewritten i job w w') :
    Placed lay (s.put (.job (lay.addr i)) ⟨none, .shared, job⟩) w' := by
  have htable : s.put (.job (lay.addr i)) ⟨none, .shared, job⟩ .table = s .table :=
    put_there _ _ (table_ne_job _)
  have hne : ∀ j, j ≠ i → JobLock.job (lay.addr j) ≠ .job (lay.addr i) := by
    intro j hj heq
    have hplace := congrArg lay.place (JobLock.job.inj heq)
    rw [lay.back, lay.back] at hplace
    exact hj hplace
  refine ⟨by rw [htable, hw.length, h.count], by rw [htable, hw.next_id, h.next_id], fun j hj => ?_,
    fun j hj => ?_, fun j hj => ?_, fun p hp => ?_⟩
  · rw [htable, h.slots j (hw.length ▸ hj)]
  · by_cases hself : j = i
    · rw [hself, Locks.Shared, put_here]
    · rw [Locks.Shared, put_there _ _ (hne j hself)]
      exact h.shared j (hw.length ▸ hj)
  · by_cases hself : j = i
    · rw [hself, put_here, hw.here]
    · rw [put_there _ _ (hne j hself), hw.there j hself]
      exact h.data j (hw.length ▸ hj)
  · rw [hw.length]
    by_cases hself : p = lay.addr i
    · exact ⟨i, hi, hself.symm⟩
    · refine h.only p ?_
      rwa [Locks.Shared, put_there _ _ fun heq => hself (JobLock.job.inj heq)] at hp

/-! Runs of the server's operations. -/

theorem exec_runs {o : Op} {e : Env} {a : Ans o} {w' : World} {marks : List Mark} {sys : Sys}
    (h : exec codec e t sys.world o = some (a, w', marks)) :
    Runs (machine codec) t (call o) sys a ⟨w', marks ++ sys.history⟩ :=
  Runs.perform_iff.mpr ⟨e, marks, trivial, h, rfl⟩

variable (codec) in
theorem get_runs (sys : Sys) (j : Nat) (f : JobField) :
    ∃ sys', Runs (machine codec) t (call (.getJob j f)) sys
    (f.read (sys.world.job j)) sys' ∧ sys'.world = sys.world :=
  ⟨_, exec_runs (e := {}) rfl, rfl⟩

variable (codec) in
theorem set_runs (sys : Sys) (j : Nat) (u : JobUpdate) (now : Nat) :
    ∃ sys', Runs (machine codec) t (call (.setJob j u)) sys () sys' ∧
    sys'.world = sys.world.updateJob j fun job => u.apply now job :=
  ⟨_, exec_runs (e := { now := now }) rfl, rfl⟩

variable (codec) in
theorem cancel_runs (sys : Sys) (j : Nat) : ∃ sys',
    Runs (machine codec) t (call (.requestCancel j)) sys
    (sys.world.job j).requestCancel.2 sys' ∧ sys'.world = sys.world.updateJob j fun job =>
      job.requestCancel.1 :=
  ⟨_, exec_runs (e := {}) rfl, rfl⟩

variable (codec lay) in
/-- A call about one job, on the server's model. -/
theorem task_runs {b : JobCall} {p : JobPtr} (hp : b.pointers = [p]) (sys : Sys)
    (hlt : lay.place p < sys.world.jobs.length) (now : Nat) :
    ∃ sys', Runs (machine codec) t (b.task lay) sys
      (b.outcome now (sys.world.job (lay.place p))).1 sys' ∧
      Rewritten (lay.place p) (b.outcome now (sys.world.job (lay.place p))).2 sys.world
        sys'.world := by
  have hset : ∀ u : JobUpdate, ∃ sys',
    Runs (machine codec) t (call (.setJob (lay.place p) u)) sys () sys' ∧
      Rewritten (lay.place p) (u.apply now (sys.world.job (lay.place p))) sys.world sys'.world := by
    intro u
    obtain ⟨sys', hruns, hworld⟩ := set_runs codec (t := t) sys (lay.place p) u now
    exact ⟨sys', hruns, .of_update hlt hworld⟩
  have hget : ∀ (β : Type) (f : JobField) (g : f.Val → β), ∃ sys', Runs (machine codec) t
        (call (.getJob (lay.place p) f) >>= fun v => (.ret (g v) : StegaPng.Task β)) sys
        (g (f.read (sys.world.job (lay.place p)))) sys' ∧
      Rewritten (lay.place p) (sys.world.job (lay.place p)) sys.world sys'.world := by
    intro β f g
    obtain ⟨sys', hruns, hworld⟩ := get_runs codec (t := t) sys (lay.place p) f
    exact ⟨sys', Runs.bind_iff.mpr ⟨_, _, hruns, .ret _ _⟩, .of_eq _ hworld⟩
  cases b with
  | create => cases hp
  | find => cases hp
  | requestCancel q =>
    obtain rfl : q = p := List.singleton_inj.mp hp
    obtain ⟨sys', hruns, hworld⟩ := cancel_runs codec (t := t) sys (lay.place q)
    exact ⟨sys', hruns, .of_update hlt hworld⟩
  | setState q st =>
    obtain rfl : q = p := List.singleton_inj.mp hp
    exact hset _
  | setResult q result =>
    obtain rfl : q = p := List.singleton_inj.mp hp
    exact hset _
  | setStoredPath q path =>
    obtain rfl : q = p := List.singleton_inj.mp hp
    exact hset _
  | setOutputPath q path =>
    obtain rfl : q = p := List.singleton_inj.mp hp
    exact hset _
  | setResultMeta q kind size filename =>
    obtain rfl : q = p := List.singleton_inj.mp hp
    exact hset _
  | cancelItem q owner_fd =>
    obtain rfl : q = p := List.singleton_inj.mp hp
    obtain ⟨sys₁, hread, hworld⟩ := get_runs codec (t := t) sys (lay.place q) .record
    by_cases howner : (sys.world.job (lay.place q)).owner_fd = owner_fd
    · have houtcome : (JobCall.cancelItem q owner_fd).outcome now (sys.world.job (lay.place q)) =
          ((sys.world.job (lay.place q)).requestCancel.2,
            (sys.world.job (lay.place q)).requestCancel.1) := if_pos howner
      obtain ⟨sys₂, hruns, hworld₂⟩ := cancel_runs codec (t := t) sys₁ (lay.place q)
      rw [hworld] at hruns hworld₂
      have hrest : Runs (machine codec) t (if (sys.world.job (lay.place q)).owner_fd = owner_fd then
          call (.requestCancel (lay.place q)) else
            return false) sys₁ (sys.world.job (lay.place q)).requestCancel.2 sys₂ := by
        rw [if_pos howner]
        exact hruns
      rw [houtcome]
      exact ⟨sys₂, Runs.bind_iff.mpr ⟨_, _, hread, hrest⟩, .of_update hlt hworld₂⟩
    · have houtcome : (JobCall.cancelItem q owner_fd).outcome now (sys.world.job (lay.place q)) =
          (false, sys.world.job (lay.place q)) := if_neg howner
      have hrest : Runs (machine codec) t (if (sys.world.job (lay.place q)).owner_fd = owner_fd then
          call (.requestCancel (lay.place q)) else return false) sys₁ false sys₁ := by
        rw [if_neg howner]
        exact .ret _ _
      rw [houtcome]
      exact ⟨sys₁, Runs.bind_iff.mpr ⟨_, _, hread, hrest⟩, .of_eq _ hworld⟩
  | getState q =>
    obtain rfl : q = p := List.singleton_inj.mp hp
    exact hget _ .state id
  | isCancelRequested q =>
    obtain rfl : q = p := List.singleton_inj.mp hp
    exact hget _ .cancelRequested id
  | getResult q =>
    obtain rfl : q = p := List.singleton_inj.mp hp
    exact hget _ .result id
  | getPayload q =>
    obtain rfl : q = p := List.singleton_inj.mp hp
    exact hget _ .payload id
  | getInputPath q =>
    obtain rfl : q = p := List.singleton_inj.mp hp
    exact hget _ .inputPath id
  | getStoredPath q =>
    obtain rfl : q = p := List.singleton_inj.mp hp
    exact hget _ .storedPath id
  | getOutputPath q =>
    obtain rfl : q = p := List.singleton_inj.mp hp
    exact hget _ .outputPath id
  | getResultMeta q =>
    obtain rfl : q = p := List.singleton_inj.mp hp
    exact hget _ .resultMeta id
  | getType q =>
    obtain rfl : q = p := List.singleton_inj.mp hp
    exact hget _ .type id
  | getOwnerFd q =>
    obtain rfl : q = p := List.singleton_inj.mp hp
    exact hget _ .record Job.owner_fd
  | getOwnerIp q =>
    obtain rfl : q = p := List.singleton_inj.mp hp
    exact hget _ .record Job.owner_ip
  | statsItem q st =>
    obtain rfl : q = p := List.singleton_inj.mp hp
    exact hget _ .record st.count
  | listItem q =>
    obtain rfl : q = p := List.singleton_inj.mp hp
    exact hget _ .record listEntry
  | historyItem dt q =>
    obtain rfl : q = p := List.singleton_inj.mp hp
    exact hget _ .record fun job => if job.state.Terminal then some (historyEntry dt job) else none

/-- The search in the table finds what the search in the model's list finds. -/
theorem find_range {jobs : List Job} {addr : Nat → JobPtr} (id : JobPtr → Nat)
    (job_id : Nat) (off : Nat)
    (hid : ∀ i (hi : i < jobs.length), id (addr (off + i)) = jobs[i].id) :
    (((List.range' off jobs.length).map addr).find? fun p => decide (id p = job_id)) =
      (jobs.findIdx? fun job => job.id = job_id).map fun i => addr (off + i) := by
  induction jobs generalizing off with
  | nil => rfl
  | cons job jobs ih =>
    have hhead : id (addr off) = job.id := hid 0 (Nat.zero_lt_succ _)
    have htail := ih (off + 1) fun i hi => by
      have hnext := hid (i + 1) (Nat.succ_lt_succ hi)
      rw [show off + (i + 1) = off + 1 + i by omega] at hnext
      exact hnext
    rw [List.length_cons, List.range'_succ, List.map_cons, List.find?_cons,
      List.findIdx?_cons, hhead]
    by_cases heq : job.id = job_id
    · simp [heq]
    · simp only [heq, decide_false, Bool.false_eq_true, if_false, htail, Option.map_map]
      congr 1
      funext i
      simp only [Function.comp_apply]
      congr 1
      omega

theorem Placed.lookup (h : Placed lay s w) (hnumbered : Numbered s) (job_id : UInt64) :
    (s .table).data.lookup (fun p => (s (.job p)).data.id) job_id =
      (if job_id = 0 then none else
        w.jobs.findIdx? (fun j => j.id = job_id.toNat)).map lay.addr := by
  have hslots : (List.range w.jobs.length).filterMap (s .table).data.slots =
    (List.range w.jobs.length).map lay.addr := by
    rw [← List.filterMap_eq_map]
    exact List.filterMap_congr fun i hi => h.slots i (List.mem_range.mp hi)
  have hid : ∀ i (hi : i < w.jobs.length), (s (.job (lay.addr (0 + i)))).data.id =
    w.jobs[i].id := by
    intro i hi
    rw [Nat.zero_add, h.data i hi, World.job, List.getD_eq_getElem _ _ hi]
  have hfind := find_range (fun p => (s (.job p)).data.id) job_id.toNat 0 hid
  rw [TableMemory.lookup, h.count, hslots, List.range_eq_range', hfind]
  simp only [Nat.zero_add]
  by_cases hzero : job_id = 0
  · rw [if_pos hzero, Option.map_none, Option.map_eq_none_iff, List.findIdx?_eq_none_iff]
    intro job hjob
    obtain ⟨i, hi, rfl⟩ := List.getElem_of_mem hjob
    obtain ⟨p, hp, -, hnumber⟩ := hnumbered.slots i (h.count ▸ hi)
    rw [h.slots i hi] at hp
    obtain rfl := Option.some.inj hp
    have hsame := hid i hi
    rw [Nat.zero_add, hnumber] at hsame
    subst hzero
    simp [← hsame]
  · rw [if_neg hzero]

/-! One step. -/

/-- The table's slots so far are those of the layout. -/
def Agrees (lay : Layout) (s : Memory Tid) : Prop := ∀ i < (s .table).data.count,
    (s .table).data.slots i = some (lay.addr i)

/-- Jobs that are in the table stay there. -/
def Grows (s s' : Memory Tid) : Prop :=
  (s .table).data.count ≤ (s' .table).data.count ∧ ∀ i < (s .table).data.count,
    (s' .table).data.slots i = (s .table).data.slots i

theorem Grows.of_eq (h : (s' .table).data = (s .table).data) : Grows s s' := by
  rw [Grows, h]
  exact ⟨Nat.le_refl _, fun _ _ => rfl⟩

theorem Agrees.before (h : Agrees lay s') (hgrows : Grows s s') : Agrees lay s := by
  intro i hi
  rw [← hgrows.2 i hi]
  exact h i (Nat.lt_of_lt_of_le hi hgrows.1)

theorem Operation.grows {b : JobCall} {r : b.Res} (hop : Operation s b r s') (h : Numbered s) :
    Grows s s' := by
  cases hop with
  | served now hp hfree hshared => exact .of_eq (by rw [put_there _ _ (table_ne_job _)])
  | found => exact .of_eq rfl
  | @created _ _ _ _ _ p now hfree hshared hroom habsent =>
    rw [Grows, put_there _ _ (table_ne_job p), put_here]
    exact ⟨Nat.le_succ _, fun i hi => Function.update_of_ne (Nat.ne_of_lt hi) ..⟩
  | refused hsame hgone =>
    refine .of_eq ?_
    rw [hsame .table]
    rw [h.table]
    exact fun heq => by cases heq

/-- The table has one more job. -/
theorem Placed.create (h : Placed lay s w) {p : JobPtr} (job : Job)
    (habsent : (s (.job p)).status = .absent) (hp : lay.addr w.jobs.length = p) :
    Placed lay ((s.put .table ⟨none, .shared,
      { (s .table).data.add p with next_id := (s .table).data.next_id + 1 }⟩).put (.job p)
      ⟨none, .shared, job⟩) { w with jobs := w.jobs ++ [job], next_id := w.next_id + 1 } := by
  have hold : ∀ q, Locks.Shared s (.job q) → JobLock.job q ≠ .job p := by
    rintro q hq heq
    rw [Locks.Shared, heq, habsent] at hq
    cases hq
  have hlt : ∀ {i : Nat}, i < (w.jobs ++ [job]).length → i ≠ w.jobs.length → i < w.jobs.length := by
    intro i hi hne
    rw [List.length_append, List.length_singleton] at hi
    omega
  refine ⟨?_, ?_, fun i hi => ?_, fun i hi => ?_, fun i hi => ?_, fun q hq => ?_⟩
  · rw [put_there _ _ (table_ne_job p), put_here, List.length_append, ← h.count]
    rfl
  · rw [put_there _ _ (table_ne_job p), put_here]
    exact congrArg (· + 1) h.next_id
  · rw [put_there _ _ (table_ne_job p), put_here]
    by_cases hlast : i = w.jobs.length
    · rw [hlast, hp, ← h.count]
      exact Function.update_self ..
    · have hne : i ≠ (s .table).data.count := by rwa [h.count]
      exact (Function.update_of_ne hne ..).trans (h.slots i (hlt hi hlast))
  · by_cases hlast : i = w.jobs.length
    · rw [hlast, hp, Locks.Shared, put_here]
    · have hshared := h.shared i (hlt hi hlast)
      rw [Locks.Shared, put_there _ _ (hold _ hshared), put_there _ _ (table_ne_job _).symm]
      exact hshared
  · by_cases hlast : i = w.jobs.length
    · rw [hlast, hp, put_here, World.job, List.getD_append_right _ _ _ _ (Nat.le_refl _),
        Nat.sub_self]
      rfl
    · have hshared := h.shared i (hlt hi hlast)
      rw [put_there _ _ (hold _ hshared), put_there _ _ (table_ne_job _).symm,
        h.data i (hlt hi hlast), World.job, World.job, List.getD_append _ _ _ _ (hlt hi hlast)]
  · rw [List.length_append, List.length_singleton]
    by_cases hself : q = p
    · exact ⟨w.jobs.length, Nat.lt_succ_self _, hp.trans hself.symm⟩
    · have hother : JobLock.job q ≠ .job p := fun heq => hself (JobLock.job.inj heq)
      rw [Locks.Shared, put_there _ _ hother, put_there _ _ (table_ne_job _).symm] at hq
      obtain ⟨i, hi, hq⟩ := h.only q hq
      exact ⟨i, Nat.lt_succ_of_lt hi, hq⟩

variable (codec) in
/-- A call, on the server's model. -/
theorem Operation.task_runs {b : JobCall} {r : b.Res} (hop : Operation s b r s')
    (hnumbered : Numbered s) (hagrees : Agrees lay s') {sys : Sys} (h : Placed lay s sys.world) :
    ∃ sys', Runs (machine codec) t (b.task lay) sys r sys' ∧ Placed lay s' sys'.world := by
  cases hop with
  | @served _ p now hp hfree hshared =>
    obtain ⟨i, hi, rfl⟩ := h.only p hshared
    obtain ⟨sys', hruns, hworld⟩ :=
      Locked.task_runs codec lay (t := t) hp sys (by rw [lay.back]; exact hi) now
    rw [lay.back] at hruns hworld
    rw [h.data i hi]
    exact ⟨sys', hruns, h.serve hi hworld⟩
  | @found job_id hfree hshared =>
    rw [h.lookup hnumbered]
    exact ⟨_, Runs.bind_iff.mpr ⟨_, _, Runs.perform_iff.mpr ⟨{}, _, trivial, rfl, rfl⟩, .ret _ _⟩,
      h⟩
  | @created owner_fd owner_ip type payload input_path p now hfree hshared hroom habsent =>
    have hp : lay.addr sys.world.jobs.length = p := by
      have hslot := hagrees (s .table).data.count
        (by rw [put_there _ _ (table_ne_job p), put_here]; exact Nat.lt_succ_self _)
      rw [put_there _ _ (table_ne_job p), put_here] at hslot
      change Function.update (s .table).data.slots (s .table).data.count (some p)
        (s .table).data.count = _ at hslot
      rw [Function.update_self] at hslot
      rw [← h.count]
      exact (Option.some.inj hslot).symm
    have hexec : exec codec { now := now } t sys.world
      (.createJob owner_fd owner_ip type payload input_path) =
        some (some sys.world.jobs.length, { sys.world with
          jobs := sys.world.jobs ++
            [newJob sys.world.next_id owner_fd owner_ip type payload input_path now]
          next_id := sys.world.next_id + 1 }, [.created sys.world.jobs.length]) := by
      have hlt : ¬ sys.world.jobs.length ≥ maxJobs := by
        rw [← h.count]
        exact Nat.not_le_of_lt hroom
      simp [exec, hlt]
    rw [h.next_id, ← hp]
    refine ⟨_, Runs.bind_iff.mpr ⟨_, _, exec_runs hexec, Runs.ret_iff.mpr ⟨rfl, rfl⟩⟩, ?_⟩
    have hcreate := h.create (newJob sys.world.next_id owner_fd owner_ip type payload input_path
      now) habsent hp
    rw [h.next_id, ← hp] at hcreate
    exact hcreate
  | @refused owner_fd owner_ip type payload input_path _ hsame hgone =>
    have hkept : ∀ l, Locks.Shared s l → s' l = s l := by
      intro l hl
      refine hsame l fun habsent => ?_
      rw [Locks.Shared, habsent] at hl
      cases hl
    refine ⟨_, Runs.bind_iff.mpr ⟨none, sys, Runs.perform_iff.mpr
      ⟨{ ok := false }, [], trivial, rfl, rfl⟩, .ret _ _⟩, ?_⟩
    refine h.of_same (by rw [hkept _ hnumbered.table]) (fun p hp => hkept _ hp) fun p hp => ?_
    by_cases habsent : (s (.job p)).status = .absent
    · rw [Locks.Shared, hgone _ habsent] at hp
      cases hp
    · rwa [Locks.Shared, hsame _ habsent] at hp

theorem PrimProper.grows {locked : Bool} {known : List JobPtr} {o : Locks.Op objects}
    {a : Locks.Answer objects o} (ho : PrimProper locked known o)
    (hstep : Locks.effect t o s a s') :
    (s' .table).data = (s .table).data ∧ ∀ p, s' (.job p) = s (.job p) := by
  have hput : ∀ slot : Locks.Slot Tid (objects.Data JobLock.table), slot.data = (s .table).data →
      (s.put .table slot .table).data = (s .table).data ∧
        ∀ p, s.put .table slot (.job p) = s (.job p) :=
    fun slot hslot => ⟨by rw [put_here, hslot], fun p => put_there _ _ (table_ne_job p).symm⟩
  cases o with
  | lock l =>
    cases l with
    | table =>
      obtain ⟨-, -, rfl⟩ := hstep
      exact hput _ rfl
    | job p => exact ho.elim
  | alloc => exact ho.elim
  | release l how =>
    cases l with
    | table =>
      obtain ⟨-, rfl⟩ := hstep
      exact hput _ rfl
    | job p => exact ho.elim
  | act l d =>
    cases l with
    | table =>
      obtain ⟨-, -, -, rfl⟩ := hstep
      cases d with
      | readCount => exact hput _ rfl
      | readSlot i => exact hput _ rfl
      | readNextId => exact hput _ rfl
      | writeSlot i p => exact ho.elim
      | writeCount n => exact ho.elim
      | writeNextId n => exact ho.elim
    | job p => exact ho.elim
  | peek l =>
    obtain ⟨-, -, rfl⟩ := hstep
    exact ⟨rfl, fun _ => rfl⟩
  | ask i =>
    obtain rfl : s' = s := hstep
    exact ⟨rfl, fun _ => rfl⟩

variable (codec lay) in
/-- What a program does between its calls, on the server's model. -/
theorem PrimProper.task_runs {locked : Bool} {known : List JobPtr} {o : Locks.Op objects}
    {a : Locks.Answer objects o} {bound : Nat} (ho : PrimProper locked known o)
    (hscans : PrimScans bound o) (hknown : ∀ p ∈ known, Locks.Shared s (.job p))
    (hbound : bound ≤ (s .table).data.count) (hstep : Locks.effect t o s a s') {sys : Sys}
    (h : Placed lay s sys.world) :
    ∃ sys', Runs (machine codec) t (primTask lay o) sys a sys' ∧ sys'.world = sys.world ∧
      boundAfter bound o a ≤ (s .table).data.count ∧ ∀ p ∈ primLearned o a,
        Locks.Shared s (.job p) := by
  have hnone : ∀ p : JobPtr, p ∈ ([] : List JobPtr) → Locks.Shared s (.job p) :=
    fun p hp => by cases hp
  cases o with
  | lock l => exact ⟨sys, .ret _ _, rfl, hbound, hnone⟩
  | alloc => exact ho.elim
  | release l how => exact ⟨sys, .ret _ _, rfl, hbound, hnone⟩
  | act l d =>
    cases l with
    | table =>
      obtain ⟨-, ha, -, -⟩ := hstep
      cases d with
      | readCount =>
        obtain rfl : a = sys.world.jobs.length := ha.trans h.count
        refine ⟨_, Runs.perform_iff.mpr ⟨{}, [], trivial, rfl, rfl⟩, rfl, ?_, hnone⟩
        exact Nat.max_le.mpr ⟨hbound, h.count ▸ Nat.le_refl _⟩
      | readSlot i =>
        have hi : i < sys.world.jobs.length := h.count ▸ Nat.lt_of_lt_of_le hscans hbound
        obtain rfl : a = some (lay.addr i) := ha.trans (h.slots i hi)
        refine ⟨sys, .ret _ _, rfl, hbound, fun p hp => ?_⟩
        obtain rfl : p = lay.addr i := by simpa [primLearned] using hp
        exact h.shared i hi
      | readNextId =>
        obtain rfl : a = sys.world.next_id := ha.trans h.next_id
        exact ⟨_, Runs.perform_iff.mpr ⟨{}, [], trivial, rfl, rfl⟩, rfl, hbound, hnone⟩
      | writeSlot i p => exact ho.elim
      | writeCount n => exact ho.elim
      | writeNextId n => exact ho.elim
    | job p => exact ho.elim
  | peek l =>
    cases l with
    | table => exact ho.elim
    | job p =>
      obtain ⟨-, ha, -⟩ := hstep
      obtain ⟨i, hi, rfl⟩ := h.only p (hknown p ho)
      obtain ⟨sys', hruns, hworld⟩ := get_runs codec (t := t) sys i .id
      have hid : a = (sys.world.job i).id := by
        rw [ha, h.data i hi]
      refine ⟨sys', ?_, hworld, hbound, hnone⟩
      rw [hid]
      change Runs (machine codec) t (call (.getJob (lay.place (lay.addr i)) .id)) sys _ sys'
      rw [lay.back]
      exact hruns
  | ask i => exact hscans.elim

/-! Whole runs. -/

variable {Loc : Type} {known : Loc → List JobPtr} {prog : Tid → Loc → JobClient (Option Loc)}
  {first : Tid → Option Loc}
  {c : Config (Locks.Op objects) (Locks.Answer objects) Tid (Memory Tid) Loc}
  {c' c₂ : CallConfig Tid Loc} {cs : Config Op Ans Tid Sys Loc}

/-- The threads of the server's model. -/
abbrev served (lay : Layout) (prog : Tid → Loc → JobClient (Option Loc)) :
    Tid → Loc → StegaPng.Task (Option Loc) :=
  fun t l => serverTask lay (prog t l)

structure Mirrors (known : Loc → List JobPtr) (lay : Layout) (c : CallConfig Tid Loc)
    (cs : Config Op Ans Tid Sys Loc) : Prop where
  placed : Placed lay c.state cs.state.world
  threads : ∀ t, cs.thread t = (c.thread t).map (serverTask lay)
  clients : ∀ t q, c.thread t = some q → ∃ locked known' bound,
    Proper (TurnOver known) locked known' q ∧ Scans bound q ∧
    (∀ p ∈ known', Locks.Shared c.state (.job p)) ∧ bound ≤ (c.state .table).data.count

theorem reachable_bind {M : Machine Op Ans Tid Sys} {body : Tid → Loc → StegaPng.Task (Option Loc)}
    {p : StegaPng.Task α} {k : α → StegaPng.Task (Option Loc)} {a : α} {sys : Sys}
    (ht : cs.thread t = some (p >>= k)) (h : Runs M t p cs.state a sys) :
    Config.Reachable M body cs (cs.put t (some (k a)) sys) := by
  induction p generalizing cs with
  | ret b =>
    obtain ⟨rfl, rfl⟩ := Runs.ret_iff.mp h
    have hput : cs.put t (some (k a)) cs.state = cs := Locks.put_self ht
    rw [hput]
  | op o rest ih =>
    obtain ⟨b, sys₁, hstep, hrest⟩ := Runs.op_iff.mp h
    have hput : (cs.put t (some (rest b >>= k)) sys₁).thread t = some (rest b >>= k) := if_pos rfl
    have hmore := ih b hput hrest
    rw [Config.put_put] at hmore
    exact .head (.op ht hstep) hmore

theorem Operation.later {b : JobCall} {r : b.Res} (hop : Operation s b r s') {p : JobPtr}
    (hp : Locks.Shared s (.job p)) :
    Locks.Shared s' (.job p) := by
  cases hop with
  | served now _ hfree hshared => exact shared_put (fun _ => rfl) hp
  | found => exact hp
  | created now hfree hshared hroom habsent =>
    exact shared_put (fun _ => rfl) (shared_put (fun _ => rfl) hp)
  | refused hsame hgone =>
    have hexists : (s (.job p)).status ≠ .absent := fun habsent => by
      rw [Locks.Shared, habsent] at hp
      cases hp
    rw [Locks.Shared, hsame _ hexists]
    exact hp

theorem Operation.learned {b : JobCall} {r : b.Res} (hop : Operation s b r s')
    (hnumbered : Numbered s) (h : Placed lay s w) {p : JobPtr} (hp : p ∈ b.learned r) :
    Locks.Shared s' (.job p) := by
  cases hop with
  | served now hpointers hfree hshared =>
    cases b with
    | create => cases hpointers
    | find => cases hpointers
    | _ => cases hp
  | found =>
    have hfound := Option.mem_toList.mp hp
    rw [h.lookup hnumbered] at hfound
    obtain ⟨i, hi, rfl⟩ := Option.map_eq_some_iff.mp hfound
    split at hi
    · cases hi
    · exact h.shared i (List.findIdx?_eq_some_iff_findIdx_eq.mp hi).1
  | created now hfree hshared hroom habsent =>
    obtain rfl := Option.some.inj (Option.mem_toList.mp hp)
    rw [Locks.Shared, put_here]
  | refused hsame hgone => cases hp

/-- One thread has moved on. -/
theorem Mirrors.put (h : Mirrors known lay c' cs) {t : Tid} {G : Option (JobClient (Option Loc))}
    {s₂ : Memory Tid} {sys : Sys} (hplaced : Placed lay s₂ sys.world)
    (hlater : ∀ p, Locks.Shared c'.state (.job p) → Locks.Shared s₂ (.job p))
    (hcount : (c'.state .table).data.count ≤ (s₂ .table).data.count)
    (hG : ∀ q, G = some q → ∃ locked known' bound, Proper (TurnOver known) locked known' q ∧
      Scans bound q ∧
      (∀ p ∈ known', Locks.Shared s₂ (.job p)) ∧ bound ≤ (s₂ .table).data.count) :
    Mirrors known lay (c'.put t G s₂) (cs.put t (G.map (serverTask lay)) sys) := by
  refine ⟨hplaced, fun u => ?_, fun u q hq => ?_⟩
  · by_cases hu : u = t
    · rw [Locks.put_thread_self _ _ _ hu, Locks.put_thread_self _ _ _ hu]
    · rw [Locks.put_thread_other _ _ _ hu, Locks.put_thread_other _ _ _ hu]
      exact h.threads u
  · by_cases hu : u = t
    · rw [Locks.put_thread_self _ _ _ hu] at hq
      exact hG q hq
    · rw [Locks.put_thread_other _ _ _ hu] at hq
      obtain ⟨locked, known', bound, hproper, hscans, hknown, hbound⟩ := h.clients u q hq
      exact ⟨locked, known', bound, hproper, hscans, fun p hp => hlater p (hknown p hp),
        hbound.trans hcount⟩

variable (codec) in
theorem Mirrors.step (hprog : ∀ t l, Proper (TurnOver known) false (known l) (prog t l))
    (hscans : ∀ t l, Scans 0 (prog t l)) (h : Mirrors known lay c' cs)
    (hnumbered : Numbered c'.state) (hagrees : Agrees lay c₂.state)
    (hstep : Config.Step (operations Tid) prog c' c₂) :
    ∃ cs₂, Config.Reachable (machine codec) (served lay prog) cs cs₂ ∧
      Mirrors known lay c₂ cs₂ := by
  cases hstep with
  | @op t o k a s₂ ht hs =>
    obtain ⟨locked, known', bound, hproper, hscan, hknown, hbound⟩ := h.clients t _ ht
    have hthread := h.threads t
    rw [ht] at hthread
    cases o with
    | call b =>
      have hop : Operation c'.state b a s₂ := hs
      obtain ⟨sys, hruns, hplaced⟩ := hop.task_runs codec (t := t) hnumbered hagrees h.placed
      refine ⟨_, reachable_bind hthread hruns,
        h.put hplaced (fun p hp => hop.later hp) (hop.grows hnumbered).1 fun q hq => ?_⟩
      obtain rfl := Option.some.inj hq
      refine ⟨_, _, bound, hproper.2 a, hscan a, fun p hp => ?_,
        hbound.trans (hop.grows hnumbered).1⟩
      rcases List.mem_append.mp hp with hnew | hold
      · exact hop.learned hnumbered h.placed hnew
      · exact hop.later (hknown p hold)
    | prim o =>
      obtain ⟨hdata, hjobs⟩ := hproper.1.grows hs
      have hlater : ∀ p, Locks.Shared c'.state (.job p) → Locks.Shared s₂ (.job p) := fun p hp => by
        rw [Locks.Shared, hjobs p]
        exact hp
      obtain ⟨sys, hruns, hworld, hbound', hlearned⟩ :=
        hproper.1.task_runs codec lay hscan.1 hknown hbound hs h.placed
      have hplaced : Placed lay s₂ sys.world := by
        rw [hworld]
        refine h.placed.of_same hdata (fun p _ => hjobs p) fun p hp => ?_
        rwa [Locks.Shared, hjobs p] at hp
      refine ⟨_, reachable_bind hthread hruns, h.put hplaced hlater (by rw [hdata]) fun q hq => ?_⟩
      obtain rfl := Option.some.inj hq
      refine ⟨_, _, _, hproper.2 a, hscan.2 a, fun p hp => ?_, by rw [hdata]; exact hbound'⟩
      rcases List.mem_append.mp hp with hnew | hold
      · exact hlater p (hlearned p hnew)
      · exact hlater p (hknown p hold)
  | @again t l ht =>
    obtain ⟨locked, known', bound, hproper, hscan, hknown, hbound⟩ := h.clients t _ ht
    have hthread := h.threads t
    rw [ht] at hthread
    refine ⟨_, .single (.again hthread), h.put (G := some (prog t l)) h.placed
      (fun p hp => hp) (Nat.le_refl _) fun q hq => ?_⟩
    obtain rfl := Option.some.inj hq
    exact ⟨_, _, 0, hprog t l, hscans t l, fun p hp => hknown p (hproper.2 l rfl hp), Nat.zero_le _⟩
  | @halt t ht =>
    have hthread := h.threads t
    rw [ht] at hthread
    exact ⟨_, .single (.halt hthread), h.put (G := none) h.placed (fun p hp => hp) (Nat.le_refl _)
      fun q hq => by cases hq⟩

theorem exists_layout (h : Numbered s) : ∃ lay : Layout, Agrees lay s := by
  let n := (s .table).data.count
  let a : Nat → Nat := fun i => ((s .table).data.slots i).getD 0
  let addr : Nat → Nat := fun i => if i < n then a i else (Finset.range n).sup a + 1 + i
  have hsmall : ∀ i, i < n → a i < (Finset.range n).sup a + 1 := fun i hi =>
    Nat.lt_succ_of_le (Finset.le_sup (f := a) (Finset.mem_range.mpr hi))
  have hhere : ∀ i, i < n → addr i = a i := fun i hi => if_pos hi
  have hthere : ∀ i, ¬ i < n → addr i = (Finset.range n).sup a + 1 + i := fun i hi => if_neg hi
  have hid : ∀ i, i < n → (s .table).data.slots i = some (a i) ∧
    (s (.job (a i))).data.id = i + 1 := by
    intro i hi
    obtain ⟨p, hp, -, hnumber⟩ := h.slots i hi
    have hslot : a i = p := by simp [a, hp]
    rw [hslot]
    exact ⟨hp, hnumber⟩
  have hinj : Function.Injective addr := by
    intro i j hij
    by_cases hi : i < n
    · by_cases hj : j < n
      · rw [hhere i hi, hhere j hj] at hij
        have hsame := (hid i hi).2
        rw [hij, (hid j hj).2] at hsame
        omega
      · rw [hhere i hi, hthere j hj] at hij
        have hlt := hsmall i hi
        omega
    · by_cases hj : j < n
      · rw [hthere i hi, hhere j hj] at hij
        have hlt := hsmall j hj
        omega
      · rw [hthere i hi, hthere j hj] at hij
        omega
  refine ⟨⟨addr, Function.invFun addr, Function.leftInverse_invFun hinj⟩, fun i hi => ?_⟩
  rw [(hid i hi).1, ← hhere i hi]

variable (codec) in
theorem ReachedByOperations.mirrored
    (hprog : ∀ t l, Proper (TurnOver known) false (known l) (prog t l))
    (hscans : ∀ t l, Scans 0 (prog t l)) (hfirst : ∀ t l, first t = some l → known l = [])
    (files : Bytes → Option Bytes) (h : ReachedByOperations prog first c')
    (hagrees : Agrees lay c'.state) :
    ∃ cs, Config.Reachable (machine codec) (served lay prog)
      ⟨⟨{ files := files }, []⟩, fun t => (first t).map (served lay prog t)⟩ cs ∧
        Mirrors known lay c' cs := by
  induction h with
  | refl =>
    refine ⟨_, .refl, ⟨rfl, rfl, fun i hi => (by cases hi), fun i hi => (by cases hi),
      fun i hi => (by cases hi),
      fun p hp => (by cases hp)⟩,
      fun t => (Option.map_map ..).symm, fun t q hq => ?_⟩
    obtain ⟨l, hl, rfl⟩ := Option.map_eq_some_iff.mp hq
    refine ⟨false, known l, 0, hprog t l, hscans t l, fun p hp => ?_, Nat.zero_le _⟩
    rw [hfirst t l hl] at hp
    cases hp
  | @tail c₁ c₂ hpre hstep ih =>
    have hbefore : ReachedByOperations prog first c₁ := hpre
    have hnumbered := (hbefore.numbered hprog).1
    have hgrows : Grows c₁.state c₂.state := by
      obtain ⟨-, hproper⟩ := hbefore.numbered hprog
      cases hstep with
      | @op t o k a s₂ ht hs =>
        obtain ⟨locked, known', hq⟩ := hproper t _ ht
        cases o with
        | call b => exact Operation.grows hs hnumbered
        | prim o => exact .of_eq (PrimProper.grows hq.1 hs).1
      | again ht => exact .of_eq rfl
      | halt ht => exact .of_eq rfl
    obtain ⟨cs, hreach, hmirrors⟩ := ih (hagrees.before hgrows)
    obtain ⟨cs₂, hmore, hmirrors'⟩ := hmirrors.step codec hprog hscans hnumbered hagrees hstep
    exact ⟨cs₂, hreach.trans hmore, hmirrors'⟩

/-- What the server's model says of the memory where nobody is at work. -/
structure Served (lay : Layout)
    (c : Config (Locks.Op objects) (Locks.Answer objects) Tid (Memory Tid) Loc)
    (cs : Config Op Ans Tid Sys Loc) : Prop where
  table : (c.state .table).owner = none → (c.state .table).data.count = cs.state.world.jobs.length ∧
    (c.state .table).data.next_id = cs.state.world.next_id ∧
      ∀ i < cs.state.world.jobs.length, (c.state .table).data.slots i = some (lay.addr i)
  jobs : ∀ i < cs.state.world.jobs.length, (c.state (.job (lay.addr i))).owner = none →
    (c.state (.job (lay.addr i))).data = cs.state.world.job i
  returned : ∀ t next, c.thread t = some (.ret next) → cs.thread t = some (.ret next)
  left : ∀ t, c.thread t = none → cs.thread t = none

/-- The programs with `job.c` statement by statement do nothing that the same programs with
the server's operations do not do. -/
theorem job_functions_served (codec : PngCodec) (files : Bytes → Option Bytes)
    (hprog : ∀ t l, Proper (TurnOver known) false (known l) (prog t l))
    (hscans : ∀ t l, Scans 0 (prog t l)) (hfirst : ∀ t l, first t = some l → known l = [])
    (h : Reached prog first c) :
    ∃ lay cs, Config.Reachable (machine codec) (served lay prog)
      ⟨⟨{ files := files }, []⟩, fun t => (first t).map (served lay prog t)⟩ cs ∧
        Served lay c cs := by
  obtain ⟨helds, c', hreach, hsim⟩ := h.reduced hprog
  have hsame := sameOutside_of hsim
  obtain ⟨lay, hagrees⟩ := exists_layout (hreach.operations.numbered hprog).1
  obtain ⟨cs, hserved, hmirrors⟩ :=
    hreach.operations.mirrored codec hprog hscans hfirst files hagrees
  refine ⟨lay, cs, hserved, fun hfree => ?_, fun i hi hfree => ?_, fun t next ht => ?_,
    fun t ht => ?_⟩
  · rw [← hsame.free _ hfree]
    exact ⟨hmirrors.placed.count, hmirrors.placed.next_id, hmirrors.placed.slots⟩
  · rw [← hsame.free _ hfree]
    exact hmirrors.placed.data i hi
  · rw [hmirrors.threads t, hsame.returned t next ht]
    rfl
  · rw [hmirrors.threads t, hsame.left t ht]
    rfl

theorem creatorAndReader_scans (t : Tid) (l : Unit) : Scans 0 (creatorAndReader t l) := by
  have hnext : Scans 0 nextJobId :=
    ⟨trivial, fun _ => ⟨trivial, fun _ => ⟨trivial, fun _ => trivial⟩⟩⟩
  have hrange : ∀ count, ∀ i ∈ List.range count, i < count := fun count i hi => List.mem_range.mp hi
  cases t with
  | main => exact (jobCall_scans _).bind fun _ => hnext.bind fun _ => trivial
  | worker i =>
    refine Scans.bind (underTable_scans fun count => ?_) fun _ => ?_
    · refine scanJobs_scans (fun _ _ => ?_) (hrange count) _
      exact (jobCall_scans _).bind fun _ => trivial
    refine Scans.bind (underTable_scans fun count => ?_) fun _ => ?_
    · split
      · trivial
      · refine scanJobs_scans (fun out _ => (jobCall_scans _).bind fun item => ?_) (hrange count) _
        split <;> trivial
    refine Scans.bind (underTable_scans fun count => Scans.bind ?_ fun _ => trivial) fun _ => ?_
    · refine scanJobs_scans (fun acc _ => (jobCall_scans _).bind fun item => ?_)
        (fun i hi => hrange count i (List.mem_reverse.mp hi)) _
      split <;> trivial
    refine Scans.bind (underTable_scans fun count => ?_) fun _ => ?_
    · refine scanJobs_scans (fun _ _ => ?_) (hrange count) _
      exact (jobCall_scans _).bind fun _ => trivial
    refine (jobCall_scans (.find 1)).bind fun r => ?_
    cases r with
    | none => trivial
    | some job => exact (jobCall_scans _).bind fun _ => trivial

theorem job_functions_served_contended : ∃ c lay cs, Reached creatorAndReader (fun _ => some ()) c ∧
    (c.state .table).owner = some (.worker 0) ∧
    Config.Reachable (machine rawCodec) (served lay creatorAndReader)
      ⟨⟨{ files := fun _ => none }, []⟩, fun t => some (served lay creatorAndReader t ())⟩ cs ∧
        Served lay c cs := by
  obtain ⟨c, hreach, htable, -, -⟩ := creatorAndReader_contend
  obtain ⟨lay, cs, hserved, hsame⟩ :=
    job_functions_served rawCodec (fun _ => none) creatorAndReader_proper creatorAndReader_scans
      (fun _ _ _ => rfl) hreach
  exact ⟨c, lay, cs, hreach, htable, hserved, hsame⟩

end Locked

end StegaPng
