import StegaPng.JobMemory

/-! The mutexes of `job.c`: whoever touches a job or the table has its mutex, the table's
mutex always comes first, and no thread waits for ever. -/

namespace StegaPng

namespace Locked

open Interleaving

/-- A job's mutex may be taken under the table's. -/
def below (l l' : JobLock) : Prop := l = .table ∧ l' ≠ .table

theorem below_ordered : WellFounded fun l l' => below l' l := by
  have hjob : ∀ p, Acc (fun l l' => below l' l) (JobLock.job p) := by
    intro p
    refine Acc.intro _ fun l hl => ?_
    cases hl.1
  refine ⟨fun l => ?_⟩
  cases l with
  | job p => exact hjob p
  | table =>
    refine Acc.intro _ fun l hl => ?_
    cases l with
    | table => exact absurd rfl hl.2
    | job p => exact hjob p

/-- The table is in order: its slots lead to jobs that others may use. -/
structure TableMemory.Sound (m : TableMemory) (P : JobLock → Prop) : Prop where
  count : m.count ≤ maxJobs
  slots : ∀ i p, m.slots i = some p → P (.job p)

def jobRules : Locks.Rules objects where
  below := below
  inv
    | .table, m, P => TableMemory.Sound m P
    | .job _, _, _ => True
  mono := by
    intro l data P P' hP h
    cases l with
    | table => exact ⟨h.count, fun i p hi => hP _ (h.slots i p hi)⟩
    | job p => trivial
  ordered := below_ordered

/-- The pointers that a call is given. -/
def JobCall.pointers : JobCall → List JobPtr
  | .create .. => []
  | .find _ => []
  | .requestCancel p => [p]
  | .setState p _ => [p]
  | .setResult p _ => [p]
  | .setStoredPath p _ => [p]
  | .setOutputPath p _ => [p]
  | .setResultMeta p _ _ _ => [p]
  | .getState p => [p]
  | .isCancelRequested p => [p]
  | .getResult p => [p]
  | .getPayload p => [p]
  | .getInputPath p => [p]
  | .getStoredPath p => [p]
  | .getOutputPath p => [p]
  | .getResultMeta p => [p]
  | .getOwnerFd p => [p]
  | .getOwnerIp p => [p]
  | .getType p => [p]
  | .statsItem p _ => [p]
  | .listItem p => [p]
  | .historyItem _ p => [p]
  | .cancelItem p _ => [p]

/-- The pointers that a call returns. -/
def JobCall.learned : (b : JobCall) → b.Res → List JobPtr
  | .create .., r => r.toList
  | .find _, r => r.toList
  | _, _ => []

/-- The calls that take the table's mutex. -/
def JobCall.TakesTable : JobCall → Prop
  | .create .. => True
  | .find _ => True
  | _ => False

/-- What a program may do with the table between its calls. -/
def PrimProper (locked : Bool) (known : List JobPtr) : Locks.Op objects → Prop
  | .lock .table => locked = false
  | .release .table .unlock => locked = true
  | .act .table .readCount => locked = true
  | .act .table (.readSlot _) => locked = true
  | .act .table .readNextId => locked = true
  | .peek (.job p) => p ∈ known
  | .ask _ => True
  | _ => False

def lockedAfter (locked : Bool) : Locks.Op objects → Bool
  | .lock _ => true
  | .release _ _ => false
  | _ => locked

def primLearned : (o : Locks.Op objects) → Locks.Answer objects o → List JobPtr
  | .act .table (.readSlot _), (r : Option JobPtr) => r.toList
  | _, _ => []

/-- The program only passes pointers on that it got from the table, takes the mutex of the
table once at a time, and does not change the table by itself. `post` speaks of whether it
has the table's mutex, of the pointers it knows and of what it returns. -/
def Proper {α : Type} (post : Bool → List JobPtr → α → Prop) : Bool → List JobPtr →
    JobClient α → Prop
  | locked, known, .ret a => post locked known a
  | locked, known, .op (.call b) k =>
    ((∀ p ∈ b.pointers, p ∈ known) ∧ (b.TakesTable → locked = false)) ∧
      ∀ r, Proper post locked (b.learned r ++ known) (k r)
  | locked, known, .op (.prim o) k => PrimProper locked known o ∧
      ∀ a, Proper post (lockedAfter locked o) (primLearned o a ++ known) (k a)

/-! The sections under a job's mutex. -/

/-- What a section does: it reads the job, writes to it, but not to its `id`, or asks for
something from outside. -/
def SectionOp (p : JobPtr) (o : Locks.Op objects) : Prop :=
  (∃ c, o = .act (.job p) (.read c)) ∨ (∃ c v, c ≠ .id ∧ o = .act (.job p) (.write c v)) ∨
    ∃ i, o = .ask i

variable {α β : Type} {p : JobPtr}

theorem readCell_section (p : JobPtr) (c : JobCell) : (readCell p c).All (SectionOp p) :=
  ⟨.inl ⟨c, rfl⟩, fun _ => trivial⟩

theorem writeCell_section (p : JobPtr) {c : JobCell} (v : c.Val) (hc : c ≠ .id) :
    (writeCell p c v).All (SectionOp p) :=
  ⟨.inr (.inl ⟨c, v, hc, rfl⟩), fun _ => trivial⟩

theorem clock_section (p : JobPtr) : clock.All (SectionOp p) :=
  ⟨.inr (.inr ⟨_, rfl⟩), fun _ => trivial⟩

theorem section_ite {c : Prop} [Decidable c] {a b : JobTask α} (ha : a.All (SectionOp p))
    (hb : b.All (SectionOp p)) :
    (if c then a else b).All (SectionOp p) := by
  split
  · exact ha
  · exact hb

theorem stateIs_section (p : JobPtr) (a b : JobState) : (stateIs p a b).All (SectionOp p) :=
  (readCell_section p .state).bind fun _ =>
    section_ite (Prog.all_pure _) ((readCell_section p .state).bind fun _ => Prog.all_pure _)

theorem stateTerminal_section (p : JobPtr) : (stateTerminal p).All (SectionOp p) :=
  (stateIs_section p .done .failed).bind fun _ =>
    section_ite (Prog.all_pure _) ((readCell_section p .state).bind fun _ => Prog.all_pure _)

/-- A call that does not take the table's mutex is one section. -/
theorem JobCall.one_section (b : JobCall) (hb : ¬ b.TakesTable) :
    ∃ p body, b.pointers = [p] ∧ b.body = jobLocked p body ∧ body.All (SectionOp p) := by
  have hread : ∀ p c, (readCell p c).All (SectionOp p) := readCell_section
  cases b with
  | create => exact absurd trivial hb
  | find => exact absurd trivial hb
  | requestCancel p =>
    refine ⟨p, _, rfl, rfl, (stateIs_section p _ _).bind fun _ => section_ite ?_ (Prog.all_pure _)⟩
    exact (writeCell_section p _ (by decide)).bind fun _ => Prog.all_pure _
  | setState p s =>
    refine ⟨p, _, rfl, rfl, (writeCell_section p (c := .state) s (by decide)).bind fun _ =>
      section_ite ?_ (section_ite ?_ (Prog.all_pure _))⟩
    · exact (clock_section p).bind fun _ => writeCell_section p _ (by decide)
    · exact (clock_section p).bind fun _ => writeCell_section p _ (by decide)
  | setResult p => exact ⟨p, _, rfl, rfl, writeCell_section p _ (by decide)⟩
  | setStoredPath p => exact ⟨p, _, rfl, rfl, writeCell_section p _ (by decide)⟩
  | setOutputPath p => exact ⟨p, _, rfl, rfl, writeCell_section p _ (by decide)⟩
  | setResultMeta p kind size filename =>
    refine ⟨p, _, rfl, rfl, (writeCell_section p _ (by decide)).bind fun _ =>
      (writeCell_section p _ (by decide)).bind fun _ => ?_⟩
    cases filename with
    | none => exact writeCell_section p _ (by decide)
    | some filename => exact writeCell_section p _ (by decide)
  | getState p => exact ⟨p, _, rfl, rfl, hread p _⟩
  | isCancelRequested p => exact ⟨p, _, rfl, rfl, hread p _⟩
  | getResult p => exact ⟨p, _, rfl, rfl, hread p _⟩
  | getPayload p => exact ⟨p, _, rfl, rfl, hread p _⟩
  | getInputPath p => exact ⟨p, _, rfl, rfl, hread p _⟩
  | getStoredPath p => exact ⟨p, _, rfl, rfl, hread p _⟩
  | getOutputPath p => exact ⟨p, _, rfl, rfl, hread p _⟩
  | getResultMeta p =>
    exact ⟨p, _, rfl, rfl, (hread p _).bind fun _ => (hread p _).bind fun _ => (hread p _).bind
      fun _ => Prog.all_pure _⟩
  | getOwnerFd p => exact ⟨p, _, rfl, rfl, hread p _⟩
  | getOwnerIp p => exact ⟨p, _, rfl, rfl, hread p _⟩
  | getType p => exact ⟨p, _, rfl, rfl, hread p _⟩
  | statsItem p st =>
    refine ⟨p, _, rfl, rfl, (hread p _).bind fun _ => (stateIs_section p _ _).bind fun _ =>
      section_ite ?_ (Prog.all_pure _)⟩
    exact (hread p _).bind fun _ => (hread p _).bind fun _ => Prog.all_pure _
  | listItem p =>
    exact ⟨p, _, rfl, rfl, (hread p _).bind fun _ => (hread p _).bind fun _ => (hread p _).bind
      fun _ => (hread p _).bind fun _ =>
      Prog.all_pure _⟩
  | historyItem dt p =>
    refine ⟨p, _, rfl, rfl, (stateTerminal_section p).bind fun _ =>
      section_ite ?_ (Prog.all_pure _)⟩
    exact (hread p _).bind fun _ => (hread p _).bind fun _ => (hread p _).bind fun _ =>
      (hread p _).bind fun _ =>
      (hread p _).bind fun _ => (hread p _).bind fun _ => Prog.all_pure _
  | cancelItem p owner_fd =>
    refine ⟨p, _, rfl, rfl, (hread p _).bind fun _ => section_ite ?_ (Prog.all_pure _)⟩
    refine (stateIs_section p _ _).bind fun _ => section_ite ?_ (Prog.all_pure _)
    exact (writeCell_section p _ (by decide)).bind fun _ => Prog.all_pure _

/-! What a thread has between the operations of its program. -/

variable {T Loc : Type} {t : T} {s s' σ : Memory T} {locked : Bool} {known : List JobPtr}
  {knows : Loc → JobLock → Prop}

theorem table_ne_job (p : JobPtr) : JobLock.table ≠ .job p := fun heq => nomatch heq

theorem shared_put {l l' : JobLock} {slot : Locks.Slot T (objects.Data l)}
    (hslot : Locks.Shared s l → slot.status = .shared) (hl' : Locks.Shared s l') :
    Locks.Shared (s.put l slot) l' := by
  by_cases hne : l' = l
  · subst hne
    rw [Locks.Shared, put_here]
    exact hslot hl'
  · rwa [Locks.Shared, put_there _ _ hne]

/-- The thread has the table's mutex or none, and the jobs it knows are for everyone. -/
structure Stands (t : T) (locked : Bool) (known : List JobPtr) (s : Memory T) : Prop where
  owner : ∀ l, (s l).owner = some t ↔ locked = true ∧ l = .table
  table : Locks.Shared s .table
  sound : locked = true → (s .table).data.Sound (Locks.Shared s)
  known : ∀ p ∈ known, Locks.Shared s (.job p)

theorem Stands.owns (h : Stands t true known s) : (s .table).owner = some t :=
  (h.owner _).mpr ⟨rfl, rfl⟩

theorem Stands.rely (h : Stands t locked known s) (hrely : Locks.Rely t s s') :
    Stands t locked known s' where
  owner l := by
    constructor
    · exact fun hl => (h.owner l).mp (hrely.others l hl)
    · intro hl
      have howner := (h.owner l).mpr hl
      rw [hrely.mine l howner, howner]
  table := (hrely.later _ h.table).1
  sound hlocked := by
    have howner := (h.owner .table).mpr ⟨hlocked, rfl⟩
    rw [hrely.mine _ howner]
    exact jobRules.mono (l := .table) (fun l hl => (hrely.later l hl).1) (h.sound hlocked)
  known p hp := (hrely.later _ (h.known p hp)).1

/-- Whoever stands so may change what is not its own, and give back what it has taken since. -/
theorem Stands.of_same (h : Stands t locked known s)
    (howner : ∀ l, (s' l).owner = some t ↔ (s l).owner = some t)
    (hshared : ∀ l, Locks.Shared s l → Locks.Shared s' l)
    (hdata : locked = true → (s' .table).data = (s .table).data) :
    Stands t locked known s' where
  owner l := (howner l).trans (h.owner l)
  table := hshared _ h.table
  sound hlocked := by
    rw [hdata hlocked]
    exact jobRules.mono (l := .table) hshared (h.sound hlocked)
  known p hp := hshared _ (h.known p hp)

variable {Q : α → Memory T → Prop}

/-- A section under a job's mutex. -/
theorem jobLocked_wp {body : JobTask α} (hbody : body.All (SectionOp p))
    (h : Stands t locked known σ) (hp : Locks.Shared σ (.job p))
    (hsteady : Locks.Steady jobRules t Q) (hQ : ∀ a σ', Stands t locked known σ' → Q a σ') :
    (jobRules.conduct T knows).wp t (jobLocked p body) Q σ := by
  refine Locks.wp_lock hp (fun l' hl' => ⟨((h.owner l').mp hl'.1).2, fun heq => nomatch heq⟩)
    fun σ₁ hrely hinv => ?_
  have h₁ := h.rely hrely
  have hp₁ : Locks.Shared σ₁ (.job p) := (hrely.later _ hp).1
  have hfree : (σ₁ (.job p)).owner ≠ some t := fun howner => nomatch ((h₁.owner _).mp howner).2
  change (jobRules.conduct T knows).wp t (body >>=
    fun a => .op (.release (.job p) .unlock) fun _ => .ret a) Q _
  refine Discipline.wp_bind.mpr (Locks.wp_acts (fun l : objects.Lock => l = JobLock.job p)
    (fun (l : objects.Lock) v v' => objects.fixed l v' = objects.fixed l v)
      (hbody.mono fun o ho => ?_) (fun _ _ => rfl)
    (fun h h' => h'.trans h) (fun l hl => ?_) (fun _ _ hrel => hrel) (Locks.steady_wp hsteady)
      fun a σ₂ hout hsame => ?_)
  · rcases ho with ⟨c, rfl⟩ | ⟨c, v, hc, rfl⟩ | ⟨i, rfl⟩
    · exact .inl ⟨_, _, rfl, rfl, fun _ => rfl⟩
    · refine .inl ⟨_, _, rfl, rfl, fun job => ?_⟩
      cases c with
      | id => exact absurd rfl hc
      | _ => rfl
    · exact .inr ⟨i, rfl⟩
  · subst hl
    simp
  · have howner : (σ₂ (.job p)).owner = some t := by simp [(hsame (.job p)).1]
    have hshared : Locks.Shared σ₂ (.job p) := by
      rw [Locks.Shared, (hsame (.job p)).2.1]
      rw [put_here]
      exact hp₁
    refine Locks.wp_unlock hsteady
      ⟨howner, hshared⟩ trivial (hQ a _ (h₁.of_same (fun l => ?_) (fun l hl => ?_) fun _ => ?_))
    · by_cases hl : l = .job p
      · subst hl
        simp [Locks.Slot.release, hfree]
      · rw [put_there _ _ hl, hout l hl, put_there _ _ hl]
    · by_cases hne : l = .job p
      · subst hne
        simp [Locks.Shared, Locks.Slot.release, Locks.Release.after]
      · rw [Locks.Shared, put_there _ _ hne, hout l hne, put_there _ _ hne]
        exact hl
    · rw [put_there _ _ (table_ne_job p), hout _ (table_ne_job p), put_there _ _ (table_ne_job p)]

/-! Operations on the table. -/

theorem lockTable_wp {k : Unit → JobTask α} (h : Stands t false known σ)
    (hk : ∀ σ', Stands t true known σ' → (jobRules.conduct T knows).wp t (k ()) Q σ') :
    (jobRules.conduct T knows).wp t (.op (.lock .table) k) Q σ := by
  refine Locks.wp_lock h.table (fun l' hl' => ?_) fun σ₁ hrely hsound => hk _ ?_
  · obtain ⟨hlocked, -⟩ := (h.owner l').mp hl'.1
    cases hlocked
  · have h₁ := h.rely hrely
    have hshared : ∀ l, Locks.Shared σ₁ l →
      Locks.Shared (σ₁.put .table { σ₁ .table with owner := some t }) l :=
      fun l hl => shared_put id hl
    refine ⟨fun l => ?_, hshared _ h₁.table, fun _ => ?_, fun p hp => hshared _ (h₁.known p hp)⟩
    · by_cases hne : l = .table
      · subst hne
        simp
      · rw [put_there _ _ hne]
        simp [h₁.owner l, hne]
    · rw [put_here]
      exact jobRules.mono (l := .table) hshared hsound

theorem unlockTable_wp {k : Unit → JobTask α} (h : Stands t true known σ)
    (hsteady : Locks.Steady jobRules t Q)
    (hk : ∀ σ', Stands t false known σ' → (jobRules.conduct T knows).wp t (k ()) Q σ') :
    (jobRules.conduct T knows).wp t (.op (.release .table .unlock) k) Q σ := by
  refine Locks.wp_unlock hsteady ⟨(h.owner _).mpr ⟨rfl, rfl⟩, h.table⟩ (h.sound rfl) (hk _ ?_)
  have hshared : ∀ l, Locks.Shared σ l →
    Locks.Shared (σ.put .table ((σ .table).release .unlock)) l :=
    fun l hl => shared_put (fun _ => rfl) hl
  refine ⟨fun l => ?_, hshared _ h.table, fun hlocked => absurd hlocked Bool.false_ne_true,
    fun p hp => hshared _ (h.known p hp)⟩
  by_cases hne : l = .table
  · subst hne
    simp [Locks.Slot.release]
  · rw [put_there _ _ hne]
    simp [h.owner l, hne]

/-- To read the table changes nothing. -/
theorem readTable_wp {d : TableAccess} {k : d.Answer → JobTask α}
    (howner : (σ .table).owner = some t) (hsteady : Locks.Steady jobRules t Q)
    (hread : (d.act (σ .table).data).2 = (σ .table).data)
    (hk : (jobRules.conduct T knows).wp t (k (d.act (σ .table).data).1) Q σ) :
    (jobRules.conduct T knows).wp t (.op (.act .table d) k) Q σ := by
  refine Locks.wp_act hsteady howner (fun _ => rfl) ?_
  have hsame : σ.put .table { σ .table with data := (objects.act .table d (σ .table).data).2 } =
    σ := by
    have hdata : (objects.act .table d (σ .table).data).2 = (σ .table).data := hread
    rw [hdata]
    exact Function.update_eq_self ..
  rw [hsame]
  exact hk

theorem findFrom_wp (job_id : UInt64) (i left : Nat) {Q : Option JobPtr → Memory T → Prop}
    (h : Stands t true known σ) (hsteady : Locks.Steady jobRules t Q)
    (hQ : ∀ r σ', Stands t true (r.toList ++ known) σ' → Q r σ') :
    (jobRules.conduct T knows).wp t (findFrom job_id i left) Q σ := by
  induction left generalizing i with
  | zero => exact hQ none σ h
  | succ left ih =>
    refine readTable_wp (d := .readSlot i) h.owns hsteady rfl ?_
    have hslot : (TableAccess.act (.readSlot i) (σ .table).data).1 = (σ .table).data.slots i := rfl
    rw [hslot]
    cases hp : (σ .table).data.slots i with
    | none => exact ih (i + 1)
    | some job =>
      have hjob : Locks.Shared σ (.job job) := (h.sound rfl).slots i job hp
      refine Locks.wp_peek hsteady hjob ?_
      change (jobRules.conduct T knows).wp t (if objects.fixed (.job job) (σ (.job job)).data =
        job_id.toNat then .ret (some job)
        else findFrom job_id (i + 1) left) Q σ
      by_cases hid : objects.fixed (.job job) (σ (.job job)).data = job_id.toNat
      · rw [if_pos hid]
        refine hQ (some job) σ ⟨h.owner, h.table, h.sound, fun p hp => ?_⟩
        rcases List.mem_append.mp hp with hmem | hmem
        · obtain rfl : p = job := by simpa using hmem
          exact hjob
        · exact h.known p hmem
      · rw [if_neg hid]
        exact ih (i + 1)

theorem findLocked_wp (job_id : UInt64) {Q : Option JobPtr → Memory T → Prop}
    (h : Stands t false known σ) (hsteady : Locks.Steady jobRules t Q)
    (hQ : ∀ r σ', Stands t false (r.toList ++ known) σ' → Q r σ') :
    (jobRules.conduct T knows).wp t (findLocked job_id) Q σ := by
  refine lockTable_wp h fun σ₁ h₁ => readTable_wp (d := .readCount) h₁.owns hsteady rfl ?_
  change (jobRules.conduct T knows).wp t (findFrom job_id 0 (σ₁ .table).data.count >>= fun r =>
    .op (.release .table .unlock) fun _ => .ret r) Q σ₁
  refine Discipline.wp_bind.mpr (findFrom_wp job_id 0 _ h₁ (Locks.steady_wp hsteady)
    fun r σ₂ h₂ => ?_)
  exact unlockTable_wp h₂ hsteady fun σ₃ h₃ => hQ r σ₃ h₃

/-! The creation of a job. -/

/-- What the statements that fill a job in do. -/
def FillOp (p : JobPtr) (o : Locks.Op objects) : Prop :=
  (∃ d, o = .act (.job p) d) ∨ (o = .act .table .readNextId ∨
    ∃ n, o = .act .table (.writeNextId n)) ∨ ∃ i, o = .ask i

theorem fillJob_all (p : JobPtr) (owner_fd : Int) (owner_ip : Bytes) (type : JobType)
    (payload input_path : Option Bytes) :
    (fillJob p owner_fd owner_ip type payload input_path).All (FillOp p) := by
  have hwrite : ∀ c v, (writeCell p c v).All (FillOp p) :=
    fun c v => ⟨.inl ⟨_, rfl⟩, fun _ => trivial⟩
  have hread : readNextId.All (FillOp p) := ⟨.inr (.inl (.inl rfl)), fun _ => trivial⟩
  have hnext : ∀ n, (writeNextId n).All (FillOp p) :=
    fun n => ⟨.inr (.inl (.inr ⟨n, rfl⟩)), fun _ => trivial⟩
  have hclock : clock.All (FillOp p) := ⟨.inr (.inr ⟨_, rfl⟩), fun _ => trivial⟩
  have hpayload : (writePayload p payload).All (FillOp p) := by
    cases payload with
    | none => trivial
    | some payload => exact hwrite _ _
  have hinput : (writeInputPath p input_path).All (FillOp p) := by
    cases input_path with
    | none => trivial
    | some input_path => exact hwrite _ _
  unfold fillJob
  refine hread.bind fun id => (hwrite _ _).bind fun _ => hread.bind fun next_id =>
    (hnext _).bind fun _ => ?_
  refine (hwrite _ _).bind fun _ => (hwrite _ _).bind fun _ => (hwrite _ _).bind fun _ =>
    (hwrite _ _).bind fun _ => ?_
  refine (hwrite _ _).bind fun _ => (hwrite _ _).bind fun _ => (hwrite _ _).bind fun _ =>
    hpayload.bind fun _ => ?_
  exact hinput.bind fun _ => hclock.bind fun _ => hwrite _ _

/-- What becomes of the table while a job is filled in. -/
def SameSlots : (l : objects.Lock) → objects.Data l → objects.Data l → Prop
  | .table, m, m' => m'.slots = m.slots ∧ m'.count = m.count
  | .job _, _, _ => True

/-- The thread has a block of its own besides, and the table's mutex if `locked` says so. -/
structure Making (t : T) (locked : Bool) (p : JobPtr) (known : List JobPtr)
    (s : Memory T) : Prop where
  owner : ∀ l, (s l).owner = some t ↔ locked = true ∧ l = .table ∨ l = .job p
  secret : (s (.job p)).status = .secret
  table : Locks.Shared s .table
  sound : locked = true → (s .table).data.Sound (Locks.Shared s)
  known : ∀ q ∈ known, Locks.Shared s (.job q)

theorem Making.rely {p : JobPtr} (h : Making t locked p known s) (hrely : Locks.Rely t s s') :
    Making t locked p known s' where
  owner l := by
    constructor
    · exact fun hl => (h.owner l).mp (hrely.others l hl)
    · intro hl
      have howner := (h.owner l).mpr hl
      rw [hrely.mine l howner, howner]
  secret := by
    rw [hrely.mine _ ((h.owner _).mpr (.inr rfl))]
    exact h.secret
  table := (hrely.later _ h.table).1
  sound hlocked := by
    rw [hrely.mine _ ((h.owner .table).mpr (.inl ⟨hlocked, rfl⟩))]
    exact jobRules.mono (l := .table) (fun l hl => (hrely.later l hl).1) (h.sound hlocked)
  known q hq := (hrely.later _ (h.known q hq)).1

theorem Making.locks (h : Making t false p known s)
    (hsound : (s .table).data.Sound (Locks.Shared s)) :
    Making t true p known (s.put .table { s .table with owner := some t }) := by
  have hshared : ∀ l, Locks.Shared s l →
    Locks.Shared (s.put .table { s .table with owner := some t }) l :=
    fun l hl => shared_put id hl
  refine ⟨fun l => ?_, ?_, hshared _ h.table, fun _ => ?_, fun q hq => hshared _ (h.known q hq)⟩
  · by_cases htab : l = .table
    · subst htab
      simp
    · rw [put_there _ _ htab]
      simp [h.owner l, htab]
  · rw [put_there _ _ (table_ne_job p).symm]
    exact h.secret
  · rw [put_here]
    exact jobRules.mono (l := .table) hshared hsound

theorem Making.unlocks (h : Making t true p known s) :
    Making t false p known (s.put .table ((s .table).release .unlock)) := by
  have hshared : ∀ l, Locks.Shared s l →
    Locks.Shared (s.put .table ((s .table).release .unlock)) l :=
    fun l hl => shared_put (fun _ => rfl) hl
  refine ⟨fun l => ?_, ?_, hshared _ h.table, fun hlocked => absurd hlocked Bool.false_ne_true,
    fun q hq => hshared _ (h.known q hq)⟩
  · by_cases htab : l = .table
    · subst htab
      simp [Locks.Slot.release]
    · rw [put_there _ _ htab]
      simp [h.owner l, htab]
  · rw [put_there _ _ (table_ne_job p).symm]
    exact h.secret

/-- The new block is given back. -/
theorem freeJob_wp {k : Unit → JobTask α} (h : Making t false p known σ)
    (hsteady : Locks.Steady jobRules t Q)
    (hk : ∀ σ', Stands t false known σ' → (jobRules.conduct T knows).wp t (k ()) Q σ') :
    (jobRules.conduct T knows).wp t (.op (.release (.job p) .free) k) Q σ := by
  refine Locks.wp_free hsteady ((h.owner _).mpr (.inr rfl)) h.secret (hk _ ?_)
  have hshared : ∀ l, Locks.Shared σ l →
    Locks.Shared (σ.put (.job p) ((σ (.job p)).release .free)) l :=
    fun l hl => shared_put (fun hself => by rw [Locks.Shared, h.secret] at hself; cases hself) hl
  refine ⟨fun l => ?_, hshared _ h.table, fun hlocked => absurd hlocked Bool.false_ne_true,
    fun q hq => hshared _ (h.known q hq)⟩
  by_cases hne : l = .job p
  · subst hne
    simp [Locks.Slot.release]
  · rw [put_there _ _ hne]
    simp [h.owner l, hne]

/-- The table with one more job. -/
def TableMemory.add (m : TableMemory) (p : JobPtr) : TableMemory :=
  { m with slots := Function.update m.slots m.count (some p), count := m.count + 1 }

theorem TableMemory.Sound.add {m : TableMemory} {P P' : JobLock → Prop} (h : m.Sound P)
    (hcount : m.count < maxJobs) (hP : ∀ l, P l → P' l) (hp : P' (.job p)) :
    (m.add p).Sound P' := by
  refine ⟨hcount, fun i q hi => ?_⟩
  by_cases hlast : i = m.count
  · subst hlast
    obtain rfl : p = q := by simpa [TableMemory.add] using hi
    exact hp
  · have hold : m.slots i = some q := by simpa [TableMemory.add, hlast] using hi
    exact hP _ (h.slots i q hold)

/-- The new job is in the table and for everyone. -/
theorem Making.published (h : Making t true p known s) (hcount : (s .table).data.count < maxJobs)
    (htable : s' .table = { s .table with data := (s .table).data.add p })
    (hjob : s' (.job p) = (s (.job p)).release .share)
    (hother : ∀ l, l ≠ .table → l ≠ .job p → s' l = s l) : Stands t true (p :: known) s' := by
  have hnew : Locks.Shared s' (.job p) := by
    rw [Locks.Shared, hjob]
    rfl
  have hshared : ∀ l, Locks.Shared s l → Locks.Shared s' l := by
    intro l hl
    by_cases hself : l = .job p
    · subst hself
      exact hnew
    · by_cases htab : l = .table
      · subst htab
        rw [Locks.Shared, htable]
        exact hl
      · rw [Locks.Shared, hother l htab hself]
        exact hl
  refine ⟨fun l => ?_, hshared _ h.table, fun _ => ?_, fun q hq => ?_⟩
  · by_cases hself : l = .job p
    · subst hself
      rw [hjob]
      simp [Locks.Slot.release]
    · by_cases htab : l = .table
      · subst htab
        rw [htable]
        simp [h.owner]
      · rw [hother l htab hself]
        simp [h.owner l, hself, htab]
  · rw [htable]
    exact (h.sound rfl).add hcount hshared hnew
  · rcases List.mem_cons.mp hq with rfl | hmem
    · exact hnew
    · exact hshared _ (h.known q hmem)

theorem publishJob_wp {Q : Option JobPtr → Memory T → Prop} (h : Making t true p known σ)
    (hcount : (σ .table).data.count < maxJobs) (hsteady : Locks.Steady jobRules t Q)
    (hQ : ∀ σ', Stands t false (p :: known) σ' → Q (some p) σ') :
    (jobRules.conduct T knows).wp t (publishJob p) Q σ := by
  have howner : (σ .table).owner = some t := (h.owner _).mpr (.inl ⟨rfl, rfl⟩)
  have hne := table_ne_job p
  refine readTable_wp (d := .readCount) howner hsteady rfl
    (Locks.wp_act hsteady howner (fun _ => rfl) ?_)
  refine readTable_wp (d := .readCount) (by rw [put_here]; exact howner) hsteady rfl
    (Locks.wp_act hsteady (by rw [put_here]; exact howner) (fun _ => rfl) ?_)
  refine Locks.wp_share hsteady ?_ ?_ trivial ?_
  · rw [put_there _ _ hne.symm, put_there _ _ hne.symm]
    exact (h.owner _).mpr (.inr rfl)
  · rw [put_there _ _ hne.symm, put_there _ _ hne.symm]
    exact h.secret
  · refine unlockTable_wp (h.published hcount ?_ ?_ fun l htab hself => ?_) hsteady
      fun σ' hσ' => hQ σ' hσ'
    · rw [put_there _ _ hne, put_here, put_here]
      rfl
    · rw [put_here, put_there _ _ hne.symm, put_there _ _ hne.symm]
    · rw [put_there _ _ hself, put_there _ _ htab, put_there _ _ htab]

theorem fillJob_wp (owner_fd : Int) (owner_ip : Bytes) (type : JobType)
    (payload input_path : Option Bytes) {Q : Unit → Memory T → Prop} (h : Making t true p known σ)
    (hsteady : Locks.Steady jobRules t Q) (hQ : ∀ σ', Making t true p known σ' →
      (σ' .table).data.count = (σ .table).data.count → Q () σ') :
    (jobRules.conduct T knows).wp t (fillJob p owner_fd owner_ip type payload input_path) Q σ := by
  refine Locks.wp_acts (fun l : objects.Lock => l = JobLock.table ∨ l = JobLock.job p) SameSlots
    ((fillJob_all p owner_fd owner_ip type payload input_path).mono fun o ho => ?_)
      (fun l v => ?_) (fun {l v v' v''} hv hv' => ?_)
    (fun l hl => ?_) (fun {l v v'} hl hshared hsame => ?_) hsteady fun _ σ' hout hsame =>
      hQ σ' ?_ (hsame .table).2.2.2
  · rcases ho with ⟨d, rfl⟩ | (rfl | ⟨n, rfl⟩) | ⟨i, rfl⟩
    · exact .inl ⟨_, _, rfl, .inr rfl, fun _ => trivial⟩
    · exact .inl ⟨_, _, rfl, .inl rfl, fun _ => ⟨rfl, rfl⟩⟩
    · exact .inl ⟨_, _, rfl, .inl rfl, fun _ => ⟨rfl, rfl⟩⟩
    · exact .inr ⟨i, rfl⟩
  · cases l with
    | table => exact ⟨rfl, rfl⟩
    | job q => trivial
  · cases l with
    | table => exact ⟨hv'.1.trans hv.1, hv'.2.trans hv.2⟩
    | job q => trivial
  · exact (h.owner l).mpr (hl.imp_left fun htab => ⟨rfl, htab⟩)
  · rcases hl with rfl | rfl
    · rfl
    · rw [Locks.Shared, h.secret] at hshared
      cases hshared
  · have hshared : ∀ l, Locks.Shared σ l → Locks.Shared σ' l := fun l hl => (hsame l).2.1.trans hl
    refine ⟨fun l => by rw [(hsame l).1]; exact h.owner l, (hsame _).2.1.trans h.secret,
      hshared _ h.table, fun _ => ?_, fun q hq => hshared _ (h.known q hq)⟩
    have hslots := (hsame .table).2.2
    exact ⟨hslots.2 ▸ (h.sound rfl).count, fun i q hi =>
      hshared _ ((h.sound rfl).slots i q (hslots.1 ▸ hi))⟩

theorem createJob_wp (owner_fd : Int) (owner_ip : Bytes) (type : JobType)
    (payload input_path : Option Bytes) {Q : Option JobPtr → Memory T → Prop}
    (h : Stands t false known σ) (hsteady : Locks.Steady jobRules t Q)
    (hQ : ∀ r σ', Stands t false (r.toList ++ known) σ' → Q r σ') :
    (jobRules.conduct T knows).wp t
      (jobTableCreateJob owner_fd owner_ip type payload input_path) Q σ := by
  refine Locks.wp_alloc hsteady (hQ none σ h) fun σ₁ p hrely hfree habsent =>
    Locks.wp_ask hsteady fun ok => ?_
  have hne := table_ne_job p
  have h₁ := h.rely hrely
  have hmaking : Making t false p known (σ₁.put (.job p) ⟨some t, .secret, zeroJob⟩) := by
    have hshared : ∀ l, Locks.Shared σ₁ l →
      Locks.Shared (σ₁.put (.job p) ⟨some t, .secret, zeroJob⟩) l :=
      fun l hl => shared_put (fun hself => by rw [Locks.Shared, habsent] at hself; cases hself) hl
    refine ⟨fun l => ?_, by rw [put_here], hshared _ h₁.table,
      fun hlocked => absurd hlocked Bool.false_ne_true, fun q hq => hshared _ (h₁.known q hq)⟩
    by_cases hself : l = .job p
    · subst hself
      simp
    · rw [put_there _ _ hself]
      simp [h₁.owner l, hself]
  cases ok with
  | false => exact freeJob_wp hmaking hsteady fun σ₂ h₂ => hQ none σ₂ h₂
  | true =>
    refine Locks.wp_lock hmaking.table (fun l hl => ?_) fun σ₂ hrely₂ hsound => ?_
    · rcases (hmaking.owner l).mp hl.1 with ⟨hlocked, -⟩ | rfl
      · cases hlocked
      · have hsecret := hmaking.secret
        rw [hl.2] at hsecret
        cases hsecret
    · have hlocked := (hmaking.rely hrely₂).locks hsound
      refine readTable_wp (d := .readCount) (by rw [put_here]) hsteady rfl ?_
      have hcount : (TableAccess.readCount.act
        ((σ₂.put .table { σ₂ .table with owner := some t }) .table).data).1 =
          (σ₂ .table).data.count := by
        rw [put_here]
        rfl
      rw [hcount]
      change (jobRules.conduct T knows).wp t (if (σ₂ .table).data.count ≥ maxJobs then
          (do unlock .table; free p; pure none : JobTask (Option JobPtr))
        else fillJob p owner_fd owner_ip type payload input_path >>= fun _ => publishJob p) Q _
      by_cases hfull : (σ₂ .table).data.count ≥ maxJobs
      · rw [if_pos hfull]
        refine Locks.wp_unlock hsteady ⟨(hlocked.owner _).mpr (.inl ⟨rfl, rfl⟩),
          hlocked.table⟩ (hlocked.sound rfl) ?_
        exact freeJob_wp hlocked.unlocks hsteady fun σ₃ h₃ => hQ none σ₃ h₃
      · rw [if_neg hfull]
        refine Discipline.wp_bind.mpr (fillJob_wp owner_fd owner_ip type payload input_path hlocked
          (Locks.steady_wp hsteady)
          fun σ₃ h₃ hsame => ?_)
        refine publishJob_wp h₃ ?_ hsteady fun σ₄ h₄ => hQ (some p) σ₄ h₄
        rw [hsame, put_here]
        exact Nat.lt_of_not_le hfull

/-! Whole programs. -/

theorem JobCall.body_wp (b : JobCall) {Q : b.Res → Memory T → Prop} (h : Stands t locked known σ)
    (hpointers : ∀ p ∈ b.pointers, p ∈ known) (htable : b.TakesTable → locked = false)
    (hsteady : Locks.Steady jobRules t Q)
    (hQ : ∀ r σ', Stands t locked (b.learned r ++ known) σ' → Q r σ') :
    (jobRules.conduct T knows).wp t b.body Q σ := by
  by_cases hb : b.TakesTable
  · obtain rfl := htable hb
    cases b with
    | create owner_fd owner_ip type payload input_path =>
      exact createJob_wp owner_fd owner_ip type payload input_path h hsteady hQ
    | find job_id => exact findLocked_wp job_id h hsteady hQ
    | _ => exact hb.elim
  · obtain ⟨p, body, hp, hbody, hall⟩ := b.one_section hb
    have hlearned : ∀ r, b.learned r = [] := by
      intro r
      cases b with
      | create => exact absurd trivial hb
      | find => exact absurd trivial hb
      | _ => rfl
    rw [hbody]
    refine jobLocked_wp hall h (h.known p (hpointers p (by simp [hp]))) hsteady
      fun r σ' h' => hQ r σ' ?_
    rw [hlearned r]
    exact h'

/-- An operation of a program between its calls. -/
theorem PrimProper.wp {o : Locks.Op objects} {k : Locks.Answer objects o → JobTask α}
    (ho : PrimProper locked known o) (h : Stands t locked known σ)
    (hsteady : Locks.Steady jobRules t Q)
    (hk : ∀ a σ', Stands t (lockedAfter locked o) (primLearned o a ++ known) σ' →
      (jobRules.conduct T knows).wp t (k a) Q σ') :
    (jobRules.conduct T knows).wp t (.op o k) Q σ := by
  cases o with
  | lock l =>
    cases l with
    | table =>
      obtain rfl : locked = false := ho
      exact lockTable_wp h fun σ' h' => hk () σ' h'
    | job p => exact ho.elim
  | alloc => exact ho.elim
  | release l how =>
    cases l with
    | table =>
      cases how with
      | unlock =>
        obtain rfl : locked = true := ho
        exact unlockTable_wp h hsteady fun σ' h' => hk () σ' h'
      | share => exact ho.elim
      | free => exact ho.elim
    | job p => exact ho.elim
  | act l d =>
    cases l with
    | table =>
      cases d with
      | readCount =>
        obtain rfl : locked = true := ho
        exact readTable_wp (d := .readCount) h.owns hsteady rfl (hk _ σ h)
      | readSlot i =>
        obtain rfl : locked = true := ho
        refine readTable_wp (d := .readSlot i) h.owns hsteady rfl
          (hk _ σ ⟨h.owner, h.table, h.sound, fun p hp => ?_⟩)
        rcases List.mem_append.mp hp with hmem | hmem
        · exact (h.sound rfl).slots i p (Option.mem_toList.mp hmem)
        · exact h.known p hmem
      | readNextId =>
        obtain rfl : locked = true := ho
        exact readTable_wp (d := .readNextId) h.owns hsteady rfl (hk _ σ h)
      | writeSlot i p => exact ho.elim
      | writeCount n => exact ho.elim
      | writeNextId n => exact ho.elim
    | job p => exact ho.elim
  | peek l =>
    cases l with
    | table => exact ho.elim
    | job p => exact Locks.wp_peek hsteady (h.known p ho) (hk _ σ h)
  | ask i => exact Locks.wp_ask hsteady fun a => hk a σ h

theorem Proper.wp {post : Bool → List JobPtr → α → Prop} {q : JobClient α}
    (hq : Proper post locked known q) (h : Stands t locked known σ)
    (hsteady : Locks.Steady jobRules t Q)
    (hQ : ∀ locked known a σ', post locked known a → Stands t locked known σ' → Q a σ') :
    (jobRules.conduct T knows).wp t (q.compile JobCall.body) Q σ := by
  induction q generalizing locked known σ with
  | ret a => exact hQ locked known a σ hq h
  | op call k ih =>
    cases call with
    | call b =>
      obtain ⟨⟨hpointers, htable⟩, hrest⟩ := hq
      exact Discipline.wp_bind.mpr (b.body_wp h hpointers htable (Locks.steady_wp hsteady)
        fun r σ' h' => ih r (hrest r) h')
    | prim o => exact PrimProper.wp hq.1 h hsteady fun a σ' h' => ih a (hq.2 a) h'

theorem Proper.bind {post : Bool → List JobPtr → α → Prop} {post' : Bool → List JobPtr → β → Prop}
    {q : JobClient α} {f : α → JobClient β} (hq : Proper post locked known q)
    (hf : ∀ locked known a, post locked known a → Proper post' locked known (f a)) :
    Proper post' locked known (q >>= f) := by
  induction q generalizing locked known with
  | ret a => exact hf locked known a hq
  | op call k ih =>
    cases call with
    | call b => exact ⟨hq.1, fun r => ih r (hq.2 r)⟩
    | prim o => exact ⟨hq.1, fun a => ih a (hq.2 a)⟩

/-! The functions of `job.c` that are more than one call. -/

/-- The program ends with the table's mutex, or without it. -/
def Ends (locked : Bool) : Bool → List JobPtr → α → Prop := fun locked' _ _ => locked' = locked

theorem jobCall_proper (b : JobCall) (hpointers : ∀ p ∈ b.pointers, p ∈ known)
    (htable : b.TakesTable → locked = false) :
    Proper (Ends locked) locked known (jobCall b) := ⟨⟨hpointers, htable⟩, fun _ => rfl⟩

theorem jobTableFind_proper (job_id : UInt64) :
    Proper (fun locked known r => locked = false ∧ ∀ p ∈ Option.toList r,
      p ∈ known) false known (jobTableFind job_id) := by
  unfold jobTableFind
  split
  · exact ⟨rfl, fun p hp => by cases hp⟩
  · exact ⟨⟨fun p hp => (by cases hp), fun _ => rfl⟩,
      fun r => ⟨rfl, fun p hp => List.mem_append_left _ hp⟩⟩

theorem scanJobs_proper {visit : α → JobPtr → JobClient (α × Bool)}
    (hvisit : ∀ known acc p, p ∈ known → Proper (Ends true) true known (visit acc p))
    (slots : List Nat) (acc : α) :
    Proper (Ends true) true known (scanJobs visit slots acc) := by
  induction slots generalizing known acc with
  | nil => rfl
  | cons i slots ih =>
    refine ⟨rfl, fun r => ?_⟩
    cases r with
    | none => exact ih acc
    | some job =>
      refine (hvisit _ acc job (List.mem_cons_self ..)).bind fun locked known visited hlocked => ?_
      obtain rfl : locked = true := hlocked
      split
      · exact ih visited.1
      · rfl

theorem underTable_proper {body : Nat → JobClient α}
    (hbody : ∀ n known, Proper (Ends true) true known (body n)) :
    Proper (Ends false) false known (underTable body) := by
  refine ⟨rfl, fun _ => ⟨rfl, fun n => (hbody n _).bind fun locked known a hlocked => ?_⟩⟩
  obtain rfl : locked = true := hlocked
  exact ⟨rfl, fun _ => rfl⟩

/-- A visit that is one call about the job. -/
theorem visit_proper {b : JobCall} {p : JobPtr} (hp : b.pointers = [p]) (hb : ¬ b.TakesTable)
    (hknown : p ∈ known) {f : b.Res → JobClient β}
    (hf : ∀ known r, Proper (Ends true) true known (f r)) :
    Proper (Ends true) true known (jobCall b >>= f) := by
  refine (jobCall_proper b (fun q hq => ?_) fun htable => absurd htable hb).bind
    fun locked known r hlocked => ?_
  · rw [hp, List.mem_singleton] at hq
    rwa [hq]
  · obtain rfl : locked = true := hlocked
    exact hf known r

theorem jobTableCollectStats_proper : Proper (Ends false) false known jobTableCollectStats := by
  refine underTable_proper fun n known => scanJobs_proper (fun known st p hp =>
    visit_proper rfl id hp fun known st' => ?_) _ _
  rfl

theorem jobTableFormatList_proper (buffer_size : Nat) :
    Proper (Ends false) false known (jobTableFormatList buffer_size) := by
  refine underTable_proper fun n known => ?_
  split
  · rfl
  · refine scanJobs_proper (fun known out p hp => visit_proper rfl id hp fun known item => ?_) _ _
    split <;> rfl

theorem jobTableFormatHistory_proper (dt : DurationText) (buffer_size max_items : Nat) :
    Proper (Ends false) false known (jobTableFormatHistory dt buffer_size max_items) := by
  have hshow : ∀ n known, Proper (Ends true) true known
    (showHistory dt buffer_size max_items n) := by
    intro n known
    unfold showHistory
    split
    · rfl
    · refine scanJobs_proper (fun known acc p hp => visit_proper rfl id hp fun known item => ?_) _ _
      split <;> rfl
  exact underTable_proper fun n known => (hshow n known).bind fun locked known shown hlocked =>
    hlocked

theorem jobTableCancelByOwner_proper (owner_fd : Int) :
    Proper (Ends false) false known (jobTableCancelByOwner owner_fd) := by
  refine underTable_proper fun n known => scanJobs_proper (fun known count p hp =>
    visit_proper rfl id hp fun known canceled => ?_) _ _
  rfl

/-- What a turn leaves: no mutex, and for the next turn only pointers from the table. -/
def TurnOver (known : Loc → List JobPtr) (locked : Bool) (learned : List JobPtr)
    (next : Option Loc) : Prop :=
  locked = false ∧ ∀ l, next = some l → known l ⊆ learned

/-- The table before the first job. -/
def emptyTable : Memory T
  | .table => ⟨none, .shared, {}⟩
  | .job _ => ⟨none, .absent, zeroJob⟩

variable {prog : T → Loc → JobClient (Option Loc)} {first : T → Option Loc}
  {c : Config (Locks.Op objects) (Locks.Answer objects) T (Memory T) Loc}

/-- What a thread keeps in mind between turns. -/
def remembers (known : Loc → List JobPtr) (loc : Loc) (l : JobLock) : Prop :=
  l = .table ∨ ∃ p ∈ known loc, l = .job p

theorem turn_wp {known : Loc → List JobPtr} {l : Loc} {q : JobClient (Option Loc)}
    (hq : Proper (TurnOver known) false (known l) q)
    (hstart : Locks.Idle t s ∧ ∀ l', remembers known l l' → Locks.Shared s l') :
    (jobRules.conduct T (remembers known)).wp t (q.compile JobCall.body)
      ((jobRules.conduct T (remembers known)).finish t) s := by
  have hstands : Stands t false (known l) s := by
    refine ⟨fun l' => ⟨fun hl' => absurd hl' (hstart.1 l'),
      fun hl' => absurd hl'.1 Bool.false_ne_true⟩, hstart.2 _ (.inl rfl),
      fun hlocked => absurd hlocked Bool.false_ne_true, fun p hp => hstart.2 _ (.inr ⟨p, hp, rfl⟩)⟩
  have hsound : (jobRules.conduct T (remembers known)).Sound := Locks.conduct_sound
  refine hq.wp hstands (fun a s s' hfinish hrely hinv => hsound.finish_rely hfinish hrely hinv)
    fun locked learned next σ' hover hσ' => ?_
  obtain ⟨rfl, hknown⟩ := hover
  have hidle : Locks.Idle t σ' := fun l' hl' => absurd ((hσ'.owner l').mp hl').1 Bool.false_ne_true
  cases next with
  | none => exact hidle
  | some l' =>
    refine ⟨hidle, fun lock hlock => ?_⟩
    rcases hlock with rfl | ⟨p, hp, rfl⟩
    · exact hσ'.table
    · exact hσ'.known p (hknown l' rfl hp)

variable [DecidableEq T]

/-- The configurations that the threads reach from an empty table, statement by statement. -/
def Reached (prog : T → Loc → JobClient (Option Loc)) (first : T → Option Loc)
    (c : Config (Locks.Op objects) (Locks.Answer objects) T (Memory T) Loc) : Prop :=
  Config.Reachable (Locks.machine T objects) (fun t l => (prog t l).compile JobCall.body)
    ⟨emptyTable, fun t => (first t).map fun l => (prog t l).compile JobCall.body⟩ c

theorem Reached.step {t : T} {o : Locks.Op objects}
    {k : Locks.Answer objects o → JobTask (Option Loc)} {a : Locks.Answer objects o} {s' : Memory T}
    (h : Reached prog first c) (ht : c.thread t = some (.op o k))
    (hs : Locks.effect t o c.state a s') : Reached prog first (c.put t (some (k a)) s') :=
  h.tail (.op ht hs)

theorem Reached.keeps {known : Loc → List JobPtr}
    (hprog : ∀ t l, Proper (TurnOver known) false (known l) (prog t l))
    (hfirst : ∀ t l, first t = some l → known l = []) (h : Reached prog first c) :
    (jobRules.conduct T (remembers known)).Keeps c ∧
      (jobRules.conduct T (remembers known)).Ended c := by
  have hidle : ∀ t : T, Locks.Idle t (emptyTable : Memory T) := by
    intro t l
    cases l with
    | table => simp [emptyTable]
    | job p => simp [emptyTable]
  have hstart : (jobRules.conduct T (remembers known)).Keeps
      ⟨emptyTable, fun t => (first t).map fun l => (prog t l).compile JobCall.body⟩ := by
    refine ⟨⟨fun l _ => ?_, fun l _ hl => ?_⟩, fun t p hp => ?_⟩
    · cases l with
      | table => rfl
      | job p => rfl
    · cases l with
      | table => exact ⟨Nat.zero_le _, fun i p hi => by cases hi⟩
      | job p => trivial
    · obtain ⟨l, hl, rfl⟩ := Option.map_eq_some_iff.mp hp
      refine turn_wp (hprog t l) ⟨hidle t, fun l' hl' => ?_⟩
      rcases hl' with rfl | ⟨p, hp, -⟩
      · rfl
      · rw [hfirst t l hl] at hp
        cases hp
  have hbody : ∀ t l s, Locks.Inv jobRules s → (Locks.Idle t s ∧ ∀ l', remembers known l l' →
    Locks.Shared s l') →
      (jobRules.conduct T (remembers known)).wp t ((prog t l).compile JobCall.body)
        ((jobRules.conduct T (remembers known)).finish t) s :=
          fun t l s _ hs => turn_wp (hprog t l) hs
  exact ⟨hstart.reachable Locks.conduct_sound hbody h,
    Discipline.Ended.reachable Locks.conduct_sound
      (fun _ _ _ hfinish => hfinish) hbody hstart (fun t _ => hidle t) h⟩

/-- What a thread may do with the mutexes as they are. -/
def InOrder (t : T) (s : Memory T) : Locks.Op objects → Prop
  | .lock l =>
    Locks.Shared s l ∧ (s l).owner ≠ some t ∧ ∀ l', Locks.Holds t s l' → l' = .table ∧ l ≠ .table
  | .alloc => True
  | .release l _ => (s l).owner = some t
  | .act l d => (s l).owner = some t ∧
      (Locks.Shared s l → objects.fixed l (objects.act l d (s l).data).2 =
        objects.fixed l (s l).data)
  | .peek l => Locks.Shared s l
  | .ask _ => True

/-- Whatever threads do with the functions of `job.c`, each of them has the mutex of what it
touches, the mutexes are taken in one order, and the threads never wait for each other. -/
theorem job_mutexes_in_order {known : Loc → List JobPtr}
    (hprog : ∀ t l, Proper (TurnOver known) false (known l) (prog t l))
    (hfirst : ∀ t l, first t = some l → known l = []) (h : Reached prog first c) :
    (∀ t o k, c.thread t = some (.op o k) → InOrder t c.state o) ∧
      (c.Final (Locks.machine T objects) → ∀ t, c.thread t = none) := by
  obtain ⟨hkeeps, hended⟩ := h.keeps hprog hfirst
  have hgiven : ∀ i : JobInput, Nonempty i.Given := by
    intro i
    cases i with
    | clock => exact ⟨(0 : Nat)⟩
    | mutexInit => exact ⟨true⟩
    | request => exact ⟨(0 : Nat)⟩
  refine ⟨fun t o k ht => ?_, fun hfinal => Locks.all_left hgiven hkeeps hended hfinal⟩
  have hallowed : Locks.Allowed jobRules t o c.state := hkeeps.allowed Locks.conduct_sound ht
  cases o with
  | lock l =>
    refine ⟨hallowed.1, fun howner => ?_, hallowed.2⟩
    obtain ⟨htable, hne⟩ := hallowed.2 l ⟨howner, hallowed.1⟩
    exact hne htable
  | alloc => trivial
  | release l how =>
    cases how with
    | unlock => exact hallowed.1.1
    | share => exact hallowed.1
    | free => exact hallowed.1
  | act l d => exact hallowed
  | peek l => exact hallowed
  | ask i => trivial

/-- One thread creates a job, the others look for it and go through the whole table. -/
def creatorAndReader : Tid → Unit → JobClient (Option Unit)
  | .main, _ => do
    let _ ← jobCall (.create 7 (lit "10.0.0.7") .decode none none)
    let _ ← nextJobId
    pure none
  | .worker _, _ => do
    let _ ← jobTableCollectStats
    let _ ← jobTableFormatList 64
    let _ ← jobTableFormatHistory ⟨fun _ => [], fun _ => [], fun _ => []⟩ 64 5
    let _ ← jobTableCancelByOwner 7
    match ← jobTableFind 1 with
    | none => pure none
    | some job => do
      let _ ← jobCall (.setState job .running)
      pure none

theorem nextJobId_proper : Proper (Ends false) false known nextJobId :=
  ⟨rfl, fun _ => ⟨rfl, fun _ => ⟨rfl, fun _ => rfl⟩⟩⟩

theorem creatorAndReader_proper (t : Tid) (l : Unit) :
    Proper (TurnOver fun _ : Unit => []) false [] (creatorAndReader t l) := by
  have hover : ∀ known : List JobPtr, TurnOver (fun _ : Unit => []) false known none :=
    fun known => ⟨rfl, fun l hl => by cases hl⟩
  cases t with
  | main =>
    refine ⟨⟨fun p hp => (by cases hp), fun _ => rfl⟩,
      fun r => nextJobId_proper.bind fun _ _ _ hlocked => ?_⟩
    obtain rfl : _ = false := hlocked
    exact hover _
  | worker i =>
    refine jobTableCollectStats_proper.bind fun _ _ _ hlocked => ?_
    obtain rfl : _ = false := hlocked
    refine (jobTableFormatList_proper 64).bind fun _ _ _ hlocked => ?_
    obtain rfl : _ = false := hlocked
    refine (jobTableFormatHistory_proper _ 64 5).bind fun _ _ _ hlocked => ?_
    obtain rfl : _ = false := hlocked
    refine (jobTableCancelByOwner_proper 7).bind fun _ _ _ hlocked => ?_
    obtain rfl : _ = false := hlocked
    refine (jobTableFind_proper 1).bind fun _ known r hfound => ?_
    obtain ⟨rfl, hknown⟩ := hfound
    cases r with
    | none => exact hover known
    | some job =>
      refine ⟨⟨fun p hp => ?_, fun htable => htable.elim⟩, fun _ => hover _⟩
      obtain rfl : p = job := by simpa [JobCall.pointers] using hp
      exact hknown p (by simp)

/-- The reader has the table's mutex and the creator, with a block of its own, waits for it. -/
theorem creatorAndReader_contend : ∃ c, Reached creatorAndReader (fun _ => some ()) c ∧
    (c.state .table).owner = some (.worker 0) ∧ (c.state (.job 4)).owner = some .main ∧
      ∃ k, c.thread .main = some (.op (.lock .table) k) := by
  have hreader : ∃ k, (creatorAndReader (.worker 0) ()).compile JobCall.body =
    .op (.lock .table) k := ⟨_, rfl⟩
  have hcreator : ∃ k, (creatorAndReader .main ()).compile JobCall.body = .op .alloc k ∧
      ∃ k', k (some (4 : Nat)) = .op (.ask JobInput.mutexInit) k' ∧
        ∃ k'', k' true = .op (.lock JobLock.table) k'' :=
    ⟨_, rfl, _, rfl, _, rfl⟩
  obtain ⟨k₁, hreader⟩ := hreader
  obtain ⟨k, halloc, k', hinit, k'', hwait⟩ := hcreator
  have htable : Locks.effect (S := objects) (Tid.worker 0) (.lock JobLock.table) emptyTable ()
      (emptyTable.put .table ⟨some (.worker 0), .shared, {}⟩) := ⟨rfl, rfl, rfl⟩
  have hblock : Locks.effect (S := objects) Tid.main .alloc
    (emptyTable.put .table ⟨some (.worker 0), .shared, {}⟩) (some (4 : Nat))
      ((emptyTable.put .table ⟨some (.worker 0), .shared, {}⟩).put (.job 4)
        ⟨some .main, .secret, zeroJob⟩) := ⟨rfl, rfl, rfl⟩
  have hinit' : Locks.effect (S := objects) Tid.main (.ask JobInput.mutexInit)
      ((emptyTable.put .table ⟨some (.worker 0), .shared, {}⟩).put (.job 4)
        ⟨some .main, .secret, zeroJob⟩) true
      ((emptyTable.put .table ⟨some (.worker 0), .shared, {}⟩).put (.job 4)
        ⟨some .main, .secret, zeroJob⟩) := rfl
  have hstart : Reached creatorAndReader (fun _ => some ()) _ := .refl
  have hreads := hstart.step (t := .worker 0) (congrArg some hreader) htable
  have hallocs := hreads.step (t := .main) ((Locks.put_thread_other _ _ _ (by decide)).trans
    (congrArg some halloc)) hblock
  have hwaits := hallocs.step (t := .main) ((Locks.put_thread_self _ _ _ rfl).trans
    (congrArg some hinit)) hinit'
  exact ⟨_, hwaits, rfl, rfl, k'', (Locks.put_thread_self _ _ _ rfl).trans (congrArg some hwait)⟩

theorem job_mutexes_in_order_contended : ∃ c, Reached creatorAndReader (fun _ => some ()) c ∧
    (c.state .table).owner = some (.worker 0) ∧ (c.state (.job 4)).owner = some .main ∧
    (∃ k, c.thread .main = some (.op (.lock .table) k)) ∧
    (∀ t o k, c.thread t = some (.op o k) → InOrder t c.state o) ∧
      (c.Final (Locks.machine Tid objects) → ∀ t, c.thread t = none) := by
  obtain ⟨c, hreach, htable, hjob, hwait⟩ := creatorAndReader_contend
  exact ⟨c, hreach, htable, hjob, hwait, job_mutexes_in_order creatorAndReader_proper
    (fun _ _ _ => rfl) hreach⟩

end Locked

end StegaPng
