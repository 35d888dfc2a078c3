import StegaPng.JobLocks

/-! The calls of `job.c` take what they need before they give anything back, so that each
of them might as well run in one piece; and what such a piece does to the memory. -/

namespace StegaPng

namespace Locked

open Interleaving

variable {T α β : Type} {t : T} {p : JobPtr} {s s' : Memory T} {held : Locks.Held objects}

/-! Two phases. -/

theorem jobLocked_twoPhase {body : JobTask α} (hbody : body.All (SectionOp p)) :
    Locks.TwoPhase .nothing (jobLocked p body) := by
  change Locks.TwoPhase (S := objects) .nothing
    (.op (.lock (JobLock.job p)) fun _ => body >>= fun a => .op (.release (JobLock.job p) .unlock)
      fun _ => .ret a)
  refine ⟨rfl, fun _ => Locks.TwoPhase.acts (hbody.mono fun o ho => ?_) fun a =>
    ⟨Function.update_self .., fun l => ?_⟩⟩
  · rcases ho with ⟨c, rfl⟩ | ⟨c, v, -, rfl⟩ | ⟨i, rfl⟩
    · exact .inl ⟨_, _, rfl, by simp [Locks.Held.next]⟩
    · exact .inl ⟨_, _, rfl, by simp [Locks.Held.next]⟩
    · exact .inr (.inr ⟨i, rfl⟩)
  · by_cases hl : l = .job p
    · rw [hl]
      exact Function.update_self ..
    · rw [Function.update_of_ne hl]
      exact Function.update_of_ne hl ..

/-- What a search in the table does. -/
def FindOp (o : Locks.Op objects) : Prop := (∃ i, o = .act .table (.readSlot i)) ∨
    ∃ p, o = .peek (.job p)

theorem findFrom_all (job_id : UInt64) (i left : Nat) : (findFrom job_id i left).All FindOp := by
  induction left generalizing i with
  | zero => trivial
  | succ left ih =>
    refine ⟨.inl ⟨i, rfl⟩, fun slot => ?_⟩
    cases slot with
    | none => exact ih (i + 1)
    | some job =>
      refine ⟨.inr ⟨job, rfl⟩, fun id => ?_⟩
      change (if id = job_id.toNat then .ret (some job) else
        findFrom job_id (i + 1) left : JobTask (Option JobPtr)).All FindOp
      split
      · trivial
      · exact ih (i + 1)

theorem findLocked_twoPhase (job_id : UInt64) : Locks.TwoPhase .nothing (findLocked job_id) := by
  change Locks.TwoPhase (S := objects) .nothing (.op (.lock JobLock.table) fun _ =>
    .op (.act JobLock.table TableAccess.readCount)
    fun count => findFrom job_id 0 count >>= fun r =>
      .op (.release JobLock.table .unlock) fun _ => .ret r)
  have htable : (Locks.Held.nothing : Locks.Held objects).next (.lock JobLock.table)
    () JobLock.table ≠ none := by
    simp [Locks.Held.next]
  refine ⟨rfl, fun _ => ⟨htable,
    fun count => Locks.TwoPhase.acts ((findFrom_all job_id 0 count).mono fun o ho => ?_) fun r =>
    ⟨?_, fun l => ?_⟩⟩⟩
  · rcases ho with ⟨i, rfl⟩ | ⟨q, rfl⟩
    · exact .inl ⟨_, _, rfl, htable⟩
    · exact .inr (.inl ⟨_, rfl⟩)
  · simp [Locks.Held.next, Locks.Release.before]
  · by_cases hl : l = .table
    · rw [hl]
      exact Function.update_self ..
    · rw [Function.update_of_ne hl]
      exact Function.update_of_ne hl ..

/-- What `job_table_create_job` has while it fills the job in. -/
def making (p : JobPtr) : Locks.Held objects :=
  Function.update (Function.update (fun _ => none) (JobLock.job p) (some .secret)) JobLock.table
    (some .shared)

theorem making_job (p : JobPtr) : making p (JobLock.job p) = some .secret := by
  rw [making, Function.update_of_ne (table_ne_job p).symm, Function.update_self]

theorem making_over (p : JobPtr) (l : JobLock) :
    Function.update (Function.update (making p) JobLock.table none) (JobLock.job p) none l = none ∧
      Function.update (Function.update (making p) (JobLock.job p) none) JobLock.table none l =
        none := by
  cases l with
  | table => simp [making]
  | job q =>
    by_cases hq : q = p
    · subst hq
      simp [making]
    · simp [making, hq]

theorem publishJob_twoPhase (p : JobPtr) : Locks.TwoPhase (making p) (publishJob p) := by
  have htable : making p JobLock.table ≠ none := by simp [making]
  have hrest : Function.update (making p) (JobLock.job p) none JobLock.table = some .shared := by
    rw [Function.update_of_ne (table_ne_job p), making, Function.update_self]
  have hshrinks : Locks.Shrinking (S := objects) (Function.update (making p) (JobLock.job p) none)
      (.op (.release JobLock.table .unlock) fun _ => .ret (some p) : JobTask (Option JobPtr)) :=
    ⟨hrest, fun l => (making_over p l).2⟩
  exact ⟨htable, fun i => ⟨htable, fun _ => ⟨htable,
    fun count => ⟨htable, fun _ => ⟨making_job p, hshrinks⟩⟩⟩⟩⟩

theorem createJob_twoPhase (owner_fd : Int) (owner_ip : Bytes) (type : JobType)
    (payload input_path : Option Bytes) :
    Locks.TwoPhase .nothing (jobTableCreateJob owner_fd owner_ip type payload input_path) := by
  refine ⟨trivial, fun r => ?_⟩
  cases r with
  | none => exact fun l => rfl
  | some p =>
    refine ⟨trivial, fun ok => ?_⟩
    cases ok with
    | false =>
      refine ⟨Function.update_self .., fun l => ?_⟩
      by_cases hl : l = .job p
      · rw [hl]
        exact Function.update_self ..
      · rw [Function.update_of_ne hl]
        exact Function.update_of_ne hl ..
    | true =>
      have hfree : (Locks.Held.nothing : Locks.Held objects).next .alloc (some p) JobLock.table =
        none := by
        simp [Locks.Held.next, Locks.Held.nothing]
      refine ⟨hfree, fun _ => ?_⟩
      change Locks.TwoPhase (S := objects) (making p)
        (.op (.act JobLock.table TableAccess.readCount) fun count => if count ≥ maxJobs then
          (do unlock .table; free p; pure none : JobTask (Option JobPtr))
        else fillJob p owner_fd owner_ip type payload input_path >>= fun _ => publishJob p)
      have htable : making p JobLock.table ≠ none := by simp [making]
      have hjob : making p (JobLock.job p) ≠ none := by
        rw [making_job]
        exact Option.some_ne_none _
      refine ⟨htable, fun count => ?_⟩
      change Locks.TwoPhase (making p) (if count ≥ maxJobs then _ else _)
      split
      · refine ⟨Function.update_self .., ?_, fun l => (making_over p l).1⟩
        rw [Function.update_of_ne (table_ne_job p).symm]
        exact making_job p
      · refine Locks.TwoPhase.acts ((fillJob_all p owner_fd owner_ip type payload input_path).mono
          fun o ho => ?_) fun _ =>
          publishJob_twoPhase p
        rcases ho with ⟨d, rfl⟩ | (rfl | ⟨n, rfl⟩) | ⟨i, rfl⟩
        · exact .inl ⟨_, _, rfl, hjob⟩
        · exact .inl ⟨_, _, rfl, htable⟩
        · exact .inl ⟨_, _, rfl, htable⟩
        · exact .inr (.inr ⟨i, rfl⟩)

/-! Between its calls a program has the table's mutex or nothing. -/

def tableHeld : Bool → Locks.Held objects
  | false => .nothing
  | true => Function.update (fun _ => none) JobLock.table (some .shared)

theorem tableHeld_unlock : Function.update (tableHeld true) JobLock.table none =
    tableHeld false := by
  funext l
  by_cases hl : l = .table
  · rw [hl, Function.update_self]
    rfl
  · rw [Function.update_of_ne hl]
    simp [tableHeld, Locks.Held.nothing, hl]

theorem PrimProper.fits {locked : Bool} {known : List JobPtr} {o : Locks.Op objects}
    (ho : PrimProper locked known o) :
    (tableHeld locked).fits o ∧ ∀ a, (tableHeld locked).next o a =
      tableHeld (lockedAfter locked o) := by
  have hthere : tableHeld true JobLock.table ≠ none := by simp [tableHeld]
  cases o with
  | lock l =>
    cases l with
    | table =>
      obtain rfl : locked = false := ho
      exact ⟨rfl, fun _ => rfl⟩
    | job p => exact ho.elim
  | alloc => exact ho.elim
  | release l how =>
    cases l with
    | table =>
      cases how with
      | unlock =>
        obtain rfl : locked = true := ho
        have hfits : tableHeld true JobLock.table = some .shared := by
          rw [tableHeld, Function.update_self]
        exact ⟨hfits, fun _ => tableHeld_unlock⟩
      | share => exact ho.elim
      | free => exact ho.elim
    | job p => exact ho.elim
  | act l d =>
    cases l with
    | table =>
      have hlocked : locked = true := by
        cases d with
        | readCount => exact ho
        | readSlot i => exact ho
        | readNextId => exact ho
        | writeSlot i p => exact ho.elim
        | writeCount n => exact ho.elim
        | writeNextId n => exact ho.elim
      subst hlocked
      exact ⟨hthere, fun _ => rfl⟩
    | job p => exact ho.elim
  | peek l => exact ⟨trivial, fun _ => rfl⟩
  | ask i => exact ⟨trivial, fun _ => rfl⟩

theorem Proper.guarded {post : Bool → List JobPtr → α → Prop} {locked : Bool} {known : List JobPtr}
    {q : JobClient α} (hq : Proper post locked known q)
    (hpost : ∀ locked known a, post locked known a → locked = false) :
    q.Guarded (tableHeld locked) := by
  induction q generalizing locked known with
  | ret a =>
    obtain rfl := hpost _ _ _ hq
    exact fun l => rfl
  | op call k ih =>
    cases call with
    | call b => exact fun r => ih r (hq.2 r)
    | prim o =>
      have hprim : PrimProper locked known o := hq.1
      refine ⟨hprim.fits.1, fun a => ?_⟩
      rw [hprim.fits.2 a]
      exact ih a (hq.2 a)

theorem JobCall.twoPhase (b : JobCall) : Locks.TwoPhase .nothing b.body ∧ ∀ r, b.body ≠ .ret r := by
  by_cases hb : b.TakesTable
  · cases b with
    | create owner_fd owner_ip type payload input_path =>
      exact ⟨createJob_twoPhase owner_fd owner_ip type payload input_path,
        fun r heq => by cases heq⟩
    | find job_id => exact ⟨findLocked_twoPhase job_id, fun r heq => by cases heq⟩
    | _ => exact hb.elim
  · obtain ⟨p, body, -, hbody, hall⟩ := b.one_section hb
    rw [hbody]
    exact ⟨jobLocked_twoPhase hall, fun r heq => by cases heq⟩

/-! Whole runs. -/

variable {Loc : Type} {known : Loc → List JobPtr} {prog : T → Loc → JobClient (Option Loc)}
  {first : T → Option Loc} {c : Config (Locks.Op objects) (Locks.Answer objects) T (Memory T) Loc}

abbrev CallConfig (T Loc : Type) := Config (Locks.Call JobCall objects)
    (Locks.Call.Answer JobCall.Res) T (Memory T) Loc

/-- Where the calls are over and their locks given back, the two configurations are the same. -/
structure SameOutside (c : Config (Locks.Op objects) (Locks.Answer objects) T (Memory T) Loc)
    (c' : CallConfig T Loc) : Prop where
  free : ∀ l, (c.state l).owner = none → c'.state l = c.state l
  returned : ∀ t next, c.thread t = some (.ret next) → c'.thread t = some (.ret next)
  left : ∀ t, c.thread t = none → c'.thread t = none

theorem sameOutside_of {helds : T → Locks.Held objects} {c' : CallConfig T Loc}
    (h : Locks.Simulates JobCall.body helds c c') :
    SameOutside c c' where
  free l hl := h.free hl
  returned t next ht := by
    have hphase := h.phase t
    rw [ht] at hphase
    exact (hphase.of_ret fun b => (b.twoPhase).2).2
  left t ht := by
    have hphase := h.phase t
    rw [ht] at hphase
    exact hphase.of_left

variable [DecidableEq T]

/-- The configurations that the threads reach with every call in one piece. -/
def ReachedByCalls (prog : T → Loc → JobClient (Option Loc)) (first : T → Option Loc)
    (c : CallConfig T Loc) : Prop :=
  Config.Reachable (Locks.atomic T JobCall.body) prog
    ⟨emptyTable, fun t => (first t).map (prog t)⟩ c

theorem Reached.reduced (hprog : ∀ t l, Proper (TurnOver known) false (known l) (prog t l))
    (h : Reached prog first c) :
    ∃ helds c', ReachedByCalls prog first c' ∧ Locks.Simulates JobCall.body helds c c' := by
  have hguarded : ∀ t l, (prog t l).Guarded .nothing :=
    fun t l => (hprog t l).guarded fun _ _ _ hover => hover.1
  have hstart : ∀ t q, (first t).map (prog t) = some q → q.Guarded .nothing := by
    intro t q hq
    obtain ⟨l, -, rfl⟩ := Option.map_eq_some_iff.mp hq
    exact hguarded t l
  refine Locks.reduction JobCall.twoPhase hguarded hstart ?_
  have hthreads : (fun t => ((first t).map (prog t)).map fun q => q.compile JobCall.body) =
      fun t => (first t).map fun l => (prog t l).compile JobCall.body := by
    funext t
    exact Option.map_map ..
  rw [hthreads]
  exact h

end Locked

end StegaPng
