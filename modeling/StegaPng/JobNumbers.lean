import StegaPng.JobOperations

/-! The table, whatever the threads do: its slots are filled in turn, and the jobs are
numbered in the order of their slots. -/

namespace StegaPng

namespace Locked

open Interleaving

variable {T : Type} {t : T} {s s' : Memory T}

structure Numbered (s : Memory T) : Prop where
  table : Locks.Shared s .table
  count : (s .table).data.count ≤ maxJobs
  next : (s .table).data.next_id = (s .table).data.count + 1
  slots : ∀ i < (s .table).data.count, ∃ p, (s .table).data.slots i = some p ∧
    Locks.Shared s (.job p) ∧
    (s (.job p)).data.id = i + 1

/-- No call but the creation writes an `id`. -/
theorem JobCall.outcome_id (b : JobCall) (now : Nat) (job : Job) :
    (b.outcome now job).2.id = job.id := by
  have hcancel : job.requestCancel.1.id = job.id := by
    rw [Job.requestCancel]
    split <;> rfl
  cases b with
  | requestCancel p => exact hcancel
  | cancelItem p owner_fd =>
    rw [JobCall.outcome]
    split
    · exact hcancel
    · rfl
  | _ => rfl

theorem Numbered.of_same (h : Numbered s) (htable : Locks.Shared s' .table)
    (hdata : (s' .table).data = (s .table).data) (hjobs : ∀ p, Locks.Shared s (.job p) →
      Locks.Shared s' (.job p) ∧ (s' (.job p)).data.id = (s (.job p)).data.id) :
    Numbered s' := by
  refine ⟨htable, hdata ▸ h.count, hdata ▸ h.next, fun i hi => ?_⟩
  rw [hdata] at hi ⊢
  obtain ⟨p, hp, hshared, hid⟩ := h.slots i hi
  exact ⟨p, hp, (hjobs p hshared).1, (hjobs p hshared).2.trans hid⟩

theorem Operation.numbered {b : JobCall} {r : b.Res} (hop : Operation s b r s') (h : Numbered s) :
    Numbered s' := by
  cases hop with
  | @served _ p now hp hfree hshared =>
    have htable : s.put (.job p) ⟨none, .shared, (b.outcome now (s (.job p)).data).2⟩ .table =
      s .table :=
      put_there _ _ (table_ne_job p)
    refine h.of_same (by rw [Locks.Shared, htable]; exact h.table) (by rw [htable]) fun q hq => ?_
    by_cases hself : q = p
    · subst hself
      rw [Locks.Shared, put_here]
      exact ⟨rfl, b.outcome_id now _⟩
    · have hother : (JobLock.job q) ≠ .job p := fun heq => hself (JobLock.job.inj heq)
      rw [Locks.Shared, put_there _ _ hother]
      exact ⟨hq, rfl⟩
  | found => exact h
  | @created _ _ _ _ _ p now hfree hshared hroom habsent =>
    have hold : ∀ q, Locks.Shared s (.job q) → JobLock.job q ≠ .job p := by
      rintro q hq heq
      rw [Locks.Shared, heq, habsent] at hq
      cases hq
    refine ⟨?_, ?_, ?_, fun i hi => ?_⟩
    · rw [Locks.Shared, put_there _ _ (table_ne_job p), put_here]
    · rw [put_there _ _ (table_ne_job p), put_here]
      exact hroom
    · rw [put_there _ _ (table_ne_job p), put_here]
      exact congrArg (· + 1) h.next
    · rw [put_there _ _ (table_ne_job p), put_here] at hi ⊢
      by_cases hlast : i = (s .table).data.count
      · refine ⟨p, ?_, ?_, ?_⟩
        · rw [hlast]
          exact Function.update_self ..
        · rw [Locks.Shared, put_here]
        · rw [put_here, hlast]
          exact h.next
      · have hlt : i < (s .table).data.count := lt_of_le_of_ne (Nat.le_of_lt_succ hi) hlast
        obtain ⟨q, hq, hqshared, hid⟩ := h.slots i hlt
        refine ⟨q, (Function.update_of_ne hlast ..).trans hq, ?_, ?_⟩
        · rw [Locks.Shared, put_there _ _ (hold q hqshared), put_there _ _ (table_ne_job q).symm]
          exact hqshared
        · rw [put_there _ _ (hold q hqshared), put_there _ _ (table_ne_job q).symm]
          exact hid
  | refused hsame hgone =>
    have hkept : ∀ l, Locks.Shared s l → s' l = s l := by
      intro l hl
      refine hsame l fun habsent => ?_
      rw [Locks.Shared, habsent] at hl
      cases hl
    refine h.of_same (by rw [Locks.Shared, hkept _ h.table]; exact h.table)
      (by rw [hkept _ h.table]) fun q hq => ?_
    rw [Locks.Shared, hkept _ hq]
    exact ⟨hq, rfl⟩

/-- What a program does between its calls leaves the data alone. -/
theorem PrimProper.numbered {locked : Bool} {known : List JobPtr} {o : Locks.Op objects}
    {a : Locks.Answer objects o} (ho : PrimProper locked known o) (hstep : Locks.effect t o s a s')
    (h : Numbered s) : Numbered s' := by
  have howner : ∀ slot : Locks.Slot T (objects.Data JobLock.table), slot.status = .shared →
    slot.data = (s .table).data →
      Numbered (s.put .table slot) := by
    intro slot hslot hdata
    refine h.of_same (by rw [Locks.Shared, put_here]; exact hslot) (by rw [put_here]; exact hdata)
      fun q hq => ?_
    rw [Locks.Shared, put_there _ _ (table_ne_job q).symm]
    exact ⟨hq, rfl⟩
  cases o with
  | lock l =>
    cases l with
    | table =>
      obtain ⟨-, hshared, rfl⟩ := hstep
      exact howner _ hshared rfl
    | job p => exact ho.elim
  | alloc => exact ho.elim
  | release l how =>
    cases l with
    | table =>
      cases how with
      | unlock =>
        obtain ⟨-, rfl⟩ := hstep
        exact howner _ rfl rfl
      | share => exact ho.elim
      | free => exact ho.elim
    | job p => exact ho.elim
  | act l d =>
    cases l with
    | table =>
      obtain ⟨-, -, -, rfl⟩ := hstep
      cases d with
      | readCount => exact howner _ h.table rfl
      | readSlot i => exact howner _ h.table rfl
      | readNextId => exact howner _ h.table rfl
      | writeSlot i p => exact ho.elim
      | writeCount n => exact ho.elim
      | writeNextId n => exact ho.elim
    | job p => exact ho.elim
  | peek l =>
    obtain ⟨-, -, rfl⟩ := hstep
    exact h
  | ask i =>
    obtain rfl : s' = s := hstep
    exact h

theorem emptyTable_numbered : Numbered (emptyTable : Memory T) :=
  ⟨rfl, Nat.zero_le _, rfl, fun i hi => absurd hi (Nat.not_lt_zero i)⟩

/-! A creation that finds room can take place. -/

/-- The thread is at it: the table's mutex is taken, and the block is its own. -/
structure Creating (t : T) (p : JobPtr) (m : TableMemory) (job : Job) (s : Memory T) : Prop where
  table : s .table = ⟨some t, .shared, m⟩
  block : s (.job p) = ⟨some t, .secret, job⟩

/-- The thread can go on to create the job at `p`. -/
def Creates (t : T) (p : JobPtr) (q : JobTask (Option JobPtr)) (s : Memory T) : Prop :=
  ∃ s', Runs (Locks.machine T objects) t q s (some p) s'

section

variable {p : JobPtr} {m : TableMemory} {job : Job}

theorem Creates.op {o : Locks.Op objects} {a : Locks.Answer objects o}
    {k : Locks.Answer objects o → JobTask (Option JobPtr)} (hstep : Locks.effect t o s a s')
    (h : Creates t p (k a) s') : Creates t p (.op o k) s := by
  obtain ⟨s'', hrun⟩ := h
  exact ⟨s'', .op hstep hrun⟩

theorem Creating.table_act (h : Creating t p m job s) {d : TableAccess}
    {k : d.Answer → JobTask (Option JobPtr)}
    (hk : ∀ s', Creating t p (d.act m).2 job s' → Creates t p (k (d.act m).1) s') :
    Creates t p (.op (.act .table d) k) s := by
  have hstep : Locks.effect t (.act JobLock.table d : Locks.Op objects) s (d.act m).1
      (s.put .table ⟨some t, .shared, (d.act m).2⟩) := by
    refine ⟨?_, ?_, fun _ => rfl, ?_⟩
    · rw [h.table]
      nofun
    · rw [h.table]
    · rw [h.table]
  refine .op hstep (hk _ ⟨put_here .., ?_⟩)
  rw [put_there _ _ (table_ne_job p).symm]
  exact h.block

theorem Creating.block_act (h : Creating t p m job s) {d : JobAccess}
    {k : d.Answer → JobTask (Option JobPtr)}
    (hk : ∀ s', Creating t p m (d.act job).2 s' → Creates t p (k (d.act job).1) s') :
    Creates t p (.op (.act (.job p) d) k) s := by
  have hstep : Locks.effect t (.act (JobLock.job p) d : Locks.Op objects) s (d.act job).1
      (s.put (.job p) ⟨some t, .secret, (d.act job).2⟩) := by
    refine ⟨?_, ?_, ?_, ?_⟩
    · rw [h.block]
      nofun
    · rw [h.block]
    · rw [h.block]
      nofun
    · rw [h.block]
  refine .op hstep (hk _ ⟨?_, put_here ..⟩)
  rw [put_there _ _ (table_ne_job p)]
  exact h.table

theorem Creating.fillJob (h : Creating t p m job s) (owner_fd : Int) (owner_ip : Bytes)
    (type : JobType) (payload input_path : Option Bytes) {k : Unit → JobTask (Option JobPtr)}
    (hk : ∀ m job s', Creating t p m job s' → Creates t p (k ()) s') :
    Creates t p (fillJob p owner_fd owner_ip type payload input_path >>= k) s := by
  refine h.table_act fun s h => ?_
  refine h.block_act fun s h => ?_
  refine h.table_act fun s h => ?_
  refine h.table_act fun s h => ?_
  iterate 7 refine h.block_act fun s h => ?_
  have hend : ∀ {m job s}, Creating t p m job s → Creates t p
      ((clock >>= fun now => writeCell p .createdAt now) >>= k) s := by
    intro m job s h
    refine .op (a := (0 : Nat)) rfl ?_
    exact h.block_act fun s h => hk _ _ s h
  cases payload with
  | none =>
    cases input_path with
    | none => exact hend h
    | some input_path => exact h.block_act fun s h => hend h
  | some payload =>
    refine h.block_act fun s h => ?_
    cases input_path with
    | none => exact hend h
    | some input_path => exact h.block_act fun s h => hend h

theorem create_possible {owner_fd : Int} {owner_ip : Bytes} {type : JobType}
    {payload input_path : Option Bytes} (hfree : (s .table).owner = none)
    (hshared : Locks.Shared s .table) (hroom : (s .table).data.count < maxJobs)
    (hnobody : (s (.job p)).owner = none) (habsent : (s (.job p)).status = .absent) :
    Creates t p (jobTableCreateJob owner_fd owner_ip type payload input_path) s := by
  have halloc : Locks.effect t (.alloc : Locks.Op objects) s (some p)
      (s.put (.job p) ⟨some t, .secret, zeroJob⟩) :=
    ⟨hnobody, habsent, rfl⟩
  refine .op halloc ?_
  have hinit : Locks.effect t (.ask JobInput.mutexInit : Locks.Op objects)
      (s.put (.job p) ⟨some t, .secret, zeroJob⟩) (true : Bool)
      (s.put (.job p) ⟨some t, .secret, zeroJob⟩) :=
    rfl
  refine .op hinit ?_
  have hown : (s.put (.job p) ⟨some t, .secret, zeroJob⟩) .table = s .table :=
    put_there _ _ (table_ne_job p)
  have hlock : Locks.effect t (.lock .table : Locks.Op objects)
      (s.put (.job p) ⟨some t, .secret, zeroJob⟩) ()
      ((s.put (.job p) ⟨some t, .secret, zeroJob⟩).put .table
        ⟨some t, .shared, (s .table).data⟩) := by
    rw [← hshared]
    exact ⟨by rw [hown]; exact hfree, by rw [hown]; exact hshared, by rw [hown]⟩
  refine .op hlock ?_
  have h : Creating t p (s .table).data zeroJob ((s.put (.job p) ⟨some t, .secret, zeroJob⟩).put
      .table ⟨some t, .shared, (s .table).data⟩) := by
    refine ⟨put_here .., ?_⟩
    rw [put_there _ _ (table_ne_job p).symm]
    exact put_here ..
  refine h.table_act fun s' h => ?_
  change Creates t p (if (s .table).data.count ≥ maxJobs then _ else _) _
  rw [if_neg (Nat.not_le.mpr hroom)]
  refine h.fillJob owner_fd owner_ip type payload input_path fun m job s h => ?_
  iterate 4 refine h.table_act fun s h => ?_
  refine .op (a := ()) ⟨by rw [h.block]; rfl, rfl⟩ (.op (a := ()) ⟨?_, rfl⟩ ⟨_, .ret _ _⟩)
  rw [put_there _ _ (table_ne_job p), h.table]
  rfl

end

section

variable {Loc : Type} [DecidableEq T] {prog : T → Loc → JobClient (Option Loc)}
  {first : T → Option Loc}
  {c : Config (Locks.Op objects) (Locks.Answer objects) T (Memory T) Loc}

/-- A thread whose last call creates a job can make it at `p`, where nothing is yet. -/
theorem Reached.creates (h : Reached prog first c) {owner_fd : Int} {owner_ip : Bytes}
    {type : JobType} {payload input_path : Option Bytes} {p : JobPtr} {next : Option Loc}
    {k : Option JobPtr → JobTask (Option Loc)} (hlast : k (some p) = .ret next)
    (ht : c.thread t = some (jobTableCreateJob owner_fd owner_ip type payload input_path >>= k))
    (hfree : (c.state .table).owner = none) (hshared : Locks.Shared c.state .table)
    (hroom : (c.state .table).data.count < maxJobs) (hnobody : (c.state (.job p)).owner = none)
    (habsent : (c.state (.job p)).status = .absent) :
    ∃ now, Reached prog first (c.put t (some (.ret next))
      ((c.state.put .table ⟨none, .shared, { (c.state .table).data.add p with
          next_id := (c.state .table).data.next_id + 1 }⟩).put (.job p)
        ⟨none, .shared, newJob (c.state .table).data.next_id owner_fd owner_ip type payload
          input_path now⟩)) := by
  have hcreates : Creates t p (jobTableCreateJob owner_fd owner_ip type payload input_path)
      c.state :=
    create_possible hfree hshared hroom hnobody habsent
  obtain ⟨s', hrun⟩ := hcreates
  have hruns : Runs (Locks.machine T objects) t
      (jobTableCreateJob owner_fd owner_ip type payload input_path >>= k) c.state next s' :=
    Runs.bind_iff.mpr ⟨_, _, hrun, hlast ▸ .ret next s'⟩
  have hreach := h.trans (Config.reachable_runs ht hruns)
  cases JobCall.runs (.create owner_fd owner_ip type payload input_path) hrun with
  | created now => exact ⟨now, hreach⟩

end

variable {Loc : Type} [DecidableEq T] {known : Loc → List JobPtr}
  {prog : T → Loc → JobClient (Option Loc)} {first : T → Option Loc}
  {c : Config (Locks.Op objects) (Locks.Answer objects) T (Memory T) Loc} {c' : CallConfig T Loc}

theorem ReachedByOperations.numbered
    (hprog : ∀ t l, Proper (TurnOver known) false (known l) (prog t l))
    (h : ReachedByOperations prog first c') :
    Numbered c'.state ∧ ∀ t q, c'.thread t = some q → ∃ locked known',
      Proper (TurnOver known) locked known' q := by
  induction h with
  | refl =>
    refine ⟨emptyTable_numbered, fun t q hq => ?_⟩
    obtain ⟨l, -, rfl⟩ := Option.map_eq_some_iff.mp hq
    exact ⟨false, known l, hprog t l⟩
  | @tail c₁ c₂ _ hstep ih =>
    obtain ⟨hnumbered, hproper⟩ := ih
    have hput : ∀ {u : T} {P : Option (JobClient (Option Loc))} {s : Memory T},
        (∀ q, P = some q → ∃ locked known', Proper (TurnOver known) locked known' q) →
        ∀ t q, (c₁.put u P s).thread t = some q → ∃ locked known',
          Proper (TurnOver known) locked known' q := by
      intro u P s hP t q hq
      by_cases htu : t = u
      · rw [Locks.put_thread_self _ _ _ htu] at hq
        exact hP q hq
      · rw [Locks.put_thread_other _ _ _ htu] at hq
        exact hproper t q hq
    cases hstep with
    | @op t o k a s ht hs =>
      obtain ⟨locked, known', hq⟩ := hproper t _ ht
      cases o with
      | call b =>
        refine ⟨Operation.numbered hs hnumbered, hput fun q heq => ?_⟩
        obtain rfl := Option.some.inj heq
        exact ⟨_, _, hq.2 a⟩
      | prim o =>
        refine ⟨PrimProper.numbered hq.1 hs hnumbered, hput fun q heq => ?_⟩
        obtain rfl := Option.some.inj heq
        exact ⟨_, _, hq.2 a⟩
    | @again t l ht =>
      refine ⟨hnumbered, hput fun q heq => ?_⟩
      obtain rfl := Option.some.inj heq
      exact ⟨_, _, hprog t l⟩
    | halt ht => exact ⟨hnumbered, hput fun q heq => by cases heq⟩

/-- Every thread creates a job. -/
def creators : Tid → Unit → JobClient (Option Unit)
  | _, _ => do
    let _ ← jobCall (.create 7 (lit "10.0.0.7") .decode none none)
    pure none

theorem creators_proper (t : Tid) (l : Unit) :
    Proper (TurnOver fun _ : Unit => []) false [] (creators t l) :=
  ⟨⟨fun p hp => (by cases hp), fun _ => rfl⟩, fun r => ⟨rfl, fun l hl => by cases hl⟩⟩

/-- Whenever the table's mutex is free, its slots are filled in turn, up to `count`, with
jobs for everyone whose ids are 1, 2, 3 and so on, and `next_id` follows them. -/
theorem job_table_numbered (hprog : ∀ t l, Proper (TurnOver known) false (known l) (prog t l))
    (hfirst : ∀ t l, first t = some l → known l = []) (h : Reached prog first c)
    (hfree : (c.state .table).owner = none) :
    Numbered c.state := by
  obtain ⟨helds, c', hreach, hsim⟩ := h.reduced hprog
  have hnumbered := (hreach.operations.numbered hprog).1
  have htable : c'.state .table = c.state .table := hsim.free hfree
  have hshared : Locks.Shared c.state .table := by
    rw [Locks.Shared, ← htable]
    exact hnumbered.table
  have hsound : (c.state .table).data.Sound (Locks.Shared c.state) :=
    (h.keeps hprog hfirst).1.inv.free _ hfree hshared
  refine ⟨hshared, htable ▸ hnumbered.count, htable ▸ hnumbered.next, fun i hi => ?_⟩
  obtain ⟨p, hp, -, hid⟩ := hnumbered.slots i (by rw [htable]; exact hi)
  rw [htable] at hp
  have hjob : Locks.Shared c.state (.job p) := hsound.slots i p hp
  have hsame : (c'.state (.job p)).data.id = (c.state (.job p)).data.id := (hsim.later _ hjob).2
  exact ⟨p, hp, hjob, hsame.symm.trans hid⟩

theorem job_table_numbered_twoJobs : ∃ c, Reached creators (fun _ => some ()) c ∧
    (c.state .table).owner = none ∧ (c.state .table).data.count = 2 ∧ Numbered c.state := by
  have hstart : Reached creators (fun _ => some ())
      ⟨emptyTable, fun t => some ((creators t ()).compile JobCall.body)⟩ := .refl
  obtain ⟨now, hfirst⟩ := hstart.creates (t := .worker 0) (p := 9) rfl rfl rfl rfl (by decide)
    rfl rfl
  obtain ⟨now', hsecond⟩ := hfirst.creates (t := .main) (p := 4) rfl rfl rfl rfl
    (show 1 < maxJobs by decide) rfl rfl
  exact ⟨_, hsecond, rfl, rfl,
    job_table_numbered creators_proper (fun _ _ _ => rfl) hsecond rfl⟩

end Locked

end StegaPng
