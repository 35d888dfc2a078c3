import StegaPng.JobSections
import StegaPng.Replies

/-! Each call of `job.c`, alone, is the one operation that the server's model has for it:
the statements of a section together read and write what the operation says. -/

namespace StegaPng

namespace Locked

open Interleaving

variable {T α : Type} {t : T} {p : JobPtr} {s s' : Memory T}

/-! What a call may touch is the table and one job. -/

/-- The statements of a call on the table and the job `p` alone. -/
def desk (T : Type) (p : JobPtr) :
    Machine (Locks.Op objects) (Locks.Answer objects) T (TableMemory × Job) where
  step
    | _, .act .table d, m, a, m' =>
      a = (TableAccess.act d m.1).1 ∧ m' = ((TableAccess.act d m.1).2, m.2)
    | _, .act (.job q) d, m, a, m' =>
      q = p ∧ a = (JobAccess.act d m.2).1 ∧ m' = (m.1, (JobAccess.act d m.2).2)
    | _, .ask _, m, _, m' => m' = m
    | _, _, _, _, _ => False
  turn _ m := m

def DeskOp (p : JobPtr) (o : Locks.Op objects) : Prop :=
  (∃ d, o = .act .table d) ∨ (∃ d, o = .act (.job p) d) ∨ ∃ i, o = .ask i

/-- The memory with other data in the table and in the job. -/
def onDesk (s : Memory T) (p : JobPtr) (m : TableMemory × Job) : Memory T :=
  (s.put .table { s .table with data := m.1 }).put (.job p) { s (.job p) with data := m.2 }

theorem onDesk_table (s : Memory T) (p : JobPtr) (m : TableMemory × Job) :
    onDesk s p m .table = { s .table with data := m.1 } := by
  rw [onDesk, put_there _ _ (table_ne_job p), put_here]

theorem onDesk_job (s : Memory T) (p : JobPtr) (m : TableMemory × Job) :
    onDesk s p m (.job p) = { s (.job p) with data := m.2 } :=
  put_here ..

theorem onDesk_other (s : Memory T) (m : TableMemory × Job) {l : JobLock} (htable : l ≠ .table)
    (hjob : l ≠ .job p) :
    onDesk s p m l = s l := by
  rw [onDesk, put_there _ _ hjob, put_there _ _ htable]

theorem onDesk_same (s : Memory T) (p : JobPtr) :
    onDesk s p ((s .table).data, (s (.job p)).data) = s := by
  funext l
  by_cases htable : l = .table
  · rw [htable, onDesk_table]
  · by_cases hjob : l = .job p
    · rw [hjob, onDesk_job]
    · exact onDesk_other s _ htable hjob

theorem onDesk_put_table (s : Memory T) (p : JobPtr) (m : TableMemory × Job) (x : TableMemory) :
    (onDesk s p m).put .table { onDesk s p m .table with data := x } = onDesk s p (x, m.2) := by
  funext l
  by_cases htable : l = .table
  · rw [htable, put_here, onDesk_table, onDesk_table]
  · rw [put_there _ _ htable]
    by_cases hjob : l = .job p
    · rw [hjob, onDesk_job, onDesk_job]
    · rw [onDesk_other s _ htable hjob, onDesk_other s _ htable hjob]

theorem onDesk_put_job (s : Memory T) (p : JobPtr) (m : TableMemory × Job) (x : Job) :
    (onDesk s p m).put (.job p) { onDesk s p m (.job p) with data := x } = onDesk s p (m.1, x) := by
  funext l
  by_cases hjob : l = .job p
  · rw [hjob, put_here, onDesk_job, onDesk_job]
  · rw [put_there _ _ hjob]
    by_cases htable : l = .table
    · rw [htable, onDesk_table, onDesk_table]
    · rw [onDesk_other s _ htable hjob, onDesk_other s _ htable hjob]

theorem desk_runs {body : JobTask α} (hbody : body.All (DeskOp p)) {m : TableMemory × Job} {r : α}
    (h : Runs (Locks.machine T objects) t body (onDesk s p m) r s') :
    ∃ m', Runs (desk T p) t body m r m' ∧ s' = onDesk s p m' := by
  induction body generalizing m with
  | ret a =>
    obtain ⟨rfl, rfl⟩ := Runs.ret_iff.mp h
    exact ⟨m, .ret _ _, rfl⟩
  | op o k ih =>
    obtain ⟨a, s₁, hstep, hrest⟩ := Runs.op_iff.mp h
    obtain ⟨ho, hk⟩ := hbody
    rcases ho with ⟨d, rfl⟩ | ⟨d, rfl⟩ | ⟨i, rfl⟩
    · obtain ⟨-, ha, -, hs₁⟩ := hstep
      have hs : s₁ = onDesk s p ((TableAccess.act d m.1).2, m.2) := by
        rw [hs₁, onDesk_put_table, onDesk_table]
      rw [hs] at hrest
      obtain ⟨m', hruns, rfl⟩ := ih a (hk a) hrest
      refine ⟨m', .op ⟨?_, rfl⟩ hruns, rfl⟩
      rw [ha, onDesk_table]
    · obtain ⟨-, ha, -, hs₁⟩ := hstep
      have hs : s₁ = onDesk s p (m.1, (JobAccess.act d m.2).2) := by
        rw [hs₁, onDesk_put_job, onDesk_job]
      rw [hs] at hrest
      obtain ⟨m', hruns, rfl⟩ := ih a (hk a) hrest
      refine ⟨m', .op ⟨rfl, ?_, rfl⟩ hruns, rfl⟩
      rw [ha, onDesk_job]
    · obtain rfl : s₁ = onDesk s p m := hstep
      obtain ⟨m', hruns, rfl⟩ := ih a (hk a) hrest
      exact ⟨m', .op rfl hruns, rfl⟩

/-! What the statements do there. -/

section

variable {m m' : TableMemory × Job}

theorem desk_table {d : TableAccess} {a : d.Answer}
    (h : Runs (desk T p) t (.op (.act JobLock.table d) .ret : JobTask d.Answer) m a m') :
    a = (d.act m.1).1 ∧ m' = ((d.act m.1).2, m.2) := by
  obtain ⟨b, m₁, ⟨rfl, rfl⟩, hret⟩ := Runs.op_iff.mp h
  exact Runs.ret_iff.mp hret

theorem desk_job {d : JobAccess} {a : d.Answer}
    (h : Runs (desk T p) t (.op (.act (JobLock.job p) d) .ret : JobTask d.Answer) m a m') :
    a = (d.act m.2).1 ∧ m' = (m.1, (d.act m.2).2) := by
  obtain ⟨b, m₁, ⟨-, rfl, rfl⟩, hret⟩ := Runs.op_iff.mp h
  exact Runs.ret_iff.mp hret

theorem desk_readCell {c : JobCell} {v : c.Val} (h : Runs (desk T p) t (readCell p c) m v m') :
    v = c.read m.2 ∧ m' = m :=
  desk_job h

theorem desk_writeCell {c : JobCell} {v : c.Val} {r : Unit}
    (h : Runs (desk T p) t (writeCell p c v) m r m') :
    m' = (m.1, c.write m.2 v) :=
  (desk_job h).2

theorem desk_clock {now : Nat} (h : Runs (desk T p) t clock m now m') : m' = m := by
  obtain ⟨b, m₁, rfl, hret⟩ := Runs.op_iff.mp h
  exact (Runs.ret_iff.mp hret).2

/-- A read, and what follows it. -/
theorem desk_read {c : JobCell} {f : c.Val → JobTask α} {r : α}
    (h : Runs (desk T p) t (readCell p c >>= f) m r m') :
    Runs (desk T p) t (f (c.read m.2)) m r m' := by
  obtain ⟨v, m₁, hread, hrest⟩ := Runs.bind_iff.mp h
  obtain ⟨rfl, rfl⟩ := desk_readCell hread
  exact hrest

/-- A write, and what follows it. -/
theorem desk_write {c : JobCell} {v : c.Val} {f : Unit → JobTask α} {r : α}
    (h : Runs (desk T p) t (writeCell p c v >>= f) m r m') :
    Runs (desk T p) t (f ()) (m.1, c.write m.2 v) r m' := by
  obtain ⟨u, m₁, hwrite, hrest⟩ := Runs.bind_iff.mp h
  obtain rfl := desk_writeCell hwrite
  exact hrest

theorem desk_stateIs {a b : JobState} {r : Bool} (h : Runs (desk T p) t (stateIs p a b) m r m') :
    r = decide (m.2.state = a ∨ m.2.state = b) ∧ m' = m := by
  have hrest := desk_read h
  split at hrest
  · next ha =>
    have hstate : m.2.state = a := ha
    obtain ⟨rfl, rfl⟩ := Runs.ret_iff.mp hrest
    exact ⟨(decide_eq_true (.inl hstate)).symm, rfl⟩
  · next ha =>
    have hstate : ¬ m.2.state = a := ha
    have hret := desk_read hrest
    obtain ⟨rfl, rfl⟩ := Runs.ret_iff.mp hret
    exact ⟨decide_eq_decide.mpr ⟨.inr, fun hor => hor.resolve_left hstate⟩, rfl⟩

theorem desk_stateTerminal {r : Bool} (h : Runs (desk T p) t (stateTerminal p) m r m') :
    r = decide m.2.state.Terminal ∧ m' = m := by
  obtain ⟨ended, m₁, hended, hrest⟩ := Runs.bind_iff.mp h
  obtain ⟨rfl, rfl⟩ := desk_stateIs hended
  split at hrest
  · next hdone =>
    have hstate := of_decide_eq_true hdone
    obtain ⟨rfl, rfl⟩ := Runs.ret_iff.mp hrest
    exact ⟨(decide_eq_true (hstate.elim .inl fun hfailed => .inr (.inl hfailed))).symm, rfl⟩
  · next hdone =>
    have hstate := of_decide_eq_false (Bool.eq_false_iff.mpr hdone)
    have hret := desk_read hrest
    obtain ⟨rfl, rfl⟩ := Runs.ret_iff.mp hret
    refine ⟨?_, rfl⟩
    have hiff : m'.2.state = .canceled ↔ m'.2.state.Terminal := by
      constructor
      · exact fun hcanceled => .inr (.inr hcanceled)
      · rintro (hd | hf | hc)
        · exact absurd (.inl hd) hstate
        · exact absurd (.inr hf) hstate
        · exact hc
    exact decide_eq_decide.mpr hiff

end

/-- What the server's operation for a call makes of the job: its answer and the record. -/
def JobCall.outcome (now : Nat) (job : Job) : (b : JobCall) → b.Res × Job
  | .create .. => (none, job)
  | .find _ => (none, job)
  | .requestCancel _ => (job.requestCancel.2, job.requestCancel.1)
  | .setState _ s => ((), JobUpdate.apply now job (.state s))
  | .setResult _ result => ((), JobUpdate.apply now job (.result result))
  | .setStoredPath _ path => ((), JobUpdate.apply now job (.storedPath path))
  | .setOutputPath _ path => ((), JobUpdate.apply now job (.outputPath path))
  | .setResultMeta _ kind size filename =>
    ((), JobUpdate.apply now job (.resultMeta kind size (filename.getD [])))
  | .getState _ => (JobField.read job .state, job)
  | .isCancelRequested _ => (JobField.read job .cancelRequested, job)
  | .getResult _ => (JobField.read job .result, job)
  | .getPayload _ => (JobField.read job .payload, job)
  | .getInputPath _ => (JobField.read job .inputPath, job)
  | .getStoredPath _ => (JobField.read job .storedPath, job)
  | .getOutputPath _ => (JobField.read job .outputPath, job)
  | .getResultMeta _ => (JobField.read job .resultMeta, job)
  | .getOwnerFd _ => (job.owner_fd, job)
  | .getOwnerIp _ => (job.owner_ip, job)
  | .getType _ => (JobField.read job .type, job)
  | .statsItem _ st => (st.count job, job)
  | .listItem _ => (listEntry job, job)
  | .historyItem dt _ => (if job.state.Terminal then some (historyEntry dt job) else none, job)
  | .cancelItem _ owner_fd =>
    if job.owner_fd = owner_fd then (job.requestCancel.2, job.requestCancel.1) else (false, job)

section

variable {m m' : TableMemory × Job}

theorem desk_requestCancel {r : Bool} (h : Runs (desk T p) t (do
      if ← stateIs p .queued .running then
        writeCell p .cancelRequested true
        pure true
      else pure false : JobTask Bool) m r m') : m'.1 = m.1 ∧
        (r, m'.2) = (m.2.requestCancel.2, m.2.requestCancel.1) := by
  obtain ⟨live, m₁, hlive, hrest⟩ := Runs.bind_iff.mp h
  obtain ⟨rfl, rfl⟩ := desk_stateIs hlive
  split at hrest
  · next htrue =>
    have hstate := of_decide_eq_true htrue
    have hret := desk_write hrest
    obtain ⟨rfl, rfl⟩ := Runs.ret_iff.mp hret
    simp [Job.requestCancel, hstate, JobCell.write]
  · next hfalse =>
    have hstate := of_decide_eq_false (Bool.eq_false_iff.mpr hfalse)
    obtain ⟨rfl, rfl⟩ := Runs.ret_iff.mp hrest
    simp [Job.requestCancel, hstate]

theorem desk_stats {st r : JobStats} (h : Runs (desk T p) t (do
      let state ← readCell p .state
      let st := match state with
        | .queued => { st with queued := st.queued + 1 }
        | .running => { st with running := st.running + 1 }
        | .done => { st with done := st.done + 1 }
        | .failed => { st with failed := st.failed + 1 }
        | .canceled => { st with canceled := st.canceled + 1 }
      if ← stateIs p .done .failed then
        let started_at ← readCell p .startedAt
        let finished_at ← readCell p .finishedAt
        let d := (finished_at : Int) - started_at
        pure (if d ≥ 0 then { st with durations := st.durations ++ [d] } else st)
      else pure st : JobTask JobStats) m r m') : m' = m ∧ r = st.count m.2 := by
  have hrest := desk_read h
  obtain ⟨timed, m₂, htimed, hrest⟩ := Runs.bind_iff.mp hrest
  obtain ⟨rfl, rfl⟩ := desk_stateIs htimed
  rw [JobStats.count]
  split at hrest
  · next htrue =>
    have hover := of_decide_eq_true htrue
    have hrest := desk_read hrest
    have hret := desk_read hrest
    obtain ⟨rfl, rfl⟩ := Runs.ret_iff.mp hret
    refine ⟨rfl, ?_⟩
    by_cases hpos : m'.2.duration ≥ 0
    · exact (if_pos hpos).trans (if_pos ⟨hover, hpos⟩).symm
    · exact (if_neg hpos).trans (if_neg fun hboth => hpos hboth.2).symm
  · next hfalse =>
    have hover := of_decide_eq_false (Bool.eq_false_iff.mpr hfalse)
    obtain ⟨rfl, rfl⟩ := Runs.ret_iff.mp hrest
    refine ⟨rfl, ?_⟩
    rw [if_neg fun hboth => hover hboth.1]
    rfl

theorem desk_history {dt : DurationText} {r : Option Bytes} (h : Runs (desk T p) t (do
      if ← stateTerminal p then
        let started_at ← readCell p .startedAt
        let finished_at ← readCell p .finishedAt
        let id ← readCell p .id
        let type ← readCell p .type
        let state ← readCell p .state
        let owner_ip ← readCell p .ownerIp
        pure (some (snprintf 320 (lit "id=" ++ decimal id ++ lit ",type=" ++ jobTypeToString type ++
          lit ",state=" ++
          jobStateToString state ++ lit ",dur_ms=" ++ dt.one ((finished_at : Int) - started_at) ++
            lit ",ip=" ++ owner_ip)))
      else pure none : JobTask (Option Bytes)) m r m') :
    m' = m ∧ r = if m.2.state.Terminal then some (historyEntry dt m.2) else none := by
  obtain ⟨ended, m₁, hended, hrest⟩ := Runs.bind_iff.mp h
  obtain ⟨rfl, rfl⟩ := desk_stateTerminal hended
  split at hrest
  · next htrue =>
    have hrest := desk_read hrest
    have hrest := desk_read hrest
    have hrest := desk_read hrest
    have hrest := desk_read hrest
    have hrest := desk_read hrest
    have hret := desk_read hrest
    obtain ⟨rfl, rfl⟩ := Runs.ret_iff.mp hret
    exact ⟨rfl, (if_pos (of_decide_eq_true htrue)).symm⟩
  · next hfalse =>
    obtain ⟨rfl, rfl⟩ := Runs.ret_iff.mp hrest
    exact ⟨rfl, (if_neg (of_decide_eq_false (Bool.eq_false_iff.mpr hfalse))).symm⟩

theorem desk_setState {st : JobState} {r : Unit} (h : Runs (desk T p) t (do
      writeCell p .state st
      if st = .running then
        let now ← clock
        writeCell p .startedAt now
      else if st.Terminal then
        let now ← clock
        writeCell p .finishedAt now
      else pure () : JobTask Unit) m r m') : ∃ now,
        m' = (m.1, JobUpdate.apply now m.2 (.state st)) := by
  have hrest := desk_write h
  split at hrest
  · next hrunning =>
    obtain ⟨now, m₂, hclock, hrest⟩ := Runs.bind_iff.mp hrest
    obtain rfl := desk_clock hclock
    obtain rfl := desk_writeCell hrest
    refine ⟨now, ?_⟩
    subst hrunning
    rfl
  · next hrunning =>
    split at hrest
    · next hterminal =>
      obtain ⟨now, m₂, hclock, hrest⟩ := Runs.bind_iff.mp hrest
      obtain rfl := desk_clock hclock
      obtain rfl := desk_writeCell hrest
      exact ⟨now, by simp [JobUpdate.apply, hrunning, hterminal, JobCell.write]⟩
    · next hterminal =>
      obtain ⟨-, rfl⟩ := Runs.ret_iff.mp hrest
      exact ⟨0, by simp [JobUpdate.apply, hrunning, hterminal, JobCell.write]⟩

end

/-- What is between the lock and the unlock is settled by the whole. -/
theorem bind_unlock_inj {body body' : JobTask α}
    (h : (body >>= fun a => (.op (.release (JobLock.job p) .unlock) fun _ => .ret a : JobTask α)) =
      body' >>= fun a => .op (.release (JobLock.job p) .unlock) fun _ => .ret a) :
        body = body' := by
  have hnot : ∀ (q : JobTask α) (a : α),
      (q >>= fun a => (.op (.release (JobLock.job p) .unlock) fun _ => .ret a : JobTask α)) ≠
        .ret a := by
    intro q a heq
    cases q with
    | ret b => cases heq
    | op o k => cases heq
  induction body generalizing body' with
  | ret a =>
    cases body' with
    | ret a' =>
      injection h with _ hk
      have hret := congrFun hk ()
      injection hret with ha
      rw [ha]
    | op o k' =>
      injection h with ho hk
      subst ho
      exact absurd (congrFun (eq_of_heq hk) ()).symm (hnot _ _)
  | op o k ih =>
    cases body' with
    | ret a' =>
      injection h with ho hk
      subst ho
      exact absurd (congrFun (eq_of_heq hk) ()) (hnot _ _)
    | op o' k' =>
      injection h with ho hk
      subst ho
      congr 1
      funext a
      exact ih a (congrFun (eq_of_heq hk) a)

theorem jobLocked_inj {body body' : JobTask α} (h : jobLocked p body = jobLocked p body') :
    body = body' := by
  injection h with _ hk
  exact bind_unlock_inj (congrFun hk ())

/-- A section under the job's mutex does what the call's operation says. -/
theorem JobCall.section_outcome (b : JobCall) (hb : ¬ b.TakesTable) : ∃ p body, b.pointers = [p] ∧
    b.body = jobLocked p body ∧
    ∀ (t : T) m r m', Runs (desk T p) t body m r m' → m'.1 = m.1 ∧
      ∃ now, (r, m'.2) = b.outcome now m.2 := by
  have hread : ∀ {p : JobPtr} {c : JobCell} {t : T} {m m' : TableMemory × Job} {r : c.Val},
      Runs (desk T p) t (readCell p c) m r m' → m'.1 = m.1 ∧ ∃ _now : Nat,
        (r, m'.2) = (c.read m.2, m.2) := by
    intro p c t m m' r h
    obtain ⟨rfl, rfl⟩ := desk_readCell h
    exact ⟨rfl, 0, rfl⟩
  have hwrite : ∀ {p : JobPtr} {c : JobCell} {v : c.Val} {t : T}
      {m m' : TableMemory × Job} {r : Unit},
      Runs (desk T p) t (writeCell p c v) m r m' → m'.1 = m.1 ∧ ∃ _now : Nat,
        (r, m'.2) = ((), c.write m.2 v) := by
    intro p c v t m m' r h
    obtain rfl := desk_writeCell h
    exact ⟨rfl, 0, rfl⟩
  cases b with
  | create => exact absurd trivial hb
  | find => exact absurd trivial hb
  | requestCancel p =>
    refine ⟨p, _, rfl, rfl, fun t m r m' h => ?_⟩
    obtain ⟨htable, hjob⟩ := desk_requestCancel h
    exact ⟨htable, 0, hjob⟩
  | setState p s =>
    refine ⟨p, _, rfl, rfl, fun t m r m' h => ?_⟩
    obtain ⟨now, rfl⟩ := desk_setState h
    exact ⟨rfl, now, rfl⟩
  | setResult p => exact ⟨p, _, rfl, rfl, fun t m r m' h => hwrite h⟩
  | setStoredPath p => exact ⟨p, _, rfl, rfl, fun t m r m' h => hwrite h⟩
  | setOutputPath p => exact ⟨p, _, rfl, rfl, fun t m r m' h => hwrite h⟩
  | setResultMeta p kind size filename =>
    refine ⟨p, _, rfl, rfl, fun t m r m' h => ?_⟩
    have hrest := desk_write h
    have hrest := desk_write hrest
    cases filename with
    | none =>
      obtain rfl := desk_writeCell hrest
      exact ⟨rfl, 0, rfl⟩
    | some filename =>
      obtain rfl := desk_writeCell hrest
      exact ⟨rfl, 0, rfl⟩
  | getState p => exact ⟨p, _, rfl, rfl, fun t m r m' h => hread h⟩
  | isCancelRequested p => exact ⟨p, _, rfl, rfl, fun t m r m' h => hread h⟩
  | getResult p => exact ⟨p, _, rfl, rfl, fun t m r m' h => hread h⟩
  | getPayload p => exact ⟨p, _, rfl, rfl, fun t m r m' h => hread h⟩
  | getInputPath p => exact ⟨p, _, rfl, rfl, fun t m r m' h => hread h⟩
  | getStoredPath p => exact ⟨p, _, rfl, rfl, fun t m r m' h => hread h⟩
  | getOutputPath p => exact ⟨p, _, rfl, rfl, fun t m r m' h => hread h⟩
  | getResultMeta p =>
    refine ⟨p, _, rfl, rfl, fun t m r m' h => ?_⟩
    have hrest := desk_read h
    have hrest := desk_read hrest
    have hret := desk_read hrest
    obtain ⟨rfl, rfl⟩ := Runs.ret_iff.mp hret
    exact ⟨rfl, 0, rfl⟩
  | getOwnerFd p => exact ⟨p, _, rfl, rfl, fun t m r m' h => hread h⟩
  | getOwnerIp p => exact ⟨p, _, rfl, rfl, fun t m r m' h => hread h⟩
  | getType p => exact ⟨p, _, rfl, rfl, fun t m r m' h => hread h⟩
  | statsItem p st =>
    refine ⟨p, _, rfl, rfl, fun t m r m' h => ?_⟩
    obtain ⟨rfl, hcount⟩ := desk_stats h
    exact ⟨rfl, 0, by rw [hcount]; rfl⟩
  | listItem p =>
    refine ⟨p, _, rfl, rfl, fun t m r m' h => ?_⟩
    have hrest := desk_read h
    have hrest := desk_read hrest
    have hrest := desk_read hrest
    have hret := desk_read hrest
    obtain ⟨rfl, rfl⟩ := Runs.ret_iff.mp hret
    exact ⟨rfl, 0, rfl⟩
  | historyItem dt p =>
    refine ⟨p, _, rfl, rfl, fun t m r m' h => ?_⟩
    obtain ⟨rfl, hitem⟩ := desk_history h
    exact ⟨rfl, 0, by rw [hitem]; rfl⟩
  | cancelItem p owner_fd =>
    refine ⟨p, _, rfl, rfl, fun t m r m' h => ?_⟩
    have hrest := desk_read h
    split at hrest
    · next heq =>
      have howns : m.2.owner_fd = owner_fd := heq
      obtain ⟨htable, hjob⟩ := desk_requestCancel hrest
      exact ⟨htable, 0, by rw [hjob, JobCall.outcome, if_pos howns]⟩
    · next hne =>
      have hother : ¬ m.2.owner_fd = owner_fd := hne
      obtain ⟨rfl, rfl⟩ := Runs.ret_iff.mp hrest
      exact ⟨rfl, 0, by rw [JobCall.outcome, if_neg hother]⟩

/-! The calls that take the table's mutex. -/

/-- The first job of the table with the `id`. -/
def TableMemory.lookup (m : TableMemory) (id : JobPtr → Nat) (job_id : UInt64) : Option JobPtr :=
  ((List.range m.count).filterMap m.slots).find? fun p => decide (id p = job_id.toNat)

theorem findFrom_runs {job_id : UInt64} {i left : Nat} {r : Option JobPtr}
    (h : Runs (Locks.machine T objects) t (findFrom job_id i left) s r s') :
    s' = s ∧ r = ((List.range' i left).filterMap (s .table).data.slots).find?
      fun p => decide ((s (.job p)).data.id = job_id.toNat) := by
  induction left generalizing i with
  | zero =>
    obtain ⟨rfl, rfl⟩ := Runs.ret_iff.mp h
    exact ⟨rfl, rfl⟩
  | succ left ih =>
    obtain ⟨slot, s₁, ⟨-, hslot, -, hs₁⟩, hrest⟩ := Runs.op_iff.mp h
    obtain rfl : s₁ = s := by
      rw [hs₁]
      exact Function.update_eq_self ..
    have hread : slot = (s₁ .table).data.slots i := hslot
    rw [List.range'_succ, List.filterMap_cons]
    cases hp : (s₁ .table).data.slots i with
    | none =>
      rw [hread, hp] at hrest
      exact ih hrest
    | some job =>
      rw [hread, hp] at hrest
      obtain ⟨id, s₂, ⟨-, hid, hs₂⟩, hmore⟩ := Runs.op_iff.mp hrest
      obtain rfl : s₂ = s₁ := hs₂
      have hpeek : id = (s₂ (.job job)).data.id := hid
      change Runs (Locks.machine T objects) t (if id = job_id.toNat then .ret (some job) else
        findFrom job_id (i + 1) left)
        s₂ r s' at hmore
      rw [List.find?_cons, ← hpeek]
      by_cases hfound : id = job_id.toNat
      · rw [if_pos hfound] at hmore
        obtain ⟨rfl, rfl⟩ := Runs.ret_iff.mp hmore
        rw [decide_eq_true hfound]
        exact ⟨rfl, rfl⟩
      · rw [if_neg hfound] at hmore
        rw [decide_eq_false hfound]
        exact ih hmore

theorem findLocked_runs {job_id : UInt64} {r : Option JobPtr}
    (h : Runs (Locks.machine T objects) t (findLocked job_id) s r s') :
    (s .table).owner = none ∧ (s .table).status = .shared ∧ s' = s ∧
      r = (s .table).data.lookup (fun p => (s (.job p)).data.id) job_id := by
  change Runs (Locks.machine T objects) t (.op (.lock JobLock.table) fun _ =>
    .op (.act JobLock.table TableAccess.readCount)
    fun count => findFrom job_id 0 count >>= fun r => .op (.release JobLock.table .unlock) fun _ =>
      .ret r) s r s' at h
  obtain ⟨u, s₁, ⟨hfree, hshared, rfl⟩, hrest⟩ := Runs.op_iff.mp h
  obtain ⟨count, s₂, ⟨-, hcount, -, hs₂⟩, hrest⟩ := Runs.op_iff.mp hrest
  obtain rfl : s₂ = _ := hs₂.trans (Function.update_eq_self ..)
  obtain ⟨found, s₃, hfind, hrest⟩ := Runs.bind_iff.mp hrest
  obtain ⟨rfl, hfound⟩ := findFrom_runs hfind
  obtain ⟨v, s₄, ⟨-, rfl⟩, hret⟩ := Runs.op_iff.mp hrest
  obtain ⟨rfl, rfl⟩ := Runs.ret_iff.mp hret
  refine ⟨hfree, hshared, ?_, ?_⟩
  · funext l
    by_cases hl : l = .table
    · rw [hl, put_here, put_here]
      simp only [Locks.Slot.release, Locks.Release.after, ← hfree, ← hshared]
    · rw [put_there _ _ hl, put_there _ _ hl]
  · rw [hfound, hcount, TableMemory.lookup, List.range_eq_range']
    simp only [put_here, TableAccess.act, put_there _ _ (table_ne_job _).symm]

/-- The statements of `publishJob` that put the job into the table. -/
def addToTable (job : JobPtr) : JobTask Unit := do
  let i ← readCount
  writeSlot i job
  let count ← readCount
  writeCount (count + 1)

theorem addToTable_all (p : JobPtr) : (addToTable p).All (DeskOp p) := by
  have htable : ∀ d : TableAccess,
    (.op (.act JobLock.table d) .ret : JobTask d.Answer).All (DeskOp p) :=
    fun d => ⟨.inl ⟨d, rfl⟩, fun _ => trivial⟩
  unfold addToTable
  exact (htable _).bind fun _ => (htable _).bind fun _ => (htable _).bind fun _ => htable _

section

variable {m m' : TableMemory × Job}

theorem desk_add {r : Unit} (h : Runs (desk T p) t (addToTable p) m r m') :
    m' = (m.1.add p, m.2) := by
  obtain ⟨i, m₁, hread, hrest⟩ := Runs.bind_iff.mp h
  obtain ⟨rfl, rfl⟩ := desk_table hread
  obtain ⟨u, m₂, hwrite, hrest⟩ := Runs.bind_iff.mp hrest
  obtain ⟨-, rfl⟩ := desk_table hwrite
  obtain ⟨count, m₃, hread, hwrite⟩ := Runs.bind_iff.mp hrest
  obtain ⟨rfl, rfl⟩ := desk_table hread
  exact (desk_table hwrite).2

theorem desk_writePayload {payload : Option Bytes} {r : Unit}
    (h : Runs (desk T p) t (writePayload p payload) m r m') (hzero : m.2.payload = []) :
    m' = (m.1, { m.2 with payload := snprintf maxJobPayload (payload.getD []) }) := by
  cases payload with
  | none =>
    obtain ⟨-, rfl⟩ := Runs.ret_iff.mp h
    have hempty : snprintf maxJobPayload [] = m'.2.payload := by rw [hzero]; rfl
    rw [Option.getD_none, hempty]
  | some payload => exact desk_writeCell h

theorem desk_writeInputPath {input_path : Option Bytes} {r : Unit}
    (h : Runs (desk T p) t (writeInputPath p input_path) m r m') (hzero : m.2.input_path = []) :
    m' = (m.1, { m.2 with input_path := snprintf maxJobPath (input_path.getD []) }) := by
  cases input_path with
  | none =>
    obtain ⟨-, rfl⟩ := Runs.ret_iff.mp h
    have hempty : snprintf maxJobPath [] = m'.2.input_path := by rw [hzero]; rfl
    rw [Option.getD_none, hempty]
  | some input_path => exact desk_writeCell h

theorem desk_fill {owner_fd : Int} {owner_ip : Bytes} {type : JobType}
    {payload input_path : Option Bytes} {table : TableMemory} {r : Unit}
    (h : Runs (desk T p) t (fillJob p owner_fd owner_ip type payload input_path)
      (table, zeroJob) r m') :
    ∃ now, m' = ({ table with next_id := table.next_id + 1 },
      newJob table.next_id owner_fd owner_ip type payload input_path now) := by
  obtain ⟨id, m₁, hid, h⟩ := Runs.bind_iff.mp h
  obtain ⟨rfl, rfl⟩ := desk_table hid
  have h := desk_write h
  obtain ⟨id, m₁, hid, h⟩ := Runs.bind_iff.mp h
  obtain ⟨rfl, rfl⟩ := desk_table hid
  obtain ⟨u, m₁, hwrite, h⟩ := Runs.bind_iff.mp h
  obtain ⟨-, rfl⟩ := desk_table hwrite
  have h := desk_write h
  have h := desk_write h
  have h := desk_write h
  have h := desk_write h
  have h := desk_write h
  have h := desk_write h
  have h := desk_write h
  obtain ⟨u, m₁, hwrite, h⟩ := Runs.bind_iff.mp h
  obtain rfl := desk_writePayload hwrite rfl
  obtain ⟨u, m₁, hwrite, h⟩ := Runs.bind_iff.mp h
  obtain rfl := desk_writeInputPath hwrite rfl
  obtain ⟨now, m₁, hclock, h⟩ := Runs.bind_iff.mp h
  obtain rfl := desk_clock hclock
  obtain rfl := desk_writeCell h
  exact ⟨now, rfl⟩

end

/-! The operation of each call. -/

inductive Operation (s : Memory T) : (b : JobCall) → b.Res → Memory T → Prop where
  /-- The job's mutex is free, and the record becomes what the call makes of it. -/
  | served {b : JobCall} {p : JobPtr} (now : Nat)
      (hp : b.pointers = [p]) (hfree : (s (.job p)).owner = none)
      (hshared : Locks.Shared s (.job p)) :
      Operation s b (b.outcome now (s (.job p)).data).1 (s.put (.job p) ⟨none, .shared,
        (b.outcome now (s (.job p)).data).2⟩)
  | found {job_id : UInt64} (hfree : (s .table).owner = none) (hshared : Locks.Shared s .table) :
      Operation s (.find job_id) ((s .table).data.lookup (fun p => (s (.job p)).data.id) job_id) s
  | created {owner_fd : Int} {owner_ip : Bytes} {type : JobType} {payload input_path : Option Bytes}
      {p : JobPtr} (now : Nat)
      (hfree : (s .table).owner = none) (hshared : Locks.Shared s .table)
      (hroom : (s .table).data.count < maxJobs)
      (habsent : (s (.job p)).status = .absent) :
      Operation s (.create owner_fd owner_ip type payload input_path) (some p)
        ((s.put .table ⟨none, .shared,
          { (s .table).data.add p with next_id := (s .table).data.next_id + 1 }⟩).put (.job p)
          ⟨none, .shared, newJob (s .table).data.next_id owner_fd owner_ip type payload
            input_path now⟩)
  /-- Nothing that exists has changed, and nothing has been left behind. -/
  | refused {owner_fd : Int} {owner_ip : Bytes} {type : JobType} {payload input_path : Option Bytes}
      {s' : Memory T}
      (hsame : ∀ l, (s l).status ≠ .absent → s' l = s l)
      (hgone : ∀ l, (s l).status = .absent → (s' l).status = .absent) :
      Operation s (.create owner_fd owner_ip type payload input_path) none s'

theorem section_runs {b : JobCall} (hb : ¬ b.TakesTable) {r : b.Res}
    (h : Runs (Locks.machine T objects) t b.body s r s') :
    Operation s b r s' := by
  obtain ⟨p, body, hp, hbody, houtcome⟩ := b.section_outcome (T := T) hb
  have hall : body.All (DeskOp p) := by
    obtain ⟨q, body', hq, hbody', hall⟩ := b.one_section hb
    obtain rfl : p = q := by simpa using hp.symm.trans hq
    obtain rfl := jobLocked_inj (hbody.symm.trans hbody')
    refine hall.mono fun o ho => ?_
    rcases ho with ⟨c, rfl⟩ | ⟨c, v, -, rfl⟩ | ⟨i, rfl⟩
    · exact .inr (.inl ⟨_, rfl⟩)
    · exact .inr (.inl ⟨_, rfl⟩)
    · exact .inr (.inr ⟨i, rfl⟩)
  rw [hbody] at h
  change Runs (Locks.machine T objects) t (.op (.lock (JobLock.job p)) fun _ => body >>= fun a =>
    .op (.release (JobLock.job p) .unlock) fun _ => .ret a) s r s' at h
  obtain ⟨u, s₁, ⟨hfree, hshared, rfl⟩, hrest⟩ := Runs.op_iff.mp h
  obtain ⟨a, s₂, hruns, hrest⟩ := Runs.bind_iff.mp hrest
  rw [← onDesk_same (s.put (.job p) { s (.job p) with owner := some t }) p] at hruns
  obtain ⟨m', hdesk, rfl⟩ := desk_runs hall hruns
  obtain ⟨v, s₃, ⟨-, rfl⟩, hret⟩ := Runs.op_iff.mp hrest
  obtain ⟨rfl, rfl⟩ := Runs.ret_iff.mp hret
  obtain ⟨htable, now, hjob⟩ := houtcome t _ _ _ hdesk
  rw [put_here] at hjob
  have hr : r = (b.outcome now (s (.job p)).data).1 := congrArg Prod.fst hjob
  have hdata : m'.2 = (b.outcome now (s (.job p)).data).2 := congrArg Prod.snd hjob
  have hstate : (onDesk (s.put (.job p) { s (.job p) with owner := some t }) p m').put (.job p)
      ((onDesk (s.put (.job p) { s (.job p) with owner := some t }) p m'
        (.job p)).release .unlock) =
      s.put (.job p) ⟨none, .shared, (b.outcome now (s (.job p)).data).2⟩ := by
    funext l
    by_cases hl : l = .job p
    · rw [hl, put_here, put_here, onDesk_job, ← hdata]
      rfl
    · rw [put_there _ _ hl, put_there _ _ hl]
      by_cases htab : l = .table
      · rw [htab, onDesk_table, htable, put_there _ _ (table_ne_job p)]
      · rw [onDesk_other _ _ htab hl, put_there _ _ hl]
  rw [hstate, hr]
  exact .served now hp hfree hshared

section

variable {owner_fd : Int} {owner_ip : Bytes} {type : JobType} {payload input_path : Option Bytes}
  {r : Option JobPtr}

/-- A block that has come and gone. -/
theorem Operation.gone (habsent : (s (.job p)).status = .absent)
    (hgone : (s' (.job p)).status = .absent) (hleft : ∀ l, l ≠ .job p → s' l = s l) :
    Operation s (.create owner_fd owner_ip type payload input_path) none s' := by
  refine .refused (fun l hl => hleft l ?_) fun l hl => ?_
  · rintro rfl
    exact hl habsent
  · by_cases hself : l = .job p
    · rw [hself]
      exact hgone
    · rw [hleft l hself]
      exact hl

/-- From the table's lock on: the job is filled in, put into the table and shared. -/
theorem publication_runs {s₀ : Memory T} (htable : s₀ .table = { s .table with owner := some t })
    (hjob : s₀ (.job p) = ⟨some t, .secret, zeroJob⟩)
    (hother : ∀ l, l ≠ .table → l ≠ .job p → s₀ l = s l)
    (h : Runs (Locks.machine T objects) t
      (fillJob p owner_fd owner_ip type payload input_path >>= fun _ => addToTable p >>= fun _ =>
        .op (.release (JobLock.job p) .share) fun _ =>
        .op (.release JobLock.table .unlock) fun _ => .ret (some p)) s₀ r s') :
    r = some p ∧ ∃ now,
      s' = (s.put .table ⟨none, .shared,
        { (s .table).data.add p with next_id := (s .table).data.next_id + 1 }⟩).put (.job p)
        ⟨none, .shared, newJob (s .table).data.next_id owner_fd owner_ip type payload
          input_path now⟩ := by
  obtain ⟨u, s₁, hfill, hfilled⟩ := Runs.bind_iff.mp h
  obtain ⟨v, s₂, hadd, hadded⟩ := Runs.bind_iff.mp hfilled
  rw [← onDesk_same s₀ p] at hfill
  have hall : (fillJob p owner_fd owner_ip type payload input_path).All (DeskOp p) := by
    refine (fillJob_all p owner_fd owner_ip type payload input_path).mono fun o ho => ?_
    rcases ho with ⟨d, rfl⟩ | (rfl | ⟨n, rfl⟩) | ⟨i, rfl⟩
    · exact .inr (.inl ⟨_, rfl⟩)
    · exact .inl ⟨_, rfl⟩
    · exact .inl ⟨_, rfl⟩
    · exact .inr (.inr ⟨i, rfl⟩)
  obtain ⟨m, hdesk, rfl⟩ := desk_runs hall hfill
  rw [htable, hjob] at hdesk
  obtain ⟨now, rfl⟩ := desk_fill hdesk
  obtain ⟨m, hdesk', rfl⟩ := desk_runs (addToTable_all p) hadd
  obtain rfl := desk_add hdesk'
  obtain ⟨w, s₃, ⟨-, hs₃⟩, hshare⟩ := Runs.op_iff.mp hadded
  obtain ⟨x, s₄, ⟨-, hs₄⟩, hret⟩ := Runs.op_iff.mp hshare
  obtain ⟨rfl, rfl⟩ := Runs.ret_iff.mp hret
  refine ⟨rfl, now, ?_⟩
  funext l
  by_cases hself : l = .job p
  · rw [hself, put_here, hs₄, put_there _ _ (table_ne_job p).symm, hs₃, put_here, onDesk_job]
    rfl
  · rw [put_there _ _ hself]
    by_cases htab : l = .table
    · rw [htab, put_here, hs₄, put_here, hs₃, put_there _ _ (table_ne_job p), onDesk_table]
      rfl
    · rw [put_there _ _ htab, hs₄, put_there _ _ htab, hs₃, put_there _ _ hself,
        onDesk_other _ _ htab hself, hother l htab hself]

theorem create_runs
    (h : Runs (Locks.machine T objects) t
      (jobTableCreateJob owner_fd owner_ip type payload input_path) s r s') :
    Operation s (.create owner_fd owner_ip type payload input_path) r s' := by
  change Runs (Locks.machine T objects) t (.op .alloc fun block => match block with
    | none => .ret none
    | some job =>
      .op (.ask JobInput.mutexInit) fun ok => if !ok then .op (.release (JobLock.job job) .free)
        fun _ => .ret none
      else .op (.lock JobLock.table) fun _ => .op (.act JobLock.table TableAccess.readCount)
        fun count => if count ≥ maxJobs then
        .op (.release JobLock.table .unlock) fun _ => .op (.release (JobLock.job job) .free)
          fun _ => .ret none
      else fillJob job owner_fd owner_ip type payload input_path >>= fun _ =>
        addToTable job >>= fun _ =>
        .op (.release (JobLock.job job) .share) fun _ =>
          .op (.release JobLock.table .unlock) fun _ => .ret (some job)) s r s' at h
  obtain ⟨block, s₁, halloc, hblock⟩ := Runs.op_iff.mp h
  clear h
  cases block with
  | none =>
    obtain rfl : s₁ = s := halloc
    obtain ⟨rfl, rfl⟩ := Runs.ret_iff.mp hblock
    exact .refused (fun _ _ => rfl) fun _ hl => hl
  | some p =>
    obtain ⟨howner, habsent, rfl⟩ := halloc
    obtain ⟨ok, s₂, hok, hinit⟩ := Runs.op_iff.mp hblock
    clear hblock
    obtain rfl : s₂ = s.put (.job p) ⟨some t, .secret, zeroJob⟩ := hok
    cases ok with
    | false =>
      obtain ⟨u, s₃, ⟨-, rfl⟩, hret⟩ := Runs.op_iff.mp hinit
      obtain ⟨rfl, rfl⟩ := Runs.ret_iff.mp hret
      refine .gone habsent (by rw [put_here]; rfl) fun l hl => ?_
      rw [put_there _ _ hl, put_there _ _ hl]
    | true =>
      obtain ⟨u, s₃, ⟨hfree, hshared, hs₃⟩, hlocked⟩ := Runs.op_iff.mp hinit
      clear hinit
      rw [put_there _ _ (table_ne_job p)] at hfree hshared hs₃
      obtain ⟨count, s₄, ⟨-, hcount, -, hs₄⟩, hcounted⟩ := Runs.op_iff.mp hlocked
      clear hlocked
      obtain rfl : s₄ = s₃ := hs₄.trans (Function.update_eq_self ..)
      have htable : s₄ .table = { s .table with owner := some t } := by rw [hs₃, put_here]
      have hjob : s₄ (.job p) = ⟨some t, .secret, zeroJob⟩ := by
        rw [hs₃, put_there _ _ (table_ne_job p).symm, put_here]
      have hother : ∀ l, l ≠ .table → l ≠ .job p → s₄ l = s l := fun l htab hl => by
        rw [hs₃, put_there _ _ htab, put_there _ _ hl]
      have hback : Locks.Slot.release { s .table with owner := some t } .unlock = s .table := by
        simp only [Locks.Slot.release, Locks.Release.after, ← hfree, ← hshared]
      have hread : count = (s .table).data.count := by
        rw [hcount, htable]
        rfl
      clear hcount hs₄ hs₃
      by_cases hfull : count ≥ maxJobs
      · rw [if_pos hfull] at hcounted
        obtain ⟨u, s₅, ⟨-, hs₅⟩, hunlocked⟩ := Runs.op_iff.mp hcounted
        obtain ⟨v, s₆, ⟨-, hs₆⟩, hret⟩ := Runs.op_iff.mp hunlocked
        obtain ⟨rfl, rfl⟩ := Runs.ret_iff.mp hret
        refine .gone habsent (by rw [hs₆, put_here]; rfl) fun l hl => ?_
        rw [hs₆, put_there _ _ hl, hs₅]
        by_cases htab : l = .table
        · rw [htab, put_here, htable, hback]
        · rw [put_there _ _ htab, hother l htab hl]
      · rw [if_neg hfull] at hcounted
        obtain ⟨rfl, now, rfl⟩ := publication_runs htable hjob hother hcounted
        exact .created now hfree hshared (hread ▸ Nat.lt_of_not_le hfull) habsent

end

theorem JobCall.runs (b : JobCall) {r : b.Res}
    (h : Runs (Locks.machine T objects) t b.body s r s') : Operation s b r s' := by
  by_cases hb : b.TakesTable
  · cases b with
    | create owner_fd owner_ip type payload input_path => exact create_runs h
    | find job_id =>
      obtain ⟨hfree, hshared, rfl, rfl⟩ := findLocked_runs h
      exact .found hfree hshared
    | _ => exact hb.elim
  · exact section_runs hb h

/-! Whole runs. -/

/-- The machine on which every call is the operation that the server's model has for it. -/
def operations (T : Type) :
    Machine (Locks.Call JobCall objects) (Locks.Call.Answer JobCall.Res) T (Memory T) where
  step
    | _, .call b, s, r, s' => Operation s b r s'
    | t, .prim o, s, a, s' => Locks.effect t o s a s'
  turn _ s := s

variable {Loc : Type} [DecidableEq T] {known : Loc → List JobPtr}
  {prog : T → Loc → JobClient (Option Loc)} {first : T → Option Loc}
  {c : Config (Locks.Op objects) (Locks.Answer objects) T (Memory T) Loc} {c' : CallConfig T Loc}

/-- The configurations that the threads reach operation by operation. -/
def ReachedByOperations (prog : T → Loc → JobClient (Option Loc)) (first : T → Option Loc)
    (c : CallConfig T Loc) : Prop :=
  Config.Reachable (operations T) prog ⟨emptyTable, fun t => (first t).map (prog t)⟩ c

theorem ReachedByCalls.operations (h : ReachedByCalls prog first c') :
    ReachedByOperations prog first c' := by
  induction h with
  | refl => exact .refl
  | tail _ hstep ih =>
    cases hstep with
    | @op t o k a s ht hs =>
      cases o with
      | call b => exact ih.tail (.op (M := Locked.operations T) ht (b.runs hs))
      | prim o => exact ih.tail (.op (M := Locked.operations T) ht hs)
    | again ht => exact ih.tail (.again ht)
    | halt ht => exact ih.tail (.halt ht)

/-- Whatever the threads reach with `job.c` statement by statement, they reach with its
calls one after the other, each of them the operation of the server's model. -/
theorem job_calls_linearize (hprog : ∀ t l, Proper (TurnOver known) false (known l) (prog t l))
    (h : Reached prog first c) :
    ∃ c', ReachedByOperations prog first c' ∧ SameOutside c c' := by
  obtain ⟨helds, c', hreach, hsim⟩ := h.reduced hprog
  exact ⟨c', hreach.operations, sameOutside_of hsim⟩

theorem job_calls_linearize_contended : ∃ c c', Reached creatorAndReader (fun _ => some ()) c ∧
    (c.state .table).owner = some (.worker 0) ∧
      ReachedByOperations creatorAndReader (fun _ => some ()) c' ∧ SameOutside c c' := by
  obtain ⟨c, hreach, htable, -, -⟩ := creatorAndReader_contend
  obtain ⟨c', hops, hsame⟩ := job_calls_linearize creatorAndReader_proper hreach
  exact ⟨c, c', hreach, htable, hops, hsame⟩

end Locked

end StegaPng
