import StegaPng.ServerRuns

/-! The life of a job: the moves of its state, and what never changes back. -/

namespace StegaPng

open Interleaving

/-- The state a job has been left in. -/
def lastState (job : Nat) (h : List Mark) : JobState := (statesOf job h).headD .queued

/-- The moves of a job's state, given what has happened before. -/
inductive Moves (job : Nat) (past : List Mark) : JobState → JobState → Prop
  | start : Moves job past .queued .running
  | finish : Moves job past .running .done
  | fail : Moves job past .running .failed
  | stop {st : JobState} (hack : .cancelAck job st ∈ past) : Moves job past .running .canceled
  | drop {st : JobState} (hack : .cancelAck job st ∈ past) : Moves job past .queued .canceled
  | refuse (hpush : .pushFailed job ∈ past) : Moves job past .queued .failed

/-- Every change of the job's state that the history records is a move. -/
def LifeCycle (job : Nat) : List Mark → Prop
  | [] => True
  | .state _ j st :: h => (j = job → Moves job h (lastState job h) st) ∧ LifeCycle job h
  | _ :: h => LifeCycle job h

/-- A change of a record that is still live, or none. -/
inductive RecordStep (r : Job) : Job → Prop
  | same : RecordStep r r
  | set (u : JobUpdate) (now : Nat) (hlive : ¬ r.state.Terminal) : RecordStep r (u.apply now r)
  | cancel (hlive : ¬ r.state.Terminal) : RecordStep r { r with cancel_requested := true }

theorem RecordStep.of_eq {r r' : Job} (h : r' = r) : RecordStep r r' := h ▸ .same

@[simp] theorem JobUpdate.apply_cancel_requested (now : Nat) (r : Job) (u : JobUpdate) :
    (u.apply now r).cancel_requested = r.cancel_requested := by
  cases u <;> rfl

@[simp] theorem JobUpdate.apply_type (now : Nat) (r : Job) (u : JobUpdate) :
    (u.apply now r).type = r.type := by
  cases u <;> rfl

theorem JobUpdate.apply_state (now : Nat) (r : Job) {u : JobUpdate} (hu : ∀ st, u ≠ .state st) :
    (u.apply now r).state = r.state := by
  cases u with
  | state st => exact absurd rfl (hu st)
  | _ => rfl

theorem JobUpdate.marks_nil {u : JobUpdate} (hu : ∀ st, u ≠ .state st) (t : Tid) (job : Nat) :
    u.marks t job = [] := by
  cases u with
  | state st => exact absurd rfl (hu st)
  | _ => rfl

section

variable {cfg : RuntimeConfig} {codec : PngCodec} {s s' : Sys} {t : Tid} {o : Op}
  {marks : List Mark} {j : Nat}

/-- Only the thread that makes or holds a job writes into its record, and only while
the job is live. -/
theorem Inv.writes_live (hinv : Inv cfg codec s) {u : JobUpdate}
    (hallowed : Allowed cfg codec t (.setJob j u) s) :
    ¬ (s.world.job j).state.Terminal ∧ j < s.world.jobs.length := by
  rcases hallowed with ⟨-, hmaking, -⟩ | ⟨hheld, hlive, -⟩
  · obtain ⟨hlast, hqueued, -⟩ := hinv.made j hmaking
    exact ⟨by rw [hqueued]; decide, by omega⟩
  · exact ⟨hlive, hinv.held_lt hheld⟩

theorem Inv.record_step (hinv : Inv cfg codec s) (hallowed : Allowed cfg codec t o s)
    (heffect : Effect t s.world o s'.world marks) (hj : j < s.world.jobs.length) :
    j < s'.world.jobs.length ∧ RecordStep (s.world.job j) (s'.world.job j) := by
  obtain ⟨w', h'⟩ := s'
  dsimp only at heffect ⊢
  have hsame : w'.jobs = s.world.jobs → j < w'.jobs.length ∧
    RecordStep (s.world.job j) (w'.job j) := by
    intro hjobs
    rw [hjobs, World.job_congr hjobs]
    exact ⟨hj, .same⟩
  cases heffect with
  | quiet hcore => exact hsame hcore.jobs
  | input ho hcore => exact hsame hcore.jobs
  | file ho hcore => exact hsame hcore.jobs
  | created now hroom =>
    refine ⟨?_, .of_eq (World.job_append rfl hj)⟩
    rw [List.length_append]
    exact Nat.lt_add_right _ hj
  | @set k u now =>
    obtain ⟨hlive, hk⟩ := hinv.writes_live hallowed
    refine ⟨by rw [World.updateJob_length]; exact hj, ?_⟩
    by_cases hkj : j = k
    · subst hkj
      rw [World.updateJob_job _ hj]
      exact .set u now hlive
    · rw [World.updateJob_job_ne _ hkj]
      exact .same
  | @canceled k hlive =>
    refine ⟨by rw [World.updateJob_length]; exact hj, ?_⟩
    by_cases hkj : j = k
    · subst hkj
      rw [World.updateJob_job _ hj]
      refine .cancel fun hterminal => ?_
      rcases hlive with hstate | hstate <;> rw [hstate] at hterminal <;>
        exact absurd hterminal (by decide)
    · rw [World.updateJob_job_ne _ hkj]
      exact .same
  | pushed => exact hsame rfl
  | pushFailed => exact hsame rfl
  | popped => exact hsame rfl
  | event => exact hsame rfl

/-- Every job's record is as `I` says. -/
def Records (I : Nat → Job → Prop) (s : Sys) : Prop := ∀ j < s.world.jobs.length,
    I j (s.world.job j)

/-- What holds of the new record, and survives the write, holds of every record after
the step. -/
theorem Effect.records {I : Nat → Job → Prop} (heffect : Effect t s.world o s'.world marks)
    (hnew : ∀ owner_fd owner_ip type payload input_path now,
      o = .createJob owner_fd owner_ip type payload input_path →
      I s.world.jobs.length (newJob s.world.next_id owner_fd owner_ip type payload input_path now))
    (hset : ∀ j u now, o = .setJob j u → I j (s.world.job j) → I j (u.apply now (s.world.job j)))
    (hcancel : ∀ j r, I j r → I j { r with cancel_requested := true }) (hs : Records I s) :
    Records I s' := by
  intro k hk
  obtain ⟨w', h'⟩ := s'
  dsimp only at heffect hk ⊢
  have hsame : w'.jobs = s.world.jobs → I k (w'.job k) := by
    intro hjobs
    rw [World.job_congr hjobs]
    exact hs k (hjobs ▸ hk)
  cases heffect with
  | quiet hcore => exact hsame hcore.jobs
  | input ho hcore => exact hsame hcore.jobs
  | file ho hcore => exact hsame hcore.jobs
  | created now hroom =>
    by_cases hlast : k = s.world.jobs.length
    · subst hlast
      rw [World.job_append_last rfl]
      exact hnew _ _ _ _ _ now rfl
    · have hlt : k < s.world.jobs.length := by
        rw [List.length_append, List.length_singleton] at hk
        omega
      rw [World.job_append rfl hlt]
      exact hs k hlt
  | @set m u now =>
    rw [World.updateJob_length] at hk
    by_cases hkm : k = m
    · subst hkm
      rw [World.updateJob_job _ hk]
      exact hset k u now rfl (hs k hk)
    · rw [World.updateJob_job_ne _ hkm]
      exact hs k hk
  | @canceled m hlive =>
    rw [World.updateJob_length] at hk
    by_cases hkm : k = m
    · subst hkm
      rw [World.updateJob_job _ hk]
      exact hcancel k _ (hs k hk)
    · rw [World.updateJob_job_ne _ hkm]
      exact hs k hk
  | pushed => exact hsame rfl
  | pushFailed => exact hsame rfl
  | popped => exact hsame rfl
  | event => exact hsame rfl

/-- The history accounts for every job's state and for every cancel request. -/
structure Accounted (s : Sys) : Prop where
  cycle : ∀ j, LifeCycle j s.history
  state : ∀ j < s.world.jobs.length, (s.world.job j).state = lastState j s.history
  fresh : ∀ j, s.world.jobs.length ≤ j → lastState j s.history = .queued
  acked : ∀ j < s.world.jobs.length, (s.world.job j).cancel_requested = true →
    ∃ st, .cancelAck j st ∈ s.history

theorem Accounted.plain (hacc : Accounted s) (hjobs : s'.world.jobs = s.world.jobs)
    (hhistory : s'.history = marks ++ s.history)
    (hmarks : ∀ m ∈ marks, ∀ t j st, m ≠ .state t j st) :
    Accounted s' := by
  have hcycle : ∀ j, LifeCycle j s'.history = LifeCycle j s.history := by
    intro j
    rw [hhistory]
    refine ignores_append (f := LifeCycle j) (fun m hm h => ?_) _
    cases m with
    | state t k st => exact absurd rfl (hmarks _ hm t k st)
    | _ => rfl
  have hlast : ∀ j, lastState j s'.history = lastState j s.history := by
    intro j
    rw [hhistory]
    refine ignores_append (f := lastState j) (fun m hm h => ?_) _
    cases m with
    | state t k st => exact absurd rfl (hmarks _ hm t k st)
    | _ => rfl
  refine ⟨fun j => ?_, fun j hj => ?_, fun j hj => ?_, fun j hj hcancel => ?_⟩
  · rw [hcycle]
    exact hacc.cycle j
  · rw [hlast, World.job_congr hjobs]
    exact hacc.state j (hjobs ▸ hj)
  · rw [hlast]
    exact hacc.fresh j (hjobs ▸ hj)
  · rw [World.job_congr hjobs] at hcancel
    obtain ⟨st, hack⟩ := hacc.acked j (hjobs ▸ hj) hcancel
    exact ⟨st, by rw [hhistory]; exact List.mem_append_right _ hack⟩

theorem Mark.Quiet.not_state {m : Mark} (hm : m.Quiet t) : ∀ u j st, m ≠ .state u j st := by
  cases hm <;> exact fun _ _ _ => nofun

theorem Mark.Input.not_state {m : Mark} (hm : m.Input) : ∀ u j st, m ≠ .state u j st := by
  cases hm <;> exact fun _ _ _ => nofun

theorem MayBecome.moves (hacc : Accounted s) (hj : j < s.world.jobs.length) {st : JobState}
    (hmay : MayBecome cfg codec t s (s.world.job j) st) :
    Moves j s.history (lastState j s.history) st := by
  rw [← hacc.state j hj]
  have hacked := hacc.acked j hj
  unfold MayBecome at hmay
  cases hstate : (s.world.job j).state <;> cases st <;> simp only [hstate] at hmay
  · exact .start
  · obtain ⟨ack, hack⟩ := hacked hmay.1
    exact .drop hack
  · exact .finish
  · exact .fail
  · obtain ⟨ack, hack⟩ := hacked hmay.1
    exact .stop hack

theorem Accounted.moved (hacc : Accounted s) (hj : j < s.world.jobs.length)
    {st : JobState} {now : Nat} (hmoves : Moves j s.history (lastState j s.history) st)
    (hworld : s'.world = s.world.updateJob j (JobUpdate.apply now · (.state st)))
    (hhistory : s'.history = .state t j st :: s.history) : Accounted s' := by
  have hlength : s'.world.jobs.length = s.world.jobs.length := by
    rw [hworld, World.updateJob_length]
  have hlast : ∀ k, k ≠ j → lastState k s'.history = lastState k s.history := by
    intro k hk
    rw [hhistory]
    simp [lastState, statesOf, hk.symm]
  refine ⟨fun k => ?_, fun k hk => ?_, fun k hk => ?_, fun k hk hcancel => ?_⟩
  · rw [hhistory]
    exact ⟨fun hjk => hjk ▸ hmoves, hacc.cycle k⟩
  · by_cases hkj : k = j
    · subst hkj
      rw [hworld, World.updateJob_job _ hj, hhistory]
      simp [lastState, statesOf, JobUpdate.apply]
    · rw [hlast k hkj, hworld, World.updateJob_job_ne _ hkj]
      exact hacc.state k (hlength ▸ hk)
  · rw [hlast k (by omega)]
    exact hacc.fresh k (hlength ▸ hk)
  · have hcancel' : (s.world.job k).cancel_requested = true := by
      by_cases hkj : k = j
      · subst hkj
        rw [hworld, World.updateJob_job _ hj] at hcancel
        exact hcancel
      · rw [hworld, World.updateJob_job_ne _ hkj] at hcancel
        exact hcancel
    obtain ⟨ack, hack⟩ := hacc.acked k (hlength ▸ hk) hcancel'
    exact ⟨ack, by rw [hhistory]; exact List.mem_cons_of_mem _ hack⟩

theorem Accounted.rewritten (hacc : Accounted s) (hj : j < s.world.jobs.length) {f : Job → Job}
    (hstate : ∀ r, (f r).state = r.state)
    (hcancel : ∀ r, (f r).cancel_requested = r.cancel_requested)
    (hworld : s'.world = s.world.updateJob j f) (hhistory : s'.history = s.history) :
    Accounted s' := by
  have hlength : s'.world.jobs.length = s.world.jobs.length := by
    rw [hworld, World.updateJob_length]
  have hjob : ∀ k, (s'.world.job k).state = (s.world.job k).state ∧
      (s'.world.job k).cancel_requested = (s.world.job k).cancel_requested := by
    intro k
    rw [hworld]
    by_cases hkj : k = j
    · subst hkj
      rw [World.updateJob_job _ hj]
      exact ⟨hstate _, hcancel _⟩
    · rw [World.updateJob_job_ne _ hkj]
      exact ⟨rfl, rfl⟩
  refine ⟨fun k => ?_, fun k hk => ?_, fun k hk => ?_, fun k hk hset => ?_⟩ <;> rw [hhistory]
  · exact hacc.cycle k
  · rw [(hjob k).1]
    exact hacc.state k (hlength ▸ hk)
  · exact hacc.fresh k (hlength ▸ hk)
  · rw [(hjob k).2] at hset
    exact hacc.acked k (hlength ▸ hk) hset

theorem Accounted.step (hacc : Accounted s) (hinv : Inv cfg codec s)
    (hallowed : Allowed cfg codec t o s) (heffect : Effect t s.world o s'.world marks)
    (hhistory : s'.history = marks ++ s.history) : Accounted s' := by
  obtain ⟨w', h'⟩ := s'
  dsimp only at heffect hhistory
  cases heffect with
  | quiet hcore _ hmarks => exact hacc.plain hcore.jobs hhistory fun m hm => (hmarks m hm).not_state
  | input _ hcore _ hmarks =>
    exact hacc.plain hcore.jobs hhistory fun m hm => (hmarks m hm).not_state
  | file _ hcore _ hmarks =>
    exact hacc.plain hcore.jobs hhistory fun m hm => (hmarks m hm).not_state
  | created now hroom =>
    have hlast : ∀ j, lastState j h' = lastState j s.history := by
      intro j
      rw [hhistory]
      rfl
    refine ⟨fun j => ?_, fun j hj => ?_, fun j hj => ?_, fun j hj hcancel => ?_⟩
    · rw [hhistory]
      exact hacc.cycle j
    · rw [hlast]
      rcases Nat.lt_or_eq_of_le (Nat.le_of_lt_succ (by simpa using hj)) with hold | rfl
      · rw [World.job_append rfl hold]
        exact hacc.state j hold
      · rw [World.job_append_last rfl]
        exact (hacc.fresh _ (Nat.le_refl _)).symm
    · rw [hlast]
      refine hacc.fresh j (Nat.le_trans ?_ hj)
      exact (List.prefix_append _ _).length_le
    · rw [hhistory]
      rcases Nat.lt_or_eq_of_le (Nat.le_of_lt_succ (by simpa using hj)) with hold | rfl
      · rw [World.job_append rfl hold] at hcancel
        obtain ⟨st, hack⟩ := hacc.acked j hold hcancel
        exact ⟨st, List.mem_append_right _ hack⟩
      · rw [World.job_append_last rfl] at hcancel
        cases hcancel
  | @set j u now =>
    obtain ⟨-, hj⟩ := hinv.writes_live hallowed
    by_cases hu : ∀ st, u ≠ .state st
    · rw [JobUpdate.marks_nil hu] at hhistory
      exact hacc.rewritten hj (fun r => JobUpdate.apply_state now r hu) (fun r =>
        JobUpdate.apply_cancel_requested now r u)
        rfl hhistory
    · obtain ⟨st, rfl⟩ : ∃ st, u = .state st := by
        by_contra hnone
        exact hu fun st hst => hnone ⟨st, hst⟩
      refine hacc.moved hj ?_ rfl hhistory
      rcases hallowed with ⟨rfl, hmaking, rfl, hpush, -⟩ | ⟨-, -, hmay⟩
      · rw [← hacc.state j hj, (hinv.made j hmaking).2.1]
        exact .refuse hpush
      · exact MayBecome.moves hacc hj hmay.1
  | @canceled j hlive =>
    have hlast : ∀ k, lastState k h' = lastState k s.history := by
      intro k
      rw [hhistory]
      rfl
    have hj := hallowed.2.1
    refine ⟨fun k => ?_, fun k hk => ?_, fun k hk => ?_, fun k hk hcancel => ?_⟩
    · rw [hhistory]
      exact hacc.cycle k
    · rw [World.updateJob_length] at hk
      rw [hlast]
      by_cases hkj : k = j
      · subst hkj
        rw [World.updateJob_job _ hj]
        exact hacc.state k hk
      · rw [World.updateJob_job_ne _ hkj]
        exact hacc.state k hk
    · rw [World.updateJob_length] at hk
      rw [hlast]
      exact hacc.fresh k hk
    · rw [World.updateJob_length] at hk
      rw [hhistory]
      by_cases hkj : k = j
      · subst hkj
        exact ⟨_, List.mem_cons_self ..⟩
      · rw [World.updateJob_job_ne _ hkj] at hcancel
        obtain ⟨st, hack⟩ := hacc.acked k hk hcancel
        exact ⟨st, List.mem_append_right _ hack⟩
  | pushed => exact hacc.plain rfl hhistory (by simp)
  | pushFailed => exact hacc.plain rfl hhistory (by simp)
  | popped => exact hacc.plain rfl hhistory (by simp)
  | event => exact hacc.plain rfl hhistory (by simp)

end

section

variable {codec : PngCodec} {cfg : RuntimeConfig} {dt : DurationText} {fds : ServerFds}
  {files : Bytes → Option Bytes} {c c' : ServerConfig} {j : Nat}

theorem ServerReachable.accounted (h : ServerReachable codec cfg dt fds files c) :
    Accounted c.state := by
  refine ServerReachable.preserves (c := initialConfig cfg dt fds files) .refl h ?_ ?_ ?_
  · rintro t o s a s' hinv hallowed ⟨e, marks, -, hexec, hhistory⟩ hacc
    exact hacc.step hinv hallowed (exec_effect hexec) hhistory
  · intro t s hacc
    have hmarks : ∀ m ∈ [Mark.turn t], ∀ u j st, m ≠ .state u j st := by simp
    exact hacc.plain rfl rfl hmarks
  · exact ⟨fun _ => trivial, nofun, fun _ _ => rfl, nofun⟩

/-- What the steps on a live record preserve, the rest of the run preserves. -/
theorem ServerReachable.record_preserves (h : ServerReachable codec cfg dt fds files c)
    (hlater : Config.Reachable (machine codec) (serverBody cfg dt fds) c c') {P : Job → Prop}
    (hP : ∀ r r', RecordStep r r' → P r → P r') (hj : j < c.state.world.jobs.length)
    (hc : P (c.state.world.job j)) :
    j < c'.state.world.jobs.length ∧ P (c'.state.world.job j) := by
  refine h.preserves hlater (P := fun s => j < s.world.jobs.length ∧
    P (s.world.job j)) ?_ (fun _ _ hs => hs) ⟨hj, hc⟩
  rintro t o s a s' hinv hallowed ⟨e, marks, -, hexec, hhistory⟩ ⟨hlt, hs⟩
  obtain ⟨hlt', hrecord⟩ := hinv.record_step hallowed (exec_effect hexec) hlt
  exact ⟨hlt', hP _ _ hrecord hs⟩

/-- What holds of every new record, and survives every write that the conduct allows,
holds of every record. -/
theorem ServerReachable.record_invariant (h : ServerReachable codec cfg dt fds files c)
    {I : Nat → Job → Prop} (hnew : ∀ s owner_fd owner_ip type payload input_path now,
      Inv cfg codec s →
      Allowed cfg codec .main (.createJob owner_fd owner_ip type payload input_path) s →
      I s.world.jobs.length (newJob s.world.next_id owner_fd owner_ip type payload input_path now))
    (hset : ∀ s t j u now, Inv cfg codec s → Allowed cfg codec t (.setJob j u) s →
      I j (s.world.job j) →
      I j (u.apply now (s.world.job j)))
    (hcancel : ∀ j r, I j r → I j { r with cancel_requested := true })
    (hj : j < c.state.world.jobs.length) :
    I j (c.state.world.job j) := by
  refine ServerReachable.preserves (c := initialConfig cfg dt fds files) (P := Records I) .refl h ?_
    (fun _ _ hs => hs) nofun j hj
  rintro t o s a s' hinv hallowed ⟨e, marks, -, hexec, -⟩ hs
  refine (exec_effect hexec).records ?_ ?_ hcancel hs
  · rintro owner_fd owner_ip type payload input_path now rfl
    obtain rfl : t = .main := hallowed.1
    exact hnew s _ _ _ _ _ now hinv hallowed
  · rintro j u now rfl
    exact hset s t j u now hinv hallowed

theorem ServerReachable.record_frozen (h : ServerReachable codec cfg dt fds files c)
    (hlater : Config.Reachable (machine codec) (serverBody cfg dt fds) c c')
    (hj : j < c.state.world.jobs.length) (hterminal : (c.state.world.job j).state.Terminal) :
    j < c'.state.world.jobs.length ∧ c'.state.world.job j = c.state.world.job j := by
  refine h.record_preserves hlater (P := fun r => r = c.state.world.job j) ?_ hj rfl
  rintro r r' hrecord rfl
  cases hrecord with
  | same => rfl
  | set u now hlive => exact absurd hterminal hlive
  | cancel hlive => exact absurd hterminal hlive

theorem ServerReachable.cancel_kept (h : ServerReachable codec cfg dt fds files c)
    (hlater : Config.Reachable (machine codec) (serverBody cfg dt fds) c c')
    (hj : j < c.state.world.jobs.length) (hcancel : (c.state.world.job j).cancel_requested = true) :
    (c'.state.world.job j).cancel_requested = true := by
  refine (h.record_preserves hlater (P := fun r => r.cancel_requested = true) ?_ hj hcancel).2
  rintro r r' hrecord hr
  cases hrecord with
  | same => exact hr
  | set u now => rw [JobUpdate.apply_cancel_requested, hr]
  | cancel => rfl

/-- A job that was moved to CANCELED had a CANCEL acknowledged before. -/
theorem LifeCycle.acked {h : List Mark} (hcycle : LifeCycle j h)
    (hlast : lastState j h = .canceled) :
    ∃ st, .cancelAck j st ∈ h := by
  induction h with
  | nil => cases hlast
  | cons m h ih =>
    have hskip : LifeCycle j h → lastState j h = .canceled → ∃ st, .cancelAck j st ∈ m :: h := by
      intro hcycle' hlast'
      obtain ⟨st, hack⟩ := ih hcycle' hlast'
      exact ⟨st, List.mem_cons_of_mem _ hack⟩
    cases m with
    | state t k st =>
      by_cases hk : k = j
      · obtain ⟨hmoves, -⟩ := hcycle
        have hst : st = .canceled := by simpa [lastState, statesOf, hk] using hlast
        have hmove := hmoves hk
        rw [hst] at hmove
        generalize lastState j h = old at hmove
        cases hmove with
        | stop hack => exact ⟨_, List.mem_cons_of_mem _ hack⟩
        | drop hack => exact ⟨_, List.mem_cons_of_mem _ hack⟩
      · refine hskip hcycle.2 ?_
        simpa [lastState, statesOf, hk] using hlast
    | _ => exact hskip hcycle hlast

/-- A final state that was once set is the last one. -/
theorem LifeCycle.ended {h : List Mark} {t : Tid} {st : JobState} (hcycle : LifeCycle j h)
    (hset : .state t j st ∈ h) (hst : st.Terminal) : lastState j h = st := by
  induction h with
  | nil => cases hset
  | cons m h ih =>
    cases m with
    | state u k st' =>
      obtain ⟨hmoves, hcycle'⟩ := hcycle
      rcases List.mem_cons.mp hset with hhead | htail
      · obtain ⟨-, rfl, rfl⟩ := Mark.state.inj hhead
        simp [lastState, statesOf]
      · have hlast := ih hcycle' htail
        by_cases hk : k = j
        · -- nothing moves on from a final state
          have hmove := hmoves hk
          rw [hlast] at hmove
          rcases hst with rfl | rfl | rfl <;> cases hmove
        · simpa [lastState, statesOf, hk] using hlast
    | _ =>
      have htail : .state t j st ∈ h := by simpa using hset
      exact ih hcycle htail

/-- The life of every job. -/
theorem job_lifeCycle (h : ServerReachable codec cfg dt fds files c)
    (hj : j < c.state.world.jobs.length) :
    LifeCycle j c.state.history ∧ (c.state.world.job j).state = lastState j c.state.history ∧
    ((c.state.world.job j).state = .canceled → ∃ st, .cancelAck j st ∈ c.state.history) ∧
    ∀ c', Config.Reachable (machine codec) (serverBody cfg dt fds) c c' →
      ((c.state.world.job j).state.Terminal → (c'.state.world.job j).state =
        (c.state.world.job j).state) ∧
      ((c.state.world.job j).cancel_requested = true →
        (c'.state.world.job j).cancel_requested = true) := by
  have hacc := h.accounted
  have hstate := hacc.state j hj
  refine ⟨hacc.cycle j, hstate, fun hcanceled => (hacc.cycle j).acked (hstate ▸ hcanceled),
    fun c' hlater => ⟨?_, ?_⟩⟩
  · intro hterminal
    rw [(h.record_frozen hlater hj hterminal).2]
  · exact h.cancel_kept hlater hj

theorem job_lifeCycle_lateCancel :
    ∃ c, ServerReachable rawCodec runtimeConfigDefaults plainDurations plainFds (fun _ => none) c ∧
      lastState 0 c.state.history = .failed ∧ LifeCycle 0 c.state.history ∧
      (c.state.world.job 0).state = lastState 0 c.state.history := by
  obtain ⟨c, hreach, hc⟩ :=
    exists_reachable rawCodec runtimeConfigDefaults plainDurations plainFds (fun _ => none)
    lateCancel (fun c => (c.state.world.jobs.length, lastState 0 c.state.history))
    (show _ = some (1, .failed) by decide +kernel)
  obtain ⟨hlength, hlast⟩ := Prod.mk.inj hc
  obtain ⟨hcycle, hstate, -⟩ := job_lifeCycle hreach (j := 0) (by omega)
  exact ⟨c, hreach, hlast, hcycle, hstate⟩

end

end StegaPng
