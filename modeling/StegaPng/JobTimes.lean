import StegaPng.Cancellation

/-! The times in the records, on a clock that never goes back. -/

namespace StegaPng

open Interleaving

/-- The server with the clock that `set_time_now` reads. -/
structure Clocked where
  sys : Sys
  clock : Nat

/-- Each operation reads the clock at a time that is not before the last. -/
def clocked (codec : PngCodec) : Machine Op Ans Tid Clocked where
  step t o s a s' := ∃ e marks, s.clock ≤ e.now ∧ s'.clock = e.now ∧
    exec codec e t s.sys.world o = some (a, s'.sys.world, marks) ∧
      s'.sys.history = marks ++ s.sys.history
  turn t s := { s with sys := (machine codec).turn t s.sys }

abbrev ClockedConfig := Config Op Ans Tid Clocked MainState

/-- The server once `init_workers` has returned, at the time `start`. -/
def clockedInitial (cfg : RuntimeConfig) (dt : DurationText) (fds : ServerFds)
    (files : Bytes → Option Bytes) (start : Nat) : ClockedConfig :=
  (initialConfig cfg dt fds files).view fun s => ⟨s, start⟩

/-- The configurations that some interleaving of the threads reaches while the clock runs. -/
def ClockedReachable (codec : PngCodec) (cfg : RuntimeConfig) (dt : DurationText) (fds : ServerFds)
    (files : Bytes → Option Bytes) (start : Nat) (c : ClockedConfig) : Prop :=
  Config.Reachable (clocked codec) (serverBody cfg dt fds) (clockedInitial cfg dt fds files start) c

/-- The times are in their order. -/
def Job.Ordered (r : Job) : Prop := r.created_at ≤ r.started_at ∧ r.started_at ≤ r.finished_at

/-- The duration that HISTORY shows and STATS averages is within the life of the job. -/
def Job.DurationWithin (r : Job) : Prop := 0 ≤ r.duration ∧
    r.duration ≤ (r.finished_at : Int) - r.created_at

/-- What the times of a record say, given the states that it has been set to. -/
structure Times (clock : Nat) (past : List JobState) (r : Job) : Prop where
  created : r.created_at ≤ clock
  unstarted : .running ∉ past → r.started_at = 0
  started : .running ∈ past → r.created_at ≤ r.started_at
  passed : r.started_at ≤ clock
  finished : r.state.Terminal → r.created_at ≤ r.finished_at ∧ r.started_at ≤ r.finished_at

/-- The times of every record, and no past before a job's creation. -/
structure Timed (s : Clocked) : Prop where
  record : ∀ j < s.sys.world.jobs.length,
    Times s.clock (statesOf j s.sys.history) (s.sys.world.job j)
  fresh : ∀ j, s.sys.world.jobs.length ≤ j → statesOf j s.sys.history = []

section

variable {clock now : Nat} {past : List JobState} {r r' : Job}

theorem Times.later (h : Times clock past r) (hclock : clock ≤ now) : Times now past r :=
  ⟨Nat.le_trans h.created hclock, h.unstarted, h.started, Nat.le_trans h.passed hclock, h.finished⟩

theorem Times.kept (h : Times clock past r) (hstate : r'.state = r.state)
    (hcreated : r'.created_at = r.created_at) (hstarted : r'.started_at = r.started_at)
    (hfinished : r'.finished_at = r.finished_at) : Times clock past r' := by
  constructor
  · rw [hcreated]
    exact h.created
  · rw [hstarted]
    exact h.unstarted
  · rw [hcreated, hstarted]
    exact h.started
  · rw [hstarted]
    exact h.passed
  · rw [hstate, hcreated, hstarted, hfinished]
    exact h.finished

theorem times_new (next_id : Nat) (owner_fd : Int) (owner_ip : Bytes) (type : JobType)
    (payload input_path : Option Bytes) :
    Times now [] (newJob next_id owner_fd owner_ip type payload input_path now) := by
  constructor
  · exact Nat.le_refl now
  · exact fun _ => rfl
  · exact fun hmem => absurd hmem List.not_mem_nil
  · exact Nat.zero_le now
  · exact fun hterminal => absurd hterminal (by decide : ¬ JobState.queued.Terminal)

theorem Times.moved (h : Times clock past r) (hclock : clock ≤ now) (st : JobState) :
    Times now (st :: past) (JobUpdate.apply now r (.state st)) := by
  have hcreated : r.created_at ≤ now := Nat.le_trans h.created hclock
  have hpassed : r.started_at ≤ now := Nat.le_trans h.passed hclock
  by_cases hrunning : st = .running
  · subst hrunning
    constructor
    · exact hcreated
    · exact fun hnone => absurd List.mem_cons_self hnone
    · exact fun _ => hcreated
    · exact Nat.le_refl now
    · exact fun hterminal => absurd hterminal (by decide : ¬ JobState.running.Terminal)
  · have hstarted : (JobUpdate.apply now r (.state st)).started_at = r.started_at := if_neg hrunning
    have hpast : .running ∈ st :: past ↔ .running ∈ past := by
      rw [List.mem_cons]
      exact or_iff_right fun heq => hrunning heq.symm
    constructor
    · exact hcreated
    · rw [hstarted, hpast]
      exact h.unstarted
    · rw [hstarted, hpast]
      exact h.started
    · rw [hstarted]
      exact hpassed
    · intro hterminal
      have hfinished : (JobUpdate.apply now r (.state st)).finished_at = now := if_pos hterminal
      rw [hstarted, hfinished]
      exact ⟨hcreated, hpassed⟩

/-- The times of a finished job are in order if and only if it has been running, or was
created when the clock stood at zero. -/
theorem Times.ordered_iff (h : Times clock past r) (hterminal : r.state.Terminal) :
    (r.Ordered ↔ .running ∈ past ∨ r.created_at = 0) ∧
      (r.DurationWithin ↔ .running ∈ past ∨ r.created_at = 0) := by
  obtain ⟨hcreated, hstarted⟩ := h.finished hterminal
  unfold Job.Ordered Job.DurationWithin Job.duration
  by_cases hrunning : .running ∈ past
  · have hbefore := h.started hrunning
    exact ⟨iff_of_true ⟨hbefore, hstarted⟩ (.inl hrunning),
      iff_of_true ⟨by omega, by omega⟩ (.inl hrunning)⟩
  · have hnever := h.unstarted hrunning
    rw [hnever, or_iff_right hrunning]
    constructor <;> omega

end

section

variable {codec : PngCodec} {cfg : RuntimeConfig} {dt : DurationText} {fds : ServerFds}
  {files : Bytes → Option Bytes} {start : Nat} {c : ClockedConfig} {s s' : Clocked} {t : Tid}
  {o : Op} {e : Env} {marks : List Mark} {a : Ans o}

theorem Timed.plain (hs : Timed s) (hclock : s.clock ≤ s'.clock)
    (hjobs : s'.sys.world.jobs = s.sys.world.jobs)
    (hhistory : s'.sys.history = marks ++ s.sys.history)
    (hmarks : ∀ m ∈ marks, ∀ t j st, m ≠ .state t j st) :
    Timed s' := by
  have hpast : ∀ j, statesOf j s'.sys.history = statesOf j s.sys.history := by
    intro j
    rw [hhistory]
    refine ignores_append (f := statesOf j) (fun m hm h => ?_) _
    cases m with
    | state t k st => exact absurd rfl (hmarks _ hm t k st)
    | _ => rfl
  constructor
  · intro j hj
    rw [hpast, World.job_congr hjobs]
    exact (hs.record j (hjobs ▸ hj)).later hclock
  · intro j hj
    rw [hpast]
    exact hs.fresh j (hjobs ▸ hj)

theorem Timed.written {j : Nat} {f : Job → Job} (hs : Timed s) (hclock : s.clock ≤ s'.clock)
    (hj : j < s.sys.world.jobs.length) (hworld : s'.sys.world = s.sys.world.updateJob j f)
    (hpast : ∀ k ≠ j, statesOf k s'.sys.history = statesOf k s.sys.history)
    (hrecord : Times s'.clock (statesOf j s'.sys.history) (f (s.sys.world.job j))) : Timed s' := by
  have hlength : s'.sys.world.jobs.length = s.sys.world.jobs.length := by
    rw [hworld, World.updateJob_length]
  constructor
  · intro k hk
    by_cases hkj : k = j
    · subst hkj
      rw [hworld, World.updateJob_job _ hj]
      exact hrecord
    · rw [hpast k hkj, hworld, World.updateJob_job_ne _ hkj]
      exact (hs.record k (hlength ▸ hk)).later hclock
  · intro k hk
    rw [hpast k (by omega)]
    exact hs.fresh k (hlength ▸ hk)

/-- The operations that write records. -/
def Op.records : Op → Bool
  | .createJob .. | .setJob .. | .requestCancel _ => true
  | _ => false

theorem exec_keeps_records {w w' : World} (ho : o.records = false)
    (h : exec codec e t w o = some (a, w', marks)) :
    w'.jobs = w.jobs ∧ ∀ m ∈ marks, ∀ t j st, m ≠ .state t j st := by
  have heffect := exec_effect h
  cases heffect with
  | quiet hcore _ hmarks => exact ⟨hcore.jobs, fun m hm => (hmarks m hm).not_state⟩
  | input _ hcore _ hmarks => exact ⟨hcore.jobs, fun m hm => (hmarks m hm).not_state⟩
  | file _ hcore _ hmarks => exact ⟨hcore.jobs, fun m hm => (hmarks m hm).not_state⟩
  | created => cases ho
  | set => cases ho
  | canceled => cases ho
  | pushed => exact ⟨rfl, by simp⟩
  | pushFailed => exact ⟨rfl, by simp⟩
  | popped => exact ⟨rfl, by simp⟩
  | event => exact ⟨rfl, by simp⟩

theorem Timed.created {owner_fd : Int} {owner_ip : Bytes} {type : JobType}
    {payload input_path : Option Bytes} {id : Nat} (hs : Timed s) (hclock : s.clock ≤ s'.clock)
    (hjobs : s'.sys.world.jobs = s.sys.world.jobs ++
      [newJob id owner_fd owner_ip type payload input_path s'.clock])
    (hpast : ∀ j, statesOf j s'.sys.history = statesOf j s.sys.history) : Timed s' := by
  have hlength : s'.sys.world.jobs.length = s.sys.world.jobs.length + 1 := by
    rw [hjobs, List.length_append]; rfl
  constructor
  · intro j hj
    rw [hpast]
    rcases Nat.lt_or_eq_of_le (Nat.le_of_lt_succ (hlength ▸ hj)) with hold | rfl
    · rw [World.job_append hjobs hold]
      exact (hs.record j hold).later hclock
    · rw [World.job_append_last hjobs, hs.fresh _ (Nat.le_refl _)]
      exact times_new ..
  · intro j hj
    rw [hpast]
    exact hs.fresh j (by omega)

theorem Timed.step (hs : Timed s) (hinv : Inv cfg codec s.sys)
    (hallowed : Allowed cfg codec t o s.sys) (h : (clocked codec).step t o s a s') : Timed s' := by
  obtain ⟨e, marks, hle, hnow, hexec, hhistory⟩ := h
  have hclock : s.clock ≤ s'.clock := hnow ▸ hle
  cases o with
  | createJob owner_fd owner_ip type payload input_path =>
    simp only [exec] at hexec
    split at hexec
    · obtain ⟨-, hworld, rfl⟩ := by simpa using hexec
      exact hs.plain hclock (by rw [hworld]) hhistory (by simp)
    · split at hexec
      · obtain ⟨-, hworld, rfl⟩ := by simpa using hexec
        exact hs.plain hclock (by rw [hworld]) hhistory (by simp)
      · simp only [Option.some.injEq, Prod.mk.injEq] at hexec
        obtain ⟨-, hworld, rfl⟩ := hexec
        refine hs.created hclock (by rw [← hworld, ← hnow]) fun j => ?_
        rw [hhistory]
        rfl
  | setJob j u =>
    obtain ⟨-, hj⟩ := hinv.writes_live hallowed
    simp only [exec, Option.some.injEq, Prod.mk.injEq] at hexec
    obtain ⟨-, hworld, rfl⟩ := hexec
    have hrecord := hs.record j hj
    cases u with
    | state st =>
      refine hs.written hclock hj hworld.symm (fun k hk => ?_) ?_
      · rw [hhistory]
        exact if_neg (Ne.symm hk)
      · have hpast : statesOf j s'.sys.history = st :: statesOf j s.sys.history := by
          rw [hhistory]
          exact if_pos rfl
        rw [hpast, hnow]
        exact hrecord.moved hle st
    | _ =>
      refine hs.written hclock hj hworld.symm (fun k hk => by rw [hhistory]; rfl) ?_
      rw [hhistory]
      exact (hrecord.later hclock).kept rfl rfl rfl rfl
  | requestCancel j =>
    simp only [exec, Option.some.injEq, Prod.mk.injEq] at hexec
    obtain ⟨-, hworld, rfl⟩ := hexec
    have hpast : ∀ k, statesOf k s'.sys.history = statesOf k s.sys.history := by
      intro k
      rw [hhistory]
      split <;> rfl
    refine hs.written hclock hallowed.2.1 hworld.symm (fun k _ => hpast k) ?_
    rw [hpast]
    refine ((hs.record j hallowed.2.1).later hclock).kept ?_ ?_ ?_ ?_ <;> unfold Job.requestCancel
      <;> split <;> rfl
  | _ =>
    obtain ⟨hjobs, hmarks⟩ := exec_keeps_records rfl hexec
    exact hs.plain hclock hjobs hhistory hmarks

theorem ClockedReachable.server (h : ClockedReachable codec cfg dt fds files start c) :
    ServerReachable codec cfg dt fds files (c.view Clocked.sys) := by
  have hop : ∀ t o s a s', (clocked codec).step t o s a s' →
    (machine codec).step t o s.sys a s'.sys := by
    rintro t o s a s' ⟨e, marks, -, -, hexec, hhistory⟩
    exact ⟨e, marks, trivial, hexec, hhistory⟩
  exact Config.Reachable.view (f := Clocked.sys) hop (fun _ _ => rfl) h

theorem ClockedReachable.timed (h : ClockedReachable codec cfg dt fds files start c) :
    Timed c.state := by
  induction h with
  | refl => exact ⟨nofun, fun _ _ => rfl⟩
  | @tail c₁ c₂ hpre hlast ih =>
    have hkeeps := (ClockedReachable.server hpre).keeps
    cases hlast with
    | op ht hstep => exact ih.step hkeeps.inv (hkeeps.allowed (conduct_sound cfg codec) ht) hstep
    | @again t l ht =>
      have hmarks : ∀ m ∈ [Mark.turn t], ∀ u j st, m ≠ .state u j st := by simp
      exact ih.plain (Nat.le_refl _) rfl rfl hmarks
    | @halt t ht =>
      have hmarks : ∀ m ∈ [Mark.turn t], ∀ u j st, m ≠ .state u j st := by simp
      exact ih.plain (Nat.le_refl _) rfl rfl hmarks

/-- The times of a finished job are in order, and its duration is within its life, if and
only if it has been running or was created when the clock stood at zero. -/
theorem job_times_ordered (h : ClockedReachable codec cfg dt fds files start c) {j : Nat}
    (hj : j < c.state.sys.world.jobs.length)
    (hterminal : (c.state.sys.world.job j).state.Terminal) :
    ((c.state.sys.world.job j).Ordered ↔
      .running ∈ statesOf j c.state.sys.history ∨ (c.state.sys.world.job j).created_at = 0) ∧
    ((c.state.sys.world.job j).DurationWithin ↔
      .running ∈ statesOf j c.state.sys.history ∨ (c.state.sys.world.job j).created_at = 0) :=
  (h.timed.record j hj).ordered_iff hterminal

end

/-! Concrete runs. -/

def Ticks : Nat → List (Tid × Env) → Prop
  | _, [] => True
  | clock, (_, e) :: schedule => clock ≤ e.now ∧ Ticks e.now schedule

/-- The `n`-th step of the schedule is at the time `n`. -/
def ticking (schedule : List (Tid × Env)) : List (Tid × Env) :=
  (schedule.zipIdx 1).map fun step => (step.1.1, { step.1.2 with now := step.2 })

theorem ticks_from (schedule : List (Tid × Env)) {clock n : Nat} (hclock : clock ≤ n) :
    Ticks clock ((schedule.zipIdx n).map fun step =>
      (step.1.1, { step.1.2 with now := step.2 })) := by
  induction schedule generalizing clock n with
  | nil => trivial
  | cons step schedule ih => exact ⟨hclock, ih (Nat.le_succ n)⟩

section

variable {codec : PngCodec} {cfg : RuntimeConfig} {dt : DurationText} {fds : ServerFds}

theorem advance_clocked {t : Tid} {e : Env} {c c' : ServerConfig} {clock : Nat}
    (hclock : clock ≤ e.now) (h : advance codec cfg dt fds t e c = some c') :
    ∃ clock' ≤ e.now, Config.Step (clocked codec) (serverBody cfg dt fds)
      (c.view fun s => ⟨s, clock⟩)
      (c'.view fun s => ⟨s, clock'⟩) := by
  unfold advance at h
  split at h
  · cases h
  · next ht =>
    cases h
    exact ⟨clock, hclock, .halt ht⟩
  · next l ht =>
    cases h
    exact ⟨clock, hclock, .again ht⟩
  · next o k ht =>
    split at h
    · cases h
    · next a w marks hexec =>
      cases h
      exact ⟨e.now, Nat.le_refl _, .op ht ⟨e, marks, hclock, rfl, hexec, rfl⟩⟩

theorem follow_clocked {schedule : List (Tid × Env)} {c c' : ServerConfig} {clock now : Nat}
    (hclock : clock ≤ now) (hticks : Ticks now schedule)
    (h : follow codec cfg dt fds schedule c = some c') :
    ∃ clock', Config.Reachable (clocked codec) (serverBody cfg dt fds) (c.view fun s => ⟨s, clock⟩)
      (c'.view fun s => ⟨s, clock'⟩) := by
  induction schedule generalizing c clock now with
  | nil =>
    cases h
    exact ⟨clock, .refl⟩
  | cons step schedule ih =>
    obtain ⟨c₁, hfirst, hrest⟩ := Option.bind_eq_some_iff.mp h
    obtain ⟨clock₁, hle, hstep⟩ := advance_clocked (Nat.le_trans hclock hticks.1) hfirst
    obtain ⟨clock', hreach⟩ := ih hle hticks.2 hrest
    exact ⟨clock', .head hstep hreach⟩

theorem exists_clocked (codec : PngCodec) (cfg : RuntimeConfig) (dt : DurationText)
    (fds : ServerFds) {α : Type} (files : Bytes → Option Bytes) (schedule : List (Tid × Env))
    (f : Sys → α) {a : α}
    (h : (follow codec cfg dt fds (ticking schedule) (initialConfig cfg dt fds files)).map
      (fun c => f c.state) = some a) :
    ∃ c, ClockedReachable codec cfg dt fds files 0 c ∧ f c.state.sys = a := by
  obtain ⟨c, hfollow, hc⟩ := Option.map_eq_some_iff.mp h
  obtain ⟨clock, hreach⟩ :=
    follow_clocked (Nat.le_refl 0) (ticks_from schedule (Nat.zero_le 1)) hfollow
  exact ⟨_, hreach, hc⟩

end

theorem job_times_ordered_lateCancel :
    ∃ c, ClockedReachable rawCodec runtimeConfigDefaults plainDurations plainFds
      (fun _ => none) 0 c ∧
      (c.state.sys.world.job 0).state = .failed ∧ (c.state.sys.world.job 0).Ordered ∧
      (c.state.sys.world.job 0).DurationWithin := by
  obtain ⟨c, hreach, hc⟩ :=
    exists_clocked rawCodec runtimeConfigDefaults plainDurations plainFds (fun _ => none)
    lateCancel (fun s => (s.world.jobs.length, (s.world.job 0).state,
      decide (.running ∈ statesOf 0 s.history)))
    (show _ = some (1, .failed, true) by decide +kernel)
  obtain ⟨hlength, hrest⟩ := Prod.mk.inj hc
  obtain ⟨hstate, hrunning⟩ := Prod.mk.inj hrest
  obtain ⟨hordered, hwithin⟩ :=
    job_times_ordered hreach (j := 0) (by omega) (by rw [hstate]; decide)
  have hpast := of_decide_eq_true hrunning
  exact ⟨c, hreach, hstate, hordered.mpr (.inl hpast), hwithin.mpr (.inl hpast)⟩

/-- A user submits a text and cancels it, and then a worker comes to it. -/
def canceledInQueue : List (Tid × Env) := promptCancel ++ steps 6 (.worker 0)

/-- A job that is canceled in the queue seems to have lasted since the clock stood at zero. -/
theorem canceled_unordered :
    ¬ ∀ (codec : PngCodec) (cfg : RuntimeConfig) (dt : DurationText) (fds : ServerFds)
      (files : Bytes → Option Bytes)
      (start : Nat) (c : ClockedConfig) (j : Nat), ClockedReachable codec cfg dt fds files start c →
      j < c.state.sys.world.jobs.length → (c.state.sys.world.job j).state.Terminal →
      (c.state.sys.world.job j).Ordered ∧ (c.state.sys.world.job j).DurationWithin := by
  intro hclaim
  obtain ⟨c, hreach, hc⟩ :=
    exists_clocked rawCodec runtimeConfigDefaults plainDurations plainFds (fun _ => none)
    canceledInQueue (fun s => (s.world.jobs.length, (s.world.job 0).state,
      (s.world.job 0).started_at,
      decide (0 < (s.world.job 0).created_at)))
    (show _ = some (1, .canceled, 0, true) by decide +kernel)
  obtain ⟨hlength, hrest⟩ := Prod.mk.inj hc
  obtain ⟨hstate, hrest⟩ := Prod.mk.inj hrest
  obtain ⟨hstarted, hcreated⟩ := Prod.mk.inj hrest
  obtain ⟨hordered, -⟩ := hclaim _ _ _ _ _ _ c 0 hreach (by omega) (by rw [hstate]; decide)
  have hbefore := hordered.1
  have hpositive := of_decide_eq_true hcreated
  omega

end StegaPng
