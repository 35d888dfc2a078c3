import Mathlib.Data.Nat.Count
import StegaPng.LifeCycle
import StegaPng.Replies

/-! What STATS counts while the workers go on. -/

namespace StegaPng

open Interleaving

/-- The number that STATS reports of the jobs in this state. -/
def JobStats.of (st : JobStats) : JobState → Nat
  | .queued => st.queued
  | .running => st.running
  | .done => st.done
  | .failed => st.failed
  | .canceled => st.canceled

/-- The number of jobs in the table that are in this state. -/
def Sys.tally (s : Sys) (x : JobState) : Nat :=
  Nat.count (fun j => (s.world.job j).state = x) s.world.jobs.length

/-- The starts of jobs that the history records. -/
def starts (h : List Mark) : List Nat := h.filterMap fun mark => match mark with
  | .state _ j .running => some j
  | _ => none

/-- An instant of a call of the main thread that begins in `s` and ends in `s'`, and itself
changes nothing. -/
structure Instant (cfg : RuntimeConfig) (codec : PngCodec) (s s' σ : Sys) : Prop where
  before : (conduct cfg codec).Others .main s σ
  after : (conduct cfg codec).Others .main σ s'

/-- Each job is counted once, in the state that it has at an instant of the call. -/
structure CountedInOrder (cfg : RuntimeConfig) (codec : PngCodec) (s s' : Sys) (st : JobStats)
    (σ : Nat → Sys) : Prop where
  instant : ∀ j < st.total, Instant cfg codec s s' (σ j)
  ordered : ∀ i j, i ≤ j → j < st.total → (conduct cfg codec).Others .main (σ i) (σ j)
  counts : ∀ x, st.of x = Nat.count (fun j => ((σ j).world.job j).state = x) st.total

/-- The report is exact at one instant of the call. -/
def Snapshot (cfg : RuntimeConfig) (codec : PngCodec) (s s' : Sys) (st : JobStats) : Prop :=
  ∃ σ, Instant cfg codec s s' σ ∧ ∀ x, st.of x = σ.tally x

/-- The instant `s` before the instants `σ`. -/
def firstThen (s : Sys) (σ : Nat → Sys) : Nat → Sys
  | 0 => s
  | j + 1 => σ j

section

variable {codec : PngCodec} {cfg : RuntimeConfig} {s s' σ : Sys} {tr : List Call}

theorem JobStats.count_total (st : JobStats) (r : Job) : (st.count r).total = st.total := by
  unfold JobStats.count
  cases r.state <;> dsimp only <;> split <;> rfl

theorem JobStats.count_of (st : JobStats) (r : Job) (x : JobState) :
    (st.count r).of x = st.of x + if r.state = x then 1 else 0 := by
  unfold JobStats.count
  cases r.state <;> cases x <;> dsimp only <;> split <;> rfl

theorem count_congr {p q : Nat → Prop} [DecidablePred p] [DecidablePred q] {n : Nat}
    (h : ∀ j < n, p j ↔ q j) :
    Nat.count p n = Nat.count q n :=
  Nat.le_antisymm (Nat.count_mono_left fun j hj => (h j hj).mp) (Nat.count_mono_left fun j hj =>
    (h j hj).mpr)

theorem calls_collectLoop {left i : Nat} {st st' : JobStats}
    (h : AmidCalls codec cfg (collectStatsLoop left i st) s tr st' s') :
    st'.total = st.total ∧ (conduct cfg codec).Others .main s s' ∧ ∃ σ : Nat → Sys,
      (∀ j < left, Instant cfg codec s s' (σ j)) ∧
      (∀ j k, j ≤ k → k < left → (conduct cfg codec).Others .main (σ j) (σ k)) ∧
      ∀ x, st'.of x = st.of x + Nat.count (fun j => ((σ j).world.job (i + j)).state = x) left := by
  induction left generalizing i st s tr with
  | zero =>
    obtain ⟨-, rfl, hothers⟩ := Traced.ret_iff.mp h
    exact ⟨rfl, hothers, fun _ => s, fun _ => nofun, fun _ _ _ => nofun, fun _ => rfl⟩
  | succ left ih =>
    change AmidCalls codec cfg (call (.getJob i .record) >>=
      fun r => collectStatsLoop left (i + 1) (st.count r)) _ _ _ _ at h
    obtain ⟨s₁, r, s₂, rest, rfl, hothers, hread, hrest⟩ := calls_call h
    obtain ⟨hr, rfl⟩ := step_getJob (by decide) hread
    obtain ⟨htotal, hafter, σ, hinstant, hordered, hcounts⟩ := ih hrest
    refine ⟨htotal.trans (st.count_total r), hothers.trans hafter, firstThen s₂ σ, ?_, ?_, ?_⟩
    · intro j hj
      cases j with
      | zero => exact ⟨hothers, hafter⟩
      | succ j =>
        obtain ⟨hbefore, hthen⟩ := hinstant j (Nat.lt_of_succ_lt_succ hj)
        exact ⟨hothers.trans hbefore, hthen⟩
    · intro j k hjk hk
      cases k with
      | zero =>
        obtain rfl := Nat.le_zero.mp hjk
        exact .refl
      | succ k =>
        cases j with
        | zero => exact (hinstant k (Nat.lt_of_succ_lt_succ hk)).before
        | succ j => exact hordered j k (Nat.le_of_succ_le_succ hjk) (Nat.lt_of_succ_lt_succ hk)
    · intro x
      have hstate : r.state = (s₂.world.job i).state := congrArg Job.state hr
      have hlater : Nat.count (fun j => ((firstThen s₂ σ (j + 1)).world.job (i + (j + 1))).state =
        x) left =
          Nat.count (fun j => ((σ j).world.job (i + 1 + j)).state = x) left := by
        refine count_congr fun j _ => ?_
        rw [Nat.add_assoc, Nat.add_comm 1 j]
        rfl
      have hfirst : (if ((firstThen s₂ σ 0).world.job (i + 0)).state = x then 1 else 0) =
          if (s₂.world.job i).state = x then 1 else 0 := rfl
      rw [hcounts, JobStats.count_of, hstate, Nat.count_succ', hlater, hfirst]
      omega

theorem calls_collectStats {st : JobStats}
    (h : AmidCalls codec cfg jobTableCollectStats s tr st s') :
    (conduct cfg codec).Others .main s s' ∧ st.total = s.world.jobs.length ∧
      ∃ σ, CountedInOrder cfg codec s s' st σ := by
  obtain ⟨s₁, n, s₂, rest, rfl, hothers, ⟨e, marks, -, hexec, hhistory⟩, hrest⟩ := calls_call h
  simp only [exec, Option.some.injEq, Prod.mk.injEq] at hexec
  obtain ⟨rfl, hworld, rfl⟩ := hexec
  obtain rfl : s₂ = s₁ := by
    obtain ⟨w, history⟩ := s₂
    rw [show w = s₁.world from hworld.symm, show history = s₁.history from hhistory]
  obtain ⟨htotal, hafter, σ, hinstant, hordered, hcounts⟩ := calls_collectLoop hrest
  change st.total = s₂.world.jobs.length at htotal
  have hlength : st.total = s.world.jobs.length := htotal.trans (others_length hothers)
  refine ⟨hothers.trans hafter, hlength, σ, ?_, ?_, fun x => ?_⟩
  · intro j hj
    obtain ⟨hbefore, hthen⟩ := hinstant j (htotal ▸ hj)
    exact ⟨hothers.trans hbefore, hthen⟩
  · exact fun i j hij hj => hordered i j hij (htotal ▸ hj)
  · rw [hcounts x, htotal]
    cases x <;> simp [JobStats.of]

/-! What an instant looks like. -/

theorem others_accounted (hs : Accounted s) (h : (conduct cfg codec).Others .main s σ) :
    Accounted σ := by
  induction h with
  | refl => exact hs
  | tail _ hstep ih =>
    cases hstep with
    | op hne hinv hallowed hstep =>
      obtain ⟨e, marks, -, hexec, hhistory⟩ := hstep
      exact ih.step hinv hallowed (exec_effect hexec) hhistory
    | @turn u b hne hinv hfinish =>
      have hmarks : ∀ m ∈ [Mark.turn u], ∀ v j st, m ≠ .state v j st := by simp
      exact ih.plain rfl rfl hmarks

theorem Instant.length (h : Instant cfg codec s s' σ) : σ.world.jobs.length = s.world.jobs.length :=
  others_length h.before

theorem Instant.grows {new : List Mark} (h : Instant cfg codec s s' σ)
    (hnew : s'.history = new ++ s.history) :
    ∃ later earlier, new = later ++ earlier ∧ σ.history = earlier ++ s.history := by
  obtain ⟨earlier, hearlier, -⟩ := others_grows h.before
  obtain ⟨later, hlater, -⟩ := others_grows h.after
  refine ⟨later, earlier, ?_, hearlier⟩
  rw [hlater, hearlier, ← List.append_assoc] at hnew
  exact (List.append_cancel_right hnew).symm

/-- A job that is running has been running before, or has been started since. -/
theorem lastState_append {j : Nat} (new h : List Mark)
    (hrunning : lastState j (new ++ h) = .running) :
    lastState j h = .running ∨ j ∈ starts new := by
  induction new with
  | nil => exact .inl hrunning
  | cons mark new ih =>
    have hskip : lastState j (new ++ h) = .running → lastState j h = .running ∨
      j ∈ starts (mark :: new) := by
      intro hbefore
      refine (ih hbefore).imp id fun hmem => ?_
      obtain ⟨m, hm, hj⟩ := List.mem_filterMap.mp hmem
      exact List.mem_filterMap.mpr ⟨m, List.mem_cons_of_mem _ hm, hj⟩
    cases mark with
    | state t k st =>
      by_cases hk : k = j
      · have hst : st = .running := by simpa [lastState, statesOf, hk] using hrunning
        refine .inr (List.mem_filterMap.mpr ⟨_, List.mem_cons_self, ?_⟩)
        rw [hst, hk]
      · refine hskip ?_
        simpa [lastState, statesOf, hk] using hrunning
    | _ => exact hskip hrunning

theorem lastState_still {j : Nat} {new h : List Mark}
    (hstill : ∀ m ∈ new, ∀ t k st, m ≠ .state t k st) :
    lastState j (new ++ h) = lastState j h := by
  refine ignores_append (f := lastState j) (fun m hm h => ?_) _
  cases m with
  | state t k st => exact absurd rfl (hstill _ hm t k st)
  | _ => rfl

/-! The jobs that run at one instant. -/

theorem Inv.running_held (hinv : Inv cfg codec s) {j : Nat} (hj : j < s.world.jobs.length)
    (hrunning : (s.world.job j).state = .running) :
    ∃ i, holding (.worker i) s.history = some j := by
  rcases hinv.place j hj with hterminal | hqueue | ⟨t, hheld⟩ | hmaking
  · rw [hrunning] at hterminal
    exact absurd hterminal (by decide)
  · have hqueued := (hinv.queued j hqueue).2.1
    rw [hrunning] at hqueued
    cases hqueued
  · cases t with
    | main => exact absurd rfl (hinv.held _ j hheld).1
    | worker i => exact ⟨i, hheld⟩
  · have hqueued := (hinv.made j hmaking).2.1
    rw [hrunning] at hqueued
    cases hqueued

/-- Only the workers that were started hold jobs. -/
def Crewed (cfg : RuntimeConfig) (c : ServerConfig) : Prop :=
  ∀ i, cfg.worker_count ≤ i → c.thread (.worker i) = none ∧
    holding (.worker i) c.state.history = none

end

section

variable {codec : PngCodec} {cfg : RuntimeConfig} {dt : DurationText} {fds : ServerFds}
  {files : Bytes → Option Bytes} {c c' : ServerConfig}

theorem Crewed.step (hcrew : Crewed cfg c) (hkeeps : (conduct cfg codec).Keeps c)
    (h : Config.Step (machine codec) (serverBody cfg dt fds) c c') : Crewed cfg c' := by
  intro i hi
  obtain ⟨hnone, hfree⟩ := hcrew i hi
  have hother : ∀ {t : Tid} {p : Task (Option MainState)}
    {q : Option (Task (Option MainState))} {s : Sys},
      c.thread t = some p → (t ≠ .worker i → WorkerRely cfg (.worker i) c.state s) →
      (c.put t q s).thread (.worker i) = none ∧
        holding (.worker i) (c.put t q s).state.history = none := by
    intro t p q s ht hrely
    have hne : t ≠ .worker i := by
      rintro rfl
      rw [hnone] at ht
      cases ht
    refine ⟨?_, (hrely hne).holding.trans hfree⟩
    exact (if_neg (Ne.symm hne)).trans hnone
  cases h with
  | op ht hstep =>
    refine hother ht fun hne => ?_
    exact (conduct_sound cfg codec).rely_step hkeeps.inv
      (hkeeps.allowed (conduct_sound cfg codec) ht) hstep (Ne.symm hne)
  | again ht =>
    refine hother ht fun hne => ?_
    exact (conduct_sound cfg codec).rely_turn hkeeps.inv (hkeeps.wp _ _ ht) (Ne.symm hne)
  | halt ht =>
    refine hother ht fun hne => ?_
    exact (conduct_sound cfg codec).rely_turn hkeeps.inv (hkeeps.wp _ _ ht) (Ne.symm hne)

theorem ServerReachable.crewed (h : ServerReachable codec cfg dt fds files c) : Crewed cfg c := by
  induction h with
  | refl => exact fun i hi => ⟨if_neg (Nat.not_lt.mpr hi), rfl⟩
  | tail hpre hlast ih => exact ih.step (ServerReachable.keeps hpre) hlast

/-- At one instant there are no more running jobs than workers. -/
theorem ServerReachable.running_le (h : ServerReachable codec cfg dt fds files c) :
    c.state.tally .running ≤ cfg.worker_count := by
  have hholder : ∀ j, ∃ i, j < c.state.world.jobs.length → (c.state.world.job j).state = .running →
      holding (.worker i) c.state.history = some j := by
    intro j
    by_cases hj : j < c.state.world.jobs.length ∧ (c.state.world.job j).state = .running
    · obtain ⟨i, hi⟩ := h.inv.running_held hj.1 hj.2
      exact ⟨i, fun _ _ => hi⟩
    · exact ⟨0, fun hlt hrunning => absurd ⟨hlt, hrunning⟩ hj⟩
  choose holder hholder using hholder
  rw [Sys.tally, Nat.count_eq_card_filter_range, ← Finset.card_range cfg.worker_count]
  have hheld : ∀ j ∈ (Finset.range c.state.world.jobs.length).filter fun j =>
    (c.state.world.job j).state = .running,
      holding (.worker (holder j)) c.state.history = some j := by
    intro j hj
    obtain ⟨hlt, hrunning⟩ := Finset.mem_filter.mp hj
    exact hholder j (Finset.mem_range.mp hlt) hrunning
  apply Finset.card_le_card_of_injOn holder
  · intro j hj
    have hsome := hheld j hj
    refine Finset.mem_coe.mpr (Finset.mem_range.mpr (Nat.lt_of_not_le fun hle => ?_))
    rw [(h.crewed _ hle).2] at hsome
    cases hsome
  · intro j hj k hk hjk
    have hsame := hheld j hj
    rw [hjk, hheld k hk] at hsame
    exact (Option.some.inj hsame).symm

theorem count_states (f : Nat → JobState) (n : Nat) : Nat.count (fun j => f j = .queued) n +
    Nat.count (fun j => f j = .running) n + Nat.count (fun j => f j = .done) n +
      Nat.count (fun j => f j = .failed) n +
    Nat.count (fun j => f j = .canceled) n = n := by
  induction n with
  | zero => rfl
  | succ n ih =>
    simp only [Nat.count_succ]
    cases f n <;> simp only [reduceCtorEq, if_true, if_false] <;> omega

structure StatsCount (cfg : RuntimeConfig) (codec : PngCodec) (s s' : Sys)
    (st : JobStats) : Prop where
  total : ∀ σ, Instant cfg codec s s' σ → st.total = σ.world.jobs.length
  sum : st.queued + st.running + st.done + st.failed + st.canceled = st.total
  counted : ∃ σ, CountedInOrder cfg codec s s' st σ
  still : ∀ new, s'.history = new ++ s.history → (∀ m ∈ new, ∀ t j x, m ≠ .state t j x) →
    ∀ σ, Instant cfg codec s s' σ → ∀ x, st.of x = σ.tally x
  running : ∀ new, s'.history = new ++ s.history →
    st.running ≤ cfg.worker_count + (starts new).length

/-- STATS counts every job once, in a state that it has during the call; what it reports is
exact if no job changes its state meanwhile, and it reports no more running jobs than there are
workers and jobs that were started meanwhile. -/
theorem stats_counted {tr : List Call} {st : JobStats} {s' : Sys}
    (hreach : ServerReachable codec cfg dt fds files c)
    (h : AmidCalls codec cfg jobTableCollectStats c.state tr st s') :
    StatsCount cfg codec c.state s' st := by
  obtain ⟨hothers, hlength, σ, hcounted⟩ := calls_collectStats h
  have haccounted := hreach.accounted
  have htotal : ∀ σ, Instant cfg codec c.state s' σ → st.total = σ.world.jobs.length :=
    fun σ hσ => hlength.trans hσ.length.symm
  have hstate : ∀ {σ : Sys} {j : Nat}, Instant cfg codec c.state s' σ → j < st.total →
      (σ.world.job j).state = lastState j σ.history := by
    intro σ j hσ hj
    exact (others_accounted haccounted hσ.before).state j (htotal σ hσ ▸ hj)
  have hstart : Instant cfg codec c.state s' c.state := ⟨.refl, hothers⟩
  constructor
  · exact htotal
  · have hsum := count_states (fun j => ((σ j).world.job j).state) st.total
    rw [← hcounted.counts, ← hcounted.counts, ← hcounted.counts, ← hcounted.counts,
      ← hcounted.counts] at hsum
    exact hsum
  · exact ⟨σ, hcounted⟩
  · intro new hnew hstill τ hτ x
    have hsame : ∀ {ρ : Sys} {j : Nat}, Instant cfg codec c.state s' ρ → j < st.total →
        (ρ.world.job j).state = lastState j c.state.history := by
      intro ρ j hρ hj
      obtain ⟨later, earlier, rfl, hhistory⟩ := hρ.grows hnew
      rw [hstate hρ hj, hhistory]
      exact lastState_still fun m hm => hstill m (List.mem_append_right _ hm)
    rw [hcounted.counts, Sys.tally, ← htotal τ hτ]
    refine count_congr fun j hj => ?_
    rw [hsame (hcounted.instant j hj) hj, hsame hτ hj]
  · intro new hnew
    have hrunning : st.running = Nat.count (fun j => ((σ j).world.job j).state =
      .running) st.total :=
      hcounted.counts .running
    have hbefore := hreach.running_le
    rw [Sys.tally, ← hlength, Nat.count_eq_card_filter_range] at hbefore
    have hcovered : (Finset.range st.total).filter (fun j => ((σ j).world.job j).state = .running) ⊆
        (Finset.range st.total).filter (fun j => (c.state.world.job j).state =
          .running) ∪ (starts new).toFinset := by
      intro j hj
      obtain ⟨hlt, hj⟩ := Finset.mem_filter.mp hj
      have hlt' := Finset.mem_range.mp hlt
      have hinstant := hcounted.instant j hlt'
      obtain ⟨later, earlier, rfl, hhistory⟩ := hinstant.grows hnew
      rw [hstate hinstant hlt', hhistory] at hj
      rcases lastState_append _ _ hj with hold | hstarted
      · refine Finset.mem_union_left _ (Finset.mem_filter.mpr ⟨hlt, ?_⟩)
        rw [hstate hstart hlt', hold]
      · refine Finset.mem_union_right _ (List.mem_toFinset.mpr ?_)
        rw [starts, List.filterMap_append]
        exact List.mem_append_right _ hstarted
    rw [hrunning, Nat.count_eq_card_filter_range]
    calc
      _ ≤ _ := Finset.card_le_card hcovered
      _ ≤ _ := Finset.card_union_le _ _
      _ ≤ cfg.worker_count + (starts new).length := Nat.add_le_add hbefore (List.toFinset_card_le _)

end

/-! A concrete call. -/

section

variable {codec : PngCodec} {cfg : RuntimeConfig} {dt : DurationText} {fds : ServerFds}

theorem follow_others {schedule : List (Tid × Env)} {c c' : ServerConfig}
    (hworkers : ∀ step ∈ schedule, step.1 ≠ .main) (hkeeps : (conduct cfg codec).Keeps c)
    (h : follow codec cfg dt fds schedule c = some c') :
    (conduct cfg codec).Others .main c.state c'.state := by
  induction schedule generalizing c with
  | nil =>
    cases h
    exact .refl
  | cons step schedule ih =>
    obtain ⟨c₁, hfirst, hrest⟩ := Option.bind_eq_some_iff.mp h
    have hne := hworkers step List.mem_cons_self
    have hkeeps₁ := hkeeps.step (conduct_sound cfg codec) (fun t m s _ =>
      serverBody_keeps dt fds t m s) (advance_step hfirst)
    have hlater := ih (fun step' hmem => hworkers step' (List.mem_cons_of_mem _ hmem)) hkeeps₁ hrest
    refine .head ?_ hlater
    unfold advance at hfirst
    split at hfirst
    · cases hfirst
    · next ht =>
      cases hfirst
      exact .turn hne hkeeps.inv (hkeeps.wp _ _ ht)
    · next l ht =>
      cases hfirst
      exact .turn hne hkeeps.inv (hkeeps.wp _ _ ht)
    · next o k ht =>
      split at hfirst
      · cases hfirst
      · next a w marks hexec =>
        cases hfirst
        exact .op hne hkeeps.inv (hkeeps.allowed (conduct_sound cfg codec) ht)
          ⟨step.2, marks, trivial, hexec, rfl⟩

/-- The second job is read after the workers have gone on. -/
theorem calls_two {s s' : Sys} (hlength : s.world.jobs.length = 2)
    (hothers : (conduct cfg codec).Others .main s s') :
    ∃ tr, AmidCalls codec cfg jobTableCollectStats s tr
      ((({ total := 2 } : JobStats).count (s.world.job 0)).count (s'.world.job 1)) s' := by
  have hcount : (machine codec).step .main .jobCount s 2 s :=
    ⟨{}, [], trivial, by rw [exec, hlength], rfl⟩
  have hread : ∀ j s, (machine codec).step .main (.getJob j .record) s (s.world.job j) s :=
    fun j s => ⟨{}, [], trivial, rfl, rfl⟩
  exact ⟨_, .op .refl hcount (.op .refl (hread 0 s) (.op hothers (hread 1 s') (.ret _ .refl)))⟩

end

def oneWorker : RuntimeConfig := { runtimeConfigDefaults with worker_count := 1 }

/-- A user connects and submits two texts; a worker starts the first. -/
def twoTexts : List (Tid × Env) :=
  [(.main, {}), (.main, pollReports [0]),
    (.main, { connection := some ⟨9, .inet 10 0 0 7, [.chunk 83 (lit "UBMIT a\nSUBMIT b\n")]⟩ }),
    (.main, {}), (.main, {}), (.main, {}), (.main, pollReports [5])] ++
  steps 5 .main ++ [(.main, {}), (.main, {}), (.main, pollReports [5])] ++ steps 5 .main ++
    steps 5 (.worker 0)

/-- The worker ends the first text and starts the second while the jobs are counted. -/
theorem exists_mixed_call :
    ∃ (c : ServerConfig) (s' : Sys) (tr : List Call) (st : JobStats),
      ServerReachable rawCodec oneWorker plainDurations plainFds (fun _ => none) c ∧
      AmidCalls rawCodec oneWorker jobTableCollectStats c.state tr st s' ∧ st.total = 2 ∧
        st.running = 2 ∧
      ∀ h, h <:+ s'.history → ¬ (lastState 0 h = .running ∧ lastState 1 h = .running) := by
  have hrun : ((follow rawCodec oneWorker plainDurations plainFds twoTexts
      (initialConfig oneWorker plainDurations plainFds fun _ => none)).bind fun c =>
        (follow rawCodec oneWorker plainDurations plainFds (steps 22 (.worker 0)) c).map fun c' =>
          (c.state.world.jobs.length, (c.state.world.job 0).state, (c'.state.world.job 1).state,
            c'.state.history.tails.all fun h => !(decide (lastState 0 h = .running) &&
              decide (lastState 1 h = .running)))) =
      some (2, .running, .running, true) := by decide +kernel
  obtain ⟨c, hfollow, hrest⟩ := Option.bind_eq_some_iff.mp hrun
  obtain ⟨c', hfollow', hc⟩ := Option.map_eq_some_iff.mp hrest
  obtain ⟨hlength, hc⟩ := Prod.mk.inj hc
  obtain ⟨hfirst, hc⟩ := Prod.mk.inj hc
  obtain ⟨hsecond, hnever⟩ := Prod.mk.inj hc
  have hreach : ServerReachable rawCodec oneWorker plainDurations plainFds (fun _ => none) c :=
    follow_reachable hfollow
  have hworkers : ∀ step ∈ steps 22 (.worker 0), step.1 ≠ .main := by
    intro step hmem
    rw [List.eq_of_mem_replicate hmem]
    exact nofun
  obtain ⟨tr, hcalls⟩ := calls_two hlength (follow_others hworkers hreach.keeps hfollow')
  refine ⟨c, c'.state, tr, _, hreach, hcalls, ?_, ?_, fun h hsuffix => ?_⟩
  · rw [JobStats.count_total, JobStats.count_total]
  · have hone : (({ total := 2 } : JobStats).count (c.state.world.job 0)).of .running = 1 := by
      rw [JobStats.count_of, hfirst]
      rfl
    have htwo := JobStats.count_of (({ total := 2 } : JobStats).count (c.state.world.job 0))
      (c'.state.world.job 1) .running
    rw [hone, hsecond] at htwo
    exact htwo
  · have hh := List.all_eq_true.mp hnever h ((List.mem_tails _ _).mpr hsuffix)
    rintro ⟨hrunning, hrunning'⟩
    rw [hrunning, hrunning'] at hh
    cases hh

theorem stats_counted_mixed :
    ∃ (c : ServerConfig) (s' : Sys) (st : JobStats),
      ServerReachable rawCodec oneWorker plainDurations plainFds (fun _ => none) c ∧
      st.running = 2 ∧ StatsCount oneWorker rawCodec c.state s' st := by
  obtain ⟨c, s', tr, st, hreach, hcalls, -, hrunning, -⟩ := exists_mixed_call
  exact ⟨c, s', st, hreach, hrunning, stats_counted hreach hcalls⟩

/-- One worker, and STATS reports two running jobs, as there are at no instant. -/
theorem stats_unlike_any_instant :
    ∃ (c : ServerConfig) (s' : Sys) (tr : List Call) (st : JobStats),
      ServerReachable rawCodec oneWorker plainDurations plainFds (fun _ => none) c ∧
      AmidCalls rawCodec oneWorker jobTableCollectStats c.state tr st s' ∧
      oneWorker.worker_count < st.running ∧ ¬ Snapshot oneWorker rawCodec c.state s' st := by
  obtain ⟨c, s', tr, st, hreach, hcalls, htotal, hrunning, hnever⟩ := exists_mixed_call
  refine ⟨c, s', tr, st, hreach, hcalls, ?_, ?_⟩
  · rw [hrunning]
    decide
  · rintro ⟨σ, hσ, hcounts⟩
    obtain ⟨-, hlength, -⟩ := calls_collectStats hcalls
    obtain ⟨later, hlater, -⟩ := others_grows hσ.after
    have hjobs : σ.world.jobs.length = 2 := by rw [hσ.length, ← hlength, htotal]
    have hboth := hcounts .running
    rw [Sys.tally, hjobs] at hboth
    have hstates := (others_accounted hreach.accounted hσ.before).state
    refine hnever σ.history ⟨later, hlater.symm⟩ ?_
    rw [← hstates 0 (by omega), ← hstates 1 (by omega)]
    have hall := Nat.count_iff_forall.mp (hboth.symm.trans hrunning)
    exact ⟨hall 0 (by decide), hall 1 (by decide)⟩

end StegaPng
