import StegaPng.Conservation
import StegaPng.LifeCycle
import StegaPng.Shutdown

/-! When a CANCEL that reaches a queued job is honoured. -/

namespace StegaPng

open Interleaving

/-- The step loses a CANCEL. It is acknowledged while the job is still QUEUED, but the job's
worker has already found the flag down and the type's processor does not look again; or the
worker cannot open the text of an ENCODE_TEXT job that was canceled while QUEUED; or the
queue is stopped while such a job still waits in it. -/
inductive CancelLost (s s' : Sys) : Prop
  | late {marks : List Mark} {i j : Nat} (hhistory : s'.history = marks ++ s.history)
      (hheld : holding (.worker i) s.history = some j)
      (hclear : sawClear (.worker i) s.history = true)
      (hblind : ¬ (s.world.job j).type.Rechecks) (hack : .cancelAck j .queued ∈ marks)
  | unreadable {marks : List Mark} {i j : Nat} {path : Bytes}
      (hhistory : s'.history = marks ++ s.history)
      (hheld : holding (.worker i) s.history = some j) (htype : (s.world.job j).type = .encodeText)
      (hack : .cancelAck j .queued ∈ s.history) (hfault : .fault (.worker i) .fopenRb path ∈ marks)
  | stopped {j : Nat} (hack : .cancelAck j .queued ∈ s.history) (hwaits : j ∈ s.world.queue)
      (hopen : s.world.stopped = false) (hstops : s'.world.stopped = true)

/-- A canceled job is on its way to CANCELED. -/
structure Honoured (s : Sys) (j : Nat) : Prop where
  lt : j < s.world.jobs.length
  made : making s.history ≠ some j
  requested : (s.world.job j).cancel_requested = true
  not_done : (s.world.job j).state ≠ .done
  not_failed : (s.world.job j).state ≠ .failed
  rechecks : (s.world.job j).state = .running → (s.world.job j).type.Rechecks
  clear : ∀ i, holding (.worker i) s.history = some j → sawClear (.worker i) s.history = true →
    (s.world.job j).state = .queued ∧ (s.world.job j).type.Rechecks
  readable : ∀ i, holding (.worker i) s.history = some j → (s.world.job j).state = .running →
    (s.world.job j).type = .encodeText → sawUnreadable (.worker i) s.history = false

section

variable {cfg : RuntimeConfig} {codec : PngCodec} {s s' : Sys} {t u : Tid} {o : Op}
  {marks h : List Mark} {j : Nat}

theorem exec_flag {e : Env} {w w' : World} {a : Ans o} {job : Nat} {requested : Bool}
    (hexec : exec codec e t w o = some (a, w', marks)) (hmem : .flag u job requested ∈ marks) :
    o = .getJob job .cancelRequested ∧ u = t ∧ requested = (w.job job).cancel_requested := by
  have hfault : ∀ ok call path, Mark.flag u job requested ∉ faultUnless ok t call path := by
    intro ok call path
    cases ok <;> simp [faultUnless]
  have hnone : marks = [] → False := by
    rintro rfl
    cases hmem
  cases o with
  | getJob k f =>
    simp only [exec, Option.some.injEq, Prod.mk.injEq] at hexec
    obtain ⟨-, -, rfl⟩ := hexec
    split at hmem
    · next hf =>
      subst hf
      obtain ⟨rfl, rfl, rfl⟩ := Mark.flag.inj (List.mem_singleton.mp hmem)
      exact ⟨rfl, rfl, rfl⟩
    · cases hmem
  | createJob | push | accept | pop | join | pngLoad | readLine | readExact | read | setJob
      | requestCancel =>
    simp only [exec] at hexec
    repeat' split at hexec
    all_goals
      cases hexec <;> simp only [List.mem_cons, List.not_mem_nil, reduceCtorEq, or_self] at hmem
  | _ =>
    simp only [exec, Option.some.injEq, Prod.mk.injEq] at hexec
    first
      | exact absurd (hexec.2.2 ▸ hmem) (hfault _ _ _)
      | exact absurd (hexec.2.2 ▸ hmem) List.not_mem_nil
      | exact absurd (hexec.2.2 ▸ hmem) (by simp)

/-- Quiet marks whose looks have all found the flag up. -/
theorem sawClear_quiet (hmarks : ∀ m ∈ marks, m.Quiet t)
    (hflag : ∀ job requested, .flag u job requested ∈ marks → requested = true)
    (hclear : sawClear u (marks ++ h) = true) : sawClear u h = true := by
  induction marks with
  | nil => exact hclear
  | cons m marks ih =>
    have hrest := ih (fun m' hm' => hmarks m' (List.mem_cons_of_mem _ hm'))
      fun job requested hmem => hflag job requested (List.mem_cons_of_mem _ hmem)
    cases hmarks m (List.mem_cons_self ..) with
    | flag job requested =>
      by_cases htu : t = u
      · subst htu
        obtain rfl := hflag job requested (List.mem_cons_self ..)
        simp [sawClear] at hclear
      · exact hrest (by simpa [sawClear, htu] using hclear)
    | _ => exact hrest hclear

/-- Quiet marks without a file that could not be opened. -/
theorem sawUnreadable_quiet (hmarks : ∀ m ∈ marks, m.Quiet t)
    (hfault : ∀ path, .fault u .fopenRb path ∉ marks) :
    sawUnreadable u (marks ++ h) = sawUnreadable u h := by
  induction marks with
  | nil => rfl
  | cons m marks ih =>
    have hrest := ih (fun m' hm' => hmarks m' (List.mem_cons_of_mem _ hm'))
      fun path hmem => hfault path (List.mem_cons_of_mem _ hmem)
    cases hmarks m (List.mem_cons_self ..) with
    | fault call path =>
      by_cases hopen : call = .fopenRb ∧ t = u
      · obtain ⟨rfl, rfl⟩ := hopen
        exact absurd (List.mem_cons_self ..) (hfault path)
      · rw [← hrest]
        cases call <;> simp only [List.cons_append, sawUnreadable, true_and, ite_eq_right_iff,
          reduceCtorEq] at hopen ⊢
        exact fun htu => absurd htu hopen
    | _ => exact hrest

/-- After a step that leaves the job's record and its holder alone. -/
theorem Honoured.quiet (hon : Honoured s j) (hjobs : s'.world.jobs = s.world.jobs)
    (hmarks : ∀ m ∈ marks, m.Quiet t) (hhistory : s'.history = marks ++ s.history)
    (hack : .cancelAck j .queued ∈ s.history) (hflag : ∀ i, holding (.worker i) s.history = some j →
      ∀ job requested,
      .flag (.worker i) job requested ∈ marks → requested = true)
    (hkept : ¬ CancelLost s s') : Honoured s' j := by
  have hbooks := hhistory ▸ quiet_books hmarks s.history
  have hjob := World.job_congr hjobs j
  refine ⟨hjobs ▸ hon.lt, ?_, ?_, ?_, ?_, ?_, ?_, ?_⟩
  · rw [hbooks.making]
    exact hon.made
  · rw [hjob]
    exact hon.requested
  · rw [hjob]
    exact hon.not_done
  · rw [hjob]
    exact hon.not_failed
  · rw [hjob]
    exact hon.rechecks
  · intro i hheld hclear
    rw [hbooks.holding] at hheld
    rw [hjob]
    rw [hhistory] at hclear
    exact hon.clear i hheld (sawClear_quiet hmarks (hflag i hheld) hclear)
  · intro i hheld hrunning htype
    rw [hbooks.holding] at hheld
    rw [hjob] at hrunning htype
    rw [hhistory, sawUnreadable_quiet hmarks fun path hmem => ?_]
    · exact hon.readable i hheld hrunning htype
    · exact hkept (.unreadable hhistory hheld htype hack hmem)

theorem Honoured.plain (hon : Honoured s j) (hjob : s'.world.job j = s.world.job j)
    (hlt : j < s'.world.jobs.length) (hmaking : making s'.history ≠ some j)
    (hclear : ∀ i, holding (.worker i) s'.history = some j →
      holding (.worker i) s.history = some j ∧
      (sawClear (.worker i) s'.history = true → sawClear (.worker i) s.history = true) ∧
      (sawUnreadable (.worker i) s.history = false →
        sawUnreadable (.worker i) s'.history = false)) :
    Honoured s' j := by
  refine ⟨hlt, hmaking, ?_, ?_, ?_, ?_, fun i hheld hsaw => ?_, fun i hheld => ?_⟩ <;> rw [hjob]
  · exact hon.requested
  · exact hon.not_done
  · exact hon.not_failed
  · exact hon.rechecks
  · obtain ⟨hheld', hsaw', -⟩ := hclear i hheld
    exact hon.clear i hheld' (hsaw' hsaw)
  · intro hrunning htype
    obtain ⟨hheld', -, hread⟩ := hclear i hheld
    exact hread (hon.readable i hheld' hrunning htype)

/-- The worker's own change of its job's state can only be towards CANCELED. -/
theorem Honoured.moved (hon : Honoured s j) (hinv : Inv cfg codec s) {i : Nat}
    (hheld : holding (.worker i) s.history = some j) {st : JobState} {now : Nat}
    (hmay : MayBecome cfg codec (.worker i) s (s.world.job j) st)
    (hworld : s'.world = s.world.updateJob j (JobUpdate.apply now · (.state st)))
    (hhistory : s'.history = .state (.worker i) j st :: s.history) : Honoured s' j := by
  have hjob : s'.world.job j = JobUpdate.apply now (s.world.job j) (.state st) := by
    rw [hworld, World.updateJob_job _ hon.lt]
  have hholder : ∀ k, holding (.worker k) s'.history = some j → k = i := by
    intro k hk
    rw [hhistory] at hk
    have hsame := hinv.held_unique (show holding (.worker k) s.history = some j from hk) hheld
    exact Tid.worker.inj hsame
  have hstate : st = .canceled ∨ st = .running ∧ (s.world.job j).type.Rechecks := by
    unfold MayBecome at hmay
    cases hold : (s.world.job j).state <;> cases st <;> simp only [hold] at hmay
    · exact .inr ⟨rfl, (hon.clear i hheld hmay).2⟩
    · exact .inl rfl
    · rcases hmay.2 with hclear | hnot
      · exact absurd ((hon.clear i hheld hclear).1.symm.trans hold) nofun
      · exact absurd (hon.rechecks hold) hnot
    · rcases hmay.2 with hclear | hnot | ⟨htype, hunreadable⟩
      · exact absurd ((hon.clear i hheld hclear).1.symm.trans hold) nofun
      · exact absurd (hon.rechecks hold) hnot
      · rw [hon.readable i hheld hold htype] at hunreadable
        cases hunreadable
    · exact .inl rfl
  refine ⟨?_, ?_, ?_, ?_, ?_, ?_, fun k hk hsaw => ?_, fun k hk _ _ => ?_⟩
  · rw [hworld, World.updateJob_length]
    exact hon.lt
  · rw [hhistory]
    exact hon.made
  · rw [hjob]
    exact hon.requested
  · rw [hjob]
    rcases hstate with rfl | ⟨rfl, -⟩ <;> exact nofun
  · rw [hjob]
    rcases hstate with rfl | ⟨rfl, -⟩ <;> exact nofun
  · rw [hjob]
    rintro (hrunning : st = .running)
    rcases hstate with rfl | ⟨-, hrechecks⟩
    · cases hrunning
    · exact hrechecks
  · obtain rfl := hholder k hk
    rw [hhistory] at hsaw
    simp [sawClear] at hsaw
  · obtain rfl := hholder k hk
    rw [hhistory]
    simp [sawUnreadable]

theorem Honoured.rewritten (hon : Honoured s j) (update : JobUpdate) (now : Nat)
    (hupdate : ∀ st, update ≠ .state st)
    (hworld : s'.world = s.world.updateJob j (update.apply now))
    (hhistory : s'.history = s.history) :
    Honoured s' j := by
  have hjob : s'.world.job j = update.apply now (s.world.job j) := by
    rw [hworld, World.updateJob_job _ hon.lt]
  have hstate := JobUpdate.apply_state now (s.world.job j) hupdate
  have htype := JobUpdate.apply_type now (s.world.job j) update
  refine ⟨?_, ?_, ?_, ?_, ?_, ?_, ?_, ?_⟩
  · rw [hworld, World.updateJob_length]
    exact hon.lt
  · rw [hhistory]
    exact hon.made
  · rw [hjob, JobUpdate.apply_cancel_requested]
    exact hon.requested
  · rw [hjob, hstate]
    exact hon.not_done
  · rw [hjob, hstate]
    exact hon.not_failed
  · rw [hjob, hstate, htype]
    exact hon.rechecks
  · rw [hhistory, hjob, hstate, htype]
    exact hon.clear
  · rw [hhistory, hjob, hstate, htype]
    exact hon.readable

/-- A job that is canceled in time while QUEUED. -/
theorem honoured_of_ack (hj : j < s.world.jobs.length) (hmaking : making s.history = none)
    (hqueued : (s.world.job j).state = .queued)
    (hworld : s'.world = s.world.updateJob j fun r => { r with cancel_requested := true })
    (hhistory : s'.history = .cancelAck j .queued :: s.history) (hkept : ¬ CancelLost s s') :
      Honoured s' j := by
  have hjob : s'.world.job j = { s.world.job j with cancel_requested := true } := by
    rw [hworld, World.updateJob_job _ hj]
  refine ⟨?_, ?_, by rw [hjob], ?_, ?_, ?_, fun i hheld hclear => ?_, ?_⟩
  · rw [hworld, World.updateJob_length]
    exact hj
  · rw [hhistory]
    change making s.history ≠ some j
    rw [hmaking]
    exact nofun
  · rw [hjob, hqueued]
    exact nofun
  · rw [hjob, hqueued]
    exact nofun
  · rw [hjob, hqueued]
    exact nofun
  · rw [hhistory] at hheld hclear
    rw [hjob]
    refine ⟨hqueued, ?_⟩
    by_contra hnot
    have hack : .cancelAck j .queued ∈ [Mark.cancelAck j .queued] := List.mem_singleton_self _
    exact hkept (.late hhistory hheld hclear hnot hack)
  · rw [hjob, hqueued]
    exact fun _ _ => nofun

theorem Honoured.step (hon : Honoured s j) (hack : .cancelAck j .queued ∈ s.history)
    (hinv : Inv cfg codec s) (hallowed : Allowed cfg codec t o s) {e : Env} {a : Ans o}
    (hexec : exec codec e t s.world o = some (a, s'.world, marks))
    (hhistory : s'.history = marks ++ s.history) (hkept : ¬ CancelLost s s') : Honoured s' j := by
  have hflag : ∀ i, holding (.worker i) s.history = some j → ∀ job requested,
      .flag (.worker i) job requested ∈ marks → requested = true := by
    intro i hheld job requested hmem
    obtain ⟨rfl, rfl, rfl⟩ := exec_flag hexec hmem
    rcases hallowed rfl with hmain | hholds
    · cases hmain
    · obtain rfl : j = job := Option.some.inj (hheld.symm.trans hholds)
      exact hon.requested
  have heffect := exec_effect hexec
  have hsame : s'.world.jobs = s.world.jobs → s'.world.job j = s.world.job j ∧
    j < s'.world.jobs.length :=
    fun hjobs => ⟨World.job_congr hjobs j, hjobs ▸ hon.lt⟩
  obtain ⟨w', h'⟩ := s'
  dsimp only at heffect hhistory hsame
  cases heffect with
  | quiet hcore _ hmarks => exact hon.quiet hcore.jobs hmarks hhistory hack hflag hkept
  | file _ hcore _ hmarks => exact hon.quiet hcore.jobs hmarks hhistory hack hflag hkept
  | input _ hcore _ hmarks =>
    have hbooks := hhistory ▸ input_books hmarks s.history
    have hsaw : ∀ u, sawClear u h' = sawClear u s.history := fun u =>
      hhistory ▸ ignores_append (fun m hm h => by cases hmarks m hm <;> rfl) _
    have hread : ∀ u, sawUnreadable u h' = sawUnreadable u s.history := fun u =>
      hhistory ▸ ignores_append (fun m hm h => by cases hmarks m hm <;> rfl) _
    refine hon.plain (hsame hcore.jobs).1 (hsame hcore.jobs).2 ?_ fun i hheld => ⟨?_, ?_, ?_⟩
    · exact hbooks.making ▸ hon.made
    · rw [← hbooks.holding]
      exact hheld
    · exact fun h => (hsaw _).symm.trans h
    · exact fun h => (hread _).trans h
  | created now hroom =>
    subst hhistory
    refine hon.plain (World.job_append rfl hon.lt) ?_ ?_ fun i hheld => ⟨hheld, id, id⟩
    · rw [List.length_append]
      exact Nat.lt_add_right _ hon.lt
    · intro hmade
      have hlast : s.world.jobs.length = j := Option.some.inj hmade
      exact absurd hon.lt (by omega)
  | @set k update now =>
    have hholders : ∀ i, holding (.worker i) h' = holding (.worker i) s.history := by
      intro i
      rw [hhistory]
      cases update <;> rfl
    by_cases hkj : j = k
    · subst hkj
      rcases hallowed with ⟨-, hmaking, -⟩ | ⟨hheld, hlive, hsets⟩
      · exact absurd hmaking hon.made
      · have ht := (hinv.held t j hheld).1
        cases t with
        | main => exact absurd rfl ht
        | worker i =>
          cases update with
          | state st => exact hon.moved hinv hheld hsets.1 rfl hhistory
          | storedPath path => exact hsets.elim
          | result text => exact hon.rewritten (.result text) now (by simp) rfl hhistory
          | outputPath path => exact hon.rewritten (.outputPath path) now (by simp) rfl hhistory
          | resultMeta kind size filename =>
            exact hon.rewritten (.resultMeta kind size filename) now (by simp) rfl hhistory
    · refine hon.plain (World.updateJob_job_ne _ hkj) ?_ ?_ fun i hheld =>
        ⟨hholders i ▸ hheld, ?_, ?_⟩
      · rw [World.updateJob_length]
        exact hon.lt
      · rw [hhistory]
        have hmade := hon.made
        cases update with
        | state st =>
          cases t with
          | main =>
            intro hmaking
            cases hmaking
          | worker i => exact hmade
        | _ => exact hmade
      · rw [hhistory]
        cases update with
        | state st =>
          exact fun hclear => (by simpa [JobUpdate.marks, sawClear] using hclear : _ ∧ _).2
        | _ => exact id
      · rw [hhistory]
        cases update with
        | state st =>
          intro hread
          simp [JobUpdate.marks, sawUnreadable, hread]
        | _ => exact id
  | @canceled k hlive =>
    subst hhistory
    by_cases hkj : j = k
    · subst hkj
      have hjob : (s.world.updateJob j fun r => { r with cancel_requested := true }).job j =
          { s.world.job j with cancel_requested := true } := World.updateJob_job _ hon.lt
      have hcanceled : { s.world.job j with cancel_requested := true } = s.world.job j := by
        rw [← hon.requested]
      refine hon.plain (hjob.trans hcanceled) ?_ hon.made fun i hheld => ⟨hheld, id, id⟩
      rw [World.updateJob_length]
      exact hon.lt
    · refine hon.plain (World.updateJob_job_ne _ hkj) ?_ hon.made fun i hheld => ⟨hheld, id, id⟩
      rw [World.updateJob_length]
      exact hon.lt
  | pushed =>
    subst hhistory
    refine hon.plain rfl hon.lt ?_ fun i hheld => ⟨hheld, id, id⟩
    intro hmaking
    cases hmaking
  | pushFailed =>
    subst hhistory
    exact hon.plain rfl hon.lt hon.made fun i hheld => ⟨hheld, id, id⟩
  | @popped k queue hqueue =>
    subst hhistory
    refine ⟨hon.lt, hon.made, hon.requested, hon.not_done, hon.not_failed, hon.rechecks,
      fun i hheld hclear => ?_,
      fun i hheld hrunning htype => ?_⟩
    · by_cases hti : t = .worker i
      · simp [sawClear, hti] at hclear
      · simp only [List.singleton_append, holding, sawClear, hti, if_false] at hheld hclear
        exact hon.clear i hheld hclear
    · by_cases hti : t = .worker i
      · simp [sawUnreadable, hti]
      · simp only [List.singleton_append, holding, sawUnreadable, hti, if_false] at hheld ⊢
        exact hon.readable i hheld hrunning htype
  | event =>
    subst hhistory
    exact hon.plain rfl hon.lt hon.made fun i hheld => ⟨hheld, id, id⟩

theorem Honoured.turn (hon : Honoured s j) :
    Honoured { s with history := .turn t :: s.history } j := by
  refine hon.plain rfl hon.lt hon.made fun i hheld => ?_
  by_cases hti : t = .worker i
  · simp [holding, hti] at hheld
  · simp only [holding, sawClear, sawUnreadable, hti, if_false] at hheld ⊢
    exact ⟨hheld, id, id⟩

end

/-- The steps that lose no CANCEL. -/
def StepInTime (codec : PngCodec) (cfg : RuntimeConfig) (dt : DurationText) (fds : ServerFds)
    (c c' : ServerConfig) : Prop :=
  Config.Step (machine codec) (serverBody cfg dt fds) c c' ∧ ¬ CancelLost c.state c'.state

/-- Every job canceled while QUEUED is on its way to CANCELED. -/
def AllHonoured (s : Sys) : Prop := ∀ j, .cancelAck j .queued ∈ s.history → Honoured s j

/-- No job canceled while QUEUED is left in a queue that has been stopped. -/
def NoneStranded (s : Sys) : Prop :=
  s.world.stopped = true → ∀ j, .cancelAck j .queued ∈ s.history → j ∉ s.world.queue

/-- The job never ran to completion. It is CANCELED once a worker has taken it and has come to
the end of its turn, and at the latest when every thread is gone. -/
structure EndsCanceled (c : ServerConfig) (j : Nat) : Prop where
  requested : (c.state.world.job j).cancel_requested = true
  not_completed : ∀ t, .state t j .done ∉ c.state.history ∧ .state t j .failed ∉ c.state.history
  not_ended : (c.state.world.job j).state ≠ .done ∧ (c.state.world.job j).state ≠ .failed
  turn_over : ∀ i l, c.thread (.worker i) = some (.ret l) →
    holding (.worker i) c.state.history = some j →
    (c.state.world.job j).state = .canceled
  released : pops j c.state.history ≠ [] → (∀ t, holding t c.state.history ≠ some j) →
    (c.state.world.job j).state = .canceled
  server_over : (∀ t, c.thread t = none) → (c.state.world.job j).state = .canceled

section

variable {codec : PngCodec} {cfg : RuntimeConfig} {dt : DurationText} {fds : ServerFds}
  {files : Bytes → Option Bytes} {c c' : ServerConfig} {j : Nat}

theorem inTime_reachable (h : Relation.ReflTransGen (StepInTime codec cfg dt fds) c c') :
    Config.Reachable (machine codec) (serverBody cfg dt fds) c c' := by
  induction h with
  | refl => exact .refl
  | tail _ hlast ih => exact ih.tail hlast.1

theorem AllHonoured.op {s s' : Sys} {t : Tid} {o : Op} {a : Ans o} (hall : AllHonoured s)
    (hinv : Inv cfg codec s) (hallowed : Allowed cfg codec t o s)
    (hstep : (machine codec).step t o s a s') (hkept : ¬ CancelLost s s') :
    AllHonoured s' := by
  intro j hack
  obtain ⟨e, marks, -, hexec, hhistory⟩ := hstep
  by_cases hold : .cancelAck j .queued ∈ s.history
  · exact (hall j hold).step hold hinv hallowed hexec hhistory hkept
  · have hnew : .cancelAck j .queued ∈ marks := by
      rw [hhistory] at hack
      exact (List.mem_append.mp hack).resolve_right hold
    have heffect := exec_effect hexec
    obtain ⟨w', h'⟩ := s'
    dsimp only at heffect hhistory
    cases heffect with
    | quiet _ _ hmarks => cases hmarks _ hnew
    | input _ _ _ hmarks => cases hmarks _ hnew
    | file _ _ _ hmarks => cases hmarks _ hnew
    | @set k update now => cases update <;> simp [JobUpdate.marks] at hnew
    | canceled hlive =>
      obtain ⟨rfl, hqueued⟩ := Mark.cancelAck.inj (List.mem_singleton.mp hnew)
      rw [← hqueued] at hhistory
      exact honoured_of_ack hallowed.2.1 hallowed.2.2 hqueued.symm rfl hhistory hkept
    | _ => simp at hnew

theorem AllHonoured.step (hall : AllHonoured c.state) (hkeeps : (conduct cfg codec).Keeps c)
    (hstep : StepInTime codec cfg dt fds c c') : AllHonoured c'.state := by
  obtain ⟨hstep, hkept⟩ := hstep
  have hturn : ∀ t, AllHonoured { c.state with history := .turn t :: c.state.history } := by
    intro t j hack
    exact (hall j (by simpa using hack)).turn
  cases hstep with
  | op ht hs => exact hall.op hkeeps.inv (hkeeps.allowed (conduct_sound cfg codec) ht) hs hkept
  | again ht => exact hturn _
  | halt ht => exact hturn _

theorem NoneStranded.step (hnone : NoneStranded c.state)
    (h : ServerReachable codec cfg dt fds files c) (hstep : StepInTime codec cfg dt fds c c') :
    NoneStranded c'.state := by
  obtain ⟨hstep, hkept⟩ := hstep
  intro hstopped j hack
  cases hopen : c.state.world.stopped with
  | true =>
    -- nothing is put into the queue any more, and no CANCEL is served
    obtain ⟨-, hqueue, hacks⟩ := h.stopped_step hstep hopen
    exact fun hwaits => hnone hopen j (hacks j _ hack) (hqueue j hwaits)
  | false =>
    cases hstep with
    | again ht => exact absurd (hopen.symm.trans hstopped) Bool.false_ne_true
    | halt ht => exact absurd (hopen.symm.trans hstopped) Bool.false_ne_true
    | @op t o k a s ht hs =>
      rcases step_stopped hs with hsame | ⟨rfl, hstops⟩
      · exact absurd (hopen.symm.trans (hsame.symm.trans hstopped)) Bool.false_ne_true
      · obtain ⟨e, marks, -, hexec, hhistory⟩ := hs
        simp only [exec, Option.some.injEq, Prod.mk.injEq] at hexec
        obtain ⟨-, hworld, rfl⟩ := hexec
        have hold : .cancelAck j .queued ∈ c.state.history := by
          rw [← List.nil_append c.state.history, ← hhistory]
          exact hack
        intro hwaits
        have hwaits' : j ∈ s.world.queue := hwaits
        rw [← hworld] at hwaits'
        exact hkept (.stopped hold hwaits' hopen hstops)

theorem Honoured.canceled {s : Sys} (hon : Honoured s j)
    (hterminal : (s.world.job j).state.Terminal) :
    (s.world.job j).state = .canceled := by
  rcases hterminal with hdone | hfailed | hcanceled
  · exact absurd hdone hon.not_done
  · exact absurd hfailed hon.not_failed
  · exact hcanceled

/-- A job on its way to CANCELED gets there before the last thread is gone. -/
theorem Honoured.server_over (hon : Honoured c.state j)
    (h : ServerReachable codec cfg dt fds files c) (hnone : NoneStranded c.state)
    (hack : .cancelAck j .queued ∈ c.state.history) (hgone : ∀ t, c.thread t = none) :
    (c.state.world.job j).state = .canceled := by
  have hqueue : j ∉ c.state.world.queue := hnone (h.main_gone (hgone .main)) j hack
  obtain ⟨place, hplace⟩ := h.inv.exists_place hon.lt hon.made
  cases place with
  | queued => exact absurd (List.count_pos_iff.mp (by rw [hplace.2.1]; exact Nat.one_pos)) hqueue
  | held i =>
    have hheld := (hplace.2 (.worker i)).mpr rfl
    rw [h.gone_idle (hgone (.worker i))] at hheld
    cases hheld
  | finished => exact hon.canceled hplace.1

/-- In every run that loses no CANCEL, a job whose CANCEL was acknowledged while it was
QUEUED ends CANCELED. -/
theorem cancel_honoured
    (h : Relation.ReflTransGen (StepInTime codec cfg dt fds) (initialConfig cfg dt fds files) c)
    (hack : .cancelAck j .queued ∈ c.state.history) : EndsCanceled c j := by
  have hreach : ServerReachable codec cfg dt fds files c := inTime_reachable h
  have hrun : AllHonoured c.state ∧ NoneStranded c.state := by
    clear hack hreach
    induction h with
    | refl => exact ⟨nofun, nofun⟩
    | tail hpre hlast ih =>
      have hreach : ServerReachable codec cfg dt fds files _ := inTime_reachable hpre
      exact ⟨ih.1.step hreach.keeps hlast, ih.2.step hreach hlast⟩
  obtain ⟨hall, hnone⟩ := hrun
  have hon := hall j hack
  have hlast := hreach.accounted.state j hon.lt
  have hcycle := hreach.accounted.cycle j
  obtain ⟨hconserved, hturn⟩ := jobs_conserved hreach
  constructor
  · exact hon.requested
  · intro t
    refine ⟨fun hdone => hon.not_done ?_, fun hfailed => hon.not_failed ?_⟩
    · exact hlast.trans (hcycle.ended hdone (.inl rfl))
    · exact hlast.trans (hcycle.ended hfailed (.inr (.inl rfl)))
  · exact ⟨hon.not_done, hon.not_failed⟩
  · intro i l hend hheld
    exact hon.canceled (hturn i l hend j hheld).1
  · intro hpopped hfree
    exact hon.canceled (hconserved.released j hpopped hfree).1
  · exact hon.server_over hreach hnone hack

end

/-! A run in which the CANCEL comes before any worker has popped the job. -/

def Mark.isPopped : Mark → Bool
  | .popped .. => true
  | _ => false

def Mark.isAck : Mark → Bool
  | .cancelAck .. => true
  | _ => false

/-- A step that loses no CANCEL for one of the plainest reasons: no file fails, the queue
is not stopped, and no worker has popped a job before a CANCEL. -/
def plainStep (s s' : Sys) : Bool :=
  let marks := s'.history.take (s'.history.length - s.history.length)
  marks.all (fun m => !m.isFault) && !s'.world.stopped &&
    (marks.all (fun m => !m.isAck) || s.history.all fun m => !m.isPopped)

theorem holding_eq_none {h : List Mark} (hnone : (h.all fun m => !m.isPopped) = true) (t : Tid) :
    holding t h = none := by
  induction h with
  | nil => rfl
  | cons m h ih =>
    obtain ⟨hm, hrest⟩ := Bool.and_eq_true_iff.mp (List.all_cons.symm.trans hnone)
    cases m with
    | popped u j => cases hm
    | turn u =>
      simp only [holding]
      split
      · rfl
      · exact ih hrest
    | _ => exact ih hrest

theorem plainStep_kept {s s' : Sys} (h : plainStep s s' = true) : ¬ CancelLost s s' := by
  have htake : ∀ {marks}, s'.history = marks ++ s.history →
      s'.history.take (s'.history.length - s.history.length) = marks := by
    intro marks hhistory
    rw [hhistory, List.length_append, Nat.add_sub_cancel]
    exact List.take_left
  simp only [plainStep, Bool.and_eq_true, Bool.or_eq_true] at h
  obtain ⟨⟨hfaults, hopen⟩, hacks⟩ := h
  intro hlost
  cases hlost with
  | late hhistory hheld hclear hblind hack =>
    rw [htake hhistory] at hacks
    rcases hacks with hnone | hnone
    · have hmark := List.all_eq_true.mp hnone _ hack
      cases hmark
    · rw [holding_eq_none hnone] at hheld
      cases hheld
  | unreadable hhistory hheld htype hack hfault =>
    rw [htake hhistory] at hfaults
    have hmark := List.all_eq_true.mp hfaults _ hfault
    cases hmark
  | stopped hack hwaits hrunning hstops =>
    rw [hstops] at hopen
    cases hopen

/-- Follows a schedule as long as its steps are plain. -/
def followPlainly (codec : PngCodec) (cfg : RuntimeConfig) (dt : DurationText) (fds : ServerFds) :
    List (Tid × Env) → ServerConfig → Option ServerConfig
  | [], c => some c
  | (t, e) :: schedule, c =>
    (advance codec cfg dt fds t e c).bind fun c' =>
      if plainStep c.state c'.state then followPlainly codec cfg dt fds schedule c' else none

theorem followPlainly_inTime {codec : PngCodec} {cfg : RuntimeConfig} {dt : DurationText}
    {fds : ServerFds} {schedule : List (Tid × Env)} {c c' : ServerConfig}
    (h : followPlainly codec cfg dt fds schedule c = some c') :
    Relation.ReflTransGen (StepInTime codec cfg dt fds) c c' := by
  induction schedule generalizing c with
  | nil =>
    cases h
    exact .refl
  | cons te schedule ih =>
    obtain ⟨c₁, hfirst, hrest⟩ := Option.bind_eq_some_iff.mp h
    split at hrest
    · next hplain => exact .head ⟨advance_step hfirst, plainStep_kept hplain⟩ (ih hrest)
    · cases hrest

/-- A user connects, submits a text and cancels the job at once. -/
def promptCancel : List (Tid × Env) :=
  [(.main, {}), (.main, pollReports [0]),
    (.main, { connection := some ⟨9, .inet 10 0 0 7,
      [.chunk 83 (lit "UBMIT hello\nCANCEL 1\n")]⟩ }),
    (.main, {}), (.main, {}), (.main, {}), (.main, pollReports [5])] ++
  steps 5 .main ++ [(.main, {}), (.main, {}), (.main, pollReports [5])] ++ steps 4 .main

/-- The worker is between two turns. -/
def turnOver (c : ServerConfig) (i : Nat) : Bool :=
  match c.thread (.worker i) with
  | some (.ret _) => true
  | _ => false

theorem exists_ret_of_turnOver {c : ServerConfig} {i : Nat} (h : turnOver c i = true) :
    ∃ l, c.thread (.worker i) = some (.ret l) := by
  unfold turnOver at h
  split at h
  · next l ht => exact ⟨l, ht⟩
  · cases h

/-- The worker that comes to the job drops it. -/
theorem cancel_honoured_promptCancel :
    ∃ c, ServerReachable rawCodec runtimeConfigDefaults plainDurations plainFds (fun _ => none) c ∧
      .cancelAck 0 .queued ∈ c.state.history ∧ holding (.worker 0) c.state.history = some 0 ∧
      (∃ l, c.thread (.worker 0) = some (.ret l)) ∧ (c.state.world.job 0).state = .canceled := by
  have hrun : (followPlainly rawCodec runtimeConfigDefaults plainDurations plainFds
      (promptCancel ++ steps 7 (.worker 0))
        (initialConfig runtimeConfigDefaults plainDurations plainFds fun _ => none)).map (fun c =>
        (decide (.cancelAck 0 .queued ∈ c.state.history),
          decide (holding (.worker 0) c.state.history = some 0),
          turnOver c 0)) = some (true, true, true) := by
    decide +kernel
  obtain ⟨c, hfollow, hc⟩ := Option.map_eq_some_iff.mp hrun
  obtain ⟨hack, hrest⟩ := Prod.mk.inj hc
  obtain ⟨hheld, hover⟩ := Prod.mk.inj hrest
  have hack' := of_decide_eq_true hack
  have hheld' := of_decide_eq_true hheld
  have hinTime := followPlainly_inTime hfollow
  have hreach : ServerReachable rawCodec runtimeConfigDefaults plainDurations plainFds
    (fun _ => none) c :=
    inTime_reachable hinTime
  obtain ⟨l, hl⟩ := exists_ret_of_turnOver hover
  exact ⟨c, hreach, hack', hheld', ⟨l, hl⟩, (cancel_honoured hinTime hack').turn_over 0 l hl hheld'⟩

/-- The worker has looked at the flag before the CANCEL, and VALIDATE_IMAGE does not
look again. -/
theorem cancel_not_honoured :
    ¬ ∀ (codec : PngCodec) (cfg : RuntimeConfig) (dt : DurationText) (fds : ServerFds)
      (files : Bytes → Option Bytes)
      (c : ServerConfig) (j : Nat), ServerReachable codec cfg dt fds files c →
      .cancelAck j .queued ∈ c.state.history →
      (c.state.world.job j).state ≠ .done ∧ (c.state.world.job j).state ≠ .failed := by
  intro hhonoured
  obtain ⟨c, hreach, hc⟩ :=
    exists_reachable rawCodec runtimeConfigDefaults plainDurations plainFds (fun _ => none)
    lateCancel (fun c => (decide (.cancelAck 0 .queued ∈ c.state.history),
      (c.state.world.job 0).state))
    (show _ = some (true, .failed) by decide +kernel)
  obtain ⟨hack, hfailed⟩ := Prod.mk.inj hc
  exact (hhonoured _ _ _ _ _ c 0 hreach (of_decide_eq_true hack)).2 hfailed

end StegaPng
