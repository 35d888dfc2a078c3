import StegaPng.Duties
import StegaPng.ServerRuns

/-! The shutdown of the running server: the queue is stopped once main has left its loop,
and what is still in it then stays there. -/

namespace StegaPng

open Interleaving

/-- The flags of a stop are set by the operations of `stop_workers` alone. -/
theorem exec_flags {codec : PngCodec} {e : Env} {t : Tid} {w w' : World} {o : Op} {a : Ans o}
    {marks : List Mark} (h : exec codec e t w o = some (a, w', marks)) :
    (w'.running = w.running ∨ o = .stopRunning ∧ w'.running = false) ∧
      (w'.stopped = w.stopped ∨ o = .stopQueue ∧ w'.stopped = true) := by
  cases o with
  | stopRunning =>
    cases h
    exact ⟨.inr ⟨rfl, rfl⟩, .inl rfl⟩
  | stopQueue =>
    cases h
    exact ⟨.inl rfl, .inr ⟨rfl, rfl⟩⟩
  | fopenWb path =>
    cases h
    split <;> exact ⟨.inl rfl, .inl rfl⟩
  | fclose path =>
    cases h
    split <;> exact ⟨.inl rfl, .inl rfl⟩
  | join i =>
    simp only [exec] at h
    split at h
    · cases h
      exact ⟨.inl rfl, .inl rfl⟩
    · cases h
  | pop =>
    simp only [exec] at h
    split at h
    · cases h
      exact ⟨.inl rfl, .inl rfl⟩
    · split at h
      · cases h
      · cases h
        exact ⟨.inl rfl, .inl rfl⟩
  | createJob owner_fd owner_ip type payload input_path =>
    simp only [exec] at h
    split at h
    · cases h
      exact ⟨.inl rfl, .inl rfl⟩
    · split at h <;> cases h <;> exact ⟨.inl rfl, .inl rfl⟩
  | push job =>
    simp only [exec] at h
    split at h
    · cases h
      exact ⟨.inl rfl, .inl rfl⟩
    · split at h <;> cases h <;> exact ⟨.inl rfl, .inl rfl⟩
  | accept fd =>
    simp only [exec] at h
    split at h <;> cases h <;> exact ⟨.inl rfl, .inl rfl⟩
  | pngLoad path =>
    simp only [exec] at h
    split at h <;> cases h <;> exact ⟨.inl rfl, .inl rfl⟩
  | _ =>
    cases h
    exact ⟨.inl rfl, .inl rfl⟩

/-- What a thread may do while the server runs, and what is left to main once it has
stopped the queue. -/
def ShutdownAllowed : Tid → Op → Sys → Prop
  | .main, o, s =>
    o.ofLoop = true ∧ s.world.stopped = false ∨ o = .stopRunning ∨ o = .stopQueue ∨ ∃ i, o = .join i
  | .worker _, o, _ => o.ofWorker = true

/-- Main goes from turn to turn while the queue is open, and ends when it is stopped. -/
def ShutdownFinish : Tid → Option MainState → Sys → Prop
  | .main, l, s => s.world.stopped = l.isNone
  | .worker _, _, _ => True

def shutdownConduct (codec : PngCodec) : Discipline (machine codec) MainState where
  inv _ := True
  allowed := ShutdownAllowed
  rely t s s' := t = .main → s'.world.stopped = s.world.stopped
  start t m := ShutdownFinish t (some m)
  finish := ShutdownFinish

section

variable {codec : PngCodec} {cfg : RuntimeConfig} {s s' : Sys} {t : Tid} {o : Op} {a : Ans o}

theorem ShutdownAllowed.stops {t : Tid} (h : ShutdownAllowed t .stopQueue s) : t = .main := by
  cases t with
  | main => rfl
  | worker i => cases h

theorem step_stopped (h : (machine codec).step t o s a s') :
    s'.world.stopped = s.world.stopped ∨ o = .stopQueue ∧ s'.world.stopped = true := by
  obtain ⟨e, marks, -, hexec, -⟩ := h
  exact (exec_flags hexec).2

theorem shutdownConduct_sound (codec : PngCodec) : (shutdownConduct codec).Sound where
  inv_step _ _ _ := trivial
  rely_step {t u o s a s'} _ hallowed hstep htu := by
    rintro rfl
    rcases step_stopped hstep with hsame | ⟨rfl, -⟩
    · exact hsame
    · exact absurd hallowed.stops.symm htu
  rely_refl _ _ _ := rfl
  rely_trans h h' hmain := (h' hmain).trans (h hmain)
  finish_rely {t b s s'} hfinish hrely _ := by
    cases t with
    | main => exact (hrely rfl).trans hfinish
    | worker i => trivial
  inv_turn _ _ := trivial
  rely_turn _ _ _ _ := rfl
  start_turn {t l s} _ hfinish := by
    cases t with
    | main => exact hfinish
    | worker i => trivial

/-- The poll loop leaves the queue open. -/
theorem loops_shutdown {α : Type} {p : Task α} (hp : p.Loops) (h : s.world.stopped = false) :
    (shutdownConduct codec).wp .main p (fun _ s => s.world.stopped = false) s := by
  refine Discipline.wp_all ?_ ?_ ?_ hp h
  · intro s s' h hrely _
    exact (hrely rfl).trans h
  · intro o s ho h _
    exact .inl ⟨ho, h⟩
  · intro o s a s' ho h _ hstep _
    rcases step_stopped hstep with hsame | ⟨rfl, -⟩
    · exact hsame.trans h
    · cases ho

theorem joinWorkers_shutdown (left i : Nat) (h : s.world.stopped = true) :
    (shutdownConduct codec).wp .main (joinWorkers left i)
      (fun _ s => s.world.stopped = true) s := by
  induction left generalizing i s with
  | zero => exact h
  | succ left ih =>
    intro s₁ hrely _
    refine ⟨.inr (.inr (.inr ⟨i, rfl⟩)), fun _ s₂ hstep _ => ih (i + 1) ?_⟩
    rcases step_stopped hstep with hsame | ⟨-, hstopped⟩
    · exact hsame.trans ((hrely rfl).trans h)
    · exact hstopped

theorem stopWorkers_shutdown (cfg : RuntimeConfig) :
    (shutdownConduct codec).wp .main (stopWorkers cfg) (fun _ s => s.world.stopped = true) s := by
  intro s₁ _ _
  refine ⟨.inr (.inl rfl), fun _ s₂ _ _ s₃ _ _ => ?_⟩
  refine ⟨.inr (.inr (.inl rfl)), fun _ s₄ hstep _ => joinWorkers_shutdown _ _ ?_⟩
  obtain ⟨e, marks, -, hexec, -⟩ := hstep
  simp only [exec, Option.some.injEq, Prod.mk.injEq] at hexec
  rw [← hexec.2.1]

theorem serverTurn_shutdown (dt : DurationText) (fds : ServerFds) (m : MainState)
    (h : s.world.stopped = false) :
    (shutdownConduct codec).wp .main (serverTurn cfg dt fds m) (ShutdownFinish .main) s := by
  have hleave : ∀ {s}, (shutdownConduct codec).wp .main (do
      stopWorkers cfg
      return (none : Option MainState)) (ShutdownFinish .main) s :=
    Discipline.wp_seq (stopWorkers_shutdown cfg) fun _ _ h => h
  refine Discipline.wp_seq (loops_shutdown (loops_call (o := .gRunning) rfl) h) fun running s h =>
    ?_
  cases running with
  | false => exact hleave
  | true =>
    refine Discipline.wp_seq (loops_shutdown (loops_pollIteration dt fds m) h) ?_
    rintro ⟨next, log⟩ s h
    cases next with
    | none => exact hleave
    | some m => exact h

theorem serverBody_shutdown (dt : DurationText) (fds : ServerFds) (t : Tid) (m : MainState)
    (h : ShutdownFinish t (some m) s) :
    (shutdownConduct codec).wp t (serverBody cfg dt fds t m) (ShutdownFinish t) s := by
  cases t with
  | main => exact serverTurn_shutdown dt fds m h
  | worker i =>
    have hworks : (serverBody cfg dt fds (.worker i) m).Works :=
      (works_workerTurn i).bind fun _ => Prog.all_pure _
    exact Discipline.wp_all (P := fun _ => True) (fun _ _ _ _ _ => trivial) (fun _ _ ho _ _ => ho)
      (fun _ _ _ _ _ _ _ _ _ => trivial) hworks trivial

end

section

variable {codec : PngCodec} {cfg : RuntimeConfig} {dt : DurationText} {fds : ServerFds}
  {files : Bytes → Option Bytes} {c c' : ServerConfig}

theorem ServerReachable.shutdown (h : ServerReachable codec cfg dt fds files c) :
    (shutdownConduct codec).Keeps c := by
  have hinitial : (shutdownConduct codec).Keeps (initialConfig cfg dt fds files) := by
    refine ⟨trivial, fun t p hp => ?_⟩
    cases t with
    | main =>
      cases hp
      exact serverBody_shutdown dt fds .main {} rfl
    | worker i =>
      simp only [initialConfig] at hp
      split at hp
      · cases hp
        exact serverBody_shutdown dt fds (.worker i) {} trivial
      · cases hp
  exact hinitial.reachable (shutdownConduct_sound codec) (fun t m s _ =>
    serverBody_shutdown dt fds t m) h

/-- What a step does to a queue that has been stopped: nothing is put into it any more. -/
theorem ServerReachable.stopped_step (h : ServerReachable codec cfg dt fds files c)
    (hstep : Config.Step (machine codec) (serverBody cfg dt fds) c c')
    (hstopped : c.state.world.stopped = true) :
    c'.state.world.stopped = true ∧ (∀ j ∈ c'.state.world.queue, j ∈ c.state.world.queue) ∧
      ∀ j st, .cancelAck j st ∈ c'.state.history → .cancelAck j st ∈ c.state.history := by
  have hkeeps := h.shutdown
  have hturn : ∀ t j st, .cancelAck j st ∈ Mark.turn t :: c.state.history →
    .cancelAck j st ∈ c.state.history :=
    fun t j st hack => by simpa using hack
  cases hstep with
  | again ht => exact ⟨hstopped, fun _ => id, hturn _⟩
  | halt ht => exact ⟨hstopped, fun _ => id, hturn _⟩
  | @op t o k a s ht hs =>
    have hallowed : ShutdownAllowed t o c.state := hkeeps.allowed (shutdownConduct_sound codec) ht
    have hstays : s.world.stopped = true := by
      rcases step_stopped hs with hsame | ⟨-, hstops⟩
      · exact hsame.trans hstopped
      · exact hstops
    have hnot : ∀ {o' : Op}, o = o' → o'.ofJobs = true → o'.ofWorker = false → False := by
      rintro o' rfl hjobs hworks
      cases t with
      | worker i => exact Bool.false_ne_true (hworks.symm.trans hallowed)
      | main =>
        rcases hallowed with ⟨-, hopen⟩ | rfl | rfl | ⟨i, rfl⟩
        · exact Bool.false_ne_true (hopen.symm.trans hstopped)
        all_goals cases hjobs
    refine ⟨hstays, ?_⟩
    obtain ⟨e, marks, -, hexec, hhistory⟩ := hs
    obtain ⟨w', h'⟩ := s
    change h' = _ at hhistory
    subst hhistory
    change (∀ j ∈ w'.queue, _) ∧ ∀ j st, _ ∈ marks ++ _ → _
    have hold : (∀ j st, .cancelAck j st ∉ marks) → ∀ j st, .cancelAck j st ∈ marks ++
      c.state.history →
        .cancelAck j st ∈ c.state.history := fun hnew j st hack =>
          (List.mem_append.mp hack).resolve_left (hnew j st)
    have heffect := exec_effect hexec
    change Effect t c.state.world o w' marks at heffect
    cases heffect with
    | quiet hcore _ hmarks =>
      exact ⟨fun j => (hcore.queue ▸ id), hold fun j st hack => by cases hmarks _ hack⟩
    | input _ hcore _ hmarks =>
      exact ⟨fun j => (hcore.queue ▸ id), hold fun j st hack => by cases hmarks _ hack⟩
    | file _ hcore _ hmarks =>
      exact ⟨fun j => (hcore.queue ▸ id), hold fun j st hack => by cases hmarks _ hack⟩
    | popped hqueue =>
      refine ⟨fun j hj => ?_, hold fun j st => by simp⟩
      rw [hqueue]
      exact List.mem_cons_of_mem _ hj
    | canceled hlive => exact (hnot rfl rfl rfl).elim
    | pushed => exact (hnot rfl rfl rfl).elim
    | pushFailed => exact (hnot rfl rfl rfl).elim
    | created now hroom => exact (hnot rfl rfl rfl).elim
    | @set j u now =>
      refine ⟨fun _ => id, hold fun j st => ?_⟩
      cases u <;> simp [JobUpdate.marks]
    | event => exact ⟨fun _ => id, hold fun j st => by simp⟩

/-- Once main is gone, the queue has been stopped. -/
theorem ServerReachable.main_gone (h : ServerReachable codec cfg dt fds files c)
    (hmain : c.thread .main = none) :
    c.state.world.stopped = true := by
  induction h with
  | refl => cases hmain
  | @tail c₁ c₂ hpre hlast ih =>
    have hreach : ServerReachable codec cfg dt fds files c₁ := hpre
    have hother : ∀ {u : Tid} {p s}, (c₁.put u p s).thread .main = none → u ≠ .main →
      c₁.thread .main = none := by
      intro u p s hgone hu
      simpa [Config.put, hu.symm] using hgone
    have hstep := hlast
    cases hlast with
    | @op t o k a s ht hs =>
      have ht' : t ≠ .main := by
        rintro rfl
        cases hmain
      exact (hreach.stopped_step hstep (ih (hother hmain ht'))).1
    | @again t l ht =>
      have ht' : t ≠ .main := by
        rintro rfl
        cases hmain
      exact ih (hother hmain ht')
    | @halt t ht =>
      by_cases ht' : t = .main
      · subst ht'
        exact hreach.shutdown.wp _ _ ht
      · exact ih (hother hmain ht')

/-- A worker that is gone holds no job. -/
theorem ServerReachable.gone_idle (h : ServerReachable codec cfg dt fds files c) {i : Nat}
    (hgone : c.thread (.worker i) = none) : holding (.worker i) c.state.history = none := by
  induction h with
  | refl => rfl
  | @tail c₁ c₂ hpre hlast ih =>
    have hkeeps := ServerReachable.keeps hpre
    have hsound := conduct_sound cfg codec
    have hother : ∀ {u : Tid} {p s}, (c₁.put u p s).thread (.worker i) = none → u ≠ .worker i →
        (conduct cfg codec).rely (.worker i) c₁.state s → holding (.worker i) s.history = none := by
      intro u p s hgone hu hrely
      rw [WorkerRely.holding hrely]
      exact ih (by simpa [Config.put, hu.symm] using hgone)
    cases hlast with
    | @op t o k a s ht hs =>
      have hne : t ≠ .worker i := by
        rintro rfl
        simp [Config.put] at hgone
      exact hother hgone hne (hsound.rely_step hkeeps.inv (hkeeps.allowed hsound ht) hs hne.symm)
    | @again t l ht =>
      have hne : t ≠ .worker i := by
        rintro rfl
        simp [Config.put] at hgone
      exact hother hgone hne (hsound.rely_turn hkeeps.inv (hkeeps.wp _ _ ht) hne.symm)
    | @halt t ht =>
      by_cases hne : t = .worker i
      · subst hne
        exact if_pos rfl
      · exact hother hgone hne (hsound.rely_turn hkeeps.inv (hkeeps.wp _ _ ht) (Ne.symm hne))

end

end StegaPng
