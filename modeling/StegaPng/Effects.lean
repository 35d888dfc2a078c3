import StegaPng.History

/-! What one operation can do to jobs, queue, files and history. -/

namespace StegaPng

/-- The file that an operation may change. -/
def Op.writes : Op → Option Bytes
  | .fopenWb path | .fwrite path _ | .fclose path | .unlink path | .pngWrite path _ => some path
  | _ => none

/-- Operations that read from a client. -/
def Op.inputs : Op → Bool
  | .readLine _ | .readExact .. | .read .. => true
  | _ => false

structure SameCore (w w' : World) : Prop where
  jobs : w'.jobs = w.jobs
  next_id : w'.next_id = w.next_id
  queue : w'.queue = w.queue

def JobUpdate.marks (t : Tid) (job : Nat) : JobUpdate → List Mark
  | .state s => [.state t job s]
  | _ => []

/-- The kinds of step: each says all that the step changes of jobs, queue and files. -/
inductive Effect (t : Tid) (w : World) : Op → World → List Mark → Prop
  | quiet {o : Op} {w' : World} {marks : List Mark} (hcore : SameCore w w')
      (hfiles : w'.files = w.files)
      (hmarks : ∀ m ∈ marks, m.Quiet t) : Effect t w o w' marks
  | input {o : Op} {w' : World} {marks : List Mark} (ho : o.inputs = true) (hcore : SameCore w w')
      (hfiles : w'.files = w.files) (hmarks : ∀ m ∈ marks, m.Input) : Effect t w o w' marks
  | file {o : Op} {w' : World} {marks : List Mark} {path : Bytes} (ho : o.writes = some path)
      (hcore : SameCore w w') (hfiles : ∀ p, p ≠ path → w'.files p = w.files p)
      (hmarks : ∀ m ∈ marks, m.Quiet t) : Effect t w o w' marks
  | created {owner_fd : Int} {owner_ip : Bytes} {type : JobType}
      {payload input_path : Option Bytes} (now : Nat)
      (hroom : w.jobs.length < maxJobs) :
      Effect t w (.createJob owner_fd owner_ip type payload input_path)
        { w with
          jobs := w.jobs ++ [newJob w.next_id owner_fd owner_ip type payload input_path now]
          next_id := w.next_id + 1 } [.created w.jobs.length]
  | set {job : Nat} {u : JobUpdate} (now : Nat) :
      Effect t w (.setJob job u) (w.updateJob job (u.apply now)) (u.marks t job)
  | canceled {job : Nat} (hlive : (w.job job).state = .queued ∨ (w.job job).state = .running) :
      Effect t w (.requestCancel job) (w.updateJob job fun j => { j with cancel_requested := true })
        [.cancelAck job (w.job job).state]
  | pushed {job : Nat} : Effect t w (.push job) { w with queue := w.queue ++ [job] } [.pushed job]
  | pushFailed {job : Nat} : Effect t w (.push job) w [.pushFailed job]
  | popped {job : Nat} {queue : List Nat} (hqueue : w.queue = job :: queue) :
      Effect t w .pop { w with queue := queue } [.popped t job]
  | event {job_id : Nat} {s : JobState} : Effect t w (.writeEvent job_id s) w [.event t job_id s]

theorem quiet_nil (t : Tid) : ∀ m ∈ ([] : List Mark), m.Quiet t :=
  fun _ hm => absurd hm List.not_mem_nil

theorem quiet_single {t : Tid} {m : Mark} (hm : m.Quiet t) : ∀ m' ∈ [m], m'.Quiet t := by
  intro m' hm'
  rw [List.mem_singleton.mp hm']
  exact hm

theorem quiet_fault (ok : Bool) (t : Tid) (call : FileCall) (path : Bytes) :
    ∀ m ∈ faultUnless ok t call path, m.Quiet t := by
  cases ok with
  | true => exact quiet_nil t
  | false => exact quiet_single (.fault call path)

theorem SameCore.refl (w : World) : SameCore w w := ⟨rfl, rfl, rfl⟩

theorem modify_eq_self {α : Type} {l : List α} {i : Nat} {f : α → α}
    (h : ∀ a, l[i]? = some a → f a = a) :
    l.modify i f = l := by
  apply List.ext_getElem?
  intro k
  rw [List.getElem?_modify]
  by_cases hk : i = k
  · subst hk
    cases ha : l[i]? with
    | none => rfl
    | some a => simp [h a ha]
  · simp [hk]

theorem job_eq_of_getElem? {w : World} {job : Nat} {j : Job} (h : w.jobs[job]? = some j) :
    w.job job = j := by
  simp [World.job, List.getD_eq_getElem?_getD, h]

theorem exec_effect {codec : PngCodec} {e : Env} {t : Tid} {w w' : World} {o : Op} {a : Ans o}
    {marks : List Mark} (h : exec codec e t w o = some (a, w', marks)) : Effect t w o w' marks := by
  have hquiet : ∀ {o : Op} {w' : World} {marks : List Mark}, SameCore w w' → w'.files = w.files →
      (∀ m ∈ marks, m.Quiet t) → Effect t w o w' marks :=
        fun hcore hfiles hmarks => .quiet hcore hfiles hmarks
  cases o with
  | createJob owner_fd owner_ip type payload input_path =>
    simp only [exec] at h
    split at h
    · cases h
      exact hquiet (.refl w) rfl (quiet_nil t)
    · split at h
      · cases h
        exact hquiet (.refl w) rfl (quiet_nil t)
      · next hroom =>
        cases h
        exact .created e.now (Nat.lt_of_not_le hroom)
  | setJob job u =>
    simp only [exec] at h
    cases h
    cases u <;> exact .set e.now
  | requestCancel job =>
    simp only [exec, Job.requestCancel] at h
    by_cases hlive : (w.job job).state = .queued ∨ (w.job job).state = .running
    · simp only [hlive, if_true] at h
      cases h
      have hsame : (w.updateJob job fun j => (if j.state = .queued ∨ j.state = .running then
          ({ j with cancel_requested := true }, true) else (j, false)).1) =
          w.updateJob job fun j => { j with cancel_requested := true } := by
        simp only [World.updateJob]
        congr 1
        apply List.ext_getElem?
        intro k
        simp only [List.getElem?_modify]
        by_cases hk : job = k
        · subst hk
          cases hj : w.jobs[job]? with
          | none => rfl
          | some j =>
            rw [job_eq_of_getElem? hj] at hlive
            simp [hlive]
        · simp [hk]
      rw [hsame]
      exact .canceled hlive
    · simp only [hlive, if_false, Bool.false_eq_true] at h
      cases h
      refine hquiet ⟨?_, rfl, rfl⟩ rfl (quiet_nil t)
      refine modify_eq_self fun j hj => ?_
      rw [job_eq_of_getElem? hj] at hlive
      simp [hlive]
  | push job =>
    simp only [exec] at h
    split at h
    · cases h
      exact .pushFailed
    · split at h
      · cases h
        exact .pushFailed
      · cases h
        exact .pushed
  | pop =>
    simp only [exec] at h
    split at h
    · cases h
      exact hquiet (.refl w) rfl (quiet_nil t)
    · split at h
      · cases h
      · next job queue hqueue =>
        cases h
        exact .popped hqueue
  | writeEvent job_id s =>
    cases h
    exact .event
  | getJob job f =>
    simp only [exec] at h
    cases h
    refine hquiet (.refl w) rfl ?_
    split
    · exact quiet_single (.flag _ _)
    · exact quiet_nil t
  | join worker =>
    simp only [exec] at h
    split at h
    · cases h
      exact hquiet (.refl w) rfl (quiet_nil t)
    · cases h
  | accept listen_fd =>
    simp only [exec] at h
    split at h <;> cases h
    · exact hquiet (.refl w) rfl (quiet_nil t)
    · exact hquiet ⟨rfl, rfl, rfl⟩ rfl (quiet_single (.opened _))
  | close fd =>
    cases h
    exact hquiet (.refl w) rfl (quiet_single (.closed fd))
  | pngLoad path =>
    simp only [exec] at h
    split at h <;> cases h
    · exact hquiet (.refl w) rfl (quiet_single (.fault _ _))
    · exact hquiet (.refl w) rfl (quiet_nil t)
  | readLine fd =>
    simp only [exec] at h
    cases h
    refine .input rfl ⟨rfl, rfl, rfl⟩ rfl ?_
    split
    · exact List.forall_mem_singleton.mpr (.line _ _)
    · exact List.forall_mem_nil _
  | readExact fd size =>
    simp only [exec] at h
    cases h
    refine .input rfl ⟨rfl, rfl, rfl⟩ rfl ?_
    split
    · exact List.forall_mem_singleton.mpr (.body _)
    · exact List.forall_mem_nil _
  | read fd want =>
    simp only [exec] at h
    cases h
    refine .input rfl ⟨rfl, rfl, rfl⟩ rfl ?_
    split
    · exact List.forall_mem_singleton.mpr (.body _)
    · exact List.forall_mem_nil _
  | writeAll fd bytes =>
    cases h
    exact hquiet (.refl w) rfl (quiet_single (.reply _ _))
  | fopenWb path =>
    simp only [exec] at h
    cases h
    refine .file rfl ?_ ?_ (quiet_fault _ _ _ _)
    · split <;> exact ⟨rfl, rfl, rfl⟩
    · intro p hp
      split
      · simp [World.writeFile, hp]
      · rfl
  | fwrite path bytes =>
    simp only [exec] at h
    cases h
    exact .file rfl ⟨rfl, rfl, rfl⟩ (fun p hp => by simp [World.writeFile, hp])
      (quiet_fault _ _ _ _)
  | fclose path =>
    simp only [exec] at h
    cases h
    refine .file rfl ?_ ?_ (quiet_fault _ _ _ _)
    · split <;> exact ⟨rfl, rfl, rfl⟩
    · intro p hp
      split
      · rfl
      · simp [World.writeFile, hp]
  | unlink path =>
    cases h
    exact .file rfl ⟨rfl, rfl, rfl⟩ (fun p hp => by simp [World.writeFile, hp]) (quiet_nil t)
  | pngWrite path img =>
    simp only [exec] at h
    cases h
    exact .file rfl ⟨rfl, rfl, rfl⟩ (fun p hp => by simp [World.writeFile, hp])
      (quiet_fault _ _ _ _)
  | fopenRb path => cases h; exact hquiet (.refl w) rfl (quiet_fault _ _ _ _)
  | fsize path => cases h; exact hquiet (.refl w) rfl (quiet_fault _ _ _ _)
  | fread path size => cases h; exact hquiet (.refl w) rfl (quiet_fault _ _ _ _)
  | freadAll path => cases h; exact hquiet (.refl w) rfl (quiet_fault _ _ _ _)
  | stat path => cases h; exact hquiet (.refl w) rfl (quiet_fault _ _ _ _)
  | pngMetadata path => cases h; exact hquiet (.refl w) rfl (quiet_fault _ _ _ _)
  | _ => cases h; exact hquiet ⟨rfl, rfl, rfl⟩ rfl (quiet_nil t)

end StegaPng
