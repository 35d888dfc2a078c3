import StegaPng.Server

/-! What the history of a run says: who holds which job, what has been asked for and
what has been reported. -/

namespace StegaPng

def Mark.isFault : Mark → Bool
  | .fault .. => true
  | _ => false

/-- The job that a thread has popped in its current turn. -/
def holding (t : Tid) : List Mark → Option Nat
  | [] => none
  | .popped u job :: h => if u = t then some job else holding t h
  | .turn u :: h => if u = t then none else holding t h
  | _ :: h => holding t h

/-- The job that the main thread has created but neither queued nor given up. -/
def making : List Mark → Option Nat
  | [] => none
  | .created job :: _ => some job
  | .pushed _ :: _ => none
  | .state .main _ _ :: _ => none
  | _ :: h => making h

/-- The threads that have popped a job. -/
def pops (job : Nat) : List Mark → List Tid
  | [] => []
  | .popped t j :: h => if j = job then t :: pops job h else pops job h
  | _ :: h => pops job h

/-- The states that worker events have reported for a job id. -/
def eventsOf (job_id : Nat) : List Mark → List JobState
  | [] => []
  | .event _ id s :: h => if id = job_id then s :: eventsOf job_id h else eventsOf job_id h
  | _ :: h => eventsOf job_id h

/-- Since the thread's job last changed its state, the thread's latest look at the
cancel flag has found it down. -/
def sawClear (t : Tid) : List Mark → Bool
  | [] => false
  | .flag u _ requested :: h => if u = t then !requested else sawClear t h
  | .popped u _ :: h => if u = t then false else sawClear t h
  | .state u _ _ :: h => if u = t then false else sawClear t h
  | .turn u :: h => if u = t then false else sawClear t h
  | _ :: h => sawClear t h

/-- Since the thread's job last changed its state, the thread has failed to open a file. -/
def sawUnreadable (t : Tid) : List Mark → Bool
  | [] => false
  | .fault u .fopenRb _ :: h => if u = t then true else sawUnreadable t h
  | .popped u _ :: h => if u = t then false else sawUnreadable t h
  | .state u _ _ :: h => if u = t then false else sawUnreadable t h
  | .turn u :: h => if u = t then false else sawUnreadable t h
  | _ :: h => sawUnreadable t h

/-- The latest request line and the bytes that were read after it. -/
def requestSoFar : List Mark → Bytes × Bytes
  | [] => ([], [])
  | .line _ bytes :: _ => (bytes, [])
  | .body bytes :: h => ((requestSoFar h).1, (requestSoFar h).2 ++ bytes)
  | _ :: h => requestSoFar h

/-- The request that a job was created for. -/
def origin (job : Nat) : List Mark → Bytes × Bytes
  | [] => ([], [])
  | .created j :: h => if j = job then requestSoFar h else origin job h
  | _ :: h => origin job h

/-- The states that a job has been set to, the newest first. -/
def statesOf (job : Nat) : List Mark → List JobState
  | [] => []
  | .state _ j s :: h => if j = job then s :: statesOf job h else statesOf job h
  | _ :: h => statesOf job h

/-- No file or image call has failed. -/
def FaultFree (h : List Mark) : Prop := ∀ t call path, Mark.fault t call path ∉ h

theorem FaultFree.of_suffix {h h' : List Mark} (hfree : FaultFree h') (hsuffix : h <:+ h') :
    FaultFree h :=
  fun t call path hmem => hfree t call path (hsuffix.subset hmem)

/-- The two histories agree on where the jobs are. -/
structure SameBooks (h h' : List Mark) : Prop where
  holding : ∀ t, holding t h' = holding t h
  making : making h' = making h
  pops : ∀ job, pops job h' = pops job h
  events : ∀ id, eventsOf id h' = eventsOf id h
  origin : ∀ job, origin job h' = origin job h

/-- Marks of a thread that move no job. -/
inductive Mark.Quiet (t : Tid) : Mark → Prop
  | flag (job : Nat) (requested : Bool) : Quiet t (.flag t job requested)
  | reply (fd : Int) (bytes : Bytes) : Quiet t (.reply fd bytes)
  | fault (call : FileCall) (path : Bytes) : Quiet t (.fault t call path)
  | opened (fd : Int) : Quiet t (.opened fd)
  | closed (fd : Int) : Quiet t (.closed fd)

/-- Marks of what was read from a client. -/
inductive Mark.Input : Mark → Prop
  | line (fd : Int) (bytes : Bytes) : Input (.line fd bytes)
  | body (bytes : Bytes) : Input (.body bytes)

theorem SameBooks.refl (h : List Mark) : SameBooks h h :=
  ⟨fun _ => rfl, rfl, fun _ => rfl, fun _ => rfl, fun _ => rfl⟩

section

variable {t u : Tid} {m : Mark} {h marks : List Mark}

theorem SameBooks.quiet (hm : m.Quiet t) (h : List Mark) : SameBooks h (m :: h) := by
  cases hm <;> exact ⟨fun _ => rfl, rfl, fun _ => rfl, fun _ => rfl, fun _ => rfl⟩

theorem SameBooks.input (hm : m.Input) (h : List Mark) : SameBooks h (m :: h) := by
  cases hm <;> exact ⟨fun _ => rfl, rfl, fun _ => rfl, fun _ => rfl, fun _ => rfl⟩

theorem SameBooks.trans {h₁ h₂ h₃ : List Mark} (h₁₂ : SameBooks h₁ h₂) (h₂₃ : SameBooks h₂ h₃) :
    SameBooks h₁ h₃ where
  holding t := (h₂₃.holding t).trans (h₁₂.holding t)
  making := h₂₃.making.trans h₁₂.making
  pops job := (h₂₃.pops job).trans (h₁₂.pops job)
  events id := (h₂₃.events id).trans (h₁₂.events id)
  origin job := (h₂₃.origin job).trans (h₁₂.origin job)

theorem SameBooks.append (hmarks : ∀ m ∈ marks, ∀ h, SameBooks h (m :: h)) (h : List Mark) :
    SameBooks h (marks ++ h) := by
  induction marks with
  | nil => exact .refl h
  | cons m marks ih =>
    have hrest := ih fun m' hm' => hmarks m' (List.mem_cons_of_mem _ hm')
    exact hrest.trans (hmarks m (List.mem_cons_self ..) _)

/-- A mark that another thread leaves without touching what `u` has seen. -/
theorem Mark.Quiet.sawClear (hm : m.Quiet t) (htu : u ≠ t) :
    StegaPng.sawClear u (m :: h) = StegaPng.sawClear u h := by
  cases hm with
  | flag job requested => simp [StegaPng.sawClear, htu.symm]
  | _ => rfl

theorem Mark.Quiet.sawUnreadable (hm : m.Quiet t) (htu : u ≠ t) :
    StegaPng.sawUnreadable u (m :: h) = StegaPng.sawUnreadable u h := by
  cases hm with
  | fault call path => cases call <;> simp [StegaPng.sawUnreadable, htu.symm]
  | _ => rfl

/-- A function of the history that ignores each new mark ignores them all. -/
theorem ignores_append {α : Type} {f : List Mark → α} (hf : ∀ m ∈ marks, ∀ h, f (m :: h) = f h)
    (h : List Mark) :
    f (marks ++ h) = f h := by
  induction marks with
  | nil => rfl
  | cons m marks ih =>
    have hrest := ih fun m' hm' => hf m' (List.mem_cons_of_mem _ hm')
    exact (hf m (List.mem_cons_self ..) _).trans hrest

end

end StegaPng
