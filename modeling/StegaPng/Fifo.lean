import Mathlib.Data.List.Basic

/-! Queues that are filled and emptied by any number of clients until somebody stops
them. A history lists what happened, newest first. -/

namespace Fifo

variable {T α : Type}

structure State (α : Type) where
  items : List α := []
  stopped : Bool := false

inductive Event (T α : Type) where
  | pushed (t : T) (a : α)
  | refused (t : T)
  | took (t : T) (a : α)
  | none (t : T)
  | stopped (t : T)

inductive Step : State α → Event T α → State α → Prop where
  | push (items : List α) (t : T) (a : α) : Step ⟨items, false⟩ (.pushed t a) ⟨items ++ [a], false⟩
  | refuse (items : List α) (t : T) : Step ⟨items, true⟩ (.refused t) ⟨items, true⟩
  | take (a : α) (items : List α) (t : T) : Step ⟨a :: items, false⟩ (.took t a) ⟨items, false⟩
  | none (items : List α) (t : T) : Step ⟨items, true⟩ (.none t) ⟨items, true⟩
  | stop (s : State α) (t : T) : Step s (.stopped t) ⟨s.items, true⟩

/-- The history that leads from the empty queue to a state. -/
inductive Run : List (Event T α) → State α → Prop where
  | empty : Run [] {}
  | step {h : List (Event T α)} {s s' : State α} {e : Event T α} (run : Run h s)
      (step : Step s e s') : Run (e :: h) s'

def Event.pushedItem : Event T α → Option α
  | .pushed _ a => some a
  | _ => Option.none

def Event.takenItem : Event T α → Option α
  | .took _ a => some a
  | _ => Option.none

/-- The items that went in, and that came out, oldest first. -/
def pushedItems (h : List (Event T α)) : List α := h.reverse.filterMap Event.pushedItem

def takenItems (h : List (Event T α)) : List α := h.reverse.filterMap Event.takenItem

theorem pushedItems_cons (e : Event T α) (h : List (Event T α)) :
    pushedItems (e :: h) = pushedItems h ++ e.pushedItem.toList := by
  rw [pushedItems, List.reverse_cons, List.filterMap_append]
  cases he : e.pushedItem <;> simp [pushedItems, he]

theorem takenItems_cons (e : Event T α) (h : List (Event T α)) :
    takenItems (e :: h) = takenItems h ++ e.takenItem.toList := by
  rw [takenItems, List.reverse_cons, List.filterMap_append]
  cases he : e.takenItem <;> simp [takenItems, he]

theorem Run.conserved {h : List (Event T α)} {s : State α} (run : Run h s) :
    pushedItems h = takenItems h ++ s.items := by
  induction run with
  | empty => rfl
  | step run step ih =>
    rw [pushedItems_cons, takenItems_cons, ih]
    cases step <;> simp [Event.pushedItem, Event.takenItem]

theorem Run.stopped_iff {h : List (Event T α)} {s : State α} (run : Run h s) :
    s.stopped = true ↔ ∃ t, .stopped t ∈ h := by
  induction run with
  | empty => simp
  | step run step ih =>
    cases step with
    | stop s t => simp
    | push => simpa using ih
    | refuse => simpa using ih
    | take => simpa using ih
    | none => simpa using ih

/-- Who finds nothing comes after a stop. -/
theorem Run.none_after_stop {h newer older : List (Event T α)} {s : State α} {t : T} (run : Run h s)
    (hsplit : h = newer ++ .none t :: older) : ∃ u, .stopped u ∈ older := by
  induction run generalizing newer with
  | empty => simp at hsplit
  | step run step ih =>
    cases newer with
    | nil =>
      obtain ⟨rfl, rfl⟩ := List.cons.inj hsplit
      cases step with
      | none items t => exact run.stopped_iff.mp rfl
    | cons e newer => exact ih (List.cons.inj hsplit).2

theorem Run.idle_after_stop {h newer older : List (Event T α)} {s : State α} {t : T} (run : Run h s)
    (hsplit : h = newer ++ .stopped t :: older) : ∀ e ∈ newer, e.pushedItem = Option.none ∧
      e.takenItem = Option.none := by
  induction run generalizing newer with
  | empty => simp at hsplit
  | step run step ih =>
    cases newer with
    | nil => exact fun e he => absurd he List.not_mem_nil
    | cons e newer =>
      obtain ⟨rfl, rfl⟩ := List.cons.inj hsplit
      have hstopped := run.stopped_iff.mpr ⟨t, List.mem_append_right _ List.mem_cons_self⟩
      intro e' he'
      rcases List.mem_cons.mp he' with rfl | he'
      · cases step with
        | push => cases hstopped
        | take => cases hstopped
        | refuse => exact ⟨rfl, rfl⟩
        | none => exact ⟨rfl, rfl⟩
        | stop => exact ⟨rfl, rfl⟩
      · exact ih rfl e' he'

theorem Step.kept {s s' : State α} {e : Event T α} (step : Step s e s') (h : s.stopped = true) :
    s' = s := by
  cases step with
  | push => cases h
  | take => cases h
  | refuse => rfl
  | none => rfl
  | stop => cases s; cases h; rfl

end Fifo
