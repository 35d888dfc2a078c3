import Mathlib.Data.List.Basic

/-! Computations that log what they touch on the way to their result. -/

namespace AccessLog

/-- A result and the events that led to it, oldest first. -/
def Logged (ε α : Type) := α × List ε

variable {ε α β : Type}

def Logged.result (m : Logged ε α) : α := m.1

def Logged.events (m : Logged ε α) : List ε := m.2

instance : Monad (Logged ε) where
  pure a := (a, [])
  bind m f := ((f m.1).1, m.2 ++ (f m.1).2)

def note (e : ε) : Logged ε Unit := ((), [e])

/-- The computation returns `a`, and every event on the way satisfies `P`. -/
structure Logs (P : ε → Prop) (m : Logged ε α) (a : α) : Prop where
  result : m.result = a
  events : ∀ e ∈ m.events, P e

variable {P : ε → Prop} {m : Logged ε α} {f : α → Logged ε β} {a : α} {b : β}

theorem Logs.pure (a : α) : Logs P (Pure.pure a : Logged ε α) a :=
  ⟨rfl, fun _ he => absurd he List.not_mem_nil⟩

theorem Logs.note {e : ε} (he : P e) : Logs P (AccessLog.note e) () :=
  ⟨rfl, List.forall_mem_singleton.mpr he⟩

theorem Logs.bind (hm : Logs P m a) (hf : Logs P (f a) b) : Logs P (m >>= f) b := by
  obtain ⟨rfl, hm⟩ := hm
  exact ⟨hf.result, List.forall_mem_append.mpr ⟨hm, hf.events⟩⟩

theorem Logs.cons {e : ε} {f : Unit → Logged ε β} (he : P e) (hf : Logs P (f ()) b) :
    Logs P (AccessLog.note e >>= f) b :=
  (Logs.note he).bind hf

theorem Logs.ite {c : Prop} [Decidable c] {m' : Logged ε α} {a' : α} (hm : c → Logs P m a)
    (hm' : ¬ c → Logs P m' a') :
    Logs P (if c then m else m') (if c then a else a') := by
  by_cases hc : c
  · rw [if_pos hc, if_pos hc]
    exact hm hc
  · rw [if_neg hc, if_neg hc]
    exact hm' hc

theorem Logs.exit {c : Prop} [Decidable c] {a' : α} (hm : ¬ c → Logs P m a) :
    Logs P (if c then Pure.pure a' else m) (if c then a' else a) :=
  .ite (fun _ => .pure a') hm

end AccessLog
