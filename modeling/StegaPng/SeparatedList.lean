import Mathlib.Data.List.Basic

/-! Lists of items written with a separator between them, and the longest start of such a
list that fits a size. -/

namespace SeparatedList

variable {α : Type} {sep : α} {size : Nat} {item : List α}
  {shown items entries more : List (List α)}

def separated (sep : α) (items : List (List α)) : List α := [sep].intercalate items

@[simp] theorem separated_nil : separated sep [] = [] := rfl

@[simp] theorem separated_singleton : separated sep [item] = item := List.intercalate_singleton

theorem separated_append (hshown : shown ≠ []) (hitems : items ≠ []) :
    separated sep (shown ++ items) = separated sep shown ++ sep :: separated sep items := by
  induction shown with
  | nil => exact absurd rfl hshown
  | cons first rest ih =>
    cases rest with
    | nil => simp [separated, List.intercalate_cons_of_ne_nil hitems]
    | cons second rest =>
      have hrest := ih (List.cons_ne_nil _ _)
      simp only [separated, List.cons_append, List.intercalate_cons_cons] at hrest ⊢
      rw [hrest]
      simp

theorem separated_ne_nil (hitems : ∀ item ∈ items, item ≠ []) (h : items ≠ []) :
    separated sep items ≠ [] := by
  cases items with
  | nil => exact absurd rfl h
  | cons first rest =>
    have hfirst := hitems first List.mem_cons_self
    cases rest with
    | nil => simpa [separated] using hfirst
    | cons second rest => simp [separated, hfirst]

theorem separated_grows (hitems : ∀ item ∈ items, item ≠ []) (h : items ≠ []) :
    (separated sep shown).length < (separated sep (shown ++ items)).length := by
  by_cases hshown : shown = []
  · subst hshown
    exact List.length_pos_iff.mpr (separated_ne_nil hitems h)
  · rw [separated_append hshown h, List.length_append, List.length_cons]
    omega

theorem separated_length_le (h : shown <+: more) :
    (separated sep shown).length ≤ (separated sep more).length := by
  obtain ⟨items, rfl⟩ := h
  by_cases hitems : items = []
  · simp [hitems]
  · by_cases hshown : shown = []
    · rw [hshown, separated_nil]
      exact Nat.zero_le _
    · rw [separated_append hshown hitems, List.length_append]
      exact Nat.le_add_right _ _

/-- The items have room, and one place behind them is left. -/
def Fits (sep : α) (size : Nat) (shown : List (List α)) : Prop :=
  (separated sep shown).length + 1 < size

/-- The longest non-empty start of the entries that fits, or none of them. -/
structure LongestFit (sep : α) (size : Nat) (entries shown : List (List α)) : Prop where
  start : shown <+: entries
  fits : shown ≠ [] → Fits sep size shown
  longest : ∀ more, more <+: entries → more ≠ [] → Fits sep size more → more.length ≤ shown.length

theorem LongestFit.all (hfits : shown ≠ [] → Fits sep size shown) :
    LongestFit sep size shown shown :=
  ⟨List.prefix_refl _, hfits, fun _ hmore _ _ => hmore.length_le⟩

theorem LongestFit.stop (hfits : shown ≠ [] → Fits sep size shown)
    (hfull : ¬ Fits sep size (shown ++ [item])) :
    LongestFit sep size (shown ++ item :: items) shown := by
  refine ⟨List.prefix_append _ _, hfits, fun more hmore _ hroom => ?_⟩
  by_contra hlonger
  have hnext : shown ++ [item] <+: shown ++ item :: items := ⟨items, by simp⟩
  have hwithin : shown ++ [item] <+: more := by
    refine List.prefix_of_prefix_length_le hnext hmore ?_
    rw [List.length_append, List.length_singleton]
    omega
  have hle : (separated sep (shown ++ [item])).length ≤ _ := separated_length_le hwithin
  exact hfull (by unfold Fits at hroom ⊢; omega)

end SeparatedList
