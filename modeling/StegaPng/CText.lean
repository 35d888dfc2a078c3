import Mathlib.Data.Nat.Digits.Lemmas
import StegaPng.Image

/-! C strings as byte lists: constants, `%s` copies into fixed buffers and
decimal numbers. -/

namespace StegaPng

/-- A constant text of the source. -/
def lit (s : String) : Bytes := s.toList.map fun c => UInt8.ofNat c.toNat

/-- The C string at the start of a buffer: its bytes up to the first NUL. -/
def cstr (buf : Bytes) : Bytes := buf.takeWhile (· ≠ 0)

/-- `snprintf(dst, n, "%s", s)`. -/
def snprintf (n : Nat) (s : Bytes) : Bytes := s.take (n - 1)

/-- `%llu`, `%zu` and non-negative `%d`. -/
def decimal (n : Nat) : Bytes :=
  if n = 0 then lit "0" else (Nat.digits 10 n).reverse.map fun d => UInt8.ofNat (48 + d)

theorem cstr_append_of_nul_free {s : Bytes} (h : 0 ∉ s) (t : Bytes) : cstr (s ++ t) = s ++ cstr t :=
  List.takeWhile_append_of_pos fun _ hb => decide_eq_true fun he => h (he ▸ hb)

theorem cstr_of_nul_free {s : Bytes} (h : 0 ∉ s) : cstr s = s := by
  simpa [cstr] using cstr_append_of_nul_free h []

theorem cstr_append_zeros {s : Bytes} (h : 0 ∉ s) {n : Nat} (hn : 0 < n) :
    cstr (s ++ List.replicate n 0) = s := by
  obtain ⟨m, rfl⟩ : ∃ m, n = m + 1 := ⟨n - 1, by omega⟩
  rw [cstr_append_of_nul_free h, List.replicate_succ, cstr, List.takeWhile_cons_of_neg (by simp),
    List.append_nil]

theorem cstr_append_nul (a b : Bytes) : cstr (a ++ 0 :: b) = cstr a := by
  induction a with
  | nil => rfl
  | cons c a ih =>
    by_cases hc : c = 0
    · simp [cstr, hc]
    · simpa [cstr, hc] using ih

theorem cstr_nul_free (buf : Bytes) : 0 ∉ cstr buf := by
  intro h
  have hall := List.all_eq_true.mp (List.all_takeWhile (l := buf)
    (p := fun b => decide (b ≠ 0))) 0 h
  simp at hall

theorem cstr_length_le (buf : Bytes) : (cstr buf).length ≤ buf.length :=
  (List.takeWhile_prefix _).length_le

theorem snprintf_eq {n : Nat} {s : Bytes} (h : s.length < n) : snprintf n s = s :=
  List.take_of_length_le (by omega)

theorem snprintf_length_lt {n : Nat} (hn : 0 < n) (s : Bytes) : (snprintf n s).length < n := by
  rw [snprintf, List.length_take]
  omega

theorem snprintf_snprintf (n : Nat) (s : Bytes) : snprintf n (snprintf n s) = snprintf n s := by
  rw [snprintf, snprintf, List.take_take, Nat.min_self]

/-- A cut behind the part that can hold `x` does not matter. -/
theorem mem_snprintf_append {n : Nat} {a b : Bytes} {x : UInt8} (ha : a.length < n) (hb : x ∉ b) :
    x ∈ snprintf n (a ++ b) ↔ x ∈ a := by
  rw [snprintf, List.take_append, List.take_of_length_le (by omega), List.mem_append]
  exact ⟨fun h => h.resolve_right fun hmem => hb (List.mem_of_mem_take hmem), .inl⟩

theorem digits_map_injective {a b : List Nat} (ha : ∀ d ∈ a, d < 10) (hb : ∀ d ∈ b, d < 10)
    (h : a.map (fun d => UInt8.ofNat (48 + d)) = b.map (fun d => UInt8.ofNat (48 + d))) :
    a = b := by
  induction a generalizing b with
  | nil => exact (List.map_eq_nil_iff.mp h.symm).symm
  | cons d a ih =>
    cases b with
    | nil => simp at h
    | cons e b =>
      rw [List.map_cons, List.map_cons, List.cons.injEq] at h
      have hd := ha d (by simp)
      have he := hb e (by simp)
      have hn := congrArg UInt8.toNat h.1
      rw [UInt8.toNat_ofNat', UInt8.toNat_ofNat'] at hn
      rw [show d = e by omega, ih (fun x hx => ha x (by simp [hx]))
        (fun x hx => hb x (by simp [hx])) h.2]

theorem decimal_injective {m n : Nat} (h : decimal m = decimal n) : m = n := by
  have hkey : ∀ k, decimal k = (if k = 0 then [0] else (Nat.digits 10 k).reverse).map
      fun d => UInt8.ofNat (48 + d) := by
    intro k
    by_cases hk : k = 0
    · subst hk
      decide
    · simp [decimal, hk]
  have hlt : ∀ k, ∀ d ∈ (if k = 0 then [0] else (Nat.digits 10 k).reverse), d < 10 := by
    intro k d hd
    by_cases hk : k = 0
    · simp only [hk, if_true, List.mem_singleton] at hd
      omega
    · simp only [hk, if_false, List.mem_reverse] at hd
      exact Nat.digits_lt_base (by decide) hd
  have hval : ∀ k, Nat.ofDigits 10 (if k = 0 then [0] else (Nat.digits 10 k).reverse).reverse =
    k := by
    intro k
    by_cases hk : k = 0
    · simp [hk]
    · simp [hk, Nat.ofDigits_digits]
  rw [hkey m, hkey n] at h
  rw [← hval m, ← hval n, digits_map_injective (hlt m) (hlt n) h]

theorem decimal_ne_nil (n : Nat) : decimal n ≠ [] := by
  by_cases hn : n = 0
  · subst hn
    decide
  · simp [decimal, hn, Nat.digits_ne_nil_iff_ne_zero]

theorem decimal_digit {n : Nat} {b : UInt8} (h : b ∈ decimal n) : 48 ≤ b.toNat ∧ b.toNat ≤ 57 := by
  by_cases hn : n = 0
  · subst hn
    have hb : b = 48 := by simpa [decimal, lit] using h
    subst hb
    decide
  · simp only [decimal, hn, if_false, List.mem_map, List.mem_reverse] at h
    obtain ⟨d, hd, rfl⟩ := h
    have := Nat.digits_lt_base (by decide : 1 < 10) hd
    rw [UInt8.toNat_ofNat']
    omega

theorem decimal_length_le {n k : Nat} (hk : 0 < k) (h : n < 10 ^ k) : (decimal n).length ≤ k := by
  by_cases hn : n = 0
  · subst hn
    exact hk
  · rw [decimal, if_neg hn, List.length_map, List.length_reverse]
    exact (Nat.digits_length_le_iff (by decide) n).mpr h

theorem decimal_small {n : Nat} (hn : n < 2 ^ 64) : (decimal n).length ≤ 20 :=
  decimal_length_le (by decide) (by omega)

end StegaPng
