import Mathlib.Data.List.Basic
import Mathlib.Data.Nat.Bitwise

/-! Bit strings stored in bytes, least significant bit first, and carriers that
hold one payload bit each in their low bit. -/

namespace BitPacking

/-- Bit `k` of a byte string; beyond its end every bit is `false`. -/
def bitAt (data : List UInt8) (k : Nat) : Bool :=
  (data.getD (k / 8) 0).toNat.testBit (k % 8)

def lowBit (c : UInt8) : Bool := c.toNat.testBit 0

/-- Bit `k` of a byte string as the byte `0` or `1`. -/
def bitByte (data : List UInt8) (k : Nat) : UInt8 :=
  (data.getD (k / 8) 0 >>> UInt8.ofNat (k % 8)) &&& 1

/-- Replace the low bit of a carrier. -/
def setLow (c bit : UInt8) : UInt8 := (c &&& 0xFE) ||| bit

/-- Or a bit (the byte `0` or `1`) into position `k` of a byte string. -/
def orBit (data : List UInt8) (k : Nat) (bit : UInt8) : List UInt8 :=
  data.modify (k / 8) (fun b => b ||| (bit <<< UInt8.ofNat (k % 8)))

/-- The `n` bytes whose bits are `bs`, zero bits filling the end. -/
def pack (n : Nat) (bs : List Bool) : List UInt8 :=
  (List.range n).map fun i => UInt8.ofNat (Nat.ofBits fun j : Fin 8 => bs.getD (8 * i + j) false)

theorem testBit_toNat (b : Bool) (i : Nat) : b.toNat.testBit i = (b && decide (i = 0)) := by
  cases b
  · simp
  · by_cases h : i = 0
    · simp [h]
    · have hne : Nat.testBit 1 i ≠ true := fun ht =>
        h (Nat.testBit_one_eq_true_iff_self_eq_zero.mp ht)
      simp [h, hne]

theorem ofNat_toNat_of_lt {k : Nat} (h : k < 8) : (UInt8.ofNat k).toNat = k := by
  simp only [UInt8.toNat_ofNat']
  omega

theorem bitByte_toNat (data : List UInt8) (k : Nat) :
    (bitByte data k).toNat = (bitAt data k).toNat := by
  have hk : k % 8 < 8 := Nat.mod_lt _ (by decide)
  simp only [bitByte, bitAt, UInt8.toNat_and, UInt8.toNat_shiftRight, ofNat_toNat_of_lt hk,
    Nat.mod_eq_of_lt hk, UInt8.toNat_one, Nat.and_one_is_mod, Nat.toNat_testBit,
    Nat.shiftRight_eq_div_pow]

theorem bitByte_eq (data : List UInt8) (k : Nat) :
    bitByte data k = if bitAt data k then 1 else 0 := by
  apply UInt8.toNat_inj.mp
  rw [bitByte_toNat]
  cases bitAt data k <;> rfl

theorem and_one_eq (c : UInt8) : c &&& 1 = if lowBit c then 1 else 0 := by
  apply UInt8.toNat_inj.mp
  rw [UInt8.toNat_and, UInt8.toNat_one, Nat.and_one_is_mod, lowBit, Nat.testBit_zero]
  rcases Nat.mod_two_eq_zero_or_one c.toNat with h | h <;> simp [h]

theorem testBit_setLow (c : UInt8) (b : Bool) (i : Nat) :
    (setLow c (if b then 1 else 0)).toNat.testBit i = if i = 0 then b else c.toNat.testBit i := by
  have hc : i < 8 ∨ c.toNat.testBit i = false := by
    by_cases hi : i < 8
    · exact .inl hi
    · refine .inr (Nat.testBit_lt_two_pow ?_)
      exact lt_of_lt_of_le c.toNat_lt (Nat.pow_le_pow_right (by decide) (by omega))
  have hm : ∀ i < 8, (0xFE : Nat).testBit i = !decide (i = 0) := by decide
  have hb : (if b then (1 : UInt8) else 0).toNat.testBit i = (b && decide (i = 0)) := by
    rw [← testBit_toNat]
    cases b <;> rfl
  simp only [setLow, UInt8.toNat_or, Nat.testBit_or, hb, UInt8.toNat_and, Nat.testBit_and]
  rw [show (0xFE : UInt8).toNat = 0xFE from rfl]
  rcases hc with hi | hi
  · rw [hm i hi]
    by_cases h0 : i = 0 <;> simp [h0]
  · by_cases h0 : i = 0
    · subst h0
      simp [hi]
    · simp [hi, h0]

theorem lowBit_setLow (c : UInt8) (b : Bool) : lowBit (setLow c (if b then 1 else 0)) = b :=
  testBit_setLow c b 0

theorem setLow_lowBit (c : UInt8) : setLow c (if lowBit c then 1 else 0) = c := by
  apply UInt8.toNat_inj.mp
  apply Nat.eq_of_testBit_eq
  intro i
  rw [testBit_setLow]
  by_cases h : i = 0
  · simp [h, lowBit]
  · simp [h]

@[simp] theorem length_orBit (data : List UInt8) (k : Nat) (bit : UInt8) :
    (orBit data k bit).length = data.length := List.length_modify _ _ _

theorem bitAt_of_le {data : List UInt8} {k : Nat} (h : 8 * data.length ≤ k) :
    bitAt data k = false := by
  have : data.length ≤ k / 8 := by omega
  simp [bitAt, List.getElem?_eq_none this]

theorem bitAt_orBit {data : List UInt8} {k : Nat} (hk : k < 8 * data.length) (b : Bool) (j : Nat) :
    bitAt (orBit data k (if b then 1 else 0)) j = (bitAt data j || (decide (j = k) && b)) := by
  by_cases hj : j < 8 * data.length
  · have hj8 : j / 8 < data.length := by omega
    simp only [bitAt, orBit, List.getD_eq_getElem?_getD, List.getElem?_modify]
    rw [List.getElem?_eq_getElem hj8]
    by_cases hd : k / 8 = j / 8
    · have hk8 : k % 8 < 8 := Nat.mod_lt _ (by decide)
      have hj' : j % 8 < 8 := Nat.mod_lt _ (by decide)
      have hb : (if b then (1 : UInt8) else 0).toNat = b.toNat := by cases b <;> rfl
      have he : (decide (j = k)) = decide (j % 8 = k % 8) := decide_eq_decide.mpr (by omega)
      simp only [hd, if_true, Option.map_eq_map, Option.map_some, Option.getD_some,
        UInt8.toNat_or, Nat.testBit_or,
        UInt8.toNat_shiftLeft, ofNat_toNat_of_lt hk8, Nat.mod_eq_of_lt hk8, hb,
        Nat.testBit_mod_two_pow, Nat.testBit_shiftLeft, hj', decide_true, Bool.true_and, he]
      rw [testBit_toNat]
      by_cases h : j % 8 = k % 8
      · simp [h]
      · by_cases hge : k % 8 ≤ j % 8
        · have : j % 8 - k % 8 ≠ 0 := by omega
          simp [h, this]
        · simp [hge, h]
    · have : j ≠ k := fun h => hd (by rw [h])
      simp [hd, this]
  · rw [bitAt_of_le (by simpa using Nat.le_of_not_lt hj), bitAt_of_le (Nat.le_of_not_lt hj)]
    have : j ≠ k := by omega
    simp [this]

theorem ext_bitAt {a b : List UInt8} (hl : a.length = b.length)
    (h : ∀ k < 8 * a.length, bitAt a k = bitAt b k) : a = b := by
  apply List.ext_getElem hl
  intro i ha hb
  apply UInt8.toNat_inj.mp
  apply Nat.eq_of_testBit_eq
  intro j
  by_cases hj : j < 8
  · have hk := h (8 * i + j) (by omega)
    have hd : (8 * i + j) / 8 = i := by omega
    have hm : (8 * i + j) % 8 = j := by omega
    simpa [bitAt, hd, hm, ha, hb] using hk
  · have hp : 2 ^ 8 ≤ 2 ^ j := Nat.pow_le_pow_right (by decide) (by omega)
    rw [Nat.testBit_lt_two_pow (lt_of_lt_of_le (a[i]).toNat_lt hp),
      Nat.testBit_lt_two_pow (lt_of_lt_of_le (b[i]).toNat_lt hp)]

theorem bitAt_take {B : List UInt8} {n k : Nat} (h : k < 8 * n) :
    bitAt (B.take n) k = bitAt B k := by
  have hk : k / 8 < n := by omega
  simp only [bitAt, List.getD_eq_getElem?_getD, List.getElem?_take, hk, if_true]

theorem bitAt_drop (B : List UInt8) (a k : Nat) : bitAt (B.drop a) k = bitAt B (8 * a + k) := by
  have hdiv : (8 * a + k) / 8 = a + k / 8 := by omega
  have hmod : (8 * a + k) % 8 = k % 8 := by omega
  simp only [bitAt, hdiv, hmod, List.getD_eq_getElem?_getD, List.getElem?_drop]

theorem slice_eq {B B' : List UInt8} {a n : Nat} (hlen : B'.length = B.length)
    (h : ∀ k, 8 * a ≤ k → k < 8 * (a + n) → k < 8 * B.length → bitAt B' k = bitAt B k) :
    (B'.drop a).take n = (B.drop a).take n := by
  have hlength : ((B'.drop a).take n).length = ((B.drop a).take n).length := by
    simp only [List.length_take, List.length_drop, hlen]
  apply ext_bitAt hlength
  intro k hk
  rw [List.length_take, List.length_drop, hlen] at hk
  rw [bitAt_take (by omega), bitAt_take (by omega), bitAt_drop, bitAt_drop]
  exact h _ (by omega) (by omega) (by omega)

@[simp] theorem length_pack (n : Nat) (bs : List Bool) : (pack n bs).length = n := by simp [pack]

theorem bitAt_pack {n k : Nat} (bs : List Bool) (hk : k < 8 * n) :
    bitAt (pack n bs) k = bs.getD k false := by
  have hi : k / 8 < n := by omega
  have hj : k % 8 < 8 := Nat.mod_lt _ (by decide)
  simp only [bitAt, pack, List.getD_eq_getElem?_getD, List.getElem?_map,
    List.getElem?_range hi, Option.map_some, Option.getD_some]
  have hlt := Nat.ofBits_lt_two_pow fun j : Fin 8 => bs[8 * (k / 8) + j]?.getD false
  rw [UInt8.toNat_ofNat', Nat.mod_eq_of_lt hlt, Nat.testBit_ofBits_lt _ _ hj]
  rw [show 8 * (k / 8) + k % 8 = k by omega]

theorem take_pack {m n : Nat} (bs : List Bool) (h : m ≤ n) : (pack n bs).take m = pack m bs := by
  simp [pack, ← List.map_take, List.take_range, Nat.min_eq_left h]

theorem pack_eq {data : List UInt8} {bs : List Bool}
    (h : ∀ k < 8 * data.length, bs.getD k false = bitAt data k) : pack data.length bs = data := by
  apply ext_bitAt (by simp)
  intro k hk
  rw [length_pack] at hk
  rw [bitAt_pack _ hk, h k hk]

/-- Write the bits of `data` from position `k` on into successive carriers. -/
def overlay (data : List UInt8) (total : Nat) : Nat → List UInt8 → List UInt8
  | _, [] => []
  | k, c :: cs =>
    if k < total then setLow c (bitByte data k) :: overlay data total (k + 1) cs else c :: cs

/-- Or the low bits of successive carriers into `buf` from position `k` on. -/
def gather (total : Nat) : Nat → List UInt8 → List UInt8 → List UInt8
  | _, buf, [] => buf
  | k, buf, c :: cs => if k < total then gather total (k + 1) (orBit buf k (c &&& 1)) cs else buf

theorem overlay_of_le (data : List UInt8) {total k : Nat} (h : total ≤ k) (cs : List UInt8) :
    overlay data total k cs = cs := by
  cases cs with
  | nil => rfl
  | cons c cs => simp [overlay, Nat.not_lt.mpr h]

theorem gather_of_le {total k : Nat} (h : total ≤ k) (buf cs : List UInt8) :
    gather total k buf cs = buf := by
  cases cs with
  | nil => rfl
  | cons c cs => simp [gather, Nat.not_lt.mpr h]

@[simp] theorem length_overlay (data : List UInt8) (total k : Nat) (cs : List UInt8) :
    (overlay data total k cs).length = cs.length := by
  induction cs generalizing k with
  | nil => rfl
  | cons c cs ih =>
    simp only [overlay]
    split <;> simp [ih]

@[simp] theorem length_gather (total k : Nat) (buf cs : List UInt8) :
    (gather total k buf cs).length = buf.length := by
  induction cs generalizing k buf with
  | nil => rfl
  | cons c cs ih =>
    simp only [gather]
    split
    · rw [ih, length_orBit]
    · rfl

theorem overlay_append (data : List UInt8) (total k : Nat) (a b : List UInt8) :
    overlay data total k (a ++ b) =
      overlay data total k a ++ overlay data total (k + a.length) b := by
  induction a generalizing k with
  | nil => rfl
  | cons c cs ih =>
    by_cases h : k < total
    · simp [overlay, h, ih, Nat.add_assoc, Nat.add_comm 1]
    · simp [overlay, h, overlay_of_le data (show total ≤ k + (cs.length + 1) by omega)]

theorem gather_append (total k : Nat) (buf a b : List UInt8) :
    gather total k buf (a ++ b) = gather total (k + a.length) (gather total k buf a) b := by
  induction a generalizing k buf with
  | nil => rfl
  | cons c cs ih =>
    by_cases h : k < total
    · simp [gather, h, ih, Nat.add_assoc, Nat.add_comm 1]
    · simp [gather, h, gather_of_le (show total ≤ k + (cs.length + 1) by omega)]

theorem lowBit_overlay (data : List UInt8) (total k i : Nat) (cs : List UInt8) :
    ((overlay data total k cs).map lowBit).getD i false =
      if i < cs.length ∧ k + i < total then bitAt data (k + i) else
        (cs.map lowBit).getD i false := by
  induction cs generalizing k i with
  | nil => simp [overlay]
  | cons c cs ih =>
    by_cases h : k < total
    · simp only [overlay, h, if_true, List.map_cons]
      cases i with
      | zero => simp [h, bitByte_eq, lowBit_setLow]
      | succ i =>
        have he : k + 1 + i = k + (i + 1) := by omega
        simpa [he] using ih (k + 1) i
    · have : ¬ (i < (c :: cs).length ∧ k + i < total) := by omega
      rw [if_neg this]
      simp [overlay, h]

theorem overlay_eq_self {data : List UInt8} {total k : Nat} {cs : List UInt8}
    (h : ∀ i < cs.length, k + i < total → bitAt data (k + i) = (cs.map lowBit).getD i false) :
    overlay data total k cs = cs := by
  induction cs generalizing k with
  | nil => rfl
  | cons c cs ih =>
    by_cases hk : k < total
    · have hhead : bitAt data k = lowBit c := by simpa using h 0 (Nat.succ_pos _) hk
      have hrest := @ih (k + 1) fun i hi hlt => by
        have hnext := h (i + 1) (Nat.succ_lt_succ hi) (by omega)
        rw [show k + 1 + i = k + (i + 1) by omega]
        simpa using hnext
      rw [overlay, if_pos hk, hrest, bitByte_eq, hhead, setLow_lowBit]
    · rw [overlay, if_neg hk]

/-- What `gather` reads: old bits below `k`, carrier bits from `k` to `total`. -/
theorem bitAt_gather {total k : Nat} {buf : List UInt8} (hbuf : total ≤ 8 * buf.length)
    (hnew : ∀ j, k ≤ j → bitAt buf j = false) (cs : List UInt8) (j : Nat) :
    bitAt (gather total k buf cs) j =
      if k ≤ j ∧ j < total then (cs.map lowBit).getD (j - k) false else bitAt buf j := by
  induction cs generalizing k buf with
  | nil =>
    by_cases h : k ≤ j ∧ j < total
    · simp [gather, h, hnew j h.1]
    · simp [gather, h]
  | cons c cs ih =>
    by_cases h : k < total
    · have hk : k < 8 * buf.length := by omega
      have hb : ∀ j, bitAt (orBit buf k (c &&& 1)) j =
        (bitAt buf j || (decide (j = k) && lowBit c)) := by
        intro j
        rw [and_one_eq]
        exact bitAt_orBit hk (lowBit c) j
      have hnew' : ∀ j, k + 1 ≤ j → bitAt (orBit buf k (c &&& 1)) j = false := by
        intro j hj
        have : j ≠ k := by omega
        simp [hb, hnew j (by omega), this]
      simp only [gather, h, if_true]
      rw [ih (by simpa using hbuf) hnew', hb]
      by_cases hj : j = k
      · subst hj
        simp [hnew j (le_refl j), h]
      · by_cases hlt : k ≤ j ∧ j < total
        · obtain ⟨i, rfl⟩ : ∃ i, j = k + 1 + i := ⟨j - (k + 1), by omega⟩
          have he : k + 1 + i - k = i + 1 := by omega
          have hle : k + 1 ≤ k + 1 + i := by omega
          simp [hlt, he, hle]
        · have : ¬ (k + 1 ≤ j ∧ j < total) := by omega
          rw [if_neg hlt, if_neg this]
          simp [hj]
    · have : ¬ (k ≤ j ∧ j < total) := by omega
      simp [gather, h, this]

theorem gather_zero (n : Nat) (cs : List UInt8) :
    gather (8 * n) 0 (List.replicate n 0) cs = pack n (cs.map lowBit) := by
  have hz : ∀ j, bitAt (List.replicate n 0) j = false := by
    intro j
    by_cases h : j / 8 < n <;> simp [bitAt, h]
  apply ext_bitAt (by simp)
  intro k hk
  rw [length_gather, List.length_replicate] at hk
  rw [bitAt_gather (by simp) (fun j _ => hz j), bitAt_pack _ hk]
  simp [hk]

end BitPacking
