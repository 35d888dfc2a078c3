import Mathlib.Data.Nat.Bitwise

/-! Reflected 32-bit cyclic redundancy checks, one bit at a time and by table
lookup. The polynomial is a parameter. -/

namespace ReflectedCrc

variable (poly : UInt32)

/-- Shift the register right; when a one falls out, add the polynomial. -/
def bitStep (c : UInt32) : UInt32 := if c &&& 1 ≠ 0 then poly ^^^ (c >>> 1) else c >>> 1

def bitSteps : Nat → UInt32 → UInt32
  | 0, c => c
  | n + 1, c => bitSteps n (bitStep poly c)

/-- The register after one more byte, bit by bit. -/
def byteStep (c : UInt32) (b : UInt8) : UInt32 := bitSteps poly 8 (c ^^^ b.toUInt32)

/-- The register after a byte string. -/
def register (c : UInt32) (data : List UInt8) : UInt32 := data.foldl (byteStep poly) c

def tableEntry (i : UInt32) : UInt32 := bitSteps poly 8 i

theorem and_one_ne_zero (c : UInt32) : c &&& 1 ≠ 0 ↔ c.toNat.testBit 0 = true := by
  rw [ne_eq, ← UInt32.toNat_inj, UInt32.toNat_and, UInt32.toNat_one, UInt32.toNat_zero,
    Nat.and_one_is_mod, Nat.testBit_zero, decide_eq_true_iff]
  omega

theorem bitStep_eq (c : UInt32) :
    bitStep poly c = (c >>> 1) ^^^ (if c.toNat.testBit 0 then poly else 0) := by
  by_cases h : c.toNat.testBit 0 = true
  · simp [bitStep, (and_one_ne_zero c).mpr h, h, UInt32.xor_comm]
  · have hz : ¬ (c &&& 1 ≠ 0) := fun hc => h ((and_one_ne_zero c).mp hc)
    simp only [bitStep, if_neg hz, if_neg h, UInt32.xor_zero]

theorem bitStep_xor (x y : UInt32) : bitStep poly (x ^^^ y) =
    bitStep poly x ^^^ bitStep poly y := by
  simp only [bitStep_eq, UInt32.toNat_xor, Nat.testBit_xor, UInt32.shiftRight_xor]
  cases x.toNat.testBit 0 <;> cases y.toNat.testBit 0
  · simp
  · simp [UInt32.xor_assoc]
  · simp only [Bool.true_bne, Bool.not_false, if_true, Bool.false_eq_true, if_false,
      UInt32.xor_zero]
    rw [UInt32.xor_assoc, UInt32.xor_assoc, UInt32.xor_comm poly]
  · simp only [bne_self_eq_false, Bool.false_eq_true, if_false, if_true, UInt32.xor_zero]
    rw [UInt32.xor_assoc, ← UInt32.xor_assoc poly, UInt32.xor_comm poly, UInt32.xor_assoc (y >>> 1),
      UInt32.xor_self, UInt32.xor_zero]

theorem bitSteps_xor (n : Nat) (x y : UInt32) :
    bitSteps poly n (x ^^^ y) = bitSteps poly n x ^^^ bitSteps poly n y := by
  induction n generalizing x y with
  | zero => rfl
  | succ n ih => simp only [bitSteps, bitStep_xor, ih]

/-- While only zeros fall out, the steps are a plain shift. -/
theorem bitSteps_of_low_zero {n : Nat} {x : UInt32} (h : ∀ i < n, x.toNat.testBit i = false) :
    (bitSteps poly n x).toNat = x.toNat >>> n := by
  induction n generalizing x with
  | zero => rfl
  | succ n ih =>
    have hs : bitStep poly x = x >>> 1 := by simp [bitStep_eq, h 0 (Nat.succ_pos n)]
    have hshift : (x >>> 1).toNat = x.toNat >>> 1 := by
      rw [UInt32.toNat_shiftRight]
      rfl
    have hlow : ∀ i < n, (x >>> 1).toNat.testBit i = false := by
      intro i hi
      rw [hshift, Nat.testBit_shiftRight]
      exact h (1 + i) (by omega)
    rw [bitSteps, hs, ih hlow, hshift, ← Nat.shiftRight_add, Nat.add_comm]

theorem split_byte (c : UInt32) (b : UInt8) :
    c ^^^ b.toUInt32 = ((c ^^^ b.toUInt32) &&& (0xFF : UInt32)) ^^^ ((c >>> 8) <<< 8) := by
  apply UInt32.toNat_inj.mp
  apply Nat.eq_of_testBit_eq
  intro i
  have hmask : (0xFF : UInt32).toNat.testBit i = decide (i < 8) := Nat.testBit_two_pow_sub_one 8 i
  have hshr : (c >>> 8).toNat = c.toNat >>> 8 := by
    rw [UInt32.toNat_shiftRight]
    rfl
  have hshl : ((c >>> 8) <<< 8).toNat = ((c >>> 8).toNat <<< 8) % 2 ^ 32 := by
    rw [UInt32.toNat_shiftLeft]
    rfl
  have hc : 32 ≤ i → c.toNat.testBit i = false := fun hi =>
    Nat.testBit_lt_two_pow (lt_of_lt_of_le c.toNat_lt (Nat.pow_le_pow_right (by decide) hi))
  have hb : 8 ≤ i → b.toNat.testBit i = false := fun hi =>
    Nat.testBit_lt_two_pow (lt_of_lt_of_le b.toNat_lt (Nat.pow_le_pow_right (by decide) hi))
  simp only [UInt32.toNat_xor, UInt32.toNat_and, Nat.testBit_xor, Nat.testBit_and,
    hmask, hshl, hshr, UInt8.toNat_toUInt32, Nat.testBit_mod_two_pow, Nat.testBit_shiftLeft,
      Nat.testBit_shiftRight]
  by_cases hi : i < 8
  · simp [hi, Nat.not_le.mpr hi]
  · rw [hb (by omega), show 8 + (i - 8) = i by omega]
    by_cases hi' : i < 32
    · simp [hi, hi', Nat.le_of_not_lt hi]
    · simp [hi, hc (Nat.le_of_not_lt hi')]

/-- One table lookup does eight bit steps. -/
theorem byteStep_eq_table (c : UInt32) (b : UInt8) :
    byteStep poly c b = tableEntry poly ((c ^^^ b.toUInt32) &&& 0xFF) ^^^ (c >>> 8) := by
  have hshr : (c >>> 8).toNat = c.toNat >>> 8 := by
    rw [UInt32.toNat_shiftRight]
    rfl
  have hval : ((c >>> 8) <<< 8).toNat = (c.toNat >>> 8) <<< 8 := by
    have hlt := c.toNat_lt
    have hmul : c.toNat / 2 ^ 8 * 2 ^ 8 < 2 ^ 32 := lt_of_le_of_lt (Nat.div_mul_le_self _ _) hlt
    rw [UInt32.toNat_shiftLeft, hshr, show (8 : UInt32).toNat % 32 = 8 from rfl,
      Nat.shiftLeft_eq, Nat.shiftRight_eq_div_pow, Nat.mod_eq_of_lt hmul]
  have hlow : ∀ i < 8, ((c >>> 8) <<< 8).toNat.testBit i = false := by
    intro i hi
    rw [hval, Nat.testBit_shiftLeft]
    simp [hi]
  have hhigh : bitSteps poly 8 ((c >>> 8) <<< 8) = c >>> 8 := by
    apply UInt32.toNat_inj.mp
    rw [bitSteps_of_low_zero poly hlow, hval, hshr, Nat.shiftLeft_shiftRight]
  rw [byteStep, split_byte c b, bitSteps_xor, hhigh, ← split_byte, tableEntry]

/-! The register fed bit by bit, least significant bit of each byte first. -/

def feed (c : UInt32) (b : Bool) : UInt32 := bitStep poly (c ^^^ (if b then 1 else 0))

def feeds (c : UInt32) (bs : List Bool) : UInt32 := bs.foldl (feed poly) c

def byteBits (b : UInt8) : List Bool := (List.range 8).map b.toNat.testBit

def bits (data : List UInt8) : List Bool := data.flatMap byteBits

/-- At most 32 bits as a word, the first one lowest. -/
def wordOf : List Bool → UInt32
  | [] => 0
  | b :: bs => (if b then (1 : UInt32) else 0) ^^^ (wordOf bs <<< 1)

theorem toNat_shiftLeft_one (c : UInt32) : (c <<< 1).toNat = (c.toNat <<< 1) % 2 ^ 32 := by
  rw [UInt32.toNat_shiftLeft]
  rfl

theorem toNat_shiftRight_one (c : UInt32) : (c >>> 1).toNat = c.toNat >>> 1 := by
  rw [UInt32.toNat_shiftRight]
  rfl

theorem testBit_of_le {c : UInt32} {i : Nat} (h : 32 ≤ i) : c.toNat.testBit i = false :=
  Nat.testBit_lt_two_pow (lt_of_lt_of_le c.toNat_lt (Nat.pow_le_pow_right (by decide) h))

theorem testBit_wordOf {bs : List Bool} (h : bs.length ≤ 32) (i : Nat) :
    (wordOf bs).toNat.testBit i = bs.getD i false := by
  induction bs generalizing i with
  | nil => simp [wordOf]
  | cons b bs ih =>
    rw [List.length_cons] at h
    have hrest := ih (by omega)
    have hb : (if b then (1 : UInt32) else 0).toNat.testBit i = (b && decide (i = 0)) := by
      cases b
      · simp
      · by_cases hi : i = 0
        · simp [hi]
        · have hone : Nat.testBit 1 i = false :=
            Bool.eq_false_iff.mpr fun ht => hi (Nat.testBit_one_eq_true_iff_self_eq_zero.mp ht)
          simp [hi, hone]
    rw [wordOf, UInt32.toNat_xor, Nat.testBit_xor, hb, toNat_shiftLeft_one, Nat.testBit_mod_two_pow,
      Nat.testBit_shiftLeft]
    cases i with
    | zero => simp
    | succ i =>
      rw [Nat.add_sub_cancel, hrest i, List.getD_cons_succ]
      by_cases hi : i + 1 < 32
      · simp [hi]
      · have hout : bs.length ≤ i := by omega
        simp [hi, List.getElem?_eq_none hout]

theorem wordOf_eq_zero {bs : List Bool} (h : bs.length ≤ 32) (hzero : wordOf bs = 0) :
    ∀ b ∈ bs, b = false := by
  intro b hb
  obtain ⟨i, hi, rfl⟩ := List.getElem_of_mem hb
  have hbit := testBit_wordOf h i
  rw [hzero, UInt32.toNat_zero, Nat.zero_testBit, List.getD_eq_getElem _ _ hi] at hbit
  exact hbit.symm

theorem bitStep_shiftLeft {w : UInt32} (h : w.toNat.testBit 31 = false) :
    bitStep poly (w <<< 1) = w := by
  have hlow : (w <<< 1).toNat.testBit 0 = false := by
    rw [toNat_shiftLeft_one, Nat.testBit_mod_two_pow, Nat.testBit_shiftLeft]
    simp
  rw [bitStep_eq, hlow, if_neg Bool.false_ne_true, UInt32.xor_zero]
  apply UInt32.toNat_inj.mp
  apply Nat.eq_of_testBit_eq
  intro i
  rw [toNat_shiftRight_one, Nat.testBit_shiftRight, toNat_shiftLeft_one, Nat.testBit_mod_two_pow,
    Nat.testBit_shiftLeft]
  by_cases hi : 1 + i < 32
  · simp [hi]
  · have hout : w.toNat.testBit i = false := by
      by_cases h31 : i = 31
      · rw [h31, h]
      · exact testBit_of_le (by omega)
    simp [hi, hout]

theorem feeds_eq {bs : List Bool} (h : bs.length ≤ 32) (c : UInt32) :
    feeds poly c bs = bitSteps poly bs.length (c ^^^ wordOf bs) := by
  induction bs generalizing c with
  | nil => simp [feeds, bitSteps, wordOf]
  | cons b bs ih =>
    rw [List.length_cons] at h
    have htop : (wordOf bs).toNat.testBit 31 = false := by
      rw [testBit_wordOf (by omega), List.getD_eq_default _ _ (by omega)]
    have hfed : feeds poly c (b :: bs) = feeds poly (feed poly c b) bs := rfl
    rw [hfed, ih (by omega), List.length_cons, bitSteps, wordOf, ← UInt32.xor_assoc,
      bitStep_xor poly (c ^^^ _), bitStep_shiftLeft poly htop, feed]

theorem wordOf_byteBits (b : UInt8) : wordOf (byteBits b) = b.toUInt32 := by
  apply UInt32.toNat_inj.mp
  apply Nat.eq_of_testBit_eq
  intro i
  have hlen : (byteBits b).length ≤ 32 := by simp [byteBits]
  rw [testBit_wordOf hlen, UInt8.toNat_toUInt32, byteBits, List.getD_eq_getElem?_getD,
    List.getElem?_map]
  by_cases hi : i < 8
  · rw [List.getElem?_range hi]
    rfl
  · rw [List.getElem?_eq_none (by simpa using hi)]
    exact (Nat.testBit_lt_two_pow (lt_of_lt_of_le b.toNat_lt
      (Nat.pow_le_pow_right (by decide) (by omega)))).symm

theorem byteStep_eq_feeds (c : UInt32) (b : UInt8) :
    byteStep poly c b = feeds poly c (byteBits b) := by
  have hlen : (byteBits b).length = 8 := by simp [byteBits]
  rw [feeds_eq poly (by omega), hlen, wordOf_byteBits, byteStep]

theorem feeds_append (c : UInt32) (as bs : List Bool) :
    feeds poly c (as ++ bs) = feeds poly (feeds poly c as) bs :=
  List.foldl_append

theorem register_eq_feeds (c : UInt32) (data : List UInt8) :
    register poly c data = feeds poly c (bits data) := by
  induction data generalizing c with
  | nil => rfl
  | cons b data ih =>
    have hnext : register poly c (b :: data) = register poly (byteStep poly c b) data := rfl
    have hbits : bits (b :: data) = byteBits b ++ bits data := rfl
    rw [hnext, ih, byteStep_eq_feeds, hbits, feeds_append]

/-- The difference of two registers is fed the difference of the bits. -/
theorem feeds_xor {as bs : List Bool} (h : as.length = bs.length) (c d : UInt32) :
    feeds poly (c ^^^ d) (List.zipWith xor as bs) = feeds poly c as ^^^ feeds poly d bs := by
  induction as generalizing bs c d with
  | nil =>
    cases bs with
    | nil => rfl
    | cons b bs => cases h
  | cons a as ih =>
    cases bs with
    | nil => cases h
    | cons b bs =>
      have hbit : feed poly (c ^^^ d) (xor a b) = feed poly c a ^^^ feed poly d b := by
        rw [feed, feed, feed, ← bitStep_xor]
        congr 1
        cases a <;> cases b <;> simp only [UInt32.xor_zero, Bool.xor_false, Bool.xor_true,
          Bool.not_true, Bool.not_false, Bool.false_eq_true, if_true, if_false]
        · rw [UInt32.xor_assoc]
        · rw [UInt32.xor_assoc, UInt32.xor_comm d, ← UInt32.xor_assoc]
        · rw [UInt32.xor_assoc c, UInt32.xor_comm 1, UInt32.xor_assoc d, UInt32.xor_self,
            UInt32.xor_zero]
      have hrest := ih (Nat.succ.inj h) (feed poly c a) (feed poly d b)
      simp only [feeds, List.zipWith_cons_cons, List.foldl_cons] at hrest ⊢
      rw [hbit, hrest]

theorem feeds_false {bs : List Bool} (h : ∀ b ∈ bs, b = false) (c : UInt32) :
    feeds poly c bs = bitSteps poly bs.length c := by
  induction bs generalizing c with
  | nil => rfl
  | cons b bs ih =>
    obtain rfl := h b List.mem_cons_self
    have hfed : feeds poly c (false :: bs) = feeds poly (bitStep poly (c ^^^ 0)) bs := rfl
    rw [hfed, ih fun b hb => h b (List.mem_cons_of_mem _ hb), UInt32.xor_zero]
    rfl

section

variable {poly : UInt32} (hpoly : poly.toNat.testBit 31 = true)

include hpoly

/-- With its top bit set, the polynomial leaves a trace of every one that falls out. -/
theorem bitStep_eq_zero {c : UInt32} (h : bitStep poly c = 0) : c = 0 := by
  rw [bitStep_eq] at h
  by_cases hlow : c.toNat.testBit 0 = true
  · have htop := congrArg (fun x : UInt32 => x.toNat.testBit 31) h
    rw [if_pos hlow] at htop
    simp only [UInt32.toNat_xor, Nat.testBit_xor, hpoly, toNat_shiftRight_one,
      Nat.testBit_shiftRight, testBit_of_le (c := c) (show 32 ≤ 1 + 31 by decide),
        UInt32.toNat_zero, Nat.zero_testBit] at htop
    exact absurd htop (by decide)
  · rw [if_neg hlow, UInt32.xor_zero] at h
    apply UInt32.toNat_inj.mp
    apply Nat.eq_of_testBit_eq
    intro i
    rw [UInt32.toNat_zero, Nat.zero_testBit]
    cases i with
    | zero => simpa using hlow
    | succ i =>
      have hbit := congrArg (fun x : UInt32 => x.toNat.testBit i) h
      simp only [toNat_shiftRight_one, Nat.testBit_shiftRight, UInt32.toNat_zero,
        Nat.zero_testBit] at hbit
      rw [Nat.add_comm]
      exact hbit

theorem bitSteps_eq_zero {n : Nat} {c : UInt32} (h : bitSteps poly n c = 0) : c = 0 := by
  induction n generalizing c with
  | zero => exact h
  | succ n ih => exact bitStep_eq_zero hpoly (ih h)

/-- A burst of at most 32 bits, anywhere in a message, changes the register. -/
theorem burst_changes_register {x y : List UInt8} {start : Nat} (c : UInt32)
    (hlen : (bits x).length = (bits y).length)
    (hdiffer : ∃ k, (bits x).getD k false ≠ (bits y).getD k false)
    (hburst : ∀ k, (bits x).getD k false ≠ (bits y).getD k false → start ≤ k ∧ k < start + 32) :
    register poly c x ≠ register poly c y := by
  intro hsame
  rw [register_eq_feeds, register_eq_feeds] at hsame
  obtain ⟨e, he⟩ : ∃ e, e = List.zipWith xor (bits x) (bits y) := ⟨_, rfl⟩
  have hbit : ∀ k, e.getD k false = xor ((bits x).getD k false) ((bits y).getD k false) := by
    intro k
    rw [he, List.getD_eq_getElem?_getD, List.getElem?_zipWith, List.getD_eq_getElem?_getD,
      List.getD_eq_getElem?_getD]
    by_cases hk : k < (bits x).length
    · rw [List.getElem?_eq_getElem hk, List.getElem?_eq_getElem (hlen ▸ hk)]
      rfl
    · rw [List.getElem?_eq_none (Nat.le_of_not_lt hk),
        List.getElem?_eq_none (hlen ▸ Nat.le_of_not_lt hk)]
      rfl
  have hout : ∀ k, ¬ (start ≤ k ∧ k < start + 32) → e.getD k false = false := by
    intro k hk
    have heq : (bits x).getD k false = (bits y).getD k false :=
      not_ne_iff.mp fun hne => hk (hburst k hne)
    rw [hbit, heq, Bool.xor_self]
  have hzero : feeds poly 0 e = 0 := by
    have hxor := feeds_xor poly hlen c c
    rw [UInt32.xor_self, hsame, UInt32.xor_self, ← he] at hxor
    exact hxor
  have hbefore : ∀ b ∈ e.take start, b = false := by
    intro b hb
    obtain ⟨k, hk, rfl⟩ := List.getElem_of_mem hb
    rw [List.length_take] at hk
    have hfalse := hout k (by omega)
    rw [List.getD_eq_getElem _ _ (by omega)] at hfalse
    rw [List.getElem_take, hfalse]
  have hafter : ∀ b ∈ (e.drop start).drop 32, b = false := by
    intro b hb
    obtain ⟨k, hk, rfl⟩ := List.getElem_of_mem hb
    rw [List.drop_drop, List.length_drop] at hk
    have hfalse := hout (start + 32 + k) (by omega)
    rw [List.getD_eq_getElem _ _ (by omega)] at hfalse
    simp only [List.getElem_drop, ← Nat.add_assoc, hfalse]
  have hsteps : ∀ n, bitSteps poly n 0 = 0 := by
    intro n
    have hshift := bitSteps_xor poly n 0 0
    rw [UInt32.xor_self] at hshift
    rw [hshift, UInt32.xor_self]
  rw [← List.take_append_drop start e, ← List.take_append_drop 32 (e.drop start), feeds_append,
    feeds_append, feeds_false poly hbefore, hsteps, feeds_false poly hafter] at hzero
  have hwindow : ((e.drop start).take 32).length ≤ 32 := List.length_take_le _ _
  have hword := bitSteps_eq_zero hpoly hzero
  rw [feeds_eq poly hwindow, UInt32.zero_xor] at hword
  have hclear := wordOf_eq_zero hwindow (bitSteps_eq_zero hpoly hword)
  obtain ⟨k, hk⟩ := hdiffer
  have hin := hburst k hk
  have hset : e.getD k false = true := by
    rw [hbit]
    exact bne_iff_ne.mpr hk
  have hlt : k < e.length := by
    by_contra hge
    rw [List.getD_eq_default _ _ (Nat.le_of_not_lt hge)] at hset
    cases hset
  rw [List.getD_eq_getElem _ _ hlt] at hset
  have hmem : e[k] ∈ (e.drop start).take 32 := by
    refine List.mem_of_getElem? (i := k - start) ?_
    rw [List.getElem?_take, if_pos (by omega), List.getElem?_drop,
      show start + (k - start) = k by omega, List.getElem?_eq_getElem hlt]
  rw [hclear _ hmem] at hset
  cases hset

end

end ReflectedCrc
