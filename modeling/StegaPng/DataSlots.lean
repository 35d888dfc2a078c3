import Mathlib.Data.Finset.Prod
import StegaPng.CapacityCheck
import StegaPng.EmbedFrame

/-! The positions that the row walk uses, against `image_data_bit_capacity`, for images of
any size that PNG allows. -/

namespace StegaPng

/-- The positions (row, column) whose byte the walk takes for a data channel. -/
def dataSlots (img : PngImageBuf) : Finset (Nat × Nat) :=
  (Finset.range img.height.toNat ×ˢ Finset.range (img.width.toNat * img.channels)).filter fun p =>
    isDataChannel img.channels (intOfSize p.2)

/-- There are as many such positions as the capacity says, the walk goes through as many bytes,
and of four channels it leaves out the fourth. -/
structure SlotsExact (img : PngImageBuf) : Prop where
  count : (dataSlots img).card = imageDataBitCapacity img
  walked : img.carriers.length = imageDataBitCapacity img
  alpha : img.channels = 4 → ∀ x < img.width.toNat * img.channels,
    (isDataChannel img.channels (intOfSize x) = false ↔ x % 4 = 3)

theorem isDataChannel_rgb {channels : Nat} (h : channels ≠ 4) (ch_index : Int) :
    isDataChannel channels ch_index = true := by
  simp [isDataChannel, h]

theorem isDataChannel_rgba (ch_index : Int) : isDataChannel 4 ch_index = false ↔
    ch_index.tmod 4 = 3 := by
  simp [isDataChannel]

/-- The balanced remainder is negative from half the modulus on, and leaves no remainder 3 there. -/
theorem tmod_bmod {m : Nat} (x : Nat) (h4 : 4 ∣ m) (hpos : 0 < m) :
    (Int.bmod x m).tmod 4 = 3 ↔ x % 4 = 3 ∧ x % m < m / 2 := by
  have hsame : x % m % 4 = x % 4 := Nat.mod_mod_of_dvd x h4
  have hlt : x % m < m := Nat.mod_lt x hpos
  rw [Int.bmod_def, ← Int.natCast_mod]
  split
  · have hnat : (0 : Int) ≤ ((x % m : Nat) : Int) := Int.natCast_nonneg _
    rw [Int.tmod_eq_emod_of_nonneg hnat]
    omega
  · have hneg : ((x % m : Nat) : Int) - m ≤ 0 := by omega
    have hremainder := Int.tmod_nonneg 4 (Int.neg_nonneg_of_nonpos hneg)
    rw [Int.neg_tmod] at hremainder
    omega

theorem narrowed_alpha (x : Nat) : (intOfSize x).tmod 4 = 3 ↔ x % 4 = 3 ∧ x % 2 ^ 32 < 2 ^ 32 / 2 :=
  tmod_bmod x (by decide) (by decide)

/-! Counting the positions. -/

theorem rowCarriers_count (channels x : Nat) (row : Bytes) :
    (rowCarriers channels x row).length = Nat.count (fun i =>
      isDataChannel channels (intOfSize (x + i))) row.length := by
  induction row generalizing x with
  | nil => rfl
  | cons px row ih =>
    have hshift : (fun i => isDataChannel channels (intOfSize (x + 1 + i)) = true) =
        fun i => isDataChannel channels (intOfSize (x + (i + 1))) = true := by
      funext i
      rw [Nat.add_right_comm, Nat.add_assoc]
    have hrest := ih (x + 1)
    simp only [hshift] at hrest
    rw [List.length_cons, Nat.count_succ', ← hrest, rowCarriers]
    split
    · next hd => rw [if_pos (by simpa using hd), List.length_cons]
    · next hd =>
      rw [if_neg (by simpa using hd)]
      rfl

theorem card_dataSlots (img : PngImageBuf) :
    (dataSlots img).card = img.height.toNat *
      Nat.count (fun x => isDataChannel img.channels (intOfSize x))
        (img.width.toNat * img.channels) := by
  rw [dataSlots, Finset.filter_product_right fun x =>
    isDataChannel img.channels (intOfSize x) = true, Finset.card_product, Finset.card_range,
      Nat.count_eq_card_filter_range]

theorem carriers_length_slots (img : PngImageBuf) : img.carriers.length = (dataSlots img).card := by
  have hrows : ∀ rows : List Bytes, (∀ row ∈ rows, row.length = img.width.toNat * img.channels) →
      (rowsCarriers img.channels rows).length = rows.length *
        Nat.count (fun x => isDataChannel img.channels (intOfSize x))
          (img.width.toNat * img.channels) := by
    intro rows hlength
    induction rows with
    | nil => simp [rowsCarriers]
    | cons row rows ih =>
      have hrest := ih fun r hr => hlength r (List.mem_cons_of_mem _ hr)
      have hrow := rowCarriers_count img.channels 0 row
      simp only [Nat.zero_add, hlength row List.mem_cons_self] at hrow
      rw [rowsCarriers] at hrest ⊢
      rw [List.flatMap_cons, List.length_append, hrest, hrow, List.length_cons, Nat.succ_mul,
        Nat.add_comm]
  rw [PngImageBuf.carriers, hrows _ img.row_length, img.rows_length, card_dataSlots]

section

variable {img : PngImageBuf}

theorem imageDataBitCapacity_png (hw : img.width.toNat < 2 ^ 31) (hh : img.height.toNat < 2 ^ 31) :
    imageDataBitCapacity img = img.height.toNat * (3 * img.width.toNat) := by
  have hpixels : img.width.toNat * img.height.toNat < 2 ^ 31 * 2 ^ 31 := Nat.mul_lt_mul'' hw hh
  simp only [imageDataBitCapacity, sizeT, dataChannels_eq]
  rw [Nat.mod_eq_of_lt (show img.width.toNat * img.height.toNat < 2 ^ 64 by omega),
    Nat.mod_eq_of_lt (by omega)]
  ring

/-- Of a row that starts with `w` pixels, three bytes of each are no alpha. -/
theorem count_nonAlpha (hc : img.channels = 4) :
    Nat.count (NonAlpha img.channels) (img.width.toNat * img.channels) = 3 * img.width.toNat := by
  rw [hc, Nat.mul_comm]
  exact carrierRank_four

theorem card_of_narrow (hw : img.width.toNat < 2 ^ 31) (hh : img.height.toNat < 2 ^ 31)
    (hnarrow : img.channels = 4 → img.width.toNat ≤ 2 ^ 29) :
    (dataSlots img).card = imageDataBitCapacity img := by
  rw [card_dataSlots, imageDataBitCapacity_png hw hh]
  congr 1
  by_cases hc : img.channels = 4
  · have hsame : ∀ x ∈ Finset.range (img.width.toNat * img.channels),
        (isDataChannel img.channels (intOfSize x) = true ↔ NonAlpha img.channels x) := by
      intro x hx
      have hlt := Finset.mem_range.mp hx
      have hfits := hnarrow hc
      rw [hc] at hlt ⊢
      rw [← Bool.not_eq_false, isDataChannel_rgba, narrowed_alpha, NonAlpha]
      omega
    rw [← count_nonAlpha hc, Nat.count_eq_card_filter_range, Nat.count_eq_card_filter_range,
      Finset.filter_congr hsame]
  · have hall : ∀ x < img.width.toNat * img.channels,
      isDataChannel img.channels (intOfSize x) = true :=
      fun x _ => isDataChannel_rgb hc _
    rw [Nat.count_of_forall hall, img.channels_eq.resolve_right hc, Nat.mul_comm]

/-- A row of more than `2 ^ 29` RGBA pixels has an alpha byte that the walk takes. -/
theorem wide_alpha (hc : img.channels = 4) (hwide : 2 ^ 29 < img.width.toNat) :
    2 ^ 31 + 3 < img.width.toNat * img.channels ∧
      isDataChannel img.channels (intOfSize (2 ^ 31 + 3)) = true := by
  rw [hc]
  constructor
  · omega
  · rw [← Bool.not_eq_false, isDataChannel_rgba, narrowed_alpha]
    decide

theorem card_of_wide (img : PngImageBuf) (hw : img.width.toNat < 2 ^ 31)
    (hh : img.height.toNat < 2 ^ 31) (hc : img.channels = 4) (hwide : 2 ^ 29 < img.width.toNat)
    (hrows : 0 < img.height.toNat) : imageDataBitCapacity img < (dataSlots img).card := by
  rw [card_dataSlots, imageDataBitCapacity_png hw hh]
  refine Nat.mul_lt_mul_of_pos_left ?_ hrows
  rw [← count_nonAlpha hc, Nat.count_eq_card_filter_range, Nat.count_eq_card_filter_range]
  obtain ⟨hlt, htaken⟩ := wide_alpha hc hwide
  apply Finset.card_lt_card
  refine Finset.ssubset_iff_of_subset ?_ |>.mpr ⟨2 ^ 31 + 3, ?_, ?_⟩
  · intro x hx
    obtain ⟨hx, hdata⟩ := Finset.mem_filter.mp hx
    exact Finset.mem_filter.mpr ⟨hx, isDataChannel_of_ne fun halpha => hdata ⟨hc, halpha⟩⟩
  · exact Finset.mem_filter.mpr ⟨Finset.mem_range.mpr hlt, htaken⟩
  · intro hmem
    exact (Finset.mem_filter.mp hmem).2 ⟨hc, by decide⟩

end

/-- Of the images that PNG allows, the walk and the capacity agree on those with three channels,
and with four on those at most `2 ^ 29` pixels wide. -/
theorem slots_exact (img : PngImageBuf) (hw : img.width.toNat < 2 ^ 31)
    (hh : img.height.toNat < 2 ^ 31) :
    SlotsExact img ↔ (img.channels = 4 → img.width.toNat ≤ 2 ^ 29) := by
  constructor
  · intro hexact hc
    by_contra hwide
    obtain ⟨hlt, htaken⟩ := wide_alpha hc (Nat.lt_of_not_le hwide)
    have halpha := (hexact.alpha hc _ hlt).mpr (by decide)
    rw [htaken] at halpha
    cases halpha
  · intro hnarrow
    have hcount := card_of_narrow hw hh hnarrow
    refine ⟨hcount, (carriers_length_slots img).trans hcount, fun hc x hx => ?_⟩
    have hfits := hnarrow hc
    rw [hc] at hx ⊢
    rw [isDataChannel_rgba, narrowed_alpha]
    omega

/-- A transparent image of `width` by `height` pixels. -/
def clearField (width height : UInt32) : PngImageBuf where
  width := width
  height := height
  channels := 4
  rows := List.replicate height.toNat (List.replicate (width.toNat * 4) 0)
  channels_eq := .inr rfl
  rows_length := List.length_replicate
  row_length := by
    intro row hrow
    rw [List.eq_of_mem_replicate hrow, List.length_replicate]

theorem slots_exact_clearField : SlotsExact (clearField 536870912 2) :=
  (slots_exact (clearField 536870912 2) (by decide) (by decide)).mpr fun _ => by decide

/-- One pixel more, and there are more positions than the capacity says. -/
theorem slots_exceed : ¬ ∀ img : PngImageBuf, img.width.toNat < 2 ^ 31 → img.height.toNat < 2 ^ 31 →
    SlotsExact img := by
  intro hclaim
  have hexact := hclaim (clearField 536870913 1) (by decide) (by decide)
  have hmore := card_of_wide (clearField 536870913 1) (by decide) (by decide) rfl
    (by decide) (by decide)
  rw [hexact.count] at hmore
  exact Nat.lt_irrefl _ hmore

end StegaPng
