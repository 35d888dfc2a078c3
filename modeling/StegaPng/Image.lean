import Mathlib.Algebra.BigOperators.Group.List.Basic
import Mathlib.Algebra.Order.Group.Int
import Mathlib.Tactic.Ring
import StegaPng.BitPacking

/-! Decoded images and the row walk that hides bytes in the low bits of their
data channels (`stego.c`). -/

namespace StegaPng

open BitPacking

abbrev Bytes := List UInt8

instance : LawfulBEq Bytes := inferInstance

/-- Arithmetic of C's `size_t`. -/
def sizeT (n : Nat) : Nat := n % 2 ^ 64

/-- The conversion `(int)x` of a `size_t`. -/
def intOfSize (x : Nat) : Int := Int.bmod x (2 ^ 32)

/-- `png_image_buf_t` after a successful load: 8 bits for each channel, RGB or
RGBA, `height` rows of `width * channels` bytes. -/
structure PngImageBuf where
  width : UInt32
  height : UInt32
  channels : Nat
  rows : List Bytes
  channels_eq : channels = 3 ∨ channels = 4
  rows_length : rows.length = height.toNat
  row_length : ∀ row ∈ rows, row.length = width.toNat * channels
  deriving DecidableEq

theorem rgb_channels : 3 = 3 ∨ 3 = 4 := .inl rfl

/-- `width * channels` fits in `int`, as libpng's default size limits guarantee. -/
def PngImageBuf.RowFitsInt (img : PngImageBuf) : Prop :=
  img.width.toNat * img.channels < 2 ^ 31

instance (img : PngImageBuf) : Decidable img.RowFitsInt := by
  unfold PngImageBuf.RowFitsInt
  infer_instance

def dataChannels (channels : Nat) : Nat := if channels = 4 then 3 else channels

def imageDataBitCapacity (img : PngImageBuf) : Nat :=
  let pixels := sizeT (img.width.toNat * img.height.toNat)
  sizeT (pixels * dataChannels img.channels)

/-- `%` on `int` truncates towards zero. -/
def isDataChannel (channels : Nat) (ch_index : Int) : Bool :=
  !(channels == 4 && ch_index.tmod 4 == 3)

/-- The inner loop of `embed_bits` from column `x` on: the row and the bit index
it leaves. -/
def embedRow (channels : Nat) (data : Bytes) (total : Nat) : Nat → Nat → Bytes → Bytes × Nat
  | _, bit_index, [] => ([], bit_index)
  | x, bit_index, px :: row =>
    if bit_index < total then
      if isDataChannel channels (intOfSize x) then
        let r := embedRow channels data total (x + 1) (bit_index + 1) row
        (setLow px (bitByte data bit_index) :: r.1, r.2)
      else
        let r := embedRow channels data total (x + 1) bit_index row
        (px :: r.1, r.2)
    else (px :: row, bit_index)

/-- The outer loop of `embed_bits`. -/
def embedRows (channels : Nat) (data : Bytes) (total : Nat) : Nat → List Bytes → List Bytes
  | _, [] => []
  | bit_index, row :: rows =>
    if bit_index < total then
      let r := embedRow channels data total 0 bit_index row
      r.1 :: embedRows channels data total r.2 rows
    else row :: rows

/-- The inner loop of `extract_bits` from column `x` on. -/
def extractRow (channels total : Nat) : Nat → Nat → Bytes → Bytes → Bytes × Nat
  | _, bit_index, buf, [] => (buf, bit_index)
  | x, bit_index, buf, px :: row =>
    if bit_index < total then
      if isDataChannel channels (intOfSize x) then
        extractRow channels total (x + 1) (bit_index + 1) (orBit buf bit_index (px &&& 1)) row
      else extractRow channels total (x + 1) bit_index buf row
    else (buf, bit_index)

/-- The outer loop of `extract_bits`. -/
def extractRows (channels total : Nat) : Nat → Bytes → List Bytes → Bytes
  | _, buf, [] => buf
  | bit_index, buf, row :: rows =>
    if bit_index < total then
      let r := extractRow channels total 0 bit_index buf row
      extractRows channels total r.2 r.1 rows
    else buf

def extractBits (img : PngImageBuf) (len_bytes : Nat) : Bytes :=
  extractRows img.channels (sizeT (len_bytes * 8)) 0 (List.replicate len_bytes 0) img.rows

/-! The carriers of a row are its bytes that the walk does not skip. -/

def rowCarriers (channels : Nat) : Nat → Bytes → Bytes
  | _, [] => []
  | x, px :: row =>
    if isDataChannel channels (intOfSize x) then px :: rowCarriers channels (x + 1) row
    else rowCarriers channels (x + 1) row

def rowsCarriers (channels : Nat) (rows : List Bytes) : Bytes :=
  rows.flatMap (rowCarriers channels 0)

def PngImageBuf.carriers (img : PngImageBuf) : Bytes := rowsCarriers img.channels img.rows

theorem embedRow_length (channels : Nat) (data : Bytes) (total x bit_index : Nat) (row : Bytes) :
    (embedRow channels data total x bit_index row).1.length = row.length := by
  induction row generalizing x bit_index with
  | nil => rfl
  | cons px row ih =>
    simp only [embedRow]
    split
    · split <;> simp [ih]
    · rfl

theorem embedRow_carriers (channels : Nat) (data : Bytes) (total x bit_index : Nat) (row : Bytes) :
    rowCarriers channels x (embedRow channels data total x bit_index row).1 =
      overlay data total bit_index (rowCarriers channels x row) := by
  induction row generalizing x bit_index with
  | nil => rfl
  | cons px row ih =>
    by_cases hb : bit_index < total
    · by_cases hd : isDataChannel channels (intOfSize x) = true
      · simp [embedRow, rowCarriers, overlay, hb, hd, ih]
      · simp [embedRow, rowCarriers, hb, hd, ih]
    · simp [embedRow, hb, overlay_of_le data (Nat.le_of_not_lt hb)]

theorem embedRow_index (channels : Nat) (data : Bytes) {total bit_index : Nat} (x : Nat)
    (row : Bytes) (h : bit_index ≤ total) :
    (embedRow channels data total x bit_index row).2 =
      min total (bit_index + (rowCarriers channels x row).length) := by
  induction row generalizing x bit_index with
  | nil => simp [embedRow, rowCarriers, h]
  | cons px row ih =>
    by_cases hb : bit_index < total
    · by_cases hd : isDataChannel channels (intOfSize x) = true
      · simp only [embedRow, rowCarriers, hb, hd, if_true, List.length_cons]
        rw [ih (x + 1) (show bit_index + 1 ≤ total by omega)]
        omega
      · simpa [embedRow, rowCarriers, hb, hd] using ih (x + 1) h
    · simp only [embedRow, hb, if_false]
      omega

theorem embedRows_length (channels : Nat) (data : Bytes) (total bit_index : Nat)
    (rows : List Bytes) :
    (embedRows channels data total bit_index rows).length = rows.length := by
  induction rows generalizing bit_index with
  | nil => rfl
  | cons row rows ih =>
    simp only [embedRows]
    split <;> simp [ih]

theorem embedRows_row_length {channels n : Nat} (data : Bytes) (total bit_index : Nat)
    {rows : List Bytes} (h : ∀ row ∈ rows, row.length = n) :
    ∀ row ∈ embedRows channels data total bit_index rows, row.length = n := by
  induction rows generalizing bit_index with
  | nil => simp [embedRows]
  | cons row rows ih =>
    have hrow := h row (by simp)
    have hrows := fun r hr => h r (List.mem_cons_of_mem _ hr)
    simp only [embedRows]
    split
    · intro r hr
      rcases List.mem_cons.mp hr with rfl | hr
      · rw [embedRow_length, hrow]
      · exact ih _ hrows r hr
    · exact h

theorem embedRows_carriers (channels : Nat) (data : Bytes) {total : Nat} (bit_index : Nat)
    (rows : List Bytes) (h : bit_index ≤ total) :
    rowsCarriers channels (embedRows channels data total bit_index rows) =
      overlay data total bit_index (rowsCarriers channels rows) := by
  induction rows generalizing bit_index with
  | nil => rfl
  | cons row rows ih =>
    by_cases hb : bit_index < total
    · have hi := embedRow_index channels data 0 row h
      have hr := ih (embedRow channels data total 0 bit_index row).2 (by omega)
      simp only [embedRows, hb, if_true, rowsCarriers, List.flatMap_cons] at hr ⊢
      rw [embedRow_carriers, overlay_append, hr, hi]
      by_cases hle : total ≤ bit_index + (rowCarriers channels 0 row).length
      · rw [min_eq_left hle, overlay_of_le data (le_refl total), overlay_of_le data hle]
      · rw [min_eq_right (by omega)]
    · simp [embedRows, hb, overlay_of_le data (Nat.le_of_not_lt hb)]

/-- `embed_bits`: the image afterwards. -/
def embedBits (img : PngImageBuf) (data : Bytes) : PngImageBuf where
  width := img.width
  height := img.height
  channels := img.channels
  rows := embedRows img.channels data (sizeT (data.length * 8)) 0 img.rows
  channels_eq := img.channels_eq
  rows_length := (embedRows_length _ _ _ _ _).trans img.rows_length
  row_length := embedRows_row_length _ _ _ img.row_length

theorem embedBits_carriers (img : PngImageBuf) (data : Bytes) :
    (embedBits img data).carriers = overlay data (sizeT (data.length * 8)) 0 img.carriers :=
  embedRows_carriers img.channels data 0 img.rows (Nat.zero_le _)

theorem embedRow_eq_self {channels : Nat} {data : Bytes} {total x bit_index : Nat} {row : Bytes}
    (h : overlay data total bit_index (rowCarriers channels x row) = rowCarriers channels x row) :
    (embedRow channels data total x bit_index row).1 = row := by
  induction row generalizing x bit_index with
  | nil => rfl
  | cons px row ih =>
    by_cases hb : bit_index < total
    · by_cases hd : isDataChannel channels (intOfSize x) = true
      · rw [rowCarriers, if_pos hd, overlay, if_pos hb] at h
        obtain ⟨hhead, hrest⟩ := List.cons.inj h
        simp only [embedRow, hb, hd, if_true, hhead, ih hrest]
      · rw [rowCarriers, if_neg hd] at h
        simp only [embedRow, hb, hd, if_true, if_false, Bool.false_eq_true, ih h]
    · simp only [embedRow, hb, if_false]

theorem embedRows_eq_self {channels : Nat} {data : Bytes} {total bit_index : Nat}
    {rows : List Bytes} (hle : bit_index ≤ total)
    (h : overlay data total bit_index (rowsCarriers channels rows) = rowsCarriers channels rows) :
    embedRows channels data total bit_index rows = rows := by
  induction rows generalizing bit_index with
  | nil => rfl
  | cons row rows ih =>
    by_cases hb : bit_index < total
    · have hi := embedRow_index channels data 0 row hle
      simp only [rowsCarriers, List.flatMap_cons, overlay_append] at h ih
      obtain ⟨hhead, hrest⟩ := List.append_inj h (length_overlay _ _ _ _)
      have htail := @ih (embedRow channels data total 0 bit_index row).2 (by omega) <| by
        rw [hi]
        by_cases hfull : total ≤ bit_index + (rowCarriers channels 0 row).length
        · rw [min_eq_left hfull, overlay_of_le data (le_refl total)]
        · rw [min_eq_right (by omega), hrest]
      simp only [embedRows, hb, if_true, embedRow_eq_self hhead, htail]
    · simp only [embedRows, hb, if_false]

theorem embedBits_eq_self {img : PngImageBuf} {data : Bytes}
    (h : overlay data (sizeT (data.length * 8)) 0 img.carriers = img.carriers) :
    embedBits img data = img := by
  cases img
  simp only [embedBits, PngImageBuf.mk.injEq, true_and]
  exact embedRows_eq_self (Nat.zero_le _) h

theorem extractRow_eq (channels : Nat) {total bit_index : Nat} (x : Nat) (buf row : Bytes)
    (h : bit_index ≤ total) :
    extractRow channels total x bit_index buf row =
      (gather total bit_index buf (rowCarriers channels x row),
        min total (bit_index + (rowCarriers channels x row).length)) := by
  induction row generalizing x bit_index buf with
  | nil => simp [extractRow, rowCarriers, gather, h]
  | cons px row ih =>
    by_cases hb : bit_index < total
    · by_cases hd : isDataChannel channels (intOfSize x) = true
      · have hh := ih (x + 1) (orBit buf bit_index (px &&& 1)) (show bit_index + 1 ≤ total by omega)
        simp only [extractRow, rowCarriers, gather, hb, hd, if_true, hh, List.length_cons]
        rw [Nat.add_assoc, Nat.add_comm 1]
      · simpa [extractRow, rowCarriers, hb, hd] using ih (x + 1) buf h
    · have he : bit_index = total := by omega
      simp [extractRow, he, gather_of_le (le_refl total)]

theorem extractRows_eq (channels : Nat) {total : Nat} (bit_index : Nat) (buf : Bytes)
    (rows : List Bytes) (h : bit_index ≤ total) :
    extractRows channels total bit_index buf rows =
      gather total bit_index buf (rowsCarriers channels rows) := by
  induction rows generalizing bit_index buf with
  | nil => rfl
  | cons row rows ih =>
    by_cases hb : bit_index < total
    · have hr := ih (min total (bit_index + (rowCarriers channels 0 row).length))
        (gather total bit_index buf (rowCarriers channels 0 row)) (by omega)
      simp only [extractRows, hb, if_true, extractRow_eq channels 0 buf row h, rowsCarriers,
        List.flatMap_cons, gather_append] at hr ⊢
      rw [hr]
      by_cases hle : total ≤ bit_index + (rowCarriers channels 0 row).length
      · rw [min_eq_left hle, gather_of_le (le_refl total), gather_of_le hle]
      · rw [min_eq_right (by omega)]
    · simp [extractRows, hb, gather_of_le (Nat.le_of_not_lt hb)]

theorem extractBits_eq (img : PngImageBuf) {n : Nat} (hn : n * 8 < 2 ^ 64) :
    extractBits img n = pack n (img.carriers.map lowBit) := by
  rw [extractBits, extractRows_eq _ 0 _ _ (Nat.zero_le _), sizeT, Nat.mod_eq_of_lt hn,
    Nat.mul_comm n 8]
  exact gather_zero n img.carriers

/-! Counting the carriers of an image whose row index fits in `int`. -/

theorem intOfSize_eq {x : Nat} (h : x < 2 ^ 31) : intOfSize x = x :=
  Int.bmod_eq_of_le (by omega) (by omega)

theorem isDataChannel_iff {x channels : Nat} (h : x < 2 ^ 31) :
    isDataChannel channels (intOfSize x) = !(decide (channels = 4) && decide (x % 4 = 3)) := by
  have hm : (x : Int).tmod 4 = ((x % 4 : Nat) : Int) := by
    rw [Int.tmod_eq_emod_of_nonneg (by omega)]
    rfl
  rw [intOfSize_eq h, isDataChannel, hm]
  congr 2
  rw [show ((3 : Int)) = ((3 : Nat) : Int) from rfl, Bool.beq_eq_decide_eq]
  exact decide_eq_decide.mpr Int.natCast_inj

theorem rowCarriers_rgb {channels : Nat} (h : channels ≠ 4) (x : Nat) (row : Bytes) :
    rowCarriers channels x row = row := by
  induction row generalizing x with
  | nil => rfl
  | cons px row ih => simp [rowCarriers, isDataChannel, h, ih]

theorem dataChannels_eq (img : PngImageBuf) : dataChannels img.channels = 3 := by
  rcases img.channels_eq with hc | hc <;> rw [hc] <;> rfl

theorem imageDataBitCapacity_eq {img : PngImageBuf} (hfit : img.RowFitsInt) :
    imageDataBitCapacity img = img.width.toNat * img.height.toNat * dataChannels img.channels ∧
      imageDataBitCapacity img < 2 ^ 63 := by
  have hd := dataChannels_eq img
  have hh := img.height.toNat_lt
  have hw : img.width.toNat * 3 < 2 ^ 31 := by
    unfold PngImageBuf.RowFitsInt at hfit
    rcases img.channels_eq with h | h <;> rw [h] at hfit <;> omega
  have hprod : img.width.toNat * 3 * img.height.toNat < 2 ^ 31 * 2 ^ 32 :=
    Nat.mul_lt_mul'' hw hh
  have hring : img.width.toNat * 3 * img.height.toNat = img.width.toNat * img.height.toNat * 3 := by
    ring
  simp only [imageDataBitCapacity, sizeT, hd]
  rw [Nat.mod_eq_of_lt (show img.width.toNat * img.height.toNat < 2 ^ 64 by omega),
    Nat.mod_eq_of_lt (by omega)]
  exact ⟨rfl, by omega⟩

/-! Rows too long for `int`: the walk may take an alpha byte for a data channel,
never the other way round. -/

theorem isDataChannel_of_ne {x channels : Nat} (h : x % 4 ≠ 3) :
    isDataChannel channels (intOfSize x) = true := by
  have hdvd : (4 : Int) ∣ intOfSize x - x :=
    Int.dvd_trans ⟨2 ^ 30, by norm_num⟩ (Int.dvd_bmod_sub_self (x := x) (m := 2 ^ 32))
  have hne : (intOfSize x).tmod 4 ≠ 3 := by
    intro h3
    have hdiv := Int.mul_tdiv_add_tmod (intOfSize x) 4
    omega
  simp [isDataChannel, hne]

theorem rowCarriers_rgba_le {w x : Nat} {row : Bytes} (hrow : row.length = 4 * w) (hx : x % 4 = 0) :
    3 * w ≤ (rowCarriers 4 x row).length := by
  induction w generalizing x row with
  | zero => exact Nat.zero_le _
  | succ w ih =>
    match row, hrow with
    | r :: g :: b :: a :: rest, hrow =>
      have hrest : rest.length = 4 * w := by simp only [List.length_cons] at hrow; omega
      have h0 : isDataChannel 4 (intOfSize x) = true := isDataChannel_of_ne (by omega)
      have h1 : isDataChannel 4 (intOfSize (x + 1)) = true := isDataChannel_of_ne (by omega)
      have h2 : isDataChannel 4 (intOfSize (x + 1 + 1)) = true := isDataChannel_of_ne (by omega)
      have hi := @ih (x + 1 + 1 + 1 + 1) rest hrest (by omega)
      rw [rowCarriers, if_pos h0, rowCarriers, if_pos h1, rowCarriers, if_pos h2, rowCarriers]
      split
      · simp only [List.length_cons]
        omega
      · simp only [List.length_cons]
        omega

/-- The walk visits at least as many carriers as `image_data_bit_capacity` promises,
whatever the dimensions. -/
theorem capacity_le_carriers (img : PngImageBuf) :
    imageDataBitCapacity img ≤ img.carriers.length := by
  have hdata := dataChannels_eq img
  have hrow : ∀ row ∈ img.rows, 3 * img.width.toNat ≤ (rowCarriers img.channels 0 row).length := by
    intro row hmem
    have hl := img.row_length row hmem
    rcases img.channels_eq with hc | hc
    · rw [rowCarriers_rgb (by omega), hl, hc, Nat.mul_comm]
    · rw [hc] at hl ⊢
      exact rowCarriers_rgba_le (by omega) rfl
  have hsum : ∀ rows : List Bytes, (∀ row ∈ rows, row ∈ img.rows) →
      rows.length * (3 * img.width.toNat) ≤ (rowsCarriers img.channels rows).length := by
    intro rows hrows
    induction rows with
    | nil => simp [rowsCarriers]
    | cons row rows ih =>
      have hrest := ih fun r hr => hrows r (List.mem_cons_of_mem _ hr)
      have hhead := hrow row (hrows row List.mem_cons_self)
      simp only [rowsCarriers, List.flatMap_cons, List.length_append, List.length_cons] at hrest ⊢
      rw [Nat.succ_mul]
      omega
  calc imageDataBitCapacity img
      ≤ sizeT (img.width.toNat * img.height.toNat) * dataChannels img.channels := Nat.mod_le _ _
    _ ≤ img.width.toNat * img.height.toNat * dataChannels img.channels :=
      Nat.mul_le_mul_right _ (Nat.mod_le _ _)
    _ = img.rows.length * (3 * img.width.toNat) := by rw [hdata, img.rows_length]; ring
    _ ≤ img.carriers.length := hsum img.rows fun _ h => h

theorem imageDataBitCapacity_lt (img : PngImageBuf) : imageDataBitCapacity img < 2 ^ 64 :=
  Nat.mod_lt _ (Nat.two_pow_pos 64)

theorem flatten_rows_length (img : PngImageBuf) :
    img.rows.flatten.length = img.height.toNat * (img.width.toNat * img.channels) := by
  rw [List.length_flatten, List.map_congr_left img.row_length, List.map_const', List.sum_replicate,
    img.rows_length]
  rfl

theorem embedBits_capacity (img : PngImageBuf) (data : Bytes) :
    imageDataBitCapacity (embedBits img data) = imageDataBitCapacity img := rfl

theorem extractBits_embedBits {img : PngImageBuf} {data : Bytes} {n : Nat}
    (hcap : data.length * 8 ≤ imageDataBitCapacity img) (hn : n ≤ data.length) :
    extractBits (embedBits img data) n = data.take n := by
  have hlt := imageDataBitCapacity_lt img
  have hcarriers := capacity_le_carriers img
  rw [extractBits_eq _ (by omega), embedBits_carriers, sizeT, Nat.mod_eq_of_lt (by omega)]
  rw [← take_pack _ hn]
  congr 1
  apply pack_eq
  intro k hk
  have hc : k < img.carriers.length ∧ 0 + k < data.length * 8 := by omega
  rw [lowBit_overlay, if_pos hc, Nat.zero_add]

end StegaPng
