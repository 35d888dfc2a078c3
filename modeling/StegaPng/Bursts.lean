import Mathlib.Order.Interval.Finset.Nat
import StegaPng.CapacityCheck

/-! Flipped carriers: which errors in a hidden container the checksum finds. -/

namespace StegaPng

open BitPacking ReflectedCrc

/-! Walks that replace the `k`th carrier `c` by `f k c`. -/

def mapRow (channels : Nat) (f : Nat → UInt8 → UInt8) : Nat → Nat → Bytes → Bytes × Nat
  | _, bit_index, [] => ([], bit_index)
  | x, bit_index, px :: row =>
    if isDataChannel channels (intOfSize x) then
      let r := mapRow channels f (x + 1) (bit_index + 1) row
      (f bit_index px :: r.1, r.2)
    else
      let r := mapRow channels f (x + 1) bit_index row
      (px :: r.1, r.2)

def mapRows (channels : Nat) (f : Nat → UInt8 → UInt8) : Nat → List Bytes → List Bytes
  | _, [] => []
  | bit_index, row :: rows =>
    let r := mapRow channels f 0 bit_index row
    r.1 :: mapRows channels f r.2 rows

section

variable {channels : Nat} {f : Nat → UInt8 → UInt8}

theorem mapRow_length (x bit_index : Nat) (row : Bytes) :
    (mapRow channels f x bit_index row).1.length = row.length := by
  induction row generalizing x bit_index with
  | nil => rfl
  | cons px row ih =>
    simp only [mapRow]
    split <;> simp [ih]

theorem mapRow_carriers (x bit_index : Nat) (row : Bytes) :
    rowCarriers channels x (mapRow channels f x bit_index row).1 =
        (rowCarriers channels x row).mapIdx (fun i => f (bit_index + i)) ∧
      (mapRow channels f x bit_index row).2 = bit_index + (rowCarriers channels x row).length := by
  induction row generalizing x bit_index with
  | nil => exact ⟨rfl, rfl⟩
  | cons px row ih =>
    by_cases hd : isDataChannel channels (intOfSize x) = true
    · obtain ⟨hcarriers, hindex⟩ := ih (x + 1) (bit_index + 1)
      have hshift : (fun i => f (bit_index + (i + 1))) = fun i => f (bit_index + 1 + i) := by
        funext i
        rw [show bit_index + (i + 1) = bit_index + 1 + i by omega]
      simp only [mapRow, hd, if_true, rowCarriers, hcarriers, hindex, List.mapIdx_cons,
        List.length_cons, hshift, Nat.add_zero]
      exact ⟨trivial, by omega⟩
    · simp only [mapRow, hd, if_false, Bool.false_eq_true, rowCarriers]
      exact ih (x + 1) bit_index

theorem mapRows_length (bit_index : Nat) (rows : List Bytes) :
    (mapRows channels f bit_index rows).length = rows.length := by
  induction rows generalizing bit_index with
  | nil => rfl
  | cons row rows ih => simp [mapRows, ih]

theorem mapRows_row_length {n : Nat} {rows : List Bytes} (h : ∀ row ∈ rows, row.length = n)
    (bit_index : Nat) :
    ∀ row ∈ mapRows channels f bit_index rows, row.length = n := by
  induction rows generalizing bit_index with
  | nil => simp [mapRows]
  | cons row rows ih =>
    intro r hr
    rcases List.mem_cons.mp hr with rfl | hr
    · rw [mapRow_length, h row List.mem_cons_self]
    · exact ih (fun r hr => h r (List.mem_cons_of_mem _ hr)) _ r hr

theorem mapRows_carriers (bit_index : Nat) (rows : List Bytes) :
    rowsCarriers channels (mapRows channels f bit_index rows) =
      (rowsCarriers channels rows).mapIdx (fun i => f (bit_index + i)) := by
  induction rows generalizing bit_index with
  | nil => rfl
  | cons row rows ih =>
    obtain ⟨hcarriers, hindex⟩ := @mapRow_carriers channels f 0 bit_index row
    have hrest := ih (mapRow channels f 0 bit_index row).2
    have hshift : (fun i => f (bit_index + (i + (rowCarriers channels 0 row).length))) =
        fun i => f (bit_index + (rowCarriers channels 0 row).length + i) := by
      funext i
      rw [show bit_index + (i + (rowCarriers channels 0 row).length) =
        bit_index + (rowCarriers channels 0 row).length + i by omega]
    simp only [rowsCarriers, mapRows, List.flatMap_cons] at hrest ⊢
    rw [hcarriers, hrest, hindex, List.mapIdx_append, hshift]

end

/-- The image with the low bits of the carriers at the positions of `F` flipped. -/
def PngImageBuf.flip (img : PngImageBuf) (F : Finset Nat) : PngImageBuf where
  width := img.width
  height := img.height
  channels := img.channels
  rows := mapRows img.channels (fun k c => if k ∈ F then c ^^^ 1 else c) 0 img.rows
  channels_eq := img.channels_eq
  rows_length := (mapRows_length 0 img.rows).trans img.rows_length
  row_length := mapRows_row_length img.row_length 0

theorem lowBit_flip (c : UInt8) : lowBit (c ^^^ 1) = !lowBit c := by
  rw [lowBit, lowBit, UInt8.toNat_xor, Nat.testBit_xor]
  simp

theorem bitAt_flip (img : PngImageBuf) (F : Finset Nat) {k : Nat}
    (hk : k < 8 * (carrierBytes img).length) :
    bitAt (carrierBytes (img.flip F)) k = xor (bitAt (carrierBytes img) k) (decide (k ∈ F)) := by
  have hlen := carrierBytes_length img
  have hle := capacity_le_carriers img
  have hcarrier : k < img.carriers.length := by omega
  have hcarriers : (img.flip F).carriers = img.carriers.mapIdx fun i c => if 0 + i ∈ F then
    c ^^^ 1 else c :=
    mapRows_carriers 0 img.rows
  have hcapacity : imageDataBitCapacity (img.flip F) = imageDataBitCapacity img := rfl
  rw [carrierBytes, carrierBytes, bitAt_pack _ (by rw [hcapacity]; omega),
    bitAt_pack _ (by omega), hcarriers]
  simp only [List.getD_eq_getElem?_getD, List.getElem?_map, List.getElem?_mapIdx, Nat.zero_add,
    List.getElem?_eq_getElem hcarrier, Option.map_some, Option.getD_some]
  by_cases hF : k ∈ F
  · rw [if_pos hF, lowBit_flip, decide_eq_true hF, Bool.xor_true]
  · rw [if_neg hF, decide_eq_false hF, Bool.xor_false]

/-! The checksum reads the bits in the order the carriers hold them. -/

theorem bits_length (data : Bytes) : (bits data).length = 8 * data.length := by
  induction data with
  | nil => rfl
  | cons b data ih =>
    have hbits : bits (b :: data) = byteBits b ++ bits data := rfl
    rw [hbits, List.length_append, ih, List.length_cons]
    simp only [byteBits, List.length_map, List.length_range]
    omega

theorem bits_getD (data : Bytes) (k : Nat) : (bits data).getD k false = bitAt data k := by
  induction data generalizing k with
  | nil => simp [bits, bitAt]
  | cons b data ih =>
    have hbits : bits (b :: data) = byteBits b ++ bits data := rfl
    have hlen : (byteBits b).length = 8 := by simp [byteBits]
    rw [hbits]
    by_cases hk : k < 8
    · rw [List.getD_append _ _ _ _ (by omega), bitAt, Nat.div_eq_of_lt hk, Nat.mod_eq_of_lt hk]
      simp [byteBits, hk]
    · have hdiv : k / 8 = (k - 8) / 8 + 1 := by omega
      have hmod : k % 8 = (k - 8) % 8 := by omega
      rw [List.getD_append_right _ _ _ _ (by omega), hlen, ih, bitAt, bitAt, hdiv, hmod,
        List.getD_cons_succ]

/-- A burst of at most 32 bits changes the checksum. -/
theorem crc32_ne_of_burst {x y : Bytes} {start : Nat} (hlen : x.length = y.length)
    (hdiffer : ∃ k, bitAt x k ≠ bitAt y k)
    (hburst : ∀ k, bitAt x k ≠ bitAt y k → start ≤ k ∧ k < start + 32) :
    crc32 x ≠ crc32 y := by
  have hbits : (bits x).length = (bits y).length := by rw [bits_length, bits_length, hlen]
  simp only [← bits_getD] at hdiffer hburst
  have hpoly : crc32Polynomial.toNat.testBit 31 = true := by decide
  have hregister := burst_changes_register hpoly 0xFFFFFFFF hbits hdiffer hburst
  exact fun hsame => hregister ((UInt32.xor_left_inj _).mp hsame)

/-! Containers that differ behind their fields. -/

theorem framed_congr {B B' : Bytes} (hlen : B'.length = B.length) (h : Framed B)
    (hheader : B'.take 7 = B.take 7)
    (hfield : (B'.drop (7 + nameLenField B)).take 4 = (B.drop (7 + nameLenField B)).take 4) :
    Framed B' ∧ nameLenField B' = nameLenField B ∧ checkedLen B' = checkedLen B := by
  have hslice : ∀ B : Bytes, (B.drop 5).take 2 = (B.take 7).drop 5 :=
    fun B => by rw [List.drop_take]
  have hname : nameLenField B' = nameLenField B := by
    rw [nameLenField, nameLenField, hslice, hslice, hheader]
  have hpay : payloadLenField B' = payloadLenField B := by
    rw [payloadLenField, payloadLenField, hname, hfield]
  have hmagic : B'.take 4 = B.take 4 := by
    have hcut : ∀ B : Bytes, B.take 4 = (B.take 7).take 4 := fun B => by rw [List.take_take]; rfl
    rw [hcut, hcut B, hheader]
  have htype : B'.getD 4 0 = B.getD 4 0 := by
    have hcut : ∀ B : Bytes, B.getD 4 0 = (B.take 7).getD 4 0 := fun B => by simp
    rw [hcut, hcut B, hheader]
  refine ⟨⟨?_, ?_, ?_, ?_, ?_⟩, hname, by rw [checkedLen, checkedLen, hname, hpay]⟩
  · rw [hlen]
    exact h.room
  · rw [hmagic]
    exact h.magic
  · rw [htype]
    exact h.type
  · rw [hlen, hname]
    exact h.name_fits
  · rw [hlen, hname, hpay]
    exact h.payload_fits

/-- Flips in at most 32 consecutive embedded bits, all in the name bytes or all in the
payload bytes of a container. -/
structure Burst (type : StegoPayloadType) (filename : Option Bytes) (payload : Bytes)
    (F : Finset Nat) : Prop where
  nonempty : F.Nonempty
  window : ∃ start, ∀ k ∈ F, start ≤ k ∧ k < start + 32
  inside : (∀ k ∈ F, 8 * 7 ≤ k ∧ k < 8 * (7 + storedNameLen type filename)) ∨
    ∀ k ∈ F, 8 * (11 + storedNameLen type filename) ≤ k ∧
      k < 8 * (11 + storedNameLen type filename + payload.length)

/-- The decoder reports a bad checksum, and no shortage of memory makes it accept. -/
def Detected (img : PngImageBuf) : Prop :=
  (stegoDecode (fun _ _ => true) (.ok img)).1 = .errCrc ∧ ∀ malloc,
    (stegoDecode malloc (.ok img)).1 ≠ .ok

theorem detected_iff {img : PngImageBuf} (h : Framed (carrierBytes img)) :
    Detected img ↔ ¬ ChecksumOk (carrierBytes img) := by
  have hdecode : stegoDecode (fun _ _ => true) (.ok img) = _ :=
    decodeImage_of_framed (fun _ _ => rfl) h
  constructor
  · intro hdetected hcrc
    rw [Detected, hdecode, if_pos hcrc] at hdetected
    cases hdetected.1
  · intro hcrc
    rw [if_neg hcrc] at hdecode
    refine ⟨by rw [hdecode], fun malloc hok => ?_⟩
    have hgood := (stegoDecode_ok (Prod.ext hok rfl : stegoDecode malloc (.ok img) = (.ok, _))).1
    rw [hdecode] at hgood
    exact absurd (Prod.mk.inj hgood).1 (by decide)

section

variable {img : PngImageBuf} {type : StegoPayloadType} {filename : Option Bytes} {payload : Bytes}

theorem carrierBytes_flip_length (img : PngImageBuf) (F : Finset Nat) :
    (carrierBytes (img.flip F)).length = (carrierBytes img).length := by
  rw [carrierBytes_length, carrierBytes_length]
  rfl

theorem slice_flip {F : Finset Nat} {a n : Nat} (h : ∀ k ∈ F, k < 8 * a ∨ 8 * (a + n) ≤ k) :
    ((carrierBytes (img.flip F)).drop a).take n = ((carrierBytes img).drop a).take n := by
  refine slice_eq (carrierBytes_flip_length img F) fun k hlow hhigh hlt => ?_
  have hout : k ∉ F := by
    intro hk
    have hside := h k hk
    omega
  rw [bitAt_flip img F hlt, decide_eq_false hout, Bool.xor_false]

theorem take_flip {F : Finset Nat} {n : Nat} (h : ∀ k ∈ F, 8 * n ≤ k) :
    (carrierBytes (img.flip F)).take n = (carrierBytes img).take n := by
  have hslice : ((carrierBytes (img.flip F)).drop 0).take n = _ :=
    slice_flip fun k hk => .inr (by have hk' := h k hk; omega)
  rw [List.drop_zero, List.drop_zero] at hslice
  exact hslice

theorem burst_detected (hlen : payload.length < 2 ^ 32)
    (hcap : (containerOf type filename payload).length * 8 ≤ imageDataBitCapacity img)
    {F : Finset Nat} (hF : Burst type filename payload F) :
    Detected ((embedBits img (containerOf type filename payload)).flip F) := by
  have hB := carrierBytes_embedBits hcap
  generalize embedBits img (containerOf type filename payload) = out at hB ⊢
  obtain ⟨hframed, hcrc⟩ := containerOf_framed hlen hB
  have hname := containerOf_nameLenField hB
  have hpay := containerOf_payloadLenField hlen hB
  have hchecked : checkedLen (carrierBytes out) = 11 + storedNameLen type filename +
    payload.length := by
    rw [checkedLen, hname, hpay]
  have hroom : checkedLen (carrierBytes out) + 4 ≤ (carrierBytes out).length := by
    have hfits := hframed.payload_fits
    omega
  obtain ⟨start, hwindow⟩ := hF.window
  have hplace : ∀ k ∈ F, 56 ≤ k ∧ (k < 8 * (7 + storedNameLen type filename) ∨
    8 * (11 + storedNameLen type filename) ≤ k) ∧
      k < 8 * checkedLen (carrierBytes out) := by
    intro k hk
    rcases hF.inside with hin | hin
    · have hkin := hin k hk
      omega
    · have hkin := hin k hk
      omega
  have hheader : (carrierBytes (out.flip F)).take 7 = _ := take_flip fun k hk => (hplace k hk).1
  have hfield : ((carrierBytes (out.flip F)).drop (7 + nameLenField (carrierBytes out))).take 4 =
    _ :=
    slice_flip fun k hk => by
      have hk' := hplace k hk
      rw [hname]
      omega
  have hsum : ((carrierBytes (out.flip F)).drop (checkedLen (carrierBytes out))).take 4 = _ :=
    slice_flip fun k hk => .inl (hplace k hk).2.2
  obtain ⟨hframed', -, hchecked'⟩ :=
    framed_congr (carrierBytes_flip_length out F) hframed hheader hfield
  refine (detected_iff hframed').mpr fun hcrc' => ?_
  rw [ChecksumOk] at hcrc
  rw [ChecksumOk, hchecked', hsum, ← hcrc, UInt32.toNat_inj] at hcrc'
  have hbit : ∀ k, bitAt ((carrierBytes (out.flip F)).take (checkedLen (carrierBytes out))) k ≠
      bitAt ((carrierBytes out).take (checkedLen (carrierBytes out))) k ↔ k ∈ F := by
    intro k
    by_cases hk : k < 8 * checkedLen (carrierBytes out)
    · rw [bitAt_take hk, bitAt_take hk, bitAt_flip out F (by omega)]
      by_cases hmem : k ∈ F <;> simp [hmem]
    · have hshort : ∀ B : Bytes, 8 * (B.take (checkedLen (carrierBytes out))).length ≤ k := by
        intro B
        have hle := List.length_take_le (checkedLen (carrierBytes out)) B
        omega
      rw [bitAt_of_le (hshort _), bitAt_of_le (hshort _)]
      exact iff_of_false (fun hne => hne rfl) fun hmem => hk (hplace k hmem).2.2
  refine crc32_ne_of_burst ?_ ?_ (fun k hk => hwindow k ((hbit k).mp hk)) hcrc'
  · rw [List.length_take, List.length_take, carrierBytes_flip_length]
  · obtain ⟨k, hk⟩ := hF.nonempty
    exact ⟨k, (hbit k).mpr hk⟩

/-- A length field that has lost its upper bits leaves payload bytes unchecked, and takes
the checksum itself from the payload. -/
theorem burst_undetected (hlen : 2 ^ 32 ≤ payload.length)
    (hcap : (containerOf type filename payload).length * 8 ≤ imageDataBitCapacity img) :
    ∃ F, Burst type filename payload F ∧
      ¬ Detected ((embedBits img (containerOf type filename payload)).flip F) := by
  have hB := carrierBytes_embedBits hcap
  generalize embedBits img (containerOf type filename payload) = out at hB ⊢
  have hname := containerOf_nameLenField hB
  have hpay := containerOf_payloadLenField_mod hB
  obtain ⟨hmagic, htype⟩ := containerOf_type hB
  have hlength : (carrierBytes out).length ≥ 15 + storedNameLen type filename + payload.length := by
    rw [hB, List.length_append, containerOf_length]
    omega
  have hcode : type.code = 0 ∨ type.code = 1 := by cases type <;> decide
  have hless : payload.length % 2 ^ 32 + 4 < payload.length := by omega
  have hframed : Framed (carrierBytes out) :=
    ⟨by omega, hmagic, by rw [htype]; exact hcode, by omega, by omega⟩
  have hchecked : checkedLen (carrierBytes out) = 11 + storedNameLen type filename +
    payload.length % 2 ^ 32 := by
    rw [checkedLen, hname, hpay]
  have hkept : ∀ F : Finset Nat, (∀ k ∈ F, 8 * checkedLen (carrierBytes out) ≤ k) →
      Framed (carrierBytes (out.flip F)) ∧ checkedLen (carrierBytes (out.flip F)) =
        checkedLen (carrierBytes out) ∧
        (carrierBytes (out.flip F)).take (checkedLen (carrierBytes out)) =
          (carrierBytes out).take (checkedLen (carrierBytes out)) := by
    intro F hF
    have hheader : (carrierBytes (out.flip F)).take 7 = _ := take_flip fun k hk => by
      have hk' := hF k hk
      omega
    have hfield : ((carrierBytes (out.flip F)).drop (7 + nameLenField (carrierBytes out))).take 4 =
      _ :=
      slice_flip fun k hk => .inr (by have hk' := hF k hk; omega)
    obtain ⟨hframed', -, hchecked'⟩ :=
      framed_congr (carrierBytes_flip_length out F) hframed hheader hfield
    exact ⟨hframed', hchecked', take_flip hF⟩
  by_cases hcrc : ChecksumOk (carrierBytes out)
  · -- the checksum fits already: a flip behind it goes unseen
    obtain ⟨k, hk⟩ : ∃ k, k = 8 * (checkedLen (carrierBytes out) + 4) := ⟨_, rfl⟩
    have hF : ∀ j ∈ ({k} : Finset Nat), j = k := fun j hj => Finset.mem_singleton.mp hj
    obtain ⟨hframed', hchecked', hbody⟩ := hkept {k} fun j hj => by
      rw [hF j hj]
      omega
    refine ⟨{k}, ⟨⟨k, Finset.mem_singleton_self k⟩, ⟨k, fun j hj => ?_⟩, .inr fun j hj => ?_⟩, ?_⟩
    · rw [hF j hj]
      omega
    · rw [hF j hj]
      omega
    · rw [detected_iff hframed', not_not, ChecksumOk, hchecked', hbody]
      rw [slice_flip fun j hj => .inr (by rw [hF j hj]; omega)]
      exact hcrc
  · -- flips that write the checksum the decoder computes
    obtain ⟨ck, hck⟩ : ∃ ck, ck = checkedLen (carrierBytes out) := ⟨_, rfl⟩
    rw [← hck] at hkept
    obtain ⟨sum, hsum⟩ : ∃ sum, sum = writeBe32 (crc32 ((carrierBytes out).take ck)) := ⟨_, rfl⟩
    have hsumLen : sum.length = 4 := hsum ▸ length_writeBe32 _
    obtain ⟨F, hF⟩ : ∃ F : Finset Nat, ∀ k, k ∈ F ↔
        (8 * ck ≤ k ∧ k < 8 * ck + 32) ∧ bitAt (carrierBytes out) k ≠ bitAt sum (k - 8 * ck) :=
      ⟨(Finset.Ico (8 * ck) (8 * ck + 32)).filter fun k => bitAt (carrierBytes out) k ≠
        bitAt sum (k - 8 * ck),
        fun k => by rw [Finset.mem_filter, Finset.mem_Ico]⟩
    have hslot : ∀ img' : PngImageBuf, (carrierBytes img').length = (carrierBytes out).length →
        (∀ k, 8 * ck ≤ k → k < 8 * ck + 32 → bitAt (carrierBytes img') k = bitAt sum (k - 8 * ck)) →
        ((carrierBytes img').drop ck).take 4 = sum := by
      intro img' hlen' hbits
      have hfour : (((carrierBytes img').drop ck).take 4).length = 4 := by
        rw [List.length_take, List.length_drop]
        omega
      apply ext_bitAt (hfour.trans hsumLen.symm)
      intro k hk
      rw [hfour] at hk
      rw [bitAt_take hk, bitAt_drop, hbits _ (by omega) (by omega),
        show 8 * ck + k - 8 * ck = k by omega]
    obtain ⟨hframed', hchecked', hbody⟩ := hkept F fun k hk => ((hF k).mp hk).1.1
    have hwritten : ((carrierBytes (out.flip F)).drop ck).take 4 = sum := by
      refine hslot _ (carrierBytes_flip_length out F) fun k hlow hhigh => ?_
      rw [bitAt_flip out F (by omega)]
      by_cases hsame : bitAt (carrierBytes out) k = bitAt sum (k - 8 * ck)
      · have hout : k ∉ F := fun hk => ((hF k).mp hk).2 hsame
        rw [decide_eq_false hout, Bool.xor_false, hsame]
      · have hin : k ∈ F := (hF k).mpr ⟨⟨hlow, hhigh⟩, hsame⟩
        rw [decide_eq_true hin, Bool.xor_true]
        exact Bool.not_eq_eq_eq_not.mpr (Bool.eq_not_of_ne hsame)
    refine ⟨F, ⟨?_, ⟨8 * ck, fun k hk => ((hF k).mp hk).1⟩, .inr fun k hk => ?_⟩, ?_⟩
    · by_contra hempty
      have hnone : ∀ k, k ∉ F := fun k hk => hempty ⟨k, hk⟩
      refine hcrc ?_
      have hslot' := hslot out rfl fun k hlow hhigh => not_not.mp fun hne =>
        hnone k ((hF k).mpr ⟨⟨hlow, hhigh⟩, hne⟩)
      rw [ChecksumOk, ← hck, hslot', hsum, beNat_writeBe32]
    · have hk' := ((hF k).mp hk).1
      omega
    · rw [detected_iff hframed', not_not, ChecksumOk, hchecked', hbody, hwritten, hsum,
        beNat_writeBe32]

end

/-- Every burst in the name or the payload of an encoded container is detected exactly
when the length field holds the length of the payload. No object in memory exceeds
the 57 bits of an address. -/
theorem bursts_detected (malloc : Malloc) (img : PngImageBuf) (type : StegoPayloadType)
    (filename : Option Bytes) (payload : Bytes) (hmem : payload.length < 2 ^ 57) (out : PngImageBuf)
    (h : encodeImage malloc img type filename payload = .ok out) :
    (∀ F, Burst type filename payload F → Detected (out.flip F)) ↔ payload.length < 2 ^ 32 := by
  obtain ⟨rfl, hcap⟩ := encodeImage_ok hmem h
  constructor
  · intro hall
    by_contra hlong
    obtain ⟨F, hF, hmissed⟩ := burst_undetected (Nat.le_of_not_lt hlong) hcap
    exact hmissed (hall F hF)
  · intro hlen F hF
    exact burst_detected hlen hcap hF

/-- One flipped bit in the payload `hi`. -/
theorem bursts_detected_blackStrip :
    Detected ((embedBits (blackStrip 64) (containerOf .text none (lit "hi"))).flip {90}) := by
  have hencode : encodeImage (fun _ _ => true) (blackStrip 64) .text none (lit "hi") = _ :=
    encodeImage_of_fits (fun _ _ => rfl) (by rw [containerOf_length]; decide)
  refine (bursts_detected (fun _ _ => true) (blackStrip 64) .text none (lit "hi")
    (by decide) _ hencode).mpr
    (by decide) {90} ⟨⟨90, Finset.mem_singleton_self 90⟩, ⟨90, ?_⟩, .inr ?_⟩
  · intro k hk
    rw [Finset.mem_singleton.mp hk]
    decide
  · intro k hk
    rw [Finset.mem_singleton.mp hk]
    decide

/-- Behind a truncated length field a burst goes unseen. -/
theorem burst_missed :
    ¬ ∀ malloc img type filename payload out,
      encodeImage malloc img type filename payload = .ok out →
      ∀ F, Burst type filename payload F → Detected (out.flip F) := by
  intro hclaim
  have hencode : encodeImage (fun _ _ => true) hugeCarrier .text none hugePayload = _ :=
    encodeImage_of_fits (fun _ _ => rfl) hugePayload_fits
  obtain ⟨F, hF, hmissed⟩ :=
    burst_undetected (Nat.le_of_eq hugePayload_length.symm) hugePayload_fits
  exact hmissed (hclaim _ _ _ _ _ _ hencode F hF)

end StegaPng
