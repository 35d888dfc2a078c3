import StegaPng.Container

/-! The decoder accepts exactly the container grammar. The grammar is stated on
the bytes hidden in the image, without reference to the extraction loops. -/

namespace StegaPng

open BitPacking ReflectedCrc

/-! The checksum and the big-endian fields as numbers. -/

/-- CRC-32 of a byte string, one bit at a time. -/
def crc32 (data : Bytes) : UInt32 := register crc32Polynomial 0xFFFFFFFF data ^^^ 0xFFFFFFFF

/-- The loop of `stego_crc32` from a register on. -/
def crcRegister (c : UInt32) (data : Bytes) : UInt32 :=
  data.foldl (fun c b => crc32Table.getD ((c ^^^ b.toUInt32) &&& (0xFF : UInt32)).toNat 0 ^^^
    (c >>> 8)) c

theorem crcRegister_eq_register (c : UInt32) (data : Bytes) :
    crcRegister c data = register crc32Polynomial c data := by
  have hentry : ∀ (c : UInt32) (b : UInt8),
      crc32Table.getD ((c ^^^ b.toUInt32) &&& (0xFF : UInt32)).toNat 0 =
        tableEntry crc32Polynomial ((c ^^^ b.toUInt32) &&& (0xFF : UInt32)) := by
    intro c b
    have hlt : ((c ^^^ b.toUInt32) &&& (0xFF : UInt32)).toNat < 256 := by
      rw [UInt32.toNat_and]
      exact lt_of_le_of_lt Nat.and_le_right (by decide)
    rw [crc32Table, List.getD_eq_getElem?_getD, List.getElem?_map, List.getElem?_range hlt,
      Option.map_some, Option.getD_some, UInt32.ofNat_toNat]
  rw [crcRegister, register]
  congr 1
  funext c b
  rw [hentry, byteStep_eq_table]

theorem stegoCrc32_eq_crc32 (data : Bytes) : stegoCrc32 data = crc32 data := by
  change crcRegister 0xFFFFFFFF data ^^^ 0xFFFFFFFF = crc32 data
  rw [crcRegister_eq_register, crc32]

/-- The checksum by table is the one that is fed bit by bit, and its register can be
carried from one part of a message to the next. -/
theorem stegoCrc32_bitwise (a b : Bytes) (c : UInt32) :
    stegoCrc32 a = feeds crc32Polynomial 0xFFFFFFFF (bits a) ^^^ 0xFFFFFFFF ∧
      crcRegister c (a ++ b) = crcRegister (crcRegister c a) b ∧
      stegoCrc32 (a ++ b) = crcRegister (crcRegister 0xFFFFFFFF a) b ^^^ 0xFFFFFFFF := by
  have hregister : ∀ c, crcRegister c (a ++ b) = crcRegister (crcRegister c a) b :=
    fun c => List.foldl_append
  refine ⟨?_, hregister c, ?_⟩
  · rw [stegoCrc32_eq_crc32, crc32, register_eq_feeds]
  · change crcRegister 0xFFFFFFFF (a ++ b) ^^^ 0xFFFFFFFF = _
    rw [hregister]

/-- The number a big-endian field holds. -/
def beNat (bs : Bytes) : Nat := bs.foldl (fun n b => 256 * n + b.toNat) 0

theorem shiftLeft_or_byte {x b : Nat} (hb : b < 2 ^ 8) : x <<< 8 ||| b = 256 * x + b := by
  rw [← Nat.shiftLeft_add_eq_or_of_lt hb, Nat.shiftLeft_eq, Nat.mul_comm]

theorem readBe16_toNat {src : Bytes} (h : src.length = 2) : (readBe16 src).toNat = beNat src := by
  match src, h with
  | [a, b], _ =>
    have ha := a.toNat_lt
    have hsh : a.toNat <<< 8 < 2 ^ 16 := by rw [Nat.shiftLeft_eq]; omega
    have h8 : (8 : UInt16).toNat % 16 = 8 := rfl
    simp only [readBe16, List.getD_cons_zero, List.getD_cons_succ, UInt16.toNat_or,
      UInt16.toNat_shiftLeft, UInt8.toNat_toUInt16, h8, Nat.mod_eq_of_lt hsh,
      shiftLeft_or_byte b.toNat_lt, beNat, List.foldl_cons, List.foldl_nil]
    omega

theorem readBe32_toNat {src : Bytes} (h : src.length = 4) : (readBe32 src).toNat = beNat src := by
  match src, h with
  | [a, b, c, d], _ =>
    have ha := a.toNat_lt
    have hb := b.toNat_lt
    have hc := c.toNat_lt
    have h24 : (24 : UInt32).toNat % 32 = 24 := rfl
    have h16 : (16 : UInt32).toNat % 32 = 16 := rfl
    have h8 : (8 : UInt32).toNat % 32 = 8 := rfl
    have ha' : a.toNat <<< 24 < 2 ^ 32 := by rw [Nat.shiftLeft_eq]; omega
    have hb' : b.toNat <<< 16 < 2 ^ 32 := by rw [Nat.shiftLeft_eq]; omega
    have hc' : c.toNat <<< 8 < 2 ^ 32 := by rw [Nat.shiftLeft_eq]; omega
    have hnest : a.toNat <<< 24 ||| b.toNat <<< 16 ||| c.toNat <<< 8 ||| d.toNat =
        ((a.toNat <<< 8 ||| b.toNat) <<< 8 ||| c.toNat) <<< 8 ||| d.toNat := by
      simp only [Nat.shiftLeft_or_distrib, ← Nat.shiftLeft_add]
    simp only [readBe32, List.getD_cons_zero, List.getD_cons_succ, UInt32.toNat_or,
      UInt32.toNat_shiftLeft, UInt8.toNat_toUInt32, h24, h16, h8, Nat.mod_eq_of_lt ha',
      Nat.mod_eq_of_lt hb', Nat.mod_eq_of_lt hc', hnest,
      shiftLeft_or_byte b.toNat_lt, shiftLeft_or_byte c.toNat_lt, shiftLeft_or_byte d.toNat_lt,
      beNat, List.foldl_cons, List.foldl_nil]
    omega

theorem beNat_lt (bs : Bytes) : beNat bs < 256 ^ bs.length := by
  have hgen : ∀ n k, n < 256 ^ k → bs.foldl (fun n b => 256 * n + b.toNat) n <
    256 ^ (k + bs.length) := by
    induction bs with
    | nil => intro n k h; simpa using h
    | cons b bs ih =>
      intro n k h
      have hb := b.toNat_lt
      have hk : 256 * n + b.toNat < 256 ^ (k + 1) := by
        rw [Nat.pow_succ]
        omega
      have he : k + 1 + bs.length = k + (bs.length + 1) := by omega
      simpa only [List.foldl_cons, List.length_cons, he] using ih _ _ hk
  simpa [beNat] using hgen 0 0 (by decide)

/-! The bytes hidden in an image. -/

/-- The bytes of a row that are not alpha. -/
def nonAlpha (channels : Nat) (row : Bytes) : Bytes :=
  (row.zipIdx.filter fun p => !(decide (channels = 4) && decide (p.2 % 4 = 3))).map Prod.fst

/-- The bytes read, least significant bit first, from the low bits of the
non-alpha channels in row-major order. -/
def hiddenBytes (img : PngImageBuf) : Bytes :=
  pack (imageDataBitCapacity img / 8) ((img.rows.flatMap (nonAlpha img.channels)).map lowBit)

theorem rowCarriers_eq_filter {channels x : Nat} {row : Bytes} (h : x + row.length ≤ 2 ^ 31) :
    rowCarriers channels x row =
      ((row.zipIdx x).filter fun p => !(decide (channels = 4) &&
        decide (p.2 % 4 = 3))).map Prod.fst := by
  induction row generalizing x with
  | nil => rfl
  | cons px row ih =>
    simp only [List.length_cons] at h
    have hd := @isDataChannel_iff x channels (by omega)
    have hi := ih (x := x + 1) (by omega)
    by_cases hc : (!(decide (channels = 4) && decide (x % 4 = 3))) = true
    · rw [hc] at hd
      rw [List.zipIdx_cons, List.filter_cons_of_pos (by simpa using hc)]
      simp [rowCarriers, hd, hi]
    · rw [Bool.eq_false_iff.mpr hc] at hd
      rw [List.zipIdx_cons, List.filter_cons_of_neg (by simpa using hc)]
      simp [rowCarriers, hd, hi]

theorem carriers_eq_nonAlpha {img : PngImageBuf} (hfit : img.RowFitsInt) :
    img.carriers = img.rows.flatMap (nonAlpha img.channels) := by
  unfold PngImageBuf.RowFitsInt at hfit
  apply List.flatMap_congr
  intro row hrow
  exact rowCarriers_eq_filter (by have := img.row_length row hrow; omega)

theorem hiddenBytes_length (img : PngImageBuf) :
    (hiddenBytes img).length = imageDataBitCapacity img / 8 := length_pack _ _

/-- The bytes that the walk over the carriers reads. -/
def carrierBytes (img : PngImageBuf) : Bytes :=
  pack (imageDataBitCapacity img / 8) (img.carriers.map lowBit)

theorem carrierBytes_length (img : PngImageBuf) :
    (carrierBytes img).length = imageDataBitCapacity img / 8 := length_pack _ _

theorem carrierBytes_eq {img : PngImageBuf} (hfit : img.RowFitsInt) :
    carrierBytes img = hiddenBytes img := by
  rw [carrierBytes, carriers_eq_nonAlpha hfit, hiddenBytes]

theorem extractBits_eq_take {img : PngImageBuf} {n : Nat}
    (hn : n ≤ (carrierBytes img).length) : extractBits img n = (carrierBytes img).take n := by
  have hlt := imageDataBitCapacity_lt img
  rw [carrierBytes_length] at hn
  rw [extractBits_eq _ (by omega), carrierBytes, take_pack _ hn]

/-! The grammar. -/

def nameLenField (B : Bytes) : Nat := beNat ((B.drop 5).take 2)

def payloadLenField (B : Bytes) : Nat := beNat ((B.drop (7 + nameLenField B)).take 4)

/-- Everything the container grammar asks of the hidden bytes but the checksum. -/
structure Framed (B : Bytes) : Prop where
  room : 15 ≤ B.length
  magic : B.take 4 = stegoMagic
  type : B.getD 4 0 = 0 ∨ B.getD 4 0 = 1
  name_fits : 11 + nameLenField B ≤ B.length
  payload_fits : 15 + nameLenField B + payloadLenField B ≤ B.length

def checkedLen (B : Bytes) : Nat := 11 + nameLenField B + payloadLenField B

def ChecksumOk (B : Bytes) : Prop :=
  (crc32 (B.take (checkedLen B))).toNat = beNat ((B.drop (checkedLen B)).take 4)

instance (B : Bytes) : Decidable (ChecksumOk B) := by
  unfold ChecksumOk
  infer_instance

/-- What an accepted container says. -/
def extractedOf (B : Bytes) : StegoExtracted where
  type := if B.getD 4 0 = 0 then .text else .file
  filename := filenameArray ((B.drop 7).take (min (nameLenField B) 255))
  data := if payloadLenField B > 0 then
    some ((B.drop (11 + nameLenField B)).take (payloadLenField B)) else none
  data_len := payloadLenField B

theorem nameLenField_lt (B : Bytes) : nameLenField B < 2 ^ 16 := by
  have hl : ((B.drop 5).take 2).length ≤ 2 := List.length_take_le _ _
  have hp : 256 ^ ((B.drop 5).take 2).length ≤ 256 ^ 2 := Nat.pow_le_pow_right (by decide) hl
  exact lt_of_lt_of_le (beNat_lt _) hp

theorem payloadLenField_lt (B : Bytes) : payloadLenField B < 2 ^ 32 := by
  have hl : ((B.drop (7 + nameLenField B)).take 4).length ≤ 4 := List.length_take_le _ _
  have hp : 256 ^ ((B.drop (7 + nameLenField B)).take 4).length ≤ 256 ^ 4 :=
    Nat.pow_le_pow_right (by decide) hl
  exact lt_of_lt_of_le (beNat_lt _) hp

theorem payloadTypeOf_eq_some {b : UInt8} (h : b = 0 ∨ b = 1) :
    payloadTypeOf b = some (if b = 0 then .text else .file) := by
  rcases h with rfl | rfl <;> decide

theorem payloadTypeOf_eq_none {b : UInt8} (h : ¬ (b = 0 ∨ b = 1)) : payloadTypeOf b = none := by
  have h0 : b ≠ StegoPayloadType.text.code := fun e => h (.inl e)
  have h1 : b ≠ StegoPayloadType.file.code := fun e => h (.inr e)
  simp [payloadTypeOf, h0, h1]

theorem take_drop_take {a k n : Nat} (B : Bytes) (h : a + k ≤ n) :
    ((B.take n).drop a).take k = (B.drop a).take k := by
  rw [List.drop_take, List.take_take, min_eq_left (by omega)]

theorem nameLenField_eq {B : Bytes} (h : 7 ≤ B.length) :
    (readBe16 ((B.take 7).drop 5)).toNat = nameLenField B := by
  have hd : (B.take 7).drop 5 = (B.drop 5).take 2 := by rw [List.drop_take]
  rw [hd, readBe16_toNat (by simp; omega), nameLenField]

theorem payloadLenField_eq {B : Bytes} (h : 11 + nameLenField B ≤ B.length) :
    (readBe32 ((B.take (7 + nameLenField B + 4)).drop (7 + nameLenField B))).toNat =
      payloadLenField B := by
  have hd : (B.take (7 + nameLenField B + 4)).drop (7 + nameLenField B) =
      (B.drop (7 + nameLenField B)).take 4 := by
    rw [List.drop_take]
    congr 1
    omega
  rw [hd, readBe32_toNat (by simp; omega), payloadLenField]

theorem checksum_eq {B : Bytes} (h : checkedLen B + 4 ≤ B.length) :
    readBe32 ((B.take (checkedLen B + 4)).drop (checkedLen B)) =
        stegoCrc32 ((B.take (checkedLen B + 4)).take (checkedLen B)) ↔ ChecksumOk B := by
  have hd : (B.take (checkedLen B + 4)).drop (checkedLen B) = (B.drop (checkedLen B)).take 4 := by
    rw [List.drop_take]
    congr 1
    omega
  rw [hd, List.take_take, min_eq_left (by omega), stegoCrc32_eq_crc32, ← UInt32.toNat_inj,
    readBe32_toNat (by simp; omega), ChecksumOk]
  exact eq_comm

section

variable {malloc : Malloc} {img : PngImageBuf}

theorem decodeImage_of_not_framed (hm : ∀ site n, malloc site n = true)
    (h : ¬ Framed (carrierBytes img)) : decodeImage malloc img = (.errMagic, .zero) := by
  unfold decodeImage
  simp only [← carrierBytes_length, stegoHeaderMinLen]
  have hx := fun n => @extractBits_eq_take img n
  generalize carrierBytes img = B at h hx ⊢
  by_cases hroom : B.length < 15
  · rw [if_pos hroom]
  rw [if_neg hroom, hx 7 (by omega), List.take_take, min_eq_left (by decide), stegoMagicLen]
  by_cases hmagic : B.take 4 = stegoMagic
  swap
  · rw [if_pos hmagic]
  rw [if_neg (not_not_intro hmagic), show (B.take 7).getD 4 0 = B.getD 4 0 by simp]
  by_cases htype : B.getD 4 0 = 0 ∨ B.getD 4 0 = 1
  swap
  · rw [payloadTypeOf_eq_none htype]
  have hf := nameLenField_lt B
  have hp := payloadLenField_lt B
  have hsize : sizeT (7 + nameLenField B + 4) = 7 + nameLenField B + 4 :=
    Nat.mod_eq_of_lt (by omega)
  have hsize' : sizeT (7 + nameLenField B + 4 + payloadLenField B + 4) =
      7 + nameLenField B + 4 + payloadLenField B + 4 := Nat.mod_eq_of_lt (by omega)
  rw [payloadTypeOf_eq_some htype]
  simp only [nameLenField_eq (show 7 ≤ B.length by omega), hm, hsize]
  by_cases hname : 7 + nameLenField B + 4 > B.length
  · rw [if_pos hname]
  rw [if_neg hname, hx _ (by omega), payloadLenField_eq (by omega), hsize']
  have hpay : 7 + nameLenField B + 4 + payloadLenField B + 4 > B.length := by
    by_contra hle
    exact h ⟨by omega, hmagic, htype, by omega, by omega⟩
  simp [hpay]

theorem decodeImage_of_framed (hm : ∀ site n, malloc site n = true)
    (h : Framed (carrierBytes img)) :
    decodeImage malloc img =
      if ChecksumOk (carrierBytes img) then (.ok, extractedOf (carrierBytes img)) else
        (.errCrc, .zero) := by
  unfold decodeImage
  simp only [← carrierBytes_length, stegoHeaderMinLen]
  have hx := fun n => @extractBits_eq_take img n
  generalize carrierBytes img = B at h hx ⊢
  obtain ⟨hroom, hmagic, htype, hname, hpay⟩ := h
  have hf := nameLenField_lt B
  have hp := payloadLenField_lt B
  have hsize : sizeT (7 + nameLenField B + 4) = 7 + nameLenField B + 4 :=
    Nat.mod_eq_of_lt (by omega)
  have hsize' : sizeT (7 + nameLenField B + 4 + payloadLenField B + 4) = checkedLen B + 4 :=
    (Nat.mod_eq_of_lt (by omega)).trans (by unfold checkedLen; omega)
  have hchecked : checkedLen B + 4 ≤ B.length := by unfold checkedLen; omega
  rw [if_neg (by omega), hx 7 (by omega), List.take_take, min_eq_left (by decide), stegoMagicLen,
    if_neg (not_not_intro hmagic), show (B.take 7).getD 4 0 = B.getD 4 0 by simp,
    payloadTypeOf_eq_some htype]
  simp only [nameLenField_eq (show 7 ≤ B.length by omega), hm, hsize, Bool.not_true,
    Bool.false_eq_true, if_false]
  rw [if_neg (by omega), hx _ (by omega), payloadLenField_eq (by omega), hsize', if_neg (by omega),
    hx _ hchecked, Nat.add_sub_cancel]
  by_cases hcrc : ChecksumOk B
  swap
  · rw [if_pos (fun he => hcrc ((checksum_eq hchecked).mp he)), if_neg hcrc]
  rw [if_neg (not_not_intro ((checksum_eq hchecked).mpr hcrc)), if_pos hcrc]
  have hcopy : (if nameLenField B < 256 - 1 then nameLenField B else 256 - 1) =
    min (nameLenField B) 255 := by
    split <;> omega
  have hnamed : (if nameLenField B > 0 then
      ((B.take (checkedLen B + 4)).drop 7).take (min (nameLenField B) 255) else []) =
      (B.drop 7).take (min (nameLenField B) 255) := by
    by_cases h0 : nameLenField B > 0
    · rw [if_pos h0, take_drop_take _ (by unfold checkedLen; omega)]
    · simp [show nameLenField B = 0 by omega]
  have hdata : ((B.take (checkedLen B + 4)).drop (7 + nameLenField B + 4)).take
    (payloadLenField B) =
      (B.drop (11 + nameLenField B)).take (payloadLenField B) := by
    rw [take_drop_take _ (by unfold checkedLen; omega),
      show 7 + nameLenField B + 4 = 11 + nameLenField B by omega]
  rw [hcopy, hnamed, hdata]
  by_cases h0 : payloadLenField B > 0 <;> simp [extractedOf, h0]

theorem length_extractBits {n : Nat} (hn : n ≤ imageDataBitCapacity img / 8) :
    (extractBits img n).length = n := by
  have hcap : imageDataBitCapacity img < 2 ^ 64 := Nat.mod_lt _ (by decide)
  rw [extractBits_eq img (by omega), length_pack]

theorem cstr_filenameArray_length {name : Bytes} (h : name.length < 256) :
    (cstr (filenameArray name)).length < 256 := by
  obtain ⟨n, hn⟩ : ∃ n, 256 - name.length = n + 1 := ⟨255 - name.length, by omega⟩
  rw [filenameArray, hn, List.replicate_succ, cstr_append_nul]
  exact Nat.lt_of_le_of_lt (cstr_length_le name) h

/-- What a successful decode returns does not depend on the allocations, its size is
that of its data, and its name ends within the array. -/
theorem decodeImage_ok {ex : StegoExtracted} (h : decodeImage malloc img = (.ok, ex)) :
    decodeImage (fun _ _ => true) img = (.ok, ex) ∧ (ex.data.getD []).length = ex.data_len ∧
      (cstr ex.filename).length < 256 := by
  unfold decodeImage at h ⊢
  dsimp only at h ⊢
  by_cases hroom : imageDataBitCapacity img / 8 < stegoHeaderMinLen
  · rw [if_pos hroom] at h
    cases h
  rw [if_neg hroom] at h ⊢
  by_cases hmagic : (extractBits img 7).take stegoMagicLen ≠ stegoMagic
  · rw [if_pos hmagic] at h
    cases h
  rw [if_neg hmagic] at h ⊢
  cases htype : payloadTypeOf ((extractBits img 7).getD 4 0) with
  | none =>
    rw [htype] at h
    cases h
  | some type =>
    rw [htype] at h
    dsimp only at h ⊢
    generalize hf : (readBe16 ((extractBits img 7).drop 5)).toNat = fn_len at h ⊢
    by_cases hname : sizeT (7 + fn_len + 4) > imageDataBitCapacity img / 8
    · rw [if_pos hname] at h
      cases h
    rw [if_neg hname] at h ⊢
    generalize hp : (readBe32 ((extractBits img (sizeT (7 + fn_len + 4))).drop
      (7 + fn_len))).toNat = payload_len at h ⊢
    have hfn : fn_len < 2 ^ 16 := hf ▸ UInt16.toNat_lt _
    have hpl : payload_len < 2 ^ 32 := hp ▸ UInt32.toNat_lt _
    have hsize : sizeT (7 + fn_len + 4 + payload_len + 4) = 7 + fn_len + 4 + payload_len + 4 :=
      Nat.mod_eq_of_lt (by omega)
    cases hprobe : malloc .probe (sizeT (7 + fn_len + 4)) with
    | false =>
      rw [hprobe] at h
      cases h
    | true =>
      rw [hprobe] at h
      generalize hc : sizeT (7 + fn_len + 4 + payload_len + 4) = container_len at h hsize ⊢
      by_cases hfits : container_len > imageDataBitCapacity img / 8
      · rw [Bool.not_true, if_neg nofun, if_pos hfits] at h
        cases h
      rw [Bool.not_true, if_neg nofun, if_neg hfits] at h ⊢
      cases hbuf : malloc .buf container_len with
      | false =>
        rw [hbuf] at h
        cases h
      | true =>
        rw [hbuf, Bool.not_true, if_neg nofun] at h
        have hlen := length_extractBits (Nat.not_lt.mp hfits)
        generalize extractBits img container_len = buf at h hlen ⊢
        rw [if_neg nofun]
        by_cases hcrc : readBe32 (buf.drop (container_len - 4)) ≠
          stegoCrc32 (buf.take (container_len - 4))
        · rw [if_pos hcrc] at h
          cases h
        rw [if_neg hcrc] at h ⊢
        have hname : (cstr (filenameArray (if fn_len > 0 then
            (buf.drop 7).take (if fn_len < 256 - 1 then fn_len else 256 - 1) else []))).length <
              256 := by
          refine cstr_filenameArray_length ?_
          split
          · refine Nat.lt_of_le_of_lt (List.length_take_le _ _) ?_
            split <;> omega
          · decide
        by_cases hpos : payload_len > 0
        · rw [if_pos hpos] at h ⊢
          cases hdata : malloc .data payload_len with
          | false =>
            rw [hdata] at h
            cases h
          | true =>
            rw [hdata] at h
            cases h
            refine ⟨rfl, ?_, hname⟩
            rw [Option.getD_some, List.length_take, List.length_drop, hlen, hsize]
            change min payload_len _ = payload_len
            omega
        · rw [if_neg hpos] at h ⊢
          cases h
          exact ⟨rfl, (Nat.eq_zero_of_not_pos hpos).symm, hname⟩

end

/-- `stego_decode`, given what the load of its path returned. -/
def stegoDecode (malloc : Malloc) (loaded : Except StegoStatus PngImageBuf) :
    StegoStatus × StegoExtracted :=
  match loaded with
  | .error rc => (rc, .zero)
  | .ok img => decodeImage malloc img

theorem stegoDecode_ok {malloc : Malloc} {loaded : Except StegoStatus PngImageBuf}
    {ex : StegoExtracted} (hdecode : stegoDecode malloc loaded = (.ok, ex)) :
    stegoDecode (fun _ _ => true) loaded = (.ok, ex) ∧ (ex.data.getD []).length = ex.data_len ∧
      (cstr ex.filename).length < 256 := by
  cases loaded with
  | error rc =>
    obtain ⟨rfl, rfl⟩ := Prod.mk.inj hdecode
    exact ⟨rfl, rfl, by decide⟩
  | ok img => exact decodeImage_ok hdecode

/-- The decoder accepts exactly the container grammar, tells a bad checksum from
a missing container, and returns the fields of the container it accepts. -/
theorem stegoDecode_grammar (malloc : Malloc) (hm : ∀ site n, malloc site n = true)
    (img : PngImageBuf) (hfit : img.RowFitsInt) :
    let B := hiddenBytes img
    let r := stegoDecode malloc (.ok img)
    B.length = imageDataBitCapacity img / 8 ∧
    (r.1 = .ok ↔ Framed B ∧ ChecksumOk B) ∧
    (r.1 = .errCrc ↔ Framed B ∧ ¬ ChecksumOk B) ∧
    (r.1 = .errMagic ↔ ¬ Framed B) ∧
    (r.1 = .ok → r.2.type.code = B.getD 4 0 ∧
      r.2.data.getD [] = (B.drop (11 + nameLenField B)).take (payloadLenField B) ∧
      r.2.data_len = payloadLenField B ∧
      r.2.filename.length = 256 ∧
      r.2.filename = (B.drop 7).take (min (nameLenField B) 255) ++
        List.replicate (256 - min (nameLenField B) 255) 0) := by
  intro B r
  refine ⟨hiddenBytes_length img, ?_⟩
  have hB : carrierBytes img = B := carrierBytes_eq hfit
  by_cases hframed : Framed B
  swap
  · have hr : r = (.errMagic, .zero) := decodeImage_of_not_framed hm (hB ▸ hframed)
    simp [hr, hframed]
  have hr : r = if ChecksumOk B then (.ok, extractedOf B) else (.errCrc, .zero) :=
    hB ▸ decodeImage_of_framed hm (hB ▸ hframed)
  by_cases hcrc : ChecksumOk B
  swap
  · rw [if_neg hcrc] at hr
    simp [hr, hframed, hcrc]
  rw [if_pos hcrc] at hr
  have hlen : ((B.drop 7).take (min (nameLenField B) 255)).length = min (nameLenField B) 255 := by
    have := hframed.name_fits
    simp only [List.length_take, List.length_drop]
    omega
  have htype : (extractedOf B).type.code = B.getD 4 0 := by
    rcases hframed.type with h | h <;> simp only [extractedOf, h] <;> rfl
  have hdata : (extractedOf B).data.getD [] =
    (B.drop (11 + nameLenField B)).take (payloadLenField B) := by
    by_cases h0 : payloadLenField B > 0
    · simp [extractedOf, h0]
    · simp [extractedOf, show payloadLenField B = 0 by omega]
  have hname : (extractedOf B).filename = (B.drop 7).take (min (nameLenField B) 255) ++
      List.replicate (256 - min (nameLenField B) 255) 0 := by
    rw [extractedOf, filenameArray, hlen]
  refine ⟨by simp [hr, hframed, hcrc], by simp [hr, hcrc], by simp [hr, hframed], fun _ => ?_⟩
  rw [hr]
  refine ⟨htype, hdata, rfl, ?_, hname⟩
  rw [hname, List.length_append, hlen, List.length_replicate]
  omega

/-- A strip of 48 pixels with the bits of `B` in the low bits of its bytes. -/
def bitStrip (B : Bytes) : PngImageBuf where
  width := 48
  height := 1
  channels := 3
  rows := [(List.range 144).map (bitByte B)]
  channels_eq := rgb_channels
  rows_length := rfl
  row_length := by simp

/-- The container of a text from `a`, all but the checksum. -/
def textBody (text : Bytes) : Bytes :=
  stegoMagic ++ [StegoPayloadType.text.code] ++ writeBe16 1 ++ lit "a" ++
    writeBe32 (UInt32.ofNat text.length) ++ text

/-- The container of a short text is accepted; over another text its checksum is wrong. -/
theorem stegoDecode_grammar_bitStrip :
    let B := textBody (lit "hi") ++ writeBe32 (stegoCrc32 (textBody (lit "hi")))
    let C := textBody (lit "ho") ++ writeBe32 (stegoCrc32 (textBody (lit "hi")))
    let r := stegoDecode (fun _ _ => true) (.ok (bitStrip B))
    (r.1 = .ok ∧ r.2.type.code = 0 ∧ r.2.data.getD [] = lit "hi" ∧
      r.2.filename = lit "a" ++ List.replicate 255 0) ∧
      (stegoDecode (fun _ _ => true) (.ok (bitStrip C))).1 = .errCrc := by
  intro B C r
  have hB : hiddenBytes (bitStrip B) = B := by decide +kernel
  have hC : hiddenBytes (bitStrip C) = C := by decide +kernel
  obtain ⟨-, hok, -, -, hfields⟩ :=
    stegoDecode_grammar (fun _ _ => true) (fun _ _ => rfl) (bitStrip B) (by decide)
  obtain ⟨-, -, hbad, -, -⟩ :=
    stegoDecode_grammar (fun _ _ => true) (fun _ _ => rfl) (bitStrip C) (by decide)
  rw [hB] at hok hfields
  rw [hC] at hbad
  have hframed : Framed B := ⟨by decide, by decide, by decide, by decide, by decide⟩
  have hframed' : Framed C := ⟨by decide, by decide, by decide, by decide, by decide⟩
  have haccepted := hok.mpr ⟨hframed, by decide +kernel⟩
  obtain ⟨htype, hdata, -, -, hname⟩ := hfields haccepted
  have htext : (B.drop (11 + nameLenField B)).take (payloadLenField B) = lit "hi" := by decide
  have hlen : nameLenField B = 1 := by decide
  rw [hlen] at hname
  have ha : (B.drop 7).take 1 = lit "a" := by decide
  exact ⟨⟨haccepted, htype, hdata.trans htext, hname.trans (congrArg (· ++ _) ha)⟩,
    hbad.mpr ⟨hframed', by decide +kernel⟩⟩

end StegaPng
