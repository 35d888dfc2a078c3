import StegaPng.Decoder

/-! What is encoded is decoded: the container survives the walk over the
carriers and a lossless save. -/

namespace StegaPng

open BitPacking

/-- `png_metadata_t`. -/
structure PngMetadata where
  width : UInt32
  height : UInt32
  bit_depth : Nat
  color_type : Nat
  channels : Nat

/-- libpng as the server uses it: `load` normalises a file to 8-bit RGB or RGBA,
`save` writes such an image, `metadata` reads the header only. -/
structure PngCodec where
  load : Bytes → Except StegoStatus PngImageBuf
  save : PngImageBuf → Bytes
  metadata : Bytes → Option PngMetadata
  load_error : ∀ file status, load file = .error status → status ≠ .ok

/-- Some file that `load` accepts is of the size of this image. -/
def PngCodec.Takes (codec : PngCodec) (img : PngImageBuf) : Prop :=
  ∃ file img₀, codec.load file = .ok img₀ ∧ img₀.width = img.width ∧ img₀.height = img.height ∧
    img₀.channels = img.channels

/-- Saving and reloading an 8-bit RGB or RGBA image returns the same image, if the codec loads
images of its size at all. -/
def PngCodec.Lossless (codec : PngCodec) : Prop :=
  ∀ img : PngImageBuf, 0 < img.width → 0 < img.height → img.RowFitsInt → codec.Takes img →
    codec.load (codec.save img) = .ok img

/-- The images that `load` returns are of a size that libpng's limits allow. -/
def PngCodec.Bounded (codec : PngCodec) : Prop := ∀ file img, codec.load file = .ok img →
    img.RowFitsInt

theorem beNat_writeBe16 (v : UInt16) : beNat (writeBe16 v) = v.toNat := by
  rw [← readBe16_toNat (length_writeBe16 v)]
  simpa using congrArg UInt16.toNat (readBe16_writeBe16 v [])

theorem beNat_writeBe32 (v : UInt32) : beNat (writeBe32 v) = v.toNat := by
  rw [← readBe32_toNat (length_writeBe32 v)]
  simpa using congrArg UInt32.toNat (readBe32_writeBe32 v [])

/-- The container with its checksum, allocation aside. -/
def containerOf (type : StegoPayloadType) (filename : Option Bytes) (payload : Bytes) : Bytes :=
  containerBody type filename payload ++
    writeBe32 (stegoCrc32 (containerBody type filename payload))

theorem containerBody_length (type : StegoPayloadType) (filename : Option Bytes) (payload : Bytes) :
    (containerBody type filename payload).length = 11 + storedNameLen type filename +
      payload.length := by
  have hn := (storedNameLen_le type filename).2
  have hm : stegoMagic.length = 4 := rfl
  simp only [containerBody, List.length_append, List.length_take, length_writeBe16,
    length_writeBe32, List.length_singleton, hm]
  omega

theorem containerOf_length (type : StegoPayloadType) (filename : Option Bytes) (payload : Bytes) :
    (containerOf type filename payload).length = 15 + storedNameLen type filename +
      payload.length := by
  rw [containerOf, List.length_append, containerBody_length, length_writeBe32]
  omega

theorem encodeImage_ok {malloc : Malloc} {img out : PngImageBuf} {type : StegoPayloadType}
    {filename : Option Bytes} {payload : Bytes} (hlen : payload.length < 2 ^ 57)
    (h : encodeImage malloc img type filename payload = .ok out) :
    out = embedBits img (containerOf type filename payload) ∧
      (containerOf type filename payload).length * 8 ≤ imageDataBitCapacity img := by
  have hn := (storedNameLen_le type filename).1
  have hc := containerOf_length type filename payload
  have hsize : sizeT ((containerOf type filename payload).length * 8) =
      (containerOf type filename payload).length * 8 := Nat.mod_eq_of_lt (by omega)
  by_cases hm : malloc .container (sizeT (4 + 1 + 2 + storedNameLen type filename + 4 +
    payload.length + 4)) = true
  swap
  · simp [encodeImage, buildContainer, hm] at h
  have hbuild : buildContainer malloc type filename payload =
    some (containerOf type filename payload) := by
    simp only [buildContainer, hm, if_true, containerOf]
  simp only [encodeImage, hbuild, hsize] at h
  split at h
  · cases h
  · next hcap =>
    cases h
    exact ⟨rfl, Nat.le_of_not_lt hcap⟩

/-- The name bytes the container stores. -/
def storedName (type : StegoPayloadType) (filename : Option Bytes) : Bytes :=
  (filename.getD []).take (storedNameLen type filename)

theorem storedName_length (type : StegoPayloadType) (filename : Option Bytes) :
    (storedName type filename).length = storedNameLen type filename := by
  rw [storedName, List.length_take, min_eq_left (storedNameLen_le type filename).2]

theorem take_drop_append {a b c : Bytes} {n k : Nat} (ha : a.length = n) (hb : b.length = k) :
    ((a ++ (b ++ c)).drop n).take k = b := by
  rw [List.drop_left' ha, List.take_left' hb]

section

variable {type : StegoPayloadType} {filename : Option Bytes} {payload B rest : Bytes}

theorem containerOf_nameLenField (hB : B = containerOf type filename payload ++ rest) :
    nameLenField B = storedNameLen type filename := by
  have hn := (storedNameLen_le type filename).1
  have hslice : B = (stegoMagic ++ [type.code]) ++
    (writeBe16 (UInt16.ofNat (storedNameLen type filename)) ++
      (storedName type filename ++ writeBe32 (UInt32.ofNat payload.length) ++ payload ++
        writeBe32 (stegoCrc32 (containerBody type filename payload)) ++ rest)) := by
    rw [hB]
    simp only [containerOf, containerBody, storedName, List.append_assoc]
  have hpre : (stegoMagic ++ [type.code]).length = 5 := rfl
  rw [nameLenField, hslice, take_drop_append hpre (length_writeBe16 _), beNat_writeBe16,
    UInt16.toNat_ofNat', Nat.mod_eq_of_lt (by omega)]

theorem containerOf_payloadLenField_mod (hB : B = containerOf type filename payload ++ rest) :
    payloadLenField B = payload.length % 2 ^ 32 := by
  have hm : stegoMagic.length = 4 := rfl
  have hslice : B = (stegoMagic ++ [type.code] ++
    writeBe16 (UInt16.ofNat (storedNameLen type filename)) ++
      storedName type filename) ++ (writeBe32 (UInt32.ofNat payload.length) ++ (payload ++
        writeBe32 (stegoCrc32 (containerBody type filename payload)) ++ rest)) := by
    rw [hB]
    simp only [containerOf, containerBody, storedName, List.append_assoc]
  have hpre : (stegoMagic ++ [type.code] ++
    writeBe16 (UInt16.ofNat (storedNameLen type filename)) ++
      storedName type filename).length = 7 + storedNameLen type filename := by
    simp only [List.length_append, storedName_length, length_writeBe16, List.length_singleton, hm]
  rw [payloadLenField, containerOf_nameLenField hB, hslice,
    take_drop_append hpre (length_writeBe32 _), beNat_writeBe32, UInt32.toNat_ofNat']

theorem containerOf_payloadLenField (hlen : payload.length < 2 ^ 32)
    (hB : B = containerOf type filename payload ++ rest) : payloadLenField B = payload.length := by
  rw [containerOf_payloadLenField_mod hB, Nat.mod_eq_of_lt hlen]

theorem containerOf_type (hB : B = containerOf type filename payload ++ rest) :
    B.take 4 = stegoMagic ∧ B.getD 4 0 = type.code := by
  have hslice : B = stegoMagic ++ ([type.code] ++
    (writeBe16 (UInt16.ofNat (storedNameLen type filename)) ++
      storedName type filename ++ writeBe32 (UInt32.ofNat payload.length) ++ payload ++
        writeBe32 (stegoCrc32 (containerBody type filename payload)) ++ rest)) := by
    rw [hB]
    simp only [containerOf, containerBody, storedName, List.append_assoc]
  have hm : stegoMagic.length = 4 := rfl
  refine ⟨by rw [hslice, List.take_left' hm], ?_⟩
  rw [hslice]
  rfl

theorem containerOf_name (hB : B = containerOf type filename payload ++ rest) :
    (B.drop 7).take (storedNameLen type filename) = storedName type filename := by
  have hslice : B = (stegoMagic ++ [type.code] ++
    writeBe16 (UInt16.ofNat (storedNameLen type filename))) ++
      (storedName type filename ++ (writeBe32 (UInt32.ofNat payload.length) ++ payload ++
        writeBe32 (stegoCrc32 (containerBody type filename payload)) ++ rest)) := by
    rw [hB]
    simp only [containerOf, containerBody, storedName, List.append_assoc]
  have hpre : (stegoMagic ++ [type.code] ++
    writeBe16 (UInt16.ofNat (storedNameLen type filename))).length = 7 :=
    rfl
  rw [hslice, take_drop_append hpre (storedName_length type filename)]

theorem containerOf_payload (hB : B = containerOf type filename payload ++ rest) :
    (B.drop (11 + storedNameLen type filename)).take payload.length = payload := by
  have hm : stegoMagic.length = 4 := rfl
  have hslice : B = (stegoMagic ++ [type.code] ++
    writeBe16 (UInt16.ofNat (storedNameLen type filename)) ++
      storedName type filename ++ writeBe32 (UInt32.ofNat payload.length)) ++ (payload ++
        (writeBe32 (stegoCrc32 (containerBody type filename payload)) ++ rest)) := by
    rw [hB]
    simp only [containerOf, containerBody, storedName, List.append_assoc]
  have hpre : (stegoMagic ++ [type.code] ++
    writeBe16 (UInt16.ofNat (storedNameLen type filename)) ++
      storedName type filename ++ writeBe32 (UInt32.ofNat payload.length)).length =
      11 + storedNameLen type filename := by
    simp only [List.length_append, storedName_length, length_writeBe16, length_writeBe32,
      List.length_singleton, hm]
    omega
  rw [hslice, take_drop_append hpre rfl]

/-- Bytes that start with a container satisfy the grammar and its checksum. -/
theorem containerOf_framed (hlen : payload.length < 2 ^ 32)
    (hB : B = containerOf type filename payload ++ rest) : Framed B ∧ ChecksumOk B := by
  have hname := containerOf_nameLenField hB
  have hpay := containerOf_payloadLenField hlen hB
  have htype := containerOf_type hB
  have hlength : B.length = 15 + storedNameLen type filename + payload.length + rest.length := by
    rw [hB, List.length_append, containerOf_length]
  have hcode : type.code = 0 ∨ type.code = 1 := by cases type <;> decide
  refine ⟨⟨by omega, htype.1, by rw [htype.2]; exact hcode, by omega, by omega⟩, ?_⟩
  have hchecked : checkedLen B = (containerBody type filename payload).length := by
    rw [checkedLen, hname, hpay, containerBody_length]
  have hslice : B = containerBody type filename payload ++
      (writeBe32 (stegoCrc32 (containerBody type filename payload)) ++ rest) := by
    rw [hB, containerOf, List.append_assoc]
  have hcrc : (B.drop (checkedLen B)).take 4 =
    writeBe32 (stegoCrc32 (containerBody type filename payload)) := by
    rw [hchecked]
    conv_lhs => rw [hslice]
    rw [take_drop_append rfl (length_writeBe32 _)]
  have hbody : B.take (checkedLen B) = containerBody type filename payload := by
    rw [hchecked]
    conv_lhs => rw [hslice]
    rw [List.take_left' rfl]
  rw [ChecksumOk, hcrc, hbody, beNat_writeBe32, stegoCrc32_eq_crc32]

theorem containerOf_extracted (hlen : payload.length < 2 ^ 32)
    (hB : B = containerOf type filename payload ++ rest) :
    extractedOf B = { type := type
                      filename := filenameArray (storedName type filename)
                      data := if payload.length > 0 then some payload else none
                      data_len := payload.length } := by
  have hn := (storedNameLen_le type filename).1
  have htype : (if B.getD 4 0 = 0 then StegoPayloadType.text else .file) = type := by
    rw [(containerOf_type hB).2]
    cases type <;> rfl
  rw [extractedOf, htype, containerOf_nameLenField hB, containerOf_payloadLenField hlen hB,
    containerOf_payload hB, min_eq_left hn, containerOf_name hB]

end

theorem carrierBytes_embedBits {img : PngImageBuf} {data : Bytes}
    (hcap : data.length * 8 ≤ imageDataBitCapacity img) :
    carrierBytes (embedBits img data) = data ++
      (carrierBytes (embedBits img data)).drop data.length := by
  have hroom : data.length ≤ (carrierBytes (embedBits img data)).length := by
    rw [carrierBytes_length, embedBits_capacity]
    omega
  have htake : (carrierBytes (embedBits img data)).take data.length = data := by
    rw [← extractBits_eq_take hroom, extractBits_embedBits hcap le_rfl, List.take_length]
  conv_lhs => rw [← List.take_append_drop data.length (carrierBytes (embedBits img data))]
  rw [htake]

/-- The image that `encode_common` writes decodes to the container it was given. -/
theorem decodeImage_embedBits {malloc : Malloc} (hm : ∀ site n, malloc site n = true)
    {img : PngImageBuf} {type : StegoPayloadType} {filename : Option Bytes}
    {payload : Bytes} (hlen : payload.length < 2 ^ 32)
    (hcap : (containerOf type filename payload).length * 8 ≤ imageDataBitCapacity img) :
    decodeImage malloc (embedBits img (containerOf type filename payload)) =
      (.ok, { type := type
              filename := filenameArray (storedName type filename)
              data := if payload.length > 0 then some payload else none
              data_len := payload.length }) := by
  have hB := carrierBytes_embedBits hcap
  have hframed := containerOf_framed hlen hB
  rw [decodeImage_of_framed hm hframed.1, if_pos hframed.2, containerOf_extracted hlen hB]

theorem cstr_filenameArray {name : Bytes} (hnul : 0 ∉ name) (hlen : name.length ≤ 255) :
    cstr (filenameArray name) = name :=
  cstr_append_zeros hnul (by omega)

theorem storedName_eq {filename : Option Bytes} (type : StegoPayloadType)
    (hnul : ∀ f, filename = some f → 0 ∉ f) :
    storedName type filename = if type = .file then (filename.getD []).take 255 else [] := by
  match type, filename with
  | .text, _ => simp [storedName, storedNameLen]
  | .file, none => simp [storedName]
  | .file, some f =>
    have hc := cstr_of_nul_free (hnul f rfl)
    simp only [storedName, storedNameLen, hc, Option.getD_some, if_true]
    split
    · rfl
    · rw [List.take_of_length_le le_rfl, List.take_of_length_le (by omega)]

theorem encodeImage_of_fits {malloc : Malloc} (hm : ∀ site n, malloc site n = true)
    {img : PngImageBuf} {type : StegoPayloadType} {filename : Option Bytes}
    {payload : Bytes}
    (hcap : (containerOf type filename payload).length * 8 ≤ imageDataBitCapacity img) :
    encodeImage malloc img type filename payload =
      .ok (embedBits img (containerOf type filename payload)) := by
  have hlt := imageDataBitCapacity_lt img
  have hsize : sizeT ((containerOf type filename payload).length * 8) =
      (containerOf type filename payload).length * 8 := Nat.mod_eq_of_lt (by omega)
  have hbuild : buildContainer malloc type filename payload =
    some (containerOf type filename payload) := by
    simp only [buildContainer, hm, if_true, containerOf]
  simp only [encodeImage, hbuild, hsize]
  rw [if_neg (by omega)]

theorem load_save_embedBits {codec : PngCodec} (hcodec : codec.Lossless) {img : PngImageBuf}
    (hfit : img.RowFitsInt) (hsize : codec.Takes img) {type : StegoPayloadType}
    {filename : Option Bytes} {payload : Bytes}
    (hcap : (containerOf type filename payload).length * 8 ≤ imageDataBitCapacity img) :
    codec.load (codec.save (embedBits img (containerOf type filename payload))) =
      .ok (embedBits img (containerOf type filename payload)) := by
  have hpos : 0 < imageDataBitCapacity img := by
    have := containerOf_length type filename payload
    omega
  have hdims : 0 < img.width.toNat * img.height.toNat := by
    rw [(imageDataBitCapacity_eq hfit).1] at hpos
    exact Nat.pos_of_mul_pos_right hpos
  have hw : 0 < img.width := UInt32.lt_iff_toNat_lt.mpr (Nat.pos_of_mul_pos_right hdims)
  have hh : 0 < img.height := UInt32.lt_iff_toNat_lt.mpr (Nat.pos_of_mul_pos_left hdims)
  exact hcodec (embedBits img (containerOf type filename payload)) hw hh hfit hsize

/-- Round trip: the carrier may have any shape, the payload any bytes. -/
theorem stego_roundTrip (codec : PngCodec) (hcodec : codec.Lossless)
    (malloc : Malloc) (hm : ∀ site n, malloc site n = true)
    (img : PngImageBuf) (hfit : img.RowFitsInt) (hsize : codec.Takes img)
    (type : StegoPayloadType) (filename : Option Bytes) (hnul : ∀ f, filename = some f → 0 ∉ f)
    (payload : Bytes) (hlen : payload.length < 2 ^ 32)
    (out : PngImageBuf) (hout : encodeImage malloc img type filename payload = .ok out) :
    ∃ e, stegoDecode malloc (codec.load (codec.save out)) = (.ok, e) ∧
      e.type = type ∧ e.data.getD [] = payload ∧ e.data_len = payload.length ∧
      cstr e.filename = if type = .file then (filename.getD []).take 255 else [] := by
  obtain ⟨rfl, hcap⟩ := encodeImage_ok (Nat.lt_trans hlen (by decide)) hout
  rw [load_save_embedBits hcodec hfit hsize hcap]
  refine ⟨_, decodeImage_embedBits hm hlen hcap, rfl, ?_, rfl, ?_⟩
  · by_cases h0 : payload.length > 0
    · simp [h0]
    · simp [List.eq_nil_of_length_eq_zero (show payload.length = 0 by omega)]
  · have hs := storedName_eq type hnul
    have hfree : 0 ∉ storedName type filename := by
      intro h0
      rw [storedName] at h0
      cases filename with
      | none => simp at h0
      | some f => exact hnul f rfl (List.mem_of_mem_take h0)
    rw [cstr_filenameArray hfree
      (by rw [storedName_length]; exact (storedNameLen_le type filename).1), hs]

/-! A codec that keeps the samples as they are: a signature, the dimensions, the
rows. -/

def pngSignature : Bytes := [137, 80, 78, 71, 13, 10, 26, 10]

def cutRows (w : Nat) : Nat → Bytes → List Bytes
  | 0, _ => []
  | h + 1, samples => samples.take w :: cutRows w h (samples.drop w)

theorem cutRows_length (w h : Nat) (samples : Bytes) : (cutRows w h samples).length = h := by
  induction h generalizing samples with
  | zero => rfl
  | succ h ih => simp [cutRows, ih]

theorem cutRows_row_length {w h : Nat} {samples : Bytes} (hlen : samples.length = h * w) :
    ∀ row ∈ cutRows w h samples, row.length = w := by
  induction h generalizing samples with
  | zero => simp [cutRows]
  | succ h ih =>
    have hmul : (h + 1) * w = h * w + w := by ring
    intro row hrow
    rcases List.mem_cons.mp hrow with rfl | hrow
    · rw [List.length_take]
      omega
    · exact ih (by rw [List.length_drop]; omega) row hrow

theorem cutRows_flatten {w : Nat} {rows : List Bytes} (h : ∀ row ∈ rows, row.length = w) :
    cutRows w rows.length rows.flatten = rows := by
  induction rows with
  | nil => rfl
  | cons row rows ih =>
    have hrow := h row (by simp)
    have hrows := ih fun r hr => h r (List.mem_cons_of_mem _ hr)
    rw [List.length_cons, cutRows, List.flatten_cons, List.take_left' hrow,
      List.drop_left' hrow, hrows]

def rawSave (img : PngImageBuf) : Bytes :=
  pngSignature ++ UInt8.ofNat img.channels :: (writeBe32 img.width ++
    (writeBe32 img.height ++ img.rows.flatten))

def rawLoad (file : Bytes) : Except StegoStatus PngImageBuf :=
  if file.take 8 ≠ pngSignature then .error .errNotPng else
  let channels := (file.getD 8 0).toNat
  let width := readBe32 (file.drop 9)
  let height := readBe32 (file.drop 13)
  let samples := file.drop 17
  if h : (channels = 3 ∨ channels = 4) ∧
      samples.length = height.toNat * (width.toNat * channels) then
    .ok { width := width
          height := height
          channels := channels
          rows := cutRows (width.toNat * channels) height.toNat samples
          channels_eq := h.1
          rows_length := cutRows_length _ _ _
          row_length := cutRows_row_length h.2 }
  else .error .errUnsupported

theorem rawLoad_error {file : Bytes} {status : StegoStatus} (h : rawLoad file = .error status) :
    status ≠ .ok := by
  unfold rawLoad at h
  split at h
  · cases h
    decide
  · dsimp only at h
    split at h
    · cases h
    · cases h
      decide

def rawMetadata (file : Bytes) : Option PngMetadata :=
  match rawLoad file with
  | .error _ => none
  | .ok img => some { width := img.width
                      height := img.height
                      bit_depth := 8
                      color_type := if img.channels = 4 then 6 else 2
                      channels := img.channels }

def rawCodec : PngCodec where
  load := rawLoad
  save := rawSave
  metadata := rawMetadata
  load_error _ _ := rawLoad_error

theorem rawLoad_rawSave (img : PngImageBuf) : rawLoad (rawSave img) = .ok img := by
  have hsig : (rawSave img).take 8 = pngSignature := rfl
  have hchannels : ((rawSave img).getD 8 0).toNat = img.channels := by
    change (UInt8.ofNat img.channels).toNat = img.channels
    rcases img.channels_eq with h | h <;> rw [h] <;> rfl
  have hwidth : readBe32 ((rawSave img).drop 9) = img.width := readBe32_writeBe32 _ _
  have hheight : readBe32 ((rawSave img).drop 13) = img.height := readBe32_writeBe32 _ _
  have hsamples : (rawSave img).drop 17 = img.rows.flatten := rfl
  have hrows : cutRows (img.width.toNat * img.channels) img.height.toNat img.rows.flatten =
    img.rows := by
    rw [← img.rows_length]
    exact cutRows_flatten img.row_length
  unfold rawLoad
  simp only [hsig, hchannels, hwidth, hheight, hsamples, hrows, ne_eq, not_true_eq_false, if_false]
  rw [dif_pos ⟨img.channels_eq, flatten_rows_length img⟩]

theorem rawCodec_lossless : rawCodec.Lossless := fun img _ _ _ _ => rawLoad_rawSave img

theorem rawCodec_takes (img : PngImageBuf) : rawCodec.Takes img :=
  ⟨rawSave img, img, rawLoad_rawSave img, rfl, rfl, rfl⟩

/-- A black strip of `width` pixels. -/
def blackStrip (width : UInt32) : PngImageBuf where
  width := width
  height := 1
  channels := 3
  rows := [List.replicate (width.toNat * 3) 0]
  channels_eq := rgb_channels
  rows_length := rfl
  row_length := by simp

theorem stego_roundTrip_blackStrip :
    ∃ e, stegoDecode (fun _ _ => true)
        (rawCodec.load (rawCodec.save (embedBits (blackStrip 64)
          (containerOf .file (some (lit "a.c")) (lit "int x;"))))) = (.ok, e) ∧
      e.type = .file ∧ e.data.getD [] = lit "int x;" ∧ e.data_len = 6 ∧
        cstr e.filename = lit "a.c" :=
  stego_roundTrip rawCodec rawCodec_lossless (fun _ _ => true) (fun _ _ => rfl) (blackStrip 64)
    (by decide) (rawCodec_takes _) .file (some (lit "a.c")) (by simp; decide) (lit "int x;")
    (by decide) _
    (encodeImage_of_fits (fun _ _ => rfl) (by rw [containerOf_length]; decide))

/-! The same codec, but it refuses images beyond the limit. -/

def boundedCodec : PngCodec where
  load file := match rawLoad file with
    | .ok img => if img.RowFitsInt then .ok img else .error .errUnsupported
    | .error status => .error status
  save := rawSave
  metadata := rawMetadata
  load_error file status h := by
    split at h
    · split at h
      · cases h
      · cases h
        decide
    · next hload =>
      cases h
      exact rawLoad_error hload

theorem boundedCodec_lossless : boundedCodec.Lossless := by
  intro img _ _ hfit _
  simp only [boundedCodec, rawLoad_rawSave, hfit, if_true]

theorem boundedCodec_bounded : boundedCodec.Bounded := by
  intro file img hload
  simp only [boundedCodec] at hload
  split at hload
  · split at hload
    · next hfit =>
      cases hload
      exact hfit
    · cases hload
  · cases hload

def hiddenStrip : Bytes := rawSave (embedBits (blackStrip 64) (containerOf .text none (lit "hi")))

end StegaPng
