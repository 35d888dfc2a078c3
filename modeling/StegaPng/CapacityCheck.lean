import StegaPng.Worker

/-! The capacity check of `encode_common` against the capacity that
`stego_get_capacity` reports, and against the width of the length fields. -/

namespace StegaPng

theorem buildContainer_some {malloc : Malloc} {type : StegoPayloadType} {filename : Option Bytes}
    {payload container : Bytes} (h : buildContainer malloc type filename payload = some container) :
    container = containerOf type filename payload := by
  unfold buildContainer at h
  dsimp only at h
  split at h
  · exact (Option.some.inj h).symm
  · cases h

theorem storedNameLen_eq (type : StegoPayloadType) (filename : Option Bytes) :
    storedNameLen type filename = if type = .file then min 255 (cstr (filename.getD [])).length
      else 0 := by
  match type, filename with
  | .text, _ => rfl
  | .file, none => rfl
  | .file, some f =>
    simp only [storedNameLen, if_true, Option.getD_some]
    split <;> omega

theorem payloadMaxBytes_eq (img : PngImageBuf) :
    (capacityOf img).payload_max_bytes = imageDataBitCapacity img / 8 - 15 := by
  change (if imageDataBitCapacity img / 8 > 15 then imageDataBitCapacity img / 8 - 15 else 0) = _
  by_cases h : imageDataBitCapacity img / 8 > 15
  · rw [if_pos h]
  · rw [if_neg h]
    omega

/-- Nothing is lost between the lengths of a request and what is written and compared
for it, and the written image decodes to as many payload bytes. -/
structure LengthsExact (img : PngImageBuf) (type : StegoPayloadType) (filename : Option Bytes)
    (payload : Bytes) (out : PngImageBuf) : Prop where
  field : payloadLenField (containerOf type filename payload) = payload.length
  total : 4 + 1 + 2 + storedNameLen type filename + 4 + payload.length + 4 < 2 ^ 64
  bits : (containerOf type filename payload).length * 8 < 2 ^ 64
  capacity : img.width.toNat * img.height.toNat * dataChannels img.channels < 2 ^ 64
  decoded : ∀ malloc ex, stegoDecode malloc (.ok out) = (.ok, ex) → ex.data_len = payload.length

theorem capacity_lt {img : PngImageBuf} (hw : img.width.toNat < 2 ^ 31)
    (hh : img.height.toNat < 2 ^ 31) :
    img.width.toNat * img.height.toNat * dataChannels img.channels < 2 ^ 64 := by
  have hdata := dataChannels_eq img
  have hpixels : img.width.toNat * img.height.toNat < 2 ^ 31 * 2 ^ 31 := Nat.mul_lt_mul'' hw hh
  rw [hdata]
  omega

/-- The length arithmetic of an accepted request is exact exactly for the payloads whose
length the four-byte field holds. -/
theorem lengths_exact (malloc : Malloc) (img : PngImageBuf) (hw : img.width.toNat < 2 ^ 31)
    (hh : img.height.toNat < 2 ^ 31) (type : StegoPayloadType) (filename : Option Bytes)
    (payload : Bytes) (out : PngImageBuf)
    (h : encodeImage malloc img type filename payload = .ok out) :
    LengthsExact img type filename payload out ↔ payload.length < 2 ^ 32 := by
  constructor
  · intro hexact
    rw [← hexact.field]
    exact payloadLenField_lt _
  · intro hlen
    have hname := (storedNameLen_le type filename).1
    obtain ⟨rfl, hcap⟩ := encodeImage_ok (Nat.lt_trans hlen (by decide)) h
    have hlt := imageDataBitCapacity_lt img
    refine ⟨containerOf_payloadLenField hlen (List.append_nil _).symm, by omega, by omega,
      capacity_lt hw hh, ?_⟩
    intro malloc' ex hdecode
    obtain ⟨hok, -, -⟩ := stegoDecode_ok hdecode
    have hgood := hok.symm.trans (decodeImage_embedBits (fun _ _ => rfl) hlen hcap)
    rw [(Prod.mk.inj hgood).2]

theorem lengths_exact_blackStrip :
    LengthsExact (blackStrip 64) .text none (lit "hi")
      (embedBits (blackStrip 64) (containerOf .text none (lit "hi"))) := by
  refine (lengths_exact (fun _ _ => true) (blackStrip 64) (by decide) (by decide) .text none
    (lit "hi") _ ?_).mpr (by decide)
  exact encodeImage_of_fits (fun _ _ => rfl) (by rw [containerOf_length]; decide)

/-- A black image of `width` by `height` pixels. -/
def blackField (width height : UInt32) : PngImageBuf where
  width := width
  height := height
  channels := 3
  rows := List.replicate height.toNat (List.replicate (width.toNat * 3) 0)
  channels_eq := rgb_channels
  rows_length := List.length_replicate
  row_length := by
    intro row hrow
    rw [List.eq_of_mem_replicate hrow, List.length_replicate]

/-- Four gigabytes of payload, and a carrier with room for them. -/
def hugePayload : Bytes := List.replicate (2 ^ 32) 0

def hugeCarrier : PngImageBuf := blackField 131072 131072

theorem hugePayload_length : hugePayload.length = 2 ^ 32 := List.length_replicate

theorem hugePayload_fits :
    (containerOf .text none hugePayload).length * 8 ≤ imageDataBitCapacity hugeCarrier := by
  rw [containerOf_length, hugePayload_length]
  decide

/-- A payload that the length field does not hold passes the capacity check. -/
theorem lengths_truncated :
    ¬ ∀ malloc img, img.width.toNat < 2 ^ 31 → img.height.toNat < 2 ^ 31 →
      ∀ type filename payload out,
      encodeImage malloc img type filename payload = .ok out →
        LengthsExact img type filename payload out := by
  intro hclaim
  have hencode : encodeImage (fun _ _ => true) hugeCarrier .text none hugePayload = _ :=
    encodeImage_of_fits (fun _ _ => rfl) hugePayload_fits
  have hexact := hclaim (fun _ _ => true) hugeCarrier (by decide)
    (by decide) .text none hugePayload _ hencode
  have hfield := payloadLenField_lt (containerOf .text none hugePayload)
  rw [hexact.field, hugePayload_length] at hfield
  exact Nat.lt_irrefl _ hfield

end StegaPng
