import StegaPng.CapacityCheck

/-! Encoding again what was decoded: which accepted containers the decoder's result
describes in full. -/

namespace StegaPng

open BitPacking

theorem beNat_two_inj {a b : Bytes} (ha : a.length = 2) (hb : b.length = 2)
    (h : beNat a = beNat b) : a = b := by
  match a, b, ha, hb with
  | [a₁, a₂], [b₁, b₂], _, _ =>
    have h₁ := a₁.toNat_lt
    have h₂ := a₂.toNat_lt
    have h₃ := b₁.toNat_lt
    have h₄ := b₂.toNat_lt
    simp only [beNat, List.foldl_cons, List.foldl_nil] at h
    have heq₁ : a₁ = b₁ := UInt8.toNat_inj.mp (by omega)
    have heq₂ : a₂ = b₂ := UInt8.toNat_inj.mp (by omega)
    rw [heq₁, heq₂]

theorem beNat_append_two (a b : Bytes) (hb : b.length = 2) :
    beNat (a ++ b) = 2 ^ 16 * beNat a + beNat b := by
  match b, hb with
  | [b₁, b₂], _ =>
    simp only [beNat, List.foldl_append, List.foldl_cons, List.foldl_nil]
    omega

theorem beNat_four_inj {a b : Bytes} (ha : a.length = 4) (hb : b.length = 4)
    (h : beNat a = beNat b) : a = b := by
  have hsplit : ∀ bs : Bytes, bs.length = 4 → beNat bs = 2 ^ 16 * beNat (bs.take 2) +
    beNat (bs.drop 2) := by
    intro bs hbs
    rw [← beNat_append_two _ _ (by rw [List.length_drop, hbs]), List.take_append_drop]
  have hlow : ∀ bs : Bytes, bs.length = 4 → beNat (bs.drop 2) < 2 ^ 16 := by
    intro bs hbs
    have hlt := beNat_lt (bs.drop 2)
    rw [List.length_drop, hbs] at hlt
    exact hlt
  rw [hsplit a ha, hsplit b hb] at h
  have hla := hlow a ha
  have hlb := hlow b hb
  have hhigh : a.take 2 = b.take 2 :=
    beNat_two_inj (by rw [List.length_take, ha]; rfl) (by rw [List.length_take, hb]; rfl) (by omega)
  have hrest : a.drop 2 = b.drop 2 :=
    beNat_two_inj (by rw [List.length_drop, ha]) (by rw [List.length_drop, hb]) (by omega)
  rw [← List.take_append_drop 2 a, hhigh, hrest, List.take_append_drop]

theorem writeBe16_beNat {bs : Bytes} (h : bs.length = 2) :
    writeBe16 (UInt16.ofNat (beNat bs)) = bs := by
  have hlt : beNat bs < 2 ^ 16 := by
    have hbound := beNat_lt bs
    rw [h] at hbound
    exact hbound
  refine beNat_two_inj (length_writeBe16 _) h ?_
  rw [beNat_writeBe16, UInt16.toNat_ofNat', Nat.mod_eq_of_lt hlt]

theorem writeBe32_eq {bs : Bytes} {v : UInt32} (h : bs.length = 4) (hv : v.toNat = beNat bs) :
    writeBe32 v = bs :=
  beNat_four_inj (length_writeBe32 v) h (by rw [beNat_writeBe32, hv])

theorem embedBits_carrierBytes {img : PngImageBuf} {n : Nat} (hn : n ≤ (carrierBytes img).length) :
    embedBits img ((carrierBytes img).take n) = img := by
  have hlt := imageDataBitCapacity_lt img
  have hcap := carrierBytes_length img
  have hlength : ((carrierBytes img).take n).length = n := List.length_take_of_le hn
  apply embedBits_eq_self
  rw [hlength, sizeT, Nat.mod_eq_of_lt (by omega)]
  apply overlay_eq_self
  intro i hi hbit
  rw [bitAt_take (by omega), Nat.zero_add, carrierBytes, bitAt_pack _ (by omega)]

/-! The name that a container stores, and what the decoder keeps of it. -/

def storedNameOf (B : Bytes) : Bytes := (B.drop 7).take (nameLenField B)

theorem storedNameOf_length {B : Bytes} (h : Framed B) :
    (storedNameOf B).length = nameLenField B := by
  have hfits := h.name_fits
  rw [storedNameOf, List.length_take, List.length_drop]
  omega

/-- The decoder's result describes the container in full. -/
structure Faithful (B : Bytes) : Prop where
  short : nameLenField B ≤ 255
  nul_free : 0 ∉ storedNameOf B
  named : (extractedOf B).type = .file ∨ nameLenField B = 0

theorem cstr_length_eq {s : Bytes} (h : (cstr s).length = s.length) : 0 ∉ s := by
  have hself : cstr s = s := (List.takeWhile_prefix _).eq_of_length h
  rw [← hself]
  exact cstr_nul_free s

/-- A name shorter than the array is cut at its first NUL only. -/
theorem extractedOf_cstr {B : Bytes} (h : nameLenField B ≤ 255) :
    (extractedOf B).filename = storedNameOf B ++ List.replicate (256 - (storedNameOf B).length) 0 ∧
      cstr (extractedOf B).filename = cstr (storedNameOf B) := by
  have hfilename : (extractedOf B).filename = filenameArray (storedNameOf B) := by
    rw [storedNameOf, ← Nat.min_eq_left h]
    exact congrArg (fun n => filenameArray ((B.drop 7).take n)) (by omega)
  have hlen : (storedNameOf B).length ≤ 255 := Nat.le_trans (List.length_take_le _ _) h
  obtain ⟨n, hn⟩ : ∃ n, 256 - (storedNameOf B).length = n + 1 :=
    ⟨255 - (storedNameOf B).length, by omega⟩
  refine ⟨hfilename, ?_⟩
  rw [hfilename, filenameArray, hn, List.replicate_succ, cstr_append_nul]

theorem extractedOf_cstr_le (B : Bytes) : (cstr (extractedOf B).filename).length ≤
    min (nameLenField B) 255 := by
  have hlen : ((B.drop 7).take (min (nameLenField B) 255)).length ≤ min (nameLenField B) 255 :=
    List.length_take_le _ _
  obtain ⟨n, hn⟩ : ∃ n, 256 - ((B.drop 7).take (min (nameLenField B) 255)).length = n + 1 :=
    ⟨255 - ((B.drop 7).take (min (nameLenField B) 255)).length, by omega⟩
  change (cstr (filenameArray _)).length ≤ _
  rw [filenameArray, hn, List.replicate_succ, cstr_append_nul]
  exact Nat.le_trans (cstr_length_le _) hlen

theorem extractedOf_data (B : Bytes) :
    (extractedOf B).data.getD [] = (B.drop (11 + nameLenField B)).take (payloadLenField B) := by
  by_cases hpos : payloadLenField B > 0
  · simp [extractedOf, hpos]
  · simp [extractedOf, Nat.eq_zero_of_not_pos hpos]

/-- What `build_container` is given when a decoded payload is encoded again. -/
def rebuilt (B : Bytes) : Bytes :=
  containerOf (extractedOf B).type (some (extractedOf B).filename) ((extractedOf B).data.getD [])

section

variable {B : Bytes}

theorem rebuilt_nameLen (h : Framed B) (hfaithful : Faithful B) :
    storedNameLen (extractedOf B).type (some (extractedOf B).filename) = nameLenField B := by
  have hlen := storedNameOf_length h
  have hshort := hfaithful.short
  have hcstr : cstr (extractedOf B).filename = storedNameOf B := by
    rw [(extractedOf_cstr hshort).2, cstr_of_nul_free hfaithful.nul_free]
  rw [storedNameLen_eq, Option.getD_some, hcstr, hlen]
  rcases hfaithful.named with hfile | hnone
  · rw [if_pos hfile]
    omega
  · split <;> omega

/-- The pieces of a container, in the order of the layout. -/
theorem take_container (B : Bytes) (f p : Nat) :
    B.take (11 + f + p) = B.take 4 ++ (B.drop 4).take 1 ++ (B.drop 5).take 2 ++ (B.drop 7).take f ++
      (B.drop (7 + f)).take 4 ++ (B.drop (11 + f)).take p := by
  rw [show 11 + f + p = 4 + 1 + 2 + f + 4 + p by omega, List.take_add, List.take_add, List.take_add,
    List.take_add, List.take_add]
  rw [show 4 + 1 + 2 + f + 4 = 11 + f by omega]

/-- A container that the decoder describes in full is built again byte for byte. -/
theorem rebuilt_eq (h : Framed B) (hcrc : ChecksumOk B) (hfaithful : Faithful B) :
    rebuilt B = B.take (checkedLen B + 4) := by
  have hroom := h.room
  have hname := h.name_fits
  have hpay := h.payload_fits
  have hchecked : checkedLen B = 11 + nameLenField B + payloadLenField B := rfl
  have htype : (B.drop 4).take 1 = [(extractedOf B).type.code] := by
    have hbyte : (B.drop 4).take 1 = [B.getD 4 0] := by
      have h4 : 4 < B.length := by omega
      rw [List.drop_eq_getElem_cons h4, List.take_succ_cons, List.take_zero,
        List.getD_eq_getElem _ _ h4]
    rw [hbyte]
    rcases h.type with h0 | h1
    · rw [h0, extractedOf, h0]
      rfl
    · rw [h1, extractedOf, h1]
      rfl
  have hnameField : writeBe16 (UInt16.ofNat (nameLenField B)) = (B.drop 5).take 2 :=
    writeBe16_beNat (by rw [List.length_take, List.length_drop]; omega)
  have hnameBytes : (extractedOf B).filename.take (nameLenField B) =
    (B.drop 7).take (nameLenField B) := by
    rw [(extractedOf_cstr hfaithful.short).1, List.take_left' (storedNameOf_length h)]
    rfl
  have hdata : ((B.drop (11 + nameLenField B)).take (payloadLenField B)).length =
    payloadLenField B := by
    rw [List.length_take, List.length_drop]
    omega
  have hpayField : writeBe32 (UInt32.ofNat (payloadLenField B)) =
    (B.drop (7 + nameLenField B)).take 4 := by
    refine writeBe32_eq (by rw [List.length_take, List.length_drop]; omega) ?_
    rw [UInt32.toNat_ofNat', Nat.mod_eq_of_lt (payloadLenField_lt B)]
    rfl
  have hbody : containerBody (extractedOf B).type (some (extractedOf B).filename)
    ((extractedOf B).data.getD []) =
      B.take (checkedLen B) := by
    rw [hchecked, take_container, containerBody]
    simp only [rebuilt_nameLen h hfaithful, Option.getD_some, extractedOf_data, hnameField,
      hnameBytes, hdata, hpayField, htype, h.magic]
  have hsum : writeBe32 (stegoCrc32 (B.take (checkedLen B))) = (B.drop (checkedLen B)).take 4 := by
    refine writeBe32_eq (by rw [List.length_take, List.length_drop]; omega) ?_
    rw [stegoCrc32_eq_crc32]
    exact hcrc
  rw [rebuilt, containerOf, hbody, hsum, List.take_add]

/-- If the container survives, the decoder had described it in full. -/
theorem faithful_of_rebuilt (h : Framed B) {rest : Bytes} (hB : B = rebuilt B ++ rest) :
    Faithful B := by
  have hstored := (containerOf_nameLenField hB).trans
    (storedNameLen_eq (extractedOf B).type (some (extractedOf B).filename))
  rw [Option.getD_some] at hstored
  by_cases hfile : (extractedOf B).type = .file
  · rw [if_pos hfile] at hstored
    have hshort : nameLenField B ≤ 255 := by omega
    refine ⟨hshort, ?_, .inl hfile⟩
    rw [(extractedOf_cstr hshort).2] at hstored
    have hlen := storedNameOf_length h
    have hcut := cstr_length_le (storedNameOf B)
    exact cstr_length_eq (by omega)
  · rw [if_neg hfile] at hstored
    refine ⟨by omega, ?_, .inr hstored⟩
    rw [storedNameOf, hstored, List.take_zero]
    exact List.not_mem_nil

theorem rebuilt_length_le (h : Framed B) : (rebuilt B).length ≤ B.length := by
  have hfits := h.payload_fits
  have hstored : storedNameLen (extractedOf B).type (some (extractedOf B).filename) ≤
    nameLenField B := by
    rw [storedNameLen_eq, Option.getD_some]
    have hcut := extractedOf_cstr_le B
    split <;> omega
  have hdata : ((extractedOf B).data.getD []).length ≤ payloadLenField B := by
    rw [extractedOf_data]
    exact List.length_take_le _ _
  rw [rebuilt, containerOf_length]
  omega

end

theorem stegoDecode_framed {malloc : Malloc} {img : PngImageBuf} {ex : StegoExtracted}
    (h : stegoDecode malloc (.ok img) = (.ok, ex)) :
    Framed (carrierBytes img) ∧ ChecksumOk (carrierBytes img) ∧
      ex = extractedOf (carrierBytes img) := by
  obtain ⟨hok, -, -⟩ := stegoDecode_ok h
  by_cases hframed : Framed (carrierBytes img)
  · have hdecode := hok.symm.trans (decodeImage_of_framed (fun _ _ => rfl) hframed)
    by_cases hcrc : ChecksumOk (carrierBytes img)
    · rw [if_pos hcrc] at hdecode
      exact ⟨hframed, hcrc, (Prod.mk.inj hdecode).2⟩
    · rw [if_neg hcrc] at hdecode
      exact absurd (Prod.mk.inj hdecode).1 (by decide)
  · have hdecode := hok.symm.trans (decodeImage_of_not_framed (fun _ _ => rfl) hframed)
    exact absurd (Prod.mk.inj hdecode).1 (by decide)

/-- Building and embedding again what was decoded gives the image back exactly when the
decoder described its container in full. -/
theorem reencode_iff (malloc malloc' : Malloc) (img : PngImageBuf) (ex : StegoExtracted)
    (container : Bytes) (hdecode : stegoDecode malloc (.ok img) = (.ok, ex))
    (hbuild : buildContainer malloc' ex.type (some ex.filename) (ex.data.getD []) =
      some container) :
    let B := carrierBytes img
    embedBits img container = img ↔
      nameLenField B ≤ 255 ∧ 0 ∉ (B.drop 7).take (nameLenField B) ∧
        (ex.type = .file ∨ nameLenField B = 0) := by
  intro B
  obtain ⟨hframed, hcrc, rfl⟩ := stegoDecode_framed hdecode
  obtain rfl := buildContainer_some hbuild
  change embedBits img (rebuilt B) = img ↔ _
  constructor
  · intro hsame
    have hcap : (rebuilt B).length * 8 ≤ imageDataBitCapacity img := by
      have hle : (rebuilt B).length ≤ (carrierBytes img).length := rebuilt_length_le hframed
      rw [carrierBytes_length] at hle
      omega
    have hB := carrierBytes_embedBits hcap
    rw [hsame] at hB
    obtain ⟨hshort, hfree, hnamed⟩ := faithful_of_rebuilt hframed hB
    exact ⟨hshort, hfree, hnamed⟩
  · intro hfaithful
    rw [rebuilt_eq hframed hcrc ⟨hfaithful.1, hfaithful.2.1, hfaithful.2.2⟩]
    have hfits := hframed.payload_fits
    exact embedBits_carrierBytes (by unfold checkedLen; omega)

/-- A program hidden under its name. -/
def namedPayload : PngImageBuf :=
  embedBits (blackStrip 64) (containerOf .file (some (lit "a.c")) (lit "int x;"))

theorem reencode_iff_named :
    ∃ ex, stegoDecode (fun _ _ => true) (.ok namedPayload) = (.ok, ex) ∧
      embedBits namedPayload (containerOf ex.type (some ex.filename) (ex.data.getD [])) =
        namedPayload := by
  have hcap : (containerOf .file (some (lit "a.c")) (lit "int x;")).length * 8 ≤
    imageDataBitCapacity (blackStrip 64) := by
    rw [containerOf_length]
    decide
  have hdecode : decodeImage (fun _ _ => true) namedPayload = _ :=
    decodeImage_embedBits (fun _ _ => rfl) (by decide) hcap
  have hB := carrierBytes_embedBits hcap
  have hlen : nameLenField (carrierBytes namedPayload) = 3 := containerOf_nameLenField hB
  have hname : ((carrierBytes namedPayload).drop 7).take 3 = lit "a.c" := containerOf_name hB
  refine ⟨_, hdecode, (reencode_iff (fun _ _ => true)
    (fun _ _ => true) namedPayload _ _ hdecode rfl).mpr ?_⟩
  rw [hlen, hname]
  exact ⟨by decide, by decide, .inl rfl⟩

end StegaPng
