import StegaPng.Publication

/-! What an encode job hides, a decode job of its result brings back. -/

namespace StegaPng

open Interleaving

/-- The size fields of the request that a job was created for. -/
def requestOf (job : Nat) (h : List Mark) : ProtocolRequest := protocolParseLine (origin job h).1

/-- The text of an ENCODE_TEXT request: the body after the PNG. -/
def uploadedText (job : Nat) (h : List Mark) : Bytes :=
  (origin job h).2.drop (requestOf job h).size1.toNat

/-- The name of an ENCODE_FILE request: the body between the PNG and the content. -/
def uploadedName (job : Nat) (h : List Mark) : Bytes :=
  ((origin job h).2.drop (requestOf job h).size1.toNat).take (requestOf job h).size2.toNat

/-- The content of an ENCODE_FILE request: the end of the body. -/
def uploadedFile (job : Nat) (h : List Mark) : Bytes :=
  (origin job h).2.drop ((requestOf job h).size1.toNat + (requestOf job h).size2.toNat)

section

variable {cfg : RuntimeConfig} {codec : PngCodec} {files : Bytes → Option Bytes} {r d : Job}

theorem Encoded.decoded (hcodec : codec.Lossless) (hbounded : codec.Bounded)
    {type : StegoPayloadType} {filename : Option Bytes} {payload content : Bytes}
    (hlen : payload.length < 2 ^ 32) (henc : Encoded codec files r type filename payload content)
    {malloc : Malloc} {ex : StegoExtracted}
    (hdecode : stegoDecode malloc (codec.load content) = (.ok, ex)) :
    ex.type = type ∧ ex.filename = filenameArray (storedName type filename) ∧
      ex.data.getD [] = payload ∧
      ex.data_len = payload.length := by
  obtain ⟨malloc', png, img, out, -, hload, hencode, rfl⟩ := henc
  have hfit := hbounded png img hload
  obtain ⟨rfl, hcap⟩ := encodeImage_ok (Nat.lt_trans hlen (by decide)) hencode
  have hperfect := (stegoDecode_ok hdecode).1
  rw [load_save_embedBits hcodec hfit ⟨png, img, hload, rfl, rfl, rfl⟩ hcap] at hperfect
  have hgood : (StegoStatus.ok, ex) = _ :=
    hperfect.symm.trans (decodeImage_embedBits (fun _ _ => rfl) hlen hcap)
  obtain ⟨-, rfl⟩ := Prod.mk.inj hgood
  refine ⟨rfl, rfl, ?_, rfl⟩
  by_cases h0 : payload.length > 0
  · simp [h0]
  · simp [List.eq_nil_of_length_eq_zero (show payload.length = 0 by omega)]

theorem PublishedPayload.of_encoded (hcodec : codec.Lossless) (hbounded : codec.Bounded)
    {type : StegoPayloadType} {filename : Option Bytes} {payload content : Bytes}
    (hlen : payload.length < 2 ^ 32) (henc : Encoded codec files r type filename payload content)
    (hpub : PublishedPayload cfg codec files d) (hinput : files d.input_path = some content) :
    files d.output_path = some payload ∧ d.result_size = payload.length ∧
      d.result_kind = decodedKind type ∧
      d.result_filename = snprintf maxJobFilename
        (if type = .text then lit "decoded.txt" else
          cstr (filenameArray (storedName type filename))) := by
  obtain ⟨malloc, png, ex, hpng, hdecode, -, hfile, hkind, hsize, hname⟩ := hpub
  obtain rfl : content = png := Option.some.inj (hinput.symm.trans hpng)
  obtain ⟨htype, hfilename, hdata, hdatalen⟩ := henc.decoded hcodec hbounded hlen hdecode
  rw [hdata] at hfile
  rw [hdatalen] at hsize
  rw [htype] at hkind
  rw [decodedName, htype, hfilename] at hname
  exact ⟨hfile, hsize, hkind, hname⟩

end

section

variable {codec : PngCodec} {cfg : RuntimeConfig} {dt : DurationText} {fds : ServerFds}
  {files : Bytes → Option Bytes} {c : ServerConfig} {i k : Nat}

/-- The text that an ENCODE_TEXT job has hidden. -/
theorem Inv.encodedText {s : Sys} (hinv : Inv cfg codec s) (hfree : FaultFree s.history)
    (hi : i < s.world.jobs.length) (hdone : (s.world.job i).state = .done)
    (htype : (s.world.job i).type = .encodeText) {content : Bytes}
    (hcontent : s.world.files (s.world.job i).output_path = some content) :
    (uploadedText i s.history).length ≤ maxTextBytes ∧
      Encoded codec s.world.files (s.world.job i) .text none
        (uploadedText i s.history) content := by
  have hup := hinv.upload i hi
  have hstored := hinv.stored i hi (hinv.finished_not_making (by rw [hdone]; decide))
  have hout := hinv.outcome i hi
  simp only [Settled, hdone, Published, htype] at hout
  simp only [UploadOk, htype] at hup
  simp only [StoredOk, htype] at hstored
  obtain ⟨-, hsize, hbody, -, -, htext⟩ := hup
  obtain ⟨content', -, hfile, -, -, -, hpayload⟩ := hout
  obtain rfl : content = content' := Option.some.inj (hcontent.symm.trans hfile)
  obtain ⟨text, htext', henc⟩ := hpayload hfree
  have hlen : (uploadedText i s.history).length ≤ maxTextBytes := by
    rw [uploadedText, List.length_drop, requestOf]
    omega
  rw [hstored, htext] at htext'
  obtain rfl : uploadedText i s.history = text := Option.some.inj htext'
  rw [List.take_of_length_le hlen] at henc
  exact ⟨hlen, henc⟩

/-- The content that an ENCODE_FILE job has hidden, under the name it was given. -/
theorem Inv.encodedFile {s : Sys} (hinv : Inv cfg codec s) (hfree : FaultFree s.history)
    (hi : i < s.world.jobs.length) (hdone : (s.world.job i).state = .done)
    (htype : (s.world.job i).type = .encodeFile) {content : Bytes}
    (hcontent : s.world.files (s.world.job i).output_path = some content)
    (hname : uploadedName i s.history ≠ []) (hnul : 0 ∉ uploadedName i s.history) :
    (uploadedName i s.history).length ≤ 255 ∧
      Encoded codec s.world.files (s.world.job i) .file (some (uploadedName i s.history))
        (uploadedFile i s.history)
        content := by
  have hup := hinv.upload i hi
  have hstored := hinv.stored i hi (hinv.finished_not_making (by rw [hdone]; decide))
  have hout := hinv.outcome i hi
  simp only [Settled, hdone, Published, htype] at hout
  simp only [UploadOk, htype] at hup
  simp only [StoredOk, htype] at hstored
  obtain ⟨-, hsize, -, -, -, hpayload, hdata⟩ := hup
  obtain ⟨content', -, hfile, -, -, -, henc⟩ := hout
  obtain rfl : content = content' := Option.some.inj (hcontent.symm.trans hfile)
  obtain ⟨data, hdata', henc⟩ := henc hfree
  have hlen : (uploadedName i s.history).length ≤ 255 := (List.length_take_le _ _).trans hsize
  have hpayload' : (s.world.job i).payload = uploadedName i s.history := by
    rw [hpayload]
    exact cstr_of_nul_free hnul
  have hstoredAs : storedAs (s.world.job i) = uploadedName i s.history := by
    have hmax : maxJobFilename = 256 := rfl
    rw [storedAs, hpayload', snprintf_eq (by omega)]
    exact if_pos hname
  rw [hstored, hdata] at hdata'
  obtain rfl : uploadedFile i s.history = data := Option.some.inj hdata'
  rw [hstoredAs] at henc
  exact ⟨hlen, henc⟩

/-- The job pipeline's round trip. Job `i` has encoded, and the body of the request of
the DECODE job `k` was what `i` has published. -/
theorem pipeline_roundTrip (hcodec : codec.Lossless) (hbounded : codec.Bounded)
    (h : ServerReachable codec cfg dt fds files c) (hfree : FaultFree c.state.history)
    (hi : i < c.state.world.jobs.length) (hk : k < c.state.world.jobs.length)
    (hidone : (c.state.world.job i).state = .done) (hkdone : (c.state.world.job k).state = .done)
    (hdecode : (c.state.world.job k).type = .decode)
    (hsubmitted : c.state.world.files (c.state.world.job i).output_path =
      some (origin k c.state.history).2) :
    ((c.state.world.job i).type = .encodeText →
      c.state.world.files (c.state.world.job k).output_path =
        some (uploadedText i c.state.history) ∧
      (c.state.world.job k).result_size = (uploadedText i c.state.history).length ∧
      (c.state.world.job k).result_kind = .text) ∧
    ((c.state.world.job i).type = .encodeFile → uploadedName i c.state.history ≠ [] →
      0 ∉ uploadedName i c.state.history → (uploadedFile i c.state.history).length < 2 ^ 32 →
      c.state.world.files (c.state.world.job k).output_path =
        some (uploadedFile i c.state.history) ∧
      (c.state.world.job k).result_size = (uploadedFile i c.state.history).length ∧
      (c.state.world.job k).result_kind = .file ∧
      (c.state.world.job k).result_filename = uploadedName i c.state.history) := by
  have hinv := h.inv
  have hup := hinv.upload k hk
  have hpub := hinv.outcome k hk
  simp only [Settled, hkdone, Published, hdecode] at hpub
  simp only [UploadOk, hdecode] at hup
  obtain ⟨-, -, hinput, hfile⟩ := hup
  rw [← hinput] at hfile
  refine ⟨fun htype => ?_, fun htype hname hnul hlen => ?_⟩
  · obtain ⟨hlen, henc⟩ := hinv.encodedText hfree hi hidone htype hsubmitted
    have hmax : maxTextBytes = 1024 * 1024 := rfl
    obtain ⟨hout, hsize, hkind, -⟩ := hpub.of_encoded hcodec hbounded (by omega) henc hfile
    exact ⟨hout, hsize, hkind⟩
  · obtain ⟨hshort, henc⟩ := hinv.encodedFile hfree hi hidone htype hsubmitted hname hnul
    obtain ⟨hout, hsize, hkind, hfilename⟩ := hpub.of_encoded hcodec hbounded hlen henc hfile
    refine ⟨hout, hsize, hkind, ?_⟩
    have hstored : storedName .file (some (uploadedName i c.state.history)) =
      uploadedName i c.state.history := by
      rw [storedName_eq .file fun f hf => Option.some.inj hf ▸ hnul]
      exact List.take_of_length_le hshort
    have hmax : maxJobFilename = 256 := rfl
    rw [hfilename, if_neg (by simp), hstored, cstr_filenameArray hnul hshort,
      snprintf_eq (by omega)]

end

/-! A run of both jobs. -/

theorem faultFree_of_all {h : List Mark} (hall : h.all (fun m => !m.isFault) = true) :
    FaultFree h := by
  intro t call path hmem
  have hmark := List.all_eq_true.mp hall _ hmem
  cases hmark

theorem pipeline_roundTrip_hideAndSeek :
    ∃ c, ServerReachable boundedCodec runtimeConfigDefaults plainDurations plainFds
      (fun _ => none) c ∧
      uploadedText 0 c.state.history = lit "hi" ∧
      c.state.world.files (c.state.world.job 1).output_path =
        some (uploadedText 0 c.state.history) ∧
      (c.state.world.job 1).result_size = 2 ∧ (c.state.world.job 1).result_kind = .text := by
  obtain ⟨c, hreach, hc⟩ :=
    exists_reachable boundedCodec runtimeConfigDefaults plainDurations plainFds (fun _ => none)
    hideAndSeek (fun c => (c.state.history.all (fun m => !m.isFault),
      decide (c.state.world.jobs.length = 2 ∧
      (c.state.world.job 0).state = .done ∧ (c.state.world.job 1).state = .done ∧
      (c.state.world.job 0).type = .encodeText ∧ (c.state.world.job 1).type = .decode ∧
      c.state.world.files (c.state.world.job 0).output_path = some (origin 1 c.state.history).2 ∧
      uploadedText 0 c.state.history = lit "hi")))
    (show _ = some (true, true) by decide +kernel)
  obtain ⟨hall, hrest⟩ := Prod.mk.inj hc
  obtain ⟨hlength, hidone, hkdone, htype, hdecode, hsubmitted, htext⟩ := of_decide_eq_true hrest
  obtain ⟨hround, -⟩ := pipeline_roundTrip boundedCodec_lossless boundedCodec_bounded hreach
    (faultFree_of_all hall)
    (i := 0) (k := 1) (by omega) (by omega) hidone hkdone hdecode hsubmitted
  obtain ⟨hout, hsize, hkind⟩ := hround htype
  exact ⟨c, hreach, htext, hout, by rw [hsize, htext]; rfl, hkind⟩

end StegaPng
