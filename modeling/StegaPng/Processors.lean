import StegaPng.WorkerConduct

/-! The processors keep to the conduct, and what they publish is what they made. -/

namespace StegaPng

open Interleaving

section

variable {cfg : RuntimeConfig} {codec : PngCodec} {i : Nat} {v v' : View} {s : Sys}

/-! Files and images. -/

/-- A saved image is the file's content, unless closing it failed. -/
theorem ensures_pngSave {suffix : Bytes} {img : PngImageBuf} (hlive : ¬ v.record.state.Terminal) :
    Ensures cfg codec i (pngSaveRgbOrRgba (resultPath cfg (v.job + 1) suffix) img) v fun rc v' =>
      v.Wrote v' ∧ (rc = .ok → ∃ content, v'.out suffix = some content ∧
        (FaultFree v'.past → content = codec.save img)) := by
  refine ensures_bind (ensures_fopenWb hlive) ?_
  rintro opened v₁ ⟨⟨out₁, past₁, hpast₁, rfl⟩, hopen⟩
  cases opened with
  | false => exact ensures_pure ⟨⟨_, _, hpast₁, rfl⟩, nofun⟩
  | true =>
    have hcleanup : ∀ {v₂ : View} {rc : StegoStatus}, v.Wrote v₂ → rc ≠ .ok →
        Ensures cfg codec i (do
          let _ ← call (.fclose (resultPath cfg (v.job + 1) suffix))
          call (.unlink (resultPath cfg (v.job + 1) suffix))
          return rc) v₂ fun rc v' =>
            v.Wrote v' ∧ (rc = .ok → ∃ content, v'.out suffix = some content ∧
              (FaultFree v'.past → content = codec.save img)) := by
      rintro v₂ rc ⟨out₂, past₂, hpast₂, rfl⟩ hrc
      refine ensures_bind (ensures_fclose hlive) ?_
      rintro closed v₃ ⟨⟨out₃, past₃, hpast₃, rfl⟩, -⟩
      refine ensures_bind (ensures_unlink hlive) ?_
      rintro _ v₄ ⟨out₄, past₄, hpast₄, rfl⟩
      exact ensures_pure ⟨⟨_, _, hpast₂.trans (hpast₃.trans hpast₄), rfl⟩, fun h => absurd h hrc⟩
    refine ensures_bind ensures_pngCreate ?_
    rintro created v₂ ⟨past₂, hpast₂, rfl⟩
    cases created with
    | false => exact hcleanup ⟨_, _, hpast₁.trans hpast₂, rfl⟩ nofun
    | true =>
      refine ensures_bind ensures_pngCreate ?_
      rintro created v₃ ⟨past₃, hpast₃, rfl⟩
      cases created with
      | false => exact hcleanup ⟨_, _, hpast₁.trans (hpast₂.trans hpast₃), rfl⟩ nofun
      | true =>
        refine ensures_bind (ensures_pngWrite hlive) ?_
        rintro written v₄ ⟨⟨out₄, past₄, hpast₄, rfl⟩, hwritten⟩
        have hpast := hpast₁.trans (hpast₂.trans (hpast₃.trans hpast₄))
        cases written with
        | false => exact hcleanup ⟨_, _, hpast, rfl⟩ nofun
        | true =>
          refine ensures_bind (ensures_fclose hlive) ?_
          rintro closed v₅ ⟨⟨out₅, past₅, hpast₅, rfl⟩, hkept, hexists⟩
          have hcontent := hwritten rfl _ (hopen rfl)
          obtain ⟨content, hfile⟩ := hexists _ hcontent
          refine ensures_pure ⟨⟨_, _, hpast.trans hpast₅, rfl⟩,
            fun _ => ⟨content, hfile, fun hfree => ?_⟩⟩
          have hsame := (hfile.symm.trans (hkept (.inr hfree))).trans hcontent
          exact Option.some.inj hsame

theorem encodeImage_error {malloc : Malloc} {img : PngImageBuf} {type : StegoPayloadType}
    {filename : Option Bytes} {payload : Bytes} {rc : StegoStatus}
    (h : encodeImage malloc img type filename payload = .error rc) :
    rc ≠ .ok := by
  unfold encodeImage at h
  split at h
  · cases h
    exact nofun
  · dsimp only at h
    split at h
    · cases h
      exact nofun
    · cases h

/-- The carrier with the payload embedded, read from the job's own upload. -/
def EncodedFrom (codec : PngCodec) (v : View) (type : StegoPayloadType) (filename : Option Bytes)
    (payload content : Bytes) : Prop :=
  ∃ malloc png img out, v.inp (lit "png") = some png ∧ codec.load png = .ok img ∧
    encodeImage malloc img type filename payload = .ok out ∧ content = codec.save out

theorem ensures_encodeCommon {suffix payload : Bytes} {type : StegoPayloadType}
    {filename : Option Bytes} (hlive : ¬ v.record.state.Terminal) :
    Ensures cfg codec i (encodeCommon (uploadPath cfg (v.job + 1) (lit "png"))
      (resultPath cfg (v.job + 1) suffix)
        type filename payload) v fun rc v' =>
      v.Wrote v' ∧ (rc = .ok → ∃ content, v'.out suffix = some content ∧
        (FaultFree v'.past → EncodedFrom codec v type filename payload content)) := by
  refine ensures_bind ensures_pngLoad ?_
  rintro loaded v₁ ⟨⟨past₁, hpast₁, rfl⟩, herror, hload⟩
  cases loaded with
  | error rc => exact ensures_pure ⟨⟨_, _, hpast₁, rfl⟩, fun hrc => absurd hrc (herror rc rfl)⟩
  | ok img =>
    obtain ⟨png, hpng, hloaded⟩ := hload _ img rfl rfl
    refine ensures_bind ensures_heap ?_
    rintro malloc v₂ ⟨past₂, hpast₂, rfl⟩
    cases hencode : encodeImage malloc img type filename payload with
    | error rc =>
      exact ensures_pure ⟨⟨_, _, hpast₁.trans hpast₂, rfl⟩,
        fun hrc => absurd hrc (encodeImage_error hencode)⟩
    | ok out =>
      refine ensures_mono (ensures_pngSave hlive) ?_
      rintro rc v₃ ⟨⟨out₃, past₃, hpast₃, rfl⟩, hsaved⟩
      refine ⟨⟨_, _, hpast₁.trans (hpast₂.trans hpast₃), rfl⟩, fun hrc => ?_⟩
      obtain ⟨content, hfile, hcontent⟩ := hsaved hrc
      exact ⟨content, hfile, fun hfree => ⟨malloc, png, img, out, hpng, hloaded, hencode,
        hcontent hfree⟩⟩

theorem ensures_stegoEncodeFile {suffix data_suffix : Bytes} {store_as : Option Bytes}
    (hlive : ¬ v.record.state.Terminal) :
    Ensures cfg codec i (stegoEncodeFile (uploadPath cfg (v.job + 1) (lit "png"))
      (resultPath cfg (v.job + 1) suffix)
        (uploadPath cfg (v.job + 1) data_suffix) store_as) v fun rc v' =>
      (∃ unreadable out past, v.past <:+ past ∧
        v' = { v with unreadable := unreadable, out := out, past := past }) ∧
      (rc = .ok → ∃ content, v'.out suffix = some content ∧
        (FaultFree v'.past → ∃ data, v.inp data_suffix = some data ∧
          EncodedFrom codec v .file
            (some (store_as.getD (baseName (uploadPath cfg (v.job + 1) data_suffix))))
            data content)) := by
  refine ensures_bind ensures_fopenRb ?_
  rintro found v₁ ⟨⟨past₁, hpast₁, rfl⟩, hfound⟩
  cases found with
  | false => exact ensures_pure ⟨⟨_, _, _, hpast₁, rfl⟩, nofun⟩
  | true =>
    obtain ⟨data, hdata⟩ := hfound rfl _ rfl
    refine ensures_bind ensures_fsize ?_
    rintro size v₂ ⟨⟨past₂, hpast₂, rfl⟩, hsize⟩
    cases size with
    | none => exact ensures_pure ⟨⟨_, _, _, hpast₁.trans hpast₂, rfl⟩, nofun⟩
    | some size =>
      have hlength : size = data.length := by
        have hsame := hsize _ size rfl rfl
        rwa [hdata, Option.getD_some] at hsame
      refine ensures_bind ensures_heap ?_
      rintro malloc v₃ ⟨past₃, hpast₃, rfl⟩
      have hpast := hpast₁.trans (hpast₂.trans hpast₃)
      split
      · exact ensures_pure ⟨⟨_, _, _, hpast, rfl⟩, nofun⟩
      · refine ensures_bind ensures_fread ?_
        rintro buf v₄ ⟨⟨past₄, hpast₄, rfl⟩, -, hread⟩
        split
        · exact ensures_pure ⟨⟨_, _, _, hpast.trans hpast₄, rfl⟩, nofun⟩
        · refine ensures_mono (ensures_encodeCommon hlive) ?_
          rintro rc v₅ ⟨⟨out₅, past₅, hpast₅, rfl⟩, hencoded⟩
          refine ⟨⟨_, _, _, hpast.trans (hpast₄.trans hpast₅), rfl⟩, fun hrc => ?_⟩
          obtain ⟨content, hfile, hcontent⟩ := hencoded hrc
          refine ⟨content, hfile, fun hfree => ⟨data, hdata, ?_⟩⟩
          have hbuf : buf = data := by
            have hfull := hread (hfree.of_suffix hpast₅) _ rfl
            rw [hfull, hdata, Option.getD_some, hlength, List.take_length]
          rw [← hbuf]
          exact hcontent hfree

theorem ensures_readTextFile {suffix : Bytes} {buf_size : Nat} :
    Ensures cfg codec i (readTextFile (uploadPath cfg (v.job + 1) suffix) buf_size) v fun text v' =>
      (∃ past, v.past <:+ past ∧
        v' = { v with unreadable := v.unreadable || text.isNone, past := past }) ∧
      ∀ t, text = some t → t.length ≤ buf_size - 1 ∧ (FaultFree v'.past →
        ∃ data, v.inp suffix = some data ∧ t = data.take (buf_size - 1)) := by
  refine ensures_bind ensures_fopenRb ?_
  rintro found v₁ ⟨⟨past₁, hpast₁, rfl⟩, hfound⟩
  cases found with
  | false => exact ensures_pure ⟨⟨_, hpast₁, rfl⟩, by simp⟩
  | true =>
    obtain ⟨data, hdata⟩ := hfound rfl _ rfl
    refine ensures_bind ensures_fread ?_
    rintro bytes v₂ ⟨⟨past₂, hpast₂, rfl⟩, hlength, hread⟩
    refine ensures_pure ⟨⟨_, hpast₁.trans hpast₂, rfl⟩, ?_⟩
    rintro t ⟨⟩
    refine ⟨hlength, fun hfree => ⟨data, hdata, ?_⟩⟩
    have hfull := hread hfree _ rfl
    rw [hfull, hdata, Option.getD_some]

theorem ensures_stegoDecodeFile :
    Ensures cfg codec i (stegoDecodeFile (uploadPath cfg (v.job + 1) (lit "png"))) v fun r v' =>
      v.Later v' ∧
      (r.1 = .ok → ∃ malloc png, v.inp (lit "png") = some png ∧
        stegoDecode malloc (codec.load png) = (.ok, r.2)) := by
  refine ensures_bind ensures_pngLoad ?_
  rintro loaded v₁ ⟨⟨past₁, hpast₁, rfl⟩, herror, hload⟩
  refine ensures_bind ensures_heap ?_
  rintro malloc v₂ ⟨past₂, hpast₂, rfl⟩
  refine ensures_pure ⟨⟨_, hpast₁.trans hpast₂, rfl⟩, fun hok => ?_⟩
  cases loaded with
  | error rc => exact absurd hok (herror rc rfl)
  | ok img =>
    obtain ⟨png, hpng, hloaded⟩ := hload _ img rfl rfl
    refine ⟨malloc, png, hpng, ?_⟩
    rw [hloaded]
    exact Prod.ext hok rfl

theorem ensures_writeToFile {suffix data : Bytes} (hlive : ¬ v.record.state.Terminal) :
    Ensures cfg codec i (writeToFile (resultPath cfg (v.job + 1) suffix) data) v fun ok v' =>
      v.Wrote v' ∧ (ok = true → v'.out suffix = some data) := by
  refine ensures_bind (ensures_fopenWb hlive) ?_
  rintro opened v₁ ⟨⟨out₁, past₁, hpast₁, rfl⟩, hopen⟩
  cases opened with
  | false => exact ensures_pure ⟨⟨_, _, hpast₁, rfl⟩, nofun⟩
  | true =>
    have hclose : ∀ {v₂ : View}, v.Wrote v₂ → v₂.out suffix = some data → Ensures cfg codec i (do
          if !(← call (.fclose (resultPath cfg (v.job + 1) suffix))) then
            return false
          return true) v₂ fun ok v' => v.Wrote v' ∧ (ok = true → v'.out suffix = some data) := by
      rintro v₂ ⟨out₂, past₂, hpast₂, rfl⟩ hdata
      refine ensures_bind (ensures_fclose hlive) ?_
      rintro closed v₃ ⟨⟨out₃, past₃, hpast₃, rfl⟩, hkept, -⟩
      cases closed with
      | false => exact ensures_pure ⟨⟨_, _, hpast₂.trans hpast₃, rfl⟩, nofun⟩
      | true =>
        exact ensures_pure ⟨⟨_, _, hpast₂.trans hpast₃, rfl⟩,
          fun _ => (hkept (.inl rfl)).trans hdata⟩
    by_cases hempty : data.length > 0
    · simp only [hempty, if_true, Bool.not_true, Bool.false_eq_true, if_false]
      refine ensures_bind (ensures_fwrite hlive) ?_
      rintro written v₂ ⟨⟨out₂, past₂, hpast₂, rfl⟩, hwritten⟩
      cases written with
      | false =>
        refine ensures_bind (ensures_fclose hlive) ?_
        rintro closed v₃ ⟨⟨out₃, past₃, hpast₃, rfl⟩, -⟩
        exact ensures_pure ⟨⟨_, _, hpast₁.trans (hpast₂.trans hpast₃), rfl⟩, nofun⟩
      | true => exact hclose ⟨_, _, hpast₁.trans hpast₂, rfl⟩ (hwritten rfl _ (hopen rfl))
    · have hnil : data = [] := List.eq_nil_of_length_eq_zero (by omega)
      simp only [hempty, if_false, Bool.not_true, Bool.false_eq_true]
      exact hclose ⟨_, _, hpast₁, rfl⟩ (hnil ▸ hopen rfl)

/-! Ending a job. -/

theorem Busy.state (hbusy : Busy cfg i v s) : (s.world.job v.job).state = v.record.state := by
  rw [hbusy.record.1]

theorem Busy.blank (hbusy : Busy cfg i v s) (hblank : v.record.Blank) :
    (s.world.job v.job).Blank := by
  rw [hbusy.record.1]
  exact hblank

theorem Busy.mayFail (hbusy : Busy cfg i v s) (hrunning : v.record.state = .running)
    (hblank : v.record.Blank) (hsaw : v.clear = true ∨ ¬ v.record.type.Rechecks ∨
      v.record.type = .encodeText ∧ v.unreadable = true) :
    MayBecome cfg codec (.worker i) s (s.world.job v.job) .failed := by
  have htype : (s.world.job v.job).type = v.record.type := by rw [hbusy.record.1]
  simp only [MayBecome, hbusy.state, hrunning]
  rw [htype, hbusy.clear, hbusy.unreadable]
  exact ⟨hbusy.blank hblank, hsaw⟩

theorem Busy.mayCancel (hbusy : Busy cfg i v s)
    (hlive : v.record.state = .queued ∨ v.record.state = .running) (hblank : v.record.Blank)
    (hresult : v.record.result = lit "job canceled")
    (hrequested : v.record.cancel_requested = true) :
    MayBecome cfg codec (.worker i) s (s.world.job v.job) .canceled := by
  have hflag := hbusy.record.2 hrequested
  have hresult' : (s.world.job v.job).result = lit "job canceled" := by
    rw [hbusy.record.1]
    exact hresult
  have hboth : (s.world.job v.job).cancel_requested = true ∧
      Settled cfg codec s.world.files s.history { s.world.job v.job with state := .canceled } :=
    ⟨hflag, hbusy.blank hblank, hresult'⟩
  rcases hlive with hstate | hstate <;> simp only [MayBecome, hbusy.state, hstate] <;> exact hboth

theorem Busy.mayFinish (hbusy : Busy cfg i v s) (hrunning : v.record.state = .running)
    (hsaw : v.clear = true ∨ ¬ v.record.type.Rechecks)
    (hpublished : ∀ r,
      r = { v.record with cancel_requested := r.cancel_requested, state := r.state } →
      Published cfg codec s.world.files s.history r) :
    MayBecome cfg codec (.worker i) s (s.world.job v.job) .done := by
  have htype : (s.world.job v.job).type = v.record.type := by rw [hbusy.record.1]
  simp only [MayBecome, hbusy.state, hrunning]
  rw [htype, hbusy.clear]
  refine ⟨hpublished _ ?_, hsaw⟩
  rw [hbusy.record.1]

theorem ensures_endJob {result : Bytes} {st : JobState} {rc : Int}
    (hlive : ¬ v.record.state.Terminal) (hterminal : st.Terminal)
    (htold : Told cfg { v.record with result := snprintf maxJobResult result, state := st })
    (hmay : ∀ past s, v.past <:+ past →
      Busy cfg i { v with
        record := { v.record with result := snprintf maxJobResult result }
        past := past } s →
      Inv cfg codec s → MayBecome cfg codec (.worker i) s (s.world.job v.job) st) :
    Ensures cfg codec i (endJob v.job result st rc) v fun _ v' => v.Ended v' := by
  refine ensures_bind (ensures_set (u := .result result) nofun hlive (.inl ⟨_, rfl⟩)) ?_
  rintro _ v₁ ⟨past₁, hpast₁, rfl⟩
  refine ensures_bind (ensures_setState st hlive htold fun s hinv hbusy =>
    hmay past₁ s hpast₁ hbusy hinv) ?_
  rintro _ v₂ ⟨now, past₂, hpast₂, rfl⟩
  exact ensures_pure ⟨rfl, rfl, hterminal, rfl⟩

theorem ensures_fail {result : Bytes} {rc : Int} (hline : newline ∉ result)
    (hrunning : v.record.state = .running) (hblank : v.record.Blank)
    (hsaw : v.clear = true ∨ ¬ v.record.type.Rechecks ∨ v.record.type = .encodeText ∧
      v.unreadable = true) :
    Ensures cfg codec i (endJob v.job result .failed rc) v fun _ v' => v.Ended v' := by
  have htold : Told cfg
      { v.record with result := snprintf maxJobResult result, state := .failed } :=
    told_of_not_done nofun (newline_snprintf hline _)
  refine ensures_endJob (by rw [hrunning]; decide) (.inr (.inl rfl)) htold fun past s _ hbusy _ =>
    ?_
  exact hbusy.mayFail hrunning hblank hsaw

theorem ensures_cancel {rc : Int} (hlive : v.record.state = .queued ∨ v.record.state = .running)
    (hblank : v.record.Blank) (hrequested : v.record.cancel_requested = true) :
    Ensures cfg codec i (endJob v.job (lit "job canceled") .canceled rc) v fun _ v' =>
      v.Ended v' := by
  have htext : newline ∉ lit "job canceled" := by decide
  refine ensures_endJob ?_ (.inr (.inr rfl)) (told_of_not_done nofun (newline_snprintf htext _))
    fun past s _ hbusy _ => ?_
  · rcases hlive with hstate | hstate <;> rw [hstate] <;> decide
  · exact hbusy.mayCancel hlive hblank (show snprintf maxJobResult (lit "job canceled") =
      _ by decide +kernel) hrequested

theorem ensures_finish {result : Bytes} {rc : Int} (hrunning : v.record.state = .running)
    (htold : newline ∈ snprintf maxJobResult result ↔ NewlineSource cfg v.record)
    (hsaw : v.clear = true ∨ ¬ v.record.type.Rechecks)
    (hpublished : ∀ past s r, v.past <:+ past → Busy cfg i
      { v with record := { v.record with result := snprintf maxJobResult result }, past := past }
        s →
      r = { v.record with
        result := snprintf maxJobResult result, cancel_requested :=
  r.cancel_requested, state := r.state } →
      Published cfg codec s.world.files s.history r) :
    Ensures cfg codec i (endJob v.job result .done rc) v fun _ v' => v.Ended v' := by
  refine ensures_endJob (by rw [hrunning]; decide) (.inl rfl) (fun _ =>
    htold.trans ⟨fun h => ⟨rfl, h⟩, And.right⟩)
    fun past s hpast hbusy _ => ?_
  exact hbusy.mayFinish hrunning hsaw fun r hr => hpublished past s r hpast hbusy hr

theorem ensures_finish_blank {result : Bytes} {rc : Int} (hrunning : v.record.state = .running)
    (hline : newline ∉ result) (hblank : v.record.Blank)
    (hsaw : v.clear = true ∨ ¬ v.record.type.Rechecks)
    (htype : v.record.type = .text ∨ v.record.type = .validateImage ∨
      v.record.type = .analyzeCapacity) :
    Ensures cfg codec i (endJob v.job result .done rc) v fun _ v' => v.Ended v' := by
  have hnone : ¬ NewlineSource cfg v.record := by
    unfold NewlineSource
    rcases htype with h | h | h <;> rw [h] <;> exact id
  have htold : newline ∈ snprintf maxJobResult result ↔ NewlineSource cfg v.record :=
    iff_of_false (newline_snprintf hline _) hnone
  refine ensures_finish hrunning htold hsaw fun past s r _ _ hr => ?_
  have hr' : r.type = v.record.type := by rw [hr]
  have hb : r.Blank := by
    rw [hr]
    exact hblank
  unfold Published
  rcases htype with h | h | h <;> rw [hr', h] <;> exact hb

/-! What the record says. -/

theorem ensures_getType : Ensures cfg codec i (jobGetType v.job) v fun a v' => v.Later v' ∧
    a = v.record.type :=
  ensures_mono (ensures_getJob nofun) fun _ _ ⟨hlater, _, h⟩ => ⟨hlater, h⟩

theorem ensures_getState : Ensures cfg codec i (jobGetState v.job) v fun a v' => v.Later v' ∧
    a = v.record.state :=
  ensures_mono (ensures_getJob nofun) fun _ _ ⟨hlater, _, h⟩ => ⟨hlater, h⟩

theorem ensures_getPayload : Ensures cfg codec i (jobGetPayload v.job) v fun a v' => v.Later v' ∧
    a = v.record.payload :=
  ensures_mono (ensures_getJob nofun) fun _ _ ⟨hlater, _, h⟩ => ⟨hlater, h⟩

theorem ensures_getInputPath :
    Ensures cfg codec i (jobGetInputPath v.job) v fun a v' => v.Later v' ∧
      a = v.record.input_path :=
  ensures_mono (ensures_getJob nofun) fun _ _ ⟨hlater, _, h⟩ => ⟨hlater, h⟩

theorem ensures_getStoredPath :
    Ensures cfg codec i (jobGetStoredPath v.job) v fun a v' => v.Later v' ∧
      a = v.record.stored_path :=
  ensures_mono (ensures_getJob nofun) fun _ _ ⟨hlater, _, h⟩ => ⟨hlater, h⟩

theorem ensures_jobId : Ensures cfg codec i (jobId v.job) v fun a v' => v.Later v' ∧
    a = v.record.id :=
  ensures_mono (ensures_getJob nofun) fun _ _ ⟨hlater, _, h⟩ => ⟨hlater, h⟩

/-! Publishing. -/

theorem snprintf_resultPath {id : Nat} {suffix : Bytes} (hid : id < 2 ^ 64)
    (hsuffix : suffix.length ≤ 4) :
    snprintf maxJobPath (resultPath cfg id suffix) = resultPath cfg id suffix := by
  have hlen := jobFilePath_length hid (storageResultsDir_length cfg) hsuffix
  exact List.take_of_length_le (by rw [resultPath]; omega)

theorem Busy.encoded (hbusy : Busy cfg i v s) {r : Job} {type : StegoPayloadType}
    {filename : Option Bytes} {payload content : Bytes}
    (h : EncodedFrom codec v type filename payload content)
    (hinput : r.input_path = uploadPath cfg (v.job + 1) (lit "png")) :
    Encoded codec s.world.files r type filename payload content := by
  obtain ⟨malloc, png, img, out, hpng, hrest⟩ := h
  exact ⟨malloc, png, img, out, by rw [hinput, hbusy.inp, hpng], hrest⟩

theorem newline_resultPath {id : Nat} {suffix : Bytes} (hsuffix : newline ∉ suffix) :
    newline ∈ resultPath cfg id suffix ↔ newline ∈ cfg.storage_root := by
  have hrest : newline ∉ lit "/results" ++ (lit "/job_" ++
    (decimal id ++ (lit "." ++ suffix))) := by
    refine newline_append (by decide) (newline_append (by decide) ?_)
    exact newline_append (newline_decimal id) (newline_append (by decide) hsuffix)
  have hpath : resultPath cfg id suffix =
      cfg.storage_root ++ (lit "/results" ++ (lit "/job_" ++
        (decimal id ++ (lit "." ++ suffix)))) := by
    simp only [resultPath, jobFilePath, storageResultsDir, List.append_assoc]
  rw [hpath, List.mem_append]
  exact ⟨fun h => h.resolve_right hrest, .inl⟩

/-- The text that ends an encoding holds a newline with its first part or with the path. -/
theorem newline_encoded {id : Nat} {head tail : Bytes} (hid : id < 2 ^ 64)
    (hhead : head.length < 1024) (htail : newline ∉ tail) :
    newline ∈ snprintf maxJobResult (head ++ resultPath cfg id (lit "png") ++ tail) ↔
      newline ∈ head ∨ newline ∈ cfg.storage_root := by
  have hpath : (resultPath cfg id (lit "png")).length < maxJobPath :=
    jobFilePath_length hid (storageResultsDir_length cfg) (by decide)
  have hmax : maxJobPath = 512 := rfl
  have hroom : (head ++ resultPath cfg id (lit "png")).length < maxJobResult := by
    have hresult : maxJobResult = 2048 := rfl
    rw [List.length_append]
    omega
  rw [mem_snprintf_append hroom htail, List.mem_append, newline_resultPath (by decide)]

/-- An encoder publishes its image and ends the job. -/
theorem ensures_finishEncode (suffix : Bytes) (payload : Bytes → Bytes → Prop) {msg : Nat → Bytes}
    {content : Bytes} (hrunning : v.record.state = .running) (hclear : v.clear = true)
    (hid : v.record.id = v.job + 1) (hsmall : v.job + 1 < 2 ^ 64)
    (hstored : v.record.stored_path = uploadPath cfg (v.job + 1) suffix)
    (htold : ∀ r : Job, r.type = v.record.type → r.payload = v.record.payload → ∀ size,
      newline ∈ snprintf maxJobResult (msg size) ↔ NewlineSource cfg r)
    (hfile : v.out (lit "png") = some content)
    (hdata : FaultFree v.past → ∃ data, v.inp suffix = some data ∧ payload data content)
    (hpublished : ∀ v' s r, Busy cfg i v' s → v'.job = v.job → v'.inp = v.inp →
      r.type = v.record.type → r.input_path = v.record.input_path → r.payload = v.record.payload →
      r.stored_path = v.record.stored_path → PublishedImage cfg s.world.files s.history r payload →
      Published cfg codec s.world.files s.history r) :
    Ensures cfg codec i (finishEncode v.job (resultPath cfg (v.job + 1) (lit "png")) msg) v
      fun _ v' =>
      v.Ended v' := by
  have hlive : ¬ v.record.state.Terminal := by rw [hrunning]; decide
  refine ensures_bind ensures_stat ?_
  rintro size v₁ ⟨⟨past₁, hpast₁, rfl⟩, hsize⟩
  have hout_path : snprintf maxJobPath (resultPath cfg (v.job + 1) (lit "png")) =
    resultPath cfg (v.job + 1) (lit "png") :=
    snprintf_resultPath hsmall (by decide)
  refine ensures_bind (ensures_set nofun hlive (.inr ⟨hrunning,
    .inl ⟨_, lit "png", rfl, hout_path⟩⟩)) ?_
  rintro _ v₂ ⟨past₂, hpast₂, rfl⟩
  refine ensures_bind (ensures_set nofun hlive (.inr ⟨hrunning, .inr ⟨_, _, _, rfl⟩⟩)) ?_
  rintro _ v₃ ⟨past₃, hpast₃, rfl⟩
  refine ensures_mono (ensures_finish hrunning ?_ (.inl hclear) fun past s r hpast hbusy hr => ?_)
    fun _ _ h => h
  · rw [snprintf_snprintf]
    refine htold _ ?_ ?_ _ <;> rfl
  have hpath : r.output_path = resultPath cfg (v.job + 1) (lit "png") := by
    rw [hr]
    exact hout_path
  have hout := (hbusy.out (lit "png")).trans hfile
  refine hpublished _ s r hbusy rfl rfl (by rw [hr]; rfl) (by rw [hr]; rfl) (by rw [hr]; rfl)
    (by rw [hr]; rfl) ?_
  refine ⟨content, ?_, ?_, by rw [hr]; rfl, ?_, fun hstat => ?_, fun hfree => ?_⟩
  · have hrid : r.id = v.job + 1 := by
      rw [hr]
      exact hid
    rw [hpath, hrid]
  · rw [hpath]
    exact hout
  · rw [hr]
    change snprintf maxJobFilename (lit "stego_result.png") = _
    decide +kernel
  · have hsize' : r.result_size = size.getD 0 := by rw [hr]; rfl
    rcases hsize content hfile with rfl | hfault
    · rw [hsize', Option.getD_some]
    · rw [hpath] at hstat
      exact absurd ((hpast₂.trans (hpast₃.trans (hpast.trans hbusy.past))).subset hfault) (hstat _)
  · obtain ⟨data, hinp, hpayload⟩ :=
      hdata (hfree.of_suffix (hpast₁.trans (hpast₂.trans (hpast₃.trans (hpast.trans hbusy.past)))))
    refine ⟨data, ?_, hpayload⟩
    have hrstored : r.stored_path = uploadPath cfg (v.job + 1) suffix := by
      rw [hr]
      exact hstored
    rw [hrstored]
    exact (hbusy.inp suffix).trans hinp

/-! The processors. -/

theorem ensures_textSteps {final_result : Bytes} (hline : newline ∉ final_result)
    (hrunning : v.record.state = .running) (hblank : v.record.Blank) (htype : v.record.type = .text)
    {n : Nat} (hn : 0 < n ∨ v.clear = true) :
    Ensures cfg codec i (textSteps v.job final_result n) v fun _ v' => v.Ended v' := by
  induction n generalizing v with
  | zero =>
    exact ensures_finish_blank hrunning hline hblank (.inl (hn.resolve_left (lt_irrefl 0)))
      (.inl htype)
  | succ n ih =>
    refine ensures_bind ensures_nanosleep ?_
    rintro _ v₁ ⟨past₁, hpast₁, rfl⟩
    refine ensures_bind ensures_cancelRequested ?_
    rintro requested v₂ ⟨past₂, hpast₂, rfl⟩
    cases requested with
    | true => exact ensures_cancel (.inr hrunning) hblank (Bool.or_true _)
    | false => exact ih hrunning hblank htype (.inr rfl)

theorem ensures_processTextJob {worker_index : Nat} (hrunning : v.record.state = .running)
    (hblank : v.record.Blank) (hlinked : v.Linked cfg) (htype : v.record.type = .text) :
    Ensures cfg codec i (processTextJob worker_index v.job) v fun _ v' => v.Ended v' := by
  refine ensures_bind ensures_getPayload ?_
  rintro payload v₁ ⟨⟨past₁, hpast₁, rfl⟩, rfl⟩
  have hline : newline ∉ lit "processed_by_worker_" ++ decimal worker_index ++ lit ": " ++
    v.record.payload :=
    newline_append (newline_append (newline_append (by decide) (newline_decimal _)) (by decide))
      (hlinked.payload htype)
  exact ensures_textSteps (v := { v with past := past₁ })
    (newline_snprintf hline _) hrunning hblank htype
    (.inl (Nat.succ_pos 4))

theorem newline_stegoStrerror (rc : StegoStatus) : newline ∉ stegoStrerror rc := by
  cases rc <;> decide

theorem newline_pngColorTypeToString (color_type : Nat) :
    newline ∉ pngColorTypeToString color_type := by
  unfold pngColorTypeToString
  repeat' split
  all_goals decide

theorem not_rechecks {type : JobType}
    (h : type = .validateImage ∨ type = .analyzeCapacity ∨ type = .unknown) :
    ¬ type.Rechecks := by
  rcases h with rfl | rfl | rfl <;> simp [JobType.Rechecks]

theorem ensures_processValidateImageJob (hrunning : v.record.state = .running)
    (hblank : v.record.Blank) (htype : v.record.type = .validateImage) :
    Ensures cfg codec i (processValidateImageJob v.job) v fun _ v' => v.Ended v' := by
  have hchecks : ¬ v.record.type.Rechecks := not_rechecks (.inl htype)
  refine ensures_bind ensures_getInputPath ?_
  rintro path v₁ ⟨⟨past₁, hpast₁, rfl⟩, -⟩
  refine ensures_bind ensures_pngMetadata ?_
  rintro metadata v₂ ⟨past₂, hpast₂, rfl⟩
  cases metadata with
  | none => exact ensures_fail (by decide) hrunning hblank (.inr (.inl hchecks))
  | some metadata =>
    refine ensures_finish_blank hrunning (newline_snprintf ?_ _) hblank (.inr hchecks)
      (.inr (.inl htype))
    repeat' apply newline_append
    all_goals first
      | exact newline_decimal _
      | exact newline_pngColorTypeToString _
      | decide

theorem ensures_processAnalyzeCapacityJob (hrunning : v.record.state = .running)
    (hblank : v.record.Blank) (htype : v.record.type = .analyzeCapacity) :
    Ensures cfg codec i (processAnalyzeCapacityJob v.job) v fun _ v' => v.Ended v' := by
  have hchecks : ¬ v.record.type.Rechecks := not_rechecks (.inr (.inl htype))
  refine ensures_bind ensures_getInputPath ?_
  rintro path v₁ ⟨⟨past₁, hpast₁, rfl⟩, -⟩
  have hcapacity : Ensures cfg codec i (stegoGetCapacity path) { v with past := past₁ } fun _ v' =>
      View.Later { v with past := past₁ } v' := by
    refine ensures_bind ensures_pngLoad ?_
    rintro loaded v₂ ⟨hlater, -⟩
    cases loaded with
    | error rc => exact ensures_pure hlater
    | ok img => exact ensures_pure hlater
  refine ensures_bind hcapacity ?_
  rintro capacity v₂ ⟨past₂, hpast₂, rfl⟩
  cases capacity with
  | error rc =>
    have hline := newline_append (by decide : newline ∉ lit "capacity error: ")
      (newline_stegoStrerror rc)
    exact ensures_fail (newline_snprintf hline _) hrunning hblank (.inr (.inl hchecks))
  | ok cap =>
    refine ensures_finish_blank hrunning (newline_snprintf ?_ _) hblank (.inr hchecks)
      (.inr (.inr htype))
    repeat' apply newline_append
    all_goals first
      | exact newline_decimal _
      | decide

theorem ensures_processEncodeTextJob (hrunning : v.record.state = .running)
    (hblank : v.record.Blank) (hlinked : v.Linked cfg) (htype : v.record.type = .encodeText) :
    Ensures cfg codec i (processEncodeTextJob cfg v.job) v fun _ v' => v.Ended v' := by
  have hlive : ¬ v.record.state.Terminal := by rw [hrunning]; decide
  refine ensures_bind ensures_getInputPath ?_
  rintro png_path v₁ ⟨⟨past₁, hpast₁, rfl⟩, rfl⟩
  refine ensures_bind ensures_getStoredPath ?_
  rintro text_path v₂ ⟨⟨past₂, hpast₂, rfl⟩, rfl⟩
  refine ensures_bind ensures_jobId ?_
  rintro id v₃ ⟨⟨past₃, hpast₃, rfl⟩, rfl⟩
  dsimp only
  rw [hlinked.id, hlinked.input (.inl htype), hlinked.text htype,
    storageMakeResultPath_eq cfg hlinked.small (by decide)]
  refine ensures_bind ensures_readTextFile ?_
  rintro text v₄ ⟨⟨past₄, hpast₄, rfl⟩, htext⟩
  cases text with
  | none => exact ensures_fail (by decide) hrunning hblank (.inr (.inr ⟨htype, Bool.or_true _⟩))
  | some text =>
    refine ensures_bind ensures_cancelRequested ?_
    rintro requested v₅ ⟨past₅, hpast₅, rfl⟩
    cases requested with
    | true => exact ensures_cancel (.inr hrunning) hblank (Bool.or_true _)
    | false =>
      refine ensures_bind (ensures_encodeCommon hlive) ?_
      rintro rc v₆ ⟨⟨out₆, past₆, hpast₆, rfl⟩, hencoded⟩
      dsimp only
      split
      · have hline := newline_append (by decide : newline ∉ lit "encode_text failed: ")
          (newline_stegoStrerror rc)
        exact ensures_fail (newline_snprintf hline _) hrunning hblank (.inl rfl)
      · next hrc =>
        obtain ⟨content, hfile, hcontent⟩ := hencoded (not_not.mp hrc)
        refine ensures_mono (ensures_finishEncode (lit "txt")
          (fun data content => EncodedFrom codec v .text none (data.take maxTextBytes) content)
            hrunning rfl hlinked.id
          hlinked.small (hlinked.text htype) (fun r hr _ size => ?_) hfile (fun hfree => ?_) ?_)
            fun _ _ h => h
        · have hsource : NewlineSource cfg r ↔ newline ∈ cfg.storage_root := by
            unfold NewlineSource
            rw [hr.trans htype]
          have hdigits : (decimal text.length).length ≤ 7 := by
            refine decimal_length_le (by decide) ?_
            have hshort := (htext text rfl).1
            have hmax : maxTextBytes = 1048576 := rfl
            omega
          have hhead : newline ∉ lit "encoded text_bytes=" ++ decimal text.length ++
            lit " output=" :=
            newline_append (newline_append (by decide) (newline_decimal _)) (by decide)
          rw [hsource, List.append_assoc (lit "encoded text_bytes=" ++ decimal text.length ++
            lit " output=" ++ _),
            newline_encoded hlinked.small ?_ (newline_append (by decide) (newline_decimal _))]
          · exact ⟨fun h => h.resolve_left hhead, .inr⟩
          · have hfirst : (lit "encoded text_bytes=").length = 19 := by decide
            have hsecond : (lit " output=").length = 8 := by decide
            rw [List.length_append, List.length_append, hfirst, hsecond]
            omega
        · obtain ⟨data, hdata, rfl⟩ := (htext text rfl).2 (hfree.of_suffix (hpast₅.trans hpast₆))
          exact ⟨data, hdata, hcontent hfree⟩
        · intro v' s r hbusy hjob hinp hrtype hrinput _ _ himage
          have hrtype' : r.type = .encodeText := hrtype.trans htype
          have hrinput' : r.input_path = uploadPath cfg (v'.job + 1) (lit "png") := by
            rw [hrinput, hjob]
            exact hlinked.input (.inl htype)
          unfold Published
          rw [hrtype']
          refine himage.congr List.suffix_rfl (fun _ => rfl) rfl fun data content hfrom => ?_
          refine hbusy.encoded ?_ hrinput'
          obtain ⟨malloc, png, img, out, hpng, hrest⟩ := hfrom
          exact ⟨malloc, png, img, out, by rw [hinp]; exact hpng, hrest⟩

theorem ensures_processEncodeFileJob (hrunning : v.record.state = .running)
    (hblank : v.record.Blank) (hlinked : v.Linked cfg) (htype : v.record.type = .encodeFile) :
    Ensures cfg codec i (processEncodeFileJob cfg v.job) v fun _ v' => v.Ended v' := by
  have hlive : ¬ v.record.state.Terminal := by rw [hrunning]; decide
  refine ensures_bind ensures_getInputPath ?_
  rintro png_path v₁ ⟨⟨past₁, hpast₁, rfl⟩, rfl⟩
  refine ensures_bind ensures_getStoredPath ?_
  rintro file_path v₂ ⟨⟨past₂, hpast₂, rfl⟩, rfl⟩
  refine ensures_bind ensures_getPayload ?_
  rintro payload v₃ ⟨⟨past₃, hpast₃, rfl⟩, rfl⟩
  refine ensures_bind ensures_jobId ?_
  rintro id v₄ ⟨⟨past₄, hpast₄, rfl⟩, rfl⟩
  dsimp only
  rw [hlinked.id, hlinked.input (.inr (.inl htype)), hlinked.data htype,
    storageMakeResultPath_eq cfg hlinked.small (by decide)]
  refine ensures_bind ensures_cancelRequested ?_
  rintro requested v₅ ⟨past₅, hpast₅, rfl⟩
  cases requested with
  | true => exact ensures_cancel (.inr hrunning) hblank (Bool.or_true _)
  | false =>
    refine ensures_bind (ensures_stegoEncodeFile hlive) ?_
    rintro rc v₆ ⟨⟨unreadable₆, out₆, past₆, hpast₆, rfl⟩, hencoded⟩
    dsimp only
    split
    · have hline := newline_append (by decide : newline ∉ lit "encode_file failed: ")
        (newline_stegoStrerror rc)
      exact ensures_fail (newline_snprintf hline _) hrunning hblank (.inl rfl)
    · next hrc =>
      obtain ⟨content, hfile, hcontent⟩ := hencoded (not_not.mp hrc)
      refine ensures_mono (ensures_finishEncode (lit "data")
        (fun data content => EncodedFrom codec v .file (some (storedAs v.record)) data content)
          hrunning rfl hlinked.id
        hlinked.small (hlinked.data htype) (fun r hr hpayload size => ?_) hfile
          (fun hfree => ?_) ?_) fun _ _ h => h
      · have hsource : NewlineSource cfg r ↔
            newline ∈ snprintf maxJobFilename v.record.payload ∨ newline ∈ cfg.storage_root := by
          unfold NewlineSource
          rw [hr.trans htype, hpayload]
        have hname : (snprintf maxJobFilename v.record.payload).length < maxJobFilename :=
          snprintf_length_lt (by decide) _
        have hmax : maxJobFilename = 256 := rfl
        have hhead : newline ∈ lit "encoded file=" ++ snprintf maxJobFilename v.record.payload ++
          lit " output=" ↔
            newline ∈ snprintf maxJobFilename v.record.payload := by
          have hfirst : newline ∉ lit "encoded file=" := by decide
          have hsecond : newline ∉ lit " output=" := by decide
          simp only [List.mem_append, hfirst, hsecond, false_or, or_false]
        rw [hsource, List.append_assoc (lit "encoded file=" ++ _ ++ lit " output=" ++ _),
          newline_encoded hlinked.small ?_ (newline_append (by decide) (newline_decimal _)), hhead]
        have hfirst : (lit "encoded file=").length = 13 := by decide
        have hsecond : (lit " output=").length = 8 := by decide
        rw [List.length_append, List.length_append, hfirst, hsecond]
        omega
      · obtain ⟨data, hdata, hfrom⟩ := hcontent hfree
        refine ⟨data, hdata, ?_⟩
        have hname : (if snprintf maxJobFilename v.record.payload ≠ [] then
            some (snprintf maxJobFilename v.record.payload) else none).getD
              (baseName (uploadPath cfg (v.job + 1) (lit "data"))) = storedAs v.record := by
          rw [storedAs, hlinked.data htype]
          split <;> rfl
        rw [← hname]
        exact hfrom
      · intro v' s r hbusy hjob hinp hrtype hrinput hrpayload hrstored himage
        have hrtype' : r.type = .encodeFile := hrtype.trans htype
        have hrinput' : r.input_path = uploadPath cfg (v'.job + 1) (lit "png") := by
          rw [hrinput, hjob]
          exact hlinked.input (.inr (.inl htype))
        have hname : storedAs r = storedAs v.record := by
          rw [storedAs, storedAs, hrpayload, hrstored]
        unfold Published
        rw [hrtype']
        refine himage.congr List.suffix_rfl (fun _ => rfl) rfl fun data content hfrom => ?_
        rw [hname]
        refine hbusy.encoded ?_ hrinput'
        obtain ⟨malloc, png, img, out, hpng, hrest⟩ := hfrom
        exact ⟨malloc, png, img, out, by rw [hinp]; exact hpng, hrest⟩

/-- The two places where a decoded name is reported agree on newlines. -/
theorem newline_decoded {ex : StegoExtracted}
    (hdecoded : ∃ malloc png, v.inp (lit "png") = some png ∧ stegoDecode malloc (codec.load png) =
      (.ok, ex)) :
    newline ∈ snprintf maxJobResult (if ex.type = .text then lit "decoded text bytes=" ++
      decimal ex.data_len
      else lit "decoded file=" ++ cstr ex.filename ++ lit " bytes=" ++ decimal ex.data_len) ↔
        newline ∈ snprintf maxJobFilename (decodedName ex) := by
  obtain ⟨malloc, png, -, hdecode⟩ := hdecoded
  have hshort : (cstr ex.filename).length < 256 := (stegoDecode_ok hdecode).2.2
  unfold decodedName
  split
  · refine iff_of_false (newline_snprintf (newline_append (by decide) (newline_decimal _)) _) ?_
    exact newline_snprintf (by decide) _
  · have hfirst : (lit "decoded file=").length = 13 := by decide
    have hroom : (lit "decoded file=" ++ cstr ex.filename).length < maxJobResult := by
      have hmax : maxJobResult = 2048 := rfl
      rw [List.length_append, hfirst]
      omega
    have htail : newline ∉ lit " bytes=" ++ decimal ex.data_len :=
      newline_append (by decide) (newline_decimal _)
    have hname : snprintf maxJobFilename (cstr ex.filename) = cstr ex.filename := snprintf_eq hshort
    have hhead : newline ∉ lit "decoded file=" := by decide
    rw [List.append_assoc (lit "decoded file=" ++ _), mem_snprintf_append hroom htail,
      List.mem_append, hname]
    exact ⟨fun h => h.resolve_left hhead, .inr⟩

theorem ensures_storeDecoded {ex : StegoExtracted} (hrunning : v.record.state = .running)
    (hblank : v.record.Blank) (hlinked : v.Linked cfg) (htype : v.record.type = .decode)
    (hclear : v.clear = true) (hdecoded : ∃ malloc png, v.inp (lit "png") = some png ∧
      stegoDecode malloc (codec.load png) = (.ok, ex)) :
    Ensures cfg codec i (storeDecoded cfg v.job ex) v fun _ v' => v.Ended v' := by
  have hlive : ¬ v.record.state.Terminal := by rw [hrunning]; decide
  have hshort : (decodedSuffix ex.type).length ≤ 4 := by
    unfold decodedSuffix
    split <;> decide
  refine ensures_bind ensures_jobId ?_
  rintro id v₁ ⟨⟨past₁, hpast₁, rfl⟩, rfl⟩
  have hsuffix : (if ex.type = .text then lit "txt" else lit "bin") = decodedSuffix ex.type := rfl
  dsimp only
  rw [hsuffix, hlinked.id, storageMakeResultPath_eq cfg hlinked.small hshort]
  refine ensures_bind (ensures_writeToFile hlive) ?_
  rintro written v₂ ⟨⟨out₂, past₂, hpast₂, rfl⟩, hwritten⟩
  cases written with
  | false => exact ensures_fail (by decide) hrunning hblank (.inl hclear)
  | true =>
    have hfile := hwritten rfl
    have hout_path : snprintf maxJobPath (resultPath cfg (v.job + 1) (decodedSuffix ex.type)) =
        resultPath cfg (v.job + 1) (decodedSuffix ex.type) :=
          snprintf_resultPath hlinked.small hshort
    refine ensures_bind (ensures_set (by simp) hlive (.inr ⟨hrunning,
      .inl ⟨_, decodedSuffix ex.type, rfl, hout_path⟩⟩)) ?_
    rintro _ v₃ ⟨past₃, hpast₃, rfl⟩
    refine ensures_bind (ensures_set (by simp) hlive (.inr ⟨hrunning, .inr ⟨_, _, _, rfl⟩⟩)) ?_
    rintro _ v₄ ⟨past₄, hpast₄, rfl⟩
    have htold : newline ∈ snprintf maxJobResult (if ex.type = .text then
        lit "decoded text bytes=" ++ decimal ex.data_len
        else lit "decoded file=" ++ cstr ex.filename ++ lit " bytes=" ++ decimal ex.data_len) ↔
          newline ∈ snprintf maxJobFilename (decodedName ex) := newline_decoded hdecoded
    refine ensures_mono (ensures_finish hrunning ?_ (.inl hclear) fun past s r _ hbusy hr => ?_)
      fun _ _ h => h
    · rw [snprintf_snprintf]
      have hsource : ∀ r : Job, r.type = .decode → r.result_filename =
        snprintf maxJobFilename (decodedName ex) →
          (newline ∈ snprintf maxJobFilename (decodedName ex) ↔ NewlineSource cfg r) := by
        intro r hr hname
        unfold NewlineSource
        rw [hr, hname]
      refine htold.trans (hsource _ ?_ ?_)
      · exact htype
      · rfl
    obtain ⟨malloc, png, hpng, hdecode⟩ := hdecoded
    have hrtype : r.type = .decode := by
      rw [hr]
      exact htype
    have hpath : r.output_path = resultPath cfg (v.job + 1) (decodedSuffix ex.type) := by
      rw [hr]
      exact hout_path
    have hrid : r.id = v.job + 1 := by
      rw [hr]
      exact hlinked.id
    have hrinput : r.input_path = uploadPath cfg (v.job + 1) (lit "png") := by
      rw [hr]
      exact hlinked.input (.inr (.inr htype))
    unfold Published
    rw [hrtype]
    refine ⟨malloc, png, ex, ?_, hdecode, by rw [hpath, hrid],
      ?_, by rw [hr]; rfl, by rw [hr]; rfl, by rw [hr]; rfl⟩
    · rw [hrinput]
      exact (hbusy.inp (lit "png")).trans hpng
    · rw [hpath]
      exact (hbusy.out _).trans hfile

theorem ensures_processDecodeJob (hrunning : v.record.state = .running) (hblank : v.record.Blank)
    (hlinked : v.Linked cfg) (htype : v.record.type = .decode) :
    Ensures cfg codec i (processDecodeJob cfg v.job) v fun _ v' => v.Ended v' := by
  refine ensures_bind ensures_getInputPath ?_
  rintro png_path v₁ ⟨⟨past₁, hpast₁, rfl⟩, rfl⟩
  refine ensures_bind ensures_cancelRequested ?_
  rintro requested v₂ ⟨past₂, hpast₂, rfl⟩
  cases requested with
  | true => exact ensures_cancel (.inr hrunning) hblank (Bool.or_true _)
  | false =>
    dsimp only
    rw [hlinked.input (.inr (.inr htype))]
    refine ensures_bind ensures_stegoDecodeFile ?_
    rintro ⟨rc, ex⟩ v₃ ⟨⟨past₃, hpast₃, rfl⟩, hdecoded⟩
    dsimp only
    split
    · have hline := newline_append (by decide : newline ∉ lit "decode failed: ")
        (newline_stegoStrerror rc)
      exact ensures_fail (newline_snprintf hline _) hrunning hblank (.inl rfl)
    · next hrc =>
      exact ensures_storeDecoded hrunning hblank ⟨hlinked.id, hlinked.small, fun _ => rfl,
        hlinked.text, hlinked.data,
        hlinked.payload⟩ htype rfl (hdecoded (not_not.mp hrc))

theorem ensures_processJob {worker_index : Nat} (hrunning : v.record.state = .running)
    (hblank : v.record.Blank) (hlinked : v.Linked cfg) :
    Ensures cfg codec i (processJob cfg worker_index v.job v.record.type) v fun _ v' =>
      v.Ended v' := by
  cases htype : v.record.type with
  | unknown =>
    exact ensures_fail (by decide) hrunning hblank (.inr (.inl (not_rechecks (.inr (.inr htype)))))
  | text => exact ensures_processTextJob hrunning hblank hlinked htype
  | validateImage => exact ensures_processValidateImageJob hrunning hblank htype
  | analyzeCapacity => exact ensures_processAnalyzeCapacityJob hrunning hblank htype
  | encodeText => exact ensures_processEncodeTextJob hrunning hblank hlinked htype
  | encodeFile => exact ensures_processEncodeFileJob hrunning hblank hlinked htype
  | decode => exact ensures_processDecodeJob hrunning hblank hlinked htype

theorem ensures_runJob {worker_index : Nat} (hqueued : v.record.state = .queued)
    (hblank : v.record.Blank) (hlinked : v.Linked cfg) (hevents : v.events = []) :
    Ensures cfg codec i (runJob cfg worker_index v.job) v fun _ v' =>
      v'.job = v.job ∧ v'.record.state.Terminal ∧ v'.events ≠ [] := by
  have hlive : ¬ v.record.state.Terminal := by rw [hqueued]; decide
  refine ensures_bind ensures_cancelRequested ?_
  rintro requested v₁ ⟨past₁, hpast₁, rfl⟩
  cases requested with
  | true =>
    refine ensures_bind (ensures_set (u := .result _) nofun hlive (.inl ⟨_, rfl⟩)) ?_
    rintro _ v₂ ⟨past₂, hpast₂, rfl⟩
    have htext : newline ∉ snprintf maxJobResult (lit "job canceled") := by decide +kernel
    refine ensures_bind (ensures_setState .canceled hlive (told_of_not_done nofun htext)
      fun s _ hbusy => ?_) ?_
    · refine hbusy.mayCancel (.inl hqueued) hblank ?_ (Bool.or_true _)
      change snprintf maxJobResult (lit "job canceled") = _
      decide +kernel
    rintro _ v₃ ⟨now, past₃, hpast₃, rfl⟩
    refine ensures_bind ensures_jobId ?_
    rintro id v₄ ⟨⟨past₄, hpast₄, rfl⟩, rfl⟩
    change Ensures cfg codec i (call (.writeEvent v.record.id .canceled) >>= fun _ => pure ()) _ _
    rw [hlinked.id]
    refine ensures_bind (ensures_writeEvent (.inr (.inr rfl)) hevents) ?_
    rintro _ v₅ ⟨hjob, hrecord, hsent⟩
    refine ensures_pure ⟨hjob, ?_, hsent⟩
    rw [hrecord]
    exact .inr (.inr rfl)
  | false =>
    refine ensures_bind (ensures_setState .running hlive (fun h =>
      absurd h JobState.running_not_terminal) fun s _ hbusy => ?_) ?_
    · have hstate := hbusy.state.trans hqueued
      simp only [MayBecome, hstate]
      exact hbusy.clear
    rintro _ v₂ ⟨now, past₂, hpast₂, rfl⟩
    refine ensures_bind ensures_getType ?_
    rintro type v₃ ⟨⟨past₃, hpast₃, rfl⟩, rfl⟩
    refine ensures_bind (ensures_processJob rfl hblank
      ⟨hlinked.id, hlinked.small, hlinked.input, hlinked.text, hlinked.data, hlinked.payload⟩) ?_
    rintro rc v₄ ⟨hjob, hid, hterminal, hnone⟩
    obtain ⟨job, rfl⟩ : ∃ job, job = v₄.job := ⟨_, rfl⟩
    have hjob' : v.job = v₄.job := hjob.symm
    rw [hjob']
    have hlast : ∀ {v₅ : View}, v₄.Later v₅ → Ensures cfg codec i (do
          let id ← jobId v₄.job
          let _ ← call (.writeEvent id (← jobGetState v₄.job))) v₅ fun _ v' =>
            v'.job = v₄.job ∧ v'.record.state.Terminal ∧ v'.events ≠ [] := by
      rintro v₅ ⟨past₅, hpast₅, rfl⟩
      refine ensures_bind ensures_jobId ?_
      rintro id v₆ ⟨⟨past₆, hpast₆, rfl⟩, rfl⟩
      refine ensures_bind ensures_getState ?_
      rintro st v₇ ⟨⟨past₇, hpast₇, rfl⟩, rfl⟩
      have hid' : v₄.record.id = v₄.job + 1 := by
        rw [hid, hjob]
        exact hlinked.id
      change Ensures cfg codec i (call (.writeEvent v₄.record.id v₄.record.state) >>=
        fun _ => pure ()) _ _
      rw [hid']
      refine ensures_bind (ensures_writeEvent hterminal (hnone.trans hevents)) ?_
      rintro _ v₈ ⟨hjob₈, hrecord₈, hsent⟩
      exact ensures_pure ⟨hjob₈, by rw [hrecord₈]; exact hterminal, hsent⟩
    dsimp only
    split
    · refine ensures_bind ensures_getState ?_
      rintro st v₅ ⟨⟨past₅, hpast₅, rfl⟩, rfl⟩
      have hnot : v₄.record.state ≠ .running := by
        intro hrunning
        rw [hrunning] at hterminal
        exact absurd hterminal (by decide)
      rw [if_neg hnot]
      exact hlast ⟨past₅, hpast₅, rfl⟩
    · exact hlast ⟨_, List.suffix_rfl, rfl⟩

end

end StegaPng
