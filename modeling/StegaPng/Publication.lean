import StegaPng.LifeCycle

/-! A finished job is published and frozen. -/

namespace StegaPng

open Interleaving

/-- What META says of a job of the pipeline describes the content of its result file. -/
structure Described (codec : PngCodec) (files : Bytes → Option Bytes) (h : List Mark) (r : Job)
    (content : Bytes) : Prop where
  path : r.output_path ≠ []
  file : files r.output_path = some content
  size : (∀ t, .fault t .stat r.output_path ∉ h) → r.result_size = content.length
  image : r.type = .encodeText ∨ r.type = .encodeFile → r.result_kind = .png ∧
    r.result_filename = lit "stego_result.png" ∧ (FaultFree h → ∃ img, content = codec.save img)
  payload : r.type = .decode → ∃ malloc png ex, files r.input_path = some png ∧
    stegoDecode malloc (codec.load png) = (.ok, ex) ∧ content = ex.data.getD [] ∧
    r.result_kind = decodedKind ex.type ∧ r.result_filename =
      snprintf maxJobFilename (decodedName ex)

section

variable {cfg : RuntimeConfig} {codec : PngCodec} {files : Bytes → Option Bytes}
  {h : List Mark} {r : Job}

theorem resultPath_ne_nil (id : Nat) (suffix : Bytes) : resultPath cfg id suffix ≠ [] := by
  simp [resultPath, jobFilePath, lit]

theorem PublishedImage.described {payload : Bytes → Bytes → Prop}
    (hpub : PublishedImage cfg files h r payload) (htype : r.type ≠ .decode)
    (hsaved : ∀ data content, payload data content → ∃ img, content = codec.save img) :
    ∃ content, Described codec files h r content := by
  obtain ⟨content, hpath, hfile, hkind, hname, hsize, hdata⟩ := hpub
  refine ⟨content, hpath ▸ resultPath_ne_nil _ _, hfile, hsize,
    fun _ => ⟨hkind, hname, fun hfree => ?_⟩, ?_⟩
  · obtain ⟨data, -, hpayload⟩ := hdata hfree
    exact hsaved data content hpayload
  · exact fun hdecode => absurd hdecode htype

theorem Encoded.saved {type : StegoPayloadType} {filename : Option Bytes} {payload content : Bytes}
    (henc : Encoded codec files r type filename payload content) :
    ∃ img, content = codec.save img := by
  obtain ⟨malloc, png, img, out, -, -, -, hcontent⟩ := henc
  exact ⟨out, hcontent⟩

theorem Published.described (hpub : Published cfg codec files h r)
    (htype : r.type = .encodeText ∨ r.type = .encodeFile ∨ r.type = .decode) :
    ∃ content, Described codec files h r content := by
  unfold Published at hpub
  rcases htype with htype | htype | htype <;> simp only [htype] at hpub
  · exact PublishedImage.described hpub (by rw [htype]; decide) fun _ _ henc => henc.saved
  · exact PublishedImage.described hpub (by rw [htype]; decide) fun _ _ henc => henc.saved
  · obtain ⟨malloc, png, ex, hpng, hdecode, hpath, hfile, hkind, hsize, hname⟩ := hpub
    refine ⟨ex.data.getD [], hpath ▸ resultPath_ne_nil _ _, hfile, fun _ => ?_, ?_, fun _ => ?_⟩
    · rw [hsize, (stegoDecode_ok hdecode).2.1]
    · rw [htype]
      rintro (himage | himage) <;> cases himage
    · exact ⟨malloc, png, ex, hpng, hdecode, rfl, hkind, hname⟩

theorem Published.output_path (hpub : Published cfg codec files h r)
    (htype : r.type = .encodeText ∨ r.type = .encodeFile ∨ r.type = .decode) :
    ∃ suffix, r.output_path = resultPath cfg r.id suffix := by
  unfold Published at hpub
  rcases htype with htype | htype | htype <;> simp only [htype] at hpub
  · obtain ⟨content, hpath, -⟩ := hpub
    exact ⟨_, hpath⟩
  · obtain ⟨content, hpath, -⟩ := hpub
    exact ⟨_, hpath⟩
  · obtain ⟨malloc, png, ex, -, -, hpath, -⟩ := hpub
    exact ⟨_, hpath⟩

end

section

variable {codec : PngCodec} {cfg : RuntimeConfig} {dt : DurationText} {fds : ServerFds}
  {files : Bytes → Option Bytes} {c c' : ServerConfig} {j : Nat}

/-- No step changes the result files of a finished job. -/
theorem Inv.results_step {s s' : Sys} {t : Tid} {o : Op} {marks : List Mark}
    (hallowed : Allowed cfg codec t o s) (heffect : Effect t s.world o s'.world marks)
    (hterminal : (s.world.job j).state.Terminal) (suffix : Bytes) :
    s'.world.files (resultPath cfg (j + 1) suffix) =
      s.world.files (resultPath cfg (j + 1) suffix) := by
  obtain ⟨w', h'⟩ := s'
  dsimp only at heffect ⊢
  cases heffect with
  | quiet _ hfiles => rw [hfiles]
  | input _ _ hfiles => rw [hfiles]
  | file ho _ hfiles => exact hfiles _ ((hallowed.write ho).result_ne suffix (.inl hterminal))
  | created => rfl
  | set => rfl
  | canceled => rfl
  | pushed => rfl
  | pushFailed => rfl
  | popped => rfl
  | event => rfl

theorem ServerReachable.results_frozen (h : ServerReachable codec cfg dt fds files c)
    (hlater : Config.Reachable (machine codec) (serverBody cfg dt fds) c c')
    (hj : j < c.state.world.jobs.length) (hterminal : (c.state.world.job j).state.Terminal)
    (suffix : Bytes) :
    c'.state.world.files (resultPath cfg (j + 1) suffix) =
      c.state.world.files (resultPath cfg (j + 1) suffix) := by
  refine (h.preserves hlater (P := fun s => (j < s.world.jobs.length ∧
    (s.world.job j).state.Terminal) ∧
    s.world.files (resultPath cfg (j + 1) suffix) =
      c.state.world.files (resultPath cfg (j + 1) suffix))
    ?_ (fun _ _ hs => hs) ⟨⟨hj, hterminal⟩, rfl⟩).2
  rintro t o s a s' hinv hallowed ⟨e, marks, -, hexec, hhistory⟩ ⟨⟨hlt, hlast⟩, hsame⟩
  have heffect := exec_effect hexec
  obtain ⟨hlt', hrecord⟩ := hinv.record_step hallowed heffect hlt
  refine ⟨⟨hlt', ?_⟩, (Inv.results_step hallowed heffect hlast suffix).trans hsame⟩
  generalize s'.world.job j = r' at hrecord ⊢
  cases hrecord with
  | same => exact hlast
  | set u now hlive => exact absurd hlast hlive
  | cancel => exact hlast

/-- Once a job has been seen in a final state, every later read of its record answers
the same; the record is what its worker stored for that outcome, and META describes the
file that DOWNLOAD opens. -/
theorem finished_job_frozen (h : ServerReachable codec cfg dt fds files c)
    (hj : j < c.state.world.jobs.length) (hterminal : (c.state.world.job j).state.Terminal)
    (hlater : Config.Reachable (machine codec) (serverBody cfg dt fds) c c') :
    (∀ t f a s', (machine codec).step t (.getJob j f) c'.state a s' →
      a = f.read (c.state.world.job j)) ∧
    Settled cfg codec c'.state.world.files c'.state.history (c.state.world.job j) ∧
    ((c.state.world.job j).state = .done →
      (c.state.world.job j).type = .encodeText ∨ (c.state.world.job j).type = .encodeFile ∨
        (c.state.world.job j).type = .decode →
      ∃ content, Described codec c.state.world.files c.state.history (c.state.world.job j) content ∧
        c'.state.world.files (c.state.world.job j).output_path = some content) := by
  obtain ⟨hj', hsame⟩ := h.record_frozen hlater hj hterminal
  have hinv' := (ServerReachable.inv (c := c') (h.trans hlater))
  refine ⟨?_, hsame ▸ hinv'.outcome j hj', fun hdone htype => ?_⟩
  · rintro t f a s' ⟨e, marks, -, hexec, -⟩
    simp only [exec, Option.some.injEq, Prod.mk.injEq] at hexec
    rw [← hexec.1, hsame]
  · have hpub : Published cfg codec c.state.world.files c.state.history (c.state.world.job j) := by
      have hsettled := h.inv.outcome j hj
      simpa only [Settled, hdone] using hsettled
    obtain ⟨content, hdescribed⟩ := hpub.described htype
    obtain ⟨suffix, hpath⟩ := hpub.output_path htype
    refine ⟨content, hdescribed, ?_⟩
    rw [hpath, h.inv.id j hj, h.results_frozen hlater hj hterminal suffix, ← h.inv.id j hj, ← hpath]
    exact hdescribed.file

theorem finished_job_frozen_hideAndSeek :
    ∃ c c', ServerReachable boundedCodec runtimeConfigDefaults plainDurations plainFds
      (fun _ => none) c ∧
      Config.Reachable (machine boundedCodec)
        (serverBody runtimeConfigDefaults plainDurations plainFds) c c' ∧
      (c.state.world.job 0).state = .done ∧ c'.state.world.jobs.length = 2 ∧
      (∀ t f a s', (machine boundedCodec).step t (.getJob 0 f) c'.state a s' →
        a = f.read (c.state.world.job 0)) ∧
      ∃ content, Described boundedCodec c.state.world.files c.state.history (c.state.world.job 0)
        content ∧ c'.state.world.files (c.state.world.job 0).output_path = some content := by
  obtain ⟨c, c', hreach, hlater, hc, hlength⟩ :=
    exists_later boundedCodec runtimeConfigDefaults plainDurations plainFds (fun _ => none)
    hide seek (fun c => decide (c.state.world.jobs.length = 1 ∧
      (c.state.world.job 0).state = .done ∧ (c.state.world.job 0).type = .encodeText))
    (fun c => c.state.world.jobs.length)
    (show _ = some (true, 2) by decide +kernel)
  obtain ⟨hone, hdone, htype⟩ := of_decide_eq_true hc
  have hterminal : (c.state.world.job 0).state.Terminal := by
    rw [hdone]
    decide
  obtain ⟨hread, -, hfile⟩ := finished_job_frozen hreach (by omega) hterminal hlater
  exact ⟨c, c', hreach, hlater, hdone, hlength, hread, hfile hdone (.inl htype)⟩

end

end StegaPng
