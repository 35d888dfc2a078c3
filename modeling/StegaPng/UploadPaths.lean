import StegaPng.LifeCycle
import StegaPng.Pipeline

/-! The files of different jobs never collide, and no command touches the uploads of
a job that exists. -/

namespace StegaPng

open Interleaving

/-- The files that belong to a job: those its record names, and its results. -/
inductive OwnFile (cfg : RuntimeConfig) (r : Job) : Bytes → Prop
  | input : OwnFile cfg r r.input_path
  | stored (hstored : r.stored_path ≠ []) : OwnFile cfg r r.stored_path
  | result (suffix : Bytes) : OwnFile cfg r (resultPath cfg r.id suffix)

/-- The record names its uploads and its result by its own id. -/
structure NamedById (cfg : RuntimeConfig) (r : Job) : Prop where
  input : r.input_path = uploadPath cfg r.id (lit "png")
  stored : r.stored_path = [] ∨ r.stored_path = uploadPath cfg r.id (lit "txt") ∨
    r.stored_path = uploadPath cfg r.id (lit "data")
  output : r.output_path = [] ∨ ∃ suffix, r.output_path = resultPath cfg r.id suffix

section

variable {cfg : RuntimeConfig} {codec : PngCodec} {r r' : Job}

theorem StoredOk.stored (hstored : StoredOk cfg r) :
    r.stored_path = [] ∨ r.stored_path = uploadPath cfg r.id (lit "txt") ∨
      r.stored_path = uploadPath cfg r.id (lit "data") := by
  unfold StoredOk at hstored
  split at hstored
  · exact .inr (.inl hstored)
  · exact .inr (.inr hstored)
  · exact .inl hstored

theorem UploadOk.input {files : Bytes → Option Bytes} {q : Bytes × Bytes}
    (hup : UploadOk cfg files q r) (hupload : (protocolParseLine q.1).command ∈ uploadCommands) :
    r.input_path = uploadPath cfg r.id (lit "png") := by
  unfold UploadOk at hup
  split at hup
  · exact hup.2.2.2.1
  · exact hup.2.2.2.1
  · exact hup.2.2.1
  · exact absurd hupload hup.1
  · exact hup hupload

theorem NamedById.ownFile (hr : NamedById cfg r) {p : Bytes} (hp : OwnFile cfg r p) :
    (∃ suffix, p = uploadPath cfg r.id suffix) ∨ ∃ suffix, p = resultPath cfg r.id suffix := by
  cases hp with
  | input => exact .inl ⟨_, hr.input⟩
  | stored hne =>
    rcases hr.stored with hnone | htxt | hdata
    · exact absurd hnone hne
    · exact .inl ⟨_, htxt⟩
    · exact .inl ⟨_, hdata⟩
  | result suffix => exact .inr ⟨suffix, rfl⟩

theorem NamedById.disjoint (hr : NamedById cfg r) (hr' : NamedById cfg r') (hid : r.id ≠ r'.id)
    {p p' : Bytes} (hp : OwnFile cfg r p) (hp' : OwnFile cfg r' p') : p ≠ p' := by
  rintro rfl
  rcases hr.ownFile hp with ⟨suffix, hup⟩ | ⟨suffix, hres⟩
  · rcases hr'.ownFile hp' with ⟨suffix', hup'⟩ | ⟨suffix', hres'⟩
    · exact hid (jobFilePath_injective (hup.symm.trans hup')).1
    · exact uploadPath_ne_resultPath cfg _ _ _ _ (hup.symm.trans hres')
  · rcases hr'.ownFile hp' with ⟨suffix', hup'⟩ | ⟨suffix', hres'⟩
    · exact uploadPath_ne_resultPath cfg _ _ _ _ (hup'.symm.trans hres)
    · exact hid (jobFilePath_injective (hres.symm.trans hres')).1

theorem NamedById.apart (hr : NamedById cfg r) :
    r.input_path ≠ r.stored_path ∧ ∀ id suffix, r.input_path ≠ resultPath cfg id suffix ∧
      r.stored_path ≠ resultPath cfg id suffix := by
  have hne : ∀ suffix, suffix ≠ lit "png" → r.input_path ≠ uploadPath cfg r.id suffix := by
    intro suffix hsuffix hsame
    exact hsuffix (jobFilePath_injective (hsame.symm.trans hr.input)).2
  have hresult : ∀ id suffix s, uploadPath cfg r.id s ≠ resultPath cfg id suffix :=
    fun id suffix s => uploadPath_ne_resultPath cfg _ _ _ _
  refine ⟨?_, fun id suffix => ⟨?_, ?_⟩⟩
  · rcases hr.stored with hnone | htxt | hdata
    · rw [hnone, hr.input]
      simp [uploadPath, jobFilePath, lit]
    · rw [htxt]
      exact hne _ (by decide)
    · rw [hdata]
      exact hne _ (by decide)
  · rw [hr.input]
    exact hresult id suffix _
  · rcases hr.stored with hnone | htxt | hdata
    · rw [hnone]
      simp [resultPath, jobFilePath, lit]
    · rw [htxt]
      exact hresult id suffix _
    · rw [hdata]
      exact hresult id suffix _

end

section

variable {codec : PngCodec} {cfg : RuntimeConfig} {dt : DurationText} {fds : ServerFds}
  {files : Bytes → Option Bytes} {c c' : ServerConfig} {j k : Nat}

theorem ServerReachable.stored_named (h : ServerReachable codec cfg dt fds files c)
    (hj : j < c.state.world.jobs.length) :
    (c.state.world.job j).stored_path = [] ∨ StoredOk cfg (c.state.world.job j) := by
  refine h.record_invariant (I := fun _ r => r.stored_path = [] ∨ StoredOk cfg r) ?_ ?_ ?_ hj
  · exact fun _ _ _ _ _ _ _ _ _ => .inl rfl
  · intro s t j u now _ hallowed hr
    cases u with
    | storedPath path =>
      rcases hallowed with ⟨-, -, hstored⟩ | ⟨-, -, hnever⟩
      · exact .inr hstored
      · exact hnever.elim
    | _ => exact hr
  · exact fun _ _ hr => hr

theorem ServerReachable.output_named (h : ServerReachable codec cfg dt fds files c)
    (hj : j < c.state.world.jobs.length) :
    (c.state.world.job j).output_path = [] ∨
      ∃ suffix, (c.state.world.job j).output_path =
        resultPath cfg (c.state.world.job j).id suffix := by
  have hid := h.inv.id j hj
  rw [hid]
  refine h.record_invariant (I := fun j r => r.output_path = [] ∨
    ∃ suffix, r.output_path = resultPath cfg (j + 1) suffix) ?_ ?_ ?_ hj
  · exact fun _ _ _ _ _ _ _ _ _ => .inl rfl
  · intro s t j u now _ hallowed hr
    cases u with
    | outputPath path =>
      rcases hallowed with ⟨-, -, hnever⟩ | ⟨-, -, -, suffix, hpath⟩
      · exact hnever.elim
      · exact .inr ⟨suffix, hpath⟩
    | _ => exact hr
  · exact fun _ _ hr => hr

theorem ServerReachable.namedById (h : ServerReachable codec cfg dt fds files c)
    (hj : j < c.state.world.jobs.length)
    (hupload : (protocolParseLine (origin j c.state.history).1).command ∈ uploadCommands) :
    NamedById cfg (c.state.world.job j) where
  input := (h.inv.upload j hj).input hupload
  stored := (h.stored_named hj).elim .inl StoredOk.stored
  output := h.output_named hj

/-- No thread is ever about to write the uploads of an existing job. -/
theorem ServerReachable.writes_other (h : ServerReachable codec cfg dt fds files c)
    {t : Tid} {o : Op} {p : Ans o → Task (Option MainState)} (ht : c.thread t = some (.op o p))
    (hj : j < c.state.world.jobs.length) (suffix : Bytes) :
    o.writes ≠ some (uploadPath cfg (j + 1) suffix) := by
  intro hwrites
  have hallowed : Allowed cfg codec t o c.state := h.keeps.allowed (conduct_sound cfg codec) ht
  exact (hallowed.write hwrites).upload_ne suffix hj rfl

theorem ServerReachable.uploads_kept (h : ServerReachable codec cfg dt fds files c)
    (hlater : Config.Reachable (machine codec) (serverBody cfg dt fds) c c')
    (hj : j < c.state.world.jobs.length) (suffix : Bytes) : j < c'.state.world.jobs.length ∧
      c'.state.world.files (uploadPath cfg (j + 1) suffix) =
        c.state.world.files (uploadPath cfg (j + 1) suffix) := by
  refine h.preserves hlater (P := fun s => j < s.world.jobs.length ∧
    s.world.files (uploadPath cfg (j + 1) suffix) =
      c.state.world.files (uploadPath cfg (j + 1) suffix)) ?_
    (fun _ _ hs => hs) ⟨hj, rfl⟩
  rintro t o s a s' hinv hallowed ⟨e, marks, -, hexec, -⟩ ⟨hlt, hs⟩
  have heffect := exec_effect hexec
  refine ⟨(hinv.record_step hallowed heffect hlt).1, Eq.trans ?_ hs⟩
  obtain ⟨w', h'⟩ := s'
  dsimp only at heffect ⊢
  cases heffect with
  | quiet _ hfiles => rw [hfiles]
  | input _ _ hfiles => rw [hfiles]
  | file ho _ hfiles => exact hfiles _ ((hallowed.write ho).upload_ne suffix hlt)
  | _ => rfl

/-- Uploads of different jobs never collide. -/
theorem uploads_disjoint (h : ServerReachable codec cfg dt fds files c) :
    (∀ j < c.state.world.jobs.length, (protocolParseLine (origin j c.state.history).1).command ∈
      uploadCommands →
      NamedById cfg (c.state.world.job j) ∧
      (c.state.world.job j).input_path ≠ (c.state.world.job j).stored_path ∧
      (∀ id suffix, (c.state.world.job j).input_path ≠ resultPath cfg id suffix ∧
        (c.state.world.job j).stored_path ≠ resultPath cfg id suffix) ∧
      ∀ k < c.state.world.jobs.length, k ≠ j →
        (protocolParseLine (origin k c.state.history).1).command ∈ uploadCommands →
        ∀ p q, OwnFile cfg (c.state.world.job j) p → OwnFile cfg (c.state.world.job k) q → p ≠ q) ∧
    (∀ j < c.state.world.jobs.length, ∀ k < c.state.world.jobs.length, k ≠ j → ∀ suffix suffix',
      resultPath cfg (c.state.world.job j).id suffix ≠
        resultPath cfg (c.state.world.job k).id suffix') ∧
    ∀ c', Config.Reachable (machine codec) (serverBody cfg dt fds) c c' →
      ∀ j < c.state.world.jobs.length, ∀ suffix,
      (∀ t o p, c'.thread t = some (.op o p) →
        o.writes ≠ some (uploadPath cfg (c.state.world.job j).id suffix)) ∧
      c'.state.world.files (uploadPath cfg (c.state.world.job j).id suffix) =
        c.state.world.files (uploadPath cfg (c.state.world.job j).id suffix) := by
  have hids : ∀ j < c.state.world.jobs.length, ∀ k < c.state.world.jobs.length, k ≠ j →
      (c.state.world.job j).id ≠ (c.state.world.job k).id := by
    intro j hj k hk hkj
    rw [h.inv.id j hj, h.inv.id k hk]
    omega
  refine ⟨fun j hj hupload => ?_, fun j hj k hk hkj suffix suffix' hsame => ?_,
    fun c' hlater j hj suffix => ?_⟩
  · have hnamed := h.namedById hj hupload
    refine ⟨hnamed, hnamed.apart.1, hnamed.apart.2, fun k hk hkj hkupload p q hp hq => ?_⟩
    exact hnamed.disjoint (h.namedById hk hkupload) (hids j hj k hk hkj) hp hq
  · exact hids j hj k hk hkj (jobFilePath_injective hsame).1
  · obtain ⟨hlt, hkept⟩ := h.uploads_kept hlater hj suffix
    have hreach : ServerReachable codec cfg dt fds files c' := h.trans hlater
    rw [h.inv.id j hj]
    exact ⟨fun t o p ht => hreach.writes_other ht hlt suffix, hkept⟩

theorem uploads_disjoint_hideAndSeek :
    ∃ c, ServerReachable boundedCodec runtimeConfigDefaults plainDurations plainFds
      (fun _ => none) c ∧
      (c.state.world.job 0).stored_path = lit "storage/uploads/job_1.txt" ∧
      OwnFile runtimeConfigDefaults (c.state.world.job 1) (lit "storage/uploads/job_2.png") ∧
      NamedById runtimeConfigDefaults (c.state.world.job 1) := by
  obtain ⟨c, hreach, hc⟩ :=
    exists_reachable boundedCodec runtimeConfigDefaults plainDurations plainFds (fun _ => none)
    hideAndSeek (fun c => decide (c.state.world.jobs.length = 2 ∧
      (protocolParseLine (origin 1 c.state.history).1).command ∈ uploadCommands ∧
      (c.state.world.job 0).stored_path = lit "storage/uploads/job_1.txt" ∧
      (c.state.world.job 1).input_path = lit "storage/uploads/job_2.png"))
    (show _ = some true by decide +kernel)
  obtain ⟨hlength, hupload, hstored, hinput⟩ := of_decide_eq_true hc
  obtain ⟨hnamed, -⟩ := (uploads_disjoint hreach).1 1 (by omega) hupload
  exact ⟨c, hreach, hstored, hinput ▸ .input, hnamed⟩

end

end StegaPng
