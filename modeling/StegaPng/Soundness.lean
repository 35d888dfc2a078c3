import StegaPng.Conduct

/-! Allowed operations keep the invariant and what the other threads rely on. -/

namespace StegaPng

open Interleaving

namespace World

@[simp] theorem updateJob_length (w : World) (job : Nat) (f : Job → Job) :
    (w.updateJob job f).jobs.length = w.jobs.length := by
  simp [updateJob]

theorem updateJob_job {w : World} {job : Nat} (f : Job → Job) (hjob : job < w.jobs.length) :
    (w.updateJob job f).job job = f (w.job job) := by
  simp [updateJob, World.job, List.getD_eq_getElem?_getD, hjob]

theorem updateJob_job_ne {w : World} {job k : Nat} (f : Job → Job) (hk : k ≠ job) :
    (w.updateJob job f).job k = w.job k := by
  simp [updateJob, World.job, List.getD_eq_getElem?_getD, hk.symm]

theorem job_congr {w w' : World} (h : w'.jobs = w.jobs) (k : Nat) : w'.job k = w.job k := by
  simp only [World.job, h]

theorem job_append {w w' : World} {j : Job} (h : w'.jobs = w.jobs ++ [j]) {k : Nat}
    (hk : k < w.jobs.length) :
    w'.job k = w.job k := by
  simp [World.job, h, List.getD_eq_getElem?_getD, List.getElem?_append_left hk]

theorem job_append_last {w w' : World} {j : Job} (h : w'.jobs = w.jobs ++ [j]) :
    w'.job w.jobs.length = j := by
  simp [World.job, h, List.getD_eq_getElem?_getD]

end World

section

variable {cfg : RuntimeConfig} {codec : PngCodec} {files files' : Bytes → Option Bytes}
  {h h' : List Mark} {q : Bytes × Bytes} {r : Job}

theorem UploadOk.congr (hr : UploadOk cfg files q r)
    (hup : ∀ suffix, files' (uploadPath cfg r.id suffix) = files (uploadPath cfg r.id suffix)) :
    UploadOk cfg files' q r := by
  unfold UploadOk at hr ⊢
  cases htype : r.type <;> simp only [htype] at hr ⊢ <;> simpa only [hup] using hr

/-- The uploads a processor of the pipeline reads are the job's own. -/
theorem upload_paths (hup : UploadOk cfg files q r) (hstored : StoredOk cfg r) :
    (r.type = .encodeText ∨ r.type = .encodeFile →
      (∃ suffix, r.stored_path = uploadPath cfg r.id suffix)) ∧
      (r.type = .encodeText ∨ r.type = .encodeFile ∨ r.type = .decode →
        r.input_path = uploadPath cfg r.id (lit "png")) := by
  unfold UploadOk at hup
  unfold StoredOk at hstored
  constructor
  · rintro (htype | htype) <;> simp only [htype] at hstored <;> exact ⟨_, hstored⟩
  · rintro (htype | htype | htype) <;> simp only [htype] at hup
    · exact hup.2.2.2.1
    · exact hup.2.2.2.1
    · exact hup.2.2.1

theorem Encoded.congr {type : StegoPayloadType} {filename : Option Bytes} {payload content : Bytes}
    (hr : Encoded codec files r type filename payload content)
    (hinput : files' r.input_path = files r.input_path) :
    Encoded codec files' r type filename payload content := by
  obtain ⟨malloc, png, img, out, hfile, hrest⟩ := hr
  exact ⟨malloc, png, img, out, hinput.trans hfile, hrest⟩

theorem PublishedImage.congr {payload payload' : Bytes → Bytes → Prop}
    (hr : PublishedImage cfg files h r payload) (hsuffix : h <:+ h')
    (hresult : ∀ suffix, files' (resultPath cfg r.id suffix) = files (resultPath cfg r.id suffix))
    (hstored : files' r.stored_path = files r.stored_path)
    (hpayload : ∀ data content, payload data content → payload' data content) :
    PublishedImage cfg files' h' r payload' := by
  obtain ⟨content, hpath, hfile, hkind, hname, hsize, hdata⟩ := hr
  refine ⟨content, hpath, ?_, hkind, hname, fun hstat => ?_, fun hfree => ?_⟩
  · rw [hpath, hresult, ← hpath, hfile]
  · exact hsize fun t hmem => hstat t (hsuffix.subset hmem)
  · obtain ⟨data, hdata, hencoded⟩ := hdata (hfree.of_suffix hsuffix)
    exact ⟨data, hstored.trans hdata, hpayload _ _ hencoded⟩

theorem Settled.congr (hr : Settled cfg codec files h r) (hup : UploadOk cfg files q r)
    (hstored : StoredOk cfg r) (hsuffix : h <:+ h')
    (hresult : ∀ suffix, files' (resultPath cfg r.id suffix) = files (resultPath cfg r.id suffix))
    (hupload : ∀ suffix, files' (uploadPath cfg r.id suffix) = files (uploadPath cfg r.id suffix)) :
    Settled cfg codec files' h' r := by
  obtain ⟨hsecond, hfirst⟩ := upload_paths hup hstored
  have hinput : r.type = .encodeText ∨ r.type = .encodeFile ∨ r.type = .decode →
      files' r.input_path = files r.input_path := fun htype => by rw [hfirst htype, hupload]
  have hsecond' : r.type = .encodeText ∨ r.type = .encodeFile →
    files' r.stored_path = files r.stored_path := by
    intro htype
    obtain ⟨suffix, hpath⟩ := hsecond htype
    rw [hpath, hupload]
  unfold Settled at hr ⊢
  cases hstate : r.state <;> simp only [hstate] at hr ⊢ <;> try exact hr
  unfold Published at hr ⊢
  cases htype : r.type <;> simp only [htype] at hr ⊢ <;> try exact hr
  · exact PublishedImage.congr hr hsuffix hresult (hsecond' (.inl htype))
      fun _ _ hencoded => hencoded.congr (hinput (.inl htype))
  · exact PublishedImage.congr hr hsuffix hresult (hsecond' (.inr htype))
      fun _ _ hencoded => hencoded.congr (hinput (.inr (.inl htype)))
  · obtain ⟨malloc, png, ex, hfile, hdecode, hpath, hout, hrest⟩ := hr
    refine ⟨malloc, png, ex, (hinput (.inr (.inr htype))).trans hfile, hdecode, hpath, ?_, hrest⟩
    rw [hpath, hresult, ← hpath, hout]

theorem settled_of_live (hlive : ¬ r.state.Terminal) : Settled cfg codec files h r := by
  unfold Settled
  cases hstate : r.state <;> simp only [JobState.Terminal, hstate, reduceCtorEq, or_self,
    or_false, or_true, not_true_eq_false] at hlive ⊢

theorem told_of_not_done {r : Job} (hdone : r.state ≠ .done) (hresult : newline ∉ r.result) :
    Told cfg r :=
  fun _ => ⟨fun hmem => absurd hmem hresult, fun hboth => absurd hboth.1 hdone⟩

theorem JobState.queued_not_terminal : ¬ JobState.queued.Terminal := by decide

theorem JobState.running_not_terminal : ¬ JobState.running.Terminal := by decide

end

namespace Inv

variable {cfg : RuntimeConfig} {codec : PngCodec} {s s' : Sys} {t u : Tid} {j : Nat}

theorem held_lt (hinv : Inv cfg codec s) (hj : holding t s.history = some j) :
    j < s.world.jobs.length := by
  rcases hinv.popped j with hnone | ⟨hlt, -⟩
  · rw [(hinv.held t j hj).2] at hnone
    cases hnone
  · exact hlt

theorem held_unique (hinv : Inv cfg codec s) (ht : holding t s.history = some j)
    (hu : holding u s.history = some j) : t = u := by
  have hsame := (hinv.held t j ht).2.symm.trans (hinv.held u j hu).2
  exact (List.cons.inj hsame).1

theorem held_not_making (hinv : Inv cfg codec s) (hj : holding t s.history = some j) :
    making s.history ≠ some j := by
  intro hmaking
  have hnone := (hinv.made j hmaking).2.2
  rw [(hinv.held t j hj).2] at hnone
  cases hnone

theorem finished_not_making (hinv : Inv cfg codec s) (hterminal : (s.world.job j).state.Terminal) :
    making s.history ≠ some j :=
  fun hmaking => JobState.queued_not_terminal ((hinv.made j hmaking).2.1 ▸ hterminal)

/-- Outcomes only wait for more history. -/
theorem settled_suffix (hinv : Inv cfg codec s) {h' : List Mark} (hj : j < s.world.jobs.length)
    (hsuffix : s.history <:+ h') : Settled cfg codec s.world.files h' (s.world.job j) := by
  by_cases hterminal : (s.world.job j).state.Terminal
  · exact (hinv.outcome j hj).congr (hinv.upload j hj)
      (hinv.stored j hj (hinv.finished_not_making hterminal))
      hsuffix (fun _ => rfl) (fun _ => rfl)
  · exact settled_of_live hterminal

theorem sameBooks (hinv : Inv cfg codec s) (hcore : SameCore s.world s'.world)
    (hbooks : SameBooks s.history s'.history) (hsuffix : s.history <:+ s'.history)
    (hresult : ∀ j < s.world.jobs.length, (s.world.job j).state.Terminal → ∀ suffix,
      s'.world.files (resultPath cfg (j + 1) suffix) =
        s.world.files (resultPath cfg (j + 1) suffix))
    (hupload : ∀ j < s.world.jobs.length, ∀ suffix,
      s'.world.files (uploadPath cfg (j + 1) suffix) =
        s.world.files (uploadPath cfg (j + 1) suffix)) :
    Inv cfg codec s' := by
  have hjob := World.job_congr hcore.jobs
  constructor
  case id => simpa only [hcore.jobs, hjob] using hinv.id
  case next_id => simpa only [hcore.jobs, hcore.next_id] using hinv.next_id
  case bound => simpa only [hcore.jobs] using hinv.bound
  case nodup => simpa only [hcore.queue] using hinv.nodup
  case queued => simpa only [hcore.jobs, hcore.queue, hjob, hbooks.pops,
    hbooks.making] using hinv.queued
  case held => simpa only [hbooks.holding, hbooks.pops] using hinv.held
  case made => simpa only [hcore.jobs, hjob, hbooks.pops, hbooks.making] using hinv.made
  case popped => simpa only [hcore.jobs, hbooks.pops, hbooks.holding,
    hbooks.events] using hinv.popped
  case place =>
    simpa only [hcore.jobs, hcore.queue, hjob, hbooks.holding, hbooks.making] using hinv.place
  case events => simpa only [hjob, hbooks.pops, hbooks.events] using hinv.events
  case blank => simpa only [hcore.jobs, hjob] using hinv.blank
  case outcome =>
    intro j hj
    rw [hcore.jobs] at hj
    rw [hjob]
    by_cases hterminal : (s.world.job j).state.Terminal
    · have hmaking := hinv.finished_not_making hterminal
      have hid := hinv.id j hj
      refine (hinv.outcome j hj).congr (hinv.upload j hj) (hinv.stored j hj hmaking) hsuffix ?_ ?_
      · rw [hid]
        exact hresult j hj hterminal
      · rw [hid]
        exact hupload j hj
    · exact settled_of_live hterminal
  case upload =>
    intro j hj
    rw [hcore.jobs] at hj
    rw [hjob, hbooks.origin]
    refine (hinv.upload j hj).congr ?_
    rw [hinv.id j hj]
    exact hupload j hj
  case stored => simpa only [hcore.jobs, hjob, hbooks.making] using hinv.stored

theorem update (hinv : Inv cfg codec s) {f : Job → Job} (hj : j < s.world.jobs.length)
    (hlive : ¬ (s.world.job j).state.Terminal) (hworld : s'.world = s.world.updateJob j f)
    (hholding : ∀ t, holding t s'.history = holding t s.history)
    (hpops : ∀ k, pops k s'.history = pops k s.history)
    (hevents : ∀ id, eventsOf id s'.history = eventsOf id s.history)
    (horigin : ∀ k, origin k s'.history = origin k s.history) (hsuffix : s.history <:+ s'.history)
    (hmaking : making s'.history = making s.history ∨
      making s.history = some j ∧ making s'.history = none ∧ (f (s.world.job j)).state.Terminal)
    (hid : (f (s.world.job j)).id = (s.world.job j).id)
    (htype : (f (s.world.job j)).type = (s.world.job j).type)
    (hinput : (f (s.world.job j)).input_path = (s.world.job j).input_path)
    (hpayload : (f (s.world.job j)).payload = (s.world.job j).payload)
    (hqueued : (f (s.world.job j)).state = .queued ∨ j ∉ s.world.queue ∧ making s'.history ≠ some j)
    (hblank : (f (s.world.job j)).state = .queued → (f (s.world.job j)).Blank)
    (houtcome : Settled cfg codec s.world.files s'.history (f (s.world.job j)))
    (hstored : making s'.history ≠ some j → StoredOk cfg (f (s.world.job j))) :
    Inv cfg codec s' := by
  have hlen : s'.world.jobs.length = s.world.jobs.length := by rw [hworld, World.updateJob_length]
  have hself : s'.world.job j = f (s.world.job j) := by rw [hworld, World.updateJob_job f hj]
  have hother : ∀ k, k ≠ j → s'.world.job k = s.world.job k := by
    intro k hk
    rw [hworld, World.updateJob_job_ne f hk]
  have hqueue : s'.world.queue = s.world.queue := by rw [hworld]; rfl
  have hnext : s'.world.next_id = s.world.next_id := by rw [hworld]; rfl
  have hfiles : s'.world.files = s.world.files := by rw [hworld]; rfl
  have hmaking' : ∀ k, making s'.history = some k → making s.history = some k := by
    intro k hk
    rcases hmaking with hsame | ⟨-, hnone, -⟩
    · rw [← hsame, hk]
    · rw [hnone] at hk
      cases hk
  constructor
  case id =>
    intro k hk
    rw [hlen] at hk
    by_cases hkj : k = j
    · subst hkj
      rw [hself, hid, hinv.id k hk]
    · rw [hother k hkj, hinv.id k hk]
  case next_id => rw [hnext, hlen, hinv.next_id]
  case bound => rw [hlen]; exact hinv.bound
  case nodup => rw [hqueue]; exact hinv.nodup
  case queued =>
    intro k hk
    rw [hqueue] at hk
    obtain ⟨hlt, hstate, hnone, hmade⟩ := hinv.queued k hk
    refine ⟨hlen ▸ hlt, ?_, (hpops k).trans hnone, fun hmk => hmade (hmaking' k hmk)⟩
    by_cases hkj : k = j
    · subst hkj
      rw [hself]
      exact hqueued.resolve_right fun hnot => hnot.1 hk
    · rw [hother k hkj, hstate]
  case held =>
    intro t k hk
    rw [hholding] at hk
    rw [hpops]
    exact hinv.held t k hk
  case made =>
    intro k hk
    obtain ⟨hlast, hstate, hnone⟩ := hinv.made k (hmaking' k hk)
    refine ⟨hlast.trans hlen.symm, ?_, (hpops k).trans hnone⟩
    by_cases hkj : k = j
    · subst hkj
      rw [hself]
      exact hqueued.resolve_right fun hnot => hnot.2 hk
    · rw [hother k hkj, hstate]
  case popped =>
    intro k
    rw [hpops, hlen, hevents]
    simpa only [hholding] using hinv.popped k
  case place =>
    intro k hk
    rw [hlen] at hk
    rw [hqueue]
    simp only [hholding]
    by_cases hkj : k = j
    · subst hkj
      rcases hmaking with hsame | ⟨-, -, hterminal⟩
      · rw [hsame]
        exact .inr ((hinv.place k hk).resolve_left hlive)
      · rw [hself]
        exact .inl hterminal
    · rw [hother k hkj]
      rcases hinv.place k hk with hterminal | hmem | hheld | hmk
      · exact .inl hterminal
      · exact .inr (.inl hmem)
      · exact .inr (.inr (.inl hheld))
      · rcases hmaking with hsame | ⟨hj', -, -⟩
        · exact .inr (.inr (.inr (hsame.trans hmk)))
        · exact absurd (Option.some.inj (hmk.symm.trans hj')) hkj
  case events =>
    intro k
    rw [hevents, hpops]
    by_cases hkj : k = j
    · subst hkj
      rcases hinv.events k with hnone | ⟨-, hterminal, -⟩
      · exact .inl hnone
      · exact absurd hterminal hlive
    · rw [hother k hkj]
      exact hinv.events k
  case blank =>
    intro k hk
    rw [hlen] at hk
    by_cases hkj : k = j
    · subst hkj
      rw [hself]
      exact hblank
    · rw [hother k hkj]
      exact hinv.blank k hk
  case outcome =>
    intro k hk
    rw [hlen] at hk
    rw [hfiles]
    by_cases hkj : k = j
    · subst hkj
      rw [hself]
      exact houtcome
    · rw [hother k hkj]
      exact hinv.settled_suffix hk hsuffix
  case upload =>
    intro k hk
    rw [hlen] at hk
    rw [hfiles, horigin]
    by_cases hkj : k = j
    · subst hkj
      have hok := hinv.upload k hk
      rw [hself]
      unfold UploadOk at hok ⊢
      simpa only [hid, htype, hinput, hpayload] using hok
    · rw [hother k hkj]
      exact hinv.upload k hk
  case stored =>
    intro k hk hmk
    rw [hlen] at hk
    by_cases hkj : k = j
    · subst hkj
      rw [hself]
      exact hstored hmk
    · rw [hother k hkj]
      refine hinv.stored k hk fun hmk' => ?_
      rcases hmaking with hsame | ⟨hj', -, -⟩
      · exact hmk (hsame.trans hmk')
      · exact hkj (Option.some.inj (hmk'.symm.trans hj'))

theorem create (hinv : Inv cfg codec s) (hroom : s.world.jobs.length < maxJobs)
    (hmaking : making s.history = none) {owner_fd : Int} {owner_ip : Bytes} {type : JobType}
    {payload input_path : Option Bytes} {now : Nat}
    (hupload : UploadOk cfg s.world.files (requestSoFar s.history)
      (newJob s.world.next_id owner_fd owner_ip type payload input_path now))
    (hworld : s'.world = { s.world with
      jobs := s.world.jobs ++ [newJob s.world.next_id owner_fd owner_ip type payload input_path now]
      next_id := s.world.next_id + 1 })
    (hhistory : s'.history = .created s.world.jobs.length :: s.history) : Inv cfg codec s' := by
  have hjobs : s'.world.jobs = s.world.jobs ++
    [newJob s.world.next_id owner_fd owner_ip type payload input_path now] := by
    rw [hworld]
  have hlen : s'.world.jobs.length = s.world.jobs.length + 1 := by rw [hjobs]; simp
  have hold : ∀ k < s.world.jobs.length, s'.world.job k = s.world.job k :=
    fun k => World.job_append hjobs
  have hlast : s'.world.job s.world.jobs.length = _ := World.job_append_last hjobs
  have hcases : ∀ {k}, k < s'.world.jobs.length → k < s.world.jobs.length ∨
    k = s.world.jobs.length := by
    intro k hk
    omega
  have hqueue : s'.world.queue = s.world.queue := by rw [hworld]
  have hfiles : s'.world.files = s.world.files := by rw [hworld]
  have hsuffix : s.history <:+ s'.history := hhistory ▸ List.suffix_cons _ _
  have hholding : ∀ t, holding t s'.history = holding t s.history := fun _ => by rw [hhistory]; rfl
  have hpops : ∀ k, pops k s'.history = pops k s.history := fun _ => by rw [hhistory]; rfl
  have hevents : ∀ id, eventsOf id s'.history = eventsOf id s.history :=
    fun _ => by rw [hhistory]; rfl
  have hmaking' : making s'.history = some s.world.jobs.length := by rw [hhistory]; rfl
  have hfresh : pops s.world.jobs.length s.history = [] := by
    rcases hinv.popped s.world.jobs.length with hnone | ⟨hlt, -⟩
    · exact hnone
    · exact absurd hlt (lt_irrefl _)
  constructor
  case id =>
    intro k hk
    rcases hcases hk with hk | rfl
    · rw [hold k hk, hinv.id k hk]
    · rw [hlast]
      exact hinv.next_id
  case next_id =>
    rw [hlen, ← hinv.next_id, hworld]
  case bound =>
    rw [hlen]
    exact hroom
  case nodup => rw [hqueue]; exact hinv.nodup
  case queued =>
    intro k hk
    rw [hqueue] at hk
    obtain ⟨hlt, hstate, hnone, -⟩ := hinv.queued k hk
    refine ⟨by omega, by rw [hold k hlt, hstate], (hpops k).trans hnone, fun hmk => ?_⟩
    rw [hmaking', Option.some.injEq] at hmk
    omega
  case held => simpa only [hholding, hpops] using hinv.held
  case made =>
    intro k hk
    rw [hmaking', Option.some.injEq] at hk
    subst hk
    refine ⟨hlen.symm, by rw [hlast]; rfl, ?_⟩
    rw [hpops, hfresh]
  case popped =>
    intro k
    rw [hpops, hevents]
    rcases hinv.popped k with hnone | ⟨hlt, hrest⟩
    · exact .inl hnone
    · refine .inr ⟨by omega, ?_⟩
      simpa only [hholding] using hrest
  case place =>
    intro k hk
    rw [hqueue, hmaking']
    simp only [hholding]
    rcases hcases hk with hk | rfl
    · rw [hold k hk]
      rcases hinv.place k hk with hterminal | hmem | hheld | hmk
      · exact .inl hterminal
      · exact .inr (.inl hmem)
      · exact .inr (.inr (.inl hheld))
      · rw [hmaking] at hmk
        cases hmk
    · exact .inr (.inr (.inr rfl))
  case events =>
    intro k
    rw [hevents, hpops]
    rcases hinv.events k with hnone | ⟨hpopped, hrest⟩
    · exact .inl hnone
    · rcases hinv.popped k with hnone | ⟨hlt, -⟩
      · exact absurd hnone hpopped
      · rw [hold k hlt]
        exact .inr ⟨hpopped, hrest⟩
  case blank =>
    intro k hk hstate
    rcases hcases hk with hk | rfl
    · rw [hold k hk] at hstate ⊢
      exact hinv.blank k hk hstate
    · rw [hlast]
      exact ⟨rfl, rfl, rfl, rfl⟩
  case outcome =>
    intro k hk
    rw [hfiles]
    rcases hcases hk with hk | rfl
    · rw [hold k hk]
      exact hinv.settled_suffix hk hsuffix
    · rw [hlast]
      exact settled_of_live JobState.queued_not_terminal
  case upload =>
    intro k hk
    rw [hfiles, hhistory]
    rcases hcases hk with hk | rfl
    · rw [hold k hk, origin, if_neg (by omega)]
      exact hinv.upload k hk
    · rw [hlast, origin, if_pos rfl]
      exact hupload
  case stored =>
    intro k hk hmk
    rcases hcases hk with hk | rfl
    · rw [hold k hk]
      exact hinv.stored k hk (by rw [hmaking]; exact nofun)
    · exact absurd hmaking' hmk

theorem push (hinv : Inv cfg codec s) (hmaking : making s.history = some j)
    (hok : StoredOk cfg (s.world.job j))
    (hworld : s'.world = { s.world with queue := s.world.queue ++ [j] })
    (hhistory : s'.history = .pushed j :: s.history) : Inv cfg codec s' := by
  obtain ⟨hlast, hstate, hfresh⟩ := hinv.made j hmaking
  have hjobs : s'.world.jobs = s.world.jobs := by rw [hworld]
  have hjob := World.job_congr hjobs
  have hfiles : s'.world.files = s.world.files := by rw [hworld]
  have hsuffix : s.history <:+ s'.history := hhistory ▸ List.suffix_cons _ _
  have hqueue : s'.world.queue = s.world.queue ++ [j] := by rw [hworld]
  have hnext : s'.world.next_id = s.world.next_id := by rw [hworld]
  have hnotin : j ∉ s.world.queue := fun hmem => (hinv.queued j hmem).2.2.2 hmaking
  have hholding : ∀ t, holding t s'.history = holding t s.history := fun _ => by rw [hhistory]; rfl
  have hpops : ∀ k, pops k s'.history = pops k s.history := fun _ => by rw [hhistory]; rfl
  have hevents : ∀ id, eventsOf id s'.history = eventsOf id s.history :=
    fun _ => by rw [hhistory]; rfl
  have horigin : ∀ k, origin k s'.history = origin k s.history := fun _ => by rw [hhistory]; rfl
  have hmaking' : making s'.history = none := by rw [hhistory]; rfl
  have hstored : ∀ k < s.world.jobs.length, StoredOk cfg (s.world.job k) := by
    intro k hk
    by_cases hkj : k = j
    · rw [hkj]
      exact hok
    · exact hinv.stored k hk fun hmk => hkj (Option.some.inj (hmk.symm.trans hmaking))
  constructor
  case id => simpa only [hjobs, hjob] using hinv.id
  case next_id => simpa only [hjobs, hnext] using hinv.next_id
  case bound => simpa only [hjobs] using hinv.bound
  case nodup =>
    rw [hqueue]
    exact List.Nodup.append hinv.nodup (List.nodup_singleton j) (List.disjoint_singleton.mpr hnotin)
  case queued =>
    intro k hk
    rw [hqueue, List.mem_append, List.mem_singleton] at hk
    rw [hjobs, hjob, hpops, hmaking']
    rcases hk with hk | rfl
    · obtain ⟨hlt, hst, hnone, -⟩ := hinv.queued k hk
      exact ⟨hlt, hst, hnone, nofun⟩
    · exact ⟨by omega, hstate, hfresh, nofun⟩
  case held => simpa only [hholding, hpops] using hinv.held
  case made =>
    intro k hk
    rw [hmaking'] at hk
    cases hk
  case popped => simpa only [hjobs, hpops, hholding, hevents] using hinv.popped
  case place =>
    intro k hk
    rw [hjobs] at hk
    rw [hjob, hqueue, hmaking', List.mem_append, List.mem_singleton]
    simp only [hholding]
    rcases hinv.place k hk with hterminal | hmem | hheld | hmk
    · exact .inl hterminal
    · exact .inr (.inl (.inl hmem))
    · exact .inr (.inr (.inl hheld))
    · exact .inr (.inl (.inr (Option.some.inj (hmk.symm.trans hmaking))))
  case events => simpa only [hjob, hpops, hevents] using hinv.events
  case blank => simpa only [hjobs, hjob] using hinv.blank
  case outcome =>
    intro k hk
    rw [hjobs] at hk
    rw [hjob, hfiles]
    exact hinv.settled_suffix hk hsuffix
  case upload => simpa only [hjobs, hjob, hfiles, horigin] using hinv.upload
  case stored =>
    intro k hk _
    rw [hjobs] at hk
    rw [hjob]
    exact hstored k hk

theorem pop (hinv : Inv cfg codec s) (ht : t ≠ .main) (hidle : holding t s.history = none)
    {queue : List Nat} (hqueue : s.world.queue = j :: queue)
    (hworld : s'.world = { s.world with queue := queue })
    (hhistory : s'.history = .popped t j :: s.history) : Inv cfg codec s' := by
  obtain ⟨hlt, hstate, hfresh, hnotmade⟩ := hinv.queued j (hqueue ▸ List.mem_cons_self ..)
  have hnodup := hinv.nodup
  rw [hqueue, List.nodup_cons] at hnodup
  have hjobs : s'.world.jobs = s.world.jobs := by rw [hworld]
  have hjob := World.job_congr hjobs
  have hfiles : s'.world.files = s.world.files := by rw [hworld]
  have hqueue' : s'.world.queue = queue := by rw [hworld]
  have hnext : s'.world.next_id = s.world.next_id := by rw [hworld]
  have hsuffix : s.history <:+ s'.history := hhistory ▸ List.suffix_cons _ _
  have hself : holding t s'.history = some j := by rw [hhistory]; simp [holding]
  have hholding : ∀ u, u ≠ t → holding u s'.history = holding u s.history := by
    intro u hu
    rw [hhistory]
    simp [holding, hu.symm]
  have hpopped : pops j s'.history = [t] := by
    rw [hhistory, pops, if_pos rfl, hfresh]
  have hpops : ∀ k, k ≠ j → pops k s'.history = pops k s.history := by
    intro k hk
    rw [hhistory, pops, if_neg hk.symm]
  have hevents : ∀ id, eventsOf id s'.history = eventsOf id s.history :=
    fun _ => by rw [hhistory]; rfl
  have horigin : ∀ k, origin k s'.history = origin k s.history := fun _ => by rw [hhistory]; rfl
  have hmaking : making s'.history = making s.history := by rw [hhistory]; rfl
  have hkeep : ∀ {u k}, holding u s.history = some k → holding u s'.history = some k := by
    intro u k hu
    rw [hholding u, hu]
    rintro rfl
    rw [hidle] at hu
    cases hu
  have hne : ∀ {u k}, holding u s.history = some k → k ≠ j := by
    rintro u k hu rfl
    rw [(hinv.held u k hu).2] at hfresh
    cases hfresh
  constructor
  case id => simpa only [hjobs, hjob] using hinv.id
  case next_id => simpa only [hjobs, hnext] using hinv.next_id
  case bound => simpa only [hjobs] using hinv.bound
  case nodup => rw [hqueue']; exact hnodup.2
  case queued =>
    intro k hk
    rw [hqueue'] at hk
    have hkj : k ≠ j := fun hkj => hnodup.1 (hkj ▸ hk)
    rw [hjobs, hjob, hpops k hkj, hmaking]
    exact hinv.queued k (hqueue ▸ List.mem_cons_of_mem _ hk)
  case held =>
    intro u k hk
    by_cases hu : u = t
    · subst hu
      rw [hself, Option.some.injEq] at hk
      rw [← hk, hpopped]
      exact ⟨ht, rfl⟩
    · rw [hholding u hu] at hk
      rw [hpops k (hne hk)]
      exact hinv.held u k hk
  case made =>
    intro k hk
    rw [hmaking] at hk
    rw [hjobs, hjob, hpops k (fun hkj => hnotmade (hkj ▸ hk))]
    exact hinv.made k hk
  case popped =>
    intro k
    rw [hjobs, hevents]
    by_cases hkj : k = j
    · rw [hkj, hpopped]
      exact .inr ⟨hlt, t, rfl, .inl hself⟩
    · rw [hpops k hkj]
      rcases hinv.popped k with hnone | ⟨hk, u, hu, hreported⟩
      · exact .inl hnone
      · exact .inr ⟨hk, u, hu, hreported.imp_left hkeep⟩
  case place =>
    intro k hk
    rw [hjobs] at hk
    rw [hjob, hqueue', hmaking]
    rcases hinv.place k hk with hterminal | hmem | ⟨u, hheld⟩ | hmk
    · exact .inl hterminal
    · rw [hqueue, List.mem_cons] at hmem
      rcases hmem with rfl | hmem
      · exact .inr (.inr (.inl ⟨t, hself⟩))
      · exact .inr (.inl hmem)
    · exact .inr (.inr (.inl ⟨u, hkeep hheld⟩))
    · exact .inr (.inr (.inr hmk))
  case events =>
    intro k
    rw [hjob, hevents]
    by_cases hkj : k = j
    · rcases hinv.events k with hnone | ⟨hpopped', -⟩
      · exact .inl hnone
      · exact absurd (hkj ▸ hfresh) hpopped'
    · rw [hpops k hkj]
      exact hinv.events k
  case blank => simpa only [hjobs, hjob] using hinv.blank
  case outcome =>
    intro k hk
    rw [hjobs] at hk
    rw [hjob, hfiles]
    exact hinv.settled_suffix hk hsuffix
  case upload => simpa only [hjobs, hjob, hfiles, horigin] using hinv.upload
  case stored => simpa only [hjobs, hjob, hmaking] using hinv.stored

theorem report (hinv : Inv cfg codec s) {st : JobState} (hheld : holding t s.history = some j)
    (hstate : (s.world.job j).state = st) (hterminal : st.Terminal)
    (hnone : eventsOf (j + 1) s.history = []) (hworld : s'.world = s.world)
    (hhistory : s'.history = .event t (j + 1) st :: s.history) :
    Inv cfg codec s' := by
  have hsuffix : s.history <:+ s'.history := hhistory ▸ List.suffix_cons _ _
  have hholding : ∀ t, holding t s'.history = holding t s.history := fun _ => by rw [hhistory]; rfl
  have hpops : ∀ k, pops k s'.history = pops k s.history := fun _ => by rw [hhistory]; rfl
  have horigin : ∀ k, origin k s'.history = origin k s.history := fun _ => by rw [hhistory]; rfl
  have hmaking : making s'.history = making s.history := by rw [hhistory]; rfl
  have hself : eventsOf (j + 1) s'.history = [st] := by
    rw [hhistory, eventsOf, if_pos rfl, hnone]
  have hevents : ∀ k, k ≠ j → eventsOf (k + 1) s'.history = eventsOf (k + 1) s.history := by
    intro k hk
    rw [hhistory, eventsOf, if_neg (by omega)]
  constructor
  case id => simpa only [hworld] using hinv.id
  case next_id => simpa only [hworld] using hinv.next_id
  case bound => simpa only [hworld] using hinv.bound
  case nodup => simpa only [hworld] using hinv.nodup
  case queued => simpa only [hworld, hpops, hmaking] using hinv.queued
  case held => simpa only [hholding, hpops] using hinv.held
  case made => simpa only [hworld, hpops, hmaking] using hinv.made
  case popped =>
    intro k
    rw [hworld, hpops]
    rcases hinv.popped k with hnot | ⟨hk, u, hu, hreported⟩
    · exact .inl hnot
    · refine .inr ⟨hk, u, hu, ?_⟩
      rw [hholding]
      refine hreported.imp_right fun hsome => ?_
      by_cases hkj : k = j
      · rw [hkj, hself]
        exact List.cons_ne_nil _ _
      · rw [hevents k hkj]
        exact hsome
  case place => simpa only [hworld, hholding, hmaking] using hinv.place
  case events =>
    intro k
    rw [hworld, hpops]
    by_cases hkj : k = j
    · subst hkj
      rw [hself, hstate, (hinv.held t k hheld).2]
      exact .inr ⟨List.cons_ne_nil _ _, hterminal, rfl⟩
    · rw [hevents k hkj]
      exact hinv.events k
  case blank => simpa only [hworld] using hinv.blank
  case outcome =>
    intro k hk
    rw [hworld] at hk ⊢
    exact hinv.settled_suffix hk hsuffix
  case upload => simpa only [hworld, horigin] using hinv.upload
  case stored => simpa only [hworld, hmaking] using hinv.stored

theorem turn (hinv : Inv cfg codec s)
    (hfinish : ∀ j, holding t s.history = some j → (s.world.job j).state.Terminal ∧
      eventsOf (j + 1) s.history ≠ [])
    (hworld : s'.world = s.world) (hhistory : s'.history = .turn t :: s.history) :
    Inv cfg codec s' := by
  have hsuffix : s.history <:+ s'.history := hhistory ▸ List.suffix_cons _ _
  have hself : holding t s'.history = none := by rw [hhistory]; simp [holding]
  have hholding : ∀ u, u ≠ t → holding u s'.history = holding u s.history := by
    intro u hu
    rw [hhistory]
    simp [holding, hu.symm]
  have hpops : ∀ k, pops k s'.history = pops k s.history := fun _ => by rw [hhistory]; rfl
  have hevents : ∀ id, eventsOf id s'.history = eventsOf id s.history :=
    fun _ => by rw [hhistory]; rfl
  have horigin : ∀ k, origin k s'.history = origin k s.history := fun _ => by rw [hhistory]; rfl
  have hmaking : making s'.history = making s.history := by rw [hhistory]; rfl
  constructor
  case id => simpa only [hworld] using hinv.id
  case next_id => simpa only [hworld] using hinv.next_id
  case bound => simpa only [hworld] using hinv.bound
  case nodup => simpa only [hworld] using hinv.nodup
  case queued => simpa only [hworld, hpops, hmaking] using hinv.queued
  case held =>
    intro u k hk
    by_cases hu : u = t
    · rw [hu, hself] at hk
      cases hk
    · rw [hholding u hu] at hk
      rw [hpops]
      exact hinv.held u k hk
  case made => simpa only [hworld, hpops, hmaking] using hinv.made
  case popped =>
    intro k
    rw [hworld, hpops, hevents]
    rcases hinv.popped k with hnot | ⟨hk, u, hu, hreported⟩
    · exact .inl hnot
    · refine .inr ⟨hk, u, hu, ?_⟩
      rcases hreported with hheld | hsome
      · by_cases hut : u = t
        · exact .inr (hfinish k (hut ▸ hheld)).2
        · exact .inl ((hholding u hut).trans hheld)
      · exact .inr hsome
  case place =>
    intro k hk
    rw [hworld] at hk ⊢
    rw [hmaking]
    rcases hinv.place k hk with hterminal | hmem | ⟨u, hheld⟩ | hmk
    · exact .inl hterminal
    · exact .inr (.inl hmem)
    · by_cases hut : u = t
      · exact .inl (hfinish k (hut ▸ hheld)).1
      · exact .inr (.inr (.inl ⟨u, (hholding u hut).trans hheld⟩))
    · exact .inr (.inr (.inr hmk))
  case events => simpa only [hworld, hpops, hevents] using hinv.events
  case blank => simpa only [hworld] using hinv.blank
  case outcome =>
    intro k hk
    rw [hworld] at hk ⊢
    exact hinv.settled_suffix hk hsuffix
  case upload => simpa only [hworld, horigin] using hinv.upload
  case stored => simpa only [hworld, hmaking] using hinv.stored

end Inv

section

variable {cfg : RuntimeConfig} {codec : PngCodec} {s s' : Sys} {t u : Tid} {o : Op}
  {marks : List Mark}

theorem Allowed.write (hallowed : Allowed cfg codec t o s) {path : Bytes}
    (ho : o.writes = some path) :
    WriteOk cfg t s path := by
  cases o <;> simp only [Op.writes, Option.some.injEq, reduceCtorEq] at ho <;> exact ho ▸ hallowed

theorem Allowed.input (hallowed : Allowed cfg codec t o s) (ho : o.inputs = true) : t = .main := by
  cases o <;> simp only [Op.inputs, Bool.false_eq_true] at ho <;> exact hallowed

theorem uploadPath_id {id id' : Nat} {suffix suffix' : Bytes}
    (h : uploadPath cfg id suffix = uploadPath cfg id' suffix') : id = id' :=
  (jobFilePath_injective h).1

theorem resultPath_id {id id' : Nat} {suffix suffix' : Bytes}
    (h : resultPath cfg id suffix = resultPath cfg id' suffix') : id = id' :=
  (jobFilePath_injective h).1

theorem WriteOk.result_ne {path : Bytes} (hwrite : WriteOk cfg t s path) {j : Nat} (suffix : Bytes)
    (hj : (s.world.job j).state.Terminal ∨ holding t s.history ≠ some j) :
    resultPath cfg (j + 1) suffix ≠ path := by
  rintro rfl
  rcases hwrite with ⟨-, -, suffix', hpath⟩ | ⟨k, suffix', hheld, hlive, hpath⟩
  · exact uploadPath_ne_resultPath cfg _ _ _ _ hpath.symm
  · have hk : j = k := Nat.succ.inj (resultPath_id hpath)
    subst hk
    rcases hj with hterminal | hnot
    · exact hlive hterminal
    · exact hnot hheld

theorem WriteOk.upload_ne {path : Bytes} (hwrite : WriteOk cfg t s path) {id : Nat} (suffix : Bytes)
    (hid : id ≤ s.world.jobs.length) : uploadPath cfg id suffix ≠ path := by
  rintro rfl
  rcases hwrite with ⟨-, -, suffix', hpath⟩ | ⟨k, suffix', hheld, hlive, hpath⟩
  · have hsame := uploadPath_id hpath
    omega
  · exact uploadPath_ne_resultPath cfg _ _ _ _ hpath

theorem quiet_books (hmarks : ∀ m ∈ marks, m.Quiet t) (h : List Mark) : SameBooks h (marks ++ h) :=
  .append (fun m hm h => .quiet (hmarks m hm) h) h

theorem input_books (hmarks : ∀ m ∈ marks, m.Input) (h : List Mark) : SameBooks h (marks ++ h) :=
  .append (fun m hm h => .input (hmarks m hm) h) h

theorem Inv.set_main (hinv : Inv cfg codec s) {j now : Nat} {update : JobUpdate}
    (hmaking : making s.history = some j) (hsets : MainSets cfg s j update)
    (hworld : s'.world = s.world.updateJob j (update.apply now))
    (hhistory : s'.history = update.marks .main j ++ s.history) : Inv cfg codec s' := by
  obtain ⟨hlast, hstate, -⟩ := hinv.made j hmaking
  have hj : j < s.world.jobs.length := by omega
  have hlive : ¬ (s.world.job j).state.Terminal := by rw [hstate]; decide
  have hblank := hinv.blank j hj hstate
  cases update with
  | storedPath path =>
    have hsame : s'.history = s.history := hhistory
    refine hinv.update (f := fun r => JobUpdate.apply now r (.storedPath path)) hj hlive hworld
      (by simp [hsame]) (by simp [hsame]) (by simp [hsame]) (by simp [hsame]) (by rw [hsame])
      (.inl (by rw [hsame])) rfl rfl rfl rfl (.inl hstate) (fun _ => hblank)
      (settled_of_live (r := JobUpdate.apply now (s.world.job j) (.storedPath path)) hlive) ?_
    intro hmk
    rw [hsame] at hmk
    exact absurd hmaking hmk
  | result text =>
    have hsame : s'.history = s.history := hhistory
    refine hinv.update (f := fun r => JobUpdate.apply now r (.result text)) hj hlive hworld
      (by simp [hsame]) (by simp [hsame]) (by simp [hsame]) (by simp [hsame]) (by rw [hsame])
      (.inl (by rw [hsame])) rfl rfl rfl rfl (.inl hstate) (fun _ => hblank)
      (settled_of_live (r := JobUpdate.apply now (s.world.job j) (.result text)) hlive) ?_
    intro hmk
    rw [hsame] at hmk
    exact absurd hmaking hmk
  | state st =>
    obtain ⟨rfl, -, hstored, -⟩ := hsets
    have hmaking' : making s'.history = none := by rw [hhistory]; rfl
    have hnotin : j ∉ s.world.queue := fun hmem => (hinv.queued j hmem).2.2.2 hmaking
    refine hinv.update (f := fun r => JobUpdate.apply now r (.state .failed)) hj hlive hworld
      (fun _ => by rw [hhistory]; rfl) (fun _ => by rw [hhistory]; rfl)
        (fun _ => by rw [hhistory]; rfl)
      (fun _ => by rw [hhistory]; rfl) ⟨_, hhistory.symm⟩
      (.inr ⟨hmaking, hmaking', .inr (.inl rfl)⟩)
      rfl rfl rfl rfl (.inr ⟨hnotin, ?_⟩) (fun hq => absurd hq nofun) hblank fun _ => hstored
    rw [hmaking']
    exact nofun
  | outputPath path => exact hsets.elim
  | resultMeta kind size filename => exact hsets.elim

theorem Inv.set_worker (hinv : Inv cfg codec s) {j now : Nat} {update : JobUpdate}
    (hheld : holding t s.history = some j) (hlive : ¬ (s.world.job j).state.Terminal)
    (hsets : WorkerSets cfg codec t s j update)
    (hworld : s'.world = s.world.updateJob j (update.apply now))
    (hhistory : s'.history = update.marks t j ++ s.history) : Inv cfg codec s' := by
  have hj := hinv.held_lt hheld
  have hnotmade := hinv.held_not_making hheld
  have hstored := hinv.stored j hj hnotmade
  obtain ⟨ht, hpopped⟩ := hinv.held t j hheld
  have hnotin : j ∉ s.world.queue := by
    intro hmem
    rw [(hinv.queued j hmem).2.2.1] at hpopped
    cases hpopped
  have hblank := hinv.blank j hj
  cases update with
  | storedPath path => exact hsets.elim
  | result text =>
    have hsame : s'.history = s.history := hhistory
    refine hinv.update (f := fun r => JobUpdate.apply now r (.result text)) hj hlive hworld
      (by simp [hsame]) (by simp [hsame]) (by simp [hsame]) (by simp [hsame]) (by rw [hsame])
      (.inl (by rw [hsame])) rfl rfl rfl rfl (.inr ⟨hnotin, by rw [hsame]; exact hnotmade⟩) hblank
      (settled_of_live (r := JobUpdate.apply now (s.world.job j) (.result text)) hlive)
        fun _ => hstored
  | state st =>
    obtain ⟨i, rfl⟩ : ∃ i, t = .worker i := by
      cases t with
      | main => exact absurd rfl ht
      | worker i => exact ⟨i, rfl⟩
    have hmaking' : making s'.history = making s.history := by rw [hhistory]; rfl
    have hbecome : MayBecome cfg codec (.worker i) s (s.world.job j) st := hsets.1
    have hresult : st ≠ .queued ∧
      Settled cfg codec s.world.files s'.history (JobUpdate.apply now (s.world.job j)
      (.state st)) := by
      have hgrow : ∀ st, Settled cfg codec s.world.files s.history
        { s.world.job j with state := st } →
          Settled cfg codec s.world.files s'.history { s.world.job j with state := st } := by
        intro st hsettled
        exact Settled.congr (r := { s.world.job j with state := st }) hsettled
          (hinv.upload j hj) hstored
          ⟨_, hhistory.symm⟩ (fun _ => rfl) (fun _ => rfl)
      unfold MayBecome at hbecome
      split at hbecome
      · exact ⟨nofun, trivial⟩
      · exact ⟨nofun, hgrow .canceled hbecome.2⟩
      · exact ⟨nofun, hgrow .canceled hbecome.2⟩
      · exact ⟨nofun, hgrow .done hbecome.1⟩
      · exact ⟨nofun, hgrow .failed hbecome.1⟩
      · exact hbecome.elim
    refine hinv.update (f := fun r => JobUpdate.apply now r (.state st)) hj hlive hworld
      (fun _ => by rw [hhistory]; rfl) (fun _ => by rw [hhistory]; rfl)
        (fun _ => by rw [hhistory]; rfl)
      (fun _ => by rw [hhistory]; rfl) ⟨_, hhistory.symm⟩ (.inl hmaking') rfl rfl rfl rfl
      (.inr ⟨hnotin, by rw [hmaking']; exact hnotmade⟩) (fun hq => absurd hq hresult.1) hresult.2
        fun _ => hstored
  | outputPath path =>
    have hsame : s'.history = s.history := hhistory
    have hrunning : (s.world.job j).state = .running := hsets.1
    refine hinv.update (f := fun r => JobUpdate.apply now r (.outputPath path)) hj hlive hworld
      (by simp [hsame]) (by simp [hsame]) (by simp [hsame]) (by simp [hsame]) (by rw [hsame])
      (.inl (by rw [hsame])) rfl rfl rfl rfl (.inr ⟨hnotin, by rw [hsame]; exact hnotmade⟩)
      (fun hq => ?_)
      (settled_of_live (r := JobUpdate.apply now (s.world.job j) (.outputPath path)) hlive)
        fun _ => hstored
    exact absurd (hrunning.symm.trans hq) nofun
  | resultMeta kind size filename =>
    have hsame : s'.history = s.history := hhistory
    have hrunning : (s.world.job j).state = .running := hsets
    refine hinv.update (f := fun r => JobUpdate.apply now r (.resultMeta kind size filename))
      hj hlive hworld
      (by simp [hsame]) (by simp [hsame]) (by simp [hsame]) (by simp [hsame]) (by rw [hsame])
      (.inl (by rw [hsame])) rfl rfl rfl rfl (.inr ⟨hnotin, by rw [hsame]; exact hnotmade⟩)
      (fun hq => ?_)
      (settled_of_live (r := JobUpdate.apply now (s.world.job j)
        (.resultMeta kind size filename)) hlive)
      fun _ => hstored
    exact absurd (hrunning.symm.trans hq) nofun

/-- Every allowed step keeps the invariant. -/
theorem Inv.step (hinv : Inv cfg codec s) (hallowed : Allowed cfg codec t o s)
    (heffect : Effect t s.world o s'.world marks) (hhistory : s'.history = marks ++ s.history) :
    Inv cfg codec s' := by
  obtain ⟨w', h'⟩ := s'
  dsimp only at heffect hhistory
  have hsuffix : s.history <:+ h' := ⟨marks, hhistory.symm⟩
  cases heffect with
  | quiet hcore hfiles hmarks =>
    refine hinv.sameBooks hcore (hhistory ▸ quiet_books hmarks _) hsuffix ?_ ?_
    · exact fun _ _ _ _ => congrFun hfiles _
    · exact fun _ _ _ => congrFun hfiles _
  | input ho hcore hfiles hmarks =>
    refine hinv.sameBooks hcore (hhistory ▸ input_books hmarks _) hsuffix ?_ ?_
    · exact fun _ _ _ _ => congrFun hfiles _
    · exact fun _ _ _ => congrFun hfiles _
  | file ho hcore hfiles hmarks =>
    have hwrite := hallowed.write ho
    refine hinv.sameBooks hcore (hhistory ▸ quiet_books hmarks _) hsuffix ?_ ?_
    · exact fun j _ hterminal suffix => hfiles _ (hwrite.result_ne suffix (.inl hterminal))
    · exact fun j hj suffix => hfiles _ (hwrite.upload_ne suffix hj)
  | created now hroom =>
    obtain ⟨-, hmaking, hupload⟩ := hallowed
    exact hinv.create hroom hmaking (hupload now) rfl hhistory
  | @set j update now =>
    rcases hallowed with ⟨rfl, hmaking, hsets⟩ | ⟨hheld, hlive, hsets⟩
    · exact hinv.set_main hmaking hsets rfl hhistory
    · exact hinv.set_worker hheld hlive hsets rfl hhistory
  | @canceled j hlive =>
    have hj := hallowed.2.1
    have hlive' : ¬ (s.world.job j).state.Terminal := by
      rcases hlive with hstate | hstate <;> rw [hstate] <;> decide
    have hbooks : SameBooks s.history h' := by
      rw [hhistory]
      exact ⟨fun _ => rfl, rfl, fun _ => rfl, fun _ => rfl, fun _ => rfl⟩
    refine hinv.update (f := fun r => { r with cancel_requested := true }) hj hlive' rfl
      hbooks.holding hbooks.pops
      hbooks.events hbooks.origin hsuffix (.inl hbooks.making) rfl rfl rfl rfl ?_ (hinv.blank j hj)
      (settled_of_live (r := { s.world.job j with cancel_requested := true }) hlive')
      fun hmk => hinv.stored j hj (hbooks.making ▸ hmk)
    rcases hlive with hstate | hstate
    · exact .inl hstate
    · refine .inr ⟨fun hmem => ?_, fun hmk => ?_⟩
      · exact absurd ((hinv.queued j hmem).2.1.symm.trans hstate) nofun
      · exact absurd ((hinv.made j (hbooks.making ▸ hmk)).2.1.symm.trans hstate) nofun
  | pushed =>
    obtain ⟨-, hmaking, hok⟩ := hallowed
    exact hinv.push hmaking hok rfl hhistory
  | pushFailed =>
    have hbooks : SameBooks s.history h' := by
      rw [hhistory]
      exact ⟨fun _ => rfl, rfl, fun _ => rfl, fun _ => rfl, fun _ => rfl⟩
    exact hinv.sameBooks (.refl _) hbooks hsuffix (fun _ _ _ _ => rfl) (fun _ _ _ => rfl)
  | popped hqueue =>
    obtain ⟨ht, hidle⟩ := hallowed
    exact hinv.pop ht hidle hqueue rfl hhistory
  | event =>
    obtain ⟨j, rfl, hheld, hstate, hterminal, hnone⟩ := hallowed
    exact hinv.report hheld hstate hterminal hnone rfl hhistory

theorem mainRely_step (hinv : Inv cfg codec s) (hallowed : Allowed cfg codec u o s) (hu : u ≠ .main)
    (heffect : Effect u s.world o s'.world marks) (hhistory : s'.history = marks ++ s.history) :
    MainRely cfg s s' := by
  obtain ⟨w', h'⟩ := s'
  dsimp only at heffect hhistory
  have hpast : s.history <:+ h' := ⟨marks, hhistory.symm⟩
  subst hhistory
  cases heffect with
  | quiet hcore hfiles hmarks =>
    refine ⟨(quiet_books hmarks _).making, ?_, hpast, congrArg List.length hcore.jobs,
      fun _ _ => World.job_congr hcore.jobs _, fun _ _ => congrFun hfiles _⟩
    exact ignores_append (fun m hm h => by cases hmarks m hm <;> rfl) _
  | input ho => exact absurd (hallowed.input ho) hu
  | file ho hcore hfiles hmarks =>
    refine ⟨(quiet_books hmarks _).making, ?_, hpast, congrArg List.length hcore.jobs,
      fun _ _ => World.job_congr hcore.jobs _, fun id suffix => hfiles _ ?_⟩
    · exact ignores_append (fun m hm h => by cases hmarks m hm <;> rfl) _
    · rintro rfl
      rcases hallowed.write ho with ⟨hmain, -⟩ | ⟨k, suffix', -, -, hpath⟩
      · exact hu hmain
      · exact uploadPath_ne_resultPath cfg _ _ _ _ hpath
  | created => exact absurd hallowed.1 hu
  | @set j update now =>
    rcases hallowed with ⟨hmain, -⟩ | ⟨hheld, -, -⟩
    · exact absurd hmain hu
    · have hmaking : making (update.marks u j ++ s.history) = making s.history := by
        cases update with
        | state st =>
          cases u with
          | main => exact absurd rfl hu
          | worker i => rfl
        | _ => rfl
      refine ⟨hmaking, by cases update <;> rfl, hpast, World.updateJob_length _ _ _, ?_,
        fun _ _ => rfl⟩
      rintro k hk
      refine World.updateJob_job_ne _ ?_
      rintro rfl
      exact hinv.held_not_making hheld hk
  | canceled => exact absurd hallowed.1 hu
  | pushed => exact absurd hallowed.1 hu
  | pushFailed => exact absurd hallowed.1 hu
  | popped => exact ⟨rfl, rfl, hpast, rfl, fun _ _ => rfl, fun _ _ => rfl⟩
  | event => exact ⟨rfl, rfl, hpast, rfl, fun _ _ => rfl, fun _ _ => rfl⟩

theorem Follows.refl (r : Job) : Follows r r := ⟨rfl, id⟩

theorem Follows.of_eq {r r' : Job} (h : r' = r) : Follows r r' := h ▸ .refl r

theorem Follows.trans {r r' r'' : Job} (h : Follows r r') (h' : Follows r' r'') :
    Follows r r'' := by
  obtain ⟨hsame, hflag⟩ := h
  obtain ⟨hsame', hflag'⟩ := h'
  exact ⟨by rw [hsame', hsame], fun hr => hflag' (hflag hr)⟩

/-- No other thread disturbs a worker and the job it holds, cancel requests apart. -/
theorem workerRely_step (hinv : Inv cfg codec s) (hallowed : Allowed cfg codec u o s) (htu : t ≠ u)
    (heffect : Effect u s.world o s'.world marks) (hhistory : s'.history = marks ++ s.history) :
    WorkerRely cfg t s s' := by
  obtain ⟨w', h'⟩ := s'
  dsimp only at heffect hhistory
  have hpast : s.history <:+ h' := ⟨marks, hhistory.symm⟩
  subst hhistory
  cases heffect with
  | quiet hcore hfiles hmarks =>
    have hbooks := quiet_books hmarks s.history
    exact
      { holding := hbooks.holding t
        clear := ignores_append (fun m hm h => (hmarks m hm).sawClear htu) _
        unreadable := ignores_append (fun m hm h => (hmarks m hm).sawUnreadable htu) _
        past := hpast
        record := fun j _ => .of_eq (World.job_congr hcore.jobs j)
        events := fun j _ => hbooks.events _
        out := fun j _ _ => congrFun hfiles _
        inp := fun j _ _ => congrFun hfiles _ }
  | input ho hcore hfiles hmarks =>
    have hbooks := input_books hmarks s.history
    exact
      { holding := hbooks.holding t
        clear := ignores_append (fun m hm h => by cases hmarks m hm <;> rfl) _
        unreadable := ignores_append (fun m hm h => by cases hmarks m hm <;> rfl) _
        past := hpast
        record := fun j _ => .of_eq (World.job_congr hcore.jobs j)
        events := fun j _ => hbooks.events _
        out := fun j _ _ => congrFun hfiles _
        inp := fun j _ _ => congrFun hfiles _ }
  | file ho hcore hfiles hmarks =>
    have hbooks := quiet_books hmarks s.history
    have hwrite := hallowed.write ho
    exact
      { holding := hbooks.holding t
        clear := ignores_append (fun m hm h => (hmarks m hm).sawClear htu) _
        unreadable := ignores_append (fun m hm h => (hmarks m hm).sawUnreadable htu) _
        past := hpast
        record := fun j _ => .of_eq (World.job_congr hcore.jobs j)
        events := fun j _ => hbooks.events _
        out := fun j suffix hj =>
          hfiles _ (hwrite.result_ne suffix (.inr fun hu => htu (hinv.held_unique hj hu)))
        inp := fun j suffix hj => hfiles _ (hwrite.upload_ne suffix (hinv.held_lt hj)) }
  | created =>
    refine ⟨rfl, rfl, rfl, hpast, fun j hj => ?_, fun _ _ => rfl, fun _ _ _ => rfl,
      fun _ _ _ => rfl⟩
    exact .of_eq (World.job_append rfl (hinv.held_lt hj))
  | @set j update now =>
    have hne : ∀ k, holding t s.history = some k → k ≠ j := by
      rintro k hk rfl
      rcases hallowed with ⟨-, hmaking, -⟩ | ⟨hheld, -, -⟩
      · exact hinv.held_not_making hk hmaking
      · exact htu (hinv.held_unique hk hheld)
    exact
      { holding := by cases update <;> rfl
        clear := by cases update <;> simp [JobUpdate.marks, sawClear, htu.symm]
        unreadable := by cases update <;> simp [JobUpdate.marks, sawUnreadable, htu.symm]
        past := hpast
        record := fun k hk => .of_eq (World.updateJob_job_ne _ (hne k hk))
        events := fun k _ => by cases update <;> rfl
        out := fun _ _ _ => rfl
        inp := fun _ _ _ => rfl }
  | @canceled j hlive =>
    refine ⟨rfl, rfl, rfl, hpast, fun k hk => ?_, fun _ _ => rfl, fun _ _ _ => rfl,
      fun _ _ _ => rfl⟩
    by_cases hkj : k = j
    · subst hkj
      rw [World.updateJob_job _ (hinv.held_lt hk)]
      exact ⟨rfl, fun _ => rfl⟩
    · exact .of_eq (World.updateJob_job_ne _ hkj)
  | pushed =>
    exact ⟨rfl, rfl, rfl, hpast, fun _ _ => .refl _, fun _ _ => rfl, fun _ _ _ => rfl,
      fun _ _ _ => rfl⟩
  | pushFailed =>
    exact ⟨rfl, rfl, rfl, hpast, fun _ _ => .refl _, fun _ _ => rfl, fun _ _ _ => rfl,
      fun _ _ _ => rfl⟩
  | popped =>
    exact
      { holding := by simp [holding, htu.symm]
        clear := by simp [sawClear, htu.symm]
        unreadable := by simp [sawUnreadable, htu.symm]
        past := hpast
        record := fun _ _ => .refl _
        events := fun _ _ => rfl
        out := fun _ _ _ => rfl
        inp := fun _ _ _ => rfl }
  | @event id st =>
    obtain ⟨k, rfl, hheld, -⟩ := hallowed
    refine ⟨rfl, rfl, rfl, hpast, fun _ _ => .refl _, fun j hj => ?_, fun _ _ _ => rfl,
      fun _ _ _ => rfl⟩
    have hne : k + 1 ≠ j + 1 := by
      intro hsame
      obtain rfl : k = j := Nat.succ.inj hsame
      exact htu (hinv.held_unique hj hheld)
    exact if_neg hne

theorem WorkerRely.trans {s'' : Sys} (h : WorkerRely cfg t s s') (h' : WorkerRely cfg t s' s'') :
    WorkerRely cfg t s s'' where
  holding := h'.holding.trans h.holding
  clear := h'.clear.trans h.clear
  unreadable := h'.unreadable.trans h.unreadable
  past := h.past.trans h'.past
  record j hj := (h.record j hj).trans (h'.record j (h.holding.trans hj))
  events j hj := (h'.events j (h.holding.trans hj)).trans (h.events j hj)
  out j suffix hj := (h'.out j suffix (h.holding.trans hj)).trans (h.out j suffix hj)
  inp j suffix hj := (h'.inp j suffix (h.holding.trans hj)).trans (h.inp j suffix hj)

theorem MainRely.trans {s'' : Sys} (h : MainRely cfg s s') (h' : MainRely cfg s' s'') :
    MainRely cfg s s'' where
  making := h'.making.trans h.making
  request := h'.request.trans h.request
  past := h.past.trans h'.past
  length := h'.length.trans h.length
  record j hj := (h'.record j (h.making.trans hj)).trans (h.record j hj)
  inp id suffix := (h'.inp id suffix).trans (h.inp id suffix)

theorem turn_rely (htu : t ≠ u) :
    WorkerRely cfg t s { s with history := .turn u :: s.history } where
  holding := by simp [holding, htu.symm]
  clear := by simp [sawClear, htu.symm]
  unreadable := by simp [sawUnreadable, htu.symm]
  past := List.suffix_cons _ _
  record _ _ := .refl _
  events _ _ := rfl
  out _ _ _ := rfl
  inp _ _ _ := rfl

theorem conduct_sound (cfg : RuntimeConfig) (codec : PngCodec) : (conduct cfg codec).Sound where
  inv_step := by
    rintro t s o a s' hinv hallowed ⟨e, marks, -, hexec, hhistory⟩
    exact hinv.step hallowed (exec_effect hexec) hhistory
  rely_step := by
    rintro t u s o a s' hinv hallowed ⟨e, marks, -, hexec, hhistory⟩ htu
    cases t with
    | main => exact mainRely_step hinv hallowed htu.symm (exec_effect hexec) hhistory
    | worker i => exact workerRely_step hinv hallowed htu (exec_effect hexec) hhistory
  rely_refl := by
    intro t s
    cases t with
    | main => exact ⟨rfl, rfl, List.suffix_rfl, rfl, fun _ _ => rfl, fun _ _ => rfl⟩
    | worker i =>
      exact ⟨rfl, rfl, rfl, List.suffix_rfl, fun _ _ => .refl _, fun _ _ => rfl, fun _ _ _ => rfl,
        fun _ _ _ => rfl⟩
  rely_trans := by
    intro t s s' s'' h h'
    cases t with
    | main => exact MainRely.trans h h'
    | worker i => exact WorkerRely.trans h h'
  finish_rely := by
    intro t b s s' hfinish hrely hinv
    cases t with
    | main => exact hrely.making.trans hfinish
    | worker i =>
      intro j hj
      rw [hrely.holding] at hj
      obtain ⟨hterminal, hsome⟩ := hfinish j hj
      rw [hrely.events j hj, (hrely.record j hj).1]
      exact ⟨hterminal, hsome⟩
  inv_turn := by
    intro t b s hinv hfinish
    cases t with
    | main =>
      refine hinv.turn (t := .main) (fun j hj => ?_) rfl rfl
      exact absurd rfl (hinv.held .main j hj).1
    | worker i => exact hinv.turn (t := .worker i) hfinish rfl rfl
  rely_turn := by
    intro t u b s hinv hfinish htu
    cases t with
    | main => exact ⟨rfl, rfl, List.suffix_cons _ _, rfl, fun _ _ => rfl, fun _ _ => rfl⟩
    | worker i => exact turn_rely htu
  start_turn := by
    intro t l s hinv hfinish
    cases t with
    | main => exact hfinish
    | worker i => simp [conduct, machineIn, holding]

end

end StegaPng
