import StegaPng.Downloads

/-! From client to client: what one has hidden and fetched, another that sends it back and
fetches the answer receives. -/

namespace StegaPng

open Interleaving

section

variable {codec : PngCodec} {cfg : RuntimeConfig} {dt : DurationText} {fds : ServerFds} {s s' : Sys}
  {pre post : List Call} {fd : Int} {size j : Nat} {r : Job} {content : Bytes}

/-! What stays as it is once a job is done. -/

/-- Job `j` has the record `r`, and a result file the content. -/
structure Shelved (cfg : RuntimeConfig) (j : Nat) (r : Job) (suffix : Bytes) (file : Option Bytes)
    (s : Sys) : Prop where
  listed : j < s.world.jobs.length
  record : s.world.job j = r
  file : s.world.files (resultPath cfg (j + 1) suffix) = file

theorem shelved_stable (hterminal : r.state.Terminal) (suffix : Bytes) (file : Option Bytes) :
    (conduct cfg codec).Stable (Shelved cfg j r suffix file) where
  step := by
    intro t o s a s' hinv hallowed hstep hs
    obtain ⟨hlisted, hrecord⟩ :=
      (frozen_stable hterminal).step hinv hallowed hstep ⟨hs.listed, hs.record⟩
    obtain ⟨e, marks, -, hexec, -⟩ := hstep
    have hlast : (s.world.job j).state.Terminal := hs.record ▸ hterminal
    exact ⟨hlisted, hrecord, (Inv.results_step hallowed
      (exec_effect hexec) hlast suffix).trans hs.file⟩
  turn := fun _ _ hs => ⟨hs.listed, hs.record, hs.file⟩

/-- What allowed operations preserve, a run of the loop preserves. -/
theorem LoopRun.stable {P : Sys → Prop} (hP : (conduct cfg codec).Stable P) {ℓ ℓ' : LoopState}
    (h : LoopRun codec cfg dt fds ℓ ℓ') (hrest : AtRest cfg codec ℓ.sys) (hℓ : P ℓ.sys) :
    AtRest cfg codec ℓ'.sys ∧ P ℓ'.sys := by
  have hrests : ∀ {α : Type} (_ : α) (s s' : Sys), making s.history = none → MainRely cfg s s' →
    Inv cfg codec s' →
      making s'.history = none := fun _ _ _ hnone hrely _ => hrely.making.trans hnone
  induction h with
  | refl => exact ⟨hrest, hℓ⟩
  | tail _ hstep ih =>
    refine hstep.preserves
      (P := fun s => AtRest cfg codec s ∧ P s) (fun hp hs hrun => ?_) (fun s s' hs henv => ?_)
      (fun s hs => ?_) ih
    · refine ⟨hs.1.amid hp.keeps hrun, ?_⟩
      exact (hP.amid (conduct_sound cfg codec) hrests (hp.keeps _ hs.1.idle) hs.1.inv hs.2 hrun).2.2
    · exact ⟨hs.1.others henv, (hP.others (conduct_sound cfg codec) hs.1.inv hs.2 henv).2.2⟩
    · refine ⟨⟨?_, hs.1.idle, hs.1.kempt⟩, hP.turn (t := .main) (b := none) hs.1.inv hs.1.idle hs.2⟩
      exact (conduct_sound cfg codec).inv_turn (t := .main) (b := none) hs.1.inv hs.1.idle

/-! A download, call by call. -/

/-- The calls of a download up to its announcement, and those of the transfer. -/
theorem calls_fetch {job : Nat} {u : Unit} {s₁ : Sys} (hpre : sentTo fd pre = [])
    (h : AmidCalls codec cfg (handleDownload fd job) s (pre ++
      ⟨.writeAll fd (dataLine size), s₁, true⟩ :: post) u s') :
    ∃ s₂ s₃ s₄ path, path ≠ [] ∧
      pre = [⟨.getJob job .state, s₂, .done⟩, ⟨.getJob job .outputPath, s₃, path⟩,
        ⟨.stat path, s₄, some size⟩] ∧
      ∃ s₅ b s₆, AmidCalls codec cfg (storageSendFile fd path) s₅ post b s₆ := by
  obtain ⟨s₂, st, s₃, rest₁, heq₁, -, -, h₁⟩ := calls_call h
  obtain ⟨pre₁, rfl, hpre₁, rfl⟩ := announced_later rfl hpre heq₁
  split at h₁
  · exact (not_announced (by decide) h₁).elim
  · next hdone =>
    obtain rfl : st = .done := not_not.mp hdone
    obtain ⟨s₄, path, s₅, rest₂, heq₂, -, -, h₂⟩ := calls_call h₁
    obtain ⟨pre₂, rfl, hpre₂, rfl⟩ := announced_later rfl hpre₁ heq₂
    split at h₂
    · exact (not_announced (by decide) h₂).elim
    · next hpath =>
      obtain ⟨s₆, size', s₇, rest₃, heq₃, -, -, h₃⟩ := calls_call h₂
      obtain ⟨pre₃, rfl, hpre₃, rfl⟩ := announced_later rfl hpre₂ heq₃
      cases size' with
      | none => exact (not_announced (by decide) h₃).elim
      | some n =>
        obtain ⟨told, s₈, tr₁, tr₂, heq₄, hline, hsend⟩ := calls_bind h₃
        rcases calls_response hline with ⟨rfl, -, rfl⟩ | ⟨-, s₉, rfl⟩
        · obtain ⟨rfl, -, -⟩ := Traced.ret_iff.mp hsend
          simp at heq₄
        · obtain ⟨rfl, hcall, rfl⟩ :=
            first_sent hpre₃ (rfl : sentTo fd [] = []) (by simp [Op.sends])
            (by simp [Op.sends]) heq₄
          obtain ⟨hsize, rfl⟩ := announced_same hcall
          obtain rfl : size = n := dataLine_injective hsize
          obtain ⟨b, s₁₀, hfile, -⟩ := calls_map hsend
          exact ⟨s₂, s₄, s₆, path, hpath, rfl, s₈, b, s₁₀, hfile⟩

theorem step_stat {path : Bytes} {answer : Option Nat}
    (h : (machine codec).step .main (.stat path) s answer s') (hanswer : answer = some size) :
    ∃ found, s.world.files path = some found ∧ found.length = size := by
  obtain ⟨e, marks, -, hexec, -⟩ := h
  exact stat_content (hanswer ▸ hexec)

theorem step_freadAll {path found : Bytes} {answer : Bytes × Bool}
    (hfile : s.world.files path = some found)
    (h : (machine codec).step .main (.freadAll path) s answer s') : answer.1 <+: found := by
  obtain ⟨e, marks, -, hexec, -⟩ := h
  simp only [exec, Option.some.injEq, Prod.mk.injEq] at hexec
  obtain ⟨rfl, -⟩ := hexec
  simp only [hfile, Option.getD_some]
  split
  · exact List.prefix_rfl
  · exact List.take_prefix _ _

/-- A transfer of as many bytes as the file has is the file. -/
theorem transferred {path found : Bytes} {b : Bool}
    (h : AmidCalls codec cfg (storageSendFile fd path) s post b s')
    (hfiles : ∀ c ∈ post, c.state.world.files path = some found)
    (hdelivered : Delivered fd content post) (hlength : content.length = found.length) :
    content = found := by
  obtain ⟨hsent, -⟩ := hdelivered
  have hprefix : content <+: found := by
    rcases calls_sendFile h with ⟨s₁, rfl⟩ | ⟨s₁, s₂, s₃, r, sent, rfl⟩
    · obtain rfl : [] = content := hsent
      exact List.nil_prefix
    · obtain ⟨s₄, hread⟩ := h.steps ⟨.freadAll path, s₂, r⟩ (by simp)
      have hall : sentTo fd [(⟨.fopenRb path, s₁, true⟩ : Call), ⟨.freadAll path, s₂, r⟩,
        ⟨.writeAll fd r.1, s₃, sent⟩] = [r.1] := by
        simp [sentTo, Op.sends]
      rw [hall, List.flatten_singleton] at hsent
      exact hsent ▸ step_freadAll (hfiles ⟨.freadAll path, s₂, r⟩ (by simp)) hread
  exact hprefix.eq_of_length hlength

theorem Published.named {files : Bytes → Option Bytes} {h : List Mark}
    (hpub : Published cfg codec files h r) (hpath : r.output_path ≠ []) :
    ∃ suffix, r.output_path = resultPath cfg r.id suffix := by
  by_cases htype : r.type = .encodeText ∨ r.type = .encodeFile ∨ r.type = .decode
  · exact hpub.output_path htype
  · have hblank : r.Blank := by
      unfold Published at hpub
      split at hpub
      · next h => exact absurd (.inl h) htype
      · next h => exact absurd (.inr (.inl h)) htype
      · next h => exact absurd (.inr (.inr h)) htype
      · exact hpub
    exact absurd hblank.1 hpath

/-! A visit in which a client fetches a result. -/

/-- The session in the slot asks for the result of job `j`, and after `DATA n` it is sent
`n` bytes. -/
inductive Download (codec : PngCodec) (cfg : RuntimeConfig) (dt : DurationText) (j : Nat)
    (content : Bytes) :
    LoopState → LoopState → Prop
  | sent {revents : Nat → Revents} {left i idx : Nat} {m m' : MainState} {s s₁ s' : Sys}
      {pre post : List Call} (hactive : (m.clients.get i).active = true)
      (hcommand : (nextRequest s (m.clients.get i).fd).command = .download)
      (hjob : (nextRequest s (m.clients.get i).fd).job_id.toNat =
        j + 1) (hpre : sentTo (m.clients.get i).fd pre = [])
      (hcalls : AmidCalls codec cfg (visitSlot cfg dt revents i idx m) s
        (pre ++ ⟨.writeAll (m.clients.get i).fd (dataLine content.length), s₁, true⟩ :: post) m' s')
      (hdelivered : Delivered (m.clients.get i).fd content post) :
      Download codec cfg dt j content ⟨.walking revents (left + 1) i idx m, s⟩
        ⟨.walking revents left (i + 1) (idx + 1) m', s'⟩

theorem Download.step {ℓ ℓ' : LoopState} (h : Download codec cfg dt j content ℓ ℓ') :
    LoopStep codec cfg dt fds ℓ ℓ' := by
  cases h with
  | sent hactive _ _ _ hcalls _ => exact .visit hactive hcalls.runs

/-- The calls of a visit with a download. -/
theorem calls_downloading {revents : Nat → Revents} {i idx : Nat} {m m' : MainState} {s₁ : Sys}
    (hcommand : (nextRequest s (m.clients.get i).fd).command = .download)
    (hpre : sentTo (m.clients.get i).fd pre = [])
    (h : AmidCalls codec cfg (visitSlot cfg dt revents i idx m) s
      (pre ++ ⟨.writeAll (m.clients.get i).fd (dataLine size), s₁, true⟩ :: post) m' s') :
    ∃ s₂ line s₃ job s₄ s₅ s₆ path, path ≠ [] ∧
      pre = [⟨.readLine (m.clients.get i).fd, s₂, line⟩,
        ⟨.findJob (nextRequest s (m.clients.get i).fd).job_id, s₃, some job⟩,
          ⟨.getJob job .state, s₄, .done⟩,
        ⟨.getJob job .outputPath, s₅, path⟩, ⟨.stat path, s₆, some size⟩] ∧
      ∃ s₇ b s₈, AmidCalls codec cfg (storageSendFile (m.clients.get i).fd path) s₇ post b s₈ := by
  by_cases hserved : (revents idx).any = true ∧
      ((readLine bufferSize (s.world.streams (m.clients.get i).fd)).1).getD [] ≠ []
  · obtain ⟨s₂, line, s₃, rest, heq, hserve⟩ := calls_visit hserved.1 hserved.2 h
    obtain ⟨pre₁, rfl, hpre₁, rfl⟩ := announced_later rfl hpre heq
    by_cases hadmin : (m.clients.get i).type = .admin
    · have hanswer := calls_admin hadmin hserve
      simp only [handleAdminCommand, hcommand] at hanswer
      exact (not_announced (by decide) hanswer).elim
    · obtain ⟨s₄, hanswer, -⟩ := calls_user hadmin (by rw [hcommand]; decide) hserve
      simp only [answerUserCommand, hcommand] at hanswer
      obtain ⟨s₅, found, s₆, rest₂, heq₂, ⟨-, hnone⟩ | ⟨job, rfl, hjob⟩⟩ := calls_withJob hanswer
      · obtain ⟨pre₂, rfl, hpre₂, rfl⟩ := announced_later rfl hpre₁ heq₂
        exact (not_announced (by decide) hnone).elim
      · obtain ⟨pre₂, rfl, hpre₂, rfl⟩ := announced_later rfl hpre₁ heq₂
        obtain ⟨s₇, s₈, s₉, path, hpath, rfl, htransfer⟩ := calls_fetch hpre₂ hjob
        exact ⟨s₂, line, s₅, job, s₇, s₈, s₉, path, hpath, rfl, htransfer⟩
  · have hhangs := calls_hangUp (fun hready => not_not.mp fun hline => hserved ⟨hready, hline⟩) h
    have hhang := hhangs _ (List.mem_append_right _ List.mem_cons_self)
    exact hhang.elim

theorem step_findJob {id : UInt64} {found : Option Nat} {job : Nat} (hinv : Inv cfg codec s)
    (h : (machine codec).step .main (.findJob id) s found s') (hfound : found = some job) :
    id.toNat = job + 1 := by
  obtain ⟨e, marks, -, hexec, -⟩ := h
  simp only [exec, Option.some.injEq, Prod.mk.injEq] at hexec
  obtain ⟨rfl, -⟩ := hexec
  split at hfound
  · cases hfound
  · obtain ⟨hlt, hid, -⟩ := List.findIdx?_eq_some_iff_getElem.mp hfound
    have hrecord := hinv.id job hlt
    rw [World.job, List.getD_eq_getElem _ _ hlt] at hrecord
    rw [← hrecord]
    exact (of_decide_eq_true hid).symm

/-- What is fetched is the result of a job that is done, and stays on the shelf. -/
theorem Download.shelved {files : Bytes → Option Bytes} {ℓ ℓ' : LoopState}
    (hrun : LoopRun codec cfg dt fds (initialLoop files) ℓ)
    (h : Download codec cfg dt j content ℓ ℓ') :
    AtRest cfg codec ℓ'.sys ∧ ∃ r suffix, r.state = .done ∧
      r.output_path = resultPath cfg (j + 1) suffix ∧
      Shelved cfg j r suffix (some content) ℓ'.sys := by
  have hrest := LoopRun.atRest hrun
  have hstep : LoopStep codec cfg dt fds ℓ ℓ' := h.step
  have hrest' := LoopRun.atRest (hrun.tail hstep)
  refine ⟨hrest', ?_⟩
  cases h with
  | @sent revents left i idx m m' s s₁ s' pre post hactive hcommand hjob hpre hcalls hdelivered =>
    have hkeeps : MainKeeps cfg codec (visitSlot cfg dt revents i idx m) :=
      visitSlot_keeps revents i idx
    have hwp := hkeeps s hrest.idle
    have hQ : ∀ (_ : MainState) (s s' : Sys), making s.history = none → MainRely cfg s s' →
      Inv cfg codec s' →
        making s'.history = none := fun _ _ _ hnone hrely _ => hrely.making.trans hnone
    have hinvs := calls_kempt hrest hkeeps hcalls
    have hsteps := hcalls.steps
    obtain ⟨s₂, line, s₃, job, s₄, s₅, s₆, path, hpath, rfl, s₇, b, s₈, htransfer⟩ :=
      calls_downloading hcommand hpre hcalls
    obtain ⟨t₃, hfind⟩ := hsteps ⟨.findJob (nextRequest s (m.clients.get i).fd).job_id, s₃,
      some job⟩ (by simp)
    obtain ⟨t₄, hstate⟩ := hsteps ⟨.getJob job .state, s₄, .done⟩ (by simp)
    obtain ⟨t₅, hout⟩ := hsteps ⟨.getJob job .outputPath, s₅, path⟩ (by simp)
    obtain ⟨t₆, hstat⟩ := hsteps ⟨.stat path, s₆, some content.length⟩ (by simp)
    have hinv₄ := (hinvs ⟨.getJob job .state, s₄, .done⟩ (by simp)).1
    obtain rfl : j = job := by
      have hid := step_findJob (hinvs ⟨.findJob _, s₃, some job⟩ (by simp)).1 hfind rfl
      omega
    have hdone : (s₄.world.job j).state = .done := (step_getJob (by decide) hstate).1.symm
    have hterminal : (s₄.world.job j).state.Terminal := .inl hdone
    have hlisted := job_of_terminal hterminal
    have hid : (s₄.world.job j).id = j + 1 := hinv₄.id j hlisted
    have hsettled := hinv₄.outcome j hlisted
    simp only [Settled, hdone] at hsettled
    -- the record is read twice, and is the same both times
    have hcalls₄ : AmidCalls codec cfg (visitSlot cfg dt revents i idx m) s
      ([⟨.readLine (m.clients.get i).fd, s₂, line⟩,
        ⟨.findJob (nextRequest s (m.clients.get i).fd).job_id, s₃, some j⟩] ++
        ⟨.getJob j .state, s₄, .done⟩ :: ([⟨.getJob j .outputPath, s₅, path⟩,
          ⟨.stat path, s₆, some content.length⟩] ++
          ⟨.writeAll (m.clients.get i).fd (dataLine content.length), s₁, true⟩ :: post)) m' s' :=
            hcalls
    obtain ⟨hsame, -⟩ := (frozen_stable hterminal).after
      (conduct_sound cfg codec) hQ hwp hrest.inv hcalls₄
      fun _ => ⟨hlisted, rfl⟩
    have hpath₅ : path = (s₄.world.job j).output_path := by
      have hread : path = (s₅.world.job j).output_path := (step_getJob (by decide) hout).1
      have hkept : s₅.world.job j = s₄.world.job j :=
        (hsame ⟨.getJob j .outputPath, s₅, path⟩ (by simp)).2.2
      rw [hread, hkept]
    obtain ⟨suffix, hnamed⟩ := hsettled.named (hpath₅ ▸ hpath)
    rw [hid] at hnamed
    -- so is the file that it names
    obtain ⟨hshelf, -, -, hlast⟩ :=
      (shelved_stable hterminal suffix (s₄.world.files (resultPath cfg (j + 1) suffix))).after
      (conduct_sound cfg codec) hQ hwp hrest.inv hcalls₄ fun _ => ⟨hlisted, rfl, rfl⟩
    have hpath' : path = resultPath cfg (j + 1) suffix := hpath₅.trans hnamed
    obtain ⟨found, hfound, hlength⟩ := step_stat hstat rfl
    have hfile := (hshelf ⟨.stat path, s₆, some content.length⟩ (by simp)).2.file
    rw [← hpath', hfound] at hfile
    have hcontent : content = found := by
      refine transferred htransfer (fun c hc => ?_) hdelivered hlength.symm
      have hat := (hshelf c (by simp [hc])).2.file
      rw [← hpath'] at hat
      exact hat.trans hfile.symm
    rw [← hpath', ← hfile, ← hcontent] at hlast
    exact ⟨_, suffix, hdone, hnamed, hlast⟩

/-- What is on the shelf for a DECODE job of what another job has encoded. -/
theorem Inv.returned (hcodec : codec.Lossless) (hbounded : codec.Bounded) {i k : Nat}
    {returned : Bytes} (hinv : Inv cfg codec s) (hfree : FaultFree s.history)
    (hi : i < s.world.jobs.length) (hk : k < s.world.jobs.length)
    (hidone : (s.world.job i).state = .done) (hkdone : (s.world.job k).state = .done)
    (hicontent : s.world.files (s.world.job i).output_path = some content)
    (hkcontent : s.world.files (s.world.job k).output_path = some returned)
    (hdecode : (s.world.job k).type = .decode) (hsubmitted : (origin k s.history).2 = content) :
    ((s.world.job i).type = .encodeText → returned = uploadedText i s.history) ∧
    ((s.world.job i).type = .encodeFile → uploadedName i s.history ≠ [] →
      0 ∉ uploadedName i s.history →
      (uploadedFile i s.history).length < 2 ^ 32 →
      returned = uploadedFile i s.history ∧ (s.world.job k).result_filename =
        uploadedName i s.history) := by
  have hup := hinv.upload k hk
  have hpub := hinv.outcome k hk
  simp only [Settled, hkdone, Published, hdecode] at hpub
  simp only [UploadOk, hdecode] at hup
  obtain ⟨-, -, hinput, hfile⟩ := hup
  rw [← hinput, hsubmitted] at hfile
  refine ⟨fun htype => ?_, fun htype hname hnul hlen => ?_⟩
  · obtain ⟨hlen, henc⟩ := hinv.encodedText hfree hi hidone htype hicontent
    have hmax : maxTextBytes = 1024 * 1024 := rfl
    obtain ⟨hout, -⟩ := hpub.of_encoded hcodec hbounded (by omega) henc hfile
    exact Option.some.inj (hkcontent.symm.trans hout)
  · obtain ⟨hshort, henc⟩ := hinv.encodedFile hfree hi hidone htype hicontent hname hnul
    obtain ⟨hout, -, -, hfilename⟩ := hpub.of_encoded hcodec hbounded hlen henc hfile
    have hstored : storedName .file (some (uploadedName i s.history)) =
      uploadedName i s.history := by
      rw [storedName_eq .file fun f hf => Option.some.inj hf ▸ hnul]
      exact List.take_of_length_le hshort
    have hmax : maxJobFilename = 256 := rfl
    refine ⟨Option.some.inj (hkcontent.symm.trans hout), ?_⟩
    rw [hfilename, if_neg (by simp), hstored, cstr_filenameArray hnul hshort,
      snprintf_eq (by omega)]

/-- A client fetches what job `i` has made; later a client, the same or another, fetches
what job `k` has made of it. Amid everything that the others do, what comes back is what
was hidden. -/
theorem hidden_payload_returned (hcodec : codec.Lossless) (hbounded : codec.Bounded)
    {files : Bytes → Option Bytes} {i k : Nat} {returned : Bytes} {ℓ₁ ℓ₂ ℓ₃ ℓ₄ : LoopState}
    (hrun : LoopRun codec cfg dt fds (initialLoop files) ℓ₁)
    (hfetch : Download codec cfg dt i content ℓ₁ ℓ₂) (hlater : LoopRun codec cfg dt fds ℓ₂ ℓ₃)
    (hagain : Download codec cfg dt k returned ℓ₃ ℓ₄) (hfree : FaultFree ℓ₄.sys.history)
    (hdecode : (ℓ₄.sys.world.job k).type = .decode)
    (hsubmitted : (origin k ℓ₄.sys.history).2 = content) :
    ((ℓ₄.sys.world.job i).type = .encodeText → returned = uploadedText i ℓ₄.sys.history) ∧
    ((ℓ₄.sys.world.job i).type = .encodeFile → uploadedName i ℓ₄.sys.history ≠ [] →
      0 ∉ uploadedName i ℓ₄.sys.history →
      (uploadedFile i ℓ₄.sys.history).length < 2 ^ 32 →
      returned = uploadedFile i ℓ₄.sys.history ∧
        (ℓ₄.sys.world.job k).result_filename = uploadedName i ℓ₄.sys.history) := by
  obtain ⟨hrest₂, r, suffix, hidone, hipath, hshelf₂⟩ := hfetch.shelved hrun
  have hrun₃ : LoopRun codec cfg dt fds (initialLoop files) ℓ₃ :=
    (hrun.tail hfetch.step).trans hlater
  obtain ⟨hrest₄, r', suffix', hkdone, hkpath, hkshelf⟩ := hagain.shelved hrun₃
  obtain ⟨-, hishelf⟩ := LoopRun.stable (shelved_stable (.inl hidone) suffix (some content))
    (hlater.tail hagain.step) hrest₂ hshelf₂
  obtain ⟨hi, rfl, hifile⟩ := hishelf
  obtain ⟨hk, rfl, hkfile⟩ := hkshelf
  rw [← hipath] at hifile
  rw [← hkpath] at hkfile
  exact hrest₄.inv.returned hcodec hbounded hfree hi hk hidone hkdone hifile hkfile
    hdecode hsubmitted

end

/-! A user has a text hidden, fetches the image, sends it back and fetches the text. -/

theorem sentTo_written (fd : Int) (tr : List Call) :
    sentTo fd tr = (tr.filterMap Performed.written).filterMap fun w => if w.1 = fd then some w.2.1
      else none := by
  induction tr with
  | nil => rfl
  | cons c tr ih =>
    obtain ⟨o, s, b⟩ := c
    cases o with
    | writeAll f text =>
      rw [List.filterMap_cons_some
        (by rfl : Performed.written ⟨.writeAll f text, s, b⟩ = some (f, text, b))]
      simp only [sentTo, List.filterMap_cons, Op.sends] at ih ⊢
      split <;> simp [ih]
    | _ => exact ih

theorem download_of_written {s s' : Sys} {tr : List Call} {m' : MainState} {j n : Nat}
    {content : Bytes} (hcommand : (nextRequest s 9).command = .download)
    (hjob : (nextRequest s 9).job_id.toNat = j + 1)
    (hcalls : AmidCalls boundedCodec runtimeConfigDefaults
      (visitSlot runtimeConfigDefaults plainDurations (pollIn [5]) 0 5
        (onlySession .user)) s tr m' s')
    (hwritten : tr.map Performed.written =
      List.replicate 5 none ++ some (9, dataLine n, true) :: [none, none, some (9, content, true)])
    (hlength : content.length = n) :
    Download boundedCodec runtimeConfigDefaults plainDurations j content
      ⟨.walking (pollIn [5]) maxClients 0 5 (onlySession .user),
        s⟩ ⟨.walking (pollIn [5]) 127 1 6 m', s'⟩ := by
  subst hlength
  obtain ⟨pre, rest, rfl, hpre, hrest⟩ := List.map_eq_append_iff.mp hwritten
  obtain ⟨c, post, rfl, hc, hpost⟩ := List.map_eq_cons_iff.mp hrest
  obtain ⟨s₁, rfl⟩ := Performed.of_written hc
  have hquiet : sentTo 9 pre = [] := by
    refine sentTo_unwritten fun c hc => ?_
    exact List.eq_of_mem_replicate (hpre ▸ List.mem_map_of_mem hc)
  have hsent : sentTo 9 post = [content] := by
    have hlast : post.filterMap Performed.written = [(9, content, true)] := by
      have hflat := congrArg (List.filterMap id) hpost
      rwa [List.filterMap_map] at hflat
    rw [sentTo_written, hlast]
    rfl
  have hall : (sentTo 9 post).flatten = content := by rw [hsent, List.flatten_singleton]
  refine .sent rfl hcommand hjob hquiet hcalls ⟨hall, ?_⟩
  intro text s₂ hfailed
  have hmem : some (9, text, false) ∈ post.map Performed.written := List.mem_map_of_mem hfailed
  rw [hpost] at hmem
  simp at hmem

def fetchDecodeFetch : List (Tid × Env) :=
  let sent := lit "NCODE_TEXT 209 2\n" ++ rawSave (blackStrip 64) ++
    lit "hiDOWNLOAD 1\nDECODE 209\n" ++ hiddenStrip ++
    lit "DOWNLOAD 2\n"
  [(.main, {}), (.main, pollReports [0]),
    (.main, { connection := some ⟨9, .inet 10 0 0 7, [.chunk 69 sent]⟩ }), (.main, {}), (.main, {}),
      (.main, {}), (.main, pollReports [5])] ++
  steps 16 .main ++ steps 26 (.worker 0)

/-- After the second worker's turn, the session's next visit with its calls. -/
def visitAfterWork (s : Sys) : Option (Sys × List Call × MainState × Sys) :=
  (execute boundedCodec (.worker 1) (workerTurn runtimeConfigDefaults 1) (fun _ => {}) s).bind
    fun w => (transcribe boundedCodec .main
      (visitSlot runtimeConfigDefaults plainDurations (pollIn [5]) 0 5 (onlySession .user))
      (fun _ => {}) w.2).map fun t => (w.2, t)

theorem amid_workerTurn {m : MainState} {s s₁ s' : Sys} {tr : List Call} {a : MainState} {b : Bool}
    (hinv : Inv runtimeConfigDefaults boundedCodec s)
    (hholding : holding (.worker 1) s.history = none)
    (hwork : execute boundedCodec (.worker 1) (workerTurn runtimeConfigDefaults 1) (fun _ => {}) s =
      some (b, s₁))
    (hcalls : AmidCalls boundedCodec runtimeConfigDefaults
      (visitSlot runtimeConfigDefaults plainDurations (pollIn [5]) 0 5 m)
      s₁ tr a s') :
    AmidCalls boundedCodec runtimeConfigDefaults (visitSlot runtimeConfigDefaults plainDurations
      (pollIn [5]) 0 5 m) s tr a s' := by
  obtain ⟨hothers, -, -⟩ :=
    Discipline.others_of_runs (t := .main) (conduct_sound runtimeConfigDefaults boundedCodec)
    (by decide : Tid.worker 1 ≠ .main) (workerTurn_keeps runtimeConfigDefaults boundedCodec
      (b := none) hholding) hinv
    (execute_runs hwork)
  exact hcalls.env (fun _ _ _ => Relation.ReflTransGen.trans) hothers

/-- The run has both downloads in it. -/
theorem fetchDecodeFetch_downloads :
    ∃ ℓ₁ ℓ₂ ℓ₃ ℓ₄, LoopRun boundedCodec runtimeConfigDefaults plainDurations plainFds
      (initialLoop fun _ => none) ℓ₁ ∧
      Download boundedCodec runtimeConfigDefaults plainDurations 0 hiddenStrip ℓ₁ ℓ₂ ∧
      LoopRun boundedCodec runtimeConfigDefaults plainDurations plainFds ℓ₂ ℓ₃ ∧
      Download boundedCodec runtimeConfigDefaults plainDurations 1 (lit "hi") ℓ₃ ℓ₄ ∧
        FaultFree ℓ₄.sys.history ∧
      (ℓ₄.sys.world.job 0).type = .encodeText ∧ (ℓ₄.sys.world.job 1).type = .decode ∧
      (origin 1 ℓ₄.sys.history).2 = hiddenStrip := by
  obtain ⟨m, s, tr, m', s', hrun, hcalls, hfacts⟩ :=
    exists_visit boundedCodec runtimeConfigDefaults plainDurations
    plainFds (fun _ => none) fetchDecodeFetch (fun _ => {}) (fun v =>
      (nextVisit v.2.2.2.2).bind fun (r : MainState × Sys) =>
        (visitAfterWork ((machine boundedCodec).turn .main r.2)).map
          fun (w : Sys × List Call × MainState × Sys) =>
          (decide ((v.1 = onlySession .user ∧ v.2.2.2.1 = onlySession .user ∧
            r.1 = onlySession .user) ∧
            v.2.2.1.map Performed.written =
              List.replicate 5 none ++ some (9, dataLine 209, true) ::
                [none, none, some (9, hiddenStrip, true)] ∧
            w.2.1.map Performed.written =
              List.replicate 5 none ++ some (9, dataLine 2, true) ::
                [none, none, some (9, lit "hi", true)]),
          decide ((nextRequest v.2.1 9).command = .download ∧ (nextRequest v.2.1 9).job_id = 1 ∧
            (nextRequest r.2 9).command = .download ∧ (nextRequest r.2 9).job_id = 2 ∧
            holding (.worker 1) r.2.history = none),
          w.2.2.2.history.all (fun m => !m.isFault),
          decide ((w.2.2.2.world.job 0).type = .encodeText ∧ (w.2.2.2.world.job 1).type = .decode ∧
            (origin 1 w.2.2.2.history).2 = hiddenStrip)))
    (a := some (true, true, true, true)) (by decide +kernel)
  obtain ⟨⟨m₂, s₂⟩, hvisit, hmap⟩ := Option.bind_eq_some_iff.mp hfacts
  obtain ⟨⟨s₃, tr', m₄, s₄⟩, hwork, hdecided⟩ := Option.map_eq_some_iff.mp hmap
  obtain ⟨h₁, h₂⟩ := Prod.mk.inj hdecided
  obtain ⟨h₂, h₃⟩ := Prod.mk.inj h₂
  obtain ⟨hall, h₄⟩ := Prod.mk.inj h₃
  obtain ⟨⟨rfl, rfl, rfl⟩, hwritten, hwritten'⟩ := of_decide_eq_true h₁
  obtain ⟨hcommand, hjob, hcommand', hjob', hholding⟩ := of_decide_eq_true h₂
  obtain ⟨htype, hdecode, hsubmitted⟩ := of_decide_eq_true h₄
  have hfetch := download_of_written hcommand (congrArg UInt64.toNat hjob) hcalls hwritten
    (by decide +kernel)
  have hseated := visited_again hvisit
  have hlater := hseated.trans (seated_again s₂)
  obtain ⟨⟨going, s₅⟩, hturn, htranscribed⟩ := Option.bind_eq_some_iff.mp hwork
  obtain ⟨⟨tr₂, m₅, s₆⟩, htrace, hsame⟩ := Option.map_eq_some_iff.mp htranscribed
  cases hsame
  have hrun' : LoopRun boundedCodec runtimeConfigDefaults plainDurations plainFds
    (initialLoop fun _ => none) _ :=
    (hrun.tail hfetch.step).trans hlater
  have hcalls' := amid_workerTurn (LoopRun.atRest hrun').inv hholding hturn
    (calls_of_transcribe htrace)
  have hid : (nextRequest ((machine boundedCodec).turn .main s₂) 9).job_id.toNat = 1 + 1 :=
    congrArg UInt64.toNat hjob'
  have hasked : (nextRequest ((machine boundedCodec).turn .main s₂) 9).command = .download :=
    hcommand'
  have hagain := download_of_written hasked hid hcalls' hwritten' rfl
  exact ⟨_, _, _, _, hrun, hfetch, hlater, hagain, faultFree_of_all hall, htype,
    hdecode, hsubmitted⟩

theorem hidden_payload_returned_hi :
    ∃ ℓ₃ ℓ₄, Download boundedCodec runtimeConfigDefaults plainDurations 1 (lit "hi") ℓ₃ ℓ₄ ∧
      lit "hi" = uploadedText 0 ℓ₄.sys.history := by
  obtain ⟨ℓ₁, ℓ₂, ℓ₃, ℓ₄, hrun, hfetch, hlater, hagain, hfree, htype, hdecode, hsubmitted⟩ :=
    fetchDecodeFetch_downloads
  obtain ⟨hback, -⟩ := hidden_payload_returned boundedCodec_lossless boundedCodec_bounded hrun
    hfetch hlater hagain hfree
    hdecode hsubmitted
  exact ⟨ℓ₃, ℓ₄, hagain, hback htype⟩

end StegaPng
