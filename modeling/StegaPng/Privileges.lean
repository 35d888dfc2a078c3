import StegaPng.SessionTable

/-! What a command may touch: a user's command its own session and the one job it names
or creates, an admin's command no job record but the one it cancels, and no file. -/

namespace StegaPng

open Interleaving

section

variable (codec : PngCodec) (cfg : RuntimeConfig)

/-- The steps of the workers and steps of the main thread of the kind `own`. -/
abbrev Amidst (own : Sys → Sys → Prop) : Sys → Sys → Prop :=
  Relation.ReflTransGen fun s s' => (conduct cfg codec).OtherStep .main s s' ∨ own s s'

end

/-- Of the first `n` jobs a step changes at most job `j₀`: it requests to cancel it, and
the request names it. -/
def Spares (q : ProtocolRequest) (j₀ n : Nat) (s s' : Sys) : Prop :=
  ∀ j < n, s'.world.job j = s.world.job j ∨
    j = j₀ ∧ q.command = .cancel ∧ (s.world.job j).id = q.job_id.toNat ∧
      ((s.world.job j).state = .queued ∨ (s.world.job j).state = .running) ∧
      s'.world.job j = { s.world.job j with cancel_requested := true }

section

variable {codec : PngCodec} {cfg : RuntimeConfig} {dt : DurationText} {m m' : MainState}
  {q : ProtocolRequest} {j₀ n : Nat} {s s₁ s' : Sys} {α β : Type} {p : Task α} {a : α}

theorem spares_of_jobs (h : s'.world.jobs = s.world.jobs) : Spares q j₀ n s s' := by
  intro j _
  rw [World.job, World.job, h]
  exact .inl rfl

theorem exec_jobless {e : Env} {t : Tid} {w w' : World} {o : Op} {b : Ans o} {marks : List Mark}
    (ho : o.ofJobs = false) (h : exec codec e t w o = some (b, w', marks)) : w'.jobs = w.jobs := by
  have heffect := exec_effect h
  cases heffect with
  | quiet hcore => exact hcore.jobs
  | input _ hcore => exact hcore.jobs
  | file _ hcore => exact hcore.jobs
  | popped => rfl
  | event => rfl
  | pushed => rfl
  | pushFailed => rfl
  | _ => cases ho

theorem others_length (h : (conduct cfg codec).Others .main s s') :
    s'.world.jobs.length = s.world.jobs.length := by
  induction h with
  | refl => rfl
  | tail _ hstep ih =>
    cases hstep with
    | turn hne => exact ih
    | op hne hinv hallowed hstep =>
      have hrely : MainRely cfg _ _ :=
        (conduct_sound cfg codec).rely_step hinv hallowed hstep (Ne.symm hne)
      exact hrely.length.trans ih

/-- What jobs a part of a user's command may touch: none that is there, and it may add one. -/
structure Adds (codec : PngCodec) (cfg : RuntimeConfig) (s s' : Sys) : Prop where
  spares : ∀ q j₀, Amidst codec cfg (Spares q j₀ s.world.jobs.length) s s'
  grows : s.world.jobs.length ≤ s'.world.jobs.length ∧
    s'.world.jobs.length ≤ s.world.jobs.length + 1

theorem jobless_spares (hp : p.All fun o => o.ofJobs = false) (h : Amid codec cfg p s a s') :
    Amidst codec cfg (Spares q j₀ n) s s' := by
  refine RunsAmid.interleaves ?_ hp h
  rintro o s₁ b s₂ ho ⟨e, marks, -, hexec, -⟩
  exact spares_of_jobs (exec_jobless ho hexec)

theorem jobless_length (hp : p.All fun o => o.ofJobs = false) (h : Amid codec cfg p s a s') :
    s'.world.jobs.length = s.world.jobs.length := by
  refine h.preserves (P := fun s₁ => s₁.world.jobs.length = s.world.jobs.length) ?_ ?_ hp rfl
  · exact fun _ _ hs henv => (others_length henv).trans hs
  · rintro o s₁ b s₂ ho hs ⟨e, marks, -, hexec, -⟩
    rw [exec_jobless ho hexec, hs]

def Orderly (codec : PngCodec) (cfg : RuntimeConfig) (p : Task α) : Prop :=
  ∀ s a s', Amid codec cfg p s a s' → Adds codec cfg s s'

theorem orderly_jobless (hp : p.All fun o => o.ofJobs = false) : Orderly codec cfg p := by
  intro s a s' h
  have hlength := jobless_length hp h
  exact ⟨fun q j₀ => jobless_spares hp h, by omega⟩

theorem orderly_after {f : α → Task β} (hp : p.All fun o => o.ofJobs = false)
    (hf : ∀ a, Orderly codec cfg (f a)) :
    Orderly codec cfg (p >>= f) := by
  intro s b s' h
  obtain ⟨a, s₁, hfirst, hrest⟩ := amid_bind.mp h
  obtain ⟨hspares, hgrows⟩ := hf a s₁ b s' hrest
  have hlength := jobless_length hp hfirst
  rw [hlength] at hspares hgrows
  exact ⟨fun q j₀ => (jobless_spares hp hfirst).trans (hspares q j₀), hgrows⟩

theorem orderly_map (f : α → β) (hp : Orderly codec cfg p) :
    Orderly codec cfg (p >>= fun a => pure (f a)) := by
  intro s b s' h
  obtain ⟨a, hrun, -⟩ := amid_map h
  exact hp s a s' hrun

/-- Operations on the job that has just been created. -/
def Op.onJob (job : Nat) : Op → Bool
  | .setJob j _ => j == job
  | .push j => j == job
  | o => !o.ofJobs

theorem exec_onJob {e : Env} {t : Tid} {w w' : World} {job : Nat} {o : Op} {b : Ans o}
    {marks : List Mark} (ho : o.onJob job = true) (h : exec codec e t w o = some (b, w', marks)) :
    w'.jobs.length = w.jobs.length ∧ ∀ j, j ≠ job → w'.job j = w.job j := by
  cases o with
  | setJob j u =>
    obtain rfl : j = job := by simpa [Op.onJob] using ho
    simp only [exec, Option.some.injEq, Prod.mk.injEq] at h
    obtain ⟨-, rfl, -⟩ := h
    exact ⟨World.updateJob_length _ _ _, fun k hk => World.updateJob_job_ne _ hk⟩
  | push j =>
    have hjobs : w'.jobs = w.jobs := by
      have heffect := exec_effect h
      cases heffect with
      | quiet hcore => exact hcore.jobs
      | pushed => rfl
      | pushFailed => rfl
      | input ho => cases ho
      | file ho => cases ho
    exact ⟨by rw [hjobs], fun k _ => by rw [World.job, World.job, hjobs]⟩
  | createJob => cases ho
  | requestCancel => cases ho
  | _ =>
    have hjobs := exec_jobless rfl h
    exact ⟨by rw [hjobs], fun k _ => by rw [World.job, World.job, hjobs]⟩

theorem exec_createJob {e : Env} {t : Tid} {w w' : World} {owner_fd : Int} {owner_ip : Bytes}
    {type : JobType} {payload input_path : Option Bytes} {b : Option Nat} {marks : List Mark}
    (h : exec codec e t w (.createJob owner_fd owner_ip type payload input_path) =
      some (b, w', marks)) :
    b = none ∧ w'.jobs = w.jobs ∨ b = some w.jobs.length ∧ ∃ job, w'.jobs = w.jobs ++ [job] := by
  simp only [exec] at h
  split at h
  · cases h
    exact .inl ⟨rfl, rfl⟩
  · split at h
    · cases h
      exact .inl ⟨rfl, rfl⟩
    · cases h
      exact .inr ⟨rfl, _, rfl⟩

theorem others_amidst {own : Sys → Sys → Prop} (h : (conduct cfg codec).Others .main s s') :
    Amidst codec cfg own s s' :=
  h.lift id fun _ _ => .inl

theorem plain_jobless (o : Op) (ho : o.plain = true) : o.ofJobs = false := by
  cases o <;> first
    | rfl
    | cases ho

theorem jobless_onJob {o : Op} {job : Nat} (ho : o.ofJobs = false) : o.onJob job = true := by
  cases o <;> first
    | rfl
    | cases ho

theorem amid_onJob {job : Nat} (hjob : n ≤ job) (hp : p.All fun o => o.onJob job = true)
    (h : Amid codec cfg p s a s') :
    (∀ q j₀, Amidst codec cfg (Spares q j₀ n) s s') ∧
      s'.world.jobs.length = s.world.jobs.length := by
  constructor
  · intro q j₀
    refine RunsAmid.interleaves ?_ hp h
    rintro o s₁ b s₂ ho ⟨e, marks, -, hexec, -⟩ j hj
    exact .inl ((exec_onJob ho hexec).2 j (by omega))
  · refine h.preserves (P := fun s₁ => s₁.world.jobs.length = s.world.jobs.length) ?_ ?_ hp rfl
    · exact fun _ _ hs henv => (others_length henv).trans hs
    · rintro o s₁ b s₂ ho hs ⟨e, marks, -, hexec, -⟩
      rw [(exec_onJob ho hexec).1, hs]

theorem orderly_enqueueJob {client : ClientSession} {type : JobType}
    {payload input_path stored_path : Option Bytes} :
    Orderly codec cfg (enqueueJob client type payload input_path stored_path) := by
  intro s b s' h
  obtain ⟨created, s₁, hcreate, hrest⟩ := amid_bind.mp h
  obtain ⟨s₀, c, s₂, hbefore, ⟨e, marks, -, hexec, -⟩, hret⟩ := RunsAmid.op_iff.mp hcreate
  obtain ⟨rfl, hafter⟩ := RunsAmid.ret_iff.mp hret
  have hsame := others_length hbefore
  have hsame₁ := others_length hafter
  rcases exec_createJob hexec with ⟨rfl, hjobs⟩ | ⟨rfl, job, hjobs⟩
  · obtain ⟨hspares, hgrows⟩ := orderly_jobless (sendResponsef_all plain_jobless _ _) _ _ _ hrest
    have hlength : s₁.world.jobs.length = s.world.jobs.length := by rw [hsame₁, hjobs, hsame]
    rw [hlength] at hspares hgrows
    refine ⟨fun q j₀ => ?_, hgrows⟩
    have hnone : Spares q j₀ s.world.jobs.length s₀ s₂ := spares_of_jobs hjobs
    have hstep := (others_amidst hbefore).tail (.inr hnone)
    exact (hstep.trans (others_amidst hafter)).trans (hspares q j₀)
  · have hresponse : ∀ (fd : Int) (text : Bytes),
        (sendResponsef fd text).All fun o => o.onJob s₀.world.jobs.length = true :=
      fun fd text => sendResponsef_all (fun o ho => jobless_onJob (plain_jobless o ho)) fd text
    have hown : ∀ {o : Op}, o.onJob s₀.world.jobs.length = true →
        (call o).All fun o => o.onJob s₀.world.jobs.length = true :=
      fun {o} ho => (Prog.all_perform (C := fun o : Op => o.onJob s₀.world.jobs.length =
        true) o).mpr ho
    have hpush : Prog.All (fun o : Op => o.onJob s₀.world.jobs.length = true) (do
        if !(← call (.push s₀.world.jobs.length)) then
          jobSetResult s₀.world.jobs.length (lit "enqueue failed")
          jobSetState s₀.world.jobs.length .failed
          sendResponsef client.fd (lit "ERR cannot enqueue job\n")
        else
          sendResponsef client.fd (lit "JOB " ++ decimal (← jobId s₀.world.jobs.length) ++
            lit "\n")) := by
      refine (hown (beq_self_eq_true _)).bind fun pushed => ?_
      split
      · refine (hown (beq_self_eq_true _)).bind fun _ =>
          (hown (beq_self_eq_true _)).bind fun _ => ?_
        exact hresponse _ _
      · exact (hown rfl).bind fun id => hresponse _ _
    have hlength : s₁.world.jobs.length = s.world.jobs.length + 1 := by
      rw [hsame₁, hjobs, List.length_append, hsame, List.length_singleton]
    obtain ⟨hspares, hkept⟩ : (∀ q j₀, Amidst codec cfg (Spares q j₀ s.world.jobs.length) s₁ s') ∧
        s'.world.jobs.length = s₁.world.jobs.length := by
      refine amid_onJob (show s.world.jobs.length ≤ s₀.world.jobs.length by omega) ?_ hrest
      cases stored_path with
      | none => exact hpush
      | some path =>
        exact (hown (o := .setJob s₀.world.jobs.length (.storedPath path))
          (beq_self_eq_true _)).bind fun _ => hpush
    refine ⟨fun q j₀ => ?_, by omega⟩
    have hcreated : Spares q j₀ s.world.jobs.length s₀ s₂ := by
      intro j hj
      rw [World.job_append hjobs (by omega)]
      exact .inl rfl
    have hstep := (others_amidst hbefore).tail (.inr hcreated)
    exact (hstep.trans (others_amidst hafter)).trans (hspares q j₀)

/-! The commands of users. -/

theorem receive_jobless (client : ClientSession) (o : Op) (_ : o.waits = false)
    (_ : o.ofSession = false) (ho : o.ofJobs = false) (_ : o.onBehalfOf client)
    (_ : o.refusesSize = false) : o.ofJobs = false :=
  ho

theorem orderly_response {fd : Int} {text : Bytes} :
    Orderly codec cfg (do let _ ← sendResponsef fd text : Task Unit) :=
  orderly_jobless (respond_all plain_jobless fd text)

theorem orderly_handlePngUpload {client : ClientSession} {request : ProtocolRequest}
    {type : JobType} :
    Orderly codec cfg (handlePngUpload cfg client request type) := by
  refine orderly_after (receivePngToUpload_all (receive_jobless _) _ _ fun _ _ => rfl) fun png => ?_
  cases png with
  | none => exact orderly_jobless (Prog.all_pure _)
  | some png_path => exact orderly_map _ orderly_enqueueJob

theorem orderly_handleEncodeText {client : ClientSession} {request : ProtocolRequest} :
    Orderly codec cfg (handleEncodeText cfg client request) := by
  refine orderly_after (receivePngToUpload_all (receive_jobless _) _ _ fun _ _ => rfl) fun png => ?_
  cases png with
  | none => exact orderly_jobless (Prog.all_pure _)
  | some png_path =>
    refine orderly_after (receive_all (receive_jobless client) rfl rfl rfl (by trivial) rfl)
      fun next_id => ?_
    refine orderly_after (receiveExtraToFile_all (receive_jobless _) _ _ _ _ _ _
      (fun _ _ => rfl) ?_) fun text => ?_
    · decide +kernel
    · cases text with
      | none => exact orderly_jobless (Prog.all_pure _)
      | some text_path => exact orderly_map _ orderly_enqueueJob

theorem orderly_handleEncodeFileBody {client : ClientSession} {request : ProtocolRequest}
    {png_path filename : Bytes} :
    Orderly codec cfg (handleEncodeFileBody cfg client request png_path filename) := by
  refine orderly_after (receive_all (receive_jobless client) rfl rfl rfl (by trivial) rfl)
    fun next_id => ?_
  refine orderly_after (receiveExtraToFile_all (receive_jobless _) _ _ _ _ _ _ (fun _ _ => rfl) ?_)
    fun file => ?_
  · decide +kernel
  · cases file with
    | none => exact orderly_jobless (Prog.all_pure _)
    | some file_path => exact orderly_map _ orderly_enqueueJob

theorem orderly_handleEncodeFile {client : ClientSession} {request : ProtocolRequest} :
    Orderly codec cfg (handleEncodeFile cfg client request) := by
  unfold handleEncodeFile
  split
  · exact orderly_after (receive_all (receive_jobless client) rfl rfl rfl (by trivial) rfl) fun _ =>
      orderly_response
  · refine orderly_after (receivePngToUpload_all (receive_jobless _) _ _ fun _ _ => rfl)
      fun png => ?_
    cases png with
    | none => exact orderly_jobless (Prog.all_pure _)
    | some png_path =>
      dsimp only
      split
      · refine orderly_after (receive_all (receive_jobless client) rfl rfl rfl (by trivial) rfl)
          fun name => ?_
        cases name with
        | none => exact orderly_response
        | some filename =>
          dsimp only
          split
          · exact orderly_response
          · exact orderly_handleEncodeFileBody
      · exact orderly_handleEncodeFileBody

theorem orderly_handleArgument {client : ClientSession} {request : ProtocolRequest} {empty : Bytes}
    {enqueue : Task Bool} (h : Orderly codec cfg enqueue) :
    Orderly codec cfg (handleArgument client request empty enqueue) := by
  unfold handleArgument
  split
  · exact orderly_response
  · exact orderly_map _ h

theorem orderly_answerUserCommand {client : ClientSession} {request : ProtocolRequest}
    (hcancel : request.command ≠ .cancel) :
    Orderly codec cfg (answerUserCommand cfg client request) := by
  cases hcommand : request.command
  case cancel => exact absurd hcommand hcancel
  all_goals simp only [answerUserCommand, hcommand]
  case submit => exact orderly_handleArgument orderly_enqueueJob
  case validateImage => exact orderly_handleArgument orderly_enqueueJob
  case analyzeCapacity => exact orderly_handleArgument orderly_enqueueJob
  case encodeText => exact orderly_handleEncodeText
  case encodeFile => exact orderly_handleEncodeFile
  case decode => exact orderly_handlePngUpload
  case validate => exact orderly_handlePngUpload
  case capacity => exact orderly_handlePngUpload
  case status => exact orderly_jobless (withJob_all plain_jobless _ _ fun job =>
    handleStatus_all plain_jobless _ _ job)
  case result => exact orderly_jobless (withJob_all plain_jobless _ _ fun job =>
    handleResult_all plain_jobless _ _ job)
  case jobMeta => exact orderly_jobless (withJob_all plain_jobless _ _ fun job =>
    handleMeta_all plain_jobless _ _ job)
  case download => exact orderly_jobless (withJob_all plain_jobless _ _ fun job =>
    handleDownload_all plain_jobless _ job)
  all_goals exact orderly_response

theorem others_id {j : Nat} (hj : j < s.world.jobs.length)
    (h : (conduct cfg codec).Others .main s s') :
    (s'.world.job j).id = (s.world.job j).id := by
  induction h with
  | refl => rfl
  | @tail s₁ s₂ hothers hstep ih =>
    have hlength := others_length hothers
    have hlength' := others_length (hothers.tail hstep)
    cases hstep with
    | turn hne => exact ih
    | op hne hinv hallowed hstep =>
      have hinv' := (conduct_sound cfg codec).inv_step hinv hallowed hstep
      rw [← ih, hinv'.id j (by omega), hinv.id j (by omega)]

theorem exec_requestCancel {e : Env} {t : Tid} {w w' : World} {job j : Nat} {b : Bool}
    {marks : List Mark} (h : exec codec e t w (.requestCancel job) = some (b, w', marks))
    (hj : j < w.jobs.length) :
    w'.jobs.length = w.jobs.length ∧ (w'.job j = w.job j ∨ j = job ∧
      ((w.job j).state = .queued ∨ (w.job j).state = .running) ∧
      w'.job j = { w.job j with cancel_requested := true }) := by
  have hsame : w'.jobs = w.jobs → w'.jobs.length = w.jobs.length ∧ (w'.job j = w.job j ∨ j = job ∧
      ((w.job j).state = .queued ∨ (w.job j).state = .running) ∧
      w'.job j = { w.job j with cancel_requested := true }) := by
    intro hjobs
    rw [World.job, World.job, hjobs]
    exact ⟨rfl, .inl rfl⟩
  have heffect := exec_effect h
  cases heffect with
  | quiet hcore => exact hsame hcore.jobs
  | input ho => cases ho
  | file ho => cases ho
  | canceled hlive =>
    refine ⟨World.updateJob_length _ _ _, ?_⟩
    by_cases hjob : j = job
    · subst hjob
      exact .inr ⟨rfl, hlive, World.updateJob_job _ hj⟩
    · exact .inl (World.updateJob_job_ne _ hjob)

theorem amid_cancel {fd : Int} {refused : Bytes} {u : Unit} (hq : q.command = .cancel)
    (h : Amid codec cfg (withJob fd q.job_id (handleCancel fd q.job_id refused)) s u s') :
    ∃ j₀, Amidst codec cfg (Spares q j₀ s.world.jobs.length) s s' ∧
      s'.world.jobs.length = s.world.jobs.length := by
  obtain ⟨found, s₁, hfind, hrest⟩ := amid_bind.mp h
  have hcall := call_all plain_jobless (o := .findJob q.job_id) rfl
  have hbefore : Amidst codec cfg (Spares q (found.getD 0) s.world.jobs.length) s s₁ :=
    jobless_spares hcall hfind
  have hlength := jobless_length hcall hfind
  cases found with
  | none =>
    have hanswer := respond_all plain_jobless fd (lit "ERR job not found\n")
    exact ⟨0, hbefore.trans (jobless_spares hanswer hrest),
      (jobless_length hanswer hrest).trans hlength⟩
  | some job =>
    have hnamed : job < s₁.world.jobs.length ∧ (s₁.world.job job).id = q.job_id.toNat := by
      obtain ⟨s₀, c, s₂, -, ⟨e, marks, -, hexec, -⟩, hret⟩ := RunsAmid.op_iff.mp hfind
      obtain ⟨rfl, hafter⟩ := RunsAmid.ret_iff.mp hret
      simp only [exec, Option.some.injEq, Prod.mk.injEq] at hexec
      obtain ⟨hindex, hworld, -⟩ := hexec
      split at hindex
      · cases hindex
      · obtain ⟨hlt, hid, -⟩ := List.findIdx?_eq_some_iff_getElem.mp hindex
        rw [hworld] at hlt
        have hjob : s₂.world.job job = s₀.world.jobs[job] := by
          rw [← hworld]
          exact List.getD_eq_getElem _ _ _
        refine ⟨by rwa [others_length hafter], ?_⟩
        rw [others_id hlt hafter, hjob]
        simpa using hid
    obtain ⟨accepted, s₂, hcancel, hanswer⟩ := amid_bind.mp hrest
    have htail : Amidst codec cfg (Spares q job s.world.jobs.length) s₂ s' ∧
        s'.world.jobs.length = s₂.world.jobs.length := by
      split at hanswer
      · exact ⟨jobless_spares (respond_all plain_jobless _ _) hanswer,
          jobless_length (respond_all plain_jobless _ _) hanswer⟩
      · exact ⟨jobless_spares (respond_all plain_jobless _ _) hanswer,
          jobless_length (respond_all plain_jobless _ _) hanswer⟩
    obtain ⟨s₃, c, s₄, hothers, ⟨e, marks, -, hexec, -⟩, hret⟩ := RunsAmid.op_iff.mp hcancel
    obtain ⟨rfl, hafter⟩ := RunsAmid.ret_iff.mp hret
    have hlength₃ := others_length hothers
    have hlength₄ := others_length hafter
    have hrequest : Spares q job s.world.jobs.length s₃ s₄ := by
      intro j hj
      have hj₃ : j < s₃.world.jobs.length := by omega
      rcases (exec_requestCancel hexec hj₃).2 with hsame | ⟨hjob, hlive, hset⟩
      · exact .inl hsame
      · exact .inr ⟨hjob, hq, by rw [hjob, others_id hnamed.1 hothers, hnamed.2], hlive, hset⟩
    have hkept := (exec_requestCancel (j := job) hexec (by omega)).1
    refine ⟨job, (hbefore.trans ?_).trans htail.1, by omega⟩
    exact ((others_amidst hothers).tail (.inr hrequest)).trans (others_amidst hafter)

/-- The request that the session's next line makes. -/
def nextRequest (s : Sys) (fd : Int) : ProtocolRequest :=
  protocolParseLine (((readLine bufferSize (s.world.streams fd)).1).getD [])

theorem amid_readLine {fd : Int} {line : Option Bytes}
    (h : Amid codec cfg (call (.readLine fd)) s line s') :
    line = (readLine bufferSize (s.world.streams fd)).1 := by
  obtain ⟨s₁, c, s₂, hbefore, ⟨e, marks, -, hexec, -⟩, hret⟩ := RunsAmid.op_iff.mp h
  obtain ⟨rfl, -⟩ := RunsAmid.ret_iff.mp hret
  simp only [exec, Option.some.injEq, Prod.mk.injEq] at hexec
  obtain ⟨hline, -⟩ := hexec
  rw [← hline, others_streams hbefore]

theorem amid_answerUser {client : ClientSession} {u : Unit}
    (h : Amid codec cfg (answerUserCommand cfg client q) s u s') :
    (∃ j₀, Amidst codec cfg (Spares q j₀ s.world.jobs.length) s s') ∧
      s.world.jobs.length ≤ s'.world.jobs.length ∧ s'.world.jobs.length ≤
        s.world.jobs.length + 1 := by
  by_cases hcancel : q.command = .cancel
  · simp only [answerUserCommand, hcancel] at h
    obtain ⟨j₀, hrun, hlength⟩ := amid_cancel hcancel h
    exact ⟨⟨j₀, hrun⟩, by omega⟩
  · obtain ⟨hspares, hgrows⟩ := orderly_answerUserCommand hcancel s u s' h
    exact ⟨⟨0, hspares q 0⟩, hgrows⟩

/-- What a user's command may do: end its own session, add a job, and cancel the job it names. -/
structure Confined (codec : PngCodec) (cfg : RuntimeConfig) (q : ProtocolRequest) (m : MainState)
    (i : Nat) (s : Sys) (m' : MainState) (s' : Sys) : Prop where
  blocklist : m'.blocklist = m.blocklist
  others : ∀ k, k ≠ i → m'.clients.get k = m.clients.get k
  own : m'.clients.get i = m.clients.get i ∧ sockets s'.history = sockets s.history ∨
    m'.clients.get i = {} ∧ sockets s'.history = .closed (m.clients.get i).fd :: sockets s.history
  spares : ∃ j₀, Amidst codec cfg (Spares q j₀ s.world.jobs.length) s s'
  grows : s.world.jobs.length ≤ s'.world.jobs.length ∧
    s'.world.jobs.length ≤ s.world.jobs.length + 1

theorem Confined.before {i : Nat} (h : Confined codec cfg q m i s₁ m' s')
    (hp : p.All fun o => o.ofJobs = false) (hrun : Amid codec cfg p s a s₁)
    (hsockets : sockets s₁.history = sockets s.history) :
    Confined codec cfg q m i s m' s' := by
  obtain ⟨j₀, hspares⟩ := h.spares
  have hfirst : Amidst codec cfg (Spares q j₀ s.world.jobs.length) s s₁ := jobless_spares hp hrun
  have hlength := jobless_length hp hrun
  have hown := h.own
  have hgrows := h.grows
  rw [hlength] at hspares hgrows
  rw [hsockets] at hown
  exact ⟨h.blocklist, h.others, hown, ⟨j₀, hfirst.trans hspares⟩, hgrows⟩

theorem confined_closeSlot {i : Nat} (hactive : (m.clients.get i).active = true)
    (h : Amid codec cfg (closeClient (m.clients.get i) >>=
      fun closed => pure { m with clients := m.clients.set i closed })
      s m' s') : Confined codec cfg q m i s m' s' := by
  obtain ⟨closed, hclose, rfl⟩ := amid_map h
  obtain ⟨rfl, hsockets⟩ := amid_closeClient hactive hclose
  have hi : i < maxClients := Clients.lt_of_active hactive
  have hspares : Amidst codec cfg (Spares q 0 s.world.jobs.length) s s' :=
    jobless_spares (closeClient_all _ rfl) hclose
  have hlength := jobless_length (closeClient_all _ rfl) hclose
  refine ⟨rfl, fun k hk => ?_, .inr ⟨?_, hsockets⟩, ⟨0, hspares⟩, by omega⟩
  · rw [Clients.get_set, if_neg (fun h => hk h.1)]
  · rw [Clients.get_set, if_pos ⟨rfl, hi⟩]

theorem confined_userCommand {i : Nat} (hactive : (m.clients.get i).active = true)
    (h : Amid codec cfg (handleUserCommand cfg (m.clients.get i) q >>= fun client =>
      pure { m with clients := m.clients.set i client }) s m' s') :
        Confined codec cfg q m i s m' s' := by
  unfold handleUserCommand at h
  split at h
  · simp only [Prog.bind_assoc] at h
    obtain ⟨_, s₁, htell, hclose⟩ := amid_bind.mp h
    exact (confined_closeSlot hactive hclose).before (sendResponsef_all plain_jobless _ _) htell
      (amid_response htell)
  · obtain ⟨client, hanswer, rfl⟩ := amid_map h
    obtain ⟨_, hrun, rfl⟩ := amid_map hanswer
    have hsame : ({ m with clients := m.clients.set i (m.clients.get i) } : MainState) = m :=
      put_get m i
    rw [hsame]
    obtain ⟨hspares, hgrows⟩ := amid_answerUser hrun
    have hsockets := amid_within (answerCommand_all (fun _ _ ho _ => ho) _ _) hrun
    exact ⟨rfl, fun _ _ => rfl, .inl ⟨rfl, hsockets⟩, hspares, hgrows⟩

theorem confined_clientCommand {i : Nat} (hactive : (m.clients.get i).active = true)
    (huser : (m.clients.get i).type ≠ .admin)
    (h : Amid codec cfg (handleClientCommand cfg dt m i (m.clients.get i)) s m' s') :
    Confined codec cfg (nextRequest s (m.clients.get i).fd) m i s m' s' := by
  obtain ⟨line, s₁, hread, hrest⟩ := amid_bind.mp h
  have hline := amid_readLine hread
  have hjobless : (call (.readLine (m.clients.get i).fd)).All fun o => o.ofJobs = false :=
    (Prog.all_perform (C := fun o : Op => o.ofJobs = false) _).mpr rfl
  refine Confined.before ?_ hjobless hread (amid_call hread)
  split at hrest
  · exact confined_closeSlot hactive hrest
  · rw [nextRequest, ← hline]
    simp only [huser, if_false] at hrest
    exact confined_userCommand hactive hrest

/-- Steps that create no job and write no file. -/
def Leaves (s s' : Sys) : Prop :=
  s'.world.files = s.world.files ∧ s'.world.jobs.length = s.world.jobs.length

/-- What an admin's command may perform. -/
def Op.ofAdmin : Op → Bool
  | .requestCancel _ | .readLine _ | .close _ => true
  | o => o.plain

theorem exec_leaves {e : Env} {t : Tid} {w w' : World} {o : Op} {b : Ans o} {marks : List Mark}
    (ho : o.ofAdmin = true) (h : exec codec e t w o = some (b, w', marks)) :
    w'.files = w.files ∧ w'.jobs.length = w.jobs.length := by
  have heffect := exec_effect h
  cases heffect with
  | quiet hcore hfiles => exact ⟨hfiles, by rw [hcore.jobs]⟩
  | input _ hcore hfiles => exact ⟨hfiles, by rw [hcore.jobs]⟩
  | file hwrites => cases o <;> cases hwrites <;> cases ho
  | canceled => exact ⟨rfl, World.updateJob_length _ _ _⟩
  | _ => cases ho

theorem plain_ofAdmin (o : Op) (ho : o.plain = true) : o.ofAdmin = true := by
  cases o <;> first
    | rfl
    | cases ho

theorem amid_ofAdmin (hp : p.All fun o => o.ofAdmin = true) (h : Amid codec cfg p s a s') :
    Amidst codec cfg Leaves s s' ∧ s'.world.jobs.length = s.world.jobs.length := by
  constructor
  · refine RunsAmid.interleaves ?_ hp h
    rintro o s₁ b s₂ ho ⟨e, marks, -, hexec, -⟩
    exact exec_leaves ho hexec
  · refine h.preserves (P := fun s₁ => s₁.world.jobs.length = s.world.jobs.length) ?_ ?_ hp rfl
    · exact fun _ _ hs henv => (others_length henv).trans hs
    · rintro o s₁ b s₂ ho hs ⟨e, marks, -, hexec, -⟩
      exact (exec_leaves ho hexec).2.trans hs

theorem handleAdminCommand_ofAdmin (i : Nat) (admin : ClientSession) (request : ProtocolRequest) :
    (handleAdminCommand dt m i admin request).All fun o => o.ofAdmin = true :=
  handleAdminCommand_all plain_ofAdmin dt m i admin request (fun _ _ => rfl) fun _ => rfl

theorem amid_adminLine {i : Nat} (hadmin : (m.clients.get i).type = .admin)
    (h : Amid codec cfg (handleClientCommand cfg dt m i (m.clients.get i)) s m' s') :
    Amidst codec cfg Leaves s s' ∧ s'.world.jobs.length = s.world.jobs.length := by
  have hclose : (closeClient (m.clients.get i)).All fun o => o.ofAdmin = true :=
    closeClient_all _ rfl
  have hall : (handleClientCommand cfg dt m i (m.clients.get i)).All fun o => o.ofAdmin = true := by
    refine ((Prog.all_perform (C := fun o : Op => o.ofAdmin = true) _).mpr rfl).bind fun line => ?_
    split
    · exact hclose.bind fun _ => Prog.all_pure _
    · simp only [hadmin, if_true]
      exact handleAdminCommand_ofAdmin _ _ _
  exact amid_ofAdmin hall h

/-- Whatever line a session sends, and whatever follows it: a user's command stays within
the session and the job it names, and an admin's creates no job and writes no file. -/
theorem commands_confined {i : Nat} (hactive : (m.clients.get i).active = true)
    (h : Amid codec cfg (handleClientCommand cfg dt m i (m.clients.get i)) s m' s') :
    ((m.clients.get i).type = .user →
      Confined codec cfg (nextRequest s (m.clients.get i).fd) m i s m' s') ∧
      ((m.clients.get i).type = .admin →
        Amidst codec cfg Leaves s s' ∧ s'.world.jobs.length = s.world.jobs.length) :=
  ⟨fun huser => confined_clientCommand hactive (by rw [huser]; exact nofun) h,
    fun hadmin => amid_adminLine hadmin h⟩

/-- A user whose next line is at hand. -/
def oneUser : MainState := MainState.put {} 0 (newSession 9 .user (lit "10.0.0.7"))

def submits : Sys where
  world := { files := fun _ => none, streams := fun _ => [.chunk 83 (lit "UBMIT hello\n")] }
  history := []

theorem commands_confined_submits :
    ∃ m' s', Confined boundedCodec runtimeConfigDefaults
      (nextRequest submits 9) oneUser 0 submits m' s' ∧
      s'.world.jobs.length = 1 := by
  have hexecutes : (execute boundedCodec .main
      (handleClientCommand runtimeConfigDefaults plainDurations oneUser 0 (oneUser.clients.get 0))
        (fun _ => {})
      submits).map (·.2.world.jobs.length) = some 1 := by
    decide +kernel
  obtain ⟨⟨m', s'⟩, hrun, hlength⟩ := Option.map_eq_some_iff.mp hexecutes
  have hamid : Amid boundedCodec runtimeConfigDefaults _ submits m' s' :=
    (execute_runs hrun).amid fun _ => .refl
  exact ⟨m', s', (commands_confined rfl hamid).1 rfl, hlength⟩

end

end StegaPng
