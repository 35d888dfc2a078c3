import StegaPng.Server

/-! Which operations the main thread's code performs. -/

namespace StegaPng

open Interleaving

/-- Operations that may have to wait for another thread. -/
def Op.waits : Op → Bool
  | .pop => true
  | .join _ => true
  | _ => false

/-- Operations by which a session begins, takes a line or ends. -/
def Op.ofSession : Op → Bool
  | .accept _ | .readLine _ | .close _ => true
  | _ => false

/-- Operations that change jobs or the queue. -/
def Op.ofJobs : Op → Bool
  | .createJob .. | .setJob .. | .requestCancel _ | .push _ => true
  | _ => false

/-- Operations that read from no other session, and create no job for another. -/
def Op.onBehalfOf (client : ClientSession) : Op → Prop
  | .readLine f | .readExact f _ | .discardExact f _ | .read f _ => f = client.fd
  | .createJob owner_fd owner_ip .. => owner_fd = client.fd ∧ owner_ip = client.addr_str
  | _ => True

/-- Operations that only look, answer and wait for events. -/
def Op.plain : Op → Bool
  | .gRunning | .findJob _ | .nextId | .jobCount | .getJob .. | .poll _ | .drain _ | .writeAll ..
  | .fopenRb _ | .freadAll _ | .stat _ => true
  | _ => false

/-- An operation that does not wait has an outcome in every state. -/
theorem exists_step {adm : Env → Prop} (hadm : ∃ e, adm e) (codec : PngCodec) (t : Tid) {o : Op}
    (ho : o.waits = false) (s : Sys) : ∃ a s', (machineIn adm codec).step t o s a s' := by
  obtain ⟨e, he⟩ := hadm
  have hexec : (exec codec e t s.world o).isSome = true := by
    cases o with
    | pop => cases ho
    | join i => cases ho
    | createJob owner_fd owner_ip type payload input_path =>
      simp only [exec]
      split
      · rfl
      · split <;> rfl
    | push job =>
      simp only [exec]
      split
      · rfl
      · split <;> rfl
    | accept fd =>
      simp only [exec]
      split <;> rfl
    | pngLoad path =>
      simp only [exec]
      split <;> rfl
    | _ => rfl
  obtain ⟨⟨a, w, marks⟩, hr⟩ := Option.isSome_iff_exists.mp hexec
  exact ⟨a, ⟨w, marks ++ s.history⟩, e, marks, he, hr, rfl⟩

theorem closeClient_all {C : Op → Prop} (client : ClientSession) (hclose : C (.close client.fd)) :
    (closeClient client).All C := by
  unfold closeClient
  split
  · trivial
  · exact ((Prog.all_perform _).mpr hclose).bind fun _ => Prog.all_pure _

section

variable {C : Op → Prop} (hplain : ∀ o : Op, o.plain = true → C o)

include hplain

theorem call_all {o : Op} (ho : o.plain = true) : (call o).All C :=
  (Prog.all_perform o).mpr (hplain o ho)

theorem sendResponsef_all (fd : Int) (text : Bytes) : (sendResponsef fd text).All C := by
  unfold sendResponsef
  split
  · trivial
  · exact call_all hplain rfl

-- the text of a response is not evaluated below
attribute [local irreducible] sendResponsef

theorem respond_all (fd : Int) (text : Bytes) :
    (do let _ ← sendResponsef fd text : Task Unit).All C :=
  (sendResponsef_all hplain fd text).bind fun _ => Prog.all_pure _

theorem withJob_all (fd : Int) (job_id : UInt64) {handle : Nat → Task Unit}
    (h : ∀ job, (handle job).All C) :
    (withJob fd job_id handle).All C := by
  refine (call_all hplain rfl).bind fun found => ?_
  cases found with
  | none => exact respond_all hplain fd _
  | some job => exact h job

theorem handleStatus_all (fd : Int) (job_id : UInt64) (job : Nat) :
    (handleStatus fd job_id job).All C :=
  (call_all hplain rfl).bind fun _ => respond_all hplain fd _

theorem handleResult_all (fd : Int) (job_id : UInt64) (job : Nat) :
    (handleResult fd job_id job).All C := by
  refine (call_all hplain rfl).bind fun st => ?_
  split
  · exact respond_all hplain fd _
  · exact (call_all hplain rfl).bind fun _ => respond_all hplain fd _

theorem handleMeta_all (fd : Int) (job_id : UInt64) (job : Nat) :
    (handleMeta fd job_id job).All C := by
  refine (call_all hplain rfl).bind fun st => ?_
  split
  · exact respond_all hplain fd _
  · exact (call_all hplain rfl).bind fun _ => respond_all hplain fd _

theorem storageSendFile_all (fd : Int) (path : Bytes) : (storageSendFile fd path).All C := by
  refine (call_all hplain rfl).bind fun found => ?_
  split
  · trivial
  · refine (call_all hplain rfl).bind fun read => ?_
    refine (call_all hplain rfl).bind fun sent => ?_
    split <;> trivial

theorem handleDownload_all (fd : Int) (job : Nat) : (handleDownload fd job).All C := by
  refine (call_all hplain rfl).bind fun st => ?_
  split
  · exact respond_all hplain fd _
  · refine (call_all hplain rfl).bind fun path => ?_
    split
    · exact respond_all hplain fd _
    · refine (call_all hplain rfl).bind fun size => ?_
      split
      · exact respond_all hplain fd _
      · refine (sendResponsef_all hplain fd _).bind fun sent => ?_
        split
        · exact (storageSendFile_all hplain fd path).bind fun _ => Prog.all_pure _
        · trivial

theorem handleCancel_all (fd : Int) (job_id : UInt64) (refused : Bytes) (job : Nat)
    (hcancel : C (.requestCancel job)) :
    (handleCancel fd job_id refused job).All C := by
  refine ((Prog.all_perform _).mpr hcancel).bind fun accepted => ?_
  split <;> exact respond_all hplain fd _

theorem handleKick_all (m : MainState) (fd : Int) (argument : Bytes) :
    (handleKick m fd argument).All C := by
  unfold handleKick
  split
  · exact (sendResponsef_all hplain fd _).bind fun _ => Prog.all_pure _
  · split
    · exact (sendResponsef_all hplain fd _).bind fun _ => Prog.all_pure _
    · exact (sendResponsef_all hplain _ _).bind fun _ =>
        (sendResponsef_all hplain fd _).bind fun _ => Prog.all_pure _

theorem handleBlockIp_all (m : MainState) (fd : Int) (ip : Bytes) :
    (handleBlockIp m fd ip).All C := by
  unfold handleBlockIp
  split
  · exact (sendResponsef_all hplain fd _).bind fun _ => Prog.all_pure _
  · split <;> exact (sendResponsef_all hplain fd _).bind fun _ => Prog.all_pure _

theorem handleUnblockIp_all (m : MainState) (fd : Int) (ip : Bytes) :
    (handleUnblockIp m fd ip).All C := by
  unfold handleUnblockIp
  split
  · exact (sendResponsef_all hplain fd _).bind fun _ => Prog.all_pure _
  · split <;> exact (sendResponsef_all hplain fd _).bind fun _ => Prog.all_pure _

theorem collectStatsLoop_all (left i : Nat) (st : JobStats) :
    (collectStatsLoop left i st).All C := by
  induction left generalizing i st with
  | zero => trivial
  | succ left ih => exact (call_all hplain rfl).bind fun _ => ih _ _

theorem jobTableCollectStats_all : jobTableCollectStats.All C :=
  (call_all hplain rfl).bind fun _ => collectStatsLoop_all hplain _ _ _

theorem jobTableFormatListLoop_all (size left i : Nat) (out : Bytes) :
    (jobTableFormatListLoop size left i out).All C := by
  induction left generalizing i out with
  | zero => trivial
  | succ left ih =>
    refine (call_all hplain rfl).bind fun job => ?_
    dsimp only
    split
    · exact Prog.all_pure _
    · exact ih _ _

theorem jobTableFormatList_all (size : Nat) : (jobTableFormatList size).All C := by
  refine (call_all hplain rfl).bind fun count => ?_
  split
  · trivial
  · exact jobTableFormatListLoop_all hplain _ _ _ _

theorem jobTableFormatHistoryLoop_all (dt : DurationText) (size i budget : Nat) (out : Bytes) :
    (jobTableFormatHistoryLoop dt size i budget out).All C := by
  induction i generalizing budget out with
  | zero => trivial
  | succ i ih =>
    unfold jobTableFormatHistoryLoop
    split
    · trivial
    · refine (call_all hplain rfl).bind fun job => ?_
      split
      · dsimp only
        split <;> exact ih _ _
      · exact ih _ _

theorem jobTableFormatHistory_all (dt : DurationText) (size items : Nat) :
    (jobTableFormatHistory dt size items).All C :=
  (call_all hplain rfl).bind fun _ => (jobTableFormatHistoryLoop_all hplain _ _ _ _ _).bind fun _ =>
    Prog.all_pure _

/-- Admin commands are plain, CANCEL and QUIT apart. -/
theorem handleAdminCommand_all (dt : DurationText) (m : MainState) (i : Nat) (admin : ClientSession)
    (request : ProtocolRequest)
    (hcancel : request.command = .cancel → ∀ job, C (.requestCancel job))
    (hquit : request.command = .quit → C (.close admin.fd)) :
    (handleAdminCommand dt m i admin request).All C := by
  have hrespond : ∀ text, (sendResponsef admin.fd text >>= fun _ => pure m).All C :=
    fun text => (sendResponsef_all hplain admin.fd text).bind fun _ => Prog.all_pure _
  unfold handleAdminCommand
  split
  · exact hrespond _
  · exact hrespond _
  · refine (jobTableCollectStats_all hplain).bind fun st => ?_
    dsimp only
    exact hrespond _
  · refine (jobTableCollectStats_all hplain).bind fun st => ?_
    exact hrespond _
  · refine (jobTableFormatList_all hplain _).bind fun list => ?_
    exact hrespond _
  · refine (jobTableFormatHistory_all hplain _ _ _).bind fun hist => ?_
    exact hrespond _
  · dsimp only
    exact hrespond _
  · next hcommand =>
    refine Prog.All.bind ?_ fun _ => Prog.all_pure _
    exact withJob_all hplain _ _ fun job => handleCancel_all hplain _ _ _ job (hcancel hcommand job)
  · exact handleKick_all hplain m _ _
  · exact handleBlockIp_all hplain m _ _
  · exact handleUnblockIp_all hplain m _ _
  · next hcommand =>
    refine (sendResponsef_all hplain _ _).bind fun _ => ?_
    exact (closeClient_all admin (hquit hcommand)).bind fun _ => Prog.all_pure _
  · exact hrespond _

/-- A user command that neither submits a job nor uploads anything is plain, CANCEL apart. -/
theorem answerUserCommand_all (cfg : RuntimeConfig) (client : ClientSession)
    (request : ProtocolRequest)
    (hcancel : request.command = .cancel → ∀ job, C (.requestCancel job))
    (h : request.command ∉ [ProtocolCommand.submit, .encodeText, .encodeFile, .decode,
      .validate, .capacity,
      .validateImage, .analyzeCapacity]) : (answerUserCommand cfg client request).All C := by
  have hrespond : ∀ text, (sendResponsef client.fd text >>= fun _ => pure ()).All C :=
    fun text => (sendResponsef_all hplain client.fd text).bind fun _ => Prog.all_pure _
  cases hcommand : request.command <;> simp only [hcommand, List.mem_cons, reduceCtorEq,
    List.not_mem_nil, or_self, or_false, or_true, not_true_eq_false] at h <;>
      simp only [answerUserCommand, hcommand]
  case status => exact withJob_all hplain _ _ fun job => handleStatus_all hplain _ _ job
  case result => exact withJob_all hplain _ _ fun job => handleResult_all hplain _ _ job
  case jobMeta => exact withJob_all hplain _ _ fun job => handleMeta_all hplain _ _ job
  case download => exact withJob_all hplain _ _ fun job => handleDownload_all hplain _ job
  case cancel => exact withJob_all hplain _ _ fun job =>
    handleCancel_all hplain _ _ _ job (hcancel hcommand job)
  all_goals exact hrespond _

theorem drainIfReady_all (r : Revents) (fd : Int) : (drainIfReady r fd).All C := by
  unfold drainIfReady
  split
  · exact call_all hplain rfl
  · trivial

/-! The poll loop around the commands. -/

variable (hclose : ∀ fd, C (.close fd))

include hclose

theorem rejectConnection_all (m : MainState) (fd : Int) (text : Bytes) :
    (rejectConnection m fd text).All C := by
  refine (sendResponsef_all hplain fd text).bind fun _ => ?_
  exact ((Prog.all_perform _).mpr (hclose fd)).bind fun _ => Prog.all_pure _

theorem admitConnection_all (m : MainState) (fd : Int) (type : ClientType) (addr : Bytes) :
    (admitConnection m fd type addr).All C := by
  unfold admitConnection
  split
  · exact rejectConnection_all hplain hclose m fd _
  · exact (sendResponsef_all hplain fd _).bind fun _ => Prog.all_pure _

theorem acceptNewInetConnection_all (m : MainState) (fd : Int) (type : ClientType) (single : Bool)
    (haccept : C (.accept fd)) : (acceptNewInetConnection m fd type single).All C := by
  refine ((Prog.all_perform _).mpr haccept).bind fun accepted => ?_
  cases accepted with
  | none => trivial
  | some c =>
    dsimp only
    split
    · exact (rejectConnection_all hplain hclose m _ _).bind fun _ => Prog.all_pure _
    · split
      · exact (rejectConnection_all hplain hclose m _ _).bind fun _ => Prog.all_pure _
      · exact (admitConnection_all hplain hclose m _ _ _).bind fun _ => Prog.all_pure _

theorem acceptNewUnixConnection_all (m : MainState) (fd : Int) (haccept : C (.accept fd)) :
    (acceptNewUnixConnection m fd).All C := by
  refine ((Prog.all_perform _).mpr haccept).bind fun accepted => ?_
  cases accepted with
  | none => trivial
  | some c => exact (admitConnection_all hplain hclose m _ _ _).bind fun _ => Prog.all_pure _

omit hplain in
theorem sweepKicked_all (left i : Nat) (clients : Clients) :
    (sweepKicked left i clients).All C := by
  induction left generalizing i clients with
  | zero => trivial
  | succ left ih =>
    unfold sweepKicked
    dsimp only
    split
    · exact (closeClient_all _ (hclose _)).bind fun _ => ih _ _
    · exact ih _ _

end

/-- The answers that refuse a declared size. -/
def sizeErrors : List Bytes :=
  [lit "ERR invalid png size\n", lit "ERR text too large\n", lit "ERR file too large\n",
    lit "ERR filename too long\n"]

theorem jobReply_not_sizeError (text : Bytes) : lit "JOB " ++ text ++ lit "\n" ∉ sizeErrors := by
  simp [sizeErrors, lit]

def Op.refusesSize : Op → Bool
  | .writeAll _ bytes => decide (bytes ∈ sizeErrors)
  | _ => false

/-- A declared size of the upload command fails its check. -/
def SizeRefused (cfg : RuntimeConfig) (request : ProtocolRequest) : Prop :=
  let badPng := request.size1 = 0 ∨ request.size1 > cfg.max_upload_bytes
  match request.command with
  | .encodeText => badPng ∨ request.size2 > UInt64.ofNat maxTextBytes
  | .encodeFile =>
    request.size2.toNat > maxFilenameBytes ∨ badPng ∨ request.size3 > cfg.max_upload_bytes
  | .decode | .validate | .capacity => badPng
  | _ => False

section

variable {C : Op → Prop} {client : ClientSession}
  (hreceive : ∀ o : Op, o.waits = false → o.ofSession = false →
  o.ofJobs = false → o.onBehalfOf client → o.refusesSize = false → C o)

include hreceive

theorem receive_all {o : Op} (ho : o.waits = false) (hs : o.ofSession = false)
    (hj : o.ofJobs = false) (hf : o.onBehalfOf client) (hr : o.refusesSize = false) :
    (call o).All C :=
  (Prog.all_perform o).mpr (hreceive o ho hs hj hf hr)

theorem reply_all (fd : Int) {text : Bytes} (htext : text ∉ sizeErrors) :
    (sendResponsef fd text).All C := by
  rw [sendResponsef]
  split
  · trivial
  · exact receive_all hreceive rfl rfl rfl trivial (decide_eq_false htext)

theorem receiveLoop_all (path : Bytes) (n : Nat) : (receiveLoop client.fd path n).All C := by
  induction n using Nat.strong_induction_on with
  | _ n ih =>
    rw [receiveLoop]
    split
    · trivial
    · refine (receive_all hreceive rfl rfl rfl (by trivial) rfl).bind fun r => ?_
      cases r with
      | error => trivial
      | eof => trivial
      | data b bs =>
        refine (receive_all hreceive rfl rfl rfl (by trivial) rfl).bind fun written => ?_
        split
        · trivial
        · exact ih _ (by omega)

theorem storageReceiveToFile_all (n : Nat) (path : Bytes) :
    (storageReceiveToFile client.fd n path).All C := by
  have hcall : ∀ {o : Op}, o.waits = false → o.ofSession = false → o.ofJobs = false →
    o.onBehalfOf client →
      o.refusesSize = false → (call o).All C := receive_all hreceive
  refine (hcall rfl rfl rfl (by trivial) rfl).bind fun opened => ?_
  split
  · trivial
  · refine (receiveLoop_all hreceive path n).bind fun received => ?_
    split
    · exact (hcall rfl rfl rfl (by trivial) rfl).bind fun _ =>
        (hcall rfl rfl rfl (by trivial) rfl).bind fun _ => Prog.all_pure _
    · refine (hcall rfl rfl rfl (by trivial) rfl).bind fun closed => ?_
      split
      · exact (hcall rfl rfl rfl (by trivial) rfl).bind fun _ => Prog.all_pure _
      · trivial

theorem receivePngToUpload_all (cfg : RuntimeConfig) (size : UInt64)
    (hsize : size = 0 ∨ size > cfg.max_upload_bytes → ∀ text, C (.writeAll client.fd text)) :
    (receivePngToUpload cfg client size).All C := by
  have hanswer : ∀ text, text ∉ sizeErrors →
      (sendResponsef client.fd text >>= fun _ => pure (none : Option Bytes)).All C :=
    fun text htext => (reply_all hreceive client.fd htext).bind fun _ => Prog.all_pure _
  unfold receivePngToUpload
  split
  · next hbad =>
    refine Prog.All.bind ?_ fun _ => Prog.all_pure _
    rw [sendResponsef]
    split
    · trivial
    · exact (Prog.all_perform _).mpr (hsize hbad _)
  · refine (receive_all hreceive rfl rfl rfl (by trivial) rfl).bind fun next_id => ?_
    split
    · exact hanswer _ (by decide)
    · refine (storageReceiveToFile_all hreceive _ _).bind fun received => ?_
      split
      · exact hanswer _ (by decide)
      · trivial

theorem receiveExtraToFile_all (cfg : RuntimeConfig) (size max : UInt64) (label : Bytes) (seq : Nat)
    (suffix : Bytes) (hsize : size > max → ∀ text, C (.writeAll client.fd text))
    (hlabel : lit "ERR " ++ label ++ lit " receive failed\n" ∉ sizeErrors) :
    (receiveExtraToFile cfg client.fd size max label seq suffix).All C := by
  have hanswer : ∀ text, text ∉ sizeErrors →
      (sendResponsef client.fd text >>= fun _ => pure (none : Option Bytes)).All C :=
    fun text htext => (reply_all hreceive client.fd htext).bind fun _ => Prog.all_pure _
  unfold receiveExtraToFile
  split
  · next hbad =>
    refine Prog.All.bind ?_ fun _ => Prog.all_pure _
    rw [sendResponsef]
    split
    · trivial
    · exact (Prog.all_perform _).mpr (hsize hbad _)
  · split
    · exact hanswer _ (by decide)
    · split
      · refine (receive_all hreceive rfl rfl rfl (by trivial) rfl).bind fun opened => ?_
        split
        · exact hanswer _ (by decide)
        · refine (receive_all hreceive rfl rfl rfl (by trivial) rfl).bind fun closed => ?_
          split
          · exact hanswer _ (by decide)
          · trivial
      · refine (storageReceiveToFile_all hreceive _ _).bind fun received => ?_
        split
        · exact hanswer _ hlabel
        · trivial

end

section

variable {C : Op → Prop} {client : ClientSession}
  (hprompt : ∀ o : Op, o.waits = false → o.ofSession = false →
  o.onBehalfOf client → o.refusesSize = false → C o)

include hprompt

theorem prompt_all {o : Op} (ho : o.waits = false) (hs : o.ofSession = false)
    (hf : o.onBehalfOf client) (hr : o.refusesSize = false) : (call o).All C :=
  (Prog.all_perform o).mpr (hprompt o ho hs hf hr)

theorem receiving (o : Op) (ho : o.waits = false) (hs : o.ofSession = false) (_ : o.ofJobs = false)
    (hf : o.onBehalfOf client) (hr : o.refusesSize = false) : C o :=
  hprompt o ho hs hf hr

theorem enqueueJob_all (type : JobType) (payload input_path stored_path : Option Bytes) :
    (enqueueJob client type payload input_path stored_path).All C := by
  have hcall : ∀ {o : Op}, o.waits = false → o.ofSession = false → o.onBehalfOf client →
    o.refusesSize = false →
      (call o).All C := prompt_all hprompt
  refine (hcall rfl rfl (by trivial) rfl).bind fun created => ?_
  cases created with
  | none => exact reply_all (receiving hprompt) _ (by decide)
  | some job =>
    have hpush : Prog.All C (do
        if !(← call (.push job)) then
          jobSetResult job (lit "enqueue failed")
          jobSetState job .failed
          sendResponsef client.fd (lit "ERR cannot enqueue job\n")
        else
          sendResponsef client.fd (lit "JOB " ++ decimal (← jobId job) ++ lit "\n")) := by
      refine (hcall rfl rfl (by trivial) rfl).bind fun pushed => ?_
      split
      · refine (hcall rfl rfl (by trivial) rfl).bind fun _ =>
          (hcall rfl rfl (by trivial) rfl).bind fun _ => ?_
        exact reply_all (receiving hprompt) _ (by decide)
      · exact (hcall rfl rfl (by trivial) rfl).bind fun id =>
          reply_all (receiving hprompt) _ (jobReply_not_sizeError _)
    cases stored_path with
    | none => exact hpush
    | some path => exact (hcall rfl rfl (by trivial) rfl).bind fun _ => hpush

theorem handleEncodeText_all (cfg : RuntimeConfig) (request : ProtocolRequest)
    (hcommand : request.command = .encodeText)
    (hsize : SizeRefused cfg request → ∀ text, C (.writeAll client.fd text)) :
    (handleEncodeText cfg client request).All C := by
  simp only [SizeRefused, hcommand] at hsize
  refine (receivePngToUpload_all (receiving hprompt) _ _ fun hbad => hsize (.inl hbad)).bind
    fun png => ?_
  cases png with
  | none => trivial
  | some png_path =>
    refine (prompt_all hprompt rfl rfl (by trivial) rfl).bind fun next_id => ?_
    refine (receiveExtraToFile_all (receiving hprompt) _ _ _ _ _ _
      (fun hbad => hsize (.inr hbad)) ?_).bind fun text => ?_
    · decide
    · cases text with
      | none => trivial
      | some text_path => exact (enqueueJob_all hprompt _ _ _ _).bind fun _ => Prog.all_pure _

theorem handleEncodeFileBody_all (cfg : RuntimeConfig) (request : ProtocolRequest)
    (png_path filename : Bytes)
    (hsize : request.size3 > cfg.max_upload_bytes → ∀ text, C (.writeAll client.fd text)) :
    (handleEncodeFileBody cfg client request png_path filename).All C := by
  refine (prompt_all hprompt rfl rfl (by trivial) rfl).bind fun next_id => ?_
  refine (receiveExtraToFile_all (receiving hprompt) _ _ _ _ _ _ hsize ?_).bind fun file => ?_
  · decide
  · cases file with
    | none => trivial
    | some file_path => exact (enqueueJob_all hprompt _ _ _ _).bind fun _ => Prog.all_pure _

theorem handleEncodeFile_all (cfg : RuntimeConfig) (request : ProtocolRequest)
    (hcommand : request.command = .encodeFile)
    (hsize : SizeRefused cfg request → ∀ text, C (.writeAll client.fd text)) :
    (handleEncodeFile cfg client request).All C := by
  simp only [SizeRefused, hcommand] at hsize
  have hbody : ∀ png_path filename,
    (handleEncodeFileBody cfg client request png_path filename).All C :=
    fun png_path filename => handleEncodeFileBody_all hprompt cfg request png_path filename
      fun hbad => hsize (.inr (.inr hbad))
  have hanswer : (sendResponsef client.fd (lit "ERR filename read failed\n") >>=
    fun _ => pure ()).All C :=
    (reply_all (receiving hprompt) _ (by decide)).bind fun _ => Prog.all_pure _
  unfold handleEncodeFile
  split
  · next hbad =>
    refine (prompt_all hprompt rfl rfl (by trivial) rfl).bind fun discarded =>
      Prog.All.bind ?_ fun _ => Prog.all_pure _
    rw [sendResponsef]
    split
    · trivial
    · exact (Prog.all_perform _).mpr (hsize (.inl hbad) _)
  · refine (receivePngToUpload_all (receiving hprompt) _ _ fun hbad =>
      hsize (.inr (.inl hbad))).bind fun png => ?_
    cases png with
    | none => trivial
    | some png_path =>
      dsimp only
      split
      · refine (prompt_all hprompt rfl rfl (by trivial) rfl).bind fun name => ?_
        cases name with
        | none => exact hanswer
        | some filename =>
          dsimp only
          split
          · exact hanswer
          · exact hbody _ _
      · exact hbody _ _

theorem handlePngUpload_all (cfg : RuntimeConfig) (request : ProtocolRequest)
    (type : JobType)
    (hsize : request.size1 = 0 ∨ request.size1 > cfg.max_upload_bytes → ∀ text,
      C (.writeAll client.fd text)) :
    (handlePngUpload cfg client request type).All C := by
  refine (receivePngToUpload_all (receiving hprompt) _ _ hsize).bind fun png => ?_
  cases png with
  | none => trivial
  | some png_path => exact (enqueueJob_all hprompt _ _ _ _).bind fun _ => Prog.all_pure _

/-- An upload command whose declared sizes pass the checks answers no size error. -/
theorem answerUpload_all (cfg : RuntimeConfig) (request : ProtocolRequest)
    (hcommand : request.command ∈ uploadCommands)
    (hsize : SizeRefused cfg request → ∀ text, C (.writeAll client.fd text)) :
    (answerUserCommand cfg client request).All C := by
  simp only [uploadCommands, List.mem_cons, List.not_mem_nil, or_false] at hcommand
  rcases hcommand with h | h | h | h | h <;> simp only [answerUserCommand, h]
  · exact handleEncodeText_all hprompt _ _ h hsize
  · exact handleEncodeFile_all hprompt _ _ h hsize
  all_goals
    simp only [SizeRefused, h] at hsize
    exact handlePngUpload_all hprompt _ _ _ hsize

end

section

variable {C : Op → Prop} {client : ClientSession}
  (hcalm : ∀ o : Op, o.waits = false → o.ofSession = false → o.onBehalfOf client → C o)

include hcalm

theorem plain_calm (o : Op) (ho : o.plain = true) : C o := by
  refine hcalm o ?_ ?_ ?_ <;> cases o <;> trivial

theorem handleArgument_all (request : ProtocolRequest) (empty : Bytes)
    {enqueue : Task Bool} (h : enqueue.All C) :
    (handleArgument client request empty enqueue).All C := by
  unfold handleArgument
  split
  · exact (sendResponsef_all (plain_calm hcalm) _ _).bind fun _ => Prog.all_pure _
  · exact h.bind fun _ => Prog.all_pure _

/-- Answering a user's command stays within the session. -/
theorem answerCommand_all (cfg : RuntimeConfig) (request : ProtocolRequest) :
    (answerUserCommand cfg client request).All C := by
  have hprompt : ∀ o : Op, o.waits = false → o.ofSession = false → o.onBehalfOf client →
    o.refusesSize = false →
      C o := fun o ho hs hf _ => hcalm o ho hs hf
  have henqueue := fun type payload input_path =>
    enqueueJob_all hprompt type payload input_path none
  by_cases hupload : request.command ∈ uploadCommands
  · exact answerUpload_all hprompt _ _ hupload fun _ _ => hcalm _ rfl rfl trivial
  · by_cases hsubmit : request.command ∈ [ProtocolCommand.submit, .validateImage, .analyzeCapacity]
    · simp only [List.mem_cons, List.not_mem_nil, or_false] at hsubmit
      rcases hsubmit with h | h | h <;> simp only [answerUserCommand, h] <;>
        exact handleArgument_all hcalm _ _ (henqueue _ _ _)
    · refine answerUserCommand_all (plain_calm hcalm) _ _ _ (fun _ _ => hcalm _ rfl rfl trivial) ?_
      simp only [uploadCommands, List.mem_cons, List.not_mem_nil, or_false,
        not_or] at hupload hsubmit ⊢
      tauto

theorem handleUserCommand_all (cfg : RuntimeConfig) (request : ProtocolRequest)
    (hquit : request.command = .quit → C (.close client.fd)) :
    (handleUserCommand cfg client request).All C := by
  unfold handleUserCommand
  split
  · next hcommand =>
    exact (sendResponsef_all (plain_calm hcalm) _ _).bind fun _ =>
      closeClient_all client (hquit hcommand)
  · exact (answerCommand_all hcalm _ _).bind fun _ => Prog.all_pure _

/-- Answering a command reads a line of the session, and may close it. -/
theorem handleClientCommand_all (cfg : RuntimeConfig) (dt : DurationText) (m : MainState) (i : Nat)
    (hline : C (.readLine client.fd)) (hclose : C (.close client.fd)) :
    (handleClientCommand cfg dt m i client).All C := by
  refine ((Prog.all_perform _).mpr hline).bind fun line => ?_
  split
  · exact (closeClient_all client hclose).bind fun _ => Prog.all_pure _
  · dsimp only
    split
    · exact handleAdminCommand_all (plain_calm hcalm) _ _ _ _ _ (fun _ _ => hcalm _ rfl rfl trivial)
        fun _ => hclose
    · exact (handleUserCommand_all hcalm _ _ fun _ => hclose).bind fun _ => Prog.all_pure _

end

end StegaPng
