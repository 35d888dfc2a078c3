import StegaPng.Inventory
import StegaPng.Worker

/-! Which operations each thread's code keeps to: a worker never stops the server, and
the poll loop never waits for a worker. -/

namespace StegaPng

open Interleaving

/-- The operations of `worker_main`. -/
def Op.ofWorker : Op → Bool
  | .readRunning | .exit _ | .pop | .getJob .. | .setJob .. | .writeEvent .. | .nanosleep | .heap
  | .fopenWb _ | .fwrite .. | .fclose _ | .unlink _ | .fopenRb _ | .fsize _ | .fread .. | .stat _
  | .pngCreate | .pngWrite .. | .pngLoad _ | .pngMetadata _ => true
  | _ => false

/-- The operations of an iteration of the poll loop. -/
def Op.ofLoop : Op → Bool
  | .gRunning | .createJob .. | .findJob _ | .nextId | .jobCount | .getJob .. | .setJob ..
      | .requestCancel _
  | .push _ | .poll _ | .accept _ | .close _ | .drain _ | .readLine _ | .readExact ..
      | .discardExact ..
  | .read .. | .writeAll .. | .fopenWb _ | .fwrite .. | .fclose _ | .unlink _ | .fopenRb
      _ | .freadAll _
  | .stat _ => true
  | _ => false

theorem Op.ofWorker.pop {o : Op} (h : o.ofWorker = true) (hwaits : o.waits = true) : o = .pop := by
  cases o <;> simp_all [Op.ofWorker, Op.waits]

theorem Op.ofLoop.prompt {o : Op} (h : o.ofLoop = true) : o.waits = false := by
  cases o <;> simp_all [Op.ofLoop, Op.waits]

/-! The workers. -/

section

variable {cfg : RuntimeConfig}

abbrev Task.Works {α : Type} (p : Task α) : Prop := p.All fun o => o.ofWorker = true

theorem works_call {o : Op} (ho : o.ofWorker = true) : (call o).Works := (Prog.all_perform o).mpr ho

theorem works_endJob (job : Nat) (result : Bytes) (s : JobState) (rc : Int) :
    (endJob job result s rc).Works := by
  refine (works_call rfl).bind fun _ => ?_
  exact (works_call rfl).bind fun _ => Prog.all_pure _

theorem works_textSteps (job : Nat) (final_result : Bytes) (steps : Nat) :
    (textSteps job final_result steps).Works := by
  induction steps with
  | zero => exact works_endJob _ _ _ _
  | succ steps ih =>
    refine (works_call rfl).bind fun _ => (works_call rfl).bind fun canceled => ?_
    split
    · exact works_endJob _ _ _ _
    · exact ih

theorem works_pngSave (path : Bytes) (img : PngImageBuf) : (pngSaveRgbOrRgba path img).Works := by
  have hgiveUp : ∀ rc : StegoStatus, Task.Works (do
      let _ ← call (.fclose path)
      call (.unlink path)
      return rc) := by
    intro rc
    refine (works_call rfl).bind fun _ => ?_
    exact (works_call rfl).bind fun _ => Prog.all_pure _
  refine (works_call rfl).bind fun opened => ?_
  split
  · trivial
  · refine (works_call rfl).bind fun png => ?_
    split
    · exact hgiveUp _
    · refine (works_call rfl).bind fun info => ?_
      split
      · exact hgiveUp _
      · refine (works_call rfl).bind fun written => ?_
        split
        · exact hgiveUp _
        · exact (works_call rfl).bind fun _ => Prog.all_pure _

theorem works_encodeCommon (input_png_path output_png_path : Bytes) (type : StegoPayloadType)
    (filename : Option Bytes) (payload : Bytes) :
    (encodeCommon input_png_path output_png_path type filename payload).Works := by
  refine (works_call rfl).bind fun loaded => ?_
  cases loaded with
  | error rc => trivial
  | ok img =>
    refine (works_call rfl).bind fun malloc => ?_
    split
    · trivial
    · exact works_pngSave _ _

theorem works_stegoEncodeFile (input_png_path output_png_path payload_file_path : Bytes)
    (name : Option Bytes) :
    (stegoEncodeFile input_png_path output_png_path payload_file_path name).Works := by
  refine (works_call rfl).bind fun opened => ?_
  split
  · trivial
  · refine (works_call rfl).bind fun size => ?_
    cases size with
    | none => trivial
    | some size =>
      refine (works_call rfl).bind fun malloc => ?_
      dsimp only
      split
      · trivial
      · refine (works_call rfl).bind fun buf => ?_
        split
        · trivial
        · exact works_encodeCommon _ _ _ _ _

theorem works_writeToFile (path data : Bytes) : (writeToFile path data).Works := by
  have hclose : Task.Works (do
      if !(← call (.fclose path)) then
        return false
      return true) := by
    refine (works_call rfl).bind fun closed => ?_
    split <;> trivial
  refine (works_call rfl).bind fun opened => ?_
  split
  · trivial
  · split
    · refine (works_call rfl).bind fun written => ?_
      split
      · exact (works_call rfl).bind fun _ => Prog.all_pure _
      · exact hclose
    · exact hclose

theorem works_finishEncode (job : Nat) (out_path : Bytes) (msg : Nat → Bytes) :
    (finishEncode job out_path msg).Works := by
  refine (works_call rfl).bind fun size => ?_
  refine (works_call rfl).bind fun _ => (works_call rfl).bind fun _ => ?_
  exact works_endJob _ _ _ _

theorem works_readTextFile (path : Bytes) (buf_size : Nat) :
    (readTextFile path buf_size).Works := by
  refine (works_call rfl).bind fun opened => ?_
  split
  · trivial
  · exact (works_call rfl).bind fun _ => Prog.all_pure _

theorem works_encodeTextJob (job : Nat) : (processEncodeTextJob cfg job).Works := by
  refine (works_call rfl).bind fun png_path => (works_call rfl).bind fun text_path => ?_
  refine (works_call rfl).bind fun id => ?_
  split
  · exact works_endJob _ _ _ _
  · refine (works_readTextFile _ _).bind fun text => ?_
    split
    · exact works_endJob _ _ _ _
    · refine (works_call rfl).bind fun canceled => ?_
      split
      · exact works_endJob _ _ _ _
      · refine (works_encodeCommon _ _ _ _ _).bind fun rc => ?_
        split
        · exact works_endJob _ _ _ _
        · exact works_finishEncode _ _ _

theorem works_encodeFileJob (job : Nat) : (processEncodeFileJob cfg job).Works := by
  refine (works_call rfl).bind fun png_path => (works_call rfl).bind fun file_path => ?_
  refine (works_call rfl).bind fun payload => (works_call rfl).bind fun id => ?_
  split
  · exact works_endJob _ _ _ _
  · refine (works_call rfl).bind fun canceled => ?_
    split
    · exact works_endJob _ _ _ _
    · refine (works_stegoEncodeFile _ _ _ _).bind fun rc => ?_
      split
      · exact works_endJob _ _ _ _
      · exact works_finishEncode _ _ _

theorem works_storeDecoded (job : Nat) (ex : StegoExtracted) : (storeDecoded cfg job ex).Works := by
  refine (works_call rfl).bind fun id => ?_
  split
  · exact works_endJob _ _ _ _
  · refine (works_writeToFile _ _).bind fun written => ?_
    split
    · exact works_endJob _ _ _ _
    · refine (works_call rfl).bind fun _ => (works_call rfl).bind fun _ => ?_
      exact works_endJob _ _ _ _

theorem works_decodeJob (job : Nat) : (processDecodeJob cfg job).Works := by
  refine (works_call rfl).bind fun png_path => (works_call rfl).bind fun canceled => ?_
  split
  · exact works_endJob _ _ _ _
  · have hdecode : (stegoDecodeFile png_path).Works := by
      refine (works_call rfl).bind fun loaded => ?_
      exact (works_call rfl).bind fun malloc => Prog.all_pure _
    refine hdecode.bind fun outcome => ?_
    obtain ⟨rc, ex⟩ := outcome
    dsimp only
    split
    · exact works_endJob _ _ _ _
    · exact works_storeDecoded _ _

theorem works_processJob (worker_index job : Nat) (type : JobType) :
    (processJob cfg worker_index job type).Works := by
  cases type with
  | text => exact (works_call rfl).bind fun payload => works_textSteps _ _ _
  | validateImage =>
    refine (works_call rfl).bind fun input_path => (works_call rfl).bind fun metadata => ?_
    cases metadata with
    | none => exact works_endJob _ _ _ _
    | some metadata => exact works_endJob _ _ _ _
  | analyzeCapacity =>
    refine (works_call rfl).bind fun input_path => ?_
    have hcapacity : (stegoGetCapacity input_path).Works := by
      refine (works_call rfl).bind fun loaded => ?_
      cases loaded <;> trivial
    refine hcapacity.bind fun cap => ?_
    cases cap with
    | error rc => exact works_endJob _ _ _ _
    | ok cap => exact works_endJob _ _ _ _
  | encodeText => exact works_encodeTextJob job
  | encodeFile => exact works_encodeFileJob job
  | decode => exact works_decodeJob job
  | unknown => exact works_endJob _ _ _ _

theorem works_runJob (worker_index job : Nat) : (runJob cfg worker_index job).Works := by
  have hreport : Task.Works (do
      let id ← jobId job
      let _ ← call (.writeEvent id (← jobGetState job))) := by
    refine (works_call rfl).bind fun id => (works_call rfl).bind fun state => ?_
    exact (works_call rfl).bind fun _ => Prog.all_pure _
  refine (works_call rfl).bind fun canceled => ?_
  split
  · refine (works_call rfl).bind fun _ => (works_call rfl).bind fun _ => ?_
    refine (works_call rfl).bind fun id => ?_
    exact (works_call rfl).bind fun _ => Prog.all_pure _
  · refine (works_call rfl).bind fun _ => (works_call rfl).bind fun type => ?_
    refine (works_processJob _ _ _).bind fun rc => ?_
    split
    · refine (works_call rfl).bind fun state => ?_
      split
      · exact (works_call rfl).bind fun _ => (works_call rfl).bind fun _ => hreport
      · exact hreport
    · exact hreport

theorem works_workerTurn (worker_index : Nat) : (workerTurn cfg worker_index).Works := by
  have hexit : Task.Works (do
      call (.exit worker_index)
      return false) := (works_call rfl).bind fun _ => Prog.all_pure _
  refine (works_call rfl).bind fun running => ?_
  split
  · exact hexit
  · refine (works_call rfl).bind fun popped => ?_
    cases popped with
    | none => exact hexit
    | some job => exact (works_runJob worker_index job).bind fun _ => Prog.all_pure _

end

/-! The poll loop. -/

section

abbrev Task.Loops {α : Type} (p : Task α) : Prop := p.All fun o => o.ofLoop = true

theorem loops_call {o : Op} (ho : o.ofLoop = true) : (call o).Loops := (Prog.all_perform o).mpr ho

theorem plain_loops (o : Op) (ho : o.plain = true) : o.ofLoop = true := by
  cases o <;> first | rfl | cases ho

theorem loops_respond (fd : Int) (text : Bytes) : (sendResponsef fd text).Loops :=
  sendResponsef_all plain_loops fd text

theorem loops_refuse {α : Type} (fd : Int) (text : Bytes) (a : α) : Task.Loops (do
    let _ ← sendResponsef fd text
    return a) := (loops_respond fd text).bind fun _ => Prog.all_pure _

variable {cfg : RuntimeConfig} {client : ClientSession}

theorem loops_receiveLoop (fd : Int) (path : Bytes) (n : Nat) : (receiveLoop fd path n).Loops := by
  induction n using Nat.strong_induction_on with
  | _ n ih =>
    rw [receiveLoop]
    split
    · trivial
    · refine (loops_call rfl).bind fun r => ?_
      cases r with
      | error => trivial
      | eof => trivial
      | data b bs =>
        refine (loops_call rfl).bind fun written => ?_
        split
        · trivial
        · exact ih _ (by omega)

theorem loops_receiveToFile (fd : Int) (n : Nat) (path : Bytes) :
    (storageReceiveToFile fd n path).Loops := by
  refine (loops_call rfl).bind fun opened => ?_
  split
  · trivial
  · refine (loops_receiveLoop fd path n).bind fun received => ?_
    split
    · refine (loops_call rfl).bind fun _ => ?_
      exact (loops_call rfl).bind fun _ => Prog.all_pure _
    · refine (loops_call rfl).bind fun closed => ?_
      split
      · exact (loops_call rfl).bind fun _ => Prog.all_pure _
      · trivial

theorem loops_receivePng (size : UInt64) : (receivePngToUpload cfg client size).Loops := by
  unfold receivePngToUpload
  split
  · exact loops_refuse _ _ _
  · refine (loops_call rfl).bind fun next_id => ?_
    split
    · exact loops_refuse _ _ _
    · refine (loops_receiveToFile _ _ _).bind fun received => ?_
      split
      · exact loops_refuse _ _ _
      · trivial

theorem loops_receiveExtra (fd : Int) (size max : UInt64) (label : Bytes) (seq : Nat)
    (suffix : Bytes) :
    (receiveExtraToFile cfg fd size max label seq suffix).Loops := by
  unfold receiveExtraToFile
  split
  · exact loops_refuse _ _ _
  · split
    · exact loops_refuse _ _ _
    · split
      · refine (loops_call rfl).bind fun opened => ?_
        split
        · exact loops_refuse _ _ _
        · refine (loops_call rfl).bind fun closed => ?_
          split
          · exact loops_refuse _ _ _
          · trivial
      · refine (loops_receiveToFile _ _ _).bind fun received => ?_
        split
        · exact loops_refuse _ _ _
        · trivial

theorem loops_enqueueJob (type : JobType) (payload input_path stored_path : Option Bytes) :
    (enqueueJob client type payload input_path stored_path).Loops := by
  refine (loops_call rfl).bind fun created => ?_
  cases created with
  | none => exact loops_respond _ _
  | some job =>
    have hpush : Task.Loops (do
        if !(← call (.push job)) then
          jobSetResult job (lit "enqueue failed")
          jobSetState job .failed
          sendResponsef client.fd (lit "ERR cannot enqueue job\n")
        else
          sendResponsef client.fd (lit "JOB " ++ decimal (← jobId job) ++ lit "\n")) := by
      refine (loops_call rfl).bind fun pushed => ?_
      split
      · refine (loops_call rfl).bind fun _ => ?_
        exact (loops_call rfl).bind fun _ => loops_respond _ _
      · exact (loops_call rfl).bind fun id => loops_respond _ _
    cases stored_path with
    | none => exact hpush
    | some path => exact (loops_call rfl).bind fun _ => hpush

theorem loops_encodeText (request : ProtocolRequest) :
    (handleEncodeText cfg client request).Loops := by
  refine (loops_receivePng _).bind fun png => ?_
  cases png with
  | none => trivial
  | some png_path =>
    refine (loops_call rfl).bind fun next_id => ?_
    refine (loops_receiveExtra _ _ _ _ _ _).bind fun text => ?_
    cases text with
    | none => trivial
    | some text_path => exact (loops_enqueueJob _ _ _ _).bind fun _ => Prog.all_pure _

theorem loops_encodeFile (request : ProtocolRequest) :
    (handleEncodeFile cfg client request).Loops := by
  have hbody : ∀ png_path filename,
    (handleEncodeFileBody cfg client request png_path filename).Loops := by
    intro png_path filename
    refine (loops_call rfl).bind fun next_id => ?_
    refine (loops_receiveExtra _ _ _ _ _ _).bind fun file => ?_
    cases file with
    | none => trivial
    | some file_path => exact (loops_enqueueJob _ _ _ _).bind fun _ => Prog.all_pure _
  unfold handleEncodeFile
  split
  · exact (loops_call rfl).bind fun _ => loops_refuse _ _ _
  · refine (loops_receivePng _).bind fun png => ?_
    cases png with
    | none => trivial
    | some png_path =>
      dsimp only
      split
      · refine (loops_call rfl).bind fun name => ?_
        cases name with
        | none => exact loops_refuse _ _ _
        | some filename =>
          dsimp only
          split
          · exact loops_refuse _ _ _
          · exact hbody _ _
      · exact hbody _ _

theorem loops_pngUpload (request : ProtocolRequest) (type : JobType) :
    (handlePngUpload cfg client request type).Loops := by
  refine (loops_receivePng _).bind fun png => ?_
  cases png with
  | none => trivial
  | some png_path => exact (loops_enqueueJob _ _ _ _).bind fun _ => Prog.all_pure _

theorem loops_argument (request : ProtocolRequest) (empty : Bytes) {enqueue : Task Bool}
    (h : enqueue.Loops) :
    (handleArgument client request empty enqueue).Loops := by
  unfold handleArgument
  split
  · exact loops_refuse _ _ _
  · exact h.bind fun _ => Prog.all_pure _

theorem loops_answerUser (request : ProtocolRequest) :
    (answerUserCommand cfg client request).Loops := by
  by_cases hreads : request.command ∈ uploadCommands ++ [.submit, .validateImage, .analyzeCapacity]
  · simp only [uploadCommands, List.cons_append, List.nil_append, List.mem_cons, List.not_mem_nil,
      or_false] at hreads
    rcases hreads with h | h | h | h | h | h | h | h <;> simp only [answerUserCommand, h]
    · exact loops_encodeText request
    · exact loops_encodeFile request
    · exact loops_pngUpload request _
    · exact loops_pngUpload request _
    · exact loops_pngUpload request _
    all_goals exact loops_argument request _ (loops_enqueueJob _ _ _ _)
  · refine answerUserCommand_all plain_loops _ _ _ (fun _ _ => rfl) ?_
    simp only [uploadCommands, List.cons_append, List.nil_append, List.mem_cons,
      List.not_mem_nil, or_false, not_or] at hreads ⊢
    tauto

theorem loops_closeClient : (closeClient client).Loops := closeClient_all client rfl

theorem loops_clientCommand (dt : DurationText) (m : MainState) (i : Nat) :
    (handleClientCommand cfg dt m i client).Loops := by
  refine (loops_call rfl).bind fun line => ?_
  split
  · exact loops_closeClient.bind fun _ => Prog.all_pure _
  · dsimp only
    split
    · exact handleAdminCommand_all plain_loops _ _ _ _ _ (fun _ _ => rfl) fun _ => rfl
    · refine Prog.All.bind ?_ fun _ => Prog.all_pure _
      unfold handleUserCommand
      split
      · exact (loops_respond _ _).bind fun _ => loops_closeClient
      · exact (loops_answerUser _).bind fun _ => Prog.all_pure _

theorem loops_walkClients (dt : DurationText) (revents : Nat → Revents) (left i idx : Nat)
    (m : MainState) :
    (walkClients cfg dt revents left i idx m).Loops := by
  induction left generalizing i idx m with
  | zero => trivial
  | succ left ih =>
    unfold walkClients
    dsimp only
    split
    · exact ih _ _ _
    · have hvisit : Task.Loops (if (revents idx).any then
        handleClientCommand cfg dt m i (m.clients.get i)
          else pure m) := by
        split
        · exact loops_clientCommand dt m i
        · trivial
      refine hvisit.bind fun m' => ?_
      exact (ih _ _ _).bind fun _ => Prog.all_pure _

theorem loops_serveReady (dt : DurationText) (fds : ServerFds) (revents : Nat → Revents)
    (nfds : Nat) (m : MainState) :
    (serveReady cfg dt fds revents nfds m).Loops := by
  have haccept : ∀ (b : Bool) (p : Task (MainState × Option Connection)) (m : MainState), p.Loops →
      Task.Loops (if b then p else pure (m, none)) := by
    intro b p m hp
    split
    · exact hp
    · trivial
  refine (haccept _ _ _ (acceptNewInetConnection_all plain_loops (fun _ => rfl) _ _ _ _ rfl)).bind
    fun user => ?_
  refine (haccept _ _ _ (acceptNewInetConnection_all plain_loops (fun _ => rfl) _ _ _ _ rfl)).bind
    fun admin => ?_
  refine (haccept _ _ _ (acceptNewUnixConnection_all plain_loops (fun _ => rfl) _ _ rfl)).bind
    fun unix => ?_
  refine (drainIfReady_all plain_loops _ _).bind fun _ =>
    (drainIfReady_all plain_loops _ _).bind fun _ => ?_
  exact (loops_walkClients dt revents _ _ _ _).bind fun _ => Prog.all_pure _

theorem loops_pollIteration (dt : DurationText) (fds : ServerFds) (m : MainState) :
    (pollIteration cfg dt fds m).Loops := by
  refine (loops_call rfl).bind fun answer => ?_
  cases answer with
  | interrupted => trivial
  | failed => trivial
  | timeout => exact (sweepKicked_all (fun _ => rfl) _ _ _).bind fun _ => Prog.all_pure _
  | ready revents =>
    refine (loops_serveReady dt fds revents _ m).bind fun served => ?_
    exact (sweepKicked_all (fun _ => rfl) _ _ _).bind fun _ => Prog.all_pure _

end

end StegaPng
