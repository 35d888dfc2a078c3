import StegaPng.Effects

/-! The conduct the threads keep to: the invariant of jobs, queue, files and history,
the operations each thread is allowed, and what it may rely on meanwhile. -/

namespace StegaPng

open Interleaving

/-- Nothing has been published for the job. -/
def Job.Blank (r : Job) : Prop :=
  r.output_path = [] ∧ r.result_kind = .none ∧ r.result_size = 0 ∧ r.result_filename = []

/-- The type's processor looks at the cancel flag again. -/
def JobType.Rechecks (type : JobType) : Prop :=
  type = .text ∨ type = .encodeText ∨ type = .encodeFile ∨ type = .decode

section

variable (cfg : RuntimeConfig) (codec : PngCodec) (files : Bytes → Option Bytes) (h : List Mark)

/-- The content is the job's carrier with the payload embedded. -/
def Encoded (r : Job) (type : StegoPayloadType) (filename : Option Bytes)
    (payload content : Bytes) : Prop :=
  ∃ malloc png img out, files r.input_path = some png ∧ codec.load png = .ok img ∧
    encodeImage malloc img type filename payload = .ok out ∧ content = codec.save out

/-- The name under which ENCODE_FILE stores its payload. -/
def storedAs (r : Job) : Bytes :=
  let filename := snprintf maxJobFilename r.payload
  if filename ≠ [] then filename else baseName r.stored_path

/-- What META reports of an encoded image, and the image behind it. -/
def PublishedImage (r : Job) (payload : Bytes → Bytes → Prop) : Prop :=
  ∃ content, r.output_path = resultPath cfg r.id (lit "png") ∧ files r.output_path = some content ∧
    r.result_kind = .png ∧ r.result_filename = lit "stego_result.png" ∧
    ((∀ t, Mark.fault t .stat r.output_path ∉ h) → r.result_size = content.length) ∧
    (FaultFree h → ∃ data, files r.stored_path = some data ∧ payload data content)

def decodedSuffix (type : StegoPayloadType) : Bytes := if type = .text then lit "txt" else lit "bin"

def decodedKind (type : StegoPayloadType) : JobResultKind := if type = .text then .text else .file

def decodedName (ex : StegoExtracted) : Bytes := if ex.type = .text then lit "decoded.txt" else
    cstr ex.filename

/-- What META reports of a decoded payload, and the payload behind it. -/
def PublishedPayload (r : Job) : Prop :=
  ∃ malloc png ex, files r.input_path = some png ∧ stegoDecode malloc (codec.load png) = (.ok, ex) ∧
    r.output_path = resultPath cfg r.id (decodedSuffix ex.type) ∧
    files r.output_path = some (ex.data.getD []) ∧ r.result_kind = decodedKind ex.type ∧
    r.result_size = ex.data_len ∧ r.result_filename = snprintf maxJobFilename (decodedName ex)

/-- What a DONE job of each type has published. -/
def Published (r : Job) : Prop :=
  match r.type with
  | .encodeText => PublishedImage cfg files h r fun text content =>
      Encoded codec files r .text none (text.take maxTextBytes) content
  | .encodeFile => PublishedImage cfg files h r fun data content =>
      Encoded codec files r .file (some (storedAs r)) data content
  | .decode => PublishedPayload cfg codec files r
  | _ => r.Blank

/-- What a worker stores for each outcome. -/
def Settled (r : Job) : Prop :=
  match r.state with
  | .done => Published cfg codec files h r
  | .failed => r.Blank
  | .canceled => r.Blank ∧ r.result = lit "job canceled"
  | .queued | .running => True

/-- The stored upload is the body of the request the job was created for. -/
def UploadOk (request : Bytes × Bytes) (r : Job) : Prop :=
  let q := protocolParseLine request.1
  let body := request.2
  let png_path := uploadPath cfg r.id (lit "png")
  match r.type with
  | .encodeText => q.command = .encodeText ∧ q.size2.toNat ≤ maxTextBytes ∧
      body.length = q.size1.toNat + q.size2.toNat ∧ r.input_path = png_path ∧
      files png_path = some (body.take q.size1.toNat) ∧
      files (uploadPath cfg r.id (lit "txt")) = some (body.drop q.size1.toNat)
  | .encodeFile => q.command = .encodeFile ∧ q.size2.toNat ≤ maxFilenameBytes ∧
      body.length = q.size1.toNat + q.size2.toNat + q.size3.toNat ∧ r.input_path = png_path ∧
      files png_path = some (body.take q.size1.toNat) ∧
      r.payload = cstr ((body.drop q.size1.toNat).take q.size2.toNat) ∧
      files (uploadPath cfg r.id (lit "data")) = some (body.drop (q.size1.toNat + q.size2.toNat))
  | .decode => q.command = .decode ∧ body.length = q.size1.toNat ∧ r.input_path = png_path ∧
      files png_path = some body
  | .text => q.command ∉ uploadCommands ∧ newline ∉ r.payload
  | _ => q.command ∈ uploadCommands → r.input_path = png_path

/-- The record names its second upload. -/
def StoredOk (r : Job) : Prop :=
  match r.type with
  | .encodeText => r.stored_path = uploadPath cfg r.id (lit "txt")
  | .encodeFile => r.stored_path = uploadPath cfg r.id (lit "data")
  | _ => r.stored_path = []

/-- What can bring a newline into the result of a DONE job. -/
def NewlineSource (r : Job) : Prop :=
  match r.type with
  | .encodeText => newline ∈ cfg.storage_root
  | .encodeFile => newline ∈ snprintf maxJobFilename r.payload ∨ newline ∈ cfg.storage_root
  | .decode => newline ∈ r.result_filename
  | _ => False

def Told (r : Job) : Prop := r.state.Terminal →
    (newline ∈ r.result ↔ r.state = .done ∧ NewlineSource cfg r)

end

/-- The invariant of every run. -/
structure Inv (cfg : RuntimeConfig) (codec : PngCodec) (s : Sys) : Prop where
  id : ∀ j < s.world.jobs.length, (s.world.job j).id = j + 1
  next_id : s.world.next_id = s.world.jobs.length + 1
  bound : s.world.jobs.length ≤ maxJobs
  nodup : s.world.queue.Nodup
  queued : ∀ j ∈ s.world.queue, j < s.world.jobs.length ∧ (s.world.job j).state = .queued ∧
    pops j s.history = [] ∧ making s.history ≠ some j
  held : ∀ t j, holding t s.history = some j → t ≠ .main ∧ pops j s.history = [t]
  made : ∀ j, making s.history = some j → j + 1 = s.world.jobs.length ∧
    (s.world.job j).state = .queued ∧
    pops j s.history = []
  popped : ∀ j, pops j s.history = [] ∨ j < s.world.jobs.length ∧ ∃ t, pops j s.history = [t] ∧
    (holding t s.history = some j ∨ eventsOf (j + 1) s.history ≠ [])
  place : ∀ j < s.world.jobs.length, (s.world.job j).state.Terminal ∨ j ∈ s.world.queue ∨
    (∃ t, holding t s.history = some j) ∨ making s.history = some j
  events : ∀ j, eventsOf (j + 1) s.history = [] ∨ pops j s.history ≠ [] ∧
    (s.world.job j).state.Terminal ∧
    eventsOf (j + 1) s.history = [(s.world.job j).state]
  blank : ∀ j < s.world.jobs.length, (s.world.job j).state = .queued → (s.world.job j).Blank
  outcome : ∀ j < s.world.jobs.length, Settled cfg codec s.world.files s.history (s.world.job j)
  upload : ∀ j < s.world.jobs.length,
    UploadOk cfg s.world.files (origin j s.history) (s.world.job j)
  stored : ∀ j < s.world.jobs.length, making s.history ≠ some j → StoredOk cfg (s.world.job j)

/-- The states a worker may move its job to. -/
def MayBecome (cfg : RuntimeConfig) (codec : PngCodec) (t : Tid) (s : Sys) (r : Job)
    (st : JobState) : Prop :=
  match r.state, st with
  | .queued, .running => sawClear t s.history = true
  | .queued, .canceled | .running, .canceled =>
    r.cancel_requested = true ∧
      Settled cfg codec s.world.files s.history { r with state := .canceled }
  | .running, .done => Settled cfg codec s.world.files s.history { r with state := .done } ∧
    (sawClear t s.history = true ∨ ¬ r.type.Rechecks)
  | .running, .failed => Settled cfg codec s.world.files s.history { r with state := .failed } ∧
    (sawClear t s.history = true ∨ ¬ r.type.Rechecks ∨
      r.type = .encodeText ∧ sawUnreadable t s.history = true)
  | _, _ => False

/-- What the main thread writes into the job it is making. -/
def MainSets (cfg : RuntimeConfig) (s : Sys) (j : Nat) : JobUpdate → Prop
  | .storedPath path => StoredOk cfg { s.world.job j with stored_path := snprintf maxJobPath path }
  | .result _ => True
  | .state st => st = .failed ∧ .pushFailed j ∈ s.history ∧ StoredOk cfg (s.world.job j) ∧
      Told cfg { s.world.job j with state := st }
  | _ => False

/-- What a worker writes into the job it holds. -/
def WorkerSets (cfg : RuntimeConfig) (codec : PngCodec) (t : Tid) (s : Sys) (j : Nat) :
    JobUpdate → Prop
  | .storedPath _ => False
  | .result _ => True
  | .outputPath path => (s.world.job j).state = .running ∧
      ∃ suffix, snprintf maxJobPath path = resultPath cfg (j + 1) suffix
  | .resultMeta .. => (s.world.job j).state = .running
  | .state st =>
    MayBecome cfg codec t s (s.world.job j) st ∧ Told cfg { s.world.job j with state := st }

/-- The files a thread may write: those of the next upload, and the results of the
job it holds. -/
def WriteOk (cfg : RuntimeConfig) (t : Tid) (s : Sys) (path : Bytes) : Prop :=
  t = .main ∧ making s.history = none ∧
    (∃ suffix, path = uploadPath cfg (s.world.jobs.length + 1) suffix) ∨
  ∃ j suffix, holding t s.history = some j ∧ ¬ (s.world.job j).state.Terminal ∧
    path = resultPath cfg (j + 1) suffix

def Allowed (cfg : RuntimeConfig) (codec : PngCodec) (t : Tid) (o : Op) (s : Sys) : Prop :=
  match o with
  | .createJob owner_fd owner_ip type payload input_path => t = .main ∧ making s.history = none ∧
      ∀ now, UploadOk cfg s.world.files (requestSoFar s.history)
        (newJob s.world.next_id owner_fd owner_ip type payload input_path now)
  | .setJob j u => t = .main ∧ making s.history = some j ∧ MainSets cfg s j u ∨
      holding t s.history = some j ∧ ¬ (s.world.job j).state.Terminal ∧ WorkerSets cfg codec t s j u
  | .getJob j f => f = .cancelRequested → t = .main ∨ holding t s.history = some j
  | .requestCancel j => t = .main ∧ j < s.world.jobs.length ∧ making s.history = none
  | .push j => t = .main ∧ making s.history = some j ∧ StoredOk cfg (s.world.job j)
  | .pop => t ≠ .main ∧ holding t s.history = none
  | .writeEvent id st =>
    ∃ j, id = j + 1 ∧ holding t s.history = some j ∧ (s.world.job j).state = st ∧
      st.Terminal ∧ eventsOf (j + 1) s.history = []
  | .fopenWb path | .fwrite path _ | .fclose path | .unlink path | .pngWrite path _ =>
    WriteOk cfg t s path
  | .readLine _ | .readExact .. | .discardExact .. | .read .. | .accept _ | .close _ | .writeAll
      .. => t = .main
  | _ => True

/-- The record has changed at most by a cancel request. -/
def Follows (r r' : Job) : Prop :=
  r' = { r with cancel_requested := r'.cancel_requested } ∧
    (r.cancel_requested = true → r'.cancel_requested = true)

/-- What a worker relies on while it pauses. -/
structure WorkerRely (cfg : RuntimeConfig) (t : Tid) (s s' : Sys) : Prop where
  holding : holding t s'.history = holding t s.history
  clear : sawClear t s'.history = sawClear t s.history
  unreadable : sawUnreadable t s'.history = sawUnreadable t s.history
  past : s.history <:+ s'.history
  record : ∀ j, StegaPng.holding t s.history = some j → Follows (s.world.job j) (s'.world.job j)
  events : ∀ j, StegaPng.holding t s.history = some j →
    eventsOf (j + 1) s'.history = eventsOf (j + 1) s.history
  out : ∀ j suffix, StegaPng.holding t s.history = some j →
    s'.world.files (resultPath cfg (j + 1) suffix) = s.world.files (resultPath cfg (j + 1) suffix)
  inp : ∀ j suffix, StegaPng.holding t s.history = some j →
    s'.world.files (uploadPath cfg (j + 1) suffix) = s.world.files (uploadPath cfg (j + 1) suffix)

/-- What the main thread relies on while it pauses. -/
structure MainRely (cfg : RuntimeConfig) (s s' : Sys) : Prop where
  making : making s'.history = making s.history
  request : requestSoFar s'.history = requestSoFar s.history
  past : s.history <:+ s'.history
  length : s'.world.jobs.length = s.world.jobs.length
  record : ∀ j, StegaPng.making s.history = some j → s'.world.job j = s.world.job j
  inp : ∀ id suffix, s'.world.files (uploadPath cfg id suffix) =
    s.world.files (uploadPath cfg id suffix)

/-- The conduct of the server's threads. -/
def conduct (cfg : RuntimeConfig) (codec : PngCodec) : Discipline (machine codec) MainState where
  inv := Inv cfg codec
  allowed := Allowed cfg codec
  rely
    | .main, s, s' => MainRely cfg s s'
    | .worker i, s, s' => WorkerRely cfg (.worker i) s s'
  start
    | .main, _, s => making s.history = none
    | .worker i, _, s => holding (.worker i) s.history = none
  finish
    | .main, _, s => making s.history = none
    | .worker i, _, s => ∀ j, holding (.worker i) s.history = some j →
        (s.world.job j).state.Terminal ∧ eventsOf (j + 1) s.history ≠ []

end StegaPng
