import StegaPng.System

/-! The worker threads: `worker.c`, and the file handling around the stego core. -/

namespace StegaPng

open Interleaving

def jobGetType (job : Nat) : Task JobType := call (.getJob job .type)
def jobGetState (job : Nat) : Task JobState := call (.getJob job .state)
def jobIsCancelRequested (job : Nat) : Task Bool := call (.getJob job .cancelRequested)
def jobGetPayload (job : Nat) : Task Bytes := call (.getJob job .payload)
def jobGetInputPath (job : Nat) : Task Bytes := call (.getJob job .inputPath)
def jobGetStoredPath (job : Nat) : Task Bytes := call (.getJob job .storedPath)
def jobGetOutputPath (job : Nat) : Task Bytes := call (.getJob job .outputPath)
def jobGetResult (job : Nat) : Task Bytes := call (.getJob job .result)
def jobGetResultMeta (job : Nat) : Task (JobResultKind × Nat × Bytes) :=
  call (.getJob job .resultMeta)

/-- `job->id`, which is never written after the job is in the table. -/
def jobId (job : Nat) : Task Nat := call (.getJob job .id)

def jobSetState (job : Nat) (s : JobState) : Task Unit := call (.setJob job (.state s))
def jobSetResult (job : Nat) (result : Bytes) : Task Unit := call (.setJob job (.result result))
def jobSetStoredPath (job : Nat) (path : Bytes) : Task Unit := call (.setJob job (.storedPath path))
def jobSetOutputPath (job : Nat) (path : Bytes) : Task Unit := call (.setJob job (.outputPath path))

def jobSetResultMeta (job : Nat) (kind : JobResultKind) (size : Nat) (filename : Bytes) :
    Task Unit :=
  call (.setJob job (.resultMeta kind size filename))

/-- `get_file_size_bytes`. -/
def getFileSizeBytes (path : Bytes) : Task (Option Nat) := call (.stat path)

/-! Files and images. -/

def pngSaveRgbOrRgba (path : Bytes) (img : PngImageBuf) : Task StegoStatus := do
  if !(← call (.fopenWb path)) then
    return .errOpen
  if !(← call .pngCreate) then
    let _ ← call (.fclose path)
    call (.unlink path)
    return .errMemory
  if !(← call .pngCreate) then
    let _ ← call (.fclose path)
    call (.unlink path)
    return .errMemory
  if !(← call (.pngWrite path img)) then
    let _ ← call (.fclose path)
    call (.unlink path)
    return .errLibpng
  let _ ← call (.fclose path)
  return .ok

def encodeCommon (input_png_path output_png_path : Bytes) (type : StegoPayloadType)
    (filename : Option Bytes) (payload : Bytes) : Task StegoStatus := do
  match ← call (.pngLoad input_png_path) with
  | .error rc => return rc
  | .ok img =>
    let malloc ← call .heap
    match encodeImage malloc img type filename payload with
    | .error rc => return rc
    | .ok out => pngSaveRgbOrRgba output_png_path out

def stegoEncodeText (input_png_path output_png_path text : Bytes) : Task StegoStatus :=
  encodeCommon input_png_path output_png_path .text none text

/-- The part of a path after its last slash. -/
def baseName (path : Bytes) : Bytes := (path.reverse.takeWhile (· ≠ 47)).reverse

def stegoEncodeFile (input_png_path output_png_path payload_file_path : Bytes)
    (store_as_filename : Option Bytes) : Task StegoStatus := do
  if !(← call (.fopenRb payload_file_path)) then
    return .errOpen
  match ← call (.fsize payload_file_path) with
  | none => return .errIo
  | some size =>
    let malloc ← call .heap
    if !malloc .file size && size > 0 then
      return .errMemory
    let buf ← call (.fread payload_file_path size)
    if size > 0 && buf.length != size then
      return .errIo
    let fn := store_as_filename.getD (baseName payload_file_path)
    encodeCommon input_png_path output_png_path .file (some fn) buf

def stegoDecodeFile (png_path : Bytes) : Task (StegoStatus × StegoExtracted) := do
  let loaded ← call (.pngLoad png_path)
  let malloc ← call .heap
  return stegoDecode malloc loaded

structure StegoCapacity where
  payload_max_bytes : Nat
  width : UInt32
  height : UInt32
  channels : Nat
  data_channels : Nat

def capacityOf (img : PngImageBuf) : StegoCapacity :=
  let total_bytes := imageDataBitCapacity img / 8
  let overhead := stegoHeaderMinLen
  { payload_max_bytes := if total_bytes > overhead then total_bytes - overhead else 0
    width := img.width
    height := img.height
    channels := img.channels
    data_channels := dataChannels img.channels }

def stegoGetCapacity (png_path : Bytes) : Task (Except StegoStatus StegoCapacity) := do
  match ← call (.pngLoad png_path) with
  | .error rc => return .error rc
  | .ok img => return .ok (capacityOf img)

/-- `write_text_to_file` and `write_bin_to_file`, which are the same loop-free code. -/
def writeToFile (path data : Bytes) : Task Bool := do
  if !(← call (.fopenWb path)) then
    return false
  if data.length > 0 then
    if !(← call (.fwrite path data)) then
      let _ ← call (.fclose path)
      return false
  if !(← call (.fclose path)) then
    return false
  return true

def readTextFile (path : Bytes) (buf_size : Nat) : Task (Option Bytes) := do
  if !(← call (.fopenRb path)) then
    return none
  let r ← call (.fread path (buf_size - 1))
  return some r

def pngColorTypeToString (color_type : Nat) : Bytes :=
  if color_type = 0 then lit "GRAY"
  else if color_type = 4 then lit "GRAY_ALPHA"
  else if color_type = 3 then lit "PALETTE"
  else if color_type = 2 then lit "RGB"
  else if color_type = 6 then lit "RGBA"
  else lit "UNKNOWN"

/-! The processors. Each returns the C result: 0, or -1 after a failure. -/

/-- `job_set_result` and `job_set_state`, the way every processor ends. -/
def endJob (job : Nat) (result : Bytes) (s : JobState) (rc : Int) : Task Int := do
  jobSetResult job result
  jobSetState job s
  return rc

/-- The steps of the demo job that are left. -/
def textSteps (job : Nat) (final_result : Bytes) : Nat → Task Int
  | 0 => endJob job final_result .done 0
  | steps + 1 => do
    call .nanosleep
    if ← jobIsCancelRequested job then
      endJob job (lit "job canceled") .canceled 0
    else
      textSteps job final_result steps

def processTextJob (worker_index job : Nat) : Task Int := do
  let payload ← jobGetPayload job
  let final_result := snprintf maxJobResult
    (lit "processed_by_worker_" ++ decimal worker_index ++ lit ": " ++ payload)
  textSteps job final_result 5

def processValidateImageJob (job : Nat) : Task Int := do
  let input_path ← jobGetInputPath job
  match ← call (.pngMetadata input_path) with
  | none => endJob job (lit "INVALID PNG") .failed (-1)
  | some metadata =>
    let result := snprintf maxJobResult
      (lit "VALID PNG width=" ++ decimal metadata.width.toNat ++ lit " height=" ++
        decimal metadata.height.toNat ++ lit " bit_depth=" ++ decimal metadata.bit_depth ++
        lit " color=" ++ pngColorTypeToString metadata.color_type ++ lit " channels=" ++
        decimal metadata.channels)
    endJob job result .done 0

def processAnalyzeCapacityJob (job : Nat) : Task Int := do
  let input_path ← jobGetInputPath job
  match ← stegoGetCapacity input_path with
  | .error rc =>
    let msg := snprintf maxJobResult (lit "capacity error: " ++ stegoStrerror rc)
    endJob job msg .failed (-1)
  | .ok cap =>
    let result := snprintf maxJobResult
      (lit "CAPACITY " ++ decimal cap.payload_max_bytes ++ lit " BYTES width=" ++
        decimal cap.width.toNat ++
        lit " height=" ++ decimal cap.height.toNat ++ lit " channels=" ++ decimal cap.channels)
    endJob job result .done 0

/-- The end of both encoders: publish the image, then finish. -/
def finishEncode (job : Nat) (out_path : Bytes) (msg : Nat → Bytes) : Task Int := do
  let size := (← getFileSizeBytes out_path).getD 0
  jobSetOutputPath job out_path
  jobSetResultMeta job .png size (lit "stego_result.png")
  endJob job (snprintf maxJobResult (msg size)) .done 0

def processEncodeTextJob (cfg : RuntimeConfig) (job : Nat) : Task Int := do
  let png_path ← jobGetInputPath job
  let text_path ← jobGetStoredPath job
  match storageMakeResultPath cfg (← jobId job) (lit "png") with
  | none => endJob job (lit "path build failed") .failed (-1)
  | some out_path =>
    match ← readTextFile text_path (maxTextBytes + 1) with
    | none => endJob job (lit "cannot read text payload") .failed (-1)
    | some text =>
      if ← jobIsCancelRequested job then
        endJob job (lit "job canceled") .canceled 0
      else
        let rc ← stegoEncodeText png_path out_path text
        if rc ≠ .ok then
          endJob job (snprintf maxJobResult (lit "encode_text failed: " ++
            stegoStrerror rc)) .failed (-1)
        else
          finishEncode job out_path fun size =>
            lit "encoded text_bytes=" ++ decimal text.length ++ lit " output=" ++ out_path ++
              lit " size=" ++ decimal size

def processEncodeFileJob (cfg : RuntimeConfig) (job : Nat) : Task Int := do
  let png_path ← jobGetInputPath job
  let file_path ← jobGetStoredPath job
  let filename := snprintf maxJobFilename (← jobGetPayload job)
  match storageMakeResultPath cfg (← jobId job) (lit "png") with
  | none => endJob job (lit "path build failed") .failed (-1)
  | some out_path =>
    if ← jobIsCancelRequested job then
      endJob job (lit "job canceled") .canceled 0
    else
      let rc ← stegoEncodeFile png_path out_path file_path (if filename ≠ [] then
        some filename else none)
      if rc ≠ .ok then
        endJob job (snprintf maxJobResult (lit "encode_file failed: " ++
          stegoStrerror rc)) .failed (-1)
      else
        finishEncode job out_path fun size =>
          lit "encoded file=" ++ filename ++ lit " output=" ++ out_path ++ lit " size=" ++
            decimal size

/-- The rest of `process_decode_job` after the container was accepted. -/
def storeDecoded (cfg : RuntimeConfig) (job : Nat) (ex : StegoExtracted) : Task Int := do
  let suffix := if ex.type = .text then lit "txt" else lit "bin"
  match storageMakeResultPath cfg (← jobId job) suffix with
  | none => endJob job (lit "path build failed") .failed (-1)
  | some out_path =>
    if !(← writeToFile out_path (ex.data.getD [])) then
      endJob job (lit "cannot write decoded result") .failed (-1)
    else
      jobSetOutputPath job out_path
      let kind := if ex.type = .text then JobResultKind.text else JobResultKind.file
      let name := if ex.type = .text then lit "decoded.txt" else cstr ex.filename
      jobSetResultMeta job kind ex.data_len name
      let msg := if ex.type = .text then lit "decoded text bytes=" ++ decimal ex.data_len
        else lit "decoded file=" ++ cstr ex.filename ++ lit " bytes=" ++ decimal ex.data_len
      endJob job (snprintf maxJobResult msg) .done 0

def processDecodeJob (cfg : RuntimeConfig) (job : Nat) : Task Int := do
  let png_path ← jobGetInputPath job
  if ← jobIsCancelRequested job then
    endJob job (lit "job canceled") .canceled 0
  else
    let (rc, ex) ← stegoDecodeFile png_path
    if rc ≠ .ok then
      endJob job (snprintf maxJobResult (lit "decode failed: " ++ stegoStrerror rc)) .failed (-1)
    else
      storeDecoded cfg job ex

def processJob (cfg : RuntimeConfig) (worker_index job : Nat) (type : JobType) : Task Int :=
  match type with
  | .text => processTextJob worker_index job
  | .validateImage => processValidateImageJob job
  | .analyzeCapacity => processAnalyzeCapacityJob job
  | .encodeText => processEncodeTextJob cfg job
  | .encodeFile => processEncodeFileJob cfg job
  | .decode => processDecodeJob cfg job
  | .unknown => endJob job (lit "unknown job type") .failed (-1)

/-- What a worker does with the job it has popped. -/
def runJob (cfg : RuntimeConfig) (worker_index job : Nat) : Task Unit := do
  if ← jobIsCancelRequested job then
    jobSetResult job (lit "job canceled")
    jobSetState job .canceled
    let _ ← call (.writeEvent (← jobId job) .canceled)
  else
    jobSetState job .running
    let rc ← processJob cfg worker_index job (← jobGetType job)
    -- a processor that failed without a final state is marked FAILED here
    if rc < 0 then
      if (← jobGetState job) = .running then
        jobSetResult job (lit "worker failed")
        jobSetState job .failed
    let id ← jobId job
    let _ ← call (.writeEvent id (← jobGetState job))

/-- One turn of the loop of `worker_main`: whether there is another. -/
def workerTurn (cfg : RuntimeConfig) (worker_index : Nat) : Task Bool := do
  if !(← call .readRunning) then
    call (.exit worker_index)
    return false
  match ← call .pop with
  | none =>
    call (.exit worker_index)
    return false
  | some job =>
    runJob cfg worker_index job
    return true

end StegaPng
