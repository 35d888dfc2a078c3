import StegaPng.CText

/-! Job records and the critical sections that read and write them (`job.c`). -/

namespace StegaPng

def maxJobs : Nat := 1024
def maxJobPayload : Nat := 1024
def maxJobResult : Nat := 2048
def maxJobPath : Nat := 512
def maxJobFilename : Nat := 256

inductive JobType where
  | unknown | text | validateImage | analyzeCapacity | encodeText | encodeFile | decode
  deriving DecidableEq, Repr

inductive JobState where
  | queued | running | done | failed | canceled
  deriving DecidableEq, Repr

inductive JobResultKind where
  | none | text | file | png
  deriving DecidableEq, Repr

def jobStateToString : JobState → Bytes
  | .queued => lit "QUEUED"
  | .running => lit "RUNNING"
  | .done => lit "DONE"
  | .failed => lit "FAILED"
  | .canceled => lit "CANCELED"

def jobTypeToString : JobType → Bytes
  | .text => lit "TEXT"
  | .validateImage => lit "VALIDATE_IMAGE"
  | .analyzeCapacity => lit "ANALYZE_CAPACITY"
  | .encodeText => lit "ENCODE_TEXT"
  | .encodeFile => lit "ENCODE_FILE"
  | .decode => lit "DECODE"
  | .unknown => lit "UNKNOWN"

def jobResultKindToString : JobResultKind → Bytes
  | .text => lit "TEXT"
  | .file => lit "FILE"
  | .png => lit "PNG"
  | .none => lit "NONE"

def JobState.Terminal (s : JobState) : Prop := s = .done ∨ s = .failed ∨ s = .canceled

instance (s : JobState) : Decidable s.Terminal := by
  unfold JobState.Terminal
  infer_instance

/-- `job_t`: texts are the C strings of their arrays, times are in nanoseconds. -/
structure Job where
  id : Nat
  owner_fd : Int
  type : JobType
  state : JobState := .queued
  cancel_requested : Bool := false
  payload : Bytes := []
  input_path : Bytes := []
  stored_path : Bytes := []
  output_path : Bytes := []
  result_filename : Bytes := []
  result_kind : JobResultKind := .none
  result_size : Nat := 0
  result : Bytes := []
  owner_ip : Bytes := []
  created_at : Nat := 0
  started_at : Nat := 0
  finished_at : Nat := 0
  deriving DecidableEq

/-- The record that `job_table_create_job` fills. -/
def newJob (next_id : Nat) (owner_fd : Int) (owner_ip : Bytes) (type : JobType)
    (payload input_path : Option Bytes) (now : Nat) : Job where
  id := next_id
  owner_fd := owner_fd
  type := type
  payload := snprintf maxJobPayload (payload.getD [])
  input_path := snprintf maxJobPath (input_path.getD [])
  owner_ip := snprintf 64 owner_ip
  created_at := now

/-- What one locked section of a setter writes. -/
inductive JobUpdate where
  | state (s : JobState)
  | result (text : Bytes)
  | storedPath (path : Bytes)
  | outputPath (path : Bytes)
  | resultMeta (kind : JobResultKind) (size : Nat) (filename : Bytes)
  deriving DecidableEq

def JobUpdate.apply (now : Nat) (j : Job) : JobUpdate → Job
  | .state s => { j with
      state := s
      started_at := if s = .running then now else j.started_at
      finished_at := if s.Terminal then now else j.finished_at }
  | .result text => { j with result := snprintf maxJobResult text }
  | .storedPath path => { j with stored_path := snprintf maxJobPath path }
  | .outputPath path => { j with output_path := snprintf maxJobPath path }
  | .resultMeta kind size filename => { j with
      result_kind := kind
      result_size := size
      result_filename := snprintf maxJobFilename filename }

/-- What one locked section of a getter reads; `record` stands for the sections of
the table reports, which read several fields at once. -/
inductive JobField where
  | id | type | state | cancelRequested | payload | inputPath | storedPath | outputPath | result
  | resultMeta | record
  deriving DecidableEq

@[reducible] def JobField.Val : JobField → Type
  | .id => Nat
  | .type => JobType
  | .state => JobState
  | .cancelRequested => Bool
  | .payload => Bytes
  | .inputPath => Bytes
  | .storedPath => Bytes
  | .outputPath => Bytes
  | .result => Bytes
  | .resultMeta => JobResultKind × Nat × Bytes
  | .record => Job

/-- The text as the record holds it; a caller with a smaller buffer cuts it. -/
def JobField.read (j : Job) : (f : JobField) → f.Val
  | .id => j.id
  | .type => j.type
  | .state => j.state
  | .cancelRequested => j.cancel_requested
  | .payload => j.payload
  | .inputPath => j.input_path
  | .storedPath => j.stored_path
  | .outputPath => j.output_path
  | .result => j.result
  | .resultMeta => (j.result_kind, j.result_size, j.result_filename)
  | .record => j

/-- `job_request_cancel`: the record afterwards and whether the request was accepted. -/
def Job.requestCancel (j : Job) : Job × Bool :=
  if j.state = .queued ∨ j.state = .running then ({ j with cancel_requested := true }, true)
    else (j, false)

end StegaPng
