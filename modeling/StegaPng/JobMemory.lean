import StegaPng.Sessions
import StegaPng.Transactions

/-! The functions of `job.c` statement by statement, each access to the table or to a job
on its own, under the table's mutex and the jobs' mutexes. -/

namespace StegaPng

namespace Locked

open Interleaving

abbrev JobPtr := Nat

/-- The mutexes of `job.c`, with what each of them guards. -/
inductive JobLock where
  | table
  | job (p : JobPtr)
  deriving DecidableEq

/-- `job_table_t`, the mutex aside. -/
structure TableMemory where
  slots : Nat → Option JobPtr := fun _ => none
  count : Nat := 0
  next_id : Nat := 1

inductive TableAccess where
  | readSlot (i : Nat)
  | readCount
  | readNextId
  | writeSlot (i : Nat) (p : JobPtr)
  | writeCount (n : Nat)
  | writeNextId (n : Nat)

@[reducible] def TableAccess.Answer : TableAccess → Type
  | .readSlot _ => Option JobPtr
  | .readCount => Nat
  | .readNextId => Nat
  | _ => Unit

def TableAccess.act : (d : TableAccess) → TableMemory → d.Answer × TableMemory
  | .readSlot i, m => (m.slots i, m)
  | .readCount, m => (m.count, m)
  | .readNextId, m => (m.next_id, m)
  | .writeSlot i p, m => ((), { m with slots := Function.update m.slots i (some p) })
  | .writeCount n, m => ((), { m with count := n })
  | .writeNextId n, m => ((), { m with next_id := n })

/-- The fields of `job_t`. -/
inductive JobCell where
  | id | ownerFd | type | state | cancelRequested | payload | inputPath | storedPath | outputPath
      | resultFilename
  | resultKind | resultSize | result | ownerIp | createdAt | startedAt | finishedAt
  deriving DecidableEq

@[reducible] def JobCell.Val : JobCell → Type
  | .id => Nat
  | .ownerFd => Int
  | .type => JobType
  | .state => JobState
  | .cancelRequested => Bool
  | .resultKind => JobResultKind
  | .resultSize => Nat
  | .createdAt => Nat
  | .startedAt => Nat
  | .finishedAt => Nat
  | _ => Bytes

def JobCell.read (job : Job) : (c : JobCell) → c.Val
  | .id => job.id
  | .ownerFd => job.owner_fd
  | .type => job.type
  | .state => job.state
  | .cancelRequested => job.cancel_requested
  | .payload => job.payload
  | .inputPath => job.input_path
  | .storedPath => job.stored_path
  | .outputPath => job.output_path
  | .resultFilename => job.result_filename
  | .resultKind => job.result_kind
  | .resultSize => job.result_size
  | .result => job.result
  | .ownerIp => job.owner_ip
  | .createdAt => job.created_at
  | .startedAt => job.started_at
  | .finishedAt => job.finished_at

def JobCell.write (job : Job) : (c : JobCell) → c.Val → Job
  | .id, v => { job with id := v }
  | .ownerFd, v => { job with owner_fd := v }
  | .type, v => { job with type := v }
  | .state, v => { job with state := v }
  | .cancelRequested, v => { job with cancel_requested := v }
  | .payload, v => { job with payload := v }
  | .inputPath, v => { job with input_path := v }
  | .storedPath, v => { job with stored_path := v }
  | .outputPath, v => { job with output_path := v }
  | .resultFilename, v => { job with result_filename := v }
  | .resultKind, v => { job with result_kind := v }
  | .resultSize, v => { job with result_size := v }
  | .result, v => { job with result := v }
  | .ownerIp, v => { job with owner_ip := v }
  | .createdAt, v => { job with created_at := v }
  | .startedAt, v => { job with started_at := v }
  | .finishedAt, v => { job with finished_at := v }

inductive JobAccess where
  | read (c : JobCell)
  | write (c : JobCell) (v : c.Val)

@[reducible] def JobAccess.Answer : JobAccess → Type
  | .read c => c.Val
  | .write _ _ => Unit

def JobAccess.act : (d : JobAccess) → Job → d.Answer × Job
  | .read c, job => (c.read job, job)
  | .write c v, job => ((), c.write job v)

/-- What `calloc` leaves. -/
def zeroJob : Job := { id := 0, owner_fd := 0, type := .unknown }

/-- What a thread gets from outside: the time, the outcome of `pthread_mutex_init`, and
what its callers ask for. -/
inductive JobInput where
  | clock
  | mutexInit
  | request
  deriving DecidableEq

@[reducible] def JobInput.Given : JobInput → Type
  | .clock => Nat
  | .mutexInit => Bool
  | .request => Nat

/-- The memory of `job.c`: a job's `id` is read without its mutex, and never changes once
the job is in the table. -/
@[reducible] def objects : Locks.Objects where
  Lock := JobLock
  Ptr := JobPtr
  block := .job
  Data
    | .table => TableMemory
    | .job _ => Job
  Fixed
    | .table => Unit
    | .job _ => Nat
  fixed
    | .table, _ => ()
    | .job _, job => job.id
  Access
    | .table => TableAccess
    | .job _ => JobAccess
  Answer
    | .table, d => d.Answer
    | .job _, d => d.Answer
  act
    | .table, d, m => d.act m
    | .job _, d, job => d.act job
  zero
    | .table => {}
    | .job _ => zeroJob
  Input := JobInput
  Given := JobInput.Given

instance : DecidableEq objects.Lock := inferInstanceAs (DecidableEq JobLock)

/-- What the threads share. -/
abbrev Memory (T : Type) := Locks.State T objects

abbrev JobTask (α : Type) := Locks.Task objects α

variable {α T : Type}

theorem put_here (s : Memory T) (l : JobLock) (slot : Locks.Slot T (objects.Data l)) :
    s.put l slot l = slot :=
  Function.update_self ..

theorem put_there (s : Memory T) {l l' : JobLock} (slot : Locks.Slot T (objects.Data l))
    (hl : l' ≠ l) :
    s.put l slot l' = s l' :=
  Function.update_of_ne hl ..

def lock (l : JobLock) : JobTask Unit := .op (.lock l) .ret

def unlock (l : JobLock) : JobTask Unit := .op (.release l .unlock) .ret

def readCount : JobTask Nat := .op (.act .table .readCount) .ret

def readSlot (i : Nat) : JobTask (Option JobPtr) := .op (.act .table (.readSlot i)) .ret

def readCell (p : JobPtr) (c : JobCell) : JobTask c.Val := .op (.act (.job p) (.read c)) .ret

def writeCell (p : JobPtr) (c : JobCell) (v : c.Val) : JobTask Unit :=
  .op (.act (.job p) (.write c v)) .ret

/-- `job->id`, without the mutex. -/
def peekId (p : JobPtr) : JobTask Nat := .op (.peek (.job p)) .ret

def clock : JobTask Nat := .op (.ask .clock) .ret

/-- A section under the mutex of a job. -/
def jobLocked (p : JobPtr) (body : JobTask α) : JobTask α := do
  lock (.job p)
  let a ← body
  unlock (.job p)
  pure a

/-- `job->state == a || job->state == b` -/
def stateIs (p : JobPtr) (a b : JobState) : JobTask Bool := do
  if (← readCell p .state) = a then pure true
  else
    let state ← readCell p .state
    pure (decide (state = b))

def jobRequestCancel (p : JobPtr) : JobTask Bool := jobLocked p do
  if ← stateIs p .queued .running then
    writeCell p .cancelRequested true
    pure true
  else pure false

def jobSetState (p : JobPtr) (s : JobState) : JobTask Unit := jobLocked p do
  writeCell p .state s
  if s = .running then
    let now ← clock
    writeCell p .startedAt now
  else if s.Terminal then
    let now ← clock
    writeCell p .finishedAt now
  else pure ()

def jobGetState (p : JobPtr) : JobTask JobState := jobLocked p (readCell p .state)

def jobIsCancelRequested (p : JobPtr) : JobTask Bool := jobLocked p (readCell p .cancelRequested)

def jobSetResult (p : JobPtr) (result : Bytes) : JobTask Unit :=
  jobLocked p (writeCell p .result (snprintf maxJobResult result))

def jobGetResult (p : JobPtr) : JobTask Bytes := jobLocked p (readCell p .result)

def jobGetPayload (p : JobPtr) : JobTask Bytes := jobLocked p (readCell p .payload)

def jobGetInputPath (p : JobPtr) : JobTask Bytes := jobLocked p (readCell p .inputPath)

def jobSetStoredPath (p : JobPtr) (path : Bytes) : JobTask Unit :=
  jobLocked p (writeCell p .storedPath (snprintf maxJobPath path))

def jobGetStoredPath (p : JobPtr) : JobTask Bytes := jobLocked p (readCell p .storedPath)

def jobSetOutputPath (p : JobPtr) (path : Bytes) : JobTask Unit :=
  jobLocked p (writeCell p .outputPath (snprintf maxJobPath path))

def jobGetOutputPath (p : JobPtr) : JobTask Bytes := jobLocked p (readCell p .outputPath)

def jobSetResultMeta (p : JobPtr) (kind : JobResultKind) (size : Nat) (filename : Option Bytes) :
    JobTask Unit :=
  jobLocked p do
    writeCell p .resultKind kind
    writeCell p .resultSize size
    match filename with
    | some filename => writeCell p .resultFilename (snprintf maxJobFilename filename)
    | none => writeCell p .resultFilename []

def jobGetResultMeta (p : JobPtr) : JobTask (JobResultKind × Nat × Bytes) := jobLocked p do
  let kind ← readCell p .resultKind
  let size ← readCell p .resultSize
  let filename ← readCell p .resultFilename
  pure (kind, size, filename)

def jobGetOwnerFd (p : JobPtr) : JobTask Int := jobLocked p (readCell p .ownerFd)

def jobGetOwnerIp (p : JobPtr) : JobTask Bytes := jobLocked p (readCell p .ownerIp)

def jobGetType (p : JobPtr) : JobTask JobType := jobLocked p (readCell p .type)

/-- A block of `calloc`: nobody else has its address. -/
def calloc : JobTask (Option JobPtr) := .op .alloc .ret

def free (p : JobPtr) : JobTask Unit := .op (.release (.job p) .free) .ret

/-- From here on the others can get at the job. -/
def share (p : JobPtr) : JobTask Unit := .op (.release (.job p) .share) .ret

def mutexInit : JobTask Bool := .op (.ask .mutexInit) .ret

def readNextId : JobTask Nat := .op (.act .table .readNextId) .ret

def writeSlot (i : Nat) (p : JobPtr) : JobTask Unit := .op (.act .table (.writeSlot i p)) .ret

def writeCount (n : Nat) : JobTask Unit := .op (.act .table (.writeCount n)) .ret

def writeNextId (n : Nat) : JobTask Unit := .op (.act .table (.writeNextId n)) .ret

/-- `if (text != NULL) snprintf(…)` -/
def writePayload (p : JobPtr) : Option Bytes → JobTask Unit
  | some payload => writeCell p .payload (snprintf maxJobPayload payload)
  | none => pure ()

def writeInputPath (p : JobPtr) : Option Bytes → JobTask Unit
  | some input_path => writeCell p .inputPath (snprintf maxJobPath input_path)
  | none => pure ()

/-- The statements of `job_table_create_job` that fill the job in. -/
def fillJob (job : JobPtr) (owner_fd : Int) (owner_ip : Bytes) (type : JobType)
    (payload input_path : Option Bytes) :
    JobTask Unit := do
  let id ← readNextId
  writeCell job .id id
  let next_id ← readNextId
  writeNextId (next_id + 1)
  writeCell job .ownerFd owner_fd
  writeCell job .type type
  writeCell job .state .queued
  writeCell job .cancelRequested false
  writeCell job .resultKind .none
  writeCell job .resultSize 0
  writeCell job .ownerIp (snprintf 64 owner_ip)
  writePayload job payload
  writeInputPath job input_path
  let now ← clock
  writeCell job .createdAt now

/-- The end of `job_table_create_job`. The block is its thread's own up to here, and nobody
reads the slot before the unlock. -/
def publishJob (job : JobPtr) : JobTask (Option JobPtr) := do
  let i ← readCount
  writeSlot i job
  let count ← readCount
  writeCount (count + 1)
  share job
  unlock .table
  pure (some job)

def jobTableCreateJob (owner_fd : Int) (owner_ip : Bytes) (type : JobType)
    (payload input_path : Option Bytes) :
    JobTask (Option JobPtr) := do
  match ← calloc with
  | none => pure none
  | some job =>
    if !(← mutexInit) then
      free job
      pure none
    else
      lock .table
      if (← readCount) ≥ maxJobs then
        unlock .table
        free job
        pure none
      else
        fillJob job owner_fd owner_ip type payload input_path
        publishJob job

/-- The loop of `job_table_find`, with `left` slots to go. -/
def findFrom (job_id : UInt64) : Nat → Nat → JobTask (Option JobPtr)
  | _, 0 => pure none
  | i, left + 1 => do
    match ← readSlot i with
    | none => findFrom job_id (i + 1) left
    | some job =>
      if (← peekId job) = job_id.toNat then pure (some job)
      else findFrom job_id (i + 1) left

/-- `job_table_find`, its checks of the arguments aside. -/
def findLocked (job_id : UInt64) : JobTask (Option JobPtr) := do
  lock .table
  let count ← readCount
  let result ← findFrom job_id 0 count
  unlock .table
  pure result

/-! What the reports do with one job. -/

/-- For `job_table_collect_stats`: the job is counted, and its duration if it is over. -/
def statsItem (p : JobPtr) (st : JobStats) : JobTask JobStats := jobLocked p do
  let state ← readCell p .state
  let st := match state with
    | .queued => { st with queued := st.queued + 1 }
    | .running => { st with running := st.running + 1 }
    | .done => { st with done := st.done + 1 }
    | .failed => { st with failed := st.failed + 1 }
    | .canceled => { st with canceled := st.canceled + 1 }
  if ← stateIs p .done .failed then
    let started_at ← readCell p .startedAt
    let finished_at ← readCell p .finishedAt
    let d := (finished_at : Int) - started_at
    pure (if d ≥ 0 then { st with durations := st.durations ++ [d] } else st)
  else pure st

/-- For `job_table_format_list`: the item of the job. -/
def listItem (p : JobPtr) : JobTask Bytes := jobLocked p do
  let id ← readCell p .id
  let type ← readCell p .type
  let state ← readCell p .state
  let owner_ip ← readCell p .ownerIp
  pure (snprintf 256 (lit "id=" ++ decimal id ++ lit ",type=" ++ jobTypeToString type ++
    lit ",state=" ++
    jobStateToString state ++ lit ",ip=" ++ owner_ip))

/-- `job->state == DONE || job->state == FAILED || job->state == CANCELED` -/
def stateTerminal (p : JobPtr) : JobTask Bool := do
  if ← stateIs p .done .failed then pure true
  else
    let state ← readCell p .state
    pure (decide (state = .canceled))

/-- For `job_table_format_history`: the item of a job that is over. -/
def historyItem (dt : DurationText) (p : JobPtr) : JobTask (Option Bytes) := jobLocked p do
  if ← stateTerminal p then
    let started_at ← readCell p .startedAt
    let finished_at ← readCell p .finishedAt
    let id ← readCell p .id
    let type ← readCell p .type
    let state ← readCell p .state
    let owner_ip ← readCell p .ownerIp
    pure (some (snprintf 320 (lit "id=" ++ decimal id ++ lit ",type=" ++ jobTypeToString type ++
      lit ",state=" ++
      jobStateToString state ++ lit ",dur_ms=" ++ dt.one ((finished_at : Int) - started_at) ++
        lit ",ip=" ++ owner_ip)))
  else pure none

/-- For `job_table_cancel_by_owner`: whether the job is counted. -/
def cancelItem (p : JobPtr) (owner_fd : Int) : JobTask Bool := jobLocked p do
  if (← readCell p .ownerFd) = owner_fd then
    if ← stateIs p .queued .running then
      writeCell p .cancelRequested true
      pure true
    else pure false
  else pure false

/-! The calls that are over with one pass through the mutexes, and programs of them. -/

inductive JobCall where
  | create (owner_fd : Int) (owner_ip : Bytes) (type : JobType) (payload input_path : Option Bytes)
  | find (job_id : UInt64)
  | requestCancel (p : JobPtr)
  | setState (p : JobPtr) (s : JobState)
  | setResult (p : JobPtr) (result : Bytes)
  | setStoredPath (p : JobPtr) (path : Bytes)
  | setOutputPath (p : JobPtr) (path : Bytes)
  | setResultMeta (p : JobPtr) (kind : JobResultKind) (size : Nat) (filename : Option Bytes)
  | getState (p : JobPtr)
  | isCancelRequested (p : JobPtr)
  | getResult (p : JobPtr)
  | getPayload (p : JobPtr)
  | getInputPath (p : JobPtr)
  | getStoredPath (p : JobPtr)
  | getOutputPath (p : JobPtr)
  | getResultMeta (p : JobPtr)
  | getOwnerFd (p : JobPtr)
  | getOwnerIp (p : JobPtr)
  | getType (p : JobPtr)
  | statsItem (p : JobPtr) (st : JobStats)
  | listItem (p : JobPtr)
  | historyItem (dt : DurationText) (p : JobPtr)
  | cancelItem (p : JobPtr) (owner_fd : Int)

@[reducible] def JobCall.Res : JobCall → Type
  | .create .. => Option JobPtr
  | .find _ => Option JobPtr
  | .requestCancel _ => Bool
  | .setState .. => Unit
  | .setResult .. => Unit
  | .setStoredPath .. => Unit
  | .setOutputPath .. => Unit
  | .setResultMeta .. => Unit
  | .getState _ => JobState
  | .isCancelRequested _ => Bool
  | .getResult _ => Bytes
  | .getPayload _ => Bytes
  | .getInputPath _ => Bytes
  | .getStoredPath _ => Bytes
  | .getOutputPath _ => Bytes
  | .getResultMeta _ => JobResultKind × Nat × Bytes
  | .getOwnerFd _ => Int
  | .getOwnerIp _ => Bytes
  | .getType _ => JobType
  | .statsItem .. => JobStats
  | .listItem _ => Bytes
  | .historyItem .. => Option Bytes
  | .cancelItem .. => Bool

def JobCall.body : (b : JobCall) → JobTask b.Res
  | .create owner_fd owner_ip type payload input_path =>
    jobTableCreateJob owner_fd owner_ip type payload input_path
  | .find job_id => findLocked job_id
  | .requestCancel p => jobRequestCancel p
  | .setState p s => jobSetState p s
  | .setResult p result => jobSetResult p result
  | .setStoredPath p path => jobSetStoredPath p path
  | .setOutputPath p path => jobSetOutputPath p path
  | .setResultMeta p kind size filename => jobSetResultMeta p kind size filename
  | .getState p => jobGetState p
  | .isCancelRequested p => jobIsCancelRequested p
  | .getResult p => jobGetResult p
  | .getPayload p => jobGetPayload p
  | .getInputPath p => jobGetInputPath p
  | .getStoredPath p => jobGetStoredPath p
  | .getOutputPath p => jobGetOutputPath p
  | .getResultMeta p => jobGetResultMeta p
  | .getOwnerFd p => jobGetOwnerFd p
  | .getOwnerIp p => jobGetOwnerIp p
  | .getType p => jobGetType p
  | .statsItem p st => Locked.statsItem p st
  | .listItem p => Locked.listItem p
  | .historyItem dt p => Locked.historyItem dt p
  | .cancelItem p owner_fd => Locked.cancelItem p owner_fd

/-- A program that uses the table. -/
abbrev JobClient (α : Type) := Locks.Client JobCall.Res objects α

def jobCall (b : JobCall) : JobClient b.Res := .op (.call b) .ret

def jobTableFind (job_id : UInt64) : JobClient (Option JobPtr) :=
  if job_id = 0 then pure none else jobCall (.find job_id)

/-- The loops over the table: `visit` for the job in each of the slots, until it says that
this is enough. -/
def scanJobs (visit : α → JobPtr → JobClient (α × Bool)) : List Nat → α → JobClient α
  | [], acc => pure acc
  | i :: slots, acc => do
    match ← (.op (.prim (.act .table (.readSlot i))) .ret : JobClient (Option JobPtr)) with
    | none => scanJobs visit slots acc
    | some job =>
      let visited ← visit acc job
      if visited.2 then scanJobs visit slots visited.1 else pure visited.1

/-- What is done with the number of jobs while the table's mutex is held. -/
def underTable (body : Nat → JobClient α) : JobClient α := do
  (.op (.prim (.lock .table)) .ret : JobClient Unit)
  let count ← (.op (.prim (.act .table .readCount)) .ret : JobClient Nat)
  let a ← body count
  (.op (.prim (.release .table .unlock)) .ret : JobClient Unit)
  pure a

/-- What `server.c` does to name an upload. -/
def nextJobId : JobClient Nat := do
  (.op (.prim (.lock .table)) .ret : JobClient Unit)
  let next_id ← (.op (.prim (.act .table .readNextId)) .ret : JobClient Nat)
  (.op (.prim (.release .table .unlock)) .ret : JobClient Unit)
  pure next_id

def jobTableCollectStats : JobClient JobStats := underTable fun count =>
  scanJobs (fun st job => do
    let st ← jobCall (.statsItem job st)
    pure (st, true)) (List.range count) { total := count }

def jobTableFormatList (buffer_size : Nat) : JobClient Bytes := underTable fun count =>
  if count = 0 then pure (snprintf buffer_size (lit "empty"))
  else scanJobs (fun out job => do
    let item ← jobCall (.listItem job)
    match appendItem 59 buffer_size out item with
    | none => pure (out, false)
    | some out' => pure (out', true)) (List.range count) []

/-- The loop of `job_table_format_history`, from the last job back: the text and how many
jobs it shows, fewer than `max_items` before each visit. -/
def showHistory (dt : DurationText) (buffer_size max_items count : Nat) : JobClient (Bytes × Nat) :=
  if max_items = 0 then pure ([], 0)
  else scanJobs (fun acc job => do
    let item ← jobCall (.historyItem dt job)
    match item.bind (appendItem 59 buffer_size acc.1) with
    | none => pure (acc, true)
    | some out' =>
      pure ((out', acc.2 + 1), decide (acc.2 + 1 < max_items))) (List.range count).reverse ([], 0)

def jobTableFormatHistory (dt : DurationText) (buffer_size max_items : Nat) : JobClient Bytes :=
  underTable fun count => do
  let shown ← showHistory dt buffer_size max_items count
  pure (if shown.2 = 0 then snprintf buffer_size (lit "empty") else shown.1)

def jobTableCancelByOwner (owner_fd : Int) : JobClient Nat := underTable fun count =>
  scanJobs (fun n job => do
    let canceled ← jobCall (.cancelItem job owner_fd)
    pure (if canceled then n + 1 else n, true)) (List.range count) 0

end Locked

end StegaPng
