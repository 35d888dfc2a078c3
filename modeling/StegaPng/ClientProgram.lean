import StegaPng.Configuration
import StegaPng.Worker

/-! The command line client (`client/main.c`) over the calls that it makes. -/

namespace StegaPng

open Interleaving

/-- What `fopen` and the calls of `fread` after it make of a local file: the bytes that are
read, and whether the last call failed. -/
structure LocalFile where
  content : Bytes
  error : Bool
  deriving DecidableEq

/-- The calls of the client. A line of a command and a part of an upload are both written
with `write_all`; the banner is read like every other line. -/
inductive ClientOp where
  | connect
  | readBanner
  | stat (path : Bytes)
  | openFile (path : Bytes)
  | write (part : Bytes)
  | send (line : Bytes)
  | readLine
  | readExact (size : Nat)
  | create (path : Bytes)
  | put (part : Bytes)
  | nanosleep
  | close
  deriving DecidableEq

@[reducible] def ClientOp.Answer : ClientOp → Type
  | .connect | .write _ | .send _ | .create _ | .put _ => Bool
  | .readBanner | .readLine | .readExact _ => Option Bytes
  | .stat _ => Option Nat
  | .openFile _ => Option LocalFile
  | .nanosleep | .close => Unit

abbrev Client := Prog ClientOp ClientOp.Answer

def act (o : ClientOp) : Client o.Answer := .perform o

/-- `strstr`: the text from the first place where `needle` occurs. -/
def strstr (text needle : Bytes) : Option Bytes := text.tails.find? needle.isPrefixOf

/-- `expect_line`: the line that has been read, if it is not empty. -/
def expectLine : Client (Option Bytes) := do
  match ← act .readLine with
  | none => return none
  | some [] => return none
  | some (b :: bs) => return some (b :: bs)

/-- The loop of `send_file_bytes`; it ends within as many rounds as there are bytes. -/
def sendChunks : Nat → Bytes → Client Bool
  | 0, _ => return true
  | rounds + 1, content => do
    if content = [] then
      return true
    if !(← act (.write (content.take chunkSize))) then
      return false
    sendChunks rounds (content.drop chunkSize)

def sendFileBytes (path : Bytes) : Client Bool := do
  match ← act (.openFile path) with
  | none => return false
  | some file =>
    if !(← sendChunks file.content.length file.content) then
      return false
    return !file.error

/-- `wait_for_done`, which asks 120 times. -/
def waitForDone (job_id : UInt64) : Nat → Client Bool
  | 0 => return false
  | polls + 1 => do
    if !(← act (.send (snprintf 64 (lit "STATUS " ++ decimal job_id.toNat ++ lit "\n")))) then
      return false
    match ← expectLine with
    | none => return false
    | some buf =>
      if (strstr (cstr buf) (lit "DONE")).isSome then return true
      if (strstr (cstr buf) (lit "FAILED")).isSome then return false
      if (strstr (cstr buf) (lit "CANCELED")).isSome then return false
      let _ ← act .nanosleep
      waitForDone job_id polls

def parseJobId (line : Bytes) : UInt64 :=
  match strstr (cstr line) (lit "JOB ") with
  | none => 0
  | some p => (strtoull (p.drop 4)).value

def parseDataSize (line : Bytes) : Int :=
  if (lit "DATA ").isPrefixOf (cstr line) then (strtol ((cstr line).drop 5)).value else -1

/-- The loop of `download_result`; each round reads one byte at least. -/
def saveData : Nat → Nat → Client Bool
  | 0, _ => return true
  | rounds + 1, remaining => do
    if remaining = 0 then
      return true
    match ← act (.readExact (min remaining chunkSize)) with
    | none => return false
    | some part =>
      if part = [] then return false
      if !(← act (.put part)) then
        return false
      saveData rounds (remaining - part.length)

def downloadResult (job_id : UInt64) (out_path : Bytes) : Client Bool := do
  if !(← act (.send (snprintf 64 (lit "DOWNLOAD " ++ decimal job_id.toNat ++ lit "\n")))) then
    return false
  match ← expectLine with
  | none => return false
  | some buf =>
    let size := parseDataSize buf
    if size < 0 then
      return false
    if !(← act (.create out_path)) then
      return false
    saveData size.toNat size.toNat

def cmdEncodeText (png_in text out_png : Bytes) : Client Bool := do
  match ← act (.stat png_in) with
  | none => return false
  | some png_size =>
    if !(← act (.send (snprintf 256 (lit "ENCODE_TEXT " ++ decimal png_size ++ lit " " ++
        decimal text.length ++ lit "\n")))) then
      return false
    if !(← sendFileBytes png_in) then
      return false
    if !(← act (.write text)) then
      return false
    match ← expectLine with
    | none => return false
    | some buf =>
      let job_id := parseJobId buf
      if job_id = 0 then
        return false
      if !(← waitForDone job_id 120) then
        let _ ← act (.send (lit "RESULT 0\n"))
        let _ ← act (.send (snprintf 64 (lit "RESULT " ++ decimal job_id.toNat ++ lit "\n")))
        let _ ← expectLine
        return false
      let _ ← act (.send (snprintf 64 (lit "META " ++ decimal job_id.toNat ++ lit "\n")))
      let _ ← expectLine
      downloadResult job_id out_png

def cmdEncodeFile (png_in file_in out_png : Bytes) : Client Bool := do
  match ← act (.stat png_in) with
  | none => return false
  | some png_size =>
    match ← act (.stat file_in) with
    | none => return false
    | some file_size =>
      let base := baseName file_in
      if !(← act (.send (snprintf 256 (lit "ENCODE_FILE " ++ decimal png_size ++ lit " " ++
        decimal base.length ++
          lit " " ++ decimal file_size ++ lit "\n")))) then
        return false
      if !(← sendFileBytes png_in) then
        return false
      if !(← act (.write base)) then
        return false
      if !(← sendFileBytes file_in) then
        return false
      match ← expectLine with
      | none => return false
      | some buf =>
        let job_id := parseJobId buf
        if job_id = 0 then
          return false
        if !(← waitForDone job_id 120) then
          return false
        downloadResult job_id out_png

def cmdDecode (png_in out_path : Bytes) : Client Bool := do
  match ← act (.stat png_in) with
  | none => return false
  | some png_size =>
    if !(← act (.send (snprintf 128 (lit "DECODE " ++ decimal png_size ++ lit "\n")))) then
      return false
    if !(← sendFileBytes png_in) then
      return false
    match ← expectLine with
    | none => return false
    | some buf =>
      let job_id := parseJobId buf
      if job_id = 0 then
        return false
      if !(← waitForDone job_id 120) then
        return false
      let _ ← act (.send (snprintf 64 (lit "META " ++ decimal job_id.toNat ++ lit "\n")))
      let _ ← expectLine
      downloadResult job_id out_path

/-- `cmd_capacity` and `cmd_validate`, which differ in the command. -/
def cmdResult (verb : Bytes) (png_in : Bytes) : Client Bool := do
  match ← act (.stat png_in) with
  | none => return false
  | some png_size =>
    if !(← act (.send (snprintf 128 (verb ++ decimal png_size ++ lit "\n")))) then
      return false
    if !(← sendFileBytes png_in) then
      return false
    match ← expectLine with
    | none => return false
    | some buf =>
      let job_id := parseJobId buf
      if job_id = 0 then
        return false
      if !(← waitForDone job_id 120) then
        return false
      let _ ← act (.send (snprintf 64 (lit "RESULT " ++ decimal job_id.toNat ++ lit "\n")))
      let _ ← expectLine
      return true

def cmdCapacity (png_in : Bytes) : Client Bool := cmdResult (lit "CAPACITY ") png_in

def cmdValidate (png_in : Bytes) : Client Bool := cmdResult (lit "VALIDATE ") png_in

def cmdPing : Client Bool := do
  let _ ← act (.send (lit "PING\n"))
  return (← expectLine).isSome

def subcommand (argv : List Bytes) : Option (Client Bool) :=
  match argv with
  | _ :: command :: args =>
    if command = lit "ping" then some cmdPing else
    match args with
    | [png_in, text, out] =>
      if command = lit "encode-text" then some (cmdEncodeText png_in text out)
      else if command = lit "encode-file" then some (cmdEncodeFile png_in text out) else none
    | [png_in, out] => if command = lit "decode" then some (cmdDecode png_in out) else none
    | [png_in] =>
      if command = lit "capacity" then some (cmdCapacity png_in)
      else if command = lit "validate" then some (cmdValidate png_in) else none
    | _ => none
  | _ => none

/-- `main`: whether it ends with `EXIT_SUCCESS`. -/
def clientMain (argv : List Bytes) : Client Bool := do
  if argv.length < 2 then
    return false
  if !(← act .connect) then
    return false
  let _ ← act .readBanner
  match subcommand argv with
  | none =>
    let _ ← act .close
    return false
  | some run =>
    let rc ← run
    let _ ← act (.send (lit "QUIT\n"))
    let _ ← expectLine
    let _ ← act .close
    return rc

end StegaPng
