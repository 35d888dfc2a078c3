import StegaPng.Sessions

/-! Receiving uploads and answering the commands of a session
(`storage.c`, `server.c`). -/

namespace StegaPng

open Interleaving

/-- The copying loop of `storage_receive_to_file`. -/
def receiveLoop (fd : Int) (dst_path : Bytes) (remaining : Nat) : Task Bool :=
  if remaining = 0 then return true else do
  match ← call (.read fd (min remaining chunkSize)) with
  | .error => return false
  | .eof => return false
  | .data b bs =>
    if !(← call (.fwrite dst_path (b :: bs))) then
      return false
    receiveLoop fd dst_path (remaining - (bs.length + 1))
termination_by remaining
decreasing_by omega

def storageReceiveToFile (fd : Int) (size : Nat) (dst_path : Bytes) : Task Bool := do
  if !(← call (.fopenWb dst_path)) then
    return false
  if !(← receiveLoop fd dst_path size) then
    let _ ← call (.fclose dst_path)
    call (.unlink dst_path)
    return false
  if !(← call (.fclose dst_path)) then
    call (.unlink dst_path)
    return false
  return true

def storageSendFile (fd : Int) (src_path : Bytes) : Task Bool := do
  if !(← call (.fopenRb src_path)) then
    return false
  let (bytes, complete) ← call (.freadAll src_path)
  if !(← call (.writeAll fd bytes)) then
    return false
  return complete

/-- `enqueue_job`; `payload`, `input_path` and `stored_path` may be NULL. -/
def enqueueJob (client : ClientSession) (type : JobType)
    (payload input_path stored_path : Option Bytes) :
    Task Bool := do
  match ← call (.createJob client.fd client.addr_str type payload input_path) with
  | none => sendResponsef client.fd (lit "ERR cannot create job\n")
  | some job =>
    if let some path := stored_path then
      jobSetStoredPath job path
    if !(← call (.push job)) then
      jobSetResult job (lit "enqueue failed")
      jobSetState job .failed
      sendResponsef client.fd (lit "ERR cannot enqueue job\n")
    else
      sendResponsef client.fd (lit "JOB " ++ decimal (← jobId job) ++ lit "\n")

/-- `receive_png_to_upload`: the path of the stored PNG, or `none` once an error has
been answered. -/
def receivePngToUpload (cfg : RuntimeConfig) (client : ClientSession) (png_size : UInt64) :
    Task (Option Bytes) := do
  if png_size = 0 ∨ png_size > cfg.max_upload_bytes then
    let _ ← sendResponsef client.fd (lit "ERR invalid png size\n")
    return none
  let next_id ← call .nextId
  match storageMakeUploadPath cfg next_id (lit "png") with
  | none =>
    let _ ← sendResponsef client.fd (lit "ERR path build failed\n")
    return none
  | some out_path =>
    if !(← storageReceiveToFile client.fd png_size.toNat out_path) then
      let _ ← sendResponsef client.fd (lit "ERR upload failed\n")
      return none
    return some out_path

/-- `receive_extra_to_file`. -/
def receiveExtraToFile (cfg : RuntimeConfig) (fd : Int) (size max : UInt64) (label : Bytes)
    (job_seq : Nat) (suffix : Bytes) : Task (Option Bytes) := do
  if size > max then
    let _ ← sendResponsef fd (lit "ERR " ++ label ++ lit " too large\n")
    return none
  match storageMakeUploadPath cfg job_seq suffix with
  | none =>
    let _ ← sendResponsef fd (lit "ERR path build failed\n")
    return none
  | some out_path =>
    if size = 0 then
      if !(← call (.fopenWb out_path)) then
        let _ ← sendResponsef fd (lit "ERR cannot create file\n")
        return none
      if !(← call (.fclose out_path)) then
        let _ ← sendResponsef fd (lit "ERR cannot close file\n")
        return none
      return some out_path
    if !(← storageReceiveToFile fd size.toNat out_path) then
      let _ ← sendResponsef fd (lit "ERR " ++ label ++ lit " receive failed\n")
      return none
    return some out_path

def handleEncodeText (cfg : RuntimeConfig) (client : ClientSession) (request : ProtocolRequest) :
    Task Unit := do
  match ← receivePngToUpload cfg client request.size1 with
  | none => return ()
  | some png_path =>
    let next_id ← call .nextId
    match ← receiveExtraToFile cfg client.fd request.size2 (UInt64.ofNat maxTextBytes)
      (lit "text") next_id
        (lit "txt") with
    | none => return ()
    | some text_path =>
      let _ ← enqueueJob client .encodeText none (some png_path) (some text_path)

/-- The rest of ENCODE_FILE after the name has been read. -/
def handleEncodeFileBody (cfg : RuntimeConfig) (client : ClientSession) (request : ProtocolRequest)
    (png_path filename : Bytes) : Task Unit := do
  let next_id ← call .nextId
  match ← receiveExtraToFile cfg client.fd request.size3 cfg.max_upload_bytes (lit "file") next_id
      (lit "data") with
  | none => return ()
  | some file_path =>
    let _ ← enqueueJob client .encodeFile (some (cstr filename)) (some png_path) (some file_path)

def handleEncodeFile (cfg : RuntimeConfig) (client : ClientSession) (request : ProtocolRequest) :
    Task Unit := do
  if request.size2.toNat > maxFilenameBytes then
    let _ ← call (.discardExact client.fd (request.size1 + request.size2 + request.size3).toNat)
    let _ ← sendResponsef client.fd (lit "ERR filename too long\n")
    return ()
  match ← receivePngToUpload cfg client request.size1 with
  | none => return ()
  | some png_path =>
    if request.size2 > 0 then
      match ← call (.readExact client.fd request.size2.toNat) with
      | none => let _ ← sendResponsef client.fd (lit "ERR filename read failed\n")
      | some filename =>
        if filename.length ≠ request.size2.toNat then
          let _ ← sendResponsef client.fd (lit "ERR filename read failed\n")
        else
          handleEncodeFileBody cfg client request png_path filename
    else
      handleEncodeFileBody cfg client request png_path []

/-- DECODE, VALIDATE and CAPACITY, which differ in the job they create. -/
def handlePngUpload (cfg : RuntimeConfig) (client : ClientSession) (request : ProtocolRequest)
    (type : JobType) : Task Unit := do
  match ← receivePngToUpload cfg client request.size1 with
  | none => return ()
  | some png_path => let _ ← enqueueJob client type none (some png_path) none

/-- SUBMIT, VALIDATE_IMAGE and ANALYZE_CAPACITY: an argument that must not be empty. -/
def handleArgument (client : ClientSession) (request : ProtocolRequest) (empty : Bytes)
    (enqueue : Task Bool) : Task Unit := do
  if request.argument1 = [] then
    let _ ← sendResponsef client.fd empty
  else
    let _ ← enqueue

/-- The commands about one job: look it up or say that it is unknown. -/
def withJob (fd : Int) (job_id : UInt64) (handle : Nat → Task Unit) : Task Unit := do
  match ← call (.findJob job_id) with
  | none => let _ ← sendResponsef fd (lit "ERR job not found\n")
  | some job => handle job

def handleStatus (fd : Int) (job_id : UInt64) (job : Nat) : Task Unit := do
  let st ← jobGetState job
  let _ ← sendResponsef fd
    (lit "STATUS " ++ decimal job_id.toNat ++ lit " " ++ jobStateToString st ++ lit "\n")

def handleResult (fd : Int) (job_id : UInt64) (job : Nat) : Task Unit := do
  let st ← jobGetState job
  if ¬ st.Terminal then
    let _ ← sendResponsef fd (lit "ERR job not finished state=" ++ jobStateToString st ++ lit "\n")
  else
    let result ← jobGetResult job
    let _ ← sendResponsef fd (lit "RESULT " ++ decimal job_id.toNat ++ lit " state=" ++
      jobStateToString st ++
      lit " msg=" ++ result ++ lit "\n")

def handleMeta (fd : Int) (job_id : UInt64) (job : Nat) : Task Unit := do
  if (← jobGetState job) ≠ .done then
    let _ ← sendResponsef fd (lit "ERR job not done\n")
  else
    let (kind, size, filename) ← jobGetResultMeta job
    let _ ← sendResponsef fd (lit "META " ++ decimal job_id.toNat ++ lit " type=" ++
      jobResultKindToString kind ++ lit " size=" ++ decimal size ++ lit " name=" ++
        filename ++ lit "\n")

def handleDownload (fd : Int) (job : Nat) : Task Unit := do
  if (← jobGetState job) ≠ .done then
    let _ ← sendResponsef fd (lit "ERR job not done\n")
  else
    let path ← jobGetOutputPath job
    if path = [] then
      let _ ← sendResponsef fd (lit "ERR no output\n")
    else
      match ← getFileSizeBytes path with
      | none => let _ ← sendResponsef fd (lit "ERR stat failed\n")
      | some size =>
        if ← sendResponsef fd (lit "DATA " ++ decimal size ++ lit "\n") then
          let _ ← storageSendFile fd path

/-- CANCEL, whose refusal reads differently for users and admins. -/
def handleCancel (fd : Int) (job_id : UInt64) (refused : Bytes) (job : Nat) : Task Unit := do
  if !(← call (.requestCancel job)) then
    let _ ← sendResponsef fd refused
  else
    let _ ← sendResponsef fd (lit "OK cancel requested " ++ decimal job_id.toNat ++ lit "\n")

def userHelp : Bytes :=
  lit "OK help user: PING QUIT | ENCODE_TEXT <png_len> <text_len> | " ++
  lit "ENCODE_FILE <png_len> <name_len> <file_len> | DECODE <png_len> | " ++
  lit "VALIDATE <png_len> | CAPACITY <png_len> | STATUS <id> | RESULT <id> | " ++
  lit "META <id> | DOWNLOAD <id> | CANCEL <id>\n"

def adminHelp : Bytes :=
  lit "OK help admin: PING QUIT STATS LISTJOBS HISTORY AVGDURATION LISTCLIENTS | " ++
  lit "CANCEL <id> | KICK <fd> | BLOCKIP <ip> | UNBLOCKIP <ip>\n"

/-- The commands of `handle_user_command` that leave the session open. -/
def answerUserCommand (cfg : RuntimeConfig) (client : ClientSession) (request : ProtocolRequest) :
    Task Unit :=
  match request.command with
  | .ping => do let _ ← sendResponsef client.fd (lit "PONG\n")
  | .help => do let _ ← sendResponsef client.fd userHelp
  | .submit => handleArgument client request (lit "ERR empty payload\n")
      (enqueueJob client .text (some request.argument1) none none)
  | .encodeText => handleEncodeText cfg client request
  | .encodeFile => handleEncodeFile cfg client request
  | .decode => handlePngUpload cfg client request .decode
  | .validate => handlePngUpload cfg client request .validateImage
  | .capacity => handlePngUpload cfg client request .analyzeCapacity
  | .validateImage => handleArgument client request (lit "ERR empty path\n")
      (enqueueJob client .validateImage none (some request.argument1) none)
  | .analyzeCapacity => handleArgument client request (lit "ERR empty path\n")
      (enqueueJob client .analyzeCapacity none (some request.argument1) none)
  | .status => withJob client.fd request.job_id (handleStatus client.fd request.job_id)
  | .result => withJob client.fd request.job_id (handleResult client.fd request.job_id)
  | .jobMeta => withJob client.fd request.job_id (handleMeta client.fd request.job_id)
  | .download => withJob client.fd request.job_id (handleDownload client.fd)
  | .cancel => withJob client.fd request.job_id
      (handleCancel client.fd request.job_id (lit "ERR cannot cancel job\n"))
  | .listjobs | .stats | .listclients | .history | .avgduration | .kick | .blockip | .unblockip =>
    do let _ ← sendResponsef client.fd (lit "ERR admin command\n")
  | .quit | .unknown => do let _ ← sendResponsef client.fd (lit "ERR unknown command\n")

/-- `handle_user_command`: the session afterwards. -/
def handleUserCommand (cfg : RuntimeConfig) (client : ClientSession) (request : ProtocolRequest) :
    Task ClientSession :=
  if request.command = .quit then do
    let _ ← sendResponsef client.fd (lit "BYE\n")
    closeClient client
  else do
    answerUserCommand cfg client request
    return client

/-- `parse_int_arg`: `strtol` must consume the whole text and give an `int32_t` that
is not negative. -/
def parseIntArg (text : Bytes) : Option Int :=
  let signed := text.dropWhile isSpace
  let negative := signed.head? = some 45
  let unsigned := if negative ∨ signed.head? = some 43 then signed.tail else signed
  let v := digitsValue (unsigned.takeWhile isDigit)
  if unsigned.takeWhile isDigit = [] then none
  else if unsigned.dropWhile isDigit ≠ [] then none
  else if negative ∧ v ≠ 0 then none
  else if v > 2 ^ 31 - 1 then none
  else some v

def ClientSession.matchesFd (c : ClientSession) (target_fd : Int) : Bool :=
  c.active && c.fd == target_fd && c.type == .user

def handleKick (m : MainState) (fd : Int) (argument : Bytes) : Task MainState := do
  match parseIntArg argument with
  | none =>
    let _ ← sendResponsef fd (lit "ERR invalid fd\n")
    return m
  | some target_fd =>
    match m.clients.slots.findIdx? (·.matchesFd target_fd) with
    | none =>
      let _ ← sendResponsef fd (lit "ERR client not found\n")
      return m
    | some i =>
      let clients := m.clients.set i { m.clients.get i with kick_requested := true }
      let _ ← sendResponsef target_fd (lit "ERR kicked by admin\n")
      let _ ← sendResponsef fd (lit "OK kicked fd=" ++ decimal target_fd.toNat ++ lit "\n")
      return { m with clients := clients }

def ClientSession.matchesIp (c : ClientSession) (ip : Bytes) : Bool :=
  c.active && c.type == .user && c.addr_str == ip

def handleBlockIp (m : MainState) (fd : Int) (ip : Bytes) : Task MainState := do
  if ip = [] then
    let _ ← sendResponsef fd (lit "ERR empty ip\n")
    return m
  match blocklistAdd m.blocklist ip with
  | none =>
    let _ ← sendResponsef fd (lit "ERR blocklist full\n")
    return m
  | some blocklist =>
    let kicked := (m.clients.slots.filter (·.matchesIp ip)).length
    let clients := m.clients.map fun c => if c.matchesIp ip then
      { c with kick_requested := true } else c
    let _ ← sendResponsef fd (lit "OK blocked ip=" ++ ip ++ lit " kicked=" ++
      decimal kicked ++ lit "\n")
    return { m with clients := clients, blocklist := blocklist }

def handleUnblockIp (m : MainState) (fd : Int) (ip : Bytes) : Task MainState := do
  if ip = [] then
    let _ ← sendResponsef fd (lit "ERR empty ip\n")
    return m
  match blocklistRemove m.blocklist ip with
  | none =>
    let _ ← sendResponsef fd (lit "ERR not in blocklist\n")
    return m
  | some blocklist =>
    let bl := blocklistFormat blocklist bufferSize
    let _ ← sendResponsef fd (lit "OK unblocked ip=" ++ ip ++ lit " blocklist=" ++ bl ++ lit "\n")
    return { m with blocklist := blocklist }

/-- `handle_admin_command` of the session in slot `i`. -/
def handleAdminCommand (dt : DurationText) (m : MainState) (i : Nat) (admin : ClientSession)
    (request : ProtocolRequest) : Task MainState :=
  match request.command with
  | .ping => do
    let _ ← sendResponsef admin.fd (lit "PONG\n")
    return m
  | .help => do
    let _ ← sendResponsef admin.fd adminHelp
    return m
  | .stats => do
    let st ← jobTableCollectStats
    let active_clients := m.clients.active.length
    let _ ← sendResponsef admin.fd
      (lit "STATS total=" ++ decimal st.total ++ lit " queued=" ++ decimal st.queued ++
        lit " running=" ++
        decimal st.running ++ lit " done=" ++ decimal st.done ++ lit " failed=" ++
          decimal st.failed ++
        lit " canceled=" ++ decimal st.canceled ++ lit " avg_ms=" ++ dt.average1 st.durations ++
        lit " clients=" ++ decimal active_clients ++ lit "\n")
    return m
  | .avgduration => do
    let st ← jobTableCollectStats
    let _ ← sendResponsef admin.fd (lit "AVGDURATION ms=" ++ dt.average2 st.durations ++
      lit " samples=" ++
      decimal (st.done + st.failed) ++ lit "\n")
    return m
  | .listjobs => do
    let list ← jobTableFormatList (bufferSize * 2)
    let _ ← sendResponsef admin.fd (lit "JOBS " ++ list ++ lit "\n")
    return m
  | .history => do
    let hist ← jobTableFormatHistory dt (bufferSize * 2) 50
    let _ ← sendResponsef admin.fd (lit "HISTORY " ++ hist ++ lit "\n")
    return m
  | .listclients => do
    let list := formatClientList m.clients (bufferSize * 2)
    let _ ← sendResponsef admin.fd (lit "CLIENTS " ++ list ++ lit "\n")
    return m
  | .cancel => do
    withJob admin.fd request.job_id (handleCancel admin.fd request.job_id
      (lit "ERR cannot cancel\n"))
    return m
  | .kick => handleKick m admin.fd request.argument1
  | .blockip => handleBlockIp m admin.fd request.argument1
  | .unblockip => handleUnblockIp m admin.fd request.argument1
  | .quit => do
    let _ ← sendResponsef admin.fd (lit "BYE\n")
    let closed ← closeClient admin
    return { m with clients := m.clients.set i closed }
  | _ => do
    let _ ← sendResponsef admin.fd (lit "ERR unknown admin command\n")
    return m

/-- `handle_client_command` for the session in slot `i`. The parser accepts every
line, so its error answer is never given. -/
def handleClientCommand (cfg : RuntimeConfig) (dt : DurationText) (m : MainState) (i : Nat)
    (client : ClientSession) : Task MainState := do
  match (← call (.readLine client.fd)).getD [] with
  | [] =>
    let closed ← closeClient client
    return { m with clients := m.clients.set i closed }
  | buffer =>
    let request := protocolParseLine buffer
    if client.type = .admin then
      handleAdminCommand dt m i client request
    else
      let client' ← handleUserCommand cfg client request
      return { m with clients := m.clients.set i client' }

end StegaPng
