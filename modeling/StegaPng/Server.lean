import StegaPng.Commands

/-! The poll loop of `server_run` and the threads of the running server. -/

namespace StegaPng

open Interleaving

/-- The descriptors of `server_state_t`. -/
structure ServerFds where
  listen_fd_user : Int
  listen_fd_admin : Int
  listen_fd_unix : Int
  pipe_read_fd : Int
  inotify_fd : Int

/-- `rebuild_pollfds`: the descriptors to wait for. -/
def rebuildPollfds (fds : ServerFds) (clients : Clients) : List Int :=
  [fds.listen_fd_user, fds.listen_fd_admin, fds.listen_fd_unix, fds.pipe_read_fd, fds.inotify_fd] ++
    clients.active.map (·.fd)

/-- A connection that is turned away: told why, then closed. -/
def rejectConnection (m : MainState) (client_fd : Int) (text : Bytes) : Task MainState := do
  let _ ← sendResponsef client_fd text
  call (.close client_fd)
  return m

def admitConnection (m : MainState) (client_fd : Int) (type : ClientType) (addr_str : Bytes) :
    Task MainState := do
  match addClient m.clients client_fd type addr_str with
  | none => rejectConnection m client_fd (lit "ERR server full\n")
  | some clients =>
    let _ ← sendResponsef client_fd (lit "OK connected\n")
    return { m with clients := clients }

/-- `accept_new_inet_connection`, with the connection it met. -/
def acceptNewInetConnection (m : MainState) (listen_fd : Int) (type : ClientType)
    (single_admin_only : Bool) : Task (MainState × Option Connection) := do
  match ← call (.accept listen_fd) with
  | none => return (m, none)
  | some c =>
    if type = .user && blocklistContains m.blocklist c.addr then
      return (← rejectConnection m c.fd (lit "ERR ip blocked\n"), some c)
    if single_admin_only && m.clients.slots.any (fun s => s.active && s.type == .admin) then
      return (← rejectConnection m c.fd (lit "ERR admin already connected\n"), some c)
    return (← admitConnection m c.fd type c.addr, some c)

/-- `accept_new_unix_connection`. -/
def acceptNewUnixConnection (m : MainState) (listen_fd : Int) :
    Task (MainState × Option Connection) := do
  match ← call (.accept listen_fd) with
  | none => return (m, none)
  | some c => return (← admitConnection m c.fd .user (lit "unix-local"), some c)

/-- The walk over the sessions after a poll consults one entry for each active slot. -/
structure Visit where
  slot : Nat
  idx : Nat
  handled : Bool
  deriving DecidableEq

def Revents.any (r : Revents) : Bool := r.pollin || r.pollhup || r.pollerr

def walkClients (cfg : RuntimeConfig) (dt : DurationText) (revents : Nat → Revents) :
    Nat → Nat → Nat → MainState → Task (MainState × List Visit)
  | 0, _, _, m => return (m, [])
  | left + 1, i, idx, m => do
    let client := m.clients.get i
    if !client.active then
      walkClients cfg dt revents left (i + 1) idx m
    else
      let hit := (revents idx).any
      let m' ← (if hit then handleClientCommand cfg dt m i client else pure m)
      let (m'', visits) ← walkClients cfg dt revents left (i + 1) (idx + 1) m'
      return (m'', { slot := i, idx := idx, handled := hit } :: visits)

/-- What one iteration of the poll loop did with the poll's answer. -/
structure PollLog where
  nfds : Nat
  revents : Nat → Revents
  user_conn : Option Connection
  admin_conn : Option Connection
  unix_conn : Option Connection
  visits : List Visit

/-- `handle_worker_pipe` and `handle_inotify_events` read and log what is there. -/
def drainIfReady (r : Revents) (fd : Int) : Task Unit :=
  if r.pollin then call (.drain fd) else return ()

/-- An iteration after `poll` reported something. -/
def serveReady (cfg : RuntimeConfig) (dt : DurationText) (fds : ServerFds) (revents : Nat → Revents)
    (nfds : Nat) (m : MainState) : Task (MainState × PollLog) := do
  let (m, user_conn) ← (if (revents 0).pollin then
    acceptNewInetConnection m fds.listen_fd_user .user false else pure (m, none))
  let (m, admin_conn) ← (if (revents 1).pollin then
    acceptNewInetConnection m fds.listen_fd_admin .admin true else pure (m, none))
  let (m, unix_conn) ← (if (revents 2).pollin then
    acceptNewUnixConnection m fds.listen_fd_unix else pure (m, none))
  drainIfReady (revents 3) fds.pipe_read_fd
  drainIfReady (revents 4) fds.inotify_fd
  let (m, visits) ← walkClients cfg dt revents maxClients 0 5 m
  return (m, { nfds := nfds, revents := revents, user_conn := user_conn, admin_conn := admin_conn,
               unix_conn := unix_conn, visits := visits })

/-- The sweep that closes kicked sessions, from slot `i` on. -/
def sweepKicked : Nat → Nat → Clients → Task Clients
  | 0, _, clients => return clients
  | left + 1, i, clients => do
    let client := clients.get i
    if client.active && client.kick_requested then
      sweepKicked left (i + 1) (clients.set i (← closeClient client))
    else
      sweepKicked left (i + 1) clients

/-- One iteration of the poll loop: the state for the next one, unless the loop is
left, and the log when sessions were walked. -/
def pollIteration (cfg : RuntimeConfig) (dt : DurationText) (fds : ServerFds) (m : MainState) :
    Task (Option MainState × Option PollLog) := do
  let pfds := rebuildPollfds fds m.clients
  match ← call (.poll pfds) with
  | .interrupted => return (some m, none)
  | .failed => return (none, none)
  | .timeout =>
    let clients ← sweepKicked maxClients 0 m.clients
    return (some { m with clients := clients }, none)
  | .ready revents =>
    let (m, log) ← serveReady cfg dt fds revents pfds.length m
    let clients ← sweepKicked maxClients 0 m.clients
    return (some { m with clients := clients }, some log)

def joinWorkers : Nat → Nat → Task Unit
  | 0, _ => return ()
  | left + 1, i => do
    call (.join i)
    joinWorkers left (i + 1)

def stopWorkers (cfg : RuntimeConfig) : Task Unit := do
  call .stopRunning
  call .stopQueue
  joinWorkers cfg.worker_count 0

/-- `while (g_running != 0)` of `server_run`, an iteration at a time; the workers are
stopped when the loop is left. -/
def serverTurn (cfg : RuntimeConfig) (dt : DurationText) (fds : ServerFds) (m : MainState) :
    Task (Option MainState) := do
  if !(← call .gRunning) then
    stopWorkers cfg
    return none
  let (next, _) ← pollIteration cfg dt fds m
  if next = none then
    stopWorkers cfg
  return next

/-- The body of a thread's turn. Workers keep nothing from turn to turn. -/
def serverBody (cfg : RuntimeConfig) (dt : DurationText) (fds : ServerFds) :
    Tid → MainState → Task (Option MainState)
  | .main, m => serverTurn cfg dt fds m
  | .worker i, m => do return if ← workerTurn cfg i then some m else none

abbrev ServerConfig := Config Op Ans Tid Sys MainState

/-- The server once `init_workers` has returned, over the files it finds. -/
def initialConfig (cfg : RuntimeConfig) (dt : DurationText) (fds : ServerFds)
    (files : Bytes → Option Bytes) : ServerConfig where
  state := { world := { files := files }, history := [] }
  thread
    | .main => some (serverBody cfg dt fds .main {})
    | .worker i =>
      if i < cfg.worker_count then some (serverBody cfg dt fds (.worker i) {}) else none

/-- The configurations that some interleaving of the threads reaches. -/
def ServerReachable (codec : PngCodec) (cfg : RuntimeConfig) (dt : DurationText) (fds : ServerFds)
    (files : Bytes → Option Bytes) (c : ServerConfig) : Prop :=
  Config.Reachable (machine codec) (serverBody cfg dt fds) (initialConfig cfg dt fds files) c

/-! Parameters for concrete runs. -/

/-- What `%.1f` and `%.2f` print of jobs that took no time. -/
def plainDurations : DurationText := ⟨fun _ => lit "0.0", fun _ => lit "0.0", fun _ => lit "0.00"⟩

def plainFds : ServerFds := ⟨3, 4, 5, 6, 7⟩

end StegaPng
