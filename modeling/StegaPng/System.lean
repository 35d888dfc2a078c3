import StegaPng.Interleaving
import StegaPng.Net
import StegaPng.RoundTrip
import StegaPng.Storage

/-! The state the server's threads share, and the operations that are atomic with
respect to each other: system calls, locked sections and the queue. -/

namespace StegaPng

open Interleaving

inductive Tid where
  | main
  | worker (i : Nat)
  deriving DecidableEq

structure World where
  jobs : List Job := []
  next_id : Nat := 1
  queue : List Nat := []
  stopped : Bool := false
  running : Bool := true
  exited : Nat → Bool := fun _ => false
  files : Bytes → Option Bytes
  streams : Int → Stream := fun _ => []

structure Revents where
  pollin : Bool := false
  pollhup : Bool := false
  pollerr : Bool := false
  deriving DecidableEq

/-- The outcome of `poll`. Past the descriptors it was given, the array holds what
was there before. -/
inductive PollAnswer where
  | interrupted
  | failed
  | timeout
  | ready (revents : Nat → Revents)

/-- What `inet_ntop` makes of an IPv4 address, or the text that replaces it. -/
inductive PeerAddr where
  | unknown
  | inet (a b c d : UInt8)

def PeerAddr.text : PeerAddr → Bytes
  | .unknown => lit "unknown"
  | .inet a b c d =>
    decimal a.toNat ++ lit "." ++ decimal b.toNat ++ lit "." ++ decimal c.toNat ++ lit "." ++
      decimal d.toNat

/-- A connection that `accept` returns: its descriptor, the peer, and what reading from
it will meet. -/
structure Connection where
  fd : Int
  peer : PeerAddr
  stream : Stream

def Connection.addr (c : Connection) : Bytes := c.peer.text

inductive LoadFault where
  | open
  | memory
  | libpng
  deriving DecidableEq

def LoadFault.status : LoadFault → StegoStatus
  | .open => .errOpen
  | .memory => .errMemory
  | .libpng => .errLibpng

/-- The outside world's part in one operation. -/
structure Env where
  ok : Bool := true
  cut : Nat := 0
  now : Nat := 0
  malloc : Malloc := fun _ _ => true
  loadFault : Option LoadFault := none
  poll : PollAnswer := .timeout
  connection : Option Connection := none

inductive FileCall where
  | fopenWb | fwrite | fclose | fopenRb | fsize | fread | stat | pngWrite | pngLoad
  deriving DecidableEq

/-- What an operation leaves in the history. Jobs are named by their place in the
table. -/
inductive Mark where
  | created (job : Nat)
  | pushed (job : Nat)
  | pushFailed (job : Nat)
  | popped (t : Tid) (job : Nat)
  | state (t : Tid) (job : Nat) (s : JobState)
  | flag (t : Tid) (job : Nat) (requested : Bool)
  | cancelAck (job : Nat) (s : JobState)
  | event (t : Tid) (job_id : Nat) (s : JobState)
  | opened (fd : Int)
  | closed (fd : Int)
  | line (fd : Int) (bytes : Bytes)
  | body (bytes : Bytes)
  | reply (fd : Int) (bytes : Bytes)
  | fault (t : Tid) (call : FileCall) (path : Bytes)
  | turn (t : Tid)
  deriving DecidableEq

inductive Op where
  | gRunning
  | readRunning
  | stopRunning
  | exit (worker : Nat)
  | join (worker : Nat)
  | createJob (owner_fd : Int) (owner_ip : Bytes) (type : JobType)
      (payload input_path : Option Bytes)
  | findJob (job_id : UInt64)
  | nextId
  | jobCount
  | getJob (job : Nat) (field : JobField)
  | setJob (job : Nat) (update : JobUpdate)
  | requestCancel (job : Nat)
  | push (job : Nat)
  | pop
  | stopQueue
  | writeEvent (job_id : Nat) (s : JobState)
  | nanosleep
  | heap
  | poll (fds : List Int)
  | accept (listen_fd : Int)
  | close (fd : Int)
  | drain (fd : Int)
  | readLine (fd : Int)
  | readExact (fd : Int) (size : Nat)
  | discardExact (fd : Int) (size : Nat)
  | read (fd : Int) (want : Nat)
  | writeAll (fd : Int) (bytes : Bytes)
  | fopenWb (path : Bytes)
  | fwrite (path bytes : Bytes)
  | fclose (path : Bytes)
  | unlink (path : Bytes)
  | fopenRb (path : Bytes)
  | fsize (path : Bytes)
  | fread (path : Bytes) (size : Nat)
  | freadAll (path : Bytes)
  | stat (path : Bytes)
  | pngCreate
  | pngWrite (path : Bytes) (img : PngImageBuf)
  | pngLoad (path : Bytes)
  | pngMetadata (path : Bytes)

@[reducible] def Ans : Op → Type
  | .gRunning => Bool
  | .readRunning => Bool
  | .stopRunning => Unit
  | .exit _ => Unit
  | .join _ => Unit
  | .createJob .. => Option Nat
  | .findJob _ => Option Nat
  | .nextId => Nat
  | .jobCount => Nat
  | .getJob _ f => f.Val
  | .setJob .. => Unit
  | .requestCancel _ => Bool
  | .push _ => Bool
  | .pop => Option Nat
  | .stopQueue => Unit
  | .writeEvent .. => Bool
  | .nanosleep => Unit
  | .heap => Malloc
  | .poll _ => PollAnswer
  | .accept _ => Option Connection
  | .close _ => Unit
  | .drain _ => Unit
  | .readLine _ => Option Bytes
  | .readExact .. => Option Bytes
  | .discardExact .. => Bool
  | .read .. => ReadResult
  | .writeAll .. => Bool
  | .fopenWb _ => Bool
  | .fwrite .. => Bool
  | .fclose _ => Bool
  | .unlink _ => Unit
  | .fopenRb _ => Bool
  | .fsize _ => Option Nat
  | .fread .. => Bytes
  | .freadAll _ => Bytes × Bool
  | .stat _ => Option Nat
  | .pngCreate => Bool
  | .pngWrite .. => Bool
  | .pngLoad _ => Except StegoStatus PngImageBuf
  | .pngMetadata _ => Option PngMetadata

abbrev Task (α : Type) := Prog Op Ans α

def call (o : Op) : Task (Ans o) := Prog.perform o

@[simp] theorem call_bind {α : Type} (o : Op) (f : Ans o → Task α) : (call o >>= f) = .op o f := rfl

/-- The marks of a file call: only failures leave one. -/
def faultUnless (ok : Bool) (t : Tid) (call : FileCall) (path : Bytes) : List Mark :=
  if ok then [] else [.fault t call path]

def World.writeFile (w : World) (path : Bytes) (content : Option Bytes) : World :=
  { w with files := fun p => if p = path then content else w.files p }

def World.setStream (w : World) (fd : Int) (es : Stream) : World :=
  { w with streams := fun f => if f = fd then es else w.streams f }

/-- The record a job pointer leads to. -/
def World.job (w : World) (job : Nat) : Job :=
  w.jobs.getD job { id := 0, owner_fd := 0, type := .unknown }

def World.updateJob (w : World) (job : Nat) (f : Job → Job) : World :=
  { w with jobs := w.jobs.modify job f }

/-- The outcome of an operation: its answer, the state after it, its marks. -/
abbrev Outcome (o : Op) := Option (Ans o × World × List Mark)

/-- One operation of thread `t`; there is no outcome while it has to wait. -/
def exec (codec : PngCodec) (e : Env) (t : Tid) (w : World) : (o : Op) → Outcome o
  | .gRunning => some (e.ok, w, [])
  | .readRunning => some (w.running, w, [])
  | .stopRunning => some ((), { w with running := false }, [])
  | .exit i => some ((), { w with exited := fun j => if j = i then true else w.exited j }, [])
  | .join i => if w.exited i then some ((), w, []) else none
  | .createJob owner_fd owner_ip type payload input_path =>
    if !e.ok then some (none, w, []) else
    if w.jobs.length ≥ maxJobs then some (none, w, []) else
    let job := newJob w.next_id owner_fd owner_ip type payload input_path e.now
    some (some w.jobs.length, { w with jobs := w.jobs ++ [job], next_id := w.next_id + 1 },
      [.created w.jobs.length])
  | .findJob job_id =>
    some (if job_id = 0 then none else w.jobs.findIdx? (fun j => j.id = job_id.toNat), w, [])
  | .nextId => some (w.next_id, w, [])
  | .jobCount => some (w.jobs.length, w, [])
  | .getJob job f =>
    some (f.read (w.job job), w,
      if f = .cancelRequested then [.flag t job (w.job job).cancel_requested] else [])
  | .setJob job u =>
    some ((), w.updateJob job (fun j => u.apply e.now j),
      match u with
      | .state s => [.state t job s]
      | _ => [])
  | .requestCancel job =>
    let accepted := (w.job job).requestCancel.2
    some (accepted, w.updateJob job (fun j => j.requestCancel.1),
      if accepted then [.cancelAck job (w.job job).state] else [])
  | .push job =>
    if !e.ok then some (false, w, [.pushFailed job]) else
    if w.stopped then some (false, w, [.pushFailed job]) else
    some (true, { w with queue := w.queue ++ [job] }, [.pushed job])
  | .pop =>
    if w.stopped then some (none, w, []) else
    match w.queue with
    | [] => none
    | job :: queue => some (some job, { w with queue := queue }, [.popped t job])
  | .stopQueue => some ((), { w with stopped := true }, [])
  | .writeEvent job_id s => some (e.ok, w, [.event t job_id s])
  | .nanosleep => some ((), w, [])
  | .heap => some (e.malloc, w, [])
  | .poll _ => some (e.poll, w, [])
  | .accept _ =>
    match e.connection with
    | none => some (none, w, [])
    | some c => some (some c, w.setStream c.fd c.stream, [.opened c.fd])
  | .close fd => some ((), w, [.closed fd])
  | .drain _ => some ((), w, [])
  | .readLine fd =>
    let r := readLine bufferSize (w.streams fd)
    some (r.1, w.setStream fd r.2, match r.1 with
      | some bytes => [.line fd bytes]
      | none => [])
  | .readExact fd size =>
    let r := readExact size (w.streams fd)
    some (r.1, w.setStream fd r.2, match r.1 with
      | some bytes => [.body bytes]
      | none => [])
  | .discardExact fd size =>
    let r := discardExact size (w.streams fd)
    some (r.1, w.setStream fd r.2, [])
  | .read fd want =>
    let r := readRetry want (w.streams fd)
    some (r.1, w.setStream fd r.2, match r.1 with
      | .data b bs => [.body (b :: bs)]
      | _ => [])
  | .writeAll fd bytes => some (e.ok, w, [.reply fd bytes])
  | .fopenWb path =>
    some (e.ok, if e.ok then w.writeFile path (some []) else w, faultUnless e.ok t .fopenWb path)
  | .fwrite path bytes =>
    let written := if e.ok then bytes else bytes.take e.cut
    some (e.ok, w.writeFile path ((w.files path).map (· ++ written)),
      faultUnless e.ok t .fwrite path)
  | .fclose path =>
    some (e.ok, if e.ok then w else w.writeFile path ((w.files path).map (·.take e.cut)),
      faultUnless e.ok t .fclose path)
  | .unlink path => some ((), w.writeFile path none, [])
  | .fopenRb path =>
    let found := e.ok && (w.files path).isSome
    some (found, w, faultUnless found t .fopenRb path)
  | .fsize path =>
    some (if e.ok then some ((w.files path).getD []).length else none, w,
      faultUnless e.ok t .fsize path)
  | .fread path size =>
    let bytes := ((w.files path).getD []).take size
    some (if e.ok then bytes else bytes.take e.cut, w, faultUnless e.ok t .fread path)
  | .freadAll path =>
    let bytes := (w.files path).getD []
    some ((if e.ok then bytes else bytes.take e.cut, e.ok), w, faultUnless e.ok t .fread path)
  | .stat path =>
    some (if e.ok then (w.files path).map List.length else none, w, faultUnless e.ok t .stat path)
  | .pngCreate => some (e.ok, w, [])
  | .pngWrite path img =>
    let bytes := codec.save img
    let written := if e.ok then bytes else bytes.take e.cut
    some (e.ok, w.writeFile path ((w.files path).map (· ++ written)),
      faultUnless e.ok t .pngWrite path)
  | .pngLoad path =>
    match e.loadFault with
    | some fault => some (.error fault.status, w, [.fault t .pngLoad path])
    | none => some (match w.files path with
      | none => .error .errOpen
      | some content => codec.load content, w, [])
  | .pngMetadata path =>
    some (if e.ok then (w.files path).bind codec.metadata else none, w,
      faultUnless e.ok t .pngLoad path)

/-- The shared state together with the marks so far, the newest first. -/
structure Sys where
  world : World
  history : List Mark

/-- The threads' machine, in an outside world that answers as `adm` says. -/
def machineIn (adm : Env → Prop) (codec : PngCodec) : Machine Op Ans Tid Sys where
  step t o s a s' := ∃ e marks, adm e ∧ exec codec e t s.world o = some (a, s'.world, marks) ∧
    s'.history = marks ++ s.history
  turn t s := { s with history := .turn t :: s.history }

theorem machineIn_mono {adm adm' : Env → Prop} (hadm : ∀ e, adm e → adm' e) {codec : PngCodec}
    {t : Tid} {α : Type} {p : Task α} {s s' : Sys} {a : α}
    (h : Runs (machineIn adm codec) t p s a s') :
    Runs (machineIn adm' codec) t p s a s' := by
  refine Runs.mono (M := machineIn adm codec) ?_ h
  rintro o s a s' ⟨e, marks, he, hstep⟩
  exact ⟨e, marks, hadm e he, hstep⟩

/-- The machine in any outside world. -/
abbrev machine (codec : PngCodec) : Machine Op Ans Tid Sys := machineIn (fun _ => True) codec

/-- Run a program alone, with the outside world's part given for each operation. -/
def execute {α : Type} (codec : PngCodec) (t : Tid) : Task α → (Nat → Env) → Sys → Option (α × Sys)
  | .ret a, _, s => some (a, s)
  | .op o k, env, s =>
    match exec codec (env 0) t s.world o with
    | none => none
    | some (b, w, marks) =>
      execute codec t (k b) (fun n => env (n + 1)) { world := w, history := marks ++ s.history }

theorem execute_runs {α : Type} {codec : PngCodec} {t : Tid} {p : Task α} {env : Nat → Env}
    {s s' : Sys} {a : α} (h : execute codec t p env s = some (a, s')) :
    Runs (machine codec) t p s a s' := by
  induction p generalizing env s with
  | ret b =>
    simp only [execute, Option.some.injEq, Prod.mk.injEq] at h
    obtain ⟨rfl, rfl⟩ := h
    exact .ret _ _
  | op o k ih =>
    rw [execute] at h
    split at h
    · cases h
    · next b w marks hexec => exact .op ⟨_, marks, trivial, hexec, rfl⟩ (ih b h)

end StegaPng
