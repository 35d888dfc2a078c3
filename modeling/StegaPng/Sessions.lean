import StegaPng.Protocol
import StegaPng.Worker

/-! Client sessions, the list of blocked addresses, and the reports of the admin
commands (`server.c`, the reporting half of `job.c`). -/

namespace StegaPng

open Interleaving

def maxClients : Nat := 128
def maxBlockedIps : Nat := 32
def smallBufferSize : Nat := 256

inductive ClientType where
  | unknown
  | user
  | admin
  deriving DecidableEq, Repr

structure ClientSession where
  fd : Int := -1
  type : ClientType := .unknown
  active : Bool := false
  kick_requested : Bool := false
  addr_str : Bytes := []
  deriving DecidableEq

/-- `client_session_t clients[MAX_CLIENTS]`. -/
structure Clients where
  slots : List ClientSession
  length_eq : slots.length = maxClients
  deriving DecidableEq

namespace Clients

def idle : Clients := ⟨List.replicate maxClients {}, List.length_replicate⟩

def get (c : Clients) (i : Nat) : ClientSession := c.slots.getD i {}

def set (c : Clients) (i : Nat) (s : ClientSession) : Clients :=
  ⟨c.slots.set i s, List.length_set.trans c.length_eq⟩

def map (c : Clients) (f : ClientSession → ClientSession) : Clients :=
  ⟨c.slots.map f, (List.length_map f).trans c.length_eq⟩

def active (c : Clients) : List ClientSession := c.slots.filter (·.active)

end Clients

/-- What only the main thread touches. -/
structure MainState where
  clients : Clients := .idle
  blocklist : List Bytes := []
  deriving DecidableEq

/-- `send_responsef`: a response that does not fit the buffer is not sent. -/
def sendResponsef (fd : Int) (text : Bytes) : Task Bool :=
  if text.length ≥ bufferSize then return false else call (.writeAll fd text)

def closeClient (client : ClientSession) : Task ClientSession := do
  if !client.active then
    return client
  call (.close client.fd)
  return {}

/-- `add_client`: the lowest free slot is taken. -/
def addClient (clients : Clients) (client_fd : Int) (type : ClientType) (addr_str : Bytes) :
    Option Clients :=
  (clients.slots.findIdx? (!·.active)).map fun i =>
    clients.set i
      { fd := client_fd, type := type, active := true, addr_str := snprintf 64 addr_str }

/-! The blocklist. -/

def blocklistAdd (ips : List Bytes) (ip : Bytes) : Option (List Bytes) :=
  if ip = [] then none
  else if ip ∈ ips then some ips
  else if ips.length < maxBlockedIps then some (ips ++ [snprintf 64 ip])
  else none

def blocklistRemove (ips : List Bytes) (ip : Bytes) : Option (List Bytes) :=
  if ip = [] then none
  else if ip ∈ ips then some (ips.erase ip)
  else none

def blocklistContains (ips : List Bytes) (ip : Bytes) : Bool := ip ∈ ips

section

variable {ips ips' : List Bytes} {ip : Bytes} {P : Bytes → Prop}

theorem blocklistAdd_some (h : blocklistAdd ips ip = some ips') :
    ip ≠ [] ∧ (ip ∈ ips ∧ ips' = ips ∨ ips.length < maxBlockedIps ∧
      ips' = ips ++ [snprintf 64 ip]) := by
  unfold blocklistAdd at h
  split at h
  · cases h
  · next hne =>
    refine ⟨hne, ?_⟩
    split at h
    · next hmem => exact .inl ⟨hmem, (Option.some.inj h).symm⟩
    · split at h
      · next hroom => exact .inr ⟨hroom, (Option.some.inj h).symm⟩
      · cases h

theorem blocklistRemove_some (h : blocklistRemove ips ip = some ips') :
    ip ∈ ips ∧ ips' = ips.erase ip := by
  unfold blocklistRemove at h
  split at h
  · cases h
  · split at h
    · next hmem => exact ⟨hmem, (Option.some.inj h).symm⟩
    · cases h

theorem blocklistAdd_entries (h : blocklistAdd ips ip = some ips') (hips : ∀ x ∈ ips, P x)
    (hip : P (snprintf 64 ip)) :
    ∀ x ∈ ips', P x := by
  obtain ⟨-, ⟨-, rfl⟩ | ⟨-, rfl⟩⟩ := blocklistAdd_some h
  · exact hips
  · exact List.forall_mem_append.mpr ⟨hips, List.forall_mem_singleton.mpr hip⟩

theorem blocklistAdd_length (h : blocklistAdd ips ip = some ips')
    (hips : ips.length ≤ maxBlockedIps) :
    ips'.length ≤ maxBlockedIps := by
  obtain ⟨-, ⟨-, rfl⟩ | ⟨hroom, rfl⟩⟩ := blocklistAdd_some h
  · exact hips
  · rw [List.length_append, List.length_singleton]
    exact hroom

theorem blocklistRemove_entries (h : blocklistRemove ips ip = some ips') (hips : ∀ x ∈ ips, P x) :
    ∀ x ∈ ips', P x := by
  obtain ⟨-, rfl⟩ := blocklistRemove_some h
  exact fun x hx => hips x (List.mem_of_mem_erase hx)

theorem blocklistRemove_length (h : blocklistRemove ips ip = some ips')
    (hips : ips.length ≤ maxBlockedIps) :
    ips'.length ≤ maxBlockedIps := by
  obtain ⟨-, rfl⟩ := blocklistRemove_some h
  exact List.length_erase_le.trans hips

end

/-- One entry of a report joined to those before it, if the buffer has the room. -/
def appendItem (sep : UInt8) (buffer_size : Nat) (out item : Bytes) : Option Bytes :=
  let used := out.length
  let extra_sep := if used = 0 then 0 else 1
  if used + extra_sep + item.length + 1 ≥ buffer_size then none
  else some (if used = 0 then item else out ++ sep :: item)

/-- Entries joined until one does not fit. -/
def appendItems (sep : UInt8) (buffer_size : Nat) : Bytes → List Bytes → Bytes
  | out, [] => out
  | out, item :: items =>
    match appendItem sep buffer_size out item with
    | none => out
    | some out' => appendItems sep buffer_size out' items

def blocklistFormat (ips : List Bytes) (out_size : Nat) : Bytes :=
  if ips.length = 0 then snprintf out_size (lit "empty") else appendItems 44 out_size [] ips

def formatClientList (clients : Clients) (buf_size : Nat) : Bytes :=
  let active := clients.active
  if active.length = 0 then snprintf buf_size (lit "empty") else
  appendItems 59 buf_size [] (active.map fun c => snprintf smallBufferSize
    (lit "fd=" ++ decimal c.fd.toNat ++ lit ",type=" ++
      (if c.type = .admin then lit "admin" else lit "user") ++ lit ",addr=" ++ c.addr_str))

/-! The job table's reports. Floating point stays outside the model: the printed
forms of a duration and of an average are parameters. -/

structure DurationText where
  one : Int → Bytes
  average1 : List Int → Bytes
  average2 : List Int → Bytes

structure JobStats where
  total : Nat := 0
  queued : Nat := 0
  running : Nat := 0
  done : Nat := 0
  failed : Nat := 0
  canceled : Nat := 0
  durations : List Int := []

def Job.duration (j : Job) : Int := (j.finished_at : Int) - j.started_at

def JobStats.count (st : JobStats) (j : Job) : JobStats :=
  let st := match j.state with
    | .queued => { st with queued := st.queued + 1 }
    | .running => { st with running := st.running + 1 }
    | .done => { st with done := st.done + 1 }
    | .failed => { st with failed := st.failed + 1 }
    | .canceled => { st with canceled := st.canceled + 1 }
  if (j.state = .done ∨ j.state = .failed) ∧ j.duration ≥ 0 then
    { st with durations := st.durations ++ [j.duration] }
  else st

/-- The loop of `job_table_collect_stats` over the jobs from `i` on. -/
def collectStatsLoop : Nat → Nat → JobStats → Task JobStats
  | 0, _, st => return st
  | left + 1, i, st => do
    let job ← call (.getJob i .record)
    collectStatsLoop left (i + 1) (st.count job)

def jobTableCollectStats : Task JobStats := do
  let count ← call .jobCount
  collectStatsLoop count 0 { total := count }

def jobTableFormatListLoop (buffer_size : Nat) : Nat → Nat → Bytes → Task Bytes
  | 0, _, out => return out
  | left + 1, i, out => do
    let job ← call (.getJob i .record)
    let item := snprintf 256 (lit "id=" ++ decimal job.id ++ lit ",type=" ++
      jobTypeToString job.type ++
      lit ",state=" ++ jobStateToString job.state ++ lit ",ip=" ++ job.owner_ip)
    match appendItem 59 buffer_size out item with
    | none => return out
    | some out' => jobTableFormatListLoop buffer_size left (i + 1) out'

def jobTableFormatList (buffer_size : Nat) : Task Bytes := do
  let count ← call .jobCount
  if count = 0 then
    return snprintf buffer_size (lit "empty")
  jobTableFormatListLoop buffer_size count 0 []

/-- The loop of `job_table_format_history` from the job below `i` down, with `budget`
entries still allowed. An entry that does not fit is left out. -/
def jobTableFormatHistoryLoop (dt : DurationText) (buffer_size : Nat) :
    Nat → Nat → Bytes → Task Bytes
  | 0, _, out => return out
  | i + 1, budget, out => do
    if budget = 0 then
      return out
    let job ← call (.getJob i .record)
    if job.state.Terminal then
      let item := snprintf 320 (lit "id=" ++ decimal job.id ++ lit ",type=" ++
        jobTypeToString job.type ++
        lit ",state=" ++ jobStateToString job.state ++ lit ",dur_ms=" ++ dt.one job.duration ++
        lit ",ip=" ++ job.owner_ip)
      match appendItem 59 buffer_size out item with
      | none => jobTableFormatHistoryLoop dt buffer_size i budget out
      | some out' => jobTableFormatHistoryLoop dt buffer_size i (budget - 1) out'
    else
      jobTableFormatHistoryLoop dt buffer_size i budget out

def jobTableFormatHistory (dt : DurationText) (buffer_size max_items : Nat) : Task Bytes := do
  let count ← call .jobCount
  let out ← jobTableFormatHistoryLoop dt buffer_size count max_items []
  return if out = [] then snprintf buffer_size (lit "empty") else out

end StegaPng
