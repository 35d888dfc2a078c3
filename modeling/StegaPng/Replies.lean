import StegaPng.Kicks
import StegaPng.LoopInvariants
import StegaPng.SeparatedList

/-! What a command sends to its session, read off the calls that the main thread makes,
and the texts of the reports. -/

namespace StegaPng

open Interleaving SeparatedList

/-- A call of the main thread. -/
abbrev Call := Performed Op Ans Sys

/-- A run of a part of the main thread amid what the workers do, with its calls. -/
abbrev AmidCalls (codec : PngCodec) (cfg : RuntimeConfig) {α : Type} (p : Task α) (s : Sys)
    (tr : List Call) (a : α) (s' : Sys) : Prop :=
  Traced (machine codec) ((conduct cfg codec).Others .main) .main p s tr a s'

def Op.sends (fd : Int) : Op → Option Bytes
  | .writeAll f text => if f = fd then some text else none
  | _ => none

/-- What is written to the session, in order. -/
def sentTo (fd : Int) (tr : List Call) : List Bytes := tr.filterMap fun c => c.op.sends fd

@[simp] theorem sentTo_append (fd : Int) (tr tr' : List Call) :
    sentTo fd (tr ++ tr') = sentTo fd tr ++ sentTo fd tr' :=
  List.filterMap_append

theorem sentTo_cons {fd : Int} {c : Call} (hc : c.op.sends fd = none) (tr : List Call) :
    sentTo fd (c :: tr) = sentTo fd tr :=
  List.filterMap_cons_none hc

/-- The records that the calls read, in order. -/
def recordsRead (tr : List Call) : List Job := tr.filterMap fun c => match c with
  | ⟨.getJob _ .record, _, r⟩ => some r
  | _ => none

/-! The entries of the reports. -/

def listEntry (job : Job) : Bytes :=
  snprintf 256 (lit "id=" ++ decimal job.id ++ lit ",type=" ++ jobTypeToString job.type ++
    lit ",state=" ++
    jobStateToString job.state ++ lit ",ip=" ++ job.owner_ip)

def historyEntry (dt : DurationText) (job : Job) : Bytes :=
  snprintf 320 (lit "id=" ++ decimal job.id ++ lit ",type=" ++ jobTypeToString job.type ++
    lit ",state=" ++
    jobStateToString job.state ++ lit ",dur_ms=" ++ dt.one job.duration ++ lit ",ip=" ++
      job.owner_ip)

def clientEntry (c : ClientSession) : Bytes :=
  snprintf smallBufferSize (lit "fd=" ++ decimal c.fd.toNat ++ lit ",type=" ++
    (if c.type = .admin then lit "admin" else lit "user") ++ lit ",addr=" ++ c.addr_str)

/-- The text of LISTJOBS about the records. -/
def listText (size : Nat) (records : List Job) : Bytes :=
  if records = [] then snprintf size (lit "empty") else
    appendItems 59 size [] (records.map listEntry)

/-- Entries joined, but for those that do not fit. -/
def keepItems (sep : UInt8) (size : Nat) : Bytes → List Bytes → Bytes
  | out, [] => out
  | out, item :: items => keepItems sep size ((appendItem sep size out item).getD out) items

/-- The finished jobs among the records. -/
def finished (records : List Job) : List Job := records.filter fun job => job.state.Terminal

/-- The text of HISTORY about the records. -/
def historyText (dt : DurationText) (size : Nat) (records : List Job) : Bytes :=
  let out := keepItems 59 size [] ((finished records).map (historyEntry dt))
  if out = [] then snprintf size (lit "empty") else out

/-! Entries as a separated list. -/

section

variable {sep : UInt8} {size : Nat} {shown items : List Bytes} {item : Bytes}

theorem appendItem_separated (hshown : ∀ x ∈ shown, x ≠ []) :
    appendItem sep size (separated sep shown) item =
      if (separated sep (shown ++ [item])).length + 1 < size then
        some (separated sep (shown ++ [item])) else none := by
  by_cases h : shown = []
  · subst h
    rw [appendItem, List.nil_append, separated_singleton]
    simp only [separated_nil, List.length_nil, if_true, Nat.zero_add]
    split
    · rw [if_neg (by omega)]
    · rw [if_pos (by omega)]
  · have hne : separated sep shown ≠ [] := separated_ne_nil hshown h
    have hlength : (separated sep shown).length ≠ 0 :=
      fun hzero => hne (List.length_eq_zero_iff.mp hzero)
    rw [separated_append h (List.cons_ne_nil _ _), separated_singleton, appendItem,
      List.length_append, List.length_cons]
    simp only [hlength, if_false]
    split
    · rw [if_neg (by omega)]
    · rw [if_pos (by omega)]

theorem snoc_ne_nil (hshown : ∀ x ∈ shown, x ≠ []) (hitem : item ≠ []) : ∀ x ∈ shown ++ [item],
    x ≠ [] := by
  intro x hx
  rcases List.mem_append.mp hx with hx | hx
  · exact hshown x hx
  · exact List.mem_singleton.mp hx ▸ hitem

/-- Behind entries that fit, the entries of the longest start that fits are joined. -/
theorem appendItems_longest (hshown : ∀ x ∈ shown, x ≠ []) (hitems : ∀ x ∈ items, x ≠ [])
    (hfits : shown ≠ [] → Fits sep size shown) :
    ∃ more, LongestFit sep size (shown ++ items) more ∧
      appendItems sep size (separated sep shown) items = separated sep more := by
  induction items generalizing shown with
  | nil =>
    rw [List.append_nil]
    exact ⟨shown, .all hfits, rfl⟩
  | cons item items ih =>
    have hrest : ∀ x ∈ items, x ≠ [] := fun x hx => hitems x (List.mem_cons_of_mem _ hx)
    have happend : appendItem sep size (separated sep shown) item = _ := appendItem_separated hshown
    by_cases hroom : Fits sep size (shown ++ [item])
    · rw [if_pos (by exact hroom)] at happend
      obtain ⟨more, hmore, htext⟩ := ih (snoc_ne_nil hshown (hitems item List.mem_cons_self)) hrest
        fun _ => hroom
      rw [List.append_assoc] at hmore
      refine ⟨more, hmore, ?_⟩
      rw [appendItems, happend]
      exact htext
    · rw [if_neg (by exact hroom)] at happend
      refine ⟨shown, .stop hfits hroom, ?_⟩
      rw [appendItems, happend]

end

section

variable {codec : PngCodec} {cfg : RuntimeConfig} {dt : DurationText} {fds : ServerFds}
  {m m' : MainState} {s s' : Sys} {α β : Type} {a : α} {p : Task α} {tr : List Call} {fd : Int}

theorem calls_bind {f : α → Task β} {b : β} (h : AmidCalls codec cfg (p >>= f) s tr b s') :
    ∃ a s₁ tr₁ tr₂, tr = tr₁ ++ tr₂ ∧ AmidCalls codec cfg p s tr₁ a s₁ ∧
      AmidCalls codec cfg (f a) s₁ tr₂ b s' :=
  h.bind fun _ => .refl

theorem calls_map {f : α → β} {b : β}
    (h : AmidCalls codec cfg (p >>= fun a => pure (f a)) s tr b s') :
    ∃ a s₁, AmidCalls codec cfg p s tr a s₁ ∧ b = f a := by
  obtain ⟨a, s₁, tr₁, tr₂, rfl, hp, hret⟩ := calls_bind h
  obtain ⟨rfl, rfl, -⟩ := Traced.ret_iff.mp hret
  rw [List.append_nil]
  exact ⟨a, s₁, hp, rfl⟩

theorem calls_call {o : Op} {f : Ans o → Task β} {b : β}
    (h : AmidCalls codec cfg (call o >>= f) s tr b s') :
    ∃ s₁ a s₂ rest, tr = ⟨o, s₁, a⟩ :: rest ∧ (conduct cfg codec).Others .main s s₁ ∧
      (machine codec).step .main o s₁ a s₂ ∧ AmidCalls codec cfg (f a) s₂ rest b s' :=
  Traced.op_iff.mp h

/-- A response is written if it fits the buffer. -/
theorem calls_response {text : Bytes} {b : Bool}
    (h : AmidCalls codec cfg (sendResponsef fd text) s tr b s') :
    tr = [] ∧ bufferSize ≤ text.length ∧ b = false ∨
      text.length < bufferSize ∧ ∃ s₁, tr = [⟨.writeAll fd text, s₁, b⟩] := by
  unfold sendResponsef at h
  split at h
  · next hlong =>
    obtain ⟨rfl, rfl, -⟩ := Traced.ret_iff.mp h
    exact .inl ⟨rfl, hlong, rfl⟩
  · next hshort =>
    obtain ⟨s₁, c, s₂, rest, rfl, -, -, hret⟩ := Traced.op_iff.mp h
    obtain ⟨rfl, rfl, -⟩ := Traced.ret_iff.mp hret
    exact .inr ⟨by omega, s₁, rfl⟩

theorem sentTo_response {text : Bytes} {b : Bool}
    (h : AmidCalls codec cfg (sendResponsef fd text) s tr b s') :
    sentTo fd tr = if text.length < bufferSize then [text] else [] := by
  rcases calls_response h with ⟨rfl, hlong, -⟩ | ⟨hshort, s₁, rfl⟩
  · rw [if_neg (by omega)]
    rfl
  · rw [if_pos hshort]
    simp [sentTo, Op.sends]

theorem sentTo_respond {text : Bytes} {f : Bool → β} {b : β}
    (h : AmidCalls codec cfg (sendResponsef fd text >>= fun sent => pure (f sent)) s tr b s') :
    sentTo fd tr = if text.length < bufferSize then [text] else [] := by
  obtain ⟨sent, s₁, hrun, -⟩ := calls_map h
  exact sentTo_response hrun

theorem calls_respond {text : Bytes} {f : Bool → β} {b : β}
    (h : AmidCalls codec cfg (sendResponsef fd text >>= fun sent => pure (f sent)) s tr b s') :
    ∀ c ∈ tr, c.op = .writeAll fd text := by
  obtain ⟨sent, s₁, hrun, -⟩ := calls_map h
  rcases calls_response hrun with ⟨rfl, -, -⟩ | ⟨-, s₂, rfl⟩
  · exact fun c hc => absurd hc List.not_mem_nil
  · exact fun c hc => by rw [List.mem_singleton.mp hc]

/-- Calls that only read the job table. -/
def Op.reads : Op → Prop
  | .jobCount | .getJob _ .record => True
  | _ => False

theorem sentTo_reads (h : ∀ c ∈ tr, c.op.reads) : sentTo fd tr = [] := by
  refine List.filterMap_eq_nil_iff.mpr fun c hc => ?_
  have hop := h c hc
  obtain ⟨o, s₁, b⟩ := c
  cases o with
  | writeAll f text => exact hop.elim
  | _ => rfl

/-- A record that is read is a record of the table at that moment. -/
theorem recordsRead_job (h : AmidCalls codec cfg p s tr a s') {r : Job} (hr : r ∈ recordsRead tr) :
    ∃ c ∈ tr, ∃ k, r = c.state.world.job k := by
  obtain ⟨c, hc, hread⟩ := List.mem_filterMap.mp hr
  obtain ⟨s₁, e, marks, -, hexec, -⟩ := h.steps c hc
  refine ⟨c, hc, ?_⟩
  obtain ⟨o, s₀, b⟩ := c
  cases o with
  | getJob k f =>
    cases f with
    | record =>
      simp only [exec, Option.some.injEq, Prod.mk.injEq] at hexec
      obtain rfl : b = r := Option.some.inj hread
      exact ⟨k, hexec.1.symm⟩
    | _ => cases hread
  | _ => cases hread

theorem reads_nil : ∀ c ∈ ([] : List Call), c.op.reads := fun _ hc => absurd hc List.not_mem_nil

theorem reads_cons {c : Call} (hc : c.op.reads) (h : ∀ c ∈ tr, c.op.reads) :
    ∀ d ∈ c :: tr, d.op.reads := by
  intro d hd
  rcases List.mem_cons.mp hd with rfl | hd
  · exact hc
  · exact h d hd

theorem recordsRead_cons (k : Nat) (s₁ : Sys) (r : Job) (tr : List Call) :
    recordsRead (⟨.getJob k .record, s₁, r⟩ :: tr) = r :: recordsRead tr := rfl

@[simp] theorem recordsRead_append (tr tr' : List Call) :
    recordsRead (tr ++ tr') = recordsRead tr ++ recordsRead tr' :=
  List.filterMap_append

theorem recordsRead_count (s₁ : Sys) (n : Nat) (tr : List Call) :
    recordsRead (⟨.jobCount, s₁, n⟩ :: tr) = recordsRead tr := rfl

theorem formatListLoop_succ (size left i : Nat) (out : Bytes) :
    jobTableFormatListLoop size (left + 1) i out = call (.getJob i .record) >>= fun job =>
      match appendItem 59 size out (listEntry job) with
      | none => pure out
      | some out' => jobTableFormatListLoop size left (i + 1) out' := rfl

theorem calls_formatListLoop {size left i : Nat} {out text : Bytes}
    (h : AmidCalls codec cfg (jobTableFormatListLoop size left i out) s tr text s') :
    text = appendItems 59 size out ((recordsRead tr).map listEntry) ∧ ∀ c ∈ tr, c.op.reads := by
  induction left generalizing i out s tr with
  | zero =>
    obtain ⟨rfl, rfl, -⟩ := Traced.ret_iff.mp h
    exact ⟨rfl, reads_nil⟩
  | succ left ih =>
    rw [formatListLoop_succ] at h
    obtain ⟨s₁, r, s₂, rest, rfl, -, -, hrest⟩ := calls_call h
    rw [recordsRead_cons, List.map_cons, appendItems]
    cases happend : appendItem 59 size out (listEntry r) with
    | none =>
      simp only [happend] at hrest
      obtain ⟨rfl, rfl, -⟩ := Traced.ret_iff.mp hrest
      exact ⟨rfl, reads_cons trivial reads_nil⟩
    | some out' =>
      simp only [happend] at hrest
      obtain ⟨htext, hall⟩ := ih hrest
      exact ⟨htext, reads_cons trivial hall⟩

theorem calls_formatList {size : Nat} {text : Bytes}
    (h : AmidCalls codec cfg (jobTableFormatList size) s tr text s') :
    text = listText size (recordsRead tr) ∧ ∀ c ∈ tr, c.op.reads := by
  obtain ⟨s₁, count, s₂, rest, rfl, -, -, hrest⟩ := calls_call h
  rw [recordsRead_count, listText]
  split at hrest
  · obtain ⟨rfl, rfl, -⟩ := Traced.ret_iff.mp hrest
    exact ⟨(if_pos rfl).symm, reads_cons trivial reads_nil⟩
  · next hcount =>
    obtain ⟨htext, hall⟩ := calls_formatListLoop hrest
    refine ⟨?_, reads_cons trivial hall⟩
    cases count with
    | zero => exact absurd rfl hcount
    | succ left =>
      rw [formatListLoop_succ] at hrest
      obtain ⟨s₃, r, s₄, rest', rfl, -, -, -⟩ := calls_call hrest
      rw [recordsRead_cons] at htext ⊢
      rw [if_neg (List.cons_ne_nil _ _)]
      exact htext

theorem formatHistoryLoop_succ (size i budget : Nat) (out : Bytes) :
    jobTableFormatHistoryLoop dt size (i + 1) budget out = if budget = 0 then pure out else
      call (.getJob i .record) >>= fun job => if job.state.Terminal then
        match appendItem 59 size out (historyEntry dt job) with
        | none => jobTableFormatHistoryLoop dt size i budget out
        | some out' => jobTableFormatHistoryLoop dt size i (budget - 1) out'
      else jobTableFormatHistoryLoop dt size i budget out := rfl

theorem calls_formatHistoryLoop {size i budget : Nat} {out text : Bytes}
    (h : AmidCalls codec cfg (jobTableFormatHistoryLoop dt size i budget out) s tr text s') :
    text = keepItems 59 size out ((finished (recordsRead tr)).map (historyEntry dt)) ∧ ∀ c ∈ tr,
      c.op.reads := by
  induction i generalizing budget out s tr with
  | zero =>
    obtain ⟨rfl, rfl, -⟩ := Traced.ret_iff.mp h
    exact ⟨rfl, reads_nil⟩
  | succ i ih =>
    rw [formatHistoryLoop_succ] at h
    split at h
    · obtain ⟨rfl, rfl, -⟩ := Traced.ret_iff.mp h
      exact ⟨rfl, reads_nil⟩
    · obtain ⟨s₁, r, s₂, rest, rfl, -, -, hrest⟩ := calls_call h
      rw [recordsRead_cons, finished]
      split at hrest
      · next hterminal =>
        rw [List.filter_cons_of_pos (by simpa using hterminal), List.map_cons, keepItems]
        cases happend : appendItem 59 size out (historyEntry dt r) with
        | none =>
          simp only [happend] at hrest
          obtain ⟨htext, hall⟩ := ih hrest
          exact ⟨htext, reads_cons trivial hall⟩
        | some out' =>
          simp only [happend] at hrest
          obtain ⟨htext, hall⟩ := ih hrest
          exact ⟨htext, reads_cons trivial hall⟩
      · next hlive =>
        rw [List.filter_cons_of_neg (by simpa using hlive)]
        obtain ⟨htext, hall⟩ := ih hrest
        exact ⟨htext, reads_cons trivial hall⟩

theorem calls_formatHistory {size items : Nat} {text : Bytes}
    (h : AmidCalls codec cfg (jobTableFormatHistory dt size items) s tr text s') :
    text = historyText dt size (recordsRead tr) ∧ ∀ c ∈ tr, c.op.reads := by
  obtain ⟨s₁, count, s₂, rest, rfl, -, -, hrest⟩ := calls_call h
  obtain ⟨out, s₃, hloop, rfl⟩ := calls_map hrest
  obtain ⟨hout, hall⟩ := calls_formatHistoryLoop hloop
  rw [recordsRead_count, historyText, ← hout]
  exact ⟨rfl, reads_cons trivial hall⟩

/-! One visit. -/

/-- What is done with a request. -/
def serveRequest (cfg : RuntimeConfig) (dt : DurationText) (m : MainState) (i : Nat)
    (client : ClientSession) (request : ProtocolRequest) : Task MainState :=
  if client.type = .admin then handleAdminCommand dt m i client request
  else do
    let client' ← handleUserCommand cfg client request
    return { m with clients := m.clients.set i client' }

/-- A session that has sent something is read from and served. -/
theorem calls_visit {revents : Nat → Revents} {i idx : Nat} (hready : (revents idx).any = true)
    (hline : ((readLine bufferSize (s.world.streams (m.clients.get i).fd)).1).getD [] ≠ [])
    (h : AmidCalls codec cfg (visitSlot cfg dt revents i idx m) s tr m' s') :
    ∃ s₁ b s₂ rest, tr = ⟨.readLine (m.clients.get i).fd, s₁, b⟩ :: rest ∧
      AmidCalls codec cfg (serveRequest cfg dt m i (m.clients.get i)
        (nextRequest s (m.clients.get i).fd)) s₂ rest m' s' := by
  unfold visitSlot at h
  rw [if_pos hready] at h
  obtain ⟨s₁, b, s₂, rest, rfl, hothers, hstep, hrest⟩ := calls_call h
  have hread := amid_readLine (.op hothers hstep (.ret b .refl))
  refine ⟨s₁, b, s₂, rest, rfl, ?_⟩
  rw [nextRequest, ← hread]
  rw [← hread] at hline
  split at hrest
  · next hnil => exact absurd hnil hline
  · exact hrest

/-- What a visit without a command performs. -/
def Op.hangsUp : Op → Prop
  | .readLine _ | .close _ => True
  | _ => False

theorem calls_hangUp {revents : Nat → Revents} {i idx : Nat}
    (hnone : (revents idx).any = true →
      ((readLine bufferSize (s.world.streams (m.clients.get i).fd)).1).getD [] = [])
    (h : AmidCalls codec cfg (visitSlot cfg dt revents i idx m) s tr m' s') :
    ∀ c ∈ tr, c.op.hangsUp := by
  unfold visitSlot at h
  split at h
  · next hready =>
    obtain ⟨s₁, b, s₂, rest, rfl, hothers, hstep, hrest⟩ := calls_call h
    have hread := amid_readLine (.op hothers hstep (.ret b .refl))
    have hempty := hnone hready
    rw [← hread] at hempty
    rw [hempty] at hrest
    obtain ⟨closed, s₃, hclose, -⟩ := calls_map hrest
    have hops := (hclose.states (C := Op.hangsUp) (P := fun _ => True) (fun _ _ _ _ => trivial)
      (fun _ _ _ _ _ _ _ => trivial) (closeClient_all _ trivial) trivial).1
    intro c hc
    rcases List.mem_cons.mp hc with rfl | hc
    · exact trivial
    · exact (hops c hc).1
  · obtain ⟨rfl, -, -⟩ := Traced.ret_iff.mp h
    exact fun c hc => absurd hc List.not_mem_nil

theorem sentTo_hangUp (h : ∀ c ∈ tr, c.op.hangsUp) : sentTo fd tr = [] := by
  refine List.filterMap_eq_nil_iff.mpr fun c hc => ?_
  have hop := h c hc
  obtain ⟨o, s₁, b⟩ := c
  cases o with
  | writeAll f text => exact hop.elim
  | _ => rfl

theorem calls_user {i : Nat} {client : ClientSession} {q : ProtocolRequest}
    (huser : client.type ≠ .admin) (hquit : q.command ≠ .quit)
    (h : AmidCalls codec cfg (serveRequest cfg dt m i client q) s tr m' s') :
    ∃ s₁, AmidCalls codec cfg (answerUserCommand cfg client q) s tr () s₁ ∧
      m' = { m with clients := m.clients.set i client } := by
  unfold serveRequest handleUserCommand at h
  rw [if_neg huser, if_neg hquit] at h
  obtain ⟨client', s₁, hrun, rfl⟩ := calls_map h
  obtain ⟨_, s₂, hanswer, rfl⟩ := calls_map hrun
  exact ⟨s₂, hanswer, rfl⟩

theorem calls_admin {i : Nat} {client : ClientSession} {q : ProtocolRequest}
    (hadmin : client.type = .admin)
    (h : AmidCalls codec cfg (serveRequest cfg dt m i client q) s tr m' s') :
    AmidCalls codec cfg (handleAdminCommand dt m i client q) s tr m' s' := by
  unfold serveRequest at h
  rwa [if_pos hadmin] at h

theorem calls_withJob {id : UInt64} {handle : Nat → Task Unit} {u : Unit}
    (h : AmidCalls codec cfg (withJob fd id handle) s tr u s') :
    ∃ s₁ found s₂ rest, tr = ⟨.findJob id, s₁, found⟩ :: rest ∧
      (found = none ∧ AmidCalls codec cfg (sendResponsef fd (lit "ERR job not found\n") >>=
        fun _ => pure ()) s₂ rest u s' ∨
        ∃ job, found = some job ∧ AmidCalls codec cfg (handle job) s₂ rest u s') := by
  obtain ⟨s₁, found, s₂, rest, rfl, -, -, hrest⟩ := calls_call h
  refine ⟨s₁, found, s₂, rest, rfl, ?_⟩
  cases found with
  | none => exact .inl ⟨rfl, hrest⟩
  | some job => exact .inr ⟨job, rfl, hrest⟩

theorem step_getJob {job : Nat} {f : JobField} {b : f.Val} (hf : f ≠ .cancelRequested)
    (h : (machine codec).step .main (.getJob job f) s b s') : b = f.read (s.world.job job) ∧
      s' = s := by
  obtain ⟨e, marks, -, hexec, hhistory⟩ := h
  simp only [exec, Option.some.injEq, Prod.mk.injEq, if_neg hf] at hexec
  obtain ⟨hread, hworld, rfl⟩ := hexec
  obtain ⟨w, h'⟩ := s'
  obtain rfl : h' = s.history := hhistory
  exact ⟨hread.symm, congrArg (fun w => Sys.mk w s.history) hworld.symm⟩

theorem calls_kempt (hs : AtRest cfg codec s) (hp : MainKeeps cfg codec p)
    (h : AmidCalls codec cfg p s tr a s') :
    ∀ c ∈ tr, Inv cfg codec c.state ∧ Records (fun _ => Kempt cfg) c.state :=
  kempt_stable.traced (conduct_sound cfg codec) (hp s hs.idle) hs.inv hs.kempt h

theorem calls_owned {client : ClientSession} (hclient : Address client.addr_str)
    (hp : p.All fun o => o.onBehalfOf client) (hs : Owned s) (h : AmidCalls codec cfg p s tr a s') :
    ∀ c ∈ tr, Owned c.state := by
  have hstates := h.states (P := Owned) (fun _ _ hs henv => others_owned hs henv) ?_ hp hs
  · exact fun c hc => (hstates.1 c hc).2
  · rintro o s₁ b s₂ ho hs₁ ⟨e, marks, -, hexec, -⟩
    refine (exec_effect hexec).owned ?_ hs₁
    rintro fd ip type payload input_path rfl
    exact ho.2 ▸ hclient.2

end

/-! Concrete visits. -/

/-- `execute` with the calls. -/
def transcribe {α : Type} (codec : PngCodec) (t : Tid) : Task α → (Nat → Env) → Sys →
    Option (List Call × α × Sys)
  | .ret a, _, s => some ([], a, s)
  | .op o k, env, s =>
    match exec codec (env 0) t s.world o with
    | none => none
    | some (b, w, marks) =>
      (transcribe codec t (k b) (fun n => env (n + 1))
        { world := w, history := marks ++ s.history }).map fun r =>
        (⟨o, s, b⟩ :: r.1, r.2)

theorem calls_of_transcribe {codec : PngCodec} {cfg : RuntimeConfig} {α : Type} {p : Task α}
    {e : Nat → Env} {s s' : Sys} {tr : List Call} {a : α}
    (h : transcribe codec .main p e s = some (tr, a, s')) : AmidCalls codec cfg p s tr a s' := by
  induction p generalizing e s tr with
  | ret b =>
    cases h
    exact .ret a .refl
  | op o k ih =>
    rw [transcribe] at h
    split at h
    · cases h
    · next b w marks hexec =>
      obtain ⟨⟨tr₁, a₁, s₁⟩, hrest, hr⟩ := Option.map_eq_some_iff.mp h
      cases hr
      exact .op .refl ⟨e 0, marks, trivial, hexec, rfl⟩ (ih b hrest)

section

variable (codec : PngCodec) (cfg : RuntimeConfig) (dt : DurationText) (fds : ServerFds)
  (files : Bytes → Option Bytes)

/-- Where a schedule leaves the main thread at the end of an iteration, the next one
visits the session in slot 0. -/
def visitAfter (schedule : List (Tid × Env)) (e : Nat → Env) :
    Option (MainState × Sys × List Call × MainState × Sys) :=
  (follow codec cfg dt fds schedule (initialConfig cfg dt fds files)).bind fun c =>
    (ended c).bind fun m =>
      (transcribe codec .main (visitSlot cfg dt (pollIn [5]) 0 5 m) e
        ((machine codec).turn .main c.state)).map fun r =>
        (m, (machine codec).turn .main c.state, r)

theorem exists_visit (schedule : List (Tid × Env)) (e : Nat → Env) {α : Type}
    (f : MainState × Sys × List Call × MainState × Sys → α) {a : α}
    (h : (visitAfter codec cfg dt fds files schedule e).map f = some a) :
    ∃ m s tr m' s', LoopRun codec cfg dt fds (initialLoop files)
      ⟨.walking (pollIn [5]) maxClients 0 5 m, s⟩ ∧
      AmidCalls codec cfg (visitSlot cfg dt (pollIn [5]) 0 5 m) s tr m' s' ∧
        f (m, s, tr, m', s') = a := by
  obtain ⟨v, hvisit, hv⟩ := Option.map_eq_some_iff.mp h
  obtain ⟨c, hfollow, hrest⟩ := Option.bind_eq_some_iff.mp hvisit
  obtain ⟨m, hended, hmap⟩ := Option.bind_eq_some_iff.mp hrest
  obtain ⟨⟨tr, m', s'⟩, hcalls, rfl⟩ := Option.map_eq_some_iff.mp hmap
  have hreach : ServerReachable codec cfg dt fds files c := follow_reachable hfollow
  have hturned := (hreach.loop (ended_thread hended)).tail .turn
  refine ⟨m, _, tr, m', s', hturned.trans (ready_walk (r := [5]) (by decide)), ?_, hv⟩
  exact calls_of_transcribe hcalls

end

theorem exists_visit_calls (codec : PngCodec) (cfg : RuntimeConfig) (dt : DurationText)
    (revents : Nat → Revents) (i idx : Nat) (m : MainState) (s : Sys) :
    ∃ tr m' s', AmidCalls codec cfg (visitSlot cfg dt revents i idx m) s tr m' s' := by
  obtain ⟨m', s', hrun⟩ := exists_visit_run codec cfg dt revents i idx m s
  have hamid : Amid codec cfg (visitSlot cfg dt revents i idx m) s m' s' := hrun.amid fun _ => .refl
  obtain ⟨tr, hcalls⟩ := hamid.traced
  exact ⟨tr, m', s', hcalls⟩

/-! A session in slot 0, with anything to read. -/

def onlySession (type : ClientType) : MainState :=
  MainState.put {} 0 (newSession 9 type (lit "10.0.0.7"))

def seated (files : Bytes → Option Bytes) (es : Stream) : Sys where
  world := { files := files, streams := fun f => if f = 9 then es else [] }
  history := [.turn .main, .reply 9 (lit "OK connected\n"), .opened 9]

theorem onlySession_calm (type : ClientType) (k : Nat) : ¬ Doomed (onlySession type) k := by
  intro hdoomed
  rw [Doomed, onlySession, MainState.put, Clients.get_set] at hdoomed
  split at hdoomed
  · cases hdoomed.2
  · have hidle : ({} : MainState).clients.get k = {} := idle_get k
    rw [hidle] at hdoomed
    cases hdoomed.1

theorem seated_run {codec : PngCodec} {cfg : RuntimeConfig} {dt : DurationText} {fds : ServerFds}
    {type : ClientType} (htype : type = .user ∨ type = .admin) (files : Bytes → Option Bytes)
    (es : Stream) :
    LoopRun codec cfg dt fds (initialLoop files) ⟨.walking (pollIn [5]) maxClients 0 5
      (onlySession type), seated files es⟩ := by
  have hseat : LoopRun codec cfg dt fds (initialLoop files) ⟨.waiting (onlySession type),
    (machine codec).turn .main
      ⟨(seated files es).world, [.reply 9 (lit "OK connected\n"), .opened 9]⟩⟩ := by
    rcases htype with rfl | rfl
    · have haccept : Amid codec cfg (serveListener fds (pollIn [0]) {} .user)
        { world := { files := files }, history := [] }
          (onlySession .user, some ⟨9, .inet 10 0 0 7, es⟩)
          ⟨(seated files es).world, [.reply 9 (lit "OK connected\n"), .opened 9]⟩ :=
        amid_of_execute (e := fun _ => { connection := some ⟨9, .inet 10 0 0 7, es⟩ }) rfl
      exact connect_run (by decide) haccept (.ret _ .refl) (.ret _ .refl) (onlySession_calm .user)
    · have haccept : Amid codec cfg (serveListener fds (pollIn [1]) {} .admin)
        { world := { files := files }, history := [] }
          (onlySession .admin, some ⟨9, .inet 10 0 0 7, es⟩)
          ⟨(seated files es).world, [.reply 9 (lit "OK connected\n"), .opened 9]⟩ :=
        amid_of_execute (e := fun _ => { connection := some ⟨9, .inet 10 0 0 7, es⟩ }) rfl
      exact connect_run (by decide) (.ret _ .refl) haccept (.ret _ .refl) (onlySession_calm .admin)
  exact hseat.trans (ready_walk (r := [5]) (by decide))

end StegaPng
