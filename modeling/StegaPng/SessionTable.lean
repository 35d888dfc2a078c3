import StegaPng.Pipeline
import StegaPng.PollLoop
import StegaPng.PollReadiness

/-! The table of sessions: what each part of an iteration does to it, and the
descriptors that come and go with it. -/

namespace StegaPng

open Interleaving

def Mark.ofSocket : Mark → Bool
  | .opened _ | .closed _ => true
  | _ => false

/-- The descriptors that were accepted and closed, the latest first. -/
def sockets (h : List Mark) : List Mark := h.filter Mark.ofSocket

@[simp] theorem sockets_append (h h' : List Mark) : sockets (h ++ h') = sockets h ++ sockets h' :=
  List.filter_append ..

def Op.socketMarks : (o : Op) → Ans o → List Mark
  | .accept _, some c => [.opened c.fd]
  | .close fd, _ => [.closed fd]
  | _, _ => []

theorem sockets_fault (ok : Bool) (t : Tid) (call : FileCall) (path : Bytes) :
    sockets (faultUnless ok t call path) = [] := by
  cases ok <;> rfl

theorem exec_sockets {codec : PngCodec} {e : Env} {t : Tid} {w w' : World} {o : Op} {a : Ans o}
    {marks : List Mark} (h : exec codec e t w o = some (a, w', marks)) :
    sockets marks = o.socketMarks a := by
  cases o <;> simp only [exec] at h <;> (repeat' split at h) <;> cases h <;>
    first
      | rfl
      | exact sockets_fault _ _ _ _

theorem socketMarks_within {o : Op} (ho : o.ofSession = false) (a : Ans o) :
    o.socketMarks a = [] := by
  cases o <;> first
    | rfl
    | cases ho

theorem plain_within (o : Op) (ho : o.plain = true) : o.ofSession = false := by
  cases o <;> first
    | rfl
    | cases ho

/-- Who is let in: an admin while there is none, a TCP user who is not blocked, anyone
over the UNIX socket. -/
inductive Welcome (m : MainState) : ClientType → Bytes → Prop
  | admin (peer : PeerAddr) (hsole : ∀ s ∈ m.clients.slots, s.active = true → s.type ≠ .admin) :
      Welcome m .admin peer.text
  | user (peer : PeerAddr) (hclear : peer.text ∉ m.blocklist) : Welcome m .user peer.text
  | unix : Welcome m .user (lit "unix-local")

def MainState.put (m : MainState) (i : Nat) (session : ClientSession) : MainState :=
  { m with clients := m.clients.set i session }

def newSession (fd : Int) (type : ClientType) (addr : Bytes) : ClientSession :=
  { fd := fd, type := type, active := true, addr_str := snprintf 64 addr }

def ClientSession.kick (c : ClientSession) : ClientSession := { c with kick_requested := true }

/-- All that a step of the loop does to sessions and blocklist, and the descriptors it
accepts and closes. -/
inductive SessionMove (m : MainState) : MainState → List Mark → Prop
  | same : SessionMove m m []
  | refused (fd : Int) : SessionMove m m [.closed fd, .opened fd]
  | admitted {k : Nat} {fd : Int} {type : ClientType} {addr : Bytes} (hk : k < maxClients)
      (hfree : (m.clients.get k).active = false) (hwelcome : Welcome m type addr) :
      SessionMove m (m.put k (newSession fd type addr)) [.opened fd]
  | closed {i : Nat} (hactive : (m.clients.get i).active = true) :
      SessionMove m (m.put i {}) [.closed (m.clients.get i).fd]
  | kicked {i : Nat} (hactive : (m.clients.get i).active = true) :
      SessionMove m (m.put i (m.clients.get i).kick) []
  | blocked {ip : Bytes} {blocklist : List Bytes}
      (hadd : blocklistAdd m.blocklist ip = some blocklist) :
      SessionMove m ⟨m.clients.map fun c => if c.matchesIp ip then c.kick else c, blocklist⟩ []
  | unblocked {ip : Bytes} {blocklist : List Bytes}
      (hremove : blocklistRemove m.blocklist ip = some blocklist) :
      SessionMove m { m with blocklist := blocklist } []

section

variable {codec : PngCodec} {cfg : RuntimeConfig} {dt : DurationText} {fds : ServerFds}
  {m m' : MainState} {s s' : Sys} {α : Type} {a : α} {p : Task α}

theorem others_sockets (h : (conduct cfg codec).Others .main s s') :
    sockets s'.history = sockets s.history := by
  induction h with
  | refl => rfl
  | @tail s₁ s₂ _ hstep ih =>
    cases hstep with
    | turn hne => exact ih
    | @op u o b _ hne hinv hallowed hstep =>
      obtain ⟨e, marks, -, hexec, hhistory⟩ := hstep
      have hwithin : o.ofSession = false := by
        cases o with
        | accept fd => exact absurd hallowed hne
        | readLine fd => exact absurd hallowed hne
        | close fd => exact absurd hallowed hne
        | _ => rfl
      rw [hhistory, sockets_append, exec_sockets hexec, socketMarks_within hwithin,
        List.nil_append, ih]

/-- Operations that take from a stream or start one. -/
def Op.ofStream : Op → Bool
  | .accept _ | .readLine _ | .readExact .. | .discardExact .. | .read .. => true
  | _ => false

theorem exec_streams {e : Env} {t : Tid} {w w' : World} {o : Op} {b : Ans o} {marks : List Mark}
    (ho : o.ofStream = false) (h : exec codec e t w o = some (b, w', marks)) :
    w'.streams = w.streams := by
  cases o <;> simp only [Op.ofStream, Bool.true_eq_false] at ho <;> simp only [exec] at h <;>
    (repeat' split at h) <;> cases h <;> rfl

/-- What clients have sent waits for the main thread. -/
theorem others_streams (h : (conduct cfg codec).Others .main s s') :
    s'.world.streams = s.world.streams := by
  induction h with
  | refl => rfl
  | @tail s₁ s₂ _ hstep ih =>
    cases hstep with
    | turn hne => exact ih
    | @op u o b _ hne hinv hallowed hstep =>
      obtain ⟨e, marks, -, hexec, -⟩ := hstep
      have hquiet : o.ofStream = false := by
        cases o <;> first
          | rfl
          | exact absurd hallowed hne
      exact (exec_streams hquiet hexec).trans ih

theorem amid_call {o : Op} {b : Ans o} (h : Amid codec cfg (call o) s b s') :
    sockets s'.history = o.socketMarks b ++ sockets s.history := by
  obtain ⟨s₁, c, s₂, hbefore, ⟨e, marks, -, hexec, hhistory⟩, hret⟩ := RunsAmid.op_iff.mp h
  obtain ⟨rfl, hafter⟩ := RunsAmid.ret_iff.mp hret
  rw [others_sockets hafter, hhistory, sockets_append, exec_sockets hexec, others_sockets hbefore]

theorem amid_within (hp : p.All fun o => o.ofSession = false) (h : Amid codec cfg p s a s') :
    sockets s'.history = sockets s.history := by
  refine h.preserves (P := fun s₁ => sockets s₁.history = sockets s.history) ?_ ?_ hp rfl
  · exact fun _ _ hs henv => (others_sockets henv).trans hs
  · rintro o s₁ b s₂ ho hs ⟨e, marks, -, hexec, hhistory⟩
    rw [hhistory, sockets_append, exec_sockets hexec, socketMarks_within ho, List.nil_append, hs]

theorem amid_response {fd : Int} {text : Bytes} {b : Bool}
    (h : Amid codec cfg (sendResponsef fd text) s b s') :
    sockets s'.history = sockets s.history :=
  amid_within (sendResponsef_all plain_within fd text) h

theorem amid_closeClient {client r : ClientSession} (hactive : client.active = true)
    (h : Amid codec cfg (closeClient client) s r s') :
    r = {} ∧ sockets s'.history = .closed client.fd :: sockets s.history := by
  simp only [closeClient, hactive, Bool.not_true, Bool.false_eq_true, if_false] at h
  obtain ⟨_, hclose, rfl⟩ := amid_map h
  exact ⟨rfl, amid_call hclose⟩

theorem amid_rejectConnection {fd : Int} {text : Bytes}
    (h : Amid codec cfg (rejectConnection m fd text) s m' s') :
    m' = m ∧ sockets s'.history = .closed fd :: sockets s.history := by
  obtain ⟨_, s₁, htell, hrest⟩ := amid_bind.mp h
  obtain ⟨_, hclose, rfl⟩ := amid_map hrest
  refine ⟨rfl, (amid_call hclose).trans ?_⟩
  rw [amid_response htell]
  rfl

/-- The step from `m` to `m'` is a move of the session table. -/
def TableMoves (m : MainState) (s : Sys) (m' : MainState) (s' : Sys) : Prop :=
  ∃ marks, SessionMove m m' marks ∧ sockets s'.history = marks ++ sockets s.history

theorem tableMoves_same (h : sockets s'.history = sockets s.history) : TableMoves m s m s' :=
  ⟨[], .same, h⟩

theorem TableMoves.before {s₁ : Sys} (hbefore : sockets s₁.history = sockets s.history)
    (h : TableMoves m s₁ m' s') :
    TableMoves m s m' s' := by
  obtain ⟨marks, hmove, hsockets⟩ := h
  exact ⟨marks, hmove, hsockets.trans (by rw [hbefore])⟩

theorem TableMoves.after {s₁ : Sys} (h : TableMoves m s m' s₁)
    (hafter : sockets s'.history = sockets s₁.history) :
    TableMoves m s m' s' := by
  obtain ⟨marks, hmove, hsockets⟩ := h
  exact ⟨marks, hmove, hafter.trans hsockets⟩

/-! Accepting. -/

theorem amid_admitConnection {fd : Int} {type : ClientType} {addr : Bytes}
    (hwelcome : Welcome m type addr) {s₀ : Sys}
    (hopened : sockets s.history = .opened fd :: sockets s₀.history)
    (h : Amid codec cfg (admitConnection m fd type addr) s m' s') : TableMoves m s₀ m' s' := by
  unfold admitConnection at h
  cases hadd : addClient m.clients fd type addr with
  | none =>
    rw [hadd] at h
    obtain ⟨rfl, hsockets⟩ := amid_rejectConnection h
    exact ⟨_, .refused fd, hsockets.trans (by rw [hopened]; rfl)⟩
  | some clients =>
    rw [hadd] at h
    obtain ⟨_, htell, rfl⟩ := amid_map h
    obtain ⟨k, hk, rfl⟩ := Option.map_eq_some_iff.mp hadd
    obtain ⟨hlt, hfree, -⟩ := List.findIdx?_eq_some_iff_getElem.mp hk
    have hget : m.clients.get k = m.clients.slots[k] := List.getD_eq_getElem _ _ hlt
    have hmax : k < maxClients := m.clients.length_eq ▸ hlt
    refine ⟨_, .admitted hmax ?_ hwelcome, (amid_response htell).trans hopened⟩
    rw [hget]
    simpa using hfree

theorem amid_acceptInet {fd : Int} {type : ClientType} {single : Bool} {conn : Option Connection}
    (htype : type = .user ∧ single = false ∨ type = .admin ∧ single = true)
    (h : Amid codec cfg (acceptNewInetConnection m fd type single) s (m', conn) s') :
    TableMoves m s m' s' := by
  obtain ⟨answer, s₁, haccept, hrest⟩ := amid_bind.mp h
  have hsockets := amid_call haccept
  cases answer with
  | none =>
    obtain ⟨heq, henv⟩ := RunsAmid.ret_iff.mp hrest
    cases heq
    exact tableMoves_same ((others_sockets henv).trans hsockets)
  | some c =>
    have hopened : sockets s₁.history = .opened c.fd :: sockets s.history := hsockets
    have hrejected : ∀ {text : Bytes}, Amid codec cfg (rejectConnection m c.fd text >>=
      fun m => pure (m, some c)) s₁
        (m', conn) s' → TableMoves m s m' s' := by
      intro text hreject
      obtain ⟨m₁, hrun, heq⟩ := amid_map hreject
      cases heq
      obtain ⟨rfl, hclosed⟩ := amid_rejectConnection hrun
      exact ⟨_, .refused c.fd, hclosed.trans (by rw [hopened]; rfl)⟩
    dsimp only at hrest
    split at hrest
    · exact hrejected hrest
    · next hclear =>
      split at hrest
      · exact hrejected hrest
      · next hsole =>
        obtain ⟨m₁, hrun, heq⟩ := amid_map hrest
        cases heq
        refine amid_admitConnection ?_ hopened hrun
        rcases htype with ⟨rfl, rfl⟩ | ⟨rfl, rfl⟩
        · have hpeer : c.addr ∉ m.blocklist := by simpa [blocklistContains] using hclear
          exact .user c.peer hpeer
        · refine .admin c.peer fun session hmem hactive htype => hsole ?_
          simp only [Bool.true_and, List.any_eq_true]
          exact ⟨session, hmem, by simp [hactive, htype]⟩

theorem amid_acceptUnix {fd : Int} {conn : Option Connection}
    (h : Amid codec cfg (acceptNewUnixConnection m fd) s (m', conn) s') : TableMoves m s m' s' := by
  obtain ⟨answer, s₁, haccept, hrest⟩ := amid_bind.mp h
  have hsockets := amid_call haccept
  cases answer with
  | none =>
    obtain ⟨heq, henv⟩ := RunsAmid.ret_iff.mp hrest
    cases heq
    exact tableMoves_same ((others_sockets henv).trans hsockets)
  | some c =>
    obtain ⟨m₁, hrun, heq⟩ := amid_map hrest
    cases heq
    exact amid_admitConnection .unix hsockets hrun

theorem amid_serveListener {revents : Nat → Revents} {listener : Listener}
    {conn : Option Connection}
    (h : Amid codec cfg (serveListener fds revents m listener) s (m', conn) s') :
    TableMoves m s m' s' := by
  have hnone : Amid codec cfg (pure (m, (none : Option Connection))) s (m', conn) s' →
    TableMoves m s m' s' := by
    intro hret
    obtain ⟨heq, henv⟩ := RunsAmid.ret_iff.mp hret
    cases heq
    exact tableMoves_same (others_sockets henv)
  cases listener <;> simp only [serveListener] at h <;> split at h
  · exact amid_acceptInet (.inl ⟨rfl, rfl⟩) h
  · exact hnone h
  · exact amid_acceptInet (.inr ⟨rfl, rfl⟩) h
  · exact hnone h
  · exact amid_acceptUnix h
  · exact hnone h

/-! Commands. -/

theorem yields_answered {p : Task α} (h : (p >>= fun _ => pure m).Yields m') : m' = m := by
  simp only [Prog.yields_bind, Prog.pure_eq, Prog.yields_ret] at h
  obtain ⟨_, -, rfl⟩ := h
  rfl

theorem handleKick_move {fd : Int} {argument : Bytes} (h : (handleKick m fd argument).Yields m') :
    SessionMove m m' [] := by
  unfold handleKick at h
  split at h
  · obtain rfl := yields_answered h
    exact .same
  · split at h
    · obtain rfl := yields_answered h
      exact .same
    · next target_fd _ i hfound =>
      simp only [Prog.yields_bind, Prog.pure_eq, Prog.yields_ret] at h
      obtain ⟨_, -, _, -, rfl⟩ := h
      obtain ⟨hlt, hmatches, -⟩ := List.findIdx?_eq_some_iff_getElem.mp hfound
      have hget : m.clients.get i = m.clients.slots[i] := List.getD_eq_getElem _ _ hlt
      refine .kicked ?_
      simp only [ClientSession.matchesFd, Bool.and_eq_true] at hmatches
      rw [hget]
      exact hmatches.1.1

theorem handleBlockIp_move {fd : Int} {ip : Bytes} (h : (handleBlockIp m fd ip).Yields m') :
    SessionMove m m' [] := by
  unfold handleBlockIp at h
  split at h
  · obtain rfl := yields_answered h
    exact .same
  · split at h
    · obtain rfl := yields_answered h
      exact .same
    · next blocklist hadd =>
      simp only [Prog.yields_bind, Prog.pure_eq, Prog.yields_ret] at h
      obtain ⟨_, -, rfl⟩ := h
      exact .blocked hadd

theorem handleUnblockIp_move {fd : Int} {ip : Bytes} (h : (handleUnblockIp m fd ip).Yields m') :
    SessionMove m m' [] := by
  unfold handleUnblockIp at h
  split at h
  · obtain rfl := yields_answered h
    exact .same
  · split at h
    · obtain rfl := yields_answered h
      exact .same
    · next blocklist hremove =>
      simp only [Prog.yields_bind, Prog.pure_eq, Prog.yields_ret] at h
      obtain ⟨_, -, rfl⟩ := h
      exact .unblocked hremove

theorem handleAdminCommand_move {i : Nat} {admin : ClientSession} {request : ProtocolRequest}
    (hquit : request.command ≠ .quit) (h : (handleAdminCommand dt m i admin request).Yields m') :
    SessionMove m m' [] := by
  unfold handleAdminCommand at h
  split at h
  case h_9 => exact handleKick_move h
  case h_10 => exact handleBlockIp_move h
  case h_11 => exact handleUnblockIp_move h
  case h_12 => contradiction
  -- the other commands only answer
  all_goals
    simp only [Prog.yields_bind, Prog.pure_eq, Prog.yields_ret] at h
    have hm : m' = m := by grind
    rw [hm]
    exact .same

theorem put_get (m : MainState) (i : Nat) : m.put i (m.clients.get i) = m := by
  obtain ⟨⟨slots, hlength⟩, blocklist⟩ := m
  have hset : slots.set i (slots.getD i {}) = slots := by
    by_cases hi : i < slots.length
    · rw [List.getD_eq_getElem _ _ hi, List.set_getElem_self]
    · exact List.set_eq_of_length_le (Nat.le_of_not_lt hi)
  simp only [MainState.put, Clients.set, Clients.get, hset]

theorem amid_closeSlot {i : Nat} (hactive : (m.clients.get i).active = true)
    (h : Amid codec cfg (closeClient (m.clients.get i) >>=
      fun closed => pure { m with clients := m.clients.set i closed })
      s m' s') : TableMoves m s m' s' := by
  obtain ⟨closed, hclose, rfl⟩ := amid_map h
  obtain ⟨rfl, hsockets⟩ := amid_closeClient hactive hclose
  exact ⟨_, .closed hactive, hsockets⟩

theorem amid_adminCommand {i : Nat} {request : ProtocolRequest}
    (hactive : (m.clients.get i).active = true)
    (h : Amid codec cfg (handleAdminCommand dt m i (m.clients.get i) request) s m' s') :
    TableMoves m s m' s' := by
  by_cases hquit : request.command = .quit
  · simp only [handleAdminCommand, hquit] at h
    obtain ⟨_, s₁, htell, hclose⟩ := amid_bind.mp h
    exact (amid_closeSlot hactive hclose).before (amid_response htell)
  · have hwithin := handleAdminCommand_all plain_within dt m i (m.clients.get i) request
      (fun _ _ => rfl)
      fun hcommand => absurd hcommand hquit
    exact ⟨[], handleAdminCommand_move hquit h.yields, amid_within hwithin h⟩

theorem amid_userCommand {i : Nat} {request : ProtocolRequest}
    (hactive : (m.clients.get i).active = true)
    (h : Amid codec cfg (handleUserCommand cfg (m.clients.get i) request >>= fun client =>
      pure { m with clients := m.clients.set i client }) s m' s') : TableMoves m s m' s' := by
  unfold handleUserCommand at h
  split at h
  · simp only [Prog.bind_assoc] at h
    obtain ⟨_, s₁, htell, hclose⟩ := amid_bind.mp h
    exact (amid_closeSlot hactive hclose).before (amid_response htell)
  · obtain ⟨client, hanswer, rfl⟩ := amid_map h
    obtain ⟨_, hrun, rfl⟩ := amid_map hanswer
    have hsame : ({ m with clients := m.clients.set i (m.clients.get i) } : MainState) = m :=
      put_get m i
    rw [hsame]
    exact tableMoves_same (amid_within (answerCommand_all (fun _ _ ho _ => ho) _ _) hrun)

theorem amid_clientCommand {i : Nat} (hactive : (m.clients.get i).active = true)
    (h : Amid codec cfg (handleClientCommand cfg dt m i (m.clients.get i)) s m' s') :
    TableMoves m s m' s' := by
  obtain ⟨line, s₁, hread, hrest⟩ := amid_bind.mp h
  have hline : sockets s₁.history = sockets s.history := amid_call hread
  split at hrest
  · exact (amid_closeSlot hactive hrest).before hline
  · dsimp only at hrest
    split at hrest
    · exact (amid_adminCommand hactive hrest).before hline
    · exact (amid_userCommand hactive hrest).before hline

/-- Every step of the loop is one move of the table. -/
theorem LoopStep.moves {ℓ ℓ' : LoopState} (h : LoopStep codec cfg dt fds ℓ ℓ') :
    TableMoves ℓ.phase.main ℓ.sys ℓ'.phase.main ℓ'.sys := by
  cases h with
  | wake hrun => exact tableMoves_same (amid_call hrun)
  | interrupted hrun => exact tableMoves_same (amid_call hrun)
  | timeout hrun => exact tableMoves_same (amid_call hrun)
  | ready hrun => exact tableMoves_same (amid_call hrun)
  | accept hrun =>
    have hmoves := amid_serveListener hrun
    rename_i listener _
    cases listener <;> exact hmoves
  | drain hrun =>
    refine tableMoves_same (amid_within ?_ hrun)
    exact (drainIfReady_all plain_within _ _).bind fun _ => drainIfReady_all plain_within _ _
  | skip _ => exact tableMoves_same rfl
  | visit hactive hrun =>
    unfold visitSlot at hrun
    split at hrun
    · exact amid_clientCommand hactive hrun
    · obtain ⟨rfl, henv⟩ := RunsAmid.ret_iff.mp hrun
      exact tableMoves_same (others_sockets henv)
  | walked henv => exact tableMoves_same (others_sockets henv)
  | keep _ => exact tableMoves_same rfl
  | close hkicked hrun =>
    have hactive := (Bool.and_eq_true _ _ ▸ hkicked).1
    obtain ⟨rfl, hsockets⟩ := amid_closeClient hactive hrun
    exact ⟨_, .closed hactive, hsockets⟩
  | swept henv => exact tableMoves_same (others_sockets henv)
  | turn => exact tableMoves_same rfl

end

/-! The invariant. -/

/-- How often the descriptor has been closed since it was last accepted. -/
def closes (fd : Int) : List Mark → Nat
  | [] => 0
  | .opened f :: h => if f = fd then 0 else closes fd h
  | .closed f :: h => if f = fd then closes fd h + 1 else closes fd h
  | _ :: h => closes fd h

/-- The kernel: what `accept` returns is not open already. -/
def FreshAccepts : List Mark → Prop
  | [] => True
  | .opened fd :: h => (.opened fd ∈ h → 0 < closes fd h) ∧ FreshAccepts h
  | _ :: h => FreshAccepts h

/-- A descriptor that is accepted again had been closed exactly once. -/
def ClosedOnce : List Mark → Prop
  | [] => True
  | .opened fd :: h => (.opened fd ∈ h → closes fd h = 1) ∧ ClosedOnce h
  | _ :: h => ClosedOnce h

def Clients.Holds (c : Clients) (fd : Int) (i : Nat) : Prop := (c.get i).active = true ∧
    (c.get i).fd = fd

structure SessionTable (c : Clients) (h : List Mark) : Prop where
  sole_admin : ∀ i j, (c.get i).active = true → (c.get i).type = .admin → (c.get j).active = true →
    (c.get j).type = .admin → i = j
  type : ∀ i, (c.get i).active = true → (c.get i).type = .user ∨ (c.get i).type = .admin
  distinct : ∀ fd i j, c.Holds fd i → c.Holds fd j → i = j
  idle : ∀ i, (c.get i).active = false → (c.get i).fd = -1 ∧ (c.get i).kick_requested = false
  held : ∀ fd i, c.Holds fd i → .opened fd ∈ h
  accounted : ∀ fd, .opened fd ∈ h →
    (∃ i, c.Holds fd i) ∧ closes fd h = 0 ∨ (∀ i, ¬ c.Holds fd i) ∧ closes fd h = 1
  past : ClosedOnce h

theorem mem_sockets {fd : Int} {h : List Mark} : .opened fd ∈ sockets h ↔ .opened fd ∈ h := by
  simp [sockets, Mark.ofSocket]

theorem closes_sockets (fd : Int) (h : List Mark) : closes fd (sockets h) = closes fd h := by
  induction h with
  | nil => rfl
  | cons mark h ih =>
    cases mark <;> simp only [sockets, List.filter_cons, Mark.ofSocket, closes] at ih ⊢ <;>
      simp [closes, ih]

theorem freshAccepts_sockets (h : List Mark) : FreshAccepts (sockets h) ↔ FreshAccepts h := by
  induction h with
  | nil => rfl
  | cons mark h ih =>
    cases mark with
    | opened fd =>
      change FreshAccepts (.opened fd :: sockets h) ↔ _
      simp only [FreshAccepts, ih, mem_sockets, closes_sockets]
    | _ => exact ih

theorem closedOnce_sockets (h : List Mark) : ClosedOnce (sockets h) ↔ ClosedOnce h := by
  induction h with
  | nil => rfl
  | cons mark h ih =>
    cases mark with
    | opened fd =>
      change ClosedOnce (.opened fd :: sockets h) ↔ _
      simp only [ClosedOnce, ih, mem_sockets, closes_sockets]
    | _ => exact ih

theorem FreshAccepts.of_append {h h' : List Mark} (hfresh : FreshAccepts (h ++ h')) :
    FreshAccepts h' := by
  induction h with
  | nil => exact hfresh
  | cons mark h ih =>
    cases mark with
    | opened fd => exact ih hfresh.2
    | _ => exact ih hfresh

theorem sessionTable_sockets {c : Clients} {h : List Mark} : SessionTable c (sockets h) ↔
    SessionTable c h := by
  constructor
  · intro ht
    have haccounted := ht.accounted
    simp only [mem_sockets, closes_sockets] at haccounted
    exact ⟨ht.sole_admin, ht.type, ht.distinct, ht.idle,
      fun fd i hi => mem_sockets.mp (ht.held fd i hi), haccounted,
      (closedOnce_sockets h).mp ht.past⟩
  · intro ht
    refine ⟨ht.sole_admin, ht.type, ht.distinct, ht.idle,
      fun fd i hi => mem_sockets.mpr (ht.held fd i hi), ?_,
      (closedOnce_sockets h).mpr ht.past⟩
    simpa only [mem_sockets, closes_sockets] using ht.accounted

section

variable {c c' : Clients} {h : List Mark}

theorem idle_get (i : Nat) : Clients.idle.get i = {} := by
  simp only [Clients.idle, Clients.get, List.getD_eq_getElem?_getD, List.getElem?_replicate]
  split <;> rfl

theorem sessionTable_initial : SessionTable .idle [] := by
  constructor
  case past => trivial
  all_goals simp [idle_get, Clients.Holds]

theorem SessionTable.kicks (ht : SessionTable c h)
    (hsame : ∀ i, (c'.get i).active = (c.get i).active ∧ (c'.get i).fd = (c.get i).fd ∧
      (c'.get i).type = (c.get i).type)
    (hkick : ∀ i, (c.get i).active = false → (c'.get i).kick_requested = (c.get i).kick_requested) :
    SessionTable c' h := by
  have hholds : ∀ fd i, c'.Holds fd i ↔ c.Holds fd i := by
    intro fd i
    rw [Clients.Holds, Clients.Holds, (hsame i).1, (hsame i).2.1]
  refine ⟨fun i j => ?_, fun i => ?_, fun fd i j => ?_, fun i => ?_, fun fd i => ?_,
    fun fd => ?_, ht.past⟩
  · rw [(hsame i).1, (hsame i).2.2, (hsame j).1, (hsame j).2.2]
    exact ht.sole_admin i j
  · rw [(hsame i).1, (hsame i).2.2]
    exact ht.type i
  · rw [hholds, hholds]
    exact ht.distinct fd i j
  · rw [(hsame i).1, (hsame i).2.1]
    intro hidle
    rw [hkick i hidle]
    exact ht.idle i hidle
  · rw [hholds]
    exact ht.held fd i
  · simp only [hholds]
    exact ht.accounted fd

theorem SessionTable.fresh (ht : SessionTable c h) {fd : Int}
    (hfresh : .opened fd ∈ h → 0 < closes fd h) :
    (∀ i, ¬ c.Holds fd i) ∧ (.opened fd ∈ h → closes fd h = 1) := by
  have hone : .opened fd ∈ h → (∀ i, ¬ c.Holds fd i) ∧ closes fd h = 1 := by
    intro hmem
    have hpos := hfresh hmem
    rcases ht.accounted fd hmem with ⟨-, hzero⟩ | hone
    · omega
    · exact hone
  exact ⟨fun i hi => (hone (ht.held fd i hi)).1 i hi, fun hmem => (hone hmem).2⟩

theorem SessionTable.refused (ht : SessionTable c h) {fd : Int}
    (hfresh : .opened fd ∈ h → 0 < closes fd h) :
    SessionTable c (.closed fd :: .opened fd :: h) := by
  obtain ⟨hfree, hone⟩ := ht.fresh hfresh
  refine ⟨ht.sole_admin, ht.type, ht.distinct, ht.idle, fun f i hi => ?_, fun f hf => ?_,
    hone, ht.past⟩
  · simp [ht.held f i hi]
  · by_cases hfd : fd = f
    · subst hfd
      exact .inr ⟨hfree, by simp [closes]⟩
    · have hmem : .opened f ∈ h := by simpa [Ne.symm hfd] using hf
      simpa only [closes, hfd, if_false] using ht.accounted f hmem

theorem SessionTable.admitted (ht : SessionTable c h) {k : Nat} {fd : Int} {type : ClientType}
    {addr : Bytes} (hk : k < maxClients) (hidle : (c.get k).active = false)
    (htype : type = .user ∨ type = .admin)
    (hsole : type = .admin → ∀ i, (c.get i).active = true → (c.get i).type ≠ .admin)
    (hfresh : .opened fd ∈ h → 0 < closes fd h) :
    SessionTable (c.set k (newSession fd type addr)) (.opened fd :: h) := by
  obtain ⟨hfree, hone⟩ := ht.fresh hfresh
  have hget : ∀ i, (c.set k (newSession fd type addr)).get i = if i = k then newSession fd type addr
    else c.get i := by
    intro i
    rw [Clients.get_set]
    simp [hk]
  have hnew : ∀ f i, (c.set k (newSession fd type addr)).Holds f i ↔ i = k ∧ f = fd ∨ i ≠ k ∧
    c.Holds f i := by
    intro f i
    rw [Clients.Holds, hget]
    by_cases hik : i = k
    · simp [hik, newSession, eq_comm]
    · simp [hik, Clients.Holds]
  refine ⟨fun i j => ?_, fun i => ?_, fun f i j hi hj => ?_, fun i => ?_, fun f i hi => ?_,
    fun f hf => ?_, hone, ht.past⟩
  · have hold := ht.sole_admin i j
    simp only [hget]
    split <;> split <;> grind [newSession]
  · rw [hget]
    split
    · exact fun _ => htype
    · exact ht.type i
  · rw [hnew] at hi hj
    rcases hi with ⟨rfl, rfl⟩ | ⟨-, hi⟩ <;> rcases hj with ⟨rfl, hf⟩ | ⟨-, hj⟩
    · rfl
    · exact absurd hj (hfree j)
    · exact absurd (hf ▸ hi) (hfree i)
    · exact ht.distinct f i j hi hj
  · rw [hget]
    split
    · exact nofun
    · exact ht.idle i
  · rcases (hnew f i).mp hi with ⟨-, rfl⟩ | ⟨-, hold⟩
    · exact List.mem_cons_self
    · exact List.mem_cons_of_mem _ (ht.held f i hold)
  · by_cases hfd : fd = f
    · subst hfd
      exact .inl ⟨⟨k, (hnew fd k).mpr (.inl ⟨rfl, rfl⟩)⟩, by simp [closes]⟩
    · have hmem : .opened f ∈ h := by simpa [Ne.symm hfd] using hf
      have hholds : ∀ i, (c.set k (newSession fd type addr)).Holds f i ↔ c.Holds f i := by
        intro i
        rw [hnew]
        constructor
        · rintro (⟨-, rfl⟩ | ⟨-, hi⟩)
          · exact absurd rfl hfd
          · exact hi
        · intro hi
          refine .inr ⟨?_, hi⟩
          rintro rfl
          rw [hi.1] at hidle
          cases hidle
      simpa only [closes, hfd, if_false, hholds] using ht.accounted f hmem

theorem SessionTable.closed (ht : SessionTable c h) {k : Nat} (hactive : (c.get k).active = true) :
    SessionTable (c.set k {}) (.closed (c.get k).fd :: h) := by
  have hk : k < maxClients := Clients.lt_of_active hactive
  have hget : ∀ i, (c.set k {}).get i = if i = k then {} else c.get i := by
    intro i
    rw [Clients.get_set]
    simp [hk]
  have hleft : ∀ f i, (c.set k {}).Holds f i ↔ i ≠ k ∧ c.Holds f i := by
    intro f i
    rw [Clients.Holds, hget]
    by_cases hik : i = k
    · simp [hik]
    · simp [hik, Clients.Holds]
  have hheld : c.Holds (c.get k).fd k := ⟨hactive, rfl⟩
  refine ⟨fun i j => ?_, fun i => ?_, fun f i j hi hj => ?_, fun i => ?_, fun f i hi => ?_,
    fun f hf => ?_, ht.past⟩
  · have hold := ht.sole_admin i j
    simp only [hget]
    split <;> split <;> grind
  · rw [hget]
    split
    · exact nofun
    · exact ht.type i
  · exact ht.distinct f i j ((hleft f i).mp hi).2 ((hleft f j).mp hj).2
  · rw [hget]
    split
    · exact fun _ => ⟨rfl, rfl⟩
    · exact ht.idle i
  · exact List.mem_cons_of_mem _ (ht.held f i ((hleft f i).mp hi).2)
  · have hmem : .opened f ∈ h := by simpa using hf
    by_cases hfd : (c.get k).fd = f
    · subst hfd
      have hzero : closes (c.get k).fd h = 0 := by
        rcases ht.accounted _ hmem with ⟨-, hzero⟩ | ⟨hnone, -⟩
        · exact hzero
        · exact absurd hheld (hnone k)
      refine .inr ⟨fun i hi => ?_, by simp [closes, hzero]⟩
      obtain ⟨hne, hi⟩ := (hleft _ i).mp hi
      exact hne (ht.distinct _ i k hi hheld)
    · have hholds : ∀ i, (c.set k {}).Holds f i ↔ c.Holds f i := by
        intro i
        rw [hleft]
        refine ⟨And.right, fun hi => ⟨?_, hi⟩⟩
        rintro rfl
        exact hfd hi.2
      simpa only [closes, hfd, if_false, hholds] using ht.accounted f hmem

theorem Clients.get_blocked (c : Clients) (ip : Bytes) (i : Nat) :
    ((c.map fun s => if s.matchesIp ip then s.kick else s).get i) =
      if (c.get i).matchesIp ip then (c.get i).kick else c.get i := by
  by_cases hi : i < maxClients
  · rw [Clients.get_map _ hi]
  · rw [Clients.get_of_ge _ (Nat.le_of_not_lt hi), Clients.get_of_ge _ (Nat.le_of_not_lt hi)]
    rfl

theorem SessionMove.table {m m' : MainState} {marks : List Mark} (hmove : SessionMove m m' marks)
    (ht : SessionTable m.clients h) (hfresh : FreshAccepts (marks ++ h)) :
    SessionTable m'.clients (marks ++ h) := by
  cases hmove with
  | same => exact ht
  | refused fd => exact ht.refused hfresh.1
  | admitted hk hfree hwelcome =>
    refine ht.admitted hk hfree ?_ ?_ hfresh.1
    · cases hwelcome
      · exact .inr rfl
      · exact .inl rfl
      · exact .inl rfl
    · cases hwelcome with
      | admin peer hsole =>
        intro _ i hactive
        exact Clients.mem_slots_iff.mp hsole i (Clients.lt_of_active hactive) hactive
      | user => exact nofun
      | unix => exact nofun
  | closed hactive => exact ht.closed hactive
  | @kicked k hactive =>
    refine ht.kicks (fun i => ?_) fun i hidle => ?_
    · simp only [MainState.put, Clients.get_set]
      split
      · next hi => rw [hi.1]; exact ⟨rfl, rfl, rfl⟩
      · exact ⟨rfl, rfl, rfl⟩
    · simp only [MainState.put, Clients.get_set]
      split
      · next hi => rw [← hi.1, hidle] at hactive; cases hactive
      · rfl
  | @blocked ip blocklist hadd =>
    have hget := Clients.get_blocked m.clients ip
    refine ht.kicks (fun i => ?_) fun i hidle => ?_
    · rw [hget]
      split <;> exact ⟨rfl, rfl, rfl⟩
    · have hother : (m.clients.get i).matchesIp ip = false := by
        simp [ClientSession.matchesIp, hidle]
      simp [hget, hother]
  | unblocked _ => exact ht

/-- A kick that is pending after a move was aimed at a session of before. -/
theorem SessionMove.pending {m m' : MainState} {marks : List Mark}
    (hmove : SessionMove m m' marks) {i : Nat} (hkick : (m'.clients.get i).kick_requested = true)
    (hidle : (m.clients.get i).active = false → (m.clients.get i).kick_requested = false) :
    (m.clients.get i).active = true ∧ m'.clients.get i = (m.clients.get i).kick := by
  have hsame : m'.clients.get i = m.clients.get i →
      (m.clients.get i).active = true ∧ m'.clients.get i = (m.clients.get i).kick := by
    intro heq
    rw [heq] at hkick ⊢
    refine ⟨?_, by rw [ClientSession.kick, ← hkick]⟩
    by_contra hactive
    rw [hidle (Bool.eq_false_iff.mpr hactive)] at hkick
    cases hkick
  cases hmove with
  | same => exact hsame rfl
  | refused fd => exact hsame rfl
  | admitted hk hfree hwelcome =>
    simp only [MainState.put, Clients.get_set] at hkick hsame ⊢
    split at hkick
    · cases hkick
    · next hi => exact hsame (if_neg hi)
  | closed hactive =>
    simp only [MainState.put, Clients.get_set] at hkick hsame ⊢
    split at hkick
    · cases hkick
    · next hi => exact hsame (if_neg hi)
  | kicked hactive =>
    simp only [MainState.put, Clients.get_set] at hkick hsame ⊢
    split at hkick
    · next hi =>
      obtain ⟨rfl, hmax⟩ := hi
      exact ⟨hactive, if_pos ⟨rfl, hmax⟩⟩
    · next hi => exact hsame (if_neg hi)
  | @blocked ip blocklist hadd =>
    have hget := Clients.get_blocked m.clients ip i
    cases hmatches : (m.clients.get i).matchesIp ip with
    | true =>
      simp only [ClientSession.matchesIp, Bool.and_eq_true] at hmatches
      exact ⟨hmatches.1.1, by simpa [ClientSession.matchesIp, hmatches] using hget⟩
    | false => exact hsame (by simpa [hmatches] using hget)
  | unblocked _ => exact hsame rfl

end

section

variable {codec : PngCodec} {cfg : RuntimeConfig} {dt : DurationText} {fds : ServerFds}

theorem LoopStep.fresh {ℓ ℓ' : LoopState} (hstep : LoopStep codec cfg dt fds ℓ ℓ')
    (hkernel : FreshAccepts ℓ'.sys.history) :
    FreshAccepts ℓ.sys.history := by
  obtain ⟨marks, -, hsockets⟩ := hstep.moves
  rw [← freshAccepts_sockets, hsockets] at hkernel
  exact (freshAccepts_sockets _).mp hkernel.of_append

theorem LoopRun.table {files : Bytes → Option Bytes} {ℓ : LoopState}
    (hrun : LoopRun codec cfg dt fds (initialLoop files) ℓ) (hkernel : FreshAccepts ℓ.sys.history) :
    SessionTable ℓ.phase.main.clients ℓ.sys.history := by
  induction hrun with
  | refl => exact sessionTable_initial
  | @tail ℓ ℓ' _ hstep ih =>
    obtain ⟨marks, hmove, hsockets⟩ := hstep.moves
    have hbefore := ih (hstep.fresh hkernel)
    rw [← freshAccepts_sockets, hsockets] at hkernel
    rw [← sessionTable_sockets, hsockets]
    exact hmove.table (sessionTable_sockets.mpr hbefore) hkernel

/-- The session table is sound in every state of the loop, and no kick outlives the
session it was meant for. -/
theorem sessions_sound {files : Bytes → Option Bytes} {ℓ : LoopState}
    (hrun : LoopRun codec cfg dt fds (initialLoop files) ℓ) (hkernel : FreshAccepts ℓ.sys.history) :
    SessionTable ℓ.phase.main.clients ℓ.sys.history ∧
      ∀ ℓ', LoopStep codec cfg dt fds ℓ ℓ' →
        ∀ i, (ℓ'.phase.main.clients.get i).kick_requested = true →
        (ℓ.phase.main.clients.get i).active = true ∧
        ℓ'.phase.main.clients.get i = (ℓ.phase.main.clients.get i).kick := by
  have htable := hrun.table hkernel
  refine ⟨htable, fun ℓ' hstep i hkick => ?_⟩
  obtain ⟨marks, hmove, -⟩ := hstep.moves
  exact hmove.pending hkick fun hidle => (htable.idle i hidle).2

theorem sessions_sound_connected :
    ∃ ℓ, LoopRun boundedCodec runtimeConfigDefaults plainDurations plainFds
      (initialLoop fun _ => none) ℓ ∧
      ℓ.phase.main.clients.Holds 9 0 ∧ SessionTable ℓ.phase.main.clients ℓ.sys.history := by
  obtain ⟨c, hreach, hc⟩ :=
    exists_reachable boundedCodec runtimeConfigDefaults plainDurations plainFds (fun _ => none)
    connects (fun c => (ended c, c.state.history))
    (show _ = some (some (MainState.put {} 0 (newSession 9 .user (lit "10.0.0.7"))),
      [.reply 9 (lit "OK connected\n"), .opened 9]) by decide +kernel)
  obtain ⟨hm, hhistory⟩ := Prod.mk.inj hc
  have hrun := hreach.loop (ended_thread hm)
  have hkernel : FreshAccepts c.state.history := by
    rw [hhistory]
    exact ⟨fun hmem => absurd hmem List.not_mem_nil, trivial⟩
  refine ⟨_, hrun, ?_, (sessions_sound hrun hkernel).1⟩
  change Clients.Holds (MainState.put {} 0 (newSession 9 .user (lit "10.0.0.7"))).clients 9 0
  exact ⟨by decide +kernel, by decide +kernel⟩

end

end StegaPng
