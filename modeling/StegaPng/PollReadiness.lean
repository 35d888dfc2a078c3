import Mathlib.Data.Nat.Count
import StegaPng.Server

/-! Which pollfd entry the walk over the sessions consults for which slot. -/

namespace StegaPng

open Interleaving

theorem filter_length_eq_count {α : Type} (p : α → Bool) (d : α) (l : List α) :
    (l.filter p).length = Nat.count (fun k => p (l.getD k d) = true) l.length := by
  induction l using List.reverseRecOn with
  | nil => rfl
  | append_singleton l a ih =>
    have hbelow : Nat.count (fun k => p ((l ++ [a]).getD k d) = true) l.length =
        Nat.count (fun k => p (l.getD k d) = true) l.length := by
      have hsame : ∀ k < l.length, (l ++ [a]).getD k d = l.getD k d := by
        intro k hk
        simp [List.getD_eq_getElem?_getD, List.getElem?_append_left hk]
      apply le_antisymm
      · exact Nat.count_mono_left fun k hk hp => by rwa [hsame k hk] at hp
      · exact Nat.count_mono_left fun k hk hp => by rwa [hsame k hk]
    have hlast : (l ++ [a]).getD l.length d = a := by simp
    rw [List.length_append, List.length_singleton, Nat.count_succ, hbelow, ← ih, hlast,
      List.filter_append, List.length_append]
    by_cases ha : p a = true <;> simp [ha]

theorem exists_count_eq {p : Nat → Prop} [DecidablePred p] {n k : Nat} (h : k < Nat.count p n) :
    ∃ j < n, p j ∧ Nat.count p j = k := by
  induction n with
  | zero => simp at h
  | succ n ih =>
    by_cases hlt : k < Nat.count p n
    · obtain ⟨j, hj, hp, hc⟩ := ih hlt
      exact ⟨j, by omega, hp, hc⟩
    · rw [Nat.count_succ] at h
      by_cases hp : p n
      · rw [if_pos hp] at h
        exact ⟨n, by omega, hp, by omega⟩
      · rw [if_neg hp] at h
        omega

/-! Sessions by slot. -/

namespace Clients

theorem get_set (c : Clients) (i : Nat) (s : ClientSession) (j : Nat) :
    (c.set i s).get j = if j = i ∧ i < maxClients then s else c.get j := by
  have hl := c.length_eq
  simp only [get, set, List.getD_eq_getElem?_getD, List.getElem?_set, hl]
  split
  · next h => split <;> simp_all
  · next h => simp [Ne.symm h]

theorem get_of_ge (c : Clients) {j : Nat} (hj : maxClients ≤ j) : c.get j = {} := by
  have hl := c.length_eq
  simp [get, List.getD_eq_getElem?_getD, List.getElem?_eq_none (show c.slots.length ≤ j by omega)]

theorem lt_of_active {c : Clients} {j : Nat} (h : (c.get j).active = true) : j < maxClients := by
  by_contra hge
  rw [c.get_of_ge (Nat.le_of_not_lt hge)] at h
  cases h

theorem get_map {f : ClientSession → ClientSession} (c : Clients) {j : Nat} (hj : j < maxClients) :
    (c.map f).get j = f (c.get j) := by
  have hl := c.length_eq
  simp [get, map, List.getD_eq_getElem?_getD,
    List.getElem?_eq_getElem (show j < c.slots.length by omega)]

/-- How many active slots lie below `j`. -/
def rank (c : Clients) (j : Nat) : Nat := Nat.count (fun k => (c.get k).active = true) j

theorem active_length (c : Clients) : c.active.length = c.rank maxClients := by
  have h := filter_length_eq_count (·.active) {} c.slots
  rwa [c.length_eq] at h

theorem mem_slots_iff {c : Clients} {p : ClientSession → Prop} :
    (∀ s ∈ c.slots, p s) ↔ ∀ j < maxClients, p (c.get j) := by
  have hl := c.length_eq
  constructor
  · intro h j hj
    have hget : c.get j = c.slots.get ⟨j, by omega⟩ := List.getD_eq_getElem _ _ (by omega)
    rw [hget]
    exact h _ (List.getElem_mem _)
  · intro h s hs
    obtain ⟨j, hj, rfl⟩ := List.mem_iff_getElem.mp hs
    have hget : c.get j = c.slots[j] := List.getD_eq_getElem _ _ hj
    rw [← hget]
    exact h j (by omega)

/-- The entry that `rebuild_pollfds` fills for a slot. -/
def entryOf (c : Clients) (slot : Nat) : Option Nat :=
  if (c.get slot).active then some (5 + c.rank slot) else none

/-- No slot is free. -/
def Full (c : Clients) : Prop := ∀ s ∈ c.slots, s.active = true

end Clients

/-- Exactly one more slot is active. -/
def Admitted (c c' : Clients) : Prop :=
  ∃ k < maxClients, (c.get k).active = false ∧ ∀ j, (c'.get j).active = if j = k then true else
    (c.get j).active

theorem Admitted.rank {c c' : Clients} (h : Admitted c c') :
    c'.rank maxClients = c.rank maxClients + 1 := by
  obtain ⟨k, hk, hfree, hget⟩ := h
  have hstep : ∀ n, c'.rank n = c.rank n + if k < n then 1 else 0 := by
    intro n
    induction n with
    | zero => simp [Clients.rank]
    | succ n ih =>
      simp only [Clients.rank, Nat.count_succ] at ih ⊢
      rw [ih, hget n]
      by_cases hn : n = k
      · subst hn
        simp [hfree]
      · by_cases hlt : k < n
        · simp only [hn, hlt, if_true, if_false, show k < n + 1 by omega]
          omega
        · simp [hn, hlt, show ¬ k < n + 1 by omega]
  rw [hstep, if_pos hk]

theorem addClient_none {c : Clients} {fd : Int} {type : ClientType} {addr : Bytes} :
    addClient c fd type addr = none ↔ c.Full := by
  simp only [addClient, Option.map_eq_none_iff, List.findIdx?_eq_none_iff, Clients.Full,
    Bool.not_eq_eq_eq_not, Bool.not_false]

theorem addClient_some {c c' : Clients} {fd : Int} {type : ClientType} {addr : Bytes}
    (h : addClient c fd type addr = some c') : Admitted c c' := by
  have hl := c.length_eq
  simp only [addClient, Option.map_eq_some_iff] at h
  obtain ⟨k, hk, rfl⟩ := h
  rw [List.findIdx?_eq_some_iff_getElem] at hk
  obtain ⟨hlt, hfree, -⟩ := hk
  have hget : c.get k = c.slots[k] := List.getD_eq_getElem _ _ hlt
  refine ⟨k, by omega, by rw [hget]; simpa using hfree, fun j => ?_⟩
  rw [Clients.get_set]
  by_cases hj : j = k
  · simp [hj, show k < maxClients by omega]
  · simp [hj]

/-! What the steps of an iteration do to the set of active slots. -/

theorem yields_call_bind {α : Type} {o : Op} {f : Ans o → Task α} {a : α} :
    (call o >>= f).Yields a ↔ ∃ b, (f b).Yields a :=
  Prog.yields_op

theorem rejectConnection_yields {m m' : MainState} {fd : Int} {text : Bytes}
    (h : (rejectConnection m fd text).Yields m') : m' = m := by
  simp only [rejectConnection, Prog.yields_bind, Prog.pure_eq, Prog.yields_ret] at h
  obtain ⟨_, -, _, -, rfl⟩ := h
  rfl

theorem admitConnection_yields {m m' : MainState} {fd : Int} {type : ClientType} {addr : Bytes}
    (h : (admitConnection m fd type addr).Yields m') :
    (m.clients.Full ∧ m' = m) ∨ (¬ m.clients.Full ∧ Admitted m.clients m'.clients) := by
  rw [admitConnection] at h
  cases hadd : addClient m.clients fd type addr with
  | none =>
    rw [hadd] at h
    exact .inl ⟨addClient_none.mp hadd, rejectConnection_yields h⟩
  | some clients =>
    rw [hadd] at h
    simp only [Prog.yields_bind, Prog.pure_eq, Prog.yields_ret] at h
    obtain ⟨_, -, rfl⟩ := h
    refine .inr ⟨fun hfull => ?_, addClient_some hadd⟩
    rw [addClient_none.mpr hfull] at hadd
    cases hadd

/-- A TCP connection is turned away. -/
def InetRefused (m : MainState) (type : ClientType) (single_admin_only : Bool)
    (c : Connection) : Prop :=
  (type = .user ∧ c.addr ∈ m.blocklist) ∨
    (single_admin_only = true ∧ ∃ s ∈ m.clients.slots, s.active = true ∧ s.type = .admin) ∨
      m.clients.Full

theorem acceptNewInetConnection_yields {m : MainState} {fd : Int} {type : ClientType}
    {single : Bool} {r : MainState × Option Connection}
    (h : (acceptNewInetConnection m fd type single).Yields r) :
    ((∀ c, r.2 = some c → InetRefused m type single c) ∧ r.1 = m) ∨
      ((∃ c, r.2 = some c ∧ ¬ InetRefused m type single c) ∧ Admitted m.clients r.1.clients) := by
  rw [acceptNewInetConnection, yields_call_bind] at h
  obtain ⟨answer, h⟩ := h
  cases answer with
  | none =>
    rw [Prog.pure_eq, Prog.yields_ret] at h
    subst h
    exact .inl ⟨by simp, rfl⟩
  | some c =>
    by_cases hblocked : type = .user ∧ c.addr ∈ m.blocklist
    · simp only [blocklistContains, hblocked, decide_true, Bool.and_self, if_true, Prog.yields_bind,
        Prog.pure_eq, Prog.yields_ret] at h
      obtain ⟨m', hreject, rfl⟩ := h
      refine .inl ⟨?_, rejectConnection_yields hreject⟩
      rintro _ ⟨⟩
      exact .inl hblocked
    · have hb : (decide (type = .user) && blocklistContains m.blocklist c.addr) = false := by
        simpa [blocklistContains] using hblocked
      by_cases hadmin : single = true ∧ ∃ s ∈ m.clients.slots, s.active = true ∧ s.type = .admin
      · have ha : (single && m.clients.slots.any fun s => s.active && s.type == .admin) = true := by
          simpa [List.any_eq_true] using hadmin
        simp only [hb, ha, Bool.false_eq_true, if_false, if_true, Prog.yields_bind, Prog.pure_eq,
          Prog.yields_ret] at h
        obtain ⟨m', hreject, rfl⟩ := h
        refine .inl ⟨?_, rejectConnection_yields hreject⟩
        rintro _ ⟨⟩
        exact .inr (.inl hadmin)
      · have ha : (single && m.clients.slots.any fun s => s.active &&
          s.type == .admin) = false := by
          rw [← Bool.not_eq_true]
          simpa [List.any_eq_true] using hadmin
        simp only [hb, ha, Bool.false_eq_true, if_false, Prog.yields_bind, Prog.pure_eq,
          Prog.yields_ret] at h
        obtain ⟨m', hadmit, rfl⟩ := h
        rcases admitConnection_yields hadmit with ⟨hfull, hm⟩ | ⟨hfree, hadmitted⟩
        · refine .inl ⟨?_, hm⟩
          rintro _ ⟨⟩
          exact .inr (.inr hfull)
        · refine .inr ⟨⟨c, rfl, ?_⟩, hadmitted⟩
          rintro (hr | hr | hr)
          · exact hblocked hr
          · exact hadmin hr
          · exact hfree hr

theorem acceptNewUnixConnection_yields {m : MainState} {fd : Int}
    {r : MainState × Option Connection} (h : (acceptNewUnixConnection m fd).Yields r) :
    ((∀ c, r.2 = some c → m.clients.Full) ∧ r.1 = m) ∨
      ((∃ c, r.2 = some c ∧ ¬ m.clients.Full) ∧ Admitted m.clients r.1.clients) := by
  rw [acceptNewUnixConnection, yields_call_bind] at h
  obtain ⟨answer, h⟩ := h
  cases answer with
  | none =>
    rw [Prog.pure_eq, Prog.yields_ret] at h
    subst h
    exact .inl ⟨by simp, rfl⟩
  | some c =>
    simp only [Prog.yields_bind, Prog.pure_eq, Prog.yields_ret] at h
    obtain ⟨m', hadmit, rfl⟩ := h
    rcases admitConnection_yields hadmit with ⟨hfull, hm⟩ | ⟨hfree, hadmitted⟩
    · exact .inl ⟨fun _ _ => hfull, hm⟩
    · exact .inr ⟨⟨c, rfl, hfree⟩, hadmitted⟩

/-- Which slots are active is the same but for slot `i`. -/
def SameOthers (i : Nat) (c c' : Clients) : Prop :=
  ∀ j, j ≠ i → (c'.get j).active = (c.get j).active

theorem sameOthers_set (i : Nat) (c : Clients) (s : ClientSession) :
    SameOthers i c (c.set i s) := by
  intro j hj
  rw [Clients.get_set, if_neg (fun h => hj h.1)]

theorem sameOthers_kick (i k : Nat) (c : Clients) :
    SameOthers i c (c.set k { c.get k with kick_requested := true }) := by
  intro j _
  rw [Clients.get_set]
  split
  · next h => rw [h.1]
  · rfl

theorem sameOthers_map (i : Nat) (c : Clients) {f : ClientSession → ClientSession}
    (hf : ∀ s, (f s).active = s.active) : SameOthers i c (c.map f) := by
  intro j _
  by_cases hj : j < maxClients
  · rw [Clients.get_map c hj, hf]
  · rw [Clients.get_of_ge _ (Nat.le_of_not_lt hj), Clients.get_of_ge _ (Nat.le_of_not_lt hj)]

theorem handleKick_yields {m m' : MainState} {fd : Int} {argument : Bytes} (i : Nat)
    (h : (handleKick m fd argument).Yields m') : SameOthers i m.clients m'.clients := by
  unfold handleKick at h
  split at h
  · simp only [Prog.yields_bind, Prog.pure_eq, Prog.yields_ret] at h
    obtain ⟨_, -, rfl⟩ := h
    exact fun _ _ => rfl
  · split at h
    · simp only [Prog.yields_bind, Prog.pure_eq, Prog.yields_ret] at h
      obtain ⟨_, -, rfl⟩ := h
      exact fun _ _ => rfl
    · simp only [Prog.yields_bind, Prog.pure_eq, Prog.yields_ret] at h
      obtain ⟨_, -, _, -, rfl⟩ := h
      exact sameOthers_kick i _ _

theorem handleBlockIp_yields {m m' : MainState} {fd : Int} {ip : Bytes} (i : Nat)
    (h : (handleBlockIp m fd ip).Yields m') : SameOthers i m.clients m'.clients := by
  unfold handleBlockIp at h
  split at h
  · simp only [Prog.yields_bind, Prog.pure_eq, Prog.yields_ret] at h
    obtain ⟨_, -, rfl⟩ := h
    exact fun _ _ => rfl
  · split at h
    · simp only [Prog.yields_bind, Prog.pure_eq, Prog.yields_ret] at h
      obtain ⟨_, -, rfl⟩ := h
      exact fun _ _ => rfl
    · simp only [Prog.yields_bind, Prog.pure_eq, Prog.yields_ret] at h
      obtain ⟨_, -, rfl⟩ := h
      exact sameOthers_map i _ fun s => by split <;> rfl

theorem handleUnblockIp_yields {m m' : MainState} {fd : Int} {ip : Bytes}
    (h : (handleUnblockIp m fd ip).Yields m') : m'.clients = m.clients := by
  unfold handleUnblockIp at h
  split at h
  · simp only [Prog.yields_bind, Prog.pure_eq, Prog.yields_ret] at h
    obtain ⟨_, -, rfl⟩ := h
    rfl
  · split at h
    · simp only [Prog.yields_bind, Prog.pure_eq, Prog.yields_ret] at h
      obtain ⟨_, -, rfl⟩ := h
      rfl
    · simp only [Prog.yields_bind, Prog.pure_eq, Prog.yields_ret] at h
      obtain ⟨_, -, rfl⟩ := h
      rfl

theorem handleAdminCommand_yields {dt : DurationText} {m m' : MainState} {i : Nat}
    {admin : ClientSession} {request : ProtocolRequest}
    (h : (handleAdminCommand dt m i admin request).Yields m') :
    SameOthers i m.clients m'.clients := by
  unfold handleAdminCommand at h
  split at h
  case h_9 => exact handleKick_yields i h
  case h_10 => exact handleBlockIp_yields i h
  case h_11 =>
    rw [handleUnblockIp_yields h]
    exact fun _ _ => rfl
  case h_12 =>
    simp only [Prog.yields_bind, Prog.pure_eq, Prog.yields_ret] at h
    obtain ⟨_, -, _, -, rfl⟩ := h
    exact sameOthers_set i _ _
  -- the other commands only answer
  all_goals
    simp only [Prog.yields_bind, Prog.pure_eq, Prog.yields_ret] at h
    have hm : m' = m := by grind
    subst hm
    exact fun _ _ => rfl

/-- Handling one session's command closes at most that session. -/
theorem handleClientCommand_yields {cfg : RuntimeConfig} {dt : DurationText}
    {m m' : MainState} {i : Nat} {client : ClientSession}
    (h : (handleClientCommand cfg dt m i client).Yields m') :
    SameOthers i m.clients m'.clients := by
  rw [handleClientCommand, yields_call_bind] at h
  obtain ⟨line, h⟩ := h
  split at h
  · simp only [Prog.yields_bind, Prog.pure_eq, Prog.yields_ret] at h
    obtain ⟨_, -, rfl⟩ := h
    exact sameOthers_set i _ _
  · split at h
    · exact handleAdminCommand_yields h
    · simp only [Prog.yields_bind, Prog.pure_eq, Prog.yields_ret] at h
      obtain ⟨_, -, rfl⟩ := h
      exact sameOthers_set i _ _

/-- The visits of a walk over slots `i`, `i + 1`, … that are active as `active` says. -/
def plannedVisits (revents : Nat → Revents) (active : Nat → Bool) : Nat → Nat → Nat → List Visit
  | 0, _, _ => []
  | left + 1, i, idx =>
    if active i then
      { slot := i, idx := idx, handled := (revents idx).any } ::
        plannedVisits revents active left (i + 1) (idx + 1)
    else plannedVisits revents active left (i + 1) idx

theorem plannedVisits_congr {revents : Nat → Revents} {active active' : Nat → Bool} {left i : Nat}
    (h : ∀ j, i ≤ j → active' j = active j) (idx : Nat) :
    plannedVisits revents active' left i idx = plannedVisits revents active left i idx := by
  induction left generalizing i idx with
  | zero => rfl
  | succ left ih =>
    have hnext := fun idx => ih (i := i + 1) (fun j hj => h j (by omega)) idx
    simp only [plannedVisits, h i (le_refl i), hnext]

theorem walkClients_yields {cfg : RuntimeConfig} {dt : DurationText} {revents : Nat → Revents}
    {left i idx : Nat} {m : MainState} {r : MainState × List Visit}
    (h : (walkClients cfg dt revents left i idx m).Yields r) :
    r.2 = plannedVisits revents (fun j => (m.clients.get j).active) left i idx := by
  induction left generalizing i idx m r with
  | zero =>
    rw [walkClients, Prog.pure_eq, Prog.yields_ret] at h
    rw [h]
    rfl
  | succ left ih =>
    rw [walkClients] at h
    by_cases hactive : (m.clients.get i).active = true
    · simp only [hactive, Bool.not_true, Bool.false_eq_true, if_false, Prog.yields_bind] at h
      obtain ⟨m₁, hhandle, ⟨m₂, visits⟩, hrest, hret⟩ := h
      rw [Prog.pure_eq, Prog.yields_ret] at hret
      have hothers : SameOthers i m.clients m₁.clients := by
        split at hhandle
        · exact handleClientCommand_yields hhandle
        · rw [Prog.pure_eq, Prog.yields_ret] at hhandle
          rw [hhandle]
          exact fun _ _ => rfl
      have hvisits : visits = _ := ih hrest
      rw [hret, hvisits]
      simp only [plannedVisits, hactive, if_true]
      rw [plannedVisits_congr fun j hj => hothers j (by omega)]
    · simp only [hactive, Bool.not_false, if_true] at h
      simp only [plannedVisits, hactive, Bool.false_eq_true, if_false]
      exact ih h

theorem mem_plannedVisits (revents : Nat → Revents) (c : Clients) (left i base : Nat) (v : Visit) :
    v ∈ plannedVisits revents (fun j => (c.get j).active) left i (base + c.rank i) ↔
      i ≤ v.slot ∧ v.slot < i + left ∧ (c.get v.slot).active = true ∧ v.idx = base + c.rank v.slot ∧
        v.handled = (revents v.idx).any := by
  induction left generalizing i with
  | zero =>
    simp only [plannedVisits, List.not_mem_nil, false_iff]
    rintro ⟨h1, h2, -⟩
    omega
  | succ left ih =>
    have hrank : c.rank (i + 1) = c.rank i + if (c.get i).active = true then 1 else 0 :=
      Nat.count_succ ..
    by_cases hactive : (c.get i).active = true
    · rw [if_pos hactive] at hrank
      have hnext := ih (i := i + 1)
      rw [hrank, ← Nat.add_assoc] at hnext
      simp only [plannedVisits, hactive, if_true, List.mem_cons, hnext]
      constructor
      · rintro (rfl | ⟨h1, h2, h3⟩)
        · exact ⟨le_refl i, by simp, hactive, rfl, rfl⟩
        · exact ⟨by omega, by omega, h3⟩
      · rintro ⟨h1, h2, h3, h4, h5⟩
        by_cases hi : v.slot = i
        · left
          obtain ⟨slot, idx, handled⟩ := v
          simp_all
        · exact .inr ⟨by omega, by omega, h3, h4, h5⟩
    · have hsame : c.rank (i + 1) = c.rank i := by rw [hrank, if_neg hactive, Nat.add_zero]
      have hnext := ih (i := i + 1)
      rw [hsame] at hnext
      simp only [plannedVisits, hactive, Bool.false_eq_true, if_false]
      rw [hnext]
      constructor
      · rintro ⟨h1, h2, h3⟩
        exact ⟨by omega, by omega, h3⟩
      · rintro ⟨h1, h2, h3, h4⟩
        have hi : v.slot ≠ i := fun hi => hactive (hi ▸ h3)
        exact ⟨by omega, by omega, h3, h4⟩

/-! An iteration as a whole. -/

/-- Commands are handled only for slots whose own entry reported something, and no
entry past those of this iteration is consulted. -/
def ReadinessMatched (m : MainState) (log : PollLog) : Prop :=
  ∀ v ∈ log.visits, v.idx < log.nfds ∧
    (v.handled = true → ∃ e, m.clients.entryOf v.slot = some e ∧ (log.revents e).any = true)

/-- No connection of the iteration is let in: each one that `accept` returned is
blocked, a second admin, or finds no free slot. -/
def NoAdmission (m : MainState) (log : PollLog) : Prop :=
  (∀ c, log.user_conn = some c → InetRefused m .user false c) ∧
  (∀ c, log.admin_conn = some c → InetRefused m .admin true c) ∧
  (∀ c, log.unix_conn = some c → m.clients.Full)

/-- What the walk of an iteration visits: the sessions as the accepts left them. -/
theorem serveReady_yields {cfg : RuntimeConfig} {dt : DurationText} {fds : ServerFds}
    {revents : Nat → Revents} {nfds : Nat} {m : MainState} {r : MainState × PollLog}
    (h : (serveReady cfg dt fds revents nfds m).Yields r) :
    r.2.nfds = nfds ∧ r.2.revents = revents ∧
    ∃ c : Clients, r.2.visits = plannedVisits revents (fun j => (c.get j).active) maxClients 0 5 ∧
      ((NoAdmission m r.2 ∧ c = m.clients) ∨
        (¬ NoAdmission m r.2 ∧ m.clients.rank maxClients < c.rank maxClients)) := by
  simp only [serveReady, Prog.yields_bind] at h
  obtain ⟨⟨m₁, user_conn⟩, huser, ⟨m₂, admin_conn⟩, hadmin, ⟨m₃, unix_conn⟩, hunix, h⟩ := h
  have huser' : ((∀ c, user_conn = some c → InetRefused m .user false c) ∧ m₁ = m) ∨
      ((∃ c, user_conn = some c ∧ ¬ InetRefused m .user false c) ∧
        Admitted m.clients m₁.clients) := by
    split at huser
    · exact acceptNewInetConnection_yields huser
    · rw [Prog.pure_eq, Prog.yields_ret, Prod.mk.injEq] at huser
      exact .inl ⟨by simp [huser.2], huser.1⟩
  have hadmin' : ((∀ c, admin_conn = some c → InetRefused m₁ .admin true c) ∧ m₂ = m₁) ∨
      ((∃ c, admin_conn = some c ∧ ¬ InetRefused m₁ .admin true c) ∧
        Admitted m₁.clients m₂.clients) := by
    split at hadmin
    · exact acceptNewInetConnection_yields hadmin
    · rw [Prog.pure_eq, Prog.yields_ret, Prod.mk.injEq] at hadmin
      exact .inl ⟨by simp [hadmin.2], hadmin.1⟩
  have hunix' : ((∀ c, unix_conn = some c → m₂.clients.Full) ∧ m₃ = m₂) ∨
      ((∃ c, unix_conn = some c ∧ ¬ m₂.clients.Full) ∧ Admitted m₂.clients m₃.clients) := by
    split at hunix
    · exact acceptNewUnixConnection_yields hunix
    · rw [Prog.pure_eq, Prog.yields_ret, Prod.mk.injEq] at hunix
      exact .inl ⟨by simp [hunix.2], hunix.1⟩
  have hwalk : ∃ visits, r.2 = ⟨nfds, revents, user_conn, admin_conn, unix_conn, visits⟩ ∧
      visits = plannedVisits revents (fun j => (m₃.clients.get j).active) maxClients 0 5 := by
    obtain ⟨_, -, _, -, ⟨m₄, visits⟩, hvisits, hret⟩ := h
    rw [Prog.pure_eq, Prog.yields_ret] at hret
    exact ⟨visits, by rw [hret], walkClients_yields hvisits⟩
  obtain ⟨visits, hlog, hvisits⟩ := hwalk
  rw [hlog]
  refine ⟨rfl, rfl, m₃.clients, hvisits, ?_⟩
  have hmono : ∀ {c c' : Clients}, Admitted c c' → c.rank maxClients < c'.rank maxClients := by
    intro c c' hc
    rw [hc.rank]
    omega
  rcases huser' with ⟨hu, rfl⟩ | ⟨⟨c, hc, hu⟩, hadm⟩
  · rcases hadmin' with ⟨ha, rfl⟩ | ⟨⟨c, hc, ha⟩, hadm⟩
    · rcases hunix' with ⟨hx, rfl⟩ | ⟨⟨c, hc, hx⟩, hadm⟩
      · exact .inl ⟨⟨hu, ha, hx⟩, rfl⟩
      · exact .inr ⟨fun hno => hx (hno.2.2 c hc), hmono hadm⟩
    · refine .inr ⟨fun hno => ha (hno.2.1 c hc), ?_⟩
      rcases hunix' with ⟨-, rfl⟩ | ⟨-, hadm'⟩
      · exact hmono hadm
      · exact (hmono hadm).trans (hmono hadm')
  · refine .inr ⟨fun hno => hu (hno.1 c hc), ?_⟩
    rcases hadmin' with ⟨-, rfl⟩ | ⟨-, hadm'⟩ <;> rcases hunix' with ⟨-, rfl⟩ | ⟨-, hadm''⟩
    · exact hmono hadm
    · exact (hmono hadm).trans (hmono hadm'')
    · exact (hmono hadm).trans (hmono hadm')
    · exact (hmono hadm).trans ((hmono hadm').trans (hmono hadm''))

/-- The walk matches the poll exactly when no connection was let in before it. -/
theorem pollIteration_readiness (cfg : RuntimeConfig) (dt : DurationText) (fds : ServerFds)
    (m : MainState) (next : Option MainState) (log : PollLog)
    (h : (pollIteration cfg dt fds m).Yields (next, some log)) :
    ReadinessMatched m log ↔ NoAdmission m log := by
  rw [pollIteration, yields_call_bind] at h
  obtain ⟨answer, h⟩ := h
  cases answer with
  | interrupted => simp [Prog.pure_eq, Prog.yields_ret] at h
  | failed => simp [Prog.pure_eq, Prog.yields_ret] at h
  | timeout => simp [Prog.yields_bind, Prog.pure_eq, Prog.yields_ret] at h
  | ready revents =>
    simp only [Prog.yields_bind, Prog.pure_eq, Prog.yields_ret, Prod.mk.injEq,
      Option.some.injEq] at h
    obtain ⟨⟨m', log'⟩, hserve, _, -, -, rfl⟩ := h
    obtain ⟨hnfds, hrevents, c, hvisits, hcases⟩ := serveReady_yields hserve
    have hlen : log.nfds = 5 + m.clients.rank maxClients := by
      have hnfds' : log.nfds = (rebuildPollfds fds m.clients).length := hnfds
      rw [hnfds', rebuildPollfds, List.length_append, List.length_map, Clients.active_length]
      rfl
    have hmem : ∀ v, v ∈ log.visits ↔ v.slot < maxClients ∧ (c.get v.slot).active = true ∧
        v.idx = 5 + c.rank v.slot ∧ v.handled = (revents v.idx).any := by
      intro v
      have hv := mem_plannedVisits revents c maxClients 0 5 v
      have hzero : c.rank 0 = 0 := Nat.count_zero _
      rw [hzero, Nat.add_zero] at hv
      have hvisits' : log.visits = _ := hvisits
      rw [hvisits', hv]
      simp
    rcases hcases with ⟨hno, rfl⟩ | ⟨hadm, hlt⟩
    · refine ⟨fun _ => hno, fun _ v hv => ?_⟩
      obtain ⟨hslot, hactive, hidx, hhandled⟩ := (hmem v).mp hv
      have hstrict : m.clients.rank v.slot < m.clients.rank maxClients :=
        Nat.count_strict_mono hactive hslot
      refine ⟨by omega, fun hh => ⟨v.idx, ?_, ?_⟩⟩
      · rw [Clients.entryOf, if_pos hactive, hidx]
      · have hrev : log.revents = revents := hrevents
        rw [hrev, ← hhandled, hh]
    · refine ⟨fun hmatched => ?_, fun hno => absurd hno hadm⟩
      -- the slot that as many active slots precede as there were entries
      obtain ⟨j, hj, hactive, hrank⟩ := exists_count_eq hlt
      have hv := (hmem { slot := j, idx := log.nfds, handled := (revents log.nfds).any }).mpr
        ⟨hj, hactive, by rw [hlen]; exact congrArg (5 + ·) hrank.symm, rfl⟩
      exact absurd (hmatched _ hv).1 (lt_irrefl _)

/-! A user connects while another session, in a higher slot, has sent something. -/

def waitingState : MainState where
  clients := Clients.idle.set 1
    { fd := 9, type := .user, active := true, addr_str := lit "10.0.0.2" }

def waitingPoll : Env where
  poll := .ready fun i => { pollin := i == 0 || i == 5 }

def arrivingPeer : Env where
  connection := some { fd := 10, peer := .inet 10 0 0 1, stream := [.chunk 80 (lit "ING\n")] }

theorem pollIteration_mismatch :
    ¬ ∀ (codec : PngCodec) (cfg : RuntimeConfig) (dt : DurationText) (fds : ServerFds)
      (m : MainState) (s : Sys) (next : Option MainState) (log : PollLog) (s' : Sys),
      Runs (machine codec) .main (pollIteration cfg dt fds m) s (next, some log) s' →
        ReadinessMatched m log := by
  intro hmatched
  let s : Sys := { world := { files := fun _ => none }, history := [] }
  let run := execute rawCodec .main (pollIteration runtimeConfigDefaults plainDurations plainFds
    waitingState)
    ([waitingPoll, arrivingPeer].getD · {}) s
  have hpast : (run.bind fun r => r.1.2.map fun log => log.visits.any fun v =>
    decide (log.nfds ≤ v.idx)) =
      some true := by decide +kernel
  obtain ⟨⟨⟨next, log⟩, s'⟩, hrun, hlog⟩ := Option.bind_eq_some_iff.mp hpast
  obtain ⟨log, rfl, hany⟩ := Option.map_eq_some_iff.mp hlog
  obtain ⟨v, hv, hidx⟩ := List.any_eq_true.mp hany
  have hlt := (hmatched _ _ _ _ _ _ _ _ _ (execute_runs hrun) v hv).1
  exact absurd (of_decide_eq_true hidx) (Nat.not_le.mpr hlt)

theorem pollIteration_readiness_waiting :
    ∃ next log, (pollIteration runtimeConfigDefaults plainDurations plainFds waitingState).Yields
      (next, some log) ∧
      (ReadinessMatched waitingState log ↔ NoAdmission waitingState log) := by
  let s : Sys := { world := { files := fun _ => none }, history := [] }
  let run := execute rawCodec .main (pollIteration runtimeConfigDefaults plainDurations plainFds
    waitingState)
    ([waitingPoll, arrivingPeer].getD · {}) s
  have hlogged : (run.bind fun r => r.1.2).isSome = true := by decide +kernel
  obtain ⟨log, hlog⟩ := Option.isSome_iff_exists.mp hlogged
  obtain ⟨⟨⟨next, log'⟩, s'⟩, hrun, hlog'⟩ := Option.bind_eq_some_iff.mp hlog
  have hsome : log' = some log := hlog'
  subst hsome
  have hyields := (execute_runs hrun).yields
  exact ⟨next, log, hyields, pollIteration_readiness _ _ _ _ next log hyields⟩

end StegaPng
