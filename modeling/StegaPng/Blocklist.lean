import StegaPng.SessionTable

/-! Sessions from blocked addresses: who is marked while an iteration runs, and who is
left when it has ended. -/

namespace StegaPng

open Interleaving

theorem PeerAddr.text_length (peer : PeerAddr) : peer.text.length ≤ 15 := by
  cases peer with
  | unknown => decide
  | inet a b c d =>
    have hbyte : ∀ x : UInt8, (decimal x.toNat).length ≤ 3 := by
      intro x
      have hx := x.toNat_lt
      exact decimal_length_le (by decide) (by omega : x.toNat < 10 ^ 3)
    have hdot : (lit ".").length = 1 := rfl
    have ha := hbyte a
    have hb := hbyte b
    have hc := hbyte c
    have hd := hbyte d
    simp only [PeerAddr.text, List.length_append, hdot]
    omega

theorem PeerAddr.text_ne_unix (peer : PeerAddr) : peer.text ≠ lit "unix-local" := by
  cases peer with
  | unknown => decide
  | inet a b c d =>
    intro heq
    obtain ⟨x, xs, hx⟩ := List.exists_cons_of_ne_nil (decimal_ne_nil a.toNat)
    have hdigit := decimal_digit (n := a.toNat) (b := x) (by rw [hx]; exact List.mem_cons_self)
    have hhead : x = 117 := by
      simp only [PeerAddr.text, hx, List.cons_append] at heq
      exact (List.cons.inj heq).1
    rw [hhead] at hdigit
    exact absurd hdigit.2 (by decide)

theorem snprintf_peer (peer : PeerAddr) : snprintf 64 peer.text = peer.text :=
  snprintf_eq (Nat.lt_of_le_of_lt peer.text_length (by decide))

/-- The session's peer has an address of its own. -/
def ClientSession.OverTcp (c : ClientSession) : Prop := ∃ peer : PeerAddr, c.addr_str = peer.text

def Barred (m : MainState) (i : Nat) : Prop :=
  (m.clients.get i).active = true ∧ (m.clients.get i).type = .user ∧ (m.clients.get i).OverTcp ∧
    (m.clients.get i).addr_str ∈ m.blocklist

/-- Whoever is barred is to be kicked. -/
def Marked (m : MainState) : Prop := ∀ i, Barred m i → (m.clients.get i).kick_requested = true

theorem welcome_not_barred {m : MainState} {type : ClientType} {addr : Bytes} {fd : Int}
    (h : Welcome m type addr) (htype : type = .user) (htcp : (newSession fd type addr).OverTcp) :
    (newSession fd type addr).addr_str ∉ m.blocklist := by
  cases h with
  | admin peer hsole => cases htype
  | user peer hclear =>
    rw [newSession, snprintf_peer]
    exact hclear
  | unix =>
    obtain ⟨peer, hpeer⟩ := htcp
    exact absurd hpeer.symm peer.text_ne_unix

/-- An address that joins the list is the one that was asked for. -/
theorem blocklistAdd_peer {ips ips' : List Bytes} {ip : Bytes} {peer : PeerAddr}
    (h : blocklistAdd ips ip = some ips') (hmem : peer.text ∈ ips') : peer.text ∈ ips ∨
      peer.text = ip := by
  obtain ⟨-, ⟨-, rfl⟩ | ⟨-, rfl⟩⟩ := blocklistAdd_some h
  · exact .inl hmem
  · rcases List.mem_append.mp hmem with hold | hnew
    · exact .inl hold
    · have heq : peer.text = snprintf 64 ip := List.mem_singleton.mp hnew
      have hshort := peer.text_length
      have hcut : (snprintf 64 ip).length = min 63 ip.length := List.length_take
      rw [heq, hcut] at hshort
      exact .inr (heq.trans (snprintf_eq (by omega)))

theorem SessionMove.marked {m m' : MainState} {marks : List Mark} (hmove : SessionMove m m' marks)
    (h : Marked m) :
    Marked m' := by
  intro i hbarred
  cases hmove with
  | same => exact h i hbarred
  | refused fd => exact h i hbarred
  | admitted hk hfree hwelcome =>
    simp only [Barred, MainState.put, Clients.get_set] at hbarred ⊢
    split at hbarred
    · exact absurd hbarred.2.2.2 (welcome_not_barred hwelcome hbarred.2.1 hbarred.2.2.1)
    · next hi =>
      rw [if_neg hi]
      exact h i hbarred
  | closed hactive =>
    simp only [Barred, MainState.put, Clients.get_set] at hbarred ⊢
    split at hbarred
    · exact absurd hbarred.1 (by simp)
    · next hi =>
      rw [if_neg hi]
      exact h i hbarred
  | @kicked k hactive =>
    simp only [Barred, MainState.put, Clients.get_set] at hbarred ⊢
    split at hbarred
    · next hi =>
      rw [if_pos hi]
      rfl
    · next hi =>
      rw [if_neg hi]
      exact h i hbarred
  | @blocked ip blocklist hadd =>
    obtain ⟨hactive, htype, ⟨peer, hpeer⟩, hmem⟩ := hbarred
    have hget := m.clients.get_blocked ip i
    dsimp only at hactive htype hpeer hmem ⊢
    rw [hget] at hactive htype hpeer hmem ⊢
    split
    · rfl
    · next hother =>
      rw [if_neg hother] at hactive htype hpeer hmem
      refine h i ⟨hactive, htype, ⟨peer, hpeer⟩, ?_⟩
      rw [hpeer] at hmem ⊢
      rcases blocklistAdd_peer hadd hmem with hold | rfl
      · exact hold
      · simp [ClientSession.matchesIp, hactive, htype, hpeer] at hother
  | unblocked hremove =>
    obtain ⟨hactive, htype, htcp, hmem⟩ := hbarred
    refine h i ⟨hactive, htype, htcp, ?_⟩
    obtain ⟨-, rfl⟩ := blocklistRemove_some hremove
    exact List.mem_of_mem_erase hmem

/-- No session below `n` waits to be kicked. -/
def SweptBelow (m : MainState) (n : Nat) : Prop :=
  ∀ i < n, ((m.clients.get i).active && (m.clients.get i).kick_requested) = false

/-- How far the sweep has come. -/
def Phase.Swept : Phase → Prop
  | .waiting m | .polling m | .ended m => SweptBelow m maxClients
  | .sweeping left i m => i + left = maxClients ∧ SweptBelow m i
  | _ => True

section

variable {codec : PngCodec} {cfg : RuntimeConfig} {dt : DurationText} {fds : ServerFds}

theorem LoopStep.swept_phase {ℓ ℓ' : LoopState} (hstep : LoopStep codec cfg dt fds ℓ ℓ')
    (h : ℓ.phase.Swept) :
    ℓ'.phase.Swept := by
  cases hstep with
  | wake _ => exact h
  | interrupted _ => exact h
  | timeout _ => exact ⟨Nat.zero_add _, fun i hi => absurd hi (Nat.not_lt_zero i)⟩
  | ready _ => trivial
  | @accept m m' s s' revents listener conn _ => cases listener <;> trivial
  | drain _ => trivial
  | skip _ => trivial
  | visit _ _ => trivial
  | walked _ => exact ⟨Nat.zero_add _, fun i hi => absurd hi (Nat.not_lt_zero i)⟩
  | keep hkeep =>
    obtain ⟨hsum, hbelow⟩ := h
    refine ⟨by omega, fun k hk => ?_⟩
    rcases Nat.lt_succ_iff_lt_or_eq.mp hk with hlt | rfl
    · exact hbelow k hlt
    · exact hkeep
  | close hkicked hrun =>
    obtain ⟨hsum, hbelow⟩ := h
    have hactive := (Bool.and_eq_true _ _ ▸ hkicked).1
    obtain ⟨rfl, -⟩ := amid_closeClient hactive hrun
    refine ⟨by omega, fun k hk => ?_⟩
    dsimp only
    rw [Clients.get_set]
    split
    · rfl
    · next hne => exact hbelow k (by omega)
  | swept _ =>
    obtain ⟨hsum, hbelow⟩ := h
    exact fun i hi => hbelow i (by omega)
  | turn => exact h

theorem LoopRun.marked {files : Bytes → Option Bytes} {ℓ : LoopState}
    (hrun : LoopRun codec cfg dt fds (initialLoop files) ℓ) : Marked ℓ.phase.main := by
  induction hrun with
  | refl => exact fun i hbarred => absurd hbarred.2.2.2 List.not_mem_nil
  | tail _ hstep ih =>
    obtain ⟨marks, hmove, -⟩ := hstep.moves
    exact hmove.marked ih

theorem LoopRun.swept {files : Bytes → Option Bytes} {ℓ : LoopState}
    (hrun : LoopRun codec cfg dt fds (initialLoop files) ℓ) : ℓ.phase.Swept := by
  induction hrun with
  | refl =>
    intro i hi
    rw [idle_get]
    rfl
  | tail _ hstep ih => exact hstep.swept_phase ih

/-- Whenever an iteration of the poll loop has ended, no user session over TCP comes
from a blocked address. -/
theorem blocked_stay_out {files : Bytes → Option Bytes} {c : ServerConfig} {m : MainState}
    (h : ServerReachable codec cfg dt fds files c)
    (hm : c.thread .main = some (.ret (some m))) (i : Nat)
    (hactive : (m.clients.get i).active = true) (htype : (m.clients.get i).type = .user)
    (htcp : (m.clients.get i).OverTcp) : (m.clients.get i).addr_str ∉ m.blocklist := by
  intro hmem
  have hrun := h.loop hm
  have hkicked : (m.clients.get i).kick_requested = true :=
    hrun.marked i ⟨hactive, htype, htcp, hmem⟩
  have hi : i < maxClients := Clients.lt_of_active hactive
  have hswept : SweptBelow m maxClients := hrun.swept
  have hkept := hswept i hi
  rw [hactive, hkicked] at hkept
  cases hkept

/-- An admin blocks one address while a user connects from another. -/
def blocksElsewhere : List (Tid × Env) :=
  [(.main, {}), (.main, pollReports [1]),
    (.main, { connection := some ⟨8, .inet 10 0 0 1, [.chunk 66 (lit "LOCKIP 10.0.0.9\n")]⟩ }),
    (.main, {}), (.main, {}), (.main, {}), (.main, pollReports [0, 5]),
    (.main, { connection := some ⟨9, .inet 10 0 0 7, []⟩ })] ++ steps 3 .main

theorem blocked_stay_out_elsewhere :
    ∃ c m, ServerReachable boundedCodec runtimeConfigDefaults plainDurations plainFds
      (fun _ => none) c ∧
      ended c = some m ∧ m.blocklist = [lit "10.0.0.9"] ∧
        (m.clients.get 1).addr_str ∉ m.blocklist := by
  obtain ⟨c, hreach, hc⟩ :=
    exists_reachable boundedCodec runtimeConfigDefaults plainDurations plainFds (fun _ => none)
    blocksElsewhere ended
    (show _ = some (some { MainState.put (MainState.put {} 0
      (newSession 8 .admin (lit "10.0.0.1"))) 1
      (newSession 9 .user (lit "10.0.0.7")) with blocklist := [lit "10.0.0.9"] }) by decide +kernel)
  refine ⟨c, _, hreach, hc, rfl, ?_⟩
  have hpeer : ClientSession.OverTcp (newSession 9 .user (lit "10.0.0.7")) :=
    ⟨.inet 10 0 0 7, by decide +kernel⟩
  exact blocked_stay_out hreach (ended_thread hc) 1 rfl rfl hpeer

end

end StegaPng
