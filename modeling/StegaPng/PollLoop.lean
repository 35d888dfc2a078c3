import StegaPng.ServerRuns
import StegaPng.Turns

/-! The poll loop as a state machine over the sessions, with the workers running
amid its steps. -/

namespace StegaPng

open Interleaving

inductive Listener where
  | user
  | admin
  | unix

/-- Where the main thread is between two parts of an iteration. -/
inductive Phase where
  | waiting (m : MainState)
  | polling (m : MainState)
  | accepting (revents : Nat → Revents) (listener : Listener) (m : MainState)
  | draining (revents : Nat → Revents) (m : MainState)
  | walking (revents : Nat → Revents) (left i idx : Nat) (m : MainState)
  | sweeping (left i : Nat) (m : MainState)
  | ended (m : MainState)

def Phase.main : Phase → MainState
  | .waiting m | .polling m | .accepting _ _ m | .draining _ m | .walking _ _ _ _ m | .sweeping
      _ _ m | .ended m => m

structure LoopState where
  phase : Phase
  sys : Sys

section

variable (codec : PngCodec) (cfg : RuntimeConfig) (dt : DurationText) (fds : ServerFds)

/-- A run of a part of the main thread, amid what the workers do. -/
abbrev Amid {α : Type} (p : Task α) (s : Sys) (a : α) (s' : Sys) : Prop :=
  RunsAmid (machine codec) ((conduct cfg codec).Others .main) .main p s a s'

def serveListener (revents : Nat → Revents) (m : MainState) :
    Listener → Task (MainState × Option Connection)
  | .user =>
    if (revents 0).pollin then acceptNewInetConnection m fds.listen_fd_user .user false else
      pure (m, none)
  | .admin =>
    if (revents 1).pollin then acceptNewInetConnection m fds.listen_fd_admin .admin true else
      pure (m, none)
  | .unix =>
    if (revents 2).pollin then acceptNewUnixConnection m fds.listen_fd_unix else pure (m, none)

def afterListener (revents : Nat → Revents) (m : MainState) : Listener → Phase
  | .user => .accepting revents .admin m
  | .admin => .accepting revents .unix m
  | .unix => .draining revents m

def drainBoth (revents : Nat → Revents) : Task Unit := do
  drainIfReady (revents 3) fds.pipe_read_fd
  drainIfReady (revents 4) fds.inotify_fd

/-- What the walk does with an active session. -/
def visitSlot (revents : Nat → Revents) (i idx : Nat) (m : MainState) : Task MainState :=
  if (revents idx).any then handleClientCommand cfg dt m i (m.clients.get i) else pure m

inductive LoopStep : LoopState → LoopState → Prop
  | wake {m : MainState} {s s' : Sys} (hrun : Amid codec cfg (call .gRunning) s true s') :
      LoopStep ⟨.waiting m, s⟩ ⟨.polling m, s'⟩
  | interrupted {m : MainState} {s s' : Sys}
      (hrun : Amid codec cfg (call (.poll (rebuildPollfds fds m.clients))) s .interrupted s') :
      LoopStep ⟨.polling m, s⟩ ⟨.ended m, s'⟩
  | timeout {m : MainState} {s s' : Sys}
      (hrun : Amid codec cfg (call (.poll (rebuildPollfds fds m.clients))) s .timeout s') :
      LoopStep ⟨.polling m, s⟩ ⟨.sweeping maxClients 0 m, s'⟩
  | ready {m : MainState} {s s' : Sys} {revents : Nat → Revents}
      (hrun : Amid codec cfg (call (.poll (rebuildPollfds fds m.clients))) s (.ready revents) s') :
      LoopStep ⟨.polling m, s⟩ ⟨.accepting revents .user m, s'⟩
  | accept {m m' : MainState} {s s' : Sys}
      {revents : Nat → Revents} {listener : Listener} {conn : Option Connection}
      (hrun : Amid codec cfg (serveListener fds revents m listener) s (m', conn) s') :
      LoopStep ⟨.accepting revents listener m, s⟩ ⟨afterListener revents m' listener, s'⟩
  | drain {m : MainState} {s s' : Sys} {revents : Nat → Revents}
      (hrun : Amid codec cfg (drainBoth fds revents) s () s') :
      LoopStep ⟨.draining revents m, s⟩ ⟨.walking revents maxClients 0 5 m, s'⟩
  | skip {m : MainState} {s : Sys} {revents : Nat → Revents} {left i idx : Nat}
      (hidle : (m.clients.get i).active = false) :
      LoopStep ⟨.walking revents (left + 1) i idx m, s⟩ ⟨.walking revents left (i + 1) idx m, s⟩
  | visit {m m' : MainState} {s s' : Sys} {revents : Nat → Revents} {left i idx : Nat}
      (hactive : (m.clients.get i).active = true)
      (hrun : Amid codec cfg (visitSlot cfg dt revents i idx m) s m' s') :
      LoopStep
        ⟨.walking revents (left + 1) i idx m, s⟩ ⟨.walking revents left (i + 1) (idx + 1) m', s'⟩
  | walked {m : MainState} {s s' : Sys} {revents : Nat → Revents} {i idx : Nat}
      (henv : (conduct cfg codec).Others .main s s') :
      LoopStep ⟨.walking revents 0 i idx m, s⟩ ⟨.sweeping maxClients 0 m, s'⟩
  | keep {m : MainState} {s : Sys} {left i : Nat}
      (hkeep : ((m.clients.get i).active && (m.clients.get i).kick_requested) = false) :
      LoopStep ⟨.sweeping (left + 1) i m, s⟩ ⟨.sweeping left (i + 1) m, s⟩
  | close {m : MainState} {s s' : Sys} {left i : Nat} {closed : ClientSession}
      (hkicked : ((m.clients.get i).active && (m.clients.get i).kick_requested) = true)
      (hrun : Amid codec cfg (closeClient (m.clients.get i)) s closed s') :
      LoopStep ⟨.sweeping (left + 1) i m, s⟩
        ⟨.sweeping left (i + 1) { m with clients := m.clients.set i closed }, s'⟩
  | swept {m : MainState} {s s' : Sys} {i : Nat} (henv : (conduct cfg codec).Others .main s s') :
      LoopStep ⟨.sweeping 0 i m, s⟩ ⟨.ended m, s'⟩
  | turn {m : MainState} {s : Sys} :
      LoopStep ⟨.ended m, s⟩ ⟨.waiting m, (machine codec).turn .main s⟩

/-- What the loop reaches from the state `ℓ`. -/
abbrev LoopRun := Relation.ReflTransGen fun (ℓ ℓ' : LoopState) => LoopStep codec cfg dt fds ℓ ℓ'

def initialLoop (files : Bytes → Option Bytes) : LoopState :=
  ⟨.waiting {}, { world := { files := files }, history := [] }⟩

variable {codec cfg dt fds} {m m' : MainState} {s s' : Sys}

theorem amid_bind {α β : Type} {p : Task α} {f : α → Task β} {b : β} :
    Amid codec cfg (p >>= f) s b s' ↔ ∃ a s₁, Amid codec cfg p s a s₁ ∧
      Amid codec cfg (f a) s₁ b s' :=
  RunsAmid.bind_iff (fun _ => .refl) (fun _ _ _ => Relation.ReflTransGen.trans)

theorem amid_map {α β : Type} {p : Task α} {f : α → β} {b : β}
    (h : Amid codec cfg (p >>= fun a => pure (f a)) s b s') :
    ∃ a, Amid codec cfg p s a s' ∧ b = f a := by
  obtain ⟨a, s₁, hp, hret⟩ := amid_bind.mp h
  obtain ⟨rfl, henv⟩ := RunsAmid.ret_iff.mp hret
  exact ⟨a, hp.env_after (fun _ _ _ => Relation.ReflTransGen.trans) henv, rfl⟩

theorem walkClients_loop {revents : Nat → Revents} {left i idx : Nat} {r : MainState × List Visit}
    (h : Amid codec cfg (walkClients cfg dt revents left i idx m) s r s') :
    LoopRun codec cfg dt fds
      ⟨.walking revents left i idx m, s⟩ ⟨.sweeping maxClients 0 r.1, s'⟩ := by
  induction left generalizing i idx m s r with
  | zero =>
    obtain ⟨rfl, henv⟩ := RunsAmid.ret_iff.mp h
    exact .single (.walked henv)
  | succ left ih =>
    unfold walkClients at h
    dsimp only at h
    split at h
    · next hidle =>
      refine .head (.skip ?_) (ih h)
      simpa using hidle
    · next hactive =>
      obtain ⟨m₁, s₁, hvisit, hrest⟩ := amid_bind.mp h
      obtain ⟨⟨m₂, visits⟩, hwalk, rfl⟩ := amid_map hrest
      refine .head (.visit ?_ hvisit) (ih (r := (m₂, visits)) hwalk)
      simpa using hactive

theorem sweepKicked_loop {left i : Nat} {clients : Clients}
    (h : Amid codec cfg (sweepKicked left i m.clients) s clients s') :
    LoopRun codec cfg dt fds
      ⟨.sweeping left i m, s⟩ ⟨.ended { m with clients := clients }, s'⟩ := by
  induction left generalizing i m s with
  | zero =>
    obtain ⟨rfl, henv⟩ := RunsAmid.ret_iff.mp h
    exact .single (.swept henv)
  | succ left ih =>
    unfold sweepKicked at h
    dsimp only at h
    split at h
    · next hkicked =>
      obtain ⟨closed, s₁, hclose, hrest⟩ := amid_bind.mp h
      have hsweep := ih (m := { m with clients := m.clients.set i closed }) hrest
      exact .head (.close hkicked hclose) hsweep
    · next hkeep => exact .head (.keep (Bool.eq_false_iff.mpr hkeep)) (ih h)

theorem serveReady_loop {revents : Nat → Revents} {nfds : Nat} {r : MainState × PollLog}
    (h : Amid codec cfg (serveReady cfg dt fds revents nfds m) s r s') :
    LoopRun codec cfg dt fds ⟨.accepting revents .user m, s⟩ ⟨.sweeping maxClients 0 r.1, s'⟩ := by
  unfold serveReady at h
  obtain ⟨⟨m₁, user⟩, s₁, huser, h₁⟩ := amid_bind.mp h
  obtain ⟨⟨m₂, admin⟩, s₂, hadmin, h₂⟩ := amid_bind.mp h₁
  obtain ⟨⟨m₃, unix⟩, s₃, hunix, h₃⟩ := amid_bind.mp h₂
  obtain ⟨_, s₄, hpipe, h₄⟩ := amid_bind.mp h₃
  obtain ⟨_, s₅, hnotify, h₅⟩ := amid_bind.mp h₄
  obtain ⟨⟨m₆, visits⟩, hwalk, rfl⟩ := amid_map h₅
  have hdrain : Amid codec cfg (drainBoth fds revents) s₃ () s₅ :=
    amid_bind.mpr ⟨_, s₄, hpipe, hnotify⟩
  have huserStep : LoopStep codec cfg dt fds
    ⟨.accepting revents .user m, s⟩ ⟨.accepting revents .admin m₁, s₁⟩ :=
    .accept huser
  have hadminStep : LoopStep codec cfg dt fds
    ⟨.accepting revents .admin m₁, s₁⟩ ⟨.accepting revents .unix m₂, s₂⟩ :=
    .accept hadmin
  have hunixStep : LoopStep codec cfg dt fds
    ⟨.accepting revents .unix m₂, s₂⟩ ⟨.draining revents m₃, s₃⟩ :=
    .accept hunix
  have haccepts : LoopRun codec cfg dt fds
    ⟨.accepting revents .user m, s⟩ ⟨.draining revents m₃, s₃⟩ :=
    .head huserStep (.head hadminStep (.single hunixStep))
  exact haccepts.trans (.head (.drain hdrain) (walkClients_loop hwalk))

theorem pollIteration_loop {r : Option MainState × Option PollLog}
    (h : Amid codec cfg (pollIteration cfg dt fds m) s r s') (hr : r.1 = some m') :
    LoopRun codec cfg dt fds ⟨.polling m, s⟩ ⟨.ended m', s'⟩ := by
  obtain ⟨answer, s₁, hpoll, hrest⟩ := amid_bind.mp h
  cases answer with
  | interrupted =>
    obtain ⟨rfl, henv⟩ := RunsAmid.ret_iff.mp hrest
    cases hr
    exact .single (.interrupted (hpoll.env_after (fun _ _ _ => Relation.ReflTransGen.trans) henv))
  | failed =>
    obtain ⟨rfl, -⟩ := RunsAmid.ret_iff.mp hrest
    cases hr
  | timeout =>
    obtain ⟨clients, hsweep, rfl⟩ := amid_map hrest
    cases hr
    exact .head (.timeout hpoll) (sweepKicked_loop hsweep)
  | ready revents =>
    obtain ⟨⟨m₁, log⟩, s₂, hserve, hrest₁⟩ := amid_bind.mp hrest
    obtain ⟨clients, hsweep, rfl⟩ := amid_map hrest₁
    cases hr
    exact .head (.ready hpoll) ((serveReady_loop hserve).trans (sweepKicked_loop hsweep))

theorem serverTurn_loop (h : Amid codec cfg (serverTurn cfg dt fds m) s (some m') s') :
    LoopRun codec cfg dt fds ⟨.waiting m, s⟩ ⟨.ended m', s'⟩ := by
  obtain ⟨running, s₁, hrunning, hrest⟩ := amid_bind.mp h
  cases running with
  | false =>
    obtain ⟨_, s₂, -, hret⟩ := amid_bind.mp hrest
    obtain ⟨hnone, -⟩ := RunsAmid.ret_iff.mp hret
    cases hnone
  | true =>
    obtain ⟨⟨next, log⟩, s₂, hpoll, hrest₁⟩ := amid_bind.mp hrest
    cases next with
    | none =>
      obtain ⟨_, s₃, -, hret⟩ := amid_bind.mp hrest₁
      obtain ⟨hnone, -⟩ := RunsAmid.ret_iff.mp hret
      cases hnone
    | some next =>
      obtain ⟨hsome, henv⟩ := RunsAmid.ret_iff.mp hrest₁
      cases hsome
      exact .head (.wake hrunning)
        (pollIteration_loop (hpoll.env_after (fun _ _ _ => Relation.ReflTransGen.trans) henv) rfl)

theorem turns_loop {m₀ : MainState} {s₀ : Sys}
    (h : (conduct cfg codec).Turns .main (serverTurn cfg dt fds) (m₀, s₀) (m, s)) :
    LoopRun codec cfg dt fds ⟨.waiting m₀, s₀⟩ ⟨.waiting m, s⟩ := by
  generalize hc : (m, s) = c at h
  induction h generalizing m s with
  | refl =>
    cases hc
    exact .refl
  | @tail c₁ c₂ _ hturn ih =>
    subst hc
    obtain ⟨s₁, hrun, hs⟩ := hturn
    obtain rfl : s = (machine codec).turn .main s₁ := hs
    exact (ih rfl).trans ((serverTurn_loop hrun).tail .turn)

/-- Every run of the server is a run of the poll loop: wherever the main thread ends an
iteration, the loop ends it with the same sessions. -/
theorem ServerReachable.loop {files : Bytes → Option Bytes} {c : ServerConfig}
    (h : ServerReachable codec cfg dt fds files c) (hm : c.thread .main = some (.ret (some m))) :
    LoopRun codec cfg dt fds (initialLoop files) ⟨.ended m, c.state⟩ := by
  obtain ⟨m₁, s₁, hturns, hresume⟩ := Discipline.Keeps.turns (conduct_sound cfg codec)
    (fun t m s _ => serverBody_keeps dt fds t m s) initial_keeps rfl h hm
  have hlast := hresume (some m) c.state (.ret _ .refl)
  exact (turns_loop hturns).trans (serverTurn_loop hlast)

/-- What the main thread takes into its next iteration, once it has ended one. -/
def ended (c : ServerConfig) : Option MainState :=
  match c.thread .main with
  | some (.ret m) => m
  | _ => none

theorem ended_thread {c : ServerConfig} (h : ended c = some m) :
    c.thread .main = some (.ret (some m)) := by
  unfold ended at h
  split at h
  · next n hn => rw [hn, h]
  · cases h

end

end StegaPng
