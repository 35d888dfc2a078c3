import StegaPng.Processors
import StegaPng.Serving

/-! Every run of the server keeps to the conduct. -/

namespace StegaPng

open Interleaving

section

variable {cfg : RuntimeConfig} {codec : PngCodec} {s : Sys} {i : Nat}

/-- A popped job is as its creator left it. -/
theorem Inv.popped_view (hinv : Inv cfg codec s) {job : Nat} (hjob : job ∈ s.world.queue) :
    (s.world.job job).state = .queued ∧ (s.world.job job).Blank ∧
      eventsOf (job + 1) s.history = [] ∧
      (s.world.job job).id = job + 1 ∧ job + 1 < 2 ^ 64 ∧
      UploadOk cfg s.world.files (origin job s.history) (s.world.job job) ∧
        StoredOk cfg (s.world.job job) := by
  obtain ⟨hlt, hqueued, hpops, hmaking⟩ := hinv.queued job hjob
  have hsmall : job + 1 < 2 ^ 64 := by
    have hbound := hinv.bound
    have hmax : maxJobs = 1024 := rfl
    omega
  refine ⟨hqueued, hinv.blank job hlt hqueued, ?_, hinv.id job hlt, hsmall, hinv.upload job hlt,
    hinv.stored job hlt hmaking⟩
  rcases hinv.events job with hnone | ⟨hpopped, -⟩
  · exact hnone
  · exact absurd hpops hpopped

theorem UploadOk.linked {v : View} {files : Bytes → Option Bytes} {q : Bytes × Bytes}
    (hid : v.record.id = v.job + 1) (hsmall : v.job + 1 < 2 ^ 64)
    (hup : UploadOk cfg files q v.record) (hstored : StoredOk cfg v.record) :
    v.Linked cfg where
  id := hid
  small := hsmall
  input htype := hid ▸ (upload_paths hup hstored).2 htype
  text htype := by
    simp only [StoredOk, htype] at hstored
    rw [hstored, hid]
  data htype := by
    simp only [StoredOk, htype] at hstored
    rw [hstored, hid]
  payload htype := by
    simp only [UploadOk, htype] at hup
    exact hup.2

/-- What the worker knows of the job it has just popped. -/
def poppedView (cfg : RuntimeConfig) (i : Nat) (s : Sys) (job : Nat) : View where
  job := job
  record := s.world.job job
  clear := false
  unreadable := false
  events := []
  out suffix := s.world.files (resultPath cfg (job + 1) suffix)
  inp suffix := s.world.files (uploadPath cfg (job + 1) suffix)
  past := .popped (.worker i) job :: s.history

theorem busy_popped {job : Nat} {queue : List Nat} (hevents : eventsOf (job + 1) s.history = []) :
    Busy cfg i (poppedView cfg i s job) ⟨{ s.world with queue := queue },
      .popped (.worker i) job :: s.history⟩ where
  held := if_pos rfl
  record := .refl _
  clear := if_pos rfl
  unreadable := if_pos rfl
  events := hevents
  out _ := rfl
  inp _ := rfl
  past := List.suffix_rfl

theorem exit_keeps (hidle : holding (.worker i) s.history = none) :
    (conduct cfg codec).wp (.worker i) (do
      call (.exit i)
      return false) (fun _ s' => holding (.worker i) s'.history = none) s := by
  intro s₁ hrely _
  refine ⟨trivial, ?_⟩
  rintro ⟨⟩ ⟨w₂, h₂⟩ ⟨e, marks, -, hexec, hhistory⟩ -
  cases hexec
  obtain rfl : h₂ = s₁.history := hhistory
  exact hrely.holding.trans hidle

theorem finish_of_idle {b : Option MainState} (hidle : holding (.worker i) s.history = none) :
    (conduct cfg codec).finish (.worker i) b s := by
  intro j hheld
  rw [hidle] at hheld
  cases hheld

theorem workerTurn_keeps (cfg : RuntimeConfig) (codec : PngCodec) {b : Option MainState}
    (hidle : holding (.worker i) s.history = none) :
    (conduct cfg codec).wp (.worker i) (workerTurn cfg i) (fun _ =>
      (conduct cfg codec).finish (.worker i) b) s := by
  intro s₁ hrely _
  refine ⟨trivial, ?_⟩
  rintro running ⟨w₂, h₂⟩ ⟨e, marks, -, hexec, hhistory⟩ -
  cases hexec
  obtain rfl : h₂ = s₁.history := hhistory
  have hidle₁ : holding (.worker i) s₁.history = none := hrely.holding.trans hidle
  cases hrunning : s₁.world.running with
  | false => exact Discipline.wp_mono (fun _ _ => finish_of_idle) (exit_keeps hidle₁)
  | true =>
    intro s₃ hrely₃ hinv₃
    have hidle₃ : holding (.worker i) s₃.history = none := hrely₃.holding.trans hidle₁
    refine ⟨⟨nofun, hidle₃⟩, ?_⟩
    rintro popped ⟨w₄, h₄⟩ ⟨e₄, marks₄, -, hexec₄, hhistory₄⟩ -
    obtain rfl : h₄ = marks₄ ++ s₃.history := hhistory₄
    simp only [exec] at hexec₄
    split at hexec₄
    · cases hexec₄
      exact Discipline.wp_mono (fun _ _ => finish_of_idle) (exit_keeps hidle₃)
    · split at hexec₄
      · cases hexec₄
      · next job queue hqueue =>
        cases hexec₄
        have hmem : job ∈ s₃.world.queue := by
          rw [hqueue]
          exact List.mem_cons_self ..
        obtain ⟨hqueued, hblank, hevents, hid, hsmall, hup, hstored⟩ := hinv₃.popped_view hmem
        have hlinked : (poppedView cfg i s₃ job).Linked cfg :=
          UploadOk.linked hid hsmall hup hstored
        have hrun : Ensures cfg codec i (runJob cfg i job) (poppedView cfg i s₃ job) fun _ v' =>
            v'.job = job ∧ v'.record.state.Terminal ∧ v'.events ≠ [] :=
              ensures_runJob hqueued hblank hlinked rfl
        change (conduct cfg codec).wp (.worker i) (runJob cfg i job >>= fun _ => pure true) _ _
        refine Discipline.wp_seq (hrun _ (busy_popped hevents)) ?_
        rintro ⟨⟩ s₅ ⟨v', ⟨-, hterminal, hsent⟩, hbusy'⟩ j hheld
        obtain rfl : v'.job = j := Option.some.inj (hbusy'.held.symm.trans hheld)
        refine ⟨?_, ?_⟩
        · rw [hbusy'.state]
          exact hterminal
        · rw [hbusy'.events]
          exact hsent

theorem serverBody_keeps (dt : DurationText) (fds : ServerFds) (t : Tid) (m : MainState) (s : Sys)
    (hstart : (conduct cfg codec).start t m s) :
    (conduct cfg codec).wp t (serverBody cfg dt fds t m) ((conduct cfg codec).finish t) s := by
  cases t with
  | main => exact serverTurn_keeps dt fds m s hstart
  | worker i =>
    exact Discipline.wp_seq (workerTurn_keeps cfg codec (b := none) hstart) fun _ _ h => h

theorem inv_initial (files : Bytes → Option Bytes) :
    Inv cfg codec { world := { files := files }, history := [] } where
  id := nofun
  next_id := rfl
  bound := Nat.zero_le _
  nodup := List.nodup_nil
  queued := nofun
  held := nofun
  made := nofun
  popped _ := .inl rfl
  place := nofun
  events _ := .inl rfl
  blank := nofun
  outcome := nofun
  upload := nofun
  stored := nofun

variable {dt : DurationText} {fds : ServerFds} {files : Bytes → Option Bytes} {c c' : ServerConfig}

theorem initial_keeps : (conduct cfg codec).Keeps (initialConfig cfg dt fds files) where
  inv := inv_initial files
  wp t p hp := by
    cases t with
    | main =>
      cases hp
      exact serverBody_keeps dt fds .main {} _ rfl
    | worker i =>
      simp only [initialConfig] at hp
      split at hp
      · cases hp
        exact serverBody_keeps dt fds (.worker i) {} _ rfl
      · cases hp

theorem ServerReachable.keeps (h : ServerReachable codec cfg dt fds files c) :
    (conduct cfg codec).Keeps c :=
  initial_keeps.reachable (conduct_sound cfg codec) (fun t m s _ => serverBody_keeps dt fds t m s) h

theorem ServerReachable.inv (h : ServerReachable codec cfg dt fds files c) :
    Inv cfg codec c.state := h.keeps.inv

/-- What every allowed operation and every end of a turn preserves, the rest of the
run preserves. -/
theorem ServerReachable.preserves (h : ServerReachable codec cfg dt fds files c)
    (hlater : Config.Reachable (machine codec) (serverBody cfg dt fds) c c') {P : Sys → Prop}
    (hop : ∀ t o s a s', Inv cfg codec s → Allowed cfg codec t o s →
      (machine codec).step t o s a s' → P s → P s')
    (hturn : ∀ t s, P s → P ((machine codec).turn t s)) (hc : P c.state) : P c'.state :=
  h.keeps.preserves (conduct_sound cfg codec) (fun t m s _ => serverBody_keeps dt fds t m s) hop
    (fun t _ s _ _ => hturn t s) hc hlater

end

/-! Runs that follow a schedule: which thread moves, and the outside world's part in it. -/

section

variable (codec : PngCodec) (cfg : RuntimeConfig) (dt : DurationText) (fds : ServerFds)

def advance (t : Tid) (e : Env) (c : ServerConfig) : Option ServerConfig :=
  match c.thread t with
  | none => none
  | some (.ret none) => some (c.put t none ((machine codec).turn t c.state))
  | some (.ret (some l)) =>
    some (c.put t (some (serverBody cfg dt fds t l)) ((machine codec).turn t c.state))
  | some (.op o k) =>
    match exec codec e t c.state.world o with
    | none => none
    | some (a, w, marks) =>
      some (c.put t (some (k a)) { world := w, history := marks ++ c.state.history })

def follow : List (Tid × Env) → ServerConfig → Option ServerConfig
  | [], c => some c
  | (t, e) :: schedule, c => (advance codec cfg dt fds t e c).bind (follow schedule)

variable {codec cfg dt fds}

theorem advance_step {t : Tid} {e : Env} {c c' : ServerConfig}
    (h : advance codec cfg dt fds t e c = some c') :
    Config.Step (machine codec) (serverBody cfg dt fds) c c' := by
  unfold advance at h
  split at h
  · cases h
  · next ht =>
    cases h
    exact .halt ht
  · next l ht =>
    cases h
    exact .again ht
  · next o k ht =>
    split at h
    · cases h
    · next a w marks hexec =>
      cases h
      exact .op ht ⟨e, marks, trivial, hexec, rfl⟩

theorem follow_reachable {schedule : List (Tid × Env)} {c c' : ServerConfig}
    (h : follow codec cfg dt fds schedule c = some c') :
    Config.Reachable (machine codec) (serverBody cfg dt fds) c c' := by
  induction schedule generalizing c with
  | nil =>
    cases h
    exact .refl
  | cons te schedule ih =>
    obtain ⟨c₁, hfirst, hrest⟩ := Option.bind_eq_some_iff.mp h
    exact .head (advance_step hfirst) (ih hrest)

/-- The server reaches where a schedule leads from its start. -/
theorem exists_reachable (codec : PngCodec) (cfg : RuntimeConfig) (dt : DurationText)
    (fds : ServerFds) {α : Type} (files : Bytes → Option Bytes) (schedule : List (Tid × Env))
    (f : ServerConfig → α) {a : α}
    (h : (follow codec cfg dt fds schedule (initialConfig cfg dt fds files)).map f = some a) :
    ∃ c, ServerReachable codec cfg dt fds files c ∧ f c = a := by
  obtain ⟨c, hfollow, hc⟩ := Option.map_eq_some_iff.mp h
  exact ⟨c, follow_reachable hfollow, hc⟩

theorem exists_later (codec : PngCodec) (cfg : RuntimeConfig) (dt : DurationText)
    (fds : ServerFds) {α β : Type} {a : α} {b : β} (files : Bytes → Option Bytes)
    (schedule later : List (Tid × Env)) (f : ServerConfig → α) (g : ServerConfig → β)
    (h : ((follow codec cfg dt fds schedule (initialConfig cfg dt fds files)).bind fun c =>
      (follow codec cfg dt fds later c).map fun c' => (f c, g c')) = some (a, b)) :
    ∃ c c', ServerReachable codec cfg dt fds files c ∧
      Config.Reachable (machine codec) (serverBody cfg dt fds) c c' ∧ f c = a ∧ g c' = b := by
  obtain ⟨c, hfollow, hlater⟩ := Option.bind_eq_some_iff.mp h
  obtain ⟨c', hfollow', hc⟩ := Option.map_eq_some_iff.mp hlater
  obtain ⟨hf, hg⟩ := Prod.mk.inj hc
  exact ⟨c, c', follow_reachable hfollow, follow_reachable hfollow', hf, hg⟩

end

/-- The environment of a `poll` that reports the entries as readable. -/
def pollReports (ready : List Nat) : Env :=
  { poll := .ready fun i => { pollin := decide (i ∈ ready) } }

/-- `n` steps of a thread in which nothing fails. -/
def steps (n : Nat) (t : Tid) : List (Tid × Env) := List.replicate n (t, {})

/-- A user connects. -/
def connects : List (Tid × Env) :=
  [(.main, {}), (.main, pollReports [0]), (.main, { connection := some ⟨9, .inet 10 0 0 7, []⟩ }),
    (.main, {})]

/-- A user connects, submits an image that does not exist and then cancels the job, after
a worker has popped it and has found the cancel flag down; the worker goes on. -/
def lateCancel : List (Tid × Env) :=
  [(.main, {}), (.main, pollReports [0]),
    (.main, { connection := some ⟨9, .inet 10 0 0 7,
      [.chunk 86 (lit "ALIDATE_IMAGE missing.png\nCANCEL 1\n")]⟩ }),
    (.main, {}), (.main, {}), (.main, {}), (.main, pollReports [5])] ++
  steps 5 .main ++ steps 3 (.worker 0) ++
  [(.main, {}), (.main, {}), (.main, pollReports [5])] ++ steps 4 .main ++ steps 9 (.worker 0)

/-- A user has two bytes hidden in a strip of pixels, and has sent more. -/
def hide : List (Tid × Env) :=
  let sent := lit "NCODE_TEXT 209 2\n" ++ rawSave (blackStrip 64) ++
    lit "hiDECODE 209\n" ++ hiddenStrip
  [(.main, {}), (.main, pollReports [0]),
    (.main, { connection := some ⟨9, .inet 10 0 0 7, [.chunk 69 sent]⟩ }), (.main, {}),
    (.main, {}), (.main, {}), (.main, pollReports [5])] ++
  steps 16 .main ++ steps 26 (.worker 0)

/-- The result, which the user sends back, is decoded. -/
def seek : List (Tid × Env) :=
  [(.main, {}), (.main, {}), (.main, pollReports [5])] ++ steps 10 .main ++ steps 20 (.worker 1)

def hideAndSeek : List (Tid × Env) := hide ++ seek

end StegaPng
