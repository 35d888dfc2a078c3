import StegaPng.BytePipe
import StegaPng.ServerRuns

/-! The pipe on which the workers report to the server: `write_event` in any number of
workers against `handle_worker_pipe` in the main thread. -/

namespace StegaPng

open Interleaving BytePipe

/-- `worker_event_t`. -/
structure WorkerEvent where
  job_id : UInt64
  state : UInt32
  deriving DecidableEq

def JobState.code : JobState → UInt32
  | .queued => 0
  | .running => 1
  | .done => 2
  | .failed => 3
  | .canceled => 4

def sizeofWorkerEvent : Nat := 16

def littleEndian : Nat → Nat → Bytes
  | 0, _ => []
  | k + 1, n => UInt8.ofNat n :: littleEndian k (n / 256)

def ofLittleEndian (b : Bytes) : Nat := Nat.ofDigits 256 (b.map UInt8.toNat)

/-- The event as it lies in memory; the last four bytes are whatever was there. -/
def WorkerEvent.image (e : WorkerEvent) (padding : Bytes) : Bytes :=
  littleEndian 8 e.job_id.toNat ++ littleEndian 4 e.state.toNat ++ padding

def WorkerEvent.ofImage (b : Bytes) : WorkerEvent where
  job_id := UInt64.ofNat (ofLittleEndian (b.take 8))
  state := UInt32.ofNat (ofLittleEndian ((b.drop 8).take 4))

/-- What `handle_worker_pipe` logs. -/
inductive PipeLog where
  | event (e : WorkerEvent)
  | partialEvent
  | failedRead

def PipeLog.event? : PipeLog → Option WorkerEvent
  | .event e => some e
  | _ => none

inductive PipeOp where
  /-- The worker has an event to report; the padding comes with it. -/
  | nextEvent
  | write (bytes : Bytes)
  | pollin
  | read (size : Nat)
  | log (entry : PipeLog)

@[reducible] def PipeAns : PipeOp → Type
  | .nextEvent => WorkerEvent × (Fin 4 → UInt8)
  | .write _ => WriteAnswer
  | .pollin => Bool
  | .read _ => ReadAnswer UInt8
  | .log _ => Unit

abbrev PipeTask (α : Type) := Prog PipeOp PipeAns α

def pipeCall (o : PipeOp) : PipeTask (PipeAns o) := Prog.perform o

inductive PipeTid where
  | main
  | worker (i : Nat)
  deriving DecidableEq

/-- Where a thread is: a worker between its reports or in the loop of `write_event` with
`total` bytes written, the main thread in `poll` or in the loop of `handle_worker_pipe`. -/
inductive PipeLoc where
  | working
  | writing (event : Bytes) (total : Nat)
  | polling
  | draining

/-- An iteration of `write_event`. Its callers ignore the result. -/
def writeEvent (event : Bytes) (total : Nat) : PipeTask (Option PipeLoc) := do
  if total < sizeofWorkerEvent then
    match ← pipeCall (.write (event.drop total)) with
    | .interrupted => return some (.writing event total)
    | .failed => return some .working
    | .wrote 0 => return some .working
    | .wrote rc => return some (.writing event (total + rc))
  else
    return some .working

/-- The rest of an iteration of `handle_worker_pipe` that has read something. -/
def logEvent (bytes : Bytes) : PipeTask (Option PipeLoc) := do
  if bytes.length ≠ sizeofWorkerEvent then
    pipeCall (.log .partialEvent)
    return some .draining
  else
    pipeCall (.log (.event (WorkerEvent.ofImage bytes)))
    return some .draining

/-- An iteration of `handle_worker_pipe`. -/
def handleWorkerPipe : PipeTask (Option PipeLoc) := do
  match ← pipeCall (.read sizeofWorkerEvent) with
  | .interrupted => return some .draining
  | .again => return some .polling
  | .failed =>
    pipeCall (.log .failedRead)
    return some .polling
  | .eof => return some .polling
  | .data bytes => logEvent bytes

def reportEvent : PipeTask (Option PipeLoc) := do
  let (event, padding) ← pipeCall .nextEvent
  return some (.writing (event.image (List.ofFn padding)) 0)

def pollPipe : PipeTask (Option PipeLoc) := do
  if ← pipeCall .pollin then
    return some .draining
  return some .polling

def pipeBody : PipeTid → PipeLoc → PipeTask (Option PipeLoc)
  | .main, .draining => handleWorkerPipe
  | .main, _ => pollPipe
  | .worker _, .writing event total => writeEvent event total
  | .worker _, _ => reportEvent

structure PipeState where
  pipe : Pipe UInt8 := {}
  log : List PipeLog := []

inductive PipeStep (lim : Limits) (s : PipeState) : (o : PipeOp) → PipeAns o →
    PipeState → Prop where
  | nextEvent (e : WorkerEvent) (padding : Fin 4 → UInt8) : PipeStep lim s .nextEvent (e, padding) s
  | pollin (ready : Bool) : PipeStep lim s .pollin ready s
  | write {bytes : Bytes} {answer : WriteAnswer} {pipe : Pipe UInt8}
      (h : Write lim s.pipe bytes answer pipe) :
      PipeStep lim s (.write bytes) answer { s with pipe := pipe }
  | read {size : Nat} {answer : ReadAnswer UInt8} {pipe : Pipe UInt8}
      (h : Read s.pipe size answer pipe) :
      PipeStep lim s (.read size) answer { s with pipe := pipe }
  | log (entry : PipeLog) : PipeStep lim s (.log entry) () { s with log := s.log ++ [entry] }

def pipeMachine (lim : Limits) : Machine PipeOp PipeAns PipeTid PipeState where
  step _ o s a s' := PipeStep lim s o a s'
  turn _ s := s

abbrev PipeConfig := Config PipeOp PipeAns PipeTid PipeState PipeLoc

/-- The main thread and `workers` workers, before the first event. -/
def initialPipe (workers : Nat) : PipeConfig where
  state := {}
  thread
    | .main => some (pipeBody .main .polling)
    | .worker i => if i < workers then some (pipeBody (.worker i) .working) else none

def PipeReachable (lim : Limits) (workers : Nat) (c : PipeConfig) : Prop :=
  Config.Reachable (pipeMachine lim) pipeBody (initialPipe workers) c

/-! The image of an event. -/

theorem littleEndian_length (k n : Nat) : (littleEndian k n).length = k := by
  induction k generalizing n with
  | zero => rfl
  | succ k ih => rw [littleEndian, List.length_cons, ih]

theorem ofLittleEndian_littleEndian {k n : Nat} (hn : n < 256 ^ k) :
    ofLittleEndian (littleEndian k n) = n := by
  induction k generalizing n with
  | zero =>
    have hzero : n = 0 := by simpa using hn
    rw [hzero]
    rfl
  | succ k ih =>
    have hrest : n / 256 < 256 ^ k := by
      rw [Nat.pow_succ] at hn
      exact Nat.div_lt_of_lt_mul (by rwa [Nat.mul_comm] at hn)
    have hdigit : (UInt8.ofNat n).toNat = n % 256 := by simp
    have htail : Nat.ofDigits 256 ((littleEndian k (n / 256)).map UInt8.toNat) = n / 256 := ih hrest
    rw [ofLittleEndian, littleEndian, List.map_cons, Nat.ofDigits_cons, hdigit, htail]
    exact Nat.mod_add_div n 256

theorem image_length (e : WorkerEvent) {padding : Bytes} (h : padding.length = 4) :
    (e.image padding).length = sizeofWorkerEvent := by
  simp [WorkerEvent.image, littleEndian_length, h, sizeofWorkerEvent]

theorem ofImage_image (e : WorkerEvent) (padding : Bytes) :
    WorkerEvent.ofImage (e.image padding) = e := by
  have hid : (e.image padding).take 8 = littleEndian 8 e.job_id.toNat := by
    rw [WorkerEvent.image, List.append_assoc, List.take_left' (littleEndian_length 8 _)]
  have hstate : ((e.image padding).drop 8).take 4 = littleEndian 4 e.state.toNat := by
    rw [WorkerEvent.image, List.append_assoc, List.drop_left' (littleEndian_length 8 _),
      List.take_left' (littleEndian_length 4 _)]
  have hsmall : e.job_id.toNat < 256 ^ 8 := e.job_id.toNat_lt
  have hsmall' : e.state.toNat < 256 ^ 4 := e.state.toNat_lt
  rw [WorkerEvent.ofImage, hid, hstate, ofLittleEndian_littleEndian hsmall,
    ofLittleEndian_littleEndian hsmall']
  simp

/-! What every run keeps. -/

def IsEvent (bytes : Bytes) : Prop := ∃ (e : WorkerEvent) (padding : Bytes), padding.length = 4 ∧
    bytes = e.image padding

theorem IsEvent.length {bytes : Bytes} (h : IsEvent bytes) : bytes.length = sizeofWorkerEvent := by
  obtain ⟨e, padding, hpadding, rfl⟩ := h
  exact image_length e hpadding

/-- The events of the log, oldest first. -/
def PipeState.logged (s : PipeState) : List WorkerEvent := s.log.filterMap PipeLog.event?

/-- The events that have been read. -/
def PipeState.received (s : PipeState) : List WorkerEvent := s.pipe.taken.map WorkerEvent.ofImage

/-- The events that have been written, by all workers. -/
def PipeState.reported (s : PipeState) : List WorkerEvent := s.pipe.written.map WorkerEvent.ofImage

theorem logged_event (s : PipeState) (e : WorkerEvent) :
    ({ s with log := s.log ++ [.event e] } : PipeState).logged = s.logged ++ [e] := by
  simp [PipeState.logged, PipeLog.event?]

theorem logged_failedRead (s : PipeState) :
    ({ s with log := s.log ++ [.failedRead] } : PipeState).logged = s.logged := by
  simp [PipeState.logged, PipeLog.event?]

structure PipeInv (s : PipeState) : Prop where
  records : ∃ rest, InRecords sizeofWorkerEvent s.pipe rest
  events : ∀ r ∈ s.pipe.written, IsEvent r
  logged : s.received = s.logged ∨ ∃ e, s.received = s.logged ++ [e]
  whole : .partialEvent ∉ s.log

def PipeAllowed : PipeTid → PipeOp → PipeState → Prop
  | .worker _, .nextEvent, _ => True
  | .worker _, .write bytes, _ => IsEvent bytes
  | .main, .pollin, _ => True
  | .main, .read size, s => size = sizeofWorkerEvent ∧ s.received = s.logged
  | .main, .log (.event e), s => s.received = s.logged ++ [e]
  | .main, .log .failedRead, _ => True
  | _, _, _ => False

/-- A worker that loops in `write_event` has written nothing yet, or everything. -/
def PipeLocOk : PipeLoc → Prop
  | .writing event total => IsEvent event ∧ (total = 0 ∨ total = sizeofWorkerEvent)
  | _ => True

def PipeStart : PipeTid → PipeLoc → PipeState → Prop
  | .main, _, s => s.received = s.logged
  | .worker _, l, _ => PipeLocOk l

/-- Only the main thread reads and logs. -/
structure PipeRely (t : PipeTid) (s s' : PipeState) : Prop where
  taken : t = .main → s'.pipe.taken = s.pipe.taken
  log : t = .main → s'.log = s.log

def pipeConduct (lim : Limits) : Discipline (pipeMachine lim) PipeLoc where
  inv := PipeInv
  allowed := PipeAllowed
  rely := PipeRely
  start := PipeStart
  finish t b s := ∀ l, b = some l → PipeStart t l s

section

variable {lim : Limits} {s s' : PipeState} {t : PipeTid}

theorem PipeInv.put (h : PipeInv s) {bytes : Bytes} (hevent : IsEvent bytes) :
    PipeInv { s with pipe := s.pipe.put bytes } where
  records := by
    obtain ⟨rest, hrest⟩ := h.records
    exact ⟨_, hrest.put hevent.length⟩
  events r hr := by
    rcases List.mem_append.mp hr with hold | hnew
    · exact h.events r hold
    · rwa [List.mem_singleton.mp hnew]
  logged := h.logged
  whole := h.whole

theorem PipeInv.step (hatomic : sizeofWorkerEvent ≤ lim.atomic) (h : PipeInv s) {o : PipeOp}
    {a : PipeAns o} (hallowed : PipeAllowed t o s) (hstep : PipeStep lim s o a s') :
    PipeInv s' := by
  cases hstep with
  | nextEvent => exact h
  | pollin => exact h
  | @write bytes answer pipe hwrite =>
    have hevent : IsEvent bytes := by
      cases t with
      | main => exact False.elim hallowed
      | worker i => exact hallowed
    have hsmall : bytes.length ≤ lim.atomic := hevent.length ▸ hatomic
    rcases hwrite.record hsmall with ⟨-, rfl⟩ | ⟨-, rfl⟩
    · exact h.put hevent
    · exact h
  | @read size answer pipe hread =>
    obtain ⟨rfl, hread_all⟩ : size = sizeofWorkerEvent ∧ s.received = s.logged := by
      cases t with
      | main => exact hallowed
      | worker i => exact False.elim hallowed
    obtain ⟨rest, hrest⟩ := h.records
    rcases hrest.read hread with ⟨r, rest', -, -, htaken, hwritten, hleft⟩ | ⟨-, rfl⟩
    · refine ⟨⟨rest', hleft⟩, fun r hr => h.events r (hwritten ▸ hr),
        .inr ⟨WorkerEvent.ofImage r, ?_⟩, h.whole⟩
      change pipe.taken.map _ = s.logged ++ _
      rw [htaken, List.map_append, ← hread_all]
      rfl
    · exact h
  | log entry =>
    cases t with
    | worker i => exact False.elim hallowed
    | main =>
      cases entry with
      | partialEvent => exact False.elim hallowed
      | event e =>
        refine ⟨h.records, h.events, .inl ?_, by simpa using h.whole⟩
        rw [logged_event]
        exact hallowed
      | failedRead =>
        refine ⟨h.records, h.events, ?_, by simpa using h.whole⟩
        rw [logged_failedRead]
        exact h.logged

theorem PipeRely.received (h : PipeRely .main s s') : s'.received = s.received := by
  rw [PipeState.received, h.taken rfl, PipeState.received]

theorem PipeRely.logged (h : PipeRely .main s s') : s'.logged = s.logged := by
  rw [PipeState.logged, h.log rfl, PipeState.logged]

theorem PipeStart.rely {l : PipeLoc} (h : PipeStart t l s) (hrely : PipeRely t s s') :
    PipeStart t l s' := by
  cases t with
  | main =>
    change s'.received = s'.logged
    rw [hrely.received, hrely.logged]
    exact h
  | worker i => exact h

theorem pipeConduct_sound (hatomic : sizeofWorkerEvent ≤ lim.atomic) : (pipeConduct lim).Sound where
  inv_step hinv hallowed hstep := PipeInv.step hatomic hinv hallowed hstep
  rely_step {t u o s a s'} _ hallowed hstep htu := by
    cases u with
    | main => exact ⟨fun ht => absurd ht htu, fun ht => absurd ht htu⟩
    | worker i =>
      cases hstep with
      | nextEvent => exact ⟨fun _ => rfl, fun _ => rfl⟩
      | pollin => exact ⟨fun _ => rfl, fun _ => rfl⟩
      | read => exact False.elim hallowed
      | log => exact False.elim hallowed
      | write hwrite =>
        refine ⟨fun _ => ?_, fun _ => rfl⟩
        cases hwrite <;> rfl
  rely_refl t s := ⟨fun _ => rfl, fun _ => rfl⟩
  rely_trans h h' := ⟨fun ht => (h'.taken ht).trans (h.taken ht),
    fun ht => (h'.log ht).trans (h.log ht)⟩
  finish_rely hfinish hrely _ l hl := (hfinish l hl).rely hrely
  inv_turn hinv _ := hinv
  rely_turn _ _ _ := ⟨fun _ => rfl, fun _ => rfl⟩
  start_turn _ hfinish := hfinish _ rfl

theorem working_finish (i : Nat) (s : PipeState) :
    (pipeConduct lim).finish (.worker i) (some .working) s := by
  rintro l ⟨⟩
  trivial

theorem writeEvent_keeps (hatomic : sizeofWorkerEvent ≤ lim.atomic) {i : Nat} {event : Bytes}
    {total : Nat} (hok : PipeLocOk (.writing event total)) :
    (pipeConduct lim).wp (.worker i) (writeEvent event total)
      ((pipeConduct lim).finish (.worker i)) s := by
  obtain ⟨hevent, rfl | rfl⟩ := hok
  · -- nothing has been written: the next write puts all of it into the pipe, or nothing
    intro s₁ _ _
    refine ⟨hevent, fun answer s₂ hstep _ => ?_⟩
    have hagain : (pipeConduct lim).finish (.worker i) (some (.writing event 0)) s₂ := by
      rintro l ⟨⟩
      exact ⟨hevent, .inl rfl⟩
    cases hstep with
    | write hwrite =>
      rcases hwrite.record (hevent.length ▸ hatomic) with ⟨rfl, -⟩ | ⟨hnot, -⟩
      · rw [List.drop_zero, hevent.length]
        rintro l ⟨⟩
        exact ⟨hevent, .inr rfl⟩
      · cases answer with
        | wrote n => exact absurd rfl (hnot n)
        | interrupted => exact hagain
        | failed => exact working_finish i _
  · exact working_finish i s

theorem handleWorkerPipe_keeps (hstart : s.received = s.logged) :
    (pipeConduct lim).wp .main handleWorkerPipe ((pipeConduct lim).finish .main) s := by
  have hdone : ∀ (l : PipeLoc) (s : PipeState), s.received = s.logged →
      (pipeConduct lim).finish .main (some l) s := by
    rintro l s h _ ⟨⟩
    exact h
  intro s₁ hrely hinv
  have hread : s₁.received = s₁.logged := by rw [hrely.received, hrely.logged, hstart]
  refine ⟨⟨rfl, hread⟩, fun answer s₂ hstep hinv₂ => ?_⟩
  cases hstep with
  | @read size answer pipe hread' =>
    obtain ⟨rest, hrest⟩ := hinv.records
    rcases hrest.read hread' with ⟨r, rest', hcons, rfl, htaken, -, -⟩ | ⟨hnot, rfl⟩
    · have hsize : r.length = sizeofWorkerEvent := hrest.rest_size (hcons ▸ List.mem_cons_self)
      change (pipeConduct lim).wp .main (logEvent r) _ _
      rw [logEvent, if_neg (not_not_intro hsize)]
      intro s₃ hrely₃ _
      have hlast : s₃.received = s₃.logged ++ [WorkerEvent.ofImage r] := by
        rw [hrely₃.received, hrely₃.logged]
        change pipe.taken.map _ = s₁.logged ++ _
        rw [htaken, List.map_append, ← hread]
        rfl
      refine ⟨hlast, fun a s₄ hstep₄ _ => hdone _ _ ?_⟩
      cases hstep₄ with
      | log entry =>
        rw [logged_event]
        exact hlast
    · cases answer with
      | data r => exact absurd rfl (hnot r)
      | interrupted => exact hdone _ _ hread
      | again => exact hdone _ _ hread
      | eof => exact hdone _ _ hread
      | failed =>
        intro s₃ hrely₃ _
        refine ⟨trivial, fun a s₄ hstep₄ _ => hdone _ _ ?_⟩
        cases hstep₄ with
        | log entry =>
          rw [logged_failedRead, hrely₃.logged]
          exact hrely₃.received.trans hread

theorem pipeBody_keeps (hatomic : sizeofWorkerEvent ≤ lim.atomic) (t : PipeTid) (l : PipeLoc)
    (h : PipeStart t l s) :
    (pipeConduct lim).wp t (pipeBody t l) ((pipeConduct lim).finish t) s := by
  cases t with
  | main =>
    have hpoll : (pipeConduct lim).wp .main pollPipe ((pipeConduct lim).finish .main) s := by
      intro s₁ hrely _
      refine ⟨trivial, fun ready s₂ hstep _ => ?_⟩
      have hread : s₂.received = s₂.logged := by
        cases hstep
        rw [hrely.received, hrely.logged]
        exact h
      cases ready with
      | true =>
        rintro l ⟨⟩
        exact hread
      | false =>
        rintro l ⟨⟩
        exact hread
    cases l with
    | draining => exact handleWorkerPipe_keeps h
    | working => exact hpoll
    | polling => exact hpoll
    | writing => exact hpoll
  | worker i =>
    have hreport : (pipeConduct lim).wp (.worker i) reportEvent
      ((pipeConduct lim).finish (.worker i)) s := by
      intro s₁ _ _
      refine ⟨trivial, ?_⟩
      rintro ⟨e, padding⟩ s₂ _ _ l ⟨⟩
      exact ⟨⟨e, _, List.length_ofFn, rfl⟩, .inl rfl⟩
    cases l with
    | writing event total => exact writeEvent_keeps hatomic h
    | working => exact hreport
    | polling => exact hreport
    | draining => exact hreport

theorem initialPipe_keeps (hatomic : sizeofWorkerEvent ≤ lim.atomic) (workers : Nat) :
    (pipeConduct lim).Keeps (initialPipe workers) where
  inv := ⟨⟨[], inRecords_empty _⟩, fun r hr => absurd hr List.not_mem_nil, .inl rfl,
    List.not_mem_nil⟩
  wp t p hp := by
    cases t with
    | main =>
      cases hp
      exact pipeBody_keeps hatomic .main .polling rfl
    | worker i =>
      simp only [initialPipe] at hp
      split at hp
      · cases hp
        exact pipeBody_keeps hatomic (.worker i) .working trivial
      · cases hp

end

/-- The pipe is a queue of events. What the server logs is what the workers have written,
in that order and each event once; what is written and not read is what the pipe holds, and
where the server reads again, all else is logged. -/
theorem worker_pipe_fifo {lim : Limits} (hatomic : sizeofWorkerEvent ≤ lim.atomic) {workers : Nat}
    {c : PipeConfig} (h : PipeReachable lim workers c) :
    c.state.logged <+: c.state.reported ∧ .partialEvent ∉ c.state.log ∧
      (∀ r ∈ c.state.pipe.written, ∃ padding : Bytes, padding.length = 4 ∧
        r = (WorkerEvent.ofImage r).image padding) ∧
      ∃ waiting : List Bytes, c.state.pipe.written = c.state.pipe.taken ++ waiting ∧
        c.state.pipe.bytes = waiting.flatten ∧
        (∀ r ∈ waiting, r.length = sizeofWorkerEvent) ∧
        ∀ size k, c.thread .main = some (.op (.read size) k) →
          c.state.reported = c.state.logged ++ waiting.map WorkerEvent.ofImage := by
  have hkeeps : (pipeConduct lim).Keeps c :=
    (initialPipe_keeps hatomic workers).reachable (pipeConduct_sound hatomic)
    (fun t l s _ hstart => pipeBody_keeps hatomic t l hstart) h
  obtain ⟨rest, hrest⟩ := hkeeps.inv.records
  have hreported : c.state.reported = c.state.received ++ rest.map WorkerEvent.ofImage := by
    rw [PipeState.reported, hrest.written, List.map_append]
    rfl
  have hbehind : c.state.logged <+: c.state.received := by
    rcases hkeeps.inv.logged with heq | ⟨e, heq⟩
    · rw [heq]
    · rw [heq]
      exact List.prefix_append _ _
  refine ⟨?_, hkeeps.inv.whole, fun r hr => ?_, rest, hrest.written, hrest.bytes,
    fun r => hrest.rest_size, fun size k hmain => ?_⟩
  · rw [hreported]
    exact hbehind.trans (List.prefix_append _ _)
  · obtain ⟨e, padding, hpadding, rfl⟩ := hkeeps.inv.events r hr
    exact ⟨padding, hpadding, by rw [ofImage_image]⟩
  · have hallowed : PipeAllowed .main (.read size) c.state :=
      hkeeps.allowed (pipeConduct_sound hatomic) hmain
    rw [hreported, hallowed.2]

theorem PipeReachable.op {lim : Limits} {n : Nat} {c : PipeConfig} (h : PipeReachable lim n c)
    (t : PipeTid) {o : PipeOp} {k : PipeAns o → PipeTask (Option PipeLoc)} {a : PipeAns o}
    {s : PipeState} (ht : c.thread t = some (.op o k)) (hstep : PipeStep lim c.state o a s) :
    PipeReachable lim n (c.put t (some (k a)) s) := h.tail (.op ht hstep)

theorem PipeReachable.again {lim : Limits} {n : Nat} {c : PipeConfig} (h : PipeReachable lim n c)
    (t : PipeTid) {l : PipeLoc} (ht : c.thread t = some (.ret (some l))) :
    PipeReachable lim n (c.put t (some (pipeBody t l)) c.state) := h.tail (.again ht)

/-- Two workers report a job each, and the server has logged the first report. -/
theorem worker_pipe_fifo_reported :
    ∃ c, PipeReachable ⟨65536, 4096⟩ 2 c ∧ c.state.logged = [⟨7, JobState.done.code⟩] ∧
      c.state.reported = [⟨7, JobState.done.code⟩, ⟨8, JobState.failed.code⟩] ∧
      ∃ waiting, c.state.pipe.written = c.state.pipe.taken ++ waiting ∧
        c.state.pipe.bytes = waiting.flatten := by
  have hstart : PipeReachable ⟨65536, 4096⟩ 2 (initialPipe 2) := .refl
  have hreport := hstart.op (.worker 0) rfl (.nextEvent ⟨7, JobState.done.code⟩ fun _ => 0)
  have hreport' := hreport.op (.worker 1) rfl (.nextEvent ⟨8, JobState.failed.code⟩ fun _ => 0)
  have hloop := hreport'.again (.worker 0) rfl
  have hwrite := hloop.op (.worker 0) rfl (.write (.whole (by decide)))
  have hloop' := hwrite.again (.worker 1) rfl
  have hwrite' := hloop'.op (.worker 1) rfl (.write (.whole (by decide)))
  have hready := hwrite'.op .main rfl (.pollin true)
  have hdrain := hready.again .main rfl
  have hread := hdrain.op .main rfl (.read (.data (by decide)))
  have hlog := hread.op .main rfl (.log _)
  obtain ⟨-, -, -, waiting, hwritten, hbytes, -⟩ := worker_pipe_fifo (by decide) hlog
  exact ⟨_, hlog, by decide, by decide, waiting, hwritten, hbytes⟩

/-! How much is written in a run of the server. -/

/-- The events that the workers have written, newest first. -/
def reportsOf (h : List Mark) : List (Nat × JobState) :=
  h.filterMap fun m => match m with
    | .event _ job_id s => some (job_id, s)
    | _ => none

section

variable {cfg : RuntimeConfig} {codec : PngCodec} {s : Sys} {h marks : List Mark}

theorem reportsOf_append (hmarks : ∀ m ∈ marks, ∀ t id st, m ≠ .event t id st) :
    reportsOf (marks ++ h) = reportsOf h := by
  have hnone : reportsOf marks = [] := by
    refine List.filterMap_eq_nil_iff.mpr fun m hm => ?_
    have hne := hmarks m hm
    cases m with
    | event t id st => exact absurd rfl (hne t id st)
    | _ => rfl
  rw [reportsOf, List.filterMap_append]
  exact (congrArg (· ++ reportsOf h) hnone).trans (List.nil_append _)

theorem mem_eventsOf {id : Nat} {st : JobState} : st ∈ eventsOf id h ↔ (id, st) ∈ reportsOf h := by
  induction h with
  | nil => simp [eventsOf, reportsOf]
  | cons m h ih =>
    cases m with
    | event t job_id st' =>
      have hcons : reportsOf (.event t job_id st' :: h) = (job_id, st') :: reportsOf h := rfl
      rw [hcons, List.mem_cons, ← ih, eventsOf]
      by_cases heq : job_id = id
      · simp [heq]
      · simp [heq, Ne.symm heq]
    | _ => exact ih

theorem Effect.reports {t : Tid} {w w' : World} {o : Op} (heffect : Effect t w o w' marks) :
    w.jobs.length ≤ w'.jobs.length ∧
      (reportsOf (marks ++ h) = reportsOf h ∨ ∃ id st, o = .writeEvent id st ∧
        marks = [.event t id st]) := by
  have hsame : ∀ {w w' : World}, SameCore w w' → w.jobs.length ≤ w'.jobs.length := by
    intro w w' hcore
    rw [hcore.jobs]
  cases heffect with
  | quiet hcore _ hmarks =>
    refine ⟨hsame hcore, .inl (reportsOf_append ?_)⟩
    rintro m hm t id st rfl
    cases hmarks _ hm
  | input _ hcore _ hmarks =>
    refine ⟨hsame hcore, .inl (reportsOf_append ?_)⟩
    rintro m hm t id st rfl
    cases hmarks _ hm
  | file _ hcore _ hmarks =>
    refine ⟨hsame hcore, .inl (reportsOf_append ?_)⟩
    rintro m hm t id st rfl
    cases hmarks _ hm
  | created now hroom => exact ⟨by simp, .inl rfl⟩
  | @set job u now =>
    refine ⟨by simp [World.updateJob], .inl ?_⟩
    cases u <;> rfl
  | canceled => exact ⟨by simp [World.updateJob], .inl rfl⟩
  | pushed => exact ⟨Nat.le_refl _, .inl rfl⟩
  | pushFailed => exact ⟨Nat.le_refl _, .inl rfl⟩
  | popped => exact ⟨Nat.le_refl _, .inl rfl⟩
  | event => exact ⟨Nat.le_refl _, .inr ⟨_, _, rfl, rfl⟩⟩

/-- Every event names a job of the table, and no two the same. -/
structure Budget (s : Sys) : Prop where
  nodup : ((reportsOf s.history).map Prod.fst).Nodup
  known : ∀ r ∈ reportsOf s.history, 1 ≤ r.1 ∧ r.1 ≤ s.world.jobs.length

theorem Budget.step (h : Budget s) (hinv : Inv cfg codec s) {t : Tid} {o : Op}
    {a : Ans o} {s' : Sys} (hallowed : Allowed cfg codec t o s)
    (hstep : (machine codec).step t o s a s') : Budget s' := by
  obtain ⟨e, marks, -, hexec, hhistory⟩ := hstep
  obtain ⟨hjobs, hreports⟩ := (exec_effect hexec).reports (h := s.history)
  rcases hreports with hsame | ⟨id, st, rfl, rfl⟩
  · rw [← hhistory] at hsame
    refine ⟨hsame ▸ h.nodup, fun r hr => ?_⟩
    rw [hsame] at hr
    exact ⟨(h.known r hr).1, Nat.le_trans (h.known r hr).2 hjobs⟩
  · obtain ⟨j, rfl, hheld, -, -, hnone⟩ := hallowed
    have hcons : reportsOf s'.history = (j + 1, st) :: reportsOf s.history := by
      rw [hhistory]
      rfl
    have hlt : j < s.world.jobs.length := hinv.held_lt hheld
    constructor
    · rw [hcons, List.map_cons, List.nodup_cons]
      refine ⟨fun hmem => ?_, h.nodup⟩
      obtain ⟨r, hr, heq⟩ := List.mem_map.mp hmem
      obtain ⟨id, st'⟩ := r
      obtain rfl : id = j + 1 := heq
      have hevent : st' ∈ eventsOf (j + 1) s.history := mem_eventsOf.mpr hr
      rw [hnone] at hevent
      exact absurd hevent List.not_mem_nil
    · intro r hr
      rw [hcons] at hr
      rcases List.mem_cons.mp hr with rfl | hold
      · exact ⟨Nat.succ_pos j, Nat.le_trans hlt hjobs⟩
      · exact ⟨(h.known r hold).1, Nat.le_trans (h.known r hold).2 hjobs⟩

/-- A worker reports a job that it holds, once. -/
theorem ServerReachable.about_to_report {dt : DurationText} {fds : ServerFds}
    {files : Bytes → Option Bytes} {c : ServerConfig} (h : ServerReachable codec cfg dt fds files c)
    {i id : Nat} {st : JobState} {k : Ans (.writeEvent id st) → Task (Option MainState)}
    (hwriting : c.thread (.worker i) = some (.op (.writeEvent id st) k)) :
    ∃ j, id = j + 1 ∧ j < c.state.world.jobs.length ∧ eventsOf id c.state.history = [] := by
  have hallowed : Allowed cfg codec (.worker i) (.writeEvent id st) c.state :=
    h.keeps.allowed (conduct_sound cfg codec) hwriting
  obtain ⟨j, rfl, hheld, -, -, hnone⟩ := hallowed
  exact ⟨j, rfl, h.inv.held_lt hheld, hnone⟩

/-- As many events as the table holds jobs, at the most. -/
theorem Budget.length_le (h : Budget s) {ids : List Nat} (hnodup : ids.Nodup)
    (hids : ∀ id ∈ ids, id ∈ (reportsOf s.history).map Prod.fst ∨
      1 ≤ id ∧ id ≤ s.world.jobs.length) : ids.length ≤ s.world.jobs.length := by
  have hsubset : ids ⊆ List.range' 1 s.world.jobs.length := by
    intro id hid
    rw [List.mem_range'_1]
    rcases hids id hid with hreported | hknown
    · obtain ⟨r, hr, rfl⟩ := List.mem_map.mp hreported
      have hknown := h.known r hr
      omega
    · omega
  have hcount := (hnodup.subperm hsubset).length_le
  rwa [List.length_range'] at hcount

end

/-- In every run each job is reported at most once, with the state it keeps, so all the
events of a run together are at most 16384 bytes, and a pipe that can hold as many has room for
every event that a worker is about to write. -/
theorem reports_bounded {codec : PngCodec} {cfg : RuntimeConfig} {dt : DurationText}
    {fds : ServerFds} {files : Bytes → Option Bytes} {c : ServerConfig}
    (h : ServerReachable codec cfg dt fds files c) :
    ((reportsOf c.state.history).map Prod.fst).Nodup ∧
      (∀ job_id st, (job_id, st) ∈ reportsOf c.state.history → 1 ≤ job_id ∧
        job_id ≤ c.state.world.jobs.length ∧
        st.Terminal ∧ (c.state.world.job (job_id - 1)).state = st) ∧
      sizeofWorkerEvent * (reportsOf c.state.history).length ≤ 16384 ∧
      ∀ i id st k, c.thread (.worker i) = some (.op (.writeEvent id st) k) →
        ∀ (lim : Limits) (p : Pipe UInt8) (event : Bytes), 16384 ≤ lim.capacity → IsEvent event →
          p.bytes.length ≤ sizeofWorkerEvent * (reportsOf c.state.history).length →
          Write lim p event (.wrote sizeofWorkerEvent) (p.put event) := by
  have hbudget : Budget c.state := by
    refine ServerReachable.preserves (c := initialConfig cfg dt fds files) .refl h ?_ ?_ ?_
    · intro t o s a s' hinv hallowed hstep hb
      exact hb.step hinv hallowed hstep
    · intro t s hb
      exact ⟨hb.nodup, hb.known⟩
    · exact ⟨List.nodup_nil, fun r hr => absurd hr List.not_mem_nil⟩
  have hbound := h.inv.bound
  have hmax : maxJobs = 1024 := rfl
  have hsize : sizeofWorkerEvent = 16 := rfl
  refine ⟨hbudget.nodup, fun job_id st hmem => ?_, ?_, ?_⟩
  · obtain ⟨hpos, hle⟩ := hbudget.known _ hmem
    obtain ⟨j, rfl⟩ : ∃ j, job_id = j + 1 := ⟨job_id - 1, by omega⟩
    have hevent : st ∈ eventsOf (j + 1) c.state.history := mem_eventsOf.mpr hmem
    rcases h.inv.events j with hnone | ⟨-, hterminal, hevents⟩
    · rw [hnone] at hevent
      exact absurd hevent List.not_mem_nil
    · rw [hevents] at hevent
      obtain rfl := List.mem_singleton.mp hevent
      exact ⟨hpos, hle, hterminal, rfl⟩
  · have hcount := hbudget.length_le hbudget.nodup fun id hid => .inl hid
    rw [List.length_map] at hcount
    rw [hsize]
    omega
  · intro i id st k hwriting lim p event hcapacity hevent hpipe
    obtain ⟨j, rfl, hlt, hnone⟩ := h.about_to_report hwriting
    have hnew : j + 1 ∉ (reportsOf c.state.history).map Prod.fst := by
      intro hmem
      obtain ⟨⟨_, st'⟩, hr, rfl⟩ := List.mem_map.mp hmem
      have hold : st' ∈ eventsOf (j + 1) c.state.history := mem_eventsOf.mpr hr
      rw [hnone] at hold
      exact absurd hold List.not_mem_nil
    have hcount := hbudget.length_le (List.nodup_cons.mpr ⟨hnew, hbudget.nodup⟩) fun id hid => by
      rcases List.mem_cons.mp hid with rfl | hold
      · exact .inr ⟨Nat.succ_pos j, hlt⟩
      · exact .inl hold
    rw [List.length_cons, List.length_map] at hcount
    rw [hsize] at hpipe
    rw [← hevent.length]
    refine .whole ?_
    rw [hevent.length, hsize]
    omega

/-- What a worker is about to report. -/
def reporting (c : ServerConfig) (i : Nat) : Option (Nat × JobState) :=
  match c.thread (.worker i) with
  | some (.op (.writeEvent id st) _) => some (id, st)
  | _ => none

theorem reports_bounded_reported :
    ∃ c, ServerReachable rawCodec runtimeConfigDefaults plainDurations plainFds (fun _ => none) c ∧
      reportsOf c.state.history = [] ∧ reporting c 0 = some (1, .failed) ∧
      Write ⟨16384, 4096⟩ {} ((⟨1, JobState.failed.code⟩ : WorkerEvent).image [0, 0, 0, 0])
        (.wrote 16) (({} : Pipe UInt8).put
          ((⟨1, JobState.failed.code⟩ : WorkerEvent).image [0, 0, 0, 0])) := by
  obtain ⟨c, hreach, hc⟩ :=
    exists_reachable rawCodec runtimeConfigDefaults plainDurations plainFds (fun _ => none)
    lateCancel (fun c => (reportsOf c.state.history, reporting c 0))
    (show _ = some ([], some (1, .failed)) by decide +kernel)
  obtain ⟨hnone, hreporting⟩ := Prod.mk.inj hc
  refine ⟨c, hreach, hnone, hreporting, ?_⟩
  unfold reporting at hreporting
  split at hreporting
  · next id st k hwriting =>
    have hwrite := (reports_bounded hreach).2.2.2 0 id st k hwriting ⟨16384, 4096⟩ {}
      ((⟨1, JobState.failed.code⟩ : WorkerEvent).image [0, 0, 0, 0])
    exact hwrite (Nat.le_refl _) ⟨_, _, rfl, rfl⟩ (Nat.zero_le _)
  · cases hreporting

end StegaPng
