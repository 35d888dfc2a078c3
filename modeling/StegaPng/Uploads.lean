import StegaPng.Server

/-! An accepted upload cuts its stream where the request line says, however the
bytes arrive. -/

namespace StegaPng

open Interleaving

namespace World

@[simp] theorem setStream_setStream (w : World) (fd : Int) (es es' : Stream) :
    (w.setStream fd es).setStream fd es' = w.setStream fd es' := by
  simp only [setStream]
  congr
  funext f
  split <;> rfl

@[simp] theorem setStream_self (w : World) (fd : Int) : w.setStream fd (w.streams fd) = w := by
  have h : (fun f => if f = fd then w.streams fd else w.streams f) = w.streams := by
    funext f
    split
    · next h => rw [h]
    · rfl
  simp only [setStream, h]

@[simp] theorem setStream_streams (w : World) (fd : Int) (es : Stream) :
    (w.setStream fd es).streams fd = es := by
  simp [setStream]

@[simp] theorem setStream_next_id (w : World) (fd : Int) (es : Stream) :
    (w.setStream fd es).next_id = w.next_id := rfl

@[simp] theorem setStream_files (w : World) (fd : Int) (es : Stream) :
    (w.setStream fd es).files = w.files := rfl

@[simp] theorem writeFile_writeFile (w : World) (path : Bytes) (c c' : Option Bytes) :
    (w.writeFile path c).writeFile path c' = w.writeFile path c' := by
  simp only [writeFile]
  congr
  funext p
  split <;> rfl

theorem writeFile_self {w : World} {path : Bytes} {c : Option Bytes} (h : w.files path = c) :
    w.writeFile path c = w := by
  have hfiles : (fun p => if p = path then c else w.files p) = w.files := by
    funext p
    split
    · next hp => rw [hp, h]
    · rfl
  simp only [writeFile, hfiles]

@[simp] theorem writeFile_files (w : World) (path : Bytes) (c : Option Bytes) :
    (w.writeFile path c).files path = c := by
  simp [writeFile]

@[simp] theorem writeFile_streams (w : World) (path : Bytes) (c : Option Bytes) :
    (w.writeFile path c).streams = w.streams := rfl

@[simp] theorem setStream_writeFile (w : World) (fd : Int) (es : Stream) (path : Bytes)
    (c : Option Bytes) :
    (w.setStream fd es).writeFile path c = (w.writeFile path c).setStream fd es := rfl

end World

/-- No call fails, and the clock stands at `now`. -/
def Calm (now : Nat) (e : Env) : Prop := e.ok = true ∧ e.now = now

theorem runs_call_bind {M : Machine Op Ans Tid Sys} {t : Tid} {s s' : Sys} {α : Type} {o : Op}
    {f : Ans o → Task α} {a : α} :
    Runs M t (call o >>= f) s a s' ↔ ∃ b s₁, M.step t o s b s₁ ∧ Runs M t (f b) s₁ a s' :=
  Runs.op_iff

theorem sendResponsef_runs {adm : Env → Prop} {codec : PngCodec} {t : Tid} {fd : Int} {text : Bytes}
    {s s' : Sys} {b : Bool} (h : Runs (machineIn adm codec) t (sendResponsef fd text) s b s') :
    s'.world = s.world := by
  unfold sendResponsef at h
  split at h
  · rw [Prog.pure_eq, Runs.ret_iff] at h
    rw [h.2]
  · obtain ⟨e, marks, -, hexec, -⟩ := Runs.perform_iff.mp h
    simp only [exec, Option.some.injEq, Prod.mk.injEq] at hexec
    exact hexec.2.1.symm

section

variable {codec : PngCodec} {now : Nat} {t : Tid} {s s' : Sys}

theorem chunk_pos {n : Nat} (hn : n ≠ 0) : 0 < min n chunkSize := by
  have hchunk : 0 < chunkSize := by decide
  omega

theorem receiveLoop_calm {fd : Int} {path c : Bytes} {n : Nat} {b : Bool}
    (h : Runs (machineIn (Calm now) codec) t (receiveLoop fd path n) s b s')
    (hclean : Clean (s.world.streams fd)) (hlen : n ≤ (bytesOf (s.world.streams fd)).length)
    (hfile : s.world.files path = some c) :
    b = true ∧ ∃ es', Clean es' ∧ bytesOf es' = (bytesOf (s.world.streams fd)).drop n ∧
      s'.world = (s.world.writeFile path
        (some (c ++ (bytesOf (s.world.streams fd)).take n))).setStream fd es' := by
  induction n using Nat.strong_induction_on generalizing s c with
  | _ n ih =>
    rw [receiveLoop] at h
    by_cases h0 : n = 0
    · subst h0
      rw [if_pos rfl, Prog.pure_eq, Runs.ret_iff] at h
      obtain ⟨rfl, rfl⟩ := h
      refine ⟨rfl, _, hclean, by simp, ?_⟩
      rw [List.take_zero, List.append_nil, World.writeFile_self hfile, World.setStream_self]
    · rw [if_neg h0, runs_call_bind] at h
      obtain ⟨r, s₁, ⟨e, marks, -, hexec, -⟩, h⟩ := h
      simp only [exec, Option.some.injEq, Prod.mk.injEq] at hexec
      obtain ⟨hr, hworld, -⟩ := hexec
      have hwant := chunk_pos h0
      rcases readRetry_clean hwant hclean with ⟨hnil, -⟩ | ⟨x, xs, es₁, hread, hcut, hle, hclean₁⟩
      · rw [hnil, List.length_nil] at hlen
        omega
      · rw [hread] at hr hworld
        subst hr
        dsimp only at h
        rw [runs_call_bind] at h
        obtain ⟨b₂, s₂, ⟨e₂, marks₂, hcalm, hexec₂, -⟩, h⟩ := h
        simp only [exec, hcalm.1, if_true, Option.some.injEq, Prod.mk.injEq] at hexec₂
        obtain ⟨rfl, hworld₂, -⟩ := hexec₂
        simp only [Bool.not_true, Bool.false_eq_true, if_false] at h
        have hfile₁ : s₁.world.files path = some c := by
          rw [← hworld]
          exact hfile
        rw [hfile₁, Option.map_some, ← hworld] at hworld₂
        have hstream : s₂.world.streams fd = es₁ := by
          rw [← hworld₂]
          simp
        have hlen' : n - (xs.length + 1) ≤ (bytesOf es₁).length := by
          rw [hcut, List.length_append, List.length_cons] at hlen
          omega
        have hfile₂ : s₂.world.files path = some (c ++ (x :: xs)) := by
          rw [← hworld₂]
          simp
        obtain ⟨rfl, es', hclean', hbytes', hworld'⟩ :=
          ih (n - (xs.length + 1)) (by omega) h (by rw [hstream]; exact hclean₁)
            (by rw [hstream]; exact hlen') hfile₂
        rw [hstream] at hbytes' hworld'
        have hxs : (x :: xs).length ≤ n := by
          rw [List.length_cons]
          omega
        refine ⟨rfl, es', hclean', ?_, ?_⟩
        · rw [hbytes', hcut, List.drop_append, List.drop_eq_nil_of_le hxs]
          rfl
        · rw [hworld', ← hworld₂, hcut, List.take_append, List.take_of_length_le hxs]
          simp

theorem storageReceiveToFile_calm {fd : Int} {path : Bytes} {n : Nat} {b : Bool}
    (h : Runs (machineIn (Calm now) codec) t (storageReceiveToFile fd n path) s b s')
    (hclean : Clean (s.world.streams fd)) (hlen : n ≤ (bytesOf (s.world.streams fd)).length) :
    b = true ∧ ∃ es', Clean es' ∧ bytesOf es' = (bytesOf (s.world.streams fd)).drop n ∧
      s'.world = (s.world.writeFile path
        (some ((bytesOf (s.world.streams fd)).take n))).setStream fd es' := by
  rw [storageReceiveToFile, runs_call_bind] at h
  obtain ⟨b₁, s₁, ⟨e, marks, hcalm, hexec, -⟩, h⟩ := h
  simp only [exec, hcalm.1, if_true, Option.some.injEq, Prod.mk.injEq] at hexec
  obtain ⟨rfl, hworld, -⟩ := hexec
  simp only [Bool.not_true, Bool.false_eq_true, if_false, Runs.bind_iff] at h
  obtain ⟨b₂, s₂, hloop, h⟩ := h
  have hfile : s₁.world.files path = some [] := by
    rw [← hworld]
    simp
  have hstreams : s₁.world.streams = s.world.streams := by
    rw [← hworld]
    rfl
  rw [← hstreams] at hclean hlen ⊢
  obtain ⟨rfl, es', hclean', hbytes', hworld₂⟩ := receiveLoop_calm hloop hclean hlen hfile
  simp only [Bool.not_true, Bool.false_eq_true, if_false] at h
  rw [runs_call_bind] at h
  obtain ⟨b₃, s₃, ⟨e₃, marks₃, hcalm₃, hexec₃, -⟩, h⟩ := h
  simp only [exec, hcalm₃.1, if_true, Option.some.injEq, Prod.mk.injEq] at hexec₃
  obtain ⟨rfl, hworld₃, -⟩ := hexec₃
  simp only [Bool.not_true, Bool.false_eq_true, if_false, Prog.pure_eq, Runs.ret_iff] at h
  obtain ⟨rfl, rfl⟩ := h
  refine ⟨rfl, es', hclean', hbytes', ?_⟩
  rw [← hworld₃, hworld₂, ← hworld]
  simp

/-- What `enqueue_job` leaves when no call fails. -/
def enqueued (now : Nat) (w : World) (client : ClientSession) (type : JobType)
    (payload input_path stored_path : Option Bytes) : World :=
  if w.jobs.length ≥ maxJobs then w else
  let job := { newJob w.next_id client.fd client.addr_str type payload input_path now with
    stored_path := snprintf maxJobPath (stored_path.getD []) }
  if w.stopped then
    { w with
      jobs := w.jobs ++ [{ job with
        result := snprintf maxJobResult (lit "enqueue failed"), state :=
          .failed, finished_at := now }]
      next_id := w.next_id + 1 }
  else { w with
    jobs := w.jobs ++ [job]
    next_id := w.next_id + 1
    queue := w.queue ++ [w.jobs.length] }

theorem modify_append_singleton {α : Type} (l : List α) (a : α) (f : α → α) :
    (l ++ [a]).modify l.length f = l ++ [f a] := by
  induction l with
  | nil => rfl
  | cons x l ih => simpa using ih

theorem jobSetStoredPath_calm {job : Nat} {path : Bytes}
    (h : Runs (machineIn (Calm now) codec) t (jobSetStoredPath job path) s () s') :
    s'.world = s.world.updateJob job fun j =>
      { j with stored_path := snprintf maxJobPath path } := by
  obtain ⟨e, marks, -, hexec, -⟩ := Runs.perform_iff.mp h
  simp only [exec, Option.some.injEq, Prod.mk.injEq] at hexec
  exact hexec.2.1.symm

theorem enqueueJob_calm {client : ClientSession} {type : JobType}
    {payload input_path stored_path : Option Bytes} {b : Bool}
    (h : Runs (machineIn (Calm now) codec) t
      (enqueueJob client type payload input_path stored_path) s b s') :
    s'.world = enqueued now s.world client type payload input_path stored_path := by
  rw [enqueueJob, runs_call_bind] at h
  obtain ⟨created, s₁, ⟨e, marks, hcalm, hexec, -⟩, h⟩ := h
  simp only [exec, hcalm.1, Bool.not_true, Bool.false_eq_true, if_false] at hexec
  by_cases hfull : s.world.jobs.length ≥ maxJobs
  · simp only [hfull, if_true, Option.some.injEq, Prod.mk.injEq] at hexec
    obtain ⟨rfl, hworld, -⟩ := hexec
    rw [sendResponsef_runs h, ← hworld, enqueued, if_pos hfull]
  · simp only [hfull, if_false, Option.some.injEq, Prod.mk.injEq] at hexec
    obtain ⟨rfl, hworld, -⟩ := hexec
    rw [hcalm.2] at hworld
    let job := newJob s.world.next_id client.fd client.addr_str type payload input_path now
    have hstored : ∃ s₂, s₂.world = { s.world with
          jobs := s.world.jobs ++
            [{ job with stored_path := snprintf maxJobPath (stored_path.getD []) }]
          next_id := s.world.next_id + 1 } ∧
        Runs (machineIn (Calm now) codec) t (do
          if !(← call (.push s.world.jobs.length)) then
            jobSetResult s.world.jobs.length (lit "enqueue failed")
            jobSetState s.world.jobs.length .failed
            sendResponsef client.fd (lit "ERR cannot enqueue job\n")
          else
            sendResponsef client.fd (lit "JOB " ++ decimal (← jobId s.world.jobs.length) ++
              lit "\n")) s₂ b s' := by
      cases stored_path with
      | none => exact ⟨s₁, hworld.symm, h⟩
      | some path =>
        simp only [Runs.bind_iff] at h
        obtain ⟨_, s₂, hset, h⟩ := h
        refine ⟨s₂, ?_, by simpa only [Runs.bind_iff] using h⟩
        rw [jobSetStoredPath_calm hset, ← hworld]
        simp only [World.updateJob, modify_append_singleton]
        rfl
    obtain ⟨s₂, hworld₂, h⟩ := hstored
    rw [runs_call_bind] at h
    obtain ⟨pushed, s₃, ⟨e₃, marks₃, hcalm₃, hexec₃, -⟩, h⟩ := h
    simp only [exec, hcalm₃.1, Bool.not_true, Bool.false_eq_true, if_false] at hexec₃
    have hstopped₂ : s₂.world.stopped = s.world.stopped := by rw [hworld₂]
    by_cases hstopped : s.world.stopped = true
    · simp only [hstopped₂, hstopped, if_true, Option.some.injEq, Prod.mk.injEq] at hexec₃
      obtain ⟨rfl, hworld₃, -⟩ := hexec₃
      simp only [Bool.not_false, if_true, Runs.bind_iff] at h
      obtain ⟨_, s₄, hresult, _, s₅, hstate, h⟩ := h
      obtain ⟨e₄, marks₄, -, hexec₄, -⟩ := Runs.perform_iff.mp hresult
      obtain ⟨e₅, marks₅, hcalm₅, hexec₅, -⟩ := Runs.perform_iff.mp hstate
      simp only [exec, Option.some.injEq, Prod.mk.injEq] at hexec₄ hexec₅
      obtain ⟨-, hworld₄, -⟩ := hexec₄
      obtain ⟨-, hworld₅, -⟩ := hexec₅
      rw [sendResponsef_runs h, ← hworld₅, ← hworld₄, ← hworld₃, hworld₂, hcalm₅.2]
      simp only [World.updateJob, modify_append_singleton, JobUpdate.apply, enqueued,
        hfull, hstopped, if_false, if_true]
      rfl
    · simp only [hstopped₂, hstopped, Bool.false_eq_true, if_false, Option.some.injEq,
        Prod.mk.injEq] at hexec₃
      obtain ⟨rfl, hworld₃, -⟩ := hexec₃
      simp only [Bool.not_true, Bool.false_eq_true, if_false, Runs.bind_iff] at h
      obtain ⟨id, s₄, hid, h⟩ := h
      obtain ⟨e₄, marks₄, -, hexec₄, -⟩ := Runs.perform_iff.mp hid
      simp only [exec, Option.some.injEq, Prod.mk.injEq] at hexec₄
      obtain ⟨-, hworld₄, -⟩ := hexec₄
      rw [sendResponsef_runs h, ← hworld₄, ← hworld₃, hworld₂]
      simp only [enqueued, hfull, hstopped, Bool.false_eq_true, if_false]
      rfl

theorem enqueued_setStream (now : Nat) (w : World) (client : ClientSession) (type : JobType)
    (payload input_path stored_path : Option Bytes) (fd : Int) (es : Stream) :
    enqueued now (w.setStream fd es) client type payload input_path stored_path =
      (enqueued now w client type payload input_path stored_path).setStream fd es := by
  unfold enqueued
  split
  · next h => rw [if_pos (show w.jobs.length ≥ maxJobs from h)]
  · next h =>
    rw [if_neg (show ¬ w.jobs.length ≥ maxJobs from h)]
    dsimp only
    split
    · next h => rw [if_pos (show w.stopped = true from h)]; rfl
    · next h => rw [if_neg (show ¬ w.stopped = true from h)]; rfl

theorem nextId_calm {n : Nat} (h : (machineIn (Calm now) codec).step t .nextId s n s') :
    n = s.world.next_id ∧ s'.world = s.world := by
  obtain ⟨e, marks, -, hexec, -⟩ := h
  simp only [exec, Option.some.injEq, Prod.mk.injEq] at hexec
  exact ⟨hexec.1.symm, hexec.2.1.symm⟩

theorem receivePngToUpload_calm {cfg : RuntimeConfig} {client : ClientSession} {size : UInt64}
    {r : Option Bytes}
    (h : Runs (machineIn (Calm now) codec) t (receivePngToUpload cfg client size) s r s')
    (hid : s.world.next_id < 2 ^ 64) (hpos : 0 < size) (hmax : size ≤ cfg.max_upload_bytes)
    (hclean : Clean (s.world.streams client.fd))
    (hlen : size.toNat ≤ (bytesOf (s.world.streams client.fd)).length) :
    r = some (uploadPath cfg s.world.next_id (lit "png")) ∧
      ∃ es', Clean es' ∧ bytesOf es' = (bytesOf (s.world.streams client.fd)).drop size.toNat ∧
        s'.world = (s.world.writeFile (uploadPath cfg s.world.next_id (lit "png"))
          (some ((bytesOf (s.world.streams client.fd)).take size.toNat))).setStream
            client.fd es' := by
  have hsize : ¬ (size = 0 ∨ size > cfg.max_upload_bytes) := by
    rintro (h0 | h0)
    · subst h0
      exact absurd hpos (by decide)
    · exact absurd hmax (UInt64.not_le.mpr h0)
  unfold receivePngToUpload at h
  rw [if_neg hsize, runs_call_bind] at h
  obtain ⟨n, s₁, hnext, h⟩ := h
  obtain ⟨rfl, hworld⟩ := nextId_calm hnext
  rw [storageMakeUploadPath_eq cfg hid (by decide)] at h
  rw [← hworld] at h hclean hlen ⊢
  simp only [Runs.bind_iff] at h
  obtain ⟨b, s₂, hreceive, h⟩ := h
  obtain ⟨rfl, es', hclean', hbytes', hworld'⟩ := storageReceiveToFile_calm hreceive hclean hlen
  simp only [Bool.not_true, Bool.false_eq_true, if_false, Prog.pure_eq, Runs.ret_iff] at h
  obtain ⟨rfl, rfl⟩ := h
  exact ⟨rfl, es', hclean', hbytes', hworld'⟩

theorem receiveExtraToFile_calm {cfg : RuntimeConfig} {fd : Int} {size max : UInt64}
    {label suffix : Bytes} {job_seq : Nat} {r : Option Bytes}
    (h : Runs (machineIn (Calm now) codec) t
      (receiveExtraToFile cfg fd size max label job_seq suffix) s r s')
    (hid : job_seq < 2 ^ 64) (hsuffix : suffix.length ≤ 4) (hmax : size ≤ max)
    (hclean : Clean (s.world.streams fd))
    (hlen : size.toNat ≤ (bytesOf (s.world.streams fd)).length) :
    r = some (uploadPath cfg job_seq suffix) ∧
      ∃ es', Clean es' ∧ bytesOf es' = (bytesOf (s.world.streams fd)).drop size.toNat ∧
        s'.world = (s.world.writeFile (uploadPath cfg job_seq suffix)
          (some ((bytesOf (s.world.streams fd)).take size.toNat))).setStream fd es' := by
  unfold receiveExtraToFile at h
  rw [if_neg (show ¬ size > max from UInt64.not_lt.mpr hmax),
    storageMakeUploadPath_eq cfg hid hsuffix] at h
  dsimp only at h
  by_cases h0 : size = 0
  · rw [if_pos h0, runs_call_bind] at h
    obtain ⟨b₁, s₁, ⟨e₁, marks₁, hcalm₁, hexec₁, -⟩, h⟩ := h
    simp only [exec, hcalm₁.1, if_true, Option.some.injEq, Prod.mk.injEq] at hexec₁
    obtain ⟨rfl, hworld₁, -⟩ := hexec₁
    simp only [Bool.not_true, Bool.false_eq_true, if_false] at h
    rw [runs_call_bind] at h
    obtain ⟨b₂, s₂, ⟨e₂, marks₂, hcalm₂, hexec₂, -⟩, h⟩ := h
    simp only [exec, hcalm₂.1, if_true, Option.some.injEq, Prod.mk.injEq] at hexec₂
    obtain ⟨rfl, hworld₂, -⟩ := hexec₂
    simp only [Bool.not_true, Bool.false_eq_true, if_false, Prog.pure_eq, Runs.ret_iff] at h
    obtain ⟨rfl, rfl⟩ := h
    refine ⟨rfl, _, hclean, by simp [h0], ?_⟩
    rw [← hworld₂, ← hworld₁, h0]
    exact (World.setStream_self (s.world.writeFile _ (some [])) fd).symm
  · rw [if_neg h0, Runs.bind_iff] at h
    obtain ⟨b, s₂, hreceive, h⟩ := h
    obtain ⟨rfl, es', hclean', hbytes', hworld'⟩ := storageReceiveToFile_calm hreceive hclean hlen
    simp only [Bool.not_true, Bool.false_eq_true, if_false, Prog.pure_eq, Runs.ret_iff] at h
    obtain ⟨rfl, rfl⟩ := h
    exact ⟨rfl, es', hclean', hbytes', hworld'⟩

/-- The parts of an upload's body, in the order they are sent. -/
structure UploadBody where
  png : Bytes
  name : Bytes
  extra : Bytes

def UploadBody.bytes (b : UploadBody) : Bytes := b.png ++ (b.name ++ b.extra)

/-- The declared sizes pass the checks of the command, and the body has them. -/
def Accepted (cfg : RuntimeConfig) (request : ProtocolRequest) (b : UploadBody) : Prop :=
  0 < request.size1 ∧ request.size1 ≤ cfg.max_upload_bytes ∧ b.png.length = request.size1.toNat ∧
  match request.command with
  | .encodeText =>
    request.size2.toNat ≤ maxTextBytes ∧ b.name = [] ∧ b.extra.length = request.size2.toNat
  | .encodeFile => request.size2.toNat ≤ maxFilenameBytes ∧ request.size3 ≤ cfg.max_upload_bytes ∧
      b.name.length = request.size2.toNat ∧ b.extra.length = request.size3.toNat
  | .decode | .validate | .capacity => b.name = [] ∧ b.extra = []
  | _ => False

/-- The files and the job that an accepted upload leaves. -/
def uploaded (cfg : RuntimeConfig) (now : Nat) (w : World) (client : ClientSession)
    (request : ProtocolRequest) (b : UploadBody) : World :=
  let png_path := uploadPath cfg w.next_id (lit "png")
  let text_path := uploadPath cfg w.next_id (lit "txt")
  let file_path := uploadPath cfg w.next_id (lit "data")
  let w' := w.writeFile png_path (some b.png)
  match request.command with
  | .encodeText => enqueued now (w'.writeFile text_path (some b.extra)) client .encodeText none
      (some png_path) (some text_path)
  | .encodeFile => enqueued now (w'.writeFile file_path (some b.extra)) client .encodeFile
      (some (cstr b.name)) (some png_path) (some file_path)
  | .decode => enqueued now w' client .decode none (some png_path) none
  | .validate => enqueued now w' client .validateImage none (some png_path) none
  | .capacity => enqueued now w' client .analyzeCapacity none (some png_path) none
  | _ => w

theorem handlePngUpload_calm {cfg : RuntimeConfig} {client : ClientSession}
    {request : ProtocolRequest} {type : JobType} {png rest : Bytes}
    (h : Runs (machineIn (Calm now) codec) t (handlePngUpload cfg client request type) s () s')
    (hid : s.world.next_id < 2 ^ 64) (hpos : 0 < request.size1)
    (hmax : request.size1 ≤ cfg.max_upload_bytes) (hpng : png.length = request.size1.toNat)
    (hclean : Clean (s.world.streams client.fd))
    (hbytes : bytesOf (s.world.streams client.fd) = png ++ rest) :
    ∃ es', Clean es' ∧ bytesOf es' = rest ∧
      s'.world = (enqueued now (s.world.writeFile (uploadPath cfg s.world.next_id (lit "png"))
        (some png))
        client type none (some (uploadPath cfg s.world.next_id (lit "png"))) none).setStream
          client.fd es' := by
  simp only [handlePngUpload, Runs.bind_iff] at h
  obtain ⟨r, s₁, hreceive, h⟩ := h
  obtain ⟨rfl, es', hclean', hbytes', hworld'⟩ :=
    receivePngToUpload_calm hreceive hid hpos hmax hclean
      (by rw [hbytes, List.length_append]; omega)
  simp only [Runs.bind_iff] at h
  obtain ⟨b, s₂, henqueue, h⟩ := h
  rw [Prog.pure_eq, Runs.ret_iff] at h
  rw [hbytes, List.drop_left' hpng] at hbytes'
  refine ⟨es', hclean', hbytes', ?_⟩
  rw [h.2, enqueueJob_calm henqueue, hworld', enqueued_setStream, hbytes, List.take_left' hpng]

theorem receiveExtra_calm {cfg : RuntimeConfig} {client : ClientSession} {size max : UInt64}
    {label suffix png_path extra rest : Bytes} {type : JobType} {payload : Option Bytes}
    (h : Runs (machineIn (Calm now) codec) t (do
      let next_id ← call .nextId
      match ← receiveExtraToFile cfg client.fd size max label next_id suffix with
      | none => return ()
      | some path => let _ ← enqueueJob client type payload (some png_path) (some path)) s () s')
    (hid : s.world.next_id < 2 ^ 64) (hsuffix : suffix.length ≤ 4) (hmax : size ≤ max)
    (hextra : extra.length = size.toNat) (hclean : Clean (s.world.streams client.fd))
    (hbytes : bytesOf (s.world.streams client.fd) = extra ++ rest) :
    ∃ es', Clean es' ∧ bytesOf es' = rest ∧
      s'.world = (enqueued now (s.world.writeFile (uploadPath cfg s.world.next_id suffix)
        (some extra))
        client type payload (some png_path)
          (some (uploadPath cfg s.world.next_id suffix))).setStream
          client.fd es' := by
  rw [runs_call_bind] at h
  obtain ⟨n, s₁, hnext, h⟩ := h
  obtain ⟨rfl, hworld₁⟩ := nextId_calm hnext
  rw [← hworld₁] at h hid hclean hbytes ⊢
  simp only [Runs.bind_iff] at h
  obtain ⟨r, s₂, hreceive, h⟩ := h
  obtain ⟨rfl, es', hclean', hbytes', hworld₂⟩ :=
    receiveExtraToFile_calm hreceive hid hsuffix hmax hclean
      (by rw [hbytes, List.length_append]; omega)
  rw [hbytes, List.drop_left' hextra] at hbytes'
  simp only [Runs.bind_iff] at h
  obtain ⟨b, s₃, henqueue, h⟩ := h
  rw [Prog.pure_eq, Runs.ret_iff] at h
  refine ⟨es', hclean', hbytes', ?_⟩
  rw [h.2, enqueueJob_calm henqueue, hworld₂, hbytes, List.take_left' hextra, enqueued_setStream]

theorem handleEncodeText_calm {cfg : RuntimeConfig} {client : ClientSession}
    {request : ProtocolRequest} {png text rest : Bytes}
    (h : Runs (machineIn (Calm now) codec) t (handleEncodeText cfg client request) s () s')
    (hid : s.world.next_id < 2 ^ 64) (hpos : 0 < request.size1)
    (hmax : request.size1 ≤ cfg.max_upload_bytes) (hpng : png.length = request.size1.toNat)
    (htext : text.length = request.size2.toNat) (hmaxText : request.size2.toNat ≤ maxTextBytes)
    (hclean : Clean (s.world.streams client.fd))
    (hbytes : bytesOf (s.world.streams client.fd) = png ++ (text ++ rest)) :
    ∃ es', Clean es' ∧ bytesOf es' = rest ∧
      s'.world = (enqueued now ((s.world.writeFile (uploadPath cfg s.world.next_id (lit "png"))
        (some png)).writeFile
        (uploadPath cfg s.world.next_id (lit "txt")) (some text)) client .encodeText none
        (some (uploadPath cfg s.world.next_id (lit "png")))
        (some (uploadPath cfg s.world.next_id (lit "txt")))).setStream client.fd es' := by
  simp only [handleEncodeText, Runs.bind_iff] at h
  obtain ⟨r, s₁, hreceive, h⟩ := h
  obtain ⟨rfl, es₁, hclean₁, hbytes₁, hworld₁⟩ :=
    receivePngToUpload_calm hreceive hid hpos hmax hclean
      (by rw [hbytes, List.length_append]; omega)
  rw [hbytes, List.drop_left' hpng] at hbytes₁
  rw [hbytes, List.take_left' hpng] at hworld₁
  have hstream : s₁.world.streams client.fd = es₁ := by
    rw [hworld₁]
    simp
  have hmaxText' : request.size2 ≤ UInt64.ofNat maxTextBytes := UInt64.le_iff_toNat_le.mpr hmaxText
  have hnext : s₁.world.next_id = s.world.next_id := by
    rw [hworld₁]
    rfl
  obtain ⟨es₂, hclean₂, hbytes₂, hworld₂⟩ :=
    receiveExtra_calm h (by rw [hnext]; exact hid) (by decide) hmaxText' htext
    (by rw [hstream]; exact hclean₁) (by rw [hstream]; exact hbytes₁)
  refine ⟨es₂, hclean₂, hbytes₂, ?_⟩
  rw [hworld₂, hnext, hworld₁, World.setStream_writeFile, enqueued_setStream,
    World.setStream_setStream]

theorem readExact_calm {fd : Int} {n : Nat} {name rest : Bytes} {r : Option Bytes}
    (h : (machineIn (Calm now) codec).step t (.readExact fd n) s r s') (hname : name.length = n)
    (hclean : Clean (s.world.streams fd)) (hbytes : bytesOf (s.world.streams fd) = name ++ rest) :
    r = some name ∧ ∃ es', Clean es' ∧ bytesOf es' = rest ∧
      s'.world = s.world.setStream fd es' := by
  obtain ⟨e, marks, -, hexec, -⟩ := h
  simp only [exec, Option.some.injEq, Prod.mk.injEq] at hexec
  obtain ⟨hr, hworld, -⟩ := hexec
  obtain ⟨es', hread, hbytes', hclean'⟩ := readExact_clean n hclean
  rw [hread] at hr hworld
  rw [hbytes, List.take_left' hname] at hr
  rw [hbytes, List.drop_left' hname] at hbytes'
  exact ⟨hr.symm, es', hclean', hbytes', hworld.symm⟩

theorem handleEncodeFile_calm {cfg : RuntimeConfig} {client : ClientSession}
    {request : ProtocolRequest} {png name file rest : Bytes}
    (h : Runs (machineIn (Calm now) codec) t (handleEncodeFile cfg client request) s () s')
    (hid : s.world.next_id < 2 ^ 64) (hpos : 0 < request.size1)
    (hmax : request.size1 ≤ cfg.max_upload_bytes) (hpng : png.length = request.size1.toNat)
    (hname : name.length = request.size2.toNat) (hmaxName : request.size2.toNat ≤ maxFilenameBytes)
    (hfile : file.length = request.size3.toNat) (hmaxFile : request.size3 ≤ cfg.max_upload_bytes)
    (hclean : Clean (s.world.streams client.fd))
    (hbytes : bytesOf (s.world.streams client.fd) = png ++ (name ++ (file ++ rest))) :
    ∃ es', Clean es' ∧ bytesOf es' = rest ∧
      s'.world = (enqueued now ((s.world.writeFile (uploadPath cfg s.world.next_id (lit "png"))
        (some png)).writeFile
        (uploadPath cfg s.world.next_id (lit "data")) (some file)) client .encodeFile
          (some (cstr name))
        (some (uploadPath cfg s.world.next_id (lit "png")))
        (some (uploadPath cfg s.world.next_id (lit "data")))).setStream client.fd es' := by
  unfold handleEncodeFile at h
  rw [if_neg (by omega), Runs.bind_iff] at h
  obtain ⟨r, s₁, hreceive, h⟩ := h
  obtain ⟨rfl, es₁, hclean₁, hbytes₁, hworld₁⟩ :=
    receivePngToUpload_calm hreceive hid hpos hmax hclean
      (by rw [hbytes, List.length_append]; omega)
  rw [hbytes, List.drop_left' hpng] at hbytes₁
  rw [hbytes, List.take_left' hpng] at hworld₁
  have hstream₁ : s₁.world.streams client.fd = es₁ := by
    rw [hworld₁]
    simp
  -- the name is read only if its length is positive
  have hbody : ∃ s₂ es₂, Clean es₂ ∧ bytesOf es₂ = file ++ rest ∧
    s₂.world = s₁.world.setStream client.fd es₂ ∧
      Runs (machineIn (Calm now) codec) t (handleEncodeFileBody cfg client request
        (uploadPath cfg s.world.next_id (lit "png")) name) s₂ () s' := by
    dsimp only at h
    by_cases h0 : request.size2 > 0
    · rw [if_pos h0, runs_call_bind] at h
      obtain ⟨r, s₂, hread, h⟩ := h
      obtain ⟨rfl, es₂, hclean₂, hbytes₂, hworld₂⟩ :=
        readExact_calm hread hname (by rw [hstream₁]; exact hclean₁)
        (by rw [hstream₁]; exact hbytes₁)
      dsimp only at h
      rw [if_neg (by simp [hname])] at h
      exact ⟨s₂, es₂, hclean₂, hbytes₂, hworld₂, h⟩
    · rw [if_neg h0] at h
      have hzero : request.size2.toNat = 0 := by
        have := UInt64.le_iff_toNat_le.mp (UInt64.not_lt.mp h0)
        simpa using this
      have hnil : name = [] := List.eq_nil_of_length_eq_zero (hname.trans hzero)
      subst hnil
      refine ⟨s₁, es₁, hclean₁, hbytes₁, ?_, h⟩
      rw [← hstream₁, World.setStream_self]
  obtain ⟨s₂, es₂, hclean₂, hbytes₂, hworld₂, hrest⟩ := hbody
  have hnext : s₂.world.next_id = s.world.next_id := by
    rw [hworld₂, hworld₁]
    rfl
  have hstream₂ : s₂.world.streams client.fd = es₂ := by
    rw [hworld₂]
    simp
  obtain ⟨es₃, hclean₃, hbytes₃, hworld₃⟩ :=
    receiveExtra_calm hrest (by rw [hnext]; exact hid) (by decide) hmaxFile
    hfile (by rw [hstream₂]; exact hclean₂) (by rw [hstream₂]; exact hbytes₂)
  refine ⟨es₃, hclean₃, hbytes₃, ?_⟩
  rw [hworld₃, hnext, hworld₂, hworld₁, World.setStream_setStream, World.setStream_writeFile,
    enqueued_setStream, World.setStream_setStream]

theorem answerUserCommand_calm {cfg : RuntimeConfig} {client : ClientSession}
    {request : ProtocolRequest} {b : UploadBody} {rest : Bytes} (hb : Accepted cfg request b)
    (h : Runs (machineIn (Calm now) codec) t (answerUserCommand cfg client request) s () s')
    (hid : s.world.next_id < 2 ^ 64) (hclean : Clean (s.world.streams client.fd))
    (hbytes : bytesOf (s.world.streams client.fd) = b.bytes ++ rest) :
    ∃ es', Clean es' ∧ bytesOf es' = rest ∧
      s'.world = (uploaded cfg now s.world client request b).setStream client.fd es' := by
  obtain ⟨hpos, hmax, hpng, hparts⟩ := hb
  simp only [UploadBody.bytes, List.append_assoc] at hbytes
  cases hcommand : request.command <;> rw [hcommand] at hparts <;> simp only at hparts
  case encodeText =>
    obtain ⟨hmaxText, hname, htext⟩ := hparts
    rw [hname, List.nil_append] at hbytes
    simp only [answerUserCommand, hcommand] at h
    simp only [uploaded, hcommand]
    exact handleEncodeText_calm h hid hpos hmax hpng htext hmaxText hclean hbytes
  case encodeFile =>
    obtain ⟨hmaxName, hmaxFile, hname, hfile⟩ := hparts
    simp only [answerUserCommand, hcommand] at h
    simp only [uploaded, hcommand]
    exact handleEncodeFile_calm h hid hpos hmax hpng hname hmaxName hfile hmaxFile hclean hbytes
  all_goals
    rw [hparts.1, hparts.2, List.nil_append, List.nil_append] at hbytes
    simp only [answerUserCommand, hcommand] at h
    simp only [uploaded, hcommand]
    exact handlePngUpload_calm h hid hpos hmax hpng hclean hbytes

end

theorem uploaded_setStream (cfg : RuntimeConfig) (now : Nat) (w : World) (client : ClientSession)
    (request : ProtocolRequest) (b : UploadBody) (fd : Int) (es : Stream) :
    uploaded cfg now (w.setStream fd es) client request b =
      (uploaded cfg now w client request b).setStream fd es := by
  unfold uploaded
  split <;> first
    | rfl
    | simp only [World.setStream_next_id, World.setStream_writeFile, enqueued_setStream]

end StegaPng
