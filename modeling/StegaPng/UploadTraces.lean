import StegaPng.Kicks
import StegaPng.Refusals

/-! What a failed upload leaves behind. -/

namespace StegaPng

open Interleaving

/-- The bytes that can be read before a read fails. -/
def arriving (es : Stream) : Bytes := bytesOf (es.takeWhile fun e => decide (e ≠ .error))

/-- Jobs, queue and uploads are as before. -/
structure NoTrace (cfg : RuntimeConfig) (w w' : World) : Prop where
  core : SameCore w w'
  files : ∀ p, storageUploadsDir cfg ++ lit "/" <+: p → w'.files p = w.files p

/-- The reply that announces a job. -/
def jobReply (id : Nat) : Bytes := lit "JOB " ++ decimal id ++ lit "\n"

/-- However the request fails, it leaves no trace. -/
def LeavesNoTrace (codec : PngCodec) (cfg : RuntimeConfig) (client : ClientSession)
    (r : ProtocolRequest) (s : Sys) : Prop :=
  ∀ s' marks, Runs (machine codec) .main (answerUserCommand cfg client r) s () s' →
    s'.history = marks ++ s.history →
    (∀ id, .reply client.fd (jobReply id) ∉ marks) → NoTrace cfg s.world s'.world

/-- The request's PNG is not stored: it is not even asked for, or it does not arrive and
there is no file to overwrite. -/
def Unstored (cfg : RuntimeConfig) (client : ClientSession) (r : ProtocolRequest)
    (w : World) : Prop :=
  r.command = .encodeFile ∧ r.size2.toNat > maxFilenameBytes ∨
    (r.size1 = 0 ∨ r.size1 > cfg.max_upload_bytes) ∨
    (arriving (w.streams client.fd)).length < r.size1.toNat ∧
      w.files (uploadPath cfg w.next_id (lit "png")) = none

/-! What arrives. -/

@[simp] theorem arriving_eintr (es : Stream) : arriving (.eintr :: es) = arriving es := by
  simp [arriving, ReadEvent.bytes]

@[simp] theorem arriving_error (es : Stream) : arriving (.error :: es) = [] := by
  simp [arriving]

@[simp] theorem arriving_chunk (b : UInt8) (bs : Bytes) (es : Stream) :
    arriving (.chunk b bs :: es) = b :: bs ++ arriving es := by
  simp [arriving, ReadEvent.bytes]

theorem arriving_unread (bs : Bytes) (es : Stream) :
    arriving (unread bs es) = bs ++ arriving es := by
  cases bs with
  | nil => rfl
  | cons b bs => exact arriving_chunk b bs es

/-- A read cuts off some of the bytes that arrive, or there are none. -/
theorem readRetry_arriving {want : Nat} {es : Stream} (hwant : 0 < want) :
    arriving es = [] ∧ (∃ es', readRetry want es = (.error, es') ∨
      readRetry want es = (.eof, es')) ∨
      ∃ b bs es', readRetry want es = (.data b bs, es') ∧ arriving es = b :: bs ++ arriving es' ∧
        bs.length + 1 ≤ want := by
  induction es with
  | nil => exact .inl ⟨rfl, [], .inr rfl⟩
  | cons e es ih =>
    cases e with
    | eintr =>
      rw [arriving_eintr]
      exact ih
    | error => exact .inl ⟨arriving_error es, es, .inl rfl⟩
    | chunk b bs =>
      refine .inr ⟨b, bs.take (want - 1), _, rfl, ?_, ?_⟩
      · rw [arriving_chunk, arriving_unread, List.cons_append, List.cons_append,
          ← List.append_assoc, List.take_append_drop]
      · rw [List.length_take]
        omega

section

variable {adm : Env → Prop} {codec : PngCodec} {cfg : RuntimeConfig}
  {client : ClientSession} {t : Tid} {s s' : Sys} {fd : Int} {path : Bytes} {n : Nat}

theorem receiveLoop_short {b : Bool}
    (h : Runs (machineIn adm codec) t (receiveLoop fd path n) s b s')
    (hshort : (arriving (s.world.streams fd)).length < n) : b = false := by
  induction n using Nat.strong_induction_on generalizing s with
  | _ n ih =>
    rw [receiveLoop, if_neg (by omega), runs_call_bind] at h
    obtain ⟨r, s₁, ⟨e, marks, -, hexec, -⟩, h⟩ := h
    simp only [exec, Option.some.injEq, Prod.mk.injEq] at hexec
    obtain ⟨hr, hworld, -⟩ := hexec
    have hwant := chunk_pos (show n ≠ 0 by omega)
    rcases readRetry_arriving hwant with ⟨-, es', hnone | hnone⟩ | ⟨x, xs, es', hread, hcut, hle⟩
    · rw [hnone] at hr
      subst hr
      exact (Runs.ret_iff.mp h).1
    · rw [hnone] at hr
      subst hr
      exact (Runs.ret_iff.mp h).1
    · rw [hread] at hr hworld
      subst hr
      dsimp only at h
      rw [runs_call_bind] at h
      obtain ⟨written, s₂, ⟨e₂, marks₂, -, hexec₂, -⟩, h⟩ := h
      simp only [exec, Option.some.injEq, Prod.mk.injEq] at hexec₂
      obtain ⟨-, hworld₂, -⟩ := hexec₂
      split at h
      · exact (Runs.ret_iff.mp h).1
      · have hstream : s₂.world.streams fd = es' := by
          rw [← hworld₂, ← hworld]
          simp
        refine ih (n - (xs.length + 1)) (by omega) h ?_
        rw [hcut, List.length_append, List.length_cons] at hshort
        rw [hstream]
        omega

theorem receiveLoop_full {now : Nat} {b : Bool}
    (h : Runs (machineIn (Calm now) codec) t (receiveLoop fd path n) s b s')
    (hfull : n ≤ (arriving (s.world.streams fd)).length)
    (hfile : (s.world.files path).isSome = true) :
    b = true ∧ (s'.world.files path).isSome = true := by
  induction n using Nat.strong_induction_on generalizing s with
  | _ n ih =>
    rw [receiveLoop] at h
    by_cases h0 : n = 0
    · rw [if_pos h0] at h
      obtain ⟨rfl, rfl⟩ := Runs.ret_iff.mp h
      exact ⟨rfl, hfile⟩
    · rw [if_neg h0, runs_call_bind] at h
      obtain ⟨r, s₁, ⟨e, marks, -, hexec, -⟩, h⟩ := h
      simp only [exec, Option.some.injEq, Prod.mk.injEq] at hexec
      obtain ⟨hr, hworld, -⟩ := hexec
      have hwant := chunk_pos h0
      rcases readRetry_arriving hwant with ⟨hnone, -⟩ | ⟨x, xs, es', hread, hcut, hle⟩
      · rw [hnone, List.length_nil] at hfull
        omega
      · rw [hread] at hr hworld
        subst hr
        dsimp only at h
        rw [runs_call_bind] at h
        obtain ⟨written, s₂, ⟨e₂, marks₂, hcalm, hexec₂, -⟩, h⟩ := h
        simp only [exec, hcalm.1, if_true, Option.some.injEq, Prod.mk.injEq] at hexec₂
        obtain ⟨rfl, hworld₂, -⟩ := hexec₂
        simp only [Bool.not_true, Bool.false_eq_true, if_false] at h
        have hstream : s₂.world.streams fd = es' := by
          rw [← hworld₂, ← hworld]
          simp
        refine ih (n - (xs.length + 1)) (by omega) h ?_ ?_
        · rw [hcut, List.length_append, List.length_cons] at hfull
          rw [hstream]
          omega
        · rw [← hworld₂, ← hworld, World.writeFile_files, Option.isSome_map]
          exact hfile

end

/-! What receiving an upload performs: reads from the session, calls on one file, and refusals. -/

section

variable {C : Op → Prop} {cfg : RuntimeConfig} {client : ClientSession} {fd : Int}

theorem error_ops (herr : ∀ text, lit "ERR " <+: text → C (.writeAll fd text)) {text : Bytes}
    (htext : lit "ERR " <+: text) : (sendResponsef fd text).All C := by
  unfold sendResponsef
  split
  · exact Prog.all_pure _
  · exact (Prog.all_perform _).mpr (herr text htext)

theorem refusal_ops (herr : ∀ text, lit "ERR " <+: text → C (.writeAll fd text)) {text : Bytes}
    (htext : lit "ERR " <+: text) {α : Type} (a : α) :
    (sendResponsef fd text >>= fun _ => pure a).All C :=
  (error_ops herr htext).bind fun _ => Prog.all_pure _

theorem receiveLoop_ops {path : Bytes} (hread : ∀ want, C (.read fd want))
    (hfile : ∀ o : Op, o.writes = some path → C o) (n : Nat) : (receiveLoop fd path n).All C := by
  induction n using Nat.strong_induction_on with
  | _ n ih =>
    rw [receiveLoop]
    split
    · exact Prog.all_pure _
    · refine ((Prog.all_perform _).mpr (hread _)).bind fun r => ?_
      cases r with
      | error => exact Prog.all_pure _
      | eof => exact Prog.all_pure _
      | data b bs =>
        refine ((Prog.all_perform _).mpr (hfile _ rfl)).bind fun written => ?_
        split
        · exact Prog.all_pure _
        · exact ih _ (by omega)

theorem storageReceiveToFile_ops {path : Bytes} (hread : ∀ want, C (.read fd want))
    (hfile : ∀ o : Op, o.writes = some path → C o) (n : Nat) :
    (storageReceiveToFile fd n path).All C := by
  have hcall : ∀ {o : Op}, o.writes = some path → (call o).All C :=
    fun ho => (Prog.all_perform _).mpr (hfile _ ho)
  refine (hcall (o := .fopenWb path) rfl).bind fun opened => ?_
  split
  · exact Prog.all_pure _
  · refine (receiveLoop_ops hread hfile n).bind fun received => ?_
    split
    · exact (hcall (o := .fclose path) rfl).bind fun _ =>
        (hcall (o := .unlink path) rfl).bind fun _ => Prog.all_pure _
    · refine (hcall (o := .fclose path) rfl).bind fun closed => ?_
      split
      · exact (hcall (o := .unlink path) rfl).bind fun _ => Prog.all_pure _
      · exact Prog.all_pure _

theorem storageMakeUploadPath_some {id : Nat} {suffix path : Bytes}
    (h : storageMakeUploadPath cfg id suffix = some path) :
    path = uploadPath cfg id suffix := by
  unfold storageMakeUploadPath at h
  dsimp only at h
  split at h
  · cases h
  · exact (Option.some.inj h).symm

theorem receivePngToUpload_ops (hnext : C .nextId) (hread : ∀ want, C (.read client.fd want))
    (hfile : ∀ id (o : Op), o.writes = some (uploadPath cfg id (lit "png")) → C o)
    (herr : ∀ text, lit "ERR " <+: text → C (.writeAll client.fd text)) (size : UInt64) :
    (receivePngToUpload cfg client size).All C := by
  unfold receivePngToUpload
  split
  · exact refusal_ops herr ⟨_, rfl⟩ none
  · refine ((Prog.all_perform (C := C) .nextId).mpr hnext).bind fun id => ?_
    cases hpath : storageMakeUploadPath cfg id (lit "png") with
    | none => exact refusal_ops herr ⟨_, rfl⟩ none
    | some path =>
      obtain rfl := storageMakeUploadPath_some hpath
      refine (storageReceiveToFile_ops hread (hfile id) _).bind fun received => ?_
      split
      · exact refusal_ops herr ⟨_, rfl⟩ none
      · exact Prog.all_pure _

theorem receiveExtraToFile_ops {suffix : Bytes} (hread : ∀ want, C (.read fd want))
    (hfile : ∀ id (o : Op), o.writes = some (uploadPath cfg id suffix) → C o)
    (herr : ∀ text, lit "ERR " <+: text → C (.writeAll fd text))
    (size max : UInt64) (label : Bytes) (id : Nat) :
    (receiveExtraToFile cfg fd size max label id suffix).All C := by
  have hlabel : ∀ rest, lit "ERR " <+: lit "ERR " ++ label ++ rest :=
    fun rest => ⟨label ++ rest, by rw [List.append_assoc]⟩
  unfold receiveExtraToFile
  split
  · exact refusal_ops herr (hlabel _) none
  · cases hpath : storageMakeUploadPath cfg id suffix with
    | none => exact refusal_ops herr ⟨_, rfl⟩ none
    | some path =>
      obtain rfl := storageMakeUploadPath_some hpath
      dsimp only
      split
      · refine ((Prog.all_perform _).mpr (hfile id (.fopenWb _) rfl)).bind fun opened => ?_
        split
        · exact refusal_ops herr ⟨_, rfl⟩ none
        · refine ((Prog.all_perform _).mpr (hfile id (.fclose _) rfl)).bind fun closed => ?_
          split
          · exact refusal_ops herr ⟨_, rfl⟩ none
          · exact Prog.all_pure _
      · refine (storageReceiveToFile_ops hread (hfile id) _).bind fun received => ?_
        split
        · exact refusal_ops herr (hlabel _) none
        · exact Prog.all_pure _

end

/-! After the PNG. -/

/-- Every call that can fail does. -/
def Failing (e : Env) : Prop := e.ok = false

/-- No job is announced to the session. -/
def Unannounced (fd : Int) (s s' : Sys) : Prop :=
  Grows (fun mark => ∀ id, mark ≠ .reply fd (jobReply id)) s s'

/-- No PNG changes and no job is announced. -/
def Abandoned (cfg : RuntimeConfig) (client : ClientSession) (s s' : Sys) : Prop :=
  (∀ id, s'.world.files (uploadPath cfg id (lit "png")) =
    s.world.files (uploadPath cfg id (lit "png"))) ∧
    Unannounced client.fd s s'

/-- The operation neither touches a PNG nor announces a job. -/
def Op.Aside (cfg : RuntimeConfig) (client : ClientSession) (o : Op) : Prop :=
  (∀ id, o.writes ≠ some (uploadPath cfg id (lit "png"))) ∧
    ∀ id, o ≠ .writeAll client.fd (jobReply id)

/-- The rest of a command abandons its upload where every call fails. -/
structure Abandons (codec : PngCodec) (cfg : RuntimeConfig) (client : ClientSession)
    (p : Task Unit) : Prop where
  prompt : p.All fun o => o.waits = false
  abandoned : ∀ t s s', Runs (machineIn Failing codec) t p s () s' → Abandoned cfg client s s'

/-- The command receives its PNG first, and `f` goes on from there. -/
structure PngFirst (codec : PngCodec) (cfg : RuntimeConfig) (client : ClientSession)
    (r : ProtocolRequest) (f : Option Bytes → Task Unit) : Prop where
  answer : answerUserCommand cfg client r = receivePngToUpload cfg client r.size1 >>= f
  stops : f none = pure ()
  abandons : ∀ png_path, Abandons codec cfg client (f (some png_path))

theorem error_ne_jobReply {text : Bytes} (htext : lit "ERR " <+: text) (id : Nat) :
    text ≠ jobReply id := by
  rintro rfl
  obtain ⟨rest, hrest⟩ := htext
  have hhead := congrArg List.head? hrest
  have hjob : (jobReply id).head? = some 74 := rfl
  rw [hjob] at hhead
  cases hhead

section

variable {adm : Env → Prop} {codec : PngCodec} {cfg : RuntimeConfig}
  {client : ClientSession} {t : Tid} {s s' : Sys} {fd : Int} {α : Type} {a : α} {p : Task α}

theorem runs_unannounced (hp : p.All fun o => ∀ id, o ≠ .writeAll fd (jobReply id))
    (h : Runs (machineIn adm codec) t p s a s') : Unannounced fd s s' := by
  refine Runs.preserves (P := Unannounced fd s) ?_ hp grows_refl h
  rintro o s₁ b s₂ ho hs ⟨e, marks, -, hexec, hhistory⟩
  refine hs.trans ⟨marks, hhistory, ?_⟩
  rintro mark hmem id rfl
  exact ho id (exec_reply hexec hmem)

theorem Effect.files {o : Op} {w w' : World} {marks : List Mark} (h : Effect t w o w' marks)
    {path : Bytes} (ho : o.writes ≠ some path) : w'.files path = w.files path := by
  cases h with
  | quiet _ hfiles => rw [hfiles]
  | input _ _ hfiles => rw [hfiles]
  | file hwrites _ hfiles => exact hfiles path fun hpath => ho (hpath ▸ hwrites)
  | _ => rfl

theorem runs_files {path : Bytes} (hp : p.All fun o => o.writes ≠ some path)
    (h : Runs (machineIn adm codec) t p s a s') :
    s'.world.files path = s.world.files path := by
  refine Runs.preserves (P := fun s₁ => s₁.world.files path = s.world.files path) ?_ hp rfl h
  rintro o s₁ b s₂ ho hs ⟨e, marks, -, hexec, -⟩
  exact ((exec_effect hexec).files ho).trans hs

theorem Abandoned.trans {s₁ : Sys} (h : Abandoned cfg client s s₁)
    (h' : Abandoned cfg client s₁ s') :
    Abandoned cfg client s s' :=
  ⟨fun id => (h'.1 id).trans (h.1 id), Grows.trans h.2 h'.2⟩

theorem runs_abandoned (hp : p.All (Op.Aside cfg client))
    (h : Runs (machineIn adm codec) t p s a s') :
    Abandoned cfg client s s' :=
  ⟨fun id => runs_files (Prog.All.mono (fun _ ho => ho.1 id) hp) h,
    runs_unannounced (Prog.All.mono (fun _ ho => ho.2) hp) h⟩

theorem error_aside {text : Bytes} (htext : lit "ERR " <+: text) :
    (Op.writeAll client.fd text).Aside cfg client :=
  ⟨nofun, fun id heq => error_ne_jobReply htext id (Op.writeAll.inj heq).2⟩

/-- Without memory for a record no job is made. -/
theorem enqueueJob_failing {type : JobType} {payload input_path stored_path : Option Bytes}
    {b : Bool} (h : Runs (machineIn Failing codec) t
      (enqueueJob client type payload input_path stored_path) s b s') :
    Abandoned cfg client s s' := by
  rw [enqueueJob, runs_call_bind] at h
  obtain ⟨created, s₁, ⟨e, marks, hfailing, hexec, hhistory⟩, h⟩ := h
  simp only [exec, Failing] at hexec hfailing
  simp only [hfailing, Bool.not_false, if_true] at hexec
  obtain ⟨rfl, hworld, rfl⟩ : none = created ∧ s.world = s₁.world ∧ [] = marks := by
    simpa using hexec
  have hsame : s₁ = s := by
    obtain ⟨w, history⟩ := s₁
    obtain rfl : s.world = w := hworld
    obtain rfl : history = s.history := hhistory
    rfl
  rw [hsame] at h
  exact runs_abandoned (error_ops (fun _ => error_aside) ⟨_, rfl⟩) h

theorem refusal_abandons {text : Bytes} (htext : lit "ERR " <+: text) :
    Abandons codec cfg client (sendResponsef client.fd text >>= fun _ => pure ()) where
  prompt := refusal_ops (fun _ _ => rfl) htext ()
  abandoned _ _ _ h := runs_abandoned (refusal_ops (fun _ => error_aside) htext ()) h

theorem abandons_call {o : Op} {f : Ans o → Task Unit} (ho : o.waits = false)
    (haside : o.Aside cfg client) (hf : ∀ b, Abandons codec cfg client (f b)) :
    Abandons codec cfg client (call o >>= f) where
  prompt := ((Prog.all_perform (C := fun o : Op => o.waits = false) o).mpr ho).bind fun b =>
    (hf b).prompt
  abandoned := by
    intro t s s' h
    obtain ⟨b, s₁, hcall, h⟩ := Runs.bind_iff.mp h
    exact (runs_abandoned ((Prog.all_perform _).mpr haside) hcall).trans
      ((hf b).abandoned t s₁ s' h)

theorem extra_abandons {size max : UInt64} {label suffix png_path : Bytes} {type : JobType}
    {payload : Option Bytes} (hsuffix : suffix ≠ lit "png")
    (hlabel : lit "ERR " ++ label ++ lit " receive failed\n" ∉ sizeErrors) :
    Abandons codec cfg client (do
      let next_id ← call .nextId
      match ← receiveExtraToFile cfg client.fd size max label next_id suffix with
      | none => return ()
      | some path => let _ ← enqueueJob client type payload (some png_path) (some path)) := by
  refine abandons_call rfl ⟨nofun, nofun⟩ fun id => ⟨?_, fun t s s' h => ?_⟩
  · refine (receiveExtraToFile_all (fun _ ho _ _ _ _ => ho) _ _ _ _ _ _
      (fun _ _ => rfl) hlabel).bind
      fun extra => ?_
    cases extra with
    | none => exact Prog.all_pure _
    | some path =>
      exact (enqueueJob_all (fun _ ho _ _ _ => ho) _ _ _ _).bind fun _ => Prog.all_pure _
  · have hread : ∀ want, (Op.read client.fd want).Aside cfg client := fun _ => ⟨nofun, nofun⟩
    have hfile : ∀ id (o : Op), o.writes = some (uploadPath cfg id suffix) →
      o.Aside cfg client := by
      rintro id o ho
      refine ⟨fun id' hpng => hsuffix ?_, ?_⟩
      · exact (jobFilePath_injective (Option.some.inj (ho.symm.trans hpng))).2
      · rintro id' rfl
        cases ho
    obtain ⟨extra, s₁, hextra, h⟩ := Runs.bind_iff.mp h
    have hreceived : Abandoned cfg client s s₁ :=
      runs_abandoned (receiveExtraToFile_ops hread hfile (fun _ => error_aside) _ _ _ _) hextra
    cases extra with
    | none =>
      obtain ⟨-, rfl⟩ := Runs.ret_iff.mp h
      exact hreceived
    | some path =>
      obtain ⟨b, s₂, henqueue, h⟩ := Runs.bind_iff.mp h
      obtain ⟨-, rfl⟩ := Runs.ret_iff.mp h
      exact hreceived.trans (enqueueJob_failing henqueue)

theorem pngUpload_abandons {png_path : Bytes} {type : JobType} :
    Abandons codec cfg client (enqueueJob client type none (some png_path) none >>=
      fun _ => pure ()) where
  prompt := (enqueueJob_all (fun _ ho _ _ _ => ho) _ _ _ _).bind fun _ => Prog.all_pure _
  abandoned := by
    intro t s s' h
    obtain ⟨b, s₁, henqueue, h⟩ := Runs.bind_iff.mp h
    obtain ⟨-, rfl⟩ := Runs.ret_iff.mp h
    exact enqueueJob_failing henqueue

theorem encodeText_abandons {r : ProtocolRequest} {png_path : Bytes} :
    Abandons codec cfg client (do
      let next_id ← call .nextId
      match ← receiveExtraToFile cfg client.fd r.size2 (UInt64.ofNat maxTextBytes)
        (lit "text") next_id (lit "txt") with
      | none => return ()
      | some text_path =>
        let _ ← enqueueJob client .encodeText none (some png_path) (some text_path)) :=
  extra_abandons (by decide) (by decide)

theorem encodeFileBody_abandons {r : ProtocolRequest} {png_path filename : Bytes} :
    Abandons codec cfg client (handleEncodeFileBody cfg client r png_path filename) :=
  extra_abandons (by decide) (by decide)

theorem encodeFile_abandons {r : ProtocolRequest} {png_path : Bytes} :
    Abandons codec cfg client (if r.size2 > 0 then do
        match ← call (.readExact client.fd r.size2.toNat) with
        | none => let _ ← sendResponsef client.fd (lit "ERR filename read failed\n")
        | some filename =>
          if filename.length ≠ r.size2.toNat then
            let _ ← sendResponsef client.fd (lit "ERR filename read failed\n")
          else
            handleEncodeFileBody cfg client r png_path filename
      else handleEncodeFileBody cfg client r png_path []) := by
  split
  · refine abandons_call rfl ⟨nofun, nofun⟩ fun name => ?_
    cases name with
    | none => exact refusal_abandons ⟨_, rfl⟩
    | some filename =>
      dsimp only
      split
      · exact refusal_abandons ⟨_, rfl⟩
      · exact encodeFileBody_abandons
  · exact encodeFileBody_abandons

/-- Every upload command stores a PNG first, and can then give up. -/
theorem answerUpload_eq {r : ProtocolRequest} (hupload : r.command ∈ uploadCommands)
    (hname : ¬ (r.command = .encodeFile ∧ r.size2.toNat > maxFilenameBytes)) :
    ∃ f, PngFirst codec cfg client r f := by
  suffices hfirst : ∃ f : Option Bytes → Task Unit, answerUserCommand cfg client r =
      receivePngToUpload cfg client r.size1 >>= f ∧ f none = pure () ∧
      ∀ png_path, Abandons codec cfg client (f (some png_path)) by
    obtain ⟨f, hanswer, hstops, habandons⟩ := hfirst
    exact ⟨f, hanswer, hstops, habandons⟩
  simp only [uploadCommands, List.mem_cons, List.not_mem_nil, or_false] at hupload
  rcases hupload with hcommand | hcommand | hcommand | hcommand | hcommand <;>
    simp only [answerUserCommand, hcommand]
  · exact ⟨_, rfl, rfl, fun _ => encodeText_abandons⟩
  · rw [handleEncodeFile, if_neg fun hlong => hname ⟨hcommand, hlong⟩]
    exact ⟨_, rfl, rfl, fun _ => encodeFile_abandons⟩
  all_goals exact ⟨_, rfl, rfl, fun _ => pngUpload_abandons⟩

end

/-! The PNG. -/

section

variable {adm : Env → Prop} {codec : PngCodec} {cfg : RuntimeConfig}
  {client : ClientSession} {t : Tid} {s s' : Sys} {fd : Int} {path : Bytes} {n : Nat}
  {size : UInt64} {α : Type} {a : α} {p : Task α}

theorem runs_core (hp : p.All fun o => o.waits = false ∧ o.ofJobs = false)
    (h : Runs (machineIn adm codec) t p s a s') :
    SameCore s.world s'.world := by
  refine Runs.preserves (P := fun s₁ => SameCore s.world s₁.world) ?_ hp (.refl _) h
  rintro o s₁ b s₂ ⟨hwaits, hjobs⟩ hs ⟨e, marks, -, hexec, -⟩
  have hcore : SameCore s₁.world s₂.world := by
    obtain ⟨w, history⟩ := s₂
    have heffect := exec_effect hexec
    dsimp only at heffect ⊢
    cases heffect with
    | quiet hcore => exact hcore
    | input _ hcore => exact hcore
    | file _ hcore => exact hcore
    | event => exact .refl _
    | popped _ => cases hwaits
    | _ => cases hjobs
  exact ⟨hcore.jobs.trans hs.jobs, hcore.next_id.trans hs.next_id, hcore.queue.trans hs.queue⟩

theorem storageReceiveToFile_core {b : Bool}
    (h : Runs (machineIn adm codec) t (storageReceiveToFile fd n path) s b s') :
    SameCore s.world s'.world := by
  refine runs_core (storageReceiveToFile_ops (fun _ => ⟨rfl, rfl⟩) (fun o ho => ?_) n) h
  cases o <;> first
    | exact ⟨rfl, rfl⟩
    | cases ho

theorem storageReceiveToFile_files {b : Bool} {q : Bytes} (hq : q ≠ path)
    (h : Runs (machineIn adm codec) t (storageReceiveToFile fd n path) s b s') :
    s'.world.files q = s.world.files q := by
  have hread : ∀ want, (Op.read fd want).writes ≠ some q := fun _ => nofun
  have hfile : ∀ o : Op, o.writes = some path → o.writes ≠ some q :=
    fun o ho hwrites => hq (Option.some.inj (hwrites.symm.trans ho))
  exact runs_files (storageReceiveToFile_ops hread hfile n) h

/-- Whatever fails, the file that was to be written is deleted again. -/
theorem storageReceiveToFile_fails
    (h : Runs (machineIn adm codec) t (storageReceiveToFile fd n path) s false s')
    (hnone : s.world.files path = none) : s'.world.files path = none := by
  have hdeleted : ∀ {s₁ s₂ : Sys} {u : Unit},
      (machineIn adm codec).step t (.unlink path) s₁ u s₂ → s₂.world.files path = none := by
    rintro s₁ s₂ u ⟨e, marks, -, hexec, -⟩
    simp only [exec, Option.some.injEq, Prod.mk.injEq] at hexec
    rw [← hexec.2.1, World.writeFile_files]
  rw [storageReceiveToFile, runs_call_bind] at h
  obtain ⟨opened, s₁, ⟨e, marks, -, hexec, -⟩, h⟩ := h
  simp only [exec, Option.some.injEq, Prod.mk.injEq] at hexec
  obtain ⟨rfl, hworld, -⟩ := hexec
  split at h
  · next hfailed =>
    obtain ⟨-, rfl⟩ := Runs.ret_iff.mp h
    have hok : e.ok = false := by simpa using hfailed
    simp only [hok, Bool.false_eq_true, if_false] at hworld
    exact hworld ▸ hnone
  · obtain ⟨received, s₂, -, h⟩ := Runs.bind_iff.mp h
    split at h
    · rw [runs_call_bind] at h
      obtain ⟨closed, s₃, -, h⟩ := h
      obtain ⟨u, s₄, hunlink, h⟩ := runs_call_bind.mp h
      obtain ⟨-, rfl⟩ := Runs.ret_iff.mp h
      exact hdeleted hunlink
    · rw [runs_call_bind] at h
      obtain ⟨closed, s₃, -, h⟩ := h
      split at h
      · obtain ⟨u, s₄, hunlink, h⟩ := runs_call_bind.mp h
        obtain ⟨-, rfl⟩ := Runs.ret_iff.mp h
        exact hdeleted hunlink
      · cases (Runs.ret_iff.mp h).1

theorem storageReceiveToFile_short {b : Bool}
    (h : Runs (machineIn adm codec) t (storageReceiveToFile fd n path) s b s')
    (hshort : (arriving (s.world.streams fd)).length < n) : b = false := by
  rw [storageReceiveToFile, runs_call_bind] at h
  obtain ⟨opened, s₁, ⟨e, marks, -, hexec, -⟩, h⟩ := h
  simp only [exec, Option.some.injEq, Prod.mk.injEq] at hexec
  split at h
  · exact (Runs.ret_iff.mp h).1
  · obtain ⟨received, s₂, hloop, h⟩ := Runs.bind_iff.mp h
    have hstream : s₁.world.streams fd = s.world.streams fd := by
      rw [← hexec.2.1]
      split <;> rfl
    obtain rfl := receiveLoop_short hloop (by rw [hstream]; exact hshort)
    simp only [Bool.not_false, if_true] at h
    rw [runs_call_bind] at h
    obtain ⟨closed, s₃, -, h⟩ := h
    obtain ⟨u, s₄, -, h⟩ := runs_call_bind.mp h
    exact (Runs.ret_iff.mp h).1

theorem storageReceiveToFile_full {now : Nat} {b : Bool}
    (h : Runs (machineIn (Calm now) codec) t (storageReceiveToFile fd n path) s b s')
    (hfull : n ≤ (arriving (s.world.streams fd)).length) :
    b = true ∧ (s'.world.files path).isSome = true := by
  rw [storageReceiveToFile, runs_call_bind] at h
  obtain ⟨opened, s₁, ⟨e, marks, hcalm, hexec, -⟩, h⟩ := h
  simp only [exec, hcalm.1, if_true, Option.some.injEq, Prod.mk.injEq] at hexec
  obtain ⟨rfl, hworld, -⟩ := hexec
  simp only [Bool.not_true, Bool.false_eq_true, if_false] at h
  obtain ⟨received, s₂, hloop, h⟩ := Runs.bind_iff.mp h
  have hstream : s₁.world.streams fd = s.world.streams fd := by
    rw [← hworld]
    rfl
  have hcreated : (s₁.world.files path).isSome = true := by
    rw [← hworld, World.writeFile_files]
    rfl
  obtain ⟨rfl, hkept⟩ := receiveLoop_full hloop (by rw [hstream]; exact hfull) hcreated
  simp only [Bool.not_true, Bool.false_eq_true, if_false] at h
  rw [runs_call_bind] at h
  obtain ⟨closed, s₃, ⟨e₃, marks₃, hcalm₃, hexec₃, -⟩, h⟩ := h
  simp only [exec, hcalm₃.1, if_true, Option.some.injEq, Prod.mk.injEq] at hexec₃
  obtain ⟨rfl, hworld₃, -⟩ := hexec₃
  obtain ⟨rfl, rfl⟩ := Runs.ret_iff.mp h
  exact ⟨rfl, hworld₃ ▸ hkept⟩

/-- Receiving the PNG into its file. -/
def storePng (fd : Int) (size : Nat) (path : Bytes) : Task (Option Bytes) := do
  if !(← storageReceiveToFile fd size path) then
    let _ ← sendResponsef fd (lit "ERR upload failed\n")
    return none
  return some path

/-- A PNG of an accepted size is received into the file of the next job. -/
theorem receivePngToUpload_runs {res : Option Bytes} (hadm : ∃ e, adm e)
    (hsize : ¬ (size = 0 ∨ size > cfg.max_upload_bytes)) (hid : s.world.next_id < 2 ^ 64) :
    Runs (machineIn adm codec) t (receivePngToUpload cfg client size) s res s' ↔
      Runs (machineIn adm codec) t (storePng client.fd size.toNat
        (uploadPath cfg s.world.next_id (lit "png"))) s res s' := by
  obtain ⟨e, he⟩ := hadm
  rw [receivePngToUpload, if_neg hsize, runs_call_bind]
  have hpath : storageMakeUploadPath cfg s.world.next_id (lit "png") =
    some (uploadPath cfg s.world.next_id (lit "png")) :=
    storageMakeUploadPath_eq cfg hid (by decide)
  constructor
  · rintro ⟨id, s₀, ⟨e', marks, -, hexec, hhistory⟩, h⟩
    obtain ⟨w, history⟩ := s₀
    simp only [exec, Option.some.injEq, Prod.mk.injEq] at hexec
    obtain ⟨rfl, rfl, rfl⟩ := hexec
    obtain rfl : history = s.history := hhistory
    rw [hpath] at h
    exact h
  · intro h
    refine ⟨s.world.next_id, s, ⟨e, [], he, rfl, rfl⟩, ?_⟩
    rw [hpath]
    exact h

/-- A PNG that is not stored leaves everything as it was, if it did not overwrite a file. -/
theorem storePng_none (h : Runs (machineIn adm codec) t (storePng fd n path) s none s')
    (hnone : s.world.files path = none) :
    SameCore s.world s'.world ∧ s'.world.files = s.world.files := by
  obtain ⟨received, s₁, hreceive, h⟩ := Runs.bind_iff.mp h
  split at h
  · next hfailed =>
    obtain rfl : received = false := by simpa using hfailed
    obtain ⟨told, s₂, htell, h⟩ := Runs.bind_iff.mp h
    obtain ⟨-, rfl⟩ := Runs.ret_iff.mp h
    rw [sendResponsef_runs htell]
    refine ⟨storageReceiveToFile_core hreceive, funext fun q => ?_⟩
    by_cases hq : q = path
    · rw [hq, storageReceiveToFile_fails hreceive hnone, hnone]
    · exact storageReceiveToFile_files hq hreceive
  · cases (Runs.ret_iff.mp h).1

theorem storePng_short {res : Option Bytes}
    (h : Runs (machineIn adm codec) t (storePng fd n path) s res s')
    (hshort : (arriving (s.world.streams fd)).length < n) : res = none := by
  obtain ⟨received, s₁, hreceive, h⟩ := Runs.bind_iff.mp h
  obtain rfl := storageReceiveToFile_short hreceive hshort
  obtain ⟨told, s₂, -, h⟩ := Runs.bind_iff.mp h
  exact (Runs.ret_iff.mp h).1

theorem receiveLoop_failing {b : Bool} (hn : 0 < n)
    (h : Runs (machineIn Failing codec) t (receiveLoop fd path n) s b s') :
    b = false := by
  rw [receiveLoop, if_neg (by omega), runs_call_bind] at h
  obtain ⟨r, s₁, -, h⟩ := h
  cases r with
  | error => exact (Runs.ret_iff.mp h).1
  | eof => exact (Runs.ret_iff.mp h).1
  | data x xs =>
    dsimp only at h
    rw [runs_call_bind] at h
    obtain ⟨written, s₂, ⟨e, marks, hfailing, hexec, -⟩, h⟩ := h
    simp only [exec, Option.some.injEq, Prod.mk.injEq] at hexec
    obtain ⟨rfl, -⟩ := hexec
    rw [hfailing] at h
    exact (Runs.ret_iff.mp h).1

theorem exists_failing_run (hp : p.All fun o => o.waits = false) (s : Sys) :
    ∃ a s', Runs (machineIn Failing codec) t p s a s' := by
  have hfailing : ∃ e, Failing e := ⟨{ ok := false }, rfl⟩
  exact Runs.exists_of_all (fun _ ho => exists_step hfailing codec t ho) hp s

theorem file_prompt (o : Op) (ho : o.writes = some path) : o.waits = false := by
  cases o <;> first
    | rfl
    | cases ho

theorem error_prompt (fd : Int) (text : Bytes) : (sendResponsef fd text).All fun o =>
    o.waits = false := by
  unfold sendResponsef
  split
  · exact Prog.all_pure _
  · exact (Prog.all_perform _).mpr rfl

/-- A file can be overwritten and then lost. -/
theorem exists_lost (hn : 0 < n) (s : Sys) :
    ∃ s', Runs (machine codec) t (storePng fd n path) s none s' ∧ s'.world.files path = none := by
  have hmono : ∀ {adm : Env → Prop} {α : Type} {p : Task α} {s s' : Sys} {a : α},
      Runs (machineIn adm codec) t p s a s' → Runs (machine codec) t p s a s' :=
    fun hrun => machineIn_mono (fun _ _ => trivial) hrun
  have hopen : (machine codec).step t (.fopenWb path) s true
    ⟨s.world.writeFile path (some []), s.history⟩ :=
    ⟨{}, [], trivial, rfl, rfl⟩
  obtain ⟨received, s₁, hloop⟩ : ∃ received s₁,
    Runs (machineIn Failing codec) t (receiveLoop fd path n)
      ⟨s.world.writeFile path (some []), s.history⟩ received s₁ :=
    exists_failing_run (receiveLoop_ops (fun _ => rfl) file_prompt n) _
  obtain rfl := receiveLoop_failing hn hloop
  obtain ⟨closed, s₂, hclose⟩ : ∃ closed s₂, (machine codec).step t (.fclose path) s₁ closed s₂ :=
    exists_step ⟨{}, trivial⟩ codec t rfl s₁
  have hunlink : (machine codec).step t (.unlink path) s₂ ()
    ⟨s₂.world.writeFile path none, s₂.history⟩ :=
    ⟨{}, [], trivial, rfl, rfl⟩
  have hreceive : Runs (machine codec) t (storageReceiveToFile fd n path) s false
      ⟨s₂.world.writeFile path none, s₂.history⟩ := by
    rw [storageReceiveToFile, runs_call_bind]
    refine ⟨true, _, hopen, ?_⟩
    simp only [Bool.not_true, Bool.false_eq_true, if_false]
    refine Runs.bind_iff.mpr ⟨false, s₁, hmono hloop, ?_⟩
    exact .op hclose (.op hunlink (.ret _ _))
  obtain ⟨told, s₃, htell⟩ :=
    exists_calm_run codec 0 t (error_prompt fd (lit "ERR upload failed\n"))
    ⟨s₂.world.writeFile path none, s₂.history⟩
  refine ⟨s₃, Runs.bind_iff.mpr ⟨false, _, hreceive,
    Runs.bind_iff.mpr ⟨told, s₃, hmono htell, .ret _ _⟩⟩, ?_⟩
  rw [sendResponsef_runs htell]
  exact World.writeFile_files _ _ _

theorem exists_stored (hfull : n ≤ (arriving (s.world.streams fd)).length) :
    ∃ s', Runs (machine codec) t (storePng fd n path) s (some path) s' ∧
      (s'.world.files path).isSome = true := by
  have hprompt : (storePng fd n path).All fun o => o.waits = false := by
    refine (storageReceiveToFile_ops (fun _ => rfl) file_prompt n).bind fun received => ?_
    split
    · exact (error_prompt _ _).bind fun _ => Prog.all_pure _
    · exact Prog.all_pure _
  obtain ⟨res, s', hrun⟩ := exists_calm_run codec 0 t hprompt s
  obtain ⟨received, s₁, hreceive, h⟩ := Runs.bind_iff.mp hrun
  obtain ⟨rfl, hstored⟩ := storageReceiveToFile_full hreceive hfull
  obtain ⟨rfl, rfl⟩ := Runs.ret_iff.mp h
  exact ⟨s', machineIn_mono (fun _ _ => trivial) hrun, hstored⟩

end

section

variable {codec : PngCodec} {cfg : RuntimeConfig} {client : ClientSession} {r : ProtocolRequest}
  {s s' : Sys}

theorem uploadPath_within (cfg : RuntimeConfig) (id : Nat) (suffix : Bytes) :
    storageUploadsDir cfg ++ lit "/" <+: uploadPath cfg id suffix := by
  have hjob : lit "/job_" = lit "/" ++ lit "job_" := rfl
  refine ⟨lit "job_" ++ decimal id ++ lit "." ++ suffix, ?_⟩
  simp only [uploadPath, jobFilePath, hjob, List.append_assoc]

theorem receivePngToUpload_unannounced {res : Option Bytes} {adm : Env → Prop} {t : Tid}
    {size : UInt64} (h : Runs (machineIn adm codec) t (receivePngToUpload cfg client size) s res
      s') : Unannounced client.fd s s' := by
  have hfile : ∀ id (o : Op), o.writes = some (uploadPath cfg id (lit "png")) →
      ∀ job, o ≠ .writeAll client.fd (jobReply job) := by
    rintro id o ho job rfl
    cases ho
  refine runs_unannounced (receivePngToUpload_ops (fun _ => nofun)
    (fun _ _ => nofun) hfile ?_ size) h
  exact fun text htext id heq => error_ne_jobReply htext id (Op.writeAll.inj heq).2

/-- Where a PNG can be stored or overwritten, the command can fail with a trace. -/
theorem exists_trace (hupload : r.command ∈ uploadCommands) (hid : s.world.next_id < 2 ^ 64)
    (hstored : ¬ Unstored cfg client r s.world) :
    ∃ s', Runs (machine codec) .main (answerUserCommand cfg client r) s () s' ∧
      Unannounced client.fd s s' ∧
      s'.world.files (uploadPath cfg s.world.next_id (lit "png")) ≠
        s.world.files (uploadPath cfg s.world.next_id (lit "png")) := by
  rw [Unstored, not_or, not_or] at hstored
  obtain ⟨hname, hsize, harrives⟩ := hstored
  obtain ⟨f, hf⟩ : ∃ f, PngFirst codec cfg client r f := answerUpload_eq hupload hname
  have hadm : ∃ e : Env, True := ⟨{}, trivial⟩
  rw [hf.answer]
  cases hfile : s.world.files (uploadPath cfg s.world.next_id (lit "png")) with
  | some content =>
    have hpos : 0 < r.size1.toNat := by
      have hne : r.size1 ≠ 0 := fun h0 => hsize (.inl h0)
      exact UInt64.lt_iff_toNat_lt.mp (UInt64.pos_iff_ne_zero.mpr hne)
    obtain ⟨s', hlost, hgone⟩ : ∃ s', Runs (machine codec) .main
        (storePng client.fd r.size1.toNat (uploadPath cfg s.world.next_id (lit "png"))) s none s' ∧
        s'.world.files (uploadPath cfg s.world.next_id (lit "png")) = none := exists_lost hpos s
    have hreceive : Runs (machine codec) .main (receivePngToUpload cfg client r.size1) s none s' :=
      (receivePngToUpload_runs hadm hsize hid).mpr hlost
    refine ⟨s', Runs.bind_iff.mpr ⟨none, s', hreceive, ?_⟩,
      receivePngToUpload_unannounced hreceive, ?_⟩
    · rw [hf.stops]
      exact .ret _ _
    · rw [hgone]
      exact nofun
  | none =>
    have hfull : r.size1.toNat ≤ (arriving (s.world.streams client.fd)).length := by
      by_contra hshort
      exact harrives ⟨Nat.lt_of_not_le hshort, hfile⟩
    obtain ⟨s₁, hstores, hsome⟩ : ∃ s₁, Runs (machine codec) .main
        (storePng client.fd r.size1.toNat (uploadPath cfg s.world.next_id (lit "png"))) s
        (some (uploadPath cfg s.world.next_id (lit "png"))) s₁ ∧
        (s₁.world.files (uploadPath cfg s.world.next_id (lit "png"))).isSome = true :=
          exists_stored hfull
    have hreceive : Runs (machine codec) .main (receivePngToUpload cfg client r.size1) s
        (some (uploadPath cfg s.world.next_id (lit "png"))) s₁ :=
      (receivePngToUpload_runs hadm hsize hid).mpr hstores
    obtain ⟨_, s', hrest⟩ : ∃ a s', Runs (machineIn Failing codec) .main
        (f (some (uploadPath cfg s.world.next_id (lit "png")))) s₁ a s' :=
      exists_failing_run (hf.abandons _).prompt s₁
    obtain ⟨hkept, hsilent⟩ := (hf.abandons _).abandoned _ _ _ hrest
    refine ⟨s', Runs.bind_iff.mpr ⟨_, s₁, hreceive, machineIn_mono (fun _ _ => trivial) hrest⟩,
      Grows.trans (receivePngToUpload_unannounced hreceive) hsilent, ?_⟩
    rw [hkept]
    exact fun hgone => by rw [hgone] at hsome; cases hsome

/-- A run in which the PNG is not stored, whether `fopen`, a read, `fwrite` or `fclose` failed,
leaves no trace where there was no file to overwrite. -/
theorem unstored_png_traceless {f : Option Bytes → Task Unit}
    (hf : PngFirst codec cfg client r f) (hid : s.world.next_id < 2 ^ 64)
    (hsize : ¬ (r.size1 = 0 ∨ r.size1 > cfg.max_upload_bytes))
    (hnone : s.world.files (uploadPath cfg s.world.next_id (lit "png")) = none) {s₁ : Sys}
    (hreceive : Runs (machine codec) .main (receivePngToUpload cfg client r.size1) s none s₁)
    (hrest : Runs (machine codec) .main (f none) s₁ () s') : NoTrace cfg s.world s'.world := by
  have hstore := (receivePngToUpload_runs ⟨{}, trivial⟩ hsize hid).mp hreceive
  obtain ⟨hcore, hfiles⟩ := storePng_none hstore hnone
  rw [hf.stops] at hrest
  obtain ⟨-, rfl⟩ := Runs.ret_iff.mp hrest
  exact ⟨hcore, fun _ _ => by rw [hfiles]⟩

/-- A failing upload command leaves no trace exactly when it stores no PNG: the name is too
long, the PNG's size is refused, or the PNG does not arrive and overwrites no file. -/
theorem failed_upload_traceless (hupload : r.command ∈ uploadCommands)
    (hid : s.world.next_id < 2 ^ 64) :
    LeavesNoTrace codec cfg client r s ↔ Unstored cfg client r s.world := by
  constructor
  · intro hclean
    by_contra hstored
    obtain ⟨s', hrun, ⟨marks, hmarks, hsilent⟩, hdiffers⟩ : ∃ s', Runs (machine codec) .main
        (answerUserCommand cfg client r) s () s' ∧ Unannounced client.fd s s' ∧
        s'.world.files (uploadPath cfg s.world.next_id (lit "png")) ≠
          s.world.files (uploadPath cfg s.world.next_id (lit "png")) :=
            exists_trace hupload hid hstored
    have htrace := hclean s' marks hrun hmarks fun id hmem => hsilent _ hmem id rfl
    exact hdiffers (htrace.files _ (uploadPath_within cfg _ _))
  · intro hunstored s' marks hrun _ _
    by_cases hname : r.command = .encodeFile ∧ r.size2.toNat > maxFilenameBytes
    · obtain ⟨hcommand, hlong⟩ := hname
      simp only [answerUserCommand, hcommand] at hrun
      rw [handleEncodeFile, if_pos hlong, runs_call_bind] at hrun
      obtain ⟨b, s₁, ⟨e, marks₁, -, hexec, -⟩, hrun⟩ := hrun
      obtain ⟨told, s₂, htell, hrun⟩ := Runs.bind_iff.mp hrun
      obtain ⟨-, rfl⟩ := Runs.ret_iff.mp hrun
      simp only [exec, Option.some.injEq, Prod.mk.injEq] at hexec
      rw [sendResponsef_runs htell, ← hexec.2.1]
      exact ⟨⟨rfl, rfl, rfl⟩, fun _ _ => rfl⟩
    · by_cases hsize : r.size1 = 0 ∨ r.size1 > cfg.max_upload_bytes
      · obtain ⟨hworld, -⟩ := answerUpload_png_refuses hupload hname hsize hrun
        rw [hworld]
        exact ⟨.refl _, fun _ _ => rfl⟩
      · obtain ⟨hshort, hnone⟩ := (hunstored.resolve_left hname).resolve_left hsize
        obtain ⟨f, hf⟩ : ∃ f, PngFirst codec cfg client r f := answerUpload_eq hupload hname
        rw [hf.answer] at hrun
        obtain ⟨res, s₁, hreceive, hrun⟩ := Runs.bind_iff.mp hrun
        have hstore := (receivePngToUpload_runs ⟨{}, trivial⟩ hsize hid).mp hreceive
        obtain rfl := storePng_short hstore hshort
        exact unstored_png_traceless hf hid hsize hnone hreceive hrun

end

/-- A PNG of one byte is stored before its text turns out to be too large. -/
theorem failed_upload_trace :
    ¬ ∀ (codec : PngCodec) (cfg : RuntimeConfig) (client : ClientSession)
      (r : ProtocolRequest) (s : Sys),
      r.command ∈ uploadCommands → s.world.next_id < 2 ^ 64 →
        LeavesNoTrace codec cfg client r s := by
  intro hclaim
  let client : ClientSession := { fd := 9, type := .user, active := true }
  let r := protocolParseLine (lit "ENCODE_TEXT 1 1048577\n")
  let path := uploadPath runtimeConfigDefaults 1 (lit "png")
  let w : World := { files := fun _ => none, streams := fun _ => [.chunk 137 []] }
  let w₁ := w.writeFile path (some [])
  let w₂ := w₁.setStream client.fd []
  let w₃ := w₂.writeFile path ((w₂.files path).map (· ++ [137]))
  have hloop : Runs (machine rawCodec) .main (receiveLoop client.fd path 1) ⟨w₁, []⟩ true
    ⟨w₃, [.body [137]]⟩ := by
    rw [receiveLoop, if_neg (by decide), runs_call_bind]
    refine ⟨.data 137 [], ⟨w₂, [.body [137]]⟩, ⟨{}, [.body [137]], trivial, rfl, rfl⟩, ?_⟩
    refine runs_call_bind.mpr ⟨true, ⟨w₃, [.body [137]]⟩, ⟨{}, [], trivial, rfl, rfl⟩, ?_⟩
    rw [receiveLoop]
    exact .ret _ _
  have hreceive : Runs (machine rawCodec) .main (receivePngToUpload runtimeConfigDefaults client 1)
    ⟨w, []⟩ (some path)
      ⟨w₃, [.body [137]]⟩ := by
    refine (receivePngToUpload_runs ⟨{}, trivial⟩ (by decide) (by decide)).mpr ?_
    refine Runs.bind_iff.mpr ⟨true, ⟨w₃, [.body [137]]⟩, ?_, .ret _ _⟩
    refine runs_call_bind.mpr ⟨true, ⟨w₁, []⟩, ⟨{}, [], trivial, rfl, rfl⟩,
      Runs.bind_iff.mpr ⟨true, _, hloop, ?_⟩⟩
    exact runs_call_bind.mpr ⟨true, ⟨w₃, [.body [137]]⟩, ⟨{}, [], trivial, rfl, rfl⟩, .ret _ _⟩
  have hrun : Runs (machine rawCodec) .main (answerUserCommand runtimeConfigDefaults client r)
    ⟨w, []⟩ ()
      ⟨w₃, [.reply 9 (lit "ERR text too large\n"), .body [137]]⟩ := by
    refine Runs.bind_iff.mpr ⟨some path, _, hreceive, ?_⟩
    refine runs_call_bind.mpr ⟨1, ⟨w₃, [.body [137]]⟩, ⟨{}, [], trivial, rfl, rfl⟩, ?_⟩
    exact .op (b := true) ⟨{}, [.reply 9 (lit "ERR text too large\n")], trivial, rfl,
      rfl⟩ (.ret _ _)
  have hsilent : ∀ id, .reply client.fd (jobReply id) ∉ [.reply 9 (lit "ERR text too large\n"),
    Mark.body [137]] := by
    intro id hmem
    rcases List.mem_cons.mp hmem with heq | hmem
    · exact error_ne_jobReply ⟨lit "text too large\n", rfl⟩ id (Mark.reply.inj heq).2.symm
    · cases List.mem_singleton.mp hmem
  have hclean := hclaim rawCodec runtimeConfigDefaults client r
    ⟨w, []⟩ (by decide) (by decide) _ _ hrun rfl hsilent
  have hkept := hclean.files _ (uploadPath_within runtimeConfigDefaults 1 (lit "png"))
  exact absurd hkept (by decide)

/-- A PNG of five bytes of which one arrives. -/
theorem failed_upload_traceless_short :
    let client : ClientSession := { fd := 9, type := .user, active := true }
    let w : World := { files := fun _ => none }
    LeavesNoTrace rawCodec runtimeConfigDefaults client (protocolParseLine (lit "DECODE 5\n"))
      ⟨w.setStream client.fd [.chunk 137 []], []⟩ := by
  intro client w
  have hupload : (protocolParseLine (lit "DECODE 5\n")).command ∈ uploadCommands := by decide
  refine (failed_upload_traceless hupload (by decide)).mpr (.inr (.inr ⟨?_, rfl⟩))
  decide

end StegaPng
