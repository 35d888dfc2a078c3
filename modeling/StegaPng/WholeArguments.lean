import StegaPng.LineFraming
import StegaPng.UploadTraces

/-! Arguments in text: what a worker reads of them when it comes to the job. -/

namespace StegaPng

open Interleaving

/-- The commands whose argument goes to the worker in the job's record. -/
inductive ArgumentCommand where
  | submit
  | validateImage
  | analyzeCapacity

namespace ArgumentCommand

def client (text : Bytes) : ArgumentCommand → ClientCommand
  | submit => .submit text
  | validateImage => .validateImage text
  | analyzeCapacity => .analyzeCapacity text

def verb (c : ArgumentCommand) : String := (c.client []).verb

/-- The size of the field in the record. -/
def limit : ArgumentCommand → Nat
  | submit => maxJobPayload
  | validateImage | analyzeCapacity => maxJobPath

def type : ArgumentCommand → JobType
  | submit => .text
  | validateImage => .validateImage
  | analyzeCapacity => .analyzeCapacity

/-- The field in which the argument is kept. -/
def kept (c : ArgumentCommand) (job : Job) : Bytes :=
  match c with
  | submit => job.payload
  | validateImage | analyzeCapacity => job.input_path

def payload (arg : Bytes) : ArgumentCommand → Option Bytes
  | submit => some arg
  | validateImage | analyzeCapacity => none

def inputPath (arg : Bytes) : ArgumentCommand → Option Bytes
  | submit => none
  | validateImage | analyzeCapacity => some arg

/-- A worker reads the argument from the record: `job_get_payload` or `job_get_input_path`. -/
inductive Reads (codec : PngCodec) (k job : Nat) (s : Sys) : ArgumentCommand → Bytes → Prop
  | submit {v : Bytes} {s' : Sys}
      (h : (machine codec).step (.worker k) (.getJob job .payload) s v s') :
      Reads codec k job s .submit v
  | validateImage {v : Bytes} {s' : Sys}
      (h : (machine codec).step (.worker k) (.getJob job .inputPath) s v s') :
      Reads codec k job s .validateImage v
  | analyzeCapacity {v : Bytes} {s' : Sys}
      (h : (machine codec).step (.worker k) (.getJob job .inputPath) s v s') :
      Reads codec k job s .analyzeCapacity v

end ArgumentCommand

/-- A step of any thread. -/
inductive SysStep (codec : PngCodec) (s : Sys) : Sys → Prop
  | op {t : Tid} {o : Op} {a : Ans o} {s' : Sys} (h : (machine codec).step t o s a s') :
      SysStep codec s s'
  | turn (t : Tid) : SysStep codec s ((machine codec).turn t s)

abbrev Later (codec : PngCodec) : Sys → Sys → Prop := Relation.ReflTransGen (SysStep codec)

/-- What a worker can come to read as the argument of the job with this number. -/
def Processed (codec : PngCodec) (s : Sys) (c : ArgumentCommand) (id : Nat) (v : Bytes) : Prop :=
  ∃ job s' k, job < s.world.jobs.length ∧ (s.world.job job).id = id ∧ Later codec s s' ∧
    c.Reads codec k job s' v

/-! What stays in a record. -/

section

variable {codec : PngCodec} {cfg : RuntimeConfig} {dt : DurationText} {fds : ServerFds} {s s' : Sys}
  {t : Tid} {j : Nat}

/-- The record is in the table, with the same number and arguments. -/
structure SameArguments (j : Nat) (s s' : Sys) : Prop where
  exists_job : j < s'.world.jobs.length
  id : (s'.world.job j).id = (s.world.job j).id
  payload : (s'.world.job j).payload = (s.world.job j).payload
  input_path : (s'.world.job j).input_path = (s.world.job j).input_path

theorem SameArguments.of_job (hj : j < s'.world.jobs.length) (h : s'.world.job j = s.world.job j) :
    SameArguments j s s' :=
  ⟨hj, by rw [h], by rw [h], by rw [h]⟩

theorem SameArguments.trans {s'' : Sys} (h : SameArguments j s s') (h' : SameArguments j s' s'') :
    SameArguments j s s'' :=
  ⟨h'.exists_job, h'.id.trans h.id, h'.payload.trans h.payload, h'.input_path.trans h.input_path⟩

theorem SameArguments.of_update {job : Nat} {f : Job → Job} (hj : j < s.world.jobs.length)
    (hf : ∀ r, (f r).id = r.id ∧ (f r).payload = r.payload ∧ (f r).input_path = r.input_path)
    (h : s'.world = s.world.updateJob job f) : SameArguments j s s' := by
  have hlength : j < s'.world.jobs.length := by rwa [h, World.updateJob_length]
  by_cases hjob : j = job
  · subst hjob
    obtain ⟨hid, hpayload, hpath⟩ := hf (s.world.job j)
    exact ⟨hlength, by rw [h, World.updateJob_job _ hj, hid],
      by rw [h, World.updateJob_job _ hj, hpayload],
      by rw [h, World.updateJob_job _ hj, hpath]⟩
  · exact .of_job hlength (by rw [h, World.updateJob_job_ne _ hjob])

theorem SysStep.sameArguments (h : SysStep codec s s') (hj : j < s.world.jobs.length) :
    SameArguments j s s' := by
  have hsame : s'.world.jobs = s.world.jobs → SameArguments j s s' :=
    fun heq => .of_job (heq ▸ hj) (World.job_congr heq j)
  cases h with
  | turn t => exact hsame rfl
  | op h =>
    obtain ⟨e, marks, -, hexec, -⟩ := h
    have heffect := exec_effect hexec
    generalize hw : s'.world = w' at heffect
    cases heffect with
    | quiet hcore _ _ => exact hsame (hw ▸ hcore.jobs)
    | input _ hcore _ _ => exact hsame (hw ▸ hcore.jobs)
    | file _ hcore _ _ => exact hsame (hw ▸ hcore.jobs)
    | created now hroom =>
      have hjobs := congrArg World.jobs hw
      refine .of_job ?_ (World.job_append hjobs hj)
      rw [hjobs, List.length_append]
      exact Nat.lt_succ_of_lt hj
    | @set job u now => exact .of_update hj (fun r => by cases u <;> exact ⟨rfl, rfl, rfl⟩) hw
    | canceled hlive =>
      refine .of_update hj ?_ hw
      exact fun r => ⟨rfl, rfl, rfl⟩
    | pushed => exact hsame (by rw [hw])
    | pushFailed => exact hsame (by rw [hw])
    | popped hqueue => exact hsame (by rw [hw])
    | event => exact hsame (by rw [hw])

theorem Later.sameArguments (h : Later codec s s') (hj : j < s.world.jobs.length) :
    SameArguments j s s' := by
  induction h with
  | refl => exact .of_job hj rfl
  | tail _ hstep ih => exact ih.trans (hstep.sameArguments ih.exists_job)

theorem others_later (h : (conduct cfg codec).Others t s s') : Later codec s s' := by
  induction h with
  | refl => exact .refl
  | tail _ hstep ih =>
    cases hstep with
    | op _ _ _ hstep => exact ih.tail (.op hstep)
    | turn _ _ _ => exact ih.tail (.turn _)

theorem calls_later {α : Type} {p : Task α} {tr : List Call} {a : α}
    (h : AmidCalls codec cfg p s tr a s') :
    Later codec s s' := by
  induction h with
  | ret a henv => exact others_later henv
  | op henv hstep _ ih => exact (others_later henv).trans (.head (.op hstep) ih)

theorem calls_then {α β : Type} {p : Task α} {f : α → β} {tr : List Call} {b : β}
    (h : AmidCalls codec cfg (p >>= fun a => pure (f a)) s tr b s') :
    ∃ a s₁, AmidCalls codec cfg p s tr a s₁ ∧ Later codec s₁ s' := by
  obtain ⟨a, s₁, tr₁, tr₂, rfl, hp, hret⟩ := calls_bind h
  obtain ⟨rfl, -, hothers⟩ := Traced.ret_iff.mp hret
  rw [List.append_nil]
  exact ⟨a, s₁, hp, others_later hothers⟩

end

/-! The command. -/

section

variable {codec : PngCodec} {cfg : RuntimeConfig} {dt : DurationText} {fds : ServerFds} {s s' : Sys}
  {tr : List Call} {client : ClientSession} {c : ArgumentCommand} {arg ending : Bytes} {id : Nat}

namespace ArgumentCommand

theorem trimNewline_ending {text : Bytes} (h : newline ∉ text)
    (hending : ending = [] ∨ ending = [newline]) :
    trimNewline (text ++ ending) = text := by
  rcases hending with rfl | rfl
  · rw [List.append_nil, trimNewline, if_neg fun hlast => h (List.mem_of_getLast? hlast)]
  · rw [trimNewline, List.getLast?_concat, if_pos rfl, List.dropLast_concat]

theorem cstr_line (hending : ending = [] ∨ ending = [newline]) :
    cstr (arg ++ ending) = cstr arg ++ ending ∨ cstr (arg ++ ending) = cstr arg := by
  have hnul : 0 ∉ ending := by
    rcases hending with rfl | rfl <;> decide
  by_cases h : 0 ∈ arg
  · obtain ⟨before, after, rfl⟩ := List.append_of_mem h
    rw [List.append_assoc, List.cons_append, cstr_append_nul, cstr_append_nul]
    exact .inr rfl
  · rw [cstr_append_of_nul_free h, cstr_of_nul_free hnul, cstr_of_nul_free h]
    exact .inl rfl

theorem parse_line (harg : newline ∉ arg) (hending : ending = [] ∨ ending = [newline])
    (hlength : (lit c.verb ++ arg ++ ending).length < bufferSize) :
    protocolParseLine (lit c.verb ++ arg ++ ending) = (c.client (cstr arg)).request := by
  have hverb : (c.client (cstr arg)).verb = c.verb := by cases c <;> rfl
  have hargument : (c.client (cstr arg)).arguments .c = cstr arg := by cases c <;> rfl
  obtain ⟨hnul, hnewline, hblank, -⟩ := (c.client (cstr arg)).plain_verb
  rw [hverb] at hnul hnewline hblank
  have hcut : newline ∉ cstr arg := fun hmem => harg (List.takeWhile_subset _ hmem)
  have hshort := cstr_length_le arg
  have hcopy : trimNewline (snprintf bufferSize (cstr (lit c.verb ++ arg ++ ending))) =
    lit c.verb ++ cstr arg := by
    rw [List.append_assoc, cstr_append_of_nul_free hnul]
    rw [List.length_append, List.length_append] at hlength
    rcases cstr_line hending with hwhole | hcstr
    · rw [hwhole, ← List.append_assoc, snprintf_eq (by simp only [List.length_append]; omega)]
      exact trimNewline_ending (newline_append hnewline hcut) hending
    · rw [hcstr, snprintf_eq (by rw [List.length_append]; omega)]
      have htrim := trimNewline_ending (newline_append hnewline hcut) (.inl rfl)
      rwa [List.append_nil] at htrim
  have hprintable : (c.client (cstr arg)).Printable .c := by
    intro text htext
    have htext' : text = cstr arg := by cases c <;> exact (Option.some.inj htext).symm
    rw [htext', hverb, hargument]
    refine ⟨cstr_nul_free arg, hcut, ?_⟩
    rw [List.length_append, List.length_append] at hlength
    rw [List.length_append]
    omega
  have hbranch := ClientCommand.branch_arguments hprintable
  rw [hargument] at hbranch
  rw [protocolParseLine, hcopy]
  rw [parseBareCommand_blank (List.mem_append_left _ hblank), ← hverb,
    ClientCommand.parseVerb_verb, hbranch]

theorem error_unannounced {text : Bytes} {b : Bool} (htext : lit "ERR " <+: text)
    (h : AmidCalls codec cfg (sendResponsef client.fd text) s tr b s') :
    jobReply id ∉ sentTo client.fd tr := by
  rw [sentTo_response h]
  split
  · exact fun hmem => error_ne_jobReply htext id (List.mem_singleton.mp hmem).symm
  · exact List.not_mem_nil

/-- An announced job is made of the argument. -/
theorem calls_argument {m m' : MainState} {i : Nat}
    (h : AmidCalls codec cfg (serveRequest cfg dt m i client (c.client arg).request) s tr m' s')
    (hjob : jobReply id ∈ sentTo client.fd tr) :
    ∃ b s₁, AmidCalls codec cfg (enqueueJob client c.type (c.payload arg)
      (c.inputPath arg) none) s tr b s₁ ∧
      Later codec s₁ s' := by
  unfold serveRequest at h
  split at h
  · have hunknown : AmidCalls codec cfg (sendResponsef client.fd
      (lit "ERR unknown admin command\n") >>= fun _ => pure m)
        s tr m' s' := by
      cases c <;> exact h
    obtain ⟨b, s₁, hresponse, -⟩ := calls_then hunknown
    exact absurd hjob (error_unannounced ⟨_, rfl⟩ hresponse)
  · obtain ⟨client', s₁, huser, hlater⟩ := calls_then h
    unfold handleUserCommand at huser
    rw [if_neg (by cases c <;> exact nofun)] at huser
    obtain ⟨u, s₂, hanswer, hlater'⟩ := calls_then huser
    obtain ⟨empty, hempty, hargument⟩ : ∃ empty, lit "ERR " <+: empty ∧ AmidCalls codec cfg
        (handleArgument client (c.client arg).request empty
          (enqueueJob client c.type (c.payload arg) (c.inputPath arg) none)) s tr u s₂ := by
      cases c with
      | submit => exact ⟨lit "ERR empty payload\n", ⟨_, rfl⟩, hanswer⟩
      | validateImage => exact ⟨lit "ERR empty path\n", ⟨_, rfl⟩, hanswer⟩
      | analyzeCapacity => exact ⟨lit "ERR empty path\n", ⟨_, rfl⟩, hanswer⟩
    unfold handleArgument at hargument
    split at hargument
    · obtain ⟨b, s₃, hresponse, -⟩ := calls_then hargument
      exact absurd hjob (error_unannounced hempty hresponse)
    · obtain ⟨b, s₃, henqueue, hlater''⟩ := calls_then hargument
      exact ⟨b, s₃, henqueue, hlater''.trans (hlater'.trans hlater)⟩

end ArgumentCommand

/-- A job that is announced has been created with what it was given. -/
theorem calls_enqueueJob {type : JobType} {payload input_path : Option Bytes} {b : Bool}
    (h : AmidCalls codec cfg (enqueueJob client type payload input_path none) s tr b s')
    (hjob : jobReply id ∈ sentTo client.fd tr) :
    ∃ job, job < s'.world.jobs.length ∧ (s'.world.job job).id = id ∧
      (s'.world.job job).payload = snprintf maxJobPayload (payload.getD []) ∧
      (s'.world.job job).input_path = snprintf maxJobPath (input_path.getD []) := by
  unfold enqueueJob at h
  obtain ⟨s₁, created, s₂, rest, rfl, -, hcreate, hrest⟩ := calls_call h
  rw [sentTo_cons rfl] at hjob
  cases created with
  | none => exact absurd hjob (ArgumentCommand.error_unannounced ⟨_, rfl⟩ hrest)
  | some job =>
    have hmade : job < s₂.world.jobs.length ∧ ∃ now, s₂.world.job job =
        newJob s₁.world.next_id client.fd client.addr_str type payload input_path now := by
      obtain ⟨e, marks, -, hexec, -⟩ := hcreate
      simp only [exec] at hexec
      split at hexec
      · cases hexec
      · split at hexec
        · cases hexec
        · simp only [Option.some.injEq, Prod.mk.injEq] at hexec
          obtain ⟨rfl, hworld, -⟩ := hexec
          rw [← hworld]
          refine ⟨by rw [List.length_append]; exact Nat.lt_succ_self _, e.now,
            World.job_append_last rfl⟩
    obtain ⟨hlt, now, hrecord⟩ := hmade
    have hlater : Later codec s₂ s' := calls_later hrest
    have hsame := hlater.sameArguments hlt
    refine ⟨job, hsame.exists_job,
      ?_, by rw [hsame.payload, hrecord]; rfl, by rw [hsame.input_path, hrecord]; rfl⟩
    obtain ⟨s₃, pushed, s₄, rest', rfl, hothers, hpush, hrest'⟩ := calls_call hrest
    rw [sentTo_cons rfl] at hjob
    cases pushed with
    | false =>
      obtain ⟨s₅, u, s₆, rest₁, rfl, -, -, hresult⟩ := calls_call hrest'
      obtain ⟨s₇, u', s₈, rest₂, rfl, -, -, hfailed⟩ := calls_call hresult
      rw [sentTo_cons rfl, sentTo_cons rfl] at hjob
      exact absurd hjob (ArgumentCommand.error_unannounced ⟨_, rfl⟩ hfailed)
    | true =>
      obtain ⟨s₅, number, s₆, rest₁, rfl, hothers', hread, hreply⟩ := calls_call hrest'
      rw [sentTo_cons rfl, sentTo_response hreply] at hjob
      obtain ⟨hnumber, -⟩ := step_getJob (f := .id) (by decide) hread
      have hthen : Later codec s₂ s₅ :=
        (others_later hothers).trans (.head (.op hpush) (others_later hothers'))
      have hthen := hthen.sameArguments hlt
      split at hjob
      · have heq : lit "JOB " ++ decimal id ++ lit "\n" = lit "JOB " ++
          decimal number ++ lit "\n" :=
          List.mem_singleton.mp hjob
        have hdigits := List.append_cancel_left (List.append_cancel_right heq)
        rw [hsame.id, ← hthen.id, decimal_injective hdigits]
        exact hnumber.symm
      · cases hjob

theorem reads_kept {k job : Nat} {v : Bytes} (h : c.Reads codec k job s v) :
    v = c.kept (s.world.job job) := by
  have hread : ∀ {f : JobField} {b : f.Val} {s' : Sys},
    (machine codec).step (.worker k) (.getJob job f) s b s' →
      b = f.read (s.world.job job) := by
    rintro f b s' ⟨e, marks, -, hexec, -⟩
    simp only [exec, Option.some.injEq, Prod.mk.injEq] at hexec
    exact hexec.1.symm
  cases h with
  | submit h => exact hread h
  | validateImage h => exact hread h
  | analyzeCapacity h => exact hread h

theorem exists_reads (c : ArgumentCommand) (k job : Nat) (s : Sys) :
    c.Reads codec k job s (c.kept (s.world.job job)) := by
  have hstep : ∀ f : JobField, ∃ s',
    (machine codec).step (.worker k) (.getJob job f) s (f.read (s.world.job job)) s' :=
    fun f => ⟨⟨s.world, _ ++ s.history⟩, {}, _, trivial, rfl, rfl⟩
  cases c with
  | submit => exact .submit (hstep .payload).choose_spec
  | validateImage => exact .validateImage (hstep .inputPath).choose_spec
  | analyzeCapacity => exact .analyzeCapacity (hstep .inputPath).choose_spec

theorem snprintf_cstr_iff (size : Nat) (arg : Bytes) (hsize : 0 < size) :
    snprintf size (cstr arg) = arg ↔ arg.length < size ∧ 0 ∉ arg := by
  constructor
  · intro h
    rw [← h]
    refine ⟨snprintf_length_lt hsize _, fun hmem => ?_⟩
    exact cstr_nul_free arg (List.mem_of_mem_take hmem)
  · rintro ⟨hlength, hnul⟩
    rw [cstr_of_nul_free hnul, snprintf_eq hlength]

section

variable {files : Bytes → Option Bytes} {revents : Nat → Revents} {left i idx : Nat}
  {m m' : MainState}

/-- What a worker reads of an announced job is the copy that its record has. -/
theorem processed_iff
    (hrun : LoopRun codec cfg dt fds (initialLoop files) ⟨.walking revents (left + 1) i idx m, s⟩)
    (hactive : (m.clients.get i).active = true) (hready : (revents idx).any = true)
    (harg : newline ∉ arg) (hending : ending = [] ∨ ending = [newline])
    (hread : (readLine bufferSize (s.world.streams (m.clients.get i).fd)).1 =
      some (lit c.verb ++ arg ++ ending))
    (h : AmidCalls codec cfg (visitSlot cfg dt revents i idx m) s tr m' s')
    (hjob : jobReply id ∈ sentTo (m.clients.get i).fd tr) (w : Bytes) :
    Processed codec s' c id w ↔ w = snprintf c.limit (cstr arg) := by
  have hlength := readLine_length hread
  have hafter : LoopRun codec cfg dt fds (initialLoop files) ⟨.walking revents left (i + 1)
    (idx + 1) m', s'⟩ :=
    hrun.tail (.visit hactive h.runs)
  have hinv : Inv cfg codec s' := hafter.atRest.inv
  have hverb : lit c.verb ≠ [] := by
    cases c <;> decide
  have hline : ((readLine bufferSize (s.world.streams (m.clients.get i).fd)).1).getD [] ≠ [] := by
    rw [hread]
    exact List.append_ne_nil_of_left_ne_nil (List.append_ne_nil_of_left_ne_nil hverb _) _
  obtain ⟨s₁, b, s₂, rest, rfl, hserve⟩ := calls_visit hready hline h
  rw [sentTo_cons rfl] at hjob
  rw [nextRequest, hread, Option.getD_some,
    ArgumentCommand.parse_line harg hending hlength] at hserve
  obtain ⟨b, s₃, henqueue, hlater⟩ := ArgumentCommand.calls_argument hserve hjob
  obtain ⟨job, hlt, hid, hpayload, hpath⟩ := calls_enqueueJob henqueue hjob
  have hmade := hlater.sameArguments hlt
  have hkept : ∀ {s'' : Sys}, Later codec s' s'' →
    c.kept (s''.world.job job) = snprintf c.limit (cstr arg) := by
    intro s'' hlater'
    have hsame := Later.sameArguments (hlater.trans hlater') hlt
    cases c with
    | submit => exact hsame.payload.trans hpayload
    | validateImage => exact hsame.input_path.trans hpath
    | analyzeCapacity => exact hsame.input_path.trans hpath
  constructor
  · rintro ⟨job', s'', k, hlt', hid', hlater', hreads⟩
    -- no other job has the number
    have hnumber := hinv.id job hmade.exists_job
    have hnumber' := hinv.id job' hlt'
    rw [hmade.id, hid] at hnumber
    obtain rfl : job' = job := by omega
    rw [reads_kept hreads, hkept hlater']
  · rintro rfl
    refine ⟨job, s', 0, hmade.exists_job, hmade.id.trans hid, .refl, ?_⟩
    rw [← hkept .refl]
    exact exists_reads c 0 job s'

/-- Exactly one text is read as the argument of an announced job, and it is the one that was
sent if and only if that fits its field and has no NUL byte. -/
theorem whole_arguments
    (hrun : LoopRun codec cfg dt fds (initialLoop files) ⟨.walking revents (left + 1) i idx m, s⟩)
    (hactive : (m.clients.get i).active = true) (hready : (revents idx).any = true)
    (harg : newline ∉ arg) (hending : ending = [] ∨ ending = [newline])
    (hread : (readLine bufferSize (s.world.streams (m.clients.get i).fd)).1 =
      some (lit c.verb ++ arg ++ ending))
    (h : AmidCalls codec cfg (visitSlot cfg dt revents i idx m) s tr m' s')
    (hjob : jobReply id ∈ sentTo (m.clients.get i).fd tr) :
    ∃ v, (∀ w, Processed codec s' c id w ↔ w = v) ∧ (v = arg ↔ arg.length < c.limit ∧ 0 ∉ arg) := by
  refine ⟨snprintf c.limit (cstr arg), processed_iff hrun hactive hready harg hending hread h hjob,
    ?_⟩
  exact snprintf_cstr_iff _ _ (by cases c <;> decide)

end

end

/-! Concrete submissions. -/

/-- A user submits the text and is told that it is job 1. -/
def submission (text : Bytes) : Option Bool :=
  (transcribe boundedCodec .main (visitSlot runtimeConfigDefaults plainDurations (pollIn [5]) 0 5
    (onlySession .user))
    (fun _ => {}) (seated (fun _ => none) [.chunk 83 (lit "UBMIT " ++ text ++ lit "\n")])).map
      fun r =>
      decide (jobReply 1 ∈ sentTo 9 r.1)

theorem exists_submission {text : Bytes} (h : submission text = some true) :
    ∃ tr m' s', AmidCalls boundedCodec runtimeConfigDefaults
        (visitSlot runtimeConfigDefaults plainDurations (pollIn [5]) 0 5 (onlySession .user))
        (seated (fun _ => none) [.chunk 83 (lit "UBMIT " ++ text ++ lit "\n")]) tr m' s' ∧
          jobReply 1 ∈ sentTo 9 tr := by
  obtain ⟨⟨tr, m', s'⟩, htranscribe, hreply⟩ := Option.map_eq_some_iff.mp h
  exact ⟨tr, m', s', calls_of_transcribe htranscribe, of_decide_eq_true hreply⟩

theorem submission_read {text : Bytes} (hnewline : newline ∉ text) (hlength : text.length < 4000) :
    (readLine bufferSize [.chunk 83 (lit "UBMIT " ++ text ++ lit "\n")]).1 =
      some (lit "SUBMIT " ++ text ++ [newline]) := by
  have hline : IsLine (lit "SUBMIT " ++ text ++ [newline]) := by
    refine .inl ⟨lit "SUBMIT " ++ text, rfl, newline_append (by decide) hnewline, ?_⟩
    have hverb : (lit "SUBMIT ").length = 7 := rfl
    have hroom : bufferSize = 4096 := rfl
    rw [List.length_append, List.length_append, hverb, hroom, List.length_singleton]
    omega
  have hbytes : bytesOf [.chunk 83 (lit "UBMIT " ++ text ++ lit "\n")] =
    (lit "SUBMIT " ++ text ++ [newline]) ++ [] := by
    rw [bytesOf_cons, bytesOf_nil]
    rfl
  obtain ⟨es', hloop, -⟩ := readLine_clean (by simp [Clean]) hbytes hline
  rw [hloop]

theorem whole_arguments_hi :
    ∃ tr m' s', AmidCalls boundedCodec runtimeConfigDefaults
        (visitSlot runtimeConfigDefaults plainDurations (pollIn [5]) 0 5 (onlySession .user))
        (seated (fun _ => none) [.chunk 83 (lit "UBMIT hi\n")]) tr m' s' ∧
          jobReply 1 ∈ sentTo 9 tr ∧
      ∀ w, Processed boundedCodec s' .submit 1 w ↔ w = lit "hi" := by
  have hsubmission : submission (lit "hi") = some true := by decide +kernel
  have htext : lit "UBMIT " ++ lit "hi" ++ lit "\n" = lit "UBMIT hi\n" := by decide
  have hsent := exists_submission hsubmission
  rw [htext] at hsent
  obtain ⟨tr, m', s', hcalls, hjob⟩ := hsent
  have hrun : LoopRun boundedCodec runtimeConfigDefaults plainDurations plainFds _ _ :=
    seated_run (.inl rfl) (fun _ => none) [.chunk 83 (lit "UBMIT hi\n")]
  have hnewline : newline ∉ lit "hi" := by decide
  have hread := submission_read hnewline (by decide)
  rw [htext] at hread
  obtain ⟨v, hv, hwhole⟩ :=
    whole_arguments (c := .submit) hrun rfl (by decide) hnewline (.inr rfl) hread hcalls hjob
  have hv' : v = lit "hi" := hwhole.mpr (by decide)
  exact ⟨tr, m', s', hcalls, hjob, hv' ▸ hv⟩

/-- A text of 1024 bytes loses its last. -/
theorem long_submit_cut :
    ¬ ∀ (c : ArgumentCommand) (arg ending : Bytes) m s tr m' s' id,
      LoopRun boundedCodec runtimeConfigDefaults plainDurations plainFds (initialLoop fun _ => none)
        ⟨.walking (pollIn [5]) maxClients 0 5 m, s⟩ →
      (m.clients.get 0).active = true → newline ∉ arg → ending = [] ∨ ending = [newline] →
      (readLine bufferSize (s.world.streams (m.clients.get 0).fd)).1 =
        some (lit c.verb ++ arg ++ ending) →
      AmidCalls boundedCodec runtimeConfigDefaults
        (visitSlot runtimeConfigDefaults plainDurations (pollIn [5]) 0 5 m) s tr m' s' →
      jobReply id ∈ sentTo (m.clients.get 0).fd tr → ∀ w, Processed boundedCodec s' c id w →
        w = arg := by
  intro hclaim
  obtain ⟨text, htext⟩ : ∃ text : Bytes, text = List.replicate 1024 120 := ⟨_, rfl⟩
  have hlength : text.length = 1024 := by rw [htext, List.length_replicate]
  have hnewline : newline ∉ text := by
    rw [htext]
    exact fun hmem => absurd (List.eq_of_mem_replicate hmem) (by decide)
  have hsubmission : submission text = some true := by
    rw [htext]
    decide +kernel
  obtain ⟨tr, m', s', hcalls, hjob⟩ := exists_submission hsubmission
  have hrun : LoopRun boundedCodec runtimeConfigDefaults plainDurations plainFds _ _ :=
    seated_run (.inl rfl) (fun _ => none) [.chunk 83 (lit "UBMIT " ++ text ++ lit "\n")]
  have hread := submission_read hnewline (by omega)
  have hcut := (processed_iff (c := .submit) hrun rfl (by decide) hnewline
    (.inr rfl) hread hcalls hjob _).mpr rfl
  have hwhole := hclaim .submit text [newline] _ _ _ _ _ _ hrun rfl hnewline
    (.inr rfl) hread hcalls hjob _ hcut
  have hfits := ((snprintf_cstr_iff _ _ (by decide)).mp hwhole).1
  rw [hlength] at hfits
  exact absurd hfits (by decide)

end StegaPng
