import StegaPng.Pipeline
import StegaPng.Replies

/-! Which replies are one line, whatever names and images the clients send. -/

namespace StegaPng

open Interleaving

/-- A text that is one line. -/
def OneLine (text : Bytes) : Prop := text.getLast? = some newline ∧ newline ∉ text.dropLast

instance (text : Bytes) : Decidable (OneLine text) := by
  unfold OneLine
  infer_instance

/-- A client that reads one line for its command is in step. -/
def InStep (texts : List Bytes) : Prop := texts = [] ∨ ∃ text, texts = [text] ∧ OneLine text

/-- The commands whose replies quote names, addresses or results. -/
def quotingCommands : List ProtocolCommand :=
  [.status, .result, .jobMeta, .listjobs, .history, .listclients, .cancel]

/-- The job that the command looks at is DONE, with a newline in what the reply quotes. -/
def SplitsReply (cfg : RuntimeConfig) (q : ProtocolRequest) (tr : List Call) : Prop :=
  ∃ c ∈ tr, ∃ job, c.op = .getJob job .state ∧ (c.state.world.job job).state = .done ∧
    (q.command = .result ∧ NewlineSource cfg (c.state.world.job job) ∨
      q.command = .jobMeta ∧ newline ∈ (c.state.world.job job).result_filename)

theorem oneLine_append {body : Bytes} : OneLine (body ++ lit "\n") ↔ newline ∉ body := by
  have hnewline : lit "\n" = [newline] := rfl
  rw [OneLine, hnewline, List.getLast?_concat, List.dropLast_concat]
  exact ⟨And.right, fun h => ⟨rfl, h⟩⟩

/-- A text without control characters. -/
def printableText (text : Bytes) : Bool := text.all fun x => 32 ≤ x.toNat

theorem printableText_append {a b : Bytes} : printableText (a ++ b) = true ↔
    printableText a = true ∧ printableText b = true := by
  simp [printableText]

theorem printable_jobState (st : JobState) : printableText (jobStateToString st) = true := by
  cases st <;> decide

theorem printable_jobType (type : JobType) : printableText (jobTypeToString type) = true := by
  cases type <;> decide

theorem printable_decimal (n : Nat) : printableText (decimal n) = true :=
  List.all_eq_true.mpr fun _ hx => decide_eq_true (Nat.le_trans (by decide) (decimal_digit hx).1)

theorem control_free {b : UInt8} {text : Bytes} (hb : b.toNat < 32)
    (htext : printableText text = true) : b ∉ text :=
  fun hmem => absurd (of_decide_eq_true (List.all_eq_true.mp htext b hmem)) (Nat.not_le_of_lt hb)

theorem newline_jobState (st : JobState) : newline ∉ jobStateToString st :=
  control_free (by decide) (printable_jobState st)

theorem newline_jobType (type : JobType) : newline ∉ jobTypeToString type :=
  control_free (by decide) (printable_jobType type)

theorem newline_jobResultKind (kind : JobResultKind) : newline ∉ jobResultKindToString kind := by
  cases kind <;> decide

theorem appendItem_newline {size : Nat} {out item out' : Bytes}
    (h : appendItem 59 size out item = some out') (hout : newline ∉ out) (hitem : newline ∉ item) :
    newline ∉ out' := by
  obtain ⟨-, hsome⟩ := Option.ite_none_left_eq_some.mp h
  obtain rfl := Option.some.inj hsome
  split
  · exact hitem
  · exact newline_append hout (List.not_mem_cons_of_ne_of_not_mem (by decide) hitem)

theorem appendItems_newline {size : Nat} {out : Bytes} {items : List Bytes} (hout : newline ∉ out)
    (hitems : ∀ item ∈ items, newline ∉ item) : newline ∉ appendItems 59 size out items := by
  induction items generalizing out with
  | nil => exact hout
  | cons item items ih =>
    rw [appendItems]
    split
    · exact hout
    · next out' happend =>
      have hitem := hitems item List.mem_cons_self
      exact ih (appendItem_newline happend hout hitem) fun x hx =>
        hitems x (List.mem_cons_of_mem _ hx)

theorem listEntry_control {b : UInt8} {r : Job} (hb : b.toNat < 32) (hr : b ∉ r.owner_ip) :
    b ∉ listEntry r := by
  intro hmem
  refine (List.mem_append.mp (List.mem_of_mem_take hmem)).elim (control_free hb ?_) hr
  simp only [printableText_append]
  exact ⟨⟨⟨⟨⟨⟨by decide, printable_decimal _⟩, by decide⟩, printable_jobType _⟩, by decide⟩,
    printable_jobState _⟩, by decide⟩

theorem listEntry_newline {r : Job} (hr : newline ∉ r.owner_ip) : newline ∉ listEntry r :=
  listEntry_control (by decide) hr

theorem historyEntry_newline {dt : DurationText} {r : Job} (hdt : newline ∉ dt.one r.duration)
    (hr : newline ∉ r.owner_ip) : newline ∉ historyEntry dt r := by
  refine newline_snprintf ?_ 320
  simp only [List.mem_append, not_or]
  exact ⟨⟨⟨⟨⟨⟨⟨⟨⟨by decide, newline_decimal _⟩, by decide⟩, newline_jobType _⟩, by decide⟩,
    newline_jobState _⟩, by decide⟩,
    hdt⟩, by decide⟩, hr⟩

theorem clientEntry_control {b : UInt8} {c : ClientSession} (hb : b.toNat < 32)
    (hc : b ∉ c.addr_str) : b ∉ clientEntry c := by
  intro hmem
  refine (List.mem_append.mp (List.mem_of_mem_take hmem)).elim (control_free hb ?_) hc
  simp only [printableText_append]
  refine ⟨⟨⟨⟨by decide, printable_decimal _⟩, by decide⟩, ?_⟩, by decide⟩
  split <;> decide

theorem clientEntry_newline {c : ClientSession} (hc : newline ∉ c.addr_str) :
    newline ∉ clientEntry c :=
  clientEntry_control (by decide) hc

theorem listText_newline {size : Nat} {records : List Job}
    (h : ∀ r ∈ records, newline ∉ r.owner_ip) :
    newline ∉ listText size records := by
  unfold listText
  split
  · exact newline_snprintf (by decide) size
  · refine appendItems_newline List.not_mem_nil fun item hitem => ?_
    obtain ⟨r, hr, rfl⟩ := List.mem_map.mp hitem
    exact listEntry_newline (h r hr)

theorem keepItems_newline {size : Nat} {out : Bytes} {items : List Bytes} (hout : newline ∉ out)
    (hitems : ∀ item ∈ items, newline ∉ item) : newline ∉ keepItems 59 size out items := by
  induction items generalizing out with
  | nil => exact hout
  | cons item items ih =>
    have hitem := hitems item List.mem_cons_self
    have hrest : ∀ x ∈ items, newline ∉ x := fun x hx => hitems x (List.mem_cons_of_mem _ hx)
    rw [keepItems]
    cases happend : appendItem 59 size out item with
    | none => exact ih hout hrest
    | some out' => exact ih (appendItem_newline happend hout hitem) hrest

theorem historyText_newline {dt : DurationText} (hdt : ∀ d, newline ∉ dt.one d) {size : Nat}
    {records : List Job} (h : ∀ r ∈ records, newline ∉ r.owner_ip) :
    newline ∉ historyText dt size records := by
  unfold historyText
  dsimp only
  split
  · exact newline_snprintf (by decide) size
  · refine keepItems_newline List.not_mem_nil fun item hitem => ?_
    obtain ⟨r, hr, rfl⟩ := List.mem_map.mp hitem
    exact historyEntry_newline (hdt r.duration) (h r (List.mem_of_mem_filter hr))

theorem formatClientList_newline {clients : Clients} (h : ∀ i, Address (clients.get i).addr_str)
    (size : Nat) :
    newline ∉ formatClientList clients size := by
  have hslots : ∀ c ∈ clients.slots, newline ∉ c.addr_str :=
    Clients.mem_slots_iff.mpr fun i _ => (h i).2
  unfold formatClientList
  dsimp only
  split
  · exact newline_snprintf (by decide) size
  · refine appendItems_newline List.not_mem_nil fun item hitem => ?_
    obtain ⟨c, hc, rfl⟩ := List.mem_map.mp hitem
    exact clientEntry_newline (hslots c (List.mem_of_mem_filter hc))

section

variable {codec : PngCodec} {cfg : RuntimeConfig} {dt : DurationText} {fds : ServerFds}
  {m m' : MainState} {s s' : Sys} {α β : Type} {a : α} {p : Task α} {tr : List Call} {fd : Int}

theorem inStep_respond {text : Bytes} (htext : OneLine text) {f : Bool → β} {b : β}
    (h : AmidCalls codec cfg (sendResponsef fd text >>= fun sent => pure (f sent)) s tr b s') :
    InStep (sentTo fd tr) := by
  rw [sentTo_respond h]
  split
  · exact .inr ⟨text, rfl, htext⟩
  · exact .inl rfl

theorem inStep_cons {c : Call} (hc : c.op.sends fd = none) : InStep (sentTo fd (c :: tr)) ↔
    InStep (sentTo fd tr) := by
  rw [sentTo_cons hc]

theorem inStep_withJob {id : UInt64} {handle : Nat → Task Unit} {u : Unit}
    (hhandle : ∀ {job s tr u s'}, AmidCalls codec cfg (handle job) s tr u s' →
      InStep (sentTo fd tr))
    (h : AmidCalls codec cfg (withJob fd id handle) s tr u s') : InStep (sentTo fd tr) := by
  obtain ⟨s₁, found, s₂, rest, rfl, ⟨-, hnone⟩ | ⟨job, -, hjob⟩⟩ := calls_withJob h
  · exact (inStep_cons rfl).mpr (inStep_respond (by decide) hnone)
  · exact (inStep_cons rfl).mpr (hhandle hjob)

theorem inStep_status {id : UInt64} {job : Nat} {u : Unit}
    (h : AmidCalls codec cfg (handleStatus fd id job) s tr u s') :
    InStep (sentTo fd tr) := by
  obtain ⟨s₁, st, s₂, rest, rfl, -, -, hrest⟩ := calls_call h
  refine (inStep_cons rfl).mpr (inStep_respond (oneLine_append.mpr ?_) hrest)
  simp only [List.mem_append, not_or]
  exact ⟨⟨⟨by decide, newline_decimal _⟩, by decide⟩, newline_jobState st⟩

theorem inStep_cancel {id : UInt64} {refused : Bytes} (hrefused : OneLine refused)
    {job : Nat} {u : Unit} (h : AmidCalls codec cfg (handleCancel fd id refused job) s tr u s') :
    InStep (sentTo fd tr) := by
  obtain ⟨s₁, accepted, s₂, rest, rfl, -, -, hrest⟩ := calls_call h
  refine (inStep_cons rfl).mpr ?_
  split at hrest
  · exact inStep_respond hrefused hrest
  · refine inStep_respond (oneLine_append.mpr ?_) hrest
    exact newline_append (by decide) (newline_decimal _)

theorem inStep_quote {pre quoted : Bytes} (hpre : newline ∉ pre)
    (hshort : (pre ++ quoted ++ lit "\n").length < bufferSize) {f : Bool → β} {b : β}
    (h : AmidCalls codec cfg (sendResponsef fd (pre ++ quoted ++ lit "\n") >>=
      fun sent => pure (f sent))
      s tr b s') : InStep (sentTo fd tr) ↔ newline ∉ quoted := by
  rw [sentTo_respond h, if_pos hshort]
  constructor
  · rintro (hnone | ⟨text, hone, hline⟩)
    · cases hnone
    · obtain rfl := (List.cons.inj hone).1
      exact fun hmem => oneLine_append.mp hline (List.mem_append_right _ hmem)
  · intro hquoted
    exact .inr ⟨_, rfl, oneLine_append.mpr (newline_append hpre hquoted)⟩

/-- Where only the first call reads a state, that job is the one in question. -/
theorem state_read {P : Job → Prop} {job : Nat} {st : JobState}
    (htr : ∀ c ∈ tr, ∀ k, c.op ≠ .getJob k .state) :
    (∃ c ∈ (⟨.getJob job .state, s, st⟩ : Call) :: tr, ∃ k, c.op = .getJob k .state ∧
      P (c.state.world.job k)) ↔
      P (s.world.job job) := by
  constructor
  · rintro ⟨c, hc, k, hop, hP⟩
    rcases List.mem_cons.mp hc with rfl | hc
    · obtain ⟨rfl, -⟩ := Op.getJob.inj hop
      exact hP
    · exact absurd hop (htr c hc k)
  · exact fun hP => ⟨_, List.mem_cons_self, job, rfl, hP⟩

theorem no_state_read {text : Bytes} (h : ∀ c ∈ tr, c.op = .writeAll fd text) :
    ∀ c ∈ tr, ∀ k, c.op ≠ .getJob k .state := by
  intro c hc k hop
  rw [h c hc] at hop
  cases hop

theorem inStep_result {id : UInt64} {job : Nat} {u : Unit}
    (hcalls : ∀ c ∈ tr, Inv cfg codec c.state ∧ Records (fun _ => Kempt cfg) c.state)
    (h : AmidCalls codec cfg (handleResult fd id job) s tr u s') :
    InStep (sentTo fd tr) ↔ ¬ ∃ c ∈ tr, ∃ k, c.op = .getJob k .state ∧
      (c.state.world.job k).state = .done ∧
      NewlineSource cfg (c.state.world.job k) := by
  obtain ⟨s₁, st, s₂, rest, rfl, -, hstep, hrest⟩ := calls_call h
  obtain ⟨hst, hsame⟩ := step_getJob (f := .state) (by decide) hstep
  subst hsame
  change st = (s₂.world.job job).state at hst
  obtain ⟨hinv, hkempt⟩ := hcalls _ List.mem_cons_self
  rw [inStep_cons rfl]
  split at hrest
  · next hlive =>
    have hunder : newline ∉ lit "ERR job not finished state=" := by decide
    refine iff_of_true (inStep_respond (oneLine_append.mpr
      (newline_append hunder (newline_jobState st))) hrest) ?_
    rw [state_read (P := fun r => r.state = .done ∧
      NewlineSource cfg r) (no_state_read (calls_respond hrest))]
    rintro ⟨hdone, -⟩
    rw [hst, hdone] at hlive
    exact hlive (.inl rfl)
  · next hterminal =>
    obtain ⟨s₃, result, s₄, rest', rfl, hothers, hstep', hrest'⟩ := calls_call hrest
    obtain ⟨hresult, -⟩ := step_getJob (f := .result) (by decide) hstep'
    change result = (s₃.world.job job).result at hresult
    rw [hst, not_not] at hterminal
    have hfrozen := others_frozen hinv hterminal hothers
    have hjob := job_of_terminal hterminal
    have hrecord : Kempt cfg (s₂.world.job job) := hkempt job hjob
    rw [hfrozen] at hresult
    subst hresult hst
    have hpre : newline ∉ lit "RESULT " ++ decimal id.toNat ++ lit " state=" ++
        jobStateToString (s₂.world.job job).state ++ lit " msg=" := by
      simp only [List.mem_append, not_or]
      exact ⟨⟨⟨⟨by decide, newline_decimal _⟩, by decide⟩, newline_jobState _⟩, by decide⟩
    have hshort : (lit "RESULT " ++ decimal id.toNat ++ lit " state=" ++
      jobStateToString (s₂.world.job job).state ++
        lit " msg=" ++ (s₂.world.job job).result ++ lit "\n").length < bufferSize := by
      have hid : (decimal id.toNat).length ≤ 20 := decimal_small id.toNat_lt
      have hstate : (jobStateToString (s₂.world.job job).state).length ≤ 8 := by
        cases (s₂.world.job job).state <;> decide
      have hlits : (lit "RESULT ").length = 7 ∧ (lit " state=").length = 7 ∧
        (lit " msg=").length = 5 ∧
          (lit "\n").length = 1 := by decide
      have hmax : maxJobResult = 2048 := rfl
      have hbuffer : bufferSize = 4096 := rfl
      have hlen := hrecord.result
      simp only [List.length_append, hlits.1, hlits.2.1, hlits.2.2.1, hlits.2.2.2]
      omega
    have hread : ∀ c ∈ (⟨.getJob job .result, s₃, (s₂.world.job job).result⟩ : Call) :: rest',
        ∀ k, c.op ≠ .getJob k .state := by
      intro c hc
      rcases List.mem_cons.mp hc with rfl | hc
      · exact nofun
      · exact no_state_read (calls_respond hrest') c hc
    rw [inStep_cons rfl, inStep_quote hpre hshort hrest', hrecord.told hterminal, not_iff_not]
    exact (state_read (P := fun r => r.state = .done ∧ NewlineSource cfg r) hread).symm

theorem inStep_meta {id : UInt64} {job : Nat} {u : Unit}
    (hcalls : ∀ c ∈ tr, Inv cfg codec c.state ∧ Records (fun _ => Kempt cfg) c.state)
    (hsizes : ∀ c ∈ tr, Records (fun _ r => r.result_size < 2 ^ 64) c.state)
    (h : AmidCalls codec cfg (handleMeta fd id job) s tr u s') :
    InStep (sentTo fd tr) ↔ ¬ ∃ c ∈ tr, ∃ k, c.op = .getJob k .state ∧
      (c.state.world.job k).state = .done ∧
      newline ∈ (c.state.world.job k).result_filename := by
  obtain ⟨s₁, st, s₂, rest, rfl, -, hstep, hrest⟩ := calls_call h
  obtain ⟨hst, hsame⟩ := step_getJob (f := .state) (by decide) hstep
  subst hsame
  change st = (s₂.world.job job).state at hst
  obtain ⟨hinv, hkempt⟩ := hcalls _ List.mem_cons_self
  rw [inStep_cons rfl]
  split at hrest
  · next hother =>
    refine iff_of_true (inStep_respond (by decide) hrest) ?_
    rw [state_read (P := fun r => r.state = .done ∧
      newline ∈ r.result_filename) (no_state_read (calls_respond hrest))]
    exact fun hsource => hother (hst.trans hsource.1)
  · next hdone =>
    rw [hst, not_not] at hdone
    obtain ⟨s₃, info, s₄, rest', rfl, hothers, hstep', hrest'⟩ := calls_call hrest
    obtain ⟨hinfo, -⟩ := step_getJob (f := .resultMeta) (by decide) hstep'
    have hfrozen := others_frozen hinv (.inl hdone) hothers
    rw [hfrozen] at hinfo
    change info = ((s₂.world.job job).result_kind, (s₂.world.job job).result_size,
      (s₂.world.job job).result_filename) at hinfo
    subst hinfo
    have hjob := job_of_terminal (.inl hdone)
    have hrecord : Kempt cfg (s₂.world.job job) := hkempt job hjob
    have hsize : (s₂.world.job job).result_size < 2 ^ 64 := hsizes _ List.mem_cons_self job hjob
    have hpre : newline ∉ lit "META " ++ decimal id.toNat ++ lit " type=" ++
        jobResultKindToString (s₂.world.job job).result_kind ++ lit " size=" ++
        decimal (s₂.world.job job).result_size ++ lit " name=" := by
      simp only [List.mem_append, not_or]
      exact ⟨⟨⟨⟨⟨⟨by decide, newline_decimal _⟩, by decide⟩, newline_jobResultKind _⟩, by decide⟩,
        newline_decimal _⟩,
        by decide⟩
    have hshort : (lit "META " ++ decimal id.toNat ++ lit " type=" ++
        jobResultKindToString (s₂.world.job job).result_kind ++ lit " size=" ++
        decimal (s₂.world.job job).result_size ++ lit " name=" ++
          (s₂.world.job job).result_filename ++
        lit "\n").length < bufferSize := by
      have hid : (decimal id.toNat).length ≤ 20 := decimal_small id.toNat_lt
      have hnumber : (decimal (s₂.world.job job).result_size).length ≤ 20 :=
        decimal_small (by omega)
      have hkind : (jobResultKindToString (s₂.world.job job).result_kind).length ≤ 4 := by
        cases (s₂.world.job job).result_kind <;> decide
      have hlits : (lit "META ").length = 5 ∧ (lit " type=").length = 6 ∧
        (lit " size=").length = 6 ∧
          (lit " name=").length = 6 ∧ (lit "\n").length = 1 := by decide
      have hmax : maxJobFilename = 256 := rfl
      have hbuffer : bufferSize = 4096 := rfl
      have hlen := hrecord.filename
      simp only [List.length_append, hlits.1, hlits.2.1, hlits.2.2.1, hlits.2.2.2.1, hlits.2.2.2.2]
      omega
    have hread : ∀ c ∈ (⟨.getJob job .resultMeta, s₃,
      ((s₂.world.job job).result_kind, (s₂.world.job job).result_size,
        (s₂.world.job job).result_filename)⟩ : Call) :: rest', ∀ k, c.op ≠ .getJob k .state := by
      intro c hc
      rcases List.mem_cons.mp hc with rfl | hc
      · exact nofun
      · exact no_state_read (calls_respond hrest') c hc
    rw [inStep_cons rfl, inStep_quote hpre hshort hrest', not_iff_not]
    refine Iff.trans ?_ (state_read (P := fun r => r.state = .done ∧
      newline ∈ r.result_filename) hread).symm
    exact ⟨fun hsource => ⟨hdone, hsource⟩, And.right⟩

theorem splitsReply_cons {q : ProtocolRequest} {c : Call} (hc : ∀ job, c.op ≠ .getJob job .state) :
    SplitsReply cfg q (c :: tr) ↔ SplitsReply cfg q tr := by
  constructor
  · rintro ⟨d, hd, job, hop, hsource⟩
    rcases List.mem_cons.mp hd with rfl | hd
    · exact absurd hop (hc job)
    · exact ⟨d, hd, job, hop, hsource⟩
  · rintro ⟨d, hd, hsource⟩
    exact ⟨d, List.mem_cons_of_mem _ hd, hsource⟩

theorem not_splitsReply {q : ProtocolRequest} (htr : ∀ c ∈ tr, ∀ k, c.op ≠ .getJob k .state) :
    ¬ SplitsReply cfg q tr :=
  fun ⟨c, hc, job, hop, _⟩ => htr c hc job hop

/-- Only RESULT and META quote what a job has left behind. -/
theorem not_splitsReply_command {q : ProtocolRequest} (hresult : q.command ≠ .result)
    (hmeta : q.command ≠ .jobMeta) :
    ¬ SplitsReply cfg q tr := by
  rintro ⟨c, -, job, -, -, ⟨hcommand, -⟩ | ⟨hcommand, -⟩⟩
  · exact hresult hcommand
  · exact hmeta hcommand

theorem splitsReply_result {q : ProtocolRequest} (hc : q.command = .result) :
    SplitsReply cfg q tr ↔ ∃ c ∈ tr, ∃ k, c.op = .getJob k .state ∧
      (c.state.world.job k).state = .done ∧
      NewlineSource cfg (c.state.world.job k) := by
  simp [SplitsReply, hc]

theorem splitsReply_meta {q : ProtocolRequest} (hc : q.command = .jobMeta) :
    SplitsReply cfg q tr ↔ ∃ c ∈ tr, ∃ k, c.op = .getJob k .state ∧
      (c.state.world.job k).state = .done ∧
      newline ∈ (c.state.world.job k).result_filename := by
  simp [SplitsReply, hc]

theorem inStep_report {pre text : Bytes} (hpre : newline ∉ pre) (htext : newline ∉ text)
    {f : Bool → β} {b : β} (h : AmidCalls codec cfg (sendResponsef fd (pre ++ text ++ lit "\n") >>=
      fun sent => pure (f sent)) s tr b s') :
    InStep (sentTo fd tr) :=
  inStep_respond (oneLine_append.mpr (newline_append hpre htext)) h

theorem ownersRead (hcalls : ∀ c ∈ tr, Owned c.state) {text : Bytes} {p : Task Bytes}
    (h : AmidCalls codec cfg p s tr text s') : ∀ r ∈ recordsRead tr, newline ∉ r.owner_ip := by
  intro r hr
  obtain ⟨c, hc, k, rfl⟩ := recordsRead_job h hr
  exact ((hcalls c hc).job k).2

theorem inStep_admin {i : Nat} {admin : ClientSession} {q : ProtocolRequest}
    (hq : q.command ∈ quotingCommands) (htidy : TidyMain m) (hdt : ∀ d, newline ∉ dt.one d)
    (hcalls : ∀ c ∈ tr, Owned c.state)
    (h : AmidCalls codec cfg (handleAdminCommand dt m i admin q) s tr m' s') :
    InStep (sentTo admin.fd tr) ∧ ¬ SplitsReply cfg q tr := by
  have hunknown : ∀ {s tr m'}, AmidCalls codec cfg (do
      let _ ← sendResponsef admin.fd (lit "ERR unknown admin command\n")
      return m) s tr m' s' → InStep (sentTo admin.fd tr) ∧ ¬ SplitsReply cfg q tr := by
    intro s tr m' hrun
    exact ⟨inStep_respond (by decide) hrun, not_splitsReply (no_state_read (calls_respond hrun))⟩
  have hcases : q.command = .status ∨ q.command = .result ∨ q.command = .jobMeta ∨
    q.command = .listjobs ∨
      q.command = .history ∨ q.command = .listclients ∨ q.command = .cancel := by
    simpa [quotingCommands] using hq
  rcases hcases with hc | hc | hc | hc | hc | hc | hc <;> simp only [handleAdminCommand, hc] at h
  · exact hunknown h
  · exact hunknown h
  · exact hunknown h
  · refine ⟨?_, not_splitsReply_command (by rw [hc]; decide) (by rw [hc]; decide)⟩
    obtain ⟨list, s₁, tr₁, tr₂, rfl, hlist, hrest⟩ := calls_bind h
    obtain ⟨rfl, hreads⟩ := calls_formatList hlist
    have howners := ownersRead (fun c hc => hcalls c (List.mem_append_left _ hc)) hlist
    rw [sentTo_append, sentTo_reads hreads]
    exact inStep_report (by decide) (listText_newline howners) hrest
  · refine ⟨?_, not_splitsReply_command (by rw [hc]; decide) (by rw [hc]; decide)⟩
    obtain ⟨hist, s₁, tr₁, tr₂, rfl, hhist, hrest⟩ := calls_bind h
    obtain ⟨rfl, hreads⟩ := calls_formatHistory hhist
    have howners := ownersRead (fun c hc => hcalls c (List.mem_append_left _ hc)) hhist
    rw [sentTo_append, sentTo_reads hreads]
    exact inStep_report (by decide) (historyText_newline hdt howners) hrest
  · refine ⟨?_, not_splitsReply_command (by rw [hc]; decide) (by rw [hc]; decide)⟩
    exact inStep_report (by decide) (formatClientList_newline htidy.addr _) h
  · refine ⟨?_, not_splitsReply_command (by rw [hc]; decide) (by rw [hc]; decide)⟩
    obtain ⟨_, s₁, hjob, -⟩ := calls_map h
    exact inStep_withJob (fun hrun => inStep_cancel (by decide) hrun) hjob

theorem inStep_user {client : ClientSession} {q : ProtocolRequest} {u : Unit}
    (hq : q.command ∈ quotingCommands)
    (hcalls : ∀ c ∈ tr, Inv cfg codec c.state ∧ Records (fun _ => Kempt cfg) c.state)
    (hsizes : ∀ c ∈ tr, Records (fun _ r => r.result_size < 2 ^ 64) c.state)
    (h : AmidCalls codec cfg (answerUserCommand cfg client q) s tr u s') :
    InStep (sentTo client.fd tr) ↔ ¬ SplitsReply cfg q tr := by
  have hcases : q.command = .status ∨ q.command = .result ∨ q.command = .jobMeta ∨
    q.command = .listjobs ∨
      q.command = .history ∨ q.command = .listclients ∨ q.command = .cancel := by
    simpa [quotingCommands] using hq
  rcases hcases with hc | hc | hc | hc | hc | hc | hc <;> simp only [answerUserCommand, hc] at h
  · refine iff_of_true ?_ (not_splitsReply_command (by rw [hc]; decide) (by rw [hc]; decide))
    exact inStep_withJob (fun hrun => inStep_status hrun) h
  · obtain ⟨s₁, found, s₂, rest, rfl, ⟨-, hnone⟩ | ⟨job, -, hjob⟩⟩ := calls_withJob h
    · rw [inStep_cons rfl, splitsReply_cons (c := ⟨.findJob q.job_id, s₁, found⟩) (by simp)]
      exact iff_of_true (inStep_respond (by decide) hnone)
        (not_splitsReply (no_state_read (calls_respond hnone)))
    · rw [inStep_cons rfl, splitsReply_cons (c := ⟨.findJob q.job_id, s₁, found⟩) (by simp),
        splitsReply_result hc]
      exact inStep_result (fun c hc => hcalls c (List.mem_cons_of_mem _ hc)) hjob
  · obtain ⟨s₁, found, s₂, rest, rfl, ⟨-, hnone⟩ | ⟨job, -, hjob⟩⟩ := calls_withJob h
    · rw [inStep_cons rfl, splitsReply_cons (c := ⟨.findJob q.job_id, s₁, found⟩) (by simp)]
      exact iff_of_true (inStep_respond (by decide) hnone)
        (not_splitsReply (no_state_read (calls_respond hnone)))
    · rw [inStep_cons rfl, splitsReply_cons (c := ⟨.findJob q.job_id, s₁, found⟩) (by simp),
        splitsReply_meta hc]
      exact inStep_meta (fun c hc => hcalls c (List.mem_cons_of_mem _ hc))
        (fun c hc => hsizes c (List.mem_cons_of_mem _ hc)) hjob
  · exact iff_of_true (inStep_respond (by decide) h)
      (not_splitsReply_command (by rw [hc]; decide) (by rw [hc]; decide))
  · exact iff_of_true (inStep_respond (by decide) h)
      (not_splitsReply_command (by rw [hc]; decide) (by rw [hc]; decide))
  · exact iff_of_true (inStep_respond (by decide) h)
      (not_splitsReply_command (by rw [hc]; decide) (by rw [hc]; decide))
  · refine iff_of_true ?_ (not_splitsReply_command (by rw [hc]; decide) (by rw [hc]; decide))
    exact inStep_withJob (fun hrun => inStep_cancel (by decide) hrun) h

theorem quoting_not_quit {q : ProtocolRequest} (hq : q.command ∈ quotingCommands) :
    q.command ≠ .quit := by
  intro hquit
  rw [hquit] at hq
  exact absurd hq (by decide)

/-- What a client's command makes the server send to it is one line, unless a result or its
name with a newline is quoted. -/
theorem replies_in_step {files : Bytes → Option Bytes} {revents : Nat → Revents} {left i idx : Nat}
    (hrun : LoopRun codec cfg dt fds (initialLoop files) ⟨.walking revents (left + 1) i idx m, s⟩)
    (h : AmidCalls codec cfg (visitSlot cfg dt revents i idx m) s tr m' s')
    (hq : (nextRequest s (m.clients.get i).fd).command ∈ quotingCommands)
    (hdt : ∀ d, newline ∉ dt.one d)
    (hsizes : ∀ c ∈ tr, Records (fun _ r => r.result_size < 2 ^ 64) c.state) :
    InStep (sentTo (m.clients.get i).fd tr) ↔
      ¬ SplitsReply cfg (nextRequest s (m.clients.get i).fd) tr := by
  have hkempt := calls_kempt hrun.atRest (visitSlot_keeps revents i idx) h
  have htidy : TidyMain m := hrun.tidy
  have howned := calls_owned (htidy.addr i) (visitSlot_onBehalfOf revents i idx) hrun.owned h
  by_cases hserved : (revents idx).any = true ∧
      ((readLine bufferSize (s.world.streams (m.clients.get i).fd)).1).getD [] ≠ []
  · obtain ⟨s₁, b, s₂, rest, rfl, hserve⟩ := calls_visit hserved.1 hserved.2 h
    rw [inStep_cons rfl, splitsReply_cons (c := ⟨.readLine (m.clients.get i).fd, s₁, b⟩) (by simp)]
    by_cases hadmin : (m.clients.get i).type = .admin
    · obtain ⟨hstep, hnone⟩ :=
        inStep_admin hq htidy hdt (fun c hc => howned c (List.mem_cons_of_mem _ hc))
        (calls_admin hadmin hserve)
      exact iff_of_true hstep hnone
    · obtain ⟨s₃, hanswer, -⟩ := calls_user hadmin (quoting_not_quit hq) hserve
      exact inStep_user hq (fun c hc => hkempt c (List.mem_cons_of_mem _ hc))
        (fun c hc => hsizes c (List.mem_cons_of_mem _ hc)) hanswer
  · have hhangs := calls_hangUp (fun hready => not_not.mp fun hline => hserved ⟨hready, hline⟩) h
    refine iff_of_true (.inl (sentTo_hangUp hhangs)) (not_splitsReply fun c hc k hop => ?_)
    have hhang := hhangs c hc
    rw [hop] at hhang
    exact hhang

end

/-- A user has a file hidden whose name is two lines, and asks for the result once a worker
is done. -/
def twoLineName : List (Tid × Env) :=
  let sent := lit "NCODE_FILE 317 3 2\n" ++ rawSave (blackStrip 100) ++ lit "a\nbhiRESULT 1\n"
  [(.main, {}), (.main, pollReports [0]),
    (.main, { connection := some ⟨9, .inet 10 0 0 7, [.chunk 69 sent]⟩ }), (.main, {}), (.main, {}),
      (.main, {}), (.main, pollReports [5])] ++
  steps 17 .main ++ steps 26 (.worker 0)

def twoLineReply : Bytes :=
  lit "RESULT 1 state=DONE msg=encoded file=a\nb output=storage/results/job_1.png size=317\n"

theorem twoLineName_visit :
    ∃ m s tr m' s', LoopRun boundedCodec runtimeConfigDefaults plainDurations plainFds
      (initialLoop fun _ => none)
        ⟨.walking (pollIn [5]) maxClients 0 5 m, s⟩ ∧
      AmidCalls boundedCodec runtimeConfigDefaults
        (visitSlot runtimeConfigDefaults plainDurations (pollIn [5]) 0 5 m) s tr m' s' ∧
      (m.clients.get 0).fd = 9 ∧ (nextRequest s 9).command = .result ∧
        sentTo 9 tr = [twoLineReply] ∧
      ∀ c ∈ tr, Records (fun _ r => r.result_size < 2 ^ 64) c.state := by
  obtain ⟨m, s, tr, m', s', hrun, hcalls, hfacts⟩ :=
    exists_visit boundedCodec runtimeConfigDefaults plainDurations
    plainFds (fun _ => none) twoLineName (fun _ => {}) (fun v =>
      decide ((v.1.clients.get 0).fd = 9 ∧
      (nextRequest v.2.1 9).command = .result ∧ sentTo 9 v.2.2.1 = [twoLineReply] ∧
      ∀ c ∈ v.2.2.1, ∀ j < c.state.world.jobs.length, (c.state.world.job j).result_size < 2 ^ 64))
    (a := true) (by decide +kernel)
  have hall := of_decide_eq_true hfacts
  exact ⟨m, s, tr, m', s', hrun, hcalls, hall⟩

/-- The name of a hidden file splits the reply. -/
theorem reply_split :
    ¬ ∀ m s tr m' s', LoopRun boundedCodec runtimeConfigDefaults plainDurations plainFds
      (initialLoop fun _ => none)
        ⟨.walking (pollIn [5]) maxClients 0 5 m, s⟩ →
      AmidCalls boundedCodec runtimeConfigDefaults
        (visitSlot runtimeConfigDefaults plainDurations (pollIn [5]) 0 5 m) s tr m' s' →
      (nextRequest s (m.clients.get 0).fd).command ∈ quotingCommands →
        InStep (sentTo (m.clients.get 0).fd tr) := by
  intro hclaim
  obtain ⟨m, s, tr, m', s', hrun, hcalls, hfd, hcommand, hsent, -⟩ := twoLineName_visit
  have hstep := hclaim m s tr m' s' hrun hcalls (by rw [hfd, hcommand]; decide)
  rw [hfd, hsent] at hstep
  rcases hstep with hnone | ⟨text, htext, hline⟩
  · cases hnone
  · obtain rfl := (List.cons.inj htext).1
    exact absurd hline (by decide)

theorem replies_in_step_twoLineName :
    ∃ s tr, sentTo 9 tr = [twoLineReply] ∧
      SplitsReply runtimeConfigDefaults (nextRequest s 9) tr := by
  obtain ⟨m, s, tr, m', s', hrun, hcalls, hfd, hcommand, hsent, hsizes⟩ := twoLineName_visit
  change LoopRun _ _ _ _ _ ⟨.walking _ (127 + 1) _ _ _, _⟩ at hrun
  have hprinted : ∀ ms, newline ∉ plainDurations.one ms :=
    fun _ => show newline ∉ lit "0.0" by decide
  have hiff := replies_in_step hrun hcalls (by rw [hfd, hcommand]; decide) hprinted hsizes
  rw [hfd, hsent] at hiff
  refine ⟨s, tr, hsent, by_contra fun hsplits => ?_⟩
  rcases hiff.mpr hsplits with hnone | ⟨text, htext, hline⟩
  · cases hnone
  · obtain rfl := (List.cons.inj htext).1
    exact absurd hline (by decide)

end StegaPng
