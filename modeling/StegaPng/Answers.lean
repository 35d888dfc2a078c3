import StegaPng.ClientLines
import StegaPng.ReplyLines

/-! Which commands are answered, and which reports are too long to be sent. -/

namespace StegaPng

open Interleaving

/-- A line is written to the session. -/
def Answered (fd : Int) (tr : List Call) : Prop := ∃ text ∈ sentTo fd tr,
    text.getLast? = some newline

/-- The length of the items in one text, a separator between each two. -/
def joined (items : List Bytes) : Nat := (items.map fun item => item.length + 1).sum - 1

/-- An admin's command whose full answer does not fit the buffer of a response. -/
def Overlong (dt : DurationText) (m : MainState) (client : ClientSession) (q : ProtocolRequest)
    (tr : List Call) : Prop :=
  client.type = .admin ∧
    match q.command with
    | .listjobs => bufferSize ≤ 6 + joined ((recordsRead tr).map listEntry)
    | .history => bufferSize ≤ 9 + joined ((finished (recordsRead tr)).map (historyEntry dt))
    | .listclients => bufferSize ≤ 9 + joined (m.clients.active.map clientEntry)
    | .blockip => m.blocklist.length < maxBlockedIps ∧ bufferSize ≤ 24 + q.argument1.length
    | _ => False

/-! The length of a report. -/

/-- The room that a text and the separator after it take. -/
def extent (out : Bytes) : Nat := if out = [] then 0 else out.length + 1

theorem appendItem_cases (sep : UInt8) (size : Nat) (out : Bytes) {item : Bytes}
    (hitem : item ≠ []) :
    (appendItem sep size out item = none ∧ size ≤ extent out + (item.length + 1)) ∨
      ∃ out', appendItem sep size out item = some out' ∧
        extent out' = extent out + (item.length + 1) := by
  unfold appendItem extent
  rcases out with - | ⟨b, bs⟩
  · simp only [List.length_nil, if_true]
    split
    · exact .inl ⟨rfl, by omega⟩
    · exact .inr ⟨item, rfl, by rw [if_neg hitem]; omega⟩
  · have hout : (b :: bs).length ≠ 0 := by simp
    simp only [hout, if_false, reduceCtorEq]
    split
    · exact .inl ⟨rfl, by omega⟩
    · refine .inr ⟨_, rfl, ?_⟩
      have hne : b :: bs ++ sep :: item ≠ [] := by simp
      rw [if_neg hne, List.length_append, List.length_cons (a := sep)]
      omega

section

variable {sep : UInt8} {size k T : Nat} {out : Bytes} {items : List Bytes}

/-- Below the size of the buffer, the text grows with its items. -/
theorem appendItems_extent (hT : T + k ≤ size)
    (hitems : ∀ item ∈ items, item ≠ [] ∧ item.length + 1 ≤ k) :
    T ≤ extent (appendItems sep size out items) ↔
      T ≤ extent out + (items.map fun item => item.length + 1).sum := by
  induction items generalizing out with
  | nil => rfl
  | cons item items ih =>
    obtain ⟨hne, hlen⟩ := hitems item List.mem_cons_self
    rw [appendItems, List.map_cons, List.sum_cons]
    rcases appendItem_cases sep size out hne with ⟨hnone, hfull⟩ | ⟨out', hsome, hextent⟩
    · rw [hnone]
      dsimp only
      omega
    · rw [hsome]
      dsimp only
      rw [ih fun x hx => hitems x (List.mem_cons_of_mem _ hx), hextent]
      omega

theorem keepItems_extent (hT : T + k ≤ size)
    (hitems : ∀ item ∈ items, item ≠ [] ∧ item.length + 1 ≤ k) :
    T ≤ extent (keepItems sep size out items) ↔
      T ≤ extent out + (items.map fun item => item.length + 1).sum := by
  induction items generalizing out with
  | nil => rfl
  | cons item items ih =>
    obtain ⟨hne, hlen⟩ := hitems item List.mem_cons_self
    rw [keepItems, List.map_cons, List.sum_cons, ih fun x hx =>
      hitems x (List.mem_cons_of_mem _ hx)]
    rcases appendItem_cases sep size out hne with ⟨hnone, hfull⟩ | ⟨out', hsome, hextent⟩
    · rw [hnone, Option.getD_none]
      omega
    · rw [hsome, Option.getD_some, hextent]
      omega

theorem le_length_iff {n : Nat} (hn : 0 < n) : n ≤ out.length ↔ n + 1 ≤ extent out := by
  unfold extent
  split
  · next hnil =>
    subst hnil
    simp
    omega
  · omega

theorem le_joined_iff {n : Nat} (hn : 0 < n) :
    n ≤ joined items ↔ n + 1 ≤ extent [] + (items.map fun item => item.length + 1).sum := by
  rw [joined, extent, if_pos rfl]
  omega

end

theorem snprintf_ne_nil {n : Nat} {s : Bytes} (hn : 1 < n) (hs : s ≠ []) : snprintf n s ≠ [] := by
  intro hnil
  have hlen : min (n - 1) s.length = 0 := by
    rw [← List.length_take, ← snprintf, hnil, List.length_nil]
  have hpos := List.length_pos_of_ne_nil hs
  omega

theorem entry_fits {n : Nat} {s : Bytes} (hn : 1 < n) (hs : s ≠ []) : snprintf n s ≠ [] ∧
    (snprintf n s).length + 1 ≤ n :=
  ⟨snprintf_ne_nil hn hs, snprintf_length_lt (by omega) s⟩

theorem listText_overlong (records : List Job) :
    bufferSize ≤ 6 + (listText (bufferSize * 2) records).length ↔
      bufferSize ≤ 6 + joined (records.map listEntry) := by
  have hbuffer : bufferSize = 4096 := rfl
  have hentries : ∀ item ∈ records.map listEntry, item ≠ [] ∧ item.length + 1 ≤ 256 := by
    intro item hitem
    obtain ⟨r, -, rfl⟩ := List.mem_map.mp hitem
    exact entry_fits (by decide) (by simp [lit])
  have htext : 4090 ≤ (listText (bufferSize * 2) records).length ↔
    4090 ≤ joined (records.map listEntry) := by
    rw [listText]
    split
    · next hnil =>
      subst hnil
      decide
    · rw [le_length_iff (by decide), le_joined_iff (by decide)]
      exact appendItems_extent (by omega) hentries
  omega

theorem historyText_overlong (dt : DurationText) (records : List Job) :
    bufferSize ≤ 9 + (historyText dt (bufferSize * 2) records).length ↔
      bufferSize ≤ 9 + joined ((finished records).map (historyEntry dt)) := by
  have hbuffer : bufferSize = 4096 := rfl
  have hentries : ∀ item ∈ (finished records).map (historyEntry dt), item ≠ [] ∧
    item.length + 1 ≤ 320 := by
    intro item hitem
    obtain ⟨r, -, rfl⟩ := List.mem_map.mp hitem
    exact entry_fits (by decide) (by simp [lit])
  have hkept : 4088 ≤ extent (keepItems 59 (bufferSize * 2) [] _) ↔ _ :=
    keepItems_extent (by omega) hentries
  have htext : 4087 ≤ (historyText dt (bufferSize * 2) records).length ↔
      4087 ≤ joined ((finished records).map (historyEntry dt)) := by
    rw [le_joined_iff (by decide), ← hkept, historyText]
    split
    · next hnil =>
      rw [hnil]
      decide
    · exact le_length_iff (by decide)
  omega

theorem clientList_overlong (clients : Clients) :
    bufferSize ≤ 9 + (formatClientList clients (bufferSize * 2)).length ↔
      bufferSize ≤ 9 + joined (clients.active.map clientEntry) := by
  have hbuffer : bufferSize = 4096 := rfl
  have hentries : ∀ item ∈ clients.active.map clientEntry, item ≠ [] ∧ item.length + 1 ≤ 256 := by
    intro item hitem
    obtain ⟨c, -, rfl⟩ := List.mem_map.mp hitem
    exact entry_fits (by decide) (by simp [lit])
  have htext : 4087 ≤ (formatClientList clients (bufferSize * 2)).length ↔
      4087 ≤ joined (clients.active.map clientEntry) := by
    rw [formatClientList]
    split
    · next hnone =>
      rw [List.length_eq_zero_iff.mp hnone]
      decide
    · rw [le_length_iff (by decide), le_joined_iff (by decide)]
      exact appendItems_extent (by omega) hentries
  omega

theorem appendItems_length {sep : UInt8} {size k : Nat} {out : Bytes} {items : List Bytes}
    (hitems : ∀ item ∈ items, item.length < k) :
    (appendItems sep size out items).length ≤ out.length + k * items.length := by
  induction items generalizing out with
  | nil => exact Nat.le_refl _
  | cons item items ih =>
    have hitem := hitems item List.mem_cons_self
    rw [appendItems, List.length_cons, Nat.mul_succ]
    split
    · omega
    · next out' happend =>
      have hrest := @ih out' fun x hx => hitems x (List.mem_cons_of_mem _ hx)
      have hone : out'.length ≤ out.length + k := by
        obtain ⟨-, hsome⟩ := Option.ite_none_left_eq_some.mp happend
        obtain rfl := Option.some.inj hsome
        split
        · omega
        · rw [List.length_append, List.length_cons]
          omega
      omega

theorem blocklistFormat_length {ips : List Bytes} (hips : ∀ ip ∈ ips, ip.length < 64)
    (hcount : ips.length ≤ maxBlockedIps) : (blocklistFormat ips bufferSize).length ≤ 2048 := by
  rw [blocklistFormat]
  split
  · decide
  · have hmax : maxBlockedIps = 32 := rfl
    have hlen : (appendItems 44 bufferSize [] ips).length ≤ _ := appendItems_length hips
    rw [List.length_nil] at hlen
    omega

/-! Replies on every path. -/

section

variable {codec : PngCodec} {cfg : RuntimeConfig} {dt : DurationText} {fds : ServerFds}
  {m m' : MainState} {s s' : Sys} {α β : Type} {a : α} {p : Task α} {tr : List Call} {fd : Int}
  {Q : α → Prop}

/-- The operation sends the session a line. -/
def Op.answers (fd : Int) : Op → Prop
  | .writeAll f text => f = fd ∧ text.getLast? = some newline
  | _ => False

theorem answered_of_performed (h : ∃ c ∈ tr, c.op.answers fd) : Answered fd tr := by
  obtain ⟨⟨o, s₁, b⟩, hc, hop⟩ := h
  cases o with
  | writeAll f text =>
    obtain ⟨rfl, hline⟩ := hop
    exact ⟨text, List.mem_filterMap.mpr ⟨_, hc, if_pos rfl⟩, hline⟩
  | _ => exact hop.elim

/-- Counts and texts are of the size of what they come from. -/
def Modest : (o : Op) → Ans o → Prop
  | .getJob _ .id, id => id ≤ maxJobs
  | .getJob _ .result, text => text.length < maxJobResult
  | .getJob _ .resultMeta, info => info.2.1 < 2 ^ 64 ∧ info.2.2.length < maxJobFilename
  | .jobCount, count => count ≤ maxJobs
  | .stat _, size => ∀ n, size = some n → n < 2 ^ 64
  | _, _ => True

/-- The sizes of files and results are those of an address space. -/
def Sized (s : Sys) : Prop :=
  Records (fun _ r => r.result_size < 2 ^ 64) s ∧ ∀ path content,
    s.world.files path = some content → content.length < 2 ^ 64

theorem exec_modest {e : Env} {t : Tid} {o : Op} {b : Ans o} {w' : World} {marks : List Mark}
    (hinv : Inv cfg codec s) (hkempt : Records (fun _ => Kempt cfg) s) (hsized : Sized s)
    (hexec : exec codec e t s.world o = some (b, w', marks)) :
    Modest o b := by
  obtain ⟨hsizes, hfiles⟩ := hsized
  have hbound := hinv.bound
  cases o with
  | jobCount =>
    simp only [exec, Option.some.injEq, Prod.mk.injEq] at hexec
    obtain ⟨rfl, -⟩ := hexec
    exact hbound
  | stat path =>
    simp only [exec, Option.some.injEq, Prod.mk.injEq] at hexec
    obtain ⟨rfl, -⟩ := hexec
    intro n hn
    split at hn
    · obtain ⟨content, hcontent, rfl⟩ := Option.map_eq_some_iff.mp hn
      exact hfiles path content hcontent
    · cases hn
  | getJob j f =>
    simp only [exec, Option.some.injEq, Prod.mk.injEq] at hexec
    obtain ⟨rfl, -⟩ := hexec
    by_cases hj : j < s.world.jobs.length
    · have hrecord := hkempt j hj
      cases f with
      | id =>
        have hid := hinv.id j hj
        change (s.world.job j).id ≤ maxJobs
        omega
      | result => exact hrecord.result
      | resultMeta => exact ⟨hsizes j hj, hrecord.filename⟩
      | _ => trivial
    · rw [World.job_default (Nat.le_of_not_lt hj)]
      cases f with
      | id => exact Nat.zero_le _
      | result => exact (by decide : 0 < maxJobResult)
      | resultMeta => exact ⟨(by decide : 0 < 2 ^ 64), (by decide : 0 < maxJobFilename)⟩
      | _ => trivial
  | _ => trivial

theorem calls_modest (hcalls : ∀ c ∈ tr, Inv cfg codec c.state ∧
    Records (fun _ => Kempt cfg) c.state)
    (hsized : ∀ c ∈ tr, Sized c.state) (h : AmidCalls codec cfg p s tr a s') :
    ∀ c ∈ tr, Modest c.op c.answer := by
  intro c hc
  obtain ⟨s₁, e, marks, -, hexec, -⟩ := h.steps c hc
  exact exec_modest (hcalls c hc).1 (hcalls c hc).2 (hsized c hc) hexec

/-- The program sends the session a line on every path. -/
structure Responds (fd : Int) (p : Task α) : Prop where
  always : p.Performs Modest (Op.answers fd) fun _ => False

theorem Responds.performs (hp : Responds fd p) : p.Performs Modest (Op.answers fd) Q :=
  hp.always.mono fun _ h => h.elim

theorem Responds.andThen (hp : Responds fd p) (f : α → Task β) : Responds fd (p >>= f) :=
  ⟨hp.always.bind fun _ h => h.elim⟩

theorem responds_bind {f : α → Task β} (hp : p.Performs Modest (Op.answers fd) Q)
    (hf : ∀ a, Q a → Responds fd (f a)) :
    Responds fd (p >>= f) :=
  ⟨hp.bind fun a ha => (hf a ha).always⟩

theorem responds_after {f : α → Task β} (hf : ∀ a, Responds fd (f a)) : Responds fd (p >>= f) :=
  responds_bind (Prog.performs_any p) fun a _ => hf a

theorem responds_call {o : Op} {f : Ans o → Task β} (hf : ∀ b, Modest o b → Responds fd (f b)) :
    Responds fd (call o >>= f) :=
  responds_bind (Prog.performs_answer o) hf

theorem response_responds {text : Bytes} (hline : text.getLast? = some newline)
    (hfits : text.length < bufferSize) :
    Responds fd (sendResponsef fd text) := by
  refine ⟨?_⟩
  rw [sendResponsef, if_neg (by omega)]
  exact Prog.performs_now ⟨rfl, hline⟩

theorem line_responds {body : Bytes} (hfits : body.length + 1 < bufferSize) :
    Responds fd (sendResponsef fd (body ++ lit "\n")) := by
  refine response_responds ?_ ?_
  · exact List.getLast?_concat
  · rw [List.length_append]
    exact hfits

theorem respond_responds {text : Bytes} (hline : text.getLast? = some newline)
    (hfits : text.length < bufferSize) {f : Bool → β} :
    Responds fd (sendResponsef fd text >>= fun sent => pure (f sent)) :=
  (response_responds hline hfits).andThen _

theorem number_line {pre : Bytes} {n : Nat} (hpre : pre.length ≤ 1000) (hn : n < 2 ^ 64) :
    Responds fd (sendResponsef fd (pre ++ decimal n ++ lit "\n")) := by
  have hbuffer : bufferSize = 4096 := rfl
  have hdigits := decimal_small hn
  refine line_responds ?_
  rw [List.length_append]
  omega

theorem enqueueJob_responds {client : ClientSession} {type : JobType}
    {payload input_path stored_path : Option Bytes} :
    Responds client.fd (enqueueJob client type payload input_path stored_path) := by
  refine responds_call fun created _ => ?_
  cases created with
  | none => exact response_responds (by decide) (by decide)
  | some job =>
    have hpush : Responds client.fd (do
        if !(← call (.push job)) then
          jobSetResult job (lit "enqueue failed")
          jobSetState job .failed
          sendResponsef client.fd (lit "ERR cannot enqueue job\n")
        else
          sendResponsef client.fd (lit "JOB " ++ decimal (← jobId job) ++ lit "\n")) := by
      refine responds_call fun pushed _ => ?_
      split
      · refine responds_after fun _ => responds_after fun _ => ?_
        exact response_responds (by decide) (by decide)
      · refine responds_call fun id hid => number_line (by decide) ?_
        exact Nat.lt_of_le_of_lt (show (id : Nat) ≤ maxJobs from hid) (by decide)
    cases stored_path with
    | none => exact hpush
    | some path => exact responds_after fun _ => hpush

theorem receivePngToUpload_replies {client : ClientSession} {size : UInt64} :
    (receivePngToUpload cfg client size).Performs Modest (Op.answers client.fd) fun png =>
      png ≠ none := by
  unfold receivePngToUpload
  split
  · exact Responds.performs (respond_responds (by decide) (by decide))
  · refine (Prog.performs_any _).bind fun next_id _ => ?_
    split
    · exact Responds.performs (respond_responds (by decide) (by decide))
    · refine (Prog.performs_any _).bind fun received _ => ?_
      split
      · exact Responds.performs (respond_responds (by decide) (by decide))
      · exact nofun

theorem receiveExtraToFile_replies {size max : UInt64} {label suffix : Bytes} {job_seq : Nat}
    (hlabel : label.length ≤ 1000) :
    (receiveExtraToFile cfg fd size max label job_seq suffix).Performs Modest (Op.answers fd)
      fun extra => extra ≠ none := by
  have hlabelled : ∀ {trouble : Bytes}, trouble.getLast? = some newline → trouble.length ≤ 1000 →
      Responds fd (do
        let _ ← sendResponsef fd (lit "ERR " ++ label ++ trouble)
        return (none : Option Bytes)) := by
    intro trouble hline hlen
    have hbuffer : bufferSize = 4096 := rfl
    have herr : (lit "ERR ").length = 4 := by decide
    refine respond_responds ?_ ?_
    · rw [List.getLast?_append, hline]
      rfl
    · rw [List.length_append, List.length_append]
      omega
  unfold receiveExtraToFile
  split
  · exact Responds.performs (hlabelled (by decide) (by decide))
  · split
    · exact Responds.performs (respond_responds (by decide) (by decide))
    · split
      · refine (Prog.performs_any _).bind fun opened _ => ?_
        split
        · exact Responds.performs (respond_responds (by decide) (by decide))
        · refine (Prog.performs_any _).bind fun closed _ => ?_
          split
          · exact Responds.performs (respond_responds (by decide) (by decide))
          · exact nofun
      · refine (Prog.performs_any _).bind fun received _ => ?_
        split
        · exact Responds.performs (hlabelled (by decide) (by decide))
        · exact nofun

theorem handlePngUpload_responds {client : ClientSession} {request : ProtocolRequest}
    {type : JobType} :
    Responds client.fd (handlePngUpload cfg client request type) := by
  refine responds_bind receivePngToUpload_replies fun png hpng => ?_
  cases png with
  | none => exact absurd rfl hpng
  | some png_path => exact enqueueJob_responds.andThen _

theorem handleEncodeText_responds {client : ClientSession} {request : ProtocolRequest} :
    Responds client.fd (handleEncodeText cfg client request) := by
  refine responds_bind receivePngToUpload_replies fun png hpng => ?_
  cases png with
  | none => exact absurd rfl hpng
  | some png_path =>
    refine responds_after fun next_id => ?_
    refine responds_bind (receiveExtraToFile_replies (by decide)) fun text htext => ?_
    cases text with
    | none => exact absurd rfl htext
    | some text_path => exact enqueueJob_responds.andThen _

theorem handleEncodeFileBody_responds {client : ClientSession} {request : ProtocolRequest}
    {png_path filename : Bytes} :
    Responds client.fd (handleEncodeFileBody cfg client request png_path filename) := by
  refine responds_after fun next_id => ?_
  refine responds_bind (receiveExtraToFile_replies (by decide)) fun file hfile => ?_
  cases file with
  | none => exact absurd rfl hfile
  | some file_path => exact enqueueJob_responds.andThen _

theorem handleEncodeFile_responds {client : ClientSession} {request : ProtocolRequest} :
    Responds client.fd (handleEncodeFile cfg client request) := by
  unfold handleEncodeFile
  split
  · exact responds_after fun _ => respond_responds (by decide) (by decide)
  · refine responds_bind receivePngToUpload_replies fun png hpng => ?_
    cases png with
    | none => exact absurd rfl hpng
    | some png_path =>
      dsimp only
      split
      · refine responds_after fun name => ?_
        cases name with
        | none => exact respond_responds (by decide) (by decide)
        | some filename =>
          dsimp only
          split
          · exact respond_responds (by decide) (by decide)
          · exact handleEncodeFileBody_responds
      · exact handleEncodeFileBody_responds

theorem handleArgument_responds {client : ClientSession} {request : ProtocolRequest} {empty : Bytes}
    {enqueue : Task Bool} (hline : empty.getLast? = some newline)
    (hfits : empty.length < bufferSize) (h : Responds client.fd enqueue) :
    Responds client.fd (handleArgument client request empty enqueue) := by
  unfold handleArgument
  split
  · exact respond_responds hline hfits
  · exact h.andThen _

/-! The commands about one job. -/

theorem withJob_responds {id : UInt64} {handle : Nat → Task Unit}
    (h : ∀ job, Responds fd (handle job)) :
    Responds fd (withJob fd id handle) := by
  refine responds_call fun found _ => ?_
  cases found with
  | none => exact respond_responds (by decide) (by decide)
  | some job => exact h job

theorem jobState_length (st : JobState) : (jobStateToString st).length ≤ 8 := by cases st <;> decide

theorem jobResultKind_length (kind : JobResultKind) : (jobResultKindToString kind).length ≤ 4 := by
  cases kind <;> decide

theorem handleStatus_responds {id : UInt64} {job : Nat} : Responds fd (handleStatus fd id job) := by
  refine responds_call fun st _ => (line_responds ?_).andThen _
  have hid := decimal_small id.toNat_lt
  have hstate := jobState_length st
  have hbuffer : bufferSize = 4096 := rfl
  have hlits : (lit "STATUS ").length = 7 ∧ (lit " ").length = 1 := by decide
  simp only [List.length_append, hlits]
  omega

theorem handleResult_responds {id : UInt64} {job : Nat} : Responds fd (handleResult fd id job) := by
  refine responds_call fun st _ => ?_
  have hid := decimal_small id.toNat_lt
  have hstate := jobState_length st
  have hbuffer : bufferSize = 4096 := rfl
  split
  · refine (line_responds ?_).andThen _
    have hunder : (lit "ERR job not finished state=").length = 27 := by decide
    simp only [List.length_append, hunder]
    omega
  · refine responds_call fun result hresult => (line_responds ?_).andThen _
    have hshort : result.length < 2048 := hresult
    have hlits : (lit "RESULT ").length = 7 ∧ (lit " state=").length = 7 ∧
      (lit " msg=").length = 5 := by decide
    simp only [List.length_append, hlits]
    omega

theorem handleMeta_responds {id : UInt64} {job : Nat} : Responds fd (handleMeta fd id job) := by
  refine responds_call fun st _ => ?_
  split
  · exact respond_responds (by decide) (by decide)
  · refine responds_call fun info hinfo => ?_
    obtain ⟨kind, size, name⟩ := info
    refine (line_responds ?_).andThen _
    have hid := decimal_small id.toNat_lt
    have hsize : (decimal size).length ≤ 20 := decimal_small hinfo.1
    have hkind := jobResultKind_length kind
    have hname : name.length < 256 := hinfo.2
    have hbuffer : bufferSize = 4096 := rfl
    have hlits : (lit "META ").length = 5 ∧ (lit " type=").length = 6 ∧ (lit " size=").length = 6 ∧
        (lit " name=").length = 6 := by decide
    simp only [List.length_append, hlits]
    omega

theorem handleDownload_responds {job : Nat} : Responds fd (handleDownload fd job) := by
  refine responds_call fun st _ => ?_
  split
  · exact respond_responds (by decide) (by decide)
  · refine responds_after fun path => ?_
    split
    · exact respond_responds (by decide) (by decide)
    · refine responds_call fun size hsize => ?_
      cases size with
      | none => exact respond_responds (by decide) (by decide)
      | some n => exact (number_line (by decide) (hsize n rfl)).andThen _

theorem handleCancel_responds {id : UInt64} {refused : Bytes} {job : Nat}
    (hline : refused.getLast? = some newline) (hfits : refused.length < bufferSize) :
    Responds fd (handleCancel fd id refused job) := by
  refine responds_call fun accepted _ => ?_
  split
  · exact respond_responds hline hfits
  · exact (number_line (by decide) id.toNat_lt).andThen _

theorem answerUserCommand_responds {client : ClientSession} {request : ProtocolRequest} :
    Responds client.fd (answerUserCommand cfg client request) := by
  cases hcommand : request.command <;> simp only [answerUserCommand, hcommand]
  case submit => exact handleArgument_responds (by decide) (by decide) enqueueJob_responds
  case validateImage => exact handleArgument_responds (by decide) (by decide) enqueueJob_responds
  case analyzeCapacity => exact handleArgument_responds (by decide) (by decide) enqueueJob_responds
  case encodeText => exact handleEncodeText_responds
  case encodeFile => exact handleEncodeFile_responds
  case decode => exact handlePngUpload_responds
  case validate => exact handlePngUpload_responds
  case capacity => exact handlePngUpload_responds
  case status => exact withJob_responds fun _ => handleStatus_responds
  case result => exact withJob_responds fun _ => handleResult_responds
  case jobMeta => exact withJob_responds fun _ => handleMeta_responds
  case download => exact withJob_responds fun _ => handleDownload_responds
  case cancel => exact withJob_responds fun _ => handleCancel_responds (by decide) (by decide)
  all_goals exact respond_responds (by decide +kernel) (by decide +kernel)

theorem handleUserCommand_responds {client : ClientSession} {request : ProtocolRequest} :
    Responds client.fd (handleUserCommand cfg client request) := by
  unfold handleUserCommand
  split
  · exact (response_responds (by decide) (by decide)).andThen _
  · exact answerUserCommand_responds.andThen _

/-! The admin's commands. -/

/-- How many jobs have been counted. -/
def JobStats.counted (st : JobStats) : Nat :=
  st.queued + st.running + st.done + st.failed + st.canceled

theorem JobStats.counted_count (st : JobStats) (j : Job) :
    (st.count j).counted = st.counted + 1 := by
  unfold JobStats.count JobStats.counted
  cases j.state <;> dsimp only <;> split <;> dsimp only <;> omega

theorem JobStats.total_count (st : JobStats) (j : Job) : (st.count j).total = st.total := by
  unfold JobStats.count
  cases j.state <;> dsimp only <;> split <;> rfl

theorem collectStatsLoop_counts {left i : Nat} {st : JobStats} :
    (collectStatsLoop left i st).Performs Modest (Op.answers fd) fun st' =>
      st'.counted = st.counted + left ∧ st'.total = st.total := by
  induction left generalizing i st with
  | zero => exact ⟨rfl, rfl⟩
  | succ left ih =>
    refine (Prog.performs_any _).bind fun job _ => ih.mono fun st' hst' => ?_
    rw [st.counted_count job, st.total_count job] at hst'
    exact ⟨by omega, hst'.2⟩

theorem collectStats_small : jobTableCollectStats.Performs Modest (Op.answers fd) fun st =>
    st.counted ≤ 1024 ∧ st.total ≤ 1024 := by
  refine (Prog.performs_answer _).bind fun count hcount =>
    collectStatsLoop_counts.mono fun st hst => ?_
  have hsmall : (count : Nat) ≤ 1024 := hcount
  obtain ⟨hcounted, htotal⟩ := hst
  have hzero : ({ total := count } : JobStats).counted = 0 := rfl
  rw [hzero, Nat.zero_add] at hcounted
  rw [hcounted, htotal]
  exact ⟨hsmall, hsmall⟩

theorem stats_responds {client : ClientSession} {request : ProtocolRequest} {i : Nat}
    (hcommand : request.command = .stats) (hdt : ∀ ds, (dt.average1 ds).length ≤ 320) :
    Responds client.fd (handleAdminCommand dt m i client request) := by
  simp only [handleAdminCommand, hcommand]
  refine responds_bind collectStats_small fun st hst => (line_responds ?_).andThen _
  obtain ⟨hcounted, htotal⟩ := hst
  have hactive : m.clients.active.length ≤ 128 :=
    (List.length_filter_le _ _).trans (by rw [m.clients.length_eq]; decide)
  have hdigits : ∀ n, n ≤ 1024 → (decimal n).length ≤ 20 := fun n hn => decimal_small (by omega)
  unfold JobStats.counted at hcounted
  have h₁ := hdigits st.total htotal
  have h₂ := hdigits st.queued (by omega)
  have h₃ := hdigits st.running (by omega)
  have h₄ := hdigits st.done (by omega)
  have h₅ := hdigits st.failed (by omega)
  have h₆ := hdigits st.canceled (by omega)
  have h₇ := hdigits m.clients.active.length (by omega)
  have haverage := hdt st.durations
  have hbuffer : bufferSize = 4096 := rfl
  have hlits : (lit "STATS total=").length = 12 ∧ (lit " queued=").length = 8 ∧
    (lit " running=").length = 9 ∧
      (lit " done=").length = 6 ∧ (lit " failed=").length = 8 ∧ (lit " canceled=").length = 10 ∧
      (lit " avg_ms=").length = 8 ∧ (lit " clients=").length = 9 := by decide
  simp only [List.length_append, hlits]
  omega

theorem avgduration_responds {client : ClientSession} {request : ProtocolRequest} {i : Nat}
    (hcommand : request.command = .avgduration) (hdt : ∀ ds, (dt.average2 ds).length ≤ 320) :
    Responds client.fd (handleAdminCommand dt m i client request) := by
  simp only [handleAdminCommand, hcommand]
  refine responds_bind collectStats_small fun st hst => (line_responds ?_).andThen _
  obtain ⟨hcounted, -⟩ := hst
  unfold JobStats.counted at hcounted
  have hsamples : (decimal (st.done + st.failed)).length ≤ 20 := decimal_small (by omega)
  have haverage := hdt st.durations
  have hbuffer : bufferSize = 4096 := rfl
  have hlits : (lit "AVGDURATION ms=").length = 15 ∧ (lit " samples=").length = 9 := by decide
  simp only [List.length_append, hlits]
  omega

theorem parseIntArg_small {text : Bytes} {v : Int} (h : parseIntArg text = some v) :
    v.toNat < 2 ^ 64 := by
  obtain ⟨-, hdigits⟩ := Option.ite_none_left_eq_some.mp h
  obtain ⟨-, hwhole⟩ := Option.ite_none_left_eq_some.mp hdigits
  obtain ⟨-, hsign⟩ := Option.ite_none_left_eq_some.mp hwhole
  obtain ⟨hsmall, hv⟩ := Option.ite_none_left_eq_some.mp hsign
  obtain rfl := Option.some.inj hv
  rw [Int.toNat_natCast]
  omega

theorem handleKick_responds {argument : Bytes} : Responds fd (handleKick m fd argument) := by
  unfold handleKick
  split
  · exact respond_responds (by decide) (by decide)
  · next target_fd hparse =>
    split
    · exact respond_responds (by decide) (by decide)
    · refine responds_after fun told =>
        (number_line (by decide) (parseIntArg_small hparse)).andThen _

theorem handleUnblockIp_responds {ip : Bytes} (htidy : TidyMain m) :
    Responds fd (handleUnblockIp m fd ip) := by
  unfold handleUnblockIp
  split
  · exact respond_responds (by decide) (by decide)
  · next hempty =>
    split
    · exact respond_responds (by decide) (by decide)
    · next blocklist hremove =>
      refine (line_responds ?_).andThen _
      obtain ⟨hmem, -⟩ := blocklistRemove_some hremove
      have hip := htidy.blocked ip hmem
      have hlist := blocklistFormat_length (blocklistRemove_entries hremove htidy.blocked)
        (blocklistRemove_length hremove htidy.count)
      have hbuffer : bufferSize = 4096 := rfl
      have hlits : (lit "OK unblocked ip=").length = 16 ∧
        (lit " blocklist=").length = 11 := by decide
      simp only [List.length_append, hlits]
      omega

/-- An address that is echoed is on no session if the echo does not fit. -/
theorem blockIp_none {ip : Bytes} (htidy : TidyMain m) (hip : 64 ≤ ip.length) :
    (m.clients.slots.filter (·.matchesIp ip)).length = 0 := by
  have hslots : ∀ c ∈ m.clients.slots, c.addr_str.length < 64 :=
    Clients.mem_slots_iff.mpr fun i _ => (htidy.addr i).1
  rw [List.length_eq_zero_iff, List.filter_eq_nil_iff]
  intro c hc hmatches
  simp only [ClientSession.matchesIp, Bool.and_eq_true, beq_iff_eq] at hmatches
  have hshort := hslots c hc
  rw [hmatches.2] at hshort
  omega

theorem blockIp_small (ip : Bytes) : (m.clients.slots.filter (·.matchesIp ip)).length ≤ 128 :=
  (List.length_filter_le _ _).trans (by rw [m.clients.length_eq]; decide)

theorem handleBlockIp_responds {ip : Bytes} (htidy : TidyMain m)
    (hfits : ¬ (m.blocklist.length < maxBlockedIps ∧ bufferSize ≤ 24 + ip.length)) :
    Responds fd (handleBlockIp m fd ip) := by
  unfold handleBlockIp
  split
  · exact respond_responds (by decide) (by decide)
  · next hempty =>
    split
    · exact respond_responds (by decide) (by decide)
    · next blocklist hadd =>
      refine (line_responds ?_).andThen _
      have hdigits := decimal_small (n := (m.clients.slots.filter (·.matchesIp ip)).length)
        (Nat.lt_of_le_of_lt (blockIp_small ip) (by decide))
      have hbuffer : bufferSize = 4096 := rfl
      have hlits : (lit "OK blocked ip=").length = 14 ∧ (lit " kicked=").length = 8 := by decide
      simp only [List.length_append, hlits]
      by_cases hlong : 64 ≤ ip.length
      · have hnone := blockIp_none htidy hlong
        have hzero : (decimal 0).length = 1 := by decide
        rw [hnone, hzero]
        have hroom : m.blocklist.length < maxBlockedIps := by
          obtain ⟨-, ⟨hmem, -⟩ | ⟨hroom, -⟩⟩ := blocklistAdd_some hadd
          · have hshort := htidy.blocked ip hmem
            omega
          · exact hroom
        have hshort : ¬ bufferSize ≤ 24 + ip.length := fun hle => hfits ⟨hroom, hle⟩
        omega
      · omega

/-- A text that does not fit is the only one, and not sent. -/
theorem answered_respond {text : Bytes} (hline : text.getLast? = some newline)
    {f : Bool → β} {b : β} (h : AmidCalls codec cfg (sendResponsef fd text >>=
      fun sent => pure (f sent)) s tr b s') :
    Answered fd tr ↔ ¬ bufferSize ≤ text.length := by
  rw [Answered, sentTo_respond h]
  split
  · next hfits => exact iff_of_true ⟨text, List.mem_singleton_self _, hline⟩ (by omega)
  · next hlong =>
    refine iff_of_false ?_ (by omega)
    rintro ⟨text', hmem, -⟩
    exact absurd hmem List.not_mem_nil

theorem answered_report {pre body : Bytes} {f : Bool → β} {b : β}
    (h : AmidCalls codec cfg (sendResponsef fd (pre ++ body ++ lit "\n") >>=
      fun sent => pure (f sent)) s tr b s') :
    Answered fd tr ↔ ¬ bufferSize ≤ pre.length + 1 + body.length := by
  have hlen : (pre ++ body ++ lit "\n").length = pre.length + 1 + body.length := by
    have hone : (lit "\n").length = 1 := by decide
    rw [List.length_append, List.length_append, hone]
    omega
  rw [← hlen]
  exact answered_respond List.getLast?_concat h

theorem recordsRead_respond {text : Bytes} (h : ∀ c ∈ tr, c.op = .writeAll fd text) :
    recordsRead tr = [] := by
  refine List.filterMap_eq_nil_iff.mpr fun c hc => ?_
  obtain ⟨o, s₁, b⟩ := c
  obtain rfl : o = _ := h _ hc
  rfl

theorem answered_of_responds {p : Task α} {a : α} (hp : Responds fd p)
    (hmodest : ∀ c ∈ tr, Modest c.op c.answer) (h : AmidCalls codec cfg p s tr a s') :
    Answered fd tr := by
  rcases h.performs hp.always hmodest with hanswers | hfalse
  · exact answered_of_performed hanswers
  · exact hfalse.elim

theorem blockIp_silent {ip : Bytes} (htidy : TidyMain m)
    (hroom : m.blocklist.length < maxBlockedIps) (hlong : bufferSize ≤ 24 + ip.length)
    (h : AmidCalls codec cfg (handleBlockIp m fd ip) s tr m' s') :
    ¬ Answered fd tr := by
  have hbuffer : bufferSize = 4096 := rfl
  have hne : ip ≠ [] := List.ne_nil_of_length_pos (by omega)
  have hnew : ip ∉ m.blocklist := by
    intro hmem
    have hshort := htidy.blocked ip hmem
    omega
  have hadd : blocklistAdd m.blocklist ip = some (m.blocklist ++ [snprintf 64 ip]) := by
    rw [blocklistAdd, if_neg hne, if_neg hnew, if_pos hroom]
  simp only [handleBlockIp, if_neg hne, hadd] at h
  rw [answered_report h, not_not]
  have hzero : (decimal 0).length = 1 := by decide
  have hlits : (lit "OK blocked ip=").length = 14 ∧ (lit " kicked=").length = 8 := by decide
  simp only [List.length_append, hlits, blockIp_none htidy (show 64 ≤ ip.length by omega), hzero]
  omega

/-- The commands of an admin that may be too long to answer. -/
def longCommands : List ProtocolCommand := [.listjobs, .history, .listclients, .blockip]

theorem handleAdminCommand_responds {client : ClientSession} {q : ProtocolRequest} {i : Nat}
    (hq : q.command ∉ longCommands) (htidy : TidyMain m)
    (hdt₁ : ∀ ds, (dt.average1 ds).length ≤ 320) (hdt₂ : ∀ ds, (dt.average2 ds).length ≤ 320) :
    Responds client.fd (handleAdminCommand dt m i client q) := by
  cases hcommand : q.command
  case stats => exact stats_responds hcommand hdt₁
  case avgduration => exact avgduration_responds hcommand hdt₂
  case listjobs => exact absurd (by rw [hcommand]; decide) hq
  case history => exact absurd (by rw [hcommand]; decide) hq
  case listclients => exact absurd (by rw [hcommand]; decide) hq
  case blockip => exact absurd (by rw [hcommand]; decide) hq
  all_goals simp only [handleAdminCommand, hcommand]
  case kick => exact handleKick_responds
  case unblockip => exact handleUnblockIp_responds htidy
  case quit => exact (response_responds (by decide) (by decide)).andThen _
  case cancel =>
    have hcancel : Responds client.fd (withJob client.fd q.job_id fun job =>
        handleCancel client.fd q.job_id (lit "ERR cannot cancel\n") job) :=
      withJob_responds fun job => handleCancel_responds (by decide) (by decide)
    exact hcancel.andThen _
  all_goals exact respond_responds (by decide +kernel) (by decide +kernel)

theorem answered_admin {client : ClientSession} {q : ProtocolRequest} {i : Nat}
    (hadmin : client.type = .admin) (htidy : TidyMain m)
    (hdt₁ : ∀ ds, (dt.average1 ds).length ≤ 320) (hdt₂ : ∀ ds, (dt.average2 ds).length ≤ 320)
    (hmodest : ∀ c ∈ tr, Modest c.op c.answer)
    (h : AmidCalls codec cfg (handleAdminCommand dt m i client q) s tr m' s') :
    Answered client.fd tr ↔ ¬ Overlong dt m client q tr := by
  by_cases hq : q.command ∈ longCommands
  · have hcases : q.command = .listjobs ∨ q.command = .history ∨ q.command = .listclients ∨
      q.command = .blockip := by
      simpa [longCommands] using hq
    rcases hcases with hc | hc | hc | hc <;> simp only [Overlong, hadmin, hc, true_and]
    · simp only [handleAdminCommand, hc] at h
      obtain ⟨list, s₁, tr₁, tr₂, rfl, hlist, hrest⟩ := calls_bind h
      obtain ⟨rfl, hreads⟩ := calls_formatList hlist
      have hreport := answered_report hrest
      rw [Answered, sentTo_append, sentTo_reads hreads, recordsRead_append,
        recordsRead_respond (calls_respond hrest), List.append_nil, List.nil_append,
          ← listText_overlong]
      exact hreport
    · simp only [handleAdminCommand, hc] at h
      obtain ⟨hist, s₁, tr₁, tr₂, rfl, hhist, hrest⟩ := calls_bind h
      obtain ⟨rfl, hreads⟩ := calls_formatHistory hhist
      have hreport := answered_report hrest
      rw [Answered, sentTo_append, sentTo_reads hreads, recordsRead_append,
        recordsRead_respond (calls_respond hrest), List.append_nil, List.nil_append,
          ← historyText_overlong]
      exact hreport
    · simp only [handleAdminCommand, hc] at h
      rw [← clientList_overlong]
      exact answered_report h
    · simp only [handleAdminCommand, hc] at h
      constructor
      · rintro hanswered ⟨hroom, hlong⟩
        exact blockIp_silent htidy hroom hlong h hanswered
      · exact fun hfits => answered_of_responds (handleBlockIp_responds htidy hfits) hmodest h
  · have hnever : ¬ Overlong dt m client q tr := by
      rintro ⟨-, hlong⟩
      split at hlong
      · next hc => exact hq (by rw [hc]; decide)
      · next hc => exact hq (by rw [hc]; decide)
      · next hc => exact hq (by rw [hc]; decide)
      · next hc => exact hq (by rw [hc]; decide)
      · exact hlong
    exact iff_of_true (answered_of_responds (handleAdminCommand_responds hq htidy hdt₁ hdt₂)
      hmodest h) hnever

theorem answered_user {client : ClientSession} {q : ProtocolRequest} {i : Nat}
    (huser : client.type ≠ .admin) (hmodest : ∀ c ∈ tr, Modest c.op c.answer)
    (h : AmidCalls codec cfg (serveRequest cfg dt m i client q) s tr m' s') :
    Answered client.fd tr := by
  unfold serveRequest at h
  rw [if_neg huser] at h
  exact answered_of_responds (handleUserCommand_responds.andThen _) hmodest h

/-- Whatever a client sends is answered, unless the answer does not fit. -/
theorem commands_answered {files : Bytes → Option Bytes} {revents : Nat → Revents}
    {left i idx : Nat}
    (hrun : LoopRun codec cfg dt fds (initialLoop files) ⟨.walking revents (left + 1) i idx m, s⟩)
    (hready : (revents idx).any = true)
    (hline : ((readLine bufferSize (s.world.streams (m.clients.get i).fd)).1).getD [] ≠ [])
    (h : AmidCalls codec cfg (visitSlot cfg dt revents i idx m) s tr m' s')
    (hdt₁ : ∀ ds, (dt.average1 ds).length ≤ 320) (hdt₂ : ∀ ds, (dt.average2 ds).length ≤ 320)
    (hsized : ∀ c ∈ tr, Sized c.state) :
    Answered (m.clients.get i).fd tr ↔
      ¬ Overlong dt m (m.clients.get i) (nextRequest s (m.clients.get i).fd) tr := by
  have hkempt := calls_kempt hrun.atRest (visitSlot_keeps revents i idx) h
  have htidy : TidyMain m := hrun.tidy
  have hmodest := calls_modest hkempt hsized h
  obtain ⟨s₁, b, s₂, rest, rfl, hserve⟩ := calls_visit hready hline h
  have hrest : ∀ c ∈ rest, Modest c.op c.answer := fun c hc => hmodest c (List.mem_cons_of_mem _ hc)
  rw [Answered, sentTo_cons rfl]
  by_cases hadmin : (m.clients.get i).type = .admin
  · exact answered_admin hadmin htidy hdt₁ hdt₂ hrest (calls_admin hadmin hserve)
  · refine iff_of_true (answered_user hadmin hrest hserve) ?_
    exact fun hlong => hadmin hlong.1

end

theorem parse_blockip {ip : Bytes} (h : (ClientCommand.blockip ip).Printable .c) :
    protocolParseLine (lit "BLOCKIP " ++ ip ++ lit "\n") =
      { command := .blockip, argument1 := ip } := by
  have htext := ClientCommand.protocolParseLine_text h
  have hone : lit "\n" = [newline] := rfl
  rw [ClientCommand.text, ClientCommand.verb, ClientCommand.arguments] at htext
  rw [hone, htext, ClientCommand.request]

/-- An address of 4072 bytes. -/
def longAddress : Bytes := List.replicate 4072 120

theorem longAddress_mem {b : UInt8} (h : b ∈ longAddress) : b = 120 := List.eq_of_mem_replicate h

/-- An admin who blocks a long address hears nothing. -/
theorem blockip_unanswered :
    ¬ ∀ m s tr m' s', LoopRun boundedCodec runtimeConfigDefaults plainDurations plainFds
      (initialLoop fun _ => none)
        ⟨.walking (pollIn [5]) maxClients 0 5 m, s⟩ →
      ((readLine bufferSize (s.world.streams (m.clients.get 0).fd)).1).getD [] ≠ [] →
      AmidCalls boundedCodec runtimeConfigDefaults
        (visitSlot runtimeConfigDefaults plainDurations (pollIn [5]) 0 5 m) s tr m' s' →
      Answered (m.clients.get 0).fd tr := by
  intro hclaim
  have hlength : longAddress.length = 4072 := List.length_replicate
  have hnewline : newline ∉ longAddress := fun hmem => absurd (longAddress_mem hmem) (by decide)
  have hnul : 0 ∉ longAddress := fun hmem => absurd (longAddress_mem hmem) (by decide)
  have hprintable : (ClientCommand.blockip longAddress).Printable .c := by
    intro text htext
    obtain rfl := Option.some.inj htext
    refine ⟨hnul, hnewline, ?_⟩
    rw [List.length_append, ClientCommand.arguments, hlength]
    decide
  have hparse := parse_blockip hprintable
  obtain ⟨es, hes⟩ : ∃ es : Stream, es = [.chunk 66 (lit "LOCKIP " ++ longAddress ++ lit "\n")] :=
    ⟨_, rfl⟩
  have hrun : LoopRun boundedCodec runtimeConfigDefaults plainDurations plainFds _ _ :=
    seated_run (.inr rfl) (fun _ => none) es
  have hread : (readLine bufferSize es).1 = some (lit "BLOCKIP " ++ longAddress ++ lit "\n") := by
    have hline : IsLine (lit "BLOCKIP " ++ longAddress ++ lit "\n") := by
      refine .inl ⟨lit "BLOCKIP " ++ longAddress, rfl, newline_append (by decide) hnewline, ?_⟩
      rw [List.length_append, List.length_append, hlength]
      decide
    have hbytes : bytesOf es = (lit "BLOCKIP " ++ longAddress ++ lit "\n") ++ [] := by
      rw [hes]
      rfl
    obtain ⟨es', hloop, -⟩ := readLine_clean (by rw [hes]; simp [Clean]) hbytes hline
    rw [hloop]
  have hrequest : nextRequest (seated (fun _ => none) es) 9 =
    { command := .blockip, argument1 := longAddress } := by
    change protocolParseLine (((readLine bufferSize es).1).getD []) = _
    rw [hread]
    exact hparse
  have hline : ((readLine bufferSize es).1).getD [] ≠ [] := by
    rw [hread]
    exact List.ne_nil_of_mem (List.mem_append_right _ List.mem_cons_self)
  obtain ⟨tr, m', s', hcalls⟩ :=
    exists_visit_calls boundedCodec runtimeConfigDefaults plainDurations (pollIn [5]) 0 5
    (onlySession .admin) (seated (fun _ => none) es)
  obtain ⟨s₁, b, s₂, rest, rfl, hserve⟩ := calls_visit (by decide) hline hcalls
  have hadmin := calls_admin rfl hserve
  have hfd : (onlySession .admin).clients.get 0 = newSession 9 .admin (lit "10.0.0.7") := rfl
  rw [hfd] at hadmin
  change AmidCalls _ _ (handleAdminCommand _ _ _ _ (nextRequest (seated (fun _ => none) es) 9))
    _ _ _ _ at hadmin
  rw [hrequest] at hadmin
  have hsilent : ¬ Answered 9 rest := by
    refine blockIp_silent hrun.tidy ?_ ?_ hadmin
    · exact (by decide : 0 < maxBlockedIps)
    · rw [hlength]
      decide
  have hanswered := hclaim _ _ _ _ _ hrun hline hcalls
  rw [hfd, Answered, sentTo_cons rfl] at hanswered
  exact hsilent hanswered

/-- A user who is about to send PING. -/
def pinging : Sys := seated (fun _ => none) [.chunk 80 (lit "ING\n")]

theorem commands_answered_ping :
    ∃ tr m' s', AmidCalls boundedCodec runtimeConfigDefaults
        (visitSlot runtimeConfigDefaults plainDurations (pollIn [5]) 0 5 (onlySession .user))
          pinging tr m' s' ∧
      Answered 9 tr := by
  have hrun : LoopRun boundedCodec runtimeConfigDefaults plainDurations plainFds _ _ :=
    seated_run (.inl rfl) (fun _ => none) [.chunk 80 (lit "ING\n")]
  have hcalls : AmidCalls boundedCodec runtimeConfigDefaults
      (visitSlot runtimeConfigDefaults plainDurations (pollIn [5]) 0 5 (onlySession .user)) pinging
      [⟨.readLine 9, pinging, some (lit "PING\n")⟩,
        ⟨.writeAll 9 (lit "PONG\n"), ⟨pinging.world.setStream 9 [],
          .line 9 (lit "PING\n") :: pinging.history⟩, true⟩]
      (onlySession .user)
      ⟨pinging.world.setStream 9 [], .reply 9 (lit "PONG\n") :: .line 9 (lit "PING\n") ::
        pinging.history⟩ :=
    calls_of_transcribe (e := fun _ => {}) rfl
  have hsized : ∀ s : Sys, s.world.jobs = [] → (∀ path, s.world.files path = none) → Sized s := by
    intro s hjobs hfiles
    constructor
    · intro j hj
      rw [hjobs] at hj
      cases hj
    · intro path content hcontent
      rw [hfiles] at hcontent
      cases hcontent
  have haverage1 : ∀ ms, (plainDurations.average1 ms).length ≤ 320 :=
    fun _ => show (lit "0.0").length ≤ 320 by decide
  have haverage2 : ∀ ms, (plainDurations.average2 ms).length ≤ 320 :=
    fun _ => show (lit "0.00").length ≤ 320 by decide
  have hiff := commands_answered hrun (by decide) (by decide) hcalls haverage1 haverage2 ?_
  · refine ⟨_, _, _, hcalls, hiff.mpr fun hlong => ?_⟩
    exact absurd hlong.1 (by decide)
  · intro c hc
    rcases List.mem_cons.mp hc with rfl | hc
    · exact hsized _ rfl fun _ => rfl
    · obtain rfl := List.mem_singleton.mp hc
      exact hsized _ rfl fun _ => rfl

end StegaPng
