import StegaPng.MainConduct

/-! The commands that create jobs, and the poll loop around all commands. -/

namespace StegaPng

open Interleaving

section

variable {cfg : RuntimeConfig} {codec : PngCodec} {s s' : Sys} {α β : Type} {d : Desk}

/-- From the knowledge `d` main keeps to the conduct and ends between jobs. -/
def DeskKeeps (cfg : RuntimeConfig) (codec : PngCodec) (p : Task α) (d : Desk) : Prop :=
  ∀ s, AtDesk cfg d s → (conduct cfg codec).wp .main p (fun _ s' => making s'.history = none) s

theorem MainKeeps.atDesk {p : Task α} (hp : MainKeeps cfg codec p) : DeskKeeps cfg codec p d :=
  fun s hdesk => hp s hdesk.making

theorem deskKeeps_bind {p : Task α} {f : α → Task β} {Q : α → Desk → Prop}
    (hp : MainEnsures cfg codec p d Q) (hf : ∀ a d', Q a d' → DeskKeeps cfg codec (f a) d') :
    DeskKeeps cfg codec (p >>= f) d :=
  fun s hdesk => Discipline.wp_seq (hp s hdesk) fun a s' ⟨d', hq, hdesk'⟩ => hf a d' hq s' hdesk'

theorem DeskKeeps.andThen {p : Task α} {f : α → Task β} (hp : DeskKeeps cfg codec p d)
    (hf : ∀ a, MainKeeps cfg codec (f a)) : DeskKeeps cfg codec (p >>= f) d :=
  fun s hdesk => Discipline.wp_seq (hp s hdesk) fun a s' hs' => hf a s' hs'

theorem response_keeps (fd : Int) (text : Bytes) : MainKeeps cfg codec (sendResponsef fd text) :=
  mainKeeps_all (sendResponsef_all plain_idle fd text)

/-! A job in the making. -/

/-- Main is making the job with the record `r`, and has given up if `failed`. -/
structure Making (job : Nat) (r : Job) (failed : Bool) (s : Sys) : Prop where
  making : making s.history = some job
  record : s.world.job job = r
  failed : failed = true → .pushFailed job ∈ s.history

variable {job : Nat} {r : Job} {failed : Bool}

theorem Making.rely (hmaking : Making job r failed s) (hrely : MainRely cfg s s') :
    Making job r failed s' where
  making := hrely.making.trans hmaking.making
  record := (hrely.record job hmaking.making).trans hmaking.record
  failed hfailed := hrely.past.subset (hmaking.failed hfailed)

theorem Making.set (hmaking : Making job r failed s) {u : JobUpdate} {f : Unit → Task α}
    {Q : α → Sys → Prop}
    (hu : (∃ path, u = .storedPath path ∧
      StoredOk cfg { r with stored_path := snprintf maxJobPath path }) ∨
      ∃ text, u = .result text)
    (hf : ∀ s', Making job (u.apply 0 r) failed s' → (conduct cfg codec).wp .main (f ()) Q s') :
    (conduct cfg codec).wp .main (call (.setJob job u) >>= f) Q s := by
  intro s₁ hrely hinv
  have hmaking₁ := hmaking.rely hrely
  have hjob : job < s₁.world.jobs.length := by
    have hlast := (hinv.made job hmaking₁.making).1
    omega
  refine ⟨.inl ⟨rfl, hmaking₁.making, ?_⟩, ?_⟩
  · rcases hu with ⟨path, rfl, hstored⟩ | ⟨text, rfl⟩
    · change StoredOk cfg { s₁.world.job job with stored_path := snprintf maxJobPath path }
      rw [hmaking₁.record]
      exact hstored
    · trivial
  rintro ⟨⟩ ⟨w₂, h₂⟩ ⟨e, marks, -, hexec, hhistory⟩ -
  simp only [exec, Option.some.injEq, Prod.mk.injEq, true_and] at hexec
  obtain ⟨rfl, rfl⟩ := hexec
  have hsame : h₂ = s₁.history := by
    rcases hu with ⟨path, rfl, -⟩ | ⟨text, rfl⟩ <;> exact hhistory
  subst hsame
  refine hf _ ⟨hmaking₁.making, ?_, hmaking₁.failed⟩
  change (s₁.world.updateJob job fun j => u.apply e.now j).job job = _
  rw [World.updateJob_job _ hjob, hmaking₁.record]
  rcases hu with ⟨path, rfl, -⟩ | ⟨text, rfl⟩ <;> rfl

theorem push_keeps (hmaking : Making job r false s) (hstored : StoredOk cfg r) (fd : Int) :
    (conduct cfg codec).wp .main (do
      if !(← call (.push job)) then
        jobSetResult job (lit "enqueue failed")
        jobSetState job .failed
        sendResponsef fd (lit "ERR cannot enqueue job\n")
      else
        sendResponsef fd (lit "JOB " ++ decimal (← jobId job) ++ lit "\n"))
      (fun _ s' => making s'.history = none) s := by
  intro s₁ hrely hinv
  have hmaking₁ := hmaking.rely hrely
  refine ⟨⟨rfl, hmaking₁.making, by rw [hmaking₁.record]; exact hstored⟩, ?_⟩
  rintro pushed ⟨w₂, h₂⟩ ⟨e, marks, -, hexec, hhistory⟩ -
  cases pushed with
  | true =>
    have hmarks : marks = [.pushed job] := by
      simp only [exec] at hexec
      split at hexec
      · cases hexec
      · split at hexec <;> cases hexec
        rfl
    have hnone : making h₂ = none := by
      rw [show h₂ = marks ++ s₁.history from hhistory, hmarks]
      rfl
    refine mainKeeps_bind (mainKeeps_all ?_) (fun id => response_keeps fd _) _ hnone
    exact call_all plain_idle rfl
  | false =>
    have hfailed : Making job r true ⟨w₂, h₂⟩ := by
      obtain rfl : h₂ = marks ++ s₁.history := hhistory
      have hout : w₂ = s₁.world ∧ marks = [.pushFailed job] := by
        simp only [exec] at hexec
        split at hexec
        · cases hexec
          exact ⟨rfl, rfl⟩
        · split at hexec <;> cases hexec
          exact ⟨rfl, rfl⟩
      obtain ⟨rfl, rfl⟩ := hout
      exact ⟨hmaking₁.making, hmaking₁.record, fun _ => List.mem_cons_self ..⟩
    refine hfailed.set (.inr ⟨_, rfl⟩) fun s₃ hmaking₃ s₄ hrely₄ _ => ?_
    have hmaking₄ := hmaking₃.rely hrely₄
    refine ⟨.inl ⟨rfl, hmaking₄.making, rfl, hmaking₄.failed rfl, ?_⟩, ?_⟩
    · rw [hmaking₄.record]
      refine ⟨hstored, told_of_not_done (by simp) ?_⟩
      change newline ∉ snprintf maxJobResult (lit "enqueue failed")
      decide +kernel
    rintro ⟨⟩ ⟨w₅, h₅⟩ ⟨e₅, marks₅, -, hexec₅, hhistory₅⟩ -
    obtain rfl : h₅ = marks₅ ++ s₄.history := hhistory₅
    simp only [exec, Option.some.injEq, Prod.mk.injEq, true_and] at hexec₅
    obtain ⟨-, rfl⟩ := hexec₅
    exact response_keeps fd _ _ rfl

theorem enqueueJob_keeps {client : ClientSession} {type : JobType}
    {payload input_path stored_path : Option Bytes}
    (hupload : ∀ s now, AtDesk cfg d s → UploadOk cfg s.world.files d.request
      (newJob (d.count + 1) client.fd client.addr_str type payload input_path now))
    (hstored : ∀ r : Job, r.type = type → r.id = d.count + 1 →
      r.stored_path = snprintf maxJobPath (stored_path.getD []) → StoredOk cfg r) :
    DeskKeeps cfg codec (enqueueJob client type payload input_path stored_path) d := by
  intro s hdesk s₁ hrely hinv
  have hdesk₁ := hdesk.rely hrely
  have hid : s₁.world.next_id = d.count + 1 := by rw [hinv.next_id, hdesk₁.length]
  refine ⟨⟨rfl, hdesk₁.making, fun now => ?_⟩, ?_⟩
  · rw [hid, hdesk₁.request]
    exact hupload s₁ now hdesk₁
  rintro created ⟨w₂, h₂⟩ ⟨e, marks, -, hexec, hhistory⟩ -
  obtain rfl : h₂ = marks ++ s₁.history := hhistory
  simp only [exec] at hexec
  cases created with
  | none =>
    have hmarks : marks = [] := by
      split at hexec
      · cases hexec
        rfl
      · split at hexec <;> cases hexec
        rfl
    subst hmarks
    exact response_keeps client.fd _ _ hdesk₁.making
  | some job =>
    have hmaking : Making job (newJob (d.count + 1) client.fd client.addr_str type payload
      input_path e.now) false
        ⟨w₂, marks ++ s₁.history⟩ := by
      split at hexec
      · cases hexec
      · split at hexec <;> cases hexec
        exact ⟨rfl, by rw [← hid]; exact World.job_append_last rfl, by simp⟩
    cases stored_path with
    | none => exact push_keeps hmaking (hstored _ rfl rfl rfl) client.fd
    | some path =>
      exact hmaking.set (.inl ⟨path, rfl, hstored _ rfl rfl rfl⟩) fun s₃ hmaking₃ =>
        push_keeps hmaking₃ (hstored _ rfl rfl rfl) client.fd

/-! The commands that create a job. -/

theorem storedOk_of_single {r : Job} (htype : r.type ≠ .encodeText ∧ r.type ≠ .encodeFile)
    (hstored : r.stored_path = []) : StoredOk cfg r := by
  unfold StoredOk
  split
  · next h => exact absurd h htype.1
  · next h => exact absurd h htype.2
  · exact hstored

theorem enqueueJob_keeps_text {client : ClientSession} {payload : Bytes}
    (hcommand : (protocolParseLine d.request.1).command ∉ uploadCommands)
    (hpayload : newline ∉ payload) :
    DeskKeeps cfg codec (enqueueJob client .text (some payload) none none) d :=
  enqueueJob_keeps (fun _ _ _ => ⟨hcommand, fun hmem => hpayload (List.mem_of_mem_take hmem)⟩)
    fun _ hr _ hstored => storedOk_of_single (hr ▸ ⟨nofun, nofun⟩) hstored

/-- VALIDATE and CAPACITY jobs name the upload, or the path that the client gave. -/
theorem enqueueJob_keeps_image {client : ClientSession} {type : JobType} {input_path : Bytes}
    (htype : type = .validateImage ∨ type = .analyzeCapacity)
    (hpath : (protocolParseLine d.request.1).command ∈ uploadCommands →
      snprintf maxJobPath input_path = uploadPath cfg (d.count + 1) (lit "png")) :
    DeskKeeps cfg codec (enqueueJob client type none (some input_path) none) d := by
  refine enqueueJob_keeps (fun _ _ _ => ?_) fun r hr _ hstored => ?_
  · rcases htype with rfl | rfl <;> exact hpath
  · rcases htype with rfl | rfl <;> exact storedOk_of_single (hr ▸ ⟨nofun, nofun⟩) hstored

theorem handleArgument_keeps {client : ClientSession} {request : ProtocolRequest} {empty : Bytes}
    {enqueue : Task Bool} (henqueue : DeskKeeps cfg codec enqueue d) :
    DeskKeeps cfg codec (handleArgument client request empty enqueue) d := by
  unfold handleArgument
  split
  · exact (mainKeeps_bind (response_keeps _ _) fun _ => mainKeeps_pure _).atDesk
  · exact henqueue.andThen fun _ => mainKeeps_pure _

theorem snprintf_uploadPath {id : Nat} {suffix : Bytes} (hid : id < 2 ^ 64)
    (hsuffix : suffix.length ≤ 4) :
    snprintf maxJobPath (uploadPath cfg id suffix) = uploadPath cfg id suffix :=
  snprintf_eq (jobFilePath_length hid (storageUploadsDir_length cfg) hsuffix)

/-- What main has read so far is a request line alone. -/
def Desk.Fresh (d : Desk) (line : Bytes) : Prop :=
  d.request = (line, []) ∧ d.count ≤ maxJobs ∧ newline ∉ line.dropLast

theorem Desk.small (hcount : d.count ≤ maxJobs) : d.count + 1 < 2 ^ 64 := by
  have hmax : maxJobs = 1024 := rfl
  omega

theorem handleEncodeText_keeps {client : ClientSession} {line : Bytes}
    (hcommand : (protocolParseLine line).command = .encodeText) (hfresh : d.Fresh line) :
    DeskKeeps cfg codec (handleEncodeText cfg client (protocolParseLine line)) d := by
  obtain ⟨hrequest, hcount, -⟩ := hfresh
  refine deskKeeps_bind mainEnsures_receivePng ?_
  rintro png d₁ hpng
  cases png with
  | none => exact (mainKeeps_pure _).atDesk
  | some png_path =>
    obtain ⟨rfl, png, hpnglen, rfl⟩ := hpng _ rfl
    refine deskKeeps_bind mainEnsures_nextId ?_
    rintro n d₂ ⟨rfl, rfl, -⟩
    refine deskKeeps_bind (mainEnsures_receiveExtra (by decide) hcount) ?_
    rintro text d₃ htext
    cases text with
    | none => exact (mainKeeps_pure _).atDesk
    | some text_path =>
      obtain ⟨rfl, hle, text, htextlen, rfl⟩ := htext _ rfl
      refine DeskKeeps.andThen (enqueueJob_keeps ?_ ?_) fun _ => mainKeeps_pure _
      · intro s now hdesk
        have hpngfile := hdesk.inp (lit "png")
        have htextfile := hdesk.inp (lit "txt")
        have hbody : ((d.store (lit "png") png (some png)).store (lit "txt") text
          (some text)).request =
            (line, png ++ text) := by
          simp [Desk.store, hrequest]
        rw [hbody]
        refine ⟨hcommand, ?_, ?_, ?_, ?_, ?_⟩
        · exact UInt64.le_iff_toNat_le.mp hle
        · rw [List.length_append, hpnglen, htextlen]
        · exact snprintf_uploadPath (Desk.small hcount) (by decide)
        · rw [List.take_left' hpnglen]
          exact hpngfile
        · rw [List.drop_left' hpnglen]
          exact htextfile
      · intro r htype hid hpath
        unfold StoredOk
        rw [htype, hpath, hid]
        exact snprintf_uploadPath (Desk.small hcount) (by decide)

theorem handlePngUpload_keeps {client : ClientSession} {line : Bytes} {type : JobType}
    (htype : type = .decode ∧ (protocolParseLine line).command = .decode ∨
      type = .validateImage ∨ type = .analyzeCapacity) (hfresh : d.Fresh line) :
    DeskKeeps cfg codec (handlePngUpload cfg client (protocolParseLine line) type) d := by
  obtain ⟨hrequest, hcount, -⟩ := hfresh
  refine deskKeeps_bind mainEnsures_receivePng ?_
  rintro png d₁ hpng
  cases png with
  | none => exact (mainKeeps_pure _).atDesk
  | some png_path =>
    obtain ⟨rfl, png, hpnglen, rfl⟩ := hpng _ rfl
    refine DeskKeeps.andThen ?_ fun _ => mainKeeps_pure _
    rcases htype with ⟨rfl, hcommand⟩ | hfree
    · refine enqueueJob_keeps ?_ ?_
      · intro s now hdesk
        have hbody : (d.store (lit "png") png (some png)).request = (line, png) := by
          simp [Desk.store, hrequest]
        rw [hbody]
        refine ⟨hcommand, hpnglen, ?_, hdesk.inp (lit "png")⟩
        exact snprintf_uploadPath (Desk.small hcount) (by decide)
      · intro r hr _ hstored
        refine storedOk_of_single ?_ hstored
        rw [hr]
        decide
    · refine enqueueJob_keeps_image hfree fun _ => ?_
      exact snprintf_uploadPath (Desk.small hcount) (by decide)

theorem handleEncodeFileBody_keeps {client : ClientSession} {line png name : Bytes}
    (hcommand : (protocolParseLine line).command = .encodeFile) (hcount : d.count ≤ maxJobs)
    (hrequest : d.request = (line, png ++ name))
    (hpng : d.inp (lit "png") = some png)
    (hpnglen : png.length = (protocolParseLine line).size1.toNat)
    (hnamelen : name.length = (protocolParseLine line).size2.toNat)
    (hname : (protocolParseLine line).size2.toNat ≤ maxFilenameBytes) :
    DeskKeeps cfg codec (handleEncodeFileBody cfg client (protocolParseLine line)
      (uploadPath cfg (d.count + 1) (lit "png")) name) d := by
  refine deskKeeps_bind mainEnsures_nextId ?_
  rintro n d₂ ⟨rfl, rfl, -⟩
  refine deskKeeps_bind (mainEnsures_receiveExtra (by decide) hcount) ?_
  rintro file d₃ hfile
  cases file with
  | none => exact (mainKeeps_pure _).atDesk
  | some file_path =>
    obtain ⟨rfl, -, data, hdatalen, rfl⟩ := hfile _ rfl
    refine DeskKeeps.andThen (enqueueJob_keeps ?_ ?_) fun _ => mainKeeps_pure _
    · intro s now hdesk
      have hdatafile := hdesk.inp (lit "data")
      have hbody : (d₂.store (lit "data") data (some data)).request =
        (line, png ++ (name ++ data)) := by
        simp [Desk.store, hrequest]
      have hprefix : (png ++ name).length = (protocolParseLine line).size1.toNat +
          (protocolParseLine line).size2.toNat := by
        rw [List.length_append, hpnglen, hnamelen]
      rw [hbody]
      refine ⟨hcommand, hname, ?_, ?_, ?_, ?_, ?_⟩
      · rw [List.length_append, List.length_append, hpnglen, hnamelen, hdatalen, Nat.add_assoc]
      · exact snprintf_uploadPath (Desk.small hcount) (by decide)
      · rw [List.take_left' hpnglen]
        exact (hdesk.inp (lit "png")).trans hpng
      · rw [List.drop_left' hpnglen, List.take_left' hnamelen]
        refine snprintf_eq ?_
        have hshort := cstr_length_le name
        have hmax : maxFilenameBytes = 255 := rfl
        have hpayload : maxJobPayload = 1024 := rfl
        change (cstr name).length < _
        omega
      · rw [← List.append_assoc, List.drop_left' hprefix]
        exact hdatafile
    · intro r htype hid hpath
      unfold StoredOk
      rw [htype, hpath, hid]
      exact snprintf_uploadPath (Desk.small hcount) (by decide)

theorem handleEncodeFile_keeps {client : ClientSession} {line : Bytes}
    (hcommand : (protocolParseLine line).command = .encodeFile) (hfresh : d.Fresh line) :
    DeskKeeps cfg codec (handleEncodeFile cfg client (protocolParseLine line)) d := by
  obtain ⟨hrequest, hcount, -⟩ := hfresh
  have hrespond : ∀ d' text, DeskKeeps cfg codec (sendResponsef client.fd text >>=
    fun _ => pure ()) d' :=
    fun _ text => (mainKeeps_bind (response_keeps _ _) fun _ => mainKeeps_pure _).atDesk
  unfold handleEncodeFile
  split
  · exact deskKeeps_bind mainEnsures_discardExact fun _ _ _ => hrespond _ _
  · next hname =>
    refine deskKeeps_bind mainEnsures_receivePng ?_
    rintro png d₁ hpng
    cases png with
    | none => exact (mainKeeps_pure _).atDesk
    | some png_path =>
      obtain ⟨rfl, png, hpnglen, rfl⟩ := hpng _ rfl
      have hfile : (d.store (lit "png") png (some png)).inp (lit "png") = some png :=
        Desk.store_inp ..
      dsimp only
      split
      · refine deskKeeps_bind mainEnsures_readExact ?_
        rintro name d₂ hread
        cases name with
        | none => exact hrespond _ _
        | some name =>
          obtain rfl := hread _ rfl
          dsimp only
          split
          · exact hrespond _ _
          · next hlen =>
            refine handleEncodeFileBody_keeps hcommand hcount ?_ hfile hpnglen (not_not.mp hlen)
              (Nat.not_lt.mp hname)
            simp [Desk.store, hrequest]
      · next hzero =>
        have hempty : (protocolParseLine line).size2.toNat = 0 := by
          have hle := UInt64.le_iff_toNat_le.mp (UInt64.not_lt.mp hzero)
          exact Nat.le_zero.mp hle
        refine handleEncodeFileBody_keeps hcommand hcount ?_ hfile hpnglen hempty.symm
          (Nat.not_lt.mp hname)
        simp [Desk.store, hrequest]

theorem answerUserCommand_keeps {client : ClientSession} {line : Bytes} (hfresh : d.Fresh line) :
    DeskKeeps cfg codec (answerUserCommand cfg client (protocolParseLine line)) d := by
  have hline : d.request.1 = line := by rw [hfresh.1]
  cases hcommand : (protocolParseLine line).command <;> simp only [answerUserCommand, hcommand]
  case submit =>
    refine handleArgument_keeps (enqueueJob_keeps_text ?_ (protocolParseLine_argument hfresh.2.2))
    rw [hline, hcommand]
    decide
  case validateImage =>
    refine handleArgument_keeps (enqueueJob_keeps_image (.inl rfl) fun hupload => ?_)
    rw [hline, hcommand] at hupload
    exact absurd hupload (by decide)
  case analyzeCapacity =>
    refine handleArgument_keeps (enqueueJob_keeps_image (.inr rfl) fun hupload => ?_)
    rw [hline, hcommand] at hupload
    exact absurd hupload (by decide)
  case encodeText => exact handleEncodeText_keeps hcommand hfresh
  case encodeFile => exact handleEncodeFile_keeps hcommand hfresh
  case decode => exact handlePngUpload_keeps (.inl ⟨rfl, hcommand⟩) hfresh
  case validate => exact handlePngUpload_keeps (.inr (.inl rfl)) hfresh
  case capacity => exact handlePngUpload_keeps (.inr (.inr rfl)) hfresh
  case cancel => exact (handleCancel_keeps _ _ _).atDesk
  case status => exact (mainKeeps_all (withJob_all plain_idle _ _ fun job =>
    handleStatus_all plain_idle _ _ job)).atDesk
  case result => exact (mainKeeps_all (withJob_all plain_idle _ _ fun job =>
    handleResult_all plain_idle _ _ job)).atDesk
  case jobMeta => exact (mainKeeps_all (withJob_all plain_idle _ _ fun job =>
    handleMeta_all plain_idle _ _ job)).atDesk
  case download => exact (mainKeeps_all (withJob_all plain_idle _ _ fun job =>
    handleDownload_all plain_idle _ job)).atDesk
  all_goals exact (mainKeeps_bind (response_keeps _ _) fun _ => mainKeeps_pure _).atDesk

theorem handleUserCommand_keeps {client : ClientSession} {line : Bytes} (hfresh : d.Fresh line) :
    DeskKeeps cfg codec (handleUserCommand cfg client (protocolParseLine line)) d := by
  unfold handleUserCommand
  split
  · refine (mainKeeps_bind (response_keeps _ _) fun _ => ?_).atDesk
    exact mainKeeps_all (closeClient_all client (session_idle rfl))
  · exact (answerUserCommand_keeps hfresh).andThen fun _ => mainKeeps_pure _

theorem handleAdminCommand_keeps (dt : DurationText) (m : MainState) (i : Nat)
    (admin : ClientSession) (request : ProtocolRequest) :
    MainKeeps cfg codec (handleAdminCommand dt m i admin request) := by
  by_cases hcommand : request.command = .cancel
  · simp only [handleAdminCommand, hcommand]
    exact mainKeeps_bind (handleCancel_keeps _ _ _) fun _ => mainKeeps_pure _
  · exact mainKeeps_all (handleAdminCommand_all plain_idle _ _ _ _ _ (fun h => absurd h hcommand)
      fun _ => session_idle rfl)

/-! The poll loop. -/

theorem handleClientCommand_keeps (dt : DurationText) (m : MainState) (i : Nat)
    (client : ClientSession) :
    MainKeeps cfg codec (handleClientCommand cfg dt m i client) := by
  have hclosed : MainKeeps cfg codec (closeClient client >>= fun closed =>
      pure { m with clients := m.clients.set i closed }) :=
    mainKeeps_bind (mainKeeps_all (closeClient_all client (session_idle rfl))) fun _ =>
      mainKeeps_pure _
  intro s hs s₁ hrely hinv
  have hs₁ : making s₁.history = none := hrely.making.trans hs
  refine ⟨rfl, ?_⟩
  rintro line ⟨w₂, h₂⟩ ⟨e, marks, -, hexec, hhistory⟩ hinv₂
  obtain rfl : h₂ = marks ++ s₁.history := hhistory
  simp only [exec, Option.some.injEq, Prod.mk.injEq] at hexec
  obtain ⟨hline, rfl, rfl⟩ := hexec
  rw [hline] at hinv₂ ⊢
  cases line with
  | none => exact hclosed _ hs₁
  | some buffer =>
    have hs₂ : making ([Mark.line client.fd buffer] ++ s₁.history) = none := hs₁
    cases buffer with
    | nil => exact hclosed _ hs₂
    | cons b bs =>
      dsimp only [Option.getD_some]
      split
      · exact handleAdminCommand_keeps dt m i client _ _ hs₂
      · refine DeskKeeps.andThen (d := ⟨s₁.world.jobs.length, (b :: bs, []), fun suffix =>
          s₁.world.files (uploadPath cfg (s₁.world.jobs.length + 1) suffix)⟩)
          (handleUserCommand_keeps ⟨rfl, hinv.bound, readLineLoop_newline hline⟩)
            (fun _ => mainKeeps_pure _) _ ?_
        exact ⟨hs₂, rfl, rfl, fun _ => rfl⟩

theorem walkClients_keeps (dt : DurationText) (revents : Nat → Revents) (left i idx : Nat)
    (m : MainState) :
    MainKeeps cfg codec (walkClients cfg dt revents left i idx m) := by
  induction left generalizing i idx m with
  | zero => exact mainKeeps_pure _
  | succ left ih =>
    unfold walkClients
    dsimp only
    split
    · exact ih _ _ _
    · have hserve : MainKeeps cfg codec (if (revents idx).any then
          handleClientCommand cfg dt m i (m.clients.get i) else pure m) := by
        split
        · exact handleClientCommand_keeps dt m i _
        · exact mainKeeps_pure _
      exact mainKeeps_bind hserve fun _ => mainKeeps_bind (ih _ _ _) fun _ => mainKeeps_pure _

theorem serveReady_keeps (dt : DurationText) (fds : ServerFds) (revents : Nat → Revents)
    (nfds : Nat) (m : MainState) : MainKeeps cfg codec (serveReady cfg dt fds revents nfds m) := by
  have hwhen : ∀ (b : Bool) (m : MainState) (p : Task (MainState × Option Connection)),
    p.All (Idle cfg codec) →
      MainKeeps cfg codec (if b then p else pure (m, none)) := by
    intro b m p hp
    split
    · exact mainKeeps_all hp
    · exact mainKeeps_pure _
  have hclose : ∀ fd, Idle cfg codec (.close fd) := fun fd => session_idle rfl
  have haccept : ∀ fd, Idle cfg codec (.accept fd) := fun fd => session_idle rfl
  unfold serveReady
  refine mainKeeps_bind (hwhen _ _ _ (acceptNewInetConnection_all plain_idle hclose
    _ _ _ _ (haccept _))) fun user => ?_
  refine mainKeeps_bind (hwhen _ _ _ (acceptNewInetConnection_all plain_idle hclose
    _ _ _ _ (haccept _))) fun admin => ?_
  refine mainKeeps_bind (hwhen _ _ _ (acceptNewUnixConnection_all plain_idle hclose
    _ _ (haccept _))) fun unix => ?_
  refine mainKeeps_bind (mainKeeps_all (drainIfReady_all plain_idle _ _)) fun _ => ?_
  refine mainKeeps_bind (mainKeeps_all (drainIfReady_all plain_idle _ _)) fun _ => ?_
  exact mainKeeps_bind (walkClients_keeps _ _ _ _ _ _) fun _ => mainKeeps_pure _

theorem pollIteration_keeps (dt : DurationText) (fds : ServerFds) (m : MainState) :
    MainKeeps cfg codec (pollIteration cfg dt fds m) := by
  have hsweep : ∀ clients, MainKeeps cfg codec (sweepKicked maxClients 0 clients) :=
    fun clients => mainKeeps_all (sweepKicked_all (fun fd => session_idle rfl) _ _ _)
  refine mainKeeps_bind (mainKeeps_all (call_all plain_idle rfl)) fun answer => ?_
  cases answer with
  | interrupted => exact mainKeeps_pure _
  | failed => exact mainKeeps_pure _
  | timeout => exact mainKeeps_bind (hsweep _) fun _ => mainKeeps_pure _
  | ready revents =>
    refine mainKeeps_bind (serveReady_keeps dt fds revents _ m) fun served => ?_
    exact mainKeeps_bind (hsweep _) fun _ => mainKeeps_pure _

theorem joinWorkers_all (left i : Nat) : (joinWorkers left i).All (Idle cfg codec) := by
  induction left generalizing i with
  | zero => trivial
  | succ left ih =>
    refine Prog.All.bind ((Prog.all_perform _).mpr ⟨fun _ => trivial, ?_⟩) fun _ => ih (i + 1)
    intro e s a w' marks hexec
    simp only [exec] at hexec
    split at hexec <;> cases hexec
    rfl

theorem stopWorkers_keeps : MainKeeps cfg codec (stopWorkers cfg) := by
  refine mainKeeps_all (Prog.All.bind ((Prog.all_perform _).mpr ⟨fun _ => trivial, ?_⟩) fun _ =>
    Prog.All.bind ((Prog.all_perform _).mpr ⟨fun _ => trivial, ?_⟩) fun _ => joinWorkers_all _ _)
  · intro e s a w' marks hexec
    cases hexec
    rfl
  · intro e s a w' marks hexec
    cases hexec
    rfl

theorem serverTurn_keeps (dt : DurationText) (fds : ServerFds) (m : MainState) :
    MainKeeps cfg codec (serverTurn cfg dt fds m) := by
  refine mainKeeps_bind (mainKeeps_all (call_all plain_idle rfl)) fun running => ?_
  cases running with
  | false => exact mainKeeps_bind stopWorkers_keeps fun _ => mainKeeps_pure _
  | true =>
    refine mainKeeps_bind (pollIteration_keeps dt fds m) ?_
    rintro ⟨next, log⟩
    dsimp only
    split
    · exact mainKeeps_bind stopWorkers_keeps fun _ => mainKeeps_pure _
    · exact mainKeeps_pure _

end

end StegaPng
