import StegaPng.ClientLines
import StegaPng.Downloads

/-! The lines of a session: how what the server reads divides what the client sends. -/

namespace StegaPng

open Interleaving

/-- The lines that were read from the session and handed to the parser, the oldest first. -/
def linesRead (fd : Int) (h : List Mark) : List Bytes :=
  h.reverse.filterMap fun mark => match mark with
    | .line f (b :: bs) => if f = fd then some (b :: bs) else none
    | _ => none

/-- No body is read for the request: it announces none, or its first size is refused. -/
def Bodiless (cfg : RuntimeConfig) (type : ClientType) (q : ProtocolRequest) : Prop :=
  type = .admin ∨ (q.command ∈ uploadCommands →
    (q.command = .encodeFile → q.size2.toNat ≤ maxFilenameBytes) ∧
    (q.size1 = 0 ∨ q.size1 > cfg.max_upload_bytes))

instance (cfg : RuntimeConfig) (type : ClientType) (q : ProtocolRequest) :
    Decidable (Bodiless cfg type q) := by
  unfold Bodiless
  infer_instance

/-- The bytes of the lines as they are sent. -/
def sentLines (lines : List Bytes) : Bytes := lines.flatMap (· ++ [newline])

@[simp] theorem linesRead_append (fd : Int) (new h : List Mark) :
    linesRead fd (new ++ h) = linesRead fd h ++ linesRead fd new := by
  simp [linesRead]

theorem linesRead_nil {fd : Int} {h : List Mark}
    (hnone : ∀ mark ∈ h, ∀ bytes, mark ≠ .line fd bytes) :
    linesRead fd h = [] := by
  refine List.filterMap_eq_nil_iff.mpr fun mark hmem => ?_
  have hmark := hnone mark (List.mem_reverse.mp hmem)
  cases mark with
  | line f bytes =>
    have hf : f ≠ fd := fun hf => hmark bytes (by rw [hf])
    cases bytes with
    | nil => rfl
    | cons b bs => exact if_neg hf
  | _ => rfl

theorem mem_linesRead {fd : Int} {h : List Mark} {line : Bytes} (hline : line ∈ linesRead fd h) :
    .line fd line ∈ h := by
  obtain ⟨mark, hmem, hmark⟩ := List.mem_filterMap.mp hline
  split at hmark
  · next f b bs =>
    obtain ⟨rfl, heq⟩ := Option.ite_none_right_eq_some.mp hmark
    rw [← Option.some.inj heq]
    exact List.mem_reverse.mp hmem
  · cases hmark

/-! What one `read_line` takes. -/

theorem readRetry_takes {want : Nat} {es es' : Stream} {b : UInt8} {bs : Bytes}
    (h : readRetry want es = (.data b bs, es')) : bytesOf es = b :: bs ++ bytesOf es' := by
  induction es with
  | nil => cases h
  | cons e es ih =>
    cases e with
    | eintr => exact ih h
    | error => cases h
    | chunk b' bs' =>
      cases h
      simp [ReadEvent.bytes, ← List.append_assoc]

theorem readRetry_eof {want : Nat} {es es' : Stream} (h : readRetry want es = (.eof, es')) :
    bytesOf es = [] ∧ es' = [] := by
  induction es with
  | nil =>
    cases h
    exact ⟨rfl, rfl⟩
  | cons e es ih =>
    cases e with
    | eintr => exact ih h
    | error => cases h
    | chunk b bs => cases h

/-- A line goes up to a newline, to the end of the buffer or to the end of the stream. -/
theorem readLineLoop_takes {room : Nat} {es es' : Stream} {line : Bytes}
    (h : readLineLoop room es = (some line, es')) :
    bytesOf es = line ++ bytesOf es' ∧ line.length ≤ room ∧
      (line.getLast? = some newline ∨ line.length = room ∨ bytesOf es' = []) := by
  induction room generalizing es line with
  | zero =>
    cases h
    exact ⟨rfl, Nat.le_refl _, .inr (.inl rfl)⟩
  | succ room ih =>
    unfold readLineLoop at h
    split at h
    · cases h
    · next hread =>
      cases h
      obtain ⟨hnone, rfl⟩ := readRetry_eof hread
      exact ⟨hnone, Nat.zero_le _, .inr (.inr rfl)⟩
    · next ch bs es₁ hread =>
      have hbs : bs = [] := by
        have hlength := readRetry_length Nat.zero_lt_one (congrArg Prod.fst hread)
        exact List.eq_nil_of_length_eq_zero (by omega)
      subst hbs
      have hcut := readRetry_takes hread
      split at h
      · next hch =>
        cases h
        exact ⟨hcut, Nat.succ_le_succ (Nat.zero_le _), .inl (by rw [hch]; rfl)⟩
      · obtain ⟨hfirst, hsecond⟩ := Prod.mk.inj h
        obtain ⟨rest, hrest, rfl⟩ := Option.map_eq_some_iff.mp hfirst
        obtain ⟨hbytes, hlength, hend⟩ := ih (Prod.ext hrest hsecond)
        refine ⟨by rw [hcut, hbytes]; rfl, Nat.succ_le_succ hlength, ?_⟩
        rcases hend with hnewline | hfull | hnone
        · refine .inl ?_
          rw [List.getLast?_cons, hnewline]
          rfl
        · exact .inr (.inl (congrArg (· + 1) hfull))
        · exact .inr (.inr hnone)

/-- The first line of the stream is read whole, unless it does not fit. -/
theorem readLine_first {es es' : Stream} {line rest buffer : Bytes}
    (hbytes : bytesOf es = line ++ newline :: rest) (hline : newline ∉ line)
    (h : readLine bufferSize es = (some buffer, es')) :
    buffer = line ++ [newline] ∧ bytesOf es' = rest ∨ bufferSize ≤ line.length + 1 := by
  obtain ⟨hcut, -, hend⟩ := readLineLoop_takes h
  have honce := readLineLoop_newline (congrArg Prod.fst h)
  -- a buffer within the line is full
  have hwithin : ∀ more, line = buffer ++ more → bytesOf es' = more ++ newline :: rest →
    bufferSize ≤ line.length + 1 := by
    intro more hmore hleft
    rcases hend with hnewline | hfull | hnone
    · have hmem : newline ∈ line := hmore ▸ List.mem_append_left _ (List.mem_of_getLast? hnewline)
      exact absurd hmem hline
    · rw [hmore, List.length_append, hfull]
      omega
    · rw [hnone] at hleft
      simp at hleft
  rcases List.append_eq_append_iff.mp (hbytes.symm.trans hcut) with ⟨more, hmore, hleft⟩ |
    ⟨more, hmore, hleft⟩
  · cases more with
    | nil => exact .inr (hwithin [] (by rw [hmore]; simp) hleft.symm)
    | cons b more =>
      obtain ⟨rfl, hrest⟩ := List.cons.inj hleft
      have hlast : more = [] := by
        by_contra hne
        rw [hmore, List.dropLast_append_of_ne_nil (List.cons_ne_nil _ _)] at honce
        obtain ⟨c, more, rfl⟩ := List.exists_cons_of_ne_nil hne
        exact honce (List.mem_append_right _ (by simp))
      subst hlast
      exact .inl ⟨hmore, hrest.symm⟩
  · exact .inr (hwithin more hmore hleft)

theorem readLine_length {es : Stream} {line : Bytes} (h : (readLine bufferSize es).1 = some line) :
    line.length < bufferSize := by
  obtain ⟨-, hlength, -⟩ :=
    readLineLoop_takes (Prod.ext h rfl : readLine bufferSize es = (some line, _))
  have hroom : bufferSize - 1 < bufferSize := by decide
  omega

theorem readLine_nothing {es es' : Stream} {buffer : Bytes} (hbytes : bytesOf es = [])
    (h : readLine bufferSize es = (some buffer, es')) : buffer = [] := by
  obtain ⟨hcut, -⟩ := readLineLoop_takes h
  rw [hbytes] at hcut
  exact (List.append_eq_nil_iff.mp hcut.symm).1

/-! Who leaves a stream alone. -/

/-- The operation takes nothing from the descriptor. -/
def Op.Spares (fd : Int) : Op → Prop
  | .readLine f | .readExact f _ | .discardExact f _ | .read f _ => f ≠ fd
  | _ => True

/-- Nothing has been read from the descriptor, unless it has a new peer. -/
def Untouched (fd : Int) (s s' : Sys) : Prop :=
  ∃ new, s'.history = new ++ s.history ∧ linesRead fd new = [] ∧
    (.opened fd ∈ new ∨ s'.world.streams fd = s.world.streams fd)

section

variable {codec : PngCodec} {cfg : RuntimeConfig} {dt : DurationText} {fds : ServerFds}
  {m m' : MainState} {s s' : Sys} {α : Type} {a : α} {p : Task α} {fd : Int}

theorem untouched_refl : Untouched fd s s := ⟨[], rfl, rfl, .inr rfl⟩

theorem Untouched.trans {s₁ : Sys} (h : Untouched fd s s₁) (h' : Untouched fd s₁ s') :
    Untouched fd s s' := by
  obtain ⟨new, hnew, hlines, hstream⟩ := h
  obtain ⟨new', hnew', hlines', hstream'⟩ := h'
  refine ⟨new' ++ new, by rw [hnew', hnew, List.append_assoc],
    by rw [linesRead_append, hlines, hlines']; rfl, ?_⟩
  rcases hstream with hopened | hsame
  · exact .inl (List.mem_append_right _ hopened)
  · rcases hstream' with hopened | hsame'
    · exact .inl (List.mem_append_left _ hopened)
    · exact .inr (hsame'.trans hsame)

theorem others_untouched (h : (conduct cfg codec).Others .main s s') : Untouched fd s s' := by
  obtain ⟨new, hnew, hquiet⟩ := others_grows h
  refine ⟨new, hnew, linesRead_nil fun mark hmem bytes => ?_, .inr (by rw [others_streams h])⟩
  exact quiet_without_line (hquiet mark hmem) fd bytes

theorem exec_untouched {e : Env} {t : Tid} {w : World} {o : Op} {b : Ans o} {marks : List Mark}
    (ho : o.Spares fd) (h : exec codec e t w o = some (b, s'.world, marks)) :
    linesRead fd marks = [] ∧ (.opened fd ∈ marks ∨ s'.world.streams fd = w.streams fd) := by
  constructor
  · refine linesRead_nil fun mark hmem bytes => ?_
    rcases exec_talk h mark hmem with htalk | hquiet
    · rintro rfl
      cases o with
      | readLine f =>
        cases b with
        | none => cases htalk
        | some bytes' =>
          have hmark := List.mem_singleton.mp htalk
          exact ho (Mark.line.inj hmark).1.symm
      | accept l => cases b <;> simp [Op.talk] at htalk
      | close g => simp [Op.talk] at htalk
      | writeAll g text => simp [Op.talk] at htalk
      | _ => cases htalk
    · exact quiet_without_line hquiet fd bytes
  · by_cases hstream : o.ofStream = true
    · have hset : ∀ (f : Int) (es : Stream), f ≠ fd →
        (w.setStream f es).streams fd = w.streams fd :=
        fun f es hf => if_neg (Ne.symm hf)
      cases o with
      | accept l =>
        simp only [exec] at h
        split at h
        · cases h
          exact .inr rfl
        · next c _ =>
          simp only [Option.some.injEq, Prod.mk.injEq] at h
          obtain ⟨-, hw, rfl⟩ := h
          by_cases hfd : c.fd = fd
          · exact .inl (by rw [hfd]; exact List.mem_singleton.mpr rfl)
          · exact .inr (by rw [← hw, hset _ _ hfd])
      | readLine f | readExact f n | discardExact f n | read f n =>
        simp only [exec, Option.some.injEq, Prod.mk.injEq] at h
        exact .inr (by rw [← h.2.1, hset _ _ ho])
      | _ => cases hstream
    · exact .inr (by rw [exec_streams (Bool.eq_false_iff.mpr hstream) h])

theorem amid_untouched (hp : p.All (Op.Spares fd)) (h : Amid codec cfg p s a s') :
    Untouched fd s s' := by
  refine h.preserves (P := Untouched fd s) (fun _ _ hs henv =>
    hs.trans (others_untouched henv)) ?_ hp untouched_refl
  rintro o s₁ b s₂ ho hs ⟨e, marks, -, hexec, hhistory⟩
  obtain ⟨hlines, hstream⟩ := exec_untouched ho hexec
  exact hs.trans ⟨marks, hhistory, hlines, hstream⟩

theorem plain_spares (o : Op) (ho : o.plain = true) : o.Spares fd := by
  cases o <;> trivial

theorem session_spares {client : ClientSession} (hfd : client.fd ≠ fd) (o : Op)
    (ho : o.onBehalfOf client) :
    o.Spares fd := by
  cases o with
  | readLine f | readExact f n | discardExact f n | read f n =>
    exact fun hf => hfd (ho.symm.trans hf)
  | _ => trivial

theorem serveListener_spares (revents : Nat → Revents) (listener : Listener) :
    (serveListener fds revents m listener).All (Op.Spares fd) := by
  refine serveListener_all plain_spares (fun o ho hline => ?_) revents listener
  cases o with
  | readLine f => exact absurd rfl (hline f)
  | _ => trivial

theorem visitSlot_spares {revents : Nat → Revents} {i idx : Nat}
    (hother : (revents idx).any = true → (m.clients.get i).fd ≠ fd) :
    (visitSlot cfg dt revents i idx m).All (Op.Spares fd) := by
  unfold visitSlot
  split
  · next hready =>
    have hfd := hother hready
    exact handleClientCommand_all (fun o _ _ ho => session_spares hfd o ho) cfg dt m i hfd trivial
  · exact Prog.all_pure _

/-- A step that is no visit of the session leaves its stream alone. -/
theorem LoopStep.untouched {ℓ ℓ' : LoopState} (hstep : LoopStep codec cfg dt fds ℓ ℓ')
    (hother : ∀ revents left i idx m, ℓ.phase = .walking revents (left + 1) i idx m →
      (m.clients.get i).active = true →
      (revents idx).any = true → (m.clients.get i).fd ≠ fd) : Untouched fd ℓ.sys ℓ'.sys := by
  have hcall : ∀ {o : Op} {b : Ans o} {s s' : Sys}, o.plain = true →
    Amid codec cfg (call o) s b s' →
      Untouched fd s s' := fun ho hrun => amid_untouched (call_all plain_spares ho) hrun
  cases hstep with
  | wake hrun => exact hcall rfl hrun
  | interrupted hrun => exact hcall rfl hrun
  | timeout hrun => exact hcall rfl hrun
  | ready hrun => exact hcall rfl hrun
  | accept hrun => exact amid_untouched (serveListener_spares _ _) hrun
  | drain hrun => exact amid_untouched (drainBoth_all plain_spares _) hrun
  | skip _ => exact untouched_refl
  | visit hactive hrun =>
    exact amid_untouched (visitSlot_spares (hother _ _ _ _ _ rfl hactive)) hrun
  | walked henv => exact others_untouched henv
  | keep _ => exact untouched_refl
  | close _ hrun => exact amid_untouched (closeClient_all _ trivial) hrun
  | swept henv => exact others_untouched henv
  | turn => exact ⟨[.turn .main], rfl, rfl, .inr rfl⟩

/-! A session's own visit. -/

theorem pngUpload_spares {client : ClientSession} {size : UInt64} {f : Option Bytes → Task Unit}
    (hf : f none = pure ()) (hsize : size = 0 ∨ size > cfg.max_upload_bytes) :
    (receivePngToUpload cfg client size >>= f).All (Op.Spares fd) := by
  unfold receivePngToUpload
  rw [if_pos hsize, Prog.bind_assoc]
  refine (sendResponsef_all plain_spares _ _).bind fun _ => ?_
  change (f none).All _
  rw [hf]
  exact Prog.all_pure _

theorem enqueueJob_spares {client : ClientSession} {type : JobType}
    {payload input_path stored_path : Option Bytes} :
    (enqueueJob client type payload input_path stored_path).All (Op.Spares fd) := by
  have hset : ∀ (job : Nat) (u : JobUpdate), (call (.setJob job u)).All (Op.Spares fd) :=
    fun job u => (Prog.all_perform _).mpr trivial
  have hrespond : ∀ (text : Bytes), (sendResponsef client.fd text).All (Op.Spares fd) :=
    fun text => sendResponsef_all plain_spares client.fd text
  refine ((Prog.all_perform (C := Op.Spares fd)
    (.createJob client.fd client.addr_str type payload input_path)).mpr
    trivial).bind fun created => ?_
  cases created with
  | none => exact hrespond _
  | some job =>
    have hpush : Prog.All (Op.Spares fd) (do
        if !(← call (.push job)) then
          jobSetResult job (lit "enqueue failed")
          jobSetState job .failed
          sendResponsef client.fd (lit "ERR cannot enqueue job\n")
        else
          sendResponsef client.fd (lit "JOB " ++ decimal (← jobId job) ++ lit "\n")) := by
      refine ((Prog.all_perform (C := Op.Spares fd) (.push job)).mpr trivial).bind fun pushed => ?_
      split
      · exact (hset job _).bind fun _ => (hset job _).bind fun _ => hrespond _
      · exact (call_all plain_spares rfl).bind fun id => hrespond _
    cases stored_path with
    | none => exact hpush
    | some path => exact (hset job _).bind fun _ => hpush

theorem handleArgument_spares {client : ClientSession} {q : ProtocolRequest} {empty : Bytes}
    {type : JobType} {payload input_path : Option Bytes} :
    (handleArgument client q empty (enqueueJob client type payload input_path none)).All
      (Op.Spares fd) := by
  unfold handleArgument
  split
  · exact (sendResponsef_all plain_spares _ _).bind fun _ => Prog.all_pure _
  · exact enqueueJob_spares.bind fun _ => Prog.all_pure _

theorem answerUserCommand_spares {client : ClientSession} {q : ProtocolRequest}
    (huser : client.type ≠ .admin) (hq : Bodiless cfg client.type q) :
    (answerUserCommand cfg client q).All (Op.Spares fd) := by
  have hrefused := hq.resolve_left huser
  by_cases hupload : q.command ∈ uploadCommands
  · obtain ⟨hname, hsize⟩ := hrefused hupload
    simp only [uploadCommands, List.mem_cons, List.not_mem_nil, or_false] at hupload
    rcases hupload with hcommand | hcommand | hcommand | hcommand | hcommand <;>
      simp only [answerUserCommand, hcommand]
    · exact pngUpload_spares rfl hsize
    · rw [handleEncodeFile, if_neg (Nat.not_lt.mpr (hname hcommand))]
      exact pngUpload_spares rfl hsize
    all_goals exact pngUpload_spares rfl hsize
  · by_cases hsubmit : q.command ∈ [ProtocolCommand.submit, .validateImage, .analyzeCapacity]
    · simp only [List.mem_cons, List.not_mem_nil, or_false] at hsubmit
      rcases hsubmit with h | h | h <;> simp only [answerUserCommand, h] <;>
        exact handleArgument_spares
    · refine answerUserCommand_all plain_spares _ _ _ (fun _ _ => trivial) ?_
      simp only [uploadCommands, List.mem_cons, List.not_mem_nil, or_false,
        not_or] at hupload hsubmit ⊢
      tauto

theorem serveRequest_spares {i : Nat} {client : ClientSession} {q : ProtocolRequest}
    (hq : Bodiless cfg client.type q) :
    (serveRequest cfg dt m i client q).All (Op.Spares fd) := by
  unfold serveRequest
  split
  · exact handleAdminCommand_all plain_spares _ _ _ _ _ (fun _ _ => trivial) fun _ => trivial
  · next huser =>
    refine Prog.All.bind ?_ fun _ => Prog.all_pure _
    unfold handleUserCommand
    split
    · exact (sendResponsef_all plain_spares _ _).bind fun _ => closeClient_all _ trivial
    · exact (answerUserCommand_spares huser hq).bind fun _ => Prog.all_pure _

/-- The visit's `read_line` takes what the stream has at its front. -/
theorem amid_takes {line : Option Bytes} (h : Amid codec cfg (call (.readLine fd)) s line s') :
    line = (readLine bufferSize (s.world.streams fd)).1 ∧
      s'.world.streams fd = (readLine bufferSize (s.world.streams fd)).2 ∧
      ∃ new, s'.history = new ++ s.history ∧ linesRead fd new = if line.getD [] = [] then [] else
        [line.getD []] := by
  obtain ⟨s₁, b, s₂, hbefore, ⟨e, marks, -, hexec, hhistory⟩, hret⟩ := RunsAmid.op_iff.mp h
  obtain ⟨rfl, hafter⟩ := RunsAmid.ret_iff.mp hret
  simp only [exec, Option.some.injEq, Prod.mk.injEq] at hexec
  obtain ⟨rfl, hworld, rfl⟩ := hexec
  obtain ⟨new, hnew, hlines, -⟩ : Untouched fd s s₁ := others_untouched hbefore
  obtain ⟨new', hnew', hlines', -⟩ : Untouched fd s₂ s' := others_untouched hafter
  rw [← others_streams hbefore]
  refine ⟨rfl, ?_, _, by rw [hnew', hhistory, hnew, ← List.append_assoc, ← List.append_assoc], ?_⟩
  · rw [others_streams hafter, ← hworld]
    exact if_pos rfl
  · rw [linesRead_append, linesRead_append, hlines, hlines', List.nil_append, List.append_nil]
    cases (readLine bufferSize (s₁.world.streams fd)).1 with
    | none => rfl
    | some bytes =>
      cases bytes with
      | nil => rfl
      | cons b bs => simp [linesRead]

theorem serveRequest_without_line {i : Nat} {client : ClientSession} {q : ProtocolRequest} :
    (serveRequest cfg dt m i client q).All fun o => ∀ f, o ≠ .readLine f := by
  unfold serveRequest
  split
  · exact handleAdminCommand_all plain_without_line _ _ _ _ _ (fun _ _ => nofun) fun _ => nofun
  · refine (handleUserCommand_all (fun o _ hs _ => ?_) _ _ fun _ => nofun).bind fun _ =>
      Prog.all_pure _
    rintro f rfl
    cases hs

/-- A visit hands one line to the parser, or it ends the session. -/
theorem amid_visit_own {revents : Nat → Revents} {i idx : Nat}
    (hactive : (m.clients.get i).active = true) (hready : (revents idx).any = true)
    (h : Amid codec cfg (visitSlot cfg dt revents i idx m) s m' s') :
    ∃ new, s'.history = new ++ s.history ∧
      ((m'.clients.get i).active = false ∧ linesRead (m.clients.get i).fd new = [] ∨
        ∃ line es, readLine bufferSize (s.world.streams (m.clients.get i).fd) = (some line, es) ∧
          line ≠ [] ∧
          linesRead (m.clients.get i).fd new = [line] ∧
          (Bodiless cfg (m.clients.get i).type (protocolParseLine line) →
            .opened (m.clients.get i).fd ∈ new ∨ s'.world.streams (m.clients.get i).fd = es)) := by
  unfold visitSlot at h
  rw [if_pos hready] at h
  obtain ⟨line, s₁, hread, hrest⟩ := amid_bind.mp h
  obtain ⟨hline, hstream, new, hnew, hlines⟩ := amid_takes hread
  split at hrest
  · next hnone =>
    obtain ⟨closed, hclose, rfl⟩ := amid_map hrest
    obtain ⟨new', hnew', hlines', -⟩ : Untouched (m.clients.get i).fd s₁ s' :=
      amid_untouched (closeClient_all _ trivial) hclose
    obtain ⟨rfl, -⟩ := amid_closeClient hactive hclose
    rw [if_pos hnone] at hlines
    refine ⟨new' ++ new, by rw [hnew', hnew, List.append_assoc],
      .inl ⟨?_, by rw [linesRead_append, hlines, hlines']; rfl⟩⟩
    rw [Clients.get_set]
    split
    · rfl
    · next hslot =>
      have hout : maxClients ≤ i := by
        by_contra hlt
        exact hslot ⟨rfl, Nat.lt_of_not_le hlt⟩
      rw [m.clients.get_of_ge hout]
  · next hsome =>
    rw [if_neg hsome] at hlines
    obtain ⟨buffer, rfl, hbuffer⟩ : ∃ buffer, line = some buffer ∧ buffer ≠ [] := by
      cases line with
      | none => exact absurd rfl hsome
      | some buffer => exact ⟨buffer, rfl, hsome⟩
    change Amid codec cfg (serveRequest cfg dt m i (m.clients.get i) (protocolParseLine buffer)) s₁
      m' s' at hrest
    obtain ⟨new', hnew', hsilent⟩ := amid_without_line serveRequest_without_line hrest
    have hlines' : linesRead (m.clients.get i).fd new' = [] := linesRead_nil fun mark hmem =>
      hsilent mark hmem _
    refine ⟨new' ++ new, by rw [hnew', hnew, List.append_assoc],
      .inr ⟨buffer, _, Prod.ext hline.symm rfl, hbuffer, ?_, ?_⟩⟩
    · rw [linesRead_append, hlines, hlines']
      rfl
    · intro hbodiless
      obtain ⟨new'', hnew'', -, hsame⟩ := amid_untouched (serveRequest_spares hbodiless) hrest
      obtain rfl : new'' = new' := List.append_cancel_right (hnew''.symm.trans hnew')
      exact hsame.imp (List.mem_append_left _) fun hsame => hsame.trans hstream

/-! Runs. -/

theorem SessionMove.held {marks : List Mark} {k : Nat} (hmove : SessionMove m m' marks)
    (hopened : .opened fd ∉ marks) (h : m'.clients.Holds fd k) : m.clients.Holds fd k ∧
      (m'.clients.get k).type = (m.clients.get k).type := by
  have hput : ∀ {i : Nat} {session : ClientSession}, (session.active = true → session.fd = fd →
      (m.clients.get i).active = true ∧ (m.clients.get i).fd = fd ∧
        session.type = (m.clients.get i).type) →
      (m.put i session).clients.Holds fd k →
      m.clients.Holds fd k ∧ ((m.put i session).clients.get k).type = (m.clients.get k).type := by
    intro i session hsession hholds
    rw [Clients.Holds, MainState.put, Clients.get_set] at hholds
    rw [MainState.put, Clients.get_set]
    split at hholds
    · next hk =>
      rw [if_pos hk, hk.1]
      obtain ⟨hactive, hfd, htype⟩ := hsession hholds.1 hholds.2
      exact ⟨⟨hactive, hfd⟩, htype⟩
    · next hk =>
      rw [if_neg hk]
      exact ⟨hholds, rfl⟩
  cases hmove with
  | same => exact ⟨h, rfl⟩
  | refused _ => exact ⟨h, rfl⟩
  | admitted _ _ _ =>
    exact hput (fun _ hfd => absurd (List.mem_singleton.mpr (by rw [← hfd]; rfl)) hopened) h
  | closed _ => exact hput (by simp) h
  | kicked hactive => exact hput (fun _ hfd => ⟨hactive, hfd, rfl⟩) h
  | @blocked ip _ _ =>
    rw [Clients.Holds, m.clients.get_blocked ip k] at h
    rw [m.clients.get_blocked ip k]
    split at h <;> split <;> exact ⟨h, rfl⟩
  | unblocked _ => exact ⟨h, rfl⟩

/-- The lines `done` have been read whole; the session still sends those that are left. -/
structure Aligned (fd : Int) (type : ClientType) (done left : List Bytes) (marks : List Mark)
    (ℓ : LoopState) : Prop where
  whole : linesRead fd marks = done.map (· ++ [newline])
  rest : ∀ k, ℓ.phase.main.clients.Holds fd k →
    (ℓ.phase.main.clients.get k).type = type ∧ bytesOf (ℓ.sys.world.streams fd) = sentLines left

theorem LoopStep.aligned {type : ClientType} {done left : List Bytes} {new marks : List Mark}
    {ℓ ℓ' : LoopState} (hstep : LoopStep codec cfg dt fds ℓ ℓ')
    (htable : SessionTable ℓ.phase.main.clients ℓ.sys.history)
    (hnew : ℓ'.sys.history = new ++ ℓ.sys.history) (hopened : .opened fd ∉ new)
    (hleft : ∀ line ∈ left, newline ∉ line ∧
      Bodiless cfg type (protocolParseLine (line ++ [newline])))
    (hfits : done.length < (linesRead fd (new ++ marks)).length → ∀ line rest, left = line :: rest →
      line.length + 1 < bufferSize)
    (h : Aligned fd type done left marks ℓ) :
    ∃ done' left', done' ++ left' = done ++ left ∧
      Aligned fd type done' left' (new ++ marks) ℓ' := by
  have hheld : ∀ k, ℓ'.phase.main.clients.Holds fd k → ℓ.phase.main.clients.Holds fd k ∧
      (ℓ'.phase.main.clients.get k).type = (ℓ.phase.main.clients.get k).type := by
    intro k hk
    obtain ⟨moved, hmove, hsockets⟩ := hstep.moves
    have hmoved : sockets new = moved := by
      rw [hnew, sockets_append] at hsockets
      exact List.append_cancel_right hsockets
    exact hmove.held (fun hmem => hopened (List.mem_of_mem_filter (hmoved ▸ hmem))) hk
  by_cases hother : ∀ revents left i idx m, ℓ.phase = .walking revents (left + 1) i idx m →
      (m.clients.get i).active = true → (revents idx).any = true → (m.clients.get i).fd ≠ fd
  · obtain ⟨new', hnew', hlines, hstream⟩ := hstep.untouched hother
    obtain rfl : new' = new := List.append_cancel_right (hnew'.symm.trans hnew)
    refine ⟨done, left, rfl, by rw [linesRead_append, hlines, List.append_nil, h.whole],
      fun k hk => ?_⟩
    obtain ⟨hbefore, htype⟩ := hheld k hk
    rw [htype, hstream.resolve_left hopened]
    exact h.rest k hbefore
  · push Not at hother
    obtain ⟨revents, n, i, idx, m, hphase, hactive, hready, hfd⟩ := hother
    obtain ⟨phase, s⟩ := ℓ
    obtain rfl : phase = _ := hphase
    obtain ⟨htype, hbytes⟩ := h.rest i ⟨hactive, hfd⟩
    dsimp only [Phase.main] at htype hbytes htable
    cases hstep with
    | skip hidle =>
      rw [hactive] at hidle
      cases hidle
    | @visit _ m' _ s' _ _ _ _ _ hrun =>
      obtain ⟨new', hnew', hout⟩ := amid_visit_own hactive hready hrun
      obtain rfl : new' = new := List.append_cancel_right (hnew'.symm.trans hnew)
      rw [hfd] at hout
      rcases hout with ⟨hgone, hlines⟩ | ⟨buffer, es, hread, hbuffer, hlines, hstream⟩
      · refine ⟨done, left, rfl, by rw [linesRead_append, hlines, List.append_nil, h.whole],
          fun k hk => ?_⟩
        obtain ⟨hbefore, -⟩ := hheld k hk
        obtain rfl : k = i := htable.distinct fd k i hbefore ⟨hactive, hfd⟩
        have hstill := hk.1
        dsimp only [Phase.main] at hstill
        rw [hgone] at hstill
        cases hstill
      · have hread' : done.length < (linesRead fd (new' ++ marks)).length := by
          rw [linesRead_append, hlines, h.whole, List.length_append, List.length_map]
          exact Nat.lt_succ_self _
        cases left with
        | nil => exact absurd (readLine_nothing hbytes hread) hbuffer
        | cons line rest =>
          obtain ⟨hline, hbodiless⟩ := hleft line List.mem_cons_self
          have hfit := hfits hread' line rest rfl
          have hsplit : bytesOf (s.world.streams fd) = line ++ newline :: sentLines rest := by
            rw [hbytes, sentLines, List.flatMap_cons, List.append_assoc]
            rfl
          obtain ⟨rfl, hrest⟩ := (readLine_first hsplit hline hread).resolve_right
            (Nat.not_le.mpr hfit)
          rw [htype] at hstream
          have hafter := (hstream hbodiless).resolve_left hopened
          refine ⟨done ++ [line], rest, by simp, ?_, fun k hk => ?_⟩
          · rw [linesRead_append, hlines, h.whole, List.map_append]
            rfl
          · obtain ⟨hbefore, hsame⟩ := hheld k hk
            refine ⟨hsame.trans (h.rest k hbefore).1, ?_⟩
            dsimp only
            rw [hafter, hrest]

/-- A run on which every line fits that is reached stays aligned. -/
theorem LoopRun.aligned {files : Bytes → Option Bytes} {type : ClientType} {lines : List Bytes}
    {ℓ₀ ℓ : LoopState} (hbefore : LoopRun codec cfg dt fds (initialLoop files) ℓ₀)
    (hlines : ∀ line ∈ lines, newline ∉ line ∧
      Bodiless cfg type (protocolParseLine (line ++ [newline])))
    (hstart : Aligned fd type [] lines [] ℓ₀) (hlater : LoopRun codec cfg dt fds ℓ₀ ℓ) :
    ∃ marks, ℓ.sys.history = marks ++ ℓ₀.sys.history ∧
      (.opened fd ∉ marks → FreshAccepts ℓ.sys.history →
      (∀ line ∈ lines.take (linesRead fd marks).length, line.length + 1 < bufferSize) →
        ∃ done left, done ++ left = lines ∧ Aligned fd type done left marks ℓ) := by
  induction hlater with
  | refl => exact ⟨[], rfl, fun _ _ _ => ⟨[], lines, rfl, hstart⟩⟩
  | @tail ℓ₁ ℓ₂ hpre hstep ih =>
    obtain ⟨marks, hmarks, hinduction⟩ := ih
    obtain ⟨new, hnew, -⟩ := hstep.lines
    refine ⟨new ++ marks, by rw [hnew, hmarks, List.append_assoc], fun hopened hkernel hfits => ?_⟩
    rw [List.mem_append, not_or] at hopened
    have hearlier := hstep.fresh hkernel
    have hfewer : lines.take (linesRead fd marks).length ⊆
        lines.take (linesRead fd (new ++ marks)).length := by
      refine (List.take_prefix_take_left ?_).subset
      rw [linesRead_append, List.length_append]
      exact Nat.le_add_right _ _
    obtain ⟨done, left, rfl, haligned⟩ := hinduction hopened.2 hearlier fun line hmem =>
      hfits line (hfewer hmem)
    refine hstep.aligned (LoopRun.table (hbefore.trans hpre) hearlier) hnew hopened.1 ?_ ?_ haligned
    · exact fun line hmem => hlines line (List.mem_append_right _ hmem)
    · rintro hmore line rest rfl
      refine hfits line (List.mem_take_iff_getElem.mpr ⟨done.length, ?_, ?_⟩)
      · rw [List.length_append, List.length_cons]
        omega
      · simp

theorem LoopRun.line_lengths {ℓ₀ ℓ : LoopState} (hlater : LoopRun codec cfg dt fds ℓ₀ ℓ) :
    Grows (fun mark => ∀ bytes, mark = .line fd bytes →
      bytes.length < bufferSize) ℓ₀.sys ℓ.sys := by
  induction hlater with
  | refl => exact grows_refl
  | tail _ hstep ih =>
    refine ih.trans (hstep.lines.mono fun mark hmark bytes heq => ?_)
    obtain ⟨_, _, _, _, _, -, -, -, -, hread⟩ := hmark fd bytes heq
    exact readLine_length hread

end

/-! A text that is longer than the buffer. -/

/-- A request that fills the buffer without its newline. -/
def longSubmit : Bytes := lit "SUBMIT " ++ List.replicate 4088 120

theorem longSubmit_length : longSubmit.length = 4095 := by
  rw [longSubmit, List.length_append, List.length_replicate]
  rfl

theorem longSubmit_clear {b : UInt8} (hb : b ∉ lit "SUBMIT ") (hx : b ≠ 120) : b ∉ longSubmit := by
  intro hmem
  rcases List.mem_append.mp hmem with hverb | htext
  · exact hb hverb
  · exact hx (List.eq_of_mem_replicate htext)

/-- Whatever comes after it, the parser sees only what fills the buffer. -/
theorem longSubmit_parse (tail : Bytes) : (protocolParseLine (longSubmit ++ tail)).command =
    .submit := by
  have hnul : 0 ∉ longSubmit := longSubmit_clear (by decide) (by decide)
  have hnewline : newline ∉ longSubmit := longSubmit_clear (by decide) (by decide)
  have hblank : (32 : UInt8) ∈ longSubmit := List.mem_append_left _ (by decide)
  have hcopy : trimNewline (snprintf bufferSize (cstr (longSubmit ++ tail))) = longSubmit := by
    have hcut : bufferSize - 1 = longSubmit.length := longSubmit_length.symm
    rw [cstr_append_of_nul_free hnul, snprintf, hcut, List.take_left', trimNewline,
      if_neg fun hlast => hnewline (List.mem_of_getLast? hlast)]
    rfl
  have hverb := ClientCommand.parseVerb_verb (.submit []) (List.replicate 4088 120)
  rw [protocolParseLine, hcopy, parseBareCommand_blank hblank]
  change (parseVerb longSubmit).command = .submit
  rw [longSubmit]
  exact congrArg ProtocolRequest.command hverb

theorem seated_visit {s : Sys} {buffer : Bytes} {es : Stream}
    (hread : readLine bufferSize (s.world.streams 9) = (some buffer, es)) (hbuffer : buffer ≠ [])
    (hupload : (protocolParseLine buffer).command ∉ uploadCommands)
    (hquit : (protocolParseLine buffer).command ≠ .quit) :
    ∃ s' new, Amid boundedCodec runtimeConfigDefaults
        (visitSlot runtimeConfigDefaults plainDurations (pollIn [5]) 0 5 (onlySession .user)) s
          (onlySession .user) s' ∧
      s'.history = new ++ s.history ∧ linesRead 9 new = [buffer] ∧ s'.world.streams 9 = es ∧
        ∀ f, .opened f ∉ new := by
  obtain ⟨tr, m', s', hcalls⟩ :=
    exists_visit_calls boundedCodec runtimeConfigDefaults plainDurations (pollIn [5]) 0 5
    (onlySession .user) s
  have hsession : (onlySession .user).clients.get 0 = newSession 9 .user (lit "10.0.0.7") := rfl
  have hline : (readLine bufferSize (s.world.streams ((onlySession .user).clients.get 0).fd)).1.getD
    [] ≠ [] := by
    rw [hsession]
    change (readLine bufferSize (s.world.streams 9)).1.getD [] ≠ []
    rw [hread]
    exact hbuffer
  have hnext : nextRequest s 9 = protocolParseLine buffer := by
    rw [nextRequest, hread]
    rfl
  obtain ⟨s₁, b, s₂, rest, -, hserve⟩ := calls_visit (by decide) hline hcalls
  obtain ⟨-, -, hsame⟩ := calls_user (by rw [hsession]; decide)
    (by rw [hsession]; exact hnext ▸ hquit) hserve
  obtain rfl : m' = onlySession .user := hsame.trans (put_get _ 0)
  obtain ⟨new, hnew, hgone | ⟨line, es', hread', -, hlines, hstream⟩⟩ :=
    amid_visit_own (by rw [hsession]; rfl) (by decide)
    hcalls.runs
  · rw [hsession] at hgone
    cases hgone.1
  · rw [hsession] at hread' hlines hstream
    obtain ⟨rfl, rfl⟩ : line = buffer ∧ es' = es := by
      simpa [newSession] using hread'.symm.trans hread
    have hopened : ∀ f, .opened f ∉ new := by
      obtain ⟨new', hnew', hnone⟩ := visit_opens_nothing hcalls.runs
      obtain rfl : new' = new := List.append_cancel_right (hnew'.symm.trans hnew)
      exact fun f hmem => hnone _ hmem f rfl
    refine ⟨s', new, hcalls.runs, hnew, hlines, ?_, hopened⟩
    exact (hstream (.inr fun hmem => absurd hmem hupload)).resolve_left (hopened 9)

/-- A user submits a text that ends in PING. -/
def submitsPing : Stream := [.chunk 83 (lit "UBMIT " ++ List.replicate 4088 120 ++ lit "PING\n")]

theorem submitsPing_bytes : bytesOf submitsPing = longSubmit ++ lit "PING\n" := by
  rw [submitsPing, bytesOf_cons, bytesOf_nil, List.append_nil, ReadEvent.bytes, longSubmit]
  rfl

theorem suffix_dispatched :
    ∃ s marks, LoopRun boundedCodec runtimeConfigDefaults plainDurations plainFds
        ⟨.walking (pollIn [5]) maxClients 0 5 (onlySession .user),
          seated (fun _ => none) submitsPing⟩
        ⟨.walking (pollIn [5]) 127 1 6 (onlySession .user), s⟩ ∧
      s.history = marks ++ (seated (fun _ => none) submitsPing).history ∧
      linesRead 9 marks = [longSubmit, lit "PING\n"] ∧ ∀ f, .opened f ∉ marks := by
  have hfull : IsLine longSubmit :=
    .inr ⟨longSubmit_clear (by decide) (by decide), by rw [longSubmit_length]; rfl⟩
  have hclean : Clean submitsPing := fun hmem => nomatch List.mem_singleton.mp hmem
  obtain ⟨es₁, hread₁, hbytes₁, hclean₁⟩ := readLine_clean hclean submitsPing_bytes hfull
  have hping : IsLine (lit "PING\n") := .inl ⟨lit "PING", rfl, by decide, by decide⟩
  have hrest : bytesOf es₁ = lit "PING\n" ++ [] := hbytes₁.trans (List.append_nil _).symm
  obtain ⟨es₂, hread₂, -, -⟩ := readLine_clean hclean₁ hrest hping
  have hsubmit : (protocolParseLine longSubmit).command = .submit := by
    have hparse := longSubmit_parse []
    rwa [List.append_nil] at hparse
  obtain ⟨s₁, new₁, hvisit₁, hnew₁, hlines₁, hstream₁, hopened₁⟩ := seated_visit
    (s := seated (fun _ => none) submitsPing) hread₁ hfull.ne_nil (by rw [hsubmit]; decide)
      (by rw [hsubmit]; decide)
  have hstream : ((machine boundedCodec).turn .main s₁).world.streams 9 = es₁ := hstream₁
  obtain ⟨s₂, new₂, hvisit₂, hnew₂, hlines₂, -, hopened₂⟩ := seated_visit
    (s := (machine boundedCodec).turn .main s₁) (hstream ▸ hread₂) hping.ne_nil (by decide +kernel)
      (by decide +kernel)
  refine ⟨s₂, new₂ ++ .turn .main :: new₁, ?_, ?_, ?_, ?_⟩
  · exact (Relation.ReflTransGen.single (.visit rfl hvisit₁)).trans
      ((seated_again s₁).tail (.visit rfl hvisit₂))
  · rw [hnew₂]
    change new₂ ++ (.turn .main :: s₁.history) = _
    rw [hnew₁]
    simp
  · have hturn : linesRead 9 [.turn .main] = [] := rfl
    rw [← List.singleton_append, linesRead_append, linesRead_append, hlines₁, hlines₂, hturn]
    rfl
  · intro f hmem
    rcases List.mem_append.mp hmem with hmem | hmem
    · exact hopened₂ f hmem
    · exact hopened₁ f ((List.mem_cons.mp hmem).resolve_left nofun)

/-- A user who sends PING and HELP. -/
def pingHelp : Sys := seated (fun _ => none) [.chunk 80 (lit "ING\nHELP\n")]

end StegaPng
