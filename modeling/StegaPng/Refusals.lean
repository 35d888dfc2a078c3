import StegaPng.Fragmentation

/-! What a refused upload leaves in the stream. -/

namespace StegaPng

open Interleaving

/-- The length of the body that the request line declares. -/
def ProtocolRequest.declared (r : ProtocolRequest) : Nat :=
  r.size1.toNat + r.size2.toNat + r.size3.toNat

/-- A declared size was refused on the connection. -/
def Refused (fd : Int) (history : List Mark) : Prop :=
  ∃ text ∈ sizeErrors, Mark.reply fd text ∈ history

section

variable {adm : Env → Prop} {codec : PngCodec} {cfg : RuntimeConfig}
  {client : ClientSession} {t : Tid} {s s' : Sys}

theorem sendResponsef_replies {fd : Int} {text : Bytes} {b : Bool}
    (htext : text.length < bufferSize)
    (h : Runs (machineIn adm codec) t (sendResponsef fd text) s b s') :
    s'.world = s.world ∧ s'.history = .reply fd text :: s.history := by
  rw [sendResponsef, if_neg (by omega)] at h
  obtain ⟨e, marks, -, hexec, hhistory⟩ := Runs.perform_iff.mp h
  simp only [exec, Option.some.injEq, Prod.mk.injEq] at hexec
  obtain ⟨-, hworld, rfl⟩ := hexec
  exact ⟨hworld.symm, hhistory⟩

theorem Refused.of_head {fd : Int} {text : Bytes} {history history' : List Mark}
    (htext : text ∈ sizeErrors) (h : history' = .reply fd text :: history) : Refused fd history' :=
  ⟨text, htext, h ▸ List.mem_cons_self ..⟩

/-- A PNG size that is refused is refused before anything is read. -/
theorem receivePngToUpload_refuses {size : UInt64} {r : Option Bytes}
    (hbad : size = 0 ∨ size > cfg.max_upload_bytes)
    (h : Runs (machineIn adm codec) t (receivePngToUpload cfg client size) s r s') :
    r = none ∧ s'.world = s.world ∧ Refused client.fd s'.history := by
  rw [receivePngToUpload, if_pos hbad] at h
  simp only [Runs.bind_iff, Prog.pure_eq, Runs.ret_iff] at h
  obtain ⟨b, s₁, hreply, rfl, rfl⟩ := h
  obtain ⟨hworld, hhistory⟩ := sendResponsef_replies (by decide) hreply
  exact ⟨rfl, hworld, .of_head (by decide) hhistory⟩

theorem receiveExtraToFile_refuses {fd : Int} {size max : UInt64} {label suffix : Bytes} {seq : Nat}
    {r : Option Bytes} (hbad : size > max)
    (hlabel : lit "ERR " ++ label ++ lit " too large\n" ∈ sizeErrors)
    (h : Runs (machineIn adm codec) t
      (receiveExtraToFile cfg fd size max label seq suffix) s r s') :
    r = none ∧ s'.world = s.world ∧ Refused fd s'.history := by
  rw [receiveExtraToFile, if_pos hbad] at h
  simp only [Runs.bind_iff, Prog.pure_eq, Runs.ret_iff] at h
  obtain ⟨b, s₁, hreply, rfl, rfl⟩ := h
  have hshort : ∀ text ∈ sizeErrors, text.length < bufferSize := by decide
  obtain ⟨hworld, hhistory⟩ := sendResponsef_replies (hshort _ hlabel) hreply
  exact ⟨rfl, hworld, .of_head hlabel hhistory⟩

/-- A name that is too long is refused after the sum of the sizes, as a 64-bit
number, has been discarded. -/
theorem handleEncodeFile_refuses {r : ProtocolRequest} (hname : r.size2.toNat > maxFilenameBytes)
    (h : Runs (machineIn adm codec) t (handleEncodeFile cfg client r) s () s') :
    s'.world.streams client.fd =
        (discardExact (r.size1 + r.size2 + r.size3).toNat (s.world.streams client.fd)).2 ∧
      Refused client.fd s'.history := by
  rw [handleEncodeFile, if_pos hname, runs_call_bind] at h
  obtain ⟨b, s₁, ⟨e, marks, -, hexec, -⟩, h⟩ := h
  simp only [Runs.bind_iff, Prog.pure_eq, Runs.ret_iff] at h
  obtain ⟨b', s₂, hreply, -, rfl⟩ := h
  obtain ⟨hworld, hhistory⟩ := sendResponsef_replies (by decide) hreply
  simp only [exec, Option.some.injEq, Prod.mk.injEq] at hexec
  refine ⟨?_, .of_head (by decide) hhistory⟩
  rw [hworld, ← hexec.2.1, World.setStream_streams]

theorem exec_reply {e : Env} {w w' : World} {o : Op} {a : Ans o} {marks : List Mark} {fd : Int}
    {text : Bytes} (h : exec codec e t w o = some (a, w', marks))
    (hmem : Mark.reply fd text ∈ marks) :
    o = .writeAll fd text := by
  have hfault : ∀ ok call path, Mark.reply fd text ∉ faultUnless ok t call path := by
    intro ok call path
    cases ok <;> simp [faultUnless]
  cases o <;> simp only [exec] at h <;> (repeat' split at h) <;>
    simp only [Option.some.injEq, Prod.mk.injEq, reduceCtorEq] at h <;>
    obtain ⟨-, -, rfl⟩ := h <;>
    first
      | (simp only [List.mem_cons, List.not_mem_nil, reduceCtorEq, or_self, or_false,
          Mark.reply.injEq] at hmem
         try simp [hmem])
      | exact absurd hmem (hfault _ _ _)

/-- The second half of both encode commands, when its size is refused. -/
theorem receiveExtra_refuses {size max : UInt64} {label suffix png_path : Bytes} {type : JobType}
    {payload : Option Bytes} (hbad : size > max)
    (hlabel : lit "ERR " ++ label ++ lit " too large\n" ∈ sizeErrors)
    (h : Runs (machineIn adm codec) t (do
      let next_id ← call .nextId
      match ← receiveExtraToFile cfg client.fd size max label next_id suffix with
      | none => return ()
      | some path => let _ ← enqueueJob client type payload (some png_path) (some path)) s () s') :
    s'.world = s.world ∧ Refused client.fd s'.history := by
  rw [runs_call_bind] at h
  obtain ⟨n, s₁, ⟨e, marks, -, hexec, -⟩, h⟩ := h
  simp only [exec, Option.some.injEq, Prod.mk.injEq] at hexec
  obtain ⟨-, hworld, -⟩ := hexec
  simp only [Runs.bind_iff] at h
  obtain ⟨r, s₂, hreceive, h⟩ := h
  obtain ⟨rfl, hworld₂, hrefused⟩ := receiveExtraToFile_refuses hbad hlabel hreceive
  rw [Prog.pure_eq, Runs.ret_iff] at h
  rw [h.2, hworld₂, hworld]
  exact ⟨rfl, hrefused⟩

/-- A PNG size that is refused ends its command, unless a name was refused first. -/
theorem answerUpload_png_refuses {r : ProtocolRequest} (hupload : r.command ∈ uploadCommands)
    (hname : ¬ (r.command = .encodeFile ∧ r.size2.toNat > maxFilenameBytes))
    (hbad : r.size1 = 0 ∨ r.size1 > cfg.max_upload_bytes)
    (h : Runs (machineIn adm codec) t (answerUserCommand cfg client r) s () s') :
    s'.world = s.world ∧ Refused client.fd s'.history := by
  have hpng : ∀ {f : Option Bytes → Task Unit}, f none = pure () →
      Runs (machineIn adm codec) t (receivePngToUpload cfg client r.size1 >>= f) s () s' →
      s'.world = s.world ∧ Refused client.fd s'.history := by
    intro f hf hrun
    rw [Runs.bind_iff] at hrun
    obtain ⟨res, s₁, hreceive, hrest⟩ := hrun
    obtain ⟨rfl, hworld, hrefused⟩ := receivePngToUpload_refuses hbad hreceive
    rw [hf, Prog.pure_eq, Runs.ret_iff] at hrest
    obtain ⟨-, rfl⟩ := hrest
    exact ⟨hworld, hrefused⟩
  simp only [uploadCommands, List.mem_cons, List.not_mem_nil, or_false] at hupload
  rcases hupload with hcommand | hcommand | hcommand | hcommand | hcommand <;>
    simp only [answerUserCommand, hcommand] at h
  · exact hpng rfl h
  · rw [handleEncodeFile, if_neg fun hlong => hname ⟨hcommand, hlong⟩] at h
    exact hpng rfl h
  all_goals exact hpng rfl h

theorem answerUpload_not_refused {r : ProtocolRequest} (hupload : r.command ∈ uploadCommands)
    (hsize : ¬ SizeRefused cfg r)
    (h : Runs (machineIn adm codec) t (answerUserCommand cfg client r) s () s')
    (hs : ¬ Refused client.fd s.history) : ¬ Refused client.fd s'.history := by
  have hall : (answerUserCommand cfg client r).All fun o => o.refusesSize = false :=
    answerUpload_all (fun _ _ _ _ ho => ho) cfg r hupload fun hbad => absurd hbad hsize
  refine Runs.preserves (P := fun s => ¬ Refused client.fd s.history) ?_ hall hs h
  rintro o s a s' ho hs ⟨e, marks, -, hexec, hhistory⟩ ⟨text, htext, hmem⟩
  rw [hhistory, List.mem_append] at hmem
  rcases hmem with hmem | hmem
  · rw [exec_reply hexec hmem] at ho
    exact of_decide_eq_false ho htext
  · exact hs ⟨text, htext, hmem⟩

end

section

variable {codec : PngCodec} {cfg : RuntimeConfig} {client : ClientSession} {t : Tid} {now : Nat}
  {s s' : Sys} {r : ProtocolRequest}

theorem png_accepted {size max : UInt64} (h : ¬ (size = 0 ∨ size > max)) :
    0 < size ∧ size ≤ max := by
  rw [not_or] at h
  exact ⟨UInt64.pos_iff_ne_zero.mpr h.1, UInt64.not_lt.mp h.2⟩

/-- After the PNG the stream goes on with the rest of the body. -/
theorem receivePngToUpload_rest {res : Option Bytes}
    (h : Runs (machineIn (Calm now) codec) t (receivePngToUpload cfg client r.size1) s res s')
    (hpng : ¬ (r.size1 = 0 ∨ r.size1 > cfg.max_upload_bytes)) (hid : s.world.next_id < 2 ^ 64)
    (hclean : Clean (s.world.streams client.fd))
    (hlen : (bytesOf (s.world.streams client.fd)).length = r.declared) :
    (∃ path, res = some path) ∧ Clean (s'.world.streams client.fd) ∧
      (bytesOf (s'.world.streams client.fd)).length = r.size2.toNat + r.size3.toNat := by
  obtain ⟨hpos, hmax⟩ := png_accepted hpng
  rw [ProtocolRequest.declared] at hlen
  obtain ⟨rfl, es', hclean', hbytes', hworld⟩ :=
    receivePngToUpload_calm h hid hpos hmax hclean (by omega)
  have hstream : s'.world.streams client.fd = es' := by
    rw [hworld]
    simp
  refine ⟨⟨_, rfl⟩, by rw [hstream]; exact hclean', ?_⟩
  rw [hstream, hbytes', List.length_drop]
  omega

theorem handleEncodeText_desync
    (h : Runs (machineIn (Calm now) codec) t (handleEncodeText cfg client r) s () s')
    (hpng : ¬ (r.size1 = 0 ∨ r.size1 > cfg.max_upload_bytes))
    (htext : r.size2 > UInt64.ofNat maxTextBytes) (hid : s.world.next_id < 2 ^ 64)
    (hclean : Clean (s.world.streams client.fd))
    (hlen : (bytesOf (s.world.streams client.fd)).length = r.declared) :
    Refused client.fd s'.history ∧ bytesOf (s'.world.streams client.fd) ≠ [] := by
  simp only [handleEncodeText, Runs.bind_iff] at h
  obtain ⟨res, s₁, hreceive, h⟩ := h
  obtain ⟨⟨path, rfl⟩, -, hrest⟩ := receivePngToUpload_rest hreceive hpng hid hclean hlen
  obtain ⟨hworld, hrefused⟩ := receiveExtra_refuses htext (by decide) h
  refine ⟨hrefused, fun hnil => ?_⟩
  rw [hworld] at hnil
  rw [hnil, List.length_nil] at hrest
  have hpos : r.size2.toNat > (UInt64.ofNat maxTextBytes).toNat := htext
  omega

theorem handleEncodeFile_desync
    (h : Runs (machineIn (Calm now) codec) t (handleEncodeFile cfg client r) s () s')
    (hname : ¬ r.size2.toNat > maxFilenameBytes)
    (hpng : ¬ (r.size1 = 0 ∨ r.size1 > cfg.max_upload_bytes))
    (hfile : r.size3 > cfg.max_upload_bytes) (hid : s.world.next_id < 2 ^ 64)
    (hclean : Clean (s.world.streams client.fd))
    (hlen : (bytesOf (s.world.streams client.fd)).length = r.declared) :
    Refused client.fd s'.history ∧ bytesOf (s'.world.streams client.fd) ≠ [] := by
  have hpos : r.size3.toNat > cfg.max_upload_bytes.toNat := hfile
  unfold handleEncodeFile at h
  rw [if_neg hname, Runs.bind_iff] at h
  obtain ⟨res, s₁, hreceive, h⟩ := h
  obtain ⟨⟨path, rfl⟩, hclean₁, hrest⟩ := receivePngToUpload_rest hreceive hpng hid hclean hlen
  have hbody : ∀ {s₂ filename}, (bytesOf (s₂.world.streams client.fd)).length = r.size3.toNat →
      Runs (machineIn (Calm now) codec) t (handleEncodeFileBody cfg client r path filename) s₂
        () s' →
      Refused client.fd s'.history ∧ bytesOf (s'.world.streams client.fd) ≠ [] := by
    intro s₂ filename hlen₂ hrun
    obtain ⟨hworld, hrefused⟩ := receiveExtra_refuses hfile (by decide) hrun
    refine ⟨hrefused, fun hnil => ?_⟩
    rw [hworld] at hnil
    rw [hnil, List.length_nil] at hlen₂
    omega
  dsimp only at h
  split at h
  · next hsize =>
    rw [runs_call_bind] at h
    obtain ⟨name, s₂, hread, h⟩ := h
    have htake : ((bytesOf (s₁.world.streams client.fd)).take r.size2.toNat).length =
      r.size2.toNat := by
      rw [List.length_take]
      omega
    obtain ⟨rfl, es₂, -, hbytes₂, hworld₂⟩ :=
      readExact_calm hread htake hclean₁ (List.take_append_drop r.size2.toNat _).symm
    dsimp only at h
    rw [if_neg (not_not.mpr htake)] at h
    refine hbody ?_ h
    rw [hworld₂, World.setStream_streams, hbytes₂, List.length_drop]
    omega
  · next hsize =>
    have hzero : r.size2.toNat = 0 := by
      by_contra hne
      exact hsize (UInt64.lt_iff_toNat_lt.mpr (Nat.pos_of_ne_zero hne))
    exact hbody (by omega) h

/-- Every other refusal leaves some of the body behind. -/
theorem answerUpload_desync (hupload : r.command ∈ uploadCommands) (hsize : SizeRefused cfg r)
    (hsum : ¬ (r.command = .encodeFile ∧ r.size2.toNat > maxFilenameBytes ∧ r.declared < 2 ^ 64))
    (hbody : r.declared ≠ 0)
    (h : Runs (machineIn (Calm now) codec) t (answerUserCommand cfg client r) s () s')
    (hid : s.world.next_id < 2 ^ 64) (hclean : Clean (s.world.streams client.fd))
    (hlen : (bytesOf (s.world.streams client.fd)).length = r.declared) :
    Refused client.fd s'.history ∧ bytesOf (s'.world.streams client.fd) ≠ [] := by
  by_cases hlong : r.command = .encodeFile ∧ r.size2.toNat > maxFilenameBytes
  · obtain ⟨hcommand, hname⟩ := hlong
    simp only [answerUserCommand, hcommand] at h
    obtain ⟨hstream, hrefused⟩ := handleEncodeFile_refuses hname h
    refine ⟨hrefused, ?_⟩
    -- the 64-bit sum wraps around, so less than the body is discarded
    have hwrap : (r.size1 + r.size2 + r.size3).toNat < r.declared := by
      have hge : ¬ r.declared < 2 ^ 64 := fun hlt => hsum ⟨hcommand, hname, hlt⟩
      exact lt_of_lt_of_le (UInt64.toNat_lt _) (Nat.not_lt.mp hge)
    obtain ⟨es', hdiscard, hbytes', -⟩ := discardExact_clean hclean (hlen ▸ hwrap.le)
    intro hnil
    rw [hstream, hdiscard] at hnil
    have hdrop := congrArg List.length (hbytes'.symm.trans hnil)
    rw [List.length_drop, List.length_nil] at hdrop
    omega
  · by_cases hbad : r.size1 = 0 ∨ r.size1 > cfg.max_upload_bytes
    · obtain ⟨hworld, hrefused⟩ := answerUpload_png_refuses hupload hlong hbad h
      refine ⟨hrefused, fun hnil => hbody ?_⟩
      rw [← hlen, ← hworld, hnil, List.length_nil]
    · simp only [uploadCommands, List.mem_cons, List.not_mem_nil, or_false] at hupload
      rcases hupload with hcommand | hcommand | hcommand | hcommand | hcommand <;>
        simp only [SizeRefused, hcommand] at hsize <;> simp only [answerUserCommand, hcommand] at h
      · exact handleEncodeText_desync h hbad (hsize.resolve_left hbad) hid hclean hlen
      · have hname : ¬ r.size2.toNat > maxFilenameBytes := fun hname => hlong ⟨hcommand, hname⟩
        have hfile := (hsize.resolve_left hname).resolve_left hbad
        exact handleEncodeFile_desync h hname hbad hfile hid hclean hlen
      all_goals exact absurd hsize hbad

end

/-- In every run that answers the line with a size error, the next command starts
right after the declared body. -/
def StaysInSync (codec : PngCodec) (cfg : RuntimeConfig) (dt : DurationText)
    (m : MainState) (i : Nat) (client : ClientSession) (w : World) (line : Bytes) : Prop :=
  ∀ es body rest m' s', Clean es → bytesOf es = line ++ (body ++ rest) →
    body.length = (protocolParseLine line).declared →
    Runs (machine codec) .main (handleClientCommand cfg dt m i client)
      ⟨w.setStream client.fd es, []⟩ m' s' →
    Refused client.fd s'.history → bytesOf (s'.world.streams client.fd) = rest

section

variable {adm : Env → Prop} {codec : PngCodec} {cfg : RuntimeConfig} {dt : DurationText}
  {m m' : MainState} {i : Nat} {client : ClientSession} {s s' : Sys}

theorem handleClientCommand_answers {line rest : Bytes} (hline : IsLine line)
    (huser : client.type ≠ .admin) (hupload : (protocolParseLine line).command ∈ uploadCommands)
    (h : Runs (machineIn adm codec) .main (handleClientCommand cfg dt m i client) s m' s')
    (hclean : Clean (s.world.streams client.fd))
    (hbytes : bytesOf (s.world.streams client.fd) = line ++ rest) :
    ∃ s₁ es₁, Clean es₁ ∧ bytesOf es₁ = rest ∧ s₁.world = s.world.setStream client.fd es₁ ∧
      s₁.history = .line client.fd line :: s.history ∧
      Runs (machineIn adm codec) .main (answerUserCommand cfg client (protocolParseLine line))
        s₁ () s' := by
  rw [handleClientCommand, runs_call_bind] at h
  obtain ⟨r, s₁, ⟨e, marks, -, hexec, hhistory⟩, h⟩ := h
  obtain ⟨es₁, hread, hbytes₁, hclean₁⟩ := readLine_clean hclean hbytes hline
  simp only [exec, hread, Option.some.injEq, Prod.mk.injEq] at hexec
  obtain ⟨rfl, hworld₁, rfl⟩ := hexec
  have hquit : (protocolParseLine line).command ≠ .quit := by
    intro hq
    rw [hq] at hupload
    simp [uploadCommands] at hupload
  obtain ⟨c, l, rfl⟩ := List.exists_cons_of_ne_nil hline.ne_nil
  simp only [Option.getD_some] at h
  rw [if_neg huser] at h
  simp only [handleUserCommand, if_neg hquit, Runs.bind_iff, Prog.pure_eq, Runs.ret_iff] at h
  obtain ⟨client', s₂, ⟨_, s₃, hanswer, -, rfl⟩, -, rfl⟩ := h
  exact ⟨s₁, es₁, hclean₁, hbytes₁, hworld₁.symm, hhistory, hanswer⟩

end

/-- A refused upload leaves the connection in sync exactly when its sizes pass, the
body is empty, or a too long name meets sizes whose sum fits in 64 bits. -/
theorem refused_upload_inSync (codec : PngCodec) (cfg : RuntimeConfig) (dt : DurationText)
    (m : MainState) (i : Nat) (client : ClientSession) (w : World) (line : Bytes)
    (huser : client.type ≠ .admin) (hid : w.next_id < 2 ^ 64) (hline : IsLine line)
    (hupload : (protocolParseLine line).command ∈ uploadCommands) :
    StaysInSync codec cfg dt m i client w line ↔
      (SizeRefused cfg (protocolParseLine line) →
        (protocolParseLine line).declared = 0 ∨
          (protocolParseLine line).command = .encodeFile ∧
            (protocolParseLine line).size2.toNat > maxFilenameBytes ∧
            (protocolParseLine line).declared < 2 ^ 64) := by
  let r := protocolParseLine line
  constructor
  · intro hsync hsize
    by_contra hne
    rw [not_or] at hne
    let body : Bytes := List.replicate r.declared 0
    obtain ⟨c, l, hl⟩ := List.exists_cons_of_ne_nil hline.ne_nil
    let es : Stream := [.chunk c (l ++ body)]
    have hclean : Clean es := by simp [Clean, es]
    have hbytes : bytesOf es = line ++ (body ++ []) := by simp [es, ReadEvent.bytes, hl]
    obtain ⟨m', s', hrun⟩ := exists_calm_run codec 0 .main
      (handleClientCommand_all (fun _ ho _ _ => ho) cfg dt m i rfl rfl)
        ⟨w.setStream client.fd es, []⟩
    obtain ⟨s₁, es₁, hclean₁, hbytes₁, hworld₁, -, hanswer⟩ :=
      handleClientCommand_answers hline huser hupload hrun
      (by simpa using hclean) (by simpa using hbytes)
    have hstream₁ : s₁.world.streams client.fd = es₁ := by
      rw [hworld₁]
      simp
    obtain ⟨hrefused, hleft⟩ :=
      answerUpload_desync hupload hsize hne.2 hne.1 hanswer (by rw [hworld₁]; exact hid)
      (by rw [hstream₁]; exact hclean₁) (by rw [hstream₁, hbytes₁]; simp [body, r])
    exact hleft (hsync es body [] m' s' hclean hbytes List.length_replicate
      (machineIn_mono (fun _ _ => trivial) hrun) hrefused)
  · intro hcond es body rest m' s' hclean hbytes hlen hrun hrefused
    obtain ⟨s₁, es₁, hclean₁, hbytes₁, hworld₁, hhistory₁, hanswer⟩ :=
      handleClientCommand_answers hline huser hupload hrun (by simpa using hclean)
        (by simpa using hbytes)
    have hstream₁ : s₁.world.streams client.fd = es₁ := by
      rw [hworld₁]
      simp
    by_cases hsize : SizeRefused cfg r
    · rcases hcond hsize with hzero | ⟨hcommand, hname, hsum⟩
      · have hsum : r.size1.toNat + r.size2.toNat + r.size3.toNat = 0 := hzero
        have hlen' : body.length = r.declared := hlen
        have hbad : r.size1 = 0 := UInt64.toNat_inj.mp (show r.size1.toNat = 0 by omega)
        have hname : ¬ (r.command = .encodeFile ∧ r.size2.toNat > maxFilenameBytes) := by
          rintro ⟨-, hname⟩
          omega
        obtain ⟨hworld, -⟩ := answerUpload_png_refuses hupload hname (.inl hbad) hanswer
        have hnil : body = [] := List.eq_nil_of_length_eq_zero (hlen'.trans hsum)
        rw [hworld, hstream₁, hbytes₁, hnil, List.nil_append]
      · simp only [answerUserCommand, hcommand] at hanswer
        obtain ⟨hstream, -⟩ := handleEncodeFile_refuses hname hanswer
        have hexact : (r.size1 + r.size2 + r.size3).toNat = r.declared := by
          rw [UInt64.toNat_add, UInt64.toNat_add, Nat.mod_add_mod]
          exact Nat.mod_eq_of_lt hsum
        obtain ⟨es', hdiscard, hbytes', -⟩ := discardExact_clean hclean₁
          (show r.declared ≤ (bytesOf es₁).length by
            rw [hbytes₁, List.length_append, hlen]
            exact Nat.le_add_right _ _)
        rw [hstream, hstream₁]
        change bytesOf (discardExact (r.size1 + r.size2 + r.size3).toNat es₁).2 = rest
        rw [hexact, hdiscard, hbytes', hbytes₁, List.drop_left' hlen]
    · refine absurd hrefused (answerUpload_not_refused hupload hsize hanswer ?_)
      rw [hhistory₁]
      rintro ⟨text, -, hmem⟩
      simp at hmem

/-- A client declares no PNG and five bytes of text, which read like a command. -/
theorem refused_upload_desync :
    ¬ ∀ (codec : PngCodec) (cfg : RuntimeConfig) (dt : DurationText) (m : MainState) (i : Nat)
      (client : ClientSession) (w : World) (line : Bytes), client.type ≠ .admin → IsLine line →
      (protocolParseLine line).command ∈ uploadCommands →
        StaysInSync codec cfg dt m i client w line := by
  intro hsync
  let client : ClientSession := { fd := 9, type := .user, active := true }
  let w : World := { files := fun _ => none }
  let line := lit "ENCODE_TEXT 0 5\n"
  let es : Stream := [.chunk 69 (line.tail ++ lit "QUIT\n")]
  have hline : IsLine line := .inl ⟨lit "ENCODE_TEXT 0 5", by decide, by decide, by decide⟩
  let run := execute rawCodec .main (handleClientCommand runtimeConfigDefaults plainDurations
    {} 0 client)
    (fun _ => {}) ⟨w.setStream client.fd es, []⟩
  have hleft : (run.map fun r =>
    (decide (Mark.reply 9 (lit "ERR invalid png size\n") ∈ r.2.history),
      bytesOf (r.2.world.streams 9))) = some (true, lit "QUIT\n") := by decide
  obtain ⟨⟨m', s'⟩, hrun, hresult⟩ := Option.map_eq_some_iff.mp hleft
  rw [Prod.mk.injEq] at hresult
  have hrefused : Refused client.fd s'.history :=
    ⟨lit "ERR invalid png size\n", by decide, of_decide_eq_true hresult.1⟩
  have hempty := hsync rawCodec runtimeConfigDefaults plainDurations {} 0 client w line
    (by decide) hline
    (by decide) es (lit "QUIT\n") [] m' s' (by decide) (by decide) (by decide)
    (execute_runs hrun) hrefused
  exact absurd (hresult.2.symm.trans hempty) (by decide)

/-- A name that is too long for its field, after a body that is discarded whole. -/
theorem refused_upload_inSync_longName :
    let client : ClientSession := { fd := 9, type := .user, active := true }
    StaysInSync rawCodec runtimeConfigDefaults plainDurations {} 0 client { files := fun _ => none }
      (lit "ENCODE_FILE 1 256 1\n") := by
  intro client
  have hparse : protocolParseLine (lit "ENCODE_FILE 1 256 1\n") =
      { command := .encodeFile, size1 := 1, size2 := 256, size3 := 1 } := by decide
  have hline : IsLine (lit "ENCODE_FILE 1 256 1\n") :=
    .inl ⟨lit "ENCODE_FILE 1 256 1", by decide, by decide, by decide⟩
  refine (refused_upload_inSync rawCodec runtimeConfigDefaults plainDurations {} 0 client
    { files := fun _ => none }
    (lit "ENCODE_FILE 1 256 1\n") (by decide) (by decide) hline (by rw [hparse]; decide)).mpr
      fun _ => ?_
  rw [hparse]
  exact .inr ⟨rfl, by decide, by decide⟩

end StegaPng
