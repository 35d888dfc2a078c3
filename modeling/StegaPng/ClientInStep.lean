import StegaPng.ClientConversation

/-! Every subcommand of the client in step with the server. -/

namespace StegaPng

open Interleaving

section

variable {α β : Type} {s s' : Conversation} {tr : List ClientCall} {G : β → Prop} {line : Bytes}

/-- Once something else is unread, the next line that is read is not the reply. -/
theorem Late.breaks (h : Late line s) {k : Option Bytes → Client β} {b : β}
    (hrun : Converses (act (.send line) >>= fun _ => act .readLine >>= k) s tr b s') :
    BreaksStep tr := by
  obtain ⟨s₁, sent, s₂, rest, rfl, rfl, hstep, hrest⟩ := Traced.op_iff.mp hrun
  obtain ⟨s₃, heard, s₄, rest', rfl, rfl, -, -⟩ := Traced.op_iff.mp hrest
  suffices hlate : s₂.unread ≠ [] ∧ ¬ s₂.Due from
    ⟨_, List.mem_cons_of_mem _ List.mem_cons_self, rfl, hlate⟩
  have hquiet : ¬ (s.saying line).Due := by
    rintro ⟨command, rest, hsent, hasked, heven⟩
    obtain rfl : line = command := Option.some.inj hsent
    exact h.other rest hasked heven
  cases sent with
  | false =>
    obtain rfl : s₂ = s.saying line := hstep
    exact ⟨h.unread, hquiet⟩
  | true =>
    have hanswers : (s.saying line).Answers line s₂ := hstep
    cases hanswers with
    | gone => exact ⟨h.unread, hquiet⟩
    | silence => exact ⟨h.unread, hquiet⟩
    | @reply r rs es hnext hsome hclean hbytes =>
      have hunread : bytesOf (s.incoming ++ es) = s.unread ++ r := by
        rw [bytesOf_append, hbytes]
        rfl
      refine ⟨fun hnil => ?_, ?_⟩
      · exact h.unread (List.append_eq_nil_iff.mp (hunread.symm.trans hnil)).1
      · rintro ⟨command, rest, -, hasked, -⟩
        have hwhole : r = bytesOf (s.incoming ++ es) :=
          congrArg Prod.snd (List.cons.inj hasked).1
        rw [hunread] at hwhole
        exact h.unread (List.append_left_eq_self.mp hwhole.symm)

theorem result_ne {job_id : UInt64} (hjob : job_id ≠ 0) :
    lit "RESULT " ++ decimal job_id.toNat ++ lit "\n" ≠ lit "RESULT 0\n" := by
  intro heq
  have hzero : lit "RESULT 0\n" = lit "RESULT " ++ decimal 0 ++ lit "\n" := rfl
  rw [hzero, List.append_left_inj, List.append_right_inj] at heq
  exact hjob (UInt64.toNat_inj.mp (decimal_injective heq))

theorem leads_ask (hresult : line ≠ lit "RESULT 0\n") (hdownload : ¬ lit "DOWNLOAD " <+: line)
    {k : Option Bytes → Client β} (hk : ∀ buf, Leads Synced (k buf) G) :
    Leads Synced (act (.send line) >>= fun _ => expectLine >>= k) G := by
  have hexpect : Leads (Sent line) (expectLine >>= k) G := leads_expect hdownload hk
  refine leads_send hresult ⟨?_, hexpect.strays⟩ hexpect
  intro s tr b s' hs hrun
  exact hexpect.ends s tr b s' (.inl hs) hrun

theorem leads_unfinished {job_id : UInt64} (hjob : job_id ≠ 0) {k : Option Bytes → Client Bool}
    (hk : ∀ buf, k buf = .ret false) :
    Leads Synced (act (.send (lit "RESULT 0\n")) >>= fun _ =>
      act (.send (snprintf 64 (lit "RESULT " ++ decimal job_id.toNat ++ lit "\n"))) >>= fun _ =>
        expectLine >>= k) Failed := by
  rw [snprintf_64 (by decide)]
  refine ⟨?_, strays_act rfl fun _ => strays_act rfl fun _ => strays_expect⟩
  intro s tr b s' hs hrun
  obtain ⟨s₁, sent, s₂, rest, rfl, rfl, hstep, hrest⟩ := Traced.op_iff.mp hrun
  rcases hs.sends hstep with ⟨hsynced, hunanswered⟩ | ⟨hawaiting, rfl, hanswered⟩
  · have hin : ReadsInStep [⟨.send (lit "RESULT 0\n"), s, sent⟩] := readsInStep_single nofun
    have hleads : Leads Synced
        (act (.send (lit "RESULT " ++ decimal job_id.toNat ++ lit "\n")) >>= fun _ =>
          expectLine >>= k) Failed := by
      refine leads_ask (result_ne hjob) (not_download (lit "RE") rfl (by decide)) fun buf => ?_
      rw [hk]
      exact leads_ret false
    refine (hleads.ends s₂ rest b s' hsynced hrest).cons hin ?_
    rintro (hgives | hzero | hover | hgreeted)
    · exact hgives.1
    · cases sent with
      | true => exact hunanswered ⟨rfl, hzero.2⟩
      | false => exact hzero
    · exact hover.1 rfl
    · exact hgreeted
  · have hlate : Late (lit "RESULT " ++ decimal job_id.toNat ++ lit "\n") s₂ :=
      hawaiting.late (result_ne hjob).symm
    rw [expectLine_bind] at hrest
    exact .broken ⟨_, List.mem_cons_self, .inr (.inl ⟨rfl, hanswered⟩)⟩ (hlate.breaks hrest).cons

theorem leads_job {job_id : UInt64} {fail go : Client Bool}
    (hfail : job_id ≠ 0 → Leads Synced fail Failed) (hgo : job_id ≠ 0 → Leads Synced go Failed) :
    Leads Synced (if job_id = 0 then pure false else
      waitForDone job_id 120 >>= fun done => if (!done) = true then fail else go) Failed := by
  split
  · exact leads_ret false
  · next hjob =>
    refine (leads_wait _ _).bind (fun _ hfalse => hfalse.elim) fun done => ?_
    split
    · exact hfail hjob
    · exact hgo hjob

theorem leads_encodeText (png_in text out_png : Bytes) :
    Leads Synced (cmdEncodeText png_in text out_png) Failed := by
  unfold cmdEncodeText
  refine leads_quiet rfl fun png_size => ?_
  cases png_size with
  | none => exact leads_ret false
  | some png_size =>
    refine leads_send (line_ne (lit "EN") rfl (by decide)) (leads_ret false) ?_
    refine leads_upload (uploads_file png_in) (line_ne (lit "EN") rfl (by decide))
      ⟨false, rfl, rfl⟩ ?_
    refine leads_upload (uploads_part text) (line_ne (lit "EN") rfl (by decide))
      ⟨false, rfl, rfl⟩ ?_
    refine leads_expect (not_download (lit "EN") rfl (by decide)) fun buf => ?_
    cases buf with
    | none => exact leads_ret false
    | some buf =>
      refine leads_job (fun hjob => leads_unfinished hjob fun _ => rfl) fun _ => ?_
      rw [snprintf_64 (by decide)]
      refine leads_ask (line_ne (lit "ME") rfl (by decide))
        (not_download (lit "ME") rfl (by decide)) fun _ => ?_
      exact leads_download _ out_png

theorem leads_encodeFile (png_in file_in out_png : Bytes) :
    Leads Synced (cmdEncodeFile png_in file_in out_png) Failed := by
  unfold cmdEncodeFile
  refine leads_quiet rfl fun png_size => ?_
  cases png_size with
  | none => exact leads_ret false
  | some png_size =>
    refine leads_quiet rfl fun file_size => ?_
    cases file_size with
    | none => exact leads_ret false
    | some file_size =>
      refine leads_send (line_ne (lit "EN") rfl (by decide)) (leads_ret false) ?_
      refine leads_upload (uploads_file png_in) (line_ne (lit "EN") rfl (by decide))
        ⟨false, rfl, rfl⟩ ?_
      refine leads_upload (uploads_part _) (line_ne (lit "EN") rfl (by decide)) ⟨false, rfl, rfl⟩ ?_
      refine leads_upload (uploads_file file_in) (line_ne (lit "EN") rfl (by decide))
        ⟨false, rfl, rfl⟩ ?_
      refine leads_expect (not_download (lit "EN") rfl (by decide)) fun buf => ?_
      cases buf with
      | none => exact leads_ret false
      | some buf => exact leads_job (fun _ => leads_ret false) fun _ => leads_download _ out_png

theorem leads_decode (png_in out_path : Bytes) :
    Leads Synced (cmdDecode png_in out_path) Failed := by
  unfold cmdDecode
  refine leads_quiet rfl fun png_size => ?_
  cases png_size with
  | none => exact leads_ret false
  | some png_size =>
    refine leads_send (line_ne (lit "DE") rfl (by decide)) (leads_ret false) ?_
    refine leads_upload (uploads_file png_in) (line_ne (lit "DE") rfl (by decide))
      ⟨false, rfl, rfl⟩ ?_
    refine leads_expect (not_download (lit "DE") rfl (by decide)) fun buf => ?_
    cases buf with
    | none => exact leads_ret false
    | some buf =>
      refine leads_job (fun _ => leads_ret false) fun _ => ?_
      rw [snprintf_64 (by decide)]
      refine leads_ask (line_ne (lit "ME") rfl (by decide))
        (not_download (lit "ME") rfl (by decide)) fun _ => ?_
      exact leads_download _ out_path

theorem leads_result {verb : Bytes} (first : Bytes)
    (hverb : ∀ rest, (snprintf 128 (verb ++ rest)).take 2 = first) (hresult : first ≠ lit "RE")
    (hdownload : first ≠ lit "DO") (hquit : first ≠ lit "QU") (png_in : Bytes) :
    Leads Synced (cmdResult verb png_in) Failed := by
  unfold cmdResult
  refine leads_quiet rfl fun png_size => ?_
  cases png_size with
  | none => exact leads_ret false
  | some png_size =>
    dsimp only
    rw [List.append_assoc]
    refine leads_send (line_ne first (hverb _) hresult) (leads_ret false) ?_
    refine leads_upload (uploads_file png_in) (line_ne first (hverb _) hquit) ⟨false, rfl, rfl⟩ ?_
    refine leads_expect (not_download first (hverb _) hdownload) fun buf => ?_
    cases buf with
    | none => exact leads_ret false
    | some buf =>
      refine leads_job (fun _ => leads_ret false) fun hjob => ?_
      rw [snprintf_64 (by decide)]
      exact leads_ask (result_ne hjob) (not_download (lit "RE") rfl (by decide)) fun _ =>
        leads_ret true

theorem leads_ping : Leads Synced cmdPing Failed := by
  refine leads_ask (line_ne (lit "PI") rfl (by decide)) (not_download (lit "PI") rfl (by decide))
    fun buf => ?_
  exact leads_ret buf.isSome

theorem leads_subcommand {argv : List Bytes} {run : Client Bool}
    (hrun : subcommand argv = some run) :
    Leads Synced run Failed := by
  unfold subcommand at hrun
  split at hrun
  · split at hrun
    · cases hrun
      exact leads_ping
    · split at hrun
      · split at hrun
        · cases hrun
          exact leads_encodeText _ _ _
        · split at hrun
          · cases hrun
            exact leads_encodeFile _ _ _
          · cases hrun
      · split at hrun
        · cases hrun
          exact leads_decode _ _
        · cases hrun
      · split at hrun
        · cases hrun
          exact leads_result (lit "CA") (fun _ => rfl) (by decide) (by decide) (by decide) _
        · split at hrun
          · cases hrun
            exact leads_result (lit "VA") (fun _ => rfl) (by decide) (by decide) (by decide) _
          · cases hrun
      · cases hrun
  · cases hrun

/-- What `main` does after the subcommand. -/
def quitting (rc : Bool) : Client Bool :=
  act (.send (lit "QUIT\n")) >>= fun _ => expectLine >>= fun _ => act .close >>= fun _ => pure rc

theorem leads_quitting (rc : Bool) : Leads Synced (quitting rc) fun _ => False := by
  refine leads_ask (line_ne (lit "QU") rfl (by decide)) (not_download (lit "QU") rfl (by decide))
    fun _ => ?_
  exact leads_quiet rfl fun _ => leads_ret rc

theorem Late.quitting_breaks (h : Late (lit "QUIT\n") s) {rc b : Bool}
    (hrun : Converses (quitting rc) s tr b s') : BreaksStep tr := by
  simp only [quitting, expectLine_bind] at hrun
  exact h.breaks hrun

/-- A session that has fallen behind is found out by its QUIT. -/
theorem leads_quit {run : Client Bool} (h : Leads Synced run Failed) :
    Leads Synced (run >>= quitting) fun _ => False where
  ends := by
    intro s tr b s' hs hrun
    obtain ⟨rc, s₁, tr₁, tr₂, rfl, hfirst, hrest⟩ := Traced.bind (fun _ => rfl) hrun
    cases h.ends s tr₁ rc s₁ hs hfirst with
    | fine hstep hsafe hsynced =>
      exact ((leads_quitting rc).ends s₁ tr₂ b s' hsynced hrest).after hstep hsafe
    | behind hfailed hslips hlate =>
      obtain ⟨c, hc, hslip⟩ := hslips
      exact .broken ⟨c, List.mem_append_left _ hc, hslip⟩
        (hlate.quitting_breaks hrest).append_right
    | astray hover hastray => exact (leads_quitting rc).strays.ending hastray hrest hover
    | broken hslips hbreaks => exact .broken_append hslips hbreaks
  strays := h.strays.bind fun rc => (leads_quitting rc).strays

/-- A session that begins astray is found out by its QUIT at the latest. -/
theorem Strays.quit_breaks {run : Client Bool} (h : Strays run) (hs : Astray s) {b : Bool}
    (hrun : Converses (run >>= quitting) s tr b s') : BreaksStep tr := by
  obtain ⟨rc, s₁, tr₁, tr₂, rfl, hfirst, hrest⟩ := Traced.bind (fun _ => rfl) hrun
  rcases h s tr₁ rc s₁ hs hfirst with hbreaks | hastray
  · exact hbreaks.append_left
  · exact ((hastray _).quitting_breaks hrest).append_right

theorem Conversation.Step.asked_le {o : ClientOp} {a : o.Answer} (h : s.Step s' o a) :
    s.asked.length ≤ s'.asked.length := by
  have hreads : ∀ {read : Stream → Option Bytes × Stream} {part : Option Bytes}
      {s₁ : Conversation}, s.Reads read part s₁ → s.asked.length ≤ s₁.asked.length := by
    intro read part s₁ hreads
    cases hreads with
    | taken => exact Nat.le_refl _
    | lost => exact Nat.le_refl _
  cases o with
  | send line =>
    cases a with
    | false =>
      obtain rfl : s' = s.saying line := h
      exact Nat.le_refl _
    | true =>
      have hanswers : (s.saying line).Answers line s' := h
      cases hanswers with
      | reply => exact Nat.le_succ _
      | silence => exact Nat.le_refl _
      | gone => exact Nat.le_refl _
  | readLine =>
    obtain ⟨s₁, hread, rfl⟩ := h
    refine Nat.le_trans (hreads hread) (Nat.le_of_eq ?_)
    rcases a with _ | _ | ⟨b, bs⟩ <;> rfl
  | readBanner | readExact => exact hreads h
  | write part =>
    obtain ⟨-, rfl⟩ : _ ∧ s' = s := h
    exact Nat.le_refl _
  | _ =>
    obtain rfl : s' = s := h
    exact Nat.le_refl _

theorem asked_le {p : Client α} {a : α} (h : Converses p s tr a s') :
    s.asked.length ≤ s'.asked.length ∧ ∀ c ∈ tr, c.state.asked.length ≤ s'.asked.length := by
  induction h with
  | ret a henv =>
    subst henv
    exact ⟨Nat.le_refl _, nofun⟩
  | op henv hstep _ ih =>
    subst henv
    have hle := (Conversation.Step.asked_le hstep).trans ih.1
    refine ⟨hle, fun c hc => ?_⟩
    rcases List.mem_cons.mp hc with rfl | hc
    · exact hle
    · exact ih.2 c hc

theorem Overruns.asked_pos {c : ClientCall} (h : Overruns c) : 0 < c.state.asked.length := by
  apply List.length_pos_of_ne_nil
  intro hnil
  apply h.2.1
  unfold Conversation.surplus
  rw [hnil]

theorem Ending.stays_iff {p : Client α} {a : α} (h : Ending False tr s')
    (hrun : Converses p s tr a s') : StaysInStep tr s' ↔ ∀ c ∈ tr, ¬ Slips c := by
  cases h with
  | fine hstep hsafe hs => exact iff_of_true ⟨hstep, .inr hs.unread⟩ hsafe
  | behind hfalse => exact hfalse.elim
  | astray hover hastray =>
    obtain ⟨c, hc, hoverruns⟩ := hover
    refine iff_of_false (fun hstays => ?_) fun hsafe => hsafe c hc hoverruns.slips
    rcases hstays.complete with hnone | hnone
    · have hle := (asked_le hrun).2 c hc
      rw [hnone] at hle
      exact absurd hoverruns.asked_pos (Nat.not_lt.mpr hle)
    · exact (hastray []).unread hnone
  | broken hslips hbreaks =>
    obtain ⟨c, hc, hslip⟩ := hslips
    exact iff_of_false (fun hstays => hbreaks.not_in_step hstays.reads)
      fun hsafe => hsafe c hc hslip

/-- The read of the greeting leaves nothing unread, or is where the client slips. -/
theorem Conversation.Begins.greeted {banner : Option Bytes} (h : s.Begins)
    (hstep : s.Step s' .readBanner banner) :
    (Synced s' ∧ ¬ Slips ⟨.readBanner, s, banner⟩ ∨ Astray s' ∧ Slips ⟨.readBanner, s, banner⟩) ∧
      s'.asked = [] := by
  obtain ⟨hclean, -, hasked, hheard⟩ := h
  have heven : s.heard.length = s.asked.length := by
    rw [hasked, hheard]
    rfl
  have hslips : Slips ⟨.readBanner, s, banner⟩ ↔ Overgreets ⟨.readBanner, s, banner⟩ := by
    refine ⟨?_, fun hover => .inr (.inr (.inr hover))⟩
    rintro (hgives | hzero | hover | hgreeted)
    · exact hgives.1.elim
    · exact False.elim hzero
    · exact absurd rfl hover.1
    · exact hgreeted
  rw [hslips]
  have hreads : s.Reads (readLine bufferSize) banner s' := hstep
  cases hreads with
  | lost => exact ⟨.inl ⟨synced_lost s, id⟩, hasked⟩
  | taken =>
    refine ⟨?_, hasked⟩
    obtain ⟨es', hread, hcut, hclean'⟩ := readLine_takes hclean
    rw [hread]
    dsimp only
    by_cases hmore : bytesOf es' = []
    · rw [hmore, List.append_nil] at hcut
      exact .inl ⟨⟨hclean', hmore, .inl heven⟩, fun hne => hne hcut⟩
    · refine .inr ⟨astray_of_even heven hmore, fun heq => ?_⟩
      rw [← show s.unread = takeLine (bufferSize - 1) (bytesOf s.incoming) from heq] at hcut
      exact hmore (List.append_right_eq_self.mp hcut.symm)

end

/-! A server that answers at once, and a client whose files are all the same and can be read and
written. -/

def Conversation.perform (file : Bytes) (s : Conversation) : (o : ClientOp) →
    o.Answer × Conversation
  | .connect | .write _ | .create _ | .put _ => (true, s)
  | .stat _ => (some file.length, s)
  | .openFile _ => (some ⟨file, false⟩, s)
  | .nanosleep | .close => ((), s)
  | .send line => (true, match s.replies with
    | [] => s.saying line
    | [] :: rs => { s.saying line with replies := rs }
    | (b :: bs) :: rs =>
      { s.saying line with
        incoming := s.incoming ++ [.chunk b bs], replies := rs
        asked := (line, b :: bs) :: s.asked })
  | .readBanner =>
    let (line, incoming) := readLine bufferSize s.incoming
    (line, { s with incoming })
  | .readLine =>
    let (line, incoming) := readLine bufferSize s.incoming
    (line, Conversation.hears { s with incoming } line)
  | .readExact size =>
    let (part, incoming) := readExact size s.incoming
    (part, { s with incoming })

theorem Conversation.perform_step (file : Bytes) (s : Conversation) (o : ClientOp) :
    s.Step (s.perform file o).2 o (s.perform file o).1 := by
  cases o with
  | send line =>
    change (s.saying line).Answers line (s.perform file (.send line)).2
    unfold Conversation.perform
    rcases hreplies : s.replies with _ | ⟨_ | ⟨b, bs⟩, rs⟩
    · exact .gone hreplies
    · exact .silence hreplies
    · exact .reply hreplies (List.cons_ne_nil _ _) (by simp [Clean]) (List.append_nil _)
  | readLine => exact ⟨_, .taken, rfl⟩
  | readBanner => exact .taken
  | readExact size => exact .taken
  | write part => exact ⟨fun _ => rfl, rfl⟩
  | _ => rfl

def played {α : Type} (file : Bytes) :
    Client α → Conversation → List ClientCall × α × Conversation
  | .ret a, s => ([], a, s)
  | .op o k, s =>
    let (answer, s₁) := s.perform file o
    let (tr, result) := played file (k answer) s₁
    (⟨o, s, answer⟩ :: tr, result)

theorem played_converses {α : Type} (file : Bytes) (p : Client α) (s : Conversation) :
    Converses p s (played file p s).1 (played file p s).2.1 (played file p s).2.2 := by
  induction p generalizing s with
  | ret a => exact .ret a rfl
  | op o k ih => exact .op rfl (s.perform_step file o) (ih _ _)

def measured : Conversation where
  incoming := unread (lit "OK connected\n") []
  replies := [lit "JOB 7\n", lit "STATUS 7 DONE\n",
    lit "RESULT 7 state=DONE msg=CAPACITY 24 BYTES width=8 height=8 channels=3\n", lit "BYE\n"]

/-- The image cannot be encoded, and the server answers all that it is asked. -/
def refusing : Conversation where
  incoming := unread (lit "OK connected\n") []
  replies := [lit "JOB 7\n", lit "STATUS 7 FAILED\n", lit "ERR job not found\n",
    lit "RESULT 7 state=FAILED msg=path build failed\n", lit "BYE\n"]

end StegaPng
