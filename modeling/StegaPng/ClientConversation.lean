import StegaPng.ClientLines
import StegaPng.ClientProgram
import StegaPng.Turns

/-! The client's side of a connection: which reply is read after which command. -/

namespace StegaPng

open Interleaving

/-- What a `read_line` with room for `room` bytes takes of the bytes that come. -/
def takeLine : Nat → Bytes → Bytes
  | 0, _ => []
  | _ + 1, [] => []
  | room + 1, b :: bs => if b = newline then [b] else b :: takeLine room bs

/-- What has arrived and is not read, what the server will send after each of the next commands
until it hangs up, and, the last ones first, the commands that were sent, those that were
answered with what was sent, and the lines that were read. -/
structure Conversation where
  incoming : Stream
  replies : List Bytes
  sent : List Bytes := []
  asked : List (Bytes × Bytes) := []
  heard : List Bytes := []

def Conversation.unread (s : Conversation) : Bytes := bytesOf s.incoming

/-- A command arrives: what the server sends next comes in, in whatever pieces. -/
inductive Conversation.Answers (s : Conversation) (line : Bytes) : Conversation → Prop
  | reply {r : Bytes} {rs : List Bytes} {es : Stream} (hnext : s.replies = r :: rs) (hsome : r ≠ [])
      (hclean : Clean es) (hbytes : bytesOf es = r) :
      Answers s line { s with
        incoming := s.incoming ++ es, replies := rs, asked := (line, r) :: s.asked }
  | silence {rs : List Bytes} (hnext : s.replies = [] :: rs) :
      Answers s line { s with replies := rs }
  | gone (hnone : s.replies = []) : Answers s line s

/-- A call that reads: it takes what there is, or the connection is lost. -/
inductive Conversation.Reads (s : Conversation) (read : Stream → Option Bytes × Stream) :
    Option Bytes → Conversation → Prop
  | taken : Reads s read (read s.incoming).1 { s with incoming := (read s.incoming).2 }
  | lost : Reads s read none { s with incoming := [], replies := [] }

def Conversation.saying (s : Conversation) (line : Bytes) : Conversation :=
  { s with sent := line :: s.sent }

def Conversation.hears (s : Conversation) : Option Bytes → Conversation
  | some (b :: bs) => { s with heard := (b :: bs) :: s.heard }
  | _ => s

/-- What a call of the client does to the conversation. Calls on local files may end in any way. -/
def Conversation.Step (s s' : Conversation) : (o : ClientOp) → o.Answer → Prop
  | .send line, sent => if sent then (s.saying line).Answers line s' else s' = s.saying line
  | .readBanner, line => s.Reads (StegaPng.readLine bufferSize) line s'
  | .readLine, line =>
    ∃ s₁, s.Reads (StegaPng.readLine bufferSize) line s₁ ∧ s' = s₁.hears line
  | .readExact size, part => s.Reads (StegaPng.readExact size) part s'
  | .write part, written => (part = [] → written = true) ∧ s' = s
  | _, _ => s' = s

def conversing : Machine ClientOp ClientOp.Answer Unit Conversation where
  step _ o s a s' := s.Step s' o a
  turn _ s := s

abbrev ClientCall := Performed ClientOp ClientOp.Answer Conversation

/-- A run of a part of the client, with its calls. -/
abbrev Converses {α : Type} (p : Client α) (s : Conversation) (tr : List ClientCall) (a : α)
    (s' : Conversation) : Prop :=
  Traced conversing Eq () p s tr a s'

/-- The server has greeted the client, with whatever it sends, or has hung up. -/
def Conversation.Begins (s : Conversation) : Prop :=
  Clean s.incoming ∧ s.sent = [] ∧ s.asked = [] ∧ s.heard = []

/-- What is unread is all that was sent in reply to the last command, and it comes as the `k`-th
to the `k`-th of the answered commands. -/
def Conversation.Due (s : Conversation) : Prop :=
  ∃ command rest, s.sent.head? = some command ∧ s.asked = (command, s.unread) :: rest ∧
    s.heard.length = rest.length

/-- Every line that is read is the one that is due, if the server has not hung up. -/
def ReadsInStep (tr : List ClientCall) : Prop :=
  ∀ c ∈ tr, c.op = .readLine → c.state.unread = [] ∨ c.state.Due

/-- The client stays in step, and leaves no reply unread. -/
structure StaysInStep (tr : List ClientCall) (s' : Conversation) : Prop where
  reads : ReadsInStep tr
  complete : s'.asked = [] ∨ s'.unread = []

/-- A line is read that is not due. -/
def BreaksStep (tr : List ClientCall) : Prop :=
  ∃ c ∈ tr, c.op = .readLine ∧ c.state.unread ≠ [] ∧ ¬ c.state.Due

/-! What puts the client out of step. -/

/-- The bytes that the first line of a reply announces to the command. -/
def announced (command line : Bytes) : Nat :=
  if lit "DOWNLOAD " <+: command then (parseDataSize line).toNat else 0

/-- What a reply says beyond its first line and the bytes that this announces. -/
def surplusOf (command r : Bytes) : Bytes :=
  let line := takeLine (bufferSize - 1) r
  (r.drop line.length).drop (announced command line)

/-- What the last reply says beyond what the client reads of it. -/
def Conversation.surplus (s : Conversation) : Bytes :=
  match s.asked with
  | [] => []
  | (command, r) :: _ => surplusOf command r

/-- A call that breaks an upload or the saving of a result off. -/
def ClientOp.Fails : (o : ClientOp) → o.Answer → Prop
  | .openFile _, none => True
  | .openFile _, some file => file.error = true
  | .write _, done | .create _, done | .put _, done => done = false
  | _, _ => False

/-- What a call takes of a reply. -/
def ClientOp.took : (o : ClientOp) → o.Answer → Bytes
  | .readLine, line => line.getD []
  | .readExact _, part => part.getD []
  | _, _ => []

/-- The client has read all that it reads of the reply, and the server has sent more. -/
def Overruns (c : ClientCall) : Prop :=
  c.op.took c.answer ≠ [] ∧ c.state.surplus ≠ [] ∧
    c.state.unread = c.op.took c.answer ++ c.state.surplus

/-- The client gives up with something unread. -/
def GivesUp (c : ClientCall) : Prop := c.op.Fails c.answer ∧ c.state.unread ≠ []

/-- The server answers the `RESULT 0` of the client. -/
def AnswersZero : ClientCall → Prop
  | ⟨.send line, s, true⟩ => line = lit "RESULT 0\n" ∧ s.replies.headD [] ≠ []
  | _ => False

/-- The server greets the client with more than is read of it. -/
def Overgreets : ClientCall → Prop
  | ⟨.readBanner, s, some banner⟩ => s.unread ≠ banner
  | _ => False

/-- Where the client falls out of step. -/
def Slips (c : ClientCall) : Prop := GivesUp c ∨ AnswersZero c ∨ Overruns c ∨ Overgreets c

instance : (o : ClientOp) → (a : o.Answer) → Decidable (o.Fails a)
  | .openFile _, none => .isTrue trivial
  | .openFile _, some file => inferInstanceAs (Decidable (file.error = true))
  | .write _, done | .create _, done | .put _, done => inferInstanceAs (Decidable (done = false))
  | .connect, _ | .readBanner, _ | .stat _, _ | .send _, _ | .readLine, _ | .readExact _, _
  | .nanosleep, _ | .close, _ => .isFalse id

instance : (c : ClientCall) → Decidable (AnswersZero c)
  | ⟨.send line, s, true⟩ =>
    inferInstanceAs (Decidable (line = lit "RESULT 0\n" ∧ s.replies.headD [] ≠ []))
  | ⟨.send _, _, false⟩ | ⟨.connect, _, _⟩ | ⟨.readBanner, _, _⟩ | ⟨.stat _, _, _⟩
  | ⟨.openFile _, _, _⟩ | ⟨.write _, _, _⟩ | ⟨.readLine, _, _⟩ | ⟨.readExact _, _, _⟩
  | ⟨.create _, _, _⟩ | ⟨.put _, _, _⟩ | ⟨.nanosleep, _, _⟩ | ⟨.close, _, _⟩ => .isFalse id

instance : (c : ClientCall) → Decidable (Overgreets c)
  | ⟨.readBanner, s, some banner⟩ => inferInstanceAs (Decidable (s.unread ≠ banner))
  | ⟨.readBanner, _, none⟩ | ⟨.connect, _, _⟩ | ⟨.stat _, _, _⟩ | ⟨.openFile _, _, _⟩
  | ⟨.write _, _, _⟩ | ⟨.send _, _, _⟩ | ⟨.readLine, _, _⟩ | ⟨.readExact _, _, _⟩
  | ⟨.create _, _, _⟩ | ⟨.put _, _, _⟩ | ⟨.nanosleep, _, _⟩ | ⟨.close, _, _⟩ => .isFalse id

instance (c : ClientCall) : Decidable (Slips c) :=
  inferInstanceAs (Decidable ((_ ∧ _) ∨ _ ∨ (_ ∧ _ ∧ _) ∨ _))

/-! The states of a conversation. -/

/-- Every reply is read. -/
structure Synced (s : Conversation) : Prop where
  clean : Clean s.incoming
  unread : s.unread = []
  even : s.heard.length = s.asked.length ∨ s.replies = []

/-- The line has been sent, and its reply is not read. -/
structure Awaiting (line : Bytes) (s : Conversation) : Prop where
  clean : Clean s.incoming
  last : s.sent.head? = some line
  unread : s.unread ≠ []
  due : ∃ rest, s.asked = (line, s.unread) :: rest ∧ s.heard.length = rest.length

/-- The first line of the reply has been read, and `n` bytes are still to come. -/
structure Fetching (n : Nat) (s : Conversation) : Prop where
  clean : Clean s.incoming
  even : s.heard.length = s.asked.length
  surplus : s.surplus = s.unread.drop n
  complete : n = 0 → s.unread = []

/-- Something is unread, and it is not the reply to the line. -/
structure Late (line : Bytes) (s : Conversation) : Prop where
  unread : s.unread ≠ []
  other : ∀ rest, s.asked = (line, s.unread) :: rest → s.heard.length ≠ rest.length

/-- What is unread is the reply to no line. -/
def Astray (s : Conversation) : Prop := ∀ line, Late line s

/-- How a part of the client ends that begins in step. -/
inductive Ending (failed : Prop) (tr : List ClientCall) (s' : Conversation) : Prop
  | fine (hstep : ReadsInStep tr) (hsafe : ∀ c ∈ tr, ¬ Slips c) (hs : Synced s')
  | behind (hfailed : failed) (hslips : ∃ c ∈ tr, Slips c) (hlate : Late (lit "QUIT\n") s')
  | astray (hover : ∃ c ∈ tr, Overruns c) (hastray : Astray s')
  | broken (hslips : ∃ c ∈ tr, Slips c) (hbreaks : BreaksStep tr)

/-- From the states in `P` on, the part of the client ends in step, or fails and leaves something
unread, or reads less than the server sends, or breaks step. -/
def Ends {α : Type} (P : Conversation → Prop) (p : Client α) (failed : α → Prop) : Prop :=
  ∀ s tr a s', P s → Converses p s tr a s' → Ending (failed a) tr s'

/-- What is astray stays so until a line is read. -/
def Strays {α : Type} (p : Client α) : Prop :=
  ∀ s tr a s', Astray s → Converses p s tr a s' → BreaksStep tr ∨ Astray s'

structure Leads {α : Type} (P : Conversation → Prop) (p : Client α) (failed : α → Prop) : Prop where
  ends : Ends P p failed
  strays : Strays p

theorem bytesOf_append (es es' : Stream) : bytesOf (es ++ es') = bytesOf es ++ bytesOf es' :=
  List.flatMap_append

section

variable {α β : Type} {s s' : Conversation} {tr tr' : List ClientCall} {F : α → Prop} {G : β → Prop}
  {P : Conversation → Prop} {line : Bytes} {n : Nat}

theorem Awaiting.late (h : Awaiting line s) {next : Bytes} (hne : line ≠ next) : Late next s := by
  refine ⟨h.unread, fun rest hasked => ?_⟩
  obtain ⟨rest', hasked', -⟩ := h.due
  rw [hasked] at hasked'
  cases hasked'
  exact absurd rfl hne

/-- What follows a reply that has been read is the reply to no line. -/
theorem astray_of_even (heven : s.heard.length = s.asked.length) (hunread : s.unread ≠ []) :
    Astray s := by
  intro line
  refine ⟨hunread, fun rest hasked => ?_⟩
  rw [heven, hasked, List.length_cons]
  omega

theorem Fetching.synced (h : Fetching 0 s) : Synced s := ⟨h.clean, h.complete rfl, .inl h.even⟩

theorem synced_lost (s : Conversation) : Synced { s with incoming := [], replies := [] } :=
  ⟨fun hmem => absurd hmem List.not_mem_nil, rfl, .inr rfl⟩

/-! Putting runs together. -/

theorem readsInStep_nil : ReadsInStep [] := nofun

theorem ReadsInStep.append (h : ReadsInStep tr) (h' : ReadsInStep tr') :
    ReadsInStep (tr ++ tr') := by
  intro c hc
  exact (List.mem_append.mp hc).elim (h c) (h' c)

theorem readsInStep_single {o : ClientOp} {a : o.Answer} (hread : o ≠ .readLine) :
    ReadsInStep [⟨o, s, a⟩] := by
  intro c hc hop
  rw [List.mem_singleton.mp hc] at hop
  exact absurd hop hread

theorem BreaksStep.not_in_step (h : BreaksStep tr) : ¬ ReadsInStep tr := by
  obtain ⟨c, hc, hop, hunread, hdue⟩ := h
  intro hreads
  exact (hreads c hc hop).elim hunread hdue

theorem BreaksStep.append_left (h : BreaksStep tr) : BreaksStep (tr ++ tr') := by
  obtain ⟨c, hc, hbreak⟩ := h
  exact ⟨c, List.mem_append_left _ hc, hbreak⟩

theorem BreaksStep.append_right (h : BreaksStep tr') : BreaksStep (tr ++ tr') := by
  obtain ⟨c, hc, hbreak⟩ := h
  exact ⟨c, List.mem_append_right _ hc, hbreak⟩

theorem BreaksStep.cons {c : ClientCall} (h : BreaksStep tr) : BreaksStep (c :: tr) := by
  obtain ⟨c', hc, hbreak⟩ := h
  exact ⟨c', List.mem_cons_of_mem _ hc, hbreak⟩

theorem Overruns.slips {c : ClientCall} (h : Overruns c) : Slips c := .inr (.inr (.inl h))

theorem Ending.broken_append {q : Prop} (hslips : ∃ c ∈ tr, Slips c) (hbreaks : BreaksStep tr) :
    Ending q (tr ++ tr') s' := by
  obtain ⟨c, hc, hslip⟩ := hslips
  exact .broken ⟨c, List.mem_append_left _ hc, hslip⟩ hbreaks.append_left

theorem Ending.after {p : Prop} (hstep : ReadsInStep tr) (hsafe : ∀ c ∈ tr, ¬ Slips c)
    (h : Ending p tr' s') : Ending p (tr ++ tr') s' := by
  have later : ∀ {Q : ClientCall → Prop}, (∃ c ∈ tr', Q c) → ∃ c ∈ tr ++ tr', Q c := by
    rintro Q ⟨c, hc, hQ⟩
    exact ⟨c, List.mem_append_right _ hc, hQ⟩
  cases h with
  | fine hstep' hsafe' hs =>
    refine .fine (hstep.append hstep') (fun c hc => ?_) hs
    exact (List.mem_append.mp hc).elim (hsafe c) (hsafe' c)
  | behind hfailed hslips hlate => exact .behind hfailed (later hslips) hlate
  | astray hover hastray => exact .astray (later hover) hastray
  | broken hslips hbreaks => exact .broken (later hslips) hbreaks.append_right

theorem Ending.cons {p : Prop} {c : ClientCall} (hstep : ReadsInStep [c]) (hsafe : ¬ Slips c)
    (h : Ending p tr s') : Ending p (c :: tr) s' := by
  have hsafe' : ∀ d ∈ [c], ¬ Slips d := by
    intro d hd
    rwa [List.mem_singleton.mp hd]
  exact h.after hstep hsafe'

/-- A part of the client that begins astray, once it has got there. -/
theorem Strays.ending {p : Client α} (h : Strays p) {q : Prop} {a : α} (hs : Astray s)
    (hrun : Converses p s tr' a s') (hover : ∃ c ∈ tr, Overruns c) : Ending q (tr ++ tr') s' := by
  obtain ⟨c, hc, hoverruns⟩ := hover
  have hmem : c ∈ tr ++ tr' := List.mem_append_left _ hc
  rcases h s tr' a s' hs hrun with hbreaks | hastray
  · exact .broken ⟨c, hmem, hoverruns.slips⟩ hbreaks.append_right
  · exact .astray ⟨c, hmem, hoverruns⟩ hastray

theorem strays_ret (a : α) : Strays (.ret a) := by
  intro s tr b s' hs hrun
  obtain ⟨-, -, rfl⟩ := Traced.ret_iff.mp hrun
  exact .inr hs

theorem leads_ret (a : α) : Leads Synced (.ret a) F where
  ends := by
    intro s tr b s' hs hrun
    obtain ⟨rfl, -, rfl⟩ := Traced.ret_iff.mp hrun
    exact .fine readsInStep_nil (fun _ hc => absurd hc List.not_mem_nil) hs
  strays := strays_ret a

theorem Strays.bind {p : Client α} {k : α → Client β} (hp : Strays p) (hk : ∀ a, Strays (k a)) :
    Strays (p >>= k) := by
  intro s tr b s' hs hrun
  obtain ⟨a, s₁, tr₁, tr₂, rfl, hfirst, hrest⟩ := Traced.bind (fun _ => rfl) hrun
  rcases hp s tr₁ a s₁ hs hfirst with hbreaks | hastray
  · exact .inl hbreaks.append_left
  · exact (hk a s₁ tr₂ b s' hastray hrest).imp BreaksStep.append_right id

theorem Leads.bind {p : Client α} {k : α → Client β} (hp : Leads P p F)
    (hfail : ∀ a, F a → ∃ b, k a = .ret b ∧ G b) (hk : ∀ a, Leads Synced (k a) G) :
    Leads P (p >>= k) G where
  ends := by
    intro s tr b s' hs hrun
    obtain ⟨a, s₁, tr₁, tr₂, rfl, hfirst, hrest⟩ := Traced.bind (fun _ => rfl) hrun
    cases hp.ends s tr₁ a s₁ hs hfirst with
    | fine hstep hsafe hs₁ => exact ((hk a).ends s₁ tr₂ b s' hs₁ hrest).after hstep hsafe
    | behind hfailed hslips hlate =>
      obtain ⟨b', hret, hG⟩ := hfail a hfailed
      rw [hret] at hrest
      obtain ⟨rfl, rfl, rfl⟩ := Traced.ret_iff.mp hrest
      rw [List.append_nil]
      exact .behind hG hslips hlate
    | astray hover hastray => exact (hk a).strays.ending hastray hrest hover
    | broken hslips hbreaks => exact .broken_append hslips hbreaks
  strays := hp.strays.bind fun a => (hk a).strays

/-- One call: it is safe and what follows ends well, or it is the one that leaves something
behind. -/
theorem ends_act {o : ClientOp} {k : o.Answer → Client β} (h : ∀ s a s₁, P s → s.Step s₁ o a →
    ReadsInStep [⟨o, s, a⟩] ∧ (¬ Slips ⟨o, s, a⟩ ∧ Ends (fun s => s = s₁) (k a) G ∨
      Overruns ⟨o, s, a⟩ ∧ Astray s₁ ∧ Strays (k a))) : Ends P (act o >>= k) G := by
  intro s tr b s' hs hrun
  obtain ⟨s₁, a, s₂, rest, rfl, rfl, hstep, hrest⟩ := Traced.op_iff.mp hrun
  rcases h s a s₂ hs hstep with ⟨hin, ⟨hsafe, hk⟩ | ⟨hover, hastray, hk⟩⟩
  · exact (hk s₂ rest b s' rfl hrest).cons hin hsafe
  · have hsome : ∃ c ∈ [(⟨o, s, a⟩ : ClientCall)], Overruns c :=
      ⟨_, List.mem_singleton_self _, hover⟩
    exact hk.ending hastray hrest hsome

theorem Ends.at {p : Client α} (h : Ends P p F) (hs : P s) : Ends (fun s' => s' = s) p F := by
  rintro _ tr a s' rfl hrun
  exact h _ tr a s' hs hrun

/-! One call. -/

/-- The line has been sent, or could not be. -/
def Sent (line : Bytes) (s : Conversation) : Prop := Synced s ∨ Awaiting line s

def ClientOp.reads : ClientOp → Bool
  | .readBanner | .readLine | .readExact _ => true
  | _ => false

/-- Calls that concern neither the connection nor the files that are sent or saved. -/
def ClientOp.quiet : ClientOp → Bool
  | .connect | .stat _ | .nanosleep | .close => true
  | _ => false

theorem slips_iff {o : ClientOp} {a : o.Answer} (hline : o ≠ .send (lit "RESULT 0\n"))
    (hread : o.reads = false) : Slips ⟨o, s, a⟩ ↔ o.Fails a ∧ s.unread ≠ [] := by
  apply or_iff_left
  rintro (hzero | hover | hgreeted)
  · cases o with
    | send line =>
      cases a with
      | true => exact hline (congrArg ClientOp.send hzero.1)
      | false => exact hzero
    | _ => exact hzero
  · cases o <;> first | exact hover.1 rfl | cases hread
  · cases o <;> first | exact hgreeted | cases hread

theorem slips_line_iff {a : Option Bytes} :
    Slips ⟨.readLine, s, a⟩ ↔ Overruns ⟨.readLine, s, a⟩ := by
  refine ⟨?_, Overruns.slips⟩
  rintro (hgives | hzero | hover | hgreeted)
  · exact hgives.1.elim
  · exact False.elim hzero
  · exact hover
  · exact False.elim hgreeted

theorem slips_exact_iff {size : Nat} {a : Option Bytes} :
    Slips ⟨.readExact size, s, a⟩ ↔ Overruns ⟨.readExact size, s, a⟩ := by
  refine ⟨?_, Overruns.slips⟩
  rintro (hgives | hzero | hover | hgreeted)
  · exact hgives.1.elim
  · exact False.elim hzero
  · exact hover
  · exact False.elim hgreeted

/-- A call that does not read leaves what is astray as it is. -/
theorem Astray.step {o : ClientOp} {a : o.Answer} (hs : Astray s) (hread : o.reads = false)
    (hstep : s.Step s' o a) : Astray s' := by
  cases o with
  | send line =>
    have hsaying : Astray (s.saying line) := fun next => ⟨(hs next).unread, (hs next).other⟩
    cases a with
    | false =>
      obtain rfl : s' = s.saying line := hstep
      exact hsaying
    | true =>
      have hanswers : (s.saying line).Answers line s' := hstep
      cases hanswers with
      | gone => exact hsaying
      | silence => exact fun next => ⟨(hs next).unread, (hs next).other⟩
      | @reply r rs es hnext hsome hclean hbytes =>
        have hunread : bytesOf (s.incoming ++ es) = s.unread ++ r := by
          rw [bytesOf_append, hbytes]
          rfl
        intro next
        refine ⟨?_, fun rest hasked => ?_⟩
        · change bytesOf (s.incoming ++ es) ≠ []
          rw [hunread]
          exact List.append_ne_nil_of_right_ne_nil _ hsome
        · obtain ⟨hhead, -⟩ := List.cons.inj hasked
          have hwhole : r = bytesOf (s.incoming ++ es) := congrArg Prod.snd hhead
          rw [hunread] at hwhole
          exact absurd (List.append_left_eq_self.mp hwhole.symm) (hs next).unread
  | readBanner | readLine | readExact => cases hread
  | write part =>
    obtain ⟨-, rfl⟩ : _ ∧ s' = s := hstep
    exact hs
  | _ =>
    obtain rfl : s' = s := hstep
    exact hs

theorem strays_act {o : ClientOp} (hread : o.reads = false) {k : o.Answer → Client β}
    (hk : ∀ a, Strays (k a)) : Strays (act o >>= k) := by
  intro s tr b s' hs hrun
  obtain ⟨s₁, a, s₂, rest, rfl, rfl, hstep, hrest⟩ := Traced.op_iff.mp hrun
  exact (hk a s₂ rest b s' (hs.step hread hstep) hrest).imp BreaksStep.cons id

theorem Astray.not_due (h : Astray s) : ¬ s.Due := by
  rintro ⟨command, rest, -, hasked, heven⟩
  exact (h command).other rest hasked heven

theorem strays_line {k : Option Bytes → Client β} : Strays (act .readLine >>= k) := by
  intro s tr b s' hs hrun
  obtain ⟨s₁, a, s₂, rest, rfl, rfl, -, -⟩ := Traced.op_iff.mp hrun
  exact .inl ⟨_, List.mem_cons_self, rfl, (hs []).unread, hs.not_due⟩

theorem leads_quiet {o : ClientOp} (ho : o.quiet = true) {k : o.Answer → Client β}
    (hk : ∀ a, Leads P (k a) G) : Leads P (act o >>= k) G := by
  have hread : o.reads = false := by
    cases o <;> first | rfl | cases ho
  refine ⟨ends_act fun s a s₁ hs hstep => ?_, strays_act hread fun a => (hk a).strays⟩
  have hin : ReadsInStep [⟨o, s, a⟩] := by
    apply readsInStep_single
    rintro rfl
    cases ho
  have hsafe : ¬ Slips ⟨o, s, a⟩ := by
    rw [slips_iff (by rintro rfl; cases ho) hread]
    cases o <;> first | exact fun hfails => hfails.1 | cases ho
  obtain rfl : s₁ = s := by
    cases o <;> first | exact hstep | cases ho
  exact ⟨hin, .inl ⟨hsafe, (hk a).ends.at hs⟩⟩

theorem Synced.sends {sent : Bool} (hs : Synced s) (h : s.Step s' (.send line) sent) :
    Synced s' ∧ ¬ (sent = true ∧ s.replies.headD [] ≠ []) ∨
      Awaiting line s' ∧ sent = true ∧ s.replies.headD [] ≠ [] := by
  have hsaying : Synced (s.saying line) := ⟨hs.clean, hs.unread, hs.even⟩
  cases sent with
  | false =>
    obtain rfl : s' = s.saying line := h
    exact .inl ⟨hsaying, nofun⟩
  | true =>
    have hanswers : (s.saying line).Answers line s' := h
    have hreplies : (s.saying line).replies = s.replies := rfl
    cases hanswers with
    | gone hnone =>
      rw [hreplies] at hnone
      exact .inl ⟨hsaying, fun hsent => hsent.2 (by rw [hnone]; rfl)⟩
    | @silence rs hnext =>
      rw [hreplies] at hnext
      have heven : s.heard.length = s.asked.length := by
        refine hs.even.resolve_right ?_
        rw [hnext]
        exact List.cons_ne_nil _ _
      exact .inl ⟨⟨hs.clean, hs.unread, .inl heven⟩, fun hsent => hsent.2 (by rw [hnext]; rfl)⟩
    | @reply r rs es hnext hsome hclean hbytes =>
      rw [hreplies] at hnext
      have hunread : bytesOf (s.incoming ++ es) = r := by
        have hempty : bytesOf s.incoming = [] := hs.unread
        rw [bytesOf_append, hempty, hbytes]
        rfl
      have heven : s.heard.length = s.asked.length := by
        refine hs.even.resolve_right ?_
        rw [hnext]
        exact List.cons_ne_nil _ _
      refine .inr ⟨⟨?_, rfl, ?_, s.asked, ?_, heven⟩, rfl, by rw [hnext]; exact hsome⟩
      · exact fun hmem => (List.mem_append.mp hmem).elim hs.clean hclean
      · exact fun hnil => hsome (hunread.symm.trans hnil)
      · exact congrArg (fun r => (line, r) :: s.asked) hunread.symm

theorem leads_send (hline : line ≠ lit "RESULT 0\n") {k : Bool → Client β}
    (hfalse : Leads Synced (k false) G) (htrue : Leads (Sent line) (k true) G) :
    Leads Synced (act (.send line) >>= k) G where
  ends := by
    refine ends_act fun s sent s₁ hs hstep => ?_
    have hsafe : ¬ Slips ⟨.send line, s, sent⟩ := by
      rw [slips_iff (fun heq => hline (ClientOp.send.inj heq)) rfl]
      exact fun hfails => hfails.1
    refine ⟨readsInStep_single nofun, .inl ⟨hsafe, ?_⟩⟩
    rcases hs.sends hstep with ⟨hsynced, -⟩ | ⟨hawaiting, rfl, -⟩
    · cases sent with
      | false => exact hfalse.ends.at hsynced
      | true => exact htrue.ends.at (.inl hsynced)
    · exact htrue.ends.at (.inr hawaiting)
  strays := by
    refine strays_act rfl fun sent => ?_
    cases sent with
    | false => exact hfalse.strays
    | true => exact htrue.strays

/-! Uploads. -/

/-- The part only opens and sends files, and says whether all went well. -/
def Uploads (p : Client Bool) : Prop :=
  ∀ s tr done s', Converses p s tr done s' → s' = s ∧
    (∀ c ∈ tr, c.state = s ∧ ((∃ path, c.op = .openFile path) ∨ ∃ part, c.op = .write part)) ∧
    (done = true ↔ ∀ c ∈ tr, ¬ c.op.Fails c.answer)

/-- An upload goes on while the reply may have come already. -/
theorem leads_upload {u : Client Bool} (hu : Uploads u) (hquit : line ≠ lit "QUIT\n")
    {k : Bool → Client β} (hfalse : ∃ b, k false = .ret b ∧ G b)
    (htrue : Leads (Sent line) (k true) G) : Leads (Sent line) (u >>= k) G where
  ends := by
    intro s tr b s' hs hrun
    obtain ⟨done, s₁, tr₁, tr₂, rfl, hfirst, hrest⟩ := Traced.bind (fun _ => rfl) hrun
    obtain ⟨rfl, hops, hdone⟩ := hu s tr₁ done s₁ hfirst
    have hin : ReadsInStep tr₁ := by
      intro c hc hop
      rcases (hops c hc).2 with ⟨path, hpath⟩ | ⟨part, hpart⟩
      · rw [hpath] at hop
        cases hop
      · rw [hpart] at hop
        cases hop
    have hslips : ∀ c ∈ tr₁, Slips c ↔ c.op.Fails c.answer ∧ s₁.unread ≠ [] := by
      intro c hc
      obtain ⟨hstate, hop⟩ := hops c hc
      rw [← hstate]
      apply slips_iff
      · rcases hop with ⟨path, hpath⟩ | ⟨part, hpart⟩
        · rw [hpath]
          nofun
        · rw [hpart]
          nofun
      · rcases hop with ⟨path, hpath⟩ | ⟨part, hpart⟩
        · rw [hpath]
          rfl
        · rw [hpart]
          rfl
    cases done with
    | true =>
      refine (htrue.ends s₁ tr₂ b s' hs hrest).after hin fun c hc hslip => ?_
      exact hdone.mp rfl c hc ((hslips c hc).mp hslip).1
    | false =>
      obtain ⟨b', hret, hG⟩ := hfalse
      rw [hret] at hrest
      obtain ⟨rfl, rfl, rfl⟩ := Traced.ret_iff.mp hrest
      rw [List.append_nil]
      rcases hs with hsynced | hawaiting
      · exact .fine hin (fun c hc hslip => ((hslips c hc).mp hslip).2 hsynced.unread) hsynced
      · obtain ⟨c, hc, hfails⟩ : ∃ c ∈ tr₁, c.op.Fails c.answer := by
          by_contra hnone
          have hall := hdone.mpr fun c hc hfails => hnone ⟨c, hc, hfails⟩
          cases hall
        exact .behind hG ⟨c, hc, (hslips c hc).mpr ⟨hfails, hawaiting.unread⟩⟩
          (hawaiting.late hquit)
  strays := by
    intro s tr b s' hs hrun
    obtain ⟨done, s₁, tr₁, tr₂, rfl, hfirst, hrest⟩ := Traced.bind (fun _ => rfl) hrun
    obtain ⟨rfl, -, -⟩ := hu s tr₁ done s₁ hfirst
    cases done with
    | true => exact (htrue.strays s₁ tr₂ b s' hs hrest).imp BreaksStep.append_right id
    | false =>
      obtain ⟨b', hret, -⟩ := hfalse
      rw [hret] at hrest
      exact (strays_ret b' s₁ tr₂ b s' hs hrest).imp BreaksStep.append_right id

theorem uploads_ret : Uploads (.ret true) := by
  intro s tr done s' hrun
  obtain ⟨rfl, rfl, rfl⟩ := Traced.ret_iff.mp hrun
  exact ⟨rfl, nofun, iff_of_true rfl nofun⟩

theorem uploads_part (part : Bytes) : Uploads (act (.write part)) := by
  intro s tr done s' hrun
  obtain ⟨s₁, written, s₂, rest, rfl, rfl, ⟨-, rfl⟩, hrest⟩ := Traced.op_iff.mp hrun
  obtain ⟨rfl, rfl, rfl⟩ := Traced.ret_iff.mp hrest
  refine ⟨rfl, fun c hc => ?_, ?_⟩
  · rw [List.mem_singleton.mp hc]
    exact ⟨rfl, .inr ⟨part, rfl⟩⟩
  · simp [ClientOp.Fails]

theorem Uploads.bind {p k : Client Bool} (hp : Uploads p) (hk : Uploads k) :
    Uploads (p >>= fun done => if (!done) = true then pure false else k) := by
  intro s tr done s' hrun
  obtain ⟨first, s₁, tr₁, tr₂, rfl, hfirst, hrest⟩ := Traced.bind (fun _ => rfl) hrun
  obtain ⟨rfl, hops, hdone⟩ := hp s tr₁ first s₁ hfirst
  cases first with
  | false =>
    obtain ⟨rfl, rfl, rfl⟩ := Traced.ret_iff.mp hrest
    rw [List.append_nil]
    exact ⟨rfl, hops, hdone⟩
  | true =>
    obtain ⟨rfl, hops', hdone'⟩ := hk s₁ tr₂ done s' hrest
    refine ⟨rfl, fun c hc => (List.mem_append.mp hc).elim (hops c) (hops' c), ?_⟩
    rw [hdone', List.forall_mem_append]
    exact (and_iff_right (hdone.mp rfl)).symm

theorem uploads_chunks (rounds : Nat) (content : Bytes) :
    Uploads (sendChunks rounds content) := by
  induction rounds generalizing content with
  | zero => exact uploads_ret
  | succ rounds ih =>
    unfold sendChunks
    split
    · exact uploads_ret
    · exact (uploads_part _).bind (ih _)

theorem uploads_file (path : Bytes) : Uploads (sendFileBytes path) := by
  intro s tr done s' hrun
  obtain ⟨s₁, file, s₂, rest, rfl, rfl, rfl, hrest⟩ := Traced.op_iff.mp hrun
  cases file with
  | none =>
    obtain ⟨rfl, rfl, rfl⟩ := Traced.ret_iff.mp hrest
    refine ⟨rfl, fun c hc => ?_, iff_of_false nofun fun hall => ?_⟩
    · rw [List.mem_singleton.mp hc]
      exact ⟨rfl, .inl ⟨path, rfl⟩⟩
    · exact hall _ List.mem_cons_self trivial
  | some file =>
    change Converses (sendChunks file.content.length file.content >>= fun sent =>
      if (!sent) = true then pure false else pure (!file.error)) s₂ rest done s' at hrest
    obtain ⟨sent, s₃, tr₁, tr₂, rfl, hchunks, hlast⟩ := Traced.bind (fun _ => rfl) hrest
    obtain ⟨rfl, hops, hsent⟩ := uploads_chunks _ _ s₂ tr₁ sent s₃ hchunks
    have hend : tr₂ = [] ∧ done = (sent && !file.error) ∧ s' = s₃ := by
      cases sent <;> exact (Traced.ret_iff.mp hlast).imp id (And.imp id Eq.symm)
    obtain ⟨rfl, rfl, rfl⟩ := hend
    refine ⟨rfl, fun c hc => ?_, ?_⟩
    · rcases List.mem_cons.mp hc with rfl | hc
      · exact ⟨rfl, .inl ⟨path, rfl⟩⟩
      · exact hops c (by rwa [List.append_nil] at hc)
    · rw [List.append_nil, List.forall_mem_cons, ← hsent, Bool.and_eq_true, and_comm]
      refine and_congr_left' ?_
      simp [ClientOp.Fails]

/-! Replies. -/

theorem readLineLoop_takeLine (room : Nat) {es : Stream} (h : Clean es) :
    ∃ es', readLineLoop room es = (some (takeLine room (bytesOf es)), es') ∧
      bytesOf es = takeLine room (bytesOf es) ++ bytesOf es' ∧ Clean es' := by
  induction room generalizing es with
  | zero => exact ⟨es, rfl, rfl, h⟩
  | succ room ih =>
    rcases readRetry_clean Nat.zero_lt_one h with
      ⟨hnil, hread⟩ | ⟨b, bs, es', hread, hbytes, hlen, hclean⟩
    · rw [hnil]
      refine ⟨[], ?_, rfl, List.not_mem_nil⟩
      rw [readLineLoop, hread]
      rfl
    · obtain rfl : bs = [] := List.eq_nil_of_length_eq_zero (by omega)
      rw [hbytes, readLineLoop, hread]
      dsimp only [List.cons_append, List.nil_append, takeLine]
      by_cases hb : b = newline
      · rw [if_pos hb, if_pos hb]
        exact ⟨es', by rw [hb], rfl, hclean⟩
      · rw [if_neg hb, if_neg hb]
        obtain ⟨es'', hloop, hcut, hclean'⟩ := ih hclean
        refine ⟨es'', ?_, congrArg (b :: ·) hcut, hclean'⟩
        rw [hloop]
        rfl

theorem takeLine_ne_nil {room : Nat} {bytes : Bytes} (h : bytes ≠ []) :
    takeLine (room + 1) bytes ≠ [] := by
  obtain ⟨b, bs, rfl⟩ := List.exists_cons_of_ne_nil h
  unfold takeLine
  split
  · exact List.cons_ne_nil _ _
  · exact List.cons_ne_nil _ _

theorem readLine_takes {es : Stream} (h : Clean es) :
    ∃ es', readLine bufferSize es = (some (takeLine (bufferSize - 1) (bytesOf es)), es') ∧
      bytesOf es = takeLine (bufferSize - 1) (bytesOf es) ++ bytesOf es' ∧ Clean es' :=
  readLineLoop_takeLine _ h

/-- After a read of a part of a reply either `n` bytes of it are still to come or, where that is
none, it was the last part, and the server has sent more. -/
theorem overruns_or_fetching {c : ClientCall} (hclean : Clean s'.incoming)
    (heven : s'.heard.length = s'.asked.length) (hasked : s'.asked = c.state.asked)
    (hsurplus : s'.surplus = s'.unread.drop n)
    (hread : c.state.unread = c.op.took c.answer ++ s'.unread) (hsome : c.op.took c.answer ≠ []) :
    n = 0 ∧ Astray s' ∧ Overruns c ∨ ¬ Overruns c ∧ Fetching n s' := by
  have hsame : s'.surplus = c.state.surplus := by
    unfold Conversation.surplus
    rw [hasked]
  by_cases hover : n = 0 ∧ s'.unread ≠ []
  · obtain ⟨rfl, hunread⟩ := hover
    rw [List.drop_zero] at hsurplus
    refine .inl ⟨rfl, astray_of_even heven hunread, hsome, ?_, ?_⟩
    · rwa [← hsame, hsurplus]
    · rw [hread, ← hsame, hsurplus]
  · have hcomplete : n = 0 → s'.unread = [] := fun hn => not_not.mp fun hne => hover ⟨hn, hne⟩
    refine .inr ⟨?_, hclean, heven, hsurplus, hcomplete⟩
    rintro ⟨-, hmore, hunread⟩
    rw [hread, List.append_cancel_left_eq, ← hsame, hsurplus] at hunread
    rw [← hsame, hsurplus] at hmore
    have hlength := congrArg List.length hunread
    rw [List.length_drop] at hlength
    have hpos : s'.unread ≠ [] := by
      intro hnil
      exact hmore (by rw [hnil, List.drop_nil])
    have hlong := List.length_pos_of_ne_nil hpos
    exact hpos (hcomplete (by omega))

/-- What a read of a line makes of a reply that is due. -/
theorem Sent.reads {heard : Option Bytes} (hs : Sent line s) (h : s.Step s' .readLine heard) :
    (heard.getD [] = [] ∧ Synced s') ∨
      ∃ l, l ≠ [] ∧ heard = some l ∧
        (announced line l = 0 ∧ Astray s' ∧ Overruns ⟨.readLine, s, heard⟩ ∨
          ¬ Overruns ⟨.readLine, s, heard⟩ ∧ Fetching (announced line l) s') := by
  obtain ⟨s₁, hreads, rfl⟩ := h
  cases hreads with
  | lost => exact .inl ⟨rfl, synced_lost s⟩
  | taken =>
    rcases hs with hs | ⟨hclean, -, hunread, rest, hasked, heven⟩
    · obtain ⟨es', hread, hcut, hclean⟩ := readLine_takes hs.clean
      have hempty : bytesOf s.incoming = [] := hs.unread
      rw [hempty] at hread hcut
      rw [hread]
      exact .inl ⟨rfl, hclean, (List.append_eq_nil_iff.mp hcut.symm).2, hs.even⟩
    · obtain ⟨es', hread, hcut, hclean'⟩ := readLine_takes hclean
      obtain ⟨l, hl⟩ : ∃ l, takeLine (bufferSize - 1) (bytesOf s.incoming) = l := ⟨_, rfl⟩
      have hsome : l ≠ [] := by
        rw [← hl]
        exact takeLine_ne_nil hunread
      rw [hl] at hread hcut
      rw [hread]
      refine .inr ⟨l, hsome, rfl, ?_⟩
      obtain ⟨b, bs, hcons⟩ := List.exists_cons_of_ne_nil hsome
      have hheard : ({ s with incoming := es' } : Conversation).hears (some l) =
          { s with incoming := es', heard := l :: s.heard } := by
        rw [hcons]
        rfl
      dsimp only
      rw [hheard]
      refine overruns_or_fetching hclean' ?_ rfl ?_ hcut hsome
      · change s.heard.length + 1 = s.asked.length
        rw [hasked]
        exact congrArg (· + 1) heven
      · have hwhole : (s.unread.drop l.length) = bytesOf es' := by
          rw [show s.unread = l ++ bytesOf es' from hcut, List.drop_left]
        change Conversation.surplus { s with incoming := es', heard := l :: s.heard } = _
        simp only [Conversation.surplus, hasked, surplusOf]
        rw [show takeLine (bufferSize - 1) s.unread = l from hl, hwhole]
        rfl

theorem Sent.reads_in_step (hs : Sent line s) (heard : Option Bytes) :
    ReadsInStep [⟨.readLine, s, heard⟩] := by
  intro c hc _
  rw [List.mem_singleton.mp hc]
  refine hs.imp Synced.unread fun hawaiting => ?_
  obtain ⟨rest, hdue⟩ := hawaiting.due
  exact ⟨line, rest, hawaiting.last, hdue⟩

theorem not_slips_silent {heard : Option Bytes} (h : heard.getD [] = []) :
    ¬ Slips ⟨.readLine, s, heard⟩ := by
  rw [slips_line_iff]
  exact fun hover => hover.1 h

theorem expectLine_bind {k : Option Bytes → Client β} :
    expectLine >>= k = act .readLine >>= fun heard =>
      if heard.getD [] = [] then k none else k heard := by
  change (act .readLine >>= _) >>= k = _
  rw [Prog.bind_assoc]
  congr 1
  funext heard
  rcases heard with _ | _ | ⟨b, bs⟩ <;> rfl

theorem strays_expect {k : Option Bytes → Client β} : Strays (expectLine >>= k) := by
  rw [expectLine_bind]
  exact strays_line

theorem leads_expect (hline : ¬ lit "DOWNLOAD " <+: line) {k : Option Bytes → Client β}
    (hk : ∀ buf, Leads Synced (k buf) G) : Leads (Sent line) (expectLine >>= k) G := by
  refine ⟨?_, strays_expect⟩
  rw [expectLine_bind]
  refine ends_act fun s heard s₁ hs hstep => ⟨hs.reads_in_step heard, ?_⟩
  rcases hs.reads hstep with ⟨hempty, hsynced⟩ | ⟨l, hsome, rfl, hreply⟩
  · rw [if_pos hempty]
    exact .inl ⟨not_slips_silent hempty, (hk none).ends.at hsynced⟩
  · rw [Option.getD_some, if_neg hsome]
    have hnone : announced line l = 0 := if_neg hline
    rw [hnone] at hreply
    rcases hreply with ⟨-, hastray, hover⟩ | ⟨hsafe, hfetching⟩
    · exact .inr ⟨hover, hastray, (hk _).strays⟩
    · exact .inl ⟨slips_line_iff.not.mpr hsafe, (hk _).ends.at hfetching.synced⟩

/-! The replies of the server, whole, are no more than is read of them. -/

theorem takeLine_line {room : Nat} {l rest : Bytes} (hl : newline ∉ l) (hfits : l.length < room) :
    takeLine room (l ++ newline :: rest) = l ++ [newline] := by
  induction l generalizing room with
  | nil =>
    obtain ⟨room, rfl⟩ : ∃ r, room = r + 1 := ⟨room - 1, by omega⟩
    exact if_pos rfl
  | cons b l ih =>
    obtain ⟨room, rfl⟩ : ∃ r, room = r + 1 := ⟨room - 1, by omega⟩
    rw [List.mem_cons, not_or] at hl
    obtain ⟨hb, hl⟩ := hl
    rw [List.length_cons] at hfits
    rw [List.cons_append, takeLine, if_neg (Ne.symm hb), ih hl (by omega)]
    rfl

theorem surplusOf_line {command l rest : Bytes} (hl : newline ∉ l)
    (hfits : l.length + 1 < bufferSize) :
    surplusOf command (l ++ newline :: rest) = rest.drop (announced command (l ++ [newline])) := by
  have hline : takeLine (bufferSize - 1) (l ++ newline :: rest) = l ++ [newline] :=
    takeLine_line hl (by omega)
  have hrest : (l ++ newline :: rest).drop (l ++ [newline]).length = rest := by
    have hcut : l ++ newline :: rest = l ++ [newline] ++ rest := List.append_cons _ _ _
    rw [hcut, List.drop_left]
  simp only [surplusOf, hline, hrest]

theorem strtol_decimal {n : Nat} {rest : Bytes} (hn : n < 2 ^ 63) (hrest : Stops rest) :
    (strtol (decimal n ++ rest)).value = n := by
  obtain ⟨b, tail, hcons, hb⟩ := decimal_cons n
  have hnot := digit_ne hb
  obtain ⟨htake, hdrop⟩ := takeWhile_digits (fun c => isDigit_decimal (n := n)) hrest
  have hspace : (decimal n ++ rest).dropWhile isSpace = decimal n ++ rest := by
    rw [hcons, List.cons_append, List.dropWhile_cons_of_neg (by simp [hnot])]
  have hhead : (decimal n ++ rest).head? = some b := by
    rw [hcons]
    rfl
  have hlow : ¬ (n : Int) < -2 ^ 63 := by omega
  have hhigh : ¬ (n : Int) > 2 ^ 63 - 1 := by omega
  simp only [strtol, hspace, hhead, Option.some.injEq, hnot, or_self, if_false, htake, hdrop,
    decimal_ne_nil, digitsValue_decimal, hlow, hhigh]

theorem parseDataSize_data {n : Nat} (hn : n < 2 ^ 63) :
    parseDataSize (lit "DATA " ++ decimal n ++ [newline]) = n := by
  have hnul : 0 ∉ lit "DATA " ++ decimal n ++ [newline] := by
    simp only [List.mem_append, not_or]
    exact ⟨⟨by decide, nul_decimal n⟩, by decide⟩
  have hprefix : (lit "DATA ").isPrefixOf (lit "DATA " ++ (decimal n ++ [newline])) = true :=
    List.isPrefixOf_iff_prefix.mpr ⟨_, rfl⟩
  have hstops : Stops [newline] := by
    intro b hb
    obtain rfl := Option.some.inj hb
    rfl
  rw [parseDataSize, cstr_of_nul_free hnul, List.append_assoc, if_pos hprefix]
  exact strtol_decimal hn hstops

/-- A result that comes with its size is read to its last byte. -/
theorem surplusOf_data {command content : Bytes} (hcommand : lit "DOWNLOAD " <+: command)
    (hsize : content.length < 2 ^ 63) :
    surplusOf command (lit "DATA " ++ decimal content.length ++ newline :: content) = [] := by
  have hdigits := decimal_small (Nat.lt_trans hsize (by decide : 2 ^ 63 < 2 ^ 64))
  have hverb : (lit "DATA ").length = 5 := rfl
  have hroom : bufferSize = 4096 := rfl
  rw [surplusOf_line (newline_append (by decide) (newline_decimal _)), announced,
    if_pos hcommand, parseDataSize_data hsize, Int.toNat_natCast, List.drop_length]
  rw [List.length_append, hverb, hroom]
  omega

/-! Results. -/

theorem leads_fetch (hline : lit "DOWNLOAD " <+: line) {k : Option Bytes → Client β}
    (hnone : Leads Synced (k none) G)
    (hrefused : ∀ buf, parseDataSize buf < 0 → Leads Synced (k (some buf)) G)
    (hdata : ∀ buf (n : Nat), parseDataSize buf = n → Ends (Fetching n) (k (some buf)) G)
    (hempty : ∀ buf, parseDataSize buf = 0 → Strays (k (some buf))) :
    Leads (Sent line) (expectLine >>= k) G := by
  refine ⟨?_, strays_expect⟩
  rw [expectLine_bind]
  refine ends_act fun s heard s₁ hs hstep => ⟨hs.reads_in_step heard, ?_⟩
  rcases hs.reads hstep with ⟨hsilent, hsynced⟩ | ⟨l, hsome, rfl, hreply⟩
  · rw [if_pos hsilent]
    exact .inl ⟨not_slips_silent hsilent, hnone.ends.at hsynced⟩
  · rw [Option.getD_some, if_neg hsome]
    have hannounced : announced line l = (parseDataSize l).toNat := if_pos hline
    rw [hannounced] at hreply
    rw [slips_line_iff]
    cases hsize : parseDataSize l with
    | negSucc m =>
      have hneg : parseDataSize l < 0 := by
        rw [hsize]
        exact Int.negSucc_lt_zero m
      rw [hsize] at hreply
      rcases hreply with ⟨-, hastray, hover⟩ | ⟨hsafe, hfetching⟩
      · exact .inr ⟨hover, hastray, (hrefused l hneg).strays⟩
      · exact .inl ⟨hsafe, (hrefused l hneg).ends.at hfetching.synced⟩
    | ofNat n =>
      rw [hsize] at hreply
      rcases hreply with ⟨hzero, hastray, hover⟩ | ⟨hsafe, hfetching⟩
      · obtain rfl : n = 0 := hzero
        exact .inr ⟨hover, hastray, hempty l hsize⟩
      · exact .inl ⟨hsafe, (hdata l n hsize).at hfetching⟩

/-- The client's exit status after a part of it has failed. -/
abbrev Failed (done : Bool) : Prop := done = false

theorem ends_done (done : Bool) : Ends (Fetching 0) (.ret done) Failed := by
  intro s tr a s' hs hrun
  exact (leads_ret done).ends s tr a s' hs.synced hrun

/-- A result is saved in a local file. -/
theorem ends_store {o : ClientOp} (ho : (∃ path, o = .create path) ∨ ∃ part, o = .put part)
    {k : o.Answer → Client Bool} (hfail : ∀ a, o.Fails a → k a = .ret false)
    (hgo : ∀ a, ¬ o.Fails a → Ends (Fetching n) (k a) Failed) :
    Ends (Fetching n) (act o >>= k) Failed := by
  intro s tr b s' hs hrun
  obtain ⟨s₁, a, s₂, rest, rfl, rfl, hstep, hrest⟩ := Traced.op_iff.mp hrun
  obtain rfl : s₂ = s := by
    rcases ho with ⟨path, rfl⟩ | ⟨part, rfl⟩
    · exact hstep
    · exact hstep
  have hin : ReadsInStep [⟨o, s₂, a⟩] := by
    apply readsInStep_single
    rcases ho with ⟨path, rfl⟩ | ⟨part, rfl⟩
    · nofun
    · nofun
  have hslips : Slips ⟨o, s₂, a⟩ ↔ o.Fails a ∧ s₂.unread ≠ [] := by
    rcases ho with ⟨path, rfl⟩ | ⟨part, rfl⟩
    · exact slips_iff nofun rfl
    · exact slips_iff nofun rfl
  have hgoes : Converses (k a) s₂ rest b s' := hrest
  by_cases hfails : o.Fails a
  · rw [hfail a hfails] at hgoes
    obtain ⟨rfl, rfl, rfl⟩ := Traced.ret_iff.mp hgoes
    by_cases hunread : s₂.unread = []
    · refine .fine hin (fun c hc hslip => ?_) ⟨hs.clean, hunread, .inl hs.even⟩
      rw [List.mem_singleton.mp hc] at hslip
      exact (hslips.mp hslip).2 hunread
    · exact .behind rfl ⟨_, List.mem_cons_self, hslips.mpr ⟨hfails, hunread⟩⟩
        (astray_of_even hs.even hunread _)
  · exact (hgo a hfails s₂ rest b s' hs hgoes).cons hin fun hslip => hfails (hslips.mp hslip).1

theorem saveData_zero (rounds : Nat) : saveData rounds 0 = .ret true := by
  cases rounds <;> rfl

/-- Once nothing is to come, the client only writes what it has. -/
theorem strays_store {o : ClientOp} (hread : o.reads = false) {k : o.Answer → Client Bool}
    (hk : ∀ a, ∃ b, k a = .ret b) : Strays (act o >>= k) := by
  refine strays_act hread fun a => ?_
  obtain ⟨b, hret⟩ := hk a
  rw [hret]
  exact strays_ret b

/-- What is still to come after a part of the reply has been read. -/
theorem drop_after_part {m : Nat} (bytes : Bytes) (hm : m ≤ n) :
    (bytes.drop m).drop (n - (bytes.take m).length) = bytes.drop n := by
  rw [List.length_take, List.drop_drop]
  rcases Nat.le_total m bytes.length with hle | hle
  · congr 1
    omega
  · rw [List.drop_eq_nil_of_le (by omega), List.drop_eq_nil_of_le (by omega)]

theorem ends_save (rounds : Nat) (h : n ≤ rounds) :
    Ends (Fetching n) (saveData rounds n) Failed := by
  induction rounds generalizing n with
  | zero =>
    obtain rfl := Nat.le_zero.mp h
    exact ends_done true
  | succ rounds ih =>
    unfold saveData
    split
    · next hnone =>
      obtain rfl := hnone
      exact ends_done true
    · next hsome =>
      have hpos : 0 < min n chunkSize := lt_min (Nat.pos_of_ne_zero hsome) (by decide)
      refine ends_act fun s part s₁ hs hstep => ⟨readsInStep_single nofun, ?_⟩
      rw [slips_exact_iff]
      have hreads : s.Reads (readExact (min n chunkSize)) part s₁ := hstep
      cases hreads with
      | lost => exact .inl ⟨fun hover => hover.1 rfl, (leads_ret false).ends.at (synced_lost s)⟩
      | taken =>
        obtain ⟨es', hread, hrest, hclean⟩ := readExact_clean (min n chunkSize) hs.clean
        rw [hread]
        obtain ⟨p, hp⟩ : ∃ p, (bytesOf s.incoming).take (min n chunkSize) = p := ⟨_, rfl⟩
        have hcut : s.unread = p ++ bytesOf es' := by
          rw [hrest, ← hp]
          exact (List.take_append_drop _ _).symm
        rw [hp]
        dsimp only
        by_cases hend : p = []
        · have hunread : bytesOf es' = [] := by
            rcases List.take_eq_nil_iff.mp (hp.trans hend) with hzero | hnil
            · exact absurd hzero (Nat.ne_of_gt hpos)
            · rw [hrest, hnil, List.drop_nil]
          rw [if_pos hend]
          exact .inl ⟨fun hover => hover.1 hend,
            (leads_ret false).ends.at ⟨hclean, hunread, .inl hs.even⟩⟩
        · rw [if_neg hend]
          have hlong := List.length_pos_of_ne_nil hend
          have hsurplus : Conversation.surplus { s with incoming := es' } =
              (bytesOf es').drop (n - p.length) := by
            rw [hrest, ← hp, drop_after_part _ (Nat.min_le_left _ _)]
            exact hs.surplus
          have htaken : n - p.length = 0 ∧ Astray { s with incoming := es' } ∧
              Overruns ⟨.readExact (min n chunkSize), s, some p⟩ ∨
              ¬ Overruns ⟨.readExact (min n chunkSize), s, some p⟩ ∧
              Fetching (n - p.length) { s with incoming := es' } :=
            overruns_or_fetching hclean hs.even rfl hsurplus hcut hend
          rcases htaken with ⟨hzero, hastray, hover⟩ | ⟨hsafe, hfetching⟩
          · refine .inr ⟨hover, hastray, strays_store rfl fun done => ?_⟩
            rw [hzero, saveData_zero]
            cases done <;> exact ⟨_, rfl⟩
          · refine .inl ⟨hsafe, Ends.at ?_ hfetching⟩
            refine ends_store (.inr ⟨p, rfl⟩) ?_ fun done hdone => ?_
            · rintro done rfl
              rfl
            · obtain rfl : done = true := by simpa [ClientOp.Fails] using hdone
              exact ih (by omega)

theorem snprintf_64 {text : Bytes} {n : UInt64} (htext : text.length ≤ 9) :
    snprintf 64 (text ++ decimal n.toNat ++ lit "\n") = text ++ decimal n.toNat ++ lit "\n" := by
  refine snprintf_eq ?_
  have hdigits := decimal_small n.toNat_lt
  have hend : (lit "\n").length = 1 := rfl
  rw [List.length_append, List.length_append, hend]
  omega

/-! The first two bytes tell the commands apart. -/

theorem line_ne {text other : Bytes} (first : Bytes) (htext : text.take 2 = first)
    (hfirst : first ≠ other.take 2) : text ≠ other := by
  rintro rfl
  exact hfirst htext.symm

theorem not_download {text : Bytes} (first : Bytes) (htext : text.take 2 = first)
    (hfirst : first ≠ lit "DO") : ¬ lit "DOWNLOAD " <+: text := by
  rintro ⟨rest, rfl⟩
  exact hfirst htext.symm

theorem leads_download (job_id : UInt64) (out_path : Bytes) :
    Leads Synced (downloadResult job_id out_path) Failed := by
  unfold downloadResult
  rw [snprintf_64 (by decide)]
  have hline : lit "DOWNLOAD " <+: lit "DOWNLOAD " ++ decimal job_id.toNat ++ lit "\n" :=
    ⟨_, (List.append_assoc _ _ _).symm⟩
  refine leads_send (line_ne (lit "DO") rfl (by decide)) (leads_ret false) ?_
  refine leads_fetch hline (leads_ret false) (fun buf hrefused => ?_) (fun buf n hsize => ?_)
    fun buf hsize => ?_
  · dsimp only
    rw [if_pos hrefused]
    exact leads_ret false
  · dsimp only
    rw [hsize, if_neg (by omega)]
    refine ends_store (.inl ⟨out_path, rfl⟩) ?_ fun done hdone => ?_
    · rintro done rfl
      rfl
    · obtain rfl : done = true := by simpa [ClientOp.Fails] using hdone
      exact ends_save _ (Nat.le_refl _)
  · dsimp only
    rw [hsize, if_neg (lt_irrefl 0)]
    refine strays_store rfl fun done => ?_
    cases done <;> exact ⟨_, rfl⟩

/-- Polling stays in step, as long as each reply is one line, whatever that says. -/
theorem leads_wait (job_id : UInt64) (polls : Nat) :
    Leads Synced (waitForDone job_id polls) fun _ => False := by
  induction polls with
  | zero => exact leads_ret false
  | succ polls ih =>
    unfold waitForDone
    rw [snprintf_64 (by decide)]
    refine leads_send (line_ne (lit "ST") rfl (by decide)) (leads_ret false) ?_
    refine leads_expect (not_download (lit "ST") rfl (by decide)) fun buf => ?_
    cases buf with
    | none => exact leads_ret false
    | some buf =>
      dsimp only
      split
      · exact leads_ret true
      · split
        · exact leads_ret false
        · split
          · exact leads_ret false
          · exact leads_quiet rfl fun _ => ih

end

end StegaPng
