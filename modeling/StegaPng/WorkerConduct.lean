import StegaPng.Soundness

/-! What a worker knows of the job it holds while it processes it. -/

namespace StegaPng

open Interleaving

/-- A worker's knowledge: the record as last written, what it has seen since the last
change of state, the events reported, the job's result and upload files by suffix, and
a part of the history. -/
structure View where
  job : Nat
  record : Job
  clear : Bool
  unreadable : Bool
  events : List JobState
  out : Bytes → Option Bytes
  inp : Bytes → Option Bytes
  past : List Mark

/-- The knowledge is right. -/
structure Busy (cfg : RuntimeConfig) (i : Nat) (v : View) (s : Sys) : Prop where
  held : holding (.worker i) s.history = some v.job
  record : Follows v.record (s.world.job v.job)
  clear : sawClear (.worker i) s.history = v.clear
  unreadable : sawUnreadable (.worker i) s.history = v.unreadable
  events : eventsOf (v.job + 1) s.history = v.events
  out : ∀ suffix, s.world.files (resultPath cfg (v.job + 1) suffix) = v.out suffix
  inp : ∀ suffix, s.world.files (uploadPath cfg (v.job + 1) suffix) = v.inp suffix
  past : v.past <:+ s.history

/-- The pipeline's paths in the record are those of the job's own uploads. -/
structure View.Linked (cfg : RuntimeConfig) (v : View) : Prop where
  id : v.record.id = v.job + 1
  small : v.job + 1 < 2 ^ 64
  input : v.record.type = .encodeText ∨ v.record.type = .encodeFile ∨ v.record.type = .decode →
    v.record.input_path = uploadPath cfg (v.job + 1) (lit "png")
  text : v.record.type = .encodeText → v.record.stored_path = uploadPath cfg (v.job + 1) (lit "txt")
  data : v.record.type = .encodeFile → v.record.stored_path =
    uploadPath cfg (v.job + 1) (lit "data")
  payload : v.record.type = .text → newline ∉ v.record.payload

/-- Nothing but the history has moved on. -/
def View.Later (v v' : View) : Prop := ∃ past, v.past <:+ past ∧ v' = { v with past := past }

/-- The worker has at most written to its results. -/
def View.Wrote (v v' : View) : Prop := ∃ out past, v.past <:+ past ∧
    v' = { v with out := out, past := past }

/-- The job has reached a final state, and no event was sent. -/
def View.Ended (v v' : View) : Prop :=
  v'.job = v.job ∧ v'.record.id = v.record.id ∧ v'.record.state.Terminal ∧ v'.events = v.events

theorem View.Later.wrote {v v' : View} (h : v.Later v') : v.Wrote v' := by
  obtain ⟨past, hpast, rfl⟩ := h
  exact ⟨v.out, past, hpast, rfl⟩

theorem View.Wrote.trans {v v' v'' : View} (h : v.Wrote v') (h' : v'.Wrote v'') : v.Wrote v'' := by
  obtain ⟨out, past, hpast, rfl⟩ := h
  obtain ⟨out', past', hpast', rfl⟩ := h'
  exact ⟨out', past', hpast.trans hpast', rfl⟩

theorem View.Later.trans {v v' v'' : View} (h : v.Later v') (h' : v'.Later v'') : v.Later v'' := by
  obtain ⟨past, hpast, rfl⟩ := h
  obtain ⟨past', hpast', rfl⟩ := h'
  exact ⟨past', hpast.trans hpast', rfl⟩

section

variable {cfg : RuntimeConfig} {codec : PngCodec} {i : Nat} {v v' : View} {s s' : Sys} {α β : Type}

theorem Busy.rely (hbusy : Busy cfg i v s) (hrely : WorkerRely cfg (.worker i) s s') :
    Busy cfg i v s' where
  held := hrely.holding.trans hbusy.held
  record := hbusy.record.trans (hrely.record _ hbusy.held)
  clear := hrely.clear.trans hbusy.clear
  unreadable := hrely.unreadable.trans hbusy.unreadable
  events := (hrely.events _ hbusy.held).trans hbusy.events
  out suffix := (hrely.out _ suffix hbusy.held).trans (hbusy.out suffix)
  inp suffix := (hrely.inp _ suffix hbusy.held).trans (hbusy.inp suffix)
  past := hbusy.past.trans hrely.past

/-- From the knowledge `v` the program keeps to the conduct and ends with some
knowledge that `Q` allows. -/
def Ensures (cfg : RuntimeConfig) (codec : PngCodec) (i : Nat) (p : Task α) (v : View)
    (Q : α → View → Prop) : Prop :=
  ∀ s, Busy cfg i v s →
    (conduct cfg codec).wp (.worker i) p (fun a s => ∃ v', Q a v' ∧ Busy cfg i v' s) s

theorem ensures_pure {a : α} {Q : α → View → Prop} (h : Q a v) :
    Ensures cfg codec i (pure a) v Q :=
  fun _ hbusy => ⟨v, h, hbusy⟩

theorem ensures_bind {p : Task α} {f : α → Task β} {Q : α → View → Prop} {R : β → View → Prop}
    (hp : Ensures cfg codec i p v Q) (hf : ∀ a v', Q a v' → Ensures cfg codec i (f a) v' R) :
    Ensures cfg codec i (p >>= f) v R :=
  fun s hbusy => Discipline.wp_seq (hp s hbusy) fun a s' ⟨v', hq, hbusy'⟩ => hf a v' hq s' hbusy'

theorem ensures_mono {p : Task α} {Q R : α → View → Prop} (hp : Ensures cfg codec i p v Q)
    (h : ∀ a v', Q a v' → R a v') : Ensures cfg codec i p v R :=
  fun s hbusy => Discipline.wp_mono (fun a _ ⟨v', hq, hbusy'⟩ => ⟨v', h a v' hq,
    hbusy'⟩) (hp s hbusy)

theorem ensures_call {o : Op} {Q : Ans o → View → Prop}
    (hallowed : ∀ s, Inv cfg codec s → Busy cfg i v s → Allowed cfg codec (.worker i) o s)
    (hpost : ∀ s e a w' marks, Inv cfg codec s → Busy cfg i v s →
      exec codec e (.worker i) s.world o = some (a, w', marks) →
      ∃ v', Q a v' ∧ Busy cfg i v' ⟨w', marks ++ s.history⟩) :
    Ensures cfg codec i (call o) v Q := by
  intro s hbusy s₁ hrely hinv
  have hbusy₁ := hbusy.rely hrely
  refine ⟨hallowed s₁ hinv hbusy₁, ?_⟩
  rintro a ⟨w', h'⟩ ⟨e, marks, -, hexec, hhistory⟩ -
  obtain rfl : h' = marks ++ s₁.history := hhistory
  exact hpost s₁ e a w' marks hinv hbusy₁ hexec

/-! One rule for each operation a worker performs. -/

theorem Busy.unchanged (hbusy : Busy cfg i v s) {w' : World} (hjobs : w'.jobs = s.world.jobs)
    (hfiles : w'.files = s.world.files) : Busy cfg i { v with past := s.history }
      ⟨w', s.history⟩ where
  held := hbusy.held
  record := World.job_congr hjobs v.job ▸ hbusy.record
  clear := hbusy.clear
  unreadable := hbusy.unreadable
  events := hbusy.events
  out suffix := (congrFun hfiles _).trans (hbusy.out suffix)
  inp suffix := (congrFun hfiles _).trans (hbusy.inp suffix)
  past := List.suffix_rfl

/-- A fault that is not about opening a file for reading is only a part of the history. -/
theorem Busy.faulted (hbusy : Busy cfg i v s) (ok : Bool) (c : FileCall) (path : Bytes)
    (hc : c ≠ .fopenRb) {w' : World} (hjobs : w'.jobs = s.world.jobs) {out : Bytes → Option Bytes}
    (hout : ∀ suffix, w'.files (resultPath cfg (v.job + 1) suffix) = out suffix)
    (hinp : ∀ suffix, w'.files (uploadPath cfg (v.job + 1) suffix) =
      s.world.files (uploadPath cfg (v.job + 1) suffix)) :
    Busy cfg i { v with out := out, past := faultUnless ok (.worker i) c path ++ s.history }
      ⟨w', faultUnless ok (.worker i) c path ++ s.history⟩ := by
  have hsame : ∀ {β : Type} (f : List Mark → β), (∀ h, f (.fault (.worker i) c path :: h) = f h) →
      f (faultUnless ok (.worker i) c path ++ s.history) = f s.history := by
    intro β f hf
    cases ok with
    | true => rfl
    | false => exact hf _
  have hunreadable : ∀ h, sawUnreadable (.worker i) (.fault (.worker i) c path :: h) =
    sawUnreadable (.worker i) h := by
    intro h
    cases c <;> first | rfl | exact absurd rfl hc
  exact
    { held := (hsame (holding (.worker i)) fun _ => rfl).trans hbusy.held
      record := World.job_congr hjobs v.job ▸ hbusy.record
      clear := (hsame (sawClear (.worker i)) fun _ => rfl).trans hbusy.clear
      unreadable := (hsame (sawUnreadable (.worker i)) hunreadable).trans hbusy.unreadable
      events := (hsame (eventsOf (v.job + 1)) fun _ => rfl).trans hbusy.events
      out := hout
      inp := fun suffix => (hinp suffix).trans (hbusy.inp suffix)
      past := List.suffix_rfl }

theorem Busy.later (hbusy : Busy cfg i v s) {h' : List Mark} (hpast : s.history <:+ h') :
    v.Later { v with past := h' } :=
  ⟨h', hbusy.past.trans hpast, rfl⟩

theorem ensures_getJob {f : JobField} (hf : f ≠ .cancelRequested) :
    Ensures cfg codec i (call (.getJob v.job f)) v fun a v' =>
      v.Later v' ∧ ∃ b, a = f.read { v.record with cancel_requested := b } := by
  refine ensures_call (fun _ _ _ hflag => absurd hflag hf) fun s e a w' marks _ hbusy hexec => ?_
  simp only [exec, if_neg hf, Option.some.injEq, Prod.mk.injEq] at hexec
  obtain ⟨rfl, rfl, rfl⟩ := hexec
  exact ⟨_, ⟨hbusy.later List.suffix_rfl, _, congrArg f.read hbusy.record.1⟩,
    hbusy.unchanged rfl rfl⟩

theorem ensures_nanosleep : Ensures cfg codec i (call .nanosleep) v fun _ v' => v.Later v' := by
  refine ensures_call (fun _ _ _ => trivial) fun s e a w' marks _ hbusy hexec => ?_
  simp only [exec, Option.some.injEq, Prod.mk.injEq] at hexec
  obtain ⟨-, rfl, rfl⟩ := hexec
  exact ⟨_, hbusy.later List.suffix_rfl, hbusy.unchanged rfl rfl⟩

theorem ensures_heap : Ensures cfg codec i (call .heap) v fun _ v' => v.Later v' := by
  refine ensures_call (fun _ _ _ => trivial) fun s e a w' marks _ hbusy hexec => ?_
  simp only [exec, Option.some.injEq, Prod.mk.injEq] at hexec
  obtain ⟨rfl, rfl, rfl⟩ := hexec
  exact ⟨_, hbusy.later List.suffix_rfl, hbusy.unchanged rfl rfl⟩

theorem ensures_pngCreate : Ensures cfg codec i (call .pngCreate) v fun _ v' => v.Later v' := by
  refine ensures_call (fun _ _ _ => trivial) fun s e a w' marks _ hbusy hexec => ?_
  simp only [exec, Option.some.injEq, Prod.mk.injEq] at hexec
  obtain ⟨rfl, rfl, rfl⟩ := hexec
  exact ⟨_, hbusy.later List.suffix_rfl, hbusy.unchanged rfl rfl⟩

theorem ensures_pngMetadata {path : Bytes} :
    Ensures cfg codec i (call (.pngMetadata path)) v fun _ v' => v.Later v' := by
  refine ensures_call (fun _ _ _ => trivial) fun s e a w' marks _ hbusy hexec => ?_
  simp only [exec, Option.some.injEq, Prod.mk.injEq] at hexec
  obtain ⟨-, rfl, rfl⟩ := hexec
  exact ⟨_, hbusy.later (List.suffix_append _ _),
    hbusy.faulted e.ok .pngLoad path (by simp) rfl hbusy.out (fun _ => rfl)⟩

theorem LoadFault.status_ne_ok (fault : LoadFault) : fault.status ≠ .ok := by
  cases fault <;> exact nofun

theorem ensures_pngLoad {path : Bytes} :
    Ensures cfg codec i (call (.pngLoad path)) v fun a v' => v.Later v' ∧
      (∀ rc, a = .error rc → rc ≠ .ok) ∧
      ∀ suffix img, path = uploadPath cfg (v.job + 1) suffix → a = .ok img →
        ∃ png, v.inp suffix = some png ∧ codec.load png = .ok img := by
  refine ensures_call (fun _ _ _ => trivial) fun s e a w' marks _ hbusy hexec => ?_
  simp only [exec] at hexec
  split at hexec
  · next fault hfault =>
    simp only [Option.some.injEq, Prod.mk.injEq] at hexec
    obtain ⟨rfl, rfl, rfl⟩ := hexec
    refine ⟨_, ⟨hbusy.later (List.suffix_append _ _), ?_, by simp⟩,
      hbusy.faulted false .pngLoad path (by simp) rfl hbusy.out (fun _ => rfl)⟩
    rintro rc hrc
    rw [← Except.error.inj hrc]
    exact fault.status_ne_ok
  · simp only [Option.some.injEq, Prod.mk.injEq] at hexec
    obtain ⟨rfl, rfl, rfl⟩ := hexec
    refine ⟨_, ⟨hbusy.later List.suffix_rfl, ?_, ?_⟩, hbusy.unchanged rfl rfl⟩
    · intro rc hrc
      split at hrc
      · rw [← Except.error.inj hrc]
        simp
      · exact codec.load_error _ _ hrc
    · rintro suffix img rfl hload
      rw [hbusy.inp suffix] at hload
      split at hload
      · cases hload
      · next png hpng => exact ⟨png, hpng, hload⟩

theorem ensures_stat {suffix : Bytes} :
    Ensures cfg codec i (call (.stat (resultPath cfg (v.job + 1) suffix))) v fun a v' =>
      v.Later v' ∧
      ∀ content, v.out suffix = some content →
        a = some content.length ∨ Mark.fault (.worker i) .stat (resultPath cfg (v.job + 1) suffix) ∈
          v'.past := by
  refine ensures_call (fun _ _ _ => trivial) fun s e a w' marks _ hbusy hexec => ?_
  simp only [exec, Option.some.injEq, Prod.mk.injEq] at hexec
  obtain ⟨rfl, rfl, rfl⟩ := hexec
  refine ⟨_, ⟨hbusy.later (List.suffix_append _ _), fun content hcontent => ?_⟩,
    hbusy.faulted e.ok .stat _ (by simp) rfl hbusy.out (fun _ => rfl)⟩
  rw [hbusy.out, hcontent]
  cases e.ok with
  | true => exact .inl rfl
  | false => exact .inr (List.mem_cons_self ..)

theorem ensures_fsize {path : Bytes} :
    Ensures cfg codec i (call (.fsize path)) v fun a v' => v.Later v' ∧
      ∀ suffix size, path = uploadPath cfg (v.job + 1) suffix → a = some size →
        size = ((v.inp suffix).getD []).length := by
  refine ensures_call (fun _ _ _ => trivial) fun s e a w' marks _ hbusy hexec => ?_
  simp only [exec, Option.some.injEq, Prod.mk.injEq] at hexec
  obtain ⟨rfl, rfl, rfl⟩ := hexec
  refine ⟨_, ⟨hbusy.later (List.suffix_append _ _), ?_⟩,
    hbusy.faulted e.ok .fsize path (by simp) rfl hbusy.out (fun _ => rfl)⟩
  rintro suffix size rfl hsize
  rw [hbusy.inp] at hsize
  split at hsize
  · exact (Option.some.inj hsize).symm
  · cases hsize

theorem ensures_fread {path : Bytes} {size : Nat} :
    Ensures cfg codec i (call (.fread path size)) v fun a v' => v.Later v' ∧ a.length ≤ size ∧
      (FaultFree v'.past → ∀ suffix, path = uploadPath cfg (v.job + 1) suffix →
        a = ((v.inp suffix).getD []).take size) := by
  refine ensures_call (fun _ _ _ => trivial) fun s e a w' marks _ hbusy hexec => ?_
  simp only [exec, Option.some.injEq, Prod.mk.injEq] at hexec
  obtain ⟨rfl, rfl, rfl⟩ := hexec
  have hlength : (((s.world.files path).getD []).take size).length ≤ size := List.length_take_le _ _
  refine ⟨_, ⟨hbusy.later (List.suffix_append _ _), ?_, ?_⟩,
    hbusy.faulted e.ok .fread path (by simp) rfl hbusy.out (fun _ => rfl)⟩
  · split
    · exact hlength
    · exact Nat.le_trans (List.length_take_le' _ _) hlength
  rintro hfree suffix rfl
  rw [hbusy.inp]
  cases hok : e.ok with
  | true => rfl
  | false =>
    rw [hok] at hfree
    exact absurd (List.mem_cons_self ..) (hfree _ _ _)

/-- Opening a file for reading: a failure is remembered. -/
theorem ensures_fopenRb {path : Bytes} :
    Ensures cfg codec i (call (.fopenRb path)) v fun found v' =>
      (∃ past, v.past <:+ past ∧
        v' = { v with unreadable := v.unreadable || !found, past := past }) ∧
        (found = true → ∀ suffix, path = uploadPath cfg (v.job + 1) suffix → ∃ data,
          v.inp suffix = some data) := by
  refine ensures_call (fun _ _ _ => trivial) fun s e a w' marks _ hbusy hexec => ?_
  simp only [exec, Option.some.injEq, Prod.mk.injEq] at hexec
  obtain ⟨hfound, rfl, rfl⟩ := hexec
  rw [hfound]
  have hbusy' : Busy cfg i { v with
      unreadable := v.unreadable || !a, past :=
        faultUnless a (.worker i) .fopenRb path ++ s.history }
      ⟨s.world, faultUnless a (.worker i) .fopenRb path ++ s.history⟩ := by
    cases a with
    | true =>
      rw [Bool.not_true, Bool.or_false]
      exact hbusy.unchanged rfl rfl
    | false =>
      rw [Bool.not_false, Bool.or_true]
      refine ⟨hbusy.held, hbusy.record, hbusy.clear, ?_, hbusy.events, hbusy.out, hbusy.inp,
        List.suffix_rfl⟩
      simp [faultUnless, sawUnreadable]
  refine ⟨_, ⟨⟨_, hbusy.past.trans (List.suffix_append _ _), rfl⟩, ?_⟩, hbusy'⟩
  rintro rfl suffix rfl
  rw [Bool.and_eq_true, hbusy.inp, Option.isSome_iff_exists] at hfound
  exact hfound.2

theorem ensures_cancelRequested :
    Ensures cfg codec i (jobIsCancelRequested v.job) v fun requested v' =>
      ∃ past, v.past <:+ past ∧ v' = { v with
        clear := !requested
        record := { v.record with cancel_requested := v.record.cancel_requested || requested }
        past := past } := by
  refine ensures_call (fun _ _ hbusy _ => .inr hbusy.held) fun s e a w' marks _ hbusy hexec => ?_
  simp only [exec, if_true, Option.some.injEq, Prod.mk.injEq] at hexec
  obtain ⟨hflag, rfl, rfl⟩ := hexec
  have hflag' : (s.world.job v.job).cancel_requested = a := hflag
  rw [hflag']
  let history := [Mark.flag (.worker i) v.job a] ++ s.history
  refine ⟨{ v with
    clear := !a
    record := { v.record with cancel_requested := v.record.cancel_requested || a }
    past := history }, ⟨history, hbusy.past.trans (List.suffix_append _ _), rfl⟩, ?_⟩
  obtain ⟨hsame, hmono⟩ := hbusy.record
  refine ⟨hbusy.held, ⟨hsame, ?_⟩, ?_, hbusy.unreadable, hbusy.events, hbusy.out, hbusy.inp,
    List.suffix_rfl⟩
  · intro hor
    rcases Bool.or_eq_true_iff.mp hor with hold | hnew
    · exact hmono hold
    · exact hflag'.trans hnew
  · simp [sawClear]

theorem ensures_set {u : JobUpdate} (hu : ∀ st, u ≠ .state st) (hlive : ¬ v.record.state.Terminal)
    (hsets : (∃ text, u = .result text) ∨ v.record.state = .running ∧
      ((∃ path suffix, u = .outputPath path ∧ snprintf maxJobPath path =
        resultPath cfg (v.job + 1) suffix) ∨
        ∃ kind size filename, u = .resultMeta kind size filename)) :
    Ensures cfg codec i (call (.setJob v.job u)) v fun _ v' =>
      ∃ past, v.past <:+ past ∧ v' = { v with record := u.apply 0 v.record, past := past } := by
  refine ensures_call (fun s _ hbusy => ?_) fun s e a w' marks hinv hbusy hexec => ?_
  · have hstate : (s.world.job v.job).state = v.record.state := by rw [hbusy.record.1]
    refine .inr ⟨hbusy.held, hstate ▸ hlive, ?_⟩
    rcases hsets with ⟨text, rfl⟩ | ⟨hrunning, ⟨path, suffix, rfl, hpath⟩ |
      ⟨kind, size, filename, rfl⟩⟩
    · trivial
    · exact ⟨hstate.trans hrunning, suffix, hpath⟩
    · exact hstate.trans hrunning
  · simp only [exec, Option.some.injEq, Prod.mk.injEq] at hexec
    obtain ⟨-, rfl, rfl⟩ := hexec
    refine ⟨{ v with record := u.apply 0 v.record, past := s.history }, ⟨_, hbusy.past, rfl⟩,
      hbusy.held, ?_,
      hbusy.clear, hbusy.unreadable, hbusy.events, hbusy.out, hbusy.inp, List.suffix_rfl⟩
    change Follows (u.apply 0 v.record) ((s.world.updateJob v.job fun j =>
      u.apply e.now j).job v.job)
    rw [World.updateJob_job _ (hinv.held_lt hbusy.held), hbusy.record.1]
    cases u with
    | state st => exact absurd rfl (hu st)
    | _ => exact ⟨rfl, hbusy.record.2⟩

theorem ensures_setState (st : JobState) (hlive : ¬ v.record.state.Terminal)
    (htold : Told cfg { v.record with state := st })
    (hmay : ∀ s, Inv cfg codec s → Busy cfg i v s →
      MayBecome cfg codec (.worker i) s (s.world.job v.job) st) :
    Ensures cfg codec i (jobSetState v.job st) v fun _ v' =>
      ∃ now past, v.past <:+ past ∧ v' = { v with
        record := JobUpdate.apply now v.record (.state st), clear := false, unreadable :=
          false, past := past } := by
  refine ensures_call (fun s hinv hbusy => ?_) fun s e a w' marks hinv hbusy hexec => ?_
  · refine .inr ⟨hbusy.held, ?_, hmay s hinv hbusy, ?_⟩
    · rw [hbusy.record.1]
      exact hlive
    · rw [hbusy.record.1]
      exact htold
  · simp only [exec, Option.some.injEq, Prod.mk.injEq] at hexec
    obtain ⟨-, rfl, rfl⟩ := hexec
    let history := [Mark.state (.worker i) v.job st] ++ s.history
    refine ⟨{ v with
      record := JobUpdate.apply e.now v.record (.state st), clear := false, unreadable :=
        false, past := history },
      ⟨e.now, history, hbusy.past.trans (List.suffix_append _ _), rfl⟩, hbusy.held, ?_, ?_, ?_,
        hbusy.events,
      hbusy.out, hbusy.inp, List.suffix_rfl⟩
    · change Follows (JobUpdate.apply e.now v.record (.state st))
        ((s.world.updateJob v.job fun j => JobUpdate.apply e.now j (.state st)).job v.job)
      rw [World.updateJob_job _ (hinv.held_lt hbusy.held), hbusy.record.1]
      exact ⟨rfl, hbusy.record.2⟩
    · simp [sawClear]
    · simp [sawUnreadable]

theorem ensures_writeEvent (hterminal : v.record.state.Terminal) (hevents : v.events = []) :
    Ensures cfg codec i (call (.writeEvent (v.job + 1) v.record.state)) v fun _ v' =>
      v'.job = v.job ∧ v'.record = v.record ∧ v'.events ≠ [] := by
  refine ensures_call (fun s _ hbusy => ?_) fun s e a w' marks _ hbusy hexec => ?_
  · refine ⟨v.job, rfl, hbusy.held, by rw [hbusy.record.1], hterminal, hbusy.events.trans hevents⟩
  · simp only [exec, Option.some.injEq, Prod.mk.injEq] at hexec
    obtain ⟨-, rfl, rfl⟩ := hexec
    refine ⟨{ v with events := v.record.state :: v.events, past := v.past },
      ⟨rfl, rfl, List.cons_ne_nil _ _⟩,
      hbusy.held, hbusy.record, hbusy.clear, hbusy.unreadable, ?_, hbusy.out, hbusy.inp,
      hbusy.past.trans (List.suffix_append _ _)⟩
    change (if v.job + 1 = v.job + 1 then v.record.state :: eventsOf (v.job + 1) s.history else _) =
      _
    rw [if_pos rfl, hbusy.events]

/-! Writing a result. -/

theorem Busy.writeOk (hbusy : Busy cfg i v s) (hlive : ¬ v.record.state.Terminal) (suffix : Bytes) :
    WriteOk cfg (.worker i) s (resultPath cfg (v.job + 1) suffix) := by
  refine .inr ⟨v.job, suffix, hbusy.held, ?_, rfl⟩
  rw [hbusy.record.1]
  exact hlive

theorem Busy.wrote (hbusy : Busy cfg i v s) (ok : Bool) (c : FileCall) (hc : c ≠ .fopenRb)
    {suffix : Bytes} {content : Option Bytes} :
    Busy cfg i
      { v with
        out := fun x => if x = suffix then content else v.out x
        past := faultUnless ok (.worker i) c (resultPath cfg (v.job + 1) suffix) ++ s.history }
      ⟨s.world.writeFile (resultPath cfg (v.job + 1) suffix) content,
        faultUnless ok (.worker i) c (resultPath cfg (v.job + 1) suffix) ++ s.history⟩ := by
  have hjobs : (s.world.writeFile (resultPath cfg (v.job + 1) suffix) content).jobs =
    s.world.jobs := rfl
  refine hbusy.faulted ok c _ hc hjobs (fun x => ?_) fun x => ?_
  · by_cases hx : x = suffix
    · subst hx
      simp [World.writeFile]
    · have hne : resultPath cfg (v.job + 1) x ≠ resultPath cfg (v.job + 1) suffix :=
        fun hsame => hx (jobFilePath_injective hsame).2
      simp [World.writeFile, hne, hx, hbusy.out]
  · have hne := uploadPath_ne_resultPath cfg (v.job + 1) (v.job + 1) x suffix
    simp [World.writeFile, hne]

theorem ensures_fopenWb {suffix : Bytes} (hlive : ¬ v.record.state.Terminal) :
    Ensures cfg codec i (call (.fopenWb (resultPath cfg (v.job + 1) suffix))) v fun ok v' =>
      v.Wrote v' ∧ (ok = true → v'.out suffix = some []) := by
  refine ensures_call (fun s _ hbusy => hbusy.writeOk hlive suffix)
    fun s e a w' marks _ hbusy hexec => ?_
  simp only [exec, Option.some.injEq, Prod.mk.injEq] at hexec
  obtain ⟨rfl, rfl, rfl⟩ := hexec
  cases e.ok with
  | true =>
    exact ⟨_, ⟨⟨_, _, hbusy.past, rfl⟩, fun _ => if_pos rfl⟩, hbusy.wrote true .fopenWb (by simp)⟩
  | false =>
    exact ⟨_, ⟨⟨_, _, hbusy.past.trans (List.suffix_append _ _), rfl⟩, by simp⟩,
      hbusy.faulted false .fopenWb _ (by simp) rfl hbusy.out (fun _ => rfl)⟩

theorem ensures_fwrite {suffix bytes : Bytes} (hlive : ¬ v.record.state.Terminal) :
    Ensures cfg codec i (call (.fwrite (resultPath cfg (v.job + 1) suffix) bytes)) v fun ok v' =>
      v.Wrote v' ∧ (ok = true → ∀ content, v.out suffix = some content →
        v'.out suffix = some (content ++ bytes)) := by
  refine ensures_call (fun s _ hbusy => hbusy.writeOk hlive suffix)
    fun s e a w' marks _ hbusy hexec => ?_
  simp only [exec, Option.some.injEq, Prod.mk.injEq] at hexec
  obtain ⟨rfl, rfl, rfl⟩ := hexec
  refine ⟨_, ⟨⟨_, _, hbusy.past.trans (List.suffix_append _ _), rfl⟩,
    fun hok content hcontent => ?_⟩,
    hbusy.wrote e.ok .fwrite (by simp)⟩
  simp [hok, hbusy.out, hcontent]

theorem ensures_pngWrite {suffix : Bytes} {img : PngImageBuf} (hlive : ¬ v.record.state.Terminal) :
    Ensures cfg codec i (call (.pngWrite (resultPath cfg (v.job + 1) suffix) img)) v fun ok v' =>
      v.Wrote v' ∧ (ok = true → ∀ content, v.out suffix = some content →
        v'.out suffix = some (content ++ codec.save img)) := by
  refine ensures_call (fun s _ hbusy => hbusy.writeOk hlive suffix)
    fun s e a w' marks _ hbusy hexec => ?_
  simp only [exec, Option.some.injEq, Prod.mk.injEq] at hexec
  obtain ⟨rfl, rfl, rfl⟩ := hexec
  refine ⟨_, ⟨⟨_, _, hbusy.past.trans (List.suffix_append _ _), rfl⟩,
    fun hok content hcontent => ?_⟩,
    hbusy.wrote e.ok .pngWrite (by simp)⟩
  simp [hok, hbusy.out, hcontent]

theorem ensures_fclose {suffix : Bytes} (hlive : ¬ v.record.state.Terminal) :
    Ensures cfg codec i (call (.fclose (resultPath cfg (v.job + 1) suffix))) v fun ok v' =>
      v.Wrote v' ∧ (ok = true ∨ FaultFree v'.past → v'.out suffix = v.out suffix) ∧
        ∀ content, v.out suffix = some content → ∃ content', v'.out suffix = some content' := by
  refine ensures_call (fun s _ hbusy => hbusy.writeOk hlive suffix)
    fun s e a w' marks _ hbusy hexec => ?_
  simp only [exec, Option.some.injEq, Prod.mk.injEq] at hexec
  obtain ⟨rfl, rfl, rfl⟩ := hexec
  cases hok : e.ok with
  | true =>
    exact ⟨{ v with past := s.history }, ⟨⟨_, _, hbusy.past, rfl⟩, fun _ => rfl,
      fun content hcontent => ⟨content, hcontent⟩⟩,
      hbusy.unchanged rfl rfl⟩
  | false =>
    refine ⟨_, ⟨⟨_, _, hbusy.past.trans (List.suffix_append _ _), rfl⟩, ?_,
      fun content hcontent => ?_⟩,
      hbusy.wrote false .fclose (by simp)⟩
    · rintro (htrue | hfree)
      · cases htrue
      · exact absurd (List.mem_cons_self ..) (hfree _ _ _)
    · simp [hbusy.out, hcontent]

theorem ensures_unlink {suffix : Bytes} (hlive : ¬ v.record.state.Terminal) :
    Ensures cfg codec i (call (.unlink (resultPath cfg (v.job + 1) suffix))) v fun _ v' =>
      v.Wrote v' := by
  refine ensures_call (fun s _ hbusy => hbusy.writeOk hlive suffix)
    fun s e a w' marks _ hbusy hexec => ?_
  simp only [exec, Option.some.injEq, Prod.mk.injEq] at hexec
  obtain ⟨-, rfl, rfl⟩ := hexec
  exact ⟨_, ⟨_, _, hbusy.past, rfl⟩, hbusy.wrote true .fclose (by simp)⟩

end

end StegaPng
