import StegaPng.Inventory
import StegaPng.Soundness

/-! The main thread keeps to the conduct while it serves its clients. -/

namespace StegaPng

open Interleaving

section

variable {cfg : RuntimeConfig} {codec : PngCodec} {s : Sys} {α β : Type}

/-- Between jobs the program keeps to the conduct and ends between jobs. -/
def MainKeeps (cfg : RuntimeConfig) (codec : PngCodec) (p : Task α) : Prop :=
  ∀ s, making s.history = none →
    (conduct cfg codec).wp .main p (fun _ s' => making s'.history = none) s

theorem mainKeeps_pure (a : α) : MainKeeps cfg codec (pure a : Task α) := fun _ h => h

theorem mainKeeps_bind {p : Task α} {f : α → Task β} (hp : MainKeeps cfg codec p)
    (hf : ∀ a, MainKeeps cfg codec (f a)) : MainKeeps cfg codec (p >>= f) :=
  fun s hs => Discipline.wp_seq (hp s hs) fun a s' hs' => hf a s' hs'

/-- Operations that main may always perform, and that leave no job in the making. -/
def Idle (cfg : RuntimeConfig) (codec : PngCodec) (o : Op) : Prop :=
  (∀ s, Allowed cfg codec .main o s) ∧
    ∀ (e : Env) (s : Sys) (a : Ans o) (w' : World) (marks : List Mark),
    exec codec e .main s.world o = some (a, w', marks) →
      making (marks ++ s.history) = making s.history

theorem mainKeeps_all {p : Task α} (hp : p.All (Idle cfg codec)) : MainKeeps cfg codec p := by
  intro s hs
  refine Discipline.wp_all (P := fun s : Sys => making s.history = none) ?_ ?_ ?_ hp hs
  · exact fun s s' hs hrely _ => hrely.making.trans hs
  · exact fun o s ho _ _ => ho.1 s
  · rintro o s a s' ho hs - ⟨e, marks, -, hexec, hhistory⟩ -
    rw [hhistory, ho.2 e s a s'.world marks hexec, hs]

theorem idle_of {o : Op} (ho : o.plain = true ∨ o.ofSession = true) : Idle cfg codec o := by
  refine ⟨fun s => ?_, fun e s a w' marks hexec => ?_⟩
  · rcases ho with ho | ho <;> cases o <;> first
      | trivial
      | exact fun _ => .inl rfl
  · have heffect := exec_effect hexec
    cases heffect with
    | quiet _ _ hmarks => exact (quiet_books hmarks _).making
    | input _ _ _ hmarks => exact (input_books hmarks _).making
    | file _ _ _ hmarks => exact (quiet_books hmarks _).making
    | _ => rcases ho with ho | ho <;> cases ho

theorem plain_idle (o : Op) (ho : o.plain = true) : Idle cfg codec o := idle_of (.inl ho)

theorem session_idle {o : Op} (ho : o.ofSession = true) : Idle cfg codec o := idle_of (.inr ho)

/-- CANCEL is the one command that changes a job: one it has looked up. -/
theorem handleCancel_keeps (fd : Int) (job_id : UInt64) (refused : Bytes) :
    MainKeeps cfg codec (withJob fd job_id (handleCancel fd job_id refused)) := by
  intro s hs s₁ hrely hinv
  have hs₁ : making s₁.history = none := hrely.making.trans hs
  refine ⟨trivial, ?_⟩
  rintro found ⟨w₂, h₂⟩ ⟨e, marks, -, hexec, hhistory⟩ -
  simp only [exec, Option.some.injEq, Prod.mk.injEq] at hexec
  obtain ⟨hfound, rfl, rfl⟩ := hexec
  obtain rfl : h₂ = s₁.history := hhistory
  have hrespond : ∀ text, MainKeeps cfg codec (sendResponsef fd text >>= fun _ => pure ()) :=
    fun text => mainKeeps_all (respond_all plain_idle fd text)
  cases found with
  | none => exact hrespond _ _ hs₁
  | some job =>
    have hjob : job < s₁.world.jobs.length := by
      split at hfound
      · cases hfound
      · exact (List.findIdx?_eq_some_iff_getElem.mp hfound).1
    intro s₃ hrely₃ hinv₃
    refine ⟨⟨rfl, by rw [hrely₃.length]; exact hjob, hrely₃.making.trans hs₁⟩, ?_⟩
    rintro accepted ⟨w₄, h₄⟩ ⟨e₄, marks₄, -, hexec₄, hhistory₄⟩ -
    have hs₄ : making h₄ = none := by
      obtain rfl : h₄ = marks₄ ++ s₃.history := hhistory₄
      have hs₃ : making s₃.history = none := hrely₃.making.trans hs₁
      simp only [exec, Option.some.injEq, Prod.mk.injEq] at hexec₄
      obtain ⟨-, -, rfl⟩ := hexec₄
      split
      · exact hs₃
      · exact hs₃
    cases accepted with
    | false => exact hrespond _ _ hs₄
    | true => exact hrespond _ _ hs₄

/-! Receiving an upload. -/

/-- What main knows while it receives an upload: the number of jobs, the request so
far, and the files of the next upload by suffix. -/
structure Desk where
  count : Nat
  request : Bytes × Bytes
  inp : Bytes → Option Bytes

structure AtDesk (cfg : RuntimeConfig) (d : Desk) (s : Sys) : Prop where
  making : making s.history = none
  length : s.world.jobs.length = d.count
  request : requestSoFar s.history = d.request
  inp : ∀ suffix, s.world.files (uploadPath cfg (d.count + 1) suffix) = d.inp suffix

/-- More of the body has been read and stored under the suffix. -/
def Desk.store (d : Desk) (suffix body : Bytes) (content : Option Bytes) : Desk where
  count := d.count
  request := (d.request.1, d.request.2 ++ body)
  inp := fun x => if x = suffix then content else d.inp x

theorem Desk.store_store (d : Desk) (suffix b b' : Bytes) (c c' : Option Bytes) :
    (d.store suffix b c).store suffix b' c' = d.store suffix (b ++ b') c' := by
  simp only [store, List.append_assoc, Desk.mk.injEq, true_and]
  funext x
  split <;> rfl

theorem Desk.store_self (d : Desk) (suffix : Bytes) : d.store suffix [] (d.inp suffix) = d := by
  have hinp : (fun x => if x = suffix then d.inp suffix else d.inp x) = d.inp := by
    funext x
    split
    · next hx => rw [hx]
    · rfl
  simp only [store, hinp, List.append_nil]

@[simp] theorem Desk.store_count (d : Desk) (suffix body : Bytes) (c : Option Bytes) :
    (d.store suffix body c).count = d.count := rfl

@[simp] theorem Desk.store_inp (d : Desk) (suffix body : Bytes) (c : Option Bytes) :
    (d.store suffix body c).inp suffix = c := if_pos rfl

variable {d d' : Desk}

theorem AtDesk.rely {s' : Sys} (hdesk : AtDesk cfg d s) (hrely : MainRely cfg s s') :
    AtDesk cfg d s' where
  making := hrely.making.trans hdesk.making
  length := hrely.length.trans hdesk.length
  request := hrely.request.trans hdesk.request
  inp suffix := (hrely.inp _ suffix).trans (hdesk.inp suffix)

/-- From the knowledge `d` main keeps to the conduct and ends with some knowledge that
`Q` allows. -/
def MainEnsures (cfg : RuntimeConfig) (codec : PngCodec) (p : Task α) (d : Desk)
    (Q : α → Desk → Prop) : Prop :=
  ∀ s, AtDesk cfg d s → (conduct cfg codec).wp .main p (fun a s => ∃ d', Q a d' ∧ AtDesk cfg d' s) s

theorem mainEnsures_pure {a : α} {Q : α → Desk → Prop} (h : Q a d) :
    MainEnsures cfg codec (pure a) d Q :=
  fun _ hdesk => ⟨d, h, hdesk⟩

theorem mainEnsures_bind {p : Task α} {f : α → Task β} {Q : α → Desk → Prop} {R : β → Desk → Prop}
    (hp : MainEnsures cfg codec p d Q) (hf : ∀ a d', Q a d' → MainEnsures cfg codec (f a) d' R) :
    MainEnsures cfg codec (p >>= f) d R :=
  fun s hdesk => Discipline.wp_seq (hp s hdesk) fun a s' ⟨d', hq, hdesk'⟩ => hf a d' hq s' hdesk'

theorem mainEnsures_mono {p : Task α} {Q R : α → Desk → Prop} (hp : MainEnsures cfg codec p d Q)
    (h : ∀ a d', Q a d' → R a d') : MainEnsures cfg codec p d R :=
  fun s hdesk => Discipline.wp_mono (fun a _ ⟨d', hq, hdesk'⟩ => ⟨d', h a d' hq,
    hdesk'⟩) (hp s hdesk)

theorem mainEnsures_call {o : Op} {Q : Ans o → Desk → Prop}
    (hallowed : ∀ s, Inv cfg codec s → AtDesk cfg d s → Allowed cfg codec .main o s)
    (hpost : ∀ s e a w' marks, Inv cfg codec s → AtDesk cfg d s →
      exec codec e .main s.world o = some (a, w', marks) →
      ∃ d', Q a d' ∧ AtDesk cfg d' ⟨w', marks ++ s.history⟩) :
    MainEnsures cfg codec (call o) d Q := by
  intro s hdesk s₁ hrely hinv
  have hdesk₁ := hdesk.rely hrely
  refine ⟨hallowed s₁ hinv hdesk₁, ?_⟩
  rintro a ⟨w', h'⟩ ⟨e, marks, -, hexec, hhistory⟩ -
  obtain rfl : h' = marks ++ s₁.history := hhistory
  exact hpost s₁ e a w' marks hinv hdesk₁ hexec

theorem AtDesk.writeOk (hdesk : AtDesk cfg d s) (suffix : Bytes) :
    WriteOk cfg .main s (uploadPath cfg (d.count + 1) suffix) :=
  .inl ⟨rfl, hdesk.making, suffix, by rw [hdesk.length]⟩

theorem AtDesk.wrote (hdesk : AtDesk cfg d s) {w' : World} {marks : List Mark} (suffix : Bytes)
    (content : Option Bytes) (hlength : w'.jobs.length = s.world.jobs.length)
    (hmarks : ∀ m ∈ marks, m.Quiet .main)
    (hfiles : ∀ p, w'.files p = if p = uploadPath cfg (d.count + 1) suffix then content else
      s.world.files p) :
    AtDesk cfg (d.store suffix [] content) ⟨w', marks ++ s.history⟩ where
  making := (quiet_books hmarks _).making.trans hdesk.making
  length := hlength.trans hdesk.length
  request := by
    have hsame : requestSoFar (marks ++ s.history) = requestSoFar s.history :=
      ignores_append (fun m hm h => by cases hmarks m hm <;> rfl) _
    rw [hsame, hdesk.request, Desk.store, List.append_nil]
  inp x := by
    have hfile := hfiles (uploadPath cfg (d.count + 1) x)
    by_cases hx : x = suffix
    · subst hx
      rw [if_pos rfl] at hfile
      exact hfile.trans (if_pos rfl).symm
    · have hne : uploadPath cfg (d.count + 1) x ≠ uploadPath cfg (d.count + 1) suffix :=
        fun hsame => hx (jobFilePath_injective hsame).2
      rw [if_neg hne] at hfile
      exact (hfile.trans (hdesk.inp x)).trans (if_neg hx).symm

theorem AtDesk.same (hdesk : AtDesk cfg d s) {w' : World} {marks : List Mark}
    (hlength : w'.jobs.length = s.world.jobs.length) (hfiles : w'.files = s.world.files)
    (hmarks : ∀ m ∈ marks, m.Quiet .main) : AtDesk cfg d ⟨w', marks ++ s.history⟩ where
  making := (quiet_books hmarks _).making.trans hdesk.making
  length := hlength.trans hdesk.length
  request := (ignores_append (fun m hm h => by cases hmarks m hm <;> rfl) _).trans hdesk.request
  inp x := (congrFun hfiles _).trans (hdesk.inp x)

theorem mainEnsures_nextId :
    MainEnsures cfg codec (call .nextId) d fun a d' => d' = d ∧ a = d.count + 1 ∧
      d.count ≤ maxJobs := by
  refine mainEnsures_call (fun _ _ _ => trivial) fun s e a w' marks hinv hdesk hexec => ?_
  simp only [exec, Option.some.injEq, Prod.mk.injEq] at hexec
  obtain ⟨rfl, rfl, rfl⟩ := hexec
  exact ⟨d, ⟨rfl, by rw [hinv.next_id, hdesk.length], hdesk.length ▸ hinv.bound⟩,
    hdesk.same rfl rfl (quiet_nil _)⟩

theorem mainEnsures_response {fd : Int} {text : Bytes} :
    MainEnsures cfg codec (sendResponsef fd text) d fun _ d' => d' = d := by
  unfold sendResponsef
  split
  · exact mainEnsures_pure rfl
  · refine mainEnsures_call (fun _ _ _ => rfl) fun s e a w' marks _ hdesk hexec => ?_
    simp only [exec, Option.some.injEq, Prod.mk.injEq] at hexec
    obtain ⟨rfl, rfl, rfl⟩ := hexec
    exact ⟨d, rfl, hdesk.same rfl rfl (quiet_single (.reply _ _))⟩

theorem mainEnsures_fopenWb {suffix : Bytes} :
    MainEnsures cfg codec (call (.fopenWb (uploadPath cfg (d.count + 1) suffix))) d fun ok d' =>
      ∃ content, d' = d.store suffix [] content ∧ (ok = true → content = some []) := by
  refine mainEnsures_call (fun _ _ hdesk => hdesk.writeOk suffix)
    fun s e a w' marks _ hdesk hexec => ?_
  simp only [exec, Option.some.injEq, Prod.mk.injEq] at hexec
  obtain ⟨rfl, rfl, rfl⟩ := hexec
  cases e.ok with
  | true =>
    exact ⟨_, ⟨some [], rfl, fun _ => rfl⟩, hdesk.wrote suffix _ rfl (quiet_nil _) fun _ => rfl⟩
  | false =>
    refine ⟨d, ⟨d.inp suffix, (d.store_self suffix).symm, by simp⟩, ?_⟩
    exact hdesk.same rfl rfl (quiet_single (.fault _ _))

theorem mainEnsures_fwrite {suffix bytes : Bytes} :
    MainEnsures cfg codec (call (.fwrite (uploadPath cfg (d.count + 1) suffix) bytes)) d
      fun ok d' =>
      ∃ content, d' = d.store suffix [] content ∧
        (ok = true → content = (d.inp suffix).map (· ++ bytes)) := by
  refine mainEnsures_call (fun _ _ hdesk => hdesk.writeOk suffix)
    fun s e a w' marks _ hdesk hexec => ?_
  simp only [exec, Option.some.injEq, Prod.mk.injEq] at hexec
  obtain ⟨rfl, rfl, rfl⟩ := hexec
  refine ⟨_, ⟨_, rfl, fun hok => ?_⟩, hdesk.wrote suffix _ rfl (quiet_fault _ _ _ _) fun _ => rfl⟩
  rw [hdesk.inp, hok, if_pos rfl]

theorem mainEnsures_fclose {suffix : Bytes} :
    MainEnsures cfg codec (call (.fclose (uploadPath cfg (d.count + 1) suffix))) d fun ok d' =>
      ∃ content, d' = d.store suffix [] content ∧ (ok = true → content = d.inp suffix) := by
  refine mainEnsures_call (fun _ _ hdesk => hdesk.writeOk suffix)
    fun s e a w' marks _ hdesk hexec => ?_
  simp only [exec, Option.some.injEq, Prod.mk.injEq] at hexec
  obtain ⟨rfl, rfl, rfl⟩ := hexec
  cases e.ok with
  | true =>
    exact ⟨d, ⟨d.inp suffix, (d.store_self suffix).symm, fun _ => rfl⟩,
      hdesk.same rfl rfl (quiet_nil _)⟩
  | false =>
    exact ⟨_, ⟨_, rfl, by simp⟩, hdesk.wrote suffix _ rfl (quiet_single (.fault _ _)) fun _ => rfl⟩

theorem mainEnsures_unlink {suffix : Bytes} :
    MainEnsures cfg codec (call (.unlink (uploadPath cfg (d.count + 1) suffix))) d fun _ d' =>
      d' = d.store suffix [] none := by
  refine mainEnsures_call (fun _ _ hdesk => hdesk.writeOk suffix)
    fun s e a w' marks _ hdesk hexec => ?_
  simp only [exec, Option.some.injEq, Prod.mk.injEq] at hexec
  obtain ⟨-, rfl, rfl⟩ := hexec
  exact ⟨_, rfl, hdesk.wrote suffix none rfl (quiet_nil _) fun _ => rfl⟩

theorem AtDesk.read (hdesk : AtDesk cfg d s) {fd : Int} {es : Stream} {bytes : Bytes} :
    AtDesk cfg { d with request := (d.request.1, d.request.2 ++ bytes) }
      ⟨s.world.setStream fd es, .body bytes :: s.history⟩ where
  making := hdesk.making
  length := hdesk.length
  request := by
    change ((requestSoFar s.history).1, (requestSoFar s.history).2 ++ bytes) = _
    rw [hdesk.request]
  inp := hdesk.inp

theorem mainEnsures_read {fd : Int} {want : Nat} (hwant : 0 < want) :
    MainEnsures cfg codec (call (.read fd want)) d fun r d' =>
      match r with
      | .data b bs =>
        bs.length + 1 ≤ want ∧ d' = { d with request := (d.request.1, d.request.2 ++ (b :: bs)) }
      | _ => d' = d := by
  refine mainEnsures_call (fun _ _ _ => rfl) fun s e a w' marks _ hdesk hexec => ?_
  simp only [exec, Option.some.injEq, Prod.mk.injEq] at hexec
  obtain ⟨ha, rfl, rfl⟩ := hexec
  rw [ha]
  cases a with
  | error => exact ⟨d, rfl, hdesk.same rfl rfl (quiet_nil _)⟩
  | eof => exact ⟨d, rfl, hdesk.same rfl rfl (quiet_nil _)⟩
  | data b bs => exact ⟨_, ⟨readRetry_length hwant ha, rfl⟩, hdesk.read⟩

theorem mainEnsures_readExact {fd : Int} {size : Nat} :
    MainEnsures cfg codec (call (.readExact fd size)) d fun r d' =>
      ∀ bytes, r = some bytes → d' = { d with request := (d.request.1, d.request.2 ++ bytes) } := by
  refine mainEnsures_call (fun _ _ _ => rfl) fun s e a w' marks _ hdesk hexec => ?_
  simp only [exec, Option.some.injEq, Prod.mk.injEq] at hexec
  obtain ⟨ha, rfl, rfl⟩ := hexec
  rw [ha]
  cases a with
  | none => exact ⟨d, (by simp), hdesk.same rfl rfl (quiet_nil _)⟩
  | some bytes =>
    refine ⟨{ d with request := (d.request.1, d.request.2 ++ bytes) }, ?_, hdesk.read⟩
    rintro _ ⟨⟩
    rfl

theorem mainEnsures_discardExact {fd : Int} {size : Nat} :
    MainEnsures cfg codec (call (.discardExact fd size)) d fun _ d' => d' = d := by
  refine mainEnsures_call (fun _ _ _ => rfl) fun s e a w' marks _ hdesk hexec => ?_
  simp only [exec, Option.some.injEq, Prod.mk.injEq] at hexec
  obtain ⟨-, rfl, rfl⟩ := hexec
  exact ⟨d, rfl, hdesk.same rfl rfl (quiet_nil _)⟩

theorem mainEnsures_receiveLoop {fd : Int} {suffix c : Bytes} {n : Nat}
    (hfile : d.inp suffix = some c) :
    MainEnsures cfg codec (receiveLoop fd (uploadPath cfg (d.count + 1) suffix) n) d fun ok d' =>
      ∃ body content, d' = d.store suffix body content ∧
        (ok = true → body.length = n ∧ content = some (c ++ body)) := by
  induction n using Nat.strong_induction_on generalizing d c with
  | _ n ih =>
    rw [receiveLoop]
    split
    · next hzero =>
      refine mainEnsures_pure ⟨[], d.inp suffix, (d.store_self suffix).symm,
        fun _ => ⟨hzero.symm, ?_⟩⟩
      rw [hfile, List.append_nil]
    · next hpos =>
      have hwant : 0 < min n chunkSize := by
        have : 0 < chunkSize := by decide
        omega
      refine mainEnsures_bind (mainEnsures_read hwant) ?_
      rintro r d₁ hr
      cases r with
      | error =>
        obtain rfl : d₁ = d := hr
        exact mainEnsures_pure ⟨[], d₁.inp suffix, (d₁.store_self suffix).symm, by simp⟩
      | eof =>
        obtain rfl : d₁ = d := hr
        exact mainEnsures_pure ⟨[], d₁.inp suffix, (d₁.store_self suffix).symm, by simp⟩
      | data b bs =>
        obtain ⟨hle, rfl⟩ := hr
        refine mainEnsures_bind mainEnsures_fwrite ?_
        rintro ok d₂ ⟨content, rfl, hcontent⟩
        cases ok with
        | false => exact mainEnsures_pure ⟨b :: bs, content, by simp [Desk.store], by simp⟩
        | true =>
          have hcontent' : content = some (c ++ (b :: bs)) := by
            rw [hcontent rfl]
            change (d.inp suffix).map _ = _
            rw [hfile]
            rfl
          subst hcontent'
          refine mainEnsures_mono (ih (n - (bs.length + 1)) (by omega) (Desk.store_inp _ _ _ _)) ?_
          rintro ok d₃ ⟨body, content, rfl, hstored⟩
          refine ⟨b :: bs ++ body, content, ?_, fun hok => ?_⟩
          · rw [Desk.store_store]
            simp [Desk.store]
          · obtain ⟨hlen, rfl⟩ := hstored hok
            refine ⟨?_, by rw [List.append_assoc]⟩
            rw [List.length_append, List.length_cons]
            omega

theorem mainEnsures_storageReceiveToFile {fd : Int} {suffix : Bytes} {n : Nat} :
    MainEnsures cfg codec (storageReceiveToFile fd n (uploadPath cfg (d.count + 1) suffix)) d
      fun ok d' =>
      ok = true → ∃ body, body.length = n ∧ d' = d.store suffix body (some body) := by
  refine mainEnsures_bind mainEnsures_fopenWb ?_
  rintro ok d₁ ⟨content, rfl, hopen⟩
  cases ok with
  | false => exact mainEnsures_pure nofun
  | true =>
    obtain rfl := hopen rfl
    refine mainEnsures_bind (mainEnsures_receiveLoop (Desk.store_inp _ _ _ _)) ?_
    rintro ok d₂ ⟨body, content, rfl, hstored⟩
    cases ok with
    | false =>
      refine mainEnsures_bind mainEnsures_fclose ?_
      rintro _ d₃ ⟨content₃, rfl, -⟩
      refine mainEnsures_bind mainEnsures_unlink ?_
      rintro _ d₄ rfl
      exact mainEnsures_pure nofun
    | true =>
      obtain ⟨hlen, rfl⟩ := hstored rfl
      refine mainEnsures_bind mainEnsures_fclose ?_
      rintro ok d₃ ⟨content₃, rfl, hclose⟩
      cases ok with
      | false =>
        refine mainEnsures_bind mainEnsures_unlink ?_
        rintro _ d₄ rfl
        exact mainEnsures_pure nofun
      | true =>
        refine mainEnsures_pure fun _ => ⟨body, hlen, ?_⟩
        rw [hclose rfl, Desk.store_inp, Desk.store_store, Desk.store_store]
        simp

theorem mainEnsures_receivePng {client : ClientSession} {size : UInt64} :
    MainEnsures cfg codec (receivePngToUpload cfg client size) d fun r d' =>
      ∀ path, r = some path → path = uploadPath cfg (d.count + 1) (lit "png") ∧
        ∃ body, body.length = size.toNat ∧ d' = d.store (lit "png") body (some body) := by
  have hanswer : ∀ text, MainEnsures cfg codec (sendResponsef client.fd text >>=
    fun _ => pure (none : Option Bytes)) d
      fun r d' => ∀ path, r = some path → path = uploadPath cfg (d.count + 1) (lit "png") ∧
        ∃ body, body.length = size.toNat ∧ d' = d.store (lit "png") body (some body) :=
    fun text => mainEnsures_bind mainEnsures_response fun _ _ _ => mainEnsures_pure (by simp)
  unfold receivePngToUpload
  split
  · exact hanswer _
  · refine mainEnsures_bind mainEnsures_nextId ?_
    rintro n d₁ ⟨rfl, rfl, hbound⟩
    have hmax : maxJobs = 1024 := rfl
    rw [storageMakeUploadPath_eq cfg (by omega) (by decide)]
    refine mainEnsures_bind mainEnsures_storageReceiveToFile ?_
    rintro ok d₂ hstored
    cases ok with
    | false => exact mainEnsures_bind mainEnsures_response fun _ _ _ => mainEnsures_pure (by simp)
    | true =>
      refine mainEnsures_pure ?_
      rintro _ ⟨⟩
      exact ⟨rfl, hstored rfl⟩

theorem mainEnsures_receiveExtra {fd : Int} {size max : UInt64} {label suffix : Bytes}
    (hsuffix : suffix.length ≤ 4) (hcount : d.count ≤ maxJobs) :
    MainEnsures cfg codec (receiveExtraToFile cfg fd size max label (d.count + 1) suffix) d
      fun r d' =>
      ∀ path, r = some path → path = uploadPath cfg (d.count + 1) suffix ∧ size ≤ max ∧
        ∃ body, body.length = size.toNat ∧ d' = d.store suffix body (some body) := by
  have hmax : maxJobs = 1024 := rfl
  have hanswer : ∀ d₁ text, MainEnsures cfg codec (sendResponsef fd text >>=
    fun _ => pure (none : Option Bytes)) d₁
      fun r d' => ∀ path, r = some path → path = uploadPath cfg (d.count + 1) suffix ∧ size ≤ max ∧
        ∃ body, body.length = size.toNat ∧ d' = d.store suffix body (some body) :=
    fun _ text => mainEnsures_bind mainEnsures_response fun _ _ _ => mainEnsures_pure (by simp)
  unfold receiveExtraToFile
  split
  · exact hanswer _ _
  · next hle =>
    rw [storageMakeUploadPath_eq cfg (by omega) hsuffix]
    dsimp only
    split
    · next hzero =>
      refine mainEnsures_bind mainEnsures_fopenWb ?_
      rintro ok d₁ ⟨content, rfl, hopen⟩
      cases ok with
      | false => exact hanswer _ _
      | true =>
        refine mainEnsures_bind mainEnsures_fclose ?_
        rintro ok d₂ ⟨content₂, rfl, hclose⟩
        cases ok with
        | false => exact hanswer _ _
        | true =>
          refine mainEnsures_pure ?_
          rintro _ ⟨⟩
          refine ⟨rfl, UInt64.not_lt.mp hle, [], by rw [hzero]; rfl, ?_⟩
          rw [hclose rfl, hopen rfl, Desk.store_inp, Desk.store_store]
          rfl
    · refine mainEnsures_bind mainEnsures_storageReceiveToFile ?_
      rintro ok d₁ hstored
      cases ok with
      | false => exact hanswer _ _
      | true =>
        refine mainEnsures_pure ?_
        rintro _ ⟨⟩
        exact ⟨rfl, UInt64.not_lt.mp hle, hstored rfl⟩

end

end StegaPng
