import StegaPng.Locks

/-! Reduction. A program that gives nothing back before it has taken all it needs might as
well run in one piece: where threads run such programs an operation at a time, they do
nothing that they could not do with each of them atomic. -/

namespace Locks

open Interleaving

variable {T Loc B α β : Type} {Res : B → Type} {S : Objects}

/-- What a program has taken, and whether others know of it. -/
abbrev Held (S : Objects) := S.Lock → Option Status

def Held.nothing : Held S := fun _ => none

/-- What a program must have to perform an operation. -/
def Held.fits (held : Held S) : Op S → Prop
  | .lock l => held l = none
  | .release l how => held l = some how.before
  | .act l _ => held l ≠ none
  | _ => True

/-- The thread owns what its program has taken. -/
def Tied (t : T) (held : Held S) (s : State T S) : Prop :=
  ∀ l st, held l = some st → (s l).owner = some t ∧ (s l).status = st

theorem tied_nothing (t : T) (s : State T S) : Tied t .nothing s := by
  intro l st hl
  cases hl

theorem Tied.owner {t : T} {held : Held S} {s : State T S} {l : S.Lock} (h : Tied t held s)
    (hl : held l ≠ none) :
    (s l).owner = some t := by
  obtain ⟨st, hst⟩ := Option.ne_none_iff_exists'.mp hl
  exact (h l st hst).1

theorem Tied.of_same {t : T} {held : Held S} {s s' : State T S} (h : Tied t held s)
    (hsame : ∀ l, held l ≠ none → s' l = s l) : Tied t held s' := by
  intro l st hst
  rw [hsame l (by rw [hst]; exact Option.some_ne_none st)]
  exact h l st hst

/-- The thread's own state where it has taken something, the other state elsewhere. -/
def overlay (held : Held S) (s s' : State T S) : State T S := fun l => if held l = none then
    s' l else s l

theorem overlay_of_none {held : Held S} {s s' : State T S} {l : S.Lock} (hl : held l = none) :
    overlay held s s' l = s' l := if_pos hl

theorem overlay_of_ne {held : Held S} {s s' : State T S} {l : S.Lock} (hl : held l ≠ none) :
    overlay held s s' l = s l := if_neg hl

variable [DecidableEq S.Lock]

def Held.next (held : Held S) (o : Op S) (a : Answer S o) : Held S :=
  match o, a with
  | .lock l, _ => Function.update held l (some .shared)
  | .alloc, some p => Function.update held (S.block p) (some .secret)
  | .release l _, _ => Function.update held l none
  | _, _ => held

/-- The program gives back what it has and does nothing else. -/
def Shrinking : Held S → Task S α → Prop
  | held, .ret _ => ∀ l, held l = none
  | held, .op (.release l how) k =>
    held l = some how.before ∧ Shrinking (Function.update held l none) (k ())
  | _, .op _ _ => False

/-- Once the program gives something back, it does nothing else any more. -/
def TwoPhase : Held S → Task S α → Prop
  | held, .ret _ => ∀ l, held l = none
  | held, .op (.release l how) k =>
    held l = some how.before ∧ Shrinking (Function.update held l none) (k ())
  | held, .op o k => held.fits o ∧ ∀ a, TwoPhase (held.next o a) (k a)

/-- An atomic call, or an operation outside of any. -/
inductive Call (B : Type) (S : Objects) where
  | call (b : B)
  | prim (o : Op S)

abbrev Call.Answer (Res : B → Type) : Call B S → Type
  | .call b => Res b
  | .prim o => Locks.Answer S o

abbrev Client (Res : B → Type) (S : Objects) (α : Type) := Prog (Call B S) (Call.Answer Res) α

/-- The calls written out. -/
def Client.compile (body : (b : B) → Task S (Res b)) : Client Res S α → Task S α
  | .ret a => .ret a
  | .op (.call b) k => body b >>= fun r => compile body (k r)
  | .op (.prim o) k => .op o fun a => compile body (k a)

/-- Outside of its calls the program touches what it has taken there. -/
def Client.Guarded : Held S → Client Res S α → Prop
  | mine, .ret _ => ∀ l, mine l = none
  | mine, .op (.call _) k => ∀ r, Guarded mine (k r)
  | mine, .op (.prim o) k => mine.fits o ∧ ∀ a, Guarded (mine.next o a) (k a)

/-- The machine on which a call is a run of its body with no other thread in between. -/
def atomic (T : Type) (body : (b : B) → Task S (Res b)) :
    Machine (Call B S) (Call.Answer Res) T (State T S) where
  step
    | t, .call b, s, r, s' => Runs (machine T S) t (body b) s r s'
    | t, .prim o, s, a, s' => effect t o s a s'
  turn _ s := s

variable {body : (b : B) → Task S (Res b)} {t u : T} {s s' s₁ s₂ sf sf' sc sc' : State T S}
  {held mine : Held S} {o : Op S} {a : Answer S o} {p : Task S α} {r : α} {l : S.Lock}

def Op.Releases : Op S → Prop
  | .release _ _ => True
  | _ => False

theorem twoPhase_op {k : Answer S o → Task S α} (ho : ¬ o.Releases) :
    TwoPhase held (.op o k) ↔ held.fits o ∧ ∀ a, TwoPhase (held.next o a) (k a) := by
  cases o with
  | release l how => exact absurd trivial ho
  | lock l => rfl
  | alloc => rfl
  | act l d => rfl
  | peek l => rfl
  | ask i => rfl

/-- A part that neither takes nor gives back. -/
theorem TwoPhase.acts {p : Task S α} {f : α → Task S β}
    (hp : p.All fun o => (∃ l d, o = .act l d ∧ held l ≠ none) ∨ (∃ l, o = .peek l) ∨
      ∃ i, o = .ask i)
    (hf : ∀ a, TwoPhase held (f a)) : TwoPhase held (p >>= f) := by
  induction p with
  | ret a => exact hf a
  | op o k ih =>
    rcases hp.1 with ⟨l, d, rfl, hl⟩ | ⟨l, rfl⟩ | ⟨i, rfl⟩
    · exact ⟨hl, fun a => ih a (hp.2 a)⟩
    · exact ⟨trivial, fun a => ih a (hp.2 a)⟩
    · exact ⟨trivial, fun a => ih a (hp.2 a)⟩

theorem Shrinking.releases {k : Answer S o → Task S α} (h : Shrinking held (.op o k)) :
    ∃ l how, o = .release l how := by
  cases o with
  | release l how => exact ⟨l, how, rfl⟩
  | lock l => exact h.elim
  | alloc => exact h.elim
  | act l d => exact h.elim
  | peek l => exact h.elim
  | ask i => exact h.elim

/-- An operation is about something that is free or that its thread has taken. -/
theorem effect_owner (hheld : Tied t held s) (hfits : held.fits o) (h : effect t o s a s')
    (hl : target o a = some l) :
    (s l).owner = none ∧ held l = none ∧ ¬ o.Releases ∨ (s l).owner = some t ∧ held l ≠ none := by
  cases o with
  | lock l' =>
    obtain rfl : l' = l := Option.some.inj hl
    exact .inl ⟨h.1, hfits, id⟩
  | alloc =>
    cases a with
    | none => cases hl
    | some p =>
      obtain rfl : S.block p = l := Option.some.inj hl
      refine .inl ⟨h.1, ?_, id⟩
      by_contra hsome
      have howner := hheld.owner hsome
      rw [h.1] at howner
      cases howner
  | release l' how =>
    obtain rfl : l' = l := Option.some.inj hl
    have hsome : held l' ≠ none := by
      rw [show held l' = some how.before from hfits]
      exact Option.some_ne_none _
    exact .inr ⟨hheld.owner hsome, hsome⟩
  | act l' d =>
    obtain rfl : l' = l := Option.some.inj hl
    exact .inr ⟨hheld.owner hfits, hfits⟩
  | peek l' => cases hl
  | ask i => cases hl

theorem effect_touches (hheld : Tied t held s) (hfits : held.fits o) (h : effect t o s a s')
    (hl : s' l ≠ s l) :
    (s l).owner = some t ∨ (s l).owner = none := by
  by_cases htarget : target o a = some l
  · exact (effect_owner hheld hfits h htarget).elim (fun hfree => .inr hfree.1) fun hmine =>
      .inl hmine.1
  · exact absurd (effect_frame h htarget) hl

theorem next_of_ne (held : Held S) (hl : target o a ≠ some l) : held.next o a l = held l := by
  cases o with
  | lock l' => exact Function.update_of_ne (fun heq => hl (congrArg some heq.symm)) ..
  | alloc =>
    cases a with
    | none => rfl
    | some p => exact Function.update_of_ne (fun heq => hl (congrArg some heq.symm)) ..
  | release l' how => exact Function.update_of_ne (fun heq => hl (congrArg some heq.symm)) ..
  | act l' d => rfl
  | peek l' => rfl
  | ask i => rfl

/-- What a program has after an operation it still owns. -/
theorem Tied.next (hheld : Tied t held s) (hfits : held.fits o) (h : effect t o s a s') :
    Tied t (held.next o a) s' := by
  intro l st hst
  by_cases hl : target o a = some l
  · cases o with
    | lock l' =>
      obtain rfl : l' = l := Option.some.inj hl
      obtain ⟨-, hshared, rfl⟩ := h
      have hnew : some Status.shared = some st := by rw [← hst, Held.next, Function.update_self]
      obtain rfl := Option.some.inj hnew
      simp [hshared]
    | alloc =>
      cases a with
      | none => cases hl
      | some p =>
        obtain rfl : S.block p = l := Option.some.inj hl
        obtain ⟨-, -, rfl⟩ := h
        have hnew : some Status.secret = some st := by rw [← hst, Held.next, Function.update_self]
        obtain rfl := Option.some.inj hnew
        simp
    | release l' how =>
      obtain rfl : l' = l := Option.some.inj hl
      rw [Held.next, Function.update_self] at hst
      cases hst
    | act l' d =>
      obtain rfl : l' = l := Option.some.inj hl
      obtain ⟨-, -, -, rfl⟩ := h
      simpa using hheld l' st hst
    | peek l' => cases hl
    | ask i => cases hl
  · rw [next_of_ne held hl] at hst
    rw [effect_frame h hl]
    exact hheld l st hst

theorem next_ne_none (ho : ¬ o.Releases) (hl : held l ≠ none) : held.next o a l ≠ none := by
  by_cases htarget : target o a = some l
  · cases o with
    | lock l' =>
      obtain rfl : l' = l := Option.some.inj htarget
      simp [Held.next]
    | alloc =>
      cases a with
      | none => cases htarget
      | some p =>
        obtain rfl : S.block p = l := Option.some.inj htarget
        simp [Held.next]
    | release l' how => exact absurd trivial ho
    | act l' d => exact hl
    | peek l' => cases htarget
    | ask i => cases htarget
  · rwa [next_of_ne held htarget]

theorem next_target (ho : ¬ o.Releases) (hfits : held.fits o) (hl : target o a = some l) :
    held.next o a l ≠ none := by
  cases o with
  | lock l' =>
    obtain rfl : l' = l := Option.some.inj hl
    simp [Held.next]
  | alloc =>
    cases a with
    | none => cases hl
    | some p =>
      obtain rfl : S.block p = l := Option.some.inj hl
      simp [Held.next]
  | release l' how => exact absurd trivial ho
  | act l' d =>
    obtain rfl : l' = l := Option.some.inj hl
    exact hfits
  | peek l' => cases hl
  | ask i => cases hl

/-- Before it gives something back, an operation shares nothing and changes no fixed part. -/
theorem effect_earlier (ho : ¬ o.Releases) (h : effect t o s a s') (hl : (s' l).status = .shared) :
    (s l).status = .shared ∧ S.fixed l (s' l).data = S.fixed l (s l).data := by
  by_cases htarget : target o a = some l
  · cases o with
    | lock l' =>
      obtain rfl : l' = l := Option.some.inj htarget
      obtain ⟨-, hshared, rfl⟩ := h
      simp [hshared]
    | alloc =>
      cases a with
      | none => cases htarget
      | some p =>
        obtain rfl : S.block p = l := Option.some.inj htarget
        obtain ⟨-, -, rfl⟩ := h
        simp at hl
    | release l' how => exact absurd trivial ho
    | act l' d =>
      obtain rfl : l' = l := Option.some.inj htarget
      obtain ⟨-, -, hfixed, rfl⟩ := h
      have hshared : (s l').status = .shared := by simpa using hl
      simp [hshared, hfixed hshared]
    | peek l' => cases htarget
    | ask i => cases htarget
  · have hsame := effect_frame h htarget
    rw [hsame] at hl ⊢
    exact ⟨hl, rfl⟩

/-- The state `s` with one lock as `s'` has it. -/
def carry (s s' : State T S) (at_ : Option S.Lock) : State T S :=
  fun l => if at_ = some l then s' l else s l

theorem carry_none (s s' : State T S) : carry s s' none = s := by
  funext l
  exact if_neg (by simp)

theorem carry_put (s s' : State T S) (l : S.Lock) (slot : Slot T (S.Data l)) :
    carry s (s'.put l slot) (some l) = s.put l slot := by
  funext l'
  by_cases hl : l' = l
  · subst hl
    rw [carry, if_pos rfl, State.put, State.put, Function.update_self, Function.update_self]
  · rw [carry, if_neg fun heq => hl (Option.some.inj heq).symm, State.put, Function.update_of_ne hl]

/-- An operation does the same wherever what it is about is the same. -/
theorem effect_transfer (hlater : Later s₁ s₂) (hsame : ∀ l, target o a = some l → s₁ l = s₂ l)
    (h : effect t o s₁ a s') : effect t o s₂ a (carry s₂ s' (target o a)) := by
  cases o with
  | lock l =>
    obtain ⟨hfree, hshared, rfl⟩ := h
    rw [target, carry_put, hsame l rfl]
    rw [hsame l rfl] at hfree hshared
    exact ⟨hfree, hshared, rfl⟩
  | alloc =>
    cases a with
    | none => exact carry_none s₂ s'
    | some p =>
      obtain ⟨hfree, habsent, rfl⟩ := h
      rw [target, Option.map_some, carry_put]
      rw [hsame (S.block p) rfl] at hfree habsent
      exact ⟨hfree, habsent, rfl⟩
  | release l how =>
    obtain ⟨hstatus, rfl⟩ := h
    rw [target, carry_put, hsame l rfl]
    rw [hsame l rfl] at hstatus
    exact ⟨hstatus, rfl⟩
  | act l d =>
    obtain ⟨hthere, rfl, hfixed, rfl⟩ := h
    rw [target, carry_put, hsame l rfl]
    rw [hsame l rfl] at hthere hfixed
    exact ⟨hthere, rfl, hfixed, rfl⟩
  | peek l =>
    obtain ⟨hshared, rfl, rfl⟩ := h
    exact ⟨(hlater l hshared).1, (hlater l hshared).2.symm, carry_none s₂ s'⟩
  | ask i => exact carry_none s₂ s'

theorem runs_later (h : Runs (machine T S) t p s r s') : Later s s' := by
  induction h with
  | ret a s => exact .refl s
  | op hstep _ ih => exact (effect_later hstep).trans ih

/-! Giving back is a matter of the program alone. -/

def finish : Task S α → State T S → Option (α × State T S)
  | .ret a, s => some (a, s)
  | .op (.release l how) k, s =>
    if (s l).status = how.before then finish (k ()) (s.put l ((s l).release how)) else none
  | .op _ _, _ => none

theorem finish_release {how : Release} {k : Unit → Task S α} (hstatus : (s l).status = how.before) :
    finish (.op (.release l how) k) s = finish (k ()) (s.put l ((s l).release how)) :=
  if_pos hstatus

theorem finish_runs (h : finish p s = some (r, s')) : Runs (machine T S) t p s r s' := by
  induction p generalizing s with
  | ret a =>
    cases h
    exact .ret _ _
  | op o k ih =>
    cases o with
    | release l how =>
      rw [finish] at h
      split at h
      · rename_i hstatus
        exact .op ⟨hstatus, rfl⟩ (ih () h)
      · cases h
    | lock l => cases h
    | alloc => cases h
    | act l d => cases h
    | peek l => cases h
    | ask i => cases h

theorem finish_some (hp : Shrinking held p) (hheld : Tied t held s) :
    ∃ r s', finish p s = some (r, s') := by
  induction p generalizing held s with
  | ret a => exact ⟨a, s, rfl⟩
  | op o k ih =>
    obtain ⟨l, how, rfl⟩ := hp.releases
    obtain ⟨hl, hrest⟩ := hp
    have hstatus := (hheld l _ hl).2
    rw [finish_release hstatus]
    exact ih () hrest (hheld.next (o := .release l how) (a := ()) hl ⟨hstatus, rfl⟩)

theorem finish_frame (hp : Shrinking held p) (h : finish p s = some (r, s')) (hl : held l = none) :
    s' l = s l := by
  induction p generalizing held s with
  | ret a =>
    cases h
    rfl
  | op o k ih =>
    obtain ⟨l', how, rfl⟩ := hp.releases
    obtain ⟨hl', hrest⟩ := hp
    have hne : l ≠ l' := by
      rintro rfl
      rw [hl'] at hl
      cases hl
    rw [finish] at h
    split at h
    · rw [ih () hrest h ((Function.update_of_ne hne ..).trans hl), State.put,
        Function.update_of_ne hne]
    · cases h

theorem finish_congr (hp : Shrinking held p) (hsame : ∀ l, held l ≠ none → s₂ l = s₁ l)
    (h : finish p s₁ = some (r, s')) :
    ∃ s'', finish p s₂ = some (r, s'') ∧ ∀ l, held l ≠ none → s'' l = s' l := by
  induction p generalizing held s₁ s₂ with
  | ret a =>
    cases h
    exact ⟨s₂, rfl, hsame⟩
  | op o k ih =>
    obtain ⟨l, how, rfl⟩ := hp.releases
    obtain ⟨hl, hrest⟩ := hp
    have hhere : s₂ l = s₁ l := hsame l (by rw [hl]; exact Option.some_ne_none _)
    rw [finish] at h
    split at h
    · rename_i hstatus
      have hsame' : ∀ l', Function.update held l none l' ≠ none →
          s₂.put l ((s₂ l).release how) l' = s₁.put l ((s₁ l).release how) l' := by
        intro l' hl'
        have hne : l' ≠ l := by
          rintro rfl
          exact hl' (Function.update_self ..)
        rw [Function.update_of_ne hne] at hl'
        rw [State.put, State.put, Function.update_of_ne hne, Function.update_of_ne hne,
          hsame l' hl']
      obtain ⟨s'', hfinish, hrest'⟩ := ih () hrest hsame' h
      refine ⟨s'', by rw [finish_release (by rw [hhere, hstatus]), hfinish], fun l' hl' => ?_⟩
      by_cases hne : l' = l
      · subst hne
        have hnone : Function.update held l' none l' = none := Function.update_self ..
        rw [finish_frame hrest hfinish hnone, finish_frame hrest h hnone, State.put, State.put,
          Function.update_self, Function.update_self, hhere]
      · exact hrest' l' (by rwa [Function.update_of_ne hne])
    · cases h

/-! The simulation. A call takes place when its body gives something back for the first
time, or at its end if it never does. Until then its thread's own state is what the body
would have made of the rest by itself; from then on it is on its way to what the call has
already left. -/

/-- How the program of a thread stands to the program with atomic calls. -/
inductive Phase (body : (b : B) → Task S (Res b)) (t : T) (sf sc : State T S) :
    Held S → Option (Task S (Option Loc)) → Option (Client Res S (Option Loc)) → Prop where
  | left : Phase body t sf sc .nothing none none
  | apart {mine : Held S} {q : Client Res S (Option Loc)} (hmine : Tied t mine sf)
      (hq : q.Guarded mine) :
      Phase body t sf sc .nothing (some (q.compile body)) (some q)
  | growing {mine held : Held S} {b : B}
      {k : Res b → Client Res S (Option Loc)} {o : Op S} {rest : Answer S o → Task S (Res b)}
      (hmine : Tied t mine sf) (hheld : Tied t held sf)
      (hapart : ∀ l, held l ≠ none → mine l = none)
      (hk : ∀ r, (k r).Guarded mine) (hbody : TwoPhase held (.op o rest))
      (hrun : ∀ s, Later sc s → (∀ l, held l ≠ none → s l = sc l) → ∀ r s',
        Runs (machine T S) t (.op o rest) (overlay held sf s) r s' →
          Runs (machine T S) t (body b) s r s') :
      Phase body t sf sc held (some (.op o fun a => rest a >>= fun r => (k r).compile body))
        (some (.op (.call b) k))
  | shrinking {mine held : Held S} {b : B} {k : Res b → Client Res S (Option Loc)} {o : Op S}
      {rest : Answer S o → Task S (Res b)} {r : Res b} {s' : State T S}
      (hmine : Tied t mine sf) (hheld : Tied t held sf)
      (hapart : ∀ l, held l ≠ none → mine l = none)
      (hk : (k r).Guarded mine) (hbody : Shrinking held (.op o rest))
      (hfinish : finish (.op o rest) sf = some (r, s'))
      (hsame : ∀ l, held l ≠ none → s' l = sc l) :
      Phase body t sf sc held (some (.op o fun a => rest a >>= fun r => (k r).compile body))
        (some (k r))

/-- The threads with their calls written out, and the threads with atomic calls. -/
structure Simulates (body : (b : B) → Task S (Res b)) (held : T → Held S)
    (c : Config (Op S) (Answer S) T (State T S) Loc)
    (c' : Config (Call B S) (Call.Answer Res) T (State T S) Loc) : Prop where
  later : Later c.state c'.state
  agree : ∀ l, (∀ t, held t l = none) → c.state l = c'.state l
  phase : ∀ t, Phase body t c.state c'.state (held t) (c.thread t) (c'.thread t)

variable {P : Option (Task S (Option Loc))} {G : Option (Client Res S (Option Loc))}
  {q q' : Client Res S (Option Loc)}

theorem Phase.tied (h : Phase body t sf sc held P G) : Tied t held sf := by
  cases h with
  | left => exact tied_nothing t sf
  | apart => exact tied_nothing t sf
  | growing _ hheld => exact hheld
  | shrinking _ hheld => exact hheld

/-- The others leave a thread where it stands. -/
theorem Phase.of_same (h : Phase body t sf sc held P G)
    (hfine : ∀ l, (sf l).owner = some t → sf' l = sf l)
    (hcoarse : ∀ l, held l ≠ none → sc' l = sc l) (hlater : Later sc sc') :
    Phase body t sf' sc' held P G := by
  have hkeep : ∀ {mine : Held S}, Tied t mine sf → Tied t mine sf' :=
    fun hmine => hmine.of_same fun l hl => hfine l (hmine.owner hl)
  cases h with
  | left => exact .left
  | apart hmine hq => exact .apart (hkeep hmine) hq
  | growing hmine hheld hapart hk hbody hrun =>
    refine .growing (hkeep hmine) (hkeep hheld) hapart hk hbody fun s hs hsame r s' hruns => ?_
    refine hrun s (hlater.trans hs) (fun l hl => (hsame l hl).trans (hcoarse l hl)) r s' ?_
    have hover : overlay held sf' s = overlay held sf s := by
      funext l
      by_cases hl : held l = none
      · rw [overlay, overlay, if_pos hl, if_pos hl]
      · rw [overlay, overlay, if_neg hl, if_neg hl, hfine l (hheld.owner hl)]
    rwa [hover] at hruns
  | shrinking hmine hheld hapart hk hbody hfinish hsame =>
    obtain ⟨s'', hfinish', hsame'⟩ :=
      finish_congr hbody (fun l hl => hfine l (hheld.owner hl)) hfinish
    refine .shrinking (hkeep hmine) (hkeep hheld) hapart hk hbody hfinish' fun l hl => ?_
    rw [hsame' l hl, hsame l hl, hcoarse l hl]

/-- What a thread does, and what it does with atomic calls. -/
structure Advance (body : (b : B) → Task S (Res b)) (t : T) (sf sc sf' : State T S) (held : Held S)
    (P : Option (Task S (Option Loc))) (q : Client Res S (Option Loc)) (held' : Held S)
    (sc' : State T S) (q' : Client Res S (Option Loc)) : Prop where
  moves : q' = q ∧ sc' = sc ∨ ∃ o k a, q = .op o k ∧ (atomic T body).step t o sc a sc' ∧ q' = k a
  phase : Phase body t sf' sc' held' P (some q')
  later : Later sf' sc'
  since : Later sc sc'
  agree : ∀ l, held' l = none → (held l = none → sf l = sc l) → sf' l = sc' l
  own : ∀ l, sf' l ≠ sf l ∨ sc' l ≠ sc l → (sf l).owner = some t ∨ (sf l).owner = none

/-- The program of the thread when what it takes for granted of its own is the same. -/
theorem Tied.effect (hmine : Tied t mine s) (hheld : Tied t held s)
    (hapart : ∀ l, held l ≠ none → mine l = none) (hfits : held.fits o) (h : effect t o s a s') :
    Tied t mine s' := by
  refine hmine.of_same fun l hl => effect_frame h fun htarget => ?_
  rcases effect_owner hheld hfits h htarget with ⟨hfree, -, -⟩ | ⟨-, hsome⟩
  · rw [hmine.owner hl] at hfree
    cases hfree
  · exact hl (hapart l hsome)

theorem Tied.apart (hmine : Tied t mine s) (hheld : Tied t held s)
    (hapart : ∀ l, held l ≠ none → mine l = none) (hfits : held.fits o)
    (h : Locks.effect t o s a s') (hl : held.next o a l ≠ none) : mine l = none := by
  by_cases htarget : target o a = some l
  · rcases effect_owner hheld hfits h htarget with ⟨hfree, -, -⟩ | ⟨-, hsome⟩
    · by_contra hnot
      rw [hmine.owner hnot] at hfree
      cases hfree
    · exact hapart l hsome
  · rw [next_of_ne held htarget] at hl
    exact hapart l hl

/-- An operation outside of any call. -/
theorem advance_prim (hlater : Later sf sc)
    (hagree : ∀ l, (sf l).owner = some t ∨ (sf l).owner = none → sf l = sc l)
    (hmine : Tied t mine sf) {k : Answer S o → Client Res S (Option Loc)} (hfits : mine.fits o)
    (hk : ∀ a, (k a).Guarded (mine.next o a)) (hstep : effect t o sf a sf') :
    ∃ sc', Advance body t sf sc sf' .nothing (some ((k a).compile body))
      (.op (.prim o) k) .nothing sc' (k a) := by
  let sc' : State T S := carry sc sf' (target o a)
  have hown : ∀ l, target o a = some l → (sf l).owner = some t ∨ (sf l).owner = none := fun l hl =>
    (effect_owner hmine hfits hstep hl).elim (fun h => .inr h.1) fun h => .inl h.1
  have hcoarse : effect t o sc a sc' :=
    effect_transfer hlater (fun l hl => hagree l (hown l hl)) hstep
  have hhere : ∀ l, target o a = some l → sc' l = sf' l := fun l hl => if_pos hl
  have helse : ∀ l, target o a ≠ some l → sc' l = sc l := fun l hl => if_neg hl
  refine ⟨sc', .inr ⟨.prim o, k, a, rfl, hcoarse, rfl⟩, .apart (hmine.next hfits hstep) (hk a), ?_,
    effect_later hcoarse, ?_, ?_⟩
  · intro l hl
    by_cases htarget : target o a = some l
    · rw [hhere l htarget]
      exact ⟨hl, rfl⟩
    · rw [helse l htarget]
      rw [effect_frame hstep htarget] at hl ⊢
      exact hlater l hl
  · intro l _ hsame
    by_cases htarget : target o a = some l
    · rw [hhere l htarget]
    · rw [helse l htarget, effect_frame hstep htarget, hsame rfl]
  · intro l hne
    rcases hne with hne | hne
    · exact effect_touches hmine hfits hstep hne
    · by_cases htarget : target o a = some l
      · exact hown l htarget
      · exact absurd (helse l htarget) hne

/-- A step before anything is given back is a step of the thread's own run. -/
theorem effect_overlay (ho : ¬ o.Releases) (hfits : held.fits o) (hlater : Later sf s)
    (hfree : ∀ l, target o a = some l → held l = none → s l = sf l) (hstep : effect t o sf a sf') :
    effect t o (overlay held sf s) a (overlay (held.next o a) sf' s) := by
  have hover : Later sf (overlay held sf s) := by
    intro l hl
    by_cases hnone : held l = none
    · rw [overlay_of_none hnone]
      exact hlater l hl
    · rw [overlay_of_ne hnone]
      exact ⟨hl, rfl⟩
  have hsame : ∀ l, target o a = some l → sf l = overlay held sf s l := by
    intro l hl
    by_cases hnone : held l = none
    · rw [overlay_of_none hnone, hfree l hl hnone]
    · rw [overlay_of_ne hnone]
  have htransfer := effect_transfer hover hsame hstep
  have heq : carry (overlay held sf s) sf' (target o a) = overlay (held.next o a) sf' s := by
    funext l
    by_cases htarget : target o a = some l
    · rw [carry, if_pos htarget, overlay_of_ne (next_target ho hfits htarget)]
    · rw [carry, if_neg htarget, overlay, overlay, next_of_ne held htarget,
        effect_frame hstep htarget]
  rwa [heq] at htransfer

section

variable {b : B} {k : Res b → Client Res S (Option Loc)} {rest : Answer S o → Task S (Res b)}

/-- A step of a call that has not given anything back. -/
theorem advance_growing (hlater : Later sf sc)
    (hagree : ∀ l, held l = none → (sf l).owner = none → sf l = sc l) (hmine : Tied t mine sf)
    (hheld : Tied t held sf) (hapart : ∀ l, held l ≠ none → mine l = none)
    (hk : ∀ r, (k r).Guarded mine) (ho : ¬ o.Releases) (hfits : held.fits o)
    (hbody : ∀ a, TwoPhase (held.next o a) (rest a))
    (hrun : ∀ s, Later sc s → (∀ l, held l ≠ none → s l = sc l) → ∀ r s',
      Runs (machine T S) t (.op o rest) (overlay held sf s) r s' →
        Runs (machine T S) t (body b) s r s')
    (hstep : effect t o sf a sf') :
    ∃ held' q', Advance body t sf sc sf' held (some (rest a >>= fun r => (k r).compile body))
      (.op (.call b) k) held' sc q' := by
  have hlater' : Later sf' sc := fun l hl => by
    obtain ⟨hshared, hfixed⟩ := effect_earlier ho hstep hl
    exact ⟨(hlater l hshared).1, (hlater l hshared).2.trans hfixed.symm⟩
  have hagree' : ∀ l, held.next o a l = none → (held l = none → sf l = sc l) → sf' l = sc l := by
    intro l hnone hsame
    have htarget : target o a ≠ some l := fun htarget => next_target ho hfits htarget hnone
    rw [next_of_ne held htarget] at hnone
    rw [effect_frame hstep htarget, hsame hnone]
  have hrun' : ∀ s, Later sc s → (∀ l, held.next o a l ≠ none → s l = sc l) → ∀ r s',
      Runs (machine T S) t (rest a) (overlay (held.next o a) sf' s) r s' →
        Runs (machine T S) t (body b) s r s' := by
    intro s hs hsame r s' hruns
    refine hrun s hs (fun l hl => hsame l (next_ne_none ho hl)) r s'
      (.op (effect_overlay ho hfits (hlater.trans hs) ?_ hstep) hruns)
    intro l hl hnone
    have hfree : (sf l).owner = none :=
      (effect_owner hheld hfits hstep hl).elim (fun h => h.1) fun h => absurd hnone h.2
    rw [hsame l (next_target ho hfits hl), hagree l hnone hfree]
  have hmine' : Tied t mine sf' := hmine.effect hheld hapart hfits hstep
  have hown : ∀ l, sf' l ≠ sf l ∨ sc l ≠ sc l → (sf l).owner = some t ∨ (sf l).owner = none :=
    fun l hne => effect_touches hheld hfits hstep (hne.resolve_right fun hnot => hnot rfl)
  have hbody' := hbody a
  generalize rest a = p at hbody' hrun' ⊢
  cases p with
  | ret r =>
    -- The body is over and gave nothing back: the call takes place now.
    have hover : overlay (held.next o a) sf' sc = sc := by
      funext l
      exact overlay_of_none (hbody' l)
    have hcall : Runs (machine T S) t (body b) sc r sc := by
      refine hrun' sc (.refl sc) (fun l _ => rfl) r sc ?_
      rw [hover]
      exact .ret r sc
    exact ⟨.nothing, k r, .inr ⟨.call b, k, r, rfl, hcall, rfl⟩, .apart hmine' (hk r),
      hlater', .refl sc,
      fun l _ hsame => hagree' l (hbody' l) hsame, hown⟩
  | op o' rest' =>
    exact ⟨held.next o a, .op (.call b) k, .inl ⟨rfl, rfl⟩,
      .growing hmine' (hheld.next hfits hstep) (fun l hl =>
        hmine.apart hheld hapart hfits hstep hl) hk hbody' hrun',
      hlater', .refl sc, hagree', hown⟩

/-- What is left of a call that has given something back. -/
theorem phase_shrinking {p : Task S (Res b)} {r : Res b} (hmine : Tied t mine sf')
    (hheld : Tied t held sf') (hapart : ∀ l, held l ≠ none → mine l = none)
    (hk : (k r).Guarded mine) (hbody : Shrinking held p) (hfinish : finish p sf' = some (r, s'))
    (hsame : ∀ l, held l ≠ none → s' l = sc' l) :
    Phase body t sf' sc' held (some (p >>= fun r => (k r).compile body)) (some (k r)) := by
  cases p with
  | ret r' =>
    obtain rfl : held = Held.nothing := funext hbody
    cases hfinish
    exact .apart hmine hk
  | op o rest => exact .shrinking hmine hheld hapart hk hbody hfinish hsame

theorem update_none_ne {l' : S.Lock} (h : Function.update held l none l' ≠ none) :
    l' ≠ l ∧ held l' ≠ none := by
  have hne : l' ≠ l := by
    rintro rfl
    exact h (Function.update_self ..)
  rw [Function.update_of_ne hne] at h
  exact ⟨hne, h⟩

variable {how : Release} {rest : Unit → Task S (Res b)}

/-- The first step that gives something back: the call takes place. -/
theorem advance_commit (hlater : Later sf sc) (hmine : Tied t mine sf) (hheld : Tied t held sf)
    (hapart : ∀ l, held l ≠ none → mine l = none) (hk : ∀ r, (k r).Guarded mine)
    (hl : held l = some how.before) (hbody : Shrinking (Function.update held l none) (rest ()))
    (hrun : ∀ s, Later sc s → (∀ l, held l ≠ none → s l = sc l) → ∀ r s',
      Runs (machine T S) t (.op (.release l how) rest) (overlay held sf s) r s' →
        Runs (machine T S) t (body b) s r s')
    (hstep : effect t (.release l how) sf () sf') :
    ∃ held' sc' q', Advance body t sf sc sf' held (some (rest () >>= fun r => (k r).compile body))
      (.op (.call b) k) held' sc' q' := by
  have hhere : held l ≠ none := by
    rw [hl]
    exact Option.some_ne_none _
  have hwhole : Shrinking held (.op (.release l how) rest) := ⟨hl, hbody⟩
  have hover : Tied t held (overlay held sf sc) := hheld.of_same fun l hl => overlay_of_ne hl
  obtain ⟨r, s', hfinish⟩ := finish_some hwhole hover
  have hcall := hrun sc (.refl sc) (fun _ _ => rfl) r s' (finish_runs hfinish)
  obtain ⟨hstatus, rfl⟩ := hstep
  have hslot : overlay held sf sc l = sf l := overlay_of_ne hhere
  have hfinish' := hfinish
  rw [finish_release (by rw [hslot, hstatus]), hslot] at hfinish'
  have hrests : ∀ l', Function.update held l none l' ≠ none →
      sf.put l ((sf l).release how) l' = (overlay held sf sc).put l ((sf l).release how) l' := by
    intro l' hl'
    obtain ⟨hne, hsome⟩ := update_none_ne hl'
    rw [State.put, State.put, Function.update_of_ne hne, Function.update_of_ne hne,
      overlay_of_ne hsome]
  obtain ⟨s'', hrest, hsame⟩ := finish_congr hbody hrests hfinish'
  have hgone : s' l = (sf l).release how := by
    rw [finish_frame hbody hfinish' (Function.update_self ..), State.put, Function.update_self]
  have hframe : ∀ l', held l' = none → s' l' = sc l' := fun l' hnone => by
    rw [finish_frame hwhole hfinish hnone, overlay_of_none hnone]
  have hstep : effect t (.release l how) sf () (sf.put l ((sf l).release how)) := ⟨hstatus, rfl⟩
  refine ⟨Function.update held l none, s', k r, .inr ⟨.call b, k, r, rfl, hcall, rfl⟩,
    phase_shrinking (hmine.effect (o := .release l how) hheld hapart hl hstep)
      (hheld.next (o := .release l how) (a := ()) hl hstep)
      (fun l' hl' => hapart l' (update_none_ne hl').2) (hk r) hbody hrest hsame, ?_,
        runs_later hcall, ?_, ?_⟩
  · intro l' hl'
    by_cases hne : l' = l
    · subst hne
      rw [hgone, State.put, Function.update_self]
      rw [State.put, Function.update_self] at hl'
      exact ⟨hl', rfl⟩
    · rw [State.put, Function.update_of_ne hne] at hl' ⊢
      exact hlater.trans (runs_later hcall) l' hl'
  · intro l' hnone hagree
    by_cases hne : l' = l
    · subst hne
      rw [hgone, State.put, Function.update_self]
    · rw [Function.update_of_ne hne] at hnone
      rw [State.put, Function.update_of_ne hne, hagree hnone, hframe l' hnone]
  · intro l' hne
    rcases hne with hne | hne
    · exact effect_touches (o := .release l how) (a := ()) hheld hl hstep hne
    · exact .inl (hheld.owner fun hnone => hne (hframe l' hnone))

/-- A further step that gives something back. -/
theorem advance_shrinking {r : Res b} (hlater : Later sf sc) (hmine : Tied t mine sf)
    (hheld : Tied t held sf) (hapart : ∀ l, held l ≠ none → mine l = none) (hk : (k r).Guarded mine)
    (hl : held l = some how.before) (hbody : Shrinking (Function.update held l none) (rest ()))
    (hfinish : finish (.op (.release l how) rest) sf = some (r, s'))
    (hsame : ∀ l, held l ≠ none → s' l = sc l) (hstep : effect t (.release l how) sf () sf') :
    ∃ held', Advance body t sf sc sf' held (some (rest () >>= fun r => (k r).compile body))
      (k r) held' sc (k r) := by
  have hhere : held l ≠ none := by
    rw [hl]
    exact Option.some_ne_none _
  have hstep' := hstep
  obtain ⟨hstatus, rfl⟩ := hstep
  rw [finish_release hstatus] at hfinish
  have hgone : (sf l).release how = sc l := by
    rw [← hsame l hhere, finish_frame hbody hfinish (Function.update_self ..), State.put,
      Function.update_self]
  refine ⟨Function.update held l none, .inl ⟨rfl, rfl⟩,
    phase_shrinking (hmine.effect (o := .release l how) hheld hapart hl hstep')
      (hheld.next (o := .release l how) (a := ()) hl hstep')
      (fun l' hl' => hapart l' (update_none_ne hl').2) hk hbody hfinish fun l' hl' =>
        hsame l' (update_none_ne hl').2,
    ?_, .refl sc, ?_, fun l' hne =>
      effect_touches (o := .release l how) (a := ()) hheld hl hstep'
      (hne.resolve_right fun hnot => hnot rfl)⟩
  · intro l' hl'
    by_cases hne : l' = l
    · subst hne
      rw [State.put, Function.update_self] at hl' ⊢
      rw [← hgone]
      exact ⟨hl', rfl⟩
    · rw [State.put, Function.update_of_ne hne] at hl' ⊢
      exact hlater l' hl'
  · intro l' hnone hagree
    by_cases hne : l' = l
    · subst hne
      rw [State.put, Function.update_self, hgone]
    · rw [Function.update_of_ne hne] at hnone
      rw [State.put, Function.update_of_ne hne, hagree hnone]

end

/-- A step of a call that has not taken place. -/
theorem advance_open {b : B} {k : Res b → Client Res S (Option Loc)}
    {rest : Answer S o → Task S (Res b)} (hlater : Later sf sc)
    (hagree : ∀ l, held l = none → (sf l).owner = some t ∨ (sf l).owner = none → sf l = sc l)
    (hmine : Tied t mine sf) (hheld : Tied t held sf) (hapart : ∀ l, held l ≠ none → mine l = none)
    (hk : ∀ r, (k r).Guarded mine) (hbody : TwoPhase held (.op o rest))
    (hrun : ∀ s, Later sc s → (∀ l, held l ≠ none → s l = sc l) → ∀ r s',
      Runs (machine T S) t (.op o rest) (overlay held sf s) r s' →
        Runs (machine T S) t (body b) s r s')
    (hstep : effect t o sf a sf') :
    ∃ held' sc' q', Advance body t sf sc sf' held (some (rest a >>= fun r => (k r).compile body))
      (.op (.call b) k) held' sc' q' := by
  by_cases ho : o.Releases
  · cases o with
    | release l how => exact advance_commit hlater hmine hheld hapart hk hbody.1 hbody.2 hrun hstep
    | lock l => exact ho.elim
    | alloc => exact ho.elim
    | act l d => exact ho.elim
    | peek l => exact ho.elim
    | ask i => exact ho.elim
  · obtain ⟨hfits, hnext⟩ := (twoPhase_op ho).mp hbody
    obtain ⟨held', q', hadvance⟩ :=
      advance_growing hlater (fun l hl hfree => hagree l hl (.inr hfree)) hmine hheld hapart hk ho
        hfits hnext hrun hstep
    exact ⟨held', sc, q', hadvance⟩

/-- Whatever a thread does, it might do with atomic calls. -/
theorem Phase.advance (hbody : ∀ b, TwoPhase .nothing (body b) ∧ ∀ r, body b ≠ .ret r)
    {k : Answer S o → Task S (Option Loc)} (h : Phase body t sf sc held (some (.op o k)) G)
    (hlater : Later sf sc) (hagree : ∀ l, held l = none → (sf l).owner = some t ∨
      (sf l).owner = none → sf l = sc l) (hstep : effect t o sf a sf') :
    ∃ q held' sc' q', G = some q ∧ Advance body t sf sc sf' held (some (k a)) q held' sc' q' := by
  generalize hP : (some (.op o k) : Option (Task S (Option Loc))) = P at h
  cases h with
  | left => cases hP
  | apart hmine hq =>
    rename_i mine q
    cases q with
    | ret r => cases hP
    | op call kq =>
      cases call with
      | prim o' =>
        cases hP
        obtain ⟨sc', hadvance⟩ :=
          advance_prim hlater (fun l hl => hagree l rfl hl) hmine hq.1 hq.2 hstep
        exact ⟨_, _, sc', _, rfl, hadvance⟩
      | call b =>
        obtain ⟨htwo, hops⟩ := hbody b
        rw [Client.compile] at hP
        cases hb : body b with
        | ret r => exact absurd hb (hops r)
        | op o rest =>
          rw [hb] at hP htwo
          cases hP
          have hk : ∀ r, Client.Guarded mine (kq r) := hq
          have hrun : ∀ s, Later sc s → (∀ l, Held.nothing l ≠ none → s l = sc l) → ∀ r s',
              Runs (machine T S) t (.op o rest) (overlay .nothing sf s) r s' →
                Runs (machine T S) t (body b) s r s' := by
            intro s _ _ r s' hruns
            rw [hb]
            exact hruns
          obtain ⟨held', sc', q', hadvance⟩ :=
            advance_open hlater hagree hmine (tied_nothing t sf)
              (fun l hl => absurd rfl hl) hk htwo hrun hstep
          exact ⟨_, held', sc', q', rfl, hadvance⟩
  | growing hmine hheld hapart hk htwo hrun =>
    cases hP
    obtain ⟨held', sc', q', hadvance⟩ :=
      advance_open hlater hagree hmine hheld hapart hk htwo hrun hstep
    exact ⟨_, held', sc', q', rfl, hadvance⟩
  | shrinking hmine hheld hapart hk hrest hfinish hsame =>
    cases hP
    obtain ⟨l, how, rfl⟩ := hrest.releases
    obtain ⟨held', hadvance⟩ :=
      advance_shrinking hlater hmine hheld hapart hk hrest.1 hrest.2 hfinish hsame hstep
    exact ⟨_, held', sc, _, rfl, hadvance⟩

theorem Phase.of_ret (hbody : ∀ b r, body b ≠ .ret r) {next : Option Loc}
    (h : Phase body t sf sc held (some (.ret next)) G) :
    held = .nothing ∧ G = some (.ret next) := by
  generalize hP : (some (.ret next) : Option (Task S (Option Loc))) = P at h
  cases h with
  | left => cases hP
  | apart hmine hq =>
    rename_i mine q
    refine ⟨rfl, ?_⟩
    cases q with
    | ret r =>
      cases hP
      rfl
    | op call kq =>
      cases call with
      | prim o' => cases hP
      | call b =>
        rw [Client.compile] at hP
        cases hb : body b with
        | ret r => exact absurd hb (hbody b r)
        | op o' rest =>
          rw [hb] at hP
          cases hP
  | growing => cases hP
  | shrinking => cases hP

theorem Phase.of_left (h : Phase body t sf sc held none G) : G = none := by
  cases h with
  | left => rfl

variable {c : Config (Op S) (Answer S) T (State T S) Loc}
  {c' : Config (Call B S) (Call.Answer Res) T (State T S) Loc} {helds : T → Held S}

/-- What nobody has in their hands is the same. -/
theorem Simulates.free (h : Simulates body helds c c') (hl : (c.state l).owner = none) :
    c'.state l = c.state l := by
  refine (h.agree l fun t => ?_).symm
  by_contra hsome
  rw [(h.phase t).tied.owner hsome] at hl
  cases hl

variable [DecidableEq T] {prog : T → Loc → Client Res S (Option Loc)}
  {c₂ : Config (Op S) (Answer S) T (State T S) Loc}

section

variable {Op' St : Type} {Ans : Op' → Type}

theorem put_thread_self (c : Config Op' Ans T St Loc) (p : Option (Prog Op' Ans (Option Loc)))
    (s : St) (hu : u = t) :
    (c.put t p s).thread u = p := if_pos hu

theorem put_thread_other (c : Config Op' Ans T St Loc) (p : Option (Prog Op' Ans (Option Loc)))
    (s : St) (hu : u ≠ t) :
    (c.put t p s).thread u = c.thread u := if_neg hu

theorem put_self {c : Config Op' Ans T St Loc} {p : Option (Prog Op' Ans (Option Loc))}
    (h : c.thread t = p) : c.put t p c.state = c := by
  have hthread : (c.put t p c.state).thread = c.thread := by
    funext u
    by_cases hu : u = t
    · rw [put_thread_self c p c.state hu, hu, h]
    · rw [put_thread_other c p c.state hu]
  calc c.put t p c.state = ⟨c.state, (c.put t p c.state).thread⟩ := rfl
    _ = c := by rw [hthread]

end

/-- Where one thread has moved on and the others stand where they stood. -/
theorem Simulates.put (h : Simulates body helds c c') {held' : Held S}
    {P : Option (Task S (Option Loc))} {G : Option (Client Res S (Option Loc))}
    (hphase : Phase body t sf' sc' held' P G) (hlater : Later sf' sc') (hsince : Later c'.state sc')
    (hagree : ∀ l, held' l = none → (helds t l = none → c.state l = c'.state l) → sf' l = sc' l)
    (hown : ∀ l, sf' l ≠ c.state l ∨ sc' l ≠ c'.state l → (c.state l).owner = some t ∨
      (c.state l).owner = none) :
    Simulates body (Function.update helds t held') (c.put t P sf') (c'.put t G sc') := by
  refine ⟨hlater, fun l hl => ?_, fun u => ?_⟩
  · have hnone := hl t
    rw [Function.update_self] at hnone
    refine hagree l hnone fun hself => h.agree l fun u => ?_
    by_cases hu : u = t
    · rw [hu, hself]
    · have hother := hl u
      rwa [Function.update_of_ne hu] at hother
  · by_cases hu : u = t
    · subst hu
      rw [Function.update_self, put_thread_self c P sf' rfl, put_thread_self c' G sc' rfl]
      exact hphase
    · have hnot : ∀ l, (c.state l).owner = some u → ¬ (sf' l ≠ c.state l ∨ sc' l ≠ c'.state l) := by
        intro l howner hne
        rcases hown l hne with hsame | hfree
        · exact hu (Option.some.inj (howner.symm.trans hsame))
        · rw [howner] at hfree
          cases hfree
      have hthere := h.phase u
      have hmoved := hthere.of_same (fun l hl => not_not.mp fun hne => hnot l hl (.inl hne))
        (fun l hl => not_not.mp fun hne => hnot l (hthere.tied.owner hl) (.inr hne)) hsince
      rw [Function.update_of_ne hu, put_thread_other c P sf' hu, put_thread_other c' G sc' hu]
      exact hmoved

theorem Simulates.step (hbody : ∀ b, TwoPhase .nothing (body b) ∧ ∀ r, body b ≠ .ret r)
    (hprog : ∀ t l, (prog t l).Guarded .nothing) (h : Simulates body helds c c')
    (hstep : Config.Step (machine T S) (fun t l => (prog t l).compile body) c c₂) :
    ∃ helds' c₂', Config.Reachable (atomic T body) prog c' c₂' ∧ Simulates body helds' c₂ c₂' := by
  have hturn : ∀ {t : T} {next : Option Loc} {P : Option (Task S (Option Loc))}
    {G : Option (Client Res S (Option Loc))},
      c.thread t = some (.ret next) → Phase body t c.state c'.state .nothing P G →
      c'.thread t = some (.ret next) ∧
        Simulates body (Function.update helds t .nothing) (c.put t P c.state)
          (c'.put t G c'.state) := by
    intro t next P G ht hphase
    have hthere := h.phase t
    rw [ht] at hthere
    obtain ⟨hnothing, hG⟩ := hthere.of_ret fun b => (hbody b).2
    refine ⟨hG, h.put hphase h.later (.refl _) (fun l _ hsame => hsame (by rw [hnothing]; rfl))
      fun l hne => ?_⟩
    rcases hne with hne | hne
    · exact absurd rfl hne
    · exact absurd rfl hne
  cases hstep with
  | @op t o k a sf' ht hs =>
    have hthere := h.phase t
    rw [ht] at hthere
    have hagree : ∀ l, helds t l = none → (c.state l).owner = some t ∨ (c.state l).owner = none →
      c.state l = c'.state l := by
      intro l hself howner
      refine h.agree l fun u => ?_
      by_contra hsome
      have hother := (h.phase u).tied.owner hsome
      rw [hother] at howner
      rcases howner with hsame | hfree
      · obtain rfl := Option.some.inj hsame
        exact hsome hself
      · cases hfree
    obtain ⟨q, held', sc', q', hq, hadvance⟩ := hthere.advance hbody h.later hagree hs
    refine ⟨_, c'.put t (some q') sc', ?_,
      h.put hadvance.phase hadvance.later hadvance.since hadvance.agree hadvance.own⟩
    rcases hadvance.moves with ⟨rfl, rfl⟩ | ⟨call, kq, r, rfl, hcall, rfl⟩
    · rw [put_self hq]
    · exact .single (.op hq hcall)
  | @again t l ht =>
    obtain ⟨hG, hsim⟩ := hturn ht (.apart (tied_nothing t c.state) (hprog t l))
    exact ⟨_, _, .single (.again hG), hsim⟩
  | @halt t ht =>
    obtain ⟨hG, hsim⟩ := hturn ht .left
    exact ⟨_, _, .single (.halt hG), hsim⟩

/-- Threads whose calls first take what they need and then give it back do nothing that
they could not do with atomic calls. -/
theorem reduction (hbody : ∀ b, TwoPhase .nothing (body b) ∧ ∀ r, body b ≠ .ret r)
    (hprog : ∀ t l, (prog t l).Guarded .nothing) {start : T → Option (Client Res S (Option Loc))}
    (hstart : ∀ t q, start t = some q → q.Guarded .nothing)
    (h : Config.Reachable (machine T S) (fun t l => (prog t l).compile body)
      ⟨s, fun t => (start t).map fun q => q.compile body⟩ c) :
    ∃ helds c', Config.Reachable (atomic T body) prog ⟨s, start⟩ c' ∧
      Simulates body helds c c' := by
  induction h with
  | refl =>
    refine ⟨fun _ => .nothing, _, .refl, .refl s, fun _ _ => rfl, fun t => ?_⟩
    cases ht : start t with
    | none =>
      simp only [ht]
      exact .left
    | some q =>
      simp only [ht]
      exact .apart (tied_nothing t s) (hstart t q ht)
  | tail _ hstep ih =>
    obtain ⟨helds, c', hreach, hsim⟩ := ih
    obtain ⟨helds', c₂', hmore, hsim'⟩ := hsim.step hbody hprog hstep
    exact ⟨helds', c₂', hreach.trans hmore, hsim'⟩

end Locks
