import StegaPng.Termination

/-! Threads that guard what they share with many locks. A block of memory is its thread's
own until it is shared; from then on one part of it never changes, and the rest belongs to
whoever has its lock. -/

namespace Locks

open Interleaving

/-- What the locks guard, and the accesses to it. -/
structure Objects where
  Lock : Type
  /-- The blocks that come with a lock of their own. -/
  Ptr : Type
  block : Ptr → Lock
  Data : Lock → Type
  /-- What stays as it is once others can reach it. -/
  Fixed : Lock → Type
  fixed : (l : Lock) → Data l → Fixed l
  Access : Lock → Type
  Answer : (l : Lock) → Access l → Type
  act : (l : Lock) → (d : Access l) → Data l → Answer l d × Data l
  zero : (l : Lock) → Data l
  /-- What threads get from elsewhere. -/
  Input : Type
  Given : Input → Type

inductive Status where
  | absent
  | secret
  | shared
  deriving DecidableEq

structure Slot (T W : Type) where
  owner : Option T
  status : Status
  data : W

abbrev State (T : Type) (S : Objects) := (l : S.Lock) → Slot T (S.Data l)

/-- How a thread gives something out of its hands. -/
inductive Release where
  | unlock
  | share
  | free

def Release.before : Release → Status
  | .unlock => .shared
  | _ => .secret

def Release.after : Release → Status
  | .free => .absent
  | _ => .shared

inductive Op (S : Objects) where
  | lock (l : S.Lock)
  | alloc
  | release (l : S.Lock) (how : Release)
  | act (l : S.Lock) (d : S.Access l)
  | peek (l : S.Lock)
  | ask (i : S.Input)

abbrev Answer (S : Objects) : Op S → Type
  | .lock _ => Unit
  | .alloc => Option S.Ptr
  | .release _ _ => Unit
  | .act l d => S.Answer l d
  | .peek l => S.Fixed l
  | .ask i => S.Given i

abbrev Task (S : Objects) (α : Type) := Prog (Op S) (Answer S) α

variable {T Loc α β : Type} {S : Objects}

/-- What is shared stays shared, with the same fixed part. -/
def Later (s s' : State T S) : Prop :=
  ∀ l, (s l).status = .shared → (s' l).status = .shared ∧
    S.fixed l (s' l).data = S.fixed l (s l).data

theorem Later.refl (s : State T S) : Later s s := fun _ h => ⟨h, rfl⟩

theorem Later.trans {s s' s'' : State T S} (h : Later s s') (h' : Later s' s'') :
    Later s s'' := fun l hl =>
  ⟨(h' l (h l hl).1).1, (h' l (h l hl).1).2.trans (h l hl).2⟩

/-- The thread has nothing of its own. -/
def Idle (t : T) (s : State T S) : Prop := ∀ l, (s l).owner ≠ some t

/-- What the others leave alone. -/
structure Rely (t : T) (s s' : State T S) : Prop where
  mine : ∀ l, (s l).owner = some t → s' l = s l
  others : ∀ l, (s' l).owner = some t → (s l).owner = some t
  later : Later s s'

theorem Rely.refl (t : T) (s : State T S) : Rely t s s := ⟨fun _ _ => rfl, fun _ h => h, .refl s⟩

theorem Rely.trans {t : T} {s s' s'' : State T S} (h : Rely t s s') (h' : Rely t s' s'') :
    Rely t s s'' where
  mine l hl := by
    have hsame := h.mine l hl
    rw [h'.mine l (by rw [hsame, hl]), hsame]
  others l hl := h.others l (h'.others l hl)
  later := h.later.trans h'.later

theorem Idle.rely {t : T} {s s' : State T S} (h : Idle t s) (hrely : Rely t s s') : Idle t s' :=
  fun l hl => h l (hrely.others l hl)

variable [DecidableEq S.Lock]

abbrev State.put (s : State T S) (l : S.Lock) (slot : Slot T (S.Data l)) : State T S :=
  Function.update s l slot

def Slot.release {W : Type} (slot : Slot T W) (how : Release) : Slot T W where
  owner := none
  status := how.after
  data := slot.data

/-- What an operation of thread `t` does. A lock that does not exist is never taken, what is
gone is never unlocked, and no access changes the fixed part of what is shared. -/
def effect (t : T) : (o : Op S) → State T S → Answer S o → State T S → Prop
  | .lock l, s, _, s' =>
    (s l).owner = none ∧ (s l).status = .shared ∧ s' = s.put l { s l with owner := some t }
  | .alloc, s, none, s' => s' = s
  | .alloc, s, some p, s' => (s (S.block p)).owner = none ∧ (s (S.block p)).status = .absent ∧
      s' = s.put (S.block p) ⟨some t, .secret, S.zero _⟩
  | .release l how, s, _, s' => (s l).status = how.before ∧ s' = s.put l ((s l).release how)
  | .act l d, s, a, s' => (s l).status ≠ .absent ∧ a = (S.act l d (s l).data).1 ∧
      ((s l).status = .shared → S.fixed l (S.act l d (s l).data).2 = S.fixed l (s l).data) ∧
      s' = s.put l { s l with data := (S.act l d (s l).data).2 }
  | .peek l, s, a, s' => (s l).status = .shared ∧ a = S.fixed l (s l).data ∧ s' = s
  | .ask _, s, _, s' => s' = s

def machine (T : Type) (S : Objects) [DecidableEq S.Lock] :
    Machine (Op S) (Answer S) T (State T S) where
  step := effect
  turn _ s := s

variable {s s' s'' σ : State T S} {t u : T} {o : Op S} {a : Answer S o} {l : S.Lock}

/-- The lock that an operation is about. -/
def target (o : Op S) (a : Answer S o) : Option S.Lock :=
  match o, a with
  | .lock l, _ => some l
  | .alloc, p => p.map S.block
  | .release l _, _ => some l
  | .act l _, _ => some l
  | .peek _, _ => none
  | .ask _, _ => none

theorem effect_frame (h : effect t o s a s') (hl : target o a ≠ some l) : s' l = s l := by
  have hput : ∀ {l' : S.Lock} (slot : Slot T (S.Data l')), l ≠ l' → s.put l' slot l = s l :=
    fun slot hne => Function.update_of_ne hne ..
  cases o with
  | lock l' =>
    obtain ⟨-, -, rfl⟩ := h
    exact hput _ fun heq => hl (congrArg some heq.symm)
  | alloc =>
    cases a with
    | none =>
      obtain rfl : s' = s := h
      rfl
    | some p =>
      obtain ⟨-, -, rfl⟩ := h
      exact hput _ fun heq => hl (congrArg some heq.symm)
  | release l' how =>
    obtain ⟨-, rfl⟩ := h
    exact hput _ fun heq => hl (congrArg some heq.symm)
  | act l' d =>
    obtain ⟨-, -, -, rfl⟩ := h
    exact hput _ fun heq => hl (congrArg some heq.symm)
  | peek l' =>
    obtain ⟨-, -, rfl⟩ := h
    rfl
  | ask i =>
    obtain rfl : s' = s := h
    rfl

theorem effect_later (h : effect t o s a s') : Later s s' := by
  intro l hl
  by_cases htarget : target o a = some l
  · cases o with
    | lock l' =>
      obtain rfl : l' = l := Option.some.inj htarget
      obtain ⟨-, -, rfl⟩ := h
      simp [hl]
    | alloc =>
      cases a with
      | none => cases htarget
      | some p =>
        obtain rfl : S.block p = l := Option.some.inj htarget
        obtain ⟨-, habsent, -⟩ := h
        rw [habsent] at hl
        cases hl
    | release l' how =>
      obtain rfl : l' = l := Option.some.inj htarget
      obtain ⟨hbefore, rfl⟩ := h
      rw [hl] at hbefore
      cases how with
      | unlock => simp [Slot.release, Release.after]
      | share => cases hbefore
      | free => cases hbefore
    | act l' d =>
      obtain rfl : l' = l := Option.some.inj htarget
      obtain ⟨-, -, hfixed, rfl⟩ := h
      simp [hl, hfixed hl]
    | peek l' => cases htarget
    | ask i => cases htarget
  · rw [effect_frame h htarget]
    exact ⟨hl, rfl⟩

/-! The discipline: locks are taken in their order, what is unlocked or shared is in order,
and the fixed part of what is shared is left alone. -/

structure Rules (S : Objects) where
  below : S.Lock → S.Lock → Prop
  /-- What holds of the data of a lock that is free; it may name things that are shared. -/
  inv : (l : S.Lock) → S.Data l → (S.Lock → Prop) → Prop
  mono : ∀ {l : S.Lock} {data : S.Data l} {P P' : S.Lock → Prop}, (∀ l, P l → P' l) → inv l data P →
    inv l data P'
  ordered : WellFounded fun l l' => below l' l

def Shared (s : State T S) (l : S.Lock) : Prop := (s l).status = .shared

variable {R : Rules S} {knows : Loc → S.Lock → Prop}

structure Inv (R : Rules S) (s : State T S) : Prop where
  absent : ∀ l, (s l).status = .absent → (s l).owner = none
  free : ∀ l, (s l).owner = none → Shared s l → R.inv l (s l).data (Shared s)

/-- The thread has the lock of `l`. -/
def Holds (t : T) (s : State T S) (l : S.Lock) : Prop := (s l).owner = some t ∧ Shared s l

def Allowed (R : Rules S) (t : T) : Op S → State T S → Prop
  | .lock l, s => Shared s l ∧ ∀ l', Holds t s l' → R.below l' l
  | .alloc, _ => True
  | .release l .unlock, s => Holds t s l ∧ R.inv l (s l).data (Shared s)
  | .release l .share, s => (s l).owner = some t ∧ (s l).status = .secret ∧
      R.inv l (s l).data fun l' => Shared s l' ∨ l' = l
  | .release l .free, s => (s l).owner = some t ∧ (s l).status = .secret
  | .act l d, s => (s l).owner = some t ∧
      (Shared s l → S.fixed l (S.act l d (s l).data).2 = S.fixed l (s l).data)
  | .peek l, s => Shared s l
  | .ask _, _ => True

/-- Between turns a thread has nothing of its own, and what it knows of is shared. -/
def Rules.conduct (R : Rules S) (T : Type) (knows : Loc → S.Lock → Prop) :
    Discipline (machine T S) Loc where
  inv := Inv R
  allowed := Allowed R
  rely := Rely
  start t loc s := Idle t s ∧ ∀ l, knows loc l → Shared s l
  finish
    | t, none, s => Idle t s
    | t, some loc, s => Idle t s ∧ ∀ l, knows loc l → Shared s l

/-- What an operation does to the lock it is about. -/
theorem effect_target (hallowed : Allowed R t o s) (h : effect t o s a s')
    (hl : target o a = some l) :
    ((s l).owner = some t ∨ (s l).owner = none) ∧
      ((s' l).owner = some t ∨ (s' l).owner = none) := by
  cases o with
  | lock l' =>
    obtain rfl : l' = l := Option.some.inj hl
    obtain ⟨hfree, -, rfl⟩ := h
    exact ⟨.inr hfree, .inl (by simp)⟩
  | alloc =>
    cases a with
    | none => cases hl
    | some p =>
      obtain rfl : S.block p = l := Option.some.inj hl
      obtain ⟨hfree, -, rfl⟩ := h
      exact ⟨.inr hfree, .inl (by simp)⟩
  | release l' how =>
    obtain rfl : l' = l := Option.some.inj hl
    obtain ⟨-, rfl⟩ := h
    have hmine : (s l').owner = some t := by
      cases how with
      | unlock => exact hallowed.1.1
      | share => exact hallowed.1
      | free => exact hallowed.1
    exact ⟨.inl hmine, .inr (by simp [Slot.release])⟩
  | act l' d =>
    obtain rfl : l' = l := Option.some.inj hl
    obtain ⟨-, -, -, rfl⟩ := h
    exact ⟨.inl hallowed.1, .inl (by simp [hallowed.1])⟩
  | peek l' => cases hl
  | ask i => cases hl

theorem rely_effect (hallowed : Allowed R u o s) (h : effect u o s a s') (htu : t ≠ u) :
    Rely t s s' := by
  have hother : some u ≠ some t := fun heq => htu (Option.some.inj heq).symm
  refine ⟨fun l hl => ?_, fun l hl => ?_, effect_later h⟩
  · refine effect_frame h fun htarget => ?_
    rcases (effect_target hallowed h htarget).1 with howner | howner
    · exact hother (howner.symm.trans hl)
    · rw [howner] at hl
      cases hl
  · by_cases htarget : target o a = some l
    · rcases (effect_target hallowed h htarget).2 with howner | howner
      · exact absurd (howner.symm.trans hl) hother
      · rw [howner] at hl
        cases hl
    · rwa [effect_frame h htarget] at hl

theorem Inv.effect (hinv : Inv R s) (hallowed : Allowed R t o s) (h : effect t o s a s') :
    Inv R s' := by
  have hlater : ∀ l, Shared s l → Shared s' l := fun l hl => (effect_later h l hl).1
  refine ⟨fun l hl => ?_, fun l hfree hshared => ?_⟩
  · by_cases htarget : target o a = some l
    · cases o with
      | lock l' =>
        obtain rfl : l' = l := Option.some.inj htarget
        obtain ⟨-, hshared, rfl⟩ := h
        simp [hshared] at hl
      | alloc =>
        cases a with
        | none => cases htarget
        | some p =>
          obtain rfl : S.block p = l := Option.some.inj htarget
          obtain ⟨-, -, rfl⟩ := h
          simp at hl
      | release l' how =>
        obtain rfl : l' = l := Option.some.inj htarget
        obtain ⟨-, rfl⟩ := h
        simp [Slot.release]
      | act l' d =>
        obtain rfl : l' = l := Option.some.inj htarget
        obtain ⟨hthere, -, -, rfl⟩ := h
        simp [hthere] at hl
      | peek l' => cases htarget
      | ask i => cases htarget
    · rw [effect_frame h htarget] at hl ⊢
      exact hinv.absent l hl
  · by_cases htarget : target o a = some l
    · cases o with
      | lock l' =>
        obtain rfl : l' = l := Option.some.inj htarget
        obtain ⟨-, -, rfl⟩ := h
        simp at hfree
      | alloc =>
        cases a with
        | none => cases htarget
        | some p =>
          obtain rfl : S.block p = l := Option.some.inj htarget
          obtain ⟨-, -, rfl⟩ := h
          simp at hfree
      | release l' how =>
        obtain rfl : l' = l := Option.some.inj htarget
        obtain ⟨hbefore, rfl⟩ := h
        have hdata : (s.put l' ((s l').release how) l').data = (s l').data := by simp [Slot.release]
        rw [hdata]
        cases how with
        | unlock => exact R.mono hlater hallowed.2
        | share =>
          refine R.mono (fun l hl => ?_) hallowed.2.2
          rcases hl with hl | rfl
          · exact hlater l hl
          · exact hshared
        | free => simp [Shared, Slot.release, Release.after] at hshared
      | act l' d =>
        obtain rfl : l' = l := Option.some.inj htarget
        obtain ⟨-, -, -, rfl⟩ := h
        simp [hallowed.1] at hfree
      | peek l' => cases htarget
      | ask i => cases htarget
    · have hsame := effect_frame h htarget
      rw [Shared, hsame] at hshared
      rw [hsame] at hfree ⊢
      exact R.mono hlater (hinv.free l hfree hshared)

theorem conduct_sound : (R.conduct T knows).Sound where
  inv_step hinv hallowed h := hinv.effect hallowed h
  rely_step _ hallowed h htu := rely_effect hallowed h htu
  rely_refl := Rely.refl
  rely_trans := Rely.trans
  finish_rely {t b s s'} hfinish hrely _ := by
    cases b with
    | none => exact Idle.rely hfinish hrely
    | some loc => exact ⟨hfinish.1.rely hrely, fun l hl => (hrely.later l (hfinish.2 l hl)).1⟩
  inv_turn h _ := h
  rely_turn {t u b s} _ _ _ := Rely.refl t s
  start_turn _ hfinish := hfinish

/-! The rules of the operations. A program runs as if its thread were alone, but that a lock
it takes may have been through other hands. -/

/-- What the others cannot undo. -/
def Steady (R : Rules S) (t : T) (Q : α → State T S → Prop) : Prop :=
  ∀ a s s', Q a s → Rely t s s' → Inv R s' → Q a s'

theorem Rely.put (h : Rely t s s') (l : S.Lock) (slot : Slot T (S.Data l)) :
    Rely t (s.put l slot) (s'.put l slot) := by
  have hsame : ∀ s : State T S, s.put l slot l = slot := fun s => Function.update_self ..
  have hother : ∀ (s : State T S) {l' : S.Lock}, l' ≠ l → s.put l slot l' = s l' :=
    fun s l' hne => Function.update_of_ne hne ..
  refine ⟨fun l' hl => ?_, fun l' hl => ?_, fun l' hl => ?_⟩
  · by_cases hne : l' = l
    · subst hne
      rw [hsame, hsame]
    · rw [hother _ hne] at hl ⊢
      rw [hother _ hne, h.mine l' hl]
  · by_cases hne : l' = l
    · subst hne
      rwa [hsame] at hl ⊢
    · rw [hother _ hne] at hl ⊢
      exact h.others l' hl
  · by_cases hne : l' = l
    · subst hne
      rw [hsame] at hl ⊢
      exact ⟨hl, by rw [hsame]⟩
    · rw [hother _ hne] at hl ⊢
      rw [hother _ hne]
      exact h.later l' hl

section

variable {Q : α → State T S → Prop}

theorem wp_lock {k : Unit → Task S α} (hshared : Shared σ l)
    (hbelow : ∀ l', Holds t σ l' → R.below l' l)
    (hk : ∀ σ', Rely t σ σ' → R.inv l (σ' l).data (Shared σ') →
      (R.conduct T knows).wp t (k ()) Q (σ'.put l { σ' l with owner := some t })) :
    (R.conduct T knows).wp t (.op (.lock l) k) Q σ := by
  intro s₁ hrely hinv
  have hholds : ∀ l', Holds t s₁ l' → Holds t σ l' := by
    intro l' hl'
    have howner := hrely.others l' hl'.1
    have hsame := hrely.mine l' howner
    have hstatus := hl'.2
    rw [Shared, hsame] at hstatus
    exact ⟨howner, hstatus⟩
  refine ⟨⟨(hrely.later l hshared).1, fun l' hl' => hbelow l' (hholds l' hl')⟩, ?_⟩
  rintro ⟨⟩ s₂ ⟨hfree, hstatus, rfl⟩ -
  exact hk s₁ hrely (hinv.free l hfree hstatus)

theorem wp_alloc {k : Option S.Ptr → Task S α} (hQ : Steady R t Q)
    (hnone : (R.conduct T knows).wp t (k none) Q σ)
    (hsome : ∀ σ' p, Rely t σ σ' → (σ' (S.block p)).owner = none →
      (σ' (S.block p)).status = .absent →
      (R.conduct T knows).wp t (k (some p)) Q (σ'.put (S.block p) ⟨some t, .secret, S.zero _⟩)) :
    (R.conduct T knows).wp t (.op .alloc k) Q σ := by
  intro s₁ hrely hinv
  refine ⟨trivial, fun a s₂ hstep _ => ?_⟩
  cases a with
  | none =>
    obtain rfl : s₂ = s₁ := hstep
    exact Discipline.wp_rely conduct_sound hQ hrely hinv hnone
  | some p =>
    obtain ⟨hfree, habsent, rfl⟩ := hstep
    exact hsome s₁ p hrely hfree habsent

theorem wp_unlock {k : Unit → Task S α} (hQ : Steady R t Q) (hl : Holds t σ l)
    (hinv : R.inv l (σ l).data (Shared σ))
    (hk : (R.conduct T knows).wp t (k ()) Q (σ.put l ((σ l).release .unlock))) :
    (R.conduct T knows).wp t (.op (.release l .unlock) k) Q σ := by
  intro s₁ hrely _
  have hsame := hrely.mine l hl.1
  refine ⟨⟨⟨by rw [hsame, hl.1], by rw [Shared, hsame]; exact hl.2⟩, ?_⟩, ?_⟩
  · rw [hsame]
    exact R.mono (fun l' hl' => (hrely.later l' hl').1) hinv
  · rintro ⟨⟩ s₂ ⟨-, rfl⟩ hinv₂
    rw [hsame] at hinv₂ ⊢
    exact Discipline.wp_rely conduct_sound hQ (hrely.put l _) hinv₂ hk

theorem wp_share {k : Unit → Task S α} (hQ : Steady R t Q) (howner : (σ l).owner = some t)
    (hsecret : (σ l).status = .secret) (hinv : R.inv l (σ l).data fun l' => Shared σ l' ∨ l' = l)
    (hk : (R.conduct T knows).wp t (k ()) Q (σ.put l ((σ l).release .share))) :
    (R.conduct T knows).wp t (.op (.release l .share) k) Q σ := by
  intro s₁ hrely _
  have hsame := hrely.mine l howner
  refine ⟨⟨by rw [hsame, howner], by rw [hsame, hsecret], ?_⟩, ?_⟩
  · rw [hsame]
    exact R.mono (fun l' hl' => hl'.imp_left fun hshared => (hrely.later l' hshared).1) hinv
  · rintro ⟨⟩ s₂ ⟨-, rfl⟩ hinv₂
    rw [hsame] at hinv₂ ⊢
    exact Discipline.wp_rely conduct_sound hQ (hrely.put l _) hinv₂ hk

theorem wp_free {k : Unit → Task S α} (hQ : Steady R t Q) (howner : (σ l).owner = some t)
    (hsecret : (σ l).status = .secret)
    (hk : (R.conduct T knows).wp t (k ()) Q (σ.put l ((σ l).release .free))) :
    (R.conduct T knows).wp t (.op (.release l .free) k) Q σ := by
  intro s₁ hrely _
  have hsame := hrely.mine l howner
  refine ⟨⟨by rw [hsame, howner], by rw [hsame, hsecret]⟩, ?_⟩
  rintro ⟨⟩ s₂ ⟨-, rfl⟩ hinv₂
  rw [hsame] at hinv₂ ⊢
  exact Discipline.wp_rely conduct_sound hQ (hrely.put l _) hinv₂ hk

theorem wp_act {d : S.Access l} {k : S.Answer l d → Task S α} (hQ : Steady R t Q)
    (howner : (σ l).owner = some t)
    (hfixed : Shared σ l → S.fixed l (S.act l d (σ l).data).2 = S.fixed l (σ l).data)
    (hk : (R.conduct T knows).wp t (k (S.act l d (σ l).data).1) Q
      (σ.put l { σ l with data := (S.act l d (σ l).data).2 })) :
    (R.conduct T knows).wp t (.op (.act l d) k) Q σ := by
  intro s₁ hrely _
  have hsame := hrely.mine l howner
  refine ⟨⟨by rw [hsame, howner], by rw [Shared, hsame]; exact hfixed⟩, ?_⟩
  rintro a s₂ ⟨-, rfl, -, rfl⟩ hinv₂
  rw [hsame] at hinv₂ ⊢
  exact Discipline.wp_rely conduct_sound hQ (hrely.put l _) hinv₂ hk

theorem wp_peek {k : S.Fixed l → Task S α} (hQ : Steady R t Q) (hshared : Shared σ l)
    (hk : (R.conduct T knows).wp t (k (S.fixed l (σ l).data)) Q σ) :
    (R.conduct T knows).wp t (.op (.peek l) k) Q σ := by
  intro s₁ hrely hinv
  refine ⟨(hrely.later l hshared).1, ?_⟩
  rintro a s₂ ⟨-, rfl, rfl⟩ -
  rw [(hrely.later l hshared).2]
  exact Discipline.wp_rely conduct_sound hQ hrely hinv hk

theorem wp_ask {i : S.Input} {k : S.Given i → Task S α} (hQ : Steady R t Q)
    (hk : ∀ a, (R.conduct T knows).wp t (k a) Q σ) :
    (R.conduct T knows).wp t (.op (.ask i) k) Q σ := by
  intro s₁ hrely hinv
  refine ⟨trivial, fun a s₂ hstep _ => ?_⟩
  obtain rfl : s₂ = s₁ := hstep
  exact Discipline.wp_rely conduct_sound hQ hrely hinv (hk a)

theorem steady_wp {f : α → Task S β} {G : β → State T S → Prop} (hG : Steady R t G) :
    Steady R t fun a s => (R.conduct T knows).wp t (f a) G s :=
  fun _ _ _ hwp hrely hinv => Discipline.wp_rely conduct_sound hG hrely hinv hwp

/-- A program that only works on what is its thread's own. `rel` says what becomes of that. -/
theorem wp_acts (own : S.Lock → Prop) (rel : (l : S.Lock) → S.Data l → S.Data l → Prop)
    {p : Task S α} (hp : p.All fun o => (∃ l d, o = .act l d ∧ own l ∧
      ∀ v, rel l v (S.act l d v).2) ∨ ∃ i, o = .ask i)
    (hrefl : ∀ l v, rel l v v) (htrans : ∀ {l v v' v''}, rel l v v' → rel l v' v'' → rel l v v'')
    (howner : ∀ l, own l → (σ l).owner = some t)
    (hfixed : ∀ {l v v'}, own l → Shared σ l → rel l v v' → S.fixed l v' = S.fixed l v)
    (hsteady : Steady R t Q) (hQ : ∀ a σ', (∀ l, ¬ own l → σ' l = σ l) →
      (∀ l, (σ' l).owner = (σ l).owner ∧ (σ' l).status = (σ l).status ∧
        rel l (σ l).data (σ' l).data) → Q a σ') :
    (R.conduct T knows).wp t p Q σ := by
  have hrun : ∀ (p : Task S α) (σ' : State T S),
      p.All (fun o => (∃ l d, o = .act l d ∧ own l ∧ ∀ v, rel l v (S.act l d v).2) ∨
        ∃ i, o = .ask i) →
      (∀ l, ¬ own l → σ' l = σ l) →
      (∀ l, (σ' l).owner = (σ l).owner ∧ (σ' l).status = (σ l).status ∧
        rel l (σ l).data (σ' l).data) →
      (R.conduct T knows).wp t p Q σ' := by
    intro p
    induction p with
    | ret a => exact fun σ' _ hout hσ' => hQ a σ' hout hσ'
    | op o k ih =>
      intro σ' hp hout hσ'
      obtain ⟨⟨l, d, rfl, hown, hrel⟩ | ⟨i, rfl⟩, hrest⟩ := hp
      · refine wp_act hsteady ((hσ' l).1.trans (howner l hown)) (fun hshared => ?_)
          (ih _ _ (hrest _) (fun l' hl' => ?_) fun l' => ?_)
        · exact hfixed hown ((hσ' l).2.1.symm.trans hshared) (hrel _)
        · have hne : l' ≠ l := by
            rintro rfl
            exact hl' hown
          rw [State.put, Function.update_of_ne hne, hout l' hl']
        · by_cases hl : l' = l
          · subst hl
            rw [State.put, Function.update_self]
            exact ⟨(hσ' l').1, (hσ' l').2.1, htrans (hσ' l').2.2 (hrel _)⟩
          · rw [State.put, Function.update_of_ne hl]
            exact hσ' l'
      · exact wp_ask hsteady fun a => ih a σ' (hrest a) hout hσ'
  exact hrun p σ hp (fun _ _ => rfl) fun l => ⟨rfl, rfl, hrefl l _⟩

end

/-! Nobody waits for ever. -/

/-- Only a lock makes a thread wait. -/
theorem effect_enabled (hgiven : ∀ i, Nonempty (S.Given i)) (hinv : Inv R s)
    (hallowed : Allowed R t o s) (hfree : ∀ l, o = .lock l → (s l).owner = none) :
    ∃ a s', effect t o s a s' := by
  cases o with
  | lock l => exact ⟨(), _, hfree l rfl, hallowed.1, rfl⟩
  | alloc => exact ⟨none, s, rfl⟩
  | release l how =>
    refine ⟨(), _, ?_, rfl⟩
    cases how with
    | unlock => exact hallowed.1.2
    | share => exact hallowed.2.1
    | free => exact hallowed.2
  | act l d =>
    refine ⟨_, _, fun habsent => ?_, rfl, hallowed.2, rfl⟩
    have hnone := hinv.absent l habsent
    rw [hallowed.1] at hnone
    cases hnone
  | peek l => exact ⟨_, s, hallowed, rfl, rfl⟩
  | ask i =>
    obtain ⟨a⟩ := hgiven i
    exact ⟨a, s, rfl⟩

/-- A configuration that is stuck is one that all the threads have left. -/
theorem all_left (hgiven : ∀ i, Nonempty (S.Given i))
    {c : Config (Op S) (Answer S) T (State T S) Loc} (hkeeps : (R.conduct T knows).Keeps c)
    (hended : (R.conduct T knows).Ended c) (hfinal : c.Final (machine T S)) (t : T) :
    c.thread t = none := by
  have hblocked : ∀ t p, c.thread t = some p →
      ∃ l k, p = .op (.lock l) k ∧ Allowed R t (.lock l) c.state ∧
        ∃ u, (c.state l).owner = some u := by
    intro t p hp
    obtain ⟨o, k, rfl, hstuck⟩ := hfinal t p hp
    have hallowed : Allowed R t o c.state := hkeeps.allowed conduct_sound hp
    by_contra hnone
    obtain ⟨a, s', heffect⟩ := effect_enabled hgiven hkeeps.inv hallowed fun l hl => by
      subst hl
      by_contra howner
      obtain ⟨u, hu⟩ := Option.ne_none_iff_exists'.mp howner
      exact hnone ⟨l, k, rfl, hallowed, u, hu⟩
    exact hstuck a s' heffect
  -- Whoever has the lock waits for one that comes later in the order.
  have hwaits : ∀ l t k, c.thread t ≠ some (.op (.lock l) k) := by
    intro l
    induction l using R.ordered.induction with
    | _ l ih =>
      intro t k hp
      obtain ⟨l', k', heq, hallowed, u, hu⟩ := hblocked t _ hp
      cases heq
      cases hthread : c.thread u with
      | none => exact hended u hthread l hu
      | some q =>
        obtain ⟨l', k', rfl, hallowed', -⟩ := hblocked u q hthread
        exact ih l' (hallowed'.2 l ⟨hu, hallowed.1⟩) u k' hthread
  cases hthread : c.thread t with
  | none => rfl
  | some p =>
    obtain ⟨l, k, rfl, -⟩ := hblocked t p hthread
    exact absurd hthread (hwaits l t k)

end Locks
