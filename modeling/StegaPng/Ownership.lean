import Mathlib.Data.Finset.Card
import StegaPng.Termination

/-! Threads that acquire handles and release them. What a thread still holds at the end
of a turn is lost. -/

namespace Ownership

open Interleaving

/-- A handle of some kind. -/
abbrev Handle (K : Type) := K × Nat

inductive Op (K E : Type) where
  | acquire (kind : K)
  | release (h : Handle K)
  | call (e : E)

abbrev Answer {K E : Type} (A : E → Type) : Op K E → Type
  | .acquire _ => Option (Handle K)
  | .release _ => Unit
  | .call e => A e

/-- What each thread holds, what it has lost, and how much it may have lost. -/
structure State (T K : Type) where
  held : T → Finset (Handle K)
  lost : T → Finset (Handle K)
  spilled : T → Nat

variable {T K E Loc α β : Type} {A : E → Type} [DecidableEq T] [DecidableEq K]
  (spill : (e : E) → A e → Nat)

def State.initial : State T K where
  held := fun _ => ∅
  lost := fun _ => ∅
  spilled := fun _ => 0

def State.Used (s : State T K) (h : Handle K) : Prop := ∃ t, h ∈ s.held t ∨ h ∈ s.lost t

/-- The answers may spill: `spill` says how many handles. -/
def effect (t : T) : (o : Op K E) → State T K → Answer A o → State T K → Prop
  | .acquire _, s, none, s' => s' = s
  | .acquire kind, s, some h, s' =>
    h.1 = kind ∧ ¬ s.Used h ∧ s' = { s with held := Function.update s.held t (insert h (s.held t)) }
  | .release h, s, _, s' =>
    h ∈ s.held t ∧ s' = { s with held := Function.update s.held t ((s.held t).erase h) }
  | .call e, s, a, s' =>
    s' = { s with spilled := Function.update s.spilled t (s.spilled t + spill e a) }

def machine : Machine (Op K E) (Answer A) T (State T K) where
  step := effect spill
  turn t s := { s with
    held := Function.update s.held t ∅
    lost := Function.update s.lost t (s.lost t ∪ s.held t) }

/-! The account of one thread. -/

/-- What an operation leaves of the handles held and of the count of those spilled. -/
def grants : (o : Op K E) → (Answer A o → Finset (Handle K) → Nat → Prop) →
    Finset (Handle K) → Nat → Prop
  | .acquire kind, R, held, n =>
    R none held n ∧ ∀ h, h.1 = kind → h ∉ held → R (some h) (insert h held) n
  | .release h, R, held, n => h ∈ held ∧ R () (held.erase h) n
  | .call e, R, held, n => ∀ a, R a held (n + spill e a)

/-- The program releases only what it holds, and leaves `Q`. -/
def Accounts (Q : α → Finset (Handle K) → Nat → Prop) : Prog (Op K E) (Answer A) α →
    Finset (Handle K) → Nat → Prop
  | .ret a => Q a
  | .op o k => grants spill o fun a => Accounts Q (k a)

section

variable {spill} {Q Q' : α → Finset (Handle K) → Nat → Prop} {held : Finset (Handle K)} {n : Nat}

theorem grants_mono {o : Op K E} {R R' : Answer A o → Finset (Handle K) → Nat → Prop}
    (hR : ∀ a held n, R a held n → R' a held n) (h : grants spill o R held n) :
    grants spill o R' held n := by
  cases o with
  | acquire kind => exact ⟨hR _ _ _ h.1, fun new hkind hnew => hR _ _ _ (h.2 new hkind hnew)⟩
  | release old => exact ⟨h.1, hR _ _ _ h.2⟩
  | call e => exact fun a => hR _ _ _ (h a)

@[simp] theorem accounts_ret {a : α} : Accounts spill Q (.ret a) held n ↔ Q a held n := Iff.rfl

@[simp] theorem accounts_pure {a : α} : Accounts spill Q (pure a) held n ↔ Q a held n := Iff.rfl

theorem Accounts.mono {p : Prog (Op K E) (Answer A) α} (h : Accounts spill Q p held n)
    (hQ : ∀ a held n, Q a held n → Q' a held n) : Accounts spill Q' p held n := by
  induction p generalizing held n with
  | ret a => exact hQ a held n h
  | op o k ih => exact grants_mono (fun a held n hk => ih a hk) h

theorem Accounts.bind {p : Prog (Op K E) (Answer A) α} {f : α → Prog (Op K E) (Answer A) β}
    {R : β → Finset (Handle K) → Nat → Prop} (hp : Accounts spill Q p held n)
    (hf : ∀ a held n, Q a held n → Accounts spill R (f a) held n) :
    Accounts spill R (p >>= f) held n := by
  induction p generalizing held n with
  | ret a => exact hf a held n hp
  | op o k ih => exact grants_mono (fun a held n hk => ih a hk) hp

theorem accounts_acquire {kind : K} {k : Option (Handle K) → Prog (Op K E) (Answer A) α}
    (hnone : Accounts spill Q (k none) held n)
    (hsome : ∀ i, (kind, i) ∉ held →
      Accounts spill Q (k (some (kind, i))) (insert (kind, i) held) n) :
    Accounts spill Q (.op (.acquire kind) k) held n := by
  refine ⟨hnone, ?_⟩
  rintro ⟨kind', i⟩ rfl hnew
  exact hsome i hnew

theorem accounts_release {h : Handle K} {k : Unit → Prog (Op K E) (Answer A) α} (hheld : h ∈ held)
    (hk : Accounts spill Q (k ()) (held.erase h) n) :
    Accounts spill Q (.op (.release h) k) held n :=
  ⟨hheld, hk⟩

theorem accounts_call {e : E} {k : A e → Prog (Op K E) (Answer A) α}
    (hk : ∀ a, Accounts spill Q (k a) held (n + spill e a)) :
    Accounts spill Q (.op (.call e) k) held n := hk

/-- What a program neither holds nor acquires stays as it is. -/
theorem Accounts.frame {p : Prog (Op K E) (Answer A) α} {rest : Finset (Handle K)}
    (h : Accounts spill Q p held n) (hrest : Disjoint held rest) :
    Accounts spill (fun a all n' => ∃ own, all = own ∪ rest ∧ Disjoint own rest ∧
      Q a own n') p (held ∪ rest) n := by
  induction p generalizing held n with
  | ret a => exact ⟨held, rfl, hrest, h⟩
  | op o k ih =>
    cases o with
    | acquire kind =>
      refine ⟨ih none h.1 hrest, fun new hkind hnew => ?_⟩
      rw [Finset.mem_union, not_or] at hnew
      have hcontinued := ih (some new) (h.2 new hkind hnew.1)
        (Finset.disjoint_insert_left.mpr ⟨hnew.2, hrest⟩)
      rwa [Finset.insert_union] at hcontinued
    | release old =>
      have hout : old ∉ rest := Finset.disjoint_left.mp hrest h.1
      have hcontinued := ih () h.2 (hrest.mono_left (Finset.erase_subset old held))
      refine ⟨Finset.mem_union_left _ h.1, ?_⟩
      rwa [Finset.erase_union_distrib, Finset.erase_eq_of_notMem hout]
    | call e => exact fun a => ih a (h a) hrest

/-- The program releases just these handles. -/
def Releases (spill : (e : E) → A e → Nat) (p : Prog (Op K E) (Answer A) α)
    (handles : Finset (Handle K)) : Prop :=
  ∀ n, Accounts spill (fun _ held n' => held = ∅ ∧ n' = n) p handles n

theorem Releases.bind {p : Prog (Op K E) (Answer A) α} {f : α → Prog (Op K E) (Answer A) β}
    {R : β → Finset (Handle K) → Nat → Prop} {handles rest : Finset (Handle K)}
    (hp : Releases spill p handles) (hheld : held = handles ∪ rest) (hrest : Disjoint handles rest)
    (hf : ∀ a, Accounts spill R (f a) rest n) :
    Accounts spill R (p >>= f) held n := by
  rw [hheld]
  refine ((hp n).frame hrest).bind ?_
  rintro a all n' ⟨own, hall, -, hnone, hn⟩
  rw [hall, hnone, Finset.empty_union, hn]
  exact hf a

theorem Releases.seq {p : Prog (Op K E) (Answer A) α} {f : α → Prog (Op K E) (Answer A) β}
    {handles rest : Finset (Handle K)} (hp : Releases spill p handles)
    (hf : ∀ a, Releases spill (f a) rest) (hrest : Disjoint handles rest) :
    Releases spill (p >>= f) (handles ∪ rest) :=
  fun n => hp.bind rfl hrest fun a => hf a n

theorem releases_release (h : Handle K) :
    Releases spill (.perform (Op.release h) : Prog (Op K E) (Answer A) Unit) {h} := by
  intro n
  exact accounts_release (Finset.mem_singleton_self h) ⟨Finset.erase_singleton h, rfl⟩

/-- A program that starts with nothing can start with anything. -/
theorem Accounts.bind_fresh {p : Prog (Op K E) (Answer A) α} {f : α → Prog (Op K E) (Answer A) β}
    {R : β → Finset (Handle K) → Nat → Prop} (hp : Accounts spill Q p ∅ n)
    (hf : ∀ a own n', Q a own n' → Disjoint own held → Accounts spill R (f a) (own ∪ held) n') :
    Accounts spill R (p >>= f) held n := by
  have hframed := hp.frame (Finset.disjoint_empty_left held)
  rw [Finset.empty_union] at hframed
  refine hframed.bind ?_
  rintro a all n' ⟨own, hall, hapart, hQ⟩
  rw [hall]
  exact hf a own n' hQ hapart

end

/-! All threads together. -/

structure Inv (s : State T K) : Prop where
  held : ∀ t u, t ≠ u → Disjoint (s.held t) (s.held u)
  lost : ∀ t u, t ≠ u → Disjoint (s.lost t) (s.lost u)
  apart : ∀ t u, Disjoint (s.held t) (s.lost u)

/-- The handles that a thread has lost, with those it would lose now, are as many as it
has spilled, and all of the kinds that may leak. -/
structure Balanced (leaky : K → Prop) (t : T) (s : State T K) : Prop where
  count : (s.held t).card + (s.lost t).card = s.spilled t
  kinds : ∀ h ∈ s.held t ∪ s.lost t, leaky h.1

def Own (t : T) (s s' : State T K) : Prop :=
  s'.held t = s.held t ∧ s'.lost t = s.lost t ∧ s'.spilled t = s.spilled t

def conduct (T Loc : Type) [DecidableEq T] (leaky : K → Prop) :
    Discipline (machine spill : Machine (Op K E) (Answer A) T (State T K)) Loc where
  inv := Inv
  allowed
    | t, .release h, s => h ∈ s.held t
    | _, _, _ => True
  rely := Own
  start t _ s := Balanced leaky t s ∧ s.held t = ∅
  finish t _ s := Balanced leaky t s

variable {spill} {leaky : K → Prop} {s s' : State T K} {t u : T} {o : Op K E}

omit [DecidableEq T] in
theorem Balanced.own (h : Balanced leaky t s) (hown : Own t s s') : Balanced leaky t s' := by
  obtain ⟨hheld, hlost, hspilled⟩ := hown
  obtain ⟨hcount, hkinds⟩ := h
  rw [← hheld, ← hlost, ← hspilled] at hcount
  rw [← hheld, ← hlost] at hkinds
  exact ⟨hcount, hkinds⟩

theorem own_effect {a : Answer A o} (hstep : effect spill u o s a s') (htu : t ≠ u) :
    Own t s s' := by
  cases o with
  | acquire kind =>
    cases a with
    | none =>
      obtain rfl : s' = s := hstep
      exact ⟨rfl, rfl, rfl⟩
    | some h =>
      obtain ⟨-, -, rfl⟩ := hstep
      exact ⟨Function.update_of_ne htu .., rfl, rfl⟩
  | release h =>
    obtain ⟨-, rfl⟩ := hstep
    exact ⟨Function.update_of_ne htu .., rfl, rfl⟩
  | call e =>
    obtain rfl : s' = _ := hstep
    exact ⟨rfl, rfl, Function.update_of_ne htu ..⟩

theorem own_turn (htu : t ≠ u) : Own t s ((machine (A := A) spill).turn u s) :=
  ⟨Function.update_of_ne htu .., Function.update_of_ne htu .., rfl⟩

omit [DecidableEq K] in
/-- A thread's share changes to one that meets no other thread's. -/
theorem Inv.update (h : Inv s) {held lost : Finset (Handle K)}
    (hheld : ∀ u, u ≠ t → Disjoint held (s.held u)) (hlost : ∀ u, u ≠ t → Disjoint lost (s.lost u))
    (hapart : ∀ u, u ≠ t → Disjoint held (s.lost u))
    (hapart' : ∀ u, u ≠ t → Disjoint (s.held u) lost) (hown : Disjoint held lost)
    {spilled : T → Nat} :
    Inv ⟨Function.update s.held t held, Function.update s.lost t lost, spilled⟩ := by
  refine ⟨fun u v huv => ?_, fun u v huv => ?_, fun u v => ?_⟩
  · by_cases hu : u = t
    · subst hu
      simpa [Function.update_of_ne huv.symm] using hheld v huv.symm
    · by_cases hv : v = t
      · subst hv
        simpa [Function.update_of_ne hu] using (hheld u hu).symm
      · simpa [Function.update_of_ne hu, Function.update_of_ne hv] using h.held u v huv
  · by_cases hu : u = t
    · subst hu
      simpa [Function.update_of_ne huv.symm] using hlost v huv.symm
    · by_cases hv : v = t
      · subst hv
        simpa [Function.update_of_ne hu] using (hlost u hu).symm
      · simpa [Function.update_of_ne hu, Function.update_of_ne hv] using h.lost u v huv
  · by_cases hu : u = t
    · subst hu
      by_cases hv : v = u
      · subst hv
        simpa using hown
      · simpa [Function.update_of_ne hv] using hapart v hv
    · by_cases hv : v = t
      · subst hv
        simpa [Function.update_of_ne hu] using hapart' u hu
      · simpa [Function.update_of_ne hu, Function.update_of_ne hv] using h.apart u v

theorem Inv.effect (h : Inv s) {a : Answer A o} (hstep : effect spill t o s a s') : Inv s' := by
  have hself : s = ⟨s.held, Function.update s.lost t (s.lost t), s.spilled⟩ := by
    rw [Function.update_eq_self]
  cases o with
  | acquire kind =>
    cases a with
    | none =>
      obtain rfl : s' = s := hstep
      exact h
    | some new =>
      obtain ⟨-, hunused, rfl⟩ := hstep
      have hnew : ∀ u, new ∉ s.held u ∧ new ∉ s.lost u :=
        fun u => ⟨fun hmem => hunused ⟨u, .inl hmem⟩, fun hmem => hunused ⟨u, .inr hmem⟩⟩
      rw [← Function.update_eq_self t s.lost]
      refine h.update (fun u hu => ?_) (fun u hu => h.lost t u hu.symm) (fun u _ => ?_)
        (fun u _ => h.apart u t) ?_
      · exact Finset.disjoint_insert_left.mpr ⟨(hnew u).1, h.held t u hu.symm⟩
      · exact Finset.disjoint_insert_left.mpr ⟨(hnew u).2, h.apart t u⟩
      · exact Finset.disjoint_insert_left.mpr ⟨(hnew t).2, h.apart t t⟩
  | release old =>
    obtain ⟨-, rfl⟩ := hstep
    have hsub : (s.held t).erase old ⊆ s.held t := Finset.erase_subset old _
    rw [← Function.update_eq_self t s.lost]
    exact h.update (fun u hu => (h.held t u hu.symm).mono_left hsub)
      (fun u hu => h.lost t u hu.symm)
      (fun u _ => (h.apart t u).mono_left hsub)
        (fun u _ => h.apart u t) ((h.apart t t).mono_left hsub)
  | call e =>
    obtain rfl : s' = _ := hstep
    exact ⟨h.held, h.lost, h.apart⟩

theorem Inv.turn (h : Inv s) (t : T) : Inv ((machine (A := A) spill).turn t s) := by
  refine h.update (fun u _ => Finset.disjoint_empty_left _) (fun u hu => ?_)
    (fun u _ => Finset.disjoint_empty_left _)
    (fun u hu => ?_) (Finset.disjoint_empty_left _)
  · exact Finset.disjoint_union_left.mpr ⟨h.lost t u hu.symm, h.apart t u⟩
  · exact Finset.disjoint_union_right.mpr ⟨h.apart u t, h.held u t hu⟩

theorem Balanced.turn (hinv : Inv s) (h : Balanced leaky t s) :
    Balanced leaky t ((machine (A := A) spill).turn t s) ∧
      ((machine (A := A) spill).turn t s).held t = ∅ := by
  have hheld : ((machine (A := A) spill).turn t s).held t = ∅ := Function.update_self ..
  have hlost : ((machine (A := A) spill).turn t s).lost t = s.lost t ∪ s.held t :=
    Function.update_self ..
  refine ⟨⟨?_, ?_⟩, hheld⟩
  · rw [hheld, hlost, Finset.card_union_of_disjoint (hinv.apart t t).symm]
    have hcount := h.count
    rw [Finset.card_empty, Nat.zero_add, Nat.add_comm]
    exact hcount
  · rw [hheld, hlost, Finset.empty_union, Finset.union_comm]
    exact h.kinds

theorem conduct_sound : (conduct spill T Loc leaky).Sound where
  inv_step h _ hstep := h.effect hstep
  rely_step _ _ hstep htu := own_effect hstep htu
  rely_refl _ _ := ⟨rfl, rfl, rfl⟩
  rely_trans h h' := ⟨h'.1.trans h.1, h'.2.1.trans h.2.1, h'.2.2.trans h.2.2⟩
  finish_rely h hown _ := Balanced.own h hown
  inv_turn h _ := Inv.turn h _
  rely_turn _ _ htu := own_turn htu
  start_turn hinv h := Balanced.turn hinv h

/-- What a thread's own account shows holds among all threads. -/
theorem Accounts.wp {p : Prog (Op K E) (Answer A) α} {Q : α → Finset (Handle K) → Nat → Prop}
    (h : Accounts spill Q p (s.held t) (s.spilled t)) :
    (conduct spill T Loc leaky).wp t p
      (fun a s' => Q a (s'.held t) (s'.spilled t) ∧ s'.lost t = s.lost t) s := by
  induction p generalizing s with
  | ret a => exact ⟨h, rfl⟩
  | op o k ih =>
    rintro s₁ ⟨hheld, hlost, hspilled⟩ -
    rw [← hheld, ← hspilled] at h
    have hgoes : ∀ a s₂, effect spill t o s₁ a s₂ →
      Accounts spill Q (k a) (s₂.held t) (s₂.spilled t) ∧
        s₂.lost t = s₁.lost t := by
      intro a s₂ hstep
      cases o with
      | acquire kind =>
        cases a with
        | none =>
          obtain rfl : s₂ = s₁ := hstep
          exact ⟨h.1, rfl⟩
        | some new =>
          obtain ⟨hkind, hunused, rfl⟩ := hstep
          have hnew := h.2 new hkind fun hmem => hunused ⟨t, .inl hmem⟩
          simpa using hnew
      | release old =>
        obtain ⟨-, rfl⟩ := hstep
        simpa using h.2
      | call e =>
        obtain rfl : s₂ = _ := hstep
        simpa using h a
    refine ⟨?_, fun a s₂ hstep _ => ?_⟩
    · cases o with
      | acquire kind => trivial
      | release old => exact h.1
      | call e => trivial
    · obtain ⟨hrest, hsame⟩ := hgoes a s₂ hstep
      refine Discipline.wp_mono ?_ (ih a hrest)
      intro b s₃ hQ
      exact ⟨hQ.1, hQ.2.trans (hsame.trans hlost)⟩

variable {body : T → Loc → Prog (Op K E) (Answer A) (Option Loc)}
  {c : Config (Op K E) (Answer A) T (State T K) Loc}

def start (body : T → Loc → Prog (Op K E) (Answer A) (Option Loc)) (first : T → Option Loc) :
    Config (Op K E) (Answer A) T (State T K) Loc where
  state := .initial
  thread t := (first t).map (body t)

/-- Where every turn of a thread, started with nothing, ends with no more than it spilled,
no thread ever releases a handle that it does not hold, and all it has lost is what it
spilled. -/
theorem reachable_balanced {first : T → Option Loc}
    (hbody : ∀ t l n, Accounts spill (fun _ held n' => n + held.card = n' ∧ ∀ h ∈ held,
      leaky h.1) (body t l) ∅ n)
    (h : Config.Reachable (machine spill) body (start body first) c) :
    Inv c.state ∧ (∀ t h k, c.thread t = some (.op (.release h) k) → h ∈ c.state.held t) ∧
      ∀ t, (c.thread t = none ∨ ∃ b, c.thread t = some (.ret b)) → Balanced leaky t c.state := by
  have hwp : ∀ t l s, (conduct spill T Loc leaky).start t l s →
      (conduct spill T Loc leaky).wp t (body t l) ((conduct spill T Loc leaky).finish t) s := by
    rintro t l s ⟨hbalanced, hempty⟩
    have haccounts := hbody t l (s.spilled t)
    rw [← hempty] at haccounts
    refine Discipline.wp_mono ?_ haccounts.wp
    rintro b s' ⟨⟨hcount, hkinds⟩, hlost⟩
    have hbefore := hbalanced.count
    rw [hempty, Finset.card_empty, Nat.zero_add, ← hlost] at hbefore
    refine ⟨by omega, fun h hmem => ?_⟩
    rcases Finset.mem_union.mp hmem with hmem | hmem
    · exact hkinds h hmem
    · exact hbalanced.kinds h (Finset.mem_union_right _ (hlost ▸ hmem))
  have hnothing : ∀ t, Balanced leaky t (.initial : State T K) :=
    fun t => ⟨by simp [State.initial], by simp [State.initial]⟩
  have hkeeps : (conduct spill T Loc leaky).Keeps (start body first) := by
    refine ⟨⟨by simp [start, State.initial], by simp [start, State.initial],
      by simp [start, State.initial]⟩, ?_⟩
    intro t p hp
    obtain ⟨l, -, rfl⟩ := Option.map_eq_some_iff.mp hp
    exact hwp t l _ ⟨hnothing t, rfl⟩
  have hended : (conduct spill T Loc leaky).Ended (start body first) := fun t _ => hnothing t
  have hturn : ∀ t s, (conduct spill T Loc leaky).inv s →
    (conduct spill T Loc leaky).finish t none s →
      (conduct spill T Loc leaky).finish t none ((machine spill).turn t s) :=
        fun t s hinv hfinish => (Balanced.turn hinv hfinish).1
  have hnow := hkeeps.reachable conduct_sound (fun t l s _ => hwp t l s) h
  have hgone := Discipline.Ended.reachable conduct_sound hturn
    (fun t l s _ => hwp t l s) hkeeps hended h
  refine ⟨hnow.inv, fun t old k ht => hnow.allowed conduct_sound ht, fun t ht => ?_⟩
  rcases ht with hnone | ⟨b, hb⟩
  · exact hgone t hnone
  · exact hnow.wp t _ hb

end Ownership
