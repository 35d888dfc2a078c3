import Mathlib.Data.Finset.Basic
import StegaPng.Termination

/-! A mutex and a condition variable around data, as threads use them. A wait gives the
mutex back, a signal wakes some thread that waits, and any wait may end by itself. -/

namespace Monitor

open Interleaving

structure State (T S : Type) where
  owner : Option T := none
  waiting : Finset T := ∅
  woken : Finset T := ∅
  data : S

inductive Op (D : Type) where
  | lock
  | unlock
  | wait
  /-- The end of a wait. -/
  | reacquire
  | signal
  | broadcast
  | act (d : D)

abbrev Answer {D : Type} (A : D → Type) : Op D → Type
  | .act d => A d
  | _ => Unit

variable {T S D Loc α : Type} {A : D → Type} [DecidableEq T]

def State.wake (s : State T S) (up : Finset T) : State T S :=
  { s with waiting := s.waiting \ up, woken := s.woken ∪ up }

/-- What an operation of thread `t` does; `act` says what the accesses to the data do. -/
def effect (act : T → (d : D) → S → A d → S → Prop) (t : T) : (o : Op D) → State T S → Answer A o →
    State T S → Prop
  | .lock, s, _, s' => s.owner = none ∧ s' = { s with owner := some t }
  | .unlock, s, _, s' => s' = { s with owner := none }
  | .wait, s, _, s' => s' = { s with owner := none, waiting := insert t s.waiting }
  | .reacquire, s, _, s' =>
    s.owner = none ∧ t ∈ s.woken ∧ s' = { s with owner := some t, woken := s.woken.erase t }
  | .signal, s, _, s' => ∃ up ⊆ s.waiting, (s.waiting.Nonempty → up.Nonempty) ∧ s' = s.wake up
  | .broadcast, s, _, s' => s' = s.wake s.waiting
  | .act d, s, a, s' => ∃ data, act t d s.data a data ∧ s' = { s with data := data }

/-- Before an operation of its own, a thread may find others woken for no reason. -/
def machine (act : T → (d : D) → S → A d → S → Prop) : Machine (Op D) (Answer A) T (State T S) where
  step t o s a s' := ∃ up ⊆ s.waiting.erase t, effect act t o (s.wake up) a s'
  turn _ s := s

def condWait : Prog (Op D) (Answer A) Unit := do
  .perform Op.wait
  .perform Op.reacquire

/-- What the users of the data keep to: the accesses that need the mutex, what always holds
of the data, what holds of it and of those who sleep while the mutex is free, when an
access is in order, what a thread relies on, with the mutex in its hands or not, and how it
may leave. -/
structure Rules (act : T → (d : D) → S → A d → S → Prop) (Loc : Type) where
  guarded : D → Prop
  inv : S → Prop
  calm : Finset T → Finset T → S → Prop
  ready : T → D → S → Prop
  rely : T → Bool → S → S → Prop
  start : T → Loc → State T S → Prop
  done : T → S → Prop

/-- The thread has the mutex. -/
def Holds (t : T) (R : Finset T → Finset T → S → Prop) (s : State T S) : Prop :=
  s.owner = some t ∧ R s.waiting s.woken s.data

/-- The thread neither has the mutex nor waits. -/
def Outside (t : T) (P : S → Prop) (s : State T S) : Prop :=
  s.owner ≠ some t ∧ t ∉ s.waiting ∪ s.woken ∧ P s.data

variable {act : T → (d : D) → S → A d → S → Prop} {C : Rules act Loc} {t u : T}
  {s s' s'' : State T S} {o : Op D}

structure Inv (C : Rules act Loc) (s : State T S) : Prop where
  data : C.inv s.data
  apart : Disjoint s.waiting s.woken
  awake : ∀ t, s.owner = some t → t ∉ s.waiting ∪ s.woken
  calm : s.owner = none → C.calm s.waiting s.woken s.data

structure Rely (C : Rules act Loc) (t : T) (s s' : State T S) : Prop where
  owner : s'.owner = some t ↔ s.owner = some t
  asleep : t ∈ s'.waiting ∪ s'.woken ↔ t ∈ s.waiting ∪ s.woken
  data : C.rely t (decide (s.owner = some t)) s.data s'.data
  wakes : s.owner = some t → ∃ up ⊆ s.waiting, s'.waiting = s.waiting \ up ∧ s'.woken = s.woken ∪ up

def Allowed (C : Rules act Loc) (t : T) : Op D → State T S → Prop
  | .lock, s => Outside t (fun _ => True) s
  | .unlock, s => Holds t C.calm s
  | .wait, s => Holds t (fun waiting woken data => C.calm (insert t waiting) woken data) s
  | .reacquire, s => t ∈ s.waiting ∪ s.woken
  | .signal, s => s.owner = some t
  | .broadcast, s => s.owner = some t
  | .act d, s => t ∉ s.waiting ∪ s.woken ∧ (C.guarded d → s.owner = some t) ∧ C.ready t d s.data

def Rules.conduct (C : Rules act Loc) : Discipline (machine act) Loc where
  inv := Inv C
  allowed := Allowed C
  rely := Rely C
  start := C.start
  finish
    | t, none, s => Outside t (C.done t) s
    | t, some l, s => C.start t l s

/-- What the other threads cannot undo. -/
def Rules.Stable (C : Rules act Loc) (t : T) (P : S → Prop) : Prop :=
  ∀ held data data', P data → C.rely t held data data' → C.inv data' → P data'

/-- The rules are consistent. -/
structure Rules.Lawful (C : Rules act Loc) : Prop where
  calm_wake : ∀ {waiting woken up data}, up ⊆ waiting → C.calm waiting woken data →
    C.calm (waiting \ up) (woken ∪ up) data
  inv_act : ∀ {t d data a data'}, C.inv data → C.ready t d data → act t d data a data' → C.inv data'
  calm_act : ∀ {t d data a data' waiting woken}, C.inv data → C.ready t d data → ¬ C.guarded d →
    act t d data a data' → C.calm waiting woken data → C.calm waiting woken data'
  rely_act : ∀ {t u d data a data' held}, C.inv data → C.ready u d data →
    act u d data a data' → t ≠ u →
    (held = true → ¬ C.guarded d) → C.rely t held data data'
  rely_refl : ∀ t held data, C.rely t held data data
  rely_trans : ∀ {t held data data' data''}, C.rely t held data data' → C.rely t held data' data'' →
    C.rely t held data data''
  start_rely : ∀ {t l s s'}, C.start t l s → Rely C t s s' → Inv C s' → C.start t l s'
  done_stable : ∀ t, C.Stable t (C.done t)

theorem effect_step {a : Answer A o} (h : effect act t o s a s') :
    (machine act).step t o s a s' := by
  refine ⟨∅, Finset.empty_subset _, ?_⟩
  have hsame : s.wake ∅ = s := by simp [State.wake]
  rwa [hsame]

theorem wake_union (s : State T S) {up : Finset T} (hup : up ⊆ s.waiting) :
    (s.wake up).waiting ∪ (s.wake up).woken = s.waiting ∪ s.woken := by
  ext t
  have hmem : t ∈ up → t ∈ s.waiting := fun ht => hup ht
  simp only [State.wake, Finset.mem_union, Finset.mem_sdiff]
  tauto

theorem Inv.wake (hC : C.Lawful) (h : Inv C s) {up : Finset T} (hup : up ⊆ s.waiting) :
    Inv C (s.wake up) where
  data := h.data
  apart := by
    have hapart := Finset.disjoint_left.mp h.apart
    refine Finset.disjoint_left.mpr fun t ht ht' => ?_
    simp only [State.wake, Finset.mem_union, Finset.mem_sdiff] at ht ht'
    rcases ht' with hwoken | hup
    · exact hapart ht.1 hwoken
    · exact ht.2 hup
  awake t ht := by
    rw [wake_union s hup]
    exact h.awake t ht
  calm hfree := hC.calm_wake hup (h.calm hfree)

theorem rely_refl (hC : C.Lawful) (t : T) (s : State T S) : Rely C t s s where
  owner := Iff.rfl
  asleep := Iff.rfl
  data := hC.rely_refl _ _ _
  wakes _ := ⟨∅, by simp, by simp, by simp⟩

theorem rely_wake (hC : C.Lawful) (t : T) {up : Finset T} (hup : up ⊆ s.waiting) :
    Rely C t s (s.wake up) where
  owner := Iff.rfl
  asleep := by rw [wake_union s hup]
  data := hC.rely_refl _ _ _
  wakes _ := ⟨up, hup, rfl, rfl⟩

theorem Allowed.wake (hC : C.Lawful) (h : Allowed C t o s) {up : Finset T}
    (hup : up ⊆ s.waiting.erase t) :
    Allowed C t o (s.wake up) := by
  have hsub : up ⊆ s.waiting := hup.trans (Finset.erase_subset t s.waiting)
  have hself : t ∉ up := fun ht => Finset.ne_of_mem_erase (hup ht) rfl
  cases o with
  | lock =>
    obtain ⟨howner, hawake, -⟩ := h
    exact ⟨howner, by rwa [wake_union s hsub], trivial⟩
  | unlock => exact ⟨h.1, hC.calm_wake hsub h.2⟩
  | wait =>
    refine ⟨h.1, ?_⟩
    have hcalm := hC.calm_wake (hsub.trans (Finset.subset_insert t s.waiting)) h.2
    rwa [Finset.insert_sdiff_of_notMem _ hself] at hcalm
  | reacquire =>
    change t ∈ (s.wake up).waiting ∪ (s.wake up).woken
    rwa [wake_union s hsub]
  | signal => exact h
  | broadcast => exact h
  | act d =>
    obtain ⟨hawake, howner, hready⟩ := h
    exact ⟨by rwa [wake_union s hsub], howner, hready⟩

theorem Inv.effect (hC : C.Lawful) (h : Inv C s) (hallowed : Allowed C t o s) {a : Answer A o}
    (hstep : effect act t o s a s') : Inv C s' := by
  cases o with
  | lock =>
    obtain ⟨hfree, rfl⟩ := hstep
    refine ⟨h.data, h.apart, fun u hu => ?_, fun hnone => nomatch hnone⟩
    obtain rfl : t = u := Option.some.inj hu
    exact hallowed.2.1
  | unlock =>
    obtain rfl : s' = _ := hstep
    exact ⟨h.data, h.apart, fun u hu => (nomatch hu), fun _ => hallowed.2⟩
  | wait =>
    obtain rfl : s' = _ := hstep
    have hself := h.awake t hallowed.1
    refine ⟨h.data, ?_, fun u hu => (nomatch hu), fun _ => hallowed.2⟩
    rw [Finset.disjoint_insert_left]
    exact ⟨fun ht => hself (Finset.mem_union_right _ ht), h.apart⟩
  | reacquire =>
    obtain ⟨hfree, hwoken, rfl⟩ := hstep
    refine ⟨h.data, h.apart.mono_right (Finset.erase_subset t _), fun u hu => ?_,
      fun hnone => (nomatch hnone)⟩
    obtain rfl : t = u := Option.some.inj hu
    have hnot : t ∉ s.waiting := fun ht => Finset.disjoint_left.mp h.apart ht hwoken
    simp [hnot]
  | signal =>
    obtain ⟨up, hup, -, rfl⟩ := hstep
    exact h.wake hC hup
  | broadcast =>
    obtain rfl : s' = _ := hstep
    exact h.wake hC (Finset.Subset.refl _)
  | act d =>
    obtain ⟨data, hact, rfl⟩ := hstep
    obtain ⟨hawake, howner, hready⟩ := hallowed
    refine ⟨hC.inv_act h.data hready hact, h.apart, h.awake, fun hfree => ?_⟩
    have hunguarded : ¬ C.guarded d := fun hguarded => by
      rw [howner hguarded] at hfree
      cases hfree
    exact hC.calm_act h.data hready hunguarded hact (h.calm hfree)

theorem rely_effect (hC : C.Lawful) (h : Inv C s) (hallowed : Allowed C u o s) {a : Answer A o}
    (hstep : effect act u o s a s') (htu : t ≠ u) : Rely C t s s' := by
  have hfixed : ∀ {owner : Option T} {waiting woken : Finset T},
    (owner = some t ↔ s.owner = some t) →
      (t ∈ waiting ∪ woken ↔ t ∈ s.waiting ∪ s.woken) → s.owner ≠ some t →
        Rely C t s ⟨owner, waiting, woken, s.data⟩ :=
    fun howner hasleep hnot => ⟨howner, hasleep, hC.rely_refl _ _ _, fun ht => absurd ht hnot⟩
  have hother : some u ≠ some t := fun hsome => htu (Option.some.inj hsome).symm
  cases o with
  | lock =>
    obtain ⟨hfree, rfl⟩ := hstep
    exact hfixed (by simp [hfree, hother]) Iff.rfl (by simp [hfree])
  | unlock =>
    obtain rfl : s' = _ := hstep
    have howner : s.owner = some u := hallowed.1
    exact hfixed (by simp [howner, hother]) Iff.rfl (by simp [howner, hother])
  | wait =>
    obtain rfl : s' = _ := hstep
    have howner : s.owner = some u := hallowed.1
    exact hfixed (by simp [howner, hother]) (by simp [htu]) (by simp [howner, hother])
  | reacquire =>
    obtain ⟨hfree, hwoken, rfl⟩ := hstep
    exact hfixed (by simp [hfree, hother]) (by simp [htu]) (by simp [hfree])
  | signal =>
    obtain ⟨up, hup, -, rfl⟩ := hstep
    exact rely_wake hC t hup
  | broadcast =>
    obtain rfl : s' = _ := hstep
    exact rely_wake hC t (Finset.Subset.refl _)
  | act d =>
    obtain ⟨data, hact, rfl⟩ := hstep
    obtain ⟨-, howner, hready⟩ := hallowed
    refine ⟨Iff.rfl, Iff.rfl, hC.rely_act h.data hready hact htu fun hheld hguarded => ?_,
      fun _ => ⟨∅, by simp, by simp, by simp⟩⟩
    exact hother ((howner hguarded).symm.trans (of_decide_eq_true hheld))

theorem Rely.trans (hC : C.Lawful) (h : Rely C t s s') (h' : Rely C t s' s'') : Rely C t s s'' where
  owner := h'.owner.trans h.owner
  asleep := h'.asleep.trans h.asleep
  data := by
    have hdata := h'.data
    rw [decide_eq_decide.mpr h.owner] at hdata
    exact hC.rely_trans h.data hdata
  wakes howner := by
    obtain ⟨up, hup, hwaiting, hwoken⟩ := h.wakes howner
    obtain ⟨up', hup', hwaiting', hwoken'⟩ := h'.wakes (h.owner.mpr howner)
    refine ⟨up ∪ up', Finset.union_subset hup ?_, ?_, ?_⟩
    · rw [hwaiting] at hup'
      exact hup'.trans Finset.sdiff_subset
    · rw [hwaiting', hwaiting, sdiff_sdiff_left, Finset.sup_eq_union]
    · rw [hwoken', hwoken, Finset.union_assoc]

theorem Outside.rely {P : S → Prop} (h : Outside t P s) (hP : C.Stable t P) (hrely : Rely C t s s')
    (hinv : Inv C s') :
    Outside t P s' := by
  obtain ⟨howner, hawake, hknows⟩ := h
  exact ⟨fun ht => howner (hrely.owner.mp ht), fun ht => hawake (hrely.asleep.mp ht),
    hP _ _ _ hknows hrely.data hinv.data⟩

theorem conduct_sound (hC : C.Lawful) : C.conduct.Sound where
  inv_step h hallowed hstep := by
    obtain ⟨up, hup, heffect⟩ := hstep
    have hsub := hup.trans (Finset.erase_subset _ _)
    exact (Inv.wake hC h hsub).effect hC (Allowed.wake hC hallowed hup) heffect
  rely_step h hallowed hstep htu := by
    obtain ⟨up, hup, heffect⟩ := hstep
    have hsub := hup.trans (Finset.erase_subset _ _)
    exact (rely_wake hC _ hsub).trans hC
      (rely_effect hC (Inv.wake hC h hsub) (Allowed.wake hC hallowed hup) heffect htu)
  rely_refl := rely_refl hC
  rely_trans h h' := Rely.trans hC h h'
  finish_rely {t b s s'} hfinish hrely hinv := by
    cases b with
    | none => exact Outside.rely hfinish (hC.done_stable t) hrely hinv
    | some l => exact hC.start_rely hfinish hrely hinv
  inv_turn h _ := h
  rely_turn {t u b s} _ _ _ := rely_refl hC t s
  start_turn _ hfinish := hfinish

/-! The rules of each operation, for a thread that knows `P` or, with the mutex in its
hands, `R`. -/

/-- What the other threads cannot undo while the thread has the mutex. -/
structure Rules.HeldStable (C : Rules act Loc) (t : T)
    (R : Finset T → Finset T → S → Prop) : Prop where
  wake : ∀ {waiting woken up data}, up ⊆ waiting → R waiting woken data →
    R (waiting \ up) (woken ∪ up) data
  data : ∀ {waiting woken data data'}, R waiting woken data → C.rely t true data data' →
    C.inv data' → R waiting woken data'

theorem Holds.rely {R : Finset T → Finset T → S → Prop} (h : Holds t R s) (hR : C.HeldStable t R)
    (hrely : Rely C t s s') (hinv : Inv C s') : Holds t R s' := by
  obtain ⟨howner, hknows⟩ := h
  obtain ⟨up, hup, hwaiting, hwoken⟩ := hrely.wakes howner
  have hdata := hrely.data
  rw [decide_eq_true howner] at hdata
  refine ⟨hrely.owner.mpr howner, ?_⟩
  rw [hwaiting, hwoken]
  exact hR.data (hR.wake hup hknows) hdata hinv.data

theorem Outside.true {P : S → Prop} (h : Outside t P s) : Outside t (fun _ => True) s :=
  ⟨h.1, h.2.1, trivial⟩

variable {P : S → Prop} {R G : Finset T → Finset T → S → Prop} {Q : α → State T S → Prop}

theorem wp_lock (hC : C.Lawful) (hP : C.Stable t P) (h : Outside t P s)
    {k : Unit → Prog (Op D) (Answer A) α}
    (hk : ∀ s, Holds t (fun waiting woken data => C.calm waiting woken data ∧ P data) s →
      C.conduct.wp t (k ()) Q s) :
    C.conduct.wp t (.op .lock k) Q s := by
  intro s₁ hrely hinv
  have h₁ := h.rely hP hrely hinv
  refine ⟨h₁.true, ?_⟩
  rintro ⟨⟩ s₂ ⟨up, hup, hfree, rfl⟩ -
  have hcalm := (Inv.wake hC hinv (hup.trans (Finset.erase_subset t _))).calm hfree
  exact hk _ ⟨rfl, hcalm, h₁.2.2⟩

theorem wp_unlock (hR : C.HeldStable t R) (h : Holds t R s)
    (hcalm : ∀ {waiting woken data}, R waiting woken data →
    C.calm waiting woken data ∧ P data) {k : Unit → Prog (Op D) (Answer A) α}
    (hk : ∀ s, Outside t P s → C.conduct.wp t (k ()) Q s) : C.conduct.wp t (.op .unlock k) Q s := by
  intro s₁ hrely hinv
  have h₁ := h.rely hR hrely hinv
  refine ⟨⟨h₁.1, (hcalm h₁.2).1⟩, ?_⟩
  rintro ⟨⟩ s₂ ⟨up, hup, rfl⟩ -
  have hawake := hinv.awake t h₁.1
  rw [← wake_union s₁ (hup.trans (Finset.erase_subset t _))] at hawake
  exact hk _ ⟨by simp, hawake, (hcalm h₁.2).2⟩

theorem wp_condWait (hC : C.Lawful) (hR : C.HeldStable t R) (hP : C.Stable t P) (h : Holds t R s)
    (hcalm : ∀ {waiting woken data}, R waiting woken data →
      C.calm (insert t waiting) woken data ∧ P data)
    {f : Unit → Prog (Op D) (Answer A) α}
    (hf : ∀ s, Holds t (fun waiting woken data => C.calm waiting (insert t woken) data ∧ P data) s →
      C.conduct.wp t (f ()) Q s) : C.conduct.wp t (condWait >>= f) Q s := by
  intro s₁ hrely hinv
  have h₁ := h.rely hR hrely hinv
  refine ⟨⟨h₁.1, (hcalm h₁.2).1⟩, ?_⟩
  rintro ⟨⟩ s₂ ⟨up, hup, rfl⟩ hinv₂ s₃ hrely₃ hinv₃
  have hasleep : t ∈ s₃.waiting ∪ s₃.woken :=
    hrely₃.asleep.mpr (Finset.mem_union_left _ (Finset.mem_insert_self t _))
  refine ⟨hasleep, ?_⟩
  rintro ⟨⟩ s₄ ⟨up', hup', hfree, hwoken, rfl⟩ -
  have hcalm₃ := (Inv.wake hC hinv₃ (hup'.trans (Finset.erase_subset t _))).calm hfree
  refine hf _ ⟨rfl, ?_, hP _ _ _ (hcalm h₁.2).2 hrely₃.data hinv₃.data⟩
  rwa [Finset.insert_erase hwoken]

theorem wp_signal (hR : C.HeldStable t R) (h : Holds t R s)
    (hsignal : ∀ {waiting woken up data}, R waiting woken data → Disjoint waiting woken →
      up ⊆ waiting →
      (waiting.Nonempty → up.Nonempty) → G (waiting \ up) (woken ∪ up) data)
        {k : Unit → Prog (Op D) (Answer A) α}
    (hk : ∀ s, Holds t G s → C.conduct.wp t (k ()) Q s) : C.conduct.wp t (.op .signal k) Q s := by
  intro s₁ hrely hinv
  have h₁ := h.rely hR hrely hinv
  refine ⟨h₁.1, ?_⟩
  rintro ⟨⟩ s₂ ⟨up, hup, up', hup', hsome, rfl⟩ -
  have hsub := hup.trans (Finset.erase_subset t _)
  have hapart : Disjoint (s₁.waiting \ up) (s₁.woken ∪ up) := by
    rw [Finset.disjoint_union_right]
    exact ⟨hinv.apart.mono_left Finset.sdiff_subset, Finset.sdiff_disjoint⟩
  exact hk _ ⟨h₁.1, hsignal (hR.wake hsub h₁.2) hapart hup' hsome⟩

theorem wp_broadcast (hR : C.HeldStable t R) (h : Holds t R s)
    (hbroadcast : ∀ {waiting woken data}, R waiting woken data → G ∅ (woken ∪ waiting) data)
    {k : Unit → Prog (Op D) (Answer A) α} (hk : ∀ s, Holds t G s → C.conduct.wp t (k ()) Q s) :
    C.conduct.wp t (.op .broadcast k) Q s := by
  intro s₁ hrely hinv
  have h₁ := h.rely hR hrely hinv
  refine ⟨h₁.1, ?_⟩
  rintro ⟨⟩ s₂ ⟨up, hup, rfl⟩ -
  have hsub := hup.trans (Finset.erase_subset t _)
  have hall := hbroadcast (hR.wake hsub h₁.2)
  refine hk _ ⟨h₁.1, ?_⟩
  simpa [State.wake] using hall

variable {d : D}

/-- An access of the thread that has the mutex. -/
theorem wp_access {G : A d → Finset T → Finset T → S → Prop} (hR : C.HeldStable t R)
    (h : Holds t R s)
    (hready : ∀ {waiting woken data}, R waiting woken data → C.inv data → C.ready t d data)
    (haccess : ∀ {waiting woken data a data'}, R waiting woken data → C.inv data →
      act t d data a data' →
      G a waiting woken data') {k : A d → Prog (Op D) (Answer A) α}
    (hk : ∀ a s, Holds t (G a) s → C.conduct.wp t (k a) Q s) :
    C.conduct.wp t (.op (.act d) k) Q s := by
  intro s₁ hrely hinv
  have h₁ := h.rely hR hrely hinv
  refine ⟨⟨hinv.awake t h₁.1, fun _ => h₁.1, hready h₁.2 hinv.data⟩, ?_⟩
  rintro a s₂ ⟨up, hup, data, hact, rfl⟩ -
  have hsub := hup.trans (Finset.erase_subset t _)
  exact hk a _ ⟨h₁.1, haccess (hR.wake hsub h₁.2) hinv.data hact⟩

/-- An access that needs no mutex. -/
theorem wp_outside {G : A d → S → Prop} (hP : C.Stable t P) (h : Outside t P s) (hd : ¬ C.guarded d)
    (hready : ∀ {data}, P data → C.inv data → C.ready t d data)
    (haccess : ∀ {data a data'}, P data → C.inv data → act t d data a data' → G a data')
    {k : A d → Prog (Op D) (Answer A) α}
    (hk : ∀ a s, Outside t (G a) s → C.conduct.wp t (k a) Q s) :
    C.conduct.wp t (.op (.act d) k) Q s := by
  intro s₁ hrely hinv
  obtain ⟨howner, hawake, hknows⟩ := h.rely hP hrely hinv
  refine ⟨⟨hawake, fun hguarded => absurd hguarded hd, hready hknows hinv.data⟩, ?_⟩
  rintro a s₂ ⟨up, hup, data, hact, rfl⟩ -
  rw [← wake_union s₁ (hup.trans (Finset.erase_subset t _))] at hawake
  exact hk a _ ⟨howner, hawake, haccess hknows hinv.data hact⟩

/-! Where nobody moves any more. -/

/-- In a configuration that is stuck the mutex is free, and every thread that is left
sleeps and has not been woken. -/
theorem final_asleep (hC : C.Lawful)
    (htotal : ∀ {t d data}, C.inv data → C.ready t d data → ∃ a data', act t d data a data')
    {c : Config (Op D) (Answer A) T (State T S) Loc} (hkeeps : C.conduct.Keeps c)
    (hended : C.conduct.Ended c) (hfinal : c.Final (machine act)) :
    c.state.owner = none ∧ c.state.woken = ∅ ∧
      ∀ t, c.thread t ≠ none → t ∈ c.state.waiting ∧ ∃ k, c.thread t = some (.op .reacquire k) := by
  have hblocked : ∀ t p, c.thread t = some p → ∃ o k, p = .op o k ∧ Allowed C t o c.state ∧
      ∀ a s', ¬ effect act t o c.state a s' := by
    intro t p hp
    obtain ⟨o, k, rfl, hstuck⟩ := hfinal t p hp
    exact ⟨o, k, rfl, hkeeps.allowed (conduct_sound hC) hp,
      fun a s' heffect => hstuck a s' (effect_step heffect)⟩
  have hlives : ∀ t, ¬ Outside t (fun _ => True) c.state → ∃ p, c.thread t = some p := by
    intro t hnot
    cases hp : c.thread t with
    | none => exact absurd (Outside.true (hended t hp)) hnot
    | some p => exact ⟨p, rfl⟩
  have hstands : ∀ t o k, c.thread t = some (.op o k) → Allowed C t o c.state →
    (∀ a s', ¬ effect act t o c.state a s') →
      (o = .lock ∨ o = .reacquire) := by
    intro t o k hp hallowed hstuck
    cases o with
    | lock => exact .inl rfl
    | reacquire => exact .inr rfl
    | unlock => exact absurd rfl (hstuck () _)
    | wait => exact absurd rfl (hstuck () _)
    | signal => exact absurd ⟨c.state.waiting, Finset.Subset.refl _, id, rfl⟩ (hstuck () _)
    | broadcast => exact absurd rfl (hstuck () _)
    | act d =>
      obtain ⟨a, data', hact⟩ := htotal hkeeps.inv.data hallowed.2.2
      exact absurd ⟨data', hact, rfl⟩ (hstuck a _)
  have hfree : c.state.owner = none := by
    cases howner : c.state.owner with
    | none => rfl
    | some t =>
      obtain ⟨p, hp⟩ := hlives t fun hout => hout.1 howner
      obtain ⟨o, k, rfl, hallowed, hstuck⟩ := hblocked t p hp
      rcases hstands t o k hp hallowed hstuck with rfl | rfl
      · exact absurd howner hallowed.1
      · exact absurd hallowed (hkeeps.inv.awake t howner)
  have hreacquires : ∀ t p, c.thread t = some p → t ∉ c.state.woken ∧ ∃ k, p = .op .reacquire k ∧
      t ∈ c.state.waiting ∪ c.state.woken := by
    intro t p hp
    obtain ⟨o, k, rfl, hallowed, hstuck⟩ := hblocked t p hp
    rcases hstands t o k hp hallowed hstuck with rfl | rfl
    · exact absurd ⟨hfree, rfl⟩ (hstuck () _)
    · exact ⟨fun hwoken => hstuck () _ ⟨hfree, hwoken, rfl⟩, k, rfl, hallowed⟩
  refine ⟨hfree, ?_, fun t ht => ?_⟩
  · refine Finset.eq_empty_of_forall_notMem fun t ht => ?_
    obtain ⟨p, hp⟩ := hlives t fun hout => hout.2.1 (Finset.mem_union_right _ ht)
    exact (hreacquires t p hp).1 ht
  · obtain ⟨p, hp⟩ := Option.ne_none_iff_exists'.mp ht
    obtain ⟨hnot, k, rfl, hasleep⟩ := hreacquires t p hp
    exact ⟨(Finset.mem_union.mp hasleep).resolve_right hnot, k, hp⟩

end Monitor
