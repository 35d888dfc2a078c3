import Mathlib.Logic.Relation

/-! Threads that run sequential programs over one shared state, an atomic operation
at a time, and the rely-guarantee rules for all their interleavings. -/

namespace Interleaving

/-- A program returns, or performs an operation and continues with its answer. -/
inductive Prog (Op : Type) (Ans : Op → Type) (α : Type) where
  | ret (a : α)
  | op (o : Op) (k : Ans o → Prog Op Ans α)

namespace Prog

variable {Op : Type} {Ans : Op → Type} {α β γ : Type}

def bind : Prog Op Ans α → (α → Prog Op Ans β) → Prog Op Ans β
  | .ret a, f => f a
  | .op o k, f => .op o fun a => (k a).bind f

instance : Monad (Prog Op Ans) where
  pure := .ret
  bind := bind

def perform (o : Op) : Prog Op Ans (Ans o) := .op o .ret

@[simp] theorem pure_eq (a : α) : (pure a : Prog Op Ans α) = .ret a := rfl

@[simp] theorem ret_bind (a : α) (f : α → Prog Op Ans β) : (.ret a >>= f) = f a := rfl

@[simp] theorem op_bind (o : Op) (k : Ans o → Prog Op Ans α) (f : α → Prog Op Ans β) :
    (.op o k >>= f) = .op o fun a => k a >>= f := rfl

@[simp] theorem perform_bind (o : Op) (f : Ans o → Prog Op Ans β) :
    (perform o >>= f) = .op o f := rfl

theorem bind_assoc (p : Prog Op Ans α) (f : α → Prog Op Ans β) (g : β → Prog Op Ans γ) :
    p >>= f >>= g = p >>= fun a => f a >>= g := by
  induction p with
  | ret a => rfl
  | op o k ih =>
    simp only [op_bind]
    congr 1
    funext a
    exact ih a

/-- Every operation of the program satisfies `C`, whatever the answers are. -/
def All (C : Op → Prop) : Prog Op Ans α → Prop
  | .ret _ => True
  | .op o k => C o ∧ ∀ a, (k a).All C

variable {C : Op → Prop}

@[simp] theorem all_ret (a : α) : (.ret a : Prog Op Ans α).All C := trivial

@[simp] theorem all_pure (a : α) : (pure a : Prog Op Ans α).All C := trivial

@[simp] theorem all_op (o : Op) (k : Ans o → Prog Op Ans α) :
    (Prog.op o k).All C ↔ C o ∧ ∀ a, (k a).All C := Iff.rfl

@[simp] theorem all_perform (o : Op) : (perform o : Prog Op Ans (Ans o)).All C ↔ C o := by
  simp [perform]

theorem All.bind {p : Prog Op Ans α} (hp : p.All C) {f : α → Prog Op Ans β}
    (hf : ∀ a, (f a).All C) : (p >>= f).All C := by
  induction p with
  | ret a => exact hf a
  | op o k ih => exact ⟨hp.1, fun a => ih a (hp.2 a)⟩

theorem All.mono {C' : Op → Prop} (hC : ∀ o, C o → C' o) {p : Prog Op Ans α} (hp : p.All C) :
    p.All C' := by
  induction p with
  | ret a => trivial
  | op o k ih => exact ⟨hC o hp.1, fun a => ih a (hp.2 a)⟩

/-- The program can return `a`, for some answers to its operations. -/
inductive Yields : Prog Op Ans α → α → Prop where
  | ret (a : α) : Yields (.ret a) a
  | op {o : Op} {k : Ans o → Prog Op Ans α} {b : Ans o} {a : α} (h : Yields (k b) a) :
      Yields (.op o k) a

theorem yields_ret {a b : α} : (.ret a : Prog Op Ans α).Yields b ↔ b = a := by
  constructor
  · rintro ⟨⟩
    rfl
  · rintro rfl
    exact .ret _

theorem yields_op {o : Op} {k : Ans o → Prog Op Ans α} {a : α} :
    (Prog.op o k).Yields a ↔ ∃ b, (k b).Yields a := by
  constructor
  · intro h
    cases h with
    | op hrest => exact ⟨_, hrest⟩
  · rintro ⟨b, h⟩
    exact .op h

theorem yields_bind {p : Prog Op Ans α} {f : α → Prog Op Ans β} {b : β} :
    (p >>= f).Yields b ↔ ∃ a, p.Yields a ∧ (f a).Yields b := by
  induction p with
  | ret a => simp [yields_ret]
  | op o k ih =>
    simp only [op_bind, yields_op, ih]
    constructor
    · rintro ⟨c, a, hp, hf⟩
      exact ⟨a, ⟨c, hp⟩, hf⟩
    · rintro ⟨a, ⟨c, hp⟩, hf⟩
      exact ⟨c, a, hp, hf⟩

/-- While the answers are as `A` says, the program performs on every path an operation in
`C`, or it returns as `Q` says. -/
def Performs (A : (o : Op) → Ans o → Prop) (C : Op → Prop) : Prog Op Ans α → (α → Prop) → Prop
  | .ret a, Q => Q a
  | .op o k, Q => C o ∨ ∀ b, A o b → (k b).Performs A C Q

section

variable {A : (o : Op) → Ans o → Prop} {Q : α → Prop}

theorem Performs.bind {p : Prog Op Ans α} {f : α → Prog Op Ans β} {R : β → Prop}
    (hp : p.Performs A C Q) (hf : ∀ a, Q a → (f a).Performs A C R) : (p >>= f).Performs A C R := by
  induction p with
  | ret a => exact hf a hp
  | op o k ih => exact hp.imp id fun hk b hb => ih b (hk b hb)

theorem Performs.mono {p : Prog Op Ans α} {R : α → Prop} (hp : p.Performs A C Q)
    (hQ : ∀ a, Q a → R a) :
    p.Performs A C R := by
  induction p with
  | ret a => exact hQ a hp
  | op o k ih => exact hp.imp id fun hk b hb => ih b (hk b hb)

theorem performs_any (p : Prog Op Ans α) : p.Performs A C fun _ => True := by
  induction p with
  | ret a => trivial
  | op o k ih => exact .inr fun b _ => ih b

theorem performs_now {o : Op} (ho : C o) {R : Ans o → Prop} :
    (perform o : Prog Op Ans (Ans o)).Performs A C R :=
  .inl ho

theorem performs_answer (o : Op) : (perform o : Prog Op Ans (Ans o)).Performs A C (A o) :=
  .inr fun _ hb => hb

end

end Prog

/-- What an operation of a thread may do to the state, and the record of the end
of a turn. -/
structure Machine (Op : Type) (Ans : Op → Type) (Tid St : Type) where
  step : Tid → (o : Op) → St → Ans o → St → Prop
  turn : Tid → St → St

variable {Op : Type} {Ans : Op → Type} {Tid St Loc α β : Type}

/-- A complete run of one program with no other thread taking a step. -/
inductive Runs (M : Machine Op Ans Tid St) (t : Tid) : Prog Op Ans α → St → α → St → Prop where
  | ret (a : α) (s : St) : Runs M t (.ret a) s a s
  | op {o : Op} {k : Ans o → Prog Op Ans α} {s s' s'' : St} {b : Ans o} {a : α}
      (hstep : M.step t o s b s') (hrest : Runs M t (k b) s' a s'') : Runs M t (.op o k) s a s''

namespace Runs

variable {M : Machine Op Ans Tid St} {t : Tid} {s s' : St}

theorem ret_iff {a b : α} : Runs M t (.ret a) s b s' ↔ b = a ∧ s' = s := by
  constructor
  · rintro ⟨⟩
    exact ⟨rfl, rfl⟩
  · rintro ⟨rfl, rfl⟩
    exact .ret _ _

theorem op_iff {o : Op} {k : Ans o → Prog Op Ans α} {a : α} :
    Runs M t (.op o k) s a s' ↔ ∃ b s₁, M.step t o s b s₁ ∧ Runs M t (k b) s₁ a s' := by
  constructor
  · rintro ⟨⟩
    exact ⟨_, _, ‹_›, ‹_›⟩
  · rintro ⟨b, s₁, hstep, hrest⟩
    exact .op hstep hrest

theorem perform_iff {o : Op} {a : Ans o} : Runs M t (Prog.perform o) s a s' ↔
    M.step t o s a s' := by
  simp only [Prog.perform, op_iff, ret_iff]
  constructor
  · rintro ⟨b, s₁, hstep, rfl, rfl⟩
    exact hstep
  · intro hstep
    exact ⟨a, s', hstep, rfl, rfl⟩

theorem bind_iff {p : Prog Op Ans α} {f : α → Prog Op Ans β} {b : β} :
    Runs M t (p >>= f) s b s' ↔ ∃ a s₁, Runs M t p s a s₁ ∧ Runs M t (f a) s₁ b s' := by
  induction p generalizing s with
  | ret a =>
    simp only [Prog.ret_bind, ret_iff]
    constructor
    · intro h
      exact ⟨a, s, ⟨rfl, rfl⟩, h⟩
    · rintro ⟨_, _, ⟨rfl, rfl⟩, h⟩
      exact h
  | op o k ih =>
    simp only [Prog.op_bind, op_iff, ih]
    constructor
    · rintro ⟨c, s₁, hstep, a, s₂, hp, hf⟩
      exact ⟨a, s₂, ⟨c, s₁, hstep, hp⟩, hf⟩
    · rintro ⟨a, s₂, ⟨c, s₁, hstep, hp⟩, hf⟩
      exact ⟨c, s₁, hstep, a, s₂, hp, hf⟩

theorem yields {p : Prog Op Ans α} {a : α} (h : Runs M t p s a s') : p.Yields a := by
  induction h with
  | ret a s => exact .ret a
  | op _ _ ih => exact .op ih

/-- A program none of whose operations can block has a run from every state. -/
theorem exists_of_all {C : Op → Prop} (hC : ∀ o, C o → ∀ s, ∃ a s', M.step t o s a s')
    {p : Prog Op Ans α} (hp : p.All C) (s : St) : ∃ a s', Runs M t p s a s' := by
  induction p generalizing s with
  | ret a => exact ⟨a, s, .ret a s⟩
  | op o k ih =>
    obtain ⟨b, s₁, hstep⟩ := hC o hp.1 s
    obtain ⟨a, s₂, hrest⟩ := ih b (hp.2 b) s₁
    exact ⟨a, s₂, .op hstep hrest⟩

theorem mono {M' : Machine Op Ans Tid St} (hM : ∀ o s a s', M.step t o s a s' → M'.step t o s a s')
    {p : Prog Op Ans α} {a : α} (h : Runs M t p s a s') : Runs M' t p s a s' := by
  induction h with
  | ret a s => exact .ret a s
  | op hs _ ih => exact .op (hM _ _ _ _ hs) ih

/-- What every operation preserves, the run preserves. -/
theorem preserves {C : Op → Prop} {P : St → Prop}
    (hstep : ∀ o s a s', C o → P s → M.step t o s a s' → P s')
    {p : Prog Op Ans α} (hp : p.All C) {a : α} (hs : P s) (h : Runs M t p s a s') : P s' := by
  induction h with
  | ret a s => exact hs
  | op hs₁ _ ih => exact ih (hp.2 _) (hstep _ _ _ _ hp.1 hs hs₁)

end Runs

/-- A thread takes turns: each turn runs its body from what the last one left, until
a turn leaves nothing. -/
structure Config (Op : Type) (Ans : Op → Type) (Tid St Loc : Type) where
  state : St
  thread : Tid → Option (Prog Op Ans (Option Loc))

namespace Config

variable [DecidableEq Tid]

def put (c : Config Op Ans Tid St Loc) (t : Tid) (p : Option (Prog Op Ans (Option Loc))) (s : St) :
    Config Op Ans Tid St Loc where
  state := s
  thread := fun u => if u = t then p else c.thread u

inductive Step (M : Machine Op Ans Tid St) (body : Tid → Loc → Prog Op Ans (Option Loc)) :
    Config Op Ans Tid St Loc → Config Op Ans Tid St Loc → Prop where
  | op {c : Config Op Ans Tid St Loc} {t : Tid} {o : Op} {k : Ans o → Prog Op Ans (Option Loc)}
      {a : Ans o} {s : St} (ht : c.thread t = some (.op o k)) (hstep : M.step t o c.state a s) :
      Step M body c (c.put t (some (k a)) s)
  | again {c : Config Op Ans Tid St Loc} {t : Tid} {l : Loc}
      (ht : c.thread t = some (.ret (some l))) :
      Step M body c (c.put t (some (body t l)) (M.turn t c.state))
  | halt {c : Config Op Ans Tid St Loc} {t : Tid} (ht : c.thread t = some (.ret none)) :
      Step M body c (c.put t none (M.turn t c.state))

abbrev Reachable (M : Machine Op Ans Tid St) (body : Tid → Loc → Prog Op Ans (Option Loc)) :=
  Relation.ReflTransGen fun (c c' : Config Op Ans Tid St Loc) => Step M body c c'

section

variable {M : Machine Op Ans Tid St} {body : Tid → Loc → Prog Op Ans (Option Loc)}

theorem put_put (c : Config Op Ans Tid St Loc) (t : Tid) (p q : Option (Prog Op Ans (Option Loc)))
    (s s' : St) :
    (c.put t p s).put t q s' = c.put t q s' := by
  simp only [put, mk.injEq, true_and]
  funext u
  by_cases hu : u = t
  · rw [if_pos hu, if_pos hu]
  · rw [if_neg hu, if_neg hu, if_neg hu]

theorem reachable_runs {c : Config Op Ans Tid St Loc} {t : Tid} {p : Prog Op Ans (Option Loc)}
    {b : Option Loc} {s' : St} (ht : c.thread t = some p) (h : Runs M t p c.state b s') :
    Reachable M body c (c.put t (some (.ret b)) s') := by
  generalize hs : c.state = s at h
  induction h generalizing c with
  | ret a s =>
    have hsame : c.put t (some (.ret a)) s = c := by
      rw [← hs, ← ht]
      simp only [put]
      congr 1
      funext u
      by_cases hu : u = t
      · rw [if_pos hu, hu]
      · rw [if_neg hu]
    rw [hsame]
  | op hstep hrest ih =>
    subst hs
    have hnext := ih (c := c.put t _ _) (if_pos rfl) rfl
    rw [put_put] at hnext
    exact .head (.op ht hstep) hnext

end

/-- The threads over the state that `f` shows. -/
def view {St' : Type} (f : St → St') (c : Config Op Ans Tid St Loc) :
    Config Op Ans Tid St' Loc where
  state := f c.state
  thread := c.thread

section

variable {St' : Type} {M : Machine Op Ans Tid St} {M' : Machine Op Ans Tid St'} {f : St → St'}
  {body : Tid → Loc → Prog Op Ans (Option Loc)} {c c' : Config Op Ans Tid St Loc}

theorem Step.view (hop : ∀ t o s a s', M.step t o s a s' → M'.step t o (f s) a (f s'))
    (hturn : ∀ t s, f (M.turn t s) = M'.turn t (f s)) (h : Step M body c c') :
    Step M' body (c.view f) (c'.view f) := by
  cases h with
  | op ht hstep => exact .op ht (hop _ _ _ _ _ hstep)
  | @again t l ht =>
    have hagain : Step M' body (c.view f) ((c.view f).put t (some (body t l))
      (M'.turn t (f c.state))) := .again ht
    rwa [← hturn] at hagain
  | @halt t ht =>
    have hhalt : Step M' body (c.view f) ((c.view f).put t none (M'.turn t (f c.state))) := .halt ht
    rwa [← hturn] at hhalt

theorem Reachable.view (hop : ∀ t o s a s', M.step t o s a s' → M'.step t o (f s) a (f s'))
    (hturn : ∀ t s, f (M.turn t s) = M'.turn t (f s)) (h : Reachable M body c c') :
    Reachable M' body (c.view f) (c'.view f) := by
  induction h with
  | refl => exact .refl
  | tail _ hstep ih => exact ih.tail (hstep.view hop hturn)

end

end Config

/-- A discipline for the threads: the invariant, the operations each thread is
allowed to perform, what it may rely on while it pauses, and what holds of it when
a turn starts and ends. -/
structure Discipline (M : Machine Op Ans Tid St) (Loc : Type) where
  inv : St → Prop
  allowed : Tid → Op → St → Prop
  rely : Tid → St → St → Prop
  start : Tid → Loc → St → Prop
  finish : Tid → Option Loc → St → Prop

namespace Discipline

variable {M : Machine Op Ans Tid St}

/-- The discipline is consistent: allowed operations keep the invariant and what
the other threads rely on. -/
structure Sound (D : Discipline M Loc) : Prop where
  inv_step : ∀ {t o s a s'}, D.inv s → D.allowed t o s → M.step t o s a s' → D.inv s'
  rely_step : ∀ {t u o s a s'}, D.inv s → D.allowed u o s → M.step u o s a s' → t ≠ u →
    D.rely t s s'
  rely_refl : ∀ t s, D.rely t s s
  rely_trans : ∀ {t s s' s''}, D.rely t s s' → D.rely t s' s'' → D.rely t s s''
  finish_rely : ∀ {t b s s'}, D.finish t b s → D.rely t s s' → D.inv s' → D.finish t b s'
  inv_turn : ∀ {t b s}, D.inv s → D.finish t b s → D.inv (M.turn t s)
  rely_turn : ∀ {t u b s}, D.inv s → D.finish u b s → t ≠ u → D.rely t s (M.turn u s)
  start_turn : ∀ {t l s}, D.inv s → D.finish t (some l) s → D.start t l (M.turn t s)

/-- The program keeps to the discipline from `s` on and ends in `Q`, while other
threads do what `t` relies on. -/
def wp (D : Discipline M Loc) (t : Tid) : Prog Op Ans α → (α → St → Prop) → St → Prop
  | .ret a, Q, s => Q a s
  | .op o k, Q, s => ∀ s', D.rely t s s' → D.inv s' →
      D.allowed t o s' ∧ ∀ a s'', M.step t o s' a s'' → D.inv s'' → D.wp t (k a) Q s''

variable {D : Discipline M Loc} {t : Tid} {s s' : St}

@[simp] theorem wp_ret {a : α} {Q : α → St → Prop} : D.wp t (.ret a) Q s ↔ Q a s := Iff.rfl

theorem wp_op {o : Op} {k : Ans o → Prog Op Ans α} {Q : α → St → Prop} :
    D.wp t (.op o k) Q s ↔ ∀ s', D.rely t s s' → D.inv s' →
      D.allowed t o s' ∧ ∀ a s'', M.step t o s' a s'' → D.inv s'' → D.wp t (k a) Q s'' := Iff.rfl

theorem wp_mono {p : Prog Op Ans α} {Q Q' : α → St → Prop} (hQ : ∀ a s, Q a s → Q' a s)
    (h : D.wp t p Q s) : D.wp t p Q' s := by
  induction p generalizing s with
  | ret a => exact hQ a s h
  | op o k ih =>
    intro s₁ hrely hinv
    obtain ⟨hallowed, hrest⟩ := h s₁ hrely hinv
    exact ⟨hallowed, fun a s₂ hstep hinv₂ => ih a (hrest a s₂ hstep hinv₂)⟩

theorem wp_bind {p : Prog Op Ans α} {f : α → Prog Op Ans β} {Q : β → St → Prop} :
    D.wp t (p >>= f) Q s ↔ D.wp t p (fun a s => D.wp t (f a) Q s) s := by
  induction p generalizing s with
  | ret a => rfl
  | op o k ih =>
    simp only [Prog.op_bind, wp_op]
    constructor
    · intro h s₁ hrely hinv
      obtain ⟨hallowed, hrest⟩ := h s₁ hrely hinv
      exact ⟨hallowed, fun a s₂ hstep hinv₂ => (ih a).mp (hrest a s₂ hstep hinv₂)⟩
    · intro h s₁ hrely hinv
      obtain ⟨hallowed, hrest⟩ := h s₁ hrely hinv
      exact ⟨hallowed, fun a s₂ hstep hinv₂ => (ih a).mpr (hrest a s₂ hstep hinv₂)⟩

theorem wp_seq {p : Prog Op Ans α} {f : α → Prog Op Ans β} {Q : β → St → Prop}
    {R : α → St → Prop} (hp : D.wp t p R s) (hf : ∀ a s, R a s → D.wp t (f a) Q s) :
    D.wp t (p >>= f) Q s :=
  wp_bind.mpr (wp_mono hf hp)

/-- A program of operations that are allowed under `P` and keep it, keeps it. -/
theorem wp_all {C : Op → Prop} {P : St → Prop}
    (hrely : ∀ s s', P s → D.rely t s s' → D.inv s' → P s')
    (hallowed : ∀ o s, C o → P s → D.inv s → D.allowed t o s)
    (hstep : ∀ o s a s', C o → P s → D.inv s → M.step t o s a s' → D.inv s' → P s')
    {p : Prog Op Ans α} (hp : p.All C) (hs : P s) : D.wp t p (fun _ s => P s) s := by
  induction p generalizing s with
  | ret a => exact hs
  | op o k ih =>
    intro s₁ hr hinv
    have hs₁ := hrely s s₁ hs hr hinv
    refine ⟨hallowed o s₁ hp.1 hs₁ hinv, fun a s₂ hst hinv₂ => ?_⟩
    exact ih a (hp.2 a) (hstep o s₁ a s₂ hp.1 hs₁ hinv hst hinv₂)

theorem wp_rely (hD : D.Sound) {p : Prog Op Ans α} {Q : α → St → Prop}
    (hQ : ∀ a s s', Q a s → D.rely t s s' → D.inv s' → Q a s')
    (hr : D.rely t s s') (hinv : D.inv s') (h : D.wp t p Q s) : D.wp t p Q s' := by
  cases p with
  | ret a => exact hQ a s s' h hr hinv
  | op o k => exact fun s₁ hr₁ hinv₁ => h s₁ (hD.rely_trans hr hr₁) hinv₁

/-- Every thread keeps to the discipline in the configuration. -/
structure Keeps (D : Discipline M Loc) (c : Config Op Ans Tid St Loc) : Prop where
  inv : D.inv c.state
  wp : ∀ t p, c.thread t = some p → D.wp t p (D.finish t) c.state

theorem Keeps.allowed (hD : D.Sound) {c : Config Op Ans Tid St Loc} (h : D.Keeps c) {o : Op}
    {k : Ans o → Prog Op Ans (Option Loc)} (ht : c.thread t = some (.op o k)) :
    D.allowed t o c.state :=
  (h.wp t _ ht _ (hD.rely_refl t _) h.inv).1

variable [DecidableEq Tid]

variable {body : Tid → Loc → Prog Op Ans (Option Loc)}

theorem Keeps.step (hD : D.Sound)
    (hbody : ∀ t l s, D.inv s → D.start t l s → D.wp t (body t l) (D.finish t) s)
    {c c' : Config Op Ans Tid St Loc} (h : D.Keeps c) (hstep : Config.Step M body c c') :
    D.Keeps c' := by
  have hothers : ∀ {u : Tid} {p s₁}, D.inv s₁ → (∀ t, t ≠ u → D.rely t c.state s₁) →
      (∀ q, p = some q → D.wp u q (D.finish u) s₁) → D.Keeps (c.put u p s₁) := by
    intro u p s₁ hinv hrely hu
    refine ⟨hinv, fun t q hq => ?_⟩
    by_cases htu : t = u
    · subst htu
      simp only [Config.put, if_true] at hq
      exact hu q hq
    · simp only [Config.put, htu, if_false] at hq
      exact wp_rely hD (fun _ _ _ => hD.finish_rely) (hrely t htu) hinv (h.wp t q hq)
  cases hstep with
  | op ht hs =>
    obtain ⟨hallowed, hrest⟩ := h.wp _ _ ht _ (hD.rely_refl _ _) h.inv
    have hinv := hD.inv_step h.inv hallowed hs
    refine hothers hinv (fun t htu => hD.rely_step h.inv hallowed hs htu) ?_
    rintro _ ⟨⟩
    exact hrest _ _ hs hinv
  | again ht =>
    have hfinish : D.finish _ _ c.state := h.wp _ _ ht
    have hinv := hD.inv_turn h.inv hfinish
    refine hothers hinv (fun t htu => hD.rely_turn h.inv hfinish htu) ?_
    rintro _ ⟨⟩
    exact hbody _ _ _ hinv (hD.start_turn h.inv hfinish)
  | halt ht =>
    have hfinish : D.finish _ _ c.state := h.wp _ _ ht
    refine hothers (hD.inv_turn h.inv hfinish) (fun t htu => hD.rely_turn h.inv hfinish htu) ?_
    rintro _ ⟨⟩

theorem Keeps.reachable (hD : D.Sound)
    (hbody : ∀ t l s, D.inv s → D.start t l s → D.wp t (body t l) (D.finish t) s)
    {c c' : Config Op Ans Tid St Loc} (h : D.Keeps c) (hreach : Config.Reachable M body c c') :
    D.Keeps c' := by
  induction hreach with
  | refl => exact h
  | tail _ hstep ih => exact ih.step hD hbody hstep

/-- What every allowed step and every turn preserves, the run preserves. -/
theorem Keeps.preserves (hD : D.Sound)
    (hbody : ∀ t l s, D.inv s → D.start t l s → D.wp t (body t l) (D.finish t) s) {P : St → Prop}
    (hstep : ∀ t o s a s', D.inv s → D.allowed t o s → M.step t o s a s' → P s → P s')
    (hturn : ∀ t b s, D.inv s → D.finish t b s → P s → P (M.turn t s))
    {c c' : Config Op Ans Tid St Loc} (h : D.Keeps c) (hc : P c.state)
    (hreach : Config.Reachable M body c c') : P c'.state := by
  induction hreach with
  | refl => exact hc
  | tail hpre hlast ih =>
    have hkeeps := h.reachable hD hbody hpre
    cases hlast with
    | op ht hs => exact hstep _ _ _ _ _ hkeeps.inv (hkeeps.allowed hD ht) hs ih
    | again ht => exact hturn _ _ _ hkeeps.inv (hkeeps.wp _ _ ht) ih
    | halt ht => exact hturn _ _ _ hkeeps.inv (hkeeps.wp _ _ ht) ih

end Discipline

end Interleaving
