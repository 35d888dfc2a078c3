import StegaPng.Interleaving

/-! An interleaved run as one of its threads sees it: its own turns, one after the
other, amid steps of the other threads. -/

namespace Interleaving

variable {Op : Type} {Ans : Op → Type} {Tid St Loc α β : Type}

/-- A complete run of one program while its environment moves as `E` says. -/
inductive RunsAmid (M : Machine Op Ans Tid St) (E : St → St → Prop) (t : Tid) :
    Prog Op Ans α → St → α → St → Prop where
  | ret (a : α) {s s' : St} (henv : E s s') : RunsAmid M E t (.ret a) s a s'
  | op {o : Op} {k : Ans o → Prog Op Ans α} {s s₁ s₂ s' : St} {b : Ans o} {a : α} (henv : E s s₁)
      (hstep : M.step t o s₁ b s₂) (hrest : RunsAmid M E t (k b) s₂ a s') :
      RunsAmid M E t (.op o k) s a s'

namespace RunsAmid

variable {M : Machine Op Ans Tid St} {E : St → St → Prop} {t : Tid} {s s' : St}

theorem ret_iff {a b : α} : RunsAmid M E t (.ret a) s b s' ↔ b = a ∧ E s s' := by
  constructor
  · rintro ⟨⟩
    exact ⟨rfl, ‹_›⟩
  · rintro ⟨rfl, henv⟩
    exact .ret _ henv

theorem op_iff {o : Op} {k : Ans o → Prog Op Ans α} {a : α} :
    RunsAmid M E t (.op o k) s a s' ↔
      ∃ s₁ b s₂, E s s₁ ∧ M.step t o s₁ b s₂ ∧ RunsAmid M E t (k b) s₂ a s' := by
  constructor
  · rintro ⟨⟩
    exact ⟨_, _, _, ‹_›, ‹_›, ‹_›⟩
  · rintro ⟨s₁, b, s₂, henv, hstep, hrest⟩
    exact .op henv hstep hrest

theorem env (htrans : ∀ s s' s'', E s s' → E s' s'' → E s s'') {p : Prog Op Ans α} {a : α} {s₁ : St}
    (henv : E s s₁) (h : RunsAmid M E t p s₁ a s') : RunsAmid M E t p s a s' := by
  cases h with
  | ret a henv' => exact .ret a (htrans _ _ _ henv henv')
  | op henv' hstep hrest => exact .op (htrans _ _ _ henv henv') hstep hrest

theorem bind_iff (hrefl : ∀ s, E s s) (htrans : ∀ s s' s'', E s s' → E s' s'' → E s s'')
    {p : Prog Op Ans α} {f : α → Prog Op Ans β} {b : β} :
    RunsAmid M E t (p >>= f) s b s' ↔ ∃ a s₁, RunsAmid M E t p s a s₁ ∧
      RunsAmid M E t (f a) s₁ b s' := by
  induction p generalizing s with
  | ret a =>
    simp only [Prog.ret_bind, ret_iff]
    constructor
    · intro h
      exact ⟨a, s, ⟨rfl, hrefl s⟩, h⟩
    · rintro ⟨_, s₁, ⟨rfl, henv⟩, h⟩
      exact h.env htrans henv
  | op o k ih =>
    simp only [Prog.op_bind, op_iff, ih]
    constructor
    · rintro ⟨s₁, c, s₂, henv, hstep, a, s₃, hp, hf⟩
      exact ⟨a, s₃, ⟨s₁, c, s₂, henv, hstep, hp⟩, hf⟩
    · rintro ⟨a, s₃, ⟨s₁, c, s₂, henv, hstep, hp⟩, hf⟩
      exact ⟨s₁, c, s₂, henv, hstep, a, s₃, hp, hf⟩

theorem env_after (htrans : ∀ s s' s'', E s s' → E s' s'' → E s s'') {p : Prog Op Ans α}
    {a : α} {s₁ : St} (h : RunsAmid M E t p s a s₁) (henv : E s₁ s') : RunsAmid M E t p s a s' := by
  induction h with
  | ret a henv' => exact .ret a (htrans _ _ _ henv' henv)
  | op henv' hstep _ ih => exact .op henv' hstep (ih henv)

theorem yields {p : Prog Op Ans α} {a : α} (h : RunsAmid M E t p s a s') : p.Yields a := by
  induction h with
  | ret a _ => exact .ret a
  | op _ _ _ ih => exact .op ih

/-- What every operation and the environment preserve, the run preserves. -/
theorem preserves {C : Op → Prop} {P : St → Prop} (henv : ∀ s s', P s → E s s' → P s')
    (hstep : ∀ o s a s', C o → P s → M.step t o s a s' → P s')
    {p : Prog Op Ans α} (hp : p.All C) {a : α} (hs : P s) (h : RunsAmid M E t p s a s') : P s' := by
  induction h with
  | ret a he => exact henv _ _ hs he
  | op he hst _ ih => exact ih (hp.2 _) (hstep _ _ _ _ hp.1 (henv _ _ hs he) hst)

/-- A run as steps of the environment and steps of its own, each of them as `G` says. -/
theorem interleaves {C : Op → Prop} {E G : St → St → Prop}
    (hown : ∀ o s a s', C o → M.step t o s a s' → G s s') {p : Prog Op Ans α} (hp : p.All C) {a : α}
    (h : RunsAmid M (Relation.ReflTransGen E) t p s a s') :
    Relation.ReflTransGen (fun s s' => E s s' ∨ G s s') s s' := by
  have henv : ∀ {s s'}, Relation.ReflTransGen E s s' →
    Relation.ReflTransGen (fun s s' => E s s' ∨ G s s') s s' :=
    fun he => he.lift id fun _ _ => .inl
  induction h with
  | ret a he => exact henv he
  | op he hst _ ih => exact ((henv he).tail (.inr (hown _ _ _ _ hp.1 hst))).trans (ih (hp.2 _))

end RunsAmid

/-- An operation as a run performs it: the state it finds and the answer it gets. -/
structure Performed (Op : Type) (Ans : Op → Type) (St : Type) where
  op : Op
  state : St
  answer : Ans op

/-- A run amid its environment, with the operations it performs. -/
inductive Traced (M : Machine Op Ans Tid St) (E : St → St → Prop) (t : Tid) :
    Prog Op Ans α → St → List (Performed Op Ans St) → α → St → Prop where
  | ret (a : α) {s s' : St} (henv : E s s') : Traced M E t (.ret a) s [] a s'
  | op {o : Op} {k : Ans o → Prog Op Ans α} {s s₁ s₂ s' : St} {b : Ans o} {a : α}
      {tr : List (Performed Op Ans St)}
      (henv : E s s₁) (hstep : M.step t o s₁ b s₂) (hrest : Traced M E t (k b) s₂ tr a s') :
      Traced M E t (.op o k) s (⟨o, s₁, b⟩ :: tr) a s'

theorem RunsAmid.traced {M : Machine Op Ans Tid St} {E : St → St → Prop} {t : Tid}
    {p : Prog Op Ans α} {s s' : St} {a : α} (h : RunsAmid M E t p s a s') :
    ∃ tr, Traced M E t p s tr a s' := by
  induction h with
  | ret a henv => exact ⟨[], .ret a henv⟩
  | op henv hstep _ ih =>
    obtain ⟨tr, htr⟩ := ih
    exact ⟨_, .op henv hstep htr⟩

namespace Traced

variable {M : Machine Op Ans Tid St} {E : St → St → Prop} {t : Tid} {s s' : St}
  {tr : List (Performed Op Ans St)}

theorem runs {p : Prog Op Ans α} {a : α} (h : Traced M E t p s tr a s') :
    RunsAmid M E t p s a s' := by
  induction h with
  | ret a henv => exact .ret a henv
  | op henv hstep _ ih => exact .op henv hstep ih

theorem ret_iff {a b : α} : Traced M E t (.ret a) s tr b s' ↔ tr = [] ∧ b = a ∧ E s s' := by
  constructor
  · intro h
    cases h with
    | ret _ henv => exact ⟨rfl, rfl, henv⟩
  · rintro ⟨rfl, rfl, henv⟩
    exact .ret _ henv

theorem op_iff {o : Op} {k : Ans o → Prog Op Ans α} {a : α} :
    Traced M E t (.op o k) s tr a s' ↔ ∃ s₁ b s₂ rest, tr = ⟨o, s₁, b⟩ :: rest ∧ E s s₁ ∧
      M.step t o s₁ b s₂ ∧
      Traced M E t (k b) s₂ rest a s' := by
  constructor
  · intro h
    cases h with
    | op henv hstep hrest => exact ⟨_, _, _, _, rfl, henv, hstep, hrest⟩
  · rintro ⟨s₁, b, s₂, rest, rfl, henv, hstep, hrest⟩
    exact .op henv hstep hrest

theorem env (htrans : ∀ s s' s'', E s s' → E s' s'' → E s s'') {p : Prog Op Ans α} {a : α} {s₁ : St}
    (henv : E s s₁) (h : Traced M E t p s₁ tr a s') : Traced M E t p s tr a s' := by
  cases h with
  | ret a henv' => exact .ret a (htrans _ _ _ henv henv')
  | op henv' hstep hrest => exact .op (htrans _ _ _ henv henv') hstep hrest

theorem bind (hrefl : ∀ s, E s s) {p : Prog Op Ans α} {f : α → Prog Op Ans β} {b : β}
    (h : Traced M E t (p >>= f) s tr b s') :
    ∃ a s₁ tr₁ tr₂, tr = tr₁ ++ tr₂ ∧ Traced M E t p s tr₁ a s₁ ∧
      Traced M E t (f a) s₁ tr₂ b s' := by
  induction p generalizing s tr with
  | ret a => exact ⟨a, s, [], tr, rfl, .ret a (hrefl s), h⟩
  | op o k ih =>
    obtain ⟨s₁, c, s₂, rest, rfl, henv, hstep, hrest⟩ := op_iff.mp h
    obtain ⟨a, s₃, tr₁, tr₂, rfl, hp, hf⟩ := ih c hrest
    exact ⟨a, s₃, _, tr₂, rfl, .op henv hstep hp, hf⟩

theorem steps {p : Prog Op Ans α} {a : α} (h : Traced M E t p s tr a s') :
    ∀ c ∈ tr, ∃ s₁, M.step t c.op c.state c.answer s₁ := by
  induction h with
  | ret a _ => exact nofun
  | op _ hstep _ ih =>
    intro c hc
    rcases List.mem_cons.mp hc with rfl | hc
    · exact ⟨_, hstep⟩
    · exact ih c hc

theorem performs {A : (o : Op) → Ans o → Prop} {C : Op → Prop} {Q : α → Prop}
    {p : Prog Op Ans α} {a : α} (hp : p.Performs A C Q) (hA : ∀ c ∈ tr, A c.op c.answer)
    (h : Traced M E t p s tr a s') :
    (∃ c ∈ tr, C c.op) ∨ Q a := by
  induction h with
  | ret a _ => exact .inr hp
  | op _ _ _ ih =>
    rcases hp with ho | hk
    · exact .inl ⟨_, List.mem_cons_self, ho⟩
    · have hrest := ih (hk _ (hA _ List.mem_cons_self)) fun c hc => hA c (List.mem_cons_of_mem _ hc)
      exact hrest.imp (fun ⟨c, hc, ho⟩ => ⟨c, List.mem_cons_of_mem _ hc, ho⟩) id

/-- What every operation and the environment preserve holds wherever an operation is
performed. -/
theorem states {C : Op → Prop} {P : St → Prop} (henv : ∀ s s', P s → E s s' → P s')
    (hstep : ∀ o s a s', C o → P s → M.step t o s a s' → P s') {p : Prog Op Ans α} (hp : p.All C)
    {a : α} (hs : P s) (h : Traced M E t p s tr a s') : (∀ c ∈ tr, C c.op ∧ P c.state) ∧ P s' := by
  induction h with
  | ret a he => exact ⟨nofun, henv _ _ hs he⟩
  | op he hst _ ih =>
    have hbefore := henv _ _ hs he
    obtain ⟨hrest, hlast⟩ := ih (hp.2 _) (hstep _ _ _ _ hp.1 hbefore hst)
    refine ⟨fun c hc => ?_, hlast⟩
    rcases List.mem_cons.mp hc with rfl | hc
    · exact ⟨hp.1, hbefore⟩
    · exact hrest c hc

end Traced

theorem Runs.amid {M : Machine Op Ans Tid St} {E : St → St → Prop} (hrefl : ∀ s, E s s) {t : Tid}
    {p : Prog Op Ans α} {s s' : St} {a : α} (h : Runs M t p s a s') : RunsAmid M E t p s a s' := by
  induction h with
  | ret a s => exact .ret a (hrefl s)
  | op hstep _ ih => exact .op (hrefl _) hstep ih

namespace Discipline

variable {M : Machine Op Ans Tid St} {D : Discipline M Loc}

/-- Steps of the threads other than `t` that keep to the discipline. -/
inductive OtherStep (D : Discipline M Loc) (t : Tid) (s : St) : St → Prop where
  | op {u : Tid} {o : Op} {a : Ans o} {s' : St} (hne : u ≠ t) (hinv : D.inv s)
      (hallowed : D.allowed u o s)
      (hstep : M.step u o s a s') : OtherStep D t s s'
  | turn {u : Tid} {b : Option Loc} (hne : u ≠ t) (hinv : D.inv s) (hfinish : D.finish u b s) :
      OtherStep D t s (M.turn u s)

abbrev Others (D : Discipline M Loc) (t : Tid) : St → St → Prop :=
  Relation.ReflTransGen (OtherStep D t)

/-- One complete turn of thread `t` amid the others. -/
def Turn (D : Discipline M Loc) (t : Tid) (body : Loc → Prog Op Ans (Option Loc))
    (c c' : Loc × St) : Prop :=
  ∃ s, RunsAmid M (D.Others t) t (body c.1) c.2 (some c'.1) s ∧ c'.2 = M.turn t s

abbrev Turns (D : Discipline M Loc) (t : Tid) (body : Loc → Prog Op Ans (Option Loc)) :=
  Relation.ReflTransGen (Turn D t body)

/-- Allowed steps and ends of turns keep `P`. -/
structure Stable (D : Discipline M Loc) (P : St → Prop) : Prop where
  step : ∀ {t o s a s'}, D.inv s → D.allowed t o s → M.step t o s a s' → P s → P s'
  turn : ∀ {t b s}, D.inv s → D.finish t b s → P s → P (M.turn t s)

section

variable {t : Tid} {P : St → Prop} {s s' : St}

theorem Stable.others (hD : D.Sound) (hP : D.Stable P) (hinv : D.inv s) (hs : P s)
    (h : D.Others t s s') :
    D.inv s' ∧ D.rely t s s' ∧ P s' := by
  induction h with
  | refl => exact ⟨hinv, hD.rely_refl t s, hs⟩
  | tail _ hstep ih =>
    obtain ⟨-, hrely, hbefore⟩ := ih
    cases hstep with
    | op hne hinv₁ hallowed hstep =>
      refine ⟨hD.inv_step hinv₁ hallowed hstep, ?_, hP.step hinv₁ hallowed hstep hbefore⟩
      exact hD.rely_trans hrely (hD.rely_step hinv₁ hallowed hstep (Ne.symm hne))
    | turn hne hinv₁ hfinish =>
      refine ⟨hD.inv_turn hinv₁ hfinish, ?_, hP.turn hinv₁ hfinish hbefore⟩
      exact hD.rely_trans hrely (hD.rely_turn hinv₁ hfinish (Ne.symm hne))

theorem Stable.amid (hD : D.Sound) (hP : D.Stable P) {p : Prog Op Ans α} {Q : α → St → Prop} {a : α}
    (hQ : ∀ a s s', Q a s → D.rely t s s' → D.inv s' → Q a s') (hwp : D.wp t p Q s)
    (hinv : D.inv s) (hs : P s) (h : RunsAmid M (D.Others t) t p s a s') :
    D.inv s' ∧ Q a s' ∧ P s' := by
  induction h with
  | ret a henv =>
    obtain ⟨hinv', hrely, hs'⟩ := hP.others hD hinv hs henv
    exact ⟨hinv', hQ _ _ _ hwp hrely hinv', hs'⟩
  | op henv hstep _ ih =>
    obtain ⟨hinv₁, hrely, hs₁⟩ := hP.others hD hinv hs henv
    obtain ⟨hallowed, hrest⟩ := hwp _ hrely hinv₁
    have hinv₂ := hD.inv_step hinv₁ hallowed hstep
    exact ih (hrest _ _ hstep hinv₂) hinv₂ (hP.step hinv₁ hallowed hstep hs₁)

theorem Stable.traced (hD : D.Sound) (hP : D.Stable P) {p : Prog Op Ans α}
    {Q : α → St → Prop} {a : α} {tr : List (Performed Op Ans St)} (hwp : D.wp t p Q s)
    (hinv : D.inv s) (hs : P s) (h : Traced M (D.Others t) t p s tr a s') :
    ∀ c ∈ tr, D.inv c.state ∧ P c.state := by
  induction h with
  | ret a _ => exact nofun
  | op henv hstep _ ih =>
    obtain ⟨hinv₁, hrely, hs₁⟩ := hP.others hD hinv hs henv
    obtain ⟨hallowed, hrest⟩ := hwp _ hrely hinv₁
    have hinv₂ := hD.inv_step hinv₁ hallowed hstep
    intro c hc
    rcases List.mem_cons.mp hc with rfl | hc
    · exact ⟨hinv₁, hs₁⟩
    · exact ih (hrest _ _ hstep hinv₂) hinv₂ (hP.step hinv₁ hallowed hstep hs₁) c hc

/-- What holds where one operation is performed holds from there on. -/
theorem Stable.after (hD : D.Sound) (hP : D.Stable P) {p : Prog Op Ans α}
    {Q : α → St → Prop} {a : α} (hQ : ∀ a s s', Q a s → D.rely t s s' → D.inv s' → Q a s')
    {pre post : List (Performed Op Ans St)} {c : Performed Op Ans St} (hwp : D.wp t p Q s)
    (hinv : D.inv s) (h : Traced M (D.Others t) t p s (pre ++ c :: post) a s')
    (hc : D.inv c.state → P c.state) :
    (∀ d ∈ c :: post, D.inv d.state ∧ P d.state) ∧ D.inv s' ∧ Q a s' ∧ P s' := by
  generalize htr : pre ++ c :: post = tr at h
  have htrue : D.Stable fun _ => True := ⟨fun _ _ _ _ => trivial, fun _ _ _ => trivial⟩
  induction h generalizing pre with
  | ret a _ => simp at htr
  | @op o k s₀ s₁ s₂ s₃ b a tr henv hstep hrest ih =>
    obtain ⟨hinv₁, hrely, -⟩ := htrue.others hD hinv trivial henv
    obtain ⟨hallowed, hnext⟩ := hwp _ hrely hinv₁
    have hinv₂ := hD.inv_step hinv₁ hallowed hstep
    cases pre with
    | nil =>
      obtain ⟨rfl, rfl⟩ := List.cons.inj htr
      have hhere := hc hinv₁
      have hs₂ := hP.step hinv₁ hallowed hstep hhere
      refine ⟨List.forall_mem_cons.mpr ⟨⟨hinv₁, hhere⟩, ?_⟩, ?_⟩
      · exact hP.traced hD (hnext _ _ hstep hinv₂) hinv₂ hs₂ hrest
      · exact hP.amid hD hQ (hnext _ _ hstep hinv₂) hinv₂ hs₂ hrest.runs
    | cons d pre =>
      obtain ⟨-, hlater⟩ := List.cons.inj htr
      exact ih (hnext _ _ hstep hinv₂) hinv₂ hlater

/-- A run of another thread's program is a run of other threads. -/
theorem others_of_runs (hD : D.Sound) {u : Tid} (hne : u ≠ t) {p : Prog Op Ans α}
    {Q : α → St → Prop} {a : α} (hwp : D.wp u p Q s) (hinv : D.inv s) (h : Runs M u p s a s') :
    D.Others t s s' ∧ D.inv s' ∧ Q a s' := by
  induction h with
  | ret a s => exact ⟨.refl, hinv, hwp⟩
  | op hstep _ ih =>
    obtain ⟨hallowed, hnext⟩ := hwp _ (hD.rely_refl u _) hinv
    have hinv' := hD.inv_step hinv hallowed hstep
    obtain ⟨hothers, hrest⟩ := ih (hnext _ _ hstep hinv') hinv'
    exact ⟨.head (.op hne hinv hallowed hstep) hothers, hrest⟩

end

variable [DecidableEq Tid] {body : Tid → Loc → Prog Op Ans (Option Loc)}

/-- Whatever the others do, thread `t` has taken complete turns and is on its way in
the next: a run of what is left of it completes a run of the whole turn. -/
theorem Keeps.turns (hD : D.Sound)
    (hbody : ∀ t l s, D.inv s → D.start t l s → D.wp t (body t l) (D.finish t) s)
    {t : Tid} {l₀ : Loc} {c₀ c : Config Op Ans Tid St Loc} (h₀ : D.Keeps c₀)
    (ht₀ : c₀.thread t = some (body t l₀)) (hreach : Config.Reachable M body c₀ c)
    {q : Prog Op Ans (Option Loc)} (hq : c.thread t = some q) :
    ∃ l s, D.Turns t (body t) (l₀, c₀.state) (l, s) ∧
      ∀ a s', RunsAmid M (D.Others t) t q c.state a s' →
        RunsAmid M (D.Others t) t (body t l) s a s' := by
  have henv : ∀ {s s₁ : St} {q : Prog Op Ans (Option Loc)} {a s'}, D.OtherStep t s s₁ →
      RunsAmid M (D.Others t) t q s₁ a s' → RunsAmid M (D.Others t) t q s a s' :=
    fun hother hrun => hrun.env (fun _ _ _ => Relation.ReflTransGen.trans) (.single hother)
  induction hreach generalizing q with
  | refl =>
    obtain rfl : body t l₀ = q := Option.some.inj (ht₀.symm.trans hq)
    exact ⟨l₀, c₀.state, .refl, fun _ _ hrun => hrun⟩
  | @tail c c' hpre hlast ih =>
    have hkeeps : D.Keeps c := h₀.reachable hD hbody hpre
    cases hlast with
    | @op u o k b s hu hstep =>
      by_cases hut : t = u
      · subst hut
        simp only [Config.put, if_true, Option.some.injEq] at hq
        obtain ⟨l, s₁, hturns, hresume⟩ := ih hu
        subst hq
        exact ⟨l, s₁, hturns, fun a s' hrun => hresume a s' (.op .refl hstep hrun)⟩
      · simp only [Config.put, hut, if_false] at hq
        obtain ⟨l, s₁, hturns, hresume⟩ := ih hq
        refine ⟨l, s₁, hturns, fun a s' hrun =>
          hresume a s' (henv (.op (Ne.symm hut) hkeeps.inv ?_ hstep) hrun)⟩
        exact hkeeps.allowed hD hu
    | @again u l' hu =>
      by_cases hut : t = u
      · subst hut
        simp only [Config.put, if_true, Option.some.injEq] at hq
        obtain ⟨l, s₁, hturns, hresume⟩ := ih hu
        subst hq
        refine ⟨l', _, hturns.tail ⟨c.state, hresume _ _ (.ret _ .refl), rfl⟩, fun _ _ hrun => hrun⟩
      · simp only [Config.put, hut, if_false] at hq
        obtain ⟨l, s₁, hturns, hresume⟩ := ih hq
        have hfinish : D.finish u (some l') c.state := hkeeps.wp u _ hu
        exact ⟨l, s₁, hturns, fun a s' hrun =>
          hresume a s' (henv (.turn (Ne.symm hut) hkeeps.inv hfinish) hrun)⟩
    | @halt u hu =>
      by_cases hut : t = u
      · subst hut
        simp only [Config.put, if_true] at hq
        cases hq
      · simp only [Config.put, hut, if_false] at hq
        obtain ⟨l, s₁, hturns, hresume⟩ := ih hq
        have hfinish : D.finish u none c.state := hkeeps.wp u _ hu
        exact ⟨l, s₁, hturns, fun a s' hrun =>
          hresume a s' (henv (.turn (Ne.symm hut) hkeeps.inv hfinish) hrun)⟩

end Discipline

end Interleaving
