import StegaPng.Interleaving
import Mathlib.Logic.Hydra

/-! Interleavings that come to an end: programs are finite, so a run of finitely many
threads is endless only where some thread starts turn after turn. -/

namespace Interleaving

variable {Op : Type} {Ans : Op → Type} {Tid St Loc : Type}

/-- One step of a thread that may start `n` more turns. -/
inductive Advances : Nat × Option (Prog Op Ans (Option Loc)) →
    Nat × Option (Prog Op Ans (Option Loc)) → Prop where
  | op {n : Nat} {o : Op} {k : Ans o → Prog Op Ans (Option Loc)} (a : Ans o) :
      Advances (n, some (k a)) (n, some (.op o k))
  | again {m n : Nat} (h : m < n) (p : Prog Op Ans (Option Loc)) (l : Loc) :
      Advances (m, some p) (n, some (.ret (some l)))
  | halt (n : Nat) : Advances (n, none) (n, some (.ret none))

theorem advances_wf : WellFounded (@Advances Op Ans Loc) := by
  have hended : ∀ n, Acc (@Advances Op Ans Loc) (n, none) := by
    intro n
    refine Acc.intro _ fun q hq => ?_
    cases hq
  have hacc : ∀ n (p : Prog Op Ans (Option Loc)), Acc Advances (n, some p) := by
    intro n
    induction n using Nat.strong_induction_on with
    | _ n ihn =>
      intro p
      induction p with
      | ret b =>
        refine Acc.intro _ fun q hq => ?_
        cases hq with
        | again h p l => exact ihn _ h p
        | halt => exact hended n
      | op o k ihp =>
        refine Acc.intro _ fun q hq => ?_
        cases hq with
        | op a => exact ihp a
  refine ⟨?_⟩
  rintro ⟨n, p⟩
  cases p with
  | none => exact hended n
  | some p => exact hacc n p

namespace Config

/-- The thread has ended, or waits for another thread. -/
def Waiting (M : Machine Op Ans Tid St) (c : Config Op Ans Tid St Loc) (t : Tid) : Prop :=
  ∀ p, c.thread t = some p → ∃ o k, p = .op o k ∧ ∀ a s, ¬ M.step t o c.state a s

/-- No thread can take a step. -/
def Final (M : Machine Op Ans Tid St) (c : Config Op Ans Tid St Loc) : Prop := ∀ t, Waiting M c t

section

variable {M : Machine Op Ans Tid St} {c : Config Op Ans Tid St Loc}

theorem not_waiting_iff {t : Tid} : ¬ Waiting M c t ↔
    (∃ b, c.thread t = some (.ret b)) ∨ ∃ o k a s, c.thread t = some (.op o k) ∧
      M.step t o c.state a s := by
  constructor
  · intro h
    simp only [Waiting, not_forall] at h
    obtain ⟨p, hp, hgoes⟩ := h
    cases p with
    | ret b => exact .inl ⟨b, hp⟩
    | op o k =>
      refine .inr ?_
      by_contra hnone
      refine hgoes ⟨o, k, rfl, fun a s hstep => hnone ⟨o, k, a, s, hp, hstep⟩⟩
  · intro h hwaits
    rcases h with ⟨b, hb⟩ | ⟨o, k, a, s, ho, hstep⟩
    · obtain ⟨o, k, heq, -⟩ := hwaits _ hb
      cases heq
    · obtain ⟨o', k', heq, hblocked⟩ := hwaits _ ho
      cases heq
      exact hblocked a s hstep

end

section

variable [DecidableEq Tid]

/-- The threads can go on for ever. -/
def Endless (M : Machine Op Ans Tid St) (body : Tid → Loc → Prog Op Ans (Option Loc))
    (c : Config Op Ans Tid St Loc) : Prop :=
  ∃ run : Nat → Config Op Ans Tid St Loc, run 0 = c ∧ ∀ i, Step M body (run i) (run (i + 1))

variable {M : Machine Op Ans Tid St} {body : Tid → Loc → Prog Op Ans (Option Loc)}
  {c : Config Op Ans Tid St Loc}

theorem final_iff : Final M c ↔ ∀ c', ¬ Step M body c c' := by
  constructor
  · intro h c' hstep
    cases hstep with
    | @op t o k a s ht hs => exact not_waiting_iff.mpr (.inr ⟨o, k, a, s, ht, hs⟩) (h t)
    | @again t l ht => exact not_waiting_iff.mpr (.inl ⟨some l, ht⟩) (h t)
    | @halt t ht => exact not_waiting_iff.mpr (.inl ⟨none, ht⟩) (h t)
  · intro h t
    by_contra hgoes
    rcases not_waiting_iff.mp hgoes with ⟨b, hb⟩ | ⟨o, k, a, s, ho, hstep⟩
    · cases b with
      | none => exact h _ (.halt hb)
      | some l => exact h _ (.again hb)
    · exact h _ (.op ho hstep)

/-- Where no run goes on for ever, every run can be completed. -/
theorem exists_final (h : Acc (fun c' c => Step M body c c') c) : ∃ c', Reachable M body c c' ∧
    Final M c' := by
  induction h with
  | intro c _ ih =>
    by_cases hgoes : ∃ c', Step M body c c'
    · obtain ⟨c', hstep⟩ := hgoes
      obtain ⟨c'', hreach, hfinal⟩ := ih c' hstep
      exact ⟨c'', .head hstep hreach, hfinal⟩
    · exact ⟨c, .refl, final_iff.mpr fun c' hstep => hgoes ⟨c', hstep⟩⟩

theorem not_endless (h : Acc (fun c' c => Step M body c c') c) : ¬ Endless M body c := by
  rintro ⟨run, rfl, hrun⟩
  exact not_acc_iff_exists_descending_chain.mpr ⟨run, rfl, hrun⟩ h

/-- `P n` bounds the turns that each thread may still start, and only the threads in
`live` take steps. -/
structure Rounds (M : Machine Op Ans Tid St) (body : Tid → Loc → Prog Op Ans (Option Loc))
    (live : Finset Tid) (P : (Tid → Nat) → Config Op Ans Tid St Loc → Prop) : Prop where
  op : ∀ {n : Tid → Nat} {c : Config Op Ans Tid St Loc} {t o k a s}, P n c →
    c.thread t = some (.op o k) →
    M.step t o c.state a s → t ∈ live ∧ P n (c.put t (some (k a)) s)
  again : ∀ {n : Tid → Nat} {c : Config Op Ans Tid St Loc} {t l}, P n c →
    c.thread t = some (.ret (some l)) →
    t ∈ live ∧ ∃ m < n t, P (Function.update n t m) (c.put t (some (body t l)) (M.turn t c.state))
  halt : ∀ {n : Tid → Nat} {c : Config Op Ans Tid St Loc} {t}, P n c →
    c.thread t = some (.ret none) →
    t ∈ live ∧ P n (c.put t none (M.turn t c.state))

/-- What the live threads have left to do. -/
def burden (live : Finset Tid) (n : Tid → Nat) (c : Config Op Ans Tid St Loc) :
    Multiset (Nat × Option (Prog Op Ans (Option Loc))) :=
  live.val.map fun t => (n t, c.thread t)

theorem burden_put {live : Finset Tid} {t : Tid} (ht : t ∈ live) (n : Tid → Nat) (m : Nat)
    (p : Option (Prog Op Ans (Option Loc))) (s : St) :
    burden live (Function.update n t m) (c.put t p s) + {(n t, c.thread t)} = burden live n c +
      {(m, p)} := by
  have hsplit : live.val = t ::ₘ (live.erase t).val := by
    rw [← Finset.insert_val_of_notMem (Finset.notMem_erase t live), Finset.insert_erase ht]
  have hothers : (live.erase t).val.map (fun u => (Function.update n t m u,
    (c.put t p s).thread u)) =
      (live.erase t).val.map fun u => (n u, c.thread u) := by
    refine Multiset.map_congr rfl fun u hu => ?_
    have hut : u ≠ t := Finset.ne_of_mem_erase (Finset.mem_val.mp hu)
    simp [put, hut]
  have hself : (c.put t p s).thread t = p := if_pos rfl
  simp only [burden, hsplit, Multiset.map_cons]
  rw [hothers, hself, Function.update_self, ← Multiset.singleton_add, ← Multiset.singleton_add]
  ac_rfl

theorem Rounds.acc {live : Finset Tid} {P : (Tid → Nat) → Config Op Ans Tid St Loc → Prop}
    (h : Rounds M body live P) {n : Tid → Nat} (hc : P n c) :
    Acc (fun c' c => Step M body c c') c := by
  generalize hb : burden live n c = b
  induction b using (@advances_wf Op Ans Loc).cutExpand.induction generalizing n c with
  | _ b ih =>
    subst hb
    have hless : ∀ {t : Tid} {m : Nat} {p s}, t ∈ live → Advances (m, p) (n t, c.thread t) →
        Relation.CutExpand Advances (burden live (Function.update n t m) (c.put t p s))
          (burden live n c) := by
      intro t m p s ht hadvances
      refine ⟨{(m, p)}, (n t, c.thread t), ?_, burden_put ht n m p s⟩
      simpa using hadvances
    refine Acc.intro _ fun c' hstep => ?_
    cases hstep with
    | @op t o k a s ht hs =>
      obtain ⟨hlive, hnext⟩ := h.op hc ht hs
      refine ih _ (hless (m := n t) hlive (ht ▸ .op a)) (n := Function.update n t (n t)) ?_ rfl
      rwa [Function.update_eq_self]
    | @again t l ht =>
      obtain ⟨hlive, m, hm, hnext⟩ := h.again hc ht
      exact ih _ (hless hlive (ht ▸ .again hm _ l)) hnext rfl
    | @halt t ht =>
      obtain ⟨hlive, hnext⟩ := h.halt hc ht
      refine ih _ (hless (m := n t) hlive (ht ▸ .halt _)) (n := Function.update n t (n t)) ?_ rfl
      rwa [Function.update_eq_self]

end

end Config

namespace Discipline

variable [DecidableEq Tid] {M : Machine Op Ans Tid St} {D : Discipline M Loc}
  {body : Tid → Loc → Prog Op Ans (Option Loc)} {c c' : Config Op Ans Tid St Loc}

/-- The threads that have ended left what the discipline asks of the end of a turn. -/
def Ended (D : Discipline M Loc) (c : Config Op Ans Tid St Loc) : Prop :=
  ∀ t, c.thread t = none → D.finish t none c.state

theorem Ended.step (hD : D.Sound)
    (hturn : ∀ t s, D.inv s → D.finish t none s → D.finish t none (M.turn t s)) (hc : D.Keeps c)
    (hc' : D.Keeps c') (h : D.Ended c) (hstep : Config.Step M body c c') : D.Ended c' := by
  intro t ht
  cases hstep with
  | @op u o k a s hu hs =>
    by_cases htu : t = u
    · simp [Config.put, htu] at ht
    · simp only [Config.put, htu, if_false] at ht
      exact hD.finish_rely (h t ht) (hD.rely_step hc.inv (hc.allowed hD hu) hs htu) hc'.inv
  | @again u l hu =>
    by_cases htu : t = u
    · simp [Config.put, htu] at ht
    · simp only [Config.put, htu, if_false] at ht
      exact hD.finish_rely (h t ht) (hD.rely_turn hc.inv (hc.wp u _ hu) htu) hc'.inv
  | @halt u hu =>
    by_cases htu : t = u
    · subst htu
      exact hturn t _ hc.inv (hc.wp t _ hu)
    · simp only [Config.put, htu, if_false] at ht
      exact hD.finish_rely (h t ht) (hD.rely_turn hc.inv (hc.wp u _ hu) htu) hc'.inv

theorem Ended.reachable (hD : D.Sound)
    (hturn : ∀ t s, D.inv s → D.finish t none s → D.finish t none (M.turn t s))
    (hbody : ∀ t l s, D.inv s → D.start t l s → D.wp t (body t l) (D.finish t) s) (hc : D.Keeps c)
    (hended : D.Ended c) (h : Config.Reachable M body c c') : D.Ended c' := by
  induction h with
  | refl => exact hended
  | tail hpre hlast ih =>
    have hpre' := hc.reachable hD hbody hpre
    exact ih.step hD hturn hpre' (hc.reachable hD hbody (hpre.tail hlast)) hlast

end Discipline

end Interleaving
