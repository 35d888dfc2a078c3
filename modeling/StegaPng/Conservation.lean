import StegaPng.ServerRuns

/-! No job is lost and none is run twice. -/

namespace StegaPng

open Interleaving

/-- Where a job can be. -/
inductive Place where
  | queued
  | held (worker : Nat)
  | finished
  deriving DecidableEq

def InPlace (s : Sys) (j : Nat) : Place → Prop
  | .queued =>
    (s.world.job j).state = .queued ∧ s.world.queue.count j = 1 ∧ ∀ t, holding t s.history ≠ some j
  | .held i => j ∉ s.world.queue ∧ ∀ t, holding t s.history = some j ↔ t = .worker i
  | .finished =>
    (s.world.job j).state.Terminal ∧ j ∉ s.world.queue ∧ ∀ t, holding t s.history ≠ some j

section

variable {cfg : RuntimeConfig} {codec : PngCodec} {s : Sys} {t : Tid} {j : Nat}

theorem Inv.queued_not_held (hinv : Inv cfg codec s) (hj : j ∈ s.world.queue) (t : Tid) :
    holding t s.history ≠ some j := by
  intro hheld
  have hpops := (hinv.queued j hj).2.2.1
  rw [(hinv.held t j hheld).2] at hpops
  cases hpops

theorem Inv.held_iff (hinv : Inv cfg codec s) {i : Nat}
    (hheld : holding (.worker i) s.history = some j) (t : Tid) :
    holding t s.history = some j ↔ t = .worker i := by
  constructor
  · intro ht
    exact hinv.held_unique ht hheld
  · rintro rfl
    exact hheld

theorem InPlace.unique {p q : Place} (hp : InPlace s j p) (hq : InPlace s j q) : p = q := by
  have hmem : s.world.queue.count j = 1 → j ∈ s.world.queue := by
    intro hcount
    exact List.count_pos_iff.mp (by omega)
  cases p with
  | queued =>
    obtain ⟨-, hcount, hfree⟩ := hp
    cases q with
    | queued => rfl
    | held i => exact absurd (hmem hcount) hq.1
    | finished => exact absurd (hmem hcount) hq.2.1
  | held i =>
    have hheld := (hp.2 (.worker i)).mpr rfl
    cases q with
    | queued => exact absurd (hmem hq.2.1) hp.1
    | held k =>
      have hsame := (hq.2 (.worker i)).mp hheld
      cases hsame
      rfl
    | finished => exact absurd hheld (hq.2.2 _)
  | finished =>
    obtain ⟨-, hqueue, hfree⟩ := hp
    cases q with
    | queued => exact absurd (hmem hq.2.1) hqueue
    | held i => exact absurd ((hq.2 (.worker i)).mpr rfl) (hfree _)
    | finished => rfl

theorem Inv.exists_place (hinv : Inv cfg codec s) (hj : j < s.world.jobs.length)
    (hmaking : making s.history ≠ some j) : ∃ p, InPlace s j p := by
  by_cases hqueue : j ∈ s.world.queue
  · have hcount := List.count_eq_one_of_mem hinv.nodup hqueue
    exact ⟨.queued, (hinv.queued j hqueue).2.1, hcount, hinv.queued_not_held hqueue⟩
  · by_cases hheld : ∃ t, holding t s.history = some j
    · obtain ⟨t, hheld⟩ := hheld
      cases t with
      | main => exact absurd rfl (hinv.held _ j hheld).1
      | worker i => exact ⟨.held i, hqueue, hinv.held_iff hheld⟩
    · have hfree : ∀ t, holding t s.history ≠ some j := fun t ht => hheld ⟨t, ht⟩
      rcases hinv.place j hj with hterminal | hmem | hholder | hmade
      · exact ⟨.finished, hterminal, hqueue, hfree⟩
      · exact absurd hmem hqueue
      · exact absurd hholder hheld
      · exact absurd hmade hmaking

theorem Inv.reported (hinv : Inv cfg codec s) (hsent : eventsOf (j + 1) s.history ≠ []) :
    (s.world.job j).state.Terminal ∧ eventsOf (j + 1) s.history = [(s.world.job j).state] := by
  rcases hinv.events j with hnone | ⟨-, hdone⟩
  · exact absurd hnone hsent
  · exact hdone

theorem Inv.released (hinv : Inv cfg codec s) (hpopped : pops j s.history ≠ [])
    (hfree : ∀ t, holding t s.history ≠ some j) :
    (s.world.job j).state.Terminal ∧ eventsOf (j + 1) s.history = [(s.world.job j).state] := by
  rcases hinv.popped j with hnone | ⟨-, t, -, hheld | hsent⟩
  · exact absurd hnone hpopped
  · exact absurd hheld (hfree t)
  · exact hinv.reported hsent

end

/-- Ids and table fit together, and every job that main is not just making is in
exactly one place; none was popped twice. -/
structure JobsConserved (s : Sys) : Prop where
  ids : ∀ j < s.world.jobs.length, (s.world.job j).id = j + 1
  next_id : s.world.next_id = s.world.jobs.length + 1
  bound : s.world.jobs.length ≤ maxJobs
  place : ∀ j < s.world.jobs.length, making s.history ≠ some j → ∃! p, InPlace s j p
  popped_once : ∀ j, (pops j s.history).length ≤ 1
  released : ∀ j, pops j s.history ≠ [] → (∀ t, holding t s.history ≠ some j) →
    (s.world.job j).state.Terminal ∧ eventsOf (j + 1) s.history = [(s.world.job j).state]

section

variable {codec : PngCodec} {cfg : RuntimeConfig} {dt : DurationText} {fds : ServerFds}
  {files : Bytes → Option Bytes} {c : ServerConfig}

theorem Inv.conserved {s : Sys} (hinv : Inv cfg codec s) : JobsConserved s where
  ids := hinv.id
  next_id := hinv.next_id
  bound := hinv.bound
  place j hj hmaking := by
    obtain ⟨p, hp⟩ := hinv.exists_place hj hmaking
    exact ⟨p, hp, fun q hq => hq.unique hp⟩
  popped_once j := by
    rcases hinv.popped j with hnone | ⟨-, t, hone, -⟩
    · rw [hnone]
      exact Nat.zero_le _
    · rw [hone]
      exact Nat.le_refl _
  released j := hinv.released

/-- Job conservation, and what the end of a worker's iteration leaves. -/
theorem jobs_conserved (h : ServerReachable codec cfg dt fds files c) :
    JobsConserved c.state ∧
    ∀ i l, c.thread (.worker i) = some (.ret l) →
      ∀ j, holding (.worker i) c.state.history = some j →
      (c.state.world.job j).state.Terminal ∧
        eventsOf (j + 1) c.state.history = [(c.state.world.job j).state] := by
  refine ⟨h.inv.conserved, fun i l hend j hheld => ?_⟩
  have hfinish : (conduct cfg codec).finish (.worker i) l c.state := h.keeps.wp _ _ hend
  exact h.inv.reported (hfinish j hheld).2

theorem jobs_conserved_lateCancel :
    ∃ c, ServerReachable rawCodec runtimeConfigDefaults plainDurations plainFds (fun _ => none) c ∧
      c.state.world.jobs.length = 1 ∧ pops 0 c.state.history = [.worker 0] ∧
        JobsConserved c.state := by
  obtain ⟨c, hreach, hc⟩ :=
    exists_reachable rawCodec runtimeConfigDefaults plainDurations plainFds (fun _ => none)
    lateCancel (fun c => (c.state.world.jobs.length, pops 0 c.state.history))
    (show _ = some (1, [.worker 0]) by decide +kernel)
  exact ⟨c, hreach, congrArg Prod.fst hc, congrArg Prod.snd hc, (jobs_conserved hreach).1⟩

end

end StegaPng
