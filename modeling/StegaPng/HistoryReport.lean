import StegaPng.Replies

/-! HISTORY: where it lists the newest finished jobs, and where it leaves a gap. -/

namespace StegaPng

open Interleaving SeparatedList

/-- Items with semicolons between them. -/
def joinItems (items : List Bytes) : Bytes := [59].intercalate items

/-- The item has room behind those that are listed. -/
def ItemFits (size : Nat) (listed : List Bytes) (item : Bytes) : Prop :=
  (joinItems (listed ++ [item])).length + 1 < size

instance (size : Nat) (listed : List Bytes) (item : Bytes) :
    Decidable (ItemFits size listed item) :=
  inferInstanceAs (Decidable (_ < _))

/-- The newest finished jobs first, as they would be listed. -/
def historyEntries (dt : DurationText) (jobs : List Job) : List Bytes :=
  (finished jobs.reverse).map (historyEntry dt)

/-- The text is `empty`, or lists finished jobs from the newest on, with none left out. -/
def ListsNewest (dt : DurationText) (jobs : List Job) (max_items : Nat) (text : Bytes) : Prop :=
  text = lit "empty" ∨ ∃ listed, listed <+: finished jobs.reverse ∧ listed.length ≤ max_items ∧
    text = joinItems (listed.map (historyEntry dt))

/-- Behind the first entry that does not fit there is no older one that does, unless the
list has ended before it; and where nothing is listed, the buffer holds `empty` or nothing. -/
structure NoneSlipsIn (size max_items : Nat) (entries : List Bytes) : Prop where
  gapless : ∀ listed item older, entries = listed ++ item :: older → listed.length < max_items →
    (listed = [] ∨ (joinItems listed).length + 1 < size) → ¬ ItemFits size listed item →
    ∀ entry ∈ older, ¬ ItemFits size listed entry
  word : (max_items = 0 ∨ ∀ entry ∈ entries, ¬ ItemFits size [] entry) → size ≤ 1 ∨ 6 ≤ size

/-- What the loop makes of the entries of finished jobs. -/
def keepSome (size : Nat) : Nat → Bytes → List Bytes → Bytes
  | 0, out, _ => out
  | _, out, [] => out
  | budget + 1, out, item :: items =>
    match appendItem 59 size out item with
    | none => keepSome size (budget + 1) out items
    | some out' => keepSome size budget out' items

/-- The text about a table that stays as it is. -/
def historyOf (dt : DurationText) (size max_items : Nat) (jobs : List Job) : Bytes :=
  let out := keepSome size max_items [] (historyEntries dt jobs)
  if out = [] then snprintf size (lit "empty") else out

/-! Joined items. -/

section

variable {size budget : Nat} {listed items : List Bytes} {item : Bytes}

theorem appendItem_joined (hlisted : ∀ x ∈ listed, x ≠ []) (size : Nat) (item : Bytes) :
    appendItem 59 size (joinItems listed) item =
      if (joinItems (listed ++ [item])).length + 1 < size then some (joinItems (listed ++ [item]))
        else none :=
  appendItem_separated hlisted

theorem joinItems_grows (hitems : ∀ x ∈ items, x ≠ []) (h : items ≠ []) :
    (joinItems listed).length < (joinItems (listed ++ items)).length :=
  separated_grows hitems h

theorem joinItems_snoc (hitem : item ≠ []) :
    (joinItems listed).length < (joinItems (listed ++ [item])).length :=
  joinItems_grows (fun _ hx => List.mem_singleton.mp hx ▸ hitem) (List.cons_ne_nil _ _)

/-! The loop. -/

theorem keepSome_nil (out : Bytes) : keepSome size budget out [] = out := by
  cases budget <;> rfl

theorem keepSome_zero (out : Bytes) (items : List Bytes) : keepSome size 0 out items = out := by
  cases items <;> rfl

theorem keepSome_fits (hlisted : ∀ x ∈ listed, x ≠ []) (hfits : ItemFits size listed item) :
    keepSome size (budget + 1) (joinItems listed) (item :: items) =
      keepSome size budget (joinItems (listed ++ [item])) items := by
  have happend : appendItem 59 size (joinItems listed) item =
    some (joinItems (listed ++ [item])) := by
    rw [appendItem_joined hlisted]
    exact if_pos hfits
  rw [keepSome, happend]

theorem keepSome_skips (hlisted : ∀ x ∈ listed, x ≠ []) (hfits : ¬ ItemFits size listed item) :
    keepSome size (budget + 1) (joinItems listed) (item :: items) =
      keepSome size (budget + 1) (joinItems listed) items := by
  have happend : appendItem 59 size (joinItems listed) item = none := by
    rw [appendItem_joined hlisted]
    exact if_neg hfits
  rw [keepSome, happend]

theorem keepSome_none (hlisted : ∀ x ∈ listed, x ≠ [])
    (h : ∀ entry ∈ items, ¬ ItemFits size listed entry) :
    keepSome size budget (joinItems listed) items = joinItems listed := by
  induction items with
  | nil => exact keepSome_nil _
  | cons item items ih =>
    cases budget with
    | zero => rfl
    | succ budget =>
      rw [keepSome_skips hlisted (h item List.mem_cons_self)]
      exact ih fun entry hentry => h entry (List.mem_cons_of_mem _ hentry)

theorem keepSome_length (hlisted : ∀ x ∈ listed, x ≠ []) (hitems : ∀ x ∈ items, x ≠ []) :
    (joinItems listed).length ≤ (keepSome size budget (joinItems listed) items).length ∧
      ((joinItems listed).length + 1 < size →
        (keepSome size budget (joinItems listed) items).length + 1 < size) := by
  induction items generalizing budget listed with
  | nil =>
    rw [keepSome_nil]
    exact ⟨Nat.le_refl _, id⟩
  | cons item items ih =>
    cases budget with
    | zero => exact ⟨Nat.le_refl _, id⟩
    | succ budget =>
      have hrest : ∀ x ∈ items, x ≠ [] := fun x hx => hitems x (List.mem_cons_of_mem _ hx)
      have hitem := hitems item List.mem_cons_self
      by_cases hfits : ItemFits size listed item
      · have hgrows : (joinItems listed).length < (joinItems (listed ++ [item])).length :=
          joinItems_snoc hitem
        obtain ⟨hle, hroom⟩ := @ih budget _ (snoc_ne_nil hlisted hitem) hrest
        rw [keepSome_fits hlisted hfits]
        exact ⟨by omega, fun _ => hroom hfits⟩
      · rw [keepSome_skips hlisted hfits]
        exact ih hlisted hrest

theorem keepSome_some {entry : Bytes} (hlisted : ∀ x ∈ listed, x ≠ [])
    (hitems : ∀ x ∈ items, x ≠ []) (hentry : entry ∈ items) (hfits : ItemFits size listed entry) :
    (joinItems listed).length < (keepSome size (budget + 1) (joinItems listed) items).length ∧
      (keepSome size (budget + 1) (joinItems listed) items).length + 1 < size := by
  induction items with
  | nil => exact absurd hentry List.not_mem_nil
  | cons item items ih =>
    have hrest : ∀ x ∈ items, x ≠ [] := fun x hx => hitems x (List.mem_cons_of_mem _ hx)
    have hitem := hitems item List.mem_cons_self
    by_cases hfirst : ItemFits size listed item
    · rw [keepSome_fits hlisted hfirst]
      obtain ⟨hle, hroom⟩ := keepSome_length (snoc_ne_nil hlisted hitem) hrest
      exact ⟨Nat.lt_of_lt_of_le (joinItems_snoc hitem) hle, hroom hfirst⟩
    · rw [keepSome_skips hlisted hfirst]
      rcases List.mem_cons.mp hentry with rfl | hentry
      · exact absurd hfits hfirst
      · exact ih hrest hentry

theorem keepSome_joined (hlisted : ∀ x ∈ listed, x ≠ []) (hitems : ∀ x ∈ items, x ≠ []) :
    ∃ more, more ⊆ items ∧ keepSome size budget (joinItems listed) items =
      joinItems (listed ++ more) := by
  induction items generalizing budget listed with
  | nil => exact ⟨[], List.nil_subset _, by rw [keepSome_nil, List.append_nil]⟩
  | cons item items ih =>
    have hrest : ∀ x ∈ items, x ≠ [] := fun x hx => hitems x (List.mem_cons_of_mem _ hx)
    cases budget with
    | zero => exact ⟨[], List.nil_subset _, by rw [keepSome_zero, List.append_nil]⟩
    | succ budget =>
      by_cases hfits : ItemFits size listed item
      · obtain ⟨more, hmore, htext⟩ :=
          ih (snoc_ne_nil hlisted (hitems item List.mem_cons_self)) hrest
        refine ⟨item :: more, List.cons_subset_cons item hmore, ?_⟩
        rw [keepSome_fits hlisted hfits, htext, List.append_assoc]
        rfl
      · obtain ⟨more, hmore, htext⟩ := ih hlisted hrest
        refine ⟨more, List.subset_cons_of_subset item hmore, ?_⟩
        rw [keepSome_skips hlisted hfits, htext]

/-- Behind the listed items there is no gap. -/
def Gapless (size budget : Nat) (listed items : List Bytes) : Prop :=
  ∀ before item older, items = before ++ item :: older → before.length < budget →
    (before = [] ∨ (joinItems (listed ++ before)).length + 1 < size) →
      ¬ ItemFits size (listed ++ before) item →
    ∀ entry ∈ older, ¬ ItemFits size (listed ++ before) entry

theorem gapless_fits (hfits : ItemFits size listed item) :
    Gapless size (budget + 1) listed (item :: items) ↔
      Gapless size budget (listed ++ [item]) items := by
  constructor
  · intro h before next older hsplit hbudget hroom hnext
    have hlist : listed ++ [item] ++ before = listed ++ item :: before := by simp
    rw [hlist] at hroom hnext ⊢
    refine h (item :: before) next older (by rw [hsplit]; rfl) (Nat.succ_lt_succ hbudget)
      (.inr ?_) hnext
    rcases hroom with rfl | hroom
    · exact hfits
    · exact hroom
  · intro h before next older hsplit hbudget hroom hnext
    cases before with
    | nil =>
      obtain ⟨rfl, -⟩ := List.cons.inj hsplit
      rw [List.append_nil] at hnext
      exact absurd hfits hnext
    | cons first before =>
      obtain ⟨rfl, hitems⟩ := List.cons.inj hsplit
      have hlist : listed ++ item :: before = listed ++ [item] ++ before := by simp
      rw [hlist] at hroom hnext ⊢
      exact h before next older hitems (Nat.lt_of_succ_lt_succ hbudget)
        (.inr (hroom.resolve_left (List.cons_ne_nil _ _)))
        hnext

theorem gapless_skips (hitems : ∀ x ∈ items, x ≠ []) (hfits : ¬ ItemFits size listed item) :
    Gapless size (budget + 1) listed (item :: items) ↔ ∀ entry ∈ items,
      ¬ ItemFits size listed entry := by
  constructor
  · intro h
    have hnone := h [] item items rfl (Nat.succ_pos _) (.inl rfl)
    rw [List.append_nil] at hnone
    exact hnone hfits
  · intro h before next older hsplit hbudget hroom hnext entry hentry
    cases before with
    | nil =>
      obtain ⟨rfl, rfl⟩ := List.cons.inj hsplit
      rw [List.append_nil]
      exact h entry hentry
    | cons first before =>
      -- nothing is listed behind an item that does not fit
      obtain ⟨rfl, rfl⟩ := List.cons.inj hsplit
      have hroom := hroom.resolve_left (List.cons_ne_nil _ _)
      have hlist : listed ++ item :: before = listed ++ [item] ++ before := by simp
      have hlonger : (joinItems (listed ++ [item])).length ≤
        (joinItems (listed ++ item :: before)).length := by
        rw [hlist]
        by_cases hnil : before = []
        · rw [hnil, List.append_nil]
        · exact Nat.le_of_lt (joinItems_grows (fun x hx =>
            hitems x (List.mem_append_left _ hx)) hnil)
      exact absurd (show ItemFits size listed item from Nat.lt_of_le_of_lt
        (Nat.succ_le_succ hlonger) hroom) hfits

theorem adds_nothing (h : keepSome size budget (joinItems listed) items = joinItems listed) :
    ∃ more, more <+: items ∧ more.length ≤ budget ∧
      keepSome size budget (joinItems listed) items = joinItems (listed ++ more) :=
  ⟨[], List.nil_prefix, Nat.zero_le _, by rw [h, List.append_nil]⟩

theorem keepSome_prefix_iff (hlisted : ∀ x ∈ listed, x ≠ []) (hitems : ∀ x ∈ items, x ≠ []) :
    (∃ more, more <+: items ∧ more.length ≤ budget ∧
      keepSome size budget (joinItems listed) items = joinItems (listed ++ more)) ↔
        Gapless size budget listed items := by
  induction items generalizing budget listed with
  | nil =>
    refine iff_of_true (adds_nothing (keepSome_nil _)) fun before item older hsplit => ?_
    simp at hsplit
  | cons item items ih =>
    have hitem := hitems item List.mem_cons_self
    have hrest : ∀ x ∈ items, x ≠ [] := fun x hx => hitems x (List.mem_cons_of_mem _ hx)
    cases budget with
    | zero =>
      exact iff_of_true (adds_nothing rfl) fun before next older _ hbudget =>
        absurd hbudget (Nat.not_lt_zero _)
    | succ budget =>
      by_cases hfits : ItemFits size listed item
      · rw [keepSome_fits hlisted hfits, gapless_fits hfits, ← ih (snoc_ne_nil hlisted hitem) hrest]
        obtain ⟨hle, -⟩ := keepSome_length (snoc_ne_nil hlisted hitem) hrest
        constructor
        · rintro ⟨more, hprefix, hcount, htext⟩
          cases more with
          | nil =>
            rw [htext, List.append_nil] at hle
            exact absurd hle (Nat.not_le_of_lt (joinItems_snoc hitem))
          | cons first more =>
            obtain ⟨rfl, hmore⟩ := List.cons_prefix_cons.mp hprefix
            exact ⟨more, hmore, Nat.le_of_succ_le_succ hcount, by rw [htext]; simp⟩
        · rintro ⟨more, hprefix, hcount, htext⟩
          exact ⟨item :: more, List.cons_prefix_cons.mpr ⟨rfl, hprefix⟩,
            Nat.succ_le_succ hcount, by rw [htext]; simp⟩
      · rw [gapless_skips hrest hfits]
        constructor
        · rintro ⟨more, hprefix, -, htext⟩ entry hentry hlater
          obtain ⟨hlonger, hroom⟩ :=
            keepSome_some hlisted hitems (List.mem_cons_of_mem item hentry) hlater
          rw [htext] at hlonger hroom
          cases more with
          | nil =>
            rw [List.append_nil] at hlonger
            exact absurd hlonger (Nat.lt_irrefl _)
          | cons first more =>
            obtain ⟨hfirst, hmore⟩ := List.cons_prefix_cons.mp hprefix
            rw [hfirst] at hroom
            refine hfits (Nat.lt_of_le_of_lt (Nat.succ_le_succ ?_) hroom)
            have hlist : listed ++ item :: more = listed ++ [item] ++ more := by simp
            rw [hlist]
            by_cases hnil : more = []
            · rw [hnil, List.append_nil]
            · exact Nat.le_of_lt (joinItems_grows (fun x hx => hrest x (hmore.subset hx)) hnil)
        · intro hnone
          refine adds_nothing ?_
          rw [keepSome_skips hlisted hfits]
          exact keepSome_none hlisted hnone

end

/-! The report. -/

section

variable {codec : PngCodec} {dt : DurationText} {s s' : Sys} {size i budget max_items : Nat}
  {out text : Bytes}

theorem take_succ_reverse {jobs : List Job} (hi : i < jobs.length) :
    (jobs.take (i + 1)).reverse = jobs[i] :: (jobs.take i).reverse := by
  rw [List.take_add_one, List.getElem?_eq_getElem hi, List.reverse_append]
  rfl

theorem runs_historyLoop (hi : i ≤ s.world.jobs.length)
    (h : Runs (machine codec) .main (jobTableFormatHistoryLoop dt size i budget out) s text s') :
    text = keepSome size budget out (historyEntries dt (s.world.jobs.take i)) := by
  induction i generalizing budget out with
  | zero =>
    obtain ⟨rfl, -⟩ := Runs.ret_iff.mp h
    rw [List.take_zero]
    exact (keepSome_nil _).symm
  | succ i ih =>
    rw [formatHistoryLoop_succ] at h
    cases budget with
    | zero =>
      obtain ⟨rfl, -⟩ := Runs.ret_iff.mp h
      exact (keepSome_zero _ _).symm
    | succ budget =>
      rw [if_neg (Nat.succ_ne_zero budget)] at h
      obtain ⟨job, s₁, hread, hrest⟩ := Runs.op_iff.mp h
      obtain ⟨hjob, rfl⟩ := step_getJob (by decide) hread
      have hrecord : job = s₁.world.jobs[i] :=
        hjob.trans (job_eq_of_getElem? (List.getElem?_eq_getElem hi))
      have hi' : i ≤ s₁.world.jobs.length := Nat.le_of_succ_le hi
      rw [historyEntries, take_succ_reverse hi, ← hrecord, finished]
      change Runs _ _ (if job.state.Terminal then _ else _) _ _ _ at hrest
      split at hrest
      · next hterminal =>
        rw [List.filter_cons_of_pos (by simpa using hterminal), List.map_cons, keepSome]
        cases happend : appendItem 59 size out (historyEntry dt job) with
        | none =>
          rw [happend] at hrest
          exact ih hi' hrest
        | some out' =>
          rw [happend] at hrest
          exact ih hi' hrest
      · next hlive =>
        rw [List.filter_cons_of_neg (by simpa using hlive)]
        exact ih hi' hrest

theorem runs_formatHistory
    (h : Runs (machine codec) .main (jobTableFormatHistory dt size max_items) s text s') :
    text = historyOf dt size max_items s.world.jobs := by
  obtain ⟨count, s₁, hcount, hrest⟩ := Runs.bind_iff.mp h
  obtain ⟨out, s₂, hloop, hret⟩ := Runs.bind_iff.mp hrest
  obtain ⟨rfl, -⟩ := Runs.ret_iff.mp hret
  obtain ⟨e, marks, -, hexec, hhistory⟩ := Runs.perform_iff.mp hcount
  obtain ⟨hcount, hworld⟩ : s.world.jobs.length = count ∧ s.world = s₁.world := by
    simp only [exec, Option.some.injEq, Prod.mk.injEq] at hexec
    exact ⟨hexec.1, hexec.2.1⟩
  rw [hworld] at hcount ⊢
  rw [runs_historyLoop (Nat.le_of_eq hcount.symm) hloop, ← hcount, List.take_length, historyOf]

theorem historyEntry_head (dt : DurationText) (job : Job) :
    ∃ rest, historyEntry dt job = 105 :: rest := ⟨_, rfl⟩

theorem historyEntries_head {jobs : List Job} {entry : Bytes} (h : entry ∈ historyEntries dt jobs) :
    ∃ rest, entry = 105 :: rest := by
  obtain ⟨job, -, rfl⟩ := List.mem_map.mp h
  exact historyEntry_head dt job

theorem joinItems_head {items : List Bytes} (hitems : ∀ x ∈ items, ∃ rest, x = 105 :: rest) :
    joinItems items = [] ∨ ∃ rest, joinItems items = 105 :: rest := by
  cases items with
  | nil => exact .inl rfl
  | cons first items =>
    obtain ⟨rest, rfl⟩ := hitems first List.mem_cons_self
    exact .inr ⟨_, List.intercalate_cons_cons_left⟩

theorem listsNewest_iff {jobs : List Job} : ListsNewest dt jobs max_items text ↔
    text = lit "empty" ∨ ∃ more, more <+: historyEntries dt jobs ∧ more.length ≤ max_items ∧
      text = joinItems more := by
  rw [ListsNewest, historyEntries]
  constructor
  · rintro (hword | ⟨listed, hlisted, hcount, htext⟩)
    · exact .inl hword
    · exact .inr ⟨_, hlisted.map _, by rwa [List.length_map], htext⟩
  · rintro (hword | ⟨more, hmore, hcount, htext⟩)
    · exact .inl hword
    · obtain ⟨listed, hlisted, rfl⟩ := List.prefix_map_iff.mp hmore
      rw [List.length_map] at hcount
      exact .inr ⟨listed, hlisted, hcount, htext⟩

/-- The word in a buffer that may be too small for it. -/
theorem empty_cut {more : List Bytes} (hmore : ∀ x ∈ more, ∃ rest, x = 105 :: rest)
    (h : snprintf size (lit "empty") = lit "empty" ∨ snprintf size (lit "empty") = joinItems more) :
    size ≤ 1 ∨ 6 ≤ size := by
  by_contra hsize
  rw [not_or, Nat.not_le, Nat.not_le] at hsize
  have hcut : ∃ rest, snprintf size (lit "empty") = 101 :: rest ∧ rest.length < 4 := by
    obtain ⟨hlow, hhigh⟩ := hsize
    match size, hlow, hhigh with
    | 2, _, _ => exact ⟨_, rfl, by decide⟩
    | 3, _, _ => exact ⟨_, rfl, by decide⟩
    | 4, _, _ => exact ⟨_, rfl, by decide⟩
    | 5, _, _ => exact ⟨_, rfl, by decide⟩
  obtain ⟨rest, hcut, hlength⟩ := hcut
  rw [hcut] at h
  rcases h with hword | htext
  · rw [(List.cons.inj hword).2] at hlength
    exact absurd hlength (by decide)
  · rcases joinItems_head hmore with hnil | ⟨rest', hhead⟩
    · rw [hnil] at htext
      cases htext
    · rw [hhead] at htext
      exact absurd (List.cons.inj htext).1 (by decide)

theorem historyEntries_ne_nil {jobs : List Job} {entry : Bytes}
    (h : entry ∈ historyEntries dt jobs) :
    entry ≠ [] := by
  obtain ⟨rest, rfl⟩ := historyEntries_head h
  exact List.cons_ne_nil _ _

/-- A buffer with room for all entries leaves none of them out. -/
theorem noneSlipsIn_of_room {entries : List Bytes} (hentries : ∀ entry ∈ entries, entry ≠ [])
    (hroom : (joinItems entries).length + 1 < size) (hword : 6 ≤ size) :
    NoneSlipsIn size max_items entries := by
  refine ⟨fun listed item older hsplit _ _ hfits => absurd ?_ hfits, fun _ => .inr hword⟩
  have hlist : entries = listed ++ [item] ++ older := by simp [hsplit]
  have hlonger : (joinItems (listed ++ [item])).length ≤ (joinItems entries).length := by
    rw [hlist]
    by_cases hlast : older = []
    · rw [hlast, List.append_nil]
    · have holder : ∀ entry ∈ older, entry ≠ [] := by
        intro entry hentry
        exact hentries entry (hlist ▸ List.mem_append_right _ hentry)
      exact Nat.le_of_lt (joinItems_grows holder hlast)
  exact Nat.lt_of_le_of_lt (Nat.succ_le_succ hlonger) hroom

theorem historyOf_newest {jobs : List Job} :
    ListsNewest dt jobs max_items (historyOf dt size max_items jobs) ↔
      NoneSlipsIn size max_items (historyEntries dt jobs) := by
  obtain ⟨text, htext⟩ : ∃ text, text = historyOf dt size max_items jobs := ⟨_, rfl⟩
  rw [← htext, listsNewest_iff]
  rw [historyOf] at htext
  have hheads : ∀ x ∈ historyEntries dt jobs, ∃ rest, x = 105 :: rest :=
    fun x hx => historyEntries_head hx
  have hentries : ∀ x ∈ historyEntries dt jobs, x ≠ [] := fun x hx => historyEntries_ne_nil hx
  generalize historyEntries dt jobs = entries at htext hheads hentries ⊢
  have hempty : ∀ x ∈ ([] : List Bytes), x ≠ [] := fun x hx => absurd hx List.not_mem_nil
  have hgap : (∃ more, more <+: entries ∧ more.length ≤ max_items ∧
    keepSome size max_items [] entries = joinItems more) ↔
      Gapless size max_items [] entries := keepSome_prefix_iff hempty hentries
  by_cases hnothing : keepSome size max_items [] entries = []
  · -- nothing is listed, so what matters is the word
    rw [if_pos hnothing] at htext
    have hgapless := hgap.mp ⟨[], List.nil_prefix, Nat.zero_le _, hnothing⟩
    have hnone : max_items = 0 ∨ ∀ entry ∈ entries, ¬ ItemFits size [] entry := by
      by_contra hsome
      push Not at hsome
      obtain ⟨hbudget, entry, hentry, hfits⟩ := hsome
      obtain ⟨budget, rfl⟩ := Nat.exists_eq_succ_of_ne_zero hbudget
      have hlonger : [].length < (keepSome size (budget + 1) [] entries).length :=
        (keepSome_some hempty hentries hentry hfits).1
      rw [hnothing] at hlonger
      exact absurd hlonger (Nat.lt_irrefl _)
    constructor
    · intro hlists
      refine ⟨hgapless, fun _ => ?_⟩
      rcases hlists with hword | ⟨more, hmore, -, htext'⟩
      · exact empty_cut (fun x (hx : x ∈ []) => absurd hx List.not_mem_nil) (.inl (htext ▸ hword))
      · exact empty_cut (fun x hx => hheads x (hmore.subset hx)) (.inr (htext ▸ htext'))
    · intro hslips
      rcases hslips.word hnone with hsmall | hlarge
      · refine .inr ⟨[], List.nil_prefix, Nat.zero_le _, ?_⟩
        have hzero : size - 1 = 0 := by omega
        rw [htext, snprintf, hzero]
        rfl
      · rw [htext, snprintf_eq (show (lit "empty").length < size from hlarge)]
        exact .inl rfl
  · -- something is listed, so that the text is no word
    rw [if_neg hnothing] at htext
    have hnotWord : text ≠ lit "empty" := by
      obtain ⟨more, hmore, hjoined⟩ : ∃ more, more ⊆ entries ∧
        keepSome size max_items [] entries = joinItems more :=
        keepSome_joined hempty hentries
      intro hword
      rcases joinItems_head fun x hx => hheads x (hmore hx) with hnil | ⟨rest, hhead⟩
      · exact hnothing (hjoined.trans hnil)
      · rw [htext, hjoined, hhead] at hword
        exact absurd (List.cons.inj hword).1 (by decide)
    constructor
    · intro hlists
      obtain ⟨more, hmore, hcount, htext'⟩ := hlists.resolve_left hnotWord
      refine ⟨hgap.mp ⟨more, hmore, hcount, htext ▸ htext'⟩, fun hnone => absurd ?_ hnothing⟩
      rcases hnone with rfl | hnone
      · exact keepSome_zero _ _
      · exact keepSome_none hempty hnone
    · intro hslips
      obtain ⟨more, hmore, hcount, htext'⟩ := hgap.mpr hslips.gapless
      exact .inr ⟨more, hmore, hcount, htext.trans htext'⟩

/-- HISTORY lists the newest finished jobs without a gap exactly where no older entry fits
behind one that does not. -/
theorem history_newest (h : Runs (machine codec) .main (jobTableFormatHistory dt size max_items)
    s text s') :
    ListsNewest dt s.world.jobs max_items text ↔
      NoneSlipsIn size max_items (historyEntries dt s.world.jobs) := by
  rw [runs_formatHistory h]
  exact historyOf_newest

end

def finishedJob (id : Nat) (owner_ip : Bytes) : Job :=
  { id := id, owner_fd := 9, owner_ip := owner_ip, type := .text, state := .done }

theorem exists_history (codec : PngCodec) (dt : DurationText) (size max_items : Nat) (s : Sys) :
    ∃ text s', Runs (machine codec) .main (jobTableFormatHistory dt size max_items) s text s' := by
  refine Runs.exists_of_all (fun _ ho => exists_step ⟨{}, trivial⟩ codec .main ho) ?_ s
  exact jobTableFormatHistory_all (fun o ho => by cases o <;> first | rfl | cases ho) dt
    size max_items

/-- Three finished jobs, the second from a longer address than the others. -/
def gappedTable : List Job :=
  [finishedJob 1 (lit "10.0.0.7"), finishedJob 2 (lit "192.168.100.200"),
    finishedJob 3 (lit "10.0.0.7")]

/-- Four jobs, of which the third still runs. -/
def busyTable : List Job :=
  [finishedJob 1 (lit "10.0.0.7"), finishedJob 2 (lit "192.168.100.200"),
    { finishedJob 3 (lit "10.0.0.7") with state := .running }, finishedJob 4 (lit "10.0.0.8")]

/-- Two of the three finished jobs are listed: the last one and the second. -/
theorem history_newest_busy : ∃ text s', Runs (machine boundedCodec) .main
      (jobTableFormatHistory plainDurations 8192 2)
      ⟨{ files := fun _ => none, jobs := busyTable }, []⟩ text s' ∧
    text = lit "id=4,type=TEXT,state=DONE,dur_ms=0.0,ip=10.0.0.8;" ++
      lit "id=2,type=TEXT,state=DONE,dur_ms=0.0,ip=192.168.100.200" ∧
    ListsNewest plainDurations busyTable 2 text := by
  obtain ⟨text, s', hrun⟩ := exists_history boundedCodec plainDurations 8192 2
    ⟨{ files := fun _ => none, jobs := busyTable }, []⟩
  have hlength : (joinItems (historyEntries plainDurations busyTable)).length = 153 := rfl
  have hroom : (joinItems (historyEntries plainDurations busyTable)).length + 1 < 8192 := by omega
  refine ⟨text, s', hrun, ?_, (history_newest hrun).mpr (noneSlipsIn_of_room ?_ hroom (by decide))⟩
  · rw [runs_formatHistory hrun]
    decide
  · exact fun entry hentry => historyEntries_ne_nil hentry

/-- In 100 bytes the job in the middle is left out. -/
theorem history_gap : ¬ ∀ (s : Sys) size max_items text s',
    Runs (machine boundedCodec) .main
      (jobTableFormatHistory plainDurations size max_items) s text s' →
      ListsNewest plainDurations s.world.jobs max_items text := by
  intro hclaim
  obtain ⟨text, s', hrun⟩ :=
    exists_history boundedCodec plainDurations 100 50
    ⟨{ files := fun _ => none, jobs := gappedTable }, []⟩
  have hlists : ListsNewest plainDurations gappedTable 50 text := hclaim _ _ _ _ _ hrun
  rw [runs_formatHistory hrun] at hlists
  have hnone := (historyOf_newest.mp hlists).gapless [_] _ [_] rfl (by decide) (.inr (by decide))
    (by decide) _
    (List.mem_singleton_self _)
  exact hnone (by decide)

end StegaPng
