import StegaPng.Answers

/-! The blocklist over the commands of an admin: where it is a set of addresses. -/

namespace StegaPng

open Interleaving

/-- The commands that change the blocklist. -/
inductive BlockCommand where
  | block (ip : Bytes)
  | unblock (ip : Bytes)
  deriving DecidableEq

namespace BlockCommand

def ip : BlockCommand → Bytes
  | block ip | unblock ip => ip

def client : BlockCommand → ClientCommand
  | block ip => .blockip ip
  | unblock ip => .unblockip ip

def line (c : BlockCommand) : Bytes := c.client.text .python

/-- The argument is not empty and fits a command line. -/
structure Fits (c : BlockCommand) : Prop where
  ne_nil : c.ip ≠ []
  printable : c.client.Printable .python

end BlockCommand

/-- One command with the calls that serve it, and the server before and after. -/
structure BlockStep where
  command : BlockCommand
  admin : ClientSession
  before : MainState
  calls : List Call
  after : MainState

namespace BlockStep

/-- The reply to the command starts with the word. -/
def Says (st : BlockStep) (word : String) : Prop := ∃ text ∈ sentTo st.admin.fd st.calls,
    lit word <+: text

def contained (st : BlockStep) (x : Bytes) : Bool := blocklistContains st.before.blocklist x

def contains (st : BlockStep) (x : Bytes) : Bool := blocklistContains st.after.blocklist x

/-- The argument fits an entry of the list, or the list is full. -/
def Whole (st : BlockStep) : Prop :=
  ∀ ip, st.command = .block ip → ip.length < 64 ∨ st.before.blocklist.length = maxBlockedIps

end BlockStep

/-- Commands served one after the other, from a blocklist on. Whatever else the server does
in between leaves the list alone. -/
inductive BlockRun (codec : PngCodec) (cfg : RuntimeConfig) (dt : DurationText) :
    List Bytes → List BlockStep → Prop
  | nil (ips : List Bytes) : BlockRun codec cfg dt ips []
  | cons {st : BlockStep} {steps : List BlockStep} {i : Nat} {s s' : Sys} (hfits : st.command.Fits)
      (hrun : AmidCalls codec cfg (handleAdminCommand dt st.before i st.admin
        (protocolParseLine st.command.line))
        s st.calls st.after s')
      (hrest : BlockRun codec cfg dt st.after.blocklist steps) :
      BlockRun codec cfg dt st.before.blocklist (st :: steps)

/-- The address is on the list until it is unblocked, which succeeds and takes it off. -/
def KeptUntil (x : Bytes) : List BlockStep → Prop
  | [] => True
  | st :: rest =>
    if st.command = .unblock x then st.Says "OK " ∧ st.contains x = false
    else st.contains x = true ∧ KeptUntil x rest

structure BoundedSet (steps : List BlockStep) : Prop where
  bounded : ∀ st ∈ steps, st.after.blocklist.Nodup ∧ st.after.blocklist.length ≤ maxBlockedIps
  kept : ∀ st rest x, st :: rest <:+ steps → st.command = .block x → st.Says "OK " →
    st.contains x = true ∧ KeptUntil x rest
  others : ∀ st ∈ steps, ∀ y, y ≠ st.command.ip → st.contains y = st.contained y
  full : ∀ st ∈ steps, ∀ x, st.command = .block x → st.contained x = false →
    (st.Says "ERR " ↔ st.before.blocklist.length = maxBlockedIps)

/-! One command. -/

section

variable {codec : PngCodec} {cfg : RuntimeConfig} {dt : DurationText} {m m' : MainState} {i : Nat}
  {admin : ClientSession} {ip : Bytes} {s s' : Sys} {tr : List Call}

theorem blockCommand_parse {c : BlockCommand} (h : c.Fits) :
    protocolParseLine c.line = c.client.request :=
  ClientCommand.protocolParseLine_text h.printable

/-- What BLOCKIP leaves and replies. -/
inductive Blocked (fd : Int) (ip : Bytes) (ips : List Bytes) (tr : List Call) : List Bytes → Prop
  | full (hnew : ip ∉ ips) (hfull : maxBlockedIps ≤ ips.length)
      (hsent : sentTo fd tr = [lit "ERR blocklist full\n"]) :
      Blocked fd ip ips tr ips
  | known (hmem : ip ∈ ips) (hsent : ∀ text ∈ sentTo fd tr, lit "OK " <+: text) :
      Blocked fd ip ips tr ips
  | added (hnew : ip ∉ ips) (hroom : ips.length < maxBlockedIps)
      (hsent : ∀ text ∈ sentTo fd tr, lit "OK " <+: text) :
      Blocked fd ip ips tr (ips ++ [snprintf 64 ip])

/-- What UNBLOCKIP leaves and replies. -/
inductive Unblocked (fd : Int) (ip : Bytes) (ips : List Bytes) (tr : List Call) : List Bytes → Prop
  | missing (hnew : ip ∉ ips) : Unblocked fd ip ips tr ips
  | removed (hmem : ip ∈ ips)
      (hsent : 28 + ip.length + (blocklistFormat (ips.erase ip) bufferSize).length < bufferSize →
        ∃ text ∈ sentTo fd tr, lit "OK " <+: text) : Unblocked fd ip ips tr (ips.erase ip)

theorem handleBlockIp_blocked {fd : Int} (hne : ip ≠ [])
    (h : AmidCalls codec cfg (handleBlockIp m fd ip) s tr m' s') :
    Blocked fd ip m.blocklist tr m'.blocklist := by
  rw [handleBlockIp, if_neg hne] at h
  -- the reply that both ways of success share
  have hreply : ∀ {ips : List Bytes} {kicked : Nat} {clients : Clients},
      AmidCalls codec cfg (sendResponsef fd (lit "OK blocked ip=" ++ ip ++ lit " kicked=" ++
        decimal kicked ++ lit "\n") >>=
        fun _ => pure { m with clients := clients, blocklist := ips }) s tr m' s' →
      m'.blocklist = ips ∧ ∀ text ∈ sentTo fd tr, lit "OK " <+: text := by
    intro ips kicked clients h
    have hsent := sentTo_respond h
    obtain ⟨sent, s₁, -, rfl⟩ := calls_map h
    refine ⟨rfl, fun text hmem => ?_⟩
    rw [hsent] at hmem
    split at hmem
    · obtain rfl := List.mem_singleton.mp hmem
      simp only [List.append_assoc]
      exact ⟨_, rfl⟩
    · exact absurd hmem List.not_mem_nil
  by_cases hmem : ip ∈ m.blocklist
  · rw [show blocklistAdd m.blocklist ip =
      some m.blocklist by rw [blocklistAdd, if_neg hne, if_pos hmem]] at h
    obtain ⟨hlist, hok⟩ := hreply h
    rw [hlist]
    exact .known hmem hok
  · by_cases hroom : m.blocklist.length < maxBlockedIps
    · rw [show blocklistAdd m.blocklist ip = some (m.blocklist ++ [snprintf 64 ip]) by
        rw [blocklistAdd, if_neg hne, if_neg hmem, if_pos hroom]] at h
      obtain ⟨hlist, hok⟩ := hreply h
      rw [hlist]
      exact .added hmem hroom hok
    · rw [show blocklistAdd m.blocklist ip =
        none by rw [blocklistAdd, if_neg hne, if_neg hmem, if_neg hroom]] at h
      have hsent := sentTo_respond h
      obtain ⟨sent, s₁, -, rfl⟩ := calls_map h
      exact .full hmem (Nat.not_lt.mp hroom) (by rw [hsent, if_pos (by decide)])

theorem handleUnblockIp_unblocked {fd : Int} (hne : ip ≠ [])
    (h : AmidCalls codec cfg (handleUnblockIp m fd ip) s tr m' s') :
    Unblocked fd ip m.blocklist tr m'.blocklist := by
  rw [handleUnblockIp, if_neg hne] at h
  by_cases hmem : ip ∈ m.blocklist
  · rw [show blocklistRemove m.blocklist ip = some (m.blocklist.erase ip) by
      rw [blocklistRemove, if_neg hne, if_pos hmem]] at h
    have hsent := sentTo_respond h
    obtain ⟨sent, s₁, -, rfl⟩ := calls_map h
    refine .removed hmem fun hfits => ?_
    have hlits : (lit "OK unblocked ip=").length = 16 ∧ (lit " blocklist=").length = 11 ∧
      (lit "\n").length = 1 := by decide
    rw [hsent, if_pos (by simp only [List.length_append, hlits]; omega)]
    refine ⟨_, List.mem_singleton_self _, ?_⟩
    simp only [List.append_assoc]
    exact ⟨_, rfl⟩
  · rw [show blocklistRemove m.blocklist ip =
      none by rw [blocklistRemove, if_neg hne, if_neg hmem]] at h
    obtain ⟨sent, s₁, -, rfl⟩ := calls_map h
    exact .missing hmem

/-- The command of the step has been served. -/
inductive BlockStep.Served (st : BlockStep) : Prop
  | block {ip : Bytes} (hcommand : st.command = .block ip)
      (h : Blocked st.admin.fd ip st.before.blocklist st.calls st.after.blocklist)
  | unblock {ip : Bytes} (hcommand : st.command = .unblock ip)
      (h : Unblocked st.admin.fd ip st.before.blocklist st.calls st.after.blocklist)

theorem step_served {st : BlockStep} (hfits : st.command.Fits)
    (h : AmidCalls codec cfg (handleAdminCommand dt st.before i st.admin
      (protocolParseLine st.command.line))
      s st.calls st.after s') : st.Served := by
  rw [blockCommand_parse hfits] at h
  have hne := hfits.ne_nil
  cases hcommand : st.command with
  | block ip =>
    rw [hcommand] at h hne
    exact .block hcommand (handleBlockIp_blocked hne h)
  | unblock ip =>
    rw [hcommand] at h hne
    exact .unblock hcommand (handleUnblockIp_unblocked hne h)

end

/-! What one command does to the set. -/

/-- The list fits its array. -/
structure Entries (ips : List Bytes) : Prop where
  count : ips.length ≤ maxBlockedIps
  short : ∀ x ∈ ips, x.length < 64

section

variable {fd : Int} {ip x y : Bytes} {ips ips' : List Bytes} {tr : List Call}

theorem Blocked.entries (h : Blocked fd ip ips tr ips') (hips : Entries ips) : Entries ips' := by
  cases h with
  | full _ _ _ => exact hips
  | known _ _ => exact hips
  | added hnew hroom _ =>
    refine ⟨by rw [List.length_append]; exact hroom, fun x hx => ?_⟩
    rcases List.mem_append.mp hx with hold | hx
    · exact hips.short x hold
    · obtain rfl := List.mem_singleton.mp hx
      exact snprintf_length_lt (by decide) ip

theorem Unblocked.entries (h : Unblocked fd ip ips tr ips') (hips : Entries ips) :
    Entries ips' := by
  cases h with
  | missing _ => exact hips
  | removed _ _ =>
    exact ⟨List.length_erase_le.trans hips.count,
      fun x hx => hips.short x (List.mem_of_mem_erase hx)⟩

/-- An address that is added in full, or not at all. -/
theorem Blocked.whole (h : Blocked fd ip ips tr ips')
    (hwhole : ip.length < 64 ∨ ips.length = maxBlockedIps) (hnodup : ips.Nodup) :
    ips'.Nodup ∧ ∀ y, y ≠ ip → (y ∈ ips' ↔ y ∈ ips) := by
  cases h with
  | full _ _ _ => exact ⟨hnodup, fun y _ => Iff.rfl⟩
  | known _ _ => exact ⟨hnodup, fun y _ => Iff.rfl⟩
  | added hnew hroom _ =>
    have hshort : ip.length < 64 := by omega
    rw [snprintf_eq hshort]
    refine ⟨List.concat_eq_append ▸ hnodup.concat hnew, fun y hy => ?_⟩
    simp [hy]

/-- An address that is cut is another one, or a second copy of it. -/
theorem Blocked.cut (h : Blocked fd ip ips tr ips') (hlong : 64 ≤ ip.length)
    (hroom : ips.length ≠ maxBlockedIps) (hips : Entries ips) :
    ¬ (ips'.Nodup ∧ ∀ y, y ≠ ip → (y ∈ ips' ↔ y ∈ ips)) := by
  intro hset
  obtain ⟨hnodup, hothers⟩ := hset
  have hcount := hips.count
  cases h with
  | full _ hfull _ => omega
  | known hmem _ =>
    have hshort := hips.short ip hmem
    omega
  | added hnew _ _ =>
    have hcut := snprintf_length_lt (show 0 < 64 by decide) ip
    have hne : snprintf 64 ip ≠ ip := by
      intro heq
      rw [heq] at hcut
      omega
    have hold : snprintf 64 ip ∈ ips :=
      (hothers _ hne).mp (List.mem_append_right _ (List.mem_singleton_self _))
    exact List.disjoint_of_nodup_append hnodup hold (List.mem_singleton_self _)

theorem Unblocked.set (h : Unblocked fd ip ips tr ips') (hnodup : ips.Nodup) :
    ips'.Nodup ∧ ∀ y, y ≠ ip → (y ∈ ips' ↔ y ∈ ips) := by
  cases h with
  | missing _ => exact ⟨hnodup, fun y _ => Iff.rfl⟩
  | removed _ _ => exact ⟨hnodup.erase ip, fun y hy => List.mem_erase_of_ne hy⟩

/-- The reply fits, as the list is not too long for it. -/
theorem Unblocked.succeeds (h : Unblocked fd ip ips tr ips') (hmem : ip ∈ ips) (hips : Entries ips)
    (hnodup : ips.Nodup) :
    (∃ text ∈ sentTo fd tr, lit "OK " <+: text) ∧ ip ∉ ips' := by
  have hentries := h.entries hips
  cases h with
  | missing hnew => exact absurd hmem hnew
  | removed _ hsent =>
    have hip := hips.short ip hmem
    have hlist := blocklistFormat_length hentries.short hentries.count
    have hbuffer : bufferSize = 4096 := rfl
    exact ⟨hsent (by omega), hnodup.not_mem_erase⟩

theorem ok_not_err {text : Bytes} (hok : lit "OK " <+: text) : ¬ lit "ERR " <+: text := by
  obtain ⟨rest, rfl⟩ := hok
  rintro ⟨rest', heq⟩
  cases heq

end

/-! Runs. -/

namespace BlockStep

variable {st : BlockStep} {x y : Bytes}

theorem Served.entries (h : st.Served) (hentries : Entries st.before.blocklist) :
    Entries st.after.blocklist := by
  cases h with
  | block _ h => exact h.entries hentries
  | unblock _ h => exact h.entries hentries

theorem Served.whole (h : st.Served) (hwhole : st.Whole) (hnodup : st.before.blocklist.Nodup) :
    st.after.blocklist.Nodup ∧ ∀ y, y ≠ st.command.ip →
      (y ∈ st.after.blocklist ↔ y ∈ st.before.blocklist) := by
  cases h with
  | block hcommand h =>
    rw [hcommand]
    exact h.whole (hwhole _ hcommand) hnodup
  | unblock hcommand h =>
    rw [hcommand]
    exact h.set hnodup

theorem Served.acknowledged (h : st.Served) (hwhole : st.Whole) (hcommand : st.command = .block x)
    (hok : st.Says "OK ") :
    x ∈ st.after.blocklist := by
  cases h with
  | unblock hcommand' _ => rw [hcommand] at hcommand'; cases hcommand'
  | block hcommand' h =>
    obtain rfl := BlockCommand.block.inj (hcommand.symm.trans hcommand')
    have hfits := hwhole _ hcommand
    obtain ⟨text, hmem, hok⟩ := hok
    generalize st.after.blocklist = after at h
    cases h with
    | full _ _ hsent =>
      rw [hsent, List.mem_singleton] at hmem
      subst hmem
      exact absurd (show lit "ERR " <+: lit "ERR blocklist full\n" from ⟨_, rfl⟩) (ok_not_err hok)
    | known hmem _ => exact hmem
    | added hnew hroom _ =>
      rw [snprintf_eq (by omega)]
      exact List.mem_append_right _ (List.mem_singleton_self _)

theorem Served.full (h : st.Served) (hcommand : st.command = .block x)
    (hnew : x ∉ st.before.blocklist) (hentries : Entries st.before.blocklist) : st.Says "ERR " ↔
      st.before.blocklist.length = maxBlockedIps := by
  have hcount := hentries.count
  have hnot : (∀ text ∈ sentTo st.admin.fd st.calls, lit "OK " <+: text) → ¬ st.Says "ERR " := by
    rintro hok ⟨text, hmem, herr⟩
    exact ok_not_err (hok text hmem) herr
  cases h with
  | unblock hcommand' _ => rw [hcommand] at hcommand'; cases hcommand'
  | block hcommand' h =>
    obtain rfl := BlockCommand.block.inj (hcommand.symm.trans hcommand')
    generalize st.after.blocklist = after at h
    cases h with
    | full _ hfull hsent =>
      refine iff_of_true ⟨_, by rw [hsent]; exact List.mem_singleton_self _, ⟨_, rfl⟩⟩ (by omega)
    | known hmem _ => exact absurd hmem hnew
    | added _ hroom hsent => exact iff_of_false (hnot hsent) (by omega)

end BlockStep

section

variable {codec : PngCodec} {cfg : RuntimeConfig} {dt : DurationText} {ips : List Bytes}
  {steps : List BlockStep}

/-- An address stays on the list up to the command that takes it off. -/
theorem BlockRun.kept {x : Bytes} (hrun : BlockRun codec cfg dt ips steps) (hentries : Entries ips)
    (hnodup : ips.Nodup) (hwhole : ∀ st ∈ steps, st.Whole) (hmem : x ∈ ips) :
    KeptUntil x steps := by
  induction hrun with
  | nil ips => trivial
  | @cons st steps i s s' hfits hstep _ ih =>
    have hserved := step_served hfits hstep
    have hset := hserved.whole (hwhole st List.mem_cons_self) hnodup
    rw [KeptUntil]
    split
    · next hcommand =>
      cases hserved with
      | block hcommand' _ => rw [hcommand] at hcommand'; cases hcommand'
      | unblock hcommand' h =>
        obtain rfl := BlockCommand.unblock.inj (hcommand.symm.trans hcommand')
        obtain ⟨hdenied, hgone⟩ := h.succeeds hmem hentries hnodup
        exact ⟨hdenied, decide_eq_false hgone⟩
    · next hother =>
      have hstill : x ∈ st.after.blocklist := by
        by_cases hip : x = st.command.ip
        · cases hserved with
          | block hcommand h =>
            rw [hcommand] at hip
            obtain rfl := hip
            generalize st.after.blocklist = after at h
            cases h with
            | full hnew _ _ => exact absurd hmem hnew
            | known _ _ => exact hmem
            | added hnew _ _ => exact absurd hmem hnew
          | unblock hcommand _ =>
            rw [hcommand] at hip
            obtain rfl := hip
            exact absurd hcommand hother
        · exact (hset.2 x hip).mpr hmem
      exact ⟨decide_eq_true hstill,
        ih (hserved.entries hentries) hset.1 (fun t ht =>
          hwhole t (List.mem_cons_of_mem _ ht)) hstill⟩

theorem BoundedSet.of_whole (hrun : BlockRun codec cfg dt ips steps) (hentries : Entries ips)
    (hnodup : ips.Nodup) (hwhole : ∀ st ∈ steps, st.Whole) : BoundedSet steps := by
  induction hrun with
  | nil ips =>
    exact ⟨fun st hst => absurd hst List.not_mem_nil, fun st rest x hsuffix => by simp at hsuffix,
      fun st hst => absurd hst List.not_mem_nil, fun st hst => absurd hst List.not_mem_nil⟩
  | @cons st steps i s s' hfits hstep hrest ih =>
    have hserved := step_served hfits hstep
    have hwhole₁ := hwhole st List.mem_cons_self
    have hwhole₂ : ∀ t ∈ steps, t.Whole := fun t ht => hwhole t (List.mem_cons_of_mem _ ht)
    have hentries₁ := hserved.entries hentries
    obtain ⟨hnodup₁, hothers⟩ := hserved.whole hwhole₁ hnodup
    obtain ⟨hbounded, hkept, hframe, hfull⟩ := ih hentries₁ hnodup₁ hwhole₂
    refine ⟨?_, ?_, ?_, ?_⟩
    · intro t ht
      rcases List.mem_cons.mp ht with rfl | ht
      · exact ⟨hnodup₁, hentries₁.count⟩
      · exact hbounded t ht
    · intro t rest x hsuffix hcommand hok
      rcases List.suffix_cons_iff.mp hsuffix with heq | hsuffix
      · obtain ⟨rfl, rfl⟩ := List.cons.inj heq
        have hmem := hserved.acknowledged hwhole₁ hcommand hok
        exact ⟨decide_eq_true hmem, hrest.kept hentries₁ hnodup₁ hwhole₂ hmem⟩
      · exact hkept t rest x hsuffix hcommand hok
    · intro t ht y hy
      rcases List.mem_cons.mp ht with rfl | ht
      · exact decide_eq_decide.mpr (hothers y hy)
      · exact hframe t ht y hy
    · intro t ht x hcommand hnew
      rcases List.mem_cons.mp ht with rfl | ht
      · exact hserved.full hcommand (of_decide_eq_false hnew) hentries
      · exact hfull t ht x hcommand hnew

/-- A cut address spoils the set. -/
theorem BoundedSet.whole (hrun : BlockRun codec cfg dt ips steps) (hentries : Entries ips)
    (h : BoundedSet steps) :
    ∀ st ∈ steps, st.Whole := by
  induction hrun with
  | nil ips => exact fun st hst => absurd hst List.not_mem_nil
  | @cons st steps i s s' hfits hstep hrest ih =>
    have hserved := step_served hfits hstep
    have htail : BoundedSet steps :=
      ⟨fun t ht => h.bounded t (List.mem_cons_of_mem _ ht),
        fun t rest x hsuffix => h.kept t rest x (hsuffix.trans (List.suffix_cons _ _)),
        fun t ht => h.others t (List.mem_cons_of_mem _ ht), fun t ht =>
          h.full t (List.mem_cons_of_mem _ ht)⟩
    intro t ht
    rcases List.mem_cons.mp ht with rfl | ht
    · intro ip hcommand
      by_contra hcut
      rw [not_or, Nat.not_lt] at hcut
      cases hserved with
      | unblock hcommand' _ => rw [hcommand] at hcommand'; cases hcommand'
      | block hcommand' hblocked =>
        obtain rfl := BlockCommand.block.inj (hcommand.symm.trans hcommand')
        refine hblocked.cut hcut.1 hcut.2 hentries ⟨(h.bounded t List.mem_cons_self).1,
          fun y hy => ?_⟩
        have hothers := h.others t List.mem_cons_self y (by rw [hcommand]; exact hy)
        exact decide_eq_decide.mp hothers
    · exact ih (hserved.entries hentries) htail t ht

/-- From the empty list on, the blocklist is a bounded set exactly as long as every address
that joins it fits an entry. -/
theorem blocklist_bounded_set (hrun : BlockRun codec cfg dt [] steps) : BoundedSet steps ↔
    ∀ st ∈ steps, st.Whole := by
  have hentries : Entries [] := ⟨Nat.zero_le _, fun x hx => absurd hx List.not_mem_nil⟩
  exact ⟨BoundedSet.whole hrun hentries, BoundedSet.of_whole hrun hentries List.nodup_nil⟩

end

theorem exists_blockStep (codec : PngCodec) (cfg : RuntimeConfig) (dt : DurationText)
    (admin : ClientSession) (m : MainState) (c : BlockCommand) :
    ∃ st : BlockStep, st.command = c ∧ st.before = m ∧ ∃ s s', AmidCalls codec cfg
      (handleAdminCommand dt st.before 0 st.admin (protocolParseLine st.command.line)) s st.calls
        st.after s' := by
  generalize hq : protocolParseLine c.line = q
  have hwaits : (handleAdminCommand dt m 0 admin q).All fun o => o.waits = false :=
    handleAdminCommand_all (fun o ho => by cases o <;> first | rfl | cases ho) dt m 0 admin q
      (fun _ _ => rfl) fun _ => rfl
  obtain ⟨m', s', hrun⟩ := Runs.exists_of_all (M := machine codec) (t := .main)
    (fun _ ho => exists_step ⟨{}, trivial⟩ codec .main ho) hwaits (seated (fun _ => none) [])
  have hamid : Amid codec cfg (handleAdminCommand dt m 0 admin q) _ m' s' :=
    hrun.amid fun _ => .refl
  obtain ⟨tr, hcalls⟩ := hamid.traced
  refine ⟨⟨c, admin, m, tr, m'⟩, rfl, rfl, seated (fun _ => none) [], s', ?_⟩
  dsimp only
  rw [hq]
  exact hcalls

theorem exists_blockRun (codec : PngCodec) (cfg : RuntimeConfig) (dt : DurationText)
    (admin : ClientSession) (commands : List BlockCommand) (m : MainState)
    (h : ∀ c ∈ commands, c.Fits) :
    ∃ steps, BlockRun codec cfg dt m.blocklist steps ∧ steps.map (·.command) = commands := by
  induction commands generalizing m with
  | nil => exact ⟨[], .nil _, rfl⟩
  | cons c commands ih =>
    obtain ⟨st, rfl, rfl, s, s', hcalls⟩ := exists_blockStep codec cfg dt admin m c
    obtain ⟨steps, hsteps, rfl⟩ := ih st.after fun c' hc' => h c' (List.mem_cons_of_mem _ hc')
    exact ⟨st :: steps, .cons (h st.command List.mem_cons_self) hcalls hsteps, rfl⟩

theorem blocklist_bounded_set_twice : ∃ steps,
    BlockRun boundedCodec runtimeConfigDefaults plainDurations [] steps ∧
      steps.map (·.command) = [.block (lit "10.0.0.9"), .unblock (lit "10.0.0.9")] ∧
        BoundedSet steps := by
  have hfits : ∀ c ∈ [BlockCommand.block (lit "10.0.0.9"), .unblock (lit "10.0.0.9")], c.Fits := by
    intro c hc
    simp only [List.mem_cons, List.not_mem_nil, or_false] at hc
    rcases hc with rfl | rfl <;>
      exact ⟨by decide, fun text htext => by obtain rfl := Option.some.inj htext; decide⟩
  obtain ⟨steps, hrun, hcommands⟩ :=
    exists_blockRun boundedCodec runtimeConfigDefaults plainDurations
    (newSession 8 .admin (lit "10.0.0.1")) _ {} hfits
  refine ⟨steps, hrun, hcommands, (blocklist_bounded_set hrun).mpr fun st hst ip hip => .inl ?_⟩
  have hmem : st.command ∈ steps.map (·.command) := List.mem_map_of_mem hst
  rw [hcommands, hip] at hmem
  simp only [List.mem_cons, BlockCommand.block.injEq, reduceCtorEq, List.not_mem_nil,
    or_false] at hmem
  rw [hmem]
  decide

/-- An address of 64 bytes is acknowledged and not blocked. -/
theorem long_address_cut : ¬ ∀ steps,
    BlockRun boundedCodec runtimeConfigDefaults plainDurations [] steps → BoundedSet steps := by
  intro hclaim
  have hfits : ∀ c ∈ [BlockCommand.block (List.replicate 64 120)], c.Fits := by
    intro c hc
    obtain rfl := List.mem_singleton.mp hc
    exact ⟨by decide, fun text htext => by obtain rfl := Option.some.inj htext; decide⟩
  obtain ⟨steps, hrun, hcommands⟩ :=
    exists_blockRun boundedCodec runtimeConfigDefaults plainDurations
    (newSession 8 .admin (lit "10.0.0.1")) _ {} hfits
  obtain ⟨st, rfl, hst⟩ := List.map_eq_singleton_iff.mp hcommands
  have hentries : Entries [] := ⟨Nat.zero_le _, fun x hx => absurd hx List.not_mem_nil⟩
  have hwhole := (hclaim _ hrun).whole hrun hentries st List.mem_cons_self _ hst
  have hempty : st.before.blocklist = [] := by
    obtain ⟨ips, hips⟩ : ∃ ips : List Bytes, ips = [] := ⟨_, rfl⟩
    rw [← hips] at hrun ⊢
    cases hrun
    rfl
  change 64 < 64 ∨ _ at hwhole
  rw [hempty] at hwhole
  revert hwhole
  decide

end StegaPng
