import Mathlib.Data.List.ReduceOption
import StegaPng.AccessLog
import StegaPng.BlockedSet

/-! The report formatters on their buffers: every index they write, and what they leave. -/

namespace StegaPng

open AccessLog SeparatedList

/-- `%d`. -/
def intDecimal (n : Int) : Bytes := if n < 0 then 45 :: decimal n.natAbs else decimal n.toNat

/-- `buffer[i] = b`. -/
def store (buffer : Bytes) (i : Nat) (b : UInt8) : Logged Nat Bytes := do
  note i
  return buffer.set i b

/-- The bytes of a text, from index `i` on. -/
def storeAll : Bytes → Nat → Bytes → Logged Nat Bytes
  | buffer, _, [] => pure buffer
  | buffer, i, b :: text => do
    let buffer ← store buffer i b
    storeAll buffer (i + 1) text

/-- `snprintf(buffer + used, n, "%s", item)`. -/
def snprintfAt (buffer : Bytes) (used n : Nat) (item : Bytes) : Logged Nat Bytes :=
  if n = 0 then pure buffer else storeAll buffer used (snprintf n (cstr item) ++ [0])

/-- The separator behind what is used so far, if anything is. -/
def putSeparator (sep : UInt8) (buffer : Bytes) (used : Nat) : Logged Nat (Bytes × Nat) :=
  if used ≠ 0 then do
    let buffer ← store buffer used sep
    let used := sizeT (used + 1)
    let buffer ← store buffer used 0
    return (buffer, used)
  else return (buffer, used)

/-- The loop of the three formatters over the entries that are left; `none` is one they pass
over. `active` counts the others that they come to. -/
def formatItems (sep : UInt8) (buffer_size : Nat) : Bytes → Nat → Nat → List (Option Bytes) →
    Logged Nat (Bytes × Nat)
  | buffer, _, active, [] => pure (buffer, active)
  | buffer, used, active, none :: items => formatItems sep buffer_size buffer used active items
  | buffer, used, active, some item :: items =>
    let item_len := (cstr item).length
    let extra_sep := if used = 0 then 0 else 1
    if sizeT (used + extra_sep + item_len + 1) ≥ buffer_size then pure (buffer, active + 1)
    else do
      let start ← putSeparator sep buffer used
      let buffer ← snprintfAt start.1 start.2 (sizeT (2 ^ 64 + buffer_size - start.2)) item
      formatItems sep buffer_size buffer (sizeT (start.2 + item_len)) (active + 1) items

/-- The jobs of a `job_table_t`, up to `count`. -/
structure JobSlots where
  jobs : List (Option Job)
  count_le : jobs.length ≤ maxJobs

/-- The entries that the job list can show, in the order of the table. -/
def JobSlots.entries (table : JobSlots) : List Bytes := table.jobs.reduceOption.map fun job =>
    cstr (listEntry job)

/-- `job_table_format_list` and `blocklist_format`, on what they list. -/
def formatListInto (sep : UInt8) (slots : List (Option Bytes)) (buffer : Bytes) :
    Logged Nat (Int × Bytes) :=
  let buffer_size := buffer.length
  if buffer_size = 0 then pure (-1, buffer)
  else do
    let buffer ← store buffer 0 0
    if slots.length = 0 then
      let buffer ← snprintfAt buffer 0 buffer_size (lit "empty")
      return (0, buffer)
    else
      let listed ← formatItems sep buffer_size buffer 0 0 slots
      return (0, listed.1)

def jobTableFormatListInto (table : JobSlots) (buffer : Bytes) : Logged Nat (Int × Bytes) :=
  formatListInto 59 (table.jobs.map fun slot => slot.map listEntry) buffer

def blocklistFormatInto (ips : List Bytes) (out : Bytes) : Logged Nat (Int × Bytes) :=
  formatListInto 44 (ips.map some) out

def clientItem (c : ClientSession) : Bytes :=
  snprintf smallBufferSize (lit "fd=" ++ intDecimal c.fd ++ lit ",type=" ++
    (if c.type = .admin then lit "admin" else lit "user") ++ lit ",addr=" ++ c.addr_str)

def Clients.entries (clients : Clients) : List Bytes :=
  clients.active.map fun c => cstr (clientItem c)

/-- What the loop makes of a session. -/
def clientSlot (c : ClientSession) : Option Bytes := if !c.active then none else some (clientItem c)

def formatClientListInto (clients : Clients) (buf : Bytes) : Logged Nat (Int × Bytes) :=
  let buf_size := buf.length
  if buf_size = 0 then pure (-1, buf)
  else do
    let buf ← store buf 0 0
    let listed ← formatItems 59 buf_size buf 0 0 (clients.slots.map clientSlot)
    if listed.2 = 0 then
      let buf ← snprintfAt listed.1 0 buf_size (lit "empty")
      return (0, buf)
    else
      return (0, listed.1)

/-- The blocklists that additions of C strings, and removals, make of the empty one. -/
inductive BlocklistReached : List Bytes → Prop
  | init : BlocklistReached []
  | add {ips ips' : List Bytes} {ip : Bytes} (h : BlocklistReached ips)
      (hip : 0 ∉ ip) (hadd : blocklistAdd ips ip = some ips') :
      BlocklistReached ips'
  | remove {ips ips' : List Bytes} {ip : Bytes} (h : BlocklistReached ips)
      (hremove : blocklistRemove ips ip = some ips') :
      BlocklistReached ips'

/-- The formatter writes inside its buffer, and leaves the longest start of the entries there
that fits. -/
structure ListsPrefix (sep : UInt8) (entries : List Bytes) (size : Nat)
    (m : Logged Nat (Int × Bytes)) : Prop where
  inside : ∀ i ∈ m.events, i < size
  terminated : m.result.2.length = size ∧ 0 ∈ m.result.2
  text : ∃ shown, LongestFit sep size entries shown ∧ cstr m.result.2 = separated sep shown

/-! A buffer that holds a text. -/

section

variable {size n used active : Nat} {text item buffer before old rest : Bytes} {sep b : UInt8}

/-- The text is the C string at the start of a buffer of that size. -/
structure Holds (size : Nat) (text buffer : Bytes) : Prop where
  length : buffer.length = size
  start : text ++ [0] <+: buffer
  nul_free : 0 ∉ text

theorem Holds.cstr_eq (h : Holds size text buffer) : cstr buffer = text := by
  obtain ⟨rest, rfl⟩ := h.start
  rw [List.append_assoc, List.singleton_append, cstr_append_nul, cstr_of_nul_free h.nul_free]

theorem Holds.nul_mem (h : Holds size text buffer) : 0 ∈ buffer :=
  h.start.subset (List.mem_append_right text List.mem_cons_self)

theorem Holds.lt (h : Holds size text buffer) : text.length < size := by
  have hle := h.start.length_le
  rw [h.length, List.length_append, List.length_singleton] at hle
  exact hle

theorem store_logs {i : Nat} (hi : i < size) :
    Logs (· < size) (store buffer i b) (buffer.set i b) :=
  .cons hi (.pure _)

theorem storeAll_logs (hold : old.length = text.length)
    (hfits : before.length + text.length ≤ size) :
    Logs (· < size) (storeAll (before ++ (old ++ rest)) before.length text)
      (before ++ (text ++ rest)) := by
  induction text generalizing before old with
  | nil =>
    rw [List.length_eq_zero_iff.mp hold]
    exact .pure _
  | cons b text ih =>
    obtain ⟨o, old, rfl⟩ := List.exists_cons_of_length_eq_add_one hold
    rw [List.length_cons] at hfits
    have hset : (before ++ (o :: old ++ rest)).set before.length b = (before ++ [b]) ++
      (old ++ rest) := by simp
    have hnext := @ih (before ++ [b]) old (by simpa using hold) (by simp; omega)
    rw [List.length_append, List.length_singleton] at hnext
    have hdone : before ++ (b :: text ++ rest) = before ++ [b] ++ (text ++ rest) := by simp
    rw [hdone]
    exact (store_logs (by omega)).bind (hset ▸ hnext)

theorem Holds.snprintfAt (h : Holds size text buffer) (item : Bytes) :
    ∃ buffer', Logs (· < size) (snprintfAt buffer text.length (size - text.length) item) buffer' ∧
      Holds size (text ++ snprintf (size - text.length) (cstr item)) buffer' := by
  have hlt := h.lt
  obtain ⟨rest, rfl⟩ := h.start
  have hlength := h.length
  have hcut := snprintf_length_lt (show 0 < size - text.length by omega) (cstr item)
  have hclean : 0 ∉ snprintf (size - text.length) (cstr item) :=
    fun hmem => cstr_nul_free item (List.mem_of_mem_take hmem)
  generalize hwritten : snprintf (size - text.length) (cstr item) = written at hcut hclean ⊢
  have hsplit : text ++ [0] ++ rest =
      text ++ ((0 :: rest).take (written.length + 1) ++ (0 :: rest).drop (written.length + 1)) := by
    rw [List.take_append_drop]
    simp
  rw [List.length_append, List.length_append, List.length_singleton] at hlength
  have hstored := @storeAll_logs size (written ++ [0]) text ((0 :: rest).take (written.length + 1))
    ((0 :: rest).drop (written.length + 1)) (by simp; omega) (by simp; omega)
  refine ⟨text ++ (written ++ [0] ++ (0 :: rest).drop (written.length + 1)), ?_, ?_, ?_, ?_⟩
  · rw [StegaPng.snprintfAt, if_neg (by omega), hwritten, hsplit]
    exact hstored
  · simp
    omega
  · exact ⟨(0 :: rest).drop (written.length + 1), by simp⟩
  · intro hmem
    rcases List.mem_append.mp hmem with hold | hnew
    · exact h.nul_free hold
    · exact hclean hnew

/-- What stands before the next item. -/
def joint (sep : UInt8) (text : Bytes) : Bytes := if text = [] then [] else text ++ [sep]

theorem Holds.putSeparator (h : Holds size text buffer) (hsep : sep ≠ 0) (hwidth : size < 2 ^ 64)
    (hroom : text.length + 1 < size) :
    ∃ buffer', Logs (· < size) (putSeparator sep buffer text.length)
      (buffer', (joint sep text).length) ∧
      Holds size (joint sep text) buffer' := by
  by_cases htext : text = []
  · subst htext
    exact ⟨buffer, .pure _, h⟩
  · have hused : text.length ≠ 0 := fun hzero => htext (List.length_eq_zero_iff.mp hzero)
    have hnext : sizeT (text.length + 1) = text.length + 1 := Nat.mod_eq_of_lt (by omega)
    obtain ⟨rest, rfl⟩ := h.start
    have hlength := h.length
    obtain ⟨x, rest, rfl⟩ : ∃ x tail, rest = x :: tail := by
      refine List.exists_cons_of_ne_nil fun hnil => ?_
      rw [hnil, List.append_nil, List.length_append, List.length_singleton] at hlength
      omega
    have hset : ((text ++ [0] ++ x :: rest).set text.length sep).set (text.length + 1) 0 = text ++
      [sep] ++ [0] ++ rest := by
      simp [List.set_append_right]
    rw [StegaPng.putSeparator, if_pos hused, joint, if_neg htext, List.length_append,
      List.length_singleton, hnext]
    refine ⟨text ++ [sep] ++ [0] ++ rest, ?_, ?_, List.prefix_append _ _, ?_⟩
    · exact (store_logs (by omega)).bind ((store_logs (by omega)).bind (hset ▸ .pure _))
    · simpa using hlength
    · intro hmem
      rcases List.mem_append.mp hmem with hold | hnew
      · exact h.nul_free hold
      · exact hsep (List.mem_singleton.mp hnew).symm

theorem appendItem_joint (sep : UInt8) (size : Nat) (text item : Bytes) :
    appendItem sep size text item =
      if text.length + (if text.length = 0 then 0 else 1) + item.length + 1 ≥ size then none else
        some (joint sep text ++ item) := by
  have hone : (if text.length = 0 then item else text ++ sep :: item) = joint sep text ++ item := by
    by_cases htext : text = []
    · simp [joint, htext]
    · simp [joint, htext]
  rw [appendItem, ← hone]

theorem joint_length (sep : UInt8) (text : Bytes) :
    (joint sep text).length = text.length + if text.length = 0 then 0 else 1 := by
  by_cases htext : text = []
  · simp [joint, htext]
  · simp [joint, htext]

theorem sizeT_sub (hle : used ≤ size) (hwidth : size < 2 ^ 64) :
    sizeT (2 ^ 64 + size - used) = size - used := by
  rw [sizeT, Nat.add_sub_assoc hle, Nat.add_mod_left]
  exact Nat.mod_eq_of_lt (Nat.lt_of_le_of_lt (Nat.sub_le _ _) hwidth)

theorem Holds.append (h : Holds size text buffer) (hsep : sep ≠ 0) (hwidth : size < 2 ^ 64)
    (hroom : (joint sep text).length + (cstr item).length + 1 < size) :
    ∃ start buffer', Logs (· < size) (StegaPng.putSeparator sep buffer text.length)
      (start, (joint sep text).length) ∧
      Logs (· < size) (StegaPng.snprintfAt start (joint sep text).length
        (sizeT (2 ^ 64 + size - (joint sep text).length)) item) buffer' ∧
      Holds size (joint sep text ++ cstr item) buffer' := by
  have hjoint := joint_length sep text
  have hbehind : text.length + 1 < size := by
    by_cases htext : text.length = 0
    · omega
    · rw [if_neg htext] at hjoint
      omega
  obtain ⟨start, hput, hstart⟩ := h.putSeparator hsep hwidth hbehind
  obtain ⟨buffer', hprinted, hbuffer⟩ := hstart.snprintfAt item
  rw [snprintf_eq (by omega)] at hbuffer
  rw [sizeT_sub (by omega) hwidth]
  exact ⟨start, buffer', hput, hprinted, hbuffer⟩

/-- The loop stays inside the buffer, and leaves the items there that the text-level loop joins. -/
theorem formatItems_holds (sep : UInt8) (active : Nat) {items : List (Option Bytes)}
    (hsep : sep ≠ 0) (hwidth : size < 2 ^ 64)
    (hitems : ∀ item ∈ items.reduceOption, (cstr item).length < 256) (h : Holds size text buffer)
    (hcount : text.length + 256 * items.length + 1 < 2 ^ 64) :
    ∃ buffer' active', Logs (· < size) (formatItems sep size buffer text.length active items)
      (buffer', active') ∧
      Holds size (appendItems sep size text (items.reduceOption.map cstr)) buffer' ∧
        active ≤ active' ∧
      (active' = active ↔ items.reduceOption = []) := by
  induction items generalizing buffer text active with
  | nil => exact ⟨buffer, active, .pure _, h, Nat.le_refl _, by simp⟩
  | cons slot items ih =>
    rw [List.length_cons] at hcount
    cases slot with
    | none =>
      rw [List.reduceOption_cons_of_none] at hitems ⊢
      exact ih active hitems h (by omega)
    | some item =>
      obtain ⟨hlen, hrest⟩ := List.forall_mem_cons.mp (List.reduceOption_cons_of_some item items ▸
        hitems)
      have hjoint := joint_length sep text
      have happend := appendItem_joint sep size text (cstr item)
      rw [← hjoint] at happend
      have hle : (joint sep text).length ≤ text.length + 1 := by
        rw [hjoint]
        split <;> omega
      have hexact : sizeT ((joint sep text).length + (cstr item).length + 1) =
        (joint sep text).length + (cstr item).length + 1 :=
        Nat.mod_eq_of_lt (by omega)
      rw [List.reduceOption_cons_of_some, List.map_cons, appendItems, formatItems, ← hjoint, hexact]
      by_cases hfull : (joint sep text).length + (cstr item).length + 1 ≥ size
      · rw [if_pos hfull] at happend ⊢
        rw [happend]
        exact ⟨buffer, active + 1, .pure _, h, Nat.le_succ _, by simp⟩
      · rw [if_neg hfull] at happend ⊢
        obtain ⟨start, written, hput, hprinted, hwritten⟩ :=
          h.append hsep hwidth (Nat.lt_of_not_le hfull)
        have hnext : (joint sep text ++ cstr item).length = _ := List.length_append
        have hused : sizeT ((joint sep text).length + (cstr item).length) =
          (joint sep text ++ cstr item).length := by
          rw [hnext]
          exact Nat.mod_eq_of_lt (by omega)
        obtain ⟨buffer', active', hlogs, hholds, hactive, -⟩ :=
          ih (active + 1) hrest hwritten (by omega)
        rw [happend]
        refine ⟨buffer', active', hput.bind (hprinted.bind ?_), hholds, by omega, by simp; omega⟩
        rw [hused]
        exact hlogs

end

/-! The formatters. -/

section

variable {buffer : Bytes}

theorem opened_holds (hsize : 1 ≤ buffer.length) : Holds buffer.length [] (buffer.set 0 0) := by
  cases buffer with
  | nil => cases hsize
  | cons b rest => exact ⟨by simp, ⟨rest, rfl⟩, List.not_mem_nil⟩

theorem Holds.word {size : Nat} (h : Holds size [] buffer) :
    ∃ buffer', Logs (· < size) (StegaPng.snprintfAt buffer 0 size (lit "empty")) buffer' ∧
      Holds size (snprintf size (lit "empty")) buffer' := by
  have hword : cstr (lit "empty") = lit "empty" := by decide
  simpa [hword] using h.snprintfAt (lit "empty")

theorem formatListInto_holds {sep : UInt8} {slots : List (Option Bytes)} (hsep : sep ≠ 0)
    (hsize : 1 ≤ buffer.length) (hwidth : buffer.length < 2 ^ 64)
    (hitems : ∀ item ∈ slots.reduceOption, (cstr item).length < 256)
    (hcount : slots.length ≤ maxJobs) :
    ∃ buffer', Logs (· < buffer.length) (formatListInto sep slots buffer) (0, buffer') ∧
      Holds buffer.length (if slots.length = 0 then snprintf buffer.length (lit "empty")
        else appendItems sep buffer.length [] (slots.reduceOption.map cstr)) buffer' := by
  have hjobs : maxJobs = 1024 := rfl
  have hopened := opened_holds hsize
  have hnonzero : buffer.length ≠ 0 := by omega
  simp only [formatListInto, if_neg hnonzero]
  by_cases hnone : slots.length = 0
  · obtain ⟨buffer', hlogs, hholds⟩ := hopened.word
    simp only [if_pos hnone]
    exact ⟨buffer', (store_logs hsize).bind (hlogs.bind (.pure _)), hholds⟩
  · have hshort : ([] : Bytes).length + 256 * slots.length + 1 < 2 ^ 64 := by
      rw [List.length_nil]
      omega
    obtain ⟨buffer', active, hlogs, hholds, -, -⟩ :=
      formatItems_holds sep 0 hsep hwidth hitems hopened hshort
    simp only [if_neg hnone]
    exact ⟨buffer', (store_logs hsize).bind (hlogs.bind (.pure _)), hholds⟩

theorem cstr_snprintf_lt {n : Nat} (hn : 0 < n) (text : Bytes) :
    (cstr (snprintf n text)).length < n :=
  Nat.lt_of_le_of_lt (cstr_length_le _) (snprintf_length_lt hn text)

theorem clientSlots_listed (slots : List ClientSession) :
    (slots.map clientSlot).reduceOption = (slots.filter (·.active)).map clientItem := by
  induction slots with
  | nil => rfl
  | cons c slots ih =>
    cases hactive : c.active with
    | false => simpa [clientSlot, hactive] using ih
    | true => simpa [clientSlot, hactive] using ih

theorem formatClientListInto_holds (clients : Clients) (hsize : 1 ≤ buffer.length)
    (hwidth : buffer.length < 2 ^ 64) :
    ∃ buffer', Logs (· < buffer.length) (formatClientListInto clients buffer) (0, buffer') ∧
      Holds buffer.length (if clients.active = [] then snprintf buffer.length (lit "empty")
        else appendItems 59 buffer.length [] clients.entries) buffer' := by
  have hclients : (clients.slots.map clientSlot).length = 128 :=
    (List.length_map _).trans clients.length_eq
  have hopened := opened_holds hsize
  have hnonzero : buffer.length ≠ 0 := by omega
  have hlisted : (clients.slots.map clientSlot).reduceOption = clients.active.map clientItem :=
    clientSlots_listed _
  have hitems : ∀ item ∈ (clients.slots.map clientSlot).reduceOption, (cstr item).length < 256 := by
    rw [hlisted]
    exact List.forall_mem_map.mpr fun c _ => cstr_snprintf_lt (by decide) _
  have hshort : ([] : Bytes).length + 256 * (clients.slots.map clientSlot).length + 1 < 2 ^ 64 := by
    rw [hclients]
    decide
  obtain ⟨buffer', active, hlogs, hholds, -, hactive⟩ :=
    formatItems_holds 59 0 (by decide) hwidth hitems
    hopened hshort
  rw [hlisted, List.map_eq_nil_iff] at hactive
  rw [hlisted, List.map_map] at hholds
  simp only [formatClientListInto, if_neg hnonzero]
  by_cases hnone : clients.active = []
  · rw [hnone] at hholds
    obtain ⟨word, hword, hholds⟩ := hholds.word
    rw [if_pos hnone]
    refine ⟨word, (store_logs hsize).bind (hlogs.bind ?_), hholds⟩
    simp only [if_pos (hactive.mpr hnone)]
    exact hword.bind (.pure _)
  · rw [if_neg hnone]
    refine ⟨buffer', (store_logs hsize).bind (hlogs.bind ?_), hholds⟩
    simp only [if_neg fun hzero => hnone (hactive.mp hzero)]
    exact .pure _

theorem jobTableFormatListInto_holds (table : JobSlots) (hsize : 1 ≤ buffer.length)
    (hwidth : buffer.length < 2 ^ 64) :
    ∃ buffer', Logs (· < buffer.length) (jobTableFormatListInto table buffer) (0, buffer') ∧
      Holds buffer.length (if table.jobs.length = 0 then snprintf buffer.length (lit "empty")
        else appendItems 59 buffer.length [] table.entries) buffer' := by
  have hlisted : (table.jobs.map fun slot => slot.map listEntry).reduceOption =
    table.jobs.reduceOption.map listEntry :=
    List.reduceOption_map
  have hlength : (table.jobs.map fun slot => slot.map listEntry).length = table.jobs.length :=
    List.length_map _
  have hitems : ∀ item ∈ (table.jobs.map fun slot => slot.map listEntry).reduceOption,
    (cstr item).length < 256 := by
    rw [hlisted]
    exact List.forall_mem_map.mpr fun job _ => cstr_snprintf_lt (by decide) _
  have hformat := formatListInto_holds (show (59 : UInt8) ≠ 0 by decide) hsize hwidth hitems
    (hlength.trans_le table.count_le)
  rw [hlisted, hlength, List.map_map] at hformat
  exact hformat

/-! Blocklists. -/

theorem BlocklistReached.fits {ips : List Bytes} (h : BlocklistReached ips) :
    Entries ips ∧ ∀ ip ∈ ips, ip ≠ [] ∧ 0 ∉ ip := by
  induction h with
  | init => exact ⟨⟨Nat.zero_le _, by simp⟩, by simp⟩
  | @add ips ips' ip _ hip hadd ih =>
    obtain ⟨hentries, hplain⟩ := ih
    obtain ⟨hne, -⟩ := blocklistAdd_some hadd
    have hnew : snprintf 64 ip ≠ [] ∧ 0 ∉ snprintf 64 ip :=
      ⟨snprintf_ne_nil (by decide) hne, fun hmem => hip (List.mem_of_mem_take hmem)⟩
    have hshort := blocklistAdd_entries hadd hentries.short (snprintf_length_lt (by decide) ip)
    exact ⟨⟨blocklistAdd_length hadd hentries.count, hshort⟩, blocklistAdd_entries hadd hplain hnew⟩
  | @remove ips ips' ip _ hremove ih =>
    obtain ⟨hentries, hplain⟩ := ih
    have hshort := blocklistRemove_entries hremove hentries.short
    exact ⟨⟨blocklistRemove_length hremove hentries.count, hshort⟩,
      blocklistRemove_entries hremove hplain⟩

theorem blocklistFormatInto_holds {ips : List Bytes} (h : BlocklistReached ips)
    (hsize : 1 ≤ buffer.length) (hwidth : buffer.length < 2 ^ 64) :
    ∃ buffer', Logs (· < buffer.length) (blocklistFormatInto ips buffer) (0, buffer') ∧
      Holds buffer.length (blocklistFormat ips buffer.length) buffer' := by
  obtain ⟨hentries, hplain⟩ := h.fits
  have hlisted : (ips.map some).reduceOption = ips := by simp [List.reduceOption]
  have hlength : (ips.map some).length = ips.length := List.length_map _
  have hitems : ∀ item ∈ (ips.map some).reduceOption, (cstr item).length < 256 := by
    rw [hlisted]
    intro item hmem
    have hshort := hentries.short item hmem
    have hle := cstr_length_le item
    omega
  have hsame : ips.map cstr = ips :=
    (List.map_congr_left fun ip hip => cstr_of_nul_free (hplain ip hip).2).trans (List.map_id ips)
  have hcount : (ips.map some).length ≤ maxJobs :=
    hlength.trans_le (hentries.count.trans (by decide))
  have hformat := formatListInto_holds (show (44 : UInt8) ≠ 0 by decide) hsize hwidth hitems hcount
  rw [hlisted, hlength, hsame] at hformat
  exact hformat

/-! What the formatters list. -/

theorem cstr_cons {b : UInt8} (hb : b ≠ 0) (rest : Bytes) : cstr (b :: rest) = b :: cstr rest := by
  simp [cstr, hb]

theorem JobSlots.entries_ne_nil (table : JobSlots) : ∀ entry ∈ table.entries, entry ≠ [] := by
  intro entry hentry
  obtain ⟨job, -, rfl⟩ := List.mem_map.mp hentry
  obtain ⟨rest, hhead⟩ : ∃ rest, listEntry job = 105 :: rest := ⟨_, rfl⟩
  rw [hhead, cstr_cons (by decide)]
  exact List.cons_ne_nil _ _

theorem Clients.entries_ne_nil (clients : Clients) : ∀ entry ∈ clients.entries, entry ≠ [] := by
  intro entry hentry
  obtain ⟨c, -, rfl⟩ := List.mem_map.mp hentry
  obtain ⟨rest, hhead⟩ : ∃ rest, clientItem c = 102 :: rest := ⟨_, rfl⟩
  rw [hhead, cstr_cons (by decide)]
  exact List.cons_ne_nil _ _

theorem listsPrefix_of_holds {sep : UInt8} {size : Nat} {entries : List Bytes}
    {m : Logged Nat (Int × Bytes)} (hlogs : Logs (· < size) m (0, buffer))
    (hholds : Holds size (appendItems sep size [] entries) buffer)
    (hentries : ∀ entry ∈ entries, entry ≠ []) : ListsPrefix sep entries size m := by
  obtain ⟨shown, hlongest, htext⟩ : ∃ shown, LongestFit sep size entries shown ∧
      appendItems sep size [] entries = separated sep shown :=
    @appendItems_longest sep size [] entries (by simp) hentries (by simp)
  refine ⟨hlogs.events, ?_, shown, hlongest, ?_⟩
  · rw [hlogs.result]
    exact ⟨hholds.length, hholds.nul_mem⟩
  · rw [hlogs.result, hholds.cstr_eq, htext]

/-- Every formatter stays inside its buffer and lists the longest start of its entries that fits. -/
theorem formatters_listPrefix (buffer : Bytes) (hsize : 1 ≤ buffer.length)
    (hwidth : buffer.length < 2 ^ 64) :
    (∀ table : JobSlots, table.jobs ≠ [] →
      ListsPrefix 59 table.entries buffer.length (jobTableFormatListInto table buffer)) ∧
    (∀ clients : Clients, clients.active ≠ [] →
      ListsPrefix 59 clients.entries buffer.length (formatClientListInto clients buffer)) ∧
    ∀ ips, BlocklistReached ips → ips ≠ [] →
      ListsPrefix 44 ips buffer.length (blocklistFormatInto ips buffer) := by
  refine ⟨fun table hne => ?_, fun clients hne => ?_, fun ips hreached hne => ?_⟩
  · obtain ⟨buffer', hlogs, hholds⟩ := jobTableFormatListInto_holds table hsize hwidth
    rw [if_neg fun hnone => hne (List.length_eq_zero_iff.mp hnone)] at hholds
    exact listsPrefix_of_holds hlogs hholds table.entries_ne_nil
  · obtain ⟨buffer', hlogs, hholds⟩ := formatClientListInto_holds clients hsize hwidth
    rw [if_neg hne] at hholds
    exact listsPrefix_of_holds hlogs hholds clients.entries_ne_nil
  · obtain ⟨buffer', hlogs, hholds⟩ := blocklistFormatInto_holds hreached hsize hwidth
    rw [blocklistFormat, if_neg fun hnone => hne (List.length_eq_zero_iff.mp hnone)] at hholds
    exact listsPrefix_of_holds hlogs hholds fun ip hip => (hreached.fits.2 ip hip).1

/-- A table without gaps. -/
def JobSlots.full (jobs : List Job) (h : jobs.length ≤ maxJobs) : JobSlots :=
  ⟨jobs.map some, (List.length_map _).trans_le h⟩

def oldText : Bytes := List.replicate 40 120

def twoJobs : JobSlots :=
  .full [{ id := 1, owner_fd := 4, type := .decode },
    { id := 2, owner_fd := 8, type := .encodeText }] (by decide)

def twoSessions : Clients :=
  (Clients.idle.set 5 { fd := 4, active := true }).set 6
    { fd := 8, active := true, addr_str := lit "10.0.0.7" }

def twoAddresses : List Bytes :=
  [lit "10.0.0.7", lit "fe80:0000:0000:0000:0202:b3ff:fe1e:8329"]

/-- In forty bytes the first entry fits and the second does not. -/
theorem formatters_listPrefix_oneFits :
    (ListsPrefix 59 twoJobs.entries 40 (jobTableFormatListInto twoJobs oldText) ∧
      cstr (jobTableFormatListInto twoJobs oldText).result.2 =
        lit "id=1,type=DECODE,state=QUEUED,ip=") ∧
    (ListsPrefix 59 twoSessions.entries 40 (formatClientListInto twoSessions oldText) ∧
      cstr (formatClientListInto twoSessions oldText).result.2 = lit "fd=4,type=user,addr=") ∧
    ListsPrefix 44 twoAddresses 40 (blocklistFormatInto twoAddresses oldText) ∧
      cstr (blocklistFormatInto twoAddresses oldText).result.2 = lit "10.0.0.7" := by
  have hreached : BlocklistReached twoAddresses :=
    .add (.add .init (show 0 ∉ lit "10.0.0.7" by decide) rfl)
      (show 0 ∉ lit "fe80:0000:0000:0000:0202:b3ff:fe1e:8329" by decide) rfl
  obtain ⟨hjobs, hclients, hblocked⟩ := formatters_listPrefix oldText (by decide) (by decide)
  exact ⟨⟨hjobs _ (by simp [twoJobs, JobSlots.full]), by decide +kernel⟩,
    ⟨hclients _ (by decide), by decide +kernel⟩, hblocked _ hreached (by simp [twoAddresses]),
    by decide +kernel⟩

/-! The text in the buffer is the one that the server's model sends. -/

theorem jobTableFormatListInto_text {jobs : List Job} (hcount : jobs.length ≤ maxJobs)
    (hips : ∀ job ∈ jobs, 0 ∉ job.owner_ip) (hsize : 1 ≤ buffer.length)
    (hwidth : buffer.length < 2 ^ 64) :
    cstr (jobTableFormatListInto (.full jobs hcount) buffer).result.2 =
      listText buffer.length jobs := by
  obtain ⟨buffer', hlogs, hholds⟩ := jobTableFormatListInto_holds (.full jobs hcount) hsize hwidth
  have hentries : (JobSlots.full jobs hcount).entries = jobs.map listEntry := by
    have hfull : (jobs.map some).reduceOption = jobs := by simp [List.reduceOption]
    rw [JobSlots.entries, JobSlots.full, hfull]
    exact List.map_congr_left fun job hjob =>
      cstr_of_nul_free (listEntry_control (by decide) (hips job hjob))
  have hlength : (JobSlots.full jobs hcount).jobs.length = jobs.length := List.length_map _
  rw [hlogs.result, hholds.cstr_eq, hentries, hlength, listText]
  simp only [List.length_eq_zero_iff]

theorem formatClientListInto_text {clients : Clients} (hfds : ∀ c ∈ clients.active, 0 ≤ c.fd)
    (haddrs : ∀ c ∈ clients.active, 0 ∉ c.addr_str) (hsize : 1 ≤ buffer.length)
    (hwidth : buffer.length < 2 ^ 64) :
    cstr (formatClientListInto clients buffer).result.2 =
      formatClientList clients buffer.length := by
  obtain ⟨buffer', hlogs, hholds⟩ := formatClientListInto_holds clients hsize hwidth
  have hentries : clients.entries = clients.active.map clientEntry := by
    refine List.map_congr_left fun c hc => ?_
    have hfd : intDecimal c.fd = decimal c.fd.toNat := if_neg (Int.not_lt.mpr (hfds c hc))
    have hitem : clientItem c = clientEntry c := by rw [clientItem, hfd, clientEntry]
    rw [hitem]
    exact cstr_of_nul_free (clientEntry_control (by decide) (haddrs c hc))
  rw [hlogs.result, hholds.cstr_eq, hentries, formatClientList]
  simp only [List.length_eq_zero_iff]
  rfl

theorem blocklistFormatInto_text {ips : List Bytes} (h : BlocklistReached ips)
    (hsize : 1 ≤ buffer.length) (hwidth : buffer.length < 2 ^ 64) :
    cstr (blocklistFormatInto ips buffer).result.2 = blocklistFormat ips buffer.length := by
  obtain ⟨buffer', hlogs, hholds⟩ := blocklistFormatInto_holds h hsize hwidth
  rw [hlogs.result, hholds.cstr_eq]

end

end StegaPng
