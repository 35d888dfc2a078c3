import StegaPng.Protocol

/-! The command lines that the shipped clients print, and what the server reads in them. -/

namespace StegaPng

/-- The C programs `client/main.c` and `admin/main.c`, and the Python ones. -/
inductive Shipped where
  | c
  | python

/-- `%lld` of an `off_t`. -/
def signedDecimal (n : UInt64) : Bytes :=
  if n.toNat < 2 ^ 63 then decimal n.toNat else 45 :: decimal (2 ^ 64 - n.toNat)

/-- The size of a file, as the client prints it. -/
def fileSize : Shipped → UInt64 → Bytes
  | .c, n => signedDecimal n
  | .python, n => decimal n.toNat

inductive ClientCommand where
  | status (job_id : UInt64)
  | result (job_id : UInt64)
  | jobMeta (job_id : UInt64)
  | download (job_id : UInt64)
  | cancel (job_id : UInt64)
  | decode (png_size : UInt64)
  | validate (png_size : UInt64)
  | capacity (png_size : UInt64)
  | encodeText (png_size text_len : UInt64)
  | encodeFile (png_size name_len file_size : UInt64)
  | submit (text : Bytes)
  | validateImage (path : Bytes)
  | analyzeCapacity (path : Bytes)
  | kick (fd : Bytes)
  | blockip (ip : Bytes)
  | unblockip (ip : Bytes)

namespace ClientCommand

def verb : ClientCommand → String
  | status _ => "STATUS "
  | result _ => "RESULT "
  | jobMeta _ => "META "
  | download _ => "DOWNLOAD "
  | cancel _ => "CANCEL "
  | decode _ => "DECODE "
  | validate _ => "VALIDATE "
  | capacity _ => "CAPACITY "
  | encodeText .. => "ENCODE_TEXT "
  | encodeFile .. => "ENCODE_FILE "
  | submit _ => "SUBMIT "
  | validateImage _ => "VALIDATE_IMAGE "
  | analyzeCapacity _ => "ANALYZE_CAPACITY "
  | kick _ => "KICK "
  | blockip _ => "BLOCKIP "
  | unblockip _ => "UNBLOCKIP "

def arguments (client : Shipped) : ClientCommand → Bytes
  | status job_id | result job_id | jobMeta job_id | download job_id | cancel job_id =>
    decimal job_id.toNat
  | decode png_size | validate png_size | capacity png_size => fileSize client png_size
  | encodeText png_size text_len => fileSize client png_size ++ 32 :: decimal text_len.toNat
  | encodeFile png_size name_len file_size =>
    fileSize client png_size ++ 32 :: (decimal name_len.toNat ++ 32 :: fileSize client file_size)
  | submit text | validateImage text | analyzeCapacity text | kick text | blockip text | unblockip
      text => text

/-- What the client formats. -/
def text (client : Shipped) (cmd : ClientCommand) : Bytes :=
  lit cmd.verb ++ cmd.arguments client ++ [newline]

/-- The line buffer of the C clients. Free text goes through the one of `do_raw`. -/
def lineBuffer : ClientCommand → Nat
  | status _ | result _ | jobMeta _ | download _ => 64
  | cancel _ => 512
  | decode _ | validate _ | capacity _ => 128
  | encodeText .. | encodeFile .. => 256
  | _ => bufferSize + 2

/-- The line that is sent. -/
def line : Shipped → ClientCommand → Bytes
  | .c, cmd => snprintf cmd.lineBuffer (cmd.text .c)
  | .python, cmd => cmd.text .python

/-- The free text of a command. -/
def freeText : ClientCommand → Option Bytes
  | submit text | validateImage text | analyzeCapacity text | kick text | blockip text | unblockip
      text => some text
  | _ => none

/-- What the server should make of it. -/
def request : ClientCommand → ProtocolRequest
  | status job_id => { command := .status, job_id := job_id }
  | result job_id => { command := .result, job_id := job_id }
  | jobMeta job_id => { command := .jobMeta, job_id := job_id }
  | download job_id => { command := .download, job_id := job_id }
  | cancel job_id => { command := .cancel, job_id := job_id }
  | decode png_size => { command := .decode, size1 := png_size }
  | validate png_size => { command := .validate, size1 := png_size }
  | capacity png_size => { command := .capacity, size1 := png_size }
  | encodeText png_size text_len => { command := .encodeText, size1 := png_size, size2 := text_len }
  | encodeFile png_size name_len file_size =>
    { command := .encodeFile, size1 := png_size, size2 := name_len, size3 := file_size }
  | submit text => { command := .submit, argument1 := text }
  | validateImage path => { command := .validateImage, argument1 := path }
  | analyzeCapacity path => { command := .analyzeCapacity, argument1 := path }
  | kick fd => { command := .kick, argument1 := fd }
  | blockip ip => { command := .blockip, argument1 := ip }
  | unblockip ip => { command := .unblockip, argument1 := ip }

/-- The parser's branch for the verb. -/
def branch : ClientCommand → Bytes → ProtocolRequest
  | status _ => requestWithId .status
  | result _ => requestWithId .result
  | jobMeta _ => requestWithId .jobMeta
  | download _ => requestWithId .download
  | cancel _ => requestWithId .cancel
  | decode _ => requestWithSize .decode
  | validate _ => requestWithSize .validate
  | capacity _ => requestWithSize .capacity
  | encodeText .. => parseEncodeText
  | encodeFile .. => parseEncodeFile
  | submit _ => requestWithText .submit
  | validateImage _ => requestWithText .validateImage
  | analyzeCapacity _ => requestWithText .analyzeCapacity
  | kick _ => requestWithText .kick
  | blockip _ => requestWithText .blockip
  | unblockip _ => requestWithText .unblockip

theorem parseVerb_verb (cmd : ClientCommand) (p : Bytes) :
    parseVerb (lit cmd.verb ++ p) = cmd.branch p := by
  cases cmd <;> simp [verb, branch, parseVerb, startsWith, lit]

end ClientCommand

/-! Numbers that are printed and read. -/

theorem digitsValue_printed {ds : List Nat} (h : ∀ d ∈ ds, d < 10) :
    digitsValue (ds.reverse.map fun d => UInt8.ofNat (48 + d)) = Nat.ofDigits 10 ds := by
  induction ds with
  | nil => rfl
  | cons d ds ih =>
    have hd := h d List.mem_cons_self
    have hds := ih fun e he => h e (List.mem_cons_of_mem _ he)
    have hdigit : (UInt8.ofNat (48 + d)).toNat - 48 = d := by
      rw [UInt8.toNat_ofNat']
      omega
    simp only [digitsValue] at hds
    rw [digitsValue, List.reverse_cons, List.map_append, List.foldl_append, hds, Nat.ofDigits_cons]
    simp only [List.map_cons, List.map_nil, List.foldl_cons, List.foldl_nil, hdigit]
    exact Nat.add_comm _ _

theorem digitsValue_decimal (n : Nat) : digitsValue (decimal n) = n := by
  by_cases hn : n = 0
  · subst hn
    decide
  · rw [decimal, if_neg hn, digitsValue_printed fun d hd => Nat.digits_lt_base (by decide) hd,
      Nat.ofDigits_digits]

theorem isDigit_decimal {n : Nat} {b : UInt8} (h : b ∈ decimal n) : isDigit b = true := by
  obtain ⟨hlow, hhigh⟩ := decimal_digit h
  simp only [isDigit, Bool.and_eq_true, decide_eq_true_eq]
  exact ⟨UInt8.le_iff_toNat_le.mpr hlow, UInt8.le_iff_toNat_le.mpr hhigh⟩

/-- A number ends where no digit follows. -/
def Stops (rest : Bytes) : Prop := ∀ b, rest.head? = some b → isDigit b = false

theorem takeWhile_digits {ds rest : Bytes} (hds : ∀ b ∈ ds, isDigit b = true) (hrest : Stops rest) :
    (ds ++ rest).takeWhile isDigit = ds ∧ (ds ++ rest).dropWhile isDigit = rest := by
  rw [List.takeWhile_append_of_pos hds, List.dropWhile_append_of_pos hds]
  cases rest with
  | nil => exact ⟨List.append_nil _, rfl⟩
  | cons b rest =>
    have hb := hrest b rfl
    rw [List.takeWhile_cons_of_neg (by simp [hb]), List.dropWhile_cons_of_neg (by simp [hb])]
    exact ⟨List.append_nil _, rfl⟩

/-- A spelling of a number: what `strtoull` reads, and what else a line needs of it. -/
structure Numeral (text : Bytes) (n : UInt64) : Prop where
  reads : ∀ rest, Stops rest → strtoull (text ++ rest) =
    { value := n, tail := rest, erange := false }
  starts : ∃ b rest, text = b :: rest ∧ b ≠ 32 ∧ b ≠ 9
  nul_free : 0 ∉ text
  newline_free : newline ∉ text
  short : text.length ≤ 21

theorem nul_decimal (n : Nat) : 0 ∉ decimal n := fun h => absurd (decimal_digit h).1 (by decide)

theorem decimal_cons (n : Nat) : ∃ b rest, decimal n = b :: rest ∧ isDigit b = true := by
  obtain ⟨b, rest, hcons⟩ := List.exists_cons_of_ne_nil (decimal_ne_nil n)
  exact ⟨b, rest, hcons, isDigit_decimal (hcons ▸ List.mem_cons_self)⟩

theorem digit_ne {b : UInt8} (h : isDigit b = true) : b ≠ 32 ∧ b ≠ 9 ∧ b ≠ 45 ∧ b ≠ 43 ∧
    isSpace b = false := by
  have hne : ∀ c : UInt8, isDigit c = false → b ≠ c := by
    intro c hc heq
    rw [heq, hc] at h
    cases h
  refine ⟨hne 32 rfl, hne 9 rfl, hne 45 rfl, hne 43 rfl, ?_⟩
  simp only [isDigit, Bool.and_eq_true, decide_eq_true_eq, UInt8.le_iff_toNat_le] at h
  have hlow : ¬ b ≤ 13 := fun hle => absurd (h.1.trans (UInt8.le_iff_toNat_le.mp hle)) (by decide)
  simp [isSpace, hne 32 rfl, hlow]

theorem numeral_decimal (n : UInt64) : Numeral (decimal n.toNat) n := by
  obtain ⟨b, tail, hcons, hb⟩ := decimal_cons n.toNat
  have hnot := digit_ne hb
  refine ⟨fun rest hrest => ?_, ⟨b, tail, hcons, hnot.1, hnot.2.1⟩, nul_decimal _,
    newline_decimal _, ?_⟩
  · obtain ⟨htake, hdrop⟩ := takeWhile_digits (fun c => isDigit_decimal (n := n.toNat)) hrest
    have hspace : (decimal n.toNat ++ rest).dropWhile isSpace = decimal n.toNat ++ rest := by
      rw [hcons, List.cons_append, List.dropWhile_cons_of_neg (by simp [hnot])]
    have hhead : (decimal n.toNat ++ rest).head? = some b := by rw [hcons]; rfl
    have hsmall : ¬ n.toNat ≥ 2 ^ 64 := Nat.not_le_of_lt n.toNat_lt
    simp only [strtoull, hspace, hhead, Option.some.injEq, hnot, or_self, if_false, htake, hdrop,
      decimal_ne_nil, digitsValue_decimal, hsmall, UInt64.ofNat_toNat]
  · exact (decimal_small n.toNat_lt).trans (by decide)

/-- `strtoull` takes a minus sign, and negates modulo `2 ^ 64`. -/
theorem numeral_negative {n : UInt64} (hn : 0 < n.toNat) :
    Numeral (45 :: decimal (2 ^ 64 - n.toNat)) n := by
  have hsmall : 2 ^ 64 - n.toNat < 2 ^ 64 := by omega
  refine ⟨fun rest hrest => ?_, ⟨45, _, rfl, by decide, by decide⟩, ?_, ?_, ?_⟩
  · obtain ⟨htake, hdrop⟩ :=
      takeWhile_digits (fun c => isDigit_decimal (n := 2 ^ 64 - n.toNat)) hrest
    have hspace : ∀ text : Bytes, (45 :: text).dropWhile isSpace = 45 :: text :=
      fun text => List.dropWhile_cons_of_neg (by decide)
    have hvalue : 0 - UInt64.ofNat (2 ^ 64 - n.toNat) = n := by
      apply UInt64.toNat_inj.mp
      rw [UInt64.toNat_sub, UInt64.toNat_ofNat_of_lt' hsmall]
      have := n.toNat_lt
      change (2 ^ 64 - (2 ^ 64 - n.toNat) + 0) % 2 ^ 64 = n.toNat
      omega
    have hfits : ¬ 2 ^ 64 - n.toNat ≥ 2 ^ 64 := Nat.not_le_of_lt hsmall
    simp only [strtoull, List.cons_append, hspace, List.head?_cons, List.tail_cons, true_or,
      if_true, htake, hdrop, decimal_ne_nil, if_false, digitsValue_decimal, hfits, hvalue]
  · exact fun h => (List.mem_cons.mp h).elim (fun h => absurd h (by decide)) (nul_decimal _)
  · exact fun h => (List.mem_cons.mp h).elim (fun h => absurd h (by decide)) (newline_decimal _)
  · exact Nat.succ_le_succ (decimal_small hsmall)

theorem numeral_fileSize (client : Shipped) (n : UInt64) : Numeral (fileSize client n) n := by
  cases client with
  | python => exact numeral_decimal n
  | c =>
    rw [fileSize, signedDecimal]
    split
    · exact numeral_decimal n
    · exact numeral_negative (by omega)

theorem stops_nil : Stops [] := fun _ h => nomatch h

theorem stops_blank (rest : Bytes) : Stops (32 :: rest) := by
  intro b h
  obtain rfl := Option.some.inj h
  decide

section

variable {text rest : Bytes} {n : UInt64}

theorem Numeral.value (h : Numeral text n) : (strtoull text).value = n := by
  have hreads := h.reads [] stops_nil
  rw [List.append_nil] at hreads
  rw [hreads]

theorem Numeral.parseU64 (h : Numeral text n) (hrest : Stops rest) :
    parseU64 (text ++ rest) = some (n, rest) := by
  obtain ⟨b, tail, htext, -⟩ := h.starts
  have hlonger : rest ≠ text ++ rest := by
    intro heq
    have hlength := congrArg List.length heq
    rw [htext, List.length_append, List.length_cons] at hlength
    omega
  rw [StegaPng.parseU64, h.reads rest hrest, if_neg (by simp [hlonger])]

theorem Numeral.skipWs (h : Numeral text n) : skipWs (32 :: (text ++ rest)) = text ++ rest := by
  obtain ⟨b, tail, rfl, hblank, htab⟩ := h.starts
  rw [StegaPng.skipWs, List.dropWhile_cons_of_pos (by decide), List.cons_append,
    List.dropWhile_cons_of_neg (by simp [hblank, htab])]

end

theorem parseEncodeText_printed {a b : Bytes} {m n : UInt64} (ha : Numeral a m) (hb : Numeral b n) :
    parseEncodeText (a ++ 32 :: b) = { command := .encodeText, size1 := m, size2 := n } := by
  have hsecond : parseU64 (skipWs (32 :: b)) = some (n, []) := by
    have hskip : skipWs (32 :: (b ++ [])) = b ++ [] := hb.skipWs
    have hparse := hb.parseU64 stops_nil
    rw [List.append_nil] at hskip hparse
    rw [hskip, hparse]
  simp only [parseEncodeText, ha.parseU64 (stops_blank b), hsecond]

theorem parseEncodeFile_printed {a b c : Bytes} {l m n : UInt64} (ha : Numeral a l)
    (hb : Numeral b m) (hc : Numeral c n) :
    parseEncodeFile (a ++ 32 :: (b ++ 32 :: c)) =
      { command := .encodeFile, size1 := l, size2 := m, size3 := n } := by
  have hthird : parseU64 (skipWs (32 :: c)) = some (n, []) := by
    have hskip : skipWs (32 :: (c ++ [])) = c ++ [] := hc.skipWs
    have hparse := hc.parseU64 stops_nil
    rw [List.append_nil] at hskip hparse
    rw [hskip, hparse]
  simp only [parseEncodeFile, ha.parseU64 (stops_blank _), hb.skipWs,
    hb.parseU64 (stops_blank c), hthird]

/-! Lines. -/

theorem parseBareCommand_blank {copy : Bytes} (h : 32 ∈ copy) : parseBareCommand copy = none := by
  have hne : ∀ {s : String}, 32 ∉ lit s → copy ≠ lit s := fun hs heq => hs (heq ▸ h)
  simp only [parseBareCommand, hne (s := "PING") (by decide), hne (s := "QUIT") (by decide),
    hne (s := "LISTJOBS") (by decide), hne (s := "STATS") (by decide),
      hne (s := "LISTCLIENTS") (by decide),
    hne (s := "HISTORY") (by decide), hne (s := "AVGDURATION") (by decide),
      hne (s := "HELP") (by decide), if_false]

/-- The newline at the end is cut off: by `trim_newline`, or where the copy ends. -/
theorem copy_newline {copy : Bytes} (hnul : 0 ∉ copy) (hnewline : newline ∉ copy)
    (hlength : copy.length < bufferSize) :
    trimNewline (snprintf bufferSize (cstr (copy ++ [newline]))) = copy := by
  have hline : 0 ∉ copy ++ [newline] := by
    rw [List.mem_append, not_or]
    exact ⟨hnul, by decide⟩
  rw [cstr_of_nul_free hline]
  rcases Nat.lt_or_ge (copy.length + 1) bufferSize with hlt | hge
  · rw [snprintf_eq (by simpa using hlt), trimNewline, List.getLast?_concat, if_pos rfl,
      List.dropLast_concat]
  · have hcut : snprintf bufferSize (copy ++ [newline]) = copy := by
      rw [snprintf, List.take_append_of_le_length (by omega), List.take_of_length_le (by omega)]
    rw [hcut, trimNewline, if_neg fun hlast => hnewline (List.mem_of_getLast? hlast)]

namespace ClientCommand

/-- Free text is a C string without a newline, and the line fits the server's buffer. -/
def Printable (client : Shipped) (cmd : ClientCommand) : Prop :=
  ∀ text, cmd.freeText = some text → 0 ∉ text ∧ newline ∉ text ∧
    (lit cmd.verb ++ cmd.arguments client).length < bufferSize

theorem plain_verb (cmd : ClientCommand) : 0 ∉ lit cmd.verb ∧ newline ∉ lit cmd.verb ∧
    32 ∈ lit cmd.verb ∧
    (lit cmd.verb).length ≤ 17 := by
  cases cmd <;> simp [verb, lit, newline]

theorem arguments_freeText {client : Shipped} {cmd : ClientCommand} {text : Bytes}
    (h : cmd.freeText = some text) :
    cmd.arguments client = text := by
  cases cmd <;> simp only [freeText, Option.some.injEq, reduceCtorEq] at h <;> exact h

/-- Where only numbers are printed. -/
structure Fits (client : Shipped) (cmd : ClientCommand) : Prop where
  nul_free : 0 ∉ cmd.arguments client
  newline_free : newline ∉ cmd.arguments client
  length : (cmd.text client).length < cmd.lineBuffer
  buffer : cmd.lineBuffer ≤ bufferSize

theorem lineBuffer_numbers {cmd : ClientCommand} (h : cmd.freeText = none) :
    64 ≤ cmd.lineBuffer ∧ cmd.lineBuffer ≤ bufferSize := by
  cases cmd <;> simp only [freeText, reduceCtorEq] at h <;>
    simp only [lineBuffer, bufferSize] <;> omega

theorem fits_of_numeral {client : Shipped} {cmd : ClientCommand} {n : UInt64}
    (h : Numeral (cmd.arguments client) n) (hfree : cmd.freeText = none) : cmd.Fits client where
  nul_free := h.nul_free
  newline_free := h.newline_free
  length := by
    have hshort := h.short
    have hverb := cmd.plain_verb.2.2.2
    have hbuffer := (lineBuffer_numbers hfree).1
    rw [text, List.length_append, List.length_append, List.length_singleton]
    omega
  buffer := (lineBuffer_numbers hfree).2

theorem fits_of_numbers {client : Shipped} {cmd : ClientCommand} (h : cmd.freeText = none) :
    cmd.Fits client := by
  have hblank : ∀ {b : UInt8} {x y : Bytes}, b ≠ 32 → b ∉ x → b ∉ y → b ∉ x ++ 32 :: y := by
    intro b x y hb hx hy hmem
    rcases List.mem_append.mp hmem with hmem | hmem
    · exact hx hmem
    · exact (List.mem_cons.mp hmem).elim hb hy
  cases cmd with
  | status job_id => exact fits_of_numeral (numeral_decimal job_id) rfl
  | result job_id => exact fits_of_numeral (numeral_decimal job_id) rfl
  | jobMeta job_id => exact fits_of_numeral (numeral_decimal job_id) rfl
  | download job_id => exact fits_of_numeral (numeral_decimal job_id) rfl
  | cancel job_id => exact fits_of_numeral (numeral_decimal job_id) rfl
  | decode png_size => exact fits_of_numeral (numeral_fileSize client png_size) rfl
  | validate png_size => exact fits_of_numeral (numeral_fileSize client png_size) rfl
  | capacity png_size => exact fits_of_numeral (numeral_fileSize client png_size) rfl
  | encodeText png_size text_len =>
    have hpng := numeral_fileSize client png_size
    have htext := numeral_decimal text_len
    have hverb := (encodeText png_size text_len).plain_verb.2.2.2
    refine ⟨hblank (by decide) hpng.nul_free htext.nul_free,
      hblank (by decide) hpng.newline_free htext.newline_free,
      ?_, (lineBuffer_numbers h).2⟩
    have hlengths := And.intro hpng.short htext.short
    simp only [text, arguments, lineBuffer, List.length_append, List.length_cons, List.length_nil]
    omega
  | encodeFile png_size name_len file_size =>
    have hpng := numeral_fileSize client png_size
    have hname := numeral_decimal name_len
    have hfile := numeral_fileSize client file_size
    have hverb := (encodeFile png_size name_len file_size).plain_verb.2.2.2
    refine ⟨hblank (by decide) hpng.nul_free (hblank (by decide) hname.nul_free hfile.nul_free),
      hblank (by decide) hpng.newline_free
        (hblank (by decide) hname.newline_free hfile.newline_free), ?_,
      (lineBuffer_numbers h).2⟩
    have hlengths := And.intro hpng.short (And.intro hname.short hfile.short)
    simp only [text, arguments, lineBuffer, List.length_append, List.length_cons, List.length_nil]
    omega
  | _ => cases h

theorem plain_arguments {client : Shipped} {cmd : ClientCommand} (h : cmd.Printable client) :
    0 ∉ cmd.arguments client ∧ newline ∉ cmd.arguments client ∧
      (lit cmd.verb ++ cmd.arguments client).length < bufferSize := by
  cases hfree : cmd.freeText with
  | none =>
    have hfits : cmd.Fits client := fits_of_numbers hfree
    have hlength := hfits.length.trans_le hfits.buffer
    rw [text, List.length_append] at hlength
    exact ⟨hfits.nul_free, hfits.newline_free, by omega⟩
  | some text =>
    obtain ⟨hnul, hnewline, hlength⟩ := h text hfree
    have hsame : cmd.arguments client = text := arguments_freeText hfree
    exact ⟨hsame ▸ hnul, hsame ▸ hnewline, hlength⟩

theorem lineBuffer_freeText {cmd : ClientCommand} {text : Bytes} (h : cmd.freeText = some text) :
    cmd.lineBuffer = bufferSize + 2 := by
  cases cmd <;> first | rfl | cases h

/-- No buffer of a client cuts a line short. -/
theorem line_eq {client : Shipped} {cmd : ClientCommand} (h : cmd.Printable client) :
    cmd.line client = cmd.text client := by
  cases client with
  | python => rfl
  | c =>
    refine snprintf_eq ?_
    cases hfree : cmd.freeText with
    | none => exact (fits_of_numbers hfree).length
    | some text =>
      have hlength := (plain_arguments h).2.2
      rw [lineBuffer_freeText hfree, ClientCommand.text, List.length_append, List.length_singleton]
      omega

theorem branch_arguments {client : Shipped} {cmd : ClientCommand} (h : cmd.Printable client) :
    cmd.branch (cmd.arguments client) = cmd.request := by
  have hid : ∀ (command : ProtocolCommand) (n : UInt64),
      requestWithId command (decimal n.toNat) = { command := command, job_id := n } := by
    intro command n
    rw [requestWithId, (numeral_decimal n).value]
  have hsize : ∀ (command : ProtocolCommand) (n : UInt64),
      requestWithSize command (fileSize client n) = { command := command, size1 := n } := by
    intro command n
    rw [requestWithSize, (numeral_fileSize client n).value]
  have htext : ∀ (command : ProtocolCommand) (text : Bytes), cmd.freeText = some text →
      requestWithText command text = { command := command, argument1 := text } := by
    intro command text hfree
    have hlength := (plain_arguments h).2.2
    rw [arguments_freeText hfree, List.length_append] at hlength
    rw [requestWithText, snprintf_eq (by omega)]
  cases cmd with
  | status job_id => exact hid _ _
  | result job_id => exact hid _ _
  | jobMeta job_id => exact hid _ _
  | download job_id => exact hid _ _
  | cancel job_id => exact hid _ _
  | decode png_size => exact hsize _ _
  | validate png_size => exact hsize _ _
  | capacity png_size => exact hsize _ _
  | encodeText png_size text_len =>
    exact parseEncodeText_printed (numeral_fileSize client png_size) (numeral_decimal text_len)
  | encodeFile png_size name_len file_size =>
    exact parseEncodeFile_printed (numeral_fileSize client png_size) (numeral_decimal name_len)
      (numeral_fileSize client file_size)
  | _ text => exact htext _ text rfl

theorem protocolParseLine_text {client : Shipped} {cmd : ClientCommand} (h : cmd.Printable client) :
    protocolParseLine (cmd.text client) = cmd.request := by
  obtain ⟨hnul, hnewline, hblank, -⟩ := cmd.plain_verb
  obtain ⟨hnul', hnewline', hlength⟩ := plain_arguments h
  have hcopy := copy_newline (fun hmem => (List.mem_append.mp hmem).elim hnul hnul')
    (newline_append hnewline hnewline')
    hlength
  rw [protocolParseLine, text, hcopy, parseBareCommand_blank (List.mem_append_left _ hblank),
    parseVerb_verb, branch_arguments h]

end ClientCommand

/-- The server reads in a printed line what the client meant. -/
theorem protocolParseLine_client (client : Shipped) (cmd : ClientCommand)
    (h : cmd.Printable client) :
    protocolParseLine (cmd.line client) = cmd.request := by
  rw [ClientCommand.line_eq h, ClientCommand.protocolParseLine_text h]

theorem protocolParseLine_client_kick :
    protocolParseLine ((ClientCommand.kick (lit "7")).line .c) =
      { command := .kick, argument1 := lit "7" } := by
  refine protocolParseLine_client .c (.kick (lit "7")) fun text htext => ?_
  obtain rfl := Option.some.inj htext
  decide

end StegaPng
