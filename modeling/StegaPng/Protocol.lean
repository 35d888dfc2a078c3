import StegaPng.CText
import StegaPng.Net

/-! The text protocol: `protocol_parse_line` and the number syntax it relies on. -/

namespace StegaPng

inductive ProtocolCommand where
  | unknown | ping | quit | submit | status | result | cancel | listjobs | stats
  | validateImage | analyzeCapacity | encodeText | encodeFile | decode | validate | capacity
  | jobMeta | download | listclients | history | kick | blockip | unblockip | avgduration | help
  deriving DecidableEq, Repr

/-- The commands that a body follows. -/
def uploadCommands : List ProtocolCommand :=
  [.encodeText, .encodeFile, .decode, .validate, .capacity]

structure ProtocolRequest where
  command : ProtocolCommand := .unknown
  job_id : UInt64 := 0
  size1 : UInt64 := 0
  size2 : UInt64 := 0
  size3 : UInt64 := 0
  argument1 : Bytes := []
  deriving DecidableEq

/-- `isspace` of the C locale. -/
def isSpace (b : UInt8) : Bool := b == 32 || (9 ≤ b && b ≤ 13)

def isDigit (b : UInt8) : Bool := 48 ≤ b && b ≤ 57

def digitsValue (ds : Bytes) : Nat := ds.foldl (fun n d => 10 * n + (d.toNat - 48)) 0

structure Strtoull where
  value : UInt64
  tail : Bytes
  erange : Bool

/-- `strtoull(s, &tail, 10)`. -/
def strtoull (s : Bytes) : Strtoull :=
  let signed := s.dropWhile isSpace
  let negative := signed.head? = some 45
  let unsigned := if negative ∨ signed.head? = some 43 then signed.tail else signed
  let digits := unsigned.takeWhile isDigit
  if digits = [] then { value := 0, tail := s, erange := false } else
  let tail := unsigned.dropWhile isDigit
  let v := digitsValue digits
  if v ≥ 2 ^ 64 then { value := 0xFFFFFFFFFFFFFFFF, tail := tail, erange := true } else
  { value := if negative then 0 - UInt64.ofNat v else UInt64.ofNat v
    tail := tail
    erange := false }

/-- `parse_u64`: the number and the text after it. -/
def parseU64 (s : Bytes) : Option (UInt64 × Bytes) :=
  let r := strtoull s
  if r.erange ∨ r.tail = s then none else some (r.value, r.tail)

def skipWs (s : Bytes) : Bytes := s.dropWhile fun b => b == 32 || b == 9

def trimNewline (text : Bytes) : Bytes := if text.getLast? = some newline then
    text.dropLast else text

/-- `copy + n` where `starts_with(copy, verb)` matches. -/
def startsWith (copy : Bytes) (verb : String) : Option Bytes :=
  let n := (lit verb).length
  if copy.take n = lit verb then some (copy.drop n) else none

/-- The commands that are a whole line. -/
def parseBareCommand (copy : Bytes) : Option ProtocolCommand :=
  if copy = lit "PING" then some .ping
  else if copy = lit "QUIT" then some .quit
  else if copy = lit "LISTJOBS" then some .listjobs
  else if copy = lit "STATS" then some .stats
  else if copy = lit "LISTCLIENTS" then some .listclients
  else if copy = lit "HISTORY" then some .history
  else if copy = lit "AVGDURATION" then some .avgduration
  else if copy = lit "HELP" then some .help
  else none

def requestWithText (command : ProtocolCommand) (text : Bytes) : ProtocolRequest :=
  { command := command, argument1 := snprintf bufferSize text }

def requestWithId (command : ProtocolCommand) (text : Bytes) : ProtocolRequest :=
  { command := command, job_id := (strtoull text).value }

def requestWithSize (command : ProtocolCommand) (text : Bytes) : ProtocolRequest :=
  { command := command, size1 := (strtoull text).value }

def parseEncodeText (p : Bytes) : ProtocolRequest :=
  match parseU64 p with
  | none => {}
  | some (size1, e) =>
    match parseU64 (skipWs e) with
    | none => { size1 := size1 }
    | some (size2, _) => { command := .encodeText, size1 := size1, size2 := size2 }

def parseEncodeFile (p : Bytes) : ProtocolRequest :=
  match parseU64 p with
  | none => {}
  | some (size1, e) =>
    match parseU64 (skipWs e) with
    | none => { size1 := size1 }
    | some (size2, e') =>
      match parseU64 (skipWs e') with
      | none => { size1 := size1, size2 := size2 }
      | some (size3, _) =>
        { command := .encodeFile, size1 := size1, size2 := size2, size3 := size3 }

/-- The commands with arguments, by their verbs. -/
def parseVerb (copy : Bytes) : ProtocolRequest :=
  if let some p := startsWith copy "SUBMIT " then requestWithText .submit p
  else if let some p := startsWith copy "STATUS " then requestWithId .status p
  else if let some p := startsWith copy "RESULT " then requestWithId .result p
  else if let some p := startsWith copy "CANCEL " then requestWithId .cancel p
  else if let some p := startsWith copy "VALIDATE_IMAGE " then requestWithText .validateImage p
  else if let some p := startsWith copy "ANALYZE_CAPACITY " then requestWithText .analyzeCapacity p
  else if let some p := startsWith copy "ENCODE_TEXT " then parseEncodeText p
  else if let some p := startsWith copy "ENCODE_FILE " then parseEncodeFile p
  else if let some p := startsWith copy "DECODE " then requestWithSize .decode p
  else if let some p := startsWith copy "VALIDATE " then requestWithSize .validate p
  else if let some p := startsWith copy "CAPACITY " then requestWithSize .capacity p
  else if let some p := startsWith copy "META " then requestWithId .jobMeta p
  else if let some p := startsWith copy "DOWNLOAD " then requestWithId .download p
  else if let some p := startsWith copy "KICK " then requestWithText .kick p
  else if let some p := startsWith copy "BLOCKIP " then requestWithText .blockip p
  else if let some p := startsWith copy "UNBLOCKIP " then requestWithText .unblockip p
  else {}

/-- The line may hold any bytes; the parser sees its C string. -/
def protocolParseLine (line : Bytes) : ProtocolRequest :=
  let copy := trimNewline (snprintf bufferSize (cstr line))
  match parseBareCommand copy with
  | some command => { command := command }
  | none => parseVerb copy

/-! Texts without a newline. -/

theorem newline_decimal (n : Nat) : newline ∉ decimal n :=
  fun h => absurd (decimal_digit h).1 (by decide)

theorem newline_append {a b : Bytes} (ha : newline ∉ a) (hb : newline ∉ b) : newline ∉ a ++ b :=
  fun h => (List.mem_append.mp h).elim ha hb

theorem newline_snprintf {text : Bytes} (h : newline ∉ text) (n : Nat) :
    newline ∉ snprintf n text :=
  fun hmem => h (List.mem_of_mem_take hmem)

theorem startsWith_subset {copy p : Bytes} {verb : String} (h : startsWith copy verb = some p) :
    p ⊆ copy := by
  simp only [startsWith, Option.ite_none_right_eq_some, Option.some.injEq] at h
  obtain ⟨-, rfl⟩ := h
  exact List.drop_subset _ _

theorem parseEncodeText_argument (p : Bytes) : (parseEncodeText p).argument1 = [] := by
  unfold parseEncodeText
  split
  · rfl
  · split <;> rfl

theorem parseEncodeFile_argument (p : Bytes) : (parseEncodeFile p).argument1 = [] := by
  unfold parseEncodeFile
  split
  · rfl
  · split
    · rfl
    · split <;> rfl

theorem parseVerb_argument (copy : Bytes) : (parseVerb copy).argument1 ⊆ copy := by
  have htext : ∀ {command : ProtocolCommand} {p : Bytes} {verb : String},
    startsWith copy verb = some p →
      (requestWithText command p).argument1 ⊆ copy := by
    intro command p verb hp
    exact List.Subset.trans (List.take_subset _ _) (startsWith_subset hp)
  have hnone : ∀ {r : ProtocolRequest}, r.argument1 = [] → r.argument1 ⊆ copy := by
    intro r hr
    rw [hr]
    exact List.nil_subset _
  unfold parseVerb
  iterate 16
    split
    · next hp => first
        | exact htext hp
        | exact hnone rfl
        | exact hnone (parseEncodeText_argument _)
        | exact hnone (parseEncodeFile_argument _)
  exact hnone rfl

theorem trimNewline_newline_free {line : Bytes} (h : newline ∉ line.dropLast) (n : Nat) :
    newline ∉ trimNewline (snprintf n (cstr line)) := by
  have hprefix : snprintf n (cstr line) <+: line :=
    (List.take_prefix _ _).trans (List.takeWhile_prefix _)
  generalize snprintf n (cstr line) = text at hprefix
  obtain ⟨rest, rfl⟩ := hprefix
  have htext : newline ∉ text.dropLast := by
    intro hmem
    by_cases hrest : rest = []
    · subst hrest
      rw [List.append_nil] at h
      exact h hmem
    · rw [List.dropLast_append_of_ne_nil hrest] at h
      exact h (List.mem_append_left _ (List.mem_of_mem_dropLast hmem))
  unfold trimNewline
  split
  · exact htext
  · next hlast =>
    intro hmem
    have hne : text ≠ [] := List.ne_nil_of_mem hmem
    have hsplit := List.dropLast_append_getLast hne
    rw [← hsplit, List.mem_append, List.mem_singleton] at hmem
    rcases hmem with hmem | hmem
    · exact htext hmem
    · exact hlast (by rw [List.getLast?_eq_some_getLast hne, ← hmem])

theorem protocolParseLine_argument {line : Bytes} (h : newline ∉ line.dropLast) :
    newline ∉ (protocolParseLine line).argument1 := by
  have htrim := trimNewline_newline_free h bufferSize
  unfold protocolParseLine
  dsimp only
  split
  · exact List.not_mem_nil
  · exact fun hmem => htrim (parseVerb_argument _ hmem)

example : protocolParseLine (lit "ENCODE_FILE 10 3  -1\n") =
    { command := .encodeFile, size1 := 10, size2 := 3, size3 := 0xFFFFFFFFFFFFFFFF } := by
  decide +kernel

end StegaPng
