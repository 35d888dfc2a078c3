import Mathlib.Data.List.TakeWhile
import StegaPng.ClientLines

/-! The numbers in command lines: what the parser takes for one, and what it should. -/

namespace StegaPng

/-- The text is an unsigned decimal number below `2 ^ 64`. -/
structure IsNumber (text : Bytes) (v : UInt64) : Prop where
  ne_nil : text ≠ []
  digits : ∀ b ∈ text, isDigit b = true
  value : digitsValue text = v.toNat

def Blank (text : Bytes) : Prop := ∀ b ∈ text, (b == 32 || b == 9) = true

/-- Numbers with blanks between them, and nothing else. -/
inductive Numbers : List UInt64 → Bytes → Prop
  | last {v : UInt64} {number : Bytes} (h : IsNumber number v) : Numbers [v] number
  | next {v : UInt64} {vs : List UInt64} {number blanks rest : Bytes} (h : IsNumber number v)
      (hne : blanks ≠ [])
      (hblank : Blank blanks) (hrest : Numbers vs rest) :
      Numbers (v :: vs) (number ++ (blanks ++ rest))

/-- As many calls of `parse_u64`, with blanks skipped between them. -/
def scanNumbers : Nat → Bytes → Option (List UInt64)
  | 0, _ => some []
  | n + 1, p =>
    match parseU64 p with
    | none => none
    | some (v, e) => (scanNumbers n (skipWs e)).map (v :: ·)

/-- The text begins with digits, behind white space and a sign, neither of which has to be
there; the rest does not go on with a digit. -/
structure Digits (digits rest text : Bytes) : Prop where
  behind : ∃ spaces sign, (∀ b ∈ spaces, isSpace b = true) ∧
    (sign = [] ∨ sign = [45] ∨ sign = [43]) ∧ text = spaces ++ (sign ++ (digits ++ rest))
  ne_nil : digits ≠ []
  digits : ∀ b ∈ digits, isDigit b = true
  ends : Stops rest

/-- The text does not begin with `n` numbers one behind the other: there are no digits where
the next would have to stand, or they denote `2 ^ 64` or more. -/
inductive LacksNumbers : Nat → Bytes → Prop
  | missing {n : Nat} {text : Bytes} (h : ∀ digits rest, ¬ Digits digits rest text) :
      LacksNumbers (n + 1) text
  | large {n : Nat} {digits rest text : Bytes} (h : Digits digits rest text)
      (hlarge : 2 ^ 64 ≤ digitsValue digits) : LacksNumbers (n + 1) text
  | later {n : Nat} {digits rest text : Bytes} (h : Digits digits rest text)
      (hrest : LacksNumbers n rest) : LacksNumbers (n + 1) text

/-- A command whose line carries numbers: its verb, and the fields that they go to. -/
structure NumericForm where
  verb : String
  command : ProtocolCommand
  fields : ProtocolRequest → List UInt64

namespace NumericForm

def uploads : List NumericForm :=
  [⟨"ENCODE_TEXT ", .encodeText, fun r => [r.size1, r.size2]⟩,
    ⟨"ENCODE_FILE ", .encodeFile, fun r => [r.size1, r.size2, r.size3]⟩]

def pngs : List NumericForm :=
  [⟨"DECODE ", .decode, fun r => [r.size1]⟩, ⟨"VALIDATE ", .validate, fun r => [r.size1]⟩,
    ⟨"CAPACITY ", .capacity, fun r => [r.size1]⟩]

def jobs : List NumericForm :=
  [⟨"STATUS ", .status, fun r => [r.job_id]⟩, ⟨"RESULT ", .result, fun r => [r.job_id]⟩,
    ⟨"META ", .jobMeta, fun r => [r.job_id]⟩, ⟨"DOWNLOAD ", .download, fun r => [r.job_id]⟩,
    ⟨"CANCEL ", .cancel, fun r => [r.job_id]⟩]

def all : List NumericForm := uploads ++ (pngs ++ jobs)

/-- How many numbers the command takes. -/
def count (form : NumericForm) : Nat := (form.fields {}).length

/-- What follows the verb in a line that starts with it. -/
def arguments (form : NumericForm) (line : Bytes) : Bytes := line.drop (lit form.verb).length

/-- The numbers that the parser reads: where there are several it checks each. -/
def read (form : NumericForm) (p : Bytes) : Option (List UInt64) :=
  if form.count = 1 then some [(strtoull p).value] else scanNumbers form.count p

end NumericForm

/-- The line without its newline. -/
def wholeLine (line : Bytes) : Bytes := trimNewline (cstr line)

/-- What the parser's copy of the line holds. -/
def copiedLine (line : Bytes) : Bytes := trimNewline (snprintf bufferSize (cstr line))

/-- A command with numbers is read only from its verb and as many numbers, and any other line
with the verb is not understood. -/
structure StrictlyParsed (line : Bytes) : Prop where
  only : ∀ form ∈ NumericForm.all, (protocolParseLine line).command = form.command →
    lit form.verb <+: wholeLine line ∧
      Numbers (form.fields (protocolParseLine line)) (form.arguments (wholeLine line))
  others : ∀ form ∈ NumericForm.all, lit form.verb <+: wholeLine line →
    (∀ ns, ns.length = form.count → ¬ Numbers ns (form.arguments (wholeLine line))) →
    (protocolParseLine line).command = .unknown

/-- Behind such a verb stand the numbers, in the whole line and in the copy, or else the
verb takes several numbers and the copy does not begin with as many. -/
def Unmistakable (line : Bytes) : Prop :=
  ∀ form ∈ NumericForm.all, lit form.verb <+: wholeLine line →
    (∃ ns, ns.length = form.count ∧ Numbers ns (form.arguments (wholeLine line)) ∧
      Numbers ns (form.arguments (copiedLine line))) ∨
    form.count ≠ 1 ∧ LacksNumbers form.count (form.arguments (copiedLine line))

/-! Numbers and scans. -/

theorem digitsValue_append (a b : Bytes) : digitsValue (a ++ b) =
    b.foldl (fun n d => 10 * n + (d.toNat - 48)) (digitsValue a) :=
  List.foldl_append

theorem digitsValue_le_append (a b : Bytes) : digitsValue a ≤ digitsValue (a ++ b) := by
  rw [digitsValue_append]
  generalize digitsValue a = n
  induction b generalizing n with
  | nil => exact Nat.le_refl n
  | cons d b ih =>
    have hstep : n ≤ 10 * n + (d.toNat - 48) := by omega
    exact hstep.trans (ih _)

section

variable {text rest p : Bytes} {v w : UInt64} {vs ns ms : List UInt64}

theorem IsNumber.unique (h : IsNumber text v) (h' : IsNumber text w) : v = w :=
  UInt64.toNat_inj.mp (h.value.symm.trans h'.value)

theorem IsNumber.head (h : IsNumber text v) : ∃ b tail, text = b :: tail ∧ isDigit b = true := by
  obtain ⟨b, tail, rfl⟩ := List.exists_cons_of_ne_nil h.ne_nil
  exact ⟨b, tail, rfl, h.digits b List.mem_cons_self⟩

theorem IsNumber.cut (h : IsNumber text v) (hp : p <+: text) (hne : p ≠ []) :
    ∃ w, IsNumber p w := by
  obtain ⟨rest, rfl⟩ := hp
  have hle : digitsValue p ≤ v.toNat := h.value ▸ digitsValue_le_append p rest
  refine ⟨UInt64.ofNat (digitsValue p), hne, fun b hb => h.digits b (List.mem_append_left _ hb), ?_⟩
  rw [UInt64.toNat_ofNat_of_lt' (Nat.lt_of_le_of_lt hle v.toNat_lt)]

/-- `strtoull` reads a number up to where it ends. -/
theorem IsNumber.reads (h : IsNumber text v) (hrest : Stops rest) :
    strtoull (text ++ rest) = { value := v, tail := rest, erange := false } := by
  obtain ⟨b, tail, hcons, hb⟩ := h.head
  have hnot := digit_ne hb
  obtain ⟨htake, hdrop⟩ := takeWhile_digits h.digits hrest
  have hspace : (text ++ rest).dropWhile isSpace = text ++ rest := by
    rw [hcons, List.cons_append, List.dropWhile_cons_of_neg (by simp [hnot])]
  have hhead : (text ++ rest).head? = some b := by rw [hcons]; rfl
  have hsmall : ¬ v.toNat ≥ 2 ^ 64 := Nat.not_le_of_lt v.toNat_lt
  simp only [strtoull, hspace, hhead, Option.some.injEq, hnot, or_self, if_false, htake, hdrop,
    h.ne_nil, h.value, hsmall, UInt64.ofNat_toNat]

theorem IsNumber.strtoull_value (h : IsNumber text v) : (strtoull text).value = v := by
  have hreads := h.reads stops_nil
  rw [List.append_nil] at hreads
  rw [hreads]

theorem IsNumber.parseU64 (h : IsNumber text v) (hrest : Stops rest) :
    parseU64 (text ++ rest) = some (v, rest) := by
  have hlonger : rest ≠ text ++ rest := by
    intro heq
    have hlength := congrArg List.length heq
    have hpos := List.length_pos_iff.mpr h.ne_nil
    rw [List.length_append] at hlength
    omega
  rw [StegaPng.parseU64, h.reads hrest, if_neg (by simp [hlonger])]

theorem Numbers.head (h : Numbers ns text) : ∃ b tail, text = b :: tail ∧ isDigit b = true := by
  cases h with
  | last h => exact h.head
  | next h _ _ _ =>
    obtain ⟨b, tail, rfl, hb⟩ := h.head
    exact ⟨b, _, rfl, hb⟩

theorem Blank.stops (h : Blank text) (hne : text ≠ []) : Stops (text ++ rest) := by
  obtain ⟨b, tail, rfl⟩ := List.exists_cons_of_ne_nil hne
  intro c hc
  obtain rfl := Option.some.inj hc
  have hb := h b List.mem_cons_self
  simp only [Bool.or_eq_true, beq_iff_eq] at hb
  rcases hb with rfl | rfl <;> rfl

theorem Blank.skipWs (h : Blank text) : skipWs (text ++ rest) = skipWs rest :=
  List.dropWhile_append_of_pos h

theorem skipWs_digit {b : UInt8} {tail : Bytes} (hb : isDigit b = true) :
    skipWs (b :: tail) = b :: tail := by
  have hnot := digit_ne hb
  exact List.dropWhile_cons_of_neg (by simp [hnot])

theorem Numbers.scan (h : Numbers ns text) : scanNumbers ns.length text = some ns := by
  induction h with
  | last h =>
    have hparse := h.parseU64 stops_nil
    rw [List.append_nil] at hparse
    simp only [List.length_singleton, scanNumbers, hparse, Option.map_some]
  | next h hne hblank hrest ih =>
    obtain ⟨b, tail, hcons, hb⟩ := hrest.head
    rw [List.length_cons, scanNumbers, h.parseU64 (hblank.stops hne)]
    simp only [hblank.skipWs]
    rw [hcons, skipWs_digit hb, ← hcons, ih, Option.map_some]

theorem Numbers.newline_free (h : Numbers ns text) : newline ∉ text := by
  have hnumber : ∀ {number : Bytes} {v : UInt64}, IsNumber number v → newline ∉ number :=
    fun h hmem => absurd (h.digits _ hmem) (by decide)
  induction h with
  | last h => exact hnumber h
  | next h _ hblank _ ih =>
    exact newline_append (hnumber h) (newline_append (fun hmem =>
      absurd (hblank _ hmem) (by decide)) ih)

theorem Numbers.ne_nil (h : Numbers ns text) : text ≠ [] := by
  obtain ⟨b, tail, rfl, -⟩ := h.head
  exact List.cons_ne_nil _ _

theorem Numbers.length_pos (h : Numbers ns text) : 0 < ns.length := by
  cases h <;> exact Nat.succ_pos _

theorem Numbers.single (h : Numbers ns text) (hone : ns.length = 1) : ∃ v, ns = [v] ∧
    IsNumber text v := by
  cases h with
  | last h => exact ⟨_, rfl, h⟩
  | next _ _ _ hrest =>
    have hmore := hrest.length_pos
    rw [List.length_cons] at hone
    omega

end

theorem prefix_append_cases {α : Type} {p a b : List α} (h : p <+: a ++ b) :
    p <+: a ∨ ∃ q, p = a ++ q ∧ q <+: b := by
  obtain ⟨rest, hrest⟩ := h
  rcases List.append_eq_append_iff.mp hrest with ⟨c, ha, -⟩ | ⟨q, hp, hb⟩
  · exact .inl ⟨c, ha.symm⟩
  · exact .inr ⟨q, hp, ⟨rest, hb.symm⟩⟩

theorem scanNumbers_nil {n : Nat} (hn : 0 < n) : scanNumbers n [] = none := by
  cases n with
  | zero => exact absurd hn (Nat.lt_irrefl 0)
  | succ n => rfl

/-- The beginning of a number can only be scanned as one number. -/
theorem IsNumber.scan_cut {v : UInt64} {ms : List UInt64} {number p : Bytes} {n : Nat}
    (h : IsNumber number v) (hp : p <+: number) (hscan : scanNumbers (n + 1) p = some ms) :
    n = 0 ∧ Numbers ms p := by
  have hne : p ≠ [] := by
    rintro rfl
    cases hscan
  obtain ⟨w, hw⟩ := h.cut hp hne
  have hparse := hw.parseU64 stops_nil
  rw [List.append_nil] at hparse
  rw [scanNumbers, hparse] at hscan
  cases n with
  | zero =>
    obtain rfl := Option.some.inj hscan
    exact ⟨rfl, .last hw⟩
  | succ n => cases hscan

theorem skipWs_blank {text : Bytes} (h : Blank text) : skipWs text = [] := by
  have hskip : skipWs (text ++ []) = skipWs [] := h.skipWs
  rwa [List.append_nil] at hskip

/-- A scan of the beginning of a list of numbers that finds as many has found numbers. -/
theorem Numbers.scan_cut {ns ms : List UInt64} {text p : Bytes} (h : Numbers ns text)
    (hp : p <+: text) (hscan : scanNumbers ns.length p = some ms) : Numbers ms p := by
  induction h generalizing p ms with
  | last h => exact (h.scan_cut hp hscan).2
  | @next v vs number blanks rest h hblanks hblank hrest ih =>
    have hmore := hrest.length_pos
    have hend : ∀ {q : Bytes}, Stops q → skipWs q = [] →
      scanNumbers (vs.length + 1) (number ++ q) ≠ some ms := by
      intro q hstops hskip
      rw [scanNumbers, h.parseU64 hstops]
      simp only [hskip, scanNumbers_nil hmore]
      exact nofun
    rcases prefix_append_cases hp with hp | ⟨q, rfl, hq⟩
    · have hzero := (h.scan_cut hp hscan).1
      omega
    · by_cases hq₀ : q = []
      · subst hq₀
        exact absurd hscan (hend stops_nil rfl)
      have hstops : Stops q := by
        obtain ⟨b, tail, rfl⟩ := List.exists_cons_of_ne_nil hq₀
        obtain ⟨after, hafter⟩ := hq
        have hblanks : Stops (blanks ++ rest) := hblank.stops hblanks
        rw [← hafter] at hblanks
        exact fun c hc => hblanks c hc
      rcases prefix_append_cases hq with hq | ⟨r, rfl, hr⟩
      · have hskip : skipWs q = [] := skipWs_blank fun b hb => hblank b (hq.subset hb)
        exact absurd hscan (hend hstops hskip)
      · by_cases hr₀ : r = []
        · subst hr₀
          exact absurd hscan (hend hstops (by rw [hblank.skipWs]; rfl))
        · have hskip : skipWs (blanks ++ r) = r := by
            obtain ⟨b, tail, hcons, hb⟩ := hrest.head
            obtain ⟨c, tail', rfl⟩ := List.exists_cons_of_ne_nil hr₀
            rw [hcons] at hr
            rw [hblank.skipWs, skipWs_digit ((List.cons_prefix_cons.mp hr).1 ▸ hb)]
          rw [List.length_cons, scanNumbers, h.parseU64 hstops] at hscan
          simp only [hskip] at hscan
          obtain ⟨found, hfound, rfl⟩ := Option.map_eq_some_iff.mp hscan
          exact .next h hblanks hblank (ih hr hfound)

/-! Scans that fail. -/

section

variable {digits digits' rest rest' text : Bytes}

/-- `strtoull` stops behind the digits, and finds out when they denote too much. -/
theorem Digits.strtoull (h : Digits digits rest text) :
    (strtoull text).tail = rest ∧
      ((strtoull text).erange = true ↔ 2 ^ 64 ≤ digitsValue digits) := by
  obtain ⟨⟨spaces, sign, hspaces, hsign, htext⟩, hne, hdigits, hends⟩ := h
  obtain ⟨htake, hdrop⟩ := takeWhile_digits hdigits hends
  obtain ⟨b, tail, hcons⟩ := List.exists_cons_of_ne_nil hne
  have hnot := digit_ne (hdigits b (hcons ▸ List.mem_cons_self))
  have hsigned : text.dropWhile isSpace = sign ++ (digits ++ rest) := by
    rw [htext, List.dropWhile_append_of_pos hspaces]
    rcases hsign with rfl | rfl | rfl
    · rw [hcons]
      exact List.dropWhile_cons_of_neg (by simp [hnot])
    · exact List.dropWhile_cons_of_neg (by decide)
    · exact List.dropWhile_cons_of_neg (by decide)
  have hunsigned : (if (sign ++ (digits ++ rest)).head? = some 45 ∨
      (sign ++ (digits ++ rest)).head? = some 43 then (sign ++ (digits ++ rest)).tail
      else sign ++ (digits ++ rest)) = digits ++ rest := by
    rcases hsign with rfl | rfl | rfl
    · rw [hcons]
      exact if_neg (by simp [hnot])
    · exact if_pos (.inl rfl)
    · exact if_pos (.inr rfl)
  simp only [StegaPng.strtoull, hsigned, hunsigned, htake, hdrop, hne, if_false]
  split
  · next hlarge => exact ⟨rfl, iff_of_true rfl hlarge⟩
  · next hsmall => exact ⟨rfl, iff_of_false Bool.false_ne_true hsmall⟩

theorem Digits.longer (h : Digits digits rest text) : rest ≠ text := by
  obtain ⟨⟨spaces, sign, -, -, rfl⟩, hne, -, -⟩ := h
  intro heq
  have hlength := congrArg List.length heq
  have hpos := List.length_pos_iff.mpr hne
  simp only [List.length_append] at hlength
  omega

theorem stops_dropWhile (text : Bytes) : Stops (text.dropWhile isDigit) := by
  intro b hb
  have hfirst := List.head?_dropWhile_not isDigit text
  rw [hb] at hfirst
  simpa using hfirst

/-- Where `strtoull` moves on, it has read digits. -/
theorem digits_of_strtoull (h : (strtoull text).tail ≠ text) :
    ∃ digits, Digits digits (strtoull text).tail text := by
  obtain ⟨signed, hsigned⟩ : ∃ signed, text.dropWhile isSpace = signed := ⟨_, rfl⟩
  obtain ⟨unsigned, hunsigned⟩ : ∃ unsigned,
      (if signed.head? = some 45 ∨ signed.head? = some 43 then signed.tail else
        signed) = unsigned :=
    ⟨_, rfl⟩
  have hsign : ∃ sign, (sign = [] ∨ sign = [45] ∨ sign = [43]) ∧ signed = sign ++ unsigned := by
    rw [← hunsigned]
    split
    · next hhead =>
      rcases hhead with hhead | hhead
      · exact ⟨[45], .inr (.inl rfl), (List.eq_cons_of_mem_head? hhead)⟩
      · exact ⟨[43], .inr (.inr rfl), (List.eq_cons_of_mem_head? hhead)⟩
    · exact ⟨[], .inl rfl, rfl⟩
  obtain ⟨sign, hsign, hsplit⟩ := hsign
  have htext : text = text.takeWhile isSpace ++
    (sign ++ (unsigned.takeWhile isDigit ++ unsigned.dropWhile isDigit)) := by
    rw [List.takeWhile_append_dropWhile, ← hsplit, ← hsigned, List.takeWhile_append_dropWhile]
  simp only [strtoull, hsigned, hunsigned] at h ⊢
  split at h
  · exact absurd rfl h
  · next hne =>
    rw [if_neg hne]
    refine ⟨unsigned.takeWhile isDigit, ⟨text.takeWhile isSpace, sign, ?_, hsign, ?_⟩, hne, ?_, ?_⟩
    · exact fun b => List.mem_takeWhile_imp
    · split <;> exact htext
    · exact fun b => List.mem_takeWhile_imp
    · split <;> exact stops_dropWhile unsigned

theorem parseU64_eq_none : parseU64 text = none ↔
    (∀ digits rest, ¬ Digits digits rest text) ∨
      ∃ digits rest, Digits digits rest text ∧ 2 ^ 64 ≤ digitsValue digits := by
  rw [parseU64, ite_eq_left_iff]
  constructor
  · intro h
    by_cases hmoved : (strtoull text).tail = text
    · exact .inl fun digits rest hdigits => hdigits.longer (hdigits.strtoull.1.symm.trans hmoved)
    · obtain ⟨digits, hdigits⟩ := digits_of_strtoull hmoved
      refine .inr ⟨digits, _, hdigits, hdigits.strtoull.2.mp ?_⟩
      by_contra herange
      cases h (not_or.mpr ⟨herange, hmoved⟩)
  · rintro (hnone | ⟨digits, rest, hdigits, hlarge⟩) hread
    · obtain ⟨digits, hdigits⟩ := digits_of_strtoull (not_or.mp hread).2
      exact absurd hdigits (hnone digits _)
    · exact absurd (hdigits.strtoull.2.mpr hlarge) (not_or.mp hread).1

theorem parseU64_eq_some {v : UInt64} (h : parseU64 text = some (v, rest)) :
    ∃ digits, Digits digits rest text := by
  rw [parseU64, Option.ite_none_left_eq_some] at h
  obtain ⟨hread, h⟩ := h
  obtain ⟨-, rfl⟩ := Prod.mk.inj (Option.some.inj h)
  exact digits_of_strtoull (not_or.mp hread).2

theorem Digits.unique (h : Digits digits rest text) (h' : Digits digits' rest' text) :
    rest = rest' :=
  h.strtoull.1.symm.trans h'.strtoull.1

/-- Blanks in front are white space. -/
theorem digits_skipWs : Digits digits rest (skipWs text) ↔ Digits digits rest text := by
  have hblank : ∀ b : UInt8, (b == 32 || b == 9) = true → isSpace b = true := by
    intro b hb
    simp only [Bool.or_eq_true, beq_iff_eq] at hb
    rcases hb with rfl | rfl <;> rfl
  constructor
  · rintro ⟨⟨spaces, sign, hspaces, hsign, htext⟩, hne, hdigits, hends⟩
    refine ⟨⟨text.takeWhile (fun b => b == 32 || b == 9) ++ spaces, sign, ?_, hsign, ?_⟩, hne,
      hdigits, hends⟩
    · intro b hb
      rcases List.mem_append.mp hb with hb | hb
      · have hb := List.mem_takeWhile_imp hb
        exact hblank b hb
      · exact hspaces b hb
    · rw [List.append_assoc, ← htext]
      exact List.takeWhile_append_dropWhile.symm
  · rintro ⟨⟨spaces, sign, hspaces, hsign, rfl⟩, hne, hdigits, hends⟩
    refine ⟨⟨skipWs spaces, sign, ?_, hsign, ?_⟩, hne, hdigits, hends⟩
    · exact fun b hb => hspaces b ((List.dropWhile_suffix _).subset hb)
    · have hstart : skipWs (sign ++ (digits ++ rest)) = sign ++ (digits ++ rest) := by
        rcases hsign with rfl | rfl | rfl
        · obtain ⟨b, tail, rfl⟩ := List.exists_cons_of_ne_nil hne
          exact skipWs_digit (hdigits b List.mem_cons_self)
        · rfl
        · rfl
      unfold skipWs at hstart ⊢
      rw [List.dropWhile_append]
      split
      · next hempty => rw [List.isEmpty_iff.mp hempty, List.nil_append, hstart]
      · rfl

theorem lacksNumbers_skipWs {n : Nat} : LacksNumbers n (skipWs text) ↔ LacksNumbers n text := by
  constructor
  · intro h
    cases h with
    | missing h =>
      exact .missing fun digits rest hdigits => h digits rest (digits_skipWs.mpr hdigits)
    | large h hlarge => exact .large (digits_skipWs.mp h) hlarge
    | later h hrest => exact .later (digits_skipWs.mp h) hrest
  · intro h
    cases h with
    | missing h =>
      exact .missing fun digits rest hdigits => h digits rest (digits_skipWs.mp hdigits)
    | large h hlarge => exact .large (digits_skipWs.mpr h) hlarge
    | later h hrest => exact .later (digits_skipWs.mpr h) hrest

/-- The scan fails exactly on the texts that do not begin with the numbers. -/
theorem scanNumbers_eq_none {n : Nat} : scanNumbers n text = none ↔ LacksNumbers n text := by
  induction n generalizing text with
  | zero =>
    constructor
    · exact nofun
    · exact nofun
  | succ n ih =>
    rw [scanNumbers]
    cases hparse : parseU64 text with
    | none =>
      refine iff_of_true rfl ?_
      rcases parseU64_eq_none.mp hparse with hnone | ⟨digits, rest, hdigits, hlarge⟩
      · exact .missing hnone
      · exact .large hdigits hlarge
    | some number =>
      obtain ⟨v, rest⟩ := number
      obtain ⟨digits, hdigits⟩ := parseU64_eq_some hparse
      dsimp only
      rw [Option.map_eq_none_iff, ih, lacksNumbers_skipWs]
      constructor
      · exact .later hdigits
      · intro h
        cases h with
        | missing h => exact absurd hdigits (h digits rest)
        | large h hlarge =>
          rw [parseU64_eq_none.mpr (.inr ⟨_, _, h, hlarge⟩)] at hparse
          cases hparse
        | later h hrest => exact h.unique hdigits ▸ hrest

end

/-! The line and the parser's copy of it. -/

theorem startsWith_eq_some {copy p : Bytes} {verb : String} : startsWith copy verb = some p ↔
    copy = lit verb ++ p := by
  simp only [startsWith, Option.ite_none_right_eq_some, Option.some.injEq]
  constructor
  · rintro ⟨htake, rfl⟩
    have hsplit := List.take_append_drop (lit verb).length copy
    rw [htake] at hsplit
    exact hsplit.symm
  · rintro rfl
    exact ⟨List.take_left, List.drop_left⟩

theorem trimNewline_append {verb : Bytes} (hverb : newline ∉ verb) (x : Bytes) :
    trimNewline (verb ++ x) = verb ++ trimNewline x := by
  by_cases hx : x = []
  · have hlast : verb.getLast? ≠ some newline := fun h => hverb (List.mem_of_getLast? h)
    rw [hx, List.append_nil, trimNewline, if_neg hlast]
    exact (List.append_nil _).symm
  · rw [trimNewline, trimNewline, List.getLast?_append_of_ne_nil _ hx,
      List.dropLast_append_of_ne_nil hx]
    split <;> rfl

theorem trimNewline_shorter (text : Bytes) : trimNewline text <+: text := by
  unfold trimNewline
  split
  · exact List.dropLast_prefix _
  · exact List.prefix_refl _

theorem trimNewline_newline {text : Bytes} (h : newline ∉ text) : trimNewline text = text :=
  if_neg fun hlast => h (List.mem_of_getLast? hlast)

/-- Where the line without its newline holds none, the copy's share of it is its beginning. -/
theorem trimNewline_take {x : Bytes} {k : Nat} (hk : 0 < k) (hne : trimNewline x ≠ [])
    (hfree : newline ∉ trimNewline x) :
    trimNewline (x.take k) <+: trimNewline x ∧ trimNewline (x.take k) ≠ [] := by
  by_cases hlong : x.length ≤ k
  · rw [List.take_of_length_le hlong]
    exact ⟨List.prefix_refl _, hne⟩
  have hshare : x.take k <+: trimNewline x := by
    have hlast : x.dropLast <+: trimNewline x := by
      unfold trimNewline
      split
      · exact List.prefix_refl _
      · exact List.dropLast_prefix _
    refine List.IsPrefix.trans ?_ hlast
    rw [List.dropLast_eq_take]
    exact List.take_prefix_take_left (by omega)
  rw [trimNewline_newline fun hmem => hfree (hshare.subset hmem)]
  refine ⟨hshare, fun hnil => ?_⟩
  have hlength := congrArg List.length hnil
  rw [List.length_take, List.length_nil] at hlength
  omega

namespace NumericForm

variable {form : NumericForm}

/-- What the parser needs of a verb. -/
structure Plain (form : NumericForm) : Prop where
  blank : 32 ∈ lit form.verb
  newline_free : newline ∉ lit form.verb
  short : (lit form.verb).length + 1 < bufferSize
  count_pos : 0 < form.count

theorem plain (hform : form ∈ all) : form.Plain := by
  have hall : ∀ form ∈ all, 32 ∈ lit form.verb ∧ newline ∉ lit form.verb ∧
    (lit form.verb).length < 20 ∧ 0 < form.count := by
    decide
  obtain ⟨hblank, hnewline, hshort, hcount⟩ := hall form hform
  exact ⟨hblank, hnewline, Nat.lt_of_lt_of_le (Nat.succ_lt_succ hshort) (by decide), hcount⟩

theorem arguments_append (form : NumericForm) (x : Bytes) :
    form.arguments (lit form.verb ++ x) = x := List.drop_left

theorem wholeLine_verb {line x : Bytes} (hform : form ∈ all)
    (hline : cstr line = lit form.verb ++ x) :
    wholeLine line = lit form.verb ++ trimNewline x := by
  rw [wholeLine, hline, trimNewline_append (plain hform).newline_free]

theorem copiedLine_verb {line x : Bytes} (hform : form ∈ all)
    (hline : cstr line = lit form.verb ++ x) :
    copiedLine line = lit form.verb ++
      trimNewline (x.take (bufferSize - 1 - (lit form.verb).length)) := by
  have hplain := plain hform
  have hshort := hplain.short
  rw [copiedLine, hline, snprintf, List.take_append, List.take_of_length_le (by omega),
    trimNewline_append hplain.newline_free]

/-- The request carries the numbers that were found, or is not understood. -/
def Answered (form : NumericForm) (r : ProtocolRequest) : Option (List UInt64) → Prop
  | none => r.command = .unknown
  | some ns => r.command = form.command ∧ form.fields r = ns

theorem parseEncodeText_answered (p : Bytes) :
    Answered ⟨"ENCODE_TEXT ", .encodeText, fun r => [r.size1, r.size2]⟩ (parseEncodeText p)
      (scanNumbers 2 p) := by
  unfold parseEncodeText
  simp only [scanNumbers]
  cases parseU64 p with
  | none => rfl
  | some first =>
    obtain ⟨size1, e⟩ := first
    dsimp only
    cases parseU64 (skipWs e) with
    | none => rfl
    | some second => exact ⟨rfl, rfl⟩

theorem parseEncodeFile_answered (p : Bytes) :
    Answered ⟨"ENCODE_FILE ", .encodeFile, fun r => [r.size1, r.size2, r.size3]⟩ (parseEncodeFile p)
      (scanNumbers 3 p) := by
  unfold parseEncodeFile
  simp only [scanNumbers]
  cases parseU64 p with
  | none => rfl
  | some first =>
    obtain ⟨size1, e⟩ := first
    dsimp only
    cases parseU64 (skipWs e) with
    | none => rfl
    | some second =>
      obtain ⟨size2, e'⟩ := second
      dsimp only
      cases parseU64 (skipWs e') with
      | none => rfl
      | some third => exact ⟨rfl, rfl⟩

theorem parseVerb_answered (hform : form ∈ all) (p : Bytes) :
    form.Answered (parseVerb (lit form.verb ++ p)) (form.read p) := by
  have hverb := fun cmd => ClientCommand.parseVerb_verb cmd p
  simp only [all, uploads, pngs, jobs, List.cons_append, List.nil_append, List.mem_cons,
    List.not_mem_nil, or_false] at hform
  rcases hform with rfl | rfl | rfl | rfl | rfl | rfl | rfl | rfl | rfl | rfl
  · have hparse : parseVerb (lit "ENCODE_TEXT " ++ p) = parseEncodeText p := hverb (.encodeText 0 0)
    rw [hparse]
    exact parseEncodeText_answered p
  · have hparse : parseVerb (lit "ENCODE_FILE " ++ p) = parseEncodeFile p :=
      hverb (.encodeFile 0 0 0)
    rw [hparse]
    exact parseEncodeFile_answered p
  · exact (hverb (.decode 0)).symm ▸ ⟨rfl, rfl⟩
  · exact (hverb (.validate 0)).symm ▸ ⟨rfl, rfl⟩
  · exact (hverb (.capacity 0)).symm ▸ ⟨rfl, rfl⟩
  · exact (hverb (.status 0)).symm ▸ ⟨rfl, rfl⟩
  · exact (hverb (.result 0)).symm ▸ ⟨rfl, rfl⟩
  · exact (hverb (.jobMeta 0)).symm ▸ ⟨rfl, rfl⟩
  · exact (hverb (.download 0)).symm ▸ ⟨rfl, rfl⟩
  · exact (hverb (.cancel 0)).symm ▸ ⟨rfl, rfl⟩

/-- The verb of a command with numbers. -/
def verbOf (command : ProtocolCommand) : Option String :=
  (all.find? (·.command = command)).map (·.verb)

theorem verbOf_command (hform : form ∈ all) : verbOf form.command = some form.verb := by
  have hall : ∀ form ∈ all, verbOf form.command = some form.verb := by decide
  exact hall form hform

theorem parseVerb_verbOf (copy : Bytes) {verb : String}
    (h : verbOf (parseVerb copy).command = some verb) :
    ∃ p, startsWith copy verb = some p := by
  have hread : ∀ {v : String} {p : Bytes} {form : NumericForm} {r : ProtocolRequest}
      {found : Option (List UInt64)},
      startsWith copy v = some p → form ∈ all → form.verb = v → form.Answered r found →
        verbOf r.command = some verb →
        ∃ p, startsWith copy verb = some p := by
    intro v p form r found hp hform hv hanswered h
    cases found with
    | none =>
      rw [show r.command = .unknown from hanswered] at h
      cases h
    | some ns =>
      rw [hanswered.1, verbOf_command hform, hv] at h
      obtain rfl := Option.some.inj h
      exact ⟨p, hp⟩
  unfold parseVerb at h
  iterate 16
    split at h
    · next p hp => first
        | exact ⟨p, Option.some.inj (show some _ = some verb from h) ▸ hp⟩
        | cases h
        | exact hread hp (List.mem_append_left _ List.mem_cons_self) rfl
            (parseEncodeText_answered p) h
        | exact hread hp (List.mem_append_left _ (List.mem_cons_of_mem _ List.mem_cons_self)) rfl
            (parseEncodeFile_answered p) h
  cases h

theorem parseBareCommand_verbOf {copy : Bytes} {command : ProtocolCommand}
    (h : parseBareCommand copy = some command) :
    verbOf command = none := by
  unfold parseBareCommand at h
  iterate 8
    split at h
    · obtain rfl := Option.some.inj h
      rfl
  cases h

theorem protocolParseLine_verb {line : Bytes} (hform : form ∈ all)
    (h : (protocolParseLine line).command = form.command) :
    lit form.verb <+: copiedLine line := by
  have hverb := verbOf_command hform
  rw [← h, protocolParseLine] at hverb
  split at hverb
  · next command hbare =>
    rw [parseBareCommand_verbOf hbare] at hverb
    cases hverb
  · obtain ⟨p, hp⟩ := parseVerb_verbOf _ hverb
    exact ⟨p, (startsWith_eq_some.mp hp).symm⟩

theorem protocolParseLine_answered {line : Bytes} (hform : form ∈ all)
    (hverb : lit form.verb <+: copiedLine line) :
    form.Answered (protocolParseLine line) (form.read (form.arguments (copiedLine line))) := by
  obtain ⟨p, hp⟩ := hverb
  have hblank : parseBareCommand (copiedLine line) = none := by
    rw [← hp]
    exact parseBareCommand_blank (List.mem_append_left _ (plain hform).blank)
  have hparse : protocolParseLine line = parseVerb (copiedLine line) := by
    unfold copiedLine at hblank ⊢
    simp only [protocolParseLine, hblank]
  rw [hparse, ← hp, arguments_append]
  exact parseVerb_answered hform p

theorem verb_cstr {line : Bytes} (hform : form ∈ all) :
    (lit form.verb <+: wholeLine line ↔ lit form.verb <+: cstr line) ∧
      (lit form.verb <+: copiedLine line ↔ lit form.verb <+: cstr line) := by
  refine ⟨⟨fun h => h.trans (trimNewline_shorter _), ?_⟩, ⟨fun h => ?_, ?_⟩⟩
  · rintro ⟨x, hx⟩
    exact ⟨_, (wholeLine_verb hform hx.symm).symm⟩
  · exact h.trans ((trimNewline_shorter _).trans (List.take_prefix _ _))
  · rintro ⟨x, hx⟩
    exact ⟨_, (copiedLine_verb hform hx.symm).symm⟩

/-- Where the line holds numbers behind the verb, a scan of the copy that finds as many has
found numbers. -/
theorem read_numbers {line : Bytes} {ns ms : List UInt64} (hform : form ∈ all)
    (hverb : lit form.verb <+: cstr line) (hcount : ns.length = form.count)
    (hnumbers : Numbers ns (form.arguments (wholeLine line)))
    (hread : form.read (form.arguments (copiedLine line)) = some ms) :
    Numbers ms (form.arguments (copiedLine line)) := by
  obtain ⟨x, hx⟩ := hverb
  have hshort := (plain hform).short
  rw [wholeLine_verb hform hx.symm, arguments_append] at hnumbers
  rw [copiedLine_verb hform hx.symm, arguments_append] at hread ⊢
  obtain ⟨hshare, hne⟩ := trimNewline_take (k := bufferSize - 1 - (lit form.verb).length)
    (by omega) hnumbers.ne_nil
    hnumbers.newline_free
  unfold read at hread
  split at hread
  · next hone =>
    obtain ⟨v, -, hv⟩ := hnumbers.single (hcount.trans hone)
    obtain ⟨w, hw⟩ := hv.cut hshare hne
    rw [hw.strtoull_value] at hread
    obtain rfl := Option.some.inj hread
    exact .last hw
  · rw [← hcount] at hread
    exact hnumbers.scan_cut hshare hread

theorem read_eq_some {p : Bytes} {ns : List UInt64} (hcount : ns.length = form.count)
    (h : Numbers ns p) :
    form.read p = some ns := by
  unfold read
  split
  · next hone =>
    obtain ⟨v, rfl, hv⟩ := h.single (hcount.trans hone)
    rw [hv.strtoull_value]
  · rw [← hcount]
    exact h.scan

theorem fields_length (hform : form ∈ all) (r : ProtocolRequest) :
    (form.fields r).length = form.count := by
  simp only [all, uploads, pngs, jobs, List.cons_append, List.nil_append, List.mem_cons,
    List.not_mem_nil, or_false] at hform
  rcases hform with rfl | rfl | rfl | rfl | rfl | rfl | rfl | rfl | rfl | rfl <;> rfl

end NumericForm

open NumericForm

/-- A line is parsed strictly exactly if behind a verb that takes numbers stand these numbers,
in the line and in its first 4095 bytes, or these begin with fewer numbers than it takes. -/
theorem strictlyParsed_iff (line : Bytes) : StrictlyParsed line ↔ Unmistakable line := by
  constructor
  · intro hstrict form hform hverb
    have hcstr := (verb_cstr hform).1.mp hverb
    have hanswered := protocolParseLine_answered hform ((verb_cstr hform).2.mpr hcstr)
    cases hread : form.read (form.arguments (copiedLine line)) with
    | none =>
      refine .inr ?_
      unfold NumericForm.read at hread
      split at hread
      · cases hread
      · next hmany => exact ⟨hmany, scanNumbers_eq_none.mp hread⟩
    | some ns =>
      rw [hread] at hanswered
      obtain ⟨hcommand, rfl⟩ := hanswered
      obtain ⟨-, hnumbers⟩ := hstrict.only form hform hcommand
      have hcount := fields_length hform (protocolParseLine line)
      exact .inl ⟨_, hcount, hnumbers, read_numbers hform hcstr hcount hnumbers hread⟩
  · intro hclear
    have hanswered : ∀ form ∈ NumericForm.all, lit form.verb <+: cstr line →
        (∃ ns, ns.length = form.count ∧ Numbers ns (form.arguments (wholeLine line)) ∧
          (protocolParseLine line).command = form.command ∧
            form.fields (protocolParseLine line) = ns) ∨
        (protocolParseLine line).command = .unknown := by
      intro form hform hcstr
      have hanswered := protocolParseLine_answered hform ((verb_cstr hform).2.mpr hcstr)
      rcases hclear form hform ((verb_cstr hform).1.mpr hcstr) with
        ⟨ns, hcount, hwhole, hcopy⟩ | ⟨hmany, hfails⟩
      · rw [read_eq_some hcount hcopy] at hanswered
        exact .inl ⟨ns, hcount, hwhole, hanswered⟩
      · rw [NumericForm.read, if_neg hmany, scanNumbers_eq_none.mpr hfails] at hanswered
        exact .inr hanswered
    refine ⟨fun form hform hcommand => ?_, fun form hform hverb hnone => ?_⟩
    · have hcstr := (verb_cstr hform).2.mp (protocolParseLine_verb hform hcommand)
      refine ⟨(verb_cstr hform).1.mpr hcstr, ?_⟩
      rcases hanswered form hform hcstr with ⟨ns, -, hwhole, -, rfl⟩ | hunknown
      · exact hwhole
      · have hverb := verbOf_command hform
        rw [← hcommand, hunknown] at hverb
        cases hverb
    · rcases hanswered form hform ((verb_cstr hform).1.mp hverb) with
        ⟨ns, hcount, hwhole, -⟩ | hunknown
      · exact absurd hwhole (hnone ns hcount)
      · exact hunknown

/-- A size with a minus sign. -/
theorem negative_size_accepted : ¬ ∀ line, StrictlyParsed line := by
  intro hstrict
  have hparse : protocolParseLine (lit "DECODE -1\n") =
    { command := .decode, size1 := 0xFFFFFFFFFFFFFFFF } := by decide
  obtain ⟨-, hnumbers⟩ := (hstrict (lit "DECODE -1\n")).only
    ⟨"DECODE ", .decode, fun r => [r.size1]⟩
    (List.mem_append_right _ List.mem_cons_self) (by rw [hparse])
  obtain ⟨b, tail, hcons, hdigit⟩ := hnumbers.head
  have htext : arguments ⟨"DECODE ", .decode, fun r => [r.size1]⟩ (wholeLine (lit "DECODE -1\n")) =
    lit "-1" := by decide
  rw [htext] at hcons
  obtain ⟨rfl, -⟩ := List.cons.inj hcons
  cases hdigit

end StegaPng
