import StegaPng.Configuration

/-! The numbers among the settings, from the text that gives them to the socket. -/

namespace StegaPng

/-- The integer that a text writes: blanks, perhaps a sign, and digits to the end. -/
def integerText (text : Bytes) : Option Int :=
  let signed := text.dropWhile isSpace
  let negative := signed.head? = some 45
  let digits := if negative ∨ signed.head? = some 43 then signed.tail else signed
  if digits = [] ∨ ¬ digits.all isDigit then none
  else some (if negative then -(digitsValue digits) else digitsValue digits)

/-- The integer written in a text that is not refused. -/
def acceptedInteger (text : Bytes) : Option Int :=
  if (parseIntText text).isSome then integerText text else none

/-- The cast in `server_run` where the socket is bound to the port. -/
def listenPort (port : Int32) : UInt16 := UInt16.ofInt port.toInt

/-- The file that the server loads. -/
def loadedFile (files : ConfigFiles) (env : Environ) (words : List Bytes) : ConfigFile :=
  consult files (copyStr ((scanConfig words).getD (fallbackConfig env)))

/-- What the command line, the environment or the file writes for a number, the first of
them that is not refused. -/
def givenInteger (o : CliOption) (value : Option Bytes) (field : Option Int32)
    (es : List (Getopt.Event CliOption)) : Option Int :=
  (cliValue o acceptedInteger es).or (((envText value).bind acceptedInteger).or
    (field.map Int32.toInt))

section

variable (files : ConfigFiles) (env : Environ) (words : List Bytes)

def givenUserPort : Option Int :=
  givenInteger .port env.stega_user_port (loadedFile files env words).user_port
    (cliTable.getoptLong env.posixly_correct words)

def givenAdminPort : Option Int :=
  givenInteger .adminPort env.stega_admin_port (loadedFile files env words).admin_port
    (cliTable.getoptLong env.posixly_correct words)

def givenWorkers : Option Int :=
  givenInteger .workers env.stega_workers (loadedFile files env words).worker_count
    (cliTable.getoptLong env.posixly_correct words)

/-- The port that is bound is the integer written. -/
def PortExact (given : Option Int) (port : Int32) : Prop :=
  ∀ n, given = some n → (1 ≤ n ∧ n ≤ 65535) ∧ ((listenPort port).toNat : Int) = n

/-- The settings are the numbers that were written, and the worker count the nearest that is
allowed. -/
structure NumbersExact (cfg : ConfigFields) : Prop where
  user_port : PortExact (givenUserPort files env words) cfg.user_port
  admin_port : PortExact (givenAdminPort files env words) cfg.admin_port
  worker_count : ∀ n, givenWorkers files env words = some n →
    cfg.worker_count.toInt = max 1 (min n maxWorkers.toInt)
  max_upload : ∀ mb, (loadedFile files env words).max_upload_mb = some mb → 0 < mb →
    (cfg.max_upload_bytes.toNat : Int) = mb.toInt * 2 ^ 20

def PortInRange (given : Option Int) : Prop := ∀ n, given = some n → 1 ≤ n ∧ n ≤ 65535

/-- The ports are ports, what the number of workers loses beyond 32 bits does not matter, and
the upload limit fits in 64 bits. -/
structure NumbersInRange : Prop where
  user_port : PortInRange (givenUserPort files env words)
  admin_port : PortInRange (givenAdminPort files env words)
  worker_count : ∀ n, givenWorkers files env words = some n →
    (-2 ^ 31 ≤ n ∧ n < 2 ^ 31) ∨ (2 ^ 31 ≤ n ∧ 8 ≤ n.bmod (2 ^ 32)) ∨
      (n < -2 ^ 31 ∧ n.bmod (2 ^ 32) ≤ 1)
  max_upload : ∀ mb, (loadedFile files env words).max_upload_mb = some mb → mb.toInt < 2 ^ 44

end

/-! Texts. -/

theorem dropWhile_eq_nil {p : UInt8 → Bool} {text : Bytes} : text.dropWhile p = [] ↔
    text.all p = true := by
  induction text with
  | nil => simp
  | cons b rest ih =>
    rw [List.dropWhile_cons, List.all_cons]
    cases p b with
    | true => simp [ih]
    | false => simp

theorem takeWhile_all {p : UInt8 → Bool} {text : Bytes} (h : text.all p = true) :
    text.takeWhile p = text := by
  have hsplit := List.takeWhile_append_dropWhile (p := p) (l := text)
  rwa [dropWhile_eq_nil.mpr h, List.append_nil] at hsplit

/-- A text is refused unless it writes an integer that fits a `long`, of which 32 bits are kept. -/
theorem parseIntText_eq (text : Bytes) : parseIntText text =
    (integerText text).bind fun n => if -2 ^ 63 ≤ n ∧ n < 2 ^ 63 then some (Int32.ofInt n)
      else none := by
  by_cases htext : text = []
  · subst htext
    rfl
  rw [parseIntText, if_neg htext, strtol, integerText]
  generalize text.dropWhile isSpace = signed
  generalize (if signed.head? = some 45 ∨ signed.head? = some 43 then signed.tail else
    signed) = unsigned
  dsimp only
  cases hall : unsigned.all isDigit with
  | true =>
    rw [takeWhile_all hall, dropWhile_eq_nil.mpr hall]
    by_cases hnil : unsigned = []
    · simp [hnil]
    · generalize (if signed.head? = some 45 then -(digitsValue unsigned : Int) else
        digitsValue unsigned) = n
      have hsome : (if unsigned = [] ∨ ¬ true = true then none else some n) = some n :=
        if_neg (by simp [hnil])
      rw [if_neg hnil, hsome, Option.bind_some]
      by_cases hhigh : n > 2 ^ 63 - 1
      · rw [if_pos hhigh, if_pos (Or.inl rfl), if_neg (by omega)]
      · rw [if_neg hhigh]
        by_cases hlow : n < -2 ^ 63
        · rw [if_pos hlow, if_pos (Or.inl rfl), if_neg (by omega)]
        · rw [if_neg hlow, if_neg (by simp [Ne.symm htext]), if_pos (by omega)]
  | false =>
    have htail : unsigned.dropWhile isDigit ≠ [] := by
      intro h
      rw [dropWhile_eq_nil.mp h] at hall
      cases hall
    have hnone : ∀ n : Int, (if unsigned = [] ∨ ¬ false = true then none else some n) = none :=
      fun n => if_pos (Or.inr Bool.false_ne_true)
    rw [hnone, Option.bind_none]
    have hrefused : ∀ r : Strtol, r.tail ≠ [] →
        (if r.erange ∨ r.tail = text ∨ r.tail ≠ [] then none else
          some (Int32.ofInt r.value)) = none := by
      intro r hr
      rw [if_pos (Or.inr (Or.inr hr))]
    generalize (if signed.head? = some 45 then -(digitsValue (unsigned.takeWhile isDigit) : Int)
      else digitsValue (unsigned.takeWhile isDigit)) = n
    refine hrefused _ ?_
    split
    · exact htext
    · split
      · exact htail
      · split <;> exact htail

theorem parseIntText_accepted (text : Bytes) :
    parseIntText text = (acceptedInteger text).map Int32.ofInt := by
  rw [acceptedInteger, parseIntText_eq]
  cases integerText text with
  | none => rfl
  | some n =>
    rw [Option.bind_some]
    split <;> rfl

/-! Which integer a setting comes from. -/

theorem cliValue_map {o : CliOption} {α β : Type} {f : α → β} {readInto : Bytes → Option β}
    {read : Bytes → Option α} (h : ∀ text, readInto text = (read text).map f)
    (es : List (Getopt.Event CliOption)) :
    cliValue o readInto es = (cliValue o read es).map f := by
  induction es with
  | nil => rfl
  | cons e es ih =>
    have hevent : Getopt.argumentOf o readInto e = (Getopt.argumentOf o read e).map f := by
      cases e with
      | argument o' optarg =>
        simp only [Getopt.argumentOf, h]
        split <;> rfl
      | flag o' => rfl
      | unknown => rfl
    rw [cliValue, cliValue, Getopt.last_cons, Getopt.last_cons, Option.map_or, hevent]
    exact congrArg (Option.or · _) ih

theorem parseIntEnv_accepted (value : Option Bytes) :
    parseIntEnv value = ((envText value).bind acceptedInteger).map Int32.ofInt := by
  rw [parseIntEnv]
  cases envText value with
  | none => rfl
  | some text => exact parseIntText_accepted text

theorem givenInteger_eq (o : CliOption) (value : Option Bytes) (field : Option Int32)
    (es : List (Getopt.Event CliOption)) :
    (cliValue o parseIntText es).or ((parseIntEnv value).or field) =
      (givenInteger o value field es).map Int32.ofInt := by
  have hfield : (field.map Int32.toInt).map Int32.ofInt = field := by
    cases field with
    | none => rfl
    | some v => exact congrArg some (Int32.ofInt_toInt v)
  rw [givenInteger, Option.map_or, Option.map_or, cliValue_map parseIntText_accepted,
    parseIntEnv_accepted, hfield]

/-! What becomes of the integers. -/

/-- What is kept of a `long` in an `int`. -/
theorem int_cut (n : Int) : ∃ k, (Int32.ofInt n).toInt = n - 2 ^ 32 * k ∧
    -2 ^ 31 ≤ (Int32.ofInt n).toInt ∧
    (Int32.ofInt n).toInt < 2 ^ 31 := by
  refine ⟨n.bdiv (2 ^ 32), ?_, Int32.le_toInt _, Int32.toInt_lt _⟩
  rw [Int32.toInt_ofInt]
  exact Int.bmod_eq_self_sub_mul_bdiv n (2 ^ 32)

theorem listenPort_ofInt (n : Int) : ((listenPort (Int32.ofInt n)).toNat : Int) = n % 2 ^ 16 := by
  obtain ⟨k, hcut, -⟩ := int_cut n
  have hsame : (Int32.ofInt n).toInt % 2 ^ 16 = n % 2 ^ 16 := by omega
  have hsmall : (n % 2 ^ 16).toNat < 2 ^ 16 := by omega
  rw [listenPort, UInt16.ofInt, hsame, UInt16.toNat_ofNat_of_lt' hsmall]
  omega

theorem clampWorkerCount_toInt (workers : Int32) :
    (clampWorkerCount workers).toInt = max 1 (min workers.toInt maxWorkers.toInt) := by
  have hmax : maxWorkers.toInt = 8 := rfl
  have hone : (1 : Int32).toInt = 1 := rfl
  rw [clampWorkerCount]
  split
  · next hlow =>
    rw [Int32.lt_iff_toInt_lt, hone] at hlow
    omega
  · next hlow =>
    rw [Int32.lt_iff_toInt_lt, hone] at hlow
    split
    · next hhigh =>
      have hhigh : maxWorkers.toInt < workers.toInt := Int32.lt_iff_toInt_lt.mp hhigh
      omega
    · next hhigh =>
      have hhigh : ¬ maxWorkers.toInt < workers.toInt :=
        fun h => hhigh (Int32.lt_iff_toInt_lt.mpr h)
      omega

theorem portExact_iff {given : Option Int} {port : Int32} :
    PortExact given ((given.map Int32.ofInt).getD port) ↔ PortInRange given := by
  constructor
  · intro h n hn
    exact (h n hn).1
  · intro h n hn
    obtain ⟨hlow, hhigh⟩ := h n hn
    refine ⟨⟨hlow, hhigh⟩, ?_⟩
    rw [hn, Option.map_some, Option.getD_some, listenPort_ofInt]
    omega

theorem workers_exact_iff (n : Int) : (clampWorkerCount (Int32.ofInt n)).toInt =
    max 1 (min n maxWorkers.toInt) ↔
    (-2 ^ 31 ≤ n ∧ n < 2 ^ 31) ∨ (2 ^ 31 ≤ n ∧ 8 ≤ n.bmod (2 ^ 32)) ∨
      (n < -2 ^ 31 ∧ n.bmod (2 ^ 32) ≤ 1) := by
  have hmax : maxWorkers.toInt = 8 := rfl
  have hsigned : n.bmod (2 ^ 32) = (Int32.ofInt n).toInt := Int32.toInt_ofInt.symm
  obtain ⟨k, hcut, hlow, hhigh⟩ := int_cut n
  rw [clampWorkerCount_toInt, hsigned, hmax]
  omega

theorem uploadBytes_exact_iff {mb : Int64} (h : 0 < mb) :
    ((mb.toUInt64 * 1024 * 1024).toNat : Int) = mb.toInt * 2 ^ 20 ↔ mb.toInt < 2 ^ 44 := by
  have hpos : 0 ≤ mb := Int64.le_of_lt h
  have hsign : 0 ≤ mb.toInt := Int64.le_iff_toInt_le.mp hpos
  have hvalue : mb.toUInt64.toNat = mb.toInt.toNat := Int64.toNat_toUInt64_of_le hpos
  rw [UInt64.toNat_mul, UInt64.toNat_mul]
  simp only [UInt64.reduceToNat]
  omega

theorem maxUploadBytes_eq {file : ConfigFile} {mb : Int64} (hfile : file.max_upload_mb = some mb)
    (hpos : 0 < mb) :
    file.maxUploadBytes = some (mb.toUInt64 * 1024 * 1024) := by
  rw [ConfigFile.maxUploadBytes, hfile]
  exact if_pos hpos

section

variable {files : ConfigFiles} {env : Environ} {words : List Bytes} {cfg : ConfigFields}

/-- The settings with which the server starts, in terms of the integers that were written. -/
theorem configure_numbers (h : configure files env words = .runs cfg) :
    cfg.user_port = ((givenUserPort files env words).map Int32.ofInt).getD
      defaultSettings.user_port ∧
      cfg.admin_port = ((givenAdminPort files env words).map Int32.ofInt).getD
        defaultSettings.admin_port ∧
      cfg.worker_count = (((givenWorkers files env words).map Int32.ofInt).map
        clampWorkerCount).getD
        defaultSettings.worker_count ∧
      cfg.max_upload_bytes = (loadedFile files env words).maxUploadBytes.getD
        defaultSettings.max_upload_bytes := by
  have hsettings := configure_settings h
  rw [givenUserPort, givenAdminPort, givenWorkers, ← givenInteger_eq, ← givenInteger_eq,
    ← givenInteger_eq]
  exact ⟨congrArg ServerSettings.user_port hsettings, congrArg ServerSettings.admin_port hsettings,
    congrArg ServerSettings.worker_count hsettings,
      congrArg ServerSettings.max_upload_bytes hsettings⟩

/-- A server that starts has the numbers that were written exactly where these are in range:
nothing on the way to the socket refuses a number for its size, beyond that of a `long`. -/
theorem numeric_settings_exact (h : configure files env words = .runs cfg) :
    NumbersExact files env words cfg ↔ NumbersInRange files env words := by
  obtain ⟨huser, hadmin, hworkers, hupload⟩ := configure_numbers h
  have hcount : ∀ n, givenWorkers files env words = some n →
      cfg.worker_count = clampWorkerCount (Int32.ofInt n) := by
    intro n hn
    rw [hworkers, hn]
    rfl
  have hbytes : ∀ mb, (loadedFile files env words).max_upload_mb = some mb → 0 < mb →
      cfg.max_upload_bytes = mb.toUInt64 * 1024 * 1024 := by
    intro mb hmb hpos
    rw [hupload, maxUploadBytes_eq hmb hpos]
    rfl
  constructor
  · intro hexact
    refine ⟨portExact_iff.mp (huser ▸ hexact.user_port),
      portExact_iff.mp (hadmin ▸ hexact.admin_port), ?_, ?_⟩
    · intro n hn
      have heq := hexact.worker_count n hn
      rw [hcount n hn] at heq
      exact (workers_exact_iff n).mp heq
    · intro mb hmb
      by_cases hpos : 0 < mb
      · have heq := hexact.max_upload mb hmb hpos
        rw [hbytes mb hmb hpos] at heq
        exact (uploadBytes_exact_iff hpos).mp heq
      · have hneg : mb.toInt ≤ 0 := Int64.le_iff_toInt_le.mp (Int64.not_lt.mp hpos)
        omega
  · intro hrange
    refine ⟨?_, ?_, ?_, ?_⟩
    · rw [huser]
      exact portExact_iff.mpr hrange.user_port
    · rw [hadmin]
      exact portExact_iff.mpr hrange.admin_port
    · intro n hn
      rw [hcount n hn]
      exact (workers_exact_iff n).mpr (hrange.worker_count n hn)
    · intro mb hmb hpos
      rw [hbytes mb hmb hpos]
      exact (uploadBytes_exact_iff hpos).mpr (hrange.max_upload mb hmb)

end

theorem numeric_settings_exact_words : ∃ cfg,
    configure (fun _ => none) {} [lit "-p", lit "8080", lit "-w", lit "20"] = .runs cfg ∧
      NumbersExact (fun _ => none) {} [lit "-p", lit "8080", lit "-w", lit "20"] cfg := by
  have hruns : ∃ cfg, configure (fun _ => none) {} [lit "-p", lit "8080", lit "-w", lit "20"] =
    .runs cfg := ⟨_, rfl⟩
  obtain ⟨cfg, hcfg⟩ := hruns
  have huser : givenUserPort (fun _ => none) {} [lit "-p", lit "8080", lit "-w", lit "20"] =
    some 8080 := by decide
  have hadmin : givenAdminPort (fun _ => none) {} [lit "-p", lit "8080", lit "-w", lit "20"] =
    none := by decide
  have hworkers : givenWorkers (fun _ => none) {} [lit "-p", lit "8080", lit "-w", lit "20"] =
    some 20 := by decide
  have hupload : (loadedFile (fun _ => none) {}
    [lit "-p", lit "8080", lit "-w", lit "20"]).max_upload_mb = none := by decide
  refine ⟨cfg, hcfg, (numeric_settings_exact hcfg).mpr ⟨?_, ?_, ?_, ?_⟩⟩
  · intro n hn
    rw [huser, Option.some.injEq] at hn
    omega
  · intro n hn
    rw [hadmin] at hn
    cases hn
  · intro n hn
    rw [hworkers, Option.some.injEq] at hn
    omega
  · intro mb hmb
    rw [hupload] at hmb
    cases hmb

/-- With `-p 65616` the server listens on port 80. -/
theorem port_wraps : ¬ ∀ files env words cfg, configure files env words = .runs cfg →
    NumbersExact files env words cfg := by
  intro hclaim
  have hruns : ∃ cfg, configure (fun _ => none) {} [lit "-p", lit "65616"] = .runs cfg ∧
    listenPort cfg.user_port = 80 :=
    ⟨_, rfl, rfl⟩
  obtain ⟨cfg, hcfg, hport⟩ := hruns
  have hgiven : givenUserPort (fun _ => none) {} [lit "-p", lit "65616"] = some 65616 := by decide
  obtain ⟨-, hexact⟩ := (hclaim _ _ _ cfg hcfg).user_port 65616 hgiven
  rw [hport] at hexact
  cases hexact

end StegaPng
