import StegaPng.Getopt
import StegaPng.Protocol
import StegaPng.Storage

/-! The settings of the server: `main` and `runtime_config.c`. -/

namespace StegaPng

def maxWorkers : Int32 := 8

/-- The settings that the server works with. -/
structure ServerSettings where
  user_port : Int32
  admin_port : Int32
  worker_count : Int32
  log_path : Bytes
  storage_root : Bytes
  unix_socket_path : Bytes
  max_upload_bytes : UInt64
  deriving DecidableEq

/-- `runtime_config_t`. -/
structure ConfigFields extends ServerSettings where
  config_file : Bytes
  deriving DecidableEq

/-- `copy_str` into an array of `CFG_PATH_MAX` bytes. -/
def copyStr (src : Bytes) : Bytes := snprintf cfgPathMax src

def defaultSettings : ServerSettings where
  user_port := 9090
  admin_port := 9091
  worker_count := 3
  log_path := copyStr (lit "logs/server.log")
  storage_root := copyStr (lit "storage")
  unix_socket_path := copyStr (lit "/tmp/stegapng_user.sock")
  max_upload_bytes := 64 * 1024 * 1024

/-- `runtime_config_set_defaults`. -/
def setDefaults : ConfigFields :=
  { defaultSettings with config_file := copyStr (lit "config/server.conf") }

structure Strtol where
  value : Int
  tail : Bytes
  erange : Bool

/-- `strtol(s, &tail, 10)`. -/
def strtol (s : Bytes) : Strtol :=
  let signed := s.dropWhile isSpace
  let negative := signed.head? = some 45
  let unsigned := if negative ∨ signed.head? = some 43 then signed.tail else signed
  let digits := unsigned.takeWhile isDigit
  if digits = [] then { value := 0, tail := s, erange := false } else
  let tail := unsigned.dropWhile isDigit
  let v : Int := if negative then -(digitsValue digits) else digitsValue digits
  if v > 2 ^ 63 - 1 then { value := 2 ^ 63 - 1, tail := tail, erange := true }
  else if v < -2 ^ 63 then { value := -2 ^ 63, tail := tail, erange := true }
  else { value := v, tail := tail, erange := false }

/-- `parse_int_text`: the `long` is cut to an `int`. -/
def parseIntText (text : Bytes) : Option Int32 :=
  if text = [] then none else
  let r := strtol text
  if r.erange ∨ r.tail = text ∨ r.tail ≠ [] then none else some (Int32.ofInt r.value)

def clampWorkerCount (workers : Int32) : Int32 :=
  if workers < 1 then 1 else if workers > maxWorkers then maxWorkers else workers

/-! The configuration file. -/

/-- What libconfig finds in a file it can read. -/
structure ConfigFile where
  user_port : Option Int32 := none
  admin_port : Option Int32 := none
  worker_count : Option Int32 := none
  log_path : Option Bytes := none
  storage_root : Option Bytes := none
  unix_socket_path : Option Bytes := none
  max_upload_mb : Option Int64 := none

/-- The files that libconfig can read. There are none for a server that was built
without it. -/
abbrev ConfigFiles := Bytes → Option ConfigFile

/-- The upload limit that a file gives. -/
def ConfigFile.maxUploadBytes (file : ConfigFile) : Option UInt64 :=
  match file.max_upload_mb with
  | none => none
  | some mb => if mb > 0 then some (mb.toUInt64 * 1024 * 1024) else none

/-- `runtime_config_load_file`. -/
def loadFile (files : ConfigFiles) (cfg : ConfigFields) (path : Bytes) : ConfigFields :=
  if path = [] then cfg else
  match files path with
  | none => cfg
  | some file =>
    { user_port := file.user_port.getD cfg.user_port
      admin_port := file.admin_port.getD cfg.admin_port
      worker_count := (file.worker_count.map clampWorkerCount).getD cfg.worker_count
      log_path := (file.log_path.map copyStr).getD cfg.log_path
      storage_root := (file.storage_root.map copyStr).getD cfg.storage_root
      unix_socket_path := (file.unix_socket_path.map copyStr).getD cfg.unix_socket_path
      max_upload_bytes := file.maxUploadBytes.getD cfg.max_upload_bytes
      config_file := copyStr path }

/-! The environment. -/

structure Environ where
  stega_config : Option Bytes := none
  stega_user_port : Option Bytes := none
  stega_admin_port : Option Bytes := none
  stega_workers : Option Bytes := none
  stega_log : Option Bytes := none
  stega_storage : Option Bytes := none
  stega_unix_socket : Option Bytes := none
  posixly_correct : Bool := false

/-- A variable that is set to something. -/
def envText (value : Option Bytes) : Option Bytes :=
  match value with
  | none => none
  | some text => if text = [] then none else some text

def parseIntEnv (value : Option Bytes) : Option Int32 :=
  match envText value with
  | none => none
  | some text => parseIntText text

/-- `runtime_config_apply_env`. -/
def applyEnv (env : Environ) (cfg : ConfigFields) : ConfigFields :=
  { cfg with
    user_port := (parseIntEnv env.stega_user_port).getD cfg.user_port
    admin_port := (parseIntEnv env.stega_admin_port).getD cfg.admin_port
    worker_count := ((parseIntEnv env.stega_workers).map clampWorkerCount).getD cfg.worker_count
    log_path := ((envText env.stega_log).map copyStr).getD cfg.log_path
    storage_root := ((envText env.stega_storage).map copyStr).getD cfg.storage_root
    unix_socket_path := ((envText env.stega_unix_socket).map copyStr).getD cfg.unix_socket_path }

/-! The command line. -/

inductive CliOption where
  | config
  | port
  | adminPort
  | unixSocket
  | workers
  | log
  | storage
  | help
  | version
  deriving DecidableEq

/-- The option string and `long_opts`. -/
def cliTable : Getopt.Table CliOption where
  short c :=
    if c = 99 then some (.config, true)
    else if c = 112 then some (.port, true)
    else if c = 97 then some (.adminPort, true)
    else if c = 117 then some (.unixSocket, true)
    else if c = 119 then some (.workers, true)
    else if c = 108 then some (.log, true)
    else if c = 115 then some (.storage, true)
    else if c = 104 then some (.help, false)
    else if c = 86 then some (.version, false)
    else none
  long := [⟨lit "config", true, .config⟩, ⟨lit "port", true, .port⟩,
    ⟨lit "admin-port", true, .adminPort⟩, ⟨lit "unix-socket", true, .unixSocket⟩,
      ⟨lit "workers", true, .workers⟩, ⟨lit "log", true, .log⟩,
    ⟨lit "storage", true, .storage⟩, ⟨lit "help", false, .help⟩, ⟨lit "version", false, .version⟩]

/-- One option with its argument; there is no result where a number is invalid. -/
def applyOption (cfg : ConfigFields) (optarg : Bytes) : CliOption → Option ConfigFields
  | .config => some { cfg with config_file := copyStr optarg }
  | .port => (parseIntText optarg).map fun parsed => { cfg with user_port := parsed }
  | .adminPort => (parseIntText optarg).map fun parsed => { cfg with admin_port := parsed }
  | .unixSocket => some { cfg with unix_socket_path := copyStr optarg }
  | .workers =>
    (parseIntText optarg).map fun parsed => { cfg with worker_count := clampWorkerCount parsed }
  | .log => some { cfg with log_path := copyStr optarg }
  | .storage => some { cfg with storage_root := copyStr optarg }
  | _ => some cfg

/-- The server runs, or the process ends with or without success. -/
inductive CliOutcome where
  | runs (cfg : ConfigFields)
  | exits
  | fails

/-- The loop of `runtime_config_apply_cli`. -/
def applyCli : List (Getopt.Event CliOption) → ConfigFields → CliOutcome
  | [], cfg => .runs cfg
  | .argument o optarg :: es, cfg =>
    match applyOption cfg optarg o with
    | none => .fails
    | some cfg => applyCli es cfg
  | .flag _ :: _, _ => .exits
  | .unknown :: _, _ => .fails

/-- The words by which `preparse_config_path` finds the file. -/
def configWords : List Bytes := [lit "-c", lit "--config"]

/-- The scan of `preparse_config_path`: the word after the first of these. -/
def scanConfig : List Bytes → Option Bytes
  | word :: path :: rest => if word ∈ configWords then some path else scanConfig (path :: rest)
  | _ => none

/-- `preparse_config_path`. -/
def preparseConfigPath (env : Environ) (words : List Bytes) (out : Bytes) : Bytes :=
  match scanConfig words with
  | some path => copyStr path
  | none =>
    match envText env.stega_config with
    | some path => copyStr path
    | none => out

/-- `main` up to the start of the server, on the words after the program's name. -/
def configure (files : ConfigFiles) (env : Environ) (words : List Bytes) : CliOutcome :=
  let cfg := setDefaults
  let cfg_path := preparseConfigPath env words (copyStr cfg.config_file)
  let cfg := loadFile files cfg cfg_path
  let cfg := applyEnv env cfg
  applyCli (cliTable.getoptLong env.posixly_correct words) cfg

/-! Which source a setting should come from. -/

/-- What the command line gives: the last argument counts. -/
def cliValue {α : Type} (o : CliOption) (read : Bytes → Option α)
    (es : List (Getopt.Event CliOption)) : Option α :=
  Getopt.last (Getopt.argumentOf o read) es

/-- Every setting comes from the command line, the environment, the file or the defaults,
the first of them that sets it. -/
def settingsFrom (file : ConfigFile) (env : Environ) (es : List (Getopt.Event CliOption)) :
    ServerSettings where
  user_port := ((cliValue .port parseIntText es).or
    ((parseIntEnv env.stega_user_port).or file.user_port)).getD defaultSettings.user_port
  admin_port := ((cliValue .adminPort parseIntText es).or
    ((parseIntEnv env.stega_admin_port).or file.admin_port)).getD defaultSettings.admin_port
  worker_count := (((cliValue .workers parseIntText es).or
    ((parseIntEnv env.stega_workers).or file.worker_count)).map clampWorkerCount).getD
      defaultSettings.worker_count
  log_path := (((cliValue .log some es).or
    ((envText env.stega_log).or file.log_path)).map copyStr).getD defaultSettings.log_path
  storage_root := (((cliValue .storage some es).or
    ((envText env.stega_storage).or file.storage_root)).map copyStr).getD
      defaultSettings.storage_root
  unix_socket_path := (((cliValue .unixSocket some es).or
    ((envText env.stega_unix_socket).or file.unix_socket_path)).map copyStr).getD
      defaultSettings.unix_socket_path
  max_upload_bytes := file.maxUploadBytes.getD defaultSettings.max_upload_bytes

/-- The file that the environment or the defaults name. -/
def fallbackConfig (env : Environ) : Bytes :=
  (envText env.stega_config).getD (lit "config/server.conf")

/-- The file that the command line names, else the environment, else the defaults. -/
def namedConfig (env : Environ) (words : List Bytes) : Bytes :=
  (cliValue .config some (cliTable.getoptLong env.posixly_correct words)).getD (fallbackConfig env)

/-- What is in the file at a path. -/
def consult (files : ConfigFiles) (path : Bytes) : ConfigFile :=
  if path = [] then {} else (files path).getD {}

def prescribed (files : ConfigFiles) (env : Environ) (words : List Bytes) : ServerSettings :=
  settingsFrom (consult files (namedConfig env words)) env
    (cliTable.getoptLong env.posixly_correct words)

/-- The server runs with the command line. -/
def CliAccepted (env : Environ) (words : List Bytes) : Prop :=
  ∃ cfg, applyCli (cliTable.getoptLong env.posixly_correct words) setDefaults = .runs cfg

/-- The word after the first `-c` or `--config` that a word follows, or else the path of the
environment or the default, is in its first 255 bytes the path of the file that
`getopt_long` finds named. -/
structure ScanAgrees (env : Environ) (words : List Bytes) : Prop where
  found : ∀ before name path after, words = before ++ name :: path :: after → name ∈ configWords →
    (∀ w ∈ before, w ∉ configWords) → copyStr path = namedConfig env words
  missing : (∀ w ∈ words.dropLast, w ∉ configWords) →
    copyStr (fallbackConfig env) = namedConfig env words

/-! The scan. -/

theorem scanConfig_some {words : List Bytes} {path : Bytes} : scanConfig words = some path ↔
    ∃ before name after, words = before ++ name :: path :: after ∧ name ∈ configWords ∧
      ∀ w ∈ before, w ∉ configWords := by
  induction words with
  | nil => simp [scanConfig]
  | cons word rest ih =>
    cases rest with
    | nil =>
      constructor
      · exact nofun
      · rintro ⟨before, name, after, hsplit, -⟩
        have hlength := congrArg List.length hsplit
        simp at hlength
        omega
    | cons next rest =>
      rw [scanConfig]
      by_cases hword : word ∈ configWords
      · rw [if_pos hword]
        constructor
        · intro h
          obtain rfl := Option.some.inj h
          exact ⟨[], word, rest, rfl, hword, fun w hw => absurd hw List.not_mem_nil⟩
        · rintro ⟨before, name, after, hsplit, hname, hbefore⟩
          cases before with
          | nil =>
            obtain ⟨-, hrest⟩ := List.cons.inj hsplit
            rw [(List.cons.inj hrest).1]
          | cons first before =>
            obtain ⟨rfl, -⟩ := List.cons.inj hsplit
            exact absurd hword (hbefore _ List.mem_cons_self)
      · rw [if_neg hword, ih]
        constructor
        · rintro ⟨before, name, after, hsplit, hname, hbefore⟩
          refine ⟨word :: before, name, after, by rw [hsplit]; rfl, hname, fun w hw => ?_⟩
          rcases List.mem_cons.mp hw with rfl | hw
          · exact hword
          · exact hbefore w hw
        · rintro ⟨before, name, after, hsplit, hname, hbefore⟩
          cases before with
          | nil =>
            obtain ⟨rfl, -⟩ := List.cons.inj hsplit
            exact absurd hname hword
          | cons first before =>
            obtain ⟨-, hrest⟩ := List.cons.inj hsplit
            exact ⟨before, name, after, hrest, hname, fun w hw =>
              hbefore w (List.mem_cons_of_mem _ hw)⟩

theorem scanConfig_none {words : List Bytes} : scanConfig words = none ↔ ∀ w ∈ words.dropLast,
    w ∉ configWords := by
  induction words with
  | nil => simp [scanConfig]
  | cons word rest ih =>
    cases rest with
    | nil => simp [scanConfig]
    | cons next rest =>
      rw [scanConfig, List.dropLast_cons_cons]
      by_cases hword : word ∈ configWords
      · rw [if_pos hword]
        exact ⟨nofun, fun h => absurd hword (h word List.mem_cons_self)⟩
      · rw [if_neg hword, ih]
        simp [hword]

/-- The path by which the file is opened. -/
theorem preparse_eq (env : Environ) (words : List Bytes) :
    preparseConfigPath env words (copyStr setDefaults.config_file) =
      copyStr ((scanConfig words).getD (fallbackConfig env)) := by
  have hdefault : copyStr setDefaults.config_file = copyStr (lit "config/server.conf") :=
    snprintf_snprintf _ _
  rw [preparseConfigPath, hdefault]
  cases scanConfig words with
  | some path => rfl
  | none =>
    rw [fallbackConfig]
    cases envText env.stega_config <;> rfl

theorem scanAgrees_iff {env : Environ} {words : List Bytes} :
    ScanAgrees env words ↔ copyStr ((scanConfig words).getD (fallbackConfig env)) =
      namedConfig env words := by
  constructor
  · intro h
    cases hscan : scanConfig words with
    | none => exact h.missing (scanConfig_none.mp hscan)
    | some path =>
      obtain ⟨before, name, after, hsplit, hname, hbefore⟩ := scanConfig_some.mp hscan
      exact h.found before name path after hsplit hname hbefore
  · intro h
    refine ⟨fun before name path after hsplit hname hbefore => ?_, fun hnone => ?_⟩
    · rw [scanConfig_some.mpr ⟨before, name, after, hsplit, hname, hbefore⟩] at h
      exact h
    · rw [scanConfig_none.mpr hnone] at h
      exact h

/-! The layers of settings. -/

section

variable {es : List (Getopt.Event CliOption)} {cfg cfg' : ConfigFields}

/-- What an accepted command line leaves of the settings before it. -/
def overlay (es : List (Getopt.Event CliOption)) (cfg : ConfigFields) : ConfigFields where
  user_port := (cliValue .port parseIntText es).getD cfg.user_port
  admin_port := (cliValue .adminPort parseIntText es).getD cfg.admin_port
  worker_count := ((cliValue .workers parseIntText es).map clampWorkerCount).getD cfg.worker_count
  log_path := ((cliValue .log some es).map copyStr).getD cfg.log_path
  storage_root := ((cliValue .storage some es).map copyStr).getD cfg.storage_root
  unix_socket_path := ((cliValue .unixSocket some es).map copyStr).getD cfg.unix_socket_path
  max_upload_bytes := cfg.max_upload_bytes
  config_file := ((cliValue .config some es).map copyStr).getD cfg.config_file

theorem cliValue_cons {α : Type} (o o' : CliOption) (read : Bytes → Option α) (optarg : Bytes) :
    cliValue o read (.argument o' optarg :: es) = (cliValue o read es).or
      (if o' = o then read optarg else none) := by
  rw [cliValue, Getopt.last_cons]
  rfl

theorem overlay_cons {o : CliOption} {optarg : Bytes} {cfg₁ : ConfigFields}
    (h : applyOption cfg optarg o = some cfg₁) :
    overlay es cfg₁ = overlay (.argument o optarg :: es) cfg := by
  have hnumber : ∀ {f : Int32 → ConfigFields}, (parseIntText optarg).map f = some cfg₁ →
      ∃ parsed, parseIntText optarg = some parsed ∧ f parsed = cfg₁ := Option.map_eq_some_iff.mp
  cases o with
  | port =>
    obtain ⟨parsed, hparsed, rfl⟩ := hnumber h
    simp [overlay, cliValue_cons, hparsed]
  | adminPort =>
    obtain ⟨parsed, hparsed, rfl⟩ := hnumber h
    simp [overlay, cliValue_cons, hparsed]
  | workers =>
    obtain ⟨parsed, hparsed, rfl⟩ := hnumber h
    simp [overlay, cliValue_cons, hparsed]
  | _ =>
    obtain rfl := Option.some.inj h
    simp [overlay, cliValue_cons]

/-- The options are applied one after the other, so that the last one counts. -/
theorem applyCli_runs (h : applyCli es cfg = .runs cfg') : cfg' = overlay es cfg := by
  induction es generalizing cfg with
  | nil =>
    cases h
    rfl
  | cons e es ih =>
    cases e with
    | flag o => cases h
    | unknown => cases h
    | argument o optarg =>
      rw [applyCli] at h
      cases happly : applyOption cfg optarg o with
      | none =>
        rw [happly] at h
        cases h
      | some cfg₁ =>
        rw [happly] at h
        rw [ih h, overlay_cons happly]

/-- Whether a command line is accepted does not depend on the settings before it. -/
theorem applyCli_any (h : applyCli es cfg = .runs cfg') (cfg₀ : ConfigFields) :
    ∃ cfg'', applyCli es cfg₀ = .runs cfg'' := by
  induction es generalizing cfg cfg₀ with
  | nil => exact ⟨cfg₀, rfl⟩
  | cons e es ih =>
    cases e with
    | flag o => cases h
    | unknown => cases h
    | argument o optarg =>
      rw [applyCli] at h
      cases happly : applyOption cfg optarg o with
      | none =>
        rw [happly] at h
        cases h
      | some cfg₁ =>
        rw [happly] at h
        have hother : ∃ cfg₂, applyOption cfg₀ optarg o = some cfg₂ := by
          cases o <;> simp only [applyOption, Option.some.injEq, Option.map_eq_some_iff] at happly ⊢
          all_goals first
            | exact ⟨_, rfl⟩
            | obtain ⟨parsed, hparsed, -⟩ := happly
              exact ⟨_, parsed, hparsed, rfl⟩
        obtain ⟨cfg₂, hcfg₂⟩ := hother
        rw [applyCli, hcfg₂]
        exact ih h cfg₂

end

theorem layers_eq (files : ConfigFiles) (env : Environ) (path : Bytes)
    (es : List (Getopt.Event CliOption)) :
    (overlay es (applyEnv env (loadFile files setDefaults path))).toServerSettings =
      settingsFrom (consult files path) env es := by
  have hload : (loadFile files setDefaults path).toServerSettings =
      { user_port := (consult files path).user_port.getD defaultSettings.user_port
        admin_port := (consult files path).admin_port.getD defaultSettings.admin_port
        worker_count := ((consult files path).worker_count.map clampWorkerCount).getD
          defaultSettings.worker_count
        log_path := ((consult files path).log_path.map copyStr).getD defaultSettings.log_path
        storage_root := ((consult files path).storage_root.map copyStr).getD
          defaultSettings.storage_root
        unix_socket_path := ((consult files path).unix_socket_path.map copyStr).getD
          defaultSettings.unix_socket_path
        max_upload_bytes := (consult files path).maxUploadBytes.getD
          defaultSettings.max_upload_bytes } := by
    rw [loadFile, consult]
    split
    · rfl
    · cases files path <;> rfl
  generalize loadFile files setDefaults path = cfg at hload
  obtain ⟨settings, config_file⟩ := cfg
  obtain rfl : settings = _ := hload
  simp only [overlay, applyEnv, settingsFrom, Option.map_or, Option.getD_or]

theorem configure_settings {files : ConfigFiles} {env : Environ} {words : List Bytes}
    {cfg : ConfigFields} (h : configure files env words = .runs cfg) :
    cfg.toServerSettings = settingsFrom
      (consult files (copyStr ((scanConfig words).getD (fallbackConfig env)))) env
      (cliTable.getoptLong env.posixly_correct words) := by
  rw [applyCli_runs h, preparse_eq, layers_eq]

/-- A file that only sets the upload limit, to 1 MB. -/
def smallUploads : ConfigFile := { max_upload_mb := some 1 }

/-- Two paths differ where some file's content tells them apart. -/
theorem consult_eq {p q : Bytes}
    (h : ∀ files, (consult files p).maxUploadBytes.getD defaultSettings.max_upload_bytes =
    (consult files q).maxUploadBytes.getD defaultSettings.max_upload_bytes) : p = q := by
  by_contra hne
  have hsmall : smallUploads.maxUploadBytes.getD defaultSettings.max_upload_bytes ≠
      ({} : ConfigFile).maxUploadBytes.getD defaultSettings.max_upload_bytes := by decide
  have hone : ∀ a b : Bytes, a ≠ [] → a ≠ b →
      consult (fun path => if path = a then some smallUploads else none) a = smallUploads ∧
        consult (fun path => if path = a then some smallUploads else none) b = {} := by
    intro a b ha hab
    refine ⟨by simp [consult, ha], ?_⟩
    rw [consult]
    split
    · rfl
    · simp [Ne.symm hab]
  by_cases hp : p = []
  · have hq : q ≠ [] := fun hq => hne (hp.trans hq.symm)
    obtain ⟨hset, hunset⟩ := hone q p hq (Ne.symm hne)
    have heq := h fun path => if path = q then some smallUploads else none
    rw [hset, hunset] at heq
    exact hsmall heq.symm
  · obtain ⟨hset, hunset⟩ := hone p q hp hne
    have heq := h fun path => if path = p then some smallUploads else none
    rw [hset, hunset] at heq
    exact hsmall heq

/-- The settings come from the sources in their order, whatever the files hold, exactly
where the scan finds the file that `getopt_long` finds. -/
theorem settings_by_precedence (env : Environ) (words : List Bytes)
    (haccepted : CliAccepted env words) :
    (∀ files, ∃ cfg, configure files env words = .runs cfg ∧
      cfg.toServerSettings = prescribed files env words) ↔
      ScanAgrees env words := by
  rw [scanAgrees_iff]
  obtain ⟨cfg₀, hcfg₀⟩ := haccepted
  constructor
  · intro h
    refine consult_eq fun files => ?_
    obtain ⟨cfg, hruns, hsettings⟩ := h files
    have heq := (configure_settings hruns).symm.trans hsettings
    exact congrArg ServerSettings.max_upload_bytes heq
  · intro hsame files
    obtain ⟨cfg, hruns⟩ := applyCli_any hcfg₀
      (applyEnv env (loadFile files setDefaults (preparseConfigPath env words
        (copyStr setDefaults.config_file))))
    refine ⟨cfg, hruns, ?_⟩
    rw [configure_settings hruns, hsame, prescribed]

/-- A command line that names the file in two words. -/
def splitWords : List Bytes := [lit "-p", lit "80", lit "-c", lit "b.conf"]

theorem settings_by_precedence_split :
    ScanAgrees { stega_config := some (lit "a.conf") } splitWords ∧
      ∀ files, ∃ cfg, configure files { stega_config := some (lit "a.conf") } splitWords =
        .runs cfg ∧
        cfg.toServerSettings = prescribed files { stega_config := some (lit "a.conf") }
          splitWords := by
  have hagrees : ScanAgrees { stega_config := some (lit "a.conf") } splitWords :=
    scanAgrees_iff.mpr (by decide)
  exact ⟨hagrees, (settings_by_precedence _ _ ⟨_, rfl⟩).mpr hagrees⟩

/-- `--config=b.conf` names a file that is not read. -/
theorem settings_of_other_file :
    ¬ ∀ files env words, CliAccepted env words →
      ∃ cfg, configure files env words = .runs cfg ∧
        cfg.toServerSettings = prescribed files env words := by
  intro hclaim
  have hwords : CliAccepted {} [lit "--config=b.conf"] := ⟨_, rfl⟩
  obtain ⟨cfg, hruns, hsettings⟩ := hclaim (fun path => if path = lit "b.conf" then
    some smallUploads else none) {}
    [lit "--config=b.conf"] hwords
  have heq := congrArg ServerSettings.max_upload_bytes
    ((configure_settings hruns).symm.trans hsettings)
  revert heq
  decide

end StegaPng
