import StegaPng.Job

/-! Where the server keeps uploads and results (`storage.c`, `runtime_config.h`). -/

namespace StegaPng

def cfgPathMax : Nat := 256
def maxTextBytes : Nat := 1024 * 1024
def maxFilenameBytes : Nat := 255

/-- The settings the server was started with. -/
structure RuntimeConfig where
  storage_root : Bytes
  max_upload_bytes : UInt64
  worker_count : Nat
  root_length : storage_root.length < cfgPathMax
  root_nul_free : 0 ∉ storage_root

/-- `runtime_config_set_defaults`. -/
def runtimeConfigDefaults : RuntimeConfig where
  storage_root := lit "storage"
  max_upload_bytes := 64 * 1024 * 1024
  worker_count := 3
  root_length := by decide
  root_nul_free := by decide

def storageUploadsDir (cfg : RuntimeConfig) : Bytes := cfg.storage_root ++ lit "/uploads"

def storageResultsDir (cfg : RuntimeConfig) : Bytes := cfg.storage_root ++ lit "/results"

/-- `"%s/job_%llu.%s"`. -/
def jobFilePath (dir : Bytes) (job_id : Nat) (suffix : Bytes) : Bytes :=
  dir ++ lit "/job_" ++ decimal job_id ++ lit "." ++ suffix

/-- `storage_make_upload_path` into an array of `MAX_JOB_PATH` bytes. -/
def storageMakeUploadPath (cfg : RuntimeConfig) (job_id : Nat) (suffix : Bytes) : Option Bytes :=
  let path := jobFilePath (storageUploadsDir cfg) job_id suffix
  if path.length ≥ maxJobPath then none else some path

/-- `storage_make_result_path` into an array of `MAX_JOB_PATH` bytes. -/
def storageMakeResultPath (cfg : RuntimeConfig) (job_id : Nat) (suffix : Bytes) : Option Bytes :=
  let path := jobFilePath (storageResultsDir cfg) job_id suffix
  if path.length ≥ maxJobPath then none else some path

theorem jobFilePath_length {dir suffix : Bytes} {job_id : Nat} (hid : job_id < 2 ^ 64)
    (hdir : dir.length < cfgPathMax + 8) (hsuffix : suffix.length ≤ 4) :
    (jobFilePath dir job_id suffix).length < maxJobPath := by
  have hdigits : (decimal job_id).length ≤ 20 := decimal_small (by omega)
  have hjob : (lit "/job_").length = 5 := by decide
  have hdot : (lit ".").length = 1 := by decide
  have hmax : maxJobPath = 512 := rfl
  have hcfg : cfgPathMax = 256 := rfl
  simp only [jobFilePath, List.length_append, hjob, hdot]
  omega

theorem storageUploadsDir_length (cfg : RuntimeConfig) :
    (storageUploadsDir cfg).length < cfgPathMax + 8 := by
  have hroot := cfg.root_length
  have hdir : (lit "/uploads").length = 8 := by decide
  rw [storageUploadsDir, List.length_append]
  omega

theorem storageResultsDir_length (cfg : RuntimeConfig) :
    (storageResultsDir cfg).length < cfgPathMax + 8 := by
  have hroot := cfg.root_length
  have hdir : (lit "/results").length = 8 := by decide
  rw [storageResultsDir, List.length_append]
  omega

def uploadPath (cfg : RuntimeConfig) (job_id : Nat) (suffix : Bytes) : Bytes :=
  jobFilePath (storageUploadsDir cfg) job_id suffix

def resultPath (cfg : RuntimeConfig) (job_id : Nat) (suffix : Bytes) : Bytes :=
  jobFilePath (storageResultsDir cfg) job_id suffix

theorem storageMakeUploadPath_eq (cfg : RuntimeConfig) {job_id : Nat} {suffix : Bytes}
    (hid : job_id < 2 ^ 64) (hsuffix : suffix.length ≤ 4) :
    storageMakeUploadPath cfg job_id suffix = some (uploadPath cfg job_id suffix) := by
  have hlen := jobFilePath_length hid (storageUploadsDir_length cfg) hsuffix
  rw [storageMakeUploadPath, uploadPath, if_neg (by omega)]

theorem storageMakeResultPath_eq (cfg : RuntimeConfig) {job_id : Nat} {suffix : Bytes}
    (hid : job_id < 2 ^ 64) (hsuffix : suffix.length ≤ 4) :
    storageMakeResultPath cfg job_id suffix = some (resultPath cfg job_id suffix) := by
  have hlen := jobFilePath_length hid (storageResultsDir_length cfg) hsuffix
  rw [storageMakeResultPath, resultPath, if_neg (by omega)]

theorem jobFilePath_injective {dir suffix suffix' : Bytes} {id id' : Nat}
    (h : jobFilePath dir id suffix = jobFilePath dir id' suffix') :
    id = id' ∧ suffix = suffix' := by
  have hcut : ∀ (n : Nat) (s : Bytes), (decimal n ++ (lit "." ++ s)).takeWhile
    (fun b => 48 ≤ b.toNat) = decimal n := by
    intro n s
    rw [List.takeWhile_append_of_pos fun b hb => decide_eq_true (decimal_digit hb).1]
    simp [lit]
  have hrest : decimal id ++ (lit "." ++ suffix) = decimal id' ++ (lit "." ++ suffix') := by
    simp only [jobFilePath, List.append_assoc] at h
    exact List.append_cancel_left (List.append_cancel_left h)
  have hid : decimal id = decimal id' := by rw [← hcut id suffix, hrest, hcut]
  rw [hid] at hrest
  exact ⟨decimal_injective hid, List.append_cancel_left (List.append_cancel_left hrest)⟩

theorem uploadPath_ne_resultPath (cfg : RuntimeConfig) (id id' : Nat) (suffix suffix' : Bytes) :
    uploadPath cfg id suffix ≠ resultPath cfg id' suffix' := by
  intro h
  simp only [uploadPath, resultPath, jobFilePath, storageUploadsDir, storageResultsDir,
    List.append_assoc] at h
  have hdirs := List.append_cancel_left h
  simp [lit] at hdirs

end StegaPng
