import StegaPng.Ownership
import StegaPng.Worker

/-! The memory, the files and the libpng structures that `stego.c` and the processors of
`worker.c` acquire: on every path each is released once, but for the rows of an image out
of whose data libpng jumps. -/

namespace StegaPng

open Interleaving

namespace Heap

inductive Resource where
  | file
  | pngStruct
  | pngInfo
  | rows
  | row
  | container
  | payload
  | probe
  | buf
  | data
  deriving DecidableEq

abbrev Handle := Ownership.Handle Resource

/-- What libpng says of an image before its rows are read. -/
structure PngHeader where
  width : UInt32
  height : UInt32
  bit_depth : Nat
  color_type : Nat
  channels : Nat

abbrev PngRows (hdr : PngHeader) :=
  { rows : List Bytes // rows.length = hdr.height.toNat ∧ ∀ row ∈ rows,
    row.length = hdr.width.toNat * hdr.channels }

/-- The job that a worker does next; `fn` is the name to store, from the job or from the
path of its file. -/
inductive Work where
  | validate
  | capacity
  | encodeText
  | encodeFile (fn : Bytes)
  | decode

/-- What the code asks of the outside world. A call of libpng that answers `none` or `false`
has jumped back to the `setjmp`. -/
inductive Query where
  | work
  /-- The first 8 bytes of the file are there, and are PNG's. -/
  | signature
  /-- From `png_init_io` to the getters after `png_read_update_info`. -/
  | readInfo
  /-- `png_read_image` and `png_read_end`. -/
  | readImage (hdr : PngHeader)
  /-- From `png_init_io` to `png_write_end`. -/
  | writeImage (img : PngImageBuf)
  | fileSize
  | fread (size : Nat)
  | fwrite (data : Bytes)
  | fcloseOk
  /-- `storage_make_result_path`. -/
  | resultPath
  | cancelRequested

abbrev Reply : Query → Type
  | .work => Option Work
  | .signature => Bool
  | .readInfo => Option PngHeader
  | .readImage hdr => Option (PngRows hdr)
  | .writeImage _ => Bool
  | .fileSize => Option Nat
  | .fread _ => Bytes
  | .fwrite _ => Bool
  | .fcloseOk => Bool
  | .resultPath => Bool
  | .cancelRequested => Bool

/-- libpng jumps out of the image data over the array of rows and the rows. -/
def spill : (e : Query) → Reply e → Nat
  | .readImage hdr, none => hdr.height.toNat + 1
  | _, _ => 0

def Leaky : Resource → Prop
  | .rows => True
  | .row => True
  | _ => False

abbrev Task := Prog (Ownership.Op Resource Query) (Ownership.Answer Reply)

def acquire (kind : Resource) : Task (Option Handle) := .perform (Ownership.Op.acquire kind)

def release (h : Handle) : Task Unit := .perform (Ownership.Op.release h)

def ask (e : Query) : Task (Reply e) := .perform (Ownership.Op.call e)

def releaseAll : List Handle → Task Unit
  | [] => pure ()
  | h :: hs => do
    release h
    releaseAll hs

/-- `png_image_buf_t`, with the memory its rows are in. -/
structure Image where
  img : PngImageBuf
  rows : Handle
  row : List Handle

def pngImageBufFree (i : Image) : Task Unit := do
  releaseAll i.row
  release i.rows

/-- `png_destroy_read_struct` or `png_destroy_write_struct`, and `fclose`. -/
def destroy (fp png_ptr info_ptr : Handle) : Task Unit := do
  release info_ptr
  release png_ptr
  release fp

/-- The loop that allocates the rows; it stops at the first that is not there. -/
def mallocRows : Nat → List Handle → Task (List Handle × Bool)
  | 0, got => pure (got, true)
  | left + 1, got => do
    match ← acquire .row with
    | none => pure (got, false)
    | some row => mallocRows left (got ++ [row])

/-- `png_load_rgb_or_rgba`. -/
def pngLoadRgbOrRgba : Task (Except StegoStatus Image) := do
  match ← acquire .file with
  | none => pure (.error .errOpen)
  | some fp =>
    if !(← ask .signature) then
      release fp
      pure (.error .errNotPng)
    else
      match ← acquire .pngStruct with
      | none =>
        release fp
        pure (.error .errMemory)
      | some png_ptr =>
        match ← acquire .pngInfo with
        | none =>
          release png_ptr
          release fp
          pure (.error .errMemory)
        | some info_ptr =>
          match ← ask .readInfo with
          | none =>
            destroy fp png_ptr info_ptr
            pure (.error .errLibpng)
          | some hdr =>
            if h : hdr.bit_depth = 8 ∧ (hdr.channels = 3 ∨ hdr.channels = 4) then
              match ← acquire .rows with
              | none =>
                destroy fp png_ptr info_ptr
                pure (.error .errMemory)
              | some rows =>
                let (row, all) ← mallocRows hdr.height.toNat []
                if !all then
                  releaseAll row
                  release rows
                  destroy fp png_ptr info_ptr
                  pure (.error .errMemory)
                else
                  match ← ask (.readImage hdr) with
                  | none =>
                    -- `img->rows` is still NULL: the handler frees no row.
                    destroy fp png_ptr info_ptr
                    pure (.error .errLibpng)
                  | some pixels =>
                    destroy fp png_ptr info_ptr
                    pure (.ok ⟨⟨hdr.width, hdr.height, hdr.channels, pixels.val, h.2,
                      pixels.property.1,
                      pixels.property.2⟩, rows, row⟩)
            else
              destroy fp png_ptr info_ptr
              pure (.error .errUnsupported)

/-- `png_save_rgb_or_rgba`. -/
def pngSaveRgbOrRgba (img : PngImageBuf) : Task StegoStatus := do
  match ← acquire .file with
  | none => pure .errOpen
  | some fp =>
    match ← acquire .pngStruct with
    | none =>
      release fp
      pure .errMemory
    | some png_ptr =>
      match ← acquire .pngInfo with
      | none =>
        release png_ptr
        release fp
        pure .errMemory
      | some info_ptr =>
        let ok ← ask (.writeImage img)
        destroy fp png_ptr info_ptr
        pure (if ok then .ok else .errLibpng)

/-- `stego_get_capacity`. -/
def stegoGetCapacity : Task (Except StegoStatus StegoCapacity) := do
  match ← pngLoadRgbOrRgba with
  | .error rc => pure (.error rc)
  | .ok i =>
    pngImageBufFree i
    pure (.ok (capacityOf i.img))

def encodeCommon (type : StegoPayloadType) (filename : Option Bytes) (payload : Bytes) :
    Task StegoStatus := do
  match ← pngLoadRgbOrRgba with
  | .error rc => pure rc
  | .ok i =>
    match ← acquire .container with
    | none =>
      pngImageBufFree i
      pure .errMemory
    | some block =>
      let container := containerOf type filename payload
      let needed_bits := sizeT (container.length * 8)
      let avail_bits := imageDataBitCapacity i.img
      if needed_bits > avail_bits then
        release block
        pngImageBufFree i
        pure .errCapacity
      else
        release block
        let rc ← pngSaveRgbOrRgba (embedBits i.img container)
        pngImageBufFree i
        pure rc

def stegoEncodeText (text : Bytes) : Task StegoStatus := encodeCommon .text none text

/-- `stego_encode_file` once it has asked for its buffer. -/
def encodeFileContent (fn : Bytes) (fp : Handle) (size : Nat) (block : Option Handle) :
    Task StegoStatus := do
  if block.isNone && size > 0 then
    release fp
    pure .errMemory
  else
    let buf ← ask (.fread size)
    if size > 0 && buf.length != size then
      releaseAll block.toList
      release fp
      pure .errIo
    else
      release fp
      let rc ← encodeCommon .file (some fn) buf
      releaseAll block.toList
      pure rc

def stegoEncodeFile (fn : Bytes) : Task StegoStatus := do
  match ← acquire .file with
  | none => pure .errOpen
  | some fp =>
    match ← ask .fileSize with
    | none =>
      release fp
      pure .errIo
    | some size =>
      let block ← acquire .payload
      encodeFileContent fn fp size block

/-- `stego_decode`: the status, `*out`, and the memory of `out->data`. -/
def stegoDecode : Task (StegoStatus × StegoExtracted × Option Handle) := do
  match ← pngLoadRgbOrRgba with
  | .error rc => pure (rc, .zero, none)
  | .ok i =>
    let img := i.img
    let out := StegoExtracted.zero
    let avail_bytes := imageDataBitCapacity img / 8
    if avail_bytes < stegoHeaderMinLen then
      pngImageBufFree i
      pure (.errMagic, out, none)
    else
      let header := extractBits img 7
      if header.take stegoMagicLen ≠ stegoMagic then
        pngImageBufFree i
        pure (.errMagic, out, none)
      else
        match payloadTypeOf (header.getD 4 0) with
        | none =>
          pngImageBufFree i
          pure (.errMagic, out, none)
        | some type =>
          let fn_len := (readBe16 (header.drop 5)).toNat
          let total_needed := sizeT (7 + fn_len + 4)
          if total_needed > avail_bytes then
            pngImageBufFree i
            pure (.errMagic, out, none)
          else
            match ← acquire .probe with
            | none =>
              pngImageBufFree i
              pure (.errMemory, out, none)
            | some probe_block =>
              let probe := extractBits img total_needed
              let payload_len := (readBe32 (probe.drop (7 + fn_len))).toNat
              let container_len := sizeT (7 + fn_len + 4 + payload_len + 4)
              if container_len > avail_bytes then
                release probe_block
                pngImageBufFree i
                pure (.errMagic, out, none)
              else
                -- `realloc` keeps the old block when it fails, and frees it when it does not.
                match ← acquire .buf with
                | none =>
                  release probe_block
                  pngImageBufFree i
                  pure (.errMemory, out, none)
                | some buf_block =>
                  release probe_block
                  let buf := extractBits img container_len
                  pngImageBufFree i
                  let stored_crc := readBe32 (buf.drop (container_len - 4))
                  let calc_crc := stegoCrc32 (buf.take (container_len - 4))
                  if stored_crc ≠ calc_crc then
                    release buf_block
                    pure (.errCrc, out, none)
                  else
                    let copy := if fn_len < 256 - 1 then fn_len else 256 - 1
                    let out := { out with
                      type := type
                      filename := filenameArray (if fn_len > 0 then
                        (buf.drop 7).take copy else []) }
                    if payload_len > 0 then
                      match ← acquire .data with
                      | none =>
                        release buf_block
                        pure (.errMemory, out, none)
                      | some data_block =>
                        release buf_block
                        pure (.ok, { out with
                          data := some ((buf.drop (7 + fn_len + 4)).take payload_len)
                          data_len := payload_len }, some data_block)
                    else
                      release buf_block
                      pure (.ok, { out with data := none, data_len := payload_len }, none)

/-- `stego_extracted_free`. -/
def stegoExtractedFree (data : Option Handle) : Task Unit := releaseAll data.toList

/-- `png_read_metadata`. -/
def pngReadMetadata : Task (Option PngHeader) := do
  match ← acquire .file with
  | none => pure none
  | some fp =>
    if !(← ask .signature) then
      release fp
      pure none
    else
      match ← acquire .pngStruct with
      | none =>
        release fp
        pure none
      | some png_ptr =>
        match ← acquire .pngInfo with
        | none =>
          release png_ptr
          release fp
          pure none
        | some info_ptr =>
          let hdr ← ask .readInfo
          destroy fp png_ptr info_ptr
          pure hdr

/-- `read_text_file`. -/
def readTextFile (buf_size : Nat) : Task (Option Bytes) := do
  match ← acquire .file with
  | none => pure none
  | some fp =>
    let r ← ask (.fread (buf_size - 1))
    release fp
    pure (some r)

/-- `write_text_to_file` and `write_bin_to_file`. -/
def writeToFile (data : Bytes) : Task Bool := do
  match ← acquire .file with
  | none => pure false
  | some fp =>
    let written ← if data.length > 0 then ask (.fwrite data) else pure true
    let closed ← ask .fcloseOk
    release fp
    pure (written && closed)

def processEncodeTextJob : Task Unit := do
  if ← ask .resultPath then
    match ← readTextFile (maxTextBytes + 1) with
    | none => pure ()
    | some text =>
      if ← ask .cancelRequested then
        pure ()
      else
        let _ ← stegoEncodeText text
        pure ()
  else
    pure ()

def processEncodeFileJob (fn : Bytes) : Task Unit := do
  if ← ask .resultPath then
    if ← ask .cancelRequested then
      pure ()
    else
      let _ ← stegoEncodeFile fn
      pure ()
  else
    pure ()

def processDecodeJob : Task Unit := do
  if ← ask .cancelRequested then
    pure ()
  else
    let (rc, ex, data) ← stegoDecode
    if rc ≠ .ok then
      pure ()
    else if ← ask .resultPath then
      let _ ← writeToFile (ex.data.getD [])
      stegoExtractedFree data
    else
      stegoExtractedFree data

open Ownership

/-! What each function does with the resources. -/

theorem releases_pure : Releases spill (pure () : Task Unit) ∅ := fun _ => ⟨rfl, rfl⟩

theorem releases_all {hs : List Handle} (hnodup : hs.Nodup) :
    Releases spill (releaseAll hs) hs.toFinset := by
  induction hs with
  | nil => exact releases_pure
  | cons h hs ih =>
    obtain ⟨hout, hnodup⟩ := List.nodup_cons.mp hnodup
    rw [List.toFinset_cons, Finset.insert_eq]
    exact (releases_release h).seq (fun _ => ih hnodup)
      (Finset.disjoint_singleton_left.mpr (by simpa using hout))

theorem releases_destroy (i j k : Nat) :
    Releases spill (destroy (.file, i) (.pngStruct, j) (.pngInfo, k)) {(.pngInfo, k),
      (.pngStruct, j), (.file, i)} := by
  have hrest : Releases spill (do release (.pngStruct, j); release (.file, i) : Task Unit)
    ({(.pngStruct, j)} ∪ {(.file, i)}) :=
    (releases_release _).seq (fun _ => releases_release _) (by simp)
  exact (releases_release _).seq (fun _ => hrest) (by simp)

/-- What is left over at the end of a call: nothing, or the rows that libpng jumped over. -/
def Leaves (n : Nat) (held : Finset Handle) (n' : Nat) : Prop := n + held.card = n' ∧
    ∀ h ∈ held, Leaky h.1

theorem leaves_nothing (n : Nat) : Leaves n ∅ n := ⟨rfl, by simp⟩

def Image.handles (i : Image) : Finset Handle := insert i.rows i.row.toFinset

structure Image.Whole (i : Image) : Prop where
  rows : i.rows.1 = .rows
  row : ∀ h ∈ i.row, h.1 = .row
  nodup : i.row.Nodup

theorem leaky_image {rows : Handle} {row : List Handle} (hrows : rows.1 = .rows)
    (hrow : ∀ h ∈ row, h.1 = .row) :
    ∀ h ∈ insert rows row.toFinset, Leaky h.1 := by
  intro h hmem
  rcases Finset.mem_insert.mp hmem with rfl | hmem
  · rw [hrows]
    trivial
  · rw [hrow h (List.mem_toFinset.mp hmem)]
    trivial

theorem Image.Whole.free {i : Image} (h : i.Whole) :
    Releases spill (pngImageBufFree i) i.handles := by
  have hout : i.rows ∉ i.row.toFinset := by
    intro hmem
    have hrow := h.row _ (List.mem_toFinset.mp hmem)
    rw [h.rows] at hrow
    cases hrow
  rw [Image.handles, Finset.insert_eq, Finset.union_comm]
  exact (releases_all h.nodup).seq (fun _ => releases_release i.rows)
    (Finset.disjoint_singleton_right.mpr hout)

theorem mallocRows_accounts (left : Nat) (got : List Handle) (held : Finset Handle) (n : Nat)
    (hnodup : got.Nodup) (hgot : ∀ h ∈ got, h.1 = .row) :
    Accounts spill (fun r all n' => all = r.1.toFinset ∪ held ∧ n' = n ∧ r.1.Nodup ∧
      (∀ h ∈ r.1, h.1 = .row) ∧
      (r.2 = true → r.1.length = got.length + left)) (mallocRows left got)
        (got.toFinset ∪ held) n := by
  induction left generalizing got with
  | zero => exact ⟨rfl, rfl, hnodup, hgot, fun _ => rfl⟩
  | succ left ih =>
    refine accounts_acquire ⟨rfl, rfl, hnodup, hgot, fun hfalse => nomatch hfalse⟩ fun i hi => ?_
    have hnew : (.row, i) ∉ got :=
      fun hmem => hi (Finset.mem_union_left _ (List.mem_toFinset.mpr hmem))
    have hmore := ih (got ++ [(.row, i)]) (List.nodup_append.mpr ⟨hnodup, by simp, by grind⟩)
      (by grind)
    have hset : (got ++ [((.row, i) : Handle)]).toFinset ∪ held =
      insert (.row, i) (got.toFinset ∪ held) := by
      ext h
      simp only [List.toFinset_append, Finset.mem_union, List.mem_toFinset, List.mem_singleton,
        Finset.mem_insert]
      tauto
    rw [hset] at hmore
    refine hmore.mono fun r all n' hr => ?_
    obtain ⟨hall, hn, hr, hrow, hlength⟩ := hr
    exact ⟨hall, hn, hr, hrow,
      fun htrue => by simpa [Nat.add_comm, Nat.add_left_comm] using hlength htrue⟩

/-- What a load leaves: the memory of the image, or an error and what libpng jumped over. -/
def Loaded (n : Nat) : Except StegoStatus Image → Finset Handle → Nat → Prop
  | .ok i, held, n' => i.Whole ∧ held = i.handles ∧ n' = n
  | .error rc, held, n' => rc ≠ .ok ∧ Leaves n held n'

theorem loaded_error {n : Nat} {rc : StegoStatus} (hrc : rc ≠ .ok) : Loaded n (.error rc) ∅ n :=
  ⟨hrc, leaves_nothing n⟩

/-- A thread that releases all it holds ends with nothing. -/
theorem releases_last {α : Type} {p : Task Unit} {held : Finset Handle} {n : Nat} {a : α}
    {Q : α → Finset Handle → Nat → Prop} (hp : Releases spill p held) (hQ : Q a ∅ n) :
    Accounts spill Q (p >>= fun _ => pure a) held n :=
  hp.bind (Finset.union_empty held).symm (Finset.disjoint_empty_right held) fun _ => hQ

theorem releases_pair (i j : Nat) :
    Releases spill (do release (.pngStruct, j); release (.file, i) : Task Unit) {(.pngStruct, j),
      (.file, i)} :=
  (releases_release _).seq (fun _ => releases_release _) (by simp)

/-- Handles of different kinds are different. -/
theorem disjoint_kinds {s s' : Finset Handle} (P : Resource → Prop) (hs : ∀ h ∈ s, P h.1)
    (hs' : ∀ h ∈ s', ¬ P h.1) :
    Disjoint s s' :=
  Finset.disjoint_left.mpr fun h hmem hmem' => hs' h hmem' (hs h hmem)

theorem pngLoad_accounts (n : Nat) : Accounts spill (Loaded n) pngLoadRgbOrRgba ∅ n := by
  have hclose : ∀ {i j k : Nat} (rc : StegoStatus), rc ≠ .ok →
      Accounts spill (Loaded n) (destroy (.file, i) (.pngStruct, j) (.pngInfo, k) >>=
        fun _ => pure (.error rc))
        {(.pngInfo, k), (.pngStruct, j), (.file, i)} n :=
    fun _ hrc => releases_last (releases_destroy _ _ _) (loaded_error hrc)
  simp only [pngLoadRgbOrRgba, acquire, ask, Prog.perform_bind]
  refine accounts_acquire (loaded_error (by decide)) fun i _ => accounts_call fun signature => ?_
  cases signature with
  | false => exact releases_last (releases_release _) (loaded_error (by decide))
  | true =>
    refine accounts_acquire (releases_last (releases_release _) (loaded_error (by decide)))
      fun j _ => ?_
    refine accounts_acquire (releases_last (releases_pair i j) (loaded_error (by decide)))
      fun k _ => ?_
    refine accounts_call fun hdr => ?_
    cases hdr with
    | none => exact hclose _ (by decide)
    | some hdr =>
      dsimp only
      split
      · refine accounts_acquire (hclose _ (by decide)) fun l _ => ?_
        have hrows := mallocRows_accounts hdr.height.toNat [] {(.rows, l), (.pngInfo, k),
          (.pngStruct, j), (.file, i)} n
          List.nodup_nil (by simp)
        rw [List.toFinset_nil, Finset.empty_union] at hrows
        refine hrows.bind ?_
        rintro ⟨row, all⟩ held n' ⟨rfl, rfl, hnodup, hkinds, hlength⟩
        have hapart : Disjoint row.toFinset {(.rows, l), (.pngInfo, k), (.pngStruct, j),
          (.file, i)} :=
          disjoint_kinds (· = .row) (by simpa using hkinds) (by simp)
        cases all with
        | false =>
          refine (releases_all hnodup).bind rfl hapart fun _ => ?_
          exact (releases_release (.rows, l)).bind (Finset.insert_eq _ _) (by simp) fun _ =>
            hclose .errMemory (by decide)
        | true =>
          -- From here on the handles of libpng go, and those of the image stay.
          have hsplit : row.toFinset ∪ {(.rows, l), (.pngInfo, k), (.pngStruct, j), (.file, i)} =
              {(.pngInfo, k), (.pngStruct, j), (.file, i)} ∪ insert (.rows, l) row.toFinset := by
            ext h
            simp only [Finset.mem_union, Finset.mem_insert, Finset.mem_singleton]
            tauto
          have hkind : ∀ h ∈ insert ((.rows, l) : Handle) row.toFinset, Leaky h.1 :=
            leaky_image rfl hkinds
          have hsep : Disjoint {(.pngInfo, k), (.pngStruct, j),
            (.file, i)} (insert (.rows, l) row.toFinset) :=
            (disjoint_kinds Leaky hkind (by simp [Leaky])).symm
          have hout : ((.rows, l) : Handle) ∉ row.toFinset := by
            intro hmem
            cases hkinds _ (List.mem_toFinset.mp hmem)
          have hcard : (insert ((.rows, l) : Handle) row.toFinset).card = hdr.height.toNat + 1 := by
            rw [Finset.card_insert_of_notMem hout, List.toFinset_card_of_nodup hnodup, hlength rfl]
            simp
          refine accounts_call fun pixels => ?_
          cases pixels with
          | none =>
            refine (releases_destroy i j k).bind hsplit hsep fun _ => ⟨by decide, ?_, hkind⟩
            rw [hcard]
            rfl
          | some pixels =>
            exact (releases_destroy i j k).bind hsplit hsep fun _ =>
              ⟨⟨rfl, hkinds, hnodup⟩, rfl, rfl⟩
      · exact hclose _ (by decide)

theorem releases_pngSave (img : PngImageBuf) : Releases spill (pngSaveRgbOrRgba img) ∅ := by
  intro n
  simp only [pngSaveRgbOrRgba, acquire, ask, Prog.perform_bind]
  refine accounts_acquire ⟨rfl, rfl⟩ fun i _ => ?_
  refine accounts_acquire (releases_last (releases_release _) ⟨rfl, rfl⟩) fun j _ => ?_
  refine accounts_acquire (releases_last (releases_pair i j) ⟨rfl, rfl⟩) fun k _ => ?_
  exact accounts_call fun ok => releases_last (releases_destroy i j k) ⟨rfl, rfl⟩

theorem releases_pngReadMetadata : Releases spill pngReadMetadata ∅ := by
  intro n
  simp only [pngReadMetadata, acquire, ask, Prog.perform_bind]
  refine accounts_acquire ⟨rfl, rfl⟩ fun i _ => accounts_call fun signature => ?_
  cases signature with
  | false => exact releases_last (releases_release _) ⟨rfl, rfl⟩
  | true =>
    refine accounts_acquire (releases_last (releases_release _) ⟨rfl, rfl⟩) fun j _ => ?_
    refine accounts_acquire (releases_last (releases_pair i j) ⟨rfl, rfl⟩) fun k _ => ?_
    exact accounts_call fun hdr => releases_last (releases_destroy i j k) ⟨rfl, rfl⟩

theorem releases_readTextFile (buf_size : Nat) : Releases spill (readTextFile buf_size) ∅ := by
  intro n
  simp only [readTextFile, acquire, ask, Prog.perform_bind]
  refine accounts_acquire ⟨rfl, rfl⟩ fun i _ => ?_
  exact accounts_call fun r => releases_last (releases_release _) ⟨rfl, rfl⟩

theorem releases_writeToFile (data : Bytes) : Releases spill (writeToFile data) ∅ := by
  intro n
  simp only [writeToFile, acquire, ask, Prog.perform_bind]
  refine accounts_acquire ⟨rfl, rfl⟩ fun i _ => ?_
  dsimp only
  split
  · refine accounts_call fun written => accounts_call fun closed => ?_
    exact releases_last (releases_release _) ⟨rfl, rfl⟩
  · exact accounts_call fun closed => releases_last (releases_release _) ⟨rfl, rfl⟩

variable {α : Type}

theorem stegoGetCapacity_accounts (n : Nat) :
    Accounts spill (fun _ => Leaves n) stegoGetCapacity ∅ n := by
  refine (pngLoad_accounts n).bind fun r held n' hr => ?_
  cases r with
  | error rc => exact hr.2
  | ok i =>
    obtain ⟨hwhole, rfl, rfl⟩ := hr
    exact releases_last hwhole.free (leaves_nothing n')

theorem encodeCommon_accounts (type : StegoPayloadType) (filename : Option Bytes)
    (payload : Bytes) (n : Nat) :
    Accounts spill (fun _ => Leaves n) (encodeCommon type filename payload) ∅ n := by
  refine (pngLoad_accounts n).bind fun r held n' hr => ?_
  cases r with
  | error rc => exact hr.2
  | ok i =>
    obtain ⟨hwhole, rfl, rfl⟩ := hr
    refine accounts_acquire (releases_last hwhole.free (leaves_nothing n')) fun block hnew => ?_
    have hblock : ∀ {Q : StegoStatus → Finset Handle → Nat → Prop} {f : Unit → Task StegoStatus},
        Accounts spill Q (f ()) i.handles n' →
        Accounts spill Q
          (release (.container, block) >>= f) (insert (.container, block) i.handles) n' :=
      fun hf => (releases_release _).bind (Finset.insert_eq _ _)
        (Finset.disjoint_singleton_left.mpr hnew) fun _ => hf
    dsimp only
    split
    · exact hblock (releases_last hwhole.free (leaves_nothing n'))
    · refine hblock ((releases_pngSave _).bind (Finset.empty_union _).symm
        (Finset.disjoint_empty_left _) fun rc => ?_)
      exact releases_last hwhole.free (leaves_nothing n')

theorem encodeFileContent_accounts (fn : Bytes) (i size : Nat) (block : Option Handle)
    (hblock : ∀ h ∈ block, h.1 = .payload) (n : Nat) :
    Accounts spill (fun _ => Leaves n) (encodeFileContent fn (.file, i) size block)
      (block.toList.toFinset ∪ {(.file, i)}) n := by
  have hnodup : block.toList.Nodup := by cases block <;> simp
  have hkinds : ∀ h ∈ block.toList.toFinset, h.1 = .payload := by
    intro h hmem
    exact hblock h (by simpa using hmem)
  have hapart : Disjoint block.toList.toFinset {((.file, i) : Handle)} :=
    disjoint_kinds (· = .payload) hkinds (by simp)
  simp only [encodeFileContent, ask, Prog.perform_bind]
  split
  · next hnone =>
    obtain rfl : block = none := by
      cases block with
      | none => rfl
      | some h => simp at hnone
    exact releases_last (releases_release _) (leaves_nothing n)
  · refine accounts_call fun buf => ?_
    split
    · refine (releases_all hnodup).bind rfl hapart fun _ => ?_
      exact releases_last (releases_release _) (leaves_nothing n)
    · refine (releases_release ((.file, i) : Handle)).bind (Finset.union_comm _ _) hapart.symm
        fun _ => ?_
      refine (encodeCommon_accounts .file (some fn) buf n).bind_fresh fun rc own n' hown hsep => ?_
      exact (releases_all hnodup).bind (Finset.union_comm _ _) hsep.symm fun _ => hown

theorem stegoEncodeFile_accounts (fn : Bytes) (n : Nat) :
    Accounts spill (fun _ => Leaves n) (stegoEncodeFile fn) ∅ n := by
  refine accounts_acquire (leaves_nothing n) fun i _ => accounts_call fun size => ?_
  cases size with
  | none => exact releases_last (releases_release _) (leaves_nothing n)
  | some size =>
    refine accounts_acquire ?_ fun j _ => ?_
    · exact encodeFileContent_accounts fn i size none (by simp) n
    · exact encodeFileContent_accounts fn i size (some (.payload, j)) (by simp) n

/-- What a decode leaves: the memory of `out->data`, or an error and what libpng jumped
over; the values are those of `stego_decode`. -/
structure Decoded (n : Nat) (r : StegoStatus × StegoExtracted × Option Handle)
    (held : Finset Handle) (n' : Nat) : Prop where
  ok : r.1 = .ok → held = r.2.2.toList.toFinset ∧ n' = n
  error : r.1 ≠ .ok → Leaves n held n'
  values : ∃ malloc loaded, StegaPng.stegoDecode malloc loaded = (r.1, r.2.1)
  data : r.2.2.isSome = r.2.1.data.isSome

theorem decoded_error {n : Nat} {rc : StegoStatus} {out : StegoExtracted} (malloc : Malloc)
    (img : PngImageBuf) (hrc : rc ≠ .ok) (hdata : out.data = none)
    (hvalue : decodeImage malloc img = (rc, out)) : Decoded n (rc, out, none) ∅ n where
  ok h := absurd h hrc
  error _ := leaves_nothing n
  values := ⟨malloc, .ok img, hvalue⟩
  data := by simp [hdata]

/-- The heap refuses one request only. -/
def allBut (site : AllocSite) : Malloc := fun s _ => s != site

theorem stegoDecode_accounts (n : Nat) : Accounts spill (Decoded n) stegoDecode ∅ n := by
  refine (pngLoad_accounts n).bind fun r held n' hr => ?_
  cases r with
  | error rc =>
    exact ⟨fun h => absurd h hr.1, fun _ => hr.2, ⟨fun _ _ => true, .error rc, rfl⟩, rfl⟩
  | ok i =>
    obtain ⟨hwhole, rfl, rfl⟩ := hr
    have hfree : ∀ {rc : StegoStatus} {out : StegoExtracted}, Decoded n' (rc, out, none) ∅ n' →
        Accounts spill (Decoded n') (pngImageBufFree i >>=
          fun _ => pure (rc, out, none)) i.handles n' :=
      fun h => releases_last hwhole.free h
    have hmagicError : ∀ malloc : Malloc, decodeImage malloc i.img = (.errMagic, .zero) →
      Decoded n' (.errMagic, .zero, none) ∅ n' :=
      fun malloc hvalue => decoded_error malloc i.img (by decide) rfl hvalue
    have hmemoryError : ∀ (malloc : Malloc) {out : StegoExtracted}, out.data = none →
      decodeImage malloc i.img = (.errMemory, out) →
        Decoded n' (.errMemory, out, none) ∅ n' :=
      fun malloc _ hdata hvalue => decoded_error malloc i.img (by decide) hdata hvalue
    simp only [acquire, Prog.perform_bind]
    split
    · next hshort =>
      exact hfree
        (hmagicError (fun _ _ => true) (by simp only [decodeImage, if_pos hshort]))
    split
    · next hlong hmagic =>
      exact hfree
        (hmagicError (fun _ _ => true) (by simp only [decodeImage, if_neg hlong, if_pos hmagic]))
    split
    · next hlong hmagic _ htype =>
      exact hfree (hmagicError (fun _ _ => true)
        (by simp only [decodeImage, if_neg hlong, if_neg hmagic, htype]))
    split
    · next hlong hmagic _ type htype hname =>
      exact hfree (hmagicError (fun _ _ => true)
        (by simp only [decodeImage, if_neg hlong, if_neg hmagic, htype, if_pos hname]))
    next hlong hmagic _ type htype hname =>
    refine accounts_acquire (hfree (hmemoryError (fun _ _ => false) rfl ?_)) fun j hprobe => ?_
    · simp only [decodeImage, if_neg hlong, if_neg hmagic, htype, if_neg hname,
        Bool.not_false, if_true]
    have hdropProbe : ∀ {held : Finset Handle} {f : Unit →
      Task (StegoStatus × StegoExtracted × Option Handle)},
        (.probe, j) ∉ held → Accounts spill (Decoded n') (f ()) held n' →
        Accounts spill (Decoded n') (release (.probe, j) >>= f) (insert (.probe, j) held) n' :=
      fun hout hf => (releases_release _).bind (Finset.insert_eq _ _)
        (Finset.disjoint_singleton_left.mpr hout) fun _ => hf
    dsimp only
    split
    · next hlen =>
      refine hdropProbe hprobe (hfree (hmagicError (fun _ _ => true) ?_))
      simp only [decodeImage, if_neg hlong, if_neg hmagic, htype, if_neg hname, Bool.not_true,
        Bool.false_eq_true, if_false, if_pos hlen]
    next hlen =>
    refine accounts_acquire (hdropProbe hprobe (hfree (hmemoryError (allBut .buf) rfl ?_)))
      fun k hbuf => ?_
    · have hthere : ∀ m, allBut .buf .probe m = true := fun _ => rfl
      have hgone : ∀ m, allBut .buf .buf m = false := fun _ => rfl
      simp only [decodeImage, if_neg hlong, if_neg hmagic, htype, if_neg hname, hthere,
        Bool.not_true, Bool.false_eq_true, if_false, if_neg hlen, hgone, Bool.not_false, if_true]
    have hbuf' : ((.buf, k) : Handle) ∉ i.handles :=
      fun hmem => hbuf (Finset.mem_insert_of_mem hmem)
    have hprobe' : ((.probe, j) : Handle) ∉ insert (.buf, k) i.handles := by simpa using hprobe
    rw [Finset.insert_comm]
    refine hdropProbe hprobe' ?_
    refine hwhole.free.bind ((Finset.insert_eq _ _).trans (Finset.union_comm _ _))
      (Finset.disjoint_singleton_right.mpr hbuf') fun _ => ?_
    split
    · next hcrc =>
      refine releases_last (releases_release _)
        (decoded_error (fun _ _ => true) i.img (by decide) rfl ?_)
      simp only [decodeImage, if_neg hlong, if_neg hmagic, htype, if_neg hname, Bool.not_true,
        Bool.false_eq_true, if_false, if_neg hlen, if_pos hcrc]
    next hcrc =>
    split
    · next hdata =>
      refine accounts_acquire (releases_last (releases_release _)
        (hmemoryError (allBut .data) rfl ?_)) fun l hnew => ?_
      · have hprobeThere : ∀ m, allBut .data .probe m = true := fun _ => rfl
        have hbufThere : ∀ m, allBut .data .buf m = true := fun _ => rfl
        have hgone : ∀ m, allBut .data .data m = false := fun _ => rfl
        simp only [decodeImage, if_neg hlong, if_neg hmagic, htype, if_neg hname, hprobeThere,
          hbufThere, Bool.not_true, Bool.false_eq_true, if_false, if_neg hlen, if_neg hcrc,
            if_pos hdata, hgone, Bool.not_false, if_true]
      · refine (releases_release ((.buf, k) : Handle)).bind
          ((Finset.insert_eq _ _).trans (Finset.union_comm _ _)) (by simp) fun _ => ?_
        refine ⟨fun _ => ⟨by simp, rfl⟩, fun h => absurd rfl h,
          ⟨fun _ _ => true, .ok i.img, ?_⟩, rfl⟩
        simp only [StegaPng.stegoDecode, decodeImage, if_neg hlong, if_neg hmagic, htype,
          if_neg hname, Bool.not_true, Bool.false_eq_true, if_false, if_neg hlen, if_neg hcrc,
            if_pos hdata]
    · next hdata =>
      refine releases_last (releases_release _) ⟨fun _ => ⟨by simp, rfl⟩, fun h => absurd rfl h,
        ⟨fun _ _ => true, .ok i.img, ?_⟩, rfl⟩
      simp only [StegaPng.stegoDecode, decodeImage, if_neg hlong, if_neg hmagic, htype,
        if_neg hname, Bool.not_true, Bool.false_eq_true, if_false, if_neg hlen, if_neg hcrc,
          if_neg hdata]

/-! The jobs of a worker, one after the other. -/

/-- `worker_main`, as far as it holds resources. -/
def workerTurn : Task (Option Unit) := do
  match ← ask .work with
  | none => pure none
  | some .validate =>
    let _ ← pngReadMetadata
    pure (some ())
  | some .capacity =>
    let _ ← stegoGetCapacity
    pure (some ())
  | some .encodeText =>
    processEncodeTextJob
    pure (some ())
  | some (.encodeFile fn) =>
    processEncodeFileJob fn
    pure (some ())
  | some .decode =>
    processDecodeJob
    pure (some ())

theorem processEncodeTextJob_accounts (n : Nat) :
    Accounts spill (fun _ => Leaves n) processEncodeTextJob ∅ n := by
  simp only [processEncodeTextJob, ask, Prog.perform_bind]
  refine accounts_call fun path => ?_
  cases path with
  | false => exact leaves_nothing n
  | true =>
    refine (releases_readTextFile _ |>.bind (Finset.empty_union _).symm
      (Finset.disjoint_empty_left _)) fun text => ?_
    cases text with
    | none => exact leaves_nothing n
    | some text =>
      refine accounts_call fun canceled => ?_
      cases canceled with
      | true => exact leaves_nothing n
      | false => exact (encodeCommon_accounts .text none text n).bind fun rc held n' h => h

theorem processEncodeFileJob_accounts (fn : Bytes) (n : Nat) :
    Accounts spill (fun _ => Leaves n) (processEncodeFileJob fn) ∅ n := by
  simp only [processEncodeFileJob, ask, Prog.perform_bind]
  refine accounts_call fun path => ?_
  cases path with
  | false => exact leaves_nothing n
  | true =>
    refine accounts_call fun canceled => ?_
    cases canceled with
    | true => exact leaves_nothing n
    | false => exact (stegoEncodeFile_accounts fn n).bind fun rc held n' h => h

theorem processDecodeJob_accounts (n : Nat) :
    Accounts spill (fun _ => Leaves n) processDecodeJob ∅ n := by
  simp only [processDecodeJob, ask, Prog.perform_bind]
  refine accounts_call fun canceled => ?_
  cases canceled with
  | true => exact leaves_nothing n
  | false =>
    refine (stegoDecode_accounts n).bind ?_
    rintro ⟨rc, ex, data⟩ held n' hdecoded
    dsimp only
    split
    · next hrc => exact hdecoded.error hrc
    next hrc =>
    obtain ⟨rfl, rfl⟩ := hdecoded.ok (not_not.mp hrc)
    have hfree : Releases spill (stegoExtractedFree data) data.toList.toFinset :=
      releases_all (by cases data <;> simp)
    refine accounts_call fun path => ?_
    cases path with
    | false => exact (hfree n').mono fun _ held n h => h.1 ▸ h.2 ▸ leaves_nothing n
    | true =>
      refine (releases_writeToFile _ |>.bind (Finset.empty_union _).symm
        (Finset.disjoint_empty_left _)) fun wr => ?_
      exact (hfree n').mono fun _ held n h => h.1 ▸ h.2 ▸ leaves_nothing n

theorem workerTurn_accounts (n : Nat) : Accounts spill (fun _ => Leaves n) workerTurn ∅ n := by
  simp only [workerTurn, ask, Prog.perform_bind]
  refine accounts_call fun work => ?_
  have hnothing : ∀ {α : Type} {p : Task α}, Releases spill p ∅ →
    Accounts spill (fun _ => Leaves n) (p >>= fun _ => pure (some ())) ∅ n :=
    fun hp => hp.bind (Finset.union_empty _).symm (Finset.disjoint_empty_left _) fun _ =>
      leaves_nothing n
  have hleaves : ∀ {α : Type} {p : Task α}, Accounts spill (fun _ => Leaves n) p ∅ n →
      Accounts spill (fun _ => Leaves n) (p >>= fun _ => pure (some ())) ∅ n :=
    fun hp => hp.bind fun _ _ _ h => h
  cases work with
  | none => exact leaves_nothing n
  | some work =>
    cases work with
    | validate => exact hnothing releases_pngReadMetadata
    | capacity => exact hleaves (stegoGetCapacity_accounts n)
    | encodeText => exact hleaves (processEncodeTextJob_accounts n)
    | encodeFile fn => exact hleaves (processEncodeFileJob_accounts fn n)
    | decode => exact hleaves (processDecodeJob_accounts n)

end Heap

open Heap

variable {T : Type} [DecidableEq T]

abbrev HeapConfig (T : Type) := Config (Ownership.Op Resource Query) (Ownership.Answer Heap.Reply) T
    (Ownership.State T Resource) Unit

/-- The configurations that worker threads reach, whatever jobs they are given. -/
def HeapReachable (c : HeapConfig T) : Prop :=
  Config.Reachable (Ownership.machine spill) (fun _ _ => Heap.workerTurn)
    (Ownership.start (fun _ _ => Heap.workerTurn) fun _ => some ()) c

/-- Whatever a worker closes or frees it has open or allocated, no two workers have the
same file, structure or block, and what is left over when a job ends are blocks of rows
only, `height + 1` for each image out of whose data libpng has jumped. -/
theorem stego_resources_balanced {c : HeapConfig T} (h : HeapReachable c) :
    (∀ t u, t ≠ u → Disjoint (c.state.held t) (c.state.held u)) ∧
      (∀ t h k, c.thread t = some (.op (.release h) k) → h ∈ c.state.held t) ∧
      ∀ t, (c.thread t = none ∨ ∃ b, c.thread t = some (.ret b)) →
        Ownership.Balanced Leaky t c.state := by
  obtain ⟨hinv, hreleases, hbalanced⟩ :=
    Ownership.reachable_balanced (fun _ _ n => workerTurn_accounts n) h
  exact ⟨hinv.held, hreleases, hbalanced⟩

theorem HeapReachable.op {c : HeapConfig T} (h : HeapReachable c) {t : T}
    {o : Ownership.Op Resource Query} {k : Ownership.Answer Heap.Reply o → Heap.Task (Option Unit)}
    {s : Ownership.State T Resource} (ht : c.thread t = some (.op o k))
    (a : Ownership.Answer Heap.Reply o) (hs : Ownership.effect spill t o c.state a s) :
    HeapReachable (c.put t (some (k a)) s) :=
  Relation.ReflTransGen.tail h (.op ht hs)

/-- libpng jumps out of the data of an image of one pixel. -/
theorem reachable_jumped :
    ∃ c : HeapConfig Unit, HeapReachable c ∧ c.thread () = some (.ret (some ())) ∧
      c.state.spilled () = 2 := by
  have hnew : ∀ {s : Ownership.State Unit Resource} {h : Heap.Handle}, h ∉ s.held () ∧
    h ∉ s.lost () → ¬ s.Used h := by
    rintro s h ⟨hheld, hlost⟩ ⟨⟨⟩, hin | hin⟩
    · exact hheld hin
    · exact hlost hin
  have start : HeapReachable (Ownership.start (fun (_ : Unit) _ => Heap.workerTurn) fun _ =>
    some ()) := .refl
  have asked := start.op (t := ()) rfl (some .capacity) rfl
  have opened := asked.op (t := ()) rfl (some (.file, 0)) ⟨rfl, hnew (by decide), rfl⟩
  have checked := opened.op (t := ()) rfl true rfl
  have created := checked.op (t := ()) rfl (some (.pngStruct, 0)) ⟨rfl, hnew (by decide), rfl⟩
  have ready := created.op (t := ()) rfl (some (.pngInfo, 0)) ⟨rfl, hnew (by decide), rfl⟩
  have header := ready.op (t := ()) rfl (some ⟨1, 1, 8, 2, 3⟩) rfl
  have rows := header.op (t := ()) rfl (some (.rows, 0)) ⟨rfl, hnew (by decide), rfl⟩
  have row := rows.op (t := ()) rfl (some (.row, 0)) ⟨rfl, hnew (by decide), rfl⟩
  have jumped := row.op (t := ()) rfl none rfl
  have closed := ((jumped.op (t := ()) rfl () ⟨by decide, rfl⟩).op (t := ()) rfl ()
    ⟨by decide, rfl⟩).op (t := ()) rfl ()
    ⟨by decide, rfl⟩
  exact ⟨_, closed, rfl, rfl⟩

theorem stego_resources_balanced_jumped :
    ∃ c : HeapConfig Unit, HeapReachable c ∧ (c.state.held ()).card + (c.state.lost ()).card = 2 ∧
      ∀ h ∈ c.state.held () ∪ c.state.lost (), Leaky h.1 := by
  obtain ⟨c, hreach, hdone, hspilled⟩ := reachable_jumped
  have hbalanced := (stego_resources_balanced hreach).2.2 () (.inr ⟨_, hdone⟩)
  exact ⟨c, hreach, hspilled ▸ hbalanced.count, hbalanced.kinds⟩

end StegaPng
