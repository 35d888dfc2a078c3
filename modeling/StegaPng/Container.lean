import StegaPng.CText
import StegaPng.ReflectedCrc

/-! The container hidden in an image: its checksum, its layout, and the
decoder that validates it (`stego.c`). -/

namespace StegaPng

open BitPacking ReflectedCrc

inductive StegoPayloadType where
  | text
  | file
  deriving DecidableEq, Repr

inductive StegoStatus where
  | ok
  | errOpen
  | errNotPng
  | errUnsupported
  | errMemory
  | errCapacity
  | errLibpng
  | errMagic
  | errCrc
  | errIo
  | errArg
  deriving DecidableEq, Repr

def stegoStrerror : StegoStatus → Bytes
  | .ok => lit "ok"
  | .errOpen => lit "cannot open file"
  | .errNotPng => lit "not a valid PNG"
  | .errUnsupported => lit "unsupported PNG format"
  | .errMemory => lit "memory allocation failed"
  | .errCapacity => lit "payload exceeds image capacity"
  | .errLibpng => lit "libpng internal error"
  | .errMagic => lit "no steganography payload found"
  | .errCrc => lit "payload integrity check failed"
  | .errIo => lit "I/O error"
  | .errArg => lit "invalid argument"

def stegoMagic : Bytes := lit "STG1"
def stegoMagicLen : Nat := 4
def stegoHeaderMinLen : Nat := 15

def StegoPayloadType.code : StegoPayloadType → UInt8
  | .text => 0
  | .file => 1

/-- The type byte a decoder accepts. -/
def payloadTypeOf (type_byte : UInt8) : Option StegoPayloadType :=
  if type_byte = StegoPayloadType.text.code then some .text
  else if type_byte = StegoPayloadType.file.code then some .file
  else none

/-! `crc32_build_table` and `stego_crc32`. The table is filled once, before its
first use. -/

def crc32Polynomial : UInt32 := 0xEDB88320

def crc32Table : List UInt32 :=
  (List.range 256).map fun i => tableEntry crc32Polynomial (UInt32.ofNat i)

def stegoCrc32 (data : Bytes) : UInt32 :=
  let c := data.foldl
    (fun c b => crc32Table.getD ((c ^^^ b.toUInt32) &&& (0xFF : UInt32)).toNat 0 ^^^
      (c >>> 8)) 0xFFFFFFFF
  c ^^^ 0xFFFFFFFF

def writeBe32 (v : UInt32) : Bytes :=
  [(v >>> 24).toUInt8, (v >>> 16).toUInt8, (v >>> 8).toUInt8, v.toUInt8]

def readBe32 (src : Bytes) : UInt32 :=
  ((src.getD 0 0).toUInt32 <<< 24) ||| ((src.getD 1 0).toUInt32 <<< 16) |||
    ((src.getD 2 0).toUInt32 <<< 8) ||| (src.getD 3 0).toUInt32

def writeBe16 (v : UInt16) : Bytes := [(v >>> 8).toUInt8, v.toUInt8]

def readBe16 (src : Bytes) : UInt16 :=
  ((src.getD 0 0).toUInt16 <<< 8) ||| (src.getD 1 0).toUInt16

/-! `malloc` is the outside world's answer: for each call site and requested
size, whether the memory is there. -/

inductive AllocSite where
  | container
  | probe
  | buf
  | data
  | file
  deriving DecidableEq

abbrev Malloc := AllocSite → Nat → Bool

def storedNameLen (type : StegoPayloadType) (filename : Option Bytes) : Nat :=
  match type, filename with
  | .file, some f =>
    let fn_len := (cstr f).length
    if fn_len > 255 then 255 else fn_len
  | _, _ => 0

/-- The container up to its checksum. -/
def containerBody (type : StegoPayloadType) (filename : Option Bytes) (payload : Bytes) : Bytes :=
  let fn_len := storedNameLen type filename
  stegoMagic ++ [type.code] ++ writeBe16 (UInt16.ofNat fn_len) ++ (filename.getD []).take fn_len ++
    writeBe32 (UInt32.ofNat payload.length) ++ payload

def buildContainer (malloc : Malloc) (type : StegoPayloadType) (filename : Option Bytes)
    (payload : Bytes) : Option Bytes :=
  let total := sizeT (4 + 1 + 2 + storedNameLen type filename + 4 + payload.length + 4)
  if malloc .container total then
    let buf := containerBody type filename payload
    some (buf ++ writeBe32 (stegoCrc32 buf))
  else none

/-- `encode_common` between the load of the carrier and the save of the result. -/
def encodeImage (malloc : Malloc) (img : PngImageBuf) (type : StegoPayloadType)
    (filename : Option Bytes) (payload : Bytes) : Except StegoStatus PngImageBuf :=
  match buildContainer malloc type filename payload with
  | none => .error .errMemory
  | some container =>
    let needed_bits := sizeT (container.length * 8)
    let avail_bits := imageDataBitCapacity img
    if needed_bits > avail_bits then .error .errCapacity else .ok (embedBits img container)

/-- `stego_extracted_t`: the name is a 256-byte array, `data` is NULL when empty. -/
structure StegoExtracted where
  type : StegoPayloadType
  filename : Bytes
  data : Option Bytes
  data_len : Nat
  deriving DecidableEq

def StegoExtracted.zero : StegoExtracted where
  type := .text
  filename := List.replicate 256 0
  data := none
  data_len := 0

/-- The filename array after the copy of `name` (at most 255 bytes) and its NUL. -/
def filenameArray (name : Bytes) : Bytes := name ++ List.replicate (256 - name.length) 0

/-- `stego_decode` after the load of the image: the status it returns and `*out`. -/
def decodeImage (malloc : Malloc) (img : PngImageBuf) : StegoStatus × StegoExtracted :=
  let out := StegoExtracted.zero
  let avail_bytes := imageDataBitCapacity img / 8
  if avail_bytes < stegoHeaderMinLen then (.errMagic, out) else
  let header := extractBits img 7
  if header.take stegoMagicLen ≠ stegoMagic then (.errMagic, out) else
  match payloadTypeOf (header.getD 4 0) with
  | none => (.errMagic, out)
  | some type =>
    let fn_len := (readBe16 (header.drop 5)).toNat
    let total_needed := sizeT (7 + fn_len + 4)
    if total_needed > avail_bytes then (.errMagic, out) else
    if !malloc .probe total_needed then (.errMemory, out) else
    let probe := extractBits img total_needed
    let payload_len := (readBe32 (probe.drop (7 + fn_len))).toNat
    let container_len := sizeT (7 + fn_len + 4 + payload_len + 4)
    if container_len > avail_bytes then (.errMagic, out) else
    if !malloc .buf container_len then (.errMemory, out) else
    let buf := extractBits img container_len
    let stored_crc := readBe32 (buf.drop (container_len - 4))
    let calc_crc := stegoCrc32 (buf.take (container_len - 4))
    if stored_crc ≠ calc_crc then (.errCrc, out) else
    let copy := if fn_len < 256 - 1 then fn_len else 256 - 1
    let out := { out with
      type := type
      filename := filenameArray (if fn_len > 0 then (buf.drop 7).take copy else []) }
    if payload_len > 0 then
      if !malloc .data payload_len then (.errMemory, out)
      else (.ok, { out with
        data := some ((buf.drop (7 + fn_len + 4)).take payload_len)
        data_len := payload_len })
    else (.ok, { out with data := none, data_len := payload_len })

/-! Reading back what was written. -/

theorem testBit_beyond {n w : Nat} (hn : n < 2 ^ w) {i : Nat} (hi : w ≤ i) :
    n.testBit i = false :=
  Nat.testBit_lt_two_pow (lt_of_lt_of_le hn (Nat.pow_le_pow_right (by decide) hi))

theorem readBe32_writeBe32 (v : UInt32) (rest : Bytes) : readBe32 (writeBe32 v ++ rest) = v := by
  apply UInt32.toNat_inj.mp
  apply Nat.eq_of_testBit_eq
  intro i
  by_cases hi : i < 32
  · have h24 : (24 : UInt32).toNat % 32 = 24 := rfl
    have h16 : (16 : UInt32).toNat % 32 = 16 := rfl
    have h8 : (8 : UInt32).toNat % 32 = 8 := rfl
    simp only [readBe32, writeBe32, List.cons_append, List.getD_cons_zero, List.getD_cons_succ,
      UInt32.toNat_or, UInt32.toNat_shiftLeft, UInt8.toNat_toUInt32, UInt32.toNat_toUInt8,
      UInt32.toNat_shiftRight, Nat.testBit_or, Nat.testBit_mod_two_pow, Nat.testBit_shiftLeft,
      Nat.testBit_shiftRight, h24, h16, h8, hi]
    grind
  · rw [testBit_beyond (UInt32.toNat_lt _) (Nat.le_of_not_lt hi),
      testBit_beyond (UInt32.toNat_lt _) (Nat.le_of_not_lt hi)]

theorem readBe16_writeBe16 (v : UInt16) (rest : Bytes) : readBe16 (writeBe16 v ++ rest) = v := by
  apply UInt16.toNat_inj.mp
  apply Nat.eq_of_testBit_eq
  intro i
  by_cases hi : i < 16
  · have h8 : (8 : UInt16).toNat % 16 = 8 := rfl
    simp only [readBe16, writeBe16, List.cons_append, List.getD_cons_zero, List.getD_cons_succ,
      UInt16.toNat_or, UInt16.toNat_shiftLeft, UInt8.toNat_toUInt16, UInt16.toNat_toUInt8,
      UInt16.toNat_shiftRight, Nat.testBit_or, Nat.testBit_mod_two_pow, Nat.testBit_shiftLeft,
      Nat.testBit_shiftRight, h8, hi]
    grind
  · rw [testBit_beyond (UInt16.toNat_lt _) (Nat.le_of_not_lt hi),
      testBit_beyond (UInt16.toNat_lt _) (Nat.le_of_not_lt hi)]

@[simp] theorem length_writeBe32 (v : UInt32) : (writeBe32 v).length = 4 := rfl

@[simp] theorem length_writeBe16 (v : UInt16) : (writeBe16 v).length = 2 := rfl

theorem storedNameLen_le (type : StegoPayloadType) (filename : Option Bytes) :
    storedNameLen type filename ≤ 255 ∧ storedNameLen type filename ≤
      (filename.getD []).length := by
  unfold storedNameLen
  split
  · next f =>
    have := cstr_length_le f
    simp only [Option.getD_some]
    split <;> omega
  · simp

end StegaPng
