import StegaPng.AccessLog
import StegaPng.Decoder

/-! Every index the decoder computes, on any image. -/

namespace StegaPng

open BitPacking AccessLog

/-- The objects that `stego_decode` and `extract_bits` index. -/
inductive DecodeObject where
  | rows
  | row
  | header
  | probe
  | buf
  | filename
  | data
  deriving DecidableEq

inductive DecodeEvent where
  /-- Entries `start`, ..., `start + count - 1` of an object of `size` entries. -/
  | touch (object : DecodeObject) (size start count : Nat)
  /-- A `size_t` computation, by its exact value. -/
  | computed (exact : Nat)
  /-- An extraction of `len_bytes` bytes from `data_bits` data bits that placed `placed` bits. -/
  | filled (len_bytes data_bits placed : Nat)

def DecodeEvent.Safe : DecodeEvent → Prop
  | .touch _ size start count => start + count ≤ size
  | .computed exact => exact < 2 ^ 64
  | .filled len_bytes data_bits placed => len_bytes * 8 ≤ data_bits ∧ placed = len_bytes * 8

/-- The inner loop of `extract_bits` on `row`, `row_len` bytes long, from column `x` on. -/
def extractRowLogged (object : DecodeObject) (size channels total row_len : Nat) :
    Nat → Nat → Bytes → Bytes → Logged DecodeEvent (Bytes × Nat)
  | _, bit_index, buf, [] => pure (buf, bit_index)
  | x, bit_index, buf, px :: row =>
    if bit_index < total then
      if isDataChannel channels (intOfSize x) then do
        note (.touch .row row_len x 1)
        note (.touch object size (bit_index / 8) 1)
        extractRowLogged object size channels total row_len (x + 1)
          (bit_index + 1) (orBit buf bit_index (px &&& 1)) row
      else extractRowLogged object size channels total row_len (x + 1) bit_index buf row
    else pure (buf, bit_index)

/-- The outer loop, from row `y` on. -/
def extractRowsLogged (object : DecodeObject) (size : Nat) (img : PngImageBuf) (total : Nat) :
    Nat → Nat → Bytes → List Bytes → Logged DecodeEvent (Bytes × Nat)
  | _, bit_index, buf, [] => pure (buf, bit_index)
  | y, bit_index, buf, row :: rows =>
    if bit_index < total then do
      note (.touch .rows img.height.toNat y 1)
      note (.computed (img.width.toNat * img.channels))
      let r ← extractRowLogged object size img.channels total
        (img.width.toNat * img.channels) 0 bit_index buf row
      extractRowsLogged object size img total (y + 1) r.2 r.1 rows
    else pure (buf, bit_index)

/-- `extract_bits` of `len_bytes` bytes into an object of `size` bytes. -/
def extractBitsLogged (object : DecodeObject) (size : Nat) (img : PngImageBuf) (len_bytes : Nat) :
    Logged DecodeEvent Bytes := do
  note (.touch object size 0 len_bytes)
  note (.computed (len_bytes * 8))
  let r ← extractRowsLogged object size img (sizeT (len_bytes * 8)) 0 0
    (List.replicate len_bytes 0) img.rows
  note (.filled len_bytes (imageDataBitCapacity img) r.2)
  return r.1

/-- The copy of the name, and of its end, out of the container. -/
def copyFilenameLogged (fn_len container_len : Nat) : Logged DecodeEvent Unit :=
  let copy := if fn_len < 256 - 1 then fn_len else 256 - 1
  if fn_len > 0 then do
    note (.touch .buf container_len 7 copy)
    note (.touch .filename 256 0 copy)
    note (.touch .filename 256 copy 1)
  else note (.touch .filename 256 0 1)

/-- `decodeImage`, with what it touches. -/
def decodeImageLogged (malloc : Malloc) (img : PngImageBuf) :
    Logged DecodeEvent (StegoStatus × StegoExtracted) := do
  let out := StegoExtracted.zero
  let avail_bytes := imageDataBitCapacity img / 8
  if avail_bytes < stegoHeaderMinLen then
    return (.errMagic, out)
  let header ← extractBitsLogged .header 7 img 7
  note (.touch .header 7 0 stegoMagicLen)
  if header.take stegoMagicLen ≠ stegoMagic then
    return (.errMagic, out)
  note (.touch .header 7 4 1)
  match payloadTypeOf (header.getD 4 0) with
  | none => return (.errMagic, out)
  | some type =>
    note (.touch .header 7 5 2)
    let fn_len := (readBe16 (header.drop 5)).toNat
    note (.computed (7 + fn_len + 4))
    let total_needed := sizeT (7 + fn_len + 4)
    if total_needed > avail_bytes then
      return (.errMagic, out)
    if !malloc .probe total_needed then
      return (.errMemory, out)
    let probe ← extractBitsLogged .probe total_needed img total_needed
    note (.touch .probe total_needed (7 + fn_len) 4)
    let payload_len := (readBe32 (probe.drop (7 + fn_len))).toNat
    note (.computed (7 + fn_len + 4 + payload_len + 4))
    let container_len := sizeT (7 + fn_len + 4 + payload_len + 4)
    if container_len > avail_bytes then
      return (.errMagic, out)
    if !malloc .buf container_len then
      return (.errMemory, out)
    let buf ← extractBitsLogged .buf container_len img container_len
    note (.touch .buf container_len (container_len - 4) 4)
    let stored_crc := readBe32 (buf.drop (container_len - 4))
    note (.touch .buf container_len 0 (container_len - 4))
    let calc_crc := stegoCrc32 (buf.take (container_len - 4))
    if stored_crc ≠ calc_crc then
      return (.errCrc, out)
    copyFilenameLogged fn_len container_len
    let copy := if fn_len < 256 - 1 then fn_len else 256 - 1
    let out := { out with
      type := type
      filename := filenameArray (if fn_len > 0 then (buf.drop 7).take copy else []) }
    if payload_len > 0 then
      if !malloc .data payload_len then
        return (.errMemory, out)
      note (.touch .buf container_len (7 + fn_len + 4) payload_len)
      note (.touch .data payload_len 0 payload_len)
      return (.ok, { out with
        data := some ((buf.drop (7 + fn_len + 4)).take payload_len)
        data_len := payload_len })
    else
      return (.ok, { out with data := none, data_len := payload_len })

section

variable {object : DecodeObject} {size : Nat} {img : PngImageBuf}

theorem extractRowLogged_safe {channels total row_len x bit_index : Nat} {buf row : Bytes}
    (hrow : x + row.length = row_len) (htotal : total ≤ size * 8) :
    Logs DecodeEvent.Safe (extractRowLogged object size channels total row_len x bit_index buf row)
      (extractRow channels total x bit_index buf row) := by
  induction row generalizing x bit_index buf with
  | nil => exact .pure _
  | cons px row ih =>
    rw [List.length_cons] at hrow
    have hnext : x + 1 + row.length = row_len := by omega
    rw [extractRowLogged, extractRow]
    refine .ite (fun hb => .ite (fun hdata => ?_) fun _ => ih hnext) fun _ => .pure _
    have hcolumn : (DecodeEvent.touch .row row_len x 1).Safe := by
      change x + 1 ≤ row_len
      omega
    have hbyte : (DecodeEvent.touch object size (bit_index / 8) 1).Safe := by
      change bit_index / 8 + 1 ≤ size
      omega
    exact .cons hcolumn (.cons hbyte (ih hnext))

theorem extractRowsLogged_safe {total y bit_index : Nat} {buf : Bytes} {rows : List Bytes}
    (hrows : ∀ row ∈ rows, row.length = img.width.toNat * img.channels)
    (hy : y + rows.length = img.height.toNat) (htotal : total ≤ size * 8)
    (hindex : bit_index ≤ total) :
    Logs DecodeEvent.Safe (extractRowsLogged object size img total y bit_index buf rows)
      (extractRows img.channels total bit_index buf rows,
        min total (bit_index + (rowsCarriers img.channels rows).length)) := by
  induction rows generalizing y bit_index buf with
  | nil =>
    have hend : min total (bit_index + 0) = bit_index := by omega
    simp only [extractRowsLogged, extractRows, rowsCarriers, List.flatMap_nil,
      List.length_nil, hend]
    exact .pure _
  | cons row rows ih =>
    rw [List.length_cons] at hy
    rw [extractRowsLogged, extractRows]
    by_cases hb : bit_index < total
    · rw [if_pos hb, if_pos hb]
      have hrow : 0 + row.length = img.width.toNat * img.channels := by
        rw [Nat.zero_add, hrows row List.mem_cons_self]
      have hread := extractRow_eq img.channels 0 buf row hindex
      have hpointer : (DecodeEvent.touch .rows img.height.toNat y 1).Safe := by
        change y + 1 ≤ img.height.toNat
        omega
      have hwidth : (DecodeEvent.computed (img.width.toNat * img.channels)).Safe := by
        have hlt := img.width.toNat_lt
        change img.width.toNat * img.channels < 2 ^ 64
        rcases img.channels_eq with hc | hc <;> rw [hc] <;> omega
      have hrest := @ih (y + 1) (extractRow img.channels total 0 bit_index buf row).2
        (extractRow img.channels total 0 bit_index buf row).1
        (fun r hr => hrows r (List.mem_cons_of_mem _ hr)) (by omega)
          (by rw [hread]; exact Nat.min_le_left _ _)
      have hend : min total ((extractRow img.channels total 0 bit_index buf row).2 +
            (rowsCarriers img.channels rows).length) =
          min total (bit_index + (rowsCarriers img.channels (row :: rows)).length) := by
        rw [hread, rowsCarriers, rowsCarriers, List.flatMap_cons, List.length_append]
        omega
      rw [hend] at hrest
      exact .cons hpointer (.cons hwidth ((extractRowLogged_safe hrow htotal).bind hrest))
    · rw [if_neg hb, if_neg hb]
      have hend : min total (bit_index + (rowsCarriers img.channels (row :: rows)).length) =
        bit_index := by omega
      rw [hend]
      exact .pure _

theorem extractBitsLogged_safe {len_bytes : Nat} (hsize : len_bytes ≤ size)
    (hcap : len_bytes ≤ imageDataBitCapacity img / 8) :
    Logs DecodeEvent.Safe (extractBitsLogged object size img len_bytes)
      (extractBits img len_bytes) := by
  have hlt := imageDataBitCapacity_lt img
  have hcarriers := capacity_le_carriers img
  have htotal : sizeT (len_bytes * 8) = len_bytes * 8 := Nat.mod_eq_of_lt (by omega)
  have hcleared : (DecodeEvent.touch object size 0 len_bytes).Safe := by
    change 0 + len_bytes ≤ size
    omega
  have hbits : (DecodeEvent.computed (len_bytes * 8)).Safe := by
    change len_bytes * 8 < 2 ^ 64
    omega
  have hrows : Logs DecodeEvent.Safe
      (extractRowsLogged object size img (sizeT (len_bytes * 8)) 0 0
        (List.replicate len_bytes 0) img.rows) _ :=
    extractRowsLogged_safe img.row_length (by rw [Nat.zero_add, img.rows_length]) (by omega)
      (Nat.zero_le _)
  have hfilled : (DecodeEvent.filled len_bytes (imageDataBitCapacity img)
      (min (sizeT (len_bytes * 8)) (0 + img.carriers.length))).Safe := by
    change len_bytes * 8 ≤ _ ∧ _ = len_bytes * 8
    omega
  exact .cons hcleared (.cons hbits (hrows.bind (.cons hfilled (.pure _))))

end

theorem copyFilenameLogged_safe {fn_len container_len : Nat} (h : 7 + fn_len ≤ container_len) :
    Logs DecodeEvent.Safe (copyFilenameLogged fn_len container_len) () := by
  have hcopy : (if fn_len < 256 - 1 then fn_len else 256 - 1) = min fn_len 255 := by
    split <;> omega
  rw [copyFilenameLogged, hcopy]
  by_cases hpos : fn_len > 0
  · rw [if_pos hpos]
    have hread : (DecodeEvent.touch .buf container_len 7 (min fn_len 255)).Safe := by
      change 7 + min fn_len 255 ≤ container_len
      omega
    have hwrite : (DecodeEvent.touch .filename 256 0 (min fn_len 255)).Safe := by
      change 0 + min fn_len 255 ≤ 256
      omega
    have hend : (DecodeEvent.touch .filename 256 (min fn_len 255) 1).Safe := by
      change min fn_len 255 + 1 ≤ 256
      omega
    exact .cons hread (.cons hwrite (.note hend))
  · rw [if_neg hpos]
    exact .note (by decide : 0 + 1 ≤ 256)

/-- On any image, every index that the decoder computes is in range, no length
computation wraps, and every extraction fills its bytes. -/
theorem decode_index_safe (malloc : Malloc) (img : PngImageBuf) :
    (decodeImageLogged malloc img).result = stegoDecode malloc (.ok img) ∧
      ∀ e ∈ (decodeImageLogged malloc img).events, e.Safe := by
  suffices hlogs : Logs DecodeEvent.Safe (decodeImageLogged malloc img)
    (decodeImage malloc img) from
    ⟨hlogs.result, hlogs.events⟩
  have hlt := imageDataBitCapacity_lt img
  unfold decodeImageLogged decodeImage
  dsimp only
  refine .exit fun hroom => ?_
  have hheader : 7 ≤ imageDataBitCapacity img / 8 := by
    unfold stegoHeaderMinLen at hroom
    omega
  refine (extractBitsLogged_safe le_rfl hheader).bind (.cons (by decide : 0 + 4 ≤ 7) ?_)
  refine .exit fun hmagic => ?_
  refine .cons (by decide : 4 + 1 ≤ 7) ?_
  cases payloadTypeOf ((extractBits img 7).getD 4 0) with
  | none => exact .pure _
  | some type =>
    dsimp only
    generalize hname : (readBe16 ((extractBits img 7).drop 5)).toNat = fn_len
    have hfn : fn_len < 2 ^ 16 := hname ▸ UInt16.toNat_lt _
    have htotal : sizeT (7 + fn_len + 4) = 7 + fn_len + 4 := Nat.mod_eq_of_lt (by omega)
    have hneeded : (DecodeEvent.computed (7 + fn_len + 4)).Safe := by
      change 7 + fn_len + 4 < 2 ^ 64
      omega
    refine .cons (by decide : 5 + 2 ≤ 7) (.cons hneeded ?_)
    rw [htotal]
    refine .exit fun hprobe => ?_
    refine .exit fun hmem => ?_
    refine (extractBitsLogged_safe le_rfl (Nat.le_of_not_lt hprobe)).bind ?_
    generalize hpayload : (readBe32 ((extractBits img (7 + fn_len + 4)).drop (7 + fn_len))).toNat =
      payload_len
    have hpl : payload_len < 2 ^ 32 := hpayload ▸ UInt32.toNat_lt _
    have hcontainer : sizeT (7 + fn_len + 4 + payload_len + 4) = 7 + fn_len + 4 + payload_len + 4 :=
      Nat.mod_eq_of_lt (by omega)
    have hlength : (DecodeEvent.computed (7 + fn_len + 4 + payload_len + 4)).Safe := by
      change 7 + fn_len + 4 + payload_len + 4 < 2 ^ 64
      omega
    refine .cons (Nat.le_refl (7 + fn_len + 4)) (.cons hlength ?_)
    rw [hcontainer]
    refine .exit fun hfits => ?_
    refine .exit fun hmem => ?_
    refine (extractBitsLogged_safe le_rfl (Nat.le_of_not_lt hfits)).bind ?_
    generalize hbuf : extractBits img (7 + fn_len + 4 + payload_len + 4) = buf
    generalize hclen : 7 + fn_len + 4 + payload_len + 4 = container_len
    have hstored : (DecodeEvent.touch .buf container_len (container_len - 4) 4).Safe := by
      change container_len - 4 + 4 ≤ container_len
      omega
    have hchecked : (DecodeEvent.touch .buf container_len 0 (container_len - 4)).Safe := by
      change 0 + (container_len - 4) ≤ container_len
      omega
    refine .cons hstored (.cons hchecked ?_)
    refine .exit fun hcrc => ?_
    refine (copyFilenameLogged_safe (by omega)).bind ?_
    refine .ite (fun hpos => .exit fun hmem => ?_) fun hempty => .pure _
    have hread : (DecodeEvent.touch .buf container_len (7 + fn_len + 4) payload_len).Safe := by
      change 7 + fn_len + 4 + payload_len ≤ container_len
      omega
    have hwrite : (DecodeEvent.touch .data payload_len 0 payload_len).Safe := by
      change 0 + payload_len ≤ payload_len
      omega
    exact .cons hread (.cons hwrite (.pure _))

end StegaPng
