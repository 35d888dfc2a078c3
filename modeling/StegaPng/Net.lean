import StegaPng.Image

/-! The read loops of `net.c` over what a socket delivers. -/

namespace StegaPng

def bufferSize : Nat := 4096
def chunkSize : Nat := 65536

/-- What the `read()` calls on a socket meet, in order: bytes that arrive together,
an interrupted call, a failing call. At the end of the list the peer has closed. -/
inductive ReadEvent where
  | chunk (b : UInt8) (bs : Bytes)
  | eintr
  | error
  deriving DecidableEq, Repr

abbrev Stream := List ReadEvent

inductive ReadResult where
  | data (b : UInt8) (bs : Bytes)
  | eof
  | error
  deriving DecidableEq, Repr

/-- The part of a chunk that a `read()` leaves in the socket. -/
def unread : Bytes → Stream → Stream
  | [], es => es
  | b :: bs, es => .chunk b bs :: es

/-- `read(fd, buf, want)`, called again while it fails with `EINTR`; `want` is positive. -/
def readRetry (want : Nat) : Stream → ReadResult × Stream
  | [] => (.eof, [])
  | .eintr :: es => readRetry want es
  | .error :: es => (.error, es)
  | .chunk b bs :: es => (.data b (bs.take (want - 1)), unread (bs.drop (want - 1)) es)

def newline : UInt8 := 10

/-- The loop of `read_line` with room for `room` more bytes before the NUL. The
result is `none` on an error, the empty line at the end of the stream. -/
def readLineLoop : Nat → Stream → Option Bytes × Stream
  | 0, es => (some [], es)
  | room + 1, es =>
    match readRetry 1 es with
    | (.error, es') => (none, es')
    | (.eof, es') => (some [], es')
    | (.data ch _, es') =>
      if ch = newline then (some [ch], es') else
      let r := readLineLoop room es'
      (r.1.map (ch :: ·), r.2)

def readLine (buffer_size : Nat) (es : Stream) : Option Bytes × Stream :=
  readLineLoop (buffer_size - 1) es

/-- `read_exact`: fewer bytes than asked for only at the end of the stream. -/
def readExact (size : Nat) (es : Stream) : Option Bytes × Stream :=
  if size = 0 then (some [], es) else
  match readRetry size es with
  | (.error, es') => (none, es')
  | (.eof, es') => (some [], es')
  | (.data b bs, es') =>
    let r := readExact (size - (bs.length + 1)) es'
    (r.1.map ((b :: bs) ++ ·), r.2)
termination_by size
decreasing_by omega

/-- `discard_exact`: whether all bytes could be read. -/
def discardExact (size : Nat) (es : Stream) : Bool × Stream :=
  if size = 0 then (true, es) else
  match readRetry (min size chunkSize) es with
  | (.error, es') => (false, es')
  | (.eof, es') => (false, es')
  | (.data _ bs, es') => discardExact (size - (bs.length + 1)) es'
termination_by size
decreasing_by omega

/-! The bytes a stream delivers, whatever way they arrive. -/

def ReadEvent.bytes : ReadEvent → Bytes
  | .chunk b bs => b :: bs
  | .eintr => []
  | .error => []

def bytesOf (es : Stream) : Bytes := es.flatMap ReadEvent.bytes

/-- No `read()` fails for another reason than an interrupt. -/
def Clean (es : Stream) : Prop := ReadEvent.error ∉ es

instance (es : Stream) : Decidable (Clean es) := by
  unfold Clean
  infer_instance

@[simp] theorem bytesOf_nil : bytesOf [] = [] := rfl

@[simp] theorem bytesOf_cons (e : ReadEvent) (es : Stream) :
    bytesOf (e :: es) = e.bytes ++ bytesOf es := rfl

@[simp] theorem bytesOf_unread (bs : Bytes) (es : Stream) :
    bytesOf (unread bs es) = bs ++ bytesOf es := by
  cases bs <;> rfl

theorem Clean.tail {e : ReadEvent} {es : Stream} (h : Clean (e :: es)) : Clean es :=
  fun hmem => h (List.mem_cons_of_mem _ hmem)

theorem Clean.unread {es : Stream} (h : Clean es) (bs : Bytes) : Clean (unread bs es) := by
  cases bs with
  | nil => exact h
  | cons b bs => simpa [Clean, StegaPng.unread] using h

theorem readRetry_length {want : Nat} {es : Stream} {b : UInt8} {bs : Bytes} (hwant : 0 < want)
    (h : (readRetry want es).1 = .data b bs) : bs.length + 1 ≤ want := by
  induction es with
  | nil => cases h
  | cons e es ih =>
    cases e with
    | eintr => exact ih h
    | error => cases h
    | chunk b' bs' =>
      obtain ⟨-, rfl⟩ := ReadResult.data.inj h
      rw [List.length_take]
      omega

theorem readRetry_clean {want : Nat} {es : Stream} (hwant : 0 < want) (h : Clean es) :
    (bytesOf es = [] ∧ readRetry want es = (.eof, [])) ∨
      ∃ b bs es', readRetry want es = (.data b bs, es') ∧ bytesOf es = b :: bs ++ bytesOf es' ∧
        bs.length + 1 ≤ want ∧ Clean es' := by
  induction es with
  | nil => exact .inl ⟨rfl, rfl⟩
  | cons e es ih =>
    match e with
    | .error => exact absurd (List.mem_cons_self ..) h
    | .eintr => exact ih h.tail
    | .chunk b bs =>
      refine .inr ⟨b, bs.take (want - 1), _, rfl, ?_, ?_, h.tail.unread _⟩
      · simp [ReadEvent.bytes, ← List.append_assoc]
      · rw [List.length_take]
        omega

theorem readRetry_one {es : Stream} {c : UInt8} {bytes : Bytes} (h : Clean es)
    (hbytes : bytesOf es = c :: bytes) :
    ∃ es', readRetry 1 es = (.data c [], es') ∧ bytesOf es' = bytes ∧ Clean es' := by
  rcases readRetry_clean (Nat.zero_lt_one) h with ⟨hnil, -⟩ |
    ⟨b, bs, es', hread, hcut, hlen, hclean⟩
  · simp [hnil] at hbytes
  · have hbs : bs = [] := List.eq_nil_of_length_eq_zero (by omega)
    subst hbs
    rw [hcut] at hbytes
    obtain ⟨rfl, hrest⟩ : b = c ∧ bytesOf es' = bytes := by simpa using hbytes
    exact ⟨es', hread, hrest, hclean⟩

theorem readLineLoop_clean {room : Nat} {es : Stream} {line rest : Bytes} (h : Clean es)
    (hbytes : bytesOf es = line ++ newline :: rest) (hline : newline ∉ line)
    (hroom : line.length < room) :
    ∃ es', readLineLoop room es = (some (line ++ [newline]), es') ∧ bytesOf es' = rest ∧
      Clean es' := by
  induction line generalizing room es with
  | nil =>
    obtain ⟨room, rfl⟩ : ∃ r, room = r + 1 := ⟨room - 1, by simp at hroom; omega⟩
    obtain ⟨es', hread, hrest, hclean⟩ := readRetry_one h hbytes
    exact ⟨es', by simp [readLineLoop, hread], hrest, hclean⟩
  | cons c line ih =>
    obtain ⟨room, rfl⟩ : ∃ r, room = r + 1 := ⟨room - 1, by simp at hroom; omega⟩
    obtain ⟨es', hread, hrest, hclean⟩ := readRetry_one h hbytes
    have hc : c ≠ newline := fun hc => hline (by simp [hc])
    obtain ⟨es'', hloop, hbytes', hclean'⟩ := ih hclean hrest (fun hl => hline (by simp [hl]))
      (show line.length < room by simpa using hroom)
    exact ⟨es'', by simp [readLineLoop, hread, hc, hloop], hbytes', hclean'⟩

theorem readLineLoop_full {es : Stream} {line rest : Bytes} (h : Clean es)
    (hbytes : bytesOf es = line ++ rest) (hline : newline ∉ line) :
    ∃ es', readLineLoop line.length es = (some line, es') ∧ bytesOf es' = rest ∧ Clean es' := by
  induction line generalizing es with
  | nil => exact ⟨es, rfl, hbytes, h⟩
  | cons c line ih =>
    obtain ⟨es', hread, hrest, hclean⟩ := readRetry_one h hbytes
    have hc : c ≠ newline := fun hc => hline (by simp [hc])
    obtain ⟨es'', hloop, hbytes', hclean'⟩ := ih hclean hrest (fun hl => hline (by simp [hl]))
    exact ⟨es'', by simp [readLineLoop, hread, hc, hloop], hbytes', hclean'⟩

/-- Only the last byte of a line can be a newline. -/
theorem readLineLoop_newline {room : Nat} {es : Stream} {line : Bytes}
    (h : (readLineLoop room es).1 = some line) :
    newline ∉ line.dropLast := by
  induction room generalizing es line with
  | zero =>
    obtain rfl : [] = line := Option.some.inj h
    exact List.not_mem_nil
  | succ room ih =>
    unfold readLineLoop at h
    split at h
    · cases h
    · obtain rfl : [] = line := Option.some.inj h
      exact List.not_mem_nil
    · next ch _ es' hread =>
      split at h
      · obtain rfl : [ch] = line := Option.some.inj h
        exact List.not_mem_nil
      · next hch =>
        obtain ⟨rest, hrest, rfl⟩ := Option.map_eq_some_iff.mp h
        have htail := ih hrest
        cases rest with
        | nil => exact List.not_mem_nil
        | cons b rest =>
          rw [List.dropLast_cons_cons, List.mem_cons, not_or]
          exact ⟨fun heq => hch heq.symm, htail⟩

/-- What one `read_line` takes from a stream that goes on: a line with its newline,
or the part of a longer one that fills the buffer. -/
def IsLine (line : Bytes) : Prop :=
  (∃ l, line = l ++ [newline] ∧ newline ∉ l ∧ line.length < bufferSize) ∨
    newline ∉ line ∧ line.length + 1 = bufferSize

theorem IsLine.ne_nil {line : Bytes} (h : IsLine line) : line ≠ [] := by
  rintro rfl
  rcases h with ⟨l, hl, -, -⟩ | ⟨-, hlen⟩
  · simp at hl
  · simp [bufferSize] at hlen

theorem readLine_clean {es : Stream} {line rest : Bytes} (h : Clean es)
    (hbytes : bytesOf es = line ++ rest) (hline : IsLine line) :
    ∃ es', readLine bufferSize es = (some line, es') ∧ bytesOf es' = rest ∧ Clean es' := by
  rcases hline with ⟨l, rfl, hl, hlen⟩ | ⟨hl, hlen⟩
  · rw [List.append_assoc] at hbytes
    rw [List.length_append, List.length_singleton] at hlen
    exact readLineLoop_clean h hbytes hl (by omega)
  · have hroom : bufferSize - 1 = line.length := by omega
    rw [readLine, hroom]
    exact readLineLoop_full h hbytes hl

/-- What one `read_exact` takes from a stream: all that there is, where that is too little. -/
theorem readExact_clean (size : Nat) {es : Stream} (h : Clean es) :
    ∃ es', readExact size es = (some ((bytesOf es).take size), es') ∧
      bytesOf es' = (bytesOf es).drop size ∧ Clean es' := by
  induction size using Nat.strong_induction_on generalizing es with
  | _ size ih =>
    rw [readExact]
    by_cases h0 : size = 0
    · subst h0
      exact ⟨es, by simp, by simp, h⟩
    · rcases readRetry_clean (Nat.pos_of_ne_zero h0) h with ⟨hnil, hread⟩ |
        ⟨b, bs, es', hread, hcut, hlen, hclean⟩
      · refine ⟨[], ?_, ?_, List.not_mem_nil⟩
        · simp [h0, hread, hnil]
        · simp [hnil]
      · obtain ⟨es'', hexact, hbytes', hclean'⟩ := ih (size - (bs.length + 1)) (by omega) hclean
        have hle : (b :: bs).length ≤ size := hlen
        have htake : (b :: bs ++ bytesOf es').take size =
            b :: bs ++ (bytesOf es').take (size - (bs.length + 1)) := by
          rw [List.take_append, List.take_of_length_le hle]
          rfl
        refine ⟨es'', ?_, ?_, hclean'⟩
        · rw [hcut, htake]
          simp [h0, hread, hexact]
        · rw [hbytes', hcut, List.drop_append, List.drop_eq_nil_of_le hle]
          simp

theorem discardExact_clean {size : Nat} {es : Stream} (h : Clean es)
    (hsize : size ≤ (bytesOf es).length) :
    ∃ es', discardExact size es = (true, es') ∧ bytesOf es' = (bytesOf es).drop size ∧
      Clean es' := by
  induction size using Nat.strong_induction_on generalizing es with
  | _ size ih =>
    rw [discardExact]
    by_cases h0 : size = 0
    · subst h0
      exact ⟨es, by simp, by simp, h⟩
    · have hwant : 0 < min size chunkSize := by
        have : 0 < chunkSize := by decide
        omega
      rcases readRetry_clean hwant h with ⟨hnil, -⟩ | ⟨b, bs, es', hread, hcut, hlen, hclean⟩
      · simp [hnil] at hsize
        omega
      · have hle : (b :: bs).length ≤ size := le_trans hlen (min_le_left _ _)
        have hrest : size - (bs.length + 1) ≤ (bytesOf es').length := by
          rw [hcut, List.length_append, List.length_cons] at hsize
          omega
        obtain ⟨es'', hdiscard, hbytes', hclean'⟩ := ih _ (by omega) hclean hrest
        refine ⟨es'', by simp [h0, hread, hdiscard], ?_, hclean'⟩
        rw [hbytes', hcut, List.drop_append, List.drop_eq_nil_of_le hle]
        simp

end StegaPng
