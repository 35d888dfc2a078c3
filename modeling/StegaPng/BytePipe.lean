import Mathlib.Data.List.Flatten

/-! A pipe between writers and a reader: what is written in records of one size, and read
in the same size, comes out record by record. -/

namespace BytePipe

variable {α : Type}

/-- How much the pipe holds, and up to which size a write is not divided. -/
structure Limits where
  capacity : Nat
  atomic : Nat

/-- What is in the pipe; and what each write has put into it and each read has taken out
of it, oldest first. -/
structure Pipe (α : Type) where
  bytes : List α := []
  written : List (List α) := []
  taken : List (List α) := []

inductive WriteAnswer where
  | wrote (n : Nat)
  | interrupted
  | failed

inductive ReadAnswer (α : Type) where
  | data (bytes : List α)
  | interrupted
  | again
  | eof
  | failed

def Pipe.put (p : Pipe α) (data : List α) : Pipe α :=
  { p with bytes := p.bytes ++ data, written := p.written ++ [data] }

def Pipe.take (p : Pipe α) (size : Nat) : Pipe α :=
  { p with bytes := p.bytes.drop size, taken := p.taken ++ [p.bytes.take size] }

/-- A write to the pipe. It waits for room, and a small one is not divided. -/
inductive Write (lim : Limits) (p : Pipe α) (data : List α) : WriteAnswer → Pipe α → Prop where
  | whole (hroom : p.bytes.length + data.length ≤ lim.capacity) :
      Write lim p data (.wrote data.length) (p.put data)
  | part {n : Nat} (hlarge : lim.atomic < data.length) (hpos : 0 < n) (hn : n < data.length)
      (hroom : p.bytes.length + n ≤ lim.capacity) :
      Write lim p data (.wrote n) (p.put (data.take n))
  | interrupted : Write lim p data .interrupted p
  | failed : Write lim p data .failed p

/-- A read that does not wait. -/
inductive Read (p : Pipe α) (size : Nat) : ReadAnswer α → Pipe α → Prop where
  | data (hsome : p.bytes ≠ []) : Read p size (.data (p.bytes.take size)) (p.take size)
  | again (hnone : p.bytes = []) : Read p size .again p
  | eof (hnone : p.bytes = []) : Read p size .eof p
  | interrupted : Read p size .interrupted p
  | failed : Read p size .failed p

/-- A write of one record puts the whole of it into the pipe, or nothing. -/
theorem Write.record {lim : Limits} {p p' : Pipe α} {data : List α} {answer : WriteAnswer}
    (hatomic : data.length ≤ lim.atomic) (h : Write lim p data answer p') :
    answer = .wrote data.length ∧ p' = p.put data ∨ (∀ n, answer ≠ .wrote n) ∧ p' = p := by
  cases h with
  | whole hroom => exact .inl ⟨rfl, rfl⟩
  | part hlarge hpos hn hroom => omega
  | interrupted => exact .inr ⟨by simp, rfl⟩
  | failed => exact .inr ⟨by simp, rfl⟩

/-- The pipe holds whole records, which are what was written and not yet taken. -/
structure InRecords (size : Nat) (p : Pipe α) (rest : List (List α)) : Prop where
  written : p.written = p.taken ++ rest
  bytes : p.bytes = rest.flatten
  size : ∀ r ∈ p.written, r.length = size

namespace InRecords

variable {size : Nat} {p : Pipe α} {rest : List (List α)}

theorem rest_size (h : InRecords size p rest) {r : List α} (hr : r ∈ rest) : r.length = size := by
  apply h.size
  rw [h.written]
  exact List.mem_append_right _ hr

theorem length (h : InRecords size p rest) : p.bytes.length = size * rest.length := by
  rw [h.bytes, List.length_flatten, List.map_congr_left fun r hr => h.rest_size hr, List.map_const',
    List.sum_replicate_nat, Nat.mul_comm]

theorem put (h : InRecords size p rest) {data : List α} (hdata : data.length = size) :
    InRecords size (p.put data) (rest ++ [data]) where
  written := by rw [Pipe.put, h.written, List.append_assoc]
  bytes := by simp [Pipe.put, h.bytes]
  size r hr := by
    rcases List.mem_append.mp hr with hold | hnew
    · exact h.size r hold
    · rw [List.mem_singleton.mp hnew, hdata]

theorem take (h : InRecords size p rest) (hsome : p.bytes ≠ []) :
    ∃ r rest', rest = r :: rest' ∧ p.bytes.take size = r ∧ InRecords size (p.take size) rest' := by
  cases rest with
  | nil => exact absurd h.bytes hsome
  | cons r rest =>
    have hr : r.length = size := h.rest_size List.mem_cons_self
    have hsplit : p.bytes = r ++ rest.flatten := by rw [h.bytes, List.flatten_cons]
    have htake : p.bytes.take size = r := by rw [hsplit, ← hr, List.take_left]
    refine ⟨r, rest, rfl, htake, ?_⟩
    constructor
    · rw [Pipe.take, htake, List.append_assoc, List.singleton_append]
      exact h.written
    · rw [Pipe.take, hsplit, ← hr, List.drop_left]
    · exact h.size

/-- A read of one record finds the oldest that is left, or nothing. -/
theorem read (h : InRecords size p rest) {answer : ReadAnswer α} {p' : Pipe α}
    (hread : Read p size answer p') :
    (∃ r rest', rest = r :: rest' ∧ answer = .data r ∧ p'.taken = p.taken ++ [r] ∧
      p'.written = p.written ∧
      InRecords size p' rest') ∨ (∀ r, answer ≠ .data r) ∧ p' = p := by
  cases hread with
  | data hsome =>
    obtain ⟨r, rest', hrest, htake, hleft⟩ := h.take hsome
    refine .inl ⟨r, rest', hrest, by rw [htake], ?_, rfl, hleft⟩
    rw [Pipe.take, htake]
  | again hnone => exact .inr ⟨by simp, rfl⟩
  | eof hnone => exact .inr ⟨by simp, rfl⟩
  | interrupted => exact .inr ⟨by simp, rfl⟩
  | failed => exact .inr ⟨by simp, rfl⟩

end InRecords

theorem inRecords_empty (size : Nat) : InRecords size ({} : Pipe α) [] where
  written := rfl
  bytes := rfl
  size _ hr := absurd hr List.not_mem_nil

end BytePipe
