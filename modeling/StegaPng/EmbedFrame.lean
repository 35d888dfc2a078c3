import Mathlib.Data.Nat.Count
import StegaPng.Image

/-! What `embed_bits` writes and what it leaves alone, byte by byte in row-major
order. -/

namespace StegaPng

open BitPacking

/-- Byte `j` of the pixel data, in row-major order, is not alpha. -/
def NonAlpha (channels j : Nat) : Prop := ¬ (channels = 4 ∧ j % 4 = 3)

instance (channels : Nat) : DecidablePred (NonAlpha channels) := fun _ => instDecidableNot

/-- The number of non-alpha bytes before byte `j`. -/
def carrierRank (channels j : Nat) : Nat := Nat.count (NonAlpha channels) j

def PngImageBuf.samples (img : PngImageBuf) : Bytes := img.rows.flatten

/-- Byte `j` after the walk. -/
def marked (channels : Nat) (data : Bytes) (total j : Nat) (px : UInt8) : UInt8 :=
  if NonAlpha channels j ∧ carrierRank channels j < total then
    setLow px (bitByte data (carrierRank channels j))
  else px

section

variable {channels : Nat} {data : Bytes} {total : Nat}

theorem carrierRank_succ (j : Nat) :
    carrierRank channels (j + 1) = carrierRank channels j + if NonAlpha channels j then 1 else 0 :=
  Nat.count_succ _ j

theorem carrierRank_mono (channels : Nat) {i j : Nat} (h : i ≤ j) :
    carrierRank channels i ≤ carrierRank channels j :=
  Nat.count_monotone _ h

theorem carrierRank_four {n : Nat} : carrierRank 4 (4 * n) = 3 * n := by
  induction n with
  | zero => rfl
  | succ n ih =>
    have h0 : NonAlpha 4 (4 * n) := fun h => by omega
    have h1 : NonAlpha 4 (4 * n + 1) := fun h => by omega
    have h2 : NonAlpha 4 (4 * n + 1 + 1) := fun h => by omega
    have h3 : ¬ NonAlpha 4 (4 * n + 1 + 1 + 1) := fun h => h ⟨rfl, by omega⟩
    rw [show 4 * (n + 1) = 4 * n + 1 + 1 + 1 + 1 by omega]
    simp only [carrierRank_succ, h0, h1, h2, h3, ih, if_true, if_false]
    omega

theorem carrierRank_rgb (h : channels ≠ 4) (n : Nat) : carrierRank channels n = n :=
  Nat.count_of_forall fun _ _ hj => h hj.1

theorem mapIdx_marked {j : Nat} (h : total ≤ carrierRank channels j) (row : Bytes) :
    row.mapIdx (fun i => marked channels data total (j + i)) = row := by
  refine List.mapIdx_eq_iff.mpr fun i => ?_
  have hle := carrierRank_mono channels (Nat.le_add_right j i)
  have hkept : ∀ px, marked channels data total (j + i) px = px := by
    intro px
    rw [marked, if_neg]
    omega
  cases row[i]? <;> simp [hkept]

theorem embedRow_marked {x j : Nat} {row : Bytes}
    (hdata : ∀ i < row.length, isDataChannel channels (intOfSize (x + i)) =
      decide (NonAlpha channels (j + i)))
    (hrank : carrierRank channels j ≤ total) :
    embedRow channels data total x (carrierRank channels j) row =
      (row.mapIdx (fun i => marked channels data total (j + i)),
        min total (carrierRank channels (j + row.length))) := by
  induction row generalizing x j with
  | nil => simp [embedRow, hrank]
  | cons px row ih =>
    by_cases hb : carrierRank channels j < total
    · have hnext : ∀ i < row.length,
          isDataChannel channels (intOfSize (x + 1 + i)) =
            decide (NonAlpha channels (j + 1 + i)) := by
        intro i hi
        rw [show x + 1 + i = x + (i + 1) by omega, show j + 1 + i = j + (i + 1) by omega]
        exact hdata (i + 1) (Nat.succ_lt_succ hi)
      have hshift : (fun i => marked channels data total (j + (i + 1))) =
          fun i => marked channels data total (j + 1 + i) := by
        funext i
        rw [show j + (i + 1) = j + 1 + i by omega]
      have hend : j + (row.length + 1) = j + 1 + row.length := by omega
      have hrest := ih hnext
      rw [carrierRank_succ] at hrest
      by_cases hd : NonAlpha channels j
      · have hhere : isDataChannel channels (intOfSize x) = true := by
          simpa [hd] using hdata 0 (Nat.succ_pos _)
        rw [if_pos hd] at hrest
        rw [embedRow, if_pos hb, if_pos hhere, hrest hb, List.mapIdx_cons, hshift,
          List.length_cons, hend, Nat.add_zero, marked, if_pos ⟨hd, hb⟩]
        rfl
      · have hhere : ¬ isDataChannel channels (intOfSize x) = true := by
          simpa [hd] using hdata 0 (Nat.succ_pos _)
        rw [if_neg hd, Nat.add_zero] at hrest
        rw [embedRow, if_pos hb, if_neg hhere, hrest hrank, List.mapIdx_cons, hshift,
          List.length_cons, hend, Nat.add_zero, marked, if_neg fun h => hd h.1]
    · have hle := carrierRank_mono channels (Nat.le_add_right j (px :: row).length)
      rw [embedRow, if_neg hb, mapIdx_marked (Nat.le_of_not_lt hb), min_eq_left (by omega),
        Nat.le_antisymm hrank (Nat.le_of_not_lt hb)]

theorem embedRows_marked {n j : Nat} {rows : List Bytes} (hrows : ∀ row ∈ rows, row.length = n)
    (hn : n < 2 ^ 31) (halign : channels = 4 → n % 4 = 0 ∧ j % 4 = 0) :
    (embedRows channels data total (min total (carrierRank channels j)) rows).flatten =
      rows.flatten.mapIdx fun i => marked channels data total (j + i) := by
  induction rows generalizing j with
  | nil => rfl
  | cons row rows ih =>
    have hrow := hrows row List.mem_cons_self
    have hshift : (fun i => marked channels data total (j + (i + row.length))) =
        fun i => marked channels data total (j + row.length + i) := by
      funext i
      rw [show j + (i + row.length) = j + row.length + i by omega]
    by_cases hb : carrierRank channels j < total
    · have hdata : ∀ i < row.length,
          isDataChannel channels (intOfSize (0 + i)) = decide (NonAlpha channels (j + i)) := by
        intro i hi
        rw [isDataChannel_iff (by omega)]
        have hmod : channels = 4 → (j + i) % 4 = (0 + i) % 4 := by
          intro hc
          have hj := (halign hc).2
          omega
        by_cases hc : channels = 4
        · simp [NonAlpha, hc, hmod hc]
        · simp [NonAlpha, hc]
      have hrest := ih (j := j + row.length) (fun r hr => hrows r (List.mem_cons_of_mem _ hr))
        fun hc => by
        have hjn := halign hc
        omega
      rw [min_eq_right (Nat.le_of_lt hb), embedRows, if_pos hb,
        embedRow_marked hdata (Nat.le_of_lt hb), List.flatten_cons, List.flatten_cons,
          List.mapIdx_append, hrest, hshift]
    · have hfull : total ≤ carrierRank channels j := Nat.le_of_not_lt hb
      rw [min_eq_left hfull, embedRows, if_neg (Nat.lt_irrefl _), mapIdx_marked hfull]

end

theorem embedBits_samples {img : PngImageBuf} (hfit : img.RowFitsInt) (data : Bytes) :
    (embedBits img data).samples =
      img.samples.mapIdx (marked img.channels data (sizeT (data.length * 8))) := by
  have halign : img.channels = 4 → img.width.toNat * img.channels % 4 = 0 ∧ 0 % 4 = 0 := by
    intro hc
    rw [hc]
    omega
  have hwalk : (embedRows img.channels data (sizeT (data.length * 8)) _ _).flatten = _ :=
    embedRows_marked img.row_length hfit halign
  have hzero : carrierRank img.channels 0 = 0 := rfl
  have hstart : (fun i => marked img.channels data (sizeT (data.length * 8)) (0 + i)) =
      marked img.channels data (sizeT (data.length * 8)) := by
    funext i
    rw [Nat.zero_add]
  rw [hzero, Nat.min_zero, hstart] at hwalk
  exact hwalk

theorem carrierRank_samples {img : PngImageBuf} (hfit : img.RowFitsInt) :
    carrierRank img.channels img.samples.length = imageDataBitCapacity img := by
  rw [PngImageBuf.samples, flatten_rows_length, (imageDataBitCapacity_eq hfit).1]
  rcases img.channels_eq with hc | hc
  · rw [hc, carrierRank_rgb (by decide)]
    change _ = _ * 3
    ring
  · rw [hc, show img.height.toNat * (img.width.toNat * 4) =
      4 * (img.width.toNat * img.height.toNat) by ring, carrierRank_four]
    change _ = _ * 3
    ring

theorem exists_carrier {channels n k : Nat} (h : k < carrierRank channels n) :
    ∃ j < n, NonAlpha channels j ∧ carrierRank channels j = k := by
  induction n with
  | zero => exact absurd h (Nat.not_lt_zero k)
  | succ n ih =>
    rw [carrierRank_succ] at h
    by_cases hk : k < carrierRank channels n
    · obtain ⟨j, hj, hfound⟩ := ih hk
      exact ⟨j, Nat.lt_succ_of_lt hj, hfound⟩
    · by_cases hd : NonAlpha channels n
      · rw [if_pos hd] at h
        exact ⟨n, Nat.lt_succ_self n, hd, by omega⟩
      · rw [if_neg hd] at h
        omega

theorem marked_frame (channels : Nat) (data : Bytes) (total j : Nat) (px : UInt8) :
    (NonAlpha channels j ∧ carrierRank channels j < total →
      lowBit (marked channels data total j px) = bitAt data (carrierRank channels j)) ∧
    (marked channels data total j px).toNat / 2 = px.toNat / 2 ∧
    (¬ (NonAlpha channels j ∧ carrierRank channels j < total) →
      marked channels data total j px = px) := by
  by_cases h : NonAlpha channels j ∧ carrierRank channels j < total
  · have hupper : ∀ b : Bool, (setLow px (if b then 1 else 0)).toNat / 2 = px.toNat / 2 := by
      intro b
      apply Nat.eq_of_testBit_eq
      intro i
      rw [← Nat.testBit_succ, ← Nat.testBit_succ, testBit_setLow, if_neg (Nat.succ_ne_zero i)]
    rw [marked, if_pos h, bitByte_eq]
    exact ⟨fun _ => lowBit_setLow px _, hupper _, fun hn => absurd h hn⟩
  · rw [marked, if_neg h]
    exact ⟨fun hy => absurd hy h, rfl, fun _ => rfl⟩

/-- Three white pixels in a row. -/
def whitePixels : PngImageBuf where
  width := 3
  height := 1
  channels := 3
  rows := [List.replicate 9 255]
  channels_eq := rgb_channels
  rows_length := rfl
  row_length := by simp

/-- `embed_bits` writes bit `k` of the data into the low bit of the `k`th non-alpha
byte, finds a byte for every bit, and touches nothing else. -/
theorem embedBits_frame (img : PngImageBuf) (hfit : img.RowFitsInt) (data : Bytes)
    (hcap : data.length * 8 ≤ imageDataBitCapacity img) :
    let out := embedBits img data
    out.samples.length = img.samples.length ∧
    (∀ k < data.length * 8, ∃ j < img.samples.length, NonAlpha img.channels j ∧
      carrierRank img.channels j = k) ∧
    ∀ j old new, img.samples[j]? = some old → out.samples[j]? = some new →
      (NonAlpha img.channels j ∧ carrierRank img.channels j < data.length * 8 →
        lowBit new = bitAt data (carrierRank img.channels j)) ∧
      new.toNat / 2 = old.toNat / 2 ∧
      (¬ (NonAlpha img.channels j ∧ carrierRank img.channels j < data.length * 8) → new = old) ∧
      new.toNat ≤ old.toNat + 1 ∧ old.toNat ≤ new.toNat + 1 := by
  intro out
  have hlt := imageDataBitCapacity_lt img
  have hsize : sizeT (data.length * 8) = data.length * 8 := Nat.mod_eq_of_lt (by omega)
  have hsamples : out.samples =
    img.samples.mapIdx (marked img.channels data (data.length * 8)) := by
    rw [← hsize]
    exact embedBits_samples hfit data
  refine ⟨by rw [hsamples, List.length_mapIdx], ?_, ?_⟩
  · intro k hk
    apply exists_carrier
    rw [carrierRank_samples hfit]
    omega
  · intro j old new hold hnew
    rw [hsamples, List.getElem?_mapIdx, hold] at hnew
    obtain rfl := Option.some.inj hnew
    obtain ⟨hlow, hupper, hkept⟩ := marked_frame img.channels data (data.length * 8) j old
    exact ⟨hlow, hupper, hkept, by omega, by omega⟩

theorem embedBits_frame_whitePixels :
    ∃ j < 9, NonAlpha 3 j ∧ carrierRank 3 j = 7 ∧
      ∀ new, (embedBits whitePixels [128]).samples[j]? = some new →
      lowBit new = true := by
  obtain ⟨hlen, hfound, hbyte⟩ := embedBits_frame whitePixels (by decide) [128] (by decide)
  obtain ⟨j, hj, hd, hrank⟩ := hfound 7 (by decide)
  refine ⟨j, hj, hd, hrank, fun new hnew => ?_⟩
  have hold : whitePixels.samples[j]? = some whitePixels.samples[j] := List.getElem?_eq_getElem hj
  rw [(hbyte j _ new hold hnew).1 ⟨hd, by rw [hrank]; decide⟩, hrank]
  decide

end StegaPng
