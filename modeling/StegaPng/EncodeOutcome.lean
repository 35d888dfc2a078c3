import StegaPng.Processors

/-! What an encoding call leaves at its output path, for every outcome of its steps. -/

namespace StegaPng

open Interleaving

/-- The two calls that encode. -/
inductive Encoding where
  | text (text : Bytes)
  | file (payload_file_path : Bytes) (store_as_filename : Option Bytes)

namespace Encoding

def run (input_png_path output_png_path : Bytes) : Encoding → Task StegoStatus
  | text t => stegoEncodeText input_png_path output_png_path t
  | file p name => stegoEncodeFile input_png_path output_png_path p name

def type : Encoding → StegoPayloadType
  | text _ => .text
  | file .. => .file

def filename : Encoding → Option Bytes
  | text _ => none
  | file p name => some (name.getD (baseName p))

/-- What is to be hidden. -/
def payload (w : World) : Encoding → Option Bytes
  | text t => some t
  | file p _ => w.files p

def Embedded (codec : PngCodec) (w : World) (input : Bytes) (c : Encoding)
    (out : PngImageBuf) : Prop :=
  ∃ content img payload malloc, w.files input = some content ∧ codec.load content = .ok img ∧
    c.payload w = some payload ∧ encodeImage malloc img c.type c.filename payload = .ok out

/-- Success means that the whole image is in the output file, failure that nothing of this
call is. -/
structure WholeOrNothing (codec : PngCodec) (input output : Bytes) (c : Encoding) (w w' : World)
    (rc : StegoStatus) : Prop where
  success : rc = .ok → ∃ out, c.Embedded codec w input out ∧ w'.files output = some (codec.save out)
  failure : rc ≠ .ok → w'.files output = none ∨ w'.files output = w.files output

/-- The carrier is read without a fault. -/
def Loads (codec : PngCodec) (w : World) (input : Bytes) (e : Env) (img : PngImageBuf) : Prop :=
  e.loadFault = none ∧ ∃ content, w.files input = some content ∧ codec.load content = .ok img

/-- The steps before the save succeed, and this image is to be saved. -/
inductive Prepared (codec : PngCodec) (w : World) (input : Bytes) (e : Nat → Env) :
    Encoding → PngImageBuf → Prop
  | text {t : Bytes} {img out : PngImageBuf} (hload : Loads codec w input (e 0) img)
      (hembed : encodeImage (e 1).malloc img .text none t = .ok out) :
      Prepared codec w input e (.text t) out
  | file {p payload : Bytes} {name : Option Bytes} {img out : PngImageBuf} (hopen : (e 0).ok = true)
      (hpayload : w.files p = some payload) (hsize : (e 1).ok = true)
      (hmalloc : (e 2).malloc .file payload.length = true ∨ payload = [])
      (hread : (e 3).ok = true ∨ payload.length ≤ (e 3).cut) (hload : Loads codec w input (e 4) img)
      (hembed : encodeImage (e 5).malloc img .file (some (name.getD (baseName p))) payload =
        .ok out) :
      Prepared codec w input e (.file p name) out

/-- How many steps there are before the save. -/
def lead : Encoding → Nat
  | text _ => 2
  | file .. => 6

/-- After a complete write of the image the file is closed without a loss. -/
def ClosesWhole (codec : PngCodec) (w : World) (input : Bytes) (e : Nat → Env)
    (c : Encoding) : Prop :=
  ∀ out, Prepared codec w input e c out → (∀ k < 4, (e (c.lead + k)).ok = true) →
    (e (c.lead + 4)).ok = true ∨ (codec.save out).length ≤ (e (c.lead + 4)).cut

end Encoding

section

variable {codec : PngCodec} {t : Tid} {e : Nat → Env} {s s' : Sys} {rc : StegoStatus} {path : Bytes}
  {img : PngImageBuf} {α : Type}

theorem execute_call {o : Op} {f : Ans o → Task α} {a : α}
    (h : execute codec t (call o >>= f) e s = some (a, s')) :
    ∃ b w marks, exec codec (e 0) t s.world o = some (b, w, marks) ∧
      execute codec t (f b) (fun n => e (n + 1)) ⟨w, marks ++ s.history⟩ = some (a, s') := by
  rw [call_bind, execute] at h
  split at h
  · cases h
  · next b w marks hexec => exact ⟨b, w, marks, hexec, h⟩

theorem execute_ret {a b : α} (h : execute codec t (pure a : Task α) e s = some (b, s')) :
    b = a ∧ s' = s := by
  cases h
  exact ⟨rfl, rfl⟩

theorem execute_giveUp {a : StegoStatus}
    (h : execute codec t (call (.fclose path) >>= fun _ => call (.unlink path) >>=
      fun _ => (pure a : Task StegoStatus)) e s =
      some (rc, s')) : rc = a ∧ s'.world.files path = none := by
  obtain ⟨b, w, marks, -, h⟩ := execute_call h
  obtain ⟨_, w', marks', hexec, h⟩ := execute_call h
  obtain ⟨rfl, rfl⟩ := execute_ret h
  simp only [exec, Option.some.injEq, Prod.mk.injEq] at hexec
  obtain ⟨-, rfl, -⟩ := hexec
  exact ⟨rfl, by simp [World.writeFile]⟩

/-- The exits of a call that saves an image at the path, if it comes to that. -/
inductive Saves (codec : PngCodec) (path : Bytes) (w w' : World) (ready : PngImageBuf → Prop)
    (e : Nat → Env) :
    StegoStatus → Prop
  | gaveUp {rc : StegoStatus} (hrc : rc ≠ .ok)
      (hnot : ∀ img, ready img → ¬ ∀ k < 4, (e k).ok = true)
      (hfile : w'.files path = none ∨ w'.files path = w.files path) :
      Saves codec path w w' ready e rc
  | saved {img : PngImageBuf} (hready : ready img) (hall : ∀ k < 4, (e k).ok = true)
      (hfile : w'.files path = some (if (e 4).ok then codec.save img else
        (codec.save img).take (e 4).cut)) :
      Saves codec path w w' ready e .ok

theorem execute_pngSave (h : execute codec t (pngSaveRgbOrRgba path img) e s = some (rc, s')) :
    Saves codec path s.world s'.world (· = img) e rc := by
  unfold pngSaveRgbOrRgba at h
  obtain ⟨opened, w₁, marks₁, hopen, h⟩ := execute_call h
  simp only [exec, Option.some.injEq, Prod.mk.injEq] at hopen
  obtain ⟨rfl, rfl, -⟩ := hopen
  cases hok₀ : (e 0).ok with
  | false =>
    simp only [hok₀, Bool.not_false, if_true, Bool.false_eq_true, if_false] at h
    obtain ⟨rfl, rfl⟩ := execute_ret h
    exact .gaveUp (by simp) (fun _ _ hall => absurd (hok₀.symm.trans (hall 0 (by decide)))
      (by simp)) (.inr rfl)
  | true =>
    simp only [hok₀, Bool.not_true, Bool.false_eq_true, if_false, if_true] at h
    obtain ⟨created, w₂, marks₂, hcreate, h⟩ := execute_call h
    simp only [exec, Option.some.injEq, Prod.mk.injEq] at hcreate
    obtain ⟨rfl, rfl, -⟩ := hcreate
    cases hok₁ : (e 1).ok with
    | false =>
      simp only [hok₁, Bool.not_false, if_true] at h
      obtain ⟨rfl, hgone⟩ := execute_giveUp h
      exact .gaveUp (by simp) (fun _ _ hall => absurd (hok₁.symm.trans (hall 1 (by decide)))
        (by simp)) (.inl hgone)
    | true =>
      simp only [hok₁, Bool.not_true, Bool.false_eq_true, if_false] at h
      obtain ⟨info, w₃, marks₃, hinfo, h⟩ := execute_call h
      simp only [exec, Option.some.injEq, Prod.mk.injEq] at hinfo
      obtain ⟨rfl, rfl, -⟩ := hinfo
      cases hok₂ : (e 2).ok with
      | false =>
        simp only [hok₂, Bool.not_false, if_true] at h
        obtain ⟨rfl, hgone⟩ := execute_giveUp h
        exact .gaveUp (by simp) (fun _ _ hall => absurd (hok₂.symm.trans (hall 2 (by decide)))
          (by simp)) (.inl hgone)
      | true =>
        simp only [hok₂, Bool.not_true, Bool.false_eq_true, if_false] at h
        obtain ⟨written, w₄, marks₄, hwrite, h⟩ := execute_call h
        simp only [exec, Option.some.injEq, Prod.mk.injEq] at hwrite
        obtain ⟨rfl, rfl, -⟩ := hwrite
        cases hok₃ : (e 3).ok with
        | false =>
          simp only [hok₃, Bool.not_false, if_true] at h
          obtain ⟨rfl, hgone⟩ := execute_giveUp h
          exact .gaveUp (by simp) (fun _ _ hall => absurd (hok₃.symm.trans (hall 3 (by decide)))
            (by simp)) (.inl hgone)
        | true =>
          simp only [hok₃, Bool.not_true, Bool.false_eq_true, if_false, if_true] at h
          obtain ⟨closed, w₅, marks₅, hclose, h⟩ := execute_call h
          obtain ⟨rfl, rfl⟩ := execute_ret h
          simp only [exec, Option.some.injEq, Prod.mk.injEq] at hclose
          obtain ⟨-, rfl, -⟩ := hclose
          refine .saved rfl (fun k hk => ?_) ?_
          · have hsteps : k < 4 := hk
            obtain rfl | rfl | rfl | rfl : k = 0 ∨ k = 1 ∨ k = 2 ∨ k = 3 := by omega
            · exact hok₀
            · exact hok₁
            · exact hok₂
            · exact hok₃
          · change ((if (e 4).ok = true then _ else _ : World).files path) = _
            split <;> simp [World.writeFile]

/-- The image that `encode_common` is to save. -/
def Common (codec : PngCodec) (w : World) (input : Bytes) (e : Nat → Env) (type : StegoPayloadType)
    (filename : Option Bytes) (payload : Bytes) (out : PngImageBuf) : Prop :=
  ∃ img, Encoding.Loads codec w input (e 0) img ∧
    encodeImage (e 1).malloc img type filename payload = .ok out

theorem execute_pngLoad {input : Bytes} {f : Except StegoStatus PngImageBuf → Task StegoStatus}
    (h : execute codec t (call (.pngLoad input) >>= f) e s = some (rc, s')) :
    ∃ loaded marks, execute codec t (f loaded) (fun n => e (n + 1)) ⟨s.world, marks ++ s.history⟩ =
      some (rc, s') ∧
      (∀ img, Encoding.Loads codec s.world input (e 0) img ↔ loaded = .ok img) ∧
      ∀ status, loaded = .error status → status ≠ .ok := by
  obtain ⟨loaded, w, marks, hexec, h⟩ := execute_call h
  simp only [exec] at hexec
  cases hfault : (e 0).loadFault with
  | some fault =>
    rw [hfault] at hexec
    obtain ⟨rfl, rfl, -⟩ : Except.error fault.status = loaded ∧ s.world = w ∧ _ = marks := by
      simpa using hexec
    refine ⟨_, marks, h, fun img => iff_of_false ?_ (by simp), fun status hstatus => ?_⟩
    · rintro ⟨hnone, -⟩
      rw [hfault] at hnone
      cases hnone
    · rw [← Except.error.inj hstatus]
      exact fault.status_ne_ok
  | none =>
    rw [hfault] at hexec
    simp only [Option.some.injEq, Prod.mk.injEq] at hexec
    obtain ⟨hloaded, rfl, -⟩ := hexec
    refine ⟨loaded, marks, h, fun img => ?_, fun status hstatus => ?_⟩
    · subst hloaded
      simp only [Encoding.Loads, hfault, true_and]
      cases s.world.files input with
      | none => simp
      | some content => simp
    · subst hloaded
      cases hfile : s.world.files input with
      | none =>
        rw [hfile] at hstatus
        obtain rfl := Except.error.inj hstatus
        simp
      | some content =>
        rw [hfile] at hstatus
        exact codec.load_error content status hstatus

theorem execute_encodeCommon {input : Bytes} {type : StegoPayloadType} {filename : Option Bytes}
    {payload : Bytes}
    (h : execute codec t (encodeCommon input path type filename payload) e s = some (rc, s')) :
    Saves codec path s.world s'.world (Common codec s.world input e type filename payload)
      (fun k => e (k + 2)) rc := by
  unfold encodeCommon at h
  obtain ⟨loaded, marks, h, hloads, herror⟩ := execute_pngLoad h
  cases loaded with
  | error status =>
    obtain ⟨rfl, rfl⟩ := execute_ret h
    refine .gaveUp (herror rc rfl) (fun img himg => ?_) (.inr rfl)
    obtain ⟨carrier, hcarrier, -⟩ := himg
    cases (hloads carrier).mp hcarrier
  | ok img =>
    obtain ⟨malloc, w, marks', hmalloc, h⟩ := execute_call h
    simp only [exec, Option.some.injEq, Prod.mk.injEq] at hmalloc
    obtain ⟨rfl, rfl, -⟩ := hmalloc
    have hcommon : ∀ out, Common codec s.world input e type filename payload out ↔
        encodeImage (e 1).malloc img type filename payload = .ok out := by
      intro out
      constructor
      · rintro ⟨carrier, hcarrier, hembed⟩
        obtain rfl := Except.ok.inj ((hloads carrier).mp hcarrier)
        exact hembed
      · exact fun hembed => ⟨img, (hloads img).mpr rfl, hembed⟩
    cases hembed : encodeImage (e 1).malloc img type filename payload with
    | error status =>
      simp only [hembed] at h
      obtain ⟨rfl, rfl⟩ := execute_ret h
      refine .gaveUp (encodeImage_error hembed) (fun out hout => ?_) (.inr rfl)
      have hok := (hcommon out).mp hout
      rw [hembed] at hok
      cases hok
    | ok out =>
      simp only [hembed] at h
      have hout : ∀ {img}, Common codec s.world input e type filename payload img ↔ img = out := by
        intro img
        rw [hcommon, hembed]
        exact ⟨fun heq => (Except.ok.inj heq).symm, fun heq => by rw [heq]⟩
      cases execute_pngSave h with
      | gaveUp hrc hnot hfile => exact .gaveUp hrc (fun img himg => hnot img (hout.mp himg)) hfile
      | saved hready hall hfile => exact .saved (hout.mpr hready) hall hfile

theorem execute_encodeFile {input payload_path : Bytes} {name : Option Bytes}
    (h : execute codec t (stegoEncodeFile input path payload_path name) e s = some (rc, s')) :
    Saves codec path s.world s'.world (Encoding.Prepared codec s.world input e
      (.file payload_path name))
      (fun k => e (k + 6)) rc := by
  unfold stegoEncodeFile at h
  obtain ⟨opened, w₀, marks₀, hopen, h⟩ := execute_call h
  simp only [exec, Option.some.injEq, Prod.mk.injEq] at hopen
  obtain ⟨rfl, rfl, -⟩ := hopen
  cases hfound : ((e 0).ok && (s.world.files payload_path).isSome) with
  | false =>
    simp only [hfound, Bool.not_false, if_true] at h
    obtain ⟨rfl, rfl⟩ := execute_ret h
    refine .gaveUp (by simp) (fun out hout => ?_) (.inr rfl)
    cases hout with
    | file hopen hpayload =>
      rw [hopen, hpayload] at hfound
      cases hfound
  | true =>
    simp only [hfound, Bool.not_true, Bool.false_eq_true, if_false] at h
    rw [Bool.and_eq_true] at hfound
    obtain ⟨hopen, hsome⟩ := hfound
    obtain ⟨payload, hpayload⟩ := Option.isSome_iff_exists.mp hsome
    obtain ⟨size, w₁, marks₁, hsize, h⟩ := execute_call h
    simp only [exec, Option.some.injEq, Prod.mk.injEq, hpayload, Option.getD_some] at hsize
    obtain ⟨rfl, rfl, -⟩ := hsize
    cases hok₁ : (e 1).ok with
    | false =>
      simp only [hok₁, Bool.false_eq_true, if_false] at h
      obtain ⟨rfl, rfl⟩ := execute_ret h
      refine .gaveUp (by simp) (fun out hout => ?_) (.inr rfl)
      cases hout with
      | file _ _ hsize => exact absurd (hok₁.symm.trans hsize) (by simp)
    | true =>
      simp only [hok₁, if_true] at h
      obtain ⟨malloc, w₂, marks₂, hmalloc, h⟩ := execute_call h
      simp only [exec, Option.some.injEq, Prod.mk.injEq] at hmalloc
      obtain ⟨rfl, rfl, -⟩ := hmalloc
      split at h
      · next hfail =>
        obtain ⟨rfl, rfl⟩ := execute_ret h
        simp only [Bool.and_eq_true, Bool.not_eq_true', decide_eq_true_eq] at hfail
        obtain ⟨hfail, hpos⟩ := hfail
        refine .gaveUp (by simp) (fun out hout => ?_) (.inr rfl)
        cases hout with
        | file _ hsame _ hmalloc =>
          obtain rfl := Option.some.inj (hpayload.symm.trans hsame)
          rcases hmalloc with hmalloc | rfl
          · exact absurd (hfail.symm.trans hmalloc) (by simp)
          · exact absurd hpos (Nat.lt_irrefl 0)
      · next hallocated =>
        have hallocated : (e 2).malloc .file payload.length = true ∨ payload = [] := by
          cases hmalloc : (e 2).malloc .file payload.length with
          | true => exact .inl rfl
          | false =>
            refine .inr (List.eq_nil_of_length_eq_zero ?_)
            simpa [hmalloc] using hallocated
        obtain ⟨buf, w₃, marks₃, hread, h⟩ := execute_call h
        simp only [exec, Option.some.injEq, Prod.mk.injEq, hpayload, Option.getD_some,
          List.take_length] at hread
        obtain ⟨hbuf, rfl, -⟩ := hread
        have hwhole : buf.length = payload.length ↔ (e 3).ok = true ∨
          payload.length ≤ (e 3).cut := by
          rw [← hbuf]
          split
          · next hok => simp [hok]
          · next hok => simp [hok]
        split at h
        · next hshort =>
          obtain ⟨rfl, rfl⟩ := execute_ret h
          simp only [Bool.and_eq_true, bne_iff_ne, decide_eq_true_eq] at hshort
          refine .gaveUp (by simp) (fun out hout => ?_) (.inr rfl)
          cases hout with
          | file _ hsame _ _ hread =>
            obtain rfl := Option.some.inj (hpayload.symm.trans hsame)
            exact absurd (hwhole.mpr hread) hshort.2
        · next hfull =>
          have hlength : buf.length = payload.length := by
            by_contra hne
            have hle : buf.length ≤ payload.length := by
              rw [← hbuf]
              split
              · exact Nat.le_refl _
              · exact List.length_take_le' ..
            simp only [Bool.and_eq_true, bne_iff_ne, decide_eq_true_eq] at hfull
            exact hfull ⟨by omega, hne⟩
          have hsame : buf = payload := by
            rw [← hbuf] at hlength ⊢
            split at hlength
            · next hok => rw [if_pos hok]
            · next hok =>
              rw [if_neg hok]
              exact List.take_of_length_le (by simpa using hlength)
          have hready : ∀ {out}, Common codec s.world input (fun k => e (k + 4)) .file
              (some (name.getD (baseName payload_path))) buf out ↔
              Encoding.Prepared codec s.world input e (.file payload_path name) out := by
            intro out
            rw [hsame]
            constructor
            · rintro ⟨img, hload, hembed⟩
              exact .file hopen hpayload hok₁ hallocated (hwhole.mp hlength) hload hembed
            · intro hout
              cases hout with
              | file _ hpayload' _ _ _ hload hembed =>
                obtain rfl := Option.some.inj (hpayload.symm.trans hpayload')
                exact ⟨_, hload, hembed⟩
          cases execute_encodeCommon h with
          | gaveUp hrc hnot hfile =>
            exact .gaveUp hrc (fun img himg => hnot img (hready.mpr himg)) hfile
          | saved himg hall hfile => exact .saved (hready.mp himg) hall hfile

theorem execute_encoding {input : Bytes} {c : Encoding}
    (h : execute codec t (c.run input path) e s = some (rc, s')) :
    Saves codec path s.world s'.world (c.Prepared codec s.world input e)
      (fun k => e (c.lead + k)) rc := by
  cases c with
  | text body =>
    have hsaves := execute_encodeCommon h
    have hready : ∀ {out}, Common codec s.world input e .text none body out ↔
        Encoding.Prepared codec s.world input e (.text body) out := by
      intro out
      constructor
      · rintro ⟨img, hload, hembed⟩
        exact .text hload hembed
      · rintro ⟨hload, hembed⟩
        exact ⟨_, hload, hembed⟩
    have hlead : (fun k => e ((Encoding.text body).lead + k)) = fun k => e (k + 2) :=
      funext fun k => congrArg e (Nat.add_comm 2 k)
    rw [hlead]
    cases hsaves with
    | gaveUp hrc hnot hfile => exact .gaveUp hrc (fun img himg => hnot img (hready.mpr himg)) hfile
    | saved himg hall hfile => exact .saved (hready.mp himg) hall hfile
  | file payload_path name =>
    have hlead : (fun k => e ((Encoding.file payload_path name).lead + k)) = fun k => e (k + 6) :=
      funext fun k => congrArg e (Nat.add_comm 6 k)
    rw [hlead]
    exact execute_encodeFile h

end

/-! The image. -/

namespace Encoding

variable {codec : PngCodec} {t : Tid} {e : Nat → Env} {s s' : Sys} {w : World} {rc : StegoStatus}
  {input output : Bytes} {c : Encoding} {out out' : PngImageBuf}

/-- The memory that is given does not change what is embedded. -/
theorem encodeImage_unique {malloc malloc' : Malloc} {img : PngImageBuf} {type : StegoPayloadType}
    {filename : Option Bytes} {payload : Bytes}
    (h : encodeImage malloc img type filename payload = .ok out)
    (h' : encodeImage malloc' img type filename payload = .ok out') : out = out' := by
  have hcontainer : ∀ {malloc : Malloc} {out},
    encodeImage malloc img type filename payload = .ok out →
      out = embedBits img (containerBody type filename payload ++
        writeBe32 (stegoCrc32 (containerBody type filename payload))) := by
    intro malloc out h
    rw [encodeImage, buildContainer] at h
    dsimp only at h
    split at h
    · cases h
    · next container hsome =>
      obtain ⟨-, hcontainer⟩ := Option.ite_none_right_eq_some.mp hsome
      split at h
      · cases h
      · rw [← Except.ok.inj h, ← Option.some.inj hcontainer]
  rw [hcontainer h, hcontainer h']

theorem Embedded.unique (h : c.Embedded codec w input out) (h' : c.Embedded codec w input out') :
    out = out' := by
  obtain ⟨content, img, payload, malloc, hcontent, hload, hpayload, hembed⟩ := h
  obtain ⟨content', img', payload', malloc', hcontent', hload', hpayload', hembed'⟩ := h'
  obtain rfl := Option.some.inj (hcontent.symm.trans hcontent')
  obtain rfl := Except.ok.inj (hload.symm.trans hload')
  obtain rfl := Option.some.inj (hpayload.symm.trans hpayload')
  exact encodeImage_unique hembed hembed'

theorem Prepared.embedded (h : c.Prepared codec w input e out) : c.Embedded codec w input out := by
  cases h with
  | text hload hembed =>
    obtain ⟨-, content, hcontent, hload⟩ := hload
    exact ⟨content, _, _, _, hcontent, hload, rfl, hembed⟩
  | file _ hpayload _ _ _ hload hembed =>
    obtain ⟨-, content, hcontent, hload⟩ := hload
    exact ⟨content, _, _, _, hcontent, hload, hpayload, hembed⟩

end Encoding

section

variable {codec : PngCodec} {t : Tid} {e : Nat → Env} {s s' : Sys} {rc : StegoStatus}
  {input output : Bytes} {c : Encoding}

theorem Saves.whole_iff (h : Saves codec output s.world s'.world (c.Prepared codec s.world input e)
    (fun k => e (c.lead + k)) rc) :
    c.WholeOrNothing codec input output s.world s'.world rc ↔
      c.ClosesWhole codec s.world input e := by
  cases h with
  | gaveUp hrc hnot hfile =>
    exact iff_of_true ⟨fun hok => absurd hok hrc, fun _ => hfile⟩ fun out hout hall =>
      absurd hall (hnot out hout)
  | @saved img himg hall hfile =>
    constructor
    · intro hwhole out hout _
      obtain ⟨whole, hembedded, hsame⟩ := hwhole.success rfl
      obtain rfl := hout.embedded.unique himg.embedded
      obtain rfl := hembedded.unique himg.embedded
      rw [hfile, Option.some.injEq] at hsame
      split at hsame
      · next hok => exact .inl hok
      · have hlength := congrArg List.length hsame
        rw [List.length_take] at hlength
        exact .inr (by omega)
    · intro hcloses
      refine ⟨fun _ => ⟨img, himg.embedded, ?_⟩, fun hrc => absurd rfl hrc⟩
      rw [hfile, Option.some.injEq]
      rcases hcloses img himg hall with hok | hlong
      · rw [if_pos hok]
      · split
        · rfl
        · exact List.take_of_length_le hlong

/-- Whatever happens at the steps of the call, success means the whole image and failure
nothing, if and only if the last close loses nothing: its outcome is not looked at. -/
theorem encode_whole_or_nothing (h : execute codec t (c.run input output) e s = some (rc, s')) :
    c.WholeOrNothing codec input output s.world s'.world rc ↔ c.ClosesWhole codec s.world input e :=
  (execute_encoding h).whole_iff

end

def stripOnDisk : Sys where
  world := { files := fun p => if p = lit "in.png" then some (rawSave (blackStrip 64)) else none }
  history := []

theorem encode_whole_or_nothing_strip : ∃ s', execute rawCodec (.worker 0)
      ((Encoding.text (lit "hi")).run (lit "in.png") (lit "out.png")) (fun _ => {}) stripOnDisk =
        some (.ok, s') ∧
    (Encoding.text (lit "hi")).WholeOrNothing rawCodec (lit "in.png")
      (lit "out.png") stripOnDisk.world s'.world .ok := by
  obtain ⟨⟨rc, s'⟩, hrun, hrc⟩ := Option.map_eq_some_iff.mp (show (execute rawCodec (.worker 0)
    ((Encoding.text (lit "hi")).run (lit "in.png") (lit "out.png")) (fun _ => {}) stripOnDisk).map
      (·.1) = some .ok by
      decide +kernel)
  obtain rfl : rc = .ok := hrc
  exact ⟨s', hrun, (encode_whole_or_nothing hrun).mpr fun out _ _ => .inl rfl⟩

/-- The last close loses everything that was buffered, and the call succeeds. -/
theorem lost_close_succeeds :
    ¬ ∀ (t : Tid) (e : Nat → Env) (s s' : Sys) (rc : StegoStatus) (input output : Bytes)
      (c : Encoding),
    execute rawCodec t (c.run input output) e s = some (rc, s') →
      c.WholeOrNothing rawCodec input output s.world s'.world rc := by
  intro hclaim
  obtain ⟨⟨rc, s'⟩, hrun, houtcome⟩ := Option.map_eq_some_iff.mp (show (execute rawCodec (.worker 0)
    ((Encoding.text (lit "hi")).run (lit "in.png") (lit "out.png"))
    (fun n => if n = 6 then { ok := false } else {}) stripOnDisk).map (fun r =>
      (r.1, r.2.world.files (lit "out.png"))) =
      some (.ok, some []) by decide +kernel)
  obtain ⟨rfl, hfile⟩ := Prod.mk.inj houtcome
  obtain ⟨out, -, hwhole⟩ := (hclaim _ _ _ _ _ _ _ _ hrun).success rfl
  dsimp only at hfile
  rw [hfile] at hwhole
  cases Option.some.inj hwhole

end StegaPng
