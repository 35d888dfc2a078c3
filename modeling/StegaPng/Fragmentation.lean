import StegaPng.Inventory
import StegaPng.PollReadiness
import StegaPng.Uploads

/-! How the network fragments an upload makes no difference. -/

namespace StegaPng

open Interleaving

/-- A calm outside world answers, so a program that never waits runs to its end. -/
theorem exists_calm_run (codec : PngCodec) {α : Type} {p : Task α} (now : Nat) (t : Tid)
    (hp : p.All fun o => o.waits = false) (s : Sys) :
    ∃ a s', Runs (machineIn (Calm now) codec) t p s a s' :=
  Runs.exists_of_all (fun _ ho => exists_step ⟨{ now := now }, rfl, rfl⟩ codec t ho) hp s

section

variable {codec : PngCodec} {cfg : RuntimeConfig} {dt : DurationText} {m m' : MainState} {i : Nat}
  {client : ClientSession} {now : Nat} {s s' : Sys}

/-- The line is read first, and the session then answers what it says. -/
theorem handleClientCommand_calm {line rest : Bytes} {b : UploadBody} (hline : IsLine line)
    (huser : client.type ≠ .admin) (hb : Accepted cfg (protocolParseLine line) b)
    (h : Runs (machineIn (Calm now) codec) .main (handleClientCommand cfg dt m i client) s m' s')
    (hid : s.world.next_id < 2 ^ 64) (hclean : Clean (s.world.streams client.fd))
    (hbytes : bytesOf (s.world.streams client.fd) = line ++ (b.bytes ++ rest)) :
    ∃ es', Clean es' ∧ bytesOf es' = rest ∧
      s'.world = (uploaded cfg now s.world client (protocolParseLine line) b).setStream
        client.fd es' := by
  rw [handleClientCommand, runs_call_bind] at h
  obtain ⟨r, s₁, ⟨e, marks, -, hexec, -⟩, h⟩ := h
  obtain ⟨es₁, hread, hbytes₁, hclean₁⟩ := readLine_clean hclean hbytes hline
  simp only [exec, hread, Option.some.injEq, Prod.mk.injEq] at hexec
  obtain ⟨rfl, hworld₁, -⟩ := hexec
  have hquit : (protocolParseLine line).command ≠ .quit := by
    intro hq
    have hparts := hb.2.2.2
    rw [hq] at hparts
    exact hparts
  obtain ⟨c, l, rfl⟩ := List.exists_cons_of_ne_nil hline.ne_nil
  simp only [Option.getD_some] at h
  rw [if_neg huser] at h
  simp only [handleUserCommand, if_neg hquit, Runs.bind_iff, Prog.pure_eq, Runs.ret_iff] at h
  obtain ⟨client', s₂, ⟨_, s₃, hanswer, -, rfl⟩, -, rfl⟩ := h
  have hstream : s₁.world.streams client.fd = es₁ := by
    rw [← hworld₁]
    simp
  obtain ⟨es', hclean', hbytes', hworld'⟩ := answerUserCommand_calm hb hanswer
    (by rw [← hworld₁]; exact hid) (by rw [hstream]; exact hclean₁) (hstream ▸ hbytes₁)
  refine ⟨es', hclean', hbytes', ?_⟩
  rw [hworld', ← hworld₁, uploaded_setStream, World.setStream_setStream]

end

/-- An accepted upload runs to its end, leaves the stored files and the job that its
bytes say, and stops at the byte after them. Runs that differ in the fragmentation of
the stream leave the same files, jobs, queue and remaining input. -/
theorem upload_fragmentation (codec : PngCodec) (cfg : RuntimeConfig) (dt : DurationText)
    (m : MainState) (i : Nat) (client : ClientSession) (now : Nat) (w : World) (history : List Mark)
    (line rest : Bytes) (b : UploadBody) (huser : client.type ≠ .admin) (hid : w.next_id < 2 ^ 64)
    (hline : IsLine line) (hb : Accepted cfg (protocolParseLine line) b) :
    (∀ es, Clean es → bytesOf es = line ++ (b.bytes ++ rest) →
      (∃ m' s', Runs (machineIn (Calm now) codec) .main (handleClientCommand cfg dt m i client)
        ⟨w.setStream client.fd es, history⟩ m' s') ∧
      ∀ m' s', Runs (machineIn (Calm now) codec) .main (handleClientCommand cfg dt m i client)
          ⟨w.setStream client.fd es, history⟩ m' s' →
        ∃ es', Clean es' ∧ bytesOf es' = rest ∧
          s'.world = (uploaded cfg now w client (protocolParseLine line) b).setStream
            client.fd es') ∧
    ∀ es₁ es₂, Clean es₁ → Clean es₂ → bytesOf es₁ = line ++ (b.bytes ++ rest) →
      bytesOf es₂ = bytesOf es₁ →
      ∀ m₁ s₁ m₂ s₂,
        Runs (machineIn (Calm now) codec) .main (handleClientCommand cfg dt m i client)
          ⟨w.setStream client.fd es₁, history⟩ m₁ s₁ →
        Runs (machineIn (Calm now) codec) .main (handleClientCommand cfg dt m i client)
          ⟨w.setStream client.fd es₂, history⟩ m₂ s₂ →
        s₁.world.files = s₂.world.files ∧ s₁.world.jobs = s₂.world.jobs ∧
          s₁.world.queue = s₂.world.queue ∧
          s₁.world.next_id = s₂.world.next_id ∧
          bytesOf (s₁.world.streams client.fd) = bytesOf (s₂.world.streams client.fd) := by
  have hend : ∀ es, Clean es → bytesOf es = line ++ (b.bytes ++ rest) → ∀ m' s',
      Runs (machineIn (Calm now) codec) .main (handleClientCommand cfg dt m i client)
        ⟨w.setStream client.fd es, history⟩ m' s' →
      ∃ es', Clean es' ∧ bytesOf es' = rest ∧
        s'.world = (uploaded cfg now w client (protocolParseLine line) b).setStream
          client.fd es' := by
    intro es hclean hbytes m' s' h
    obtain ⟨es', hclean', hbytes', hworld⟩ := handleClientCommand_calm hline huser hb h hid
      (by simpa using hclean) (by simpa using hbytes)
    refine ⟨es', hclean', hbytes', ?_⟩
    rw [hworld, uploaded_setStream, World.setStream_setStream]
  refine ⟨fun es hclean hbytes => ⟨?_, hend es hclean hbytes⟩, ?_⟩
  · exact exists_calm_run codec now .main (handleClientCommand_all
      (fun _ ho _ _ => ho) cfg dt m i rfl rfl) _
  · intro es₁ es₂ hclean₁ hclean₂ hbytes₁ hbytes₂ m₁ s₁ m₂ s₂ h₁ h₂
    obtain ⟨es₁', -, hrest₁, hworld₁⟩ := hend es₁ hclean₁ hbytes₁ m₁ s₁ h₁
    obtain ⟨es₂', -, hrest₂, hworld₂⟩ := hend es₂ hclean₂ (hbytes₂.trans hbytes₁) m₂ s₂ h₂
    rw [hworld₁, hworld₂]
    refine ⟨rfl, rfl, rfl, rfl, ?_⟩
    rw [World.setStream_streams, World.setStream_streams, hrest₁, hrest₂]

/-- The body of an ENCODE_TEXT that arrives at once, and in pieces around interrupts. -/
theorem upload_fragmentation_pieces :
    let client : ClientSession := { fd := 9, type := .user, active := true }
    let w : World := { files := fun _ => none }
    let line := lit "ENCODE_TEXT 2 1\n"
    let whole : Stream := [.chunk 69 (line.tail ++ [1, 2, 3, 80])]
    let pieces : Stream := [.chunk 69 (line.tail ++ [1]), .eintr, .chunk 2 [], .eintr,
      .chunk 3 [80]]
    ∃ m₁ s₁ m₂ s₂,
      Runs (machineIn (Calm 7) rawCodec) .main
        (handleClientCommand runtimeConfigDefaults plainDurations {} 0 client)
        ⟨w.setStream client.fd whole, []⟩ m₁ s₁ ∧
      Runs (machineIn (Calm 7) rawCodec) .main
        (handleClientCommand runtimeConfigDefaults plainDurations {} 0 client)
        ⟨w.setStream client.fd pieces, []⟩ m₂ s₂ ∧
      s₁.world.files = s₂.world.files ∧ s₁.world.jobs = s₂.world.jobs ∧
      bytesOf (s₁.world.streams client.fd) = bytesOf (s₂.world.streams client.fd) := by
  intro client w line whole pieces
  have hparse : protocolParseLine line = { command := .encodeText, size1 := 2, size2 := 1 } := by
    decide +kernel
  have hline : IsLine line :=
    .inl ⟨lit "ENCODE_TEXT 2 1", by decide +kernel, by decide +kernel, by decide +kernel⟩
  have hb : Accepted runtimeConfigDefaults (protocolParseLine line) ⟨[1, 2], [], [3]⟩ := by
    rw [hparse]
    exact ⟨by decide, by decide, rfl, by decide, rfl, rfl⟩
  obtain ⟨hruns, hsame⟩ := upload_fragmentation rawCodec runtimeConfigDefaults plainDurations
    {} 0 client 7 w []
    line [80] _ (by decide) (by decide) hline hb
  have hwhole : Clean whole ∧ bytesOf whole = line ++
    (UploadBody.bytes ⟨[1, 2], [], [3]⟩ ++ [80]) := by
    decide +kernel
  have hpieces : Clean pieces ∧ bytesOf pieces = line ++
    (UploadBody.bytes ⟨[1, 2], [], [3]⟩ ++ [80]) := by
    decide +kernel
  obtain ⟨⟨m₁, s₁, h₁⟩, -⟩ := hruns whole hwhole.1 hwhole.2
  obtain ⟨⟨m₂, s₂, h₂⟩, -⟩ := hruns pieces hpieces.1 hpieces.2
  obtain ⟨hfiles, hjobs, -, -, hrest⟩ := hsame whole pieces hwhole.1 hpieces.1 hwhole.2
    (hpieces.2.trans hwhole.2.symm) m₁ s₁ m₂ s₂ h₁ h₂
  exact ⟨m₁, s₁, m₂, s₂, h₁, h₂, hfiles, hjobs, hrest⟩

end StegaPng
