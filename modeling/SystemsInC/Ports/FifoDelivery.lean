import SystemsInC.Ports.FifoTransfer
import SystemsInC.Verified.GuardedRuns

/-!
# When a transfer delivers

While the receiver of `FifoTransfer` reads, no byte is lost or out of order
(`Stream`).  So a transfer goes wrong only where the receiver takes content for
the marker or the marker for content.  `CleanRead` excludes exactly that, read by
read: clean reads keep the received file a part of the content until the receiver
stops (`Exact`), and after the first read that is not clean it can never be the
content again (`Spoiled`).
-/

namespace SystemsInC.Ports.FifoTransfer

open SystemsInC.Verified.CString
open SystemsInC.Verified.GuardedRuns

/-! ## The bytes on their way -/

section Transfer

variable {cfg : Config} {capacity n : Nat} {s s' : Sys}

/-- What the sender still has to put into the FIFO. -/
def Sys.toSend (s : Sys) : Bytes :=
  s.pending ++ if s.senderPc = .sending then s.file ++ marker else []

/-- While the receiver reads, no byte is lost or out of order, and the sender has
neither ended nor got an acknowledgement. -/
structure Stream (cfg : Config) (s : Sys) : Prop where
  conserved : s.receiverPc = .reading →
    s.received ++ (s.fifo1 ++ s.toSend) = cfg.content ++ marker
  alive : s.receiverPc = .reading → s.senderPc = .sending ∨ s.senderPc = .finishing
  noAck : s.receiverPc = .reading → s.fifo2 = []

theorem Stream.init : Stream cfg (Sys.init cfg) where
  conserved _ := by simp [Sys.init, Sys.toSend]
  alive _ := .inl rfl
  noAck _ := rfl

/-- Out of its loop the receiver does not come back to it. -/
theorem Stream.of_not_reading (h : s.receiverPc ≠ .reading) : Stream cfg s where
  conserved hr := absurd hr h
  alive hr := absurd hr h
  noAck hr := absurd hr h

theorem Stream.fread (h : Stream cfg s) (hs : senderFread s = some s') : Stream cfg s' := by
  rcases senderFread_cases hs with ⟨hpc, hpending, ⟨-, rfl⟩ | ⟨hfile, rfl⟩⟩
  · have hsend : Sys.toSend { s with
        pending := s.file.take maxRead, file := s.file.drop maxRead } = s.toSend := by
      simp only [Sys.toSend, hpc, hpending, reduceIte, List.nil_append]
      rw [← List.append_assoc, List.take_append_drop]
    exact
      { conserved := fun hr => by
          rw [hsend]
          exact h.conserved hr
        alive := h.alive
        noAck := h.noAck }
  · have hsend : Sys.toSend { s with senderPc := .finishing, pending := marker } = s.toSend := by
      simp [Sys.toSend, hpc, hpending, hfile]
    exact
      { conserved := fun hr => by
          rw [hsend]
          exact h.conserved hr
        alive := fun _ => .inr rfl
        noAck := h.noAck }

theorem Stream.write {k : Nat} (h : Stream cfg s) (hs : senderWrite capacity s k = some s') :
    Stream cfg s' := by
  rcases senderWrite_cases hs with ⟨-, ⟨hclosed, rfl⟩ | ⟨-, -, rfl⟩⟩
  · exact .of_not_reading (by simp [hclosed])
  · have hbytes : (s.fifo1 ++ s.pending.take k) ++ Sys.toSend { s with
        fifo1 := s.fifo1 ++ s.pending.take k
        pending := s.pending.drop k } = s.fifo1 ++ s.toSend := by
      simp only [Sys.toSend, List.append_assoc]
      rw [← List.append_assoc (s.pending.take k), List.take_append_drop]
    exact
      { conserved := fun hr => by
          rw [hbytes]
          exact h.conserved hr
        alive := h.alive
        noAck := h.noAck }

theorem Stream.readAck (h : Stream cfg s) (hs : senderReadAck s n = some s') : Stream cfg s' := by
  obtain ⟨-, -, hack, rfl⟩ := senderReadAck_cases hs
  apply Stream.of_not_reading
  intro hr
  rcases hack with hack | hclosed
  · exact hack (h.noAck hr)
  · change s.receiverPc = .reading at hr
    simp [hclosed] at hr

theorem Stream.read (h : Stream cfg s) (hs : receiverRead s n = some s') : Stream cfg s' := by
  rcases receiverRead_cases hs with ⟨hpc, ⟨-, -, -, rfl⟩ | ⟨-, hle, -, rfl⟩ | ⟨-, rfl⟩⟩
  · exact .of_not_reading nofun
  · exact
      { conserved := fun hr => by
          have hold := h.conserved hpc
          rw [take_bufferAfter hle]
          show (s.received ++ s.fifo1.take n) ++ (s.fifo1.drop n ++ s.toSend) = _
          rw [List.append_assoc, ← List.append_assoc (s.fifo1.take n), List.take_append_drop]
          exact hold
        alive := h.alive
        noAck := h.noAck }
  · exact .of_not_reading nofun

theorem Stream.step {a : Act} (h : Stream cfg s) (hs : s.step capacity a = some s') :
    Stream cfg s' := by
  cases a with
  | fread => exact h.fread hs
  | write k => exact h.write hs
  | readAck n => exact h.readAck hs
  | read n => exact h.read hs
  | finish =>
      rcases receiverFinish_cases hs with ⟨-, rfl⟩ | ⟨-, rfl⟩
      · exact .of_not_reading nofun
      · exact .of_not_reading nofun

/-! ## Clean reads -/

/-- While the receiver reads it has written content bytes only, and once it has
left its loop it has written all of them. -/
structure Exact (cfg : Config) (s : Sys) : Prop where
  stream : Stream cfg s
  inside : s.receiverPc = .reading → s.received.length ≤ cfg.content.length
  delivered : s.receiverPc ≠ .reading → s.received = cfg.content

theorem Exact.init : Exact cfg (Sys.init cfg) where
  stream := .init
  inside _ := Nat.zero_le _
  delivered h := absurd rfl h

/-- As many bytes as the content has are the content. -/
theorem Stream.received_eq (h : Stream cfg s) (hr : s.receiverPc = .reading)
    (hlen : s.received.length = cfg.content.length) : s.received = cfg.content :=
  List.append_inj_left (h.conserved hr) hlen

theorem Exact.read (h : Exact cfg s) (hclean : CleanRead cfg s (.read n))
    (hs : receiverRead s n = some s') : Exact cfg s' := by
  have hstream := h.stream.read hs
  rcases receiverRead_cases hs with ⟨hpc, ⟨-, -, hm, rfl⟩ | ⟨-, hle, hm, rfl⟩ | ⟨hended, rfl⟩⟩
  · have hlen : s.received.length = cfg.content.length := by
      by_contra hne
      have hlt := lt_of_le_of_ne (h.inside hpc) hne
      rw [CleanRead, if_pos hlt] at hclean
      exact hclean.2 hm
    exact
      { stream := hstream
        inside := nofun
        delivered := fun _ => h.stream.received_eq hpc hlen }
  · have hfits : s.received.length + n ≤ cfg.content.length := by
      rw [CleanRead] at hclean
      split at hclean
      case isTrue => exact hclean.1
      case isFalse => exact absurd hclean hm
    exact
      { stream := hstream
        inside := fun _ => by
          rw [take_bufferAfter hle, List.length_append, List.length_take_of_le hle]
          exact hfits
        delivered := fun hr => absurd hpc hr }
  · rcases h.stream.alive hpc with halive | halive <;> simp [halive] at hended

theorem Exact.step {a : Act} (h : Exact cfg s) (hclean : CleanRead cfg s a)
    (hs : s.step capacity a = some s') : Exact cfg s' := by
  by_cases ha : ∃ n, a = .read n
  · obtain ⟨n, rfl⟩ := ha
    exact h.read hclean hs
  · obtain ⟨hreceived, hreading⟩ := step_frame hs (fun n hn => ha ⟨n, hn⟩)
    exact
      { stream := h.stream.step hs
        inside := fun hr => hreceived ▸ h.inside (hreading.mp hr)
        delivered := fun hr => hreceived ▸ h.delivered (fun hold => hr (hreading.mpr hold)) }

/-- With the marker all in the received file there would be too many bytes. -/
theorem Exact.not_deadlock (h : Exact cfg s) : ¬ Deadlock s := by
  rintro ⟨hsender, hpending, -, hr, hfifo⟩
  have hbytes := congrArg List.length (h.stream.conserved hr)
  have hinside := h.inside hr
  simp [Sys.toSend, hsender, hpending, hfifo, marker] at hbytes
  omega

/-- While the receiver is in its loop one of the two programs can go on, or they
wait for each other. -/
theorem Stream.deadlock_of_final (h : Stream cfg s) (hcap : 1 ≤ capacity)
    (hfinal : Final capacity s) (hr : s.receiverPc = .reading) : Deadlock s := by
  have hfifo : s.fifo1 = [] := by
    by_contra hne
    have hpos := List.length_pos_of_ne_nil hne
    have hread := hfinal (.read 1)
    have hn : 1 ≤ 1 ∧ 1 ≤ maxRead ∧ 1 ≤ s.fifo1.length := ⟨le_rfl, by decide, hpos⟩
    simp only [Sys.step, receiverRead, hr, hn, and_self, reduceIte] at hread
    split at hread <;> cases hread
  have hpending : s.pending = [] := by
    by_contra hne
    have hpos := List.length_pos_of_ne_nil hne
    have hwrite := hfinal (.write 1)
    have hk : 1 ≤ 1 ∧ 1 ≤ s.pending.length ∧ s.fifo1.length + 1 ≤ capacity :=
      ⟨le_rfl, hpos, by simpa [hfifo] using hcap⟩
    simp [Sys.step, senderWrite, hr, hne, h.alive hr, hk] at hwrite
  have hsender : s.senderPc = .finishing := by
    rcases h.alive hr with hsending | hfinishing
    · have hfread := hfinal .fread
      simp only [Sys.step, senderFread, hsending, hpending, and_self, reduceIte] at hfread
      split at hfread <;> cases hfread
    · exact hfinishing
  exact ⟨hsender, hpending, h.noAck hr, hr, hfifo⟩

/-! ## Reads that are not clean -/

/-- The received file has a byte too many, or the receiver stopped too early. -/
def Spoiled (cfg : Config) (s : Sys) : Prop :=
  cfg.content.length < s.received.length ∨
    s.receiverPc ≠ .reading ∧ s.received.length < cfg.content.length

theorem Spoiled.not_delivered (h : Spoiled cfg s) : ¬ Delivered cfg s := by
  rintro ⟨-, heq⟩
  rcases h with hlong | ⟨-, hshort⟩
  · rw [heq] at hlong
    omega
  · rw [heq] at hshort
    omega

theorem Spoiled.step {a : Act} (h : Spoiled cfg s) (hs : s.step capacity a = some s') :
    Spoiled cfg s' := by
  by_cases ha : ∃ n, a = .read n
  · obtain ⟨n, rfl⟩ := ha
    obtain ⟨hpc, hcase⟩ := receiverRead_cases hs
    have hlong : cfg.content.length < s.received.length :=
      h.resolve_right (fun hshort => hshort.1 hpc)
    left
    rcases hcase with ⟨-, -, -, rfl⟩ | ⟨-, -, -, rfl⟩ | ⟨-, rfl⟩
    · exact hlong
    · rw [List.length_append]
      omega
    · exact hlong
  · obtain ⟨hreceived, hreading⟩ := step_frame hs (fun n hn => ha ⟨n, hn⟩)
    rw [Spoiled, hreceived, Ne, hreading]
    exact h

theorem Exact.spoiled {a : Act} (h : Exact cfg s) (hclean : ¬ CleanRead cfg s a)
    (hs : s.step capacity a = some s') : Spoiled cfg s' := by
  cases a with
  | read n =>
      obtain ⟨hpc, hcase⟩ := receiverRead_cases hs
      rcases hcase with ⟨-, -, hm, rfl⟩ | ⟨hpos, hle, hm, rfl⟩ | ⟨hended, -⟩
      · -- the marker is seen: in front of the end of the content
        right
        refine ⟨nofun, ?_⟩
        by_contra hge
        rw [CleanRead, if_neg hge] at hclean
        exact hclean hm
      · -- the marker is not seen: bytes behind the content are written
        left
        have htoo : cfg.content.length < s.received.length + n := by
          by_contra hge
          have hlt : s.received.length < cfg.content.length := by omega
          rw [CleanRead, if_pos hlt] at hclean
          exact hclean ⟨by omega, hm⟩
        rw [take_bufferAfter hle, List.length_append, List.length_take_of_le hle]
        exact htoo
      · rcases h.stream.alive hpc with halive | halive <;> simp [halive] at hended
  | fread => exact absurd trivial hclean
  | write k => exact absurd trivial hclean
  | readAck n => exact absurd trivial hclean
  | finish => exact absurd trivial hclean

/-! ## Whole transfers -/

end Transfer

/-- Every run is finite.  While all its reads are clean it does not come to a
state in which both programs wait for each other, and when neither can go on any
more the receiver has stopped with the content in received_file.txt exactly if
all reads of the run were clean. -/
theorem transfer (cfg : Config) (acts : List Act) (s : Sys)
    (hrun : run (Sys.step cfg.capacity) (Sys.init cfg) acts = some s) :
    acts.length ≤ 3 * cfg.content.length + 13 ∧
      (Admitted (Sys.step cfg.capacity) (CleanRead cfg) (Sys.init cfg) acts → ¬ Deadlock s) ∧
      (Final cfg.capacity s →
        (Delivered cfg s ↔
          Admitted (Sys.step cfg.capacity) (CleanRead cfg) (Sys.init cfg) acts)) := by
  have hcases := good_or_bad (P := Exact cfg) (Q := Spoiled cfg)
    (fun _ _ _ hexact hclean hs => hexact.step hclean hs)
    (fun _ _ _ hexact hdirty hs => hexact.spoiled hdirty hs)
    (fun _ _ _ hspoiled hs => hspoiled.step hs) .init hrun
  refine ⟨?_, fun hclean => ?_, fun hfinal => ?_⟩
  · have hlength := length_add_le (fun _ _ _ hs => left_lt hs) hrun
    have hleft : (Sys.init cfg).left = 3 * cfg.content.length + 13 := by
      simp [Sys.left, Sys.init, SenderPc.left, ReceiverPc.left]
    omega
  · rcases hcases with ⟨hexact, -⟩ | ⟨-, hdirty⟩
    · exact hexact.not_deadlock
    · exact absurd hclean hdirty
  · rcases hcases with ⟨hexact, hclean⟩ | ⟨hspoiled, hdirty⟩
    · have hstopped : s.receiverPc ≠ .reading := fun hr =>
        hexact.not_deadlock (hexact.stream.deadlock_of_final cfg.capacity_pos hfinal hr)
      exact iff_of_true ⟨hstopped, hexact.delivered hstopped⟩ hclean
    · exact iff_of_false hspoiled.not_delivered hdirty

/-- A file with the one byte 'A'. -/
def oneByte : Config :=
  { content := [65]
    capacity := 65536
    garbage := List.replicate 1024 0
    capacity_pos := by decide
    length_garbage := List.length_replicate }

/-- The receiver reads the content before the marker is written. -/
def oneByteActs : List Act :=
  [.fread, .write 1, .read 1, .fread, .write 4, .read 4, .finish, .readAck 18, .finish]

theorem transfer_oneByte :
    ∃ s, run (Sys.step oneByte.capacity) (Sys.init oneByte) oneByteActs = some s ∧
      s.received = [65] ∧ s.senderPc = .done ∧
      Admitted (Sys.step oneByte.capacity) (CleanRead oneByte) (Sys.init oneByte) oneByteActs := by
  obtain ⟨s, hrun, hreceived, hsender, hreceiver⟩ :
      ∃ s, run (Sys.step oneByte.capacity) (Sys.init oneByte) oneByteActs = some s ∧
        s.received = [65] ∧ s.senderPc = .done ∧ s.receiverPc = .closed :=
    ⟨_, rfl, rfl, rfl, rfl⟩
  have hfinal : Final oneByte.capacity s := by
    intro a
    cases a <;> simp [Sys.step, senderFread, senderWrite, senderReadAck, receiverRead,
      receiverFinish, hsender, hreceiver]
  have hdelivered : Delivered oneByte s := ⟨by simp [hreceiver], hreceived⟩
  exact ⟨s, hrun, hreceived, hsender,
    ((transfer oneByte oneByteActs s hrun).2.2 hfinal).mp hdelivered⟩

/-- The receiver reads the content and the marker at once: the marker is written
into the received file, and both programs wait for ever. -/
theorem oneByte_deadlock :
    ∃ s, run (Sys.step 65536) (Sys.init oneByte) [.fread, .write 1, .fread, .write 4, .read 5] =
        some s ∧
      s.received = [65, 69, 79, 70, 0] ∧ Deadlock s :=
  ⟨_, rfl, rfl, rfl, rfl, rfl, rfl, rfl⟩

end SystemsInC.Ports.FifoTransfer
