import SystemsInC.Ports.FutexQueue
import SystemsInC.Verified.RingBuffer

/-!
# What the bounded queue hands over

The threads of `FutexQueue` again, this time for what goes through the buffer.  They
take any numbers of items, and `futex_wait` may return at any moment, for whatever
reason.

In every reachable state the items that were consumed and the items in the
buffer are the items that were produced (`ring_is_fifo`).
-/

namespace SystemsInC.Ports.RingQueue

open SystemsInC.Verified.GuardedRuns
open SystemsInC.Verified.RingBuffer
open SystemsInC.Ports.FutexQueue (Config Thread Sys producer consumer futexWait futexWake
  futexWait_cases futexWake_cases)

variable {cfg : Config}

/-! ## Spurious returns -/

/-- `futex_wait` returns although nobody has woken the thread. -/
def futexReturn (s : Sys cfg) (t : Thread cfg) : Option (Sys cfg) :=
  if s.pc t = .waiting ∨ s.pc t = .asleep then
    some { s with pc := Function.update s.pc t .start }
  else
    none

/-- A choice of the scheduler, or a return of `futex_wait`. -/
inductive Act (cfg : Config)
  | thread (a : FutexQueue.Act cfg)
  | futexReturn (t : Thread cfg)

def step (s : Sys cfg) : Act cfg → Option (Sys cfg)
  | .thread a => s.step a
  | .futexReturn t => futexReturn s t

/-- Whatever the threads reach without such returns, they reach with them. -/
theorem reach_of_futex {s : Sys cfg}
    (h : Reach Sys.step (fun _ _ => True) (Sys.init cfg) s) :
    Reach step (fun _ _ => True) (Sys.init cfg) s :=
  h.keeps .refl (fun _ a _ hreach _ hs => .step (.thread a) hreach trivial hs)

/-! ## What a step does to the buffer -/

/-- The two states differ in nothing that has to do with the buffer. -/
structure SameBuffer (s s' : Sys cfg) : Prop where
  buffer : s'.buffer = s.buffer
  inPos : s'.inPos = s.inPos
  outPos : s'.outPos = s.outPos
  count : s'.count = s.count
  produced : s'.produced = s.produced
  consumed : s'.consumed = s.consumed

theorem section_sameBuffer {s s' : Sys cfg} {t : Thread cfg} {blocked : Bool}
    {body : Sys cfg → Sys cfg} (h : s.section t blocked body = some s') :
    SameBuffer s s' ∨ blocked = false ∧ SameBuffer (body s) s' := by
  have ⟨_, _, _, hcases⟩ := s.section_cases h
  rcases hcases with ⟨_, rfl⟩ | ⟨hfree, _, rfl⟩ | ⟨hfree, _, rfl⟩
  · exact .inl ⟨rfl, rfl, rfl, rfl, rfl, rfl⟩
  · exact .inr ⟨hfree, rfl, rfl, rfl, rfl, rfl, rfl⟩
  · exact .inr ⟨hfree, rfl, rfl, rfl, rfl, rfl, rfl⟩

/-- A step leaves the buffer alone, puts an item into a buffer that is not full,
or takes one from a buffer that is not empty. -/
theorem step_cases {s s' : Sys cfg} {a : Act cfg} (h : step s a = some s') :
    SameBuffer s s' ∨
      (∃ item, s.count ≠ cfg.bufferSize ∧ SameBuffer (s.put item) s') ∨
      (s.count ≠ 0 ∧ SameBuffer s.take s') := by
  cases a with
  | thread a =>
      cases a with
      | producer i =>
          rcases section_sameBuffer h with hsame | ⟨hroom, hput⟩
          · exact .inl hsame
          · exact .inr (.inl ⟨_, ne_of_beq_false hroom, hput⟩)
      | consumer i =>
          rcases section_sameBuffer h with hsame | ⟨hsome, htake⟩
          · exact .inl hsame
          · exact .inr (.inr ⟨ne_of_beq_false hsome, htake⟩)
      | futexWait t =>
          obtain ⟨_, rfl⟩ := futexWait_cases h
          exact .inl ⟨rfl, rfl, rfl, rfl, rfl, rfl⟩
      | futexWake t woken =>
          obtain ⟨_, ⟨u, _, rfl⟩ | ⟨_, rfl⟩⟩ := futexWake_cases h
          · exact .inl ⟨rfl, rfl, rfl, rfl, rfl, rfl⟩
          · exact .inl ⟨rfl, rfl, rfl, rfl, rfl, rfl⟩
  | futexReturn t =>
      left
      by_cases hpc : s.pc t = .waiting ∨ s.pc t = .asleep
      · rw [step, futexReturn, if_pos hpc] at h
        cases h
        exact ⟨rfl, rfl, rfl, rfl, rfl, rfl⟩
      · rw [step, futexReturn, if_neg hpc] at h
        cases h

/-! ## First in, first out -/

/-- The buffer is a ring that holds what was produced and not yet consumed. -/
structure HandsOver (s : Sys cfg) : Prop where
  size : s.buffer.length = cfg.bufferSize
  ring : ∃ items, IsRing s.buffer s.inPos s.outPos s.count items ∧
    s.consumed ++ items = s.produced

theorem HandsOver.init (cfg : Config) : HandsOver (Sys.init cfg) where
  size := List.length_replicate
  ring := by
    refine ⟨[], IsRing.empty ?_, rfl⟩
    show 0 < (List.replicate cfg.bufferSize 0).length
    rw [List.length_replicate]
    exact cfg.size_pos

theorem HandsOver.same {s s' : Sys cfg} (hand : HandsOver s) (h : SameBuffer s s') :
    HandsOver s' := by
  have ⟨items, hring, hitems⟩ := hand.ring
  refine ⟨?_, items, ?_, ?_⟩
  · rw [h.buffer]
    exact hand.size
  · rw [h.buffer, h.inPos, h.outPos, h.count]
    exact hring
  · rw [h.produced, h.consumed]
    exact hitems

theorem HandsOver.put {s : Sys cfg} (hand : HandsOver s) (hroom : s.count ≠ cfg.bufferSize)
    (item : Nat) : HandsOver (s.put item) := by
  have ⟨items, hring, hitems⟩ := hand.ring
  refine ⟨?_, items ++ [item], ?_, ?_⟩
  · show (s.buffer.set s.inPos item).length = cfg.bufferSize
    rw [List.length_set]
    exact hand.size
  · have hnext := hring.put (hand.size ▸ hroom) item
    rw [slotAt, hand.size] at hnext
    exact hnext
  · show s.consumed ++ (items ++ [item]) = s.produced ++ [item]
    rw [← List.append_assoc, hitems]

theorem HandsOver.take {s : Sys cfg} (hand : HandsOver s) (hsome : s.count ≠ 0) :
    HandsOver s.take := by
  have ⟨items, hring, hitems⟩ := hand.ring
  have ⟨x, rest, hcons, hget, hnext⟩ := hring.take hsome
  refine ⟨hand.size, rest, ?_, ?_⟩
  · rw [slotAt, hand.size] at hnext
    exact hnext
  · show s.consumed ++ [s.buffer.getD s.outPos 0] ++ rest = s.produced
    rw [List.getD_eq_getElem?_getD, hget, Option.getD_some, ← hitems, hcons, List.append_assoc]
    rfl

theorem HandsOver.of_step {s s' : Sys cfg} {a : Act cfg} (hand : HandsOver s)
    (h : step s a = some s') : HandsOver s' := by
  rcases step_cases h with hsame | ⟨item, hroom, hput⟩ | ⟨hsome, htake⟩
  · exact hand.same hsame
  · exact (hand.put hroom item).same hput
  · exact (hand.take hsome).same htake

theorem HandsOver.of_reach {s : Sys cfg}
    (h : Reach step (fun _ _ => True) (Sys.init cfg) s) : HandsOver s :=
  h.keeps (HandsOver.init cfg) (fun _ _ _ hand _ hs => hand.of_step hs)

/-- No slot with an item in it is written: a step leaves the buffer alone, or it
writes the item that it appends to the history to a slot that holds none. -/
theorem HandsOver.writes_free {s s' : Sys cfg} {a : Act cfg} (hand : HandsOver s)
    (h : step s a = some s') :
    s'.buffer = s.buffer ∧ s'.produced = s.produced ∨
      ∃ item, s'.buffer = s.buffer.set s.inPos item ∧ s'.produced = s.produced ++ [item] ∧
        ¬ Occupied s.buffer s.outPos s.count s.inPos := by
  have ⟨items, hring, _⟩ := hand.ring
  rcases step_cases h with hsame | ⟨item, hroom, hput⟩ | ⟨_, htake⟩
  · exact .inl ⟨hsame.buffer, hsame.produced⟩
  · exact .inr ⟨item, hput.buffer, hput.produced, hring.not_occupied (hand.size ▸ hroom)⟩
  · exact .inl ⟨htake.buffer, htake.produced⟩

/-- In every state that any schedule reaches the two positions and the counter
fit together, what was consumed and what the buffer still holds is what was
produced, in this order, and no step writes a slot that holds an item. -/
theorem ring_is_fifo (cfg : Config) (s : Sys cfg)
    (h : Reach step (fun _ _ => True) (Sys.init cfg) s) :
    s.buffer.length = cfg.bufferSize ∧ s.count ≤ cfg.bufferSize ∧
      s.inPos < cfg.bufferSize ∧ s.outPos < cfg.bufferSize ∧
      s.inPos = (s.outPos + s.count) % cfg.bufferSize ∧
      s.consumed ++ (List.range s.count).map
          (fun k => s.buffer.getD ((s.outPos + k) % cfg.bufferSize) 0) = s.produced ∧
      ∀ a s', step s a = some s' →
        s'.buffer = s.buffer ∧ s'.produced = s.produced ∨
          ∃ item, s'.buffer = s.buffer.set s.inPos item ∧ s'.produced = s.produced ++ [item] ∧
            ∀ k < s.count, s.inPos ≠ (s.outPos + k) % cfg.bufferSize := by
  have hand := HandsOver.of_reach h
  have ⟨items, hring, hitems⟩ := hand.ring
  have hcontents : items = (List.range s.count).map
      (fun k => s.buffer.getD ((s.outPos + k) % cfg.bufferSize) 0) := by
    rw [← hring.items_eq, readFrom_eq_map 0 s.count hring.outPos_lt]
    simp only [slotAt, hand.size]
  refine ⟨hand.size, hand.size ▸ hring.count_le, hand.size ▸ hring.inPos_lt,
    hand.size ▸ hring.outPos_lt, hand.size ▸ hring.inPos_eq, hcontents ▸ hitems, ?_⟩
  intro a s' hs
  rcases hand.writes_free hs with hsame | ⟨item, hbuffer, hproduced, hfree⟩
  · exact .inl hsame
  · refine .inr ⟨item, hbuffer, hproduced, fun k hk heq => hfree ⟨k, hk, ?_⟩⟩
    rw [slotAt, hand.size]
    exact heq

/-- One producer, one consumer and a buffer of one slot, in which the producer is
the faster one. -/
abbrev oneSlot : Config :=
  { bufferSize := 1
    numProducers := 1
    numConsumers := 1
    itemsToProduce := fun _ => 3
    itemsToConsume := fun _ => 2
    size_pos := by decide }

/-- The producer waits in front of the full buffer, `futex_wait` returns although
nobody woke it, and it waits again; then the first item is consumed and the
second one takes its slot. -/
theorem ring_is_fifo_oneSlot :
    ∃ s, Reach step (fun _ _ => True) (Sys.init oneSlot) s ∧ s.produced = [1, 2] ∧
      s.consumed ++ (List.range s.count).map
        (fun k => s.buffer.getD ((s.outPos + k) % 1) 0) = s.produced := by
  have hrun : run step (Sys.init oneSlot)
      [.thread (.producer 0), .thread (.producer 0), .futexReturn (.producer 0),
        .thread (.producer 0), .thread (.futexWait (.producer 0)), .thread (.consumer 0),
        .thread (.futexWake (.consumer 0) (some (.producer 0))), .thread (.producer 0)] =
          some _ := rfl
  have hreach := Reach.of_run hrun
  exact ⟨_, hreach, rfl, (ring_is_fifo oneSlot _ hreach).2.2.2.2.2.1⟩

end SystemsInC.Ports.RingQueue
