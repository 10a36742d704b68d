import Mathlib.Logic.Relation
import Mathlib.Data.Set.Insert
import Mathlib.Data.Fintype.Card
import Mathlib.Order.WellFounded

/-!
# Acyclic relations

A relation is acyclic when no point reaches itself in one or more steps.  Two
facts carry every use in this package: removing edges keeps a relation acyclic
(`Acyclic.mono`), and a depth-first search may finish one point after another,
because a point whose successors are all finished extends the finished set
without closing a cycle (`Finished.insert`).
-/

namespace SystemsInC.Verified.AcyclicRelation

open Relation

variable {α : Type*}

/-- No point reaches itself in one or more steps. -/
def Acyclic (r : α → α → Prop) : Prop := ∀ a, ¬ TransGen r a a

/-- Removing edges keeps a relation acyclic. -/
theorem Acyclic.mono {r s : α → α → Prop} (hs : Acyclic s)
    (h : ∀ a b, r a b → s a b) : Acyclic r := by
  intro a hcycle
  exact hs a (TransGen.mono h a a hcycle)

/-- Of finitely many points some point has no successor among them. -/
theorem Acyclic.exists_sink [Finite α] {r : α → α → Prop} (h : Acyclic r) {S : Set α}
    (hne : S.Nonempty) : ∃ a ∈ S, ∀ b ∈ S, ¬ r a b := by
  let later : α → α → Prop := fun a b => TransGen r b a
  have htrans : IsTrans α later := ⟨fun _ _ _ hab hbc => hbc.trans hab⟩
  have hirrefl : Std.Irrefl later := ⟨h⟩
  obtain ⟨a, ha, hlast⟩ := WellFounded.has_min (Finite.wellFounded_of_trans_of_irrefl later) S hne
  exact ⟨a, ha, fun b hb hab => hlast b hb (.single hab)⟩

/-- The set `B` is closed under `r`, and no cycle of `r` meets it. -/
structure Finished (r : α → α → Prop) (B : Set α) : Prop where
  closed : ∀ a ∈ B, ∀ b, r a b → b ∈ B
  acyclic : ∀ a ∈ B, ¬ TransGen r a a

theorem finished_empty (r : α → α → Prop) : Finished r ∅ :=
  { closed := by simp
    acyclic := by simp }

/-- Everything reachable from a finished point is finished. -/
theorem Finished.transGen {r : α → α → Prop} {B : Set α} (h : Finished r B)
    {a b : α} (ha : a ∈ B) (hab : TransGen r a b) : b ∈ B := by
  induction hab with
  | single hstep => exact h.closed _ ha _ hstep
  | tail _ hstep ih => exact h.closed _ ih _ hstep

/-- A point whose successors are all finished may be finished next. -/
theorem Finished.insert {r : α → α → Prop} {B : Set α} (h : Finished r B)
    {u : α} (hu : u ∉ B) (hsucc : ∀ b, r u b → b ∈ B) :
    Finished r (insert u B) := by
  have hreach : ∀ b, TransGen r u b → b ∈ B := by
    intro b hub
    cases hub with
    | single hstep => exact hsucc b hstep
    | tail hmid hstep =>
        obtain ⟨c, hc, hcb⟩ := TransGen.head'_iff.mp (TransGen.tail hmid hstep)
        rcases (reflTransGen_iff_eq_or_transGen.mp hcb) with rfl | hlong
        · exact hsucc _ hc
        · exact h.transGen (hsucc c hc) hlong
  constructor
  · intro a ha b hab
    rcases ha with rfl | ha
    · exact Or.inr (hsucc b hab)
    · exact Or.inr (h.closed a ha b hab)
  · intro a ha hcycle
    rcases ha with rfl | ha
    · exact hu (hreach a hcycle)
    · exact h.acyclic a ha hcycle

/-- Once every point is finished the relation is acyclic. -/
theorem Finished.acyclic_of_univ {r : α → α → Prop} {B : Set α}
    (h : Finished r B) (hall : ∀ a, a ∈ B) : Acyclic r :=
  fun a => h.acyclic a (hall a)

/-- Membership in the same set under another name. -/
theorem Finished.congr {r : α → α → Prop} {B C : Set α} (h : Finished r B)
    (hBC : ∀ a, a ∈ C ↔ a ∈ B) : Finished r C := by
  have hEq : C = B := Set.ext hBC
  rwa [hEq]

/-- Where no point of `P` lies on a cycle, every cycle avoids the edges that leave `P`. -/
theorem cycle_avoids {r : α → α → Prop} {P : α → Prop} (hP : ∀ b, P b → ¬ TransGen r b b)
    {a : α} (h : TransGen r a a) : TransGen (fun x y => r x y ∧ ¬ P x) a a := by
  have hpath : ∀ b, TransGen r a b → ReflTransGen r b a →
      TransGen (fun x y => r x y ∧ ¬ P x) a b := by
    intro b hab
    induction hab with
    | single hedge =>
        intro hback
        exact .single ⟨hedge, fun ha => hP _ ha (TransGen.head' hedge hback)⟩
    | @tail b c hab hedge ih =>
        intro hback
        -- from `b` over the last edge back to `a` and again to `b`
        have hcycle : TransGen r b b := (TransGen.head' hedge hback).trans hab
        exact (ih (.head hedge hback)).tail ⟨hedge, fun hb => hP _ hb hcycle⟩
  exact hpath a h .refl

/-- A closed set that holds the successors of a point but not the point itself keeps it
off every cycle. -/
theorem not_cycle_of_closed {r : α → α → Prop} {a : α} (S : α → Prop)
    (hnext : ∀ b, r a b → S b) (hclosed : ∀ b, S b → ∀ c, r b c → S c) (ha : ¬ S a) :
    ¬ TransGen r a a := by
  intro hcycle
  have hreach : ∀ b, TransGen r a b → S b := by
    intro b hab
    induction hab with
    | single hedge => exact hnext _ hedge
    | tail _ hedge ih => exact hclosed _ ih _ hedge
  exact ha (hreach a hcycle)

end SystemsInC.Verified.AcyclicRelation
