import Mathlib.Algebra.BigOperators.Group.Finset.Basic
import Mathlib.Algebra.BigOperators.Group.List.Basic
import Mathlib.Algebra.Ring.Nat
import Mathlib.Data.List.AList

/-!
# Storage maps

A `StorageMap` with optional values: finitely many keys, each holding a value.
The aggregate of a map, for a measure of its values (`sumBy`), changes with a
write only by the measure of the value written and of the one it replaces.
-/

namespace Xode

/-- A finite map from keys to values. -/
abbrev StorageMap (κ β : Type*) := AList fun _ : κ => β

namespace StorageMap

variable {κ β : Type*} [DecidableEq κ] {k k' : κ} {b : β}

/-- The sum of the measures of the values of a map. -/
def sumBy (μ : β → ℕ) (m : StorageMap κ β) : ℕ := (m.entries.map fun e => μ e.2).sum

/-- The measure of the value at a key, `0` when there is none. -/
def measureAt (μ : β → ℕ) (m : StorageMap κ β) (k : κ) : ℕ := (m.lookup k).elim 0 μ

variable (μ : β → ℕ) (m : StorageMap κ β)

theorem lookup_insert_eq :
    (m.insert k b).lookup k' = if k' = k then some b else m.lookup k' := by
  split
  · next h => rw [h, AList.lookup_insert]
  · next h => rw [AList.lookup_insert_ne h]

theorem lookup_erase_eq : (m.erase k).lookup k' = if k' = k then none else m.lookup k' := by
  split
  · next h => rw [h, AList.lookup_erase]
  · next h => rw [AList.lookup_erase_ne h]

private theorem sum_kerase (k : κ) (l : List (Sigma fun _ : κ => β)) :
    ((l.kerase k).map fun e => μ e.2).sum + (l.dlookup k).elim 0 μ =
      (l.map fun e => μ e.2).sum := by
  induction l with
  | nil => rfl
  | cons e l ih =>
    obtain ⟨k', b⟩ := e
    by_cases h : k = k'
    · subst h
      have hl : (⟨k, b⟩ :: l : List (Sigma fun _ : κ => β)).kerase k = l := List.kerase_cons_eq rfl
      rw [hl, List.dlookup_cons_eq, List.map_cons, List.sum_cons]
      exact Nat.add_comm _ _
    · rw [List.kerase_cons_ne h, List.dlookup_cons_ne _ _ h, List.map_cons, List.sum_cons,
        List.map_cons, List.sum_cons, ← ih, Nat.add_assoc]

/-- Erasing a key takes away the measure of its value. -/
theorem sumBy_erase : sumBy μ (m.erase k) + measureAt μ m k = sumBy μ m :=
  sum_kerase μ k m.entries

/-- Writing a value at a key replaces the measure of the value there. -/
theorem sumBy_insert : sumBy μ (m.insert k b) + measureAt μ m k = μ b + sumBy μ m := by
  have := sum_kerase μ k m.entries
  rw [sumBy, AList.entries_insert, List.map_cons, List.sum_cons, sumBy, ← this, Nat.add_assoc]
  rfl

/-- The measure of one value is part of the sum. -/
theorem measureAt_le_sumBy : measureAt μ m k ≤ sumBy μ m := by
  have := sumBy_erase μ m (k := k)
  omega

/-- The measures of the values at several keys are. -/
theorem sum_measureAt_le_sumBy (keys : Finset κ) :
    ∑ k ∈ keys, measureAt μ m k ≤ sumBy μ m := by
  induction keys using Finset.induction_on generalizing m with
  | empty => exact Nat.zero_le _
  | insert k keys hk ih =>
    -- At the other keys, the map is the one without this key.
    have hrest : ∑ k' ∈ keys, measureAt μ m k' = ∑ k' ∈ keys, measureAt μ (m.erase k) k' :=
      Finset.sum_congr rfl fun k' hk' => by
        have hne : k' ≠ k := fun h => hk (h ▸ hk')
        rw [measureAt, measureAt, lookup_erase_eq, if_neg hne]
    have hle := ih (m.erase k)
    have herase := sumBy_erase μ m (k := k)
    rw [Finset.sum_insert hk, hrest]
    omega

end StorageMap

end Xode
