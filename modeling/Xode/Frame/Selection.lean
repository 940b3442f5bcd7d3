import Mathlib.Algebra.BigOperators.Group.Finset.Piecewise
import Mathlib.Algebra.Order.BigOperators.Group.Finset
import Mathlib.Data.Finset.Max
import Xode.Frame.Order

/-!
# Selecting from a ranking

A ranking is a list, and what is selected from it the first of its elements, as many as
there is room for.

* If nothing that is left out weighs more than anything selected, and something is left out
  for lack of room only, then no other selection weighs more in all (`sum_le_of_heaviest`).
* When one element moves, and the others keep their order, no more than one of the others
  is selected in its place (`exchange_of_filter`, `eq_of_exchange`).
* An element that nothing has come before stays selected (`mem_take_of_precedes`).
-/

namespace Xode

variable {α : Type*} {a b : α} {l l' : List α} {k : ℕ}

/-- The heaviest elements, as many as there is room for, weigh most together. -/
theorem sum_le_of_heaviest {M : Type*} [AddCommMonoid M] [LinearOrder M] [IsOrderedAddMonoid M]
    [CanonicallyOrderedAdd M] [DecidableEq α] {w : α → M} {s t : Finset α}
    (hs : ∀ x ∈ t, x ∉ s → k ≤ s.card ∧ ∀ y ∈ s, w x ≤ w y) (ht : t.card ≤ k) :
    ∑ x ∈ t, w x ≤ ∑ y ∈ s, w y := by
  by_cases hsub : t ⊆ s
  · exact Finset.sum_le_sum_of_subset hsub
  · obtain ⟨x, hxt, hxs⟩ := Finset.not_subset.1 hsub
    -- The heaviest of those left out is at most as heavy as each that is exchanged for it.
    obtain ⟨z, hz, hmax⟩ := Finset.exists_max_image (t \ s) w ⟨x, Finset.mem_sdiff.2 ⟨hxt, hxs⟩⟩
    have hcard : (t \ s).card ≤ (s \ t).card :=
      Finset.card_sdiff_le_card_sdiff_iff.2 (ht.trans (hs x hxt hxs).1)
    have hz' := Finset.mem_sdiff.1 hz
    calc ∑ x ∈ t, w x
        = ∑ x ∈ t ∩ s, w x + ∑ x ∈ t \ s, w x := (Finset.sum_inter_add_sum_sdiff _ _ _).symm
      _ ≤ ∑ x ∈ t ∩ s, w x + (t \ s).card • w z := by
          gcongr
          exact Finset.sum_le_card_nsmul _ _ _ hmax
      _ ≤ ∑ x ∈ t ∩ s, w x + (s \ t).card • w z :=
          add_le_add le_rfl (nsmul_le_nsmul_left zero_le hcard)
      _ ≤ ∑ x ∈ s ∩ t, w x + ∑ x ∈ s \ t, w x := by
          rw [Finset.inter_comm]
          gcongr
          exact Finset.card_nsmul_le_sum _ _ _ fun y hy =>
            (hs z hz'.1 hz'.2).2 y (Finset.mem_sdiff.1 hy).1
      _ = ∑ y ∈ s, w y := Finset.sum_inter_add_sum_sdiff _ _ _

/-! ### One element moves -/

section

variable [DecidableEq α]

/-- Without an element, the selection is one from the others: with one place less if the
    element holds one. -/
theorem filter_ne_take (hl : l.Nodup) :
    (l.take k).filter (· ≠ a) = (l.filter (· ≠ a)).take (if a ∈ l.take k then k - 1 else k) := by
  induction l generalizing k with
  | nil => simp
  | cons b l ih =>
    rw [List.nodup_cons] at hl
    cases k with
    | zero => simp
    | succ n =>
      rw [List.take_succ_cons]
      by_cases hb : b = a
      · -- Behind the element, it does not come again.
        subst hb
        have hself (l' : List α) (h : b ∉ l') : l'.filter (· ≠ b) = l' :=
          List.filter_eq_self.2 fun x hx => decide_eq_true fun he => h (he ▸ hx)
        rw [List.filter_cons_of_neg (by simp), List.filter_cons_of_neg (by simp), if_pos (by simp),
          hself l hl.1, hself _ fun h => hl.1 (List.mem_of_mem_take h), Nat.add_sub_cancel]
      · rw [List.filter_cons_of_pos (by simpa), List.filter_cons_of_pos (by simpa), ih hl.2]
        have hmem : a ∈ b :: l.take n ↔ a ∈ l.take n := by simp [Ne.symm hb]
        by_cases ha : a ∈ l.take n
        · -- The element holds a place, so there is one.
          obtain ⟨m, rfl⟩ : ∃ m, n = m + 1 := by
            cases n with
            | zero => cases ha
            | succ m => exact ⟨m, rfl⟩
          rw [if_pos ha, if_pos (hmem.2 ha)]
          rfl
        · rw [if_neg ha, if_neg (mt hmem.1 ha), List.take_succ_cons]

/-- What is selected beside an element. -/
theorem mem_take_iff_of_ne (hl : l.Nodup) (hb : b ≠ a) :
    b ∈ l.take k ↔ b ∈ (l.filter (· ≠ a)).take (if a ∈ l.take k then k - 1 else k) := by
  rw [← filter_ne_take hl, List.mem_filter]
  simp [hb]

/-- Two rankings differ in the place of one element only. Another is selected from the second
    and not from the first only where that element loses its place. -/
theorem exchange_of_filter (hl : l.Nodup) (hl' : l'.Nodup)
    (hothers : l.filter (· ≠ a) = l'.filter (· ≠ a)) (hb : b ≠ a) (hmem : b ∈ l'.take k)
    (hout : b ∉ l.take k) : a ∈ l.take k ∧ a ∉ l'.take k := by
  rw [mem_take_iff_of_ne hl' hb] at hmem
  rw [mem_take_iff_of_ne hl hb, hothers] at hout
  by_contra hne
  -- Otherwise there is as much room for the others as in the second.
  refine hout (List.take_subset_take_left _ ?_ hmem)
  by_cases ha : a ∈ l.take k
  · have ha' : a ∈ l'.take k := by_contra fun ha' => hne ⟨ha, ha'⟩
    rw [if_pos ha, if_pos ha']
  · rw [if_neg ha]
    split <;> omega

/-- No more than one of the others is. -/
theorem eq_of_exchange (hl : l.Nodup) (hl' : l'.Nodup)
    (hothers : l.filter (· ≠ a) = l'.filter (· ≠ a)) {c : α} (hb : b ≠ a) (hc : c ≠ a)
    (hbmem : b ∈ l'.take k) (hbout : b ∉ l.take k) (hcmem : c ∈ l'.take k) (hcout : c ∉ l.take k) :
    b = c := by
  obtain ⟨ha, ha'⟩ := exchange_of_filter hl hl' hothers hb hbmem hbout
  rw [mem_take_iff_of_ne hl' hb, if_neg ha'] at hbmem
  rw [mem_take_iff_of_ne hl' hc, if_neg ha'] at hcmem
  rw [mem_take_iff_of_ne hl hb, if_pos ha, hothers] at hbout
  rw [mem_take_iff_of_ne hl hc, if_pos ha, hothers] at hcout
  -- Only the last place is new.
  cases k with
  | zero => cases hbmem
  | succ n =>
    rw [List.take_add_one, List.mem_append, Option.mem_toList] at hbmem hcmem
    exact Option.some_injective _
      ((hbmem.resolve_left hbout).symm.trans (hcmem.resolve_left hcout))

/-- An element that nothing has come before stays selected. -/
theorem mem_take_of_precedes (hl : l.Nodup) (hl' : l'.Nodup) (ha' : a ∈ l')
    (hbefore : ∀ b, Precedes l' b a → Precedes l b a) (ha : a ∈ l.take k) : a ∈ l'.take k := by
  obtain ⟨p, d, rfl⟩ := List.append_of_mem (List.mem_of_mem_take ha)
  obtain ⟨p', d', rfl⟩ := List.append_of_mem ha'
  have hp {p d : List α} (h : (p ++ a :: d).Nodup) : a ∉ p := fun hmem =>
    List.disjoint_of_nodup_append h hmem List.mem_cons_self
  have hsub : p' ⊆ p := fun b hb =>
    (precedes_append_cons hl).2.1 (hbefore b ((precedes_append_cons hl').2.2 hb))
  have hlen : p'.length ≤ p.length :=
    ((List.nodup_append.1 hl').1.subperm hsub).length_le
  rw [List.mem_take_iff_idxOf_lt (by simp), List.idxOf_append_of_notMem (hp hl),
    List.idxOf_cons_self] at ha
  rw [List.mem_take_iff_idxOf_lt (by simp), List.idxOf_append_of_notMem (hp hl'),
    List.idxOf_cons_self]
  omega

end

end Xode
