import Xode.Frame.Keyed

/-!
# Order in a list

Which of two elements of a list comes first (`Precedes`). In a list without
duplicates, one of two distinct elements precedes the other, and not both.

An ordered list is unique up to the elements that its order does not distinguish
(`precedes_iff_of_pairwise`). A stable sort keeps two elements in their order
exactly when the relation it sorts by allows that order
(`precedes_insertionSort_iff`). A list of records stays ordered after one of them
is rewritten in place exactly when the new record fits in with those before it
and those behind it (`pairwise_updateKey_iff`).
-/

namespace Xode

variable {α κ : Type*} {l : List α} {a b : α}

/-- `a` comes before `b` in `l`. -/
def Precedes (l : List α) (a b : α) : Prop := [a, b].Sublist l

instance [DecidableEq α] (l : List α) (a b : α) : Decidable (Precedes l a b) :=
  inferInstanceAs (Decidable ([a, b].Sublist l))

theorem Precedes.left_mem (h : Precedes l a b) : a ∈ l := h.subset List.mem_cons_self

theorem Precedes.right_mem (h : Precedes l a b) : b ∈ l := h.subset (by simp)

theorem Precedes.rel {R : α → α → Prop} (h : Precedes l a b) (hl : l.Pairwise R) : R a b :=
  List.pairwise_iff_forall_sublist.1 hl h

theorem precedes_cons {c : α} : Precedes (c :: l) a b ↔ Precedes l a b ∨ a = c ∧ b ∈ l := by
  rw [Precedes, List.sublist_cons_iff]
  refine or_congr_right ⟨?_, ?_⟩
  · rintro ⟨r, hr, h⟩
    cases hr
    exact ⟨rfl, List.singleton_sublist.1 h⟩
  · rintro ⟨rfl, h⟩
    exact ⟨[b], rfl, List.singleton_sublist.2 h⟩

theorem Precedes.append_right {l' : List α} (h : Precedes l' a b) : Precedes (l ++ l') a b :=
  h.trans (List.sublist_append_right l l')

/-- Of two elements, one comes first. -/
theorem precedes_total (ha : a ∈ l) (hb : b ∈ l) (hne : a ≠ b) :
    Precedes l a b ∨ Precedes l b a := by
  induction l with
  | nil => exact absurd ha List.not_mem_nil
  | cons c l ih =>
    rw [precedes_cons, precedes_cons]
    rcases List.mem_cons.1 ha with rfl | ha
    · exact .inl (.inr ⟨rfl, (List.mem_cons.1 hb).resolve_left (Ne.symm hne)⟩)
    · rcases List.mem_cons.1 hb with hbc | hb
      · exact .inr (.inr ⟨hbc, ha⟩)
      · exact (ih ha hb).imp .inl .inl

/-- Without duplicates, not both of two elements come first. -/
theorem Precedes.asymm (h : Precedes l a b) (hl : l.Nodup) : ¬Precedes l b a := by
  induction l with
  | nil => exact absurd h.left_mem List.not_mem_nil
  | cons c l ih =>
    rw [List.nodup_cons] at hl
    intro h'
    rcases precedes_cons.1 h with h | ⟨rfl, hb⟩
    · rcases precedes_cons.1 h' with h' | ⟨hbc, -⟩
      · exact ih h hl.2 h'
      · exact hl.1 (hbc ▸ h.right_mem)
    · rcases precedes_cons.1 h' with h' | ⟨rfl, -⟩
      · exact hl.1 h'.right_mem
      · exact hl.1 hb

theorem not_precedes (hl : l.Nodup) (ha : a ∈ l) (hb : b ∈ l) (hne : a ≠ b) :
    ¬Precedes l a b ↔ Precedes l b a :=
  ⟨(precedes_total ha hb hne).resolve_left, fun h => h.asymm hl⟩

/-- In a list ordered by a comparison, the elements that it distinguishes come in its
    order. -/
theorem precedes_iff_of_pairwise {cmp : α → α → Ordering} [Std.TransCmp cmp]
    (hl : l.Pairwise fun a b => (cmp a b).isLE) (hne : cmp a b ≠ .eq) :
    Precedes l a b ↔ a ∈ l ∧ b ∈ l ∧ (cmp a b).isLE := by
  refine ⟨fun h => ⟨h.left_mem, h.right_mem, h.rel hl⟩, fun ⟨ha, hb, hab⟩ => ?_⟩
  have hab' : a ≠ b := by
    rintro rfl
    exact hne Std.ReflCmp.compare_self
  refine (precedes_total ha hb hab').resolve_right fun h => hne ?_
  have hswap : cmp b a = (cmp a b).swap := Std.OrientedCmp.eq_swap
  have hba : (cmp a b).swap.isLE := hswap ▸ h.rel hl
  exact Ordering.eq_eq_of_isLE_of_isLE_swap hab hba

/-! ### Records -/

/-- The order of the records is that of their keys. -/
theorem precedes_map_key {key : α → κ} (hl : (l.map key).Nodup) (ha : a ∈ l) (hb : b ∈ l) :
    Precedes (l.map key) (key a) (key b) ↔ Precedes l a b := by
  refine ⟨fun h => ?_, fun h => h.map key⟩
  obtain ⟨r, hr, hk⟩ := List.sublist_map_iff.1 h
  obtain ⟨a', b', rfl⟩ := List.length_eq_two.1 (by simpa using congrArg List.length hk.symm)
  simp only [List.map_cons, List.map_nil, List.cons.injEq, and_true] at hk
  have hinj := List.inj_on_of_nodup_map hl
  rwa [hinj ha (hr.subset (by simp)) hk.1, hinj hb (hr.subset (by simp)) hk.2]

/-- Around an element, the others come before it or behind it. -/
theorem precedes_append_cons {l' : List α} (hl : (l ++ a :: l').Nodup) :
    (Precedes (l ++ a :: l') a b ↔ b ∈ l') ∧ (Precedes (l ++ a :: l') b a ↔ b ∈ l) := by
  have hbehind (hb : b ∈ l') : Precedes (l ++ a :: l') a b :=
    Precedes.append_right (precedes_cons.2 (.inr ⟨rfl, hb⟩))
  have hbefore (hb : b ∈ l) : Precedes (l ++ a :: l') b a :=
    List.Sublist.append (List.singleton_sublist.2 hb)
      (List.singleton_sublist.2 List.mem_cons_self)
  have hb (h : b ∈ l ++ a :: l') (hne : b ≠ a) : b ∈ l ∨ b ∈ l' :=
    (List.mem_append.1 h).imp_right fun h => (List.mem_cons.1 h).resolve_left hne
  have hne : ¬Precedes (l ++ a :: l') a a := List.nodup_iff_sublist.1 hl a
  refine ⟨⟨fun h => ?_, hbehind⟩, fun h => ?_, hbefore⟩
  · exact (hb h.right_mem (by rintro rfl; exact hne h)).resolve_left fun h' =>
      h.asymm hl (hbefore h')
  · exact (hb h.left_mem (by rintro rfl; exact hne h)).resolve_right fun h' =>
      h.asymm hl (hbehind h')

/-- Rewriting a record in place leaves an ordered list ordered exactly when the
    new record fits in with those before it and those behind it. -/
theorem pairwise_updateKey_iff [DecidableEq κ] {key : α → κ} {k : κ} {f : α → α}
    {R : α → α → Prop} (hl : (l.map key).Nodup) (hR : l.Pairwise R)
    (ha : findKey key k l = some a) :
    (updateKey key k f l).Pairwise R ↔
      ∀ b, (Precedes l a b → R (f a) b) ∧ (Precedes l b a → R b (f a)) := by
  obtain ⟨l₁, l₂, rfl⟩ := List.append_of_mem (mem_of_findKey ha)
  have hk : k ∉ l₁.map key := by
    rw [← key_of_findKey ha]
    rw [List.map_append, List.map_cons, List.nodup_middle, List.nodup_cons, List.mem_append] at hl
    exact fun h => hl.1 (.inl h)
  rw [updateKey_append hk, updateKey_cons, if_pos (key_of_findKey ha)]
  simp only [precedes_append_cons hl.of_map]
  rw [List.pairwise_append, List.pairwise_cons] at hR ⊢
  constructor
  · rintro ⟨-, ⟨h₁, -⟩, h₂⟩ b
    exact ⟨h₁ b, fun hb => h₂ b hb _ List.mem_cons_self⟩
  · refine fun h => ⟨hR.1, ⟨fun b => (h b).1, hR.2.1.2⟩, fun b hb c hc => ?_⟩
    rcases List.mem_cons.1 hc with rfl | hc
    · exact (h b).2 hb
    · exact hR.2.2 b hb c (List.mem_cons_of_mem _ hc)

/-! ### Sorting -/

section

variable {r : α → α → Prop} [DecidableRel r] {p : α → Bool}

/-- Inserting where it belongs goes through a filter. -/
theorem filter_orderedInsert [IsTrans α r] (hl : l.Pairwise r) :
    (l.orderedInsert r a).filter p =
      if p a then (l.filter p).orderedInsert r a else l.filter p := by
  induction l with
  | nil => cases ha : p a <;> simp [ha]
  | cons b l ih =>
    rw [List.pairwise_cons] at hl
    by_cases hab : r a b
    · -- What comes before `b` comes before all that is kept.
      have hrel : ∀ x ∈ (b :: l).filter p, r a x := fun x hx => by
        rcases List.mem_cons.1 (List.mem_of_mem_filter hx) with rfl | hx
        exacts [hab, IsTrans.trans _ _ _ hab (hl.1 x hx)]
      have hfront : ((b :: l).filter p).orderedInsert r a = a :: (b :: l).filter p := by
        cases hf : (b :: l).filter p with
        | nil => rfl
        | cons x xs => exact if_pos (hrel x (hf ▸ List.mem_cons_self))
      rw [List.orderedInsert, if_pos hab, List.filter_cons, hfront]
    · rw [List.orderedInsert, if_neg hab, List.filter_cons, ih hl.2, List.filter_cons]
      cases p a <;> cases p b <;> simp [hab]

/-- A stable sort goes through a filter. -/
theorem filter_insertionSort [Std.Total r] [IsTrans α r] (l : List α) :
    (l.insertionSort r).filter p = (l.filter p).insertionSort r := by
  induction l with
  | nil => rfl
  | cons a l ih =>
    rw [List.insertionSort_cons, filter_orderedInsert (List.pairwise_insertionSort r l), ih,
      List.filter_cons]
    cases p a <;> simp

end

/-- A stable sort keeps two elements in their order exactly when the relation it
    sorts by allows it. -/
theorem precedes_insertionSort_iff {r : α → α → Prop} [DecidableRel r] [Std.Total r] [IsTrans α r]
    (h : Precedes l a b) : Precedes (l.insertionSort r) a b ↔ r a b :=
  ⟨fun h' => h'.rel (List.pairwise_insertionSort r l), fun hr =>
    List.pair_sublist_insertionSort hr h⟩

end Xode
