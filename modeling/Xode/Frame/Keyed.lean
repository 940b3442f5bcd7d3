import Mathlib.Algebra.BigOperators.Group.List.Basic
import Mathlib.Algebra.Ring.Nat
import Mathlib.Data.List.Nodup
import Mathlib.Data.List.Sort

/-!
# Lists of keyed records

A storage item that holds a list of records is read and written by key: the
first record with a given key is looked up (`findKey`) or rewritten in place
(`updateKey`). A list whose keys are pairwise distinct then behaves as a finite
map, whatever its order:

* rewriting one record changes the lookup of its key and of no other
  (`findKey_updateKey`);
* permuting the records changes no lookup (`findKey_perm`), so sorting does not
  either, and lists with the same lookups hold the same records
  (`perm_of_findKey`);
* rewriting some records and dropping the others does so to their lookups
  (`findKey_filterMap`).

A sum over the records changes with a rewriting, or with the removal of a record
(`eraseKey`), only by what that record adds to it (`sum_updateKey`,
`sum_eraseKey`).
-/

namespace Xode

variable {α κ : Type*} [DecidableEq κ] (key : α → κ)

/-- The first record with key `k`. -/
def findKey (k : κ) (l : List α) : Option α := l.find? fun a => key a = k

/-- Rewriting, in place, the first record with key `k`. -/
def updateKey (k : κ) (f : α → α) (l : List α) : List α :=
  l.replaceF fun a => if key a = k then some (f a) else none

/-- Removing the first record with key `k`. -/
def eraseKey (k : κ) (l : List α) : List α := l.eraseP fun a => key a = k

variable {key} {k k' : κ} {f : α → α} {a : α} {l l' : List α}

theorem findKey_nil : findKey key k [] = none := rfl

theorem findKey_cons :
    findKey key k (a :: l) = if key a = k then some a else findKey key k l := by
  by_cases h : key a = k <;> simp [findKey, h]

theorem updateKey_nil : updateKey key k f [] = [] := rfl

theorem updateKey_cons :
    updateKey key k f (a :: l) = if key a = k then f a :: l else a :: updateKey key k f l := by
  by_cases h : key a = k <;> simp [updateKey, h]

theorem eraseKey_cons :
    eraseKey key k (a :: l) = if key a = k then l else a :: eraseKey key k l := by
  by_cases h : key a = k <;> simp [eraseKey, h]

/-! ### Lookups -/

theorem mem_of_findKey (h : findKey key k l = some a) : a ∈ l := List.mem_of_find?_eq_some h

theorem key_of_findKey (h : findKey key k l = some a) : key a = k := by
  simpa using List.find?_some h

theorem findKey_eq_none : findKey key k l = none ↔ k ∉ l.map key := by
  simp [findKey]

theorem findKey_isSome : (findKey key k l).isSome ↔ k ∈ l.map key := by
  rw [Option.isSome_iff_ne_none, Ne, findKey_eq_none, not_not]

/-- With distinct keys, the lookup of `k` is the record with key `k`. -/
theorem findKey_eq_some (hl : (l.map key).Nodup) :
    findKey key k l = some a ↔ a ∈ l ∧ key a = k := by
  refine ⟨fun h => ⟨mem_of_findKey h, key_of_findKey h⟩, fun ⟨ha, hk⟩ => ?_⟩
  obtain ⟨b, hb⟩ := Option.isSome_iff_exists.1
    (findKey_isSome.2 (hk ▸ List.mem_map_of_mem ha : k ∈ l.map key))
  rw [hb, List.inj_on_of_nodup_map hl (mem_of_findKey hb) ha (by rw [key_of_findKey hb, hk])]

theorem findKey_of_mem (hl : (l.map key).Nodup) (ha : a ∈ l) : findKey key (key a) l = some a :=
  (findKey_eq_some hl).2 ⟨ha, rfl⟩

theorem findKey_perm (hl : (l.map key).Nodup) (h : l.Perm l') :
    findKey key k l' = findKey key k l :=
  Option.ext fun a => by
    rw [findKey_eq_some ((h.map key).nodup_iff.1 hl), findKey_eq_some hl, h.mem_iff]

/-- Lists with distinct keys and the same lookups hold the same records. -/
theorem perm_of_findKey (hl : (l.map key).Nodup) (hl' : (l'.map key).Nodup)
    (h : ∀ k, findKey key k l = findKey key k l') : l.Perm l' := by
  have hmem {l : List α} (hl : (l.map key).Nodup) (a : α) :
      a ∈ l ↔ findKey key (key a) l = some a := by
    rw [findKey_eq_some hl, and_iff_left rfl]
  exact (List.perm_ext_iff_of_nodup hl.of_map hl'.of_map).2 fun a => by
    rw [hmem hl, hmem hl', h]

variable (key) in
/-- Lists with the same records of each key, in the same order, hold the same records. -/
theorem perm_of_filter_key [DecidableEq α]
    (h : ∀ k, l.filter (fun a => key a = k) = l'.filter fun a => key a = k) : l.Perm l' := by
  refine List.perm_iff_count.2 fun a => ?_
  have hcount (l : List α) : (l.filter fun b => key b = key a).count a = l.count a :=
    List.count_filter (decide_eq_true rfl)
  rw [← hcount l, h, hcount]

/-- The lookup of `k` is the first of the records with key `k`. -/
theorem head?_filter_key : (l.filter fun a => key a = k).head? = findKey key k l :=
  List.head?_filter

theorem findKey_append_singleton :
    findKey key k (l ++ [a]) = (findKey key k l).or (if key a = k then some a else none) := by
  rw [findKey, List.find?_append]
  by_cases h : key a = k <;> simp [findKey, h]

omit [DecidableEq κ] in
theorem nodup_append_singleton (hl : (l.map key).Nodup) (ha : ∀ b ∈ l, key b ≠ key a) :
    ((l ++ [a]).map key).Nodup := by
  rw [List.map_append, List.nodup_append]
  simpa [hl] using ha

theorem findKey_map {g : α → α} (hg : ∀ a, key (g a) = key a) :
    findKey key k (l.map g) = (findKey key k l).map g := by
  have hk : (fun a => decide (key a = k)) ∘ g = fun a => decide (key a = k) := by
    funext a
    rw [Function.comp_apply, hg]
  rw [findKey, List.find?_map, hk, findKey]

omit [DecidableEq κ] in
theorem map_key_filterMap {g : α → Option α} (hg : ∀ a b, g a = some b → key b = key a) :
    ((l.filterMap g).map key).Sublist (l.map key) := by
  induction l with
  | nil => exact List.Sublist.slnil
  | cons a l ih =>
    rw [List.filterMap_cons]
    cases h : g a with
    | none => exact ih.trans (List.sublist_cons_self _ _)
    | some b => simpa [hg a b h] using ih

/-- Rewriting some records and dropping the others does so to their lookups. -/
theorem findKey_filterMap {g : α → Option α} (hl : (l.map key).Nodup)
    (hg : ∀ a b, g a = some b → key b = key a) :
    findKey key k (l.filterMap g) = (findKey key k l).bind g := by
  refine Option.ext fun b => ?_
  rw [findKey_eq_some (hl.sublist (map_key_filterMap hg)), List.mem_filterMap,
    Option.bind_eq_some_iff]
  constructor
  · rintro ⟨⟨a, ha, hab⟩, hk⟩
    exact ⟨a, (findKey_eq_some hl).2 ⟨ha, hg a b hab ▸ hk⟩, hab⟩
  · rintro ⟨a, ha, hab⟩
    exact ⟨⟨a, mem_of_findKey ha, hab⟩, (hg a b hab).trans (key_of_findKey ha)⟩

/-! ### Updates -/

theorem map_key_updateKey (hf : ∀ a, key (f a) = key a) :
    (updateKey key k f l).map key = l.map key := by
  induction l with
  | nil => rfl
  | cons a l ih => rw [updateKey_cons]; split <;> simp [hf, ih]

theorem length_updateKey : (updateKey key k f l).length = l.length := by
  induction l with
  | nil => rfl
  | cons a l ih => rw [updateKey_cons]; split <;> simp [ih]

theorem findKey_updateKey (hf : ∀ a, key (f a) = key a) :
    findKey key k' (updateKey key k f l) =
      if k' = k then (findKey key k l).map f else findKey key k' l := by
  induction l with
  | nil => simp [updateKey_nil, findKey_nil]
  | cons a l ih =>
    rw [updateKey_cons]
    by_cases ha : key a = k
    · by_cases hk : k' = k
      · simp [findKey_cons, hf, ha, hk]
      · simp [findKey_cons, hf, ha, hk, Ne.symm hk]
    · rw [if_neg ha, findKey_cons, ih]
      by_cases hk : k' = k
      · simp [findKey_cons, hk, ha]
      · simp [findKey_cons, hk]

theorem mem_updateKey {b : α} (h : b ∈ updateKey key k f l) :
    b ∈ l ∨ ∃ a ∈ l, key a = k ∧ b = f a := by
  induction l with
  | nil => exact .inl h
  | cons a l ih =>
    rw [updateKey_cons] at h
    split at h
    · next ha =>
      rcases List.mem_cons.1 h with rfl | h
      · exact .inr ⟨a, List.mem_cons_self, ha, rfl⟩
      · exact .inl (List.mem_cons_of_mem _ h)
    · rcases List.mem_cons.1 h with rfl | h
      · exact .inl List.mem_cons_self
      · rcases ih h with h | ⟨c, hc, h⟩
        · exact .inl (List.mem_cons_of_mem _ h)
        · exact .inr ⟨c, List.mem_cons_of_mem _ hc, h⟩

theorem updateKey_of_notMem (hk : k ∉ l.map key) : updateKey key k f l = l := by
  induction l with
  | nil => rfl
  | cons a l ih =>
    rw [List.map_cons, List.mem_cons, not_or] at hk
    rw [updateKey_cons, if_neg (Ne.symm hk.1), ih hk.2]

theorem updateKey_append (hk : k ∉ l.map key) :
    updateKey key k f (l ++ l') = l ++ updateKey key k f l' := by
  induction l with
  | nil => rfl
  | cons a l ih =>
    rw [List.map_cons, List.mem_cons, not_or] at hk
    rw [List.cons_append, updateKey_cons, if_neg (Ne.symm hk.1), ih hk.2, List.cons_append]

/-- With distinct keys, rewriting the first record with key `k` rewrites every
    record with key `k`. -/
theorem updateKey_eq_map (hl : (l.map key).Nodup) :
    updateKey key k f l = l.map fun a => if key a = k then f a else a := by
  induction l with
  | nil => rfl
  | cons a l ih =>
    rw [List.map_cons, List.nodup_cons] at hl
    rw [updateKey_cons, List.map_cons, ← ih hl.2]
    by_cases ha : key a = k
    · rw [if_pos ha, if_pos ha, updateKey_of_notMem (ha ▸ hl.1)]
    · rw [if_neg ha, if_neg ha]

theorem perm_updateKey (hl : (l.map key).Nodup) (h : l.Perm l') :
    (updateKey key k f l).Perm (updateKey key k f l') := by
  rw [updateKey_eq_map hl, updateKey_eq_map ((h.map key).nodup_iff.1 hl)]
  exact h.map _

/-- A pairwise relation survives a rewriting that keeps, for every record, what
    the relation needs of it. -/
theorem pairwise_updateKey {R : α → α → Prop} (hl : l.Pairwise R)
    (h₁ : ∀ a b, key a = k → R a b → R (f a) b) (h₂ : ∀ a b, key b = k → R a b → R a (f b)) :
    (updateKey key k f l).Pairwise R := by
  induction l with
  | nil => exact List.Pairwise.nil
  | cons a l ih =>
    rw [List.pairwise_cons] at hl
    rw [updateKey_cons]
    split
    · next ha => exact List.pairwise_cons.2 ⟨fun b hb => h₁ a b ha (hl.1 b hb), hl.2⟩
    · refine List.pairwise_cons.2 ⟨fun b hb => ?_, ih hl.2⟩
      rcases mem_updateKey hb with hb | ⟨c, hc, hk, rfl⟩
      · exact hl.1 b hb
      · exact h₂ a c hk (hl.1 c hc)

/-- A rewriting touches none of the records with other keys. -/
theorem filter_updateKey (hf : ∀ a, key (f a) = key a) :
    ((updateKey key k f l).filter fun a => key a ≠ k) = l.filter fun a => key a ≠ k := by
  induction l with
  | nil => rfl
  | cons a l ih =>
    rw [updateKey_cons]
    by_cases ha : key a = k
    · rw [if_pos ha, List.filter_cons_of_neg (by simp [hf, ha]),
        List.filter_cons_of_neg (by simp [ha])]
    · rw [if_neg ha, List.filter_cons_of_pos (by simpa using ha),
        List.filter_cons_of_pos (by simpa using ha), ih]

/-- Of the records with key `k`, a rewriting touches the first. -/
theorem filter_updateKey_self (hf : ∀ a, key (f a) = key a) :
    ((updateKey key k f l).filter fun a => key a = k) =
      updateKey key k f (l.filter fun a => key a = k) := by
  induction l with
  | nil => rfl
  | cons a l ih =>
    rw [updateKey_cons]
    by_cases ha : key a = k
    · rw [if_pos ha, List.filter_cons_of_pos (by simp [hf, ha]),
        List.filter_cons_of_pos (by simp [ha]), updateKey_cons, if_pos ha]
    · rw [if_neg ha, List.filter_cons_of_neg (by simpa using ha),
        List.filter_cons_of_neg (by simpa using ha), ih]

/-! ### Removals -/

/-- The record at the first position with key `k` is the one looked up. -/
theorem findKey_of_findFinIdx? {i : Fin l.length}
    (h : (l.findFinIdx? fun a => key a = k) = some i) : findKey key k l = some (l.get i) := by
  rw [findKey, List.find?_eq_bind_findIdx?_getElem?, List.findIdx?_eq_map_findFinIdx?_val, h]
  exact List.getElem?_eq_getElem i.2

/-- Removing at the first position with key `k` removes the record looked up. -/
theorem eraseIdx_of_findFinIdx? {i : Fin l.length}
    (h : (l.findFinIdx? fun a => key a = k) = some i) : l.eraseIdx i = eraseKey key k l := by
  rw [eraseKey, List.eraseP_eq_eraseIdx, List.findIdx?_eq_map_findFinIdx?_val, h]
  rfl

theorem findFinIdx?_isSome : (l.findFinIdx? fun a => key a = k).isSome ↔ k ∈ l.map key := by
  rw [← findKey_isSome, findKey, List.find?_isSome, List.isSome_findFinIdx?, List.any_eq_true]

theorem eraseKey_of_notMem (hk : k ∉ l.map key) : eraseKey key k l = l :=
  List.eraseP_of_forall_not fun a ha => by
    simpa using fun h : key a = k => hk (h ▸ List.mem_map_of_mem ha)

/-- A removal keeps the lookups of the other keys. -/
theorem findKey_eraseKey (h : k ≠ k') : findKey key k (eraseKey key k' l) = findKey key k l := by
  induction l with
  | nil => rfl
  | cons a l ih =>
    rw [eraseKey_cons, findKey_cons]
    by_cases ha : key a = k'
    · rw [if_pos ha, if_neg fun hk => h (hk.symm.trans ha)]
    · rw [if_neg ha, findKey_cons, ih]

theorem eraseKey_comm (h : k ≠ k') :
    eraseKey key k (eraseKey key k' l) = eraseKey key k' (eraseKey key k l) :=
  List.eraseP_comm fun a _ => by
    by_cases ha : key a = k'
    · exact .inr (by simpa using fun hk => h (hk.symm.trans ha))
    · exact .inl (by simpa using ha)

theorem eraseKey_append_singleton (ha : key a ≠ k) :
    eraseKey key k (l ++ [a]) = eraseKey key k l ++ [a] := by
  induction l with
  | nil => simp [eraseKey, ha]
  | cons b l ih =>
    rw [List.cons_append, eraseKey_cons, eraseKey_cons, ih]
    split <;> rfl

theorem eraseKey_append_singleton_self (hk : k ∉ l.map key) (ha : key a = k) :
    eraseKey key k (l ++ [a]) = l := by
  induction l with
  | nil => simp [eraseKey, ha]
  | cons b l ih =>
    rw [List.map_cons, List.mem_cons, not_or] at hk
    rw [List.cons_append, eraseKey_cons, if_neg (Ne.symm hk.1), ih hk.2]

/-- A removal and a rewriting at different keys commute; at the same key, the removal
    takes away the record rewritten. -/
theorem eraseKey_updateKey (hf : ∀ a, key (f a) = key a) :
    eraseKey key k' (updateKey key k f l) =
      if k' = k then eraseKey key k l else updateKey key k f (eraseKey key k' l) := by
  induction l with
  | nil => simp [updateKey_nil, eraseKey]
  | cons a l ih =>
    rw [updateKey_cons]
    by_cases ha : key a = k
    · by_cases hk : k' = k
      · simp [eraseKey_cons, hf, ha, hk]
      · simp [eraseKey_cons, hf, ha, hk, Ne.symm hk, updateKey_cons]
    · rw [if_neg ha, eraseKey_cons, ih]
      by_cases hk : k' = k
      · simp [eraseKey_cons, hk, ha]
      · by_cases ha' : key a = k'
        · simp [eraseKey_cons, ha', hk]
        · simp [eraseKey_cons, ha, ha', hk, updateKey_cons]

/-- With distinct keys, removing the first record with key `k` removes every
    record with key `k`, and no other. -/
theorem eraseKey_eq_filter (hl : (l.map key).Nodup) :
    eraseKey key k l = l.filter fun a => key a ≠ k := by
  induction l with
  | nil => rfl
  | cons a l ih =>
    rw [List.map_cons, List.nodup_cons] at hl
    rw [eraseKey_cons]
    by_cases ha : key a = k
    · rw [if_pos ha, List.filter_cons_of_neg (by simpa using ha), ← ih hl.2,
        eraseKey_of_notMem (ha ▸ hl.1)]
    · rw [if_neg ha, List.filter_cons_of_pos (by simpa using ha), ih hl.2]

theorem perm_eraseKey (hl : (l.map key).Nodup) (h : l.Perm l') :
    (eraseKey key k l).Perm (eraseKey key k l') := by
  rw [eraseKey_eq_filter hl, eraseKey_eq_filter ((h.map key).nodup_iff.1 hl)]
  exact h.filter _

/-- A removal touches none of the records with other keys. -/
theorem filter_eraseKey :
    ((eraseKey key k l).filter fun a => key a ≠ k) = l.filter fun a => key a ≠ k := by
  induction l with
  | nil => rfl
  | cons a l ih =>
    rw [eraseKey_cons]
    by_cases ha : key a = k
    · rw [if_pos ha, List.filter_cons_of_neg (by simp [ha])]
    · rw [if_neg ha, List.filter_cons_of_pos (by simpa using ha),
        List.filter_cons_of_pos (by simpa using ha), ih]

theorem eraseKey_eq_erase [DecidableEq α] (hl : (l.map key).Nodup) (ha : a ∈ l) :
    eraseKey key (key a) l = l.erase a := by
  rw [eraseKey_eq_filter hl, hl.of_map.erase_eq_filter]
  refine List.filter_congr fun b hb => ?_
  have : key b = key a ↔ b = a := ⟨fun h => List.inj_on_of_nodup_map hl hb ha h, fun h => h ▸ rfl⟩
  by_cases h : b = a <;> simp [this, h]

/-! ### Sums -/

variable (key k f l) (m : α → ℕ)

/-- A rewriting changes a sum by what the record rewritten adds to it. -/
theorem sum_updateKey :
    ((updateKey key k f l).map m).sum + (findKey key k l).elim 0 m =
      (l.map m).sum + (findKey key k l).elim 0 (m ∘ f) := by
  induction l with
  | nil => rfl
  | cons a l ih =>
    rw [updateKey_cons, findKey_cons]
    by_cases ha : key a = k
    · simp only [ha, if_true, List.map_cons, List.sum_cons, Option.elim_some, Function.comp_apply]
      omega
    · simp only [ha, if_false, List.map_cons, List.sum_cons]
      omega

/-- A removal takes away from a sum what the record removed adds to it. -/
theorem sum_eraseKey :
    ((eraseKey key k l).map m).sum + (findKey key k l).elim 0 m = (l.map m).sum := by
  induction l with
  | nil => rfl
  | cons a l ih =>
    rw [eraseKey_cons, findKey_cons]
    by_cases ha : key a = k
    · simp only [ha, if_true, List.map_cons, List.sum_cons, Option.elim_some]
      omega
    · simp only [ha, if_false, List.map_cons, List.sum_cons]
      omega

end Xode
