import Xode.Frame.Order

/-!
# Bounded vectors

The vectors FRAME keeps in storage: a list with a bound on its length as part
of its type. Only `tryPush` can make one longer, and it refuses to go past the
bound; every other operation rewrites, permutes or drops elements.
-/

namespace Xode

/-- A list of at most `bound` elements. -/
@[ext]
structure BoundedVec (α : Type*) (bound : ℕ) where
  /-- The elements. -/
  toList : List α
  length_le : toList.length ≤ bound
  deriving DecidableEq

namespace BoundedVec

variable {α κ : Type*} {bound : ℕ} (v : BoundedVec α bound)

instance : Membership α (BoundedVec α bound) := ⟨fun v a => a ∈ v.toList⟩

instance [DecidableEq α] (a : α) : Decidable (a ∈ v) := inferInstanceAs (Decidable (a ∈ v.toList))

@[simp] theorem mem_toList {v : BoundedVec α bound} {a : α} : a ∈ v.toList ↔ a ∈ v := Iff.rfl

@[simp] theorem mem_mk {l : List α} (h : l.length ≤ bound) {a : α} :
    a ∈ (⟨l, h⟩ : BoundedVec α bound) ↔ a ∈ l := Iff.rfl

/-- The empty vector (`BoundedVec::default`). -/
def empty : BoundedVec α bound := ⟨[], Nat.zero_le _⟩

/-- The vector of the elements of a list, if it is not too long (`try_into`). -/
def tryFrom (l : List α) : Option (BoundedVec α bound) :=
  if h : l.length ≤ bound then some ⟨l, h⟩ else none

/-- Appending an element, unless the vector is full. -/
def tryPush (a : α) : Option (BoundedVec α bound) := tryFrom (v.toList ++ [a])

/-- Keeping the elements satisfying `p`. -/
def retain (p : α → Bool) : BoundedVec α bound :=
  ⟨v.toList.filter p, (List.length_filter_le _ _).trans v.length_le⟩

/-- Removing the element at index `i`. -/
def remove (i : ℕ) : BoundedVec α bound :=
  ⟨v.toList.eraseIdx i, (List.length_eraseIdx_le _ _).trans v.length_le⟩

/-- Rewriting every element (a loop over `iter_mut`). -/
def map (f : α → α) : BoundedVec α bound :=
  ⟨v.toList.map f, by rw [List.length_map]; exact v.length_le⟩

/-- Rewriting the first element with key `k` (`iter_mut().find(..)`). -/
def updateKey [DecidableEq κ] (key : α → κ) (k : κ) (f : α → α) : BoundedVec α bound :=
  ⟨Xode.updateKey key k f v.toList, by rw [length_updateKey]; exact v.length_le⟩

/-- Sorting by a comparison function, stably (`sort_by`). -/
def sortBy (cmp : α → α → Ordering) : BoundedVec α bound :=
  ⟨v.toList.insertionSort fun a b => (cmp a b).isLE, by
    rw [List.length_insertionSort]; exact v.length_le⟩

@[simp] theorem toList_empty : (empty : BoundedVec α bound).toList = [] := rfl

@[simp] theorem toList_retain (p : α → Bool) : (v.retain p).toList = v.toList.filter p := rfl

@[simp] theorem toList_remove (i : ℕ) : (v.remove i).toList = v.toList.eraseIdx i := rfl

@[simp] theorem toList_map (f : α → α) : (v.map f).toList = v.toList.map f := rfl

@[simp] theorem toList_updateKey [DecidableEq κ] (key : α → κ) (k : κ) (f : α → α) :
    (v.updateKey key k f).toList = Xode.updateKey key k f v.toList := rfl

@[simp] theorem toList_sortBy (cmp : α → α → Ordering) :
    (v.sortBy cmp).toList = v.toList.insertionSort fun a b => (cmp a b).isLE := rfl

theorem perm_sortBy (cmp : α → α → Ordering) : (v.sortBy cmp).toList.Perm v.toList :=
  List.perm_insertionSort _ _

instance (cmp : α → α → Ordering) [Std.TransCmp cmp] :
    Std.Total fun a b => (cmp a b).isLE = true := ⟨fun a b => by
  have hswap : cmp b a = (cmp a b).swap := Std.OrientedCmp.eq_swap
  rw [hswap]
  cases cmp a b <;> simp⟩

instance (cmp : α → α → Ordering) [Std.TransCmp cmp] :
    IsTrans α fun a b => (cmp a b).isLE = true := ⟨fun _ _ _ => Std.TransCmp.isLE_trans⟩

/-- A comparison orders what it sorts, if it is transitive. -/
theorem pairwise_sortBy (cmp : α → α → Ordering) [Std.TransCmp cmp] :
    (v.sortBy cmp).toList.Pairwise fun a b => (cmp a b).isLE :=
  List.pairwise_insertionSort _ _

/-- Sorting keeps two elements in their order exactly when the comparison allows it. -/
theorem precedes_sortBy_iff (cmp : α → α → Ordering) [Std.TransCmp cmp] {a b : α}
    (h : Precedes v.toList a b) : Precedes (v.sortBy cmp).toList a b ↔ (cmp a b).isLE :=
  precedes_insertionSort_iff h

theorem tryFrom_eq_some {l : List α} {w : BoundedVec α bound} :
    tryFrom l = some w ↔ w.toList = l := by
  rw [tryFrom]
  split
  · simp [BoundedVec.ext_iff, eq_comm]
  · next h => exact ⟨fun e => by simp at e, fun e => absurd (e ▸ w.length_le) h⟩

theorem tryFrom_eq_none {l : List α} :
    (tryFrom l : Option (BoundedVec α bound)) = none ↔ bound < l.length := by
  simp [tryFrom]

variable {v}

theorem tryPush_eq_some {a : α} {w : BoundedVec α bound} :
    v.tryPush a = some w ↔ w.toList = v.toList ++ [a] := tryFrom_eq_some

theorem tryPush_eq_none {a : α} : v.tryPush a = none ↔ v.toList.length = bound := by
  rw [tryPush, tryFrom_eq_none, List.length_append, List.length_singleton]
  have := v.length_le
  omega

/-- Vectors of the same length take one more element, both or neither. -/
theorem rel_tryPush {a : α} {w : BoundedVec α bound} (h : v.toList.length = w.toList.length) :
    Option.Rel (fun v' w' : BoundedVec α bound =>
      v'.toList = v.toList ++ [a] ∧ w'.toList = w.toList ++ [a]) (v.tryPush a) (w.tryPush a) := by
  cases hv : v.tryPush a with
  | none =>
    have hw : w.tryPush a = none := tryPush_eq_none.2 (h ▸ tryPush_eq_none.1 hv)
    rw [hw]
    exact .none
  | some v' =>
    obtain ⟨w', hw⟩ : ∃ w', w.tryPush a = some w' := Option.ne_none_iff_exists'.1 fun hw => by
      rw [tryPush_eq_none.2 (h.trans (tryPush_eq_none.1 hw))] at hv
      cases hv
    rw [hw]
    exact .some ⟨tryPush_eq_some.1 hv, tryPush_eq_some.1 hw⟩

end BoundedVec

end Xode
