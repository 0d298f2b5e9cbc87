/-
  A leftist heap: a collection that gives up its least entry first.
  Every branch knows how many branches lie on its right spine, and the shorter spine is kept on
  the right. So a merge, which walks down the right spines alone, is short. The order is a
  parameter; `toList` is the view, and every operation is described by what it does to it.
-/

namespace IndexGraph

/-- A binary tree that knows the length of its right spine. -/
inductive Heap (α : Type) where
  | empty
  | branch (rank : Nat) (least : α) (left right : Heap α)

namespace Heap

variable {α : Type}

/-- The entries, the first one first and the others in no order. -/
def toList : Heap α → List α
  | .empty => []
  | .branch _ a left right => a :: (left.toList ++ right.toList)

/-- There are no entries. -/
def isEmpty : Heap α → Bool
  | .empty => true
  | .branch .. => false

/-- The length of the right spine. -/
def rank : Heap α → Nat
  | .empty => 0
  | .branch rank .. => rank

/-- Puts `a` above two heaps, the one with the shorter spine on the right. -/
def put (a : α) (h k : Heap α) : Heap α :=
  if k.rank ≤ h.rank then .branch (k.rank + 1) a h k else .branch (h.rank + 1) a k h

/-- Merges the heap `whole`, whose first entry is `a` above `left` and a right side, into
another; `withRight` merges that right side. -/
def mergeInto (before : α → α → Bool) (a : α) (left : Heap α) (withRight : Heap α → Heap α)
    (whole : Heap α) : Heap α → Heap α
  | .empty => whole
  | .branch rank b left' right' =>
    if before b a then put b left' (mergeInto before a left withRight whole right')
    else put a left (withRight (.branch rank b left' right'))

/-- The entries of both heaps in one. -/
def merge (before : α → α → Bool) : Heap α → Heap α → Heap α
  | .empty => fun h => h
  | .branch rank a left right =>
    mergeInto before a left (merge before right) (.branch rank a left right)

/-- Adds an entry. -/
def insert (before : α → α → Bool) (a : α) (h : Heap α) : Heap α :=
  merge before (.branch 1 a .empty .empty) h

/-- The first entry and the heap of the others. -/
def take? (before : α → α → Bool) : Heap α → Option (α × Heap α)
  | .empty => none
  | .branch _ a left right => some (a, merge before left right)

theorem toList_put_perm (a : α) (h k : Heap α) :
    (put a h k).toList.Perm (a :: (h.toList ++ k.toList)) := by
  unfold put
  split
  · exact List.Perm.refl _
  · exact List.Perm.cons a List.perm_append_comm

theorem toList_mergeInto_perm (before : α → α → Bool) (a : α) (left right whole : Heap α)
    (withRight : Heap α → Heap α) (hwhole : whole.toList = a :: (left.toList ++ right.toList))
    (hright : ∀ h : Heap α, (withRight h).toList.Perm (right.toList ++ h.toList))
    (h : Heap α) :
    (mergeInto before a left withRight whole h).toList.Perm (whole.toList ++ h.toList) := by
  induction h with
  | empty => rw [mergeInto, toList, List.append_nil]
  | branch rank b left' right' _ ih =>
    unfold mergeInto
    split
    · refine (toList_put_perm _ _ _).trans ?_
      refine ((ih.append_left left'.toList).cons b).trans ?_
      rw [toList]
      refine List.Perm.trans ?_ List.perm_middle.symm
      refine List.Perm.cons b ?_
      rw [← List.append_assoc, ← List.append_assoc]
      exact List.perm_append_comm.append_right _
    · refine (toList_put_perm _ _ _).trans ?_
      rw [hwhole, List.cons_append, List.append_assoc]
      exact ((hright _).append_left left.toList).cons a

/-- Merging loses no entry and adds none. -/
theorem toList_merge_perm (before : α → α → Bool) (h k : Heap α) :
    (merge before h k).toList.Perm (h.toList ++ k.toList) := by
  induction h generalizing k with
  | empty => exact List.Perm.refl _
  | branch rank a left right _ ih =>
    rw [merge]
    exact toList_mergeInto_perm before a left right _ _ rfl ih k

theorem toList_insert_perm (before : α → α → Bool) (a : α) (h : Heap α) :
    (insert before a h).toList.Perm (a :: h.toList) :=
  toList_merge_perm before _ h

theorem take?_eq_none_iff (before : α → α → Bool) (h : Heap α) :
    h.take? before = none ↔ h.toList = [] := by
  cases h <;> simp [take?, toList]

/-- Taking splits the entries into the one taken and the others. -/
theorem perm_of_take? {before : α → α → Bool} {h rest : Heap α} {a : α}
    (ht : h.take? before = some (a, rest)) : h.toList.Perm (a :: rest.toList) := by
  cases h with
  | empty => cases ht
  | branch rank b left right =>
    cases ht
    exact (toList_merge_perm before left right).symm.cons _

end Heap

end IndexGraph
