import IndexGraph.Heap

/-
  A leftist heap gives up its least entry first.
  `Heap.Ordered before h` says of every branch of `h` that nothing below it comes before its entry.
  Merging keeps this (`Ordered.merge`), and the other operations are merges: a merge only puts an
  entry above two heaps when nothing in them comes before it. The order need not be total, but what
  is not before `a` must have nothing before `a` above it (`Orders`); this is asked only of the
  entries that `P` allows, as there may be others that do not compare.
-/

namespace IndexGraph.Heap

variable {α : Type} {before : α → α → Bool} {P : α → Prop} {a b : α} {h k left right : Heap α}

/-- Among the entries that `P` allows, of two at most one comes before the other, and not coming
before is transitive. -/
structure Orders (before : α → α → Bool) (P : α → Prop) : Prop where
  asymm : ∀ a b, P a → P b → before a b = true → before b a = false
  trans : ∀ a b c, P a → P b → P c → before b a = false → before c b = false →
    before c a = false

/-- Nothing below a branch comes before its entry. -/
def Ordered (before : α → α → Bool) : Heap α → Prop
  | .empty => True
  | .branch _ a left right =>
    (∀ b ∈ left.toList ++ right.toList, before b a = false) ∧ left.Ordered before ∧
      right.Ordered before

namespace Ordered

theorem empty (before : α → α → Bool) : (Heap.empty : Heap α).Ordered before := trivial

theorem put (hfirst : ∀ b ∈ h.toList ++ k.toList, before b a = false) (hh : h.Ordered before)
    (hk : k.Ordered before) : (put a h k).Ordered before := by
  unfold Heap.put
  split
  · exact ⟨hfirst, hh, hk⟩
  · refine ⟨fun b hb => hfirst b ?_, hk, hh⟩
    exact List.perm_append_comm.mem_iff.1 hb

/-- Nothing comes before the entry of a branch, the entry itself included. -/
theorem not_before {rank : Nat} (ho : Orders before P)
    (hh : (branch rank a left right).Ordered before)
    (hP : ∀ c ∈ (branch rank a left right).toList, P c) :
    ∀ c ∈ (branch rank a left right).toList, before c a = false := by
  intro c hc
  rcases List.mem_cons.1 hc with rfl | hbelow
  · have hc := hP c hc
    cases hcc : before c c with
    | false => rfl
    | true => rw [← hcc, ho.asymm c c hc hc hcc]
  · exact hh.1 c hbelow

/-- The induction is on the heap that is merged into, along its right spine. -/
theorem mergeInto (ho : Orders before P) {rank : Nat} {withRight : Heap α → Heap α}
    (hwhole : (branch rank a left right).Ordered before)
    (hP : ∀ c ∈ (branch rank a left right).toList, P c)
    (hperm : ∀ k : Heap α, (withRight k).toList.Perm (right.toList ++ k.toList))
    (hright : ∀ k : Heap α, k.Ordered before → (∀ c ∈ k.toList, P c) →
      (withRight k).Ordered before)
    (hk : k.Ordered before) (hPk : ∀ c ∈ k.toList, P c) :
    (mergeInto before a left withRight (branch rank a left right) k).Ordered before := by
  have ha : P a := hP a List.mem_cons_self
  induction k with
  | empty => exact hwhole
  | branch rank' b left' right' _ ih =>
    have hb : P b := hPk b List.mem_cons_self
    have hk' := not_before ho hk hPk
    unfold Heap.mergeInto
    split
    · rename_i hba
      have hPright : ∀ c ∈ right'.toList, P c := fun c hc =>
        hPk c (List.mem_cons_of_mem b (List.mem_append_right _ hc))
      refine put (fun c hc => ?_) hk.2.1 (ih hk.2.2 hPright)
      have hmerge := toList_mergeInto_perm before a left right (branch rank a left right) withRight
        rfl hperm right'
      rcases List.mem_append.1 hc with hc | hc
      · exact hk.1 c (List.mem_append_left _ hc)
      · rcases List.mem_append.1 (hmerge.mem_iff.1 hc) with hc | hc
        · -- what is below `a` is not before `a`, and `a` is not before `b`
          exact ho.trans b a c hb ha (hP c hc) (ho.asymm b a hb ha hba)
            (not_before ho hwhole hP c hc)
        · exact hk.1 c (List.mem_append_right _ hc)
    · rename_i hba
      have hba : before b a = false := by simpa using hba
      refine put (fun c hc => ?_) hwhole.2.1 (hright _ hk hPk)
      rcases List.mem_append.1 hc with hc | hc
      · exact hwhole.1 c (List.mem_append_left _ hc)
      · rcases List.mem_append.1 ((hperm _).mem_iff.1 hc) with hc | hc
        · exact hwhole.1 c (List.mem_append_right _ hc)
        · exact ho.trans a b c ha hb (hPk c hc) hba (hk' c hc)

theorem merge (ho : Orders before P) (hh : h.Ordered before) (hPh : ∀ c ∈ h.toList, P c)
    (hk : k.Ordered before) (hPk : ∀ c ∈ k.toList, P c) : (merge before h k).Ordered before := by
  induction h generalizing k with
  | empty => exact hk
  | branch rank a left right _ ih =>
    refine mergeInto ho hh hPh (toList_merge_perm before right) (fun k hk hPk => ?_) hk hPk
    refine ih hh.2.2 (fun c hc => ?_) hk hPk
    exact hPh c (List.mem_cons_of_mem a (List.mem_append_right _ hc))

theorem insert (ho : Orders before P) (ha : P a) (hh : h.Ordered before)
    (hP : ∀ c ∈ h.toList, P c) : (insert before a h).Ordered before := by
  refine merge ho ⟨fun b hb => absurd hb List.not_mem_nil, trivial, trivial⟩ (fun c hc => ?_) hh hP
  rwa [List.mem_singleton.1 hc]

/-- No entry comes before the one that is taken, and the others stay in order. -/
theorem of_take? (ho : Orders before P) (hh : h.Ordered before) (hP : ∀ c ∈ h.toList, P c)
    (ht : h.take? before = some (a, k)) :
    (∀ b ∈ k.toList, before b a = false) ∧ k.Ordered before := by
  cases h with
  | empty => cases ht
  | branch rank b left right =>
    cases ht
    obtain ⟨hfirst, hleft, hright⟩ := hh
    have hbelow : ∀ c ∈ left.toList ++ right.toList, P c := fun c hc =>
      hP c (List.mem_cons_of_mem _ hc)
    refine ⟨fun c hc => hfirst c ((toList_merge_perm before left right).mem_iff.1 hc), ?_⟩
    exact merge ho hleft (fun c hc => hbelow c (List.mem_append_left _ hc)) hright fun c hc =>
      hbelow c (List.mem_append_right _ hc)

end Ordered

end IndexGraph.Heap
