import IndexGraph.Proofs.Dominator.Domination

/-
  The dominator tree read downwards. Turning the table round loses nothing and lists nothing twice:
  a vertex is listed under `d` exactly where the table has `d` above it, the root apart
  (`below_tree_iff`), and the tree is in order: the keys grow, no list is empty, each list grows,
  and no vertex stands in two places (`Grouped`). The table is read from its last vertex to its
  first, and hanging a vertex that comes before all that are listed keeps the order
  (`Grouped.hang`).
  On a table of dominators a step down is a step up turned round. Only the step up from the root to
  itself has no such step, and it leads nowhere. So going down from `a` gets to `b` exactly when
  going up from `b` gets to `a` (`Table.stepsDown_iff`), which is what the query asks.
-/

namespace IndexGraph.Dominator

/-- The vertex `w` is listed under `d`. -/
def Below (t : List (Int × List Nat)) (d : Int) (w : Nat) : Prop :=
  ∃ vs, (d, vs) ∈ t ∧ w ∈ vs

/-- All the lists of a tree, one after the other. -/
def listed (t : List (Int × List Nat)) : List Nat := t.flatMap Prod.snd

/-- A step down in the tree, between vertices of the graph. -/
def StepDown (t : List (Int × List Nat)) (d v : Int) : Prop :=
  ∃ w : Nat, v = w ∧ Below t d w

/-- The tree is in order, and lists vertices from `least` on. -/
structure Grouped (t : List (Int × List Nat)) (least : Nat) : Prop where
  keys : (t.map Prod.fst).Pairwise (· < ·)
  ne_nil : ∀ d vs, (d, vs) ∈ t → vs ≠ []
  ascending : ∀ d vs, (d, vs) ∈ t → vs.Pairwise (· < ·)
  nodup : (listed t).Nodup
  least_le : ∀ w ∈ listed t, least ≤ w

variable {t : List (Int × List Nat)} {d k : Int} {v w least n : Nat}

@[simp]
theorem not_below_nil : ¬ Below [] d w := fun ⟨_, hmem, _⟩ => absurd hmem List.not_mem_nil

theorem below_cons_iff {vs : List Nat} :
    Below ((k, vs) :: t) d w ↔ (d = k ∧ w ∈ vs) ∨ Below t d w := by
  simp [Below, or_and_right, exists_or]

theorem mem_listed_iff : w ∈ listed t ↔ ∃ d, Below t d w := by
  simp only [listed, Below, List.mem_flatMap, Prod.exists]

/-! ## Hanging one vertex -/

theorem below_hang_iff : Below (hang d v t) k w ↔ (k = d ∧ w = v) ∨ Below t k w := by
  fun_induction hang d v t with
  | case1 => simp [below_cons_iff]
  | case2 => simp [below_cons_iff]
  | case3 l vs rest =>
    simp only [below_cons_iff, List.mem_cons, and_or_left, or_assoc]
  | case4 l vs rest _ _ ih =>
    simp only [below_cons_iff, ih]
    exact or_left_comm

theorem listed_hang : (listed (hang d v t)).Perm (v :: listed t) := by
  unfold listed
  fun_induction hang d v t with
  | case1 => simp
  | case2 => simp
  | case3 => simp
  | case4 l vs rest _ _ ih =>
    rw [List.flatMap_cons, List.flatMap_cons]
    exact (ih.append_left vs).trans List.perm_middle

/-- A list was there before `v` was hung, or has `v` in front of one that was, or is `v` alone. -/
theorem mem_hang {vs : List Nat} (h : (k, vs) ∈ hang d v t) :
    (k, vs) ∈ t ∨ ∃ ws, vs = v :: ws ∧ (ws = [] ∨ (k, ws) ∈ t) := by
  fun_induction hang d v t with
  | case1 =>
    cases List.mem_singleton.1 h
    exact .inr ⟨[], rfl, .inl rfl⟩
  | case2 =>
    rcases List.mem_cons.1 h with heq | h
    · cases heq
      exact .inr ⟨[], rfl, .inl rfl⟩
    · exact .inl h
  | case3 ws rest =>
    rcases List.mem_cons.1 h with heq | h
    · cases heq
      exact .inr ⟨ws, rfl, .inr List.mem_cons_self⟩
    · exact .inl (List.mem_cons_of_mem _ h)
  | case4 l us rest _ _ ih =>
    rcases List.mem_cons.1 h with heq | h
    · cases heq
      exact .inl List.mem_cons_self
    · rcases ih h with h | ⟨ws, hvs, hws⟩
      · exact .inl (List.mem_cons_of_mem _ h)
      · exact .inr ⟨ws, hvs, hws.imp_right (List.mem_cons_of_mem _)⟩

theorem mem_keys_hang_iff : k ∈ (hang d v t).map Prod.fst ↔ k = d ∨ k ∈ t.map Prod.fst := by
  fun_induction hang d v t with
  | case1 => simp
  | case2 => simp
  | case3 => simp
  | case4 l vs rest _ _ ih =>
    simp only [List.map_cons, List.mem_cons, ih]
    exact or_left_comm

theorem keys_hang (ht : (t.map Prod.fst).Pairwise (· < ·)) :
    ((hang d v t).map Prod.fst).Pairwise (· < ·) := by
  fun_induction hang d v t with
  | case1 => exact List.pairwise_singleton _ _
  | case2 l vs rest hlt =>
    refine List.pairwise_cons.2 ⟨fun k hk => ?_, ht⟩
    rcases List.mem_cons.1 hk with rfl | hk
    · exact hlt
    · exact hlt.trans (List.rel_of_pairwise_cons ht hk)
  | case3 => exact ht
  | case4 l vs rest hlt hne ih =>
    refine List.pairwise_cons.2 ⟨fun k hk => ?_, ih (List.Pairwise.of_cons ht)⟩
    rcases mem_keys_hang_iff.1 hk with rfl | hk
    · omega
    · exact List.rel_of_pairwise_cons ht hk

/-- A vertex before all that are listed goes in front of its list. -/
theorem Grouped.hang (ht : Grouped t (v + 1)) (d : Int) : Grouped (hang d v t) v := by
  have hlist : ∀ k vs, (k, vs) ∈ t → ∀ w ∈ vs, v + 1 ≤ w := fun k vs hmem w hw =>
    ht.least_le w (mem_listed_iff.2 ⟨k, vs, hmem, hw⟩)
  refine ⟨keys_hang ht.keys, fun k vs hmem => ?_, fun k vs hmem => ?_, ?_, fun w hw => ?_⟩
  · rcases mem_hang hmem with hmem | ⟨ws, rfl, _⟩
    · exact ht.ne_nil k vs hmem
    · exact List.cons_ne_nil v ws
  · rcases mem_hang hmem with hmem | ⟨ws, rfl, rfl | hmem⟩
    · exact ht.ascending k vs hmem
    · exact List.pairwise_singleton _ v
    · exact List.pairwise_cons.2 ⟨hlist k ws hmem, ht.ascending k ws hmem⟩
  · rw [listed_hang.nodup_iff, List.nodup_cons]
    exact ⟨fun hmem => Nat.lt_irrefl v (ht.least_le v hmem), ht.nodup⟩
  · rcases List.mem_cons.1 (listed_hang.mem_iff.1 hw) with rfl | hw
    · exact Nat.le_refl w
    · exact Nat.le_of_succ_le (ht.least_le w hw)

theorem Grouped.mono (ht : Grouped t least) (h : n ≤ least) : Grouped t n :=
  ⟨ht.keys, ht.ne_nil, ht.ascending, ht.nodup, fun w hw => h.trans (ht.least_le w hw)⟩

/-! ## The whole table -/

/-- The tree of the vertices from `v` on, given what is above them. -/
def treeFrom : Nat → List (Option Int) → List (Int × List Nat)
  | _, [] => []
  | v, none :: ups => treeFrom (v + 1) ups
  | v, some d :: ups =>
    if d = v then treeFrom (v + 1) ups else hang d v (treeFrom (v + 1) ups)

theorem tree_eq (idoms : Idoms) : tree idoms = treeFrom 0 idoms.toList := by
  unfold tree
  generalize 0 = v
  generalize idoms.toList = ups
  fun_induction treeFrom v ups with
  | case1 => rfl
  | case2 v ups ih => exact ih
  | case3 d ups ih => simpa using ih
  | case4 v d ups hne ih =>
    rw [List.zipIdx_cons, List.foldr_cons, ih]
    exact if_neg hne

theorem grouped_treeFrom (v : Nat) (ups : List (Option Int)) : Grouped (treeFrom v ups) v := by
  fun_induction treeFrom v ups with
  | case1 => exact ⟨.nil, by simp, by simp, .nil, by simp [listed]⟩
  | case2 v ups ih => exact ih.mono (Nat.le_succ v)
  | case3 v ups ih => exact ih.mono (Nat.le_succ v)
  | case4 v d ups _ ih => exact ih.hang d

theorem below_treeFrom_iff (v : Nat) (ups : List (Option Int)) :
    Below (treeFrom v ups) d w ↔ (some d, w) ∈ ups.zipIdx v ∧ d ≠ w := by
  fun_induction treeFrom v ups with
  | case1 => simp
  | case2 v ups ih => simp [ih, List.zipIdx_cons]
  | case3 v ups ih =>
    rw [ih, List.zipIdx_cons, List.mem_cons]
    refine and_congr_left fun hne => (or_iff_right fun heq => hne ?_).symm
    cases heq
    rfl
  | case4 v e ups hne ih =>
    rw [below_hang_iff, ih, List.zipIdx_cons, List.mem_cons, or_and_right]
    refine or_congr_left ?_
    rw [Prod.mk.injEq, Option.some.injEq]
    refine (and_iff_left_of_imp fun heq => ?_).symm
    rw [heq.1, heq.2]
    exact hne

theorem grouped_tree (idoms : Idoms) : Grouped (tree idoms) 0 := by
  rw [tree_eq]
  exact grouped_treeFrom 0 idoms.toList

theorem below_tree_iff (idoms : Idoms) :
    Below (tree idoms) d w ↔ idoms[w]? = some (some d) ∧ d ≠ w := by
  rw [tree_eq, below_treeFrom_iff, List.mem_zipIdx_iff_getElem?, Array.getElem?_toList]

/-! ## Going down -/

section Down

variable {start a b : Int} {height : Int → Nat} {up : Int → Option Int} {idoms : Idoms}
variable (hi : Table idoms n up)
include hi

theorem Table.below_tree_iff : Below (tree idoms) d w ↔ up w = some d ∧ d ≠ w := by
  rw [Dominator.below_tree_iff]
  refine and_congr_left fun _ => ?_
  by_cases hw : w < n
  · rw [hi.getElem?_eq hw, Option.some.injEq]
  · have hnone : up w = none := by
      by_contra hne
      have := hi.in_range w hne
      omega
    rw [hnone, Array.getElem?_eq_none (by rw [hi.size_eq]; omega)]
    simp

theorem Table.stepDown_iff (v : Int) : StepDown (tree idoms) d v ↔ up v = some d ∧ d ≠ v := by
  constructor
  · intro ⟨w, hv, hbelow⟩
    rw [hv]
    exact hi.below_tree_iff.1 hbelow
  · intro hup
    obtain ⟨w, rfl⟩ := Int.eq_ofNat_of_zero_le (hi.in_range v (ne_none_of_up hup.1)).1
    exact ⟨w, rfl, hi.below_tree_iff.2 hup⟩

/-- All vertices of the tree are listed but the root. -/
theorem Table.mem_listed_iff (ht : Rooted up height start) :
    w ∈ listed (tree idoms) ↔ up w ≠ none ∧ (w : Int) ≠ start := by
  rw [Dominator.mem_listed_iff]
  constructor
  · intro ⟨d, hbelow⟩
    obtain ⟨hup, hne⟩ := hi.below_tree_iff.1 hbelow
    refine ⟨ne_none_of_up hup, fun hstart => hne ?_⟩
    rw [hstart, ht.root_up, Option.some.injEq] at hup
    rw [hstart, hup]
  · intro ⟨hup, hne⟩
    obtain ⟨d, hd⟩ := Option.ne_none_iff_exists'.1 hup
    refine ⟨d, hi.below_tree_iff.2 ⟨hd, fun hdw => ?_⟩⟩
    have hlt := ht.height_lt w d hne hd
    rw [hdw] at hlt
    exact Nat.lt_irrefl _ hlt

/-- Down from `a` to `b` is up from `b` to `a`. -/
theorem Table.stepsDown_iff :
    Relation.ReflTransGen (StepDown (tree idoms)) a b ↔ OnWay up b a := by
  constructor
  · intro h
    induction h with
    | refl => exact .refl a
    | tail _ hstep ih => exact .climb ((hi.stepDown_iff _).1 hstep).1 ih
  · intro h
    induction h with
    | refl => exact .refl
    | @climb v p x hp _ ih =>
      -- the root is above itself, and there the tree has no step
      by_cases hpv : p = v
      · rwa [hpv] at ih
      · exact ih.tail ((hi.stepDown_iff v).2 ⟨hp, hpv⟩)

end Down

/-- On every consistent graph for which the table can be made, and for every table that the call
answers, the tree lists each vertex that is reached once, but not the start, and no other; it has
each key once, with a list that is not empty and increases; and among the vertices that are reached
going down from `a` gets to `b` exactly when the query says that `a` dominates `b`. -/
theorem tree_lists_dominance (g : Network) (n : Nat) (start : Int) (hg : g.Consistent n)
    (h0 : 0 ≤ start) (hn : start < n) :
    (n < Length.room → ∃ idoms, (g.immediateDominators start).result = .ok idoms) ∧
    ∀ idoms, (g.immediateDominators start).result = .ok idoms →
      (∀ v : Nat, Reaches g.successors start v → (v : Int) ≠ start →
        (listed (tree idoms)).count v = 1) ∧
      (∀ v : Nat, ¬ Reaches g.successors start v ∨ (v : Int) = start → v ∉ listed (tree idoms)) ∧
      ((tree idoms).map Prod.fst).Nodup ∧
      (∀ d vs, (d, vs) ∈ tree idoms → vs ≠ [] ∧ vs.Pairwise (· < ·)) ∧
      ∀ a b : Int, Reaches g.successors start a → Reaches g.successors start b →
        ∃ r, dominates idoms a b = .ok r ∧
          (r = true ↔ Relation.ReflTransGen (StepDown (tree idoms)) a b) := by
  refine ⟨fun hroom => exists_immediateDominators hg hroom h0 hn, fun idoms hidoms => ?_⟩
  obtain ⟨up, htable, htree⟩ := dominatorTree_of_answer hg h0 hn hidoms
  obtain ⟨height, ht, hlow⟩ := htree.exists_rooted
  have hgrouped := grouped_tree idoms
  refine ⟨fun v hv hne => ?_, fun v hv hmem => ?_, ?_, fun d vs hmem => ?_, fun a b ha hb => ?_⟩
  · refine List.count_eq_one_of_mem hgrouped.nodup ((htable.mem_listed_iff ht).2 ⟨?_, hne⟩)
    exact (htree.ne_none_iff v).2 hv
  · obtain ⟨hup, hne⟩ := (htable.mem_listed_iff ht).1 hmem
    exact hv.elim (fun hno => hno ((htree.ne_none_iff v).1 hup)) hne
  · exact hgrouped.keys.imp ne_of_lt
  · exact ⟨hgrouped.ne_nil d vs hmem, hgrouped.ascending d vs hmem⟩
  · obtain ⟨ha0, han⟩ := hg.reaches_in_range h0 hn a ha
    obtain ⟨hb0, hbn⟩ := hg.reaches_in_range h0 hn b hb
    obtain ⟨r, hr, hiff⟩ := dominates_eq htable ht hlow ha0 han hb0 hbn
    refine ⟨r, hr, ?_⟩
    rw [hiff, htable.stepsDown_iff, and_iff_right ((htree.ne_none_iff a).2 ha),
      and_iff_right ((htree.ne_none_iff b).2 hb)]

/-- The edges fork at 1 and meet again in 4. Vertex 5 is not reached, although it has an edge. -/
theorem tree_lists_dominance_diamond :
    let g := Network.ofMultigraph
      (((((((Multigraph.ofCount 6).push 0 1).push 1 2).push 1 3).push 2 4).push 3 4).push 5 4)
    ∃ idoms, (g.immediateDominators 0).result = .ok idoms ∧
      tree idoms = [(0, [1]), (1, [2, 3, 4])] ∧
      dominates idoms 0 4 = .ok true ∧ Relation.ReflTransGen (StepDown (tree idoms)) 0 4 ∧
      dominates idoms 2 4 = .ok false ∧ ¬ Relation.ReflTransGen (StepDown (tree idoms)) 2 4 := by
  intro g
  have hg : g.Consistent 6 := Network.consistent_ofMultigraph _
  have hidoms : (g.immediateDominators 0).result =
      .ok #[some 0, some 0, some 1, some 1, some 1, none] := by decide +kernel
  obtain ⟨_, htree⟩ := tree_lists_dominance g 6 0 hg (by decide) (by decide)
  obtain ⟨_, _, _, _, hquery⟩ := htree _ hidoms
  have h1 : Reaches g.successors 0 1 := .single (by decide +kernel)
  have h2 : Reaches g.successors 0 2 := .tail h1 (by decide +kernel)
  have h4 : Reaches g.successors 0 4 := .tail h2 (by decide +kernel)
  obtain ⟨r, hr, hdown⟩ := hquery 0 4 (.refl g.successors 0) h4
  obtain ⟨r', hr', hdown'⟩ := hquery 2 4 h2 h4
  have hyes : dominates #[some 0, some 0, some 1, some 1, some 1, none] 0 4 = .ok true := by
    decide +kernel
  have hno : dominates #[some 0, some 0, some 1, some 1, some 1, none] 2 4 = .ok false := by
    decide +kernel
  obtain rfl : r = true := Except.ok.inj (hr.symm.trans hyes)
  obtain rfl : r' = false := Except.ok.inj (hr'.symm.trans hno)
  refine ⟨_, hidoms, by decide +kernel, hyes, hdown.1 rfl, hno, fun hway => ?_⟩
  exact absurd (hdown'.2 hway) Bool.false_ne_true

end IndexGraph.Dominator
