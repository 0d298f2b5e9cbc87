import IndexGraph.Proofs.Dominator.Immediate

/-
  When the search for dominators is refused. A visit is refused if no predecessor of the vertex has
  a dominator yet; this hangs on the tree of that moment, but can be read off the graph and the
  post-order alone. A vertex is `Orphaned` if none of its predecessors comes after it in post-order.
  In the first pass, which goes through the post-order backwards, the vertices that come after it
  are those that have a dominator; so the pass is refused at the last orphaned vertex
  (`solve_cases`), and the later passes are not refused at all.
  A depth-first search reports every vertex but the start before one of the vertices that list it
  (`Explores.exists_parent`). So nothing is orphaned where all these count as predecessors.
-/

namespace IndexGraph.Dominator

variable {g : Network} {preds : Int → List Int} {order vs : List Int} {start p v : Int} {n : Nat}

/-- No predecessor of `v` comes after `v`. -/
def Orphaned (preds : Int → List Int) (order : List Int) (v : Int) : Prop :=
  ∀ p ∈ preds v, ¬ [v, p].Sublist order

/-- Of the orphaned vertices besides the start `v` is the last one. -/
structure LastOrphaned (preds : Int → List Int) (start : Int) (order : List Int) (v : Int) :
    Prop where
  mem : v ∈ order
  ne_start : v ≠ start
  orphaned : Orphaned preds order v
  last : ∀ u ∈ order, u ≠ start → Orphaned preds order u → ¬ [v, u].Sublist order

theorem sublist_iff_depth_lt (hnd : (start :: vs).Nodup) (hv : v ∈ start :: vs) :
    [p, v].Sublist (start :: vs) ↔ p ∈ start :: vs ∧ depth start vs p < depth start vs v := by
  constructor
  · exact fun h => ⟨h.subset List.mem_cons_self, depth_lt_of_sublist hnd h⟩
  · intro h
    obtain ⟨pre, rest, hsplit⟩ := List.append_of_mem hv
    rw [depth_eq hnd hsplit, ← mem_pre_iff hsplit] at h
    rw [hsplit]
    exact (List.singleton_sublist.2 h).append (List.singleton_sublist.2 List.mem_cons_self)

/-- A vertex is visited after one of its predecessors exactly if it is not orphaned. -/
theorem orphaned_iff (hnd : (start :: vs).Nodup) (hv : v ∈ start :: vs) :
    Orphaned g.predecessors (start :: vs).reverse v ↔ ¬ Preceded g start vs v := by
  have hafter : ∀ p, [v, p].Sublist (start :: vs).reverse ↔
      p ∈ start :: vs ∧ depth start vs p < depth start vs v := by
    intro p
    rw [← sublist_iff_depth_lt hnd hv, ← List.reverse_sublist, List.reverse_reverse]
    rfl
  simp only [Orphaned, hafter, Preceded, not_exists, not_and]

/-- The first vertex of the visits that comes before all of its predecessors. -/
theorem lastOrphaned_of_first (hnd : (start :: vs).Nodup) {before after : List Int}
    (hvs : vs = before ++ v :: after) (hbefore : ∀ u ∈ before, Preceded g start vs u)
    (hv : ¬ Preceded g start vs v) :
    LastOrphaned g.predecessors start (start :: vs).reverse v := by
  have hmem : v ∈ vs := by
    rw [hvs]
    exact List.mem_append_right _ List.mem_cons_self
  have hmem' := List.mem_cons_of_mem start hmem
  have hsplit : start :: vs = (start :: before) ++ v :: after := by
    rw [hvs]
    rfl
  refine ⟨List.mem_reverse.2 hmem', fun heq => ?_, (orphaned_iff hnd hmem').2 hv,
    fun u hu hus horphaned hsub => ?_⟩
  · exact (List.nodup_cons.1 hnd).1 (heq ▸ hmem)
  · have hu := List.mem_reverse.1 hu
    have hsub : [u, v].Sublist (start :: vs) := by
      simpa using List.reverse_sublist.2 hsub
    have hlt := (sublist_iff_depth_lt hnd hmem').1 hsub
    rw [depth_eq hnd hsplit, ← mem_pre_iff hsplit] at hlt
    exact (orphaned_iff hnd hu).1 horphaned (hbefore u ((List.mem_cons.1 hlt).resolve_left hus))

/-- The search is refused at the last orphaned vertex, or there is none and it answers. -/
theorem solve_cases (hg : g.Enclosed n) (hroom : n < Length.room) (h0 : 0 ≤ start)
    (hn : start < n) :
    ∃ found order, Explores g.successors ∅ [start] found order ∧ g.postOrder start = .ok order ∧
      ((∃ v, LastOrphaned g.predecessors start order v ∧
          solve g start = .error (.noPredecessor v start)) ∨
        (∀ v ∈ order, v ≠ start → ¬ Orphaned g.predecessors order v) ∧
          ∃ solved, solve g start = .ok solved) := by
  obtain ⟨vs, found, horder, _, hcases⟩ := @solve_eq g start n (fun _ => True)
    (confined_of_enclosed hg h0 hn) hroom (fun _ _ _ _ _ _ _ _ _ _ _ => trivial) trivial
  obtain ⟨_, _, horder', hpost⟩ := g.postOrder_eq fun v hv =>
    markable_of_lt hroom (hg.reaches_in_range h0 hn v hv).1 (hg.reaches_in_range h0 hn v hv).2
  obtain ⟨_, rfl⟩ := horder.unique horder'
  have hnd : (start :: vs).Nodup := List.nodup_reverse.1 horder.nodup
  refine ⟨found, _, horder, hpost, ?_⟩
  rcases hcases with
    ⟨before, v, after, hvs, hbefore, hv, hsolve⟩ | ⟨hall, idoms, _, passes, hsolve, _⟩
  · exact .inl ⟨v, lastOrphaned_of_first hnd hvs hbefore hv, hsolve⟩
  · refine .inr ⟨fun v hv hvs horphaned => ?_, _, hsolve⟩
    have hv := List.mem_reverse.1 hv
    exact (orphaned_iff hnd hv).1 horphaned (hall v ((List.mem_cons.1 hv).resolve_left hvs))

/-- Where the vertices that list `v` are predecessors of `v`, one of them comes after `v`. -/
theorem not_orphaned_of_explores {found : Finset Int}
    (hpred : ∀ u v, Reaches g.successors start u → v ∈ g.successors u → u ∈ g.predecessors v)
    (h : Explores g.successors ∅ [start] found order) (hv : v ∈ order) (hvs : v ≠ start) :
    ¬ Orphaned g.predecessors order v := by
  intro horphaned
  rcases h.exists_parent v hv with hstart | ⟨u, hu, hsub⟩
  · exact hvs (List.mem_singleton.1 hstart)
  · have hreach := h.mem_out_iff.1 (hsub.subset (List.mem_cons_of_mem v List.mem_cons_self))
    exact horphaned u (hpred u v hreach hu) hsub

theorem result_immediateDominators (g : Network) (start : Int) :
    (g.immediateDominators start).result = (solve g start).map Prod.fst := by
  unfold Network.immediateDominators
  cases solve g start with
  | error e => rfl
  | ok solved => rfl

theorem refusal_ne_noPredecessor (k v start : Int) :
    Length.refusal k ≠ .noPredecessor v start := by
  unfold Length.refusal
  split <;> simp

/-- Whatever the predecessors are, the search for the dominators from a vertex is refused for want
of a predecessor exactly if a vertex besides the start is orphaned in the post-order, and the last
one of these is named. If what lists a vertex always counts as a predecessor of it, none is missing.
If there is no room for a table, the call is refused for that. -/
theorem noPredecessor_iff_exists_orphaned (g : Network) (n : Nat) (start : Int)
    (hg : g.Enclosed n) (h0 : 0 ≤ start) (hn : start < n) :
    (if n < Length.room then
      ∃ order, g.postOrder start = .ok order ∧
        ((∃ v s, (g.immediateDominators start).result = .error (.noPredecessor v s)) ↔
          ∃ v ∈ order, v ≠ start ∧ Orphaned g.predecessors order v) ∧
        ∀ v s, (g.immediateDominators start).result = .error (.noPredecessor v s) →
          s = start ∧ LastOrphaned g.predecessors start order v
      else ∃ k, g.immediateDominators start = .fail (Length.refusal k) ()) ∧
    ((∀ u v, Reaches g.successors start u → v ∈ g.successors u → u ∈ g.predecessors v) →
      ∀ v s, (g.immediateDominators start).result ≠ .error (.noPredecessor v s)) := by
  simp only [result_immediateDominators]
  by_cases hroom : n < Length.room
  · obtain ⟨found, order, horder, hpost, hcases⟩ := solve_cases hg hroom h0 hn
    rw [if_pos hroom]
    rcases hcases with ⟨w, hw, hsolve⟩ | ⟨hnone, solved, hsolve⟩
    · -- the refusal names the last orphaned vertex
      refine ⟨⟨order, hpost, ?_, fun v s h => ?_⟩, fun hpred => ?_⟩
      · exact ⟨fun _ => ⟨w, hw.mem, hw.ne_start, hw.orphaned⟩,
          fun _ => ⟨w, start, by rw [hsolve]; rfl⟩⟩
      · rw [hsolve] at h
        cases h
        exact ⟨rfl, hw⟩
      · exact absurd hw.orphaned (not_orphaned_of_explores hpred horder hw.mem hw.ne_start)
    · have hok : ∀ v s, (solve g start).map Prod.fst ≠ .error (.noPredecessor v s) := by
        intro v s h
        rw [hsolve] at h
        cases h
      refine ⟨⟨order, hpost, ?_, fun v s h => absurd h (hok v s)⟩, fun _ => hok⟩
      constructor
      · rintro ⟨v, s, h⟩
        exact absurd h (hok v s)
      · rintro ⟨v, hv, hvs, horphaned⟩
        exact absurd horphaned (hnone v hv hvs)
  · obtain ⟨k, hk⟩ := (confined_of_enclosed hg h0 hn).exists_solve_eq_refusal hroom
    rw [if_neg hroom, Network.immediateDominators, hk]
    exact ⟨⟨k, rfl⟩, fun _ v s h => refusal_ne_noPredecessor k v s (Except.error.inj h)⟩

/-- Neither 2 nor 1 has a predecessor, although edges lead there. In the post-order `2, 3, 1, 0` the
last of the two is 1. -/
theorem noPredecessor_iff_exists_orphaned_two :
    let g := Network.ofTables 4 3 #[[1, 2], [3]] #[[], [], [], [1]] #[]
    g.Enclosed 4 ∧ (g.immediateDominators 0).result = .error (.noPredecessor 1 0) ∧
      LastOrphaned g.predecessors 0 [2, 3, 1, 0] 1 ∧ Orphaned g.predecessors [2, 3, 1, 0] 2 := by
  intro g
  have hg : g.Enclosed 4 := Network.enclosed_of_fin rfl (by decide) (by decide)
  have hpost : g.postOrder 0 = .ok [2, 3, 1, 0] := by decide +kernel
  have hresult : (g.immediateDominators 0).result = .error (.noPredecessor 1 0) := by
    decide +kernel
  have hpreds : g.predecessors 2 = [] := by decide
  have hiff := (noPredecessor_iff_exists_orphaned g 4 0 hg (by decide) (by decide)).1
  rw [if_pos (by decide)] at hiff
  obtain ⟨order, horder, _, hlast⟩ := hiff
  rw [hpost, Except.ok.injEq] at horder
  subst horder
  refine ⟨hg, hresult, (hlast 1 0 hresult).2, fun p hp => ?_⟩
  rw [hpreds] at hp
  exact absurd hp List.not_mem_nil

/-- In the post-order of a graph of `2 ^ 63` vertices with one edge to a vertex that has no
predecessor, that vertex is orphaned, but the call fails for another reason. -/
theorem immediateDominators_orphaned_eq_lengthRange :
    let g := Network.ofTables 9223372036854775808 1 #[[1]] #[] #[]
    g.Enclosed 9223372036854775808 ∧ g.postOrder 0 = .ok [1, 0] ∧
      Orphaned g.predecessors [1, 0] 1 ∧
      ∀ v s, (g.immediateDominators 0).result ≠ .error (.noPredecessor v s) := by
  intro g
  have hg : g.Enclosed (9223372036854775808 : Nat) :=
    Network.enclosed_ofTables (show 2 ≤ 9223372036854775808 by decide) (by decide) (by decide)
      (by decide) (by decide) 1 #[]
  have hpreds : g.predecessors 1 = [] := Network.row_empty 1
  have hresult : (g.immediateDominators 0).result = .error .lengthRange := by decide +kernel
  refine ⟨hg, by decide +kernel, fun p hp => ?_, fun v s h => ?_⟩
  · rw [hpreds] at hp
    exact absurd hp List.not_mem_nil
  · rw [hresult] at h
    cases h

end IndexGraph.Dominator
