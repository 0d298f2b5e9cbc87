import IndexGraph.Proofs.Consistent
import IndexGraph.Proofs.Dominator.Solve

/-
  The dominators that the passes settle on are those of the paths, on every consistent graph.
  Two inclusions make it up. No dominator is ever lost: in every tree on the way a strict
  dominator of `v` dominates the vertex above `v` (`Safe`), and a visit keeps this because the
  dominators common to all predecessors lie on the way up from their meet (`Safe.visit`). And
  nothing else is left in the end: where each vertex is right below the meet of its
  predecessors, what lies on a way up lies on every path (`mem_of_onWay`).
  `exists_dominatorTree` states the result as a tree: the ways up are the dominators.
-/

namespace IndexGraph.Dominator

open Function (update)

variable {succ : Int → List Int} {preds : Int → List Int} {start u v x m : Int}
  {up : Int → Option Int} {height : Int → Nat} {g : Network} {n : Nat}

/-- The strict dominators of a vertex dominate the vertex above it. -/
def Safe (succ : Int → List Int) (start : Int) (up : Int → Option Int) : Prop :=
  ∀ v q, v ≠ start → up v = some q → ∀ x, x ≠ v → Dominates succ start x v →
    Dominates succ start x q

theorem safe_root (succ : Int → List Int) (start : Int) :
    Safe succ start (update (fun _ => none) start (some start)) := by
  intro v q hv hq
  rw [Function.update_of_ne hv] at hq
  cases hq

namespace Safe

variable (hsafe : Safe succ start up) (ht : Rooted up height start)
include hsafe ht

/-- In a safe tree every dominator lies on the way up. -/
theorem onWay_of_dominates (hv : up v ≠ none) (hx : Dominates succ start x v) :
    OnWay up v x := by
  generalize hn : height v = n
  induction n using Nat.strong_induction_on generalizing v with
  | _ n ih =>
    by_cases hxv : x = v
    · rw [hxv]
      exact .refl v
    · have hvs : v ≠ start := by
        intro heq
        subst heq
        exact hxv hx.eq_start
      obtain ⟨q, hq⟩ := Option.ne_none_iff_exists'.1 hv
      have hlt := ht.height_lt v q hvs hq
      exact .climb hq (ih _ (by omega) (ht.closed v q hq) (hsafe v q hvs hq x hxv hx) rfl)

/-- A dominator of `v` dominates what lies between it and `v` on the way up. -/
theorem dominates_of_onWay (hm : OnWay up v m) (hmx : OnWay up m x)
    (hx : Dominates succ start x v) : Dominates succ start x m := by
  induction hm with
  | refl => exact hx
  | @climb v q m hq hm ih =>
    by_cases hxv : x = v
    · subst hxv
      rw [ht.antisymm (.climb hq hm) hmx]
      exact Dominates.refl succ start x
    · by_cases hvs : v = start
      · subst hvs
        exact absurd hx.eq_start hxv
      · exact ih hmx (hsafe v q hvs hq x hxv hx)

/-- A visit keeps the tree safe. -/
theorem visit (hedge : ∀ p ∈ preds u, up p ≠ none → u ∈ succ p)
    (hm : IsMeet up (preds u) m) (hex : ∃ p ∈ preds u, up p ≠ none) :
    Safe succ start (update up u (some m)) := by
  intro v q hv hq x hxv hx
  by_cases hvu : v = u
  · subst hvu
    rw [Function.update_self] at hq
    cases hq
    have hpred : ∀ p ∈ preds v, up p ≠ none → Dominates succ start x p := fun p hp hup =>
      hx.of_edge hxv (hedge p hp hup)
    have hmx : OnWay up m x := (hm.onWay_iff x).2 fun p hp hup =>
      hsafe.onWay_of_dominates ht hup (hpred p hp hup)
    obtain ⟨p, hp, hup⟩ := hex
    exact hsafe.dominates_of_onWay ht (hm.onWay hp hup) hmx (hpred p hp hup)
  · rw [Function.update_of_ne hvu] at hq
    exact hsafe v q hv hq x hxv hx

end Safe

/-- Every visit on a consistent graph keeps the tree safe. -/
theorem kept_safe (hg : g.Consistent n) (h0 : 0 ≤ start) (hn : start < n) {vs : List Int}
    (hvs : ∀ v, v ∈ start :: vs ↔ Reaches g.successors start v) :
    Kept g start vs (Safe g.successors start) := by
  intro up u m ht hsub hu hm hex hsafe
  refine hsafe.visit ht (fun p hp hup => ?_) hm hex
  have hpr := (hvs p).1 (hsub p hup)
  have hur := (hvs u).1 (List.mem_cons_of_mem start hu)
  exact (hg.mem_iff_of_reaches h0 hn hpr (hg.reaches_in_range h0 hn u hur)).2 hp

/-- The ways up of `up` are the dominators, and `up` knows the vertices that are reached. -/
structure DominatorTree (succ : Int → List Int) (start : Int) (n : Nat)
    (up : Int → Option Int) : Prop where
  exists_rooted : ∃ height, Rooted up height start ∧ ∀ v, up v ≠ none → height v < n
  ne_none_iff : ∀ v, up v ≠ none ↔ Reaches succ start v
  onWay_iff : ∀ v, up v ≠ none → ∀ x, OnWay up v x ↔ Dominates succ start x v

/-- The vertex above another one is its immediate dominator. -/
theorem DominatorTree.immediatelyDominates (h : DominatorTree succ start n up) (hv : v ≠ start)
    (hu : up v = some u) : ImmediatelyDominates succ start u v := by
  obtain ⟨height, ht, _⟩ := h.exists_rooted
  have hvn : up v ≠ none := ne_none_of_up hu
  refine ⟨?_, (h.onWay_iff v hvn u).1 (.single hu), fun x hx hdom => ?_⟩
  · intro heq
    subst heq
    exact Nat.lt_irrefl _ (ht.height_lt u u hv hu)
  · rcases (OnWay.iff_of_up hu).1 ((h.onWay_iff v hvn x).2 hdom) with rfl | hway
    · exact absurd rfl hx
    · exact (h.onWay_iff u (ht.closed v u hu) x).1 hway

/-- Where each vertex is right below the meet of its predecessors, a path to a vertex passes all
that lies on its way up. -/
theorem mem_of_onWay (ht : Rooted up height start)
    (hsettled : ∀ v, v ≠ start → up v ≠ none → ∃ m, up v = some m ∧ IsMeet up (preds v) m)
    (hreach : ∀ v, Reaches succ start v → up v ≠ none)
    (hpred : ∀ u v, Reaches succ start u → v ∈ succ u → u ∈ preds v)
    {vs : List Int} (hp : Path succ start v vs) (hx : OnWay up v x) : x ∈ vs := by
  induction hp generalizing x with
  | start => exact List.mem_singleton.2 (ht.eq_root_of_onWay hx)
  | @step u v vs hp he ih =>
    by_cases hv : v = start
    · subst hv
      rw [ht.eq_root_of_onWay hx]
      exact List.mem_cons_self
    · have hu := hp.reaches
      obtain ⟨m, hm, hmeet⟩ := hsettled v hv (hreach v (hu.tail he))
      rcases (OnWay.iff_of_up hm).1 hx with rfl | hx
      · exact List.mem_cons_self
      · have hum : OnWay up u m := hmeet.onWay (hpred u v hu he) (hreach u hu)
        exact List.mem_cons_of_mem v (ih (hum.trans hx))

theorem confined_of_enclosed (hg : g.Enclosed n) (h0 : 0 ≤ start) (hn : start < n) :
    Confined g start n := by
  refine ⟨hg.vertexCount_eq, ⟨h0, hn⟩, hg.reaches_in_range h0 hn, fun v hv _ => ?_⟩
  obtain ⟨hv0, hvn⟩ := hg.reaches_in_range h0 hn v hv
  exact hg.predecessors_in_range v hv0 hvn

theorem depth_lt_of_sublist {vs : List Int} (hnd : (start :: vs).Nodup)
    (h : [u, v].Sublist (start :: vs)) : depth start vs u < depth start vs v := by
  obtain ⟨before, after, hsplit, hu, hv⟩ := List.cons_sublist_iff.1 h
  have hv := List.singleton_sublist.1 hv
  rw [hsplit] at hnd
  have hnot : v ∉ before := fun hv' => (List.nodup_append.1 hnd).2.2 v hv' v hv rfl
  rw [depth, depth, hsplit, List.idxOf_append_of_mem hu, List.idxOf_append_of_notMem hnot]
  exact Nat.lt_of_lt_of_le (List.idxOf_lt_length_iff.2 hu) (Nat.le_add_right _ _)

/-- Each vertex but the start is reported before one of its predecessors. -/
theorem preceded_of_explores (hg : g.Consistent n) (h0 : 0 ≤ start) (hn : start < n)
    {vs : List Int} {found : Finset Int}
    (horder : Explores g.successors ∅ [start] found (start :: vs).reverse) :
    ∀ v ∈ vs, Preceded g start vs v := by
  intro v hv
  have hnd : (start :: vs).Nodup := List.nodup_reverse.1 horder.nodup
  have hreaches : ∀ w ∈ start :: vs, Reaches g.successors start w := fun w hw =>
    horder.mem_out_iff.1 (List.mem_reverse.2 hw)
  have hmem := List.mem_cons_of_mem start hv
  rcases horder.exists_parent v (List.mem_reverse.2 hmem) with hstart | ⟨p, hp, hsub⟩
  · rw [List.mem_singleton.1 hstart] at hv
    exact absurd hv (List.nodup_cons.1 hnd).1
  · have hsub : [p, v].Sublist (start :: vs) := by
      simpa using List.reverse_sublist.2 hsub
    have hpmem : p ∈ start :: vs := hsub.subset List.mem_cons_self
    exact ⟨p, hg.mem_predecessors h0 hn (hreaches p hpmem) hp, hpmem,
      depth_lt_of_sublist hnd hsub⟩

/-- A safe tree of all vertices that are reached is the dominator tree, if nothing lies on a way up
but dominators. -/
theorem Stage.dominatorTree {vs : List Int} {found : Finset Int} {idoms : Idoms} {t : Nat}
    (hstage : Stage g start vs n (Safe g.successors start) idoms up t (start :: vs))
    (horder : Explores g.successors ∅ [start] found (start :: vs).reverse) (hlength : vs.length < n)
    (hdom : ∀ v, up v ≠ none → ∀ x, OnWay up v x → Dominates g.successors start x v) :
    DominatorTree g.successors start n up := by
  have ht := hstage.steady.rooted
  refine ⟨⟨_, ht, fun v hv => ?_⟩, fun v => ?_, fun v hv x => ⟨hdom v hv x, ?_⟩⟩
  · have := depth_lt ((hstage.mem_iff v).1 hv)
    omega
  · rw [hstage.mem_iff, ← List.mem_reverse, horder.mem_out_iff]
  · exact hstage.kept.onWay_of_dominates ht hv

/-- On a consistent graph the call answers the dominator tree. -/
theorem exists_dominatorTree (hg : g.Consistent n) (hroom : n < Length.room) (h0 : 0 ≤ start)
    (hn : start < n) : ∃ idoms up passes, solve g start = .ok (idoms, passes) ∧
      Table idoms n up ∧ DominatorTree g.successors start n up := by
  obtain ⟨vs, found, horder, hlength, hcases⟩ :=
    solve_eq (confined_of_enclosed hg.enclosed h0 hn) hroom (fun vs => kept_safe hg h0 hn)
      (safe_root g.successors start)
  have hpreceded := preceded_of_explores hg h0 hn horder
  rcases hcases with ⟨before, v, after, hvs, _, hv, _⟩ |
    ⟨_, idoms, up, passes, hsolve, hstage, hsettled⟩
  · exact absurd (hpreceded v (by rw [hvs]; simp)) hv
  have hreach : ∀ v, Reaches g.successors start v → up v ≠ none := fun v hv => by
    rwa [hstage.mem_iff, ← List.mem_reverse, horder.mem_out_iff]
  have hmeet : ∀ v, v ≠ start → up v ≠ none →
      ∃ m, up v = some m ∧ IsMeet up (g.predecessors v) m := fun v hv hup =>
    hsettled v ((List.mem_cons.1 ((hstage.mem_iff v).1 hup)).resolve_left hv)
  refine ⟨idoms, up, passes, hsolve, hstage.table,
    hstage.dominatorTree horder hlength fun v _ x hx vs' hp => ?_⟩
  exact mem_of_onWay hstage.steady.rooted hmeet hreach
    (fun u v => hg.mem_predecessors h0 hn) hp hx

theorem exists_immediateDominators (hg : g.Consistent n) (hroom : n < Length.room) (h0 : 0 ≤ start)
    (hn : start < n) : ∃ idoms, (g.immediateDominators start).result = .ok idoms := by
  obtain ⟨idoms, _, _, hsolve, _⟩ := exists_dominatorTree hg hroom h0 hn
  unfold Network.immediateDominators
  rw [hsolve]
  exact ⟨idoms, rfl⟩

/-- Whatever table the call answers holds the dominator tree. -/
theorem dominatorTree_of_answer {idoms : Idoms} (hg : g.Consistent n) (h0 : 0 ≤ start)
    (hn : start < n) (h : (g.immediateDominators start).result = .ok idoms) :
    ∃ up, Table idoms n up ∧ DominatorTree g.successors start n up := by
  unfold Network.immediateDominators at h
  by_cases hroom : n < Length.room
  · obtain ⟨table, up, passes, hsolve, htable, htree⟩ := exists_dominatorTree hg hroom h0 hn
    rw [hsolve] at h
    obtain rfl : table = idoms := Except.ok.inj h
    exact ⟨up, htable, htree⟩
  · obtain ⟨e, he⟩ := exists_solve_eq_error g start (by rw [hg.vertexCount_eq]; omega)
    rw [he] at h
    cases h

/-- What a table of immediate dominators from `start` says about the vertices below `n`. -/
structure Tells (succ : Int → List Int) (start : Int) (n : Nat) (idoms : Idoms) : Prop where
  size_eq : idoms.size = n
  at_start : Position.read idoms start = .ok (some start)
  none_iff : ∀ v : Int, 0 ≤ v → v < n →
    (Position.read idoms v = .ok none ↔ ¬ Reaches succ start v)
  immediate : ∀ v d : Int, 0 ≤ v → v < n → v ≠ start → Position.read idoms v = .ok (some d) →
    ImmediatelyDominates succ start d v

theorem DominatorTree.tells {idoms : Idoms} (h : DominatorTree succ start n up)
    (hi : Table idoms n up) (h0 : 0 ≤ start) (hn : start < n) : Tells succ start n idoms := by
  obtain ⟨height, ht, _⟩ := h.exists_rooted
  refine ⟨hi.size_eq, ?_, fun v hv0 hvn => ?_, fun v d hv0 hvn hv hd => ?_⟩
  · rw [hi.read_eq start h0 hn, ht.root_up]
  · rw [hi.read_eq v hv0 hvn, ← h.ne_none_iff v, not_not, Except.ok.injEq]
  · rw [hi.read_eq v hv0 hvn, Except.ok.injEq] at hd
    exact h.immediatelyDominates hv hd

/-- The call tells the immediate dominators of every consistent graph for which there is room,
and gives no answer for a larger one; every matrix that calls can make is such a graph, and so
is every multigraph with its transpose. -/
theorem immediateDominators_tells :
    (∀ (g : Network) (n : Nat) (start : Int), g.Consistent n → 0 ≤ start → start < n →
      if n < Length.room then
        ∃ idoms, (g.immediateDominators start).result = .ok idoms ∧
          Tells g.successors start n idoms
      else ∃ e, (g.immediateDominators start).result = .error e) ∧
    (∀ directed capacity calls, (Network.ofMatrix
      (WeightMatrix.reached directed capacity calls)).Consistent
        (WeightMatrix.reached directed capacity calls).capacity) ∧
    ∀ m : Multigraph, (Network.ofMultigraph m).Consistent m.vertexCount := by
  refine ⟨fun g n start hg h0 hn => ?_, fun directed capacity calls => ?_,
    Network.consistent_ofMultigraph⟩
  · unfold Network.immediateDominators
    split
    · rename_i hroom
      obtain ⟨idoms, up, passes, hsolve, htable, htree⟩ := exists_dominatorTree hg hroom h0 hn
      rw [hsolve]
      exact ⟨idoms, rfl, htree.tells htable h0 hn⟩
    · rename_i hroom
      obtain ⟨e, he⟩ := exists_solve_eq_error g start (by rw [hg.vertexCount_eq]; omega)
      rw [he]
      exact ⟨e, rfl⟩
  · obtain ⟨r, hr⟩ := WeightMatrix.exists_mirrors_reached directed capacity calls
    exact Network.consistent_ofMatrix hr.sound

/-- A multigraph of three vertices in a row. -/
theorem immediateDominators_tells_row :
    let g := Network.ofMultigraph (((Multigraph.ofCount 3).push 0 1).push 1 2)
    ∃ idoms, (g.immediateDominators 0).result = .ok idoms ∧ Tells g.successors 0 3 idoms := by
  have h := immediateDominators_tells.1 _ 3 0
    (immediateDominators_tells.2.2 (((Multigraph.ofCount 3).push 0 1).push 1 2))
    (by decide) (by decide)
  rwa [if_pos (by decide)] at h

/-- Without any edge a graph of `2 ^ 63` vertices is consistent, and there is no answer. -/
theorem immediateDominators_eq_lengthRange :
    let g := Network.ofTables 9223372036854775808 0 #[] #[] #[]
    g.Consistent 9223372036854775808 ∧
      (g.immediateDominators 0).result = .error .lengthRange := by
  intro g
  exact ⟨Network.consistent_ofTables_empty _ _ _, rfl⟩

end IndexGraph.Dominator
