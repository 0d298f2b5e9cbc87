import IndexGraph.Proofs.Dominator.Orphan
import IndexGraph.Proofs.PostOrder.Backward

/-
  Two passes are enough on a reducible graph. An edge is retreating if post-order does not list
  its end before its source: the vertices are visited in the reverse of that order, so in the
  first pass these edges are tried before their source has a dominator, and their source does not
  count. A graph is reducible if the end of each such edge dominates the source.
  Then nothing is lost by leaving the source out, as a path that comes to a vertex for the first
  time does not come from a source that the vertex dominates (`Dominates.of_sources`). So already
  in the first pass a vertex is put right below one of its dominators: what lies on a way up
  dominates (`Exact`), and with `Safe`, the other inclusion, which holds on every graph, the tree
  is the dominator tree (`pass_exact`). The second pass could only move vertices up, away from
  their dominators, so it changes nothing (`pass_unmoved`).
-/

namespace IndexGraph.Dominator

open Function (update)

variable {g : Network} {succ : Int → List Int} {preds : Int → List Int}
  {number : Array Int} {idoms idoms' : Idoms} {up up' : Int → Option Int} {vs : List Int}
  {start u v m x : Int} {n : Nat}

/-- An edge whose end does not come before its source in post-order. -/
structure Retreating (g : Network) (start u v : Int) : Prop where
  reaches : Reaches g.successors start u
  edge : v ∈ g.successors u
  not_sublist : ∀ order, g.postOrder start = .ok order → ¬ [v, u].Sublist order

/-- The end of every retreating edge dominates its source. -/
def Reducible (g : Network) (start : Int) : Prop :=
  ∀ u v, Retreating g start u v → Dominates g.successors start v u

/-- Without a cycle there is no retreating edge at all. -/
theorem reducible_of_acyclicFrom {found : Finset Int} {order : List Int}
    (hacyclic : AcyclicFrom g.successors start)
    (h : Explores g.successors ∅ [start] found order) (hpost : g.postOrder start = .ok order) :
    Reducible g start := by
  intro u v hretreat
  have hback := h.backward u v hretreat.reaches hretreat.edge
  have hnot := hacyclic.not_reaches hretreat.reaches hretreat.edge
  exact absurd (hback.resolve_right hnot) (hretreat.not_sublist order hpost)

/-! ## The first pass -/

/-- The vertex above another one dominates it. -/
def Exact (succ : Int → List Int) (start : Int) (up : Int → Option Int) : Prop :=
  ∀ v q, up v = some q → Dominates succ start q v

theorem exact_root (succ : Int → List Int) (start : Int) :
    Exact succ start (update (fun _ => none) start (some start)) := by
  intro v q hq
  by_cases hv : v = start
  · subst hv
    rw [Function.update_self] at hq
    cases hq
    exact Dominates.refl succ v v
  · rw [Function.update_of_ne hv] at hq
    cases hq

namespace Exact

variable (h : Exact succ start up)
include h

theorem dominates_of_onWay (hx : OnWay up v x) : Dominates succ start x v := by
  induction hx with
  | refl v => exact Dominates.refl succ start v
  | climb hp _ ih => exact ih.trans (h _ _ hp)

/-- A visit keeps this, if the sources of the vertex that are not in the tree yet are dominated by
the vertex. -/
theorem visit (hu : u ≠ start) (hm : IsMeet up (preds u) m)
    (hsources : ∀ p, Reaches succ start p → u ∈ succ p →
      (p ∈ preds u ∧ up p ≠ none) ∨ Dominates succ start u p) :
    Exact succ start (update up u (some m)) := by
  intro v q hq
  by_cases hvu : v = u
  · subst hvu
    rw [Function.update_self] at hq
    cases hq
    apply Dominates.of_sources hu
    intro p hp he
    refine (hsources p hp he).imp_left fun hex => ?_
    exact h.dominates_of_onWay (hm.onWay hex.1 hex.2)
  · rw [Function.update_of_ne hvu] at hq
    exact h v q hq

end Exact

/-- When a vertex is visited first, its sources have been visited or are dominated by it. -/
theorem Reducible.source_cases (hred : Reducible g start)
    (hpost : g.postOrder start = .ok (start :: vs).reverse) (hnd : (start :: vs).Nodup)
    {pre rest : List Int} (hpre : start :: vs = pre ++ u :: rest) {p : Int}
    (hp : Reaches g.successors start p) (he : u ∈ g.successors p) :
    p ∈ pre ∨ Dominates g.successors start u p := by
  by_cases hsub : [p, u].Sublist (start :: vs)
  · have hu : u ∈ start :: vs := hsub.subset (List.mem_cons_of_mem p (List.mem_singleton_self u))
    refine .inl ((mem_pre_iff hpre p).2 ?_)
    rw [← depth_eq hnd hpre]
    exact (sublist_iff_depth_lt hnd hu).1 hsub
  · refine .inr (hred p u ⟨hp, he, fun order horder hsub' => hsub ?_⟩)
    rw [hpost, Except.ok.injEq] at horder
    rw [← horder] at hsub'
    simpa using List.reverse_sublist.2 hsub'

/-- The first pass makes the tree exact. -/
theorem pass_exact (hs : Setting g start vs number n)
    (hkeep : Kept g start vs (Safe g.successors start)) (hred : Reducible g start)
    (hpost : g.postOrder start = .ok (start :: vs).reverse)
    (hpred : ∀ p v, Reaches g.successors start p → v ∈ g.successors p → p ∈ g.predecessors v)
    (rest : List Int) :
    ∀ (pre : List Int) (idoms : Idoms) (up : Int → Option Int), start :: vs = pre ++ rest →
      pre ≠ [] → (∀ u ∈ rest, Preceded g start vs u) →
      Stage g start vs n (Safe g.successors start) idoms up pre.length pre →
      Exact g.successors start up →
      ∃ idoms' up', pass g number start rest idoms = .ok (idoms', decide (rest ≠ [])) ∧
        Stage g start vs n (Safe g.successors start) idoms' up' (start :: vs).length
          (start :: vs) ∧
        Exact g.successors start up' := by
  induction rest with
  | nil =>
    intro pre idoms up hpre _ _ hstage hexact
    rw [List.append_nil] at hpre
    rw [← hpre] at hstage
    exact ⟨idoms, up, rfl, hstage, hexact⟩
  | cons u rest ih =>
    intro pre idoms up hpre hne hpreceded hstage hexact
    obtain ⟨hu, hpreceded⟩ := List.forall_mem_cons.1 hpreceded
    rcases hstage.visit_first hs hkeep hpre hne with
      ⟨hno, _⟩ | ⟨_, _, m, idoms₁, hmeet, hvisit, hstage₁⟩
    · exact absurd hu hno
    · have hexact₁ : Exact g.successors start (update up u (some m)) := by
        refine hexact.visit (hs.mem_vs hpre hne).2 hmeet fun p hp he => ?_
        refine (hred.source_cases hpost hs.nodup hpre hp he).imp_left fun hmem => ?_
        exact ⟨hpred p u hp he, (hstage.mem_iff p).2 hmem⟩
      obtain ⟨idoms', up', hpass, hstage', hexact'⟩ :=
        ih (pre ++ [u]) idoms₁ _ (by simpa using hpre) (by simp) hpreceded hstage₁ hexact₁
      refine ⟨idoms', up', ?_, hstage', hexact'⟩
      simp only [pass, bind, Except.bind, hvisit, hpass]
      simp [pure, Except.pure]

/-! ## The second pass -/

theorem eq_of_visit_eq_false (h : visit g number start idoms v = .ok (idoms', false)) :
    idoms' = idoms := by
  unfold visit at h
  obtain ⟨found, _, h⟩ := bind_eq_ok_iff.1 h
  cases found with
  | none => cases h
  | some d =>
    obtain ⟨q, _, h⟩ := bind_eq_ok_iff.1 h
    split at h
    · cases h
      rfl
    · obtain ⟨_, _, h⟩ := bind_eq_ok_iff.1 h
      cases h

/-- A pass that changes no dominator leaves the table as it is. -/
theorem eq_of_pass_eq_false (rest : List Int) :
    ∀ idoms, pass g number start rest idoms = .ok (idoms', false) → idoms' = idoms := by
  induction rest with
  | nil =>
    intro idoms h
    cases h
    rfl
  | cons v rest ih =>
    intro idoms h
    obtain ⟨⟨idoms₁, here⟩, hvisit, h⟩ := bind_eq_ok_iff.1 h
    obtain ⟨⟨idoms₂, later⟩, hpass, h⟩ := bind_eq_ok_iff.1 h
    simp only [pure, Except.pure, Except.ok.injEq, Prod.mk.injEq, Bool.or_eq_false_iff] at h
    obtain ⟨rfl, rfl, rfl⟩ := h
    exact (ih idoms₁ hpass).trans (eq_of_visit_eq_false hvisit)

/-- In no safe tree a vertex is put higher than in an exact one. -/
theorem weight_le_of_safe {t : Nat} {keep : (Int → Option Int) → Prop}
    (hs : Setting g start vs number n) (hstage : Stage g start vs n keep idoms up t (start :: vs))
    (hexact : Exact g.successors start up)
    (hstage' : Stage g start vs n (Safe g.successors start) idoms' up' t (start :: vs)) :
    weight (depth start vs) vs up ≤ weight (depth start vs) vs up' := by
  refine List.sum_le_sum fun v hv => ?_
  have hvs : v ≠ start := fun heq => (List.nodup_cons.1 hs.nodup).1 (heq ▸ hv)
  have hmem := List.mem_cons_of_mem start hv
  obtain ⟨q, hq⟩ := Option.ne_none_iff_exists'.1 ((hstage.mem_iff v).2 hmem)
  obtain ⟨q', hq'⟩ := Option.ne_none_iff_exists'.1 ((hstage'.mem_iff v).2 hmem)
  have hne : q ≠ v := by
    intro heq
    subst heq
    exact Nat.lt_irrefl _ (hstage.steady.rooted.height_lt q q hvs hq)
  have ht' := hstage'.steady.rooted
  have hdom := hstage'.kept v q' hvs hq' q hne (hexact v q hq)
  have hway := hstage'.kept.onWay_of_dominates ht' (ht'.closed v q' hq') hdom
  rw [hq, hq']
  exact ht'.height_le hway

/-- Where the tree is exact, another pass changes nothing. -/
theorem pass_unmoved (hs : Setting g start vs number n)
    (hkeep : Kept g start vs (Safe g.successors start))
    (hstage : Stage g start vs n (Safe g.successors start) idoms up (start :: vs).length
      (start :: vs))
    (hexact : Exact g.successors start up) :
    pass g number start vs idoms = .ok (idoms, false) := by
  obtain ⟨idoms', up', changed, hpass, hstage', _, hlt, _⟩ :=
    pass_later hs hkeep vs [start] idoms up rfl (List.cons_ne_nil _ _) hstage.restart
  have hle := weight_le_of_safe hs hstage hexact hstage'
  cases changed with
  | true => exact absurd (hlt rfl) (Nat.not_lt_of_le hle)
  | false => rw [hpass, eq_of_pass_eq_false vs idoms hpass]

/-! ## The call -/

/-- A first pass that changes something and a second one that does not are all. -/
theorem settle_eq_two {fuel : Nat} {idoms₀ : Idoms} (hfuel : 1 < fuel)
    (hfirst : pass g number start vs idoms₀ = .ok (idoms, true))
    (hsecond : pass g number start vs idoms = .ok (idoms, false)) :
    settle g number start vs fuel 0 idoms₀ = .ok (idoms, 2) := by
  obtain ⟨fuel, rfl⟩ := Nat.exists_eq_add_of_le' hfuel
  rw [settle, hfirst]
  show settle g number start vs (fuel + 1) 1 idoms = _
  rw [settle, hsecond]
  rfl

/-- On every consistent graph for which there is room and that is reducible from the start, as any
graph without a cycle is, the first pass finds all dominators, if it visits a vertex at all; and the
search ends after the second pass. Without room it is refused. -/
theorem immediateDominators_settles_in_two (g : Network) (n : Nat) (start : Int)
    (hg : g.Consistent n) (h0 : 0 ≤ start) (hn : start < n) :
    if n < Length.room then
      (AcyclicFrom g.successors start → Reducible g start) ∧
      ((∃ v, v ≠ start ∧ Reaches g.successors start v) → Reducible g start →
        ∃ vs number idoms₀ idoms, Prepared g start n vs number idoms₀ ∧
          pass g number start vs idoms₀ = .ok (idoms, true) ∧
          Tells g.successors start n idoms ∧
          g.immediateDominators start = (Reply.done idoms ()).after (.settled start 2))
    else ∃ k, g.immediateDominators start = .fail (Length.refusal k) () := by
  have hconfined := confined_of_enclosed hg.enclosed h0 hn
  split
  case isFalse hroom =>
    obtain ⟨k, hk⟩ := hconfined.exists_solve_eq_refusal hroom
    refine ⟨k, ?_⟩
    rw [Network.immediateDominators, hk]
  case isTrue hroom =>
    obtain ⟨vs, number, idoms₀, found, horder, hprepared, hs, hstage⟩ :=
      hconfined.exists_prepared hroom (safe_root g.successors start)
    have hpost := hprepared.postOrder_eq
    have hmem : ∀ v, v ∈ start :: vs ↔ Reaches g.successors start v := fun v =>
      List.mem_reverse.symm.trans horder.mem_out_iff
    refine ⟨fun hacyclic => reducible_of_acyclicFrom hacyclic horder hpost, fun hother hred => ?_⟩
    have hkeep := kept_safe hg h0 hn hmem
    obtain ⟨idoms, up, hpass, hstage₁, hexact⟩ :=
      pass_exact hs hkeep hred hpost (fun p v => hg.mem_predecessors h0 hn) vs [start] idoms₀ _ rfl
        (List.cons_ne_nil _ _) (preceded_of_explores hg h0 hn horder) hstage
        (exact_root g.successors start)
    have hvs : vs ≠ [] := by
      obtain ⟨v, hne, hv⟩ := hother
      exact List.ne_nil_of_mem ((List.mem_cons.1 ((hmem v).2 hv)).resolve_left hne)
    rw [decide_eq_true hvs] at hpass
    have hfuel := triangle_add_one_lt_passBound hs.length_lt
    have hsolve := (hprepared.solve_eq_settle hconfined hroom).trans
      (settle_eq_two (by omega) hpass (pass_unmoved hs hkeep hstage₁ hexact))
    have htree := hstage₁.dominatorTree horder hs.length_lt fun v _ x => hexact.dominates_of_onWay
    refine ⟨vs, number, idoms₀, idoms, hprepared, hpass, htree.tells hstage₁.table h0 hn, ?_⟩
    rw [Network.immediateDominators, hsolve]

/-- The edge from 2 back to 1 is retreating, and so is the loop at 3; their ends dominate their
sources. -/
theorem immediateDominators_settles_in_two_loops :
    let g := Network.ofTables 4 5 #[[1], [2, 3], [1], [3]] #[[], [0, 2], [1], [1, 3]] #[]
    g.Consistent 4 ∧ Retreating g 0 2 1 ∧ Retreating g 0 3 3 ∧ Reducible g 0 ∧
      ∃ vs number idoms₀ idoms, Prepared g 0 4 vs number idoms₀ ∧
        pass g number 0 vs idoms₀ = .ok (idoms, true) ∧ Tells g.successors 0 4 idoms ∧
        g.immediateDominators 0 = (Reply.done idoms ()).after (.settled 0 2) := by
  intro g
  have hg : g.Consistent 4 :=
    (Network.enclosed_of_fin rfl (by decide) (by decide)).consistent_of_fin (by decide)
  have hpost : g.postOrder 0 = .ok [3, 2, 1, 0] := by decide +kernel
  have h1 : Reaches g.successors 0 1 := (Reaches.refl _ 0).tail (by decide)
  have h2 : Reaches g.successors 0 2 := h1.tail (by decide)
  have h3 : Reaches g.successors 0 3 := h1.tail (by decide)
  have hedges : ∀ u v : Fin 4, ((v : Nat) : Int) ∈ g.successors (u : Nat) →
      [((v : Nat) : Int), ((u : Nat) : Int)].Sublist [3, 2, 1, 0] ∨
        (u : Nat) = 2 ∧ (v : Nat) = 1 ∨ (u : Nat) = 3 ∧ (v : Nat) = 3 := by decide
  have hretreating : ∀ u v, Retreating g 0 u v → u = 2 ∧ v = 1 ∨ u = 3 ∧ v = 3 := by
    intro u v hretreat
    obtain ⟨i, rfl⟩ := hg.exists_fin_of_reaches (by decide) (by decide) hretreat.reaches
    obtain ⟨j, rfl⟩ := hg.exists_fin_of_reaches (by decide) (by decide)
      (hretreat.reaches.tail hretreat.edge)
    have hcases := (hedges i j hretreat.edge).resolve_left (hretreat.not_sublist _ hpost)
    omega
  have hretreats : ∀ u v, Reaches g.successors 0 u → v ∈ g.successors u →
      ¬ [v, u].Sublist [3, 2, 1, 0] → Retreating g 0 u v := by
    refine fun u v hu he hnot => ⟨hu, he, fun order horder => ?_⟩
    rw [hpost, Except.ok.injEq] at horder
    rwa [← horder]
  have hsource : ∀ u : Fin 4, 2 ∈ g.successors (u : Nat) → (u : Nat) = 1 := by decide
  have hdominates : Dominates g.successors 0 1 2 := by
    refine Dominates.of_sources (by decide) fun u hu he => .inl ?_
    obtain ⟨i, rfl⟩ := hg.exists_fin_of_reaches (by decide) (by decide) hu
    rw [hsource i he]
    exact Dominates.refl _ 0 1
  have hred : Reducible g 0 := by
    intro u v hretreat
    rcases hretreating u v hretreat with ⟨rfl, rfl⟩ | ⟨rfl, rfl⟩
    · exact hdominates
    · exact Dominates.refl _ 0 3
  have hsettles := immediateDominators_settles_in_two g 4 0 hg (by decide) (by decide)
  rw [if_pos (by decide)] at hsettles
  exact ⟨hg, hretreats 2 1 h2 (by decide) (by decide), hretreats 3 3 h3 (by decide) (by decide),
    hred, hsettles.2 ⟨1, by decide, h1⟩ hred⟩

/-- A graph of `2 ^ 63` vertices with one edge is reducible and reaches a vertex besides the start,
but the call gives no answer. -/
theorem immediateDominators_reducible_eq_lengthRange :
    let g := Network.ofTables 9223372036854775808 1 #[[1]] #[[], [0]] #[]
    g.Consistent 9223372036854775808 ∧ Reducible g 0 ∧ Reaches g.successors 0 1 ∧
      g.immediateDominators 0 = .fail .lengthRange () := by
  intro g
  have hg : g.Consistent (9223372036854775808 : Nat) :=
    Network.consistent_ofTables (show 2 ≤ 9223372036854775808 by decide) (by decide) (by decide)
      (by decide) (by decide) (by decide) 1 #[]
  have hpost : g.postOrder 0 = .ok [1, 0] := by decide +kernel
  have hedge : ∀ u v : Int, v ∈ g.successors u → u = 0 ∧ v = 1 := by
    intro u v hv
    have hu : u = 0 := by
      by_contra hu
      rw [g.successors_eq_nil u (show u < 0 ∨ 1 ≤ u by omega)] at hv
      exact absurd hv List.not_mem_nil
    subst hu
    exact ⟨rfl, List.mem_singleton.1 hv⟩
  refine ⟨hg, fun u v hretreat => ?_, (Reaches.refl _ 0).tail (by decide), rfl⟩
  obtain ⟨rfl, rfl⟩ := hedge u v hretreat.edge
  exact absurd (List.Sublist.refl _) (hretreat.not_sublist _ hpost)

end IndexGraph.Dominator
