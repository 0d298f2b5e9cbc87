import IndexGraph.Dominator.Tree
import IndexGraph.Proofs.Dominator.Immediate

/-
  Asking a table of immediate dominators whether one vertex dominates another. The query follows
  the way up from the second vertex. On a rooted tree that way ends at the root, which is above
  itself, so the query answers whether the first vertex is on it (`onWayUp_eq`). On the table
  that the passes settle on, the way up from a vertex holds exactly its dominators; so the answer
  is about all paths of the graph, although the query sees none of them
  (`dominates_iff_on_every_path`).
-/

namespace IndexGraph.Dominator

variable {succ : Int → List Int} {start root a b v : Int} {up : Int → Option Int}
  {height : Int → Nat} {idoms : Idoms} {n : Nat}

/-- The query ends within as many steps as the height of the vertex allows, and tells whether `a`
is on the way up. -/
theorem onWayUp_eq (ht : Rooted up height root) (hi : Tabulates idoms up) (fuel : Nat) :
    ∀ v, up v ≠ none → height v < fuel →
      ∃ r, onWayUp idoms a fuel v = .ok r ∧ (r = true ↔ OnWay up v a) := by
  induction fuel with
  | zero => exact fun v _ h => absurd h (Nat.not_lt_zero _)
  | succ fuel ih =>
    intro v hv hfuel
    unfold onWayUp
    by_cases hva : v = a
    · subst hva
      rw [if_pos rfl]
      exact ⟨true, rfl, by simp [OnWay.refl]⟩
    obtain ⟨p, hp⟩ := Option.ne_none_iff_exists'.1 hv
    rw [if_neg hva, above_eq hi hp]
    dsimp only
    by_cases hpv : p = v
    · -- only the root is above itself, and nothing else is on the way up from it
      subst hpv
      rw [if_pos rfl]
      have hroot : p = root := by
        by_contra hne
        exact Nat.lt_irrefl _ (ht.height_lt p p hne hp)
      refine ⟨false, rfl, iff_of_false Bool.false_ne_true fun hway => hva ?_⟩
      rw [hroot] at hway ⊢
      exact (ht.eq_root_of_onWay hway).symm
    · have hvr : v ≠ root := by
        intro heq
        subst heq
        rw [ht.root_up] at hp
        exact hpv (Option.some.inj hp).symm
      have hlt := ht.height_lt v p hvr hp
      obtain ⟨r, hr, hiff⟩ := ih p (ht.closed v p hp) (by omega)
      refine ⟨r, by rw [if_neg hpv, hr], ?_⟩
      rw [hiff, OnWay.iff_of_up hp]
      exact (or_iff_right fun h => hva h.symm).symm

/-- A vertex outside the tree dominates nothing and is dominated by nothing; in the tree the query
follows the way up. -/
theorem dominates_eq (hi : Table idoms n up) (ht : Rooted up height root)
    (hlow : ∀ v, up v ≠ none → height v < n) (ha0 : 0 ≤ a) (han : a < n) (hb0 : 0 ≤ b)
    (hbn : b < n) :
    ∃ r, dominates idoms a b = .ok r ∧ (r = true ↔ up a ≠ none ∧ up b ≠ none ∧ OnWay up b a) := by
  unfold dominates
  rw [hi.read_eq a ha0 han, hi.read_eq b hb0 hbn]
  cases hup : up a with
  | none => exact ⟨false, rfl, by simp⟩
  | some p =>
    cases hvp : up b with
    | none => exact ⟨false, rfl, by simp⟩
    | some q =>
      have hb : up b ≠ none := ne_none_of_up hvp
      have hfuel : height b < idoms.size + 2 := by
        have := hlow b hb
        rw [hi.size_eq]
        omega
      obtain ⟨r, hr, hiff⟩ := onWayUp_eq (a := a) ht hi.tabulates _ b hb hfuel
      exact ⟨r, hr, by simp [hiff]⟩

/-- On every consistent graph for which the table can be made, and for every table that the call
answers, the query ends and says whether both vertices are reached and the first lies on every path
to the second. -/
theorem dominates_iff_on_every_path (g : Network) (n : Nat) (start : Int) (hg : g.Consistent n)
    (h0 : 0 ≤ start) (hn : start < n) :
    (n < Length.room → ∃ idoms, (g.immediateDominators start).result = .ok idoms) ∧
    ∀ idoms, (g.immediateDominators start).result = .ok idoms →
      ∀ a b : Int, 0 ≤ a → a < n → 0 ≤ b → b < n →
        ∃ r, dominates idoms a b = .ok r ∧
          (r = true ↔ Reaches g.successors start a ∧ Reaches g.successors start b ∧
            ∀ vs, Path g.successors start b vs → a ∈ vs) := by
  unfold Network.immediateDominators
  by_cases hroom : n < Length.room
  · obtain ⟨table, up, passes, hsolve, htable, htree⟩ := exists_dominatorTree hg hroom h0 hn
    obtain ⟨height, ht, hlow⟩ := htree.exists_rooted
    rw [hsolve]
    refine ⟨fun _ => ⟨table, rfl⟩, fun idoms hidoms a b ha0 han hb0 hbn => ?_⟩
    obtain rfl : table = idoms := Except.ok.inj hidoms
    obtain ⟨r, hr, hiff⟩ := dominates_eq htable ht hlow ha0 han hb0 hbn
    refine ⟨r, hr, ?_⟩
    rw [hiff, htree.ne_none_iff, htree.ne_none_iff]
    refine and_congr_right fun _ => and_congr_right fun hb => ?_
    exact htree.onWay_iff b ((htree.ne_none_iff b).2 hb) a
  · obtain ⟨e, he⟩ := exists_solve_eq_error g start (by rw [hg.vertexCount_eq]; omega)
    rw [he]
    refine ⟨fun h => absurd h hroom, fun idoms hidoms => ?_⟩
    cases hidoms

/-- The edges fork at 1 and meet again in 4: vertex 1 dominates 4, the vertex 2 on one side does
not. -/
theorem dominates_iff_on_every_path_diamond :
    let g := Network.ofMultigraph
      ((((((Multigraph.ofCount 5).push 0 1).push 1 2).push 1 3).push 2 4).push 3 4)
    ∃ idoms, (g.immediateDominators 0).result = .ok idoms ∧
      dominates idoms 1 4 = .ok true ∧ (∀ vs, Path g.successors 0 4 vs → (1 : Int) ∈ vs) ∧
      dominates idoms 2 4 = .ok false := by
  intro g
  have hg : g.Consistent 5 := Network.consistent_ofMultigraph _
  have hidoms : (g.immediateDominators 0).result =
      .ok #[some 0, some 0, some 1, some 1, some 1] := by decide +kernel
  obtain ⟨_, hquery⟩ := dominates_iff_on_every_path g 5 0 hg (by decide) (by decide)
  obtain ⟨r, hr, hiff⟩ := hquery _ hidoms 1 4 (by decide) (by decide) (by decide) (by decide)
  have hyes : dominates #[some 0, some 0, some 1, some 1, some 1] 1 4 = .ok true := by
    decide +kernel
  obtain rfl : r = true := Except.ok.inj (hr.symm.trans hyes)
  exact ⟨_, hidoms, hyes, (hiff.1 rfl).2.2, by decide +kernel⟩

end IndexGraph.Dominator
