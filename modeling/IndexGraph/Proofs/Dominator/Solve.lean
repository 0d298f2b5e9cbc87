import IndexGraph.Proofs.Dominator.Passes
import IndexGraph.Proofs.PostOrder

/-
  `Dominator.solve` put together from its parts, on a graph that is confined to its vertices but
  whose predecessors need not mirror its successors: the post-order walk, the numbers, and the
  passes. `solve_eq`: the vertices that the start reaches are visited in the reverse of their
  post-order; the call is refused at the first of them that has no predecessor before it, and
  if there is none, it answers a tree in which each vertex is right below the meet of its
  predecessors. `solve_eq_error`: no answer on a graph that is too large for a table.
-/

namespace IndexGraph.Dominator

open Function (update)

/-- Enumerating gives each vertex its place in the list. -/
theorem enumerate_eq (order : List Int) :
    ∀ (number : Array Int) (k : Nat), order.Nodup →
      (∀ v ∈ order, 0 ≤ v ∧ v < number.size) →
      ∃ number', enumerate number k order = .ok number' ∧ number'.size = number.size ∧
        (∀ pre v post, order = pre ++ v :: post →
          Position.read number' v = .ok ((k : Int) + pre.length)) ∧
        ∀ w : Int, 0 ≤ w → w < number.size → w ∉ order →
          Position.read number' w = Position.read number w := by
  induction order with
  | nil =>
    intro number k _ _
    refine ⟨number, rfl, rfl, fun pre v post h => ?_, fun _ _ _ _ => rfl⟩
    exact absurd h.symm (by simp)
  | cons u order ih =>
    intro number k hnodup hrange
    obtain ⟨hu, hnodup⟩ := List.nodup_cons.1 hnodup
    obtain ⟨h0, hn⟩ := hrange u List.mem_cons_self
    obtain ⟨number₁, hwrite, hsize₁, hread₁⟩ := Position.exists_write h0 hn (k : Int)
    obtain ⟨number', hnumber, hsize, hplace, hother⟩ := ih number₁ (k + 1) hnodup fun v hv => by
      rw [hsize₁]
      exact hrange v (List.mem_cons_of_mem u hv)
    have hread : Position.read number' u = .ok (k : Int) := by
      rw [hother u h0 (by omega) hu, hread₁ u h0 hn, if_pos rfl]
    refine ⟨number', ?_, hsize.trans hsize₁, fun pre v post h => ?_, fun w hw0 hw hmem => ?_⟩
    · rw [enumerate, hwrite]
      exact hnumber
    · cases pre with
      | nil =>
        injection h with h _
        subst h
        simpa using hread
      | cons a pre =>
        injection h with _ h
        rw [hplace pre v post h, List.length_cons]
        congr 1
        omega
    · have hwu : w ≠ u := fun h => hmem (h ▸ List.mem_cons_self)
      have hw' : w ∉ order := fun h => hmem (List.mem_cons_of_mem u h)
      rw [hother w hw0 (by omega) hw', hread₁ w hw0 hw, if_neg hwu]

/-- What the start reaches, and the predecessors of it, are vertices of the graph. -/
structure Confined (g : Network) (start : Int) (n : Nat) : Prop where
  vertexCount_eq : g.vertexCount = n
  start_in_range : 0 ≤ start ∧ start < n
  reaches_in_range : ∀ v, Reaches g.successors start v → 0 ≤ v ∧ v < n
  predecessors_in_range : ∀ v, Reaches g.successors start v → v ≠ start →
    ∀ p ∈ g.predecessors v, 0 ≤ p ∧ p < n

variable {g : Network} {start : Int} {n : Nat} {keep : (Int → Option Int) → Prop}
  {vs : List Int}

/-- The numbers that are given in post-order fall in the order of the visits. -/
theorem Confined.exists_setting (hg : Confined g start n) {found : Finset Int}
    (horder : Explores g.successors ∅ [start] found (start :: vs).reverse) :
    ∃ number, enumerate (Array.replicate n 0) 0 (start :: vs).reverse = .ok number ∧
      Setting g start vs number n := by
  have hmem : ∀ v, v ∈ start :: vs ↔ Reaches g.successors start v := fun v =>
    List.mem_reverse.symm.trans horder.mem_out_iff
  have hrange : ∀ v ∈ start :: vs, 0 ≤ v ∧ v < n := fun v hv =>
    hg.reaches_in_range v ((hmem v).1 hv)
  have hnodup : (start :: vs).Nodup := List.nodup_reverse.1 horder.nodup
  obtain ⟨number, hnumber, _, hplace, _⟩ :=
    enumerate_eq (start :: vs).reverse (Array.replicate n 0) 0 horder.nodup fun v hv => by
      rw [Array.size_replicate]
      exact hrange v (List.mem_reverse.1 hv)
  refine ⟨number, hnumber, hnodup, hrange, fun v hv => ?_, fun v hv => ?_⟩
  · apply hg.predecessors_in_range v ((hmem v).1 (List.mem_cons_of_mem _ hv))
    intro heq
    subst heq
    exact (List.nodup_cons.1 hnodup).1 hv
  · -- what comes before `v` in post-order comes after it in the order of the visits
    obtain ⟨before, after, hsplit⟩ := List.append_of_mem hv
    have hrev : (start :: vs).reverse = after.reverse ++ v :: before.reverse := by
      rw [hsplit]
      simp
    rw [hplace after.reverse v before.reverse hrev, depth_eq hnodup hsplit, List.length_reverse]
    have hlength := congrArg List.length hsplit
    rw [List.length_cons, List.length_append, List.length_cons] at hlength
    congr 1
    omega

/-- The start alone is in the tree before the first pass. -/
theorem Confined.exists_stage (hg : Confined g start n) (vs : List Int)
    (hroot : keep (update (fun _ => none) start (some start))) :
    ∃ idoms, Position.write (Array.replicate n none) start (some start) = .ok idoms ∧
      Stage g start vs n keep idoms (update (fun _ => none) start (some start)) 1 [start] := by
  have htable : Table (Array.replicate n none) n fun _ => none :=
    ⟨Position.reads_replicate n none, fun v hv => absurd rfl hv⟩
  obtain ⟨h0, hn⟩ := hg.start_in_range
  obtain ⟨idoms, hwrite, hidoms⟩ := htable.write h0 hn start
  refine ⟨idoms, hwrite, hidoms, steady_root _ _ _ _, fun v => ?_, hroot⟩
  by_cases hv : v = start
  · subst hv
    simp
  · simp [hv]

/-- The bound on the passes exceeds the weight of any tree on the vertices below the start. -/
theorem triangle_add_one_lt_passBound {k : Nat} (h : k < n) :
    triangle k + 1 < passBound n (k + 1) := by
  have hle : 2 * n + 1 ≤ (2 * n + 1) ^ (k + 1) := Nat.le_self_pow (Nat.succ_ne_zero k) _
  have hstep : passBound n (k + 1) = (2 * n + 1) ^ (k + 1) + 1 := rfl
  have hsmall := triangle_le k
  rcases Nat.eq_zero_or_pos k with rfl | hk
  · omega
  · have hsq : (2 * n + 1) ^ 2 ≤ (2 * n + 1) ^ (k + 1) :=
      Nat.pow_le_pow_right (by omega) (by omega)
    have hlt : k * k < (2 * n + 1) * (2 * n + 1) := Nat.mul_self_lt_mul_self (by omega)
    rw [Nat.pow_two] at hsq
    omega

/-- What `solve` makes before the passes: the vertices `vs` to be visited, in the reverse of their
post-order and without the start, their numbers, and the tree of the start alone. -/
structure Prepared (g : Network) (start : Int) (n : Nat) (vs : List Int) (number : Array Int)
    (idoms : Idoms) : Prop where
  postOrder_eq : g.postOrder start = .ok (start :: vs).reverse
  enumerate_eq : enumerate (Array.replicate n 0) 0 (start :: vs).reverse = .ok number
  write_eq : Position.write (Array.replicate n none) start (some start) = .ok idoms

/-- After that `solve` repeats passes. -/
theorem Prepared.solve_eq_settle {number : Array Int} {idoms : Idoms}
    (h : Prepared g start n vs number idoms) (hg : Confined g start n)
    (hroom : n < Length.room) :
    solve g start = settle g number start vs (passBound n (vs.length + 1)) 0 idoms := by
  obtain ⟨h0, hn⟩ := hg.start_in_range
  have hguard : ¬ (start < 0 ∨ g.vertexCount ≤ start) := by
    rw [hg.vertexCount_eq]
    omega
  have hlast : (start :: vs).reverse.getLast? = some start := by simp
  have hvs : (start :: vs).reverse.dropLast.reverse = vs := by simp
  unfold solve
  rw [if_neg hguard]
  simp only [bind, Except.bind, h.postOrder_eq, hlast, ne_eq, not_true_eq_false, if_false,
    Length.fresh_natCast hroom, h.enumerate_eq, h.write_eq, hvs, List.length_reverse,
    List.length_cons, hg.vertexCount_eq, Int.toNat_natCast]

theorem Confined.exists_prepared (hg : Confined g start n) (hroom : n < Length.room)
    (hroot : keep (update (fun _ => none) start (some start))) :
    ∃ vs number idoms found, Explores g.successors ∅ [start] found (start :: vs).reverse ∧
      Prepared g start n vs number idoms ∧ Setting g start vs number n ∧
      Stage g start vs n keep idoms (update (fun _ => none) start (some start)) 1 [start] := by
  obtain ⟨found, order, horder, hpost⟩ := g.postOrder_eq fun v hv =>
    markable_of_lt hroom (hg.reaches_in_range v hv).1 (hg.reaches_in_range v hv).2
  -- the order of the visits is what comes before the start in post-order, backwards
  obtain ⟨vs, rfl⟩ : ∃ vs : List Int, order = (start :: vs).reverse := by
    obtain ⟨init, rfl⟩ := List.getLast?_eq_some_iff.1 horder.getLast?_eq
    exact ⟨init.reverse, by simp⟩
  obtain ⟨number, hnumber, hs⟩ := hg.exists_setting horder
  obtain ⟨idoms, hwrite, hstage⟩ := hg.exists_stage vs hroot
  exact ⟨vs, number, idoms, found, horder, ⟨hpost, hnumber, hwrite⟩, hs, hstage⟩

theorem solve_eq (hg : Confined g start n) (hroom : n < Length.room)
    (hkeep : ∀ vs, (∀ v, v ∈ start :: vs ↔ Reaches g.successors start v) → Kept g start vs keep)
    (hroot : keep (update (fun _ => none) start (some start))) :
    ∃ vs found, Explores g.successors ∅ [start] found (start :: vs).reverse ∧ vs.length < n ∧
      ((∃ before v after, vs = before ++ v :: after ∧ (∀ u ∈ before, Preceded g start vs u) ∧
          ¬ Preceded g start vs v ∧ solve g start = .error (.noPredecessor v start)) ∨
        (∀ u ∈ vs, Preceded g start vs u) ∧ ∃ idoms up passes,
          solve g start = .ok (idoms, passes) ∧
          Stage g start vs n keep idoms up (start :: vs).length (start :: vs) ∧
          Settled g vs up) := by
  obtain ⟨vs, number, idoms, found, horder, hprepared, hs, hstage⟩ :=
    hg.exists_prepared hroom hroot
  have hmem : ∀ v, v ∈ start :: vs ↔ Reaches g.successors start v := fun v =>
    List.mem_reverse.symm.trans horder.mem_out_iff
  refine ⟨vs, found, horder, hs.length_lt, ?_⟩
  rw [hprepared.solve_eq_settle hg hroom]
  exact settle_eq hs (hkeep vs hmem) (triangle_add_one_lt_passBound hs.length_lt) hstage

/-- No answer where there is no room for a table of all vertices. -/
theorem exists_solve_eq_error (g : Network) (start : Int) (h : Length.room ≤ g.vertexCount) :
    ∃ e, solve g start = .error e := by
  have hfresh : ∀ {α : Type} (fill : α), ∃ e, Length.fresh g.vertexCount fill = .error e := by
    intro α fill
    have hnot : ¬ Length.Allowed g.vertexCount := by
      unfold Length.Allowed
      omega
    exact ⟨_, if_neg hnot⟩
  unfold solve
  split
  · exact ⟨_, rfl⟩
  · cases hpost : g.postOrder start with
    | error e => exact ⟨e, rfl⟩
    | ok order =>
      by_cases hlast : order.getLast? = some start
      · obtain ⟨e, he⟩ := hfresh (0 : Int)
        refine ⟨e, ?_⟩
        simp only [bind, Except.bind, hlast, ne_eq, not_true_eq_false, if_false, he]
      · refine ⟨.startNotLast, ?_⟩
        simp only [bind, Except.bind, ne_eq, hlast, not_false_eq_true, if_true]

/-- On a confined graph it is the room for a sequence that is wanting. -/
theorem Confined.exists_solve_eq_refusal (hg : Confined g start n) (hroom : ¬ n < Length.room) :
    ∃ k, solve g start = .error (Length.refusal k) := by
  obtain ⟨h0, hn⟩ := hg.start_in_range
  have hguard : ¬ (start < 0 ∨ g.vertexCount ≤ start) := by
    rw [hg.vertexCount_eq]
    omega
  obtain ⟨found, order, horder⟩ := exists_explores_from (g.finite_reaches start)
  unfold solve
  rw [if_neg hguard]
  rcases g.postOrder_answered (fun v hv => (hg.reaches_in_range v hv).1) horder with
    hok | ⟨_, k, herror⟩
  · refine ⟨n, ?_⟩
    have hfresh : Length.fresh (n : Int) (0 : Int) = .error (Length.refusal n) :=
      if_neg (mt Length.allowed_natCast.1 hroom)
    simp only [bind, Except.bind, hok, horder.getLast?_eq, ne_eq, not_true_eq_false, if_false,
      hg.vertexCount_eq, hfresh]
  · refine ⟨k, ?_⟩
    simp only [bind, Except.bind, herror]

end IndexGraph.Dominator
