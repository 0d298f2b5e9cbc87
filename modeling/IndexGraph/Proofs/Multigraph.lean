import IndexGraph.Multigraph
import Mathlib.Data.List.Basic

/-
  Which edges a multigraph has after edges were added, and its transpose. A chain names edges by
  their numbers with their ends (`target_eq_of_mem_arcsFrom`); the edges listed by `edges` are
  those that the vertices list, so adding each of them the other way round to an empty graph
  mirrors the graph (`mem_successors_transpose`).
-/

namespace IndexGraph.Multigraph

variable {g : Multigraph} {s t v c e : Nat}

theorem target_eq_of_mem_chain {link : Option Nat} (h : (c, e) ∈ g.chain link) :
    g.target[e]? = some c := by
  induction link using chain.induct g with
  | case1 =>
    rw [chain] at h
    cases h
  | case2 d hd ih =>
    rw [chain, dif_pos hd] at h
    rcases List.mem_cons.1 h with heq | h
    · cases heq
      exact Array.getElem?_eq_getElem hd
    · exact ih h
  | case3 d hd =>
    rw [chain, dif_neg hd] at h
    cases h

theorem target_eq_of_mem_arcsFrom {v : Int} (h : (c, e) ∈ g.arcsFrom v) :
    g.target[e]? = some c := by
  unfold arcsFrom at h
  split at h
  · cases h
  · exact target_eq_of_mem_chain h

theorem mem_successors {v : Int} : c ∈ g.successors v ↔ ∃ e, (c, e) ∈ g.arcsFrom v := by
  rw [successors, List.mem_map]
  constructor
  · intro hex
    obtain ⟨⟨c', e⟩, hmem, rfl⟩ := hex
    exact ⟨e, hmem⟩
  · intro hex
    obtain ⟨e, hmem⟩ := hex
    exact ⟨(c, e), hmem, rfl⟩

/-- Edges end at vertices of the graph. -/
theorem lt_of_mem_successors {v : Int} (h : c ∈ g.successors v) : c < g.vertexCount := by
  obtain ⟨e, he⟩ := mem_successors.1 h
  exact g.target_lt e c (target_eq_of_mem_arcsFrom he)

/-- Edges begin at vertices of the graph. -/
theorem source_lt_of_mem_successors (h : c ∈ g.successors v) : v < g.vertexCount := by
  by_contra hv
  rw [successors, g.arcsFrom_eq_nil (.inr (by omega))] at h
  cases h

theorem successors_push (g : Multigraph) (s t : Nat) (v : Int) :
    (g.push s t).successors v = if v = s then t :: g.successors v else g.successors v := by
  rw [successors, arcsFrom_push]
  split <;> rfl

theorem arcsFrom_ofCount (n : Nat) (v : Int) : (ofCount n).arcsFrom v = [] := by
  refine List.eq_nil_iff_forall_not_mem.2 fun ⟨c, e⟩ he => ?_
  have htarget := target_eq_of_mem_arcsFrom he
  simp [ofCount] at htarget

theorem successors_ofCount (n : Nat) (v : Int) : (ofCount n).successors v = [] := by
  rw [successors, arcsFrom_ofCount]
  rfl

/-- Every edge is listed, with its source first. -/
theorem mem_edges : (v, c) ∈ g.edges ↔ c ∈ g.successors v := by
  rw [edges, List.mem_flatMap]
  constructor
  · intro hex
    obtain ⟨u, _, hmem⟩ := hex
    obtain ⟨c', hc', heq⟩ := List.mem_map.1 hmem
    cases heq
    exact hc'
  · intro h
    exact ⟨v, List.mem_range.2 (source_lt_of_mem_successors h), List.mem_map.2 ⟨c, h, rfl⟩⟩

/-- Adding edges the other way round. -/
theorem mem_successors_foldl_push (es : List (Nat × Nat)) : ∀ h : Multigraph,
    c ∈ (es.foldl (fun h e => h.push e.2 e.1) h).successors v ↔
      c ∈ h.successors v ∨ (c, v) ∈ es := by
  induction es with
  | nil => simp
  | cons e es ih =>
    intro h
    obtain ⟨a, b⟩ := e
    rw [List.foldl_cons, ih, successors_push, List.mem_cons]
    by_cases hv : (v : Int) = b
    · rw [if_pos hv, List.mem_cons]
      have hvb : v = b := by omega
      simp only [hvb, Prod.mk.injEq, and_true]
      tauto
    · rw [if_neg hv]
      have hvb : v ≠ b := by omega
      simp [hvb]

/-- The transpose has an edge from `v` to `c` where the graph has one from `c` to `v`. -/
theorem mem_successors_transpose : c ∈ g.transpose.successors v ↔ v ∈ g.successors c := by
  rw [transpose, mem_successors_foldl_push, successors_ofCount, mem_edges]
  simp

/-! ## Lists of edges -/

/-- An edge is only refused before anything is changed. -/
theorem insert_of_ok {a b : Int} {k : Nat} (h : (g.insert a b).result = .ok k) :
    0 ≤ a ∧ 0 ≤ b ∧ (g.insert a b).state = g.push a.toNat b.toNat := by
  unfold insert at h ⊢
  split at h
  · cases h
  · rename_i hneg
    rw [if_neg hneg]
    split at h
    · rename_i hext
      rw [if_pos hext]
      exact ⟨by omega, by omega, rfl⟩
    · cases h

/-- The new edge is listed by its source, with the next number. -/
theorem mem_arcsFrom_push (g : Multigraph) (s t : Nat) {v : Int} :
    (c, e) ∈ (g.push s t).arcsFrom v ↔
      (c, e) ∈ g.arcsFrom v ∨ e = g.edgeCount ∧ v = s ∧ c = t := by
  rw [arcsFrom_push]
  split
  · rename_i hv
    rw [List.mem_cons, Prod.mk.injEq, or_comm]
    simp only [hv, true_and, and_comm]
  · rename_i hv
    simp only [hv, false_and, and_false, or_false]

/-- In a list that is numbered from `k` the first entry has the number `k`. -/
theorem getElem?_cons_from {β : Type} {x y : β} {rows : List β} {k : Nat} :
    (k ≤ e ∧ (y :: rows)[e - k]? = some x) ↔
      e = k ∧ y = x ∨ k + 1 ≤ e ∧ rows[e - (k + 1)]? = some x := by
  rcases Nat.lt_trichotomy e k with hlt | rfl | hgt
  · have h1 : ¬ k ≤ e := by omega
    have h2 : ¬ k + 1 ≤ e := by omega
    have h3 : e ≠ k := by omega
    simp [h1, h2, h3]
  · have h2 : ¬ e + 1 ≤ e := by omega
    simp [h2]
  · have hsub : e - k = e - (k + 1) + 1 := by omega
    have h1 : k ≤ e := by omega
    have h2 : k + 1 ≤ e := hgt
    have h3 : e ≠ k := by omega
    rw [hsub, List.getElem?_cons_succ]
    simp [h1, h2, h3]

/-- The rows of a list that was not refused are numbered from the number of edges there were. -/
theorem insertAll_of_ok (rows : List (Option (Int × Int))) :
    ∀ g : Multigraph, (g.insertAll rows).result = .ok () →
      (g.insertAll rows).state.edgeCount = g.edgeCount + rows.length ∧
        (∀ a b, some (a, b) ∈ rows → 0 ≤ a ∧ 0 ≤ b) ∧
        ∀ (v : Int) (c e : Nat), (c, e) ∈ (g.insertAll rows).state.arcsFrom v ↔
          (c, e) ∈ g.arcsFrom v ∨
            g.edgeCount ≤ e ∧ rows[e - g.edgeCount]? = some (some (v, (c : Int))) := by
  induction rows with
  | nil =>
    intro g _
    refine ⟨rfl, fun a b hmem => absurd hmem List.not_mem_nil, fun v c e => ?_⟩
    simp [insertAll, Reply.done]
  | cons row rows ih =>
    intro g h
    cases row with
    | none => cases h
    | some ends =>
      obtain ⟨a, b⟩ := ends
      rw [insertAll, Reply.result_andThen] at h
      rw [insertAll, Reply.state_andThen]
      cases hinsert : (g.insert a b).result with
      | error e =>
        rw [hinsert] at h
        cases h
      | ok k =>
        obtain ⟨ha, hb, hstate⟩ := insert_of_ok hinsert
        rw [hinsert, hstate] at h
        rw [hstate]
        obtain ⟨hcount, hsigns, harcs⟩ := ih _ h
        rw [edgeCount_push] at hcount
        refine ⟨hcount.trans (by rw [List.length_cons]; omega), fun a' b' hmem => ?_,
          fun v c e => (harcs v c e).trans ?_⟩
        · rcases List.mem_cons.1 hmem with heq | hmem
          · cases heq
            exact ⟨ha, hb⟩
          · exact hsigns a' b' hmem
        · have hends : (some (a, b) : Option (Int × Int)) = some (v, (c : Int)) ↔
              v = a.toNat ∧ c = b.toNat := by
            rw [Option.some.injEq, Prod.mk.injEq]
            omega
          rw [mem_arcsFrom_push, edgeCount_push, getElem?_cons_from, hends, or_assoc]

theorem edgeCount_ofEdges {edges : List (Int × Int)} (h : (ofEdges edges).result = .ok ()) :
    (ofEdges edges).state.edgeCount = edges.length := by
  obtain ⟨hcount, _, _⟩ := insertAll_of_ok _ _ h
  rw [ofEdges, hcount, List.length_map]
  exact Nat.zero_add _

/-- The edges of the graph are those of the list, by their numbers. -/
theorem mem_arcsFrom_ofEdges {edges : List (Int × Int)} (h : (ofEdges edges).result = .ok ())
    {u : Int} : (c, e) ∈ (ofEdges edges).state.arcsFrom u ↔ edges[e]? = some (u, (c : Int)) := by
  obtain ⟨_, _, harcs⟩ := insertAll_of_ok _ _ h
  have hzero : (ofCount 0).edgeCount = 0 := rfl
  rw [ofEdges, harcs, arcsFrom_ofCount, hzero, Nat.sub_zero, List.getElem?_map]
  simp

theorem nonneg_of_mem_ofEdges {edges : List (Int × Int)} (h : (ofEdges edges).result = .ok ())
    {u x : Int} (hmem : (u, x) ∈ edges) : 0 ≤ u ∧ 0 ≤ x := by
  obtain ⟨_, hsigns, _⟩ := insertAll_of_ok _ _ h
  exact hsigns u x (List.mem_map.2 ⟨(u, x), hmem, rfl⟩)

end IndexGraph.Multigraph
