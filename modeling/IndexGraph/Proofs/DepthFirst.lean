import IndexGraph.Proofs.Span
import Mathlib.Data.Finset.Card
import Mathlib.Data.Finset.Lattice.Basic
import Mathlib.Data.List.Nodup

/-
  The recursive depth-first search. `Explores succ found todo found' out`: with the vertices of
  `found` marked, trying the vertices of `todo` in turn marks those of `found'` and reports
  `out`. A vertex is marked on entry and reported on exit, and its successors are tried from
  the last one listed to the first.
  What is reported is what was newly marked, each vertex once (`found_eq`, `nodup`); nothing
  reachable is left out (`mem_out_of_reaches`); a vertex that was not asked for is reported
  before one of its predecessors (`exists_parent`). There is one search at most (`unique`), and
  it ends in every finite region that no edge leaves (`exists_explores`).
-/

namespace IndexGraph

/-- Depth-first search by recursion, with the vertices reported on exit. -/
inductive Explores (succ : Int → List Int) :
    Finset Int → List Int → Finset Int → List Int → Prop
  | nil (found : Finset Int) : Explores succ found [] found []
  | skip {found found' : Finset Int} {v : Int} {todo out : List Int} (hv : v ∈ found)
      (h : Explores succ found todo found' out) : Explores succ found (v :: todo) found' out
  | enter {found within found' : Finset Int} {v : Int} {todo inner outer : List Int}
      (hv : v ∉ found)
      (hin : Explores succ (insert v found) (succ v).reverse within inner)
      (hout : Explores succ within todo found' outer) :
      Explores succ found (v :: todo) found' (inner ++ v :: outer)

namespace Explores

variable {succ : Int → List Int} {found found' : Finset Int} {todo out : List Int}

theorem found_eq (h : Explores succ found todo found' out) : found' = found ∪ out.toFinset := by
  induction h with
  | nil => simp
  | skip _ _ ih => exact ih
  | enter _ _ _ ihin ihout =>
    rw [ihout, ihin, List.toFinset_append, List.toFinset_cons, Finset.union_insert,
      Finset.union_insert, Finset.insert_union, Finset.insert_union, Finset.union_assoc]

theorem mem_found_iff (h : Explores succ found todo found' out) {v : Int} :
    v ∈ found' ↔ v ∈ found ∨ v ∈ out := by
  rw [h.found_eq, Finset.mem_union, List.mem_toFinset]

theorem found_subset (h : Explores succ found todo found' out) : found ⊆ found' :=
  fun _ hv => h.mem_found_iff.2 (.inl hv)

/-- Only vertices that were not marked before are reported. -/
theorem not_mem_found (h : Explores succ found todo found' out) : ∀ v ∈ out, v ∉ found := by
  induction h with
  | nil => simp
  | skip _ _ ih => exact ih
  | enter hv hin hout ihin ihout =>
    intro x hx hxf
    rcases List.mem_append.1 hx with hx | hx
    · exact ihin x hx (Finset.mem_insert_of_mem hxf)
    · rcases List.mem_cons.1 hx with rfl | hx
      · exact hv hxf
      · exact ihout x hx (hin.found_subset (Finset.mem_insert_of_mem hxf))

/-- No vertex is reported twice. -/
theorem nodup (h : Explores succ found todo found' out) : out.Nodup := by
  induction h with
  | nil => exact List.nodup_nil
  | skip _ _ ih => exact ih
  | @enter found within found' v todo inner outer hv hin hout ihin ihout =>
    have hvin : v ∉ inner := fun hx => hin.not_mem_found v hx (Finset.mem_insert_self v found)
    have hvout : v ∉ outer := fun hx =>
      hout.not_mem_found v hx (hin.found_subset (Finset.mem_insert_self v found))
    refine List.Nodup.append ihin (List.nodup_cons.2 ⟨hvout, ihout⟩) ?_
    intro x hx hx'
    rcases List.mem_cons.1 hx' with rfl | hx'
    · exact hvin hx
    · exact hout.not_mem_found x hx' (hin.mem_found_iff.2 (.inr hx))

/-- The search is determined by the graph, the marks and the vertices that are asked for. -/
theorem unique (h : Explores succ found todo found' out) {found'' : Finset Int} {out' : List Int}
    (h' : Explores succ found todo found'' out') : found'' = found' ∧ out' = out := by
  induction h generalizing found'' out' with
  | nil =>
    cases h'
    exact ⟨rfl, rfl⟩
  | skip hv _ ih =>
    cases h' with
    | skip _ h' => exact ih h'
    | enter hv' _ _ => exact absurd hv hv'
  | enter hv _ _ ihin ihout =>
    cases h' with
    | skip hv' _ => exact absurd hv' hv
    | enter _ hin' hout' =>
      obtain ⟨rfl, rfl⟩ := ihin hin'
      obtain ⟨rfl, rfl⟩ := ihout hout'
      exact ⟨rfl, rfl⟩

/-- Every vertex that was asked for is marked in the end. -/
theorem todo_subset (h : Explores succ found todo found' out) : ∀ v ∈ todo, v ∈ found' := by
  induction h with
  | nil => simp
  | skip hv h ih =>
    intro x hx
    rcases List.mem_cons.1 hx with rfl | hx
    · exact h.found_subset hv
    · exact ih x hx
  | @enter found _ _ v _ _ _ _ hin hout _ ihout =>
    intro x hx
    rcases List.mem_cons.1 hx with rfl | hx
    · exact hout.found_subset (hin.found_subset (Finset.mem_insert_self x found))
    · exact ihout x hx

/-- The successors of what is reported are marked in the end. -/
theorem closed (h : Explores succ found todo found' out) :
    ∀ u ∈ out, ∀ v ∈ succ u, v ∈ found' := by
  induction h with
  | nil => simp
  | skip _ _ ih => exact ih
  | enter _ hin hout ihin ihout =>
    intro u hu v hv
    rcases List.mem_append.1 hu with hu | hu
    · exact hout.found_subset (ihin u hu v hv)
    · rcases List.mem_cons.1 hu with rfl | hu
      · exact hout.found_subset (hin.todo_subset v (List.mem_reverse.2 hv))
      · exact ihout u hu v hv

/-- What is reported is reached from a vertex that was asked for. -/
theorem exists_reaches (h : Explores succ found todo found' out) :
    ∀ v ∈ out, ∃ u ∈ todo, Reaches succ u v := by
  induction h with
  | nil => simp
  | skip _ _ ih =>
    intro x hx
    obtain ⟨u, hu, hr⟩ := ih x hx
    exact ⟨u, List.mem_cons_of_mem _ hu, hr⟩
  | @enter _ _ _ v _ _ _ _ _ _ ihin ihout =>
    intro x hx
    rcases List.mem_append.1 hx with hx | hx
    · obtain ⟨u, hu, hr⟩ := ihin x hx
      exact ⟨v, List.mem_cons_self, hr.head (List.mem_reverse.1 hu)⟩
    · rcases List.mem_cons.1 hx with rfl | hx
      · exact ⟨x, List.mem_cons_self, Reaches.refl succ x⟩
      · obtain ⟨u, hu, hr⟩ := ihout x hx
        exact ⟨u, List.mem_cons_of_mem _ hu, hr⟩

/-- A search that starts with nothing marked reports all that its vertices reach. -/
theorem mem_out_of_reaches (h : Explores succ ∅ todo found' out) {u v : Int} (hu : u ∈ todo)
    (hr : Reaches succ u v) : v ∈ out := by
  have hout : ∀ x, x ∈ found' → x ∈ out := fun x hx => by
    simpa using h.mem_found_iff.1 hx
  induction hr with
  | refl => exact hout u (h.todo_subset u hu)
  | tail _ he ih => exact hout _ (h.closed _ ih _ he)

/-- A search from one vertex reports what that vertex reaches. -/
theorem mem_out_iff {s v : Int} (h : Explores succ ∅ [s] found' out) :
    v ∈ out ↔ Reaches succ s v := by
  constructor
  · intro hv
    obtain ⟨u, hu, hr⟩ := h.exists_reaches v hv
    rwa [List.mem_singleton.1 hu] at hr
  · exact h.mem_out_of_reaches (List.mem_singleton_self s)

/-- A vertex that was not asked for is reported before one of its predecessors. -/
theorem exists_parent (h : Explores succ found todo found' out) :
    ∀ v ∈ out, v ∈ todo ∨ ∃ u, v ∈ succ u ∧ [v, u].Sublist out := by
  induction h with
  | nil => simp
  | skip _ _ ih => exact fun x hx => (ih x hx).imp_left (List.mem_cons_of_mem _)
  | @enter _ _ _ v _ inner outer _ _ _ ihin ihout =>
    intro x hx
    rcases List.mem_append.1 hx with hx | hx
    · rcases ihin x hx with hx' | ⟨u, hu, hs⟩
      · refine .inr ⟨v, List.mem_reverse.1 hx', ?_⟩
        exact (List.singleton_sublist.2 hx).append
          (List.singleton_sublist.2 List.mem_cons_self)
      · exact .inr ⟨u, hu, hs.trans (List.sublist_append_left _ _)⟩
    · rcases List.mem_cons.1 hx with rfl | hx
      · exact .inl List.mem_cons_self
      · rcases ihout x hx with hx' | ⟨u, hu, hs⟩
        · exact .inl (List.mem_cons_of_mem _ hx')
        · refine .inr ⟨u, hu, hs.trans ?_⟩
          exact (List.sublist_cons_self v outer).trans (List.sublist_append_right inner _)

/-- The end of an edge was marked before the search, or is reported before the source, or leads
back to it. -/
theorem edge_cases (h : Explores succ found todo found' out) :
    ∀ u ∈ out, ∀ v ∈ succ u, v ∈ found ∨ [v, u].Sublist out ∨ Reaches succ v u := by
  induction h with
  | nil => simp
  | skip _ _ ih => exact ih
  | @enter found within found' w todo inner outer hw hin hout ihin ihout =>
    have hpair : ∀ {v u}, v ∈ inner → u ∈ w :: outer → [v, u].Sublist (inner ++ w :: outer) :=
      fun hv hu => (List.singleton_sublist.2 hv).append (List.singleton_sublist.2 hu)
    intro u hmem v hv
    rcases List.mem_append.1 hmem with hu | hu
    · -- `w` is active during the whole inner search, so it reaches all that is reported there
      rcases ihin u hu v hv with hfound | hsub | hreach
      · rcases Finset.mem_insert.1 hfound with rfl | hfound
        · obtain ⟨x, hx, hxu⟩ := hin.exists_reaches u hu
          exact .inr (.inr (hxu.head (List.mem_reverse.1 hx)))
        · exact .inl hfound
      · exact .inr (.inl (hsub.trans (List.sublist_append_left _ _)))
      · exact .inr (.inr hreach)
    · rcases List.mem_cons.1 hu with rfl | hu'
      · rcases hin.mem_found_iff.1 (hin.todo_subset v (List.mem_reverse.2 hv)) with hfound | hinner
        · rcases Finset.mem_insert.1 hfound with rfl | hfound
          · exact .inr (.inr (Reaches.refl succ v))
          · exact .inl hfound
        · exact .inr (.inl (hpair hinner hu))
      · rcases ihout u hu' v hv with hwithin | hsub | hreach
        · rcases hin.mem_found_iff.1 hwithin with hfound | hinner
          · rcases Finset.mem_insert.1 hfound with rfl | hfound
            · refine .inr (.inl (List.Sublist.trans ?_ (List.sublist_append_right inner _)))
              exact (List.singleton_sublist.2 hu').cons_cons v
            · exact .inl hfound
          · exact .inr (.inl (hpair hinner hu))
        · refine .inr (.inl (hsub.trans ?_))
          exact (List.sublist_cons_self w outer).trans (List.sublist_append_right inner _)
        · exact .inr (.inr hreach)

/-- The one vertex that a search is started with comes last. -/
theorem getLast?_eq {s : Int} (h : Explores succ ∅ [s] found' out) : out.getLast? = some s := by
  cases h with
  | skip hv _ => simp at hv
  | enter _ _ hout =>
    cases hout with
    | nil => simp

end Explores

/-- The search ends in every finite region that no edge leaves: each entry uses up one of its
vertices. -/
theorem exists_explores {succ : Int → List Int} {region : Finset Int}
    (hclosed : Closed succ region) (found : Finset Int) (todo : List Int)
    (htodo : ∀ v ∈ todo, v ∈ region) : ∃ found' out, Explores succ found todo found' out := by
  generalize hn : (region \ found).card = n
  induction n using Nat.strong_induction_on generalizing found todo with
  | _ n ihn =>
    induction todo generalizing found with
    | nil => exact ⟨found, [], .nil found⟩
    | cons v todo ih =>
      have hrest : ∀ w ∈ todo, w ∈ region := fun w hw => htodo w (List.mem_cons_of_mem v hw)
      by_cases hv : v ∈ found
      · obtain ⟨found', out, h⟩ := ih found hrest hn
        exact ⟨found', out, .skip hv h⟩
      -- what `v` leads to, then the rest; the rest has no more unmarked vertices than before
      have hvr : v ∈ region := htodo v List.mem_cons_self
      have hlt : (region \ insert v found).card < n := by
        rw [← hn, Finset.sdiff_insert]
        exact Finset.card_erase_lt_of_mem (Finset.mem_sdiff.2 ⟨hvr, hv⟩)
      obtain ⟨within, inner, hin⟩ := ihn _ hlt (insert v found) (succ v).reverse
        (fun w hw => hclosed v hvr w (List.mem_reverse.1 hw)) rfl
      have hle : (region \ within).card ≤ (region \ insert v found).card :=
        Finset.card_le_card (Finset.sdiff_subset_sdiff (Finset.Subset.refl region) hin.found_subset)
      obtain ⟨found', outer, hout⟩ := ihn _ (Nat.lt_of_le_of_lt hle hlt) within todo hrest rfl
      exact ⟨found', inner ++ v :: outer, .enter hv hin hout⟩

theorem exists_explores_from {succ : Int → List Int} {start : Int}
    (hfin : {v | Reaches succ start v}.Finite) :
    ∃ found out, Explores succ ∅ [start] found out := by
  obtain ⟨region, hclosed, hmem⟩ := exists_region hfin
  refine exists_explores hclosed ∅ [start] fun v hv => (hmem v).2 ?_
  rw [List.mem_singleton.1 hv]
  exact Reaches.refl succ start

end IndexGraph
