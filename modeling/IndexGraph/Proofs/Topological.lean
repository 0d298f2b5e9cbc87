import IndexGraph.Proofs.Position
import IndexGraph.Proofs.Reach
import IndexGraph.Proofs.Yields
import IndexGraph.Walk.Topological
import Mathlib.Algebra.BigOperators.Group.Finset.Basic
import Mathlib.Algebra.Order.BigOperators.Group.Finset
import Mathlib.Data.Fintype.Pigeonhole
import Mathlib.Data.List.Nodup

/-
  The topological walk orders what can be ordered.
  The counts say what is left: between two steps the count of a vertex is the number of edges
  into it from vertices not yet reported, and the vertices ready are those that no such edge
  enters (`Holds`, one step `Holds.step`). So a vertex is reported after all its sources
  (`Legal`), which is never the turn of a vertex behind a cycle; and where the walk runs dry, each
  vertex left has a source that is left, so that following the sources backwards runs into a
  cycle (`behindCycle_of_sources`).
-/

namespace IndexGraph

open Function (update)
open Position (Reads)

/-- The vertices of a graph of `n` vertices. -/
def vertices (n : Nat) : List Int := (List.range n).map fun (v : Nat) => (v : Int)

theorem mem_vertices {n : Nat} {v : Int} : v ∈ vertices n ↔ 0 ≤ v ∧ v < n := by
  simp only [vertices, List.mem_map, List.mem_range]
  constructor
  · rintro ⟨k, hk, rfl⟩
    omega
  · rintro ⟨h0, hn⟩
    exact ⟨v.toNat, by omega, by omega⟩

theorem nodup_vertices (n : Nat) : (vertices n).Nodup :=
  List.nodup_range.map fun _ _ h => Int.ofNat.inj h

section Cycles

/-! ## Behind a cycle -/

variable {succ : Int → List Int} {n : Nat} {u v : Int}

/-- A way of at least one edge leads from `v` back to it. -/
def OnCycle (succ : Int → List Int) (v : Int) : Prop :=
  Relation.TransGen (fun a b => b ∈ succ a) v v

/-- `v` is reachable from a vertex of the graph that lies on a cycle. -/
def BehindCycle (succ : Int → List Int) (n : Nat) (v : Int) : Prop :=
  ∃ c ∈ vertices n, OnCycle succ c ∧ Reaches succ c v

/-- No edge leads out of the graph of the first `n` vertices. -/
def Inside (succ : Int → List Int) (n : Nat) : Prop :=
  ∀ u ∈ vertices n, ∀ v ∈ succ u, v ∈ vertices n

theorem Inside.mem_vertices (hin : Inside succ n) (hu : u ∈ vertices n) (h : Reaches succ u v) :
    v ∈ vertices n := by
  induction h with
  | refl => exact hu
  | tail _ he ih => exact hin _ ih _ he

/-- What is behind a cycle has a source behind it. -/
theorem BehindCycle.exists_source (hin : Inside succ n) (h : BehindCycle succ n v) :
    ∃ u ∈ vertices n, v ∈ succ u ∧ BehindCycle succ n u := by
  obtain ⟨c, hc, hcycle, hreach⟩ := h
  obtain ⟨u, hcu, he⟩ : ∃ u, Reaches succ c u ∧ v ∈ succ u := by
    cases hreach with
    | refl => exact Relation.TransGen.tail'_iff.1 hcycle
    | @tail u _ hcu he => exact ⟨u, hcu, he⟩
  exact ⟨u, hin.mem_vertices hc hcu, he, c, hc, hcycle, hcu⟩

/-- Where each vertex of a finite set has a source in the set, all of it is behind a cycle. -/
theorem behindCycle_of_sources {left : Finset Int} (hleft : ∀ v ∈ left, v ∈ vertices n)
    (hsource : ∀ v ∈ left, ∃ u ∈ left, v ∈ succ u) (hv : v ∈ left) : BehindCycle succ n v := by
  have hpoint : ∀ v : left, ∃ u : left, v.1 ∈ succ u.1 := fun v =>
    (hsource v v.2).elim fun u hu => ⟨⟨u, hu.1⟩, hu.2⟩
  choose back hback using hpoint
  let trail : Nat → left := fun i => back^[i] ⟨v, hv⟩
  have hedge : ∀ i, (trail i).1 ∈ succ (trail (i + 1)).1 := by
    intro i
    rw [show trail (i + 1) = back (trail i) from Function.iterate_succ_apply' back i _]
    exact hback _
  have hway : ∀ i k, Reaches succ (trail (i + k)).1 (trail i).1 := by
    intro i k
    induction k with
    | zero => exact Reaches.refl _ _
    | succ k ih => exact Reaches.head (hedge (i + k)) ih
  -- the trail visits only the vertices of `left`, so it comes back to one of them
  have hmeet : ∃ i k, trail i = trail (i + (k + 1)) := by
    obtain ⟨i, j, hne, heq⟩ := Finite.exists_ne_map_eq_of_infinite trail
    rcases Nat.lt_or_gt_of_ne hne with hlt | hlt
    · obtain ⟨k, rfl⟩ := Nat.exists_eq_add_of_lt hlt
      exact ⟨i, k, heq⟩
    · obtain ⟨k, rfl⟩ := Nat.exists_eq_add_of_lt hlt
      exact ⟨j, k, heq.symm⟩
  obtain ⟨i, k, heq⟩ := hmeet
  have hcycle : OnCycle succ (trail i).1 := by
    have hlong := Relation.TransGen.tail' (hway (i + 1) k) (hedge i)
    rwa [show i + 1 + k = i + (k + 1) by omega, ← heq] at hlong
  refine ⟨trail i, hleft _ (trail i).2, hcycle, ?_⟩
  have hend := hway 0 i
  rwa [Nat.zero_add] at hend

/-! ## Legal orders -/

/-- Each vertex is listed once, after all its sources. -/
inductive Legal (succ : Int → List Int) (n : Nat) : List Int → Prop
  | nil : Legal succ n []
  | concat {out : List Int} {v : Int} (h : Legal succ n out) (hv : v ∈ vertices n) (hnew : v ∉ out)
      (hsource : ∀ u ∈ vertices n, v ∈ succ u → u ∈ out) : Legal succ n (out ++ [v])

namespace Legal

variable {out : List Int}

theorem nodup (h : Legal succ n out) : out.Nodup := by
  induction h with
  | nil => exact List.nodup_nil
  | concat _ _ hnew _ ih =>
    rw [← List.concat_eq_append]
    exact List.Nodup.concat hnew ih

theorem mem_graph (h : Legal succ n out) (hv : v ∈ out) : v ∈ vertices n := by
  induction h with
  | nil => exact absurd hv List.not_mem_nil
  | concat _ hlast _ _ ih =>
    rcases List.mem_append.1 hv with hv | hv
    · exact ih hv
    · rwa [List.mem_singleton.1 hv]

/-- The sources of a listed vertex are listed before it. -/
theorem source_mem (h : Legal succ n out) {before after : List Int}
    (hout : out = before ++ v :: after) (hu : u ∈ vertices n) (he : v ∈ succ u) : u ∈ before := by
  induction h generalizing after with
  | nil => exact absurd hout (by simp)
  | concat _ _ _ hsource ih =>
    rcases List.eq_nil_or_concat after with rfl | ⟨after', w, rfl⟩
    · obtain ⟨rfl, hlast⟩ := List.append_inj' hout rfl
      obtain rfl := List.singleton_inj.1 hlast
      exact hsource u hu he
    · rw [List.concat_eq_append, ← List.cons_append, ← List.append_assoc] at hout
      exact ih (List.append_inj' hout rfl).1

/-- No vertex behind a cycle is listed. -/
theorem not_behindCycle (hin : Inside succ n) (h : Legal succ n out) (hv : v ∈ out) :
    ¬ BehindCycle succ n v := by
  induction h generalizing v with
  | nil => exact absurd hv List.not_mem_nil
  | concat _ _ _ hsource ih =>
    rcases List.mem_append.1 hv with hv | hv
    · exact ih hv
    · obtain rfl := List.mem_singleton.1 hv
      intro hbehind
      obtain ⟨u, hu, he, hbehind'⟩ := hbehind.exists_source hin
      exact ih (hsource u hu he) hbehind'

end Legal

end Cycles

namespace TopologicalWalk

variable {succ : Int → List Int} {n : Nat} {pending : Array Int} {f : Int → Int}

/-! ## Counting edges -/

theorem add_count_cons (f : Int → Int) (v : Int) (vs : List Int) :
    (fun w => f w + ((v :: vs).count w : Int)) = fun w => update f v (f v + 1) w + vs.count w := by
  funext w
  by_cases hw : w = v
  · subst hw
    rw [Function.update_self, List.count_cons_self]
    omega
  · rw [Function.update_of_ne hw, List.count_cons_of_ne (Ne.symm hw)]

theorem sub_count_cons (f : Int → Int) (v : Int) (vs : List Int) :
    (fun w => f w - ((v :: vs).count w : Int)) = fun w => update f v (f v - 1) w - vs.count w := by
  funext w
  by_cases hw : w = v
  · subst hw
    rw [Function.update_self, List.count_cons_self]
    omega
  · rw [Function.update_of_ne hw, List.count_cons_of_ne (Ne.symm hw)]

/-- Counting adds what the list holds. -/
theorem tally_eq {vs : List Int} (hrange : ∀ v ∈ vs, v ∈ vertices n) (hf : Reads pending n f) :
    ∃ pending', tally pending vs = .ok pending' ∧
      Reads pending' n fun v => f v + vs.count v := by
  induction vs generalizing pending f with
  | nil => exact ⟨pending, rfl, by simpa using hf⟩
  | cons v vs ih =>
    obtain ⟨h0, hn⟩ := mem_vertices.1 (hrange v List.mem_cons_self)
    obtain ⟨pending₁, hmodify, hf₁⟩ := hf.modify h0 hn (· + 1)
    obtain ⟨pending', htally, hf'⟩ := ih (fun w hw => hrange w (List.mem_cons_of_mem v hw)) hf₁
    refine ⟨pending', by rw [tally, hmodify]; exact htally, ?_⟩
    rwa [add_count_cons]

/-- One entry of a release: the count falls by one, and the vertex is ready if it was one. -/
theorem exists_release_cons {v : Int} (vs ready : List Int) (hf : Reads pending n f)
    (hv : v ∈ vertices n) :
    ∃ pending', Reads pending' n (update f v (f v - 1)) ∧
      release ready pending (v :: vs) =
        release (if f v = 1 then v :: ready else ready) pending' vs := by
  obtain ⟨h0, hn⟩ := mem_vertices.1 hv
  obtain ⟨k, rfl⟩ := Int.eq_ofNat_of_zero_le h0
  have hk : k < pending.size := by
    rw [hf.size_eq]
    omega
  have hget := hf.getElem?_eq (show k < n by omega)
  simp only [release, Position.resolve?_natCast hk, hget, Option.some.injEq]
  by_cases hone : f k = 1
  · obtain ⟨pending', hwrite, hf'⟩ := hf.write h0 hn 0
    rw [Position.write_natCast hk, Except.ok.injEq] at hwrite
    subst hwrite
    rw [if_pos hone, if_pos hone, hone]
    exact ⟨_, hf', rfl⟩
  · obtain ⟨pending', hmodify, hf'⟩ := hf.modify h0 hn (· - 1)
    rw [Position.modify_natCast hk, Except.ok.injEq] at hmodify
    subst hmodify
    rw [if_neg hone, if_neg hone]
    exact ⟨_, hf', rfl⟩

/-- A release takes off what the list holds, and makes ready what thereby comes to zero. -/
theorem release_eq {vs : List Int} (hrange : ∀ v ∈ vs, v ∈ vertices n) (ready : List Int)
    (hf : Reads pending n f) (hle : ∀ v, (vs.count v : Int) ≤ f v) :
    ∃ pending' fresh, release ready pending vs = ⟨pending', fresh ++ ready, none⟩ ∧
      (Reads pending' n fun v => f v - vs.count v) ∧ fresh.Nodup ∧
      ∀ v, v ∈ fresh ↔ 0 < f v ∧ f v = vs.count v := by
  induction vs generalizing pending f ready with
  | nil =>
    refine ⟨pending, [], rfl, by simpa using hf, List.nodup_nil, fun v => ?_⟩
    simp only [List.not_mem_nil, List.count_nil, false_iff]
    omega
  | cons v vs ih =>
    obtain ⟨pending₁, hf₁, hstep⟩ := exists_release_cons vs ready hf (hrange v List.mem_cons_self)
    have hcount := sub_count_cons f v vs
    have hle₁ : ∀ w, (vs.count w : Int) ≤ update f v (f v - 1) w := by
      intro w
      have hw := congrFun hcount w
      have := hle w
      omega
    obtain ⟨pending', fresh, hrelease, hf', hnd, hmem⟩ :=
      ih (fun w hw => hrange w (List.mem_cons_of_mem v hw))
        (if f v = 1 then v :: ready else ready) hf₁ hle₁
    rw [← hcount] at hf'
    have hv := hle v
    rw [List.count_cons_self] at hv
    -- the last edge into `v` is taken off here if its count was one, and further on otherwise
    refine ⟨pending', if f v = 1 then fresh ++ [v] else fresh, ?_, hf', ?_, fun w => ?_⟩
    · rw [hstep, hrelease]
      split
      · rw [List.append_assoc]
        rfl
      · rfl
    · split
      · rw [← List.concat_eq_append]
        refine List.Nodup.concat (fun hin => ?_) hnd
        have := (hmem v).1 hin
        rw [Function.update_self] at this
        omega
      · exact hnd
    · have hfresh : (w ∈ if f v = 1 then fresh ++ [v] else fresh) ↔
          w ∈ fresh ∨ (w = v ∧ f v = 1) := by
        split <;> simp [*]
      rw [hfresh, hmem w]
      by_cases hwv : w = v
      · subst hwv
        rw [Function.update_self, List.count_cons_self]
        omega
      · rw [Function.update_of_ne hwv, List.count_cons_of_ne (Ne.symm hwv)]
        omega

/-! ## The walk -/

/-- The number of edges into `v` from the vertices in `left`. -/
def entering (succ : Int → List Int) (left : Finset Int) (v : Int) : Nat :=
  ∑ u ∈ left, (succ u).count v

theorem entering_eq_zero {left : Finset Int} {v : Int} :
    entering succ left v = 0 ↔ ∀ u ∈ left, v ∉ succ u := by
  rw [entering, Finset.sum_eq_zero_iff]
  exact forall₂_congr fun u _ => List.count_eq_zero

theorem entering_erase (succ : Int → List Int) {left : Finset Int} {u : Int} (hu : u ∈ left)
    (v : Int) :
    entering succ left v = (succ u).count v + entering succ (left.erase u) v :=
  (Finset.add_sum_erase left (fun u => (succ u).count v) hu).symm

/-- A walk begins with the number of edges into each vertex, and the vertices that none enters. -/
theorem exists_ofSuccessors (hin : Inside succ n) (hroom : n < Length.room) (strict : Bool) :
    ∃ pending : Array Int, ofSuccessors succ n strict = .ok
        { pending := pending
          ready := (((List.range n).filter fun v => pending[v]? == some 0).map
            fun (v : Nat) => (v : Int)).reverse
          unreported := n
          strict := strict } ∧
      Reads pending n fun v => entering succ (vertices n).toFinset v := by
  have hedges : ∀ v ∈ (vertices n).flatMap succ, v ∈ vertices n := by
    intro v hv
    obtain ⟨u, hu, he⟩ := List.mem_flatMap.1 hv
    exact hin u hu v he
  obtain ⟨pending, htally, hreads⟩ := tally_eq hedges (Position.reads_replicate n 0)
  have hcount : (fun v => 0 + (((vertices n).flatMap succ).count v : Int)) =
      fun v => (entering succ (vertices n).toFinset v : Int) := by
    funext v
    rw [Int.zero_add, List.count_flatMap, entering, List.sum_toFinset _ (nodup_vertices n)]
    rfl
  rw [hcount] at hreads
  have htally : tally (Array.replicate n 0)
      (((List.range (n : Int).toNat).map fun (v : Nat) => (v : Int)).flatMap succ) =
        .ok pending := htally
  refine ⟨pending, ?_, hreads⟩
  rw [ofSuccessors, Length.fresh_natCast hroom]
  simp only [bind, Except.bind, htally]
  rfl

/-- After `out` was reported and while `left` was not, the counts are those of the edges from
`left`. -/
structure Holds (succ : Int → List Int) (n : Nat) (w : TopologicalWalk) (out : List Int)
    (left : Finset Int) : Prop where
  legal : Legal succ n out
  mem_left : ∀ v, v ∈ left ↔ v ∈ vertices n ∧ v ∉ out
  reads : Reads w.pending n fun v => entering succ left v
  nodup_ready : w.ready.Nodup
  mem_ready : ∀ v, v ∈ w.ready ↔ v ∈ left ∧ entering succ left v = 0
  unreported_eq : w.unreported = left.card

namespace Holds

variable {w : TopologicalWalk} {out : List Int} {left : Finset Int}

/-- A new walk has counted all edges. -/
theorem ofSuccessors (hin : Inside succ n) (hroom : n < Length.room) (strict : Bool) :
    ∃ w, TopologicalWalk.ofSuccessors succ n strict = .ok w ∧ w.strict = strict ∧
      Holds succ n w [] (vertices n).toFinset := by
  obtain ⟨pending, hwalk, hreads⟩ := exists_ofSuccessors hin hroom strict
  refine ⟨_, hwalk, rfl, .nil, fun v => ?_, hreads, ?_, fun v => ?_, ?_⟩
  · simp only [List.mem_toFinset, List.not_mem_nil, not_false_eq_true, and_true]
  · rw [List.nodup_reverse]
    exact (List.nodup_range.filter _).map fun _ _ h => Int.ofNat.inj h
  · simp only [List.mem_reverse, List.mem_map, List.mem_filter, List.mem_range, beq_iff_eq,
      List.mem_toFinset, mem_vertices]
    constructor
    · rintro ⟨k, ⟨hk, hzero⟩, rfl⟩
      rw [hreads.getElem?_eq hk, Option.some.injEq] at hzero
      omega
    · rintro ⟨⟨h0, hn⟩, hzero⟩
      obtain ⟨k, rfl⟩ := Int.eq_ofNat_of_zero_le h0
      have hk : k < n := by omega
      refine ⟨k, ⟨hk, ?_⟩, rfl⟩
      rw [hreads.getElem?_eq hk, Option.some.injEq]
      exact_mod_cast hzero
  · rw [List.toFinset_card_of_nodup (nodup_vertices n)]
    simp [vertices]

/-- An edge from a vertex that is left leads to one that is left. -/
theorem mem_left_of_source (hin : Inside succ n) (h : Holds succ n w out left) {u v : Int}
    (hu : u ∈ left) (he : v ∈ succ u) : v ∈ left := by
  obtain ⟨hgraph, hnew⟩ := (h.mem_left u).1 hu
  refine (h.mem_left v).2 ⟨hin u hgraph v he, fun hout => ?_⟩
  obtain ⟨before, after, hsplit⟩ := List.append_of_mem hout
  have hbefore := h.legal.source_mem hsplit hgraph he
  exact hnew (hsplit ▸ List.mem_append_left _ hbefore)

/-- The vertices that no edge enters any more once `v` is taken off: those that were ready besides
`v`, and those that only edges from `v` entered. -/
theorem ready_erase_iff (hin : Inside succ n) (h : Holds succ n w out left) {v : Int}
    (hv : v ∈ left) (hzero : entering succ left v = 0) (x : Int) :
    (x ∈ left.erase v ∧ entering succ (left.erase v) x = 0) ↔
      (0 < entering succ left x ∧ entering succ left x = (succ v).count x) ∨
        (x ≠ v ∧ x ∈ left ∧ entering succ left x = 0) := by
  rw [Finset.mem_erase]
  have hsplit := entering_erase succ hv x
  constructor
  · rintro ⟨⟨hne, hx⟩, hx0⟩
    rcases Nat.eq_zero_or_pos (entering succ left x) with hall | hall
    · exact .inr ⟨hne, hx, hall⟩
    · exact .inl ⟨hall, by omega⟩
  · rintro (⟨hpos, heq⟩ | ⟨hne, hx, hx0⟩)
    · have he : x ∈ succ v := List.count_pos_iff.1 (by omega)
      refine ⟨⟨?_, h.mem_left_of_source hin hv he⟩, by omega⟩
      rintro rfl
      omega
    · exact ⟨⟨hne, hx⟩, by omega⟩

/-- A step reports the first ready vertex and takes its edges off the counts. -/
theorem step (hin : Inside succ n) (h : Holds succ n w out left) {v : Int} {rest : List Int}
    (hready : w.ready = v :: rest) :
    (w.next succ).result = .ok (some v) ∧ (w.next succ).state.strict = w.strict ∧
      Holds succ n (w.next succ).state (out ++ [v]) (left.erase v) := by
  obtain ⟨pending, ready, unreported, strict⟩ := w
  obtain rfl : ready = v :: rest := hready
  obtain ⟨hv, hzero⟩ := (h.mem_ready v).1 List.mem_cons_self
  obtain ⟨hgraph, hnew⟩ := (h.mem_left v).1 hv
  have hle : ∀ x, ((succ v).count x : Int) ≤ entering succ left x := by
    intro x
    have := entering_erase succ hv x
    omega
  obtain ⟨pending', fresh, hrelease, hreads, hfresh, hmem⟩ :=
    release_eq (hin v hgraph) rest h.reads hle
  have hnext : next succ ⟨pending, v :: rest, unreported, strict⟩ =
      .done (some v) ⟨pending', fresh ++ rest, unreported - 1, strict⟩ := by
    simp only [next, hrelease]
    rfl
  rw [hnext]
  obtain ⟨hvrest, hrest⟩ := List.nodup_cons.1 h.nodup_ready
  refine ⟨rfl, rfl, h.legal.concat hgraph hnew fun u hu he => ?_, fun x => ?_, ?_, ?_,
    fun x => ?_, ?_⟩
  · by_contra hout
    exact entering_eq_zero.1 hzero u ((h.mem_left u).2 ⟨hu, hout⟩) he
  · rw [Finset.mem_erase, h.mem_left, List.mem_append, List.mem_singleton]
    tauto
  · have hcount : (fun x => (entering succ left x : Int) - (succ v).count x) =
        fun x => (entering succ (left.erase v) x : Int) := by
      funext x
      rw [entering_erase succ hv x]
      omega
    rwa [hcount] at hreads
  · refine hfresh.append hrest fun x hx hx' => ?_
    have hpos := (hmem x).1 hx
    have hzero' := ((h.mem_ready x).1 (List.mem_cons_of_mem v hx')).2
    omega
  · have hwas : x ∈ rest ↔ x ≠ v ∧ x ∈ left ∧ entering succ left x = 0 := by
      rw [← h.mem_ready, List.mem_cons]
      constructor
      · exact fun hx => ⟨fun hxv => hvrest (hxv ▸ hx), .inr hx⟩
      · exact fun hx => hx.2.resolve_left hx.1
    show x ∈ fresh ++ rest ↔ _
    rw [List.mem_append, hwas, hmem, h.ready_erase_iff hin hv hzero x]
    exact or_congr_left (by omega)
  · show unreported - 1 = _
    rw [show unreported = left.card from h.unreported_eq, Finset.card_erase_of_mem hv]
    have := Finset.card_pos.2 ⟨v, hv⟩
    omega

/-- The walk goes on until no vertex is ready. -/
theorem exists_yields (hin : Inside succ n) (h : Holds succ n w out left) :
    ∃ out' w' left', Yields (next succ) w out' w' ∧ w'.ready = [] ∧ w'.strict = w.strict ∧
      Holds succ n w' (out ++ out') left' := by
  induction hcard : left.card generalizing w out left with
  | zero =>
    refine ⟨[], w, left, .nil w, ?_, rfl, by rwa [List.append_nil]⟩
    rw [List.eq_nil_iff_forall_not_mem]
    intro v hv
    have := Finset.card_pos.2 ⟨v, ((h.mem_ready v).1 hv).1⟩
    omega
  | succ k ih =>
    rcases hready : w.ready with _ | ⟨v, rest⟩
    · exact ⟨[], w, left, .nil w, hready, rfl, by rwa [List.append_nil]⟩
    · obtain ⟨hresult, hstrict, hnext⟩ := h.step hin hready
      have hv : v ∈ left := ((h.mem_ready v).1 (hready ▸ List.mem_cons_self)).1
      obtain ⟨out', w', left', hyields, hend, hstrict', h'⟩ := ih hnext (by
        rw [Finset.card_erase_of_mem hv, hcard]
        rfl)
      refine ⟨v :: out', w', left', .cons hresult hyields, hend, hstrict'.trans hstrict, ?_⟩
      rwa [List.append_assoc] at h'

/-- Where no vertex is ready, those left are the ones behind a cycle. -/
theorem mem_iff_of_ready_eq_nil (hin : Inside succ n) (h : Holds succ n w out left)
    (hend : w.ready = []) {v : Int} : v ∈ out ↔ v ∈ vertices n ∧ ¬ BehindCycle succ n v := by
  refine ⟨fun hv => ⟨h.legal.mem_graph hv, h.legal.not_behindCycle hin hv⟩, fun hv => ?_⟩
  by_contra hout
  refine hv.2 (behindCycle_of_sources (fun u hu => ((h.mem_left u).1 hu).1) (fun u hu => ?_)
    ((h.mem_left v).2 ⟨hv.1, hout⟩))
  by_contra hnone
  have hready : u ∈ w.ready := (h.mem_ready u).2
    ⟨hu, entering_eq_zero.2 fun x hx he => hnone ⟨x, hx, he⟩⟩
  rw [hend] at hready
  exact absurd hready List.not_mem_nil

end Holds

/-- A walk that is not strict ends where no vertex is ready, whatever is left. -/
theorem result_next_of_ready_eq_nil {w : TopologicalWalk} (hready : w.ready = [])
    (hstrict : w.strict = false) : (w.next succ).result = .ok none := by
  obtain ⟨pending, ready, unreported, strict⟩ := w
  obtain rfl : ready = [] := hready
  obtain rfl : strict = false := hstrict
  rw [next]
  split
  · rfl
  · rfl

/-- A walk is drained to the vertices that are not behind a cycle. -/
theorem exists_drain (hin : Inside succ n) (hroom : n < Length.room) :
    ∃ out w, ofSuccessors succ n false = .ok w ∧ (w.drain succ).result = .ok out ∧
      Legal succ n out ∧ ∀ v, v ∈ out ↔ v ∈ vertices n ∧ ¬ BehindCycle succ n v := by
  obtain ⟨w, hwalk, hstrict, hstart⟩ := Holds.ofSuccessors hin hroom false
  obtain ⟨out, w', left, hyields, hready, hstrict', hend⟩ := hstart.exists_yields hin
  rw [List.nil_append] at hend
  have hlength : out.length ≤ n := by
    have hsub : out ⊆ vertices n := fun v hv => hend.legal.mem_graph hv
    have := (hend.legal.nodup.subperm hsub).length_le
    simpa [vertices] using this
  refine ⟨out, w, hwalk, hyields.drain_eq_ok ?_ ?_, hend.legal, fun v =>
    hend.mem_iff_of_ready_eq_nil hin hready⟩
  · exact result_next_of_ready_eq_nil hready (hstrict'.trans hstrict)
  · rw [hstart.reads.size_eq]
    omega

end TopologicalWalk

/-- On every graph of `n` vertices that no edge leaves, the drained walk answers a list that
holds exactly the vertices that are not behind a cycle, each once and after all its sources; on a
graph without a cycle it is all vertices. If there is no room for the counts, the walk is
refused. -/
theorem topologicalOrder_legal (succ : Int → List Int) (n : Nat)
    (hin : ∀ u : Int, 0 ≤ u → u < n → ∀ v ∈ succ u, 0 ≤ v ∧ v < n) :
    if n < Length.room then
      ∃ out, (∃ w, TopologicalWalk.ofSuccessors succ n false = .ok w ∧
          (w.drain succ).result = .ok out) ∧
        out.Nodup ∧ (∀ v : Int, v ∈ out ↔ (0 ≤ v ∧ v < n) ∧ ¬ BehindCycle succ n v) ∧
        (∀ (u v : Int) (before after), out = before ++ v :: after → 0 ≤ u → u < n → v ∈ succ u →
          u ∈ before) ∧
        ((∀ v : Int, 0 ≤ v → v < n → ¬ OnCycle succ v) → out.Perm (vertices n)) ∧
        ∀ g : Network, g.vertexCount = n → g.successors = succ →
          (g.topologicalOrder false).result = .ok out
    else
      TopologicalWalk.ofSuccessors succ n false = .error (Length.refusal n) ∧
        ∀ g : Network, g.vertexCount = n → g.successors = succ →
          (g.topologicalOrder false).result = .error (Length.refusal n) := by
  have hin' : Inside succ n := by
    intro u hu v he
    obtain ⟨h0, hn⟩ := mem_vertices.1 hu
    exact mem_vertices.2 (hin u h0 hn v he)
  split
  case isTrue hroom =>
    obtain ⟨out, w, hwalk, hdrain, hlegal, hmem⟩ := TopologicalWalk.exists_drain hin' hroom
    refine ⟨out, ⟨w, hwalk, hdrain⟩, hlegal.nodup, fun v => ?_, fun u v before after hout h0 hn he
      => hlegal.source_mem hout (mem_vertices.2 ⟨h0, hn⟩) he, fun hacyclic => ?_,
      fun g hcount hsucc => ?_⟩
    · rw [hmem, mem_vertices]
    · rw [List.perm_ext_iff_of_nodup hlegal.nodup (nodup_vertices n)]
      intro v
      rw [hmem]
      refine and_iff_left ?_
      rintro ⟨c, hc, hcycle, _⟩
      obtain ⟨h0, hn⟩ := mem_vertices.1 hc
      exact hacyclic c h0 hn hcycle
    · subst hsucc
      rw [Network.topologicalOrder, hcount, hwalk]
      exact hdrain
  case isFalse hroom =>
    have hrefused : TopologicalWalk.ofSuccessors succ n false = .error (Length.refusal n) := by
      rw [TopologicalWalk.ofSuccessors, Length.fresh,
        if_neg (mt Length.allowed_natCast.1 hroom)]
      rfl
    refine ⟨hrefused, fun g hcount hsucc => ?_⟩
    subst hsucc
    rw [Network.topologicalOrder, hcount, hrefused]
    rfl

/-- Two edges lead from 0 to 1; vertex 4 is behind the cycle through 2 and 3. -/
theorem topologicalOrder_legal_cycle :
    let g := Network.ofMultigraph
      (((((Multigraph.ofCount 5).push 0 1).push 0 1).push 2 3).push 3 2 |>.push 3 4)
    (g.topologicalOrder false).result = .ok [0, 1] ∧
      ∀ v : Int, v ∈ [0, 1] ↔ (0 ≤ v ∧ v < 5) ∧ ¬ BehindCycle g.successors 5 v := by
  intro g
  have hrows : ∀ k : Fin 5, ∀ v ∈ g.successors (k : Nat), 0 ≤ v ∧ v < 5 := by decide +kernel
  have hin : ∀ u : Int, 0 ≤ u → u < (5 : Nat) → ∀ v ∈ g.successors u, 0 ≤ v ∧ v < (5 : Nat) := by
    intro u h0 hn
    obtain ⟨k, rfl⟩ := Int.eq_ofNat_of_zero_le h0
    exact hrows ⟨k, by omega⟩
  have hcall : (g.topologicalOrder false).result = .ok [0, 1] := by decide +kernel
  have hroom : 5 < Length.room := by decide
  have horder := topologicalOrder_legal g.successors 5 hin
  rw [if_pos hroom] at horder
  obtain ⟨out, _, _, hmem, _, _, hnetwork⟩ := horder
  have hout := hnetwork g rfl rfl
  rw [hcall, Except.ok.injEq] at hout
  subst hout
  exact ⟨hcall, hmem⟩

/-- A graph of `2 ^ 63` vertices without an edge has no cycle, but a list of its counts cannot
be had. -/
theorem topologicalOrder_eq_lengthRange :
    let g := Network.ofTables 9223372036854775808 0 #[] #[] #[]
    (∀ u, g.successors u = []) ∧ (∀ v, ¬ BehindCycle g.successors 9223372036854775808 v) ∧
      (g.topologicalOrder false).result = .error .lengthRange := by
  intro g
  have hnone : ∀ u, g.successors u = [] := Network.row_empty
  refine ⟨hnone, fun v hv => ?_, by decide +kernel⟩
  obtain ⟨u, _, he, _⟩ := hv.exists_source fun u _ v he => by
    rw [hnone u] at he
    exact absurd he List.not_mem_nil
  rw [hnone u] at he
  exact absurd he List.not_mem_nil

end IndexGraph
