import IndexGraph.Proofs.Consistent
import IndexGraph.Proofs.Marks
import IndexGraph.Proofs.Span
import IndexGraph.Proofs.Yields
import IndexGraph.Walk.BreadthFirst

/-
  The level-order walk as a search on sets. `Spreads succ found queue out`: the vertices of `queue`,
  which are marked already, are reported in turn, and each lets its unmarked successors join the end
  of the queue. The walk reports what this search reports (`exists_yields`).
  What is reported satisfies an equation that no longer speaks of steps: after the start come the
  new ones in the joined lists of successors of all that is reported (`Spreads.out_eq`). So two
  vertices come in the order in which they first occur in the joined lists, that is, in the order of
  the first vertices that list them, and under one such vertex in its order
  (`precedes_flatMap_iff`). The first vertex that lists another comes no later than the last but one
  on a shortest path to it, and so the distances never fall (`distance_of_precedes`).
-/

namespace IndexGraph

/-- Search in which a vertex that is reported marks its successors, and those that are new wait
behind all others. -/
inductive Spreads (succ : Int → List Int) : Finset Int → List Int → List Int → Prop
  | nil (found : Finset Int) : Spreads succ found [] []
  | report {found : Finset Int} {v : Int} {queue out : List Int}
      (h : Spreads succ (found ∪ (succ v).toFinset) (queue ++ Marks.newcomers found (succ v)) out) :
      Spreads succ found (v :: queue) (v :: out)

/-- In `xs` the vertex `v` is met before `w` is. -/
def Precedes (xs : List Int) (v w : Int) : Prop := xs.idxOf v < xs.idxOf w

/-- The first vertex of `order` that lists `v`. -/
def firstSource (succ : Int → List Int) (order : List Int) (v : Int) : Option Int :=
  order.find? fun u => decide (v ∈ succ u)

variable {succ : Int → List Int} {found : Finset Int} {queue out us vs : List Int}
  {u v w p q : Int}

/-! ## First occurrences -/

theorem Precedes.irrefl (xs : List Int) (v : Int) : ¬ Precedes xs v v := Nat.lt_irrefl _

theorem Precedes.mem (h : Precedes vs v w) : v ∈ vs :=
  List.idxOf_lt_length_iff.1 (Nat.lt_of_lt_of_le h List.idxOf_le_length)

theorem precedes_append_left_iff (hv : v ∈ us) (hw : w ∈ us) :
    Precedes (us ++ vs) v w ↔ Precedes us v w := by
  unfold Precedes
  rw [List.idxOf_append_of_mem hv, List.idxOf_append_of_mem hw]

theorem precedes_append_right_iff (hv : v ∉ us) (hw : w ∉ us) :
    Precedes (us ++ vs) v w ↔ Precedes vs v w := by
  unfold Precedes
  rw [List.idxOf_append_of_notMem hv, List.idxOf_append_of_notMem hw, Nat.add_lt_add_iff_left]

theorem precedes_append (hv : v ∈ us) (hw : w ∉ us) : Precedes (us ++ vs) v w := by
  have := List.idxOf_lt_length_iff.2 hv
  unfold Precedes
  rw [List.idxOf_append_of_mem hv, List.idxOf_append_of_notMem hw]
  omega

theorem not_precedes_append (hv : v ∉ us) (hw : w ∈ us) : ¬ Precedes (us ++ vs) v w := by
  have := List.idxOf_lt_length_iff.2 hw
  unfold Precedes
  rw [List.idxOf_append_of_notMem hv, List.idxOf_append_of_mem hw]
  omega

theorem precedes_cons_iff (hv : v ≠ u) (hw : w ≠ u) :
    Precedes (u :: us) v w ↔ Precedes us v w :=
  @precedes_append_right_iff [u] us v w (by simpa using hv) (by simpa using hw)

theorem precedes_head (hw : w ≠ u) : Precedes (u :: us) u w :=
  @precedes_append [u] us u w (List.mem_singleton_self u) (by simpa using hw)

theorem not_precedes_head : ¬ Precedes (u :: us) v u := by
  unfold Precedes
  rw [List.idxOf_cons_self]
  exact Nat.not_lt_zero _

/-- The new vertices keep the order in which they are met. -/
theorem precedes_newcomers_iff (hv : v ∈ Marks.newcomers found vs)
    (hw : w ∈ Marks.newcomers found vs) :
    Precedes (Marks.newcomers found vs) v w ↔ Precedes vs v w := by
  induction vs generalizing found with
  | nil => exact absurd hv List.not_mem_nil
  | cons u vs ih =>
    rw [Marks.newcomers] at hv hw ⊢
    split at hv
    case isTrue hu =>
      rw [if_pos hu] at hw ⊢
      have hne : ∀ x ∈ Marks.newcomers found vs, x ≠ u := by
        rintro x hx rfl
        exact (Marks.mem_newcomers.1 hx).2 hu
      rw [ih hv hw, precedes_cons_iff (hne v hv) (hne w hw)]
    case isFalse hu =>
      rw [if_neg hu] at hw ⊢
      by_cases hwu : w = u
      · subst hwu
        exact iff_of_false not_precedes_head not_precedes_head
      by_cases hvu : v = u
      · subst hvu
        exact iff_of_true (precedes_head hwu) (precedes_head hwu)
      · rw [precedes_cons_iff hvu hwu, precedes_cons_iff hvu hwu]
        exact ih ((List.mem_cons.1 hv).resolve_left hvu) ((List.mem_cons.1 hw).resolve_left hwu)

theorem firstSource_cons : firstSource succ (u :: us) v =
    if v ∈ succ u then some u else firstSource succ us v := by
  unfold firstSource
  rw [List.find?_cons]
  by_cases hv : v ∈ succ u <;> simp [hv]

theorem mem_of_firstSource (h : firstSource succ us v = some p) : p ∈ us ∧ v ∈ succ p :=
  ⟨List.mem_of_find?_eq_some h, by simpa using List.find?_some h⟩

theorem exists_firstSource (hu : u ∈ us) (hv : v ∈ succ u) :
    ∃ p, firstSource succ us v = some p :=
  Option.isSome_iff_exists.1 (List.find?_isSome.2 ⟨u, hu, decide_eq_true hv⟩)

/-- Nothing that lists `v` comes before the first one that does. -/
theorem not_precedes_firstSource (h : firstSource succ us v = some p) (hv : v ∈ succ u) :
    ¬ Precedes us u p := by
  induction us with
  | nil => cases h
  | cons x us ih =>
    rw [firstSource_cons] at h
    split at h
    · cases h
      exact not_precedes_head
    · rename_i hx
      have hux : u ≠ x := by
        rintro rfl
        exact hx hv
      by_cases hpx : p = x
      · subst hpx
        exact not_precedes_head
      · rw [precedes_cons_iff hux hpx]
        exact ih h

/-- In joined lists two vertices are met in the order of the first lists that hold them, or, if that
is the same list, in its order. -/
theorem precedes_flatMap_iff (hnd : us.Nodup) (hp : firstSource succ us v = some p)
    (hq : firstSource succ us w = some q) : Precedes (us.flatMap succ) v w ↔
      Precedes us p q ∨ p = q ∧ Precedes (succ p) v w := by
  induction us with
  | nil => cases hp
  | cons u us ih =>
    obtain ⟨hu, hnd⟩ := List.nodup_cons.1 hnd
    rw [firstSource_cons] at hp hq
    -- a vertex that is found further on is not the head
    have hne : ∀ {x y : Int}, firstSource succ us x = some y → y ≠ u := by
      rintro x y hy rfl
      exact hu (mem_of_firstSource hy).1
    rw [List.flatMap_cons]
    by_cases hv : v ∈ succ u <;> by_cases hw : w ∈ succ u
    · rw [if_pos hv, Option.some.injEq] at hp
      rw [if_pos hw, Option.some.injEq] at hq
      subst hp hq
      rw [precedes_append_left_iff hv hw, or_iff_right (Precedes.irrefl _ _), and_iff_right rfl]
    · rw [if_pos hv, Option.some.injEq] at hp
      rw [if_neg hw] at hq
      subst hp
      exact iff_of_true (precedes_append hv hw) (.inl (precedes_head (hne hq)))
    · rw [if_neg hv] at hp
      rw [if_pos hw, Option.some.injEq] at hq
      subst hq
      exact iff_of_false (not_precedes_append hv hw)
        (not_or.2 ⟨not_precedes_head, fun h => hne hp h.1⟩)
    · rw [if_neg hv] at hp
      rw [if_neg hw] at hq
      rw [precedes_append_right_iff hv hw, precedes_cons_iff (hne hp) (hne hq), ih hnd hp hq]

/-! ## The search -/

namespace Spreads

/-- What is reported after the queue are the new ones among the successors of all that is
reported. -/
theorem out_eq (h : Spreads succ found queue out) :
    out = queue ++ Marks.newcomers found (out.flatMap succ) := by
  induction h with
  | nil => rfl
  | report _ ih =>
    rw [List.flatMap_cons, Marks.newcomers_append, List.cons_append, ← List.append_assoc, ← ih]

theorem exists_reaches (h : Spreads succ found queue out) :
    ∀ v ∈ out, ∃ u ∈ queue, Reaches succ u v := by
  induction h with
  | nil => exact fun v hv => absurd hv List.not_mem_nil
  | @report found v queue out _ ih =>
    intro x hx
    rcases List.mem_cons.1 hx with rfl | hx
    · exact ⟨x, List.mem_cons_self, Reaches.refl succ x⟩
    obtain ⟨u, hu, hr⟩ := ih x hx
    rcases List.mem_append.1 hu with hu | hu
    · exact ⟨u, List.mem_cons_of_mem v hu, hr⟩
    · exact ⟨v, List.mem_cons_self, hr.head (Marks.mem_newcomers.1 hu).1⟩

/-- Each vertex that is reported was queued, or is an entry in a list of successors. -/
theorem length_le (h : Spreads succ found queue out) :
    out.length ≤ queue.length + (out.map fun u => (succ u).length).sum := by
  have hlength := congrArg List.length h.out_eq
  rw [List.length_append] at hlength
  have hle := Marks.length_newcomers_le found (out.flatMap succ)
  rw [List.length_flatMap] at hle
  omega

variable {start : Int} {order : List Int} (h : Spreads succ {start} [start] order)
include h

theorem start_mem : start ∈ order := by
  rw [h.out_eq]
  exact List.mem_cons_self

theorem mem_iff_newcomers (hv : v ≠ start) :
    v ∈ order ↔ v ∈ Marks.newcomers {start} (order.flatMap succ) := by
  constructor
  · intro hmem
    rw [h.out_eq] at hmem
    exact (List.mem_cons.1 hmem).resolve_left hv
  · intro hmem
    rw [h.out_eq]
    exact List.mem_cons_of_mem start hmem

/-- A search from one vertex reports what that vertex reaches. -/
theorem mem_iff : v ∈ order ↔ Reaches succ start v := by
  constructor
  · intro hv
    obtain ⟨u, hu, hr⟩ := h.exists_reaches v hv
    rwa [List.mem_singleton.1 hu] at hr
  · intro hr
    induction hr with
    | refl => exact h.start_mem
    | @tail u v _ he ih =>
      by_cases hv : v = start
      · rw [hv]
        exact h.start_mem
      · rw [h.mem_iff_newcomers hv, Marks.mem_newcomers, Finset.mem_singleton]
        exact ⟨List.mem_flatMap.2 ⟨u, ih, he⟩, hv⟩

theorem nodup : order.Nodup := by
  rw [h.out_eq]
  refine List.nodup_cons.2 ⟨fun hmem => ?_, Marks.nodup_newcomers _ _⟩
  exact (Marks.mem_newcomers.1 hmem).2 (Finset.mem_singleton_self start)

theorem not_precedes_start : ¬ Precedes order v start := by
  rw [h.out_eq]
  exact not_precedes_head

/-- Two vertices come in the order of the first vertices that list them, and under one such vertex
in its order. -/
theorem precedes_iff (hv : v ∈ order) (hw : w ∈ order) (hvs : v ≠ start) (hws : w ≠ start) :
    ∃ p q, firstSource succ order v = some p ∧ firstSource succ order w = some q ∧
      (Precedes order v w ↔ Precedes order p q ∨ p = q ∧ Precedes (succ p) v w) := by
  have hlisted : ∀ x ∈ order, x ≠ start → ∃ p, firstSource succ order x = some p := by
    intro x hx hxs
    rw [h.mem_iff_newcomers hxs] at hx
    obtain ⟨u, hu, hxu⟩ := List.mem_flatMap.1 (Marks.mem_newcomers.1 hx).1
    exact exists_firstSource hu hxu
  obtain ⟨p, hp⟩ := hlisted v hv hvs
  obtain ⟨q, hq⟩ := hlisted w hw hws
  refine ⟨p, q, hp, hq, ?_⟩
  calc Precedes order v w
      ↔ Precedes (start :: Marks.newcomers {start} (order.flatMap succ)) v w := by
        exact iff_of_eq (congrArg (Precedes · v w) h.out_eq)
    _ ↔ Precedes (Marks.newcomers {start} (order.flatMap succ)) v w := precedes_cons_iff hvs hws
    _ ↔ Precedes (order.flatMap succ) v w :=
        precedes_newcomers_iff ((h.mem_iff_newcomers hvs).1 hv) ((h.mem_iff_newcomers hws).1 hw)
    _ ↔ Precedes order p q ∨ p = q ∧ Precedes (succ p) v w :=
        precedes_flatMap_iff h.nodup hp hq

/-- What comes before a vertex is not farther from the start. -/
theorem distance_of_precedes {k : Nat} (hw : Distance succ start w k) (hvw : Precedes order v w) :
    ∃ j, j ≤ k ∧ Distance succ start v j := by
  induction k generalizing v w with
  | zero =>
    rw [hw.eq_start] at hvw
    exact absurd hvw h.not_precedes_start
  | succ k ih =>
    by_cases hvs : v = start
    · subst hvs
      exact ⟨0, Nat.zero_le _, .start succ v⟩
    have hws : w ≠ start := by
      rintro rfl
      exact h.not_precedes_start hvw
    obtain ⟨u, he, hu⟩ := hw.exists_source
    obtain ⟨p, q, hp, hq, hiff⟩ := h.precedes_iff hvw.mem (h.mem_iff.2 hw.reaches) hvs hws
    -- the first vertex that lists `w` comes no later than the source of its shortest path
    have hqu : ¬ Precedes order u q := not_precedes_firstSource hq he
    have hpq : p = q ∨ Precedes order p q := (hiff.1 hvw).elim .inr fun h => .inl h.1
    have hpu : p = u ∨ Precedes order p u := by
      have hle : order.idxOf p ≤ order.idxOf u := by
        unfold Precedes at hqu hpq
        rcases hpq with rfl | hlt <;> omega
      rcases Nat.eq_or_lt_of_le hle with heq | hlt
      · exact .inl ((List.idxOf_inj (mem_of_firstSource hp).1).1 heq)
      · exact .inr hlt
    obtain ⟨j, hj, hdist⟩ : ∃ j, j ≤ k ∧ Distance succ start p j := by
      rcases hpu with rfl | hpu
      · exact ⟨k, Nat.le_refl k, hu⟩
      · exact ih hu hpu
    obtain ⟨i, hi, hv⟩ := hdist.step (mem_of_firstSource hp).2
    exact ⟨i, by omega, hv⟩

/-- The distances never fall along the order. -/
theorem pairwise_distance : order.Pairwise fun v w =>
    ∀ j k, Distance succ start v j → Distance succ start w k → j ≤ k := by
  rw [List.pairwise_iff_getElem]
  intro a b ha hb hab j k hj hk
  have hprecedes : Precedes order order[a] order[b] := by
    unfold Precedes
    rwa [h.nodup.idxOf_getElem a ha, h.nodup.idxOf_getElem b hb]
  obtain ⟨i, hi, hdist⟩ := h.distance_of_precedes hk hprecedes
  rwa [hj.unique hdist]

end Spreads

/-- The search ends in every finite region that no edge leaves: what joins the queue is marked. -/
theorem exists_spreads {region : Finset Int} (hclosed : Closed succ region) (found : Finset Int)
    (queue : List Int) (hqueue : ∀ v ∈ queue, v ∈ region) :
    ∃ out, Spreads succ found queue out := by
  generalize hn : queue.length + (region \ found).card = n
  induction n generalizing found queue with
  | zero =>
    have hlength : queue.length = 0 := by omega
    rw [List.eq_nil_of_length_eq_zero hlength]
    exact ⟨[], .nil found⟩
  | succ n ih =>
    cases queue with
    | nil => exact ⟨[], .nil found⟩
    | cons v queue =>
      have hsucc := hclosed v (hqueue v List.mem_cons_self)
      have hcard := Marks.length_newcomers_add_card found hsucc
      have hnext : ∀ w ∈ queue ++ Marks.newcomers found (succ v), w ∈ region := by
        intro w hw
        rcases List.mem_append.1 hw with hw | hw
        · exact hqueue w (List.mem_cons_of_mem v hw)
        · exact hsucc w (Marks.mem_newcomers.1 hw).1
      obtain ⟨out, h⟩ := ih (found ∪ (succ v).toFinset) _ hnext (by
        rw [List.length_append]
        rw [List.length_cons] at hn
        omega)
      exact ⟨v :: out, .report h⟩

/-! ## The walk -/

namespace LevelWalk

variable {walk : LevelWalk}

/-- The walk has the vertices of `queue` still to report, having found `found`. -/
structure Stands (walk : LevelWalk) (queue : List Int) (found : Finset Int) : Prop where
  queue_eq : walk.queue = queue
  found_holds : walk.found.Holds found

/-- A step reports the first vertex in the queue and lets its new successors join, unless it comes
to one for which there may be no room. -/
theorem Stands.next_cases (h : walk.Stands (v :: queue) found) (hpos : ∀ c ∈ succ v, 0 ≤ c) :
    ((∃ c ∈ succ v, ¬ Markable c) ∧ ∃ k, (walk.next succ).result = .error (Length.refusal k)) ∨
      (walk.next succ).result = .ok (some v) ∧ (walk.next succ).state.Stands
        (queue ++ Marks.newcomers found (succ v)) (found ∪ (succ v).toFinset) := by
  obtain ⟨hresult, hqueue, hfound⟩ := walk.next_of_queue_cons succ h.queue_eq
  rcases h.found_holds.markAll_cases hpos [] with ⟨hno, k, hfault⟩ | ⟨hfault, hfresh, hmarks⟩
  · refine .inl ⟨hno, k, ?_⟩
    rw [hresult, Marks.Sweep.outcome, hfault]
  · refine .inr ⟨by rw [hresult, Marks.Sweep.outcome, hfault], ?_, hfound ▸ hmarks⟩
    rw [hqueue, hfresh, List.append_nil, List.reverse_reverse]

/-- The search is a sequence of steps, which is cut short only where there may be no room for a
successor. -/
theorem exists_yields (h : Spreads succ found queue out) (hpos : ∀ u ∈ out, ∀ c ∈ succ u, 0 ≤ c)
    (hw : walk.Stands queue found) :
    ((∃ u ∈ out, ∃ c ∈ succ u, ¬ Markable c) ∧ ∃ part walk' k, part.length ≤ out.length ∧
        Yields (next succ) walk part walk' ∧
        (walk'.next succ).result = .error (Length.refusal k)) ∨
      ∃ walk', Yields (next succ) walk out walk' ∧ (walk'.next succ).result = .ok none := by
  induction h generalizing walk with
  | nil =>
    refine .inr ⟨walk, .nil walk, ?_⟩
    rw [walk.next_of_queue_nil succ hw.queue_eq]
    rfl
  | @report found v queue out _ ih =>
    rcases hw.next_cases (hpos v List.mem_cons_self) with ⟨hno, k, hnext⟩ | ⟨hnext, hw'⟩
    · exact .inl ⟨⟨v, List.mem_cons_self, hno⟩, [], walk, k, Nat.zero_le _, .nil walk, hnext⟩
    rcases ih (fun u hu => hpos u (List.mem_cons_of_mem v hu)) hw' with
      ⟨⟨u, hu, hno⟩, part, walk', k, hpart, hyields, hend⟩ | ⟨walk', hyields, hend⟩
    · exact .inl ⟨⟨u, List.mem_cons_of_mem v hu, hno⟩, v :: part, walk', k,
        Nat.succ_le_succ hpart, .cons hnext hyields, hend⟩
    · exact .inr ⟨walk', .cons hnext hyields, hend⟩

/-- A walk begins with its start marked, unless there may be no room for the start. -/
theorem startAt_cases {start : Int} (h0 : 0 ≤ start) :
    (¬ Markable start ∧ ∃ k, startAt start = .error (Length.refusal k)) ∨
      ∃ walk, startAt start = .ok walk ∧ walk.Stands [start] {start} := by
  rcases Marks.holds_empty.mark_cases h0 with ⟨hno, k, hmark⟩ | ⟨marks, hmark, hmarks⟩
  · refine .inl ⟨hno, k, ?_⟩
    simp only [startAt, hmark, Reply.fail, Except.map]
  · refine .inr ⟨⟨[start], [], marks⟩, ?_, rfl, hmarks⟩
    simp only [startAt, hmark, Reply.done, Except.map]

/-- The walk ends and answers what the search reports. -/
theorem drain_answered {start : Int} {order : List Int} (h : Spreads succ {start} [start] order)
    (hpos : ∀ v, Reaches succ start v → 0 ≤ v) (hw : walk.Stands [start] {start}) :
    ∃ r, Answered order r ∧
      ∀ k, order.length < k → (Reply.drain (next succ) k walk).result = r := by
  have hreach : ∀ u ∈ order, ∀ c ∈ succ u, Reaches succ start c := fun u hu c hc =>
    (h.mem_iff.1 hu).tail hc
  rcases exists_yields h (fun u hu c hc => hpos c (hreach u hu c hc)) hw with
    ⟨⟨u, hu, c, hc, hno⟩, part, walk', k, hpart, hyields, hend⟩ | ⟨walk', hyields, hend⟩
  · refine ⟨_, .inr ⟨⟨c, h.mem_iff.2 (hreach u hu c hc), hno⟩, k, rfl⟩, fun j hj => ?_⟩
    exact hyields.drain_eq_error hend (Nat.lt_of_le_of_lt hpart hj)
  · exact ⟨_, .inl rfl, fun j hj => hyields.drain_eq_ok hend hj⟩

end LevelWalk

/-- The walk of a network is drained within its bounds. -/
theorem Network.levelOrder_answered (g : Network) {start : Int}
    (hpos : ∀ v, Reaches g.successors start v → 0 ≤ v) {order : List Int}
    (h : Spreads g.successors {start} [start] order) : Answered order (g.levelOrder start) := by
  rcases LevelWalk.startAt_cases (hpos start (Reaches.refl _ _)) with
    ⟨hno, k, hstart⟩ | ⟨walk, hstart, hw⟩
  · refine .inr ⟨⟨start, h.mem_iff.2 (Reaches.refl _ _), hno⟩, k, ?_⟩
    rw [levelOrder, hstart]
    rfl
  · obtain ⟨r, hr, hdrain⟩ := LevelWalk.drain_answered h hpos hw
    have hbound : order.length < walk.queue.length + g.successorBound + 1 := by
      have hsum : (order.map fun u => (g.successors u).length).sum ≤ g.successorBound := by
        rw [← List.sum_toFinset _ h.nodup]
        exact g.sum_length_successors_le order.toFinset
      have hlength := h.length_le
      rw [hw.queue_eq]
      omega
    have hcall : g.levelOrder start = r := by
      rw [levelOrder, hstart]
      exact hdrain _ hbound
    rwa [hcall]

/-- On every graph in which finitely many vertices are reached from the start, none of them
negative, there is an order that has each of these vertices once, with distances from the start
that never fall. Of two vertices at the same distance, the start left out, that one comes first
whose first predecessor in the order comes first, or, if they share it, the one that it lists first.
Draining the walk ends and answers this order, unless there may be no room for the flag of a reached
vertex; the bounds of a network are large enough for it. -/
theorem levelOrder_by_distance (succ : Int → List Int) (start : Int)
    (hfin : {v | Reaches succ start v}.Finite) (hpos : ∀ v, Reaches succ start v → 0 ≤ v) :
    ∃ order : List Int, order.Nodup ∧ (∀ v, v ∈ order ↔ Reaches succ start v) ∧
      (∀ v ∈ order, ∃ k, Distance succ start v k) ∧
      (order.Pairwise fun v w =>
        ∀ j k, Distance succ start v j → Distance succ start w k → j ≤ k) ∧
      (∀ v w k, 1 ≤ k → Distance succ start v k → Distance succ start w k →
        ∃ p q, firstSource succ order v = some p ∧ firstSource succ order w = some q ∧
          (Precedes order v w ↔ Precedes order p q ∨ p = q ∧ Precedes (succ p) v w)) ∧
      (∃ r bound, Answered order r ∧ ∀ k, bound < k →
        ((LevelWalk.startAt start).bind fun w =>
          (Reply.drain (LevelWalk.next succ) k w).result) = r) ∧
      ∀ g : Network, g.successors = succ → Answered order (g.levelOrder start) := by
  obtain ⟨region, hclosed, hmem⟩ := exists_region hfin
  have hstart := Reaches.refl succ start
  obtain ⟨order, h⟩ := exists_spreads hclosed {start} [start] fun v hv => by
    rw [List.mem_singleton.1 hv]
    exact (hmem start).2 hstart
  -- what is not at distance 0 is not the start
  have hne : ∀ v k, 1 ≤ k → Distance succ start v k → v ≠ start := by
    rintro v k hk hv rfl
    have := hv.unique (Distance.start succ v)
    omega
  refine ⟨order, h.nodup, fun v => h.mem_iff, fun v hv => exists_distance (h.mem_iff.1 hv),
    h.pairwise_distance, fun v w k hk hv hw => ?_, ?_, fun g hg => ?_⟩
  · exact h.precedes_iff (h.mem_iff.2 hv.reaches) (h.mem_iff.2 hw.reaches) (hne v k hk hv)
      (hne w k hk hw)
  · rcases LevelWalk.startAt_cases (hpos start hstart) with ⟨hno, k, hcall⟩ | ⟨walk, hcall, hw⟩
    · refine ⟨.error (Length.refusal k), 0, .inr ⟨⟨start, h.mem_iff.2 hstart, hno⟩, k, rfl⟩,
        fun j _ => ?_⟩
      rw [hcall]
      rfl
    · obtain ⟨r, hr, hdrain⟩ := LevelWalk.drain_answered h hpos hw
      refine ⟨r, order.length, hr, fun k hk => ?_⟩
      rw [hcall]
      exact hdrain k hk
  · subst hg
    exact g.levelOrder_answered hpos h

/-- Vertices 3 and 4 are at distance 2. The first is listed by 1 and, twice, by 2, the second by 1
alone. As 2 comes before 1, so does 3 before 4, although 1 lists it behind. -/
theorem levelOrder_by_distance_shared :
    let m := (((((((Multigraph.ofCount 5).push 0 1).push 0 2).push 1 3).push 1 4).push 2 0).push
      2 3).push 2 3
    let g := Network.ofMultigraph m
    let order : List Int := [0, 2, 1, 3, 4]
    g.levelOrder 0 = .ok order ∧ g.successors 1 = [4, 3] ∧ g.successors 2 = [3, 3, 0] ∧
      Distance g.successors 0 3 2 ∧ Distance g.successors 0 4 2 ∧
      firstSource g.successors order 3 = some 2 ∧ firstSource g.successors order 4 = some 1 ∧
      (Precedes order 3 4 ↔
        Precedes order 2 1 ∨ (2 : Int) = 1 ∧ Precedes (g.successors 2) 3 4) := by
  intro m g order
  have hpos : ∀ v, Reaches g.successors 0 v → 0 ≤ v := fun v hv =>
    ((Network.consistent_ofMultigraph m).reaches_in_range (by decide) (by decide) v hv).1
  have hcall : g.levelOrder 0 = .ok order := by decide +kernel
  have hfar : ∀ u v, u ∈ g.successors 0 → v ∈ g.successors u → v ∉ g.successors 0 → v ≠ 0 →
      Distance g.successors 0 v 2 := by
    intro u v hu hv hv1 hv0
    obtain ⟨i, hi, hu⟩ := (Distance.start g.successors 0).step hu
    obtain ⟨j, hj, hdist⟩ := hu.step hv
    obtain rfl | rfl | rfl : j = 0 ∨ j = 1 ∨ j = 2 := by omega
    · exact absurd hdist.eq_start hv0
    · obtain ⟨x, hx, hx0⟩ := hdist.exists_source
      exact absurd (hx0.eq_start ▸ hx) hv1
    · exact hdist
  have h3 : Distance g.successors 0 3 2 :=
    hfar 1 3 (by decide +kernel) (by decide +kernel) (by decide +kernel) (by decide)
  have h4 : Distance g.successors 0 4 2 :=
    hfar 1 4 (by decide +kernel) (by decide +kernel) (by decide +kernel) (by decide)
  have hp : firstSource g.successors order 3 = some 2 := by decide +kernel
  have hq : firstSource g.successors order 4 = some 1 := by decide +kernel
  obtain ⟨order', _, _, _, _, hties, _, hnetwork⟩ :=
    levelOrder_by_distance g.successors 0 (g.finite_reaches 0) hpos
  rcases hnetwork g rfl with hok | ⟨_, k, herror⟩
  · rw [hcall, Except.ok.injEq] at hok
    subst hok
    obtain ⟨p, q, hp', hq', hiff⟩ := hties 3 4 2 (by decide) h3 h4
    obtain rfl := Option.some.inj (hp.symm.trans hp')
    obtain rfl := Option.some.inj (hq.symm.trans hq')
    exact ⟨hcall, by decide +kernel, by decide +kernel, h3, h4, hp, hq, hiff⟩
  · rw [hcall] at herror
    cases herror

/-- A start that no edge leaves is all that is reached, but a flag for vertex `2 ^ 63` cannot be
had. -/
theorem levelOrder_eq_lengthRange :
    let g := Network.ofTables 0 0 #[] #[] #[]
    let start : Int := 9223372036854775808
    (∀ v, Reaches g.successors start v ↔ v = start) ∧
      g.levelOrder start = .error .lengthRange := by
  intro g start
  have hnone : g.successors start = [] := Network.row_empty start
  exact ⟨fun v => Reaches.iff_of_eq_nil hnone, by decide +kernel⟩

end IndexGraph
