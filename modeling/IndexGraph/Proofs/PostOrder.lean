import IndexGraph.Proofs.DepthFirst
import IndexGraph.Proofs.Marks
import IndexGraph.Proofs.Yields
import IndexGraph.Walk.DepthFirst
import Mathlib.Algebra.Order.BigOperators.Group.Finset

/-
  The post-order walk with its stack is the recursive depth-first search.
  The stack holds the active vertices and, above each, those of its successors that were unmarked
  when it was found. Between that moment and the moment such a copy comes up, the vertex may
  have been found through an earlier copy; but then that search is over, so the vertex has been
  reported and the copy is dropped. This is what `exists_turns` says for every search that
  `Explores` describes; `Ready.stale` is the invariant: an entry that is marked is reported
  already, unless it was never put on the stack.
  Nothing here needs a network: the graph is any function that lists successors, and the walk
  stays in a finite region that no edge leaves. A turn is only refused where there may be no
  room for the flag of a vertex.
  `drain_answered`: the walk ends and reports what the recursive search reports, or is refused;
  the bounds of a network are large enough for it (`postOrder_answered`).
-/

namespace IndexGraph

/-- The number of successors that the unmarked vertices of `region` have together. -/
def pending (succ : Int → List Int) (region found : Finset Int) : Nat :=
  ∑ v ∈ region \ found, (succ v).length

theorem pending_insert (succ : Int → List Int) {region found : Finset Int} {v : Int}
    (hr : v ∈ region) (hv : v ∉ found) :
    (succ v).length + pending succ region (insert v found) = pending succ region found := by
  rw [pending, Finset.sdiff_insert]
  exact Finset.add_sum_erase _ (fun u => (succ u).length) (Finset.mem_sdiff.2 ⟨hr, hv⟩)

namespace PostOrderWalk

variable {succ : Int → List Int}

/-- The walk `w` stands before `stack`, having found `found` and reported `reported`. -/
structure Stands (w : PostOrderWalk) (stack : List Int) (found reported : Finset Int) : Prop where
  stack_eq : w.stack = stack
  found_holds : w.found.Holds found
  done_holds : w.done.Holds reported

theorem stands_startAt (start : Int) : (startAt start).Stands [start] ∅ ∅ :=
  ⟨rfl, Marks.holds_empty, Marks.holds_empty⟩

variable {w : PostOrderWalk} {v : Int} {rest : List Int} {found reported : Finset Int}

/-- The turn on `v` is refused, as there may be no room for its flag. -/
def Blocked (succ : Int → List Int) (w : PostOrderWalk) (v : Int) : Prop :=
  ¬ Markable v ∧ ∃ k w', w.turn succ = .fail (Length.refusal k) w'

variable (succ) in
/-- A new vertex is found, and its unfound successors come before it. -/
theorem Stands.turn_of_not_mem (h : w.Stands (v :: rest) found reported) (h0 : 0 ≤ v)
    (hf : v ∉ found) :
    w.Blocked succ v ∨ ∃ w', w.turn succ = .done .silent w' ∧
      w'.Stands ((succ v).reverse.filter (· ∉ insert v found) ++ v :: rest) (insert v found)
        reported := by
  obtain ⟨stack, marks, done⟩ := w
  obtain ⟨rfl, hfound, hdone⟩ := h
  rcases hfound.mark_cases h0 with ⟨hno, k, hmark⟩ | ⟨marks', hmark, hmarks⟩
  · refine .inl ⟨hno, k, ⟨v :: rest, marks, done⟩, ?_⟩
    simp only [turn, hmark, Reply.fail]
  · refine .inr ⟨⟨((succ v).filter fun c => !marks'.isMarked c).reverse ++ v :: rest, marks',
      done⟩, ?_, ⟨?_, hmarks, hdone⟩⟩
    · simp only [turn, hmark, Reply.done, hf, not_false_eq_true, decide_true]
    · have hfilter : (succ v).filter (fun c => !marks'.isMarked c) =
          (succ v).filter (· ∉ insert v found) :=
        List.filter_congr fun c _ => by rw [hmarks c, decide_not]
      rw [List.filter_reverse, ← hfilter]

variable (succ) in
/-- A found vertex is taken off the stack, and reported if it was not reported before. -/
theorem Stands.turn_of_mem (h : w.Stands (v :: rest) found reported) (h0 : 0 ≤ v)
    (hf : v ∈ found) :
    w.Blocked succ v ∨ ∃ w',
      w.turn succ = .done (if v ∈ reported then .silent else .report v) w' ∧
        w'.Stands rest found (insert v reported) := by
  obtain ⟨stack, marks, done⟩ := w
  obtain ⟨rfl, hfound, hdone⟩ := h
  rcases hfound.mark_cases h0 with ⟨hno, k, hmark⟩ | ⟨marks', hmark, hmarks⟩
  · refine .inl ⟨hno, k, ⟨v :: rest, marks, done⟩, ?_⟩
    simp only [turn, hmark, Reply.fail]
  rw [Finset.insert_eq_of_mem hf] at hmarks
  rcases hdone.mark_cases h0 with ⟨hno, k, hmark'⟩ | ⟨done', hmark', hdone'⟩
  · refine .inl ⟨hno, k, ⟨rest, marks', done⟩, ?_⟩
    simp only [turn, hmark, hmark', Reply.done, Reply.fail, hf, not_true_eq_false, decide_false]
  · refine .inr ⟨⟨rest, marks', done'⟩, ?_, ⟨rfl, hmarks, hdone'⟩⟩
    by_cases hr : v ∈ reported
    · simp only [turn, hmark, hmark', Reply.done, hf, hr, not_true_eq_false, decide_false,
        if_true]
    · simp only [turn, hmark, hmark', Reply.done, hf, hr, not_true_eq_false, not_false_eq_true,
        decide_true, decide_false, if_false]

/-- `n` turns lead from one walk to another and report `out`. -/
inductive Turns (succ : Int → List Int) :
    Nat → PostOrderWalk → List Int → PostOrderWalk → Prop
  | nil (w : PostOrderWalk) : Turns succ 0 w [] w
  | silent {n : Nat} {w w' w'' : PostOrderWalk} {out : List Int}
      (ht : w.turn succ = .done .silent w') (h : Turns succ n w' out w'') :
      Turns succ (n + 1) w out w''
  | report {n : Nat} {w w' w'' : PostOrderWalk} {v : Int} {out : List Int}
      (ht : w.turn succ = .done (.report v) w') (h : Turns succ n w' out w'') :
      Turns succ (n + 1) w (v :: out) w''

theorem Turns.trans {m n : Nat} {w w' w'' : PostOrderWalk} {out out' : List Int}
    (h : Turns succ m w out w') (h' : Turns succ n w' out' w'') :
    Turns succ (m + n) w (out ++ out') w'' := by
  induction h with
  | nil => simpa using h'
  | silent ht _ ih =>
    rw [Nat.add_right_comm]
    exact .silent ht (ih h')
  | report ht _ ih =>
    rw [Nat.add_right_comm]
    exact .report ht (ih h')

/-- At most `n` turns lead to one that is refused, as there may be no room for the flag of a
vertex of `region`. -/
def Stuck (succ : Int → List Int) (region : Finset Int) (n : Nat) (w : PostOrderWalk) : Prop :=
  ∃ m out w' v, m ≤ n ∧ Turns succ m w out w' ∧ v ∈ region ∧ w'.Blocked succ v

theorem Blocked.stuck {region : Finset Int} (h : w.Blocked succ v) (hv : v ∈ region) (n : Nat) :
    Stuck succ region n w :=
  ⟨0, [], w, v, Nat.zero_le n, .nil w, hv, h⟩

theorem Turns.stuck {region : Finset Int} {m n k : Nat} {w w' : PostOrderWalk} {out : List Int}
    (h : Turns succ m w out w') (h' : Stuck succ region n w') (hk : m + n ≤ k) :
    Stuck succ region k w := by
  obtain ⟨n', out', w'', v, hn, hturns, hv⟩ := h'
  exact ⟨m + n', out ++ out', w'', v, by omega, h.trans hturns, hv⟩

/-- A search of `todo` may begin. The entries that are not in `absent` are on the stack, and of
these the ones that are marked have been reported. -/
structure Ready (region : Finset Int) (todo : List Int) (absent found reported : Finset Int) :
    Prop where
  absent_subset : absent ⊆ found
  reported_subset : reported ⊆ found
  stale : ∀ v ∈ todo, v ∈ found → v ∈ absent ∨ v ∈ reported
  inside : ∀ v ∈ todo, v ∈ region

namespace Ready

variable {region : Finset Int} {todo inner : List Int} {absent within : Finset Int}
  (h : Ready region (v :: todo) absent found reported)
include h

theorem head_mem : v ∈ region := h.inside v List.mem_cons_self

theorem tail : Ready region todo absent found reported where
  absent_subset := h.absent_subset
  reported_subset := h.reported_subset
  stale u hu := h.stale u (List.mem_cons_of_mem v hu)
  inside u hu := h.inside u (List.mem_cons_of_mem v hu)

/-- Of the successors of `v` only the unmarked ones are put on the stack. -/
theorem successors (hclosed : Closed succ region) :
    Ready region (succ v).reverse (insert v found) (insert v found) reported where
  absent_subset _ hu := hu
  reported_subset := h.reported_subset.trans (Finset.subset_insert v found)
  stale _ _ hu := .inl hu
  inside u hu := hclosed v h.head_mem u (List.mem_reverse.1 hu)

variable (hin : Explores succ (insert v found) (succ v).reverse within inner)
include hin

theorem not_reported (hv : v ∉ found) : v ∉ reported ∪ inner.toFinset := by
  rw [Finset.mem_union, List.mem_toFinset]
  intro hcase
  rcases hcase with hv' | hv'
  · exact hv (h.reported_subset hv')
  · exact hin.not_mem_found v hv' (Finset.mem_insert_self v found)

/-- What became marked in between has been reported. -/
theorem after : Ready region todo absent within (insert v (reported ∪ inner.toFinset)) := by
  have hsub : found ⊆ within := (Finset.subset_insert v found).trans hin.found_subset
  refine ⟨h.absent_subset.trans hsub, fun x hx => ?_, fun x hx hxw => ?_, h.tail.inside⟩
  · rcases Finset.mem_insert.1 hx with rfl | hx
    · exact hin.found_subset (Finset.mem_insert_self x found)
    · rcases Finset.mem_union.1 hx with hx | hx
      · exact hsub (h.reported_subset hx)
      · exact hin.mem_found_iff.2 (.inr (List.mem_toFinset.1 hx))
  · rw [Finset.mem_insert, Finset.mem_union, List.mem_toFinset]
    rcases hin.mem_found_iff.1 hxw with hxf | hxi
    · rcases Finset.mem_insert.1 hxf with rfl | hxf
      · exact .inr (.inl rfl)
      · exact (h.tail.stale x hx hxf).imp_right fun hr => .inr (.inl hr)
    · exact .inr (.inr (.inr hxi))

end Ready

/-- A recursive search is a sequence of turns, unless one of these is refused. Every entry takes
two turns at most, and at most as many entries join as the newly marked vertices have
successors. -/
theorem exists_turns {region : Finset Int} (hclosed : Closed succ region)
    (hpos : ∀ v ∈ region, 0 ≤ v) {found found' : Finset Int} {todo out : List Int}
    (h : Explores succ found todo found' out) :
    ∀ (absent reported : Finset Int) (rest : List Int) (w : PostOrderWalk),
      Ready region todo absent found reported →
      w.Stands (todo.filter (· ∉ absent) ++ rest) found reported →
      Stuck succ region
          (2 * (todo.filter (· ∉ absent)).length + 2 * pending succ region found) w ∨
        ∃ n w', Turns succ n w out w' ∧ w'.Stands rest found' (reported ∪ out.toFinset) ∧
          n + 2 * pending succ region found' ≤
            2 * (todo.filter (· ∉ absent)).length + 2 * pending succ region found := by
  induction h with
  | nil found =>
    intro absent reported rest w _ hw
    exact .inr ⟨0, w, .nil w, by simpa using hw, by simp⟩
  | @skip found found' v todo out hv _ ih =>
    intro absent reported rest w hready hw
    by_cases ha : v ∈ absent
    · rw [List.filter_cons_of_neg (by simpa using ha)] at hw ⊢
      exact ih absent reported rest w hready.tail hw
    · rw [List.filter_cons_of_pos (by simpa using ha)] at hw ⊢
      have hr : v ∈ reported := (hready.stale v List.mem_cons_self hv).resolve_left ha
      rcases hw.turn_of_mem succ (hpos v hready.head_mem) hv with hblocked | ⟨w₁, ht, hw₁⟩
      · exact .inl (hblocked.stuck hready.head_mem _)
      rw [if_pos hr] at ht
      rw [Finset.insert_eq_of_mem hr] at hw₁
      have hturn : Turns succ 1 w [] w₁ := .silent ht (.nil w₁)
      rcases ih absent reported rest w₁ hready.tail hw₁ with hstuck | ⟨n, w', hturns, hw', hn⟩
      · refine .inl (hturn.stuck hstuck ?_)
        rw [List.length_cons]
        omega
      · refine .inr ⟨1 + n, w', hturn.trans hturns, hw', ?_⟩
        rw [List.length_cons]
        omega
  | @enter found within found' v todo inner outer hv hin hout ihin ihout =>
    intro absent reported rest w hready hw
    have ha : v ∉ absent := fun ha => hv (hready.absent_subset ha)
    have h0 := hpos v hready.head_mem
    have hpending := pending_insert succ hready.head_mem hv
    have hfilter : ((succ v).reverse.filter (· ∉ insert v found)).length ≤ (succ v).length := by
      simpa using List.length_filter_le (· ∉ insert v found) (succ v).reverse
    rw [List.filter_cons_of_pos (by simpa using ha)] at hw ⊢
    rw [List.length_cons]
    rcases hw.turn_of_not_mem succ h0 hv with hblocked | ⟨w₁, ht₁, hw₁⟩
    · exact .inl (hblocked.stuck hready.head_mem _)
    have hturn₁ : Turns succ 1 w [] w₁ := .silent ht₁ (.nil w₁)
    -- above `v` lie those of its successors that are not marked yet
    rcases ihin (insert v found) reported _ w₁ (hready.successors hclosed) hw₁ with
      hstuck | ⟨n₁, w₂, hturns₁, hw₂, hn₁⟩
    · exact .inl (hturn₁.stuck hstuck (by omega))
    have hfound := hin.found_subset (Finset.mem_insert_self v found)
    rcases hw₂.turn_of_mem succ h0 hfound with hblocked | ⟨w₃, ht₃, hw₃⟩
    · exact .inl ((hturn₁.trans hturns₁).stuck (hblocked.stuck hready.head_mem 0) (by omega))
    rw [if_neg (hready.not_reported hin hv)] at ht₃
    have hturns₃ : Turns succ (1 + n₁ + 1) w (inner ++ [v]) w₃ :=
      (hturn₁.trans hturns₁).trans (.report ht₃ (.nil w₃))
    rcases ihout absent _ rest w₃ (hready.after hin) hw₃ with
      hstuck | ⟨n₂, w', hturns₂, hw', hn₂⟩
    · exact .inl (hturns₃.stuck hstuck (by omega))
    refine .inr ⟨1 + n₁ + 1 + n₂, w', ?_, ?_, by omega⟩
    · simpa using hturns₃.trans hturns₂
    · have hunion : insert v (reported ∪ inner.toFinset) ∪ outer.toFinset =
          reported ∪ (inner ++ v :: outer).toFinset := by
        rw [List.toFinset_append, List.toFinset_cons, Finset.union_insert, Finset.union_insert,
          Finset.insert_union, Finset.union_assoc]
      rwa [hunion] at hw'

/-- A step takes the turns up to the first that reports a vertex; if none does, it goes on as a
step after them would. -/
theorem Turns.next_eq {n : Nat} {w w' : PostOrderWalk} {out : List Int}
    (h : Turns succ n w out w') {fuel : Nat} (hfuel : n < fuel) :
    (out = [] ∧ ∃ j, 0 < j ∧ w.next succ fuel = w'.next succ j) ∨
      ∃ v out' w₁ m, out = v :: out' ∧ m < n ∧ w.next succ fuel = .done (some v) w₁ ∧
        Turns succ m w₁ out' w' := by
  induction h generalizing fuel with
  | nil w => exact .inl ⟨rfl, fuel, hfuel, rfl⟩
  | @silent n w w₁ w' out ht _ ih =>
    obtain ⟨fuel, rfl⟩ := Nat.exists_eq_succ_of_ne_zero (Nat.ne_zero_of_lt hfuel)
    have hnext : w.next succ (fuel + 1) = w₁.next succ fuel := by
      rw [next, ht, Reply.done_andThen]
    rw [hnext]
    rcases ih (Nat.lt_of_succ_lt_succ hfuel) with hnone | ⟨v, out', w₂, m, hout, hm, h⟩
    · exact .inl hnone
    · exact .inr ⟨v, out', w₂, m, hout, Nat.lt_succ_of_lt hm, h⟩
  | @report n w w₁ w' v out ht h _ =>
    obtain ⟨fuel, rfl⟩ := Nat.exists_eq_succ_of_ne_zero (Nat.ne_zero_of_lt hfuel)
    refine .inr ⟨v, out, w₁, n, rfl, Nat.lt_succ_self n, ?_, h⟩
    rw [next, ht, Reply.done_andThen]

/-- Turns are steps that report a vertex each; what comes after the last report is left to one
more step. -/
theorem Turns.yields {n : Nat} {w w' : PostOrderWalk} {out : List Int}
    (h : Turns succ n w out w') {fuel : Nat} (hfuel : n < fuel) :
    out.length ≤ n ∧ ∃ w₁ j, Yields (next succ fuel) w out w₁ ∧ 0 < j ∧
      w₁.next succ fuel = w'.next succ j := by
  induction out generalizing n w with
  | nil =>
    rcases h.next_eq hfuel with ⟨_, j, hj, hnext⟩ | ⟨_, _, _, _, hout, _⟩
    · exact ⟨Nat.zero_le n, w, j, .nil w, hj, hnext⟩
    · cases hout
  | cons v out ih =>
    rcases h.next_eq hfuel with ⟨hout, _⟩ | ⟨_, _, w₂, m, hout, hm, hnext, h'⟩
    · cases hout
    · cases hout
      obtain ⟨hlength, w₁, j, hyields, hj, hlast⟩ := ih h' (hm.trans hfuel)
      refine ⟨Nat.succ_le_of_lt (Nat.lt_of_le_of_lt hlength hm), w₁, j, ?_, hj, hlast⟩
      refine .cons (by rw [hnext]; rfl) ?_
      rw [hnext]
      exact hyields

/-- Turns that end before an empty stack are the whole walk. -/
theorem Turns.drain_eq_ok {n : Nat} {w w' : PostOrderWalk} {out : List Int}
    (h : Turns succ n w out w') (hend : w'.stack = []) {fuel k : Nat} (hfuel : n < fuel)
    (hk : n < k) : (Reply.drain (next succ fuel) k w).result = .ok out := by
  obtain ⟨hlength, w₁, j, hyields, hj, hlast⟩ := h.yields hfuel
  refine hyields.drain_eq_ok ?_ (Nat.lt_of_le_of_lt hlength hk)
  obtain ⟨j, rfl⟩ := Nat.exists_eq_succ_of_ne_zero (Nat.ne_zero_of_lt hj)
  obtain ⟨stack, marks, done⟩ := w'
  obtain rfl : stack = [] := hend
  rw [hlast]
  rfl

/-- A turn that is refused ends the walk. -/
theorem Stuck.drain_eq_error {region : Finset Int} {n : Nat} {w : PostOrderWalk}
    (h : Stuck succ region n w) : (∃ v ∈ region, ¬ Markable v) ∧ ∃ i, ∀ fuel k, n < fuel → n < k →
      (Reply.drain (next succ fuel) k w).result = .error (Length.refusal i) := by
  obtain ⟨m, out, w', v, hm, hturns, hv, hno, i, w'', hturn⟩ := h
  refine ⟨⟨v, hv, hno⟩, i, fun fuel k hfuel hk => ?_⟩
  obtain ⟨hlength, w₁, j, hyields, hj, hlast⟩ := hturns.yields (Nat.lt_of_le_of_lt hm hfuel)
  refine hyields.drain_eq_error ?_ (Nat.lt_of_le_of_lt (hlength.trans hm) hk)
  obtain ⟨j, rfl⟩ := Nat.exists_eq_succ_of_ne_zero (Nat.ne_zero_of_lt hj)
  rw [hlast, next, hturn]
  rfl

/-- The walk ends in every finite region that no edge leaves, and answers what the recursive
search reports. -/
theorem drain_answered {region : Finset Int} (hclosed : Closed succ region)
    (hpos : ∀ v ∈ region, 0 ≤ v) {start : Int} (hstart : start ∈ region)
    (hreach : ∀ v ∈ region, Reaches succ start v) {found : Finset Int} {order : List Int}
    (h : Explores succ ∅ [start] found order) :
    ∃ r, Answered order r ∧ ∀ fuel k, 2 + 2 * pending succ region ∅ < fuel →
      2 + 2 * pending succ region ∅ < k →
      (Reply.drain (next succ fuel) k (startAt start)).result = r := by
  have hready : Ready region [start] ∅ ∅ ∅ := by
    refine ⟨Finset.Subset.refl ∅, Finset.Subset.refl ∅, fun v _ hv => .inl hv, fun v hv => ?_⟩
    rwa [List.mem_singleton.1 hv]
  have hlen : (List.filter (· ∉ (∅ : Finset Int)) [start]).length = 1 := by simp
  rcases exists_turns hclosed hpos h ∅ ∅ [] (startAt start) hready
    (by simpa using stands_startAt start) with hstuck | ⟨n, w, hturns, hw, hn⟩
  · rw [hlen] at hstuck
    obtain ⟨⟨v, hv, hno⟩, i, hdrain⟩ := hstuck.drain_eq_error
    exact ⟨_, .inr ⟨⟨v, h.mem_out_iff.2 (hreach v hv), hno⟩, i, rfl⟩, hdrain⟩
  · rw [hlen] at hn
    exact ⟨_, .inl rfl, fun fuel k hfuel hk =>
      hturns.drain_eq_ok hw.stack_eq (by omega) (by omega)⟩

/-- So does the walk of every graph in which finitely many vertices are reached, none of them
negative. -/
theorem exists_bound {start : Int} (hfin : {v | Reaches succ start v}.Finite)
    (hpos : ∀ v, Reaches succ start v → 0 ≤ v) {found : Finset Int} {order : List Int}
    (h : Explores succ ∅ [start] found order) :
    ∃ r bound, Answered order r ∧ ∀ fuel k, bound < fuel → bound < k →
      (Reply.drain (next succ fuel) k (startAt start)).result = r := by
  obtain ⟨region, hclosed, hmem⟩ := exists_region hfin
  obtain ⟨r, hr, hdrain⟩ := drain_answered hclosed (fun v hv => hpos v ((hmem v).1 hv))
    ((hmem start).2 (Reaches.refl _ _)) (fun v hv => (hmem v).1 hv) h
  exact ⟨r, _, hr, hdrain⟩

end PostOrderWalk

namespace Network

/-- The bounds that a network knows are large enough for the walk. -/
theorem lt_turnBound (g : Network) (region : Finset Int) (start : Int) :
    2 + 2 * pending g.successors region ∅ < (PostOrderWalk.startAt start).turnBound g := by
  have hle := g.sum_length_successors_le (region \ ∅)
  show _ < 2 * (1 + g.successorBound) + 1
  unfold pending
  omega

/-- The walk of a network is drained within these bounds. -/
theorem postOrder_answered (g : Network) {start : Int}
    (hpos : ∀ v, Reaches g.successors start v → 0 ≤ v) {found : Finset Int} {order : List Int}
    (h : Explores g.successors ∅ [start] found order) : Answered order (g.postOrder start) := by
  obtain ⟨region, hclosed, hmem⟩ := exists_region (g.finite_reaches start)
  obtain ⟨r, hr, hdrain⟩ := PostOrderWalk.drain_answered hclosed
    (fun v hv => hpos v ((hmem v).1 hv)) ((hmem start).2 (Reaches.refl _ _))
    (fun v hv => (hmem v).1 hv) h
  have hbound := g.lt_turnBound region start
  rwa [show g.postOrder start = r from hdrain _ _ hbound hbound]

/-- Where all reachable vertices can be marked, the walk reports what the recursive search
reports. -/
theorem postOrder_eq (g : Network) {start : Int}
    (hgood : ∀ v, Reaches g.successors start v → Markable v) :
    ∃ found order, Explores g.successors ∅ [start] found order ∧
      g.postOrder start = .ok order := by
  obtain ⟨found, order, h⟩ := exists_explores_from (g.finite_reaches start)
  refine ⟨found, order, h, ?_⟩
  exact (g.postOrder_answered (fun v hv => (hgood v hv).1) h).eq_ok fun v hv =>
    hgood v (h.mem_out_iff.1 hv)

end Network

/-- On every graph in which finitely many vertices are reached from the start, none of them
negative, there is exactly one recursive depth-first search; it reports each of these vertices
once, and the start last. Draining the walk ends and answers the same, unless there may be no
room for the flag of a reached vertex; the bounds of a network are large enough for it. -/
theorem postOrder_explores (succ : Int → List Int) (start : Int)
    (hfin : {v | Reaches succ start v}.Finite) (hpos : ∀ v, Reaches succ start v → 0 ≤ v) :
    ∃ order, (∃ found, Explores succ ∅ [start] found order) ∧
      (∀ found' order', Explores succ ∅ [start] found' order' → order' = order) ∧
      order.Nodup ∧ (∀ v, v ∈ order ↔ Reaches succ start v) ∧ order.getLast? = some start ∧
      (∃ r bound, Answered order r ∧ ∀ fuel k, bound < fuel → bound < k →
        (Reply.drain (PostOrderWalk.next succ fuel) k (.startAt start)).result = r) ∧
      ∀ g : Network, g.successors = succ → Answered order (g.postOrder start) := by
  obtain ⟨found, order, h⟩ := exists_explores_from hfin
  obtain ⟨region, hclosed, hmem⟩ := exists_region hfin
  obtain ⟨r, hr, hdrain⟩ := PostOrderWalk.drain_answered hclosed
    (fun v hv => hpos v ((hmem v).1 hv)) ((hmem start).2 (Reaches.refl _ _))
    (fun v hv => (hmem v).1 hv) h
  refine ⟨order, ⟨found, h⟩, fun _ _ h' => (h.unique h').2, h.nodup, fun v => h.mem_out_iff,
    h.getLast?_eq, ⟨r, _, hr, hdrain⟩, fun g hg => ?_⟩
  subst hg
  exact g.postOrder_answered hpos h

/-- Vertex 1 is put on the stack twice, by 0 and by 2, and reported once. -/
theorem postOrder_explores_shared :
    let g := Network.ofMultigraph
      (((((Multigraph.ofCount 4).push 0 2).push 0 1).push 2 1).push 1 3)
    g.postOrder 0 = .ok [3, 1, 2, 0] ∧ ∃ found, Explores g.successors ∅ [0] found [3, 1, 2, 0] := by
  intro g
  have hpos : ∀ v, Reaches g.successors 0 v → 0 ≤ v := by
    intro v hv
    cases hv with
    | refl => exact Int.le_refl 0
    | tail _ he =>
      obtain ⟨c, _, rfl⟩ := List.mem_map.1 he
      exact Int.natCast_nonneg c
  have hcall : g.postOrder 0 = .ok [3, 1, 2, 0] := by decide +kernel
  obtain ⟨order, hsearch, _, _, hmem, _, _, hnetwork⟩ :=
    postOrder_explores g.successors 0 (g.finite_reaches 0) hpos
  rcases hnetwork g rfl with hok | ⟨_, k, herror⟩
  · rw [hcall, Except.ok.injEq] at hok
    exact ⟨hcall, hok ▸ hsearch⟩
  · rw [hcall] at herror
    cases herror

/-- A start that no edge leaves is all that the search reports, but a flag for vertex `2 ^ 63`
cannot be had. -/
theorem postOrder_eq_lengthRange :
    let g := Network.ofTables 0 0 #[] #[] #[]
    let start : Int := 9223372036854775808
    (∀ v, Reaches g.successors start v ↔ v = start) ∧
      (∃ found, Explores g.successors ∅ [start] found [start]) ∧
      g.postOrder start = .error .lengthRange := by
  intro g start
  have hnone : g.successors start = [] := Network.row_empty start
  refine ⟨fun v => Reaches.iff_of_eq_nil hnone, ⟨{start}, ?_⟩, by decide +kernel⟩
  have hin : Explores g.successors {start} (g.successors start).reverse {start} [] := by
    rw [hnone]
    exact .nil _
  exact .enter (Finset.notMem_empty start) hin (.nil _)

end IndexGraph
