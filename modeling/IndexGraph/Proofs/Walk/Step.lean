import IndexGraph.Proofs.PostOrder
import IndexGraph.Proofs.PreOrder
import IndexGraph.Proofs.Walk.View
import IndexGraph.Walk

/-
  One step of a walk, on the graph as it is then. `Shows w V`: the stack or queue and the marks of
  `w` are what the view `V` says. A step leads to another view by the edges of that graph, whatever
  the graph was before (`Shows.exists_next`); it answers no vertex only where nothing waits.
  A step of the post-order walk takes many turns. Their number is bounded by `load`: a vertex on the
  stack takes two turns, or one if it was opened, and whoever is opened later brings at most its
  successors. The load is below the bound that a walk has at any time, because this bound is read
  off the graph as it is then.
-/

namespace IndexGraph

/-! ## Turns of the post-order walk -/

/-- Where only the vertices of `region` have successors, marking a vertex takes its successors off
the pending ones. -/
theorem pending_insert_le {succ : Int → List Int} {region found : Finset Int} {v : Int}
    (hregion : ∀ u, u ∉ region → succ u = []) (hv : v ∉ found) :
    (succ v).length + pending succ region (insert v found) ≤ pending succ region found := by
  by_cases hr : v ∈ region
  · exact (pending_insert succ hr hv).le
  · rw [hregion v hr, List.length_nil, Nat.zero_add]
    apply Finset.sum_le_sum_of_subset
    exact Finset.sdiff_subset_sdiff (Finset.Subset.refl _) (Finset.subset_insert v found)

/-- A bound on the turns that are left when `opened` have been opened. -/
def load (succ : Int → List Int) (region opened : Finset Int) (stack : List Int) : Nat :=
  stack.length + stack.countP (· ∉ opened) + 2 * pending succ region opened

section load

variable {succ : Int → List Int} {region opened : Finset Int} {v : Int}

variable (succ region opened) in
theorem load_le (stack : List Int) :
    load succ region opened stack ≤ 2 * (stack.length + pending succ region opened) := by
  have hcount : stack.countP (· ∉ opened) ≤ stack.length := List.countP_le_length
  unfold load
  omega

theorem load_enter (rest : List Int) (hregion : ∀ u, u ∉ region → succ u = []) (hv : v ∉ opened) :
    load succ region (insert v opened)
        ((succ v).reverse.filter (· ∉ insert v opened) ++ v :: rest) <
      load succ region opened (v :: rest) := by
  have hpending := pending_insert_le hregion hv
  have hlength : ((succ v).reverse.filter (· ∉ insert v opened)).length ≤ (succ v).length := by
    have hreverse : (succ v).reverse.length = (succ v).length := List.length_reverse
    rw [← hreverse]
    exact List.length_filter_le _ _
  have hcount : List.countP (· ∉ insert v opened)
      ((succ v).reverse.filter (· ∉ insert v opened)) ≤
        ((succ v).reverse.filter (· ∉ insert v opened)).length := List.countP_le_length
  have hrest : rest.countP (· ∉ insert v opened) ≤ rest.countP (· ∉ opened) := by
    refine List.countP_mono_left fun c _ hc => ?_
    rw [decide_eq_true_iff] at hc ⊢
    exact fun hmem => hc (Finset.mem_insert_of_mem hmem)
  have hhead : (v :: rest).countP (· ∉ insert v opened) = rest.countP (· ∉ insert v opened) := by
    rw [List.countP_cons_of_neg]
    simp
  have hhead' : (v :: rest).countP (· ∉ opened) = rest.countP (· ∉ opened) + 1 := by
    rw [List.countP_cons_of_pos]
    simpa using hv
  unfold load
  rw [List.length_append, List.countP_append, hhead, hhead', List.length_cons]
  omega

theorem load_leave (rest : List Int) (hv : v ∈ opened) :
    load succ region opened rest < load succ region opened (v :: rest) := by
  have hhead : (v :: rest).countP (· ∉ opened) = rest.countP (· ∉ opened) := by
    rw [List.countP_cons_of_neg]
    simpa using hv
  unfold load
  rw [hhead, List.length_cons]
  omega

end load

namespace Walk

/-- The walk stands where the view says. -/
inductive Shows : Walk → View → Prop
  | preOrder {w : PreOrderWalk} {V : View} {stack : List Int} (hw : w.Stands stack V.known)
      (hq : V.Queued stack) : Shows (.preOrder w) V
  | postOrder {w : PostOrderWalk} {V : View} {stack : List Int}
      (hw : w.Stands stack V.opened V.reported) (hs : V.Stacked stack) : Shows (.postOrder w) V
  | level {w : LevelWalk} {V : View} (hw : w.found.Holds V.known) (hq : V.Queued w.queue) :
      Shows (.level w) V

theorem Shows.reported_subset {w : Walk} {V : View} (h : w.Shows V) : V.reported ⊆ V.opened := by
  cases h with
  | preOrder _ hq => rw [hq.opened_eq]
  | postOrder _ hs => exact hs.reported_subset
  | level _ hq => rw [hq.opened_eq]

/-- A step is not refused and leads to another view by the edges there are; if it answers nothing,
nothing waits. -/
def Advances (succ : Int → List Int) (V : View) (r : Reply Walk (Option Int)) : Prop :=
  ∃ answer V', r.result = .ok answer ∧ r.state.Shows V' ∧
    V.Leads (fun a b => b ∈ succ a) (fun a b => b ∈ succ a) answer.toList V' ∧
    (answer = none → V'.waiting = ∅)

variable {succ : Int → List Int} {V V' : View}

/-- What is done in silence before a step belongs to it. -/
theorem Advances.of_leads {r : Reply Walk (Option Int)}
    (h : V.Leads (fun a b => b ∈ succ a) (fun a b => b ∈ succ a) [] V')
    (h' : Advances succ V' r) : Advances succ V r := by
  obtain ⟨answer, V'', hresult, hshows, hleads, hnone⟩ := h'
  exact ⟨answer, V'', hresult, hshows, h.trans hleads, hnone⟩

theorem advances_none {r : Reply Walk (Option Int)} (hresult : r.result = .ok none)
    (hshows : r.state.Shows V) (hnone : V.waiting = ∅) : Advances succ V r :=
  ⟨none, V, hresult, hshows, .refl _ _ V, fun _ => hnone⟩

variable (hsucc : ∀ u, ∀ c ∈ succ u, Markable c)
include hsucc

theorem advances_preOrder {w : PreOrderWalk} {stack : List Int} (hw : w.Stands stack V.known)
    (hq : V.Queued stack) : Advances succ V ((w.next succ).mapState .preOrder) := by
  cases stack with
  | nil =>
    obtain ⟨stack, marks⟩ := w
    obtain rfl : stack = [] := hw.stack_eq
    exact advances_none rfl (.preOrder hw hq) hq.waiting_eq.symm
  | cons v rest =>
    rcases hw.next_cases fun c (hc : c ∈ succ v) => (hsucc v c hc).1 with
      ⟨⟨c, hc, hno⟩, _⟩ | ⟨hresult, hstands⟩
    · exact absurd (hsucc v c hc) hno
    · have hperm : ((Marks.newcomers V.known (succ v)).reverse ++ rest).Perm
          (Marks.newcomers V.known (succ v) ++ rest) :=
        (List.reverse_perm _).append_right rest
      rw [← hq.known_report succ hperm] at hstands
      refine ⟨some v, _, hresult, .preOrder hstands (hq.report_queued succ hperm),
        hq.leads_report succ hperm, fun h => by cases h⟩

theorem advances_level {w : LevelWalk} (hw : w.found.Holds V.known) (hq : V.Queued w.queue) :
    Advances succ V ((w.next succ).mapState .level) := by
  cases hqueue : w.queue with
  | nil =>
    rw [w.next_of_queue_nil succ hqueue]
    rw [hqueue] at hq
    exact advances_none rfl (.level hw (hqueue ▸ hq)) hq.waiting_eq.symm
  | cons v rest =>
    rw [hqueue] at hq
    obtain ⟨hresult, hnext, hfound⟩ := w.next_of_queue_cons succ hqueue
    rcases hw.markAll_cases (fun c hc => (hsucc v c hc).1) [] with
      ⟨⟨c, hc, hno⟩, _⟩ | ⟨hfault, hfresh, hmarks⟩
    · exact absurd (hsucc v c hc) hno
    · rw [hfresh, List.append_nil, List.reverse_reverse] at hnext
      have hperm : (w.next succ).state.queue.Perm (Marks.newcomers V.known (succ v) ++ rest) := by
        rw [hnext]
        exact List.perm_append_comm
      rw [← hfound, ← hq.known_report succ hperm] at hmarks
      refine ⟨some v, _, ?_, .level hmarks (hq.report_queued succ hperm),
        hq.leads_report succ hperm, fun h => by cases h⟩
      show (w.next succ).result = _
      rw [hresult, Marks.Sweep.outcome, hfault]

/-- With more fuel than the load, the walk comes to a vertex to report or to its end. -/
theorem advances_postOrder {region : Finset Int} (hregion : ∀ u, u ∉ region → succ u = [])
    (fuel : Nat) : ∀ (w : PostOrderWalk) (V : View) (stack : List Int),
      w.Stands stack V.opened V.reported → V.Stacked stack → (∀ v ∈ V.known, Markable v) →
      load succ region V.opened stack < fuel →
      Advances succ V ((w.next succ fuel).mapState .postOrder) := by
  induction fuel with
  | zero => exact fun _ _ _ _ _ _ hload => absurd hload (Nat.not_lt_zero _)
  | succ fuel ih =>
    intro w V stack hw hs hmark hload
    cases stack with
    | nil =>
      obtain ⟨stack, found, done⟩ := w
      obtain rfl : stack = [] := hw.stack_eq
      exact advances_none rfl (.postOrder hw hs) hs.waiting_eq.symm
    | cons v rest =>
      have hv : Markable v := hmark v (hs.mem_known_iff.2 (.inl List.mem_cons_self))
      by_cases hopened : v ∈ V.opened
      · obtain ⟨hs', hleads⟩ := hs.leads_leave succ hopened
        rcases hw.turn_of_mem succ hv.1 hopened with ⟨hno, _⟩ | ⟨w', hturn, hw'⟩
        · exact absurd hv hno
        rw [PostOrderWalk.next, hturn, Reply.done_andThen]
        by_cases hreported : v ∈ V.reported
        · -- a stale copy
          rw [if_pos hreported]
          rw [if_pos hreported] at hleads
          refine .of_leads hleads (ih w' _ rest hw' hs' (hleads.forall_known hmark hsucc) ?_)
          have hless : load succ region V.opened rest < _ := load_leave rest hopened
          exact Nat.lt_of_lt_of_le hless (Nat.le_of_lt_succ hload)
        · rw [if_neg hreported]
          rw [if_neg hreported] at hleads
          dsimp only
          exact ⟨some v, V.leave v rest, rfl, .postOrder hw' hs', hleads, fun h => by cases h⟩
      · obtain ⟨hs', hleads⟩ := hs.leads_enter succ
        rcases hw.turn_of_not_mem succ hv.1 hopened with ⟨hno, _⟩ | ⟨w', hturn, hw'⟩
        · exact absurd hv hno
        rw [PostOrderWalk.next, hturn, Reply.done_andThen]
        refine .of_leads hleads (ih w' _ _ hw' hs' (hleads.forall_known hmark hsucc) ?_)
        have hless : load succ region (insert v V.opened) _ < _ := load_enter rest hregion hopened
        exact Nat.lt_of_lt_of_le hless (Nat.le_of_lt_succ hload)

omit hsucc

/-- Where all vertices can be marked, a step of any of the three walks leads on by the edges of the
graph as it is. -/
theorem Shows.advances {g : Network} {w : Walk} (h : w.Shows V)
    (hsucc : ∀ u, ∀ c ∈ g.successors u, Markable c) (hmark : ∀ v ∈ V.known, Markable v) :
    Advances g.successors V (w.next g) := by
  cases h with
  | preOrder hw hq => exact advances_preOrder hsucc hw hq
  | level hw hq => exact advances_level hsucc hw hq
  | @postOrder w _ stack hw hs =>
    have hregion : ∀ u, u ∉ Finset.Ico (0 : Int) g.extent → g.successors u = [] := by
      intro u hu
      rw [Finset.mem_Ico] at hu
      exact g.successors_eq_nil u (by omega)
    refine advances_postOrder hsucc hregion _ w V stack hw hs hmark ?_
    have hload := load_le g.successors (Finset.Ico (0 : Int) g.extent) V.opened stack
    have hbound := g.sum_length_successors_le (Finset.Ico (0 : Int) g.extent \ V.opened)
    unfold PostOrderWalk.turnBound
    rw [hw.stack_eq]
    unfold pending at hload
    omega

/-! ## The ends of a walk -/

/-- There is nothing left to walk to. -/
def Finished : Walk → Prop
  | .preOrder w => w.stack = []
  | .postOrder w => w.stack = []
  | .level w => w.queue = []
  | .topological _ => False

/-- Whatever the graph has become, a finished walk stays as it is. -/
theorem Finished.next {w : Walk} (h : w.Finished) (g : Network) :
    (w.next g).result = .ok none ∧ (w.next g).state = w := by
  cases w with
  | preOrder w =>
    obtain ⟨stack, found⟩ := w
    obtain rfl : stack = [] := h
    exact ⟨rfl, rfl⟩
  | postOrder w =>
    obtain ⟨stack, found, done⟩ := w
    obtain rfl : stack = [] := h
    exact ⟨rfl, rfl⟩
  | level w =>
    show ((w.next g.successors).mapState Walk.level).result = _ ∧
      ((w.next g.successors).mapState Walk.level).state = _
    rw [w.next_of_queue_nil g.successors h]
    exact ⟨rfl, rfl⟩
  | topological w => exact absurd h id

theorem Shows.finished {w : Walk} (h : w.Shows V) (hwaiting : V.waiting = ∅) : w.Finished := by
  cases h with
  | preOrder hw hq => exact hw.stack_eq.trans (hq.eq_nil hwaiting)
  | postOrder hw hs => exact hw.stack_eq.trans (hs.eq_nil hwaiting)
  | level _ hq => exact hq.eq_nil hwaiting

/-- The walk is one of the three that begin at `start`. -/
inductive Begins (start : Int) : Walk → Prop
  | preOrder {w : PreOrderWalk} (h : PreOrderWalk.startAt start = .ok w) :
      Begins start (.preOrder w)
  | postOrder : Begins start (.postOrder (.startAt start))
  | level {w : LevelWalk} (h : LevelWalk.startAt start = .ok w) : Begins start (.level w)

/-- A walk begins with its start waiting. Where there may be no room for the start, only the
post-order walk begins: it has not tried to mark it yet. -/
theorem Begins.shows {start : Int} (h0 : 0 ≤ start) {w : Walk} (h : w.Begins start) :
    Markable start ∧ w.Shows (View.initial start) ∨
      ¬ Markable start ∧ w = .postOrder (.startAt start) := by
  rcases Marks.mark_empty_cases h0 with ⟨hno, hmark⟩ | ⟨hyes, marks, hmark, hmarks⟩
  · refine .inr ⟨hno, ?_⟩
    cases h with
    | postOrder => rfl
    | preOrder h =>
      simp only [PreOrderWalk.startAt, hmark, Reply.fail, Except.map] at h
      cases h
    | level h =>
      simp only [LevelWalk.startAt, hmark, Reply.fail, Except.map] at h
      cases h
  · refine .inl ⟨hyes, ?_⟩
    rw [← View.known_initial start] at hmarks
    cases h with
    | postOrder =>
      exact .postOrder (PostOrderWalk.stands_startAt start) (View.stacked_initial start)
    | preOrder h =>
      simp only [PreOrderWalk.startAt, hmark, Reply.done, Except.map] at h
      cases h
      exact .preOrder ⟨rfl, hmarks⟩ (View.queued_initial start)
    | level h =>
      simp only [LevelWalk.startAt, hmark, Reply.done, Except.map] at h
      cases h
      exact .level hmarks (View.queued_initial start)

/-- Each step of a walk whose start cannot be marked is refused, and leaves it as it was. -/
theorem next_of_not_markable {start : Int} (h0 : 0 ≤ start) (hno : ¬ Markable start)
    (g : Network) :
    (∃ e, ((Walk.postOrder (.startAt start)).next g).result = .error e) ∧
      ((Walk.postOrder (.startAt start)).next g).state = .postOrder (.startAt start) := by
  rcases Marks.mark_empty_cases h0 with ⟨_, hmark⟩ | ⟨hyes, _⟩
  · have hturn : (PostOrderWalk.startAt start).turn g.successors =
        .fail (Length.refusal (start + 1)) (.startAt start) := by
      simp only [PostOrderWalk.startAt, PostOrderWalk.turn, hmark, Reply.fail]
    have hnext : (PostOrderWalk.startAt start).nextOn g =
        .fail (Length.refusal (start + 1)) (.startAt start) := by
      rw [PostOrderWalk.nextOn, PostOrderWalk.turnBound, PostOrderWalk.next, hturn,
        Reply.fail_andThen]
    have hwalk : (Walk.postOrder (.startAt start)).next g =
        ((PostOrderWalk.startAt start).nextOn g).mapState .postOrder := rfl
    rw [hwalk, hnext]
    exact ⟨⟨_, rfl⟩, rfl⟩
  · exact absurd hyes hno

end Walk

end IndexGraph
