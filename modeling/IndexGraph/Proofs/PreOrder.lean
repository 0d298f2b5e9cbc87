import IndexGraph.Proofs.Marks
import IndexGraph.Proofs.Span
import IndexGraph.Proofs.Yields
import IndexGraph.Walk.DepthFirst
import Mathlib.Data.List.Nodup

/-
  The pre-order walk as a recursive search. `Branches succ found todo found' out`: the vertices of
  `todo`, which are marked already, are entered in turn; a vertex is reported on entry, marks all
  of its unmarked successors at once, and has these entered from the last one to the first. The walk
  reports what this search reports (`exists_yields`), each reachable vertex once.
  The depth-first search that marks a vertex on entry (`Enters`) is another one: it enters a vertex
  from the first vertex that comes to it, where here it waits for the one that marked it. The two
  agree where no vertex is listed twice as a successor (`Branches.enters`), and differ in general
  (`preOrder_ne_enters`).
-/

namespace IndexGraph

/-- Depth-first search by recursion, with the vertices reported on entry. A vertex is marked when it
is entered, and its successors are tried from the last one listed to the first. -/
inductive Enters (succ : Int → List Int) :
    Finset Int → List Int → Finset Int → List Int → Prop
  | nil (found : Finset Int) : Enters succ found [] found []
  | skip {found found' : Finset Int} {v : Int} {todo out : List Int} (hv : v ∈ found)
      (h : Enters succ found todo found' out) : Enters succ found (v :: todo) found' out
  | enter {found within found' : Finset Int} {v : Int} {todo inner outer : List Int}
      (hv : v ∉ found) (hin : Enters succ (insert v found) (succ v).reverse within inner)
      (hout : Enters succ within todo found' outer) :
      Enters succ found (v :: todo) found' (v :: (inner ++ outer))

/-- Search by recursion in which a vertex that is entered marks all of its successors. -/
inductive Branches (succ : Int → List Int) :
    Finset Int → List Int → Finset Int → List Int → Prop
  | nil (found : Finset Int) : Branches succ found [] found []
  | enter {found within found' : Finset Int} {v : Int} {todo inner outer : List Int}
      (hin : Branches succ (found ∪ (succ v).toFinset)
        (Marks.newcomers found (succ v)).reverse within inner)
      (hout : Branches succ within todo found' outer) :
      Branches succ found (v :: todo) found' (v :: (inner ++ outer))

theorem Enters.unique {succ : Int → List Int} {found found' found'' : Finset Int}
    {todo out out' : List Int} (h : Enters succ found todo found' out)
    (h' : Enters succ found todo found'' out') : found'' = found' ∧ out' = out := by
  induction h generalizing found'' out' with
  | nil =>
    cases h'
    exact ⟨rfl, rfl⟩
  | skip hv _ ih =>
    cases h' with
    | skip _ h' => exact ih h'
    | enter hv' _ _ => exact absurd hv hv'
  | enter hv _ _ ihin ihout =>
    cases h' with
    | skip hv' _ => exact absurd hv' hv
    | enter _ hin' hout' =>
      obtain ⟨rfl, rfl⟩ := ihin hin'
      obtain ⟨rfl, rfl⟩ := ihout hout'
      exact ⟨rfl, rfl⟩

namespace Branches

variable {succ : Int → List Int} {found found' : Finset Int} {todo out : List Int}

theorem unique (h : Branches succ found todo found' out) {found'' : Finset Int} {out' : List Int}
    (h' : Branches succ found todo found'' out') : found'' = found' ∧ out' = out := by
  induction h generalizing found'' out' with
  | nil =>
    cases h'
    exact ⟨rfl, rfl⟩
  | enter _ _ ihin ihout =>
    cases h' with
    | enter hin' hout' =>
      obtain ⟨rfl, rfl⟩ := ihin hin'
      obtain ⟨rfl, rfl⟩ := ihout hout'
      exact ⟨rfl, rfl⟩

theorem found_subset (h : Branches succ found todo found' out) : found ⊆ found' := by
  induction h with
  | nil => exact Finset.Subset.refl _
  | enter _ _ ihin ihout => exact (Finset.subset_union_left.trans ihin).trans ihout

theorem todo_subset (h : Branches succ found todo found' out) : ∀ v ∈ todo, v ∈ out := by
  induction h with
  | nil => exact fun v hv => hv
  | enter _ _ _ ihout =>
    intro x hx
    rcases List.mem_cons.1 hx with rfl | hx
    · exact List.mem_cons_self
    · exact List.mem_cons_of_mem _ (List.mem_append_right _ (ihout x hx))

/-- What is newly marked is listed by a vertex that is reported. -/
theorem mem_found_iff (h : Branches succ found todo found' out) {v : Int} :
    v ∈ found' ↔ v ∈ found ∨ ∃ u ∈ out, v ∈ succ u := by
  induction h with
  | nil => simp
  | @enter found within found' u todo inner outer _ _ ihin ihout =>
    rw [ihout, ihin, Finset.mem_union, List.mem_toFinset]
    simp only [List.mem_cons, List.mem_append, or_and_right, exists_or, exists_eq_left]
    simp only [or_assoc]

/-- What is newly marked is reported. -/
theorem mem_out_of_mem_found (h : Branches succ found todo found' out) :
    ∀ v ∈ found', v ∈ found ∨ v ∈ out := by
  induction h with
  | nil => exact fun v hv => .inl hv
  | @enter found _ _ u _ _ _ hin _ ihin ihout =>
    intro x hx
    rcases ihout x hx with hx | hx
    · rcases ihin x hx with hx | hx
      · rcases Finset.mem_union.1 hx with hx | hx
        · exact .inl hx
        · by_cases hxf : x ∈ found
          · exact .inl hxf
          · have hnew := Marks.mem_newcomers.2 ⟨List.mem_toFinset.1 hx, hxf⟩
            have hxin := hin.todo_subset x (List.mem_reverse.2 hnew)
            exact .inr (List.mem_cons_of_mem _ (List.mem_append_left _ hxin))
      · exact .inr (List.mem_cons_of_mem _ (List.mem_append_left _ hx))
    · exact .inr (List.mem_cons_of_mem _ (List.mem_append_right _ hx))

/-- What is reported was asked for, or was not marked before. -/
theorem mem_todo_or_not_mem (h : Branches succ found todo found' out) :
    ∀ v ∈ out, v ∈ todo ∨ v ∉ found := by
  induction h with
  | nil => exact fun v hv => .inl hv
  | enter hin _ ihin ihout =>
    intro x hx
    rcases List.mem_cons.1 hx with rfl | hx
    · exact .inl List.mem_cons_self
    rcases List.mem_append.1 hx with hx | hx
    · rcases ihin x hx with hnew | hno
      · exact .inr (Marks.mem_newcomers.1 (List.mem_reverse.1 hnew)).2
      · exact .inr fun hxf => hno (Finset.mem_union_left _ hxf)
    · rcases ihout x hx with htodo | hno
      · exact .inl (List.mem_cons_of_mem _ htodo)
      · exact .inr fun hxf => hno (hin.found_subset (Finset.mem_union_left _ hxf))

/-- The vertices that are asked for are different and marked. -/
structure Waiting (found : Finset Int) (todo : List Int) : Prop where
  nodup : todo.Nodup
  marked : ∀ v ∈ todo, v ∈ found

namespace Waiting

variable {v : Int}

theorem singleton (v : Int) : Waiting {v} [v] := by
  refine ⟨List.nodup_singleton v, fun w hw => ?_⟩
  rw [List.mem_singleton.1 hw]
  exact Finset.mem_singleton_self v

theorem tail (h : Waiting found (v :: todo)) {within : Finset Int} (hsub : found ⊆ within) :
    Waiting within todo where
  nodup := (List.nodup_cons.1 h.nodup).2
  marked w hw := hsub (h.marked w (List.mem_cons_of_mem v hw))

variable (succ) in
theorem newcomers (found : Finset Int) (v : Int) :
    Waiting (found ∪ (succ v).toFinset) (Marks.newcomers found (succ v)).reverse where
  nodup := List.nodup_reverse.2 (Marks.nodup_newcomers _ _)
  marked w hw := by
    have hw := (Marks.mem_newcomers.1 (List.mem_reverse.1 hw)).1
    exact Finset.mem_union_right _ (List.mem_toFinset.2 hw)

end Waiting

/-- What is reported is marked in the end. -/
theorem out_subset (h : Branches succ found todo found' out) (hw : Waiting found todo) :
    ∀ v ∈ out, v ∈ found' := by
  induction h with
  | nil => exact fun v hv => absurd hv List.not_mem_nil
  | @enter found within found' v todo inner outer hin hout ihin ihout =>
    have hsub : found ⊆ within := Finset.subset_union_left.trans hin.found_subset
    intro x hx
    rcases List.mem_cons.1 hx with rfl | hx
    · exact hout.found_subset (hsub (hw.marked x List.mem_cons_self))
    rcases List.mem_append.1 hx with hx | hx
    · exact hout.found_subset (ihin (.newcomers succ _ v) x hx)
    · exact ihout (hw.tail hsub) x hx

/-- What is reported within a vertex was not marked before. -/
theorem not_mem_of_mem_inner {within : Finset Int} {v : Int} {inner : List Int}
    (hin : Branches succ (found ∪ (succ v).toFinset) (Marks.newcomers found (succ v)).reverse
      within inner) : ∀ x ∈ inner, x ∉ found := by
  intro x hx hxf
  rcases hin.mem_todo_or_not_mem x hx with hnew | hno
  · exact (Marks.mem_newcomers.1 (List.mem_reverse.1 hnew)).2 hxf
  · exact hno (Finset.mem_union_left _ hxf)

/-- No vertex is reported twice. -/
theorem nodup (h : Branches succ found todo found' out) (hw : Waiting found todo) : out.Nodup := by
  induction h with
  | nil => exact List.nodup_nil
  | @enter found within found' v todo inner outer hin hout ihin ihout =>
    have hsub : found ⊆ within := Finset.subset_union_left.trans hin.found_subset
    have hvf : v ∈ found := hw.marked v List.mem_cons_self
    have hnew := not_mem_of_mem_inner hin
    have hinner := ihin (.newcomers succ _ v)
    have houter := ihout (hw.tail hsub)
    refine List.nodup_cons.2 ⟨fun hmem => ?_, hinner.append houter fun x hx hx' => ?_⟩
    · rcases List.mem_append.1 hmem with hmem | hmem
      · exact hnew v hmem hvf
      · rcases hout.mem_todo_or_not_mem v hmem with htodo | hno
        · exact (List.nodup_cons.1 hw.nodup).1 htodo
        · exact hno (hsub hvf)
    · rcases hout.mem_todo_or_not_mem x hx' with htodo | hno
      · exact hnew x hx (hw.marked x (List.mem_cons_of_mem v htodo))
      · exact hno (hin.out_subset (.newcomers succ _ v) x hx)

/-- What is reported is reached from a vertex that was asked for. -/
theorem exists_reaches (h : Branches succ found todo found' out) :
    ∀ v ∈ out, ∃ u ∈ todo, Reaches succ u v := by
  induction h with
  | nil => exact fun v hv => absurd hv List.not_mem_nil
  | @enter _ _ _ v _ _ _ _ _ ihin ihout =>
    intro x hx
    rcases List.mem_cons.1 hx with rfl | hx
    · exact ⟨x, List.mem_cons_self, Reaches.refl succ x⟩
    rcases List.mem_append.1 hx with hx | hx
    · obtain ⟨u, hu, hr⟩ := ihin x hx
      have hu := (Marks.mem_newcomers.1 (List.mem_reverse.1 hu)).1
      exact ⟨v, List.mem_cons_self, hr.head hu⟩
    · obtain ⟨u, hu, hr⟩ := ihout x hx
      exact ⟨u, List.mem_cons_of_mem _ hu, hr⟩

/-- A search from one vertex reports what that vertex reaches. -/
theorem mem_out_iff {s v : Int} (h : Branches succ {s} [s] found' out) :
    v ∈ out ↔ Reaches succ s v := by
  have hs : s ∈ out := h.todo_subset s (List.mem_singleton_self s)
  constructor
  · intro hv
    obtain ⟨u, hu, hr⟩ := h.exists_reaches v hv
    rwa [List.mem_singleton.1 hu] at hr
  · intro hr
    induction hr with
    | refl => exact hs
    | tail _ he ih =>
      rcases h.mem_out_of_mem_found _ (h.mem_found_iff.2 (.inr ⟨_, ih, he⟩)) with hv | hv
      · rwa [Finset.mem_singleton.1 hv]
      · exact hv

/-- The one vertex that a search is started with comes first. -/
theorem head?_eq {s : Int} (h : Branches succ {s} [s] found' out) : out.head? = some s := by
  cases h with
  | enter _ _ => rfl

/-- Each vertex that is reported was asked for, or is an entry in a list of successors. -/
theorem length_le (h : Branches succ found todo found' out) :
    out.length ≤ todo.length + (out.map fun u => (succ u).length).sum := by
  induction h with
  | nil => exact Nat.le_refl 0
  | @enter found _ _ v _ _ _ _ _ ihin ihout =>
    have hle := Marks.length_newcomers_le found (succ v)
    simp only [List.length_cons, List.length_append, List.map_cons, List.map_append,
      List.sum_cons, List.sum_append]
    rw [List.length_reverse] at ihin
    omega

end Branches

/-- The search ends in every finite region that no edge leaves: a vertex that marks others uses
them up. -/
theorem exists_branches {succ : Int → List Int} {region : Finset Int}
    (hclosed : Closed succ region) (found : Finset Int) (todo : List Int)
    (htodo : ∀ v ∈ todo, v ∈ region) : ∃ found' out, Branches succ found todo found' out := by
  generalize hn : (region \ found).card = n
  induction n using Nat.strong_induction_on generalizing found todo with
  | _ n ihn =>
    induction todo generalizing found with
    | nil => exact ⟨found, [], .nil found⟩
    | cons v todo ih =>
      have hv : v ∈ region := htodo v List.mem_cons_self
      have hrest : ∀ w ∈ todo, w ∈ region := fun w hw => htodo w (List.mem_cons_of_mem v hw)
      have hinner : ∃ within inner, Branches succ (found ∪ (succ v).toFinset)
          (Marks.newcomers found (succ v)).reverse within inner := by
        by_cases hnone : Marks.newcomers found (succ v) = []
        · rw [hnone]
          exact ⟨_, _, .nil _⟩
        obtain ⟨w, hw⟩ := List.exists_mem_of_ne_nil _ hnone
        obtain ⟨hwv, hwf⟩ := Marks.mem_newcomers.1 hw
        have hlt : (region \ (found ∪ (succ v).toFinset)).card < n := by
          rw [← hn]
          refine Finset.card_lt_card ((Finset.ssubset_iff_of_subset ?_).2 ⟨w, ?_, ?_⟩)
          · exact Finset.sdiff_subset_sdiff (Finset.Subset.refl _) Finset.subset_union_left
          · exact Finset.mem_sdiff.2 ⟨hclosed v hv w hwv, hwf⟩
          · simp [hwv]
        refine ihn _ hlt _ _ (fun x hx => hclosed v hv x ?_) rfl
        exact (Marks.mem_newcomers.1 (List.mem_reverse.1 hx)).1
      obtain ⟨within, inner, hin⟩ := hinner
      have hle : (region \ within).card ≤ n := by
        rw [← hn]
        exact Finset.card_le_card (Finset.sdiff_subset_sdiff (Finset.Subset.refl _)
          (Finset.subset_union_left.trans hin.found_subset))
      obtain ⟨found', outer, hout⟩ : ∃ found' outer, Branches succ within todo found' outer := by
        rcases Nat.lt_or_eq_of_le hle with hlt | heq
        · exact ihn _ hlt _ _ hrest rfl
        · exact ih within hrest heq
      exact ⟨found', v :: (inner ++ outer), .enter hin hout⟩

/-! ## The walk -/

namespace PreOrderWalk

variable {succ : Int → List Int} {w : PreOrderWalk} {v : Int} {rest stack : List Int}
  {found : Finset Int}

/-- The walk `w` stands before `stack`, having found `found`. -/
structure Stands (w : PreOrderWalk) (stack : List Int) (found : Finset Int) : Prop where
  stack_eq : w.stack = stack
  found_holds : w.found.Holds found

/-- A step reports the vertex on top of the stack and marks its successors, unless it comes to one
for which there may be no room. -/
theorem Stands.next_cases (h : w.Stands (v :: rest) found) (hpos : ∀ c ∈ succ v, 0 ≤ c) :
    ((∃ c ∈ succ v, ¬ Markable c) ∧ ∃ k, (w.next succ).result = .error (Length.refusal k)) ∨
      (w.next succ).result = .ok (some v) ∧ (w.next succ).state.Stands
        ((Marks.newcomers found (succ v)).reverse ++ rest) (found ∪ (succ v).toFinset) := by
  obtain ⟨stack, marks⟩ := w
  obtain ⟨rfl, hfound⟩ := h
  rcases hfound.markAll_cases hpos rest with ⟨hno, k, hfault⟩ | ⟨hfault, hfresh, hmarks⟩
  · refine .inl ⟨hno, k, ?_⟩
    simp only [next, Marks.Sweep.outcome, hfault]
  · refine .inr ⟨?_, hfresh, hmarks⟩
    simp only [next, Marks.Sweep.outcome, hfault]

/-- The steps that report the vertices of `out` are cut short, as there may be no room for a
successor of one of these. -/
def Stuck (succ : Int → List Int) (out : List Int) (w : PreOrderWalk) : Prop :=
  (∃ u ∈ out, ∃ c ∈ succ u, ¬ Markable c) ∧ ∃ part w' k, part.length ≤ out.length ∧
    Yields (next succ) w part w' ∧ (w'.next succ).result = .error (Length.refusal k)

theorem Stuck.prepend {w' : PreOrderWalk} {out out' all : List Int}
    (h : Yields (next succ) w out w') (h' : Stuck succ out' w')
    (hlength : out.length + out'.length ≤ all.length) (hall : ∀ u ∈ out', u ∈ all) :
    Stuck succ all w := by
  obtain ⟨⟨u, hu, hc⟩, part, w'', k, hpart, hyields, hnext⟩ := h'
  refine ⟨⟨u, hall u hu, hc⟩, out ++ part, w'', k, ?_, h.trans hyields, hnext⟩
  rw [List.length_append]
  omega

/-- The search is a sequence of steps, unless one of these is refused. -/
theorem exists_yields {found' : Finset Int} {todo out : List Int}
    (h : Branches succ found todo found' out) (hpos : ∀ u ∈ out, ∀ c ∈ succ u, 0 ≤ c) :
    ∀ (rest : List Int) (w : PreOrderWalk), w.Stands (todo ++ rest) found →
      Stuck succ out w ∨ ∃ w', Yields (next succ) w out w' ∧ w'.Stands rest found' := by
  induction h with
  | nil => exact fun rest w hw => .inr ⟨w, .nil w, hw⟩
  | @enter found within found' v todo inner outer hin hout ihin ihout =>
    intro rest w hw
    have hposv := hpos v List.mem_cons_self
    have hposin : ∀ u ∈ inner, ∀ c ∈ succ u, 0 ≤ c := fun u hu => hpos u (by simp [hu])
    have hposout : ∀ u ∈ outer, ∀ c ∈ succ u, 0 ≤ c := fun u hu => hpos u (by simp [hu])
    rcases hw.next_cases hposv with ⟨hno, k, hnext⟩ | ⟨hnext, hw₁⟩
    · exact .inl ⟨⟨v, List.mem_cons_self, hno⟩, [], w, k, Nat.zero_le _, .nil w, hnext⟩
    have hyield : Yields (next succ) w [v] (w.next succ).state := .cons hnext (.nil _)
    rcases ihin hposin (todo ++ rest) _ hw₁ with hstuck | ⟨w₂, hyields, hw₂⟩
    · exact .inl (hstuck.prepend hyield (by simp; omega) fun u hu => by simp [hu])
    have hyields := hyield.trans hyields
    rcases ihout hposout rest w₂ hw₂ with hstuck | ⟨w₃, hyields', hw₃⟩
    · exact .inl (hstuck.prepend hyields (by simp; omega) fun u hu => by simp [hu])
    · exact .inr ⟨w₃, by simpa using hyields.trans hyields', hw₃⟩

/-- A walk begins with its start marked, unless there may be no room for the start. -/
theorem startAt_cases {start : Int} (h0 : 0 ≤ start) :
    (¬ Markable start ∧ ∃ k, startAt start = .error (Length.refusal k)) ∨
      ∃ w, startAt start = .ok w ∧ w.Stands [start] {start} := by
  rcases Marks.holds_empty.mark_cases h0 with ⟨hno, k, hmark⟩ | ⟨marks, hmark, hmarks⟩
  · refine .inl ⟨hno, k, ?_⟩
    simp only [startAt, hmark, Reply.fail, Except.map]
  · refine .inr ⟨⟨[start], marks⟩, ?_, rfl, hmarks⟩
    simp only [startAt, hmark, Reply.done, Except.map]

/-- The walk ends and answers what the search reports. -/
theorem drain_answered {start : Int} {found' : Finset Int} {order : List Int}
    (h : Branches succ {start} [start] found' order)
    (hpos : ∀ v, Reaches succ start v → 0 ≤ v) (hw : w.Stands [start] {start}) :
    ∃ r, Answered order r ∧ ∀ k, order.length < k → (Reply.drain (next succ) k w).result = r := by
  have hreach : ∀ u ∈ order, ∀ c ∈ succ u, Reaches succ start c := fun u hu c hc =>
    (h.mem_out_iff.1 hu).tail hc
  rcases exists_yields h (fun u hu c hc => hpos c (hreach u hu c hc)) [] w hw with
    ⟨⟨u, hu, c, hc, hno⟩, part, w', k, hpart, hyields, hnext⟩ | ⟨w', hyields, hw'⟩
  · refine ⟨_, .inr ⟨⟨c, h.mem_out_iff.2 (hreach u hu c hc), hno⟩, k, rfl⟩, fun j hj => ?_⟩
    exact hyields.drain_eq_error hnext (Nat.lt_of_le_of_lt hpart hj)
  · refine ⟨_, .inl rfl, fun j hj => hyields.drain_eq_ok ?_ hj⟩
    obtain ⟨stack, marks⟩ := w'
    obtain rfl : stack = [] := hw'.stack_eq
    rfl

end PreOrderWalk

/-- The walk of a network is drained within its bounds. -/
theorem Network.preOrder_answered (g : Network) {start : Int}
    (hpos : ∀ v, Reaches g.successors start v → 0 ≤ v) {found' : Finset Int} {order : List Int}
    (h : Branches g.successors {start} [start] found' order) :
    Answered order (g.preOrder start) := by
  rcases PreOrderWalk.startAt_cases (hpos start (Reaches.refl _ _)) with
    ⟨hno, k, hstart⟩ | ⟨w, hstart, hw⟩
  · refine .inr ⟨⟨start, h.mem_out_iff.2 (Reaches.refl _ _), hno⟩, k, ?_⟩
    rw [preOrder, hstart]
    rfl
  · obtain ⟨r, hr, hdrain⟩ := PreOrderWalk.drain_answered h hpos hw
    have hbound : order.length < w.stack.length + g.successorBound + 1 := by
      have hsum : (order.map fun u => (g.successors u).length).sum ≤ g.successorBound := by
        rw [← List.sum_toFinset _ (h.nodup (.singleton start))]
        exact g.sum_length_successors_le order.toFinset
      have hlength := h.length_le
      rw [hw.stack_eq]
      omega
    have hcall : g.preOrder start = r := by
      rw [preOrder, hstart]
      exact hdrain _ hbound
    rwa [hcall]

/-! ## Depth-first search on entry -/

/-- Of the vertices that `start` reaches none is listed twice as a successor, and `start` is not
listed: they form a tree. -/
structure ListedOnce (succ : Int → List Int) (start : Int) : Prop where
  nodup : ∀ u, Reaches succ start u → (succ u).Nodup
  sole : ∀ u u' v, Reaches succ start u → Reaches succ start u' → v ∈ succ u → v ∈ succ u' →
    u = u'
  start_not_mem : ∀ u, Reaches succ start u → start ∉ succ u

/-- A search may begin in which the vertices of `entered` have been entered: what is marked besides
was listed by one of them. -/
structure Handed (succ : Int → List Int) (start : Int) (entered found : Finset Int)
    (todo : List Int) : Prop where
  waiting : Branches.Waiting found todo
  entered_subset : entered ⊆ found
  not_entered : ∀ v ∈ todo, v ∉ entered
  listed : ∀ c ∈ found, c = start ∨ ∃ u ∈ entered, c ∈ succ u
  reached : ∀ v, v ∈ todo ∨ v ∈ entered → Reaches succ start v

namespace Handed

variable {succ : Int → List Int} {start v : Int} {entered found within : Finset Int}
  {todo inner : List Int} (h : Handed succ start entered found (v :: todo))
include h

/-- The successors of a vertex that is not entered yet are all new. -/
theorem newcomers_eq (hone : ListedOnce succ start) : Marks.newcomers found (succ v) = succ v := by
  have hv := h.reached v (.inl List.mem_cons_self)
  refine Marks.newcomers_eq_self (hone.nodup v hv) fun c hc hmem => ?_
  rcases h.listed c hmem with rfl | ⟨u, hu, hcu⟩
  · exact hone.start_not_mem v hv hc
  · obtain rfl := hone.sole u v c (h.reached u (.inr hu)) hv hcu hc
    exact h.not_entered u List.mem_cons_self hu

theorem inside (hone : ListedOnce succ start) : Handed succ start (insert v entered)
    (found ∪ (succ v).toFinset) (succ v).reverse := by
  have hv := h.reached v (.inl List.mem_cons_self)
  have hvf := h.waiting.marked v List.mem_cons_self
  have hnew : ∀ c ∈ succ v, c ∉ found := fun c hc => by
    rw [← h.newcomers_eq hone] at hc
    exact (Marks.mem_newcomers.1 hc).2
  have hwaiting := Branches.Waiting.newcomers succ found v
  rw [h.newcomers_eq hone] at hwaiting
  refine ⟨hwaiting, ?_, fun c hc hmem => ?_, fun c hc => ?_, fun c hc => ?_⟩
  · exact Finset.insert_subset (Finset.mem_union_left _ hvf)
      (h.entered_subset.trans Finset.subset_union_left)
  · have hcf := hnew c (List.mem_reverse.1 hc)
    rcases Finset.mem_insert.1 hmem with rfl | hmem
    · exact hcf hvf
    · exact hcf (h.entered_subset hmem)
  · rcases Finset.mem_union.1 hc with hc | hc
    · refine (h.listed c hc).imp_right fun hex => ?_
      obtain ⟨u, hu, hcu⟩ := hex
      exact ⟨u, Finset.mem_insert_of_mem hu, hcu⟩
    · exact .inr ⟨v, Finset.mem_insert_self v entered, List.mem_toFinset.1 hc⟩
  · rcases hc with hc | hc
    · exact hv.tail (List.mem_reverse.1 hc)
    · rcases Finset.mem_insert.1 hc with rfl | hc
      · exact hv
      · exact h.reached c (.inr hc)

theorem after (hin : Branches succ (found ∪ (succ v).toFinset)
    (Marks.newcomers found (succ v)).reverse within inner) :
    Handed succ start (insert v entered ∪ inner.toFinset) within todo := by
  have hv := h.reached v (.inl List.mem_cons_self)
  have hsub : found ⊆ within := Finset.subset_union_left.trans hin.found_subset
  have hinner := hin.not_mem_of_mem_inner
  refine ⟨h.waiting.tail hsub, ?_, fun c hc hmem => ?_, fun c hc => ?_, fun c hc => ?_⟩
  · refine Finset.union_subset (Finset.insert_subset ?_ (h.entered_subset.trans hsub)) ?_
    · exact hsub (h.waiting.marked v List.mem_cons_self)
    · exact fun x hx => hin.out_subset (.newcomers succ found v) x (List.mem_toFinset.1 hx)
  · rw [Finset.mem_union, Finset.mem_insert, List.mem_toFinset] at hmem
    rcases hmem with (rfl | hmem) | hmem
    · exact (List.nodup_cons.1 h.waiting.nodup).1 hc
    · exact h.not_entered c (List.mem_cons_of_mem v hc) hmem
    · exact hinner c hmem (h.waiting.marked c (List.mem_cons_of_mem v hc))
  · rcases hin.mem_found_iff.1 hc with hc | ⟨u, hu, hcu⟩
    · rcases Finset.mem_union.1 hc with hc | hc
      · refine (h.listed c hc).imp_right fun hex => ?_
        obtain ⟨u, hu, hcu⟩ := hex
        exact ⟨u, Finset.mem_union_left _ (Finset.mem_insert_of_mem hu), hcu⟩
      · exact .inr ⟨v, Finset.mem_union_left _ (Finset.mem_insert_self v entered),
          List.mem_toFinset.1 hc⟩
    · exact .inr ⟨u, Finset.mem_union_right _ (List.mem_toFinset.2 hu), hcu⟩
  · rw [Finset.mem_union, Finset.mem_insert, List.mem_toFinset] at hc
    rcases hc with hc | (rfl | hc) | hc
    · exact h.reached c (.inl (List.mem_cons_of_mem v hc))
    · exact hv
    · exact h.reached c (.inr hc)
    · obtain ⟨u, hu, hr⟩ := hin.exists_reaches c hc
      have hu := (Marks.mem_newcomers.1 (List.mem_reverse.1 hu)).1
      exact (hv.tail hu).trans hr

end Handed

/-- On a tree a vertex is entered from the vertex that marked it. -/
theorem Branches.enters {succ : Int → List Int} {start : Int} (hone : ListedOnce succ start)
    {found found' : Finset Int} {todo out : List Int}
    (h : Branches succ found todo found' out) (entered : Finset Int)
    (hh : Handed succ start entered found todo) :
    Enters succ entered todo (entered ∪ out.toFinset) out := by
  induction h generalizing entered with
  | nil found => simpa using Enters.nil entered
  | @enter found within found' v todo inner outer hin hout ihin ihout =>
    have hafter := hh.after hin
    rw [hh.newcomers_eq hone] at ihin
    have hunion : insert v entered ∪ inner.toFinset ∪ outer.toFinset =
        entered ∪ (v :: (inner ++ outer)).toFinset := by
      rw [List.toFinset_cons, List.toFinset_append, Finset.union_insert, Finset.insert_union,
        Finset.insert_union, Finset.union_assoc]
    rw [← hunion]
    exact .enter (hh.not_entered v List.mem_cons_self) (ihin _ (hh.inside hone))
      (ihout _ hafter)

/-- On every graph in which finitely many vertices are reached from the start, none of them
negative, there is exactly one search in which each vertex marks all of its successors when it is
entered; it reports each of these vertices once, and the start first. On a tree it is the
depth-first search. Draining the walk ends and answers the same, unless there may be no room for
the flag of a reached vertex; the bounds of a network are large enough for it. -/
theorem preOrder_branches (succ : Int → List Int) (start : Int)
    (hfin : {v | Reaches succ start v}.Finite) (hpos : ∀ v, Reaches succ start v → 0 ≤ v) :
    ∃ order, (∃ found, Branches succ {start} [start] found order) ∧
      (∀ found' order', Branches succ {start} [start] found' order' → order' = order) ∧
      order.Nodup ∧ (∀ v, v ∈ order ↔ Reaches succ start v) ∧ order.head? = some start ∧
      (ListedOnce succ start → ∃ found, Enters succ ∅ [start] found order) ∧
      (∃ r bound, Answered order r ∧ ∀ k, bound < k →
        ((PreOrderWalk.startAt start).bind fun w =>
          (Reply.drain (PreOrderWalk.next succ) k w).result) = r) ∧
      ∀ g : Network, g.successors = succ → Answered order (g.preOrder start) := by
  obtain ⟨region, hclosed, hmem⟩ := exists_region hfin
  have hstart := Reaches.refl succ start
  obtain ⟨found, order, h⟩ := exists_branches hclosed {start} [start] fun v hv => by
    rw [List.mem_singleton.1 hv]
    exact (hmem start).2 hstart
  refine ⟨order, ⟨found, h⟩, fun _ _ h' => (h.unique h').2, h.nodup (.singleton start),
    fun v => h.mem_out_iff, h.head?_eq, fun hone => ?_, ?_, fun g hg => ?_⟩
  · have hhanded : Handed succ start ∅ {start} [start] := by
      refine ⟨.singleton start, Finset.empty_subset _, fun v _ => Finset.notMem_empty v,
        fun c hc => .inl (Finset.mem_singleton.1 hc), fun v hv => ?_⟩
      rcases hv with hv | hv
      · rwa [List.mem_singleton.1 hv]
      · exact absurd hv (Finset.notMem_empty v)
    exact ⟨_, h.enters hone ∅ hhanded⟩
  · rcases PreOrderWalk.startAt_cases (hpos start hstart) with ⟨hno, k, hcall⟩ | ⟨w, hcall, hw⟩
    · refine ⟨.error (Length.refusal k), 0, .inr ⟨⟨start, h.mem_out_iff.2 hstart, hno⟩, k, rfl⟩,
        fun j _ => ?_⟩
      rw [hcall]
      rfl
    · obtain ⟨r, hr, hdrain⟩ := PreOrderWalk.drain_answered h hpos hw
      refine ⟨r, order.length, hr, fun k hk => ?_⟩
      rw [hcall]
      exact hdrain k hk
  · subst hg
    exact g.preOrder_answered hpos h

/-- Vertex 1 is listed by 0 and by 3; it waits for 0, although 3 is entered before. -/
theorem preOrder_branches_shared :
    let g := Network.ofMultigraph
      (((((Multigraph.ofCount 4).push 0 3).push 0 2).push 0 1).push 3 1)
    g.preOrder 0 = .ok [0, 3, 2, 1] ∧
      ∃ found, Branches g.successors {0} [0] found [0, 3, 2, 1] := by
  intro g
  have hpos : ∀ v, Reaches g.successors 0 v → 0 ≤ v := by
    intro v hv
    cases hv with
    | refl => exact Int.le_refl 0
    | tail _ he =>
      obtain ⟨c, _, rfl⟩ := List.mem_map.1 he
      exact Int.natCast_nonneg c
  have hcall : g.preOrder 0 = .ok [0, 3, 2, 1] := by decide +kernel
  obtain ⟨order, hsearch, _, _, _, _, _, _, hnetwork⟩ :=
    preOrder_branches g.successors 0 (g.finite_reaches 0) hpos
  rcases hnetwork g rfl with hok | ⟨_, k, herror⟩
  · rw [hcall, Except.ok.injEq] at hok
    exact ⟨hcall, hok ▸ hsearch⟩
  · rw [hcall] at herror
    cases herror

/-- The depth-first search comes to vertex 1 from 3, and reports it before 2; the walk does not. And
a start whose flag cannot be had is refused. -/
theorem preOrder_ne_enters :
    let g := Network.ofTables 4 4 #[[1, 2, 3], [], [], [1]] #[] #[]
    (∃ found, Enters g.successors ∅ [0] found [0, 3, 1, 2]) ∧
      (∀ found order, Enters g.successors ∅ [0] found order → g.preOrder 0 ≠ .ok order) ∧
      g.preOrder 0 = .ok [0, 3, 2, 1] ∧
      g.preOrder 9223372036854775808 = .error .lengthRange := by
  intro g
  have hcall : g.preOrder 0 = .ok [0, 3, 2, 1] := by decide +kernel
  -- a vertex without successors is entered, then the rest
  have leaf : ∀ (found found' : Finset Int) (v : Int) (todo out : List Int), v ∉ found →
      g.successors v = [] → Enters g.successors (insert v found) todo found' out →
      Enters g.successors found (v :: todo) found' (v :: out) := by
    intro found found' v todo out hv hnone hout
    have hin :
        Enters g.successors (insert v found) (g.successors v).reverse (insert v found) [] := by
      rw [hnone]
      exact .nil _
    exact .enter hv hin hout
  have h3 : Enters g.successors {3, 0} [1] {1, 3, 0} [1] :=
    leaf {3, 0} _ 1 [] [] (by decide) rfl (.nil _)
  have h2 : Enters g.successors {1, 3, 0} [2, 1] {2, 1, 3, 0} [2] :=
    leaf {1, 3, 0} _ 2 [1] [] (by decide) rfl (.skip (by decide) (.nil _))
  have hnot : ∀ v : Int, v ≠ 0 → v ∉ ({0} : Finset Int) := fun v hv => by simpa using hv
  have h0 : Enters g.successors {0} [3, 2, 1] {2, 1, 3, 0} [3, 1, 2] :=
    .enter (hnot 3 (by decide)) h3 h2
  have h : Enters g.successors ∅ [0] {2, 1, 3, 0} [0, 3, 1, 2] :=
    .enter (Finset.notMem_empty 0) h0 (.nil _)
  refine ⟨⟨_, h⟩, fun found order h' heq => ?_, hcall, by decide +kernel⟩
  obtain rfl := (h.unique h').2
  rw [hcall] at heq
  exact absurd heq (by decide)

end IndexGraph
