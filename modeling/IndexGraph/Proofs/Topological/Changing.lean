import IndexGraph.Proofs.Topological.Strict
import IndexGraph.Proofs.Walk.Changing

/-
  A topological walk on a graph that is changed on the way. Its counts were taken once, when it
  began, and say nothing about the edges there are later: an edge that is new takes a count down
  that it was not part of, and a step may fail with some edges taken off and others not.
  What remains true is that no step adds to a count. So a count comes down to zero at most once, and
  a vertex that has been on the stack does not come back (`Gone`, preserved by `Gone.release`).
  Each step takes one vertex off the stack, whether or not it reports it; so the number of vertices
  not yet reported goes down by one, as long as there is something on the stack, and cannot become
  negative. `Stands` says this of a walk after a number of steps, `Scene.step_stands` of one event
  and `Scene.run_stands` of a list of them.
-/

namespace IndexGraph

theorem Network.Consistent.inside {g : Network} {n : Nat} (hg : g.Consistent n) :
    Inside g.successors n := by
  intro u hu v he
  obtain ⟨h0, hn⟩ := mem_vertices.1 hu
  exact mem_vertices.2 (hg.successors_in_range u h0 hn v he)

/-- No scan of a matrix is refused, so the searches see what the matrix answers. -/
theorem WeightMatrix.exists_successors {m : WeightMatrix Weight} (hm : m.Sound) (v : Int) :
    ∃ cs, m.successors v = .ok cs ∧
      (Network.ofMatrix m).successors v = cs.map fun (c : Nat) => (c : Int) := by
  refine ⟨_, WeightMatrix.successors_eq hm v, ?_⟩
  show (Network.rowOf m v).map _ = _
  rw [Network.rowOf, WeightMatrix.arcsFrom_eq hm, List.map_map]
  rfl

open Function (update)
open Position (Reads)

namespace TopologicalWalk

variable {succ : Int → List Int} {n k : Nat} {w : TopologicalWalk} {pending : Array Int}
  {ready gone taken out vs : List Int} {v : Int} {dry : Prop}

/-- The vertices of `gone` are of the graph, none is listed twice, and no count is left of any. -/
structure Gone (n : Nat) (pending : Array Int) (gone : List Int) : Prop where
  exists_reads : ∃ f, Reads pending n f ∧ ∀ v ∈ gone, f v ≤ 0
  nodup : gone.Nodup
  mem_graph : ∀ v ∈ gone, v ∈ vertices n

namespace Gone

theorem perm (h : Gone n pending gone) (hperm : gone.Perm ready) : Gone n pending ready := by
  obtain ⟨f, hf, hle⟩ := h.exists_reads
  exact ⟨⟨f, hf, fun v hv => hle v (hperm.mem_iff.2 hv)⟩, hperm.nodup_iff.1 h.nodup,
    fun v hv => h.mem_graph v (hperm.mem_iff.2 hv)⟩

theorem length_le (h : Gone n pending gone) : gone.length ≤ n := by
  have hle := (h.nodup.subperm h.mem_graph).length_le
  simpa [vertices] using hle

/-- One entry of a release: the vertex joins the stack only if its count was one, which that of a
vertex that is gone is not. -/
theorem exists_release_cons (h : Gone n pending (ready ++ taken)) (hv : v ∈ vertices n)
    (vs : List Int) :
    ∃ pending' ready', Gone n pending' (ready' ++ taken) ∧
      release ready pending (v :: vs) = release ready' pending' vs := by
  obtain ⟨f, hf, hle⟩ := h.exists_reads
  obtain ⟨pending', hf', hrelease⟩ := TopologicalWalk.exists_release_cons vs ready hf hv
  have hless : ∀ x ∈ ready ++ taken, update f v (f v - 1) x ≤ 0 := by
    intro x hx
    have := hle x hx
    rw [Function.update_apply]
    split
    · subst x
      omega
    · omega
  refine ⟨pending', _, ?_, hrelease⟩
  split
  · rename_i hone
    -- what is gone has no count left, so `v` was not
    have hnew : v ∉ ready ++ taken := by
      intro hmem
      have := hle v hmem
      omega
    refine ⟨⟨_, hf', ?_⟩, List.nodup_cons.2 ⟨hnew, h.nodup⟩, ?_⟩
    · refine List.forall_mem_cons.2 ⟨?_, hless⟩
      rw [Function.update_self, hone]
      omega
    · exact List.forall_mem_cons.2 ⟨hv, h.mem_graph⟩
  · exact ⟨⟨_, hf', hless⟩, h.nodup, h.mem_graph⟩

/-- A release puts only vertices on the stack that were not gone, and fails exactly if it is to take
an edge off a vertex that is not of the graph. -/
theorem release (h : Gone n pending (ready ++ taken)) (h0 : ∀ c ∈ vs, 0 ≤ c) :
    Gone n (release ready pending vs).pending ((release ready pending vs).ready ++ taken) ∧
      (release ready pending vs).fault =
        if ∃ c ∈ vs, (n : Int) ≤ c then some .outOfRange else none := by
  induction vs generalizing pending ready with
  | nil => exact ⟨h, by simp [TopologicalWalk.release]⟩
  | cons v vs ih =>
    have hv0 := h0 v List.mem_cons_self
    by_cases hv : v < n
    · obtain ⟨pending', ready', h', hrelease⟩ := h.exists_release_cons (mem_vertices.2 ⟨hv0, hv⟩) vs
      obtain ⟨hgone, hfault⟩ := ih h' fun c hc => h0 c (List.mem_cons_of_mem v hc)
      rw [hrelease]
      refine ⟨hgone, hfault.trans ?_⟩
      simp [Int.not_le.2 hv]
    · -- the release ends here, and what it has done so far stays done
      obtain ⟨f, hf, _⟩ := h.exists_reads
      have hnone : Position.resolve? pending.size v = none := by
        rw [Position.resolve?_eq_none_iff, hf.size_eq]
        omega
      simp only [TopologicalWalk.release, hnone]
      exact ⟨h, (if_pos ⟨v, List.mem_cons_self, by omega⟩).symm⟩

end Gone

/-- What a step comes to: the first ready vertex, which is lost if one of its edges leads to a
vertex that had not been counted. -/
def outcome (succ : Int → List Int) (n : Nat) (w : TopologicalWalk) : Except Fault (Option Int) :=
  match w.ready with
  | [] => w.dryOutcome
  | v :: _ => if ∃ c ∈ succ v, (n : Int) ≤ c then .error .outOfRange else .ok (some v)

/-- After `k` steps `out` has been reported; `dry` says that one of them found no vertex ready. -/
structure Stands (n k : Nat) (dry : Prop) (w : TopologicalWalk) (out : List Int) : Prop where
  exists_taken : ∃ taken, Gone n w.pending (w.ready ++ taken) ∧ out.Sublist taken ∧
    (¬ dry → taken.length = k ∧ w.unreported = n - k)
  after_dry : dry → w.ready = [] ∧ w.unreported = 0

theorem next_of_ready_eq_cons {rest : List Int} (hready : w.ready = v :: rest) :
    (w.next succ).result =
        (match (release rest w.pending (succ v)).fault with
          | none => .ok (some v)
          | some e => .error e) ∧
      (w.next succ).state =
        ⟨(release rest w.pending (succ v)).pending, (release rest w.pending (succ v)).ready,
          w.unreported - 1, w.strict⟩ := by
  obtain ⟨pending, ready, unreported, strict⟩ := w
  obtain rfl : ready = v :: rest := hready
  exact ⟨rfl, rfl⟩

theorem strict_next (w : TopologicalWalk) : (w.next succ).state.strict = w.strict := by
  cases hready : w.ready with
  | nil => rw [(next_of_ready_eq_nil hready).2]
  | cons v rest => rw [(next_of_ready_eq_cons hready).2]

namespace Stands

theorem result_next (h : Stands n k dry w out) (h0 : ∀ u, ∀ c ∈ succ u, 0 ≤ c) :
    (w.next succ).result = w.outcome succ n := by
  unfold outcome
  cases hready : w.ready with
  | nil => exact (next_of_ready_eq_nil hready).1
  | cons v rest =>
    obtain ⟨taken, hgone, _⟩ := h.exists_taken
    rw [hready, List.cons_append] at hgone
    have hrest : Gone n w.pending (rest ++ v :: taken) := hgone.perm List.perm_middle.symm
    rw [(next_of_ready_eq_cons hready).1, (hrest.release (h0 v)).2]
    dsimp only
    split_ifs
    · rfl
    · rfl

/-- Where no vertex is ready, nothing counts as left after the step. -/
theorem next_of_nil (h : Stands n k dry w out) (hready : w.ready = []) (l : Nat) :
    Stands n l True (w.next succ).state out := by
  obtain ⟨taken, hgone, hout, _⟩ := h.exists_taken
  rw [(next_of_ready_eq_nil hready).2]
  exact ⟨⟨taken, hgone, hout, fun hno => absurd trivial hno⟩, fun _ => ⟨hready, rfl⟩⟩

/-- A step takes the first ready vertex off the stack, whether or not it reports it. -/
theorem next_of_cons (h : Stands n k dry w out) (h0 : ∀ u, ∀ c ∈ succ u, 0 ≤ c) {rest : List Int}
    (hready : w.ready = v :: rest) {out' : List Int} (hout' : out'.Sublist (out ++ [v])) :
    Stands n (k + 1) dry (w.next succ).state out' := by
  obtain ⟨taken, hgone, hout, hcount⟩ := h.exists_taken
  have hperm : (v :: rest ++ taken).Perm (rest ++ (taken ++ [v])) := by
    rw [← List.append_assoc]
    exact (List.perm_append_singleton v (rest ++ taken)).symm
  rw [hready] at hgone
  rw [(next_of_ready_eq_cons hready).2]
  refine ⟨⟨taken ++ [v], ((hgone.perm hperm).release (h0 v)).1, ?_, fun hdry => ?_⟩, fun hdry => ?_⟩
  · exact hout'.trans (hout.append_right [v])
  · obtain ⟨hlength, hunreported⟩ := hcount hdry
    rw [List.length_append, List.length_singleton, hlength]
    refine ⟨rfl, ?_⟩
    dsimp only
    omega
  · have hnil := (h.after_dry hdry).1
    rw [hready] at hnil
    cases hnil

end Stands

/-- A new walk has counted all edges, and no vertex is gone. -/
theorem exists_stands (hin : Inside succ n) (hroom : n < Length.room) (strict : Bool) :
    ∃ w, ofSuccessors succ n strict = .ok w ∧ w.strict = strict ∧ Stands n 0 False w [] := by
  obtain ⟨w, hwalk, hstrict, h⟩ := Holds.ofSuccessors hin hroom strict
  refine ⟨w, hwalk, hstrict, ⟨[], ⟨⟨_, h.reads, fun v hv => ?_⟩, ?_, fun v hv => ?_⟩, .slnil,
    fun _ => ⟨rfl, ?_⟩⟩, False.elim⟩
  · rw [List.append_nil, h.mem_ready] at hv
    rw [hv.2]
    rfl
  · rw [List.append_nil]
    exact h.nodup_ready
  · rw [List.append_nil, h.mem_ready, h.mem_left] at hv
    exact hv.1.1
  · have := h.length_add_card
    rw [List.length_nil] at this
    rw [h.unreported_eq]
    omega

end TopologicalWalk

/-- No vertex is ready. -/
def Walk.Dry : Walk → Prop
  | .topological w => w.ready = []
  | _ => False

instance : ∀ w : Walk, Decidable w.Dry
  | .topological w => inferInstanceAs (Decidable (w.ready = []))
  | .preOrder _ => .isFalse id
  | .postOrder _ => .isFalse id
  | .level _ => .isFalse id

/-- The number of steps of the walk among the events. -/
def steps {κ : Type} (events : List (Event κ)) : Nat :=
  events.countP fun
    | .next => true
    | .call _ => false

namespace Scene

section run

variable {γ κ β : Type} (network : γ → Network) (call : γ → κ → Reply γ β)

/-- One of the steps of the walk finds no vertex ready. -/
def FoundDry (s : Scene γ) : List (Event κ) → Prop
  | [] => False
  | .next :: events => s.walk.Dry ∨ FoundDry (s.step network call .next).state events
  | .call c :: events => FoundDry (s.step network call (.call c)).state events

instance decidableFoundDry : ∀ (events : List (Event κ)) (s : Scene γ),
    Decidable (s.FoundDry network call events)
  | [], _ => .isFalse id
  | .next :: events, _ => @instDecidableOr _ _ _ (decidableFoundDry events _)
  | .call _ :: events, _ => decidableFoundDry events _

/-- What holds of a run of a topological walk that began with `n` vertices. -/
structure CountsDown (n : Nat) (strict : Bool) (s : Scene γ) (events : List (Event κ)) : Prop where
  /-- No vertex is reported twice. -/
  nodup : (reported (s.run network call events).1).Nodup
  /-- Only vertices that there were at first are reported. -/
  in_range : ∀ v ∈ reported (s.run network call events).1, 0 ≤ v ∧ v < n
  /-- As long as no step has found the stack empty, each has taken one vertex off it; after that
  nothing is on it, and nothing counts as left. The next step comes to the first vertex on the stack
  or fails at a new vertex; where the stack is empty it is refused if the walk is strict and
  something is left, and says otherwise that the walk has ended. -/
  exists_walk : ∃ w, (s.run network call events).2.walk = .topological w ∧ w.strict = strict ∧
    (¬ s.FoundDry network call events → w.unreported = n - steps events ∧ 0 ≤ w.unreported) ∧
    (s.FoundDry network call events → w.ready = [] ∧ w.unreported = 0) ∧
    ((s.run network call events).2.step network call .next).result =
      (w.outcome (network (s.run network call events).2.graph).successors n).map .vertex

end run

section proof

open TopologicalWalk

variable {γ κ β : Type} {network : γ → Network} {call : γ → κ → Reply γ β} {n k : Nat}
  {s : Scene γ} {dry : Prop} {w : TopologicalWalk} {out : List Int}

theorem foundDry_next : s.FoundDry network call [.next] ↔ s.walk.Dry := by
  rw [FoundDry, FoundDry, or_false]

theorem not_foundDry_call (c : κ) : ¬ s.FoundDry network call [.call c] := not_false

theorem foundDry_cons (e : Event κ) (events : List (Event κ)) :
    s.FoundDry network call (e :: events) ↔
      s.FoundDry network call [e] ∨ (s.step network call e).state.FoundDry network call events := by
  cases e with
  | next => exact or_congr_left foundDry_next.symm
  | call c => exact (or_iff_right (not_foundDry_call c)).symm

theorem steps_cons (e : Event κ) (events : List (Event κ)) :
    steps (e :: events) = steps [e] + steps events := by
  unfold steps
  rw [← List.countP_append]
  rfl

theorem reported_dryOutcome (w : TopologicalWalk) :
    reported [w.dryOutcome.map (Outcome.vertex (β := β))] = [] := by
  unfold dryOutcome
  split_ifs
  · rfl
  · rfl

variable (h0 : ∀ g u, ∀ c ∈ (network g).successors u, 0 ≤ c)
include h0

theorem result_step_next (hw : s.walk = .topological w) (h : Stands n k dry w out) :
    (s.step network call .next).result =
      (w.outcome (network s.graph).successors n).map .vertex := by
  rw [result_next, hw, ← h.result_next (h0 s.graph)]
  rfl

/-- What one event does to a topological walk. -/
theorem step_stands (hw : s.walk = .topological w) (h : Stands n k dry w out) (e : Event κ) :
    ∃ w', (s.step network call e).state.walk = .topological w' ∧ w'.strict = w.strict ∧
      Stands n (k + steps [e]) (dry ∨ s.FoundDry network call [e]) w'
        (out ++ reported [(s.step network call e).result]) := by
  cases e with
  | call c =>
    rw [reported_call, List.append_nil]
    refine ⟨w, hw, rfl, ?_⟩
    rwa [or_iff_left (not_foundDry_call c)]
  | next =>
    have hstate : (s.step network call .next).state.walk =
        .topological (w.next (network s.graph).successors).state := by
      show (s.walk.next (network s.graph)).state = _
      rw [hw]
      rfl
    refine ⟨_, hstate, strict_next w, ?_⟩
    rw [result_step_next h0 hw h, foundDry_next, hw, outcome]
    cases hready : w.ready with
    | nil =>
      have htrue : dry ∨ (Walk.topological w).Dry := .inr hready
      rw [eq_true htrue]
      dsimp only
      rw [reported_dryOutcome, List.append_nil]
      exact h.next_of_nil hready _
    | cons v rest =>
      have hfalse : ¬ (Walk.topological w).Dry := by
        intro hdry
        rw [Walk.Dry, hready] at hdry
        cases hdry
      rw [or_iff_left hfalse]
      refine h.next_of_cons (h0 s.graph) hready (List.Sublist.append_left ?_ out)
      dsimp only
      split_ifs
      · exact List.nil_sublist [v]
      · exact List.Sublist.refl [v]

theorem run_stands (events : List (Event κ)) : ∀ (s : Scene γ) (k : Nat) (dry : Prop)
    (w : TopologicalWalk) (out : List Int), s.walk = .topological w → Stands n k dry w out →
    ∃ w', (s.run network call events).2.walk = .topological w' ∧ w'.strict = w.strict ∧
      Stands n (k + steps events) (dry ∨ s.FoundDry network call events) w'
        (out ++ reported (s.run network call events).1) := by
  induction events with
  | nil =>
    intro s k dry w out hw h
    refine ⟨w, hw, rfl, ?_⟩
    show Stands n k (dry ∨ False) w (out ++ [])
    rwa [or_false, List.append_nil]
  | cons e events ih =>
    intro s k dry w out hw h
    obtain ⟨w₁, hw₁, hstrict₁, h₁⟩ := step_stands h0 hw h e
    obtain ⟨w', hw', hstrict', h'⟩ := ih _ _ _ w₁ _ hw₁ h₁
    refine ⟨w', hw', hstrict'.trans hstrict₁, ?_⟩
    rw [run_cons, reported_cons, foundDry_cons, steps_cons, ← Nat.add_assoc, ← or_assoc,
      ← List.append_assoc]
    exact h'

theorem countsDown (hw : s.walk = .topological w) (h : Stands n 0 False w [])
    (events : List (Event κ)) : s.CountsDown network call n w.strict events := by
  obtain ⟨w', hw', hstrict, h'⟩ := run_stands h0 events s 0 False w [] hw h
  rw [Nat.zero_add, false_or, List.nil_append] at h'
  obtain ⟨taken, hgone, hsub, hcount⟩ := h'.exists_taken
  have hsub' : taken.Sublist (w'.ready ++ taken) := List.sublist_append_right w'.ready taken
  refine ⟨(hgone.nodup.sublist hsub').sublist hsub, fun v hv => ?_, w', hw', hstrict,
    fun hdry => ?_, h'.after_dry, result_step_next h0 hw' h'⟩
  · exact mem_vertices.1 (hgone.mem_graph v (hsub'.subset (hsub.subset hv)))
  · obtain ⟨hlength, hunreported⟩ := hcount hdry
    have := hgone.length_le
    rw [List.length_append] at this
    exact ⟨hunreported, by omega⟩

end proof

/-- What the graph of a scene satisfies and no call spoils, it satisfies after a run. -/
theorem good_run {γ κ β : Type} {network : γ → Network} {call : γ → κ → Reply γ β} {Good : γ → Prop}
    (hcall : ∀ g c, Good g → Good (call g c).state) {s : Scene γ} (hs : Good s.graph)
    (events : List (Event κ)) : Good (s.run network call events).2.graph :=
  answers_invariant (P := fun s => Good s.graph) (fun _ e h => good_step hcall h e) events s hs

/-- A topological walk over a multigraph or a weight matrix, strict or not, counts down whatever
calls are made to the graph between its steps, and whatever had been done to it before; and no scan
of the matrix is refused at any moment. -/
theorem countsDown_while_changing (strict : Bool) :
    (∀ (capacity : Int) (g : Multigraph), Multigraph.ofCapacity capacity = .ok g →
      ∀ before : List (Int × Int),
        let made := (answers Multigraph.answer g before).2
        ∃ w, TopologicalWalk.ofSuccessors (Network.ofMultigraph made).successors
            made.vertexCount strict = .ok w ∧
          ∀ events : List (Event (Int × Int)),
            CountsDown Network.ofMultigraph Multigraph.answer made.vertexCount strict
              ⟨made, .topological w⟩ events) ∧
      ∀ (directed : Bool) (capacity : Int) (before : List (Call Weight)),
        let made := WeightMatrix.reached directed capacity before
        ∃ w, TopologicalWalk.ofSuccessors (Network.ofMatrix made).successors made.capacity strict =
            .ok w ∧
          ∀ events : List (Event (Call Weight)),
            let s : Scene (WeightMatrix Weight) := ⟨made, .topological w⟩
            CountsDown Network.ofMatrix WeightMatrix.answer made.capacity strict s events ∧
              let now := (s.run Network.ofMatrix WeightMatrix.answer events).2.graph
              ∀ v, ∃ cs, now.successors v = .ok cs ∧
                (Network.ofMatrix now).successors v = cs.map fun (c : Nat) => (c : Int) := by
  constructor
  · intro capacity g hg before made
    have hcall : ∀ (g : Multigraph) ends, g.Roomy → (g.answer ends).state.Roomy :=
      fun _ ends h => h.answer ends
    have hroom : made.Roomy := answers_invariant hcall before g (Multigraph.roomy_ofCapacity hg)
    obtain ⟨w, hwalk, rfl, hw⟩ := TopologicalWalk.exists_stands
      (Network.consistent_ofMultigraph made).inside hroom strict
    refine ⟨w, hwalk, countsDown (fun g u c hc => ?_) rfl hw⟩
    obtain ⟨k, _, rfl⟩ := List.mem_map.1 hc
    exact Int.natCast_nonneg k
  · intro directed capacity before made
    obtain ⟨r, hr⟩ : ∃ r, WeightMatrix.Mirrors made r :=
      WeightMatrix.exists_mirrors_reached directed capacity before
    have hcall : ∀ (m : WeightMatrix Weight) call, (∃ r, WeightMatrix.Mirrors m r) →
        ∃ r, WeightMatrix.Mirrors (m.answer call).state r := by
      intro m call hex
      obtain ⟨r, h⟩ := hex
      exact ⟨_, (WeightMatrix.answer_agrees m r call h).state⟩
    obtain ⟨w, hwalk, rfl, hw⟩ := TopologicalWalk.exists_stands
      (Network.consistent_ofMatrix hr.sound).inside hr.capacity_lt_room strict
    refine ⟨w, hwalk, fun events => ?_⟩
    intro s
    have hs : ∃ r, WeightMatrix.Mirrors s.graph r := ⟨r, hr⟩
    refine ⟨countsDown (fun g u c hc => ?_) rfl hw events, fun v => ?_⟩
    · obtain ⟨k, _, rfl⟩ := List.mem_map.1 hc
      exact Int.natCast_nonneg k.1
    · have hend : ∃ r', WeightMatrix.Mirrors
          (s.run Network.ofMatrix WeightMatrix.answer events).2.graph r' :=
        good_run hcall hs events
      obtain ⟨r', hr'⟩ := hend
      exact WeightMatrix.exists_successors hr'.sound v

/-- The edge from 2 to the new vertex 5 comes before the one to 3, so the step that takes 2 off the
stack fails after it has released 1, and 3 is never released. -/
theorem countsDown_while_changing_lost :
    let g := (answers Multigraph.answer (.ofCount 4) [(0, 1), (2, 3)]).2
    let events : List (Event (Int × Int)) := [.call (2, 5), .call (2, 1), .next, .next, .next]
    ∃ w, TopologicalWalk.ofSuccessors (Network.ofMultigraph g).successors 4 true = .ok w ∧
      let done := (⟨g, .topological w⟩ : Scene Multigraph).run Network.ofMultigraph
        Multigraph.answer events
      done.1 = [.ok (.answer 2), .ok (.answer 3), .error .outOfRange, .ok (.vertex (some 1)),
        .ok (.vertex (some 0))] ∧
      ∃ w', done.2.walk = .topological w' ∧ w'.unreported = 4 - 3 ∧
        (done.2.step Network.ofMultigraph Multigraph.answer .next).result = .error (.cycle 1) := by
  intro g events
  obtain ⟨w, hwalk, hw⟩ := (countsDown_while_changing true).1 4 (.ofCount 4) rfl [(0, 1), (2, 3)]
  have hcount : (answers Multigraph.answer (.ofCount 4) [(0, 1), (2, 3)]).2.vertexCount = 4 := by
    decide +kernel
  rw [hcount] at hwalk hw
  obtain ⟨_, _, w', hw', _, hleft, _, hnext⟩ := hw events
  have hcall : (TopologicalWalk.ofSuccessors (Network.ofMultigraph g).successors 4 true).map
      (fun w =>
        let s : Scene Multigraph := ⟨g, .topological w⟩
        let done := s.run Network.ofMultigraph Multigraph.answer events
        (done.1, (done.2.step Network.ofMultigraph Multigraph.answer .next).result,
          decide (s.FoundDry Network.ofMultigraph Multigraph.answer events))) =
      .ok ([.ok (.answer 2), .ok (.answer 3), .error .outOfRange, .ok (.vertex (some 1)),
        .ok (.vertex (some 0))], .error (.cycle 1), false) := by decide +kernel
  rw [show TopologicalWalk.ofSuccessors (Network.ofMultigraph g).successors 4 true = .ok w from
    hwalk] at hcall
  have hthree := Except.ok.inj hcall
  rw [Prod.mk.injEq, Prod.mk.injEq] at hthree
  obtain ⟨houtcomes, hlast, hdry⟩ := hthree
  exact ⟨w, hwalk, houtcomes, w', hw', (hleft (of_decide_eq_false hdry)).1, hlast⟩

end Scene

end IndexGraph
