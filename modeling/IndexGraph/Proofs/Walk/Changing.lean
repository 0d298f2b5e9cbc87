import IndexGraph.Proofs.Consistent
import IndexGraph.Proofs.EdgeLog
import IndexGraph.Proofs.Walk.Interleaving

/-
  Walks on multigraphs and weight matrices that are changed on the way. What
  `IndexGraph.Proofs.Walk.Interleaving` asks of a graph holds of both: there is room for a flag for
  each vertex that an edge names, because there was room for the graph, and no call spoils this. An
  insertion loses no edge, and of the calls to a matrix only a removal that succeeds does.
-/

namespace IndexGraph

namespace Multigraph

/-- There is room for a flag for each vertex. -/
def Roomy (g : Multigraph) : Prop := g.vertexCount < Length.room

theorem roomy_ofCapacity {capacity : Int} {g : Multigraph} (h : ofCapacity capacity = .ok g) :
    g.Roomy := by
  unfold ofCapacity at h
  split at h
  · rename_i hallowed
    cases h
    have hlt := hallowed.2
    have hsize : (ofCount capacity.toNat).vertexCount = capacity.toNat := Array.size_replicate
    have hroom : 0 < Length.room := by decide
    unfold Roomy
    omega
  · cases h

theorem Roomy.answer {g : Multigraph} (h : g.Roomy) (ends : Int × Int) :
    (g.answer ends).state.Roomy := by
  unfold Multigraph.answer insert
  split
  · exact h
  · split
    · rename_i hneg hext
      show (g.push ends.1.toNat ends.2.toNat).vertexCount < Length.room
      rw [vertexCount_push]
      unfold Roomy at h
      unfold Length.Extensible at hext
      omega
    · exact h

theorem Roomy.markable {g : Multigraph} (h : g.Roomy) (u : Int) :
    ∀ c ∈ (Network.ofMultigraph g).successors u, Markable c := by
  intro c hc
  obtain ⟨k, hk, rfl⟩ := List.mem_map.1 hc
  have hlt := lt_of_mem_successors hk
  exact markable_of_lt h (Int.natCast_nonneg k) (Int.ofNat_lt.2 hlt)

/-- An insertion loses no edge, also where it is refused. -/
theorem successors_subset_answer (g : Multigraph) (ends : Int × Int) {u v : Int}
    (h : v ∈ (Network.ofMultigraph g).successors u) :
    v ∈ (Network.ofMultigraph (g.answer ends).state).successors u := by
  unfold Multigraph.answer insert
  split
  · exact h
  · split
    · obtain ⟨k, hk, rfl⟩ := List.mem_map.1 h
      refine List.mem_map.2 ⟨k, ?_, rfl⟩
      show k ∈ (g.push ends.1.toNat ends.2.toNat).successors u
      rw [successors_push]
      split
      · exact List.mem_cons_of_mem _ hk
      · exact hk
    · exact h

end Multigraph

namespace WeightMatrix

variable {m : WeightMatrix Weight} {r : PairMap Weight}

/-- The edges of the matrix are the weights of the map. -/
theorem Mirrors.mem_successors (h : Mirrors m r) {u v : Int} :
    v ∈ (Network.ofMatrix m).successors u ↔ (r.lookup u v).isSome := by
  rw [Network.mem_successors_ofMatrix h.sound]
  cases hcov : m.covers u v with
  | true =>
    rw [h.content_eq u v hcov, Option.isSome_iff_exists]
    exact ⟨fun hex => hex.2, fun hex => ⟨rfl, hex⟩⟩
  | false =>
    rw [h.lookup_eq_none u v hcov]
    exact ⟨fun hex => (Bool.false_ne_true hex.1).elim, fun hex => (Bool.false_ne_true hex).elim⟩

/-- There are no more vertices than slots, and there is room for these. -/
theorem Mirrors.capacity_lt_room (h : Mirrors m r) : m.capacity < Length.room := by
  have hsize := h.size_lt_room
  have hcount : (m.capacity : Int) ≤ Slots.count m.capacity m.directed := Slots.le_count _
  rw [h.sound] at hsize
  omega

theorem Mirrors.markable (h : Mirrors m r) (u : Int) :
    ∀ c ∈ (Network.ofMatrix m).successors u, Markable c := by
  intro c hc
  obtain ⟨_, hc0, hlt⟩ := covers_iff.1 ((Network.mem_successors_ofMatrix h.sound).1 hc).1
  exact markable_of_lt h.capacity_lt_room hc0 hlt

/-- The event is a removal that was not refused. -/
def Erased {α : Type} (made : Event (Call α) × Except Fault (Outcome (Answer α))) : Prop :=
  ∃ a b w, made = (.call (.erase a b), .ok (.answer (.weight w)))

/-- Only a removal that succeeds loses an edge. -/
theorem Mirrors.successors_subset_answer (h : Mirrors m r) (call : Call Weight)
    (hcall : ¬ Erased (.call call, (m.answer call).result.map .answer)) {u v : Int}
    (he : v ∈ (Network.ofMatrix m).successors u) :
    v ∈ (Network.ofMatrix (m.answer call).state).successors u := by
  obtain ⟨hresult, hstate⟩ := answer_agrees m r call h
  rw [hstate.mem_successors]
  refine r.isSome_lookup_answer call (fun a b w hcall' hok => hcall ?_) (h.mem_successors.1 he)
  refine ⟨a, b, w, ?_⟩
  rw [hresult, hok, hcall']
  rfl

end WeightMatrix

namespace Scene

/-- A walk from a vertex of a multigraph or a weight matrix is sound, whatever calls are made to the
graph between its steps, and whatever had been done to it before. Insertions into a multigraph
lose no edge; calls to a matrix lose none unless one of them is a removal that succeeds. -/
theorem sound_while_changing {start : Int} (h0 : 0 ≤ start) {w : Walk} (hw : w.Begins start) :
    (∀ (capacity : Int) (g : Multigraph), Multigraph.ofCapacity capacity = .ok g →
      ∀ (before : List (Int × Int)) (events : List (Event (Int × Int))),
        let s : Scene Multigraph := ⟨(answers Multigraph.answer g before).2, w⟩
        Sound Network.ofMultigraph Multigraph.answer start s events ∧
          s.Keeps Network.ofMultigraph Multigraph.answer events) ∧
      ∀ (directed : Bool) (capacity : Int) (before : List (Call Weight))
        (events : List (Event (Call Weight))),
        let s : Scene (WeightMatrix Weight) := ⟨WeightMatrix.reached directed capacity before, w⟩
        Sound Network.ofMatrix WeightMatrix.answer start s events ∧
          ((∀ made ∈ events.zip (s.run Network.ofMatrix WeightMatrix.answer events).1,
              ¬ WeightMatrix.Erased made) →
            s.Keeps Network.ofMatrix WeightMatrix.answer events) := by
  constructor
  · intro capacity g hg before events s
    have hcall : ∀ (g : Multigraph) ends, g.Roomy → (g.answer ends).state.Roomy :=
      fun _ ends h => h.answer ends
    have hs : s.graph.Roomy := answers_invariant hcall before g (Multigraph.roomy_ofCapacity hg)
    refine ⟨sound (fun _ h => h.markable) hcall h0 hs hw events, ?_⟩
    refine keeps_of_step hcall (fun _ => True) (fun s e _ _ u v he => ?_) events s hs
      fun _ _ => trivial
    cases e with
    | next => exact he
    | call ends => exact s.graph.successors_subset_answer ends he
  · intro directed capacity before events s
    have hs : ∃ r, WeightMatrix.Mirrors s.graph r :=
      WeightMatrix.exists_mirrors_reached directed capacity before
    have hcall : ∀ (m : WeightMatrix Weight) call, (∃ r, WeightMatrix.Mirrors m r) →
        ∃ r, WeightMatrix.Mirrors (m.answer call).state r := by
      intro m call hex
      obtain ⟨r, h⟩ := hex
      exact ⟨_, (WeightMatrix.answer_agrees m r call h).state⟩
    refine ⟨sound (fun m hex => ?_) hcall h0 hs hw events, fun hkept => ?_⟩
    · obtain ⟨r, h⟩ := hex
      exact h.markable
    · refine keeps_of_step hcall (fun made => ¬ WeightMatrix.Erased made)
        (fun s e hex hfine u v he => ?_) events s hs hkept
      cases e with
      | next => exact he
      | call c =>
        obtain ⟨r, h⟩ := hex
        exact h.successors_subset_answer c hfine he

/-- Post-order from 0 over the edges `0 → 1 → 2`. After 2 is reported an edge leads back from it,
another leads on from 1 to a new vertex, and a call is refused. The edge from 1 comes too late, as 1
has been asked for its successors. The same with an undirected matrix that grows on the way. -/
theorem sound_while_changing_chain :
    (let s : Scene Multigraph :=
        ⟨(answers Multigraph.answer (.ofCount 3) [(0, 1), (1, 2)]).2, .postOrder (.startAt 0)⟩
      let events : List (Event (Int × Int)) :=
        [.next, .call (2, 0), .call (1, 5), .call (-1, 0), .next, .next]
      reported (s.run Network.ofMultigraph Multigraph.answer events).1 = [2, 1, 0] ∧
        (∀ v, Reaches (Network.ofMultigraph s.graph).successors 0 v → v ∈ [2, 1, 0]) ∧
        ∀ later, ((s.run Network.ofMultigraph Multigraph.answer (events ++ .next :: later)).2.step
          Network.ofMultigraph Multigraph.answer .next).result = .ok (.vertex none)) ∧
      let s : Scene (WeightMatrix Weight) :=
        ⟨.reached false 0 [.insert 0 1 (some .unit), .insert 1 2 (some .unit)],
          .postOrder (.startAt 0)⟩
      let events : List (Event (Call Weight)) :=
        [.next, .call (.makeRoom 9), .call (.insert 8 0 (some .unit)), .next, .next]
      reported (s.run Network.ofMatrix WeightMatrix.answer events).1 = [2, 1, 0] ∧
        ∀ v, Reaches (Network.ofMatrix s.graph).successors 0 v → v ∈ [2, 1, 0] := by
  obtain ⟨hmultigraph, hmatrix⟩ := sound_while_changing (Int.le_refl 0) (.postOrder)
  constructor
  · intro s events
    obtain ⟨hsound, hkeeps⟩ := hmultigraph 3 (.ofCount 3) rfl [(0, 1), (1, 2)] events
    have hreported : reported (s.run Network.ofMultigraph Multigraph.answer events).1 =
        [2, 1, 0] := by decide +kernel
    have hstop : ((s.run Network.ofMultigraph Multigraph.answer events).2.step
        Network.ofMultigraph Multigraph.answer .next).result = .ok (.vertex none) := by
      decide +kernel
    exact ⟨hreported, fun v hv => hreported ▸ hsound.complete hkeeps hstop v hv,
      hsound.ended hstop⟩
  · intro s events
    obtain ⟨hsound, hkeeps⟩ :=
      hmatrix false 0 [.insert 0 1 (some .unit), .insert 1 2 (some .unit)] events
    have hreported : reported (s.run Network.ofMatrix WeightMatrix.answer events).1 =
        [2, 1, 0] := by decide +kernel
    have hstop : ((s.run Network.ofMatrix WeightMatrix.answer events).2.step
        Network.ofMatrix WeightMatrix.answer .next).result = .ok (.vertex none) := by
      rfl
    have hnone : ∀ a b, Event.call (Call.erase a b) ∉ events := by
      intro a b hmem
      simp [events] at hmem
    refine ⟨hreported, fun v hv => hreported ▸ hsound.complete (hkeeps fun made hmade herased => ?_)
      hstop v hv⟩
    obtain ⟨a, b, w, rfl⟩ := herased
    exact hnone a b (List.of_mem_zip hmade).1

end Scene

end IndexGraph
