import IndexGraph.Proofs.Agrees
import IndexGraph.WeightMatrix
import Mathlib.Data.Finmap
import Mathlib.Data.Sym.Sym2

/-
  What a weight matrix is about, without its storage: a number of vertices and a finite map from
  pairs to weights. A directed map has a key for each ordered pair and an undirected one for
  each unordered pair. Of the storage nothing is left but its length, which decides whether
  there is room to grow; a growth that is refused changes nothing.
  `Call` lists the calls that are compared, `PairMap.answer` and `WeightMatrix.answer` what each
  side answers to them.
-/

namespace IndexGraph

/-- A number of vertices and the weights of pairs. -/
structure PairMap (α : Type) where
  directed : Bool
  capacity : Nat
  weights : Finmap fun _ : (Int × Int) ⊕ Sym2 Int => α

/-- A call to a weight matrix. -/
inductive Call (α : Type) where
  | insert (a b : Int) (weight : Option α)
  | put (a b : Int) (weight : Option α)
  | erase (a b : Int)
  | makeRoom (capacity : Int)
  | weight? (a b : Int)
  | contains (a b : Int)

/-- What a call answers if it is not refused. -/
inductive Answer (α : Type) where
  | nothing
  | weight (w : α)
  | weight? (w : Option α)
  | truth (b : Bool)

namespace PairMap

variable {α : Type}

/-- The key of a pair. -/
def key (directed : Bool) (a b : Int) : (Int × Int) ⊕ Sym2 Int :=
  if directed then .inl (a, b) else .inr s(a, b)

/-- The weight of a pair. -/
def lookup (r : PairMap α) (a b : Int) : Option α := r.weights.lookup (key r.directed a b)

/-- The same map with another weight, or none, for a pair. -/
def store (r : PairMap α) (a b : Int) (content : Option α) : PairMap α :=
  { directed := r.directed
    capacity := r.capacity
    weights :=
      match content with
      | some w => r.weights.insert (key r.directed a b) w
      | none => r.weights.erase (key r.directed a b) }

/-- No vertices and no weights. -/
def empty (directed : Bool) : PairMap α where
  directed := directed
  capacity := 0
  weights := ∅

/-- Room for at least `capacity` vertices, if there is. -/
def makeRoom (r : PairMap α) (capacity : Int) : Reply (PairMap α) Unit :=
  let present := (Slots.count r.capacity r.directed).toNat
  let wanted := Slots.count capacity r.directed
  if capacity ≤ r.capacity then .done () r
  else if Length.Extensible present wanted then .done () { r with capacity := capacity.toNat }
  else .fail (Length.refusal (wanted - present)) r

/-- A map with no weights. -/
def ofCapacity (directed : Bool) (capacity : Int) : Reply (PairMap α) Unit :=
  (empty directed).makeRoom capacity

/-- The checks before a weight is written, in their order; answers the weight there is and the
new one. -/
def prepare (r : PairMap α) (a b : Int) (weight : Option α) : Reply (PairMap α) (Option α × α) :=
  if a < 0 ∨ b < 0 then .fail (.negativeEndpoint a b) r
  else
    match weight with
    | none => .fail (.absentWeight a b) r
    | some w => (r.makeRoom (max a b + 1)).andThen fun _ r => .done (r.lookup a b, w) r

/-- What the map answers to a call. -/
def answer (r : PairMap α) : Call α → Reply (PairMap α) (Answer α)
  | .insert a b weight =>
    (r.prepare a b weight).andThen fun (old, w) r =>
      match old with
      | some _ => .fail (.edgeExists a b) r
      | none => .done .nothing (r.store a b (some w))
  | .put a b weight =>
    (r.prepare a b weight).andThen fun (old, w) r =>
      .done (.weight? old) (r.store a b (some w))
  | .erase a b =>
    match r.lookup a b with
    | some w => .done (.weight w) (r.store a b none)
    | none => .fail (.noEdge a b) r
  | .makeRoom capacity => (r.makeRoom capacity).mapValue fun _ => .nothing
  | .weight? a b => .done (.weight? (r.lookup a b)) r
  | .contains a b => .done (.truth (r.lookup a b).isSome) r

theorem key_eq_iff {directed : Bool} {a b c d : Int} :
    key directed a b = key directed c d ↔
      (a = c ∧ b = d) ∨ directed = false ∧ a = d ∧ b = c := by
  cases directed with
  | true => simp [key]
  | false => simp [key]

theorem lookup_store (r : PairMap α) (a b c d : Int) (content : Option α) :
    (r.store a b content).lookup c d =
      if key r.directed c d = key r.directed a b then content else r.lookup c d := by
  cases content with
  | none =>
    show (r.weights.erase (key r.directed a b)).lookup (key r.directed c d) = _
    by_cases h : key r.directed c d = key r.directed a b
    · rw [if_pos h, h, Finmap.lookup_erase]
    · rw [if_neg h, Finmap.lookup_erase_ne h]
      rfl
  | some w =>
    show (r.weights.insert (key r.directed a b) w).lookup (key r.directed c d) = _
    by_cases h : key r.directed c d = key r.directed a b
    · rw [if_pos h, h, Finmap.lookup_insert]
    · rw [if_neg h, Finmap.lookup_insert_of_ne _ h]
      rfl

/-- The number of pairs that have a weight. -/
def count (r : PairMap α) : Nat := r.weights.keys.card

theorem mem_weights_iff (r : PairMap α) (a b : Int) :
    key r.directed a b ∈ r.weights ↔ (r.lookup a b).isSome := Finmap.lookup_isSome.symm

theorem mem_weights_store (r : PairMap α) (a b : Int) (w : α) (k : (Int × Int) ⊕ Sym2 Int) :
    k ∈ (r.store a b (some w)).weights ↔ k = key r.directed a b ∨ k ∈ r.weights :=
  Finmap.mem_insert

theorem mem_weights_of_erase (r : PairMap α) (a b : Int) {k : (Int × Int) ⊕ Sym2 Int}
    (h : k ∈ (r.store a b none).weights) : k ∈ r.weights := (Finmap.mem_erase.1 h).2

theorem keys_store (r : PairMap α) (a b : Int) (w : α) :
    (r.store a b (some w)).weights.keys = insert (key r.directed a b) r.weights.keys := by
  apply Finset.ext
  intro k
  rw [Finset.mem_insert, Finmap.mem_keys, Finmap.mem_keys, mem_weights_store]

theorem count_store_of_none (r : PairMap α) {a b : Int} (h : r.lookup a b = none) (w : α) :
    (r.store a b (some w)).count = r.count + 1 := by
  unfold count
  rw [keys_store, Finset.card_insert_of_notMem]
  rw [Finmap.mem_keys, mem_weights_iff, h]
  exact Bool.false_ne_true

theorem count_store_of_some (r : PairMap α) {a b : Int} {old : α} (h : r.lookup a b = some old)
    (w : α) : (r.store a b (some w)).count = r.count := by
  unfold count
  rw [keys_store, Finset.insert_eq_of_mem]
  rw [Finmap.mem_keys, mem_weights_iff, h]
  rfl

theorem count_erase (r : PairMap α) {a b : Int} {old : α} (h : r.lookup a b = some old) :
    (r.store a b none).count = r.count - 1 := by
  have hmem : key r.directed a b ∈ r.weights.keys := by
    rw [Finmap.mem_keys, mem_weights_iff, h]
    rfl
  unfold count
  rw [← Finset.card_erase_of_mem hmem, ← Finmap.keys_erase]
  rfl

/-! ## The number of vertices -/

/-- The outcome of a call for which there was no room. -/
def refused {β : Type} : Except Fault β → Bool
  | .error .noRoom => true
  | .error .lengthRange => true
  | _ => false

/-- The number of vertices that a call needs: what it asks for, or those that a write which
passes its checks mentions. -/
def demand : Call α → Int
  | .insert a b weight => if 0 ≤ a ∧ 0 ≤ b ∧ weight.isSome then max a b + 1 else 0
  | .put a b weight => if 0 ≤ a ∧ 0 ≤ b ∧ weight.isSome then max a b + 1 else 0
  | .makeRoom capacity => capacity
  | _ => 0

/-- The number of vertices after a call: the larger one of what there was and what the call
needs, if there is room. -/
def capacityAfter {β : Type} (present needed : Int) (outcome : Except Fault β) : Int :=
  if refused outcome then present else max present needed

theorem makeRoom_cases (r : PairMap α) (capacity : Int) :
    (∃ present : Nat, r.makeRoom capacity = .done () { r with capacity := present } ∧
        (present : Int) = max (r.capacity : Int) capacity) ∨
      ∃ e, r.makeRoom capacity = .fail e r ∧ refused (.error e : Except Fault α) = true := by
  unfold makeRoom
  dsimp only
  by_cases hle : capacity ≤ r.capacity
  · rw [if_pos hle]
    exact .inl ⟨r.capacity, rfl, by omega⟩
  · rw [if_neg hle]
    split
    · exact .inl ⟨capacity.toNat, rfl, by omega⟩
    · refine .inr ⟨_, rfl, ?_⟩
      unfold Length.refusal
      split <;> rfl

theorem capacityAfter_of_refused {β : Type} {present needed : Int} {outcome : Except Fault β}
    (h : refused outcome = true) : capacityAfter present needed outcome = present := if_pos h

theorem capacityAfter_of_not_refused {β : Type} {present needed : Int} {outcome : Except Fault β}
    (h : refused outcome = false) :
    capacityAfter present needed outcome = max present needed := by
  rw [capacityAfter, h]
  rfl

theorem refused_error {β γ : Type} {e : Fault} (h : refused (.error e : Except Fault β) = true) :
    refused (.error e : Except Fault γ) = true := by
  cases e <;> first | rfl | cases h

theorem refused_map {β γ : Type} (f : β → γ) (outcome : Except Fault β) :
    refused (outcome.map f) = refused outcome := by
  cases outcome with
  | error e => cases e <;> rfl
  | ok b => rfl

theorem capacity_makeRoom (r : PairMap α) (capacity : Int) :
    ((r.makeRoom capacity).state.capacity : Int) =
      capacityAfter r.capacity capacity (r.makeRoom capacity).result := by
  rcases r.makeRoom_cases capacity with ⟨present, hgrow, hpresent⟩ | ⟨e, hgrow, he⟩
  · rw [hgrow, capacityAfter_of_not_refused rfl]
    exact hpresent
  · rw [hgrow]
    exact (capacityAfter_of_refused (refused_error he)).symm

/-- A write makes room for the vertices that it mentions, if its checks pass. -/
theorem capacity_prepare (r : PairMap α) (a b : Int) (weight : Option α)
    {k : Option α × α → PairMap α → Reply (PairMap α) (Answer α)}
    (hk : ∀ x s, (k x s).state.capacity = s.capacity ∧ refused (k x s).result = false) :
    (((r.prepare a b weight).andThen k).state.capacity : Int) =
      capacityAfter r.capacity (if 0 ≤ a ∧ 0 ≤ b ∧ weight.isSome then max a b + 1 else 0)
        ((r.prepare a b weight).andThen k).result := by
  have hzero : max (r.capacity : Int) 0 = r.capacity := by omega
  unfold prepare
  by_cases hneg : a < 0 ∨ b < 0
  · rw [if_pos hneg, if_neg (show ¬ (0 ≤ a ∧ 0 ≤ b ∧ weight.isSome) by omega),
      Reply.fail_andThen, capacityAfter_of_not_refused rfl, hzero]
    rfl
  rw [if_neg hneg]
  cases weight with
  | none =>
    rw [if_neg (show ¬ (0 ≤ a ∧ 0 ≤ b ∧ (none : Option α).isSome) by simp)]
    dsimp only
    rw [Reply.fail_andThen, capacityAfter_of_not_refused rfl, hzero]
    rfl
  | some w =>
    rw [if_pos (show 0 ≤ a ∧ 0 ≤ b ∧ (some w).isSome from ⟨by omega, by omega, rfl⟩)]
    dsimp only
    rcases r.makeRoom_cases (max a b + 1) with ⟨present, hgrow, hpresent⟩ | ⟨e, hgrow, he⟩
    · rw [hgrow, Reply.done_andThen, Reply.done_andThen]
      obtain ⟨hstate, hresult⟩ :=
        hk (({ r with capacity := present } : PairMap α).lookup a b, w)
          { r with capacity := present }
      rw [capacityAfter_of_not_refused hresult, hstate]
      exact hpresent
    · rw [hgrow, Reply.fail_andThen, Reply.fail_andThen]
      exact (capacityAfter_of_refused (refused_error he)).symm

theorem capacity_answer (r : PairMap α) (call : Call α) :
    ((r.answer call).state.capacity : Int) =
      capacityAfter r.capacity (demand call) (r.answer call).result := by
  have hzero : max (r.capacity : Int) 0 = r.capacity := by omega
  cases call with
  | insert a b weight =>
    refine capacity_prepare r a b weight fun (old, w) s => ?_
    cases old with
    | none => exact ⟨rfl, rfl⟩
    | some _ => exact ⟨rfl, rfl⟩
  | put a b weight => exact capacity_prepare r a b weight fun (old, w) s => ⟨rfl, rfl⟩
  | erase a b =>
    show _ = capacityAfter r.capacity 0 _
    rw [answer]
    cases r.lookup a b with
    | none =>
      rw [capacityAfter_of_not_refused rfl, hzero]
      rfl
    | some w =>
      rw [capacityAfter_of_not_refused rfl, hzero]
      rfl
  | makeRoom capacity =>
    show _ = capacityAfter r.capacity capacity ((r.makeRoom capacity).result.map _)
    rw [capacityAfter, refused_map]
    exact r.capacity_makeRoom capacity
  | weight? a b => exact hzero.symm
  | contains a b => exact hzero.symm

/-- The number of vertices is the largest that was ever needed and for which there was room. -/
theorem capacity_answers (calls : List (Call α)) : ∀ r : PairMap α,
    ((answers answer r calls).2.capacity : Int) =
      (calls.zip (answers answer r calls).1).foldl
        (fun present made => capacityAfter present (demand made.1) made.2) r.capacity := by
  induction calls with
  | nil => exact fun r => rfl
  | cons call calls ih =>
    intro r
    show ((answers answer (r.answer call).state calls).2.capacity : Int) =
      (calls.zip (answers answer (r.answer call).state calls).1).foldl
        (fun present made => capacityAfter present (demand made.1) made.2)
        (capacityAfter r.capacity (demand call) (r.answer call).result)
    rw [ih, capacity_answer]

theorem capacity_ofCapacity (directed : Bool) (capacity : Int) :
    ((ofCapacity directed capacity : Reply (PairMap α) Unit).state.capacity : Int) =
      capacityAfter 0 capacity (ofCapacity directed capacity : Reply (PairMap α) Unit).result :=
  (empty directed).capacity_makeRoom capacity

/-! ## What a call takes away -/

/-- The checks change no weight, and where they pass they answer the one there is. -/
theorem exists_prepare (r : PairMap α) (a b : Int) (weight : Option α) :
    ∃ present, (∃ e, r.prepare a b weight = .fail e { r with capacity := present }) ∨
      ∃ w, r.prepare a b weight = .done (r.lookup a b, w) { r with capacity := present } := by
  unfold prepare
  split
  · exact ⟨r.capacity, .inl ⟨_, rfl⟩⟩
  · cases weight with
    | none => exact ⟨r.capacity, .inl ⟨_, rfl⟩⟩
    | some w =>
      dsimp only
      rcases r.makeRoom_cases (max a b + 1) with ⟨present, hgrow, _⟩ | ⟨e, hgrow, _⟩
      · rw [hgrow, Reply.done_andThen]
        exact ⟨present, .inr ⟨w, rfl⟩⟩
      · rw [hgrow, Reply.fail_andThen]
        exact ⟨r.capacity, .inl ⟨e, rfl⟩⟩

theorem isSome_lookup_store (r : PairMap α) (a b : Int) (w : α) {c d : Int}
    (h : (r.lookup c d).isSome) : ((r.store a b (some w)).lookup c d).isSome := by
  rw [lookup_store]
  split
  · rfl
  · exact h

/-- Only a removal that succeeds takes a weight away. -/
theorem isSome_lookup_answer (r : PairMap α) (call : Call α)
    (hcall : ∀ a b w, call = .erase a b → (r.answer call).result ≠ .ok (.weight w)) {c d : Int}
    (h : (r.lookup c d).isSome) : ((r.answer call).state.lookup c d).isSome := by
  cases call with
  | insert a b weight =>
    rw [answer]
    obtain ⟨present, ⟨e, hprepare⟩ | ⟨w, hprepare⟩⟩ := r.exists_prepare a b weight
    · rw [hprepare]
      exact h
    · rw [hprepare, Reply.done_andThen]
      cases r.lookup a b with
      | some _ => exact h
      | none => exact isSome_lookup_store { r with capacity := present } a b w h
  | put a b weight =>
    rw [answer]
    obtain ⟨present, ⟨e, hprepare⟩ | ⟨w, hprepare⟩⟩ := r.exists_prepare a b weight
    · rw [hprepare]
      exact h
    · rw [hprepare, Reply.done_andThen]
      exact isSome_lookup_store { r with capacity := present } a b w h
  | erase a b =>
    rw [answer] at hcall ⊢
    cases hlookup : r.lookup a b with
    | none => exact h
    | some w =>
      refine absurd ?_ (hcall a b w rfl)
      rw [hlookup]
      rfl
  | makeRoom capacity =>
    rw [answer]
    rcases r.makeRoom_cases capacity with ⟨present, hgrow, _⟩ | ⟨e, hgrow, _⟩
    · rw [hgrow]
      exact h
    · rw [hgrow]
      exact h
  | weight? a b => exact h
  | contains a b => exact h

end PairMap

/-- What the matrix answers to a call. -/
def WeightMatrix.answer {α : Type} (m : WeightMatrix α) : Call α → Reply (WeightMatrix α) (Answer α)
  | .insert a b weight => (m.insert a b weight).mapValue fun _ => .nothing
  | .put a b weight => (m.put a b weight).mapValue .weight?
  | .erase a b => (m.erase a b).mapValue .weight
  | .makeRoom capacity => (m.makeRoom capacity).mapValue fun _ => .nothing
  | .weight? a b => { result := (m.weight? a b).map .weight?, state := m }
  | .contains a b => { result := (m.contains a b).map .truth, state := m }

end IndexGraph
