import IndexGraph.Proofs.Agrees
import IndexGraph.Proofs.PairMap
import IndexGraph.Proofs.Slots.Growth

/-
  A weight matrix is the finite map that `PairMap` describes.
  `Mirrors m r`: the storage of `m` has its exact length, for which there is room, and the slot of
  every pair below the capacity holds what `r` has for the pair, while `r` has nothing for other
  pairs; and `m` counts the pairs that have a weight. A growth moves the slots and keeps this
  (`mirrors_makeRoom`), a write changes the one slot of its pair (`mirrors_store`). So every call
  agrees with its counterpart (`answer_agrees`), and by induction every list of calls does.
-/

namespace IndexGraph.WeightMatrix

variable {α : Type} {m : WeightMatrix α} {r : PairMap α} {a b c d : Int}

/-- The storage has a slot for every pair and no more. -/
def Sound (m : WeightMatrix α) : Prop :=
  m.slots.size = (Slots.count m.capacity m.directed).toNat

/-- The weights of `m` are those of `r`. -/
structure Mirrors (m : WeightMatrix α) (r : PairMap α) : Prop where
  directed_eq : m.directed = r.directed
  capacity_eq : m.capacity = r.capacity
  sound : m.Sound
  content_eq : ∀ a b : Int, m.covers a b = true →
    Slots.content m.slots (m.slot a b).toNat = r.lookup a b
  lookup_eq_none : ∀ a b : Int, m.covers a b = false → r.lookup a b = none
  key_of_mem : ∀ k ∈ r.weights, ∃ a b, k = PairMap.key r.directed a b
  edgeCount_eq : m.edgeCount = r.count
  size_lt_room : m.slots.size < Length.room

theorem covers_iff : m.covers a b = true ↔ (0 ≤ a ∧ a < m.capacity) ∧ 0 ≤ b ∧ b < m.capacity := by
  rw [covers, decide_eq_true_iff, and_assoc]

theorem covers_eq_false_iff :
    m.covers a b = false ↔ ¬ ((0 ≤ a ∧ a < m.capacity) ∧ 0 ≤ b ∧ b < m.capacity) := by
  rw [← covers_iff, Bool.not_eq_true]

/-- The slot of a pair below the capacity is in the storage. -/
theorem slot_lt (hm : m.Sound) (h : m.covers a b = true) :
    ((m.slot a b).toNat : Int) = m.slot a b ∧ (m.slot a b).toNat < m.slots.size := by
  obtain ⟨ha, hb⟩ := covers_iff.1 h
  have hrange : 0 ≤ m.slot a b ∧ m.slot a b < Slots.count m.capacity m.directed :=
    Slots.ofPair_in_range ha hb
  rw [hm]
  omega

theorem cell_eq (hm : m.Sound) (h : m.covers a b = true) :
    m.cell a b = .ok (Slots.content m.slots (m.slot a b).toNat) := by
  obtain ⟨hslot, hlt⟩ := slot_lt hm h
  rw [cell, ← hslot, Slots.read_eq_content hlt, Int.toNat_natCast]

namespace Mirrors

/-- No growth moves a pair out of reach, and a key is shared by the orders of one pair only. -/
theorem slot_eq_iff (h : Mirrors m r) (hab : m.covers a b = true) (hcd : m.covers c d = true) :
    (m.slot a b).toNat = (m.slot c d).toNat ↔
      PairMap.key r.directed a b = PairMap.key r.directed c d := by
  obtain ⟨ha, hb⟩ := covers_iff.1 hab
  obtain ⟨hc, hd⟩ := covers_iff.1 hcd
  obtain ⟨h1, _⟩ := slot_lt h.sound hab
  obtain ⟨h2, _⟩ := slot_lt h.sound hcd
  have hslots : m.slot a b = m.slot c d ↔ _ := Slots.ofPair_eq_iff ha hb hc hd
  rw [PairMap.key_eq_iff, ← h.directed_eq, ← hslots]
  omega

theorem cell_eq_lookup (h : Mirrors m r) (hab : m.covers a b = true) :
    m.cell a b = .ok (r.lookup a b) := by
  rw [cell_eq h.sound hab, h.content_eq a b hab]

theorem weight?_eq (h : Mirrors m r) (a b : Int) : m.weight? a b = .ok (r.lookup a b) := by
  rw [weight?]
  cases hab : m.covers a b with
  | true => exact h.cell_eq_lookup hab
  | false =>
    rw [h.lookup_eq_none a b hab]
    rfl

end Mirrors

/-! ## Growing -/

theorem mirrors_empty (directed : Bool) :
    Mirrors (empty directed : WeightMatrix α) (PairMap.empty directed) := by
  refine ⟨rfl, rfl, ?_, fun a b h => ?_, fun _ _ _ => rfl, fun k hk => ?_, rfl, ?_⟩
  · cases directed with
    | true => rfl
    | false =>
      show 0 = (Slots.count 0 false).toNat
      decide
  · have hcov := covers_iff.1 h
    have hcap : (empty directed : WeightMatrix α).capacity = 0 := rfl
    omega
  · exact absurd hk Finmap.notMem_empty
  · show 0 < Length.room
    decide

/-- A growth of the storage is a growth of the map. -/
theorem Mirrors.grow (h : Mirrors m r) {new : Nat} {ys : Array (Option α)}
    (hlt : m.capacity < new) (hsize : ys.size = (Slots.count new m.directed).toNat)
    (hroom : ys.size < Length.room) (hcontent : ∀ a b : Nat, a < new → b < new →
      Slots.content ys (Slots.ofPair a b new m.directed).toNat =
        if a < m.capacity ∧ b < m.capacity then
          Slots.content m.slots (Slots.ofPair a b m.capacity m.directed).toNat
        else none) :
    Mirrors { m with slots := ys, capacity := new } { r with capacity := new } := by
  refine ⟨h.directed_eq, rfl, hsize, fun a b hab => ?_, fun a b hab => ?_, h.key_of_mem,
    h.edgeCount_eq, hroom⟩
  · obtain ⟨⟨ha0, ha⟩, hb0, hb⟩ := covers_iff.1 hab
    obtain ⟨i, rfl⟩ := Int.eq_ofNat_of_zero_le ha0
    obtain ⟨j, rfl⟩ := Int.eq_ofNat_of_zero_le hb0
    refine (hcontent i j (Int.ofNat_lt.1 ha) (Int.ofNat_lt.1 hb)).trans ?_
    split
    · exact h.content_eq i j (covers_iff.2 (by omega))
    · exact (h.lookup_eq_none i j (covers_eq_false_iff.2 (by omega))).symm
  · refine h.lookup_eq_none a b (covers_eq_false_iff.2 fun hcov => ?_)
    have hcap : m.capacity ≤ new := hlt.le
    refine covers_eq_false_iff.1 hab ⟨⟨hcov.1.1, ?_⟩, hcov.2.1, ?_⟩
    · exact lt_of_lt_of_le hcov.1.2 (Int.ofNat_le.2 hcap)
    · exact lt_of_lt_of_le hcov.2.2 (Int.ofNat_le.2 hcap)

/-- Nothing happens where there is room already. Otherwise a growth is reported, and the storage
grows or, without room for it, stays as it is. -/
theorem Mirrors.makeRoom_cases (h : Mirrors m r) (wanted : Int) :
    (wanted ≤ m.capacity ∧ m.makeRoom wanted = .done () m) ∨
      (m.capacity < wanted ∧ Length.Extensible m.slots.size (Slots.count wanted m.directed) ∧
        ∃ m', Mirrors m' { r with capacity := wanted.toNat } ∧ m.makeRoom wanted =
          (Reply.done () m').after (.growth m.directed m.capacity wanted.toNat)) ∨
      (m.capacity < wanted ∧ ¬ Length.Extensible m.slots.size (Slots.count wanted m.directed) ∧
        m.makeRoom wanted =
          (Reply.fail (Length.refusal (Slots.count wanted m.directed - m.slots.size)) m).after
            (.growth m.directed m.capacity wanted.toNat)) := by
  unfold makeRoom
  by_cases hle : wanted ≤ m.capacity
  · rw [if_pos hle]
    exact .inl ⟨hle, rfl⟩
  · obtain ⟨new, rfl⟩ := Int.eq_ofNat_of_zero_le (show 0 ≤ wanted by omega)
    have hlt : m.capacity < new := by omega
    rw [if_neg hle]
    by_cases hext : Length.Extensible m.slots.size (Slots.count (new : Int) m.directed)
    · obtain ⟨ys, hgrow, hsize, hcontent⟩ := Slots.grow_eq h.sound hlt hext
      have hroom : ys.size < Length.room := by
        have hpresent := h.size_lt_room
        unfold Length.Extensible at hext
        omega
      refine .inr (.inl ⟨by omega, hext, _, h.grow hlt hsize hroom hcontent, ?_⟩)
      rw [hgrow]
      rfl
    · refine .inr (.inr ⟨by omega, hext, ?_⟩)
      rw [Slots.grow_refused hext]
      rfl

/-- Both sides grow, or both are refused. -/
theorem mirrors_makeRoom (h : Mirrors m r) (capacity : Int) :
    Agrees Mirrors (m.makeRoom capacity) (r.makeRoom capacity) := by
  obtain ⟨directed, present, weights⟩ := r
  obtain rfl : m.directed = directed := h.directed_eq
  obtain rfl : m.capacity = present := h.capacity_eq
  unfold PairMap.makeRoom
  dsimp only
  rw [← h.sound]
  rcases h.makeRoom_cases capacity with
    ⟨hle, hmake⟩ | ⟨hlt, hext, m', hm', hmake⟩ | ⟨hlt, hext, hmake⟩
  · rw [hmake, if_pos hle]
    exact .done h ()
  · rw [hmake, if_neg (by omega), if_pos hext]
    exact ⟨rfl, hm'⟩
  · rw [hmake, if_neg (by omega), if_neg hext]
    exact ⟨rfl, h⟩

/-- A call that is not refused made the room it was asked for. -/
theorem le_capacity_of_makeRoom {capacity : Int} (h : (r.makeRoom capacity).result = .ok ()) :
    capacity ≤ (r.makeRoom capacity).state.capacity := by
  unfold PairMap.makeRoom at h ⊢
  dsimp only at h ⊢
  split
  · assumption
  · rename_i hle
    rw [if_neg hle] at h
    split
    · show capacity ≤ (capacity.toNat : Int)
      omega
    · rename_i hext
      rw [if_neg hext] at h
      cases h

/-- Once there is room a pair has a slot. -/
theorem Mirrors.covers_makeRoom (h : Mirrors m r) (ha : 0 ≤ a) (hb : 0 ≤ b)
    (hok : (m.makeRoom (max a b + 1)).result = .ok ()) :
    (m.makeRoom (max a b + 1)).state.covers a b = true := by
  have hgrow := mirrors_makeRoom h (max a b + 1)
  have hle := le_capacity_of_makeRoom (hgrow.result_eq.symm.trans hok)
  rw [← hgrow.state.capacity_eq] at hle
  exact covers_iff.2 (by omega)

/-! ## Reading and writing -/

theorem store_eq (hm : m.Sound) (hab : m.covers a b = true) (content : Option α)
    (edgeCount : Nat) : m.store a b content edgeCount =
      .done () { m with slots := m.slots.setIfInBounds (m.slot a b).toNat content,
                        edgeCount := edgeCount } := by
  obtain ⟨hslot, hlt⟩ := slot_lt hm hab
  have hresolve : Position.resolve? m.slots.size (m.slot a b) = some (m.slot a b).toNat := by
    rw [← hslot]
    exact Position.resolve?_natCast hlt
  unfold store
  rw [hresolve]

/-- A write changes the weight of its pair only. -/
theorem mirrors_store (h : Mirrors m r) (hab : m.covers a b = true) (content : Option α)
    {edgeCount : Nat} (hcount : edgeCount = (r.store a b content).count) :
    Agrees Mirrors (m.store a b content edgeCount) (.done () (r.store a b content)) := by
  obtain ⟨_, hlt⟩ := slot_lt h.sound hab
  rw [store_eq h.sound hab]
  refine ⟨rfl, h.directed_eq, h.capacity_eq, ?_, fun c d hcd => ?_, fun c d hcd => ?_,
    fun k hk => ?_, hcount, ?_⟩
  · show (m.slots.setIfInBounds _ content).size = _
    rw [Array.size_setIfInBounds]
    exact h.sound
  · have hcd' : m.covers c d = true := hcd
    show (((m.slots.setIfInBounds (m.slot a b).toNat content)[(m.slot c d).toNat]?).join) =
      (r.store a b content).lookup c d
    rw [PairMap.lookup_store, Array.getElem?_setIfInBounds]
    by_cases hkey : PairMap.key r.directed c d = PairMap.key r.directed a b
    · have hsame := (h.slot_eq_iff hcd' hab).2 hkey
      rw [if_pos hkey, if_pos hsame.symm, if_pos hlt]
      rfl
    · have hother : (m.slot a b).toNat ≠ (m.slot c d).toNat := fun heq =>
        hkey ((h.slot_eq_iff hcd' hab).1 heq.symm)
      rw [if_neg hkey, if_neg hother]
      exact h.content_eq c d hcd'
  · have hcd' : m.covers c d = false := hcd
    show (r.store a b content).lookup c d = none
    rw [PairMap.lookup_store, if_neg, h.lookup_eq_none c d hcd']
    intro hkey
    have hab' := covers_iff.1 hab
    apply covers_eq_false_iff.1 hcd'
    rcases PairMap.key_eq_iff.1 hkey with ⟨rfl, rfl⟩ | ⟨_, rfl, rfl⟩
    · exact hab'
    · exact hab'.symm
  · cases content with
    | none => exact h.key_of_mem k (r.mem_weights_of_erase a b hk)
    | some w =>
      rcases (r.mem_weights_store a b w k).1 hk with rfl | hk
      · exact ⟨a, b, rfl⟩
      · exact h.key_of_mem k hk
  · show (m.slots.setIfInBounds _ content).size < _
    rw [Array.size_setIfInBounds]
    exact h.size_lt_room

/-- The checks agree, and where they pass, the pair is below the capacity and its weight is
answered. -/
theorem mirrors_prepare (h : Mirrors m r) (a b : Int) (weight : Option α) :
    Agrees Mirrors (m.prepare a b weight) (r.prepare a b weight) ∧
      ∀ old w, (m.prepare a b weight).result = .ok (old, w) →
        (m.prepare a b weight).state.covers a b = true ∧
          (r.prepare a b weight).state.lookup a b = old := by
  unfold prepare PairMap.prepare
  by_cases hneg : a < 0 ∨ b < 0
  · rw [if_pos hneg, if_pos hneg]
    exact ⟨.fail h _, fun old w hx => by cases hx⟩
  rw [if_neg hneg, if_neg hneg]
  cases weight with
  | none => exact ⟨.fail h _, fun old w hx => by cases hx⟩
  | some w =>
    have hgrow := mirrors_makeRoom h (max a b + 1)
    have hcovers := h.covers_makeRoom (show 0 ≤ a by omega) (show 0 ≤ b by omega)
    dsimp only
    constructor
    · refine hgrow.andThen (fun _ _ hst => hst) fun _ hok hst => ?_
      rw [hst.cell_eq_lookup (hcovers hok)]
      exact .done hst _
    · intro old w' hx
      rw [Reply.result_andThen] at hx
      rw [Reply.state_andThen, Reply.state_andThen]
      cases hok : (m.makeRoom (max a b + 1)).result with
      | error e =>
        rw [hok] at hx
        cases hx
      | ok u =>
        have hok' : (r.makeRoom (max a b + 1)).result = .ok u := hgrow.result_eq.symm.trans hok
        rw [hok, hgrow.state.cell_eq_lookup (hcovers hok)] at hx
        rw [hok', hgrow.state.cell_eq_lookup (hcovers hok)]
        cases hx
        exact ⟨hcovers hok, rfl⟩

/-- Every call to the matrix is a call to the map. -/
theorem answer_agrees (m : WeightMatrix α) (r : PairMap α) (call : Call α) (h : Mirrors m r) :
    Agrees Mirrors (m.answer call) (r.answer call) := by
  cases call with
  | insert a b weight =>
    obtain ⟨hprepare, hcovers⟩ := mirrors_prepare h a b weight
    show Agrees Mirrors ((m.insert a b weight).mapValue _) _
    rw [insert, Reply.mapValue_andThen]
    refine hprepare.andThen (fun _ _ hst => hst) fun (old, w) hok hst => ?_
    obtain ⟨hcov, hlookup⟩ := hcovers old w hok
    cases old with
    | some _ => exact .fail hst _
    | none =>
      refine (mirrors_store hst hcov (some w) ?_).mapValue _
      rw [PairMap.count_store_of_none _ hlookup, hst.edgeCount_eq]
  | put a b weight =>
    obtain ⟨hprepare, hcovers⟩ := mirrors_prepare h a b weight
    show Agrees Mirrors ((m.put a b weight).mapValue _) _
    rw [put, Reply.mapValue_andThen]
    refine hprepare.andThen (fun _ _ hst => hst) fun (old, w) hok hst => ?_
    obtain ⟨hcov, hlookup⟩ := hcovers old w hok
    refine ((mirrors_store hst hcov (some w) ?_).mapValue _).mapValue _
    cases old with
    | none => rw [PairMap.count_store_of_none _ hlookup, ← hst.edgeCount_eq]; rfl
    | some _ => rw [PairMap.count_store_of_some _ hlookup, ← hst.edgeCount_eq]; rfl
  | erase a b =>
    show Agrees Mirrors ((m.erase a b).mapValue _) _
    rw [erase, PairMap.answer]
    cases hcov : m.covers a b with
    | false =>
      rw [h.lookup_eq_none a b hcov]
      exact .fail h _
    | true =>
      rw [if_pos rfl, h.cell_eq_lookup hcov]
      cases hlookup : r.lookup a b with
      | none => exact .fail h _
      | some w =>
        refine ((mirrors_store h hcov none ?_).mapValue _).mapValue _
        rw [PairMap.count_erase _ hlookup, h.edgeCount_eq]
  | makeRoom capacity => exact (mirrors_makeRoom h capacity).mapValue _
  | weight? a b =>
    refine ⟨?_, h⟩
    show (m.weight? a b).map Answer.weight? = _
    rw [h.weight?_eq]
    rfl
  | contains a b =>
    refine ⟨?_, h⟩
    show ((m.weight? a b).map Option.isSome).map Answer.truth = _
    rw [h.weight?_eq]
    rfl

/-! ## Every list of calls -/

theorem mirrors_ofCapacity (directed : Bool) (capacity : Int) :
    Agrees Mirrors (ofCapacity directed capacity : Reply (WeightMatrix α) Unit)
      (PairMap.ofCapacity directed capacity) :=
  mirrors_makeRoom (mirrors_empty directed) capacity

/-- The matrix that a list of calls leaves, from an initial capacity. -/
def reached (directed : Bool) (capacity : Int) (calls : List (Call α)) : WeightMatrix α :=
  (answers answer (ofCapacity directed capacity).state calls).2

theorem exists_mirrors_reached (directed : Bool) (capacity : Int) (calls : List (Call α)) :
    ∃ r, Mirrors (reached directed capacity calls) r :=
  ⟨_, (answers_agree answer_agrees calls _ _ (mirrors_ofCapacity directed capacity).state).2⟩

/-- To any calls with any arguments, the matrix answers what the map does, and the number of
its vertices is the largest that was ever needed and for which there was room. -/
theorem answers_eq_pairMap (directed : Bool) (capacity : Int) (calls : List (Call α)) :
    let made : Reply (WeightMatrix α) Unit := ofCapacity directed capacity
    let map : Reply (PairMap α) Unit := PairMap.ofCapacity directed capacity
    let given := (answers answer made.state calls).1
    made.result = map.result ∧ given = (answers PairMap.answer map.state calls).1 ∧
      (made.state.capacity : Int) = PairMap.capacityAfter 0 capacity made.result ∧
      ((reached directed capacity calls).capacity : Int) =
        (calls.zip given).foldl
          (fun present call => PairMap.capacityAfter present (PairMap.demand call.1) call.2)
          made.state.capacity := by
  obtain ⟨hresult, hstate⟩ := mirrors_ofCapacity (α := α) directed capacity
  obtain ⟨hgiven, hend⟩ := answers_agree answer_agrees calls _ _ hstate
  refine ⟨hresult, hgiven, ?_, ?_⟩
  · rw [hstate.capacity_eq, hresult]
    exact PairMap.capacity_ofCapacity directed capacity
  · rw [hgiven, hstate.capacity_eq, reached, hend.capacity_eq]
    exact PairMap.capacity_answers calls _

/-- A write that passes its checks, for a pair without a weight, is refused where there is no room
for the storage. -/
theorem insert_eq_lengthRange :
    (PairMap.empty true : PairMap Int).lookup 0 4611686018427387904 = none ∧
      ((empty true : WeightMatrix Int).insert 0 4611686018427387904 (some 1)).result =
        .error .lengthRange := by
  decide

/-! ## Rows and columns -/

/-- The listed pairs with the weights in their slots. -/
def weighted (m : WeightMatrix α) (pairs : List (Nat × Nat)) : List (Nat × Nat × α) :=
  pairs.filterMap fun p =>
    (Slots.content m.slots (m.slot p.1 p.2).toNat).map fun w => (p.1, p.2, w)

theorem mem_weighted {pairs : List (Nat × Nat)} {a b : Nat} {w : α} :
    (a, b, w) ∈ m.weighted pairs ↔
      (a, b) ∈ pairs ∧ Slots.content m.slots (m.slot a b).toNat = some w := by
  rw [weighted, List.mem_filterMap]
  constructor
  · intro hex
    obtain ⟨p, hmem, hw⟩ := hex
    obtain ⟨w', hw', heq⟩ := Option.map_eq_some_iff.1 hw
    cases heq
    exact ⟨hmem, hw'⟩
  · intro hex
    obtain ⟨hmem, hw⟩ := hex
    refine ⟨(a, b), hmem, ?_⟩
    rw [hw]
    rfl

/-- A scan over pairs below the capacity is not refused. -/
theorem present_eq (hm : m.Sound) (pairs : List (Nat × Nat))
    (hcov : ∀ p ∈ pairs, m.covers p.1 p.2 = true) : m.present pairs = .ok (m.weighted pairs) := by
  induction pairs with
  | nil => rfl
  | cons p pairs ih =>
    obtain ⟨a, b⟩ := p
    have hcell : m.cell a b = .ok (Slots.content m.slots (m.slot a b).toNat) :=
      cell_eq hm (hcov (a, b) List.mem_cons_self)
    have hrest := ih fun p hp => hcov p (List.mem_cons_of_mem _ hp)
    unfold weighted at hrest
    rw [present, hcell, weighted, List.filterMap_cons, hrest]
    dsimp only
    cases Slots.content m.slots (m.slot a b).toNat <;> rfl

/-- A row or a column names one pair for each vertex, if there is such a row or column. -/
theorem mem_line {f : Nat → Nat × Nat} {v : Int} {p : Nat × Nat} :
    p ∈ (if m.covers v v then (List.range m.capacity).map f else []) ↔
      (0 ≤ v ∧ v < m.capacity) ∧ ∃ c < m.capacity, f c = p := by
  have hcov : m.covers v v = true ↔ 0 ≤ v ∧ v < m.capacity := by
    rw [covers_iff]
    omega
  split
  · rename_i hv
    rw [List.mem_map, and_iff_right (hcov.1 hv)]
    simp only [List.mem_range]
  · rename_i hv
    exact ⟨fun h => absurd h List.not_mem_nil, fun h => absurd (hcov.2 h.1) hv⟩

theorem mem_rowPairs {v : Int} {a b : Nat} :
    (a, b) ∈ m.rowPairs v ↔ v = a ∧ m.covers a b = true := by
  rw [rowPairs, mem_line, covers_iff]
  constructor
  · intro hex
    obtain ⟨hv, c, hc, heq⟩ := hex
    cases heq
    omega
  · intro hex
    obtain ⟨rfl, hab⟩ := hex
    exact ⟨by omega, b, by omega, rfl⟩

theorem mem_columnPairs {v : Int} {a b : Nat} :
    (a, b) ∈ m.columnPairs v ↔ v = b ∧ m.covers a b = true := by
  rw [columnPairs, mem_line, covers_iff]
  constructor
  · intro hex
    obtain ⟨hv, c, hc, heq⟩ := hex
    cases heq
    omega
  · intro hex
    obtain ⟨rfl, hab⟩ := hex
    exact ⟨by omega, a, by omega, rfl⟩

theorem arcsFrom_eq (hm : m.Sound) (v : Int) :
    m.arcsFrom v = .ok ((m.weighted (m.rowPairs v)).map Prod.snd) := by
  rw [arcsFrom, present_eq hm _ fun p hp => (mem_rowPairs.1 hp).2]
  rfl

theorem arcsInto_eq (hm : m.Sound) (v : Int) :
    m.arcsInto v = .ok ((m.weighted (m.columnPairs v)).map fun e => (e.1, e.2.2)) := by
  rw [arcsInto, present_eq hm _ fun p hp => (mem_columnPairs.1 hp).2]
  rfl

end IndexGraph.WeightMatrix
