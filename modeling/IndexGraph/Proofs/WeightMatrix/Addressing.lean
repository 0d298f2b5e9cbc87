import IndexGraph.Proofs.WeightMatrix.Refusal
import IndexGraph.Proofs.WeightMatrix.Storage

/-
  No operation on a weight matrix uses an index outside the storage.
  An index below zero would count from the back and hide a wrong slot. So the operations are given
  a second time with the meaning of an index left open (`Addressing`): inside the storage an index
  means its slot, elsewhere anything at all. With the meaning that is in use they are the
  operations, on any matrix (`answerBy_eitherEnd`). On a matrix that calls can make they are the
  same with every meaning (`Mirrors.usual`), that of `strict` among them, which refuses every index
  outside; and then nothing is refused for its index (`Inside`).
  `Usual` collects the indices that a call may use, those of a growth among them, and both follow
  from it.
-/

namespace IndexGraph

/-- What indices mean in a storage of a given size: single ones, and blocks of some length from
an index on. Inside the storage there is no choice. -/
structure Addressing where
  place : Nat → Int → Option Nat
  block : Nat → Int → Int → Option Nat
  place_eq : ∀ {size : Nat} {i : Int}, 0 ≤ i → i < size → place size i = some i.toNat
  block_eq : ∀ {size : Nat} {i len : Int}, 0 ≤ i → i + len ≤ size →
    block size i len = some i.toNat

namespace Addressing

/-- Single indices count from either end, and blocks are not checked. -/
def eitherEnd : Addressing where
  place := Position.resolve?
  block _ i _ := some i.toNat
  place_eq {size i} h0 h := by
    rw [Position.resolve?_eq_some_iff]
    omega
  block_eq _ _ := rfl

/-- Nothing outside the storage is addressed. -/
def strict : Addressing where
  place size i := if 0 ≤ i ∧ i < size then some i.toNat else none
  block size i len := if 0 ≤ i ∧ i + len ≤ size then some i.toNat else none
  place_eq h0 h := if_pos ⟨h0, h⟩
  block_eq h0 h := if_pos ⟨h0, h⟩

end Addressing

/-! ## The operations, for any addressing -/

namespace Slots

variable {α : Type} (A : Addressing)

/-- `exchangeCells` with the addressing `A`. -/
def exchangeCellsBy (p q : Int) : Nat → Array α → Reply (Array α) Unit
  | 0, xs => .done () xs
  | n + 1, xs =>
    match A.place xs.size (p + n), A.place xs.size (q + n) with
    | some k, some l => exchangeCellsBy p q n (xs.swapIfInBounds k l)
    | _, _ => .fail .outOfRange xs

/-- `moveRow` with the addressing `A`. -/
def moveRowBy (old new : Int) (row : Nat) (xs : Array α) : Reply (Array α) Unit :=
  let p := row * old
  let q := row * new
  if p + old ≤ q then
    match A.block xs.size p old, A.block xs.size q old with
    | some k, some l => .done () (exchangeBlocks xs k l old.toNat)
    | _, _ => .fail .outOfRange xs
  else exchangeCellsBy A p q old.toNat xs

/-- `moveRows` with the addressing `A`. -/
def moveRowsBy (old new : Int) : Nat → Array α → Reply (Array α) Unit
  | 0, xs => .done () xs
  | n + 1, xs => (moveRowBy A old new (n + 1) xs).andThen fun _ ys => moveRowsBy old new n ys

/-- `grow` with the addressing `A`. -/
def growBy (xs : Array (Option α)) (old new : Int) (directed : Bool) :
    Reply (Array (Option α)) Unit :=
  if directed then
    (lengthen xs new true).andThen fun _ xs => moveRowsBy A old new (old - 1).toNat xs
  else lengthen xs new false

end Slots

namespace WeightMatrix

variable {α : Type} (A : Addressing)

/-- `cell` with the addressing `A`. -/
def cellBy (m : WeightMatrix α) (a b : Int) : Except Fault (Option α) :=
  match (A.place m.slots.size (m.slot a b)).bind (m.slots[·]?) with
  | some x => .ok x
  | none => .error .outOfRange

/-- `store` with the addressing `A`. -/
def storeBy (m : WeightMatrix α) (a b : Int) (content : Option α) (edgeCount : Nat) :
    Reply (WeightMatrix α) Unit :=
  match A.place m.slots.size (m.slot a b) with
  | none => .fail .outOfRange m
  | some k => .done () { m with slots := m.slots.setIfInBounds k content, edgeCount := edgeCount }

/-- `makeRoom` with the addressing `A`. -/
def makeRoomBy (m : WeightMatrix α) (capacity : Int) : Reply (WeightMatrix α) Unit :=
  if capacity ≤ m.capacity then .done () m
  else
    let grown := Slots.growBy A m.slots m.capacity capacity m.directed
    ((grown.mapState fun slots => { m with slots := slots }).andThen fun _ m =>
      .done () { m with capacity := capacity.toNat }).after
        (.growth m.directed m.capacity capacity.toNat)

/-- `prepare` with the addressing `A`. -/
def prepareBy (m : WeightMatrix α) (a b : Int) (weight : Option α) :
    Reply (WeightMatrix α) (Option α × α) :=
  if a < 0 ∨ b < 0 then .fail (.negativeEndpoint a b) m
  else
    match weight with
    | none => .fail (.absentWeight a b) m
    | some w =>
      (m.makeRoomBy A (max a b + 1)).andThen fun _ m =>
        match m.cellBy A a b with
        | .error e => .fail e m
        | .ok old => .done (old, w) m

/-- `insert` with the addressing `A`. -/
def insertBy (m : WeightMatrix α) (a b : Int) (weight : Option α) :
    Reply (WeightMatrix α) Unit :=
  (m.prepareBy A a b weight).andThen fun (old, w) m =>
    match old with
    | some _ => .fail (.edgeExists a b) m
    | none => m.storeBy A a b (some w) (m.edgeCount + 1)

/-- `put` with the addressing `A`. -/
def putBy (m : WeightMatrix α) (a b : Int) (weight : Option α) :
    Reply (WeightMatrix α) (Option α) :=
  (m.prepareBy A a b weight).andThen fun (old, w) m =>
    let edgeCount := if old.isNone then m.edgeCount + 1 else m.edgeCount
    (m.storeBy A a b (some w) edgeCount).mapValue fun _ => old

/-- `erase` with the addressing `A`. -/
def eraseBy (m : WeightMatrix α) (a b : Int) : Reply (WeightMatrix α) α :=
  if m.covers a b then
    match m.cellBy A a b with
    | .error e => .fail e m
    | .ok none => .fail (.noEdge a b) m
    | .ok (some w) => (m.storeBy A a b none (m.edgeCount - 1)).mapValue fun _ => w
  else .fail (.noEdge a b) m

/-- `weight?` with the addressing `A`. -/
def weightBy? (m : WeightMatrix α) (a b : Int) : Except Fault (Option α) :=
  if m.covers a b then m.cellBy A a b else .ok none

/-- `present` with the addressing `A`. -/
def presentBy (m : WeightMatrix α) : List (Nat × Nat) → Except Fault (List (Nat × Nat × α))
  | [] => .ok []
  | (a, b) :: pairs =>
    match m.cellBy A a b with
    | .error e => .error e
    | .ok none => m.presentBy pairs
    | .ok (some w) => (m.presentBy pairs).map ((a, b, w) :: ·)

/-- `answer` with the addressing `A`. -/
def answerBy (m : WeightMatrix α) : Call α → Reply (WeightMatrix α) (Answer α)
  | .insert a b weight => (m.insertBy A a b weight).mapValue fun _ => .nothing
  | .put a b weight => (m.putBy A a b weight).mapValue .weight?
  | .erase a b => (m.eraseBy A a b).mapValue .weight
  | .makeRoom capacity => (m.makeRoomBy A capacity).mapValue fun _ => .nothing
  | .weight? a b => { result := (m.weightBy? A a b).map .weight?, state := m }
  | .contains a b => { result := ((m.weightBy? A a b).map Option.isSome).map .truth, state := m }

end WeightMatrix

/-! ## Where an addressing changes nothing -/

/-- The index means under `A` what it means from either end. -/
def Addressing.Reads (A : Addressing) (size : Nat) (i : Int) : Prop :=
  A.place size i = Position.resolve? size i

/-- All indices that a move of row `row` may use, in blocks or one by one. -/
structure Addressing.ReadsRow (A : Addressing) (size : Nat) (old new : Int) (row : Nat) :
    Prop where
  source : A.block size (row * old) old = some (row * old).toNat
  target : A.block size (row * new) old = some (row * new).toNat
  cells : ∀ i : Nat, i < old.toNat → A.Reads size (row * old + i) ∧ A.Reads size (row * new + i)

section rows

variable {α : Type} {A : Addressing} {old new : Int}

namespace Slots

theorem exchangeCellsBy_eq {p q : Int} (n : Nat) : ∀ xs : Array α,
    (∀ i : Nat, i < n → A.Reads xs.size (p + i) ∧ A.Reads xs.size (q + i)) →
      exchangeCellsBy A p q n xs = exchangeCells p q n xs := by
  induction n with
  | zero => exact fun xs _ => rfl
  | succ n ih =>
    intro xs hcells
    obtain ⟨hp, hq⟩ := hcells n (Nat.lt_succ_self n)
    unfold Addressing.Reads at hp hq
    unfold exchangeCellsBy exchangeCells
    rw [hp, hq]
    cases Position.resolve? xs.size (p + n) with
    | none => rfl
    | some k =>
      cases Position.resolve? xs.size (q + n) with
      | none => rfl
      | some l =>
        -- an exchange keeps the size, on which the meaning of the other indices depends
        refine ih (xs.swapIfInBounds k l) fun i hi => ?_
        rw [Array.size_swapIfInBounds]
        exact hcells i (Nat.lt_succ_of_lt hi)

theorem moveRowBy_eq {row : Nat} {xs : Array α} (h : A.ReadsRow xs.size old new row) :
    moveRowBy A old new row xs = moveRow old new row xs := by
  unfold moveRowBy moveRow
  dsimp only
  rw [h.source, h.target, exchangeCellsBy_eq old.toNat xs h.cells]

/-- Cells are exchanged in place. -/
theorem size_exchangeCells (p q : Int) (n : Nat) : ∀ xs : Array α,
    (exchangeCells p q n xs).state.size = xs.size := by
  induction n with
  | zero => exact fun xs => rfl
  | succ n ih =>
    intro xs
    unfold exchangeCells
    split
    · rw [ih, Array.size_swapIfInBounds]
    · rfl

theorem size_moveRow (old new : Int) (row : Nat) (xs : Array α) :
    (moveRow old new row xs).state.size = xs.size := by
  unfold moveRow
  dsimp only
  split
  · show (exchangeBlocks xs _ _ _).size = xs.size
    rw [exchangeBlocks, size_overwrite, size_overwrite]
  · exact size_exchangeCells _ _ _ xs

theorem moveRowsBy_eq (n : Nat) : ∀ xs : Array α,
    (∀ row, 0 < row → row ≤ n → A.ReadsRow xs.size old new row) →
      moveRowsBy A old new n xs = moveRows old new n xs := by
  induction n with
  | zero => exact fun xs _ => rfl
  | succ n ih =>
    intro xs hrows
    unfold moveRowsBy moveRows
    rw [moveRowBy_eq (hrows (n + 1) (Nat.succ_pos n) (le_refl _))]
    refine Reply.andThen_congr fun _ _ => ih _ fun row h0 hrow => ?_
    rw [size_moveRow]
    exact hrows row h0 (Nat.le_succ_of_le hrow)

theorem growBy_eq {xs : Array (Option α)} {directed : Bool}
    (hrows : directed = true → ∀ row, 0 < row → row ≤ (old - 1).toNat →
      A.ReadsRow (Position.padTo xs (count new true) none).size old new row) :
    growBy A xs old new directed = grow xs old new directed := by
  cases directed with
  | false => rfl
  | true =>
    unfold growBy grow growSquare
    rw [if_pos rfl, if_pos rfl]
    unfold lengthen
    split
    · rw [Reply.done_andThen, Reply.done_andThen]
      exact moveRowsBy_eq _ _ (hrows rfl)
    · rfl

end Slots

end rows

/-- The slot of the pair is found by its index. -/
def Addressing.Finds {α : Type} (A : Addressing) (m : WeightMatrix α) (a b : Int) : Prop :=
  A.Reads m.slots.size (m.slot a b)

namespace WeightMatrix

variable {α : Type} {A : Addressing} {m : WeightMatrix α} {r : PairMap α} {a b : Int}

theorem cellBy_eq (h : A.Finds m a b) : m.cellBy A a b = m.cell a b := by
  unfold Addressing.Finds Addressing.Reads at h
  unfold cellBy cell Position.read
  cases hentry : (Position.resolve? m.slots.size (m.slot a b)).bind (m.slots[·]?) with
  | none => simp only [h, hentry]
  | some x => simp only [h, hentry]

theorem storeBy_eq (h : A.Finds m a b) (content : Option α) (edgeCount : Nat) :
    m.storeBy A a b content edgeCount = m.store a b content edgeCount := by
  unfold Addressing.Finds Addressing.Reads at h
  unfold storeBy store
  cases hplace : Position.resolve? m.slots.size (m.slot a b) with
  | none => simp only [h, hplace]
  | some k => simp only [h, hplace]

/-- A scan only uses the slots of the pairs it is given. -/
theorem presentBy_eq (pairs : List (Nat × Nat)) (h : ∀ p ∈ pairs, A.Finds m p.1 p.2) :
    m.presentBy A pairs = m.present pairs := by
  induction pairs with
  | nil => rfl
  | cons p pairs ih =>
    have hcell := cellBy_eq (h p List.mem_cons_self)
    have hrest := ih fun p hp => h p (List.mem_cons_of_mem _ hp)
    unfold presentBy present
    cases hheld : m.cell p.1 p.2 with
    | error e => simp only [hcell, hheld]
    | ok old => cases old <;> simp only [hcell, hheld, hrest]

/-- All indices that a call to `m` may use: those of the pairs below the capacity, of the rows that
move in a growth, and of the pair for which there is room after it. -/
structure Usual (A : Addressing) (m : WeightMatrix α) : Prop where
  covered : ∀ a b, m.covers a b = true → A.Finds m a b
  growBy_eq : ∀ new : Int, (m.capacity : Int) < new →
    Slots.growBy A m.slots m.capacity new m.directed = Slots.grow m.slots m.capacity new m.directed
  made : ∀ a b, 0 ≤ a → 0 ≤ b → (m.makeRoom (max a b + 1)).result = .ok () →
    A.Finds (m.makeRoom (max a b + 1)).state a b

namespace Usual

theorem makeRoomBy_eq (h : Usual A m) (capacity : Int) :
    m.makeRoomBy A capacity = m.makeRoom capacity := by
  unfold makeRoomBy makeRoom
  by_cases hle : capacity ≤ m.capacity
  · rw [if_pos hle, if_pos hle]
  · rw [if_neg hle, if_neg hle, h.growBy_eq capacity (by omega)]

theorem prepareBy_eq (h : Usual A m) (a b : Int) (weight : Option α) :
    m.prepareBy A a b weight = m.prepare a b weight := by
  unfold prepareBy prepare
  by_cases hneg : a < 0 ∨ b < 0
  · rw [if_pos hneg, if_pos hneg]
  rw [if_neg hneg, if_neg hneg]
  cases weight with
  | none => rfl
  | some w =>
    dsimp only
    rw [h.makeRoomBy_eq]
    refine Reply.andThen_congr fun _ hok => ?_
    have hcell := cellBy_eq (h.made a b (by omega) (by omega) hok)
    cases hheld : (m.makeRoom (max a b + 1)).state.cell a b with
    | error e => simp only [hcell, hheld]
    | ok old => simp only [hcell, hheld]

/-- What follows the checks of a write finds the slot that they found. -/
theorem finds_prepare (h : Usual A m) {weight : Option α} {x : Option α × α}
    (hok : (m.prepare a b weight).result = .ok x) : A.Finds (m.prepare a b weight).state a b := by
  unfold prepare at hok ⊢
  by_cases hneg : a < 0 ∨ b < 0
  · rw [if_pos hneg] at hok
    cases hok
  rw [if_neg hneg] at hok ⊢
  cases weight with
  | none => cases hok
  | some w =>
    dsimp only at hok ⊢
    rw [Reply.result_andThen] at hok
    rw [Reply.state_andThen]
    cases hmake : (m.makeRoom (max a b + 1)).result with
    | error e =>
      rw [hmake] at hok
      cases hok
    | ok u =>
      have hfinds := h.made a b (by omega) (by omega) hmake
      show A.Finds (Reply.state _) a b
      cases (m.makeRoom (max a b + 1)).state.cell a b <;> exact hfinds

theorem insertBy_eq (h : Usual A m) (a b : Int) (weight : Option α) :
    m.insertBy A a b weight = m.insert a b weight := by
  unfold insertBy insert
  rw [h.prepareBy_eq]
  refine Reply.andThen_congr fun (old, w) hok => ?_
  cases old with
  | some _ => rfl
  | none => exact storeBy_eq (h.finds_prepare hok) _ _

theorem putBy_eq (h : Usual A m) (a b : Int) (weight : Option α) :
    m.putBy A a b weight = m.put a b weight := by
  unfold putBy put
  rw [h.prepareBy_eq]
  refine Reply.andThen_congr fun (old, w) hok => ?_
  dsimp only
  rw [storeBy_eq (h.finds_prepare hok)]

theorem eraseBy_eq (h : Usual A m) (a b : Int) : m.eraseBy A a b = m.erase a b := by
  unfold eraseBy erase
  by_cases hcov : m.covers a b = true
  · have hfinds := h.covered a b hcov
    rw [if_pos hcov, if_pos hcov, cellBy_eq hfinds]
    cases m.cell a b with
    | error e => rfl
    | ok old =>
      cases old with
      | none => rfl
      | some w =>
        dsimp only
        rw [storeBy_eq hfinds]
  · rw [if_neg hcov, if_neg hcov]

theorem weightBy?_eq (h : Usual A m) (a b : Int) : m.weightBy? A a b = m.weight? a b := by
  unfold weightBy? weight?
  by_cases hcov : m.covers a b = true
  · rw [if_pos hcov, if_pos hcov, cellBy_eq (h.covered a b hcov)]
  · rw [if_neg hcov, if_neg hcov]

theorem answerBy_eq (h : Usual A m) (call : Call α) : m.answerBy A call = m.answer call := by
  cases call with
  | insert a b weight => rw [answerBy, h.insertBy_eq, answer]
  | put a b weight => rw [answerBy, h.putBy_eq, answer]
  | erase a b => rw [answerBy, h.eraseBy_eq, answer]
  | makeRoom capacity => rw [answerBy, h.makeRoomBy_eq, answer]
  | weight? a b => rw [answerBy, h.weightBy?_eq, answer]
  | contains a b => rw [answerBy, h.weightBy?_eq, answer, contains]

end Usual

/-! ## From either end, and inside only -/

/-- Nothing is asked of the matrix. -/
theorem usual_eitherEnd (m : WeightMatrix α) : Usual .eitherEnd m where
  covered _ _ _ := rfl
  growBy_eq _ _ := Slots.growBy_eq fun _ _ _ _ => ⟨rfl, rfl, fun _ _ => ⟨rfl, rfl⟩⟩
  made _ _ _ _ _ := rfl

theorem answerBy_eitherEnd (m : WeightMatrix α) (call : Call α) :
    m.answerBy .eitherEnd call = m.answer call := (usual_eitherEnd m).answerBy_eq call

theorem presentBy_eitherEnd (m : WeightMatrix α) (pairs : List (Nat × Nat)) :
    m.presentBy .eitherEnd pairs = m.present pairs := presentBy_eq pairs fun _ _ => rfl

/-- The pair of a slot is below the capacity. -/
theorem finds_of_covers (A : Addressing) (hm : m.Sound) (hcov : m.covers a b = true) :
    A.Finds m a b := by
  obtain ⟨hslot, hlt⟩ := slot_lt hm hcov
  have h0 : 0 ≤ m.slot a b := by omega
  have hsize : m.slot a b < m.slots.size := by omega
  exact (A.place_eq h0 hsize).trans (Addressing.eitherEnd.place_eq h0 hsize).symm

/-- Both places of a row that moves lie in the storage. -/
theorem readsRow_of_lt (A : Addressing) {size old new row : Nat} (hle : old ≤ new)
    (hrow : row < old) (hsize : new * new ≤ size) : A.ReadsRow size old new row := by
  have hnew : row * new + old ≤ size := by
    have hmul := Nat.mul_le_mul_right new (show row + 1 ≤ new by omega)
    rw [Nat.succ_mul] at hmul
    omega
  have hold : row * old ≤ row * new := Nat.mul_le_mul_left row hle
  have hp : (row : Int) * (old : Int) = ((row * old : Nat) : Int) := by push_cast; rfl
  have hq : (row : Int) * (new : Int) = ((row * new : Nat) : Int) := by push_cast; rfl
  have hreads : ∀ i : Int, 0 ≤ i → i < size → A.Reads size i := fun i h0 hi =>
    (A.place_eq h0 hi).trans (Addressing.eitherEnd.place_eq h0 hi).symm
  refine ⟨A.block_eq (by omega) (by omega), A.block_eq (by omega) (by omega), fun i hi => ?_⟩
  exact ⟨hreads _ (by omega) (by omega), hreads _ (by omega) (by omega)⟩

/-- On a matrix that calls can make no index leads outside the storage. -/
theorem Mirrors.usual (h : Mirrors m r) (A : Addressing) : Usual A m where
  covered _ _ hcov := finds_of_covers A h.sound hcov
  growBy_eq new hlt := by
    obtain ⟨new, rfl⟩ := Int.eq_ofNat_of_zero_le (show 0 ≤ new by omega)
    refine Slots.growBy_eq fun _ row h0 hrow => ?_
    -- the rows only move once the storage is as long as the new square
    have hsize : new * new ≤ (Position.padTo m.slots (Slots.count new true) none).size := by
      rw [Position.size_padTo, Slots.toNat_count_directed]
      exact le_max_right _ _
    exact readsRow_of_lt A (by omega) (by omega) hsize
  made a b ha hb hok := finds_of_covers A (mirrors_makeRoom h (max a b + 1)).state.sound
    (h.covers_makeRoom ha hb hok)

/-- The pairs that a row, a column and the list of all edges go through. -/
inductive Scan (m : WeightMatrix α) : List (Nat × Nat) → Prop
  | row (v : Int) : Scan m (m.rowPairs v)
  | column (v : Int) : Scan m (m.columnPairs v)
  | all : Scan m m.allPairs

theorem Scan.covers {pairs : List (Nat × Nat)} (h : Scan m pairs) :
    ∀ p ∈ pairs, m.covers p.1 p.2 = true := by
  intro p hp
  cases h with
  | row v => exact (mem_rowPairs.1 hp).2
  | column v => exact (mem_columnPairs.1 hp).2
  | all =>
    obtain ⟨ha, hb, _⟩ := mem_allPairs.1 hp
    exact covers_natCast ha hb

/-- No index that is used for `m` lies outside its storage: whatever such an index would mean, all
calls and scans go the same way, and where it would be refused, none is. -/
structure Inside (m : WeightMatrix α) : Prop where
  answer_eq : ∀ (A : Addressing) (call : Call α), m.answerBy A call = m.answer call
  answer_ne : ∀ call : Call α, (m.answerBy .strict call).result ≠ .error .outOfRange
  scan_eq : ∀ (A : Addressing) (pairs : List (Nat × Nat)), Scan m pairs →
    m.presentBy A pairs = m.present pairs
  scan_ok : ∀ pairs : List (Nat × Nat), Scan m pairs → ∃ es, m.presentBy .strict pairs = .ok es

theorem Mirrors.inside (h : Mirrors m r) : Inside m where
  answer_eq A := (h.usual A).answerBy_eq
  answer_ne call hrange := by
    rw [(h.usual .strict).answerBy_eq] at hrange
    rcases (h.spotless call).of_error hrange with ⟨hsome, _⟩ | ⟨_, hroom, _⟩
    · exact hsome rfl
    · rw [hrange] at hroom
      cases hroom
  scan_eq A pairs hscan := presentBy_eq pairs fun p hp =>
    finds_of_covers A h.sound (hscan.covers p hp)
  scan_ok pairs hscan := by
    rw [presentBy_eq pairs fun p hp => finds_of_covers .strict h.sound (hscan.covers p hp)]
    exact ⟨_, present_eq h.sound pairs hscan.covers⟩

/-- Whatever calls led to a matrix, refused ones included, its storage is in order and no index
leads out of it. -/
theorem wellStored_inside (directed : Bool) (capacity : Int) (calls : List (Call α)) :
    WellStored (reached directed capacity calls) ∧ Inside (reached directed capacity calls) := by
  obtain ⟨r, h⟩ := exists_mirrors_reached directed capacity calls
  exact ⟨h.wellStored, h.inside⟩

end WeightMatrix

end IndexGraph
