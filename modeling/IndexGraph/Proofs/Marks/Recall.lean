import IndexGraph.Proofs.Agrees
import IndexGraph.Proofs.Marks

/-
  Marks recall exactly what was marked, in whatever order the calls came and however far the flags
  had to be padded on the way (`recalls_answers`): a vertex is new if no call has marked it so far,
  it is reported as marked if one has, and a call about one vertex leaves the others as they are.
  The calls made so far take the place of the flags. One call keeps `Remembers`
  (`Remembers.answer`), so a run of calls does (`Remembers.run`). That there are fewer flags than
  there is room for is part of it: hence it depends on the vertex alone whether it can be marked.
-/

namespace IndexGraph.Marks

/-- A call to a set of marks. -/
inductive Call where
  | mark (v : Int)
  | isMarked (v : Int)
  deriving DecidableEq

/-- What the marks answer to a call. Asking changes nothing. -/
def answer (m : Marks) : Call → Reply Marks Bool
  | .mark v => m.mark v
  | .isMarked v => .done (m.isMarked v) m

variable {m : Marks} {before : List Call} {v : Int}

/-! ## How many flags there are -/

theorem size_markPadded (m : Marks) (v : Int) :
    (m.markPadded v).state.flags.size = m.flags.size := by
  unfold markPadded
  split
  · rfl
  · split
    · rfl
    · exact Array.size_setIfInBounds

theorem size_mark_lt (hroom : m.flags.size < Length.room) (v : Int) :
    (m.mark v).state.flags.size < Length.room := by
  unfold mark
  split
  · rename_i hext
    unfold Length.Extensible at hext
    rw [size_markPadded, pad, Position.size_padTo]
    omega
  · exact hroom

/-- With fewer flags than there is room for, all vertices for which there may be none are
refused. -/
theorem mark_refused (hroom : m.flags.size < Length.room) (h0 : 0 ≤ v) (hv : ¬ Markable v) :
    m.mark v = .fail .noRoom m ∨ m.mark v = .fail .lengthRange m := by
  have hext : ¬ Length.Extensible m.flags.size (v + 1) := by
    unfold Length.Extensible
    unfold Markable at hv
    omega
  rw [mark, if_neg hext]
  rcases Length.refusal_cases (v + 1 - m.flags.size) with hwhy | hwhy
  · exact .inl (by rw [hwhy])
  · exact .inr (by rw [hwhy])

theorem exists_mark (m : Marks) (hv : Markable v) :
    ∃ m', m.mark v = .done (!m.isMarked v) m' ∧
      ∀ w, m'.isMarked w = (m.isMarked w || decide (w = v)) := by
  obtain ⟨k, rfl⟩ := Int.eq_ofNat_of_zero_le hv.1
  exact m.mark_natCast k (.inr hv.2)

/-! ## The calls so far -/

/-- The marked vertices are those that the calls in `before` marked, and there is room to spare. -/
structure Remembers (m : Marks) (before : List Call) : Prop where
  room : m.flags.size < Length.room
  isMarked_iff : ∀ v, m.isMarked v = true ↔ Markable v ∧ .mark v ∈ before

theorem remembers_ofCapacity {capacity : Nat} (h : capacity < Length.room) :
    ∃ m, ofCapacity capacity = .ok m ∧ Remembers m [] := by
  have hok : ofCapacity capacity = .ok ⟨Array.replicate capacity false⟩ := by
    rw [ofCapacity, Length.fresh_natCast h]
    rfl
  refine ⟨_, hok, ?_, fun v => ?_⟩
  · rw [Array.size_replicate]
    exact h
  · rw [isMarked_of_ofCapacity hok v]
    simp

namespace Remembers

theorem mark (h : Remembers m before) (h0 : 0 ≤ v) :
    Remembers (m.mark v).state (before ++ [.mark v]) := by
  have hmem : ∀ w, Call.mark w ∈ before ++ [.mark v] ↔ .mark w ∈ before ∨ w = v := by
    intro w
    rw [List.mem_append, List.mem_singleton, Call.mark.injEq]
  refine ⟨size_mark_lt h.room v, fun w => ?_⟩
  rw [hmem]
  by_cases hv : Markable v
  · obtain ⟨m', hmark, hmarks⟩ := m.exists_mark hv
    have hstate : (m.mark v).state = m' := by rw [hmark]; rfl
    rw [hstate, hmarks, Bool.or_eq_true, h.isMarked_iff, decide_eq_true_iff, and_or_left]
    refine or_congr_right ⟨?_, And.right⟩
    rintro rfl
    exact ⟨hv, rfl⟩
  · -- nothing is marked, and `v` is not among the vertices that can be
    have hstate : (m.mark v).state = m := by
      rcases mark_refused h.room h0 hv with hmark | hmark
      · rw [hmark]; rfl
      · rw [hmark]; rfl
    rw [hstate, h.isMarked_iff]
    refine and_congr_right fun hw => ⟨.inl, fun hor => hor.resolve_right ?_⟩
    rintro rfl
    exact hv hw

/-- One call, which is then one of those made before. -/
theorem answer (h : Remembers m before) {call : Call} (h0 : ∀ v, call = .mark v → 0 ≤ v) :
    Remembers (m.answer call).state (before ++ [call]) := by
  cases call with
  | mark v => exact h.mark (h0 v rfl)
  | isMarked v =>
    refine ⟨h.room, fun w => (h.isMarked_iff w).trans ?_⟩
    simp

theorem run (calls : List Call) : ∀ (m : Marks) (before : List Call), Remembers m before →
    (∀ v, .mark v ∈ calls → 0 ≤ v) →
      Remembers (answers Marks.answer m calls).2 (before ++ calls) := by
  induction calls with
  | nil =>
    intro m before h _
    rw [List.append_nil]
    exact h
  | cons call calls ih =>
    intro m before h h0
    have hnext := ih _ _ (h.answer fun v hv => h0 v (hv ▸ List.mem_cons_self))
      fun v hv => h0 v (List.mem_cons_of_mem call hv)
    rw [List.append_assoc] at hnext
    exact hnext

theorem result_mark (h : Remembers m before) (hv : Markable v) :
    (m.mark v).result = .ok (decide (.mark v ∉ before)) := by
  obtain ⟨m', hmark, _⟩ := m.exists_mark hv
  have hmarked : m.isMarked v = decide (.mark v ∈ before) := by
    rw [Bool.eq_iff_iff, h.isMarked_iff, decide_eq_true_iff, and_iff_right hv]
  rw [hmark, hmarked, ← decide_not]
  rfl

end Remembers

/-! ## What is told of each vertex -/

/-- The marks answer the next call as the calls in `before` ask for. -/
structure Recalls (m : Marks) (before : List Call) : Prop where
  /-- A vertex is marked exactly if a call marked it. -/
  isMarked_iff : ∀ v, m.isMarked v = true ↔ Markable v ∧ .mark v ∈ before
  outside : ∀ v, v < 0 ∨ (m.flags.size : Int) ≤ v → m.isMarked v = false
  /-- A vertex is new exactly if no call marked it. -/
  result_mark : ∀ v, Markable v → (m.mark v).result = .ok (decide (.mark v ∉ before))
  refused : ∀ v, 0 ≤ v → ¬ Markable v →
    m.mark v = .fail .noRoom m ∨ m.mark v = .fail .lengthRange m
  /-- Marking a vertex changes no answer about another one. -/
  others : ∀ v w, 0 ≤ v → w ≠ v → (m.mark v).state.isMarked w = m.isMarked w ∧
    (Markable w → ((m.mark v).state.mark w).result = (m.mark w).result)

theorem isMarked_eq_false (h : v < 0 ∨ (m.flags.size : Int) ≤ v) : m.isMarked v = false := by
  rcases h with hneg | hsize
  · exact m.isMarked_of_neg hneg
  · unfold isMarked
    rw [Array.getElem?_eq_none (by omega)]
    exact Bool.and_false _

theorem Remembers.recalls (h : Remembers m before) : Recalls m before where
  isMarked_iff := h.isMarked_iff
  outside _ := isMarked_eq_false
  result_mark _ := h.result_mark
  refused _ := mark_refused h.room
  others v w h0 hne := by
    have hmark := h.mark h0
    have hmem : Call.mark w ∈ before ++ [.mark v] ↔ .mark w ∈ before := by simp [hne]
    constructor
    · rw [Bool.eq_iff_iff, hmark.isMarked_iff, h.isMarked_iff, hmem]
    · intro hw
      rw [hmark.result_mark hw, h.result_mark hw, decide_eq_decide.2 (not_congr hmem)]

/-- For every room to begin with that can be had and every list of calls in which no negative vertex
is marked, the marks recall these calls, those that were refused for want of room apart. -/
theorem recalls_answers (capacity : Nat) (before : List Call)
    (h0 : ∀ v, .mark v ∈ before → 0 ≤ v) :
    if capacity < Length.room then
      ∃ m, ofCapacity capacity = .ok m ∧ Recalls (answers answer m before).2 before
    else ofCapacity capacity = .error .noRoom ∨ ofCapacity capacity = .error .lengthRange := by
  split
  · rename_i hroom
    obtain ⟨m, hok, hstart⟩ := remembers_ofCapacity hroom
    exact ⟨m, hok, (Remembers.run before m [] hstart h0).recalls⟩
  · rename_i hroom
    rw [ofCapacity, Length.fresh_of_not_lt hroom]
    rcases Length.refusal_cases capacity with hwhy | hwhy
    · exact .inl (by rw [hwhy]; rfl)
    · exact .inr (by rw [hwhy]; rfl)

/-- The two flags become six when vertex 5 is marked; a question about a vertex beyond them gives
them no more. -/
theorem recalls_answers_growing :
    let calls : List Call := [.mark 5, .isMarked (-1), .mark 0, .mark 5, .isMarked 9]
    let m : Marks := ⟨#[false, false]⟩
    (∀ v, .mark v ∈ calls → 0 ≤ v) ∧ ofCapacity 2 = .ok m ∧
      Recalls (answers answer m calls).2 calls ∧
      answers answer m calls = ([.ok true, .ok false, .ok true, .ok false, .ok false],
        ⟨#[true, false, false, false, false, true]⟩) := by
  intro calls m
  have h0 : ∀ v, .mark v ∈ calls → 0 ≤ v := by
    intro v hv
    simp [calls] at hv
    omega
  have hm : ofCapacity 2 = .ok m := by decide
  have hrecalls := recalls_answers 2 calls h0
  rw [if_pos (by decide)] at hrecalls
  obtain ⟨m', hok, h⟩ := hrecalls
  obtain rfl : m' = m := Except.ok.inj (hok.symm.trans hm)
  exact ⟨h0, hm, h, by decide⟩

/-- No call has marked `2 ^ 63` yet, but it cannot be marked. -/
theorem mark_eq_lengthRange :
    ofCapacity 0 = .ok empty ∧ .mark 9223372036854775808 ∉ ([] : List Call) ∧
      (empty.mark 9223372036854775808).result = .error .lengthRange := by
  decide

end IndexGraph.Marks
