import IndexGraph.Marks
import Mathlib.Data.Finset.Card
import Mathlib.Data.Finset.Insert
import Mathlib.Data.Finset.Lattice.Lemmas

/-
  Marks read as a finite set. `Holds m s` says that the flags of `m` stand for the set `s`; the
  searches are then followed on sets. Marking a vertex answers whether it is new and inserts it,
  unless it is so large that there is no room for its flag (`Holds.mark_cases`); marking several
  in turn tells which of them are new (`Holds.markAll_cases`).
  `Answered order r`: a search answers `order`, or is refused for want of room.
-/

namespace IndexGraph

/-- A vertex that is not negative and for which flags may be asked. -/
def Markable (v : Int) : Prop := 0 ≤ v ∧ v + 1 < Length.room

theorem markable_of_lt {n : Nat} (hn : n < Length.room) {v : Int} (h0 : 0 ≤ v) (hv : v < n) :
    Markable v := by
  refine ⟨h0, ?_⟩
  omega

namespace Marks

/-- The marked vertices are those of `s`. -/
def Holds (m : Marks) (s : Finset Int) : Prop := ∀ v, m.isMarked v = decide (v ∈ s)

theorem holds_empty : Holds empty ∅ := by
  intro v
  simp

/-- Marking a vertex inserts it, and tells whether it is new; only a vertex for which there may be
no room is refused. -/
theorem Holds.mark_cases {m : Marks} {s : Finset Int} (h : m.Holds s) {v : Int} (h0 : 0 ≤ v) :
    (¬ Markable v ∧ ∃ k, m.mark v = .fail (Length.refusal k) m) ∨
      ∃ m', m.mark v = .done (decide (v ∉ s)) m' ∧ m'.Holds (insert v s) := by
  obtain ⟨k, rfl⟩ := Int.eq_ofNat_of_zero_le h0
  by_cases hext : Length.Extensible m.flags.size (k + 1)
  · obtain ⟨m', hmark, hmarks⟩ := m.mark_natCast k hext
    refine .inr ⟨m', ?_, fun w => ?_⟩
    · rw [hmark, h (k : Int)]
      simp
    · rw [hmarks w, h w]
      simp [or_comm]
  · refine .inl ⟨fun hv => hext ?_, _, if_neg hext⟩
    have hroom := hv.2
    unfold Length.Extensible
    omega

/-- The first vertex is marked if there is room for it. -/
theorem mark_empty_cases {v : Int} (h0 : 0 ≤ v) :
    (¬ Markable v ∧ empty.mark v = .fail (Length.refusal (v + 1)) empty) ∨
      Markable v ∧ ∃ m, empty.mark v = .done true m ∧ m.Holds {v} := by
  by_cases hv : Markable v
  · rcases holds_empty.mark_cases h0 with ⟨hno, _⟩ | ⟨m, hmark, hm⟩
    · exact absurd hv hno
    · exact .inr ⟨hv, m, hmark, hm⟩
  · refine .inl ⟨hv, ?_⟩
    have hext : ¬ Length.Extensible empty.flags.size (v + 1) := by
      have hsize : empty.flags.size = 0 := rfl
      rw [hsize]
      intro hcase
      rcases hcase with hle | hlt
      · omega
      · exact hv ⟨h0, hlt⟩
    have hmissing : v + 1 - (empty.flags.size : Int) = v + 1 := Int.sub_zero _
    rw [mark, if_neg hext, hmissing]

/-- The listed vertices that are not in `found`, each where it is listed first. -/
def newcomers (found : Finset Int) : List Int → List Int
  | [] => []
  | v :: vs => if v ∈ found then newcomers found vs else v :: newcomers (insert v found) vs

theorem mem_newcomers {found : Finset Int} {vs : List Int} {v : Int} :
    v ∈ newcomers found vs ↔ v ∈ vs ∧ v ∉ found := by
  induction vs generalizing found with
  | nil => simp [newcomers]
  | cons u vs ih =>
    rw [newcomers]
    split
    · rename_i hu
      rw [ih, List.mem_cons]
      refine ⟨fun h => ⟨.inr h.1, h.2⟩, fun h => ⟨h.1.resolve_left ?_, h.2⟩⟩
      rintro rfl
      exact h.2 hu
    · rename_i hu
      rw [List.mem_cons, ih, Finset.mem_insert, List.mem_cons]
      by_cases hvu : v = u
      · subst hvu
        simp [hu]
      · simp [hvu]

theorem nodup_newcomers (found : Finset Int) (vs : List Int) : (newcomers found vs).Nodup := by
  induction vs generalizing found with
  | nil => exact List.nodup_nil
  | cons u vs ih =>
    rw [newcomers]
    split
    · exact ih found
    · refine List.nodup_cons.2 ⟨fun hu => ?_, ih _⟩
      exact (mem_newcomers.1 hu).2 (Finset.mem_insert_self u found)

theorem length_newcomers_le (found : Finset Int) (vs : List Int) :
    (newcomers found vs).length ≤ vs.length := by
  induction vs generalizing found with
  | nil => exact Nat.le_refl 0
  | cons u vs ih =>
    rw [newcomers]
    split
    · exact Nat.le_succ_of_le (ih found)
    · exact Nat.succ_le_succ (ih _)

/-- Of two lists the second is gone through with the first one marked. -/
theorem newcomers_append (found : Finset Int) (us vs : List Int) :
    newcomers found (us ++ vs) = newcomers found us ++ newcomers (found ∪ us.toFinset) vs := by
  induction us generalizing found with
  | nil => simp [newcomers]
  | cons u us ih =>
    have hunion : insert u found ∪ us.toFinset = found ∪ (u :: us).toFinset := by
      rw [List.toFinset_cons, Finset.union_insert, Finset.insert_union]
    rw [List.cons_append, newcomers, newcomers, ← hunion]
    split
    · rename_i hu
      rw [ih, Finset.insert_eq_of_mem hu]
    · rw [ih, List.cons_append]

/-- What is new in a region is what is marked more of it afterwards. -/
theorem length_newcomers_add_card {region : Finset Int} (found : Finset Int) {vs : List Int}
    (hvs : ∀ v ∈ vs, v ∈ region) :
    (newcomers found vs).length + (region \ (found ∪ vs.toFinset)).card =
      (region \ found).card := by
  have hnew : (newcomers found vs).toFinset = vs.toFinset \ found := by
    ext v
    rw [List.mem_toFinset, mem_newcomers, Finset.mem_sdiff, List.mem_toFinset]
  have hsub : vs.toFinset \ found ⊆ region \ found :=
    Finset.sdiff_subset_sdiff (fun v hv => hvs v (List.mem_toFinset.1 hv)) (Finset.Subset.refl _)
  have hrest : region \ (found ∪ vs.toFinset) = (region \ found) \ (vs.toFinset \ found) := by
    ext v
    simp only [Finset.mem_sdiff, Finset.mem_union]
    tauto
  rw [← List.toFinset_card_of_nodup (nodup_newcomers found vs), hnew, hrest, Nat.add_comm,
    Finset.card_sdiff_add_card_eq_card hsub]

/-- A list of different vertices, none of them marked, is new as a whole. -/
theorem newcomers_eq_self {found : Finset Int} {vs : List Int} (hnd : vs.Nodup)
    (hnew : ∀ v ∈ vs, v ∉ found) : newcomers found vs = vs := by
  induction vs generalizing found with
  | nil => rfl
  | cons u vs ih =>
    obtain ⟨hu, hnd⟩ := List.nodup_cons.1 hnd
    rw [newcomers, if_neg (hnew u List.mem_cons_self), ih hnd fun v hv hmem => ?_]
    rcases Finset.mem_insert.1 hmem with rfl | hmem
    · exact hu hv
    · exact hnew v (List.mem_cons_of_mem u hv) hmem

/-- A sweep marks all listed vertices and puts the new ones before `acc`, the last one first,
unless it comes to a vertex for which there may be no room. -/
theorem Holds.markAll_cases {m : Marks} {s : Finset Int} (h : m.Holds s) {vs : List Int}
    (hpos : ∀ v ∈ vs, 0 ≤ v) (acc : List Int) :
    ((∃ v ∈ vs, ¬ Markable v) ∧
        ∃ k, (m.markAll acc vs).fault = some (Length.refusal k)) ∨
      (m.markAll acc vs).fault = none ∧
        (m.markAll acc vs).fresh = (newcomers s vs).reverse ++ acc ∧
        (m.markAll acc vs).marks.Holds (s ∪ vs.toFinset) := by
  induction vs generalizing m s acc with
  | nil => exact .inr ⟨rfl, rfl, by simpa [markAll] using h⟩
  | cons v vs ih =>
    have hpos' : ∀ w ∈ vs, 0 ≤ w := fun w hw => hpos w (List.mem_cons_of_mem v hw)
    rcases h.mark_cases (hpos v List.mem_cons_self) with ⟨hno, k, hmark⟩ | ⟨m', hmark, hm'⟩
    · refine .inl ⟨⟨v, List.mem_cons_self, hno⟩, k, ?_⟩
      simp only [markAll, hmark, Reply.fail]
    have hunion : insert v s ∪ vs.toFinset = s ∪ (v :: vs).toFinset := by
      rw [List.toFinset_cons, Finset.union_insert, Finset.insert_union]
    -- a vertex that was marked before is passed over
    by_cases hv : v ∈ s
    · have hstep : m.markAll acc (v :: vs) = m'.markAll acc vs := by
        simp only [markAll, hmark, Reply.done, hv, not_true_eq_false, decide_false]
      rw [hstep, ← hunion, newcomers, if_pos hv]
      rcases ih hm' hpos' acc with ⟨⟨w, hw, hno⟩, hfault⟩ | ⟨hfault, hfresh, hmarks⟩
      · exact .inl ⟨⟨w, List.mem_cons_of_mem v hw, hno⟩, hfault⟩
      · rw [Finset.insert_eq_of_mem hv] at hmarks ⊢
        rw [Finset.insert_eq_of_mem hv] at hfresh
        exact .inr ⟨hfault, hfresh, hmarks⟩
    · have hstep : m.markAll acc (v :: vs) = m'.markAll (v :: acc) vs := by
        simp only [markAll, hmark, Reply.done, hv, not_false_eq_true, decide_true]
      rw [hstep, ← hunion, newcomers, if_neg hv]
      rcases ih hm' hpos' (v :: acc) with ⟨⟨w, hw, hno⟩, hfault⟩ | ⟨hfault, hfresh, hmarks⟩
      · exact .inl ⟨⟨w, List.mem_cons_of_mem v hw, hno⟩, hfault⟩
      · exact .inr ⟨hfault, by simpa using hfresh, hmarks⟩

end Marks

/-- The vertices of `order` are answered, or the answer is refused because there may be no room
for the flag of one of them. -/
def Answered (order : List Int) (r : Except Fault (List Int)) : Prop :=
  r = .ok order ∨ (∃ v ∈ order, ¬ Markable v) ∧ ∃ k, r = .error (Length.refusal k)

theorem Answered.eq_ok {order : List Int} {r : Except Fault (List Int)} (h : Answered order r)
    (hall : ∀ v ∈ order, Markable v) : r = .ok order := by
  rcases h with h | ⟨hex, _⟩
  · exact h
  · obtain ⟨v, hv, hno⟩ := hex
    exact absurd (hall v hv) hno

end IndexGraph
