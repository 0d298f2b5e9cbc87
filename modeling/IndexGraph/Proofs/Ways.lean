import Mathlib.Algebra.Order.Ring.Nat
import Mathlib.Data.Finset.Prod
import Mathlib.Data.Int.Interval
import Mathlib.Data.List.Nodup
import Mathlib.Logic.Function.Basic
import Mathlib.Tactic.Ring

/-
  Ways with a cost, and labels that are lowered along arcs.
  `Way arc s as v c`: the arcs of `as`, the last one first, make a way from `s` to `v` that costs
  `c`. `Labels arc s used D` is what a search that only ever lowers labels keeps: the label of
  a vertex is the cost of a way of `used`, and no larger than the cost of any way of `used` to
  it; these ways repeat no vertex.
  Without a cycle of negative cost, lowering a label adds a new way (`Labels.lower`): had the way
  been used before, the label would be as low already, and had it been at the vertex before, the
  label would be lower than by the round trip. So the number of times that labels are lowered
  is bounded by the number of such ways (`Labels.card_le`), whatever the order of the steps is.
  Labels that no arc can lower are least (`Labels.least`).
-/

namespace IndexGraph

open Function (update)

/-- `as` lists the arcs of a way from `s` to `v` of cost `c`, the last one first; an arc is given
by its source, its end and its cost. -/
inductive Way (arc : Int → Int → Int → Prop) (s : Int) : List (Int × Int × Int) → Int → Int → Prop
  | start : Way arc s [] s 0
  | step {as : List (Int × Int × Int)} {u v c w : Int} (h : Way arc s as u c) (ha : arc u v w) :
      Way arc s ((u, v, w) :: as) v (c + w)

/-- Some way from `s` to `v` costs `c`. -/
def Costs (arc : Int → Int → Int → Prop) (s v c : Int) : Prop := ∃ as, Way arc s as v c

/-- The vertices that a way to `v` along `as` comes through. -/
def visited (v : Int) (as : List (Int × Int × Int)) : List Int := v :: as.map fun a => a.1

variable {arc : Int → Int → Int → Prop} {s u v w x c d : Int} {as bs : List (Int × Int × Int)}

namespace Way

theorem unique (h : Way arc s as u c) (h' : Way arc s as v d) : u = v ∧ c = d := by
  induction h generalizing v d with
  | start =>
    cases h'
    exact ⟨rfl, rfl⟩
  | step _ _ ih =>
    cases h' with
    | step h' _ =>
      obtain ⟨_, rfl⟩ := ih h'
      exact ⟨rfl, rfl⟩

theorem arc_of_mem (h : Way arc s as v c) {a : Int × Int × Int} (ha : a ∈ as) :
    arc a.1 a.2.1 a.2.2 := by
  induction h with
  | start => cases ha
  | step _ harc ih =>
    rcases List.mem_cons.1 ha with rfl | ha
    · exact harc
    · exact ih ha

/-- A way that comes through `x` is a way to `x` and one from there. -/
theorem split_at (h : Way arc s as v c) (hx : x ∈ visited v as) :
    ∃ bs d, bs <:+ as ∧ Way arc s bs x d ∧ Costs arc x v (c - d) := by
  induction h with
  | start =>
    obtain rfl := List.mem_singleton.1 hx
    exact ⟨[], 0, List.suffix_refl [], .start, [], .start⟩
  | @step as u v c w h ha ih =>
    rcases List.mem_cons.1 hx with rfl | hx
    · refine ⟨_, c + w, List.suffix_refl _, .step h ha, [], ?_⟩
      rw [Int.sub_self]
      exact .start
    · obtain ⟨bs, d, hbs, hway, as', hrest⟩ := ih hx
      refine ⟨bs, d, hbs.trans (List.suffix_cons _ _), hway, (u, v, w) :: as', ?_⟩
      have hcost : c + w - d = (c - d) + w := by omega
      rw [hcost]
      exact .step hrest ha

end Way

/-! ## How many ways there are -/

/-- The lists of at most the given length with entries of a finite set. -/
def listsUpTo {α : Type} [DecidableEq α] (letters : Finset α) : Nat → Finset (List α)
  | 0 => {[]}
  | n + 1 => insert [] ((letters ×ˢ listsUpTo letters n).image fun p => p.1 :: p.2)

section lists

variable {α : Type} [DecidableEq α] {letters : Finset α}

theorem mem_listsUpTo (n : Nat) : ∀ l : List α, l.length ≤ n → (∀ a ∈ l, a ∈ letters) →
    l ∈ listsUpTo letters n := by
  induction n with
  | zero =>
    intro l hl _
    rw [List.eq_nil_of_length_eq_zero (Nat.le_zero.1 hl)]
    exact Finset.mem_singleton_self []
  | succ n ih =>
    intro l hl hmem
    cases l with
    | nil => exact Finset.mem_insert_self _ _
    | cons a l =>
      refine Finset.mem_insert_of_mem (Finset.mem_image.2 ⟨(a, l), ?_, rfl⟩)
      refine Finset.mem_product.2 ⟨hmem a List.mem_cons_self, ih l ?_ fun b hb => ?_⟩
      · exact Nat.le_of_succ_le_succ hl
      · exact hmem b (List.mem_cons_of_mem a hb)

theorem card_listsUpTo_le (n : Nat) : (listsUpTo letters n).card ≤ (letters.card + 1) ^ n := by
  induction n with
  | zero => exact Nat.le_refl 1
  | succ n ih =>
    have hpos : 1 ≤ (letters.card + 1) ^ n := Nat.one_le_pow _ _ (Nat.succ_pos _)
    calc (listsUpTo letters (n + 1)).card
        ≤ ((letters ×ˢ listsUpTo letters n).image fun p => p.1 :: p.2).card + 1 :=
          Finset.card_insert_le _ _
      _ ≤ (letters ×ˢ listsUpTo letters n).card + 1 := Nat.succ_le_succ Finset.card_image_le
      _ = letters.card * (listsUpTo letters n).card + 1 := by rw [Finset.card_product]
      _ ≤ letters.card * (letters.card + 1) ^ n + (letters.card + 1) ^ n :=
          Nat.add_le_add (Nat.mul_le_mul_left _ ih) hpos
      _ = (letters.card + 1) ^ (n + 1) := by ring

end lists

/-! ## Labels -/

/-- The labels `D` come from the ways of `used`, which repeat no vertex. -/
structure Labels (arc : Int → Int → Int → Prop) (s : Int) (used : Finset (List (Int × Int × Int)))
    (D : Int → Option Int) : Prop where
  nil_mem : [] ∈ used
  closed : ∀ as ∈ used, ∀ bs, bs <:+ as → bs ∈ used
  way : ∀ as ∈ used, ∃ v c d, Way arc s as v c ∧ (visited v as).Nodup ∧ D v = some d ∧ d ≤ c
  achieved : ∀ v d, D v = some d → ∃ as ∈ used, Way arc s as v d

/-- No way from `s` comes to a cycle of negative cost. -/
def NoNegativeCycle (arc : Int → Int → Int → Prop) (s : Int) : Prop :=
  ∀ v c d, Costs arc s v c → Costs arc v v d → 0 ≤ d

/-- No arc out of `v`, which has the label `d`, can lower a label. -/
def Relaxed (arc : Int → Int → Int → Prop) (D : Int → Option Int) (v d : Int) : Prop :=
  ∀ x w, arc v x w → ∃ e, D x = some e ∧ e ≤ d + w

/-- Labels only fall. -/
def Falls (D D' : Int → Option Int) : Prop :=
  ∀ x e, D x = some e → ∃ e', D' x = some e' ∧ e' ≤ e

theorem Falls.refl (D : Int → Option Int) : Falls D D := fun _ e he => ⟨e, he, le_refl e⟩

theorem Falls.trans {D₁ D₂ D₃ : Int → Option Int} (h : Falls D₁ D₂) (h' : Falls D₂ D₃) :
    Falls D₁ D₃ := by
  intro x e he
  obtain ⟨e', he', hle⟩ := h x e he
  obtain ⟨e'', he'', hle'⟩ := h' x e' he'
  exact ⟨e'', he'', hle'.trans hle⟩

theorem falls_update {D : Int → Option Int} (h : ∀ e, D v = some e → c < e) :
    Falls D (update D v (some c)) := by
  intro x e he
  by_cases hx : x = v
  · subst hx
    exact ⟨c, Function.update_self .., (h e he).le⟩
  · exact ⟨e, by rw [Function.update_of_ne hx, he], le_refl e⟩

theorem Relaxed.falls {D D' : Int → Option Int} (h : Relaxed arc D v d) (hfalls : Falls D D') :
    Relaxed arc D' v d := by
  intro x w ha
  obtain ⟨e, he, hle⟩ := h x w ha
  obtain ⟨e', he', hle'⟩ := hfalls x e he
  exact ⟨e', he', hle'.trans hle⟩

theorem labels_start (arc : Int → Int → Int → Prop) (s : Int) :
    Labels arc s {[]} (update (fun _ => none) s (some 0)) := by
  refine ⟨Finset.mem_singleton_self [], fun as has bs hbs => ?_, fun as has => ?_,
    fun v d hd => ?_⟩
  · rw [Finset.mem_singleton.1 has] at hbs
    rw [List.suffix_nil.1 hbs]
    exact Finset.mem_singleton_self []
  · rw [Finset.mem_singleton.1 has]
    exact ⟨s, 0, 0, .start, List.nodup_singleton s, Function.update_self .., le_refl 0⟩
  · by_cases hv : v = s
    · subst hv
      rw [Function.update_self] at hd
      cases hd
      exact ⟨[], Finset.mem_singleton_self [], .start⟩
    · rw [Function.update_of_ne hv] at hd
      cases hd

namespace Labels

variable {used : Finset (List (Int × Int × Int))} {D : Int → Option Int}

/-- A way that was used keeps the label of its end at or below its cost. -/
theorem label_le (h : Labels arc s used D) (has : as ∈ used) (hway : Way arc s as v c) :
    ∃ d, D v = some d ∧ d ≤ c := by
  obtain ⟨v', c', d, hway', _, hd, hle⟩ := h.way as has
  obtain ⟨rfl, rfl⟩ := hway.unique hway'
  exact ⟨d, hd, hle⟩

/-- Lowering a label along an arc adds a way. -/
theorem lower (h : Labels arc s used D) (hcycle : NoNegativeCycle arc s) (hu : D u = some d)
    (ha : arc u v w) (hlt : ∀ e, D v = some e → d + w < e) :
    v ≠ u ∧ ∃ as ∉ used, Labels arc s (insert as used) (update D v (some (d + w))) := by
  obtain ⟨as, has, hway⟩ := h.achieved u d hu
  obtain ⟨u', _, _, hway', hnodup, _, _⟩ := h.way as has
  obtain ⟨rfl, _⟩ := hway'.unique hway
  -- the way to `u` has not been at `v`: from there it would be a cycle back to `v`
  have hnew : v ∉ visited u' as := by
    intro hv
    obtain ⟨bs, e, hbs, hbway, as', hrest⟩ := hway.split_at hv
    obtain ⟨e', he', hle⟩ := h.label_le (h.closed as has bs hbs) hbway
    have hround : 0 ≤ d - e + w := hcycle v e _ ⟨bs, hbway⟩ ⟨_, .step hrest ha⟩
    have := hlt e' he'
    omega
  have hlong := Way.step hway ha
  refine ⟨fun heq => hnew (heq ▸ List.mem_cons_self), (u', v, w) :: as, fun hmem => ?_, ?_⟩
  · obtain ⟨e, he, hle⟩ := h.label_le hmem hlong
    have := hlt e he
    omega
  · have hfalls := falls_update hlt
    refine ⟨Finset.mem_insert_of_mem h.nil_mem, fun cs hcs bs hbs => ?_, fun cs hcs => ?_,
      fun x e he => ?_⟩
    · rcases Finset.mem_insert.1 hcs with rfl | hcs
      · rcases List.suffix_cons_iff.1 hbs with rfl | hbs
        · exact Finset.mem_insert_self _ _
        · exact Finset.mem_insert_of_mem (h.closed as has bs hbs)
      · exact Finset.mem_insert_of_mem (h.closed cs hcs bs hbs)
    · rcases Finset.mem_insert.1 hcs with rfl | hcs
      · exact ⟨v, d + w, d + w, hlong, List.nodup_cons.2 ⟨hnew, hnodup⟩,
          Function.update_self .., le_refl _⟩
      · obtain ⟨x, c, e, hcway, hcnodup, he, hle⟩ := h.way cs hcs
        obtain ⟨e', he', hle'⟩ := hfalls x e he
        exact ⟨x, c, e', hcway, hcnodup, he', hle'.trans hle⟩
    · by_cases hx : x = v
      · subst hx
        rw [Function.update_self] at he
        cases he
        exact ⟨_, Finset.mem_insert_self _ _, hlong⟩
      · rw [Function.update_of_ne hx] at he
        obtain ⟨cs, hcs, hcway⟩ := h.achieved x e he
        exact ⟨cs, Finset.mem_insert_of_mem hcs, hcway⟩

/-- There are no more used ways than lists of different arcs with different sources. -/
theorem card_le (h : Labels arc s used D) {letters : Finset (Int × Int × Int)} {extent : Nat}
    (hletters : ∀ u v w, arc u v w → (u, v, w) ∈ letters)
    (hextent : ∀ u v w, arc u v w → 0 ≤ u ∧ u < extent) :
    used.card ≤ (letters.card + 1) ^ min extent letters.card := by
  refine le_trans (Finset.card_le_card fun as has => ?_) (card_listsUpTo_le _)
  obtain ⟨v, c, d, hway, hnodup, _, _⟩ := h.way as has
  have hsources : (as.map fun a => a.1).Nodup := (List.nodup_cons.1 hnodup).2
  have hmem : ∀ a ∈ as, a ∈ letters := fun a ha => hletters _ _ _ (hway.arc_of_mem ha)
  refine mem_listsUpTo _ as (le_min ?_ ?_) hmem
  · have hsub : (as.map fun a => a.1).toFinset ⊆ Finset.Ico (0 : Int) extent := by
      intro u hu
      obtain ⟨a, ha, rfl⟩ := List.mem_map.1 (List.mem_toFinset.1 hu)
      exact Finset.mem_Ico.2 (hextent _ _ _ (hway.arc_of_mem ha))
    have hcard := Finset.card_le_card hsub
    rw [List.toFinset_card_of_nodup hsources, List.length_map, Int.card_Ico] at hcard
    omega
  · have hsub : as.toFinset ⊆ letters := fun a ha => hmem a (List.mem_toFinset.1 ha)
    have hcard := Finset.card_le_card hsub
    rwa [List.toFinset_card_of_nodup hsources.of_map] at hcard

/-- Labels that no arc can lower are the least costs. -/
theorem least (h : Labels arc s used D) (hrelaxed : ∀ v d, D v = some d → Relaxed arc D v d)
    (v : Int) : (∃ d, D v = some d ∧ Costs arc s v d ∧ ∀ c, Costs arc s v c → d ≤ c) ∨
      D v = none ∧ ∀ c, ¬ Costs arc s v c := by
  have hbound : ∀ v c, Costs arc s v c → ∃ d, D v = some d ∧ d ≤ c := by
    intro v c hex
    obtain ⟨as, hway⟩ := hex
    induction hway with
    | start => exact h.label_le h.nil_mem .start
    | @step as u v c w _ ha ih =>
      obtain ⟨d, hd, hle⟩ := ih
      obtain ⟨e, he, hle'⟩ := hrelaxed u d hd v w ha
      exact ⟨e, he, by omega⟩
  cases hv : D v with
  | none =>
    refine .inr ⟨rfl, fun c hc => ?_⟩
    obtain ⟨d, hd, _⟩ := hbound v c hc
    rw [hv] at hd
    cases hd
  | some d =>
    obtain ⟨as, _, hway⟩ := h.achieved v d hv
    refine .inl ⟨d, rfl, ⟨as, hway⟩, fun c hc => ?_⟩
    obtain ⟨d', hd', hle⟩ := hbound v c hc
    rw [hv] at hd'
    cases hd'
    exact hle

end Labels

end IndexGraph
