import IndexGraph.Proofs.Dominator.Passes
import Mathlib.Data.Set.Card

/-
  The meet as an operation on the vertices of a tree. Two arrays are given, and a set `D` of
  vertices on which they hold a tree with numbers that grow on the way up (`RootedOn`); what they
  hold elsewhere is left open, and so is how the numbers were come by.
  The rank of a vertex is the number of vertices of `D` with a larger number. It falls on the way up
  and tells the vertices apart, so it serves as height of the tree (`RootedOn.rooted`), and climbing
  ends at the meet. As `D` has no more vertices than there are indices, the bound of the climb is
  large enough (`RootedOn.exists_meet`).
  The meet of a list hangs on which vertices of `D` are listed and on nothing else
  (`Met.unique`). Hence the meet is commutative and associative, and the order and the
  repetitions of the predecessors do not matter.
-/

namespace IndexGraph.Dominator

/-- The ways up in the table. -/
def OnChain (idoms : Idoms) : Int → Int → Prop :=
  Relation.ReflTransGen fun v p => Position.read idoms v = .ok (some p)

/-- On `D` the table holds a tree with this root, and the numbers grow on the way up. -/
structure RootedOn (idoms : Idoms) (number : Array Int) (D : Set Int) (root : Int) : Prop where
  root_mem : root ∈ D
  read_root : Position.read idoms root = .ok (some root)
  read_mem : ∀ v ∈ D, ∃ p ∈ D, Position.read idoms v = .ok (some p)
  number_mem : ∀ v ∈ D, ∃ k, Position.read number v = .ok k
  number_inj : ∀ u ∈ D, ∀ v ∈ D, Position.read number u = Position.read number v → u = v
  number_lt : ∀ v ∈ D, v ≠ root → ∀ p k l, Position.read idoms v = .ok (some p) →
    Position.read number v = .ok k → Position.read number p = .ok l → k < l

/-- `m` lies on the ways up from `a` and `b`, and has the smallest number of all that do. -/
structure Lowest (idoms : Idoms) (number : Array Int) (a b m : Int) : Prop where
  left : OnChain idoms a m
  right : OnChain idoms b m
  number_lt : ∀ x, OnChain idoms a x → OnChain idoms b x → x ≠ m →
    ∃ k l, Position.read number m = .ok k ∧ Position.read number x = .ok l ∧ k < l

/-- The vertex above `v`, for the vertices of `D` only. -/
noncomputable def within (idoms : Idoms) (D : Set Int) (v : Int) : Option Int :=
  open Classical in if v ∈ D then (Position.read idoms v).toOption.join else none

/-- The number of `v`, where it has one. -/
def key (number : Array Int) (v : Int) : Int := (Position.read number v).toOption.getD 0

/-- How many vertices of `D` have a larger number. -/
noncomputable def rank (number : Array Int) (D : Set Int) (v : Int) : Nat :=
  {x ∈ D | key number v < key number x}.ncard

variable {idoms : Idoms} {number : Array Int} {D : Set Int} {root a b c m u v x p : Int}

theorem key_eq {k : Int} (h : Position.read number v = .ok k) : key number v = k := by
  rw [key, h]
  rfl

theorem within_eq (hv : v ∈ D) (hp : Position.read idoms v = .ok (some p)) :
    within idoms D v = some p := by
  rw [within, if_pos hv, hp]
  rfl

/-- What a search for the meet of a list finds hangs on which vertices of the tree are listed. -/
theorem Met.unique {up : Int → Option Int} {height : Int → Nat} {ps qs : List Int}
    {found found' : Option Int} (ht : Rooted up height root) (hx : up x = none)
    (hsame : ∀ v, up v ≠ none → (v ∈ ps ↔ v ∈ qs)) (hp : Met up ps found)
    (hq : Met up qs found') : found = found' := by
  -- a meet is one of some listed vertex of the tree, so neither or both searches find one
  have hnone : ∀ {rs ts : List Int} {m : Int}, (∀ v, up v ≠ none → (v ∈ rs ↔ v ∈ ts)) →
      IsMeet up rs m → ¬ ∀ v ∈ ts, up v = none := by
    intro rs ts m hrs hm hall
    obtain ⟨v, hv, hup⟩ := hm.exists_mem ht hx
    exact hup (hall v ((hrs v hup).1 hv))
  cases found with
  | none =>
    cases found' with
    | none => rfl
    | some m' => exact absurd hp (hnone (fun v hv => (hsame v hv).symm) hq)
  | some m =>
    cases found' with
    | none => exact absurd hq (hnone hsame hp)
    | some m' => rw [IsMeet.unique ht (IsMeet.congr hsame hp) hq]

namespace RootedOn

variable (h : RootedOn idoms number D root)
include h

/-! ## The tree on `D` -/

theorem within_ne_none_iff : within idoms D v ≠ none ↔ v ∈ D := by
  constructor
  · intro hne
    by_contra hv
    exact hne (if_neg hv)
  · intro hv
    obtain ⟨p, _, hp⟩ := h.read_mem v hv
    exact ne_none_of_up (within_eq hv hp)

theorem read_of_within (hp : within idoms D v = some p) :
    v ∈ D ∧ p ∈ D ∧ Position.read idoms v = .ok (some p) := by
  have hv : v ∈ D := h.within_ne_none_iff.1 (ne_none_of_up hp)
  obtain ⟨q, hq, hread⟩ := h.read_mem v hv
  rw [within_eq hv hread, Option.some.injEq] at hp
  subst hp
  exact ⟨hv, hq, hread⟩

theorem onWay_iff (hv : v ∈ D) : OnWay (within idoms D) v x ↔ OnChain idoms v x := by
  constructor
  · intro hway
    induction hway with
    | refl => exact .refl
    | climb hp _ ih =>
      obtain ⟨_, hpD, hread⟩ := h.read_of_within hp
      exact .head hread (ih hpD)
  · intro hchain
    induction hchain using Relation.ReflTransGen.head_induction_on with
    | refl => exact .refl x
    | head hread _ ih =>
      obtain ⟨p, hpD, hread'⟩ := h.read_mem _ hv
      rw [hread] at hread'
      cases hread'
      exact .climb (within_eq hv hread) (ih hpD)

/-- The vertices of `D` are indices of the table, from either end. -/
theorem is_index (hv : v ∈ D) : -(idoms.size : Int) ≤ v ∧ v < idoms.size := by
  obtain ⟨p, _, hp⟩ := h.read_mem v hv
  obtain ⟨k, hk, _⟩ := Position.read_eq_ok_iff.1 hp
  obtain ⟨hlt, hcase⟩ := Position.resolve?_eq_some_iff.1 hk
  omega

theorem finite : D.Finite :=
  (Finset.finite_toSet (Finset.Ico _ _)).subset fun _ hv => Finset.mem_Ico.2 (h.is_index hv)

theorem ncard_le : D.ncard ≤ 2 * idoms.size := by
  have hle := Set.ncard_le_ncard (fun _ hv => Finset.mem_Ico.2 (h.is_index hv))
    (Finset.finite_toSet (Finset.Ico _ _))
  rw [Set.ncard_coe_finset, Int.card_Ico] at hle
  omega

theorem rank_lt_ncard (hv : v ∈ D) : rank number D v < D.ncard := by
  refine Set.ncard_lt_ncard ⟨Set.sep_subset _ _, fun hsub => ?_⟩ h.finite
  exact lt_irrefl _ (hsub hv).2

/-- The rank falls as the number grows. -/
theorem rank_lt_iff (hu : u ∈ D) : rank number D u < rank number D v ↔
    key number v < key number u := by
  have hfinite : ∀ w, {x ∈ D | key number w < key number x}.Finite := fun w =>
    h.finite.subset (Set.sep_subset _ _)
  constructor
  · intro hlt
    by_contra hle
    refine Nat.not_le_of_lt hlt (Set.ncard_le_ncard (fun x hx => ?_) (hfinite u))
    exact ⟨hx.1, lt_of_le_of_lt (not_lt.1 hle) hx.2⟩
  · intro hlt
    refine Set.ncard_lt_ncard ⟨fun x hx => ⟨hx.1, hlt.trans hx.2⟩, fun hsub => ?_⟩ (hfinite v)
    exact lt_irrefl _ (hsub (⟨hu, hlt⟩ : u ∈ D ∧ _)).2

theorem key_lt (hv : v ∈ D) (hne : v ≠ root) (hp : Position.read idoms v = .ok (some p))
    (hpD : p ∈ D) : key number v < key number p := by
  obtain ⟨k, hk⟩ := h.number_mem v hv
  obtain ⟨l, hl⟩ := h.number_mem p hpD
  rw [key_eq hk, key_eq hl]
  exact h.number_lt v hv hne p k l hp hk hl

theorem rooted : Rooted (within idoms D) (rank number D) root := by
  refine ⟨within_eq h.root_mem h.read_root, fun v p hp => ?_, fun v p hne hp => ?_,
    fun u v hu hv heq => ?_⟩
  · exact h.within_ne_none_iff.2 (h.read_of_within hp).2.1
  · obtain ⟨hv, hpD, hread⟩ := h.read_of_within hp
    exact (h.rank_lt_iff hpD).2 (h.key_lt hv hne hread hpD)
  · have hu := h.within_ne_none_iff.1 hu
    have hv := h.within_ne_none_iff.1 hv
    obtain ⟨k, hk⟩ := h.number_mem u hu
    obtain ⟨l, hl⟩ := h.number_mem v hv
    have huv := h.rank_lt_iff (v := v) hu
    have hvu := h.rank_lt_iff (v := u) hv
    rw [key_eq hk, key_eq hl] at huv hvu
    refine h.number_inj u hu v hv ?_
    rw [hk, hl, Except.ok.injEq]
    omega

theorem numbers : Numbers number (within idoms D) (rank number D) := by
  refine ⟨fun v hv => h.number_mem v (h.within_ne_none_iff.1 hv), fun u v k l _ hv hk hl => ?_⟩
  rw [h.rank_lt_iff (h.within_ne_none_iff.1 hv), key_eq hk, key_eq hl]

/-! ## Meets in `D` -/

/-- The climb comes to its end within its bound. -/
theorem exists_meet (ha : within idoms D a ≠ none) (hb : within idoms D b ≠ none) :
    ∃ m, meet idoms number a b = .ok m ∧ IsMeet (within idoms D) [a, b] m := by
  have htable : Tabulates idoms (within idoms D) := fun v p hp => (h.read_of_within hp).2.2
  refine climb_eq h.rooted htable h.numbers _ a b ha hb ?_
  have hcard := h.ncard_le
  have ha' := h.rank_lt_ncard (h.within_ne_none_iff.1 ha)
  have hb' := h.rank_lt_ncard (h.within_ne_none_iff.1 hb)
  have hsquare : 2 * idoms.size ≤ idoms.size * idoms.size + 1 := by
    simpa [sq] using two_mul_le_add_sq idoms.size 1
  have hbound : (idoms.size + 1) * (idoms.size + 1) =
      idoms.size * idoms.size + 2 * idoms.size + 1 := by
    ring
  omega

theorem lowest (ha : a ∈ D) (hb : b ∈ D) (hm : IsMeet (within idoms D) [a, b] m) :
    Lowest idoms number a b m := by
  have haN := h.within_ne_none_iff.2 ha
  have hbN := h.within_ne_none_iff.2 hb
  have hmD := h.within_ne_none_iff.1 hm.ne_none
  refine ⟨(h.onWay_iff ha).1 (hm.onWay (by simp) haN), (h.onWay_iff hb).1 (hm.onWay (by simp) hbN),
    fun x hax hbx hne => ?_⟩
  have hmx : OnWay (within idoms D) m x := by
    rw [hm.onWay_iff]
    intro v hv _
    simp only [List.mem_cons, List.not_mem_nil, or_false] at hv
    rcases hv with rfl | rfl
    · exact (h.onWay_iff ha).2 hax
    · exact (h.onWay_iff hb).2 hbx
  have hxD := h.within_ne_none_iff.1 (h.rooted.ne_none_of_onWay hmx hm.ne_none)
  have hlt : rank number D x < rank number D m := by
    by_contra hle
    exact hne (h.rooted.eq_of_height_le hmx (Nat.not_lt.1 hle))
  obtain ⟨k, hk⟩ := h.number_mem m hmD
  obtain ⟨l, hl⟩ := h.number_mem x hxD
  refine ⟨k, l, hk, hl, ?_⟩
  rw [← key_eq hk, ← key_eq hl]
  exact (h.rank_lt_iff hxD).1 hlt

theorem meet_comm (ha : a ∈ D) (hb : b ∈ D) : meet idoms number a b = meet idoms number b a := by
  have haN := h.within_ne_none_iff.2 ha
  have hbN := h.within_ne_none_iff.2 hb
  obtain ⟨m, hm, hmeet⟩ := h.exists_meet haN hbN
  obtain ⟨m', hm', hmeet'⟩ := h.exists_meet hbN haN
  rw [hm, hm', hmeet.unique h.rooted hmeet'.swap]

/-- Either way it is the meet of all three. -/
theorem meet_assoc (ha : a ∈ D) (hb : b ∈ D) (hc : c ∈ D) :
    (meet idoms number a b).bind (meet idoms number · c) =
      (meet idoms number b c).bind (meet idoms number a ·) := by
  have haN := h.within_ne_none_iff.2 ha
  have hbN := h.within_ne_none_iff.2 hb
  have hcN := h.within_ne_none_iff.2 hc
  obtain ⟨p, hp, hab⟩ := h.exists_meet haN hbN
  obtain ⟨q, hq, hbc⟩ := h.exists_meet hbN hcN
  obtain ⟨m, hm, hpc⟩ := h.exists_meet hab.ne_none hcN
  obtain ⟨m', hm', haq⟩ := h.exists_meet haN hbc.ne_none
  have habc : IsMeet (within idoms D) [a, b, c] m := hab.append_singleton hcN hpc
  have hbca : IsMeet (within idoms D) [b, c, a] m' := hbc.append_singleton haN haq.swap
  have hperm : ([b, c] ++ [a]).Perm ([a] ++ [b, c]) := List.perm_append_comm
  have habc' : IsMeet (within idoms D) [a, b, c] m' := hbca.congr fun v _ => hperm.mem_iff
  rw [hp, hq]
  show meet idoms number p c = meet idoms number a q
  rw [hm, hm', habc.unique h.rooted habc']

/-- Listed vertices are in the tree or have nothing above them. -/
theorem read_eq_within (hp : p ∈ D ∨ Position.read idoms p = .ok none) :
    Position.read idoms p = .ok (within idoms D p) := by
  rcases hp with hp | hp
  · obtain ⟨q, _, hq⟩ := h.read_mem p hp
    rw [hq, within_eq hp hq]
  · have hnot : p ∉ D := by
      intro hpD
      obtain ⟨q, _, hq⟩ := h.read_mem p hpD
      rw [hp] at hq
      cases hq
    rw [hp, within, if_neg hnot]

theorem meetAll_congr {ps qs : List Int}
    (hps : ∀ p ∈ ps, p ∈ D ∨ Position.read idoms p = .ok none)
    (hqs : ∀ q ∈ qs, q ∈ D ∨ Position.read idoms q = .ok none)
    (hsame : ∀ v ∈ D, v ∈ ps ↔ v ∈ qs) :
    ∃ found, meetAll idoms number none ps = .ok found ∧
      meetAll idoms number none qs = .ok found := by
  have hnil : Met (within idoms D) [] none := fun v hv => absurd hv List.not_mem_nil
  have hmeet := fun a b => h.exists_meet (a := a) (b := b)
  obtain ⟨found, hfound, hmet⟩ :=
    meetAll_met hmeet ps [] none hnil fun p hp => h.read_eq_within (hps p hp)
  obtain ⟨found', hfound', hmet'⟩ :=
    meetAll_met hmeet qs [] none hnil fun q hq => h.read_eq_within (hqs q hq)
  have hsame' : ∀ v, within idoms D v ≠ none → (v ∈ ps ↔ v ∈ qs) := fun v hv =>
    hsame v (h.within_ne_none_iff.1 hv)
  have hoff : within idoms D idoms.size = none := by
    refine if_neg fun hmem => ?_
    exact lt_irrefl _ (h.is_index hmem).2
  have heq : found = found' := hmet.unique h.rooted hoff hsame' hmet'
  exact ⟨found, hfound, heq ▸ hfound'⟩

theorem exists_lowest (ha : a ∈ D) (hb : b ∈ D) :
    ∃ m ∈ D, meet idoms number a b = .ok m ∧ Lowest idoms number a b m := by
  obtain ⟨m, hm, hmeet⟩ :=
    h.exists_meet (h.within_ne_none_iff.2 ha) (h.within_ne_none_iff.2 hb)
  exact ⟨m, h.within_ne_none_iff.1 hmeet.ne_none, hm, h.lowest ha hb hmeet⟩

end RootedOn

theorem meet_self (idoms : Idoms) (number : Array Int) (a : Int) :
    meet idoms number a a = .ok a := by
  rw [meet, climb, if_pos rfl]

/-- On every set of vertices on which the two arrays hold a rooted tree, the climb ends and answers
the vertex with the smallest number of all that lie on both ways up; so the meet is commutative,
associative and idempotent there. The search through a list of predecessors ends too, past those
that have nothing above them, and comes to the same for every list of the same vertices, in whatever
order and however often they are listed. -/
theorem meet_semilattice (idoms : Idoms) (number : Array Int) (D : Set Int) (root : Int)
    (h : RootedOn idoms number D root) :
    (∀ a ∈ D, ∀ b ∈ D, ∃ m ∈ D, meet idoms number a b = .ok m ∧ Lowest idoms number a b m) ∧
      (∀ a ∈ D, ∀ b ∈ D, meet idoms number a b = meet idoms number b a) ∧
      (∀ a ∈ D, ∀ b ∈ D, ∀ c ∈ D, (meet idoms number a b).bind (meet idoms number · c) =
        (meet idoms number b c).bind (meet idoms number a ·)) ∧
      (∀ a ∈ D, meet idoms number a a = .ok a) ∧
      ∀ ps qs : List Int, (∀ p ∈ ps, p ∈ D ∨ Position.read idoms p = .ok none) →
        (∀ q ∈ qs, q ∈ D ∨ Position.read idoms q = .ok none) → (∀ v ∈ D, v ∈ ps ↔ v ∈ qs) →
        ∃ found, meetAll idoms number none ps = .ok found ∧
          meetAll idoms number none qs = .ok found := by
  refine ⟨fun a ha b hb => h.exists_lowest ha hb, fun a ha b hb => h.meet_comm ha hb,
    fun a ha b hb c hc => h.meet_assoc ha hb hc, fun a _ => meet_self idoms number a,
    fun ps qs hps hqs hsame => h.meetAll_congr hps hqs hsame⟩

/-- The ways up are `3 → 2 → 1 → 0` and `5 → 4 → 1`; the numbers make the fingers climb in turn.
Vertex 6 is outside the tree. -/
theorem meet_semilattice_turns :
    let idoms : Idoms := #[some 0, some 0, some 1, some 2, some 1, some 4, none]
    let number : Array Int := #[9, 7, 4, 1, 6, 2, 0]
    RootedOn idoms number {v | 0 ≤ v ∧ v < 6} 0 ∧ meet idoms number 3 5 = .ok 1 ∧
      Lowest idoms number 3 5 1 ∧
      meetAll idoms number none [5, 6, 3] = meetAll idoms number none [3, 5, 5, 3] := by
  intro idoms number
  have hcases : ∀ v : Int, 0 ≤ v ∧ v < 6 → v = 0 ∨ v = 1 ∨ v = 2 ∨ v = 3 ∨ v = 4 ∨ v = 5 := by
    intro v
    omega
  have h : RootedOn idoms number {v | 0 ≤ v ∧ v < 6} 0 := by
    refine ⟨by decide, rfl, fun v hv => ?_, fun v hv => ?_, fun u hu v hv heq => ?_,
      fun v hv hne p k l hp hk hl => ?_⟩
    · obtain rfl | rfl | rfl | rfl | rfl | rfl := hcases v hv
      exacts [⟨0, by decide, rfl⟩, ⟨0, by decide, rfl⟩, ⟨1, by decide, rfl⟩,
        ⟨2, by decide, rfl⟩, ⟨1, by decide, rfl⟩, ⟨4, by decide, rfl⟩]
    · obtain rfl | rfl | rfl | rfl | rfl | rfl := hcases v hv <;> exact ⟨_, rfl⟩
    · obtain rfl | rfl | rfl | rfl | rfl | rfl := hcases u hu <;>
        obtain rfl | rfl | rfl | rfl | rfl | rfl := hcases v hv <;>
        revert heq <;> decide
    · obtain rfl | rfl | rfl | rfl | rfl | rfl := hcases v hv <;>
        · cases hp
          cases hk
          cases hl
          revert hne
          decide
  obtain ⟨hlowest, _, _, _, hfold⟩ := meet_semilattice idoms number _ 0 h
  have hmeet : meet idoms number 3 5 = .ok 1 := by decide +kernel
  obtain ⟨m, _, hm, hlow⟩ := hlowest 3 (by decide) 5 (by decide)
  obtain rfl : m = 1 := Except.ok.inj (hm.symm.trans hmeet)
  obtain ⟨found, hps, hqs⟩ := hfold [5, 6, 3] [3, 5, 5, 3] (by decide) (by decide)
    fun v ⟨_, hv⟩ => by
      simp only [List.mem_cons, List.not_mem_nil, or_false]
      omega
  exact ⟨h, hmeet, hlow, hps.trans hqs.symm⟩

end IndexGraph.Dominator
