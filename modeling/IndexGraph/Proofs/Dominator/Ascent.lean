import IndexGraph.Dominator.Meet
import Mathlib.Data.Nat.Init
import Mathlib.Logic.Function.Basic
import Mathlib.Tactic.Common

/-
  Ways up in a tree that is given by the vertex above each vertex, and the meet of two of them.
  `Rooted up height root`: the vertices for which `up` holds something form a tree; the height
  falls on every step up and the root is above itself. So each way up ends at the root, two
  ways up from one vertex are one (`Rooted.linear`), and what happens to the tree below a vertex
  does not change its way up.
  Main statement: on an array that holds such a tree, with numbers that grow as the heights fall,
  `climb` ends within as many comparisons as the two heights allow and answers the meet
  (`climb_eq`): the ways up from the meet are exactly those that both fingers have.
-/

namespace IndexGraph.Dominator

/-- `x` lies on the way up from `v`. -/
inductive OnWay (up : Int → Option Int) : Int → Int → Prop
  | refl (v : Int) : OnWay up v v
  | climb {v p x : Int} (hp : up v = some p) (h : OnWay up p x) : OnWay up v x

/-- A tree in which the height falls on the way up, and the root is above itself. -/
structure Rooted (up : Int → Option Int) (height : Int → Nat) (root : Int) : Prop where
  root_up : up root = some root
  closed : ∀ v p, up v = some p → up p ≠ none
  height_lt : ∀ v p, v ≠ root → up v = some p → height p < height v
  height_inj : ∀ u v, up u ≠ none → up v ≠ none → height u = height v → u = v

variable {up : Int → Option Int} {height : Int → Nat} {root u v x y p m : Int}

theorem ne_none_of_up (hp : up v = some p) : up v ≠ none := by
  rw [hp]
  exact Option.some_ne_none p

namespace OnWay

theorem trans (h : OnWay up v x) (h' : OnWay up x y) : OnWay up v y := by
  induction h with
  | refl => exact h'
  | climb hp _ ih => exact .climb hp (ih h')

theorem single (hp : up v = some p) : OnWay up v p := .climb hp (.refl p)

theorem iff_of_up (hp : up v = some p) : OnWay up v x ↔ x = v ∨ OnWay up p x := by
  constructor
  · intro h
    cases h with
    | refl => exact .inl rfl
    | climb hp' h =>
      rw [hp] at hp'
      cases hp'
      exact .inr h
  · intro hcase
    rcases hcase with rfl | h
    · exact .refl x
    · exact .climb hp h

end OnWay

namespace Rooted

variable (ht : Rooted up height root)
include ht

theorem ne_none_of_onWay (h : OnWay up v x) (hv : up v ≠ none) : up x ≠ none := by
  induction h with
  | refl => exact hv
  | climb hp _ ih => exact ih (ht.closed _ _ hp)

theorem eq_root_of_onWay (h : OnWay up root x) : x = root := by
  generalize hr : root = r at h
  induction h with
  | refl => rfl
  | climb hp _ ih =>
    subst hr
    rw [ht.root_up] at hp
    cases hp
    exact ih rfl

theorem height_le (h : OnWay up v x) : height x ≤ height v := by
  induction h with
  | refl => exact Nat.le_refl _
  | @climb v p x hp _ ih =>
    by_cases hv : v = root
    · subst hv
      rw [ht.root_up] at hp
      cases hp
      exact ih
    · exact Nat.le_trans ih (Nat.le_of_lt (ht.height_lt v p hv hp))

/-- Above a vertex every height is smaller. -/
theorem eq_of_height_le (h : OnWay up v x) (hle : height v ≤ height x) : x = v := by
  cases h with
  | refl => rfl
  | @climb _ p _ hp h =>
    by_cases hv : v = root
    · subst hv
      exact ht.eq_root_of_onWay (.climb hp h)
    · have := ht.height_lt v p hv hp
      have := ht.height_le h
      omega

theorem antisymm (h : OnWay up v x) (h' : OnWay up x v) : x = v :=
  ht.eq_of_height_le h (ht.height_le h')

/-- Every way up ends at the root. -/
theorem onWay_root (hv : up v ≠ none) : OnWay up v root := by
  generalize hn : height v = n
  induction n using Nat.strong_induction_on generalizing v with
  | _ n ih =>
    by_cases hroot : v = root
    · rw [hroot]
      exact .refl root
    · obtain ⟨p, hp⟩ := Option.ne_none_iff_exists'.1 hv
      have hlt := ht.height_lt v p hroot hp
      exact .climb hp (ih _ (by omega) (ht.closed v p hp) rfl)

/-- Of two vertices on one way up, the higher one is on the way up from the other. -/
theorem linear (hx : OnWay up v x) (hy : OnWay up v y) (hle : height y ≤ height x) :
    OnWay up x y := by
  induction hx with
  | refl => exact hy
  | climb hp hx ih =>
    rcases (OnWay.iff_of_up hp).1 hy with rfl | hy
    · rw [ht.eq_of_height_le (.climb hp hx) hle]
      exact .refl _
    · exact ih hy hle

end Rooted

/-! ## Changing the vertex above one vertex -/

open Function (update)

/-- A way up that does not pass `u` is not touched by a change above `u`. -/
theorem onWay_update_of_not_onWay (hu : ¬ OnWay up v u) (a : Option Int) :
    OnWay (update up u a) v x ↔ OnWay up v x := by
  have hne : ∀ {w}, ¬ OnWay up w u → w ≠ u := by
    intro w hw heq
    subst heq
    exact hw (.refl w)
  constructor <;> intro h
  · induction h with
    | refl => exact .refl _
    | climb hp _ ih =>
      rw [Function.update_of_ne (hne hu)] at hp
      exact .climb hp (ih fun hpu => hu (.climb hp hpu))
  · induction h with
    | refl => exact .refl _
    | climb hp _ ih =>
      refine .climb ?_ (ih fun hpu => hu (.climb hp hpu))
      rw [Function.update_of_ne (hne hu), hp]

/-- A vertex that is moved up its own way leaves no vertex a longer way than before. -/
theorem onWay_of_update (hm : OnWay up u m) (h : OnWay (update up u (some m)) v x) :
    OnWay up v x := by
  induction h with
  | refl => exact .refl _
  | @climb v p x hp _ ih =>
    by_cases hv : v = u
    · subst hv
      rw [Function.update_self] at hp
      cases hp
      exact hm.trans ih
    · rw [Function.update_of_ne hv] at hp
      exact .climb hp ih

namespace Rooted

variable (ht : Rooted up height root)
include ht

theorem not_onWay_of_height_lt (hlt : height v < height u) : ¬ OnWay up v u := fun h =>
  Nat.not_le_of_lt hlt (ht.height_le h)

/-- The way up to a vertex that is not below `u` stays as it is. -/
theorem onWay_update_of_height_le (h : OnWay up v x) (hle : height u ≤ height x)
    (a : Option Int) (hx : OnWay (update up u a) x y) : OnWay (update up u a) v y := by
  induction h with
  | refl => exact hx
  | @climb v p x hp h ih =>
    by_cases hv : v = u
    · subst hv
      rwa [ht.eq_of_height_le (.climb hp h) hle] at hx
    · refine .climb ?_ (ih hle hx)
      rw [Function.update_of_ne hv, hp]

/-- A vertex below `u` in height gets `u` below it, or `u` moves there. -/
theorem update_of_lt (hu : u ≠ root) (hm : up m ≠ none) (hlt : height m < height u)
    (hinj : ∀ w, up w ≠ none → height w = height u → w = u) :
    Rooted (update up u (some m)) height root := by
  have hmem : ∀ w, update up u (some m) w ≠ none → w = u ∨ up w ≠ none := by
    intro w hw
    by_cases hwu : w = u
    · exact .inl hwu
    · rw [Function.update_of_ne hwu] at hw
      exact .inr hw
  constructor
  · rw [Function.update_of_ne hu.symm, ht.root_up]
  · intro w q hq
    have hq' : up q ≠ none := by
      by_cases hwu : w = u
      · subst hwu
        rw [Function.update_self] at hq
        cases hq
        exact hm
      · rw [Function.update_of_ne hwu] at hq
        exact ht.closed w q hq
    by_cases hqu : q = u
    · subst hqu
      rw [Function.update_self]
      exact Option.some_ne_none m
    · rwa [Function.update_of_ne hqu]
  · intro w q hw hq
    by_cases hwu : w = u
    · subst hwu
      rw [Function.update_self] at hq
      cases hq
      exact hlt
    · rw [Function.update_of_ne hwu] at hq
      exact ht.height_lt w q hw hq
  · intro w w' hw hw' heq
    rcases hmem w hw with hwu | hw <;> rcases hmem w' hw' with hwu' | hw'
    · rw [hwu, hwu']
    · rw [hwu] at heq ⊢
      exact (hinj w' hw' heq.symm).symm
    · rw [hwu'] at heq ⊢
      exact hinj w hw heq
    · exact ht.height_inj w w' hw hw' heq

end Rooted

/-! ## The meet -/

/-- `m` is where the ways up from those of the vertices that are in the tree come together. -/
structure IsMeet (up : Int → Option Int) (vs : List Int) (m : Int) : Prop where
  ne_none : up m ≠ none
  onWay_iff : ∀ x, OnWay up m x ↔ ∀ v ∈ vs, up v ≠ none → OnWay up v x

namespace IsMeet

variable {vs ws : List Int}

theorem onWay (h : IsMeet up vs m) (hv : v ∈ vs) (hup : up v ≠ none) : OnWay up v m :=
  (h.onWay_iff m).1 (.refl m) v hv hup

/-- Vertices outside the tree do not count. -/
theorem append_of_none (h : IsMeet up vs m) (hv : up v = none) : IsMeet up (vs ++ [v]) m := by
  refine ⟨h.ne_none, fun x => ?_⟩
  rw [h.onWay_iff x]
  constructor
  · intro hx w hw hup
    rcases List.mem_append.1 hw with hw | hw
    · exact hx w hw hup
    · exact absurd (List.mem_singleton.1 hw ▸ hv) hup
  · exact fun hx w hw hup => hx w (List.mem_append_left _ hw) hup

theorem append_singleton (h : IsMeet up vs u) (hv : up v ≠ none) (hm : IsMeet up [u, v] m) :
    IsMeet up (vs ++ [v]) m := by
  refine ⟨hm.ne_none, fun x => ?_⟩
  rw [hm.onWay_iff x]
  constructor
  · intro hx w hw hup
    rcases List.mem_append.1 hw with hw | hw
    · exact (h.onWay_iff x).1 (hx u (by simp) h.ne_none) w hw hup
    · rw [List.mem_singleton.1 hw]
      exact hx v (by simp) hv
  · intro hx w hw _
    have hw' : w = u ∨ w = v := by simpa using hw
    rcases hw' with rfl | rfl
    · exact (h.onWay_iff x).2 fun w hw hup => hx w (List.mem_append_left _ hw) hup
    · exact hx w (List.mem_append_right _ (List.mem_singleton_self w)) hv

theorem unique (ht : Rooted up height root) (h : IsMeet up vs m) (h' : IsMeet up vs u) :
    m = u :=
  ht.antisymm ((h'.onWay_iff m).2 ((h.onWay_iff m).1 (.refl m)))
    ((h.onWay_iff u).2 ((h'.onWay_iff u).1 (.refl u)))

/-- The meet hangs on which vertices of the tree are listed. -/
theorem congr (hsame : ∀ v, up v ≠ none → (v ∈ vs ↔ v ∈ ws)) (h : IsMeet up vs m) :
    IsMeet up ws m := by
  refine ⟨h.ne_none, fun x => (h.onWay_iff x).trans ?_⟩
  constructor
  · exact fun hall v hv hup => hall v ((hsame v hup).2 hv) hup
  · exact fun hall v hv hup => hall v ((hsame v hup).1 hv) hup

/-- Unless the tree holds all numbers, a meet is one of some listed vertex: without one every number
would be above it. -/
theorem exists_mem (ht : Rooted up height root) (h : IsMeet up vs m) (hx : up x = none) :
    ∃ v ∈ vs, up v ≠ none := by
  by_contra hnone
  have hall : OnWay up m x := (h.onWay_iff x).2 fun v hv hup => absurd ⟨v, hv, hup⟩ hnone
  exact ht.ne_none_of_onWay hall h.ne_none hx

end IsMeet

/-- The array `idoms` holds the tree. -/
def Tabulates (idoms : Idoms) (up : Int → Option Int) : Prop :=
  ∀ v p, up v = some p → Position.read idoms v = .ok (some p)

/-- The numbers of the vertices in the tree grow as the heights fall. -/
structure Numbers (number : Array Int) (up : Int → Option Int) (height : Int → Nat) : Prop where
  read : ∀ v, up v ≠ none → ∃ n, Position.read number v = .ok n
  lt_iff : ∀ u v m n, up u ≠ none → up v ≠ none → Position.read number u = .ok m →
    Position.read number v = .ok n → (m < n ↔ height v < height u)

theorem above_eq {idoms : Idoms} (hi : Tabulates idoms up) (hp : up v = some p) :
    above idoms v = .ok p := by
  rw [above, hi v p hp]

/-- One step up from the lower of two vertices does not pass their meet. -/
theorem Rooted.isMeet_of_up (ht : Rooted up height root) {b : Int} (hp : up v = some p)
    (hb : up b ≠ none) (hlt : height b < height v) (hm : IsMeet up [p, b] m) :
    IsMeet up [v, b] m := by
  have hv : up v ≠ none := ne_none_of_up hp
  refine ⟨hm.ne_none, fun x => ?_⟩
  rw [hm.onWay_iff x]
  simp only [List.mem_cons, List.not_mem_nil, or_false, forall_eq_or_imp, forall_eq]
  constructor
  · intro hex
    obtain ⟨hpx, hbx⟩ := hex
    exact ⟨fun _ => .climb hp (hpx (ht.closed v p hp)), hbx⟩
  · intro hex
    obtain ⟨hvx, hbx⟩ := hex
    refine ⟨fun _ => ?_, hbx⟩
    rcases (OnWay.iff_of_up hp).1 (hvx hv) with rfl | hpx
    · exact absurd (hbx hb) (ht.not_onWay_of_height_lt hlt)
    · exact hpx

theorem IsMeet.swap {a b : Int} (h : IsMeet up [a, b] m) : IsMeet up [b, a] m := by
  refine ⟨h.ne_none, fun x => ?_⟩
  rw [h.onWay_iff x]
  simp only [List.mem_cons, List.not_mem_nil, or_false, forall_eq_or_imp, forall_eq]
  exact and_comm

/-- Climbing from two vertices of the tree ends at their meet. -/
theorem climb_eq (ht : Rooted up height root) {idoms : Idoms} (hi : Tabulates idoms up)
    {number : Array Int} (hn : Numbers number up height) (fuel : Nat) :
    ∀ a b, up a ≠ none → up b ≠ none → height a + height b < fuel →
      ∃ m, climb idoms number fuel a b = .ok m ∧ IsMeet up [a, b] m := by
  induction fuel with
  | zero => exact fun a b _ _ h => absurd h (Nat.not_lt_zero _)
  | succ fuel ih =>
    intro a b ha hb hfuel
    -- a vertex that is below another in height is not the root, so it has a step up
    have step : ∀ v w, up v ≠ none → up w ≠ none → height w < height v →
        ∃ p, up v = some p ∧ height p < height v := by
      intro v w hv hw hlt
      obtain ⟨p, hp⟩ := Option.ne_none_iff_exists'.1 hv
      refine ⟨p, hp, ht.height_lt v p ?_ hp⟩
      intro heq
      subst heq
      exact Nat.not_le_of_lt hlt (ht.height_le (ht.onWay_root hw))
    obtain ⟨na, hna⟩ := hn.read a ha
    obtain ⟨nb, hnb⟩ := hn.read b hb
    unfold climb
    by_cases hab : a = b
    · subst hab
      refine ⟨a, by rw [if_pos rfl], ha, fun x => ?_⟩
      simp [ha]
    · rw [if_neg hab, hna, hnb]
      by_cases h1 : na < nb
      · have hlt := (hn.lt_iff a b na nb ha hb hna hnb).1 h1
        obtain ⟨p, hp, hpa⟩ := step a b ha hb hlt
        obtain ⟨m, hm, hmeet⟩ := ih p b (ht.closed a p hp) hb (by omega)
        refine ⟨m, ?_, ht.isMeet_of_up hp hb hlt hmeet⟩
        simp only [bind, Except.bind, h1, if_true, above_eq hi hp, hm]
      · have h2 : nb < na := by
          have hle : ¬ height b < height a := fun h => h1 ((hn.lt_iff a b na nb ha hb hna hnb).2 h)
          have hne : height a ≠ height b := fun h => hab (ht.height_inj a b ha hb h)
          exact (hn.lt_iff b a nb na hb ha hnb hna).2 (by omega)
        have hlt := (hn.lt_iff b a nb na hb ha hnb hna).1 h2
        obtain ⟨p, hp, hpb⟩ := step b a hb ha hlt
        obtain ⟨m, hm, hmeet⟩ := ih a p ha (ht.closed b p hp) (by omega)
        refine ⟨m, ?_, (ht.isMeet_of_up hp ha hlt hmeet.swap).swap⟩
        simp only [bind, Except.bind, h1, h2, if_true, if_false, above_eq hi hp, hm]

end IndexGraph.Dominator
