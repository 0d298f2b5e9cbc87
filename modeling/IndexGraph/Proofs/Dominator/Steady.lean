import IndexGraph.Proofs.Dominator.Ascent

/-
  What a visit does to the tree of dominators found so far, on any graph.
  A pass visits the vertices by increasing height and moves each to the meet of its predecessors.
  `Steady preds height root up t` is the invariant before the vertex of height `t` is visited:
  * `lowest`: the ways up from the predecessors of `v` have nothing in common that is at a
    greater height than the vertex above `v`;
  * `anchored`: some predecessor of `v` that is visited before `v` still has the vertex above
    `v` on its way up, as long as nothing at the height of that vertex was moved since `v` was
    visited; and if something was, then at least all that lies on that way and is not below the
    vertex above `v` lies above that vertex.
  Both speak of one tree, not of the trees of earlier passes. From them it follows that a vertex
  which has a dominator already is moved up its own way (`Steady.onWay_of_isMeet`); so ways only
  get shorter, and the invariant is kept (`Steady.visit`). A vertex that is visited for the first
  time is hung below all that is there (`Steady.visit_first`).
-/

namespace IndexGraph.Dominator

open Function (update)

/-- The invariant of the passes, before the vertex of height `t` is visited. -/
structure Steady (preds : Int → List Int) (height : Int → Nat) (root : Int)
    (up : Int → Option Int) (t : Nat) : Prop where
  rooted : Rooted up height root
  lowest : ∀ v q, v ≠ root → up v = some q → ∀ x,
    (∀ p ∈ preds v, up p ≠ none → OnWay up p x) → height x ≤ height q
  anchored : ∀ v q, v ≠ root → up v = some q → ∃ p ∈ preds v,
    up p ≠ none ∧ height p < height v ∧ (height v < t ∨ t ≤ height q → OnWay up p q) ∧
      ∀ x, OnWay up p x → height x ≤ height q → OnWay up q x

variable {preds : Int → List Int} {height : Int → Nat} {root u q m : Int}
  {up : Int → Option Int} {t : Nat}

theorem update_ne_none_iff (hu : up u ≠ none) (v : Int) :
    update up u (some m) v ≠ none ↔ up v ≠ none := by
  by_cases hv : v = u
  · subst hv
    simp [hu]
  · rw [Function.update_of_ne hv]

/-- The tree of the root alone. -/
theorem steady_root (preds : Int → List Int) (height : Int → Nat) (root : Int) (t : Nat) :
    Steady preds height root (update (fun _ => none) root (some root)) t := by
  have hnone : ∀ v, v ≠ root → update (fun _ => none) root (some root) v = none := fun v hv => by
    rw [Function.update_of_ne hv]
  have hroot : ∀ v, update (fun _ => none) root (some root) v ≠ none → v = root := fun v hv =>
    not_not.1 fun hne => hv (hnone v hne)
  refine ⟨⟨Function.update_self .., ?_, ?_, ?_⟩, ?_, ?_⟩
  · intro v p hp
    obtain rfl := hroot v (ne_none_of_up hp)
    rw [Function.update_self] at hp
    cases hp
    rw [Function.update_self]
    exact Option.some_ne_none v
  · intro v p hv hp
    rw [hnone v hv] at hp
    cases hp
  · intro v w hv hw _
    rw [hroot v hv, hroot w hw]
  · intro v p hv hp
    rw [hnone v hv] at hp
    cases hp
  · intro v p hv hp
    rw [hnone v hv] at hp
    cases hp

namespace Steady

variable (h : Steady preds height root up t)
include h

/-- A vertex that has a dominator is moved up its own way. -/
theorem onWay_of_isMeet (hu : u ≠ root) (hq : up u = some q) (hm : IsMeet up (preds u) m) :
    OnWay up q m := by
  have hall : ∀ p ∈ preds u, up p ≠ none → OnWay up p m := fun p hp hup => hm.onWay hp hup
  have hle : height m ≤ height q := h.lowest u q hu hq m hall
  obtain ⟨p, hp, hup, _, _, hfar⟩ := h.anchored u q hu hq
  exact hfar m (hall p hp hup) hle

/-- The part of a visit that does not depend on whether the vertex has been visited before: the
new tree gives no new ways up to the old vertices, and what it asks of the others is known. -/
theorem of_visit (ht' : Rooted (update up u (some m)) height root) (hm : IsMeet up (preds u) m)
    (hmem : ∀ {v}, up v ≠ none → update up u (some m) v ≠ none)
    (hshrink : ∀ {v x}, up v ≠ none → OnWay (update up u (some m)) v x → OnWay up v x)
    (hnew : ∃ p ∈ preds u, up p ≠ none ∧ height p < height u ∧
      OnWay (update up u (some m)) p m)
    (hold : ∀ v q, v ≠ u → v ≠ root → up v = some q → ∃ p ∈ preds v,
      up p ≠ none ∧ height p < height v ∧
        (height v < t + 1 ∨ t + 1 ≤ height q → OnWay (update up u (some m)) p q) ∧
        ∀ x, OnWay (update up u (some m)) p x → height x ≤ height q →
          OnWay (update up u (some m)) q x) :
    Steady preds height root (update up u (some m)) (t + 1) := by
  have hcommon : ∀ {v x}, (∀ p ∈ preds v, update up u (some m) p ≠ none →
      OnWay (update up u (some m)) p x) → ∀ p ∈ preds v, up p ≠ none → OnWay up p x :=
    fun hx p hp hup => hshrink hup (hx p hp (hmem hup))
  refine ⟨ht', fun v q hv hq x hx => ?_, fun v q hv hq => ?_⟩
  · by_cases hvu : v = u
    · subst hvu
      rw [Function.update_self] at hq
      cases hq
      exact h.rooted.height_le ((hm.onWay_iff x).2 (hcommon hx))
    · rw [Function.update_of_ne hvu] at hq
      exact h.lowest v q hv hq x (hcommon hx)
  · by_cases hvu : v = u
    · subst hvu
      rw [Function.update_self] at hq
      cases hq
      obtain ⟨p, hp, hup, hpv, hpm⟩ := hnew
      exact ⟨p, hp, hmem hup, hpv, fun _ => hpm, fun x hx hle => ht'.linear hpm hx hle⟩
    · rw [Function.update_of_ne hvu] at hq
      obtain ⟨p, hp, hup, hpv, hnear, hfar⟩ := hold v q hvu hv hq
      exact ⟨p, hp, hmem hup, hpv, hnear, hfar⟩

/-- A vertex that has a dominator is visited, and the next one is at the next height. -/
theorem visit (hu : u ≠ root) (hq : up u = some q) (hheight : height u = t)
    (hm : IsMeet up (preds u) m) : Steady preds height root (update up u (some m)) (t + 1) := by
  have ht := h.rooted
  have hun : up u ≠ none := ne_none_of_up hq
  have hqm := h.onWay_of_isMeet hu hq hm
  have hlt : height m < height u :=
    Nat.lt_of_le_of_lt (ht.height_le hqm) (ht.height_lt u q hu hq)
  have hinj : ∀ w, up w ≠ none → height w = height u → w = u := fun w hw => ht.height_inj w u hw hun
  have ht' := ht.update_of_lt hu hm.ne_none hlt hinj
  have hshrink : ∀ {v x}, OnWay (update up u (some m)) v x → OnWay up v x :=
    onWay_of_update (.climb hq hqm)
  have hkeep : ∀ {v x}, height v < height u → OnWay up v x → OnWay (update up u (some m)) v x :=
    fun hv => (onWay_update_of_not_onWay (ht.not_onWay_of_height_lt hv) _).2
  refine h.of_visit ht' hm (fun {v} hv => (update_ne_none_iff hun v).2 hv) (fun _ hx => hshrink hx)
    ?_ fun v q' hvu hv hq' => ?_
  · obtain ⟨p, hp, hup, hpu, _, _⟩ := h.anchored u q hu hq
    exact ⟨p, hp, hup, hpu, hkeep hpu (hm.onWay hp hup)⟩
  · have hvn : up v ≠ none := ne_none_of_up hq'
    obtain ⟨p, hp, hup, hpv, hnear, hfar⟩ := h.anchored v q' hv hq'
    -- the part of a way that ends at `u` or before it is not touched
    have hlow : t ≤ height q' → OnWay (update up u (some m)) p q' := fun hle =>
      ht.onWay_update_of_height_le (hnear (.inr hle)) (by omega) _ (.refl q')
    refine ⟨p, hp, hup, hpv, ?_, fun x hx hle => ?_⟩
    · intro hcase
      rcases hcase with hvt | hle
      · have hne : height v ≠ t := fun heq => hvu (hinj v hvn (heq.trans hheight.symm))
        exact hkeep (by omega) (hnear (.inl (by omega)))
      · exact hlow (by omega)
    · by_cases hqt : t ≤ height q'
      · exact ht'.linear (hlow hqt) hx hle
      · exact hkeep (by omega) (hfar x (hshrink hx) hle)

/-- A vertex that has no dominator yet is visited in the first pass. -/
theorem visit_first (hu : u ≠ root) (hun : up u = none) (hheight : height u = t)
    (hbelow : ∀ v, up v ≠ none → height v < t) (hm : IsMeet up (preds u) m)
    (hp : ∃ p ∈ preds u, up p ≠ none) :
    Steady preds height root (update up u (some m)) (t + 1) := by
  have ht := h.rooted
  have ht' := ht.update_of_lt hu hm.ne_none (by rw [hheight]; exact hbelow m hm.ne_none)
    fun w hw heq => absurd (hbelow w hw) (by omega)
  have hiff : ∀ {v x}, up v ≠ none → (OnWay (update up u (some m)) v x ↔ OnWay up v x) :=
    fun hv => onWay_update_of_not_onWay (fun hvu => ht.ne_none_of_onWay hvu hv hun) _
  have hmem : ∀ {v}, up v ≠ none → update up u (some m) v ≠ none := by
    intro v hv
    rwa [Function.update_of_ne]
    intro heq
    subst heq
    exact hv hun
  refine h.of_visit ht' hm hmem (fun hv => (hiff hv).1) ?_ fun v q' _ hv hq' => ?_
  · obtain ⟨p, hp, hup⟩ := hp
    exact ⟨p, hp, hup, by rw [hheight]; exact hbelow p hup, (hiff hup).2 (hm.onWay hp hup)⟩
  · have hvn : up v ≠ none := ne_none_of_up hq'
    obtain ⟨p, hp, hup, hpv, hnear, hfar⟩ := h.anchored v q' hv hq'
    refine ⟨p, hp, hup, hpv, fun _ => ?_, fun x hx hle => ?_⟩
    · exact (hiff hup).2 (hnear (.inl (hbelow v hvn)))
    · exact (hiff (ht.closed v q' hq')).2 (hfar x ((hiff hup).1 hx) hle)

/-- After a pass over all heights the next one may begin. -/
theorem restart (hall : ∀ v, up v ≠ none → height v < t) (t' : Nat) :
    Steady preds height root up t' := by
  refine ⟨h.rooted, h.lowest, fun v q hv hq => ?_⟩
  obtain ⟨p, hp, hup, hpv, hnear, hfar⟩ := h.anchored v q hv hq
  have hvn : up v ≠ none := ne_none_of_up hq
  exact ⟨p, hp, hup, hpv, fun _ => hnear (.inl (hall v hvn)), hfar⟩

end Steady

end IndexGraph.Dominator
