import Mathlib.Logic.Relation
import Mathlib.Order.Bounds.Basic
import Mathlib.Order.Nat

/-
  Paths in a graph that is given by its lists of successors, and dominance read off them.
  `Path succ s v vs`: the list `vs` holds the vertices of a path from `s` to `v`, the last one
  first. A vertex dominates `v` from `s` if it lies on every path from `s` to `v`; the immediate
  dominator is the strict one that every other strict dominator dominates. The distance of `v` is
  the least number of edges of a path from `s`; distances grow by steps of one along shortest paths.
  Nothing here knows how a graph is stored or searched; the searches are compared with it.
-/

namespace IndexGraph

/-- There is a way from `s` to `v` along edges, possibly of no edge. -/
def Reaches (succ : Int → List Int) (s v : Int) : Prop :=
  Relation.ReflTransGen (fun a b => b ∈ succ a) s v

/-- `vs` lists the vertices of a path from `s`, the last one first. -/
inductive Path (succ : Int → List Int) (s : Int) : Int → List Int → Prop
  | start : Path succ s s [s]
  | step {u v : Int} {vs : List Int} (hp : Path succ s u vs) (he : v ∈ succ u) :
      Path succ s v (v :: vs)

/-- `d` lies on every path from `s` to `v`. -/
def Dominates (succ : Int → List Int) (s d v : Int) : Prop :=
  ∀ vs, Path succ s v vs → d ∈ vs

/-- `d` is the strict dominator of `v` that all strict dominators of `v` dominate. -/
structure ImmediatelyDominates (succ : Int → List Int) (s d v : Int) : Prop where
  ne : d ≠ v
  dominates : Dominates succ s d v
  closest : ∀ x, x ≠ v → Dominates succ s x v → Dominates succ s x d

/-- Of the paths from `s` to `v` the shortest have `d` edges. -/
def Distance (succ : Int → List Int) (s v : Int) (d : Nat) : Prop :=
  IsLeast {k | ∃ vs, Path succ s v vs ∧ vs.length = k + 1} d

variable {succ : Int → List Int} {s u v d x : Int} {vs : List Int}

namespace Reaches

theorem refl (succ : Int → List Int) (s : Int) : Reaches succ s s := Relation.ReflTransGen.refl

theorem trans (h : Reaches succ s u) (h' : Reaches succ u v) : Reaches succ s v :=
  Relation.ReflTransGen.trans h h'

theorem tail (h : Reaches succ s u) (he : v ∈ succ u) : Reaches succ s v :=
  Relation.ReflTransGen.tail h he

theorem head (he : u ∈ succ s) (h : Reaches succ u v) : Reaches succ s v :=
  Relation.ReflTransGen.head he h

theorem iff_of_eq_nil (hs : succ s = []) : Reaches succ s v ↔ v = s :=
  Relation.reflTransGen_iff_eq fun _ he => by
    rw [hs] at he
    exact absurd he List.not_mem_nil

end Reaches

namespace Path

theorem end_mem (hp : Path succ s v vs) : v ∈ vs := by
  cases hp with
  | start => exact List.mem_singleton_self s
  | step _ _ => exact List.mem_cons_self

theorem start_mem (hp : Path succ s v vs) : s ∈ vs := by
  induction hp with
  | start => exact List.mem_singleton_self s
  | step _ _ ih => exact List.mem_cons_of_mem _ ih

theorem reaches (hp : Path succ s v vs) : Reaches succ s v := by
  induction hp with
  | start => exact Reaches.refl succ s
  | step _ he ih => exact ih.tail he

/-- The part of a path up to one of its vertices is a path; it ends the list. -/
theorem exists_suffix (hp : Path succ s v vs) (hx : x ∈ vs) :
    ∃ ws, Path succ s x ws ∧ ws <:+ vs := by
  induction hp with
  | start =>
    obtain rfl := List.mem_singleton.1 hx
    exact ⟨[x], .start, List.suffix_refl [x]⟩
  | @step u v vs hp he ih =>
    rcases List.mem_cons.1 hx with rfl | hx
    · exact ⟨_, .step hp he, List.suffix_refl _⟩
    · obtain ⟨ws, hws, hsuffix⟩ := ih hx
      exact ⟨ws, hws, hsuffix.trans (List.suffix_cons v vs)⟩

theorem upto (hp : Path succ s v vs) (hx : x ∈ vs) :
    ∃ ws, Path succ s x ws ∧ ∀ w ∈ ws, w ∈ vs := by
  obtain ⟨ws, hws, hsuffix⟩ := hp.exists_suffix hx
  exact ⟨ws, hws, fun w hw => hsuffix.subset hw⟩

end Path

theorem reaches_iff_exists_path : Reaches succ s v ↔ ∃ vs, Path succ s v vs := by
  constructor
  · intro h
    induction h with
    | refl => exact ⟨[s], .start⟩
    | tail _ he ih =>
      obtain ⟨vs, hp⟩ := ih
      exact ⟨_, hp.step he⟩
  · intro hex
    obtain ⟨vs, hp⟩ := hex
    exact hp.reaches

namespace Dominates

theorem refl (succ : Int → List Int) (s v : Int) : Dominates succ s v v :=
  fun _ hp => hp.end_mem

theorem start (succ : Int → List Int) (s v : Int) : Dominates succ s s v :=
  fun _ hp => hp.start_mem

theorem trans (h : Dominates succ s x u) (h' : Dominates succ s u v) :
    Dominates succ s x v := by
  intro vs hp
  obtain ⟨ws, hws, hsub⟩ := hp.upto (h' vs hp)
  exact hsub x (h ws hws)

/-- Only the start dominates the start. -/
theorem eq_start (h : Dominates succ s d s) : d = s :=
  List.mem_singleton.1 (h [s] .start)

/-- What strictly dominates the end of an edge dominates its source. -/
theorem of_edge (h : Dominates succ s d v) (hne : d ≠ v) (he : v ∈ succ u) :
    Dominates succ s d u := by
  intro vs hp
  rcases List.mem_cons.1 (h _ (hp.step he)) with rfl | hd
  · exact absurd rfl hne
  · exact hd

theorem reaches (h : Dominates succ s d v) (hv : Reaches succ s v) : Reaches succ s d := by
  obtain ⟨vs, hp⟩ := reaches_iff_exists_path.1 hv
  obtain ⟨ws, hws, _⟩ := hp.upto (h vs hp)
  exact hws.reaches

/-- What dominates the sources of `v` dominates `v`. The sources that `v` dominates itself do not
count: the first time that a path comes to `v`, it comes from another one. -/
theorem of_sources (hv : v ≠ s) (h : ∀ u, Reaches succ s u → v ∈ succ u →
    Dominates succ s d u ∨ Dominates succ s v u) : Dominates succ s d v := by
  intro vs hp
  induction hn : vs.length using Nat.strong_induction_on generalizing vs with
  | _ n ih =>
    cases hp with
    | start => exact absurd rfl hv
    | @step u _ vs hp he =>
      rcases h u hp.reaches he with hd | hvu
      · exact List.mem_cons_of_mem v (hd vs hp)
      · obtain ⟨ws, hws, hsuffix⟩ := hp.exists_suffix (hvu vs hp)
        have hlt : ws.length < n := by
          have hle := hsuffix.length_le
          rw [List.length_cons] at hn
          omega
        exact List.mem_cons_of_mem v (hsuffix.subset (ih _ hlt ws hws rfl))

end Dominates

theorem exists_distance (h : Reaches succ s v) : ∃ k, Distance succ s v k := by
  classical
  obtain ⟨vs, hp⟩ := reaches_iff_exists_path.1 h
  have hlength := List.length_pos_of_mem hp.end_mem
  have hex : ∃ k, ∃ vs, Path succ s v vs ∧ vs.length = k + 1 := ⟨vs.length - 1, vs, hp, by omega⟩
  exact ⟨_, Nat.isLeast_find hex⟩

namespace Distance

variable {k : Nat}

theorem start (succ : Int → List Int) (s : Int) : Distance succ s s 0 :=
  ⟨⟨[s], .start, rfl⟩, fun k _ => Nat.zero_le k⟩

theorem reaches (h : Distance succ s v k) : Reaches succ s v := by
  obtain ⟨⟨vs, hp, _⟩, _⟩ := h
  exact hp.reaches

/-- Only the start is at distance 0. -/
theorem eq_start (h : Distance succ s v 0) : v = s := by
  obtain ⟨⟨vs, hp, hlength⟩, _⟩ := h
  cases hp with
  | start => rfl
  | @step u _ vs hp _ =>
    have := List.length_pos_of_mem hp.end_mem
    rw [List.length_cons] at hlength
    omega

/-- An edge leads at most one step farther. -/
theorem step (h : Distance succ s u k) (he : v ∈ succ u) :
    ∃ j, j ≤ k + 1 ∧ Distance succ s v j := by
  obtain ⟨⟨vs, hp, hlength⟩, _⟩ := h
  obtain ⟨j, hj⟩ := exists_distance (hp.step he).reaches
  exact ⟨j, hj.2 ⟨_, hp.step he, by rw [List.length_cons, hlength]⟩, hj⟩

/-- The last edge of a shortest path leads one step farther. -/
theorem exists_source (h : Distance succ s v (k + 1)) :
    ∃ u, v ∈ succ u ∧ Distance succ s u k := by
  obtain ⟨⟨vs, hp, hlength⟩, hleast⟩ := h
  cases hp with
  | start => exact absurd hlength (by simp)
  | @step u _ vs hp he =>
    refine ⟨u, he, ⟨vs, hp, Nat.succ.inj hlength⟩, ?_⟩
    rintro j ⟨ws, hws, hj⟩
    exact Nat.le_of_succ_le_succ (hleast ⟨_, hws.step he, by rw [List.length_cons, hj]⟩)

end Distance

end IndexGraph
