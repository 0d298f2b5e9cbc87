import IndexGraph.Dominator.Frontier
import IndexGraph.Proofs.Dominator.Immediate

/-
  Dominance frontiers. `InFrontier` is the definition: `b` dominates a predecessor of `y` and does
  not strictly dominate `y`. What the call lists is read off the ways up (`Joins`,
  `frontiersOf_eq`) and then compared with the definition (`joins_iff`). The two differ at the
  start only: it has no strict dominators, so by the definition it is in the frontier of all that
  dominate one of its predecessors, itself included. But the ways up are only followed to the
  vertex above the start, which is the start, and only if it has two predecessors.
-/

namespace IndexGraph.Dominator

/-- `y` is in the dominance frontier of `b`. -/
structure InFrontier (succ : Int → List Int) (start b y : Int) : Prop where
  reached : Reaches succ start b ∧ Reaches succ start y
  dominates : ∃ p, Reaches succ start p ∧ y ∈ succ p ∧ Dominates succ start b p
  not_strictly : ¬ (b ≠ y ∧ Dominates succ start b y)

/-- `y` is in the list at `b`. -/
def Lists (frontiers : Array (List Nat)) (b : Int) (y : Nat) : Prop :=
  ∃ ys, Position.read frontiers b = .ok ys ∧ y ∈ ys

/-- `y` joins the lists of the vertices on the ways up from its predecessors, below the vertex
above `y`. -/
def Joins (preds : Int → List Int) (up : Int → Option Int) (y b : Int) : Prop :=
  2 ≤ (preds y).length ∧ ∃ top, up y = some top ∧
    ∃ p ∈ preds y, up p ≠ none ∧ OnWay up p b ∧ ¬ OnWay up top b

/-! ## What the call lists -/

theorem mem_join {v y : Nat} {frontier : List Nat} :
    y ∈ join v frontier ↔ y ∈ frontier ∨ y = v := by
  unfold join
  split
  · rename_i hv
    constructor
    · exact .inl
    · intro hcase
      rcases hcase with hy | rfl
      · exact hy
      · exact hv
  · rw [List.mem_append, List.mem_singleton]

/-- From `fs` to `fs'` the lists have gained what `P` says, and nothing else. -/
structure Gains (n : Nat) (fs fs' : Array (List Nat)) (P : Nat → Int → Prop) : Prop where
  size_eq : fs'.size = n
  lists_iff : ∀ b : Int, 0 ≤ b → b < n → ∀ y, (Lists fs' b y ↔ Lists fs b y ∨ P y b)

namespace Gains

variable {n : Nat} {fs fs' fs'' : Array (List Nat)} {P Q R : Nat → Int → Prop}

theorem nothing (hsize : fs.size = n) (hP : ∀ y b, ¬ P y b) : Gains n fs fs P :=
  ⟨hsize, fun b _ _ y => by simp [hP y b]⟩

theorem trans (h : Gains n fs fs' P) (h' : Gains n fs' fs'' Q)
    (hR : ∀ y b, R y b ↔ P y b ∨ Q y b) : Gains n fs fs'' R := by
  refine ⟨h'.size_eq, fun b h0 hn y => ?_⟩
  rw [h'.lists_iff b h0 hn y, h.lists_iff b h0 hn y, hR y b, or_assoc]

end Gains

theorem exists_modify_join {frontiers : Array (List Nat)} {n : Nat} (hsize : frontiers.size = n)
    {r : Int} (h0 : 0 ≤ r) (hn : r < n) (v : Nat) :
    ∃ frontiers', Position.modify frontiers r (join v) = .ok frontiers' ∧
      Gains n frontiers frontiers' fun y b => y = v ∧ b = r := by
  subst hsize
  obtain ⟨frontiers', hmodify, hsize', hread⟩ := Position.exists_modify h0 hn (join v)
  refine ⟨frontiers', hmodify, hsize', fun b hb0 hbn y => ?_⟩
  unfold Lists
  rw [hread b hb0 hbn]
  by_cases hbr : b = r
  · subst hbr
    obtain ⟨k, rfl⟩ := Int.eq_ofNat_of_zero_le h0
    rw [if_pos rfl, Position.read_natCast (by omega)]
    simp [Except.map, mem_join]
  · rw [if_neg hbr]
    simp [hbr]

section ways

variable {up : Int → Option Int} {height : Int → Nat} {root : Int} {idoms : Idoms} {n : Nat}

/-- One way up, to a vertex on it. -/
theorem spread_eq (ht : Rooted up height root) (hi : Table idoms n up) (top : Int) (v : Nat)
    (fuel : Nat) :
    ∀ (runner : Int) (frontiers : Array (List Nat)), frontiers.size = n → up runner ≠ none →
      height runner < fuel → OnWay up runner top →
      ∃ frontiers', spread idoms top v fuel runner frontiers = .ok frontiers' ∧
        Gains n frontiers frontiers' fun y b => y = v ∧ OnWay up runner b ∧ ¬ OnWay up top b := by
  induction fuel with
  | zero => exact fun _ _ _ _ h => absurd h (Nat.not_lt_zero _)
  | succ fuel ih =>
    intro runner frontiers hsize hup hfuel htop
    unfold spread
    by_cases heq : runner = top
    · subst heq
      exact ⟨frontiers, if_pos rfl, .nothing hsize fun y b h => h.2.2 h.2.1⟩
    · obtain ⟨q, hq⟩ := Option.ne_none_iff_exists'.1 hup
      obtain ⟨h0, hn⟩ := hi.in_range runner hup
      obtain ⟨fs, hmodify, hfs⟩ := exists_modify_join hsize h0 hn v
      have hroot : runner ≠ root := by
        intro heq
        subst heq
        exact heq (ht.eq_root_of_onWay htop).symm
      have hlt := ht.height_lt runner q hroot hq
      have hqtop : OnWay up q top := ((OnWay.iff_of_up hq).1 htop).resolve_left (Ne.symm heq)
      have hnot : ¬ OnWay up top runner := fun h => heq (ht.antisymm h htop)
      obtain ⟨fs', hspread, hfs'⟩ := ih q fs hfs.size_eq (ht.closed runner q hq) (by omega) hqtop
      refine ⟨fs', ?_, hfs.trans hfs' fun y b => ?_⟩
      · rw [if_neg heq]
        simp only [bind, Except.bind, hmodify, above_eq hi.tabulates hq, hspread]
      · rw [OnWay.iff_of_up hq]
        constructor
        · intro hex
          obtain ⟨rfl, rfl | hb, hbtop⟩ := hex
          · exact .inl ⟨rfl, rfl⟩
          · exact .inr ⟨rfl, hb, hbtop⟩
        · intro hcase
          rcases hcase with ⟨rfl, rfl⟩ | ⟨rfl, hb, hbtop⟩
          · exact ⟨rfl, .inl rfl, hnot⟩
          · exact ⟨rfl, .inr hb, hbtop⟩

/-- The ways up from all predecessors. -/
theorem spreadAll_eq (ht : Rooted up height root) (hi : Table idoms n up)
    (hlow : ∀ v, up v ≠ none → height v < n) (top : Int) (v : Nat) (ps : List Int) :
    ∀ frontiers : Array (List Nat), frontiers.size = n →
      (∀ p ∈ ps, (0 ≤ p ∧ p < n) ∧ (up p ≠ none → OnWay up p top)) →
      ∃ frontiers', spreadAll idoms top v ps frontiers = .ok frontiers' ∧
        Gains n frontiers frontiers' fun y b =>
          y = v ∧ ∃ p ∈ ps, up p ≠ none ∧ OnWay up p b ∧ ¬ OnWay up top b := by
  induction ps with
  | nil =>
    intro frontiers hsize _
    exact ⟨frontiers, rfl, .nothing hsize fun y b => by simp⟩
  | cons p ps ih =>
    intro frontiers hsize hps
    obtain ⟨⟨h0, hn⟩, htop⟩ := hps p List.mem_cons_self
    have hps' := fun q hq => hps q (List.mem_cons_of_mem p hq)
    rw [spreadAll, hi.read_eq p h0 hn]
    cases hup : up p with
    | none =>
      obtain ⟨fs', hspread, hfs'⟩ := ih frontiers hsize hps'
      have hnone : Gains n frontiers frontiers fun _ _ => False := .nothing hsize fun _ _ h => h
      refine ⟨fs', hspread, hnone.trans hfs' fun y b => ?_⟩
      simp [hup]
    | some q =>
      have hpn : up p ≠ none := ne_none_of_up hup
      obtain ⟨fs, hspread, hfs⟩ := spread_eq ht hi top v (idoms.size + 2) p frontiers
        hsize hpn (by have := hlow p hpn; rw [hi.size_eq]; omega) (htop hpn)
      obtain ⟨fs', hspread', hfs'⟩ := ih fs hfs.size_eq hps'
      refine ⟨fs', ?_, hfs.trans hfs' fun y b => ?_⟩
      · simp only [bind, Except.bind, hspread, hspread']
      · simp only [List.mem_cons, exists_eq_or_imp, and_or_left, hpn, ne_eq, not_false_eq_true,
          true_and]

/-- What one vertex joins: nothing, if it is not in the tree or has few predecessors. -/
theorem exists_gains (g : Network) (ht : Rooted up height root) (hi : Table idoms n up)
    (hlow : ∀ v, up v ≠ none → height v < n) {v : Nat}
    (hps : ∀ top, up v = some top → ∀ p ∈ g.predecessors v, (0 ≤ p ∧ p < n) ∧
      (up p ≠ none → OnWay up p top))
    (rest : List (Nat × Option Int)) {frontiers : Array (List Nat)} (hsize : frontiers.size = n) :
    ∃ fs, frontiersOf g idoms ((v, up v) :: rest) frontiers = frontiersOf g idoms rest fs ∧
      Gains n frontiers fs fun y b => y = v ∧ Joins g.predecessors up v b := by
  cases htop : up v with
  | none =>
    refine ⟨frontiers, rfl, .nothing hsize ?_⟩
    intro y b hex
    obtain ⟨_, _, top, htop', _⟩ := hex
    rw [htop] at htop'
    cases htop'
  | some top =>
    rw [frontiersOf]
    by_cases hfew : (g.predecessors v).length < 2
    · refine ⟨frontiers, if_pos hfew, .nothing hsize ?_⟩
      intro y b hex
      obtain ⟨_, hmany, _⟩ := hex
      omega
    · obtain ⟨fs, hspread, hfs⟩ := spreadAll_eq ht hi hlow top v (g.predecessors v) frontiers
        hsize (hps top htop)
      refine ⟨fs, ?_, hfs.size_eq, fun b h0 hn y => (hfs.lists_iff b h0 hn y).trans ?_⟩
      · rw [if_neg hfew]
        simp only [bind, Except.bind, hspread]
      · refine or_congr_right (and_congr_right fun _ => ?_)
        constructor
        · exact fun hex => ⟨by omega, top, htop, hex⟩
        · intro hex
          obtain ⟨_, top', htop', hex⟩ := hex
          rw [htop] at htop'
          cases htop'
          exact hex

/-- All vertices in turn. -/
theorem frontiersOf_eq (g : Network) (ht : Rooted up height root) (hi : Table idoms n up)
    (hlow : ∀ v, up v ≠ none → height v < n)
    (hps : ∀ v top, up v = some top → ∀ p ∈ g.predecessors v, (0 ≤ p ∧ p < n) ∧
      (up p ≠ none → OnWay up p top))
    (rest : List (Nat × Option Int)) :
    ∀ frontiers : Array (List Nat), frontiers.size = n → (∀ e ∈ rest, up e.1 = e.2) →
      ∃ frontiers', frontiersOf g idoms rest frontiers = .ok frontiers' ∧
        Gains n frontiers frontiers' fun y b =>
          (∃ d, (y, d) ∈ rest) ∧ Joins g.predecessors up y b := by
  induction rest with
  | nil =>
    intro frontiers hsize _
    exact ⟨frontiers, rfl, .nothing hsize fun y b => by simp⟩
  | cons e rest ih =>
    intro frontiers hsize hrest
    obtain ⟨v, d⟩ := e
    obtain rfl : up v = d := hrest (v, d) List.mem_cons_self
    obtain ⟨fs, hstep, hfs⟩ := exists_gains g ht hi hlow (hps v) rest hsize
    obtain ⟨fs', hfrontiers, hfs'⟩ :=
      ih fs hfs.size_eq fun e he => hrest e (List.mem_cons_of_mem _ he)
    refine ⟨fs', hstep.trans hfrontiers, hfs.trans hfs' fun y b => ?_⟩
    constructor
    · intro hex
      obtain ⟨⟨d, hd⟩, hj⟩ := hex
      rcases List.mem_cons.1 hd with heq | hd
      · cases heq
        exact .inl ⟨rfl, hj⟩
      · exact .inr ⟨⟨d, hd⟩, hj⟩
    · intro hcase
      rcases hcase with ⟨rfl, hj⟩ | ⟨⟨d, hd⟩, hj⟩
      · exact ⟨⟨_, List.mem_cons_self⟩, hj⟩
      · exact ⟨⟨d, List.mem_cons_of_mem _ hd⟩, hj⟩

end ways

/-! ## The call and the definition -/

section definition

variable {succ : Int → List Int} {start p v b : Int} {g : Network} {n : Nat}
  {up : Int → Option Int}

/-- What dominates the only predecessor of a vertex strictly dominates the vertex. -/
theorem strictly_dominates_of_sole (hv : v ≠ start) (hreach : Reaches succ start v)
    (hsole : ∀ u, Reaches succ start u → v ∈ succ u → u = p) (hb : Dominates succ start b p) :
    b ≠ v ∧ Dominates succ start b v := by
  constructor
  · intro heq
    subst heq
    -- no path comes to `b`: its last step would come from a path that has been at `b` before
    have hnever : ∀ w vs, Path succ start w vs → b ∉ vs := by
      intro w vs hp
      induction hp with
      | start => exact fun hmem => hv (List.mem_singleton.1 hmem)
      | @step u w vs hp he ih =>
        intro hmem
        rcases List.mem_cons.1 hmem with rfl | hmem
        · obtain rfl := hsole u hp.reaches he
          exact ih (hb vs hp)
        · exact ih hmem
    obtain ⟨vs, hp⟩ := reaches_iff_exists_path.1 hreach
    exact hnever b vs hp hp.end_mem
  · intro vs hp
    cases hp with
    | start => exact absurd rfl hv
    | @step u _ vs hp he =>
      obtain rfl := hsole u hp.reaches he
      exact List.mem_cons_of_mem v (hb vs hp)

/-- The strict dominators of a vertex are those on the way up from the vertex above it. -/
theorem DominatorTree.onWay_above_iff (h : DominatorTree succ start n up) (hv : v ≠ start)
    {top : Int} (htop : up v = some top) :
    OnWay up top b ↔ b ≠ v ∧ Dominates succ start b v := by
  obtain ⟨height, ht, _⟩ := h.exists_rooted
  have hvn : up v ≠ none := ne_none_of_up htop
  have hlt := ht.height_lt v top hv htop
  rw [← h.onWay_iff v hvn b, OnWay.iff_of_up htop]
  constructor
  · intro hb
    refine ⟨?_, .inr hb⟩
    intro heq
    subst heq
    exact ht.not_onWay_of_height_lt hlt hb
  · intro hex
    obtain ⟨hne, rfl | hb⟩ := hex
    · exact absurd rfl hne
    · exact hb

theorem inFrontier_iff (hv : Reaches succ start v) : InFrontier succ start b v ↔
    (∃ p, Reaches succ start p ∧ v ∈ succ p ∧ Dominates succ start b p) ∧
      ¬ (b ≠ v ∧ Dominates succ start b v) := by
  constructor
  · exact fun h => ⟨h.dominates, h.not_strictly⟩
  · intro hex
    obtain ⟨⟨p, hp, he, hb⟩, hnot⟩ := hex
    exact ⟨⟨hb.reaches hp, hv⟩, ⟨p, hp, he, hb⟩, hnot⟩

section joins

variable (hg : g.Consistent n) (h0 : 0 ≤ start) (hn : start < n)
  (h : DominatorTree g.successors start n up)
include hg h0 hn h

/-- The ways up from the predecessors of a vertex hold what dominates one of them. -/
theorem onWay_predecessor_iff (hv : Reaches g.successors start v) :
    (∃ p ∈ g.predecessors v, up p ≠ none ∧ OnWay up p b) ↔
      ∃ p, Reaches g.successors start p ∧ v ∈ g.successors p ∧
        Dominates g.successors start b p := by
  have hmirror : ∀ p, Reaches g.successors start p →
      (v ∈ g.successors p ↔ p ∈ g.predecessors v) := fun p hp =>
    hg.mem_iff_of_reaches h0 hn hp (hg.reaches_in_range h0 hn v hv)
  constructor
  · intro hex
    obtain ⟨p, hp, hup, hb⟩ := hex
    have hpr := (h.ne_none_iff p).1 hup
    exact ⟨p, hpr, (hmirror p hpr).2 hp, (h.onWay_iff p hup b).1 hb⟩
  · intro hex
    obtain ⟨p, hpr, he, hb⟩ := hex
    have hup := (h.ne_none_iff p).2 hpr
    exact ⟨p, (hmirror p hpr).1 he, hup, (h.onWay_iff p hup b).2 hb⟩

/-- The only predecessor of a vertex hands its dominators on, so nothing is missed. -/
theorem joins_iff_of_ne (hv : v ≠ start) :
    Joins g.predecessors up v b ↔ InFrontier g.successors start b v := by
  constructor
  · intro hex
    obtain ⟨_, top, htop, p, hp, hup, hb, hnot⟩ := hex
    have hreach := (h.ne_none_iff v).1 (ne_none_of_up htop)
    rw [inFrontier_iff hreach, ← onWay_predecessor_iff hg h0 hn h hreach,
      ← h.onWay_above_iff hv htop]
    exact ⟨⟨p, hp, hup, hb⟩, hnot⟩
  · intro hin
    have hreach := hin.reached.2
    obtain ⟨top, htop⟩ := Option.ne_none_iff_exists'.1 ((h.ne_none_iff v).2 hreach)
    obtain ⟨p, hp, hup, hb⟩ := (onWay_predecessor_iff hg h0 hn h hreach).2 hin.dominates
    have hnot : ¬ OnWay up top b := by
      rw [h.onWay_above_iff hv htop]
      exact hin.not_strictly
    refine ⟨?_, top, htop, p, hp, hup, hb, hnot⟩
    by_contra hfew
    obtain ⟨q, hq⟩ := List.length_eq_one_iff.1 (show (g.predecessors v).length = 1 by
      have := List.length_pos_of_mem hp
      omega)
    have hsole : ∀ u, Reaches g.successors start u → v ∈ g.successors u → u = p := by
      intro u hu he
      have hmem := hg.mem_predecessors h0 hn hu he
      rw [hq, List.mem_singleton] at hmem hp
      rw [hmem, hp]
    exact hin.not_strictly
      (strictly_dominates_of_sole hv hreach hsole ((h.onWay_iff p hup b).1 hb))

/-- At the start, which is above itself, the start never joins, and nothing does if there are few
predecessors. -/
theorem joins_start_iff : Joins g.predecessors up start b ↔
    InFrontier g.successors start b start ∧ b ≠ start ∧ 2 ≤ (g.predecessors start).length := by
  obtain ⟨height, ht, _⟩ := h.exists_rooted
  have hstart := Reaches.refl g.successors start
  rw [inFrontier_iff hstart, ← onWay_predecessor_iff hg h0 hn h hstart]
  constructor
  · intro hex
    obtain ⟨hmany, top, htop, p, hp, hup, hb, hnot⟩ := hex
    rw [ht.root_up] at htop
    cases htop
    refine ⟨⟨⟨p, hp, hup, hb⟩, fun hstrict => hstrict.1 hstrict.2.eq_start⟩, ?_, hmany⟩
    intro heq
    subst heq
    exact hnot (.refl b)
  · intro hex
    obtain ⟨⟨⟨p, hp, hup, hb⟩, _⟩, hbs, hmany⟩ := hex
    exact ⟨hmany, start, ht.root_up, p, hp, hup, hb, fun hb' => hbs (ht.eq_root_of_onWay hb')⟩

/-- What joins is what the definition says, but for the start. -/
theorem joins_iff : Joins g.predecessors up v b ↔ InFrontier g.successors start b v ∧
    (v = start → b ≠ start ∧ 2 ≤ (g.predecessors start).length) := by
  by_cases hv : v = start
  · subst hv
    rw [joins_start_iff hg h0 hn h, forall_prop_of_true rfl]
  · rw [joins_iff_of_ne hg h0 hn h hv, and_iff_left fun hvs => absurd hvs hv]

end joins

theorem result_dominanceFrontiers (g : Network) (start : Int) :
    (g.dominanceFrontiers start).result = (solve g start).bind fun solved =>
      frontiersOf g solved.1 (solved.1.toList.zipIdx.map fun e => (e.2, e.1))
        (Array.replicate solved.1.size []) := by
  unfold Network.dominanceFrontiers Network.immediateDominators
  rw [Reply.result_andThen]
  cases solve g start with
  | error e => rfl
  | ok solved => rfl

/-- A predecessor in the tree has the vertex above on its way up. -/
theorem DominatorTree.onWay_of_predecessor (hg : g.Consistent n) (h0 : 0 ≤ start) (hn : start < n)
    (h : DominatorTree g.successors start n up) {top : Int} (htop : up v = some top)
    (hp : p ∈ g.predecessors v) (hup : up p ≠ none) : OnWay up p top := by
  obtain ⟨height, ht, _⟩ := h.exists_rooted
  by_cases hvs : v = start
  · subst hvs
    rw [ht.root_up] at htop
    cases htop
    exact ht.onWay_root hup
  · have hvr := hg.reaches_in_range h0 hn v ((h.ne_none_iff v).1 (ne_none_of_up htop))
    have he := (hg.mem_iff_of_reaches h0 hn ((h.ne_none_iff p).1 hup) hvr).2 hp
    have hidom := h.immediatelyDominates hvs htop
    exact (h.onWay_iff p hup top).2 (hidom.dominates.of_edge hidom.ne he)

/-- The list that the call goes through holds each vertex with what the table has for it. -/
theorem mem_numbered {idoms : Idoms} {y : Nat} {d : Option Int} :
    (y, d) ∈ idoms.toList.zipIdx.map (fun e => (e.2, e.1)) ↔ idoms[y]? = some d := by
  rw [List.mem_map, ← Array.getElem?_toList]
  constructor
  · intro hex
    obtain ⟨⟨d', y'⟩, hmem, heq⟩ := hex
    cases heq
    exact List.mem_zipIdx_iff_getElem?.1 hmem
  · intro hget
    exact ⟨(d, y), List.mem_zipIdx_iff_getElem?.2 hget, rfl⟩

theorem not_lists_replicate (n : Nat) (b : Int) (y : Nat) :
    ¬ Lists (Array.replicate n []) b y := by
  intro hex
  obtain ⟨ys, hys, hy⟩ := hex
  obtain ⟨k, _, hk⟩ := Position.read_eq_ok_iff.1 hys
  rw [Array.getElem?_replicate] at hk
  split at hk
  · cases hk
    exact absurd hy List.not_mem_nil
  · cases hk

/-- What the call lists, where each predecessor in the tree has the vertex above on its way up. -/
theorem exists_gains_of_solve {height : Int → Nat} {root : Int} {idoms : Idoms} {passes : Nat}
    (hsolve : solve g start = .ok (idoms, passes)) (ht : Rooted up height root)
    (hi : Table idoms n up) (hlow : ∀ v, up v ≠ none → height v < n)
    (hps : ∀ v top, up v = some top → ∀ p ∈ g.predecessors v, (0 ≤ p ∧ p < n) ∧
      (up p ≠ none → OnWay up p top)) :
    ∃ table, (g.dominanceFrontiers start).result = .ok table ∧
      Gains n (Array.replicate n []) table fun y b => Joins g.predecessors up y b := by
  have hrest : ∀ e ∈ (idoms.toList.zipIdx.map fun e => (e.2, e.1) : List (Nat × Option Int)),
      up e.1 = e.2 := by
    intro hex he
    obtain ⟨y, d⟩ := hex
    have hget := mem_numbered.1 he
    have hy : y < n := by
      rw [← hi.size_eq]
      exact (Array.getElem?_eq_some_iff.1 hget).1
    rw [hi.getElem?_eq hy] at hget
    exact Option.some.inj hget
  obtain ⟨table, htable, hgains⟩ :=
    frontiersOf_eq g ht hi hlow hps _ _ Array.size_replicate hrest
  refine ⟨table, ?_, hgains.size_eq, fun b hb0 hbn y => ?_⟩
  · rw [result_dominanceFrontiers, hsolve]
    show frontiersOf g idoms _ (Array.replicate idoms.size []) = _
    rwa [hi.size_eq]
  · rw [hgains.lists_iff b hb0 hbn y, and_iff_right_of_imp]
    intro hex
    obtain ⟨_, top, htop, _⟩ := hex
    obtain ⟨_, hyn⟩ := hi.in_range y (ne_none_of_up htop)
    exact ⟨up y, mem_numbered.2 (hi.getElem?_eq (by omega))⟩

/-- What the call lists on a consistent graph. -/
theorem exists_frontiers (hg : g.Consistent n) (hroom : n < Length.room) (h0 : 0 ≤ start)
    (hn : start < n) :
    ∃ table, (g.dominanceFrontiers start).result = .ok table ∧ table.size = n ∧
      ∀ (b : Int) (y : Nat), 0 ≤ b → b < n → (Lists table b y ↔
        InFrontier g.successors start b y ∧
          ((y : Int) = start → b ≠ start ∧ 2 ≤ (g.predecessors start).length)) := by
  obtain ⟨idoms, up, passes, hsolve, hi, htree⟩ := exists_dominatorTree hg hroom h0 hn
  obtain ⟨height, ht, hlow⟩ := htree.exists_rooted
  have hps : ∀ v top, up v = some top → ∀ p ∈ g.predecessors v, (0 ≤ p ∧ p < n) ∧
      (up p ≠ none → OnWay up p top) := by
    intro v top htop p hp
    obtain ⟨hv0, hvn⟩ := hi.in_range v (ne_none_of_up htop)
    exact ⟨hg.predecessors_in_range v hv0 hvn p hp, htree.onWay_of_predecessor hg h0 hn htop hp⟩
  obtain ⟨table, htable, hgains⟩ := exists_gains_of_solve hsolve ht hi hlow hps
  refine ⟨table, htable, hgains.size_eq, fun b y hb0 hbn => ?_⟩
  rw [hgains.lists_iff b hb0 hbn y, ← joins_iff hg h0 hn htree,
    or_iff_right (not_lists_replicate _ b y)]

/-- The call gives the table that the definition asks for. -/
def MeetsDefinition (g : Network) (start : Int) (n : Nat) : Prop :=
  ∃ table, (g.dominanceFrontiers start).result = .ok table ∧ table.size = n ∧
    ∀ b y : Nat, b < n → y < n → (Lists table b y ↔ InFrontier g.successors start b y)

/-- The call meets the definition exactly if there is room for a table and no edge leads from
what the start reaches back to the start. -/
theorem meetsDefinition_iff (hg : g.Consistent n) (h0 : 0 ≤ start) (hn : start < n) :
    MeetsDefinition g start n ↔
      n < Length.room ∧ ∀ p, Reaches g.successors start p → start ∉ g.successors p := by
  constructor
  · intro hex
    obtain ⟨table, htable, _, hmeets⟩ := hex
    have hroom : n < Length.room := by
      by_contra hroom
      obtain ⟨e, he⟩ := exists_solve_eq_error g start (by rw [hg.vertexCount_eq]; omega)
      rw [result_dominanceFrontiers, he] at htable
      cases htable
    refine ⟨hroom, fun p hp he => ?_⟩
    obtain ⟨table', htable', _, hlists⟩ := exists_frontiers hg hroom h0 hn
    rw [htable] at htable'
    cases htable'
    obtain ⟨k, rfl⟩ := Int.eq_ofNat_of_zero_le h0
    -- the start is in its own frontier, by the definition alone
    have hin : InFrontier g.successors k k k :=
      ⟨⟨Reaches.refl _ _, Reaches.refl _ _⟩, ⟨p, hp, he, Dominates.start _ _ _⟩,
        fun hstrict => hstrict.1 rfl⟩
    have hlist := (hmeets k k (by omega) (by omega)).2 hin
    exact (((hlists k k h0 hn).1 hlist).2 rfl).1 rfl
  · intro hex
    obtain ⟨hroom, hback⟩ := hex
    obtain ⟨table, htable, hsize, hlists⟩ := exists_frontiers hg hroom h0 hn
    refine ⟨table, htable, hsize, fun b y hb hy => ?_⟩
    rw [hlists b y (by omega) (by omega)]
    constructor
    · exact And.left
    · intro hin
      refine ⟨hin, fun hys => ?_⟩
      obtain ⟨p, hp, he, _⟩ := hin.dominates
      rw [hys] at he
      exact absurd he (hback p hp)

end definition

/-- The ways from 0 part to 1 and 2 and join in 3, which is in the frontiers of these two, but not
in that of 0. No edge leads back. -/
theorem meetsDefinition_diamond :
    let g := Network.ofTables 4 4 #[[1, 2], [3], [3]] #[[], [0], [0], [1, 2]] #[]
    MeetsDefinition g 0 4 ∧ (g.dominanceFrontiers 0).result = .ok #[[], [3], [3], []] ∧
      InFrontier g.successors 0 1 3 ∧ InFrontier g.successors 0 2 3 ∧
        ¬ InFrontier g.successors 0 0 3 := by
  intro g
  have hg : g.Consistent 4 :=
    (Network.enclosed_of_fin rfl (by decide) (by decide)).consistent_of_fin (by decide)
  have hforward : ∀ u : Fin 4, 0 ∉ g.successors (u : Nat) := by decide
  have hmeets : MeetsDefinition g 0 4 := by
    refine (meetsDefinition_iff hg (by decide) (by decide)).2 ⟨by decide, fun p hp => ?_⟩
    obtain ⟨k, rfl⟩ := hg.exists_fin_of_reaches (by decide) (by decide) hp
    exact hforward k
  have hresult : (g.dominanceFrontiers 0).result = .ok #[[], [3], [3], []] := by decide +kernel
  refine ⟨hmeets, hresult, ?_⟩
  obtain ⟨table, htable, _, hlists⟩ := hmeets
  rw [hresult, Except.ok.injEq] at htable
  subst htable
  have hjoin : ∀ b : Nat, b < 4 → (Lists #[[], [3], [3], []] b 3 ↔
      InFrontier g.successors 0 b 3) := fun b hb => hlists b 3 hb (by decide)
  refine ⟨(hjoin 1 (by decide)).1 ⟨[3], rfl, List.mem_cons_self⟩,
    (hjoin 2 (by decide)).1 ⟨[3], rfl, List.mem_cons_self⟩, fun hin => ?_⟩
  obtain ⟨ys, hys, hmem⟩ := (hjoin 0 (by decide)).2 hin
  cases hys
  exact absurd hmem List.not_mem_nil

/-- Two vertices with edges from the start and back to it: the start is in its own frontier, but
the call lists it at the other two only. -/
theorem dominanceFrontiers_back_edge :
    let g := Network.ofTables 3 4 #[[1, 2], [0], [0]] #[[1, 2], [0], [0]] #[]
    g.Consistent 3 ∧ (g.dominanceFrontiers 0).result = .ok #[[], [0], [0]] ∧
      InFrontier g.successors 0 0 0 ∧ ¬ MeetsDefinition g 0 3 := by
  intro g
  have hg : g.Consistent 3 :=
    (Network.enclosed_of_fin rfl (by decide) (by decide)).consistent_of_fin (by decide)
  have hresult : (g.dominanceFrontiers 0).result = .ok #[[], [0], [0]] := by decide +kernel
  have hin : InFrontier g.successors 0 0 0 := by
    have h01 : Reaches g.successors 0 1 :=
      (Reaches.refl g.successors 0).tail (show (1 : Int) ∈ g.successors 0 by decide)
    exact ⟨⟨Reaches.refl _ _, Reaches.refl _ _⟩,
      ⟨1, h01, show (0 : Int) ∈ g.successors 1 by decide, Dominates.start _ _ _⟩,
      fun hstrict => hstrict.1 rfl⟩
  refine ⟨hg, hresult, hin, fun hmeets => ?_⟩
  obtain ⟨table, htable, _, hlists⟩ := hmeets
  rw [hresult] at htable
  cases htable
  obtain ⟨ys, hys, hmem⟩ := (hlists 0 0 (by decide) (by decide)).2 hin
  cases hys
  exact absurd hmem List.not_mem_nil

/-! ## What the call lists at the start -/

section departure

variable {g : Network} {n : Nat} {start b y : Int}

/-- `b` dominates a predecessor of `y` that is reached. Predecessors and successors may be listed
any number of times. -/
def DominatesPredecessor (g : Network) (start b y : Int) : Prop :=
  ∃ p ∈ g.predecessors y, Reaches g.successors start p ∧ Dominates g.successors start b p

/-- Where predecessors mirror successors the definition can be told by the predecessors. -/
theorem inFrontier_iff_dominatesPredecessor (hg : g.Consistent n) (h0 : 0 ≤ start)
    (hn : start < n) (hy0 : 0 ≤ y) (hyn : y < n) : InFrontier g.successors start b y ↔
      Reaches g.successors start y ∧ DominatesPredecessor g start b y ∧
        ¬ (b ≠ y ∧ Dominates g.successors start b y) := by
  have hmirror : ∀ p, Reaches g.successors start p →
      (y ∈ g.successors p ↔ p ∈ g.predecessors y) := fun p hp =>
    hg.mem_iff_of_reaches h0 hn hp ⟨hy0, hyn⟩
  constructor
  · intro hin
    obtain ⟨p, hp, he, hb⟩ := hin.dominates
    exact ⟨hin.reached.2, ⟨p, (hmirror p hp).1 he, hp, hb⟩, hin.not_strictly⟩
  · intro hex
    obtain ⟨hy, ⟨p, hmem, hp, hb⟩, hnot⟩ := hex
    exact (inFrontier_iff hy).2 ⟨⟨p, hp, (hmirror p hp).2 hmem, hb⟩, hnot⟩

/-- On every consistent graph for which there is room the call follows the definition at all
vertices but the start. The start is listed at the other vertices that dominate a predecessor of it,
if it has at least two, counted as often as they are listed. A larger graph is refused. -/
theorem frontiers_depart_at_start (g : Network) (n : Nat) (start : Int) (hg : g.Consistent n)
    (h0 : 0 ≤ start) (hn : start < n) :
    if n < Length.room then
      ∃ table, (g.dominanceFrontiers start).result = .ok table ∧ table.size = n ∧
        ∀ b y : Nat, b < n → y < n →
          ((y : Int) ≠ start → (Lists table b y ↔
            Reaches g.successors start y ∧ DominatesPredecessor g start b y ∧
              ¬ ((b : Int) ≠ y ∧ Dominates g.successors start b y))) ∧
          ((y : Int) = start → (Lists table b y ↔
            (b : Int) ≠ start ∧ 2 ≤ (g.predecessors start).length ∧
              DominatesPredecessor g start b start))
    else ∃ k, g.dominanceFrontiers start = .fail (Length.refusal k) () := by
  split
  case isFalse hroom =>
    obtain ⟨k, hk⟩ := (confined_of_enclosed hg.enclosed h0 hn).exists_solve_eq_refusal hroom
    refine ⟨k, ?_⟩
    rw [Network.dominanceFrontiers, Network.immediateDominators, hk]
    rfl
  case isTrue hroom =>
    obtain ⟨table, htable, hsize, hlists⟩ := exists_frontiers hg hroom h0 hn
    refine ⟨table, htable, hsize, fun b y hb hy => ?_⟩
    have hlist := hlists b y (by omega) (by omega)
    rw [inFrontier_iff_dominatesPredecessor hg h0 hn (by omega) (by omega)] at hlist
    refine ⟨fun hys => ?_, fun hys => ?_⟩
    · rw [hlist, and_iff_left fun heq => absurd heq hys]
    · rw [hlist, forall_prop_of_true hys, hys]
      constructor
      · rintro ⟨⟨_, hdom, _⟩, hbs, hmany⟩
        exact ⟨hbs, hmany, hdom⟩
      · -- nothing but the start dominates the start
        rintro ⟨hbs, hmany, hdom⟩
        exact ⟨⟨Reaches.refl _ _, hdom, fun hstrict => hbs hstrict.2.eq_start⟩, hbs, hmany⟩

/-- The ways from 0 part to 1 and 2 and join in 3, and edges lead back from 1 and 3. The start is
listed at these two, and not at 2, which therefore dominates neither. -/
theorem frontiers_depart_at_start_loop :
    let g := Network.ofTables 4 6 #[[1, 2], [3, 0], [3], [0]] #[[1, 3], [0], [0], [1, 2]] #[]
    g.Consistent 4 ∧ (g.dominanceFrontiers 0).result = .ok #[[], [0, 3], [3], [0]] ∧
      DominatesPredecessor g 0 1 0 ∧ ¬ DominatesPredecessor g 0 2 0 := by
  intro g
  have hg : g.Consistent 4 :=
    (Network.enclosed_of_fin rfl (by decide) (by decide)).consistent_of_fin (by decide)
  have hresult : (g.dominanceFrontiers 0).result = .ok #[[], [0, 3], [3], [0]] := by
    decide +kernel
  have hdepart := frontiers_depart_at_start g 4 0 hg (by decide) (by decide)
  rw [if_pos (by decide)] at hdepart
  obtain ⟨table, htable, _, hlists⟩ := hdepart
  rw [hresult, Except.ok.injEq] at htable
  subst htable
  refine ⟨hg, hresult, ?_, fun hdom => ?_⟩
  · have hlisted : Lists #[[], [0, 3], [3], [0]] (1 : Nat) 0 :=
      ⟨[0, 3], rfl, List.mem_cons_self⟩
    exact (((hlists 1 0 (by decide) (by decide)).2 rfl).1 hlisted).2.2
  · obtain ⟨ys, hys, hmem⟩ := ((hlists 2 0 (by decide) (by decide)).2 rfl).2
      ⟨by decide, by decide, hdom⟩
    cases hys
    exact absurd hmem (by decide)

/-- Without any edge a graph of `2 ^ 63` vertices is consistent, and there are no lists. -/
theorem dominanceFrontiers_eq_lengthRange :
    let g := Network.ofTables 9223372036854775808 0 #[] #[] #[]
    g.Consistent 9223372036854775808 ∧ g.dominanceFrontiers 0 = .fail .lengthRange () := by
  intro g
  exact ⟨Network.consistent_ofTables_empty _ _ _, rfl⟩

end departure

end IndexGraph.Dominator
