import IndexGraph.Dominator.Immediate
import IndexGraph.Proofs.Dominator.Steady
import IndexGraph.Proofs.Position
import Mathlib.Algebra.Order.BigOperators.Group.List
import Mathlib.Data.Int.Interval
import Mathlib.Data.List.Nodup
import Mathlib.Tactic.Ring

/-
  The passes of `Dominator.settle` on any graph, whether or not its predecessors mirror its
  successors. `Setting` collects what the passes are given: the vertices in the order of the
  visits, without repetition, and their numbers; the height of a vertex is its place in that
  order. `Table idoms n up` says that the array `idoms` holds the tree `up`.
  `visit_eq` says what a visit comes to. `Stage` is the invariant: the array holds a tree that is
  `Steady`, with any further property `keep` that visits keep. A visit leads from one stage to the
  next (`Stage.visit_first`, `Stage.visit_later`), and so do the passes (`pass_first`,
  `pass_later`).
  A later pass that changes something lowers `weight`, the sum of the heights of the dominators;
  so the passes end (`settle_later`), with a tree in which each vertex is right below the meet
  of its predecessors.
-/

namespace IndexGraph.Dominator

open Function (update)

/-- The place of a vertex in the order of the visits. -/
def depth (start : Int) (vs : List Int) (v : Int) : Nat := (start :: vs).idxOf v

/-- What the passes over `vs` are given: vertices below `n`, numbered downwards. -/
structure Setting (g : Network) (start : Int) (vs : List Int) (number : Array Int) (n : Nat) :
    Prop where
  nodup : (start :: vs).Nodup
  in_range : ∀ v ∈ start :: vs, 0 ≤ v ∧ v < n
  predecessors_in_range : ∀ v ∈ vs, ∀ p ∈ g.predecessors v, 0 ≤ p ∧ p < n
  read_number : ∀ v ∈ start :: vs,
    Position.read number v = .ok ((vs.length : Int) - depth start vs v)

/-- The array holds the tree `up`, for the vertices below `n`. -/
structure Table (idoms : Idoms) (n : Nat) (up : Int → Option Int) : Prop
    extends Position.Reads idoms n up where
  in_range : ∀ v, up v ≠ none → 0 ≤ v ∧ v < n

namespace Table

variable {idoms : Idoms} {n : Nat} {up : Int → Option Int}

theorem tabulates (hi : Table idoms n up) : Tabulates idoms up := by
  intro v p hp
  obtain ⟨h0, hn⟩ := hi.in_range v (ne_none_of_up hp)
  rw [hi.read_eq v h0 hn, hp]

theorem write (hi : Table idoms n up) {v : Int} (h0 : 0 ≤ v) (hv : v < n) (d : Int) :
    ∃ idoms', Position.write idoms v (some d) = .ok idoms' ∧
      Table idoms' n (update up v (some d)) := by
  obtain ⟨idoms', hwrite, hreads⟩ := hi.toReads.write h0 hv (some d)
  refine ⟨idoms', hwrite, hreads, fun w hw => ?_⟩
  by_cases hwv : w = v
  · subst hwv
    exact ⟨h0, hv⟩
  · rw [Function.update_of_ne hwv] at hw
    exact hi.in_range w hw

end Table

/-! ## One visit -/

/-- What a search for the meet has found after the listed vertices. -/
def Met (up : Int → Option Int) (vs : List Int) : Option Int → Prop
  | none => ∀ v ∈ vs, up v = none
  | some m => IsMeet up vs m

section visit

variable {g : Network} {number : Array Int} {start root : Int} {idoms : Idoms} {n : Nat}
  {up : Int → Option Int} {height : Int → Nat}

theorem meet_eq (ht : Rooted up height root) (hi : Table idoms n up)
    (hn : Numbers number up height) (hlow : ∀ v, up v ≠ none → height v < n) {a b : Int}
    (ha : up a ≠ none) (hb : up b ≠ none) :
    ∃ m, meet idoms number a b = .ok m ∧ IsMeet up [a, b] m := by
  apply climb_eq ht hi.tabulates hn _ a b ha hb
  have h1 := hlow a ha
  have h2 := hlow b hb
  have hsq : (n + 1) * (n + 1) = n * n + 2 * n + 1 := by ring
  rw [hi.size_eq, hsq]
  omega

/-- Where the meet of any two vertices of the tree is found, so is that of a list, past the vertices
outside the tree. -/
theorem meetAll_met (hmeet : ∀ a b, up a ≠ none → up b ≠ none →
      ∃ m, meet idoms number a b = .ok m ∧ IsMeet up [a, b] m) (ps : List Int) :
    ∀ (vs : List Int) (found : Option Int), Met up vs found →
      (∀ p ∈ ps, Position.read idoms p = .ok (up p)) →
      ∃ found', meetAll idoms number found ps = .ok found' ∧ Met up (vs ++ ps) found' := by
  induction ps with
  | nil =>
    intro vs found hmet _
    exact ⟨found, rfl, by rwa [List.append_nil]⟩
  | cons p ps ih =>
    intro vs found hmet hps
    have hps' : ∀ q ∈ ps, Position.read idoms q = .ok (up q) := fun q hq =>
      hps q (List.mem_cons_of_mem p hq)
    have happend : vs ++ p :: ps = (vs ++ [p]) ++ ps := by simp
    rw [happend, meetAll, hps p List.mem_cons_self]
    cases hup : up p with
    | none =>
      have hmet' : Met up (vs ++ [p]) found := by
        cases found with
        | none => simpa [Met, or_imp, forall_and, hup] using hmet
        | some m => exact IsMeet.append_of_none hmet hup
      exact ih _ found hmet' hps'
    | some a =>
      have hupn : up p ≠ none := ne_none_of_up hup
      cases found with
      | none =>
        have hmet' : IsMeet up (vs ++ [p]) p := by
          refine ⟨hupn, fun x => ⟨fun hx w hw hw' => ?_, fun hx => ?_⟩⟩
          · rcases List.mem_append.1 hw with hw | hw
            · exact absurd (hmet w hw) hw'
            · rwa [List.mem_singleton.1 hw]
          · exact hx p (List.mem_append_right _ (List.mem_singleton_self p)) hupn
        exact ih _ (some p) hmet' hps'
      | some q =>
        have hmet : IsMeet up vs q := hmet
        obtain ⟨m, hm, hqp⟩ := hmeet q p hmet.ne_none hupn
        obtain ⟨found', hfound, hmet'⟩ := ih _ (some m) (hmet.append_singleton hupn hqp) hps'
        refine ⟨found', ?_, hmet'⟩
        simpa only [bind, Except.bind, hm] using hfound

theorem meetAll_eq (ht : Rooted up height root) (hi : Table idoms n up)
    (hn : Numbers number up height) (hlow : ∀ v, up v ≠ none → height v < n) (ps : List Int)
    (vs : List Int) (found : Option Int) (hmet : Met up vs found)
    (hps : ∀ p ∈ ps, 0 ≤ p ∧ p < n) :
    ∃ found', meetAll idoms number found ps = .ok found' ∧ Met up (vs ++ ps) found' :=
  meetAll_met (fun _ _ ha hb => meet_eq ht hi hn hlow ha hb) ps vs found hmet fun p hp =>
    hi.read_eq p (hps p hp).1 (hps p hp).2

/-- A visit moves a vertex to the meet of its predecessors, and is refused if none of them has a
dominator. -/
theorem visit_eq (g : Network) (start : Int) (ht : Rooted up height root) (hi : Table idoms n up)
    (hn : Numbers number up height) (hlow : ∀ v, up v ≠ none → height v < n) {v : Int}
    (h0 : 0 ≤ v) (hv : v < n) (hps : ∀ p ∈ g.predecessors v, 0 ≤ p ∧ p < n) :
    ((∀ p ∈ g.predecessors v, up p = none) ∧
        visit g number start idoms v = .error (.noPredecessor v start)) ∨
      ∃ m idoms', IsMeet up (g.predecessors v) m ∧ (∃ p ∈ g.predecessors v, up p ≠ none) ∧
        visit g number start idoms v = .ok (idoms', decide (up v ≠ some m)) ∧
        Table idoms' n (update up v (some m)) := by
  obtain ⟨found, hfound, hmet⟩ := meetAll_eq ht hi hn hlow (g.predecessors v) [] none
    (fun _ hw => absurd hw List.not_mem_nil) hps
  rw [List.nil_append] at hmet
  unfold visit
  rw [hfound]
  cases found with
  | none => exact .inl ⟨hmet, rfl⟩
  | some m =>
    have hmet : IsMeet up (g.predecessors v) m := hmet
    have hoff : up (-1) = none := by
      by_contra hne
      exact absurd (hi.in_range (-1) hne).1 (by decide)
    have hex : ∃ p ∈ g.predecessors v, up p ≠ none := hmet.exists_mem ht hoff
    refine .inr ⟨m, ?_⟩
    simp only [bind, Except.bind, hi.read_eq v h0 hv]
    by_cases hvm : up v = some m
    · refine ⟨idoms, hmet, hex, ?_, ?_⟩
      · simp [hvm, pure, Except.pure]
      · rwa [← hvm, Function.update_eq_self]
    · obtain ⟨idoms', hwrite, hi'⟩ := hi.write h0 hv m
      refine ⟨idoms', hmet, hex, ?_, hi'⟩
      simp [hvm, hwrite, pure, Except.pure]

end visit

/-! ## The order of the visits -/

/-- Some predecessor of `v` is visited before `v`. -/
def Preceded (g : Network) (start : Int) (vs : List Int) (v : Int) : Prop :=
  ∃ p ∈ g.predecessors v, p ∈ start :: vs ∧ depth start vs p < depth start vs v

/-- Before a visit at height `t` the vertices of `seen` are in the tree. -/
structure Stage (g : Network) (start : Int) (vs : List Int) (n : Nat)
    (keep : (Int → Option Int) → Prop) (idoms : Idoms) (up : Int → Option Int) (t : Nat)
    (seen : List Int) : Prop where
  table : Table idoms n up
  steady : Steady g.predecessors (depth start vs) start up t
  mem_iff : ∀ v, up v ≠ none ↔ v ∈ seen
  kept : keep up

/-- Every visit keeps the property `keep` of the tree. -/
def Kept (g : Network) (start : Int) (vs : List Int) (keep : (Int → Option Int) → Prop) : Prop :=
  ∀ up u m, Rooted up (depth start vs) start → (∀ v, up v ≠ none → v ∈ start :: vs) → u ∈ vs →
    IsMeet up (g.predecessors u) m → (∃ p ∈ g.predecessors u, up p ≠ none) → keep up →
    keep (update up u (some m))

/-- Each vertex is right below the meet of its predecessors. -/
def Settled (g : Network) (vs : List Int) (up : Int → Option Int) : Prop :=
  ∀ v ∈ vs, ∃ m, up v = some m ∧ IsMeet up (g.predecessors v) m

/-- The sum of the heights of the vertices above those of `vs`. -/
def weight (height : Int → Nat) (vs : List Int) (up : Int → Option Int) : Nat :=
  (vs.map fun v => (up v).elim 0 height).sum

/-- The sum of the numbers below `n`: the weight of a single row of `n + 1` vertices. -/
def triangle (n : Nat) : Nat := (List.range n).sum

theorem triangle_succ (n : Nat) : triangle (n + 1) = triangle n + n := by
  rw [triangle, List.range_succ, List.sum_append, List.sum_singleton, triangle]

theorem triangle_eq (n : Nat) : triangle n = n * (n - 1) / 2 := by
  have htwice : 2 * triangle n = n * (n - 1) := by
    induction n with
    | zero => rfl
    | succ n ih =>
      rw [triangle_succ, Nat.mul_add, ih]
      cases n with
      | zero => rfl
      | succ n =>
        simp only [Nat.add_sub_cancel]
        ring
  omega

theorem triangle_le (n : Nat) : triangle n ≤ n * n := by
  rw [triangle_eq]
  exact (Nat.div_le_self _ 2).trans (Nat.mul_le_mul_left n (Nat.sub_le n 1))

section passes

variable {g : Network} {number : Array Int} {start : Int} {vs : List Int} {n : Nat}
  {keep : (Int → Option Int) → Prop} {up : Int → Option Int} {idoms : Idoms}

/-- The depth of a vertex is the number of the vertices before it. -/
theorem depth_eq (hnd : (start :: vs).Nodup) {pre rest : List Int} {v : Int}
    (h : start :: vs = pre ++ v :: rest) : depth start vs v = pre.length := by
  have hv : v ∉ pre := by
    rw [h] at hnd
    exact fun hv => (List.nodup_append.1 hnd).2.2 v hv v List.mem_cons_self rfl
  rw [depth, h, List.idxOf_append_of_notMem hv, List.idxOf_cons_self, Nat.add_zero]

/-- The vertices before a place are those of smaller depth. -/
theorem mem_pre_iff {pre rest : List Int} (h : start :: vs = pre ++ rest) (v : Int) :
    v ∈ pre ↔ v ∈ start :: vs ∧ depth start vs v < pre.length := by
  rw [depth, h, List.mem_append]
  constructor
  · intro hv
    rw [List.idxOf_append_of_mem hv]
    exact ⟨.inl hv, List.idxOf_lt_length_iff.2 hv⟩
  · intro hex
    obtain ⟨_, hlt⟩ := hex
    by_contra hv
    rw [List.idxOf_append_of_notMem hv] at hlt
    omega

theorem depth_lt {v : Int} (hv : v ∈ start :: vs) : depth start vs v < vs.length + 1 :=
  List.idxOf_lt_length_iff.2 hv

namespace Setting

variable (hs : Setting g start vs number n)
include hs

theorem length_lt : vs.length < n := by
  have hsub : (start :: vs).toFinset ⊆ Finset.Ico (0 : Int) n := by
    intro v hv
    exact Finset.mem_Ico.2 (hs.in_range v (List.mem_toFinset.1 hv))
  have hcard := Finset.card_le_card hsub
  rw [List.toFinset_card_of_nodup hs.nodup, Int.card_Ico, List.length_cons] at hcard
  omega

theorem mem_vs {pre rest : List Int} {v : Int} (h : start :: vs = pre ++ v :: rest)
    (hpre : pre ≠ []) : v ∈ vs ∧ v ≠ start := by
  obtain ⟨a, pre, rfl⟩ := List.exists_cons_of_ne_nil hpre
  rw [List.cons_append] at h
  injection h with ha h
  have hv : v ∈ vs := by
    rw [h]
    exact List.mem_append_right _ List.mem_cons_self
  exact ⟨hv, fun hvs => (List.nodup_cons.1 hs.nodup).1 (hvs ▸ hv)⟩

theorem numbers (hsub : ∀ v, up v ≠ none → v ∈ start :: vs) :
    Numbers number up (depth start vs) := by
  refine ⟨fun v hv => ⟨_, hs.read_number v (hsub v hv)⟩, fun u v m k hu hv hm hk => ?_⟩
  rw [hs.read_number u (hsub u hu)] at hm
  rw [hs.read_number v (hsub v hv)] at hk
  cases hm
  cases hk
  omega

end Setting

/-- Before a visit the numbers and the heights fit the tree. -/
theorem Stage.fits (hs : Setting g start vs number n) {t : Nat} {seen : List Int}
    (h : Stage g start vs n keep idoms up t seen) (hseen : ∀ v ∈ seen, v ∈ start :: vs) :
    Numbers number up (depth start vs) ∧ ∀ v, up v ≠ none → depth start vs v < n := by
  have hsub : ∀ v, up v ≠ none → v ∈ start :: vs := fun v hv => hseen v ((h.mem_iff v).1 hv)
  refine ⟨hs.numbers hsub, fun v hv => ?_⟩
  have := depth_lt (hsub v hv)
  have := hs.length_lt
  omega

/-- A visit during a pass. -/
theorem Stage.visit_cases (hs : Setting g start vs number n) (hkeep : Kept g start vs keep)
    {t : Nat} {seen : List Int} (h : Stage g start vs n keep idoms up t seen)
    (hseen : ∀ v ∈ seen, v ∈ start :: vs) {u : Int} (hu : u ∈ vs) :
    ((∀ p ∈ g.predecessors u, up p = none) ∧
        visit g number start idoms u = .error (.noPredecessor u start)) ∨
      ∃ m idoms', IsMeet up (g.predecessors u) m ∧ (∃ p ∈ g.predecessors u, up p ≠ none) ∧
        visit g number start idoms u = .ok (idoms', decide (up u ≠ some m)) ∧
        Table idoms' n (update up u (some m)) ∧ keep (update up u (some m)) := by
  have hsub : ∀ v, up v ≠ none → v ∈ start :: vs := fun v hv => hseen v ((h.mem_iff v).1 hv)
  obtain ⟨hnumbers, hlow⟩ := h.fits hs hseen
  obtain ⟨h0, hn⟩ := hs.in_range u (List.mem_cons_of_mem _ hu)
  have hpreds := hs.predecessors_in_range u hu
  rcases visit_eq g start h.steady.rooted h.table hnumbers hlow h0 hn hpreds with
    hnone | ⟨m, idoms', hmeet, hex, hvisit, htable⟩
  · exact .inl hnone
  · have hkept := hkeep up u m h.steady.rooted hsub hu hmeet hex h.kept
    exact .inr ⟨m, idoms', hmeet, hex, hvisit, htable, hkept⟩

/-- A visit in the first pass adds the vertex to the tree, if it has a predecessor before it. -/
theorem Stage.visit_first (hs : Setting g start vs number n) (hkeep : Kept g start vs keep)
    {pre rest : List Int} {u : Int} (hpre : start :: vs = pre ++ u :: rest) (hne : pre ≠ [])
    (h : Stage g start vs n keep idoms up pre.length pre) :
    (¬ Preceded g start vs u ∧
        visit g number start idoms u = .error (.noPredecessor u start)) ∨
      Preceded g start vs u ∧ up u = none ∧ ∃ m idoms', IsMeet up (g.predecessors u) m ∧
        visit g number start idoms u = .ok (idoms', true) ∧
        Stage g start vs n keep idoms' (update up u (some m)) (pre ++ [u]).length
          (pre ++ [u]) := by
  obtain ⟨huvs, hustart⟩ := hs.mem_vs hpre hne
  have hheight := depth_eq hs.nodup hpre
  have hseen : ∀ v ∈ pre, v ∈ start :: vs := fun v hv => by
    rw [hpre]
    exact List.mem_append_left _ hv
  have hbelow : ∀ v, up v ≠ none → depth start vs v < pre.length := fun v hv =>
    ((mem_pre_iff hpre v).1 ((h.mem_iff v).1 hv)).2
  have hpreceded : (∃ p ∈ g.predecessors u, up p ≠ none) ↔ Preceded g start vs u := by
    rw [Preceded, hheight]
    refine exists_congr fun p => and_congr_right fun _ => ?_
    rw [h.mem_iff p, mem_pre_iff hpre p]
  rcases h.visit_cases hs hkeep hseen huvs with
    ⟨hnone, hvisit⟩ | ⟨m, idoms', hmeet, hex, hvisit, htable, hkept⟩
  · refine .inl ⟨?_, hvisit⟩
    rw [← hpreceded]
    intro hex
    obtain ⟨p, hp, hup⟩ := hex
    exact hup (hnone p hp)
  · have hun : up u = none := by
      by_contra hup
      have := hbelow u hup
      omega
    have hchanged : decide (up u ≠ some m) = true := by simp [hun]
    rw [hchanged] at hvisit
    refine .inr ⟨hpreceded.1 hex, hun, m, idoms', hmeet, hvisit, htable, ?_, fun v => ?_, hkept⟩
    · rw [List.length_append, List.length_singleton]
      exact h.steady.visit_first hustart hun hheight hbelow hmeet hex
    · rw [List.mem_append, List.mem_singleton, ← h.mem_iff]
      by_cases hvu : v = u
      · subst hvu
        simp
      · simp [hvu]

/-- A visit in a later pass moves the vertex up its own way. -/
theorem Stage.visit_later (hs : Setting g start vs number n) (hkeep : Kept g start vs keep)
    {pre rest : List Int} {u : Int} (hpre : start :: vs = pre ++ u :: rest) (hne : pre ≠ [])
    (h : Stage g start vs n keep idoms up pre.length (start :: vs)) :
    ∃ q m idoms', up u = some q ∧ IsMeet up (g.predecessors u) m ∧
      depth start vs m ≤ depth start vs q ∧ (m ≠ q → depth start vs m < depth start vs q) ∧
      visit g number start idoms u = .ok (idoms', decide (up u ≠ some m)) ∧
      Stage g start vs n keep idoms' (update up u (some m)) (pre ++ [u]).length
        (start :: vs) := by
  obtain ⟨huvs, hustart⟩ := hs.mem_vs hpre hne
  have hun : up u ≠ none := (h.mem_iff u).2 (List.mem_cons_of_mem _ huvs)
  obtain ⟨q, hq⟩ := Option.ne_none_iff_exists'.1 hun
  obtain ⟨p, hp, hup, _, _, _⟩ := h.steady.anchored u q hustart hq
  rcases h.visit_cases hs hkeep (fun _ hv => hv) huvs with
    ⟨hnone, _⟩ | ⟨m, idoms', hmeet, _, hvisit, htable, hkept⟩
  · exact absurd (hnone p hp) hup
  · have hqm := h.steady.onWay_of_isMeet hustart hq hmeet
    have hlt : m ≠ q → depth start vs m < depth start vs q := fun hmq =>
      Nat.lt_of_not_le fun hge => hmq (h.steady.rooted.eq_of_height_le hqm hge)
    refine ⟨q, m, idoms', hq, hmeet, h.steady.rooted.height_le hqm, hlt, hvisit, htable, ?_,
      fun v => ?_, hkept⟩
    · rw [List.length_append, List.length_singleton]
      exact h.steady.visit hustart hq (depth_eq hs.nodup hpre) hmeet
    · rw [update_ne_none_iff hun, h.mem_iff]

/-- The first pass meets every vertex for the first time. It is refused at the first one that
has no predecessor before it. -/
theorem pass_first (hs : Setting g start vs number n) (hkeep : Kept g start vs keep)
    (rest : List Int) :
    ∀ (pre : List Int) (idoms : Idoms) (up : Int → Option Int), start :: vs = pre ++ rest →
      pre ≠ [] → Stage g start vs n keep idoms up pre.length pre →
      (∃ before v after, rest = before ++ v :: after ∧
          (∀ u ∈ before, Preceded g start vs u) ∧ ¬ Preceded g start vs v ∧
          pass g number start rest idoms = .error (.noPredecessor v start)) ∨
        (∀ u ∈ rest, Preceded g start vs u) ∧ ∃ idoms' up',
          pass g number start rest idoms = .ok (idoms', decide (rest ≠ [])) ∧
          Stage g start vs n keep idoms' up' (start :: vs).length (start :: vs) := by
  induction rest with
  | nil =>
    intro pre idoms up hpre _ hstage
    rw [List.append_nil] at hpre
    refine .inr ⟨fun _ hu => absurd hu List.not_mem_nil, idoms, up, rfl, ?_⟩
    rwa [hpre]
  | cons u rest ih =>
    intro pre idoms up hpre hne hstage
    rcases hstage.visit_first hs hkeep hpre hne with
      ⟨hno, hvisit⟩ | ⟨hu, _, _, idoms₁, _, hvisit, hstage₁⟩
    · refine .inl ⟨[], u, rest, rfl, fun _ hw => absurd hw List.not_mem_nil, hno, ?_⟩
      simp only [pass, bind, Except.bind, hvisit]
    · rcases ih (pre ++ [u]) idoms₁ _ (by simpa using hpre) (by simp) hstage₁ with
        ⟨before, v, after, rfl, hbefore, hv, hpass⟩ | ⟨hrest, idoms', up', hpass, hstage'⟩
      · refine .inl ⟨u :: before, v, after, rfl, List.forall_mem_cons.2 ⟨hu, hbefore⟩, hv, ?_⟩
        simp only [pass, bind, Except.bind, hvisit, hpass]
      · refine .inr ⟨List.forall_mem_cons.2 ⟨hu, hrest⟩, idoms', up', ?_, hstage'⟩
        simp only [pass, bind, Except.bind, hvisit, hpass]
        simp [pure, Except.pure]

theorem weight_update_le (vs : List Int) {height : Int → Nat} {u q m : Int} (hq : up u = some q)
    (hle : height m ≤ height q) :
    weight height vs (update up u (some m)) ≤ weight height vs up := by
  refine List.sum_le_sum fun v _ => ?_
  by_cases hv : v = u
  · subst hv
    simpa [hq] using hle
  · rw [Function.update_of_ne hv]

theorem weight_update_lt {height : Int → Nat} {u q m : Int} (hu : u ∈ vs)
    (hq : up u = some q) (hlt : height m < height q) :
    weight height vs (update up u (some m)) < weight height vs up := by
  refine List.sum_lt_sum _ _ (fun v _ => ?_) ⟨u, hu, ?_⟩
  · by_cases hv : v = u
    · subst hv
      simpa [hq] using hlt.le
    · rw [Function.update_of_ne hv]
  · simpa [hq] using hlt

/-- A later pass only moves vertices up. If it changes nothing then every vertex that it visits
is right below the meet of its predecessors. -/
theorem pass_later (hs : Setting g start vs number n) (hkeep : Kept g start vs keep)
    (rest : List Int) :
    ∀ (pre : List Int) (idoms : Idoms) (up : Int → Option Int), start :: vs = pre ++ rest →
      pre ≠ [] → Stage g start vs n keep idoms up pre.length (start :: vs) →
      ∃ idoms' up' changed, pass g number start rest idoms = .ok (idoms', changed) ∧
        Stage g start vs n keep idoms' up' (start :: vs).length (start :: vs) ∧
        weight (depth start vs) vs up' ≤ weight (depth start vs) vs up ∧
        (changed = true → weight (depth start vs) vs up' < weight (depth start vs) vs up) ∧
        (changed = false → up' = up ∧ Settled g rest up) := by
  induction rest with
  | nil =>
    intro pre idoms up hpre _ hstage
    rw [List.append_nil] at hpre
    rw [← hpre] at hstage
    refine ⟨idoms, up, false, rfl, hstage, Nat.le_refl _, by simp, fun _ => ⟨rfl, ?_⟩⟩
    exact fun _ hv => absurd hv List.not_mem_nil
  | cons u rest ih =>
    intro pre idoms up hpre hne hstage
    obtain ⟨huvs, _⟩ := hs.mem_vs hpre hne
    obtain ⟨q, m, idoms₁, hq, hmeet, hle, hlt₁, hvisit, hstage₁⟩ :=
      hstage.visit_later hs hkeep hpre hne
    obtain ⟨idoms', up', changed, hpass, hstage', hweight, hlt, hsettled⟩ :=
      ih (pre ++ [u]) idoms₁ _ (by simpa using hpre) (by simp) hstage₁
    have hweight₁ := weight_update_le vs hq hle
    refine ⟨idoms', up', decide (up u ≠ some m) || changed, ?_, hstage',
      hweight.trans hweight₁, fun hchanged => ?_, fun hchanged => ?_⟩
    · simp only [pass, bind, Except.bind, hvisit, hpass]
      rfl
    · rcases Bool.or_eq_true_iff.1 hchanged with hmoved | hlater
      · have hmq : m ≠ q := by
          intro heq
          subst heq
          simp [hq] at hmoved
        exact Nat.lt_of_le_of_lt hweight (weight_update_lt huvs hq (hlt₁ hmq))
      · exact Nat.lt_of_lt_of_le (hlt hlater) hweight₁
    · obtain ⟨hmoved, hlater⟩ := Bool.or_eq_false_iff.1 hchanged
      have hum : up u = some m := by simpa using hmoved
      have hsame : update up u (some m) = up := by rw [← hum, Function.update_eq_self]
      rw [hsame] at hsettled
      obtain ⟨hup', hrest⟩ := hsettled hlater
      exact ⟨hup', List.forall_mem_cons.2 ⟨⟨m, hum, hmeet⟩, hrest⟩⟩

/-! ## All passes -/

/-- After a pass the next one may begin. -/
theorem Stage.restart {t : Nat} (h : Stage g start vs n keep idoms up (start :: vs).length
    (start :: vs)) : Stage g start vs n keep idoms up t (start :: vs) := by
  refine ⟨h.table, h.steady.restart (fun v hv => ?_) t, h.mem_iff, h.kept⟩
  exact depth_lt ((h.mem_iff v).1 hv)

/-- The vertex above `v` is visited before `v`, so the weight is at most that of a single row. -/
theorem Stage.weight_le (hs : Setting g start vs number n) {t : Nat}
    (h : Stage g start vs n keep idoms up t (start :: vs)) :
    weight (depth start vs) vs up ≤ triangle vs.length := by
  have hplace : vs.map vs.idxOf = List.range vs.length := by
    refine List.ext_getElem (by simp) fun i hi _ => ?_
    rw [List.getElem_map, List.getElem_range]
    exact (List.nodup_cons.1 hs.nodup).2.idxOf_getElem i (by simpa using hi)
  rw [triangle, ← hplace]
  refine List.sum_le_sum fun v hv => ?_
  have hne : v ≠ start := fun heq => (List.nodup_cons.1 hs.nodup).1 (heq ▸ hv)
  cases hq : up v with
  | none => exact Nat.zero_le _
  | some q =>
    have hlt := h.steady.rooted.height_lt v q hne hq
    rw [depth, depth, List.idxOf_cons_ne _ (Ne.symm hne)] at hlt
    exact Nat.le_of_lt_succ hlt

/-- Every pass after the first one lowers the weight or is the last one. -/
theorem settle_later (hs : Setting g start vs number n) (hkeep : Kept g start vs keep)
    (fuel : Nat) :
    ∀ (passes : Nat) (idoms : Idoms) (up : Int → Option Int),
      Stage g start vs n keep idoms up (start :: vs).length (start :: vs) →
      weight (depth start vs) vs up < fuel →
      ∃ idoms' up' k, settle g number start vs fuel passes idoms = .ok (idoms', k) ∧
        Stage g start vs n keep idoms' up' (start :: vs).length (start :: vs) ∧
        Settled g vs up' := by
  induction fuel with
  | zero => exact fun _ _ _ _ h => absurd h (Nat.not_lt_zero _)
  | succ fuel ih =>
    intro passes idoms up hstage hfuel
    obtain ⟨idoms₁, up₁, changed, hpass, hstage₁, _, hlt, hsettled⟩ :=
      pass_later hs hkeep vs [start] idoms up rfl (List.cons_ne_nil _ _) hstage.restart
    unfold settle
    rw [hpass]
    cases changed with
    | true =>
      have hweight := hlt rfl
      exact ih (passes + 1) idoms₁ up₁ hstage₁ (by omega)
    | false =>
      obtain ⟨rfl, hsettled⟩ := hsettled rfl
      exact ⟨idoms₁, up₁, passes + 1, rfl, hstage₁, hsettled⟩

/-- The passes are refused at the first vertex that has no predecessor before it; if there is
none, they end with each vertex right below the meet of its predecessors. -/
theorem settle_eq (hs : Setting g start vs number n) (hkeep : Kept g start vs keep) {fuel : Nat}
    (hfuel : triangle vs.length + 1 < fuel)
    (hstage : Stage g start vs n keep idoms up 1 [start]) :
    (∃ before v after, vs = before ++ v :: after ∧ (∀ u ∈ before, Preceded g start vs u) ∧
        ¬ Preceded g start vs v ∧
        settle g number start vs fuel 0 idoms = .error (.noPredecessor v start)) ∨
      (∀ u ∈ vs, Preceded g start vs u) ∧ ∃ idoms' up' k,
        settle g number start vs fuel 0 idoms = .ok (idoms', k) ∧
        Stage g start vs n keep idoms' up' (start :: vs).length (start :: vs) ∧
        Settled g vs up' := by
  obtain ⟨fuel, rfl⟩ := Nat.exists_eq_succ_of_ne_zero (Nat.ne_of_gt (Nat.zero_lt_of_lt hfuel))
  rcases pass_first hs hkeep vs [start] idoms up rfl (List.cons_ne_nil _ _) hstage with
    ⟨before, v, after, hvs, hbefore, hv, hpass⟩ | ⟨hall, idoms₁, up₁, hpass, hstage₁⟩
  · refine .inl ⟨before, v, after, hvs, hbefore, hv, ?_⟩
    rw [settle, hpass]
    rfl
  · refine .inr ⟨hall, ?_⟩
    rw [settle, hpass]
    by_cases hne : vs = []
    · refine ⟨idoms₁, up₁, 1, ?_, hstage₁, ?_⟩
      · simp [hne, bind, Except.bind, pure, Except.pure]
      · rw [hne]
        exact fun v hv => absurd hv List.not_mem_nil
    · have hweight := hstage₁.weight_le hs
      obtain ⟨idoms', up', k, hk, hrest⟩ :=
        settle_later hs hkeep fuel 1 idoms₁ up₁ hstage₁ (by omega)
      refine ⟨idoms', up', k, ?_, hrest⟩
      simpa [hne, bind, Except.bind] using hk

end passes

end IndexGraph.Dominator
