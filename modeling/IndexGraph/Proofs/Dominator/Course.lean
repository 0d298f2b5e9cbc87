import IndexGraph.Proofs.Dominator.Frontier

/-
  The course of the search for dominators, on any graph that no edge leaves, whether or not its
  predecessors mirror its successors.
  `Moment` is the state between two visits and `Move` leads to the next one; `pass` and `settle` run
  through these moments (`exists_moment_of_pass`, `exists_moment_of_settle`). `Underway` is what
  holds at every moment: in the first pass the vertices visited so far are in the tree, later all
  are, and every change since the first pass has lowered the weight (`Underway.move`). The weight
  is at most that of a single row of vertices, and that bounds the passes.
-/

namespace IndexGraph.Dominator

open Function (update)

/-- The state between two visits. -/
structure Moment where
  /-- The pass under way; the first has number 1. -/
  pass : Nat
  /-- It has changed a dominator already. -/
  changed : Bool
  /-- The vertices that it has still to visit, the next one first. -/
  todo : List Int
  idoms : Idoms

section machine

variable (g : Network) (number : Array Int) (start : Int) (vs : List Int)

/-- From one moment to the next. -/
inductive Move : Moment → Moment → Prop
  | visit {k : Nat} {c here : Bool} {v : Int} {todo : List Int} {idoms idoms' : Idoms}
      (h : visit g number start idoms v = .ok (idoms', here)) :
      Move ⟨k, c, v :: todo, idoms⟩ ⟨k, c || here, todo, idoms'⟩
  | again (k : Nat) (idoms : Idoms) : Move ⟨k, true, [], idoms⟩ ⟨k + 1, false, vs, idoms⟩

/-- From one moment to a later one. -/
abbrev Comes : Moment → Moment → Prop := Relation.ReflTransGen (Move g number start vs)

/-- The visit that is next is refused. -/
def Moment.Refused (m : Moment) (e : Fault) : Prop :=
  ∃ v todo, m.todo = v :: todo ∧ visit g number start m.idoms v = .error e

/-- A pass runs through the vertices, or to a visit that is refused. -/
theorem exists_moment_of_pass (k : Nat) (c : Bool) (rest : List Int) (idoms : Idoms) :
    (∃ idoms' later, pass g number start rest idoms = .ok (idoms', later) ∧
        Comes g number start vs ⟨k, c, rest, idoms⟩ ⟨k, c || later, [], idoms'⟩) ∨
      ∃ e m, pass g number start rest idoms = .error e ∧
        Comes g number start vs ⟨k, c, rest, idoms⟩ m ∧ m.Refused g number start e := by
  induction rest generalizing c idoms with
  | nil => exact .inl ⟨idoms, false, rfl, by rw [Bool.or_false]⟩
  | cons v rest ih =>
    cases hvisit : visit g number start idoms v with
    | error e =>
      refine .inr ⟨e, _, ?_, .refl, v, rest, rfl, hvisit⟩
      simp only [pass, bind, Except.bind, hvisit]
    | ok visited =>
      obtain ⟨idoms₁, here⟩ := visited
      have hmove : Move g number start vs ⟨k, c, v :: rest, idoms⟩ ⟨k, c || here, rest, idoms₁⟩ :=
        .visit hvisit
      rcases ih (c || here) idoms₁ with ⟨idoms', later, hpass, hcomes⟩ | ⟨e, m, hpass, hcomes, hm⟩
      · refine .inl ⟨idoms', here || later, ?_, ?_⟩
        · simp only [pass, bind, Except.bind, hvisit, hpass]
          rfl
        · rw [← Bool.or_assoc]
          exact .head hmove hcomes
      · refine .inr ⟨e, m, ?_, .head hmove hcomes, hm⟩
        simp only [pass, bind, Except.bind, hvisit, hpass]

/-- The passes run to one that changes nothing, or to a visit that is refused, if the fuel lasts. -/
theorem exists_moment_of_settle (fuel k : Nat) (idoms : Idoms) :
    settle g number start vs fuel k idoms = .error .unsettled ∨
      (∃ idoms' passes, settle g number start vs fuel k idoms = .ok (idoms', passes) ∧
        Comes g number start vs ⟨k + 1, false, vs, idoms⟩ ⟨passes, false, [], idoms'⟩) ∨
      ∃ e m, settle g number start vs fuel k idoms = .error e ∧
        Comes g number start vs ⟨k + 1, false, vs, idoms⟩ m ∧ m.Refused g number start e := by
  induction fuel generalizing k idoms with
  | zero => exact .inl rfl
  | succ fuel ih =>
    rw [settle]
    rcases exists_moment_of_pass g number start vs (k + 1) false vs idoms with
      ⟨idoms₁, later, hpass, hcomes⟩ | ⟨e, m, hpass, hcomes, hm⟩
    · rw [hpass]
      cases later with
      | false => exact .inr (.inl ⟨idoms₁, k + 1, rfl, hcomes⟩)
      | true =>
        have hagain := hcomes.tail (.again (k + 1) idoms₁)
        rcases ih (k + 1) idoms₁ with
          hfuel | ⟨idoms', passes, hsettle, hcomes'⟩ | ⟨e, m, hsettle, hcomes', hm⟩
        · exact .inl hfuel
        · exact .inr (.inl ⟨idoms', passes, hsettle, hagain.trans hcomes'⟩)
        · exact .inr (.inr ⟨e, m, hsettle, hagain.trans hcomes', hm⟩)
    · rw [hpass]
      exact .inr (.inr ⟨e, m, rfl, hcomes, hm⟩)

variable {g number start vs} {fuel k passes : Nat} {idoms idoms' : Idoms} {e : Fault}

theorem comes_of_settle (h : settle g number start vs fuel k idoms = .ok (idoms', passes)) :
    Comes g number start vs ⟨k + 1, false, vs, idoms⟩ ⟨passes, false, [], idoms'⟩ := by
  rcases exists_moment_of_settle g number start vs fuel k idoms with
    herror | ⟨_, _, hok, hcomes⟩ | ⟨_, _, herror, _⟩
  · cases h.symm.trans herror
  · cases h.symm.trans hok
    exact hcomes
  · cases h.symm.trans herror

theorem exists_refused_of_settle (h : settle g number start vs fuel k idoms = .error e)
    (he : e ≠ .unsettled) :
    ∃ m, Comes g number start vs ⟨k + 1, false, vs, idoms⟩ m ∧ m.Refused g number start e := by
  rcases exists_moment_of_settle g number start vs fuel k idoms with
    herror | ⟨_, _, hok, _⟩ | ⟨_, m, herror, hcomes, hm⟩
  · cases h.symm.trans herror
    exact absurd rfl he
  · cases h.symm.trans hok
  · cases h.symm.trans herror
    exact ⟨m, hcomes, hm⟩

end machine

/-! ## What holds at every moment -/

section course

variable {g : Network} {number : Array Int} {start : Int} {vs : List Int} {n : Nat}

/-- After `pre` has been visited in the pass under way, the array holds the tree `up`. -/
structure Underway (g : Network) (start : Int) (vs : List Int) (n : Nat) (m : Moment)
    (pre : List Int) (up : Int → Option Int) : Prop where
  split : start :: vs = pre ++ m.todo
  pre_ne_nil : pre ≠ []
  stage : Stage g start vs n (fun _ => True) m.idoms up pre.length
    (if m.pass = 1 then pre else start :: vs)
  one_le : 1 ≤ m.pass
  vs_ne_nil : m.changed = true ∨ 2 ≤ m.pass → vs ≠ []
  weight_le : 2 ≤ m.pass →
    weight (depth start vs) vs up + (m.pass - 2) + m.changed.toNat ≤ triangle vs.length

/-- The vertices in the tree are among those that are visited. -/
theorem mem_of_seen {pre rest : List Int} (h : start :: vs = pre ++ rest) {k : Nat} :
    ∀ v ∈ (if k = 1 then pre else start :: vs), v ∈ start :: vs := by
  intro v hv
  split at hv
  · rw [h]
    exact List.mem_append_left _ hv
  · exact hv

theorem kept_true (g : Network) (start : Int) (vs : List Int) : Kept g start vs fun _ => True :=
  fun _ _ _ _ _ _ _ _ _ => trivial

namespace Underway

variable {m m' : Moment} {pre : List Int} {up : Int → Option Int}

/-- The next visit is refused, which happens in the first pass only, or it hangs a vertex into the
tree or moves one up its own way. -/
theorem visit_cases (hs : Setting g start vs number n) (h : Underway g start vs n m pre up)
    {v : Int} {todo : List Int} (htodo : m.todo = v :: todo) :
    (m.pass = 1 ∧ visit g number start m.idoms v = .error (.noPredecessor v start)) ∨
      ∃ d idoms', visit g number start m.idoms v = .ok (idoms', decide (up v ≠ some d)) ∧
        Stage g start vs n (fun _ => True) idoms' (update up v (some d)) (pre ++ [v]).length
          (if m.pass = 1 then pre ++ [v] else start :: vs) ∧
        (2 ≤ m.pass → up v ≠ none) ∧
        ∀ q, up v = some q → d ≠ q → depth start vs d < depth start vs q := by
  have hsplit := h.split
  rw [htodo] at hsplit
  have hstage := h.stage
  by_cases hpass : m.pass = 1
  · rw [if_pos hpass] at hstage ⊢
    rcases hstage.visit_first hs (kept_true g start vs) hsplit h.pre_ne_nil with
      ⟨_, hvisit⟩ | ⟨_, hup, d, idoms', _, hvisit, hstage'⟩
    · exact .inl ⟨hpass, hvisit⟩
    · have hchanged : decide (up v ≠ some d) = true := by simp [hup]
      refine .inr ⟨d, idoms', hchanged ▸ hvisit, hstage', fun _ => by omega, fun q hq => ?_⟩
      rw [hup] at hq
      cases hq
  · rw [if_neg hpass] at hstage ⊢
    obtain ⟨q, d, idoms', hq, _, _, hlt, hvisit, hstage'⟩ :=
      hstage.visit_later hs (kept_true g start vs) hsplit h.pre_ne_nil
    refine .inr ⟨d, idoms', hvisit, hstage', fun _ => ne_none_of_up hq, fun q' hq' => ?_⟩
    rw [hq, Option.some.injEq] at hq'
    rwa [← hq']

/-- A visit keeps it. -/
theorem visit (hs : Setting g start vs number n) {k : Nat} {c here : Bool} {v : Int}
    {todo : List Int} {idoms idoms' : Idoms}
    (h : Underway g start vs n ⟨k, c, v :: todo, idoms⟩ pre up)
    (hvisit : Dominator.visit g number start idoms v = .ok (idoms', here)) :
    ∃ up', Underway g start vs n ⟨k, c || here, todo, idoms'⟩ (pre ++ [v]) up' := by
  have hsplit : start :: vs = (pre ++ [v]) ++ todo := by
    rw [List.append_assoc]
    exact h.split
  obtain ⟨hv, _⟩ := hs.mem_vs h.split h.pre_ne_nil
  rcases h.visit_cases hs rfl with ⟨_, herror⟩ | ⟨d, idoms₁, hok, hstage, hlater, hrise⟩
  · cases hvisit.symm.trans herror
  · cases hvisit.symm.trans hok
    refine ⟨update up v (some d), hsplit, by simp, hstage, h.one_le,
      fun _ => List.ne_nil_of_mem hv, fun hk => ?_⟩
    obtain ⟨q, hq⟩ := Option.ne_none_iff_exists'.1 (hlater hk)
    have hweight : weight (depth start vs) vs up + (k - 2) + c.toNat ≤ triangle vs.length :=
      h.weight_le hk
    show weight (depth start vs) vs (update up v (some d)) + (k - 2) +
      (c || decide (up v ≠ some d)).toNat ≤ triangle vs.length
    by_cases hdq : d = q
    · subst hdq
      have hsame := weight_update_le vs hq (Nat.le_refl (depth start vs d))
      rw [decide_eq_false (not_not.2 hq), Bool.or_false]
      omega
    · have hless := weight_update_lt hv hq (hrise q hq hdq)
      have := Bool.toNat_le (c || decide (up v ≠ some d))
      omega

/-- The next pass keeps it. -/
theorem again (hs : Setting g start vs number n) {k : Nat} {idoms : Idoms}
    (h : Underway g start vs n ⟨k, true, [], idoms⟩ pre up) :
    Underway g start vs n ⟨k + 1, false, vs, idoms⟩ [start] up := by
  obtain rfl : start :: vs = pre := h.split.trans (List.append_nil pre)
  have hstage : Stage g start vs n (fun _ => True) idoms up (start :: vs).length
      (start :: vs) := by
    have := h.stage
    rwa [ite_self] at this
  have hone : 1 ≤ k := h.one_le
  refine ⟨rfl, List.cons_ne_nil _ _, ?_, Nat.le_add_left 1 k, fun _ => h.vs_ne_nil (.inl rfl),
    fun _ => ?_⟩
  · rw [if_neg (show k + 1 ≠ 1 by omega)]
    exact hstage.restart
  · show weight (depth start vs) vs up + (k + 1 - 2) + 0 ≤ triangle vs.length
    rcases Nat.eq_or_lt_of_le hone with rfl | hk
    · exact hstage.weight_le hs
    · have hweight : weight (depth start vs) vs up + (k - 2) + 1 ≤ triangle vs.length :=
        h.weight_le hk
      omega

theorem move (hs : Setting g start vs number n) (h : Underway g start vs n m pre up)
    (hm : Move g number start vs m m') : ∃ pre' up', Underway g start vs n m' pre' up' := by
  cases hm with
  | visit hvisit => exact ⟨_, h.visit hs hvisit⟩
  | again k idoms => exact ⟨_, _, h.again hs⟩

theorem comes (hs : Setting g start vs number n) (h : Underway g start vs n m pre up)
    (hm : Comes g number start vs m m') : ∃ pre' up', Underway g start vs n m' pre' up' := by
  induction hm with
  | refl => exact ⟨pre, up, h⟩
  | tail _ hmove ih =>
    obtain ⟨_, _, h'⟩ := ih
    exact h'.move hs hmove

end Underway

/-! ## What the moments have in common -/

/-- What is asked of every moment: the meets that the next visit asks for are found, only the first
pass is refused, and then for want of a predecessor, what has a dominator keeps it or gets one
with a larger number, and the passes are bounded. -/
structure Orderly (g : Network) (number : Array Int) (start : Int) (vs : List Int) (n : Nat)
    (m : Moment) : Prop where
  exists_meet : ∀ v todo before p after a d, m.todo = v :: todo →
    g.predecessors v = before ++ p :: after → meetAll m.idoms number none before = .ok (some a) →
    Position.read m.idoms p = .ok (some d) → ∃ b, meet m.idoms number a p = .ok b
  first_of_refused : ∀ e, m.Refused g number start e →
    m.pass = 1 ∧ ∃ v, e = .noPredecessor v start
  rises : ∀ m', Move g number start vs m m' → ∀ v q : Int, 0 ≤ v → v < n →
    Position.read m.idoms v = .ok (some q) → ∃ d, Position.read m'.idoms v = .ok (some d) ∧
      (d ≠ q → ∃ i j, Position.read number q = .ok i ∧ Position.read number d = .ok j ∧ i < j)
  pass_le : m.pass ≤ (start :: vs).length * ((start :: vs).length - 1) / 2 + 1

namespace Underway

variable {m m' : Moment} {pre : List Int} {up : Int → Option Int}

theorem exists_meet (hs : Setting g start vs number n) (h : Underway g start vs n m pre up)
    {v p a d : Int} {todo before after : List Int} (htodo : m.todo = v :: todo)
    (hsplit : g.predecessors v = before ++ p :: after)
    (hfound : meetAll m.idoms number none before = .ok (some a))
    (hp : Position.read m.idoms p = .ok (some d)) : ∃ b, meet m.idoms number a p = .ok b := by
  have hplace := h.split
  rw [htodo] at hplace
  obtain ⟨hv, _⟩ := hs.mem_vs hplace h.pre_ne_nil
  have hrange := hs.predecessors_in_range v hv
  rw [hsplit] at hrange
  have ht := h.stage.steady.rooted
  have hi := h.stage.table
  obtain ⟨hnumbers, hlow⟩ := h.stage.fits hs (mem_of_seen hplace)
  obtain ⟨found, hfound', hmet⟩ := meetAll_eq ht hi hnumbers hlow before [] none
    (fun _ hw => absurd hw List.not_mem_nil) fun w hw => hrange w (List.mem_append_left _ hw)
  rw [hfound, Except.ok.injEq] at hfound'
  subst hfound'
  have hmet : IsMeet up before a := hmet
  obtain ⟨hp0, hpn⟩ := hrange p (List.mem_append_right _ List.mem_cons_self)
  rw [hi.read_eq p hp0 hpn, Except.ok.injEq] at hp
  obtain ⟨b, hb, _⟩ := meet_eq ht hi hnumbers hlow hmet.ne_none (ne_none_of_up hp)
  exact ⟨b, hb⟩

theorem first_of_refused (hs : Setting g start vs number n)
    (h : Underway g start vs n m pre up) {e : Fault} (hm : m.Refused g number start e) :
    m.pass = 1 ∧ ∃ v, e = .noPredecessor v start := by
  obtain ⟨v, todo, htodo, herror⟩ := hm
  rcases h.visit_cases hs htodo with ⟨hpass, herror'⟩ | ⟨_, _, hok, _⟩
  · cases herror.symm.trans herror'
    exact ⟨hpass, v, rfl⟩
  · cases herror.symm.trans hok

/-- The number of a vertex grows as its depth falls. -/
theorem number_lt (hs : Setting g start vs number n) {q d : Int} (hq : q ∈ start :: vs)
    (hd : d ∈ start :: vs) (hlt : depth start vs d < depth start vs q) :
    ∃ i j, Position.read number q = .ok i ∧ Position.read number d = .ok j ∧ i < j :=
  ⟨_, _, hs.read_number q hq, hs.read_number d hd, by omega⟩

theorem rises (hs : Setting g start vs number n) (h : Underway g start vs n m pre up)
    (hm : Move g number start vs m m') {w q : Int} (h0 : 0 ≤ w) (hn : w < n)
    (hw : Position.read m.idoms w = .ok (some q)) :
    ∃ d, Position.read m'.idoms w = .ok (some d) ∧
      (d ≠ q → ∃ i j, Position.read number q = .ok i ∧ Position.read number d = .ok j ∧
        i < j) := by
  have hread := h.stage.table.read_eq w h0 hn
  rw [hw, Except.ok.injEq] at hread
  cases hm with
  | again => exact ⟨q, hw, fun hne => absurd rfl hne⟩
  | @visit k c here v todo idoms idoms' hvisit =>
    rcases h.visit_cases hs rfl with ⟨_, herror⟩ | ⟨d, idoms₁, hok, hstage, _, hrise⟩
    · cases hvisit.symm.trans herror
    · cases hvisit.symm.trans hok
      have hread' := hstage.table.read_eq w h0 hn
      by_cases hwv : w = v
      · subst hwv
        rw [Function.update_self] at hread'
        have hq : q ∈ start :: vs := mem_of_seen h.split _
          ((h.stage.mem_iff q).1 (h.stage.steady.rooted.closed w q hread.symm))
        have hsplit : start :: vs = (pre ++ [w]) ++ todo := by
          rw [List.append_assoc]
          exact h.split
        have hd : d ∈ start :: vs := mem_of_seen hsplit _
          ((hstage.mem_iff d).1 (hstage.steady.rooted.closed w d (Function.update_self ..)))
        exact ⟨d, hread', fun hne => number_lt hs hq hd (hrise q hread.symm hne)⟩
      · rw [Function.update_of_ne hwv, ← hread] at hread'
        exact ⟨q, hread', fun hne => absurd rfl hne⟩

theorem pass_le (h : Underway g start vs n m pre up) :
    m.pass ≤ (start :: vs).length * ((start :: vs).length - 1) / 2 + 1 := by
  rw [← triangle_eq, List.length_cons, triangle_succ]
  rcases Nat.lt_or_ge m.pass 2 with hk | hk
  · omega
  · have hweight := h.weight_le hk
    have hpos := List.length_pos_iff.2 (h.vs_ne_nil (.inr hk))
    omega

theorem orderly (hs : Setting g start vs number n) (h : Underway g start vs n m pre up) :
    Orderly g number start vs n m :=
  ⟨fun _ _ _ _ _ _ _ => h.exists_meet hs, fun _ => h.first_of_refused hs,
    fun _ hm _ _ => h.rises hs hm, h.pass_le⟩

end Underway

end course

/-! ## The call -/

variable {g : Network} {start : Int} {vs : List Int} {n : Nat} {up : Int → Option Int}
  {idoms : Idoms}

/-- From every predecessor of a vertex the way up comes to the vertex above that vertex, if both
are in the tree. -/
def WaysEnd (g : Network) (n : Nat) (idoms : Idoms) : Prop :=
  ∀ v : Nat, v < n → ∀ top p d, Position.read idoms v = .ok (some top) → p ∈ g.predecessors v →
    Position.read idoms p = .ok (some d) → ∀ lists : Array (List Nat), lists.size = n →
      ∃ lists', spread idoms top v (idoms.size + 2) p lists = .ok lists'

/-- In a settled tree the vertex above `v` is on the ways up from the predecessors of `v`. -/
theorem Settled.predecessors (h : Settled g vs up) (hg : g.Enclosed n) {t : Nat}
    {keep : (Int → Option Int) → Prop}
    (hstage : Stage g start vs n keep idoms up t (start :: vs)) (v top : Int)
    (htop : up v = some top) (p : Int) (hp : p ∈ g.predecessors v) :
    (0 ≤ p ∧ p < n) ∧ (up p ≠ none → OnWay up p top) := by
  have hv := ne_none_of_up htop
  obtain ⟨hv0, hvn⟩ := hstage.table.in_range v hv
  refine ⟨hg.predecessors_in_range v hv0 hvn p hp, fun hup => ?_⟩
  rcases List.mem_cons.1 ((hstage.mem_iff v).1 hv) with rfl | hv
  · rw [hstage.steady.rooted.root_up] at htop
    cases htop
    exact hstage.steady.rooted.onWay_root hup
  · obtain ⟨m, hm, hmeet⟩ := h v hv
    rw [htop, Option.some.injEq] at hm
    rw [hm]
    exact hmeet.onWay hp hup

theorem waysEnd_of_rooted {height : Int → Nat} {root : Int} (ht : Rooted up height root)
    (hi : Table idoms n up) (hlow : ∀ v, up v ≠ none → height v < n)
    (hps : ∀ v top, up v = some top → ∀ p ∈ g.predecessors v, (0 ≤ p ∧ p < n) ∧
      (up p ≠ none → OnWay up p top)) : WaysEnd g n idoms := by
  intro v hv top p d htop hp hd lists hlists
  rw [hi.read_eq v (Int.natCast_nonneg v) (by omega), Except.ok.injEq] at htop
  obtain ⟨⟨hp0, hpn⟩, hway⟩ := hps v top htop p hp
  rw [hi.read_eq p hp0 hpn, Except.ok.injEq] at hd
  have hup := ne_none_of_up hd
  have hheight := hlow p hup
  obtain ⟨lists', hspread, _⟩ := spread_eq ht hi top v (idoms.size + 2) p lists hlists hup
    (by rw [hi.size_eq]; omega) (hway hup)
  exact ⟨lists', hspread⟩

/-- On every graph that no edge leaves the search for the dominators from a vertex of it ends: it is
refused in the first pass, for want of a predecessor, or it answers after at most
`r * (r - 1) / 2 + 1` passes, where `r` vertices are reached. On the way every moment is `Orderly`.
After an answer the ways up that the frontiers follow end too. If there is no room for a table, the
call is refused. -/
theorem immediateDominators_settles (g : Network) (n : Nat) (start : Int) (hg : g.Enclosed n)
    (h0 : 0 ≤ start) (hn : start < n) :
    if n < Length.room then
      ∃ vs number idoms₀, Prepared g start n vs number idoms₀ ∧
        (∀ m, Comes g number start vs ⟨1, false, vs, idoms₀⟩ m →
          Orderly g number start vs n m) ∧
        ((∃ m v, Comes g number start vs ⟨1, false, vs, idoms₀⟩ m ∧ m.pass = 1 ∧
            m.Refused g number start (.noPredecessor v start) ∧
            g.immediateDominators start = .fail (.noPredecessor v start) ()) ∨
          ∃ idoms passes,
            Comes g number start vs ⟨1, false, vs, idoms₀⟩ ⟨passes, false, [], idoms⟩ ∧
            passes ≤ (start :: vs).length * ((start :: vs).length - 1) / 2 + 1 ∧
            g.immediateDominators start = (Reply.done idoms ()).after (.settled start passes) ∧
            WaysEnd g n idoms ∧ ∃ table, (g.dominanceFrontiers start).result = .ok table)
    else ∃ k, g.immediateDominators start = .fail (Length.refusal k) () := by
  have hconfined := confined_of_enclosed hg h0 hn
  split
  case isFalse hroom =>
    obtain ⟨k, hk⟩ := hconfined.exists_solve_eq_refusal hroom
    refine ⟨k, ?_⟩
    rw [Network.immediateDominators, hk]
  case isTrue hroom =>
    obtain ⟨vs, number, idoms₀, found, horder, hprepared, hs, hstage⟩ :=
      @Confined.exists_prepared g start n (fun _ => True) hconfined hroom trivial
    have hunderway : Underway g start vs n ⟨1, false, vs, idoms₀⟩ [start] _ :=
      ⟨rfl, List.cons_ne_nil _ _, hstage, Nat.le_refl 1, by simp, by simp⟩
    have horderly : ∀ m, Comes g number start vs ⟨1, false, vs, idoms₀⟩ m →
        Orderly g number start vs n m := by
      intro m hm
      obtain ⟨_, _, h⟩ := hunderway.comes hs hm
      exact h.orderly hs
    have hsolve := hprepared.solve_eq_settle hconfined hroom
    refine ⟨vs, number, idoms₀, hprepared, horderly, ?_⟩
    rcases settle_eq hs (kept_true g start vs) (triangle_add_one_lt_passBound hs.length_lt)
      hstage with ⟨_, v, _, _, _, _, hsettle⟩ | ⟨_, idoms, up, passes, hsettle, hstage', hsettled⟩
    · obtain ⟨m, hcomes, hrefused⟩ := exists_refused_of_settle hsettle (by simp)
      have hfirst := ((horderly m hcomes).first_of_refused _ hrefused).1
      refine .inl ⟨m, v, hcomes, hfirst, hrefused, ?_⟩
      rw [Network.immediateDominators, hsolve, hsettle]
    · have hcomes := comes_of_settle hsettle
      have ht := hstage'.steady.rooted
      have hlow := (hstage'.fits hs fun _ hv => hv).2
      have hps := hsettled.predecessors hg hstage'
      obtain ⟨table, htable, _⟩ :=
        exists_gains_of_solve (hsolve.trans hsettle) ht hstage'.table hlow hps
      refine .inr ⟨idoms, passes, hcomes, (horderly _ hcomes).pass_le, ?_,
        waysEnd_of_rooted ht hstage'.table hlow hps, table, htable⟩
      rw [Network.immediateDominators, hsolve, hsettle]

/-- Vertex 3 counts as a predecessor of 2, although no edge leads there. In the first pass 3 comes
below 2, in the second it is moved up to 0, and the third changes nothing. -/
theorem immediateDominators_settles_mismatch :
    let g := Network.ofTables 4 5 #[[1, 2], [3], [3], [1]] #[[], [0, 3], [0, 3], [1, 2]] #[]
    let idoms : Idoms := #[some 0, some 0, some 0, some 0]
    g.Enclosed 4 ∧ ¬ g.Consistent 4 ∧
      g.immediateDominators 0 = (Reply.done idoms ()).after (.settled 0 3) ∧ WaysEnd g 4 idoms := by
  intro g idoms
  have hg : g.Enclosed 4 := Network.enclosed_of_fin rfl (by decide) (by decide)
  have hnot : ¬ g.Consistent 4 := fun hc => absurd
    ((hc.mem_iff 3 2 (by decide) (by decide) (by decide) (by decide)).2 (by decide)) (by decide)
  have hresult : (g.immediateDominators 0).result = .ok idoms := by decide +kernel
  have hnotices : (g.immediateDominators 0).notices = [.settled 0 3] := by decide +kernel
  have hsettles := immediateDominators_settles g 4 0 hg (by decide) (by decide)
  rw [if_pos (by decide)] at hsettles
  obtain ⟨vs, number, idoms₀, _, _, hends⟩ := hsettles
  rcases hends with ⟨m, v, _, _, _, hfail⟩ | ⟨idoms', passes, _, _, hdone, hways, _⟩
  · rw [hfail] at hresult
    cases hresult
  · rw [hdone] at hresult hnotices
    cases hresult
    cases hnotices
    exact ⟨hg, hnot, hdone, hways⟩

/-- Without any edge a graph of `2 ^ 63` vertices is enclosed, but the call neither answers nor
finds a predecessor missing. -/
theorem immediateDominators_neither :
    let g := Network.ofTables 9223372036854775808 0 #[] #[] #[]
    g.Enclosed 9223372036854775808 ∧ g.immediateDominators 0 = .fail .lengthRange () ∧
      (∀ idoms, (g.immediateDominators 0).result ≠ .ok idoms) ∧
      ∀ v, (g.immediateDominators 0).result ≠ .error (.noPredecessor v 0) := by
  intro g
  have hcall : g.immediateDominators 0 = .fail .lengthRange () := rfl
  refine ⟨(Network.consistent_ofTables_empty _ _ _).enclosed, hcall, fun idoms h => ?_,
    fun v h => ?_⟩
  · rw [hcall] at h
    cases h
  · rw [hcall] at h
    cases h

end IndexGraph.Dominator
