import IndexGraph.Proofs.Heap
import IndexGraph.Proofs.ShortestPath

/-
  The course of the search for least distances where no cost is negative.
  `Moment` is the state between two steps and `Move` leads to the next one: an entry is taken from
  the queue, or an edge of the vertex of the last entry is tried. The search runs through these
  moments (`comes_of_run`).
  `Rising costs n b D m` holds at every moment: the entry taken last has the cost `b` and all that
  wait cost as much or more, as the queue gives up its least entry and an edge never lowers the
  cost; and an entry costs no less than the label of its vertex, and no two are the same, as an
  entry is only made when it lowers that label. So what costs are taken can only rise. When a
  current entry is taken, the label of its vertex is `Final`: it is no larger than `b` and no
  entry carries it any more, so no edge lowers it and no entry of the vertex will be current again.
-/

namespace IndexGraph.ShortestPath

open Function (update)

variable {g : Network} {costs : Option (Array (Option Weight))} {start v w b c d : Int} {n : Nat}
  {D : Int → Option Int} {base : Cost} {s s' : Search} {e e' : Entry}

/-! ## The order of the entries -/

/-- The entry has a whole cost. -/
def Entry.IsWhole (e : Entry) : Prop := ∃ c, e.cost = .whole c

theorem before_whole_iff (b c v w : Int) :
    (⟨.whole b, v⟩ : Entry).before ⟨.whole c, w⟩ = true ↔ b < c ∨ b = c ∧ v < w := by
  simp [Entry.before, Cost.lt_whole, Cost.same_whole]

theorem not_before_whole_iff (b c v w : Int) :
    (⟨.whole b, v⟩ : Entry).before ⟨.whole c, w⟩ = false ↔ c < b ∨ b = c ∧ w ≤ v := by
  rw [← Bool.not_eq_true, before_whole_iff]
  omega

theorem orders_whole : Heap.Orders Entry.before Entry.IsWhole := by
  constructor
  · rintro ⟨_, v⟩ ⟨_, w⟩ ⟨b, rfl⟩ ⟨c, rfl⟩ h
    rw [before_whole_iff] at h
    rw [not_before_whole_iff]
    omega
  · rintro ⟨_, v⟩ ⟨_, w⟩ ⟨_, x⟩ ⟨b, rfl⟩ ⟨c, rfl⟩ ⟨d, rfl⟩ h h'
    rw [not_before_whole_iff] at h h' ⊢
    omega

/-! ## Moments -/

/-- The state between two steps. -/
structure Moment where
  /-- The cost of the entry that was taken last. -/
  base : Cost
  /-- The edges of its vertex that are still to be tried, the next one first. -/
  todo : List (Int × Option Weight)
  search : Search

/-- The entry that is taken in the next step, if the step takes one. -/
def Moment.next (m : Moment) : Option Entry :=
  match m.todo with
  | [] => (m.search.queue.take? Entry.before).map Prod.fst
  | _ :: _ => none

/-- In the next step `e` is taken and found current. -/
structure Moment.Passes (m : Moment) (e : Entry) : Prop where
  next_eq : m.next = some e
  current : ∃ label, Position.read m.search.distance e.vertex = .ok label ∧ e.current label = true

section machine

variable (g costs)

/-- From one moment to the next. -/
inductive Move : Moment → Moment → Prop
  | take {base : Cost} {s : Search} {e : Entry} {queue : Heap Entry} {label : Option Cost}
      (htake : s.queue.take? Entry.before = some (e, queue))
      (hread : Position.read s.distance e.vertex = .ok label) :
      Move ⟨base, [], s⟩
        ⟨e.cost, if e.current label then g.arcsFrom e.vertex else [], ⟨s.distance, queue⟩⟩
  | edge {base : Cost} {s s' : Search} {v : Int} {carried : Option Weight}
      {todo : List (Int × Option Weight)} (h : relax costs base s v carried = .ok s') :
      Move ⟨base, (v, carried) :: todo, s⟩ ⟨base, todo, s'⟩

/-- From one moment to a later one. -/
abbrev Comes : Moment → Moment → Prop := Relation.ReflTransGen (Move g costs)

theorem comes_of_relaxAll (base : Cost) (edges : List (Int × Option Weight)) :
    ∀ s s', relaxAll costs base edges s = .ok s' →
      Comes g costs ⟨base, edges, s⟩ ⟨base, [], s'⟩ := by
  induction edges with
  | nil =>
    intro s s' h
    cases h
    exact .refl
  | cons a edges ih =>
    intro s s' h
    obtain ⟨s₁, hrelax, h⟩ := bind_eq_ok_iff.1 h
    exact .head (.edge hrelax) (ih s₁ s' h)

theorem comes_of_settle (base : Cost) {queue : Heap Entry}
    (htake : s.queue.take? Entry.before = some (e, queue))
    (h : settle g costs e ⟨s.distance, queue⟩ = .ok s') :
    Comes g costs ⟨base, [], s⟩ ⟨e.cost, [], s'⟩ := by
  obtain ⟨label, hread, h⟩ := bind_eq_ok_iff.1 h
  refine .head (.take htake hread) ?_
  split at h
  · rename_i hcurrent
    rw [if_pos hcurrent]
    exact comes_of_relaxAll g costs _ _ _ _ h
  · rename_i hcurrent
    rw [if_neg hcurrent]
    cases h
    exact .refl

theorem comes_of_takeSome (k : Nat) :
    ∀ base s s', takeSome g costs k s = .ok s' →
      ∃ base', Comes g costs ⟨base, [], s⟩ ⟨base', [], s'⟩ := by
  induction k with
  | zero =>
    intro base s s' h
    cases h
    exact ⟨base, .refl⟩
  | succ k ih =>
    intro base s s' h
    unfold takeSome at h
    split at h
    · cases h
      exact ⟨base, .refl⟩
    · rename_i e queue htake
      obtain ⟨s₁, hsettle, h⟩ := bind_eq_ok_iff.1 h
      obtain ⟨base', hrest⟩ := ih e.cost s₁ s' h
      exact ⟨base', (comes_of_settle g costs base htake hsettle).trans hrest⟩

/-- The run goes through the moments, to one with an empty queue. -/
theorem comes_of_run (k rounds : Nat) :
    ∀ base s s', run g costs k rounds s = .ok s' →
      (∃ base', Comes g costs ⟨base, [], s⟩ ⟨base', [], s'⟩) ∧ s'.queue.toList = [] := by
  induction rounds with
  | zero =>
    intro base s s' h
    unfold run at h
    split at h
    · rename_i hempty
      cases h
      exact ⟨⟨base, .refl⟩, (isEmpty_iff _).1 hempty⟩
    · cases h
  | succ rounds ih =>
    intro base s s' h
    unfold run at h
    split at h
    · rename_i hempty
      cases h
      exact ⟨⟨base, .refl⟩, (isEmpty_iff _).1 hempty⟩
    · obtain ⟨s₁, htake, h⟩ := bind_eq_ok_iff.1 h
      obtain ⟨base₁, hfirst⟩ := comes_of_takeSome g costs k base s s₁ htake
      obtain ⟨⟨base', hrest⟩, hempty⟩ := ih base₁ s₁ s' h
      exact ⟨⟨base', hfirst.trans hrest⟩, hempty⟩

end machine

/-! ## What holds at every moment -/

/-- The edge ends below `n`, and its cost is whole and not negative. -/
def Fair (costs : Option (Array (Option Weight))) (n : Nat) (a : Int × Option Weight) : Prop :=
  (0 ≤ a.1 ∧ a.1 < n) ∧
    ∃ w, (edgeCost costs a.2).bind Cost.ofWeight = .ok (.whole w) ∧ 0 ≤ w

/-- The edges that leave the vertices below `n` are fair. -/
def FairlyPriced (g : Network) (costs : Option (Array (Option Weight))) (n : Nat) : Prop :=
  ∀ u : Int, 0 ≤ u → u < n → ∀ a ∈ g.arcsFrom u, Fair costs n a

/-- The entry costs `b` or more, and no less than the label of its vertex. -/
def Waiting (n : Nat) (b : Int) (D : Int → Option Int) (e : Entry) : Prop :=
  (0 ≤ e.vertex ∧ e.vertex < n) ∧ ∃ c d, e.cost = .whole c ∧ D e.vertex = some d ∧ d ≤ c ∧ b ≤ c

/-- The invariant of the search: `b` is the cost of the last entry and `D` are the labels. -/
structure Rising (costs : Option (Array (Option Weight))) (n : Nat) (b : Int)
    (D : Int → Option Int) (m : Moment) : Prop where
  base_eq : m.base = .whole b
  reads : Position.Reads m.search.distance n fun v => (D v).map .whole
  ordered : m.search.queue.Ordered Entry.before
  nodup : m.search.queue.toList.Nodup
  waiting : ∀ e ∈ m.search.queue.toList, Waiting n b D e
  fair : ∀ a ∈ m.todo, Fair costs n a

/-- The label `d` of `v` is no larger than the cost of the last entry, and no entry carries it. -/
structure Final (b : Int) (D : Int → Option Int) (m : Moment) (v d : Int) : Prop where
  label : D v = some d
  le : d ≤ b
  not_mem : ⟨.whole d, v⟩ ∉ m.search.queue.toList

theorem Waiting.isWhole (h : Waiting n b D e) : e.IsWhole := by
  obtain ⟨_, c, _, hc, _⟩ := h
  exact ⟨c, hc⟩

namespace Rising

variable {m m' : Moment}

/-- An entry is taken. All others cost as much or more. -/
theorem take (hfair : FairlyPriced g costs n) (h : Rising costs n b D ⟨base, [], s⟩)
    {queue : Heap Entry} {label : Option Cost}
    (htake : s.queue.take? Entry.before = some (e, queue))
    (hread : Position.read s.distance e.vertex = .ok label) :
    let m' : Moment :=
      ⟨e.cost, if e.current label then g.arcsFrom e.vertex else [], ⟨s.distance, queue⟩⟩
    ∃ c, e.cost = .whole c ∧ b ≤ c ∧ Rising costs n c D m' ∧
      (∀ v d, Final b D ⟨base, [], s⟩ v d → Final c D m' v d) ∧
      (e.current label = true → Final c D m' e.vertex c) := by
  have hperm := Heap.perm_of_take? htake
  have hmem : ∀ x ∈ queue.toList, x ∈ s.queue.toList := fun x hx =>
    hperm.mem_iff.2 (List.mem_cons_of_mem e hx)
  obtain ⟨hrange, c, d, hc, hd, hdc, hbc⟩ := h.waiting e (hperm.mem_iff.2 List.mem_cons_self)
  obtain ⟨hnot, hnodup⟩ := List.nodup_cons.1 (hperm.nodup_iff.1 h.nodup)
  obtain ⟨hfirst, hordered⟩ :=
    h.ordered.of_take? orders_whole (fun x hx => (h.waiting x hx).isWhole) htake
  obtain ⟨cost, v⟩ := e
  obtain rfl : cost = .whole c := hc
  refine ⟨c, rfl, hbc, ⟨rfl, h.reads, hordered, hnodup, fun x hx => ?_, fun a ha => ?_⟩,
    fun x d hx => ⟨hx.label, hx.le.trans hbc, fun hmem' => hx.not_mem (hmem _ hmem')⟩,
    fun hcurrent => ?_⟩
  · obtain ⟨hrange', c', d', hc', hd', hdc', _⟩ := h.waiting x (hmem x hx)
    have hbefore := hfirst x hx
    obtain ⟨cost', x⟩ := x
    obtain rfl : cost' = .whole c' := hc'
    rw [not_before_whole_iff] at hbefore
    exact ⟨hrange', c', d', rfl, hd', hdc', by omega⟩
  · by_cases hcurrent : (⟨.whole c, v⟩ : Entry).current label = true
    · rw [if_pos hcurrent] at ha
      exact hfair v hrange.1 hrange.2 a ha
    · rw [if_neg hcurrent] at ha
      exact absurd ha List.not_mem_nil
  · have hlabel : label = (D v).map .whole := by
      rw [h.reads.read_eq v hrange.1 hrange.2] at hread
      exact (Except.ok.inj hread).symm
    rw [hlabel, current_whole_iff] at hcurrent
    exact ⟨hcurrent, le_refl c, hnot⟩

/-- An edge is tried. If that lowers a label, the label was larger than the cost of the last entry,
so it was not final. -/
theorem edge {carried : Option Weight} {todo : List (Int × Option Weight)}
    (h : Rising costs n b D ⟨base, (v, carried) :: todo, s⟩)
    (hrelax : relax costs base s v carried = .ok s') :
    ∃ D', Rising costs n b D' ⟨base, todo, s'⟩ ∧
      ∀ x d, Final b D ⟨base, (v, carried) :: todo, s⟩ x d → Final b D' ⟨base, todo, s'⟩ x d := by
  obtain ⟨⟨⟨h0, hn⟩, w, hw, hwpos⟩, htodo⟩ := List.forall_mem_cons.1 h.fair
  have hbase : base = .whole b := h.base_eq
  subst hbase
  rw [relax_eq_lower hw] at hrelax
  rcases lower_cases h.reads h0 hn (b + w) with
    ⟨distance, hlt, hlower, hreads⟩ | ⟨_, hlower⟩
  · cases hlower.symm.trans hrelax
    have hperm := Heap.toList_insert_perm Entry.before ⟨.whole (b + w), v⟩ s.queue
    refine ⟨update D v (some (b + w)), ⟨rfl, hreads, ?_, ?_, fun e he => ?_, htodo⟩,
      fun x d hx => ?_⟩
    · exact h.ordered.insert orders_whole ⟨_, rfl⟩ fun e he => (h.waiting e he).isWhole
    · -- an entry of `v` that was there costs no less than the label, and that was larger
      refine hperm.nodup_iff.2 (List.nodup_cons.2 ⟨fun hmem => ?_, h.nodup⟩)
      obtain ⟨_, c, d, hc, hd, hdc, _⟩ := h.waiting _ hmem
      cases hc
      have := hlt d hd
      omega
    · rcases List.mem_cons.1 (hperm.mem_iff.1 he) with rfl | he
      · exact ⟨⟨h0, hn⟩, b + w, b + w, rfl, Function.update_self .., le_refl _, by omega⟩
      · obtain ⟨hrange, c, d, hc, hd, hdc, hbc⟩ := h.waiting e he
        by_cases hev : e.vertex = v
        · have hless := hlt d (hev ▸ hd)
          refine ⟨hrange, c, b + w, hc, ?_, by omega, hbc⟩
          rw [hev, Function.update_self]
        · refine ⟨hrange, c, d, hc, ?_, hdc, hbc⟩
          rw [Function.update_of_ne hev, hd]
    · have hxv : x ≠ v := by
        intro heq
        subst heq
        have hless := hlt d hx.label
        have hle := hx.le
        omega
      refine ⟨?_, hx.le, fun hmem => ?_⟩
      · rw [Function.update_of_ne hxv, hx.label]
      · rcases List.mem_cons.1 (hperm.mem_iff.1 hmem) with heq | hmem
        · cases heq
          exact hxv rfl
        · exact hx.not_mem hmem
  · cases hlower.symm.trans hrelax
    exact ⟨D, ⟨rfl, h.reads, h.ordered, h.nodup, h.waiting, htodo⟩, fun x d hx =>
      ⟨hx.label, hx.le, hx.not_mem⟩⟩

theorem move (hfair : FairlyPriced g costs n) (h : Rising costs n b D m)
    (hm : Move g costs m m') : ∃ b' D', b ≤ b' ∧ Rising costs n b' D' m' ∧
      ∀ v d, Final b D m v d → Final b' D' m' v d := by
  cases hm with
  | take htake hread =>
    obtain ⟨c, _, hbc, hrising, hfinal, _⟩ := h.take hfair htake hread
    exact ⟨c, D, hbc, hrising, hfinal⟩
  | edge hrelax =>
    obtain ⟨D', hrising, hfinal⟩ := h.edge hrelax
    exact ⟨b, D', le_refl b, hrising, hfinal⟩

/-- From moment to moment the cost of the last entry rises, and what is final stays so. -/
theorem comes (hfair : FairlyPriced g costs n) (h : Rising costs n b D m)
    (hm : Comes g costs m m') : ∃ b' D', b ≤ b' ∧ Rising costs n b' D' m' ∧
      ∀ v d, Final b D m v d → Final b' D' m' v d := by
  induction hm with
  | refl => exact ⟨b, D, le_refl b, h, fun _ _ hv => hv⟩
  | tail _ hmove ih =>
    obtain ⟨b₁, D₁, hle₁, h₁, hfinal₁⟩ := ih
    obtain ⟨b₂, D₂, hle₂, h₂, hfinal₂⟩ := h₁.move hfair hmove
    exact ⟨b₂, D₂, hle₁.trans hle₂, h₂, fun v d hv => hfinal₂ v d (hfinal₁ v d hv)⟩

/-- The entry that is taken next is one of those that wait. -/
theorem waiting_of_next (h : Rising costs n b D m) (hnext : m.next = some e) :
    e ∈ m.search.queue.toList ∧ Waiting n b D e := by
  obtain ⟨base, todo, s⟩ := m
  cases todo with
  | nil =>
    obtain ⟨⟨e', rest⟩, htake, rfl⟩ := Option.map_eq_some_iff.1 hnext
    have hmem := (Heap.perm_of_take? htake).mem_iff.2 List.mem_cons_self
    exact ⟨hmem, h.waiting _ hmem⟩
  | cons => cases hnext

/-- A current entry carries the label of its vertex. -/
theorem label_of_passes (h : Rising costs n b D m) (hpasses : m.Passes e)
    (hc : e.cost = .whole c) : D e.vertex = some c := by
  obtain ⟨label, hread, hcurrent⟩ := hpasses.current
  obtain ⟨_, ⟨h0, hn⟩, _⟩ := h.waiting_of_next hpasses.next_eq
  rw [h.reads.read_eq _ h0 hn, Except.ok.injEq] at hread
  obtain ⟨cost, v⟩ := e
  obtain rfl : cost = .whole c := hc
  rwa [← hread, current_whole_iff] at hcurrent

/-- After the next entry is taken, it is the last one, and if it is current its label is final. -/
theorem of_next (hfair : FairlyPriced g costs n) (h : Rising costs n b D m)
    (hnext : m.next = some e) (hm : Move g costs m m') :
    ∃ c, e.cost = .whole c ∧ Rising costs n c D m' ∧
      (m.Passes e → Final c D m' e.vertex c) := by
  cases hm with
  | edge => cases hnext
  | @take _ s e' queue label htake hread =>
    obtain rfl : e' = e := by
      simpa [Moment.next, htake] using hnext
    obtain ⟨c, hc, _, hrising, _, hfinal⟩ := h.take hfair htake hread
    refine ⟨c, hc, hrising, fun hpasses => hfinal ?_⟩
    obtain ⟨label', hread', hcurrent⟩ := hpasses.current
    cases hread.symm.trans hread'
    exact hcurrent

end Rising

/-! ## The run -/

theorem FairlyPriced.priced (hfair : FairlyPriced g costs n) : Priced g costs n := by
  intro u h0 hn a ha
  obtain ⟨hrange, w, hw, _⟩ := hfair u h0 hn a ha
  exact ⟨hrange, w, hw⟩

/-- Ways from a vertex below `n` end below `n` and cost nothing or more. -/
theorem FairlyPriced.way (hfair : FairlyPriced g costs n) {u : Int} (h0 : 0 ≤ u) (hn : u < n)
    {as : List (Int × Int × Int)} (h : Way (Arc g costs) u as v c) :
    (0 ≤ v ∧ v < n) ∧ 0 ≤ c := by
  induction h with
  | start => exact ⟨⟨h0, hn⟩, le_refl 0⟩
  | step _ ha ih =>
    obtain ⟨carried, hmem, hw⟩ := ha
    obtain ⟨hrange, w', hw', hpos⟩ := hfair _ ih.1.1 ih.1.2 _ hmem
    cases hw.symm.trans hw'
    exact ⟨hrange, Int.add_nonneg ih.2 hpos⟩

theorem FairlyPriced.noNegativeCycle (hfair : FairlyPriced g costs n) (h0 : 0 ≤ start)
    (hn : start < n) : NoNegativeCycle (Arc g costs) start := by
  intro v c d hreach hcycle
  obtain ⟨as, has⟩ := hreach
  obtain ⟨bs, hbs⟩ := hcycle
  obtain ⟨hv0, hvn⟩ := (hfair.way h0 hn has).1
  exact (hfair.way hv0 hvn hbs).2

/-- Before the first step the start has the label 0, and the only entry. -/
theorem rising_startAt (g : Network) (costs : Option (Array (Option Weight))) (h0 : 0 ≤ start)
    (hn : start < n) {distance : Array (Option Cost)}
    (hwrite : Position.write (Array.replicate n none) start (some (.whole 0)) = .ok distance) :
    Rising costs n 0 (update (fun _ => none) start (some 0))
      ⟨.whole 0, [], Search.startAt start distance⟩ := by
  have hperm : (Search.startAt start distance).queue.toList.Perm [⟨.whole 0, start⟩] :=
    Heap.toList_insert_perm Entry.before ⟨.whole 0, start⟩ Heap.empty
  have hholds : Holds g costs start n none {[]} (update (fun _ => none) start (some 0))
      (Search.startAt start distance) := holds_startAt h0 hn hwrite
  refine ⟨rfl, hholds.reads, ?_, ?_, fun e he => ?_, fun a ha => absurd ha List.not_mem_nil⟩
  · exact (Heap.Ordered.empty _).insert orders_whole ⟨0, rfl⟩ fun e he => absurd he List.not_mem_nil
  · exact hperm.nodup_iff.2 (List.nodup_singleton _)
  · rw [List.mem_singleton.1 (hperm.mem_iff.1 he)]
    exact ⟨⟨h0, hn⟩, 0, 0, rfl, Function.update_self .., le_refl 0, le_refl 0⟩

/-- Whenever an entry is taken, no entry taken later costs less; and if it is found current, then no
later entry of the same vertex is, and the distance of the vertex stays as it is. -/
structure SettlesOnce (g : Network) (costs : Option (Array (Option Weight))) (m₀ : Moment) :
    Prop where
  cost_le : ∀ m m₁ m₂ e e', Comes g costs m₀ m → m.next = some e → Move g costs m m₁ →
    Comes g costs m₁ m₂ → m₂.next = some e' →
    ∃ c c', e.cost = .whole c ∧ e'.cost = .whole c' ∧ c ≤ c'
  vertex_ne : ∀ m m₁ m₂ e e', Comes g costs m₀ m → m.Passes e → Move g costs m m₁ →
    Comes g costs m₁ m₂ → m₂.Passes e' → e'.vertex ≠ e.vertex
  read_eq : ∀ m m₂ e, Comes g costs m₀ m → m.Passes e → Comes g costs m m₂ →
    Position.read m₂.search.distance e.vertex = Position.read m.search.distance e.vertex

theorem Rising.settlesOnce {m₀ : Moment} (hfair : FairlyPriced g costs n)
    (h : Rising costs n b D m₀) : SettlesOnce g costs m₀ := by
  refine ⟨fun m m₁ m₂ e e' hm hnext hmove hlater hnext' => ?_,
    fun m m₁ m₂ e e' hm hpasses hmove hlater hpasses' => ?_, fun m m₂ e hm hpasses hlater => ?_⟩
  · obtain ⟨_, _, _, h, _⟩ := h.comes hfair hm
    obtain ⟨c, hc, h₁, _⟩ := h.of_next hfair hnext hmove
    obtain ⟨b₂, _, hle, h₂, _⟩ := h₁.comes hfair hlater
    obtain ⟨_, _, c', _, hc', _, _, hle'⟩ := h₂.waiting_of_next hnext'
    exact ⟨c, c', hc, hc', hle.trans hle'⟩
  · obtain ⟨_, _, _, h, _⟩ := h.comes hfair hm
    obtain ⟨c, hc, h₁, hfinal⟩ := h.of_next hfair hpasses.next_eq hmove
    obtain ⟨b₂, D₂, _, h₂, hkeep⟩ := h₁.comes hfair hlater
    have hfinal₂ := hkeep _ _ (hfinal hpasses)
    obtain ⟨hmem, _, c', _, hc', _⟩ := h₂.waiting_of_next hpasses'.next_eq
    have hlabel := h₂.label_of_passes hpasses' hc'
    intro heq
    rw [heq, hfinal₂.label, Option.some.injEq] at hlabel
    apply hfinal₂.not_mem
    rw [hlabel, ← hc', ← heq]
    exact hmem
  · obtain ⟨_, D, _, h, _⟩ := h.comes hfair hm
    rcases Relation.ReflTransGen.cases_head hlater with rfl | ⟨m₁, hmove, hlater⟩
    · rfl
    · obtain ⟨_, hrange, _⟩ := h.waiting_of_next hpasses.next_eq
      obtain ⟨c, hc, h₁, hfinal⟩ := h.of_next hfair hpasses.next_eq hmove
      obtain ⟨_, D₂, _, h₂, hkeep⟩ := h₁.comes hfair hlater
      rw [h₂.reads.read_eq _ hrange.1 hrange.2, h.reads.read_eq _ hrange.1 hrange.2,
        h.label_of_passes hpasses hc, (hkeep _ _ (hfinal hpasses)).label]

/-- On every graph whose edges end in it and have whole costs that are not negative, in either way
of giving costs: over the whole search the entries are taken in the order of their costs, each
vertex is found current once at most, and its distance stays from then on. The search runs to its
end, unless it is refused beforehand. -/
theorem distances_settles_once (g : Network) (costs : Option (Array (Option Weight))) (n : Nat)
    (start : Int) (hn : g.vertexCount = n) (h0 : 0 ≤ start) (hlt : start < n)
    (hfair : FairlyPriced g costs n) :
    ∃ distance, Position.write (Array.replicate n none) start (some (.whole 0)) = .ok distance ∧
      let m₀ : Moment := ⟨.whole 0, [], Search.startAt start distance⟩
      SettlesOnce g costs m₀ ∧
      ((∀ cs, costs = some cs → g.arcCount = cs.size) →
        if n < Length.room then
          ∃ m, Comes g costs m₀ m ∧ m.todo = [] ∧ m.search.queue.toList = [] ∧
            g.distances start costs = .ok m.search.distance
        else g.distances start costs = .error (Length.refusal n)) ∧
      ∀ cs, costs = some cs → g.arcCount ≠ cs.size →
        g.distances start costs = .error (.weightCount cs.size g.arcCount) := by
  obtain ⟨distance, hwrite, _⟩ :=
    (Position.reads_replicate n (none : Option Cost)).write h0 hlt (some (.whole 0))
  refine ⟨distance, hwrite, (rising_startAt g costs h0 hlt hwrite).settlesOnce hfair,
    fun hcosts => ?_, fun cs hcs hcount => ?_⟩
  · split
    · rename_i hroom
      obtain ⟨result, hresult, _⟩ := exists_shortest hn h0 hlt hcosts hfair.priced
        (hfair.noNegativeCycle h0 hlt) hroom
      rw [distances_eq_run hn h0 hlt hcosts hroom hwrite] at hresult ⊢
      cases hrun : run g costs (g.arcTotal + 1) (roundBound g.extent g.arcTotal)
          (Search.startAt start distance) with
      | error e =>
        rw [hrun] at hresult
        cases hresult
      | ok s =>
        obtain ⟨⟨base, hcomes⟩, hempty⟩ := comes_of_run g costs _ _ (.whole 0) _ s hrun
        exact ⟨_, hcomes, rfl, hempty, rfl⟩
    · rename_i hroom
      exact distances_refused hn h0 hlt hcosts hroom
  · subst hcs
    exact distances_eq_weightCount hn h0 hlt hcount

/-- Vertex 1 is first reached at cost 2 and then, along two edges that cost nothing, at cost 0. The
entry of cost 2 is stale when it is taken. -/
theorem distances_settles_once_stale :
    let g := Network.ofTables 3 4 #[] #[]
      #[[(1, some (.whole 2)), (2, some (.whole 0))], [(0, some (.whole 0))],
        [(1, some (.whole 0))]]
    ∃ distance m, SettlesOnce g none ⟨.whole 0, [], Search.startAt 0 distance⟩ ∧
      Comes g none ⟨.whole 0, [], Search.startAt 0 distance⟩ m ∧
      g.distances 0 none = .ok m.search.distance := by
  intro g
  have hfair : FairlyPriced g none 3 := by
    intro u h0 hn a ha
    have hu : u = 0 ∨ u = 1 ∨ u = 2 := by omega
    rcases hu with rfl | rfl | rfl
    · rcases List.mem_pair.1 ha with rfl | rfl
      · exact ⟨by decide, 2, rfl, by decide⟩
      · exact ⟨by decide, 0, rfl, by decide⟩
    · rw [List.mem_singleton.1 ha]
      exact ⟨by decide, 0, rfl, by decide⟩
    · rw [List.mem_singleton.1 ha]
      exact ⟨by decide, 0, rfl, by decide⟩
  obtain ⟨distance, _, honce, hends, _⟩ :=
    distances_settles_once g none 3 0 rfl (by decide) (by decide) hfair
  have hends := hends fun cs h => by cases h
  rw [if_pos (by decide)] at hends
  obtain ⟨m, hcomes, _, _, hresult⟩ := hends
  exact ⟨distance, m, honce, hcomes, hresult⟩

end IndexGraph.ShortestPath
