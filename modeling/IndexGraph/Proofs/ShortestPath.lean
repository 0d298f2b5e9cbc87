import IndexGraph.Proofs.Multigraph
import IndexGraph.Proofs.Position
import IndexGraph.Proofs.Ways
import IndexGraph.ShortestPath
import Mathlib.Algebra.Order.BigOperators.Group.Finset

/-
  The search for least distances, where every edge has a whole cost and no cycle of negative cost
  can be reached.
  `Holds busy used D s` is the invariant: the array holds the labels `D`, which come from the
  ways of `used`, and a vertex with a label has an entry with that label in the queue or no arc
  that could lower a label; of the vertex `busy` the arcs are being tried. That the queue gives
  up its least entry first is not needed.
  Each label that is lowered costs one new way and makes one entry, and each entry that is taken
  is gone (`settle_holds`). So the search ends when the ways are used up at the latest
  (`run_holds`), and then its labels are least (`exists_shortest`).
-/

namespace IndexGraph

theorem Cost.lt_whole (a b : Int) : (Cost.whole a).lt (.whole b) = decide (a < b) := by
  have hcompare := compare_lt_iff_lt (a := a) (b := b)
  rw [Cost.lt, Cost.compare?]
  cases h : compare a b <;> simp_all

theorem Cost.same_whole (a b : Int) : (Cost.whole a).same (.whole b) = decide (a = b) := by
  have hcompare := compare_eq_iff_eq (a := a) (b := b)
  rw [Cost.same, Cost.compare?]
  cases h : compare a b <;> simp_all

namespace ShortestPath

open Function (update)

/-- An edge from `u` to `v` has the whole cost `w`. -/
def Arc (g : Network) (costs : Option (Array (Option Weight))) (u v w : Int) : Prop :=
  ∃ carried, (v, carried) ∈ g.arcsFrom u ∧
    (edgeCost costs carried).bind Cost.ofWeight = .ok (.whole w)

/-- The edges that leave the vertices below `n` end there, and have whole costs. -/
def Priced (g : Network) (costs : Option (Array (Option Weight))) (n : Nat) : Prop :=
  ∀ u : Int, 0 ≤ u → u < n → ∀ a ∈ g.arcsFrom u, (0 ≤ a.1 ∧ a.1 < n) ∧
    ∃ w, (edgeCost costs a.2).bind Cost.ofWeight = .ok (.whole w)

/-- The invariant of the search. -/
structure Holds (g : Network) (costs : Option (Array (Option Weight))) (start : Int) (n : Nat)
    (busy : Option Int) (used : Finset (List (Int × Int × Int))) (D : Int → Option Int)
    (s : Search) : Prop where
  labels : Labels (Arc g costs) start used D
  reads : Position.Reads s.distance n fun v => (D v).map .whole
  in_range : ∀ v, D v ≠ none → 0 ≤ v ∧ v < n
  entries : ∀ e ∈ s.queue.toList, (∃ c, e.cost = .whole c) ∧ 0 ≤ e.vertex ∧ e.vertex < n
  pending : ∀ v d, D v = some d → busy ≠ some v →
    ⟨.whole d, v⟩ ∈ s.queue.toList ∨ Relaxed (Arc g costs) D v d

variable {g : Network} {costs : Option (Array (Option Weight))} {start u v w d : Int} {n : Nat}
  {used : Finset (List (Int × Int × Int))} {D : Int → Option Int} {s : Search}

/-! ## Trying the arcs of one vertex -/

/-- What a step makes of the labels: they fall, and each entry that it adds is paid for by a
new way. -/
structure Advance (used used' : Finset (List (Int × Int × Int))) (D D' : Int → Option Int)
    (s s' : Search) : Prop where
  falls : Falls D D'
  paid : s'.queue.toList.length + used.card = s.queue.toList.length + used'.card

theorem Advance.refl (used : Finset (List (Int × Int × Int))) (D : Int → Option Int)
    (s : Search) : Advance used used D D s s := ⟨Falls.refl D, rfl⟩

theorem Advance.trans {used₁ used₂ used₃ : Finset (List (Int × Int × Int))}
    {D₁ D₂ D₃ : Int → Option Int} {s₁ s₂ s₃ : Search} (h : Advance used₁ used₂ D₁ D₂ s₁ s₂)
    (h' : Advance used₂ used₃ D₂ D₃ s₂ s₃) : Advance used₁ used₃ D₁ D₃ s₁ s₃ := by
  refine ⟨h.falls.trans h'.falls, ?_⟩
  have h1 := h.paid
  have h2 := h'.paid
  omega

theorem map_update (D : Int → Option Int) (v c : Int) :
    (fun x => (update D v (some c) x).map Cost.whole) =
      update (fun x => (D x).map Cost.whole) v (some (.whole c)) := by
  funext x
  rw [Function.update_apply, Function.update_apply]
  split <;> rfl

theorem below_whole_iff (c : Int) (label : Option Int) :
    (Cost.whole c).below (label.map .whole) = true ↔ ∀ e, label = some e → c < e := by
  cases label with
  | none => exact ⟨fun _ _ he => (nomatch he), fun _ => rfl⟩
  | some e =>
    show (Cost.whole c).lt (.whole e) = true ↔ _
    rw [Cost.lt_whole, decide_eq_true_iff]
    exact ⟨fun h _ he => Option.some.inj he ▸ h, fun h => h e rfl⟩

/-- A label is lowered, which adds an entry, or it is low enough and nothing happens. -/
theorem lower_cases (hreads : Position.Reads s.distance n fun x => (D x).map .whole) (h0 : 0 ≤ v)
    (hn : v < n) (c : Int) :
    (∃ distance, (∀ e, D v = some e → c < e) ∧
        s.lower v (.whole c) = .ok ⟨distance, s.queue.insert Entry.before ⟨.whole c, v⟩⟩ ∧
        Position.Reads distance n fun x => (update D v (some c) x).map .whole) ∨
      (∃ e, D v = some e ∧ e ≤ c) ∧ s.lower v (.whole c) = .ok s := by
  obtain ⟨distance, queue⟩ := s
  obtain ⟨k, rfl⟩ := Int.eq_ofNat_of_zero_le h0
  have hk : k < distance.size := by
    rw [hreads.size_eq]
    omega
  have hget : (distance[k]?).join = (D k).map .whole := by
    rw [hreads.getElem?_eq (by omega)]
    rfl
  unfold Search.lower
  simp only [Position.resolve?_natCast hk, hget]
  by_cases hlt : ∀ e, D k = some e → c < e
  · obtain ⟨distance', hwrite, hreads'⟩ := hreads.write h0 hn (some (.whole c))
    rw [Position.write_natCast hk] at hwrite
    cases hwrite
    rw [if_pos ((below_whole_iff _ _).2 hlt), map_update]
    exact .inl ⟨_, hlt, rfl, hreads'⟩
  · rw [if_neg (mt (below_whole_iff _ _).1 hlt)]
    push Not at hlt
    exact .inr ⟨hlt, rfl⟩

/-- The label of a vertex falls, and an entry for it joins the queue. -/
theorem Holds.lowered {distance : Array (Option Cost)} {c : Int} {as : List (Int × Int × Int)}
    (h : Holds g costs start n (some u) used D s) (h0 : 0 ≤ v) (hn : v < n)
    (hlt : ∀ e, D v = some e → c < e)
    (hlabels : Labels (Arc g costs) start (insert as used) (update D v (some c)))
    (hreads : Position.Reads distance n fun x => (update D v (some c) x).map .whole) :
    Holds g costs start n (some u) (insert as used) (update D v (some c))
      ⟨distance, s.queue.insert Entry.before ⟨.whole c, v⟩⟩ := by
  have hperm := Heap.toList_insert_perm Entry.before ⟨.whole c, v⟩ s.queue
  refine ⟨hlabels, hreads, fun x hx => ?_, fun e he => ?_, fun x e he hbusy => ?_⟩
  · by_cases hxv : x = v
    · subst hxv
      exact ⟨h0, hn⟩
    · rw [Function.update_of_ne hxv] at hx
      exact h.in_range x hx
  · rcases List.mem_cons.1 (hperm.mem_iff.1 he) with rfl | he
    · exact ⟨⟨_, rfl⟩, h0, hn⟩
    · exact h.entries e he
  · by_cases hxv : x = v
    · subst hxv
      rw [Function.update_self] at he
      cases he
      exact .inl (hperm.mem_iff.2 List.mem_cons_self)
    · rw [Function.update_of_ne hxv] at he
      rcases h.pending x e he hbusy with hmem | hrelaxed
      · exact .inl (hperm.mem_iff.2 (List.mem_cons_of_mem _ hmem))
      · exact .inr (hrelaxed.falls (falls_update hlt))

/-- One arc is tried. -/
theorem lower_holds (hcycle : NoNegativeCycle (Arc g costs) start)
    (h : Holds g costs start n (some u) used D s) (hu : D u = some d) (ha : Arc g costs u v w)
    (h0 : 0 ≤ v) (hn : v < n) :
    ∃ s' used' D', s.lower v (.whole (d + w)) = .ok s' ∧
      Holds g costs start n (some u) used' D' s' ∧ Advance used used' D D' s s' ∧
      D' u = some d ∧ ∃ e, D' v = some e ∧ e ≤ d + w := by
  rcases lower_cases h.reads h0 hn (d + w) with
    ⟨distance, hlt, hlower, hreads⟩ | ⟨⟨e, he, hle⟩, hlower⟩
  · obtain ⟨hne, as, has, hlabels⟩ := h.labels.lower hcycle hu ha hlt
    have hperm := Heap.toList_insert_perm Entry.before ⟨.whole (d + w), v⟩ s.queue
    have hlength := hperm.length_eq
    rw [List.length_cons] at hlength
    refine ⟨_, insert as used, update D v (some (d + w)), hlower,
      h.lowered h0 hn hlt hlabels hreads, ⟨falls_update hlt, ?_⟩, ?_, d + w,
      Function.update_self .., le_refl _⟩
    · rw [Finset.card_insert_of_notMem has]
      show (Heap.insert Entry.before _ s.queue).toList.length + _ = s.queue.toList.length + _
      omega
    · rw [Function.update_of_ne (Ne.symm hne), hu]
  · exact ⟨s, used, D, hlower, h, Advance.refl _ _ _, hu, e, he, hle⟩

/-- Trying an arc of cost `w` from a vertex at distance `d` offers its end the distance `d + w`. -/
theorem relax_eq_lower {carried : Option Weight}
    (hw : (edgeCost costs carried).bind Cost.ofWeight = .ok (.whole w)) :
    relax costs (.whole d) s v carried = s.lower v (.whole (d + w)) := by
  obtain ⟨weight, hcarried, hcost⟩ := bind_eq_ok_iff.1 hw
  unfold relax
  simp only [bind, Except.bind, hcarried, hcost]
  rfl

/-- All listed arcs of the busy vertex are tried. -/
theorem relaxAll_holds (hcycle : NoNegativeCycle (Arc g costs) start) (hpriced : Priced g costs n)
    (edges : List (Int × Option Weight)) :
    ∀ (s : Search) (used : Finset (List (Int × Int × Int))) (D : Int → Option Int),
      Holds g costs start n (some u) used D s → D u = some d →
      (∀ a ∈ edges, a ∈ g.arcsFrom u) →
      ∃ s' used' D', relaxAll costs (.whole d) edges s = .ok s' ∧
        Holds g costs start n (some u) used' D' s' ∧ Advance used used' D D' s s' ∧
        D' u = some d ∧ ∀ a ∈ edges, ∀ w, (edgeCost costs a.2).bind Cost.ofWeight = .ok (.whole w) →
          ∃ e, D' a.1 = some e ∧ e ≤ d + w := by
  induction edges with
  | nil =>
    intro s used D h hu _
    exact ⟨s, used, D, rfl, h, Advance.refl _ _ _, hu, fun a ha => absurd ha List.not_mem_nil⟩
  | cons a edges ih =>
    intro s used D h hu hedges
    obtain ⟨v, carried⟩ := a
    have hmem := hedges (v, carried) List.mem_cons_self
    obtain ⟨hu0, hun⟩ := h.in_range u (by rw [hu]; exact Option.some_ne_none d)
    obtain ⟨⟨h0, hn⟩, w, hw⟩ := hpriced u hu0 hun (v, carried) hmem
    obtain ⟨s₁, used₁, D₁, hlower, h₁, hadv₁, hu₁, e, he, hle⟩ :=
      lower_holds hcycle h hu ⟨carried, hmem, hw⟩ h0 hn
    obtain ⟨s₂, used₂, D₂, hrelax, h₂, hadv₂, hu₂, hall⟩ :=
      ih s₁ used₁ D₁ h₁ hu₁ fun a ha => hedges a (List.mem_cons_of_mem _ ha)
    refine ⟨s₂, used₂, D₂, ?_, h₂, hadv₁.trans hadv₂, hu₂, fun a ha w' hw' => ?_⟩
    · have hstep := (relax_eq_lower (s := s) (d := d) (v := v) hw).trans hlower
      simp only [relaxAll, bind, Except.bind, hstep, hrelax]
    · rcases List.mem_cons.1 ha with rfl | ha
      · rw [hw] at hw'
        cases hw'
        obtain ⟨e', he', hle'⟩ := hadv₂.falls v e he
        exact ⟨e', he', hle'.trans hle⟩
      · exact hall a ha w' hw'

/-! ## Taking entries -/

theorem current_whole_iff (c v : Int) (label : Option Int) :
    (⟨.whole c, v⟩ : Entry).current (label.map .whole) = true ↔ label = some c := by
  cases label with
  | none => exact ⟨fun h => (nomatch h), fun h => (nomatch h)⟩
  | some e =>
    show (Cost.whole c).same (.whole e) = true ↔ _
    rw [Cost.same_whole, decide_eq_true_iff, Option.some.injEq]
    exact eq_comm

/-- An entry is taken; if it is current its vertex is busy now. -/
theorem Holds.of_take {c : Int} {queue : Heap Entry} {busy : Option Int}
    (h : Holds g costs start n none used D s)
    (htake : s.queue.take? Entry.before = some (⟨.whole c, v⟩, queue))
    (hbusy : D v = some c → busy = some v) :
    Holds g costs start n busy used D ⟨s.distance, queue⟩ := by
  have hperm := Heap.perm_of_take? htake
  refine ⟨h.labels, h.reads, h.in_range, fun e he => ?_, fun x d hx hx' => ?_⟩
  · exact h.entries e (hperm.mem_iff.2 (List.mem_cons_of_mem _ he))
  · refine (h.pending x d hx (by simp)).imp_left fun hmem => ?_
    rcases List.mem_cons.1 (hperm.mem_iff.1 hmem) with heq | hmem
    · injection heq with hcost hvertex
      injection hcost with hcost
      subst hvertex
      subst hcost
      exact absurd (hbusy hx) hx'
    · exact hmem

/-- The arcs of the busy vertex have been tried. -/
theorem Holds.idle (h : Holds g costs start n (some v) used D s) (hv : D v = some d)
    (hrelaxed : Relaxed (Arc g costs) D v d) : Holds g costs start n none used D s := by
  refine ⟨h.labels, h.reads, h.in_range, h.entries, fun x d' hx _ => ?_⟩
  by_cases hxv : x = v
  · subst hxv
    rw [hv] at hx
    cases hx
    exact .inr hrelaxed
  · refine h.pending x d' hx fun heq => hxv ?_
    injection heq with heq
    exact heq.symm

/-- An entry is handled: where it is current, every arc of its vertex is tried. -/
theorem settle_holds (hcycle : NoNegativeCycle (Arc g costs) start) (hpriced : Priced g costs n)
    (h : Holds g costs start n none used D s) {e : Entry} {queue : Heap Entry}
    (htake : s.queue.take? Entry.before = some (e, queue)) :
    ∃ s' used' D', settle g costs e ⟨s.distance, queue⟩ = .ok s' ∧
      Holds g costs start n none used' D' s' ∧
      s'.queue.toList.length + 1 + used.card = s.queue.toList.length + used'.card := by
  have hperm := Heap.perm_of_take? htake
  have hlength := hperm.length_eq
  rw [List.length_cons] at hlength
  obtain ⟨⟨c, hc⟩, h0, hn⟩ := h.entries e (hperm.mem_iff.2 List.mem_cons_self)
  obtain ⟨cost, v⟩ := e
  obtain rfl : cost = .whole c := hc
  have hread : Position.read s.distance v = .ok ((D v).map .whole) := h.reads.read_eq v h0 hn
  unfold settle
  simp only [hread, bind, Except.bind]
  by_cases hcurrent : D v = some c
  · have hbusy : Holds g costs start n (some v) used D ⟨s.distance, queue⟩ :=
      h.of_take htake fun _ => rfl
    obtain ⟨s', used', D', hrelax, h', hadv, hv', hall⟩ := relaxAll_holds hcycle hpriced
      (g.arcsFrom v) _ used D hbusy hcurrent fun a ha => ha
    have hpaid : s'.queue.toList.length + used.card = queue.toList.length + used'.card := hadv.paid
    rw [if_pos ((current_whole_iff _ _ _).2 hcurrent)]
    refine ⟨s', used', D', hrelax, h'.idle hv' ?_, by omega⟩
    intro x w hex
    obtain ⟨carried, hmem, hw⟩ := hex
    exact hall (x, carried) hmem w hw
  · rw [if_neg (mt (current_whole_iff _ _ _).1 hcurrent)]
    refine ⟨_, used, D, rfl, h.of_take htake fun hv => absurd hv hcurrent, ?_⟩
    show queue.toList.length + 1 + used.card = s.queue.toList.length + used.card
    omega

/-- Up to `k` entries are taken. -/
theorem takeSome_holds (hcycle : NoNegativeCycle (Arc g costs) start)
    (hpriced : Priced g costs n) (k : Nat) :
    ∀ (s : Search) (used : Finset (List (Int × Int × Int))) (D : Int → Option Int),
      Holds g costs start n none used D s →
      ∃ s' used' D', takeSome g costs k s = .ok s' ∧ Holds g costs start n none used' D' s' ∧
        (s'.queue.toList = [] ∨
          s'.queue.toList.length + k + used.card = s.queue.toList.length + used'.card) := by
  induction k with
  | zero => exact fun s used D h => ⟨s, used, D, rfl, h, .inr rfl⟩
  | succ k ih =>
    intro s used D h
    obtain ⟨distance, queue⟩ := s
    unfold takeSome
    cases htake : queue.take? Entry.before with
    | none => exact ⟨_, used, D, rfl, h, .inl ((Heap.take?_eq_none_iff _ _).1 htake)⟩
    | some taken =>
      obtain ⟨e, rest⟩ := taken
      obtain ⟨s₁, used₁, D₁, hsettle, h₁, hpaid₁⟩ := settle_holds hcycle hpriced h htake
      obtain ⟨s₂, used₂, D₂, hrest, h₂, hend⟩ := ih s₁ used₁ D₁ h₁
      refine ⟨s₂, used₂, D₂, ?_, h₂, hend.imp_right fun hpaid₂ => ?_⟩
      · simp only [bind, Except.bind, hsettle, hrest]
      · omega

theorem isEmpty_iff (h : Heap Entry) : h.isEmpty = true ↔ h.toList = [] := by
  cases h <;> simp [Heap.isEmpty, Heap.toList]

/-- The search ends if there are rounds enough for all entries that ways can pay for. -/
theorem run_holds (hcycle : NoNegativeCycle (Arc g costs) start) (hpriced : Priced g costs n)
    {bound k : Nat} (hbound : ∀ used D, Labels (Arc g costs) start used D → used.card ≤ bound)
    (rounds : Nat) :
    ∀ (s : Search) (used : Finset (List (Int × Int × Int))) (D : Int → Option Int),
      Holds g costs start n none used D s →
      (s.queue.toList = [] ∨ s.queue.toList.length + bound ≤ rounds * k + used.card) →
      ∃ s' used' D', run g costs k rounds s = .ok s' ∧ Holds g costs start n none used' D' s' ∧
        s'.queue.toList = [] := by
  induction rounds with
  | zero =>
    intro s used D h hleft
    have hused := hbound used D h.labels
    have hempty : s.queue.toList = [] := by
      rcases hleft with hempty | hleft
      · exact hempty
      · exact List.eq_nil_of_length_eq_zero (by omega)
    exact ⟨s, used, D, if_pos ((isEmpty_iff _).2 hempty), h, hempty⟩
  | succ rounds ih =>
    intro s used D h hleft
    unfold run
    by_cases hempty : s.queue.toList = []
    · exact ⟨s, used, D, if_pos ((isEmpty_iff _).2 hempty), h, hempty⟩
    · obtain ⟨s₁, used₁, D₁, htake, h₁, hend⟩ := takeSome_holds hcycle hpriced k s used D h
      rw [if_neg (mt (isEmpty_iff _).1 hempty)]
      simp only [bind, Except.bind, htake]
      refine ih s₁ used₁ D₁ h₁ (hend.imp_right fun hpaid => ?_)
      have hleft := hleft.resolve_left hempty
      rw [Nat.succ_mul] at hleft
      omega

/-! ## The whole search -/

/-- The whole cost of an edge. -/
def priceOf (costs : Option (Array (Option Weight))) (carried : Option Weight) : Int :=
  match (edgeCost costs carried).bind Cost.ofWeight with
  | .ok (.whole w) => w
  | _ => 0

/-- All arcs of the graph. -/
def letters (g : Network) (costs : Option (Array (Option Weight))) : Finset (Int × Int × Int) :=
  (Finset.range g.extent).biUnion fun u =>
    ((g.arcsFrom u).map fun a => ((u : Int), a.1, priceOf costs a.2)).toFinset

theorem source_in_range {u v w : Int} (ha : Arc g costs u v w) : 0 ≤ u ∧ u < g.extent := by
  obtain ⟨carried, hmem, _⟩ := ha
  by_contra hout
  rw [g.arcsFrom_eq_nil u (by omega)] at hmem
  exact absurd hmem List.not_mem_nil

theorem mem_letters {u v w : Int} (ha : Arc g costs u v w) : (u, v, w) ∈ letters g costs := by
  obtain ⟨h0, hn⟩ := source_in_range ha
  obtain ⟨k, rfl⟩ := Int.eq_ofNat_of_zero_le h0
  obtain ⟨carried, hmem, hw⟩ := ha
  refine Finset.mem_biUnion.2 ⟨k, Finset.mem_range.2 (by omega), ?_⟩
  refine List.mem_toFinset.2 (List.mem_map.2 ⟨(v, carried), hmem, ?_⟩)
  have hprice : priceOf costs carried = w := by
    rw [priceOf, hw]
  rw [hprice]

theorem arcTotal_eq (g : Network) :
    g.arcTotal = ∑ u ∈ Finset.range g.extent, (g.arcsFrom (u : Int)).length := by
  unfold Network.arcTotal
  induction g.extent with
  | zero => rfl
  | succ n ih =>
    rw [List.range_succ, List.foldl_append, ih, Finset.sum_range_succ]
    rfl

theorem card_letters_le : (letters g costs).card ≤ g.arcTotal := by
  rw [arcTotal_eq]
  refine Finset.card_biUnion_le.trans (Finset.sum_le_sum fun u _ => ?_)
  apply (List.toFinset_card_le _).trans
  rw [List.length_map]

/-- The bound on the rounds allows for every way that can be used. -/
theorem card_le_rounds (h : Labels (Arc g costs) start used D) :
    used.card ≤ roundBound g.extent g.arcTotal * (g.arcTotal + 1) := by
  have hmin : min g.extent (letters g costs).card ≤ min g.extent g.arcTotal + 1 := by
    have : (letters g costs).card ≤ g.arcTotal := card_letters_le
    omega
  calc used.card
      ≤ ((letters g costs).card + 1) ^ min g.extent (letters g costs).card :=
        h.card_le (fun _ _ _ => mem_letters) fun _ _ _ => source_in_range
    _ ≤ (g.arcTotal + 1) ^ min g.extent (letters g costs).card :=
        Nat.pow_le_pow_left (Nat.succ_le_succ card_letters_le) _
    _ ≤ (g.arcTotal + 1) ^ (min g.extent g.arcTotal + 1) :=
        Nat.pow_le_pow_right (Nat.succ_pos _) hmin
    _ ≤ roundBound g.extent g.arcTotal := by
        show _ ≤ (g.arcTotal + 1) ^ (min g.extent g.arcTotal + 1) + Nat.pow 2 64 + 1
        omega
    _ ≤ roundBound g.extent g.arcTotal * (g.arcTotal + 1) :=
        Nat.le_mul_of_pos_right _ (Nat.succ_pos _)

theorem holds_startAt {distance : Array (Option Cost)} (h0 : 0 ≤ start) (hn : start < n)
    (hwrite : Position.write (Array.replicate n none) start (some (.whole 0)) = .ok distance) :
    Holds g costs start n none {[]} (update (fun _ => none) start (some 0))
      (Search.startAt start distance) := by
  have hperm : (Search.startAt start distance).queue.toList.Perm [⟨.whole 0, start⟩] :=
    Heap.toList_insert_perm Entry.before ⟨.whole 0, start⟩ Heap.empty
  obtain ⟨distance', hwrite', hreads⟩ :=
    (Position.reads_replicate n (none : Option Cost)).write h0 hn (some (.whole 0))
  rw [hwrite] at hwrite'
  cases hwrite'
  refine ⟨labels_start _ _, ?_, fun v hv => ?_, fun e he => ?_, fun v d hd _ => ?_⟩
  · rw [map_update]
    exact hreads
  · by_cases hvs : v = start
    · subst hvs
      exact ⟨h0, hn⟩
    · rw [Function.update_of_ne hvs] at hv
      exact absurd rfl hv
  · rw [List.mem_singleton.1 (hperm.mem_iff.1 he)]
    exact ⟨⟨0, rfl⟩, h0, hn⟩
  · by_cases hvs : v = start
    · subst hvs
      rw [Function.update_self] at hd
      cases hd
      exact .inl (hperm.mem_iff.2 (List.mem_singleton_self _))
    · rw [Function.update_of_ne hvs] at hd
      cases hd

/-- The table holds the least costs of the ways from `start`, and nothing where there is none. -/
structure Shortest (arc : Int → Int → Int → Prop) (start : Int) (n : Nat)
    (distance : Array (Option Cost)) : Prop where
  size_eq : distance.size = n
  least : ∀ v : Nat, v < n →
    (∃ d, distance[v]? = some (some (.whole d)) ∧ Costs arc start v d ∧
        ∀ c, Costs arc start v c → d ≤ c) ∨
      distance[v]? = some none ∧ ∀ c, ¬ Costs arc start v c

/-- With a cost for each edge and room for the distances, the answer is what the run ends with. -/
theorem distances_eq_run (hn : g.vertexCount = n) (h0 : 0 ≤ start) (hlt : start < n)
    (hcosts : ∀ cs, costs = some cs → g.arcCount = cs.size) (hroom : n < Length.room)
    {distance : Array (Option Cost)}
    (hwrite : Position.write (Array.replicate n none) start (some (.whole 0)) = .ok distance) :
    g.distances start costs = (run g costs (g.arcTotal + 1) (roundBound g.extent g.arcTotal)
      (Search.startAt start distance)).map Search.distance := by
  have hguard : ¬ (start < 0 ∨ g.vertexCount ≤ start) := by
    rw [hn]
    omega
  -- the number of rounds is kept out of sight, as it is too large to be unfolded
  obtain ⟨rounds, hrounds⟩ : ∃ rounds, roundBound g.extent g.arcTotal = rounds := ⟨_, rfl⟩
  unfold Network.distances
  rw [if_neg hguard, hn, Length.fresh_natCast hroom]
  dsimp only
  rw [hrounds]
  cases costs with
  | none =>
    simp only [Option.map_none, bind, Except.bind, pure, Except.pure, hwrite]
    rfl
  | some cs =>
    have hgiven := hcosts cs rfl
    simp only [Option.map_some, bind, Except.bind, pure, Except.pure, hwrite, hgiven,
      ne_eq, not_true_eq_false, if_false]
    rfl

/-- The search comes to an end, and its distances are least. -/
theorem exists_shortest (hn : g.vertexCount = n) (h0 : 0 ≤ start) (hlt : start < n)
    (hcosts : ∀ cs, costs = some cs → g.arcCount = cs.size) (hpriced : Priced g costs n)
    (hcycle : NoNegativeCycle (Arc g costs) start) (hroom : n < Length.room) :
    ∃ distance, g.distances start costs = .ok distance ∧
      Shortest (Arc g costs) start n distance := by
  obtain ⟨distance, hwrite, _⟩ :=
    (Position.reads_replicate n (none : Option Cost)).write h0 hlt (some (.whole 0))
  have hstart : Holds g costs start n none {[]} (update (fun _ => none) start (some 0))
      (Search.startAt start distance) := holds_startAt h0 hlt hwrite
  have hlength : (Search.startAt start distance).queue.toList.length = 1 :=
    (Heap.toList_insert_perm Entry.before ⟨.whole 0, start⟩ Heap.empty).length_eq
  have hdistances := distances_eq_run hn h0 hlt hcosts hroom hwrite
  obtain ⟨rounds, hrounds⟩ : ∃ rounds, roundBound g.extent g.arcTotal = rounds := ⟨_, rfl⟩
  rw [hrounds] at hdistances
  have hbound : ∀ used D, Labels (Arc g costs) start used D →
      used.card ≤ rounds * (g.arcTotal + 1) := by
    intro used D h
    rw [← hrounds]
    exact card_le_rounds h
  obtain ⟨s, used, D, hrun, hholds, hempty⟩ := run_holds hcycle hpriced hbound rounds _ _ _ hstart
    (.inr (by rw [hlength, Finset.card_singleton, Nat.add_comm]))
  have hleast := hholds.labels.least fun v d hd => (hholds.pending v d hd (by simp)).resolve_left
    fun hmem => by
      rw [hempty] at hmem
      exact absurd hmem List.not_mem_nil
  rw [hrun] at hdistances
  refine ⟨s.distance, hdistances, hholds.reads.size_eq, fun v hv => ?_⟩
  have hget : s.distance[v]? = some ((D v).map .whole) := hholds.reads.getElem?_eq hv
  rcases hleast v with ⟨d, hd, hcost, hle⟩ | ⟨hd, hno⟩
  · rw [hd] at hget
    exact .inl ⟨d, hget, hcost, hle⟩
  · rw [hd] at hget
    exact .inr ⟨hget, hno⟩

/-- No distances where there is no room for a table of them. -/
theorem distances_refused (hn : g.vertexCount = n) (h0 : 0 ≤ start) (hlt : start < n)
    (hcosts : ∀ cs, costs = some cs → g.arcCount = cs.size) (hroom : ¬ n < Length.room) :
    g.distances start costs = .error (Length.refusal n) := by
  have hguard : ¬ (start < 0 ∨ g.vertexCount ≤ start) := by
    rw [hn]
    omega
  have hfresh : Length.fresh (n : Int) (none : Option Cost) = .error (Length.refusal n) :=
    if_neg (mt Length.allowed_natCast.1 hroom)
  unfold Network.distances
  rw [if_neg hguard, hn, hfresh]
  cases costs with
  | none => rfl
  | some cs =>
    have hgiven := hcosts cs rfl
    simp only [Option.map_some, bind, Except.bind, hgiven, ne_eq, not_true_eq_false, if_false]

/-- No distances where costs are given, but not one for each edge. -/
theorem distances_eq_weightCount (hn : g.vertexCount = n) (h0 : 0 ≤ start) (hlt : start < n)
    {cs : Array (Option Weight)} (hcs : g.arcCount ≠ cs.size) :
    g.distances start (some cs) = .error (.weightCount cs.size g.arcCount) := by
  have hguard : ¬ (start < 0 ∨ g.vertexCount ≤ start) := by
    rw [hn]
    omega
  obtain ⟨rounds, hrounds⟩ : ∃ rounds, roundBound g.extent g.arcTotal = rounds := ⟨_, rfl⟩
  unfold Network.distances
  rw [if_neg hguard]
  dsimp only
  rw [hrounds]
  simp only [Option.map_some, bind, Except.bind, hcs, ne_eq, not_false_eq_true, if_true]

/-! ## Lists of edges with weights -/

/-- Some edge of the list leads from `u` to `v`, and the weight at its place is `w`. -/
def Listed (edges : List (Int × Int)) (weights : List Int) (u v w : Int) : Prop :=
  ∃ e : Nat, edges[e]? = some (u, v) ∧ weights[e]? = some w

/-- The weights as the search takes them. -/
def costsOf (weights : List Int) : Array (Option Weight) :=
  (weights.map fun w => some (.whole w)).toArray

section list

variable {edges : List (Int × Int)} {weights : List Int}

theorem edgeCost_costsOf {e : Nat} {w : Int} (h : weights[e]? = some w) :
    (edgeCost (some (costsOf weights)) (some (.whole e))).bind Cost.ofWeight =
      .ok (.whole w) := by
  have hlt : e < (costsOf weights).size := by
    rw [costsOf, List.size_toArray, List.length_map]
    exact (List.getElem?_eq_some_iff.1 h).1
  have hread : Position.read (costsOf weights) (e : Int) = .ok (some (.whole w)) := by
    rw [Position.read_eq_getElem? hlt, costsOf, List.getElem?_toArray, List.getElem?_map, h]
    rfl
  show (Position.read (costsOf weights) (e : Int)).bind Cost.ofWeight = _
  rw [hread]
  rfl

theorem mem_arcsFrom_ofEdges (h : (Multigraph.ofEdges edges).result = .ok ()) {u v : Int}
    {carried : Option Weight} :
    (v, carried) ∈ (Network.ofMultigraph (Multigraph.ofEdges edges).state).arcsFrom u ↔
      ∃ e : Nat, edges[e]? = some (u, v) ∧ carried = some (.whole e) := by
  show (v, carried) ∈ ((Multigraph.ofEdges edges).state.arcsFrom u).map
    (fun a : Nat × Nat => ((a.1 : Int), some (Weight.whole a.2))) ↔ _
  rw [List.mem_map]
  constructor
  · intro hex
    obtain ⟨⟨c, e⟩, hmem, heq⟩ := hex
    cases heq
    exact ⟨e, (Multigraph.mem_arcsFrom_ofEdges h).1 hmem, rfl⟩
  · intro hex
    obtain ⟨e, he, rfl⟩ := hex
    obtain ⟨_, hv⟩ := Multigraph.nonneg_of_mem_ofEdges h (List.mem_of_getElem? he)
    obtain ⟨c, rfl⟩ := Int.eq_ofNat_of_zero_le hv
    exact ⟨(c, e), (Multigraph.mem_arcsFrom_ofEdges h).2 he, rfl⟩

theorem arc_ofEdges_iff (h : (Multigraph.ofEdges edges).result = .ok ()) {u v w : Int}
    (hlength : weights.length = edges.length) :
    Arc (Network.ofMultigraph (Multigraph.ofEdges edges).state) (some (costsOf weights)) u v w ↔
      Listed edges weights u v w := by
  constructor
  · intro hex
    obtain ⟨carried, hmem, hw⟩ := hex
    obtain ⟨e, he, rfl⟩ := (mem_arcsFrom_ofEdges h).1 hmem
    have hlt : e < weights.length := by
      rw [hlength]
      exact (List.getElem?_eq_some_iff.1 he).1
    have hget := List.getElem?_eq_getElem hlt
    rw [edgeCost_costsOf hget] at hw
    cases hw
    exact ⟨e, he, hget⟩
  · intro hex
    obtain ⟨e, he, hw⟩ := hex
    exact ⟨_, (mem_arcsFrom_ofEdges h).2 ⟨e, he, rfl⟩, edgeCost_costsOf hw⟩

theorem priced_ofEdges (h : (Multigraph.ofEdges edges).result = .ok ())
    (hlength : weights.length = edges.length) :
    Priced (Network.ofMultigraph (Multigraph.ofEdges edges).state) (some (costsOf weights))
      (Multigraph.ofEdges edges).state.vertexCount := by
  intro u _ _ hex ha
  obtain ⟨v, carried⟩ := hex
  obtain ⟨e, he, rfl⟩ := (mem_arcsFrom_ofEdges h).1 ha
  obtain ⟨_, hv⟩ := Multigraph.nonneg_of_mem_ofEdges h (List.mem_of_getElem? he)
  obtain ⟨c, rfl⟩ := Int.eq_ofNat_of_zero_le hv
  have hmem := (Multigraph.mem_arcsFrom_ofEdges h).2 he
  have htarget := Multigraph.lt_of_mem_successors (Multigraph.mem_successors.2 ⟨e, hmem⟩)
  have hlt : e < weights.length := by
    rw [hlength]
    exact (List.getElem?_eq_some_iff.1 he).1
  refine ⟨⟨hv, ?_⟩, weights[e], edgeCost_costsOf (List.getElem?_eq_getElem hlt)⟩
  show (c : Int) < _
  omega

end list

/-- Where no cost is negative there is no cycle of negative cost. -/
theorem noNegativeCycle_of_nonneg {arc : Int → Int → Int → Prop} (start : Int)
    (h : ∀ u v w, arc u v w → 0 ≤ w) : NoNegativeCycle arc start := by
  intro v c d _ hex
  obtain ⟨as, hway⟩ := hex
  have hall : ∀ (as : List (Int × Int × Int)) (x d : Int), Way arc v as x d → 0 ≤ d := by
    intro as x d hway
    induction hway with
    | start => exact le_refl 0
    | step _ ha ih => exact Int.add_nonneg ih (h _ _ _ ha)
  exact hall as v d hway

theorem distances_cases (hn : g.vertexCount = n) (h0 : 0 ≤ start) (hlt : start < n)
    (hcosts : ∀ cs, costs = some cs → g.arcCount = cs.size) (hpriced : Priced g costs n)
    (hcycle : NoNegativeCycle (Arc g costs) start) :
    if n < Length.room then
      ∃ distance, g.distances start costs = .ok distance ∧
        Shortest (Arc g costs) start n distance
    else g.distances start costs = .error (Length.refusal n) := by
  split
  · rename_i hroom
    exact exists_shortest hn h0 hlt hcosts hpriced hcycle hroom
  · rename_i hroom
    exact distances_refused hn h0 hlt hcosts hroom

/-- On every graph whose edges end in it and have whole costs, in either way of giving costs, the
search ends with the least costs of all ways, if no cycle of negative cost can be reached; it is
refused only where there is no room for the distances. In particular the distances of a graph
made from a list are those of the listed edges with the weights at their places. -/
theorem distances_shortest :
    (∀ (g : Network) (costs : Option (Array (Option Weight))) (n : Nat) (start : Int),
      g.vertexCount = n → 0 ≤ start → start < n →
      (∀ cs, costs = some cs → g.arcCount = cs.size) → Priced g costs n →
      NoNegativeCycle (Arc g costs) start →
      if n < Length.room then
        ∃ distance, g.distances start costs = .ok distance ∧
          Shortest (Arc g costs) start n distance
      else g.distances start costs = .error (Length.refusal n)) ∧
    ∀ (edges : List (Int × Int)) (weights : List Int) (start : Int),
      (Multigraph.ofEdges edges).result = .ok () → weights.length = edges.length →
      let m := (Multigraph.ofEdges edges).state
      0 ≤ start → start < m.vertexCount → NoNegativeCycle (Listed edges weights) start →
      if m.vertexCount < Length.room then
        ∃ distance,
          (Network.ofMultigraph m).distances start (some (costsOf weights)) = .ok distance ∧
          Shortest (Listed edges weights) start m.vertexCount distance
      else (Network.ofMultigraph m).distances start (some (costsOf weights)) =
        .error (Length.refusal m.vertexCount) := by
  refine ⟨fun g costs n start => distances_cases, ?_⟩
  intro edges weights start h hlength m h0 hlt hcycle
  have harc : Arc (Network.ofMultigraph m) (some (costsOf weights)) = Listed edges weights := by
    funext u v w
    exact propext (arc_ofEdges_iff h hlength)
  have hcosts : ∀ cs, some (costsOf weights) = some cs →
      (Network.ofMultigraph m).arcCount = cs.size := by
    intro cs heq
    cases heq
    show (m.edgeCount : Int) = (costsOf weights).size
    rw [Multigraph.edgeCount_ofEdges h, costsOf, List.size_toArray, List.length_map, hlength]
  rw [← harc] at hcycle ⊢
  exact distances_cases rfl h0 hlt hcosts (priced_ofEdges h hlength) hcycle

/-- One edge each way, of costs two and zero: as what the edges of a table carry, and as the
weights of a list. -/
theorem distances_shortest_pair :
    (let g := Network.ofTables 2 2 #[] #[] #[[(1, some (.whole 2))], [(0, some (.whole 0))]]
      ∃ distance, g.distances 0 none = .ok distance ∧ Shortest (Arc g none) 0 2 distance) ∧
    let m := (Multigraph.ofEdges [(0, 1), (1, 0)]).state
    ∃ distance, (Network.ofMultigraph m).distances 0 (some (costsOf [2, 0])) = .ok distance ∧
      Shortest (Listed [(0, 1), (1, 0)] [2, 0]) 0 2 distance := by
  constructor
  · intro g
    have hrow : ∀ u : Int, ∀ a ∈ g.arcsFrom u, a = (1, some (.whole 2)) ∨
        a = (0, some (.whole 0)) := by
      intro u a ha
      have ha : a ∈ Network.row #[[(1, some (.whole 2))], [(0, some (.whole 0))]] u := ha
      unfold Network.row at ha
      split at ha
      · exact absurd ha List.not_mem_nil
      · rcases hu : u.toNat with _ | _ | k <;> rw [hu] at ha
        · exact .inl (List.mem_singleton.1 ha)
        · exact .inr (List.mem_singleton.1 ha)
        · exact absurd ha List.not_mem_nil
    have hpriced : Priced g none 2 := by
      intro u _ _ a ha
      rcases hrow u a ha with rfl | rfl
      · exact ⟨by decide, 2, rfl⟩
      · exact ⟨by decide, 0, rfl⟩
    have hcycle : NoNegativeCycle (Arc g none) 0 := by
      apply noNegativeCycle_of_nonneg
      intro u v w hex
      obtain ⟨carried, hmem, hw⟩ := hex
      rcases hrow u _ hmem with h | h <;> cases h <;> cases hw <;> decide
    have h := distances_shortest.1 g none 2 0 rfl (by decide) (by decide) (fun _ h => by cases h)
      hpriced hcycle
    rwa [if_pos (by decide)] at h
  · have hcycle : NoNegativeCycle (Listed [(0, 1), (1, 0)] [2, 0]) 0 := by
      apply noNegativeCycle_of_nonneg
      intro u v w hex
      obtain ⟨e, _, hw⟩ := hex
      have hmem : w ∈ [2, 0] := List.mem_of_getElem? hw
      rcases List.mem_pair.1 hmem with rfl | rfl <;> decide
    have h := distances_shortest.2 [(0, 1), (1, 0)] [2, 0] 0 rfl rfl (by decide) (by decide) hcycle
    rwa [if_pos (by decide)] at h

/-- Without any edge a graph of `2 ^ 63` vertices has no cycle at all, and there is no answer. -/
theorem distances_eq_lengthRange :
    let g := Network.ofTables 9223372036854775808 0 #[] #[] #[]
    Priced g none 9223372036854775808 ∧ NoNegativeCycle (Arc g none) 0 ∧
      g.distances 0 none = .error .lengthRange := by
  intro g
  have harcs : ∀ u : Int, g.arcsFrom u = [] := Network.row_empty
  refine ⟨fun u _ _ a ha => ?_, noNegativeCycle_of_nonneg 0 ?_, rfl⟩
  · rw [harcs] at ha
    exact absurd ha List.not_mem_nil
  · intro u v w hex
    obtain ⟨carried, hmem, _⟩ := hex
    rw [harcs] at hmem
    exact absurd hmem List.not_mem_nil

end ShortestPath

end IndexGraph
