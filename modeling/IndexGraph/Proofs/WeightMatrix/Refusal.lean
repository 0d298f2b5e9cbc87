import IndexGraph.Proofs.WeightMatrix

/-
  A call to a weight matrix that is refused leaves no trace.
  An insertion makes room before it looks at its slot, so the order of its checks alone does not
  give this. But a growth only follows if one of the two vertices is new, and after it the slot of
  such a pair is empty (`Mirrors.prepare_cases`): the call that has grown the matrix goes through.
  What is left are the checks that come before the growth, those that find the slot without one,
  and a growth for which there is no room. `Spotless` says what each of them leaves.
-/

namespace IndexGraph

variable {α β : Type}

/-- The pair that a fault is about. -/
def Fault.pair? : Fault → Option (Int × Int)
  | .negativeEndpoint a b => some (a, b)
  | .absentWeight a b => some (a, b)
  | .edgeExists a b => some (a, b)
  | .noEdge a b => some (a, b)
  | _ => none

/-- The pair that a call is about. -/
def Call.pair? : Call α → Option (Int × Int)
  | .insert a b _ => some (a, b)
  | .put a b _ => some (a, b)
  | .erase a b => some (a, b)
  | .makeRoom _ => none
  | .weight? a b => some (a, b)
  | .contains a b => some (a, b)

namespace WeightMatrix

variable {m : WeightMatrix α} {r : PairMap α} {a b : Int}

/-- No refusal, or one that changed nothing. One that names a pair has reported nothing either;
the only other ones are for want of room. -/
inductive Spotless (m : WeightMatrix α) : Option (Int × Int) → Reply (WeightMatrix α) β → Prop
  | done {pair : Option (Int × Int)} {reply : Reply (WeightMatrix α) β}
    (h : ∃ x, reply.result = .ok x) : Spotless m pair reply
  | named {p : Int × Int} {e : Fault} (h : e.pair? = some p) : Spotless m (some p) (.fail e m)
  | noRoom {pair : Option (Int × Int)} {e : Fault} {n : Notice}
    (h : PairMap.refused (.error e : Except Fault β) = true) :
    Spotless m pair ((Reply.fail e m).after n)

theorem Spotless.mapValue {γ : Type} {pair : Option (Int × Int)}
    {reply : Reply (WeightMatrix α) β} (h : Spotless m pair reply) (f : β → γ) :
    Spotless m pair (reply.mapValue f) := by
  cases h with
  | done h =>
    obtain ⟨x, hx⟩ := h
    refine .done ⟨f x, ?_⟩
    rw [Reply.result_mapValue, hx]
    rfl
  | named h => exact .named h
  | noRoom h => exact .noRoom (PairMap.refused_error h)

theorem pair?_of_refused {e : Fault} (h : PairMap.refused (.error e : Except Fault β) = true) :
    e.pair? = none := by
  cases e <;> first | rfl | cases h

theorem refused_refusal (n : Int) :
    PairMap.refused (.error (Length.refusal n) : Except Fault β) = true := by
  unfold Length.refusal
  split <;> rfl

/-- The checks before a write are refused and have changed nothing, or they answer what the slot
holds; after a growth that is nothing. -/
theorem Mirrors.prepare_cases (h : Mirrors m r) (a b : Int) (weight : Option α) :
    (∃ e, (e = .negativeEndpoint a b ∨ e = .absentWeight a b) ∧
        m.prepare a b weight = .fail e m) ∨
      (∃ w, m.covers a b = true ∧ m.prepare a b weight = .done (r.lookup a b, w) m) ∨
      (∃ w n m' r', Mirrors m' r' ∧ m'.covers a b = true ∧ m.covers a b = false ∧
        m.prepare a b weight = (Reply.done (none, w) m').after n) ∨
      ∃ e n, PairMap.refused (.error e : Except Fault (Option α × α)) = true ∧
        m.covers a b = false ∧ m.prepare a b weight = (Reply.fail e m).after n := by
  unfold prepare
  by_cases hneg : a < 0 ∨ b < 0
  · rw [if_pos hneg]
    exact .inl ⟨_, .inl rfl, rfl⟩
  rw [if_neg hneg]
  cases weight with
  | none => exact .inl ⟨_, .inr rfl, rfl⟩
  | some w =>
    dsimp only
    rcases h.makeRoom_cases (max a b + 1) with
      ⟨hle, hmake⟩ | ⟨hlt, _, m', hm', hmake⟩ | ⟨hlt, _, hmake⟩
    · have hcov : m.covers a b = true := covers_iff.2 (by omega)
      rw [hmake, Reply.done_andThen, h.cell_eq_lookup hcov]
      exact .inr (.inl ⟨w, hcov, rfl⟩)
    · -- one of the vertices is new, so the pair has no weight yet
      have hnew : m.covers a b = false := covers_eq_false_iff.2 (by omega)
      have hcov : m'.covers a b = true := by
        have hcapacity : m'.capacity = (max a b + 1).toNat := hm'.capacity_eq
        exact covers_iff.2 (by omega)
      have hnone : ({ r with capacity := (max a b + 1).toNat } : PairMap α).lookup a b = none :=
        h.lookup_eq_none a b hnew
      rw [hmake, Reply.done_after_andThen, hm'.cell_eq_lookup hcov, hnone]
      exact .inr (.inr (.inl ⟨w, _, m', _, hm', hcov, hnew, rfl⟩))
    · rw [hmake, Reply.fail_after_andThen]
      exact .inr (.inr (.inr ⟨_, _, refused_refusal _, covers_eq_false_iff.2 (by omega), rfl⟩))

/-! ## What each call leaves -/

theorem exists_store (hm : m.Sound) (hab : m.covers a b = true) (content : Option α)
    (edgeCount : Nat) : ∃ x, (m.store a b content edgeCount).result = .ok x :=
  ⟨(), by rw [store_eq hm hab]; rfl⟩

/-- What follows the checks of a write only has to be looked at where the matrix is as it was, and
where the slot is empty after a growth. -/
theorem Mirrors.spotless_andThen (h : Mirrors m r) (weight : Option α)
    {k : Option α × α → WeightMatrix α → Reply (WeightMatrix α) β}
    (hpresent : ∀ w, m.covers a b = true → Spotless m (some (a, b)) (k (r.lookup a b, w) m))
    (hgrown : ∀ w (m' : WeightMatrix α), m'.Sound → m'.covers a b = true →
      ∃ x, (k (none, w) m').result = .ok x) :
    Spotless m (some (a, b)) ((m.prepare a b weight).andThen k) := by
  rcases h.prepare_cases a b weight with
    ⟨e, he, hprepare⟩ | ⟨w, hcov, hprepare⟩ | ⟨w, n, m', r', hm', hcov, _, hprepare⟩ |
      ⟨e, n, he, _, hprepare⟩
  · rw [hprepare, Reply.fail_andThen]
    rcases he with rfl | rfl <;> exact .named rfl
  · rw [hprepare, Reply.done_andThen]
    exact hpresent w hcov
  · rw [hprepare, Reply.done_after_andThen]
    exact .done (hgrown w m' hm'.sound hcov)
  · rw [hprepare, Reply.fail_after_andThen]
    exact .noRoom (PairMap.refused_error he)

theorem Mirrors.spotless_insert (h : Mirrors m r) (a b : Int) (weight : Option α) :
    Spotless m (some (a, b)) (m.insert a b weight) := by
  refine h.spotless_andThen weight (fun w hcov => ?_) fun w m' hm' hcov => ?_
  · cases r.lookup a b with
    | none => exact .done (exists_store h.sound hcov _ _)
    | some _ => exact .named rfl
  · exact exists_store hm' hcov _ _

theorem Mirrors.spotless_put (h : Mirrors m r) (a b : Int) (weight : Option α) :
    Spotless m (some (a, b)) (m.put a b weight) := by
  refine h.spotless_andThen weight (fun w hcov => ?_) fun w m' hm' hcov => ?_
  · exact Spotless.mapValue (.done (exists_store h.sound hcov _ _)) _
  · refine ⟨none, ?_⟩
    dsimp only
    rw [store_eq hm' hcov]
    rfl

theorem Mirrors.spotless_erase (h : Mirrors m r) (a b : Int) :
    Spotless m (some (a, b)) (m.erase a b) := by
  unfold erase
  cases hcov : m.covers a b with
  | false => exact .named rfl
  | true =>
    rw [if_pos rfl, h.cell_eq_lookup hcov]
    cases r.lookup a b with
    | none => exact .named rfl
    | some w => exact Spotless.mapValue (.done (exists_store h.sound hcov _ _)) _

theorem Mirrors.spotless_makeRoom (h : Mirrors m r) (wanted : Int) :
    Spotless m none (m.makeRoom wanted) := by
  rcases h.makeRoom_cases wanted with ⟨_, hmake⟩ | ⟨_, _, m', _, hmake⟩ | ⟨_, _, hmake⟩
  · rw [hmake]
    exact .done ⟨(), rfl⟩
  · rw [hmake]
    exact .done ⟨(), rfl⟩
  · rw [hmake]
    exact .noRoom (refused_refusal _)

/-- Every call is answered, or refused without a trace. -/
theorem Mirrors.spotless (h : Mirrors m r) (call : Call α) :
    Spotless m call.pair? (m.answer call) := by
  cases call with
  | insert a b weight => exact (h.spotless_insert a b weight).mapValue _
  | put a b weight => exact (h.spotless_put a b weight).mapValue _
  | erase a b => exact (h.spotless_erase a b).mapValue _
  | makeRoom wanted => exact (h.spotless_makeRoom wanted).mapValue _
  | weight? a b =>
    refine .done ⟨.weight? (r.lookup a b), ?_⟩
    show (m.weight? a b).map Answer.weight? = _
    rw [h.weight?_eq]
    rfl
  | contains a b =>
    refine .done ⟨.truth (r.lookup a b).isSome, ?_⟩
    show ((m.weight? a b).map Option.isSome).map Answer.truth = _
    rw [h.weight?_eq]
    rfl

theorem Spotless.of_error {pair : Option (Int × Int)} {reply : Reply (WeightMatrix α) β}
    (h : Spotless m pair reply) {e : Fault} (he : reply.result = .error e) :
    (e.pair? ≠ none ∧ e.pair? = pair ∧ reply = .fail e m) ∨
      (e.pair? = none ∧ PairMap.refused reply.result = true ∧ reply.state = m) := by
  cases h with
  | done h =>
    obtain ⟨x, hx⟩ := h
    rw [hx] at he
    cases he
  | named h =>
    cases he
    exact .inl ⟨by rw [h]; exact Option.some_ne_none _, h, rfl⟩
  | noRoom h =>
    cases he
    exact .inr ⟨pair?_of_refused h, h, rfl⟩

/-- No weight is found for a pair that is not below the capacity, with or without a growth. -/
theorem Mirrors.insert_ne_edgeExists (h : Mirrors m r) (hnew : m.covers a b = false)
    (weight : Option α) (c d : Int) :
    (m.insert a b weight).result ≠ .error (.edgeExists c d) := by
  unfold insert
  rcases h.prepare_cases a b weight with
    ⟨e, he, hprepare⟩ | ⟨w, hcov, _⟩ | ⟨w, n, m', r', hm', hcov, _, hprepare⟩ |
      ⟨e, n, he, _, hprepare⟩
  · rw [hprepare, Reply.fail_andThen]
    rcases he with rfl | rfl <;> exact fun heq => by cases heq
  · rw [hnew] at hcov
    cases hcov
  · rw [hprepare, Reply.done_after_andThen]
    dsimp only
    rw [store_eq hm'.sound hcov]
    exact fun heq => by cases heq
  · rw [hprepare, Reply.fail_after_andThen]
    intro heq
    cases heq
    cases he

/-- A call that is refused because of its pair or its weight leaves the same matrix, slot by slot,
and no growth has been reported. The only other refusals are for want of room, and they leave the
same matrix too. An insertion that needs more vertices never finds its pair taken. -/
theorem refusal_without_trace (directed : Bool) (capacity : Int) (calls : List (Call α)) :
    let m := reached directed capacity calls
    (∀ call e, (m.answer call).result = .error e →
      (e.pair? ≠ none → e.pair? = call.pair? ∧ m.answer call = .fail e m) ∧
      (e.pair? = none → PairMap.refused (m.answer call).result = true ∧
        (m.answer call).state = m)) ∧
    ∀ a b weight, (m.capacity : Int) ≤ max a b →
      ∀ c d, (m.insert a b weight).result ≠ .error (.edgeExists c d) := by
  intro m
  obtain ⟨r, h⟩ : ∃ r, Mirrors m r := exists_mirrors_reached directed capacity calls
  constructor
  · intro call e he
    rcases (h.spotless call).of_error he with ⟨hsome, hpair, hreply⟩ | ⟨hpair, hroom, hstate⟩
    · exact ⟨fun _ => ⟨hpair, hreply⟩, fun hnone => absurd hnone hsome⟩
    · exact ⟨fun hsome => absurd hpair hsome, fun _ => ⟨hroom, hstate⟩⟩
  · intro a b weight hle
    exact h.insert_ne_edgeExists (covers_eq_false_iff.2 (by omega)) weight

/-- A pair that is taken, with room for it, and a pair for which the matrix has to grow. -/
theorem refusal_without_trace_taken :
    let m := reached false 0 [.insert 1 2 (some 5), .erase 1 2, .put 2 1 (some (7 : Int))]
    m.answer (.insert 1 2 (some 6)) = .fail (.edgeExists 1 2) m ∧
      (m.insert 4 1 (some 6)).result ≠ .error (.edgeExists 4 1) := by
  intro m
  obtain ⟨hrefused, hgrowth⟩ := refusal_without_trace false 0
    [.insert 1 2 (some 5), .erase 1 2, .put 2 1 (some (7 : Int))]
  have htaken : (m.answer (.insert 1 2 (some 6))).result = .error (.edgeExists 1 2) := rfl
  exact ⟨((hrefused _ _ htaken).1 (by decide)).2, hgrowth 4 1 (some 6) (by decide) 4 1⟩

end WeightMatrix

end IndexGraph
