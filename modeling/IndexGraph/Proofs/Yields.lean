import IndexGraph.Reply

/-
  Draining a walk, step by step. `Yields step s out t`: from `s` the steps answer the entries of
  `out`, one each, and lead to `t`. What draining from `s` answers is then `out` with what
  draining from `t` answers (`Yields.result_drain`); so a walk is drained by following its steps
  to a state that answers nothing (`Yields.drain_eq_ok`) or refuses (`Yields.drain_eq_error`).
  A walk may also be asked again after it has ended or was refused: `outcomes step k s` lists what
  the next `k` steps come to, and those of a state that a step keeps are all the same.
-/

namespace IndexGraph

variable {σ α : Type}

/-- From one state the steps answer `out`, one entry each, and lead to another. -/
inductive Yields (step : σ → Reply σ (Option α)) : σ → List α → σ → Prop
  | nil (s : σ) : Yields step s [] s
  | cons {s t : σ} {a : α} {out : List α} (ha : (step s).result = .ok (some a))
      (h : Yields step (step s).state out t) : Yields step s (a :: out) t

/-- What the next `k` steps come to, the refused ones included. -/
def outcomes (step : σ → Reply σ α) : Nat → σ → List (Except Fault α)
  | 0, _ => []
  | k + 1, s => (step s).result :: outcomes step k (step s).state

/-- A state that a step keeps comes to the same for ever. -/
theorem outcomes_of_still {step : σ → Reply σ α} {s : σ} (hstill : (step s).state = s) (k : Nat) :
    outcomes step k s = List.replicate k (step s).result := by
  induction k with
  | zero => rfl
  | succ k ih => rw [outcomes, hstill, ih, List.replicate_succ]

namespace Yields

variable {step : σ → Reply σ (Option α)} {s t u : σ} {out out' : List α}

theorem trans (h : Yields step s out t) (h' : Yields step t out' u) :
    Yields step s (out ++ out') u := by
  induction h with
  | nil => exact h'
  | cons ha _ ih => exact .cons ha (ih h')

theorem result_drain (h : Yields step s out t) (k : Nat) :
    (Reply.drain step (out.length + k) s).result =
      (Reply.drain step k t).result.map (out ++ ·) := by
  induction h with
  | nil s =>
    rw [List.length_nil, Nat.zero_add]
    cases (Reply.drain step k s).result <;> rfl
  | @cons s t a out ha _ ih =>
    rw [List.length_cons, Nat.add_right_comm, Reply.drain, Reply.result_andThen, ha]
    show ((Reply.drain step (out.length + k) (step s).state).mapValue (a :: ·)).result = _
    rw [Reply.result_mapValue, ih]
    cases (Reply.drain step k t).result <;> rfl

theorem drain_eq_ok (h : Yields step s out t) (hend : (step t).result = .ok none) {k : Nat}
    (hk : out.length < k) : (Reply.drain step k s).result = .ok out := by
  obtain ⟨j, rfl⟩ := Nat.exists_eq_add_of_lt hk
  rw [Nat.add_assoc, h.result_drain, Reply.drain, Reply.result_andThen, hend]
  show Except.ok (out ++ []) = _
  rw [List.append_nil]

theorem drain_eq_error (h : Yields step s out t) {e : Fault} (hend : (step t).result = .error e)
    {k : Nat} (hk : out.length < k) : (Reply.drain step k s).result = .error e := by
  obtain ⟨j, rfl⟩ := Nat.exists_eq_add_of_lt hk
  rw [Nat.add_assoc, h.result_drain, Reply.drain, Reply.result_andThen, hend]
  rfl

theorem outcomes_eq (h : Yields step s out t) (k : Nat) :
    outcomes step (out.length + k) s =
      out.map (fun a => .ok (some a)) ++ outcomes step k t := by
  induction h with
  | nil s => rw [List.length_nil, Nat.zero_add, List.map_nil, List.nil_append]
  | @cons s t a out ha _ ih =>
    rw [List.length_cons, Nat.add_right_comm, outcomes, ha, ih]
    rfl

end Yields

end IndexGraph
