import IndexGraph.Fault

/-
  Answers of operations that change a state. A refused operation keeps what it had already
  changed, so a reply always carries the state beside the outcome, and with both the notices
  written on the way, oldest first.
-/

namespace IndexGraph

/-- An event that an operation reports besides its result. -/
inductive Notice where
  /-- A matrix came to address more vertices. -/
  | growth (directed : Bool) (old new : Nat)
  /-- A pass over all vertices left every immediate dominator as it was. -/
  | settled (start : Int) (passes : Nat)
  /-- A topological walk ran dry with vertices left over. -/
  | unordered (remaining : Int)
  deriving DecidableEq, Repr

/-- The text of a notice. -/
def Notice.message : Notice → String
  | .growth directed old new =>
    let kind := if directed then "directed" else "undirected"
    s!"growing {kind} matrix from {old} to {new} vertices"
  | .settled start passes => s!"dominators from {start} settled after {passes} passes"
  | .unordered remaining => s!"cycle left {remaining} vertices unordered"

/-- The outcome of an operation on a state `σ`, with the state as it is afterwards. -/
structure Reply (σ α : Type) where
  result : Except Fault α
  state : σ
  notices : List Notice := []

namespace Reply

variable {σ α β : Type}

/-- The operation succeeded. -/
def done (a : α) (s : σ) : Reply σ α := { result := .ok a, state := s }

/-- The operation was refused; `s` holds what it had changed before. -/
def fail (e : Fault) (s : σ) : Reply σ α := { result := .error e, state := s }

/-- A successful operation goes on with `k`; a refused one ends with the state it left. -/
def andThen : Reply σ α → (α → σ → Reply σ β) → Reply σ β
  | ⟨.error e, s, notices⟩, _ => ⟨.error e, s, notices⟩
  | ⟨.ok a, s, notices⟩, k =>
    match k a s with
    | ⟨result, t, later⟩ => ⟨result, t, notices ++ later⟩

/-- The same reply with a notice written before. -/
def after (r : Reply σ α) (n : Notice) : Reply σ α :=
  { result := r.result, state := r.state, notices := n :: r.notices }

/-- The same reply about a larger state. -/
def mapState {τ : Type} (f : σ → τ) (r : Reply σ α) : Reply τ α :=
  { result := r.result, state := f r.state, notices := r.notices }

/-- The same reply with another value. -/
def mapValue (f : α → β) (r : Reply σ α) : Reply σ β :=
  { result := r.result.map f, state := r.state, notices := r.notices }

@[simp] theorem done_andThen (a : α) (s : σ) (k : α → σ → Reply σ β) :
    (done a s).andThen k = k a s := by
  simp [andThen, done]

@[simp] theorem fail_andThen (e : Fault) (s : σ) (k : α → σ → Reply σ β) :
    (fail e s : Reply σ α).andThen k = fail e s := rfl

@[simp] theorem done_after_andThen (a : α) (s : σ) (n : Notice) (k : α → σ → Reply σ β) :
    ((done a s).after n).andThen k = (k a s).after n := rfl

@[simp] theorem fail_after_andThen (e : Fault) (s : σ) (n : Notice) (k : α → σ → Reply σ β) :
    ((fail e s : Reply σ α).after n).andThen k = (fail e s).after n := rfl

theorem andThen_congr {r : Reply σ α} {k l : α → σ → Reply σ β}
    (h : ∀ a, r.result = .ok a → k a r.state = l a r.state) : r.andThen k = r.andThen l := by
  obtain ⟨result, s, notices⟩ := r
  cases result with
  | error e => rfl
  | ok a =>
    have hnext : k a s = l a s := h a rfl
    simp only [andThen, hnext]

theorem result_andThen (r : Reply σ α) (k : α → σ → Reply σ β) :
    (r.andThen k).result = r.result.bind fun a => (k a r.state).result := by
  obtain ⟨result, s, notices⟩ := r
  cases result <;> rfl

theorem state_andThen (r : Reply σ α) (k : α → σ → Reply σ β) :
    (r.andThen k).state = r.result.toOption.elim r.state fun a => (k a r.state).state := by
  obtain ⟨result, s, notices⟩ := r
  cases result <;> rfl

theorem mapValue_andThen {γ : Type} (r : Reply σ α) (k : α → σ → Reply σ β) (f : β → γ) :
    (r.andThen k).mapValue f = r.andThen fun a s => (k a s).mapValue f := by
  obtain ⟨result, s, notices⟩ := r
  cases result <;> rfl

@[simp] theorem result_mapValue (f : α → β) (r : Reply σ α) :
    (r.mapValue f).result = r.result.map f := rfl

/-- Repeats `next` until it answers `none` or is refused, and lists what it answered. -/
def drain (next : σ → Reply σ (Option α)) : Nat → σ → Reply σ (List α)
  | 0, s => fail .unsettled s
  | fuel + 1, s =>
    (next s).andThen fun
      | none, s => done [] s
      | some a, s => (drain next fuel s).mapValue (a :: ·)

end Reply

end IndexGraph
