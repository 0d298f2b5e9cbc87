import IndexGraph.Reply

/-
  Two machines side by side. `Agrees R x y`: two replies have the same outcome, and leave states
  that `R` relates; the notices are not compared. Replies that agree still do so after agreeing
  continuations (`Agrees.andThen`), so an operation is compared with its counterpart part by part.
  `answers` runs a list of calls; what every call preserves holds in the end
  (`answers_invariant`), and where every call agrees, all answers are the same (`answers_agree`).
-/

namespace IndexGraph

variable {σ τ α β κ : Type} {R S : σ → τ → Prop}

/-- The same outcome, and related states. -/
structure Agrees (R : σ → τ → Prop) (x : Reply σ α) (y : Reply τ α) : Prop where
  result_eq : x.result = y.result
  state : R x.state y.state

namespace Agrees

theorem done {s : σ} {t : τ} (h : R s t) (a : α) : Agrees R (.done a s) (.done a t) := ⟨rfl, h⟩

theorem fail {s : σ} {t : τ} (h : R s t) (e : Fault) :
    Agrees R (.fail e s : Reply σ α) (.fail e t) := ⟨rfl, h⟩

/-- Where the first parts agree on `R`, a refusal has to leave states that `S` relates, and the
rest has to agree. -/
theorem andThen {x : Reply σ α} {y : Reply τ α} {k : α → σ → Reply σ β} {l : α → τ → Reply τ β}
    (h : Agrees R x y) (hfail : ∀ s t, R s t → S s t)
    (hnext : ∀ a, x.result = .ok a → R x.state y.state → Agrees S (k a x.state) (l a y.state)) :
    Agrees S (x.andThen k) (y.andThen l) := by
  obtain ⟨hresult, hstate⟩ := h
  cases hx : x.result with
  | error e =>
    have hy : y.result = .error e := by rw [← hresult, hx]
    constructor
    · rw [Reply.result_andThen, Reply.result_andThen, hx, hy]
      rfl
    · rw [Reply.state_andThen, Reply.state_andThen, hx, hy]
      exact hfail _ _ hstate
  | ok a =>
    have hy : y.result = .ok a := by rw [← hresult, hx]
    obtain ⟨hresult', hstate'⟩ := hnext a hx hstate
    constructor
    · rw [Reply.result_andThen, Reply.result_andThen, hx, hy]
      exact hresult'
    · rw [Reply.state_andThen, Reply.state_andThen, hx, hy]
      exact hstate'

theorem mapValue {x : Reply σ α} {y : Reply τ α} (h : Agrees R x y) (f : α → β) :
    Agrees R (x.mapValue f) (y.mapValue f) :=
  ⟨congrArg (Except.map f) h.result_eq, h.state⟩

end Agrees

/-- The answers to a list of calls, each made in the state the one before left, and the state in
the end. -/
def answers (step : σ → κ → Reply σ α) : σ → List κ → List (Except Fault α) × σ
  | s, [] => ([], s)
  | s, call :: calls =>
    let reply := step s call
    let rest := answers step reply.state calls
    (reply.result :: rest.1, rest.2)

/-- What every call preserves holds after any list of calls. -/
theorem answers_invariant {step : σ → κ → Reply σ α} {P : σ → Prop}
    (hstep : ∀ s call, P s → P (step s call).state) (calls : List κ) :
    ∀ s, P s → P (answers step s calls).2 := by
  induction calls with
  | nil => exact fun s h => h
  | cons call calls ih => exact fun s h => ih _ (hstep s call h)

/-- Machines whose replies agree call by call give the same answers to every list of calls. -/
theorem answers_agree {f : σ → κ → Reply σ α} {g : τ → κ → Reply τ α}
    (hstep : ∀ s t call, R s t → Agrees R (f s call) (g t call)) (calls : List κ) :
    ∀ s t, R s t → (answers f s calls).1 = (answers g t calls).1 ∧
      R (answers f s calls).2 (answers g t calls).2 := by
  induction calls with
  | nil => exact fun s t h => ⟨rfl, h⟩
  | cons call calls ih =>
    intro s t h
    obtain ⟨hresult, hstate⟩ := hstep s t call h
    obtain ⟨hrest, hend⟩ := ih _ _ hstate
    refine ⟨?_, hend⟩
    show (f s call).result :: (answers f (f s call).state calls).1 =
      (g t call).result :: (answers g (g t call).state calls).1
    rw [hresult, hrest]

end IndexGraph
