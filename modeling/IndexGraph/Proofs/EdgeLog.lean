import IndexGraph.Proofs.Agrees
import IndexGraph.Proofs.Multigraph

/-
  A multigraph is the list of its insertions. `EdgeLog` keeps the room there was at first and the
  ends of the edges in the order in which they came; what a multigraph answers about its vertices
  and edges is read off that list. The chains of the graph are not mentioned: the edges that leave
  a vertex are the rows of the list with this source, the latest first.
  An insertion puts its edge before the chain of one source and leaves all other chains as they
  are; at the end of the list a new row does the same (`arcsFrom_snoc`). So graph and list agree
  call by call (`insert_agrees`), and by induction after every list of calls
  (`answers_eq_edgeLog`).
-/

namespace IndexGraph

/-- The room there was at first, and the source and the target of every edge so far. -/
structure EdgeLog where
  capacity : Nat
  rows : List (Nat × Nat)

namespace EdgeLog

/-- One more than the largest vertex that the rows mention. -/
def span (rows : List (Nat × Nat)) : Nat :=
  rows.foldr (fun row n => max (max row.1 row.2 + 1) n) 0

def vertexCount (l : EdgeLog) : Nat := max l.capacity (span l.rows)

/-- The rows with source `v`, the latest first: the target and the number of each. -/
def arcsFrom (l : EdgeLog) (v : Int) : List (Nat × Nat) :=
  (l.rows.zipIdx.filterMap fun (row, k) => if v = row.1 then some (row.2, k) else none).reverse

/-- The rows with source `0`, then those with source `1`, and so on, each time the latest first. -/
def edges (l : EdgeLog) : List (Nat × Nat) :=
  (List.range l.vertexCount).flatMap fun (v : Nat) => (l.arcsFrom v).map fun arc => (v, arc.1)

/-- Writes a row and answers its number. Negative ends are refused, and so are ends for which there
is no room; then nothing is written. -/
def insert (l : EdgeLog) (source target : Int) : Reply EdgeLog Nat :=
  if source < 0 ∨ target < 0 then .fail (.negativeEndpoint source target) l
  else if Length.Extensible l.vertexCount (max source target + 1) then
    .done l.rows.length { l with rows := l.rows ++ [(source.toNat, target.toNat)] }
  else .fail (Length.refusal (max source target + 1 - l.vertexCount)) l

theorem span_snoc (rows : List (Nat × Nat)) (s t : Nat) :
    span (rows ++ [(s, t)]) = max (span rows) (max s t + 1) := by
  induction rows with
  | nil => simp [span]
  | cons row rows ih =>
    unfold span at ih ⊢
    rw [List.cons_append, List.foldr_cons, List.foldr_cons, ih, Nat.max_assoc]

theorem arcsFrom_snoc (l : EdgeLog) (s t : Nat) (v : Int) :
    ({ l with rows := l.rows ++ [(s, t)] } : EdgeLog).arcsFrom v =
      if v = s then (t, l.rows.length) :: l.arcsFrom v else l.arcsFrom v := by
  unfold arcsFrom
  rw [List.zipIdx_append, List.filterMap_append, List.reverse_append, Nat.zero_add]
  by_cases hv : v = s
  · simp [hv]
  · simp [hv]

/-- What a log answers to an insertion. -/
def answer (l : EdgeLog) (ends : Int × Int) : Reply EdgeLog Nat := l.insert ends.1 ends.2

/-- The ends of the insertions that were not refused. -/
def accepted (calls : List (Int × Int)) (given : List (Except Fault Nat)) : List (Int × Int) :=
  (calls.zip given).filterMap fun (ends, outcome) => outcome.toOption.map fun _ => ends

theorem answer_cases (l : EdgeLog) (ends : Int × Int) :
    (∃ e, l.answer ends = .fail e l) ∨
      ∃ s t : Nat, ends = (↑s, ↑t) ∧
        l.answer ends = .done l.rows.length { l with rows := l.rows ++ [(s, t)] } := by
  obtain ⟨a, b⟩ := ends
  unfold answer insert
  dsimp only
  split
  · exact .inl ⟨_, rfl⟩
  · split
    · refine .inr ⟨a.toNat, b.toNat, ?_, rfl⟩
      rw [Int.toNat_of_nonneg (by omega), Int.toNat_of_nonneg (by omega)]
    · exact .inl ⟨_, rfl⟩

/-- The rows are the insertions that were not refused, in their order, and the room there was at
first is remembered. -/
theorem rows_answers (calls : List (Int × Int)) : ∀ l : EdgeLog,
    (answers answer l calls).2.capacity = l.capacity ∧
      (answers answer l calls).2.rows.map (fun row => ((row.1 : Int), (row.2 : Int))) =
        l.rows.map (fun row => ((row.1 : Int), (row.2 : Int))) ++
          accepted calls (answers answer l calls).1 := by
  induction calls with
  | nil => exact fun l => ⟨rfl, (List.append_nil _).symm⟩
  | cons ends calls ih =>
    intro l
    unfold answers
    dsimp only
    rcases l.answer_cases ends with ⟨e, hanswer⟩ | ⟨s, t, rfl, hanswer⟩
    · rw [hanswer]
      exact ih l
    · rw [hanswer]
      obtain ⟨hcapacity, hrows⟩ := ih { l with rows := l.rows ++ [(s, t)] }
      refine ⟨hcapacity, hrows.trans ?_⟩
      rw [List.map_append, List.append_assoc]
      rfl

end EdgeLog

/-- What a multigraph answers to an insertion. -/
def Multigraph.answer (g : Multigraph) (ends : Int × Int) : Reply Multigraph Nat :=
  g.insert ends.1 ends.2

namespace Multigraph

/-- The multigraph is what the log says. -/
structure Logged (g : Multigraph) (l : EdgeLog) : Prop where
  edgeCount_eq : g.edgeCount = l.rows.length
  vertexCount_eq : g.vertexCount = l.vertexCount
  arcsFrom_eq : ∀ v : Int, g.arcsFrom v = l.arcsFrom v

theorem logged_ofCount (n : Nat) : Logged (ofCount n) ⟨n, []⟩ := by
  refine ⟨rfl, ?_, fun v => arcsFrom_ofCount n v⟩
  show (Array.replicate n none).size = max n 0
  rw [Array.size_replicate, Nat.max_zero]

variable {g : Multigraph} {l : EdgeLog}

/-- An edge of the graph is a row of the log. -/
theorem Logged.push (h : Logged g l) (s t : Nat) :
    Logged (g.push s t) { l with rows := l.rows ++ [(s, t)] } := by
  refine ⟨?_, ?_, fun v => ?_⟩
  · rw [edgeCount_push, h.edgeCount_eq, List.length_append]
    rfl
  · rw [vertexCount_push, h.vertexCount_eq]
    unfold EdgeLog.vertexCount
    dsimp only
    rw [EdgeLog.span_snoc, Nat.max_assoc]
  · rw [arcsFrom_push, EdgeLog.arcsFrom_snoc, h.arcsFrom_eq, h.edgeCount_eq]

theorem insert_agrees (g : Multigraph) (l : EdgeLog) (ends : Int × Int) (h : Logged g l) :
    Agrees Logged (g.answer ends) (l.answer ends) := by
  unfold answer EdgeLog.answer insert EdgeLog.insert
  rw [h.vertexCount_eq, h.edgeCount_eq]
  split
  · exact .fail h _
  · split
    · exact .done (h.push _ _) _
    · exact .fail h _

/-- The list of all edges is read off the log too. -/
theorem Logged.edges_eq (h : Logged g l) : g.edges = l.edges := by
  unfold edges EdgeLog.edges successors
  rw [h.vertexCount_eq]
  congr 1
  funext v
  rw [h.arcsFrom_eq, List.map_map]
  rfl

/-- For every room to begin with that can be had, and every list of insertions with any ends, the
graph answers what its log does, and tells of its vertices and edges what the log tells: a new edge
has the number of those before it, and an insertion that is refused leaves no trace. -/
theorem answers_eq_edgeLog (capacity : Nat) (calls : List (Int × Int)) :
    if capacity < Length.room then
      ∃ g, ofCapacity capacity = .ok g ∧
        let given := answers answer g calls
        let log := answers EdgeLog.answer ⟨capacity, []⟩ calls
        given.1 = log.1 ∧ log.2.capacity = capacity ∧
          log.2.rows.map (fun row => ((row.1 : Int), (row.2 : Int))) =
            EdgeLog.accepted calls given.1 ∧
          given.2.edgeCount = log.2.rows.length ∧
          given.2.vertexCount = max capacity (EdgeLog.span log.2.rows) ∧
          (∀ v : Int, given.2.arcsFrom v = log.2.arcsFrom v) ∧
          (∀ v : Int, given.2.successors v = (log.2.arcsFrom v).map Prod.fst) ∧
          given.2.edges = log.2.edges
    else ofCapacity capacity = .error .noRoom ∨ ofCapacity capacity = .error .lengthRange := by
  unfold ofCapacity
  split
  · rename_i hroom
    rw [if_pos (Length.allowed_natCast.2 hroom), Int.toNat_natCast]
    refine ⟨_, rfl, ?_⟩
    obtain ⟨hgiven, hlogged⟩ := answers_agree insert_agrees calls _ _ (logged_ofCount capacity)
    obtain ⟨hcapacity, hrows⟩ := EdgeLog.rows_answers calls ⟨capacity, []⟩
    rw [← hgiven] at hrows
    refine ⟨hgiven, hcapacity, hrows, hlogged.edgeCount_eq, ?_, hlogged.arcsFrom_eq, fun v => ?_,
      hlogged.edges_eq⟩
    · rw [hlogged.vertexCount_eq, EdgeLog.vertexCount, hcapacity]
    · rw [successors, hlogged.arcsFrom_eq]
  · rename_i hroom
    rw [if_neg (mt Length.allowed_natCast.1 hroom)]
    unfold Length.refusal
    split
    · exact .inl rfl
    · exact .inr rfl

/-- A log has as many vertices as it is given room for, but a graph cannot be had with room for
`2 ^ 63`. -/
theorem ofCapacity_eq_lengthRange :
    (⟨9223372036854775808, []⟩ : EdgeLog).vertexCount = 9223372036854775808 ∧
      ofCapacity 9223372036854775808 = .error .lengthRange := by
  refine ⟨rfl, ?_⟩
  unfold ofCapacity
  rw [if_neg (by decide)]
  decide

end Multigraph

end IndexGraph
