import IndexGraph.Position
import IndexGraph.Reply

/-
  A directed multigraph to which edges are only added; parallel edges and loops are allowed.
  Edges are numbered in the order of their insertion. The edges of one source form a chain, the
  newest first: `head` holds the first edge of each chain, `older` the edge that follows another
  in its chain and `target` the end of each edge. An edge is followed by an older one only
  (`older_lt`), so every chain ends, and is walked by recursion on the number of the edge. There
  is room for both ends of every edge (`target_lt`).
-/

namespace IndexGraph

/-- A growing directed multigraph. -/
structure Multigraph where
  head : Array (Option Nat)
  older : Array (Option Nat)
  target : Array Nat
  size_older : older.size = target.size
  head_lt : ∀ v e : Nat, head[v]? = some (some e) → e < target.size
  older_lt : ∀ e d : Nat, older[e]? = some (some d) → d < e
  target_lt : ∀ e v : Nat, target[e]? = some v → v < head.size
  deriving DecidableEq

namespace Multigraph

/-- No edges, and room for `count` vertices. -/
def ofCount (count : Nat) : Multigraph where
  head := Array.replicate count none
  older := #[]
  target := #[]
  size_older := rfl
  head_lt := by
    intro v e h
    simp [Array.getElem?_replicate] at h
  older_lt := by
    intro e d h
    simp at h
  target_lt := by
    intro e v h
    simp at h

/-- No edges, and room for `capacity` vertices. -/
def ofCapacity (capacity : Int) : Except Fault Multigraph :=
  if Length.Allowed capacity then .ok (ofCount capacity.toNat)
  else .error (Length.refusal capacity)

/-- The number of vertices there is room for. -/
def vertexCount (g : Multigraph) : Nat := g.head.size

/-- The number of edges; parallel edges and loops count each. -/
def edgeCount (g : Multigraph) : Nat := g.target.size

/-- There are no edges. -/
def isEmpty (g : Multigraph) : Bool := g.target.isEmpty

/-- Adds an edge in front of the chain of its source, with room for both ends. -/
def push (g : Multigraph) (source target : Nat) : Multigraph :=
  match g with
  | ⟨head, older, ends, size_older, head_lt, older_lt, target_lt⟩ =>
    let link := (head[source]?).join
    let size : Int := (max source target : Nat) + 1
    { head := (Position.padTo head size none).setIfInBounds source (some ends.size)
      older := older.push link
      target := ends.push target
      size_older := by simp [size_older]
      head_lt := by
        intro v e h
        rw [Array.getElem?_setIfInBounds] at h
        rw [Array.size_push]
        split at h
        · split at h <;> simp at h
          omega
        · rw [Position.getElem?_padTo] at h
          split at h
          · have := head_lt v e h
            omega
          · split at h <;> simp at h
      older_lt := by
        intro e d h
        rw [Array.getElem?_push] at h
        split at h
        · rename_i he
          rw [Option.some.injEq, Option.join_eq_some_iff] at h
          have := head_lt source d h
          omega
        · exact older_lt e d h
      target_lt := by
        intro e v h
        rw [Array.size_setIfInBounds, Position.size_padTo]
        rw [Array.getElem?_push] at h
        split at h
        · rw [Option.some.injEq] at h
          omega
        · have := target_lt e v h
          omega }

/-- Adds an edge and answers its number; a negative end is refused. -/
def insert (g : Multigraph) (source target : Int) : Reply Multigraph Nat :=
  if source < 0 ∨ target < 0 then .fail (.negativeEndpoint source target) g
  else if Length.Extensible g.vertexCount (max source target + 1) then
    .done g.edgeCount (g.push source.toNat target.toNat)
  else .fail (Length.refusal (max source target + 1 - g.vertexCount)) g

/-- Adds the edges in turn, up to the first row that is refused or, being `none`, no pair. -/
def insertAll (g : Multigraph) : List (Option (Int × Int)) → Reply Multigraph Unit
  | [] => .done () g
  | none :: _ => .fail .notAPair g
  | some (source, target) :: rows =>
    (g.insert source target).andThen fun _ g => g.insertAll rows

/-- The graph made from a list of edges, and whether one was refused. -/
def ofEdges (edges : List (Int × Int)) : Reply Multigraph Unit :=
  (ofCount 0).insertAll (edges.map some)

/-- The chain from an edge on, or no edge: the end and the number of each. -/
def chain (g : Multigraph) : Option Nat → List (Nat × Nat)
  | none => []
  | some e =>
    if he : e < g.target.size then (g.target[e], e) :: g.chain (g.older[e]?).join else []
termination_by link => link.elim 0 (· + 1)
decreasing_by
  cases h : (g.older[e]?).join with
  | none => simp
  | some d =>
    have := g.older_lt e d (Option.join_eq_some_iff.1 h)
    simpa using this

/-- The edges that leave `v`, the newest first: the end and the number of each. A vertex
outside the graph has none. -/
def arcsFrom (g : Multigraph) (v : Int) : List (Nat × Nat) :=
  if v < 0 then [] else g.chain (g.head[v.toNat]?).join

/-- The ends of the edges that leave `v`, one for each edge. -/
def successors (g : Multigraph) (v : Int) : List Nat := (g.arcsFrom v).map Prod.fst

/-- All edges, by increasing source and, for one source, the newest first. -/
def edges (g : Multigraph) : List (Nat × Nat) :=
  (List.range g.vertexCount).flatMap fun (v : Nat) => (g.successors v).map fun c => (v, c)

/-- The graph with every edge turned round, inserted in the order of `edges`. -/
def transpose (g : Multigraph) : Multigraph :=
  g.edges.foldl (fun h e => h.push e.2 e.1) (ofCount g.vertexCount)

/-- The text shown for a multigraph. -/
def describe (g : Multigraph) : String := s!"Graph(vertices={g.vertexCount}, edges={g.edgeCount})"

theorem head_push (g : Multigraph) (s t : Nat) :
    (g.push s t).head =
      (Position.padTo g.head ((max s t : Nat) + 1) none).setIfInBounds s (some g.edgeCount) := rfl

theorem older_push (g : Multigraph) (s t : Nat) :
    (g.push s t).older = g.older.push (g.head[s]?).join := rfl

theorem target_push (g : Multigraph) (s t : Nat) : (g.push s t).target = g.target.push t := rfl

@[simp] theorem edgeCount_push (g : Multigraph) (s t : Nat) :
    (g.push s t).edgeCount = g.edgeCount + 1 := by
  simp [edgeCount, target_push]

theorem vertexCount_push (g : Multigraph) (s t : Nat) :
    (g.push s t).vertexCount = max g.vertexCount (max s t + 1) := by
  simp only [vertexCount, head_push, Array.size_setIfInBounds, Position.size_padTo]
  omega

theorem arcsFrom_of_neg (g : Multigraph) {v : Int} (h : v < 0) : g.arcsFrom v = [] := by
  simp [arcsFrom, h]

theorem arcsFrom_natCast (g : Multigraph) (v : Nat) :
    g.arcsFrom (v : Int) = g.chain (g.head[v]?).join := by
  rw [arcsFrom, if_neg (by omega), Int.toNat_natCast]

/-- A chain names each edge at most once. -/
theorem length_chain_le (g : Multigraph) (link : Option Nat) :
    (g.chain link).length ≤ g.edgeCount := by
  suffices h : (g.chain link).length ≤ link.elim 0 (· + 1) by
    cases link with
    | none => simpa using Nat.le_trans h (Nat.zero_le _)
    | some e =>
      by_cases he : e < g.target.size
      · exact Nat.le_trans h he
      · rw [chain, dif_neg he]
        exact Nat.zero_le _
  induction link using chain.induct g with
  | case1 => rw [chain]; exact Nat.le_refl _
  | case2 e he ih =>
    rw [chain, dif_pos he, List.length_cons]
    refine Nat.succ_le_succ (Nat.le_trans ih ?_)
    cases h : (g.older[e]?).join with
    | none => exact Nat.zero_le _
    | some d => exact g.older_lt e d (Option.join_eq_some_iff.1 h)
  | case3 e he => rw [chain, dif_neg he]; exact Nat.zero_le _

theorem length_arcsFrom_le (g : Multigraph) (v : Int) :
    (g.arcsFrom v).length ≤ g.edgeCount := by
  unfold arcsFrom
  split
  · exact Nat.zero_le _
  · exact g.length_chain_le _

theorem arcsFrom_eq_nil (g : Multigraph) {v : Int} (h : v < 0 ∨ (g.vertexCount : Int) ≤ v) :
    g.arcsFrom v = [] := by
  unfold arcsFrom
  split
  · rfl
  · rw [Array.getElem?_eq_none (by unfold vertexCount at h; omega)]
    exact chain.eq_1 g

/-- A new edge leaves the chains of older edges as they are. -/
theorem chain_push (g : Multigraph) (s t : Nat) (link : Option Nat)
    (h : ∀ e ∈ link, e < g.edgeCount) : (g.push s t).chain link = g.chain link := by
  induction link using chain.induct g with
  | case1 => rw [chain, chain]
  | case2 e he ih =>
    have he' : e < (g.push s t).target.size := by
      rw [target_push, Array.size_push]
      omega
    have htarget : (g.push s t).target[e] = g.target[e] := by
      simp only [target_push, Array.getElem_push_lt he]
    have holder : (g.push s t).older[e]? = g.older[e]? := by
      have := g.size_older
      rw [older_push, Array.getElem?_push, if_neg (by omega)]
    rw [chain, chain, dif_pos he', dif_pos he, htarget, holder, ih]
    intro d hd
    have := g.older_lt e d (Option.join_eq_some_iff.1 hd)
    have := h e rfl
    omega
  | case3 e he => exact absurd (h e rfl) he

theorem getElem?_head_push (g : Multigraph) (s t v : Nat) :
    ((g.push s t).head[v]?).join =
      if v = s then some g.edgeCount else (g.head[v]?).join := by
  rw [head_push, Array.getElem?_setIfInBounds, Position.size_padTo, Position.getElem?_padTo]
  by_cases h : v = s
  · subst h
    rw [if_pos rfl, if_pos rfl, if_pos (by omega)]
    rfl
  · rw [if_neg (Ne.symm h), if_neg h]
    split
    · rfl
    · rename_i hv
      rw [Array.getElem?_eq_none (by omega)]
      split <;> rfl

/-- A new edge comes first among the edges of its source and concerns no other vertex. -/
theorem arcsFrom_push (g : Multigraph) (s t : Nat) (v : Int) :
    (g.push s t).arcsFrom v =
      if v = s then (t, g.edgeCount) :: g.arcsFrom v else g.arcsFrom v := by
  by_cases hv : v < 0
  · rw [arcsFrom_of_neg _ hv, arcsFrom_of_neg _ hv, if_neg (by omega)]
  obtain ⟨k, rfl⟩ := Int.eq_ofNat_of_zero_le (Int.not_lt.1 hv)
  have hold : (g.push s t).chain (g.head[k]?).join = g.chain (g.head[k]?).join :=
    chain_push g s t _ fun e he => g.head_lt k e (Option.join_eq_some_iff.1 he)
  rw [arcsFrom_natCast, arcsFrom_natCast, getElem?_head_push]
  by_cases hk : k = s
  · subst hk
    have hlt : g.edgeCount < (g.push k t).target.size := by simp [target_push, edgeCount]
    have htarget : (g.push k t).target[g.edgeCount] = t := by simp [target_push, edgeCount]
    have holder : (g.push k t).older[g.edgeCount]? = some (g.head[k]?).join := by
      have hsize : g.edgeCount = g.older.size := g.size_older.symm
      rw [older_push, Array.getElem?_push, if_pos hsize]
    rw [if_pos rfl, if_pos rfl, chain, dif_pos hlt, htarget, holder]
    exact congrArg _ hold
  · rw [if_neg hk, if_neg (by omega), hold]

end Multigraph

end IndexGraph
