import IndexGraph.Proofs.Consistent
import IndexGraph.Proofs.Topological

/-
  A strict topological walk is refused exactly on the graphs that have a cycle, and once.
  Being strict changes no step that reports a vertex (`yields_withStrict`), so the strict walk and
  the other one report the same vertices. Where they run dry they differ: the strict walk is
  refused if vertices are left, and those are the ones behind a cycle (`Holds.mem_left_iff`). From
  then on nothing counts as left, so either walk says that it has ended whenever it is asked
  again (`runs_of_yields`).
-/

namespace IndexGraph

namespace TopologicalWalk

variable {succ : Int → List Int} {n : Nat} {w t : TopologicalWalk} {out : List Int} {v : Int}
  {left : Finset Int}

/-- The same walk, strict or not. -/
def withStrict (w : TopologicalWalk) (strict : Bool) : TopologicalWalk :=
  { w with strict := strict }

theorem ofSuccessors_withStrict {count : Int} {strict : Bool}
    (h : ofSuccessors succ count strict = .ok w) (strict' : Bool) :
    ofSuccessors succ count strict' = .ok (w.withStrict strict') := by
  unfold ofSuccessors at h ⊢
  cases hzeros : Length.fresh count (0 : Int) with
  | error e =>
    rw [hzeros] at h
    cases h
  | ok zeros =>
    rw [hzeros] at h
    simp only [bind, Except.bind] at h ⊢
    split at h
    · cases h
    · cases h
      rfl

/-- A step that reports a vertex is the same for a strict walk. -/
theorem next_withStrict (h : (w.next succ).result = .ok (some v)) (strict : Bool) :
    ((w.withStrict strict).next succ).result = .ok (some v) ∧
      ((w.withStrict strict).next succ).state = (w.next succ).state.withStrict strict := by
  obtain ⟨pending, ready, unreported, lax⟩ := w
  cases ready with
  | cons u rest => exact ⟨h, rfl⟩
  | nil =>
    rw [next] at h
    split at h
    · cases h
    · cases lax <;> cases h

theorem yields_withStrict (h : Yields (next succ) w out t) (strict : Bool) :
    Yields (next succ) (w.withStrict strict) out (t.withStrict strict) := by
  induction h with
  | nil w => exact .nil _
  | cons hv _ ih =>
    obtain ⟨hresult, hstate⟩ := next_withStrict hv strict
    exact .cons hresult (hstate ▸ ih)

/-- What a walk comes to where no vertex is ready. -/
def dryOutcome (w : TopologicalWalk) : Except Fault (Option Int) :=
  if w.strict = true ∧ w.unreported ≠ 0 then .error (.cycle w.unreported) else .ok none

theorem next_of_ready_eq_nil (hready : w.ready = []) :
    (w.next succ).result = w.dryOutcome ∧
      (w.next succ).state = { w with unreported := 0 } := by
  obtain ⟨pending, ready, unreported, strict⟩ := w
  obtain rfl : ready = [] := hready
  rw [next, dryOutcome]
  by_cases hzero : unreported = 0
  · rw [if_pos hzero, if_neg fun h => h.2 hzero]
    exact ⟨rfl, rfl⟩
  · rw [if_neg hzero]
    cases strict with
    | false => exact ⟨rfl, rfl⟩
    | true => exact ⟨(if_pos ⟨rfl, hzero⟩).symm, rfl⟩

/-- The steps report `out`, come to `last`, and after that find the walk ended, as often as they
are taken. -/
def Runs (succ : Int → List Int) (w : TopologicalWalk) (out : List Int)
    (last : Except Fault (Option Int)) : Prop :=
  ∀ k, outcomes (next succ) (out.length + (1 + k)) w =
    out.map (fun v => .ok (some v)) ++ last :: List.replicate k (.ok none)

theorem runs_of_yields (h : Yields (next succ) w out t) (hready : t.ready = []) :
    Runs succ w out t.dryOutcome := by
  intro k
  obtain ⟨hresult, hstate⟩ := @next_of_ready_eq_nil succ t hready
  obtain ⟨hagain, hstill⟩ := @next_of_ready_eq_nil succ { t with unreported := 0 } hready
  have hend : ({ t with unreported := 0 } : TopologicalWalk).dryOutcome = .ok none :=
    if_neg fun h => h.2 rfl
  rw [h.outcomes_eq, Nat.add_comm 1 k, outcomes, hresult, hstate, outcomes_of_still hstill, hagain,
    hend]

namespace Holds

theorem withStrict (h : Holds succ n w out left) (strict : Bool) :
    Holds succ n (w.withStrict strict) out left :=
  ⟨h.legal, h.mem_left, h.reads, h.nodup_ready, h.mem_ready, h.unreported_eq⟩

theorem dryOutcome_eq (h : Holds succ n w out left) :
    w.dryOutcome =
      if w.strict = true ∧ left ≠ ∅ then .error (.cycle left.card) else .ok none := by
  have hzero : (left.card : Int) ≠ 0 ↔ left ≠ ∅ := by
    rw [Int.natCast_ne_zero, Finset.card_ne_zero, Finset.nonempty_iff_ne_empty]
  rw [dryOutcome, h.unreported_eq]
  simp only [hzero]

/-- Where a walk runs dry, the vertices left are those behind a cycle. -/
theorem mem_left_iff (hin : Inside succ n) (h : Holds succ n w out left) (hend : w.ready = []) :
    v ∈ left ↔ BehindCycle succ n v := by
  rw [h.mem_left, h.mem_iff_of_ready_eq_nil hin hend]
  constructor
  · intro hex
    obtain ⟨hv, hnot⟩ := hex
    by_contra hno
    exact hnot ⟨hv, hno⟩
  · intro hbehind
    have hv : v ∈ vertices n := by
      obtain ⟨c, hc, _, hreach⟩ := hbehind
      exact hin.mem_vertices hc hreach
    exact ⟨hv, fun hno => hno.2 hbehind⟩

/-- Every vertex is reported or left. -/
theorem length_add_card (h : Holds succ n w out left) : out.length + left.card = n := by
  have hdisjoint : Disjoint out.toFinset left := by
    rw [Finset.disjoint_left]
    exact fun v hv hleft => ((h.mem_left v).1 hleft).2 (List.mem_toFinset.1 hv)
  have hunion : out.toFinset ∪ left = (vertices n).toFinset := by
    ext v
    rw [Finset.mem_union, List.mem_toFinset, List.mem_toFinset, h.mem_left]
    have := h.legal.mem_graph (v := v)
    tauto
  have hcard := congrArg Finset.card hunion
  rw [Finset.card_union_of_disjoint hdisjoint, List.toFinset_card_of_nodup h.legal.nodup,
    List.toFinset_card_of_nodup (nodup_vertices n)] at hcard
  simpa [vertices] using hcard

end Holds

/-- Something is behind a cycle exactly if there is a cycle. -/
theorem exists_onCycle_iff (hmem : ∀ v, v ∈ left ↔ BehindCycle succ n v) :
    (∃ v : Int, 0 ≤ v ∧ v < n ∧ OnCycle succ v) ↔ left ≠ ∅ := by
  rw [← Finset.nonempty_iff_ne_empty]
  constructor
  · intro hex
    obtain ⟨v, h0, hn, hcycle⟩ := hex
    exact ⟨v, (hmem v).2 ⟨v, mem_vertices.2 ⟨h0, hn⟩, hcycle, Reaches.refl succ v⟩⟩
  · intro hex
    obtain ⟨v, hv⟩ := hex
    obtain ⟨c, hc, hcycle, _⟩ := (hmem v).1 hv
    obtain ⟨h0, hn⟩ := mem_vertices.1 hc
    exact ⟨c, h0, hn, hcycle⟩

end TopologicalWalk

open TopologicalWalk

/-- On every graph of `n` vertices that no edge leaves, the strict walk reports the same vertices as
the one that is not strict. Then it is refused if the graph has a cycle, with the number of the
vertices behind one, which are those not reported; and after that, or at once if there is no
cycle, it says that it has ended, however often it is asked. If there is no room for the counts,
neither walk begins. -/
theorem strict_refused_once (succ : Int → List Int) (n : Nat)
    (hin : ∀ u : Int, 0 ≤ u → u < n → ∀ v ∈ succ u, 0 ≤ v ∧ v < n) :
    if n < Length.room then
      ∃ (lax strict : TopologicalWalk) (out : List Int) (behind : Finset Int),
        ofSuccessors succ n false = .ok lax ∧ ofSuccessors succ n true = .ok strict ∧
        (∀ v, v ∈ behind ↔ BehindCycle succ n v) ∧ out.length + behind.card = n ∧
        Runs succ lax out (.ok none) ∧
        ((∃ v : Int, 0 ≤ v ∧ v < n ∧ OnCycle succ v) →
          Runs succ strict out (.error (.cycle behind.card))) ∧
        ((∀ v : Int, 0 ≤ v → v < n → ¬ OnCycle succ v) → Runs succ strict out (.ok none))
    else ∀ strict, ofSuccessors succ n strict = .error (Length.refusal n) := by
  have hin' : Inside succ n := by
    intro u hu v he
    obtain ⟨h0, hn⟩ := mem_vertices.1 hu
    exact mem_vertices.2 (hin u h0 hn v he)
  split
  case isFalse hroom =>
    intro strict
    rw [ofSuccessors, Length.fresh, if_neg (mt Length.allowed_natCast.1 hroom)]
    rfl
  case isTrue hroom =>
    obtain ⟨w, hwalk, hlax, hstart⟩ := Holds.ofSuccessors hin' hroom false
    obtain ⟨out, t, behind, hyields, hready, hlax', hend⟩ := hstart.exists_yields hin'
    rw [List.nil_append] at hend
    have hmem : ∀ v, v ∈ behind ↔ BehindCycle succ n v := fun v => hend.mem_left_iff hin' hready
    have hruns := runs_of_yields hyields hready
    have hruns' := runs_of_yields (yields_withStrict hyields true) hready
    rw [hend.dryOutcome_eq, hlax', hlax, if_neg fun h => Bool.noConfusion h.1] at hruns
    rw [(hend.withStrict true).dryOutcome_eq] at hruns'
    refine ⟨w, w.withStrict true, out, behind, hwalk, ofSuccessors_withStrict hwalk true, hmem,
      hend.length_add_card, hruns, fun hcycle => ?_, fun hacyclic => ?_⟩
    · rwa [if_pos ⟨rfl, (exists_onCycle_iff hmem).1 hcycle⟩] at hruns'
    · rwa [if_neg fun h => ?_] at hruns'
      obtain ⟨v, h0, hn, hcycle⟩ := (exists_onCycle_iff hmem).2 h.2
      exact hacyclic v h0 hn hcycle

/-- Vertex 2 has an edge to itself and one to 3, so these two are left. -/
theorem strict_refused_once_loop :
    let m := (((Multigraph.ofCount 4).push 0 1).push 2 2).push 2 3
    let g := Network.ofMultigraph m
    ∃ (strict : TopologicalWalk) (behind : Finset Int),
      ofSuccessors g.successors 4 true = .ok strict ∧
      (∀ v, v ∈ behind ↔ BehindCycle g.successors 4 v) ∧ behind.card = 2 ∧
      Runs g.successors strict [0, 1] (.error (.cycle 2)) := by
  intro m g
  have hin := (Network.consistent_ofMultigraph m).successors_in_range
  rw [show m.vertexCount = 4 by decide +kernel] at hin
  have hcycle : OnCycle g.successors 2 :=
    .single (show (2 : Int) ∈ g.successors 2 by decide +kernel)
  have hcall : (ofSuccessors g.successors 4 true).map (outcomes (next g.successors) 5) =
      .ok [.ok (some 0), .ok (some 1), .error (.cycle 2), .ok none, .ok none] := by decide +kernel
  have hwalks := strict_refused_once g.successors 4 hin
  rw [if_pos (by decide)] at hwalks
  obtain ⟨_, strict, out, behind, _, hstrict, hmem, hcount, _, hrefused, _⟩ := hwalks
  have hruns := hrefused ⟨2, by decide, by decide, hcycle⟩
  have hfive := hruns (4 - out.length)
  rw [show out.length + (1 + (4 - out.length)) = 5 by omega] at hfive
  rw [show ofSuccessors g.successors 4 true = .ok strict from hstrict] at hcall
  have hsame := hfive.symm.trans (Except.ok.inj hcall)
  obtain ⟨rfl, hcard⟩ : out = [0, 1] ∧ behind.card = 2 := by
    rcases out with _ | ⟨a, _ | ⟨b, _ | ⟨c, out⟩⟩⟩ <;> simp at hsame
    obtain ⟨rfl, rfl, hcard⟩ := hsame
    exact ⟨rfl, by exact_mod_cast hcard⟩
  rw [hcard] at hruns
  exact ⟨strict, behind, hstrict, hmem, hcard, hruns⟩

/-- A graph of `2 ^ 63` vertices with an edge from 0 to itself has a cycle, but a list of its counts
cannot be had. -/
theorem strict_eq_lengthRange :
    let g := Network.ofTables 9223372036854775808 1 #[[0]] #[] #[]
    (∀ u, ∀ v ∈ g.successors u, v = 0) ∧ OnCycle g.successors 0 ∧
      ofSuccessors g.successors 9223372036854775808 true = .error .lengthRange ∧
      (g.topologicalOrder true).result = .error .lengthRange := by
  intro g
  refine ⟨fun u v hv => ?_, .single (show (0 : Int) ∈ g.successors 0 by decide +kernel), rfl,
    by decide +kernel⟩
  by_cases hu : u = 0
  · subst hu
    exact List.mem_singleton.1 hv
  · rw [g.successors_eq_nil u (show u < 0 ∨ 1 ≤ u by omega)] at hv
    exact absurd hv List.not_mem_nil

end IndexGraph
