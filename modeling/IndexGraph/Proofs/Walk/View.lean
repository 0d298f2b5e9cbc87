import IndexGraph.Proofs.Marks
import Mathlib.Data.List.Perm.Lattice
import Mathlib.Logic.Relation

/-
  A walk seen from outside, as three sets of vertices: those that wait on the stack or in the
  queue, those whose successors were asked for, and those that were reported. The graph may change
  while the walk goes on, so nothing here speaks of one graph: `Leads edge lasting V out V'` says
  how a view changes while edges of `edge` come and go and those of `lasting` stay. Its three
  facts about the vertices that are known, that is waiting or reported, are what survives a
  change of the graph: they only become more, the new ones are reached from old ones, and a vertex
  that was asked for its successors has its lasting ones known. Such changes can be put one after
  the other (`Leads.trans`).
  The walks that mark a vertex when they put it away keep a list without repetition (`Queued`); the
  one that marks it later keeps a stack with stale copies (`Stacked`).
-/

namespace IndexGraph

/-- What a walk has come to. -/
structure View where
  /-- The vertices on the stack or in the queue. -/
  waiting : Finset Int
  /-- The vertices whose successors have been asked for. -/
  opened : Finset Int
  reported : Finset Int

namespace View

/-- The vertices that the walk has come across. -/
def known (V : View) : Finset Int := V.waiting ∪ V.reported

/-- The view before anything but the start is known. -/
def initial (start : Int) : View := ⟨{start}, ∅, ∅⟩

theorem known_initial (start : Int) : (initial start).known = {start} := Finset.union_empty _

/-- From one view to another the vertices of `out` are reported, with edges of `edge` there at
some time and those of `lasting` all the time. -/
structure Leads (edge lasting : Int → Int → Prop) (V : View) (out : List Int) (V' : View) :
    Prop where
  known_subset : V.known ⊆ V'.known
  reached : ∀ v ∈ V'.known, ∃ u ∈ V.known, Relation.ReflTransGen edge u v
  opened : ∀ u ∈ V'.opened, u ∈ V.opened ∨ ∀ c, lasting u c → c ∈ V'.known
  reported_eq : V'.reported = V.reported ∪ out.toFinset
  nodup : out.Nodup
  fresh : ∀ v ∈ out, v ∉ V.reported

namespace Leads

variable {edge lasting : Int → Int → Prop} {V V' V'' : View} {out out' : List Int}

theorem refl (edge lasting : Int → Int → Prop) (V : View) : Leads edge lasting V [] V where
  known_subset := Finset.Subset.refl _
  reached v hv := ⟨v, hv, .refl⟩
  opened _ hu := .inl hu
  reported_eq := by rw [List.toFinset_nil, Finset.union_empty]
  nodup := List.nodup_nil
  fresh _ hv := absurd hv List.not_mem_nil

theorem trans (h : Leads edge lasting V out V') (h' : Leads edge lasting V' out' V'') :
    Leads edge lasting V (out ++ out') V'' := by
  refine ⟨h.known_subset.trans h'.known_subset, fun v hv => ?_, fun u hu => ?_, ?_, ?_,
    fun v hv => ?_⟩
  · obtain ⟨u, hu, huv⟩ := h'.reached v hv
    obtain ⟨t, ht, htu⟩ := h.reached u hu
    exact ⟨t, ht, htu.trans huv⟩
  · rcases h'.opened u hu with hu | hall
    · exact (h.opened u hu).imp_right fun hall c hc => h'.known_subset (hall c hc)
    · exact .inr hall
  · rw [h'.reported_eq, h.reported_eq, List.toFinset_append, Finset.union_assoc]
  · refine h.nodup.append h'.nodup fun v hv hv' => h'.fresh v hv' ?_
    rw [h.reported_eq]
    exact Finset.mem_union_right _ (List.mem_toFinset.2 hv)
  · rcases List.mem_append.1 hv with hv | hv
    · exact h.fresh v hv
    · intro hmem
      apply h'.fresh v hv
      rw [h.reported_eq]
      exact Finset.mem_union_left _ hmem

/-- With more moments there are more edges at some of them, and fewer at all of them. -/
theorem mono {edge' lasting' : Int → Int → Prop} (h : Leads edge lasting V out V')
    (hedge : ∀ u v, edge u v → edge' u v) (hlasting : ∀ u v, lasting' u v → lasting u v) :
    Leads edge' lasting' V out V' where
  known_subset := h.known_subset
  reached v hv := by
    obtain ⟨u, hu, hr⟩ := h.reached v hv
    exact ⟨u, hu, Relation.ReflTransGen.mono hedge _ _ hr⟩
  opened u hu := (h.opened u hu).imp_right fun hall c hc => hall c (hlasting u c hc)
  reported_eq := h.reported_eq
  nodup := h.nodup
  fresh := h.fresh

/-- What holds of the known vertices and of the ends of all edges goes on to hold. -/
theorem forall_known {P : Int → Prop} (h : Leads edge lasting V out V')
    (hV : ∀ v ∈ V.known, P v) (hedge : ∀ u v, edge u v → P v) : ∀ v ∈ V'.known, P v := by
  intro v hv
  obtain ⟨u, hu, hr⟩ := h.reached v hv
  cases hr with
  | refl => exact hV v hu
  | tail _ he => exact hedge _ v he

/-- What is reported from the start is reached from it. -/
theorem reaches_of_mem {start : Int} (h : Leads edge lasting (initial start) out V') {v : Int}
    (hv : v ∈ out) : Relation.ReflTransGen edge start v := by
  have hknown : v ∈ V'.known := by
    unfold known
    rw [h.reported_eq]
    exact Finset.mem_union_right _ (Finset.mem_union_right _ (List.mem_toFinset.2 hv))
  obtain ⟨u, hu, hr⟩ := h.reached v hknown
  rw [known_initial] at hu
  rwa [Finset.mem_singleton.1 hu] at hr

/-- When nothing waits any more, all that lasting edges lead to from the start is reported. -/
theorem mem_of_reaches {start : Int} (h : Leads edge lasting (initial start) out V')
    (hwaiting : V'.waiting = ∅) (hsub : V'.reported ⊆ V'.opened) {v : Int}
    (hr : Relation.ReflTransGen lasting start v) : v ∈ out := by
  have hknown : V'.known = V'.reported := by rw [known, hwaiting, Finset.empty_union]
  have hmem : v ∈ V'.known := by
    induction hr with
    | refl => exact h.known_subset (known_initial start ▸ Finset.mem_singleton_self start)
    | @tail u v _ he ih =>
      have hu : u ∈ V'.opened := hsub (hknown ▸ ih)
      rcases h.opened u hu with hnone | hall
      · exact absurd hnone (Finset.notMem_empty u)
      · exact hall v he
  rw [hknown, h.reported_eq] at hmem
  exact List.mem_toFinset.1 ((Finset.mem_union.1 hmem).resolve_left (Finset.notMem_empty v))

end Leads

variable {V : View} {v : Int} {rest queue : List Int}

/-! ## Walks that mark a vertex when they put it away -/

/-- The list holds the waiting vertices, none of them twice and none that was reported; a vertex is
reported in the step that asks for its successors. -/
structure Queued (V : View) (queue : List Int) : Prop where
  waiting_eq : queue.toFinset = V.waiting
  opened_eq : V.opened = V.reported
  nodup : queue.Nodup
  unreported : ∀ v ∈ queue, v ∉ V.reported

theorem queued_initial (start : Int) : Queued (initial start) [start] where
  waiting_eq := rfl
  opened_eq := rfl
  nodup := List.nodup_singleton start
  unreported v _ := Finset.notMem_empty v

theorem Queued.eq_nil (h : V.Queued queue) (hwaiting : V.waiting = ∅) : queue = [] :=
  (List.toFinset_eq_empty_iff _).1 (h.waiting_eq.trans hwaiting)

/-- The view after `v` was reported and `queue` is left. -/
def report (V : View) (v : Int) (queue : List Int) : View :=
  ⟨queue.toFinset, insert v V.reported, insert v V.reported⟩

namespace Queued

variable (succ : Int → List Int) (h : V.Queued (v :: rest))
  (hperm : queue.Perm (Marks.newcomers V.known (succ v) ++ rest))
include h

theorem head_mem : v ∈ V.known := by
  rw [known, ← h.waiting_eq]
  exact Finset.mem_union_left _ (List.mem_toFinset.2 List.mem_cons_self)

theorem mem_of_mem_tail {c : Int} (hc : c ∈ rest) : c ∈ V.known := by
  rw [known, ← h.waiting_eq]
  exact Finset.mem_union_left _ (List.mem_toFinset.2 (List.mem_cons_of_mem v hc))

include hperm

/-- Just the successors of the reported vertex become known. -/
theorem known_report : (V.report v queue).known = V.known ∪ (succ v).toFinset := by
  ext c
  have hknown : c ∈ V.known ↔ (c = v ∨ c ∈ rest) ∨ c ∈ V.reported := by
    rw [known, ← h.waiting_eq, Finset.mem_union, List.mem_toFinset, List.mem_cons]
  have hreport : c ∈ (V.report v queue).known ↔
      ((c ∈ succ v ∧ c ∉ V.known) ∨ c ∈ rest) ∨ c = v ∨ c ∈ V.reported := by
    rw [known, report, Finset.mem_union, List.mem_toFinset, hperm.mem_iff, List.mem_append,
      Marks.mem_newcomers, Finset.mem_insert]
  rw [hreport, Finset.mem_union, List.mem_toFinset]
  constructor
  · intro hcase
    rcases hcase with (⟨hc, _⟩ | hc) | hc | hc
    · exact .inr hc
    · exact .inl (hknown.2 (.inl (.inr hc)))
    · exact .inl (hknown.2 (.inl (.inl hc)))
    · exact .inl (hknown.2 (.inr hc))
  · intro hcase
    by_cases hc : c ∈ V.known
    · rcases hknown.1 hc with (hc | hc) | hc
      · exact .inr (.inl hc)
      · exact .inl (.inr hc)
      · exact .inr (.inr hc)
    · exact .inl (.inl ⟨hcase.resolve_left hc, hc⟩)

theorem report_queued : (V.report v queue).Queued queue := by
  obtain ⟨hv, hrest⟩ := List.nodup_cons.1 h.nodup
  refine ⟨rfl, rfl, ?_, fun c hc hmem => ?_⟩
  · rw [hperm.nodup_iff]
    refine (Marks.nodup_newcomers _ _).append hrest fun c hc hc' => ?_
    exact (Marks.mem_newcomers.1 hc).2 (h.mem_of_mem_tail hc')
  · rw [hperm.mem_iff, List.mem_append, Marks.mem_newcomers] at hc
    rcases Finset.mem_insert.1 hmem with rfl | hmem
    · exact hc.elim (fun hnew => hnew.2 h.head_mem) hv
    · rcases hc with hnew | hc
      · exact hnew.2 (Finset.mem_union_right _ hmem)
      · exact h.unreported c (List.mem_cons_of_mem v hc) hmem

/-- Reporting the first vertex of the list and putting its new successors on it. -/
theorem leads_report :
    Leads (fun a b => b ∈ succ a) (fun a b => b ∈ succ a) V [v] (V.report v queue) := by
  have hknown := h.known_report succ hperm
  refine ⟨?_, fun c hc => ?_, fun u hu => ?_, ?_, List.nodup_singleton v, fun c hc => ?_⟩
  · rw [hknown]
    exact Finset.subset_union_left
  · rw [hknown, Finset.mem_union, List.mem_toFinset] at hc
    rcases hc with hc | hc
    · exact ⟨c, hc, .refl⟩
    · exact ⟨v, h.head_mem, .single hc⟩
  · rcases Finset.mem_insert.1 hu with rfl | hu
    · refine .inr fun c hc => ?_
      rw [hknown]
      exact Finset.mem_union_right _ (List.mem_toFinset.2 hc)
    · exact .inl (h.opened_eq ▸ hu)
  · show insert v V.reported = V.reported ∪ {v}
    rw [Finset.union_comm]
    rfl
  · rw [List.mem_singleton.1 hc]
    exact h.unreported v List.mem_cons_self

end Queued

/-! ## The walk that marks a vertex when it meets it -/

/-- The stack holds the waiting vertices, some of them more than once. A vertex is opened when it
is first met, and reported later. -/
structure Stacked (V : View) (stack : List Int) : Prop where
  waiting_eq : stack.toFinset = V.waiting
  reported_subset : V.reported ⊆ V.opened
  opened_subset : V.opened ⊆ V.known

theorem stacked_initial (start : Int) : Stacked (initial start) [start] where
  waiting_eq := rfl
  reported_subset := Finset.Subset.refl _
  opened_subset := Finset.empty_subset _

/-- The view after `v` was asked for its successors and `stack` is left. -/
def enter (V : View) (v : Int) (stack : List Int) : View :=
  ⟨stack.toFinset, insert v V.opened, V.reported⟩

/-- The view after `v` was taken off for good and `stack` is left. -/
def leave (V : View) (v : Int) (stack : List Int) : View :=
  ⟨stack.toFinset, V.opened, insert v V.reported⟩

namespace Stacked

theorem eq_nil {stack : List Int} (h : V.Stacked stack) (hwaiting : V.waiting = ∅) : stack = [] :=
  (List.toFinset_eq_empty_iff _).1 (h.waiting_eq.trans hwaiting)

theorem mem_known_iff {stack : List Int} (h : V.Stacked stack) {c : Int} :
    c ∈ V.known ↔ c ∈ stack ∨ c ∈ V.reported := by
  rw [known, ← h.waiting_eq, Finset.mem_union, List.mem_toFinset]

variable (succ : Int → List Int) (h : V.Stacked (v :: rest))
include h

/-- Opening a vertex puts those of its successors before it that were not opened. -/
theorem leads_enter :
    let stack := (succ v).reverse.filter (· ∉ insert v V.opened) ++ v :: rest
    (V.enter v stack).Stacked stack ∧
      Leads (fun a b => b ∈ succ a) (fun a b => b ∈ succ a) V [] (V.enter v stack) := by
  intro stack
  have hmem : ∀ c, c ∈ stack ↔ (c ∈ succ v ∧ c ∉ insert v V.opened) ∨ c ∈ v :: rest := by
    intro c
    rw [List.mem_append, List.mem_filter, List.mem_reverse, decide_eq_true_iff]
  have hknown : ∀ c, c ∈ (V.enter v stack).known ↔
      (c ∈ succ v ∧ c ∉ insert v V.opened) ∨ c ∈ V.known := by
    intro c
    rw [known, enter, Finset.mem_union, List.mem_toFinset, hmem, h.mem_known_iff, or_assoc]
  have hv : v ∈ V.known := h.mem_known_iff.2 (.inl List.mem_cons_self)
  have hsub : insert v V.opened ⊆ V.known :=
    Finset.insert_subset_iff.2 ⟨hv, h.opened_subset⟩
  have hgrow : V.known ⊆ (V.enter v stack).known := fun c hc => (hknown c).2 (.inr hc)
  refine ⟨⟨rfl, h.reported_subset.trans (Finset.subset_insert v _), hsub.trans hgrow⟩, hgrow,
    fun c hc => ?_, fun u hu => ?_, ?_, List.nodup_nil, fun c hc => absurd hc List.not_mem_nil⟩
  · rcases (hknown c).1 hc with ⟨hc, _⟩ | hc
    · exact ⟨v, hv, .single hc⟩
    · exact ⟨c, hc, .refl⟩
  · rcases Finset.mem_insert.1 hu with rfl | hu
    · refine .inr fun c hc => ?_
      by_cases hopened : c ∈ insert u V.opened
      · exact hgrow (hsub hopened)
      · exact (hknown c).2 (.inl ⟨hc, hopened⟩)
    · exact .inl hu
  · rw [List.toFinset_nil, Finset.union_empty]
    rfl

/-- Taking an opened vertex off reports it, unless it is a stale copy. -/
theorem leads_leave (hv : v ∈ V.opened) :
    (V.leave v rest).Stacked rest ∧
      Leads (fun a b => b ∈ succ a) (fun a b => b ∈ succ a) V
        (if v ∈ V.reported then [] else [v]) (V.leave v rest) := by
  have hknown : (V.leave v rest).known = V.known := by
    ext c
    rw [h.mem_known_iff, known, leave, Finset.mem_union, List.mem_toFinset, Finset.mem_insert,
      List.mem_cons, or_left_comm, or_assoc]
  refine ⟨⟨rfl, ?_, hknown ▸ h.opened_subset⟩, ?_, ?_, fun u hu => .inl hu, ?_, ?_, ?_⟩
  · exact Finset.insert_subset_iff.2 ⟨hv, h.reported_subset⟩
  · rw [hknown]
  · intro c hc
    exact ⟨c, hknown ▸ hc, .refl⟩
  · show insert v V.reported = V.reported ∪ _
    split
    · rename_i hmem
      rw [Finset.insert_eq_of_mem hmem, List.toFinset_nil, Finset.union_empty]
    · rw [Finset.union_comm]
      rfl
  · split
    · exact List.nodup_nil
    · exact List.nodup_singleton v
  · intro c hc
    split at hc
    · exact absurd hc List.not_mem_nil
    · rename_i hno
      rwa [List.mem_singleton.1 hc]

end Stacked

end View

end IndexGraph
