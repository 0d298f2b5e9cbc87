import IndexGraph.Proofs.Agrees
import IndexGraph.Proofs.Walk.Step

/-
  A graph and a walk on it, used in turn: any calls to the graph between any steps of the walk.
  `Scene.run` goes through such a list of events and gathers their outcomes, and `Scene.moments`
  lists what there was before, between and after them. Edges that are there at some moment are
  those that the walk may use, and those that are there at all moments are those that it cannot
  miss; so a run leads from one view to another by these two relations (`Scene.run_leads`), by
  induction over the events from what one step does.
  `Scene.sound` reads off what holds for every walk from a start: no vertex is reported twice, each
  is reached by edges that were there at some time, none is missed that could be reached at the
  beginning unless an edge was lost, each step answers, and a walk that has ended stays so. It asks
  of the graph that the ends of all edges can be marked, and that no call spoils this.
-/

namespace IndexGraph

/-- A graph and a walk on it. -/
structure Scene (γ : Type) where
  graph : γ
  walk : Walk

/-- The walk goes on by a step, or a call is made to the graph. -/
inductive Event (κ : Type) where
  | next
  | call (c : κ)

/-- What an event comes to if it is not refused. -/
inductive Outcome (β : Type) where
  | vertex (v : Option Int)
  | answer (b : β)
  deriving DecidableEq

/-- The vertices among the outcomes. -/
def reported {β : Type} (outcomes : List (Except Fault (Outcome β))) : List Int :=
  outcomes.filterMap fun
    | .ok (.vertex v) => v
    | _ => none

namespace Scene

section run

variable {γ κ β : Type} (network : γ → Network) (call : γ → κ → Reply γ β)

/-- What an event does; a step of the walk sees the graph as it is then. -/
def step (s : Scene γ) : Event κ → Reply (Scene γ) (Outcome β)
  | .next => ((s.walk.next (network s.graph)).mapState fun w => { s with walk := w }).mapValue
      .vertex
  | .call c => ((call s.graph c).mapState fun g => { s with graph := g }).mapValue .answer

/-- The outcomes of a list of events, and the scene after them. -/
def run (s : Scene γ) (events : List (Event κ)) : List (Except Fault (Outcome β)) × Scene γ :=
  answers (step network call) s events

/-- The scenes before, between and after the events. -/
def moments (s : Scene γ) : List (Event κ) → List (Scene γ)
  | [] => [s]
  | e :: events => s :: moments (s.step network call e).state events

/-- The edges of the graph at this moment. -/
def Edge (s : Scene γ) (u v : Int) : Prop := v ∈ (network s.graph).successors u

/-- No edge that there is at first is missing at any moment. -/
def Keeps (s : Scene γ) (events : List (Event κ)) : Prop :=
  ∀ t ∈ s.moments network call events, ∀ u v, s.Edge network u v → t.Edge network u v

/-- What holds of a run of a walk from `start`. -/
structure Sound (start : Int) (s : Scene γ) (events : List (Event κ)) : Prop where
  /-- No vertex is reported twice. -/
  nodup : (reported (s.run network call events).1).Nodup
  /-- What is reported is reached by edges that were there at some moment each. -/
  reached : ∀ v ∈ reported (s.run network call events).1,
    Relation.ReflTransGen
      (fun a b => ∃ t ∈ s.moments network call events, t.Edge network a b) start v
  /-- If no edge is lost, then when the walk says that it has ended, all that could be reached at
  first has been reported. -/
  complete : s.Keeps network call events →
    ((s.run network call events).2.step network call .next).result = .ok (.vertex none) →
    ∀ v, Reaches (network s.graph).successors start v →
      v ∈ reported (s.run network call events).1
  /-- A step is not refused, if there is room for the start. -/
  answered : Markable start →
    ∃ v, ((s.run network call events).2.step network call .next).result = .ok (.vertex v)
  /-- Once the walk has said that it has ended, it says so whenever it is asked again. -/
  ended : ((s.run network call events).2.step network call .next).result = .ok (.vertex none) →
    ∀ later : List (Event κ),
      ((s.run network call (events ++ .next :: later)).2.step network call .next).result =
        .ok (.vertex none)

end run

section proof

variable {γ κ β : Type} {network : γ → Network} {call : γ → κ → Reply γ β} {s : Scene γ}
  {e : Event κ} {events : List (Event κ)}

theorem run_cons : s.run network call (e :: events) =
    ((s.step network call e).result :: ((s.step network call e).state.run network call events).1,
      ((s.step network call e).state.run network call events).2) := rfl

theorem run_append (events later : List (Event κ)) : ∀ s : Scene γ,
    (s.run network call (events ++ later)).2 =
      ((s.run network call events).2.run network call later).2 := by
  induction events with
  | nil => exact fun s => rfl
  | cons e events ih => exact fun s => ih _

theorem reported_cons (r : Except Fault (Outcome β)) (outcomes : List (Except Fault (Outcome β))) :
    reported (r :: outcomes) = reported [r] ++ reported outcomes := by
  unfold reported
  rw [← List.filterMap_append]
  rfl

theorem result_next : (s.step network call .next).result =
    (s.walk.next (network s.graph)).result.map .vertex := rfl

/-- A call reports no vertex. -/
theorem reported_call (c : κ) : reported [(s.step network call (.call c)).result] = [] := by
  show reported [(call s.graph c).result.map Outcome.answer] = []
  cases (call s.graph c).result <;> rfl

theorem run_mem_moments (events : List (Event κ)) : ∀ s : Scene γ,
    (s.run network call events).2 ∈ s.moments network call events := by
  induction events with
  | nil => exact fun s => List.mem_singleton_self s
  | cons e events ih => exact fun s => List.mem_cons_of_mem _ (ih _)

/-! ## A finished walk, and one that cannot begin -/

theorem walk_step {w : Walk} (hw : ∀ g, (w.next g).state = w) (h : s.walk = w) (e : Event κ) :
    (s.step network call e).state.walk = w := by
  cases e with
  | next =>
    show (s.walk.next (network s.graph)).state = w
    rw [h]
    exact hw _
  | call c => exact h

/-- A walk that no step changes, on whatever graph, is not changed by any run. -/
theorem walk_run {w : Walk} (hw : ∀ g, (w.next g).state = w) (events : List (Event κ)) :
    ∀ s : Scene γ, s.walk = w → (s.run network call events).2.walk = w :=
  answers_invariant (fun _ e h => walk_step hw h e) events

/-- A walk whose steps are all refused reports nothing. -/
theorem reported_run_eq_nil {w : Walk} (hw : ∀ g, (w.next g).state = w)
    (hno : ∀ g, ∃ e, (w.next g).result = .error e) (events : List (Event κ)) :
    ∀ s : Scene γ, s.walk = w → reported (s.run network call events).1 = [] := by
  induction events with
  | nil => exact fun s _ => rfl
  | cons e events ih =>
    intro s h
    rw [run_cons, reported_cons, ih _ (walk_step hw h e), List.append_nil]
    cases e with
    | next =>
      obtain ⟨fault, hfault⟩ := hno (network s.graph)
      rw [result_next, h, hfault]
      rfl
    | call c => exact reported_call c

/-- A walk from a vertex that cannot be marked stands still. -/
theorem sound_of_not_markable {start : Int} (h0 : 0 ≤ start) (hno : ¬ Markable start)
    (hs : s.walk = .postOrder (.startAt start)) (events : List (Event κ)) :
    Sound network call start s events := by
  have hstate : ∀ g, ((Walk.postOrder (.startAt start)).next g).state = _ := fun g =>
    (Walk.next_of_not_markable h0 hno g).2
  have herror := fun g => (Walk.next_of_not_markable h0 hno g).1
  have hnone : reported (s.run network call events).1 = [] :=
    reported_run_eq_nil hstate herror events s hs
  have hgoes : ((s.run network call events).2.step network call .next).result ≠
      .ok (.vertex none) := by
    obtain ⟨fault, hfault⟩ := herror (network (s.run network call events).2.graph)
    have hwalk : (s.run network call events).2.walk = _ := walk_run hstate events s hs
    rw [result_next, hwalk, hfault]
    intro hend
    cases hend
  refine ⟨?_, fun v hv => ?_, fun _ hend => absurd hend hgoes, fun hyes => absurd hyes hno,
    fun hend => absurd hend hgoes⟩
  · rw [hnone]
    exact List.nodup_nil
  · rw [hnone] at hv
    exact absurd hv List.not_mem_nil

/-- A finished walk stays finished, whatever becomes of the graph. -/
theorem ended_of_finished (h : s.walk.Finished) (events : List (Event κ)) :
    ((s.run network call events).2.step network call .next).result = .ok (.vertex none) := by
  have hwalk : (s.run network call events).2.walk = s.walk :=
    walk_run (fun g => (h.next g).2) events s rfl
  rw [result_next, hwalk, (h.next _).1]
  rfl

/-! ## A walk on its way -/

variable {Good : γ → Prop} {V : View}
  (hgood : ∀ g, Good g → ∀ u, ∀ c ∈ (network g).successors u, Markable c)

include hgood in
/-- A step of the walk uses the edges there are at the moment. -/
theorem next_leads (hs : Good s.graph) (hV : s.walk.Shows V) (hmark : ∀ v ∈ V.known, Markable v) :
    ∃ answer V', (s.step network call .next).result = .ok (.vertex answer) ∧
      (s.step network call .next).state.walk.Shows V' ∧
      V.Leads (s.Edge network) (s.Edge network) answer.toList V' ∧
      (answer = none → V'.waiting = ∅) := by
  obtain ⟨answer, V', hresult, hshows, hleads, hnone⟩ := hV.advances (hgood _ hs) hmark
  refine ⟨answer, V', ?_, hshows, hleads, hnone⟩
  rw [result_next, hresult]
  rfl

include hgood in
/-- A call leaves the walk where it is. -/
theorem step_leads (hs : Good s.graph) (hV : s.walk.Shows V) (hmark : ∀ v ∈ V.known, Markable v)
    (e : Event κ) : ∃ V', (s.step network call e).state.walk.Shows V' ∧
      V.Leads (s.Edge network) (s.Edge network) (reported [(s.step network call e).result]) V' := by
  cases e with
  | next =>
    obtain ⟨answer, V', hresult, hshows, hleads, _⟩ := next_leads hgood hs hV hmark
    have hreported : reported [(s.step network call .next).result] = answer.toList := by
      rw [hresult]
      cases answer <;> rfl
    exact ⟨V', hshows, hreported ▸ hleads⟩
  | call c =>
    rw [reported_call]
    exact ⟨V, hV, .refl _ _ V⟩

variable (hcall : ∀ g c, Good g → Good (call g c).state)

include hcall in
theorem good_step (hs : Good s.graph) (e : Event κ) : Good (s.step network call e).state.graph := by
  cases e with
  | next => exact hs
  | call c => exact hcall _ c hs

include hgood hcall

omit hgood in
/-- Where no event of a run loses an edge, the run loses none. -/
theorem keeps_of_step (fine : Event κ × Except Fault (Outcome β) → Prop)
    (hstep : ∀ (s : Scene γ) e, Good s.graph → fine (e, (s.step network call e).result) →
      ∀ u v, s.Edge network u v → (s.step network call e).state.Edge network u v)
    (events : List (Event κ)) : ∀ s : Scene γ, Good s.graph →
      (∀ made ∈ events.zip (s.run network call events).1, fine made) →
      s.Keeps network call events := by
  induction events with
  | nil =>
    intro s _ _ t ht u v he
    rwa [List.mem_singleton.1 ht]
  | cons e events ih =>
    intro s hs hfine t ht u v he
    rw [run_cons, List.zip_cons_cons] at hfine
    rcases List.mem_cons.1 ht with rfl | ht
    · exact he
    · refine ih _ (good_step hcall hs e) (fun made hmade => ?_) t ht u v ?_
      · exact hfine made (List.mem_cons_of_mem _ hmade)
      · exact hstep s e hs (hfine _ List.mem_cons_self) u v he

/-- A run uses the edges there are at some moment, and misses none that is there all the time. -/
theorem run_leads (events : List (Event κ)) : ∀ (s : Scene γ) (V : View), Good s.graph →
    s.walk.Shows V → (∀ v ∈ V.known, Markable v) →
    ∃ V', (s.run network call events).2.walk.Shows V' ∧
      Good (s.run network call events).2.graph ∧ (∀ v ∈ V'.known, Markable v) ∧
      V.Leads (fun a b => ∃ t ∈ s.moments network call events, t.Edge network a b)
        (fun a b => ∀ t ∈ s.moments network call events, t.Edge network a b)
        (reported (s.run network call events).1) V' := by
  induction events with
  | nil => exact fun s V hs hV hmark => ⟨V, hV, hs, hmark, .refl _ _ V⟩
  | cons e events ih =>
    intro s V hs hV hmark
    obtain ⟨V₁, hV₁, hfirst⟩ := step_leads hgood hs hV hmark e
    have hmark₁ := hfirst.forall_known hmark fun u v he => hgood _ hs u v he
    obtain ⟨V', hV', hs', hmark', hrest⟩ :=
      ih (s.step network call e).state V₁ (good_step hcall hs e) hV₁ hmark₁
    refine ⟨V', hV', hs', hmark', ?_⟩
    rw [run_cons, reported_cons]
    refine .trans (hfirst.mono (fun a b he => ⟨s, List.mem_cons_self, he⟩) fun a b hall =>
      hall s List.mem_cons_self) (hrest.mono (fun a b hex => ?_) fun a b hall t ht =>
      hall t (List.mem_cons_of_mem _ ht))
    obtain ⟨t, ht, he⟩ := hex
    exact ⟨t, List.mem_cons_of_mem _ ht, he⟩

/-- Whatever happens between its steps, what a walk reports is sound. -/
theorem sound {start : Int} (h0 : 0 ≤ start) (hs : Good s.graph) (hw : s.walk.Begins start)
    (events : List (Event κ)) : Sound network call start s events := by
  rcases hw.shows h0 with ⟨hstart, hV⟩ | ⟨hno, hwalk⟩
  · have hmark : ∀ v ∈ (View.initial start).known, Markable v := by
      intro v hv
      rw [View.known_initial] at hv
      rwa [Finset.mem_singleton.1 hv]
    obtain ⟨V, hV, hend, hmark, hleads⟩ := run_leads hgood hcall events s _ hs hV hmark
    obtain ⟨answer, V', hresult, hV', hlast, hnone⟩ :=
      next_leads hgood hend hV hmark
    -- where the walk says that it has ended, nothing waits
    have hwaiting : ((s.run network call events).2.step network call .next).result =
        .ok (.vertex none) → answer = none ∧ V'.waiting = ∅ := by
      intro hstop
      rw [hresult] at hstop
      cases hstop
      exact ⟨rfl, hnone rfl⟩
    refine ⟨hleads.nodup, fun v hv => hleads.reaches_of_mem hv, fun hkeeps hstop v hr => ?_,
      fun _ => ⟨answer, hresult⟩, fun hstop later => ?_⟩
    · obtain ⟨rfl, hempty⟩ := hwaiting hstop
      have hmoment : (s.run network call events).2 ∈ s.moments network call events :=
        run_mem_moments events s
      have hall := hleads.trans (hlast.mono (fun a b he => ⟨_, hmoment, he⟩)
        fun a b hall => hall _ hmoment)
      rw [Option.toList_none, List.append_nil] at hall
      refine hall.mem_of_reaches hempty hV'.reported_subset ?_
      exact Relation.ReflTransGen.mono (fun a b he t ht => hkeeps t ht a b he) _ _ hr
    · obtain ⟨_, hempty⟩ := hwaiting hstop
      rw [run_append, run_cons]
      exact ended_of_finished (hV'.finished hempty) later
  · exact sound_of_not_markable h0 hno hwalk events

end proof

end Scene

end IndexGraph
