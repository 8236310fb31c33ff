import Xyberos.Base.Dag
import Xyberos.Execution.Validation

/-!
# Xyberos.Execution.Graph — the graph of a validated definition

`_validate_acyclic` counts the steps that Kahn's algorithm takes off its queue.  If it counts all of them, the order
in which they were taken off is an order of the graph (`graph_of_validate`).
-/

set_option autoImplicit false

namespace Xyberos

variable {V : Type}

namespace Workflow

/-- The sources of the edges entering a step, in declaration order. -/
def sources (w : Workflow V) (stepId : String) : List String := (w.incoming stepId).map Edge.source

/-- The definition is a finite acyclic graph without duplicates. -/
structure Graph (w : Workflow V) : Prop where
  nodup : w.stepIds.Nodup
  distinct : (w.edges.map fun e => (e.source, e.target)).Nodup
  source_mem : ∀ e ∈ w.edges, e.source ∈ w.stepIds
  target_mem : ∀ e ∈ w.edges, e.target ∈ w.stepIds
  ordered : ∃ order, Ordered w.sources order ∧ ∀ s ∈ w.stepIds, s ∈ order

/-- The predicates of the definition do not raise. -/
def Total (w : Workflow V) : Prop := ∀ e ∈ w.edges, ∀ p ∈ e.when, ∀ output, ∃ b, p output = .ok b

section Edges

variable {w : Workflow V} {s t : String} {e e' : Edge V}

theorem mem_incoming : e ∈ w.incoming s ↔ e ∈ w.edges ∧ e.target = s := by simp [incoming]

theorem mem_outgoing : e ∈ w.outgoing s ↔ e ∈ w.edges ∧ e.source = s := by simp [outgoing]

theorem mem_sources : t ∈ w.sources s ↔ ∃ e ∈ w.edges, e.source = t ∧ e.target = s := by
  simp [sources, incoming, and_assoc, and_comm]

theorem mem_successors : t ∈ successors w s ↔ s ∈ w.sources t := by
  rw [mem_sources]
  simp [successors, outgoing, and_assoc]

/-- Two edges between the same steps are the same edge. -/
theorem eq_of_distinct {edges : List (Edge V)} (hd : (edges.map fun e => (e.source, e.target)).Nodup)
    (he : e ∈ edges) (he' : e' ∈ edges) (hs : e.source = e'.source) (ht : e.target = e'.target) : e = e' :=
  List.inj_on_of_nodup_map hd he he' (by rw [hs, ht])

theorem nodup_sources (hd : (w.edges.map fun e => (e.source, e.target)).Nodup) (s : String) :
    (w.sources s).Nodup := by
  have hedges : w.edges.Nodup := List.Nodup.of_map _ hd
  refine List.Nodup.map_on ?_ (hedges.filter _)
  intro e he e' he' hs
  obtain ⟨he, ht⟩ := mem_incoming.mp he
  obtain ⟨he', ht'⟩ := mem_incoming.mp he'
  exact eq_of_distinct hd he he' hs (ht.trans ht'.symm)

theorem nodup_successors (hd : (w.edges.map fun e => (e.source, e.target)).Nodup) (s : String) :
    (successors w s).Nodup := by
  have hedges : w.edges.Nodup := List.Nodup.of_map _ hd
  refine List.Nodup.map_on ?_ (hedges.filter _)
  intro e he e' he' ht
  obtain ⟨he, hs⟩ := mem_outgoing.mp he
  obtain ⟨he', hs'⟩ := mem_outgoing.mp he'
  exact eq_of_distinct hd he he' (hs.trans hs'.symm) ht

end Edges

end Workflow

/-! ## `_validate_acyclic` is Kahn's algorithm -/

theorem relaxTargets_eq (targets : List String) (indegree : String → ℤ) (ready : List String) :
    relaxTargets targets indegree ready = relax targets indegree ready := by
  induction targets generalizing indegree ready with
  | nil => rfl
  | cons target targets ih => exact ih _ _

section Validate

variable {w : Workflow V}

/-- One turn of the queue of a definition. -/
theorem Kahn.turn (hd : (w.edges.map fun e => (e.source, e.target)).Nodup)
    (ht : ∀ e ∈ w.edges, e.target ∈ w.stepIds) {done ready : List String} {waiters : String → ℤ} {s : String}
    (h : Kahn w.sources w.stepIds done (s :: ready) waiters) :
    Kahn w.sources w.stepIds (done ++ [s]) (relaxTargets (successors w s) waiters ready).2
      (relaxTargets (successors w s) waiters ready).1 := by
  rw [relaxTargets_eq]
  refine h.pop (Workflow.nodup_sources hd) (Workflow.nodup_successors hd s) (fun t => Workflow.mem_successors) ?_
  intro t hs
  obtain ⟨e, he, -, rfl⟩ := Workflow.mem_sources.mp (Workflow.mem_successors.mp hs)
  exact ht e he

/-- However many rounds the loop has left, its count is that of an ordered list of steps. -/
theorem visitReady_ordered (hd : (w.edges.map fun e => (e.source, e.target)).Nodup)
    (ht : ∀ e ∈ w.edges, e.target ∈ w.stepIds) (fuel : ℕ) {done ready : List String} {waiters : String → ℤ}
    (h : Kahn w.sources w.stepIds done ready waiters) :
    ∃ order : List String, order.Nodup ∧ (∀ s ∈ order, s ∈ w.stepIds) ∧ Ordered w.sources order ∧
      (visitReady w fuel ready waiters done.length).1 = order.length := by
  have stop : done.Nodup ∧ (∀ s ∈ done, s ∈ w.stepIds) ∧ Ordered w.sources done :=
    ⟨h.nodup.of_append_left, fun s hs => ((h.mem_iff s).mp (List.mem_append_left _ hs)).1, h.ordered⟩
  induction fuel generalizing done ready waiters with
  | zero => exact ⟨done, stop.1, stop.2.1, stop.2.2, rfl⟩
  | succ fuel ih =>
    cases ready with
    | nil => exact ⟨done, stop.1, stop.2.1, stop.2.2, rfl⟩
    | cons s ready =>
      have hturn := h.turn hd ht
      have hstop : (done ++ [s]).Nodup ∧ (∀ t ∈ done ++ [s], t ∈ w.stepIds) ∧ Ordered w.sources (done ++ [s]) :=
        ⟨hturn.nodup.of_append_left, fun t hs => ((hturn.mem_iff t).mp (List.mem_append_left _ hs)).1,
          hturn.ordered⟩
      obtain ⟨order, hn, hmem, ho, hlen⟩ := ih hturn hstop
      refine ⟨order, hn, hmem, ho, ?_⟩
      rw [List.length_append, List.length_singleton] at hlen
      exact hlen

/-- **A definition that is accepted is a finite acyclic graph.** -/
theorem graph_of_validate (h : w.validate = .ok ()) : w.Graph := by
  obtain ⟨-, hsteps, hedges, hacyclic⟩ := Workflow.validate_ok h
  obtain ⟨hnodup, -, -⟩ := validateSteps_ok hsteps
  obtain ⟨hdistinct, -, hmem⟩ := validateEdges_ok hedges
  refine ⟨hnodup, hdistinct, fun e he => (hmem e he).1, fun e he => (hmem e he).2, ?_⟩
  have hinit : Kahn w.sources w.stepIds [] (w.stepIds.filter fun s => ((w.incoming s).length : ℤ) = 0)
      fun s => (w.incoming s).length := by
    have h0 : Kahn w.sources w.stepIds [] _ _ := Kahn.init (show w.stepIds.Nodup from hnodup)
    simpa only [Workflow.sources, List.length_map] using h0
  obtain ⟨order, hn, hsub, ho, hlen⟩ :=
    visitReady_ordered hdistinct (fun e he => (hmem e he).2) (2 * w.stepIds.length) hinit
  refine ⟨order, ho, ?_⟩
  -- the loop counted every step
  have hcount : order.length = w.stepIds.length := by
    unfold validateAcyclic at hacyclic
    dsimp only at hacyclic
    split_ifs at hacyclic with hvisited
    exact hlen.symm.trans hvisited
  have hperm : order.Perm w.stepIds :=
    (List.subperm_of_subset hn hsub).perm_of_length_le (le_of_eq hcount.symm)
  exact fun s hs => hperm.mem_iff.mpr hs

end Validate

end Xyberos
