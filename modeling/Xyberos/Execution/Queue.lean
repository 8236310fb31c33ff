import Xyberos.Execution.Executor
import Xyberos.Execution.Graph

/-!
# Xyberos.Execution.Queue — the ready queue of a run

`waiters` and `ready` are the counters and the queue of Kahn's algorithm (`Queued`).  On a definition that is accepted
no lookup made for them fails, a turn takes one step off the queue, and when the queue is empty every step had its turn.
-/

set_option autoImplicit false

namespace Xyberos.Execution

variable {V : Type}

/-- `filter` with a condition that does not raise. -/
theorem filterM_eq {α : Type} {f : α → Except Exc Bool} {p : α → Bool} {l : List α} (h : ∀ a ∈ l, f a = .ok (p a)) :
    l.filterM f = .ok (l.filter p) := by
  have haux : ∀ (l acc : List α), (∀ a ∈ l, f a = .ok (p a)) →
      List.filterAuxM f l acc = .ok ((l.filter p).reverse ++ acc) := by
    intro l
    induction l with
    | nil => exact fun acc _ => rfl
    | cons a l ih =>
      intro acc h
      rw [List.filterAuxM, h a (by simp)]
      show List.filterAuxM f l (bif p a then a :: acc else acc) = _
      rw [ih _ fun b hb => h b (by simp [hb])]
      cases hp : p a with
      | false => simp [hp]
      | true => simp [hp]
  unfold List.filterM
  rw [haux l [] h]
  show Except.ok (List.reverse _) = _
  simp

/-- `waiters`, read as a function. -/
def RunState.waiting (st : RunState V) (stepId : String) : ℤ := (st.waiters.get? stepId).getD 0

/-- The counters and the queue of a run, when the steps in `done` had their turn. -/
structure Queued (w : Workflow V) (done : List String) (st : RunState V) : Prop where
  kahn : Kahn w.sources w.stepIds done (st.ready.map Step.id) st.waiting
  waits : ∀ s ∈ w.stepIds, (st.waiters.get? s).isSome
  steps : ∀ step ∈ st.ready, step ∈ w.steps

section Lookups

variable {w : Workflow V} {st : RunState V}

theorem stepById_ok {s : String} (h : s ∈ w.stepIds) : ∃ step ∈ w.steps, step.id = s ∧ w.stepById s = .ok step := by
  unfold Workflow.stepById
  cases hfind : w.steps.find? fun step => step.id = s with
  | some step =>
    have hid : step.id = s := by simpa using List.find?_some hfind
    exact ⟨step, List.mem_of_find?_eq_some hfind, hid, rfl⟩
  | none =>
    obtain ⟨step, hstep, hid⟩ := List.mem_map.mp h
    have := List.find?_eq_none.mp hfind step hstep
    simp [hid] at this

theorem get?_initialWaiters (s : String) :
    (initialWaiters w).get? s = if s ∈ w.stepIds then some ((w.incoming s).length : ℤ) else none := by
  have hfold : ∀ (steps : List (Step V)) (d : Dict ℤ),
      (steps.foldl (fun d step => d.set step.id ((w.incoming step.id).length : ℤ)) d).get? s =
        if s ∈ steps.map Step.id then some ((w.incoming s).length : ℤ) else d.get? s := by
    intro steps
    induction steps with
    | nil => exact fun d => rfl
    | cons step steps ih =>
      intro d
      rw [List.foldl_cons, ih, Dict.get?_set]
      by_cases hs : s ∈ steps.map Step.id
      · simp [hs]
      · by_cases he : s = step.id
        · simp [he]
        · simp [he, hs]
  exact hfold w.steps {}

/-- The loop over the edges that leave a step is a turn of Kahn's algorithm. -/
theorem relaxEdges_ok {edges : List (Edge V)} (htargets : ∀ e ∈ edges, e.target ∈ w.stepIds)
    (hwaits : ∀ s ∈ w.stepIds, (st.waiters.get? s).isSome) (hsteps : ∀ step ∈ st.ready, step ∈ w.steps) :
    ∃ st', relaxEdges w edges st = .ok st' ∧
      st' = { st with waiters := st'.waiters, ready := st'.ready } ∧
      (st'.waiting, st'.ready.map Step.id) =
        relaxTargets (edges.map Edge.target) st.waiting (st.ready.map Step.id) ∧
      (∀ s ∈ w.stepIds, (st'.waiters.get? s).isSome) ∧ ∀ step ∈ st'.ready, step ∈ w.steps := by
  induction edges generalizing st with
  | nil => exact ⟨st, rfl, rfl, rfl, hwaits, hsteps⟩
  | cons e edges ih =>
    have htarget : e.target ∈ w.stepIds := htargets e (by simp)
    obtain ⟨left, hleft⟩ := Option.isSome_iff_exists.mp (hwaits e.target htarget)
    have hwaiting : st.waiting e.target = left := by rw [RunState.waiting, hleft, Option.getD_some]
    obtain ⟨step, hstep, hid, hlookup⟩ := stepById_ok htarget
    -- the variables after this edge
    let next : RunState V := { st with
      waiters := st.waiters.set e.target (left - 1)
      ready := if left - 1 = 0 then st.ready ++ [step] else st.ready }
    have hnext : next.waiting = fun s => if s = e.target then left - 1 else st.waiting s := by
      funext s
      show (Option.getD (Dict.get? _ s) 0) = _
      rw [Dict.get?_set]
      split_ifs <;> rfl
    have hready : next.ready.map Step.id =
        if left - 1 = 0 then st.ready.map Step.id ++ [e.target] else st.ready.map Step.id := by
      show (if left - 1 = 0 then st.ready ++ [step] else st.ready).map Step.id = _
      split_ifs
      · rw [List.map_append, List.map_singleton, hid]
      · rfl
    have hwaits' : ∀ s ∈ w.stepIds, (next.waiters.get? s).isSome := by
      intro s hs
      show (Dict.get? _ s).isSome
      rw [Dict.get?_set]
      split_ifs
      · rfl
      · exact hwaits s hs
    have hsteps' : ∀ step ∈ next.ready, step ∈ w.steps := by
      intro step' h
      have h : step' ∈ (if left - 1 = 0 then st.ready ++ [step] else st.ready) := h
      split_ifs at h
      · rcases List.mem_append.mp h with h | h
        · exact hsteps step' h
        · rwa [List.mem_singleton.mp h]
      · exact hsteps step' h
    have hcons : relaxEdges w (e :: edges) st = relaxEdges w edges next := by
      rw [relaxEdges, Dict.getItem_of_get? hleft]
      show (if left - 1 = 0 then _ else _) = _
      by_cases hzero : left - 1 = 0
      · rw [if_pos hzero, hlookup]
        show relaxEdges w edges _ = _
        simp only [next, if_pos hzero]
      · rw [if_neg hzero]
        simp only [next, if_neg hzero]
    obtain ⟨st', hrelax, hsame, htargets', hw, hs⟩ := ih (fun e he => htargets e (by simp [he])) hwaits' hsteps'
    refine ⟨st', hcons.trans hrelax, hsame, ?_, hw, hs⟩
    rw [htargets', hnext, hready]
    simp only [List.map_cons, relaxTargets, hwaiting]

/-- The variables before the loop. -/
theorem initial_ok (w : Workflow V) : RunState.initial w =
    .ok { waiters := initialWaiters w, ready := w.steps.filter fun step => ((w.incoming step.id).length : ℤ) = 0 } := by
  have hfilter : (w.steps.filterM fun step => do return (← (initialWaiters w).getItem step.id) = 0) =
      Except.ok (w.steps.filter fun step => ((w.incoming step.id).length : ℤ) = 0) := by
    refine filterM_eq fun step hstep => ?_
    have hget : (initialWaiters w).get? step.id = some ((w.incoming step.id).length : ℤ) := by
      rw [get?_initialWaiters, if_pos (show step.id ∈ w.stepIds from List.mem_map_of_mem hstep)]
    rw [Dict.getItem_of_get? hget]
    rfl
  unfold RunState.initial
  dsimp only
  rw [hfilter]
  rfl

end Lookups

/-! ## The queue -/

namespace Queued

variable {w : Workflow V} {done : List String} {st : RunState V}

theorem init (hn : w.stepIds.Nodup) : ∃ st, RunState.initial w = .ok st ∧ Queued w [] st ∧
    st = { waiters := st.waiters, ready := st.ready } := by
  have hready : (w.steps.filter fun step => ((w.incoming step.id).length : ℤ) = 0).map Step.id =
      w.stepIds.filter fun s => ((w.sources s).length : ℤ) = 0 := by
    rw [Workflow.stepIds, List.filter_map]
    refine congrArg _ (List.filter_congr fun step _ => ?_)
    simp [Workflow.sources]
  refine ⟨_, initial_ok w, ⟨?_, ?_, ?_⟩, rfl⟩
  · dsimp only
    rw [hready]
    refine (Kahn.init hn).congr fun s hs => ?_
    show ((initialWaiters w).get? s).getD 0 = _
    rw [get?_initialWaiters, if_pos hs, Workflow.sources, List.length_map]
    rfl
  · intro s hs
    show ((initialWaiters w).get? s).isSome
    rw [get?_initialWaiters, if_pos hs]
    rfl
  · exact fun step h => (List.mem_filter.mp h).1

/-- A step is taken off the queue, and the edges that leave it are relaxed. -/
theorem relax (h : Queued w done st) (hg : w.Graph) {step : Step V} {ready : List (Step V)}
    (hready : st.ready = step :: ready) {st' : RunState V} (hwaiters : st'.waiters = st.waiters)
    (hready' : st'.ready = ready) :
    ∃ next, relaxEdges w (w.outgoing step.id) st' = .ok next ∧ Queued w (done ++ [step.id]) next ∧
      next = { st' with waiters := next.waiters, ready := next.ready } := by
  have hwaiting : st'.waiting = st.waiting := by
    funext s
    rw [RunState.waiting, RunState.waiting, hwaiters]
  have hkahn := h.kahn
  rw [hready, List.map_cons] at hkahn
  have hturn := hkahn.turn hg.distinct hg.target_mem
  have htargets : ∀ e ∈ w.outgoing step.id, e.target ∈ w.stepIds :=
    fun e he => hg.target_mem e (Workflow.mem_outgoing.mp he).1
  have hwaits : ∀ s ∈ w.stepIds, (st'.waiters.get? s).isSome := by
    rw [hwaiters]
    exact h.waits
  have hsteps : ∀ step ∈ st'.ready, step ∈ w.steps := by
    rw [hready']
    exact fun step' hs => h.steps step' (by simp [hready, hs])
  obtain ⟨next, hrelax, hsame, hnext, hw, hs⟩ := relaxEdges_ok htargets hwaits hsteps
  rw [hwaiting, hready'] at hnext
  refine ⟨next, hrelax, ⟨?_, hw, hs⟩, hsame⟩
  rw [show (w.outgoing step.id).map Edge.target = successors w step.id from rfl] at hnext
  rw [← hnext] at hturn
  exact hturn

/-- A step in the queue has not had its turn, and its sources have. -/
theorem head (h : Queued w done st) {step : Step V} {ready : List (Step V)} (hready : st.ready = step :: ready) :
    step ∈ w.steps ∧ step.id ∉ done ∧ ∀ s ∈ w.sources step.id, s ∈ done := by
  have hmem : step.id ∈ done ++ st.ready.map Step.id := by simp [hready]
  refine ⟨h.steps step (by simp [hready]), ?_, fun s hs => h.kahn.preds_done hmem hs⟩
  have hnodup := h.kahn.nodup
  rw [List.nodup_append] at hnodup
  exact fun hd => hnodup.2.2 _ hd _ (by simp [hready]) rfl

theorem nodup (h : Queued w done st) : done.Nodup := h.kahn.nodup.of_append_left

theorem subset (h : Queued w done st) : ∀ s ∈ done, s ∈ w.stepIds :=
  fun s hs => ((h.kahn.mem_iff s).mp (by simp [hs])).1

/-- The steps that had their turn come after their sources. -/
theorem sources_done (h : Queued w done st) {s : String} (hs : s ∈ done) : ∀ t ∈ w.sources s, t ∈ done :=
  fun t ht => h.kahn.preds_done (by simp [hs]) ht

/-- With as many rounds left as steps that had no turn, no step is left in the queue when the rounds are used up. -/
theorem ready_nil (h : Queued w done st) (hlength : done.length = w.steps.length) : st.ready = [] := by
  have hsub : (done ++ st.ready.map Step.id).Subperm w.stepIds :=
    List.subperm_of_subset h.kahn.nodup fun s hs => ((h.kahn.mem_iff s).mp hs).1
  have hle := hsub.length_le
  rw [List.length_append, List.length_map, Workflow.stepIds, List.length_map] at hle
  exact List.length_eq_zero_iff.mp (by omega)

/-- When the queue is empty, every step had its turn. -/
theorem perm (h : Queued w done st) (hg : w.Graph) (hready : st.ready = []) : done.Perm w.stepIds := by
  obtain ⟨order, ho, hmem⟩ := hg.ordered
  have hkahn := h.kahn
  rw [hready] at hkahn
  have hall : ∀ s ∈ w.stepIds, s ∈ done := by
    refine hkahn.complete ho hmem fun s _ t ht => ?_
    obtain ⟨e, he, rfl, -⟩ := Workflow.mem_sources.mp ht
    exact hg.source_mem e he
  exact (List.perm_ext_iff_of_nodup h.nodup hg.nodup).mpr fun s => ⟨h.subset s, hall s⟩

end Queued

end Xyberos.Execution
