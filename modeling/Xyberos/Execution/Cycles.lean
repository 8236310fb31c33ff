import Xyberos.Execution.Graph

/-!
# Xyberos.Execution.Cycles — what `_validate_acyclic` says of a definition with a cycle

Kahn's algorithm leaves the steps behind a cycle: those on one, and those downstream of one.  `_describe_cycle` starts
at the smallest of them and follows the first edge of each.  The walk ends, with a cycle if it comes back to itself,
and with a path that is none if it comes to a step without edges.
-/

set_option autoImplicit false

namespace Xyberos

variable {V : Type}

namespace Workflow

/-! ## Cycles -/

variable (w : Workflow V)

/-- An edge leads from a step to another. -/
def Edges (s t : String) : Prop := s ∈ w.sources t

/-- The definition contains a cycle. -/
def Cyclic : Prop := ∃ s, Relation.TransGen w.Edges s s

/-- A path along edges that ends where it starts. -/
def IsCycle (path : List String) : Prop := ∃ s mid, path = s :: (mid ++ [s]) ∧ path.IsChain w.Edges

/-- The step is on a cycle or downstream of one. -/
def Behind (s : String) : Prop := ∃ t, Relation.TransGen w.Edges t t ∧ Relation.ReflTransGen w.Edges t s

/-- The first edge of a step. -/
def First (s t : String) : Prop := (successors w s).head? = some t

/-- Following first edges, one does not come to a step without edges. -/
def Runs (s : String) : Prop := ∀ t, Relation.ReflTransGen w.First s t → successors w t ≠ []

/-- The steps have different ids, and the edges connect declared, different steps without duplicates. -/
structure Wired : Prop where
  nodup : w.stepIds.Nodup
  distinct : (w.edges.map fun e => (e.source, e.target)).Nodup
  source_mem : ∀ e ∈ w.edges, e.source ∈ w.stepIds
  target_mem : ∀ e ∈ w.edges, e.target ∈ w.stepIds
  unlike : ∀ e ∈ w.edges, e.source ≠ e.target

variable {w} {s t : String}

theorem mem_successors_iff : t ∈ successors w s ↔ w.Edges s t := mem_successors

theorem First.edges (h : w.First s t) : w.Edges s t := mem_successors_iff.mp (List.mem_of_mem_head? h)

theorem First.unique {t' : String} (h : w.First s t) (h' : w.First s t') : t = t' :=
  Option.some.inj (h.symm.trans h')

theorem Behind.next (h : w.Behind s) (hst : w.Edges s t) : w.Behind t := by
  obtain ⟨u, hu, hus⟩ := h
  exact ⟨u, hu, hus.tail hst⟩

theorem IsCycle.not_nodup {path : List String} (h : w.IsCycle path) : ¬ path.Nodup := by
  obtain ⟨s, mid, rfl, -⟩ := h
  simp

end Workflow

/-! ## What Kahn's algorithm leaves -/

section Left

variable {w : Workflow V}

/-- With enough rounds the queue empties. -/
theorem visitReady_complete (hd : (w.edges.map fun e => (e.source, e.target)).Nodup)
    (ht : ∀ e ∈ w.edges, e.target ∈ w.stepIds) (fuel : ℕ) {done ready : List String} {waiters : String → ℤ}
    (h : Kahn w.sources w.stepIds done ready waiters) (hfuel : w.stepIds.length ≤ fuel + done.length) :
    ∃ done', Kahn w.sources w.stepIds done' [] (visitReady w fuel ready waiters done.length).2 ∧
      (visitReady w fuel ready waiters done.length).1 = done'.length := by
  induction fuel generalizing done ready waiters with
  | zero =>
    have hsub : ∀ s ∈ done ++ ready, s ∈ w.stepIds := fun s hs => ((h.mem_iff s).mp hs).1
    have hlen := (List.subperm_of_subset h.nodup hsub).length_le
    rw [List.length_append] at hlen
    have hready : ready = [] := List.length_eq_zero_iff.mp (by omega)
    subst hready
    exact ⟨done, h, rfl⟩
  | succ fuel ih =>
    cases ready with
    | nil => exact ⟨done, h, rfl⟩
    | cons s ready =>
      have hturn := h.turn hd ht
      have hlen : (done ++ [s]).length = done.length + 1 := by simp
      have := ih hturn (by omega)
      rwa [hlen] at this

/-- A step is left exactly if it is behind a cycle. -/
theorem behind_iff (hw : w.Wired) {done : List String} {waiters : String → ℤ}
    (h : Kahn w.sources w.stepIds done [] waiters) {s : String} (hs : s ∈ w.stepIds) :
    w.Behind s ↔ s ∉ done := by
  have hdone : ∀ x, x ∈ done ↔ x ∈ w.stepIds ∧ waiters x = 0 := by
    intro x
    have := h.mem_iff x
    rwa [List.append_nil] at this
  have hback : ∀ x ∈ done, ∀ y ∈ w.sources x, y ∈ done :=
    fun x hx y hy => h.preds_done (List.mem_append_left _ hx) hy
  constructor
  · rintro ⟨t, ht, hts⟩ hsd
    have htd : t ∈ done := by
      induction hts with
      | refl => exact hsd
      | tail _ hlast ih =>
        have hmem := hback _ hsd _ hlast
        exact ih ((hdone _).mp hmem).1 hmem
    have hcycle : Relation.TransGen (fun x y => y ∈ w.sources x) t t := by
      have := Relation.transGen_swap.mpr ht
      exact this
    exact h.ordered.not_transGen htd hcycle
  · intro hsd
    classical
    let ancestors := w.stepIds.filter fun t => t ∉ done ∧ Relation.ReflTransGen w.Edges t s
    have hmem : ∀ {t}, t ∈ ancestors ↔ t ∈ w.stepIds ∧ t ∉ done ∧ Relation.ReflTransGen w.Edges t s := by
      intro t
      simp [ancestors]
    have hne : ancestors ≠ [] := List.ne_nil_of_mem (hmem.mpr ⟨hs, hsd, .refl⟩)
    obtain ⟨t, ht, hcycle⟩ := exists_cycle (R := w.Edges) hne fun x hx => by
      obtain ⟨hxs, hxd, hxr⟩ := hmem.mp hx
      -- a step that is left waits for another one
      have hwaits : waiters x ≠ 0 := fun h0 => hxd ((hdone x).mpr ⟨hxs, h0⟩)
      rw [h.waits x hxs] at hwaits
      obtain ⟨y, hy⟩ := List.exists_mem_of_length_pos (l := (w.sources x).filter (· ∉ done)) (by omega)
      obtain ⟨hyx, hyd⟩ := List.mem_filter.mp hy
      obtain ⟨e, he, rfl, -⟩ := Workflow.mem_sources.mp hyx
      exact ⟨e.source, hmem.mpr ⟨hw.source_mem e he, by simpa using hyd, .head hyx hxr⟩, hyx⟩
    exact ⟨t, hcycle, (hmem.mp ht).2.2⟩

end Left

/-! ## The walk -/

section Walk

variable {w : Workflow V}

/-- The path walked so far, latest step first: each step is the first target of the one before. -/
structure Walked (w : Workflow V) (remaining : List String) (current : String) (path : List String) : Prop where
  latest : path.head? = some current
  nodup : path.Nodup
  mem : ∀ s ∈ path, s ∈ remaining
  chain : path.IsChain fun t s => w.First s t

/-- The walk, once it comes back to a step of its path, never leaves it. -/
theorem Walked.closed {remaining path : List String} {current : String} (h : Walked w remaining current path)
    {candidate : String} (hfirst : w.First current candidate) (hmem : candidate ∈ path) :
    ∀ t, Relation.ReflTransGen w.First current t → t ∈ path ∧ ∃ u ∈ path, w.First t u := by
  have hstep : ∀ s ∈ path, ∃ u ∈ path, w.First s u := by
    have haux : ∀ l : List String, ∀ current', l.head? = some current' → (l.IsChain fun t s => w.First s t) →
        ∀ s ∈ l, s = current' ∨ ∃ u ∈ l, w.First s u := by
      intro l
      induction l with
      | nil => exact fun _ h => absurd h (by simp)
      | cons a l ih =>
        intro current' hhead hchain s hs
        obtain rfl : a = current' := Option.some.inj hhead
        rcases List.mem_cons.mp hs with rfl | hs
        · exact .inl rfl
        · cases l with
          | nil => exact absurd hs List.not_mem_nil
          | cons b l =>
            obtain ⟨hab, hl⟩ := List.isChain_cons_cons.mp hchain
            rcases ih b rfl hl s hs with rfl | ⟨u, hu, hsu⟩
            · exact .inr ⟨a, by simp, hab⟩
            · exact .inr ⟨u, List.mem_cons_of_mem _ hu, hsu⟩
    intro s hs
    rcases haux path current h.latest h.chain s hs with rfl | hu
    · exact ⟨candidate, hmem, hfirst⟩
    · exact hu
  intro t ht
  have htp : t ∈ path := by
    induction ht with
    | refl => exact List.mem_of_mem_head? h.latest
    | tail _ hlast ih =>
      obtain ⟨u, hu, hsu⟩ := hstep _ ih
      rwa [hsu.unique hlast] at hu
  exact ⟨htp, hstep t htp⟩

theorem Walked.start {remaining : List String} {s : String} (hs : s ∈ remaining) : Walked w remaining s [s] where
  latest := rfl
  nodup := List.nodup_singleton s
  mem t ht := by rwa [List.mem_singleton.mp ht]
  chain := List.isChain_singleton s

theorem Walked.next {remaining path : List String} {current candidate : String}
    (h : Walked w remaining current path) (hfirst : w.First current candidate) (hmem : candidate ∈ remaining)
    (hfresh : candidate ∉ path) : Walked w remaining candidate (candidate :: path) where
  latest := rfl
  nodup := List.nodup_cons.mpr ⟨hfresh, h.nodup⟩
  mem s hs := by
    rcases List.mem_cons.mp hs with rfl | hs
    · exact hmem
    · exact h.mem s hs
  chain := by
    have hlatest := h.latest
    have hchain := h.chain
    cases path with
    | nil => exact List.isChain_singleton _
    | cons b path =>
      obtain rfl : b = current := Option.some.inj hlatest
      exact List.isChain_cons_cons.mpr ⟨hfirst, hchain⟩

/-- The part of the path from a step it contains, closed by that step. -/
theorem Walked.isCycle {remaining path : List String} {current candidate : String}
    (h : Walked w remaining current path) (hfirst : w.First current candidate) (hmem : candidate ∈ path) :
    w.IsCycle ((path.reverse.dropWhile fun s => s ≠ candidate) ++ [candidate]) := by
  obtain ⟨late, early, hpath⟩ := List.append_of_mem hmem
  have hfresh : ∀ s ∈ early.reverse, (decide (s ≠ candidate)) = true := by
    intro s hs
    have hn := h.nodup
    rw [hpath, List.nodup_append] at hn
    have hne : s ≠ candidate := by
      rintro rfl
      exact (List.nodup_cons.mp hn.2.1).1 (List.mem_reverse.mp hs)
    simpa using hne
  have hdrop : path.reverse.dropWhile (fun s => s ≠ candidate) = candidate :: late.reverse := by
    rw [hpath, List.reverse_append, List.reverse_cons, List.append_assoc, List.dropWhile_append_of_pos hfresh]
    simp
  refine ⟨candidate, late.reverse, by rw [hdrop, List.cons_append], ?_⟩
  -- read backwards, the path leads from the candidate to the current step
  have hchain : (candidate :: late ++ [candidate]).IsChain fun t s => w.First s t := by
    have hl : (late ++ [candidate]).IsChain fun t s => w.First s t := by
      have := h.chain
      rw [hpath, show late ++ candidate :: early = (late ++ [candidate]) ++ early by simp] at this
      exact this.left_of_append
    have hhead : (late ++ [candidate]).head? = some current := by
      have := h.latest
      rw [hpath] at this
      cases late with
      | nil => exact this
      | cons a late => exact this
    rw [List.cons_append]
    cases hlist : late ++ [candidate] with
    | nil => simp at hlist
    | cons a l =>
      rw [hlist] at hl hhead
      obtain rfl : a = current := Option.some.inj hhead
      exact List.isChain_cons_cons.mpr ⟨hfirst, hl⟩
  have hreverse : (candidate :: (late.reverse ++ [candidate])).IsChain w.First := by
    have := List.isChain_reverse.mpr hchain
    simpa using this
  rw [hdrop, List.cons_append]
  exact hreverse.imp fun _ _ hst => hst.edges

/-- **The walk.**  It ends within the rounds it has, in a cycle if first edges never run out, and else in a path without
repetition. -/
theorem Walked.describe {remaining : List String}
    (hclosed : ∀ s ∈ remaining, ∀ t, w.Edges s t → t ∈ remaining) (fuel : ℕ) {current : String} {path : List String}
    (h : Walked w remaining current path) (hfuel : remaining.length + 2 ≤ fuel + path.length) :
    (∀ more, describeCycle w remaining (fuel + more) current path = describeCycle w remaining fuel current path) ∧
      ((∃ t, Relation.ReflTransGen w.First current t ∧ successors w t = []) ∧
          (describeCycle w remaining fuel current path).Nodup ∨
        w.Runs current ∧ w.IsCycle (describeCycle w remaining fuel current path)) := by
  induction fuel generalizing current path with
  | zero =>
    have := (List.subperm_of_subset h.nodup h.mem).length_le
    omega
  | succ fuel ih =>
    have hcurrent : current ∈ remaining := h.mem _ (List.mem_of_mem_head? h.latest)
    have hall : (successors w current).filter remaining.contains = successors w current := by
      refine List.filter_eq_self.mpr fun t ht => ?_
      simpa using hclosed current hcurrent t (Workflow.mem_successors_iff.mp ht)
    have hrounds : ∀ more, fuel + 1 + more = fuel + more + 1 := fun more => by omega
    simp only [hrounds, describeCycle, hall]
    cases hsucc : successors w current with
    | nil =>
      refine ⟨fun _ => rfl, .inl ⟨⟨current, .refl, hsucc⟩, ?_⟩⟩
      exact List.nodup_reverse.mpr h.nodup
    | cons candidate rest =>
      have hfirst : w.First current candidate := by rw [Workflow.First, hsucc]; rfl
      dsimp only
      by_cases hmem : candidate ∈ path
      · have hcontains : path.contains candidate = true := by simpa using hmem
        simp only [hcontains, if_true]
        refine ⟨fun _ => trivial, .inr ⟨fun t ht hnil => ?_, h.isCycle hfirst hmem⟩⟩
        obtain ⟨-, u, -, hu⟩ := h.closed hfirst hmem t ht
        rw [Workflow.First, hnil] at hu
        cases hu
      · have hcontains : path.contains candidate = false := by simpa using hmem
        simp only [hcontains, Bool.false_eq_true, if_false]
        have hnext := h.next hfirst (hclosed _ hcurrent _ hfirst.edges) hmem
        obtain ⟨hfree, hend⟩ := ih hnext (by rw [List.length_cons]; omega)
        refine ⟨hfree, ?_⟩
        rcases hend with ⟨⟨t, ht, hnil⟩, hn⟩ | ⟨hruns, hcycle⟩
        · exact .inl ⟨⟨t, .head hfirst ht, hnil⟩, hn⟩
        · refine .inr ⟨fun t ht => ?_, hcycle⟩
          rcases ht.cases_head with rfl | ⟨u, hu, hut⟩
          · rw [hsucc]
            exact List.cons_ne_nil _ _
          · rw [← hfirst.unique hu] at hut
            exact hruns t hut

end Walk

/-! ## The report -/

namespace Workflow

variable (w : Workflow V)

/-- What the queue leaves: the number of steps visited, and what each step still waits for. -/
def leftover : ℕ × (String → ℤ) :=
  visitReady w (2 * w.stepIds.length) (w.stepIds.filter fun s => ((w.incoming s).length : ℤ) = 0)
    (fun s => (w.incoming s).length) 0

/-- `remaining` -/
def remaining : List String := w.stepIds.filter fun s => 0 < w.leftover.2 s

/-- The path that the message names, from a walk with this many rounds. -/
def namedPath (rounds : ℕ) : List String :=
  match w.remaining.mergeSort (· ≤ ·) with
  | [] => []
  | start :: _ => describeCycle w w.remaining rounds start [start]

/-- The message that names a path. -/
def cycleError (path : List String) : Exc :=
  workflowValidationError (s!"workflow {reprStr w.name} contains a cycle: " ++ " -> ".intercalate path ++
    "; sequential and conditional execution does not support loops")

theorem validateAcyclic_eq : validateAcyclic w =
    if w.leftover.1 = w.stepIds.length then .ok () else .error (w.cycleError (w.namedPath (w.remaining.length + 1))) :=
  rfl

/-- The definition is refused exactly if it has a cycle, the walk ends, and the path named is a cycle. -/
structure Reports : Prop where
  exact : (∃ e, validateAcyclic w = .error e) ↔ w.Cyclic
  ends : ∀ more, w.namedPath (w.remaining.length + 1 + more) = w.namedPath (w.remaining.length + 1)
  named : ∀ e, validateAcyclic w = .error e → ∃ path, e = w.cycleError path ∧
    path = w.namedPath (w.remaining.length + 1) ∧ w.IsCycle path

/-- The smallest of the steps behind a cycle. -/
def Smallest (s : String) : Prop := s ∈ w.stepIds ∧ w.Behind s ∧ ∀ t ∈ w.stepIds, w.Behind t → s ≤ t

variable {w}

/-- What is left are the steps behind a cycle. -/
theorem leftover_spec (hw : w.Wired) :
    (∀ s, s ∈ w.remaining ↔ s ∈ w.stepIds ∧ w.Behind s) ∧ (w.leftover.1 = w.stepIds.length ↔ w.remaining = []) := by
  have hinit : Kahn w.sources w.stepIds [] (w.stepIds.filter fun s => ((w.incoming s).length : ℤ) = 0)
      fun s => (w.incoming s).length := by
    have h0 : Kahn w.sources w.stepIds [] _ _ := Kahn.init hw.nodup
    simpa only [Workflow.sources, List.length_map] using h0
  obtain ⟨done, hdone, hcount⟩ := visitReady_complete hw.distinct hw.target_mem (2 * w.stepIds.length) hinit
    (by rw [List.length_nil]; omega)
  have hdone : Kahn w.sources w.stepIds done [] w.leftover.2 := hdone
  have hcount : w.leftover.1 = done.length := hcount
  have hmem : ∀ s, s ∈ done ↔ s ∈ w.stepIds ∧ w.leftover.2 s = 0 := by
    intro s
    have := hdone.mem_iff s
    rwa [List.append_nil] at this
  have hremaining : ∀ s, s ∈ w.remaining ↔ s ∈ w.stepIds ∧ w.Behind s := by
    intro s
    rw [remaining, List.mem_filter, decide_eq_true_iff]
    refine and_congr_right fun hs => ?_
    rw [behind_iff hw hdone hs, hmem s, hdone.waits s hs]
    have : (0 : ℤ) ≤ ((w.sources s).filter (· ∉ done)).length := Int.natCast_nonneg _
    constructor
    · rintro h ⟨-, h0⟩
      omega
    · intro h
      have hne : (((w.sources s).filter (· ∉ done)).length : ℤ) ≠ 0 := fun h0 => h ⟨hs, h0⟩
      omega
  refine ⟨hremaining, ?_⟩
  have hnodup : done.Nodup := by
    have := hdone.nodup
    rwa [List.append_nil] at this
  have hsub : done ⊆ w.stepIds := fun s hs => ((hmem s).mp hs).1
  rw [hcount]
  constructor
  · intro hlen
    have hperm := (List.subperm_of_subset hnodup hsub).perm_of_length_le hlen.ge
    refine List.eq_nil_iff_forall_not_mem.mpr fun s hs => ?_
    obtain ⟨hs, hbehind⟩ := (hremaining s).mp hs
    exact (behind_iff hw hdone hs).mp hbehind (hperm.mem_iff.mpr hs)
  · intro hnil
    have hall : w.stepIds ⊆ done := by
      intro s hs
      by_contra hsd
      have : s ∈ w.remaining := (hremaining s).mpr ⟨hs, (behind_iff hw hdone hs).mpr hsd⟩
      rw [hnil] at this
      exact List.not_mem_nil this
    exact le_antisymm (List.subperm_of_subset hnodup hsub).length_le (List.subperm_of_subset hw.nodup hall).length_le

theorem cyclic_iff (hw : w.Wired) : w.Cyclic ↔ w.remaining ≠ [] := by
  obtain ⟨hremaining, -⟩ := leftover_spec hw
  constructor
  · rintro ⟨s, hs⟩
    obtain ⟨t, hst, -⟩ := Relation.TransGen.head'_iff.mp hs
    obtain ⟨e, he, rfl, -⟩ := mem_sources.mp hst
    exact List.ne_nil_of_mem ((hremaining e.source).mpr ⟨hw.source_mem e he, e.source, hs, .refl⟩)
  · intro hne
    obtain ⟨s, hs⟩ := List.exists_mem_of_ne_nil _ hne
    obtain ⟨-, t, ht, -⟩ := (hremaining s).mp hs
    exact ⟨t, ht⟩

/-- The walk starts at the smallest of the steps that are left. -/
theorem namedPath_eq (hw : w.Wired) (hne : w.remaining ≠ []) : ∃ s, w.Smallest s ∧
    ∀ rounds, w.namedPath rounds = describeCycle w w.remaining rounds s [s] := by
  obtain ⟨hremaining, -⟩ := leftover_spec hw
  have hperm := List.mergeSort_perm w.remaining (· ≤ ·)
  have hsorted : (w.remaining.mergeSort (· ≤ ·)).Pairwise fun s t => decide (s ≤ t) = true :=
    List.pairwise_mergeSort (fun a b c hab hbc => by simpa using le_trans (by simpa using hab) (by simpa using hbc))
      (fun a b => by simpa using le_total a b) _
  cases hsort : w.remaining.mergeSort (· ≤ ·) with
  | nil =>
    rw [hsort] at hperm
    exact absurd hperm.symm.eq_nil hne
  | cons s rest =>
    rw [hsort] at hperm hsorted
    have hs : s ∈ w.remaining := hperm.mem_iff.mp List.mem_cons_self
    refine ⟨s, ⟨((hremaining s).mp hs).1, ((hremaining s).mp hs).2, fun t ht hbehind => ?_⟩, fun rounds => ?_⟩
    · rcases List.mem_cons.mp (hperm.mem_iff.mpr ((hremaining t).mpr ⟨ht, hbehind⟩)) with rfl | htr
      · exact le_rfl
      · simpa using (List.pairwise_cons.mp hsorted).1 t htr
    · rw [namedPath, hsort]

theorem Smallest.unique {s t : String} (hs : w.Smallest s) (ht : w.Smallest t) : s = t :=
  le_antisymm (hs.2.2 t ht.1 ht.2.1) (ht.2.2 s hs.1 hs.2.1)

/-- **Cycle detection is exact, and ends; its report is true** if from the smallest step behind a cycle first edges
never run out. -/
theorem reports_iff (hw : w.Wired) : w.Reports ↔ ∀ s, w.Smallest s → w.Runs s := by
  obtain ⟨hremaining, hcount⟩ := leftover_spec hw
  have hraises : (∃ e, validateAcyclic w = .error e) ↔ w.remaining ≠ [] := by
    rw [validateAcyclic_eq]
    by_cases h : w.remaining = []
    · simp [hcount.mpr h, h]
    · simp [mt hcount.mp h, h]
  have hexact := hraises.trans (cyclic_iff hw).symm
  by_cases hne : w.remaining = []
  · -- no step is behind a cycle
    refine iff_of_true ⟨hexact, fun more => ?_, fun e he => ?_⟩ fun s hs => ?_
    · simp [namedPath, hne]
    · exact absurd hne (hraises.mp ⟨e, he⟩)
    · have := (hremaining s).mpr ⟨hs.1, hs.2.1⟩
      rw [hne] at this
      exact absurd this List.not_mem_nil
  · obtain ⟨s, hs, hpath⟩ := namedPath_eq hw hne
    have hclosed : ∀ x ∈ w.remaining, ∀ t, w.Edges x t → t ∈ w.remaining := by
      intro x hx t hxt
      obtain ⟨e, he, -, rfl⟩ := mem_sources.mp hxt
      exact (hremaining _).mpr ⟨hw.target_mem e he, ((hremaining x).mp hx).2.next hxt⟩
    have hstart : Walked w w.remaining s [s] := .start ((hremaining s).mpr ⟨hs.1, hs.2.1⟩)
    obtain ⟨hfree, hend⟩ := hstart.describe hclosed (w.remaining.length + 1) (by rw [List.length_singleton])
    have herror : validateAcyclic w = .error (w.cycleError (w.namedPath (w.remaining.length + 1))) := by
      rw [validateAcyclic_eq, if_neg (mt hcount.mp hne)]
    have hends : ∀ more, w.namedPath (w.remaining.length + 1 + more) = w.namedPath (w.remaining.length + 1) := by
      intro more
      rw [hpath, hpath]
      exact hfree more
    constructor
    · intro hreports t ht
      obtain rfl := ht.unique hs
      obtain ⟨path, -, rfl, hcycle⟩ := hreports.named _ herror
      rcases hend with ⟨-, hn⟩ | ⟨hruns, -⟩
      · rw [hpath] at hcycle
        exact absurd hn hcycle.not_nodup
      · exact hruns
    · intro hruns
      refine ⟨hexact, hends, fun e he => ⟨_, ?_, rfl, ?_⟩⟩
      · exact Except.error.inj (he.symm.trans herror)
      · rcases hend with ⟨⟨t, ht, hnil⟩, -⟩ | ⟨-, hcycle⟩
        · exact absurd hnil (hruns s hs t ht)
        · rwa [hpath]

end Workflow

/-- Two steps in a loop, and a step downstream of it whose name comes first. -/
def loopWithTail : Workflow ℕ where
  name := "loop"
  steps := [{ id := "a" }, { id := "b" }, { id := "c" }]
  edges := [{ source := "b", target := "c" }, { source := "c", target := "b", «when» := some fun _ => .ok true },
    { source := "c", target := "a" }]

/-- Two steps in a loop. -/
def loop : Workflow ℕ where
  name := "loop"
  steps := [{ id := "b" }, { id := "c" }]
  edges := [{ source := "b", target := "c" }, { source := "c", target := "b" }]

theorem wired_loop : loop.Wired where
  nodup := by decide
  distinct := by decide
  source_mem := by decide
  target_mem := by decide
  unlike := by decide

theorem wired_loopWithTail : loopWithTail.Wired where
  nodup := by decide
  distinct := by decide
  source_mem := by decide
  target_mem := by decide
  unlike := by decide

/-- The loop is named. -/
theorem reports_loop : loop.Reports := by
  refine (Workflow.reports_iff wired_loop).mpr fun s hs t ht => ?_
  have hstep : ∀ x ∈ loop.stepIds, ∀ y, loop.First x y → y ∈ loop.stepIds := by
    intro x _ y hxy
    obtain ⟨e, he, -, rfl⟩ := Workflow.mem_sources.mp hxy.edges
    exact wired_loop.target_mem e he
  have hmem : t ∈ loop.stepIds := by
    induction ht with
    | refl => exact hs.1
    | tail _ hlast ih => exact hstep _ ih _ hlast
  have hsucc : ∀ x ∈ loop.stepIds, successors loop x ≠ [] := by decide
  exact hsucc t hmem

/-- The message names the path `a`, which is no cycle. -/
theorem not_reports_loopWithTail : loopWithTail.Wired ∧ loopWithTail.Cyclic ∧ ¬ loopWithTail.Reports := by
  have hbc : loopWithTail.Edges "b" "c" := Workflow.mem_successors_iff.mp (by decide)
  have hcb : loopWithTail.Edges "c" "b" := Workflow.mem_successors_iff.mp (by decide)
  have hca : loopWithTail.Edges "c" "a" := Workflow.mem_successors_iff.mp (by decide)
  have hcycle : Relation.TransGen loopWithTail.Edges "b" "b" := .head hbc (.single hcb)
  refine ⟨wired_loopWithTail, ⟨"b", hcycle⟩, fun h => ?_⟩
  have hfirst : ∀ t ∈ loopWithTail.stepIds, "a" ≤ t := by decide
  have hsmallest : loopWithTail.Smallest "a" :=
    ⟨by decide, ⟨"b", hcycle, .head hbc (.single hca)⟩, fun t ht _ => hfirst t ht⟩
  obtain ⟨e, he⟩ := h.exact.mpr ⟨"b", hcycle⟩
  have hleft : loopWithTail.remaining ≠ [] := (Workflow.cyclic_iff wired_loopWithTail).mp ⟨"b", hcycle⟩
  obtain ⟨s, hs, hnamed⟩ := Workflow.namedPath_eq wired_loopWithTail hleft
  obtain rfl := hs.unique hsmallest
  have hwalk : describeCycle loopWithTail loopWithTail.remaining (loopWithTail.remaining.length + 1) "a" ["a"] = ["a"] := by
    decide +kernel
  obtain ⟨path, -, rfl, hcycle⟩ := h.named e he
  rw [hnamed, hwalk] at hcycle
  exact hcycle.not_nodup (List.nodup_singleton "a")

end Xyberos
