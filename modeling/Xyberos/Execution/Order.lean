import Xyberos.Durable.Plans
import Xyberos.Execution.Meaning

/-!
# Xyberos.Execution.Order — the order in which a run decides its steps

The ready queue is first in, first out.  `Line` says how the steps in it stand to each other: one that stands before
another is declared before it, or was waiting when the other became ready.  So a run decides its steps in declaration
order as far as no step becomes ready behind one that is declared after it.
-/

set_option autoImplicit false

namespace Xyberos.Execution

open Proc

variable {V : Type}

/-! ## Declaration order -/

/-- The first step is declared before the second. -/
def DeclaredBefore (w : Workflow V) (s t : String) : Prop := ∃ pre post, w.stepIds = pre ++ t :: post ∧ s ∈ pre

/-- The first undecided step, in declaration order, whose sources are all decided. -/
def nextInOrder (w : Workflow V) (decided : List String) : Option String :=
  w.stepIds.find? fun s => decide (s ∉ decided ∧ ∀ t ∈ w.sources s, t ∈ decided)

/-- Each step is the first one that is ready, when it is decided. -/
def InDeclarationOrder (w : Workflow V) (order : List String) : Prop :=
  ∀ pre s post, order = pre ++ s :: post → nextInOrder w pre = some s

/-- The decision on `z` makes `y` ready while `x` is waiting, or makes `x` ready first, by an earlier edge. -/
structure Jumps (w : Workflow V) (pre : List String) (z x y : String) : Prop where
  made : z ∈ w.sources y ∧ ∀ u ∈ w.sources y, u ∈ pre ++ [z]
  waiting : (∀ u ∈ w.sources x, u ∈ pre) ∨
    (z ∈ w.sources x ∧ (∀ u ∈ w.sources x, u ∈ pre ++ [z]) ∧ [x, y].Sublist (successors w z))

/-- A step becomes ready while a step declared after it waits, which is decided later. -/
def Overtaken (w : Workflow V) (order : List String) : Prop :=
  ∃ pre z mid x post y, order = pre ++ z :: (mid ++ x :: post) ∧ Jumps w pre z x y ∧ DeclaredBefore w y x

/-- Steps are taken in declaration order for a number of rounds. -/
def takeInOrder (w : Workflow V) : ℕ → List String → List String
  | 0, decided => decided
  | rounds + 1, decided =>
    match nextInOrder w decided with
    | none => decided
    | some s => takeInOrder w rounds (decided ++ [s])

/-- All the steps, as they are taken in declaration order. -/
def declarationOrder (w : Workflow V) : List String := takeInOrder w w.steps.length []

section Declared

variable {w : Workflow V} {s t : String} {decided : List String}

theorem not_declaredBefore_of_sublist (hn : w.stepIds.Nodup) (h : [s, t].Sublist w.stepIds) :
    ¬ DeclaredBefore w t s := by
  rintro ⟨pre, post, heq, ht⟩
  rw [heq, List.nodup_append] at hn
  obtain ⟨-, hnpost, hdisjoint⟩ := hn
  rw [heq, List.sublist_append_iff] at h
  obtain ⟨l₁, l₂, hl, h₁, h₂⟩ := h
  cases l₁ with
  | nil =>
    rw [List.nil_append] at hl
    subst hl
    have : t ∈ s :: post := h₂.subset (by simp)
    exact hdisjoint t ht t this rfl
  | cons a l₁ =>
    obtain ⟨rfl, -⟩ := List.cons.inj hl
    exact hdisjoint s (h₁.subset (by simp)) s (by simp) rfl

theorem nextInOrder_eq_some (hn : w.stepIds.Nodup) (hs : s ∈ w.stepIds) (hsd : s ∉ decided)
    (hsources : ∀ u ∈ w.sources s, u ∈ decided) : nextInOrder w decided = some s ↔
      ∀ t, DeclaredBefore w t s → ¬ (t ∉ decided ∧ ∀ u ∈ w.sources t, u ∈ decided) := by
  unfold nextInOrder
  rw [List.find?_eq_some_iff_append]
  constructor
  · rintro ⟨-, pre, post, heq, hbefore⟩ t ⟨pre', post', heq', ht⟩
    rw [heq, List.nodup_append] at hn
    have hpre : s ∉ pre := fun h => hn.2.2 s h s (by simp) rfl
    have hpost : s ∉ post := (List.nodup_cons.mp hn.2.1).1
    obtain ⟨rfl, -, -⟩ := (List.append_cons_inj_of_notMem hpre hpost).mp (heq.symm.trans heq')
    have := hbefore t ht
    rwa [Bool.not_eq_true', decide_eq_false_iff_not] at this
  · intro h
    obtain ⟨pre, post, heq⟩ := List.append_of_mem hs
    refine ⟨decide_eq_true ⟨hsd, hsources⟩, pre, post, heq, fun t ht => ?_⟩
    rw [Bool.not_eq_true', decide_eq_false_iff_not]
    exact h t ⟨pre, post, heq, ht⟩

theorem InDeclarationOrder.of_append {order rest : List String} (h : InDeclarationOrder w (order ++ rest)) :
    InDeclarationOrder w order := by
  intro pre s post heq
  exact h pre s (post ++ rest) (by rw [heq]; simp)

theorem inDeclarationOrder_nil : InDeclarationOrder w [] := by
  intro pre s post h
  simp at h

theorem InDeclarationOrder.concat {order : List String} (h : InDeclarationOrder w order)
    (hs : nextInOrder w order = some s) : InDeclarationOrder w (order ++ [s]) := by
  intro pre t post heq
  rcases List.eq_nil_or_concat post with rfl | ⟨post, last, rfl⟩
  · obtain ⟨rfl, ht⟩ := List.append_inj' heq rfl
    obtain rfl := (List.cons.inj ht).1
    exact hs
  · have : order ++ [s] = (pre ++ t :: post) ++ [last] := by simpa using heq
    exact h pre t post (List.append_inj' this rfl).1

theorem nextInOrder_mem (h : nextInOrder w decided = some s) :
    s ∈ w.stepIds ∧ s ∉ decided ∧ ∀ u ∈ w.sources s, u ∈ decided := by
  unfold nextInOrder at h
  exact ⟨List.mem_of_find?_eq_some h, by simpa using List.find?_some h⟩

theorem InDeclarationOrder.nodup {order : List String} (h : InDeclarationOrder w order) : order.Nodup := by
  induction order using List.reverseRecOn with
  | nil => exact List.nodup_nil
  | append_singleton order s ih =>
    have hs := (nextInOrder_mem (h order s [] rfl)).2.1
    exact List.nodup_append.mpr ⟨ih h.of_append, List.nodup_singleton s,
      fun t ht u hu heq => hs (by rwa [← List.mem_singleton.mp hu, ← heq])⟩

theorem InDeclarationOrder.subset {order : List String} (h : InDeclarationOrder w order) :
    ∀ s ∈ order, s ∈ w.stepIds := by
  intro s hs
  obtain ⟨pre, post, heq⟩ := List.append_of_mem hs
  exact (nextInOrder_mem (h pre s post heq)).1

theorem InDeclarationOrder.length_le {order : List String} (h : InDeclarationOrder w order) :
    order.length ≤ w.steps.length := by
  have := (List.subperm_of_subset h.nodup h.subset).length_le
  rwa [Workflow.stepIds, List.length_map] at this

/-- Taking steps in declaration order extends every list that is in declaration order. -/
theorem InDeclarationOrder.isPrefix_takeInOrder {pre rest : List String} (h : InDeclarationOrder w (pre ++ rest))
    {rounds : ℕ} (hrounds : rest.length ≤ rounds) : pre ++ rest <+: takeInOrder w rounds pre := by
  induction rounds generalizing pre rest with
  | zero =>
    rw [List.eq_nil_of_length_eq_zero (Nat.le_zero.mp hrounds), List.append_nil]
    exact List.prefix_rfl
  | succ rounds ih =>
    rw [takeInOrder]
    cases rest with
    | nil =>
      rw [List.append_nil]
      cases hnext : nextInOrder w pre with
      | none => exact List.prefix_rfl
      | some s =>
        have hsub : (pre ++ [s]) ++ [] <+: takeInOrder w rounds (pre ++ [s]) :=
          ih (by simpa using (h.of_append).concat hnext) (by simp)
        exact (List.prefix_append pre [s]).trans (by simpa using hsub)
    | cons s rest =>
      rw [h pre s rest rfl]
      have hsub : (pre ++ [s]) ++ rest <+: takeInOrder w rounds (pre ++ [s]) :=
        ih (by simpa using h) (by simpa using hrounds)
      simpa using hsub

theorem InDeclarationOrder.isPrefix {order : List String} (h : InDeclarationOrder w order) :
    order <+: declarationOrder w :=
  show [] ++ order <+: declarationOrder w from isPrefix_takeInOrder h h.length_le

theorem inDeclarationOrder_takeInOrder (rounds : ℕ) {pre : List String} (h : InDeclarationOrder w pre) :
    InDeclarationOrder w (takeInOrder w rounds pre) := by
  induction rounds generalizing pre with
  | zero => exact h
  | succ rounds ih =>
    rw [takeInOrder]
    cases hnext : nextInOrder w pre with
    | none => exact h
    | some s => exact ih (h.concat hnext)

theorem inDeclarationOrder_declarationOrder : InDeclarationOrder w (declarationOrder w) :=
  inDeclarationOrder_takeInOrder _ inDeclarationOrder_nil

/-- A list of steps is in declaration order if declaration order begins with it. -/
theorem inDeclarationOrder_iff_isPrefix {order : List String} :
    InDeclarationOrder w order ↔ order <+: declarationOrder w := by
  refine ⟨InDeclarationOrder.isPrefix, ?_⟩
  rintro ⟨rest, hrest⟩
  have hall := inDeclarationOrder_declarationOrder (w := w)
  rw [← hrest] at hall
  exact hall.of_append

/-- No step is left out: the least step of the graph that is left could be taken. -/
theorem mem_declarationOrder (hg : w.Graph) (hs : s ∈ w.stepIds) : s ∈ declarationOrder w := by
  have horder := inDeclarationOrder_declarationOrder (w := w)
  by_contra hnot
  obtain ⟨order, ho, hmem⟩ := hg.ordered
  obtain ⟨t, ht, ⟨htw, htd⟩, hleast⟩ := ho.exists_least (P := fun t => t ∈ w.stepIds ∧ t ∉ declarationOrder w)
    ⟨s, hmem s hs, hs, hnot⟩
  have hready : ∀ u ∈ w.sources t, u ∈ declarationOrder w := by
    intro u hu
    by_contra hud
    obtain ⟨e, he, rfl, -⟩ := Workflow.mem_sources.mp hu
    exact hleast e.source hu ⟨hg.source_mem e he, hud⟩
  cases hnext : nextInOrder w (declarationOrder w) with
  | none =>
    have := List.find?_eq_none.mp hnext t htw
    exact this (decide_eq_true ⟨htd, hready⟩)
  | some u =>
    have hlonger := (horder.concat hnext).isPrefix.length_le
    simp at hlonger

end Declared

/-! ## The queue -/

/-- The steps in the queue are those that are ready; one stands before another if it is declared before it, or was
there first. -/
structure Line (w : Workflow V) (done ready : List String) : Prop where
  nodup : (done ++ ready).Nodup
  mem_iff : ∀ s, s ∈ done ++ ready ↔ s ∈ w.stepIds ∧ ∀ t ∈ w.sources s, t ∈ done
  inOrder : ready.Pairwise fun x y =>
    ¬ DeclaredBefore w y x ∨ ∃ pre z mid, done = pre ++ z :: mid ∧ Jumps w pre z x y
  behind : ∀ pre z mid x y, done = pre ++ z :: mid → Jumps w pre z x y → x ∈ ready → [x, y].Sublist ready

namespace Line

variable {w : Workflow V} {done ready : List String} {z x : String}

theorem of_kahn {waiters : String → ℤ} (h : Kahn w.sources w.stepIds done ready waiters) :
    (done ++ ready).Nodup ∧ ∀ s, s ∈ done ++ ready ↔ s ∈ w.stepIds ∧ ∀ t ∈ w.sources s, t ∈ done := by
  refine ⟨h.nodup, fun s => (h.mem_iff s).trans (and_congr_right fun hs => ?_)⟩
  rw [h.waits s hs, Int.natCast_eq_zero, List.length_eq_zero_iff, List.filter_eq_nil_iff]
  simp

theorem init (hn : w.stepIds.Nodup) {waiters : String → ℤ}
    (h : Kahn w.sources w.stepIds [] ready waiters) (hsub : ready.Sublist w.stepIds) : Line w [] ready where
  nodup := (of_kahn h).1
  mem_iff := (of_kahn h).2
  inOrder := by
    refine List.pairwise_iff_forall_sublist.mpr fun {x y} hxy => .inl ?_
    exact not_declaredBefore_of_sublist hn (hxy.trans hsub)
  behind pre z mid x y h := by simp at h

/-- What a decision makes ready stands behind what was waiting, in the order of the edges. -/
theorem turn (hl : Line w done (z :: ready)) {waiters : String → ℤ}
    (hsuccs : ∀ y, y ∈ successors w z ↔ z ∈ w.sources y)
    (h : Kahn w.sources w.stepIds (done ++ [z])
      (ready ++ (successors w z).filter fun y => ∀ u ∈ w.sources y, u ∈ done ++ [z]) waiters) :
    Line w (done ++ [z]) (ready ++ (successors w z).filter fun y => ∀ u ∈ w.sources y, u ∈ done ++ [z]) := by
  have hzdone : z ∉ done := by
    have hn := hl.nodup
    rw [List.nodup_append] at hn
    exact fun hz => hn.2.2 z hz z (by simp) rfl
  have hold : ∀ x ∈ ready, ∀ u ∈ w.sources x, u ∈ done := fun x hx => ((hl.mem_iff x).mp (by simp [hx])).2
  have hnew : ∀ y, y ∈ (successors w z).filter (fun y => ∀ u ∈ w.sources y, u ∈ done ++ [z]) ↔
      z ∈ w.sources y ∧ ∀ u ∈ w.sources y, u ∈ done ++ [z] := by
    intro y
    rw [List.mem_filter, hsuccs, decide_eq_true_iff]
  refine ⟨(of_kahn h).1, (of_kahn h).2, ?_, ?_⟩
  · refine List.pairwise_append.mpr ⟨?_, ?_, ?_⟩
    · refine (List.pairwise_cons.mp hl.inOrder).2.imp ?_
      rintro x y (hxy | ⟨pre, z', mid, rfl, hjump⟩)
      · exact .inl hxy
      · exact .inr ⟨pre, z', mid ++ [z], by simp, hjump⟩
    · refine List.pairwise_iff_forall_sublist.mpr fun {x y} hxy => .inr ⟨done, z, [], rfl, ?_⟩
      have hx := (hnew x).mp (hxy.subset (by simp))
      exact ⟨(hnew y).mp (hxy.subset (by simp)), .inr ⟨hx.1, hx.2, hxy.trans List.filter_sublist⟩⟩
    · exact fun x hx y hy => .inr ⟨done, z, [], rfl, (hnew y).mp hy, .inl (hold x hx)⟩
  · intro pre z' mid x y hdone hjump hx
    rcases List.eq_nil_or_concat mid with rfl | ⟨mid, last, rfl⟩
    · -- the decision of this turn
      obtain ⟨rfl, hz⟩ := List.append_inj' hdone rfl
      obtain rfl := (List.cons.inj hz).1
      have hy := (hnew y).mpr hjump.made
      rcases hjump.waiting with hwait | ⟨hzx, hall, hsub⟩
      · rcases List.mem_append.mp hx with hx | hx
        · exact (List.singleton_sublist.mpr hx).append (List.singleton_sublist.mpr hy)
        · exact absurd (hwait z ((hnew x).mp hx).1) hzdone
      · refine List.Sublist.trans ?_ (List.sublist_append_right _ _)
        have hpair : [x, y].filter (fun y => ∀ u ∈ w.sources y, u ∈ done ++ [z]) = [x, y] := by
          rw [List.filter_eq_self]
          intro v hv
          rcases List.mem_cons.mp hv with rfl | hv
          · exact decide_eq_true hall
          · obtain rfl := List.mem_singleton.mp hv
            exact decide_eq_true hjump.made.2
        have := hsub.filter fun y => decide (∀ u ∈ w.sources y, u ∈ done ++ [z])
        rwa [hpair] at this
    · -- an earlier one: both stay in line
      have hsplit : done = pre ++ z' :: mid := by
        have : done ++ [z] = (pre ++ z' :: mid) ++ [last] := by simpa using hdone
        exact (List.append_inj' this rfl).1
      have hwaited : ∀ u ∈ w.sources x, u ∈ done := by
        intro u hu
        rw [hsplit]
        rcases hjump.waiting with hwait | ⟨-, hall, -⟩
        · exact List.mem_append_left _ (hwait u hu)
        · rcases List.mem_append.mp (hall u hu) with hu | hu
          · exact List.mem_append_left _ hu
          · simp [List.mem_singleton.mp hu]
      rcases List.mem_append.mp hx with hxr | hxn
      · have hpair := hl.behind pre z' mid x y hsplit hjump (by simp [hxr])
        have hxz : x ≠ z := by
          rintro rfl
          have hn := hl.nodup
          rw [List.nodup_append] at hn
          exact (List.nodup_cons.mp hn.2.1).1 hxr
        cases hpair with
        | cons _ hpair => exact hpair.trans (List.sublist_append_left _ _)
        | cons_cons _ hpair => exact absurd rfl hxz
      · exact absurd (hwaited z ((hnew x).mp hxn).1) hzdone

/-- The step at the head of the queue is the first one that is ready, unless another one became ready behind it. -/
theorem next_iff (hl : Line w done (x :: ready)) (hn : w.stepIds.Nodup) : nextInOrder w done = some x ↔
    ¬ ∃ pre z mid y, done = pre ++ z :: mid ∧ Jumps w pre z x y ∧ DeclaredBefore w y x := by
  obtain ⟨hx, hsources⟩ := (hl.mem_iff x).mp (by simp)
  have hnodup := hl.nodup
  rw [List.nodup_append] at hnodup
  have hxd : x ∉ done := fun h => hnodup.2.2 x h x (by simp) rfl
  rw [nextInOrder_eq_some hn hx hxd hsources]
  constructor
  · rintro hfirst ⟨pre, z, mid, y, hdone, hjump, hbefore⟩
    have hpair := hl.behind pre z mid x y hdone hjump (by simp)
    have hy : y ∈ ready := by
      cases hpair with
      | cons _ hpair => exact absurd (hpair.subset (by simp)) (List.nodup_cons.mp hnodup.2.1).1
      | cons_cons _ hpair => exact hpair.subset (by simp)
    refine hfirst y hbefore ⟨fun h => hnodup.2.2 y h y (by simp [hy]) rfl, ?_⟩
    exact ((hl.mem_iff y).mp (by simp [hy])).2
  · rintro hno y hbefore ⟨hyd, hys⟩
    have hyw : y ∈ w.stepIds := by
      obtain ⟨pre, post, heq, hy⟩ := hbefore
      rw [heq]
      exact List.mem_append_left _ hy
    have hyready : y ∈ x :: ready := (List.mem_append.mp ((hl.mem_iff y).mpr ⟨hyw, hys⟩)).resolve_left hyd
    rcases List.mem_cons.mp hyready with rfl | hyready
    · obtain ⟨pre, post, heq, hy⟩ := hbefore
      rw [heq, List.nodup_append] at hn
      exact hn.2.2 y hy y (by simp) rfl
    · rcases (List.pairwise_cons.mp hl.inOrder).1 y hyready with h | ⟨pre, z, mid, hdone, hjump⟩
      · exact h hbefore
      · exact hno ⟨pre, z, mid, y, hdone, hjump, hbefore⟩

end Line

/-- Each step was decided from the head of the queue. -/
def Queue (w : Workflow V) (order : List String) : Prop :=
  ∀ pre s post, order = pre ++ s :: post → ∃ ready, Line w pre (s :: ready)

theorem Queue.concat {w : Workflow V} {done ready : List String} {s : String} (hq : Queue w done)
    (hl : Line w done (s :: ready)) : Queue w (done ++ [s]) := by
  intro pre t post heq
  rcases List.eq_nil_or_concat post with rfl | ⟨post, last, rfl⟩
  · obtain ⟨rfl, ht⟩ := List.append_inj' heq rfl
    obtain rfl := (List.cons.inj ht).1
    exact ⟨ready, hl⟩
  · have : done ++ [s] = (pre ++ t :: post) ++ [last] := by simpa using heq
    exact hq pre t post (List.append_inj' this rfl).1

/-- The order of a queue is the declaration order unless a step is overtaken. -/
theorem Queue.inDeclarationOrder_iff {w : Workflow V} {order : List String} (hq : Queue w order)
    (hn : w.stepIds.Nodup) : InDeclarationOrder w order ↔ ¬ Overtaken w order := by
  constructor
  · rintro hall ⟨pre, z, mid, x, post, y, heq, hjump, hbefore⟩
    have heq' : order = (pre ++ z :: mid) ++ x :: post := by rw [heq]; simp
    obtain ⟨ready, hl⟩ := hq _ _ _ heq'
    exact (hl.next_iff hn).mp (hall _ _ _ heq') ⟨pre, z, mid, y, rfl, hjump, hbefore⟩
  · intro hno pre x post heq
    obtain ⟨ready, hl⟩ := hq _ _ _ heq
    refine (hl.next_iff hn).mpr ?_
    rintro ⟨pre', z, mid, y, rfl, hjump, hbefore⟩
    exact hno ⟨pre', z, mid, x, post, y, by rw [heq]; simp, hjump, hbefore⟩

/-- A queue keeps to the declaration order of a definition in which no step is overtaken. -/
theorem Queue.of_not_overtaken {w : Workflow V} (hg : w.Graph) (hno : ¬ Overtaken w (declarationOrder w))
    {order : List String} (hq : Queue w order) : InDeclarationOrder w order := by
  induction order using List.reverseRecOn with
  | nil => exact inDeclarationOrder_nil
  | append_singleton order s ih =>
    have horder := ih fun pre t post heq => hq pre t (post ++ [s]) (by rw [heq]; simp)
    obtain ⟨ready, hl⟩ := hq order s [] rfl
    refine horder.concat ((hl.next_iff hg.nodup).mpr ?_)
    rintro ⟨pre, z, mid, y, rfl, hjump, hbefore⟩
    -- the step comes later in declaration order, too
    obtain ⟨rest, hrest⟩ := horder.isPrefix
    have hsrest : s ∈ rest := by
      have hs := mem_declarationOrder hg ((hl.mem_iff s).mp (by simp)).1
      rw [← hrest, List.mem_append] at hs
      refine hs.resolve_left fun hs => ?_
      have hn := hl.nodup
      rw [List.nodup_append] at hn
      exact hn.2.2 s hs s (by simp) rfl
    obtain ⟨mid', post, rfl⟩ := List.append_of_mem hsrest
    exact hno ⟨pre, z, mid ++ mid', s, post, y, by rw [← hrest]; simp, hjump, hbefore⟩

/-! ## The order of a run -/

/-- The step that an event decides: its first attempt is started, or it is skipped. -/
def decision? (e : Emission) : Option String :=
  if e.type = .stepStarted ∧ e.attempt = some 1 ∨ e.type = .stepSkipped then e.step else none

/-- The steps started or skipped, in this order. -/
def decisions (h : History V) : List String := (emissions h).filterMap decision?

/-- The step that a run found to be reached by more than one branch. -/
def foundInConflict : Except (Thrown V) (WorkflowResult V) → List String
  | .error (.execution e) => if e.error.cls.name = "WorkflowExecutionError" then e.step.toList else []
  | _ => []

/-- The steps decided in a run, in this order. -/
def decidedIn (h : History V) (r : Except (Thrown V) (WorkflowResult V)) : List String := decisions h ++ foundInConflict r

/-- Surroundings in which every attempt returns. -/
def Returns (A : (q : Request V) → q.Reply → Prop) : Prop :=
  ∀ call ended, A (.attempt call) ended → ∃ output, ended = .returned output

section Runs

variable {A : (q : Request V) → q.Reply → Prop} {x : WorkflowExecutor V} {w : Workflow V} {input : V}
  {deadline : Option ℚ} {step : Step V}

@[simp] theorem decisions_append (h l : History V) : decisions (h ++ l) = decisions h ++ decisions l := by
  rw [decisions, emissions_append, List.filterMap_append]
  rfl

/-- A step that returns is decided by its first attempt. -/
theorem StepRun.decides (hA : Returns A) {value : V} {cs : List (Trial V)} {es : List Emission}
    {r : Except (Thrown V) (StepOutcome V)} (h : StepRun A x step value deadline 1 cs es r) :
    es.filterMap decision? = [step.id] ∧ ∃ o, r = .ok o := by
  have hreturned : ∀ {call : AttemptCall V} {ended : RaceEnd V} {result : AttemptResult V}, A (.attempt call) ended →
      x.raceResult call ended = .ok result → result.stop = none ∧ result.error = none := by
    intro call ended result hallowed hraced
    obtain ⟨output, rfl⟩ := hA call ended hallowed
    obtain ⟨⟩ := hraced
    exact ⟨rfl, rfl⟩
  have hfails : ∀ {call : AttemptCall V} {ended : RaceEnd V} {result : AttemptResult V}, A (.attempt call) ended →
      x.raceResult call ended = .ok result → ∀ error, error ∉ x.failure step result := by
    intro call ended result hallowed hraced error herror
    obtain ⟨hstop, herr⟩ := hreturned hallowed hraced
    rcases failure_failed herror with h | h
    · simp [hstop] at h
    · simp [herr] at h
  cases h with
  | uncalled of allowed =>
    obtain ⟨output, he⟩ := hA _ _ allowed
    cases he
  | done of allowed started type raced judged =>
    generalize hr : Except.ok _ = r' at judged
    cases judged with
    | succeeded stop error of' type' named =>
      refine ⟨?_, _, rfl⟩
      simp [decision?, type, started.attempt, started.step, type', of'.attempt]
    | aborted => cases hr
    | retried => cases hr
    | interrupted => cases hr
    | overflowed => cases hr
    | unformatted => cases hr
  | raised of allowed started type raced judged =>
    obtain ⟨hstop, herr⟩ := hreturned allowed raced
    cases judged with
    | aborted _ _ _ failed => simp [hstop, herr] at failed
    | interrupted fails => exact absurd fails (hfails allowed raced _)
    | overflowed fails => exact absurd fails (hfails allowed raced _)
    | unformatted stop => simp [hstop] at stop
  | again of allowed started type raced judged rest =>
    cases judged with
    | retried fails => exact absurd fails (hfails allowed raced _)

/-- A turn leaves the queue to the loop over the edges. -/
theorem TurnRun.frame {cs : List (Trial V)} {es : List Emission} {st st' : RunState V}
    (h : TurnRun A x w input deadline step st cs es (.ok st')) : st'.waiters = st.waiters ∧ st'.ready = st.ready := by
  generalize hr : Except.ok st' = r at h
  cases h with
  | conflict => cases hr
  | halted => cases hr
  | raised => cases hr
  | unselected => cases hr
  | skipped =>
    obtain rfl := Except.ok.inj hr
    exact ⟨rfl, rfl⟩
  | ran =>
    obtain rfl := Except.ok.inj hr
    exact ⟨rfl, rfl⟩

/-- The step that an abort found to be reached by more than one branch. -/
def Abort.conflicting (a : Abort) : List String := if a.kind = .failed then a.step.toList else []

theorem AbortKind.name_error (kind : AbortKind) (message : String) :
    (kind.error message).cls.name = "WorkflowExecutionError" ↔ kind = .failed := by
  cases kind with
  | failed => exact iff_of_true rfl rfl
  | retryExhausted => exact iff_of_false (show ¬ "RetryExhaustedError" = _ by decide) (by simp)
  | stepTimeout => exact iff_of_false (show ¬ "StepTimeoutError" = _ by decide) (by simp)
  | timedOut => exact iff_of_false (show ¬ "WorkflowTimeoutError" = _ by decide) (by simp)
  | cancelled => exact iff_of_false (show ¬ "WorkflowCancelledError" = _ by decide) (by simp)

theorem foundInConflict_execution (a : Abort) (w : Workflow V) (outcomes : Dict (StepOutcome V)) :
    foundInConflict (.error (.execution (a.executionError w outcomes))) = a.conflicting :=
  if_congr (a.kind.name_error a.message) rfl rfl

theorem Interrupts.conflicting {a : Abort} (h : Interrupts A deadline a.kind) : a.conflicting = [] := by
  unfold Abort.conflicting
  rcases h with ⟨h, -⟩ | ⟨h, -⟩ <;> simp [h]

/-- What a turn decides is the step it is for, unless the run is interrupted. -/
theorem TurnRun.decides (ht : w.Total) (hA : Returns A) {cs : List (Trial V)} {es : List Emission}
    {st : RunState V} {r : Except (Thrown V) (RunState V)} (h : TurnRun A x w input deadline step st cs es r) :
    Ends (fun e => es = [] ∧ ∃ a, e = .abort a ∧ (a.conflicting = [step.id] ∨ a.conflicting = []))
      (fun _ => es.filterMap decision? = [step.id]) r := by
  cases h with
  | conflict _ kind named => exact ⟨rfl, _, rfl, .inl (by simp [Abort.conflicting, kind, named])⟩
  | skipped _ _ type of => simp [decision?, type, of]
  | halted kind => exact ⟨rfl, _, rfl, .inr kind.conflicting⟩
  | raised _ run =>
    obtain ⟨-, o, ho⟩ := run.decides hA
    cases ho
  | @unselected _ _ _ o error _ _ selects =>
    obtain ⟨selected, hselected⟩ := selectEdge_total ht o.output step.id
    rw [hselected] at selects
    cases selects
  | ran _ run => exact (run.decides hA).1

/-- The steps that a turn makes ready join the queue in the order of the edges. -/
theorem Queued.joins {done : List String} {st st' next : RunState V} {ready : List (Step V)} (h : Queued w done st)
    (hg : w.Graph) (hready : st.ready = step :: ready) (hwaiters : st'.waiters = st.waiters)
    (hready' : st'.ready = ready) (hrelax : relaxEdges w (w.outgoing step.id) st' = .ok next) :
    next.ready.map Step.id = ready.map Step.id ++
      (successors w step.id).filter fun y => ∀ u ∈ w.sources y, u ∈ done ++ [step.id] := by
  have htargets : ∀ e ∈ w.outgoing step.id, e.target ∈ w.stepIds :=
    fun e he => hg.target_mem e (Workflow.mem_outgoing.mp he).1
  have hwaits : ∀ s ∈ w.stepIds, (st'.waiters.get? s).isSome := by
    rw [hwaiters]
    exact h.waits
  have hsteps : ∀ step ∈ st'.ready, step ∈ w.steps := by
    rw [hready']
    exact fun step' hs => h.steps step' (by simp [hready, hs])
  obtain ⟨next', hrelax', -, hnext, -⟩ := relaxEdges_ok htargets hwaits hsteps
  obtain rfl := Except.ok.inj (hrelax.symm.trans hrelax')
  rw [show (w.outgoing step.id).map Edge.target = successors w step.id from rfl, relaxTargets_eq,
    relax_eq (Workflow.nodup_successors hg.distinct step.id), hready'] at hnext
  rw [(Prod.mk.inj hnext).2]
  refine congrArg _ (List.filter_congr fun y hy => decide_eq_decide.mpr ?_)
  -- the last source for which it waited is this step
  have hz : step.id ∈ w.sources y := Workflow.mem_successors.mp hy
  have hyw : y ∈ w.stepIds := by
    obtain ⟨e, he, -, rfl⟩ := Workflow.mem_sources.mp hz
    exact hg.target_mem e he
  have hzd : step.id ∉ done := (h.head hready).2.1
  have hwaiting : st'.waiting y = (((w.sources y).filter (· ∉ done)).length : ℤ) := by
    rw [show st'.waiting y = st.waiting y by rw [RunState.waiting, RunState.waiting, hwaiters]]
    exact h.kahn.waits y hyw
  have hmem : step.id ∈ (w.sources y).filter (· ∉ done) := List.mem_filter.mpr ⟨hz, decide_eq_true hzd⟩
  rw [hwaiting, Nat.cast_eq_one, List.length_eq_one_iff]
  constructor
  · rintro ⟨a, ha⟩ u hu
    rw [ha, List.mem_singleton] at hmem
    by_cases hud : u ∈ done
    · exact List.mem_append_left _ hud
    · have hua : u ∈ (w.sources y).filter (· ∉ done) := List.mem_filter.mpr ⟨hu, decide_eq_true hud⟩
      rw [ha, ← hmem] at hua
      exact List.mem_append_right _ hua
  · intro hall
    have hn : ((w.sources y).filter (· ∉ done)).Nodup := (Workflow.nodup_sources hg.distinct y).filter _
    have heq : ∀ u ∈ (w.sources y).filter (· ∉ done), u = step.id := by
      intro u hu
      obtain ⟨hu, hud⟩ := List.mem_filter.mp hu
      rcases List.mem_append.mp (hall u hu) with h | h
      · exact absurd h (of_decide_eq_true hud)
      · exact List.mem_singleton.mp h
    cases hl : (w.sources y).filter (· ∉ done) with
    | nil =>
      rw [hl] at hmem
      cases hmem
    | cons a l =>
      rw [hl] at hn heq
      have hnil : l = [] := by
        refine List.eq_nil_iff_forall_not_mem.mpr fun u hu => (List.nodup_cons.mp hn).1 ?_
        rw [heq a (by simp), ← heq u (by simp [hu])]
        exact hu
      exact ⟨a, by rw [hnil]⟩

/-- What holds in the loop: the steps decided were each at the head of the queue. -/
structure Decided (w : Workflow V) (input : V) (done : List String) (h : History V) (st : RunState V) : Prop where
  computed : Computed w input done h st
  line : Line w done (st.ready.map Step.id)
  queue : Queue w done
  decisions : decisions h = done

/-- A turn of the loop decides the step at the head of the queue. -/
theorem Decided.of_turnRun (hg : w.Graph) (ht : w.Total) (hA : Returns A) {done : List String} {h l : History V}
    {st st' : RunState V} {ready : List (Step V)} (hd : Decided w input done h st) (hready : st.ready = step :: ready)
    (hturn : TurnRun A x w input deadline step { st with ready } (trials l) (emissions l) (.ok st')) :
    ∃ next, relaxEdges w (w.outgoing step.id) st' = .ok next ∧ Decided w input (done ++ [step.id]) (h ++ l) next := by
  obtain ⟨next, hrelax, hcomputed⟩ := hd.computed.of_turnRun hg hready hturn
  obtain ⟨hwaiters, hready'⟩ := hturn.frame
  have hjoins := hd.computed.queued.joins hg hready hwaiters hready' hrelax
  have hline := hd.line
  rw [hready, List.map_cons] at hline
  have hkahn := hcomputed.queued.kahn
  rw [hjoins] at hkahn
  refine ⟨next, hrelax, hcomputed, ?_, hd.queue.concat hline, ?_⟩
  · rw [hjoins]
    exact hline.turn (fun _ => Workflow.mem_successors) hkahn
  · rw [decisions_append, hd.decisions]
    exact congrArg _ (hturn.decides ht hA)

theorem yields_loop_decided (hg : w.Graph) (ht : w.Total) (hA : Returns A) {rounds : ℕ} {done : List String}
    {h : History V} {st : RunState V} (hd : Decided w input done h st)
    (hrounds : done.length + rounds = w.steps.length) :
    Yields A (x.loop w input deadline rounds st) fun l r =>
      LoopEnds (fun rounds h st => ∃ done, Decided w input done h st ∧ done.length + rounds = w.steps.length)
        (fun h e => ∃ a, e = .abort a ∧ Queue w (decisions h ++ a.conflicting)) (h ++ l) r := by
  refine x.yields_loop ?_ ⟨done, hd, hrounds⟩
  rintro rounds h st step ready hready ⟨done, hd, hrounds⟩
  have hproduced : ∀ edge ∈ ({ st with ready } : RunState V).reached w step.id, (st.produced.get? edge.source).isSome :=
    hd.computed.produced_of_reached step.id
  refine (x.yields_turn hproduced).mono ?_
  rintro l r ⟨r', hturn, rfl⟩
  cases r' with
  | error e =>
    obtain ⟨hes, a, rfl, ha⟩ := hturn.decides ht hA
    refine ⟨a, rfl, ?_⟩
    have hl : decisions l = [] := by rw [decisions, hes, List.filterMap_nil]
    rw [decisions_append, hl, List.append_nil, hd.decisions]
    rcases ha with ha | ha
    · rw [ha]
      have hline := hd.line
      rw [hready, List.map_cons] at hline
      exact hd.queue.concat hline
    · rw [ha, List.append_nil]
      exact hd.queue
  | ok st' =>
    obtain ⟨next, hrelax, hd'⟩ := hd.of_turnRun hg ht hA hready hturn
    show Ends _ _ ((relaxEdges w (w.outgoing step.id) st').mapError Thrown.other)
    rw [hrelax]
    refine ⟨_, hd', ?_⟩
    rw [List.length_append, List.length_singleton]
    omega

/-- The steps that are ready at the start are those without incoming edges, in declaration order. -/
theorem decided_init (input : V) (hg : w.Graph) (started t : ℚ) : ∃ st, RunState.initial w = .ok st ∧
    Decided w input [] [⟨.monotonic, started⟩, ⟨.emit (startedEvent w), t⟩] st := by
  obtain ⟨st, hinit, hcomputed⟩ := computed_init input hg started t
  refine ⟨st, hinit, hcomputed, .init hg.nodup hcomputed.queued.kahn ?_, ?_, rfl⟩
  · obtain rfl := Except.ok.inj ((initial_ok w).symm.trans hinit)
    exact List.filter_sublist.map _
  · intro pre s post h
    simp at h

/-- Each step of a run is decided from the head of the queue, and a run that returns decided them all. -/
theorem queue_decidedIn (hv : w.validate = .ok ()) (ht : w.Total) (hA : Returns A) {timeout : Option ℚ}
    {h : History V} {r : Except (Thrown V) (WorkflowResult V)} (hrun : Traced A (x.run w input timeout) h r) :
    Queue w (decidedIn h r) ∧ ∀ result, r = .ok result → (decidedIn h r).Perm w.stepIds := by
  have hg := graph_of_validate hv
  obtain ⟨st, hinit, -⟩ := decided_init input hg 0 0
  have hnil : Queue w [] := by
    intro pre s post h
    simp at h
  suffices hall : Yields A (x.run w input timeout) fun h r =>
      Queue w (decidedIn h r) ∧ ∀ result, r = .ok result → (decidedIn h r).Perm w.stepIds from hall h r hrun
  refine x.yields_run hv hinit (fun _ e he => ?_) fun _ started t => ?_
  · have hnone : foundInConflict (.error e : Except (Thrown V) (WorkflowResult V)) = [] := by
      cases e with
      | abort => rfl
      | execution e' => simp [foundInConflict, he e' rfl]
      | other => rfl
    refine ⟨?_, by simp⟩
    rw [decidedIn, hnone, List.append_nil]
    exact hnil
  obtain ⟨st', hinit', hd⟩ := decided_init input hg started t
  obtain rfl := Except.ok.inj (hinit.symm.trans hinit')
  refine (yields_loop_decided hg ht hA hd (by simp)).mono fun l r hends => ?_
  cases r with
  | error e =>
    obtain ⟨⟨a, rfl, -⟩, hnot⟩ := hends
    exact absurd rfl (hnot a)
  | ok r =>
    obtain ⟨st', stop⟩ := r
    cases stop with
    | some a =>
      obtain ⟨a', ha, hqueue⟩ := hends
      obtain rfl := Thrown.abort.inj ha
      intro before t'
      have hend : decisions ([⟨.emit a.abortedEvent, t'⟩] : History V) = [] := by
        have hevent : a.kind.event ≠ .stepStarted ∧ a.kind.event ≠ .stepSkipped := by cases a.kind <;> decide
        simp [decisions, decision?, Abort.abortedEvent, hevent]
      refine ⟨?_, by simp⟩
      rw [decidedIn, foundInConflict_execution, decisions_append, hend, List.append_nil]
      exact hqueue
    | none =>
      obtain ⟨rounds, ⟨done, hd', hrounds⟩, hstop⟩ := hends
      have hready : st'.ready = [] := by
        rcases hstop with rfl | hready
        · exact hd'.computed.queued.ready_nil hrounds
        · exact hready
      intro before now t'
      have hend : decisions ([⟨.monotonic, now⟩, ⟨.emit (st'.succeededEvent (now - started)), t'⟩] : History V) = [] := rfl
      have hdone : ∀ result, decidedIn (before ++ l ++ [⟨.monotonic, now⟩,
          ⟨.emit (st'.succeededEvent (now - started)), t'⟩]) (.ok result) = done := by
        intro result
        rw [decidedIn, decisions_append, hend, hd'.decisions, List.append_nil]
        exact List.append_nil done
      rw [hdone]
      exact ⟨hd'.queue, fun _ _ => hd'.computed.queued.perm hg hready⟩

/-- **A run decides its steps in declaration order**, if, in that order, no step becomes ready while a step declared
after it is waiting; if one does, no run that returns keeps to the order. -/
theorem decided_in_order (hv : w.validate = .ok ()) (ht : w.Total) (hA : Returns A) {timeout : Option ℚ}
    {h : History V} {r : Except (Thrown V) (WorkflowResult V)} (hrun : Traced A (x.run w input timeout) h r) :
    (¬ Overtaken w (declarationOrder w) → InDeclarationOrder w (decidedIn h r)) ∧
      ∀ result, r = .ok result → (InDeclarationOrder w (decidedIn h r) ↔ ¬ Overtaken w (declarationOrder w)) := by
  have hg := graph_of_validate hv
  obtain ⟨hqueue, hperm⟩ := queue_decidedIn hv ht hA hrun
  refine ⟨fun hno => hqueue.of_not_overtaken hg hno, fun result hr => ⟨fun horder => ?_, hqueue.of_not_overtaken hg⟩⟩
  -- a run of all the steps in declaration order is the declaration order
  have hall : decidedIn h r = declarationOrder w := by
    refine horder.isPrefix.eq_of_length_le ?_
    rw [(hperm result hr).length_eq, Workflow.stepIds, List.length_map]
    exact inDeclarationOrder_declarationOrder.length_le
  rw [← hall]
  exact (hqueue.inDeclarationOrder_iff hg.nodup).mp horder

/-- Surroundings in which every step adds one to what it is given. -/
def Adding (q : Request ℕ) (reply : q.Reply) : Prop := reply = addsOne q

theorem traced_adding {α : Type} (m : Coroutine ℕ α) : Traced Adding m (m.replay addsOne).1 (m.replay addsOne).2 :=
  traced_replay (A := Adding) (fun _ => rfl) m

theorem returns_adding : Returns Adding := by
  rintro call ended rfl
  exact ⟨_, rfl⟩

theorem decided_in_order_fork : ∃ h result, Traced Adding (numbers.run fork 3 none) h (.ok result) ∧
    InDeclarationOrder fork (decidedIn h (.ok result)) ∧ ¬ Overtaken fork (declarationOrder fork) := by
  have hended : ((numbers.run fork 3 none).replay addsOne).2.toOption.isSome := by decide +kernel
  have htraced : Traced Adding (numbers.run fork 3 none) ((numbers.run fork 3 none).replay addsOne).1
      ((numbers.run fork 3 none).replay addsOne).2 := traced_adding _
  have horder : decidedIn ((numbers.run fork 3 none).replay addsOne).1
      ((numbers.run fork 3 none).replay addsOne).2 <+: declarationOrder fork := by decide +kernel
  cases hr : ((numbers.run fork 3 none).replay addsOne).2 with
  | error e =>
    rw [hr] at hended
    cases hended
  | ok result =>
    rw [hr] at htraced horder
    have hin := inDeclarationOrder_iff_isPrefix.mpr horder
    exact ⟨_, result, htraced, hin,
      ((decided_in_order (by decide +kernel) total_fork returns_adding htraced).2 result rfl).mp hin⟩

/-- A definition with two entries, and a step between them that follows the first one. -/
def interleaved : Workflow ℕ where
  name := "interleaved"
  steps := [{ id := "a" }, { id := "b" }, { id := "c" }]
  edges := [{ source := "a", target := "b" }]

/-- The second entry is decided before the step that is declared before it, and ready. -/
theorem decided_out_of_order : interleaved.validate = .ok () ∧ interleaved.Total ∧ Returns Adding ∧
    ∃ h r, Traced Adding (numbers.run interleaved 3 none) h r ∧ decidedIn h r = ["a", "c", "b"] ∧
      nextInOrder interleaved ["a"] = some "b" ∧ ¬ InDeclarationOrder interleaved (decidedIn h r) := by
  refine ⟨by decide +kernel, ?_, returns_adding, _, _, traced_adding _, ?_, ?_, ?_⟩
  · intro e he p hp
    simp only [interleaved, List.mem_singleton] at he
    rw [he] at hp
    cases hp
  · decide +kernel
  · decide +kernel
  · rw [inDeclarationOrder_iff_isPrefix]
    decide +kernel

end Runs

/-! ## The planner of the durable engine -/

section Planner

open Durable

variable {w : Workflow V} {null : V} {states : String → Option StepState} {outputs : String → Option V}

/-- The steps before the one that a plan runs or skips are decided, or wait for a source. -/
theorem planSteps_split {taken : List (String × String)} {steps : List (Step V)} {undecided : Bool} {plan : Plan V}
    {step : Step V} (h : planSteps w null states outputs taken steps undecided = .ok plan)
    (hstep : plan.ready? = some step) :
    ∃ pre post, steps = pre ++ step :: post ∧ ∀ s ∈ pre, Passed w states s.id := by
  induction steps generalizing undecided with
  | nil =>
    rw [planSteps] at h
    split_ifs at h
    cases h
    cases hstep
  | cons first rest ih =>
    rcases planSteps_cons_ready h hstep with ⟨hpassed, _, hrest⟩ | ⟨-, rfl⟩
    · obtain ⟨pre, post, rfl, hpre⟩ := ih hrest
      exact ⟨first :: pre, post, rfl, List.forall_mem_cons.mpr ⟨hpassed, hpre⟩⟩
    · exact ⟨[], rest, rfl, by simp⟩

/-- `plan_next` runs and skips the steps in declaration order. -/
theorem planNext_inOrder (hg : w.Graph) {plan : Plan V} {step : Step V}
    (h : planNext w null states outputs = .ok plan) (hstep : plan.ready? = some step) :
    nextInOrder w (w.stepIds.filter fun s => Resolved states s) = some step.id := by
  have hmem : ∀ s, s ∈ w.stepIds → (s ∈ w.stepIds.filter (fun s => Resolved states s) ↔ Resolved states s) := by
    intro s hs
    rw [List.mem_filter, decide_eq_true_iff, and_iff_right hs]
  have hsource : ∀ s, ∀ u ∈ w.sources s, u ∈ w.stepIds := by
    intro s u hu
    obtain ⟨e, he, rfl, -⟩ := Workflow.mem_sources.mp hu
    exact hg.source_mem e he
  -- the step itself is ready
  have hready : (step ∈ w.steps ∧ ¬ Resolved states step.id) ∧ ∀ e ∈ w.incoming step.id, Resolved states e.source := by
    have hfollows := planNext_follows hg h
    cases plan with
    | runStep =>
      obtain rfl := Option.some.inj hstep
      exact ⟨⟨hfollows.1.1, hfollows.1.2.1⟩, hfollows.2.1⟩
    | skipStep =>
      obtain rfl := Option.some.inj hstep
      exact ⟨⟨hfollows.1.1, hfollows.1.2.1⟩, hfollows.2.1⟩
    | complete => cases hstep
    | conflict => cases hstep
    | needsDecision => cases hstep
  obtain ⟨⟨hin, hopen⟩, hresolved⟩ := hready
  have hid : step.id ∈ w.stepIds := List.mem_map_of_mem hin
  refine (nextInOrder_eq_some hg.nodup hid (fun hd => hopen ((hmem _ hid).mp hd)) ?_).mpr ?_
  · intro u hu
    obtain ⟨e, he, rfl⟩ := List.mem_map.mp hu
    exact (hmem _ (hsource _ _ hu)).mpr (hresolved e he)
  · rintro t ⟨pre', post', heq', ht⟩ ⟨htd, hts⟩
    unfold planNext at h
    cases htaken : takenEdges w null states outputs w.steps with
    | error e =>
      rw [htaken] at h
      cases h
    | ok taken =>
      rw [htaken] at h
      obtain ⟨pre, post, heq, hpre⟩ := planSteps_split h hstep
      have hsplit : w.stepIds = pre.map Step.id ++ step.id :: post.map Step.id := by
        rw [Workflow.stepIds, heq, List.map_append, List.map_cons]
      have hn := hg.nodup
      rw [hsplit, List.nodup_append] at hn
      have hnpre : step.id ∉ pre.map Step.id := fun h => hn.2.2 _ h _ (by simp) rfl
      have hnpost : step.id ∉ post.map Step.id := (List.nodup_cons.mp hn.2.1).1
      obtain ⟨rfl, -, -⟩ := (List.append_cons_inj_of_notMem hnpre hnpost).mp (hsplit.symm.trans heq')
      obtain ⟨s, hs, rfl⟩ := List.mem_map.mp ht
      have hsw : s.id ∈ w.stepIds := by
        rw [hsplit]
        exact List.mem_append_left _ ht
      rcases hpre s hs with hres | ⟨-, e, he, hne⟩
      · exact htd ((hmem _ hsw).mpr hres)
      · have heu : e.source ∈ w.sources s.id := List.mem_map_of_mem he
        exact hne ((hmem _ (hsource _ _ heu)).mp (hts _ heu))

end Planner

end Xyberos.Execution
