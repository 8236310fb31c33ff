import Mathlib.Data.List.Chain
import Mathlib.Data.List.Induction
import Mathlib.Data.List.Nodup
import Mathlib.Data.List.Perm.Basic
import Mathlib.Data.Set.Finite.List
import Mathlib.Logic.Relation
import Mathlib.Order.WellFounded
import Mathlib.Tactic.Linarith

/-!
# Xyberos.Base.Dag — orders of a graph, and Kahn's algorithm

A graph is given by the predecessors of each vertex.  `Ordered preds l`: in the list `l` every vertex comes after its
predecessors; it gives induction along the graph (`Ordered.induction`) and least vertices (`Ordered.exists_least`).

Kahn's algorithm takes a vertex off a queue and counts down what its successors still wait for; one that waits for
nothing more is queued.  `Kahn` is its invariant, one turn of the queue keeps it (`Kahn.pop`), and when the queue is
empty every vertex was taken off, if the graph has an order at all (`Kahn.complete`).
-/

set_option autoImplicit false

namespace Xyberos

variable {κ : Type}

/-! ## Orders -/

/-- Every vertex of the list comes after its predecessors. -/
def Ordered (preds : κ → List κ) (l : List κ) : Prop :=
  ∀ pre x post, l = pre ++ x :: post → ∀ y ∈ preds x, y ∈ pre

namespace Ordered

variable {preds : κ → List κ} {l : List κ}

theorem nil : Ordered preds [] := by
  intro pre x post h
  simp at h

theorem concat (h : Ordered preds l) {x : κ} (hx : ∀ y ∈ preds x, y ∈ l) : Ordered preds (l ++ [x]) := by
  intro pre y post he z hz
  rcases List.append_eq_append_iff.mp he with ⟨mid, rfl, hmid⟩ | ⟨mid, rfl, hmid⟩
  · cases mid with
    | nil =>
      obtain ⟨rfl, -⟩ := List.cons.inj hmid
      simpa using hx z hz
    | cons w mid => simp at hmid
  · cases mid with
    | nil =>
      obtain ⟨rfl, -⟩ := List.cons.inj hmid
      simpa using hx z hz
    | cons w mid =>
      obtain ⟨rfl, -⟩ := List.cons.inj hmid
      exact h pre y mid rfl z hz

theorem append_left {l' : List κ} (h : Ordered preds (l ++ l')) : Ordered preds l := by
  intro pre x post he
  exact h pre x (post ++ l') (by rw [he, List.append_assoc, List.cons_append])

theorem of_prefix {l' : List κ} (h : Ordered preds l) (hp : l' <+: l) : Ordered preds l' := by
  obtain ⟨rest, rfl⟩ := hp
  exact h.append_left

/-- No vertex of an order has a predecessor behind it. -/
theorem pairwise (h : Ordered preds l) (hn : l.Nodup) : l.Pairwise fun x y => y ∉ preds x := by
  induction l using List.reverseRecOn with
  | nil => exact List.Pairwise.nil
  | append_singleton l z ih =>
    have hn' := List.nodup_append.mp hn
    refine List.pairwise_append.mpr ⟨ih h.append_left hn'.1, List.pairwise_singleton .., fun x hx y hy hxy => ?_⟩
    obtain rfl := List.mem_singleton.mp hy
    obtain ⟨pre, post, rfl⟩ := List.append_of_mem hx
    exact hn'.2.2 y (List.mem_append_left _ (h.append_left pre x post rfl y hxy)) y (List.mem_singleton_self y) rfl

/-- What goes backwards along an order leaves the predecessors for later. -/
theorem pairwise_of_sublist_reverse (h : Ordered preds l) (hn : l.Nodup) {l' : List κ} (hl : l'.Sublist l.reverse) :
    l'.Pairwise fun x y => x ∉ preds y :=
  (List.pairwise_reverse.mpr (h.pairwise hn)).sublist hl

/-- **Induction along an order.** -/
theorem induction (h : Ordered preds l) {P : κ → Prop} (hstep : ∀ x ∈ l, (∀ y ∈ preds x, P y) → P x) :
    ∀ x ∈ l, P x := by
  induction l using List.reverseRecOn with
  | nil => simp
  | append_singleton l x ih =>
    have hl : ∀ y ∈ l, P y := ih h.append_left fun y hy => hstep y (List.mem_append_left _ hy)
    intro y hy
    rcases List.mem_append.mp hy with hy | hy
    · exact hl y hy
    · obtain rfl := List.mem_singleton.mp hy
      exact hstep y (by simp) fun z hz => hl z (h l y [] rfl z hz)

/-- Among the vertices with a property there is one without such a predecessor. -/
theorem exists_least (h : Ordered preds l) {P : κ → Prop} (hex : ∃ x ∈ l, P x) :
    ∃ x ∈ l, P x ∧ ∀ y ∈ preds x, ¬ P y := by
  by_contra hn
  push Not at hn
  obtain ⟨x, hx, hPx⟩ := hex
  refine absurd hPx (h.induction (P := fun x => ¬ P x) (fun x hx hpreds hPx => ?_) x hx)
  obtain ⟨y, hy, hPy⟩ := hn x hx hPx
  exact hpreds y hy hPy

/-- A predecessor comes first. -/
theorem idxOf_lt [DecidableEq κ] (h : Ordered preds l) {x y : κ} (hx : x ∈ l) (hy : y ∈ preds x) :
    y ∈ l ∧ l.idxOf y < l.idxOf x := by
  obtain ⟨pre, post, hl, hpre⟩ := List.eq_append_cons_of_mem hx
  have hmem : y ∈ pre := h pre x post hl y hy
  refine ⟨by simp [hl, hmem], ?_⟩
  rw [hl, List.idxOf_append_of_mem hmem, List.idxOf_append_of_notMem hpre, List.idxOf_cons_self]
  have := List.idxOf_lt_length_of_mem hmem
  omega

/-- **No cycles.**  No vertex of an order is reached from itself along predecessors. -/
theorem not_transGen [DecidableEq κ] (h : Ordered preds l) {x : κ} (hx : x ∈ l) :
    ¬ Relation.TransGen (fun x y => y ∈ preds x) x x := by
  have hlt : ∀ y, Relation.TransGen (fun x y => y ∈ preds x) x y → y ∈ l ∧ l.idxOf y < l.idxOf x := by
    intro y hy
    induction hy with
    | single hy => exact h.idxOf_lt hx hy
    | tail _ hz ih =>
      obtain ⟨hmem, hlt⟩ := h.idxOf_lt ih.1 hz
      exact ⟨hmem, hlt.trans ih.2⟩
  exact fun hc => absurd (hlt x hc).2 (lt_irrefl _)

end Ordered

/-- A chain leads from its first vertex to its last. -/
theorem transGen_of_isChain {R : κ → κ → Prop} {a b : κ} {l : List κ} (h : (a :: (l ++ [b])).IsChain R) :
    Relation.TransGen R a b := by
  induction l generalizing a with
  | nil => exact .single (List.isChain_cons_cons.mp h).1
  | cons c l ih =>
    obtain ⟨hac, hl⟩ := List.isChain_cons_cons.mp h
    exact .head hac (ih hl)

/-- Where every vertex of a list has a predecessor in it, one of them is on a cycle. -/
theorem exists_cycle {R : κ → κ → Prop} {l : List κ} (hne : l ≠ []) (h : ∀ x ∈ l, ∃ y ∈ l, R y x) :
    ∃ x ∈ l, Relation.TransGen R x x := by
  by_contra hn
  push Not at hn
  let S : Type := { x // x ∈ l }
  have hfinite : Finite S := List.finite_toSet l
  let lt : S → S → Prop := fun x y => Relation.TransGen R x.1 y.1
  have htrans : IsTrans S lt := ⟨fun x y z hxy hyz => Relation.TransGen.trans hxy hyz⟩
  have hirrefl : Std.Irrefl lt := ⟨fun x => hn x.1 x.2⟩
  have hwf : WellFounded lt := Finite.wellFounded_of_trans_of_irrefl lt
  obtain ⟨a, ha⟩ := List.exists_mem_of_ne_nil l hne
  obtain ⟨x, -, hmin⟩ := hwf.has_min Set.univ ⟨⟨a, ha⟩, trivial⟩
  obtain ⟨y, hy, hyx⟩ := h x.1 x.2
  exact hmin ⟨y, hy⟩ trivial (.single hyx)

/-! ## Kahn's algorithm -/

variable [DecidableEq κ]

/-- One turn of the queue: each successor waits for one less, and is queued when it waits for nothing more. -/
def relax : List κ → (κ → ℤ) → List κ → (κ → ℤ) × List κ
  | [], waiters, ready => (waiters, ready)
  | x :: xs, waiters, ready =>
    relax xs (fun y => if y = x then waiters x - 1 else waiters y)
      (if waiters x - 1 = 0 then ready ++ [x] else ready)

theorem relax_eq {targets : List κ} (hn : targets.Nodup) (waiters : κ → ℤ) (ready : List κ) :
    relax targets waiters ready =
      (fun y => if y ∈ targets then waiters y - 1 else waiters y, ready ++ targets.filter fun x => waiters x = 1) := by
  induction targets generalizing waiters ready with
  | nil => simp [relax]
  | cons x xs ih =>
    obtain ⟨hx, hn⟩ := List.nodup_cons.mp hn
    rw [relax, ih hn]
    refine Prod.ext (funext fun y => ?_) ?_
    · by_cases hy : y = x
      · subst hy
        simp [hx]
      · simp [hy]
    · have hfilter : (xs.filter fun y => (if y = x then waiters x - 1 else waiters y) = 1) =
          xs.filter fun y => waiters y = 1 := by
        refine List.filter_congr fun y hy => ?_
        have hne : y ≠ x := fun he => hx (he ▸ hy)
        rw [if_neg hne]
      have hone : waiters x - 1 = 0 ↔ waiters x = 1 := by omega
      dsimp only
      rw [hfilter]
      by_cases h : waiters x = 1
      · simp [h]
      · simp [h, hone]

/-- The vertices taken off the queue, the queue, and how many predecessors each vertex still waits for. -/
structure Kahn (preds : κ → List κ) (vertices done ready : List κ) (waiters : κ → ℤ) : Prop where
  nodup : (done ++ ready).Nodup
  waits : ∀ x ∈ vertices, waiters x = ((preds x).filter (· ∉ done)).length
  mem_iff : ∀ x, x ∈ done ++ ready ↔ x ∈ vertices ∧ waiters x = 0
  ordered : Ordered preds done

namespace Kahn

variable {preds succs : κ → List κ} {vertices done ready : List κ} {waiters : κ → ℤ} {x : κ}

/-- At the beginning the vertices without predecessors are queued. -/
theorem init (hn : vertices.Nodup) :
    Kahn preds vertices [] (vertices.filter fun x => ((preds x).length : ℤ) = 0) fun x => (preds x).length where
  nodup := hn.filter _
  waits x _ := by simp
  mem_iff x := by simp
  ordered := .nil

/-- Only the counts of vertices matter. -/
theorem congr {waiters' : κ → ℤ} (h : Kahn preds vertices done ready waiters)
    (heq : ∀ x ∈ vertices, waiters' x = waiters x) : Kahn preds vertices done ready waiters' where
  nodup := h.nodup
  waits x hx := by rw [heq x hx, h.waits x hx]
  mem_iff x := by
    rw [h.mem_iff x]
    exact and_congr_right fun hx => by rw [heq x hx]
  ordered := h.ordered

/-- The vertices taken off and queued wait for nothing. -/
theorem preds_done (h : Kahn preds vertices done ready waiters) (hx : x ∈ done ++ ready) {y : κ} (hy : y ∈ preds x) :
    y ∈ done := by
  obtain ⟨hv, hw⟩ := (h.mem_iff x).mp hx
  rw [h.waits x hv] at hw
  have hnil : (preds x).filter (· ∉ done) = [] := List.length_eq_zero_iff.mp (by exact_mod_cast hw)
  by_contra hn
  have : y ∈ (preds x).filter (· ∉ done) := List.mem_filter.mpr ⟨hy, by simpa using hn⟩
  rw [hnil] at this
  cases this

/-- **One turn.** -/
theorem pop (h : Kahn preds vertices done (x :: ready) waiters) (hpreds : ∀ y, (preds y).Nodup)
    (hsuccs : (succs x).Nodup) (hmem : ∀ y, y ∈ succs x ↔ x ∈ preds y) (hv : ∀ y ∈ succs x, y ∈ vertices) :
    Kahn preds vertices (done ++ [x]) (relax (succs x) waiters ready).2 (relax (succs x) waiters ready).1 := by
  rw [relax_eq hsuccs]
  dsimp only
  have hxmem : x ∈ done ++ x :: ready := by simp
  have hnodup := h.nodup
  have hxdone : x ∉ done := by
    rw [List.nodup_append] at hnodup
    exact fun hx => hnodup.2.2 x hx x (by simp) rfl
  -- what a vertex waits for after the turn
  have hcount : ∀ y, ((preds y).filter (· ∉ done)).length =
      ((preds y).filter (· ∉ done ++ [x])).length + if y ∈ succs x then 1 else 0 := by
    intro y
    have hsplit : (preds y).filter (· ∉ done ++ [x]) = ((preds y).filter (· ∉ done)).filter (· ≠ x) := by
      rw [List.filter_filter]
      exact List.filter_congr fun z _ => by simp [and_comm]
    have herase : ((preds y).filter (· ∉ done)).filter (· ≠ x) = ((preds y).filter (· ∉ done)).erase x := by
      rw [List.Nodup.erase_eq_filter ((hpreds y).filter _)]
      exact List.filter_congr fun z _ => by simp [bne, Bool.beq_eq_decide_eq]
    rw [hsplit, herase]
    by_cases hy : y ∈ succs x
    · have hx : x ∈ (preds y).filter (· ∉ done) :=
        List.mem_filter.mpr ⟨(hmem y).mp hy, by simpa using hxdone⟩
      rw [if_pos hy, List.length_erase_of_mem hx]
      have := List.length_pos_of_mem hx
      omega
    · have hx : x ∉ (preds y).filter (· ∉ done) := fun hx => hy ((hmem y).mpr (List.mem_of_mem_filter hx))
      rw [if_neg hy, List.erase_of_not_mem hx, Nat.add_zero]
  have hwaits : ∀ y ∈ vertices, (if y ∈ succs x then waiters y - 1 else waiters y) =
      ((preds y).filter (· ∉ done ++ [x])).length := by
    intro y hy
    have := hcount y
    have := h.waits y hy
    split_ifs at * <;> omega
  -- a successor that waited for one vertex was not in the queue
  have hfresh : ∀ y ∈ succs x, waiters y = 1 → y ∉ done ++ x :: ready := by
    intro y _ hw hin
    have := ((h.mem_iff y).mp hin).2
    omega
  refine ⟨?_, hwaits, fun y => ?_, h.ordered.concat fun y hy => h.preds_done hxmem hy⟩
  · have hassoc : done ++ [x] ++ (ready ++ (succs x).filter fun y => waiters y = 1) =
        (done ++ x :: ready) ++ (succs x).filter fun y => waiters y = 1 := by simp
    rw [hassoc, List.nodup_append]
    refine ⟨hnodup, hsuccs.filter _, ?_⟩
    rintro y hy z hz rfl
    obtain ⟨hz, hw⟩ := List.mem_filter.mp hz
    exact hfresh y hz (by simpa using hw) hy
  · have hold := h.mem_iff y
    have hnew : y ∈ done ++ [x] ++ (ready ++ (succs x).filter fun y => waiters y = 1) ↔
        y ∈ done ++ x :: ready ∨ y ∈ succs x ∧ waiters y = 1 := by
      simp only [List.mem_append, List.mem_cons, List.mem_filter, List.not_mem_nil, decide_eq_true_eq, or_false, or_assoc]
    rw [hnew, hold]
    by_cases hy : y ∈ succs x
    · have hyv := hv y hy
      have hpos : 1 ≤ waiters y := by
        have := hcount y
        have := h.waits y hyv
        rw [if_pos hy] at *
        omega
      simp only [hy, hyv, if_true, true_and]
      omega
    · simp [hy]

/-- When the queue is empty, every vertex was taken off. -/
theorem complete (h : Kahn preds vertices done [] waiters) {order : List κ} (ho : Ordered preds order)
    (hv : ∀ x ∈ vertices, x ∈ order) (hpv : ∀ x ∈ vertices, ∀ y ∈ preds x, y ∈ vertices) :
    ∀ x ∈ vertices, x ∈ done := by
  by_contra hn
  push Not at hn
  obtain ⟨x, hx, hxd⟩ := hn
  obtain ⟨y, -, ⟨hyv, hyd⟩, hleast⟩ := ho.exists_least (P := fun x => x ∈ vertices ∧ x ∉ done) ⟨x, hv x hx, hx, hxd⟩
  -- the least vertex that is left waits for nothing, so it was queued
  have hwaits : waiters y = 0 := by
    rw [h.waits y hyv, List.filter_eq_nil_iff.mpr]
    · rfl
    · intro z hz
      have := hleast z hz
      simpa using fun hzd => this ⟨hpv y hyv z hz, hzd⟩
  have := (h.mem_iff y).mpr ⟨hyv, hwaits⟩
  exact hyd (by simpa using this)

end Kahn

end Xyberos
