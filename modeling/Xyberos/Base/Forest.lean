import Mathlib.Data.List.Basic

/-!
# Xyberos.Base.Forest — a tree in order of growth

Node `0` is the root and `parents[k]` the parent of node `k + 1`, so a tree grows by one entry at the end.
-/

set_option autoImplicit false

namespace Xyberos

/-- `a` is the node or an ancestor of it. -/
inductive Descends (parents : List ℕ) (a : ℕ) : ℕ → Prop
  | self : Descends parents a a
  | child {s k : ℕ} (h : Descends parents a s) (hk : parents[k]? = some s) : Descends parents a (k + 1)

/-- Every parent is older than its child. -/
def Grown (parents : List ℕ) : Prop := ∀ k p : ℕ, parents[k]? = some p → p ≤ k

variable {parents : List ℕ} {a s k p : ℕ}

theorem Descends.le (hg : Grown parents) (h : Descends parents a s) : a ≤ s := by
  induction h with
  | self => exact Nat.le_refl _
  | child _ hk ih =>
    have := hg _ _ hk
    omega

/-- A descendant is the node itself, or descends from one of its children. -/
theorem Descends.eq_or_child (h : Descends parents a s) :
    s = a ∨ ∃ k, parents[k]? = some a ∧ Descends parents (k + 1) s := by
  induction h with
  | self => exact .inl rfl
  | @child s k _ hk ih =>
    rcases ih with rfl | ⟨m, hm, hdesc⟩
    · exact .inr ⟨k, hk, .self⟩
    · exact .inr ⟨m, hm, .child hdesc hk⟩

theorem Descends.of_child (hk : parents[k]? = some a) (h : Descends parents (k + 1) s) : Descends parents a s := by
  induction h with
  | self => exact .child .self hk
  | child _ hm ih => exact .child ih hm

/-- An ancestor of a child is the child itself, or an ancestor of its parent. -/
theorem Descends.eq_or_parent (h : Descends parents a (k + 1)) (hk : parents[k]? = some p) :
    a = k + 1 ∨ Descends parents a p := by
  cases h with
  | self => exact .inl rfl
  | child h hk' =>
    obtain rfl : p = _ := Option.some.inj (hk.symm.trans hk')
    exact .inr h

/-- A child is no ancestor of its parent. -/
theorem not_descends_parent (hg : Grown parents) (hk : parents[k]? = some p) : ¬ Descends parents (k + 1) p := by
  intro h
  have := h.le hg
  have := hg _ _ hk
  omega

/-- A child is no ancestor of another child of its parent. -/
theorem not_descends_sibling {m : ℕ} (hg : Grown parents) (hk : parents[k]? = some p) (hm : parents[m]? = some p)
    (hne : m ≠ k) : ¬ Descends parents (k + 1) (m + 1) := by
  intro h
  rcases h.eq_or_parent hm with heq | hdesc
  · omega
  · exact not_descends_parent hg hk hdesc

/-! ## Growth -/

theorem Grown.append (hg : Grown parents) (hp : p ≤ parents.length) : Grown (parents ++ [p]) := by
  intro k q hk
  rcases Nat.lt_or_ge k parents.length with hlt | hge
  · rw [List.getElem?_append_left hlt] at hk
    exact hg k q hk
  · have hk' := (List.getElem?_eq_some_iff.mp hk).1
    rw [List.length_append, List.length_singleton] at hk'
    obtain rfl : k = parents.length := by omega
    rw [List.getElem?_append_right (Nat.le_refl _), Nat.sub_self] at hk
    obtain rfl : p = q := Option.some.inj hk
    exact hp

theorem Descends.append (h : Descends parents a s) (p : ℕ) : Descends (parents ++ [p]) a s := by
  induction h with
  | self => exact .self
  | child _ hk ih => exact .child ih (List.getElem?_append_left (List.getElem?_eq_some_iff.mp hk).1 ▸ hk)

/-- The ancestors of the old nodes stay. -/
theorem descends_append (hg : Grown parents) (hs : s ≤ parents.length) :
    Descends (parents ++ [p]) a s ↔ Descends parents a s := by
  constructor
  · intro h
    induction h with
    | self => exact .self
    | @child s k _ hk ih =>
      rw [List.getElem?_append_left (show k < parents.length by omega)] at hk
      have := hg _ _ hk
      exact .child (ih (by omega)) hk
  · exact fun h => h.append p

/-- The new node descends from itself and from the ancestors of its parent. -/
theorem descends_new (hg : Grown parents) (hp : p ≤ parents.length) :
    Descends (parents ++ [p]) a (parents.length + 1) ↔ a = parents.length + 1 ∨ Descends parents a p := by
  have hk : (parents ++ [p])[parents.length]? = some p := by
    rw [List.getElem?_append_right (Nat.le_refl _), Nat.sub_self]
    rfl
  constructor
  · intro h
    exact (h.eq_or_parent hk).imp_right (descends_append hg hp).mp
  · rintro (rfl | h)
    · exact .self
    · exact .child (h.append p) hk

end Xyberos
