import Mathlib.Data.List.Basic
import Mathlib.Data.List.Nodup

/-!
# Xyberos.Base.Table — tables with a primary key

A table is a list of rows in insertion order, no key occurring twice.  The operations are the SQL statements a
store is written with: `SELECT`, `INSERT` (refused on a key that exists), `INSERT .. ON CONFLICT DO UPDATE`,
`UPDATE .. WHERE` with its row count, and `DELETE`.  Every statement is characterised by the row it leaves under
each key, so a proof about a store reads rows and never unfolds a list.
-/

set_option autoImplicit false

namespace Xyberos

/-- Rows under a primary key, in insertion order. -/
structure Table (κ ρ : Type) where
  rows : List (κ × ρ)
  nodup : (rows.map Prod.fst).Nodup

namespace Table

variable {κ ρ : Type} [DecidableEq κ]

/-- The table without rows. -/
def empty : Table κ ρ := ⟨[], List.nodup_nil⟩

/-- The row under `k`. -/
def get? (t : Table κ ρ) (k : κ) : Option ρ := t.rows.lookup k

/-- `INSERT`: `none` when the key is taken. -/
def insert? (t : Table κ ρ) (k : κ) (r : ρ) : Option (Table κ ρ) :=
  if h : k ∈ t.rows.map Prod.fst then none
  else some ⟨t.rows ++ [(k, r)], by
    rw [List.map_append, List.nodup_append]
    refine ⟨t.nodup, by simp, fun a ha b hb => ?_⟩
    rw [List.map_singleton, List.mem_singleton] at hb
    rintro rfl
    subst hb
    exact h ha⟩

/-- Change the row under `k`, if there is one. -/
def modify (t : Table κ ρ) (k : κ) (f : ρ → ρ) : Table κ ρ where
  rows := t.rows.map fun x => if x.1 = k then (x.1, f x.2) else x
  nodup := by
    have h : Prod.fst ∘ (fun x : κ × ρ => if x.1 = k then (x.1, f x.2) else x) = Prod.fst := by
      funext x
      by_cases hx : x.1 = k <;> simp [hx]
    rw [List.map_map, h]
    exact t.nodup

/-- `UPDATE .. WHERE key = k AND p`: the table and the number of rows changed. -/
def update (t : Table κ ρ) (k : κ) (p : ρ → Prop) [DecidablePred p] (f : ρ → ρ) : Table κ ρ × ℕ :=
  match t.get? k with
  | some r => if p r then (t.modify k f, 1) else (t, 0)
  | none => (t, 0)

/-- `DELETE .. WHERE key = k`. -/
def delete (t : Table κ ρ) (k : κ) : Table κ ρ where
  rows := t.rows.filter fun x => x.1 ≠ k
  nodup := t.nodup.sublist (List.filter_sublist.map Prod.fst)

/-- `INSERT .. ON CONFLICT (key) DO UPDATE`: `r` for a new key, `f` of the row that is there otherwise. -/
def upsert (t : Table κ ρ) (k : κ) (r : ρ) (f : ρ → ρ) : Table κ ρ :=
  match t.get? k with
  | some _ => t.modify k f
  | none => (t.insert? k r).getD t

/-- `SELECT .. WHERE p`, in insertion order. -/
def select (t : Table κ ρ) (p : κ → ρ → Prop) [∀ k r, Decidable (p k r)] : List (κ × ρ) :=
  t.rows.filter fun x => p x.1 x.2

/-! ## The row each statement leaves -/

section Rows

@[simp] theorem get?_empty (k : κ) : (empty : Table κ ρ).get? k = none := rfl

theorem lookup_eq_none_iff {l : List (κ × ρ)} {k : κ} : l.lookup k = none ↔ k ∉ l.map Prod.fst := by
  rw [List.lookup_eq_none_iff]
  constructor
  · rintro h hk
    obtain ⟨x, hx, rfl⟩ := List.mem_map.mp hk
    simpa using h x hx
  · rintro h x hx
    rw [bne_iff_ne]
    rintro rfl
    exact h (List.mem_map_of_mem hx)

theorem lookup_mem {l : List (κ × ρ)} {k : κ} {r : ρ} (h : l.lookup k = some r) : (k, r) ∈ l := by
  induction l with
  | nil => simp at h
  | cons x l ih =>
    obtain ⟨k', r'⟩ := x
    rw [List.lookup_cons] at h
    by_cases hk : k = k'
    · simp [hk] at h
      simp [hk, h]
    · rw [beq_eq_false_iff_ne.mpr hk] at h
      exact List.mem_cons_of_mem _ (ih h)

theorem lookup_of_mem {l : List (κ × ρ)} (hn : (l.map Prod.fst).Nodup) {k : κ} {r : ρ} (h : (k, r) ∈ l) :
    l.lookup k = some r := by
  induction l with
  | nil => simp at h
  | cons x l ih =>
    obtain ⟨k', r'⟩ := x
    rw [List.map_cons, List.nodup_cons] at hn
    rw [List.lookup_cons]
    rcases List.mem_cons.mp h with he | hm
    · obtain ⟨rfl, rfl⟩ := Prod.mk.inj he
      simp
    · have hk : k ≠ k' := by
        rintro rfl
        exact hn.1 (List.mem_map.mpr ⟨_, hm, rfl⟩)
      rw [beq_eq_false_iff_ne.mpr hk]
      exact ih hn.2 hm

theorem get?_eq_some_iff {t : Table κ ρ} {k : κ} {r : ρ} : t.get? k = some r ↔ (k, r) ∈ t.rows :=
  ⟨lookup_mem, lookup_of_mem t.nodup⟩

/-- A row of a part of the table is the row of the table. -/
theorem get?_of_sublist {t t' : Table κ ρ} (h : t'.rows.Sublist t.rows) {k : κ} {r : ρ} (hr : t'.get? k = some r) :
    t.get? k = some r :=
  get?_eq_some_iff.mpr (h.subset (get?_eq_some_iff.mp hr))

theorem mem_select {t : Table κ ρ} {p : κ → ρ → Prop} [∀ k r, Decidable (p k r)] {k : κ} {r : ρ} :
    (k, r) ∈ t.select p ↔ t.get? k = some r ∧ p k r := by
  rw [get?_eq_some_iff, select, List.mem_filter, decide_eq_true_iff]

omit [DecidableEq κ] in
/-- No key is selected twice. -/
theorem nodup_select (t : Table κ ρ) (p : κ → ρ → Prop) [∀ k r, Decidable (p k r)] :
    ((t.select p).map Prod.fst).Nodup :=
  t.nodup.sublist (List.filter_sublist.map Prod.fst)

theorem insert?_eq_none_iff {t : Table κ ρ} {k : κ} {r : ρ} : t.insert? k r = none ↔ (t.get? k).isSome := by
  unfold insert? get?
  rw [← Option.ne_none_iff_isSome, ne_eq, lookup_eq_none_iff, not_not]
  by_cases h : k ∈ t.rows.map Prod.fst <;> simp only [h, dif_pos, dif_neg, not_false_eq_true, reduceCtorEq]

theorem get?_of_insert? {t t' : Table κ ρ} {k : κ} {r : ρ} (h : t.insert? k r = some t') : t.get? k = none := by
  rw [← Option.not_isSome_iff_eq_none, ← insert?_eq_none_iff, h]
  exact Option.some_ne_none _

theorem get?_insert? {t t' : Table κ ρ} {k : κ} {r : ρ} (h : t.insert? k r = some t') (k' : κ) :
    t'.get? k' = if k' = k then some r else t.get? k' := by
  unfold insert? at h
  split_ifs at h with hk
  simp only [Option.some.injEq] at h
  subst h
  show (t.rows ++ [(k, r)]).lookup k' = _
  rw [List.lookup_append]
  by_cases hkk : k' = k
  · subst hkk
    rw [lookup_eq_none_iff.mpr hk]
    simp
  · rw [if_neg hkk, List.lookup_cons, beq_eq_false_iff_ne.mpr hkk]
    simp [get?]

theorem get?_modify (t : Table κ ρ) (k : κ) (f : ρ → ρ) (k' : κ) :
    (t.modify k f).get? k' = if k' = k then (t.get? k).map f else t.get? k' := by
  show (t.rows.map _).lookup k' = _
  unfold get?
  generalize t.rows = l
  induction l with
  | nil => simp
  | cons x l ih =>
    obtain ⟨a, b⟩ := x
    rw [List.map_cons]
    by_cases ha : a = k
    · subst ha
      by_cases hk : k' = a
      · subst hk; simp
      · rw [if_neg hk] at ih ⊢
        simp only [if_true, List.lookup_cons, beq_eq_false_iff_ne.mpr hk, ih]
    · rw [if_neg ha, List.lookup_cons, List.lookup_cons, List.lookup_cons, ih]
      by_cases hk : k' = k
      · subst hk
        simp [beq_eq_false_iff_ne.mpr (Ne.symm ha)]
      · simp only [if_neg hk]

@[simp] theorem get?_modify_self (t : Table κ ρ) (k : κ) (f : ρ → ρ) :
    (t.modify k f).get? k = (t.get? k).map f := by
  rw [get?_modify, if_pos rfl]

theorem modify_of_none {t : Table κ ρ} {k : κ} {f : ρ → ρ} (h : t.get? k = none) : t.modify k f = t := by
  have hk : ∀ x ∈ t.rows, x.1 ≠ k := by
    rintro x hx rfl
    rw [get?_eq_some_iff.mpr hx] at h
    cases h
  have hr : t.rows.map (fun x => if x.1 = k then (x.1, f x.2) else x) = t.rows := by
    conv_rhs => rw [← List.map_id t.rows]
    exact List.map_congr_left fun x hx => if_neg (hk x hx)
  cases t
  exact (Table.mk.injEq ..).mpr hr

theorem get?_delete (t : Table κ ρ) (k k' : κ) :
    (t.delete k).get? k' = if k' = k then none else t.get? k' := by
  show (t.rows.filter _).lookup k' = _
  unfold get?
  generalize t.rows = l
  induction l with
  | nil => simp
  | cons x l ih =>
    obtain ⟨a, b⟩ := x
    by_cases ha : a = k
    · subst ha
      rw [List.filter_cons_of_neg (by simp), ih, List.lookup_cons]
      by_cases hk : k' = a
      · simp [hk]
      · simp only [if_neg hk, beq_eq_false_iff_ne.mpr hk]
    · rw [List.filter_cons_of_pos (by simpa using ha), List.lookup_cons, List.lookup_cons, ih]
      by_cases hk : k' = k
      · subst hk
        simp [beq_eq_false_iff_ne.mpr (Ne.symm ha)]
      · simp only [if_neg hk]

theorem get?_upsert (t : Table κ ρ) (k : κ) (r : ρ) (f : ρ → ρ) (k' : κ) :
    (t.upsert k r f).get? k' = if k' = k then some (((t.get? k).map f).getD r) else t.get? k' := by
  unfold upsert
  cases hk : t.get? k with
  | some old =>
    dsimp only
    rw [get?_modify, hk]
    rfl
  | none =>
    dsimp only
    cases hi : t.insert? k r with
    | none =>
      rw [insert?_eq_none_iff, hk] at hi
      simp at hi
    | some t' => exact get?_insert? hi k'

/-- A row that is there keeps its place. -/
theorem rows_upsert_of_some {t : Table κ ρ} {k : κ} {old : ρ} (h : t.get? k = some old) (r : ρ) (f : ρ → ρ) :
    (t.upsert k r f).rows = t.rows.map fun x => if x.1 = k then (x.1, f x.2) else x := by
  unfold upsert
  rw [h]
  rfl

/-- A new row is the last one. -/
theorem rows_upsert_of_none {t : Table κ ρ} {k : κ} (h : t.get? k = none) (r : ρ) (f : ρ → ρ) :
    (t.upsert k r f).rows = t.rows ++ [(k, r)] := by
  have hk : k ∉ t.rows.map Prod.fst := lookup_eq_none_iff.mp h
  unfold upsert insert?
  rw [h]
  dsimp only
  rw [dif_neg hk]
  rfl

/-! ### `UPDATE` -/

variable {t : Table κ ρ} {k : κ} {p : ρ → Prop} [DecidablePred p] {f : ρ → ρ}

theorem update_of_pos {r : ρ} (h : t.get? k = some r) (hp : p r) : t.update k p f = (t.modify k f, 1) := by
  simp only [update, h, if_pos hp]

theorem update_of_neg (h : ∀ r, t.get? k = some r → ¬ p r) : t.update k p f = (t, 0) := by
  unfold update
  cases hk : t.get? k with
  | none => rfl
  | some r => dsimp only; rw [if_neg (h r hk)]

/-- An `UPDATE` whose condition does not depend on the row. -/
theorem update_const {q : Prop} [Decidable q] (hq : q) : (t.update k (fun _ => q) f).1 = t.modify k f := by
  cases h : t.get? k with
  | none =>
    rw [modify_of_none h]
    exact congrArg Prod.fst (update_of_neg fun r hr => by rw [h] at hr; cases hr)
  | some r => rw [update_of_pos h hq]

theorem update_snd_eq_one_iff : (t.update k p f).2 = 1 ↔ ∃ r, t.get? k = some r ∧ p r := by
  constructor
  · intro h
    by_contra hc
    rw [update_of_neg fun r hr hp => hc ⟨r, hr, hp⟩] at h
    exact absurd h (by simp)
  · rintro ⟨r, hr, hp⟩
    rw [update_of_pos hr hp]

/-- The rows after an `UPDATE`. -/
theorem get?_update (k' : κ) :
    (t.update k p f).1.get? k' =
      if k' = k then (t.get? k).map (fun r => if p r then f r else r) else t.get? k' := by
  cases hk : t.get? k with
  | none =>
    rw [update_of_neg fun r hr => by rw [hk] at hr; cases hr]
    by_cases h : k' = k <;> simp [h, hk]
  | some r =>
    by_cases hp : p r
    · rw [update_of_pos hk hp, get?_modify, hk]
      simp [hp]
    · rw [update_of_neg fun r' hr' => by rw [hk] at hr'; cases hr'; exact hp]
      by_cases h : k' = k <;> simp [h, hk, hp]

end Rows

end Table

end Xyberos
