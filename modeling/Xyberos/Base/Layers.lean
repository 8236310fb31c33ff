import Xyberos.Base.Table
import Mathlib.Data.List.Induction

/-!
# Xyberos.Base.Layers — layers of nested tables

A tree is a value or a table of trees under distinct keys.  `merge` lays one tree over another: tables are merged key
by key, anything else replaces what is below.  `lastWord` is what merging is for, and does not merge: at a path,
the last layer that has something there has the word, where a layer counts only after the last one that put a value in place of
a table on the way.  `view_combine` says that merging layers from the bottom up gives at every path what they say.
-/

set_option autoImplicit false

namespace Xyberos

/-- A value, or a table in order of insertion. -/
inductive Tree (κ α : Type) where
  | leaf (a : α)
  | table (items : List (κ × Tree κ α))

namespace Tree

variable {κ α β : Type} [DecidableEq κ]

/-- Set the item under `k`. -/
def put (k : κ) (b : β) : List (κ × β) → List (κ × β)
  | [] => [(k, b)]
  | (k', b') :: l => if k' = k then (k, b) :: l else (k', b') :: put k b l

mutual

/-- `upper` laid over a tree. -/
def merge : Tree κ α → Tree κ α → Tree κ α
  | _, .leaf a => .leaf a
  | base, .table upper =>
    match base with
    | .leaf _ => .table upper
    | .table items => .table (mergeItems items upper)

/-- The items of `upper` laid over a table, one after the other. -/
def mergeItems : List (κ × Tree κ α) → List (κ × Tree κ α) → List (κ × Tree κ α)
  | base, [] => base
  | base, (k, tree) :: upper =>
    mergeItems (put k (match base.lookup k with
      | some below => merge below tree
      | none => tree) base) upper

end

/-- Trees whose tables have distinct keys. -/
inductive Valid : Tree κ α → Prop where
  | leaf (a : α) : Valid (.leaf a)
  | table {items : List (κ × Tree κ α)} (nodup : (items.map Prod.fst).Nodup)
      (valid : ∀ item ∈ items, Valid item.2) : Valid (.table items)

/-- What a tree has at a path: a value, a table (`some none`), or nothing. -/
def view : Tree κ α → List κ → Option (Option α)
  | .leaf a, [] => some (some a)
  | .table _, [] => some none
  | .leaf _, _ :: _ => none
  | .table items, k :: path => (items.lookup k).bind fun tree => tree.view path

/-- The tables after the last value. -/
def tables (layers : List (Tree κ α)) : List (List (κ × Tree κ α)) :=
  layers.foldl (fun found tree => match tree with
    | .leaf _ => []
    | .table items => found ++ [items]) []

/-- What the layers have under a key. -/
def under (k : κ) (found : List (List (κ × Tree κ α))) : List (Tree κ α) := found.filterMap fun items => items.lookup k

/-- The keys, in the order in which the tables introduce them. -/
def introduced (found : List (List (κ × Tree κ α))) : List κ :=
  found.foldl (fun ks items => ks ++ (items.map Prod.fst).filter fun k => k ∉ ks) []

/-- The last word on a path. -/
def lastWord : List (Tree κ α) → List κ → Option (Option α)
  | layers, [] => layers.getLast?.bind fun tree => tree.view []
  | layers, k :: path => lastWord (under k (tables layers)) path

/-- The layers merged from the bottom up. -/
def combine (layers : List (Tree κ α)) : Option (Tree κ α) :=
  layers.foldl (fun below tree => some (match below with
    | none => tree
    | some base => merge base tree)) none

/-- The item of a tree under a key. -/
def item (tree : Option (Tree κ α)) (k : κ) : Option (Tree κ α) :=
  match tree with
  | some (.table items) => items.lookup k
  | _ => none

/-- The keys of a tree. -/
def keys (tree : Option (Tree κ α)) : List κ :=
  match tree with
  | some (.table items) => items.map Prod.fst
  | _ => []

section Put

variable {l : List (κ × β)} {k : κ} {b : β}

theorem lookup_put (l : List (κ × β)) (k : κ) (b : β) (k' : κ) :
    (put k b l).lookup k' = if k' = k then some b else l.lookup k' := by
  induction l with
  | nil =>
    by_cases hk : k' = k
    · simp [put, hk]
    · rw [put, List.lookup_cons, beq_false_of_ne hk, if_neg hk]
  | cons x l ih =>
    obtain ⟨a, c⟩ := x
    unfold put
    by_cases ha : a = k
    · subst ha
      by_cases hk : k' = a
      · simp [hk]
      · simp [List.lookup_cons, hk, beq_false_of_ne hk]
    · rw [if_neg ha, List.lookup_cons, List.lookup_cons, ih]
      by_cases hk : k' = k
      · have hne : k' ≠ a := fun h => ha (h.symm.trans hk)
        rw [if_pos hk, if_pos hk, beq_false_of_ne hne]
      · rw [if_neg hk, if_neg hk]

/-- A new key comes last. -/
theorem keys_put (l : List (κ × β)) (k : κ) (b : β) :
    (put k b l).map Prod.fst = if k ∈ l.map Prod.fst then l.map Prod.fst else l.map Prod.fst ++ [k] := by
  induction l with
  | nil => simp [put]
  | cons x l ih =>
    obtain ⟨a, c⟩ := x
    unfold put
    by_cases ha : a = k
    · simp [ha]
    · rw [if_neg ha, List.map_cons, ih]
      by_cases hk : k ∈ l.map Prod.fst
      · simp [hk]
      · simp only [if_neg hk, List.map_cons, List.mem_cons, Ne.symm ha, false_or]
        rfl

theorem nodup_put (h : (l.map Prod.fst).Nodup) : ((put k b l).map Prod.fst).Nodup := by
  rw [keys_put]
  split_ifs with hk
  · exact h
  · exact List.nodup_append.mpr ⟨h, by simp, by rintro a ha b hb rfl; simp_all⟩

theorem mem_put {x : κ × β} (h : x ∈ put k b l) : x = (k, b) ∨ x ∈ l := by
  induction l with
  | nil => exact .inl (List.mem_singleton.mp h)
  | cons y l ih =>
    unfold put at h
    split_ifs at h
    · exact (List.mem_cons.mp h).imp_right (List.mem_cons_of_mem _)
    · rcases List.mem_cons.mp h with rfl | h
      · exact .inr (List.mem_cons_self ..)
      · exact (ih h).imp_right (List.mem_cons_of_mem _)

end Put

/-! ## Merging -/

/-- What one layer leaves of what is below. -/
def onto (below above : Option (Tree κ α)) : Option (Tree κ α) :=
  match below, above with
  | below, none => below
  | none, some tree => some tree
  | some base, some tree => some (merge base tree)

theorem lookup_mergeItems (base items : List (κ × Tree κ α)) (h : (items.map Prod.fst).Nodup) (k : κ) :
    (mergeItems base items).lookup k = onto (base.lookup k) (items.lookup k) := by
  induction items generalizing base with
  | nil =>
    rw [mergeItems, List.lookup_nil]
    cases base.lookup k <;> rfl
  | cons x items ih =>
    obtain ⟨a, tree⟩ := x
    rw [List.map_cons, List.nodup_cons] at h
    rw [mergeItems, ih _ h.2, lookup_put, List.lookup_cons]
    by_cases hk : k = a
    · subst hk
      have hnone : items.lookup k = none := List.lookup_eq_none_iff.mpr fun x hx => by
        rw [bne_iff_ne]
        rintro rfl
        exact h.1 (List.mem_map.mpr ⟨x, hx, rfl⟩)
      rw [if_pos rfl, hnone, beq_self_eq_true]
      cases base.lookup k <;> rfl
    · rw [if_neg hk, beq_false_of_ne hk]

theorem keys_mergeItems (base items : List (κ × Tree κ α)) (h : (items.map Prod.fst).Nodup) :
    (mergeItems base items).map Prod.fst =
      base.map Prod.fst ++ (items.map Prod.fst).filter fun k => k ∉ base.map Prod.fst := by
  induction items generalizing base with
  | nil => simp [mergeItems]
  | cons x items ih =>
    obtain ⟨a, tree⟩ := x
    rw [List.map_cons, List.nodup_cons] at h
    rw [mergeItems, ih _ h.2, keys_put, List.map_cons]
    by_cases ha : a ∈ base.map Prod.fst
    · rw [if_pos ha, List.filter_cons_of_neg (by simpa using ha)]
    · rw [if_neg ha, List.filter_cons_of_pos (by simpa using ha), List.append_assoc]
      have hfilter : (items.map Prod.fst).filter (fun k => k ∉ base.map Prod.fst ++ [a]) =
          (items.map Prod.fst).filter fun k => k ∉ base.map Prod.fst := by
        refine List.filter_congr fun k hk => ?_
        have hne : k ≠ a := by
          rintro rfl
          exact h.1 hk
        simp [hne]
      rw [hfilter]
      rfl

/-! ## Layers -/

section Layers

variable {layers : List (Tree κ α)} {tree : Tree κ α} {k : κ}

omit [DecidableEq κ] in
theorem tables_concat : tables (layers ++ [tree]) = match tree with
    | .leaf _ => []
    | .table items => tables layers ++ [items] := by
  rw [tables, List.foldl_append]
  rfl

theorem combine_concat : combine (layers ++ [tree]) = some (match combine layers with
    | none => tree
    | some base => merge base tree) := by
  rw [combine, List.foldl_append]
  rfl

omit [DecidableEq κ] in
@[simp] theorem tables_leaf {a : α} : tables (layers ++ [.leaf a]) = [] := tables_concat

omit [DecidableEq κ] in
@[simp] theorem tables_table {items : List (κ × Tree κ α)} :
    tables (layers ++ [.table items]) = tables layers ++ [items] := tables_concat

theorem under_concat {found : List (List (κ × Tree κ α))} {items : List (κ × Tree κ α)} :
    under k (found ++ [items]) = under k found ++ (items.lookup k).toList := by
  rw [under, List.filterMap_append, under]
  cases hl : items.lookup k <;> simp [hl]

theorem onto_combine : onto (combine layers) (some tree) = combine (layers ++ [tree]) := by
  rw [combine_concat]
  cases combine layers <;> rfl

/-- The items of merged layers are the layers' items, merged. -/
theorem item_combine (h : ∀ tree ∈ layers, Valid tree) (k : κ) :
    item (combine layers) k = combine (under k (tables layers)) := by
  induction layers using List.reverseRecOn with
  | nil => rfl
  | append_singleton layers tree ih =>
    have ih := ih fun tree ht => h tree (List.mem_append_left _ ht)
    cases tree with
    | leaf a =>
      rw [tables_leaf, combine_concat]
      cases combine layers <;> rfl
    | table items =>
      have hvalid : (items.map Prod.fst).Nodup := by
        cases h (.table items) (by simp) with
        | table nodup _ => exact nodup
      have hitem : item (combine (layers ++ [.table items])) k = onto (item (combine layers) k) (items.lookup k) := by
        rw [combine_concat]
        cases combine layers with
        | none => cases hl : items.lookup k <;> simp [item, onto, hl]
        | some base =>
          cases base with
          | leaf a => cases hl : items.lookup k <;> simp [item, onto, hl, merge]
          | table base => simpa only [item, merge] using lookup_mergeItems base items hvalid k
      rw [hitem, tables_table, under_concat, ih]
      cases items.lookup k with
      | none => simp [onto]
      | some tree => exact onto_combine

theorem keys_combine (h : ∀ tree ∈ layers, Valid tree) :
    keys (combine layers) = introduced (tables layers) := by
  induction layers using List.reverseRecOn with
  | nil => rfl
  | append_singleton layers tree ih =>
    have ih := ih fun tree ht => h tree (List.mem_append_left _ ht)
    cases tree with
    | leaf a =>
      rw [tables_leaf, combine_concat]
      cases combine layers <;> rfl
    | table items =>
      have hvalid : (items.map Prod.fst).Nodup := by
        cases h (.table items) (by simp) with
        | table nodup _ => exact nodup
      have hkeys : keys (combine (layers ++ [.table items])) =
          keys (combine layers) ++ (items.map Prod.fst).filter fun k => k ∉ keys (combine layers) := by
        rw [combine_concat]
        cases combine layers with
        | none => simp [keys]
        | some base =>
          cases base with
          | leaf a => simp [keys, merge]
          | table base => exact keys_mergeItems base items hvalid
      rw [hkeys, ih, tables_table, introduced, introduced, List.foldl_append]
      rfl

theorem nodup_introduced {found : List (List (κ × Tree κ α))} (h : ∀ items ∈ found, (items.map Prod.fst).Nodup) :
    (introduced found).Nodup := by
  induction found using List.reverseRecOn with
  | nil => exact List.nodup_nil
  | append_singleton found items ih =>
    have ih := ih fun items hi => h items (List.mem_append_left _ hi)
    have hitems := h items (by simp)
    rw [introduced, List.foldl_append]
    refine List.nodup_append.mpr ⟨ih, hitems.sublist List.filter_sublist, ?_⟩
    rintro a ha b hb rfl
    have hnot : a ∉ introduced found := of_decide_eq_true (List.mem_filter.mp hb).2
    exact hnot ha

theorem mem_introduced {found : List (List (κ × Tree κ α))} :
    k ∈ introduced found ↔ ∃ items ∈ found, k ∈ items.map Prod.fst := by
  induction found using List.reverseRecOn with
  | nil => simp [introduced]
  | append_singleton found items ih =>
    have hconcat : introduced (found ++ [items]) =
        introduced found ++ (items.map Prod.fst).filter fun k => k ∉ introduced found := by
      rw [introduced, List.foldl_append]
      rfl
    rw [hconcat, List.mem_append, List.mem_filter, decide_eq_true_iff]
    constructor
    · rintro (hk | ⟨hk, -⟩)
      · obtain ⟨items', hi, hk⟩ := ih.mp hk
        exact ⟨items', List.mem_append_left _ hi, hk⟩
      · exact ⟨items, by simp, hk⟩
    · rintro ⟨items', hi, hk⟩
      by_cases hold : k ∈ introduced found
      · exact .inl hold
      · rcases List.mem_append.mp hi with hi | hi
        · exact absurd (ih.mpr ⟨items', hi, hk⟩) hold
        · obtain rfl := List.mem_singleton.mp hi
          exact .inr ⟨hk, hold⟩

omit [DecidableEq κ] in
@[simp] theorem tables_map_table (found : List (List (κ × Tree κ α))) : tables (found.map .table) = found := by
  induction found using List.reverseRecOn with
  | nil => rfl
  | append_singleton found items ih => rw [List.map_append, List.map_singleton, tables_table, ih]

omit [DecidableEq κ] in
/-- Layers that are all tables. -/
theorem map_table_tables (h : ∀ tree ∈ layers, ∃ items, tree = .table items) : (tables layers).map .table = layers := by
  induction layers using List.reverseRecOn with
  | nil => rfl
  | append_singleton layers tree ih =>
    obtain ⟨items, rfl⟩ := h tree (by simp)
    rw [tables_table, List.map_append, ih fun tree ht => h tree (List.mem_append_left _ ht)]
    rfl

@[simp] theorem lastWord_nil (path : List κ) : lastWord ([] : List (Tree κ α)) path = none := by
  induction path with
  | nil => rfl
  | cons k path ih => exact ih

theorem Valid.put {items : List (κ × Tree κ α)} (h : Valid (.table items)) (ht : Valid tree) :
    Valid (.table (Tree.put k tree items)) := by
  cases h with
  | table nodup valid =>
    refine .table (nodup_put nodup) fun item hi => ?_
    rcases mem_put hi with rfl | hi
    · exact ht
    · exact valid item hi

omit [DecidableEq κ] in
theorem Valid.nodup {items : List (κ × Tree κ α)} (h : Valid (.table items)) : (items.map Prod.fst).Nodup := by
  cases h with
  | table nodup _ => exact nodup

omit [DecidableEq κ] in
theorem valid_tables (h : ∀ tree ∈ layers, Valid tree) : ∀ items ∈ tables layers, Valid (.table items) := by
  induction layers using List.reverseRecOn with
  | nil => simp [tables]
  | append_singleton layers tree ih =>
    have ih := ih fun tree ht => h tree (List.mem_append_left _ ht)
    cases tree with
    | leaf a => simp
    | table items =>
      intro items' hi
      rw [tables_table, List.mem_append, List.mem_singleton] at hi
      rcases hi with hi | rfl
      · exact ih items' hi
      · exact h _ (by simp)

theorem Valid.of_lookup {items : List (κ × Tree κ α)} (h : Valid (.table items)) (hl : items.lookup k = some tree) :
    Valid tree := by
  cases h with
  | table _ valid => exact valid (k, tree) (Table.lookup_mem hl)

theorem valid_under {found : List (List (κ × Tree κ α))} (h : ∀ items ∈ found, Valid (.table items)) :
    ∀ tree ∈ under k found, Valid tree := by
  intro tree ht
  obtain ⟨items, hi, hl⟩ := List.mem_filterMap.mp ht
  exact (h items hi).of_lookup hl

theorem view_nil_combine : (combine layers).bind (fun tree => tree.view []) = lastWord layers [] := by
  rw [lastWord]
  induction layers using List.reverseRecOn with
  | nil => rfl
  | append_singleton layers tree ih =>
    rw [combine_concat, List.getLast?_concat]
    cases tree with
    | leaf a => cases combine layers <;> rfl
    | table items =>
      cases combine layers with
      | none => rfl
      | some base => cases base <;> rfl

theorem view_cons (tree : Option (Tree κ α)) (k : κ) (path : List κ) :
    tree.bind (fun tree => tree.view (k :: path)) = (item tree k).bind fun tree => tree.view path := by
  cases tree with
  | none => rfl
  | some tree => cases tree <;> rfl

/-- **Merging layers** gives at every path what they say. -/
theorem view_combine (h : ∀ tree ∈ layers, Valid tree) (path : List κ) :
    (combine layers).bind (fun tree => tree.view path) = lastWord layers path := by
  induction path generalizing layers with
  | nil => exact view_nil_combine
  | cons k path ih =>
    rw [view_cons, item_combine h, lastWord]
    exact ih (valid_under (valid_tables h))

end Layers

end Tree

end Xyberos
