import Xyberos.Json.Values

/-!
# Xyberos.Json.Equality — members of a dictionary, and two ways to be equal

`Value.equals` is Python's `==` on values: `True` is equal to `1`, and inside a container an object is equal to itself,
so that a NaN is.  `Value.JsonEqual` is the equality of JSON values: a boolean is equal to no number, a NaN to nothing,
and a tuple is an array like a list.  The two differ in booleans, NaNs and tuples inside a container only
(`alike_iff_jsonEqual`).
-/

set_option autoImplicit false

namespace Xyberos.Json

variable {F : Type}

/-! ## Members -/

/-- The scalar is this string. -/
def isStr (s : Str) : Scalar F → Bool
  | .str t => t == s
  | _ => false

def isText (text : String) : Scalar F → Bool := isStr (Str.ofString text)

/-- `value.get(key)`, where `value` is a dictionary with the key. -/
def member (key : String) : Value F → Option (Value F)
  | .dict items => (items.find? fun m => isText key m.1).map Prod.snd
  | _ => none

/-! ## Python's equality -/

section Equals

variable (floats : Floats F)

namespace Scalar

/-- `a == b`. -/
def equals (a b : Scalar F) : Bool :=
  match a, b with
  | .none, .none => true
  | .str s, .str t => s == t
  | a, b => (a.number floats).isSome && a.number floats == b.number floats

/-- `a is b or a == b`. -/
def identicalOrEquals (a b : Scalar F) : Bool :=
  match a, b with
  | .float (.nan i), .float (.nan j) => i == j
  | a, b => a.equals floats b

def isBool : Scalar F → Bool
  | .bool _ => true
  | _ => false

end Scalar

namespace Value

/-- Equality of the parts of two containers, in their order. -/
def allEqual (parts : List (Value F → Bool)) (items : List (Value F)) : Bool :=
  parts.length == items.length && (parts.zip items).all fun x => x.1 x.2

/-- `a is b or a == b`, for the parts of containers. -/
def alike : Value F → Value F → Bool :=
  fold
    (fun s w =>
      match w with
      | .scalar t => s.identicalOrEquals floats t
      | _ => false)
    (fun parts w =>
      match w with
      | .list items => allEqual parts items
      | _ => false)
    (fun parts w =>
      match w with
      | .tuple items => allEqual parts items
      | _ => false)
    fun parts w =>
      match w with
      | .dict items =>
        parts.length == items.length && parts.all fun p => items.any fun m => p.1.equals floats m.1 && p.2 m.2
      | _ => false

/-- `a == b`. -/
def equals : Value F → Value F → Bool
  | .scalar s, .scalar t => s.equals floats t
  | v, w => v.alike floats w

/-- Equality of JSON values. -/
def JsonEqual : Value F → Value F → Prop :=
  fold (fun s w => ∃ t, w = .scalar t ∧ s.isBool = t.isBool ∧ s.equals floats t = true)
    (fun parts w => ∃ items, (w = .list items ∨ w = .tuple items) ∧ List.Forall₂ (fun p w => p w) parts items)
    (fun parts w => ∃ items, (w = .list items ∨ w = .tuple items) ∧ List.Forall₂ (fun p w => p w) parts items)
    fun parts w => ∃ items, w = .dict items ∧ parts.length = items.length ∧
      ∀ p ∈ parts, ∃ m ∈ items, p.1.equals floats m.1 = true ∧ p.2 m.2

end Value

end Equals

/-! ## Where they are one -/

namespace Value

/-- There is no boolean, no NaN and no tuple in the value. -/
def Bare : Value F → Prop :=
  fold (fun s => s.isBool = false ∧ ∀ i, s ≠ .float (.nan i)) (fun parts => ∀ p ∈ parts, p) (fun _ => False)
    fun parts => ∀ p ∈ parts, p.2

variable {floats : Floats F} {v w : Value F}

theorem bare_list {items : List (Value F)} : Bare (.list items) ↔ ∀ v ∈ items, v.Bare := by
  unfold Bare
  rw [fold_list]
  exact List.forall_mem_map

theorem bare_dict {items : List (Scalar F × Value F)} : Bare (.dict items) ↔ ∀ m ∈ items, m.2.Bare := by
  unfold Bare
  rw [fold_dict]
  exact List.forall_mem_map

theorem allEqual_iff {items items' : List (Value F)}
    (h : ∀ v ∈ items, ∀ w ∈ items', v.alike floats w = true ↔ v.JsonEqual floats w) :
    allEqual (items.map (alike floats)) items' = true ↔ List.Forall₂ (JsonEqual floats) items items' := by
  induction items generalizing items' with
  | nil => cases items' <;> simp [allEqual]
  | cons v items ih =>
    cases items' with
    | nil => simp [allEqual]
    | cons w items' =>
      have hrest : allEqual (items.map (alike floats)) items' = true ↔ List.Forall₂ (JsonEqual floats) items items' :=
        ih fun v hv w hw => h v (List.mem_cons_of_mem _ hv) w (List.mem_cons_of_mem _ hw)
      have hfirst := h v List.mem_cons_self w List.mem_cons_self
      rw [List.forall₂_cons, ← hrest, ← hfirst]
      simp only [allEqual, List.map_cons, List.length_cons, List.zip_cons_cons, List.all_cons, Bool.and_eq_true,
        beq_iff_eq, Nat.add_right_cancel_iff]
      exact and_left_comm

/-- Where there is no boolean, no NaN and no tuple the two ways to be equal are one. -/
theorem alike_iff_jsonEqual (hv : v.Bare) (hw : w.Bare) : v.alike floats w = true ↔ v.JsonEqual floats w := by
  induction v using Value.induct generalizing w with
  | scalar s =>
    obtain ⟨hs, hnan⟩ : s.isBool = false ∧ ∀ i, s ≠ .float (.nan i) := hv
    cases w with
    | scalar t =>
      obtain ⟨ht, -⟩ : t.isBool = false ∧ ∀ i, t ≠ .float (.nan i) := hw
      -- identity makes a difference for a NaN only
      have hsame : s.identicalOrEquals floats t = s.equals floats t := by
        rcases s with _ | _ | _ | (_ | _ | _) | _ <;> first | rfl | exact absurd rfl (hnan _)
      have halike : alike floats (.scalar s) (.scalar t) = s.identicalOrEquals floats t := rfl
      rw [halike, hsame]
      simp [JsonEqual, hs, ht]
    | list items => simp [alike, JsonEqual]
    | tuple items => simp [alike, JsonEqual]
    | dict items => simp [alike, JsonEqual]
  | list items ih =>
    have hparts := bare_list.mp hv
    cases w with
    | list items' =>
      have hparts' := bare_list.mp hw
      have halike : alike floats (.list items) (.list items') = allEqual (items.map (alike floats)) items' := by
        rw [alike, fold_list]
      have hjson : JsonEqual floats (.list items) (.list items') ↔ List.Forall₂ (JsonEqual floats) items items' := by
        simp [JsonEqual, List.forall₂_map_left_iff]
      rw [halike, hjson]
      exact allEqual_iff fun v hv w hw => ih v hv (hparts v hv) (hparts' w hw)
    | scalar t => simp [alike, JsonEqual]
    | tuple items' => exact absurd hw (by simp [Bare])
    | dict items' => simp [alike, JsonEqual]
  | tuple items ih => exact absurd hv (by simp [Bare])
  | dict items ih =>
    have hparts := bare_dict.mp hv
    cases w with
    | dict items' =>
      have hparts' := bare_dict.mp hw
      simp only [alike, JsonEqual, fold_dict, List.length_map, List.all_map, Bool.and_eq_true, beq_iff_eq,
        List.all_eq_true, List.any_eq_true, Function.comp_apply, List.forall_mem_map, dict.injEq, exists_eq_left']
      refine and_congr_right fun _ => forall₂_congr fun m hm => exists_congr fun m' => and_congr_right fun hm' => ?_
      exact and_congr_right fun _ => ih m hm (hparts m hm) (hparts' m' hm')
    | scalar t => simp [alike, JsonEqual]
    | list items' => simp [alike, JsonEqual]
    | tuple items' => simp [alike, JsonEqual]

end Value

end Xyberos.Json
