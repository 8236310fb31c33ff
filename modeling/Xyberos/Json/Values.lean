import Xyberos.Json.Text
import Xyberos.Python
import Mathlib.Data.List.Forall2
import Mathlib.Data.List.Sort
import Mathlib.Algebra.BigOperators.Group.List.Basic
import Mathlib.Algebra.Order.Ring.Rat
import Mathlib.Order.WithBot

/-!
# Xyberos.Json.Values — Python values, and `json.dumps`

Values built from scalars, lists, tuples and dictionaries, and `json.dumps(value, sort_keys=True, separators=(",", ":"))`
on them.  What a text depends on beyond the value is the interpreter's: its `float`s, its limit on the digits of an
`int`, and how deep a call may nest.

A function of values is a fold: it says what it is of a scalar, and what it is of a container given what it is of the
parts.  Which values `dumps` accepts, and how long the text is, is said without the text.
-/

set_option autoImplicit false

namespace Xyberos.Json

variable {F : Type}

/-! ## Values -/

/-- A `float`: a finite number of the interpreter's, or one of the others.  NaNs are told apart as objects. -/
inductive FloatValue (F : Type)
  | finite (x : F)
  | infinite (negative : Bool)
  | nan (object : ℕ)
deriving DecidableEq

/-- What is used of `float`.  `repr` writes a number with a fraction or an exponent, and `float` reads it back. -/
structure Floats (F : Type) where
  value : F → ℚ
  repr : F → Number
  read : Number → FloatValue F
  repr_wellFormed : ∀ x, (repr x).WellFormed
  repr_isFloat : ∀ x, (repr x).isFloat = true
  read_repr : ∀ x, read (repr x) = .finite x

/-- What a text depends on beyond the value. -/
structure Interpreter (F : Type) extends Floats F where
  /-- `sys.get_int_max_str_digits()`, 0 for no limit -/
  maxStrDigits : ℕ
  /-- how many containers deep `dumps` may go before `RecursionError` -/
  encodeDepth : ℕ
  /-- how many containers deep `loads` may go before `RecursionError` -/
  decodeDepth : ℕ

inductive Scalar (F : Type)
  | none
  | bool (b : Bool)
  | int (i : ℤ)
  | float (x : FloatValue F)
  | str (s : Str)
deriving DecidableEq

/-- Equal in value and type, where a NaN is a NaN. -/
def Scalar.Same (s t : Scalar F) : Prop := s = t ∨ ∃ i j, s = .float (.nan i) ∧ t = .float (.nan j)

inductive Value (F : Type)
  | scalar (s : Scalar F)
  | list (items : List (Value F))
  | tuple (items : List (Value F))
  | dict (items : List (Scalar F × Value F))

/-- A dictionary with the names for its keys. -/
def objectOf (members : List (String × Value F)) : Value F := .dict (members.map fun m => (.str (Str.ofString m.1), m.2))

def word (text : String) : Value F := .scalar (.str (Str.ofString text))

namespace Value

section Fold

variable {β : Type} (scalar : Scalar F → β) (list tuple : List β → β) (dict : List (Scalar F × β) → β)

mutual

/-- A function of values, from what it is of a scalar and of a container whose parts it is known of. -/
def fold : Value F → β
  | .scalar s => scalar s
  | .list items => list (foldItems items)
  | .tuple items => tuple (foldItems items)
  | .dict items => dict (foldMembers items)

def foldItems : List (Value F) → List β
  | [] => []
  | v :: items => fold v :: foldItems items

def foldMembers : List (Scalar F × Value F) → List (Scalar F × β)
  | [] => []
  | (key, v) :: items => (key, fold v) :: foldMembers items

end

theorem foldItems_eq (items : List (Value F)) :
    foldItems scalar list tuple dict items = items.map (fold scalar list tuple dict) := by
  induction items with
  | nil => rfl
  | cons v items ih => rw [foldItems, ih, List.map_cons]

theorem foldMembers_eq (items : List (Scalar F × Value F)) :
    foldMembers scalar list tuple dict items = items.map fun m => (m.1, fold scalar list tuple dict m.2) := by
  induction items with
  | nil => rfl
  | cons m items ih => rw [foldMembers, ih, List.map_cons]

@[simp] theorem fold_scalar (s : Scalar F) : fold scalar list tuple dict (.scalar s) = scalar s := rfl

@[simp] theorem fold_list (items : List (Value F)) :
    fold scalar list tuple dict (.list items) = list (items.map (fold scalar list tuple dict)) := by
  rw [fold, foldItems_eq]

@[simp] theorem fold_tuple (items : List (Value F)) :
    fold scalar list tuple dict (.tuple items) = tuple (items.map (fold scalar list tuple dict)) := by
  rw [fold, foldItems_eq]

@[simp] theorem fold_dict (items : List (Scalar F × Value F)) :
    fold scalar list tuple dict (.dict items) =
      dict (items.map fun m => (m.1, fold scalar list tuple dict m.2)) := by
  rw [fold, foldMembers_eq]

end Fold

/-- Induction over a value: a container has the property when its parts do. -/
theorem induct {motive : Value F → Prop} (scalar : ∀ s, motive (.scalar s))
    (list : ∀ items, (∀ v ∈ items, motive v) → motive (.list items))
    (tuple : ∀ items, (∀ v ∈ items, motive v) → motive (.tuple items))
    (dict : ∀ items, (∀ m ∈ items, motive m.2) → motive (.dict items)) (v : Value F) : motive v := by
  refine @Value.rec F motive (fun items => ∀ v ∈ items, motive v) (fun items => ∀ m ∈ items, motive m.2)
    (fun m => motive m.2) scalar list tuple dict ?_ ?_ ?_ ?_ ?_ v
  · exact fun v h => absurd h List.not_mem_nil
  · exact fun v items hv hitems => List.forall_mem_cons.mpr ⟨hv, hitems⟩
  · exact fun m h => absurd h List.not_mem_nil
  · exact fun m items hm hitems => List.forall_mem_cons.mpr ⟨hm, hitems⟩
  · exact fun _ v hv => hv

section Decide

variable [DecidableEq F]

mutual

/-- Values are compared part by part. -/
def decEq : (v w : Value F) → Decidable (v = w)
  | .scalar s, .scalar t => decidable_of_iff (s = t) (by simp)
  | .list items, .list items' =>
    match decEqItems items items' with
    | .isTrue h => .isTrue (by rw [h])
    | .isFalse h => .isFalse fun he => h (by simpa using he)
  | .tuple items, .tuple items' =>
    match decEqItems items items' with
    | .isTrue h => .isTrue (by rw [h])
    | .isFalse h => .isFalse fun he => h (by simpa using he)
  | .dict items, .dict items' =>
    match decEqMembers items items' with
    | .isTrue h => .isTrue (by rw [h])
    | .isFalse h => .isFalse fun he => h (by simpa using he)
  | .scalar _, .list _ | .scalar _, .tuple _ | .scalar _, .dict _ | .list _, .scalar _ | .list _, .tuple _
  | .list _, .dict _ | .tuple _, .scalar _ | .tuple _, .list _ | .tuple _, .dict _ | .dict _, .scalar _
  | .dict _, .list _ | .dict _, .tuple _ => .isFalse (by simp)

def decEqItems : (items items' : List (Value F)) → Decidable (items = items')
  | [], [] => .isTrue rfl
  | v :: items, w :: items' =>
    match decEq v w, decEqItems items items' with
    | .isTrue h, .isTrue h' => .isTrue (by rw [h, h'])
    | .isFalse h, _ => .isFalse fun he => h (List.cons.inj he).1
    | _, .isFalse h => .isFalse fun he => h (List.cons.inj he).2
  | [], _ :: _ | _ :: _, [] => .isFalse (by simp)

def decEqMembers : (items items' : List (Scalar F × Value F)) → Decidable (items = items')
  | [], [] => .isTrue rfl
  | (key, v) :: items, (key', w) :: items' =>
    match decEq v w, decEqMembers items items' with
    | .isTrue h, .isTrue h' => decidable_of_iff (key = key') (by simp [h, h'])
    | .isFalse h, _ => .isFalse fun he => h (Prod.mk.inj (List.cons.inj he).1).2
    | _, .isFalse h => .isFalse fun he => h (List.cons.inj he).2
  | [], _ :: _ | _ :: _, [] => .isFalse (by simp)

end

instance : DecidableEq (Value F) := decEq

end Decide

/-- The property of every scalar, of every tuple, and of the keys of every dictionary. -/
def Every (onScalar : Scalar F → Prop) (onTuple : Prop) (onKeys : List (Scalar F) → Prop) : Value F → Prop :=
  fold onScalar (fun parts => ∀ p ∈ parts, p) (fun parts => onTuple ∧ ∀ p ∈ parts, p)
    fun parts => onKeys (parts.map Prod.fst) ∧ ∀ p ∈ parts, p.2

section Every

variable {onScalar : Scalar F → Prop} {onTuple : Prop} {onKeys : List (Scalar F) → Prop}

@[simp] theorem every_scalar {s : Scalar F} : Every onScalar onTuple onKeys (.scalar s) ↔ onScalar s := Iff.rfl

@[simp] theorem every_list {items : List (Value F)} :
    Every onScalar onTuple onKeys (.list items) ↔ ∀ v ∈ items, Every onScalar onTuple onKeys v := by
  rw [Every, fold_list, List.forall_mem_map]

@[simp] theorem every_tuple {items : List (Value F)} :
    Every onScalar onTuple onKeys (.tuple items) ↔ onTuple ∧ ∀ v ∈ items, Every onScalar onTuple onKeys v := by
  rw [Every, fold_tuple, List.forall_mem_map]

@[simp] theorem every_dict {items : List (Scalar F × Value F)} :
    Every onScalar onTuple onKeys (.dict items) ↔
      onKeys (items.map Prod.fst) ∧ ∀ m ∈ items, Every onScalar onTuple onKeys m.2 := by
  rw [Every, fold_dict, List.forall_mem_map, List.map_map]
  rfl

end Every

/-- How deep containers are nested. -/
def depth : Value F → ℕ :=
  fold (fun _ => 0) (fun parts => parts.foldr max 0 + 1) (fun parts => parts.foldr max 0 + 1)
    fun parts => (parts.map Prod.snd).foldr max 0 + 1

/-- Equal in value and type: dictionaries whatever their order, and a NaN is a NaN. -/
def Same : Value F → Value F → Prop :=
  fold (fun s w => ∃ t, w = .scalar t ∧ s.Same t)
    (fun parts w => ∃ items, w = .list items ∧ List.Forall₂ (fun p w => p w) parts items)
    (fun parts w => ∃ items, w = .tuple items ∧ List.Forall₂ (fun p w => p w) parts items)
    fun parts w => ∃ items, w = .dict items ∧ items.length = parts.length ∧
      ∀ p ∈ parts, ∃ w', (p.1, w') ∈ items ∧ p.2 w'

@[simp] theorem same_scalar {s : Scalar F} {w : Value F} : Same (.scalar s) w ↔ ∃ t, w = .scalar t ∧ s.Same t := Iff.rfl

@[simp] theorem same_list {items : List (Value F)} {w : Value F} :
    Same (.list items) w ↔ ∃ items', w = .list items' ∧ List.Forall₂ Same items items' := by
  simp [Same, List.forall₂_map_left_iff]

@[simp] theorem same_tuple {items : List (Value F)} {w : Value F} :
    Same (.tuple items) w ↔ ∃ items', w = .tuple items' ∧ List.Forall₂ Same items items' := by
  simp [Same, List.forall₂_map_left_iff]

@[simp] theorem same_dict {items : List (Scalar F × Value F)} {w : Value F} :
    Same (.dict items) w ↔ ∃ items', w = .dict items' ∧ items'.length = items.length ∧
      ∀ m ∈ items, ∃ w', (m.1, w') ∈ items' ∧ Same m.2 w' := by
  simp [Same]

end Value

/-! ## Keys -/

namespace Scalar

/-- What the keys of a dictionary are compared as: `None` with nothing, strings and numbers with their like. -/
inductive Kind
  | none
  | number
  | text
deriving DecidableEq

def kind : Scalar F → Kind
  | .none => .none
  | .str _ => .text
  | _ => .number

/-- `a < b` does not raise. -/
def Comparable (a b : Scalar F) : Prop := a.kind = b.kind ∧ a.kind ≠ .none

instance (a b : Scalar F) : Decidable (a.Comparable b) := inferInstanceAs (Decidable (_ ∧ _))

variable (floats : Floats F)

/-- The number a scalar is compared as; a NaN is compared as none. -/
def number : Scalar F → Option (WithBot (WithTop ℚ))
  | .bool b => some ((if b then 1 else 0 : ℚ) : WithTop ℚ)
  | .int i => some ((i : ℚ) : WithTop ℚ)
  | .float (.finite x) => some ((floats.value x : ℚ) : WithTop ℚ)
  | .float (.infinite negative) => some (if negative then ⊥ else ((⊤ : WithTop ℚ) : WithBot (WithTop ℚ)))
  | _ => Option.none

/-- `a == b`. -/
def Equal (a b : Scalar F) : Prop :=
  match a, b with
  | .none, .none => True
  | .str s, .str t => s = t
  | a, b => ∃ x, a.number floats = some x ∧ b.number floats = some x

/-- `a < b`, where it does not raise. -/
def less (a b : Scalar F) : Bool :=
  match a, b with
  | .str s, .str t => decide (s < t)
  | a, b =>
    match a.number floats, b.number floats with
    | some x, some y => decide (x < y)
    | _, _ => false

theorem equal_str {s t : Str} : Equal floats (.str s) (.str t) ↔ s = t := Iff.rfl

variable {floats} in
theorem Equal.symm {a b : Scalar F} (h : Equal floats a b) : Equal floats b a := by
  unfold Equal at h ⊢
  split at h
  · trivial
  · exact h.symm
  · obtain ⟨x, ha, hb⟩ := h
    split
    · trivial
    · cases ha
    · exact ⟨x, hb, ha⟩

end Scalar

/-! ## `json.dumps` -/

namespace Interpreter

variable (py : Interpreter F)

/-- An `int` has no more digits than may be converted. -/
def Printable : Scalar F → Prop
  | .int i => py.maxStrDigits = 0 ∨ digitsOf i ≤ py.maxStrDigits
  | _ => True

instance (s : Scalar F) : Decidable (py.Printable s) := by
  unfold Printable
  split <;> infer_instance

def digitsError : Exc :=
  valueError (s!"Exceeds the limit ({py.maxStrDigits} digits) for integer string conversion; " ++
    "use sys.set_int_max_str_digits() to increase the limit")

def floatText : FloatValue F → List Char
  | .finite x => (py.repr x).text
  | .nan _ => ['N', 'a', 'N']
  | .infinite negative => (if negative then ['-'] else []) ++ ['I', 'n', 'f', 'i', 'n', 'i', 't', 'y']

/-- A scalar as a value. -/
def lexeme : Scalar F → List Char
  | .none => ['n', 'u', 'l', 'l']
  | .bool true => ['t', 'r', 'u', 'e']
  | .bool false => ['f', 'a', 'l', 's', 'e']
  | .int i => intText i
  | .float x => py.floatText x
  | .str s => stringText s

/-- A scalar as a key: a string is itself, any other scalar is its text. -/
def keyStr : Scalar F → Str
  | .str s => s
  | key => (py.lexeme key).map fun c => CodePoint.ofNat c.toNat

def scalarText (s : Scalar F) : Except Exc (List Char) :=
  if py.Printable s then .ok (py.lexeme s) else .error py.digitsError

def keyText (key : Scalar F) : Except Exc (List Char) :=
  if py.Printable key then .ok (stringText (py.keyStr key)) else .error py.digitsError

end Interpreter

/-- The texts of the parts of a container, separated by commas. -/
def commas : List (List Char) → List Char
  | [] => []
  | [text] => text
  | text :: texts => text ++ ',' :: commas texts

theorem commas_cons (text text' : List Char) (texts : List (List Char)) :
    commas (text :: text' :: texts) = text ++ ',' :: commas (text' :: texts) := rfl

/-- A list or a tuple, from the encoders of its items. -/
def arrayText (items : List (ℕ → Except Exc (List Char))) : ℕ → Except Exc (List Char)
  | 0 => .error recursionError
  | depth + 1 => do
    let texts ← items.mapM fun item => item depth
    return '[' :: (commas texts ++ [']'])

namespace Interpreter

variable (py : Interpreter F)

/-- The members of a dictionary in the order of their keys. -/
def sorted {β : Type} (members : List (Scalar F × β)) : List (Scalar F × β) :=
  members.insertionSort fun a b => b.1.less py.toFloats a.1 = false

/-- A member of a dictionary, from its key and the encoder of its value. -/
def memberText (depth : ℕ) (m : Scalar F × (ℕ → Except Exc (List Char))) : Except Exc (List Char) := do
  let key ← py.keyText m.1
  let value ← m.2 depth
  return key ++ ':' :: value

/-- A dictionary, from its keys and the encoders of its values.  The message leaves out which two types met first. -/
def objectText (members : List (Scalar F × (ℕ → Except Exc (List Char)))) : ℕ → Except Exc (List Char)
  | 0 => .error recursionError
  | depth + 1 =>
    if (members.map Prod.fst).Pairwise Scalar.Comparable then do
      let texts ← (py.sorted members).mapM (py.memberText depth)
      return '{' :: (commas texts ++ ['}'])
    else .error (typeError "'<' not supported between instances of the keys")

/-- The text of a value inside a call that may go so many containers deep. -/
def encode : Value F → ℕ → Except Exc (List Char) :=
  Value.fold (fun s _ => py.scalarText s) arrayText arrayText py.objectText

/-- `json.dumps(value, sort_keys=True, separators=(",", ":"))`. -/
def dumps (v : Value F) : Except Exc (List Char) := py.encode v py.encodeDepth

end Interpreter

/-! ## What is accepted, and how long the text is -/

theorem foldr_max_le {l : List ℕ} {n : ℕ} : l.foldr max 0 ≤ n ↔ ∀ m ∈ l, m ≤ n := by
  induction l with
  | nil => simp
  | cons m l ih => simp [ih]

namespace Value

theorem depth_list_le {items : List (Value F)} {d : ℕ} :
    (Value.list items).depth ≤ d ↔ ∃ d', d = d' + 1 ∧ ∀ v ∈ items, v.depth ≤ d' := by
  have hdepth : (Value.list items).depth = (items.map depth).foldr max 0 + 1 := fold_list ..
  rw [hdepth]
  constructor
  · intro h
    refine ⟨d - 1, by omega, fun v hv => ?_⟩
    exact foldr_max_le.mp (by omega : (items.map depth).foldr max 0 ≤ d - 1) _ (List.mem_map_of_mem hv)
  · rintro ⟨d', rfl, h⟩
    exact Nat.succ_le_succ (foldr_max_le.mpr (List.forall_mem_map.mpr h))

theorem depth_tuple_le {items : List (Value F)} {d : ℕ} :
    (Value.tuple items).depth ≤ d ↔ ∃ d', d = d' + 1 ∧ ∀ v ∈ items, v.depth ≤ d' := by
  have hdepth : (Value.tuple items).depth = (Value.list items).depth := by simp [depth]
  rw [hdepth, depth_list_le]

theorem depth_dict_le {items : List (Scalar F × Value F)} {d : ℕ} :
    (Value.dict items).depth ≤ d ↔ ∃ d', d = d' + 1 ∧ ∀ m ∈ items, m.2.depth ≤ d' := by
  have hdepth : (Value.dict items).depth = (Value.list (items.map Prod.snd)).depth := by
    simp [depth, Function.comp_def]
  rw [hdepth, depth_list_le]
  simp only [List.forall_mem_map]

end Value

theorem bind_eq_ok {α β ε : Type} {x : Except ε α} {f : α → Except ε β} {b : β} :
    x >>= f = .ok b ↔ ∃ a, x = .ok a ∧ f a = .ok b := by
  cases x with
  | error e => exact iff_of_false nofun (by simp)
  | ok a => exact ⟨fun h => ⟨a, rfl, h⟩, fun ⟨_, ha, h⟩ => Except.ok.inj ha ▸ h⟩

theorem bind_eq_error {α β ε : Type} {x : Except ε α} {f : α → Except ε β} {e : ε} :
    x >>= f = .error e ↔ x = .error e ∨ ∃ a, x = .ok a ∧ f a = .error e := by
  cases x with
  | error e' => exact ⟨fun h => .inl (congrArg _ (Except.error.inj h)), fun h => h.elim (fun h => h ▸ rfl) (by simp)⟩
  | ok a => exact ⟨fun h => .inr ⟨a, rfl, h⟩, fun h => h.elim nofun fun ⟨_, ha, h⟩ => Except.ok.inj ha ▸ h⟩

theorem forall₂_mem {α β : Type} {p : α → β → Prop} {l : List α} {r : List β} (h : List.Forall₂ p l r) {a : α}
    (ha : a ∈ l) : ∃ b ∈ r, p a b := by
  induction h with
  | nil => exact absurd ha List.not_mem_nil
  | cons hab _ ih =>
    rcases List.mem_cons.mp ha with rfl | ha
    · exact ⟨_, List.mem_cons_self .., hab⟩
    · obtain ⟨b, hb, hp⟩ := ih ha
      exact ⟨b, List.mem_cons_of_mem _ hb, hp⟩

theorem forall₂_left_iff {α β : Type} {p : α → β → Prop} {q : α → Prop} {l : List α}
    (h : ∀ a ∈ l, (∃ b, p a b) ↔ q a) : (∃ r, List.Forall₂ p l r) ↔ ∀ a ∈ l, q a := by
  induction l with
  | nil => simp
  | cons a l ih =>
    obtain ⟨ha, hl⟩ := List.forall_mem_cons.mp h
    rw [List.forall_mem_cons, ← ih hl, ← ha]
    constructor
    · rintro ⟨r, hr⟩
      obtain ⟨b, r', hb, hr', rfl⟩ := List.forall₂_cons_left_iff.mp hr
      exact ⟨⟨b, hb⟩, r', hr'⟩
    · rintro ⟨⟨b, hb⟩, r, hr⟩
      exact ⟨b :: r, .cons hb hr⟩

/-- A computation over a list returns when each of its steps does. -/
theorem mapM_eq_ok {α β ε : Type} {f : α → Except ε β} {l : List α} {r : List β} :
    l.mapM f = .ok r ↔ List.Forall₂ (fun a b => f a = .ok b) l r := by
  induction l generalizing r with
  | nil =>
    rw [List.mapM_nil, List.forall₂_nil_left_iff]
    exact ⟨fun h => (Except.ok.inj h).symm, fun h => h ▸ rfl⟩
  | cons a l ih =>
    rw [List.mapM_cons, List.forall₂_cons_left_iff]
    constructor
    · intro h
      obtain ⟨b, ha, h⟩ := bind_eq_ok.mp h
      obtain ⟨bs, hl, h⟩ := bind_eq_ok.mp h
      exact ⟨b, bs, ha, ih.mp hl, (Except.ok.inj h).symm⟩
    · rintro ⟨b, bs, ha, hl, rfl⟩
      rw [ha, ih.mpr hl]
      rfl

theorem mapM_eq_error {α β ε : Type} {f : α → Except ε β} {l : List α} {e : ε} (h : l.mapM f = .error e) :
    ∃ a ∈ l, f a = .error e := by
  induction l with
  | nil => cases h
  | cons a l ih =>
    rw [List.mapM_cons] at h
    rcases bind_eq_error.mp h with h | ⟨b, -, h⟩
    · exact ⟨a, List.mem_cons_self .., h⟩
    · rcases bind_eq_error.mp h with h | ⟨bs, -, h⟩
      · obtain ⟨a', ha', he⟩ := ih h
        exact ⟨a', List.mem_cons_of_mem _ ha', he⟩
      · cases h

theorem ascii_commas {texts : List (List Char)} (h : ∀ text ∈ texts, Ascii text) : Ascii (commas texts) := by
  induction texts with
  | nil => simp [commas, Ascii]
  | cons text texts ih =>
    obtain ⟨htext, htexts⟩ := List.forall_mem_cons.mp h
    cases texts with
    | nil => exact htext
    | cons text' texts => exact htext.append ((ih htexts).cons (by decide))

theorem length_commas (texts : List (List Char)) :
    (commas texts).length = (texts.map List.length).sum + (texts.length - 1) := by
  induction texts with
  | nil => rfl
  | cons text texts ih =>
    cases texts with
    | nil => simp [commas]
    | cons text' texts =>
      rw [commas_cons, List.length_append, List.length_cons, ih]
      simp
      omega

namespace Interpreter

variable (py : Interpreter F)

/-- The values that are written: the keys of every dictionary can be sorted, and no `int` has too many digits. -/
def Writable : Value F → Prop :=
  Value.Every py.Printable True fun keys => keys.Pairwise Scalar.Comparable ∧ ∀ key ∈ keys, py.Printable key

/-- How many characters a scalar is written with. -/
def scalarSize : Scalar F → ℕ
  | .none => 4
  | .bool b => if b then 4 else 5
  | .int i => intSize i
  | .float (.finite x) => (py.repr x).text.length
  | .float (.nan _) => 3
  | .float (.infinite negative) => if negative then 9 else 8
  | .str s => stringSize s

/-- A container, from the sizes of its parts: brackets around them, and a comma between two. -/
def containerSize (sizes : List ℕ) : ℕ := sizes.sum + (sizes.length - 1) + 2

/-- How many characters a value is written with. -/
def size : Value F → ℕ :=
  Value.fold py.scalarSize containerSize containerSize
    fun members => containerSize (members.map fun m => stringSize (py.keyStr m.1) + 1 + m.2)

variable {py}

theorem encode_scalar {s : Scalar F} {d : ℕ} {text : List Char} :
    py.encode (.scalar s) d = .ok text ↔ py.Printable s ∧ text = py.lexeme s := by
  show py.scalarText s = .ok text ↔ _
  unfold scalarText
  split_ifs with h <;> simp [h, eq_comm]

theorem arrayText_eq_ok {items : List (Value F)} {d : ℕ} {text : List Char} :
    arrayText (items.map py.encode) d = .ok text ↔ ∃ d' texts, d = d' + 1 ∧
      List.Forall₂ (fun v t => py.encode v d' = .ok t) items texts ∧ text = '[' :: (commas texts ++ [']']) := by
  cases d with
  | zero => simp [arrayText]
  | succ d =>
    rw [arrayText, bind_eq_ok]
    constructor
    · rintro ⟨texts, htexts, h⟩
      exact ⟨d, texts, rfl, List.forall₂_map_left_iff.mp (mapM_eq_ok.mp htexts), (Except.ok.inj h).symm⟩
    · rintro ⟨d', texts, hd, htexts, rfl⟩
      obtain rfl := Nat.succ.inj hd
      exact ⟨texts, mapM_eq_ok.mpr (List.forall₂_map_left_iff.mpr htexts), rfl⟩

theorem sorted_map {β γ : Type} (f : β → γ) (members : List (Scalar F × β)) :
    py.sorted (members.map fun m => (m.1, f m.2)) = (py.sorted members).map fun m => (m.1, f m.2) :=
  (List.map_insertionSort (fun a b : Scalar F × β => b.1.less py.toFloats a.1 = false)
    (fun a b : Scalar F × γ => b.1.less py.toFloats a.1 = false) (fun m => (m.1, f m.2)) members
    fun _ _ _ _ => Iff.rfl).symm

theorem sorted_perm {β : Type} (members : List (Scalar F × β)) : (py.sorted members).Perm members :=
  List.perm_insertionSort _ members

/-- The text of a member of a dictionary. -/
def Member (py : Interpreter F) (d : ℕ) (m : Scalar F × Value F) (text : List Char) : Prop :=
  py.Printable m.1 ∧ ∃ value, py.encode m.2 d = .ok value ∧ text = stringText (py.keyStr m.1) ++ ':' :: value

theorem memberText_eq_ok {d : ℕ} {m : Scalar F × Value F} {text : List Char} :
    py.memberText d (m.1, py.encode m.2) = .ok text ↔ py.Member d m text := by
  rw [memberText, bind_eq_ok]
  constructor
  · rintro ⟨key, hkey, h⟩
    unfold keyText at hkey
    split_ifs at hkey with hp
    obtain rfl := Except.ok.inj hkey
    obtain ⟨value, hvalue, h⟩ := bind_eq_ok.mp h
    exact ⟨hp, value, hvalue, (Except.ok.inj h).symm⟩
  · rintro ⟨hp, value, hvalue, rfl⟩
    exact ⟨_, if_pos hp, bind_eq_ok.mpr ⟨value, hvalue, rfl⟩⟩

theorem encode_list {items : List (Value F)} {d : ℕ} {text : List Char} :
    py.encode (.list items) d = .ok text ↔ ∃ d' texts, d = d' + 1 ∧
      List.Forall₂ (fun v t => py.encode v d' = .ok t) items texts ∧ text = '[' :: (commas texts ++ [']']) := by
  have hfold : py.encode (.list items) = arrayText (items.map py.encode) := Value.fold_list ..
  rw [hfold, arrayText_eq_ok]

theorem encode_tuple {items : List (Value F)} {d : ℕ} {text : List Char} :
    py.encode (.tuple items) d = .ok text ↔ ∃ d' texts, d = d' + 1 ∧
      List.Forall₂ (fun v t => py.encode v d' = .ok t) items texts ∧ text = '[' :: (commas texts ++ [']']) := by
  have hfold : py.encode (.tuple items) = arrayText (items.map py.encode) := Value.fold_tuple ..
  rw [hfold, arrayText_eq_ok]

theorem encode_dict {items : List (Scalar F × Value F)} {d : ℕ} {text : List Char} :
    py.encode (.dict items) d = .ok text ↔ ∃ d' texts, d = d' + 1 ∧
      (items.map Prod.fst).Pairwise Scalar.Comparable ∧ List.Forall₂ (py.Member d') (py.sorted items) texts ∧
        text = '{' :: (commas texts ++ ['}']) := by
  have hfold : py.encode (.dict items) = py.objectText (items.map fun m => (m.1, py.encode m.2)) := Value.fold_dict ..
  rw [hfold]
  cases d with
  | zero => simp [objectText]
  | succ d =>
    have hkeys : (items.map fun m => (m.1, py.encode m.2)).map Prod.fst = items.map Prod.fst := by
      rw [List.map_map]
      rfl
    have hmembers : ∀ texts, (py.sorted items).mapM (fun m => py.memberText d (m.1, py.encode m.2)) = .ok texts ↔
        List.Forall₂ (py.Member d) (py.sorted items) texts := by
      intro texts
      simp only [mapM_eq_ok, memberText_eq_ok]
    rw [objectText, hkeys, sorted_map, List.mapM_map]
    split_ifs with hsort
    · rw [bind_eq_ok]
      constructor
      · rintro ⟨texts, htexts, h⟩
        exact ⟨d, texts, rfl, hsort, (hmembers texts).mp htexts, (Except.ok.inj h).symm⟩
      · rintro ⟨d', texts, hd, -, htexts, rfl⟩
        obtain rfl := Nat.succ.inj hd
        exact ⟨texts, (hmembers texts).mpr htexts, rfl⟩
    · refine iff_of_false nofun ?_
      rintro ⟨d', texts, -, h, -⟩
      exact hsort h

/-- `dumps` returns a text for exactly the values that can be written and are not nested too deep. -/
theorem encode_ok_iff (v : Value F) (d : ℕ) :
    (∃ text, py.encode v d = .ok text) ↔ py.Writable v ∧ v.depth ≤ d := by
  induction v using Value.induct generalizing d with
  | scalar s =>
    simp only [encode_scalar, exists_and_left, exists_eq, and_true, Writable, Value.every_scalar]
    exact (and_iff_left (Nat.zero_le d)).symm
  | list items ih =>
    rw [Writable, Value.every_list, Value.depth_list_le]
    constructor
    · rintro ⟨text, h⟩
      obtain ⟨d', texts, rfl, htexts, -⟩ := encode_list.mp h
      have hall := (forall₂_left_iff fun v hv => ih v hv d').mp ⟨texts, htexts⟩
      exact ⟨fun v hv => (hall v hv).1, d', rfl, fun v hv => (hall v hv).2⟩
    · rintro ⟨hw, d', rfl, hd⟩
      obtain ⟨texts, htexts⟩ := (forall₂_left_iff fun v hv => ih v hv d').mpr fun v hv => ⟨hw v hv, hd v hv⟩
      exact ⟨_, encode_list.mpr ⟨d', texts, rfl, htexts, rfl⟩⟩
  | tuple items ih =>
    rw [Writable, Value.every_tuple, Value.depth_tuple_le]
    constructor
    · rintro ⟨text, h⟩
      obtain ⟨d', texts, rfl, htexts, -⟩ := encode_tuple.mp h
      have hall := (forall₂_left_iff fun v hv => ih v hv d').mp ⟨texts, htexts⟩
      exact ⟨⟨trivial, fun v hv => (hall v hv).1⟩, d', rfl, fun v hv => (hall v hv).2⟩
    · rintro ⟨⟨-, hw⟩, d', rfl, hd⟩
      obtain ⟨texts, htexts⟩ := (forall₂_left_iff fun v hv => ih v hv d').mpr fun v hv => ⟨hw v hv, hd v hv⟩
      exact ⟨_, encode_tuple.mpr ⟨d', texts, rfl, htexts, rfl⟩⟩
  | dict items ih =>
    rw [Writable, Value.every_dict, Value.depth_dict_le]
    -- sorting keeps the members
    have hmember : ∀ d', ∀ m ∈ py.sorted items,
        (∃ text, py.Member d' m text) ↔ py.Printable m.1 ∧ py.Writable m.2 ∧ m.2.depth ≤ d' := by
      intro d' m hm
      rw [← ih m ((sorted_perm items).mem_iff.mp hm) d']
      constructor
      · rintro ⟨text, hp, value, hvalue, -⟩
        exact ⟨hp, value, hvalue⟩
      · rintro ⟨hp, value, hvalue⟩
        exact ⟨_, hp, value, hvalue, rfl⟩
    constructor
    · rintro ⟨text, h⟩
      obtain ⟨d', texts, rfl, hsort, htexts, -⟩ := encode_dict.mp h
      have hall := (forall₂_left_iff (hmember d')).mp ⟨texts, htexts⟩
      have hitem : ∀ m ∈ items, py.Printable m.1 ∧ py.Writable m.2 ∧ m.2.depth ≤ d' :=
        fun m hm => hall m ((sorted_perm items).mem_iff.mpr hm)
      exact ⟨⟨⟨hsort, List.forall_mem_map.mpr fun m hm => (hitem m hm).1⟩, fun m hm => (hitem m hm).2.1⟩, d', rfl,
        fun m hm => (hitem m hm).2.2⟩
    · rintro ⟨⟨⟨hsort, hkeys⟩, hw⟩, d', rfl, hd⟩
      obtain ⟨texts, htexts⟩ := (forall₂_left_iff (hmember d')).mpr fun m hm => by
        have hm' := (sorted_perm items).mem_iff.mp hm
        exact ⟨List.forall_mem_map.mp hkeys m hm', hw m hm', hd m hm'⟩
      exact ⟨_, encode_dict.mpr ⟨d', texts, rfl, hsort, htexts, rfl⟩⟩

/-! ### The length of the text -/

theorem ascii_lexeme (s : Scalar F) : Ascii (py.lexeme s) := by
  cases s with
  | none => simp [lexeme, Ascii]
  | bool b => cases b <;> simp [lexeme, Ascii]
  | int i =>
    have h := (intNumber_wellFormed i).ascii
    rwa [intNumber_text] at h
  | float x =>
    cases x with
    | finite x => exact (py.repr_wellFormed x).ascii
    | infinite negative => cases negative <;> simp [lexeme, floatText, Ascii]
    | nan => simp [lexeme, floatText, Ascii]
  | str s => exact ascii_stringText s

theorem length_lexeme (s : Scalar F) : (py.lexeme s).length = py.scalarSize s := by
  cases s with
  | none => rfl
  | bool b => cases b <;> rfl
  | int i => exact length_intText i
  | float x =>
    cases x with
    | finite x => rfl
    | infinite negative => cases negative <;> rfl
    | nan => rfl
  | str s => exact length_stringText s

theorem containerSize_perm {l l' : List ℕ} (h : l.Perm l') : containerSize l = containerSize l' := by
  rw [containerSize, containerSize, h.sum_eq, h.length_eq]

/-- A container's text, when its parts have the texts of some sizes. -/
theorem length_container {α : Type} {p : α → List Char → Prop} {g : α → ℕ} {l : List α} {texts : List (List Char)}
    (h : ∀ a ∈ l, ∀ t, p a t → t.length = g a ∧ Ascii t) (htexts : List.Forall₂ p l texts) (a b : Char)
    (ha : a.toNat < 128) (hb : b.toNat < 128) :
    (a :: (commas texts ++ [b])).length = containerSize (l.map g) ∧ Ascii (a :: (commas texts ++ [b])) := by
  have hparts : texts.map List.length = l.map g ∧ ∀ t ∈ texts, Ascii t := by
    induction htexts with
    | nil => exact ⟨rfl, by simp⟩
    | cons hab _ ih =>
      obtain ⟨hhead, htail⟩ := List.forall_mem_cons.mp h
      obtain ⟨hlen, hascii⟩ := hhead _ hab
      obtain ⟨hlens, hasciis⟩ := ih htail
      exact ⟨by rw [List.map_cons, List.map_cons, hlen, hlens], List.forall_mem_cons.mpr ⟨hascii, hasciis⟩⟩
  refine ⟨?_, Ascii.cons ha ((ascii_commas hparts.2).append (Ascii.cons hb (by simp [Ascii])))⟩
  have hcount : texts.length = (l.map g).length := by rw [← hparts.1, List.length_map]
  rw [containerSize, ← hparts.1, List.length_map, List.length_cons, List.length_append, length_commas]
  rfl

/-- The size of a value is the length of its text, whose characters are ASCII. -/
theorem length_encode {v : Value F} {d : ℕ} {text : List Char} (h : py.encode v d = .ok text) :
    text.length = py.size v ∧ Ascii text := by
  induction v using Value.induct generalizing d text with
  | scalar s =>
    obtain ⟨-, rfl⟩ := encode_scalar.mp h
    exact ⟨length_lexeme s, ascii_lexeme s⟩
  | list items ih =>
    obtain ⟨d', texts, rfl, htexts, rfl⟩ := encode_list.mp h
    rw [size, Value.fold_list]
    exact length_container (fun v hv t ht => ih v hv ht) htexts '[' ']' (by decide) (by decide)
  | tuple items ih =>
    obtain ⟨d', texts, rfl, htexts, rfl⟩ := encode_tuple.mp h
    rw [size, Value.fold_tuple]
    exact length_container (fun v hv t ht => ih v hv ht) htexts '[' ']' (by decide) (by decide)
  | dict items ih =>
    obtain ⟨d', texts, rfl, hsort, htexts, rfl⟩ := encode_dict.mp h
    have hmember : ∀ m ∈ py.sorted items, ∀ t, py.Member d' m t →
        t.length = stringSize (py.keyStr m.1) + 1 + py.size m.2 ∧ Ascii t := by
      rintro m hm t ⟨-, value, hvalue, rfl⟩
      obtain ⟨hlen, hascii⟩ := ih m ((sorted_perm items).mem_iff.mp hm) hvalue
      refine ⟨?_, (ascii_stringText _).append (hascii.cons (by decide))⟩
      rw [List.length_append, List.length_cons, length_stringText, hlen]
      omega
    obtain ⟨hlen, hascii⟩ := length_container hmember htexts '\x7b' '\x7d' (by decide) (by decide)
    refine ⟨?_, hascii⟩
    rw [size, Value.fold_dict, List.map_map]
    exact hlen.trans (containerSize_perm ((sorted_perm items).map _))

/-! ### What is raised -/

/-- What `dumps` raises is a `ValueError`, a `TypeError` or a `RecursionError` itself. -/
def Raises (e : Exc) : Prop :=
  (∃ message, e = valueError message) ∨ (∃ message, e = typeError message) ∨ e = recursionError

theorem raises_arrayText {items : List (Value F)} (ih : ∀ v ∈ items, ∀ d e, py.encode v d = .error e → Raises e) {d : ℕ}
    {e : Exc} (h : arrayText (items.map py.encode) d = .error e) : Raises e := by
  cases d with
  | zero =>
    obtain rfl := Except.error.inj h
    exact .inr (.inr rfl)
  | succ d =>
    rw [arrayText] at h
    rcases bind_eq_error.mp h with h | ⟨texts, -, h⟩
    · obtain ⟨item, hitem, he⟩ := mapM_eq_error h
      obtain ⟨v, hv, rfl⟩ := List.mem_map.mp hitem
      exact ih v hv d _ he
    · cases h

theorem raises_of_printable {s : Scalar F} {text : List Char} {e : Exc}
    (h : (if py.Printable s then .ok text else .error py.digitsError : Except Exc (List Char)) = .error e) :
    Raises e := by
  split_ifs at h
  obtain rfl := Except.error.inj h
  exact .inl ⟨_, rfl⟩

theorem raises_objectText {items : List (Scalar F × Value F)}
    (ih : ∀ m ∈ items, ∀ d e, py.encode m.2 d = .error e → Raises e) {d : ℕ} {e : Exc}
    (h : py.objectText (items.map fun m => (m.1, py.encode m.2)) d = .error e) : Raises e := by
  cases d with
  | zero =>
    obtain rfl := Except.error.inj h
    exact .inr (.inr rfl)
  | succ d =>
    rw [objectText] at h
    split_ifs at h
    · rw [sorted_map] at h
      rcases bind_eq_error.mp h with h | ⟨texts, -, h⟩
      · obtain ⟨member, hmember, he⟩ := mapM_eq_error h
        obtain ⟨m, hm, rfl⟩ := List.mem_map.mp hmember
        rcases bind_eq_error.mp he with he | ⟨key, -, he⟩
        · exact raises_of_printable he
        · rcases bind_eq_error.mp he with he | ⟨value, -, he⟩
          · exact ih m ((sorted_perm items).mem_iff.mp hm) d e he
          · cases he
      · cases h
    · obtain rfl := Except.error.inj h
      exact .inr (.inl ⟨_, rfl⟩)

theorem raises_encode {v : Value F} {d : ℕ} {e : Exc} (h : py.encode v d = .error e) : Raises e := by
  induction v using Value.induct generalizing d e with
  | scalar s => exact raises_of_printable h
  | list items ih =>
    have hfold : py.encode (.list items) = arrayText (items.map py.encode) := Value.fold_list ..
    exact raises_arrayText (fun v hv _ _ he => ih v hv he) (hfold ▸ h)
  | tuple items ih =>
    have hfold : py.encode (.tuple items) = arrayText (items.map py.encode) := Value.fold_tuple ..
    exact raises_arrayText (fun v hv _ _ he => ih v hv he) (hfold ▸ h)
  | dict items ih =>
    have hfold : py.encode (.dict items) = py.objectText (items.map fun m => (m.1, py.encode m.2)) := Value.fold_dict ..
    exact raises_objectText (fun m hm _ _ he => ih m hm he) (hfold ▸ h)

end Interpreter

end Xyberos.Json
