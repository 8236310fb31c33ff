import Mathlib.Data.Rat.Floor
import Mathlib.Data.List.Basic

/-!
# Xyberos.Python — the built-ins the package is written with

Strings (`str.strip`, `repr`, `str.isidentifier`), exceptions and their classes, dictionaries, and the two time types
of `datetime` as whole microseconds.  A `float` is read as an exact rational.
-/

set_option autoImplicit false

namespace Xyberos

/-! ## Strings -/

/-- The characters `str.strip` removes. -/
def isSpace (c : Char) : Bool :=
  (9 ≤ c.toNat && c.toNat ≤ 13) || (28 ≤ c.toNat && c.toNat ≤ 32) || c.toNat == 0x85 || c.toNat == 0xa0 ||
  c.toNat == 0x1680 || (0x2000 ≤ c.toNat && c.toNat ≤ 0x200a) || c.toNat == 0x2028 || c.toNat == 0x2029 ||
  c.toNat == 0x202f || c.toNat == 0x205f || c.toNat == 0x3000

/-- `not s.strip()`. -/
def isBlank (s : String) : Bool := s.toList.all isSpace

/-- One character of a string inside `repr`, quoted by `q`.  Characters from 0x80 on are taken as printable. -/
def reprChar (q c : Char) : String :=
  if c = '\\' then "\\\\"
  else if c = q then "\\" ++ q.toString
  else if c = '\n' then "\\n"
  else if c = '\r' then "\\r"
  else if c = '\t' then "\\t"
  else if c.toNat < 32 ∨ c.toNat = 127 then
    "\\x" ++ (Nat.digitChar (c.toNat / 16)).toString ++ (Nat.digitChar (c.toNat % 16)).toString
  else c.toString

/-- `repr(s)` of a `str`: single quotes, unless the text has single quotes and no double ones. -/
def reprStr (s : String) : String :=
  let q := if s.toList.contains '\'' && !s.toList.contains '"' then '"' else '\''
  q.toString ++ String.join (s.toList.map (reprChar q)) ++ q.toString

/-- `str.isidentifier` of one leading character; every character from 0x80 on is taken as a letter. -/
def isIdentifierStart (c : Char) : Bool := c == '_' || c.isAlpha || 0x80 ≤ c.toNat

/-- `str.isidentifier`. -/
def isIdentifier (s : String) : Bool :=
  match s.toList with
  | [] => false
  | c :: cs => isIdentifierStart c && cs.all fun d => isIdentifierStart d || d.isDigit

/-- `s.rpartition(sep)` of one character; `none` when `sep` does not occur. -/
def rpartition (s : String) (sep : Char) : Option (String × String) :=
  match s.toList.reverse.span (· ≠ sep) with
  | (_, []) => none
  | (tail, _ :: head) => some (String.ofList head.reverse, String.ofList tail.reverse)

/-- `text or default`. -/
def textOr (default : String) : Option String → String
  | none => default
  | some "" => default
  | some text => text

/-! ## Exceptions -/

/-- A class of exceptions: its name and the names of all classes it derives from. -/
structure ExcClass where
  name : String
  bases : List String
deriving DecidableEq, Repr

/-- A raised exception: `type(error)` and `str(error)`. -/
structure Exc where
  cls : ExcClass
  message : String
deriving DecidableEq, Repr

/-- `isinstance(error, cls)`, for a class given by its name. -/
def Exc.isInstance (e : Exc) (cls : String) : Bool := e.cls.name == cls || e.cls.bases.contains cls

/-- An error of the package: `bases` lists the classes between it and `Exception`. -/
def xyberosError (name : String) (bases : List String) (message : String) : Exc :=
  ⟨⟨name, bases ++ ["XyberosError", "Exception", "BaseException"]⟩, message⟩

def workflowValidationError (message : String) : Exc :=
  xyberosError "WorkflowValidationError" ["WorkflowError"] message

def stepTimeoutError (message : String) : Exc :=
  xyberosError "StepTimeoutError" ["WorkflowExecutionError", "WorkflowError"] message

def durableStateError (message : String) : Exc := xyberosError "DurableStateError" ["DurableError"] message

def durableLeaseError (message : String) : Exc := xyberosError "DurableLeaseError" ["DurableError"] message

def durableConflictError (message : String) : Exc :=
  xyberosError "DurableConflictError" ["DurableError"] message

def durableVersionError (message : String) : Exc :=
  xyberosError "DurableVersionError" ["DurableError"] message

def durablePayloadError (message : String) : Exc :=
  xyberosError "DurablePayloadError" ["DurableError"] message

/-- What the driver raises for an `INSERT` whose primary key exists. -/
def integrityError : Exc :=
  ⟨⟨"IntegrityError", ["DatabaseError", "DBAPIError", "StatementError", "SQLAlchemyError", "Exception",
    "BaseException"]⟩, "UNIQUE constraint failed"⟩

def overflowError (message : String) : Exc :=
  ⟨⟨"OverflowError", ["ArithmeticError", "Exception", "BaseException"]⟩, message⟩

def keyError (key : String) : Exc := ⟨⟨"KeyError", ["LookupError", "Exception", "BaseException"]⟩, reprStr key⟩

def typeError (message : String) : Exc := ⟨⟨"TypeError", ["Exception", "BaseException"]⟩, message⟩

/-- `hmac.compare_digest` of two strings. -/
def compareDigest (a b : String) : Except Exc Bool :=
  if (a.toList ++ b.toList).all (·.toNat < 128) then .ok (a == b)
  else .error (typeError "comparing strings with non-ASCII characters is not supported")

def valueError (message : String) : Exc := ⟨⟨"ValueError", ["Exception", "BaseException"]⟩, message⟩

def recursionError : Exc :=
  ⟨⟨"RecursionError", ["RuntimeError", "Exception", "BaseException"]⟩, "maximum recursion depth exceeded"⟩

def assertionError (message : String) : Exc := ⟨⟨"AssertionError", ["Exception", "BaseException"]⟩, message⟩

/-! ## Dictionaries -/

/-- A `dict` with string keys, in the order of insertion. -/
structure Dict (α : Type) where
  items : List (String × α) := []
deriving DecidableEq, Repr

namespace Dict

variable {α : Type}

/-- `d.get(key)`. -/
def get? (d : Dict α) (key : String) : Option α := d.items.lookup key

/-- `d[key]`. -/
def getItem (d : Dict α) (key : String) : Except Exc α :=
  match d.get? key with
  | some value => .ok value
  | none => .error (keyError key)

private def setIn (key : String) (value : α) : List (String × α) → List (String × α)
  | [] => [(key, value)]
  | (k, v) :: items => if k = key then (key, value) :: items else (k, v) :: setIn key value items

/-- `d[key] = value`. -/
def set (d : Dict α) (key : String) (value : α) : Dict α := ⟨setIn key value d.items⟩

theorem get?_set (d : Dict α) (key : String) (value : α) (k : String) :
    (d.set key value).get? k = if k = key then some value else d.get? k := by
  obtain ⟨items⟩ := d
  show (setIn key value items).lookup k = if k = key then some value else items.lookup k
  induction items with
  | nil =>
    by_cases hk : k = key
    · simp [setIn, hk]
    · rw [setIn, List.lookup_cons, beq_false_of_ne hk, if_neg hk]
  | cons item items ih =>
    obtain ⟨k', v⟩ := item
    unfold setIn
    split_ifs with hkey hk hk
    · subst hk
      simp
    · have hne : k ≠ k' := fun h => hk (h.trans hkey)
      simp [List.lookup_cons, beq_false_of_ne hk, beq_false_of_ne hne]
    · have hne : k ≠ k' := fun h => hkey (h ▸ hk)
      rw [List.lookup_cons, beq_false_of_ne hne, ih, if_pos hk]
    · rw [List.lookup_cons, List.lookup_cons, ih, if_neg hk]

@[simp] theorem get?_set_self (d : Dict α) (key : String) (value : α) : (d.set key value).get? key = some value := by
  rw [get?_set, if_pos rfl]

theorem get?_set_of_ne (d : Dict α) {key k : String} (value : α) (h : k ≠ key) :
    (d.set key value).get? k = d.get? k := by
  rw [get?_set, if_neg h]

theorem mem_keys {d : Dict α} {key : String} : key ∈ d.items.map Prod.fst ↔ ∃ value, d.get? key = some value := by
  obtain ⟨items⟩ := d
  show key ∈ items.map Prod.fst ↔ ∃ value, items.lookup key = some value
  induction items with
  | nil => simp
  | cons item items ih =>
    obtain ⟨k, v⟩ := item
    rw [List.map_cons, List.mem_cons, ih, List.lookup_cons]
    by_cases hk : key = k
    · simp [hk]
    · simp [hk, beq_false_of_ne hk]

theorem get?_eq_none {d : Dict α} {key : String} (h : key ∉ d.items.map Prod.fst) : d.get? key = none := by
  cases hget : d.get? key with
  | none => rfl
  | some value => exact absurd (mem_keys.mpr ⟨value, hget⟩) h

/-- A new key comes last. -/
theorem keys_set {d : Dict α} {key : String} (value : α) (h : key ∉ d.items.map Prod.fst) :
    (d.set key value).items.map Prod.fst = d.items.map Prod.fst ++ [key] := by
  obtain ⟨items⟩ := d
  show (setIn key value items).map Prod.fst = items.map Prod.fst ++ [key]
  induction items with
  | nil => rfl
  | cons item items ih =>
    obtain ⟨k, v⟩ := item
    obtain ⟨hne, hrest⟩ : k ≠ key ∧ key ∉ items.map Prod.fst := by
      simpa [eq_comm] using h
    rw [setIn, if_neg hne, List.map_cons, ih hrest]
    rfl

/-- `del d[key]`, and `d.pop(key, None)`. -/
def erase (d : Dict α) (key : String) : Dict α := ⟨d.items.filter fun item => item.1 ≠ key⟩

theorem getItem_of_get? {d : Dict α} {key : String} {value : α} (h : d.get? key = some value) :
    d.getItem key = .ok value := by
  rw [getItem, h]

end Dict

/-! ## Time -/

/-- A `datetime`, in microseconds of UTC. -/
abbrev Instant := ℤ

/-- A `timedelta`, in microseconds. -/
abbrev Duration := ℤ

/-- Rounding half to even. -/
def roundHalfEven (q : ℚ) : ℤ :=
  let f := ⌊q⌋
  if q - f < 1 / 2 then f
  else if 1 / 2 < q - f then f + 1
  else if f % 2 = 0 then f else f + 1

/-- `timedelta(seconds=s)`. -/
def timedelta (s : ℚ) : Duration := roundHalfEven (s * 1000000)

/-- `delta.total_seconds()`. -/
def totalSeconds (d : Duration) : ℚ := d / 1000000

/-- A `float` of seconds. -/
inductive Seconds
  | finite (q : ℚ)
  | infinite (negative : Bool)
  | nan
deriving DecidableEq

namespace Seconds

/-- `s <= 0`. -/
def notPositive : Seconds → Bool
  | finite q => q ≤ 0
  | infinite negative => negative
  | nan => false

/-- The number, for the computations that only a finite one reaches. -/
def toRat : Seconds → ℚ
  | finite q => q
  | infinite _ => 0
  | nan => 0

/-- `timedelta(seconds=s)`, with what it refuses. -/
def toDelta : Seconds → Except Exc Duration
  | finite q =>
    let days := timedelta q / 86400000000
    if days < -2147483648 ∨ 2147483647 < days then
      .error (overflowError "Python int too large to convert to C int")
    else if days < -999999999 ∨ 999999999 < days then
      .error (overflowError s!"days={days}; must have magnitude <= 999999999")
    else .ok (timedelta q)
  | infinite _ => .error (overflowError "cannot convert float infinity to integer")
  | nan => .error (valueError "cannot convert float NaN to integer")

end Seconds

/-- `moment + delta`: the years of a `datetime` are 1 to 9999. -/
def addDelta (moment : Instant) (delta : Duration) : Except Exc Instant :=
  if moment + delta < -62135596800000000 ∨ 253402300799999999 < moment + delta then
    .error (overflowError "date value out of range")
  else .ok (moment + delta)

end Xyberos
