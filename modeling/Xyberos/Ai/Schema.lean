import Xyberos.Json.Equality

/-!
# Xyberos.Ai.Schema — the closed subset of JSON Schema

`checkSchema` says whether a schema is usable as declared, and `validatePayload` walks a value along a schema and
raises at the first keyword that the value fails.  A schema nested `n` deep is walked in at most `n` calls, and the
walk is given that many; the interpreter's limit on calls is left out.
-/

set_option autoImplicit false

namespace Xyberos.Ai

open Json

variable {F : Type}

def aiRequestError (message : String) : Exc := xyberosError "AIRequestError" ["AIError"] message

def aiSchemaError (message : String) : Exc := xyberosError "AISchemaError" ["AIError"] message

/-- An interpreter with the text of `repr`. -/
structure Host (F : Type) extends Interpreter F where
  reprValue : Value F → String

/-! ## Keywords -/

/-- `_SUPPORTED_TYPES`. -/
def supportedTypes : List String := ["object", "array", "string", "number", "integer", "boolean", "null"]

/-- `_ANNOTATION_KEYWORDS`. -/
def annotationKeywords : List String := ["description", "title", "default", "examples", "format"]

/-- `_SCHEMA_KEYWORDS`, the annotations last. -/
def schemaKeywords : List String :=
  ["type", "properties", "required", "additionalProperties", "items", "enum", "minimum", "maximum", "minLength",
    "maxLength", "minItems", "maxItems"] ++ annotationKeywords

/-- `schema.get(keyword)`. -/
def getKeyword (keyword : String) (schema : Value F) : Value F := (member keyword schema).getD (.scalar .none)

/-- `_sequence`. -/
def sequence : Value F → List (Value F)
  | .list items => items
  | .tuple items => items
  | _ => []

def isSequence : Value F → Bool
  | .list _ => true
  | .tuple _ => true
  | _ => false

def isMapping : Value F → Bool
  | .dict _ => true
  | _ => false

/-- The entries of a dictionary, in its order. -/
def entries : Value F → List (Scalar F × Value F)
  | .dict items => items
  | _ => []

def isNull : Value F → Bool
  | .scalar .none => true
  | _ => false

theorem isNull_iff {v : Value F} : isNull v = true ↔ v = .scalar .none := by
  unfold isNull
  split
  · simp
  · rename_i hno
    simpa using hno

/-- `isinstance(value, bool)`. -/
def isBoolean : Value F → Bool
  | .scalar s => s.isBool
  | _ => false

/-- `isinstance(value, (int, float))`, with the scalar; a `bool` is an `int`. -/
def numeric? : Value F → Option (Scalar F)
  | .scalar (.bool b) => some (.bool b)
  | .scalar (.int i) => some (.int i)
  | .scalar (.float x) => some (.float x)
  | _ => none

/-- `isinstance(value, int)`, with its number. -/
def int? : Value F → Option ℤ
  | .scalar (.bool b) => some (if b then 1 else 0)
  | .scalar (.int i) => some i
  | _ => none

/-- A name: `isinstance(value, str) and value`. -/
def name? : Value F → Option Str
  | .scalar (.str s) => if s = [] then none else some s
  | _ => none

/-- The value is this string. -/
def isWord (word : String) : Value F → Bool
  | .scalar s => isText word s
  | _ => false

/-- `_describe`. -/
def describe : Value F → String
  | .scalar .none => "null"
  | .scalar (.bool _) => "boolean"
  | .scalar (.int _) => "integer"
  | .scalar (.float _) => "number"
  | .scalar (.str _) => "string"
  | .dict _ => "object"
  | .list _ => "array"
  | .tuple _ => "array"

namespace Host

variable (py : Host F)

/-- No `int` in the value has too many digits. -/
def printable : Value F → Bool :=
  Value.fold (fun s => decide (py.Printable s)) (fun parts => parts.all id) (fun parts => parts.all id)
    fun parts => parts.all fun p => decide (py.Printable p.1) && p.2

/-- `repr(value)`; an `int` with too many digits raises. -/
def reprOf (v : Value F) : Except Exc String := if py.printable v then .ok (py.reprValue v) else .error py.digitsError

end Host

/-! ## `check_schema` -/

section Check

variable (location : String)

def refuse (ok : Bool) (message : String) : Except Exc Unit := if ok then .ok () else .error (aiRequestError message)

/-- The names among the keys, sorted; keys that are not strings cannot be joined. -/
def sortedNames (keys : List (Scalar F)) : Except Exc (List Str) := do
  let names ← keys.mapM fun key =>
    match key with
    | .str s => .ok s
    | _ => .error (typeError "sequence item 0: expected str instance")
  return names.insertionSort fun a b => ¬ b < a

/-- `_check_type_keyword`. -/
def checkTypeKeyword (py : Host F) (v : Value F) (path : String) : Except Exc Unit := do
  let candidates ←
    match v with
    | .scalar .none => .ok []
    | .scalar (.str s) => .ok [.scalar (.str s)]
    | .list items => .ok items
    | .tuple items => .ok items
    | _ => .error (aiRequestError s!"{location} at {path}.type must be a name or an array of names")
  candidates.forM fun candidate =>
    if supportedTypes.any fun name => isWord name candidate then .ok ()
    else do
      let shown ← py.reprOf candidate
      let supported := ", ".intercalate supportedTypes
      .error (aiRequestError (s!"{location} at {path}.type uses unsupported type {shown}; " ++
        s!"supported types are: {supported}"))

/-- `_check_enum_keyword`. -/
def checkEnumKeyword (v : Value F) (path : String) : Except Exc Unit :=
  refuse (isNull v || isSequence v && !(sequence v).isEmpty) s!"{location} at {path}.enum must be a non-empty array"

/-- `_check_additional_properties`. -/
def checkAdditionalProperties (v : Value F) (path : String) : Except Exc Unit :=
  refuse (isNull v || isBoolean v) s!"{location} at {path}.additionalProperties must be true or false"

/-- `_check_non_negative_int`. -/
def checkNonNegativeInt (v : Value F) (keyword path : String) : Except Exc Unit :=
  refuse (isNull v || !isBoolean v && (int? v).any (0 ≤ ·)) s!"{location} at {path}.{keyword} must be a non-negative integer"

/-- `_check_number`. -/
def checkNumber (v : Value F) (keyword path : String) : Except Exc Unit :=
  refuse (isNull v || !isBoolean v && (numeric? v).isSome) s!"{location} at {path}.{keyword} must be a number"

/-- The keywords of a schema are supported. -/
def checkKeywords (schema : Value F) (path : String) : Except Exc Unit := do
  let unknown ← sortedNames (((entries schema).map Prod.fst).filter fun key => !schemaKeywords.any fun name => isText name key)
  let listed := ", ".intercalate (unknown.map textOf)
  let supported := ", ".intercalate
    ((schemaKeywords.filter fun name => !annotationKeywords.contains name).insertionSort (· ≤ ·))
  refuse unknown.isEmpty (s!"{location} at {path} uses unsupported keyword(s): {listed}; " ++
    s!"supported keywords are: {supported}")

/-- What `_check_node` says of `required`. -/
def checkRequired (required properties : Value F) (path : String) : Except Exc Unit :=
  if isNull required then .ok ()
  else do
    refuse (isSequence required) s!"{location} at {path}.required must be an array of names"
    let names ← (sequence required).mapM fun name =>
      match name? name with
      | some s => .ok s
      | none => .error (aiRequestError s!"{location} at {path}.required must name properties")
    if isMapping properties then
      let undeclared := names.dedup.filter fun name => !(entries properties).any fun m => isStr name m.1
      let listed := ", ".intercalate ((undeclared.insertionSort fun a b => ¬ b < a).map textOf)
      refuse undeclared.isEmpty (s!"{location} at {path}.required names undeclared propert(ies): " ++ listed)
    else .ok ()

/-- `_check_node`, within a number of calls. -/
def checkNode (py : Host F) : ℕ → Value F → String → Except Exc Unit
  | 0, _, _ => .ok ()
  | calls + 1, schema, path => do
    refuse (isMapping schema) s!"{location} at {path} must be an object, not {describe schema}"
    checkKeywords location schema path
    checkTypeKeyword location py (getKeyword "type" schema) path
    checkEnumKeyword location (getKeyword "enum" schema) path
    checkAdditionalProperties location (getKeyword "additionalProperties" schema) path
    for keyword in ["minLength", "maxLength", "minItems", "maxItems"] do
      checkNonNegativeInt location (getKeyword keyword schema) keyword path
    for keyword in ["minimum", "maximum"] do
      checkNumber location (getKeyword keyword schema) keyword path
    let properties := getKeyword "properties" schema
    if !isNull properties then
      refuse (isMapping properties) s!"{location} at {path}.properties must be an object"
      for m in entries properties do
        match name? (.scalar m.1) with
        | some name => checkNode py calls m.2 s!"{path}.{textOf name}"
        | none => refuse false s!"{location} at {path}.properties needs non-empty names"
    checkRequired location (getKeyword "required" schema) properties path
    let items := getKeyword "items" schema
    if !isNull items then checkNode py calls items (path ++ "[]")

/-- `check_schema`. -/
def checkSchema (py : Host F) (schema : Value F) : Except Exc Unit :=
  checkNode location py (schema.depth + 1) schema "$"

end Check

/-! ## `validate_payload` -/

/-- `_matches_type`. -/
def matchesType (value : Value F) (expected : Value F) : Bool :=
  if isWord "null" expected then isNull value
  else if isWord "boolean" expected then isBoolean value
  else if isWord "integer" expected then (int? value).isSome && !isBoolean value
  else if isWord "number" expected then (numeric? value).isSome && !isBoolean value
  else if isWord "string" expected then describe value == "string"
  else if isWord "array" expected then isSequence value
  else if isWord "object" expected then isMapping value
  else false

/-- `isinstance(value, str)`. -/
def isString : Value F → Bool
  | .scalar (.str _) => true
  | _ => false

/-- `len(value)`. -/
def length : Value F → ℕ
  | .scalar (.str s) => s.length
  | .scalar _ => 0
  | .list items => items.length
  | .tuple items => items.length
  | .dict items => items.length

/-- `_matches_declared_types`. -/
def matchesDeclaredTypes (value declared : Value F) : Bool :=
  if isNull declared then true
  else if isString declared then matchesType value declared
  else (sequence declared).any (matchesType value)

/-- `_same_json_value`. -/
def sameJsonValue (floats : Floats F) (left right : Value F) : Bool :=
  if isBoolean left != isBoolean right then false else left.equals floats right

/-- `value[name]`, where the dictionary has the name. -/
def valueAt (floats : Floats F) (name : Scalar F) (value : Value F) : Option (Value F) :=
  ((entries value).find? fun m => name.equals floats m.1).map Prod.snd

/-- `name in value`. -/
def hasName (floats : Floats F) (name : Value F) (value : Value F) : Bool :=
  match name with
  | .scalar s => (valueAt floats s value).isSome
  | _ => false

section Validate

variable (location : String) (py : Host F)

/-- Raise `AISchemaError` with a message, once that is written. -/
def fail (message : Except Exc String) : Except Exc Unit := do .error (aiSchemaError (← message))

def failIf (wrong : Bool) (message : Except Exc String) : Except Exc Unit := if wrong then fail message else .ok ()

/-- `_described_types`. -/
def describedTypes (declared : Value F) : Except Exc String :=
  if isNull declared then .ok "any value"
  else
    match declared with
    | .scalar (.str s) => .ok (textOf s)
    | _ => do
      let names ← (sequence declared).mapM fun item =>
        match item with
        | .scalar (.str s) => .ok (textOf s)
        | _ => py.reprOf item
      return " or ".intercalate names

def typeMessage (value schema : Value F) (path : String) : Except Exc String := do
  let described ← describedTypes py (getKeyword "type" schema)
  return s!"{location} at {path} must be {described}, got {describe value}"

def enumMessage (value schema : Value F) (path : String) : Except Exc String := do
  let shown ← (sequence (getKeyword "enum" schema)).mapM py.reprOf
  let listed := ", ".intercalate shown
  let got ← py.reprOf value
  return s!"{location} at {path} must be one of: {listed}; got {got}"

/-- `_validate_enum`. -/
def validateEnum (value schema : Value F) (path : String) : Except Exc Unit :=
  let allowed := sequence (getKeyword "enum" schema)
  failIf (!allowed.isEmpty && !allowed.any fun candidate => sameJsonValue py.toFloats value candidate)
    (enumMessage location py value schema path)

def boundMessage (phrase : String) (value bound : Value F) (path : String) : Except Exc String := do
  let limit ← py.reprOf bound
  let got ← py.reprOf value
  return s!"{location} at {path} must be {phrase} {limit}, got {got}"

/-- `isinstance(value, (int, float)) and not isinstance(value, bool)`. -/
def number? (value : Value F) : Option (Scalar F) := if isBoolean value then none else numeric? value

/-- `value < minimum`, where both are numbers. -/
def under (value minimum : Value F) : Bool :=
  match number? value, numeric? minimum with
  | some x, some y => x.less py.toFloats y
  | _, _ => false

/-- `value > maximum`, where both are numbers. -/
def above (value maximum : Value F) : Bool :=
  match number? value, numeric? maximum with
  | some x, some y => y.less py.toFloats x
  | _, _ => false

def sizeMessage (phrase unit : String) (size : ℕ) (limit : ℤ) (path : String) : Except Exc String := do
  let shown ← py.reprOf (.scalar (.int limit))
  return s!"{location} at {path} must have {phrase} {shown} {unit}(s), got {size}"

/-- `_check_size`. -/
def checkSize (size : ℕ) (schema : Value F) (keyword phrase unit : String) (path : String) : Except Exc Unit :=
  match int? (getKeyword keyword schema) with
  | none => .ok ()
  | some limit =>
    failIf (phrase == "at least" && (size : ℤ) < limit || phrase == "at most" && limit < size)
      (sizeMessage location py phrase unit size limit path)

/-- The two sizes that are checked of a value of a kind. -/
def checkSizes (kind : Bool) (value schema : Value F) (least most unit path : String) : Except Exc Unit :=
  if kind then do
    checkSize location py (length value) schema least "at least" unit path
    checkSize location py (length value) schema most "at most" unit path
  else .ok ()

/-- `_validate_bounds`. -/
def validateBounds (value schema : Value F) (path : String) : Except Exc Unit := do
  let minimum := getKeyword "minimum" schema
  let maximum := getKeyword "maximum" schema
  failIf (under py value minimum) (boundMessage location py "at least" value minimum path)
  failIf (above py value maximum) (boundMessage location py "at most" value maximum path)
  checkSizes location py (isString value) value schema "minLength" "maxLength" "character" path
  checkSizes location py (isSequence value) value schema "minItems" "maxItems" "item" path

def missingMessage (name : Value F) (path : String) : Except Exc String := do
  let shown ← py.reprOf name
  return s!"{location} at {path} is missing the required property {shown}"

/-- The names of a value that are not declared, sorted. -/
def unexpected (value schema : Value F) : List Str :=
  (((entries value).filter fun m =>
    (valueAt py.toFloats m.1 (getKeyword "properties" schema)).isNone).map fun m =>
      match m.1 with
      | .str s => s
      | name => Str.ofString (py.reprValue (.scalar name))).insertionSort fun a b => ¬ b < a

/-- `schema.get("additionalProperties") is False`. -/
def isClosed (schema : Value F) : Bool :=
  match getKeyword "additionalProperties" schema with
  | .scalar (.bool false) => true
  | _ => false

def unexpectedMessage (value schema : Value F) (path : String) : String :=
  let listed := ", ".intercalate ((unexpected py value schema).map textOf)
  s!"{location} at {path} has unexpected propert(ies): {listed}"

/-- The path of a property. -/
def propertyPath (path : String) (name : Scalar F) : String :=
  match name with
  | .str s => s!"{path}.{textOf s}"
  | name => s!"{path}.{py.reprValue (.scalar name)}"

/-- `_validate_object`, with the walk of a child. -/
def validateObject (node : Value F → Value F → String → Except Exc Unit) (value schema : Value F) (path : String) :
    Except Exc Unit := do
  (sequence (getKeyword "required" schema)).forM fun name =>
    failIf (!hasName py.toFloats name value) (missingMessage location py name path)
  (entries (getKeyword "properties" schema)).forM fun m =>
    match valueAt py.toFloats m.1 value with
    | some v => if isMapping m.2 then node v m.2 (propertyPath py path m.1) else .ok ()
    | none => .ok ()
  failIf (isClosed schema && !(unexpected py value schema).isEmpty)
    (.ok (unexpectedMessage location py value schema path))

/-- `_validate_node`, within a number of calls. -/
def validateNode : ℕ → Value F → Value F → String → Except Exc Unit
  | 0, _, _, _ => .ok ()
  | calls + 1, value, schema, path => do
    failIf (!matchesDeclaredTypes value (getKeyword "type" schema)) (typeMessage location py value schema path)
    validateEnum location py value schema path
    validateBounds location py value schema path
    let items := getKeyword "items" schema
    if isMapping value then validateObject location py (validateNode calls) value schema path
    else if isSequence value && isMapping items then
      (sequence value).zipIdx.forM fun x => validateNode calls x.1 items s!"{path}[{x.2}]"
    else .ok ()

/-- `validate_payload`. -/
def validatePayload (value schema : Value F) : Except Exc (Value F) := do
  checkSchema location py schema
  validateNode location py (schema.depth + 1) value schema "$"
  return value

end Validate

/-! ### Where a schema is checked -/

section Location

/-- Both are right with the same value, or both raise. -/
def Like {α : Type} (a b : Except Exc α) : Prop := a.toOption = b.toOption

theorem Like.refl {α : Type} (a : Except Exc α) : Like a a := rfl

theorem Like.errors {α : Type} (e e' : Exc) : Like (.error e : Except Exc α) (.error e') := rfl

theorem Like.bind {α β : Type} {a b : Except Exc α} {f g : α → Except Exc β} (h : Like a b) (hf : ∀ x, Like (f x) (g x)) :
    Like (a >>= f) (b >>= g) := by
  cases a with
  | error e =>
    cases b with
    | error e' => rfl
    | ok y => cases h
  | ok x =>
    cases b with
    | error e' => cases h
    | ok y =>
      obtain rfl := Option.some.inj h
      exact hf x

theorem Like.ite {α : Type} {c : Prop} [Decidable c] {a b a' b' : Except Exc α} (h : Like a a') (h' : Like b b') :
    Like (if c then a else b) (if c then a' else b') := by
  split_ifs
  · exact h
  · exact h'

theorem Like.forM {α : Type} {f g : α → Except Exc Unit} (h : ∀ x, Like (f x) (g x)) (l : List α) :
    Like (l.forM f) (l.forM g) := by
  induction l with
  | nil => rfl
  | cons x l ih => exact (h x).bind fun _ => ih

theorem Like.mapM {α β : Type} {f g : α → Except Exc β} (h : ∀ x, Like (f x) (g x)) (l : List α) :
    Like (l.mapM f) (l.mapM g) := by
  induction l with
  | nil => rfl
  | cons x l ih =>
    rw [List.mapM_cons, List.mapM_cons]
    exact (h x).bind fun _ => ih.bind fun _ => .refl _

theorem Like.ok {a b : Except Exc Unit} (h : Like a b) (hb : b = .ok ()) : a = .ok () := by
  subst hb
  cases a with
  | error e => cases h
  | ok _ => rfl

theorem Like.forIn {α β : Type} {f g : α → β → Except Exc (ForInStep β)} (h : ∀ x r, Like (f x r) (g x r)) (l : List α)
    (r : β) : Like (forIn l r f) (forIn l r g) := by
  induction l generalizing r with
  | nil => rfl
  | cons x l ih =>
    rw [List.forIn_cons, List.forIn_cons]
    refine (h x r).bind fun step => ?_
    cases step with
    | done r => rfl
    | yield r => exact ih r

variable {location location' : String} {py : Host F}

theorem like_refuse (ok : Bool) (message message' : String) : Like (refuse ok message) (refuse ok message') :=
  (Like.refl _).ite (Like.errors ..)

theorem like_checkRequired (required properties : Value F) (path path' : String) :
    Like (checkRequired location required properties path) (checkRequired location' required properties path') := by
  unfold checkRequired
  refine (Like.refl _).ite ((like_refuse ..).bind fun _ => (Like.mapM (fun name => ?_) _).bind fun names => ?_)
  · split
    · exact .refl _
    · exact .errors ..
  · exact (like_refuse ..).ite (.refl _)

theorem like_checkTypeKeyword (v : Value F) (path path' : String) :
    Like (checkTypeKeyword location py v path) (checkTypeKeyword location' py v path') := by
  unfold checkTypeKeyword
  have hcandidate : ∀ candidate : Value F, ∀ message message' : String → Exc,
      Like (if supportedTypes.any fun name => isWord name candidate then .ok () else do
          let shown ← py.reprOf candidate
          .error (message shown))
        (if supportedTypes.any fun name => isWord name candidate then .ok () else do
          let shown ← py.reprOf candidate
          .error (message' shown)) :=
    fun candidate message message' => (Like.refl _).ite ((Like.refl _).bind fun _ => .errors ..)
  dsimp only
  split
  · exact (Like.refl _).bind fun _ => .forM (fun _ => hcandidate ..) _
  · exact (Like.refl _).bind fun _ => .forM (fun _ => hcandidate ..) _
  · exact (Like.refl _).bind fun _ => .forM (fun _ => hcandidate ..) _
  · exact (Like.refl _).bind fun _ => .forM (fun _ => hcandidate ..) _
  · exact Like.bind (.errors ..) fun _ => .forM (fun _ => hcandidate ..) _

theorem like_checkNode (calls : ℕ) (schema : Value F) (path path' : String) :
    Like (checkNode location py calls schema path) (checkNode location' py calls schema path') := by
  induction calls generalizing schema path path' with
  | zero => rfl
  | succ calls ih =>
    have hrest : Like
        (do checkRequired location (getKeyword "required" schema) (getKeyword "properties" schema) path
            if !isNull (getKeyword "items" schema) then
              checkNode location py calls (getKeyword "items" schema) (path ++ "[]"))
        (do checkRequired location' (getKeyword "required" schema) (getKeyword "properties" schema) path'
            if !isNull (getKeyword "items" schema) then
              checkNode location' py calls (getKeyword "items" schema) (path' ++ "[]")) :=
      (like_checkRequired ..).bind fun _ => (ih ..).ite (.refl _)
    unfold checkNode
    refine (like_refuse ..).bind fun _ => ((Like.refl _).bind fun _ => like_refuse ..).bind fun _ =>
      (like_checkTypeKeyword ..).bind fun _ => (like_refuse ..).bind fun _ => (like_refuse ..).bind fun _ =>
      (Like.forIn (fun _ _ => (like_refuse ..).bind fun _ => .refl _) _ _).bind fun _ =>
      (Like.forIn (fun _ _ => (like_refuse ..).bind fun _ => .refl _) _ _).bind fun _ => ?_
    refine Like.ite ((like_refuse ..).bind fun _ => (Like.forIn (fun m _ => ?_) _ _).bind fun _ => hrest) hrest
    split
    · exact (ih ..).bind fun _ => .refl _
    · exact (like_refuse ..).bind fun _ => .refl _

/-- Whether a schema is usable does not depend on where it stands. -/
theorem checkSchema_location {schema : Value F} (h : checkSchema location py schema = .ok ()) (location' : String) :
    checkSchema location' py schema = .ok () :=
  (like_checkNode ..).ok h

end Location

end Xyberos.Ai
