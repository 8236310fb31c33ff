import Xyberos.Ai.Schema
import Xyberos.Json.Loads

/-!
# Xyberos.Ai.Validity — what a schema says, and what validation finds

`Satisfies` is the meaning of the keywords.  `demands` lists what a schema demands of a value, in the order of the walk:
each demand holds or not, and is misjudged by the code or not.  Validation raises for the first demand that is found
violated (`validateNode_eq`), and a value satisfies the schema when every demand holds (`satisfies_iff_holds`).  Only two
kinds of demands are misjudged: a bound where one of the two numbers is a NaN, and an `enum` with a candidate that is equal
to the value for Python only, or as JSON only.
-/

set_option autoImplicit false

namespace Xyberos.Ai

open Json

variable {F : Type}

/-! ## What a schema says -/

/-- The types of a value; an integer is a number written without fraction and exponent. -/
def typesOf : Value F → List String
  | .scalar .none => ["null"]
  | .scalar (.bool _) => ["boolean"]
  | .scalar (.int _) => ["integer", "number"]
  | .scalar (.float _) => ["number"]
  | .scalar (.str _) => ["string"]
  | .dict _ => ["object"]
  | .list _ => ["array"]
  | .tuple _ => ["array"]

/-- A type keyword names a type: it is the name, or an array with it. -/
def NamesType (declared : Value F) (name : String) : Prop :=
  isWord name declared = true ∨ ∃ item ∈ sequence declared, isWord name item = true

def HasType (value declared : Value F) : Prop :=
  isNull declared = true ∨ ∃ name ∈ typesOf value, NamesType declared name

/-- Two numbers in this order; a NaN is in none. -/
def Ordered (floats : Floats F) (x y : Scalar F) : Prop :=
  ∃ a b, x.number floats = some a ∧ y.number floats = some b ∧ a ≤ b

def IsAtLeast (floats : Floats F) (value minimum : Value F) : Prop :=
  ∀ x y, number? value = some x → numeric? minimum = some y → Ordered floats y x

def IsAtMost (floats : Floats F) (value maximum : Value F) : Prop :=
  ∀ x y, number? value = some x → numeric? maximum = some y → Ordered floats x y

def IsOneOf (floats : Floats F) (value : Value F) (allowed : List (Value F)) : Prop :=
  allowed = [] ∨ ∃ candidate ∈ allowed, value.JsonEqual floats candidate

/-- The size of a value of a kind is within two limits. -/
def SizeWithin (kind : Bool) (value least most : Value F) : Prop :=
  kind = true → (∀ limit, int? least = some limit → limit ≤ length value) ∧
    ∀ limit, int? most = some limit → (length value : ℤ) ≤ limit

/-- The value is as the schema says. -/
@[mk_iff]
inductive Satisfies (floats : Floats F) : Value F → Value F → Prop
  | intro {value schema : Value F} (type : HasType value (getKeyword "type" schema))
    (enum : IsOneOf floats value (sequence (getKeyword "enum" schema)))
    (minimum : IsAtLeast floats value (getKeyword "minimum" schema))
    (maximum : IsAtMost floats value (getKeyword "maximum" schema))
    (characters : SizeWithin (isString value) value (getKeyword "minLength" schema) (getKeyword "maxLength" schema))
    (items : SizeWithin (isSequence value) value (getKeyword "minItems" schema) (getKeyword "maxItems" schema))
    (required : isMapping value = true → ∀ name ∈ sequence (getKeyword "required" schema),
      hasName floats name value = true)
    (properties : isMapping value = true → ∀ m ∈ entries (getKeyword "properties" schema), isMapping m.2 = true →
      ∀ v, valueAt floats m.1 value = some v → Satisfies floats v m.2)
    (closed : isMapping value = true → isClosed schema = true → ∀ m ∈ entries value,
      (valueAt floats m.1 (getKeyword "properties" schema)).isSome)
    (each : isMapping (getKeyword "items" schema) = true → ∀ v ∈ sequence value,
      Satisfies floats v (getKeyword "items" schema)) :
    Satisfies floats value schema

/-! ## Demands -/

/-- A bound is applied, and one of the two numbers is in no order. -/
def Unordered (floats : Floats F) (value bound : Value F) : Prop :=
  ∃ x y, number? value = some x ∧ numeric? bound = some y ∧ (x.number floats = none ∨ y.number floats = none)

/-- Python's equality, of two booleans or of none, finds a candidate where there is none, or finds none. -/
def Confused (floats : Floats F) (value : Value F) (allowed : List (Value F)) : Prop :=
  ¬ (IsOneOf floats value allowed ↔ allowed = [] ∨ ∃ candidate ∈ allowed, sameJsonValue floats value candidate = true)

/-- What a schema demands of a value: whether it holds, whether the code's test of it differs, and the message. -/
structure Demand where
  holds : Prop
  misjudged : Prop
  message : Except Exc String

namespace Demand

/-- A demand that the code tests as it is meant. -/
def plain (wrong : Bool) (message : Except Exc String) : Demand := ⟨wrong = false, False, message⟩

/-- The code finds the demand violated: it is, or it is misjudged. -/
def Found (d : Demand) : Prop := d.holds ↔ d.misjudged

open Classical in
noncomputable def judge (d : Demand) : Except Exc Unit := if d.Found then fail d.message else .ok ()

theorem failIf_eq {wrong : Bool} {holds misjudged : Prop} (h : wrong = true ↔ (holds ↔ misjudged))
    (message : Except Exc String) : failIf wrong message = judge ⟨holds, misjudged, message⟩ := by
  unfold failIf judge Found
  by_cases hw : wrong = true
  · rw [if_pos hw, if_pos (h.mp hw)]
  · rw [if_neg hw, if_neg fun hf => hw (h.mpr hf)]

theorem failIf_plain (wrong : Bool) (message : Except Exc String) : failIf wrong message = (plain wrong message).judge :=
  failIf_eq (by cases wrong <;> simp) message

end Demand

section Demands

variable (location : String) (py : Host F)

def sizeDemand (size : ℕ) (schema : Value F) (keyword phrase unit : String) (path : String) : List Demand :=
  match int? (getKeyword keyword schema) with
  | none => []
  | some limit =>
    [.plain (phrase == "at least" && (size : ℤ) < limit || phrase == "at most" && limit < size)
      (sizeMessage location py phrase unit size limit path)]

def sizeDemands (kind : Bool) (value schema : Value F) (least most unit path : String) : List Demand :=
  if kind then
    sizeDemand location py (length value) schema least "at least" unit path ++
      sizeDemand location py (length value) schema most "at most" unit path
  else []

/-- The demands of the keywords that look at the value alone. -/
def ownDemands (value schema : Value F) (path : String) : List Demand :=
  let allowed := sequence (getKeyword "enum" schema)
  let minimum := getKeyword "minimum" schema
  let maximum := getKeyword "maximum" schema
  .plain (!matchesDeclaredTypes value (getKeyword "type" schema)) (typeMessage location py value schema path) ::
    ⟨IsOneOf py.toFloats value allowed, Confused py.toFloats value allowed, enumMessage location py value schema path⟩ ::
    ⟨IsAtLeast py.toFloats value minimum, Unordered py.toFloats value minimum,
      boundMessage location py "at least" value minimum path⟩ ::
    ⟨IsAtMost py.toFloats value maximum, Unordered py.toFloats value maximum,
      boundMessage location py "at most" value maximum path⟩ ::
    (sizeDemands location py (isString value) value schema "minLength" "maxLength" "character" path ++
      sizeDemands location py (isSequence value) value schema "minItems" "maxItems" "item" path)

/-- The demands on an object, with those of a child. -/
def objectDemands (node : Value F → Value F → String → List Demand) (value schema : Value F) (path : String) :
    List Demand :=
  (sequence (getKeyword "required" schema)).map (fun name =>
    .plain (!hasName py.toFloats name value) (missingMessage location py name path)) ++
  ((entries (getKeyword "properties" schema)).flatMap (fun m =>
    match valueAt py.toFloats m.1 value with
    | some v => if isMapping m.2 then node v m.2 (propertyPath py path m.1) else []
    | none => []) ++
  [.plain (isClosed schema && !(unexpected py value schema).isEmpty)
    (.ok (unexpectedMessage location py value schema path))])

/-- The demands of a schema and of the schemas in it, in the order of the walk. -/
def demands : ℕ → Value F → Value F → String → List Demand
  | 0, _, _, _ => []
  | calls + 1, value, schema, path =>
    ownDemands location py value schema path ++
      if isMapping value then objectDemands location py (demands calls) value schema path
      else if isSequence value && isMapping (getKeyword "items" schema) then
        (sequence value).zipIdx.flatMap fun x => demands calls x.1 (getKeyword "items" schema) s!"{path}[{x.2}]"
      else []

end Demands

/-! ### Validation judges the demands -/

section Judging

variable {location : String} {py : Host F} {value schema : Value F} {path : String}

theorem judge_append (ds es : List Demand) :
    (ds ++ es).forM Demand.judge = (do ds.forM Demand.judge; es.forM Demand.judge) := by
  simp [List.forM_append]

theorem forM_flatMap {α : Type} (l : List α) (f : α → List Demand) :
    (l.flatMap f).forM Demand.judge = l.forM fun a => (f a).forM Demand.judge := by
  induction l with
  | nil => rfl
  | cons a l ih =>
    rw [List.flatMap_cons, judge_append, ih]
    rfl

theorem checkSize_eq (size : ℕ) (keyword phrase unit : String) :
    checkSize location py size schema keyword phrase unit path =
      (sizeDemand location py size schema keyword phrase unit path).forM Demand.judge := by
  unfold checkSize sizeDemand
  cases int? (getKeyword keyword schema) with
  | none => rfl
  | some limit => exact (Demand.failIf_plain ..).trans (bind_pure _).symm

theorem checkSizes_eq (kind : Bool) (least most unit : String) :
    checkSizes location py kind value schema least most unit path =
      (sizeDemands location py kind value schema least most unit path).forM Demand.judge := by
  unfold checkSizes sizeDemands
  cases kind with
  | false => rfl
  | true =>
    rw [if_pos rfl, if_pos rfl, judge_append, checkSize_eq, checkSize_eq]

/-- Of two numbers, less is the opposite of ordered, but where they have no order. -/
theorem less_iff {x y : Scalar F} (h : ∀ s, x ≠ .str s) : x.less py.toFloats y = true ↔
    (Ordered py.toFloats y x ↔ x.number py.toFloats = none ∨ y.number py.toFloats = none) := by
  have hless : x.less py.toFloats y = true ↔
      ∃ a b, x.number py.toFloats = some a ∧ y.number py.toFloats = some b ∧ a < b := by
    unfold Scalar.less
    split
    · rename_i s t
      exact absurd rfl (h s)
    · split
      · rename_i a b ha hb
        simp [ha, hb]
      · rename_i hno
        simp only [Bool.false_eq_true, false_iff]
        rintro ⟨a, b, ha, hb, -⟩
        exact hno a b ha hb
  rw [hless]
  unfold Ordered
  cases hx : x.number py.toFloats with
  | none => simp
  | some a =>
    cases hy : y.number py.toFloats with
    | none => simp
    | some b => simp

theorem not_str_of_numeric {x : Scalar F} (h : numeric? value = some x) : ∀ s, x ≠ .str s := by
  unfold numeric? at h
  split at h <;> cases h <;> simp

theorem numeric_of_number {x : Scalar F} (h : number? value = some x) : numeric? value = some x := by
  unfold number? at h
  split_ifs at h
  exact h

theorem under_iff {minimum : Value F} : under py value minimum = true ↔
    (IsAtLeast py.toFloats value minimum ↔ Unordered py.toFloats value minimum) := by
  unfold under IsAtLeast Unordered
  cases hx : number? value with
  | none => simp
  | some x =>
    cases hy : numeric? minimum with
    | none => simp
    | some y =>
      rw [less_iff (not_str_of_numeric (numeric_of_number hx))]
      simp

theorem above_iff {maximum : Value F} : above py value maximum = true ↔
    (IsAtMost py.toFloats value maximum ↔ Unordered py.toFloats value maximum) := by
  unfold above IsAtMost Unordered
  cases hx : number? value with
  | none => simp
  | some x =>
    cases hy : numeric? maximum with
    | none => simp
    | some y =>
      rw [less_iff (not_str_of_numeric hy)]
      simp [or_comm]

theorem enum_iff {allowed : List (Value F)} :
    (!allowed.isEmpty && !allowed.any fun candidate => sameJsonValue py.toFloats value candidate) = true ↔
      (IsOneOf py.toFloats value allowed ↔ Confused py.toFloats value allowed) := by
  have hwrong : (!allowed.isEmpty && !allowed.any fun candidate => sameJsonValue py.toFloats value candidate) = true ↔
      ¬ (allowed = [] ∨ ∃ candidate ∈ allowed, sameJsonValue py.toFloats value candidate = true) := by
    simp
  rw [hwrong]
  unfold Confused
  by_cases hone : IsOneOf py.toFloats value allowed
  · simp only [hone, true_iff]
  · simp only [hone, false_iff, not_not]

/-- The keywords that look at the value alone. -/
theorem own_eq : (do
    failIf (!matchesDeclaredTypes value (getKeyword "type" schema)) (typeMessage location py value schema path)
    validateEnum location py value schema path
    validateBounds location py value schema path) = (ownDemands location py value schema path).forM Demand.judge := by
  unfold validateBounds
  rw [checkSizes_eq, checkSizes_eq, ← judge_append]
  unfold validateEnum
  rw [Demand.failIf_plain, Demand.failIf_eq enum_iff]
  dsimp only
  rw [Demand.failIf_eq under_iff, Demand.failIf_eq above_iff]
  rfl

theorem validateObject_eq {node : Value F → Value F → String → Except Exc Unit}
    {ds : Value F → Value F → String → List Demand}
    (h : ∀ value schema path, node value schema path = (ds value schema path).forM Demand.judge) :
    validateObject location py node value schema path =
      (objectDemands location py ds value schema path).forM Demand.judge := by
  unfold validateObject objectDemands
  rw [judge_append, judge_append, forM_flatMap]
  congr 1
  · induction sequence (getKeyword "required" schema) with
    | nil => rfl
    | cons name names ih =>
      show (do failIf _ _; List.forM names _) = (do Demand.judge (.plain _ _); List.forM (names.map _) _)
      rw [ih, ← Demand.failIf_plain]
  · funext _
    congr 1
    · congr 1
      funext m
      cases valueAt py.toFloats m.1 value with
      | none => rfl
      | some v =>
        by_cases hm : isMapping m.2 = true
        · simp only [hm, if_true]
          exact h ..
        · simp only [hm]
          rfl
    · funext _
      exact (Demand.failIf_plain ..).trans (bind_pure _).symm

/-- **Validation** judges the demands one after another. -/
theorem validateNode_eq (calls : ℕ) (value schema : Value F) (path : String) :
    validateNode location py calls value schema path = (demands location py calls value schema path).forM Demand.judge := by
  induction calls generalizing value schema path with
  | zero => rfl
  | succ calls ih =>
    rw [demands, judge_append, ← own_eq]
    have hrest : (if isMapping value then validateObject location py (validateNode location py calls) value schema path
        else if isSequence value && isMapping (getKeyword "items" schema) then
          (sequence value).zipIdx.forM fun x =>
            validateNode location py calls x.1 (getKeyword "items" schema) s!"{path}[{x.2}]"
        else .ok ()) =
        (if isMapping value then objectDemands location py (demands location py calls) value schema path
        else if isSequence value && isMapping (getKeyword "items" schema) then
          (sequence value).zipIdx.flatMap fun x =>
            demands location py calls x.1 (getKeyword "items" schema) s!"{path}[{x.2}]"
        else []).forM Demand.judge := by
      by_cases hm : isMapping value = true
      · rw [if_pos hm, if_pos hm]
        exact validateObject_eq ih
      · rw [if_neg hm, if_neg hm]
        by_cases hi : (isSequence value && isMapping (getKeyword "items" schema)) = true
        · rw [if_pos hi, if_pos hi, forM_flatMap]
          congr 1
          funext x
          exact ih ..
        · rw [if_neg hi, if_neg hi]
          rfl
    rw [← hrest, validateNode]
    simp only [bind_assoc]

end Judging

/-! ### What holds -/

section Holding

variable {location : String} {py : Host F} {value schema : Value F} {path : String}

theorem mem_of_member {key : String} {v : Value F} (h : member key schema = some v) : ∃ m ∈ entries schema, m.2 = v := by
  unfold member at h
  split at h
  · rename_i items
    obtain ⟨m, hm, rfl⟩ := Option.map_eq_some_iff.mp h
    exact ⟨m, List.mem_of_find?_eq_some hm, rfl⟩
  · cases h

theorem depth_of_mem {m : Scalar F × Value F} (h : m ∈ entries schema) : m.2.depth < schema.depth := by
  unfold entries at h
  split at h
  · rename_i items
    obtain ⟨d, hd, hle⟩ := Value.depth_dict_le.mp (Nat.le_refl (Value.dict items).depth)
    have := hle m h
    omega
  · cases h

/-- The value of a keyword is nested less deep. -/
theorem depth_getKeyword (key : String) (h : isMapping (getKeyword key schema) = true) :
    (getKeyword key schema).depth < schema.depth := by
  unfold getKeyword at h ⊢
  cases hm : member key schema with
  | none =>
    rw [hm] at h
    cases h
  | some v =>
    obtain ⟨m, hmem, rfl⟩ := mem_of_member hm
    exact depth_of_mem hmem

theorem isMapping_of_mem {m : Scalar F × Value F} (h : m ∈ entries schema) : isMapping schema = true := by
  unfold entries at h
  split at h
  · rfl
  · cases h

theorem holds_sizeDemand (size : ℕ) (keyword phrase unit : String) :
    (∀ d ∈ sizeDemand location py size schema keyword phrase unit path, d.holds) ↔
      ∀ limit, int? (getKeyword keyword schema) = some limit →
        (phrase == "at least" && (size : ℤ) < limit || phrase == "at most" && limit < size) = false := by
  unfold sizeDemand
  cases int? (getKeyword keyword schema) with
  | none => simp
  | some limit => simp [Demand.plain]

theorem holds_sizeDemands (kind : Bool) (least most unit : String) :
    (∀ d ∈ sizeDemands location py kind value schema least most unit path, d.holds) ↔
      SizeWithin kind value (getKeyword least schema) (getKeyword most schema) := by
  unfold sizeDemands SizeWithin
  cases kind with
  | false => simp
  | true =>
    rw [if_pos rfl, List.forall_mem_append, holds_sizeDemand, holds_sizeDemand]
    simp

theorem codeOf_inj {c d : Char} (h : codeOf c = codeOf d) : c = d := by
  have hval := congrArg Fin.val h
  rw [codeOf_val, codeOf_val] at hval
  exact Char.toNat_inj.mp hval

theorem isWord_iff {word : String} {v : Value F} : isWord word v = true ↔ v = .scalar (.str (Str.ofString word)) := by
  unfold isWord
  split
  · rename_i t
    cases t <;> simp [isText, isStr]
  · rename_i hno
    simpa using hno _

/-- A word is one of the names only. -/
theorem isWord_word (word word' : String) :
    isWord word (.scalar (.str (Str.ofString word')) : Value F) = decide (word = word') := by
  rw [Bool.eq_iff_iff, isWord_iff, decide_eq_true_iff]
  constructor
  · intro h
    have hcodes : word'.toList.map codeOf = word.toList.map codeOf := by simpa [Str.ofString] using h
    exact (String.toList_inj.mp (List.map_injective_iff.mpr (fun _ _ => codeOf_inj) hcodes)).symm
  · rintro rfl
    rfl

theorem matchesType_word (word : String) (h : word ∈ supportedTypes) :
    matchesType value (.scalar (.str (Str.ofString word))) = true ↔ word ∈ typesOf value := by
  unfold matchesType
  simp only [isWord_word]
  simp only [supportedTypes, List.mem_cons, List.not_mem_nil, or_false] at h
  rcases value with (_ | _ | _ | _ | _) | _ | _ | _ <;> rcases h with rfl | rfl | rfl | rfl | rfl | rfl | rfl <;>
    simp [typesOf, isNull, isBoolean, isMapping, isSequence, int?, numeric?, describe, Scalar.isBool]

theorem supported_of_mem {word : String} (h : word ∈ typesOf value) : word ∈ supportedTypes := by
  revert h
  unfold typesOf
  split <;> simp only [List.mem_cons, List.not_mem_nil, or_false] <;> rintro (rfl | rfl) <;> decide

theorem supported_of_matchesType {name : Value F} (h : matchesType value name = true) :
    ∃ word ∈ supportedTypes, isWord word name = true := by
  by_contra hno
  have hwords : ∀ word ∈ supportedTypes, isWord word name = false :=
    fun word hword => Bool.eq_false_iff.mpr fun hw => hno ⟨word, hword, hw⟩
  simp only [supportedTypes, List.forall_mem_cons] at hwords
  simp [matchesType, hwords] at h

theorem matchesType_iff {name : Value F} :
    matchesType value name = true ↔ ∃ word ∈ typesOf value, isWord word name = true := by
  constructor
  · intro h
    obtain ⟨word, hword, hname⟩ := supported_of_matchesType h
    rw [isWord_iff.mp hname, matchesType_word word hword] at h
    exact ⟨word, h, hname⟩
  · rintro ⟨word, hword, hname⟩
    rw [isWord_iff.mp hname, matchesType_word word (supported_of_mem hword)]
    exact hword

theorem hasType_iff {declared : Value F} : matchesDeclaredTypes value declared = true ↔ HasType value declared := by
  unfold matchesDeclaredTypes HasType NamesType
  by_cases hnull : isNull declared = true
  · simp [hnull]
  rw [if_neg hnull]
  by_cases hstr : isString declared = true
  · rw [if_pos hstr, matchesType_iff]
    have hseq : sequence declared = [] := by
      unfold isString at hstr
      split at hstr
      · rfl
      · cases hstr
    simp [hnull, hseq]
  · rw [if_neg hstr, List.any_eq_true]
    have hword : ∀ name, isWord name declared = true → False := fun name h =>
      hstr (by rw [isWord_iff.mp h]; rfl)
    simp only [hnull, Bool.false_eq_true, false_or, matchesType_iff]
    constructor
    · rintro ⟨item, hitem, word, hmem, hname⟩
      exact ⟨word, hmem, .inr ⟨item, hitem, hname⟩⟩
    · rintro ⟨word, hmem, hname | ⟨item, hitem, hname⟩⟩
      · exact (hword word hname).elim
      · exact ⟨item, hitem, word, hmem, hname⟩

/-- What the keywords that look at the value alone demand. -/
theorem holds_own : (∀ d ∈ ownDemands location py value schema path, d.holds) ↔
    HasType value (getKeyword "type" schema) ∧ IsOneOf py.toFloats value (sequence (getKeyword "enum" schema)) ∧
      IsAtLeast py.toFloats value (getKeyword "minimum" schema) ∧
      IsAtMost py.toFloats value (getKeyword "maximum" schema) ∧
      SizeWithin (isString value) value (getKeyword "minLength" schema) (getKeyword "maxLength" schema) ∧
      SizeWithin (isSequence value) value (getKeyword "minItems" schema) (getKeyword "maxItems" schema) := by
  unfold ownDemands
  rw [List.forall_mem_cons, List.forall_mem_cons, List.forall_mem_cons, List.forall_mem_cons, List.forall_mem_append,
    holds_sizeDemands, holds_sizeDemands, ← hasType_iff]
  simp [Demand.plain]

theorem unexpected_eq_nil : (unexpected py value schema).isEmpty = true ↔
    ∀ m ∈ entries value, (valueAt py.toFloats m.1 (getKeyword "properties" schema)).isSome = true := by
  unfold unexpected
  rw [List.isEmpty_iff_length_eq_zero, (List.perm_insertionSort _ _).length_eq, List.length_map,
    List.length_eq_zero_iff, List.filter_eq_nil_iff]
  simp [Option.isSome_iff_ne_none]

theorem holds_object {node : Value F → Value F → String → List Demand} :
    (∀ d ∈ objectDemands location py node value schema path, d.holds) ↔
      (∀ name ∈ sequence (getKeyword "required" schema), hasName py.toFloats name value = true) ∧
      (∀ m ∈ entries (getKeyword "properties" schema), isMapping m.2 = true → ∀ v, valueAt py.toFloats m.1 value = some v →
        ∀ d ∈ node v m.2 (propertyPath py path m.1), d.holds) ∧
      (isClosed schema = true → ∀ m ∈ entries value,
        (valueAt py.toFloats m.1 (getKeyword "properties" schema)).isSome = true) := by
  unfold objectDemands
  rw [List.forall_mem_append, List.forall_mem_append, List.forall_mem_map, List.forall_mem_flatMap,
    List.forall_mem_singleton, ← unexpected_eq_nil]
  refine and_congr ?_ (and_congr ?_ ?_)
  · simp [Demand.plain]
  · refine forall₂_congr fun m hm => ?_
    cases hv : valueAt py.toFloats m.1 value with
    | none => simp
    | some v =>
      by_cases hmap : isMapping m.2 = true
      · simp [hmap]
      · simp [hmap]
  · show (isClosed schema && !(unexpected py value schema).isEmpty) = false ↔ _
    cases isClosed schema <;> simp

/-- **A value satisfies a schema** when every demand holds. -/
theorem satisfies_iff_holds {calls : ℕ} (h : schema.depth < calls) :
    Satisfies py.toFloats value schema ↔ ∀ d ∈ demands location py calls value schema path, d.holds := by
  induction calls generalizing value schema path with
  | zero => omega
  | succ calls ih =>
    have hitems : isMapping (getKeyword "items" schema) = true →
        (getKeyword "items" schema).depth < calls := fun hmap => by
      have := depth_getKeyword "items" hmap
      omega
    have hproperties : ∀ m ∈ entries (getKeyword "properties" schema), m.2.depth < calls := fun m hm => by
      have := depth_of_mem hm
      have := depth_getKeyword "properties" (isMapping_of_mem hm)
      omega
    rw [satisfies_iff, demands, List.forall_mem_append, holds_own]
    by_cases hmap : isMapping value = true
    · -- an object has properties and no items
      have hseq : sequence value = [] := by
        unfold isMapping at hmap
        split at hmap
        · rfl
        · cases hmap
      rw [if_pos hmap, holds_object]
      have hchild : ∀ m ∈ entries (getKeyword "properties" schema), ∀ v,
          (Satisfies py.toFloats v m.2 ↔
            ∀ d ∈ demands location py calls v m.2 (propertyPath py path m.1), d.holds) :=
        fun m hm v => ih (hproperties m hm)
      constructor
      · rintro ⟨ht, he, hmin, hmax, hc, hi, hr, hp, hcl, -⟩
        exact ⟨⟨ht, he, hmin, hmax, hc, hi⟩, hr hmap,
          fun m hm hmm v hv => (hchild m hm v).mp (hp hmap m hm hmm v hv), hcl hmap⟩
      · rintro ⟨⟨ht, he, hmin, hmax, hc, hi⟩, hr, hp, hcl⟩
        exact ⟨ht, he, hmin, hmax, hc, hi, fun _ => hr,
          fun _ m hm hmm v hv => (hchild m hm v).mpr (hp m hm hmm v hv), fun _ => hcl, fun _ v hv => by
            rw [hseq] at hv
            cases hv⟩
    · rw [if_neg hmap]
      by_cases hseq : (isSequence value && isMapping (getKeyword "items" schema)) = true
      · -- an array, with a schema for its items
        obtain ⟨-, himap⟩ := Bool.and_eq_true_iff.mp hseq
        rw [if_pos hseq, List.forall_mem_flatMap]
        constructor
        · rintro ⟨ht, he, hmin, hmax, hc, hi, -, -, -, heach⟩
          refine ⟨⟨ht, he, hmin, hmax, hc, hi⟩, fun x hx => ?_⟩
          exact (ih (hitems himap)).mp (heach himap x.1 (List.fst_mem_of_mem_zipIdx hx))
        · rintro ⟨⟨ht, he, hmin, hmax, hc, hi⟩, heach⟩
          refine ⟨ht, he, hmin, hmax, hc, hi, fun h => (hmap h).elim, fun h => (hmap h).elim, fun h => (hmap h).elim,
            fun _ v hv => ?_⟩
          obtain ⟨k, hk, rfl⟩ := List.mem_iff_getElem.mp hv
          exact (ih (hitems himap)).mpr (heach ((sequence value)[k], k) (by simp [List.mem_zipIdx_iff_getElem?, hk]))
      · -- neither: what the schema says of members and items holds of none
        rw [if_neg hseq]
        constructor
        · rintro ⟨ht, he, hmin, hmax, hc, hi, -⟩
          exact ⟨⟨ht, he, hmin, hmax, hc, hi⟩, by simp⟩
        · rintro ⟨⟨ht, he, hmin, hmax, hc, hi⟩, -⟩
          refine ⟨ht, he, hmin, hmax, hc, hi, fun h => (hmap h).elim, fun h => (hmap h).elim, fun h => (hmap h).elim,
            fun himap v hv => ?_⟩
          have hnoseq : sequence value = [] := by
            have : isSequence value = false := by simpa [himap] using hseq
            unfold isSequence at this
            unfold sequence
            split at this <;> simp_all
          rw [hnoseq] at hv
          cases hv

end Holding

/-! ### Messages -/

section Messages

variable {location : String} {py : Host F} {value schema : Value F} {path : String}

/-- A message is not written only because of an `int` in it. -/
def Written (py : Host F) {α : Type} (message : Except Exc α) : Prop := ∀ e, message = .error e → e = py.digitsError

theorem written_ok {α : Type} (a : α) : Written py (.ok a) := nofun

theorem Written.bind {α β : Type} {message : Except Exc α} {f : α → Except Exc β} (h : Written py message)
    (hf : ∀ a, Written py (f a)) : Written py (message >>= f) := by
  intro e he
  cases message with
  | error raised =>
    have hraised : (Except.error raised : Except Exc β) = .error e := he
    rw [← Except.error.inj hraised]
    exact h raised rfl
  | ok a => exact hf a e he

theorem written_reprOf (v : Value F) : Written py (py.reprOf v) := by
  intro e he
  unfold Host.reprOf at he
  split_ifs at he
  cases he
  rfl

theorem written_mapM {α β : Type} {f : α → Except Exc β} (h : ∀ a, Written py (f a)) (l : List α) :
    Written py (l.mapM f) := by
  induction l with
  | nil => exact written_ok []
  | cons a l ih =>
    rw [List.mapM_cons]
    exact (h a).bind fun _ => ih.bind fun _ => written_ok _

theorem written_describedTypes (declared : Value F) : Written py (describedTypes py declared) := by
  unfold describedTypes
  by_cases hnull : isNull declared = true
  · rw [if_pos hnull]
    exact written_ok _
  · rw [if_neg hnull]
    split
    · exact written_ok _
    · refine (written_mapM (fun item => ?_) _).bind fun _ => written_ok _
      split
      · exact written_ok _
      · exact written_reprOf _

theorem written_own : ∀ d ∈ ownDemands location py value schema path, Written py d.message := by
  have hsize : ∀ (size : ℕ) (keyword phrase unit : String),
      ∀ d ∈ sizeDemand location py size schema keyword phrase unit path, Written py d.message := by
    intro size keyword phrase unit d hd
    unfold sizeDemand at hd
    split at hd
    · cases hd
    · rw [List.mem_singleton.mp hd]
      exact (written_reprOf _).bind fun _ => written_ok _
  have hsizes : ∀ (kind : Bool) (least most unit : String),
      ∀ d ∈ sizeDemands location py kind value schema least most unit path, Written py d.message := by
    intro kind least most unit
    unfold sizeDemands
    split_ifs
    · exact List.forall_mem_append.mpr ⟨hsize _ _ _ _, hsize _ _ _ _⟩
    · simp
  have hbound : ∀ (phrase : String) (bound : Value F), Written py (boundMessage location py phrase value bound path) :=
    fun phrase bound => (written_reprOf bound).bind fun _ => (written_reprOf value).bind fun _ => written_ok _
  unfold ownDemands
  simp only [List.forall_mem_cons, List.forall_mem_append]
  exact ⟨(written_describedTypes _).bind fun _ => written_ok _,
    (written_mapM written_reprOf _).bind fun _ => (written_reprOf _).bind fun _ => written_ok _,
    hbound _ _, hbound _ _, hsizes _ _ _ _, hsizes _ _ _ _⟩

theorem written_demands (calls : ℕ) : ∀ d ∈ demands location py calls value schema path, Written py d.message := by
  induction calls generalizing value schema path with
  | zero => exact fun _ h => nomatch h
  | succ calls ih =>
    unfold demands
    refine List.forall_mem_append.mpr ⟨written_own, ?_⟩
    split_ifs
    · unfold objectDemands
      refine List.forall_mem_append.mpr ⟨?_, List.forall_mem_append.mpr ⟨?_, ?_⟩⟩
      · refine List.forall_mem_map.mpr fun name _ => ?_
        exact (written_reprOf _).bind fun _ => written_ok _
      · refine List.forall_mem_flatMap.mpr fun m _ => ?_
        split
        · split_ifs
          · exact ih
          · simp
        · simp
      · rw [List.forall_mem_singleton]
        exact written_ok _
    · exact List.forall_mem_flatMap.mpr fun _ _ => ih
    · simp

end Messages

/-! ### The first demand that is found violated -/

section Judged

variable {py : Host F} {ds : List Demand}

theorem judge_of_not_found {d : Demand} (h : ¬ d.Found) : d.judge = .ok () := if_neg h

theorem judge_of_found {d : Demand} (h : d.Found) : d.judge = fail d.message := if_pos h

theorem forM_judge_cons (d : Demand) (ds : List Demand) :
    (d :: ds).forM Demand.judge = (do d.judge; ds.forM Demand.judge) := rfl

theorem forM_judge_ok (h : ∀ d ∈ ds, ¬ d.Found) : ds.forM Demand.judge = .ok () := by
  induction ds with
  | nil => rfl
  | cons d ds ih =>
    obtain ⟨hd, hds⟩ := List.forall_mem_cons.mp h
    rw [forM_judge_cons, judge_of_not_found hd]
    exact ih hds

theorem forM_judge_found {before after : List Demand} {d : Demand} (h : ∀ b ∈ before, ¬ b.Found) (hd : d.Found) :
    (before ++ d :: after).forM Demand.judge = (do fail d.message; after.forM Demand.judge) := by
  rw [judge_append, forM_judge_ok h, forM_judge_cons, judge_of_found hd]
  rfl

/-- None is found violated, or there is a first one. -/
theorem found_cases (ds : List Demand) : (∀ d ∈ ds, ¬ d.Found) ∨
    ∃ before d after, ds = before ++ d :: after ∧ (∀ b ∈ before, ¬ b.Found) ∧ d.Found := by
  induction ds with
  | nil => exact .inl (by simp)
  | cons d ds ih =>
    by_cases hd : d.Found
    · exact .inr ⟨[], d, ds, rfl, by simp, hd⟩
    · rcases ih with hno | ⟨before, d', after, rfl, hbefore, hfound⟩
      · exact .inl (List.forall_mem_cons.mpr ⟨hd, hno⟩)
      · exact .inr ⟨d :: before, d', after, rfl, List.forall_mem_cons.mpr ⟨hd, hbefore⟩, hfound⟩

theorem digitsError_ne (message : String) : py.digitsError ≠ aiSchemaError message := by
  intro h
  have hname : ("ValueError" : String) = "AISchemaError" := congrArg (fun e : Exc => e.cls.name) h
  exact absurd hname (by decide)

/-- The demands are judged with a schema error just where the first one found violated can be told. -/
theorem forM_judge_iff (h : ∀ d ∈ ds, Written py d.message) :
    (∃ text, ds.forM Demand.judge = .error (aiSchemaError text)) ↔
      ∃ before d after text, ds = before ++ d :: after ∧ (∀ b ∈ before, ¬ b.Found) ∧ d.Found ∧ d.message = .ok text := by
  constructor
  · rintro ⟨text, hraised⟩
    rcases found_cases ds with hno | ⟨before, d, after, rfl, hbefore, hfound⟩
    · rw [forM_judge_ok hno] at hraised
      cases hraised
    · rw [forM_judge_found hbefore hfound] at hraised
      cases hm : d.message with
      | ok shown => exact ⟨before, d, after, shown, rfl, hbefore, hfound, hm⟩
      | error e =>
        rw [hm] at hraised
        cases hraised
        exact (digitsError_ne text (h d (by simp) _ hm).symm).elim
  · rintro ⟨before, d, after, text, rfl, hbefore, hfound, hm⟩
    rw [forM_judge_found hbefore hfound, hm]
    exact ⟨text, rfl⟩

end Judged

/-! ### Validation means what the schema says -/

section Means

variable (location : String) (py : Host F) (value schema : Value F)

/-- The value is returned when it satisfies the schema, and a schema error is raised when it does not. -/
def Means : Prop :=
  (Satisfies py.toFloats value schema → validatePayload location py value schema = .ok value) ∧
  (¬ Satisfies py.toFloats value schema → ∃ text, validatePayload location py value schema = .error (aiSchemaError text))

/-- The demands of the whole schema. -/
def allDemands : List Demand := demands location py (schema.depth + 1) value schema "$"

variable {location py value schema}

theorem validatePayload_eq (h : checkSchema location py schema = .ok ()) : validatePayload location py value schema =
    (do (allDemands location py value schema).forM Demand.judge; return value) := by
  unfold validatePayload allDemands
  rw [h, validateNode_eq]
  rfl

theorem validatePayload_eq_ok {v : Value F} (h : validatePayload location py value schema = .ok v) : v = value := by
  unfold validatePayload at h
  cases hcheck : checkSchema location py schema with
  | error e =>
    rw [hcheck] at h
    cases h
  | ok _ =>
    rw [hcheck] at h
    cases hnode : validateNode location py (schema.depth + 1) value schema "$" with
    | error e =>
      simp only [hnode] at h
      cases h
    | ok _ =>
      simp only [hnode] at h
      exact (Except.ok.inj h).symm

theorem validatePayload_ok_iff (h : checkSchema location py schema = .ok ()) :
    validatePayload location py value schema = .ok value ↔ ∀ d ∈ allDemands location py value schema, ¬ d.Found := by
  rw [validatePayload_eq h]
  constructor
  · intro hok
    rcases found_cases (allDemands location py value schema) with hno | ⟨before, d, after, hds, hbefore, hd⟩
    · exact hno
    · rw [hds, forM_judge_found hbefore hd] at hok
      cases hm : d.message <;> rw [hm] at hok <;> cases hok
  · intro hno
    rw [forM_judge_ok hno]
    rfl

theorem validatePayload_error_iff (value : Value F) (h : checkSchema location py schema = .ok ()) :
    (∃ text, validatePayload location py value schema = .error (aiSchemaError text)) ↔ ∃ before d after text,
      allDemands location py value schema = before ++ d :: after ∧ (∀ b ∈ before, ¬ b.Found) ∧ d.Found ∧
      d.message = .ok text := by
  have hwritten : ∀ d ∈ allDemands location py value schema, Written py d.message := written_demands _
  rw [validatePayload_eq h, ← forM_judge_iff hwritten]
  refine exists_congr fun text => ?_
  cases (allDemands location py value schema).forM Demand.judge with
  | ok _ => exact ⟨nofun, nofun⟩
  | error e =>
    show (Except.error e : Except Exc (Value F)) = .error (aiSchemaError text) ↔
      (Except.error e : Except Exc Unit) = .error (aiSchemaError text)
    simp

theorem satisfies_iff_all (location : String) :
    Satisfies py.toFloats value schema ↔ ∀ d ∈ allDemands location py value schema, d.holds :=
  satisfies_iff_holds (Nat.lt_succ_self _)

/-- Of a value that satisfies the schema, nothing is found violated but what is misjudged. -/
theorem found_iff_misjudged (h : Satisfies py.toFloats value schema) {d : Demand}
    (hd : d ∈ allDemands location py value schema) : d.Found ↔ d.misjudged := by
  have hholds : d.holds := (satisfies_iff_all location).mp h d hd
  simp [Demand.Found, hholds]

/-- A scalar is compared with anything as JSON values are, and so are containers without a boolean, a NaN or a tuple. -/
theorem sameJsonValue_iff {floats : Floats F} {value candidate : Value F}
    (h : (∃ s, value = .scalar s) ∨ (∃ s, candidate = .scalar s) ∨ value.Bare ∧ candidate.Bare) :
    sameJsonValue floats value candidate = true ↔ value.JsonEqual floats candidate := by
  rcases value with s | items | items | items <;> rcases candidate with t | items' | items' | items'
  case scalar.scalar =>
    by_cases hb : s.isBool = t.isBool <;> simp [sameJsonValue, isBoolean, Value.equals, Value.JsonEqual, hb]
  -- a scalar and a container are different either way
  case scalar.list | scalar.tuple | scalar.dict | list.scalar | tuple.scalar | dict.scalar =>
    simp [sameJsonValue, Value.equals, Value.alike, Value.JsonEqual]
  all_goals
    obtain ⟨hvalue, hcandidate⟩ := (h.resolve_left (by simp)).resolve_left (by simp)
    exact Value.alike_iff_jsonEqual hvalue hcandidate

/-- **What is confused**: a container with a container, where one of the two holds a boolean, a NaN or a tuple. -/
theorem not_confused {floats : Floats F} {value : Value F} {allowed : List (Value F)}
    (h : ∀ candidate ∈ allowed, (∃ s, value = .scalar s) ∨ (∃ s, candidate = .scalar s) ∨ value.Bare ∧ candidate.Bare) :
    ¬ Confused floats value allowed := fun hconfused =>
  hconfused (or_congr Iff.rfl (exists_congr fun candidate => and_congr_right fun hmem =>
    (sameJsonValue_iff (h candidate hmem)).symm))

/-- `null` is misjudged nowhere. -/
theorem not_misjudged_null {d : Demand} (hd : d ∈ allDemands location py (.scalar .none) schema) : ¬ d.misjudged := by
  have hnumber : number? (.scalar .none : Value F) = none := rfl
  have henum : ∀ allowed : List (Value F), ¬ Confused py.toFloats (.scalar .none) allowed := fun allowed =>
    not_confused fun candidate _ => .inl ⟨_, rfl⟩
  have hbound : ∀ bound : Value F, ¬ Unordered py.toFloats (.scalar .none) bound := by
    rintro bound ⟨x, y, hx, -⟩
    cases hnumber.symm.trans hx
  unfold allDemands demands ownDemands at hd
  simp only [isMapping, isSequence, isString, sizeDemands, Bool.false_and, Bool.false_eq_true, if_false, List.append_nil,
    List.mem_cons, List.not_mem_nil, or_false] at hd
  rcases hd with rfl | rfl | rfl | rfl
  · exact id
  · exact henum _
  · exact hbound _
  · exact hbound _

/-- `null` is validated only where it satisfies the schema. -/
theorem satisfies_null (h : checkSchema location py schema = .ok ())
    (hok : validatePayload location py (.scalar .none) schema = .ok (.scalar .none)) :
    Satisfies py.toFloats (.scalar .none) schema := by
  refine (satisfies_iff_all location).mpr fun d hd => ?_
  by_contra hholds
  exact (validatePayload_ok_iff h).mp hok d hd (iff_of_false hholds (not_misjudged_null hd))

end Means

/-! ### A host to compute with -/

/-- A host without floats. -/
def wholeNumbers : Host Empty where
  value := nofun
  repr := nofun
  read _ := .nan 0
  repr_wellFormed := nofun
  repr_isFloat := nofun
  read_repr := nofun
  maxStrDigits := 4300
  encodeDepth := 1000
  decodeDepth := 1000
  reprValue _ := ""

/-- `{"type": "integer"}` -/
def integerSchema : Value Empty := objectOf [("type", word "integer")]

theorem not_satisfies_integer : ¬ Satisfies wholeNumbers.toFloats (.scalar (.bool true)) integerSchema := by
  intro hsat
  obtain ⟨htype, -⟩ := (satisfies_iff ..).mp hsat
  exact absurd (hasType_iff.mpr htype) (by decide +kernel)

theorem found_integer (location : String) : ∃ before d after text,
    allDemands location wholeNumbers (.scalar (.bool true)) integerSchema = before ++ d :: after ∧
    (∀ b ∈ before, ¬ b.Found) ∧ d.Found ∧ d.message = .ok text := by
  have hwrong : matchesDeclaredTypes (.scalar (.bool true)) (getKeyword "type" integerSchema) = false := by
    decide +kernel
  refine ⟨[], _, _, _, rfl, by simp, ?_, rfl⟩
  show (!matchesDeclaredTypes (.scalar (.bool true)) (getKeyword "type" integerSchema)) = false ↔ False
  simp [hwrong]

/-- `{"enum": [[true]]}` -/
def enumSchema : Value Empty := objectOf [("enum", .list [.list [.scalar (.bool true)]])]

theorem not_satisfies_enum : ¬ Satisfies wholeNumbers.toFloats (.list [.scalar (.int 1)]) enumSchema := by
  intro hsat
  obtain ⟨_, henum, -⟩ := (satisfies_iff ..).mp hsat
  have hallowed : sequence (getKeyword "enum" enumSchema) = [.list [.scalar (.bool true)]] := rfl
  rw [hallowed] at henum
  rcases henum with hnil | ⟨candidate, hcandidate, heq⟩
  · cases hnil
  · rw [List.mem_singleton.mp hcandidate] at heq
    simp [Value.JsonEqual, Scalar.isBool] at heq

end Xyberos.Ai
