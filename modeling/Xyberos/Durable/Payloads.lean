import Xyberos.Durable.Runs
import Xyberos.Json.Loads
import Mathlib.Data.String.Basic

/-!
# Xyberos.Durable.Payloads — what the journal gives back of a payload

`_dump` and `_load` on Python values.  A payload is kept verbatim when its text is read back as the same value; the
settings of the interpreter and the size limit are arbitrary.
-/

set_option autoImplicit false

namespace Xyberos.Durable

open Json

variable {F : Type}

/-- The JSON of a store whose payloads are Python values.  The store reads the texts that it wrote. -/
def pythonValues (py : Interpreter F) (reprFloat : ℚ → String) : Values (Value F) where
  null := .scalar .none
  dumps v :=
    match py.dumps v with
    | .ok text => .text (String.ofList text)
    | .error e => .raised e
  loads text := (py.loads text.toList).toOption.getD (.scalar .none)
  ofDict items := .dict (items.map fun m => (.str (m.1.toList.map fun c => CodePoint.ofNat c.toNat), m.2))
  reprFloat := reprFloat

/-- A store with the JSON of an interpreter. -/
def JournalStore.python (store : JournalStore (Value F)) (py : Interpreter F) : JournalStore (Value F) :=
  { store with values := pythonValues py store.values.reprFloat }

/-- `_load`, with what it raises. -/
def loadPayload (py : Interpreter F) : Option String → Except Exc (Value F)
  | none => .ok (.scalar .none)
  | some text => py.loads text.toList

/-- A payload is refused with `DurablePayloadError`, or comes back equal in value and type. -/
def Verbatim (py : Interpreter F) (store : JournalStore (Value F)) (what : String) (v : Value F) : Prop :=
  match (store.python py).dump v what with
  | .error e => e.isInstance "DurablePayloadError" = true
  | .ok text => ∃ w, loadPayload py (some text) = .ok w ∧ v.Same w

section Dump

variable {py : Interpreter F} {store : JournalStore (Value F)} {what : String} {v : Value F}

theorem utf8Len_of_ascii {text : List Char} (h : Ascii text) : String.utf8Len text = text.length := by
  induction text with
  | nil => rfl
  | cons c text ih =>
    obtain ⟨hc, htext⟩ := List.forall_mem_cons.mp h
    have hone : c.utf8Size = 1 := Char.utf8Size_eq_one_iff.mpr (UInt32.le_iff_toNat_le.mpr (Nat.le_of_lt_succ hc))
    rw [String.utf8Len_cons, ih htext, hone, List.length_cons]

/-- A value that has no text is refused with another exception. -/
theorem not_verbatim_of_error {e : Exc} (h : py.dumps v = .error e) : ¬ Verbatim py store what v := by
  have hdump : (store.python py).dump v what = .error e := by
    simp only [JournalStore.dump, JournalStore.python, pythonValues, h]
  rw [Verbatim, hdump]
  obtain ⟨message, rfl⟩ | ⟨message, rfl⟩ | rfl := Interpreter.raises_encode h <;>
    simp [Exc.isInstance, valueError, typeError, recursionError]

theorem verbatim_iff_of_text {text : List Char} (h : py.dumps v = .ok text) :
    Verbatim py store what v ↔ store.maxPayloadBytes < py.size v ∨ ∃ w, py.loads text = .ok w ∧ v.Same w := by
  obtain ⟨hlen, hascii⟩ := Interpreter.length_encode h
  have hsize : (String.ofList text).utf8ByteSize = py.size v := by
    rw [String.utf8ByteSize_ofList, utf8Len_of_ascii hascii, hlen]
  have hdump : (store.python py).dump v what =
      if store.maxPayloadBytes < py.size v then .error (durablePayloadError
        s!"{what} is {py.size v} bytes, over the {store.maxPayloadBytes}-byte journal payload limit")
      else .ok (String.ofList text) := by
    simp only [JournalStore.dump, JournalStore.python, pythonValues, h, hsize]
  rw [Verbatim, hdump]
  by_cases hlimit : store.maxPayloadBytes < py.size v
  · rw [if_pos hlimit]
    exact iff_of_true rfl (.inl hlimit)
  · rw [if_neg hlimit, or_iff_right hlimit]
    simp only [loadPayload, String.toList_ofList]

end Dump

/-- **Payloads.**  A value comes back verbatim or is refused with `DurablePayloadError` exactly when it has a text at all
(the keys of each dictionary can be compared, no `int` has too many digits and nothing is nested too deep), and this
text is over the limit or the value is plain and not too deep to be read. -/
theorem verbatim_iff (py : Interpreter F) (store : JournalStore (Value F)) (what : String) (v : Value F)
    (hvalid : py.Valid v) :
    Verbatim py store what v ↔ (py.Writable v ∧ v.depth ≤ py.encodeDepth) ∧
      (store.maxPayloadBytes < py.size v ∨ v.Plain ∧ v.depth ≤ py.decodeDepth) := by
  cases hdumps : py.dumps v with
  | error e =>
    refine iff_of_false (not_verbatim_of_error hdumps) fun h => ?_
    obtain ⟨text, htext⟩ := (Interpreter.encode_ok_iff v py.encodeDepth).mpr h.1
    rw [Interpreter.dumps, htext] at hdumps
    cases hdumps
  | ok text =>
    rw [verbatim_iff_of_text hdumps, and_iff_right ((Interpreter.encode_ok_iff v py.encodeDepth).mp ⟨text, hdumps⟩)]
    refine or_congr_right ⟨?_, ?_⟩
    · rintro ⟨w, hw, hsame⟩
      have hloaded := Interpreter.loaded_of_loads hw
      obtain ⟨hv, hd⟩ := hsame.plain hloaded.plain
      exact ⟨hv, hd _ hloaded.depth_le⟩
    · rintro ⟨hplain, hdepth⟩
      exact Interpreter.loads_dumps hplain hvalid hdumps hdepth

/-! ## A store to compute with -/

/-- Two floats, `0.5` and `-1.5`. -/
def halves : Floats Bool where
  value x := if x then -3 / 2 else 1 / 2
  repr x := if x then ⟨['-', '1'], ['.', '5'], []⟩ else ⟨['0'], ['.', '5'], []⟩
  read n := if n = ⟨['0'], ['.', '5'], []⟩ then .finite false else if n.int = ['-', '1'] then .finite true else .nan 0
  repr_wellFormed x := by
    cases x
    · exact ⟨⟨[], ['0'], rfl, .inl rfl, .inl rfl⟩, .inr ⟨['5'], rfl, digits_singleton rfl⟩, .inl rfl⟩
    · exact ⟨⟨['-'], ['1'], rfl, .inr rfl, .inr ⟨digits_singleton rfl, by simp⟩⟩,
        .inr ⟨['5'], rfl, digits_singleton rfl⟩, .inl rfl⟩
  repr_isFloat x := by cases x <;> rfl
  read_repr x := by cases x <;> decide

def halvesPython : Interpreter Bool where
  toFloats := halves
  maxStrDigits := 4300
  encodeDepth := 1000
  decodeDepth := 1000

def halvesStore : JournalStore (Value Bool) where
  values := pythonValues halvesPython fun _ => ""
  leaseTtl := 30000000
  maxPayloadBytes := 262144
  digest _ := ""

/-- `{"a": [1, 0.5, nan], "b": None}`. -/
def sample : Value Bool :=
  .dict [(.str [CodePoint.ofNat 0x61],
      .list [.scalar (.int 1), .scalar (.float (.finite false)), .scalar (.float (.nan 0))]),
    (.str [CodePoint.ofNat 0x62], .scalar .none)]

theorem verbatim_sample : Verbatim halvesPython halvesStore "output" sample := by
  have hlist : ∀ onScalar onTuple onKeys, Value.Every onScalar onTuple onKeys sample ↔
      onKeys [.str [CodePoint.ofNat 0x61], .str [CodePoint.ofNat 0x62]] ∧ (onScalar (.int 1) ∧ onScalar (.float (.finite false)) ∧
        onScalar (.float (.nan 0))) ∧ onScalar .none := by
    intro onScalar onTuple onKeys
    simp [sample]
  have hne : CodePoint.ofNat 0x61 ≠ CodePoint.ofNat 0x62 := by decide
  have hvalid : halvesPython.Valid sample :=
    (hlist _ _ _).mpr ⟨by simp [Scalar.equal_str, hne], ⟨trivial, trivial, trivial⟩, trivial⟩
  have hwritable : halvesPython.Writable sample :=
    (hlist _ _ _).mpr ⟨by simp [Scalar.Comparable, Scalar.kind, Interpreter.Printable],
      ⟨.inr (by decide), trivial, trivial⟩, trivial⟩
  have hplain : sample.Plain := by
    refine (hlist _ _ _).mpr ⟨?_, ⟨?_, ?_, ?_⟩, ?_⟩
    · simp [Paired]
    all_goals simp
  have hdepth : sample.depth = 2 := rfl
  refine (verbatim_iff halvesPython halvesStore "output" sample hvalid).mpr ⟨⟨hwritable, ?_⟩, .inr ⟨hplain, ?_⟩⟩
  · rw [hdepth]
    decide
  · rw [hdepth]
    decide

/-- `{1: None}` comes back as `{"1": None}`. -/
theorem not_verbatim_int_key : ¬ Verbatim halvesPython halvesStore "output" (.dict [(.int 1, .scalar .none)]) := by
  have htext : halvesPython.dumps (.dict [(.int 1, .scalar .none)]) =
      .ok ['\x7b', '"', '1', '"', ':', 'n', 'u', 'l', 'l', '\x7d'] := by
    rfl
  rw [verbatim_iff_of_text htext]
  rintro (hlimit | ⟨w, hw, hsame⟩)
  · exact absurd hlimit (by decide)
  · have hplain := (hsame.plain (Interpreter.loaded_of_loads hw).plain).1
    obtain ⟨key, hkey, -⟩ := (Value.every_dict.mp hplain).1 (.int 1) (List.mem_cons_self ..)
    cases hkey

end Xyberos.Durable
