import Mathlib.Algebra.GroupWithZero.Nat
import Mathlib.Algebra.BigOperators.Group.List.Basic
import Mathlib.Algebra.Order.Ring.Rat
import Mathlib.Data.List.Basic
import Mathlib.Data.List.Chain

/-!
# Xyberos.Json.Text — the strings and the numbers of a JSON text

How `json.dumps` writes a `str` with `ensure_ascii`, and how the scanner of `json.loads` reads strings and numbers.  A
Python `str` is a list of code points, surrogates included; the text written is ASCII.

A pair of surrogates, a high one before a low one, is the one thing that is not read as it was written: the scanner takes
the two escapes for one character beyond `0xffff`.  A string without such a pair is read back, and no text whatever is
read as a string with one.
-/

set_option autoImplicit false

namespace Xyberos.Json

/-! ## Strings -/

/-- A code point. -/
abbrev CodePoint := Fin 0x110000

/-- A Python `str`. -/
abbrev Str := List CodePoint

def CodePoint.ofNat (n : ℕ) : CodePoint := Fin.ofNat 0x110000 n

theorem CodePoint.val_ofNat {n : ℕ} (h : n < 0x110000) : (CodePoint.ofNat n).val = n := Nat.mod_eq_of_lt h

@[simp] theorem CodePoint.ofNat_val (c : CodePoint) : CodePoint.ofNat c.val = c := Fin.ext (Nat.mod_eq_of_lt c.isLt)

/-- The code point of a character. -/
def codeOf (c : Char) : CodePoint := CodePoint.ofNat c.toNat

theorem codeOf_val (c : Char) : (codeOf c).val = c.toNat := by
  have hvalid : c.toNat < 0xd800 ∨ 0xdfff < c.toNat ∧ c.toNat < 0x110000 := c.valid
  exact CodePoint.val_ofNat (by omega)

/-- A string without surrogates. -/
def Str.ofString (s : String) : Str := s.toList.map codeOf

/-- A string in a message, where no surrogate can stand. -/
def textOf (s : Str) : String := String.ofList (s.map fun c => Char.ofNat c.val)

theorem codeOf_injective : Function.Injective codeOf := by
  intro c d h
  exact Char.toNat_inj.mp (by rw [← codeOf_val, ← codeOf_val, h])

theorem textOf_ofString (text : String) : textOf (Str.ofString text) = text := by
  rw [textOf, Str.ofString, List.map_map]
  apply String.toList_inj.mp
  rw [String.toList_ofList]
  conv_rhs => rw [← List.map_id text.toList]
  refine List.map_congr_left fun c _ => ?_
  rw [Function.comp_apply, codeOf_val, Char.ofNat_toNat]
  rfl

theorem ofString_injective {a b : String} (h : Str.ofString a = Str.ofString b) : a = b := by
  rw [← textOf_ofString a, h, textOf_ofString]

theorem ofString_append (a b : String) : Str.ofString (a ++ b) = Str.ofString a ++ Str.ofString b := by
  rw [Str.ofString, String.toList_append, List.map_append]
  rfl

theorem ofString_eq_nil_iff {text : String} : Str.ofString text = [] ↔ text = "" := by
  rw [Str.ofString, List.map_eq_nil_iff, String.toList_eq_nil_iff]

/-- Which code points are the surrogates of a pair. -/
def CodePoint.IsHigh (c : CodePoint) : Prop := 0xd800 ≤ c.val ∧ c.val ≤ 0xdbff

def CodePoint.IsLow (c : CodePoint) : Prop := 0xdc00 ≤ c.val ∧ c.val ≤ 0xdfff

instance (c : CodePoint) : Decidable c.IsHigh := inferInstanceAs (Decidable (_ ∧ _))

instance (c : CodePoint) : Decidable c.IsLow := inferInstanceAs (Decidable (_ ∧ _))

/-- No high surrogate stands directly before a low one. -/
def Paired (s : Str) : Prop := ¬ s.IsChain fun a b => ¬ (a.IsHigh ∧ b.IsLow)

instance (s : Str) : Decidable (Paired s) := inferInstanceAs (Decidable (¬ _))

/-- The two-character escapes that are written. -/
def shortEscape (c : CodePoint) : Option Char :=
  if c.val = 0x22 then some '"'
  else if c.val = 0x5c then some '\\'
  else if c.val = 0x08 then some 'b'
  else if c.val = 0x0c then some 'f'
  else if c.val = 0x0a then some 'n'
  else if c.val = 0x0d then some 'r'
  else if c.val = 0x09 then some 't'
  else none

/-- `\uXXXX`, in lower case. -/
def escapeUnit (n : ℕ) : List Char :=
  ['\\', 'u', (n / 4096 % 16).digitChar, (n / 256 % 16).digitChar, (n / 16 % 16).digitChar, (n % 16).digitChar]

/-- The surrogates of a character beyond `0xffff`. -/
def highOf (c : CodePoint) : ℕ := 0xd800 + (c.val - 0x10000) / 1024

def lowOf (c : CodePoint) : ℕ := 0xdc00 + (c.val - 0x10000) % 1024

/-- One character of a string that is written with `ensure_ascii`. -/
def escapeChar (c : CodePoint) : List Char :=
  match shortEscape c with
  | some e => ['\\', e]
  | none =>
    if 0x20 ≤ c.val ∧ c.val ≤ 0x7e then [Char.ofNat c.val]
    else if c.val < 0x10000 then escapeUnit c.val
    else escapeUnit (highOf c) ++ escapeUnit (lowOf c)

/-- A string as it is written, without the opening quote. -/
def stringTail (s : Str) : List Char := s.flatMap escapeChar ++ ['"']

/-- `encode_basestring_ascii`. -/
def stringText (s : Str) : List Char := '"' :: stringTail s

/-- What stands between the quotes: a character or a two-character escape, or a `\uXXXX`. -/
inductive Piece
  | plain (c : CodePoint)
  | unit (c : CodePoint)
deriving DecidableEq

def hexValue (c : Char) : Option ℕ :=
  if '0' ≤ c ∧ c ≤ '9' then some (c.toNat - 48)
  else if 'a' ≤ c ∧ c ≤ 'f' then some (c.toNat - 87)
  else if 'A' ≤ c ∧ c ≤ 'F' then some (c.toNat - 55)
  else none

/-- Four hexadecimal digits. -/
def hexUnit (a b c d : Char) : Option CodePoint := do
  return CodePoint.ofNat ((((← hexValue a) * 16 + (← hexValue b)) * 16 + (← hexValue c)) * 16 + (← hexValue d))

/-- The two-character escapes that are read. -/
def readEscape (c : Char) : Option CodePoint :=
  if c = '"' then some 0x22
  else if c = '\\' then some 0x5c
  else if c = '/' then some 0x2f
  else if c = 'b' then some 0x08
  else if c = 'f' then some 0x0c
  else if c = 'n' then some 0x0a
  else if c = 'r' then some 0x0d
  else if c = 't' then some 0x09
  else none

/-- The pieces up to the closing quote, and what follows it. -/
def scanPieces : List Char → Option (List Piece × List Char)
  | [] => none
  | c :: text =>
    if c = '"' then some ([], text)
    else if c = '\\' then
      match text with
      | 'u' :: a :: b :: c :: d :: text => do
        let unit ← hexUnit a b c d
        let (pieces, rest) ← scanPieces text
        return (.unit unit :: pieces, rest)
      | e :: text => do
        let c ← readEscape e
        let (pieces, rest) ← scanPieces text
        return (.plain c :: pieces, rest)
      | [] => none
    else if c.toNat < 0x20 then none
    else do
      let (pieces, rest) ← scanPieces text
      return (.plain (CodePoint.ofNat c.toNat) :: pieces, rest)

/-- The character that a high and a low surrogate stand for. -/
def joinUnits (high low : CodePoint) : CodePoint :=
  CodePoint.ofNat (0x10000 + (high.val - 0xd800) * 1024 + (low.val - 0xdc00))

/-- The string of some pieces: a high escape and the low one after it are one character. -/
def joinPieces : List Piece → Str
  | [] => []
  | .unit c :: .unit d :: pieces =>
    if c.IsHigh ∧ d.IsLow then joinUnits c d :: joinPieces pieces else c :: joinPieces (.unit d :: pieces)
  | .plain c :: pieces => c :: joinPieces pieces
  | .unit c :: pieces => c :: joinPieces pieces

/-- `scanstring`, behind the opening quote. -/
def scanString (text : List Char) : Option (Str × List Char) := do
  let (pieces, rest) ← scanPieces text
  return (joinPieces pieces, rest)

/-! ### What is written is read -/

/-- The pieces a character is written in. -/
def piecesOf (c : CodePoint) : List Piece :=
  if (shortEscape c).isSome ∨ 0x20 ≤ c.val ∧ c.val ≤ 0x7e then [.plain c]
  else if c.val < 0x10000 then [.unit c]
  else [.unit (CodePoint.ofNat (highOf c)), .unit (CodePoint.ofNat (lowOf c))]

/-- How many characters a character is written with. -/
def charSize (c : CodePoint) : ℕ :=
  if (shortEscape c).isSome then 2 else if 0x20 ≤ c.val ∧ c.val ≤ 0x7e then 1 else if c.val < 0x10000 then 6 else 12

/-- The four ways a character is written, with the pieces and the size of each. -/
inductive Written (c : CodePoint) : List Char → List Piece → ℕ → Prop
  | short {e : Char} (escape : shortEscape c = some e) : Written c ['\\', e] [.plain c] 2
  | char (escape : shortEscape c = none) (plain : 0x20 ≤ c.val ∧ c.val ≤ 0x7e) :
      Written c [Char.ofNat c.val] [.plain c] 1
  | unit (small : c.val < 0x10000) : Written c (escapeUnit c.val) [.unit c] 6
  | pair (large : ¬ c.val < 0x10000) :
      Written c (escapeUnit (highOf c) ++ escapeUnit (lowOf c))
        [.unit (CodePoint.ofNat (highOf c)), .unit (CodePoint.ofNat (lowOf c))] 12

theorem written (c : CodePoint) : Written c (escapeChar c) (piecesOf c) (charSize c) := by
  unfold escapeChar piecesOf charSize
  cases hshort : shortEscape c with
  | some e => exact .short hshort
  | none =>
    simp only [Option.isSome_none, Bool.false_eq_true, false_or, if_false]
    split_ifs with hplain hunit
    · exact .char hshort hplain
    · exact .unit hunit
    · exact .pair hunit

theorem hexValue_digitChar : ∀ n < 16, hexValue n.digitChar = some n := by
  decide

theorem hexUnit_escape {n : ℕ} (h : n < 0x10000) :
    hexUnit (n / 4096 % 16).digitChar (n / 256 % 16).digitChar (n / 16 % 16).digitChar (n % 16).digitChar =
      some (CodePoint.ofNat n) := by
  have hdigit : ∀ m : ℕ, hexValue (m % 16).digitChar = some (m % 16) :=
    fun m => hexValue_digitChar _ (Nat.mod_lt _ (by omega))
  have hsum : ((n / 4096 % 16 * 16 + n / 256 % 16) * 16 + n / 16 % 16) * 16 + n % 16 = n := by
    omega
  simp only [hexUnit, hdigit, Option.bind_eq_bind, Option.bind_some, Option.pure_def, hsum]

theorem scanPieces_unit {n : ℕ} (h : n < 0x10000) (text : List Char) :
    scanPieces (escapeUnit n ++ text) =
      (scanPieces text).map fun p => (.unit (CodePoint.ofNat n) :: p.1, p.2) := by
  show scanPieces ('\\' :: 'u' :: _ :: _ :: _ :: _ :: text) = _
  rw [scanPieces, if_neg (by decide), if_pos rfl]
  simp only [hexUnit_escape h, Option.bind_eq_bind, Option.bind_some]
  cases scanPieces text <;> rfl

/-- The characters that stand behind a backslash, and what they stand for. -/
def escapes : List (Char × CodePoint) :=
  [('"', codeOf '"'), ('\\', codeOf '\\'), ('/', codeOf '/'), ('b', codeOf '\x08'), ('f', codeOf '\x0c'),
    ('n', codeOf '\n'), ('r', codeOf '\r'), ('t', codeOf '\t')]

theorem mem_escapes {e : Char} {c : CodePoint} (h : readEscape e = some c) : (e, c) ∈ escapes := by
  simp only [readEscape, ite_eq_iff, Option.some.injEq, reduceCtorEq, and_false, or_false] at h
  -- a case for each branch
  rcases h with ⟨rfl, rfl⟩ | ⟨-, ⟨rfl, rfl⟩ | ⟨-, ⟨rfl, rfl⟩ | ⟨-, ⟨rfl, rfl⟩ | ⟨-, ⟨rfl, rfl⟩ | ⟨-, ⟨rfl, rfl⟩ |
    ⟨-, ⟨rfl, rfl⟩ | ⟨-, rfl, rfl⟩⟩⟩⟩⟩⟩⟩ <;> decide

/-- What is written with two characters is read as one. -/
theorem readEscape_of_shortEscape {c : CodePoint} {e : Char} (h : shortEscape c = some e) :
    e ≠ 'u' ∧ readEscape e = some c := by
  simp only [shortEscape, ite_eq_iff, Option.some.injEq, reduceCtorEq, and_false, or_false] at h
  rcases h with ⟨h, rfl⟩ | ⟨-, ⟨h, rfl⟩ | ⟨-, ⟨h, rfl⟩ | ⟨-, ⟨h, rfl⟩ | ⟨-, ⟨h, rfl⟩ | ⟨-, ⟨h, rfl⟩ |
    ⟨-, h, rfl⟩⟩⟩⟩⟩⟩ <;> exact ⟨by decide, congrArg some (Fin.ext h.symm)⟩

theorem scanPieces_short {c : CodePoint} {e : Char} (h : shortEscape c = some e) (text : List Char) :
    scanPieces ('\\' :: e :: text) = (scanPieces text).map fun p => (.plain c :: p.1, p.2) := by
  obtain ⟨hne, hread⟩ := readEscape_of_shortEscape h
  rw [scanPieces, if_neg (by decide), if_pos rfl]
  · rw [hread]
    cases scanPieces text <;> rfl
  · rintro a b c' d text' rfl
    exact absurd rfl hne

theorem toNat_ofNat_ascii : ∀ n < 128, (Char.ofNat n).toNat = n := by
  decide

theorem scanPieces_char {c : CodePoint} (hshort : shortEscape c = none) (h : 0x20 ≤ c.val ∧ c.val ≤ 0x7e)
    (text : List Char) :
    scanPieces (Char.ofNat c.val :: text) = (scanPieces text).map fun p => (.plain c :: p.1, p.2) := by
  have hnat : (Char.ofNat c.val).toNat = c.val := toNat_ofNat_ascii _ (by omega)
  have hquote : Char.ofNat c.val ≠ '"' := by
    intro hc
    rw [hc] at hnat
    simp [shortEscape, ← hnat] at hshort
  have hslash : Char.ofNat c.val ≠ '\\' := by
    intro hc
    rw [hc] at hnat
    simp [shortEscape, ← hnat] at hshort
  rw [scanPieces.eq_def]
  dsimp only
  rw [if_neg hquote, if_neg hslash, hnat, if_neg (by omega)]
  rw [CodePoint.ofNat_val]
  cases scanPieces text <;> rfl

theorem scanPieces_escapeChar (c : CodePoint) (text : List Char) :
    scanPieces (escapeChar c ++ text) = (scanPieces text).map fun p => (piecesOf c ++ p.1, p.2) := by
  have hw := written c
  generalize escapeChar c = t, piecesOf c = ps, charSize c = n at hw ⊢
  cases hw with
  | short escape => exact scanPieces_short escape text
  | char escape plain => exact scanPieces_char escape plain text
  | unit small =>
    rw [scanPieces_unit small, CodePoint.ofNat_val]
    rfl
  | pair large =>
    have hc := c.isLt
    have hhigh : highOf c < 0x10000 := by unfold highOf; omega
    have hlow : lowOf c < 0x10000 := by unfold lowOf; omega
    rw [List.append_assoc, scanPieces_unit hhigh, scanPieces_unit hlow]
    cases scanPieces text <;> rfl

theorem scanPieces_stringTail (s : Str) (text : List Char) :
    scanPieces (stringTail s ++ text) = some (s.flatMap piecesOf, text) := by
  induction s with
  | nil =>
    show scanPieces ('"' :: text) = _
    rw [scanPieces.eq_def]
    rfl
  | cons c s ih =>
    have htail : stringTail (c :: s) ++ text = escapeChar c ++ (stringTail s ++ text) := by
      simp [stringTail]
    rw [htail, scanPieces_escapeChar, ih]
    rfl

/-! ### Pairs of surrogates -/

theorem not_paired_cons {c : CodePoint} {s : Str} :
    ¬ Paired (c :: s) ↔ (∀ d ∈ s.head?, ¬ (c.IsHigh ∧ d.IsLow)) ∧ ¬ Paired s := by
  cases s <;> simp [Paired]

theorem not_high_and_low {c : CodePoint} (hhigh : c.IsHigh) : ¬ c.IsLow := by
  intro hlow
  have h₁ := hhigh.2
  have h₂ := hlow.1
  omega

/-- A high surrogate and a low one stand for a character that is neither. -/
theorem joinUnits_plain (c d : CodePoint) (hc : c.IsHigh) (hd : d.IsLow) :
    ¬ (joinUnits c d).IsHigh ∧ ¬ (joinUnits c d).IsLow := by
  have hval : (joinUnits c d).val = 0x10000 + (c.val - 0xd800) * 1024 + (d.val - 0xdc00) := by
    have h₁ := hc.2
    have h₂ := hd.2
    exact CodePoint.val_ofNat (by omega)
  refine ⟨fun h => ?_, fun h => ?_⟩
  · have := h.2
    omega
  · have := h.2
    omega

/-- The surrogates of a character are a pair, and stand for it. -/
theorem joinUnits_of {c : CodePoint} (h : ¬ c.val < 0x10000) :
    (CodePoint.ofNat (highOf c)).IsHigh ∧ (CodePoint.ofNat (lowOf c)).IsLow ∧
      joinUnits (CodePoint.ofNat (highOf c)) (CodePoint.ofNat (lowOf c)) = c := by
  have hc := c.isLt
  have hhigh : (CodePoint.ofNat (highOf c)).val = 0xd800 + (c.val - 0x10000) / 1024 :=
    CodePoint.val_ofNat (by unfold highOf; omega)
  have hlow : (CodePoint.ofNat (lowOf c)).val = 0xdc00 + (c.val - 0x10000) % 1024 :=
    CodePoint.val_ofNat (by unfold lowOf; omega)
  refine ⟨⟨by omega, by omega⟩, ⟨by omega, by omega⟩, ?_⟩
  rw [joinUnits, hhigh, hlow]
  exact Fin.ext ((CodePoint.val_ofNat (by omega)).trans (by omega))

theorem joinPieces_unit {c : CodePoint} {pieces : List Piece}
    (h : ∀ d, pieces.head? = some (.unit d) → ¬ (c.IsHigh ∧ d.IsLow)) :
    joinPieces (.unit c :: pieces) = c :: joinPieces pieces := by
  cases pieces with
  | nil => rfl
  | cons piece pieces =>
    cases piece with
    | plain d => rfl
    | unit d => rw [joinPieces, if_neg (h d rfl)]

/-- An escape of a low surrogate comes first only where the string has that surrogate. -/
theorem head?_piecesOf {s : Str} {d : CodePoint} (h : (s.flatMap piecesOf).head? = some (.unit d)) (hd : d.IsLow) :
    s.head? = some d := by
  cases s with
  | nil => cases h
  | cons c s =>
    have hw := written c
    rw [List.flatMap_cons] at h
    generalize escapeChar c = t, piecesOf c = ps, charSize c = n at hw h
    cases hw with
    | short => cases h
    | char => cases h
    | unit =>
      cases h
      rfl
    | pair large =>
      cases h
      exact absurd hd (not_high_and_low (joinUnits_of large).1)

theorem joinPieces_flatMap {s : Str} (h : ¬ Paired s) : joinPieces (s.flatMap piecesOf) = s := by
  induction s with
  | nil => rfl
  | cons c s ih =>
    obtain ⟨hhead, hs⟩ := not_paired_cons.mp h
    have hw := written c
    rw [List.flatMap_cons]
    generalize escapeChar c = t, piecesOf c = ps, charSize c = n at hw ⊢
    cases hw with
    | short => rw [List.singleton_append, joinPieces, ih hs]
    | char => rw [List.singleton_append, joinPieces, ih hs]
    | unit =>
      have hnext : ∀ d, (s.flatMap piecesOf).head? = some (.unit d) → ¬ (c.IsHigh ∧ d.IsLow) :=
        fun d hd hpair => hhead d (head?_piecesOf hd hpair.2) hpair
      rw [List.singleton_append, joinPieces_unit hnext, ih hs]
    | pair large =>
      obtain ⟨hhigh, hlow, hjoin⟩ := joinUnits_of large
      rw [List.cons_append, List.singleton_append, joinPieces, if_pos ⟨hhigh, hlow⟩, hjoin, ih hs]

/-- A string without a pair of surrogates is read back. -/
theorem scanString_stringTail {s : Str} (h : ¬ Paired s) (text : List Char) :
    scanString (stringTail s ++ text) = some (s, text) := by
  rw [scanString, scanPieces_stringTail]
  show some (joinPieces _, text) = _
  rw [joinPieces_flatMap h]

/-- A piece that is not an escape is not a surrogate. -/
def Piece.Sound : Piece → Prop
  | .plain c => ¬ c.IsHigh ∧ ¬ c.IsLow
  | .unit _ => True

theorem readEscape_plain {e : Char} {c : CodePoint} (h : readEscape e = some c) : ¬ c.IsHigh ∧ ¬ c.IsLow := by
  have hall : ∀ p ∈ escapes, ¬ p.2.IsHigh ∧ ¬ p.2.IsLow := by decide
  exact hall _ (mem_escapes h)

theorem ofNat_toNat_plain (c : Char) : ¬ (CodePoint.ofNat c.toNat).IsHigh ∧ ¬ (CodePoint.ofNat c.toNat).IsLow := by
  have hvalid : c.toNat < 0xd800 ∨ 0xdfff < c.toNat ∧ c.toNat < 0x110000 := c.valid
  have hval : (CodePoint.ofNat c.toNat).val = c.toNat := codeOf_val c
  refine ⟨fun h => ?_, fun h => ?_⟩
  · have h₁ := h.1
    have h₂ := h.2
    omega
  · have h₁ := h.1
    have h₂ := h.2
    omega

theorem scanPieces_sound {text : List Char} {pieces : List Piece} {rest : List Char}
    (h : scanPieces text = some (pieces, rest)) : ∀ piece ∈ pieces, piece.Sound := by
  induction text using scanPieces.induct generalizing pieces with
  | case1 => cases h
  | case2 text =>
    rw [scanPieces.eq_def] at h
    obtain ⟨rfl, rfl⟩ := Prod.mk.inj (Option.some.inj h)
    simp
  | case3 a b c d text _ ih =>
    rw [scanPieces, if_neg (by decide), if_pos rfl] at h
    obtain ⟨unit, -, h⟩ := Option.bind_eq_some_iff.mp h
    obtain ⟨⟨ps, rest'⟩, hps, h⟩ := Option.bind_eq_some_iff.mp h
    obtain ⟨rfl, rfl⟩ := Prod.mk.inj (Option.some.inj h)
    exact List.forall_mem_cons.mpr ⟨trivial, ih hps⟩
  | case4 e text hnot _ ih =>
    rw [scanPieces, if_neg (by decide), if_pos rfl] at h
    · obtain ⟨c, hc, h⟩ := Option.bind_eq_some_iff.mp h
      obtain ⟨⟨ps, rest'⟩, hps, h⟩ := Option.bind_eq_some_iff.mp h
      obtain ⟨rfl, rfl⟩ := Prod.mk.inj (Option.some.inj h)
      exact List.forall_mem_cons.mpr ⟨readEscape_plain hc, ih hps⟩
    · exact hnot
  | case5 => cases h
  | case6 c text hquote hslash hcontrol =>
    rw [scanPieces.eq_def] at h
    dsimp only at h
    rw [if_neg hquote, if_neg hslash, if_pos hcontrol] at h
    cases h
  | case7 c text hquote hslash hcontrol ih =>
    rw [scanPieces.eq_def] at h
    dsimp only at h
    rw [if_neg hquote, if_neg hslash, if_neg hcontrol] at h
    obtain ⟨⟨ps, rest'⟩, hps, h⟩ := Option.bind_eq_some_iff.mp h
    obtain ⟨rfl, rfl⟩ := Prod.mk.inj (Option.some.inj h)
    exact List.forall_mem_cons.mpr ⟨ofNat_toNat_plain c, ih hps⟩

/-- A string that is read has no pair of surrogates. -/
theorem not_paired_joinPieces {pieces : List Piece} (h : ∀ piece ∈ pieces, piece.Sound) :
    ¬ Paired (joinPieces pieces) := by
  have hhead : ∀ {ps : List Piece} {d : CodePoint}, (∀ piece ∈ ps, piece.Sound) → d ∈ (joinPieces ps).head? →
      d.IsLow → ps.head? = some (.unit d) := by
    intro ps d hs hd hlow
    induction ps using joinPieces.induct with
    | case1 => cases hd
    | case2 c d' ps hpair =>
      rw [joinPieces, if_pos hpair] at hd
      obtain rfl := Option.some.inj hd
      exact absurd hlow (joinUnits_plain c d' hpair.1 hpair.2).2
    | case3 c d' ps hpair =>
      rw [joinPieces, if_neg hpair] at hd
      obtain rfl := Option.some.inj hd
      rfl
    | case4 c ps =>
      rw [joinPieces] at hd
      obtain rfl := Option.some.inj hd
      exact absurd hlow (hs _ (List.mem_cons_self ..)).2
    | case5 c ps hnot =>
      rw [joinPieces_unit fun d' hd' => ?_] at hd
      · obtain rfl := Option.some.inj hd
        rfl
      · cases ps with
        | nil => cases hd'
        | cons p ps =>
          cases hd'
          exact absurd rfl (hnot d' ps)
  induction pieces using joinPieces.induct with
  | case1 => simp [joinPieces, Paired]
  | case2 c d ps hpair ih =>
    -- two units that are one character
    rw [joinPieces, if_pos hpair, not_paired_cons]
    refine ⟨fun _ _ hd => (joinUnits_plain c d hpair.1 hpair.2).1 hd.1, ih fun p hp => h p ?_⟩
    exact List.mem_cons_of_mem _ (List.mem_cons_of_mem _ hp)
  | case3 c d ps hpair ih =>
    -- two units that are not
    have hs : ∀ piece ∈ Piece.unit d :: ps, piece.Sound := fun p hp => h p (List.mem_cons_of_mem _ hp)
    rw [joinPieces, if_neg hpair, not_paired_cons]
    refine ⟨fun d' hd' hp => hpair ?_, ih hs⟩
    obtain rfl := Piece.unit.inj (Option.some.inj (hhead hs hd' hp.2))
    exact hp
  | case4 c ps ih =>
    rw [joinPieces, not_paired_cons]
    refine ⟨fun _ _ hd => (h _ (List.mem_cons_self ..)).1 hd.1, ih fun p hp => h p (List.mem_cons_of_mem _ hp)⟩
  | case5 c ps hnot ih =>
    -- a unit by itself
    have hs : ∀ piece ∈ ps, piece.Sound := fun p hp => h p (List.mem_cons_of_mem _ hp)
    have hnone : ∀ d, ps.head? ≠ some (.unit d) := by
      intro d hd
      cases ps with
      | nil => cases hd
      | cons p ps =>
        cases hd
        exact hnot d ps rfl
    rw [joinPieces_unit fun d hd => absurd hd (hnone d), not_paired_cons]
    exact ⟨fun d hd hp => hnone d (hhead hs hd hp.2), ih hs⟩

theorem not_paired_of_scanString {text : List Char} {s : Str} {rest : List Char}
    (h : scanString text = some (s, rest)) : ¬ Paired s := by
  obtain ⟨⟨pieces, rest'⟩, hpieces, h⟩ := Option.bind_eq_some_iff.mp h
  obtain ⟨rfl, rfl⟩ := Prod.mk.inj (Option.some.inj h)
  exact not_paired_joinPieces (scanPieces_sound hpieces)

/-! ### Sizes -/

def stringSize (s : Str) : ℕ := (s.map charSize).sum + 2

/-- A text of ASCII characters. -/
def Ascii (text : List Char) : Prop := ∀ c ∈ text, c.toNat < 128

theorem Ascii.append {l l' : List Char} (h : Ascii l) (h' : Ascii l') : Ascii (l ++ l') :=
  fun c hc => (List.mem_append.mp hc).elim (h c) (h' c)

theorem Ascii.cons {c : Char} {l : List Char} (hc : c.toNat < 128) (h : Ascii l) : Ascii (c :: l) :=
  List.forall_mem_cons.mpr ⟨hc, h⟩

theorem ascii_escapeUnit (n : ℕ) : Ascii (escapeUnit n) := by
  have hall : ∀ k < 16, (Nat.digitChar k).toNat < 128 := by decide
  have hdigit : ∀ m : ℕ, (m % 16).digitChar.toNat < 128 := fun m => hall _ (Nat.mod_lt _ (by omega))
  simp [Ascii, escapeUnit, hdigit]

theorem ascii_escapeChar (c : CodePoint) : Ascii (escapeChar c) ∧ (escapeChar c).length = charSize c := by
  have hw := written c
  generalize escapeChar c = t, piecesOf c = ps, charSize c = n at hw ⊢
  cases hw with
  | short escape =>
    have hall : ∀ p ∈ escapes, p.1.toNat < 128 := by decide
    have he := hall _ (mem_escapes (readEscape_of_shortEscape escape).2)
    exact ⟨Ascii.cons (by decide) (Ascii.cons he (by simp [Ascii])), rfl⟩
  | char _ plain =>
    refine ⟨?_, rfl⟩
    have hnat : (Char.ofNat c.val).toNat = c.val := toNat_ofNat_ascii _ (by omega)
    simp only [Ascii, List.mem_singleton, forall_eq, hnat]
    omega
  | unit => exact ⟨ascii_escapeUnit _, rfl⟩
  | pair => exact ⟨(ascii_escapeUnit _).append (ascii_escapeUnit _), rfl⟩

theorem ascii_stringText (s : Str) : Ascii (stringText s) := by
  refine Ascii.cons (by decide) (Ascii.append (fun c hc => ?_) (by simp [Ascii]))
  obtain ⟨d, -, hc⟩ := List.mem_flatMap.mp hc
  exact (ascii_escapeChar d).1 c hc

theorem length_stringText (s : Str) : (stringText s).length = stringSize s := by
  simp only [stringText, stringTail, List.length_cons, List.length_append, List.length_flatMap, stringSize,
    fun c => (ascii_escapeChar c).2]
  rfl

/-! ## Numbers -/

/-- A number as it is read: the integer part with its sign, the fraction with its point, the exponent with its letter. -/
structure Number where
  int : List Char
  frac : List Char
  exp : List Char
deriving DecidableEq

def Number.text (n : Number) : List Char := n.int ++ n.frac ++ n.exp

/-- Whether the number is a `float`. -/
def Number.isFloat (n : Number) : Bool := !(n.frac.isEmpty && n.exp.isEmpty)

def scanDigits (text : List Char) : List Char × List Char :=
  (text.takeWhile Char.isDigit, text.dropWhile Char.isDigit)

def scanNatural : List Char → Option (List Char × List Char)
  | '0' :: text => some (['0'], text)
  | text =>
    match scanDigits text with
    | ([], _) => none
    | scanned => some scanned

def scanInteger : List Char → Option (List Char × List Char)
  | '-' :: text => (scanNatural text).map fun p => ('-' :: p.1, p.2)
  | text => scanNatural text

def scanFraction : List Char → List Char × List Char
  | '.' :: text =>
    match scanDigits text with
    | ([], _) => ([], '.' :: text)
    | (digits, rest) => ('.' :: digits, rest)
  | text => ([], text)

def scanSign : List Char → List Char × List Char
  | '-' :: text => (['-'], text)
  | '+' :: text => (['+'], text)
  | text => ([], text)

/-- An `e` that no digits follow is not an exponent. -/
def scanExponent : List Char → List Char × List Char
  | [] => ([], [])
  | e :: text =>
    if e = 'e' ∨ e = 'E' then
      match scanDigits (scanSign text).2 with
      | ([], _) => ([], e :: text)
      | (digits, rest) => (e :: ((scanSign text).1 ++ digits), rest)
    else ([], e :: text)

/-- `_match_number_unicode`, up to the conversion. -/
def scanNumber (text : List Char) : Option (Number × List Char) := do
  let (int, text) ← scanInteger text
  let (frac, text) := scanFraction text
  let (exp, text) := scanExponent text
  return (⟨int, frac, exp⟩, text)

/-- `repr` of an `int`. -/
def intText (i : ℤ) : List Char :=
  if i < 0 then '-' :: Nat.toDigits 10 i.natAbs else Nat.toDigits 10 i.natAbs

/-- `int(text)` of a text that was read as a number. -/
def readInt : List Char → ℤ
  | '-' :: digits => -(Nat.ofDigitChars 10 digits 0 : ℕ)
  | digits => (Nat.ofDigitChars 10 digits 0 : ℕ)

/-- How many digits an `int` has. -/
def digitsOf (i : ℤ) : ℕ := (Nat.toDigits 10 i.natAbs).length

/-! ### What is written is read -/

/-- Some digits. -/
def Digits (l : List Char) : Prop := l ≠ [] ∧ ∀ c ∈ l, c.isDigit = true

theorem digits_singleton {c : Char} (h : c.isDigit = true) : Digits [c] :=
  ⟨List.cons_ne_nil _ _, List.forall_mem_singleton.mpr h⟩

/-- The grammar of a number: no digits before a `0`, a point only before digits, and a letter only before digits. -/
structure Number.WellFormed (n : Number) : Prop where
  int : ∃ sign digits, n.int = sign ++ digits ∧ (sign = [] ∨ sign = ['-']) ∧
    (digits = ['0'] ∨ Digits digits ∧ digits.head? ≠ some '0')
  frac : n.frac = [] ∨ ∃ digits, n.frac = '.' :: digits ∧ Digits digits
  exp : n.exp = [] ∨ ∃ e sign digits, n.exp = e :: (sign ++ digits) ∧ (e = 'e' ∨ e = 'E') ∧
    (sign = [] ∨ sign = ['+'] ∨ sign = ['-']) ∧ Digits digits

/-- A number does not go on into the text. -/
def Stops (text : List Char) : Prop :=
  ∀ c ∈ text.head?, c.isDigit = false ∧ c ≠ '.' ∧ c ≠ 'e' ∧ c ≠ 'E'

theorem scanDigits_append {digits rest : List Char} (h : ∀ c ∈ digits, c.isDigit = true)
    (hrest : ∀ c ∈ rest.head?, c.isDigit = false) : scanDigits (digits ++ rest) = (digits, rest) := by
  have htake : rest.takeWhile Char.isDigit = [] ∧ rest.dropWhile Char.isDigit = rest := by
    cases rest with
    | nil => exact ⟨rfl, rfl⟩
    | cons c rest =>
      have hc : c.isDigit = false := hrest c rfl
      simp [hc]
  rw [scanDigits, List.takeWhile_append_of_pos h, List.dropWhile_append_of_pos h, htake.1, htake.2, List.append_nil]

theorem scanNatural_append {digits rest : List Char}
    (h : digits = ['0'] ∨ Digits digits ∧ digits.head? ≠ some '0') (hrest : ∀ c ∈ rest.head?, c.isDigit = false) :
    scanNatural (digits ++ rest) = some (digits, rest) := by
  rcases h with rfl | ⟨⟨hne, hdigits⟩, hzero⟩
  · rfl
  · obtain ⟨d, ds, rfl⟩ := List.exists_cons_of_ne_nil hne
    have hd : d ≠ '0' := fun hd => hzero (congrArg some hd)
    have hscan := scanDigits_append hdigits hrest
    rw [List.cons_append] at hscan ⊢
    rw [scanNatural, hscan]
    · simpa using hd

theorem scanInteger_append {sign digits rest : List Char} (hsign : sign = [] ∨ sign = ['-'])
    (h : digits = ['0'] ∨ Digits digits ∧ digits.head? ≠ some '0') (hrest : ∀ c ∈ rest.head?, c.isDigit = false) :
    scanInteger (sign ++ digits ++ rest) = some (sign ++ digits, rest) := by
  have hscan := scanNatural_append h hrest
  rcases hsign with rfl | rfl
  · rw [List.nil_append]
    have hminus : ∀ text, digits ++ rest ≠ '-' :: text := by
      intro text htext
      rcases h with rfl | ⟨⟨hne, hdigits⟩, -⟩
      · cases htext
      · obtain ⟨d, ds, rfl⟩ := List.exists_cons_of_ne_nil hne
        have hd := hdigits d (List.mem_cons_self ..)
        rw [(List.cons.inj htext).1] at hd
        cases hd
    rw [scanInteger, hscan]
    exact hminus
  · rw [List.append_assoc, List.singleton_append, scanInteger, hscan]
    rfl

theorem scanFraction_append {frac rest : List Char} (h : frac = [] ∨ ∃ digits, frac = '.' :: digits ∧ Digits digits)
    (hrest : ∀ c ∈ rest.head?, c.isDigit = false ∧ c ≠ '.') : scanFraction (frac ++ rest) = (frac, rest) := by
  rcases h with rfl | ⟨digits, rfl, hne, hdigits⟩
  · cases rest with
    | nil => rfl
    | cons c rest =>
      rw [List.nil_append, scanFraction]
      rintro text htext
      exact (hrest c rfl).2 (List.cons.inj htext).1
  · obtain ⟨d, ds, rfl⟩ := List.exists_cons_of_ne_nil hne
    have hscan := scanDigits_append hdigits fun c hc => (hrest c hc).1
    rw [List.cons_append, scanFraction, hscan]

theorem scanSign_append {sign digits rest : List Char} (hsign : sign = [] ∨ sign = ['+'] ∨ sign = ['-'])
    (h : Digits digits) : scanSign (sign ++ digits ++ rest) = (sign, digits ++ rest) := by
  obtain ⟨d, ds, rfl⟩ := List.exists_cons_of_ne_nil h.1
  have hd := h.2 d (List.mem_cons_self ..)
  rcases hsign with rfl | rfl | rfl
  · have hplus : d ≠ '+' := by rintro rfl; cases hd
    have hminus : d ≠ '-' := by rintro rfl; cases hd
    rw [List.nil_append, List.cons_append, scanSign]
    · simpa using hminus
    · simpa using hplus
  · rfl
  · rfl

theorem scanExponent_append {exp rest : List Char}
    (h : exp = [] ∨ ∃ e sign digits, exp = e :: (sign ++ digits) ∧ (e = 'e' ∨ e = 'E') ∧
      (sign = [] ∨ sign = ['+'] ∨ sign = ['-']) ∧ Digits digits) (hrest : Stops rest) :
    scanExponent (exp ++ rest) = (exp, rest) := by
  rcases h with rfl | ⟨e, sign, digits, rfl, he, hsign, hdigits⟩
  · cases rest with
    | nil => rfl
    | cons c rest =>
      obtain ⟨-, -, hc⟩ := hrest c rfl
      rw [List.nil_append, scanExponent, if_neg (not_or.mpr hc)]
  · have hscan := scanDigits_append hdigits.2 fun c hc => (hrest c hc).1
    rw [List.cons_append, scanExponent, if_pos he, scanSign_append hsign hdigits, hscan]
    obtain ⟨d, ds, rfl⟩ := List.exists_cons_of_ne_nil hdigits.1
    rfl

/-- A number is read up to its end. -/
theorem scanNumber_text {n : Number} (h : n.WellFormed) {rest : List Char} (hrest : Stops rest) :
    scanNumber (n.text ++ rest) = some (n, rest) := by
  obtain ⟨int, frac, exp⟩ := n
  obtain ⟨⟨sign, digits, rfl, hsign, hdigits⟩, hfrac, hexp⟩ := h
  dsimp only at hfrac hexp
  have hexp' : ∀ c ∈ (exp ++ rest).head?, c.isDigit = false ∧ c ≠ '.' := by
    intro c hc
    rcases hexp with rfl | ⟨e, sign, digits, rfl, he, -⟩
    · exact ⟨(hrest c hc).1, (hrest c hc).2.1⟩
    · obtain rfl := Option.some.inj hc
      rcases he with rfl | rfl <;> decide
  have hfrac' : ∀ c ∈ (frac ++ (exp ++ rest)).head?, c.isDigit = false := by
    intro c hc
    rcases hfrac with rfl | ⟨digits, rfl, -⟩
    · exact (hexp' c hc).1
    · obtain rfl := Option.some.inj hc
      decide
  rw [Number.text, List.append_assoc, List.append_assoc, scanNumber, scanInteger_append hsign hdigits hfrac']
  simp only [Option.bind_eq_bind, Option.bind_some, scanFraction_append hfrac hexp', scanExponent_append hexp hrest]
  rfl

theorem digits_toDigits (n : ℕ) : Digits (Nat.toDigits 10 n) :=
  ⟨Nat.toDigits_ne_nil, fun _ hc => Nat.isDigit_of_mem_toDigits (by omega) (by omega) hc⟩

theorem head?_toDigits {n : ℕ} (h : 0 < n) : (Nat.toDigits 10 n).head? ≠ some '0' := by
  induction n using Nat.strong_induction_on with
  | _ n ih =>
    rw [Nat.toDigits_eq_if (by omega)]
    split_ifs with hn
    · have hne : n.digitChar ≠ '0' := by
        rw [Ne, Nat.digitChar_eq_zero]
        omega
      simpa using hne
    · obtain ⟨d, ds, hds⟩ := List.exists_cons_of_ne_nil (Nat.toDigits_ne_nil (b := 10) (n := n / 10))
      have hhead := ih (n / 10) (by omega) (by omega)
      rw [hds] at hhead ⊢
      exact hhead

/-- The number that an `int` is written as. -/
def intNumber (i : ℤ) : Number := ⟨intText i, [], []⟩

@[simp] theorem intNumber_text (i : ℤ) : (intNumber i).text = intText i := by
  simp [intNumber, Number.text]

theorem intNumber_wellFormed (i : ℤ) : (intNumber i).WellFormed := by
  refine ⟨⟨if i < 0 then ['-'] else [], Nat.toDigits 10 i.natAbs, ?_, ?_, ?_⟩, .inl rfl, .inl rfl⟩
  · show intText i = _
    unfold intText
    split_ifs <;> rfl
  · split_ifs
    · exact .inr rfl
    · exact .inl rfl
  · rcases Nat.eq_zero_or_pos i.natAbs with hzero | hpos
    · rw [hzero]
      exact .inl (Nat.toDigits_zero 10)
    · exact .inr ⟨digits_toDigits _, head?_toDigits hpos⟩

theorem readInt_intText (i : ℤ) : readInt (intText i) = i := by
  have hread : Nat.ofDigitChars 10 (Nat.toDigits 10 i.natAbs) 0 = i.natAbs :=
    Nat.ofDigitChars_toDigits (by omega) (by omega)
  unfold intText
  split_ifs with hneg
  · rw [readInt, hread]
    omega
  · rw [readInt, hread]
    · omega
    · intro digits hdigits
      have hminus := (digits_toDigits i.natAbs).2 '-' (by rw [hdigits]; exact List.mem_cons_self ..)
      cases hminus

def intSize (i : ℤ) : ℕ := digitsOf i + if i < 0 then 1 else 0

theorem length_intText (i : ℤ) : (intText i).length = intSize i := by
  unfold intText intSize digitsOf
  split_ifs <;> simp

theorem Digits.ascii {l : List Char} (h : Digits l) : Ascii l := by
  intro c hc
  have hdigit := Char.isDigit_iff_toNat.mp (h.2 c hc)
  have hnine : ('9').toNat = 57 := rfl
  omega

/-- Numbers are ASCII. -/
theorem Number.WellFormed.ascii {n : Number} (h : n.WellFormed) : Ascii n.text := by
  obtain ⟨int, frac, exp⟩ := n
  obtain ⟨⟨sign, digits, rfl, hsign, hdigits⟩, hfrac, hexp⟩ := h
  have hsign' : Ascii sign := by
    rcases hsign with rfl | rfl <;> simp [Ascii]
  have hdigits' : Ascii digits := by
    rcases hdigits with rfl | hdigits
    · simp [Ascii]
    · exact hdigits.1.ascii
  have hfrac' : Ascii frac := by
    rcases hfrac with rfl | ⟨digits, rfl, hdigits⟩
    · simp [Ascii]
    · exact hdigits.ascii.cons (by decide)
  have hexp' : Ascii exp := by
    rcases hexp with rfl | ⟨e, sign, digits, rfl, he, hsign, hdigits⟩
    · simp [Ascii]
    · have hs : Ascii sign := by
        rcases hsign with rfl | rfl | rfl <;> simp [Ascii]
      refine (hs.append hdigits.ascii).cons ?_
      rcases he with rfl | rfl <;> decide
  exact ((hsign'.append hdigits').append hfrac').append hexp'

theorem ofDigitChars_lt {l : List Char} (h : ∀ c ∈ l, c.isDigit = true) (init : ℕ) :
    Nat.ofDigitChars 10 l init < (init + 1) * 10 ^ l.length := by
  induction l generalizing init with
  | nil => simp [Nat.ofDigitChars]
  | cons c l ih =>
    obtain ⟨hc, hl⟩ := List.forall_mem_cons.mp h
    have hdigit := Char.isDigit_iff_toNat.mp hc
    have hnine : ('9').toNat = 57 := rfl
    have hzero : ('0').toNat = 48 := rfl
    rw [Nat.ofDigitChars_cons]
    refine Nat.lt_of_lt_of_le (ih hl _) ?_
    rw [List.length_cons, Nat.pow_succ', ← Nat.mul_assoc]
    refine Nat.mul_le_mul_right _ ?_
    omega

theorem digits_of_scanNatural {text digits rest : List Char} (h : scanNatural text = some (digits, rest)) :
    Digits digits := by
  unfold scanNatural at h
  split at h
  · obtain ⟨rfl, -⟩ := Prod.mk.inj (Option.some.inj h)
    exact digits_singleton rfl
  · split at h
    · cases h
    · next hne =>
      obtain ⟨rfl, -⟩ := Prod.mk.inj (Option.some.inj h)
      refine ⟨fun hnil => hne _ (Prod.ext hnil rfl), List.all_eq_true.mp List.all_takeWhile⟩

/-- A number that is read has no more digits than its text. -/
theorem digitsOf_readInt_le {text : List Char} {n : Number} {rest : List Char} (h : scanNumber text = some (n, rest)) :
    digitsOf (readInt n.int) ≤ (n.int.filter Char.isDigit).length := by
  have hdigits : ∀ digits, Digits digits → (Nat.toDigits 10 (Nat.ofDigitChars 10 digits 0)).length ≤ digits.length := by
    intro digits hd
    have hlt := ofDigitChars_lt hd.2 0
    exact (Nat.length_toDigits_le_iff (by omega) (List.length_pos_of_ne_nil hd.1)).mpr (by simpa using hlt)
  obtain ⟨⟨int, text'⟩, hint, h⟩ := Option.bind_eq_some_iff.mp h
  obtain ⟨rfl, -⟩ := Prod.mk.inj (Option.some.inj h)
  dsimp only
  unfold scanInteger at hint
  split at hint
  · obtain ⟨⟨digits, rest'⟩, hscan, heq⟩ := Option.map_eq_some_iff.mp hint
    obtain ⟨rfl, -⟩ := Prod.mk.inj heq
    have hd := digits_of_scanNatural hscan
    rw [List.filter_cons_of_neg (by decide), List.filter_eq_self.mpr hd.2, readInt, digitsOf, Int.natAbs_neg,
      Int.natAbs_natCast]
    exact hdigits digits hd
  · have hd := digits_of_scanNatural hint
    have hminus : ∀ digits, int ≠ '-' :: digits := by
      rintro digits rfl
      have hfalse := hd.2 '-' (List.mem_cons_self ..)
      cases hfalse
    rw [List.filter_eq_self.mpr hd.2, readInt, digitsOf, Int.natAbs_natCast]
    · exact hdigits int hd
    · exact hminus

end Xyberos.Json
