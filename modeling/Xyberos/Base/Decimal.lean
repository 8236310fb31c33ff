import Mathlib.Data.Char
import Mathlib.Data.List.Forall2
import Mathlib.Data.List.Lex
import Mathlib.Order.Basic
import Mathlib.Tactic.NormNum

/-!
# Xyberos.Base.Decimal — records of fixed-width decimals

`decimal width n` is a number in exactly `width` digits and `record` a row of them, each followed by a constant text.
Texts of one shape compare as the rows of their numbers do (`record_lt_record`), and `readRecord` reads the numbers
back.
-/

set_option autoImplicit false

namespace Xyberos

/-! ## Lexicographic order -/

theorem append_lt_append {α : Type} [LinearOrder α] {a b : List α} (s t : List α) (h : a.length = b.length) :
    a ++ s < b ++ t ↔ a < b ∨ a = b ∧ s < t := by
  induction a generalizing b with
  | nil =>
    obtain rfl : b = [] := List.length_eq_zero_iff.mp h.symm
    simp
  | cons x a ih =>
    obtain ⟨y, b, rfl⟩ := List.exists_cons_of_length_pos (l := b) (by rw [← h]; exact Nat.succ_pos _)
    have hl : a.length = b.length := Nat.succ.inj h
    rw [List.cons_append, List.cons_append, List.cons_lt_cons_iff, List.cons_lt_cons_iff, ih hl, List.cons.injEq]
    tauto

/-! ## Numbers -/

/-- The last `width` decimal digits of `n`. -/
def decimal : ℕ → ℕ → List Char
  | 0, _ => []
  | width + 1, n => decimal width (n / 10) ++ [(n % 10).digitChar]

@[simp] theorem length_decimal (width n : ℕ) : (decimal width n).length = width := by
  induction width generalizing n with
  | zero => rfl
  | succ width ih => rw [decimal, List.length_append, ih, List.length_singleton]

theorem decimal_zero (width : ℕ) : decimal width 0 = List.replicate width '0' := by
  induction width with
  | zero => rfl
  | succ width ih =>
    rw [decimal, Nat.zero_div, ih, List.replicate_succ', Nat.zero_mod]
    rfl

/-- Zeros in front of the shortest digits. -/
theorem replicate_append_toDigits {width n : ℕ} (hw : 0 < width) (h : n < 10 ^ width) :
    List.replicate (width - (Nat.toDigits 10 n).length) '0' ++ Nat.toDigits 10 n = decimal width n := by
  induction width generalizing n with
  | zero => omega
  | succ width ih =>
    rw [Nat.toDigits_eq_if (by omega)]
    by_cases hn : n < 10
    · rw [if_pos hn, decimal, Nat.div_eq_of_lt hn, Nat.mod_eq_of_lt hn, decimal_zero]
      rfl
    · have hpos : 0 < width := by
        by_contra h0
        obtain rfl : width = 0 := by omega
        omega
      have hdiv : n / 10 < 10 ^ width := by
        rw [pow_succ] at h
        omega
      rw [if_neg hn, decimal, ← ih hpos hdiv, List.length_append, List.length_singleton, Nat.add_sub_add_right,
        List.append_assoc]

theorem digitChar_lt : ∀ a < 10, ∀ b < 10, a.digitChar < b.digitChar ↔ a < b := by decide

theorem digitChar_inj : ∀ a < 10, ∀ b < 10, a.digitChar = b.digitChar → a = b := by decide

theorem decimal_inj {width a b : ℕ} (ha : a < 10 ^ width) (hb : b < 10 ^ width)
    (h : decimal width a = decimal width b) : a = b := by
  induction width generalizing a b with
  | zero => omega
  | succ width ih =>
    rw [pow_succ] at ha hb
    obtain ⟨hhead, hlast⟩ := List.append_inj h (by rw [length_decimal, length_decimal])
    have hdiv : a / 10 = b / 10 := ih (by omega) (by omega) hhead
    have hmod : a % 10 = b % 10 :=
      digitChar_inj _ (Nat.mod_lt _ (by omega)) _ (Nat.mod_lt _ (by omega)) (List.singleton_inj.mp hlast)
    omega

theorem decimal_lt_decimal {width a b : ℕ} (ha : a < 10 ^ width) (hb : b < 10 ^ width) :
    decimal width a < decimal width b ↔ a < b := by
  induction width generalizing a b with
  | zero =>
    have h : ¬ a < b := by omega
    simp [decimal, h]
  | succ width ih =>
    rw [pow_succ] at ha hb
    have hda : a / 10 < 10 ^ width := by omega
    have hdb : b / 10 < 10 ^ width := by omega
    have hdigit := digitChar_lt (a % 10) (Nat.mod_lt _ (by omega)) (b % 10) (Nat.mod_lt _ (by omega))
    rw [decimal, decimal, append_lt_append _ _ (by rw [length_decimal, length_decimal]), ih hda hdb,
      List.cons_lt_cons_iff, hdigit]
    constructor
    · rintro (h | ⟨heq, h | ⟨-, h⟩⟩)
      · omega
      · have := decimal_inj hda hdb heq
        omega
      · exact absurd h (List.not_lt_nil _)
    · intro h
      by_cases hd : a / 10 < b / 10
      · exact .inl hd
      · have hq : a / 10 = b / 10 := by omega
        exact .inr ⟨by rw [hq], .inl (by omega)⟩

/-! ## Reading -/

/-- The number in a text of ASCII digits. -/
def readDigits (text : List Char) : Option ℕ :=
  if text.all Char.isDigit then some (Nat.ofDigitChars 10 text 0) else none

theorem all_isDigit_decimal (width n : ℕ) : (decimal width n).all Char.isDigit = true := by
  have hdigit : ∀ d < 10, d.digitChar.isDigit = true := by decide
  induction width generalizing n with
  | zero => rfl
  | succ width ih =>
    rw [decimal, List.all_append, ih, List.all_cons, hdigit _ (Nat.mod_lt _ (by omega))]
    rfl

theorem ofDigitChars_decimal {width n : ℕ} (h : n < 10 ^ width) :
    Nat.ofDigitChars 10 (decimal width n) 0 = n := by
  have hvalue : ∀ d < 10, d.digitChar.toNat - '0'.toNat = d := by decide
  induction width generalizing n with
  | zero =>
    have : n = 0 := by omega
    rw [this]
    rfl
  | succ width ih =>
    rw [pow_succ] at h
    rw [decimal, Nat.ofDigitChars_append, ih (by omega), Nat.ofDigitChars_cons, Nat.ofDigitChars_nil,
      hvalue _ (Nat.mod_lt _ (by omega))]
    omega

theorem readDigits_decimal {width n : ℕ} (h : n < 10 ^ width) : readDigits (decimal width n) = some n := by
  rw [readDigits, if_pos (all_isDigit_decimal width n), ofDigitChars_decimal h]

/-! ## Records -/

/-- Numbers of fixed widths, each followed by its text. -/
def record : List (ℕ × List Char) → List ℕ → List Char
  | (width, sep) :: fields, n :: ns => decimal width n ++ (sep ++ record fields ns)
  | _, _ => []

/-- One number a field, short enough for its width. -/
def Fits (fields : List (ℕ × List Char)) (ns : List ℕ) : Prop := List.Forall₂ (fun f n => n < 10 ^ f.1) fields ns

theorem record_lt_record {fields : List (ℕ × List Char)} {ns ms : List ℕ} (hn : Fits fields ns)
    (hm : Fits fields ms) : record fields ns < record fields ms ↔ ns < ms := by
  induction hn generalizing ms with
  | nil =>
    obtain rfl : ms = [] := List.forall₂_nil_left_iff.mp hm
    simp [record]
  | @cons f n fields ns hlt _ ih =>
    obtain ⟨m, ms, hmlt, hrest, rfl⟩ := List.forall₂_cons_left_iff.mp hm
    rw [record, record, append_lt_append _ _ (by rw [length_decimal, length_decimal]), append_lt_append _ _ rfl,
      decimal_lt_decimal hlt hmlt, ih hrest, List.cons_lt_cons_iff]
    constructor
    · rintro (h | ⟨heq, h | ⟨-, h⟩⟩)
      · exact .inl h
      · exact absurd h (lt_irrefl _)
      · exact .inr ⟨decimal_inj hlt hmlt heq, h⟩
    · rintro (h | ⟨rfl, h⟩)
      · exact .inl h
      · exact .inr ⟨rfl, .inr ⟨rfl, h⟩⟩

/-- The numbers of a record, and what follows it. -/
def readRecord : List (ℕ × List Char) → List Char → Option (List ℕ × List Char)
  | [], text => some ([], text)
  | (width, sep) :: fields, text => do
    let n ← readDigits (text.take width)
    guard ((text.take width).length = width ∧ (text.drop width).take sep.length = sep)
    let (ns, rest) ← readRecord fields (text.drop (width + sep.length))
    return (n :: ns, rest)

theorem readRecord_record {fields : List (ℕ × List Char)} {ns : List ℕ} (h : Fits fields ns) (rest : List Char) :
    readRecord fields (record fields ns ++ rest) = some (ns, rest) := by
  induction h with
  | nil => rfl
  | @cons f n fields ns hlt _ ih =>
    obtain ⟨width, sep⟩ := f
    have htake : (decimal width n ++ (sep ++ (record fields ns ++ rest))).take width = decimal width n :=
      List.take_left' (length_decimal _ _)
    have hdrop : (decimal width n ++ (sep ++ (record fields ns ++ rest))).drop width =
        sep ++ (record fields ns ++ rest) := List.drop_left' (length_decimal _ _)
    have hrest : (decimal width n ++ (sep ++ (record fields ns ++ rest))).drop (width + sep.length) =
        record fields ns ++ rest := by
      rw [← List.drop_drop, hdrop, List.drop_left]
    rw [record, List.append_assoc, List.append_assoc, readRecord, htake, hdrop, hrest, ih, readDigits_decimal hlt,
      length_decimal, List.take_left]
    simp

end Xyberos
