import Mathlib.Data.List.Lex
import Mathlib.Data.List.TakeWhile
import Mathlib.Tactic.Tauto
import Xyberos.Json.Text
import Xyberos.Python

/-!
# Xyberos.Ai.Ollama — which release of the service is too old

`_version_tuple` and `_version_is_below` of `ai/ollama.py`.  What the interpreter knows of characters is a parameter:
`str.isdigit` accepts more of them than `int` does.
-/

set_option autoImplicit false

namespace Xyberos.Ai

open Json

/-! ## Releases -/

/-- The components of two releases agree, the shorter padded with zeros. -/
def SameRelease (r f : List ℕ) : Prop := ∀ i : ℕ, r.getD i 0 = f.getD i 0

/-- The first component in which two releases differ, the shorter padded with zeros, is smaller. -/
def OlderRelease (r f : List ℕ) : Prop := ∃ i : ℕ, (∀ j < i, r.getD j 0 = f.getD j 0) ∧ r.getD i 0 < f.getD i 0

theorem olderRelease_cons (a b : ℕ) (r f : List ℕ) :
    OlderRelease (a :: r) (b :: f) ↔ a < b ∨ a = b ∧ OlderRelease r f := by
  constructor
  · rintro ⟨i, hsame, hlt⟩
    cases i with
    | zero => exact .inl hlt
    | succ i => exact .inr ⟨hsame 0 (Nat.succ_pos i), i, fun j hj => hsame (j + 1) (Nat.succ_lt_succ hj), hlt⟩
  · rintro (hlt | ⟨rfl, i, hsame, hlt⟩)
    · exact ⟨0, nofun, hlt⟩
    · refine ⟨i + 1, ?_, hlt⟩
      intro j hj
      cases j with
      | zero => rfl
      | succ j => exact hsame j (by omega)

theorem olderRelease_nil_cons (b : ℕ) (f : List ℕ) : OlderRelease [] (b :: f) ↔ 0 < b ∨ 0 = b ∧ OlderRelease [] f := by
  have hnil : ∀ g : List ℕ, OlderRelease [] g ↔ OlderRelease [0] g := by
    intro g
    have hget : ∀ i : ℕ, ([0] : List ℕ).getD i 0 = ([] : List ℕ).getD i 0 := by
      rintro (_ | i) <;> rfl
    unfold OlderRelease
    simp only [hget]
  rw [hnil, olderRelease_cons]

theorem not_olderRelease_nil (r : List ℕ) : ¬ OlderRelease r [] := by
  rintro ⟨i, -, hlt⟩
  rw [List.getD_nil] at hlt
  omega

theorem OlderRelease.not_same {r f : List ℕ} (h : OlderRelease r f) : ¬ SameRelease r f := by
  obtain ⟨i, -, hlt⟩ := h
  intro hsame
  rw [hsame i] at hlt
  exact lt_irrefl _ hlt

theorem sameRelease_append (r : List ℕ) (n : ℕ) : SameRelease r (r ++ List.replicate n 0) := by
  intro i
  simp only [List.getD_eq_getElem?_getD, List.getElem?_append, List.getElem?_replicate]
  by_cases hi : i < r.length
  · rw [if_pos hi]
  · rw [if_neg hi, List.getElem?_eq_none (by omega)]
    split_ifs <;> rfl

/-- Tuples order releases, except that a release is below itself with zeros behind it. -/
theorem lt_iff_olderRelease (r f : List ℕ) :
    r < f ↔ OlderRelease r f ∨ ∃ n, f = r ++ List.replicate (n + 1) 0 := by
  induction f generalizing r with
  | nil => simp [not_olderRelease_nil]
  | cons b f ih =>
    cases r with
    | nil =>
      refine ⟨fun _ => ?_, fun _ => List.nil_lt_cons b f⟩
      rw [olderRelease_nil_cons]
      rcases Nat.eq_zero_or_pos b with rfl | hb
      · by_cases hf : f = []
        · exact .inr ⟨0, by rw [hf]; rfl⟩
        · have hlt : [] < f := by
            obtain ⟨c, f, rfl⟩ := List.exists_cons_of_ne_nil hf
            exact List.nil_lt_cons c f
          rcases (ih []).mp hlt with holder | ⟨n, hn⟩
          · exact .inl (.inr ⟨rfl, holder⟩)
          · exact .inr ⟨n + 1, by rw [hn]; rfl⟩
      · exact .inl (.inl hb)
    | cons a r =>
      rw [List.cons_lt_cons_iff, olderRelease_cons, ih]
      simp only [List.cons_append, List.cons.injEq, exists_and_left, eq_comm (a := b)]
      tauto

/-! ## Characters -/

/-- What the interpreter knows of characters, and its limit for `int`. -/
structure Characters where
  /-- what `str.strip` removes -/
  isSpace : CodePoint → Bool
  /-- `str.isdigit` of one character -/
  isDigit : CodePoint → Bool
  /-- the digit `int` reads, for a decimal character -/
  decimal : CodePoint → Option ℕ
  /-- `sys.get_int_max_str_digits()`, 0 for no limit -/
  maxStrDigits : ℕ
  isDigit_of_decimal : ∀ c d, decimal c = some d → isDigit c = true

/-- The zeros of the decimal digits in Unicode 14; the nine others follow each. -/
def decimalZeros : List ℕ :=
  [0x30, 0x660, 0x6f0, 0x7c0, 0x966, 0x9e6, 0xa66, 0xae6, 0xb66, 0xbe6, 0xc66, 0xce6, 0xd66, 0xde6, 0xe50,
   0xed0, 0xf20, 0x1040, 0x1090, 0x17e0, 0x1810, 0x1946, 0x19d0, 0x1a80, 0x1a90, 0x1b50, 0x1bb0, 0x1c40,
   0x1c50, 0xa620, 0xa8d0, 0xa900, 0xa9d0, 0xa9f0, 0xaa50, 0xabf0, 0xff10, 0x104a0, 0x10d30, 0x11066, 0x110f0,
   0x11136, 0x111d0, 0x112f0, 0x11450, 0x114d0, 0x11650, 0x116c0, 0x11730, 0x118e0, 0x11950, 0x11c50, 0x11d50,
   0x11da0, 0x16a60, 0x16ac0, 0x16b50, 0x1d7ce, 0x1d7d8, 0x1d7e2, 0x1d7ec, 0x1d7f6, 0x1e140, 0x1e2f0, 0x1e950,
   0x1fbf0]

/-- The digits in Unicode 14 that are not decimal, such as `²`. -/
def otherDigits : List (ℕ × ℕ) :=
  [(0xb2, 0xb3), (0xb9, 0xb9), (0x1369, 0x1371), (0x19da, 0x19da), (0x2070, 0x2070), (0x2074, 0x2079),
   (0x2080, 0x2089), (0x2460, 0x2468), (0x2474, 0x247c), (0x2488, 0x2490), (0x24ea, 0x24ea), (0x24f5, 0x24fd),
   (0x24ff, 0x24ff), (0x2776, 0x277e), (0x2780, 0x2788), (0x278a, 0x2792), (0x10a40, 0x10a43),
   (0x10e60, 0x10e68), (0x11052, 0x1105a), (0x1f100, 0x1f10a)]

def decimalOf (c : CodePoint) : Option ℕ :=
  (decimalZeros.find? fun z => z ≤ c.val ∧ c.val < z + 10).map fun z => c.val - z

/-- An interpreter with Unicode 14 and the default limit. -/
def unicode14 : Characters where
  isSpace c := (c.val < 0xd800 || 0xdfff < c.val) && Xyberos.isSpace (Char.ofNat c.val)
  isDigit c := (decimalOf c).isSome || otherDigits.any fun r => r.1 ≤ c.val && c.val ≤ r.2
  decimal := decimalOf
  maxStrDigits := 4300
  isDigit_of_decimal := by
    intro c d h
    simp [h]

namespace Characters

variable (py : Characters)

/-- `s.strip()`. -/
def strip (s : Str) : Str := ((s.dropWhile py.isSpace).reverse.dropWhile py.isSpace).reverse

/-- `part.isdigit()`. -/
def isDigits (part : Str) : Bool := !part.isEmpty && part.all py.isDigit

/-- The number of decimal characters. -/
def readDecimal (part : Str) : Option ℕ :=
  (part.mapM py.decimal).map fun digits => digits.foldl (fun n d => 10 * n + d) 0

/-- `int(part)` of a text of digits; the literal is left out of the message. -/
def int (part : Str) : Except Exc ℕ :=
  let digits := (part.takeWhile fun c => (py.decimal c).isSome).length
  if py.maxStrDigits ≠ 0 ∧ py.maxStrDigits < digits then
    .error (valueError (s!"Exceeds the limit ({py.maxStrDigits} digits) for integer string conversion: " ++
      s!"value has {digits} digits; use sys.set_int_max_str_digits() to increase the limit"))
  else
    match py.readDecimal part with
    | some n => .ok n
    | none => .error (valueError "invalid literal for int() with base 10")

/-- The head of `_version_tuple`: what comes before a pre-release or build metadata. -/
def head (value : Str) : Str :=
  py.strip ((value.takeWhile fun c => c ≠ codeOf '-').takeWhile fun c => c ≠ codeOf '+')

/-- `head.split(".")`. -/
def parts (value : Str) : List Str := (py.head value).splitOn (codeOf '.')

/-- `_version_tuple`. -/
def versionTuple (value : Str) : Except Exc (Option (List ℕ)) :=
  if py.parts value = [] ∨ ¬ (py.parts value).all py.isDigits then .ok none
  else do
    let numbers ← (py.parts value).mapM py.int
    return some numbers

/-- `_version_is_below`. -/
def versionIsBelow (reported floor : Str) : Except Exc Bool := do
  let left ← py.versionTuple reported
  let right ← py.versionTuple floor
  match left, right with
  | some left, some right => return left < right
  | _, _ => return false

/-! ## What the comparison promises -/

/-- The dotted numeric release part of a version. -/
def release (value : Str) : Option (List ℕ) :=
  (py.parts value).mapM fun part => if part = [] then none else py.readDecimal part

/-- `reported` is below `floor`. -/
def Below (reported floor : Str) : Prop := py.versionIsBelow reported floor = .ok true

/-- Versions that differ in a pre-release suffix, in build metadata or in trailing zero components only. -/
def SameVersion (a b : Str) : Prop :=
  py.head a = py.head b ∨ ∃ r ∈ py.release a, ∃ s ∈ py.release b, SameRelease r s

/-- Comparing two versions never raises, finds a smaller release only, and is a strict order of the releases. -/
structure Compares (reported floor : Str) : Prop where
  answers : ∃ answer, py.versionIsBelow reported floor = .ok answer
  older : py.Below reported floor → ∃ r ∈ py.release reported, ∃ f ∈ py.release floor, OlderRelease r f
  same : py.SameVersion reported floor → ¬ py.Below reported floor
  irreflexive : ¬ py.Below reported reported
  transitive : ∀ third, py.Below reported floor → py.Below floor third → py.Below reported third
  total : ∀ r ∈ py.release reported, ∀ f ∈ py.release floor, ¬ SameRelease r f →
    py.Below reported floor ∨ py.Below floor reported

/-- `int` reads every component of a version whose components are all digits. -/
def Readable (value : Str) : Prop :=
  (py.parts value).all py.isDigits →
    ∀ part ∈ py.parts value, (∀ c ∈ part, (py.decimal c).isSome) ∧
      (py.maxStrDigits = 0 ∨ part.length ≤ py.maxStrDigits)

/-- `floor` is `reported` with further components, all zero. -/
def Shortened (reported floor : Str) : Prop :=
  ∃ r ∈ py.release reported, ∃ n, py.release floor = some (r ++ List.replicate (n + 1) 0)

/-! ### Components -/

theorem readDecimal_isSome {part : Str} : (py.readDecimal part).isSome ↔ ∀ c ∈ part, (py.decimal c).isSome := by
  have hmap : ∀ l : Str, (l.mapM py.decimal).isSome ↔ ∀ c ∈ l, (py.decimal c).isSome := by
    intro l
    induction l with
    | nil => simp
    | cons c l ih =>
      rw [List.mapM_cons, List.forall_mem_cons, ← ih]
      cases py.decimal c with
      | none => simp
      | some d => cases l.mapM py.decimal <;> simp
  rw [readDecimal, Option.isSome_map]
  exact hmap part

/-- `int` reads the decimals that are not too many, and raises a `ValueError` otherwise. -/
theorem int_eq (part : Str) :
    (∃ n, py.readDecimal part = some n ∧ py.int part = .ok n ∧
      (py.maxStrDigits = 0 ∨ part.length ≤ py.maxStrDigits)) ∨
    (∃ message, py.int part = .error (valueError message)) ∧
      ¬ ((∀ c ∈ part, (py.decimal c).isSome) ∧ (py.maxStrDigits = 0 ∨ part.length ≤ py.maxStrDigits)) := by
  unfold int
  by_cases hall : ∀ c ∈ part, (py.decimal c).isSome
  · obtain ⟨n, hn⟩ := Option.isSome_iff_exists.mp (py.readDecimal_isSome.mpr hall)
    have hwhole : part.takeWhile (fun c => (py.decimal c).isSome) = part :=
      List.takeWhile_eq_self_iff.mpr hall
    simp only [hwhole, hn]
    split_ifs with hlimit
    · exact .inr ⟨⟨_, rfl⟩, fun h => by omega⟩
    · exact .inl ⟨n, rfl, rfl, by omega⟩
  · have hnone : py.readDecimal part = none := by
      rw [← Option.not_isSome_iff_eq_none, py.readDecimal_isSome]
      exact hall
    simp only [hnone]
    split_ifs with hlimit
    · exact .inr ⟨⟨_, rfl⟩, fun h => hall h.1⟩
    · exact .inr ⟨⟨_, rfl⟩, fun h => hall h.1⟩

/-- One component of a release. -/
def component (part : Str) : Option ℕ := if part = [] then none else py.readDecimal part

theorem component_eq_none {part : Str} (h : py.isDigits part = false) : py.component part = none := by
  unfold component
  split_ifs with hnil
  · rfl
  · rw [← Option.not_isSome_iff_eq_none, py.readDecimal_isSome]
    intro hall
    have hdigits : py.isDigits part = true := by
      have hne : part.isEmpty = false := by simpa using hnil
      rw [isDigits, hne, Bool.not_false, Bool.true_and, List.all_eq_true]
      intro c hc
      obtain ⟨d, hd⟩ := Option.isSome_iff_exists.mp (hall c hc)
      exact py.isDigit_of_decimal c d hd
    rw [h] at hdigits
    cases hdigits

theorem mapM_component_eq_none {l : List Str} (h : l.all py.isDigits = false) : l.mapM py.component = none := by
  induction l with
  | nil => simp at h
  | cons part l ih =>
    rw [List.mapM_cons]
    by_cases hpart : py.isDigits part = true
    · have hrest : l.all py.isDigits = false := by simpa [hpart] using h
      rw [ih hrest]
      cases py.component part <;> rfl
    · rw [py.component_eq_none (by simpa using hpart)]
      rfl

/-- `int` over components of digits: all are read, or one raises. -/
theorem mapM_int {l : List Str} (h : l.all py.isDigits = true) :
    (∃ ns, l.mapM py.component = some ns ∧ l.mapM py.int = .ok ns ∧
      ∀ part ∈ l, (∀ c ∈ part, (py.decimal c).isSome) ∧ (py.maxStrDigits = 0 ∨ part.length ≤ py.maxStrDigits)) ∨
    (∃ message, l.mapM py.int = .error (valueError message)) ∧
      ¬ ∀ part ∈ l, (∀ c ∈ part, (py.decimal c).isSome) ∧
        (py.maxStrDigits = 0 ∨ part.length ≤ py.maxStrDigits) := by
  induction l with
  | nil => exact .inl ⟨[], rfl, rfl, nofun⟩
  | cons part l ih =>
    rw [List.all_cons, Bool.and_eq_true] at h
    obtain ⟨hpart, hl⟩ := h
    rw [List.mapM_cons, List.mapM_cons, List.forall_mem_cons]
    rcases py.int_eq part with ⟨n, hn, hok, hshort⟩ | ⟨⟨message, herror⟩, hnot⟩
    · have hdecimal := py.readDecimal_isSome.mp (Option.isSome_of_eq_some hn)
      have hcomponent : py.component part = some n := by
        have hne : part ≠ [] := by
          rintro rfl
          cases hpart
        rw [component, if_neg hne, hn]
      rw [hok, hcomponent]
      rcases ih hl with ⟨ns, hns, hints, hread⟩ | ⟨⟨message, herror⟩, hnot⟩
      · rw [hns, hints]
        exact .inl ⟨n :: ns, rfl, rfl, ⟨hdecimal, hshort⟩, hread⟩
      · rw [herror]
        exact .inr ⟨⟨message, rfl⟩, fun h => hnot h.2⟩
    · rw [herror]
      exact .inr ⟨⟨message, rfl⟩, fun h => hnot h.1⟩

/-! ### Versions -/

/-- A version is read as its release, or as none; one that cannot be read raises a `ValueError`. -/
theorem versionTuple_eq (value : Str) :
    py.Readable value ∧ py.versionTuple value = .ok (py.release value) ∨
    ¬ py.Readable value ∧ ∃ message, py.versionTuple value = .error (valueError message) := by
  have hne : py.parts value ≠ [] := List.splitOn_ne_nil _ _
  have hrelease : py.release value = (py.parts value).mapM py.component := rfl
  unfold versionTuple
  by_cases hall : (py.parts value).all py.isDigits = true
  · rw [if_neg (by simp [hne, hall])]
    rcases py.mapM_int hall with ⟨ns, hns, hints, hread⟩ | ⟨⟨message, herror⟩, hnot⟩
    · rw [hrelease, hns, hints]
      exact .inl ⟨fun _ => hread, rfl⟩
    · rw [herror]
      exact .inr ⟨fun h => hnot (h hall), message, rfl⟩
  · rw [if_pos (.inr hall), hrelease, py.mapM_component_eq_none (by simpa using hall)]
    exact .inl ⟨fun h => absurd h hall, rfl⟩

variable {py}

theorem Readable.versionTuple {value : Str} (h : py.Readable value) :
    py.versionTuple value = .ok (py.release value) := by
  rcases py.versionTuple_eq value with ⟨-, heq⟩ | ⟨hnot, -⟩
  · exact heq
  · exact absurd h hnot

theorem readable_of_ok {value : Str} {numbers : Option (List ℕ)} (h : py.versionTuple value = .ok numbers) :
    py.Readable value := by
  rcases py.versionTuple_eq value with ⟨hread, -⟩ | ⟨-, message, herror⟩
  · exact hread
  · rw [herror] at h
    cases h

/-- The comparison of two versions that can be read. -/
theorem versionIsBelow_eq {reported floor : Str} (hr : py.Readable reported) (hf : py.Readable floor) :
    py.versionIsBelow reported floor =
      .ok (decide (∃ r ∈ py.release reported, ∃ f ∈ py.release floor, r < f)) := by
  rw [versionIsBelow, hr.versionTuple, hf.versionTuple]
  cases py.release reported with
  | none => simp; rfl
  | some r =>
    cases py.release floor with
    | none => simp; rfl
    | some f => simp; rfl

theorem readable_of_answer {reported floor : Str} {answer : Bool}
    (h : py.versionIsBelow reported floor = .ok answer) : py.Readable reported ∧ py.Readable floor := by
  rw [versionIsBelow] at h
  cases hr : py.versionTuple reported with
  | error e =>
    rw [hr] at h
    cases h
  | ok left =>
    cases hf : py.versionTuple floor with
    | error e =>
      rw [hr, hf] at h
      cases h
    | ok right => exact ⟨readable_of_ok hr, readable_of_ok hf⟩

/-- `reported` is below `floor` when both have releases and the tuples are in order. -/
theorem below_iff {reported floor : Str} :
    py.Below reported floor ↔ py.Readable reported ∧ py.Readable floor ∧
      ∃ r ∈ py.release reported, ∃ f ∈ py.release floor, r < f := by
  constructor
  · intro h
    obtain ⟨hr, hf⟩ := readable_of_answer h
    rw [Below, versionIsBelow_eq hr hf, Except.ok.injEq, decide_eq_true_eq] at h
    exact ⟨hr, hf, h⟩
  · rintro ⟨hr, hf, h⟩
    rw [Below, versionIsBelow_eq hr hf, decide_eq_true h]

theorem head_eq {a b : Str} (h : py.head a = py.head b) : py.release a = py.release b := by
  rw [release, release, parts, parts, h]

/-- Comparing two versions keeps its promise exactly when `int` reads the components of both, and the floor is not the
reported release with zeros behind it. -/
theorem compares_iff (py : Characters) (reported floor : Str) :
    py.Compares reported floor ↔
      py.Readable reported ∧ py.Readable floor ∧ ¬ py.Shortened reported floor := by
  constructor
  · intro h
    obtain ⟨answer, hanswer⟩ := h.answers
    obtain ⟨hr, hf⟩ := readable_of_answer hanswer
    refine ⟨hr, hf, ?_⟩
    rintro ⟨r, hrelease, n, hfloor⟩
    have hbelow : py.Below reported floor :=
      below_iff.mpr ⟨hr, hf, r, hrelease, _, hfloor, (lt_iff_olderRelease r _).mpr (.inr ⟨n, rfl⟩)⟩
    exact h.same (.inr ⟨r, hrelease, _, hfloor, sameRelease_append r (n + 1)⟩) hbelow
  · rintro ⟨hr, hf, hshort⟩
    -- below is older: the other way to be below is ruled out
    have holder : ∀ {r f : List ℕ}, r ∈ py.release reported → f ∈ py.release floor → r < f → OlderRelease r f := by
      intro r f hrr hff hlt
      rcases (lt_iff_olderRelease r f).mp hlt with h | ⟨n, rfl⟩
      · exact h
      · exact absurd ⟨r, hrr, n, hff⟩ hshort
    refine ⟨⟨_, versionIsBelow_eq hr hf⟩, ?_, ?_, ?_, ?_, ?_⟩
    · intro hbelow
      obtain ⟨-, -, r, hrr, f, hff, hlt⟩ := below_iff.mp hbelow
      exact ⟨r, hrr, f, hff, holder hrr hff hlt⟩
    · intro hsame hbelow
      obtain ⟨-, -, r, hrr, f, hff, hlt⟩ := below_iff.mp hbelow
      rcases hsame with hhead | ⟨r', hr', f', hf', hsame⟩
      · rw [head_eq hhead] at hrr
        obtain rfl := Option.some.inj (hrr.symm.trans hff)
        exact lt_irrefl _ hlt
      · obtain rfl := Option.some.inj (hrr.symm.trans hr')
        obtain rfl := Option.some.inj (hff.symm.trans hf')
        exact (holder hrr hff hlt).not_same hsame
    · intro hbelow
      obtain ⟨-, -, r, hrr, r', hr', hlt⟩ := below_iff.mp hbelow
      obtain rfl := Option.some.inj (hrr.symm.trans hr')
      exact lt_irrefl _ hlt
    · intro third hbelow hthird
      obtain ⟨-, -, r, hrr, f, hff, hlt⟩ := below_iff.mp hbelow
      obtain ⟨-, ht, f', hf', t, htt, hlt'⟩ := below_iff.mp hthird
      obtain rfl := Option.some.inj (hff.symm.trans hf')
      exact below_iff.mpr ⟨hr, ht, r, hrr, t, htt, lt_trans hlt hlt'⟩
    · intro r hrr f hff hsame
      rcases lt_trichotomy r f with hlt | rfl | hlt
      · exact .inl (below_iff.mpr ⟨hr, hf, r, hrr, f, hff, hlt⟩)
      · exact absurd (fun _ => rfl) hsame
      · exact .inr (below_iff.mpr ⟨hf, hr, f, hff, r, hrr, hlt⟩)

/-- `0.5` is called older than `0.5.0`, and `²` raises. -/
theorem not_compares_shortened :
    ¬ unicode14.Compares (Str.ofString "0.5") (Str.ofString "0.5.0") ∧
      ¬ unicode14.Compares (Str.ofString "²") (Str.ofString "0.5.0") := by
  refine ⟨fun h => h.same (.inr ⟨[0, 5], ?_, [0, 5, 0], ?_, sameRelease_append [0, 5] 1⟩) ?_, fun h => ?_⟩
  · decide +kernel
  · decide +kernel
  · show unicode14.versionIsBelow _ _ = _
    decide +kernel
  · obtain ⟨answer, hanswer⟩ := h.answers
    have hraise : unicode14.versionIsBelow (Str.ofString "²") (Str.ofString "0.5.0") =
        .error (valueError "invalid literal for int() with base 10") := by decide +kernel
    rw [hraise] at hanswer
    cases hanswer

end Characters

end Xyberos.Ai
