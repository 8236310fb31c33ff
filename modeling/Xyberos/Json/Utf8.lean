import Xyberos.Json.Text
import Xyberos.Python
import Mathlib.Data.List.Infix

/-!
# Xyberos.Json.Utf8 — texts and bytes

UTF-8, as `str.encode` writes it, and the encoding of file names, `os.fsencode` and `os.fsdecode`.  There a byte that
belongs to no character is read as an escape, one of the surrogates from `0xdc80` to `0xdcff`, and an escape is written
as that byte.

Every name is written back as it was read (`nameable_fsdecode`).  A text is read back as it was written exactly when its
surrogates are escapes and no run of them spells out a character (`fsdecode_iff`).
-/

set_option autoImplicit false

namespace Xyberos.Json

abbrev Byte := Fin 256

def Byte.ofNat (n : ℕ) : Byte := Fin.ofNat 256 n

def IsSurrogate (c : CodePoint) : Prop := 0xd800 ≤ c.val ∧ c.val ≤ 0xdfff

instance (c : CodePoint) : Decidable (IsSurrogate c) := inferInstanceAs (Decidable (_ ∧ _))

def IsAscii (s : Str) : Prop := ∀ c ∈ s, c.val < 128

instance (s : Str) : Decidable (IsAscii s) := List.decidableBAll (fun c : CodePoint => c.val < 128) s

/-! ## UTF-8 -/

/-- A text that can be written in UTF-8. -/
def Encodable (s : Str) : Prop := ∀ c ∈ s, ¬ IsSurrogate c

-- the code points of the text are looked at, not all there are
instance (s : Str) : Decidable (Encodable s) := List.decidableBAll (fun c => ¬ IsSurrogate c) s

/-- The UTF-8 bytes of a code point. -/
def utf8Bytes (c : CodePoint) : List Byte :=
  let n := c.val
  if n < 0x80 then [Byte.ofNat n]
  else if n < 0x800 then [Byte.ofNat (0xc0 + n / 0x40), Byte.ofNat (0x80 + n % 0x40)]
  else if n < 0x10000 then
    [Byte.ofNat (0xe0 + n / 0x1000), Byte.ofNat (0x80 + n / 0x40 % 0x40), Byte.ofNat (0x80 + n % 0x40)]
  else [Byte.ofNat (0xf0 + n / 0x40000), Byte.ofNat (0x80 + n / 0x1000 % 0x40),
    Byte.ofNat (0x80 + n / 0x40 % 0x40), Byte.ofNat (0x80 + n % 0x40)]

/-- `UnicodeEncodeError` for the surrogates `run`, which stand at position `start`. -/
def unicodeEncodeError (start : ℕ) (run : Str) : Exc :=
  ⟨⟨"UnicodeEncodeError", ["UnicodeError", "ValueError", "Exception", "BaseException"]⟩,
    match run with
    | [c] => s!"'utf-8' codec can't encode character '\\u{String.ofList (Nat.toDigits 16 c.val)}' in position " ++
        s!"{start}: surrogates not allowed"
    | _ => s!"'utf-8' codec can't encode characters in position {start}-{start + run.length - 1}: surrogates not allowed"⟩

/-- `s.encode("utf-8")`. -/
def encodeUtf8 (s : Str) : Except Exc (List Byte) :=
  if Encodable s then .ok (s.flatMap utf8Bytes)
  else
    let before := s.takeWhile fun c => ¬ IsSurrogate c
    .error (unicodeEncodeError before.length ((s.drop before.length).takeWhile fun c => IsSurrogate c))

/-! ## File names -/

/-- A surrogate that stands for a byte. -/
def IsEscape (c : CodePoint) : Prop := 0xdc80 ≤ c.val ∧ c.val ≤ 0xdcff

instance (c : CodePoint) : Decidable (IsEscape c) := inferInstanceAs (Decidable (_ ∧ _))

/-- The escape of a byte from `0x80` on. -/
def escapeOf (b : Byte) : CodePoint := CodePoint.ofNat (0xdc00 + b.val)

/-- The bytes of a code point in a file name. -/
def nameBytes (c : CodePoint) : List Byte := if IsEscape c then [Byte.ofNat (c.val - 0xdc00)] else utf8Bytes c

/-- A text that can be written as a file name. -/
def Nameable (s : Str) : Prop := ∀ c ∈ s, IsSurrogate c → IsEscape c

instance (s : Str) : Decidable (Nameable s) := List.decidableBAll (fun c => IsSurrogate c → IsEscape c) s

/-- `os.fsencode`. -/
def fsencode (s : Str) : Except Exc (List Byte) :=
  if Nameable s then .ok (s.flatMap nameBytes)
  else
    -- the error is about the whole run of surrogates from the first that is no escape
    let before := s.takeWhile fun c => IsSurrogate c → IsEscape c
    .error (unicodeEncodeError before.length ((s.drop before.length).takeWhile fun c => IsSurrogate c))

/-- The bits of a continuation byte at this place. -/
def continuation (bytes : List Byte) (i : ℕ) : ℕ := (bytes.getD i 0).val % 0x40

/-- The number that a first byte and the bytes after it make. -/
def candidate (first : Byte) (rest : List Byte) : ℕ :=
  if first.val < 0x80 then first.val
  else if first.val < 0xe0 then first.val % 0x20 * 0x40 + continuation rest 0
  else if first.val < 0xf0 then first.val % 0x10 * 0x1000 + continuation rest 0 * 0x40 + continuation rest 1
  else first.val % 8 * 0x40000 + continuation rest 0 * 0x1000 + continuation rest 1 * 0x40 + continuation rest 2

/-- The character that the first bytes spell, if they spell one: no surrogate, and in its shortest form. -/
def spelled : List Byte → Option CodePoint
  | [] => none
  | first :: rest =>
    let c := CodePoint.ofNat (candidate first rest)
    if ¬ IsSurrogate c ∧ utf8Bytes c <+: first :: rest then some c else none

/-- The loop of `os.fsdecode`, by the number of bytes that still belong to the last character. -/
def fsdecodeFrom : ℕ → List Byte → Str
  | _, [] => []
  | n + 1, _ :: bytes => fsdecodeFrom n bytes
  | 0, b :: bytes =>
    match spelled (b :: bytes) with
    | some c => c :: fsdecodeFrom ((utf8Bytes c).length - 1) bytes
    | none => escapeOf b :: fsdecodeFrom 0 bytes

/-- `os.fsdecode`. -/
def fsdecode (bytes : List Byte) : Str := fsdecodeFrom 0 bytes

/-- A text that is read back as it is written: its surrogates are escapes, and no run of them spells out a character. -/
structure Legible (s : Str) : Prop where
  nameable : Nameable s
  unspelled : ∀ c, ¬ IsSurrogate c → 0x80 ≤ c.val → ¬ (utf8Bytes c).map escapeOf <:+: s

/-! ### Characters -/

section Text

variable {s : Str}

theorem encodable_ofString (text : String) : Encodable (Str.ofString text) := by
  intro c hc hs
  obtain ⟨x, -, rfl⟩ := List.mem_map.mp hc
  have hvalid : x.toNat < 0xd800 ∨ 0xdfff < x.toNat ∧ x.toNat < 0x110000 := x.valid
  rw [IsSurrogate, codeOf_val] at hs
  omega

theorem IsAscii.encodable (h : IsAscii s) : Encodable s := by
  intro c hc hs
  have := h c hc
  rw [IsSurrogate] at hs
  omega

/-- A string without surrogates is that of its characters. -/
theorem ofString_textOf (h : Encodable s) : Str.ofString (textOf s) = s := by
  rw [Str.ofString, textOf, String.toList_ofList, List.map_map]
  conv_rhs => rw [← List.map_id s]
  refine List.map_congr_left fun c hc => ?_
  have hvalid : c.val.isValidChar := by
    have hc' := h c hc
    rw [IsSurrogate] at hc'
    rw [Nat.isValidChar]
    omega
  refine Fin.ext ?_
  rw [Function.comp_apply, codeOf_val, Char.ofNat, dif_pos hvalid]
  rfl

theorem isAscii_ofString {text : String} : IsAscii (Str.ofString text) ↔ ∀ c ∈ text.toList, c.toNat < 128 := by
  rw [IsAscii, Str.ofString, List.forall_mem_map]
  simp only [codeOf_val]

end Text

/-! ### One character -/

section Character

variable {c d : CodePoint} {b : Byte} {bytes rest : List Byte}

theorem Byte.val_ofNat {n : ℕ} (h : n < 256) : (Byte.ofNat n).val = n := Nat.mod_eq_of_lt h

theorem IsEscape.isSurrogate (h : IsEscape c) : IsSurrogate c :=
  ⟨(show 0xd800 ≤ 0xdc80 by omega).trans h.1, h.2.trans (by omega)⟩

theorem escapeOf_val (b : Byte) : (escapeOf b).val = 0xdc00 + b.val := CodePoint.val_ofNat (by omega)

theorem isSurrogate_escapeOf (b : Byte) : IsSurrogate (escapeOf b) := by
  rw [IsSurrogate, escapeOf_val]
  omega

theorem isEscape_escapeOf (h : 0x80 ≤ b.val) : IsEscape (escapeOf b) := by
  rw [IsEscape, escapeOf_val]
  omega

theorem escapeOf_injective : Function.Injective escapeOf := by
  intro b b' h
  have hval := congrArg Fin.val h
  rw [escapeOf_val, escapeOf_val] at hval
  exact Fin.ext (by omega)

theorem nameBytes_escapeOf (h : 0x80 ≤ b.val) : nameBytes (escapeOf b) = [b] := by
  rw [nameBytes, if_pos (isEscape_escapeOf h), escapeOf_val, Nat.add_sub_cancel_left]
  exact congrArg (fun b => [b]) (Fin.ext (Byte.val_ofNat b.isLt))

theorem nameBytes_of_not_surrogate (h : ¬ IsSurrogate c) : nameBytes c = utf8Bytes c :=
  if_neg fun he => h he.isSurrogate

/-- An escape is that of a byte. -/
theorem exists_escapeOf (h : IsEscape c) : ∃ b, 0x80 ≤ b.val ∧ escapeOf b = c := by
  have hlow := h.1
  have hhigh := h.2
  refine ⟨Byte.ofNat (c.val - 0xdc00), ?_, Fin.ext ?_⟩
  · rw [Byte.val_ofNat (by omega)]
    omega
  · rw [escapeOf_val, Byte.val_ofNat (by omega)]
    omega

/-- A character is one byte below `0x80`, or a first byte from `0xc0` on and continuation bytes. -/
theorem utf8Bytes_cases (c : CodePoint) :
    (c.val < 0x80 ∧ utf8Bytes c = [Byte.ofNat c.val]) ∨
    (0x80 ≤ c.val ∧ ∃ first rest, utf8Bytes c = first :: rest ∧ 0xc0 ≤ first.val ∧
      ∀ b ∈ rest, 0x80 ≤ b.val ∧ b.val < 0xc0) := by
  have hlt : c.val < 0x110000 := c.isLt
  unfold utf8Bytes
  dsimp only
  split_ifs with h1 h2 h3
  · exact .inl ⟨h1, rfl⟩
  all_goals refine .inr ⟨by omega, _, _, rfl, ?_, ?_⟩
  · rw [Byte.val_ofNat (by omega)]
    omega
  · simp only [List.mem_singleton, forall_eq]
    rw [Byte.val_ofNat (by omega)]
    omega
  · rw [Byte.val_ofNat (by omega)]
    omega
  · simp only [List.mem_cons, List.not_mem_nil, or_false, forall_eq_or_imp, forall_eq]
    rw [Byte.val_ofNat (by omega), Byte.val_ofNat (by omega)]
    omega
  · rw [Byte.val_ofNat (by omega)]
    omega
  · simp only [List.mem_cons, List.not_mem_nil, or_false, forall_eq_or_imp, forall_eq]
    rw [Byte.val_ofNat (by omega), Byte.val_ofNat (by omega), Byte.val_ofNat (by omega)]
    omega

theorem utf8Bytes_ne_nil (c : CodePoint) : utf8Bytes c ≠ [] := by
  rcases utf8Bytes_cases c with ⟨-, h⟩ | ⟨-, first, rest, h, -⟩ <;> simp [h]

theorem utf8Bytes_ascii (h : c.val < 0x80) : utf8Bytes c = [Byte.ofNat c.val] := if_pos h

/-- The bytes of a character make its number. -/
theorem candidate_utf8Bytes {first : Byte} {others : List Byte} (h : utf8Bytes c = first :: others) :
    candidate first (others ++ rest) = c.val := by
  have hlt : c.val < 0x110000 := c.isLt
  unfold utf8Bytes at h
  dsimp only at h
  split_ifs at h with h1 h2 h3 <;> obtain ⟨rfl, rfl⟩ := List.cons.inj h
  · rw [candidate, Byte.val_ofNat (by omega), if_pos h1]
  · simp only [candidate, continuation, List.cons_append, List.nil_append, List.getD_cons_zero]
    rw [Byte.val_ofNat (by omega), Byte.val_ofNat (by omega), if_neg (by omega), if_pos (by omega)]
    omega
  · simp only [candidate, continuation, List.cons_append, List.nil_append, List.getD_cons_zero, List.getD_cons_succ]
    rw [Byte.val_ofNat (by omega), Byte.val_ofNat (by omega), Byte.val_ofNat (by omega), if_neg (by omega), if_neg (by omega),
      if_pos (by omega)]
    omega
  · simp only [candidate, continuation, List.cons_append, List.nil_append, List.getD_cons_zero, List.getD_cons_succ]
    rw [Byte.val_ofNat (by omega), Byte.val_ofNat (by omega), Byte.val_ofNat (by omega), Byte.val_ofNat (by omega), if_neg (by omega),
      if_neg (by omega), if_neg (by omega)]
    omega

/-- The first bytes spell a character exactly when they are its bytes. -/
theorem spelled_eq_some : spelled bytes = some c ↔ ¬ IsSurrogate c ∧ utf8Bytes c <+: bytes := by
  constructor
  · intro h
    cases bytes with
    | nil => cases h
    | cons first rest =>
      unfold spelled at h
      dsimp only at h
      split_ifs at h with hc
      obtain rfl := Option.some.inj h
      exact hc
  · rintro ⟨hc, rest, rfl⟩
    obtain ⟨first, others, hbytes⟩ := List.exists_cons_of_ne_nil (utf8Bytes_ne_nil c)
    have hprefix : utf8Bytes c <+: first :: (others ++ rest) := ⟨rest, by rw [hbytes]; rfl⟩
    rw [hbytes, List.cons_append, spelled, candidate_utf8Bytes hbytes, CodePoint.ofNat_val]
    exact if_pos ⟨hc, hprefix⟩

/-- A byte that is no part of a character is no ASCII. -/
theorem le_of_spelled_eq_none (h : spelled (b :: rest) = none) : 0x80 ≤ b.val := by
  by_contra hlt
  have hval : (CodePoint.ofNat b.val).val = b.val := CodePoint.val_ofNat (by omega)
  have hsome : spelled (b :: rest) = some (CodePoint.ofNat b.val) := by
    refine spelled_eq_some.mpr ⟨fun hs => ?_, rest, ?_⟩
    · have := hs.1
      omega
    · rw [utf8Bytes_ascii (by omega), hval]
      exact congrArg (· :: rest) (Fin.ext (Byte.val_ofNat b.isLt))
  rw [hsome] at h
  cases h

end Character

/-! ### Reading a name -/

section Decode

variable {c : CodePoint} {b : Byte} {bytes rest : List Byte} {s : Str}

theorem fsdecodeFrom_eq (n : ℕ) (bytes : List Byte) : fsdecodeFrom n bytes = fsdecode (bytes.drop n) := by
  induction bytes generalizing n with
  | nil => cases n <;> rfl
  | cons b bytes ih =>
    cases n with
    | zero => rfl
    | succ n => exact ih n

theorem fsdecode_character (h : ¬ IsSurrogate c) : fsdecode (utf8Bytes c ++ rest) = c :: fsdecode rest := by
  have hspelled : spelled (utf8Bytes c ++ rest) = some c := spelled_eq_some.mpr ⟨h, List.prefix_append ..⟩
  obtain ⟨first, others, hbytes⟩ := List.exists_cons_of_ne_nil (utf8Bytes_ne_nil c)
  rw [hbytes, List.cons_append] at hspelled ⊢
  rw [fsdecode, fsdecodeFrom, hspelled]
  dsimp only
  rw [fsdecodeFrom_eq, hbytes, List.length_cons, Nat.add_sub_cancel, List.drop_left]

theorem fsdecode_escape (h : spelled (b :: rest) = none) : fsdecode (b :: rest) = escapeOf b :: fsdecode rest := by
  rw [fsdecode, fsdecodeFrom, h]
  rfl

/-- Bytes are read character by character, and a byte that is no part of one by itself. -/
theorem decoding_induction {motive : List Byte → Prop} (nil : motive [])
    (character : ∀ c rest, ¬ IsSurrogate c → motive rest → motive (utf8Bytes c ++ rest))
    (escape : ∀ b rest, spelled (b :: rest) = none → motive rest → motive (b :: rest)) (bytes : List Byte) :
    motive bytes := by
  induction hn : bytes.length using Nat.strong_induction_on generalizing bytes with
  | _ n ih =>
    cases bytes with
    | nil => exact nil
    | cons b rest =>
      cases hs : spelled (b :: rest) with
      | none => exact escape b rest hs (ih rest.length (by rw [← hn]; simp) rest rfl)
      | some c =>
        obtain ⟨hc, rest', hbytes⟩ := spelled_eq_some.mp hs
        have hlength : rest'.length < n := by
          rw [← hn, ← hbytes, List.length_append]
          have := List.length_pos_of_ne_nil (utf8Bytes_ne_nil c)
          omega
        rw [← hbytes]
        exact character c rest' hc (ih _ hlength rest' rfl)

/-- **Every file name is written back as it was read.** -/
theorem nameable_fsdecode (bytes : List Byte) :
    Nameable (fsdecode bytes) ∧ (fsdecode bytes).flatMap nameBytes = bytes := by
  induction bytes using decoding_induction with
  | nil => exact ⟨by simp [Nameable, fsdecode, fsdecodeFrom], rfl⟩
  | character c rest hc ih =>
    rw [fsdecode_character hc]
    refine ⟨List.forall_mem_cons.mpr ⟨fun h => absurd h hc, ih.1⟩, ?_⟩
    rw [List.flatMap_cons, ih.2, nameBytes_of_not_surrogate hc]
  | escape b rest hb ih =>
    have hle := le_of_spelled_eq_none hb
    rw [fsdecode_escape hb]
    refine ⟨List.forall_mem_cons.mpr ⟨fun _ => isEscape_escapeOf hle, ih.1⟩, ?_⟩
    rw [List.flatMap_cons, ih.2, nameBytes_escapeOf hle]
    rfl

/-- Escapes at the start of what is read are the first bytes. -/
theorem prefix_of_map_escapeOf (h : bytes.map escapeOf <+: fsdecode rest) : bytes <+: rest := by
  induction bytes generalizing rest with
  | nil => exact List.nil_prefix
  | cons b bytes ih =>
    cases rest with
    | nil => exact absurd (List.prefix_nil.mp h) (by simp)
    | cons b' rest =>
      cases hs : spelled (b' :: rest) with
      | none =>
        rw [fsdecode_escape hs, List.map_cons, List.cons_prefix_cons] at h
        rw [escapeOf_injective h.1, List.cons_prefix_cons]
        exact ⟨rfl, ih h.2⟩
      | some c =>
        obtain ⟨hc, rest', hbytes⟩ := spelled_eq_some.mp hs
        rw [← hbytes, fsdecode_character hc, List.map_cons, List.cons_prefix_cons] at h
        exact absurd (h.1 ▸ isSurrogate_escapeOf b) hc

theorem legible_fsdecode (bytes : List Byte) : Legible (fsdecode bytes) := by
  refine ⟨(nameable_fsdecode bytes).1, fun c hc hle => ?_⟩
  obtain ⟨hlt, -⟩ | ⟨-, first, others, hbytes, -, -⟩ := utf8Bytes_cases c
  · omega
  rw [hbytes, List.map_cons]
  induction bytes using decoding_induction with
  | nil => exact fun h => absurd (List.infix_nil.mp h) (by simp)
  | character d rest hd ih =>
    rw [fsdecode_character hd, List.infix_cons_iff, List.cons_prefix_cons]
    rintro (⟨he, -⟩ | h)
    · exact hd (he ▸ isSurrogate_escapeOf first)
    · exact ih h
  | escape b rest hb ih =>
    rw [fsdecode_escape hb, List.infix_cons_iff, List.cons_prefix_cons]
    rintro (⟨he, hothers⟩ | h)
    · have hprefix : utf8Bytes c <+: b :: rest := by
        rw [hbytes, escapeOf_injective he, List.cons_prefix_cons]
        exact ⟨rfl, prefix_of_map_escapeOf hothers⟩
      rw [spelled_eq_some.mpr ⟨hc, hprefix⟩] at hb
      cases hb
    · exact ih h

end Decode

/-! ### Writing a name -/

section Encode

variable {c : CodePoint} {b : Byte} {bytes : List Byte} {s t : Str}

theorem Legible.of_infix (h : Legible t) (hs : s <:+: t) : Legible s where
  nameable c hc := h.nameable c (hs.subset hc)
  unspelled c hc hle hrun := h.unspelled c hc hle (hrun.trans hs)

theorem legible_of_encodable (h : Encodable s) : Legible s where
  nameable c hc hs := absurd hs (h c hc)
  unspelled c _ _ hrun := by
    obtain ⟨b, hb⟩ := List.exists_mem_of_ne_nil _ (utf8Bytes_ne_nil c)
    exact h _ (hrun.subset (List.mem_map_of_mem hb)) (isSurrogate_escapeOf b)

/-- Continuation bytes at the start of what is written come from escapes. -/
theorem map_escapeOf_prefix (hs : Nameable s) (hb : ∀ b ∈ bytes, 0x80 ≤ b.val ∧ b.val < 0xc0)
    (h : bytes <+: s.flatMap nameBytes) : bytes.map escapeOf <+: s := by
  induction bytes generalizing s with
  | nil => exact List.nil_prefix
  | cons b bytes ih =>
    obtain ⟨⟨hlow, hhigh⟩, hbytes⟩ := List.forall_mem_cons.mp hb
    cases s with
    | nil => exact absurd (List.prefix_nil.mp h) (by simp)
    | cons c s =>
      obtain ⟨hc, hrest⟩ := List.forall_mem_cons.mp hs
      rw [List.flatMap_cons] at h
      by_cases hsurrogate : IsSurrogate c
      · obtain ⟨b', hle, rfl⟩ := exists_escapeOf (hc hsurrogate)
        rw [nameBytes_escapeOf hle, List.singleton_append, List.cons_prefix_cons] at h
        rw [h.1, List.map_cons, List.cons_prefix_cons]
        exact ⟨rfl, ih hrest hbytes h.2⟩
      · rw [nameBytes_of_not_surrogate hsurrogate] at h
        obtain ⟨hlt, hone⟩ | ⟨-, first, others, hmany, hfirst, -⟩ := utf8Bytes_cases c
        · rw [hone, List.singleton_append, List.cons_prefix_cons] at h
          rw [h.1, Byte.val_ofNat (by omega)] at hlow
          omega
        · rw [hmany, List.cons_append, List.cons_prefix_cons] at h
          rw [h.1] at hhigh
          omega

/-- **A text is read back as it was written** exactly when it is legible. -/
theorem fsdecode_iff : fsdecode (s.flatMap nameBytes) = s ↔ Legible s := by
  refine ⟨fun he => he ▸ legible_fsdecode _, fun hs => ?_⟩
  induction s with
  | nil => rfl
  | cons c s ih =>
    have hrest := hs.of_infix (List.suffix_cons c s).isInfix
    rw [List.flatMap_cons]
    by_cases hc : IsSurrogate c
    · obtain ⟨b, hle, rfl⟩ := exists_escapeOf (hs.nameable c (List.mem_cons_self ..) hc)
      rw [nameBytes_escapeOf hle, List.singleton_append, fsdecode_escape, ih hrest]
      -- a character that began with this byte would be spelled by the escapes from here on
      by_contra hspelled
      obtain ⟨d, hd⟩ := Option.ne_none_iff_exists'.mp hspelled
      obtain ⟨hsurrogate, hprefix⟩ := spelled_eq_some.mp hd
      obtain ⟨hlt, hone⟩ | ⟨hge, first, others, hmany, -, hothers⟩ := utf8Bytes_cases d
      · rw [hone, List.cons_prefix_cons] at hprefix
        rw [← hprefix.1, Byte.val_ofNat (by omega)] at hle
        omega
      · refine hs.unspelled d hsurrogate hge ?_
        rw [hmany, List.cons_prefix_cons] at hprefix
        rw [hmany, List.map_cons, hprefix.1]
        exact (List.cons_prefix_cons.mpr ⟨rfl, map_escapeOf_prefix hrest.nameable hothers hprefix.2⟩).isInfix
    · rw [nameBytes_of_not_surrogate hc, fsdecode_character hc, ih hrest]

-- the text is written and read back
instance (s : Str) : Decidable (Legible s) := decidable_of_iff _ fsdecode_iff

theorem fsencode_of_nameable (h : Nameable s) : fsencode s = .ok (s.flatMap nameBytes) := if_pos h

theorem fsencode_of_not_nameable (h : ¬ Nameable s) :
    ∃ start run, fsencode s = .error (unicodeEncodeError start run) := ⟨_, _, if_neg h⟩

theorem nameable_of_fsencode (h : fsencode s = .ok bytes) : Nameable s := by
  by_contra hn
  obtain ⟨start, run, he⟩ := fsencode_of_not_nameable hn
  rw [he] at h
  cases h

theorem nameable_of_encodable (h : Encodable s) : Nameable s := (legible_of_encodable h).nameable

theorem nameable_append : Nameable (s ++ t) ↔ Nameable s ∧ Nameable t := List.forall_mem_append

/-- A code point is an ASCII byte or bytes that are none. -/
theorem nameBytes_cases (c : CodePoint) : (c.val < 0x80 ∧ nameBytes c = [Byte.ofNat c.val]) ∨
    (0x80 ≤ c.val ∧ nameBytes c ≠ [] ∧ ∀ b ∈ nameBytes c, 0x80 ≤ b.val) := by
  by_cases hc : IsEscape c
  · obtain ⟨b, hle, rfl⟩ := exists_escapeOf hc
    rw [nameBytes_escapeOf hle, escapeOf_val]
    exact .inr ⟨by omega, by simp, by simpa using hle⟩
  · rw [nameBytes, if_neg hc]
    obtain hone | ⟨hle, first, others, hmany, hfirst, hothers⟩ := utf8Bytes_cases c
    · exact .inl hone
    · refine .inr ⟨hle, utf8Bytes_ne_nil c, ?_⟩
      rw [hmany]
      exact List.forall_mem_cons.mpr ⟨by omega, fun b hb => (hothers b hb).1⟩

/-- ASCII in a name is ASCII in its text. -/
theorem ascii_mem_iff (hc : c.val < 0x80) : Byte.ofNat c.val ∈ s.flatMap nameBytes ↔ c ∈ s := by
  rw [List.mem_flatMap]
  constructor
  · rintro ⟨d, hd, hb⟩
    obtain ⟨hlt, hone⟩ | ⟨-, -, hlarge⟩ := nameBytes_cases d
    · rw [hone, List.mem_singleton] at hb
      have hval := congrArg Fin.val hb
      rw [Byte.val_ofNat (by omega), Byte.val_ofNat (by omega)] at hval
      exact Fin.ext hval ▸ hd
    · have hle := hlarge _ hb
      rw [Byte.val_ofNat (by omega)] at hle
      omega
  · intro hmem
    obtain ⟨-, hone⟩ | ⟨hle, -⟩ := nameBytes_cases c
    · exact ⟨c, hmem, by rw [hone]; exact List.mem_singleton_self _⟩
    · omega

/-- ASCII at the start of a name is at the start of its text. -/
theorem ascii_prefix_iff (ht : IsAscii t) : t.flatMap nameBytes <+: s.flatMap nameBytes ↔ t <+: s := by
  refine ⟨fun h => ?_, fun ⟨rest, h⟩ => ⟨rest.flatMap nameBytes, by rw [← h, List.flatMap_append]⟩⟩
  induction t generalizing s with
  | nil => exact List.nil_prefix
  | cons c t ih =>
    obtain ⟨hc, ht⟩ := List.forall_mem_cons.mp ht
    obtain ⟨-, hone⟩ | ⟨hle, -⟩ := nameBytes_cases c
    · rw [List.flatMap_cons, hone, List.singleton_append] at h
      cases s with
      | nil => exact absurd (List.prefix_nil.mp h) (by simp)
      | cons d s =>
        rw [List.flatMap_cons] at h
        obtain ⟨hd, hfirst⟩ | ⟨-, hne, hlarge⟩ := nameBytes_cases d
        · rw [hfirst, List.singleton_append, List.cons_prefix_cons] at h
          have hval := congrArg Fin.val h.1
          rw [Byte.val_ofNat (by omega), Byte.val_ofNat (by omega)] at hval
          rw [Fin.ext hval, List.cons_prefix_cons]
          exact ⟨rfl, ih ht h.2⟩
        · obtain ⟨b, others, hb⟩ := List.exists_cons_of_ne_nil hne
          have hle : 0x80 ≤ b.val := hlarge b (hb ▸ List.mem_cons_self ..)
          rw [hb, List.cons_append, List.cons_prefix_cons] at h
          rw [← h.1, Byte.val_ofNat (by omega)] at hle
          omega
    · omega

/-- An ASCII text is the only one that is written as it is. -/
theorem ascii_eq_iff (ht : IsAscii t) : t.flatMap nameBytes = s.flatMap nameBytes ↔ t = s := by
  refine ⟨fun h => ?_, fun h => h ▸ rfl⟩
  have hprefix : t.flatMap nameBytes <+: s.flatMap nameBytes := by rw [h]
  obtain ⟨rest, rfl⟩ := (ascii_prefix_iff ht).mp hprefix
  rw [List.flatMap_append, List.self_eq_append_right] at h
  cases rest with
  | nil => rw [List.append_nil]
  | cons c rest =>
    rw [List.flatMap_cons, List.append_eq_nil_iff] at h
    obtain ⟨-, hone⟩ | ⟨-, hne, -⟩ := nameBytes_cases c
    · exact absurd (hone.symm.trans h.1) (by simp)
    · exact absurd h.1 hne

end Encode

end Xyberos.Json
