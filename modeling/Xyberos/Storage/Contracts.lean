import Xyberos.Json.Utf8
import Mathlib.Data.List.Lex
import Mathlib.Data.List.Sort
import Mathlib.Logic.Function.Basic

/-!
# Xyberos.Storage.Contracts — keys, and what a storage is asked

A key is a relative path: the rules are `validate_key`'s.  It is a Python `str`, surrogates included, which the rules do
not mention.  A call is answered with a value or an error, and `Contents` reads off a history what is stored: under each
key, the bytes of the last successful `put` that no `delete` followed.
-/

set_option autoImplicit false

namespace Xyberos.Storage

open Json

abbrev Bytes := List UInt8

def storageError (message : String) : Exc := xyberosError "StorageError" [] message

def storageKeyError (message : String) : Exc := xyberosError "StorageKeyError" ["StorageError"] message

def storageNotFoundError (message : String) : Exc := xyberosError "StorageNotFoundError" ["StorageError"] message

def storageSizeLimitError (message : String) : Exc := xyberosError "StorageSizeLimitError" ["StorageError"] message

/-! ## Keys -/

/-- `repr(s)`: as `reprStr`, with the surrogates as escapes. -/
def reprText (s : Str) : String :=
  let q := if s.contains (codeOf '\'') && !s.contains (codeOf '"') then '"' else '\''
  let shown := s.map fun c =>
    if IsSurrogate c then String.ofList (escapeUnit c.val) else reprChar q (Char.ofNat c.val)
  q.toString ++ String.join shown ++ q.toString

/-- `key.split("/")`. -/
def segments (key : Str) : List Str := key.splitOn (codeOf '/')

/-- `"/".join(segments)`. -/
def joinKey (path : List Str) : Str := [codeOf '/'].intercalate path

/-- `RESERVED_SEGMENT_PREFIX`. -/
def reservedSegmentPrefix : Str := Str.ofString ".xyberos-"

/-- `s.startswith(RESERVED_SEGMENT_PREFIX)`. -/
def IsReserved (s : Str) : Prop := reservedSegmentPrefix <+: s

instance (s : Str) : Decidable (IsReserved s) := inferInstanceAs (Decidable (_ <+: _))

/-- `_REFUSED_SEGMENTS`. -/
def refusedSegments : List Str := ["", ".", ".."].map Str.ofString

/-- The turn of the loop of `validate_key` for one segment: why it is refused. -/
def segmentRefusal (key segment : Str) : Option String :=
  if refusedSegments.contains segment then
    some s!"a storage key must not contain an empty, '.' or '..' segment: {reprText key}"
  else if IsReserved segment then
    some (s!"a storage key segment must not start with '.xyberos-', which is " ++
      s!"reserved for provider bookkeeping: {reprText key}")
  else none

/-- What `validate_key` calls a control character. -/
def IsControl (c : CodePoint) : Prop := c.val < 32 ∨ c.val = 127

instance (c : CodePoint) : Decidable (IsControl c) := inferInstanceAs (Decidable (_ ∨ _))

/-- Why a key is refused. -/
def keyRefusal (maxLength : ℕ) (key : Str) : Option String :=
  if key = [] then some "a storage key must not be empty"
  else if maxLength < key.length then
    some s!"a storage key must be at most {maxLength} characters, not {key.length}"
  else if key.contains (codeOf '\\') then
    some s!"a storage key must use '/' as its separator, not '\\': {reprText key}"
  else if key.any fun c => IsControl c then
    some s!"a storage key must not contain a control character: {reprText key}"
  else if key.head? = some (codeOf '/') ∨ key.getLast? = some (codeOf '/') then
    some s!"a storage key must not start or end with '/': {reprText key}"
  else (segments key).findSome? (segmentRefusal key)

/-- `validate_key`. -/
def validateKey (maxLength : ℕ) (key : Str) : Except Exc Unit :=
  match keyRefusal maxLength key with
  | some message => .error (storageKeyError message)
  | none => .ok ()

/-! ### Segments -/

section Segments

variable {key key' s : Str} {path p : List Str}

theorem joinKey_segments (key : Str) : joinKey (segments key) = key := List.intercalate_splitOn _

theorem segments_joinKey (hp : path ≠ []) (h : ∀ s ∈ path, codeOf '/' ∉ s) : segments (joinKey path) = path :=
  List.splitOn_intercalate _ h hp

theorem segments_ne_nil (key : Str) : segments key ≠ [] := List.splitOn_ne_nil _ _

/-- The segments of a key have no separator. -/
theorem separator_not_mem (hs : s ∈ segments key) : codeOf '/' ∉ s := by
  unfold segments at hs
  induction key generalizing s with
  | nil =>
    rw [List.splitOn_nil, List.mem_singleton] at hs
    simp [hs]
  | cons c key ih =>
    rw [List.splitOn_cons_eq_if_modifyHead] at hs
    obtain ⟨first, rest, hsplit⟩ := List.exists_cons_of_ne_nil (List.splitOn_ne_nil (codeOf '/') key)
    rw [hsplit] at hs ih
    by_cases hc : c = codeOf '/'
    · -- a separator opens an empty segment
      rw [if_pos (by simpa using hc)] at hs
      rcases List.mem_cons.mp hs with rfl | hs
      · exact List.not_mem_nil
      · exact ih hs
    · rw [if_neg (by simpa using hc), List.modifyHead_cons] at hs
      rcases List.mem_cons.mp hs with rfl | hs
      · rw [List.mem_cons, not_or]
        exact ⟨Ne.symm hc, ih (List.mem_cons_self ..)⟩
      · exact ih (List.mem_cons_of_mem _ hs)

theorem intercalate_prefix {α : Type} (sep : List α) {p q : List (List α)} (hp : p ≠ []) (h : p <+: q) :
    sep.intercalate p <+: sep.intercalate q := by
  obtain ⟨r, rfl⟩ := h
  induction p with
  | nil => exact absurd rfl hp
  | cons x p ih =>
    by_cases hlast : p = []
    · subst hlast
      cases r with
      | nil => simp
      | cons y r =>
        rw [List.intercalate_singleton, List.singleton_append, List.intercalate_cons_cons, List.append_assoc]
        exact List.prefix_append ..
    · rw [List.cons_append, List.intercalate_cons_of_ne_nil hlast, List.intercalate_cons_of_ne_nil (by simp [hlast]),
        List.prefix_append_right_inj]
      exact ih hlast

theorem suffix_intercalate {α : Type} (sep : List α) (p : List (List α)) (x : List α) :
    x <:+ sep.intercalate (p ++ [x]) := by
  induction p with
  | nil => simp
  | cons y p ih =>
    rw [List.cons_append, List.intercalate_cons_of_ne_nil (by simp)]
    exact ih.trans (List.suffix_append ..)

/-- A segment stands in its key. -/
theorem segment_within (hs : s ∈ segments key) : s <:+: key := by
  obtain ⟨before, after, hsplit⟩ := List.append_of_mem hs
  have hfirst : s <:+ joinKey (before ++ [s]) := suffix_intercalate _ before s
  have hkey : joinKey (before ++ [s]) <+: key := by
    rw [← joinKey_segments key, hsplit]
    exact intercalate_prefix _ (by simp) ⟨after, by simp⟩
  exact hfirst.isInfix.trans hkey.isInfix

end Segments

/-! ### Keys that are not refused -/

section Refusal

variable {maxLength : ℕ} {key s : Str} {p : List Str}

/-- What the loop asks of a segment. -/
def Proper (s : Str) : Prop := s ∉ refusedSegments ∧ ¬ IsReserved s

theorem segmentRefusal_eq_none : segmentRefusal key s = none ↔ Proper s := by
  unfold segmentRefusal Proper
  split_ifs with hrefused hreserved
  · exact iff_of_false (by simp) fun h => h.1 (List.contains_iff_mem.mp hrefused)
  · exact iff_of_false (by simp) fun h => h.2 hreserved
  · exact iff_of_true rfl ⟨fun hm => hrefused (List.contains_iff_mem.mpr hm), hreserved⟩

/-- The rules for keys. -/
theorem keyRefusal_eq_none : keyRefusal maxLength key = none ↔
    key ≠ [] ∧ key.length ≤ maxLength ∧ codeOf '\\' ∉ key ∧ (∀ c ∈ key, ¬ IsControl c) ∧
      (key.head? ≠ some (codeOf '/') ∧ key.getLast? ≠ some (codeOf '/')) ∧ ∀ s ∈ segments key, Proper s := by
  have hcontrol : (key.any fun c => IsControl c) = true ↔ ¬ ∀ c ∈ key, ¬ IsControl c := by
    simp [List.any_eq_true]
  have hsegments : (segments key).findSome? (segmentRefusal key) = none ↔ ∀ s ∈ segments key, Proper s := by
    rw [List.findSome?_eq_none_iff]
    exact forall₂_congr fun s _ => segmentRefusal_eq_none
  unfold keyRefusal
  split_ifs with hempty hlong hback hany hends
  · exact iff_of_false (by simp) fun h => h.1 hempty
  · exact iff_of_false (by simp) fun h => absurd h.2.1 (not_le.mpr hlong)
  · exact iff_of_false (by simp) fun h => h.2.2.1 (List.contains_iff_mem.mp hback)
  · exact iff_of_false (by simp) fun h => hcontrol.mp hany h.2.2.2.1
  · exact iff_of_false (by simp) fun h => hends.elim h.2.2.2.2.1.1 h.2.2.2.2.1.2
  · rw [hsegments]
    exact ⟨fun h => ⟨hempty, not_lt.mp hlong, hback ∘ List.contains_iff_mem.mpr, not_not.mp (hany ∘ hcontrol.mpr), not_or.mp hends, h⟩,
      fun h => h.2.2.2.2.2⟩

theorem validateKey_eq_ok : validateKey maxLength key = .ok () ↔ keyRefusal maxLength key = none := by
  unfold validateKey
  cases keyRefusal maxLength key <;> simp

/-- The segments of a key that is not refused are proper. -/
theorem proper_of_keyRefusal (h : keyRefusal maxLength key = none) : ∀ s ∈ segments key, Proper s :=
  (keyRefusal_eq_none.mp h).2.2.2.2.2

/-- A directory of a key that is not refused is a key that is not refused. -/
theorem keyRefusal_directory (h : keyRefusal maxLength key = none) (hp : p ≠ []) (hpre : p <+: segments key) :
    keyRefusal maxLength (joinKey p) = none := by
  obtain ⟨hne, hlength, hback, hcontrol, ⟨hfirst, -⟩, hproper⟩ := keyRefusal_eq_none.mp h
  have hsegments := segments_joinKey hp fun s hs => separator_not_mem (hpre.subset hs)
  have hjoin : joinKey p <+: key := by
    have hparts : joinKey p <+: joinKey (segments key) := intercalate_prefix _ hp hpre
    rwa [joinKey_segments] at hparts
  obtain ⟨q, s, rfl⟩ := (List.eq_nil_or_concat' p).resolve_left hp
  have hs : s ≠ [] := by
    rintro rfl
    exact (hproper [] (hpre.subset (by simp))).1 (by decide)
  have hlast : s <:+ joinKey (q ++ [s]) := suffix_intercalate _ q s
  refine keyRefusal_eq_none.mpr ⟨fun he => ?_, hjoin.length_le.trans hlength, fun hm => hback (hjoin.subset hm),
    fun c hc => hcontrol c (hjoin.subset hc), ⟨fun he => hfirst ?_, fun he => ?_⟩, ?_⟩
  · exact hs (List.suffix_nil.mp (he ▸ hlast))
  · obtain ⟨t, ht⟩ := hjoin
    rw [← ht, List.head?_append, he]
    rfl
  · obtain ⟨t, ht⟩ := hlast
    rw [← ht, List.getLast?_append_of_ne_nil _ hs] at he
    exact separator_not_mem (hpre.subset (by simp)) (List.mem_of_getLast? he)
  · rw [hsegments]
    exact fun s hs => hproper s (hpre.subset hs)

end Refusal

/-! ## Calls -/

/-- `StoredObject`. -/
structure StoredObject where
  key : Str
  size : ℕ
deriving DecidableEq, Repr

/-- A call; `listKeys` by its prefix. -/
inductive Call where
  | put (key : Str) (data : Bytes)
  | get (key : Str)
  | delete (key : Str)
  | listKeys (start : Str)

/-- What a call returns. -/
inductive Answer where
  | stored (object : StoredObject)
  | bytes (data : Bytes)
  | removed (there : Bool)
  | keys (keys : List Str)
deriving DecidableEq

/-- `sorted(keys)`, those that start with `start`. -/
def listed (keys : List Str) (start : Str) : List Str :=
  (keys.insertionSort (· ≤ ·)).filter fun key => start <+: key

theorem mem_listed {keys : List Str} {start key : Str} : key ∈ listed keys start ↔ key ∈ keys ∧ start <+: key := by
  rw [listed, List.mem_filter, decide_eq_true_iff, List.mem_insertionSort]

/-- Listing is in ascending order. -/
theorem listed_pairwise {keys : List Str} (h : keys.Nodup) (start : Str) : (listed keys start).Pairwise (· < ·) := by
  have hsorted := List.pairwise_insertionSort (· ≤ ·) keys
  have hnodup : (keys.insertionSort (· ≤ ·)).Nodup := (List.perm_insertionSort _ keys).nodup_iff.mpr h
  refine List.Pairwise.filter _ ?_
  exact (hsorted.and hnodup).imp fun hab => lt_of_le_of_ne hab.1 hab.2

/-- What is stored under each key. -/
abbrev Contents := Str → Option Bytes

namespace Contents

/-- The contents after a call that was answered. -/
def next (m : Contents) : Call × Except Exc Answer → Contents
  | (.put key data, .ok _) => Function.update m key (some data)
  | (.delete key, .ok _) => Function.update m key none
  | _ => m

/-- The contents after a history of calls. -/
def after (history : List (Call × Except Exc Answer)) : Contents := history.foldl next fun _ => none

theorem after_concat (history : List (Call × Except Exc Answer)) (x : Call × Except Exc Answer) :
    after (history ++ [x]) = (after history).next x := List.foldl_concat ..

end Contents

end Xyberos.Storage
