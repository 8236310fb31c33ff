import Xyberos.Storage.Filesystem
import Mathlib.Data.Set.Basic

/-!
# Xyberos.Storage.Paths — where a key leads

Paths are POSIX paths: pathlib parses them from text, joins them and resolves them as here, where no symbolic link is
below the root.  A path is text, and a file is found under the names between the separators when the text is written.

Keys that are accepted lead to files of their own strictly below the root, and never to a name that the provider keeps
for itself, exactly when each of them is the only key with its path (`separate_iff`).  A key that cannot be written
leads nowhere, and one whose escapes spell out a character leads to the file of another key (`not_separate_accents`).
-/

set_option autoImplicit false

namespace Xyberos.Storage

open Json
open FilesystemStorage (LegibleKey pathOf keyAt)

/-! ## POSIX paths -/

/-- `posixpath.splitroot`, less the drive. -/
def splitroot (text : Str) : Str × Str :=
  if text.head? ≠ some (codeOf '/') then ([], text)
  else if text[1]? ≠ some (codeOf '/') ∨ text[2]? = some (codeOf '/') then ([codeOf '/'], text.drop 1)
  else ([codeOf '/', codeOf '/'], text.drop 2)

/-- A turn of the loop of `posixpath.realpath`: the parts so far, and the next one, which `os.lstat` is asked for. -/
def realpathStep (done : List Str) (part : Str) : Except Exc (List Str) :=
  if part = [] ∨ part = Str.ofString "." then .ok done
  else if part = Str.ofString ".." then .ok done.dropLast
  else do
    let _ ← fsencode (codeOf '/' :: joinKey (done ++ [part]))
    return done ++ [part]

/-- `posixpath.realpath` of an absolute path. -/
def realpath (text : Str) : Except Exc Str := do
  return codeOf '/' :: joinKey (← (segments text).foldlM realpathStep [])

/-- A `PosixPath`. -/
structure PosixPath where
  root : Str
  parts : List Str
deriving DecidableEq, Repr

namespace PosixPath

/-- `PosixPath(text)`. -/
def parse (text : Str) : PosixPath where
  root := (splitroot text).1
  parts := (segments (splitroot text).2).filter fun part => part ≠ [] ∧ part ≠ Str.ofString "."

/-- `str(path)`, and on this system `path.as_posix()`. -/
def str (p : PosixPath) : Str := if p.root = [] ∧ p.parts = [] then Str.ofString "." else p.root ++ joinKey p.parts

/-- `path / text`. -/
def join (p : PosixPath) (text : Str) : PosixPath := parse (posixJoin p.str text)

/-- `path.resolve()`, of an absolute path. -/
def resolve (p : PosixPath) : Except Exc PosixPath := do return parse (← realpath p.str)

/-- `path.parent`. -/
def parent (p : PosixPath) : PosixPath := ⟨p.root, p.parts.dropLast⟩

/-- `path.parents`. -/
def parents (p : PosixPath) : List PosixPath :=
  (List.range p.parts.length).reverse.map fun n => ⟨p.root, p.parts.take n⟩

/-- `path.relative_to(other)`, where it does not raise. -/
def relativeTo (p other : PosixPath) : Option PosixPath :=
  if other = p ∨ other ∈ p.parents then some ⟨[], p.parts.drop other.parts.length⟩ else none

/-- The names by which the file system comes to the file at a path. -/
def file (p : PosixPath) : Except Exc (List FileName) := do
  return ((← fsencode p.str).splitOn slash).filter (· ≠ [])

/-- Two paths lead to one file. -/
def SameFile (p q : PosixPath) : Prop := ∃ names, p.file = .ok names ∧ q.file = .ok names

end PosixPath

/-- The root of a storage: an absolute path that resolves to itself. -/
structure Root where
  path : PosixPath
  resolved : path.resolve = .ok path

/-- `_path_for`, its target, before it is checked to be below the root. -/
def target (root : Root) (key : Str) : Except Exc PosixPath := (root.path.join key).resolve

/-- `_path_for`, under this root. -/
def FilesystemStorage.pathUnder (fs : FilesystemStorage) (root : Root) (key : Str) : Except Exc PosixPath :=
  match (keyRefusal fs.maxKeyLength key).or (deviceRefusal key) with
  | some message => .error (storageKeyError message)
  | none => do
    let target ← target root key
    if target ≠ root.path ∧ root.path ∉ target.parents then
      .error (storageKeyError (s!"{reprText key} resolves outside the storage root {textOf root.path.str}, " ++
        s!"so it is refused: {textOf target.str}"))
    else return target

/-- The directory in which `os.walk` comes to the file that is at these names below the root. -/
def walked (root : Root) (names : List FileName) : Str := (names.dropLast.map fsdecode).foldl posixJoin root.path.str

/-- `_keys`: the path of a file that `os.walk` comes to. -/
def fileOf (root : Root) (names : List FileName) : PosixPath :=
  (PosixPath.parse (walked root names)).join (fsdecode (names.getLastD []))

/-- `_keys`: the key of a file, if it is not passed over. -/
def keyOf (root : Root) (names : List FileName) : Option Str :=
  if IsReserved (fsdecode (names.getLastD [])) then none
  else ((fileOf root names).relativeTo root.path).map PosixPath.str

/-- `_keys`, less the order: the keys of the files of the tree below the root. -/
def keysUnder (root : Root) (items : Entries) : List Str := (Tree.walk items).filterMap (keyOf root)

/-- The temporary file of `_publish`, by the characters that `mkstemp` adds. -/
def temporary (published : PosixPath) (chosen : Str) : PosixPath :=
  PosixPath.parse (posixJoin published.parent.str (reservedSegmentPrefix ++ chosen))

/-- The file that `health` publishes. -/
def probe (root : Root) : PosixPath := root.path.join (reservedSegmentPrefix ++ Str.ofString "health")

/-! ## Plain parts -/

/-- A name that is one part of a path and means itself. -/
def Plain (s : Str) : Prop := s ∉ refusedSegments ∧ codeOf '/' ∉ s

instance (s : Str) : Decidable (Plain s) := inferInstanceAs (Decidable (_ ∧ _))

/-- A name that a directory can have. -/
def PlainName (name : FileName) : Prop := name ∉ refusedSegments.map nameOf ∧ slash ∉ name

theorem plain_of_keyRefusal {maxLength : ℕ} {key : Str} (h : keyRefusal maxLength key = none) :
    ∀ s ∈ segments key, Plain s :=
  fun s hs => ⟨(proper_of_keyRefusal h s hs).1, separator_not_mem hs⟩

theorem Plain.ne {s : Str} (h : Plain s) : s ≠ [] ∧ s ≠ Str.ofString "." ∧ s ≠ Str.ofString ".." := by
  refine ⟨?_, ?_, ?_⟩ <;> rintro rfl <;> exact h.1 (by decide)

theorem PlainName.plain {name : FileName} (h : PlainName name) : Plain (fsdecode name) := by
  refine ⟨fun hm => h.1 ?_, FilesystemStorage.slash_not_mem_fsdecode h.2⟩
  exact List.mem_map.mpr ⟨_, hm, FilesystemStorage.nameOf_fsdecode name⟩

theorem Plain.plainName {s : Str} (h : Plain s) : PlainName (nameOf s) := by
  refine ⟨fun hm => h.1 ?_, fun hm => h.2 (FilesystemStorage.slash_mem_iff.mp hm)⟩
  obtain ⟨t, ht, he⟩ := List.mem_map.mp hm
  have hascii : ∀ t ∈ refusedSegments, IsAscii t := by decide
  exact (ascii_eq_iff (hascii t ht)).mp he ▸ ht

theorem joinKey_singleton (s : Str) : joinKey [s] = s := by simp [joinKey]

theorem joinKey_cons (s : Str) {rest : List Str} (hr : rest ≠ []) :
    joinKey (s :: rest) = s ++ codeOf '/' :: joinKey rest := by
  simp [joinKey, List.intercalate_cons_of_ne_nil hr]

theorem joinKey_append {p q : List Str} (hp : p ≠ []) (hq : q ≠ []) :
    joinKey (p ++ q) = joinKey p ++ codeOf '/' :: joinKey q := by
  induction p with
  | nil => exact absurd rfl hp
  | cons s p ih =>
    by_cases hlast : p = []
    · rw [hlast, List.singleton_append, joinKey_cons s hq, joinKey_singleton]
    · rw [List.cons_append, joinKey_cons s (by simp [hlast]), joinKey_cons s hlast, ih hlast]
      simp only [List.append_assoc, List.cons_append]

/-- The first character of a path of plain parts, and the last one, is no separator. -/
theorem joinKey_ends {p : List Str} (hp : p ≠ []) (h : ∀ s ∈ p, Plain s) :
    joinKey p ≠ [] ∧ (joinKey p).head? ≠ some (codeOf '/') ∧ (joinKey p).getLast? ≠ some (codeOf '/') := by
  have hone : ∀ s, Plain s → s ≠ [] ∧ s.head? ≠ some (codeOf '/') ∧ s.getLast? ≠ some (codeOf '/') := fun s hs =>
    ⟨hs.ne.1, fun he => hs.2 (List.mem_of_mem_head? he), fun he => hs.2 (List.mem_of_getLast? he)⟩
  induction p with
  | nil => exact absurd rfl hp
  | cons s p ih =>
    have hs := hone s (h s (List.mem_cons_self ..))
    by_cases hlast : p = []
    · rw [hlast, joinKey_singleton]
      exact hs
    · have hi := ih hlast fun x hx => h x (List.mem_cons_of_mem _ hx)
      rw [joinKey_cons s hlast]
      refine ⟨by simp [hs.1], ?_, ?_⟩
      · rw [List.head?_append_of_ne_nil _ hs.1]
        exact hs.2.1
      · rw [List.getLast?_append_of_ne_nil _ (List.cons_ne_nil _ _), List.getLast?_cons_of_ne_nil hi.1]
        exact hi.2.2

theorem segments_slash (text : Str) : segments (codeOf '/' :: text) = [] :: segments text := by
  rw [segments, ← List.nil_append (codeOf '/' :: text), List.splitOn_append_cons_self]
  rfl

theorem splitroot_slash {text : Str} (h : text.head? ≠ some (codeOf '/')) :
    splitroot (codeOf '/' :: text) = ([codeOf '/'], text) := by
  rw [splitroot, if_neg (by simp), if_pos (.inl (by simpa [List.head?_eq_getElem?] using h))]
  rfl

namespace PosixPath

variable {p q : List Str}

/-- The path with these parts, from the top. -/
abbrev top (p : List Str) : PosixPath := ⟨[codeOf '/'], p⟩

theorem str_plain (p : List Str) : (top p).str = codeOf '/' :: joinKey p := rfl

theorem filter_plain (h : ∀ s ∈ p, Plain s) : (p.filter fun part => part ≠ [] ∧ part ≠ Str.ofString ".") = p :=
  List.filter_eq_self.mpr fun s hs => decide_eq_true ⟨(h s hs).ne.1, (h s hs).ne.2.1⟩

/-- A path of plain parts is read back from its text. -/
theorem parse_str (h : ∀ s ∈ p, Plain s) : parse (top p).str = top p := by
  by_cases hp : p = []
  · subst hp
    decide +kernel
  · rw [str_plain, parse, splitroot_slash (joinKey_ends hp h).2.1, segments_joinKey hp fun s hs => (h s hs).2]
    simp only [filter_plain h]

theorem posixJoin_str (hp : ∀ s ∈ p, Plain s) (hq : q ≠ []) (h : ∀ s ∈ q, Plain s) :
    posixJoin (top p).str (joinKey q) = (top (p ++ q)).str := by
  rw [str_plain, str_plain, posixJoin, if_neg (joinKey_ends hq h).2.1]
  by_cases hnil : p = []
  · subst hnil
    rw [if_pos (.inr (by decide +kernel))]
    rfl
  · have hends := joinKey_ends hnil hp
    rw [if_neg (not_or.mpr ⟨List.cons_ne_nil _ _, ?_⟩), joinKey_append hnil hq]
    · rfl
    · rw [List.getLast?_cons_of_ne_nil hends.1]
      exact hends.2.2

theorem join_plain (hp : ∀ s ∈ p, Plain s) (hq : q ≠ []) (h : ∀ s ∈ q, Plain s) :
    (top p).join (joinKey q) = top (p ++ q) := by
  rw [join, posixJoin_str hp hq h]
  exact parse_str fun s hs => (List.mem_append.mp hs).elim (hp s) (h s)

/-! ### Resolving -/

theorem realpathStep_plain {done : List Str} {s : Str} (hs : Plain s) :
    realpathStep done s = (fsencode (top (done ++ [s])).str).map fun _ => done ++ [s] := by
  rw [realpathStep, if_neg (not_or.mpr ⟨hs.ne.1, hs.ne.2.1⟩), if_neg hs.ne.2.2, str_plain]
  cases fsencode (codeOf '/' :: joinKey (done ++ [s])) <;> rfl

/-- The loop comes to the parts themselves, if each can be looked up on the way. -/
theorem foldlM_plain {done : List Str} (hdone : ∀ s ∈ done, Plain s) (h : ∀ s ∈ p, Plain s) :
    p.foldlM realpathStep done = (resolveBelow (top done).str p).map fun _ => done ++ p := by
  induction p generalizing done with
  | nil => simp [resolveBelow, Except.map, pure, Except.pure]
  | cons s p ih =>
    obtain ⟨hs, hp⟩ := List.forall_mem_cons.mp h
    have hjoin := posixJoin_str hdone (List.cons_ne_nil s []) (by simpa using hs)
    rw [joinKey_singleton] at hjoin
    have hnext : ∀ x ∈ done ++ [s], Plain x := fun x hx =>
      (List.mem_append.mp hx).elim (hdone x) fun hx => List.mem_singleton.mp hx ▸ hs
    rw [List.foldlM_cons, realpathStep_plain hs, resolveBelow, hjoin]
    cases fsencode (top (done ++ [s])).str with
    | error error => rfl
    | ok bytes =>
      show p.foldlM realpathStep (done ++ [s]) = _
      rw [ih hnext hp, List.append_assoc, List.singleton_append]
      show _ = Except.map _ (resolveBelow (top (done ++ [s])).str p >>= fun names => pure (nameOf s :: names))
      cases resolveBelow (top (done ++ [s])).str p <;> rfl

theorem nameable_str (h : ∀ s ∈ p, Nameable s) : Nameable (top p).str := by
  refine List.forall_mem_cons.mpr ⟨fun hs => absurd hs (by decide), fun c hc => ?_⟩
  rcases FilesystemStorage.mem_joinKey hc with rfl | ⟨s, hs, hc⟩
  · exact fun hs => absurd hs (by decide)
  · exact h s hs c hc

/-- Resolving a path goes through its parts. -/
theorem resolve_eq_foldlM (h : ∀ s ∈ p, Plain s) :
    (top p).resolve = (p.foldlM realpathStep []).map fun parts => parse (top parts).str := by
  have hfirst : realpathStep [] [] = .ok [] := rfl
  have hparts : (segments (top p).str).foldlM realpathStep [] = p.foldlM realpathStep [] := by
    rw [str_plain, segments_slash, List.foldlM_cons, hfirst]
    by_cases hp : p = []
    · subst hp
      rfl
    · rw [segments_joinKey hp fun s hs => (h s hs).2]
      rfl
  rw [resolve, realpath, hparts]
  cases p.foldlM realpathStep [] <;> rfl

/-- A path of plain parts resolves to itself, if what is below a directory that resolves can be looked up. -/
theorem resolve_append (hp : ∀ s ∈ p, Plain s ∧ Nameable s) (h : ∀ s ∈ q, Plain s) :
    (top (p ++ q)).resolve = (resolveBelow (top p).str q).map fun _ => top (p ++ q) := by
  have hplain : ∀ s ∈ p, Plain s := fun s hs => (hp s hs).1
  have hall : ∀ s ∈ p ++ q, Plain s := fun s hs => (List.mem_append.mp hs).elim (hplain s) (h s)
  have htop : Nameable (top []).str := nameable_str (by simp)
  have habove : p.foldlM realpathStep [] = .ok p := by
    rw [foldlM_plain (by simp) hplain, FilesystemStorage.resolveBelow_of_nameable htop fun s hs => (hp s hs).2]
    rfl
  rw [resolve_eq_foldlM hall, List.foldlM_append, habove]
  show Except.map _ (q.foldlM realpathStep p) = _
  rw [foldlM_plain hplain h]
  cases resolveBelow (top p).str q with
  | error error => rfl
  | ok names => exact congrArg Except.ok (parse_str hall)

/-- A path of plain parts that can be written resolves to itself. -/
theorem resolve_plain (hp : ∀ s ∈ p, Plain s ∧ Nameable s) : (top p).resolve = .ok (top p) := by
  have happend := resolve_append (q := []) hp (by simp)
  rwa [List.append_nil] at happend

theorem realpathStep_inv {done done' : List Str} {part : Str} (hpart : codeOf '/' ∉ part)
    (hdone : ∀ s ∈ done, Plain s ∧ Nameable s) (h : realpathStep done part = .ok done') :
    ∀ s ∈ done', Plain s ∧ Nameable s := by
  unfold realpathStep at h
  split_ifs at h with hskip hup
  · obtain rfl := Except.ok.inj h
    exact hdone
  · obtain rfl := Except.ok.inj h
    exact fun s hs => hdone s (List.dropLast_subset _ hs)
  · cases hencode : fsencode (codeOf '/' :: joinKey (done ++ [part])) with
    | error error =>
      rw [hencode] at h
      cases h
    | ok bytes =>
      rw [hencode] at h
      obtain rfl := Except.ok.inj h
      intro s hs
      rcases List.mem_append.mp hs with hs | hs
      · exact hdone s hs
      · obtain rfl := List.mem_singleton.mp hs
        obtain ⟨hempty, hdot⟩ := not_or.mp hskip
        have hwithin : s <:+: joinKey (done ++ [s]) := (suffix_intercalate _ done s).isInfix
        refine ⟨⟨fun hm => ?_, hpart⟩, fun c hc => ?_⟩
        · have hthree : s = Str.ofString "" ∨ s = Str.ofString "." ∨ s = Str.ofString ".." := by
            simpa [refusedSegments] using hm
          exact hthree.elim hempty (·.elim hdot hup)
        · exact nameable_of_fsencode hencode c (List.mem_cons_of_mem _ (hwithin.subset hc))

/-- What resolving comes to has plain parts that can be written. -/
theorem resolve_inv {path resolved : PosixPath} (h : path.resolve = .ok resolved) :
    ∃ p, resolved = top p ∧ ∀ s ∈ p, Plain s ∧ Nameable s := by
  -- the invariant of the loop over the segments
  have hfold : ∀ parts done res : List Str, (∀ s ∈ parts, codeOf '/' ∉ s) → (∀ s ∈ done, Plain s ∧ Nameable s) →
      parts.foldlM realpathStep done = .ok res → ∀ s ∈ res, Plain s ∧ Nameable s := by
    intro parts
    induction parts with
    | nil =>
      intro done res _ hdone hres
      obtain rfl := Except.ok.inj hres
      exact hdone
    | cons part parts ih =>
      intro done res hparts hdone hres
      obtain ⟨hpart, hparts⟩ := List.forall_mem_cons.mp hparts
      rw [List.foldlM_cons] at hres
      cases hstep : realpathStep done part with
      | error error =>
        rw [hstep] at hres
        cases hres
      | ok done' =>
        rw [hstep] at hres
        exact ih done' res hparts (realpathStep_inv hpart hdone hstep) hres
  cases hres : (segments path.str).foldlM realpathStep [] with
  | error error =>
    rw [resolve, realpath, hres] at h
    cases h
  | ok res =>
    rw [resolve, realpath, hres] at h
    have hparts := hfold _ [] res (fun s hs => separator_not_mem hs) (by simp) hres
    refine ⟨res, ?_, hparts⟩
    rw [← parse_str fun s hs => (hparts s hs).1]
    exact (Except.ok.inj h).symm

theorem resolve_resolve {path resolved : PosixPath} (h : path.resolve = .ok resolved) : resolved.resolve = .ok resolved := by
  obtain ⟨p, rfl, hp⟩ := resolve_inv h
  exact resolve_plain hp

/-! ### Files -/

theorem nameOf_joinKey (p : List Str) : nameOf (joinKey p) = [slash].intercalate (p.map nameOf) := by
  induction p with
  | nil => rfl
  | cons s p ih =>
    by_cases hp : p = []
    · simp [hp, joinKey]
    · have hslash : nameOf (codeOf '/' :: joinKey p) = slash :: nameOf (joinKey p) := rfl
      rw [joinKey_cons s hp, nameOf, List.flatMap_append]
      show nameOf s ++ nameOf (codeOf '/' :: joinKey p) = _
      rw [hslash, ih, List.map_cons, List.intercalate_cons_of_ne_nil (by simpa using hp), List.append_assoc]
      rfl

/-- The file at a path of plain parts is found under their names. -/
theorem file_top (h : ∀ s ∈ p, Plain s ∧ Nameable s) : (top p).file = .ok (p.map nameOf) := by
  have hstr := nameable_str fun s hs => (h s hs).2
  have hnames : (nameOf (top p).str).splitOn slash = [] :: (nameOf (joinKey p)).splitOn slash := by
    show (slash :: nameOf (joinKey p)).splitOn slash = _
    rw [← List.nil_append (slash :: nameOf (joinKey p)), List.splitOn_append_cons_self]
    rfl
  have hfile : (top p).file = .ok (((nameOf (top p).str).splitOn slash).filter (· ≠ [])) := by
    rw [file, fsencode_of_nameable hstr]
    rfl
  rw [hfile, hnames, List.filter_cons_of_neg (by simp), nameOf_joinKey]
  by_cases hp : p = []
  · subst hp
    rfl
  · have hplain : ∀ name ∈ p.map nameOf, PlainName name := by
      intro name hname
      obtain ⟨s, hs, rfl⟩ := List.mem_map.mp hname
      exact (h s hs).1.plainName
    rw [List.splitOn_intercalate slash (fun name hname => (hplain name hname).2) (by simpa using hp)]
    refine congrArg Except.ok (List.filter_eq_self.mpr fun name hname => decide_eq_true ?_)
    rintro rfl
    exact (hplain [] hname).1 (by decide)

theorem sameFile_top (hp : ∀ s ∈ p, Plain s ∧ Nameable s) (hq : ∀ s ∈ q, Plain s ∧ Nameable s) :
    SameFile (top p) (top q) ↔ p.map nameOf = q.map nameOf := by
  rw [SameFile, file_top hp, file_top hq]
  exact ⟨fun ⟨_, h, h'⟩ => (Except.ok.inj h).trans (Except.ok.inj h').symm, fun h => ⟨_, rfl, h ▸ rfl⟩⟩

/-! ### Parents -/

theorem mem_parents : top p ∈ (top (p ++ q)).parents ↔ q ≠ [] := by
  rw [parents, List.mem_map]
  constructor
  · rintro ⟨n, hn, he⟩ rfl
    rw [List.mem_reverse, List.mem_range, List.append_nil] at hn
    have hlength := congrArg (fun path => path.parts.length) he
    simp only [List.length_take, List.append_nil] at hlength hn
    omega
  · intro hq
    refine ⟨p.length, ?_, by rw [List.take_left]⟩
    have := List.length_pos_of_ne_nil hq
    rw [List.mem_reverse, List.mem_range, List.length_append]
    omega

theorem relativeTo_append : (top (p ++ q)).relativeTo (top p) = some ⟨[], q⟩ := by
  have hbelow : top p = top (p ++ q) ∨ top p ∈ (top (p ++ q)).parents := by
    by_cases hq : q = []
    · simp [hq]
    · exact .inr (mem_parents.mpr hq)
  rw [relativeTo, if_pos hbelow, List.drop_left]

theorem str_relative (hq : q ≠ []) : (⟨[], q⟩ : PosixPath).str = joinKey q := by
  simp [str, hq]

end PosixPath

/-! ## Under a root -/

open PosixPath (top SameFile)

namespace Root

/-- `FilesystemStorageSettings.directory`, of an absolute path. -/
def directory (path : PosixPath) : Except Exc Root :=
  match h : path.resolve with
  | .ok resolved => .ok ⟨resolved, PosixPath.resolve_resolve h⟩
  | .error error => .error error

variable (root : Root)

/-- The path of a root: its parts are plain, and can be written. -/
theorem path_eq : root.path = top root.path.parts ∧ ∀ s ∈ root.path.parts, Plain s ∧ Nameable s := by
  obtain ⟨p, he, hp⟩ := PosixPath.resolve_inv root.resolved
  rw [he]
  exact ⟨rfl, hp⟩

theorem join_eq {q : List Str} (hq : q ≠ []) (h : ∀ s ∈ q, Plain s) :
    root.path.join (joinKey q) = top (root.path.parts ++ q) := by
  obtain ⟨he, hp⟩ := root.path_eq
  rw [he]
  exact PosixPath.join_plain (fun s hs => (hp s hs).1) hq h

end Root

section Under

variable {root : Root} {maxLength : ℕ} {key : Str}

theorem target_eq (h : keyRefusal maxLength key = none) : target root key =
    (resolveBelow root.path.str (segments key)).map fun _ => top (root.path.parts ++ segments key) := by
  obtain ⟨he, hp⟩ := root.path_eq
  have hplain := plain_of_keyRefusal h
  have hjoin := root.join_eq (segments_ne_nil key) hplain
  rw [joinKey_segments] at hjoin
  have habove : root.path.str = (top root.path.parts).str := congrArg PosixPath.str he
  rw [target, hjoin, PosixPath.resolve_append hp hplain, habove]

theorem target_of_nameable (h : keyRefusal maxLength key = none) (hn : Nameable key) :
    target root key = .ok (top (root.path.parts ++ segments key)) := by
  obtain ⟨he, hp⟩ := root.path_eq
  have habove : Nameable root.path.str := he ▸ PosixPath.nameable_str fun s hs => (hp s hs).2
  rw [target_eq h, FilesystemStorage.resolveBelow_of_nameable habove (FilesystemStorage.nameable_iff_segments.mp hn)]
  rfl

/-- A key that leads to a path can be written. -/
theorem nameable_of_target {path : PosixPath} (h : keyRefusal maxLength key = none) (ht : target root key = .ok path) :
    Nameable key := by
  obtain ⟨he, hp⟩ := root.path_eq
  have habove : Nameable root.path.str := he ▸ PosixPath.nameable_str fun s hs => (hp s hs).2
  by_contra hn
  obtain ⟨start, run, herror⟩ := FilesystemStorage.resolveBelow_of_not_nameable habove fun hs =>
    hn (FilesystemStorage.nameable_iff_segments.mpr hs)
  rw [target_eq h, herror] at ht
  cases ht

theorem parts_of_target (h : keyRefusal maxLength key = none) (hn : Nameable key) :
    ∀ s ∈ root.path.parts ++ segments key, Plain s ∧ Nameable s := fun s hs =>
  (List.mem_append.mp hs).elim (root.path_eq.2 s) fun hs =>
    ⟨plain_of_keyRefusal h s hs, FilesystemStorage.nameable_iff_segments.mp hn s hs⟩

/-- The check of `_path_for` finds every key that is not refused below the root. -/
theorem FilesystemStorage.pathUnder_eq (fs : FilesystemStorage) (root : Root)
    (hroot : root.path.str = Str.ofString fs.root) (key : Str) :
    fs.pathUnder root key = (fs.pathFor key).map fun _ => top (root.path.parts ++ segments key) := by
  rw [pathUnder, pathFor]
  cases hr : (keyRefusal fs.maxKeyLength key).or (deviceRefusal key) with
  | some message => rfl
  | none =>
    have hbelow : root.path ∈ (top (root.path.parts ++ segments key)).parents := by
      rw [root.path_eq.1]
      exact PosixPath.mem_parents.mpr (segments_ne_nil key)
    dsimp only
    rw [target_eq (Option.or_eq_none_iff.mp hr).1, hroot]
    cases resolveBelow (Str.ofString fs.root) (segments key) with
    | error error => rfl
    | ok names => exact if_neg fun hc => hc.2 hbelow

/-! ### What `os.walk` comes to -/

theorem plain_fsdecode {names : List FileName} (h : ∀ name ∈ names, PlainName name) :
    ∀ s ∈ root.path.parts ++ names.map fsdecode, Plain s ∧ Nameable s := by
  intro s hs
  rcases List.mem_append.mp hs with hs | hs
  · exact root.path_eq.2 s hs
  · obtain ⟨name, hname, rfl⟩ := List.mem_map.mp hs
    exact ⟨(h name hname).plain, (nameable_fsdecode name).1⟩

theorem walked_eq {names : List FileName} (h : ∀ name ∈ names, PlainName name) :
    walked root names = (top (root.path.parts ++ names.dropLast.map fsdecode)).str := by
  have hdir : ∀ s ∈ names.dropLast.map fsdecode, Plain s := fun s hs => by
    obtain ⟨name, hname, rfl⟩ := List.mem_map.mp hs
    exact (h name (List.dropLast_subset _ hname)).plain
  have hroot : ∀ s ∈ root.path.parts, Plain s := fun s hs => (root.path_eq.2 s hs).1
  have habove : root.path.str = (top root.path.parts).str := congrArg PosixPath.str root.path_eq.1
  rw [walked, habove]
  clear h habove
  generalize names.dropLast.map fsdecode = dir at hdir
  generalize root.path.parts = p at hroot
  induction dir generalizing p with
  | nil => simp
  | cons s dir ih =>
    obtain ⟨hs, hdir⟩ := List.forall_mem_cons.mp hdir
    have hstep := PosixPath.posixJoin_str hroot (List.cons_ne_nil s []) (by simpa using hs)
    rw [joinKey_singleton] at hstep
    rw [List.foldl_cons, hstep, ih hdir (p ++ [s]), List.append_assoc, List.singleton_append]
    exact fun x hx => (List.mem_append.mp hx).elim (hroot x) fun hx => List.mem_singleton.mp hx ▸ hs

/-- The path of a file that is at plain names below the root. -/
theorem fileOf_eq {names : List FileName} (hn : names ≠ []) (h : ∀ name ∈ names, PlainName name) :
    fileOf root names = top (root.path.parts ++ names.map fsdecode) := by
  have hsplit : names.dropLast ++ [names.getLastD []] = names := by
    rw [List.getLastD_eq_getLast?, List.getLast?_eq_getLast_of_ne_nil hn]
    exact List.dropLast_append_getLast hn
  have hlast : Plain (fsdecode (names.getLastD [])) := (h _ (hsplit ▸ by simp)).plain
  have hdir : ∀ s ∈ root.path.parts ++ names.dropLast.map fsdecode, Plain s := fun s hs =>
    (plain_fsdecode (fun name hname => h name (List.dropLast_subset _ hname)) s hs).1
  have hone : ∀ s ∈ [fsdecode (names.getLastD [])], Plain s := fun s hs => List.mem_singleton.mp hs ▸ hlast
  have hjoin := PosixPath.join_plain hdir (List.cons_ne_nil _ []) hone
  have hnames : names.dropLast.map fsdecode ++ [fsdecode (names.getLastD [])] = names.map fsdecode := by
    conv_rhs => rw [← hsplit, List.map_append]
    rfl
  rw [joinKey_singleton, List.append_assoc, hnames] at hjoin
  rw [fileOf, walked_eq h, PosixPath.parse_str hdir, hjoin]

/-- A file at plain names is listed under the key that the names make. -/
theorem keyOf_eq {names : List FileName} (hn : names ≠ []) (h : ∀ name ∈ names, PlainName name)
    (hr : ¬ IsReserved (fsdecode (names.getLastD []))) : keyOf root names = some (keyAt names) := by
  rw [keyOf, if_neg hr, fileOf_eq hn h]
  conv_lhs => rw [root.path_eq.1]
  rw [PosixPath.relativeTo_append, Option.map_some, PosixPath.str_relative (by simpa using hn)]
  rfl

/-- The names at which a tree has files are plain, as a directory has them. -/
def HasPlainNames (items : Entries) : Prop := ∀ names ∈ Tree.walk items, names ≠ [] ∧ ∀ name ∈ names, PlainName name

/-- The paths that `os.walk` comes to, and those of the tree, have the same keys. -/
theorem keys_eq_keysUnder {items : Entries} (h : HasPlainNames items) :
    FilesystemStorage.keys items = keysUnder root items := by
  rw [FilesystemStorage.keys, keysUnder]
  unfold HasPlainNames at h
  generalize Tree.walk items = paths at h
  induction paths with
  | nil => rfl
  | cons names paths ih =>
    obtain ⟨hn, hplain⟩ := h names (List.mem_cons_self ..)
    have hrest := ih fun x hx => h x (List.mem_cons_of_mem _ hx)
    by_cases hr : IsReserved (fsdecode (names.getLastD []))
    · rw [List.filter_cons_of_neg (by simpa using hr), List.filterMap_cons_none (by rw [keyOf, if_pos hr]), hrest]
    · rw [List.filter_cons_of_pos (by simpa using hr), List.filterMap_cons_some (keyOf_eq hn hplain hr), List.map_cons,
        hrest]

/-! ### What the provider keeps for itself -/

/-- A path that the provider keeps for itself: the probe, or a temporary file beside a file that is below the root. -/
def Own (root : Root) (path : PosixPath) : Prop :=
  path = probe root ∨ ∃ published chosen, published.resolve = .ok published ∧ root.path ∈ published.parents ∧
    codeOf '/' ∉ chosen ∧ Nameable chosen ∧ path = temporary published chosen

theorem plain_reserved {chosen : Str} (h : codeOf '/' ∉ chosen) (hn : Nameable chosen) :
    Plain (reservedSegmentPrefix ++ chosen) ∧ Nameable (reservedSegmentPrefix ++ chosen) := by
  refine ⟨⟨fun hm => ?_, fun hm => ?_⟩, nameable_append.mpr ⟨by decide, hn⟩⟩
  · -- the prefix is longer than the names that are refused
    have hshort : ∀ t ∈ refusedSegments, t.length < reservedSegmentPrefix.length := by decide +kernel
    have hlength := hshort _ hm
    rw [List.length_append] at hlength
    omega
  · exact (List.mem_append.mp hm).elim (by decide) h

/-- Such a path ends in a reserved name. -/
theorem Own.reserved {path : PosixPath} (h : Own root path) :
    ∃ p chosen, path = top (p ++ [reservedSegmentPrefix ++ chosen]) ∧
      ∀ s ∈ p ++ [reservedSegmentPrefix ++ chosen], Plain s ∧ Nameable s := by
  have hlast : ∀ p chosen, (∀ s ∈ p, Plain s ∧ Nameable s) → codeOf '/' ∉ chosen → Nameable chosen →
      (∀ s ∈ p ++ [reservedSegmentPrefix ++ chosen], Plain s ∧ Nameable s) ∧
        (top p).join (reservedSegmentPrefix ++ chosen) = top (p ++ [reservedSegmentPrefix ++ chosen]) := by
    intro p chosen hp hchosen hn
    have hone : ∀ s ∈ [reservedSegmentPrefix ++ chosen], Plain s ∧ Nameable s := fun s hs =>
      List.mem_singleton.mp hs ▸ plain_reserved hchosen hn
    have hjoin := PosixPath.join_plain (fun s hs => (hp s hs).1) (List.cons_ne_nil _ []) fun s hs => (hone s hs).1
    rw [joinKey_singleton] at hjoin
    exact ⟨fun s hs => (List.mem_append.mp hs).elim (hp s) (hone s), hjoin⟩
  rcases h with rfl | ⟨published, chosen, hresolved, -, hchosen, hn, rfl⟩
  · obtain ⟨he, hp⟩ := root.path_eq
    obtain ⟨hparts, hjoin⟩ := hlast _ (Str.ofString "health") hp (by decide) (by decide)
    exact ⟨_, _, by rw [probe, he, hjoin], hparts⟩
  · obtain ⟨p, rfl, hp⟩ := PosixPath.resolve_inv hresolved
    obtain ⟨hparts, hjoin⟩ := hlast p.dropLast chosen (fun s hs => hp s (List.dropLast_subset _ hs)) hchosen hn
    exact ⟨_, _, hjoin, hparts⟩

/-- No key that is accepted leads to such a file. -/
theorem not_sameFile_own {path : PosixPath} (h : keyRefusal maxLength key = none) (hn : Nameable key) (hown : Own root path) :
    ¬ SameFile path (top (root.path.parts ++ segments key)) := by
  obtain ⟨p, chosen, rfl, hparts⟩ := hown.reserved
  rw [PosixPath.sameFile_top hparts (parts_of_target h hn)]
  intro he
  have hlast := congrArg List.getLast? he
  obtain ⟨before, s, hsplit⟩ := (List.eq_nil_or_concat' (segments key)).resolve_left (segments_ne_nil key)
  rw [hsplit, ← List.append_assoc, List.map_append, List.map_append, List.map_singleton, List.map_singleton,
    List.getLast?_concat, List.getLast?_concat, Option.some_inj] at hlast
  have hprefix : reservedSegmentPrefix.flatMap nameBytes <+: s.flatMap nameBytes :=
    ⟨chosen.flatMap nameBytes, by rw [← List.flatMap_append]; exact hlast⟩
  exact (proper_of_keyRefusal h s (by rw [hsplit]; simp)).2 ((ascii_prefix_iff (by decide)).mp hprefix)

/-! ### Keys and files -/

/-- A key leads to a path strictly below the root that is the key itself; the file there, and no other, is listed under
the key; and it is none that the provider keeps for itself. -/
structure Leads (root : Root) (key : Str) (path : PosixPath) : Prop where
  below : root.path ∈ path.parents
  relative : (path.relativeTo root.path).map PosixPath.str = some key
  listed : ∀ items, HasPlainNames items →
    ∀ names ∈ Tree.walk items, SameFile (fileOf root names) path ↔ keyOf root names = some key
  keys : ∀ items, HasPlainNames items →
    (key ∈ keysUnder root items ↔ ∃ names ∈ Tree.walk items, SameFile (fileOf root names) path)
  not_own : ∀ own, Own root own → ¬ SameFile own path

/-- Keys that cannot escape or collide. -/
structure Separate (root : Root) (keys : Set Str) : Prop where
  leads : ∀ key ∈ keys, ∃ path, target root key = .ok path ∧ Leads root key path
  apart : ∀ key ∈ keys, ∀ key' ∈ keys, ∀ path path', target root key = .ok path → target root key' = .ok path' →
    SameFile path path' → key = key'

theorem sameFile_fileOf {names : List FileName} (h : keyRefusal maxLength key = none) (hk : Nameable key)
    (hn : names ≠ []) (hplain : ∀ name ∈ names, PlainName name) :
    SameFile (fileOf root names) (top (root.path.parts ++ segments key)) ↔ names = pathOf key := by
  rw [fileOf_eq hn hplain, PosixPath.sameFile_top (plain_fsdecode hplain) (parts_of_target h hk), List.map_append,
    List.map_append, List.append_cancel_left_eq, List.map_map]
  have hback : names.map (nameOf ∘ fsdecode) = names := by
    conv_rhs => rw [← List.map_id names]
    exact List.map_congr_left fun name _ => FilesystemStorage.nameOf_fsdecode name
  rw [hback]
  rfl

/-- A key that is not the only one with its path is not the one under which its file is listed. -/
theorem legible_of_leads {path : PosixPath} (h : keyRefusal maxLength key = none) (ht : target root key = .ok path)
    (hleads : Leads root key path) : LegibleKey key := by
  have hn := nameable_of_target h ht
  obtain rfl : top (root.path.parts ++ segments key) = path := Except.ok.inj ((target_of_nameable h hn).symm.trans ht)
  have hnames : ∀ name ∈ pathOf key, PlainName name := by
    intro name hname
    obtain ⟨s, hs, rfl⟩ := List.mem_map.mp hname
    exact (plain_of_keyRefusal h s hs).plainName
  have hne := FilesystemStorage.pathOf_ne_nil key
  -- a tree with a file at the path of the key
  have hfree : Tree.Free (pathOf key) ([] : Entries) := by
    obtain ⟨name, path, he⟩ := List.exists_cons_of_ne_nil hne
    rw [he]
    trivial
  have htidy : Tree.Tidy PlainName (Tree.store (pathOf key) [] ([] : Entries)) := Tree.tidy_store Tree.tidy_nil hnames
  have hthere : pathOf key ∈ Tree.walk (Tree.store (pathOf key) [] ([] : Entries)) := by
    rw [Tree.mem_walk htidy, Tree.fileAt_store hfree, if_pos rfl]
    rfl
  have hitems : HasPlainNames (Tree.store (pathOf key) [] ([] : Entries)) := by
    intro names hwalk
    have hf := (Tree.mem_walk htidy names).mp hwalk
    refine ⟨?_, Tree.names_of_fileAt htidy hf⟩
    rintro rfl
    simp [Tree.fileAt] at hf
  have hkey := (hleads.listed _ hitems _ hthere).mp ((sameFile_fileOf h hn hne hnames).mpr rfl)
  have hr : ¬ IsReserved (fsdecode ((pathOf key).getLastD [])) := fun hr => by
    rw [keyOf, if_pos hr] at hkey
    cases hkey
  rw [keyOf_eq hne hnames hr] at hkey
  have hback := FilesystemStorage.legibleKey_keyAt hne fun name hname => (hnames name hname).2
  rwa [Option.some.inj hkey] at hback

/-- A key that is the only one with its path leads there. -/
theorem leads_of_legible (h : keyRefusal maxLength key = none) (hk : LegibleKey key) :
    Leads root key (top (root.path.parts ++ segments key)) := by
  have hlisted : ∀ items, HasPlainNames items → ∀ names ∈ Tree.walk items,
      SameFile (fileOf root names) (top (root.path.parts ++ segments key)) ↔ keyOf root names = some key := by
    intro items hitems names hwalk
    obtain ⟨hne, hnames⟩ := hitems names hwalk
    rw [sameFile_fileOf h hk.nameable hne hnames]
    constructor
    · -- the names are those of the key, which is read back from them
      rintro rfl
      have hlast : (pathOf key).getLastD [] ∈ (pathOf key).dropLast ++ [(pathOf key).getLastD []] := by simp
      rw [FilesystemStorage.pathOf_split] at hlast
      have hname := FilesystemStorage.isName_of_allows (proper_of_keyRefusal h) hk _ hlast
      rw [keyOf_eq hne hnames hname.2, FilesystemStorage.keyAt_pathOf hk]
    · -- the names spell the key, so its path is theirs
      intro hkey
      have hr : ¬ IsReserved (fsdecode (names.getLastD [])) := fun hr => by
        rw [keyOf, if_pos hr] at hkey
        cases hkey
      rw [keyOf_eq hne hnames hr] at hkey
      rw [← Option.some.inj hkey, FilesystemStorage.pathOf_keyAt hne fun name hname => (hnames name hname).2]
  have hroot := root.path_eq.1
  constructor
  · rw [hroot]
    exact PosixPath.mem_parents.mpr (segments_ne_nil key)
  · conv_lhs => rw [hroot]
    rw [PosixPath.relativeTo_append, Option.map_some, PosixPath.str_relative (segments_ne_nil key), joinKey_segments]
  · exact hlisted
  · intro items hitems
    rw [keysUnder, List.mem_filterMap]
    exact exists_congr fun names => and_congr_right fun hwalk => (hlisted items hitems names hwalk).symm
  · exact fun own hown => not_sameFile_own h hk.nameable hown

/-- **Accepted keys cannot escape or collide** exactly when each of them is the only key with its path. -/
theorem separate_iff (root : Root) (keys : Set Str) (h : ∀ key ∈ keys, ∃ maxLength, validateKey maxLength key = .ok ()) :
    Separate root keys ↔ ∀ key ∈ keys, LegibleKey key := by
  have hvalid : ∀ key ∈ keys, ∃ maxLength, keyRefusal maxLength key = none := fun key hkey =>
    (h key hkey).imp fun _ => validateKey_eq_ok.mp
  constructor
  · intro hseparate key hkey
    obtain ⟨maxLength, hrefusal⟩ := hvalid key hkey
    obtain ⟨path, ht, hleads⟩ := hseparate.leads key hkey
    exact legible_of_leads hrefusal ht hleads
  · intro hlegible
    refine ⟨fun key hkey => ?_, fun key hkey key' hkey' path path' ht ht' hsame => ?_⟩
    · obtain ⟨maxLength, hrefusal⟩ := hvalid key hkey
      have hk := hlegible key hkey
      exact ⟨_, target_of_nameable hrefusal hk.nameable, leads_of_legible hrefusal hk⟩
    · obtain ⟨maxLength, hrefusal⟩ := hvalid key hkey
      obtain ⟨maxLength', hrefusal'⟩ := hvalid key' hkey'
      have hk := hlegible key hkey
      have hk' := hlegible key' hkey'
      rw [target_of_nameable hrefusal hk.nameable] at ht
      rw [target_of_nameable hrefusal' hk'.nameable] at ht'
      obtain rfl := Except.ok.inj ht
      obtain rfl := Except.ok.inj ht'
      rw [PosixPath.sameFile_top (parts_of_target hrefusal hk.nameable) (parts_of_target hrefusal' hk'.nameable),
        List.map_append, List.map_append, List.append_cancel_left_eq] at hsame
      exact FilesystemStorage.pathOf_inj hk hk' hsame

end Under

/-- The root of a deployment. -/
def srv : Root where
  path := .parse (Str.ofString "/var/storage")
  resolved := by decide +kernel

example : (Root.directory (.parse (Str.ofString "/srv/../var//storage/."))).map Root.path = .ok srv.path := by
  decide +kernel

/-- Keys with dots, an accent and a byte that is no text. -/
theorem separate_names : Separate srv {Str.ofString "images/..logo", Str.ofString "é", [0xdce9]} :=
  (separate_iff srv _ (by
    rintro key (rfl | rfl | rfl)
    · exact ⟨1024, by decide +kernel⟩
    · exact ⟨1024, by decide +kernel⟩
    · exact ⟨1024, by decide +kernel⟩)).mpr (by
    rintro key (rfl | rfl | rfl)
    · decide +kernel
    · decide +kernel
    · decide +kernel)

/-- The escapes of the two bytes of an accented letter, and the letter: two accepted keys with one file.  A surrogate that
is no escape leads nowhere. -/
theorem not_separate_accents :
    (validateKey 1024 [0xdcc3, 0xdca9] = .ok () ∧ validateKey 1024 (Str.ofString "é") = .ok () ∧
      ¬ Separate srv {[0xdcc3, 0xdca9], Str.ofString "é"}) ∧
    (validateKey 1024 [0xd800] = .ok () ∧ ¬ Separate srv {[0xd800]} ∧
      ∃ error, target srv [0xd800] = .error error ∧ error.cls.name = "UnicodeEncodeError") := by
  refine ⟨⟨by decide +kernel, by decide +kernel, fun h => ?_⟩, by decide +kernel, fun h => ?_, ?_⟩
  · have hone := h.apart [0xdcc3, 0xdca9] (by simp) (Str.ofString "é") (by simp)
      ⟨Str.ofString "/", [Str.ofString "var", Str.ofString "storage", [0xdcc3, 0xdca9]]⟩
      ⟨Str.ofString "/", [Str.ofString "var", Str.ofString "storage", Str.ofString "é"]⟩
      (by decide +kernel) (by decide +kernel)
      ⟨[Str.ofString "var", Str.ofString "storage", Str.ofString "é"].map nameOf, by decide +kernel, by decide +kernel⟩
    exact absurd hone (by decide)
  · obtain ⟨path, ht, -⟩ := h.leads [0xd800] rfl
    have hkey : keyRefusal 1024 [0xd800] = none := by decide +kernel
    exact absurd (nameable_of_target hkey ht) (by decide)
  · exact ⟨unicodeEncodeError 13 [0xd800], by decide +kernel, rfl⟩

end Xyberos.Storage
