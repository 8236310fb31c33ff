import Xyberos.Base.Directories
import Xyberos.Storage.Contracts
import Mathlib.Data.List.DropRight

/-!
# Xyberos.Storage.Filesystem — objects as files under a root

The root is a directory of a tree without symbolic links, so that a path resolves to itself and lies under the root,
and the root is there from the start: `_ensure_root` finds it.  A name in a directory is bytes, those of the segment as
`os.fsencode` writes it.  `mkstemp` picks a name that is free, and `strerror` is the text of an `OSError`.

A key that cannot be written as a name raises where its path is resolved; and an escape in a key may be a byte of
another key's name (`LegibleKey`).  Over every sequence of calls with keys that are spelled only one way, the files of
the tree are the contents of the history, and no directory below the root is empty (`filesystem_is_map`).
-/

set_option autoImplicit false

namespace Xyberos.Storage

open Json

/-- A name in a directory. -/
abbrev FileName := List Byte

/-- The separator in a path. -/
def slash : Byte := .ofNat 0x2f

abbrev Entries := Tree.Entries FileName Bytes

/-- What the provider uses of the operating system. -/
structure Posix where
  mkstemp : List FileName → FileName
  strerror : Tree.Errno → String
  fresh : ∀ names, mkstemp names ∉ names

/-- `FilesystemStorage`, by its settings. -/
structure FilesystemStorage where
  posix : Posix
  root : String
  maxObjectBytes : ℕ
  maxKeyLength : ℕ

/-- `_DEVICE_NAMES`. -/
def deviceNames : List Str :=
  (["con", "prn", "aux", "nul"] ++ (List.range' 1 9).map (fun index => "com" ++ toString index) ++
    (List.range' 1 9).map fun index => "lpt" ++ toString index).map Str.ofString

/-- `str.lower`, less the letters beyond ASCII: none of them has a letter of a device name in lower case. -/
def lowerAscii (c : CodePoint) : CodePoint := if 0x41 ≤ c.val ∧ c.val ≤ 0x5a then CodePoint.ofNat (c.val + 0x20) else c

/-- The stem of a segment, in lower case. -/
def stem (segment : Str) : Str :=
  ((segment.rdropWhile fun c => c = codeOf ' ' ∨ c = codeOf '.').takeWhile (· ≠ codeOf '.')).map lowerAscii

/-- `_refuse_device_name`: why a key is refused. -/
def deviceRefusal (key : Str) : Option String :=
  (segments key).findSome? fun segment =>
    if deviceNames.contains (stem segment) then
      some (s!"a storage key segment must not name a device, and {reprText segment} does: on " ++
        "Windows it resolves to a device rather than a file, so one key means two things")
    else none

/-- `posixpath.join`. -/
def posixJoin (a b : Str) : Str :=
  if b.head? = some (codeOf '/') then b
  else if a = [] ∨ a.getLast? = some (codeOf '/') then a ++ b
  else a ++ codeOf '/' :: b

/-- The name of a segment. -/
def nameOf (s : Str) : FileName := s.flatMap nameBytes

/-- `resolve()` of what is below a directory, where nothing is a symbolic link: each part is looked up on the way. -/
def resolveBelow (above : Str) : List Str → Except Exc (List FileName)
  | [] => .ok []
  | s :: path => do
    let _ ← fsencode (posixJoin above s)
    return nameOf s :: (← resolveBelow (posixJoin above s) path)

namespace FilesystemStorage

variable (fs : FilesystemStorage)

/-- `_path_for`: the path of a key under the root. -/
def pathFor (key : Str) : Except Exc (List FileName) :=
  match (keyRefusal fs.maxKeyLength key).or (deviceRefusal key) with
  | some message => .error (storageKeyError message)
  | none => resolveBelow (Str.ofString fs.root) (segments key)

def sizeError (key : Str) (data : Bytes) : Exc :=
  storageSizeLimitError (s!"{reprText key} is {data.length} bytes, over this provider's " ++
    s!"{fs.maxObjectBytes}-byte ceiling")

/-- `put`. -/
def put (items : Entries) (key : Str) (data : Bytes) : Entries × Except Exc Answer :=
  match fs.pathFor key with
  | .error error => (items, .error error)
  | .ok path =>
    if fs.maxObjectBytes < data.length then (items, .error (fs.sizeError key data))
    else
      let failed := fun errno => Except.error (storageError
        s!"{reprText key} could not be stored under {fs.root}: {fs.posix.strerror errno}")
      match Tree.mkdirs path.dropLast items with
      | (items, .error errno) => (items, failed errno)
      | (items, .ok ()) =>
        match Tree.within path.dropLast (Tree.publish fs.posix.mkstemp (path.getLastD []) data) items with
        | (items, .error errno) => (items, failed errno)
        | (items, .ok ()) => (items, .ok (.stored ⟨key, data.length⟩))

/-- `get`. -/
def get (items : Entries) (key : Str) : Except Exc Answer :=
  match fs.pathFor key with
  | .error error => .error error
  | .ok path =>
    match (Tree.within path.dropLast (Tree.read (path.getLastD [])) items).2 with
    | .ok data => .ok (.bytes data)
    | .error errno =>
      if errno ∈ [Tree.Errno.noent, .isdir, .notdir] then
        .error (storageNotFoundError s!"no object is stored under {reprText key}")
      else .error (storageError s!"{reprText key} could not be read from {fs.root}: {fs.posix.strerror errno}")

/-- `delete`. -/
def delete (items : Entries) (key : Str) : Entries × Except Exc Answer :=
  match fs.pathFor key with
  | .error error => (items, .error error)
  | .ok path =>
    match Tree.within path.dropLast (Tree.unlink (path.getLastD [])) items with
    | (items, .ok ()) => (Tree.prune path.dropLast.reverse items, .ok (.removed true))
    | (items, .error errno) =>
      if errno ∈ [Tree.Errno.noent, .isdir, .notdir] then (items, .ok (.removed false))
      else (items, .error (storageError
        s!"{reprText key} could not be removed from {fs.root}: {fs.posix.strerror errno}"))

/-- The key of the file at a path: the names are read as texts. -/
def keyAt (path : List FileName) : Str := joinKey (path.map fsdecode)

/-- `_keys`. -/
def keys (items : Entries) : List Str :=
  ((Tree.walk items).filter fun path => ¬ IsReserved (fsdecode (path.getLastD []))).map keyAt

/-- One call of the provider. -/
def call (items : Entries) : Call → Entries × Except Exc Answer
  | .put key data => fs.put items key data
  | .get key => (items, fs.get items key)
  | .delete key => fs.delete items key
  | .listKeys start => (items, .ok (.keys (listed (keys items) start)))

/-- The tree and the history after calls, from an empty root. -/
def run (calls : List Call) : Entries × List (Call × Except Exc Answer) :=
  calls.foldl (fun s c => ((fs.call s.1 c).1, s.2 ++ [(c, (fs.call s.1 c).2)])) ([], [])

/-! ## What the provider is for -/

/-- A key that no rule refuses. -/
def Allows (key : Str) : Prop := keyRefusal fs.maxKeyLength key = none ∧ deviceRefusal key = none

/-- A key that the provider accepts: it can also be written as a path. -/
def Accepts (key : Str) : Prop := fs.Allows key ∧ Nameable key

/-- A key that is the only one with its path: no escapes in a segment spell out a character. -/
def LegibleKey (key : Str) : Prop := ∀ s ∈ segments key, Legible s

instance (key : Str) : Decidable (LegibleKey key) := List.decidableBAll (fun s => Legible s) (segments key)

/-- The key of a call, if it is accepted, is the only one with its path. -/
def LegibleCall : Call → Prop
  | .put key _ | .get key | .delete key => fs.Accepts key → LegibleKey key
  | .listKeys _ => True

/-- The path of a key. -/
def pathOf (key : Str) : List FileName := (segments key).map nameOf

/-- One key is a path above the other, or the same. -/
def Nested (key key' : Str) : Prop := segments key' <+: segments key ∨ segments key <+: segments key'

/-- A name in a path: it has no separator, and is not reserved. -/
def IsName (name : FileName) : Prop := slash ∉ name ∧ ¬ IsReserved (fsdecode name)

/-- The files of the tree are the contents, and only the root may be empty. -/
structure Holds (items : Entries) (m : Contents) : Prop where
  tidy : Tree.Tidy IsName items
  files : ∀ key, LegibleKey key → Tree.fileAt (pathOf key) items = m key
  legible : ∀ key, (m key).isSome → LegibleKey key

/-- The provider answers as a finite map with these contents, and a call that fails or removes leaves the rest. -/
structure IsMap (items : Entries) (m : Contents) : Prop where
  get_some : ∀ key data, fs.Accepts key → m key = some data → fs.get items key = .ok (.bytes data)
  get_none : ∀ key, fs.Accepts key → LegibleKey key → m key = none →
    fs.get items key = .error (storageNotFoundError s!"no object is stored under {reprText key}")
  delete : ∀ key, fs.Accepts key → LegibleKey key → (fs.delete items key).2 = .ok (.removed (m key).isSome)
  put : ∀ key data, LegibleKey key → ((fs.put items key data).2 = .ok (.stored ⟨key, data.length⟩) ↔
    fs.Accepts key ∧ data.length ≤ fs.maxObjectBytes ∧ ∀ key', (m key').isSome → Nested key key' → key' = key)
  put_error : ∀ key data, (fs.put items key data).2 ≠ .ok (.stored ⟨key, data.length⟩) →
    (∃ error, (fs.put items key data).2 = .error error) ∧ (fs.put items key data).1 = items
  refused : ∀ key, ¬ fs.Accepts key → ∃ error, fs.get items key = .error error ∧
    fs.delete items key = (items, .error error) ∧ (∀ data, fs.put items key data = (items, .error error)) ∧
    (¬ fs.Allows key → ∃ message, error = storageKeyError message) ∧
    (fs.Allows key → ∃ start run, error = unicodeEncodeError start run)
  listKeys : ∀ start, ∃ keys, fs.call items (.listKeys start) = (items, .ok (.keys keys)) ∧
    keys.Pairwise (· < ·) ∧ ∀ key, key ∈ keys ↔ (m key).isSome ∧ start <+: key
  kept : ∀ key path, path ≠ pathOf key → Tree.fileAt path (fs.delete items key).1 = Tree.fileAt path items

/-! ### Names -/

section Names

variable {above key key' s : Str} {path : List FileName} {p : List Str} {name : FileName}

theorem slash_mem_iff : slash ∈ nameOf s ↔ codeOf '/' ∈ s := ascii_mem_iff (c := codeOf '/') (by decide)

@[simp] theorem nameOf_fsdecode (name : FileName) : nameOf (fsdecode name) = name := (nameable_fsdecode name).2

theorem fsdecode_nameOf (h : Legible s) : fsdecode (nameOf s) = s := fsdecode_iff.mpr h

theorem slash_not_mem_fsdecode (h : slash ∉ name) : codeOf '/' ∉ fsdecode name := by
  rwa [← slash_mem_iff, nameOf_fsdecode]

/-- The segments of a key that is allowed are names. -/
theorem isName_of_allows (h : ∀ s ∈ segments key, Proper s) (hk : LegibleKey key) : ∀ name ∈ pathOf key, IsName name := by
  intro name hname
  obtain ⟨s, hs, rfl⟩ := List.mem_map.mp hname
  refine ⟨fun hm => separator_not_mem hs (slash_mem_iff.mp hm), ?_⟩
  rw [fsdecode_nameOf (hk s hs)]
  exact (h s hs).2

/-- What stands in a joined key is a separator or stands in a part. -/
theorem mem_joinKey {c : CodePoint} (h : c ∈ joinKey p) : c = codeOf '/' ∨ ∃ s ∈ p, c ∈ s := by
  unfold joinKey at h
  induction p with
  | nil => cases h
  | cons s p ih =>
    by_cases hp : p = []
    · subst hp
      exact .inr ⟨s, List.mem_singleton_self s, by simpa using h⟩
    · rw [List.intercalate_cons_of_ne_nil hp, List.append_assoc] at h
      rcases List.mem_append.mp h with h | h
      · exact .inr ⟨s, List.mem_cons_self .., h⟩
      rcases List.mem_append.mp h with h | h
      · exact .inl (List.mem_singleton.mp h)
      · exact (ih h).imp_right fun ⟨s', hs', hc⟩ => ⟨s', List.mem_cons_of_mem _ hs', hc⟩

theorem nameable_iff_segments : Nameable key ↔ ∀ s ∈ segments key, Nameable s := by
  refine ⟨fun h s hs c hc => h c ((segment_within hs).subset hc), fun h c hc => ?_⟩
  rw [← joinKey_segments key] at hc
  rcases mem_joinKey hc with rfl | ⟨s, hs, hc⟩
  · exact fun hs => absurd hs (by decide)
  · exact h s hs c hc

theorem LegibleKey.nameable (h : LegibleKey key) : Nameable key :=
  nameable_iff_segments.mpr fun s hs => (h s hs).nameable

/-- A key without surrogates is legible. -/
theorem legibleKey_of_encodable (h : Encodable key) : LegibleKey key := fun _ hs =>
  legible_of_encodable fun c hc => h c ((segment_within hs).subset hc)

theorem pathOf_ne_nil (key : Str) : pathOf key ≠ [] := by simp [pathOf, segments_ne_nil]

theorem pathOf_split (key : Str) : (pathOf key).dropLast ++ [(pathOf key).getLastD []] = pathOf key := by
  have hne := pathOf_ne_nil key
  rw [List.getLastD_eq_getLast?, List.getLast?_eq_getLast_of_ne_nil hne, Option.getD_some]
  exact List.dropLast_concat_getLast hne

theorem map_fsdecode_pathOf (h : LegibleKey key) : (pathOf key).map fsdecode = segments key := by
  rw [pathOf, List.map_map]
  conv_rhs => rw [← List.map_id (segments key)]
  exact List.map_congr_left fun s hs => fsdecode_nameOf (h s hs)

theorem keyAt_pathOf (h : LegibleKey key) : keyAt (pathOf key) = key := by
  rw [keyAt, map_fsdecode_pathOf h, joinKey_segments]

theorem segments_keyAt (hp : path ≠ []) (h : ∀ name ∈ path, slash ∉ name) : segments (keyAt path) = path.map fsdecode := by
  refine segments_joinKey (by simpa using hp) fun s hs => ?_
  obtain ⟨name, hname, rfl⟩ := List.mem_map.mp hs
  exact slash_not_mem_fsdecode (h name hname)

/-- Every path is that of a key, one that is legible. -/
theorem pathOf_keyAt (hp : path ≠ []) (h : ∀ name ∈ path, slash ∉ name) : pathOf (keyAt path) = path := by
  rw [pathOf, segments_keyAt hp h, List.map_map]
  conv_rhs => rw [← List.map_id path]
  exact List.map_congr_left fun name _ => nameOf_fsdecode name

theorem legibleKey_keyAt (hp : path ≠ []) (h : ∀ name ∈ path, slash ∉ name) : LegibleKey (keyAt path) := by
  intro s hs
  rw [segments_keyAt hp h] at hs
  obtain ⟨name, -, rfl⟩ := List.mem_map.mp hs
  exact legible_fsdecode name

theorem pathOf_inj (h : LegibleKey key) (h' : LegibleKey key') (he : pathOf key = pathOf key') : key = key' := by
  rw [← keyAt_pathOf h, he, keyAt_pathOf h']

theorem pathOf_prefix_iff (h : LegibleKey key) (h' : LegibleKey key') :
    pathOf key <+: pathOf key' ↔ segments key <+: segments key' := by
  refine ⟨fun hpre => ?_, fun hpre => hpre.map nameOf⟩
  have hmap := hpre.map fsdecode
  rwa [map_fsdecode_pathOf h, map_fsdecode_pathOf h'] at hmap

end Names

/-! ### Paths -/

section Path

variable {fs} {above key : Str} {p : List Str}

theorem nameable_ofString (text : String) : Nameable (Str.ofString text) :=
  nameable_of_encodable (encodable_ofString text)

theorem nameable_posixJoin {a b : Str} (ha : Nameable a) : Nameable (posixJoin a b) ↔ Nameable b := by
  have hslash : Nameable (codeOf '/' :: b) ↔ Nameable b :=
    ⟨fun h => (List.forall_mem_cons.mp h).2, fun h => List.forall_mem_cons.mpr ⟨fun hs => absurd hs (by decide), h⟩⟩
  unfold posixJoin
  split_ifs
  · rfl
  · rw [nameable_append, and_iff_right ha]
  · rw [nameable_append, and_iff_right ha, hslash]

theorem resolveBelow_of_nameable (ha : Nameable above) (h : ∀ s ∈ p, Nameable s) :
    resolveBelow above p = .ok (p.map nameOf) := by
  induction p generalizing above with
  | nil => rfl
  | cons s p ih =>
    obtain ⟨hs, hp⟩ := List.forall_mem_cons.mp h
    have hjoin := (nameable_posixJoin ha).mpr hs
    rw [resolveBelow, fsencode_of_nameable hjoin, ih hjoin hp]
    rfl

theorem resolveBelow_of_not_nameable (ha : Nameable above) (h : ¬ ∀ s ∈ p, Nameable s) :
    ∃ start run, resolveBelow above p = .error (unicodeEncodeError start run) := by
  induction p generalizing above with
  | nil => exact absurd (fun _ hs => absurd hs List.not_mem_nil) h
  | cons s p ih =>
    rw [List.forall_mem_cons, not_and] at h
    by_cases hs : Nameable s
    · have hjoin := (nameable_posixJoin ha).mpr hs
      obtain ⟨start, run, hrest⟩ := ih hjoin (h hs)
      exact ⟨start, run, by rw [resolveBelow, fsencode_of_nameable hjoin, hrest]; rfl⟩
    · obtain ⟨start, run, hjoin⟩ := fsencode_of_not_nameable fun hn => hs ((nameable_posixJoin ha).mp hn)
      exact ⟨start, run, by rw [resolveBelow, hjoin]; rfl⟩

theorem pathFor_of_accepts (h : fs.Accepts key) : fs.pathFor key = .ok (pathOf key) := by
  rw [pathFor, h.1.1, h.1.2]
  exact resolveBelow_of_nameable (nameable_ofString _) (nameable_iff_segments.mp h.2)

theorem pathFor_of_not_accepts (h : ¬ fs.Accepts key) : ∃ error, fs.pathFor key = .error error ∧
    (¬ fs.Allows key → ∃ message, error = storageKeyError message) ∧
    (fs.Allows key → ∃ start run, error = unicodeEncodeError start run) := by
  unfold pathFor
  cases hr : (keyRefusal fs.maxKeyLength key).or (deviceRefusal key) with
  | some message =>
    refine ⟨_, rfl, fun _ => ⟨message, rfl⟩, fun ha => ?_⟩
    rw [ha.1, ha.2] at hr
    cases hr
  | none =>
    have ha : fs.Allows key := Option.or_eq_none_iff.mp hr
    obtain ⟨start, run, he⟩ := resolveBelow_of_not_nameable (nameable_ofString fs.root) fun hn =>
      h ⟨ha, nameable_iff_segments.mpr hn⟩
    exact ⟨_, he, fun hna => absurd ha hna, fun _ => ⟨start, run, rfl⟩⟩

end Path

section Calls

variable {fs} {items : Entries} {m : Contents} {key : Str} {data : Bytes}

/-- A write where nothing is in the way. -/
theorem put_of_free (hk : fs.Accepts key) (hsize : data.length ≤ fs.maxObjectBytes) (hf : Tree.Free (pathOf key) items) :
    fs.put items key data = (Tree.store (pathOf key) data items, .ok (.stored ⟨key, data.length⟩)) := by
  rw [← pathOf_split key] at hf
  obtain ⟨hmk, hpub⟩ := Tree.mkdirs_publish (a := data) fs.posix.fresh hf
  have hpair : Tree.mkdirs (pathOf key).dropLast items = ((Tree.mkdirs (pathOf key).dropLast items).1, .ok ()) :=
    Prod.ext rfl hmk
  rw [put, pathFor_of_accepts hk]
  dsimp only
  rw [if_neg (by omega), hpair]
  dsimp only
  rw [hpub, pathOf_split]

/-- A write where something is in the way. -/
theorem put_of_not_free (hk : fs.Accepts key) (hsize : data.length ≤ fs.maxObjectBytes)
    (hf : ¬ Tree.Free (pathOf key) items) :
    ∃ message, fs.put items key data = (items, .error (storageError message)) := by
  rw [← pathOf_split key] at hf
  obtain ⟨hsame, hends⟩ := Tree.mkdirs_publish_error (a := data) fs.posix.fresh hf
  rw [put, pathFor_of_accepts hk]
  dsimp only
  rw [if_neg (by omega)]
  -- either a directory cannot be made, or they all are there and the rename fails
  rcases hends with ⟨e, he⟩ | ⟨hok, e, he⟩
  · have hpair : Tree.mkdirs (pathOf key).dropLast items = (items, .error e) := Prod.ext hsame he
    rw [hpair]
    exact ⟨_, rfl⟩
  · have hpair : Tree.mkdirs (pathOf key).dropLast items = (items, .ok ()) := Prod.ext hsame hok
    rw [hpair]
    dsimp only
    rw [he]
    exact ⟨_, rfl⟩

theorem put_of_size (hk : fs.Accepts key) (hsize : fs.maxObjectBytes < data.length) :
    fs.put items key data = (items, .error (fs.sizeError key data)) := by
  rw [put, pathFor_of_accepts hk]
  exact if_pos hsize

theorem delete_of_some (hk : fs.Accepts key) (hf : (Tree.fileAt (pathOf key) items).isSome) :
    fs.delete items key = (Tree.remove (pathOf key) items, .ok (.removed true)) := by
  rw [← pathOf_split key] at hf
  obtain ⟨hok, hprune⟩ := Tree.unlink_prune hf
  have hpair : Tree.within (pathOf key).dropLast (Tree.unlink ((pathOf key).getLastD [])) items =
      ((Tree.within (pathOf key).dropLast (Tree.unlink ((pathOf key).getLastD [])) items).1, .ok ()) :=
    Prod.ext rfl hok
  rw [delete, pathFor_of_accepts hk]
  dsimp only
  rw [hpair]
  dsimp only
  rw [hprune, pathOf_split]

theorem delete_of_none (hk : fs.Accepts key) (hf : Tree.fileAt (pathOf key) items = none) :
    fs.delete items key = (items, .ok (.removed false)) := by
  rw [← pathOf_split key] at hf
  obtain ⟨e, he, -, hunlink⟩ := Tree.read_eq.2 hf
  rw [delete, pathFor_of_accepts hk]
  dsimp only
  rw [hunlink]
  exact if_pos he

theorem get_of_some (hk : fs.Accepts key) (hf : Tree.fileAt (pathOf key) items = some data) :
    fs.get items key = .ok (.bytes data) := by
  rw [← pathOf_split key] at hf
  have hread := Tree.read_eq.1 data hf
  rw [get, pathFor_of_accepts hk]
  dsimp only
  rw [hread]

theorem get_of_none (hk : fs.Accepts key) (hf : Tree.fileAt (pathOf key) items = none) :
    fs.get items key = .error (storageNotFoundError s!"no object is stored under {reprText key}") := by
  rw [← pathOf_split key] at hf
  obtain ⟨e, he, hread, -⟩ := Tree.read_eq.2 hf
  rw [get, pathFor_of_accepts hk]
  dsimp only
  rw [hread]
  exact if_pos he

/-- A path that leads to a file is a path of names. -/
theorem names_of_fileAt {path : List FileName} (h : Tree.Tidy IsName items) (hf : (Tree.fileAt path items).isSome) :
    path ≠ [] ∧ ∀ name ∈ path, slash ∉ name := by
  refine ⟨?_, fun name hname => (Tree.names_of_fileAt h hf name hname).1⟩
  rintro rfl
  simp [Tree.fileAt] at hf

/-- The keys listed are those that are read back from a file's path. -/
theorem mem_keys (h : Tree.Tidy IsName items) :
    key ∈ keys items ↔ LegibleKey key ∧ (Tree.fileAt (pathOf key) items).isSome := by
  rw [keys, List.mem_map]
  constructor
  · rintro ⟨path, hpath, rfl⟩
    have hf := (Tree.mem_walk h path).mp (List.mem_filter.mp hpath).1
    obtain ⟨hne, hnames⟩ := names_of_fileAt h hf
    rw [pathOf_keyAt hne hnames]
    exact ⟨legibleKey_keyAt hne hnames, hf⟩
  · rintro ⟨hk, hf⟩
    refine ⟨pathOf key, List.mem_filter.mpr ⟨(Tree.mem_walk h _).mpr hf, ?_⟩, keyAt_pathOf hk⟩
    have hlast : (pathOf key).getLastD [] ∈ (pathOf key).dropLast ++ [(pathOf key).getLastD []] := by simp
    rw [pathOf_split] at hlast
    exact decide_eq_true (Tree.names_of_fileAt h hf _ hlast).2

theorem nodup_keys (h : Tree.Tidy IsName items) : (keys items).Nodup := by
  refine List.Nodup.map_on (fun path hp path' hp' he => ?_) ((Tree.nodup_walk h).filter _)
  have hback : ∀ path ∈ Tree.walk items, pathOf (keyAt path) = path := by
    intro path hp
    obtain ⟨hne, hnames⟩ := names_of_fileAt h ((Tree.mem_walk h path).mp hp)
    exact pathOf_keyAt hne hnames
  rw [← hback path (List.mem_filter.mp hp).1, he, hback path' (List.mem_filter.mp hp').1]

end Calls

/-! ### One call -/

section Step

variable {fs} {items : Entries} {m : Contents} {key : Str}

theorem Holds.of_some (h : Holds items m) (hm : (m key).isSome) : Tree.fileAt (pathOf key) items = m key :=
  h.files key (h.legible key hm)

/-- The keys listed are those of the contents. -/
theorem Holds.mem_keys (h : Holds items m) : key ∈ keys items ↔ (m key).isSome := by
  rw [FilesystemStorage.mem_keys h.tidy]
  refine ⟨fun ⟨hl, hf⟩ => h.files key hl ▸ hf, fun hm => ⟨h.legible key hm, ?_⟩⟩
  rwa [h.of_some hm]

/-- Nothing is in the way of a key exactly when no other key is nested with it. -/
theorem Holds.free_iff (h : Holds items m) (hk : LegibleKey key) :
    Tree.Free (pathOf key) items ↔ ∀ key', (m key').isSome → Nested key key' → key' = key := by
  rw [Tree.free_iff h.tidy (pathOf_ne_nil key)]
  constructor
  · intro hall key' hm hnested
    have hk' := h.legible key' hm
    rw [← h.files key' hk'] at hm
    refine pathOf_inj hk' hk (hall _ hm ?_)
    exact hnested.imp (pathOf_prefix_iff hk' hk).mpr (pathOf_prefix_iff hk hk').mpr
  · intro hall path hf hrel
    obtain ⟨hne, hnames⟩ := names_of_fileAt h.tidy hf
    have hk' := legibleKey_keyAt hne hnames
    rw [← pathOf_keyAt hne hnames] at hf hrel ⊢
    rw [h.files _ hk'] at hf
    exact congrArg pathOf (hall _ hf (hrel.imp (pathOf_prefix_iff hk' hk).mp (pathOf_prefix_iff hk hk').mp))

/-- What holds is a map. -/
theorem Holds.isMap (h : Holds items m) : fs.IsMap items m where
  get_some key data hk hm := get_of_some hk ((h.of_some (by simp [hm])).trans hm)
  get_none key hk hl hm := get_of_none hk ((h.files key hl).trans hm)
  delete key hk hl := by
    cases hm : m key with
    | none => rw [delete_of_none hk ((h.files key hl).trans hm)]; rfl
    | some data =>
      have hf : (Tree.fileAt (pathOf key) items).isSome := by
        rw [h.files key hl, hm]
        rfl
      rw [delete_of_some hk hf]
      rfl
  put key data hl := by
    -- the key is accepted, the data are small enough, and the place is free; else the call raises
    rw [← h.free_iff hl]
    by_cases hk : fs.Accepts key
    · by_cases hsize : data.length ≤ fs.maxObjectBytes
      · by_cases hf : Tree.Free (pathOf key) items
        · rw [put_of_free hk hsize hf]
          exact iff_of_true rfl ⟨hk, hsize, hf⟩
        · obtain ⟨message, hput⟩ := put_of_not_free hk hsize hf
          rw [hput]
          exact iff_of_false (by simp) fun hall => hf hall.2.2
      · rw [put_of_size hk (by omega)]
        exact iff_of_false (by simp) fun hall => hsize hall.2.1
    · obtain ⟨error, hpath, -⟩ := pathFor_of_not_accepts hk
      refine iff_of_false ?_ fun hall => hk hall.1
      simp [FilesystemStorage.put, hpath]
  put_error key data hput := by
    by_cases hk : fs.Accepts key
    · by_cases hsize : data.length ≤ fs.maxObjectBytes
      · by_cases hf : Tree.Free (pathOf key) items
        · rw [put_of_free hk hsize hf] at hput
          exact absurd rfl hput
        · obtain ⟨message, hput⟩ := put_of_not_free hk hsize hf
          rw [hput]
          exact ⟨⟨_, rfl⟩, rfl⟩
      · rw [put_of_size hk (by omega)]
        exact ⟨⟨_, rfl⟩, rfl⟩
    · obtain ⟨error, hpath, -⟩ := pathFor_of_not_accepts hk
      simp [FilesystemStorage.put, hpath]
  refused key hk := by
    obtain ⟨error, hpath, herror⟩ := pathFor_of_not_accepts hk
    refine ⟨error, ?_, ?_, fun data => ?_, herror⟩
    · rw [FilesystemStorage.get, hpath]
    · rw [FilesystemStorage.delete, hpath]
    · rw [FilesystemStorage.put, hpath]
  listKeys start := by
    refine ⟨_, rfl, listed_pairwise (nodup_keys h.tidy) start, fun key => ?_⟩
    rw [mem_listed, h.mem_keys]
  kept key path hne := by
    by_cases hk : fs.Accepts key
    · by_cases hf : (Tree.fileAt (pathOf key) items).isSome
      · rw [delete_of_some hk hf, Tree.fileAt_remove hf, if_neg hne]
      · rw [delete_of_none hk (by simpa using hf)]
    · obtain ⟨error, hpath, -⟩ := pathFor_of_not_accepts hk
      rw [FilesystemStorage.delete, hpath]

/-- The contents with one key changed are those of a tree with one file changed. -/
theorem Holds.update {items' : Entries} {found : Option Bytes} (h : Holds items m) (hk : LegibleKey key)
    (htidy : Tree.Tidy IsName items')
    (hfiles : ∀ path, Tree.fileAt path items' = if path = pathOf key then found else Tree.fileAt path items) :
    Holds items' (Function.update m key found) where
  tidy := htidy
  files key' hk' := by
    rw [hfiles, h.files key' hk']
    by_cases hkey : key' = key
    · rw [hkey, if_pos rfl, Function.update_self]
    · rw [if_neg fun he => hkey (pathOf_inj hk' hk he), Function.update_of_ne hkey]
  legible key' hm := by
    by_cases hkey : key' = key
    · exact hkey ▸ hk
    · rw [Function.update_of_ne hkey] at hm
      exact h.legible key' hm

/-- Every call is answered by the contents, and leaves the next ones. -/
theorem Holds.call (h : Holds items m) (c : Call) (hc : fs.LegibleCall c) :
    Holds (fs.call items c).1 (m.next (c, (fs.call items c).2)) := by
  cases c with
  | get key => exact h
  | listKeys start => exact h
  | put key data =>
    show Holds (fs.put items key data).1 (m.next (_, (fs.put items key data).2))
    by_cases hok : (fs.put items key data).2 = .ok (.stored ⟨key, data.length⟩)
    · -- stored: one file changes, and the contents at one key
      have hk : fs.Accepts key := by
        by_contra hk
        have hmap : fs.IsMap items m := h.isMap
        obtain ⟨error, -, -, hput, -⟩ := hmap.refused key hk
        rw [hput] at hok
        cases hok
      obtain ⟨-, hsize, hfree⟩ := (h.isMap.put key data (hc hk)).mp hok
      have hfree := (h.free_iff (hc hk)).mpr hfree
      rw [put_of_free hk hsize hfree]
      exact h.update (hc hk) (Tree.tidy_store h.tidy (isName_of_allows (proper_of_keyRefusal hk.1.1) (hc hk)))
        fun path => Tree.fileAt_store hfree path
    · -- raised: nothing changes
      obtain ⟨⟨error, herror⟩, hsame⟩ := h.isMap.put_error key data hok
      rw [herror, hsame]
      exact h
  | delete key =>
    show Holds (fs.delete items key).1 (m.next (_, (fs.delete items key).2))
    by_cases hk : fs.Accepts key
    · have hnext : ∀ answer, m.next (.delete key, .ok answer) = Function.update m key none := fun _ => rfl
      have hfile := h.files key (hc hk)
      cases hm : m key with
      | some data =>
        have hf : (Tree.fileAt (pathOf key) items).isSome := by
          rw [hfile, hm]
          rfl
        rw [delete_of_some hk hf, hnext]
        exact h.update (hc hk) (Tree.tidy_remove h.tidy) fun path => Tree.fileAt_remove hf path
      | none =>
        rw [delete_of_none hk (hfile.trans hm), hnext, Function.update_eq_self_iff.mpr hm.symm]
        exact h
    · obtain ⟨error, hpath, -⟩ := pathFor_of_not_accepts hk
      have hdelete : fs.delete items key = (items, .error error) := by
        rw [FilesystemStorage.delete, hpath]
      rw [hdelete]
      exact h

end Step

theorem run_concat (calls : List Call) (c : Call) :
    fs.run (calls ++ [c]) = ((fs.call (fs.run calls).1 c).1,
      (fs.run calls).2 ++ [(c, (fs.call (fs.run calls).1 c).2)]) := List.foldl_concat ..

theorem holds_nil : Holds [] fun _ => none :=
  ⟨Tree.tidy_nil, fun _ _ => Tree.fileAt_nil _, fun _ h => absurd h (by simp)⟩

theorem holds_run (calls : List Call) (h : ∀ c ∈ calls, fs.LegibleCall c) :
    Holds (fs.run calls).1 (Contents.after (fs.run calls).2) := by
  induction calls using List.reverseRecOn with
  | nil => exact holds_nil
  | append_singleton calls c ih =>
    rw [run_concat, Contents.after_concat]
    exact (ih fun c' hc' => h c' (List.mem_append_left _ hc')).call c (h c (by simp))

/-- **Filesystem storage is a finite map**, over every sequence of calls from an empty root. -/
theorem filesystem_is_map (calls : List Call) (h : ∀ c ∈ calls, fs.LegibleCall c) :
    fs.IsMap (fs.run calls).1 (Contents.after (fs.run calls).2) ∧ Tree.Tidy IsName (fs.run calls).1 :=
  ⟨(fs.holds_run calls h).isMap, (fs.holds_run calls h).tidy⟩

end FilesystemStorage

theorem le_longest {names : List FileName} {name : FileName} (h : name ∈ names) :
    name.length ≤ (names.map List.length).foldr max 0 := by
  induction names with
  | nil => cases h
  | cons first names ih =>
    rw [List.map_cons, List.foldr_cons]
    rcases List.mem_cons.mp h with rfl | h
    · exact le_max_left _ _
    · exact (ih h).trans (le_max_right _ _)

/-- A system that picks a name longer than all others. -/
def plainPosix : Posix where
  mkstemp names := List.replicate ((names.map List.length).foldr max 0 + 1) (.ofNat 0x78)
  strerror _ := ""
  fresh names h := by
    have hle := le_longest h
    rw [List.length_replicate] at hle
    omega

def plainStorage : FilesystemStorage where
  posix := plainPosix
  root := "/srv/objects"
  maxObjectBytes := 1024
  maxKeyLength := 1024

/-- An accented name, a byte that is no text, and a key that cannot be written. -/
theorem filesystem_is_map_names :
    let accented := Str.ofString "images/é"
    let stray := Str.ofString "images/" ++ [0xdce9]
    let s := plainStorage.run [.put accented [1], .put stray [2], .get [0xd800], .delete accented, .listKeys []]
    plainStorage.IsMap s.1 (Contents.after s.2) ∧ Tree.Tidy FilesystemStorage.IsName s.1 := by
  refine plainStorage.filesystem_is_map _ fun c hc => ?_
  simp only [List.mem_cons, List.not_mem_nil, or_false] at hc
  rcases hc with rfl | rfl | rfl | rfl | rfl
  · exact fun _ => by decide +kernel
  · exact fun _ => by decide +kernel
  · exact fun h => absurd h.2 (by decide)
  · exact fun _ => by decide +kernel
  · trivial

/-- A key that is refused is refused as such, also where nothing is stored; so is one that names a device, and one that
cannot be written raises.  The escapes of an accented letter's bytes are another key for its file. -/
theorem get_refused : plainStorage.get [] [] = .error (storageKeyError "a storage key must not be empty") ∧
    (validateKey 1024 (Str.ofString "con") = .ok () ∧
      ∃ error, plainStorage.put [] (Str.ofString "con") [] = ([], .error error)) ∧
    (validateKey 1024 [0xd800] = .ok () ∧ plainStorage.get [] [0xd800] = .error (unicodeEncodeError 13 [0xd800])) ∧
    plainStorage.get (plainStorage.put [] [0xdcc3, 0xdca9] [1]).1 (Str.ofString "é") = .ok (.bytes [1]) := by
  have hcon : ¬ plainStorage.Accepts (Str.ofString "con") := fun h => absurd h.1.2 (by decide +kernel)
  obtain ⟨error, -, -, hput, -⟩ := FilesystemStorage.holds_nil.isMap.refused (Str.ofString "con") hcon
  exact ⟨by decide +kernel, ⟨by decide +kernel, _, hput []⟩, ⟨by decide +kernel, by decide +kernel⟩, by decide +kernel⟩

end Xyberos.Storage
