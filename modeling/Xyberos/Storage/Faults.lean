import Xyberos.Base.Faults
import Xyberos.Storage.Filesystem

/-!
# Xyberos.Storage.Faults — a write that fails

Each call that `put` makes of the file system may fail.  The root need not be there before the first `put`, which then
makes it (`_ensure_root`).  `putUnder` is `put` with the call that fails, if any; with the root there and no fault it
is the provider's `put` (`putUnder_none`).

A `put` that fails raises, and leaves the directories it had made: no `get`, `delete` or `list_keys` tells
(`failed_put_answers`), but a later `put` whose key names such a directory fails.  The failed `put` leaves the storage
as it was exactly when it had made no directory (`restores_iff`).
-/

set_option autoImplicit false

namespace Xyberos.Storage

open Json

open FilesystemStorage (pathOf)

def storageConfigurationError (message : String) : Exc :=
  xyberosError "StorageConfigurationError" ["StorageError"] message

/-- The tree under the root, where the root is there. -/
abbrev Volume := Option Entries

/-- The entries of the root. -/
def Volume.entries (volume : Volume) : Entries := Option.getD volume []

/-- `FilesystemStorage` with its `create_root`. -/
structure RootedStorage extends FilesystemStorage where
  createRoot : Bool

/-- A call of the provider, and the fault that a `put` meets. -/
structure Attempt where
  call : Call
  fault : Option Tree.Fault

namespace RootedStorage

variable (fs : RootedStorage)

/-- `_ensure_root`. -/
def ensureRoot (fault : Option Tree.Fault) (volume : Volume) : Except Exc Entries :=
  match volume with
  | some items => .ok items
  | none =>
    if fs.createRoot = false then
      .error (storageConfigurationError s!"the storage root {fs.root} does not exist and create_root is false")
    else
      match fault with
      | some ⟨.mkroot, errno⟩ => .error (storageConfigurationError
          s!"the storage root {fs.root} could not be created: {fs.posix.strerror errno}")
      | _ => .ok []

/-- `put`, where a call may fail. -/
def putUnder (fault : Option Tree.Fault) (volume : Volume) (key : Str) (data : Bytes) :
    Volume × Except Exc Answer :=
  match fs.pathFor key with
  | .error error => (volume, .error error)
  | .ok path =>
    if fs.maxObjectBytes < data.length then (volume, .error (fs.sizeError key data))
    else
      match fs.ensureRoot fault volume with
      | .error error => (volume, .error error)
      | .ok items =>
        match Tree.writeUnder fault fs.posix.mkstemp [] path.dropLast (path.getLastD []) data items with
        | (items, .error errno) => (some items, .error (storageError
            s!"{reprText key} could not be stored under {fs.root}: {fs.posix.strerror errno}"))
        | (items, .ok ()) => (some items, .ok (.stored ⟨key, data.length⟩))

/-- One call of the provider; without a root there is nothing to find. -/
def attempt (volume : Volume) (a : Attempt) : Volume × Except Exc Answer :=
  match a.call with
  | .put key data => fs.putUnder a.fault volume key data
  | .get key => (volume, fs.get volume.entries key)
  | .delete key =>
    let (items, answer) := fs.delete volume.entries key
    (volume.map fun _ => items, answer)
  | .listKeys start => (volume, .ok (.keys (listed (FilesystemStorage.keys volume.entries) start)))

/-- The tree after calls. -/
def after (volume : Volume) (calls : List Attempt) : Volume :=
  calls.foldl (fun volume a => (fs.attempt volume a).1) volume

/-! ## What a failed `put` may change -/

/-- A call of `put` fails: the fault is at a call that it makes, or something is in the way. -/
structure Fails (volume : Volume) (key : Str) (data : Bytes) (fault : Option Tree.Fault) : Prop where
  accepts : fs.Accepts key
  size : data.length ≤ fs.maxObjectBytes
  root : volume = none → fs.createRoot = true
  step : fault.map Tree.Fault.step = some .mkroot ∧ volume = none ∨
    Tree.Fails fault (pathOf key).dropLast ((pathOf key).getLastD []) volume.entries

/-- The answers that may not change: all but those of a `put` of the key itself, and of another `put` only whether it
succeeds. -/
def Agree (key : Str) (a : Attempt) (answer answer' : Except Exc Answer) : Prop :=
  match a.call with
  | .put key' _ => key' ≠ key → answer.isOk = answer'.isOk
  | _ => answer = answer'

/-- A root that is missing can be made. -/
def RootCanBeMade (a : Attempt) : Prop := a.fault.map Tree.Fault.step ≠ some .mkroot

/-- Every later call is answered the same from either tree. -/
def Unnoticed (volume volume' : Volume) (key : Str) : Prop :=
  ∀ (later : List Attempt) (a : Attempt), (∀ b ∈ later ++ [a], RootCanBeMade b) →
    Agree key a (fs.attempt (fs.after volume later) a).2 (fs.attempt (fs.after volume' later) a).2

/-- A `put` raises and leaves the storage as it was, with no scratch file among the keys. -/
structure Restores (volume : Volume) (key : Str) (data : Bytes) (fault : Option Tree.Fault) : Prop where
  raises : ∃ error, (fs.putUnder fault volume key data).2 = .error error
  unnoticed : fs.Unnoticed volume (fs.putUnder fault volume key data).1 key
  scratch : ∀ key', key' ∈ FilesystemStorage.keys (fs.putUnder fault volume key data).1.entries →
    key' ∈ FilesystemStorage.keys volume.entries

/-! ### Bridges -/

section Bridges

variable {fs} {volume : Volume} {items : Entries} {key : Str} {data : Bytes} {fault : Option Tree.Fault}

/-- With the root there and no fault, it is the provider's `put`. -/
theorem putUnder_none (items : Entries) (key : Str) (data : Bytes) :
    fs.putUnder none (some items) key data = (some (fs.put items key data).1, (fs.put items key data).2) := by
  unfold putUnder FilesystemStorage.put
  cases hpath : fs.pathFor key with
  | error error => rfl
  | ok path =>
    dsimp only
    by_cases hsize : fs.maxObjectBytes < data.length
    · rw [if_pos hsize, if_pos hsize]
    · rw [if_neg hsize, if_neg hsize, ensureRoot]
      dsimp only
      rw [Tree.writeUnder_none]
      rcases Tree.mkdirs path.dropLast items with ⟨made, _ | _⟩
      · rfl
      · dsimp only
        rcases Tree.within path.dropLast (Tree.publish fs.posix.mkstemp (path.getLastD []) data) made with
          ⟨written, _ | _⟩ <;> rfl

theorem ensureRoot_eq (hroot : volume = none → fs.createRoot = true) (hfault : fault.map Tree.Fault.step ≠ some .mkroot) :
    fs.ensureRoot fault volume = .ok volume.entries := by
  cases volume with
  | some items => rfl
  | none =>
    rw [ensureRoot, if_neg (by simp [hroot rfl])]
    · rfl
    · rintro errno rfl
      exact hfault rfl

/-- A `put` past its checks comes to the calls of the write. -/
theorem putUnder_eq (volume : Volume) (hk : fs.Accepts key) (hsize : data.length ≤ fs.maxObjectBytes)
    (hroot : volume = none → fs.createRoot = true) (hfault : fault.map Tree.Fault.step ≠ some .mkroot) :
    fs.putUnder fault volume key data = fs.putUnder fault (some volume.entries) key data := by
  have hsome : fs.ensureRoot fault (some volume.entries) = .ok volume.entries := rfl
  rw [putUnder, putUnder, FilesystemStorage.pathFor_of_accepts hk]
  dsimp only
  rw [if_neg (by omega), if_neg (by omega), ensureRoot_eq hroot hfault, hsome]

/-- A `put` that fails at the write leaves the directories that it has made. -/
theorem putUnder_fails (hk : fs.Accepts key) (hsize : data.length ≤ fs.maxObjectBytes)
    (hroot : volume = none → fs.createRoot = true)
    (h : Tree.Fails fault (pathOf key).dropLast ((pathOf key).getLastD []) volume.entries) :
    ∃ error, fs.putUnder fault volume key data =
      (some (Tree.grow (Tree.made fault (pathOf key).dropLast volume.entries) (pathOf key).dropLast volume.entries),
        .error error) := by
  have hfault : fault.map Tree.Fault.step ≠ some .mkroot := by
    rcases fault with _ | ⟨_ | _ | _ | _ | _, errno⟩ <;> first | exact h.elim | simp
  obtain ⟨errno, hwrite⟩ := Tree.writeUnder_fails fs.posix.fresh [] data h
  rw [putUnder, FilesystemStorage.pathFor_of_accepts hk]
  dsimp only
  rw [if_neg (by omega), ensureRoot_eq hroot hfault]
  dsimp only
  rw [hwrite]
  exact ⟨_, rfl⟩

theorem putUnder_mkroot (hk : fs.Accepts key) (hsize : data.length ≤ fs.maxObjectBytes) (hroot : fs.createRoot = true)
    (hfault : fault.map Tree.Fault.step = some .mkroot) :
    ∃ error, fs.putUnder fault none key data = (none, .error error) := by
  obtain ⟨⟨step, errno⟩, rfl, hstep⟩ := Option.map_eq_some_iff.mp hfault
  obtain rfl : step = .mkroot := hstep
  rw [putUnder, FilesystemStorage.pathFor_of_accepts hk]
  dsimp only
  rw [if_neg (by omega), ensureRoot, if_neg (by simp [hroot])]
  exact ⟨_, rfl⟩

/-- Without a fault, a `put` succeeds where nothing is in the way. -/
theorem isOk_putUnder (data : Bytes) (hk : fs.Accepts key) (hsize : data.length ≤ fs.maxObjectBytes)
    (hroot : volume = none → fs.createRoot = true) :
    (fs.putUnder none volume key data).2.isOk = true ↔ Tree.Free (pathOf key) volume.entries := by
  rw [putUnder_eq volume hk hsize hroot (by simp), putUnder_none]
  by_cases hf : Tree.Free (pathOf key) volume.entries
  · rw [FilesystemStorage.put_of_free hk hsize hf]
    exact iff_of_true rfl hf
  · obtain ⟨message, hput⟩ := FilesystemStorage.put_of_not_free hk hsize hf
    rw [hput]
    exact iff_of_false (by simp [Except.isOk, Except.toBool]) hf

/-- A directory of a key is the path of a shorter key that the provider accepts. -/
theorem exists_key_of_prefix {p : List FileName} (hk : fs.Accepts key) (hp : p ≠ []) (hpre : p <+: (pathOf key).dropLast) :
    ∃ key', key' ≠ key ∧ fs.Accepts key' ∧ pathOf key' = p := by
  rw [pathOf, ← List.map_dropLast, List.prefix_map_iff] at hpre
  obtain ⟨q, hq, rfl⟩ := hpre
  have hq' : q <+: segments key := hq.trans (List.dropLast_prefix _)
  have hne : q ≠ [] := fun h => hp (by rw [h]; rfl)
  have hsegments := segments_joinKey hne fun s hs => separator_not_mem (hq'.subset hs)
  have hdevices := List.findSome?_eq_none_iff.mp hk.1.2
  refine ⟨joinKey q, fun he => ?_, ⟨⟨keyRefusal_directory hk.1.1 hne hq', ?_⟩, ?_⟩, by rw [pathOf, hsegments]⟩
  · have hlength := hq.length_le
    rw [← hsegments, he, List.length_dropLast] at hlength
    have := List.length_pos_iff.mpr (segments_ne_nil key)
    omega
  · rw [deviceRefusal, hsegments]
    exact List.findSome?_eq_none_iff.mpr fun s hs => hdevices s (hq'.subset hs)
  · refine FilesystemStorage.nameable_iff_segments.mpr fun s hs => ?_
    rw [hsegments] at hs
    exact FilesystemStorage.nameable_iff_segments.mp hk.2 s (hq'.subset hs)

end Bridges

/-! ### A root that was made -/

section Root

variable {fs} {a : Attempt} {key : Str}

/-- A call in an empty root is answered as in one that is yet to be made. -/
theorem attempt_none (hroot : fs.createRoot = true) (ha : RootCanBeMade a) :
    (fs.attempt none a).2 = (fs.attempt (some []) a).2 ∧
      ((fs.attempt none a).1 = (fs.attempt (some []) a).1 ∨
        (fs.attempt none a).1 = none ∧ (fs.attempt (some []) a).1 = some []) := by
  obtain ⟨call, fault⟩ := a
  cases call with
  | get key => exact ⟨rfl, .inr ⟨rfl, rfl⟩⟩
  | listKeys start => exact ⟨rfl, .inr ⟨rfl, rfl⟩⟩
  | delete key =>
    refine ⟨rfl, .inr ⟨rfl, congrArg some ?_⟩⟩
    by_cases hk : fs.Accepts key
    · exact congrArg Prod.fst (FilesystemStorage.delete_of_none hk (Tree.fileAt_nil _))
    · obtain ⟨error, hpath, -⟩ := FilesystemStorage.pathFor_of_not_accepts hk
      show (fs.delete [] key).1 = []
      rw [FilesystemStorage.delete, hpath]
  | put key data =>
    show (fs.putUnder fault none key data).2 = (fs.putUnder fault (some []) key data).2 ∧ _
    by_cases hk : fs.Accepts key
    · by_cases hsize : data.length ≤ fs.maxObjectBytes
      · have hsame := putUnder_eq none hk hsize (fun _ => hroot) ha
        exact ⟨congrArg Prod.snd hsame, .inl (congrArg Prod.fst hsame)⟩
      · -- too large, before the root is looked at
        have hrefused : ∀ volume, fs.putUnder fault volume key data = (volume, .error (fs.sizeError key data)) := by
          intro volume
          rw [putUnder, FilesystemStorage.pathFor_of_accepts hk]
          exact if_pos (by omega)
        refine ⟨by rw [hrefused, hrefused], .inr ⟨?_, ?_⟩⟩
        · exact congrArg Prod.fst (hrefused none)
        · exact congrArg Prod.fst (hrefused (some []))
    · -- the key is refused, before the root is looked at
      obtain ⟨error, hpath, -⟩ := FilesystemStorage.pathFor_of_not_accepts hk
      have hrefused : ∀ volume, fs.putUnder fault volume key data = (volume, .error error) := by
        intro volume
        rw [putUnder, hpath]
      refine ⟨by rw [hrefused, hrefused], .inr ⟨?_, ?_⟩⟩
      · exact congrArg Prod.fst (hrefused none)
      · exact congrArg Prod.fst (hrefused (some []))

theorem agree_refl (key : Str) (a : Attempt) (answer : Except Exc Answer) : Agree key a answer answer := by
  unfold Agree
  split
  · exact fun _ => rfl
  · rfl

theorem unnoticed_refl (volume : Volume) (key : Str) : fs.Unnoticed volume volume key :=
  fun _ a _ => agree_refl key a _

/-- A root that was made is not noticed. -/
theorem unnoticed_root (hroot : fs.createRoot = true) (key : Str) : fs.Unnoticed none (some []) key := by
  intro later a ha
  have hsame : fs.after none later = fs.after (some []) later ∨
      fs.after none later = none ∧ fs.after (some []) later = some [] := by
    induction later using List.reverseRecOn generalizing a with
    | nil => exact .inr ⟨rfl, rfl⟩
    | append_singleton later b ih =>
      have hb : RootCanBeMade b := ha b (by simp)
      have hconcat : ∀ volume, fs.after volume (later ++ [b]) = (fs.attempt (fs.after volume later) b).1 := fun volume =>
        List.foldl_concat ..
      rw [hconcat, hconcat]
      rcases ih b (fun c hc => ha c (by simp at hc ⊢; tauto)) with heq | ⟨hnone, hsome⟩
      · exact .inl (by rw [heq])
      · rw [hnone, hsome]
        exact (attempt_none hroot hb).2
  rcases hsame with heq | ⟨hnone, hsome⟩
  · rw [heq]
    exact agree_refl key a _
  · rw [hnone, hsome, (attempt_none hroot (ha a (by simp))).1]
    exact agree_refl key a _

end Root

/-! ### A failed `put` -/

section Failed

variable {fs} {volume : Volume} {key : Str} {data : Bytes} {fault : Option Tree.Fault}

/-- **A `put` that fails** raises.  The root is then missing as before, or the tree has the directories that were made. -/
theorem Fails.left (h : fs.Fails volume key data fault) : ∃ volume' error,
    fs.putUnder fault volume key data = (volume', .error error) ∧
      (volume' = volume ∧ Tree.made fault (pathOf key).dropLast volume.entries = 0 ∨
        Tree.Fails fault (pathOf key).dropLast ((pathOf key).getLastD []) volume.entries ∧
        volume' = some (Tree.grow (Tree.made fault (pathOf key).dropLast volume.entries) (pathOf key).dropLast
          volume.entries)) := by
  rcases h.step with ⟨hfault, rfl⟩ | hfails
  · obtain ⟨error, hput⟩ := putUnder_mkroot h.accepts h.size (h.root rfl) hfault
    obtain ⟨⟨step, errno⟩, rfl, hstep⟩ := Option.map_eq_some_iff.mp hfault
    obtain rfl : step = .mkroot := hstep
    exact ⟨_, error, hput, .inl ⟨rfl, rfl⟩⟩
  · obtain ⟨error, hput⟩ := putUnder_fails h.accepts h.size h.root hfails
    exact ⟨_, error, hput, .inr ⟨hfails, rfl⟩⟩

/-- The objects are what and where they were. -/
theorem Fails.kept (h : fs.Fails volume key data fault) :
    (∀ path, Tree.fileAt path (fs.putUnder fault volume key data).1.entries = Tree.fileAt path volume.entries) ∧
      FilesystemStorage.keys (fs.putUnder fault volume key data).1.entries = FilesystemStorage.keys volume.entries := by
  obtain ⟨volume', error, hput, hleft⟩ := h.left
  rw [hput]
  rcases hleft with ⟨rfl, -⟩ | ⟨-, rfl⟩
  · exact ⟨fun _ => rfl, rfl⟩
  · refine ⟨fun path => Tree.fileAt_grow .., ?_⟩
    show FilesystemStorage.keys (Tree.grow _ _ volume.entries) = _
    rw [FilesystemStorage.keys, Tree.walk_grow]
    rfl

/-- After a failed `put`, every `get`, `delete` and `list_keys` is answered as if it had not been tried. -/
theorem failed_put_answers (h : fs.Fails volume key data fault) (a : Attempt) (ha : ∀ key' data', a.call ≠ .put key' data') :
    (fs.attempt (fs.putUnder fault volume key data).1 a).2 = (fs.attempt volume a).2 := by
  -- no file and no key has changed, and that is all the other calls look at
  obtain ⟨hfiles, hkeys⟩ := h.kept
  obtain ⟨call, later⟩ := a
  cases call with
  | put key' data' => exact absurd rfl (ha key' data')
  | listKeys start =>
    show Except.ok (Answer.keys (listed (FilesystemStorage.keys _) start)) = _
    rw [hkeys]
    rfl
  | get key' =>
    show fs.get (fs.putUnder fault volume key data).1.entries key' = fs.get volume.entries key'
    by_cases hk : fs.Accepts key'
    · cases hf : Tree.fileAt (pathOf key') volume.entries with
      | none =>
        rw [FilesystemStorage.get_of_none hk hf, FilesystemStorage.get_of_none hk ((hfiles _).trans hf)]
      | some found =>
        rw [FilesystemStorage.get_of_some hk hf, FilesystemStorage.get_of_some hk ((hfiles _).trans hf)]
    · obtain ⟨error, hpath, -⟩ := FilesystemStorage.pathFor_of_not_accepts hk
      rw [FilesystemStorage.get, FilesystemStorage.get, hpath]
  | delete key' =>
    show (fs.delete (fs.putUnder fault volume key data).1.entries key').2 = (fs.delete volume.entries key').2
    by_cases hk : fs.Accepts key'
    · cases hf : Tree.fileAt (pathOf key') volume.entries with
      | none =>
        rw [FilesystemStorage.delete_of_none hk hf, FilesystemStorage.delete_of_none hk ((hfiles _).trans hf)]
      | some found =>
        have hthere : (Tree.fileAt (pathOf key') volume.entries).isSome := by
          rw [hf]
          rfl
        rw [FilesystemStorage.delete_of_some hk hthere, FilesystemStorage.delete_of_some hk (by rwa [hfiles])]
    · obtain ⟨error, hpath, -⟩ := FilesystemStorage.pathFor_of_not_accepts hk
      rw [FilesystemStorage.delete, FilesystemStorage.delete, hpath]

/-- A directory that was made is noticed by a later `put`. -/
theorem noticed_of_made (h : fs.Fails volume key data fault)
    (hmade : Tree.made fault (pathOf key).dropLast volume.entries ≠ 0) :
    ¬ fs.Unnoticed volume (fs.putUnder fault volume key data).1 key := by
  obtain ⟨volume', error, hput, ⟨-, hzero⟩ | ⟨hfails, rfl⟩⟩ := h.left
  · exact absurd hzero hmade
  intro hsame
  have hpos := Nat.pos_of_ne_zero hmade
  obtain ⟨p, hp, hpre, hfree, hoccupied⟩ := Tree.exists_occupied hpos (hpos.trans_le (Tree.made_le_missing hfails))
  obtain ⟨key', hother, haccepts, rfl⟩ := exists_key_of_prefix h.accepts hp hpre
  have hok := hsame [] ⟨.put key' [], none⟩ (fun b hb => by simp_all [RootCanBeMade]) hother
  have hfirst := (isOk_putUnder [] haccepts (Nat.zero_le _) h.root).mpr hfree
  have hsecond : (fs.putUnder none (fs.putUnder fault volume key data).1 key' []).2.isOk = true := hok.symm.trans hfirst
  rw [hput, isOk_putUnder [] haccepts (Nat.zero_le _) (by simp)] at hsecond
  exact hoccupied hsecond

/-- **A failed `put` leaves the storage as it was** exactly when it had made no directory of its key when it failed. -/
theorem restores_iff (volume : Volume) (key : Str) (data : Bytes) (fault : Option Tree.Fault)
    (h : fs.Fails volume key data fault) :
    fs.Restores volume key data fault ↔ Tree.made fault (pathOf key).dropLast volume.entries = 0 := by
  constructor
  · intro hrestores
    by_contra hmade
    exact noticed_of_made h hmade hrestores.unnoticed
  · intro hmade
    obtain ⟨volume', error, hput, hleft⟩ := h.left
    refine ⟨⟨error, by rw [hput]⟩, ?_, fun key' hkey' => h.kept.2 ▸ hkey'⟩
    rw [hput]
    rcases hleft with ⟨rfl, -⟩ | ⟨-, rfl⟩
    · exact unnoticed_refl _ key
    · rw [hmade, Tree.grow_zero]
      cases volume with
      | some items => exact unnoticed_refl _ key
      | none => exact unnoticed_root (h.root rfl) key

end Failed

/-- A root that is yet to be made. -/
def plainRooted : RootedStorage where
  toFilesystemStorage := plainStorage
  createRoot := true

/-- A root with an object, and a directory with another. -/
def imagesVolume : Volume :=
  some [(nameOf (Str.ofString "notes"), .leaf [2]),
    (nameOf (Str.ofString "images"), .table [(nameOf (Str.ofString "logo"), .leaf [1])])]

/-- A rename that fails in a directory that is there, beside its object. -/
theorem restores_beside : plainRooted.Restores imagesVolume (Str.ofString "images/icon") [1] (some ⟨.rename, .other 5⟩) :=
  (restores_iff imagesVolume (Str.ofString "images/icon") [1] (some ⟨.rename, .other 5⟩)
    ⟨⟨⟨by decide +kernel, by decide +kernel⟩, by decide⟩, by decide, (fun h => nomatch h), .inr rfl⟩).mpr
    (by decide +kernel)

/-- The disk is full when `a/b` is written: the directory `a` stays, and an object cannot be put there any more. -/
theorem put_leaves_directory : plainRooted.Fails none (Str.ofString "a/b") [1] (some ⟨.write, .other 28⟩) ∧
    ¬ plainRooted.Restores none (Str.ofString "a/b") [1] (some ⟨.write, .other 28⟩) := by
  refine ⟨⟨⟨⟨by decide +kernel, by decide +kernel⟩, by decide⟩, by decide, fun _ => rfl, .inr rfl⟩, fun h => ?_⟩
  have hsame := h.unnoticed [] ⟨.put (Str.ofString "a") [], none⟩ (by simp [RootCanBeMade]) (by decide)
  exact absurd hsame (by decide +kernel)

end RootedStorage

end Xyberos.Storage
