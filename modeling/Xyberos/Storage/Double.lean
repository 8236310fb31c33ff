import Xyberos.Base.Run
import Xyberos.Base.Table
import Xyberos.Storage.Filesystem

/-!
# Xyberos.Storage.Double — the storage in memory

`InMemoryStorage` is the double of the filesystem provider.  Its contents are the contents of the history for every
valid key, where the provider also refuses keys that name a device or cannot be written as a path, and keys nested with
a stored one.  Where no key spells the path of another, those are the only differences: two runs answer alike, value for
value or error class for error class, exactly as long as no call has a key that the provider refuses and no `put` is for
a key nested with a stored key (`answers_agree_iff`).
-/

set_option autoImplicit false

namespace Xyberos.Storage

open Json

/-- `InMemoryStorage`, by its settings. -/
structure InMemoryStorage where
  maxObjectBytes : ℕ
  maxKeyLength : ℕ

abbrev Objects := Table Str Bytes

namespace InMemoryStorage

variable (mem : InMemoryStorage)

def sizeError (key : Str) (data : Bytes) : Exc :=
  storageSizeLimitError (s!"{reprText key} is {data.length} bytes, over this provider's " ++
    s!"{mem.maxObjectBytes}-byte ceiling")

/-- `put`. -/
def put (objects : Objects) (key : Str) (data : Bytes) : Objects × Except Exc Answer :=
  match validateKey mem.maxKeyLength key with
  | .error error => (objects, .error error)
  | .ok () =>
    if mem.maxObjectBytes < data.length then (objects, .error (mem.sizeError key data))
    else (objects.upsert key data fun _ => data, .ok (.stored ⟨key, data.length⟩))

/-- `get`. -/
def get (objects : Objects) (key : Str) : Except Exc Answer :=
  match validateKey mem.maxKeyLength key with
  | .error error => .error error
  | .ok () =>
    match objects.get? key with
    | some data => .ok (.bytes data)
    | none => .error (storageNotFoundError s!"no object is stored under {reprText key}")

/-- `delete`. -/
def delete (objects : Objects) (key : Str) : Objects × Except Exc Answer :=
  match validateKey mem.maxKeyLength key with
  | .error error => (objects, .error error)
  | .ok () => (objects.delete key, .ok (.removed (objects.get? key).isSome))

/-- One call of the double. -/
def call (objects : Objects) : Call → Objects × Except Exc Answer
  | .put key data => mem.put objects key data
  | .get key => (objects, mem.get objects key)
  | .delete key => mem.delete objects key
  | .listKeys start => (objects, .ok (.keys (listed (objects.rows.map Prod.fst) start)))

section Double

variable {mem} {objects : Objects} {key : Str} {data : Bytes}

theorem validateKey_of_some {maxLength : ℕ} {message : String} (h : keyRefusal maxLength key = some message) :
    validateKey maxLength key = .error (storageKeyError message) := by
  rw [validateKey, h]

/-- The double keeps the contents of its history. -/
theorem get?_call (c : Call) :
    (mem.call objects c).1.get? = Contents.next objects.get? (c, (mem.call objects c).2) := by
  cases c with
  | get key => rfl
  | listKeys start => rfl
  | put key data =>
    show (mem.put objects key data).1.get? = Contents.next _ (_, (mem.put objects key data).2)
    unfold put
    cases validateKey mem.maxKeyLength key with
    | error e => rfl
    | ok u =>
      dsimp only
      split_ifs
      · rfl
      · -- the object is stored, and the others stay
        funext key'
        show Table.get? _ key' = Function.update objects.get? key (some data) key'
        rw [Table.get?_upsert]
        by_cases hk : key' = key
        · rw [if_pos hk, hk, Function.update_self]
          cases objects.get? key <;> rfl
        · rw [if_neg hk, Function.update_of_ne hk]
  | delete key =>
    show (mem.delete objects key).1.get? = Contents.next _ (_, (mem.delete objects key).2)
    unfold delete
    cases validateKey mem.maxKeyLength key with
    | error e => rfl
    | ok u =>
      funext key'
      show Table.get? _ key' = Function.update objects.get? key none key'
      rw [Table.get?_delete]
      by_cases hk : key' = key
      · rw [if_pos hk, hk, Function.update_self]
      · rw [if_neg hk, Function.update_of_ne hk]

end Double

end InMemoryStorage

/-! ## Both at once -/

/-- The same value, or errors of the same class. -/
def SameAnswer : Except Exc Answer → Except Exc Answer → Prop
  | .ok a, .ok b => a = b
  | .error e, .error e' => e.cls = e'.cls
  | _, _ => False

instance : (a b : Except Exc Answer) → Decidable (SameAnswer a b)
  | .ok a, .ok b => inferInstanceAs (Decidable (a = b))
  | .error e, .error e' => inferInstanceAs (Decidable (e.cls = e'.cls))
  | .ok _, .error _ => isFalse id
  | .error _, .ok _ => isFalse id

/-- The two storages with the same limits. -/
structure Pair where
  posix : Posix
  root : String
  maxObjectBytes : ℕ
  maxKeyLength : ℕ

namespace Pair

variable (p : Pair)

def filesystem : FilesystemStorage := ⟨p.posix, p.root, p.maxObjectBytes, p.maxKeyLength⟩

def double : InMemoryStorage := ⟨p.maxObjectBytes, p.maxKeyLength⟩

/-- A call of both. -/
def step (s : Entries × Objects) (c : Call) : Entries × Objects :=
  ((p.filesystem.call s.1 c).1, (p.double.call s.2 c).1)

/-- The two answer a call alike. -/
def AnswersAgree (s : Entries × Objects) (c : Call) : Prop :=
  SameAnswer (p.double.call s.2 c).2 (p.filesystem.call s.1 c).2

instance (s : Entries × Objects) (c : Call) : Decidable (p.AnswersAgree s c) := inferInstanceAs (Decidable (SameAnswer _ _))

/-- A valid key that the provider refuses: it names a device, or cannot be written as a path. -/
def Refuses (key : Str) : Prop := keyRefusal p.maxKeyLength key = none ∧ (deviceRefusal key ≠ none ∨ ¬ Nameable key)

/-- The call is in the province of one of them alone: its key is valid and the provider refuses it, or it writes an object
within the ceiling under a valid key nested with a stored one. -/
def Apart (s : Entries × Objects) : Call → Prop
  | .put key data => p.Refuses key ∨ keyRefusal p.maxKeyLength key = none ∧ data.length ≤ p.maxObjectBytes ∧
      ∃ key', (s.2.get? key').isSome ∧ FilesystemStorage.Nested key key' ∧ key' ≠ key
  | .get key => p.Refuses key
  | .delete key => p.Refuses key
  | .listKeys _ => False

/-- The tree and the dictionary hold the same objects. -/
def Same (s : Entries × Objects) : Prop := FilesystemStorage.Holds s.1 s.2.get?

variable {p} {s : Entries × Objects}

theorem next_of_sameAnswer {m : Contents} {c : Call} {x y : Except Exc Answer} (h : SameAnswer x y) :
    m.next (c, x) = m.next (c, y) := by
  cases x with
  | ok a =>
    cases y with
    | ok b => cases c <;> rfl
    | error e => exact h.elim
  | error e =>
    cases y with
    | ok b => exact h.elim
    | error e' => cases c <;> rfl

theorem pathFor_of_some {key : Str} {message : String} (h : keyRefusal p.maxKeyLength key = some message) :
    p.filesystem.pathFor key = .error (storageKeyError message) := by
  have h : keyRefusal p.filesystem.maxKeyLength key = some message := h
  unfold FilesystemStorage.pathFor
  rw [h]
  rfl

theorem listed_eq {l l' : List Str} (h : l.Nodup) (h' : l'.Nodup) (hmem : ∀ key, key ∈ l ↔ key ∈ l') (start : Str) :
    listed l start = listed l' start := by
  have hsorted := listed_pairwise h start
  have hsorted' := listed_pairwise h' start
  have hperm : (listed l start).Perm (listed l' start) := by
    refine (List.perm_ext_iff_of_nodup (hsorted.imp ne_of_lt) (hsorted'.imp ne_of_lt)).mpr fun key => ?_
    rw [mem_listed, mem_listed, hmem]
  exact hperm.eq_of_pairwise (fun _ _ _ _ hab hba => absurd hab (lt_asymm hba)) hsorted hsorted'

/-- A call with a key that is no valid one. -/
theorem answersAgree_of_keyRefusal {key : Str} {message : String} (h : keyRefusal p.maxKeyLength key = some message) :
    (∀ data, p.AnswersAgree s (.put key data)) ∧ p.AnswersAgree s (.get key) ∧ p.AnswersAgree s (.delete key) := by
  have hfs := pathFor_of_some h
  have hmem : validateKey p.double.maxKeyLength key = .error (storageKeyError message) :=
    InMemoryStorage.validateKey_of_some h
  refine ⟨fun data => ?_, ?_, ?_⟩
  · show SameAnswer (p.double.put s.2 key data).2 (p.filesystem.put s.1 key data).2
    rw [InMemoryStorage.put, hmem, FilesystemStorage.put, hfs]
    rfl
  · show SameAnswer (p.double.get s.2 key) (p.filesystem.get s.1 key)
    rw [InMemoryStorage.get, hmem, FilesystemStorage.get, hfs]
    rfl
  · show SameAnswer (p.double.delete s.2 key).2 (p.filesystem.delete s.1 key).2
    rw [InMemoryStorage.delete, hmem, FilesystemStorage.delete, hfs]
    rfl

/-- A call with a valid key that the provider refuses. -/
theorem not_answersAgree_of_refuses {key : Str} (h : p.Refuses key) :
    (∀ data, ¬ p.AnswersAgree s (.put key data)) ∧ ¬ p.AnswersAgree s (.get key) ∧ ¬ p.AnswersAgree s (.delete key) := by
  have hrefused : ¬ p.filesystem.Accepts key := fun ha => h.2.elim (· ha.1.2) (· ha.2)
  obtain ⟨error, hfs, hkey, hencode⟩ := FilesystemStorage.pathFor_of_not_accepts hrefused
  have hmem : validateKey p.double.maxKeyLength key = .ok () := validateKey_eq_ok.mpr h.1
  have hname : error.cls.name = "StorageKeyError" ∨ error.cls.name = "UnicodeEncodeError" := by
    by_cases ha : p.filesystem.Allows key
    · obtain ⟨start, run, rfl⟩ := hencode ha
      exact .inr rfl
    · obtain ⟨message, rfl⟩ := hkey ha
      exact .inl rfl
  -- what the double raises is of another class
  have hother : ∀ e : Exc, e.cls.name = "StorageSizeLimitError" ∨ e.cls.name = "StorageNotFoundError" →
      e.cls ≠ error.cls := by
    rintro e he heq
    rw [← heq] at hname
    rcases he with he | he <;> rw [he] at hname <;> simp at hname
  refine ⟨fun data => ?_, ?_, ?_⟩
  · show ¬ SameAnswer (p.double.put s.2 key data).2 (p.filesystem.put s.1 key data).2
    rw [InMemoryStorage.put, hmem, FilesystemStorage.put, hfs]
    dsimp only
    split_ifs
    · exact hother _ (.inl rfl)
    · exact id
  · show ¬ SameAnswer (p.double.get s.2 key) (p.filesystem.get s.1 key)
    rw [InMemoryStorage.get, hmem, FilesystemStorage.get, hfs]
    dsimp only
    cases s.2.get? key with
    | some data => exact id
    | none => exact hother _ (.inr rfl)
  · show ¬ SameAnswer (p.double.delete s.2 key).2 (p.filesystem.delete s.1 key).2
    rw [InMemoryStorage.delete, hmem, FilesystemStorage.delete, hfs]
    exact id

/-- The key of a call is not valid, or valid and refused by the provider, or is one the provider accepts. -/
theorem key_cases (p : Pair) (key : Str) :
    (∃ message, keyRefusal p.maxKeyLength key = some message) ∨ p.Refuses key ∨ p.filesystem.Accepts key := by
  cases hk : keyRefusal p.maxKeyLength key with
  | some message => exact .inl ⟨message, rfl⟩
  | none =>
    by_cases hd : deviceRefusal key = none
    · by_cases hn : Nameable key
      · exact .inr (.inr ⟨⟨hk, hd⟩, hn⟩)
      · exact .inr (.inl ⟨hk, .inr hn⟩)
    · exact .inr (.inl ⟨hk, .inl hd⟩)

theorem not_refuses_of_accepts {key : Str} (h : p.filesystem.Accepts key) : ¬ p.Refuses key :=
  fun hr => hr.2.elim (· h.1.2) (· h.2)

theorem answersAgree_iff (hs : Same s) (c : Call) (hc : p.filesystem.LegibleCall c) :
    p.AnswersAgree s c ↔ ¬ p.Apart s c := by
  have hmap : p.filesystem.IsMap s.1 s.2.get? := hs.isMap
  have hvalid : ∀ {key}, p.filesystem.Accepts key → validateKey p.double.maxKeyLength key = .ok () :=
    fun ha => validateKey_eq_ok.mpr ha.1.1
  have hnone : ∀ {key message}, keyRefusal p.maxKeyLength key = some message → ¬ p.Refuses key :=
    fun h hd => by rw [hd.1] at h; cases h
  cases c with
  | listKeys start =>
    refine iff_of_true ?_ id
    have hkeys := listed_eq s.2.nodup (FilesystemStorage.nodup_keys hs.tidy) (fun key => ?_) start
    · exact congrArg Answer.keys hkeys
    · rw [hs.mem_keys, ← Option.ne_none_iff_isSome, Table.get?, Ne, Table.lookup_eq_none_iff, not_not]
  | get key =>
    rcases key_cases p key with ⟨message, hr⟩ | hd | ha
    · exact iff_of_true (answersAgree_of_keyRefusal hr).2.1 (hnone hr)
    · exact iff_of_false (not_answersAgree_of_refuses hd).2.1 (fun h => h hd)
    · refine iff_of_true ?_ (not_refuses_of_accepts ha)
      show SameAnswer (p.double.get s.2 key) (p.filesystem.get s.1 key)
      rw [InMemoryStorage.get, hvalid ha]
      dsimp only
      cases hm : s.2.get? key with
      | some data => rw [hmap.get_some key data ha hm]; rfl
      | none => rw [hmap.get_none key ha (hc ha) hm]; rfl
  | delete key =>
    rcases key_cases p key with ⟨message, hr⟩ | hd | ha
    · exact iff_of_true (answersAgree_of_keyRefusal hr).2.2 (hnone hr)
    · exact iff_of_false (not_answersAgree_of_refuses hd).2.2 (fun h => h hd)
    · refine iff_of_true ?_ (not_refuses_of_accepts ha)
      show SameAnswer (p.double.delete s.2 key).2 (p.filesystem.delete s.1 key).2
      rw [InMemoryStorage.delete, hvalid ha, hmap.delete key ha (hc ha)]
      rfl
  | put key data =>
    rcases key_cases p key with ⟨message, hr⟩ | hd | ha
    · refine iff_of_true ((answersAgree_of_keyRefusal hr).1 data) ?_
      rintro (hd | ⟨hk, -⟩)
      · exact hnone hr hd
      · rw [hk] at hr
        cases hr
    · exact iff_of_false ((not_answersAgree_of_refuses hd).1 data) (fun h => h (.inl hd))
    · show SameAnswer (p.double.put s.2 key data).2 (p.filesystem.put s.1 key data).2 ↔ _
      rw [InMemoryStorage.put, hvalid ha]
      dsimp only
      have hput := hmap.put key data (hc ha)
      by_cases hsize : data.length ≤ p.maxObjectBytes
      · rw [if_neg (not_lt.mpr hsize : ¬ p.double.maxObjectBytes < data.length)]
        -- what the double stores, the provider stores unless a stored key is in the way
        by_cases hfree : ∀ key', (s.2.get? key').isSome → FilesystemStorage.Nested key key' → key' = key
        · rw [hput.mpr ⟨ha, hsize, hfree⟩]
          refine iff_of_true rfl ?_
          rintro (hd | ⟨-, -, key', hsome, hnested, hne⟩)
          · exact not_refuses_of_accepts ha hd
          · exact hne (hfree key' hsome hnested)
        · obtain ⟨⟨error, herror⟩, -⟩ := hmap.put_error key data fun hok => hfree (hput.mp hok).2.2
          rw [herror]
          push Not at hfree
          exact iff_of_false id fun h => h (.inr ⟨ha.1.1, hsize, hfree⟩)
      · rw [if_pos (not_le.mp hsize : p.double.maxObjectBytes < data.length),
          FilesystemStorage.put_of_size ha (not_le.mp hsize)]
        refine iff_of_true rfl ?_
        rintro (hd | ⟨-, hle, -⟩)
        · exact not_refuses_of_accepts ha hd
        · exact hsize hle

theorem same_step (hs : Same s) {c : Call} (hlegible : p.filesystem.LegibleCall c) (hc : ¬ p.Apart s c) :
    Same (p.step s c) := by
  have hsame := (answersAgree_iff hs c hlegible).mpr hc
  have hcall : FilesystemStorage.Holds (p.filesystem.call s.1 c).1
      (Contents.next s.2.get? (c, (p.filesystem.call s.1 c).2)) := hs.call c hlegible
  rw [← next_of_sameAnswer hsame, ← InMemoryStorage.get?_call] at hcall
  exact hcall

theorem same_nil : Same ([], .empty) := FilesystemStorage.holds_nil

/-- **The double and the provider agree**, call by call, exactly as long as no call is apart. -/
theorem answers_agree_iff (calls : List Call) (h : ∀ c ∈ calls, p.filesystem.LegibleCall c) :
    Steps p.step p.AnswersAgree ([], .empty) calls ↔ Steps p.step (fun s c => ¬ p.Apart s c) ([], .empty) calls :=
  steps_iff_of_kept (I := Same) same_nil (fun _ c hc hs => answersAgree_iff hs c (h c hc))
    fun _ c hc hs happart => same_step hs (h c hc) happart

/-- A pair with the default length of keys. -/
def plainPair : Pair := ⟨plainPosix, "/srv/objects", 1024, 1024⟩

/-- Two files of which one is to be a directory: the double takes both.  The escapes of an accented letter's bytes are not
its key for the double, and another surrogate is a key. -/
theorem not_answers_agree :
    ¬ Steps plainPair.step plainPair.AnswersAgree ([], .empty) [.put (Str.ofString "a") [], .put (Str.ofString "a/b") []] ∧
    ¬ Steps plainPair.step plainPair.AnswersAgree ([], .empty) [.put [0xdcc3, 0xdca9] [], .get (Str.ofString "é")] ∧
    ¬ Steps plainPair.step plainPair.AnswersAgree ([], .empty) [.get [0xd800]] := by
  refine ⟨fun h => ?_, fun h => ?_, fun h => ?_⟩
  · exact absurd h.2.1 (by decide +kernel)
  · exact absurd h.2.1 (by decide +kernel)
  · exact absurd h.1 (by decide +kernel)

/-- An object that is written over and one beside it, and a listing of both. -/
theorem answers_agree_listing : Steps plainPair.step plainPair.AnswersAgree ([], .empty)
    [.put (Str.ofString "a/é") [1], .put (Str.ofString "a/b") [2], .put (Str.ofString "a/é") [3], .listKeys []] ↔
    Steps plainPair.step (fun s c => ¬ plainPair.Apart s c) ([], .empty)
    [.put (Str.ofString "a/é") [1], .put (Str.ofString "a/b") [2], .put (Str.ofString "a/é") [3], .listKeys []] := by
  refine answers_agree_iff _ fun c hc => ?_
  simp only [List.mem_cons, List.not_mem_nil, or_false] at hc
  rcases hc with rfl | rfl | rfl | rfl
  · exact fun _ => by decide +kernel
  · exact fun _ => by decide +kernel
  · exact fun _ => by decide +kernel
  · trivial

end Pair

end Xyberos.Storage
