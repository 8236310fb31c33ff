import Xyberos.Base.Layers

/-!
# Xyberos.Base.Directories — a tree of directories and files

A directory is a list of entries, each a file or a directory; the system calls answer or fail with an error number.
`store` and `remove` say what writing and removing a file come to when directories are made on the way and emptied ones
are taken away: they are the calls in their order (`mkdirs_publish`, `unlink_prune`).  In a tidy tree, where only the
top directory may be empty, a tree is determined by the files that are in it: `fileAt` is a finite map, and a file can
be written where no other file is in the way (`free_iff`).
-/

set_option autoImplicit false

namespace Xyberos.Tree

variable {κ α β : Type} [DecidableEq κ]

/-- What a directory holds. -/
abbrev Entries (κ α : Type) := List (κ × Tree κ α)

/-- Take the entry under `k` away. -/
def erase (k : κ) (items : Entries κ α) : Entries κ α := items.filter fun item => item.1 ≠ k

inductive Errno where
  | noent
  | notdir
  | isdir
  | exist
  | notempty
  | other (code : ℕ)
deriving DecidableEq, Repr

/-! ## System calls -/

/-- A call in the directory at a path. -/
def within : List κ → (Entries κ α → Entries κ α × Except Errno β) → Entries κ α → Entries κ α × Except Errno β
  | [], call, items => call items
  | k :: dir, call, items =>
    match items.lookup k with
    | none => (items, .error .noent)
    | some (.leaf _) => (items, .error .notdir)
    | some (.table sub) =>
      let (sub, answer) := within dir call sub
      (put k (.table sub) items, answer)

/-- Read a file. -/
def read (name : κ) (items : Entries κ α) : Entries κ α × Except Errno α :=
  (items, match items.lookup name with
    | none => .error .noent
    | some (.table _) => .error .isdir
    | some (.leaf a) => .ok a)

/-- `unlink`. -/
def unlink (name : κ) (items : Entries κ α) : Entries κ α × Except Errno Unit :=
  match items.lookup name with
  | none => (items, .error .noent)
  | some (.table _) => (items, .error .isdir)
  | some (.leaf _) => (erase name items, .ok ())

/-- `rmdir`. -/
def rmdir (name : κ) (items : Entries κ α) : Entries κ α × Except Errno Unit :=
  match items.lookup name with
  | none => (items, .error .noent)
  | some (.leaf _) => (items, .error .notdir)
  | some (.table sub) => if sub.isEmpty then (erase name items, .ok ()) else (items, .error .notempty)

/-- `mkdir` with the directories above. -/
def mkdirs : List κ → Entries κ α → Entries κ α × Except Errno Unit
  | [], items => (items, .ok ())
  | k :: dir, items =>
    match items.lookup k with
    | none => (put k (.table (mkdirs dir []).1) items, .ok ())
    | some (.leaf _) => (items, .error (if dir = [] then .exist else .notdir))
    | some (.table sub) =>
      let (sub, answer) := mkdirs dir sub
      (put k (.table sub) items, answer)

/-- Write a new temporary file, and rename it. -/
def publish (mkstemp : List κ → κ) (name : κ) (a : α) (items : Entries κ α) : Entries κ α × Except Errno Unit :=
  let temporary := mkstemp (items.map Prod.fst)
  let written := put temporary (.leaf a) items
  match written.lookup name with
  | some (.table _) => (erase temporary written, .error .isdir)
  | _ => (put name (.leaf a) (erase temporary written), .ok ())

/-- `rmdir` from a directory upwards, until one fails; the path has the innermost directory first. -/
def prune : List κ → Entries κ α → Entries κ α
  | [], items => items
  | name :: above, items =>
    match within above.reverse (rmdir name) items with
    | (items, .ok ()) => prune above items
    | (items, .error _) => items

mutual

/-- The paths of the files. -/
def walk : Entries κ α → List (List κ)
  | [] => []
  | (k, tree) :: items => (paths tree).map (k :: ·) ++ walk items

def paths : Tree κ α → List (List κ)
  | .leaf _ => [[]]
  | .table items => walk items

end

/-! ## Files -/

/-- The file at a path. -/
def fileAt : List κ → Entries κ α → Option α
  | [], _ => none
  | k :: path, items =>
    match items.lookup k with
    | none => none
    | some (.leaf a) => if path = [] then some a else none
    | some (.table sub) => fileAt path sub

/-- No file is in the way of one at a path, and no directory in its place. -/
def Free : List κ → Entries κ α → Prop
  | [], _ => False
  | k :: path, items =>
    match items.lookup k with
    | none => True
    | some (.leaf _) => path = []
    | some (.table sub) => Free path sub

/-- Write a file, with the directories above. -/
def store : List κ → α → Entries κ α → Entries κ α
  | [], _, items => items
  | k :: path, a, items =>
    if path = [] then put k (.leaf a) items
    else
      match items.lookup k with
      | some (.table sub) => put k (.table (store path a sub)) items
      | _ => put k (.table (store path a [])) items

/-- Remove a file, with the directories that it empties. -/
def remove : List κ → Entries κ α → Entries κ α
  | [], items => items
  | k :: path, items =>
    if path = [] then erase k items
    else
      match items.lookup k with
      | some (.table sub) =>
        if (remove path sub).isEmpty then erase k items else put k (.table (remove path sub)) items
      | _ => items

/-- Distinct names, all of one kind, and no empty directory below the top. -/
inductive Tidy (Name : κ → Prop) : Entries κ α → Prop where
  | intro {items : Entries κ α} (nodup : (items.map Prod.fst).Nodup) (names : ∀ k ∈ items.map Prod.fst, Name k)
      (nonempty : ∀ k sub, items.lookup k = some (.table sub) → sub ≠ [])
      (tidy : ∀ k sub, items.lookup k = some (.table sub) → Tidy Name sub) : Tidy Name items

/-! ### Entries -/

section Entries

variable {items : Entries κ α} {k : κ} {t u : Tree κ α}

theorem lookup_erase (k : κ) (items : Entries κ α) (k' : κ) :
    (erase k items).lookup k' = if k' = k then none else items.lookup k' := by
  induction items with
  | nil => simp [erase]
  | cons x items ih =>
    obtain ⟨a, tree⟩ := x
    unfold erase at ih ⊢
    by_cases ha : a = k
    · rw [List.filter_cons_of_neg (by simp [ha]), ih, List.lookup_cons]
      by_cases hk : k' = k
      · simp [hk]
      · have hne : k' ≠ a := fun h => hk (h.trans ha)
        rw [if_neg hk, if_neg hk, beq_false_of_ne hne]
    · rw [List.filter_cons_of_pos (by simpa using ha), List.lookup_cons, List.lookup_cons, ih]
      by_cases hk : k' = k
      · have hne : k' ≠ a := fun h => ha (h.symm.trans hk)
        rw [if_pos hk, if_pos hk, beq_false_of_ne hne]
      · rw [if_neg hk, if_neg hk]

theorem put_put : put k u (put k t items) = put k u items := by
  induction items with
  | nil => simp [put]
  | cons x items ih =>
    obtain ⟨a, tree⟩ := x
    by_cases ha : a = k
    · simp [put, ha]
    · simp [put, ha, ih]

theorem put_self (h : items.lookup k = some t) : put k t items = items := by
  induction items with
  | nil => cases h
  | cons x items ih =>
    obtain ⟨a, tree⟩ := x
    rw [List.lookup_cons] at h
    by_cases ha : a = k
    · subst ha
      rw [beq_self_eq_true] at h
      obtain rfl := Option.some.inj h
      simp [put]
    · rw [beq_false_of_ne (Ne.symm ha)] at h
      rw [put, if_neg ha, ih h]

theorem erase_put : erase k (put k t items) = erase k items := by
  induction items with
  | nil => simp [put, erase]
  | cons x items ih =>
    obtain ⟨a, tree⟩ := x
    unfold erase at ih ⊢
    by_cases ha : a = k
    · simp [put, ha]
    · simpa [put, ha] using ih

theorem erase_of_fresh (h : k ∉ items.map Prod.fst) : erase k items = items := by
  refine List.filter_eq_self.mpr fun x hx => ?_
  have hne : x.1 ≠ k := by
    rintro rfl
    exact h (List.mem_map_of_mem hx)
  simpa using hne

theorem keys_erase : (erase k items).map Prod.fst = (items.map Prod.fst).filter fun k' => k' ≠ k := by
  rw [erase, List.filter_map]
  rfl

theorem put_ne_nil : put k t items ≠ [] := by
  cases items with
  | nil => simp [put]
  | cons x items =>
    unfold put
    split_ifs <;> simp

end Entries

/-! ### Tidy trees -/

section Tidy

variable {Name : κ → Prop} {items sub : Entries κ α} {k : κ} {a : α}

theorem Tidy.nodup (h : Tidy Name items) : (items.map Prod.fst).Nodup := by
  obtain ⟨nodup, -, -, -⟩ := h
  exact nodup

theorem Tidy.names (h : Tidy Name items) : ∀ k ∈ items.map Prod.fst, Name k := by
  obtain ⟨-, names, -, -⟩ := h
  exact names

theorem Tidy.nonempty (h : Tidy Name items) (hk : items.lookup k = some (.table sub)) : sub ≠ [] := by
  obtain ⟨-, -, nonempty, -⟩ := h
  exact nonempty k sub hk

theorem Tidy.inner (h : Tidy Name items) (hk : items.lookup k = some (.table sub)) : Tidy Name sub := by
  obtain ⟨-, -, -, tidy⟩ := h
  exact tidy k sub hk

theorem tidy_nil : Tidy Name ([] : Entries κ α) :=
  .intro List.nodup_nil (by simp) (by simp) (by simp)

theorem Tidy.put_leaf (h : Tidy Name items) (hk : Name k) : Tidy Name (put k (.leaf a) items) := by
  refine .intro (nodup_put h.nodup) (fun k' hk' => ?_) (fun k' sub hl => ?_) fun k' sub hl => ?_
  · rw [keys_put] at hk'
    split_ifs at hk' with hmem
    · exact h.names k' hk'
    · rcases List.mem_append.mp hk' with hk' | hk'
      · exact h.names k' hk'
      · exact List.mem_singleton.mp hk' ▸ hk
  all_goals
    rw [lookup_put] at hl
    split_ifs at hl
  · cases hl
  · exact h.nonempty hl
  · cases hl
  · exact h.inner hl

theorem Tidy.put_table (h : Tidy Name items) (hk : Name k) (hne : sub ≠ []) (hsub : Tidy Name sub) :
    Tidy Name (put k (.table sub) items) := by
  refine .intro (nodup_put h.nodup) (fun k' hk' => ?_) (fun k' sub' hl => ?_) fun k' sub' hl => ?_
  · rw [keys_put] at hk'
    split_ifs at hk' with hmem
    · exact h.names k' hk'
    · rcases List.mem_append.mp hk' with hk' | hk'
      · exact h.names k' hk'
      · exact List.mem_singleton.mp hk' ▸ hk
  all_goals
    rw [lookup_put] at hl
    split_ifs at hl
  · obtain rfl := Tree.table.inj (Option.some.inj hl)
    exact hne
  · exact h.nonempty hl
  · obtain rfl := Tree.table.inj (Option.some.inj hl)
    exact hsub
  · exact h.inner hl

theorem Tidy.erase (h : Tidy Name items) : Tidy Name (erase k items) := by
  refine .intro ?_ (fun k' hk' => ?_) (fun k' sub hl => ?_) fun k' sub hl => ?_
  · rw [keys_erase]
    exact h.nodup.sublist List.filter_sublist
  · rw [keys_erase] at hk'
    exact h.names k' (List.mem_filter.mp hk').1
  all_goals
    rw [lookup_erase] at hl
    split_ifs at hl
  · exact h.nonempty hl
  · exact h.inner hl

theorem Tidy.name_of_lookup {t : Tree κ α} (h : Tidy Name items) (hk : items.lookup k = some t) : Name k :=
  h.names k (List.mem_map_of_mem (Table.lookup_mem hk))

end Tidy

/-! ### A file written -/

section Store

variable {Name : κ → Prop} {items : Entries κ α} {k : κ} {a : α} {path : List κ}

theorem store_ne_nil (hp : path ≠ []) : store path a items ≠ [] := by
  cases path with
  | nil => exact absurd rfl hp
  | cons k path =>
    rw [store]
    split_ifs
    · exact put_ne_nil
    · split <;> exact put_ne_nil

theorem tidy_store (h : Tidy Name items) (hp : ∀ k ∈ path, Name k) : Tidy Name (store path a items) := by
  induction path generalizing items with
  | nil => exact h
  | cons k path ih =>
    obtain ⟨hk, hpath⟩ := List.forall_mem_cons.mp hp
    rw [store]
    split_ifs with hlast
    · exact h.put_leaf hk
    · split
      · rename_i sub hl
        exact h.put_table hk (store_ne_nil hlast) (ih (h.inner hl) hpath)
      · exact h.put_table hk (store_ne_nil hlast) (ih tidy_nil hpath)

@[simp] theorem fileAt_nil (path : List κ) : fileAt path ([] : Entries κ α) = none := by
  cases path <;> rfl

/-- The file is where it was written, and all other files are where they were. -/
theorem fileAt_store (hf : Free path items) (path' : List κ) :
    fileAt path' (store path a items) = if path' = path then some a else fileAt path' items := by
  induction path generalizing items path' with
  | nil => exact hf.elim
  | cons k path ih =>
    cases path' with
    | nil => simp [fileAt]
    | cons k' path' =>
      rw [Free] at hf
      rw [store]
      by_cases hlast : path = []
      · subst hlast
        rw [if_pos rfl, fileAt, lookup_put, fileAt]
        by_cases hk : k' = k
        · subst hk
          cases hl : items.lookup k' with
          | none => simp
          | some tree =>
            rw [hl] at hf
            cases tree with
            | leaf b =>
              by_cases hp : path' = [] <;> simp [hp]
            | table sub => exact hf.elim
        · simp [hk]
      · rw [if_neg hlast]
        cases hl : items.lookup k with
        | none =>
          have hfree : Free path ([] : Entries κ α) := by
            cases path with
            | nil => exact absurd rfl hlast
            | cons => exact trivial
          dsimp only
          rw [fileAt, lookup_put, fileAt]
          by_cases hk : k' = k
          · subst hk
            rw [if_pos rfl, hl]
            dsimp only
            rw [ih hfree]
            simp
          · simp [hk]
        | some tree =>
          rw [hl] at hf
          cases tree with
          | leaf b => exact absurd hf hlast
          | table sub =>
            dsimp only
            rw [fileAt, lookup_put, fileAt]
            by_cases hk : k' = k
            · subst hk
              rw [if_pos rfl, hl]
              dsimp only
              rw [ih hf]
              simp
            · simp [hk]

theorem publish_eq {mkstemp : List κ → κ} (hfresh : ∀ names, mkstemp names ∉ names) (name : κ) (a : α)
    (items : Entries κ α) :
    (∀ sub, items.lookup name = some (.table sub) → publish mkstemp name a items = (items, .error .isdir)) ∧
      ((∀ sub, items.lookup name ≠ some (.table sub)) →
        publish mkstemp name a items = (put name (.leaf a) items, .ok ())) := by
  have hback : erase (mkstemp (items.map Prod.fst)) (put (mkstemp (items.map Prod.fst)) (.leaf a) items) = items := by
    rw [erase_put, erase_of_fresh (hfresh _)]
  have hlookup := lookup_put items (mkstemp (items.map Prod.fst)) (.leaf a) name
  constructor
  · intro sub hl
    have hne : name ≠ mkstemp (items.map Prod.fst) := by
      rintro rfl
      exact hfresh (items.map Prod.fst) (List.mem_map.mpr ⟨_, Table.lookup_mem hl, rfl⟩)
    rw [if_neg hne, hl] at hlookup
    simp only [publish, hlookup, hback]
  · intro hl
    have hno : ∀ sub, (put (mkstemp (items.map Prod.fst)) (.leaf a) items).lookup name ≠ some (.table sub) := by
      intro sub hsub
      rw [hlookup] at hsub
      split_ifs at hsub
      · cases hsub
      · exact hl sub hsub
    unfold publish
    dsimp only
    split
    · rename_i sub hsub
      exact absurd hsub (hno sub)
    · rw [hback]

variable {mkstemp : List κ → κ} {dir : List κ} {name : κ}

/-- The calls of a write, where nothing is in the way. -/
theorem mkdirs_publish (hfresh : ∀ names, mkstemp names ∉ names) (hf : Free (dir ++ [name]) items) :
    (mkdirs dir items).2 = .ok () ∧
      within dir (publish mkstemp name a) (mkdirs dir items).1 = (store (dir ++ [name]) a items, .ok ()) := by
  induction dir generalizing items with
  | nil =>
    refine ⟨rfl, (publish_eq hfresh name a items).2 fun sub hl => ?_⟩
    rw [List.nil_append, Free, hl] at hf
    exact hf
  | cons k dir ih =>
    rw [List.cons_append, Free] at hf
    rw [List.cons_append, store, if_neg (by simp), mkdirs]
    cases hl : items.lookup k with
    | none =>
      have hfree : Free (dir ++ [name]) ([] : Entries κ α) := by
        cases dir <;> exact trivial
      obtain ⟨-, hstore⟩ := ih hfree
      refine ⟨rfl, ?_⟩
      simp only [within, lookup_put, if_true, hstore, put_put]
    | some tree =>
      rw [hl] at hf
      cases tree with
      | leaf b => exact absurd hf (by simp)
      | table sub =>
        obtain ⟨hok, hstore⟩ := ih hf
        refine ⟨hok, ?_⟩
        simp only [within, lookup_put, if_true, hstore, put_put]

/-- The calls of a write, where something is in the way: nothing changes. -/
theorem mkdirs_publish_error (hfresh : ∀ names, mkstemp names ∉ names) (hf : ¬ Free (dir ++ [name]) items) :
    (mkdirs dir items).1 = items ∧ ((∃ e, (mkdirs dir items).2 = .error e) ∨
      (mkdirs dir items).2 = .ok () ∧ ∃ e, within dir (publish mkstemp name a) items = (items, .error e)) := by
  induction dir generalizing items with
  | nil =>
    refine ⟨rfl, .inr ⟨rfl, .isdir, ?_⟩⟩
    rw [List.nil_append, Free] at hf
    cases hl : items.lookup name with
    | none =>
      rw [hl] at hf
      exact absurd trivial hf
    | some tree =>
      cases tree with
      | leaf b =>
        rw [hl] at hf
        exact absurd rfl hf
      | table sub => exact (publish_eq hfresh name a items).1 sub hl
  | cons k dir ih =>
    rw [List.cons_append, Free] at hf
    rw [mkdirs]
    cases hl : items.lookup k with
    | none =>
      rw [hl] at hf
      exact absurd trivial hf
    | some tree =>
      rw [hl] at hf
      cases tree with
      | leaf b => exact ⟨rfl, .inl ⟨_, rfl⟩⟩
      | table sub =>
        obtain ⟨hsame, hends⟩ := ih hf
        have hput : put k (.table (mkdirs dir sub).1) items = items := by
          rw [hsame]
          exact put_self hl
        refine ⟨hput, hends.imp id fun ⟨hok, e, he⟩ => ⟨hok, e, ?_⟩⟩
        simp only [within, hl, he, put_self hl]

end Store

/-! ### A file removed -/

section Remove

variable {Name : κ → Prop} {items : Entries κ α} {k name : κ} {path dir : List κ}

theorem tidy_remove (h : Tidy Name items) : Tidy Name (remove path items) := by
  induction path generalizing items with
  | nil => exact h
  | cons k path ih =>
    rw [remove]
    split_ifs
    · exact h.erase
    · split
      · rename_i sub hl
        split_ifs with hempty
        · exact h.erase
        · exact h.put_table (h.name_of_lookup hl) (by simpa using hempty) (ih (h.inner hl))
      · exact h

/-- The file is gone, and all other files are where they were. -/
theorem fileAt_remove (hf : (fileAt path items).isSome) (path' : List κ) :
    fileAt path' (remove path items) = if path' = path then none else fileAt path' items := by
  induction path generalizing items path' with
  | nil => simp [fileAt] at hf
  | cons k path ih =>
    cases path' with
    | nil => simp [fileAt]
    | cons k' path' =>
      rw [fileAt] at hf
      rw [remove]
      cases hl : items.lookup k with
      | none => simp [hl] at hf
      | some tree =>
        rw [hl] at hf
        cases tree with
        | leaf b =>
          have hlast : path = [] := by
            by_contra hne
            simp [hne] at hf
          subst hlast
          rw [if_pos rfl, fileAt, lookup_erase, fileAt]
          by_cases hk : k' = k
          · subst hk
            rw [if_pos rfl, hl]
            by_cases hp : path' = [] <;> simp [hp]
          · simp [hk]
        | table sub =>
          have hne : path ≠ [] := by
            rintro rfl
            simp [fileAt] at hf
          have ih := ih hf
          rw [if_neg hne]
          dsimp only
          by_cases hempty : (remove path sub).isEmpty = true
          · rw [if_pos hempty, fileAt, lookup_erase, fileAt]
            by_cases hk : k' = k
            · subst hk
              have hgone := ih path'
              rw [List.isEmpty_iff.mp hempty, fileAt_nil] at hgone
              rw [if_pos rfl, hl]
              simpa using hgone
            · simp [hk]
          · rw [if_neg hempty, fileAt, lookup_put, fileAt]
            by_cases hk : k' = k
            · subst hk
              rw [if_pos rfl, hl]
              dsimp only
              rw [ih path']
              simp
            · simp [hk]

/-- A directory at a path. -/
def IsDir : List κ → Entries κ α → Prop
  | [], _ => True
  | k :: path, items => ∃ sub, items.lookup k = some (.table sub) ∧ IsDir path sub

theorem isDir_of_append {path' : List κ} (h : IsDir (path ++ path') items) : IsDir path items := by
  induction path generalizing items with
  | nil => trivial
  | cons k path ih =>
    obtain ⟨sub, hl, hsub⟩ := h
    exact ⟨sub, hl, ih hsub⟩

theorem isDir_of_fileAt (h : (fileAt (dir ++ [name]) items).isSome) : IsDir dir items := by
  induction dir generalizing items with
  | nil => trivial
  | cons k dir ih =>
    rw [List.cons_append, fileAt] at h
    cases hl : items.lookup k with
    | none => simp [hl] at h
    | some tree =>
      rw [hl] at h
      cases tree with
      | leaf b => simp at h
      | table sub => exact ⟨sub, hl, ih h⟩

theorem isDir_within {call : Entries κ α → Entries κ α × Except Errno β} (h : IsDir path items) :
    IsDir path (within path call items).1 := by
  induction path generalizing items with
  | nil => trivial
  | cons k path ih =>
    obtain ⟨sub, hl, hsub⟩ := h
    simp only [within, hl]
    exact ⟨_, by rw [lookup_put, if_pos rfl], ih hsub⟩

theorem within_error {call : Entries κ α → Entries κ α × Except Errno β} {e : Errno}
    (hcall : ∀ items e, (call items).2 = .error e → (call items).1 = items)
    (h : (within path call items).2 = .error e) : (within path call items).1 = items := by
  induction path generalizing items with
  | nil => exact hcall items e h
  | cons k path ih =>
    rw [within] at h ⊢
    cases hl : items.lookup k with
    | none => rfl
    | some tree =>
      cases tree with
      | leaf b => rfl
      | table sub =>
        rw [hl] at h
        dsimp only at h ⊢
        rw [ih h, put_self hl]

theorem rmdir_error {e : Errno} (h : (rmdir name items).2 = .error e) : (rmdir name items).1 = items := by
  unfold rmdir at h ⊢
  cases hl : items.lookup name with
  | none => rfl
  | some tree =>
    cases tree with
    | leaf b => rfl
    | table sub =>
      rw [hl] at h
      by_cases hempty : sub.isEmpty = true
      · simp [hempty] at h
      · simp [hempty]

/-- Pruning inside a directory, and then the directory itself. -/
theorem prune_concat {rev : List κ} {sub : Entries κ α} (hl : items.lookup k = some (.table sub))
    (hd : IsDir rev.reverse sub) :
    prune (rev ++ [k]) items =
      if (prune rev sub).isEmpty then erase k items else put k (.table (prune rev sub)) items := by
  induction rev generalizing items sub with
  | nil =>
    by_cases hempty : sub.isEmpty = true
    · simp [prune, within, rmdir, hl, hempty]
    · simp [prune, within, rmdir, hl, hempty, put_self hl]
  | cons name above ih =>
    have hwithin : within (above ++ [k]).reverse (rmdir name) items =
        (put k (.table (within above.reverse (rmdir name) sub).1) items, (within above.reverse (rmdir name) sub).2) := by
      rw [List.reverse_append, List.reverse_singleton, List.singleton_append, within, hl]
    have hsub : sub ≠ [] := by
      rintro rfl
      rw [List.reverse_cons] at hd
      cases hrev : above.reverse with
      | nil =>
        rw [hrev] at hd
        obtain ⟨_, h, -⟩ := hd
        cases h
      | cons x l =>
        rw [hrev] at hd
        obtain ⟨_, h, -⟩ := hd
        cases h
    have habove : IsDir above.reverse sub := by
      rw [List.reverse_cons] at hd
      exact isDir_of_append hd
    rw [List.cons_append, prune, hwithin, prune]
    cases hans : (within above.reverse (rmdir name) sub).2 with
    | ok u =>
      have hpair : within above.reverse (rmdir name) sub = ((within above.reverse (rmdir name) sub).1, .ok ()) :=
        Prod.ext rfl hans
      rw [hpair]
      dsimp only
      rw [ih (by rw [lookup_put, if_pos rfl]) (isDir_within habove), erase_put, put_put]
    | error e =>
      have hsame := within_error (fun items e => rmdir_error) hans
      have hpair : within above.reverse (rmdir name) sub = (sub, .error e) := Prod.ext hsame hans
      rw [hpair]
      dsimp only
      rw [if_neg (by simpa using hsub), put_self hl]

/-- The calls of a removal. -/
theorem unlink_prune (hf : (fileAt (dir ++ [name]) items).isSome) :
    (within dir (unlink name) items).2 = .ok () ∧
      prune dir.reverse (within dir (unlink name) items).1 = remove (dir ++ [name]) items := by
  induction dir generalizing items with
  | nil =>
    rw [List.nil_append, fileAt] at hf
    cases hl : items.lookup name with
    | none => simp [hl] at hf
    | some tree =>
      rw [hl] at hf
      cases tree with
      | leaf b => simp [within, unlink, hl, prune, remove]
      | table sub => simp [fileAt] at hf
  | cons k dir ih =>
    have hf' := hf
    rw [List.cons_append, fileAt] at hf
    rw [List.cons_append, remove, if_neg (by simp), within]
    cases hl : items.lookup k with
    | none => simp [hl] at hf
    | some tree =>
      rw [hl] at hf
      cases tree with
      | leaf b => simp at hf
      | table sub =>
        obtain ⟨hok, hprune⟩ := ih hf
        refine ⟨hok, ?_⟩
        dsimp only
        have hdir : IsDir dir.reverse.reverse (within dir (unlink name) sub).1 := by
          rw [List.reverse_reverse]
          exact isDir_within (isDir_of_fileAt hf)
        rw [List.reverse_cons, prune_concat (by rw [lookup_put, if_pos rfl]) hdir, hprune, erase_put, put_put]

/-- Reading finds the file, or fails in one of three ways; so does removing, which then changes nothing. -/
theorem read_eq : (∀ a, fileAt (dir ++ [name]) items = some a → (within dir (read name) items).2 = .ok a) ∧
    (fileAt (dir ++ [name]) items = none → ∃ e, e ∈ [Errno.noent, .isdir, .notdir] ∧
      (within dir (read name) items).2 = .error e ∧ within dir (unlink name) items = (items, .error e)) := by
  induction dir generalizing items with
  | nil =>
    rw [List.nil_append, fileAt]
    cases hl : items.lookup name with
    | none => simp [within, read, unlink, hl]
    | some tree => cases tree <;> simp [within, read, unlink, hl, fileAt]
  | cons k dir ih =>
    rw [List.cons_append, fileAt]
    cases hl : items.lookup k with
    | none => simp [within, hl]
    | some tree =>
      cases tree with
      | leaf b => simp [within, hl]
      | table sub =>
        obtain ⟨hsome, hnone⟩ := @ih sub
        refine ⟨fun a ha => ?_, fun hn => ?_⟩
        · simp only [within, hl]
          exact hsome a ha
        · obtain ⟨e, he, hread, hunlink⟩ := hnone hn
          refine ⟨e, he, ?_, ?_⟩
          · simp only [within, hl]
            exact hread
          · simp only [within, hl, hunlink, put_self hl]

end Remove

/-! ### A tidy tree is its files -/

section Files

variable {Name : κ → Prop} {items : Entries κ α} {path : List κ}

theorem exists_file (h : Tidy Name items) (hne : items ≠ []) : ∃ path, (fileAt path items).isSome := by
  induction h with
  | @intro items nodup names nonempty tidy ih =>
    obtain ⟨⟨k, tree⟩, rest, rfl⟩ := List.exists_cons_of_ne_nil hne
    have hl : List.lookup k ((k, tree) :: rest) = some tree := by simp
    cases tree with
    | leaf a => exact ⟨[k], by simp [fileAt]⟩
    | table sub =>
      obtain ⟨path, hpath⟩ := ih k sub hl (nonempty k sub hl)
      refine ⟨k :: path, ?_⟩
      rw [fileAt, hl]
      exact hpath

/-- Nothing is in the way of a file exactly when no file is above it or below. -/
theorem free_iff (h : Tidy Name items) (hp : path ≠ []) :
    Free path items ↔ ∀ path', (fileAt path' items).isSome → path' <+: path ∨ path <+: path' → path' = path := by
  induction path generalizing items with
  | nil => exact absurd rfl hp
  | cons k path ih =>
    rw [Free]
    cases hl : items.lookup k with
    | none =>
      refine iff_of_true trivial fun path' hf hrel => ?_
      cases path' with
      | nil => simp [fileAt] at hf
      | cons k' path' =>
        have hk : k' = k := by
          rcases hrel with hrel | hrel
          · exact (List.cons_prefix_cons.mp hrel).1
          · exact (List.cons_prefix_cons.mp hrel).1.symm
        subst hk
        simp [fileAt, hl] at hf
    | some tree =>
      cases tree with
      | leaf b =>
        dsimp only
        constructor
        · rintro rfl path' hf hrel
          cases path' with
          | nil => simp [fileAt] at hf
          | cons k' path' =>
            have hk : k' = k := by
              rcases hrel with hrel | hrel
              · exact (List.cons_prefix_cons.mp hrel).1
              · exact (List.cons_prefix_cons.mp hrel).1.symm
            subst hk
            by_contra hne
            have hpath : path' ≠ [] := fun h => hne (by rw [h])
            simp [fileAt, hl, hpath] at hf
        · intro hall
          have hone := hall [k] (by simp [fileAt, hl]) (.inl (by simp))
          exact (List.cons.inj hone).2.symm
      | table sub =>
        dsimp only
        by_cases hlast : path = []
        · subst hlast
          refine iff_of_false id fun hall => ?_
          obtain ⟨path', hf⟩ := exists_file (h.inner hl) (h.nonempty hl)
          have hone := hall (k :: path') (by rw [fileAt, hl]; exact hf) (.inr (by simp))
          rw [(List.cons.inj hone).2] at hf
          simp [fileAt] at hf
        · rw [ih (h.inner hl) hlast]
          constructor
          · intro hall path' hf hrel
            cases path' with
            | nil => simp [fileAt] at hf
            | cons k' path' =>
              have hrel' : k' = k ∧ (path' <+: path ∨ path <+: path') := by
                rcases hrel with hrel | hrel
                · exact ⟨(List.cons_prefix_cons.mp hrel).1, .inl (List.cons_prefix_cons.mp hrel).2⟩
                · exact ⟨(List.cons_prefix_cons.mp hrel).1.symm, .inr (List.cons_prefix_cons.mp hrel).2⟩
              obtain ⟨rfl, hrel'⟩ := hrel'
              rw [fileAt, hl] at hf
              rw [hall path' hf hrel']
          · intro hall path' hf hrel
            have hone := hall (k :: path') (by rw [fileAt, hl]; exact hf)
              (hrel.imp (fun h => List.cons_prefix_cons.mpr ⟨rfl, h⟩) fun h => List.cons_prefix_cons.mpr ⟨rfl, h⟩)
            exact (List.cons.inj hone).2

omit [DecidableEq κ] in
theorem mem_walk_iff : path ∈ walk items ↔ ∃ k tree path', (k, tree) ∈ items ∧ path' ∈ paths tree ∧ path = k :: path' := by
  induction items with
  | nil => simp [walk]
  | cons item items ih =>
    obtain ⟨k, tree⟩ := item
    rw [walk, List.mem_append, List.mem_map, ih]
    constructor
    · rintro (⟨path', hp, rfl⟩ | ⟨k', tree', path', hm, hp, rfl⟩)
      · exact ⟨k, tree, path', List.mem_cons_self .., hp, rfl⟩
      · exact ⟨k', tree', path', List.mem_cons_of_mem _ hm, hp, rfl⟩
    · rintro ⟨k', tree', path', hm, hp, rfl⟩
      rcases List.mem_cons.mp hm with he | hm
      · obtain ⟨rfl, rfl⟩ := Prod.mk.inj he
        exact .inl ⟨path', hp, rfl⟩
      · exact .inr ⟨k', tree', path', hm, hp, rfl⟩

/-- Walking finds the files. -/
theorem mem_walk (h : Tidy Name items) (path : List κ) : path ∈ walk items ↔ (fileAt path items).isSome := by
  induction h generalizing path with
  | @intro items nodup names nonempty tidy ih =>
    rw [mem_walk_iff]
    cases path with
    | nil => simp [fileAt]
    | cons k path =>
      rw [fileAt]
      constructor
      · rintro ⟨k', tree, path', hm, hp, he⟩
        obtain ⟨rfl, rfl⟩ := List.cons.inj he
        rw [Table.lookup_of_mem nodup hm]
        cases tree with
        | leaf a => simp [paths] at hp; simp [hp]
        | table sub => exact (ih k sub (Table.lookup_of_mem nodup hm) path).mp hp
      · intro hf
        cases hl : items.lookup k with
        | none => simp [hl] at hf
        | some tree =>
          rw [hl] at hf
          refine ⟨k, tree, path, Table.lookup_mem hl, ?_, rfl⟩
          cases tree with
          | leaf a =>
            have hlast : path = [] := by
              by_contra hne
              simp [hne] at hf
            simp [paths, hlast]
          | table sub => exact (ih k sub hl path).mpr hf

omit [DecidableEq κ] in
theorem nodup_walk_of (hn : (items.map Prod.fst).Nodup) (h : ∀ item ∈ items, (paths item.2).Nodup) :
    (walk items).Nodup := by
  induction items with
  | nil => exact List.nodup_nil
  | cons item items ih =>
    obtain ⟨k, tree⟩ := item
    rw [List.map_cons, List.nodup_cons] at hn
    rw [walk, List.nodup_append]
    refine ⟨(h (k, tree) (by simp)).map fun _ _ he => (List.cons.inj he).2,
      ih hn.2 fun item hi => h item (List.mem_cons_of_mem _ hi), ?_⟩
    rintro p hp q hq rfl
    obtain ⟨path', -, rfl⟩ := List.mem_map.mp hp
    obtain ⟨k', tree', path'', hm, -, he⟩ := mem_walk_iff.mp hq
    obtain ⟨rfl, -⟩ := List.cons.inj he
    exact hn.1 (List.mem_map.mpr ⟨_, hm, rfl⟩)

/-- Walking finds every file once. -/
theorem nodup_walk (h : Tidy Name items) : (walk items).Nodup := by
  induction h with
  | @intro items nodup names nonempty tidy ih =>
    refine nodup_walk_of nodup fun item hi => ?_
    obtain ⟨k, tree⟩ := item
    cases tree with
    | leaf a => simp [paths]
    | table sub => exact ih k sub (Table.lookup_of_mem nodup hi)

theorem names_of_fileAt (h : Tidy Name items) (hf : (fileAt path items).isSome) : ∀ k ∈ path, Name k := by
  induction path generalizing items with
  | nil => simp
  | cons k path ih =>
    rw [fileAt] at hf
    cases hl : items.lookup k with
    | none => simp [hl] at hf
    | some tree =>
      rw [hl] at hf
      refine List.forall_mem_cons.mpr ⟨h.name_of_lookup hl, ?_⟩
      cases tree with
      | leaf a =>
        have hlast : path = [] := by
          by_contra hne
          simp [hne] at hf
        simp [hlast]
      | table sub => exact ih (h.inner hl) hf

end Files

end Xyberos.Tree
