import Xyberos.Base.Directories

/-!
# Xyberos.Base.Faults — a write that fails at one of its calls

A write makes the directories above its file, makes a temporary file beside it, writes that and renames it.  A `Fault`
names the call that fails.  What a failed write leaves behind are the directories that it had made: `grow` makes the
first of those that are missing, and a write that fails leaves `grow (made fault dir items) dir items`
(`writeUnder_fails`).  The files are where they were (`fileAt_grow`, `walk_grow`), but a file can no longer be written
in the place of a directory that was made (`exists_occupied`).
-/

set_option autoImplicit false

namespace Xyberos.Tree

variable {κ α β : Type} [DecidableEq κ]

/-- A call of a write: making the top directory, making a directory after `made` others, and the three for the file. -/
inductive Step where
  | mkroot
  | mkdir (made : ℕ)
  | mkstemp
  | write
  | rename
deriving DecidableEq, Repr

/-- The call that fails, and its error number. -/
structure Fault where
  step : Step
  errno : Errno
deriving DecidableEq, Repr

/-! ## Calls under a fault -/

/-- `mkdir` with the directories above, where the one after `made` others cannot be made. -/
def mkdirsTo (errno : Errno) : ℕ → List κ → Entries κ α → Entries κ α × Except Errno Unit
  | _, [], items => (items, .ok ())
  | made, k :: dir, items =>
    match items.lookup k with
    | none =>
      if made = 0 then (items, .error errno)
      else
        let (sub, answer) := mkdirsTo errno (made - 1) dir []
        (put k (.table sub) items, answer)
    | some (.leaf _) => (items, .error (if dir = [] then .exist else .notdir))
    | some (.table sub) =>
      let (sub, answer) := mkdirsTo errno made dir sub
      (put k (.table sub) items, answer)

def mkdirsUnder (fault : Option Fault) (dir : List κ) (items : Entries κ α) : Entries κ α × Except Errno Unit :=
  match fault with
  | some ⟨.mkdir made, errno⟩ => mkdirsTo errno made dir items
  | _ => mkdirs dir items

/-- Write a new temporary file, rename it, and remove it where that failed; `draft` is what it holds before it is
written. -/
def publishUnder (fault : Option Fault) (mkstemp : List κ → κ) (draft : α) (name : κ) (a : α) (items : Entries κ α) :
    Entries κ α × Except Errno Unit :=
  let temporary := mkstemp (items.map Prod.fst)
  match fault with
  | some ⟨.mkstemp, errno⟩ => (items, .error errno)
  | some ⟨.write, errno⟩ => (erase temporary (put temporary (.leaf draft) items), .error errno)
  | some ⟨.rename, errno⟩ => (erase temporary (put temporary (.leaf a) items), .error errno)
  | _ => publish mkstemp name a items

/-- The calls of a write. -/
def writeUnder (fault : Option Fault) (mkstemp : List κ → κ) (draft : α) (dir : List κ) (name : κ) (a : α)
    (items : Entries κ α) : Entries κ α × Except Errno Unit :=
  match mkdirsUnder fault dir items with
  | (items, .error errno) => (items, .error errno)
  | (items, .ok ()) => within dir (publishUnder fault mkstemp draft name a) items

/-! ## What is left behind -/

/-- How many directories of a path are missing, where no file is in the way. -/
def missing : List κ → Entries κ α → ℕ
  | [], _ => 0
  | k :: dir, items =>
    match items.lookup k with
    | none => dir.length + 1
    | some (.leaf _) => 0
    | some (.table sub) => missing dir sub

/-- Make the first `n` of the missing directories. -/
def grow : ℕ → List κ → Entries κ α → Entries κ α
  | _, [], items => items
  | n, k :: dir, items =>
    match items.lookup k with
    | none => if n = 0 then items else put k (.table (grow (n - 1) dir [])) items
    | some (.leaf _) => items
    | some (.table sub) => put k (.table (grow n dir sub)) items

/-- A call of a write fails: that of the fault, or with no fault the one that finds something in the way. -/
def Fails (fault : Option Fault) (dir : List κ) (name : κ) (items : Entries κ α) : Prop :=
  match fault with
  | none => ¬ Free (dir ++ [name]) items
  | some ⟨.mkroot, _⟩ => False
  | some ⟨.mkdir made, _⟩ => made < missing dir items
  | some _ => (mkdirs dir items).2 = .ok ()

/-- The directories that a write has made when it fails. -/
def made (fault : Option Fault) (dir : List κ) (items : Entries κ α) : ℕ :=
  match fault with
  | some ⟨.mkroot, _⟩ => 0
  | some ⟨.mkdir made, _⟩ => made
  | _ => missing dir items

section Grow

variable {items : Entries κ α} {dir : List κ} {n : ℕ}

@[simp] theorem missing_empty (dir : List κ) : missing dir ([] : Entries κ α) = dir.length := by
  cases dir <;> simp [missing]

@[simp] theorem grow_zero (dir : List κ) (items : Entries κ α) : grow 0 dir items = items := by
  induction dir generalizing items with
  | nil => rfl
  | cons k dir ih =>
    rw [grow]
    cases hl : items.lookup k with
    | none => rfl
    | some tree =>
      cases tree with
      | leaf a => rfl
      | table sub =>
        dsimp only
        rw [ih, put_self hl]

theorem mkdirsTo_eq (errno : Errno) (n : ℕ) (dir : List κ) (items : Entries κ α) :
    mkdirsTo errno n dir items =
      (grow n dir items, if n < missing dir items then .error errno else (mkdirs dir items).2) := by
  induction dir generalizing n items with
  | nil => simp [mkdirsTo, grow, missing, mkdirs]
  | cons k dir ih =>
    rw [mkdirsTo, grow, missing, mkdirs]
    cases hl : items.lookup k with
    | none =>
      cases n with
      | zero => simp
      | succ n =>
        have hok : (mkdirs dir ([] : Entries κ α)).2 = .ok () := by
          cases dir <;> rfl
        simp [ih, hok]
    | some tree =>
      cases tree with
      | leaf a => simp
      | table sub => simp only [ih]

/-- Making directories makes all that are missing. -/
theorem mkdirs_fst (dir : List κ) (items : Entries κ α) : (mkdirs dir items).1 = grow (missing dir items) dir items := by
  induction dir generalizing items with
  | nil => rfl
  | cons k dir ih =>
    rw [mkdirs, grow, missing]
    cases hl : items.lookup k with
    | none => simp [ih]
    | some tree =>
      cases tree with
      | leaf a => rfl
      | table sub => simp only [ih]

/-- The files are where they were. -/
theorem fileAt_grow (n : ℕ) (dir : List κ) (items : Entries κ α) (path : List κ) :
    fileAt path (grow n dir items) = fileAt path items := by
  induction dir generalizing n items path with
  | nil => rfl
  | cons k dir ih =>
    cases path with
    | nil => rfl
    | cons k' path =>
      rw [grow]
      cases hl : items.lookup k with
      | none =>
        by_cases hn : n = 0
        · rw [if_pos hn]
        · rw [if_neg hn, fileAt, lookup_put, fileAt]
          by_cases hk : k' = k
          · subst hk
            rw [if_pos rfl, hl]
            dsimp only
            rw [ih, fileAt_nil]
          · rw [if_neg hk]
      | some tree =>
        cases tree with
        | leaf a => rfl
        | table sub =>
          dsimp only
          rw [fileAt, lookup_put, fileAt]
          by_cases hk : k' = k
          · subst hk
            rw [if_pos rfl, hl]
            exact ih ..
          · rw [if_neg hk]

theorem walk_put_fresh {k : κ} {t : Tree κ α} (h : items.lookup k = none) :
    walk (put k t items) = walk items ++ (paths t).map (k :: ·) := by
  induction items with
  | nil => simp [put, walk]
  | cons x items ih =>
    obtain ⟨a, tree⟩ := x
    rw [List.lookup_cons] at h
    by_cases ha : a = k
    · subst ha
      simp at h
    · rw [beq_false_of_ne (Ne.symm ha)] at h
      rw [put, if_neg ha, walk, ih h, walk, List.append_assoc]

theorem walk_put_table {k : κ} {sub sub' : Entries κ α} (h : items.lookup k = some (.table sub))
    (hsame : walk sub' = walk sub) : walk (put k (.table sub') items) = walk items := by
  induction items with
  | nil => cases h
  | cons x items ih =>
    obtain ⟨a, tree⟩ := x
    rw [List.lookup_cons] at h
    by_cases ha : a = k
    · subst ha
      rw [beq_self_eq_true] at h
      obtain rfl := Option.some.inj h
      rw [put, if_pos rfl, walk, walk, paths, paths, hsame]
    · rw [beq_false_of_ne (Ne.symm ha)] at h
      rw [put, if_neg ha, walk, walk, ih h]

/-- Walking does not find the directories. -/
theorem walk_grow (n : ℕ) (dir : List κ) (items : Entries κ α) : walk (grow n dir items) = walk items := by
  induction dir generalizing n items with
  | nil => rfl
  | cons k dir ih =>
    rw [grow]
    cases hl : items.lookup k with
    | none =>
      by_cases hn : n = 0
      · rw [if_pos hn]
      · rw [if_neg hn, walk_put_fresh hl, paths, ih]
        simp [walk]
    | some tree =>
      cases tree with
      | leaf a => rfl
      | table sub => exact walk_put_table hl (ih n sub)

/-- A directory that is made takes the place of a file. -/
theorem exists_occupied (hn : 0 < n) (hmissing : 0 < missing dir items) :
    ∃ p, p ≠ [] ∧ p <+: dir ∧ Free p items ∧ ¬ Free p (grow n dir items) := by
  induction dir generalizing items with
  | nil => simp [missing] at hmissing
  | cons k dir ih =>
    rw [missing] at hmissing
    rw [grow]
    cases hl : items.lookup k with
    | none =>
      refine ⟨[k], by simp, by simp, by simp [Free, hl], ?_⟩
      dsimp only
      rw [if_neg (by omega), Free, lookup_put, if_pos rfl]
      exact id
    | some tree =>
      rw [hl] at hmissing
      cases tree with
      | leaf a => simp at hmissing
      | table sub =>
        obtain ⟨p, -, hp, hfree, hoccupied⟩ := ih hmissing
        refine ⟨k :: p, by simp, List.cons_prefix_cons.mpr ⟨rfl, hp⟩, ?_, ?_⟩
        · rw [Free, hl]
          exact hfree
        · dsimp only
          rw [Free, lookup_put, if_pos rfl]
          exact hoccupied

end Grow

section Write

variable {items : Entries κ α} {dir : List κ} {name : κ} {a draft : α} {mkstemp : List κ → κ} {fault : Option Fault}

theorem isDir_mkdirs (h : (mkdirs dir items).2 = .ok ()) : IsDir dir (mkdirs dir items).1 := by
  induction dir generalizing items with
  | nil => trivial
  | cons k dir ih =>
    rw [mkdirs] at h ⊢
    cases hl : items.lookup k with
    | none =>
      have hok : (mkdirs dir ([] : Entries κ α)).2 = .ok () := by
        cases dir <;> rfl
      exact ⟨_, by rw [lookup_put, if_pos rfl], ih hok⟩
    | some tree =>
      rw [hl] at h
      cases tree with
      | leaf a => cases h
      | table sub => exact ⟨_, by rw [lookup_put, if_pos rfl], ih h⟩

/-- A call that fails in a directory and changes nothing there changes nothing. -/
theorem within_of_error {call : Entries κ α → Entries κ α × Except Errno β} {errno : Errno}
    (hcall : ∀ items, call items = (items, .error errno)) (h : IsDir dir items) :
    within dir call items = (items, .error errno) := by
  induction dir generalizing items with
  | nil => exact hcall items
  | cons k dir ih =>
    obtain ⟨sub, hl, hsub⟩ := h
    simp only [within, hl, ih hsub, put_self hl]

theorem writeUnder_none :
    writeUnder none mkstemp draft dir name a items =
      match mkdirs dir items with
      | (items, .error errno) => (items, .error errno)
      | (items, .ok ()) => within dir (publish mkstemp name a) items := rfl

/-- A write that fails once the directories are there. -/
theorem writeUnder_late {errno : Errno} (hmk : mkdirsUnder fault dir items = mkdirs dir items)
    (hok : (mkdirs dir items).2 = .ok ())
    (hcall : ∀ items, publishUnder fault mkstemp draft name a items = (items, .error errno)) :
    writeUnder fault mkstemp draft dir name a items = (grow (missing dir items) dir items, .error errno) := by
  have hpair : mkdirs dir items = (grow (missing dir items) dir items, .ok ()) := Prod.ext (mkdirs_fst dir items) hok
  have hdir := isDir_mkdirs hok
  rw [mkdirs_fst] at hdir
  rw [writeUnder, hmk, hpair]
  exact within_of_error hcall hdir

/-- **A write that fails** leaves the directories that it has made, and nothing else. -/
theorem writeUnder_fails (hfresh : ∀ names, mkstemp names ∉ names) (draft a : α) (h : Fails fault dir name items) :
    ∃ errno, writeUnder fault mkstemp draft dir name a items = (grow (made fault dir items) dir items, .error errno) := by
  have hback : ∀ (a : α) items,
      erase (mkstemp (items.map Prod.fst)) (put (mkstemp (items.map Prod.fst)) (.leaf a) items) = items := by
    intro a items
    rw [erase_put, erase_of_fresh (hfresh _)]
  cases fault with
  | none =>
    obtain ⟨hsame, hends⟩ := mkdirs_publish_error (a := a) hfresh h
    have hgrow : grow (missing dir items) dir items = items := by rw [← mkdirs_fst, hsame]
    show ∃ errno, _ = (grow (missing dir items) dir items, _)
    rw [writeUnder_none, hgrow]
    rcases hends with ⟨errno, he⟩ | ⟨hok, errno, he⟩
    · have hpair : mkdirs dir items = (items, .error errno) := Prod.ext hsame he
      rw [hpair]
      exact ⟨errno, rfl⟩
    · have hpair : mkdirs dir items = (items, .ok ()) := Prod.ext hsame hok
      rw [hpair]
      exact ⟨errno, he⟩
  | some fault =>
    obtain ⟨step, errno⟩ := fault
    refine ⟨errno, ?_⟩
    cases step with
    | mkroot => exact h.elim
    | mkdir n =>
      have hn : n < missing dir items := h
      have hmk : mkdirsUnder (some ⟨.mkdir n, errno⟩) dir items = (grow n dir items, .error errno) := by
        rw [mkdirsUnder, mkdirsTo_eq, if_pos hn]
      rw [writeUnder, hmk]
      rfl
    | mkstemp => exact writeUnder_late rfl h fun items => rfl
    | write => exact writeUnder_late rfl h fun items => by rw [publishUnder, hback]
    | rename => exact writeUnder_late rfl h fun items => by rw [publishUnder, hback]

theorem made_le_missing (h : Fails fault dir name items) : made fault dir items ≤ missing dir items := by
  rcases fault with _ | ⟨_ | n | _ | _ | _, errno⟩
  · exact Nat.le_refl _
  · exact Nat.zero_le _
  · exact Nat.le_of_lt h
  all_goals exact Nat.le_refl _

end Write

end Xyberos.Tree
