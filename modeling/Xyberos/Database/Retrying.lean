import Xyberos.Base.Proc
import Xyberos.Base.Txn
import Xyberos.Python
import Mathlib.Algebra.Order.Ring.Rat
import Mathlib.Data.List.Infix

/-!
# Xyberos.Database.Retrying — a transaction, again while the database is locked

`transaction` opens a connection, runs an operation on it, and commits or rolls back; `retrying` does it again, a
bounded number of times and waiting longer each time, while the error is lock contention.  Both are coroutines over what
SQLAlchemy is asked for, among other connections that commit whenever this one holds nothing uncommitted.

A call that returns has run its operation on the file once: the write that is committed is the one that the value was
returned with, and the attempts before have left nothing.  A call that raises has left nothing, unless it was
interrupted (`retrying_once`).
-/

set_option autoImplicit false

namespace Xyberos.Database

variable {σ α : Type}

/-! ## The code -/

/-- What SQLAlchemy and the event loop are asked for. -/
inductive Ask
  | connect
  | begin
  | operation
  | commit
  | rollback
  | close
  | sleep (seconds : ℚ)

abbrev Ask.Reply (α : Type) : Ask → Type
  | .operation => α
  | _ => Unit

/-- A coroutine of the provider, around an operation that returns `α`. -/
abbrev Task (α β : Type) := Proc Ask (Ask.Reply α) Exc β

def ask (q : Ask) : Task α (Ask.Reply α q) := Proc.request q

def transientDatabaseError (message : String) : Exc := xyberosError "TransientDatabaseError" ["DatabaseError"] message

/-- The fields of `SqliteSettings` that bound the retries. -/
structure SqliteSettings where
  retryAttempts : ℤ := 5
  retryBaseDelay : ℚ := 1 / 20
  one_le_retryAttempts : 1 ≤ retryAttempts := by decide
  retryBaseDelay_nonneg : 0 ≤ retryBaseDelay := by norm_num

/-- `_LOCK_MESSAGES`. -/
def lockMessages : List String := ["database is locked", "database table is locked", "database schema is locked"]

variable (lowered : Exc → String)

/-- `_is_lock_contention`.  `lowered` is the text of what the driver raised, in lower case. -/
def isLockContention (error : Exc) : Bool :=
  error.isInstance "TransientDatabaseError" || error.isInstance "OperationalError" &&
    lockMessages.any fun fragment => decide (fragment.toList <:+: (lowered error).toList)

/-- `_transaction_error`. -/
def transactionError (error : Exc) : Exc :=
  if isLockContention lowered error then
    transientDatabaseError s!"the transaction could not commit: {error.message}"
  else xyberosError "TransactionError" ["DatabaseError"] s!"the transaction could not commit: {error.message}"

/-- `_rollback_quietly`. -/
def rollbackQuietly : Task α Unit := do
  match ← (ask .rollback).attempt with
  | .ok _ => return ()
  | .error error => if error.isInstance "SQLAlchemyError" then return () else .raise error

/-- `transaction`, on an open connection. -/
def transact : Task α α := do
  let _ : Unit ← ask .begin
  match ← (ask .operation).attempt with
  | .error error => do
    rollbackQuietly
    .raise error
  | .ok value =>
    match ← (ask .commit).attempt with
    | .ok _ => return value
    | .error error =>
      if error.isInstance "SQLAlchemyError" then do
        rollbackQuietly
        .raise (transactionError lowered error)
      else .raise error

/-- `transaction`, with the operation as the body of the `async with`. -/
def transaction : Task α α := do
  let _ : Unit ← ask .connect
  (transact lowered).finally' (ask .close)

/-- The loop of `retrying`, with the attempts that are left and the number of the next. -/
def attemptsFrom (maxAttempts : ℤ) (delay : ℚ) : ℕ → ℕ → Task α α
  | 0, _ => .raise (assertionError "unreachable: the retry loop always returns or raises")
  | left + 1, attempt => do
    match ← (transaction lowered).attempt with
    | .ok value => return value
    | .error error =>
      if !error.isInstance "Exception" then .raise error
      else if !isLockContention lowered error then .raise error
      else if maxAttempts ≤ attempt then
        .raise (transientDatabaseError s!"the database stayed locked after {maxAttempts} attempt(s)")
      else do
        let _ : Unit ← ask (.sleep (delay * attempt))
        attemptsFrom maxAttempts delay left (attempt + 1)

/-- `retrying`. -/
def retrying (settings : SqliteSettings) (attempts : Option ℤ) (baseDelay : Option ℚ) : Task α α :=
  let maxAttempts := attempts.getD settings.retryAttempts
  attemptsFrom lowered maxAttempts (baseDelay.getD settings.retryBaseDelay) maxAttempts.toNat 1

/-! ## A file among connections -/

/-- A database file as this connection sees it: the committed state, those before it, the latest first, and what the
connection has written and not committed.  `own` lists the commits of the connection, each with the states before it;
`tries` and `slept` count. -/
structure File (σ : Type) where
  current : σ
  older : List σ := []
  pending : Option σ := none
  own : List ((σ × List σ) × σ) := []
  tries : ℕ := 0
  slept : List ℚ := []

/-- What a commit leaves. -/
def File.commit (f : File σ) : File σ :=
  match f.pending with
  | none => f
  | some next =>
    { f with
      current := next
      older := f.current :: f.older
      pending := none
      own := f.own ++ [((f.current, f.older), next)] }

/-- What the others do: they commit, unless this connection holds the lock. -/
def File.Interferes (f g : File σ) : Prop :=
  f.pending = none ∧ g = { f with current := g.current, older := g.older } ∧
    f.current :: f.older <:+ g.current :: g.older

/-- What a transaction returns and would commit on a file, where its reads before its first write see any of the
committed states. -/
def File.Runs (f : File σ) (t : Txn σ Exc α) (value : α) (next : σ) : Prop :=
  ∃ snapshots, (∀ x ∈ snapshots, x ∈ f.current :: f.older) ∧ t.runStale snapshots f.current = .ok (value, next)

/-- What the file does when SQLAlchemy is asked.  An operation is one of the transactions `T`; one that raises may have
written.  A commit that SQLAlchemy refuses leaves the file as it was; beside that, a commit and the end
of a connection are interrupted at most, by what is no `Exception`. -/
def File.Answers (T : Txn σ Exc α → Prop) (f : File σ) : (q : Ask) → Except Exc (Ask.Reply α q) → File σ → Prop
  | .connect, _, g => g = f
  | .begin, _, g => g = f
  | .operation, .ok value, g => ∃ t next, T t ∧ f.Runs t value next ∧
      (g = { f with pending := some next, tries := f.tries + 1 } ∨
        next = f.current ∧ g = { f with tries := f.tries + 1 })
  | .operation, .error _, g => ∃ pending, g = { f with pending, tries := f.tries + 1 }
  | .commit, .ok _, g => g = f.commit
  | .commit, .error error, g =>
    g = f ∧ error.isInstance "SQLAlchemyError" = true ∨
      (g = f ∨ g = f.commit) ∧ error.isInstance "SQLAlchemyError" = false ∧ error.isInstance "Exception" = false
  | .rollback, .ok _, g => g = { f with pending := none }
  | .rollback, .error _, g => g = f ∨ g = { f with pending := none }
  | .close, .ok _, g => g = { f with pending := none }
  | .close, .error error, g => g = { f with pending := none } ∧ error.isInstance "Exception" = false
  | .sleep seconds, _, g => g = { f with slept := f.slept ++ [seconds] }

/-- Operations on a file that others use too. -/
def world (T : Txn σ Exc α → Prop) : Proc.World Ask (Ask.Reply α) Exc (File σ) where
  interferes := File.Interferes
  allows _ _ := True
  answers q f x g := f.Answers T q x g

/-! ## One transaction -/

section Rules

variable {lowered} {β : Type} {T : Txn σ Exc α → Prop} {own : List ((σ × List σ) × σ)} {tries : ℕ} {slept : List ℚ}

/-- What is committed, how often the operation was run and what was slept, whatever is pending. -/
structure Counts (own : List ((σ × List σ) × σ)) (tries : ℕ) (slept : List ℚ) (f : File σ) : Prop where
  own : f.own = own
  tries : f.tries = tries
  slept : f.slept = slept

/-- The operation has returned, with what it has written pending. -/
def Ran (T : Txn σ Exc α → Prop) (value : α) (f : File σ) : Prop :=
  ∃ (t : Txn σ Exc α) (before : File σ) (next : σ), T t ∧ before.Runs t value next ∧
    (f.pending = some next ∧ f.current = before.current ∧ f.older = before.older ∨
      next = before.current ∧ f.pending = none)

/-- One operation has been run on the file once: what it has written is committed, or it has written nothing. -/
def Once (T : Txn σ Exc α → Prop) (own : List ((σ × List σ) × σ)) (value : α) (f : File σ) : Prop :=
  ∃ (t : Txn σ Exc α) (before : File σ) (next : σ), T t ∧ before.Runs t value next ∧
    (f.own = own ++ [((before.current, before.older), next)] ∨ next = before.current ∧ f.own = own)

/-- Nothing was committed; or an interruption came while it was, or after. -/
def Left (own : List ((σ × List σ) × σ)) (error : Exc) (f : File σ) : Prop :=
  f.own = own ∨ error.isInstance "Exception" = false ∧ ∃ x, f.own = own ++ [x]

theorem stable_of {P : File σ → Prop}
    (h : ∀ f current older, f.pending = none → P f → P { f with current, older }) : (world T).Stable P := by
  rintro f g ⟨hpending, hg, -⟩ hf
  rw [hg]
  exact h f g.current g.older hpending hf

theorem stable_counts : (world T).Stable (Counts own tries slept) :=
  stable_of fun _ _ _ _ h => ⟨h.own, h.tries, h.slept⟩

/-- The rule of a request. -/
theorem triple_ask {q : Ask} {k : Ask.Reply α q → Task α β} {P : File σ → Prop} {M : Ask.Reply α q → File σ → Prop}
    {Post : β → File σ → Prop} {E : Exc → File σ → Prop} (hP : (world T).Stable P)
    (hok : ∀ f x g, P f → f.Answers T q (.ok x) g → M x g) (herror : ∀ f e g, P f → f.Answers T q (.error e) g → E e g)
    (hk : ∀ x, (world T).Triple (M x) (k x) Post E) : (world T).Triple P (ask q >>= k) Post E := by
  refine .bind (.request hP fun f hf => ⟨trivial, fun x g hg => ?_⟩) hk
  cases x with
  | ok x => exact hok f x g hf hg
  | error e => exact herror f e g hf hg

/-- The rule of a request whose exception is caught. -/
theorem triple_try {q : Ask} {k : Except Exc (Ask.Reply α q) → Task α β} {P : File σ → Prop}
    {M : Except Exc (Ask.Reply α q) → File σ → Prop} {Post : β → File σ → Prop} {E : Exc → File σ → Prop}
    (hP : (world T).Stable P) (hM : ∀ f x g, P f → f.Answers T q x g → M x g)
    (hk : ∀ x, (world T).Triple (M x) (k x) Post E) : (world T).Triple P ((ask q).attempt >>= k) Post E := by
  have hrequest : (world T).Triple P (ask q) (fun x => M (.ok x)) fun e => M (.error e) := by
    refine .request hP fun f hf => ⟨trivial, fun x g hg => ?_⟩
    cases x with
    | ok x => exact hM f _ g hf hg
    | error e => exact hM f _ g hf hg
  refine .bind (Proc.World.Triple.attempt hrequest) fun x => ?_
  cases x with
  | ok x => exact hk (.ok x)
  | error e => exact hk (.error e)

/-- A rollback commits nothing. -/
theorem triple_rollback : (world T).Triple (Counts own tries slept) rollbackQuietly (fun _ => Counts own tries slept)
    fun _ => Counts own tries slept := by
  refine triple_try (M := fun _ => Counts own tries slept) stable_counts (fun f x g hf hg => ?_) fun x => ?_
  · cases x with
    | ok x =>
      obtain rfl : g = { f with pending := none } := hg
      exact ⟨hf.own, hf.tries, hf.slept⟩
    | error e =>
      rcases hg with rfl | rfl
      · exact hf
      · exact ⟨hf.own, hf.tries, hf.slept⟩
  · cases x with
    | ok _ => exact .pure fun f hf => hf
    | error e =>
      dsimp only
      split_ifs
      · exact .pure fun f hf => hf
      · exact .raise fun f hf => hf

/-- An attempt that ends in an exception after a rollback. -/
theorem triple_rollback_raise {Post : β → File σ → Prop} (error : Exc) : (world T).Triple (Counts own tries slept)
    (rollbackQuietly >>= fun _ => .raise error) Post fun e f => Left own e f ∧ f.tries ≤ tries ∧ f.slept = slept := by
  refine .bind (.weaken triple_rollback (fun _ h => h) (fun _ _ h => h) fun e f hf => ?_) fun _ => .raise fun f hf => ?_
  · exact ⟨.inl hf.own, hf.tries.le, hf.slept⟩
  · exact ⟨.inl hf.own, hf.tries.le, hf.slept⟩

/-- What a commit makes of an operation that has returned. -/
theorem once_commit {value : α} {f : File σ} (h : Ran T value f) : Once T f.own value f.commit := by
  obtain ⟨t, before, next, ht, hruns, ⟨hpending, hcurrent, holder⟩ | ⟨hsame, hpending⟩⟩ := h
  · refine ⟨t, before, next, ht, hruns, .inl ?_⟩
    rw [File.commit, hpending, ← hcurrent, ← holder]
  · refine ⟨t, before, next, ht, hruns, .inr ⟨hsame, ?_⟩⟩
    rw [File.commit, hpending]

theorem commit_counts (f : File σ) : f.commit.tries = f.tries ∧ f.commit.slept = f.slept ∧
    (f.commit.own = f.own ∨ ∃ x, f.commit.own = f.own ++ [x]) := by
  unfold File.commit
  cases f.pending with
  | none => exact ⟨rfl, rfl, .inl rfl⟩
  | some next => exact ⟨rfl, rfl, .inr ⟨_, rfl⟩⟩

/-- The connection holds nothing. -/
def Idle (own : List ((σ × List σ) × σ)) (tries : ℕ) (slept : List ℚ) (f : File σ) : Prop :=
  Counts own tries slept f ∧ f.pending = none

theorem stable_idle : (world T).Stable (Idle own tries slept) :=
  stable_of fun _ _ _ _ h => ⟨⟨h.1.own, h.1.tries, h.1.slept⟩, h.2⟩

theorem stable_ran {value : α} : (world T).Stable fun f => Counts own tries slept f ∧ Ran T value f := by
  refine stable_of fun f current older hpending h => ⟨⟨h.1.own, h.1.tries, h.1.slept⟩, ?_⟩
  obtain ⟨t, before, next, ht, hruns, hheld | hfree⟩ := h.2
  · rw [hpending] at hheld
    cases hheld.1
  · exact ⟨t, before, next, ht, hruns, .inr hfree⟩

/-- An operation on an open connection: run once and committed, or nothing is, unless an interruption came. -/
theorem triple_transact : (world T).Triple (Idle own tries slept) (transact lowered)
    (fun value f => Once T own value f ∧ f.tries ≤ tries + 1 ∧ f.slept = slept)
    fun e f => Left own e f ∧ f.tries ≤ tries + 1 ∧ f.slept = slept := by
  refine triple_ask stable_idle (M := fun _ => Idle own tries slept) ?_ ?_ fun _ => ?_
  · rintro f x g hf rfl
    exact hf
  · rintro f e g ⟨hf, -⟩ rfl
    exact ⟨.inl hf.own, hf.tries.le.trans (Nat.le_succ _), hf.slept⟩
  refine triple_try stable_idle (M := fun x f => Counts own (tries + 1) slept f ∧
    match x with
    | .ok value => Ran T value f
    | .error _ => True) ?_ fun x => ?_
  · rintro f x g ⟨hf, hpending⟩ hg
    cases x with
    | error e =>
      obtain ⟨pending, rfl⟩ := hg
      exact ⟨⟨hf.own, congrArg (· + 1) hf.tries, hf.slept⟩, trivial⟩
    | ok value =>
      obtain ⟨t, next, ht, hruns, rfl | ⟨hsame, rfl⟩⟩ := hg
      · exact ⟨⟨hf.own, congrArg (· + 1) hf.tries, hf.slept⟩, t, f, next, ht, hruns, .inl ⟨rfl, rfl, rfl⟩⟩
      · exact ⟨⟨hf.own, congrArg (· + 1) hf.tries, hf.slept⟩, t, f, next, ht, hruns, .inr ⟨hsame, hpending⟩⟩
  cases x with
  | error e => exact .weaken (triple_rollback_raise e) (fun f hf => hf.1) (fun _ _ h => h) fun _ _ h => h
  | ok value =>
    refine triple_try stable_ran (M := fun x f => f.tries = tries + 1 ∧ f.slept = slept ∧
      match x with
      | .ok _ => Once T own value f
      | .error e => if e.isInstance "SQLAlchemyError" then f.own = own else Left own e f) ?_ fun x => ?_
    · rintro f x g ⟨hf, hran⟩ hg
      obtain ⟨htries, hslept, hown⟩ := commit_counts f
      cases x with
      | ok x =>
        obtain rfl : g = f.commit := hg
        exact ⟨htries.trans hf.tries, hslept.trans hf.slept, hf.own ▸ once_commit hran⟩
      | error e =>
        rcases hg with ⟨rfl, hrefused⟩ | ⟨rfl | rfl, hother, hinterrupted⟩
        · refine ⟨hf.tries, hf.slept, ?_⟩
          dsimp only
          rw [if_pos hrefused]
          exact hf.own
        · refine ⟨hf.tries, hf.slept, ?_⟩
          dsimp only
          rw [if_neg (Bool.eq_false_iff.mp hother)]
          exact .inl hf.own
        · refine ⟨htries.trans hf.tries, hslept.trans hf.slept, ?_⟩
          dsimp only
          rw [if_neg (Bool.eq_false_iff.mp hother)]
          rcases hown with hsame | ⟨y, hy⟩
          · exact .inl (hsame.trans hf.own)
          · exact .inr ⟨hinterrupted, y, hf.own ▸ hy⟩
    cases x with
    | ok _ => exact .pure fun f hf => ⟨hf.2.2, hf.1.le, hf.2.1⟩
    | error e =>
      dsimp only
      split_ifs
      · exact .weaken (triple_rollback_raise _) (fun f hf => ⟨hf.2.2, hf.1, hf.2.1⟩) (fun _ _ h => h) fun _ _ h => h
      · exact .raise fun f hf => ⟨hf.2.2, hf.1.le, hf.2.1⟩

/-- One attempt, after which the connection holds nothing. -/
theorem triple_transaction : (world T).Triple (Idle own tries slept) (transaction lowered)
    (fun value f => Once T own value f ∧ f.tries ≤ tries + 1 ∧ f.slept = slept ∧ f.pending = none)
    fun e f => Left own e f ∧ f.tries ≤ tries + 1 ∧ f.slept = slept ∧ f.pending = none := by
  refine triple_ask stable_idle (M := fun _ => Idle own tries slept) ?_ ?_ fun _ => ?_
  · rintro f x g hf rfl
    exact hf
  · rintro f e g ⟨hf, hpending⟩ rfl
    exact ⟨.inl hf.own, hf.tries.le.trans (Nat.le_succ _), hf.slept, hpending⟩
  refine .finally' triple_transact (fun value => ?_) fun e => ?_
  · refine .request (stable_of fun _ _ _ _ h => h) fun f hf => ⟨trivial, fun x g hg => ?_⟩
    obtain ⟨⟨t, before, next, ht, hruns, hown⟩, htries, hslept⟩ := hf
    cases x with
    | ok x =>
      obtain rfl : g = { f with pending := none } := hg
      exact ⟨⟨t, before, next, ht, hruns, hown⟩, htries, hslept, rfl⟩
    | error e =>
      obtain ⟨rfl, hinterrupted⟩ := hg
      refine ⟨?_, htries, hslept, rfl⟩
      rcases hown with hcommitted | ⟨-, hsame⟩
      · exact .inr ⟨hinterrupted, _, hcommitted⟩
      · exact .inl hsame
  · refine .request (stable_of fun _ _ _ _ h => h) fun f hf => ⟨trivial, fun x g hg => ?_⟩
    obtain ⟨hleft, htries, hslept⟩ := hf
    cases x with
    | ok x =>
      obtain rfl : g = { f with pending := none } := hg
      exact ⟨hleft, htries, hslept, rfl⟩
    | error e' =>
      obtain ⟨rfl, hinterrupted⟩ := hg
      exact ⟨hleft.imp_right fun h => ⟨hinterrupted, h.2⟩, htries, hslept, rfl⟩

/-! ## All attempts -/

/-- At most `left` attempts, the first not waited for and the others longer each time. -/
def Waited (delay : ℚ) (left attempt tries : ℕ) (slept : List ℚ) (f : File σ) : Prop :=
  ∃ k, k ≤ left - 1 ∧ f.tries ≤ tries + k + 1 ∧ f.tries ≤ tries + left ∧
    f.slept = slept ++ (List.range' attempt k).map fun i : ℕ => delay * i

/-- Another attempt in front. -/
theorem Waited.cons {delay : ℚ} {left attempt tries' : ℕ} {f : File σ} (hleft : 0 < left) (htries : tries' ≤ tries + 1)
    (h : Waited delay left (attempt + 1) tries' (slept ++ [delay * attempt]) f) :
    Waited delay (left + 1) attempt tries slept f := by
  obtain ⟨k, hk, hfirst, hbound, hslept⟩ := h
  refine ⟨k + 1, by omega, by omega, by omega, ?_⟩
  rw [hslept, List.range'_succ, List.map_cons, List.append_assoc]
  rfl

theorem waited_first {delay : ℚ} {left attempt : ℕ} {f : File σ} (htries : f.tries ≤ tries + 1)
    (hslept : f.slept = slept) : Waited delay (left + 1) attempt tries slept f :=
  ⟨0, by omega, htries, by omega, by simp [hslept]⟩

theorem own_of_left {e : Exc} {f : File σ} (h : Left own e f) (he : e.isInstance "Exception" = true) : f.own = own := by
  refine h.resolve_right fun hinterrupted => ?_
  rw [he] at hinterrupted
  cases hinterrupted.1

theorem triple_attempts (maxAttempts : ℤ) (delay : ℚ) (left attempt : ℕ)
    (hleft : 0 < left → (attempt : ℤ) + left = maxAttempts + 1) :
    (world T).Triple (Idle own tries slept) (attemptsFrom lowered maxAttempts delay left attempt)
      (fun value f => Once T own value f ∧ Waited delay left attempt tries slept f ∧ f.pending = none)
      fun e f => Left own e f ∧ Waited delay left attempt tries slept f ∧ f.pending = none := by
  induction left generalizing attempt tries slept with
  | zero =>
    refine .raise fun f hf => ⟨.inl hf.1.own, ⟨0, le_rfl, ?_, hf.1.tries.le, ?_⟩, hf.2⟩
    · exact hf.1.tries.le.trans (Nat.le_succ _)
    · simp [hf.1.slept]
  | succ left ih =>
    refine .bind (.attempt triple_transaction) fun x => ?_
    cases x with
    | ok value => exact .pure fun f hf => ⟨hf.1, waited_first hf.2.1 hf.2.2.1, hf.2.2.2⟩
    | error e =>
      show (world T).Triple (fun f => Left own e f ∧ f.tries ≤ tries + 1 ∧ f.slept = slept ∧ f.pending = none) _ _ _
      dsimp only
      split_ifs with hexception hcontention hlast
      · exact .raise fun f hf => ⟨hf.1, waited_first hf.2.1 hf.2.2.1, hf.2.2.2⟩
      · exact .raise fun f hf => ⟨hf.1, waited_first hf.2.1 hf.2.2.1, hf.2.2.2⟩
      · refine .raise fun f hf => ⟨?_, waited_first hf.2.1 hf.2.2.1, hf.2.2.2⟩
        exact .inl (own_of_left hf.1 (by simpa using hexception))
      · -- the next attempt is the one after, and there is one
        have hmore : 0 < left := by omega
        have hkept : ∀ f, Left own e f ∧ f.tries ≤ tries + 1 ∧ f.slept = slept ∧ f.pending = none →
            f.own = own ∧ f.tries ≤ tries + 1 ∧ f.slept = slept ∧ f.pending = none := fun f hf =>
          ⟨own_of_left hf.1 (by simpa using hexception), hf.2⟩
        refine .pre ?_ hkept
        refine triple_ask (M := fun _ f => f.own = own ∧ f.tries ≤ tries + 1 ∧
          f.slept = slept ++ [delay * attempt] ∧ f.pending = none) (stable_of fun _ _ _ _ h => h) ?_ ?_ fun _ => ?_
        · rintro f x g ⟨hown, htries, rfl, hpending⟩ rfl
          exact ⟨hown, htries, rfl, hpending⟩
        · rintro f e' g ⟨hown, htries, rfl, hpending⟩ rfl
          exact ⟨.inl hown, ⟨1, by omega, htries.trans (by omega), htries.trans (by omega), rfl⟩, hpending⟩
        · rintro f ⟨hown, htries, hslept, hpending⟩
          have hrest := @ih f.tries f.slept (attempt + 1) (by omega) f ⟨⟨hown, rfl, rfl⟩, hpending⟩
          rw [hslept] at hrest
          refine Proc.wp_mono hrest fun x g hg => ?_
          cases x with
          | ok value => exact ⟨hg.1, hg.2.1.cons hmore htries, hg.2.2⟩
          | error e' => exact ⟨hg.1, hg.2.1.cons hmore htries, hg.2.2⟩

/-- What a call has done when it ends in `r`: it has run its operation once, and what that has written is committed; or
it has committed nothing, unless it was interrupted.  It has made at most so many attempts, has waited longer before
each, and holds nothing. -/
structure Outcome (T : Txn σ Exc α → Prop) (maxAttempts : ℤ) (delay : ℚ) (f : File σ) (r : Except Exc α) (g : File σ) :
    Prop where
  returned : ∀ value, r = .ok value → Once T f.own value g
  raised : ∀ error, r = .error error → Left f.own error g
  waited : Waited delay maxAttempts.toNat 1 f.tries f.slept g
  released : g.pending = none

section Ends

variable {settings : SqliteSettings} {attempts : Option ℤ} {baseDelay : Option ℚ} {f g : File σ} {l : List (Ask × File σ)}

/-- A call that returns. -/
theorem once_of_retrying {value : α}
    (h : Proc.Runs (world T) (retrying lowered settings attempts baseDelay) f l (.ok value) g) (hf : f.pending = none) :
    Once T f.own value g ∧ Waited (baseDelay.getD settings.retryBaseDelay)
      (attempts.getD settings.retryAttempts).toNat 1 f.tries f.slept g ∧ g.pending = none :=
  h.post (triple_attempts (attempts.getD settings.retryAttempts) (baseDelay.getD settings.retryBaseDelay) _ 1 (by omega)
    f ⟨⟨rfl, rfl, rfl⟩, hf⟩)

/-- A call that raises. -/
theorem left_of_retrying {error : Exc}
    (h : Proc.Runs (world T) (retrying lowered settings attempts baseDelay) f l (.error error) g)
    (hf : f.pending = none) :
    Left f.own error g ∧ Waited (baseDelay.getD settings.retryBaseDelay)
      (attempts.getD settings.retryAttempts).toNat 1 f.tries f.slept g ∧ g.pending = none :=
  h.post (triple_attempts (attempts.getD settings.retryAttempts) (baseDelay.getD settings.retryBaseDelay) _ 1 (by omega)
    f ⟨⟨rfl, rfl, rfl⟩, hf⟩)

end Ends

/-- **A transaction is committed once**, however often it is retried and whatever other connections commit. -/
theorem retrying_once {settings : SqliteSettings} {attempts : Option ℤ} {baseDelay : Option ℚ} {f g : File σ}
    {l : List (Ask × File σ)} {r : Except Exc α}
    (h : Proc.Runs (world T) (retrying lowered settings attempts baseDelay) f l r g) (hf : f.pending = none) :
    Outcome T (attempts.getD settings.retryAttempts) (baseDelay.getD settings.retryBaseDelay) f r g := by
  cases r with
  | ok value =>
    obtain ⟨honce, hwaited, hreleased⟩ := once_of_retrying h hf
    refine ⟨fun value' he => ?_, (fun e he => by cases he), hwaited, hreleased⟩
    cases he
    exact honce
  | error e =>
    obtain ⟨hleft, hwaited, hreleased⟩ := left_of_retrying h hf
    refine ⟨(fun value he => by cases he), fun e' he => ?_, hwaited, hreleased⟩
    cases he
    exact hleft

/-! ### A file that is locked once -/

/-- `UPDATE .. SET n = n + 1`, and the row count. -/
def increment : Txn ℕ Exc ℕ := Txn.execute fun n => .ok (n + 1, 1)

def locked : Exc := ⟨⟨"OperationalError", ["SQLAlchemyError", "Exception", "BaseException"]⟩, "database is locked"⟩

/-- The first commit is refused. -/
def lockedOnce : (q : Ask) → File ℕ → Option (Except Exc (Ask.Reply ℕ q) × File ℕ)
  | .connect, f => some (.ok (), f)
  | .begin, f => some (.ok (), f)
  | .operation, f => some (.ok 1, { f with pending := some (f.current + 1), tries := f.tries + 1 })
  | .commit, f => if f.tries = 1 then some (.error locked, f) else some (.ok (), f.commit)
  | .rollback, f => some (.ok (), { f with pending := none })
  | .close, f => some (.ok (), { f with pending := none })
  | .sleep seconds, f => some (.ok (), { f with slept := f.slept ++ [seconds] })

theorem answers_lockedOnce (q : Ask) (f : File ℕ) (x : Except Exc (Ask.Reply ℕ q)) (g : File ℕ)
    (h : lockedOnce q f = some (x, g)) : (world (· = increment)).answers q f x g := by
  cases q with
  | commit =>
    unfold lockedOnce at h
    dsimp only at h
    split_ifs at h <;> obtain ⟨rfl, rfl⟩ := Prod.mk.inj (Option.some.inj h)
    · exact .inl ⟨rfl, by decide⟩
    · rfl
  | operation =>
    obtain ⟨rfl, rfl⟩ := Prod.mk.inj (Option.some.inj h)
    exact ⟨increment, f.current + 1, rfl, ⟨[], by simp, rfl⟩, .inl rfl⟩
  | connect =>
    obtain ⟨rfl, rfl⟩ := Prod.mk.inj (Option.some.inj h)
    rfl
  | begin =>
    obtain ⟨rfl, rfl⟩ := Prod.mk.inj (Option.some.inj h)
    rfl
  | rollback =>
    obtain ⟨rfl, rfl⟩ := Prod.mk.inj (Option.some.inj h)
    rfl
  | close =>
    obtain ⟨rfl, rfl⟩ := Prod.mk.inj (Option.some.inj h)
    rfl
  | sleep seconds =>
    obtain ⟨rfl, rfl⟩ := Prod.mk.inj (Option.some.inj h)
    rfl

/-- The second attempt is committed. -/
theorem retrying_once_locked : Outcome (· = increment) 5 (1 / 20) { current := 0 } (.ok 1)
    { current := 1, older := [0], own := [((0, []), 1)], tries := 2, slept := [1 / 20 * (1 : ℕ)] } := by
  have hrun : (retrying Exc.message {} none none).run lockedOnce { current := 0 } = some (.ok 1,
      { current := 1, older := [0], own := [((0, []), 1)], tries := 2, slept := [1 / 20 * (1 : ℕ)] }) := by
    rfl
  obtain ⟨l, hl⟩ := Proc.runs_run answers_lockedOnce hrun
  exact retrying_once hl rfl

end Rules

end Xyberos.Database
