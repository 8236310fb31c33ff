import Mathlib.Data.Nat.Notation

/-!
# Xyberos.Base.Txn — transactions over a store

A transaction is a tree of statements: `query` reads the store, `exec` runs a writing statement and sees its row
count, `raise` abandons the transaction.  Two semantics are given to the same tree.

* `run`: the whole transaction sees one state, as if nobody else were there; `commit` is what is left in the
  store, the old state when the transaction raised.
* `runStale`: the transaction takes its write lock at its first `exec`, so the queries before it may each see an
  older committed state (the list of snapshots); from the first write on it is alone.

`runStale_nil` says that the second semantics without snapshots is the first.  `Respects R` is the statement-wise
rule: if every writing statement relates the states before and after it by the preorder `R`, so does the
transaction, under either semantics.
-/

set_option autoImplicit false

namespace Xyberos

/-- A transaction over the store `σ`, raising `ε`, returning `α`. -/
inductive Txn (σ ε α : Type) where
  | done (a : α)
  | raise (e : ε)
  | query (k : σ → Txn σ ε α)
  | exec (f : σ → Except ε (σ × ℕ)) (k : ℕ → Txn σ ε α)

namespace Txn

variable {σ ε α β ι : Type}

/-- Sequencing; a raised error ends the transaction. -/
def bind : Txn σ ε α → (α → Txn σ ε β) → Txn σ ε β
  | done a, f => f a
  | raise e, _ => raise e
  | query k, f => query fun s => (k s).bind f
  | exec g k, f => exec g fun n => (k n).bind f

instance : Monad (Txn σ ε) where
  pure := done
  bind := bind

/-- Read a value off the store. -/
def select (q : σ → β) : Txn σ ε β := query fun s => done (q s)

/-- Run one writing statement and return its row count. -/
def execute (f : σ → Except ε (σ × ℕ)) : Txn σ ε ℕ := exec f done

/-- A computation outside the store. -/
def ofExcept : Except ε α → Txn σ ε α
  | .ok a => done a
  | .error e => raise e

/-- `for x in xs: ..`. -/
def forEach : List ι → (ι → Txn σ ε Unit) → Txn σ ε Unit
  | [], _ => done ()
  | x :: xs, f => (f x).bind fun _ => forEach xs f

/-! ## The two semantics -/

/-- The transaction alone on the store: its result and the state it would commit. -/
def run : Txn σ ε α → σ → Except ε (α × σ)
  | done a, s => .ok (a, s)
  | raise e, _ => .error e
  | query k, s => (k s).run s
  | exec f k, s =>
    match f s with
    | .ok (s', n) => (k n).run s'
    | .error e => .error e

/-- The result and the store afterwards: a transaction that raises is rolled back. -/
def commit (t : Txn σ ε α) (s : σ) : Except ε α × σ :=
  match t.run s with
  | .ok (a, s') => (.ok a, s')
  | .error e => (.error e, s)

/-- The transaction when its queries before the first write see the given snapshots, and the state `s` once the
snapshots are used up. -/
def runStale : Txn σ ε α → List σ → σ → Except ε (α × σ)
  | done a, _, s => .ok (a, s)
  | raise e, _, _ => .error e
  | query k, [], s => (k s).runStale [] s
  | query k, old :: older, s => (k old).runStale older s
  | exec f k, _, s => (exec f k).run s

section Run

@[simp] theorem run_done (a : α) (s : σ) : (done a : Txn σ ε α).run s = .ok (a, s) := rfl

@[simp] theorem run_pure (a : α) (s : σ) : (pure a : Txn σ ε α).run s = .ok (a, s) := rfl

theorem run_pure_eq_ok {a b : α} {s s' : σ} : (pure a : Txn σ ε α).run s = .ok (b, s') ↔ b = a ∧ s' = s := by
  rw [run_pure, Except.ok.injEq, Prod.mk.injEq, eq_comm, eq_comm (a := s)]

@[simp] theorem run_raise (e : ε) (s : σ) : (raise e : Txn σ ε α).run s = .error e := rfl

@[simp] theorem run_query (k : σ → Txn σ ε α) (s : σ) : (query k).run s = (k s).run s := rfl

@[simp] theorem run_select (q : σ → α) (s : σ) : (select q : Txn σ ε α).run s = .ok (q s, s) := rfl

@[simp] theorem run_ofExcept (x : Except ε α) (s : σ) :
    (ofExcept x : Txn σ ε α).run s = x.map (fun a => (a, s)) := by
  cases x <;> rfl

theorem run_execute (f : σ → Except ε (σ × ℕ)) (s : σ) :
    (execute f).run s = (f s).map (fun x => (x.2, x.1)) := by
  rw [execute, run]
  cases f s <;> rfl

theorem run_execute_of {f : σ → Except ε (σ × ℕ)} {s s' : σ} {n : ℕ} (h : f s = .ok (s', n)) :
    (execute f).run s = .ok (n, s') := by
  rw [run_execute, h]
  rfl

theorem run_bind (t : Txn σ ε α) (f : α → Txn σ ε β) (s : σ) :
    (t >>= f).run s = (t.run s).bind (fun x => (f x.1).run x.2) := by
  show (t.bind f).run s = _
  induction t generalizing s with
  | done a => rfl
  | raise e => rfl
  | query k ih => exact ih s s
  | exec g k ih =>
    simp only [bind, run]
    cases g s with
    | error e => rfl
    | ok x => exact ih x.2 x.1

theorem bind_assoc {γ : Type} (t : Txn σ ε α) (f : α → Txn σ ε β) (g : β → Txn σ ε γ) :
    (t >>= f) >>= g = t >>= fun a => f a >>= g := by
  show (t.bind f).bind g = t.bind fun a => (f a).bind g
  induction t with
  | done a => rfl
  | raise e => rfl
  | query k ih => exact congrArg query (funext ih)
  | exec h k ih => exact congrArg (exec h) (funext ih)

/-- A sequence succeeds when both halves do. -/
theorem run_bind_eq_ok {t : Txn σ ε α} {f : α → Txn σ ε β} {s : σ} {r : β × σ} :
    (t >>= f).run s = .ok r ↔ ∃ a s', t.run s = .ok (a, s') ∧ (f a).run s' = .ok r := by
  rw [run_bind]
  cases t.run s with
  | error e => simp [Except.bind]
  | ok x =>
    constructor
    · exact fun h => ⟨x.1, x.2, rfl, h⟩
    · rintro ⟨a, s', hx, h⟩
      cases hx
      exact h

theorem run_bind_of {t : Txn σ ε α} {f : α → Txn σ ε β} {s s' : σ} {a : α} (h : t.run s = .ok (a, s')) :
    (t >>= f).run s = (f a).run s' := by
  rw [run_bind, h]
  rfl

theorem run_bind_of_error {t : Txn σ ε α} {f : α → Txn σ ε β} {s : σ} {e : ε} (h : t.run s = .error e) :
    (t >>= f).run s = .error e := by
  rw [run_bind, h]
  rfl

/-- A write that cannot fail. -/
theorem run_write (f : σ → σ × ℕ) (k : ℕ → Txn σ ε β) (s : σ) :
    (execute (fun s => .ok (f s)) >>= k).run s = (k (f s).2).run (f s).1 :=
  run_bind_of (run_execute_of rfl)

/-- A write whose row count is checked: it goes on if exactly one row was changed, and otherwise refuses. -/
theorem run_checked {f : σ → σ × ℕ} {refuse t : Txn σ ε α} {s : σ} {r : α × σ}
    (hrefuse : ∀ s, ∃ e, refuse.run s = .error e) :
    (execute (fun s => .ok (f s)) >>= fun n => if n ≠ 1 then refuse else t).run s = .ok r ↔
      (f s).2 = 1 ∧ t.run (f s).1 = .ok r := by
  rw [run_write]
  by_cases h : (f s).2 = 1
  · rw [if_neg (fun hn => hn h)]
    exact ⟨fun ht => ⟨h, ht⟩, fun ht => ht.2⟩
  · rw [if_pos h]
    obtain ⟨e, he⟩ := hrefuse (f s).1
    rw [he]
    exact ⟨fun ht => (by cases ht), fun ht => absurd ht.1 h⟩

@[simp] theorem run_forEach_nil (f : ι → Txn σ ε Unit) (s : σ) : (forEach [] f).run s = .ok ((), s) := rfl

theorem run_forEach_cons (x : ι) (xs : List ι) (f : ι → Txn σ ε Unit) (s : σ) :
    (forEach (x :: xs) f).run s = (f x >>= fun _ => forEach xs f).run s := rfl

theorem commit_of_ok {t : Txn σ ε α} {s s' : σ} {a : α} (h : t.run s = .ok (a, s')) :
    t.commit s = (.ok a, s') := by
  rw [commit, h]

theorem commit_of_error {t : Txn σ ε α} {s : σ} {e : ε} (h : t.run s = .error e) :
    t.commit s = (.error e, s) := by
  rw [commit, h]

/-- A committed result comes from a run; anything else leaves the store as it was. -/
theorem commit_cases (t : Txn σ ε α) (s : σ) :
    (∃ a s', t.run s = .ok (a, s') ∧ t.commit s = (.ok a, s')) ∨
    (∃ e, t.run s = .error e ∧ t.commit s = (.error e, s)) := by
  cases h : t.run s with
  | ok x => exact .inl ⟨x.1, x.2, rfl, commit_of_ok h⟩
  | error e => exact .inr ⟨e, rfl, commit_of_error h⟩

/-- What was committed is what the run returned. -/
theorem run_of_commit {t : Txn σ ε α} {s : σ} {a : α} (h : (t.commit s).1 = .ok a) :
    t.run s = .ok (a, (t.commit s).2) := by
  rcases commit_cases t s with ⟨a', s', hr, hc⟩ | ⟨e, -, hc⟩
  · rw [hc] at h ⊢
    cases h
    exact hr
  · rw [hc] at h
    cases h

theorem runStale_nil (t : Txn σ ε α) (s : σ) : t.runStale [] s = t.run s := by
  induction t with
  | done a => rfl
  | raise e => rfl
  | query k ih => exact ih s
  | exec f k => rfl

/-- A read before the first write sees the first snapshot. -/
theorem runStale_bind_select (q : σ → β) (k : β → Txn σ ε α) (l : List σ) (s : σ) :
    (select q >>= k).runStale l s = (k (q (l.getD 0 s))).runStale l.tail s := by
  cases l <;> rfl

/-- From its first write on, a transaction is alone. -/
theorem runStale_bind_execute (f : σ → Except ε (σ × ℕ)) (k : ℕ → Txn σ ε α) (l : List σ) (s : σ) :
    (execute f >>= k).runStale l s = (execute f >>= k).run s := rfl

end Run

/-! ## Statement-wise reasoning -/

/-- Every writing statement of the transaction relates the states before and after it by `R`, whatever the
queries returned and whatever the row counts were. -/
def Respects (R : σ → σ → Prop) : Txn σ ε α → Prop
  | done _ => True
  | raise _ => True
  | query k => ∀ s, (k s).Respects R
  | exec f k => (∀ s s' n, f s = .ok (s', n) → R s s') ∧ ∀ n, (k n).Respects R

section Respects

variable {R : σ → σ → Prop}

@[simp] theorem respects_done (a : α) : (done a : Txn σ ε α).Respects R := trivial

@[simp] theorem respects_pure (a : α) : (pure a : Txn σ ε α).Respects R := trivial

@[simp] theorem respects_raise (e : ε) : (raise e : Txn σ ε α).Respects R := trivial

@[simp] theorem respects_select (q : σ → α) : (select q : Txn σ ε α).Respects R := fun _ => trivial

@[simp] theorem respects_ofExcept (x : Except ε α) : (ofExcept x : Txn σ ε α).Respects R := by
  cases x <;> trivial

theorem respects_execute {f : σ → Except ε (σ × ℕ)} (h : ∀ s s' n, f s = .ok (s', n) → R s s') :
    (execute f).Respects R :=
  ⟨h, fun _ => trivial⟩

theorem Respects.bind {t : Txn σ ε α} {f : α → Txn σ ε β} (ht : t.Respects R)
    (hf : ∀ a, (f a).Respects R) : (t >>= f).Respects R := by
  show (t.bind f).Respects R
  induction t with
  | done a => exact hf a
  | raise e => trivial
  | query k ih => exact fun s => ih s (ht s)
  | exec g k ih => exact ⟨ht.1, fun n => ih n (ht.2 n)⟩

theorem respects_bind_select {q : σ → β} {k : β → Txn σ ε α} (hk : ∀ b, (k b).Respects R) :
    (select q >>= k).Respects R :=
  (respects_select q).bind hk

theorem respects_bind_ofExcept {x : Except ε β} {k : β → Txn σ ε α} (hk : ∀ b, x = .ok b → (k b).Respects R) :
    (ofExcept x >>= k).Respects R := by
  cases x with
  | error e => trivial
  | ok b => exact hk b rfl

/-- A write that cannot fail. -/
theorem respects_bind_write {f : σ → σ × ℕ} {k : ℕ → Txn σ ε α} (hf : ∀ s, R s (f s).1)
    (hk : ∀ n, (k n).Respects R) : (execute (fun s => .ok (f s)) >>= k).Respects R := by
  refine Respects.bind (respects_execute fun s s' n he => ?_) hk
  have hs := hf s
  rw [Except.ok.inj he] at hs
  exact hs

theorem respects_forEach {f : ι → Txn σ ε Unit} (h : ∀ x, (f x).Respects R) :
    ∀ xs, (forEach xs f).Respects R
  | [] => trivial
  | x :: xs => Respects.bind (h x) fun _ => respects_forEach h xs

variable (hrefl : ∀ s, R s s) (htrans : ∀ s s' s'', R s s' → R s' s'' → R s s'')
include hrefl htrans

theorem Respects.run {t : Txn σ ε α} (ht : t.Respects R) :
    ∀ {s s' a}, t.run s = .ok (a, s') → R s s' := by
  induction t with
  | done a =>
    rintro s s' b h
    cases h
    exact hrefl s
  | raise e =>
    rintro s s' b h
    cases h
  | query k ih => exact fun {s s' b} h => ih s (ht s) h
  | exec f k ih =>
    intro s s' b h
    rw [Txn.run] at h
    cases hf : f s with
    | error e =>
      rw [hf] at h
      cases h
    | ok x =>
      rw [hf] at h
      exact htrans _ _ _ (ht.1 s x.1 x.2 hf) (ih x.2 (ht.2 x.2) h)

/-- The rule for stale reads: only the statements write, and they write on the current state. -/
theorem Respects.runStale {t : Txn σ ε α} (ht : t.Respects R) :
    ∀ {l s s' a}, t.runStale l s = .ok (a, s') → R s s' := by
  induction t with
  | done a =>
    rintro l s s' b h
    cases h
    exact hrefl s
  | raise e =>
    rintro l s s' b h
    cases h
  | query k ih =>
    intro l s s' b h
    cases l with
    | nil => exact ih s (ht s) h
    | cons old older => exact ih old (ht old) h
  | exec f k => exact fun {l s s' b} h => Respects.run hrefl htrans ht h

theorem Respects.commit {t : Txn σ ε α} (ht : t.Respects R) (s : σ) : R s (t.commit s).2 := by
  rcases commit_cases t s with ⟨a, s', hrun, h⟩ | ⟨e, -, h⟩
  · rw [h]
    exact ht.run hrefl htrans hrun
  · rw [h]
    exact hrefl s

end Respects

/-! ## Exceptions -/

/-- Every exception of the transaction is one of `P`. -/
def Raises (P : ε → Prop) (t : Txn σ ε α) : Prop := ∀ s e, t.run s = .error e → P e

section Raises

variable {P : ε → Prop}

theorem raises_pure (a : α) : Raises P (pure a : Txn σ ε α) := by
  intro s e h
  cases h

theorem raises_raise {e : ε} (h : P e) : Raises P (raise e : Txn σ ε α) := by
  intro s e' h'
  cases h'
  exact h

theorem raises_ofExcept {x : Except ε α} (h : ∀ e, x = .error e → P e) : Raises P (ofExcept x : Txn σ ε α) := by
  intro s e he
  cases x with
  | ok a => cases he
  | error e' =>
    cases he
    exact h e rfl

theorem raises_select (q : σ → α) : Raises P (select q : Txn σ ε α) := by
  intro s e h
  cases h

theorem raises_write (f : σ → σ × ℕ) : Raises P (execute fun s => .ok (f s) : Txn σ ε ℕ) := by
  intro s e h
  rw [run_execute_of rfl] at h
  cases h

theorem Raises.bind {t : Txn σ ε α} {f : α → Txn σ ε β} (ht : Raises P t) (hf : ∀ a, Raises P (f a)) :
    Raises P (t >>= f) := by
  intro s e h
  cases hrun : t.run s with
  | error e' =>
    rw [run_bind_of_error hrun] at h
    cases h
    exact ht s e hrun
  | ok x =>
    obtain ⟨a, s'⟩ := x
    rw [run_bind_of hrun] at h
    exact hf a s' e h

end Raises

end Txn

end Xyberos
