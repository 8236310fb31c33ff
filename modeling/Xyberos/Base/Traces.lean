import Xyberos.Base.Proc

/-!
# Xyberos.Base.Traces — what a coroutine does when its requests are answered

`Traced A p l r`: the coroutine `p`, each request answered by a value that `A` allows, makes the requests in `l` with
these answers and ends in `r`.  `Yields A p Q` says that every trace of `p` meets `Q`; its rules follow the program, as
those of `wp` do, and keep what was exchanged where `wp` keeps a state.
-/

set_option autoImplicit false

namespace Xyberos.Proc

variable {Q : Type} {R : Q → Type} {ε α β : Type}

/-- A request and its answer. -/
abbrev Exchange (R : Q → Type) := (q : Q) × R q

/-- The traces of a coroutine. -/
inductive Traced (A : (q : Q) → R q → Prop) : Proc Q R ε α → List (Exchange R) → Except ε α → Prop
  | ret {a : α} : Traced A (.ret a) [] (.ok a)
  | raise {e : ε} : Traced A (.raise e) [] (.error e)
  | ask {q : Q} {k : Except ε (R q) → Proc Q R ε α} {x : R q} {l : List (Exchange R)} {r : Except ε α}
      (allowed : A q x) (rest : Traced A (k (.ok x)) l r) : Traced A (.ask q k) (⟨q, x⟩ :: l) r

/-- Every answer of a trace is allowed. -/
theorem Traced.allowed {A : (q : Q) → R q → Prop} {p : Proc Q R ε α} {l : List (Exchange R)} {r : Except ε α}
    (h : Traced A p l r) : ∀ x ∈ l, A x.1 x.2 := by
  induction h with
  | ret => exact fun x hx => nomatch hx
  | raise => exact fun x hx => nomatch hx
  | ask allowed _ ih =>
    intro x hx
    rcases List.mem_cons.mp hx with rfl | hx
    · exact allowed
    · exact ih x hx

/-- More may be allowed. -/
theorem Traced.weaken {A A' : (q : Q) → R q → Prop} (hA : ∀ q x, A q x → A' q x) {p : Proc Q R ε α}
    {l : List (Exchange R)} {r : Except ε α} (h : Traced A p l r) : Traced A' p l r := by
  induction h with
  | ret => exact .ret
  | raise => exact .raise
  | ask allowed _ ih => exact .ask (hA _ _ allowed) ih

/-- The trace of a coroutine whose requests are answered by a function. -/
def replay (answer : (q : Q) → R q) : Proc Q R ε α → List (Exchange R) × Except ε α
  | .ret a => ([], .ok a)
  | .raise e => ([], .error e)
  | .ask q k =>
    let (l, r) := replay answer (k (.ok (answer q)))
    (⟨q, answer q⟩ :: l, r)

theorem traced_replay {A : (q : Q) → R q → Prop} {answer : (q : Q) → R q} (hA : ∀ q, A q (answer q))
    (p : Proc Q R ε α) : Traced A p (p.replay answer).1 (p.replay answer).2 := by
  induction p with
  | ret a => exact .ret
  | raise e => exact .raise
  | ask q k ih => exact .ask (hA q) (ih _)

/-- The trace of a coroutine whose requests are answered by one function after another, from number `start` on. -/
def replayFrom (answers : Nat → (q : Q) → R q) : Nat → Proc Q R ε α → List (Exchange R) × Except ε α
  | _, .ret a => ([], .ok a)
  | _, .raise e => ([], .error e)
  | start, .ask q k =>
    let (l, r) := replayFrom answers (start + 1) (k (.ok (answers start q)))
    (⟨q, answers start q⟩ :: l, r)

theorem traced_replayFrom {A : (q : Q) → R q → Prop} {answers : Nat → (q : Q) → R q} (hA : ∀ n q, A q (answers n q))
    (start : Nat) (p : Proc Q R ε α) : Traced A p (p.replayFrom answers start).1 (p.replayFrom answers start).2 := by
  induction p generalizing start with
  | ret a => exact .ret
  | raise e => exact .raise
  | ask q k ih => exact .ask (hA start q) (ih _ (start + 1))

/-- Every trace meets a condition. -/
def Yields (A : (q : Q) → R q → Prop) (p : Proc Q R ε α) (C : List (Exchange R) → Except ε α → Prop) : Prop :=
  ∀ l r, Traced A p l r → C l r

section Rules

variable {A : (q : Q) → R q → Prop} {C C' : List (Exchange R) → Except ε α → Prop}

theorem Yields.mono {p : Proc Q R ε α} (h : Yields A p C) (hC : ∀ l r, C l r → C' l r) : Yields A p C' :=
  fun l r ht => hC l r (h l r ht)

theorem Yields.and {p : Proc Q R ε α} (h : Yields A p C) (h' : Yields A p C') :
    Yields A p fun l r => C l r ∧ C' l r :=
  fun l r ht => ⟨h l r ht, h' l r ht⟩

theorem yields_ret {a : α} : Yields A (.ret a) C ↔ C [] (.ok a) := by
  constructor
  · exact fun h => h [] _ .ret
  · rintro h l r ht
    cases ht
    exact h

theorem yields_pure {a : α} : Yields A (pure a) C ↔ C [] (.ok a) := yields_ret

theorem yields_raise {e : ε} : Yields A (.raise e) C ↔ C [] (.error e) := by
  constructor
  · exact fun h => h [] _ .raise
  · rintro h l r ht
    cases ht
    exact h

theorem yields_ofExcept {x : Except ε α} : Yields A (ofExcept x) C ↔ C [] x := by
  cases x with
  | ok a => exact yields_ret
  | error e => exact yields_raise

theorem yields_ask {q : Q} {k : Except ε (R q) → Proc Q R ε α} :
    Yields A (.ask q k) C ↔ ∀ x, A q x → Yields A (k (.ok x)) fun l r => C (⟨q, x⟩ :: l) r := by
  constructor
  · exact fun h x hx l r ht => h _ r (.ask hx ht)
  · rintro h l r ht
    cases ht with
    | ask allowed rest => exact h _ allowed _ r rest

theorem yields_request {q : Q} {C : List (Exchange R) → Except ε (R q) → Prop} :
    Yields A (request q) C ↔ ∀ x, A q x → C [⟨q, x⟩] (.ok x) := by
  refine yields_ask.trans (forall₂_congr fun x _ => ?_)
  exact yields_ofExcept

/-- A sequence is cut short by an exception, or goes on with the value. -/
theorem yields_bind {p : Proc Q R ε β} {f : β → Proc Q R ε α} : Yields A (p >>= f) C ↔
    Yields A p fun l r =>
      Ends (fun e => C l (.error e)) (fun b => Yields A (f b) fun l' r' => C (l ++ l') r') r := by
  show Yields A (p.bind f) C ↔ _
  induction p generalizing C with
  | ret b =>
    rw [yields_ret, ends_ok]
    exact Iff.rfl
  | raise e =>
    rw [yields_raise, ends_error]
    exact yields_raise
  | ask q k ih =>
    rw [yields_ask]
    exact yields_ask.trans (forall₂_congr fun x _ => ih _)

/-- A request, and what follows its answer. -/
theorem yields_bind_request {q : Q} {f : R q → Proc Q R ε α} : Yields A (request q >>= f) C ↔
    ∀ x, A q x → Yields A (f x) fun l r => C (⟨q, x⟩ :: l) r :=
  yields_bind.trans yields_request

theorem yields_attempt {p : Proc Q R ε β} {C : List (Exchange R) → Except ε (Except ε β) → Prop} :
    Yields A p.attempt C ↔ Yields A p fun l r => C l (.ok r) := by
  induction p generalizing C with
  | ret b =>
    rw [yields_ret]
    exact yields_ret
  | raise e =>
    rw [yields_raise]
    exact yields_ret
  | ask q k ih =>
    rw [yields_ask]
    exact yields_ask.trans (forall₂_congr fun x _ => ih _)

instance : LawfulMonad (Proc Q R ε) := by
  have hret : ∀ {β : Type} (p : Proc Q R ε β), p.bind .ret = p := by
    intro β p
    induction p with
    | ret b => rfl
    | raise e => rfl
    | ask q k ih => exact congrArg (Proc.ask q) (funext ih)
  have hassoc : ∀ {β γ δ : Type} (p : Proc Q R ε β) (f : β → Proc Q R ε γ) (g : γ → Proc Q R ε δ),
      (p.bind f).bind g = p.bind fun b => (f b).bind g := by
    intro β γ δ p f g
    induction p with
    | ret b => rfl
    | raise e => rfl
    | ask q k ih => exact congrArg (Proc.ask q) (funext ih)
  exact .mk' _ (fun p => hret p) (fun _ _ => rfl) hassoc

/-- A loop over a list runs its first step, and then the rest. -/
theorem yields_mapM_cons {β γ : Type} {f : β → Proc Q R ε γ} {b : β} {bs : List β}
    {C : List (Exchange R) → Except ε (List γ) → Prop} : Yields A ((b :: bs).mapM f) C ↔
      Yields A (f b) fun l r => Ends (fun e => C l (.error e))
        (fun c => Yields A (bs.mapM f) fun l' r' => C (l ++ l') (r'.map (c :: ·))) r := by
  rw [List.mapM_cons, yields_bind]
  refine forall₃_congr fun l r _ => ?_
  cases r with
  | error e => exact Iff.rfl
  | ok c =>
    refine Iff.trans (yields_bind (p := bs.mapM f)) (forall₃_congr fun l' r' _ => ?_)
    cases r' with
    | error e => exact Iff.rfl
    | ok cs =>
      refine Iff.trans yields_pure ?_
      rw [List.append_nil]
      exact Iff.rfl

end Rules

end Xyberos.Proc
