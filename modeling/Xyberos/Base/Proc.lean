import Mathlib.Logic.Relation

/-!
# Xyberos.Base.Proc — coroutines among others

A coroutine is a tree of requests: it asks, is suspended, and goes on with the answer, which is a value or an
exception.  A `World` says what the others may do to the state while it is suspended, under which condition it may
make a request, and how the state answers.  `wp W p Post` is the weakest condition on the state under which `p`,
run in `W` and interrupted between any two requests, makes only allowed requests and ends in `Post`.

`Triple` is `wp` with a precondition, and its rules follow the program; in the rule of a request the precondition
has to be stable under the others.  `wp_of_interferes` and `wp_turn` make `wp` an invariant of a system of coroutines:
it survives what the others do and the turns of the coroutine itself.
-/

set_option autoImplicit false

namespace Xyberos

/-- A coroutine that makes requests `q : Q`, answered by `R q`, raises `ε` and returns `α`. -/
inductive Proc (Q : Type) (R : Q → Type) (ε α : Type) where
  | ret (a : α)
  | raise (e : ε)
  | ask (q : Q) (k : Except ε (R q) → Proc Q R ε α)

namespace Proc

variable {Q : Type} {R : Q → Type} {ε α β σ : Type}

/-- Sequencing; an exception ends the coroutine. -/
def bind : Proc Q R ε α → (α → Proc Q R ε β) → Proc Q R ε β
  | ret a, f => f a
  | raise e, _ => raise e
  | ask q k, f => ask q fun x => (k x).bind f

instance : Monad (Proc Q R ε) where
  pure := ret
  bind := bind

/-- Run a coroutine to its end, whichever way it ends. -/
def attempt : Proc Q R ε α → Proc Q R ε (Except ε α)
  | ret a => ret (.ok a)
  | raise e => ret (.error e)
  | ask q k => ask q fun x => (k x).attempt

/-- A value or an exception that is at hand. -/
def ofExcept : Except ε α → Proc Q R ε α
  | .ok a => ret a
  | .error e => raise e

/-- `try: p finally: q`; what `q` raises replaces the end of `p`. -/
def finally' (p : Proc Q R ε α) (q : Proc Q R ε Unit) : Proc Q R ε α :=
  p.attempt.bind fun x => q.bind fun _ => ofExcept x

/-- Make one request. -/
def request (q : Q) : Proc Q R ε (R q) := ask q ofExcept

/-- Forget the result. -/
def discard (p : Proc Q R ε α) : Proc Q R ε Unit := p.bind fun _ => ret ()

/-- What the coroutine ended in, if it has ended. -/
def ended : Proc Q R ε α → Option (Except ε α)
  | ret a => some (.ok a)
  | raise e => some (.error e)
  | ask .. => none

/-- A condition on an end: one on exceptions and one on values. -/
def Ends (onError : ε → Prop) (onOk : α → Prop) : Except ε α → Prop
  | .ok a => onOk a
  | .error e => onError e

@[simp] theorem ends_ok {onError : ε → Prop} {onOk : α → Prop} {a : α} :
    Ends onError onOk (.ok a) ↔ onOk a := Iff.rfl

@[simp] theorem ends_error {onError : ε → Prop} {onOk : α → Prop} {e : ε} :
    Ends onError onOk (.error e) ↔ onError e := Iff.rfl

/-! ## The requests of a coroutine -/

/-- Every request of the coroutine meets `D`, whatever it was answered before. -/
def Only (D : Q → Prop) : Proc Q R ε α → Prop
  | ret _ => True
  | raise _ => True
  | ask q k => D q ∧ ∀ x, (k x).Only D

section Only

variable {D D' : Q → Prop}

theorem only_pure (a : α) : (pure a : Proc Q R ε α).Only D := trivial

theorem only_raise (e : ε) : (raise e : Proc Q R ε α).Only D := trivial

theorem only_ofExcept (x : Except ε α) : (ofExcept x : Proc Q R ε α).Only D := by
  cases x <;> trivial

theorem only_request {q : Q} (h : D q) : (request q : Proc Q R ε (R q)).Only D := ⟨h, only_ofExcept⟩

theorem Only.mono {p : Proc Q R ε α} (h : p.Only D) (hD : ∀ q, D q → D' q) : p.Only D' := by
  induction p with
  | ret a => trivial
  | raise e => trivial
  | ask q k ih => exact ⟨hD q h.1, fun x => ih x (h.2 x)⟩

theorem Only.bind {p : Proc Q R ε α} {f : α → Proc Q R ε β} (hp : p.Only D) (hf : ∀ a, (f a).Only D) :
    (p >>= f).Only D := by
  show (p.bind f).Only D
  induction p with
  | ret a => exact hf a
  | raise e => trivial
  | ask q k ih => exact ⟨hp.1, fun x => ih x (hp.2 x)⟩

theorem Only.attempt {p : Proc Q R ε α} (hp : p.Only D) : p.attempt.Only D := by
  induction p with
  | ret a => trivial
  | raise e => trivial
  | ask q k ih => exact ⟨hp.1, fun x => ih x (hp.2 x)⟩

theorem Only.finally' {p : Proc Q R ε α} {q : Proc Q R ε Unit} (hp : p.Only D) (hq : q.Only D) :
    (p.finally' q).Only D :=
  hp.attempt.bind fun _ => hq.bind fun _ => only_ofExcept _

end Only

/-! ## Worlds -/

/-- The surroundings of a coroutine over the states `σ`. -/
structure World (Q : Type) (R : Q → Type) (ε σ : Type) where
  /-- one step of somebody else -/
  interferes : σ → σ → Prop
  /-- the states in which a request may be made -/
  allows : Q → σ → Prop
  /-- the answers to a request, with the state afterwards -/
  answers (q : Q) : σ → Except ε (R q) → σ → Prop

variable {W : World Q R ε σ}

/-- Any number of steps of the others. -/
def World.Later (W : World Q R ε σ) : σ → σ → Prop := Relation.ReflTransGen W.interferes

/-- No step of the others changes that `P` holds. -/
def World.Stable (W : World Q R ε σ) (P : σ → Prop) : Prop := ∀ s s', W.interferes s s' → P s → P s'

theorem World.Later.refl (s : σ) : W.Later s s := Relation.ReflTransGen.refl

theorem World.Later.trans {s s' s'' : σ} (h : W.Later s s') (h' : W.Later s' s'') : W.Later s s'' :=
  Relation.ReflTransGen.trans h h'

theorem World.Stable.later {P : σ → Prop} (hP : W.Stable P) {s s' : σ} (h : W.Later s s') (hs : P s) : P s' := by
  induction h with
  | refl => exact hs
  | tail _ hstep ih => exact hP _ _ hstep ih

theorem World.Stable.and {P P' : σ → Prop} (hP : W.Stable P) (hP' : W.Stable P') : W.Stable fun s => P s ∧ P' s :=
  fun s s' h hs => ⟨hP s s' h hs.1, hP' s s' h hs.2⟩

/-- The weakest precondition of a coroutine. -/
def wp (W : World Q R ε σ) : Proc Q R ε α → (Except ε α → σ → Prop) → σ → Prop
  | ret a, Post, s => Post (.ok a) s
  | raise e, Post, s => Post (.error e) s
  | ask q k, Post, s => ∀ s', W.Later s s' → W.allows q s' ∧ ∀ x s'', W.answers q s' x s'' → (k x).wp W Post s''

section Rules

variable {Post Post' : Except ε α → σ → Prop} {s s' : σ}

@[simp] theorem wp_ret {a : α} : (ret a : Proc Q R ε α).wp W Post s ↔ Post (.ok a) s := Iff.rfl

@[simp] theorem wp_pure {a : α} : (pure a : Proc Q R ε α).wp W Post s ↔ Post (.ok a) s := Iff.rfl

@[simp] theorem wp_raise {e : ε} : (raise e : Proc Q R ε α).wp W Post s ↔ Post (.error e) s := Iff.rfl

@[simp] theorem wp_ofExcept {x : Except ε α} : (ofExcept x : Proc Q R ε α).wp W Post s ↔ Post x s := by
  cases x <;> exact Iff.rfl

theorem wp_mono {p : Proc Q R ε α} (h : p.wp W Post s) (hPost : ∀ x s, Post x s → Post' x s) :
    p.wp W Post' s := by
  induction p generalizing s with
  | ret a => exact hPost _ _ h
  | raise e => exact hPost _ _ h
  | ask q k ih => exact fun s' hs' => ⟨(h s' hs').1, fun x s'' hx => ih x ((h s' hs').2 x s'' hx)⟩

theorem wp_bind {p : Proc Q R ε β} {f : β → Proc Q R ε α} :
    (p >>= f).wp W Post s ↔ p.wp W (fun x s => Ends (fun e => Post (.error e) s) (fun b => (f b).wp W Post s) x) s := by
  show (p.bind f).wp W Post s ↔ _
  induction p generalizing s with
  | ret b => exact Iff.rfl
  | raise e => exact Iff.rfl
  | ask q k ih => exact forall₂_congr fun s' _ => and_congr_right fun _ => forall₃_congr fun x s'' _ => ih x

theorem wp_attempt {p : Proc Q R ε β} {Post : Except ε (Except ε β) → σ → Prop} :
    p.attempt.wp W Post s ↔ p.wp W (fun x => Post (.ok x)) s := by
  induction p generalizing s with
  | ret b => exact Iff.rfl
  | raise e => exact Iff.rfl
  | ask q k ih => exact forall₂_congr fun s' _ => and_congr_right fun _ => forall₃_congr fun x s'' _ => ih x

theorem wp_finally {p : Proc Q R ε α} {q : Proc Q R ε Unit} :
    (p.finally' q).wp W Post s ↔
      p.wp W (fun x s => q.wp W (fun y s => Ends (fun e => Post (.error e) s) (fun _ => Post x s) y) s) s := by
  refine (wp_bind (p := p.attempt)).trans (wp_attempt.trans ⟨fun hp => ?_, fun hp => ?_⟩)
  · refine wp_mono hp fun x s hx => wp_mono ((wp_bind (p := q)).mp hx) fun y s hy => ?_
    cases y with
    | error e => exact hy
    | ok u => exact wp_ofExcept.mp hy
  · refine wp_mono hp fun x s hx => (wp_bind (p := q)).mpr (wp_mono hx fun y s hy => ?_)
    cases y with
    | error e => exact hy
    | ok u => exact wp_ofExcept.mpr hy

/-- What is true of a coroutine stays true whatever the others do; after its end, if they respect its result. -/
theorem wp_of_interferes {p : Proc Q R ε α} (hPost : ∀ x, p.ended = some x → Post x s → Post x s')
    (h : p.wp W Post s) (hs : W.interferes s s') : p.wp W Post s' := by
  cases p with
  | ret a => exact hPost _ rfl h
  | raise e => exact hPost _ rfl h
  | ask q k => exact fun s'' hs'' => h s'' (.head hs hs'')

/-- **Frame.**  What neither the others nor an allowed request changes, a coroutine does not change. -/
theorem wp_frame {F : σ → Prop} (hF : W.Stable F)
    (hstep : ∀ q s x s', W.allows q s → W.answers q s x s' → F s → F s') {p : Proc Q R ε α}
    {Post : Except ε α → σ → Prop} {s : σ} (h : p.wp W Post s) (hs : F s) : p.wp W (fun x s => F s ∧ Post x s) s := by
  induction p generalizing s with
  | ret a => exact ⟨hs, h⟩
  | raise e => exact ⟨hs, h⟩
  | ask q k ih =>
    intro s' hs'
    obtain ⟨hallows, hrest⟩ := h s' hs'
    exact ⟨hallows, fun x s'' hx => ih x (hrest x s'' hx) (hstep q s' x s'' hallows hx (hF.later hs' hs))⟩

/-- A coroutine that has ended is in its postcondition. -/
theorem wp_of_ended {p : Proc Q R ε α} {x : Except ε α} (h : p.wp W Post s) (hx : p.ended = some x) : Post x s := by
  cases p <;> cases hx <;> exact h

/-- One turn of a coroutine. -/
theorem wp_turn {q : Q} {k : Except ε (R q) → Proc Q R ε α} (h : (ask q k).wp W Post s) :
    W.allows q s ∧ ∀ x s', W.answers q s x s' → (k x).wp W Post s' :=
  h s (World.Later.refl s)

end Rules

/-! ## Triples -/

/-- From a state with `P`, the coroutine returns in a state with `Q` or raises in a state with `E`. -/
def World.Triple (W : World Q R ε σ) (P : σ → Prop) (p : Proc Q R ε α) (Post : α → σ → Prop) (E : ε → σ → Prop) :
    Prop :=
  ∀ s, P s → p.wp W (fun x s => Ends (fun e => E e s) (fun a => Post a s) x) s

namespace World.Triple

variable {P P' : σ → Prop} {Post Post' : α → σ → Prop} {E E' : ε → σ → Prop}

theorem ret {a : α} (h : ∀ s, P s → Post a s) : W.Triple P (.ret a) Post E := h

theorem pure {a : α} (h : ∀ s, P s → Post a s) : W.Triple P (Pure.pure a) Post E := h

theorem raise {e : ε} (h : ∀ s, P s → E e s) : W.Triple P (.raise e) Post E := h

theorem ofExcept {x : Except ε α} (ha : ∀ a, x = .ok a → ∀ s, P s → Post a s)
    (he : ∀ e, x = .error e → ∀ s, P s → E e s) : W.Triple P (.ofExcept x) Post E := by
  cases x with
  | ok a => exact ret (ha a rfl)
  | error e => exact raise (he e rfl)

theorem weaken {p : Proc Q R ε α} (h : W.Triple P' p Post' E') (hP : ∀ s, P s → P' s)
    (hPost : ∀ a s, Post' a s → Post a s) (hE : ∀ e s, E' e s → E e s) : W.Triple P p Post E := by
  intro s hs
  refine wp_mono (h s (hP s hs)) fun x s hx => ?_
  cases x with
  | ok a => exact hPost a s hx
  | error e => exact hE e s hx

theorem pre {p : Proc Q R ε α} (h : W.Triple P' p Post E) (hP : ∀ s, P s → P' s) : W.Triple P p Post E :=
  fun s hs => h s (hP s hs)

theorem bind {p : Proc Q R ε β} {f : β → Proc Q R ε α} {M : β → σ → Prop} (hp : W.Triple P p M E)
    (hf : ∀ b, W.Triple (M b) (f b) Post E) : W.Triple P (p >>= f) Post E := by
  intro s hs
  refine wp_bind.mpr (wp_mono (hp s hs) fun x s hx => ?_)
  cases x with
  | ok b => exact hf b s hx
  | error e => exact hx

theorem attempt {p : Proc Q R ε α} (h : W.Triple P p Post E) :
    W.Triple P p.attempt (fun x s => Ends (fun e => E e s) (fun a => Post a s) x) E' :=
  fun s hs => wp_attempt.mpr (h s hs)

/-- Whichever way the body ends, the last part goes on from there. -/
theorem finally' {p : Proc Q R ε α} {q : Proc Q R ε Unit} {M : α → σ → Prop} {E' : ε → σ → Prop}
    (hp : W.Triple P p M E') (hok : ∀ a, W.Triple (M a) q (fun _ => Post a) E)
    (herror : ∀ e, W.Triple (E' e) q (fun _ => E e) E) : W.Triple P (p.finally' q) Post E := by
  intro s hs
  refine wp_finally.mpr (wp_mono (hp s hs) fun x s hx => ?_)
  cases x with
  | ok a =>
    refine wp_mono (hok a s hx) fun y s hy => ?_
    cases y <;> exact hy
  | error e =>
    refine wp_mono (herror e s hx) fun y s hy => ?_
    cases y <;> exact hy

/-- **One request.**  Its precondition is stable, allows it, and covers every answer. -/
theorem request {q : Q} {Post : R q → σ → Prop} (hP : W.Stable P)
    (hq : ∀ s, P s → W.allows q s ∧
      ∀ x s', W.answers q s x s' → Ends (fun e => E e s') (fun a => Post a s') x) :
    W.Triple P (Proc.request q) Post E := by
  intro s hs s' hs'
  obtain ⟨hallows, hanswers⟩ := hq s' (hP.later hs' hs)
  exact ⟨hallows, fun x s'' hx => wp_ofExcept.mpr (hanswers x s'' hx)⟩

/-- What the others and all requests of a coroutine keep, the coroutine keeps. -/
theorem of_only {p : Proc Q R ε α} {D : Q → Prop} (h : p.Only D) (hP : W.Stable P)
    (hD : ∀ q s, D q → P s → W.allows q s ∧ ∀ x s', W.answers q s x s' → P s') :
    W.Triple P p (fun _ => P) fun _ => P := by
  intro s hs
  induction p generalizing s with
  | ret a => exact hs
  | raise e => exact hs
  | ask q k ih =>
    intro s' hs'
    obtain ⟨hallows, hanswers⟩ := hD q s' h.1 (hP.later hs' hs)
    exact ⟨hallows, fun x s'' hx => ih x (h.2 x) s'' (hanswers x s'' hx)⟩

theorem frame {F P : σ → Prop} {p : Proc Q R ε α} {Post : α → σ → Prop} {E : ε → σ → Prop}
    (hF : W.Stable F) (hstep : ∀ q s x s', W.allows q s → W.answers q s x s' → F s → F s')
    (h : W.Triple P p Post E) :
    W.Triple (fun s => F s ∧ P s) p (fun a s => F s ∧ Post a s) fun e s => F s ∧ E e s := by
  intro s hs
  refine wp_mono (wp_frame hF hstep (h s hs.2) hs.1) fun x s hx => ?_
  cases x <;> exact hx

/-- A fact of the precondition that does not depend on the state. -/
theorem assume {p : Proc Q R ε α} {q : Prop} (h : q → W.Triple P p Post E) : W.Triple (fun s => q ∧ P s) p Post E :=
  fun s hs => h hs.1 s hs.2

/-- From an impossible state, anything. -/
theorem of_false {p : Proc Q R ε α} : W.Triple (fun _ => False) p Post E := fun _ hs => hs.elim

end World.Triple

/-! ## Runs -/

/-- A run of a coroutine: the requests it makes, each with the state in which it makes it, its end, and the state at the
end. -/
inductive Runs (W : World Q R ε σ) : Proc Q R ε α → σ → List (Q × σ) → Except ε α → σ → Prop
  | ret {a : α} {s : σ} : Runs W (.ret a) s [] (.ok a) s
  | raise {e : ε} {s : σ} : Runs W (.raise e) s [] (.error e) s
  | ask {q : Q} {k : Except ε (R q) → Proc Q R ε α} {s s' s'' t : σ} {x : Except ε (R q)} {l : List (Q × σ)}
      {r : Except ε α} (later : W.Later s s') (answer : W.answers q s' x s'') (rest : Runs W (k x) s'' l r t) :
      Runs W (.ask q k) s ((q, s') :: l) r t

section Runs

variable {s t : σ} {l : List (Q × σ)} {r : Except ε α}

theorem runs_pure {a : α} : Runs W (pure a) s l r t ↔ l = [] ∧ r = .ok a ∧ t = s := by
  constructor
  · intro h
    cases h
    exact ⟨rfl, rfl, rfl⟩
  · rintro ⟨rfl, rfl, rfl⟩
    exact .ret

theorem runs_raise {e : ε} : Runs W (.raise e) s l r t ↔ l = [] ∧ r = .error e ∧ t = s := by
  constructor
  · intro h
    cases h
    exact ⟨rfl, rfl, rfl⟩
  · rintro ⟨rfl, rfl, rfl⟩
    exact .raise

theorem runs_ofExcept {x : Except ε α} : Runs W (ofExcept x) s l r t ↔ l = [] ∧ r = x ∧ t = s := by
  cases x with
  | ok a => exact runs_pure
  | error e => exact runs_raise

theorem runs_request {q : Q} {r : Except ε (R q)} :
    Runs W (request q) s l r t ↔ ∃ s', W.Later s s' ∧ l = [(q, s')] ∧ W.answers q s' r t := by
  constructor
  · intro h
    cases h with
    | ask later answer rest =>
      obtain ⟨rfl, rfl, rfl⟩ := runs_ofExcept.mp rest
      exact ⟨_, later, rfl, answer⟩
  · rintro ⟨s', later, rfl, answer⟩
    exact .ask later answer (runs_ofExcept.mpr ⟨rfl, rfl, rfl⟩)

/-- A run of a sequence is cut short by an exception, or goes on with the value. -/
theorem runs_bind {p : Proc Q R ε β} {f : β → Proc Q R ε α} : Runs W (p >>= f) s l r t ↔
    (∃ e, r = .error e ∧ Runs W p s l (.error e) t) ∨
      ∃ b s' l₁ l₂, l = l₁ ++ l₂ ∧ Runs W p s l₁ (.ok b) s' ∧ Runs W (f b) s' l₂ r t := by
  show Runs W (p.bind f) s l r t ↔ _
  induction p generalizing s l with
  | ret b =>
    constructor
    · exact fun h => .inr ⟨b, s, [], l, rfl, .ret, h⟩
    · rintro (⟨e, -, h⟩ | ⟨b', s', l₁, l₂, rfl, h, h'⟩)
      · cases h
      · cases h
        exact h'
  | raise e =>
    constructor
    · intro h
      cases h
      exact .inl ⟨e, rfl, .raise⟩
    · rintro (⟨e', rfl, h⟩ | ⟨b', s', l₁, l₂, rfl, h, -⟩)
      · cases h
        exact .raise
      · cases h
  | ask q k ih =>
    constructor
    · intro h
      cases h with
      | ask later answer rest =>
        rcases (ih _).mp rest with ⟨e, rfl, h⟩ | ⟨b, s', l₁, l₂, rfl, h, h'⟩
        · exact .inl ⟨e, rfl, .ask later answer h⟩
        · exact .inr ⟨b, s', _ :: l₁, l₂, rfl, .ask later answer h, h'⟩
    · rintro (⟨e, rfl, h⟩ | ⟨b, s', l₁, l₂, rfl, h, h'⟩)
      · cases h with
        | ask later answer rest => exact .ask later answer ((ih _).mpr (.inl ⟨e, rfl, rest⟩))
      · cases h with
        | ask later answer rest => exact .ask later answer ((ih _).mpr (.inr ⟨b, s', _, l₂, rfl, rest, h'⟩))

/-- What is returned is computed from the result. -/
theorem runs_bind_pure {p : Proc Q R ε β} {g : β → α} :
    Runs W (p >>= fun b => pure (g b)) s l r t ↔ ∃ x, Runs W p s l x t ∧ r = x.map g := by
  rw [runs_bind]
  constructor
  · rintro (⟨e, rfl, h⟩ | ⟨b, s', l₁, l₂, rfl, h, h'⟩)
    · exact ⟨.error e, h, rfl⟩
    · obtain ⟨rfl, rfl, rfl⟩ := runs_pure.mp h'
      exact ⟨.ok b, by rwa [List.append_nil], rfl⟩
  · rintro ⟨x, h, rfl⟩
    cases x with
    | error e => exact .inl ⟨e, rfl, h⟩
    | ok b => exact .inr ⟨b, t, l, [], (List.append_nil l).symm, h, runs_pure.mpr ⟨rfl, rfl, rfl⟩⟩

theorem runs_attempt {p : Proc Q R ε β} {r : Except ε (Except ε β)} :
    Runs W p.attempt s l r t ↔ ∃ x, r = .ok x ∧ Runs W p s l x t := by
  induction p generalizing s l with
  | ret b =>
    constructor
    · intro h
      cases h
      exact ⟨_, rfl, .ret⟩
    · rintro ⟨x, rfl, h⟩
      cases h
      exact .ret
  | raise e =>
    constructor
    · intro h
      cases h
      exact ⟨_, rfl, .raise⟩
    · rintro ⟨x, rfl, h⟩
      cases h
      exact .ret
  | ask q k ih =>
    constructor
    · intro h
      cases h with
      | ask later answer rest =>
        obtain ⟨x, rfl, h⟩ := (ih _).mp rest
        exact ⟨x, rfl, .ask later answer h⟩
    · rintro ⟨x, rfl, h⟩
      cases h with
      | ask later answer rest => exact .ask later answer ((ih _).mpr ⟨x, rfl, rest⟩)

/-- A run ends in what the weakest precondition promises. -/
theorem Runs.post {p : Proc Q R ε α} {Post : Except ε α → σ → Prop} (h : Runs W p s l r t) (hp : p.wp W Post s) :
    Post r t := by
  induction h with
  | ret => exact hp
  | raise => exact hp
  | ask later answer _ ih => exact ih ((hp _ later).2 _ _ answer)

/-- Every request of a run is made where it may be. -/
theorem Runs.allowed {p : Proc Q R ε α} {Post : Except ε α → σ → Prop} (h : Runs W p s l r t) (hp : p.wp W Post s) :
    ∀ x ∈ l, W.allows x.1 x.2 := by
  induction h with
  | ret => exact fun x hx => absurd hx List.not_mem_nil
  | raise => exact fun x hx => absurd hx List.not_mem_nil
  | ask later answer _ ih =>
    intro x hx
    rcases List.mem_cons.mp hx with rfl | hx
    · exact (hp _ later).1
    · exact ih ((hp _ later).2 _ _ answer) x hx

/-- A run makes requests of the coroutine. -/
theorem Runs.only {p : Proc Q R ε α} {D : Q → Prop} (h : Runs W p s l r t) (hp : p.Only D) : ∀ x ∈ l, D x.1 := by
  induction h with
  | ret => exact fun x hx => absurd hx List.not_mem_nil
  | raise => exact fun x hx => absurd hx List.not_mem_nil
  | ask later answer _ ih => exact List.forall_mem_cons.mpr ⟨hp.1, ih (hp.2 _)⟩

/-- The end of a coroutine whose requests are answered by a function, unless it gets stuck. -/
def run (answer : (q : Q) → σ → Option (Except ε (R q) × σ)) : Proc Q R ε α → σ → Option (Except ε α × σ)
  | ret a, s => some (.ok a, s)
  | raise e, s => some (.error e, s)
  | ask q k, s => (answer q s).bind fun x => run answer (k x.1) x.2

theorem run_ofExcept (answer : (q : Q) → σ → Option (Except ε (R q) × σ)) (x : Except ε α) (s : σ) :
    (ofExcept x : Proc Q R ε α).run answer s = some (x, s) := by
  cases x <;> rfl

theorem run_bind (answer : (q : Q) → σ → Option (Except ε (R q) × σ)) (p : Proc Q R ε β) (f : β → Proc Q R ε α) (s : σ) :
    (p >>= f).run answer s = (p.run answer s).bind fun x =>
      match x.1 with
      | .ok b => (f b).run answer x.2
      | .error e => some (.error e, x.2) := by
  show (p.bind f).run answer s = _
  induction p generalizing s with
  | ret b => rfl
  | raise e => rfl
  | ask q k ih =>
    rw [Proc.bind, run, run, Option.bind_assoc]
    exact Option.bind_congr fun x _ => ih x.1 x.2

theorem runs_run {answer : (q : Q) → σ → Option (Except ε (R q) × σ)}
    (hanswer : ∀ q s x s', answer q s = some (x, s') → W.answers q s x s') {p : Proc Q R ε α}
    (h : p.run answer s = some (r, t)) : ∃ l, Runs W p s l r t := by
  induction p generalizing s with
  | ret a =>
    obtain ⟨rfl, rfl⟩ := Prod.mk.inj (Option.some.inj h)
    exact ⟨_, .ret⟩
  | raise e =>
    obtain ⟨rfl, rfl⟩ := Prod.mk.inj (Option.some.inj h)
    exact ⟨_, .raise⟩
  | ask q k ih =>
    obtain ⟨⟨x, s'⟩, hx, hrest⟩ := Option.bind_eq_some_iff.mp h
    obtain ⟨l, hl⟩ := ih x hrest
    exact ⟨_, .ask (World.Later.refl s) (hanswer q s x s' hx) hl⟩

end Runs

/-! ## Coroutines alone -/

section Alone

variable {Post : Except ε α → σ → Prop} {s s' : σ}

theorem later_of_alone (hW : ∀ s s', ¬ W.interferes s s') (h : W.Later s s') : s' = s := by
  induction h with
  | refl => rfl
  | tail _ hstep _ => exact absurd hstep (hW _ _)

/-- Where nobody interferes, a request finds the state as it is. -/
theorem wp_request_alone (hW : ∀ s s', ¬ W.interferes s s') {q : Q} {Post : Except ε (R q) → σ → Prop} :
    (request q).wp W Post s ↔ W.allows q s ∧ ∀ x s', W.answers q s x s' → Post x s' := by
  constructor
  · intro h
    obtain ⟨hallows, hanswers⟩ := h s (World.Later.refl s)
    exact ⟨hallows, fun x s' hx => wp_ofExcept.mp (hanswers x s' hx)⟩
  · rintro ⟨hallows, hanswers⟩ s' hs'
    obtain rfl := later_of_alone hW hs'
    exact ⟨hallows, fun x s'' hx => wp_ofExcept.mpr (hanswers x s'' hx)⟩

end Alone

end Proc

end Xyberos
