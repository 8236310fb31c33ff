import Xyberos.Base.Run
import Xyberos.Base.Traces

/-!
# Xyberos.Base.Interleaving — tasks that share an object

Any number of coroutines take turns.  An event is an exchange of a task with its surroundings; `Interleaves tasks l` says
that each task has come to the beginning of one of its traces, in any order with the others.  What a coroutine does in
view of what it has done before (`Grounded`) it does among others (`Interleaves.grounded`), and the rules for it follow
the program.  What the object answers is a condition on the whole list of events (`Steps` of `Base.Run`).
-/

set_option autoImplicit false

namespace Xyberos.Proc

variable {Q : Type} {R : Q → Type} {ε α β : Type}

/-! ## Grounds -/

/-- Every exchange of a list meets a condition in view of those before it. -/
def Grounded (G : List (Exchange R) → Exchange R → Prop) (l : List (Exchange R)) : Prop :=
  ∀ pre x post, l = pre ++ x :: post → G pre x

/-- Exchanges in front do not matter. -/
def Local (G : List (Exchange R) → Exchange R → Prop) : Prop := ∀ l pre x, G pre x → G (l ++ pre) x

namespace Grounded

variable {G : List (Exchange R) → Exchange R → Prop} {l l' : List (Exchange R)}

theorem nil : Grounded G [] := by
  intro pre x post h
  simp at h

theorem cons_iff {x : Exchange R} : Grounded G (x :: l) ↔ G [] x ∧ Grounded (fun pre => G (x :: pre)) l := by
  constructor
  · exact fun h => ⟨h [] x l rfl, fun pre y post he => h (x :: pre) y post (congrArg (x :: ·) he)⟩
  · rintro ⟨hx, hl⟩ pre y post he
    cases pre with
    | nil =>
      obtain ⟨rfl, -⟩ := List.cons.inj he
      exact hx
    | cons z pre =>
      obtain ⟨rfl, he'⟩ := List.cons.inj he
      exact hl pre y post he'

theorem of_append (h : Grounded G (l ++ l')) : Grounded G l :=
  fun pre x post he => h pre x (post ++ l') (by rw [he, List.append_assoc, List.cons_append])

theorem append_iff : Grounded G (l ++ l') ↔ Grounded G l ∧ Grounded (fun pre => G (l ++ pre)) l' := by
  constructor
  · exact fun h => ⟨h.of_append, fun pre x post he => h (l ++ pre) x post (by rw [he, List.append_assoc])⟩
  · rintro ⟨h, h'⟩ pre x post he
    rcases List.append_eq_append_iff.mp he with ⟨mid, rfl, hmid⟩ | ⟨mid, rfl, hmid⟩
    · exact h' mid x post hmid
    · cases mid with
      | nil =>
        have hx := h' [] x post hmid.symm
        rwa [List.append_nil, List.append_nil] at hx
      | cons y mid =>
        obtain ⟨rfl, hpost⟩ := List.cons.inj hmid
        exact h pre x mid rfl

theorem shift (hG : Local G) (h : Grounded G l') (l : List (Exchange R)) : Grounded (fun pre => G (l ++ pre)) l' :=
  fun pre x post he => hG l pre x (h pre x post he)

theorem append (hG : Local G) (h : Grounded G l) (h' : Grounded G l') : Grounded G (l ++ l') :=
  append_iff.mpr ⟨h, h'.shift hG l⟩

end Grounded

section Rules

variable {A : (q : Q) → R q → Prop} {G : List (Exchange R) → Exchange R → Prop}

/-- Sequencing of grounded coroutines. -/
theorem yields_grounded_bind (hG : Local G) {p : Proc Q R ε β} {f : β → Proc Q R ε α}
    (hp : Yields A p fun l _ => Grounded G l) (hf : ∀ b, Yields A (f b) fun l _ => Grounded G l) :
    Yields A (p >>= f) fun l _ => Grounded G l := by
  refine yields_bind.mpr (hp.mono fun l r hl => ?_)
  cases r with
  | error e => exact hl
  | ok b => exact (hf b).mono fun l' r' hl' => hl.append hG hl'

theorem yields_grounded_ofExcept {x : Except ε α} : Yields A (ofExcept x) fun l _ => Grounded G l :=
  yields_ofExcept.mpr .nil

end Rules

/-! ## Interleavings -/

/-- A relation between any two members of a list, by their places. -/
theorem pairwise_of_splits {S : α → α → Prop} {l : List α}
    (h : ∀ l₁ x l₂ y l₃, l = l₁ ++ x :: (l₂ ++ y :: l₃) → S x y) : l.Pairwise S := by
  induction l with
  | nil => exact .nil
  | cons x l ih =>
    refine .cons (fun y hy => ?_) (ih fun l₁ x' l₂ y l₃ hl => h (x :: l₁) x' l₂ y l₃ (congrArg (x :: ·) hl))
    obtain ⟨l₂, l₃, rfl⟩ := List.append_of_mem hy
    exact h [] x l₂ y l₃ rfl

/-- An exchange of a task. -/
abbrev TaskEvent (R : Q → Type) := ℕ × Exchange R

/-- What a task exchanged. -/
def ofTask (task : ℕ) (l : List (TaskEvent R)) : List (Exchange R) := (l.filter fun e => e.1 = task).map Prod.snd

section OfTask

variable {task : ℕ} {l : List (TaskEvent R)}

@[simp] theorem ofTask_append (l' : List (TaskEvent R)) : ofTask task (l ++ l') = ofTask task l ++ ofTask task l' := by
  rw [ofTask, List.filter_append, List.map_append]
  rfl

@[simp] theorem ofTask_cons_self (x : Exchange R) : ofTask task ((task, x) :: l) = x :: ofTask task l := by
  rw [ofTask, List.filter_cons_of_pos (by simp), List.map_cons]
  rfl

theorem mem_ofTask {x : Exchange R} : x ∈ ofTask task l ↔ (task, x) ∈ l := by
  simp [ofTask]

/-- Where an exchange of a task stands in the list of all. -/
theorem exists_of_ofTask {pre post : List (Exchange R)} {x : Exchange R} (h : ofTask task l = pre ++ x :: post) :
    ∃ l₁ l₂, l = l₁ ++ (task, x) :: l₂ ∧ ofTask task l₁ = pre ∧ ofTask task l₂ = post := by
  obtain ⟨f₁, f₂', hf, hpre, hrest⟩ := List.map_eq_append_iff.mp h
  obtain ⟨e, f₂, rfl, rfl, hpost⟩ := List.map_eq_cons_iff.mp hrest
  obtain ⟨l₁, m, rfl, hl₁, hm⟩ := List.filter_eq_append_iff.mp hf
  obtain ⟨l₁', l₂, rfl, hnone, htask, hl₂⟩ := List.filter_eq_cons_iff.mp hm
  refine ⟨l₁ ++ l₁', l₂, ?_, ?_, ?_⟩
  · have he : (task, e.2) = e := Prod.ext (of_decide_eq_true htask).symm rfl
    rw [he, List.append_assoc]
  · rw [ofTask_append, ofTask, ofTask, hl₁, hpre, List.filter_eq_nil_iff.mpr hnone, List.map_nil, List.append_nil]
  · rw [ofTask, hl₂, hpost]

end OfTask

/-- Each task has come to the beginning of a trace of its coroutine. -/
def Interleaves (A : (q : Q) → R q → Prop) (tasks : ℕ → Proc Q R ε α) (l : List (TaskEvent R)) : Prop :=
  ∀ task, ∃ rest r, Traced A (tasks task) (ofTask task l ++ rest) r

/-- **Grounds among others.**  What every trace of every task is grounded on, the task has in its own past. -/
theorem Interleaves.grounded {A : (q : Q) → R q → Prop} {tasks : ℕ → Proc Q R ε α}
    {G : List (Exchange R) → Exchange R → Prop} {l : List (TaskEvent R)} (h : Interleaves A tasks l)
    (hG : ∀ task, Yields A (tasks task) fun l _ => Grounded G l) {pre post : List (TaskEvent R)} {task : ℕ}
    {x : Exchange R} (hl : l = pre ++ (task, x) :: post) : G (ofTask task pre) x := by
  obtain ⟨rest, r, htraced⟩ := h task
  have hgrounded := (hG task _ r htraced).of_append
  rw [hl, ofTask_append, ofTask_cons_self] at hgrounded
  exact hgrounded _ x _ rfl

end Xyberos.Proc
