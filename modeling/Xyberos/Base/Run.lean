import Mathlib.Data.List.Basic

/-!
# Xyberos.Base.Run — runs of a deterministic step function

A run is a list of inputs.  `Steps C s l` says that every step of the run `l` from `s` meets `C`, a relation between
the state before the step and its input; it is how a property of whole runs, or a condition on whole runs, is
stated; `Happens D s l` says that some step meets `D`.  The rules: an invariant carried by the steps
(`Steps.invariant`), and a property that each step keeps exactly when it meets a condition (`steps_iff_of_invariant`,
`steps_exact`).

A part of the state that every step moves by a relation or leaves as it is runs along a `Path` of this relation
(`Path.exists_of_steps`).
-/

set_option autoImplicit false

namespace Xyberos

variable {σ ι : Type}

/-- The state after a run. -/
def after (step : σ → ι → σ) (s : σ) (l : List ι) : σ := l.foldl step s

/-- Every step of the run meets `C`. -/
def Steps (step : σ → ι → σ) (C : σ → ι → Prop) : σ → List ι → Prop
  | _, [] => True
  | s, x :: l => C s x ∧ Steps step C (step s x) l

/-- Some step of the run meets `D`. -/
def Happens (step : σ → ι → σ) (D : σ → ι → Prop) : σ → List ι → Prop
  | _, [] => False
  | s, x :: l => D s x ∨ Happens step D (step s x) l

section Rules

variable {step : σ → ι → σ} {C D : σ → ι → Prop} {I P : σ → Prop} {s : σ} {l : List ι}

@[simp] theorem after_nil : after step s [] = s := rfl

@[simp] theorem after_cons (x : ι) : after step s (x :: l) = after step (step s x) l := rfl

theorem after_append (l' : List ι) : after step s (l ++ l') = after step (after step s l) l' :=
  List.foldl_append ..

theorem after_concat (x : ι) : after step s (l ++ [x]) = step (after step s l) x := after_append [x]

instance [∀ s x, Decidable (C s x)] : Decidable (Steps step C s l) := by
  induction l generalizing s with
  | nil => exact .isTrue trivial
  | cons x l ih => exact inferInstanceAs (Decidable (_ ∧ _))

theorem steps_append {l' : List ι} :
    Steps step C s (l ++ l') ↔ Steps step C s l ∧ Steps step C (after step s l) l' := by
  induction l generalizing s with
  | nil => simp [Steps]
  | cons x l ih => simp only [List.cons_append, Steps, ih, after_cons, and_assoc]

/-- The steps of a run, by their position. -/
theorem steps_iff : Steps step C s l ↔ ∀ pre x post, l = pre ++ x :: post → C (after step s pre) x := by
  induction l generalizing s with
  | nil => simp [Steps]
  | cons x l ih =>
    rw [Steps, ih]
    constructor
    · rintro ⟨hx, hl⟩ pre y post he
      cases pre with
      | nil =>
        obtain ⟨rfl, -⟩ := List.cons.inj he
        exact hx
      | cons z pre =>
        obtain ⟨rfl, he'⟩ := List.cons.inj he
        exact hl pre y post he'
    · exact fun h => ⟨h [] x l rfl, fun pre y post he => h (x :: pre) y post (congrArg (x :: ·) he)⟩

theorem Steps.mono (h : Steps step C s l) (hCD : ∀ s x, C s x → D s x) : Steps step D s l := by
  induction l generalizing s with
  | nil => trivial
  | cons x l ih => exact ⟨hCD s x h.1, ih h.2⟩

/-- **Invariant rule.**  What a conforming step keeps, a run of conforming steps keeps. -/
theorem Steps.invariant (h : Steps step C s l) (hI : I s) (hstep : ∀ s x, I s → C s x → I (step s x)) :
    I (after step s l) := by
  induction l generalizing s with
  | nil => exact hI
  | cons x l ih => exact ih h.2 (hstep s x hI h.1)

theorem after_invariant (hI : I s) (hstep : ∀ s x, I s → I (step s x)) : I (after step s l) := by
  induction l generalizing s with
  | nil => exact hI
  | cons x l ih => exact ih (hstep s x hI)

/-- What holds of every step from a state of the invariant holds of every step of the run. -/
theorem steps_of_invariant (hI : I s) (hstep : ∀ s x, I s → C s x ∧ I (step s x)) : Steps step C s l := by
  induction l generalizing s with
  | nil => trivial
  | cons x l ih => exact ⟨(hstep s x hI).1, ih (hstep s x hI).2⟩

/-- Two conditions that agree under an invariant hold of the same runs. -/
theorem steps_iff_of_invariant (hI : I s) (hstep : ∀ s x, I s → I (step s x))
    (h : ∀ s x, I s → (C s x ↔ D s x)) : Steps step C s l ↔ Steps step D s l := by
  induction l generalizing s with
  | nil => exact Iff.rfl
  | cons x l ih => exact and_congr (h s x hI) (ih (hstep s x hI))

/-- Two conditions that agree under an invariant which the second one keeps hold of the same runs. -/
theorem steps_iff_of_kept (hI : I s) (h : ∀ s, ∀ x ∈ l, I s → (C s x ↔ D s x))
    (hkeep : ∀ s, ∀ x ∈ l, I s → D s x → I (step s x)) : Steps step C s l ↔ Steps step D s l := by
  induction l generalizing s with
  | nil => exact Iff.rfl
  | cons x l ih =>
    have hx : x ∈ x :: l := List.mem_cons_self ..
    have hrest : ∀ s, D s x → I s → (Steps step C (step s x) l ↔ Steps step D (step s x) l) := fun s hd hI =>
      ih (hkeep s x hx hI hd) (fun s y hy => h s y (List.mem_cons_of_mem _ hy))
        fun s y hy => hkeep s y (List.mem_cons_of_mem _ hy)
    constructor
    · rintro ⟨hc, hl⟩
      have hd := (h s x hx hI).mp hc
      exact ⟨hd, (hrest s hd hI).mp hl⟩
    · rintro ⟨hd, hl⟩
      exact ⟨(h s x hx hI).mpr hd, (hrest s hd hI).mpr hl⟩

/-- **Exactness.**  If a step from a state with `P` ends in `P` exactly when it meets `D`, the runs that stay in `P`
are those whose steps meet `D`. -/
theorem steps_exact (hI : I s) (hP : P s) (hstep : ∀ s x, I s → I (step s x))
    (h : ∀ s x, I s → P s → (P (step s x) ↔ D s x)) :
    Steps step (fun s x => P (step s x)) s l ↔ Steps step D s l := by
  induction l generalizing s with
  | nil => exact Iff.rfl
  | cons x l ih =>
    constructor
    · rintro ⟨hx, hl⟩
      exact ⟨(h s x hI hP).mp hx, (ih (hstep s x hI) hx).mp hl⟩
    · rintro ⟨hx, hl⟩
      have hx' := (h s x hI hP).mpr hx
      exact ⟨hx', (ih (hstep s x hI) hx').mpr hl⟩

end Rules

/-! ## Parts of a system -/

/-- A path of a relation between states, labelled by inputs. -/
inductive Path {ρ : Type} (R : ι → ρ → ρ → Prop) : ρ → List ι → ρ → Prop
  | nil (r : ρ) : Path R r [] r
  | cons {r r' r'' : ρ} {x : ι} {l : List ι} (head : R x r r') (rest : Path R r' l r'') : Path R r (x :: l) r''

namespace Path

variable {ρ : Type} {R : ι → ρ → ρ → Prop} {step : σ → ι → σ} {r r' : ρ} {l : List ι}

/-- What the relation says of its labels. -/
theorem forall_labels {D : ι → Prop} (h : Path R r l r') (hD : ∀ x r r', R x r r' → D x) : ∀ x ∈ l, D x := by
  induction h with
  | nil => exact fun x hx => absurd hx List.not_mem_nil
  | cons head _ ih => exact List.forall_mem_cons.mpr ⟨hD _ _ _ head, ih⟩

/-- What is true of every step, and passes from step to step, is true of a path. -/
theorem rel {S : ρ → ρ → Prop} (hrefl : ∀ r, S r r) (htrans : ∀ r r' r'', S r r' → S r' r'' → S r r'')
    (hS : ∀ x r r', R x r r' → S r r') (h : Path R r l r') : S r r' := by
  induction h with
  | nil r => exact hrefl r
  | cons head _ ih => exact htrans _ _ _ (hS _ _ _ head) ih

/-- **Stuttering simulation.**  Where every step of a system moves a part of its state by `R` or leaves it as it is, a
run of the system is a path of `R` there, labelled by those of its inputs that moved it. -/
theorem exists_of_steps (part : σ → ρ) (h : ∀ s x, part (step s x) = part s ∨ R x (part s) (part (step s x)))
    (s : σ) (l : List ι) : ∃ l', l'.Sublist l ∧ Path R (part s) l' (part (after step s l)) := by
  induction l generalizing s with
  | nil => exact ⟨[], List.Sublist.refl _, .nil _⟩
  | cons x l ih =>
    obtain ⟨l', hl', hpath⟩ := ih (step s x)
    rcases h s x with he | hmove
    · rw [he] at hpath
      exact ⟨l', hl'.cons x, hpath⟩
    · exact ⟨x :: l', hl'.cons_cons x, .cons hmove hpath⟩

end Path

end Xyberos
