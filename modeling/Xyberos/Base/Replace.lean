import Mathlib.Algebra.BigOperators.Group.Finset.Piecewise
import Mathlib.Algebra.Order.BigOperators.Group.Finset
import Mathlib.Data.List.Infix
import Mathlib.Data.List.Perm.Subperm
import Mathlib.Data.Nat.Count

/-!
# Xyberos.Base.Replace — replacing several words in a text

`replace` scans a text from the left and replaces the occurrences of a word that it meets.  Words replaced one after
another are followed on `Piece`s, which keep what a marker stands for.  The order of the words does not matter, and
nothing that lies inside an occurrence is left, exactly when the words are `Separate`: the occurrences that each word
alone is found at do not meet those of another word, and together they cover every occurrence.
-/

set_option autoImplicit false

namespace Xyberos

/-! ## One word -/

section Replace

variable {β : Type} [DecidableEq β]

/-- The scan of `replace`, with the number of characters that still belong to the last match. -/
def replaceFrom (old new : List β) : ℕ → List β → List β
  | _, [] => []
  | n + 1, _ :: text => replaceFrom old new n text
  | 0, a :: text =>
    if old <+: a :: text then new ++ replaceFrom old new (old.length - 1) text
    else a :: replaceFrom old new 0 text

/-- `text.replace(old, new)`, for a word that is not empty. -/
def replace (old new text : List β) : List β := replaceFrom old new 0 text

/-- A scan from the left: a match is replaced as a whole, and only where there is none a character is kept. -/
inductive Scan (old new : List β) : List β → List β → Prop
  | nil : Scan old new [] []
  | hit {s t : List β} (rest : Scan old new s t) : Scan old new (old ++ s) (new ++ t)
  | miss {a : β} {s t : List β} (none : ¬ old <+: a :: s) (rest : Scan old new s t) : Scan old new (a :: s) (a :: t)

variable {old new s t : List β} {a : β}

theorem replaceFrom_drop (n : ℕ) : replaceFrom old new n s = replace old new (s.drop n) := by
  induction n generalizing s with
  | zero => rfl
  | succ n ih =>
    cases s with
    | nil => rfl
    | cons a s => exact ih

theorem replace_append (hold : old ≠ []) : replace old new (old ++ s) = new ++ replace old new s := by
  obtain ⟨a, old, rfl⟩ := List.exists_cons_of_ne_nil hold
  have hmatch : a :: old <+: a :: (old ++ s) := List.prefix_append (a :: old) s
  refine (if_pos hmatch).trans ?_
  rw [replaceFrom_drop]
  show new ++ replace (a :: old) new ((old ++ s).drop old.length) = _
  rw [List.drop_left]

theorem replace_cons (hnone : ¬ old <+: a :: s) : replace old new (a :: s) = a :: replace old new s := if_neg hnone

theorem scan_replace (hold : old ≠ []) (s : List β) : Scan old new s (replace old new s) := by
  induction hlength : s.length using Nat.strong_induction_on generalizing s with
  | _ n ih =>
    cases s with
    | nil => exact .nil
    | cons a s =>
      by_cases hmatch : old <+: a :: s
      · obtain ⟨rest, hrest⟩ := hmatch
        have hpos := List.length_pos_iff.mpr hold
        have hlt : rest.length < n := by
          rw [← hlength, ← hrest, List.length_append]
          omega
        rw [← hrest, replace_append hold]
        exact .hit (ih rest.length hlt rest rfl)
      · rw [replace_cons hmatch]
        exact .miss hmatch (ih s.length (by simp [← hlength]) s rfl)

/-- A word is not replaced where it does not occur. -/
theorem replace_of_not_infix (h : ¬ old <:+: s) : replace old new s = s := by
  induction s with
  | nil => rfl
  | cons a s ih =>
    rw [List.infix_cons_iff, not_or] at h
    rw [replace_cons h.1, ih h.2]

end Replace

/-! ## Pieces -/

/-- A piece of a text: a character, or a word that was replaced. -/
inductive Piece (α : Type)
  | kept (a : α)
  | hidden (word : List α)
deriving DecidableEq

namespace Piece

variable {α : Type}

/-- The text before any word was replaced. -/
def source : List (Piece α) → List α
  | [] => []
  | kept a :: t => a :: source t
  | hidden word :: t => word ++ source t

/-- The text with a marker for each word that was replaced. -/
def render (marker : List α) : List (Piece α) → List α
  | [] => []
  | kept a :: t => a :: render marker t
  | hidden _ :: t => marker ++ render marker t

/-- The word is hidden at this position of the source. -/
def Hides (t : List (Piece α)) (i : ℕ) (word : List α) : Prop :=
  ∃ pre post, t = pre ++ hidden word :: post ∧ (source pre).length = i

/-- The character at this position of the source is hidden. -/
def Hidden (t : List (Piece α)) (p : ℕ) : Prop := ∃ i word, Hides t i word ∧ i ≤ p ∧ p < i + word.length

variable {t t' : List (Piece α)} {a : α} {word word' : List α} {i j p : ℕ} {marker : List α}

@[simp] theorem source_append : source (t ++ t') = source t ++ source t' := by
  induction t with
  | nil => rfl
  | cons x t ih => cases x <;> simp [source, ih]

@[simp] theorem source_map_kept (word : List α) : source (word.map kept) = word := by
  induction word with
  | nil => rfl
  | cons a word ih => simp [source, ih]

@[simp] theorem render_append : render marker (t ++ t') = render marker t ++ render marker t' := by
  induction t with
  | nil => rfl
  | cons x t ih => cases x <;> simp [render, ih]

@[simp] theorem render_map_kept (word : List α) : render marker (word.map kept) = word := by
  induction word with
  | nil => rfl
  | cons a word ih => simp [render, ih]

theorem not_hides_nil : ¬ Hides ([] : List (Piece α)) i word := by
  rintro ⟨pre, post, h, -⟩
  simp at h

theorem hides_kept_cons : Hides (kept a :: t) i word ↔ ∃ j, i = j + 1 ∧ Hides t j word := by
  constructor
  · rintro ⟨pre, post, heq, rfl⟩
    cases pre with
    | nil => simp at heq
    | cons x pre =>
      obtain ⟨rfl, rfl⟩ := List.cons.inj heq
      exact ⟨_, rfl, pre, post, rfl, rfl⟩
  · rintro ⟨_, rfl, pre, post, rfl, rfl⟩
    exact ⟨kept a :: pre, post, rfl, rfl⟩

theorem hides_hidden_cons : Hides (hidden word' :: t) i word ↔
    (i = 0 ∧ word = word') ∨ ∃ j, i = j + word'.length ∧ Hides t j word := by
  constructor
  · rintro ⟨pre, post, heq, rfl⟩
    cases pre with
    | nil =>
      obtain ⟨h, -⟩ := List.cons.inj heq
      exact .inl ⟨rfl, (hidden.inj h).symm⟩
    | cons x pre =>
      obtain ⟨rfl, rfl⟩ := List.cons.inj heq
      refine .inr ⟨_, ?_, pre, post, rfl, rfl⟩
      rw [source, List.length_append, Nat.add_comm]
  · rintro (⟨rfl, rfl⟩ | ⟨_, rfl, pre, post, rfl, rfl⟩)
    · exact ⟨[], t, rfl, rfl⟩
    · refine ⟨hidden word' :: pre, post, rfl, ?_⟩
      rw [source, List.length_append, Nat.add_comm]

theorem hides_append_kept : Hides (word'.map kept ++ t) i word ↔ ∃ j, i = j + word'.length ∧ Hides t j word := by
  induction word' generalizing i with
  | nil => simp
  | cons a word' ih =>
    rw [List.map_cons, List.cons_append, hides_kept_cons]
    constructor
    · rintro ⟨_, rfl, h⟩
      obtain ⟨j, rfl, ht⟩ := ih.mp h
      exact ⟨j, by rw [List.length_cons]; omega, ht⟩
    · rintro ⟨j, rfl, h⟩
      exact ⟨j + word'.length, by rw [List.length_cons]; omega, ih.mpr ⟨j, rfl, h⟩⟩

theorem not_hides_kept : ¬ Hides (word'.map kept) i word := by
  rw [← List.append_nil (word'.map kept), hides_append_kept]
  rintro ⟨_, -, h⟩
  exact not_hides_nil h

/-- A hidden word is a part of the source. -/
theorem Hides.isPrefix (h : Hides t i word) : word <+: (source t).drop i := by
  obtain ⟨pre, post, rfl, rfl⟩ := h
  rw [source_append, List.drop_left]
  exact List.prefix_append _ _

/-- Two hidden words are the same one or do not meet. -/
theorem Hides.apart (h : Hides t i word) (h' : Hides t j word') :
    (i = j ∧ word = word') ∨ i + word.length ≤ j ∨ j + word'.length ≤ i := by
  induction t generalizing i j with
  | nil => exact absurd h not_hides_nil
  | cons x t ih =>
    cases x with
    | kept a =>
      obtain ⟨i, rfl, hi⟩ := hides_kept_cons.mp h
      obtain ⟨j, rfl, hj⟩ := hides_kept_cons.mp h'
      rcases ih hi hj with ⟨rfl, rfl⟩ | hle | hle
      · exact .inl ⟨rfl, rfl⟩
      · exact .inr (.inl (by omega))
      · exact .inr (.inr (by omega))
    | hidden first =>
      rcases hides_hidden_cons.mp h with ⟨rfl, rfl⟩ | ⟨i, rfl, hi⟩
      · rcases hides_hidden_cons.mp h' with ⟨rfl, rfl⟩ | ⟨j, rfl, hj⟩
        · exact .inl ⟨rfl, rfl⟩
        · exact .inr (.inl (by omega))
      · rcases hides_hidden_cons.mp h' with ⟨rfl, rfl⟩ | ⟨j, rfl, hj⟩
        · exact .inr (.inr (by omega))
        · rcases ih hi hj with ⟨rfl, rfl⟩ | hle | hle
          · exact .inl ⟨rfl, rfl⟩
          · exact .inr (.inl (by omega))
          · exact .inr (.inr (by omega))

theorem hidden_kept_cons : Hidden (kept a :: t) p ↔ ∃ q, p = q + 1 ∧ Hidden t q := by
  constructor
  · rintro ⟨_, word, h, hle, hlt⟩
    obtain ⟨i, rfl, hi⟩ := hides_kept_cons.mp h
    exact ⟨p - 1, by omega, i, word, hi, by omega, by omega⟩
  · rintro ⟨q, rfl, i, word, h, hle, hlt⟩
    exact ⟨i + 1, word, hides_kept_cons.mpr ⟨i, rfl, h⟩, by omega, by omega⟩

theorem hidden_hidden_cons : Hidden (hidden word :: t) p ↔ p < word.length ∨ ∃ q, p = q + word.length ∧ Hidden t q := by
  constructor
  · rintro ⟨_, word', h, hle, hlt⟩
    rcases hides_hidden_cons.mp h with ⟨rfl, rfl⟩ | ⟨i, rfl, hi⟩
    · exact .inl (by omega)
    · exact .inr ⟨p - word.length, by omega, i, word', hi, by omega, by omega⟩
  · rintro (hlt | ⟨q, rfl, i, word', h, hle, hlt⟩)
    · exact ⟨0, word, hides_hidden_cons.mpr (.inl ⟨rfl, rfl⟩), by omega, by omega⟩
    · exact ⟨i + word.length, word', hides_hidden_cons.mpr (.inr ⟨i, rfl, h⟩), by omega, by omega⟩

theorem not_hidden_nil : ¬ Hidden ([] : List (Piece α)) p := by
  rintro ⟨i, word, h, -⟩
  exact not_hides_nil h

theorem not_hidden_kept_zero : ¬ Hidden (kept a :: t) 0 := by
  intro h
  obtain ⟨q, hq, -⟩ := hidden_kept_cons.mp h
  omega

theorem hides_zero : Hides (hidden word :: t) 0 word := hides_hidden_cons.mpr (.inl ⟨rfl, rfl⟩)

theorem hidden_zero (h : word ≠ []) : Hidden (hidden word :: t) 0 :=
  hidden_hidden_cons.mpr (.inl (List.length_pos_iff.mpr h))

/-- Pieces of one text that hide the same characters are the same, if one word only can be hidden at each position. -/
theorem eq_of_hidden {R : ℕ → List α → Prop} (hR : ∀ i word word', R i word → R i word' → word = word')
    (hne : ∀ i word, R i word → word ≠ []) (hsource : source t = source t') (ht : ∀ i word, Hides t i word → R i word)
    (ht' : ∀ i word, Hides t' i word → R i word) (hhidden : ∀ p, Hidden t p ↔ Hidden t' p) : t = t' := by
  induction t generalizing t' R with
  | nil =>
    cases t' with
    | nil => rfl
    | cons x t' =>
      cases x with
      | kept a => simp [source] at hsource
      | hidden word => exact absurd ((hhidden 0).mpr (hidden_zero (hne 0 word (ht' 0 word hides_zero)))) not_hidden_nil
  | cons x t ih =>
    cases t' with
    | nil =>
      cases x with
      | kept a => simp [source] at hsource
      | hidden word => exact absurd ((hhidden 0).mp (hidden_zero (hne 0 word (ht 0 word hides_zero)))) not_hidden_nil
    | cons x' t' =>
      cases x with
      | kept a =>
        cases x' with
        | hidden word =>
          exact absurd ((hhidden 0).mpr (hidden_zero (hne 0 word (ht' 0 word hides_zero)))) not_hidden_kept_zero
        | kept b =>
          obtain ⟨rfl, htail⟩ := List.cons.inj hsource
          refine congrArg _ (ih (R := fun i => R (i + 1)) (fun i => hR (i + 1)) (fun i => hne (i + 1)) htail
            (fun i word h => ht (i + 1) word (hides_kept_cons.mpr ⟨i, rfl, h⟩))
            (fun i word h => ht' (i + 1) word (hides_kept_cons.mpr ⟨i, rfl, h⟩)) fun p => ?_)
          have := hhidden (p + 1)
          rw [hidden_kept_cons, hidden_kept_cons] at this
          simpa using this
      | hidden word =>
        cases x' with
        | kept a => exact absurd ((hhidden 0).mp (hidden_zero (hne 0 word (ht 0 word hides_zero)))) not_hidden_kept_zero
        | hidden word' =>
          obtain rfl := hR 0 word word' (ht 0 word hides_zero) (ht' 0 word' hides_zero)
          refine congrArg _ (ih (R := fun i => R (i + word.length)) (fun i => hR (i + word.length))
            (fun i => hne (i + word.length)) (List.append_cancel_left hsource)
            (fun i word' h => ht _ word' (hides_hidden_cons.mpr (.inr ⟨i, rfl, h⟩)))
            (fun i word' h => ht' _ word' (hides_hidden_cons.mpr (.inr ⟨i, rfl, h⟩))) fun p => ?_)
          have := hhidden (p + word.length)
          rw [hidden_hidden_cons, hidden_hidden_cons] at this
          simpa using this

/-! ## Hiding words -/

section Cover

variable [DecidableEq α] {words : List (List α)}

/-- The pieces after the occurrences of a word were replaced. -/
def cover (word : List α) (t : List (Piece α)) : List (Piece α) := replace (word.map kept) [hidden word] t

/-- The pieces after several words were replaced, one after another. -/
def coverAll (words : List (List α)) (t : List (Piece α)) : List (Piece α) := words.foldl (fun t word => cover word t) t

theorem scan_cover (hword : word ≠ []) (t : List (Piece α)) : Scan (word.map kept) [hidden word] t (cover word t) :=
  scan_replace (by simpa using hword) t

theorem source_cover (hword : word ≠ []) : source (cover word t) = source t := by
  have hscan := scan_cover hword t
  generalize cover word t = r at hscan
  induction hscan with
  | nil => rfl
  | hit _ ih => simp [source, ih]
  | @miss x s r _ _ ih => cases x <;> simp [source, ih]

/-- Words that are hidden stay hidden. -/
theorem Hides.cover (hword : word ≠ []) {v : List α} (h : Hides t i v) : Hides (cover word t) i v := by
  have hscan := scan_cover hword t
  generalize Piece.cover word t = r at hscan
  induction hscan generalizing i with
  | nil => exact h
  | hit _ ih =>
    obtain ⟨j, rfl, hj⟩ := hides_append_kept.mp h
    exact hides_hidden_cons.mpr (.inr ⟨j, rfl, ih hj⟩)
  | @miss x s r _ _ ih =>
    cases x with
    | kept a =>
      obtain ⟨j, rfl, hj⟩ := hides_kept_cons.mp h
      exact hides_kept_cons.mpr ⟨j, rfl, ih hj⟩
    | hidden w =>
      rcases hides_hidden_cons.mp h with ⟨rfl, rfl⟩ | ⟨j, rfl, hj⟩
      · exact hides_zero
      · exact hides_hidden_cons.mpr (.inr ⟨j, rfl, ih hj⟩)

/-- Only this word is hidden where nothing was. -/
theorem hides_of_cover (hword : word ≠ []) {v : List α} (h : Hides (cover word t) i v) : v = word ∨ Hides t i v := by
  have hscan := scan_cover hword t
  generalize cover word t = r at hscan h
  induction hscan generalizing i with
  | nil => exact .inr h
  | hit _ ih =>
    rcases hides_hidden_cons.mp h with ⟨rfl, rfl⟩ | ⟨j, rfl, hj⟩
    · exact .inl rfl
    · exact (ih hj).imp id fun hj => hides_append_kept.mpr ⟨j, rfl, hj⟩
  | @miss x s r _ _ ih =>
    cases x with
    | kept a =>
      obtain ⟨j, rfl, hj⟩ := hides_kept_cons.mp h
      exact (ih hj).imp id fun hj => hides_kept_cons.mpr ⟨j, rfl, hj⟩
    | hidden w =>
      rcases hides_hidden_cons.mp h with ⟨rfl, rfl⟩ | ⟨j, rfl, hj⟩
      · exact .inr hides_zero
      · exact (ih hj).imp id fun hj => hides_hidden_cons.mpr (.inr ⟨j, rfl, hj⟩)

omit [DecidableEq α] in
/-- What is still there at the head was there before. -/
theorem isPrefix_of_scan {v : List α} (hscan : Scan (word.map kept) [hidden word] t t') (h : v.map kept <+: t') :
    v.map kept <+: t := by
  induction hscan generalizing v with
  | nil => exact h
  | hit _ ih =>
    cases v with
    | nil => exact List.nil_prefix
    | cons b v =>
      obtain ⟨hb, -⟩ := List.cons_prefix_cons.mp h
      cases hb
  | miss _ _ ih =>
    cases v with
    | nil => exact List.nil_prefix
    | cons b v =>
      obtain ⟨rfl, hv⟩ := List.cons_prefix_cons.mp h
      exact List.cons_prefix_cons.mpr ⟨rfl, ih hv⟩

omit [DecidableEq α] in
theorem isInfix_of_scan {v : List α} (hscan : Scan (word.map kept) [hidden word] t t') (h : v.map kept <:+: t') :
    v.map kept <:+: t := by
  induction hscan with
  | nil => exact h
  | @hit s r rest ih =>
    rcases List.infix_cons_iff.mp h with hhead | htail
    · exact (isPrefix_of_scan (.hit rest) hhead).isInfix
    · exact (ih htail).trans (List.suffix_append _ s).isInfix
  | miss none rest ih =>
    rcases List.infix_cons_iff.mp h with hhead | htail
    · exact (isPrefix_of_scan (.miss none rest) hhead).isInfix
    · exact List.infix_cons (ih htail)

/-- No occurrence of a word is left. -/
theorem not_isInfix_cover (hword : word ≠ []) (t : List (Piece α)) : ¬ word.map kept <:+: cover word t := by
  have hscan := scan_cover hword t
  have hne : word.map kept ≠ ([] : List (Piece α)) := by simpa using hword
  generalize cover word t = r at hscan
  induction hscan with
  | nil => exact fun h => hne (List.infix_nil.mp h)
  | hit _ ih =>
    intro h
    rcases List.infix_cons_iff.mp h with hhead | htail
    · obtain ⟨b, word, rfl⟩ := List.exists_cons_of_ne_nil hword
      obtain ⟨hb, -⟩ := List.cons_prefix_cons.mp hhead
      cases hb
    · exact ih htail
  | miss none rest ih =>
    intro h
    rcases List.infix_cons_iff.mp h with hhead | htail
    · exact none (isPrefix_of_scan (.miss none rest) hhead)
    · exact ih htail

theorem cover_of_not_isInfix (h : ¬ word.map kept <:+: t) : cover word t = t := replace_of_not_infix h

theorem coverAll_append (words words' : List (List α)) :
    coverAll (words ++ words') t = coverAll words' (coverAll words t) := List.foldl_append

theorem source_coverAll (hwords : [] ∉ words) : source (coverAll words t) = source t := by
  induction words generalizing t with
  | nil => rfl
  | cons word words ih =>
    rw [List.mem_cons, not_or] at hwords
    exact (ih hwords.2).trans (source_cover (Ne.symm hwords.1))

theorem Hides.coverAll (hwords : [] ∉ words) {v : List α} (h : Hides t i v) : Hides (coverAll words t) i v := by
  induction words generalizing t with
  | nil => exact h
  | cons word words ih =>
    rw [List.mem_cons, not_or] at hwords
    exact ih hwords.2 (h.cover (Ne.symm hwords.1))

theorem hides_of_coverAll (hwords : [] ∉ words) {v : List α} (h : Hides (coverAll words t) i v) :
    v ∈ words ∨ Hides t i v := by
  induction words generalizing t with
  | nil => exact .inr h
  | cons word words ih =>
    rw [List.mem_cons, not_or] at hwords
    rcases ih hwords.2 h with hv | hv
    · exact .inl (List.mem_cons_of_mem _ hv)
    · rcases hides_of_cover (Ne.symm hwords.1) hv with rfl | hv
      · exact .inl List.mem_cons_self
      · exact .inr hv

theorem isInfix_of_coverAll (hwords : [] ∉ words) {v : List α} (h : v.map kept <:+: coverAll words t) :
    v.map kept <:+: t := by
  induction words generalizing t with
  | nil => exact h
  | cons word words ih =>
    rw [List.mem_cons, not_or] at hwords
    exact isInfix_of_scan (scan_cover (Ne.symm hwords.1) t) (ih hwords.2 h)

/-- A word is gone after it was replaced. -/
theorem not_isInfix_coverAll (hwords : [] ∉ words) (hword : word ∈ words) :
    ¬ word.map kept <:+: coverAll words t := by
  induction words generalizing t with
  | nil => cases hword
  | cons first words ih =>
    rw [List.mem_cons, not_or] at hwords
    rcases List.mem_cons.mp hword with rfl | hword
    · exact fun h => not_isInfix_cover (Ne.symm hwords.1) t (isInfix_of_coverAll hwords.2 h)
    · exact ih hwords.2 hword

/-- Words that were replaced already are not found again. -/
theorem coverAll_of_subset {words' : List (List α)} (hwords : [] ∉ words) (h : words' ⊆ words) :
    coverAll words' (coverAll words t) = coverAll words t := by
  induction words' with
  | nil => rfl
  | cons word words' ih =>
    obtain ⟨hword, hsub⟩ := List.cons_subset.mp h
    show coverAll words' (cover word (coverAll words t)) = _
    rw [cover_of_not_isInfix (not_isInfix_coverAll hwords hword), ih hsub]

end Cover

/-! ## Counting -/

/-- How many words are hidden. -/
def hiddenCount : List (Piece α) → ℕ
  | [] => 0
  | kept _ :: t => hiddenCount t
  | hidden _ :: t => hiddenCount t + 1

/-- How many characters are hidden. -/
def hiddenLength : List (Piece α) → ℕ
  | [] => 0
  | kept _ :: t => hiddenLength t
  | hidden word :: t => hiddenLength t + word.length

/-- This many occurrences of the word lie in the text without meeting each other. -/
inductive Packing (word : List α) : List α → ℕ → Prop
  | zero (text : List α) : Packing word text 0
  | next (pre : List α) {text : List α} {n : ℕ} (rest : Packing word text n) :
      Packing word (pre ++ (word ++ text)) (n + 1)

namespace Packing

variable {text : List α} {n : ℕ}

theorem append (h : Packing word text n) (pre : List α) : Packing word (pre ++ text) n := by
  cases h with
  | zero => exact .zero _
  | next pre' rest =>
    rw [← List.append_assoc]
    exact .next (pre ++ pre') rest

/-- As many characters as the word has meet one of its occurrences at most, if they are taken off the front. -/
theorem of_append {pre : List α} (h : Packing word (pre ++ text) (n + 1)) (hpre : pre.length ≤ word.length) :
    Packing word text n := by
  generalize hwhole : pre ++ text = whole at h
  cases h with
  | next pre' rest =>
    rw [← List.append_assoc] at hwhole
    obtain ⟨c, -, rfl⟩ | ⟨c, hc, rfl⟩ := List.append_eq_append_iff.mp hwhole
    · exact rest.append c
    · have hnil : c = [] := by
        have := congrArg List.length hc
        simp only [List.length_append] at this
        exact List.length_eq_zero_iff.mp (by omega)
      subst hnil
      exact rest

theorem of_cons {a : α} (h : Packing word (a :: text) n) (hnone : ¬ word <+: a :: text) : Packing word text n := by
  generalize hwhole : a :: text = whole at h hnone
  cases h with
  | zero => exact .zero _
  | next pre rest =>
    cases pre with
    | nil => exact absurd (List.prefix_append _ _) hnone
    | cons b pre =>
      obtain ⟨-, rfl⟩ := List.cons.inj hwhole
      exact .next pre rest

end Packing

section Count

variable [DecidableEq α] {text : List α} {n : ℕ}

/-- How many occurrences are replaced. -/
def tiles (word text : List α) : ℕ := (cover word (text.map kept)).count (hidden word)

/-- A scan from the left replaces as many occurrences as can be replaced. -/
theorem Packing.le_tiles (h : Packing word text n) (hword : word ≠ []) : n ≤ tiles word text := by
  have hscan := scan_cover hword (text.map kept)
  unfold tiles
  generalize cover word (text.map kept) = r at hscan
  generalize hpieces : text.map kept = pieces at hscan
  induction hscan generalizing text n with
  | nil =>
    obtain rfl := List.map_eq_nil_iff.mp hpieces
    generalize hnil : ([] : List α) = empty at h
    cases h with
    | zero => exact Nat.zero_le _
    | next pre rest => simp [hword] at hnil
  | @hit s r _ ih =>
    obtain ⟨front, text, rfl, hfront, rfl⟩ := List.map_eq_append_iff.mp hpieces
    obtain rfl := List.map_injective_iff.mpr (fun _ _ h => kept.inj h) hfront
    rw [List.singleton_append, List.count_cons_self]
    cases n with
    | zero => exact Nat.zero_le _
    | succ n => exact Nat.succ_le_succ (ih (h.of_append le_rfl) rfl)
  | miss none _ ih =>
    obtain ⟨a, text, rfl, rfl, rfl⟩ := List.map_eq_cons_iff.mp hpieces
    have hnone : ¬ word <+: a :: text := fun h => none (h.map kept)
    rw [List.count_cons_of_ne (by simp)]
    exact ih (h.of_cons hnone) rfl

/-- The pieces that hide a word which contains this one. -/
def containing (word : List α) : Piece α → Bool
  | kept _ => false
  | hidden v => decide (word <:+: v)

theorem packing_source (word : List α) (t : List (Piece α)) : Packing word (source t) (t.countP (containing word)) := by
  induction t with
  | nil => exact .zero _
  | cons x t ih =>
    cases x with
    | kept a =>
      rw [List.countP_cons_of_neg (by simp [containing])]
      exact ih.append [a]
    | hidden v =>
      by_cases hv : word <:+: v
      · obtain ⟨pre, post, rfl⟩ := hv
        have hin : containing word (hidden (pre ++ word ++ post)) = true := by simp [containing]
        rw [List.countP_cons_of_pos hin]
        have := Packing.next pre (ih.append post)
        simpa [source] using this
      · rw [List.countP_cons_of_neg (by simpa [containing] using hv)]
        exact ih.append v

/-- As many of the words that are hidden contain the word as it has occurrences, at most. -/
theorem countP_le_tiles (hword : word ≠ []) (t : List (Piece α)) :
    t.countP (containing word) ≤ tiles word (source t) := (packing_source word t).le_tiles hword

theorem count_le_tiles (hword : word ≠ []) (t : List (Piece α)) : t.count (hidden word) ≤ tiles word (source t) := by
  refine le_trans ?_ (countP_le_tiles hword t)
  refine List.countP_mono_left fun x _ hx => ?_
  obtain rfl := of_decide_eq_true hx
  simp [containing]

/-- Words that contain this one take its place. -/
theorem count_add_count_le_tiles (hword : word ≠ []) (hne : word ≠ word') (hwithin : word <:+: word') (t : List (Piece α)) :
    t.count (hidden word) + t.count (hidden word') ≤ tiles word (source t) := by
  refine le_trans ?_ (countP_le_tiles hword t)
  induction t with
  | nil => rfl
  | cons x t ih =>
    rw [List.count_cons, List.count_cons, List.countP_cons]
    have hx : (if x == hidden word then 1 else 0) + (if x == hidden word' then 1 else 0) ≤
        if containing word x then 1 else 0 := by
      cases x with
      | kept a => simp [containing]
      | hidden v =>
        by_cases hv : v = word
        · subst hv
          simp [containing, hne]
        · by_cases hv' : v = word'
          · subst hv'
            simp [containing, hv, hwithin]
          · simp [hv, hv']
    omega

/-- Replacing another word hides this one nowhere. -/
theorem count_cover (hword : word ≠ []) (hne : word' ≠ word) (t : List (Piece α)) :
    (cover word t).count (hidden word') = t.count (hidden word') := by
  have hscan := scan_cover hword t
  generalize cover word t = r at hscan
  induction hscan with
  | nil => rfl
  | @hit s r _ ih =>
    have hzero : (word.map kept).count (hidden word') = 0 := by simp [List.count_eq_zero]
    rw [List.singleton_append, List.count_cons_of_ne (by simpa using Ne.symm hne), List.count_append, hzero, ih,
      Nat.zero_add]
  | miss _ _ ih => rw [List.count_cons, List.count_cons, ih]

theorem count_coverAll {words : List (List α)} (hwords : [] ∉ words) (hword : word ∉ words) (t : List (Piece α)) :
    (coverAll words t).count (hidden word) = t.count (hidden word) := by
  induction words generalizing t with
  | nil => rfl
  | cons first words ih =>
    rw [List.mem_cons, not_or] at hwords hword
    exact (ih hwords.2 hword.2 _).trans (count_cover (Ne.symm hwords.1) hword.1 t)

omit [DecidableEq α] in
theorem mem_hidden_iff : hidden word ∈ t ↔ ∃ i, Hides t i word := by
  constructor
  · intro h
    obtain ⟨pre, post, rfl⟩ := List.append_of_mem h
    exact ⟨_, pre, post, rfl, rfl⟩
  · rintro ⟨i, pre, post, rfl, -⟩
    simp

end Count

section Sums

variable [DecidableEq α] {S : Finset (List α)}

theorem hiddenCount_eq_sum (h : ∀ v, hidden v ∈ t → v ∈ S) : hiddenCount t = ∑ v ∈ S, t.count (hidden v) := by
  induction t with
  | nil => simp [hiddenCount]
  | cons x t ih =>
    have ht := ih fun v hv => h v (List.mem_cons_of_mem _ hv)
    cases x with
    | kept a => simpa [hiddenCount, List.count_cons] using ht
    | hidden word =>
      have hword : word ∈ S := h word List.mem_cons_self
      simp [hiddenCount, List.count_cons, Finset.sum_add_distrib, ht, hword]

theorem hiddenLength_eq_sum (h : ∀ v, hidden v ∈ t → v ∈ S) :
    hiddenLength t = ∑ v ∈ S, t.count (hidden v) * v.length := by
  induction t with
  | nil => simp [hiddenLength]
  | cons x t ih =>
    have ht := ih fun v hv => h v (List.mem_cons_of_mem _ hv)
    cases x with
    | kept a => simpa [hiddenLength, List.count_cons] using ht
    | hidden word =>
      have hword : word ∈ S := h word List.mem_cons_self
      simp [hiddenLength, List.count_cons, Nat.add_mul, Finset.sum_add_distrib, ht, hword]

end Sums

theorem count_congr {P Q : ℕ → Prop} [DecidablePred P] [DecidablePred Q] (n : ℕ) (h : ∀ k, P k ↔ Q k) :
    Nat.count P n = Nat.count Q n :=
  le_antisymm (Nat.count_mono_left fun k _ => (h k).mp) (Nat.count_mono_left fun k _ => (h k).mpr)

open Classical in
/-- The characters that are hidden, one by one. -/
theorem hiddenLength_eq_count (t : List (Piece α)) : hiddenLength t = Nat.count (Hidden t) (source t).length := by
  induction t with
  | nil => rfl
  | cons x t ih =>
    cases x with
    | kept a =>
      show hiddenLength t = Nat.count _ ((source t).length + 1)
      rw [Nat.count_succ', if_neg not_hidden_kept_zero, Nat.add_zero, ih]
      refine count_congr _ fun q => ?_
      simp [hidden_kept_cons]
    | hidden word =>
      show hiddenLength t + word.length = Nat.count _ (word ++ source t).length
      rw [List.length_append, Nat.count_add, Nat.count_of_forall fun q hq => hidden_hidden_cons.mpr (.inl hq), ih,
        Nat.add_comm]
      refine congrArg _ (count_congr _ fun q => ?_)
      simp [hidden_hidden_cons, Nat.add_comm word.length]

/-- Pieces of one text that hide the same characters hide as many. -/
theorem hiddenLength_congr (hsource : source t = source t') (hhidden : ∀ p, Hidden t p ↔ Hidden t' p) :
    hiddenLength t = hiddenLength t' := by
  classical
  rw [hiddenLength_eq_count, hiddenLength_eq_count, hsource]
  exact count_congr _ hhidden

end Piece

/-! ## Several words -/

section Words

open Piece

variable {α : Type} [DecidableEq α]

/-- The character at this position of the text lies inside an occurrence of one of the words. -/
def Inside (words : List (List α)) (text : List α) (p : ℕ) : Prop :=
  ∃ word ∈ words, ∃ i, word <+: text.drop i ∧ i ≤ p ∧ p < i + word.length

/-- The word is found at this position when it alone is replaced. -/
def Found (word text : List α) (i : ℕ) : Prop := Hides (cover word (text.map kept)) i word

/-- What one word is found at does not meet what another one is found at, and together they cover every occurrence. -/
structure Separate (words : List (List α)) (text : List α) : Prop where
  apart : ∀ u ∈ words, ∀ v ∈ words, u ≠ v → ∀ i j, Found u text i → Found v text j →
    i + u.length ≤ j ∨ j + v.length ≤ i
  covered : ∀ p, Inside words text p → ∃ word ∈ words, ∃ i, Found word text i ∧ i ≤ p ∧ p < i + word.length

/-- In every order, every occurrence is replaced, by as many markers. -/
structure Uniform (words : List (List α)) (text : List α) : Prop where
  hides : ∀ order : List (List α), order.Perm words → ∀ p, Inside words text p →
    Hidden (coverAll order (text.map kept)) p
  count : ∀ order : List (List α), order.Perm words →
    hiddenCount (coverAll order (text.map kept)) = hiddenCount (coverAll words (text.map kept))

variable {words order : List (List α)} {text u v : List α} {i j p : ℕ} {t : List (Piece α)}

/-- What is hidden lies inside an occurrence. -/
theorem inside_of_hidden (hwords : [] ∉ words) (h : Hidden (coverAll words (text.map kept)) p) : Inside words text p := by
  obtain ⟨i, word, hi, hle, hlt⟩ := h
  rcases hides_of_coverAll hwords hi with hword | hnone
  · have := hi.isPrefix
    rw [source_coverAll hwords, source_map_kept] at this
    exact ⟨word, hword, i, this, hle, hlt⟩
  · exact absurd hnone not_hides_kept

theorem mem_of_hides (hwords : [] ∉ words) (h : Hides (coverAll words (text.map kept)) i u) :
    u ∈ words ∧ u <+: text.drop i := by
  have hprefix := h.isPrefix
  rw [source_coverAll hwords, source_map_kept] at hprefix
  exact ⟨(hides_of_coverAll hwords h).resolve_right not_hides_kept, hprefix⟩

omit [DecidableEq α] in
theorem inside_congr {words' : List (List α)} (h : ∀ word, word ∈ words ↔ word ∈ words') :
    Inside words text p ↔ Inside words' text p := by
  unfold Inside
  simp only [h]

/-! ### Separate words -/

section Separate

omit [DecidableEq α] in
/-- A word that lies in the source, where nothing is hidden, is still there. -/
theorem isPrefix_kept (h : u <+: source t) (hfree : ∀ j v, Hides t j v → v ≠ [] ∧ u.length ≤ j) : u.map kept <+: t := by
  induction u generalizing t with
  | nil => exact List.nil_prefix
  | cons a u ih =>
    cases t with
    | nil => simp [source] at h
    | cons x t =>
      cases x with
      | hidden v =>
        have := (hfree 0 v hides_zero).2
        simp at this
      | kept b =>
        obtain ⟨rfl, hu⟩ := List.cons_prefix_cons.mp h
        refine List.cons_prefix_cons.mpr ⟨rfl, ih hu fun j v hj => ?_⟩
        obtain ⟨hv, hle⟩ := hfree (j + 1) v (hides_kept_cons.mpr ⟨j, rfl, hj⟩)
        exact ⟨hv, by simpa using hle⟩

theorem found_append (hu : u ≠ []) : Found u (u ++ text) i ↔ i = 0 ∨ ∃ j, i = j + u.length ∧ Found u text j := by
  unfold Found
  rw [List.map_append, cover, replace_append (by simpa using hu), List.singleton_append, hides_hidden_cons]
  exact or_congr (and_iff_left rfl) Iff.rfl

theorem found_cons {a : α} (hnone : ¬ u <+: a :: text) : Found u (a :: text) i ↔ ∃ j, i = j + 1 ∧ Found u text j := by
  have hnone' : ¬ u.map kept <+: kept a :: text.map kept := by
    intro h
    exact hnone ((List.prefix_map_iff_of_injective (fun _ _ h => kept.inj h)).mp h)
  unfold Found
  rw [List.map_cons, cover, replace_cons hnone', hides_kept_cons]
  exact Iff.rfl

/-- Nothing is found in a part that no match begins in. -/
theorem found_skip (hu : u ≠ []) {front : List α} (hfree : ∀ i, Found u (front ++ text) i → front.length ≤ i) :
    Found u (front ++ text) i ↔ ∃ j, i = j + front.length ∧ Found u text j := by
  induction front generalizing i with
  | nil => simp
  | cons a front ih =>
    have hnone : ¬ u <+: a :: (front ++ text) := by
      rintro ⟨rest, hrest⟩
      have hzero : Found u (a :: front ++ text) 0 := by
        rw [List.cons_append, ← hrest]
        exact (found_append hu).mpr (.inl rfl)
      have := hfree 0 hzero
      simp at this
    have hfree' : ∀ i, Found u (front ++ text) i → front.length ≤ i := by
      intro i hi
      have := hfree (i + 1) ((found_cons hnone).mpr ⟨i, rfl, hi⟩)
      simpa using this
    rw [List.cons_append, found_cons hnone]
    constructor
    · rintro ⟨_, rfl, h⟩
      obtain ⟨j, rfl, hj⟩ := (ih hfree').mp h
      exact ⟨j, by rw [List.length_cons]; omega, hj⟩
    · rintro ⟨j, rfl, hj⟩
      exact ⟨j + front.length, by rw [List.length_cons]; omega, (ih hfree').mpr ⟨j, rfl, hj⟩⟩

/-- A word is replaced where it is found alone, if nothing that is hidden meets it there. -/
theorem hides_cover_iff (hu : u ≠ []) (hne : ∀ j v, Hides t j v → v ≠ [])
    (hfree : ∀ i, Found u (source t) i → ∀ j v, Hides t j v → i + u.length ≤ j ∨ j + v.length ≤ i) :
    Hides (cover u t) i u ↔ Hides t i u ∨ Found u (source t) i := by
  have hscan := scan_cover hu t
  have hpos := List.length_pos_iff.mpr hu
  generalize cover u t = r at hscan
  induction hscan generalizing i with
  | nil => simp [source, Found, cover, replace, replaceFrom]
  | @hit s r _ ih =>
    rw [source_append, source_map_kept] at hfree ⊢
    have hshift : ∀ {j v}, Hides s j v → Hides (u.map kept ++ s) (j + u.length) v :=
      fun h => hides_append_kept.mpr ⟨_, rfl, h⟩
    have ih' : ∀ i, Hides r i u ↔ Hides s i u ∨ Found u (source s) i := by
      intro i
      refine ih (fun j v h => hne _ v (hshift h)) fun i hi j v h => ?_
      rcases hfree _ ((found_append hu).mpr (.inr ⟨i, rfl, hi⟩)) _ v (hshift h) with hle | hle
      · exact .inl (by omega)
      · exact .inr (by omega)
    rw [List.singleton_append, hides_hidden_cons, hides_append_kept, found_append hu]
    simp only [ih', and_true]
    constructor
    · rintro (rfl | ⟨j, rfl, hj | hj⟩)
      · exact .inr (.inl rfl)
      · exact .inl ⟨j, rfl, hj⟩
      · exact .inr (.inr ⟨j, rfl, hj⟩)
    · rintro (⟨j, rfl, hj⟩ | rfl | ⟨j, rfl, hj⟩)
      · exact .inr ⟨j, rfl, .inl hj⟩
      · exact .inl rfl
      · exact .inr ⟨j, rfl, .inr hj⟩
  | @miss x s r hnone _ ih =>
    cases x with
    | kept a =>
      have hnone' : ¬ u <+: a :: source s := by
        rintro ⟨rest, hrest⟩
        have hzero : Found u (a :: source s) 0 := hrest ▸ (found_append hu).mpr (.inl rfl)
        refine hnone (isPrefix_kept ⟨rest, hrest⟩ fun j v h => ⟨hne j v h, ?_⟩)
        have hv := List.length_pos_iff.mpr (hne j v h)
        rcases hfree 0 hzero j v h with hle | hle
        · omega
        · omega
      have hshift : ∀ {j v}, Hides s j v → Hides (kept a :: s) (j + 1) v := fun h => hides_kept_cons.mpr ⟨_, rfl, h⟩
      have ih' : ∀ i, Hides r i u ↔ Hides s i u ∨ Found u (source s) i := by
        intro i
        refine ih (fun j v h => hne _ v (hshift h)) fun i hi j v h => ?_
        rcases hfree _ ((found_cons hnone').mpr ⟨i, rfl, hi⟩) _ v (hshift h) with hle | hle
        · exact .inl (by omega)
        · exact .inr (by omega)
      show _ ↔ _ ∨ Found u (a :: source s) i
      rw [hides_kept_cons, hides_kept_cons, found_cons hnone']
      simp only [ih']
      constructor
      · rintro ⟨j, rfl, hj | hj⟩
        · exact .inl ⟨j, rfl, hj⟩
        · exact .inr ⟨j, rfl, hj⟩
      · rintro (⟨j, rfl, hj⟩ | ⟨j, rfl, hj⟩)
        · exact ⟨j, rfl, .inl hj⟩
        · exact ⟨j, rfl, .inr hj⟩
    | hidden v =>
      have hskip : ∀ i, Found u (v ++ source s) i → v.length ≤ i := by
        intro i hi
        rcases hfree i hi 0 v hides_zero with hle | hle
        · omega
        · omega
      have hshift : ∀ {j w}, Hides s j w → Hides (hidden v :: s) (j + v.length) w :=
        fun h => hides_hidden_cons.mpr (.inr ⟨_, rfl, h⟩)
      have ih' : ∀ i, Hides r i u ↔ Hides s i u ∨ Found u (source s) i := by
        intro i
        refine ih (fun j w h => hne _ w (hshift h)) fun i hi j w h => ?_
        rcases hfree _ ((found_skip hu hskip).mpr ⟨i, rfl, hi⟩) _ w (hshift h) with hle | hle
        · exact .inl (by omega)
        · exact .inr (by omega)
      show _ ↔ _ ∨ Found u (v ++ source s) i
      rw [hides_hidden_cons, hides_hidden_cons, found_skip hu hskip]
      simp only [ih']
      constructor
      · rintro (h | ⟨j, rfl, hj | hj⟩)
        · exact .inl (.inl h)
        · exact .inl (.inr ⟨j, rfl, hj⟩)
        · exact .inr ⟨j, rfl, hj⟩
      · rintro ((h | ⟨j, rfl, hj⟩) | ⟨j, rfl, hj⟩)
        · exact .inl h
        · exact .inr ⟨j, rfl, .inl hj⟩
        · exact .inr ⟨j, rfl, .inr hj⟩

variable (hwords : [] ∉ words) (hs : Separate words text)

include hwords hs

/-- Words that are separate are replaced where they are found alone, whatever the order. -/
theorem Separate.hides_iff (hsub : order ⊆ words) :
    Hides (coverAll order (text.map kept)) i v ↔ v ∈ order ∧ Found v text i := by
  have hne : ∀ {order : List (List α)}, order ⊆ words → [] ∉ order := fun h hnil => hwords (h hnil)
  induction order using List.reverseRecOn generalizing i v with
  | nil => exact iff_of_false not_hides_kept (by simp)
  | append_singleton order u ih =>
    have hsub' : order ⊆ words := fun w hw => hsub (List.mem_append_left _ hw)
    have hu : u ∈ words := hsub (by simp)
    have hu' : u ≠ [] := fun h => hwords (h ▸ hu)
    have ih' : ∀ {i v}, Hides (coverAll order (text.map kept)) i v ↔ v ∈ order ∧ Found v text i := ih hsub'
    rw [coverAll_append]
    show Hides (cover u (coverAll order (text.map kept))) i v ↔ _
    by_cases hold : u ∈ order
    · rw [cover_of_not_isInfix (not_isInfix_coverAll (hne hsub') hold), ih', List.mem_append, List.mem_singleton]
      refine and_congr_left fun _ => ⟨.inl, ?_⟩
      rintro (h | rfl)
      · exact h
      · exact hold
    · have hsource : source (coverAll order (text.map kept)) = text := by
        rw [source_coverAll (hne hsub'), source_map_kept]
      have hcover := hides_cover_iff (t := coverAll order (text.map kept)) (i := i) hu'
        (fun j w h hnil => hne hsub' (hnil ▸ (ih'.mp h).1)) (by
          rw [hsource]
          intro i hi j w h
          obtain ⟨hw, hfound⟩ := ih'.mp h
          exact hs.apart u hu w (hsub' hw) (fun heq => hold (heq ▸ hw)) i j hi hfound)
      rw [hsource, ih'] at hcover
      by_cases hv : v = u
      · subst hv
        rw [hcover]
        simp [hold]
      · rw [List.mem_append, List.mem_singleton, or_iff_left hv, ← ih']
        exact ⟨fun h => (hides_of_cover hu' h).resolve_left hv, fun h => h.cover hu'⟩

theorem Separate.hidden_iff (h : order.Perm words) : Hidden (coverAll order (text.map kept)) p ↔ Inside words text p := by
  have hne : [] ∉ order := fun hnil => hwords (h.subset hnil)
  constructor
  · intro hp
    exact (inside_congr fun _ => h.mem_iff).mp (inside_of_hidden hne hp)
  · intro hp
    obtain ⟨word, hword, i, hfound, hle, hlt⟩ := hs.covered p hp
    exact ⟨i, word, (hs.hides_iff hwords h.subset).mpr ⟨h.mem_iff.mpr hword, hfound⟩, hle, hlt⟩

/-- **The order of separate words does not matter.** -/
theorem Separate.coverAll_perm (h : order.Perm words) :
    coverAll order (text.map kept) = coverAll words (text.map kept) := by
  have hne : [] ∉ order := fun hnil => hwords (h.subset hnil)
  refine eq_of_hidden (R := fun i v => v ∈ words ∧ Found v text i) ?_ ?_ ?_ ?_ ?_ ?_
  · rintro i u v ⟨hu, hfu⟩ ⟨hv, hfv⟩
    by_contra huv
    have hupos := List.length_pos_iff.mpr fun hnil : u = [] => hwords (hnil ▸ hu)
    have hvpos := List.length_pos_iff.mpr fun hnil : v = [] => hwords (hnil ▸ hv)
    rcases hs.apart u hu v hv huv i i hfu hfv with hle | hle
    · omega
    · omega
  · rintro i v ⟨hv, -⟩ rfl
    exact hwords hv
  · rw [source_coverAll hne, source_coverAll hwords]
  · intro i v hv
    obtain ⟨hmem, hfound⟩ := (hs.hides_iff hwords h.subset).mp hv
    exact ⟨h.subset hmem, hfound⟩
  · exact fun i v hv => (hs.hides_iff hwords (List.Subset.refl _)).mp hv
  · intro p
    rw [hs.hidden_iff hwords h, hs.hidden_iff hwords (List.Perm.refl _)]

theorem Separate.uniform : Uniform words text where
  hides order h p hp := (hs.hidden_iff hwords h).mpr hp
  count order h := by rw [hs.coverAll_perm hwords h]

end Separate

/-! ### Words that can be replaced in any order -/

section Uniform

/-- After a word no word that contains it is found. -/
theorem cover_cover {f g : List α} (hf : f ≠ []) (hwithin : f <:+: g) (t : List (Piece α)) :
    cover g (cover f t) = cover f t :=
  cover_of_not_isInfix fun h => not_isInfix_cover hf t ((hwithin.map kept).trans h)

variable {f g : List α}

/-- A word that contains another one need not be replaced. -/
theorem Uniform.exists_perm (hnodup : words.Nodup) (hwords : [] ∉ words) (hf : f ∈ words) (hg : g ∈ words)
    (hne : f ≠ g) (hwithin : f <:+: g) (horder : order.Perm (words.erase g)) :
    ∃ order' : List (List α), order'.Perm words ∧ coverAll order' t = coverAll order t := by
  have hforder : f ∈ order := horder.mem_iff.mpr (hnodup.mem_erase_iff.mpr ⟨hne, hf⟩)
  obtain ⟨front, back, rfl⟩ := List.append_of_mem hforder
  refine ⟨front ++ f :: g :: back, ?_, ?_⟩
  · have hswap : (front ++ f :: g :: back).Perm (g :: (front ++ f :: back)) := by
      rw [show front ++ f :: g :: back = (front ++ [f]) ++ g :: back by simp]
      refine List.perm_middle.trans (List.Perm.cons g ?_)
      simp
    exact hswap.trans ((horder.cons g).trans (List.perm_cons_erase hg).symm)
  · rw [coverAll_append, coverAll_append]
    show coverAll back (cover g (cover f _)) = coverAll back (cover f _)
    rw [cover_cover (fun h => hwords (h ▸ hf)) hwithin]

theorem Uniform.erase (hu : Uniform words text) (hnodup : words.Nodup) (hwords : [] ∉ words) (hf : f ∈ words)
    (hg : g ∈ words) (hne : f ≠ g) (hwithin : f <:+: g) : Uniform (words.erase g) text where
  hides order horder p hp := by
    obtain ⟨order', hperm, heq⟩ := exists_perm (t := text.map kept) hnodup hwords hf hg hne hwithin horder
    rw [← heq]
    obtain ⟨word, hword, hin⟩ := hp
    exact hu.hides order' hperm p ⟨word, List.mem_of_mem_erase hword, hin⟩
  count order horder := by
    obtain ⟨order', hperm, heq⟩ := exists_perm (t := text.map kept) hnodup hwords hf hg hne hwithin horder
    obtain ⟨order₀, hperm₀, heq₀⟩ := exists_perm (t := text.map kept) hnodup hwords hf hg hne hwithin (List.Perm.refl _)
    rw [← heq, ← heq₀, hu.count order' hperm, hu.count order₀ hperm₀]

/-- What is hidden is what lies inside the occurrences. -/
theorem Uniform.hidden_iff (hu : Uniform words text) (hwords : [] ∉ words) (horder : order.Perm words) :
    Hidden (coverAll order (text.map kept)) p ↔ Inside words text p := by
  refine ⟨fun h => ?_, hu.hides order horder p⟩
  have hne : [] ∉ order := fun hnil => hwords (horder.subset hnil)
  exact (inside_congr fun _ => horder.mem_iff).mp (inside_of_hidden hne h)

/-- The occurrences of the words, when each word can be replaced first. -/
theorem count_eq_tiles (hnodup : words.Nodup) (hwords : [] ∉ words)
    (hsame : ∀ order : List (List α), order.Perm words → coverAll order (text.map kept) = coverAll words (text.map kept))
    (hu : u ∈ words) : (coverAll words (text.map kept)).count (hidden u) = tiles u text := by
  have hrest : u ∉ words.erase u := fun h => (hnodup.mem_erase_iff.mp h).1 rfl
  have hne : [] ∉ words.erase u := fun h => hwords (List.mem_of_mem_erase h)
  rw [← hsame (u :: words.erase u) (List.perm_cons_erase hu).symm]
  exact count_coverAll hne hrest _

/-- As many things in all, and no more of any kind but one: the one kind is as long as what it is exchanged for. -/
theorem length_eq_of_sums {S : Finset (List α)} (all others : List α → ℕ) {m n : ℕ} (hf : f ∈ S)
    (hle : ∀ u ∈ S, others u ≤ all u) (hfewer : others f + m ≤ all f) (hm : 0 < m)
    (hcount : ∑ u ∈ S, all u = m + ∑ u ∈ S, others u)
    (hlength : ∑ u ∈ S, all u * u.length = m * n + ∑ u ∈ S, others u * u.length) : f.length = n := by
  rw [← Finset.add_sum_erase S all hf, ← Finset.add_sum_erase S others hf] at hcount
  rw [← Finset.add_sum_erase S (fun u => all u * u.length) hf,
    ← Finset.add_sum_erase S (fun u => others u * u.length) hf] at hlength
  have hle' : ∀ u ∈ S.erase f, others u ≤ all u := fun u hu => hle u (Finset.mem_of_mem_erase hu)
  have hsum := Finset.sum_le_sum hle'
  have hf' : all f = others f + m := by omega
  have hrest : ∀ u ∈ S.erase f, others u = all u := (Finset.sum_eq_sum_iff_of_le hle').mp (by omega)
  have hlengths : ∑ u ∈ S.erase f, all u * u.length = ∑ u ∈ S.erase f, others u * u.length :=
    Finset.sum_congr rfl fun u hu => by rw [hrest u hu]
  rw [hlengths, hf', Nat.add_mul] at hlength
  exact Nat.eq_of_mul_eq_mul_left hm (by omega)

/-- **No word that occurs contains another one**, if the order does not matter: with the longer word replaced first
the text would not have as many markers. -/
theorem Uniform.not_isInfix (hu : Uniform words text) (hnodup : words.Nodup) (hwords : [] ∉ words)
    (hsame : ∀ order : List (List α), order.Perm (words.erase g) →
      coverAll order (text.map kept) = coverAll (words.erase g) (text.map kept))
    (hf : f ∈ words) (hg : g ∈ words) (hne : f ≠ g) (hwithin : f <:+: g) : ¬ g <:+: text := by
  intro hoccurs
  have hgne : g ≠ [] := fun h => hwords (h ▸ hg)
  have hfne : f ≠ [] := fun h => hwords (h ▸ hf)
  have hnodup' : (words.erase g).Nodup := hnodup.erase g
  have hwords' : [] ∉ words.erase g := fun h => hwords (List.mem_of_mem_erase h)
  have hg' : g ∉ words.erase g := fun h => (hnodup.mem_erase_iff.mp h).1 rfl
  have hf' : f ∈ words.erase g := hnodup.mem_erase_iff.mpr ⟨hne, hf⟩
  have hfirst : (g :: words.erase g).Perm words := (List.perm_cons_erase hg).symm
  have hfirst' : [] ∉ g :: words.erase g := fun h => hwords (hfirst.subset h)
  -- the longer word first, and the longer word not at all
  let long := coverAll (g :: words.erase g) (text.map kept)
  let short := coverAll (words.erase g) (text.map kept)
  obtain ⟨order, horder, (heq : coverAll order _ = short)⟩ :=
    exists_perm (t := text.map kept) hnodup hwords hf hg hne hwithin (List.Perm.refl _)
  have hsourceLong : source long = text := by rw [source_coverAll hfirst', source_map_kept]
  have hsourceShort : source short = text := by rw [source_coverAll hwords', source_map_kept]
  have hlengths : hiddenLength short = hiddenLength long := by
    refine hiddenLength_congr (by rw [hsourceLong, hsourceShort]) fun p => ?_
    rw [← heq, hu.hidden_iff hwords horder, hu.hidden_iff hwords hfirst]
  have hcounts : hiddenCount short = hiddenCount long := by
    rw [← heq, hu.count order horder, hu.count _ hfirst]
  -- the words that are hidden
  have hmemShort : ∀ v, hidden v ∈ short → v ∈ (words.erase g).toFinset := by
    intro v hv
    obtain ⟨i, hi⟩ := mem_hidden_iff.mp hv
    exact List.mem_toFinset.mpr (mem_of_hides hwords' hi).1
  have hmemLong : ∀ v, hidden v ∈ long → v ∈ insert g (words.erase g).toFinset := by
    intro v hv
    obtain ⟨i, hi⟩ := mem_hidden_iff.mp hv
    rw [← List.toFinset_cons]
    exact List.mem_toFinset.mpr (mem_of_hides hfirst' hi).1
  have hgnot : g ∉ (words.erase g).toFinset := by simpa using hg'
  have htiles : ∀ u ∈ (words.erase g).toFinset, short.count (hidden u) = tiles u text :=
    fun u hu => count_eq_tiles hnodup' hwords' hsame (List.mem_toFinset.mp hu)
  have hgtiles : long.count (hidden g) = tiles g text := count_coverAll hwords' hg' _
  have hpos : 0 < tiles g text := by
    obtain ⟨pre, post, rfl⟩ := hoccurs
    have hone : Packing g (pre ++ (g ++ post)) 1 := .next pre (.zero post)
    rw [List.append_assoc]
    exact hone.le_tiles hgne
  have hlt : f.length < g.length := by
    refine lt_of_le_of_ne hwithin.length_le fun h => hne (hwithin.eq_of_length h)
  refine absurd (length_eq_of_sums (S := (words.erase g).toFinset) (n := g.length) (fun u => tiles u text)
    (fun u => long.count (hidden u)) (List.mem_toFinset.mpr hf') ?_ ?_ hpos ?_ ?_) hlt.ne
  · intro u hmem
    have hne' : u ≠ [] := fun h => hwords' (h ▸ List.mem_toFinset.mp hmem)
    have := count_le_tiles hne' long
    rwa [hsourceLong] at this
  · have := count_add_count_le_tiles hfne hne hwithin long
    rwa [hsourceLong, hgtiles] at this
  · rw [hiddenCount_eq_sum hmemShort, hiddenCount_eq_sum hmemLong, Finset.sum_insert hgnot, hgtiles] at hcounts
    rw [← hcounts]
    exact Finset.sum_congr rfl fun u hu => (htiles u hu).symm
  · rw [hiddenLength_eq_sum hmemShort, hiddenLength_eq_sum hmemLong, Finset.sum_insert hgnot, hgtiles] at hlengths
    rw [← hlengths]
    exact Finset.sum_congr rfl fun u hu => by rw [htiles u hu]

/-- In every order, the same pieces are hidden. -/
theorem Uniform.coverAll_perm (hu : Uniform words text) (hnodup : words.Nodup) (hwords : [] ∉ words)
    (horder : order.Perm words) : coverAll order (text.map kept) = coverAll words (text.map kept) := by
  induction hlength : words.length using Nat.strong_induction_on generalizing words order with
  | _ n ih =>
    have hne : [] ∉ order := fun hnil => hwords (horder.subset hnil)
    -- two words do not begin at one position
    have hfree : ∀ {f g}, f ∈ words → g ∈ words → f ≠ g → ∀ i, f <+: g → ¬ g <+: text.drop i := by
      intro f g hf hg hfg i hprefix hoccurs
      have hless : (words.erase g).length < n := by
        have hpos := List.length_pos_of_mem hg
        rw [List.length_erase_of_mem hg]
        omega
      refine hu.not_isInfix hnodup hwords (fun order' horder' => ?_) hf hg hfg hprefix.isInfix
        (hoccurs.isInfix.trans (List.drop_suffix i text).isInfix)
      exact ih _ hless (hu.erase hnodup hwords hf hg hfg hprefix.isInfix) (hnodup.erase g)
        (fun h => hwords (List.mem_of_mem_erase h)) horder' rfl
    refine eq_of_hidden (R := fun i v => v ∈ words ∧ v <+: text.drop i) ?_ ?_ ?_ ?_ ?_ ?_
    · rintro i f g ⟨hf, hfi⟩ ⟨hg, hgi⟩
      by_contra hfg
      rcases List.prefix_or_prefix_of_prefix hfi hgi with h | h
      · exact hfree hf hg hfg i h hgi
      · exact hfree hg hf (Ne.symm hfg) i h hfi
    · rintro i v ⟨hv, -⟩ rfl
      exact hwords hv
    · rw [source_coverAll hne, source_coverAll hwords]
    · intro i v hv
      obtain ⟨hmem, hprefix⟩ := mem_of_hides hne hv
      exact ⟨horder.subset hmem, hprefix⟩
    · exact fun i v hv => mem_of_hides hwords hv
    · intro p
      rw [hu.hidden_iff hwords horder, hu.hidden_iff hwords (List.Perm.refl _)]

/-- What a word is found at when it is replaced first is what it is found at alone. -/
theorem Uniform.hides_iff (hu : Uniform words text) (hnodup : words.Nodup) (hwords : [] ∉ words) (hv : v ∈ words) :
    Hides (coverAll words (text.map kept)) i v ↔ Found v text i := by
  have hrest : v ∉ words.erase v := fun h => (hnodup.mem_erase_iff.mp h).1 rfl
  have hne : [] ∉ words.erase v := fun h => hwords (List.mem_of_mem_erase h)
  rw [← hu.coverAll_perm hnodup hwords (List.perm_cons_erase hv).symm]
  exact ⟨fun h => (hides_of_coverAll hne h).resolve_left hrest, fun h => h.coverAll hne⟩

theorem Uniform.separate (hu : Uniform words text) (hnodup : words.Nodup) (hwords : [] ∉ words) :
    Separate words text where
  apart u hu' v hv huv i j hi hj := by
    have hi' := (hu.hides_iff hnodup hwords hu').mpr hi
    have hj' := (hu.hides_iff hnodup hwords hv).mpr hj
    exact (hi'.apart hj').resolve_left fun h => huv h.2
  covered p hp := by
    obtain ⟨i, word, hi, hle, hlt⟩ := (hu.hidden_iff hwords (List.Perm.refl _)).mpr hp
    have hword := (mem_of_hides hwords hi).1
    exact ⟨word, hword, i, (hu.hides_iff hnodup hwords hword).mp hi, hle, hlt⟩

/-- Words that are given more than once are replaced once. -/
theorem Uniform.dedup (hu : Uniform words text) (hwords : [] ∉ words) : Uniform words.dedup text := by
  have hextend : ∀ {order : List (List α)}, order.Perm words.dedup →
      ∃ order' : List (List α), order'.Perm words ∧ coverAll order' (text.map kept) = coverAll order (text.map kept) := by
    intro order horder
    obtain ⟨rest, hrest⟩ := (List.dedup_sublist words).exists_perm_append
    refine ⟨order ++ rest, (horder.append_right rest).trans hrest.symm, ?_⟩
    rw [coverAll_append]
    refine coverAll_of_subset (fun h => hwords (List.mem_dedup.mp (horder.subset h))) fun word hword => ?_
    exact horder.mem_iff.mpr (List.mem_dedup.mpr (hrest.mem_iff.mpr (List.mem_append_right _ hword)))
  obtain ⟨order₀, hperm₀, heq₀⟩ := hextend (List.Perm.refl _)
  constructor
  · intro order horder p hp
    obtain ⟨order', hperm, heq⟩ := hextend horder
    rw [← heq]
    exact hu.hides order' hperm p ((inside_congr fun _ => List.mem_dedup).mp hp)
  · intro order horder
    obtain ⟨order', hperm, heq⟩ := hextend horder
    rw [← heq, ← heq₀, hu.count order' hperm, hu.count order₀ hperm₀]

end Uniform

/-- **Words can be replaced in any order, and no occurrence is left, exactly when they are separate.** -/
theorem separate_iff_uniform (hwords : [] ∉ words) : Separate words text ↔ Uniform words text := by
  refine ⟨fun h => h.uniform hwords, fun h => ?_⟩
  have hdedup : [] ∉ words.dedup := fun hnil => hwords (List.mem_dedup.mp hnil)
  have hs := (h.dedup hwords).separate (List.nodup_dedup words) hdedup
  refine ⟨fun u hu v hv => hs.apart u (List.mem_dedup.mpr hu) v (List.mem_dedup.mpr hv), fun p hp => ?_⟩
  obtain ⟨word, hword, hfound⟩ := hs.covered p ((inside_congr fun _ => List.mem_dedup).mpr hp)
  exact ⟨word, List.mem_dedup.mp hword, hfound⟩

/-! ### Texts -/

/-- The words of a text, replaced one after another. -/
def replaceAll (marker : List α) (words : List (List α)) (text : List α) : List α :=
  words.foldl (fun text word => replace word marker text) text

/-- What is left of a text when exactly that is masked which lies inside the occurrences. -/
def Masked (marker : List α) (words : List (List α)) (text out : List α) : Prop :=
  ∃ t : List (Piece α), source t = text ∧ render marker t = out ∧ ∀ p, Hidden t p ↔ Inside words text p

section Texts

variable {marker : List α}

omit [DecidableEq α] in
/-- A word of other characters than the marker does not begin in a marker. -/
theorem isPrefix_render (hmarker : marker ≠ []) (hfree : ∀ a ∈ u, a ∉ marker) :
    u <+: render marker t ↔ u.map kept <+: t := by
  induction t generalizing u with
  | nil => simp [render]
  | cons x t ih =>
    cases u with
    | nil => simp
    | cons a u =>
      cases x with
      | kept b =>
        rw [List.map_cons, render, List.cons_prefix_cons, List.cons_prefix_cons,
          ih fun c hc => hfree c (List.mem_cons_of_mem _ hc), kept.injEq]
      | hidden word =>
        refine iff_of_false (fun h => ?_) (fun h => ?_)
        · obtain ⟨m, rest, rfl⟩ := List.exists_cons_of_ne_nil hmarker
          obtain ⟨rfl, -⟩ := List.cons_prefix_cons.mp (show a :: u <+: m :: (rest ++ render (m :: rest) t) from h)
          exact hfree a (by simp) (by simp)
        · obtain ⟨hx, -⟩ := List.cons_prefix_cons.mp h
          cases hx

/-- A text of other characters is passed over. -/
theorem replace_skip (hu : u ≠ []) {front : List α} (hfree : ∀ a ∈ u, a ∉ front) (new : List α) :
    replace u new (front ++ text) = front ++ replace u new text := by
  induction front with
  | nil => rfl
  | cons b front ih =>
    have hnone : ¬ u <+: b :: (front ++ text) := by
      intro h
      obtain ⟨a, rest, rfl⟩ := List.exists_cons_of_ne_nil hu
      obtain ⟨rfl, -⟩ := List.cons_prefix_cons.mp h
      exact hfree a (by simp) (by simp)
    rw [List.cons_append, replace_cons hnone, ih fun a ha h => hfree a ha (List.mem_cons_of_mem _ h), List.cons_append]

/-- Markers are not touched by the words that are replaced later. -/
theorem render_cover (hmarker : marker ≠ []) (hu : u ≠ []) (hfree : ∀ a ∈ u, a ∉ marker) :
    render marker (cover u t) = replace u marker (render marker t) := by
  have hscan := scan_cover hu t
  generalize cover u t = r at hscan
  induction hscan with
  | nil => rfl
  | hit _ ih =>
    rw [render_append, render_append, render_map_kept, replace_append hu, ih]
    simp [render]
  | @miss x s r hnone _ ih =>
    cases x with
    | kept a =>
      have hnone' : ¬ u <+: a :: render marker s :=
        fun h => hnone ((isPrefix_render hmarker hfree).mp (show u <+: render marker (kept a :: s) from h))
      show a :: render marker r = replace u marker (a :: render marker s)
      rw [replace_cons hnone', ih]
    | hidden word =>
      show marker ++ render marker r = replace u marker (marker ++ render marker s)
      rw [replace_skip hu hfree, ih]

theorem render_coverAll (hmarker : marker ≠ []) (hwords : [] ∉ words) (hfree : ∀ word ∈ words, ∀ a ∈ word, a ∉ marker) :
    render marker (coverAll words t) = replaceAll marker words (render marker t) := by
  induction words generalizing t with
  | nil => rfl
  | cons word words ih =>
    rw [List.mem_cons, not_or] at hwords
    obtain ⟨hword, hrest⟩ := List.forall_mem_cons.mp hfree
    show render marker (coverAll words (cover word t)) = replaceAll marker words (replace word marker (render marker t))
    rw [ih hwords.2 hrest, render_cover hmarker (Ne.symm hwords.1) hword]

omit [DecidableEq α] in
theorem length_render (marker : List α) (t : List (Piece α)) :
    (render marker t).length + hiddenLength t = (source t).length + hiddenCount t * marker.length := by
  induction t with
  | nil => simp [render, source, hiddenLength, hiddenCount]
  | cons x t ih =>
    cases x with
    | kept a => simp only [render, source, hiddenLength, hiddenCount, List.length_cons]; omega
    | hidden word =>
      simp only [render, source, hiddenLength, hiddenCount, List.length_append, Nat.add_mul, Nat.one_mul]
      omega

/-- The characters that are not of the marker. -/
theorem countP_render (hfree : ∀ word, hidden word ∈ t → ∀ a ∈ word, a ∉ marker) :
    (render marker t).countP (· ∉ marker) + hiddenLength t = (source t).countP (· ∉ marker) := by
  induction t with
  | nil => rfl
  | cons x t ih =>
    have ih := ih fun word hword => hfree word (List.mem_cons_of_mem _ hword)
    cases x with
    | kept a =>
      simp only [render, source, hiddenLength, List.countP_cons]
      omega
    | hidden word =>
      have hmark : marker.countP (· ∉ marker) = 0 := List.countP_eq_zero.mpr (by simp)
      have hword : word.countP (· ∉ marker) = word.length :=
        List.countP_eq_length.mpr fun a ha => decide_eq_true (hfree word (by simp) a ha)
      simp only [render, source, hiddenLength, List.countP_append, hmark, hword]
      omega

omit [DecidableEq α] in
/-- Pieces that hide no more and as much hide the same. -/
theorem hidden_of_length {t' : List (Piece α)} (hsource : source t = source t') (hsub : ∀ p, Hidden t p → Hidden t' p)
    (hlength : hiddenLength t = hiddenLength t') (hp : Hidden t' p) : Hidden t p := by
  classical
  have hlt : p < (source t').length := by
    obtain ⟨i, word, hi, hle, hlt⟩ := hp
    have := hi.isPrefix.length_le
    rw [List.length_drop] at this
    omega
  rw [hiddenLength_eq_count, hiddenLength_eq_count, hsource, Nat.count_eq_card_filter_range,
    Nat.count_eq_card_filter_range] at hlength
  have heq := Finset.eq_of_subset_of_card_le (Finset.monotone_filter_right (Finset.range (source t').length)
    fun p _ => hsub p) hlength.ge
  have hmem : p ∈ (Finset.range (source t').length).filter (Hidden t') :=
    Finset.mem_filter.mpr ⟨Finset.mem_range.mpr hlt, hp⟩
  rw [← heq] at hmem
  exact (Finset.mem_filter.mp hmem).2

variable (hmarker : marker ≠ []) (hwords : [] ∉ words) (hfree : ∀ word ∈ words, ∀ a ∈ word, a ∉ marker)

include hmarker hwords hfree

theorem replaceAll_eq_render (h : order.Perm words) :
    replaceAll marker order text = render marker (coverAll order (text.map kept)) := by
  rw [render_coverAll hmarker (fun hnil => hwords (h.subset hnil)) fun word hword => hfree word (h.subset hword),
    render_map_kept]

omit hmarker in
/-- A masked text says what the words hide. -/
theorem Masked.hidden (hm : Masked marker words text (render marker (coverAll order (text.map kept))))
    (h : order.Perm words) (hp : Inside words text p) : Hidden (coverAll order (text.map kept)) p := by
  obtain ⟨t, hsource, hrender, hhidden⟩ := hm
  have hne : [] ∉ order := fun hnil => hwords (h.subset hnil)
  have hsource' : source (coverAll order (text.map kept)) = text := by rw [source_coverAll hne, source_map_kept]
  -- what is hidden is not of the marker
  have hwordsOf : ∀ word, Piece.hidden word ∈ coverAll order (text.map kept) → ∀ a ∈ word, a ∉ marker := by
    intro word hword
    obtain ⟨i, hi⟩ := mem_hidden_iff.mp hword
    exact hfree word (h.subset (mem_of_hides hne hi).1)
  have hpieces : ∀ word, Piece.hidden word ∈ t → ∀ a ∈ word, a ∉ marker := by
    intro word hword a ha
    obtain ⟨i, hi⟩ := mem_hidden_iff.mp hword
    obtain ⟨k, hk, rfl⟩ := List.mem_iff_getElem.mp ha
    obtain ⟨v, hv, j, hprefix, hle, hlt⟩ := (hhidden (i + k)).mp ⟨i, word, hi, by omega, by omega⟩
    have hindex : i + k - j < v.length := by omega
    have hchar : word[k] = v[i + k - j] := by
      have hpre := hi.isPrefix
      rw [hsource] at hpre
      rw [hpre.getElem hk, hprefix.getElem (by omega), List.getElem_drop, List.getElem_drop]
      congr 1
      omega
    rw [hchar]
    exact hfree v hv _ (List.getElem_mem _)
  refine hidden_of_length (hsource'.trans hsource.symm) (fun p hp => (hhidden p).mpr ?_) ?_ ((hhidden p).mpr hp)
  · exact (inside_congr fun _ => h.mem_iff).mp (inside_of_hidden hne hp)
  · have hcount := countP_render hwordsOf
    have hcount' := countP_render hpieces
    rw [hrender, hsource] at hcount'
    rw [hsource'] at hcount
    omega

/-- **A text is masked, whatever the order of the words, exactly when they are separate.** -/
theorem separate_iff_masked : Separate words text ↔ Masked marker words text (replaceAll marker words text) ∧
    ∀ order : List (List α), order.Perm words → replaceAll marker order text = replaceAll marker words text := by
  have hrender : ∀ {order : List (List α)}, order.Perm words →
      replaceAll marker order text = render marker (coverAll order (text.map kept)) :=
    fun h => replaceAll_eq_render hmarker hwords hfree h
  rw [separate_iff_uniform hwords]
  constructor
  · intro hu
    have hs := (separate_iff_uniform hwords).mpr hu
    refine ⟨⟨coverAll words (text.map kept), ?_, (hrender (List.Perm.refl _)).symm, fun p => ?_⟩, fun order h => ?_⟩
    · rw [source_coverAll hwords, source_map_kept]
    · exact hu.hidden_iff hwords (List.Perm.refl _)
    · rw [hrender h, hrender (List.Perm.refl _), hs.coverAll_perm hwords h]
  · rintro ⟨hm, hsame⟩
    have hhides : ∀ order : List (List α), order.Perm words → ∀ p, Inside words text p →
        Hidden (coverAll order (text.map kept)) p := by
      intro order h p hp
      rw [← hsame order h, hrender h] at hm
      exact hm.hidden hwords hfree h hp
    refine ⟨hhides, fun order h => ?_⟩
    have hne : [] ∉ order := fun hnil => hwords (h.subset hnil)
    have hsource : source (coverAll order (text.map kept)) = source (coverAll words (text.map kept)) := by
      rw [source_coverAll hne, source_coverAll hwords]
    have hlength : hiddenLength (coverAll order (text.map kept)) = hiddenLength (coverAll words (text.map kept)) := by
      refine hiddenLength_congr hsource fun p => ⟨fun hp => ?_, fun hp => ?_⟩
      · exact hhides words (List.Perm.refl _) p ((inside_congr fun _ => h.mem_iff).mp (inside_of_hidden hne hp))
      · exact hhides order h p (inside_of_hidden hwords hp)
    have htexts := hsame order h
    rw [hrender h, hrender (List.Perm.refl _)] at htexts
    have hcount := length_render marker (coverAll order (text.map kept))
    have hcount' := length_render marker (coverAll words (text.map kept))
    rw [htexts, hlength, hsource] at hcount
    exact Nat.eq_of_mul_eq_mul_right (List.length_pos_iff.mpr hmarker) (by omega)

end Texts

end Words

end Xyberos
