import Mathlib.Data.List.Basic
import Mathlib.Logic.Function.Basic
import Mathlib.Logic.Relation

/-!
# Xyberos.Base.Once — values that are made once, under locks

A slot for each key: a lock, which names the task that holds it, the value that is kept in it, and what was ever made
for it.  A task makes a value and keeps it while it holds the lock of an empty slot (`Slots.Step`).  Then every slot
gets at most one value (`Slots.Sound`), whatever the other tasks do meanwhile (`Slots.Others`).  A slot may be given
up, at any time and for good; nothing is promised of it from then on, except that its lock still keeps others out.
Tasks that take their locks along an order never wait for each other in a circle (`not_waits_circle`).
-/

set_option autoImplicit false

namespace Xyberos

/-- The slots of all keys, and which of them were given up. -/
structure Slots (κ ι : Type) where
  lock : κ → Option ℕ := fun _ => none
  value : κ → Option ι := fun _ => none
  made : κ → List ι := fun _ => []
  gone : κ → Prop := fun _ => False

namespace Slots

variable {κ ι : Type} [DecidableEq κ] {t : ℕ} {s s' s'' : Slots κ ι}

/-- What one task may do to the slots in a step. -/
inductive Step (t : ℕ) (s : Slots κ ι) : Slots κ ι → Prop
  | idle : Step t s s
  | lock (k : κ) (free : s.lock k = none) : Step t s { s with lock := Function.update s.lock k (some t) }
  | make (k : κ) (i : ι) (held : s.lock k = some t) (empty : ¬ s.gone k → s.value k = none ∧ s.made k = []) :
    Step t s { s with made := Function.update s.made k (s.made k ++ [i]) }
  | keep (k : κ) (i : ι) (held : s.lock k = some t) (own : ¬ s.gone k → s.value k = none ∧ s.made k = [i]) :
    Step t s { s with value := Function.update s.value k (some i) }
  | unlock (k : κ) (held : s.lock k = some t) (settled : ¬ s.gone k → s.made k = (s.value k).toList) :
    Step t s { s with lock := Function.update s.lock k none }
  | leave (gone : κ → Prop) (grows : ∀ k, s.gone k → gone k) : Step t s { s with gone := gone }
  | forget (value : κ → Option ι) (same : ∀ k, ¬ s.gone k → value k = s.value k) : Step t s { s with value := value }

/-- In a slot that was not given up, a kept value is the only one that was made, and where nobody is at work nothing was
made but what is kept. -/
structure Sound (s : Slots κ ι) : Prop where
  kept : ∀ k, ¬ s.gone k → ∀ i, s.value k = some i → s.made k = [i]
  free : ∀ k, ¬ s.gone k → s.lock k = none → s.value k = none → s.made k = []
  once : ∀ k, ¬ s.gone k → (s.made k).length ≤ 1

/-- What a task can rely on while the others take steps. -/
structure Others (t : ℕ) (s s' : Slots κ ι) : Prop where
  sound : s.Sound → s'.Sound
  mine : ∀ k, s.lock k = some t → s'.lock k = some t ∧ (¬ s'.gone k → s'.value k = s.value k ∧ s'.made k = s.made k)
  only : ∀ k, s'.lock k = some t → s.lock k = some t
  grows : ∀ k i, ¬ s'.gone k → s.value k = some i → s'.value k = some i
  gone : ∀ k, s.gone k → s'.gone k

omit [DecidableEq κ] in
theorem Others.refl (t : ℕ) (s : Slots κ ι) : Others t s s :=
  ⟨fun h => h, fun _ h => ⟨h, fun _ => ⟨rfl, rfl⟩⟩, fun _ h => h, fun _ _ _ h => h, fun _ h => h⟩

omit [DecidableEq κ] in
theorem sound_empty (gone : κ → Prop) : Sound ({ gone := gone } : Slots κ ι) :=
  ⟨fun _ _ => nofun, fun _ _ _ _ => rfl, fun _ _ => Nat.zero_le _⟩

theorem Step.sound (h : Step t s s') (hs : s.Sound) : s'.Sound := by
  cases h with
  | idle => exact hs
  | lock k free =>
    refine ⟨hs.kept, fun k' hgone hlock hvalue => ?_, hs.once⟩
    dsimp only at hgone hlock hvalue ⊢
    rcases eq_or_ne k' k with rfl | hne
    · rw [Function.update_self] at hlock
      cases hlock
    · rw [Function.update_of_ne hne] at hlock
      exact hs.free k' hgone hlock hvalue
  | make k i held empty =>
    refine ⟨fun k' hgone j hvalue => ?_, fun k' hgone hlock hvalue => ?_, fun k' hgone => ?_⟩ <;> dsimp only at *
    · rcases eq_or_ne k' k with rfl | hne
      · cases (empty hgone).1.symm.trans hvalue
      · rw [Function.update_of_ne hne]
        exact hs.kept k' hgone j hvalue
    · rcases eq_or_ne k' k with rfl | hne
      · cases held.symm.trans hlock
      · rw [Function.update_of_ne hne]
        exact hs.free k' hgone hlock hvalue
    · rcases eq_or_ne k' k with rfl | hne
      · rw [Function.update_self, (empty hgone).2]
        exact Nat.le_refl 1
      · rw [Function.update_of_ne hne]
        exact hs.once k' hgone
  | keep k i held own =>
    refine ⟨fun k' hgone j hvalue => ?_, fun k' hgone hlock hvalue => ?_, hs.once⟩ <;> dsimp only at *
    · rcases eq_or_ne k' k with rfl | hne
      · rw [Function.update_self] at hvalue
        rw [← Option.some.inj hvalue]
        exact (own hgone).2
      · rw [Function.update_of_ne hne] at hvalue
        exact hs.kept k' hgone j hvalue
    · rcases eq_or_ne k' k with rfl | hne
      · rw [Function.update_self] at hvalue
        cases hvalue
      · rw [Function.update_of_ne hne] at hvalue
        exact hs.free k' hgone hlock hvalue
  | unlock k held settled =>
    refine ⟨hs.kept, fun k' hgone hlock hvalue => ?_, hs.once⟩
    dsimp only at hgone hlock hvalue ⊢
    rcases eq_or_ne k' k with rfl | hne
    · rw [settled hgone, hvalue]
      rfl
    · rw [Function.update_of_ne hne] at hlock
      exact hs.free k' hgone hlock hvalue
  | leave gone grows =>
    have hstill : ∀ {k}, ¬ gone k → ¬ s.gone k := fun hk h => hk (grows _ h)
    exact ⟨fun k hk => hs.kept k (hstill hk), fun k hk => hs.free k (hstill hk), fun k hk => hs.once k (hstill hk)⟩
  | forget value same =>
    refine ⟨fun k hk i hi => hs.kept k hk i ((same k hk).symm.trans hi), fun k hk hlock hvalue => ?_, hs.once⟩
    exact hs.free k hk hlock ((same k hk).symm.trans hvalue)

/-- A step of one task, for another one. -/
theorem Step.others {t' : ℕ} (h : Step t s s') (hne : t' ≠ t) : Others t' s s' := by
  have hother : ∀ {k k' : κ}, s.lock k = some t → s.lock k' = some t' → k' ≠ k := by
    rintro k k' hk hk' rfl
    exact hne (Option.some.inj (hk'.symm.trans hk))
  refine ⟨h.sound, ?_, ?_, ?_, ?_⟩
  · intro k' hk'
    cases h with
    | idle => exact ⟨hk', fun _ => ⟨rfl, rfl⟩⟩
    | lock k free =>
      have hk : k' ≠ k := by
        rintro rfl
        cases free.symm.trans hk'
      exact ⟨(Function.update_of_ne hk ..).trans hk', fun _ => ⟨rfl, rfl⟩⟩
    | make k i held => exact ⟨hk', fun _ => ⟨rfl, Function.update_of_ne (hother held hk') ..⟩⟩
    | keep k i held => exact ⟨hk', fun _ => ⟨Function.update_of_ne (hother held hk') .., rfl⟩⟩
    | unlock k held => exact ⟨(Function.update_of_ne (hother held hk') ..).trans hk', fun _ => ⟨rfl, rfl⟩⟩
    | leave gone grows => exact ⟨hk', fun _ => ⟨rfl, rfl⟩⟩
    | forget value same => exact ⟨hk', fun hgone => ⟨same k' hgone, rfl⟩⟩
  · intro k' hk'
    cases h with
    | lock k free =>
      dsimp only at hk'
      rcases eq_or_ne k' k with rfl | hk
      · rw [Function.update_self] at hk'
        exact absurd (Option.some.inj hk').symm hne
      · rwa [Function.update_of_ne hk] at hk'
    | unlock k held =>
      dsimp only at hk'
      rcases eq_or_ne k' k with rfl | hk
      · rw [Function.update_self] at hk'
        cases hk'
      · rwa [Function.update_of_ne hk] at hk'
    | _ => exact hk'
  · intro k' j hgone hj
    cases h with
    | keep k i held own =>
      have hk : k' ≠ k := by
        rintro rfl
        cases (own hgone).1.symm.trans hj
      exact (Function.update_of_ne hk ..).trans hj
    | forget value same => exact (same k' hgone).trans hj
    | _ => exact hj
  · intro k' hgone
    cases h with
    | leave gone grows => exact grows k' hgone
    | _ => exact hgone

/-! ### What a task knows -/

/-- The locks that a task holds, all of slots that are empty. -/
structure Holds (t : ℕ) (ks : List κ) (s : Slots κ ι) : Prop where
  lock : ∀ k, s.lock k = some t ↔ k ∈ ks
  empty : ∀ k ∈ ks, ¬ s.gone k → s.value k = none ∧ s.made k = []

/-- Beside these locks, it holds one of a slot whose value is at hand, if one was made. -/
structure Settled (t : ℕ) (k : κ) (ks : List κ) (s : Slots κ ι) : Prop where
  lock : ∀ k', s.lock k' = some t ↔ k' ∈ k :: ks
  empty : ∀ k' ∈ ks, ¬ s.gone k' → s.value k' = none ∧ s.made k' = []
  settled : ¬ s.gone k → s.made k = (s.value k).toList

/-- Beside these locks, it holds one of a slot for which it made a value. -/
structure Pending (t : ℕ) (k : κ) (i : ι) (ks : List κ) (s : Slots κ ι) : Prop where
  lock : ∀ k', s.lock k' = some t ↔ k' ∈ k :: ks
  empty : ∀ k' ∈ ks, ¬ s.gone k' → s.value k' = none ∧ s.made k' = []
  pending : ¬ s.gone k → s.value k = none ∧ s.made k = [i]

section Knowledge

variable {k : κ} {ks : List κ} {i : ι}

omit [DecidableEq κ] in
theorem Others.locks (ho : Others t s s') (h : ∀ k', s.lock k' = some t ↔ k' ∈ ks) :
    ∀ k', s'.lock k' = some t ↔ k' ∈ ks :=
  fun k' => ⟨fun hk => (h k').mp (ho.only k' hk), fun hk => (ho.mine k' ((h k').mpr hk)).1⟩

omit [DecidableEq κ] in
/-- What is known of a slot that a task holds stays known, unless the slot is given up. -/
theorem Others.known (ho : Others t s s') {P : Option ι → List ι → Prop} (hk : s.lock k = some t)
    (h : ¬ s.gone k → P (s.value k) (s.made k)) : ¬ s'.gone k → P (s'.value k) (s'.made k) := by
  intro hgone
  obtain ⟨hvalue, hmade⟩ := (ho.mine k hk).2 hgone
  rw [hvalue, hmade]
  exact h fun hk => hgone (ho.gone k hk)

omit [DecidableEq κ] in
theorem Holds.others (h : Holds t ks s) (ho : Others t s s') : Holds t ks s' :=
  ⟨ho.locks h.lock, fun k' hk => ho.known (P := fun v m => v = none ∧ m = []) ((h.lock k').mpr hk) (h.empty k' hk)⟩

omit [DecidableEq κ] in
theorem Settled.others (h : Settled t k ks s) (ho : Others t s s') : Settled t k ks s' :=
  ⟨ho.locks h.lock,
    fun k' hk => ho.known (P := fun v m => v = none ∧ m = []) ((h.lock k').mpr (List.mem_cons_of_mem _ hk))
      (h.empty k' hk),
    ho.known (P := fun v m => m = v.toList) ((h.lock k).mpr List.mem_cons_self) h.settled⟩

omit [DecidableEq κ] in
theorem Pending.others (h : Pending t k i ks s) (ho : Others t s s') : Pending t k i ks s' :=
  ⟨ho.locks h.lock,
    fun k' hk => ho.known (P := fun v m => v = none ∧ m = []) ((h.lock k').mpr (List.mem_cons_of_mem _ hk))
      (h.empty k' hk),
    ho.known (P := fun v m => v = none ∧ m = [i]) ((h.lock k).mpr List.mem_cons_self) h.pending⟩

/-- A lock is taken. -/
theorem Holds.take (h : Holds t ks s) (hs : s.Sound) (free : s.lock k = none) :
    k ∉ ks ∧ Settled t k ks { s with lock := Function.update s.lock k (some t) } := by
  have hk : k ∉ ks := fun hk => by cases free.symm.trans ((h.lock k).mpr hk)
  refine ⟨hk, fun k' => ?_, h.empty, fun hgone => ?_⟩
  · dsimp only
    rcases eq_or_ne k' k with rfl | hne
    · simp
    · rw [Function.update_of_ne hne, h.lock, List.mem_cons]
      simp [hne]
  · dsimp only at hgone ⊢
    cases hvalue : s.value k with
    | none => exact hs.free k hgone free hvalue
    | some j => exact hs.kept k hgone j hvalue

omit [DecidableEq κ] in
/-- The slot is found empty under its lock. -/
theorem Settled.holds (h : Settled t k ks s) (empty : s.value k = none) : Holds t (k :: ks) s := by
  refine ⟨h.lock, fun k' hk hgone => ?_⟩
  rcases List.mem_cons.mp hk with rfl | hk
  · exact ⟨empty, by rw [h.settled hgone, empty]; rfl⟩
  · exact h.empty k' hk hgone

omit [DecidableEq κ] in
/-- Nothing was made. -/
theorem Holds.settled (h : Holds t (k :: ks) s) : Settled t k ks s := by
  refine ⟨h.lock, fun k' hk => h.empty k' (List.mem_cons_of_mem _ hk), fun hgone => ?_⟩
  obtain ⟨hvalue, hmade⟩ := h.empty k List.mem_cons_self hgone
  rw [hvalue, hmade]
  rfl

theorem Holds.make (h : Holds t (k :: ks) s) (hk : k ∉ ks) :
    Pending t k i ks { s with made := Function.update s.made k (s.made k ++ [i]) } := by
  refine ⟨h.lock, fun k' hk' hgone => ?_, fun hgone => ?_⟩
  · have hne : k' ≠ k := fun he => hk (he ▸ hk')
    obtain ⟨hvalue, hmade⟩ := h.empty k' (List.mem_cons_of_mem _ hk') hgone
    exact ⟨hvalue, (Function.update_of_ne hne ..).trans hmade⟩
  · obtain ⟨hvalue, hmade⟩ := h.empty k List.mem_cons_self hgone
    refine ⟨hvalue, ?_⟩
    dsimp only
    rw [Function.update_self, hmade]
    rfl

theorem Pending.keep (h : Pending t k i ks s) (hk : k ∉ ks) :
    Settled t k ks { s with value := Function.update s.value k (some i) } := by
  refine ⟨h.lock, fun k' hk' hgone => ?_, fun hgone => ?_⟩
  · have hne : k' ≠ k := fun he => hk (he ▸ hk')
    obtain ⟨hvalue, hmade⟩ := h.empty k' hk' hgone
    exact ⟨(Function.update_of_ne hne ..).trans hvalue, hmade⟩
  · dsimp only
    rw [Function.update_self]
    exact (h.pending hgone).2

/-- The lock is given back. -/
theorem Settled.release (h : Settled t k ks s) (hk : k ∉ ks) :
    Holds t ks { s with lock := Function.update s.lock k none } := by
  refine ⟨fun k' => ?_, h.empty⟩
  dsimp only
  rcases eq_or_ne k' k with rfl | hne
  · simp [hk]
  · rw [Function.update_of_ne hne, h.lock, List.mem_cons]
    simp [hne]

omit [DecidableEq κ] in
/-- Slots are given up. -/
theorem Holds.leave (h : Holds t ks s) {gone : κ → Prop} (grows : ∀ k, s.gone k → gone k) :
    Holds t ks { s with gone := gone } :=
  ⟨h.lock, fun k hk hgone => h.empty k hk fun hs => hgone (grows k hs)⟩

omit [DecidableEq κ] in
/-- What was given up loses its value. -/
theorem Holds.forget (h : Holds t ks s) {value : κ → Option ι} (same : ∀ k, ¬ s.gone k → value k = s.value k) :
    Holds t ks { s with value := value } :=
  ⟨h.lock, fun k hk hgone => ⟨(same k hgone).trans (h.empty k hk hgone).1, (h.empty k hk hgone).2⟩⟩

end Knowledge

end Slots

/-! ## Waiting -/

section Waiting

variable {τ κ : Type}

/-- One task waits for a lock that another one holds. -/
def WaitsFor (asks : τ → κ → Prop) (holder : κ → Option τ) (t t' : τ) : Prop := ∃ k, asks t k ∧ holder k = some t'

variable {asks : τ → κ → Prop} {holder : κ → Option τ} {before : κ → κ → Prop}

/-- Along a chain of waiting tasks the locks ascend. -/
theorem ascends_of_waits (htrans : ∀ a b c, before a b → before b c → before a c)
    (horder : ∀ t k, asks t k → ∀ k', holder k' = some t → before k' k) {t t' : τ}
    (h : Relation.TransGen (WaitsFor asks holder) t t') {k : κ} (hk : asks t' k) : ∃ k₀, asks t k₀ ∧ before k₀ k := by
  induction h generalizing k with
  | single hstep =>
    obtain ⟨k₀, hasks, hholder⟩ := hstep
    exact ⟨k₀, hasks, horder _ k hk k₀ hholder⟩
  | tail _ hstep ih =>
    obtain ⟨k₁, hasks, hholder⟩ := hstep
    obtain ⟨k₀, hk₀, hbefore⟩ := ih hasks
    exact ⟨k₀, hk₀, htrans _ _ _ hbefore (horder _ k hk k₁ hholder)⟩

/-- **No circle.**  Tasks that ask for a lock only after all that they hold never wait for each other in a circle. -/
theorem not_waits_circle (htrans : ∀ a b c, before a b → before b c → before a c) (hirrefl : ∀ a, ¬ before a a)
    (hunique : ∀ t k k', asks t k → asks t k' → k = k')
    (horder : ∀ t k, asks t k → ∀ k', holder k' = some t → before k' k) (t : τ) :
    ¬ Relation.TransGen (WaitsFor asks holder) t t := by
  intro h
  obtain ⟨_, ⟨k, hk, -⟩, -⟩ := Relation.TransGen.head'_iff.mp h
  obtain ⟨k₀, hk₀, hbefore⟩ := ascends_of_waits htrans horder h hk
  rw [hunique t k₀ k hk₀ hk] at hbefore
  exact hirrefl k hbefore

end Waiting

end Xyberos
