import Xyberos.Runtime.Dependencies
import Mathlib.Data.List.Chain

/-!
# Xyberos.Runtime.ProviderGraph — `validate` is sound and complete

A provider graph is valid when every dependency is provided, by a provider that does not live shorter, and no
contract depends on itself through others.  `Search.Sound` is the invariant of the depth-first search: what is
ordered is finished, and the active contracts are a chain of dependencies.  Every error then carries a genuine path
(`Genuine`), and a search that ends has listed every provider after its dependencies (`validate_correct`).
-/

set_option autoImplicit false

namespace Xyberos.Runtime

variable {κ : Type} [DecidableEq κ] {r : ProviderRegistry κ} {name : κ → String}

/-! ## What a valid graph is -/

namespace ProviderRegistry

/-- The contracts that a contract depends on. -/
def requires (r : ProviderRegistry κ) (c : κ) : List κ :=
  match r.get c with
  | some provider => provider.dependencies.map Dependency.contract
  | none => []

/-- A declared dependency. -/
def DependsOn (r : ProviderRegistry κ) (c d : κ) : Prop := d ∈ r.requires c

/-- The dependencies of a contract are provided, and none of the providers lives shorter. -/
def Fits (r : ProviderRegistry κ) (c : κ) : Prop :=
  ∀ p ∈ r.get c, ∀ d, r.DependsOn c d → ∃ q, r.get d = some q ∧ ¬ p.scope.Outlives q.scope

/-- Every dependency is provided, the dependencies are acyclic, and no provider depends on one that lives shorter. -/
structure Valid (r : ProviderRegistry κ) : Prop where
  provided : ∀ c d, r.DependsOn c d → ∃ q, r.get d = some q
  acyclic : ∀ c, ¬ Relation.TransGen r.DependsOn c c
  fits : ∀ c d p q, r.DependsOn c d → r.get c = some p → r.get d = some q → ¬ p.scope.Outlives q.scope

/-- Every registered provider exactly once, each after all its dependencies. -/
structure Lists (r : ProviderRegistry κ) (ordered : List (Provider κ)) : Prop where
  nodup : (ordered.map Provider.contract).Nodup
  mem_iff : ∀ p, p ∈ ordered ↔ r.get p.contract = some p
  ordered : Ordered r.requires (ordered.map Provider.contract)

/-- Consecutive contracts are declared dependencies, and the last contract is the first. -/
def IsCycle (r : ProviderRegistry κ) (path : List κ) : Prop :=
  path.IsChain r.DependsOn ∧ ∃ c chain, path = c :: (chain ++ [c])

/-- An error of the graph whose path is real. -/
inductive Genuine (r : ProviderRegistry κ) : DependencyError κ → Prop
  | cycle {message : String} {path : List κ} (h : r.IsCycle path) : Genuine r (dependencyCycleError message path)
  | missing {message : String} {chain : List κ} {c d : κ} (h : (chain ++ [c, d]).IsChain r.DependsOn)
      (hd : r.get d = none) : Genuine r (missingProviderError message (chain ++ [c, d]))
  | scope {message : String} {chain : List κ} {c d : κ} {p q : Provider κ}
      (h : (chain ++ [c, d]).IsChain r.DependsOn) (hp : r.get c = some p) (hq : r.get d = some q)
      (hs : p.scope.Outlives q.scope) : Genuine r (scopeViolationError message (chain ++ [c, d]))

section Valid

theorem mem_sorted {p : Provider κ} : p ∈ r.sorted ↔ r.get p.contract = some p := by
  unfold sorted get
  rw [List.mem_insertionSort, List.mem_map]
  constructor
  · rintro ⟨⟨k, p'⟩, hmem, rfl⟩
    have hget : r.providers.get? k = some p' := Table.get?_eq_some_iff.mpr hmem
    rw [r.keyed k p' hget]
    exact hget
  · intro h
    exact ⟨(p.contract, p), Table.get?_eq_some_iff.mp h, rfl⟩

theorem dependsOn_iff {c d : κ} {p : Provider κ} (h : r.get c = some p) :
    r.DependsOn c d ↔ d ∈ p.dependencies.map Dependency.contract := by
  unfold DependsOn requires
  rw [h]

theorem exists_of_dependsOn {c d : κ} (h : r.DependsOn c d) : ∃ p, r.get c = some p := by
  unfold DependsOn requires at h
  cases hp : r.get c with
  | some p => exact ⟨p, rfl⟩
  | none =>
    rw [hp] at h
    cases h

/-- The end of a chain is a dependency. -/
theorem dependsOn_of_isChain {chain : List κ} {c d : κ} (h : (chain ++ [c, d]).IsChain r.DependsOn) :
    r.DependsOn c d :=
  (List.isChain_append_cons_cons.mp h).2.1

/-- A genuine error is the error of a graph that is not valid. -/
theorem Genuine.not_valid {e : DependencyError κ} (h : r.Genuine e) : ¬ r.Valid := by
  intro hv
  cases h with
  | cycle h =>
    obtain ⟨hchain, c, chain, rfl⟩ := h
    exact hv.acyclic c (transGen_of_isChain hchain)
  | missing h hd =>
    obtain ⟨q, hq⟩ := hv.provided _ _ (dependsOn_of_isChain h)
    cases hd.symm.trans hq
  | scope h hp hq hs => exact hv.fits _ _ _ _ (dependsOn_of_isChain h) hp hq hs

/-- A graph whose providers are listed after their dependencies is valid, if they fit. -/
theorem Lists.valid {ordered : List (Provider κ)} (h : r.Lists ordered)
    (hf : ∀ c ∈ ordered.map Provider.contract, r.Fits c) : r.Valid := by
  have hmem : ∀ {c p}, r.get c = some p → c ∈ ordered.map Provider.contract := by
    intro c p hp
    have hc : p.contract = c := r.keyed c p hp
    exact List.mem_map.mpr ⟨p, (h.mem_iff p).mpr (hc ▸ hp), hc⟩
  refine ⟨fun c d hd => ?_, fun c hc => ?_, fun c d p q hd hp hq => ?_⟩
  · obtain ⟨p, hp⟩ := exists_of_dependsOn hd
    obtain ⟨q, hq, -⟩ := hf c (hmem hp) p hp d hd
    exact ⟨q, hq⟩
  · obtain ⟨d, hd, -⟩ := Relation.TransGen.head'_iff.mp hc
    obtain ⟨p, hp⟩ := exists_of_dependsOn hd
    exact h.ordered.not_transGen (hmem hp) hc
  · obtain ⟨q', hq', hs⟩ := hf c (hmem hp) p hp d hd
    cases hq.symm.trans hq'
    exact hs

end Valid

end ProviderRegistry

open ProviderRegistry

/-! ## The search -/

/-- The invariant of the search. -/
structure Search.Sound (r : ProviderRegistry κ) (s : Search κ) : Prop where
  registered : ∀ p ∈ s.ordered, r.get p.contract = some p
  fits : ∀ c ∈ s.ordered.map Provider.contract, r.Fits c
  ordered : Ordered r.requires (s.ordered.map Provider.contract)
  visited : ∀ c, c ∈ s.visited ↔ c ∈ s.ordered.map Provider.contract
  nodup : (s.ordered.map Provider.contract ++ s.active).Nodup
  chain : s.active.IsChain r.DependsOn
  active : ∀ c ∈ s.active, ∃ p, r.get c = some p

/-- What a part of the search does: it visits more, and leaves the active path as it was. -/
structure Search.After (r : ProviderRegistry κ) (s s' : Search κ) : Prop where
  sound : s'.Sound r
  active : s'.active = s.active
  visited : ∀ c ∈ s.visited, c ∈ s'.visited

/-- A part of the search that is to visit the contracts in `cs`: it does, or it raises a genuine error. -/
def Visits (r : ProviderRegistry κ) (s : Search κ) (cs : List κ) : Except (DependencyError κ) (Search κ) → Prop
  | .ok s' => s.After r s' ∧ ∀ c ∈ cs, c ∈ s'.visited
  | .error e => r.Genuine e

namespace Search

variable {s s' s'' : Search κ}

theorem Sound.after_refl (h : s.Sound r) : s.After r s := ⟨h, rfl, fun _ hc => hc⟩

theorem After.trans (h : s.After r s') (h' : s'.After r s'') : s.After r s'' :=
  ⟨h'.sound, h'.active.trans h.active, fun c hc => h'.visited c (h.visited c hc)⟩

/-- The active path is no longer than there are providers. -/
theorem Sound.length_active (h : s.Sound r) : s.active.length ≤ r.providers.rows.length := by
  have hnodup : s.active.Nodup := (List.nodup_append.mp h.nodup).2.1
  have hsub : s.active ⊆ r.providers.rows.map Prod.fst := by
    intro c hc
    obtain ⟨p, hp⟩ := h.active c hc
    exact List.mem_map.mpr ⟨(c, p), Table.get?_eq_some_iff.mp hp, rfl⟩
  have hle := (List.subperm_of_subset hnodup hsub).length_le
  rwa [List.length_map] at hle

/-- A contract goes onto the active path. -/
theorem Sound.push (h : s.Sound r) {c : κ} {p : Provider κ} (hc : r.get c = some p) (hv : c ∉ s.visited)
    (ha : c ∉ s.active) (hchain : (s.active ++ [c]).IsChain r.DependsOn) :
    Sound r { s with active := s.active ++ [c] } where
  registered := h.registered
  fits := h.fits
  ordered := h.ordered
  visited := h.visited
  nodup := by
    rw [← List.append_assoc, List.nodup_append]
    refine ⟨h.nodup, List.nodup_singleton c, fun a ha' b hb => ?_⟩
    obtain rfl := List.mem_singleton.mp hb
    rintro rfl
    rcases List.mem_append.mp ha' with ho | ha'
    · exact hv ((h.visited a).mpr ho)
    · exact ha ha'
  chain := hchain
  active := by
    intro d hd
    rcases List.mem_append.mp hd with hd | hd
    · exact h.active d hd
    · obtain rfl := List.mem_singleton.mp hd
      exact ⟨p, hc⟩

/-- Its dependencies visited, the contract at the end of the active path is finished. -/
theorem Sound.pop (h : s.Sound r) {c : κ} {p : Provider κ} {active : List κ} (hc : r.get c = some p)
    (ha : s.active = active ++ [c]) (hv : ∀ d, r.DependsOn c d → d ∈ s.visited) (hf : r.Fits c) :
    Sound r ⟨c :: s.visited, active, s.ordered ++ [p]⟩ := by
  have hkey : p.contract = c := r.keyed c p hc
  have hmap : (s.ordered ++ [p]).map Provider.contract = s.ordered.map Provider.contract ++ [c] := by
    rw [List.map_append, List.map_singleton, hkey]
  have hchain := h.chain
  have hactive := h.active
  have hnodup := h.nodup
  rw [ha] at hchain hactive hnodup
  refine ⟨fun q hq => ?_, ?_, ?_, fun d => ?_, ?_, hchain.left_of_append, fun d hd => ?_⟩
  · rcases List.mem_append.mp hq with hq | hq
    · exact h.registered q hq
    · obtain rfl := List.mem_singleton.mp hq
      exact hkey ▸ hc
  · show ∀ d ∈ (s.ordered ++ [p]).map Provider.contract, r.Fits d
    rw [hmap]
    intro d hd
    rcases List.mem_append.mp hd with hd | hd
    · exact h.fits d hd
    · exact List.mem_singleton.mp hd ▸ hf
  · show Ordered r.requires ((s.ordered ++ [p]).map Provider.contract)
    rw [hmap]
    exact h.ordered.concat fun d hd => (h.visited d).mp (hv d hd)
  · show d ∈ c :: s.visited ↔ d ∈ (s.ordered ++ [p]).map Provider.contract
    rw [hmap, List.mem_cons, List.mem_append, List.mem_singleton, h.visited d, or_comm]
  · show ((s.ordered ++ [p]).map Provider.contract ++ active).Nodup
    rw [hmap]
    have hperm : List.Perm (s.ordered.map Provider.contract ++ (active ++ [c]))
        (s.ordered.map Provider.contract ++ [c] ++ active) := by
      rw [List.append_assoc]
      exact List.perm_append_comm.append_left _
    exact hperm.nodup_iff.mp hnodup
  · exact hactive d (List.mem_append_left _ hd)

end Search

/-- A contract that is active again closes a cycle. -/
theorem isCycle_drop {active : List κ} {c : κ} (h : (active ++ [c]).IsChain r.DependsOn) (hc : c ∈ active) :
    r.IsCycle (active.drop (active.idxOf c) ++ [c]) := by
  obtain ⟨pre, post, rfl, hpre⟩ := List.eq_append_cons_of_mem hc
  have hdrop : (pre ++ c :: post).drop ((pre ++ c :: post).idxOf c) = c :: post := by
    rw [List.idxOf_append_of_notMem hpre, List.idxOf_cons_self, Nat.add_zero, List.drop_left]
  rw [hdrop]
  refine ⟨?_, c, post, rfl⟩
  rw [List.append_assoc] at h
  exact h.right_of_append

section Specs

variable {s : Search κ}

/-- The loop over the dependencies of the provider at the end of the active path. -/
theorem visitDependencies_spec (name : κ → String) {p : Provider κ} {active : List κ}
    {visit : κ → Search κ → Except (DependencyError κ) (Search κ)}
    (hp : r.get p.contract = some p)
    (hvisit : ∀ c s, Search.Sound r s → s.active = active ++ [p.contract] →
      (s.active ++ [c]).IsChain r.DependsOn → Visits r s [c] (visit c s))
    (ds : List (Dependency κ)) (hds : ∀ d ∈ ds, d ∈ p.dependencies) (hs : s.Sound r)
    (ha : s.active = active ++ [p.contract]) :
    Visits r s (ds.map Dependency.contract) (visitDependencies r name p visit ds s) ∧
      ∀ s', visitDependencies r name p visit ds s = .ok s' →
        ∀ d ∈ ds.map Dependency.contract, ∃ q, r.get d = some q ∧ ¬ p.scope.Outlives q.scope := by
  induction ds generalizing s with
  | nil =>
    refine ⟨⟨hs.after_refl, fun c hc => by cases hc⟩, fun _ _ d hd => by cases hd⟩
  | cons d ds ih =>
    have hdep : r.DependsOn p.contract d.contract :=
      (dependsOn_iff hp).mpr (List.mem_map_of_mem (hds d List.mem_cons_self))
    have hchain : (s.active ++ [d.contract]).IsChain r.DependsOn := by
      have hs := hs.chain
      rw [ha] at hs ⊢
      rw [List.append_assoc]
      exact List.isChain_append_cons_cons.mpr ⟨hs, hdep, List.isChain_singleton _⟩
    have hpath : s.active ++ [d.contract] = active ++ [p.contract, d.contract] := by
      rw [ha, List.append_assoc]
      rfl
    unfold visitDependencies
    dsimp only
    cases hq : r.get d.contract with
    | none =>
      refine ⟨?_, fun _ h => by cases h⟩
      dsimp only [Visits]
      rw [hpath] at hchain ⊢
      exact .missing hchain hq
    | some q =>
      dsimp only
      by_cases hscope : q.scope.rank < p.scope.rank
      · rw [if_pos hscope]
        refine ⟨?_, fun _ h => by cases h⟩
        dsimp only [Visits]
        rw [hpath] at hchain ⊢
        exact .scope hchain hp hq (Scope.outlives_iff.mpr hscope)
      · rw [if_neg hscope]
        have hv := hvisit d.contract s hs ha hchain
        cases hr : visit d.contract s with
        | error e =>
          rw [hr] at hv
          exact ⟨hv, fun _ h => by cases h⟩
        | ok s₁ =>
          rw [hr] at hv
          obtain ⟨hafter, hmem⟩ := hv
          have ih := ih (fun d' hd' => hds d' (List.mem_cons_of_mem _ hd')) hafter.sound (hafter.active.trans ha)
          refine ⟨?_, fun s' hs' d' hd' => ?_⟩
          · dsimp only
            cases hrest : visitDependencies r name p visit ds s₁ with
            | error e =>
              rw [hrest] at ih
              exact ih.1
            | ok s₂ =>
              rw [hrest] at ih
              obtain ⟨⟨hafter', hmem'⟩, -⟩ := ih
              refine ⟨hafter.trans hafter', fun c hc => ?_⟩
              rcases List.mem_cons.mp hc with rfl | hc
              · exact hafter'.visited _ (hmem _ (List.mem_singleton_self _))
              · exact hmem' c hc
          · rcases List.mem_cons.mp hd' with rfl | hd'
            · exact ⟨q, hq, fun ho => hscope (Scope.outlives_iff.mp ho)⟩
            · exact ih.2 s' hs' d' hd'

/-- **One visit.**  The depth that is left is enough for the providers that are not active. -/
theorem visit_spec (depth : ℕ) (c : κ) (hs : s.Sound r) (hchain : (s.active ++ [c]).IsChain r.DependsOn)
    (hroot : s.active = [] → ∃ p, r.get c = some p)
    (hdepth : r.providers.rows.length + 1 ≤ depth + s.active.length) :
    Visits r s [c] (visit r name depth c s) := by
  induction depth generalizing c s with
  | zero =>
    have := hs.length_active
    omega
  | succ depth ih =>
    unfold visit
    by_cases hv : c ∈ s.visited
    · rw [if_pos hv]
      exact ⟨hs.after_refl, fun d hd => List.mem_singleton.mp hd ▸ hv⟩
    rw [if_neg hv]
    by_cases ha : c ∈ s.active
    · rw [if_pos ha]
      exact .cycle (isCycle_drop hchain ha)
    rw [if_neg ha]
    cases hc : r.get c with
    | none =>
      dsimp only [Visits]
      -- the contract is not the first of the path
      rcases List.eq_nil_or_concat s.active with hnil | ⟨pre, a, hactive⟩
      · obtain ⟨p, hp⟩ := hroot hnil
        cases hc.symm.trans hp
      · have hpath : s.active ++ [c] = pre ++ [a, c] := by
          rw [hactive, List.concat_eq_append, List.append_assoc]
          rfl
        rw [hpath] at hchain ⊢
        exact .missing hchain hc
    | some p =>
      have hkey : p.contract = c := r.keyed c p hc
      have hpush := hs.push hc hv ha hchain
      dsimp only
      have hvisit : ∀ d s', Search.Sound r s' → s'.active = s.active ++ [p.contract] →
          (s'.active ++ [d]).IsChain r.DependsOn → Visits r s' [d] (visit r name depth d s') := by
        intro d s' hs' ha' hchain'
        refine ih d hs' hchain' (fun hnil => ?_) ?_
        · rw [ha'] at hnil
          simp at hnil
        · rw [ha', List.length_append, List.length_singleton]
          omega
      have hloop := visitDependencies_spec name (hkey.symm ▸ hc) hvisit p.dependencies (fun d hd => hd) hpush
        (by rw [hkey])
      cases hr : visitDependencies r name p (visit r name depth) p.dependencies
          { s with active := s.active ++ [c] } with
      | error e =>
        rw [hr] at hloop
        exact hloop.1
      | ok s' =>
        rw [hr] at hloop
        obtain ⟨⟨hafter, hmem⟩, hfit⟩ := hloop
        have hactive : s'.active = s.active ++ [c] := hafter.active
        dsimp only
        rw [hactive, List.dropLast_concat]
        have hdeps : ∀ d, r.DependsOn c d → d ∈ p.dependencies.map Dependency.contract :=
          fun d hd => (dependsOn_iff hc).mp hd
        have hfits : r.Fits c := by
          intro p' hp' d hd
          cases hc.symm.trans hp'
          exact hfit s' rfl d (hdeps d hd)
        have hpop := hafter.sound.pop hc hactive (fun d hd => hmem d (hdeps d hd)) hfits
        refine ⟨⟨hpop, rfl, fun d hd => ?_⟩, fun d hd => ?_⟩
        · exact List.mem_cons_of_mem _ (hafter.visited d hd)
        · obtain rfl := List.mem_singleton.mp hd
          exact List.mem_cons_self

theorem visitAll_spec (ps : List (Provider κ)) (hps : ∀ p ∈ ps, r.get p.contract = some p) (hs : s.Sound r)
    (ha : s.active = []) :
    Visits r s (ps.map Provider.contract) (visitAll r name (r.providers.rows.length + 1) ps s) := by
  induction ps generalizing s with
  | nil => exact ⟨hs.after_refl, fun c hc => by cases hc⟩
  | cons p ps ih =>
    unfold visitAll
    have hv : Visits r s [p.contract] (visit r name (r.providers.rows.length + 1) p.contract s) :=
      visit_spec _ _ hs (by rw [ha]; exact List.isChain_singleton _) (fun _ => ⟨p, hps p List.mem_cons_self⟩) (by omega)
    cases hr : visit r name (r.providers.rows.length + 1) p.contract s with
    | error e =>
      rw [hr] at hv
      exact hv
    | ok s₁ =>
      rw [hr] at hv
      obtain ⟨hafter, hmem⟩ := hv
      have ih := ih (fun p' hp' => hps p' (List.mem_cons_of_mem _ hp')) hafter.sound (hafter.active.trans ha)
      dsimp only
      cases hrest : visitAll r name (r.providers.rows.length + 1) ps s₁ with
      | error e =>
        rw [hrest] at ih
        exact ih
      | ok s₂ =>
        rw [hrest] at ih
        refine ⟨hafter.trans ih.1, fun c hc => ?_⟩
        rcases List.mem_cons.mp hc with rfl | hc
        · exact ih.1.visited _ (hmem _ (List.mem_singleton_self _))
        · exact ih.2 c hc

end Specs

/-- **Validation.**  `validate` returns exactly for a valid graph, with every provider once and after its dependencies;
every error carries a genuine path. -/
theorem validate_correct (r : ProviderRegistry κ) (name : κ → String) :
    ((∃ ordered, r.validate name = .ok ordered) ↔ r.Valid) ∧
      (∀ ordered, r.validate name = .ok ordered → r.Lists ordered) ∧
      ∀ e, r.validate name = .error e → r.Genuine e := by
  have hstart : Search.Sound r {} :=
    ⟨by simp, by simp, .nil, by simp, by simp, List.isChain_nil, by simp⟩
  have hall : Visits r {} (r.sorted.map Provider.contract)
      (visitAll r name (r.providers.rows.length + 1) r.sorted {}) :=
    visitAll_spec r.sorted (fun p hp => mem_sorted.mp hp) hstart rfl
  have hok : ∀ ordered, r.validate name = .ok ordered →
      r.Lists ordered ∧ ∀ c ∈ ordered.map Provider.contract, r.Fits c := by
    intro ordered h
    unfold ProviderRegistry.validate at h
    cases hr : visitAll r name (r.providers.rows.length + 1) r.sorted {} with
    | error e =>
      rw [hr] at h
      cases h
    | ok s =>
      rw [hr] at h hall
      cases h
      obtain ⟨hafter, hmem⟩ := hall
      have hsound := hafter.sound
      refine ⟨⟨(List.nodup_append.mp hsound.nodup).1, fun p => ⟨hsound.registered p, fun hp => ?_⟩, hsound.ordered⟩,
        hsound.fits⟩
      have hp' := (hsound.visited _).mp (hmem _ (List.mem_map_of_mem (mem_sorted.mpr hp)))
      obtain ⟨q, hq, hkey⟩ := List.mem_map.mp hp'
      have hget := hsound.registered q hq
      rw [hkey, hp] at hget
      exact (Option.some.inj hget) ▸ hq
  have herror : ∀ e, r.validate name = .error e → r.Genuine e := by
    intro e h
    unfold ProviderRegistry.validate at h
    cases hr : visitAll r name (r.providers.rows.length + 1) r.sorted {} with
    | error e' =>
      rw [hr] at h hall
      cases h
      exact hall
    | ok s =>
      rw [hr] at h
      cases h
  refine ⟨⟨?_, fun hv => ?_⟩, fun ordered h => (hok ordered h).1, herror⟩
  · rintro ⟨ordered, h⟩
    exact (hok ordered h).1.valid (hok ordered h).2
  · cases hr : r.validate name with
    | ok ordered => exact ⟨ordered, rfl⟩
    | error e => exact absurd hv (herror e hr).not_valid

end Xyberos.Runtime
