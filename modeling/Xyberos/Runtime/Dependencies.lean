import Xyberos.Base.Dag
import Xyberos.Base.Table
import Xyberos.Python
import Mathlib.Data.List.Sort
import Mathlib.Logic.Relation

/-!
# Xyberos.Runtime.Dependencies — provider registration and the validation of the provider graph

`runtime/dependencies.py`.  A contract is any hashable value; what a factory returns and how its annotated parameters
are found is not part of the model, so the dependencies of a provider are given.  The depth-first search of
`ProviderRegistry.validate` recurses along the active path, which repeats no provider; one level more than there are
providers is never reached.
-/

set_option autoImplicit false

namespace Xyberos.Runtime

/-! ## Providers -/

inductive Scope
  | app | request | transient
deriving DecidableEq, Repr

/-- `Scope.value`. -/
def Scope.value : Scope → String
  | app => "app"
  | request => "request"
  | transient => "transient"

/-- `_scope_rank`. -/
def Scope.rank : Scope → ℕ
  | app => 3
  | request => 2
  | transient => 1

/-- App outlives request outlives transient. -/
def Scope.Outlives (s t : Scope) : Prop := (s = app ∧ t ≠ app) ∨ (s = request ∧ t = transient)

theorem Scope.outlives_iff {s t : Scope} : s.Outlives t ↔ t.rank < s.rank := by
  cases s <;> cases t <;> simp [Outlives, rank]

/-- A dependency bound to a parameter of the factory. -/
structure Dependency (κ : Type) where
  parameter : String
  contract : κ

/-- A registration. -/
structure Provider (κ : Type) where
  contract : κ
  scope : Scope
  dependencies : List (Dependency κ)
  eager : Bool
  source : String
  order : ℕ

variable {κ : Type} [DecidableEq κ]

/-- The providers under their contracts. -/
structure ProviderRegistry (κ : Type) [DecidableEq κ] where
  providers : Table κ (Provider κ)
  frozen : Bool
  nextOrder : ℕ
  keyed : ∀ k p, providers.get? k = some p → p.contract = k

/-- The errors of the provider graph, with the path they carry. -/
structure DependencyError (κ : Type) where
  error : Exc
  path : List κ

def registrationError (message : String) : Exc := xyberosError "RegistrationError" [] message

def missingProviderError (message : String) (path : List κ) : DependencyError κ :=
  ⟨xyberosError "MissingProviderError" ["DependencyError"] message, path⟩

def dependencyCycleError (message : String) (path : List κ) : DependencyError κ :=
  ⟨xyberosError "DependencyCycleError" ["DependencyError"] message, path⟩

def scopeViolationError (message : String) (path : List κ) : DependencyError κ :=
  ⟨xyberosError "ScopeViolationError" ["DependencyError"] message, path⟩

/-- The stack is exhausted. -/
def recursionError : DependencyError κ := ⟨Xyberos.recursionError, []⟩

/-- `_format_path`; `name` is `_contract_name`. -/
def formatPath (name : κ → String) (path : List κ) : String := " -> ".intercalate (path.map name)

namespace ProviderRegistry

/-- `ProviderRegistry()`. -/
def empty : ProviderRegistry κ := ⟨.empty, false, 0, fun _ _ h => by cases h⟩

/-- `register`, with the dependencies found in the signature of the factory. -/
def register (r : ProviderRegistry κ) (name : κ → String) (contract : κ) (scope : Scope)
    (dependencies : List (Dependency κ)) (eager replace : Bool) (source : String) :
    Except Exc (ProviderRegistry κ) :=
  if r.frozen then .error (registrationError "provider registrations are frozen after application startup")
  else if eager ∧ scope ≠ .app then .error (registrationError "only app-scoped providers may be eager")
  else if (r.providers.get? contract).isSome ∧ replace = false then
    .error (registrationError (s!"a provider is already registered for {name contract}; " ++
      "use an explicit replacement for tests or configuration"))
  else
    let provider : Provider κ := ⟨contract, scope, dependencies, eager, source, r.nextOrder⟩
    .ok {
      providers := r.providers.upsert contract provider fun _ => provider
      frozen := r.frozen
      nextOrder := r.nextOrder + 1
      keyed := by
        intro k p h
        rw [Table.get?_upsert] at h
        split_ifs at h with hk
        · have hp : p = provider := by
            cases hget : r.providers.get? contract <;> rw [hget] at h <;> exact (Option.some.inj h).symm
          rw [hp, hk]
        · exact r.keyed k p h }

/-- `get`. -/
def get (r : ProviderRegistry κ) (contract : κ) : Option (Provider κ) := r.providers.get? contract

/-- `require`. -/
def require (r : ProviderRegistry κ) (name : κ → String) (contract : κ) : Except (DependencyError κ) (Provider κ) :=
  match r.get contract with
  | some provider => .ok provider
  | none => .error (missingProviderError s!"no provider is registered for {name contract}" [])

/-- `freeze`. -/
def freeze (r : ProviderRegistry κ) : ProviderRegistry κ := { r with frozen := true }

/-- `clone`. -/
def clone (r : ProviderRegistry κ) : ProviderRegistry κ := { r with frozen := false }

/-- `sorted(self._providers.values(), key=lambda item: item.order)`. -/
def sorted (r : ProviderRegistry κ) : List (Provider κ) :=
  (r.providers.rows.map Prod.snd).insertionSort fun a b => a.order ≤ b.order

end ProviderRegistry

/-! ## `validate` -/

/-- The local variables of `validate`. -/
structure Search (κ : Type) where
  visited : List κ := []
  active : List κ := []
  ordered : List (Provider κ) := []

/-- The loop of `visit` over the dependencies of a provider; `visit` is the recursive call. -/
def visitDependencies (r : ProviderRegistry κ) (name : κ → String) (provider : Provider κ)
    (visit : κ → Search κ → Except (DependencyError κ) (Search κ)) :
    List (Dependency κ) → Search κ → Except (DependencyError κ) (Search κ)
  | [], s => .ok s
  | dependency :: dependencies, s =>
    let path := s.active ++ [dependency.contract]
    match r.get dependency.contract with
    | none => .error (missingProviderError (s!"no provider is registered for {name dependency.contract}; " ++
        s!"required by {formatPath name s.active}") path)
    | some dependencyProvider =>
      if dependencyProvider.scope.rank < provider.scope.rank then
        .error (scopeViolationError (s!"{provider.scope.value}-scoped {name provider.contract} cannot " ++
          s!"depend on shorter-lived {dependencyProvider.scope.value}-scoped " ++ name dependency.contract) path)
      else
        match visit dependency.contract s with
        | .error e => .error e
        | .ok s' => visitDependencies r name provider visit dependencies s'

/-- `visit`. -/
def visit (r : ProviderRegistry κ) (name : κ → String) : ℕ → κ → Search κ → Except (DependencyError κ) (Search κ)
  | 0, _, _ => .error recursionError
  | depth + 1, contract, s =>
    if contract ∈ s.visited then .ok s
    else if contract ∈ s.active then
      let cycle := s.active.drop (s.active.idxOf contract) ++ [contract]
      .error (dependencyCycleError s!"dependency cycle detected: {formatPath name cycle}" cycle)
    else
      match r.get contract with
      | none =>
        let path := s.active ++ [contract]
        .error (missingProviderError (s!"no provider is registered for {name contract}; " ++
          s!"required by {formatPath name path.dropLast}") path)
      | some provider =>
        match visitDependencies r name provider (visit r name depth) provider.dependencies
          { s with active := s.active ++ [contract] } with
        | .error e => .error e
        | .ok s' => .ok ⟨contract :: s'.visited, s'.active.dropLast, s'.ordered ++ [provider]⟩

/-- The loop of `validate`. -/
def visitAll (r : ProviderRegistry κ) (name : κ → String) (depth : ℕ) :
    List (Provider κ) → Search κ → Except (DependencyError κ) (Search κ)
  | [], s => .ok s
  | provider :: providers, s =>
    match visit r name depth provider.contract s with
    | .error e => .error e
    | .ok s' => visitAll r name depth providers s'

/-- `validate`. -/
def ProviderRegistry.validate (r : ProviderRegistry κ) (name : κ → String) :
    Except (DependencyError κ) (List (Provider κ)) :=
  (visitAll r name (r.providers.rows.length + 1) r.sorted {}).map Search.ordered

end Xyberos.Runtime
