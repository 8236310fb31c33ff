import Xyberos.Base.Proc
import Xyberos.Runtime.Dependencies

/-!
# Xyberos.Runtime.App — an application: its lifecycle, its plugins and its instances

`app.py` and `plugins/registry.py`.  A call of the application is a coroutine.  Between two suspensions it acts on the
state of the application (`Act`); it is suspended in the hooks of plugins, in factories and close hooks, at locks, and
while `stop` waits for the open request contexts.  What is composed before the start, registrations and settings, does
not change any more.  An application and each of its request contexts own instances in the same way (`Holdings`).

`_close_owned` takes the resources of an owner one by one, at most one for every contract; one step more than there
are providers is never reached.
-/

set_option autoImplicit false

namespace Xyberos.Runtime

/-! ## States -/

inductive LifecycleState
  | new | validated | starting | ready | stopping | stopped | failed
deriving DecidableEq, Repr

/-- `LifecycleState.value`. -/
def LifecycleState.value : LifecycleState → String
  | new => "new"
  | validated => "validated"
  | starting => "starting"
  | ready => "ready"
  | stopping => "stopping"
  | stopped => "stopped"
  | failed => "failed"

inductive PluginState
  | registered | started | stopped | failed
deriving DecidableEq, Repr

/-- Who owns instances: the application, or one of its request contexts. -/
inductive Owner
  | app
  | request (id : ℕ)
deriving DecidableEq, Repr

/-- `_instances`, `_locks` and `_owned`; a lock names the task that holds it. -/
structure Holdings (κ ι : Type) where
  instances : κ → Option ι := fun _ => none
  locks : κ → Option ℕ := fun _ => none
  owned : List (Provider κ × ι) := []

/-- The mutable part of an application and of its request contexts. -/
structure App (κ ι : Type) where
  state : LifecycleState := .new
  validatedPlan : Option (List (Provider κ)) := none
  frozen : Bool := false
  plugins : Table String PluginState
  holdings : Owner → Holdings κ ι := fun _ => {}
  /-- the request contexts that were created -/
  requests : ℕ := 0
  activeRequests : List ℕ := []
  closedRequests : List ℕ := []
  lifecycleLock : Option ℕ := none

/-- An exception, with the path that the errors of the provider graph carry. -/
abbrev Failure (κ : Type) := DependencyError κ

/-- An exception without a path. -/
def failure {κ : Type} (e : Exc) : Failure κ := ⟨e, []⟩

variable {κ ι : Type} [DecidableEq κ]

/-- What an application is composed of before it starts, and what Python knows about its objects. -/
structure Composition (κ ι : Type) [DecidableEq κ] where
  registry : ProviderRegistry κ
  /-- `settings.app.shutdown_timeout`, as it is printed -/
  shutdownTimeout : Option String := none
  /-- `_contract_name` -/
  contractName : κ → String
  /-- `type(instance).__name__` -/
  typeName : ι → String
  /-- the test of `_validate_instance` -/
  validInstance : Provider κ → ι → Bool
  /-- `_needs_cleanup` -/
  needsCleanup : Provider κ → ι → Bool

/-! ## What the code does between two suspensions -/

inductive Act (κ ι : Type) : Type
  | state
  | goto (state : LifecycleState)
  | validatedPlan
  | freeze
  /-- `instances.get(contract)` -/
  | find (o : Owner) (contract : κ)
  /-- `instances[contract] = instance`, and `owned.append` when `_needs_cleanup` -/
  | keep (o : Owner) (provider : Provider κ) (instance_ : ι)
  | unlock (o : Owner) (contract : κ)
  /-- `owned.pop()`, unless it is empty -/
  | pop (o : Owner)
  /-- `instances.clear()` -/
  | clear (o : Owner)
  | pluginNames
  | pluginState (name : String)
  | mark (name : String) (state : PluginState)
  | openRequest
  | isClosed (id : ℕ)
  | setClosed (id : ℕ)
  | discard (id : ℕ)
  /-- `len(self._active_requests)` -/
  | active
  | unlockLifecycle

abbrev Act.Reply : Act κ ι → Type
  | .state => LifecycleState
  | .goto _ => Unit
  | .validatedPlan => Option (List (Provider κ))
  | .freeze => Unit
  | .find _ _ => Option ι
  | .keep _ _ _ => Unit
  | .unlock _ _ => Unit
  | .pop _ => Option (Provider κ × ι)
  | .clear _ => Unit
  | .pluginNames => List String
  | .pluginState _ => Option PluginState
  | .mark _ _ => Unit
  | .openRequest => ℕ
  | .isClosed _ => Bool
  | .setClosed _ => Unit
  | .discard _ => Unit
  | .active => ℕ
  | .unlockLifecycle => Unit

/-- What a coroutine asks for. -/
inductive Request (κ ι : Type)
  | act (a : Act κ ι)
  /-- `async with self._lifecycle_lock` -/
  | lockLifecycle
  /-- `async with` the lock of a contract -/
  | lock (o : Owner) (contract : κ)
  | factory (provider : Provider κ) (arguments : List (String × ι))
  /-- the close hook of an instance, called for its owner or because the instance is rejected -/
  | close (by_ : Option Owner) (provider : Provider κ) (instance_ : ι)
  | startPlugin (name : String)
  | stopPlugin (name : String)
  /-- the wait for `_no_active_requests` -/
  | drained

abbrev Request.Reply : Request κ ι → Type
  | .act a => a.Reply
  | .lockLifecycle => Unit
  | .lock _ _ => Unit
  | .factory _ _ => ι
  | .close _ _ _ => Unit
  | .startPlugin _ => Unit
  | .stopPlugin _ => Unit
  | .drained => Unit

abbrev Coroutine (κ ι α : Type) := Proc (Request κ ι) Request.Reply (Failure κ) α

def act (a : Act κ ι) : Coroutine κ ι a.Reply := Proc.request (Request.act a)

def await (q : Request κ ι) : Coroutine κ ι q.Reply := Proc.request q

/-! ## Errors -/

def lifecycleError (message : String) : Failure κ := failure (xyberosError "LifecycleError" [] message)

def lifecycleStateError (message : String) : Failure κ :=
  failure (xyberosError "LifecycleStateError" ["LifecycleError"] message)

def dependencyResolutionError (message : String) (path : List κ) : Failure κ :=
  ⟨xyberosError "DependencyResolutionError" ["DependencyError"] message, path⟩

def pluginLifecycleError (message : String) : Failure κ :=
  failure (xyberosError "PluginLifecycleError" ["PluginError"] message)

/-- What failed to close or to stop, with its error. -/
abbrev Failures (κ : Type) := List (String × Failure κ)

def shutdownError (failures : Failures κ) : Failure κ :=
  let joined := textOr "unknown resource" (some (", ".intercalate (failures.map Prod.fst)))
  failure (xyberosError "ShutdownError" ["LifecycleError"] s!"{failures.length} shutdown problem(s): {joined}")

/-- `if failures: raise ShutdownError(failures)`, and `otherwise`. -/
def raiseShutdown (failures : Failures κ) (otherwise : Coroutine κ ι Unit) : Coroutine κ ι Unit :=
  if failures.isEmpty then otherwise else .raise (shutdownError failures)

/-- `_lifecycle_message`. -/
def lifecycleMessage (name phase : String) (error : Exc) (cleanup : Failures κ) : String :=
  let message := s!"plugin {reprStr name} failed during {phase}: {error.message}"
  let failed := ", ".intercalate (cleanup.map Prod.fst)
  if cleanup.isEmpty then message else message ++ s!" (cleanup also failed for: {failed})"

/-! ## Plugins -/

/-- `_stop_entries`. -/
def stopEntries : List String → Coroutine κ ι (Failures κ)
  | [] => pure []
  | name :: entries => do
    let state : Option PluginState ← act (.pluginState name)
    if state ≠ some .started then stopEntries entries
    else
      match ← (await (.stopPlugin name)).attempt with
      | .ok _ => do
        let _ ← act (.mark name .stopped)
        stopEntries entries
      | .error e => do
        let _ ← act (.mark name .failed)
        if e.error.isInstance "Exception" then do
          let failures ← stopEntries entries
          return (s!"plugin:{name}", e) :: failures
        else .raise e

/-- The loop of `start_all`; `started` lists the plugins started so far, the last one first. -/
def startEntries : List String → List String → Coroutine κ ι Unit
  | [], _ => pure ()
  | name :: entries, started => do
    match ← (await (.startPlugin name)).attempt with
    | .ok _ => do
      let _ ← act (.mark name .started)
      startEntries entries (name :: started)
    | .error e => do
      let cleanup ← stopEntries started
      if e.error.isInstance "Exception" then
        .raise (pluginLifecycleError (lifecycleMessage name "start" e.error cleanup))
      else .raise e

/-- `start_all`. -/
def startAll : Coroutine κ ι Unit := do
  let names : List String ← act .pluginNames
  startEntries names []

/-- `stop_all`. -/
def stopAll : Coroutine κ ι (Failures κ) := do
  let names : List String ← act .pluginNames
  stopEntries names.reverse

namespace Composition

variable (c : Composition κ ι)

/-! ## Instances -/

/-- `_close_resource`. -/
def closeResource (by_ : Option Owner) (provider : Provider κ) (instance_ : ι) : Coroutine κ ι Unit :=
  if c.needsCleanup provider instance_ then await (.close by_ provider instance_) else pure ()

/-- `_close_owned`. -/
def closeLoop (o : Owner) : ℕ → Coroutine κ ι (Failures κ)
  | 0 => .raise recursionError
  | n + 1 => do
    match ← act (.pop o) with
    | none => return []
    | some (provider, instance_) => do
      match ← (c.closeResource (some o) provider instance_).attempt with
      | .ok _ => closeLoop o n
      | .error e => do
        let failures ← closeLoop o n
        return (c.contractName provider.contract, e) :: failures

/-- One level more than there are providers. -/
def depth : ℕ := c.registry.providers.rows.length + 1

def closeOwned (o : Owner) : Coroutine κ ι (Failures κ) := c.closeLoop o c.depth

/-- Why an instance is rejected, if it is. -/
def rejection (provider : Provider κ) (instance_ : ι) (path : List κ) : Option (Failure κ) :=
  if c.validInstance provider instance_ = false then
    some (dependencyResolutionError
      s!"provider for {c.contractName provider.contract} returned {c.typeName instance_}" path)
  else if provider.scope = .transient ∧ c.needsCleanup provider instance_ then
    some (dependencyResolutionError (s!"transient {c.contractName provider.contract} returned a managed resource; " ++
      "use request or app scope instead") path)
  else none

/-- The arguments of a factory; `resolve` is the recursive call. -/
def resolveDependencies (resolve : κ → Coroutine κ ι ι) : List (Dependency κ) → Coroutine κ ι (List (String × ι))
  | [] => pure []
  | dependency :: dependencies => do
    let instance_ ← resolve dependency.contract
    let arguments ← resolveDependencies resolve dependencies
    return (dependency.parameter, instance_) :: arguments

/-- `_create_instance`. -/
def createInstance (resolve : κ → Coroutine κ ι ι) (provider : Provider κ) (path : List κ) : Coroutine κ ι ι := do
  let arguments ← resolveDependencies resolve provider.dependencies
  match ← (await (.factory provider arguments)).attempt with
  | .error e =>
    if e.error.isInstance "DependencyResolutionError" then .raise e
    else .raise (dependencyResolutionError
      s!"failed to construct {c.contractName provider.contract} from {provider.source}" path)
  | .ok instance_ =>
    match c.rejection provider instance_ path with
    | some e => do
      c.closeResource none provider instance_
      .raise e
    | none => return instance_

/-- The second look at the instances, under the lock. -/
def createHeld (create : Coroutine κ ι ι) (o : Owner) (provider : Provider κ) : Coroutine κ ι ι := do
  match ← act (.find o provider.contract) with
  | some existing => return existing
  | none => do
    let instance_ ← create
    let _ ← act (.keep o provider instance_)
    return instance_

/-- `_resolve_app_provider` and `_resolve_request_provider`; `create` creates the instance. -/
def resolveHeld (create : Coroutine κ ι ι) (o : Owner) (provider : Provider κ) : Coroutine κ ι ι := do
  match ← act (.find o provider.contract) with
  | some existing => return existing
  | none => do
    let _ ← await (.lock o provider.contract)
    (createHeld create o provider).finally' (act (.unlock o provider.contract))

/-- `_resolve`; it recurses along `path`. -/
def resolve (request : Option ℕ) : ℕ → List κ → κ → Coroutine κ ι ι
  | 0, _, _ => .raise recursionError
  | depth + 1, path, contract =>
    let currentPath := path ++ [contract]
    match c.registry.get contract with
    | none => .raise (missingProviderError s!"no provider is registered for {c.contractName contract}" currentPath)
    | some provider =>
      let create := c.createInstance (resolve request depth currentPath) provider currentPath
      match provider.scope, request with
      | .app, _ => resolveHeld create .app provider
      | .request, some id => resolveHeld create (.request id) provider
      | .request, none => .raise (dependencyResolutionError
          s!"request-scoped {c.contractName contract} requires an active request context" currentPath)
      | .transient, _ => create

/-! ## The lifecycle -/

/-- `_ensure_ready`. -/
def ensureReady (action : String) : Coroutine κ ι Unit := do
  let state : LifecycleState ← act .state
  if state = .ready then pure ()
  else .raise (lifecycleStateError s!"cannot {action} while application state is {reprStr state.value}")

/-- The loop of `start` over the plan. -/
def startEager : List (Provider κ) → Coroutine κ ι Unit
  | [] => pure ()
  | provider :: plan =>
    if provider.scope = .app ∧ provider.eager then do
      let _ ← c.resolve none c.depth [] provider.contract
      startEager plan
    else startEager plan

/-- `self._validated_plan or self._registry.validate()`. -/
def planOr : Option (List (Provider κ)) → Coroutine κ ι (List (Provider κ))
  | some (provider :: plan) => pure (provider :: plan)
  | _ => Proc.ofExcept (c.registry.validate c.contractName)

/-- The body of the `try` of `start`. -/
def startUp : Coroutine κ ι Unit := do
  let validated : Option (List (Provider κ)) ← act .validatedPlan
  let plan ← c.planOr validated
  let _ ← act .freeze
  c.startEager plan
  startAll

/-- `start`, the lifecycle lock held. -/
def startLocked : Coroutine κ ι Unit := do
  let state : LifecycleState ← act .state
  if state = .ready then pure ()
  else if state ≠ .new ∧ state ≠ .validated then
    .raise (lifecycleStateError s!"cannot start an application in {reprStr state.value} state")
  else do
    let _ ← act (.goto .starting)
    match ← c.startUp.attempt with
    | .error e => do
      let failures ← c.closeOwned .app
      let _ ← act (.clear .app)
      let _ ← act (.goto .failed)
      raiseShutdown failures (.raise e)
    | .ok _ => do
      let _ ← act (.goto .ready)
      pure ()

/-- `start`. -/
def start : Coroutine κ ι Unit := do
  let _ ← await .lockLifecycle
  c.startLocked.finally' (act .unlockLifecycle)

/-- The wait of `stop` for the request contexts. -/
def drain : Coroutine κ ι (Failures κ) := do
  match ← (await .drained).attempt with
  | .ok _ => return []
  | .error e =>
    if e.error.isInstance "TimeoutError" then do
      let active : ℕ ← act .active
      let timeout := c.shutdownTimeout.getD "None"
      return [(s!"{active} in-flight request context(s)", lifecycleError s!"shutdown timed out after {timeout}s")]
    else .raise e

/-- `stop` of an application that is ready. -/
def stopReady : Coroutine κ ι Unit := do
  let _ ← act (.goto .stopping)
  let late ← c.drain
  let plugins ← stopAll
  let resources ← c.closeOwned .app
  let _ ← act (.clear .app)
  let _ ← act (.goto .stopped)
  raiseShutdown (late ++ plugins ++ resources) (pure ())

/-- `stop`, the lifecycle lock held. -/
def stopLocked : Coroutine κ ι Unit := do
  let state : LifecycleState ← act .state
  if state = .stopped then pure ()
  else if state = .new ∨ state = .validated ∨ state = .failed then do
    let _ ← act (.goto .stopped)
    pure ()
  else if state ≠ .ready then
    .raise (lifecycleStateError s!"cannot stop an application in {reprStr state.value} state")
  else c.stopReady

/-- `stop`. -/
def stop : Coroutine κ ι Unit := do
  let _ ← await .lockLifecycle
  c.stopLocked.finally' (act .unlockLifecycle)

/-- `App.resolve`; `current` is the request context of the task, open or not. -/
def appResolve (current : Option ℕ) (contract : κ) : Coroutine κ ι ι := do
  ensureReady "resolve dependencies"
  c.resolve current c.depth [] contract

/-! ## Request contexts -/

/-- `request_context`, on the way in. -/
def enterRequest : Coroutine κ ι ℕ := do
  ensureReady "create a request context"
  act .openRequest

/-- `RequestContext.resolve`. -/
def requestResolve (id : ℕ) (contract : κ) : Coroutine κ ι ι := do
  let closed : Bool ← act (.isClosed id)
  if closed then .raise (lifecycleStateError "request context is already closed")
  else c.resolve (some id) c.depth [] contract

/-- `RequestContext.close`. -/
def closeRequest (id : ℕ) : Coroutine κ ι Unit := do
  let closed : Bool ← act (.isClosed id)
  if closed then pure ()
  else do
    let _ ← act (.setClosed id)
    let failures ← c.closeOwned (.request id)
    let _ ← act (.clear (.request id))
    raiseShutdown failures (pure ())

/-- `request_context`, on the way out. -/
def leaveRequest (id : ℕ) : Coroutine κ ι Unit := (c.closeRequest id).finally' (act (.discard id))

end Composition

end Xyberos.Runtime
