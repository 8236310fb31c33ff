import Xyberos.Runtime.App

/-!
# Xyberos.Runtime.Scene — what the calls of an application do

A scene is the state of an application with the history of what could be observed: hooks and factories that were
called, instances that an owner took over.  `Act.exec` says what an act does to a scene, and `Answers` how the other
requests are answered; what hooks and factories do is left to the surroundings, within `fair`.
-/

set_option autoImplicit false

namespace Xyberos.Runtime

open Proc (World)

variable {κ ι : Type}

inductive Event (κ ι : Type)
  /-- a start hook was called -/
  | started (plugin : String) (ok : Bool)
  /-- a stop hook was called -/
  | stopped (plugin : String)
  /-- a factory returned -/
  | created (provider : Provider κ) (instance_ : ι)
  /-- an owner took an instance over -/
  | kept (o : Owner) (provider : Provider κ) (instance_ : ι)
  /-- a close hook was called -/
  | closed (by_ : Option Owner) (provider : Provider κ) (instance_ : ι)

structure Scene (κ ι : Type) where
  app : App κ ι
  history : List (Event κ ι) := []

namespace Scene

def log (s : Scene κ ι) (e : Event κ ι) : Scene κ ι := { s with history := s.history ++ [e] }

/-- The holdings of one owner replaced. -/
def hold (s : Scene κ ι) (o : Owner) (h : Holdings κ ι) : Scene κ ι :=
  { s with app := { s.app with holdings := Function.update s.app.holdings o h } }

@[simp] theorem log_app (s : Scene κ ι) (e : Event κ ι) : (s.log e).app = s.app := rfl

@[simp] theorem log_history (s : Scene κ ι) (e : Event κ ι) : (s.log e).history = s.history ++ [e] := rfl

@[simp] theorem hold_history (s : Scene κ ι) (o : Owner) (h : Holdings κ ι) : (s.hold o h).history = s.history := rfl

@[simp] theorem hold_state (s : Scene κ ι) (o : Owner) (h : Holdings κ ι) : (s.hold o h).app.state = s.app.state := rfl

@[simp] theorem hold_plugins (s : Scene κ ι) (o : Owner) (h : Holdings κ ι) :
    (s.hold o h).app.plugins = s.app.plugins := rfl

@[simp] theorem hold_self (s : Scene κ ι) (o : Owner) (h : Holdings κ ι) : (s.hold o h).app.holdings o = h :=
  Function.update_self ..

@[simp] theorem hold_of_ne (s : Scene κ ι) {o o' : Owner} (ho : o' ≠ o) (h : Holdings κ ι) :
    (s.hold o h).app.holdings o' = s.app.holdings o' := Function.update_of_ne ho ..

/-- The names of the plugins that are started, in start order. -/
def startedPlugins (s : Scene κ ι) : List String :=
  (s.app.plugins.select fun _ state => state = .started).map Prod.fst

end Scene

/-! ## Reading a history -/

namespace Event

def started? : Event κ ι → Option String
  | started plugin true => some plugin
  | _ => none

def stopped? : Event κ ι → Option String
  | stopped plugin => some plugin
  | _ => none

def kept? (o : Owner) : Event κ ι → Option (Provider κ × ι)
  | kept o' provider instance_ => if o' = o then some (provider, instance_) else none
  | _ => none

def closed? (by_ : Option Owner) : Event κ ι → Option (Provider κ × ι)
  | closed by' provider instance_ => if by' = by_ then some (provider, instance_) else none
  | _ => none

end Event

/-- The plugins that were started, in this order. -/
def startsOf (h : List (Event κ ι)) : List String := h.filterMap Event.started?

/-- The plugins whose stop hook was called. -/
def stopsOf (h : List (Event κ ι)) : List String := h.filterMap Event.stopped?

/-- What the close hooks were called with for an owner, or for no owner because an instance was rejected. -/
def closesOf (by_ : Option Owner) (h : List (Event κ ι)) : List (Provider κ × ι) := h.filterMap (Event.closed? by_)

theorem closesOf_append (by_ : Option Owner) (h h' : List (Event κ ι)) :
    closesOf by_ (h ++ h') = closesOf by_ h ++ closesOf by_ h' := List.filterMap_append

theorem startsOf_append (h h' : List (Event κ ι)) : startsOf (h ++ h') = startsOf h ++ startsOf h' :=
  List.filterMap_append

theorem stopsOf_append (h h' : List (Event κ ι)) : stopsOf (h ++ h') = stopsOf h ++ stopsOf h' :=
  List.filterMap_append

variable [DecidableEq κ]

/-- The resources that an owner took over. -/
def ownedOf (c : Composition κ ι) (o : Owner) (h : List (Event κ ι)) : List (Provider κ × ι) :=
  (h.filterMap (Event.kept? o)).filter fun x => c.needsCleanup x.1 x.2

theorem ownedOf_append (c : Composition κ ι) (o : Owner) (h h' : List (Event κ ι)) :
    ownedOf c o (h ++ h') = ownedOf c o h ++ ownedOf c o h' := by
  rw [ownedOf, List.filterMap_append, List.filter_append]
  rfl

/-! ## What a request does -/

/-- An owner takes an instance over. -/
def Holdings.keep (h : Holdings κ ι) (provider : Provider κ) (instance_ : ι) (managed : Bool) : Holdings κ ι :=
  { h with
    instances := Function.update h.instances provider.contract (some instance_)
    owned := if managed then h.owned ++ [(provider, instance_)] else h.owned }

theorem mem_keep_owned {h : Holdings κ ι} {provider : Provider κ} {instance_ : ι} {managed : Bool}
    {x : Provider κ × ι} : x ∈ (h.keep provider instance_ managed).owned ↔
      x ∈ h.owned ∨ (managed = true ∧ x = (provider, instance_)) := by
  cases managed <;> simp [Holdings.keep]

@[simp] theorem keep_instances (h : Holdings κ ι) (provider : Provider κ) (instance_ : ι) (managed : Bool) (k : κ) :
    (h.keep provider instance_ managed).instances k = if k = provider.contract then some instance_ else h.instances k :=
  Function.update_apply ..

@[simp] theorem keep_locks (h : Holdings κ ι) (provider : Provider κ) (instance_ : ι) (managed : Bool) :
    (h.keep provider instance_ managed).locks = h.locks := rfl

/-- What an act answers and does. -/
def Act.exec (c : Composition κ ι) : (a : Act κ ι) → Scene κ ι → a.Reply × Scene κ ι
  | .state, s => (s.app.state, s)
  | .goto x, s => ((), { s with app := { s.app with state := x } })
  | .validatedPlan, s => (s.app.validatedPlan, s)
  | .freeze, s => ((), { s with app := { s.app with frozen := true } })
  | .find o contract, s => ((s.app.holdings o).instances contract, s)
  | .keep o provider instance_, s =>
    let h := (s.app.holdings o).keep provider instance_ (c.needsCleanup provider instance_)
    ((), (s.hold o h).log (.kept o provider instance_))
  | .unlock o contract, s =>
    let h := s.app.holdings o
    ((), s.hold o { h with locks := Function.update h.locks contract none })
  | .pop o, s =>
    let h := s.app.holdings o
    match h.owned.getLast? with
    | none => (none, s)
    | some x => (some x, s.hold o { h with owned := h.owned.dropLast })
  | .clear o, s => ((), s.hold o { s.app.holdings o with instances := fun _ => none })
  | .pluginNames, s => (s.app.plugins.rows.map Prod.fst, s)
  | .pluginState name, s => (s.app.plugins.get? name, s)
  | .mark name x, s => ((), { s with app := { s.app with plugins := s.app.plugins.modify name fun _ => x } })
  | .openRequest, s =>
    let id := s.app.requests
    (id, { s with app := { s.app with requests := id + 1, activeRequests := s.app.activeRequests ++ [id] } })
  | .isClosed id, s => (decide (id ∈ s.app.closedRequests), s)
  | .setClosed id, s => ((), { s with app := { s.app with closedRequests := id :: s.app.closedRequests } })
  | .discard id, s => ((), { s with app := { s.app with activeRequests := s.app.activeRequests.filter (· ≠ id) } })
  | .active, s => (s.app.activeRequests.length, s)
  | .unlockLifecycle, s => ((), { s with app := { s.app with lifecycleLock := none } })

@[simp] theorem keep_self (c : Composition κ ι) (o : Owner) (provider : Provider κ) (instance_ : ι) (s : Scene κ ι) :
    ((Act.keep o provider instance_).exec c s).2.app.holdings o =
      (s.app.holdings o).keep provider instance_ (c.needsCleanup provider instance_) :=
  Function.update_self ..

theorem keep_of_ne (c : Composition κ ι) {o o' : Owner} (ho : o' ≠ o) (provider : Provider κ) (instance_ : ι)
    (s : Scene κ ι) : ((Act.keep o provider instance_).exec c s).2.app.holdings o' = s.app.holdings o' :=
  Function.update_of_ne ho ..

/-- How the request of a task is answered; `fair` says what hooks, factories and waits may end in. -/
def Answers (c : Composition κ ι) (fair : (q : Request κ ι) → Except (Failure κ) q.Reply → Prop) (task : ℕ) :
    (q : Request κ ι) → Scene κ ι → Except (Failure κ) q.Reply → Scene κ ι → Prop
  | .act a, s, x, s' => x = .ok (a.exec c s).1 ∧ s' = (a.exec c s).2
  | .lockLifecycle, s, x, s' => s.app.lifecycleLock = none ∧ x = .ok () ∧
    s' = { s with app := { s.app with lifecycleLock := some task } }
  | .lock o contract, s, x, s' =>
    let h := s.app.holdings o
    h.locks contract = none ∧ x = .ok () ∧ s' = s.hold o { h with locks := Function.update h.locks contract (some task) }
  | .factory provider arguments, s, x, s' => fair (.factory provider arguments) x ∧
    s' = match x with
      | .ok instance_ => s.log (.created provider instance_)
      | .error _ => s
  | .close by_ provider instance_, s, x, s' => fair (.close by_ provider instance_) x ∧
    s' = s.log (.closed by_ provider instance_)
  | .startPlugin name, s, x, s' => fair (.startPlugin name) x ∧ s' = s.log (.started name x.isOk)
  | .stopPlugin name, s, x, s' => fair (.stopPlugin name) x ∧ s' = s.log (.stopped name)
  | .drained, s, x, s' => fair .drained x ∧ (x.isOk → s.app.activeRequests = []) ∧ s' = s

/-! ## Plugins that behave as given, and nobody else around -/

/-- What the hooks of the plugins end in, and what interrupts the wait of `stop`. -/
structure Hooks (κ : Type) where
  start : String → Except (Failure κ) Unit
  stop : String → Except (Failure κ) Unit
  interrupt : Option (Failure κ) := none

/-- What `asyncio.wait_for` raises. -/
def timeoutError {κ : Type} : Failure κ := failure ⟨⟨"TimeoutError", ["OSError", "Exception", "BaseException"]⟩, ""⟩

/-- The ends that the hooks allow; the wait can time out if there is a timeout. -/
def Hooks.Fair (c : Composition κ ι) (hooks : Hooks κ) : (q : Request κ ι) → Except (Failure κ) q.Reply → Prop
  | .startPlugin name, x => x = hooks.start name
  | .stopPlugin name, x => x = hooks.stop name
  | .drained, x => x = hooks.interrupt.elim (.ok ()) .error ∨
    (hooks.interrupt = none ∧ c.shutdownTimeout.isSome ∧ x = .error timeoutError)
  | _, _ => True

/-- A call that nothing else runs beside. -/
def alone (c : Composition κ ι) (hooks : Hooks κ) : World (Request κ ι) Request.Reply (Failure κ) (Scene κ ι) where
  interferes _ _ := False
  allows _ _ := True
  answers := Answers c (hooks.Fair c) 0

end Xyberos.Runtime
