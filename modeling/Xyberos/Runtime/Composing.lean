import Xyberos.Http.Routing
import Xyberos.Runtime.Config
import Xyberos.Runtime.Lifecycle

/-!
# Xyberos.Runtime.Composing — how an application is composed, and what its start makes of that

The registrations of `app.py` with `plugins/registry.py` and `plugins/protocol.py`.  A program that composes an
application is a tree: it registers, reads what is registered, and goes on with the answer or the exception.  The
`register` hook of a plugin is such a program too, so hooks nest, fail and catch what fails.  `Build.run` keeps the
stack of the plugins that are registering; `Build.lexical` is told by its place in the program who registers, and both
agree (`sources_lexical`).  What `start` takes from a composed application is up to date (`plan_current`), and plugins
are started after what they require and stopped before it (`plugins_in_order`).
-/

set_option autoImplicit false

namespace Xyberos.Runtime

open Http (RouteRegistry Handler Library)
open Proc (World Runs)

/-! ## Plugins -/

/-- What a plugin declares; an attribute that does not have its type is `none`. -/
structure PluginMetadata where
  name : Option String
  apiVersion : Option String := some "1"
  requires : Option (List String) := some []

/-- A `_PluginEntry`, as far as `describe` tells of it. -/
structure PluginEntry where
  apiVersion : String
  requires : List String
deriving DecidableEq

def pluginApiVersion : String := "1"

/-- `version.split(".", 1)[0]` -/
def majorOf (version : String) : String := String.ofList (version.toList.takeWhile (· ≠ '.'))

/-- `PLUGIN_API_MAJOR`. -/
def pluginApiMajor : String := majorOf pluginApiVersion

def pluginValidationError (message : String) : Exc := xyberosError "PluginValidationError" ["PluginError"] message

def pluginCompatibilityError (message : String) : Exc :=
  xyberosError "PluginCompatibilityError" ["PluginValidationError", "PluginError"] message

def pluginDependencyError (message : String) : Exc :=
  xyberosError "PluginDependencyError" ["PluginValidationError", "PluginError"] message

/-- The name can be used as a configuration key. -/
def isPluginName (name : String) : Bool :=
  !isBlank name && isIdentifier (name.map fun c => if c = '-' then '_' else c)

/-- `plugin_name`. -/
def pluginName (plugin : PluginMetadata) : Except Exc String :=
  let unnamed := pluginValidationError "every plugin must declare a non-empty name"
  match plugin.name with
  | none => .error unnamed
  | some name =>
    if isBlank name then .error unnamed
    else if isPluginName name then .ok name
    else .error (pluginValidationError
      s!"plugin name {reprStr name} must be an identifier so it can be used as a configuration key")

/-- `validate_plugin`. -/
def validatePlugin (plugin : PluginMetadata) : Except Exc (String × PluginEntry) := do
  let name ← pluginName plugin
  let shown := reprStr name
  match plugin.apiVersion with
  | none => .error (pluginValidationError s!"plugin {shown} must declare a non-empty api_version")
  | some version =>
    if isBlank version then .error (pluginValidationError s!"plugin {shown} must declare a non-empty api_version")
    else if majorOf version ≠ pluginApiMajor then
      .error (pluginCompatibilityError (s!"plugin {shown} targets plugin API {reprStr version}, but this runtime " ++
        s!"supports {reprStr pluginApiVersion}"))
    else
      match plugin.requires with
      | none => .error (pluginValidationError s!"plugin {shown} must declare requires as a tuple of plugin names")
      | some requires => return (name, ⟨version, requires⟩)

/-! ## What is registered -/

variable {κ ι γ : Type} [DecidableEq κ]

/-- What an application has registered, and what `validate` has found. -/
structure Registrations (κ : Type) [DecidableEq κ] where
  registry : ProviderRegistry κ := .empty
  routes : RouteRegistry κ := .empty
  entries : Table String PluginEntry := .empty
  state : LifecycleState := .new
  validatedPlan : Option (List (Provider κ)) := none

/-- The arguments of `provide`, with the dependencies found in the signature of the factory. -/
structure Provision (κ : Type) where
  contract : κ
  scope : Scope := .app
  dependencies : List (Dependency κ) := []
  eager : Bool := false
  replace : Bool := false
  source : Option String := none

namespace Registrations

/-- `_ensure_registration_allowed`. -/
def ensureAllowed (a : Registrations κ) : Except Exc Unit :=
  if a.state = .new ∨ a.state = .validated then .ok ()
  else .error (lifecycleStateError (κ := κ)
    s!"cannot register providers in {reprStr a.state.value} application state").error

/-- A registration puts the application back before its validation. -/
def changed (a : Registrations κ) : Registrations κ :=
  { a with validatedPlan := none, state := if a.state = .validated then .new else a.state }

/-- `provide`; `active` is `active_source`. -/
def provide (name : κ → String) (a : Registrations κ) (active : Option String) (p : Provision κ) :
    Except Exc (Registrations κ) := do
  a.ensureAllowed
  let source := p.source.getD (active.getD "application")
  let registry ← a.registry.register name p.contract p.scope p.dependencies p.eager p.replace source
  return { a with registry }.changed

/-- `route`, with a handler. -/
def route (py : Library) (a : Registrations κ) (method path : String) (handler : Handler κ) (name : Option String) :
    Except Exc (Registrations κ) := do
  a.ensureAllowed
  let routes ← a.routes.add py method path handler name
  return { a with routes }

/-- `validate`. -/
def validate (name : κ → String) (a : Registrations κ) :
    Except (Failure κ) (List (Provider κ)) × Registrations κ :=
  if a.state = .new ∨ a.state = .validated then
    match a.registry.validate name with
    | .error e => (.error e, a)
    | .ok plan => (.ok plan, { a with validatedPlan := some plan, state := .validated })
  else (.error (lifecycleStateError s!"cannot validate an application in {reprStr a.state.value} state"), a)

/-- `add_plugin` up to the call of the hook. -/
def accept (a : Registrations κ) (plugin : PluginMetadata) (configured : Except Exc γ) :
    Except Exc (String × PluginEntry × γ) := do
  a.ensureAllowed
  let (name, entry) ← validatePlugin plugin
  if (a.entries.get? name).isSome then
    .error (pluginValidationError s!"a plugin named {reprStr name} is already registered")
  else
    let missing := entry.requires.filter fun required => (a.entries.get? required).isNone
    if missing.isEmpty then do
      let config ← configured
      return (name, entry, config)
    else
      let listed := ", ".intercalate (missing.insertionSort fun s t => s ≤ t)
      .error (pluginDependencyError s!"plugin {reprStr name} requires {listed}, which must be registered first")

/-- `add_plugin` after the call of the hook. -/
def conclude (a : Registrations κ) (name : String) (entry : PluginEntry) :
    Except Exc Unit → Except Exc Unit × Registrations κ
  | .ok _ => (.ok (), { a with entries := a.entries.upsert name entry fun _ => entry }.changed)
  | .error e =>
    if e.isInstance "Exception" then
      (.error (pluginValidationError s!"plugin {reprStr name} failed to register: {e.message}"), a)
    else (.error e, a)

end Registrations

/-! ## Programs -/

/-- A program that composes an application. -/
inductive Build (κ γ : Type) [DecidableEq κ] : Type
  | done
  | raise (e : Exc)
  /-- `state`, `routes` and `diagnostics()` -/
  | read (k : Registrations κ → Build κ γ)
  | provide (p : Provision κ) (k : Except Exc Unit → Build κ γ)
  | route (method path : String) (handler : Handler κ) (name : Option String) (k : Except Exc Unit → Build κ γ)
  | validate (k : Except (Failure κ) (List (Provider κ)) → Build κ γ)
  /-- `configured` is what `build_plugin_config` makes of the options of the plugin -/
  | addPlugin (plugin : PluginMetadata) (configured : Except Exc γ) (register : γ → Build κ γ)
    (k : Except Exc Unit → Build κ γ)

/-- An application while it is composed: `active` is the stack of the plugins that are registering. -/
structure Composer (κ : Type) [DecidableEq κ] extends Registrations κ where
  active : List String := []

/-- The source of what a plugin registers. -/
def sourceOf (plugin : String) : String := s!"plugin:{plugin}"

namespace Composer

/-- `active_source`. -/
def activeSource (c : Composer κ) : Option String := c.active.getLast?.map sourceOf

/-- `enter`. -/
def enter (c : Composer κ) (name : String) : Composer κ := { c with active := c.active ++ [name] }

/-- `exit`. -/
def exit (c : Composer κ) : Composer κ := { c with active := c.active.dropLast }

/-- The same application with other registrations. -/
def update (c : Composer κ) (a : Registrations κ) : Composer κ := { c with toRegistrations := a }

end Composer

/-- What a call answers, and what is registered after it; nothing has changed when it has failed. -/
def settled (a : Registrations κ) : Except Exc (Registrations κ) → Except Exc Unit × Registrations κ
  | .ok a' => (.ok (), a')
  | .error e => (.error e, a)

/-- Run a program. -/
def Build.run (py : Library) (name : κ → String) : Build κ γ → Composer κ → Except Exc Unit × Composer κ
  | .done, c => (.ok (), c)
  | .raise e, c => (.error e, c)
  | .read k, c => (k c.toRegistrations).run py name c
  | .provide p k, c =>
    let x := settled c.toRegistrations (c.provide name c.activeSource p)
    (k x.1).run py name (c.update x.2)
  | .route method path handler routeName k, c =>
    let x := settled c.toRegistrations (c.route py method path handler routeName)
    (k x.1).run py name (c.update x.2)
  | .validate k, c =>
    let x := c.toRegistrations.validate name
    (k x.1).run py name (c.update x.2)
  | .addPlugin plugin configured register k, c =>
    match c.accept plugin configured with
    | .error e => (k (.error e)).run py name c
    | .ok (pluginName, entry, config) =>
      -- the hook runs between `enter` and `exit`, which is in a `finally`
      let x := (register config).run py name (c.enter pluginName)
      let left := x.2.exit
      let y := left.conclude pluginName entry x.1
      (k y.1).run py name (left.update y.2)

/-- **Lexical sources.**  What a program registers when it is told who registers: `source` is the plugin whose hook the
program is, or the application. -/
def Build.lexical (py : Library) (name : κ → String) :
    Build κ γ → Option String → Registrations κ → Except Exc Unit × Registrations κ
  | .done, _, a => (.ok (), a)
  | .raise e, _, a => (.error e, a)
  | .read k, source, a => (k a).lexical py name source a
  | .provide p k, source, a =>
    let x := settled a (a.provide name source p)
    (k x.1).lexical py name source x.2
  | .route method path handler routeName k, source, a =>
    let x := settled a (a.route py method path handler routeName)
    (k x.1).lexical py name source x.2
  | .validate k, source, a =>
    let x := a.validate name
    (k x.1).lexical py name source x.2
  | .addPlugin plugin configured register k, source, a =>
    match a.accept plugin configured with
    | .error e => (k (.error e)).lexical py name source a
    | .ok (pluginName, entry, config) =>
      let x := (register config).lexical py name (some (sourceOf pluginName)) a
      let y := x.2.conclude pluginName entry x.1
      (k y.1).lexical py name source y.2

/-! ## Sources -/

section Lexical

variable {py : Library} {name : κ → String}

@[simp] theorem Composer.activeSource_enter (c : Composer κ) (plugin : String) :
    (c.enter plugin).activeSource = some (sourceOf plugin) := by
  rw [activeSource, enter, List.getLast?_concat, Option.map_some]

/-- What was entered is left again. -/
theorem Composer.exit_enter (c : Composer κ) (plugin : String) (a : Registrations κ) :
    ((c.enter plugin).update a).exit = c.update a := by
  show (⟨a, (c.active ++ [plugin]).dropLast⟩ : Composer κ) = ⟨a, c.active⟩
  rw [List.dropLast_concat]

theorem Build.run_eq (p : Build κ γ) (c : Composer κ) :
    p.run py name c = ((p.lexical py name c.activeSource c.toRegistrations).1,
      c.update (p.lexical py name c.activeSource c.toRegistrations).2) := by
  induction p generalizing c with
  | done => rfl
  | raise e => rfl
  | read k ih => exact ih c.toRegistrations c
  | provide p k ih => exact ih _ _
  | route method path handler routeName k ih => exact ih _ _
  | validate k ih => exact ih _ _
  | addPlugin plugin configured register k ihregister ih =>
    unfold run lexical
    cases haccept : c.accept plugin configured with
    | error e => exact ih _ c
    | ok x =>
      obtain ⟨pluginName, entry, config⟩ := x
      have hhook := ihregister config (c.enter pluginName)
      rw [Composer.activeSource_enter] at hhook
      dsimp only
      rw [hhook, Composer.exit_enter]
      exact ih _ _

/-- **Sources are lexical.**  However hooks nest, fail and catch what fails, the stack names the plugin whose hook makes
the registration, and after a program it is what it was before. -/
theorem Build.sources_lexical (p : Build κ γ) (c : Composer κ) :
    (p.run py name c).1 = (p.lexical py name c.activeSource c.toRegistrations).1 ∧
      (p.run py name c).2.toRegistrations = (p.lexical py name c.activeSource c.toRegistrations).2 ∧
      (p.run py name c).2.active = c.active := by
  rw [p.run_eq]
  exact ⟨rfl, rfl, rfl⟩

end Lexical

/-! ## What is composed -/

/-- What the plugin under a name requires. -/
def requirements (entries : Table String PluginEntry) (plugin : String) : List String :=
  ((entries.get? plugin).map PluginEntry.requires).getD []

/-- The names of the plugins, in start order. -/
def Registrations.names (a : Registrations κ) : List String := a.entries.rows.map Prod.fst

/-- An application that was composed by registrations alone: the plan is the one that `validate` computes now, and every
plugin was admitted and stands behind what it requires. -/
structure Composed (name : κ → String) (a : Registrations κ) : Prop where
  current : ∀ plan, a.validatedPlan = some plan → a.registry.validate name = .ok plan
  validated : a.state = .validated ↔ a.validatedPlan.isSome
  mutable : a.state = .new ∨ a.state = .validated
  unfrozen : a.registry.frozen = false
  ordered : Ordered (requirements a.entries) a.names
  admitted : ∀ plugin entry, (plugin, entry) ∈ a.entries.rows →
    isPluginName plugin = true ∧ majorOf entry.apiVersion = pluginApiMajor

/-- Nothing is taken back. -/
structure Grows (a a' : Registrations κ) : Prop where
  entries : a.entries.rows <+: a'.entries.rows
  routes : a.routes.routes <+: a'.routes.routes

theorem Grows.refl (a : Registrations κ) : Grows a a := ⟨List.prefix_rfl, List.prefix_rfl⟩

theorem Grows.trans {a b c : Registrations κ} (h : Grows a b) (h' : Grows b c) : Grows a c :=
  ⟨h.entries.trans h'.entries, h.routes.trans h'.routes⟩

section Entries

variable {entries entries' : Table String PluginEntry} {plugin : String} {entry : PluginEntry}

/-- A list that stands at the front, without a member behind it. -/
theorem prefix_of_prefix_append_cons {α : Type} {l pre post : List α} {x : α} (h : l <+: pre ++ x :: post)
    (hx : x ∉ l) : l <+: pre := by
  have hpre : pre ++ [x] <+: pre ++ x :: post := ⟨post, by simp⟩
  rcases List.prefix_or_prefix_of_prefix h hpre with hl | hl
  · rcases List.prefix_concat_iff.mp hl with rfl | hl
    · exact absurd (by simp) hx
    · exact hl
  · exact absurd (hl.subset (by simp)) hx

theorem requirements_upsert (k : String) : requirements (entries.upsert plugin entry fun _ => entry) k =
    if k = plugin then entry.requires else requirements entries k := by
  rw [requirements, Table.get?_upsert]
  split_ifs with hk
  · cases entries.get? plugin <;> rfl
  · rfl

theorem rows_upsert (entries : Table String PluginEntry) (plugin : String) (entry : PluginEntry) :
    (entries.upsert plugin entry fun _ => entry).rows.map Prod.fst =
      entries.rows.map Prod.fst ++ if (entries.get? plugin).isSome then [] else [plugin] := by
  cases hget : entries.get? plugin with
  | none =>
    rw [Table.rows_upsert_of_none hget, List.map_append]
    rfl
  | some old =>
    rw [Table.rows_upsert_of_some hget, List.map_map, Option.isSome_some, if_pos rfl, List.append_nil]
    refine List.map_congr_left fun x _ => ?_
    by_cases hx : x.1 = plugin
    · simp [hx]
    · simp [hx]

/-- What was there before the hook of the plugin stays. -/
theorem rows_prefix_upsert (hgrow : entries.rows <+: entries'.rows) (hnew : entries.get? plugin = none) :
    entries.rows <+: (entries'.upsert plugin entry fun _ => entry).rows := by
  cases hget : entries'.get? plugin with
  | none =>
    rw [Table.rows_upsert_of_none hget]
    exact hgrow.trans (List.prefix_append ..)
  | some old =>
    obtain ⟨more, hmore⟩ := hgrow
    rw [Table.rows_upsert_of_some hget, ← hmore, List.map_append]
    have hsame : entries.rows.map (fun x => if x.1 = plugin then (x.1, entry) else x) = entries.rows := by
      conv_rhs => rw [← List.map_id entries.rows]
      refine List.map_congr_left fun x hx => if_neg fun he => ?_
      have := Table.get?_eq_some_iff.mpr hx
      rw [he, hnew] at this
      cases this
    rw [hsame]
    exact List.prefix_append ..

/-- A plugin is listed behind what it requires, also when its own hook has added another one under its name. -/
theorem ordered_upsert (hgrow : entries.rows <+: entries'.rows) (hnew : entries.get? plugin = none)
    (hrequires : ∀ required ∈ entry.requires, (entries.get? required).isSome)
    (hordered : Ordered (requirements entries') (entries'.rows.map Prod.fst)) :
    Ordered (requirements (entries'.upsert plugin entry fun _ => entry))
      ((entries'.upsert plugin entry fun _ => entry).rows.map Prod.fst) := by
  intro pre x post hl y hy
  rw [requirements_upsert] at hy
  by_cases hx : x = plugin
  · subst hx
    rw [if_pos rfl] at hy
    -- what the plugin requires was listed before its hook, and it was not
    obtain ⟨e, he⟩ := Option.isSome_iff_exists.mp (hrequires y hy)
    have hkeys : entries.rows.map Prod.fst <+: pre ++ x :: post := hl ▸ (rows_prefix_upsert hgrow hnew).map Prod.fst
    have hfresh : x ∉ entries.rows.map Prod.fst := Table.lookup_eq_none_iff.mp hnew
    exact (prefix_of_prefix_append_cons hkeys hfresh).subset
      (List.mem_map_of_mem (f := Prod.fst) (Table.get?_eq_some_iff.mp he))
  · rw [if_neg hx] at hy
    rw [rows_upsert] at hl
    by_cases hsome : (entries'.get? plugin).isSome
    · rw [if_pos hsome, List.append_nil] at hl
      exact hordered pre x post hl y hy
    · rw [if_neg hsome] at hl
      -- the new name is the last one
      rcases List.eq_nil_or_concat post with rfl | ⟨post', z, rfl⟩
      · exact absurd (List.append_inj_right' hl rfl) (by simpa [eq_comm] using hx)
      · rw [List.concat_eq_append, ← List.cons_append, ← List.append_assoc] at hl
        exact hordered pre x post' (List.append_inj_left' hl rfl) y hy

end Entries

section Composing

variable {py : Library} {name : κ → String} {a a' : Registrations κ}

theorem Composed.empty : Composed name ({} : Registrations κ) where
  current plan h := by cases h
  validated := by simp
  mutable := .inl rfl
  unfrozen := rfl
  ordered := Ordered.nil
  admitted plugin entry h := absurd h List.not_mem_nil

/-- A registration leaves nothing of an earlier validation. -/
theorem Composed.changed (ha : Composed name a) : Composed name a.changed where
  current plan h := by cases h
  validated := by
    rw [Registrations.changed]
    split_ifs with h
    · simp
    · simpa using h
  mutable := by
    rw [Registrations.changed]
    split_ifs with h
    · exact .inl rfl
    · exact .inl (ha.mutable.resolve_right h)
  unfrozen := ha.unfrozen
  ordered := ha.ordered
  admitted := ha.admitted

theorem Composed.provide (ha : Composed name a) {source : Option String} {p : Provision κ}
    (h : a.provide name source p = .ok a') : Composed name a' ∧ Grows a a' := by
  obtain ⟨_, -, h⟩ := bind_ok h
  obtain ⟨registry, hregister, h⟩ := bind_ok h
  cases h
  have hunfrozen : registry.frozen = false := by
    unfold ProviderRegistry.register at hregister
    split_ifs at hregister
    cases hregister
    exact ha.unfrozen
  have hchanged := ha.changed
  exact ⟨⟨(fun plan h => by cases h), hchanged.validated, hchanged.mutable, hunfrozen, ha.ordered, ha.admitted⟩,
    ⟨List.prefix_rfl, List.prefix_rfl⟩⟩

theorem Composed.route (ha : Composed name a) {method path : String} {handler : Handler κ} {routeName : Option String}
    (h : a.route py method path handler routeName = .ok a') : Composed name a' ∧ Grows a a' := by
  obtain ⟨_, -, h⟩ := bind_ok h
  obtain ⟨routes, hadd, h⟩ := bind_ok h
  cases h
  obtain ⟨route, hroutes⟩ := RouteRegistry.add_ok hadd
  refine ⟨⟨ha.current, ha.validated, ha.mutable, ha.unfrozen, ha.ordered, ha.admitted⟩, List.prefix_rfl, ?_⟩
  rw [hroutes]
  exact List.prefix_append ..

theorem Composed.settled (ha : Composed name a) {x : Except Exc (Registrations κ)}
    (h : ∀ a', x = .ok a' → Composed name a' ∧ Grows a a') :
    Composed name (settled a x).2 ∧ Grows a (settled a x).2 := by
  cases x with
  | ok a' => exact h a' rfl
  | error e => exact ⟨ha, Grows.refl a⟩

theorem Composed.validate (ha : Composed name a) :
    Composed name (a.validate name).2 ∧ Grows a (a.validate name).2 := by
  unfold Registrations.validate
  rw [if_pos ha.mutable]
  cases hplan : a.registry.validate name with
  | error e => exact ⟨ha, Grows.refl a⟩
  | ok plan =>
    refine ⟨⟨?_, by simp, .inr rfl, ha.unfrozen, ha.ordered, ha.admitted⟩, List.prefix_rfl, List.prefix_rfl⟩
    rintro plan' h
    cases h
    exact hplan

theorem validatePlugin_ok {plugin : PluginMetadata} {pluginName : String} {entry : PluginEntry}
    (h : validatePlugin plugin = .ok (pluginName, entry)) :
    isPluginName pluginName = true ∧ majorOf entry.apiVersion = pluginApiMajor := by
  obtain ⟨named, hname, h⟩ := bind_ok h
  dsimp only at h
  split at h
  · cases h
  · split_ifs at h with hblank hmajor
    split at h
    · cases h
    · cases h
      refine ⟨?_, not_not.mp hmajor⟩
      unfold Runtime.pluginName at hname
      dsimp only at hname
      split at hname
      · cases hname
      · split_ifs at hname with _ hvalid
        cases hname
        exact hvalid

theorem accept_ok {plugin : PluginMetadata} {configured : Except Exc γ} {pluginName : String} {entry : PluginEntry}
    {config : γ} (h : a.accept plugin configured = .ok (pluginName, entry, config)) :
    validatePlugin plugin = .ok (pluginName, entry) ∧ a.entries.get? pluginName = none ∧
      (∀ required ∈ entry.requires, (a.entries.get? required).isSome) ∧ configured = .ok config := by
  obtain ⟨_, -, h⟩ := bind_ok h
  obtain ⟨⟨named, entry'⟩, hvalid, h⟩ := bind_ok h
  dsimp only at h
  split_ifs at h with hnew hmissing
  obtain ⟨config', hconfig, h⟩ := bind_ok h
  cases h
  refine ⟨hvalid, by simpa using hnew, fun required hr => ?_, hconfig⟩
  have hnil := List.isEmpty_iff.mp hmissing
  have := List.filter_eq_nil_iff.mp hnil required hr
  simpa [Option.isSome_iff_ne_none] using this

/-- A plugin is listed after its hook. -/
theorem Composed.conclude (ha' : Composed name a') (hgrows : Grows a a') {plugin : PluginMetadata}
    {configured : Except Exc γ} {pluginName : String} {entry : PluginEntry} {config : γ}
    (haccept : a.accept plugin configured = .ok (pluginName, entry, config)) (x : Except Exc Unit) :
    Composed name (a'.conclude pluginName entry x).2 ∧ Grows a (a'.conclude pluginName entry x).2 := by
  cases x with
  | error e =>
    rw [Registrations.conclude]
    split_ifs
    · exact ⟨ha', hgrows⟩
    · exact ⟨ha', hgrows⟩
  | ok u =>
    obtain ⟨hvalid, hnew, hrequires, -⟩ := accept_ok haccept
    obtain ⟨hplugin, hmajor⟩ := validatePlugin_ok hvalid
    have hchanged := ha'.changed
    refine ⟨⟨(fun plan h => by cases h), hchanged.validated, hchanged.mutable, ha'.unfrozen,
      ordered_upsert hgrows.entries hnew hrequires ha'.ordered, fun plugin' entry' hmem => ?_⟩,
      rows_prefix_upsert hgrows.entries hnew, hgrows.routes⟩
    have hget : (a'.entries.upsert pluginName entry fun _ => entry).get? plugin' = some entry' :=
      Table.get?_eq_some_iff.mpr hmem
    rw [Table.get?_upsert] at hget
    split_ifs at hget with hk
    · have he : entry' = entry := by
        cases hold : a'.entries.get? pluginName <;> rw [hold] at hget <;> exact (Option.some.inj hget).symm
      rw [hk, he]
      exact ⟨hplugin, hmajor⟩
    · exact ha'.admitted plugin' entry' (Table.get?_eq_some_iff.mp hget)

/-- What one call keeps, and what the rest of the program keeps from there. -/
theorem Grows.next {b c : Registrations κ} (h : Composed name b ∧ Grows a b)
    (hrest : Composed name b → Composed name c ∧ Grows b c) : Composed name c ∧ Grows a c :=
  ⟨(hrest h.1).1, h.2.trans (hrest h.1).2⟩

/-- **Composing.**  Every program keeps what is composed, and takes nothing back. -/
theorem Composed.lexical (p : Build κ γ) (source : Option String) (ha : Composed name a) :
    Composed name (p.lexical py name source a).2 ∧ Grows a (p.lexical py name source a).2 := by
  induction p generalizing a source with
  | done => exact ⟨ha, Grows.refl a⟩
  | raise e => exact ⟨ha, Grows.refl a⟩
  | read k ih => exact ih a source ha
  | provide p k ih => exact Grows.next (ha.settled fun a' h => ha.provide h) (ih _ source)
  | route method path handler routeName k ih => exact Grows.next (ha.settled fun a' h => ha.route h) (ih _ source)
  | validate k ih => exact Grows.next ha.validate (ih _ source)
  | addPlugin plugin configured register k ihregister ih =>
    unfold Build.lexical
    cases haccept : a.accept plugin configured with
    | error e => exact ih _ source ha
    | ok x =>
      obtain ⟨pluginName, entry, config⟩ := x
      obtain ⟨hhook, hgrows⟩ := ihregister config (some (sourceOf pluginName)) ha
      exact Grows.next (hhook.conclude hgrows haccept _) (ih _ source)

/-- What an application is after a program. -/
def Build.composed (py : Library) (name : κ → String) (p : Build κ γ) : Composer κ :=
  (p.run py name { active := [] }).2

theorem composed_run (p : Build κ γ) : Composed name (p.composed py name).toRegistrations := by
  unfold Build.composed
  rw [p.run_eq]
  exact (Composed.empty.lexical p none).1

/-- The composition of a program that starts, with what Python knows about its objects. -/
def Registrations.composition (a : Registrations κ) (python : Composition κ ι) : Composition κ ι :=
  { python with registry := a.registry }

/-- **The plan is current.**  However registrations, hooks and validations alternate, `start` goes by the plan that
`validate` computes of the final registrations, whether one was kept or not; and no plugin is left registering. -/
theorem plan_current (p : Build κ γ) (python : Composition κ ι) :
    let a := p.composed py python.contractName
    let c := a.composition python
    c.planOr a.validatedPlan = Proc.ofExcept (c.registry.validate c.contractName) ∧
      (a.state = .validated ↔ a.validatedPlan.isSome) ∧ a.active = [] := by
  intro a c
  have ha : Composed c.contractName a.toRegistrations := composed_run p
  refine ⟨?_, ha.validated, ?_⟩
  · cases hplan : a.validatedPlan with
    | none => rfl
    | some plan =>
      have hvalid : c.registry.validate c.contractName = .ok plan := ha.current plan hplan
      rw [hvalid]
      cases plan with
      | nil =>
        unfold Composition.planOr
        dsimp only
        rw [hvalid]
      | cons provider plan => rfl
  · show (p.run py python.contractName { active := [] }).2.active = []
    rw [p.run_eq]
    rfl

end Composing

/-! ## Starting and stopping what is composed -/

/-- The application before its start. -/
def Registrations.scene (a : Registrations κ) : Scene κ ι where
  app := {
    state := a.state
    validatedPlan := a.validatedPlan
    plugins := ⟨a.entries.rows.map fun x => (x.1, .registered), by
      rw [List.map_map]
      exact a.entries.nodup⟩ }

/-- The names of the plugins in a scene. -/
def Scene.plugins (s : Scene κ ι) : List String := s.app.plugins.rows.map Prod.fst

section Hooks

variable {hooks : Hooks κ} {c : Composition κ ι} {s t : Scene κ ι}

omit [DecidableEq κ] in
theorem called_front (hooks : Hooks κ) (names : List String) : hooks.called names <+: names := by
  induction names with
  | nil => exact List.prefix_rfl
  | cons name names ih =>
    rw [Hooks.called]
    split_ifs
    · exact ⟨names, rfl⟩
    · exact (List.prefix_cons_inj name).mpr ih

omit [DecidableEq κ] in
/-- The events of stop hooks. -/
theorem events_stopped (names : List String) :
    startsOf (names.map .stopped : List (Event κ ι)) = [] ∧
      stopsOf (names.map .stopped : List (Event κ ι)) = names := by
  simp [startsOf, stopsOf, Event.started?, Event.stopped?, List.filterMap_map, Function.comp_def]

/-- No request lists another plugin. -/
theorem plugins_answers {q : Request κ ι} {x : Except (Failure κ) q.Reply}
    (h : (alone c hooks).answers q s x t) : t.plugins = s.plugins := by
  cases q with
  | act a =>
    obtain ⟨-, rfl⟩ := h
    cases a with
    | mark name state =>
      show (s.app.plugins.rows.map _).map Prod.fst = s.app.plugins.rows.map Prod.fst
      rw [List.map_map]
      refine List.map_congr_left fun y _ => ?_
      by_cases hy : y.1 = name
      · simp [hy]
      · simp [hy]
    | pop o =>
      unfold Act.exec
      dsimp only
      split <;> rfl
    | _ => rfl
  | lockLifecycle => rw [h.2.2]; rfl
  | lock o contract => rw [h.2.2]; rfl
  | factory provider arguments =>
    rw [h.2]
    cases x <;> rfl
  | close by_ provider instance_ => rw [h.2]; rfl
  | startPlugin name => rw [h.2]; rfl
  | stopPlugin name => rw [h.2]; rfl
  | drained => rw [h.2.2]

/-- The plugins of an application stay listed while one of its calls runs. -/
theorem wp_plugins {α : Type} {p : Coroutine κ ι α} {Post : Except (Failure κ) α → Scene κ ι → Prop}
    (h : p.wp (alone c hooks) Post s) : p.wp (alone c hooks) (fun x t => t.plugins = s.plugins ∧ Post x t) s :=
  Proc.wp_frame (F := fun t => t.plugins = s.plugins) (fun _ _ h => False.elim h)
    (fun _ _ _ _ _ h ht => (plugins_answers h).trans ht) h rfl

/-- What hooks did in a part of a run: the start hooks of `starts` returned, the stop hooks of `stops` were called. -/
structure Hooked (s t : Scene κ ι) (starts stops : List String) : Prop where
  starts : startsOf t.history = startsOf s.history ++ starts
  stops : stopsOf t.history = stopsOf s.history ++ stops

omit [DecidableEq κ] in
theorem Hooked.refl (s : Scene κ ι) : Hooked s s [] [] := ⟨(List.append_nil _).symm, (List.append_nil _).symm⟩

omit [DecidableEq κ] in
theorem Hooked.trans {s' : Scene κ ι} {starts stops starts' stops' : List String} (h : Hooked s s' starts stops)
    (h' : Hooked s' t starts' stops') : Hooked s t (starts ++ starts') (stops ++ stops') :=
  ⟨by rw [h'.starts, h.starts, List.append_assoc], by rw [h'.stops, h.stops, List.append_assoc]⟩

omit [DecidableEq κ] in
theorem Hooked.of_history (events : List (Event κ ι)) (h : t.history = s.history ++ events) :
    Hooked s t (startsOf events) (stopsOf events) :=
  ⟨by rw [h, startsOf_append], by rw [h, stopsOf_append]⟩

omit [DecidableEq κ] in
theorem Hooked.of_eq (h : t.history = s.history) : Hooked s t [] [] :=
  Hooked.of_history [] (by rw [h, List.append_nil])

/-- How far the loop of `start_all` comes, the plugins in `started` being started: the plugins at the front of `names`
start, all of them unless it raises; and what is stopped is stopped backwards. -/
def Began (names started : List String) (s : Scene κ ι) (x : Except (Failure κ) Unit) (t : Scene κ ι) : Prop :=
  ∃ starts stops, Hooked s t starts stops ∧ starts <+: names ∧ stops.Sublist (starts.reverse ++ started) ∧
    (x.isOk → starts = names ∧ stops = [])

theorem wp_startEntries_began {names started : List String} (hn : (started ++ names).Nodup) (s : Scene κ ι) :
    (startEntries names started).wp (alone c hooks) (Began names started s) s := by
  induction names generalizing started s with
  | nil => exact ⟨[], [], Hooked.refl s, List.prefix_rfl, List.nil_sublist _, fun _ => ⟨rfl, rfl⟩⟩
  | cons name names ih =>
    refine Proc.wp_bind.mpr (Proc.wp_attempt.mpr (wp_startPlugin.mpr ?_))
    rw [Proc.ends_ok]
    cases hstart : hooks.start name with
    | ok u =>
      refine Proc.wp_bind.mpr (wp_act.mpr ?_)
      rw [Proc.ends_ok]
      refine Proc.wp_mono (ih (List.nodup_middle.mp hn) _) fun x t h => ?_
      obtain ⟨starts, stops, hhooked, hlisted, hunwound, hcomplete⟩ := h
      have hfirst : Hooked s ((Act.mark name .started).exec c (s.log (.started name true))).2 [name] [] :=
        Hooked.of_history [.started name true] rfl
      have hlisted : name :: starts <+: name :: names := (List.prefix_cons_inj name).mpr hlisted
      refine ⟨name :: starts, stops, hfirst.trans hhooked, hlisted, ?_, fun hx => ?_⟩
      · rw [List.reverse_cons, List.append_assoc]
        exact hunwound
      · rw [(hcomplete hx).1]
        exact ⟨rfl, (hcomplete hx).2⟩
    | error e =>
      refine Proc.wp_bind.mpr (Proc.wp_mono (wp_stopEntries (hn.sublist (List.sublist_append_left ..)) _)
        fun x t h => ?_)
      have h : StopSpec hooks (startedIn s started) (s.log (.started name false)) x t := h
      have hbegan : ∀ e', Began (name :: names) started s (.error e') t := by
        intro e'
        have hstops := Hooked.of_history _ h.history
        rw [(events_stopped _).1, (events_stopped _).2] at hstops
        have hfirst : Hooked s (s.log (.started name false)) [] [] :=
          Hooked.of_history [.started name false] rfl
        refine ⟨_, _, hfirst.trans hstops, List.nil_prefix, ?_, fun hx => absurd hx Bool.false_ne_true⟩
        exact (called_front hooks _).sublist.trans List.filter_sublist
      cases x with
      | error e' => exact hbegan e'
      | ok cleanup =>
        rw [Proc.ends_ok]
        split_ifs
        · exact hbegan _
        · exact hbegan e

theorem Hooked.of_grown {h : List (Event κ ι)} (hg : Grown c s h t) : Hooked s t [] [] := by
  have := Hooked.of_history _ hg.history
  rwa [hg.starts, hg.stops] at this

omit [DecidableEq κ] in
/-- What raises after hooks that did nothing. -/
theorem Began.of_hooked {names : List String} {e : Failure κ} (h : Hooked s t [] []) :
    Began names [] s (.error e) t :=
  ⟨[], [], h, List.nil_prefix, List.nil_sublist _, fun hx => absurd hx Bool.false_ne_true⟩

omit [DecidableEq κ] in
/-- What comes before and after the loop of `start_all`. -/
theorem Began.extend {names : List String} {s' t' : Scene κ ι} {x : Except (Failure κ) Unit}
    (h : Began names [] s' x t) (hbefore : Hooked s s' [] []) (hafter : Hooked t t' [] []) : Began names [] s x t' := by
  obtain ⟨starts, stops, hhooked, hrest⟩ := h
  have hall := (hbefore.trans hhooked).trans hafter
  rw [List.append_nil, List.append_nil, List.nil_append, List.nil_append] at hall
  exact ⟨starts, stops, hall, hrest⟩

omit [DecidableEq κ] in
theorem Began.failed {names : List String} {e e' : Failure κ} (h : Began names [] s (.error e) t) :
    Began names [] s (.error e') t := by
  obtain ⟨starts, stops, hhooked, hlisted, hunwound, -⟩ := h
  exact ⟨starts, stops, hhooked, hlisted, hunwound, fun hx => absurd hx Bool.false_ne_true⟩

theorem wp_startUp_began (hs : Sound c s) : c.startUp.wp (alone c hooks) (Began s.plugins [] s) s := by
  have hquiet : Hooked s ((Act.freeze).exec c s).2 [] [] := Hooked.of_eq rfl
  have hunderway : Underway c ((Act.freeze).exec c s).2 [] ((Act.freeze).exec c s).2 :=
    ⟨[], Grown.refl _, rfl, ⟨hs.owns, hs.nodup⟩, by simp⟩
  refine Proc.wp_bind.mpr (wp_act.mpr ?_)
  rw [Proc.ends_ok]
  refine Proc.wp_bind.mpr (wp_planOr fun x => ?_)
  cases x with
  | error e => exact Began.of_hooked (Hooked.refl s)
  | ok plan =>
    refine Proc.wp_bind.mpr (wp_act.mpr ?_)
    rw [Proc.ends_ok]
    refine Proc.wp_bind.mpr (Proc.wp_mono (wp_plugins (triple_startEager plan _ hunderway)) fun x t ht => ?_)
    obtain ⟨hplugins, ht⟩ := ht
    have hplugins : t.plugins = s.plugins := hplugins
    cases x with
    | error e =>
      obtain ⟨h, hg, -⟩ := ht
      exact (Began.of_hooked (Hooked.of_grown hg)).extend hquiet (Hooked.refl t)
    | ok u =>
      obtain ⟨h, hg, -⟩ := ht
      have hbefore := hquiet.trans (Hooked.of_grown hg)
      rw [Proc.ends_ok]
      refine Proc.wp_bind.mpr (wp_act.mpr ?_)
      rw [Proc.ends_ok, ← hplugins]
      exact Proc.wp_mono (wp_startEntries_began t.app.plugins.nodup t) fun x t' h => h.extend hbefore (Hooked.refl t')

/-- A request that is not a hook of a plugin. -/
def Unhooked : Request κ ι → Prop
  | .startPlugin _ => False
  | .stopPlugin _ => False
  | _ => True

theorem hooked_answers {q : Request κ ι} (hq : Unhooked q) {x : Except (Failure κ) q.Reply}
    (h : (alone c hooks).answers q s x t) : Hooked s t [] [] := by
  -- what is logged, if anything, is not a hook
  have hlog : ∀ e : Event κ ι, e.started? = none → e.stopped? = none → t.history = s.history ++ [e] →
      Hooked s t [] [] := by
    intro e hstarted hstopped ht
    have := Hooked.of_history _ ht
    rwa [startsOf, stopsOf, List.filterMap_cons_none hstarted, List.filterMap_cons_none hstopped] at this
  cases q with
  | act a =>
    obtain ⟨-, rfl⟩ := h
    cases a with
    | keep o provider instance_ => exact hlog (.kept o provider instance_) rfl rfl rfl
    | pop o =>
      unfold Act.exec
      dsimp only
      split <;> exact Hooked.of_eq rfl
    | _ => exact Hooked.of_eq rfl
  | lockLifecycle =>
    rw [h.2.2]
    exact Hooked.of_eq rfl
  | lock o contract =>
    rw [h.2.2]
    exact Hooked.of_eq rfl
  | factory provider arguments =>
    obtain ⟨-, ht⟩ := h
    cases x with
    | ok instance_ => exact hlog (.created provider instance_) rfl rfl (by rw [ht]; rfl)
    | error e => exact Hooked.of_eq (by rw [ht])
  | close by_ provider instance_ => exact hlog (.closed by_ provider instance_) rfl rfl (by rw [h.2]; rfl)
  | startPlugin name => exact hq.elim
  | stopPlugin name => exact hq.elim
  | drained => exact Hooked.of_eq (by rw [h.2.2])

theorem wp_unhooked {α : Type} {p : Coroutine κ ι α} (hp : p.Only Unhooked) (s : Scene κ ι) :
    p.wp (alone c hooks) (fun _ t => Hooked s t [] []) s := by
  have htriple : (alone c hooks).Triple (fun t => Hooked s t [] []) p (fun _ t => Hooked s t [] [])
      fun _ t => Hooked s t [] [] :=
    World.Triple.of_only hp (fun _ _ h => False.elim h) fun q t hq ht =>
      ⟨trivial, fun x t' h => ht.trans (hooked_answers hq h)⟩
  refine Proc.wp_mono (htriple s (Hooked.refl s)) fun x t ht => ?_
  cases x <;> exact ht

theorem only_closeOwned (o : Owner) : (c.closeOwned o).Only Unhooked := by
  have hloop : ∀ n, (c.closeLoop o n).Only Unhooked := by
    intro n
    induction n with
    | zero => trivial
    | succ n ih =>
      refine Proc.Only.bind (Proc.only_request trivial) fun x => ?_
      cases x with
      | none => trivial
      | some x =>
        have hclose : (c.closeResource (some o) x.1 x.2).Only Unhooked := by
          unfold Composition.closeResource
          split_ifs
          · exact Proc.only_request trivial
          · trivial
        refine Proc.Only.bind hclose.attempt fun y => ?_
        cases y with
        | ok u => exact ih
        | error e => exact Proc.Only.bind ih fun _ => trivial
  exact hloop c.depth

theorem wp_startLocked_began (hs : Fresh s) : c.startLocked.wp (alone c hooks) (Began s.plugins [] s) s := by
  refine Proc.wp_bind.mpr (wp_act.mpr ?_)
  rw [Proc.ends_ok]
  have hready : s.app.state ≠ .ready := by rcases hs.state with h | h <;> simp [h]
  have hstartable : ¬ (s.app.state ≠ .new ∧ s.app.state ≠ .validated) := by
    rcases hs.state with h | h <;> simp [h]
  show Proc.wp _ (if s.app.state = .ready then _
    else if s.app.state ≠ .new ∧ s.app.state ≠ .validated then _ else _) _ _
  rw [if_neg hready, if_neg hstartable]
  refine Proc.wp_bind.mpr (wp_act.mpr ?_)
  rw [Proc.ends_ok]
  have hstarting : Hooked s ((Act.goto .starting).exec c s).2 [] [] := Hooked.of_eq rfl
  have hsound : Sound c ((Act.goto .starting).exec c s).2 := ⟨(hs.sound (c := c)).owns, (hs.sound (c := c)).nodup⟩
  refine Proc.wp_bind.mpr (Proc.wp_attempt.mpr (Proc.wp_mono (wp_startUp_began hsound) fun x t ht => ?_))
  have ht : Began s.plugins [] s x t := ht.extend hstarting (Hooked.refl t)
  rw [Proc.ends_ok]
  cases x with
  | ok u => exact Proc.wp_bind.mpr (wp_act.mpr (ht.extend (Hooked.refl s) (Hooked.of_eq rfl)))
  | error e =>
    refine Proc.wp_bind.mpr (Proc.wp_mono (wp_unhooked (only_closeOwned .app) t) fun x t' ht' => ?_)
    have hclosed : ∀ e', Began s.plugins [] s (.error e') t' := fun e' => ht.failed.extend (Hooked.refl s) ht'
    cases x with
    | error e' => exact hclosed e'
    | ok failures =>
      refine Proc.wp_bind.mpr (wp_act.mpr (Proc.wp_bind.mpr (wp_act.mpr ?_)))
      have hfailed : ∀ e', Began s.plugins [] s (.error e')
          ((Act.goto .failed).exec c ((Act.clear .app).exec c t').2).2 :=
        fun e' => (hclosed e').extend (Hooked.refl s) (Hooked.of_eq rfl)
      exact wp_raiseShutdown hfailed (hfailed e)

theorem wp_start_began (hs : Fresh s) : c.start.wp (alone c hooks) (Began s.plugins [] s) s := by
  refine Proc.wp_bind.mpr (wp_await.mpr ?_)
  rintro x s' ⟨-, rfl, hs'⟩
  rw [Proc.ends_ok]
  have hfresh : Fresh s' := by
    rw [hs']
    exact ⟨hs.state, hs.holdings, hs.history⟩
  have hplugins : s'.plugins = s.plugins := by rw [hs']; rfl
  have hlocked : Hooked s s' [] [] := Hooked.of_eq (by rw [hs'])
  rw [← hplugins]
  refine Proc.wp_finally.mpr (Proc.wp_mono (wp_startLocked_began hfresh) fun x t ht => wp_act.mpr ?_)
  rw [Proc.ends_ok]
  exact ht.extend hlocked (Hooked.of_eq rfl)

/-- A stop calls stop hooks only, of plugins that are started, backwards. -/
def Unwound (s t : Scene κ ι) : Prop :=
  ∃ stops, Hooked s t [] stops ∧ stops <+: s.startedPlugins.reverse

omit [DecidableEq κ] in
theorem Unwound.extend {t' : Scene κ ι} (h : Unwound s t) (hafter : Hooked t t' [] []) : Unwound s t' := by
  obtain ⟨stops, hhooked, hstops⟩ := h
  have hall := hhooked.trans hafter
  rw [List.append_nil, List.append_nil] at hall
  exact ⟨stops, hall, hstops⟩

theorem wp_stopLocked_unwound (s : Scene κ ι) : c.stopLocked.wp (alone c hooks) (fun _ t => Unwound s t) s := by
  refine Proc.wp_bind.mpr (wp_act.mpr ?_)
  rw [Proc.ends_ok]
  have hidle : Unwound s s := ⟨[], Hooked.refl s, List.nil_prefix⟩
  show Proc.wp _ (if s.app.state = .stopped then _ else if s.app.state = .new ∨ s.app.state = .validated ∨
    s.app.state = .failed then _ else if s.app.state ≠ .ready then _ else _) _ _
  split_ifs
  · exact hidle
  · exact Proc.wp_bind.mpr (wp_act.mpr (hidle.extend (Hooked.of_eq rfl)))
  · exact hidle
  refine Proc.wp_bind.mpr (wp_act.mpr ?_)
  rw [Proc.ends_ok]
  refine Proc.wp_bind.mpr (Proc.wp_mono wp_drain fun x s₁ hx => ?_)
  obtain ⟨hs₁, -⟩ := hx
  have hwaited : Hooked s s₁ [] [] := Hooked.of_eq (by rw [hs₁]; rfl)
  have hstarted : startedIn s₁ (s₁.app.plugins.rows.map Prod.fst).reverse = s.startedPlugins.reverse := by
    rw [startedIn, List.filter_reverse, ← startedIn, startedIn_names, hs₁]
    rfl
  cases x with
  | error e => exact ⟨[], hwaited, List.nil_prefix⟩
  | ok late =>
    refine Proc.wp_bind.mpr (Proc.wp_bind.mpr (wp_act.mpr ?_))
    rw [Proc.ends_ok]
    refine Proc.wp_mono (wp_stopEntries (List.nodup_reverse.mpr s₁.app.plugins.nodup) s₁) fun x s₂ h₂ => ?_
    have hunwound : Unwound s s₂ := by
      have hstops := hwaited.trans (Hooked.of_history _ h₂.history)
      rw [hstarted, (events_stopped _).1, (events_stopped _).2] at hstops
      exact ⟨_, hstops, called_front hooks _⟩
    cases x with
    | error e => exact hunwound
    | ok plugins =>
      refine Proc.wp_bind.mpr (Proc.wp_mono (wp_unhooked (only_closeOwned .app) s₂) fun x s₃ h₃ => ?_)
      cases x with
      | error e => exact hunwound.extend h₃
      | ok resources =>
        refine Proc.wp_bind.mpr (wp_act.mpr (Proc.wp_bind.mpr (wp_act.mpr ?_)))
        have hstopped : Unwound s ((Act.goto .stopped).exec c ((Act.clear .app).exec c s₃).2).2 :=
          (hunwound.extend h₃).extend (Hooked.of_eq rfl)
        exact wp_raiseShutdown (fun _ => hstopped) hstopped

theorem wp_stop_unwound (s : Scene κ ι) : c.stop.wp (alone c hooks) (fun _ t => Unwound s t) s := by
  refine Proc.wp_bind.mpr (wp_await.mpr ?_)
  rintro x s' ⟨-, rfl, rfl⟩
  rw [Proc.ends_ok]
  refine Proc.wp_finally.mpr (Proc.wp_mono (wp_stopLocked_unwound _) fun x t ht => wp_act.mpr ?_)
  rw [Proc.ends_ok]
  obtain ⟨stops, hhooked, hstops⟩ := ht
  exact ⟨stops, ⟨hhooked.starts, hhooked.stops⟩, hstops⟩

end Hooks

/-- **Plugins in order.**  Whatever composes an application, and whatever its hooks end in: a start starts plugins after
all they require, and none of them requires itself; a start that returns has started all of them; and neither a start
that fails nor a stop calls the stop hook of a plugin before that of one that requires it. -/
theorem plugins_in_order (p : Build κ γ) (py : Library) (python : Composition κ ι) (hooks : Hooks κ) :
    let a := p.composed py python.contractName
    let c := a.composition python
    (∀ l x t, Runs (alone c hooks) c.start a.scene l x t →
      startsOf t.history <+: a.names ∧ Ordered (requirements a.entries) (startsOf t.history) ∧
        (∀ plugin ∈ a.names, ¬ Relation.TransGen (fun x y => y ∈ requirements a.entries x) plugin plugin) ∧
        (x.isOk → startsOf t.history = a.names ∧ stopsOf t.history = []) ∧
        (stopsOf t.history).Sublist (startsOf t.history).reverse ∧
        (stopsOf t.history).Pairwise (fun plugin plugin' => plugin ∉ requirements a.entries plugin') ∧
        t.plugins = a.names) ∧
    ∀ s l x t, s.plugins = a.names → Runs (alone c hooks) c.stop s l x t →
      ∃ stops, stopsOf t.history = stopsOf s.history ++ stops ∧ startsOf t.history = startsOf s.history ∧
        stops <+: s.startedPlugins.reverse ∧
        stops.Pairwise fun plugin plugin' => plugin ∉ requirements a.entries plugin' := by
  intro a c
  have ha : Composed python.contractName a.toRegistrations := composed_run p
  have hnames : a.names.Nodup := a.entries.nodup
  have hscene : (a.scene : Scene κ ι).plugins = a.names := by
    show (a.entries.rows.map _).map Prod.fst = _
    rw [List.map_map]
    rfl
  constructor
  · intro l x t h
    have hfresh : Fresh (a.scene : Scene κ ι) := ⟨ha.mutable, fun _ => rfl, rfl⟩
    obtain ⟨hplugins, hbegan⟩ := h.post (wp_plugins (wp_start_began hfresh))
    obtain ⟨starts, stops, hhooked, hlisted, hunwound, hcomplete⟩ := hbegan
    have hstarts : startsOf t.history = starts := hhooked.starts
    have hstops : stopsOf t.history = stops := hhooked.stops
    rw [hscene] at hlisted hcomplete hplugins
    rw [List.append_nil] at hunwound
    rw [hstarts, hstops]
    have hordered : Ordered (requirements a.entries) starts := Ordered.of_prefix ha.ordered hlisted
    exact ⟨hlisted, hordered, fun plugin hp => Ordered.not_transGen ha.ordered hp, hcomplete, hunwound,
      Ordered.pairwise_of_sublist_reverse hordered (hnames.sublist hlisted.sublist) hunwound, hplugins⟩
  · intro s l x t hplugins h
    obtain ⟨stops, hhooked, hstops⟩ := h.post (wp_stop_unwound s)
    have hstarted : s.startedPlugins.Sublist a.names := by
      rw [← hplugins]
      exact List.filter_sublist.map Prod.fst
    refine ⟨stops, hhooked.stops, hhooked.starts.trans (List.append_nil _), hstops, ?_⟩
    exact Ordered.pairwise_of_sublist_reverse ha.ordered hnames (hstops.sublist.trans hstarted.reverse)

/-! ## A plugin that adds another one -/

def namedPlugin (name : String) (requires : List String) : PluginMetadata := ⟨some name, some "1", some requires⟩

/-- `cache` adds `mail` in its hook, and provides something after that; `search` requires both. -/
def nestedPlugins : Build String Unit :=
  let mail : Build String Unit := .provide { contract := "Mail" } fun _ => .done
  let cache : Build String Unit := .addPlugin (namedPlugin "mail" []) (.ok ()) (fun _ => mail)
    fun _ => .provide { contract := "Cache" } fun _ => .done
  .addPlugin (namedPlugin "cache" []) (.ok ()) (fun _ => cache) fun _ =>
    .validate fun _ => .addPlugin (namedPlugin "search" ["mail", "cache"]) (.ok ()) (fun _ => .done) fun _ => .done

def nestedApp : Registrations String := (nestedPlugins.composed Http.CSRFMiddleware.asciiLibrary id).toRegistrations

def nestedComposition : Composition String ℕ := nestedApp.composition withDatabase

/-- All plugins start, and all are stopped. -/
theorem plugins_in_order_nested : ∃ t t' : Scene String ℕ, nestedApp.names = ["mail", "cache", "search"] ∧
    startsOf t.history = nestedApp.names ∧ Ordered (requirements nestedApp.entries) (startsOf t.history) ∧
    stopsOf t'.history = ["search", "cache", "mail"] ∧
    (stopsOf t'.history).Pairwise fun plugin plugin' => plugin ∉ requirements nestedApp.entries plugin' := by
  have hfacts : ((nestedComposition.start.run (answerAlone nestedComposition (allStart []) 7) nestedApp.scene).bind
      fun x => (nestedComposition.stop.run (answerAlone nestedComposition (allStart []) 7) x.2).map fun y =>
        (x.1.isOk, startsOf x.2.history, stopsOf x.2.history, stopsOf y.2.history)) =
          some (true, ["mail", "cache", "search"], [], ["search", "cache", "mail"]) := by decide +kernel
  obtain ⟨⟨x, t⟩, hstart, hrest⟩ := Option.bind_eq_some_iff.mp hfacts
  obtain ⟨⟨y, t'⟩, hstop, he⟩ := Option.map_eq_some_iff.mp hrest
  simp only [Prod.mk.injEq] at he
  obtain ⟨hok, hstarts, hstops, hstops'⟩ := he
  obtain ⟨l, hl⟩ := Proc.runs_run (answers_answerAlone 7) hstart
  obtain ⟨l', hl'⟩ := Proc.runs_run (answers_answerAlone 7) hstop
  obtain ⟨hbegun, hstopping⟩ :=
    plugins_in_order nestedPlugins Http.CSRFMiddleware.asciiLibrary withDatabase (allStart [])
  obtain ⟨-, hordered, -, hcomplete, -, -, hplugins⟩ := hbegun l x t hl
  obtain ⟨stops, hcalled, -, -, hbackwards⟩ := hstopping t l' y t' hplugins hl'
  rw [hstops, List.nil_append] at hcalled
  rw [← hcalled] at hbackwards
  exact ⟨t, t', by decide +kernel, (hcomplete hok).1, hordered, hstops', hbackwards⟩

end Xyberos.Runtime
