import Xyberos.Base.Layers
import Xyberos.Python
import Mathlib.Data.List.Sort

/-!
# Xyberos.Runtime.Config — loading the settings

`load_settings` merges the configuration file, the environment and the overrides as they are spelled, and normalizes the
names of sections afterwards.  A path is a string, a TOML document is the mapping it is read as, and the conversions of
the built-in types are parameters (`Builtins`).

The options of a plugin are what all its sections say, the last one having the word, exactly when the sections under
the spelling that is introduced last say the same as all of them.
-/

set_option autoImplicit false

namespace Xyberos.Runtime

/-- A value that is no mapping; `other` stands for dates, arrays and other objects. -/
inductive Leaf where
  | none
  | bool (b : Bool)
  | int (n : ℤ)
  | float (x : Seconds)
  | str (s : String)
  | other (n : ℕ)
deriving DecidableEq

abbrev Config := Tree String Leaf

/-- A mapping, in order of insertion. -/
abbrev Mapping := List (String × Config)

/-- `str.lower`, `int(s)`, `float(s)` and `float(n)`. -/
structure Builtins where
  lower : String → String
  parseInt : String → Option ℤ
  parseFloat : String → Option Seconds
  floatOfInt : ℤ → Except Exc Seconds

def configurationError (message : String) : Exc := xyberosError "ConfigurationError" [] message

/-- `_deep_merge`. -/
def deepMerge (base override : Mapping) : Mapping := Tree.mergeItems base override

/-! ## The environment -/

/-- `s.split("__")`. -/
def splitDunder : List Char → List Char → List String
  | '_' :: '_' :: rest, part => String.ofList part.reverse :: splitDunder rest []
  | c :: rest, part => splitDunder rest (c :: part)
  | [], part => [String.ofList part.reverse]

/-- `cursor[..]..[parts[-1]] = value`; `none` when a part on the way is no dictionary. -/
def insertSetting : List String → String → Mapping → Option Mapping
  | [], _, values => some values
  | [part], value, values => some (Tree.put part (.leaf (.str value)) values)
  | part :: rest, value, values =>
    match values.lookup part with
    | none => (insertSetting rest value []).map fun inner => Tree.put part (.table inner) values
    | some (.table inner) => (insertSetting rest value inner).map fun inner => Tree.put part (.table inner) values
    | some (.leaf _) => none

/-- The turn of `_environment_values` for one variable. -/
def environmentStep (py : Builtins) (values : Mapping) (setting : String × String) : Except Exc Mapping :=
  let (name, value) := setting
  if name = "XYBEROS_CONFIG" ∨ ¬ "XYBEROS_".toList <+: name.toList then .ok values
  else
    let parts := splitDunder (py.lower (String.ofList (name.toList.drop 8))).toList []
    if "" ∈ parts then .error (configurationError s!"invalid environment setting name: {name}")
    else
      match insertSetting parts value values with
      | some values => .ok values
      | none => .error (configurationError s!"conflicting environment setting: {name}")

/-- `_environment_values`. -/
def environmentValues (py : Builtins) (environ : List (String × String)) : Except Exc Mapping :=
  environ.foldlM (environmentStep py) []

/-! ## Validation -/

structure AppSettings where
  name : String
  environment : String
  debug : Bool
  shutdownTimeout : Option Seconds

structure Settings where
  schemaVersion : ℤ
  app : AppSettings
  plugins : List (String × Mapping)
  ai : List (String × Mapping)

/-- `_reject_unknown_keys`. -/
def rejectUnknownKeys (values : Mapping) (allowed : List String) (location : String) : Except Exc Unit :=
  let unknown := ((values.map Prod.fst).filter fun key => key ∉ allowed).insertionSort (· ≤ ·)
  let joined := ", ".intercalate unknown
  if unknown = [] then .ok () else .error (configurationError s!"unknown setting(s) at {location}: {joined}")

/-- `_as_int`. -/
def asInt (py : Builtins) (value : Config) (location : String) : Except Exc ℤ :=
  let refused := .error (configurationError s!"{location} must be an integer")
  match value with
  | .leaf (.int n) => .ok n
  | .leaf (.str s) => (py.parseInt s).elim refused .ok
  | _ => refused

/-- `_as_non_empty_string`. -/
def asNonEmptyString (value : Config) (location : String) : Except Exc String :=
  let refused := .error (configurationError s!"{location} must be a non-empty string")
  match value with
  | .leaf (.str s) => if isBlank s then refused else .ok s
  | _ => refused

/-- `s.strip()`. -/
def strip (s : String) : String :=
  String.ofList ((s.toList.dropWhile isSpace).reverse.dropWhile isSpace).reverse

/-- `_as_bool`. -/
def asBool (py : Builtins) (value : Config) (location : String) : Except Exc Bool :=
  let refused := .error (configurationError s!"{location} must be a boolean")
  match value with
  | .leaf (.bool b) => .ok b
  | .leaf (.str s) =>
    if py.lower (strip s) ∈ ["1", "true", "yes", "on"] then .ok true
    else if py.lower (strip s) ∈ ["0", "false", "no", "off"] then .ok false
    else refused
  | _ => refused

/-- `_as_optional_timeout`, with `_as_float`. -/
def asOptionalTimeout (py : Builtins) (value : Option Config) (location : String) : Except Exc (Option Seconds) :=
  let refused := .error (configurationError s!"{location} must be a positive number of seconds")
  let positive := fun timeout : Seconds => if timeout.notPositive then refused else .ok (some timeout)
  match value with
  | none => .ok none
  | some (.leaf .none) => .ok none
  | some (.leaf (.int n)) => py.floatOfInt n >>= positive
  | some (.leaf (.float x)) => positive x
  | some (.leaf (.str s)) => (py.parseFloat (strip s)).elim refused positive
  | some _ => refused

/-- The turn of `_sections_from_mapping` for one section. -/
def sectionStep (py : Builtins) (item : String) (sections : List (String × Mapping)) (entry : String × Config) :
    Except Exc (List (String × Mapping)) :=
  let (name, value) := entry
  if isBlank name then .error (configurationError s!"{item} names must be non-empty strings")
  else
    match value with
    | .leaf _ =>
      .error (configurationError s!"the configuration for {item} {reprStr name} must be a table/object")
    | .table items => .ok (Tree.put (py.lower name) items sections)

/-- `_sections_from_mapping`. -/
def sectionsFromMapping (py : Builtins) (values : Option Config) (label item : String) :
    Except Exc (List (String × Mapping)) :=
  match values with
  | none => .ok []
  | some (.leaf .none) => .ok []
  | some (.leaf _) => .error (configurationError s!"{label} must be a table/object")
  | some (.table entries) => entries.foldlM (sectionStep py item) []

/-- The part of `_settings_from_mapping` for the core: the schema version and the table `app`. -/
def coreFromMapping (py : Builtins) (values : Mapping) : Except Exc (ℤ × AppSettings) := do
  rejectUnknownKeys values ["schema_version", "app", "plugins", "ai"] "root"
  let schemaVersion ← asInt py ((values.lookup "schema_version").getD (.leaf (.int 1))) "schema_version"
  if schemaVersion ≠ 1 then
    throw (configurationError s!"unsupported configuration schema_version: {schemaVersion}; expected 1")
  let .table app := (values.lookup "app").getD (.table []) | throw (configurationError "app must be a table/object")
  rejectUnknownKeys app ["name", "environment", "debug", "shutdown_timeout"] "app"
  let name ← asNonEmptyString ((app.lookup "name").getD (.leaf (.str "xyberos"))) "app.name"
  let environment ← asNonEmptyString ((app.lookup "environment").getD (.leaf (.str "development"))) "app.environment"
  let debug ← asBool py ((app.lookup "debug").getD (.leaf (.bool false))) "app.debug"
  let shutdownTimeout ← asOptionalTimeout py (app.lookup "shutdown_timeout") "app.shutdown_timeout"
  return (schemaVersion, { name, environment, debug, shutdownTimeout })

/-- `_settings_from_mapping`. -/
def settingsFromMapping (py : Builtins) (values : Mapping) : Except Exc Settings := do
  let (schemaVersion, app) ← coreFromMapping py values
  let plugins ← sectionsFromMapping py (values.lookup "plugins") "plugins" "plugin"
  let ai ← sectionsFromMapping py (values.lookup "ai") "ai" "AI provider"
  return { schemaVersion, app, plugins, ai }

/-! ## Loading -/

/-- A mapping with distinct keys, at every depth. -/
structure Document where
  items : Mapping
  valid : (Tree.table items : Config).Valid

/-- What is found under a path. -/
inductive FileState where
  | missing
  | unreadable
  | toml (document : Document)

/-- The arguments of `load_settings`, and the files. -/
structure Sources where
  files : String → FileState
  cwd : String
  configPath : Option String
  environ : List (String × String)
  overrides : Option Document

/-- `_resolve_path`. -/
def resolvePath (value cwd : String) : String :=
  if value.toList.head? = some '/' then value else cwd ++ "/" ++ value

/-- `_select_config_path`: the path, and whether it was asked for. -/
def Sources.selectConfigPath (s : Sources) : String × Bool :=
  match s.configPath, (s.environ.lookup "XYBEROS_CONFIG").filter (· ≠ "") with
  | some path, _ => (resolvePath path s.cwd, true)
  | none, some path => (resolvePath path s.cwd, true)
  | none, none => (s.cwd ++ "/xyberos.toml", false)

/-- The mapping of the configuration file. -/
def Sources.fileValues (s : Sources) : Except Exc Mapping :=
  let (path, explicit) := s.selectConfigPath
  match s.files path with
  | .missing =>
    if explicit then .error (configurationError s!"configuration file does not exist: {path}") else .ok []
  | .unreadable => .error (configurationError s!"unable to read configuration file: {path}")
  | .toml document => .ok document.items

/-- `load_settings`. -/
def loadSettings (py : Builtins) (s : Sources) : Except Exc Settings := do
  let values ← s.fileValues
  let values := deepMerge values (← environmentValues py s.environ)
  let values := match s.overrides with
    | some overrides => deepMerge values overrides.items
    | none => values
  settingsFromMapping py values

/-- `plugin_options`. -/
def Settings.pluginOptions (py : Builtins) (settings : Settings) (name : String) : Mapping :=
  (settings.plugins.lookup (py.lower name)).getD []

/-- `ai_options`. -/
def Settings.aiOptions (py : Builtins) (settings : Settings) (provider : String) : Mapping :=
  (settings.ai.lookup (py.lower provider)).getD []

/-! ## What the sections are -/

section Sections

variable (py : Builtins) (label name : String) (layers : List Mapping)

/-- The last of the keys that stand for a name. -/
def lastKey (keys : List String) : Option String :=
  (keys.filter fun key => py.lower key = py.lower name).getLast?

/-- What the sources have under a label: `plugins` or `ai`. -/
def labelled : List Config := Tree.under label layers

/-- An entry that is a section. -/
def sectionOf (entry : String × Config) : Option Config :=
  match entry.2 with
  | .table items => some (.table items)
  | .leaf _ => none

/-- All sections with the name, ignoring case, from the source of lowest precedence to that of highest. -/
def sections : List Config :=
  (labelled label layers).flatMap fun tree => match tree with
    | .table entries => (entries.filter fun entry => py.lower entry.1 = py.lower name).filterMap sectionOf
    | .leaf _ => []

/-- The spelling of the name that the sources introduce last. -/
def lastSpelling : Option String :=
  lastKey py name (Tree.introduced (Tree.tables (labelled label layers)))

/-- The sections under the spelling that the sources introduce last. -/
def lastSpelled : List Config :=
  match lastSpelling py label name layers with
  | some key => Tree.under key (Tree.tables (labelled label layers))
  | none => []

/-- The options are what the layers say: of every setting, at any depth, the last one has the word. -/
def Reads (options : Mapping) (layers : List Config) : Prop :=
  ∀ key path, (Tree.table options : Config).view (key :: path) = Tree.lastWord layers (key :: path)

/-- The sections under the last spelling say the same as all sections. -/
def LastSpellingDecides : Prop :=
  ∀ key path, Tree.lastWord (lastSpelled py label name layers) (key :: path) =
    Tree.lastWord (sections py label name layers) (key :: path)

end Sections

/-- The three sources of the settings, from the lowest precedence to the highest. -/
def Sources.layers (py : Builtins) (s : Sources) : List Mapping :=
  [s.fileValues.toOption.getD [], (environmentValues py s.environ).toOption.getD []] ++
    (s.overrides.map Document.items).toList

/-! ### The mappings are well formed -/

theorem valid_empty : (Tree.table [] : Config).Valid := .table List.nodup_nil fun _ h => absurd h List.not_mem_nil

/-- The last turn of a loop. -/
theorem foldlM_concat_ok {α β : Type} {f : β → α → Except Exc β} {l : List α} {x : α} {b b' : β}
    (h : (l ++ [x]).foldlM f b = .ok b') : ∃ b₁, l.foldlM f b = .ok b₁ ∧ f b₁ x = .ok b' := by
  rw [List.foldlM_append] at h
  cases hprev : l.foldlM f b with
  | error e =>
    rw [hprev] at h
    cases h
  | ok b₁ =>
    rw [hprev] at h
    have hlast : List.foldlM f b₁ [x] = .ok b' := h
    simp only [List.foldlM_cons, List.foldlM_nil, bind_pure] at hlast
    exact ⟨b₁, rfl, hlast⟩

theorem insertSetting_valid {parts : List String} {value : String} {values values' : Mapping}
    (hv : (Tree.table values : Config).Valid) (h : insertSetting parts value values = some values') :
    (Tree.table values' : Config).Valid := by
  induction parts generalizing values values' with
  | nil =>
    obtain rfl := Option.some.inj h
    exact hv
  | cons part rest ih =>
    cases rest with
    | nil =>
      obtain rfl := Option.some.inj h
      exact hv.put (.leaf _)
    | cons part' rest =>
      unfold insertSetting at h
      cases hl : values.lookup part with
      | none =>
        rw [hl] at h
        obtain ⟨inner, hi, rfl⟩ := Option.map_eq_some_iff.mp h
        exact hv.put (ih valid_empty hi)
      | some tree =>
        rw [hl] at h
        cases tree with
        | leaf => cases h
        | table inner =>
          obtain ⟨inner', hi, rfl⟩ := Option.map_eq_some_iff.mp h
          exact hv.put (ih (hv.of_lookup hl) hi)

theorem environmentStep_valid {py : Builtins} {values values' : Mapping} {setting : String × String}
    (hv : (Tree.table values : Config).Valid) (h : environmentStep py values setting = .ok values') :
    (Tree.table values' : Config).Valid := by
  unfold environmentStep at h
  dsimp only at h
  split_ifs at h
  · obtain rfl := Except.ok.inj h
    exact hv
  · cases hi : insertSetting (splitDunder (py.lower (String.ofList (setting.1.toList.drop 8))).toList []) setting.2
      values with
    | none => simp [hi] at h
    | some inner =>
      simp only [hi, Except.ok.injEq] at h
      exact h ▸ insertSetting_valid hv hi

theorem environmentValues_valid {py : Builtins} {environ : List (String × String)} {env : Mapping}
    (h : environmentValues py environ = .ok env) : (Tree.table env : Config).Valid := by
  induction environ using List.reverseRecOn generalizing env with
  | nil =>
    obtain rfl : [] = env := Except.ok.inj h
    exact valid_empty
  | append_singleton environ setting ih =>
    obtain ⟨prev, hprev, hstep⟩ := foldlM_concat_ok h
    exact environmentStep_valid (ih hprev) hstep

/-! ### The sections of the merged mapping -/

section Lookup

variable {py : Builtins} {item : String} {entries : Mapping} {secs : List (String × Mapping)}

theorem sectionStep_ok {secs' : List (String × Mapping)} {entry : String × Config}
    (h : sectionStep py item secs entry = .ok secs') :
    ∃ items, entry.2 = .table items ∧ secs' = Tree.put (py.lower entry.1) items secs := by
  obtain ⟨key, tree⟩ := entry
  unfold sectionStep at h
  dsimp only at h
  split_ifs at h
  cases tree with
  | leaf => cases h
  | table items => exact ⟨items, rfl, (Except.ok.inj h).symm⟩

theorem lastKey_concat (name : String) (keys : List String) (key : String) :
    lastKey py name (keys ++ [key]) = if py.lower key = py.lower name then some key else lastKey py name keys := by
  unfold lastKey
  rw [List.filter_append]
  by_cases hname : py.lower key = py.lower name
  · rw [if_pos hname, List.filter_cons_of_pos (by simpa using hname), List.filter_nil, List.getLast?_concat]
  · rw [if_neg hname, List.filter_cons_of_neg (by simpa using hname), List.filter_nil, List.append_nil]

/-- A later section of the same name takes the place of an earlier one. -/
theorem lookup_sections (hn : (entries.map Prod.fst).Nodup) (h : entries.foldlM (sectionStep py item) [] = .ok secs)
    (name : String) :
    (lastKey py name (entries.map Prod.fst) = none → secs.lookup (py.lower name) = none) ∧
      ∀ key, lastKey py name (entries.map Prod.fst) = some key →
        ∃ items, entries.lookup key = some (.table items) ∧ secs.lookup (py.lower name) = some items := by
  induction entries using List.reverseRecOn generalizing secs with
  | nil =>
    obtain rfl : [] = secs := Except.ok.inj h
    exact ⟨fun _ => rfl, fun key hkey => absurd hkey (by simp [lastKey])⟩
  | append_singleton entries entry ih =>
    obtain ⟨prev, hprev, hstep⟩ := foldlM_concat_ok h
    obtain ⟨items, hitems, rfl⟩ := sectionStep_ok hstep
    rw [List.map_append, List.nodup_append] at hn
    obtain ⟨hnone, hsome⟩ := ih hn.1 hprev
    have hfresh : entry.1 ∉ entries.map Prod.fst := fun hm => hn.2.2 _ hm _ (by simp) rfl
    rw [List.map_append, List.map_singleton, lastKey_concat]
    by_cases hname : py.lower entry.1 = py.lower name
    · rw [if_pos hname]
      refine ⟨by simp, fun key hkey => ⟨items, ?_, ?_⟩⟩
      · obtain rfl := Option.some.inj hkey
        rw [List.lookup_append, Table.lookup_eq_none_iff.mpr hfresh, ← hitems]
        show List.lookup entry.1 [(entry.1, entry.2)] = some entry.2
        rw [List.lookup_cons, beq_self_eq_true]
      · rw [hname, Tree.lookup_put, if_pos rfl]
    · rw [if_neg hname, Tree.lookup_put, if_neg (Ne.symm hname)]
      refine ⟨hnone, fun key hkey => ?_⟩
      obtain ⟨items', hl, hs⟩ := hsome key hkey
      refine ⟨items', ?_, hs⟩
      rw [List.lookup_append, hl]
      rfl

end Lookup

section Reading

variable {py : Builtins} {label item name : String} {layers : List Mapping} {values : Mapping}
  {secs : List (String × Mapping)}

/-- The options are what the sections under the last spelling say. -/
theorem reads_lastSpelled (hv : ∀ layer ∈ layers, (Tree.table layer : Config).Valid)
    (hvalues : Tree.combine (layers.map .table) = some (.table values))
    (h : sectionsFromMapping py (values.lookup label) label item = .ok secs) :
    Reads ((secs.lookup (py.lower name)).getD []) (lastSpelled py label name layers) := by
  have hvalid : ∀ tree ∈ layers.map (Tree.table (α := Leaf)), Tree.Valid tree := by
    intro tree ht
    obtain ⟨layer, hl, rfl⟩ := List.mem_map.mp ht
    exact hv layer hl
  have hlabel : values.lookup label = Tree.combine (labelled label layers) := by
    have hitem := Tree.item_combine hvalid label
    rwa [hvalues, Tree.tables_map_table] at hitem
  have hlabelled : ∀ tree ∈ labelled label layers, Tree.Valid tree := Tree.valid_under hv
  have hkeys := Tree.keys_combine hlabelled
  have hempty : ∀ key path, Tree.view (.table [] : Config) (key :: path) = none := fun _ _ => rfl
  intro key path
  rw [hlabel] at h
  cases hc : Tree.combine (labelled label layers) with
  | none =>
    rw [hc] at h hkeys
    obtain rfl : [] = secs := Except.ok.inj h
    have hnone : lastSpelling py label name layers = none := by
      rw [lastSpelling, ← hkeys]
      rfl
    rw [lastSpelled, hnone, Tree.lastWord_nil]
    rfl
  | some tree =>
    cases tree with
    | leaf a =>
      have hnone : lastSpelling py label name layers = none := by
        rw [lastSpelling, ← hkeys, hc]
        rfl
      have hsecs : secs = [] := by
        rw [hc] at h
        cases a with
        | none => exact (Except.ok.inj h).symm
        | _ => cases h
      rw [lastSpelled, hnone, Tree.lastWord_nil, hsecs]
      rfl
    | table entries =>
      rw [hc] at h hkeys
      have hentries : entries.map Prod.fst = Tree.introduced (Tree.tables (labelled label layers)) := hkeys
      have hnodup : (entries.map Prod.fst).Nodup := by
        rw [hentries]
        exact Tree.nodup_introduced fun items hi => (Tree.valid_tables hlabelled items hi).nodup
      obtain ⟨hnone, hsome⟩ := lookup_sections hnodup h name
      cases hlast : lastSpelling py label name layers with
      | none =>
        rw [lastSpelling, ← hentries] at hlast
        rw [hnone hlast, lastSpelled, lastSpelling, ← hentries, hlast, Tree.lastWord_nil]
        rfl
      | some spelling =>
        have hspelling := hlast
        rw [lastSpelling, ← hentries] at hspelling
        obtain ⟨items, hl, hs⟩ := hsome spelling hspelling
        have hcombine : Tree.combine (Tree.under spelling (Tree.tables (labelled label layers))) = some (.table items) := by
          rw [← Tree.item_combine hlabelled, hc]
          exact hl
        rw [hs, lastSpelled, hlast]
        show _ = Tree.lastWord (Tree.under spelling (Tree.tables (labelled label layers))) (key :: path)
        rw [← Tree.view_combine (Tree.valid_under (Tree.valid_tables hlabelled)), hcombine]
        rfl

end Reading

theorem bind_ok {α β : Type} {x : Except Exc α} {f : α → Except Exc β} {b : β} (h : x >>= f = .ok b) :
    ∃ a, x = .ok a ∧ f a = .ok b := by
  cases x with
  | error e => cases h
  | ok a => exact ⟨a, rfl, h⟩

theorem settingsFromMapping_ok {py : Builtins} {values : Mapping} {settings : Settings}
    (h : settingsFromMapping py values = .ok settings) :
    sectionsFromMapping py (values.lookup "plugins") "plugins" "plugin" = .ok settings.plugins ∧
      sectionsFromMapping py (values.lookup "ai") "ai" "AI provider" = .ok settings.ai := by
  obtain ⟨core, -, h⟩ := bind_ok h
  obtain ⟨plugins, hplugins, h⟩ := bind_ok h
  obtain ⟨ai, hai, h⟩ := bind_ok h
  obtain rfl := Except.ok.inj h
  exact ⟨hplugins, hai⟩

/-- The settings are read from the three sources, merged. -/
theorem loadSettings_ok {py : Builtins} {s : Sources} {settings : Settings} (h : loadSettings py s = .ok settings) :
    ∃ values, Tree.combine ((s.layers py).map .table) = some (.table values) ∧
      (∀ layer ∈ s.layers py, (Tree.table layer : Config).Valid) ∧ settingsFromMapping py values = .ok settings := by
  obtain ⟨file, hfile, h⟩ := bind_ok h
  obtain ⟨env, henv, h⟩ := bind_ok h
  have hfileValid : (Tree.table file : Config).Valid := by
    unfold Sources.fileValues at hfile
    dsimp only at hfile
    cases hstate : s.files s.selectConfigPath.1 with
    | missing =>
      rw [hstate] at hfile
      dsimp only at hfile
      split_ifs at hfile
      obtain rfl : [] = file := Except.ok.inj hfile
      exact valid_empty
    | unreadable =>
      rw [hstate] at hfile
      cases hfile
    | toml document =>
      rw [hstate] at hfile
      obtain rfl : document.items = file := Except.ok.inj hfile
      exact document.valid
  have hlayers : s.layers py = [file, env] ++ (s.overrides.map Document.items).toList := by
    rw [Sources.layers, hfile, henv]
    rfl
  rw [hlayers]
  cases hover : s.overrides with
  | none =>
    rw [hover] at h
    refine ⟨_, rfl, ?_, h⟩
    rintro layer hl
    simp only [Option.map_none, Option.toList_none, List.append_nil, List.mem_cons, List.not_mem_nil, or_false] at hl
    rcases hl with rfl | rfl
    · exact hfileValid
    · exact environmentValues_valid henv
  | some overrides =>
    rw [hover] at h
    refine ⟨_, rfl, ?_, h⟩
    rintro layer hl
    simp only [Option.map_some, Option.toList_some, List.cons_append, List.nil_append, List.mem_cons,
      List.not_mem_nil, or_false] at hl
    rcases hl with rfl | rfl | rfl
    · exact hfileValid
    · exact environmentValues_valid henv
    · exact overrides.valid

theorem reads_iff {py : Builtins} {label name : String} {layers : List Mapping} {options : Mapping}
    (h : Reads options (lastSpelled py label name layers)) :
    Reads options (sections py label name layers) ↔ LastSpellingDecides py label name layers := by
  unfold Reads LastSpellingDecides
  simp only [h _ _]

/-- The options of a plugin are what the sections under the last spelling say. -/
theorem pluginOptions_reads {py : Builtins} {s : Sources} {settings : Settings} (h : loadSettings py s = .ok settings)
    (name : String) : Reads (settings.pluginOptions py name) (lastSpelled py "plugins" name (s.layers py)) := by
  obtain ⟨values, hvalues, hvalid, hsettings⟩ := loadSettings_ok h
  exact reads_lastSpelled hvalid hvalues (settingsFromMapping_ok hsettings).1

theorem aiOptions_reads {py : Builtins} {s : Sources} {settings : Settings} (h : loadSettings py s = .ok settings)
    (name : String) : Reads (settings.aiOptions py name) (lastSpelled py "ai" name (s.layers py)) := by
  obtain ⟨values, hvalues, hvalid, hsettings⟩ := loadSettings_ok h
  exact reads_lastSpelled hvalid hvalues (settingsFromMapping_ok hsettings).2

/-- **The options of a plugin or a provider** are what all its sections say exactly when the sections under the last
spelling say the same. -/
theorem options_iff {py : Builtins} {s : Sources} {settings : Settings} (h : loadSettings py s = .ok settings)
    (name : String) :
    (Reads (settings.pluginOptions py name) (sections py "plugins" name (s.layers py)) ↔
      LastSpellingDecides py "plugins" name (s.layers py)) ∧
    (Reads (settings.aiOptions py name) (sections py "ai" name (s.layers py)) ↔
      LastSpellingDecides py "ai" name (s.layers py)) :=
  ⟨reads_iff (pluginOptions_reads h name), reads_iff (aiOptions_reads h name)⟩

/-- `[plugins.Metrics]` with `interval = 30` and `enabled = true`. -/
def metricsDocument : Document where
  items := [("plugins", .table [("Metrics", .table [("interval", .leaf (.int 30)), ("enabled", .leaf (.bool true))])])]
  valid := by
    have hsection : (Tree.table [("interval", .leaf (.int 30)), ("enabled", .leaf (.bool true))] : Config).Valid :=
      .table (by decide) (by simp [Tree.Valid.leaf])
    exact valid_empty.put (k := "plugins") (valid_empty.put (k := "Metrics") hsection)

/-- Built-ins that are right about ASCII and whole numbers of seconds. -/
def asciiBuiltins : Builtins where
  lower s := String.ofList (s.toList.map Char.toLower)
  parseInt _ := none
  parseFloat _ := none
  floatOfInt n := .ok (.finite n)

/-- A file with a section `[plugins.Metrics]`, and `XYBEROS_PLUGINS__METRICS__ENABLED=false`. -/
def twoSpellings : Sources where
  files path := if path = "/srv/xyberos.toml" then .toml metricsDocument else .missing
  cwd := "/srv"
  configPath := none
  environ := [("XYBEROS_PLUGINS__METRICS__ENABLED", "false")]
  overrides := none

theorem twoSpellings_accepted : ∃ settings, loadSettings asciiBuiltins twoSpellings = .ok settings := by
  have h : (loadSettings asciiBuiltins twoSpellings).toOption.isSome := by decide +kernel
  cases hload : loadSettings asciiBuiltins twoSpellings with
  | ok settings => exact ⟨settings, rfl⟩
  | error e => simp [hload, Except.toOption] at h

theorem options_twoSpellings : ∃ settings, loadSettings asciiBuiltins twoSpellings = .ok settings ∧
    (Reads (settings.pluginOptions asciiBuiltins "metrics")
      (sections asciiBuiltins "plugins" "metrics" (twoSpellings.layers asciiBuiltins)) ↔
      LastSpellingDecides asciiBuiltins "plugins" "metrics" (twoSpellings.layers asciiBuiltins)) := by
  obtain ⟨settings, h⟩ := twoSpellings_accepted
  exact ⟨settings, h, (options_iff h "metrics").1⟩

/-- The interval that the file sets is lost. -/
theorem not_reads_twoSpellings : ∃ settings, loadSettings asciiBuiltins twoSpellings = .ok settings ∧
    ¬ Reads (settings.pluginOptions asciiBuiltins "metrics")
      (sections asciiBuiltins "plugins" "metrics" (twoSpellings.layers asciiBuiltins)) := by
  obtain ⟨settings, h⟩ := twoSpellings_accepted
  refine ⟨settings, h, fun hreads => ?_⟩
  have hlost := (pluginOptions_reads h "metrics" "interval" []).symm.trans (hreads "interval" [])
  exact absurd hlost (by decide +kernel)

/-! ### One spelling -/

/-- The sections with a name in one source, when its name has one spelling. -/
theorem sections_entries {py : Builtins} {name spelling : String} {entries : Mapping}
    (hn : (entries.map Prod.fst).Nodup) (hs : py.lower spelling = py.lower name)
    (h : ∀ entry ∈ entries, py.lower entry.1 = py.lower name → entry.1 = spelling ∧ ∃ items, entry.2 = .table items) :
    (entries.filter fun entry => py.lower entry.1 = py.lower name).filterMap sectionOf =
      (entries.lookup spelling).toList := by
  induction entries with
  | nil => rfl
  | cons entry entries ih =>
    rw [List.map_cons, List.nodup_cons] at hn
    have ih := ih hn.2 fun entry he => h entry (List.mem_cons_of_mem _ he)
    obtain ⟨key, tree⟩ := entry
    rw [List.lookup_cons]
    by_cases hname : py.lower key = py.lower name
    · obtain ⟨rfl, items, rfl⟩ : key = spelling ∧ ∃ items, tree = .table items := h (key, tree) (by simp) hname
      have hnone : entries.lookup key = none := Table.lookup_eq_none_iff.mpr hn.1
      rw [List.filter_cons_of_pos (by simpa using hname), List.filterMap_cons, ih, hnone, beq_self_eq_true]
      rfl
    · have hne : spelling ≠ key := by
        rintro rfl
        exact hname hs
      rw [List.filter_cons_of_neg (by simpa using hname), ih, beq_false_of_ne hne]

/-- Where the sources have tables and write the name in one way, the last spelling decides. -/
theorem lastSpellingDecides_of_one_spelling {py : Builtins} {label name spelling : String} {layers : List Mapping}
    (hv : ∀ layer ∈ layers, (Tree.table layer : Config).Valid)
    (h : ∀ tree ∈ labelled label layers, ∃ entries, tree = .table entries ∧
      ∀ entry ∈ entries, py.lower entry.1 = py.lower name → entry.1 = spelling ∧ ∃ items, entry.2 = .table items) :
    LastSpellingDecides py label name layers := by
  have hlabelled : ∀ tree ∈ labelled label layers, Tree.Valid tree := Tree.valid_under hv
  have hvalid := Tree.valid_tables hlabelled
  have hfound := Tree.map_table_tables fun tree ht => (h tree ht).imp fun _ he => he.1
  generalize Tree.tables (labelled label layers) = found at hfound hvalid
  have hentries : ∀ entries ∈ found, ∀ entry ∈ entries, py.lower entry.1 = py.lower name →
      entry.1 = spelling ∧ ∃ items, entry.2 = .table items := by
    intro entries he
    obtain ⟨entries', heq, hentry⟩ := h (.table entries) (hfound ▸ List.mem_map_of_mem he)
    obtain rfl := Tree.table.inj heq
    exact hentry
  have hsections : sections py label name layers =
      found.flatMap fun entries => (entries.filter fun entry => py.lower entry.1 = py.lower name).filterMap sectionOf := by
    rw [sections, ← hfound, List.flatMap_map]
  have hlast : lastSpelled py label name layers = sections py label name layers := by
    rw [hsections, lastSpelled, lastSpelling, ← hfound, Tree.tables_map_table]
    cases hl : lastKey py name (Tree.introduced found) with
    | none =>
      have hno : ∀ entries ∈ found, ∀ entry ∈ entries, py.lower entry.1 ≠ py.lower name := by
        intro entries he entry hm hname
        have hkey := Tree.mem_introduced.mpr ⟨entries, he, List.mem_map_of_mem hm⟩
        have hmem : entry.1 ∈ (Tree.introduced found).filter fun key => py.lower key = py.lower name :=
          List.mem_filter.mpr ⟨hkey, by simpa using hname⟩
        rw [List.getLast?_eq_none_iff.mp hl] at hmem
        exact absurd hmem List.not_mem_nil
      refine (List.flatMap_eq_nil_iff.mpr fun entries he => ?_).symm
      rw [List.filter_eq_nil_iff.mpr fun entry hm => by simpa using hno entries he entry hm]
      rfl
    | some key =>
      obtain ⟨hkey, hname⟩ := List.mem_filter.mp (List.mem_of_getLast? hl)
      have hname : py.lower key = py.lower name := by simpa using hname
      obtain ⟨entries, he, hin⟩ := Tree.mem_introduced.mp hkey
      obtain ⟨entry, hm, rfl⟩ := List.mem_map.mp hin
      obtain ⟨hspelling, -⟩ := hentries entries he entry hm hname
      show Tree.under entry.1 found = _
      rw [Tree.under, hspelling, List.filterMap_eq_flatMap_toList]
      refine List.flatMap_congr fun entries he => ?_
      exact (sections_entries (hvalid entries he).nodup (hspelling ▸ hname) (hentries entries he)).symm
  unfold LastSpellingDecides
  rw [hlast]
  exact fun _ _ => rfl

end Xyberos.Runtime
