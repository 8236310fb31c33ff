import Xyberos.Base.Traces
import Xyberos.Http.Csrf

/-!
# Xyberos.Http.Routing — route templates, registration and compiled handlers

`routing.py`, `http/routing.py` and the routes of `http/adapter.py`.  A template is scanned once, with what stands behind
an open brace as the state of the scan; `pieces` and `render` are inverse on templates that are accepted
(`template_round_trip`).  A registry holds what every registration has checked, and only grows, so the adapter, which
compiles again when the count has changed, never serves an old route (`served_routes_current`).  A compiled handler is
called with exactly its parameters or not at all (`endpoint_calls`).
-/

set_option autoImplicit false

namespace Xyberos.Http

/-! ## Templates -/

/-- A part of a template: a character, or a parameter in braces. -/
inductive Piece
  | literal (c : Char)
  | parameter (name : List Char)
deriving DecidableEq, Repr

/-- `[a-zA-Z_]` -/
def isNameStart (c : Char) : Bool := c.isAlpha || c == '_'

/-- `[a-zA-Z0-9_]` -/
def isNameChar (c : Char) : Bool := c.isAlphanum || c == '_'

def openBrace : Char := '\x7b'

def closeBrace : Char := '\x7d'

/-- An open brace with the name behind it, the last character first, can go on with `c`. -/
def extends? (name : List Char) (c : Char) : Bool := if name.isEmpty then isNameStart c else isNameChar c

/-- The brace does not open a parameter. -/
def unmatched (name : List Char) : List Piece := .literal openBrace :: name.reverse.map .literal

/-- The matches of `_PATH_PARAMETER` from left to right, with the characters between them. -/
def scan : List Char → Option (List Char) → List Piece
  | [], none => []
  | [], some name => unmatched name
  | c :: cs, none => if c = openBrace then scan cs (some []) else .literal c :: scan cs none
  | c :: cs, some name =>
    if c = closeBrace ∧ name ≠ [] then .parameter name.reverse :: scan cs none
    else if extends? name c then scan cs (some (c :: name))
    else unmatched name ++ if c = openBrace then scan cs (some []) else .literal c :: scan cs none

def pieces (path : String) : List Piece := scan path.toList none

def Piece.chars : Piece → List Char
  | literal c => [c]
  | parameter name => openBrace :: (name ++ [closeBrace])

def render (ps : List Piece) : List Char := ps.flatMap Piece.chars

def Piece.name? : Piece → Option String
  | literal _ => none
  | parameter name => some (String.ofList name)

/-- What a parameter may be called. -/
def IsName (name : List Char) : Prop := ∃ c cs, name = c :: cs ∧ isNameStart c ∧ ∀ d ∈ cs, isNameChar d

def Piece.WellFormed : Piece → Prop
  | literal c => c ≠ openBrace ∧ c ≠ closeBrace
  | parameter name => IsName name

/-- `"{" in remainder or "}" in remainder` -/
def unbalanced (path : String) : Bool :=
  (pieces path).any fun
    | .literal c => c == openBrace || c == closeBrace
    | .parameter _ => false

def routeRegistrationError (message : String) : Exc := xyberosError "RouteRegistrationError" ["HttpError"] message

/-- `_ensure_well_formed_path`. -/
def ensureWellFormedPath (path : String) : Except Exc Unit :=
  if path.toList.head? ≠ some '/' then .error (routeRegistrationError s!"route path must start with '/': {reprStr path}")
  else if unbalanced path then .error (routeRegistrationError s!"route path has an unbalanced parameter: {reprStr path}")
  else .ok ()

/-- `Route.path_parameters`. -/
def pathParameters (path : String) : List String := (pieces path).filterMap Piece.name?

section Templates

@[simp] theorem render_nil : render [] = [] := rfl

@[simp] theorem render_cons (p : Piece) (ps : List Piece) : render (p :: ps) = p.chars ++ render ps := rfl

@[simp] theorem render_append (ps qs : List Piece) : render (ps ++ qs) = render ps ++ render qs := List.flatMap_append

theorem render_literals (cs : List Char) : render (cs.map .literal) = cs := by
  induction cs with
  | nil => rfl
  | cons c cs ih => rw [List.map_cons, render_cons, ih, Piece.chars, List.singleton_append]

theorem render_unmatched (name : List Char) : render (unmatched name) = openBrace :: name.reverse := by
  rw [unmatched, render_cons, render_literals, Piece.chars, List.singleton_append]

/-- Nothing of a path is lost; what is still open counts. -/
theorem render_scan (cs : List Char) (state : Option (List Char)) :
    render (scan cs state) = (state.elim [] fun name => openBrace :: name.reverse) ++ cs := by
  induction cs generalizing state with
  | nil =>
    cases state with
    | none => rfl
    | some name => rw [scan, render_unmatched, Option.elim_some, List.append_nil]
  | cons c cs ih =>
    have houtside : render (if c = openBrace then scan cs (some []) else .literal c :: scan cs none) = c :: cs := by
      by_cases hopen : c = openBrace
      · rw [if_pos hopen, ih, hopen]
        rfl
      · rw [if_neg hopen, render_cons, ih]
        rfl
    cases state with
    | none => exact houtside
    | some name =>
      rw [scan]
      by_cases hclose : c = closeBrace ∧ name ≠ []
      · rw [if_pos hclose, render_cons, ih, hclose.1]
        simp [Piece.chars]
      · rw [if_neg hclose]
        by_cases hextends : extends? name c = true
        · rw [if_pos hextends, ih]
          simp
        · rw [if_neg hextends, render_append, render_unmatched, houtside]
          rfl

theorem not_isNameChar_closeBrace : isNameChar closeBrace = false := by decide

/-- A name is read up to its brace. -/
theorem scan_name {name cs : List Char} (hname : name ≠ []) (hcs : ∀ d ∈ cs, isNameChar d = true) (rest : List Char) :
    scan (cs ++ closeBrace :: rest) (some name) = .parameter (name.reverse ++ cs) :: scan rest none := by
  induction cs generalizing name with
  | nil => rw [List.nil_append, scan, if_pos ⟨rfl, hname⟩, List.append_nil]
  | cons c cs ih =>
    obtain ⟨hc, hrest⟩ := List.forall_mem_cons.mp hcs
    have hclose : c ≠ closeBrace := by
      rintro rfl
      exact absurd hc (by rw [not_isNameChar_closeBrace]; exact Bool.false_ne_true)
    have hextends : extends? name c = true := by
      rw [extends?, if_neg (by simpa using hname)]
      exact hc
    rw [List.cons_append, scan, if_neg (fun h => hclose h.1), if_pos hextends,
      ih (List.cons_ne_nil c name) hrest, List.reverse_cons, List.append_assoc, List.singleton_append]

/-- A well-formed template is read as it was written. -/
theorem scan_render {ps : List Piece} (h : ∀ p ∈ ps, p.WellFormed) : scan (render ps) none = ps := by
  induction ps with
  | nil => rfl
  | cons p ps ih =>
    obtain ⟨hp, hps⟩ := List.forall_mem_cons.mp h
    cases p with
    | literal c =>
      rw [render_cons, Piece.chars, List.singleton_append, scan, if_neg hp.1, ih hps]
    | parameter name =>
      obtain ⟨c, cs, rfl, hstart, hcs⟩ := hp
      have hshape : render (.parameter (c :: cs) :: ps) = openBrace :: c :: (cs ++ closeBrace :: render ps) := by
        simp [Piece.chars]
      rw [hshape, scan, if_pos rfl, scan, if_neg (fun h => h.2 rfl), if_pos (by exact hstart),
        scan_name (List.cons_ne_nil c []) hcs, ih hps]
      rfl

/-- Every parameter that is found has a name. -/
theorem isName_of_scan {cs name : List Char} {state : Option (List Char)}
    (hstate : ∀ acc ∈ state, acc = [] ∨ IsName acc.reverse) (h : .parameter name ∈ scan cs state) : IsName name := by
  have hunmatched : ∀ acc, .parameter name ∉ unmatched acc := by
    intro acc hmem
    simp [unmatched] at hmem
  induction cs generalizing state with
  | nil =>
    cases state with
    | none => cases h
    | some acc => exact absurd h (hunmatched acc)
  | cons c cs ih =>
    have hnone : .parameter name ∈ scan cs none → IsName name := ih (fun acc hacc => by cases hacc)
    have houtside : .parameter name ∈ (if c = openBrace then scan cs (some []) else .literal c :: scan cs none) →
        IsName name := by
      intro h
      split_ifs at h with hopen
      · exact ih (fun acc hacc => .inl (Option.mem_some.mp hacc).symm) h
      · rcases List.mem_cons.mp h with h | h
        · cases h
        · exact hnone h
    cases state with
    | none => exact houtside h
    | some acc =>
      rw [scan] at h
      split_ifs at h with hclose hextends hopen
      · rcases List.mem_cons.mp h with h | h
        · obtain rfl := Piece.parameter.inj h
          exact (hstate acc rfl).resolve_left hclose.2
        · exact hnone h
      · refine ih (fun acc' hacc' => .inr ?_) h
        obtain rfl := Option.mem_some.mp hacc'
        rw [List.reverse_cons]
        rcases hstate acc rfl with rfl | ⟨d, ds, hd, hstart, hds⟩
        · exact ⟨c, [], rfl, hextends, fun d hd => by cases hd⟩
        · have hne : acc ≠ [] := by
            rintro rfl
            cases hd
          rw [extends?, if_neg (by simpa using hne)] at hextends
          refine ⟨d, ds ++ [c], by rw [hd]; rfl, hstart, fun e he => ?_⟩
          rcases List.mem_append.mp he with he | he
          · exact hds e he
          · rw [List.mem_singleton.mp he]
            exact hextends
      · rcases List.mem_append.mp h with h | h
        · exact absurd h (hunmatched acc)
        · exact houtside (by rw [if_pos hopen]; exact h)
      · rcases List.mem_append.mp h with h | h
        · exact absurd h (hunmatched acc)
        · exact houtside (by rw [if_neg hopen]; exact h)

theorem unbalanced_eq_false_iff {path : String} : unbalanced path = false ↔ ∀ p ∈ pieces path, p.WellFormed := by
  rw [unbalanced, List.any_eq_false]
  refine forall₂_congr fun p hp => ?_
  cases p with
  | literal c => simp [Piece.WellFormed]
  | parameter name => exact iff_of_true (by simp) (isName_of_scan (fun acc hacc => by cases hacc) hp)

theorem ensureWellFormedPath_iff {path : String} : ensureWellFormedPath path = .ok () ↔
    path.toList.head? = some '/' ∧ ∀ p ∈ pieces path, p.WellFormed := by
  rw [← unbalanced_eq_false_iff, ensureWellFormedPath]
  split_ifs with hstart hbalanced
  · exact iff_of_false (by simp) fun h => hstart h.1
  · exact iff_of_false (by simp) fun h => by simp [hbalanced] at h
  · exact iff_of_true rfl ⟨not_not.mp hstart, by simpa using hbalanced⟩

/-- **Templates.**  A path is accepted exactly when it begins with a slash and is written from characters without braces
and named parameters; what it is read as is then what it was written from, and the path is never changed. -/
theorem template_round_trip (path : String) :
    render (pieces path) = path.toList ∧
      (ensureWellFormedPath path = .ok () ↔
        path.toList.head? = some '/' ∧ ∃ ps : List Piece, (∀ p ∈ ps, p.WellFormed) ∧ path.toList = render ps) ∧
      ∀ ps : List Piece, (∀ p ∈ ps, p.WellFormed) → path.toList = render ps →
        pieces path = ps ∧ pathParameters path = ps.filterMap Piece.name? := by
  have hrender : render (pieces path) = path.toList := render_scan path.toList none
  have hread : ∀ ps : List Piece, (∀ p ∈ ps, p.WellFormed) → path.toList = render ps → pieces path = ps := by
    intro ps hps hpath
    rw [pieces, hpath, scan_render hps]
  refine ⟨hrender, ?_, fun ps hps hpath => ?_⟩
  · rw [ensureWellFormedPath_iff]
    refine and_congr_right fun _ => ⟨fun h => ⟨pieces path, h, hrender.symm⟩, ?_⟩
    rintro ⟨ps, hps, hpath⟩
    rwa [hread ps hps hpath]
  · have hpieces := hread ps hps hpath
    exact ⟨hpieces, by rw [pathParameters, hpieces]⟩

end Templates

/-! ## Handlers -/

/-- An annotation; `annotated` is `Annotated[T, ..]` with the contracts of its `Inject` markers. -/
inductive Annotation (κ : Type)
  | none
  | annotated (type : κ) (markers : List (Option κ))
  | str
  | int
  | request
  | other (hashable : Bool)

structure Parameter (κ : Type) where
  name : String
  /-- `*args` or `**kwargs` -/
  variadic : Bool := false
  annotation : Annotation κ := .none

/-- A handler: whether it can be called, its `__name__`, and its signature if it can be inspected. -/
structure Handler (κ : Type) where
  callable : Bool := true
  name : String := ""
  signature : Option (List (Parameter κ))
  nodup : ((signature.getD []).map Parameter.name).Nodup

structure Route (κ : Type) where
  method : String
  path : String
  handler : Handler κ
  name : String

/-! ## Registration -/

/-- `SUPPORTED_METHODS`, sorted. -/
def supportedMethods : List String := ["DELETE", "GET", "HEAD", "OPTIONS", "PATCH", "POST", "PUT"]

/-- The routes of an application, each as it was checked. -/
structure RouteRegistry (κ : Type) where
  routes : List (Route κ)
  version : ℕ
  checked : ∀ route ∈ routes, route.method ∈ supportedMethods ∧ ensureWellFormedPath route.path = .ok () ∧
    route.handler.callable = true ∧ route.name ≠ ""
  targets : (routes.map fun route => (route.method, route.path)).Nodup
  names : (routes.map Route.name).Nodup
  counted : version = routes.length

namespace RouteRegistry

variable {κ : Type}

/-- `RouteRegistry()`. -/
def empty : RouteRegistry κ := ⟨[], 0, List.forall_mem_nil _, List.nodup_nil, List.nodup_nil, rfl⟩

/-- `name or getattr(handler, "__name__", "")` -/
def routeName (name : Option String) (handler : Handler κ) : String := textOr handler.name name

/-- The route can be registered. -/
structure Fresh (r : RouteRegistry κ) (route : Route κ) : Prop where
  method : route.method ∈ supportedMethods
  path : ensureWellFormedPath route.path = .ok ()
  callable : route.handler.callable = true
  name : route.name ≠ ""
  target : ∀ other ∈ r.routes, ¬ (other.method = route.method ∧ other.path = route.path)
  unused : ∀ other ∈ r.routes, other.name ≠ route.name

def push (r : RouteRegistry κ) (route : Route κ) (h : r.Fresh route) : RouteRegistry κ where
  routes := r.routes ++ [route]
  version := r.version + 1
  checked := by
    intro other hother
    rcases List.mem_append.mp hother with hother | hother
    · exact r.checked other hother
    · rw [List.mem_singleton.mp hother]
      exact ⟨h.method, h.path, h.callable, h.name⟩
  targets := by
    rw [List.map_append, List.map_singleton, List.nodup_append]
    refine ⟨r.targets, by simp, ?_⟩
    rintro _ ha _ hb rfl
    obtain ⟨other, hother, he⟩ := List.mem_map.mp ha
    have hroute := he.trans (List.mem_singleton.mp hb)
    exact h.target other hother (Prod.mk.inj hroute)
  names := by
    rw [List.map_append, List.map_singleton, List.nodup_append]
    refine ⟨r.names, by simp, ?_⟩
    rintro _ ha _ hb rfl
    obtain ⟨other, hother, he⟩ := List.mem_map.mp ha
    exact h.unused other hother (he.trans (List.mem_singleton.mp hb))
  counted := by rw [r.counted, List.length_append, List.length_singleton]

/-- `add`; the new route is the last one. -/
def add (py : Library) (r : RouteRegistry κ) (method path : String) (handler : Handler κ) (name : Option String) :
    Except Exc (RouteRegistry κ) :=
  let normalized := py.upper method
  let named := routeName name handler
  let supported := ", ".intercalate supportedMethods
  if hmethod : normalized ∈ supportedMethods then
    match hpath : ensureWellFormedPath path with
    | .error e => .error e
    | .ok _ =>
      if hcallable : handler.callable = true then
        if hname : named = "" then
          .error (routeRegistrationError s!"the route {normalized} {path} needs an explicit name")
        else if htarget : ∃ other ∈ r.routes, other.method = normalized ∧ other.path = path then
          .error (routeRegistrationError s!"a route is already registered for {normalized} {path}")
        else if hused : ∃ other ∈ r.routes, other.name = named then
          .error (routeRegistrationError s!"a route named {reprStr named} is already registered")
        else .ok (r.push ⟨normalized, path, handler, named⟩ ⟨hmethod, hpath, hcallable, hname,
          fun other hother hother' => htarget ⟨other, hother, hother'⟩, fun other hother he => hused ⟨other, hother, he⟩⟩)
      else .error (routeRegistrationError s!"the handler for {normalized} {path} must be callable")
  else .error (routeRegistrationError s!"unsupported HTTP method {reprStr method}; expected one of: {supported}")

theorem add_ok {py : Library} {r r' : RouteRegistry κ} {method path : String} {handler : Handler κ}
    {name : Option String} (h : r.add py method path handler name = .ok r') :
    ∃ route, r'.routes = r.routes ++ [route] := by
  unfold add at h
  dsimp only at h
  by_cases hmethod : py.upper method ∈ supportedMethods
  · rw [dif_pos hmethod] at h
    split at h
    · cases h
    · split_ifs at h
      cases h
      exact ⟨_, rfl⟩
  · rw [dif_neg hmethod] at h
    cases h

end RouteRegistry

/-! ## Compiled handlers -/

inductive Converter
  | str
  | int

/-- `HandlerParameter.kind`, with what belongs to it. -/
inductive Supply (κ : Type)
  | inject (contract : κ)
  | path (converter : Option Converter)
  | request

structure HandlerParameter (κ : Type) where
  name : String
  kind : Supply κ

structure CompiledRoute (κ : Type) where
  route : Route κ
  parameters : List (HandlerParameter κ)

section Compile

variable {κ : Type} (hashable : κ → Bool)

/-- `_path_converter`. -/
def pathConverter (name where_ : String) : Annotation κ → Except Exc (Option Converter)
  | .none => .ok none
  | .str => .ok (some .str)
  | .int => .ok (some .int)
  | .other false => .error (typeError "unhashable type")
  | _ => .error (routeRegistrationError s!"the path parameter {reprStr name} of {where_} must be annotated str or int")

/-- `_inject_marker`: the last marker; the contract is its own or the annotated type. -/
def injected : Annotation κ → Option κ
  | .annotated type markers => markers.getLast?.map fun contract => contract.getD type
  | _ => none

/-- One turn of the loop of `compile_route`. -/
def compileParameter (where_ : String) (pathNames : List String) (p : Parameter κ) :
    Except Exc (Option (HandlerParameter κ)) :=
  if p.name = "self" ∨ p.name = "cls" then .ok none
  else if p.variadic then
    .error (routeRegistrationError s!"the handler for {where_} cannot declare *args or **kwargs")
  else match injected p.annotation with
    | some contract =>
      if hashable contract then .ok (some ⟨p.name, .inject contract⟩)
      else .error (routeRegistrationError s!"the injected contract of {reprStr p.name} in {where_} must be hashable")
    | none =>
      if p.name ∈ pathNames then do
        let converter ← pathConverter p.name where_ p.annotation
        return some ⟨p.name, .path converter⟩
      else match p.annotation with
        | .request => .ok (some ⟨p.name, .request⟩)
        | _ => .error (routeRegistrationError (s!"the parameter {reprStr p.name} of {where_} must be an injected " ++
            "dependency, a path parameter, or a Request; read other input from the Request"))

/-- The loop of `compile_route`. -/
def compileParameters (where_ : String) (pathNames : List String) :
    List (Parameter κ) → Except Exc (List (HandlerParameter κ))
  | [] => .ok []
  | p :: ps => do
    let compiled ← compileParameter hashable where_ pathNames p
    let rest ← compileParameters where_ pathNames ps
    return compiled.toList ++ rest

/-- `compile_route`. -/
def compileRoute (route : Route κ) : Except Exc (CompiledRoute κ) :=
  let where_ := s!"{route.method} {route.path}"
  match route.handler.signature with
  | none => .error (routeRegistrationError s!"cannot inspect the handler for {where_}")
  | some signature => do
    let parameters ← compileParameters hashable where_ (pathParameters route.path) signature
    match (pathParameters route.path).find? fun name => name ∉ parameters.map HandlerParameter.name with
    | some name => .error (routeRegistrationError
        s!"the path parameter {reprStr name} of {where_} is missing from the handler signature")
    | none => .ok ⟨route, parameters⟩

/-! ### What was compiled -/

variable {hashable : κ → Bool}

/-- What a handler parameter is compiled to. -/
structure Compiles (hashable : κ → Bool) (pathNames : List String) (p : Parameter κ) (q : HandlerParameter κ) :
    Prop where
  name : q.name = p.name
  fixed : p.variadic = false
  kind : (∃ contract, injected p.annotation = some contract ∧ hashable contract = true ∧ q.kind = .inject contract) ∨
    (injected p.annotation = none ∧ p.name ∈ pathNames ∧ ∃ converter, q.kind = .path converter) ∨
    (injected p.annotation = none ∧ p.name ∉ pathNames ∧ p.annotation = .request ∧ q.kind = .request)

/-- The parameters that the caller of a handler has to supply. -/
def supplied (signature : List (Parameter κ)) : List (Parameter κ) :=
  signature.filter fun p => ¬ (p.name = "self" ∨ p.name = "cls")

theorem compileParameter_ok {where_ : String} {pathNames : List String} {p : Parameter κ}
    {compiled : Option (HandlerParameter κ)} (h : compileParameter hashable where_ pathNames p = .ok compiled) :
    ((p.name = "self" ∨ p.name = "cls") ∧ compiled = none) ∨
      (¬ (p.name = "self" ∨ p.name = "cls") ∧ ∃ q, compiled = some q ∧ Compiles hashable pathNames p q) := by
  unfold compileParameter at h
  by_cases hself : p.name = "self" ∨ p.name = "cls"
  · rw [if_pos hself] at h
    exact .inl ⟨hself, (Except.ok.inj h).symm⟩
  · rw [if_neg hself] at h
    refine .inr ⟨hself, ?_⟩
    by_cases hvariadic : p.variadic = true
    · rw [if_pos hvariadic] at h
      cases h
    · rw [if_neg hvariadic] at h
      have hfixed : p.variadic = false := by simpa using hvariadic
      cases hinject : injected p.annotation with
      | some contract =>
        rw [hinject] at h
        dsimp only at h
        split_ifs at h with hhash
        exact ⟨_, (Except.ok.inj h).symm, rfl, hfixed, (.inl ⟨contract, hinject, hhash, rfl⟩)⟩
      | none =>
        rw [hinject] at h
        dsimp only at h
        by_cases hpath : p.name ∈ pathNames
        · rw [if_pos hpath] at h
          cases hconverter : pathConverter p.name where_ p.annotation with
          | error e =>
            rw [hconverter] at h
            cases h
          | ok converter =>
            rw [hconverter] at h
            exact ⟨_, (Except.ok.inj h).symm, rfl, hfixed, .inr (.inl ⟨hinject, hpath, converter, rfl⟩)⟩
        · rw [if_neg hpath] at h
          split at h
          · exact ⟨_, (Except.ok.inj h).symm, rfl, hfixed, .inr (.inr ⟨hinject, hpath, ‹_›, rfl⟩)⟩
          · cases h

theorem compileParameters_ok {where_ : String} {pathNames : List String} {ps : List (Parameter κ)}
    {qs : List (HandlerParameter κ)} (h : compileParameters hashable where_ pathNames ps = .ok qs) :
    List.Forall₂ (Compiles hashable pathNames) (supplied ps) qs := by
  induction ps generalizing qs with
  | nil =>
    cases h
    exact .nil
  | cons p ps ih =>
    rw [compileParameters] at h
    cases hp : compileParameter hashable where_ pathNames p with
    | error e =>
      rw [hp] at h
      cases h
    | ok compiled =>
      cases hps : compileParameters hashable where_ pathNames ps with
      | error e =>
        rw [hp, hps] at h
        cases h
      | ok rest =>
        rw [hp, hps] at h
        obtain rfl := Except.ok.inj h
        rcases compileParameter_ok hp with ⟨hself, rfl⟩ | ⟨hself, q, rfl, hq⟩
        · rw [supplied, List.filter_cons_of_neg (by simp only [decide_eq_true_eq, not_not]; exact hself)]
          exact ih hps
        · rw [supplied, List.filter_cons_of_pos (by simp only [decide_eq_true_eq]; exact hself)]
          exact .cons hq (ih hps)

theorem names_of_compiles {pathNames : List String} {ps : List (Parameter κ)} {qs : List (HandlerParameter κ)}
    (h : List.Forall₂ (Compiles hashable pathNames) ps qs) :
    qs.map HandlerParameter.name = ps.map Parameter.name := by
  induction h with
  | nil => rfl
  | cons hp _ ih => rw [List.map_cons, List.map_cons, hp.name, ih]

theorem path_of_compiles {pathNames : List String} {ps : List (Parameter κ)} {qs : List (HandlerParameter κ)}
    (h : List.Forall₂ (Compiles hashable pathNames) ps qs) {q : HandlerParameter κ} (hq : q ∈ qs)
    {converter : Option Converter} (hkind : q.kind = .path converter) : q.name ∈ pathNames := by
  induction h with
  | nil => cases hq
  | cons hp _ ih =>
    rcases List.mem_cons.mp hq with rfl | hq
    · rcases hp.kind with ⟨_, _, _, hinject⟩ | ⟨_, hmem, _⟩ | ⟨_, _, _, hrequest⟩
      · cases hinject.symm.trans hkind
      · rwa [hp.name]
      · cases hrequest.symm.trans hkind
    · exact ih hq

/-- A compiled route has all parameters of its handler, and those of its path among them. -/
theorem compileRoute_ok {route : Route κ} {compiled : CompiledRoute κ} (h : compileRoute hashable route = .ok compiled) :
    compiled.route = route ∧ ∃ signature, route.handler.signature = some signature ∧
      List.Forall₂ (Compiles hashable (pathParameters route.path)) (supplied signature) compiled.parameters ∧
      ∀ name ∈ pathParameters route.path, name ∈ compiled.parameters.map HandlerParameter.name := by
  unfold compileRoute at h
  dsimp only at h
  split at h
  · cases h
  · rename_i signature hsignature
    cases hparameters : compileParameters hashable s!"{route.method} {route.path}" (pathParameters route.path)
        signature with
    | error e =>
      rw [hparameters] at h
      cases h
    | ok parameters =>
      rw [hparameters] at h
      change (match (pathParameters route.path).find? fun name => name ∉ parameters.map HandlerParameter.name with
        | some name => _
        | none => _) = _ at h
      split at h
      · cases h
      · cases h
        rename_i hnone
        refine ⟨rfl, signature, hsignature, compileParameters_ok hparameters, fun name hname => ?_⟩
        simpa using List.find?_eq_none.mp hnone name hname

end Compile

/-! ## Endpoints -/

/-- What a handler is called with. -/
inductive Argument (ι : Type)
  | instance_ (i : ι)
  | text (raw : String)
  | number (n : ℤ)
  | request

/-- What a handler returns: a response, `None`, or a value. -/
inductive Returned (ρ V : Type)
  | response (r : ρ)
  | nothing
  | value (v : V)

/-- `int` of a text, `Response(status_code=204)` and `JSONResponse`. -/
structure Conversions (ρ V : Type) where
  parseInt : String → Except Exc ℤ
  parseInt_error : ∀ s e, parseInt s = .error e → e.isInstance "ValueError"
  noContent : ρ
  json : V → Except Exc ρ

/-- What an endpoint asks for; `matched` writes the template to the scope. -/
inductive Need (κ ι : Type)
  | matched (path : String)
  | resolve (contract : κ)
  | call (arguments : List (String × Argument ι))

abbrev Need.Reply {κ ι : Type} (ρ V : Type) : Need κ ι → Type
  | .matched _ => Unit
  | .resolve _ => Except Exc ι
  | .call _ => Except Exc (Returned ρ V)

abbrev Serving (κ ι ρ V α : Type) := Proc (Need κ ι) (Need.Reply ρ V) Exc α

abbrev Service (κ ι ρ V : Type) := List (Proc.Exchange (Need.Reply (κ := κ) (ι := ι) ρ V))

section Endpoint

variable {κ ι ρ V : Type} (py : Conversions ρ V)

def requestValidationError (message : String) : Exc := xyberosError "RequestValidationError" ["HttpError"] message

def httpError (message : String) : Exc := xyberosError "HttpError" [] message

def invalidParameter (name : String) : Exc := requestValidationError s!"the path parameter {reprStr name} is not valid"

/-- `_convert_path_parameter`. -/
def convertPathParameter (name : String) (converter : Option Converter) (params : String → Option String) :
    Except Exc (Argument ι) :=
  match params name, converter with
  | none, _ => .error (keyError name)
  | some raw, some .int =>
    match py.parseInt raw with
    | .ok n => .ok (.number n)
    | .error e =>
      if e.isInstance "TypeError" ∨ e.isInstance "ValueError" then .error (invalidParameter name) else .error e
  | some raw, _ => .ok (.text raw)

/-- `_as_response`. -/
def asResponse : Returned ρ V → Except Exc ρ
  | .response r => .ok r
  | .nothing => .ok py.noContent
  | .value v =>
    match py.json v with
    | .ok r => .ok r
    | .error e =>
      if e.isInstance "TypeError" then
        .error (httpError "the route handler returned a value that is not JSON serializable")
      else .error e

/-- The argument for a parameter. -/
def argument (params : String → Option String) (p : HandlerParameter κ) : Serving κ ι ρ V (Argument ι) :=
  match p.kind with
  | .inject contract => do
    let x : Except Exc ι ← Proc.request (Need.resolve contract)
    let i ← Proc.ofExcept x
    return .instance_ i
  | .path converter => Proc.ofExcept (convertPathParameter py p.name converter params)
  | .request => return .request

/-- The loop of `endpoint`. -/
def arguments (params : String → Option String) : List (HandlerParameter κ) → Serving κ ι ρ V (List (String × Argument ι))
  | [] => return []
  | p :: ps => do
    let a ← argument py params p
    let rest ← arguments params ps
    return (p.name, a) :: rest

/-- `endpoint`. -/
def endpoint (compiled : CompiledRoute κ) (params : String → Option String) : Serving κ ι ρ V ρ := do
  let _ ← Proc.request (Need.matched compiled.route.path)
  let values ← arguments py params compiled.parameters
  let x : Except Exc (Returned ρ V) ← Proc.request (Need.call values)
  let result ← Proc.ofExcept x
  Proc.ofExcept (asResponse py result)

/-! ### What an endpoint does -/

/-- How a parameter gets its argument. -/
def Gets (params : String → Option String) (p : HandlerParameter κ) (l : Service κ ι ρ V) (a : Argument ι) : Prop :=
  match p.kind with
  | .inject contract => ∃ i, l = [⟨.resolve contract, .ok i⟩] ∧ a = .instance_ i
  | .path converter => l = [] ∧ convertPathParameter py p.name converter params = .ok a
  | .request => l = [] ∧ a = .request

/-- Why a parameter gets none. -/
def Lacks (params : String → Option String) (p : HandlerParameter κ) (l : Service κ ι ρ V) (e : Exc) : Prop :=
  match p.kind with
  | .inject contract => l = [⟨.resolve contract, .error e⟩]
  | .path converter => l = [] ∧ (convertPathParameter py p.name converter params : Except Exc (Argument ι)) = .error e
  | .request => False

/-- The parameters, each with what was resolved for it and its argument. -/
inductive Collected (params : String → Option String) :
    List (HandlerParameter κ) → Service κ ι ρ V → List (String × Argument ι) → Prop
  | nil : Collected params [] [] []
  | cons {p : HandlerParameter κ} {ps : List (HandlerParameter κ)} {l l' : Service κ ι ρ V} {a : Argument ι}
    {rest : List (String × Argument ι)} (gets : Gets py params p l a) (collected : Collected params ps l' rest) :
    Collected params (p :: ps) (l ++ l') ((p.name, a) :: rest)

/-- The parameters up to the first that gets no argument. -/
inductive Refused (params : String → Option String) : List (HandlerParameter κ) → Service κ ι ρ V → Exc → Prop
  | here {p : HandlerParameter κ} {ps : List (HandlerParameter κ)} {l : Service κ ι ρ V} {e : Exc}
    (lacks : Lacks py params p l e) : Refused params (p :: ps) l e
  | there {p : HandlerParameter κ} {ps : List (HandlerParameter κ)} {l l' : Service κ ι ρ V} {a : Argument ι} {e : Exc}
    (gets : Gets py params p l a) (refused : Refused params ps l' e) : Refused params (p :: ps) (l ++ l') e

variable {py} {params : String → Option String}

open Proc (Yields Traced)

abbrev anyReply : (q : Need κ ι) → Need.Reply ρ V q → Prop := fun _ _ => True

theorem yields_argument (p : HandlerParameter κ) : Yields anyReply (argument (ι := ι) (V := V) py params p)
    fun l r => Proc.Ends (Lacks py params p l) (Gets py params p l) r := by
  unfold argument Lacks Gets
  split
  · refine Proc.yields_bind_request.mpr fun x _ => Proc.yields_bind.mpr (Proc.yields_ofExcept.mpr ?_)
    cases x with
    | error e => exact rfl
    | ok i => exact Proc.yields_pure.mpr ⟨i, rfl, rfl⟩
  · refine Proc.yields_ofExcept.mpr ?_
    cases hconvert : (convertPathParameter py p.name _ params : Except Exc (Argument ι)) with
    | error e => exact ⟨rfl, rfl⟩
    | ok a => exact ⟨rfl, rfl⟩
  · exact Proc.yields_pure.mpr ⟨rfl, rfl⟩

theorem yields_arguments (ps : List (HandlerParameter κ)) : Yields anyReply (arguments (ι := ι) (V := V) py params ps)
    fun l r => Proc.Ends (Refused py params ps l) (Collected py params ps l) r := by
  induction ps with
  | nil => exact Proc.yields_pure.mpr .nil
  | cons p ps ih =>
    refine Proc.yields_bind.mpr ((yields_argument p).mono fun l r hr => ?_)
    cases r with
    | error e => exact .here hr
    | ok a =>
      refine Proc.yields_bind.mpr (ih.mono fun l' r' hr' => ?_)
      cases r' with
      | error e => exact .there hr hr'
      | ok rest =>
        refine Proc.yields_pure.mpr ?_
        rw [List.append_nil]
        exact .cons hr hr'

theorem Collected.names {ps : List (HandlerParameter κ)} {l : Service κ ι ρ V} {values : List (String × Argument ι)}
    (h : Collected py params ps l values) : values.map Prod.fst = ps.map HandlerParameter.name := by
  induction h with
  | nil => rfl
  | cons _ _ ih => rw [List.map_cons, List.map_cons, ih]

/-- A request is refused by what is resolved, or for a parameter of its path. -/
theorem Refused.cause {ps : List (HandlerParameter κ)} {l : Service κ ι ρ V} {e : Exc} (h : Refused py params ps l e)
    (hparams : ∀ p ∈ ps, ∀ converter, p.kind = .path converter → (params p.name).isSome) :
    (∃ contract, ⟨.resolve contract, .error e⟩ ∈ l) ∨
      ∃ p ∈ ps, (∃ converter, p.kind = .path converter) ∧ e = invalidParameter p.name := by
  induction h with
  | @here p ps l e lacks =>
    have hp := hparams p List.mem_cons_self
    unfold Lacks at lacks
    split at lacks
    · rw [lacks]
      exact .inl ⟨_, List.mem_singleton_self _⟩
    · rename_i converter hkind
      refine .inr ⟨p, List.mem_cons_self, ⟨converter, hkind⟩, ?_⟩
      obtain ⟨raw, hraw⟩ := Option.isSome_iff_exists.mp (hp converter hkind)
      have hconvert := lacks.2
      unfold convertPathParameter at hconvert
      rw [hraw] at hconvert
      split at hconvert
      · cases ‹some raw = none›
      · split at hconvert
        · cases hconvert
        · rename_i e' he'
          rw [if_pos (.inr (py.parseInt_error _ _ he'))] at hconvert
          exact (Except.error.inj hconvert).symm
      · cases hconvert
    · exact lacks.elim
  | there gets refused ih =>
    refine (ih fun p hp => hparams p (List.mem_cons_of_mem _ hp)).imp ?_ ?_
    · rintro ⟨contract, hmem⟩
      exact ⟨contract, List.mem_append_right _ hmem⟩
    · rintro ⟨p, hp, hkind, he⟩
      exact ⟨p, List.mem_cons_of_mem _ hp, hkind, he⟩

/-- How a request ends: the handler is called, or something that it needs is missing. -/
inductive Concluded (py : Conversions ρ V) (params : String → Option String) (compiled : CompiledRoute κ) :
    Service κ ι ρ V → Except Exc ρ → Prop
  | called (l : Service κ ι ρ V) (values : List (String × Argument ι)) (y : Except Exc (Returned ρ V))
    (signature : List (Parameter κ)) (declared : compiled.route.handler.signature = some signature)
    (collected : Collected py params compiled.parameters l values)
    (names : values.map Prod.fst = (supplied signature).map Parameter.name) :
    Concluded py params compiled (⟨.matched compiled.route.path, ()⟩ :: (l ++ [⟨.call values, y⟩]))
      (y.bind (asResponse py))
  | refused (l : Service κ ι ρ V) (e : Exc) (refused : Refused py params compiled.parameters l e)
    (cause : (∃ contract, ⟨.resolve contract, .error e⟩ ∈ l) ∨
      ∃ name ∈ pathParameters compiled.route.path, e = invalidParameter name) :
    Concluded py params compiled (⟨.matched compiled.route.path, ()⟩ :: l) (.error e)

/-- **Endpoints.**  A handler is called once, with exactly its parameters, each from its own source, and what it returns
makes the response; or it is not called, because something was not resolved or a parameter of the path is not valid. -/
theorem endpoint_calls {hashable : κ → Bool} {route : Route κ} {compiled : CompiledRoute κ}
    (hcompiled : compileRoute hashable route = .ok compiled)
    (hparams : ∀ name ∈ pathParameters route.path, (params name).isSome) {l : Service κ ι ρ V} {r : Except Exc ρ}
    (h : Traced (fun _ _ => True) (endpoint py compiled params) l r) :
    compiled.route = route ∧ Concluded py params compiled l r := by
  obtain ⟨rfl, signature, hsignature, hforall, -⟩ := compileRoute_ok hcompiled
  have hall : Yields anyReply (endpoint (ι := ι) py compiled params) (Concluded py params compiled) := by
    refine Proc.yields_bind_request.mpr fun _ _ => Proc.yields_bind.mpr ((yields_arguments _).mono fun l' r hr => ?_)
    cases r with
    | error e =>
      refine .refused l' e hr ((hr.cause fun q hq converter hkind => ?_).imp_right ?_)
      · exact hparams q.name (path_of_compiles hforall hq hkind)
      · rintro ⟨q, hq, ⟨converter, hkind⟩, rfl⟩
        exact ⟨q.name, path_of_compiles hforall hq hkind, rfl⟩
    | ok values =>
      have hnames := hr.names.trans (names_of_compiles hforall)
      refine Proc.yields_bind_request.mpr fun y _ => Proc.yields_bind.mpr (Proc.yields_ofExcept.mpr ?_)
      cases y with
      | error e => exact .called l' values (.error e) signature hsignature hr hnames
      | ok result => exact Proc.yields_ofExcept.mpr (.called l' values (.ok result) signature hsignature hr hnames)
  exact ⟨rfl, hall l r h⟩

end Endpoint

/-! ## The adapter -/

/-- The routes of an application, and an `HttpAdapter` for it. -/
structure HttpAdapter (κ : Type) where
  registry : RouteRegistry κ
  compiled : List (CompiledRoute κ)
  /-- the routes of `_asgi_app`, once it was built -/
  asgiApp : Option (List (CompiledRoute κ)) := none
  asgiVersion : ℤ := -1

namespace HttpAdapter

variable {κ : Type} (hashable : κ → Bool) (py : Library)

/-- `validate`. -/
def validate (a : HttpAdapter κ) : Except Exc (HttpAdapter κ) := do
  let compiled ← a.registry.routes.mapM (compileRoute hashable)
  return { a with compiled := compiled }

/-- `HttpAdapter(app)`. -/
def new (registry : RouteRegistry κ) : Except Exc (HttpAdapter κ) := validate hashable { registry, compiled := [] }

/-- `asgi_app`. -/
def serve (a : HttpAdapter κ) : Except Exc (HttpAdapter κ × List (CompiledRoute κ)) :=
  match a.asgiApp, decide (a.asgiVersion = a.registry.version) with
  | some routes, true => .ok (a, routes)
  | _, _ => do
    let a' ← a.validate hashable
    return ({ a' with asgiApp := some a'.compiled, asgiVersion := a.registry.version }, a'.compiled)

/-- What happens to an application and its adapter. -/
inductive Event (κ : Type)
  | add (method path : String) (handler : Handler κ) (name : Option String)
  /-- `_lifespan` -/
  | validate
  | serve

/-- What fails changes nothing. -/
def step (a : HttpAdapter κ) : Event κ → HttpAdapter κ
  | .add method path handler name =>
    ((a.registry.add py method path handler name).toOption.map fun registry => { a with registry }).getD a
  | .validate => (a.validate hashable).toOption.getD a
  | .serve => ((a.serve hashable).toOption.map Prod.fst).getD a

def run (a : HttpAdapter κ) (events : List (Event κ)) : HttpAdapter κ := events.foldl (step hashable py) a

/-- What was built is compiled from the first routes, as many as there were then. -/
def Dated (a : HttpAdapter κ) : Prop :=
  ∀ routes ∈ a.asgiApp, ∃ n : ℕ, a.asgiVersion = n ∧ n ≤ a.registry.routes.length ∧
    (a.registry.routes.take n).mapM (compileRoute hashable) = .ok routes

section Run

variable {hashable py} {a : HttpAdapter κ}

/-- `validate` does not touch what is served. -/
theorem validate_ok {a' : HttpAdapter κ} (h : a.validate hashable = .ok a') :
    ∃ compiled, a.registry.routes.mapM (compileRoute hashable) = .ok compiled ∧ a' = { a with compiled := compiled } := by
  unfold validate at h
  cases hcompiled : a.registry.routes.mapM (compileRoute hashable) with
  | error e =>
    rw [hcompiled] at h
    cases h
  | ok compiled =>
    rw [hcompiled] at h
    exact ⟨compiled, rfl, (Except.ok.inj h).symm⟩

theorem routes_of_compiled {routes : List (Route κ)} {compiled : List (CompiledRoute κ)}
    (h : routes.mapM (compileRoute hashable) = .ok compiled) : compiled.map CompiledRoute.route = routes := by
  induction routes generalizing compiled with
  | nil =>
    cases h
    rfl
  | cons route routes ih =>
    rw [List.mapM_cons] at h
    cases hroute : compileRoute hashable route with
    | error e =>
      rw [hroute] at h
      cases h
    | ok c =>
      cases hrest : routes.mapM (compileRoute hashable) with
      | error e =>
        rw [hroute, hrest] at h
        cases h
      | ok cs =>
        rw [hroute, hrest] at h
        obtain rfl := Except.ok.inj h
        rw [List.map_cons, ih hrest, (compileRoute_ok hroute).1]

theorem Dated.validate (ha : a.Dated hashable) {a' : HttpAdapter κ} (h : a.validate hashable = .ok a') :
    a'.Dated hashable := by
  obtain ⟨compiled, -, rfl⟩ := validate_ok h
  exact ha

/-- What is served is compiled from all the routes there are. -/
theorem Dated.serve (ha : a.Dated hashable) {a' : HttpAdapter κ} {routes : List (CompiledRoute κ)}
    (h : a.serve hashable = .ok (a', routes)) :
    a.registry.routes.mapM (compileRoute hashable) = .ok routes ∧ a'.registry = a.registry ∧ a'.Dated hashable := by
  unfold HttpAdapter.serve at h
  split at h
  · rename_i routes' hasgi hversion
    obtain ⟨rfl, rfl⟩ := Prod.mk.inj (Except.ok.inj h)
    obtain ⟨n, hn, -, hcompiled⟩ := ha routes' hasgi
    have hall : n = a.registry.routes.length := by
      have := of_decide_eq_true hversion
      rw [hn, a.registry.counted] at this
      exact_mod_cast this
    rw [hall, List.take_length] at hcompiled
    exact ⟨hcompiled, rfl, ha⟩
  · cases hvalid : a.validate hashable with
    | error e =>
      rw [hvalid] at h
      cases h
    | ok a'' =>
      rw [hvalid] at h
      obtain ⟨rfl, rfl⟩ := Prod.mk.inj (Except.ok.inj h)
      obtain ⟨compiled, hcompiled, rfl⟩ := validate_ok hvalid
      refine ⟨hcompiled, rfl, fun routes hroutes => ⟨a.registry.routes.length, ?_, Nat.le_refl _, ?_⟩⟩
      · exact congrArg Nat.cast a.registry.counted
      · obtain rfl := Option.some.inj hroutes
        rw [List.take_length]
        exact hcompiled

/-- An event keeps it, since routes are only added behind the ones there are. -/
theorem Dated.step (ha : a.Dated hashable) (event : Event κ) : (a.step hashable py event).Dated hashable := by
  cases event with
  | add method path handler name =>
    show (((a.registry.add py method path handler name).toOption.map fun registry => { a with registry }).getD
      a).Dated hashable
    cases hadd : a.registry.add py method path handler name with
    | error e => exact ha
    | ok registry =>
      obtain ⟨route, hroutes⟩ := RouteRegistry.add_ok hadd
      intro routes hasgi
      obtain ⟨n, hn, hle, hcompiled⟩ := ha routes hasgi
      refine ⟨n, hn, ?_, ?_⟩
      · show n ≤ registry.routes.length
        rw [hroutes, List.length_append]
        exact Nat.le_add_right_of_le hle
      · show (registry.routes.take n).mapM (compileRoute hashable) = .ok routes
        rw [hroutes, List.take_append_of_le_length hle]
        exact hcompiled
  | validate =>
    show ((a.validate hashable).toOption.getD a).Dated hashable
    cases hvalid : a.validate hashable with
    | error e => exact ha
    | ok a' => exact ha.validate hvalid
  | serve =>
    show (((a.serve hashable).toOption.map Prod.fst).getD a).Dated hashable
    cases hserve : a.serve hashable with
    | error e => exact ha
    | ok x => exact (ha.serve hserve).2.2

theorem dated_run (ha : a.Dated hashable) (events : List (Event κ)) : (a.run hashable py events).Dated hashable := by
  induction events generalizing a with
  | nil => exact ha
  | cons event events ih => exact ih (ha.step event)

end Run

/-- **The adapter is current.**  However registrations and requests for the application alternate, what the adapter serves
is compiled from exactly the routes that are registered at that time. -/
theorem served_routes_current (registry : RouteRegistry κ) {a : HttpAdapter κ} (hnew : new hashable registry = .ok a)
    (events : List (Event κ)) {a' : HttpAdapter κ} {routes : List (CompiledRoute κ)}
    (hserve : (a.run hashable py events).serve hashable = .ok (a', routes)) :
    (a.run hashable py events).registry.routes.mapM (compileRoute hashable) = .ok routes ∧
      routes.map CompiledRoute.route = (a.run hashable py events).registry.routes ∧
      ((routes.map fun c => (c.route.method, c.route.path)).Nodup ∧ (routes.map fun c => c.route.name).Nodup) := by
  have hdated : a.Dated hashable := by
    obtain ⟨compiled, -, rfl⟩ := validate_ok hnew
    exact fun routes hroutes => by cases hroutes
  have hrun : (a.run hashable py events).Dated hashable := dated_run hdated events
  obtain ⟨hcompiled, -, -⟩ := hrun.serve hserve
  have hroutes := routes_of_compiled hcompiled
  refine ⟨hcompiled, hroutes, ?_, ?_⟩
  · have := (a.run hashable py events).registry.targets
    rwa [← hroutes, List.map_map] at this
  · have := (a.run hashable py events).registry.names
    rwa [← hroutes, List.map_map] at this

end HttpAdapter

/-! ### An item -/

/-- No number but `42`. -/
def plainConversions : Conversions String String where
  parseInt s := if s = "42" then .ok 42 else .error (valueError "invalid literal for int()")
  parseInt_error s e h := by
    split_ifs at h
    obtain rfl := Except.error.inj h
    rfl
  noContent := ""
  json v := .ok v

/-- `async def item(items: Annotated[Items, Inject()], item_id: int, request: Request)` -/
def itemHandler : Handler String where
  name := "item"
  signature := some [⟨"items", false, .annotated "Items" [none]⟩, ⟨"item_id", false, .int⟩, ⟨"request", false, .request⟩]
  nodup := by decide

def itemPath : String := "/items/\x7bitem_id\x7d"

def itemRoute : Route String := ⟨"GET", itemPath, itemHandler, "item"⟩

def compiledItem : CompiledRoute String :=
  ⟨itemRoute, [⟨"items", .inject "Items"⟩, ⟨"item_id", .path (some .int)⟩, ⟨"request", .request⟩]⟩

theorem compileRoute_item : compileRoute (fun _ => true) itemRoute = .ok compiledItem := by rfl

/-- The instance 7 is resolved, and the handler answers. -/
def answerItem : (q : Need String ℕ) → Need.Reply String String q
  | .matched _ => ()
  | .resolve _ => .ok 7
  | .call _ => .ok (.value "found")

theorem endpoint_calls_item :
    let params := fun name => if name = "item_id" then some "42" else none
    let run := (endpoint plainConversions compiledItem params).replay answerItem
    (compiledItem.route = itemRoute ∧ Concluded plainConversions params compiledItem run.1 run.2) ∧
      run.2 = .ok "found" := by
  refine ⟨endpoint_calls compileRoute_item (fun name hname => ?_) (Proc.traced_replay (fun _ => trivial) _), rfl⟩
  have hnames : pathParameters itemRoute.path = ["item_id"] := by decide
  rw [hnames, List.mem_singleton] at hname
  rw [hname]
  rfl

/-- An application that was served before a route was registered. -/
def servedEarly (a : HttpAdapter String) : HttpAdapter String :=
  a.run (fun _ => true) CSRFMiddleware.asciiLibrary [.serve, .add "get" itemPath itemHandler none]

/-- The route that is registered late is served. -/
theorem served_routes_current_item : ∃ a a' routes, HttpAdapter.new (fun _ => true) .empty = .ok a ∧
    (servedEarly a).serve (fun _ => true) = .ok (a', routes) ∧
    routes.map CompiledRoute.route = (servedEarly a).registry.routes ∧
    (routes.map fun c => (c.route.method, c.route.path, c.parameters.map HandlerParameter.name)) =
      [("GET", itemPath, ["items", "item_id", "request"])] := by
  let a : HttpAdapter String := { registry := .empty, compiled := [] }
  have hnew : HttpAdapter.new (κ := String) (fun _ => true) .empty = .ok a := rfl
  have hfacts : (((servedEarly a).serve fun _ => true).toOption.map fun x =>
      x.2.map fun c => (c.route.method, c.route.path, c.parameters.map HandlerParameter.name)) =
        some [("GET", itemPath, ["items", "item_id", "request"])] := by decide +kernel
  cases hserve : (servedEarly a).serve fun _ => true with
  | error e =>
    rw [hserve] at hfacts
    cases hfacts
  | ok x =>
    obtain ⟨a', routes⟩ := x
    rw [hserve] at hfacts
    have h := HttpAdapter.served_routes_current (fun _ => true) CSRFMiddleware.asciiLibrary .empty hnew _ hserve
    exact ⟨a, a', routes, hnew, hserve, h.2.1, Option.some.inj hfacts⟩

end Xyberos.Http
