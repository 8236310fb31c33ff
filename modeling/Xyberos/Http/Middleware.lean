import Xyberos.Base.Traces
import Xyberos.Python

/-!
# Xyberos.Http.Middleware — correlation ids, the request scope, and error responses

`http/middleware.py`, in the order of `HttpAdapter`.  An application is a coroutine that sends messages; a middleware
makes one application of another one.  What Starlette does, the headers and the JSON responses, is a parameter
(`Starlette`).

Whatever the inner application does, the three middlewares send at most one response start more than it, and none after
its own; every start carries the correlation id; what escapes is raised after a response has started, or is no
`Exception` (`served`).
-/

set_option autoImplicit false

namespace Xyberos.Http

open Proc (Traced Yields Exchange Ends)

/-! ## Applications -/

/-- An exception, with what an `HttpError` carries. -/
structure Raised where
  error : Exc
  statusCode : ℕ := 500
  errors : List String := []

/-- A message of an application to its server. -/
inductive Message (H B : Type)
  /-- `http.response.start` -/
  | start (status : ℕ) (headers : H)
  /-- `http.response.body` -/
  | body (content : B)
  | other (type : String)

/-- The body of an error response. -/
structure ErrorPayload where
  type : String
  message : String
  errors : Option (List String) := none

/-- `Headers.get`, `MutableHeaders.__setitem__`, and what a `JSONResponse` sends. -/
structure Starlette (H B : Type) where
  get : H → String → Option String
  set : H → String → String → H
  get_set : ∀ headers name value, get (set headers name value) name = some value
  render : ErrorPayload → Except Raised B
  jsonHeaders : B → H

structure HttpScope (H : Type) where
  type : String
  headers : H

/-- What a coroutine asks for; `other` is what an application does beside its exchange with the server. -/
inductive Ask (H B O : Type)
  | send (message : Message H B)
  | receive
  /-- `uuid4().hex` -/
  | uuid
  /-- `with bind_correlation_id`, on the way in and out -/
  | bind (correlationId : String)
  | reset
  /-- `async with self._request_scope()`, on the way in and out -/
  | enter
  | leave (error : Option Raised)
  | other (o : O)

/-- `V` is what comes from outside: the messages of the client, and what `other` asks for. -/
abbrev Ask.Reply {H B O : Type} (V : Type) : Ask H B O → Type
  | .send _ => Except Raised Unit
  | .receive => Except Raised V
  | .uuid => String
  | .bind _ => Unit
  | .reset => Unit
  | .enter => Except Raised Unit
  | .leave _ => Except Raised Bool
  | .other _ => Except Raised V

abbrev Exchanging (H B O V α : Type) := Proc (Ask H B O) (Ask.Reply V) Raised α

/-- An ASGI application. -/
abbrev AsgiApp (H B O V : Type) := HttpScope H → Exchanging H B O V Unit

abbrev Record (H B O V : Type) := List (Exchange (Ask.Reply (H := H) (B := B) (O := O) V))

variable {H B O V : Type}

def Message.isStart : Message H B → Bool
  | .start _ _ => true
  | _ => false

/-- `await send(message)`. -/
def send (message : Message H B) : Exchanging H B O V Unit := do
  let x : Except Raised Unit ← Proc.request (Ask.send message)
  Proc.ofExcept x

/-! ## The middlewares -/

/-- `error_payload`. -/
def errorPayload (e : Raised) : ErrorPayload where
  type := e.error.cls.name
  message := e.error.message
  errors := if e.error.isInstance "RequestValidationError" ∧ e.errors ≠ [] then some e.errors else none

/-- `internal_error_payload`. -/
def internalErrorPayload : ErrorPayload := ⟨"InternalServerError", "the request could not be completed", none⟩

/-- Every message is changed before it is sent. -/
def mapSend {α : Type} (f : Message H B → Message H B) : Exchanging H B O V α → Exchanging H B O V α
  | .ret a => .ret a
  | .raise e => .raise e
  | .ask (.send m) k => .ask (.send (f m)) fun x => mapSend f (k x)
  | .ask q k => .ask q fun x => mapSend f (k x)

/-- `track_start`: an application with its end, and whether it has sent a start. -/
def trackStart {α : Type} : Exchanging H B O V α → Bool → Exchanging H B O V (Except Raised α × Bool)
  | .ret a, started => .ret (.ok a, started)
  | .raise e, started => .ret (.error e, started)
  | .ask (.send m) k, started => .ask (.send m) fun x => trackStart (k x) (started || m.isStart)
  | .ask q k, started => .ask q fun x => trackStart (k x) started

variable (py : Starlette H B)

/-- `JSONResponse(payload, status_code=status)`, sent. -/
def jsonResponse (payload : ErrorPayload) (status : ℕ) : Exchanging H B O V Unit := do
  let content ← Proc.ofExcept (py.render payload)
  send (.start status (py.jsonHeaders content))
  send (.body content)

/-- A start, with the correlation id among its headers. -/
def label (header correlationId : String) : Message H B → Message H B
  | .start status headers => .start status (py.set headers header correlationId)
  | m => m

/-- The correlation id that the client gives. -/
def givenId (header : String) (scope : HttpScope H) : Option String :=
  (py.get scope.headers header).filter (· ≠ "")

/-- `CorrelationIdMiddleware`. -/
def correlationId (header : String) (app : AsgiApp H B O V) : AsgiApp H B O V := fun scope =>
  if scope.type ≠ "http" then app scope
  else do
    let id : String ← match givenId py header scope with
      | some id => pure id
      | none => Proc.request Ask.uuid
    let _ ← Proc.request (Ask.bind id)
    (mapSend (label py header id) (app scope)).finally' (Proc.request Ask.reset)

/-- `ErrorMappingMiddleware`. -/
def errorMapping (app : AsgiApp H B O V) : AsgiApp H B O V := fun scope =>
  if scope.type ≠ "http" then app scope
  else do
    let (x, started) ← trackStart (app scope) false
    match x with
    | .ok _ => pure ()
    | .error e =>
      if e.error.isInstance "HttpError" then
        if started then .raise e else jsonResponse py (errorPayload e) e.statusCode
      else if e.error.isInstance "Exception" then
        if started then .raise e else jsonResponse py internalErrorPayload 500
      else .raise e

/-- `RequestScopeMiddleware`. -/
def requestScope (app : AsgiApp H B O V) : AsgiApp H B O V := fun scope =>
  if scope.type ≠ "http" then app scope
  else do
    let x : Except Raised Unit ← Proc.request Ask.enter
    Proc.ofExcept x
    let y ← (app scope).attempt
    match y with
    | .ok _ => do
      let z : Except Raised Bool ← Proc.request (Ask.leave none)
      let _ ← Proc.ofExcept z
      pure ()
    | .error e => do
      let z : Except Raised Bool ← Proc.request (Ask.leave (some e))
      let suppressed ← Proc.ofExcept z
      if suppressed then pure () else .raise e

/-- The three middlewares of `HttpAdapter`, around the rest. -/
def adapter (header : String) (app : AsgiApp H B O V) : AsgiApp H B O V :=
  correlationId py header (errorMapping py (requestScope app))

/-! ## What they do -/

/-- The headers of a start. -/
def startOf : Exchange (Ask.Reply (H := H) (B := B) (O := O) V) → Option H
  | ⟨.send (.start _ headers), _⟩ => some headers
  | _ => none

/-- The headers of the starts that are sent. -/
def starts (l : Record H B O V) : List H := l.filterMap startOf

/-- An exchange with its message changed. -/
def relabel (f : Message H B → Message H B) :
    Exchange (Ask.Reply (H := H) (B := B) (O := O) V) → Exchange (Ask.Reply (H := H) (B := B) (O := O) V)
  | ⟨.send m, x⟩ => ⟨.send (f m), x⟩
  | x => x

def failed : Except Raised Unit → Option Raised
  | .ok _ => none
  | .error e => some e

/-- The response to an exception that escapes before a response has started. -/
def responseTo (e : Raised) : Option (ErrorPayload × ℕ) :=
  if e.error.isInstance "HttpError" then some (errorPayload e, e.statusCode)
  else if e.error.isInstance "Exception" then some (internalErrorPayload, 500)
  else none

/-- The end of a request scope whose body ended in `x`. -/
def closing (x : Except Raised Unit) : Except Raised Bool → Except Raised Unit
  | .error e => .error e
  | .ok suppressed => if suppressed then .ok () else x

/-- An application in its request scope: the scope is refused, or left when the application has ended. -/
inductive Scoped (app : AsgiApp H B O V) (scope : HttpScope H) : Record H B O V → Except Raised Unit → Prop
  | refused (e : Raised) : Scoped app scope [⟨.enter, .error e⟩] (.error e)
  | left (l : Record H B O V) (x : Except Raised Unit) (y : Except Raised Bool)
    (inner : Traced (fun _ _ => True) (app scope) l x) :
    Scoped app scope (⟨.enter, .ok ()⟩ :: (l ++ [⟨.leave (failed x), y⟩])) (closing x y)

/-- How an error response is sent. -/
inductive Responds (py : Starlette H B) (payload : ErrorPayload) (status : ℕ) :
    Record H B O V → Except Raised Unit → Prop
  | unrendered (e : Raised) (h : py.render payload = .error e) : Responds py payload status [] (.error e)
  | unstarted (content : B) (h : py.render payload = .ok content) (e : Raised) :
    Responds py payload status [⟨.send (.start status (py.jsonHeaders content)), .error e⟩] (.error e)
  | started (content : B) (h : py.render payload = .ok content) (x : Except Raised Unit) :
    Responds py payload status
      [⟨.send (.start status (py.jsonHeaders content)), .ok ()⟩, ⟨.send (.body content), x⟩] x

/-- The end of an application in its request scope, and the error response if one can be sent. -/
inductive Mapped (py : Starlette H B) (app : AsgiApp H B O V) (scope : HttpScope H) :
    Record H B O V → Except Raised Unit → Prop
  | through (l : Record H B O V) (x : Except Raised Unit) (inner : Scoped app scope l x)
    (final : ∀ e, x = .error e → starts l ≠ [] ∨ responseTo e = none) : Mapped py app scope l x
  | answered (l l' : Record H B O V) (e : Raised) (payload : ErrorPayload) (status : ℕ) (r : Except Raised Unit)
    (inner : Scoped app scope l (.error e)) (unstarted : starts l = [])
    (response : responseTo e = some (payload, status)) (responds : Responds py payload status l' r) :
    Mapped py app scope (l ++ l') r

section Rules

variable {py : Starlette H B} {f : Message H B → Message H B} {header : String} {app : AsgiApp H B O V}
  {scope : HttpScope H}

/-- Anything may be answered. -/
abbrev any : (q : Ask H B O) → Ask.Reply V q → Prop := fun _ _ => True

theorem starts_cons {x : Exchange (Ask.Reply (H := H) (B := B) (O := O) V)} {l : Record H B O V}
    (hx : startOf x = none := by rfl) : starts (x :: l) = starts l :=
  List.filterMap_cons_none hx

@[simp] theorem starts_append (l l' : Record H B O V) : starts (l ++ l') = starts l ++ starts l' :=
  List.filterMap_append

theorem yields_mapSend {α : Type} {p : Exchanging H B O V α} {C : Record H B O V → Except Raised α → Prop} :
    Yields any (mapSend f p) C ↔ Yields any p fun l r => C (l.map (relabel f)) r := by
  induction p generalizing C with
  | ret a => rw [mapSend, Proc.yields_ret, Proc.yields_ret, List.map_nil]
  | raise e => rw [mapSend, Proc.yields_raise, Proc.yields_raise, List.map_nil]
  | ask q k ih =>
    cases q <;>
    · refine Iff.trans Proc.yields_ask (Iff.trans (forall₂_congr fun x _ => ih _) ?_)
      rw [Proc.yields_ask]
      exact Iff.rfl

theorem yields_trackStart {α : Type} {p : Exchanging H B O V α} {started : Bool}
    {C : Record H B O V → Except Raised (Except Raised α × Bool) → Prop} :
    Yields any (trackStart p started) C ↔
      Yields any p fun l r => C l (.ok (r, started || !(starts l).isEmpty)) := by
  induction p generalizing C started with
  | ret a =>
    rw [trackStart, Proc.yields_ret, Proc.yields_ret]
    simp [starts]
  | raise e =>
    rw [trackStart, Proc.yields_ret, Proc.yields_raise]
    simp [starts]
  | ask q k ih =>
    cases q with
    | send m =>
      rw [trackStart, Proc.yields_ask, Proc.yields_ask]
      refine forall₂_congr fun x _ => (ih _).trans ?_
      cases m <;> simp [starts, List.filterMap_cons, startOf, Message.isStart]
    | _ =>
      refine Iff.trans Proc.yields_ask (Iff.trans (forall₂_congr fun x _ => ih _) ?_)
      rw [Proc.yields_ask]
      exact Iff.rfl

theorem yields_send {m : Message H B} {C : Record H B O V → Except Raised Unit → Prop} :
    Yields any (send m : Exchanging H B O V Unit) C ↔ ∀ x, C [⟨.send m, x⟩] x :=
  Proc.yields_bind_request.trans (forall_congr' fun x => by simp [Proc.yields_ofExcept])

theorem yields_jsonResponse (payload : ErrorPayload) (status : ℕ) :
    Yields any (jsonResponse (O := O) (V := V) py payload status) (Responds py payload status) := by
  refine Proc.yields_bind.mpr (Proc.yields_ofExcept.mpr ?_)
  cases hrender : py.render payload with
  | error e => exact .unrendered e hrender
  | ok content =>
    refine Proc.yields_bind.mpr (yields_send.mpr fun x => ?_)
    cases x with
    | error e => exact .unstarted content hrender e
    | ok u => exact yields_send.mpr fun x => .started content hrender x

theorem yields_requestScope (hhttp : scope.type = "http") :
    Yields any (requestScope app scope) (Scoped app scope) := by
  unfold requestScope
  rw [if_neg (not_not_intro hhttp)]
  refine Proc.yields_bind_request.mpr fun x _ => Proc.yields_bind.mpr (Proc.yields_ofExcept.mpr ?_)
  cases x with
  | error e => exact .refused e
  | ok u =>
    refine Proc.yields_bind.mpr (Proc.yields_attempt.mpr fun l r hl => ?_)
    cases r with
    | ok v =>
      refine Proc.yields_bind_request.mpr fun z _ => Proc.yields_bind.mpr (Proc.yields_ofExcept.mpr ?_)
      cases z with
      | error e => exact .left l (.ok v) (.error e) hl
      | ok suppressed =>
        refine Proc.yields_pure.mpr ?_
        cases suppressed <;> exact .left l (.ok v) (.ok _) hl
    | error e =>
      refine Proc.yields_bind_request.mpr fun z _ => Proc.yields_bind.mpr (Proc.yields_ofExcept.mpr ?_)
      cases z with
      | error e' => exact .left l (.error e) (.error e') hl
      | ok suppressed =>
        cases suppressed with
        | true => exact Proc.yields_pure.mpr (.left l (.error e) (.ok true) hl)
        | false => exact Proc.yields_raise.mpr (.left l (.error e) (.ok false) hl)

theorem yields_errorMapping (hhttp : scope.type = "http") :
    Yields any (errorMapping py (requestScope app) scope) (Mapped py app scope) := by
  unfold errorMapping
  rw [if_neg (not_not_intro hhttp)]
  refine Proc.yields_bind.mpr (yields_trackStart.mpr ((yields_requestScope hhttp).mono fun l x hx => ?_))
  rw [Proc.ends_ok, Bool.false_or]
  cases x with
  | ok u =>
    refine Proc.yields_pure.mpr ?_
    rw [List.append_nil]
    exact .through l (.ok u) hx fun e he => by cases he
  | error e =>
    -- a failure is raised again unless it can still be answered
    have hthrough : starts l ≠ [] ∨ responseTo e = none → Mapped py app scope (l ++ []) (.error e) := by
      intro h
      rw [List.append_nil]
      exact .through l (.error e) hx fun e' he => by cases he; exact h
    have hanswered : ∀ {payload : ErrorPayload} {status : ℕ}, starts l = [] → responseTo e = some (payload, status) →
        Yields any (jsonResponse py payload status) fun l' r => Mapped py app scope (l ++ l') r :=
      fun hnone hresponse => (yields_jsonResponse _ _).mono fun l' r hr => .answered l l' e _ _ r hx hnone hresponse hr
    dsimp only
    by_cases hstarted : starts l = []
    · rw [hstarted, List.isEmpty_nil, Bool.not_true]
      by_cases hhttpError : e.error.isInstance "HttpError" = true
      · rw [if_pos hhttpError, if_neg Bool.false_ne_true]
        exact hanswered hstarted (if_pos hhttpError)
      · rw [if_neg hhttpError]
        by_cases hexception : e.error.isInstance "Exception" = true
        · rw [if_pos hexception, if_neg Bool.false_ne_true]
          exact hanswered hstarted ((if_neg hhttpError).trans (if_pos hexception))
        · rw [if_neg hexception]
          exact Proc.yields_raise.mpr (hthrough (.inr ((if_neg hhttpError).trans (if_neg hexception))))
    · rw [List.isEmpty_eq_false_iff.mpr hstarted]
      simp only [Bool.not_false, ↓reduceIte, ite_self]
      exact Proc.yields_raise.mpr (hthrough (.inl hstarted))

@[simp] theorem starts_relabel (correlationId : String) (l : Record H B O V) :
    starts (l.map (relabel (label py header correlationId))) =
      (starts l).map fun headers => py.set headers header correlationId := by
  unfold starts
  rw [List.filterMap_map, List.map_filterMap]
  congr 1
  funext ⟨q, x⟩
  cases q with
  | send m => cases m <;> rfl
  | _ => rfl

/-- The requests of a middleware that sets the correlation id, around what it is given. -/
theorem yields_correlationId (hhttp : scope.type = "http") :
    Yields any (adapter py header app scope) fun l r => ∃ correlationId before inner,
      l = before ++ ⟨.bind correlationId, ()⟩ ::
        (inner.map (relabel (label py header correlationId)) ++ [⟨.reset, ()⟩]) ∧
      ((givenId py header scope = some correlationId ∧ before = []) ∨
        (givenId py header scope = none ∧ before = [⟨.uuid, correlationId⟩])) ∧ Mapped py app scope inner r := by
  have hbound : ∀ (id : String) {C : Record H B O V → Except Raised Unit → Prop},
      (∀ inner r, Mapped py app scope inner r →
        C (⟨.bind id, ()⟩ :: (inner.map (relabel (label py header id)) ++ [⟨.reset, ()⟩])) r) →
      Yields any (do
        let _ ← Proc.request (Ask.bind id)
        (mapSend (label py header id) (errorMapping py (requestScope app) scope)).finally' (Proc.request Ask.reset)) C := by
    intro id C hC
    refine Proc.yields_bind_request.mpr fun _ _ => Proc.yields_bind.mpr (Proc.yields_attempt.mpr ?_)
    refine yields_mapSend.mpr ((yields_errorMapping hhttp).mono fun inner r hr => ?_)
    refine Proc.yields_bind_request.mpr fun _ _ => Proc.yields_ofExcept.mpr ?_
    exact hC inner r hr
  unfold adapter correlationId
  rw [if_neg (not_not_intro hhttp)]
  cases hgiven : givenId py header scope with
  | some id =>
    refine Proc.yields_bind.mpr (Proc.yields_pure.mpr (hbound id fun inner r hr => ?_))
    exact ⟨id, [], inner, rfl, .inl ⟨rfl, rfl⟩, hr⟩
  | none =>
    refine Proc.yields_bind_request.mpr fun id _ => hbound id fun inner r hr => ?_
    exact ⟨id, [⟨.uuid, id⟩], inner, rfl, .inr ⟨rfl, rfl⟩, hr⟩

theorem Scoped.starts_le {l : Record H B O V} {x : Except Raised Unit} {n : ℕ} (h : Scoped app scope l x)
    (hinner : ∀ l' x', Traced any (app scope) l' x' → (starts l').length ≤ n) : (starts l).length ≤ n := by
  cases h with
  | refused e => exact Nat.zero_le n
  | left l x y inner =>
    have hstarts : starts ((⟨.enter, .ok ()⟩ : Exchange (Ask.Reply V)) :: (l ++ [⟨.leave (failed x), y⟩])) = starts l := by
      simp [starts, List.filterMap_cons, startOf]
    rw [hstarts]
    exact hinner l x inner

theorem Responds.starts_le {payload : ErrorPayload} {status : ℕ} {l : Record H B O V} {r : Except Raised Unit}
    (h : Responds py payload status l r) : (starts l).length ≤ 1 := by
  cases h <;> simp [starts, startOf]

/-- An error response that raises has been started, or is nothing and could not be rendered. -/
theorem Responds.raised {payload : ErrorPayload} {status : ℕ} {l : Record H B O V} {e : Raised}
    (h : Responds py payload status l (.error e)) : starts l ≠ [] ∨ l = [] ∧ py.render payload = .error e := by
  cases h with
  | unrendered _ h => exact .inr ⟨rfl, h⟩
  | unstarted content h e => exact .inl (by simp [starts, startOf])
  | started content h x => exact .inl (by simp [starts, startOf])

end Rules

/-! ## The promise -/

/-- Inside the correlation id there is an application that fails, and the response to its failure is not rendered. -/
def Unrendered (py : Starlette H B) (header : String) (app : AsgiApp H B O V) (scope : HttpScope H)
    (l : Record H B O V) (e : Raised) : Prop :=
  ∃ correlationId before inner failure payload status, l = before ++ ⟨.bind correlationId, ()⟩ ::
      (inner.map (relabel (label py header correlationId)) ++ [⟨.reset, ()⟩]) ∧
    Scoped app scope inner (.error failure) ∧ responseTo failure = some (payload, status) ∧ py.render payload = .error e

/-- A request that was served. -/
structure Served (py : Starlette H B) (header : String) (app : AsgiApp H B O V) (scope : HttpScope H)
    (l : Record H B O V) (r : Except Raised Unit) : Prop where
  /-- all that is done: the id is bound and reset around an application in its scope, and its error response -/
  course : ∃ correlationId before inner, l = before ++ ⟨.bind correlationId, ()⟩ ::
      (inner.map (relabel (label py header correlationId)) ++ [⟨.reset, ()⟩]) ∧
    ((givenId py header scope = some correlationId ∧ before = []) ∨
      (givenId py header scope = none ∧ before = [⟨.uuid, correlationId⟩])) ∧ Mapped py app scope inner r
  /-- every start carries the one id of the request -/
  labelled : ∃ correlationId, ⟨.bind correlationId, ()⟩ ∈ l ∧ ∀ headers ∈ starts l, py.get headers header = some correlationId
  /-- one response is started at most, if the application starts one at most -/
  once : (∀ l' x, Traced any (app scope) l' x → (starts l').length ≤ 1) → (starts l).length ≤ 1
  /-- what is raised comes after a start, has no response, or comes from the response that could not be rendered -/
  raised : ∀ e, r = .error e → starts l ≠ [] ∨ responseTo e = none ∨ Unrendered py header app scope l e

/-- **Every request is served** by the three middlewares, whatever the application inside them does. -/
theorem served (py : Starlette H B) (header : String) (app : AsgiApp H B O V) (scope : HttpScope H)
    (hhttp : scope.type = "http") {l : Record H B O V} {r : Except Raised Unit}
    (h : Traced (fun _ _ => True) (adapter py header app scope) l r) : Served py header app scope l r := by
  have hcourse : ∃ correlationId before inner, l = before ++ ⟨.bind correlationId, ()⟩ ::
      (inner.map (relabel (label py header correlationId)) ++ [⟨.reset, ()⟩]) ∧
      ((givenId py header scope = some correlationId ∧ before = []) ∨
        (givenId py header scope = none ∧ before = [⟨.uuid, correlationId⟩])) ∧ Mapped py app scope inner r :=
    yields_correlationId hhttp l r h
  obtain ⟨correlationId, before, inner, rfl, hbefore, hmapped⟩ := hcourse
  have hnone : starts before = [] := by
    rcases hbefore with ⟨-, rfl⟩ | ⟨-, rfl⟩ <;> rfl
  have hstarts : starts (before ++ ⟨.bind correlationId, ()⟩ ::
      (inner.map (relabel (label py header correlationId)) ++ [⟨.reset, ()⟩])) =
      (starts inner).map fun headers => py.set headers header correlationId := by
    rw [starts_append, hnone, List.nil_append, starts_cons, starts_append, starts_relabel]
    exact List.append_nil _
  refine ⟨⟨correlationId, before, inner, rfl, hbefore, hmapped⟩, ⟨correlationId, by simp, fun headers hh => ?_⟩,
    fun hinner => ?_, fun e he => ?_⟩
  · rw [hstarts] at hh
    obtain ⟨headers', -, rfl⟩ := List.mem_map.mp hh
    exact py.get_set headers' header correlationId
  · rw [hstarts, List.length_map]
    cases hmapped with
    | through _ _ hscoped => exact hscoped.starts_le hinner
    | answered l₀ l' e payload status _ hscoped hunstarted _ hresponds =>
      rw [starts_append, hunstarted, List.nil_append]
      exact hresponds.starts_le
  · rw [hstarts, ne_eq, List.map_eq_nil_iff]
    cases hmapped with
    | through _ _ hscoped hfinal => exact (hfinal e he).imp_right .inl
    | answered l₀ l' failure payload status _ hscoped hunstarted hresponse hresponds =>
      subst he
      rcases hresponds.raised with hstarted | ⟨rfl, hrender⟩
      · rw [starts_append, hunstarted, List.nil_append]
        exact .inl hstarted
      · refine .inr (.inr ⟨correlationId, before, l₀, failure, payload, status, ?_, hscoped, hresponse, hrender⟩)
        rw [List.append_nil]

/-! ### An application that fails -/

/-- Headers in a list, and bodies as text. -/
def plain : Starlette (List (String × String)) String where
  get headers name := headers.lookup name
  set headers name value := (name, value) :: headers
  get_set _ _ _ := List.lookup_cons_self
  render payload := .ok (payload.type ++ ": " ++ payload.message)
  jsonHeaders _ := [("content-type", "application/json")]

/-- A handler with an error that it does not expect. -/
def failing : AsgiApp (List (String × String)) String Unit Unit := fun _ => do
  let x : Except Raised Unit ← Proc.request Ask.receive
  Proc.ofExcept x
  .raise ⟨keyError "password", 500, []⟩

/-- A server and a request scope that do what they are asked. -/
def willing : (q : Ask (List (String × String)) String Unit) → Ask.Reply Unit q
  | .send _ => .ok ()
  | .receive => .ok ()
  | .uuid => "7f9c"
  | .bind _ => ()
  | .reset => ()
  | .enter => .ok ()
  | .leave _ => .ok false
  | .other _ => .ok ()

/-- The client gets an id and a text that says nothing, and the scope is left. -/
theorem served_failing :
    let run := (adapter plain "X-Request-ID" failing ⟨"http", []⟩).replay willing
    Served plain "X-Request-ID" failing ⟨"http", []⟩ run.1 run.2 ∧
      starts run.1 = [[("X-Request-ID", "7f9c"), ("content-type", "application/json")]] ∧ run.1.length = 8 := by
  refine ⟨served plain "X-Request-ID" failing ⟨"http", []⟩ rfl (Proc.traced_replay (fun _ => trivial) _), ?_, ?_⟩ <;> rfl

end Xyberos.Http
