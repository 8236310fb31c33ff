import Xyberos.Python

/-!
# Xyberos.Http.Csrf — the gate against cross-site requests

`CSRFMiddleware` lets a request through to the application, or raises.  The tables of Unicode and the syntax of
addresses in brackets are parameters (`Library`); everything else of `urlsplit` is as in the standard library.

The gate is right about a request unless it compares tokens that are not ASCII, or takes an origin header that names no
origin for a missing one, or cannot split it.
-/

set_option autoImplicit false

namespace Xyberos.Http

/-! ## The standard library -/

/-- `str.lower`, `str.upper`, and the two checks of `urlsplit` on a host, by the message of the `ValueError` they
raise. -/
structure Library where
  lower : String → String
  upper : String → String
  checkBracketedNetloc : String → Option String
  checkNetloc : String → Option String

/-- `scheme_chars`. -/
def isSchemeChar (c : Char) : Bool := c.isAlphanum || c == '+' || c == '-' || c == '.'

namespace Library

variable (py : Library)

/-- The scheme and the rest of a URL. -/
def splitScheme (url : List Char) : String × List Char :=
  match url.span (· ≠ ':') with
  | (scheme, ':' :: rest) =>
    if scheme.head?.any Char.isAlpha && scheme.all isSchemeChar then (py.lower (String.ofList scheme), rest)
    else ("", url)
  | _ => ("", url)

/-- The message of the `ValueError` that `urlsplit` raises for a network location. -/
def netlocError (netloc : List Char) : Option String :=
  if ('[' ∈ netloc) ≠ (']' ∈ netloc) then some "Invalid IPv6 URL"
  else (if '[' ∈ netloc then py.checkBracketedNetloc (String.ofList netloc) else none).or
    (if netloc.all (·.toNat < 128) then none else py.checkNetloc (String.ofList netloc))

/-- `urlsplit`: the scheme and the network location. -/
def urlsplit (url : String) : Except Exc (String × String) :=
  let url := (url.toList.dropWhile (·.toNat ≤ 0x20)).filter fun c => c ∉ ['\t', '\r', '\n']
  let (scheme, rest) := py.splitScheme url
  let netloc := if rest.take 2 = ['/', '/'] then (rest.drop 2).takeWhile fun c => c ∉ ['/', '?', '#'] else []
  match py.netlocError netloc with
  | some message => .error (valueError message)
  | none => .ok (scheme, String.ofList netloc)

theorem urlsplit_error {url : String} {e : Exc} (h : py.urlsplit url = .error e) :
    ∃ message, e = valueError message := by
  unfold urlsplit at h
  dsimp only at h
  split at h
  · exact ⟨_, (Except.error.inj h).symm⟩
  · cases h

end Library

/-! ## The middleware -/

/-- An HTTP scope: `header` is `Headers.get`, `cookie` is `HTTPConnection.cookies.get`. -/
structure Request where
  method : String := "GET"
  scheme : String := "http"
  header : String → Option String
  cookie : String → Option String

def safeMethods : List String := ["GET", "HEAD", "OPTIONS", "TRACE"]

def csrfError (message : String) : Exc := xyberosError "CSRFError" ["HttpError"] message

/-- `CSRFMiddleware`; the trusted origins as they were configured. -/
structure CSRFMiddleware where
  cookieName : String := "xyberos_csrf"
  headerName : String := "X-CSRF-Token"
  requireToken : Bool := false
  trustedOrigins : List String := []
  maxAge : ℕ := 365 * 24 * 60 * 60
  path : String := "/"
  samesite : String := "lax"
  secure : Bool := false
  one_le_maxAge : 1 ≤ maxAge := by decide

/-- What the application is called with: the token on the scope, and the cookie its response is to set. -/
structure Admission where
  token : String
  setCookie : Option String
deriving DecidableEq, Repr

/-- `_origin_of`. -/
def originOf (py : Library) (url : String) : Except Exc (Option String) := do
  let (scheme, netloc) ← py.urlsplit url
  return if scheme = "" ∨ netloc = "" then none else some (py.lower scheme ++ "://" ++ py.lower netloc)

theorem originOf_error {py : Library} {url : String} {e : Exc} (h : originOf py url = .error e) :
    ∃ message, e = valueError message := by
  unfold originOf at h
  cases hurl : py.urlsplit url with
  | error e' =>
    rw [hurl] at h
    obtain rfl : e' = e := Except.error.inj h
    exact py.urlsplit_error hurl
  | ok parts =>
    rw [hurl] at h
    cases h

namespace Request

/-- The header, unless it is absent or empty. -/
def nonEmpty (request : Request) (name : String) : Option String := (request.header name).filter (· ≠ "")

/-- The header that `_request_origin` looks at. -/
def originHeader (request : Request) : Option String := (request.nonEmpty "origin").or (request.nonEmpty "referer")

/-- `_request_origin`. -/
def requestOrigin (py : Library) (request : Request) : Except Exc (Option String) :=
  match request.originHeader with
  | some url => originOf py url
  | none => .ok none

/-- `_own_origin`. -/
def ownOrigin (py : Library) (request : Request) : String :=
  py.lower request.scheme ++ "://" ++ py.lower ((request.header "host").getD "")

end Request

namespace CSRFMiddleware

variable (py : Library) (m : CSRFMiddleware) (request : Request) (drawn : String)

/-- `trusted_origins`. -/
def trusted : List String :=
  m.trustedOrigins.map fun origin => py.lower (String.ofList (origin.toList.reverse.dropWhile (· = '/')).reverse)

/-- `_cookie_header`. -/
def cookieHeader (token : String) : String :=
  "; ".intercalate ([m.cookieName ++ "=" ++ token, "path=" ++ m.path, "Max-Age=" ++ toString m.maxAge,
    "samesite=" ++ m.samesite] ++ if m.secure then ["secure"] else [])

/-- The first half of `_check`. -/
def checkToken (token : String) : Except Exc Unit :=
  match request.header m.headerName with
  | some presented => do
    unless ← compareDigest presented token do
      throw (csrfError "the CSRF token does not match the one issued to this browser")
  | none => if m.requireToken then throw (csrfError s!"this request must present a {m.headerName} header") else return

/-- The second half of `_check`. -/
def checkOrigin : Except Exc Unit := do
  match ← request.requestOrigin py with
  | none => return
  | some origin =>
    unless origin ∈ m.trusted py ∨ origin = request.ownOrigin py do
      throw (csrfError s!"this request came from {reprStr origin}, which is not this application")

/-- `_check`. -/
def check (token : String) : Except Exc Unit := do
  m.checkToken request token
  m.checkOrigin py request

/-- The token of a request; `drawn` is what `secrets.token_urlsafe` draws if it is asked. -/
def token : String := textOr drawn (request.cookie m.cookieName)

/-- `__call__`, up to the call of the application. -/
def call : Except Exc Admission := do
  let token := m.token request drawn
  if py.upper request.method ∉ safeMethods then m.check py request token
  return { token, setCookie := if (request.cookie m.cookieName).isNone then some (m.cookieHeader token) else none }

/-! ## What the gate is for -/

/-- The token header, if there is one, is the token cookie of the request, and it is there if it has to be. -/
def TokenMatches : Prop :=
  (∀ presented, request.header m.headerName = some presented →
    presented ≠ "" ∧ request.cookie m.cookieName = some presented) ∧
  (m.requireToken = true → (request.header m.headerName).isSome)

/-- The origin is the application's own or a trusted one. -/
def Allows (origin : String) : Prop := origin ∈ m.trusted py ∨ origin = request.ownOrigin py

/-- No header names an origin, or the one that does names an allowed one. -/
def OriginAllowed : Prop :=
  ∀ url, request.originHeader = some url → ∃ origin, originOf py url = .ok (some origin) ∧ m.Allows py request origin

/-- A request that is to reach the application. -/
def Permitted : Prop := m.TokenMatches request ∧ m.OriginAllowed py request

/-- The gate does what it is for: a request reaches the application if it is permitted, and is refused by a `CSRFError`
if it is not. -/
def Gates : Prop :=
  ((∃ admission, m.call py request drawn = .ok admission) ↔ m.Permitted py request) ∧
  (¬ m.Permitted py request → ∃ message, m.call py request drawn = .error (csrfError message))

/-! ## What it does -/

/-- Tokens that `hmac.compare_digest` compares. -/
def Comparable : Prop :=
  ∀ presented, request.header m.headerName = some presented →
    (presented.toList ++ (m.token request drawn).toList).all (·.toNat < 128) = true

/-- The token header, if there is one, is the token of the request. -/
def TokenPasses : Prop :=
  (∀ presented, request.header m.headerName = some presented → presented = m.token request drawn) ∧
  (m.requireToken = true → (request.header m.headerName).isSome)

/-- The token that is presented was drawn for this very request. -/
def Guessed : Prop :=
  request.header m.headerName = some drawn ∧ (request.cookie m.cookieName).getD "" = ""

/-- An origin header of the request names an origin, and not an allowed one if the token was guessed. -/
def Judgeable : Prop :=
  (∀ url, request.originHeader = some url → ∃ origin, originOf py url = .ok (some origin)) ∧
  (m.Guessed request drawn → ¬ m.OriginAllowed py request)

variable {py m request drawn}

theorem compareDigest_of_ascii {a b : String} (h : (a.toList ++ b.toList).all (·.toNat < 128) = true) :
    compareDigest a b = .ok (a == b) := if_pos h

theorem checkToken_of_passes (hc : m.Comparable request drawn) (h : m.TokenPasses request drawn) :
    m.checkToken request (m.token request drawn) = .ok () := by
  unfold checkToken
  cases hp : request.header m.headerName with
  | some presented =>
    have heq := h.1 presented hp
    dsimp only
    rw [compareDigest_of_ascii (hc presented hp), ← heq, beq_self_eq_true]
    rfl
  | none =>
    have hreq : m.requireToken = false := by
      by_contra hreq
      have hsome := h.2 (by simpa using hreq)
      rw [hp] at hsome
      exact absurd hsome (by decide)
    rw [hreq]
    rfl

theorem checkToken_of_not_passes (hc : m.Comparable request drawn) (h : ¬ m.TokenPasses request drawn) :
    ∃ message, m.checkToken request (m.token request drawn) = .error (csrfError message) := by
  unfold checkToken
  cases hp : request.header m.headerName with
  | some presented =>
    have hne : presented ≠ m.token request drawn := by
      rintro rfl
      exact h ⟨fun presented' hp' => Option.some.inj (hp'.symm.trans hp), fun _ => by rw [hp]; rfl⟩
    dsimp only
    rw [compareDigest_of_ascii (hc presented hp), beq_eq_false_iff_ne.mpr hne]
    exact ⟨_, rfl⟩
  | none =>
    have hreq : m.requireToken = true := by
      by_contra hreq
      exact h ⟨fun _ hp' => absurd (hp.symm.trans hp') (by simp), fun hreq' => absurd hreq' hreq⟩
    rw [hreq]
    exact ⟨_, rfl⟩

theorem checkToken_of_not_comparable (h : ¬ m.Comparable request drawn) :
    ∃ message, m.checkToken request (m.token request drawn) = .error (typeError message) := by
  unfold Comparable at h
  push Not at h
  obtain ⟨presented, hp, hascii⟩ := h
  have hraises : compareDigest presented (m.token request drawn) = .error _ := if_neg hascii
  simp only [checkToken, hp, hraises]
  exact ⟨_, rfl⟩

/-- A token passes if it is the cookie's or was guessed. -/
theorem tokenPasses_iff : m.TokenPasses request drawn ↔
    m.TokenMatches request ∨ m.Guessed request drawn := by
  unfold TokenPasses TokenMatches Guessed token
  cases hp : request.header m.headerName with
  | none => simp
  | some presented =>
    cases hcookie : request.cookie m.cookieName with
    | none => simp [textOr]
    | some cookie =>
      by_cases hempty : cookie = ""
      · subst hempty
        have htoken : textOr drawn (some "") = drawn := rfl
        simp only [htoken, Option.some.injEq, Option.isSome_some, implies_true, and_true, forall_eq',
          Option.getD_some]
        exact ⟨Or.inr, fun h => h.elim (fun h => absurd h.2.symm h.1) id⟩
      · have htoken : textOr drawn (some cookie) = cookie := by
          unfold textOr
          split
          · contradiction
          · rename_i h
            exact absurd (Option.some.inj h) hempty
          · rename_i h
            exact (Option.some.inj h).symm
        simp only [htoken, hempty, Option.some.injEq, Option.isSome_some, implies_true, and_true, forall_eq',
          Option.getD_some, and_false, or_false]
        constructor
        · rintro rfl
          exact ⟨hempty, rfl⟩
        · exact fun h => h.2.symm

theorem call_eq (hm : py.upper request.method ∉ safeMethods) :
    m.call py request drawn = (do
      m.checkToken request (m.token request drawn)
      m.checkOrigin py request
      return { token := m.token request drawn,
               setCookie := if (request.cookie m.cookieName).isNone
                 then some (m.cookieHeader (m.token request drawn)) else none }) := by
  unfold call
  rw [if_pos hm]
  show ((m.checkToken request _).bind fun _ => m.checkOrigin py request).bind _ = _
  cases m.checkToken request (m.token request drawn) <;> rfl

theorem checkOrigin_of_none (h : request.originHeader = none) : m.checkOrigin py request = .ok () := by
  simp only [checkOrigin, Request.requestOrigin, h]
  rfl

theorem checkOrigin_of_error {url : String} {e : Exc} (h : request.originHeader = some url)
    (ho : originOf py url = .error e) : m.checkOrigin py request = .error e := by
  simp only [checkOrigin, Request.requestOrigin, h, ho]
  rfl

theorem checkOrigin_of_null {url : String} (h : request.originHeader = some url)
    (ho : originOf py url = .ok none) : m.checkOrigin py request = .ok () := by
  simp only [checkOrigin, Request.requestOrigin, h, ho]
  rfl

theorem checkOrigin_of_some {url origin : String} (h : request.originHeader = some url)
    (ho : originOf py url = .ok (some origin)) :
    (m.Allows py request origin → m.checkOrigin py request = .ok ()) ∧
      (¬ m.Allows py request origin → ∃ message, m.checkOrigin py request = .error (csrfError message)) := by
  have heq : m.checkOrigin py request = if origin ∈ m.trusted py ∨ origin = request.ownOrigin py then .ok () else
      .error (csrfError s!"this request came from {reprStr origin}, which is not this application") := by
    simp only [checkOrigin, Request.requestOrigin, h, ho]
    rfl
  rw [heq]
  exact ⟨fun ha => if_pos ha, fun ha => ⟨_, if_neg ha⟩⟩

theorem gates_of_admitted (h : ∃ admission, m.call py request drawn = .ok admission) :
    m.Gates py request drawn ↔ m.Permitted py request := by
  constructor
  · exact fun hg => hg.1.mp h
  · exact fun hp => ⟨iff_of_true h hp, fun hn => absurd hp hn⟩

theorem gates_of_refused (h : ∃ message, m.call py request drawn = .error (csrfError message)) :
    m.Gates py request drawn ↔ ¬ m.Permitted py request := by
  obtain ⟨message, hcall⟩ := h
  have hnot : ¬ ∃ admission, m.call py request drawn = .ok admission := by
    rintro ⟨admission, ha⟩
    rw [hcall] at ha
    cases ha
  constructor
  · exact fun hg hp => hnot (hg.1.mpr hp)
  · exact fun hn => ⟨iff_of_false hnot hn, fun _ => ⟨message, hcall⟩⟩

theorem not_gates_of_error {e : Exc} (h : m.call py request drawn = .error e) (he : e.cls.name ≠ "CSRFError") :
    ¬ m.Gates py request drawn := by
  rintro ⟨hiff, hrefused⟩
  by_cases hp : m.Permitted py request
  · obtain ⟨admission, ha⟩ := hiff.mpr hp
    rw [h] at ha
    cases ha
  · obtain ⟨message, hm⟩ := hrefused hp
    rw [h] at hm
    obtain rfl := Except.error.inj hm
    exact he rfl

theorem not_originAllowed_of_null {url : String} (h : request.originHeader = some url)
    (ho : ∀ origin, originOf py url ≠ .ok (some origin)) : ¬ m.OriginAllowed py request := by
  intro hallowed
  obtain ⟨origin, horigin, -⟩ := hallowed url h
  exact ho origin horigin

/-- Where the origin is allowed, the token has to be the cookie's. -/
theorem permitted_iff_of_allowed (hp : m.TokenPasses request drawn) (ho : m.OriginAllowed py request) :
    m.Permitted py request ↔ ¬ m.Guessed request drawn := by
  constructor
  · rintro ⟨hmatches, -⟩ ⟨hheader, hcookie⟩
    obtain ⟨hne, hsame⟩ := hmatches.1 drawn hheader
    rw [hsame] at hcookie
    exact hne hcookie
  · exact fun hg => ⟨(tokenPasses_iff.mp hp).resolve_right hg, ho⟩

/-- **The gate does what it is for** exactly when it can compare the tokens and, where the token passes, judge the
origin. -/
theorem gates_iff (hm : py.upper request.method ∉ safeMethods) :
    m.Gates py request drawn ↔
      m.Comparable request drawn ∧ (m.TokenPasses request drawn → m.Judgeable py request drawn) := by
  have hcall : m.call py request drawn = _ := call_eq hm
  by_cases hc : m.Comparable request drawn
  · by_cases hp : m.TokenPasses request drawn
    · rw [checkToken_of_passes hc hp] at hcall
      have hadmitted (ho : m.checkOrigin py request = .ok ()) : ∃ admission, m.call py request drawn = .ok admission := by
        rw [hcall, ho]
        exact ⟨_, rfl⟩
      have hraised {e : Exc} (ho : m.checkOrigin py request = .error e) : m.call py request drawn = .error e := by
        rw [hcall, ho]
        rfl
      suffices m.Gates py request drawn ↔ m.Judgeable py request drawn by simp [this, hc, hp]
      cases hurl : request.originHeader with
      | none =>
        have hallowed : m.OriginAllowed py request := fun url h => absurd (hurl.symm.trans h) (by simp)
        rw [gates_of_admitted (hadmitted (checkOrigin_of_none hurl)), permitted_iff_of_allowed hp hallowed]
        simp [Judgeable, hurl, hallowed]
      | some url =>
        cases horigin : originOf py url with
        | error e =>
          have he : e.cls.name ≠ "CSRFError" := by
            obtain ⟨message, rfl⟩ := originOf_error horigin
            exact (by decide : "ValueError" ≠ "CSRFError")
          refine iff_of_false (not_gates_of_error (hraised (checkOrigin_of_error hurl horigin)) he) fun hj => ?_
          obtain ⟨origin, ho⟩ := hj.1 url hurl
          rw [horigin] at ho
          cases ho
        | ok named =>
          cases named with
          | none =>
            -- `null` and its like: admitted, though no origin allows it
            have hno : ∀ origin, originOf py url ≠ .ok (some origin) := by simp [horigin]
            rw [gates_of_admitted (hadmitted (checkOrigin_of_null hurl horigin))]
            refine iff_of_false (fun h => not_originAllowed_of_null hurl hno h.2) fun hj => ?_
            obtain ⟨origin, ho⟩ := hj.1 url hurl
            exact hno origin ho
          | some origin =>
            obtain ⟨hallow, hrefuse⟩ := checkOrigin_of_some hurl horigin
            have hiff : m.OriginAllowed py request ↔ m.Allows py request origin := by
              simp [OriginAllowed, hurl, horigin]
            have hjudge : m.Judgeable py request drawn ↔ (m.Guessed request drawn → ¬ m.OriginAllowed py request) := by
              simp [Judgeable, hurl, horigin]
            by_cases ha : m.Allows py request origin
            · rw [gates_of_admitted (hadmitted (hallow ha)), permitted_iff_of_allowed hp (hiff.mpr ha), hjudge]
              simp [hiff.mpr ha]
            · obtain ⟨message, hmessage⟩ := hrefuse ha
              rw [gates_of_refused ⟨message, hraised hmessage⟩, hjudge]
              exact iff_of_true (fun h => ha (hiff.mp h.2)) fun _ h => ha (hiff.mp h)
    · obtain ⟨message, hmessage⟩ := checkToken_of_not_passes hc hp
      rw [hmessage] at hcall
      rw [gates_of_refused ⟨message, hcall⟩]
      exact iff_of_true (fun h => hp (tokenPasses_iff.mpr (.inl h.1))) ⟨hc, fun h => absurd h hp⟩
  · obtain ⟨message, hmessage⟩ := checkToken_of_not_comparable hc
    rw [hmessage] at hcall
    refine iff_of_false (not_gates_of_error hcall ?_) fun h => hc h.1
    exact (by decide : "TypeError" ≠ "CSRFError")

/-- A library that is right about ASCII. -/
def asciiLibrary : Library where
  lower := String.toLower
  upper := String.toUpper
  checkBracketedNetloc _ := none
  checkNetloc _ := none

/-- A form of the application itself. -/
def ownRequest : Request where
  method := "POST"
  scheme := "https"
  header name := [("origin", "https://App.example"), ("host", "app.example")].lookup name
  cookie _ := none

theorem gates_ownRequest : ({} : CSRFMiddleware).Gates asciiLibrary ownRequest "drawn" := by
  have hheader : ownRequest.header ({} : CSRFMiddleware).headerName = none := by decide
  have horigin : originOf asciiLibrary "https://App.example" = .ok (some "https://app.example") := by decide +kernel
  have hurl : ownRequest.originHeader = some "https://App.example" := by decide
  refine (gates_iff (by decide +kernel)).mpr ⟨by simp [Comparable, hheader], fun _ => ?_⟩
  simp [Judgeable, Guessed, hheader, hurl, horigin]

/-! ### An opaque origin -/

/-- A form of another site in a sandboxed frame: `Origin: null`. -/
def opaqueRequest : Request where
  method := "POST"
  header name := [("origin", "null"), ("host", "app.example")].lookup name
  cookie _ := none

theorem not_gates_null : ¬ ({} : CSRFMiddleware).Gates asciiLibrary opaqueRequest "drawn" := by
  have hadmitted : ∃ admission, ({} : CSRFMiddleware).call asciiLibrary opaqueRequest "drawn" = .ok admission :=
    ⟨⟨"drawn", some (({} : CSRFMiddleware).cookieHeader "drawn")⟩, by decide +kernel⟩
  have horigin : originOf asciiLibrary "null" = .ok none := by decide +kernel
  rw [gates_of_admitted hadmitted]
  exact fun h => not_originAllowed_of_null rfl (by simp [horigin]) h.2

end CSRFMiddleware

end Xyberos.Http
