import Xyberos.Base.Run
import Xyberos.Base.Table
import Xyberos.Python
import Mathlib.Data.NNRat.Defs
import Mathlib.Logic.Function.Basic

/-!
# Xyberos.Http.Sessions — server-side sessions

A request loads a private copy of its session, its handler changes the copy, and the copy is written back when the
response starts.  `SessionStore` is the protocol a store meets, with what it promises as fields; the store in memory is
one.  A `Site` is a store with any number of requests in any stage, and a run interleaves their steps with what the
store does on its own.

A copy is a `dict` of its own with the same values: `V` is what a dictionary holds, a constant or the reference to an
object.  Handlers set, delete and clear the keys of their session; what a handler does to a nested object in place is
not in the model, and every copy that holds the object shares it.

A session that one request has deleted comes back exactly when another one, which loaded it before, writes it back.
-/

set_option autoImplicit false

namespace Xyberos.Http

variable {V : Type}

/-! ## A session -/

/-- `Session`: one request's data.  `stored` is the field `_stored`. -/
structure Session (V : Type) where
  data : Dict V
  stored : Bool
  modified : Bool := false
  id : Option String := none

namespace Session

/-- `Session(data)`. -/
def new (data : Option (Dict V)) : Session V := { data := data.getD {}, stored := data.isSome }

def isNew (session : Session V) : Bool := !session.stored

def isEmpty (session : Session V) : Bool := session.data.items.isEmpty

/-- The method `stored`. -/
def attach (session : Session V) (sessionId : String) : Session V :=
  { session with id := some sessionId, stored := true, modified := false }

def setItem (session : Session V) (key : String) (value : V) : Session V :=
  { session with data := session.data.set key value, modified := true }

def delItem (session : Session V) (key : String) : Except Exc (Session V) := do
  let _ ← session.data.getItem key
  return { session with data := session.data.erase key, modified := true }

def clear (session : Session V) : Session V :=
  { session with data := {}, modified := session.modified || !session.isEmpty }

/-- The session that `_persist` deletes. -/
def deleted (session : Session V) : Option String := if session.isEmpty then session.id else none

/-- The session that `_persist` writes. -/
def written (session : Session V) (token : String) : Option String :=
  if !session.isEmpty && (session.modified || session.id.isNone) then some (session.id.getD token) else none

theorem written_of_deleted {session : Session V} {id : String} (h : session.deleted = some id) (token : String) :
    session.written token = none := by
  unfold deleted at h
  split_ifs at h with hempty
  simp [written, hempty]

end Session

/-- What a handler does to its session; the other methods of a mapping are made of these. -/
inductive Change (V : Type) where
  | setItem (key : String) (value : V)
  | delItem (key : String)
  | clear

/-- A change that raises leaves the session as it was. -/
def Change.apply (session : Session V) : Change V → Session V
  | .setItem key value => session.setItem key value
  | .delItem key => (session.delItem key).toOption.getD session
  | .clear => session.clear

/-! ## Stores -/

/-- `SessionStore`.  `own` is what a store does between two calls: time passes, sessions expire. -/
structure SessionStore (V : Type) where
  State : Type
  Own : Type
  load : State → String → State × Option (Dict V)
  save : State → String → Dict V → ℕ → State
  delete : State → String → State
  own : State → Own → State
  load_saved : ∀ s id data maxAge, 0 < maxAge → (load (save s id data maxAge) id).2 = some data
  load_deleted : ∀ s id, (load (delete s id) id).2 = none
  gone_load : ∀ s id id', (load s id).2 = none → (load (load s id').1 id).2 = none
  gone_save : ∀ s id id' data maxAge, id ≠ id' → (load s id).2 = none → (load (save s id' data maxAge) id).2 = none
  gone_delete : ∀ s id id', (load s id).2 = none → (load (delete s id') id).2 = none
  gone_own : ∀ s id o, (load s id).2 = none → (load (own s o) id).2 = none

/-- A session that the store does not have any more. -/
def SessionStore.Gone (store : SessionStore V) (s : store.State) (id : String) : Prop := (store.load s id).2 = none

/-! ### The store in memory -/

/-- The state of an `InMemorySessionStore`: `_data`, and what its clock says. -/
structure Memory (V : Type) where
  data : Table String (Dict V × ℚ)
  now : ℚ

namespace Memory

variable {s : Memory V} {id id' : String}

def evictExpired (s : Memory V) : Table String (Dict V × ℚ) where
  rows := s.data.rows.filter fun row => s.now < row.2.2
  nodup := s.data.nodup.sublist (List.filter_sublist.map Prod.fst)

/-- The `while` of `save`: the oldest sessions go. -/
def dropOldest (maxSessions : ℕ) (id : String) : List (String × Dict V × ℚ) → List (String × Dict V × ℚ)
  | [] => []
  | row :: rows =>
    if maxSessions ≤ (row :: rows).length ∧ id ∉ (row :: rows).map Prod.fst then dropOldest maxSessions id rows
    else row :: rows

theorem dropOldest_sublist (maxSessions : ℕ) (id : String) (rows : List (String × Dict V × ℚ)) :
    (dropOldest maxSessions id rows).Sublist rows := by
  induction rows with
  | nil => exact List.Sublist.refl _
  | cons row rows ih =>
    rw [dropOldest]
    split_ifs
    · exact ih.cons row
    · exact List.Sublist.refl _

def makeRoom (maxSessions : ℕ) (id : String) (data : Table String (Dict V × ℚ)) : Table String (Dict V × ℚ) where
  rows := dropOldest maxSessions id data.rows
  nodup := data.nodup.sublist ((dropOldest_sublist ..).map Prod.fst)

def load (s : Memory V) (id : String) : Memory V × Option (Dict V) :=
  match s.data.get? id with
  | none => (s, none)
  | some (data, expiresAt) =>
    if expiresAt ≤ s.now then ({ s with data := s.data.delete id }, none) else (s, some data)

def save (maxSessions : ℕ) (s : Memory V) (id : String) (data : Dict V) (maxAge : ℕ) : Memory V :=
  let entry := (data, s.now + maxAge)
  { s with data := (makeRoom maxSessions id s.evictExpired).upsert id entry fun _ => entry }

def delete (s : Memory V) (id : String) : Memory V := { s with data := s.data.delete id }

def tick (s : Memory V) (t : ℚ≥0) : Memory V := { s with now := s.now + t }

theorem load_snd : (s.load id).2 = ((s.data.get? id).filter fun entry => s.now < entry.2).map Prod.fst := by
  unfold load
  cases h : s.data.get? id with
  | none => rfl
  | some entry =>
    obtain ⟨data, expiresAt⟩ := entry
    dsimp only
    by_cases hlate : expiresAt ≤ s.now
    · rw [if_pos hlate]
      simp [Option.filter, hlate]
    · rw [if_neg hlate]
      simp [Option.filter, not_le.mp hlate]

/-- A session is gone when its entry is missing or has expired. -/
theorem gone_iff : (s.load id).2 = none ↔ ∀ data expiresAt, s.data.get? id = some (data, expiresAt) →
    expiresAt ≤ s.now := by
  rw [load_snd]
  cases h : s.data.get? id with
  | none => simp
  | some entry =>
    obtain ⟨data, expiresAt⟩ := entry
    by_cases hlate : expiresAt ≤ s.now
    · simp [Option.filter, hlate]
    · simp [Option.filter, not_le.mp hlate]

theorem gone_of_sublist {s' : Memory V} (hrows : s'.data.rows.Sublist s.data.rows) (hnow : s.now ≤ s'.now)
    (h : (s.load id).2 = none) : (s'.load id).2 = none := by
  rw [gone_iff] at h ⊢
  intro data expiresAt hget
  exact (h data expiresAt (Table.get?_of_sublist hrows hget)).trans hnow

theorem gone_load (h : (s.load id).2 = none) : ((s.load id').1.load id).2 = none := by
  unfold load
  cases hget : s.data.get? id' with
  | none => exact h
  | some entry =>
    obtain ⟨data, expiresAt⟩ := entry
    dsimp only
    split_ifs
    · exact gone_of_sublist List.filter_sublist le_rfl h
    · exact h

theorem gone_save {maxSessions : ℕ} {data : Dict V} {maxAge : ℕ} (hne : id ≠ id') (h : (s.load id).2 = none) :
    ((s.save maxSessions id' data maxAge).load id).2 = none := by
  rw [gone_iff] at h ⊢
  intro data' expiresAt hget
  rw [save, Table.get?_upsert, if_neg hne] at hget
  have hrows : (makeRoom maxSessions id' s.evictExpired).rows.Sublist s.data.rows :=
    (dropOldest_sublist ..).trans List.filter_sublist
  exact h data' expiresAt (Table.get?_of_sublist hrows hget)

theorem gone_tick {t : ℚ≥0} (h : (s.load id).2 = none) : ((s.tick t).load id).2 = none :=
  gone_of_sublist (s := s) (List.Sublist.refl _) (le_add_of_nonneg_right t.2) h

theorem load_saved {maxSessions : ℕ} {data : Dict V} {maxAge : ℕ} (hage : 0 < maxAge) :
    ((s.save maxSessions id data maxAge).load id).2 = some data := by
  have hget : (s.save maxSessions id data maxAge).data.get? id = some (data, s.now + maxAge) := by
    rw [save, Table.get?_upsert, if_pos rfl]
    cases (makeRoom maxSessions id s.evictExpired).get? id <;> rfl
  have hlater : (s.save maxSessions id data maxAge).now < s.now + maxAge :=
    lt_add_of_pos_right _ (Nat.cast_pos.mpr hage)
  rw [load_snd, hget]
  simp [Option.filter, hlater]

theorem load_deleted : ((s.delete id).load id).2 = none := by
  rw [load_snd, delete, Table.get?_delete, if_pos rfl]
  rfl

end Memory

/-- `InMemorySessionStore(max_sessions=..)`. -/
def inMemorySessionStore (V : Type) (maxSessions : ℕ) : SessionStore V where
  State := Memory V
  Own := ℚ≥0
  load := Memory.load
  save := Memory.save maxSessions
  delete := Memory.delete
  own := Memory.tick
  load_saved _ _ _ _ h := Memory.load_saved h
  load_deleted _ _ := Memory.load_deleted
  gone_load _ _ _ h := Memory.gone_load h
  gone_save _ _ _ _ _ hne h := Memory.gone_save hne h
  gone_delete _ _ _ h := Memory.gone_of_sublist List.filter_sublist le_rfl h
  gone_own _ _ _ h := Memory.gone_tick h

/-! ## The middleware -/

/-- `SessionMiddleware`.  `digest` is the HMAC of an id under the secret, in URL-safe base 64. -/
structure SessionMiddleware (V : Type) where
  store : SessionStore V
  digest : String → String
  cookieName : String := "xyberos_session"
  maxAge : ℕ := 14 * 24 * 60 * 60
  path : String := "/"
  samesite : String := "lax"
  secure : Bool := false
  one_le_maxAge : 1 ≤ maxAge := by decide

namespace SessionMiddleware

variable (m : SessionMiddleware V)

/-- `_signed`. -/
def signed (sessionId : String) : String := sessionId ++ "." ++ m.digest sessionId

/-- `_verified`. -/
def verified (cookie : String) : Except Exc (Option String) :=
  match rpartition cookie '.' with
  | none => .ok none
  | some (sessionId, signature) =>
    if sessionId = "" ∨ signature = "" then .ok none
    else do return if ← compareDigest signature (m.digest sessionId) then some sessionId else none

/-- `_cookie_header`. -/
def cookieHeader (value : String) (maxAge : ℕ) : String :=
  "; ".intercalate ([m.cookieName ++ "=" ++ value, "path=" ++ m.path, "Max-Age=" ++ toString maxAge, "httponly",
    "samesite=" ++ m.samesite] ++ if m.secure then ["secure"] else [])

/-- `_load`, for the session cookie of the request. -/
def load (s : m.store.State) (cookie : Option String) : Except Exc (m.store.State × Session V) := do
  let some cookie := cookie | return (s, .new none)
  let some sessionId ← m.verified cookie | return (s, .new none)
  let (s, data) := m.store.load s sessionId
  let some data := data | return (s, .new none)
  return (s, (Session.new (some data)).attach sessionId)

/-- `_persist`: the store, the session, and the cookie headers of the response.  `token` is what
`secrets.token_urlsafe` draws if it is asked. -/
def persist (s : m.store.State) (session : Session V) (token : String) :
    m.store.State × Session V × List (String × String) :=
  if session.isEmpty then
    match session.id with
    | some id => (m.store.delete s id, session, [("Set-Cookie", m.cookieHeader "" 0)])
    | none => (s, session, [])
  else
    let sessionId := session.id.getD token
    if !session.modified && session.id.isSome then (s, session, [])
    else (m.store.save s sessionId session.data m.maxAge, session.attach sessionId,
      [("Set-Cookie", m.cookieHeader (m.signed sessionId) m.maxAge)])

variable {m}

/-- Loading brings no session back. -/
theorem gone_load {s s' : m.store.State} {cookie : Option String} {session : Session V} {id : String}
    (h : m.load s cookie = .ok (s', session)) (hid : m.store.Gone s id) : m.store.Gone s' id := by
  unfold load at h
  cases cookie with
  | none =>
    obtain ⟨rfl, -⟩ := Prod.mk.inj (Except.ok.inj h)
    exact hid
  | some cookie =>
    cases hv : m.verified cookie with
    | error => simp [hv, bind, Except.bind] at h
    | ok sessionId =>
      cases sessionId with
      | none =>
        simp only [hv, bind, Except.bind, pure, Except.pure, Except.ok.injEq, Prod.mk.injEq] at h
        obtain ⟨rfl, -⟩ := h
        exact hid
      | some sessionId =>
        have hs' : (m.store.load s sessionId).1 = s' := by
          simp only [hv, bind, Except.bind, pure, Except.pure] at h
          cases hdata : (m.store.load s sessionId).2 <;> simp only [hdata, Except.ok.injEq, Prod.mk.injEq] at h <;>
            exact h.1
        exact hs' ▸ m.store.gone_load s id sessionId hid

theorem persist_of_deleted {s : m.store.State} {session : Session V} {token id : String}
    (h : session.deleted = some id) : (m.persist s session token).1 = m.store.delete s id := by
  unfold Session.deleted at h
  split_ifs at h with hempty
  simp only [persist, hempty, h, if_true]

theorem persist_of_written {s : m.store.State} {session : Session V} {token id : String}
    (h : session.written token = some id) :
    (m.persist s session token).1 = m.store.save s id session.data m.maxAge := by
  unfold Session.written at h
  split_ifs at h with hwrites
  obtain ⟨hempty, hmodified⟩ := Bool.and_eq_true_iff.mp hwrites
  have hid := Option.some.inj h
  have hkept : (!session.modified && session.id.isSome) = false := by
    cases hm : session.modified <;> cases hi : session.id <;> simp_all
  rw [Bool.not_eq_true'] at hempty
  simp only [persist, hempty, hkept, hid, Bool.false_eq_true, if_false]

theorem persist_of_neither {s : m.store.State} {session : Session V} {token : String}
    (h : session.deleted = none) (h' : session.written token = none) : (m.persist s session token).1 = s := by
  unfold Session.deleted at h
  unfold Session.written at h'
  by_cases hempty : session.isEmpty = true
  · rw [if_pos hempty] at h
    simp only [persist, hempty, h, if_true]
  · have hkept : (!session.modified && session.id.isSome) = true := by
      cases hm : session.modified <;> cases hi : session.id <;> simp_all
    simp only [persist, hempty, hkept, if_true, if_false, Bool.false_eq_true]

end SessionMiddleware

/-- How far a request has come: its response starts once. -/
inductive Stage (V : Type) where
  | idle
  | handling (session : Session V)
  | responded (session : Session V) (headers : List (String × String))
  | failed (error : Exc)

/-- A store and its requests.  `deleted` lists the sessions that the requests have deleted. -/
structure Site (m : SessionMiddleware V) where
  store : m.store.State
  requests : ℕ → Stage V := fun _ => .idle
  deleted : List String := []

/-- A step: request `r` loads, changes or starts its response, or the store acts on its own. -/
inductive Event (m : SessionMiddleware V) where
  | load (r : ℕ) (cookie : Option String)
  | handle (r : ℕ) (change : Change V)
  | respond (r : ℕ) (token : String)
  | own (o : m.store.Own)

namespace Site

variable {m : SessionMiddleware V}

def step (s : Site m) : Event m → Site m
  | .load r cookie =>
    match s.requests r with
    | .idle =>
      match m.load s.store cookie with
      | .ok (store, session) => { s with store, requests := Function.update s.requests r (.handling session) }
      | .error error => { s with requests := Function.update s.requests r (.failed error) }
    | _ => s
  | .handle r change =>
    match s.requests r with
    | .handling session => { s with requests := Function.update s.requests r (.handling (change.apply session)) }
    | _ => s
  | .respond r token =>
    match s.requests r with
    | .handling session =>
      let (store, session', headers) := m.persist s.store session token
      { store, requests := Function.update s.requests r (.responded session' headers),
        deleted := session.deleted.toList ++ s.deleted }
    | _ => s
  | .own o => { s with store := m.store.own s.store o }

/-- No session that a request has deleted can be loaded. -/
def StaysDeleted (s : Site m) : Prop := ∀ id ∈ s.deleted, m.store.Gone s.store id

/-- The response that starts writes a session back that a request has deleted. -/
def WritesDeleted (s : Site m) (e : Event m) : Prop :=
  ∃ r token session id, e = .respond r token ∧ s.requests r = .handling session ∧
    session.written token = some id ∧ id ∈ s.deleted

variable {s : Site m}

theorem staysDeleted_load (hs : s.StaysDeleted) (r : ℕ) (cookie : Option String) :
    (s.step (.load r cookie)).StaysDeleted := by
  rw [step]
  cases s.requests r with
  | handling => exact hs
  | responded => exact hs
  | failed => exact hs
  | idle =>
    dsimp only
    cases hload : m.load s.store cookie with
    | error => exact hs
    | ok x => exact fun id hid => m.gone_load hload (hs id hid)

theorem staysDeleted_handle (hs : s.StaysDeleted) (r : ℕ) (change : Change V) :
    (s.step (.handle r change)).StaysDeleted := by
  rw [step]
  cases s.requests r <;> exact hs

theorem step_respond {r : ℕ} {token : String} {session : Session V} (h : s.requests r = .handling session) :
    (s.step (.respond r token)).store = (m.persist s.store session token).1 ∧
      (s.step (.respond r token)).deleted = session.deleted.toList ++ s.deleted := by
  simp only [step, h, and_self]

/-- The start of a response keeps every deleted session deleted exactly when it writes none of them back. -/
theorem staysDeleted_respond_iff (hs : s.StaysDeleted) {r : ℕ} {token : String} {session : Session V}
    (h : s.requests r = .handling session) :
    (s.step (.respond r token)).StaysDeleted ↔ ∀ id, session.written token = some id → id ∉ s.deleted := by
  obtain ⟨hstore, hdeleted⟩ : _ ∧ _ := step_respond h
  unfold StaysDeleted
  rw [hstore, hdeleted]
  cases hd : session.deleted with
  | some id =>
    -- an empty session is not written
    have hw : session.written token = none := Session.written_of_deleted hd token
    rw [SessionMiddleware.persist_of_deleted hd, hw]
    refine iff_of_true (fun id' hid' => ?_) (by simp)
    by_cases hne : id' = id
    · exact hne ▸ m.store.load_deleted s.store id
    · have hmem : id' ∈ s.deleted := by simpa [hne] using hid'
      exact m.store.gone_delete _ _ _ (hs id' hmem)
  | none =>
    rw [Option.toList_none, List.nil_append]
    cases hw : session.written token with
    | none =>
      rw [SessionMiddleware.persist_of_neither hd hw]
      exact iff_of_true hs (by simp)
    | some id =>
      rw [SessionMiddleware.persist_of_written hw]
      constructor
      · intro hafter id' hid' hmem
        obtain rfl := Option.some.inj hid'
        have hgone := hafter id hmem
        rw [SessionStore.Gone, m.store.load_saved _ _ _ _ m.one_le_maxAge] at hgone
        exact Option.some_ne_none _ hgone
      · intro hfresh id' hmem
        have hne : id' ≠ id := by
          rintro rfl
          exact hfresh id' rfl hmem
        exact m.store.gone_save _ _ _ _ _ hne (hs id' hmem)

/-- What a step does to the sessions that were deleted before. -/
theorem staysDeleted_step_iff (hs : s.StaysDeleted) (e : Event m) :
    (s.step e).StaysDeleted ↔ ¬ s.WritesDeleted e := by
  cases e with
  | load r cookie =>
    refine iff_of_true (staysDeleted_load hs r cookie) ?_
    simp [WritesDeleted]
  | handle r change =>
    refine iff_of_true (staysDeleted_handle hs r change) ?_
    simp [WritesDeleted]
  | own o =>
    refine iff_of_true (fun id hid => m.store.gone_own _ _ _ (hs id hid)) ?_
    simp [WritesDeleted]
  | respond r token =>
    cases h : s.requests r with
    | handling session =>
      rw [staysDeleted_respond_iff hs h]
      constructor
      · rintro hfresh ⟨r', token', session', id, he, hr, hid, hmem⟩
        obtain ⟨rfl, rfl⟩ := Event.respond.inj he
        obtain rfl := Stage.handling.inj (h.symm.trans hr)
        exact hfresh id hid hmem
      · exact fun hfresh id hid hmem => hfresh ⟨r, token, session, id, rfl, h, hid, hmem⟩
    | idle => exact iff_of_true (by rw [step, h]; exact hs) (by simp [WritesDeleted, h])
    | responded => exact iff_of_true (by rw [step, h]; exact hs) (by simp [WritesDeleted, h])
    | failed => exact iff_of_true (by rw [step, h]; exact hs) (by simp [WritesDeleted, h])

/-- **A deleted session stays deleted**, in every run and whatever the store, as long as no response writes back a
session that another one has deleted; and only as long. -/
theorem stays_deleted_iff (store : m.store.State) (l : List (Event m)) :
    Steps step (fun s e => (step s e).StaysDeleted) { store := store : Site m } l ↔
      Steps step (fun s e => ¬ WritesDeleted s e) { store := store : Site m } l :=
  steps_exact (I := fun _ => True) trivial (fun _ h => absurd h List.not_mem_nil) (fun _ _ _ => trivial)
    fun _ e _ hs => staysDeleted_step_iff hs e

/-! ### A sign-out undone -/

def signedIn : SessionMiddleware ℕ where
  store := inMemorySessionStore ℕ 10000
  digest _ := "mac"

/-- One session, of a user. -/
def signedInSite : Site signedIn where
  store := ⟨⟨[("sid", ⟨[("user", 1)]⟩, 3600)], by decide⟩, 0⟩

/-- One request signs out while another one, which loaded the session before, counts a visit. -/
def signOut : List (Event signedIn) :=
  [.load 0 (some "sid.mac"), .load 1 (some "sid.mac"), .handle 0 .clear, .handle 1 (.setItem "visits" 2),
    .respond 0 "", .respond 1 ""]

theorem not_stays_deleted : ¬ Steps step (fun s e => (step s e).StaysDeleted) signedInSite signOut := by
  rintro ⟨-, -, -, -, -, h, -⟩
  have hback : (signedIn.store.load (after step signedInSite signOut).store "sid").2 =
      some ⟨[("user", 1), ("visits", 2)]⟩ := by decide +kernel
  have hgone := h "sid" (by decide +kernel)
  exact Option.some_ne_none _ (hback.symm.trans hgone)

end Site

end Xyberos.Http
