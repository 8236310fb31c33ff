import Xyberos.Http.Sessions

/-!
# Xyberos.Http.Isolation — whose session a handler finds

Clients send requests to one site, in any interleaving.  A client presents a cookie that a response to it has set, or
one that does not verify, and `secrets.token_urlsafe` draws no id twice.  A store may lose a session at any time, but
what it returns was saved last (`Faithful`; the store in memory is).

A handler then finds what a request of the same client has written last under the id, or no session at all
(`sessions_isolated`).  The values are those it has set: copies are shallow, so this presupposes that no handler changes
a nested list or dictionary in place.
-/

set_option autoImplicit false

namespace Xyberos.Http

variable {V C : Type}

/-! ## Stores that keep what they keep -/

/-- What a store returns was saved last, and nothing else changes it. -/
structure SessionStore.Faithful (store : SessionStore V) : Prop where
  load_save : ∀ s id id' data maxAge x, (store.load (store.save s id' data maxAge) id).2 = some x →
    id = id' ∧ x = data ∨ id ≠ id' ∧ (store.load s id).2 = some x
  load_load : ∀ s id id' x, (store.load (store.load s id').1 id).2 = some x → (store.load s id).2 = some x
  load_delete : ∀ s id id' x, (store.load (store.delete s id') id).2 = some x → (store.load s id).2 = some x
  load_own : ∀ s id o x, (store.load (store.own s o) id).2 = some x → (store.load s id).2 = some x

namespace Memory

variable {s : Memory V} {id : String} {data : Dict V}

theorem load_eq_some : (s.load id).2 = some data ↔ ∃ expiresAt, s.data.get? id = some (data, expiresAt) ∧
    s.now < expiresAt := by
  rw [load_snd]
  cases s.data.get? id with
  | none => simp
  | some entry => simp [Option.filter, Prod.ext_iff, and_comm, eq_comm]

theorem load_of_sublist (s' : Memory V) (hrows : s'.data.rows.Sublist s.data.rows) (hnow : s.now ≤ s'.now)
    (h : (s'.load id).2 = some data) : (s.load id).2 = some data := by
  obtain ⟨expiresAt, hget, hlive⟩ := load_eq_some.mp h
  exact load_eq_some.mpr ⟨expiresAt, Table.get?_of_sublist hrows hget, hnow.trans_lt hlive⟩

theorem fst_load (id : String) : (s.load id).1 = s ∨ (s.load id).1 = s.delete id := by
  unfold load
  cases s.data.get? id with
  | none => exact .inl rfl
  | some entry =>
    dsimp only
    split_ifs
    · exact .inr rfl
    · exact .inl rfl

theorem load_of_delete {id' : String} (h : ((s.delete id').load id).2 = some data) : (s.load id).2 = some data :=
  load_of_sublist (s.delete id') List.filter_sublist le_rfl h

theorem load_of_load {id' : String} (h : ((s.load id').1.load id).2 = some data) : (s.load id).2 = some data := by
  rcases s.fst_load id' with he | he <;> rw [he] at h
  · exact h
  · exact load_of_delete h

theorem load_of_save {maxSessions maxAge : ℕ} {id' : String} {data' : Dict V}
    (h : ((s.save maxSessions id' data' maxAge).load id).2 = some data) :
    id = id' ∧ data = data' ∨ id ≠ id' ∧ (s.load id).2 = some data := by
  obtain ⟨expiresAt, hget, hlive⟩ := load_eq_some.mp h
  have hupsert : ((makeRoom maxSessions id' s.evictExpired).upsert id' (data', s.now + maxAge)
      fun _ => (data', s.now + maxAge)).get? id = some (data, expiresAt) := hget
  rw [Table.get?_upsert] at hupsert
  by_cases hid : id = id'
  · subst hid
    rw [if_pos rfl] at hupsert
    refine .inl ⟨rfl, ?_⟩
    cases hroom : (makeRoom maxSessions id s.evictExpired).get? id with
    | none =>
      rw [hroom] at hupsert
      exact (congrArg Prod.fst (Option.some.inj hupsert)).symm
    | some entry =>
      rw [hroom] at hupsert
      exact (congrArg Prod.fst (Option.some.inj hupsert)).symm
  · rw [if_neg hid] at hupsert
    have hrows : (makeRoom maxSessions id' s.evictExpired).rows.Sublist s.data.rows :=
      (dropOldest_sublist ..).trans List.filter_sublist
    exact .inr ⟨hid, load_eq_some.mpr ⟨expiresAt, Table.get?_of_sublist hrows hupsert, hlive⟩⟩

theorem load_of_tick {t : ℚ≥0} (h : ((s.tick t).load id).2 = some data) : (s.load id).2 = some data :=
  load_of_sublist (s.tick t) (List.Sublist.refl _) (le_add_of_nonneg_right t.2) h

end Memory

/-- The store in memory loses sessions, by age and by number, and changes none. -/
theorem faithful_inMemory (maxSessions : ℕ) : (inMemorySessionStore V maxSessions).Faithful where
  load_save _ _ _ _ _ _ h := Memory.load_of_save h
  load_load _ _ _ _ h := Memory.load_of_load h
  load_delete _ _ _ _ h := Memory.load_of_delete h
  load_own _ _ _ _ h := Memory.load_of_tick h

/-! ## Clients -/

section Clients

variable {m : SessionMiddleware V} (client : ℕ → C)

/-- A response to the client has set the cookie of the session. -/
def Given (s : Site m) (c : C) (id : String) : Prop :=
  ∃ r session, client r = c ∧ session.id = some id ∧
    s.requests r = .responded session [("Set-Cookie", m.cookieHeader (m.signed id) m.maxAge)]

/-- A client presents what it was given, or what does not verify; an id that is drawn was not given before. -/
def Honest (s : Site m) : Event m → Prop
  | .load r (some cookie) => ∀ id, m.verified cookie = .ok (some id) → Given client s (client r) id
  | .respond r token => ∀ session, s.requests r = .handling session → session.id = none → ∀ c, ¬ Given client s c token
  | _ => True

/-- What a step writes: whose request, under which id, and the data. -/
def wrote (s : Site m) : Event m → Option (C × String × Dict V)
  | .respond r token =>
    match s.requests r with
    | .handling session => (session.written token).map fun id => (client r, id, session.data)
    | _ => none
  | _ => none

/-- A site, and what its clients have written, the last first. -/
structure Watched (m : SessionMiddleware V) (C : Type) where
  site : Site m
  log : List (C × String × Dict V) := []

def Watched.step (w : Watched m C) (e : Event m) : Watched m C where
  site := w.site.step e
  log := (wrote client w.site e).toList ++ w.log

/-- What was written last under an id. -/
def Watched.last (w : Watched m C) (id : String) : Option (C × String × Dict V) := w.log.find? fun x => x.2.1 = id

/-- Every session belongs to one client, and the store holds what that client has written last. -/
structure Watched.Isolated (w : Watched m C) : Prop where
  owner : ∀ c c' id, Given client w.site c id → Given client w.site c' id → c = c'
  handled : ∀ r session id, w.site.requests r = .handling session → session.id = some id →
    Given client w.site (client r) id
  stored : ∀ id data, (m.store.load w.site.store id).2 = some data →
    ∃ c, Given client w.site c id ∧ w.last id = some (c, id, data)

variable {client}

/-! ### What one step does -/

theorem Change.apply_id (change : Change V) (session : Session V) : (change.apply session).id = session.id := by
  cases change with
  | setItem key value => rfl
  | clear => rfl
  | delItem key =>
    show ((session.delItem key).toOption.getD session).id = session.id
    unfold Session.delItem
    cases session.data.getItem key <;> rfl

theorem Session.eq_of_written {session : Session V} {token id : String} (h : session.written token = some id) :
    session.id.getD token = id := by
  unfold Session.written at h
  split_ifs at h
  exact Option.some.inj h

theorem persist_written {s : m.store.State} {session : Session V} {token id : String}
    (h : session.written token = some id) : (m.persist s session token).2 =
      (session.attach id, [("Set-Cookie", m.cookieHeader (m.signed id) m.maxAge)]) := by
  unfold Session.written at h
  split_ifs at h with hwrites
  obtain ⟨hempty, hmodified⟩ := Bool.and_eq_true_iff.mp hwrites
  have hid := Option.some.inj h
  have hkept : (!session.modified && session.id.isSome) = false := by
    cases hm : session.modified <;> cases hi : session.id <;> simp_all
  rw [Bool.not_eq_true'] at hempty
  simp only [SessionMiddleware.persist, hempty, hkept, hid, Bool.false_eq_true, if_false]

theorem persist_unwritten {s : m.store.State} {session : Session V} {token : String}
    (h : session.written token = none) : (m.persist s session token).2.1 = session := by
  unfold Session.written at h
  by_cases hempty : session.isEmpty = true
  · cases hid : session.id <;> simp [SessionMiddleware.persist, hempty, hid]
  · have hkept : (!session.modified && session.id.isSome) = true := by
      cases hm : session.modified <;> cases hi : session.id <;> simp_all
    simp [SessionMiddleware.persist, hempty, hkept]

/-- A session that is loaded is new, or what the store has under the id of the cookie. -/
theorem load_spec (hstore : m.store.Faithful) {s s' : m.store.State} {cookie : Option String} {session : Session V}
    (h : m.load s cookie = .ok (s', session)) :
    (∀ id x, (m.store.load s' id).2 = some x → (m.store.load s id).2 = some x) ∧
      (session = .new none ∨ ∃ text id data, cookie = some text ∧ m.verified text = .ok (some id) ∧
        (m.store.load s id).2 = some data ∧ session = (Session.new (some data)).attach id) := by
  unfold SessionMiddleware.load at h
  cases cookie with
  | none =>
    obtain ⟨rfl, rfl⟩ := Prod.mk.inj (Except.ok.inj h)
    exact ⟨fun _ _ hx => hx, .inl rfl⟩
  | some text =>
    cases hv : m.verified text with
    | error => simp [hv, bind, Except.bind] at h
    | ok sessionId =>
      simp only [hv, bind, Except.bind, pure, Except.pure] at h
      cases sessionId with
      | none =>
        obtain ⟨rfl, rfl⟩ := Prod.mk.inj (Except.ok.inj h)
        exact ⟨fun _ _ hx => hx, .inl rfl⟩
      | some id =>
        cases hdata : (m.store.load s id).2 with
        | none =>
          simp only [hdata, Except.ok.injEq, Prod.mk.injEq] at h
          obtain ⟨rfl, rfl⟩ := h
          exact ⟨fun id' x hx => hstore.load_load s id' id x hx, .inl rfl⟩
        | some data =>
          simp only [hdata, Except.ok.injEq, Prod.mk.injEq] at h
          obtain ⟨rfl, rfl⟩ := h
          exact ⟨fun id' x hx => hstore.load_load s id' id x hx, .inr ⟨text, id, data, rfl, hv, hdata, rfl⟩⟩

theorem Given.mono {s s' : Site m} {c : C} {id : String} (h : Given client s c id)
    (hs : ∀ r session headers, s.requests r = .responded session headers → s'.requests r = .responded session headers) :
    Given client s' c id := by
  obtain ⟨r, session, hc, hid, hr⟩ := h
  exact ⟨r, session, hc, hid, hs _ _ _ hr⟩

/-- A step that starts no response, gives no handler another's session and brings none back keeps them apart. -/
theorem Watched.Isolated.quiet {w : Watched m C} (h : w.Isolated client) {site : Site m}
    (hresponded : ∀ r session headers, site.requests r = .responded session headers ↔
      w.site.requests r = .responded session headers)
    (hhandled : ∀ r session id, site.requests r = .handling session → session.id = some id →
      Given client w.site (client r) id)
    (hload : ∀ id x, (m.store.load site.store id).2 = some x → (m.store.load w.site.store id).2 = some x) :
    Watched.Isolated client { w with site } := by
  have hback : ∀ {c id}, Given client site c id → Given client w.site c id := fun hc =>
    hc.mono fun r session headers hr => (hresponded r session headers).mp hr
  have hforth : ∀ {c id}, Given client w.site c id → Given client site c id := fun hc =>
    hc.mono fun r session headers hr => (hresponded r session headers).mpr hr
  refine ⟨fun c c' id hc hc' => h.owner c c' id (hback hc) (hback hc'), fun r session id hr hid => ?_,
    fun id data hdata => ?_⟩
  · exact hforth (hhandled r session id hr hid)
  · obtain ⟨c, hc, hlast⟩ := h.stored id data (hload id data hdata)
    exact ⟨c, hforth hc, hlast⟩

/-- The same for a request that goes on and does not respond. -/
theorem Watched.Isolated.goesOn {w : Watched m C} (h : w.Isolated client) {r : ℕ} {x : Stage V} {store : m.store.State}
    (hr : ∀ session headers, w.site.requests r ≠ .responded session headers)
    (hx : ∀ session headers, x ≠ .responded session headers)
    (hhandled : ∀ session id, x = .handling session → session.id = some id → Given client w.site (client r) id)
    (hload : ∀ id x, (m.store.load store id).2 = some x → (m.store.load w.site.store id).2 = some x) :
    Watched.Isolated client
      { w with site := { w.site with store, requests := Function.update w.site.requests r x } } := by
  refine h.quiet (fun r' session headers => ?_) (fun r' session id hr' hid => ?_) hload
  · dsimp only
    by_cases he : r' = r
    · subst he
      rw [Function.update_self]
      exact iff_of_false (hx session headers) (hr session headers)
    · rw [Function.update_of_ne he]
  · dsimp only at hr'
    by_cases he : r' = r
    · subst he
      rw [Function.update_self] at hr'
      exact hhandled session id hr' hid
    · rw [Function.update_of_ne he] at hr'
      exact h.handled r' session id hr' hid

theorem Watched.Isolated.load (hstore : m.store.Faithful) {w : Watched m C} (h : w.Isolated client) {r : ℕ}
    {cookie : Option String} (hhonest : Honest client w.site (.load r cookie)) :
    (w.step client (.load r cookie)).Isolated client := by
  show Watched.Isolated client { w with site := w.site.step (.load r cookie) }
  rw [Site.step]
  cases hr : w.site.requests r with
  | handling => exact h
  | responded => exact h
  | failed => exact h
  | idle =>
    dsimp only
    have hidle : ∀ session headers, w.site.requests r ≠ .responded session headers := by simp [hr]
    cases hload : m.load w.site.store cookie with
    | error e => exact h.goesOn hidle (by simp) (by simp) fun _ _ hx => hx
    | ok x =>
      obtain ⟨store, session⟩ := x
      obtain ⟨hkeeps, hsession⟩ := load_spec hstore hload
      refine h.goesOn hidle (by simp) (fun session' id he hid => ?_) hkeeps
      obtain rfl := Stage.handling.inj he
      rcases hsession with rfl | ⟨text, id', data, rfl, hverified, -, rfl⟩
      · cases hid
      · obtain rfl : id' = id := Option.some.inj hid
        exact hhonest id' hverified

theorem Watched.Isolated.handle {w : Watched m C} (h : w.Isolated client) (r : ℕ) (change : Change V) :
    (w.step client (.handle r change)).Isolated client := by
  show Watched.Isolated client { w with site := w.site.step (.handle r change) }
  rw [Site.step]
  cases hr : w.site.requests r with
  | idle => exact h
  | responded => exact h
  | failed => exact h
  | handling session =>
    refine h.goesOn (by simp [hr]) (by simp) (fun session' id he hid => ?_) fun _ _ hx => hx
    obtain rfl := Stage.handling.inj he
    rw [change.apply_id] at hid
    exact h.handled r session id hr hid

/-- Who has been given what, when the response of a request has started. -/
theorem given_responded {s : Site m} {r : ℕ} {session session' : Session V} {headers : List (String × String)}
    {store : m.store.State} {deleted : List String} (hr : s.requests r = .handling session) {c : C} {id : String} :
    Given client ⟨store, Function.update s.requests r (.responded session' headers), deleted⟩ c id ↔
      Given client s c id ∨ c = client r ∧ session'.id = some id ∧
        headers = [("Set-Cookie", m.cookieHeader (m.signed id) m.maxAge)] := by
  constructor
  · rintro ⟨r', session'', hc, hid, hr'⟩
    by_cases he : r' = r
    · subst he
      dsimp only at hr'
      rw [Function.update_self] at hr'
      obtain ⟨rfl, rfl⟩ := Stage.responded.inj hr'
      exact .inr ⟨hc.symm, hid, rfl⟩
    · dsimp only at hr'
      rw [Function.update_of_ne he] at hr'
      exact .inl ⟨r', session'', hc, hid, hr'⟩
  · rintro (hgiven | ⟨rfl, hid, rfl⟩)
    · refine hgiven.mono fun r' session'' headers' hr' => ?_
      have he : r' ≠ r := by
        rintro rfl
        rw [hr] at hr'
        cases hr'
      exact (Function.update_of_ne he _ _).trans hr'
    · exact ⟨r, session', rfl, hid, Function.update_self ..⟩

/-- The start of a response: what is written is the client's own, and new if it had no session. -/
theorem Watched.Isolated.respond (hstore : m.store.Faithful) {w : Watched m C} (h : w.Isolated client) {r : ℕ}
    {token : String} (hhonest : Honest client w.site (.respond r token)) :
    (w.step client (.respond r token)).Isolated client := by
  unfold Watched.step
  rw [Site.step]
  dsimp only [wrote]
  cases hr : w.site.requests r with
  | idle => exact h
  | responded => exact h
  | failed => exact h
  | handling session =>
    dsimp only
    have hhandled : ∀ r' session' id x, Function.update w.site.requests r x r' = .handling session' →
        (∀ session'', x ≠ .handling session'') → session'.id = some id → Given client w.site (client r') id := by
      intro r' session' id x hr' hx hid
      by_cases he : r' = r
      · subst he
        rw [Function.update_self] at hr'
        exact absurd hr' (hx session')
      · rw [Function.update_of_ne he] at hr'
        exact h.handled r' session' id hr' hid
    cases hw : session.written token with
    | none =>
      -- a cookie that is set to expire is the one of a session that was the client's already
      have hsame := persist_unwritten (m := m) (s := w.site.store) hw
      have hback : ∀ {c : C} {id : String} {store : m.store.State} {deleted : List String}, Given client ⟨store,
          Function.update w.site.requests r (.responded (m.persist w.site.store session token).2.1
            (m.persist w.site.store session token).2.2), deleted⟩ c id → Given client w.site c id := by
        intro c id store deleted hc
        rcases (given_responded hr).mp hc with hold | ⟨rfl, hid, -⟩
        · exact hold
        · exact h.handled r session id hr (hsame ▸ hid)
      refine ⟨fun c c' id hc hc' => h.owner c c' id (hback hc) (hback hc'), fun r' session' id hr' hid => ?_,
        fun id data hdata => ?_⟩
      · exact (given_responded hr).mpr (.inl (hhandled r' session' id _ hr' (by simp) hid))
      · have hload : (m.store.load w.site.store id).2 = some data := by
          cases hd : session.deleted with
          | none =>
            rwa [SessionMiddleware.persist_of_neither hd hw] at hdata
          | some id' =>
            rw [SessionMiddleware.persist_of_deleted hd] at hdata
            exact hstore.load_delete _ _ _ _ hdata
        obtain ⟨c, hc, hlast⟩ := h.stored id data hload
        exact ⟨c, (given_responded hr).mpr (.inl hc), hlast⟩
    | some id₀ =>
      have hpersist := persist_written (m := m) (s := w.site.store) hw
      -- the id is the client's already, or drawn now and nobody's
      have hown : ∀ c, Given client w.site c id₀ → c = client r := by
        intro c hc
        cases hid : session.id with
        | some id =>
          obtain rfl : id = id₀ := by rw [← Session.eq_of_written hw, hid, Option.getD_some]
          exact h.owner c _ _ hc (h.handled r session id hr hid)
        | none =>
          obtain rfl : token = id₀ := by rw [← Session.eq_of_written hw, hid, Option.getD_none]
          exact absurd hc (hhonest session hr hid c)
      have hgiven : ∀ {c : C} {id : String} {store : m.store.State} {deleted : List String}, Given client ⟨store,
          Function.update w.site.requests r (.responded (m.persist w.site.store session token).2.1
            (m.persist w.site.store session token).2.2), deleted⟩ c id ↔
              Given client w.site c id ∨ c = client r ∧ id = id₀ := by
        intro c id store deleted
        rw [given_responded hr, hpersist]
        refine or_congr_right (and_congr_right fun _ => ⟨fun hid => (Option.some.inj hid.1).symm, ?_⟩)
        rintro rfl
        exact ⟨rfl, rfl⟩
      refine ⟨fun c c' id hc hc' => ?_, fun r' session' id hr' hid => ?_, fun id data hdata => ?_⟩
      · rcases hgiven.mp hc with hc | ⟨rfl, rfl⟩ <;> rcases hgiven.mp hc' with hc' | ⟨rfl, he⟩
        · exact h.owner c c' id hc hc'
        · exact hown c (he ▸ hc)
        · exact (hown c' hc').symm
        · rfl
      · exact hgiven.mpr (.inl (hhandled r' session' id _ hr' (by simp) hid))
      · rw [SessionMiddleware.persist_of_written hw] at hdata
        rcases hstore.load_save _ _ _ _ _ _ hdata with ⟨rfl, rfl⟩ | ⟨hne, hload⟩
        · exact ⟨client r, hgiven.mpr (.inr ⟨rfl, rfl⟩), List.find?_cons_of_pos (by simp)⟩
        · obtain ⟨c, hc, hlast⟩ := h.stored id data hload
          refine ⟨c, hgiven.mpr (.inl hc), ?_⟩
          exact (List.find?_cons_of_neg (by simpa using Ne.symm hne)).trans hlast

theorem Watched.Isolated.step (hstore : m.store.Faithful) {w : Watched m C} (h : w.Isolated client) (e : Event m)
    (hhonest : Honest client w.site e) : (w.step client e).Isolated client := by
  cases e with
  | load r cookie => exact h.load hstore hhonest
  | handle r change => exact h.handle r change
  | respond r token => exact h.respond hstore hhonest
  | own o =>
    refine h.quiet (fun _ _ _ => Iff.rfl) (fun r session id hr hid => h.handled r session id hr hid) fun id x hx => ?_
    exact hstore.load_own _ _ _ _ hx

/-! ### Whole runs -/

/-- What a handler finds: no session, or what its client has written last under the id. -/
def Finds (client : ℕ → C) (w : Watched m C) (r : ℕ) (session : Session V) : Prop :=
  session = .new none ∨ ∃ id, session.id = some id ∧ w.last id = some (client r, id, session.data)

/-- No session has been given to two clients, and a handler that is about to start finds its client's own. -/
def Private (client : ℕ → C) (w : Watched m C) (e : Event m) : Prop :=
  (∀ c c' id, Given client w.site c id → Given client w.site c' id → c = c') ∧
    ∀ r cookie session, e = .load r cookie → w.site.requests r = .idle →
      (w.site.step e).requests r = .handling session → Finds client w r session

theorem Watched.Isolated.keeps_private (hstore : m.store.Faithful) {w : Watched m C} (h : w.Isolated client) {e : Event m}
    (hhonest : Honest client w.site e) : Private client w e := by
  refine ⟨h.owner, ?_⟩
  rintro r cookie session rfl hr hsession
  rw [Site.step, hr] at hsession
  dsimp only at hsession
  cases hload : m.load w.site.store cookie with
  | error e =>
    rw [hload] at hsession
    dsimp only at hsession
    rw [Function.update_self] at hsession
    cases hsession
  | ok x =>
    obtain ⟨store, session'⟩ := x
    rw [hload] at hsession
    dsimp only at hsession
    rw [Function.update_self] at hsession
    obtain rfl := Stage.handling.inj hsession
    rcases (load_spec hstore hload).2 with rfl | ⟨text, id, data, rfl, hverified, hdata, rfl⟩
    · exact .inl rfl
    · obtain ⟨c, hc, hlast⟩ := h.stored id data hdata
      obtain rfl := h.owner c (client r) id hc (hhonest id hverified)
      exact .inr ⟨id, rfl, hlast⟩

/-- **Sessions are kept apart.**  However the requests of any clients interleave, and whatever a faithful store forgets:
no session is given to two clients, and a handler finds nothing or what a request of its own client has written last. -/
theorem sessions_isolated (hstore : m.store.Faithful) {start : m.store.State} (hstart : ∀ id, m.store.Gone start id)
    {l : List (Event m)} (h : Steps (Watched.step client) (fun w e => Honest client w.site e)
      { site := { store := start } } l) :
    Steps (Watched.step client) (Private client) { site := { store := start } } l := by
  have hinitial : Watched.Isolated client { site := { store := start } : Watched m C } := by
    refine ⟨fun c c' id hc => ?_, fun r session id hr => ?_, fun id data hdata => ?_⟩
    · obtain ⟨r, session, -, -, hr⟩ := hc
      cases hr
    · cases hr
    · rw [hstart id] at hdata
      cases hdata
  refine steps_iff.mpr fun pre e post hl => ?_
  subst hl
  obtain ⟨hpre, hhonest, -⟩ := steps_append.mp h
  exact (hpre.invariant hinitial fun w e hw he => hw.step hstore e he).keeps_private hstore hhonest

/-! #### Two clients -/

/-- Two clients write a session each, at the same time, and one of them comes back. -/
def twoClients : List (Event Site.signedIn) :=
  [.load 0 none, .load 1 none, .handle 0 (.setItem "user" 1), .handle 1 (.setItem "user" 2), .respond 1 "b",
    .respond 0 "a", .load 2 (some "a.mac")]

def parity (r : ℕ) : ℕ := r % 2

def emptySite : Watched Site.signedIn ℕ := { site := { store := (⟨⟨[], List.nodup_nil⟩, 0⟩ : Memory ℕ) } }

theorem gone_emptySite (id : String) : Site.signedIn.store.Gone emptySite.site.store id := rfl

theorem honest_twoClients : Steps (Watched.step parity) (fun w e => Honest parity w.site e) emptySite twoClients := by
  refine ⟨trivial, trivial, trivial, trivial, ?_, ?_, ?_, trivial⟩
  · rintro session - - c ⟨r, session', -, -, hr⟩
    match r with
    | 0 => cases hr
    | 1 => cases hr
    | r + 2 => cases hr
  · rintro session - - c ⟨r, session', -, hid, hr⟩
    match r with
    | 0 => cases hr
    | 1 =>
      obtain ⟨rfl, -⟩ := Stage.responded.inj hr
      exact absurd hid (by decide)
    | r + 2 => cases hr
  · have hverified : Site.signedIn.verified "a.mac" = .ok (some "a") := by decide +kernel
    intro id hid
    obtain rfl : "a" = id := Option.some.inj (Except.ok.inj (hverified.symm.trans hid))
    exact ⟨0, ⟨⟨[("user", 1)]⟩, true, false, some "a"⟩, rfl, rfl, rfl⟩

theorem sessions_isolated_twoClients : Steps (Watched.step parity) (Private parity) emptySite twoClients :=
  sessions_isolated (faithful_inMemory 10000) gone_emptySite honest_twoClients

end Clients

end Xyberos.Http
