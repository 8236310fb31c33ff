import Xyberos.Http.Sessions
import Mathlib.Data.List.Induction

/-!
# Xyberos.Http.Expiring — the store in memory is a bounded expiring map

The history of a store lists its calls, each with the time and the ids that it dropped while they were unexpired.
`lastSave` reads off the history what an id holds, and `since` when it was stored, or stored again after having gone;
neither looks at the store.  `Follows` ties the rows of the store to its history, every call keeps it, and the claims
about the store are read off it.
-/

set_option autoImplicit false

namespace Xyberos.Http

variable {V : Type}

/-! ## Calls and histories -/

/-- A call of the store.  `lag` passes between the two looks at the clock of a `save`. -/
inductive StoreCall (V : Type) where
  | load (id : String)
  | save (id : String) (data : Dict V) (maxAge : ℕ) (lag : ℚ≥0)
  | delete (id : String)

namespace Memory

/-- `save`, with the time that passes between its two looks at the clock. -/
def saveSlowly (maxSessions : ℕ) (s : Memory V) (id : String) (data : Dict V) (maxAge : ℕ) (lag : ℚ≥0) : Memory V :=
  let entry := (data, s.now + lag + maxAge)
  { data := (makeRoom maxSessions id s.evictExpired).upsert id entry fun _ => entry, now := s.now + lag }

theorem saveSlowly_zero (maxSessions : ℕ) (s : Memory V) (id : String) (data : Dict V) (maxAge : ℕ) :
    s.saveSlowly maxSessions id data maxAge 0 = s.save maxSessions id data maxAge := by
  simp [saveSlowly, save]

def perform (maxSessions : ℕ) (s : Memory V) : StoreCall V → Memory V
  | .load id => (s.load id).1
  | .save id data maxAge lag => s.saveSlowly maxSessions id data maxAge lag
  | .delete id => s.delete id

end Memory

/-- A call that was made: the time of its first look at the clock, and the ids that it dropped unexpired. -/
structure Past (V : Type) where
  time : ℚ
  call : StoreCall V
  evicted : List String

/-- The call deletes the id. -/
def StoreCall.deletes (id : String) : StoreCall V → Bool
  | .delete id' => id' == id
  | _ => false

/-- The ids that are gone after a call, were not expired before it, and were not deleted by it. -/
def evictedBy (before : Memory V) (call : StoreCall V) (later : Memory V) : List String :=
  (before.evictExpired.rows.map Prod.fst).filter fun id => id ∉ later.data.rows.map Prod.fst ∧ call.deletes id = false

/-- A store with its history, the last call first. -/
structure Chronicle (V : Type) where
  store : Memory V
  past : List (Past V)

namespace Chronicle

variable (maxSessions : ℕ)

/-- A call, some time after the one before. -/
def step (c : Chronicle V) (x : ℚ≥0 × StoreCall V) : Chronicle V :=
  let before := c.store.tick x.1
  let later := before.perform maxSessions x.2
  { store := later, past := ⟨before.now, x.2, evictedBy before x.2 later⟩ :: c.past }

/-- The store from its making on. -/
def run (start : ℚ) (calls : List (ℚ≥0 × StoreCall V)) : Chronicle V :=
  after (step maxSessions) ⟨⟨.empty, start⟩, []⟩ calls

end Chronicle

/-! ## What a history says -/

/-- The data of the last save of an id and the end of its life, unless the id was deleted or evicted since. -/
def lastSave (id : String) : List (Past V) → Option (Dict V × ℚ)
  | [] => none
  | p :: older =>
    if id ∈ p.evicted then none
    else
      match p.call with
      | .load _ => lastSave id older
      | .save id' data maxAge lag => if id' = id then some (data, p.time + lag + maxAge) else lastSave id older
      | .delete id' => if id' = id then none else lastSave id older

/-- The id is held, unexpired, at a time. -/
def Held (past : List (Past V)) (time : ℚ) (id : String) : Prop := ∃ entry, lastSave id past = some entry ∧ time < entry.2

instance (past : List (Past V)) (time : ℚ) (id : String) : Decidable (Held past time id) :=
  decidable_of_iff ((lastSave id past).any fun entry => time < entry.2) (by simp [Held, Option.any_eq_true])

/-- The number of the call that stored the id first, or again after it had gone. -/
def since (id : String) : List (Past V) → ℕ
  | [] => 0
  | p :: older =>
    match p.call with
    | .save id' _ _ _ => if id' = id ∧ ¬ Held older p.time id then older.length else since id older
    | _ => since id older

/-- What a call that evicts is, and what it evicts. -/
structure Evicts (maxSessions : ℕ) (p : Past V) (older : List (Past V)) : Prop where
  new : ∃ id data maxAge lag, p.call = .save id data maxAge lag ∧ ¬ Held older p.time id
  full : ∃ ids : List String, ids.Nodup ∧ ids.length = maxSessions ∧ ∀ id, id ∈ ids ↔ Held older p.time id
  oldest : ∃ id, p.evicted = [id] ∧ Held older p.time id ∧
    ∀ id', Held older p.time id' → id' ≠ id → since id older < since id' older

/-- The store is a bounded expiring map: how much it holds, what it answers at any later time, what it evicts. -/
structure Chronicle.BoundedMap (maxSessions : ℕ) (c : Chronicle V) : Prop where
  bounded : c.store.data.rows.length ≤ maxSessions
  answers : ∀ (id : String) (wait : ℚ≥0), ((c.store.tick wait).load id).2 =
    ((lastSave id c.past).filter fun entry => (c.store.tick wait).now < entry.2).map Prod.fst
  evictions : ∀ newer p older, c.past = newer ++ p :: older → p.evicted ≠ [] → Evicts maxSessions p older

/-! ## The rows of a store and its history -/

/-- The rows are what the history says is held, and some that have expired, in the order in which they were stored. -/
structure Chronicle.Follows (maxSessions : ℕ) (c : Chronicle V) : Prop where
  said : ∀ row ∈ c.store.data.rows, lastSave row.1 c.past = some row.2
  kept : ∀ id entry, lastSave id c.past = some entry → c.store.now < entry.2 → (id, entry) ∈ c.store.data.rows
  order : c.store.data.rows.Pairwise fun a b => since a.1 c.past < since b.1 c.past
  earlier : ∀ row ∈ c.store.data.rows, since row.1 c.past < c.past.length
  bounded : c.store.data.rows.length ≤ maxSessions

section Rows

variable {maxSessions : ℕ} {s : Memory V} {id : String} {rows : List (String × Dict V × ℚ)}

theorem mem_evictExpired {row : String × Dict V × ℚ} :
    row ∈ s.evictExpired.rows ↔ row ∈ s.data.rows ∧ s.now < row.2.2 := by
  simp [Memory.evictExpired]

/-- An id that is there needs no room. -/
theorem dropOldest_of_mem (h : id ∈ rows.map Prod.fst) : Memory.dropOldest maxSessions id rows = rows := by
  cases rows with
  | nil => rfl
  | cons row rows =>
    rw [Memory.dropOldest, if_neg]
    exact fun hcond => hcond.2 h

/-- A new id takes the place of the oldest one, if there is no other. -/
theorem dropOldest_of_notMem (hmax : 1 ≤ maxSessions) (h : id ∉ rows.map Prod.fst) (hle : rows.length ≤ maxSessions) :
    rows.length < maxSessions ∧ Memory.dropOldest maxSessions id rows = rows ∨
      ∃ row rest, rows = row :: rest ∧ rows.length = maxSessions ∧ Memory.dropOldest maxSessions id rows = rest := by
  have hstop : ∀ l : List (String × Dict V × ℚ), l.length < maxSessions → Memory.dropOldest maxSessions id l = l := by
    intro l hl
    cases l with
    | nil => rfl
    | cons row l =>
      rw [Memory.dropOldest, if_neg]
      rintro ⟨hge, -⟩
      omega
  by_cases hlt : rows.length < maxSessions
  · exact .inl ⟨hlt, hstop rows hlt⟩
  · cases rows with
    | nil =>
      have : (0 : ℕ) = maxSessions := by simpa using Nat.le_antisymm hle (not_lt.mp hlt)
      omega
    | cons row rest =>
      refine .inr ⟨row, rest, rfl, Nat.le_antisymm hle (not_lt.mp hlt), ?_⟩
      rw [Memory.dropOldest, if_pos ⟨not_lt.mp hlt, h⟩]
      refine hstop rest ?_
      rw [List.length_cons] at hle
      omega

end Rows

namespace Chronicle

variable {maxSessions : ℕ} {c : Chronicle V} {wait : ℚ≥0}

/-- The ids that are held at the time of the next call. -/
theorem Follows.held_iff (h : c.Follows maxSessions) {id : String} :
    Held c.past (c.store.tick wait).now id ↔ id ∈ (c.store.tick wait).evictExpired.rows.map Prod.fst := by
  have hlater : c.store.now ≤ (c.store.tick wait).now := le_add_of_nonneg_right wait.2
  rw [List.mem_map]
  constructor
  · rintro ⟨entry, hlast, hlive⟩
    exact ⟨(id, entry), mem_evictExpired.mpr ⟨h.kept id entry hlast (hlater.trans_lt hlive), hlive⟩, rfl⟩
  · rintro ⟨row, hrow, rfl⟩
    obtain ⟨hmem, hlive⟩ := mem_evictExpired.mp hrow
    exact ⟨row.2, h.said row hmem, hlive⟩

/-- A call that saves nothing and evicts nothing keeps some of the rows, among them the unexpired ones that are not
deleted. -/
theorem Follows.of_sublist (h : c.Follows maxSessions) (wait : ℚ≥0) (p : Past V) {rows : Table String (Dict V × ℚ)}
    (hsub : rows.rows.Sublist c.store.data.rows) (hcall : ∀ id data maxAge lag, p.call ≠ .save id data maxAge lag)
    (hevicted : p.evicted = []) (hdeleted : ∀ row ∈ rows.rows, p.call.deletes row.1 = false)
    (hkept : ∀ row ∈ c.store.data.rows, c.store.now + wait < row.2.2 → p.call.deletes row.1 = false → row ∈ rows.rows) :
    (⟨⟨rows, c.store.now + wait⟩, p :: c.past⟩ : Chronicle V).Follows maxSessions := by
  have hlast : ∀ id, lastSave id (p :: c.past) = if p.call.deletes id then none else lastSave id c.past := by
    intro id
    rw [lastSave, hevicted, if_neg List.not_mem_nil]
    cases hp : p.call with
    | load id' => simp [StoreCall.deletes]
    | save id' data maxAge lag => exact (hcall _ _ _ _ hp).elim
    | delete id' => simp [StoreCall.deletes]
  have hsince : ∀ id, since id (p :: c.past) = since id c.past := by
    intro id
    cases hp : p.call with
    | save id' data maxAge lag => exact (hcall _ _ _ _ hp).elim
    | load id' => simp [since, hp]
    | delete id' => simp [since, hp]
  refine ⟨fun row hrow => ?_, fun id entry hentry hlive => ?_, ?_, fun row hrow => ?_, ?_⟩
  · rw [hlast, hdeleted row hrow]
    exact h.said row (hsub.subset hrow)
  · rw [hlast] at hentry
    by_cases hdel : p.call.deletes id = true
    · rw [if_pos hdel] at hentry
      cases hentry
    · rw [if_neg hdel] at hentry
      have hnow : c.store.now < entry.2 := lt_of_le_of_lt (le_add_of_nonneg_right wait.2) hlive
      exact hkept _ (h.kept id entry hentry hnow) hlive (Bool.eq_false_iff.mpr hdel)
  · simp only [hsince]
    exact h.order.sublist hsub
  · rw [hsince]
    exact (h.earlier row (hsub.subset hrow)).trans (Nat.lt_succ_self _)
  · exact hsub.length_le.trans h.bounded

/-- A call evicts nothing when the unexpired rows that it does not delete are still there. -/
theorem evictedBy_eq_nil {before later : Memory V} {call : StoreCall V}
    (h : ∀ row ∈ before.data.rows, before.now < row.2.2 → call.deletes row.1 = false → row ∈ later.data.rows) :
    evictedBy before call later = [] := by
  unfold evictedBy
  rw [List.filter_eq_nil_iff]
  intro id hid hgone
  obtain ⟨row, hrow, rfl⟩ := List.mem_map.mp hid
  obtain ⟨hmem, hlive⟩ := mem_evictExpired.mp hrow
  obtain ⟨hnot, hdel⟩ := of_decide_eq_true hgone
  exact hnot (List.mem_map_of_mem (h row hmem hlive hdel))

/-- Looking a session up drops it when it has expired. -/
theorem Follows.load (h : c.Follows maxSessions) (wait : ℚ≥0) (id : String) :
    (c.step maxSessions (wait, .load id)).Follows maxSessions ∧
      evictedBy (c.store.tick wait) (.load id) ((c.store.tick wait).load id).1 = [] := by
  have hrows : ((c.store.tick wait).load id).1.now = c.store.now + wait ∧
      ((c.store.tick wait).load id).1.data.rows.Sublist c.store.data.rows ∧
      ∀ row ∈ c.store.data.rows, c.store.now + wait < row.2.2 →
        row ∈ ((c.store.tick wait).load id).1.data.rows := by
    unfold Memory.load
    cases hget : (c.store.tick wait).data.get? id with
    | none => exact ⟨rfl, List.Sublist.refl _, fun row hrow _ => hrow⟩
    | some entry =>
      obtain ⟨data, expiresAt⟩ := entry
      dsimp only
      by_cases hlate : expiresAt ≤ (c.store.tick wait).now
      · rw [if_pos hlate]
        refine ⟨rfl, List.filter_sublist, fun row hrow hlive => List.mem_filter.mpr ⟨hrow, ?_⟩⟩
        rw [decide_eq_true_iff]
        rintro rfl
        have hrow' : (c.store.tick wait).data.get? row.1 = some row.2 := Table.get?_eq_some_iff.mpr hrow
        rw [hget] at hrow'
        rw [← Option.some.inj hrow'] at hlive
        exact absurd hlive (not_lt.mpr hlate)
      · rw [if_neg hlate]
        exact ⟨rfl, List.Sublist.refl _, fun row hrow _ => hrow⟩
  obtain ⟨hnow, hsub, hkept⟩ := hrows
  have hevicted : evictedBy (c.store.tick wait) (.load id) ((c.store.tick wait).load id).1 = [] :=
    evictedBy_eq_nil fun row hrow hlive _ => hkept row hrow hlive
  refine ⟨?_, hevicted⟩
  have hfollows := h.of_sublist wait ⟨(c.store.tick wait).now, .load id, []⟩ hsub nofun rfl
    (fun _ _ => rfl) fun row hrow hlive _ => hkept row hrow hlive
  rw [← hnow] at hfollows
  unfold step
  dsimp only [Memory.perform]
  rw [hevicted]
  exact hfollows

theorem Follows.delete (h : c.Follows maxSessions) (wait : ℚ≥0) (id : String) :
    (c.step maxSessions (wait, .delete id)).Follows maxSessions ∧
      evictedBy (c.store.tick wait) (.delete id) ((c.store.tick wait).delete id) = [] := by
  have hkept : ∀ row ∈ c.store.data.rows, c.store.now + wait < row.2.2 →
      (StoreCall.delete id : StoreCall V).deletes row.1 = false → row ∈ (c.store.data.delete id).rows := by
    intro row hrow _ hdel
    refine List.mem_filter.mpr ⟨hrow, decide_eq_true fun heq => ?_⟩
    simp [StoreCall.deletes, heq] at hdel
  have hevicted : evictedBy (c.store.tick wait) (.delete id) ((c.store.tick wait).delete id) = [] :=
    evictedBy_eq_nil hkept
  refine ⟨?_, hevicted⟩
  have hsub : (c.store.data.delete id).rows.Sublist c.store.data.rows := List.filter_sublist
  have hfollows := h.of_sublist wait ⟨(c.store.tick wait).now, .delete id, []⟩ hsub nofun rfl (fun row hrow => ?_) hkept
  · unfold step
    dsimp only [Memory.perform]
    rw [hevicted]
    exact hfollows
  · have hne : row.1 ≠ id := by simpa using (List.mem_filter.mp hrow).2
    simp [StoreCall.deletes, hne.symm]

/-- The history after a save of an id that evicts `gone`. -/
theorem lastSave_save {time : ℚ} {id : String} {data : Dict V} {maxAge : ℕ} {lag : ℚ≥0} {gone : List String}
    {past : List (Past V)} (hid : id ∉ gone) (id' : String) :
    lastSave id' (⟨time, .save id data maxAge lag, gone⟩ :: past) =
      if id' = id then some (data, time + lag + maxAge) else if id' ∈ gone then none else lastSave id' past := by
  rw [lastSave]
  by_cases heq : id' = id
  · subst heq
    simp [hid]
  · simp [heq, Ne.symm heq]

theorem since_save {time : ℚ} {id : String} {data : Dict V} {maxAge : ℕ} {lag : ℚ≥0} {gone : List String}
    {past : List (Past V)} (id' : String) : since id' (⟨time, .save id data maxAge lag, gone⟩ :: past) =
      if id' = id ∧ ¬ Held past time id' then past.length else since id' past := by
  rw [since]
  simp only [eq_comm]

/-- A save of an id that is held, unexpired, changes its row in place. -/
theorem Follows.save_held (h : c.Follows maxSessions) {id : String} (data : Dict V) (maxAge : ℕ) (lag : ℚ≥0)
    (hheld : Held c.past (c.store.tick wait).now id) :
    (c.step maxSessions (wait, .save id data maxAge lag)).Follows maxSessions ∧
      evictedBy (c.store.tick wait) (.save id data maxAge lag)
        ((c.store.tick wait).saveSlowly maxSessions id data maxAge lag) = [] := by
  let before := c.store.tick wait
  let entry : Dict V × ℚ := (data, before.now + lag + maxAge)
  let put := fun row : String × Dict V × ℚ => if row.1 = id then (row.1, entry) else row
  have hmem : id ∈ before.evictExpired.rows.map Prod.fst := h.held_iff.mp hheld
  have hrows : (before.saveSlowly maxSessions id data maxAge lag).data.rows = before.evictExpired.rows.map put := by
    have hroom : (Memory.makeRoom maxSessions id before.evictExpired).rows = before.evictExpired.rows :=
      dropOldest_of_mem hmem
    obtain ⟨row, hrow, rfl⟩ := List.mem_map.mp hmem
    rw [← hroom] at hrow
    have hget := Table.get?_eq_some_iff.mpr hrow
    rw [← hroom]
    exact Table.rows_upsert_of_some hget _ _
  have hfst : ∀ row, (put row).1 = row.1 := fun row => by
    show (if row.1 = id then (row.1, entry) else row).1 = row.1
    split_ifs <;> rfl
  have hkeys : (before.saveSlowly maxSessions id data maxAge lag).data.rows.map Prod.fst =
      before.evictExpired.rows.map Prod.fst := by
    rw [hrows, List.map_map]
    exact List.map_congr_left fun row _ => hfst row
  have hevicted : evictedBy before (.save id data maxAge lag)
      (before.saveSlowly maxSessions id data maxAge lag) = [] := by
    unfold evictedBy
    rw [hkeys, List.filter_eq_nil_iff]
    intro id' hid' hgone
    exact (of_decide_eq_true hgone).1 hid'
  refine ⟨?_, hevicted⟩
  have hstep : c.step maxSessions (wait, .save id data maxAge lag) =
      ⟨before.saveSlowly maxSessions id data maxAge lag, ⟨before.now, .save id data maxAge lag, []⟩ :: c.past⟩ := by
    rw [← hevicted]
    rfl
  have hsub : before.evictExpired.rows.Sublist c.store.data.rows := List.filter_sublist
  have hsince : ∀ id', since id' (⟨before.now, .save id data maxAge lag, []⟩ :: c.past) = since id' c.past := by
    intro id'
    rw [since_save, if_neg]
    rintro ⟨rfl, hnot⟩
    exact hnot hheld
  rw [hstep]
  refine ⟨fun row hrow => ?_, fun id' entry' hentry hlive => ?_, ?_, fun row hrow => ?_, ?_⟩
  · dsimp only at hrow ⊢
    rw [hrows] at hrow
    obtain ⟨old, hold, rfl⟩ := List.mem_map.mp hrow
    rw [lastSave_save List.not_mem_nil, hfst]
    by_cases heq : old.1 = id
    · rw [if_pos heq]
      simp [put, heq, entry]
    · rw [if_neg heq, if_neg List.not_mem_nil, h.said old (hsub.subset hold)]
      simp [put, heq]
  · dsimp only at hentry hlive ⊢
    rw [lastSave_save List.not_mem_nil] at hentry
    rw [hrows]
    by_cases heq : id' = id
    · rw [if_pos heq] at hentry
      obtain ⟨row, hrow, hid⟩ := List.mem_map.mp hmem
      refine List.mem_map.mpr ⟨row, hrow, ?_⟩
      show (if row.1 = id then (row.1, entry) else row) = (id', entry')
      rw [if_pos hid, hid, heq, ← Option.some.inj hentry]
    · rw [if_neg heq, if_neg List.not_mem_nil] at hentry
      have hlater : before.now < entry'.2 := lt_of_le_of_lt (le_add_of_nonneg_right lag.2) hlive
      have hnow : c.store.now < entry'.2 := lt_of_le_of_lt (le_add_of_nonneg_right wait.2) hlater
      refine List.mem_map.mpr ⟨(id', entry'), mem_evictExpired.mpr ⟨h.kept id' entry' hentry hnow, hlater⟩, ?_⟩
      exact if_neg heq
  · dsimp only
    rw [hrows, List.pairwise_map]
    simp only [hfst, hsince]
    exact h.order.sublist hsub
  · dsimp only at hrow ⊢
    rw [hrows] at hrow
    obtain ⟨old, hold, rfl⟩ := List.mem_map.mp hrow
    rw [hsince, hfst]
    exact (h.earlier old (hsub.subset hold)).trans (Nat.lt_succ_self _)
  · dsimp only
    rw [hrows, List.length_map]
    exact hsub.length_le.trans h.bounded

/-- A save of a new id puts its row at the end; the oldest session goes when there are as many as may be. -/
theorem Follows.save_new (h : c.Follows maxSessions) (hmax : 1 ≤ maxSessions) {id : String} (data : Dict V) (maxAge : ℕ)
    (lag : ℚ≥0) (hheld : ¬ Held c.past (c.store.tick wait).now id) :
    (c.step maxSessions (wait, .save id data maxAge lag)).Follows maxSessions ∧
      (evictedBy (c.store.tick wait) (.save id data maxAge lag)
        ((c.store.tick wait).saveSlowly maxSessions id data maxAge lag) ≠ [] →
      ∃ row rest, (c.store.tick wait).evictExpired.rows = row :: rest ∧
        (c.store.tick wait).evictExpired.rows.length = maxSessions ∧
        evictedBy (c.store.tick wait) (.save id data maxAge lag)
          ((c.store.tick wait).saveSlowly maxSessions id data maxAge lag) = [row.1]) := by
  let before := c.store.tick wait
  let entry : Dict V × ℚ := (data, before.now + lag + maxAge)
  let room := Memory.makeRoom maxSessions id before.evictExpired
  let later := before.saveSlowly maxSessions id data maxAge lag
  have hmem : id ∉ before.evictExpired.rows.map Prod.fst := fun hm => hheld (h.held_iff.mpr hm)
  have hsub : before.evictExpired.rows.Sublist c.store.data.rows := List.filter_sublist
  have hroom : room.rows.Sublist before.evictExpired.rows := Memory.dropOldest_sublist ..
  have hnew : id ∉ room.rows.map Prod.fst := fun hm => hmem ((hroom.map Prod.fst).subset hm)
  have hrows : later.data.rows = room.rows ++ [(id, entry)] :=
    Table.rows_upsert_of_none (Table.lookup_eq_none_iff.mpr hnew) _ _
  have hkeys : ∀ id', id' ∈ later.data.rows.map Prod.fst ↔ id' ∈ room.rows.map Prod.fst ∨ id' = id := by
    intro id'
    rw [hrows, List.map_append, List.mem_append, List.map_singleton, List.mem_singleton]
  let gone := evictedBy before (.save id data maxAge lag) later
  have hgone : ∀ id', id' ∈ gone ↔ id' ∈ before.evictExpired.rows.map Prod.fst ∧ id' ∉ later.data.rows.map Prod.fst := by
    intro id'
    show id' ∈ List.filter _ _ ↔ _
    rw [List.mem_filter, decide_eq_true_iff]
    simp [StoreCall.deletes]
  have hid : id ∉ gone := fun hm => hmem ((hgone id).mp hm).1
  have hstays : ∀ row ∈ room.rows, row.1 ∉ gone := fun row hrow hm =>
    ((hgone row.1).mp hm).2 ((hkeys row.1).mpr (.inl (List.mem_map_of_mem hrow)))
  have hgoes : ∀ row ∈ before.evictExpired.rows, row.1 ∉ gone → row ∈ room.rows := by
    intro row hrow hm
    have hthere : row.1 ∈ later.data.rows.map Prod.fst := by
      by_contra hno
      exact hm ((hgone row.1).mpr ⟨List.mem_map_of_mem hrow, hno⟩)
    rcases (hkeys row.1).mp hthere with hin | heq
    · obtain ⟨row', hrow', hfst⟩ := List.mem_map.mp hin
      have hget := Table.get?_eq_some_iff.mpr (hroom.subset hrow')
      rw [hfst, Table.get?_eq_some_iff.mpr hrow] at hget
      rw [show row = row' from Prod.ext hfst.symm (Option.some.inj hget)]
      exact hrow'
    · exact (hmem (heq ▸ List.mem_map_of_mem hrow)).elim
  have hcases := dropOldest_of_notMem hmax hmem (hsub.length_le.trans h.bounded)
  have hlast : ∀ id', lastSave id' (⟨before.now, .save id data maxAge lag, gone⟩ :: c.past) =
      if id' = id then some entry else if id' ∈ gone then none else lastSave id' c.past := lastSave_save hid
  have hsince : ∀ id', since id' (⟨before.now, .save id data maxAge lag, gone⟩ :: c.past) =
      if id' = id then c.past.length else since id' c.past := by
    intro id'
    rw [since_save]
    by_cases heq : id' = id
    · rw [if_pos heq, if_pos ⟨heq, heq ▸ hheld⟩]
    · rw [if_neg heq, if_neg fun hboth => heq hboth.1]
  have hne : ∀ row ∈ room.rows, row.1 ≠ id := fun row hrow heq => hnew (heq ▸ List.mem_map_of_mem hrow)
  refine ⟨⟨fun row hrow => ?_, fun id' entry' hentry hlive => ?_, ?_, fun row hrow => ?_, ?_⟩, fun hsome => ?_⟩
  · have hrow : row ∈ room.rows ++ [(id, entry)] := hrows ▸ hrow
    refine (hlast row.1).trans ?_
    rcases List.mem_append.mp hrow with hin | hin
    · rw [if_neg (hne row hin), if_neg (hstays row hin)]
      exact h.said row (hsub.subset (hroom.subset hin))
    · rw [List.mem_singleton.mp hin, if_pos rfl]
  · show (id', entry') ∈ later.data.rows
    rw [hrows, List.mem_append]
    have hentry := (hlast id').symm.trans hentry
    by_cases heq : id' = id
    · rw [if_pos heq] at hentry
      rw [heq, ← Option.some.inj hentry]
      exact .inr (List.mem_singleton_self _)
    · rw [if_neg heq] at hentry
      split_ifs at hentry with hin
      have hlater : before.now < entry'.2 := lt_of_le_of_lt (le_add_of_nonneg_right lag.2) hlive
      have hnow : c.store.now < entry'.2 := lt_of_le_of_lt (le_add_of_nonneg_right wait.2) hlater
      exact .inl (hgoes _ (mem_evictExpired.mpr ⟨h.kept id' entry' hentry hnow, hlater⟩) hin)
  · show List.Pairwise (fun a b => since a.1 (⟨before.now, .save id data maxAge lag, gone⟩ :: c.past) <
      since b.1 (⟨before.now, .save id data maxAge lag, gone⟩ :: c.past)) later.data.rows
    rw [hrows, List.pairwise_append]
    refine ⟨?_, List.pairwise_singleton _ _, fun row hrow row' hrow' => ?_⟩
    · refine ((h.order.sublist hsub).sublist hroom).imp_of_mem fun hrow hrow' hlt => ?_
      rw [hsince, hsince, if_neg (hne _ hrow), if_neg (hne _ hrow')]
      exact hlt
    · rw [List.mem_singleton.mp hrow', hsince, hsince, if_neg (hne row hrow), if_pos rfl]
      exact h.earlier row (hsub.subset (hroom.subset hrow))
  · have hrow : row ∈ room.rows ++ [(id, entry)] := hrows ▸ hrow
    refine (hsince row.1).trans_lt ?_
    rcases List.mem_append.mp hrow with hin | hin
    · rw [if_neg (hne row hin)]
      exact (h.earlier row (hsub.subset (hroom.subset hin))).trans (Nat.lt_succ_self _)
    · rw [List.mem_singleton.mp hin, if_pos rfl]
      exact Nat.lt_succ_self _
  · show later.data.rows.length ≤ maxSessions
    rw [hrows, List.length_append, List.length_singleton]
    rcases hcases with ⟨hlt, hdrop⟩ | ⟨row, rest, hcons, hfull, hdrop⟩
    · have hlen : room.rows.length = before.evictExpired.rows.length := congrArg List.length hdrop
      omega
    · have hlen : room.rows.length = rest.length := congrArg List.length hdrop
      rw [hcons, List.length_cons] at hfull
      omega
  · rcases hcases with ⟨-, hdrop⟩ | ⟨row, rest, hcons, hfull, hdrop⟩
    · refine (hsome (List.eq_nil_iff_forall_not_mem.mpr fun id' hin => ?_)).elim
      obtain ⟨row, hrow, rfl⟩ := List.mem_map.mp ((hgone id').mp hin).1
      have hall : room.rows = before.evictExpired.rows := hdrop
      exact hstays row (hall ▸ hrow) hin
    · refine ⟨row, rest, hcons, hfull, ?_⟩
      have hnodup := before.evictExpired.nodup
      rw [hcons, List.map_cons, List.nodup_cons] at hnodup
      have hrest : room.rows = rest := hdrop
      show List.filter _ (before.evictExpired.rows.map Prod.fst) = [row.1]
      rw [hcons, List.map_cons, List.filter_cons_of_pos, List.filter_eq_nil_iff.mpr]
      · intro id' hin hcond
        exact (of_decide_eq_true hcond).1 ((hkeys id').mpr (.inl (hrest ▸ hin)))
      · refine decide_eq_true ⟨fun hin => ?_, rfl⟩
        rcases (hkeys row.1).mp hin with hin | heq
        · exact hnodup.1 (hrest ▸ hin)
        · exact hmem (heq ▸ hcons ▸ List.mem_map_of_mem (List.mem_cons_self ..))

theorem follows_start (maxSessions : ℕ) (start : ℚ) :
    (⟨⟨.empty, start⟩, []⟩ : Chronicle V).Follows maxSessions :=
  ⟨nofun, nofun, List.Pairwise.nil, nofun, Nat.zero_le _⟩

/-- What a call does: the store follows its history, and what was evicted was to be evicted. -/
theorem Follows.step (h : c.Follows maxSessions) (hmax : 1 ≤ maxSessions) (wait : ℚ≥0) (call : StoreCall V) :
    (c.step maxSessions (wait, call)).Follows maxSessions ∧
      ∀ p, (c.step maxSessions (wait, call)).past = p :: c.past → p.evicted ≠ [] → Evicts maxSessions p c.past := by
  have hp : ∀ p, (c.step maxSessions (wait, call)).past = p :: c.past →
      p = ⟨(c.store.tick wait).now, call, evictedBy (c.store.tick wait) call
        ((c.store.tick wait).perform maxSessions call)⟩ := fun p heq => (List.cons.inj heq).1.symm
  cases call with
  | load id =>
    obtain ⟨hfollows, hnil⟩ := h.load wait id
    exact ⟨hfollows, fun p heq hsome => by rw [hp p heq] at hsome; exact (hsome hnil).elim⟩
  | delete id =>
    obtain ⟨hfollows, hnil⟩ := h.delete wait id
    exact ⟨hfollows, fun p heq hsome => by rw [hp p heq] at hsome; exact (hsome hnil).elim⟩
  | save id data maxAge lag =>
    by_cases hheld : Held c.past (c.store.tick wait).now id
    · obtain ⟨hfollows, hnil⟩ := h.save_held data maxAge lag hheld
      exact ⟨hfollows, fun p heq hsome => by rw [hp p heq] at hsome; exact (hsome hnil).elim⟩
    · obtain ⟨hfollows, hevicts⟩ := h.save_new hmax data maxAge lag hheld
      refine ⟨hfollows, fun p heq hsome => ?_⟩
      rw [hp p heq] at hsome ⊢
      obtain ⟨row, rest, hcons, hfull, hgone⟩ := hevicts hsome
      have horder : (row :: rest).Pairwise fun a b => since a.1 c.past < since b.1 c.past :=
        hcons ▸ h.order.sublist List.filter_sublist
      refine ⟨⟨id, data, maxAge, lag, rfl, hheld⟩, ⟨(c.store.tick wait).evictExpired.rows.map Prod.fst,
        (c.store.tick wait).evictExpired.nodup, (List.length_map ..).trans hfull, fun _ => h.held_iff.symm⟩,
        row.1, hgone, h.held_iff.mpr ?_, fun id' hid' hne => ?_⟩
      · rw [hcons]
        exact List.mem_map_of_mem (List.mem_cons_self ..)
      · have hmem := h.held_iff.mp hid'
        rw [hcons] at hmem
        obtain ⟨row', hrow', rfl⟩ := List.mem_map.mp hmem
        rcases List.mem_cons.mp hrow' with rfl | hrest
        · exact (hne rfl).elim
        · exact List.rel_of_pairwise_cons horder hrest

/-- The store follows its history, and so does what it evicted, in every run. -/
theorem follows_run (hmax : 1 ≤ maxSessions) (start : ℚ) (calls : List (ℚ≥0 × StoreCall V)) :
    (run maxSessions start calls).Follows maxSessions ∧ ∀ newer p older,
      (run maxSessions start calls).past = newer ++ p :: older → p.evicted ≠ [] → Evicts maxSessions p older := by
  induction calls using List.reverseRecOn with
  | nil => exact ⟨follows_start maxSessions start, fun newer p older h => by simp [run] at h⟩
  | append_singleton calls x ih =>
    obtain ⟨hfollows, hevictions⟩ := ih
    have hrun : run maxSessions start (calls ++ [x]) = (run maxSessions start calls).step maxSessions x := after_concat x
    obtain ⟨hstep, hlast⟩ := hfollows.step hmax x.1 x.2
    rw [hrun]
    refine ⟨hstep, fun newer p older hpast hsome => ?_⟩
    cases newer with
    | nil =>
      obtain ⟨rfl, rfl⟩ := List.cons.inj hpast
      exact hlast _ rfl hsome
    | cons p' newer => exact hevictions newer p older (List.cons.inj hpast).2 hsome

/-- What a store that follows its history answers. -/
theorem Follows.answers (h : c.Follows maxSessions) (id : String) : ((c.store.tick wait).load id).2 =
    ((lastSave id c.past).filter fun entry => (c.store.tick wait).now < entry.2).map Prod.fst := by
  rw [Memory.load_snd]
  congr 1
  ext entry
  rw [Option.filter_eq_some_iff, Option.filter_eq_some_iff, decide_eq_true_iff]
  refine and_congr_left fun hlive => ⟨fun hget => ?_, fun hlast => ?_⟩
  · exact h.said (id, entry) (Table.get?_eq_some_iff.mp hget)
  · exact Table.get?_eq_some_iff.mpr
      (h.kept id entry hlast (lt_of_le_of_lt (le_add_of_nonneg_right wait.2) hlive))

/-- Room for one session: the second one takes the place of the first. -/
def twoSaves : List (ℚ≥0 × StoreCall String) := [(0, .save "a" ⟨[]⟩ 10 0), (1, .save "b" ⟨[]⟩ 10 0)]

end Chronicle

end Xyberos.Http
