import Xyberos.Base.Run
import Xyberos.Base.Table
import Xyberos.Python
import Mathlib.Algebra.GroupWithZero.Nat
import Mathlib.Data.Finset.Card
import Mathlib.Data.List.Sort

/-!
# Xyberos.Http.Metrics — counting requests by route and status

A new pair of a route and a status is counted under `OTHER_ROUTE` once as many names are held as may be.  It is the pair
that is new, not the route: a route that has been counted under its own name is not any more when a request of it ends in
a status it never ended in.  `Attributed` is what the counters are to say about the requests that were recorded, and
`attributed_iff` the runs in which they do.
-/

set_option autoImplicit false

namespace Xyberos.Http

/-- `OTHER_ROUTE` -/
def otherRoute : String := "<other>"

/-- `RequestCount` -/
structure RequestCount where
  route : String
  status : ℤ
  count : ℕ
deriving DecidableEq, Repr

/-- `RequestMetrics`, without its ceiling. -/
structure RequestMetrics where
  counts : Table (String × ℤ) ℕ

namespace RequestMetrics

variable (maxRoutes : ℕ) (m : RequestMetrics)

/-- The route names that are held. -/
def names : Finset String := (m.counts.rows.map fun row => row.1.1).toFinset

/-- The key under which a request is counted. -/
def keyFor (route : String) (status : ℤ) : String × ℤ :=
  if (m.counts.get? (route, status)).isNone ∧ maxRoutes ≤ m.names.card then (otherRoute, status) else (route, status)

def record (route : String) (status : ℤ) : RequestMetrics :=
  ⟨m.counts.upsert (m.keyFor maxRoutes route status) 1 (· + 1)⟩

def countFor (route : String) (status : ℤ) : ℕ := (m.counts.get? (route, status)).getD 0

def snapshot : List RequestCount :=
  (m.counts.rows.insertionSort fun a b => a.1.1 < b.1.1 ∨ a.1.1 = b.1.1 ∧ a.1.2 ≤ b.1.2).map fun row =>
    ⟨row.1.1, row.1.2, row.2⟩

/-- The counters of a name together. -/
def countOf (name : String) : ℕ := ((m.snapshot.filter fun c => c.route = name).map RequestCount.count).sum

end RequestMetrics

/-! ## Requests that were recorded -/

/-- A request that was recorded, and the name under which it was counted. -/
structure Counted where
  route : String
  status : ℤ
  name : String

/-- The counters, with the requests that were recorded, the last one first. -/
structure Tally where
  metrics : RequestMetrics
  past : List Counted

namespace Tally

variable (maxRoutes : ℕ)

def start : Tally := ⟨⟨.empty⟩, []⟩

def step (t : Tally) (request : String × ℤ) : Tally where
  metrics := t.metrics.record maxRoutes request.1 request.2
  past := ⟨request.1, request.2, (t.metrics.keyFor maxRoutes request.1 request.2).1⟩ :: t.past

end Tally

/-- The requests of a route since it was first counted under its own name, if it was. -/
def sinceAdmission (route : String) : List Counted → Option ℕ
  | [] => none
  | p :: older =>
    match sinceAdmission route older with
    | some n => some (if p.route = route then n + 1 else n)
    | none => if p.route = route ∧ p.name = route then some 1 else none

/-- Every request of a route that had been counted under its own name is counted under that name. -/
def Loyal : List Counted → Prop
  | [] => True
  | p :: older => Loyal older ∧ ((sinceAdmission p.route older).isSome → p.name = p.route)

/-- What the counters are to say about the requests that were recorded. -/
structure Tally.Attributed (maxRoutes : ℕ) (t : Tally) : Prop where
  total : (t.metrics.snapshot.map RequestCount.count).sum = t.past.length
  names : (t.metrics.snapshot.map RequestCount.route).toFinset.card ≤ maxRoutes + 1
  loyal : Loyal t.past
  admitted : ∀ route n, sinceAdmission route t.past = some n → t.metrics.countOf route = n

/-- A request is counted under another name than its route's. -/
def RequestMetrics.Folds (maxRoutes : ℕ) (m : RequestMetrics) (request : String × ℤ) : Prop :=
  m.counts.get? request = none ∧ maxRoutes ≤ m.names.card ∧ request.1 ≠ otherRoute

/-- A request is folded only if neither its route nor `OTHER_ROUTE` has been counted under its own name; and one of
`OTHER_ROUTE` itself comes only where none has been folded. -/
def Tally.Attributable (maxRoutes : ℕ) (t : Tally) (request : String × ℤ) : Prop :=
  (t.metrics.Folds maxRoutes request →
    sinceAdmission request.1 t.past = none ∧ sinceAdmission otherRoute t.past = none) ∧
  (request.1 = otherRoute → ∀ p ∈ t.past, p.name = p.route)

/-! ## Counting -/

section Sums

variable {κ : Type}

/-- The counts of the keys that meet a condition. -/
def sumOf (rows : List (κ × ℕ)) (q : κ → Bool) : ℕ := ((rows.filter fun row => q row.1).map Prod.snd).sum

theorem sumOf_cons (row : κ × ℕ) (rows : List (κ × ℕ)) (q : κ → Bool) :
    sumOf (row :: rows) q = (if q row.1 then row.2 else 0) + sumOf rows q := by
  unfold sumOf
  rw [List.filter_cons]
  by_cases hq : q row.1 = true
  · rw [if_pos hq, if_pos hq, List.map_cons, List.sum_cons]
  · rw [if_neg hq, if_neg hq, Nat.zero_add]

theorem sumOf_concat (row : κ × ℕ) (rows : List (κ × ℕ)) (q : κ → Bool) :
    sumOf (rows ++ [row]) q = sumOf rows q + if q row.1 then row.2 else 0 := by
  induction rows with
  | nil =>
    rw [List.nil_append, sumOf_cons]
    exact Nat.add_comm ..
  | cons row' rows ih => rw [List.cons_append, sumOf_cons, ih, sumOf_cons, Nat.add_assoc]

variable [DecidableEq κ]

theorem sumOf_modified {rows : List (κ × ℕ)} (hn : (rows.map Prod.fst).Nodup) {k : κ} (hk : k ∈ rows.map Prod.fst)
    (q : κ → Bool) : sumOf (rows.map fun x => if x.1 = k then (x.1, x.2 + 1) else x) q =
      sumOf rows q + if q k then 1 else 0 := by
  induction rows with
  | nil => cases hk
  | cons row rows ih =>
    obtain ⟨hrow, hrows⟩ := List.nodup_cons.mp hn
    rw [List.map_cons, sumOf_cons, sumOf_cons]
    by_cases heq : row.1 = k
    · have hsame : (rows.map fun x => if x.1 = k then (x.1, x.2 + 1) else x) = rows := by
        conv_rhs => rw [← List.map_id rows]
        refine List.map_congr_left fun x hx => if_neg fun hx' => hrow ?_
        rw [heq, ← hx']
        exact List.mem_map_of_mem hx
      rw [hsame, if_pos heq, heq]
      by_cases hq : q k = true
      · rw [if_pos hq, if_pos hq, if_pos hq]
        omega
      · rw [if_neg hq, if_neg hq, if_neg hq, Nat.add_zero]
    · have hk' : k ∈ rows.map Prod.fst := (List.mem_cons.mp hk).resolve_left fun h => heq h.symm
      rw [if_neg heq, ih hrows hk', Nat.add_assoc]

/-- One more is counted. -/
theorem sumOf_upsert (t : Table κ ℕ) (k : κ) (q : κ → Bool) :
    sumOf (t.upsert k 1 (· + 1)).rows q = sumOf t.rows q + if q k then 1 else 0 := by
  cases hget : t.get? k with
  | some n =>
    rw [Table.rows_upsert_of_some hget]
    exact sumOf_modified t.nodup (List.mem_map_of_mem (Table.get?_eq_some_iff.mp hget)) q
  | none =>
    rw [Table.rows_upsert_of_none hget]
    exact sumOf_concat ..

end Sums

namespace RequestMetrics

variable {maxRoutes : ℕ} {m : RequestMetrics}

theorem perm_snapshot (m : RequestMetrics) :
    m.snapshot.Perm (m.counts.rows.map fun row => ⟨row.1.1, row.1.2, row.2⟩) :=
  (List.perm_insertionSort ..).map _

/-- The snapshot has the counters. -/
theorem sum_snapshot (m : RequestMetrics) (q : String → Bool) :
    ((m.snapshot.filter fun c => q c.route).map RequestCount.count).sum = sumOf m.counts.rows fun key => q key.1 := by
  rw [((m.perm_snapshot.filter _).map _).sum_eq, List.filter_map, List.map_map]
  rfl

theorem names_snapshot (m : RequestMetrics) : (m.snapshot.map RequestCount.route).toFinset = m.names := by
  rw [List.toFinset_eq_of_perm _ _ (m.perm_snapshot.map _), List.map_map]
  rfl

theorem countOf_eq (m : RequestMetrics) (name : String) : m.countOf name = sumOf m.counts.rows fun key => key.1 = name :=
  m.sum_snapshot fun route => route = name

theorem total_eq (m : RequestMetrics) : (m.snapshot.map RequestCount.count).sum = sumOf m.counts.rows fun _ => true := by
  rw [← m.sum_snapshot fun _ => true, List.filter_true]

theorem names_record (route : String) (status : ℤ) :
    (m.record maxRoutes route status).names = insert (m.keyFor maxRoutes route status).1 m.names := by
  unfold names record
  cases hget : m.counts.get? (m.keyFor maxRoutes route status) with
  | some n =>
    have hmem := List.mem_map_of_mem (f := fun row : (String × ℤ) × ℕ => row.1.1) (Table.get?_eq_some_iff.mp hget)
    rw [Table.rows_upsert_of_some hget, List.map_map, Finset.insert_eq_of_mem (List.mem_toFinset.mpr hmem)]
    congr 1
    refine List.map_congr_left fun row _ => ?_
    show (if row.1 = _ then (row.1, row.2 + 1) else row).1.1 = row.1.1
    split_ifs <;> rfl
  | none =>
    rw [Table.rows_upsert_of_none hget]
    rw [List.map_append, List.toFinset_append, Finset.union_comm, Finset.insert_eq]
    rfl

/-- A request is counted under its route, or it is folded. -/
theorem keyFor_fst (m : RequestMetrics) (maxRoutes : ℕ) (route : String) (status : ℤ) : (m.keyFor maxRoutes route status).1 = route ∧
      ¬ m.Folds maxRoutes (route, status) ∨
    (m.keyFor maxRoutes route status).1 = otherRoute ∧ m.Folds maxRoutes (route, status) := by
  unfold keyFor Folds
  by_cases hcond : (m.counts.get? (route, status)).isNone ∧ maxRoutes ≤ m.names.card
  · rw [if_pos hcond]
    by_cases hother : route = otherRoute
    · exact .inl ⟨hother.symm, fun h => h.2.2 hother⟩
    · exact .inr ⟨rfl, Option.isNone_iff_eq_none.mp hcond.1, hcond.2, hother⟩
  · rw [if_neg hcond]
    exact .inl ⟨rfl, fun h => hcond ⟨Option.isNone_iff_eq_none.mpr h.1, h.2.1⟩⟩

/-- No more names are held than may be, with `OTHER_ROUTE` beside them. -/
theorem card_record (h : (m.names.erase otherRoute).card ≤ maxRoutes) (route : String) (status : ℤ) :
    ((m.record maxRoutes route status).names.erase otherRoute).card ≤ maxRoutes := by
  rw [names_record]
  rcases m.keyFor_fst maxRoutes route status with ⟨hname, hnot⟩ | ⟨hname, -⟩
  · rw [hname]
    by_cases hmem : route ∈ m.names
    · rw [Finset.insert_eq_of_mem hmem]
      exact h
    by_cases hother : route = otherRoute
    · rw [hother, Finset.erase_insert_eq_erase]
      exact h
    · have hnone : m.counts.get? (route, status) = none := by
        cases hget : m.counts.get? (route, status) with
        | none => rfl
        | some n =>
          have hrow := Table.get?_eq_some_iff.mp hget
          exact (hmem (List.mem_toFinset.mpr (List.mem_map.mpr ⟨_, hrow, rfl⟩))).elim
      have hroom : m.names.card < maxRoutes := by
        by_contra hfull
        exact hnot ⟨hnone, not_lt.mp hfull, hother⟩
      calc ((insert route m.names).erase otherRoute).card
          ≤ (insert route m.names).card := Finset.card_erase_le
        _ ≤ m.names.card + 1 := Finset.card_insert_le ..
        _ ≤ maxRoutes := hroom
  · rw [hname, Finset.erase_insert_eq_erase]
    exact h

end RequestMetrics

/-! ## Runs -/

section Past

variable {route : String} {past : List Counted}

/-- A route is admitted when one of its requests was counted under its own name. -/
theorem sinceAdmission_eq_none_iff : sinceAdmission route past = none ↔ ∀ p ∈ past, p.route = route → p.name ≠ route := by
  induction past with
  | nil => simp [sinceAdmission]
  | cons p older ih =>
    rw [List.forall_mem_cons, ← ih, sinceAdmission]
    cases sinceAdmission route older with
    | some n => simp
    | none => simp

/-- More elements meet the weaker of two conditions when one meets it alone. -/
theorem countP_lt {α : Type} {l : List α} {q r : α → Bool} (h : ∀ x ∈ l, q x = true → r x = true) {x : α} (hx : x ∈ l)
    (hr : r x = true) (hq : ¬ q x = true) : l.countP q < l.countP r := by
  obtain ⟨pre, post, rfl⟩ := List.append_of_mem hx
  have hpre : pre.countP q ≤ pre.countP r :=
    List.countP_mono_left fun y hy => h y (List.mem_append_left _ hy)
  have hpost : post.countP q ≤ post.countP r :=
    List.countP_mono_left fun y hy => h y (List.mem_append_right _ (List.mem_cons_of_mem _ hy))
  rw [List.countP_append, List.countP_append, List.countP_cons_of_pos hr, List.countP_cons_of_neg hq]
  omega

/-- Not more requests of a route are counted since its admission than there were. -/
theorem sinceAdmission_le {n : ℕ} (h : sinceAdmission route past = some n) :
    n ≤ past.countP fun p => p.route = route := by
  induction past generalizing n with
  | nil => cases h
  | cons p older ih =>
    rw [sinceAdmission] at h
    rw [List.countP_cons]
    cases hs : sinceAdmission route older with
    | some k =>
      rw [hs] at h
      have hk := ih hs
      have hn : (if p.route = route then k + 1 else k) = n := Option.some.inj h
      by_cases hp : p.route = route
      · rw [if_pos hp] at hn
        simp only [hp, decide_true, if_true]
        omega
      · rw [if_neg hp] at hn
        simp only [hp, decide_false]
        omega
    | none =>
      rw [hs] at h
      dsimp only at h
      split_ifs at h with hp
      simp only [hp.1, decide_true, if_true]
      have hn : 1 = n := Option.some.inj h
      omega

end Past

/-- What the counters are in every run: one more for each request, under the name it was counted. -/
structure Tally.Counts (maxRoutes : ℕ) (t : Tally) : Prop where
  counted : ∀ name, t.metrics.countOf name = t.past.countP fun p => p.name = name
  total : (t.metrics.snapshot.map RequestCount.count).sum = t.past.length
  names : (t.metrics.names.erase otherRoute).card ≤ maxRoutes
  folded : ∀ p ∈ t.past, p.name = p.route ∨ p.name = otherRoute

namespace Tally

variable {maxRoutes : ℕ} {t : Tally}

theorem counts_start (maxRoutes : ℕ) : start.Counts maxRoutes :=
  ⟨fun _ => rfl, rfl, Nat.zero_le _, nofun⟩

theorem Counts.step (h : t.Counts maxRoutes) (request : String × ℤ) : (t.step maxRoutes request).Counts maxRoutes := by
  refine ⟨fun name => ?_, ?_, RequestMetrics.card_record h.names .., List.forall_mem_cons.mpr ⟨?_, h.folded⟩⟩
  · have hold := h.counted name
    rw [RequestMetrics.countOf_eq] at hold ⊢
    refine (sumOf_upsert ..).trans ?_
    rw [hold, Tally.step, List.countP_cons]
  · have hold := h.total
    rw [RequestMetrics.total_eq] at hold ⊢
    refine (sumOf_upsert ..).trans ?_
    rw [hold]
    rfl
  · rcases t.metrics.keyFor_fst maxRoutes request.1 request.2 with ⟨hname, -⟩ | ⟨hname, -⟩
    · exact .inl hname
    · exact .inr hname

/-- How many names the snapshot shows. -/
theorem Counts.card_le (h : t.Counts maxRoutes) :
    (t.metrics.snapshot.map RequestCount.route).toFinset.card ≤ maxRoutes + 1 := by
  rw [RequestMetrics.names_snapshot]
  have herase : t.metrics.names.card - 1 ≤ (t.metrics.names.erase otherRoute).card := Finset.pred_card_le_card_erase
  have hnames := h.names
  omega

/-- A request that is attributable leaves the counters of every admitted route right. -/
theorem Attributed.step (h : t.Attributed maxRoutes) (hc : t.Counts maxRoutes) {request : String × ℤ}
    (hcond : t.Attributable maxRoutes request) : (t.step maxRoutes request).Attributed maxRoutes := by
  have hstep := hc.step request
  have hname := t.metrics.keyFor_fst maxRoutes request.1 request.2
  refine ⟨hstep.total, hstep.card_le, ⟨h.loyal, fun hadmitted => ?_⟩, fun route n hn => ?_⟩
  · rcases hname with ⟨hown, -⟩ | ⟨-, hfolds⟩
    · exact hown
    · rw [(hcond.1 hfolds).1] at hadmitted
      cases hadmitted
  · have hcount : (t.step maxRoutes request).metrics.countOf route = t.metrics.countOf route +
        if (t.metrics.keyFor maxRoutes request.1 request.2).1 = route then 1 else 0 := by
      rw [hstep.counted, hc.counted]
      simp [Tally.step, List.countP_cons]
    rw [hcount]
    replace hn : (match sinceAdmission route t.past with
      | some n => some (if request.1 = route then n + 1 else n)
      | none => if request.1 = route ∧ (t.metrics.keyFor maxRoutes request.1 request.2).1 = route then some 1 else none) =
      some n := hn
    cases hs : sinceAdmission route t.past with
    | some k =>
      rw [hs] at hn
      have hn : (if request.1 = route then k + 1 else k) = n := Option.some.inj hn
      rw [h.admitted route k hs, ← hn]
      rcases hname with ⟨hown, -⟩ | ⟨hother, hfolds⟩
      · rw [hown]
        split_ifs <;> rfl
      · obtain ⟨hroute, hno⟩ := hcond.1 hfolds
        have hne : ¬ request.1 = route := fun heq => by
          rw [heq, hs] at hroute
          cases hroute
        have hne' : ¬ otherRoute = route := fun heq => by
          rw [heq, hs] at hno
          cases hno
        rw [hother, if_neg hne, if_neg hne', Nat.add_zero]
    | none =>
      rw [hs] at hn
      dsimp only at hn
      split_ifs at hn with hboth
      obtain ⟨hroute, hown⟩ := hboth
      have hzero : t.metrics.countOf route = 0 := by
        rw [hc.counted, List.countP_eq_zero]
        intro p hp heq
        have heq : p.name = route := of_decide_eq_true heq
        have hnever := sinceAdmission_eq_none_iff.mp hs p hp
        rcases hc.folded p hp with hsame | hother
        · exact hnever (hsame.symm.trans heq) heq
        · have hrequest : request.1 = otherRoute := hroute.trans (heq.symm.trans hother)
          exact hnever ((hcond.2 hrequest p hp).symm.trans heq) heq
      rw [hzero, if_pos hown, ← Option.some.inj hn]

/-- A request after which the counters are right was attributable. -/
theorem Attributed.attributable (h : t.Attributed maxRoutes) (hc : t.Counts maxRoutes) {request : String × ℤ}
    (hnext : (t.step maxRoutes request).Attributed maxRoutes) : t.Attributable maxRoutes request := by
  have hstep := hc.step request
  have hname := t.metrics.keyFor_fst maxRoutes request.1 request.2
  refine ⟨fun hfolds => ⟨?_, ?_⟩, fun hrequest p hp => ?_⟩
  · have hother : (t.metrics.keyFor maxRoutes request.1 request.2).1 = otherRoute :=
      hname.elim (fun h => (h.2 hfolds).elim) And.left
    by_contra hadmitted
    have hown : (t.metrics.keyFor maxRoutes request.1 request.2).1 = request.1 :=
      hnext.loyal.2 (Option.ne_none_iff_isSome.mp hadmitted)
    exact hfolds.2.2 (hown.symm.trans hother)
  · have hother : (t.metrics.keyFor maxRoutes request.1 request.2).1 = otherRoute :=
      hname.elim (fun h => (h.2 hfolds).elim) And.left
    cases hs : sinceAdmission otherRoute t.past with
    | none => rfl
    | some k =>
      have hs' : sinceAdmission otherRoute (t.step maxRoutes request).past = some k := by
        show (match sinceAdmission otherRoute t.past with
          | some n => some (if request.1 = otherRoute then n + 1 else n)
          | none => _) = _
        rw [hs]
        exact congrArg some (if_neg hfolds.2.2)
      have hbefore := h.admitted otherRoute k hs
      have hafter := hnext.admitted otherRoute k hs'
      rw [hc.counted] at hbefore
      rw [hstep.counted, Tally.step, List.countP_cons, hbefore] at hafter
      simp [hother] at hafter
  · by_contra hfolded
    have hown : (t.metrics.keyFor maxRoutes request.1 request.2).1 = request.1 :=
      hname.elim And.left fun h => (h.2.2.2 hrequest).elim
    cases hs : sinceAdmission otherRoute (t.step maxRoutes request).past with
    | none =>
      exact sinceAdmission_eq_none_iff.mp hs _ (List.mem_cons_self ..) hrequest (hown.trans hrequest)
    | some n =>
      have hle := sinceAdmission_le hs
      have hcount := hnext.admitted otherRoute n hs
      rw [hstep.counted] at hcount
      have hlt : (t.step maxRoutes request).past.countP (fun p => p.route = otherRoute) <
          (t.step maxRoutes request).past.countP fun p => p.name = otherRoute :=
        countP_lt (fun q hq hroute => decide_eq_true ((hstep.folded q hq).elim
          (fun hsame => hsame.trans (of_decide_eq_true hroute)) id)) (List.mem_cons_of_mem _ hp)
          (decide_eq_true ((hc.folded p hp).resolve_left hfolded)) fun hroute =>
            hfolded (((hc.folded p hp).resolve_left hfolded).trans (of_decide_eq_true hroute).symm)
      omega

/-- **The counters attribute** the requests of a run just when every request of it is attributable when it comes. -/
theorem attributed_iff (maxRoutes : ℕ) (requests : List (String × ℤ)) :
    Steps (step maxRoutes) (fun t request => (t.step maxRoutes request).Attributed maxRoutes) start requests ↔
      Steps (step maxRoutes) (Attributable maxRoutes) start requests :=
  steps_exact (I := Counts maxRoutes) (P := Attributed maxRoutes) (counts_start maxRoutes)
    ⟨rfl, Nat.zero_le _, trivial, nofun⟩ (fun _ request h => h.step request)
    fun _ _ hc h => ⟨h.attributable hc, h.step hc⟩

/-- Room for one name: the second request of `/a` is counted under `OTHER_ROUTE`, its status being new. -/
theorem not_attributed_newStatus : ¬ Steps (step 1) (fun t request => (t.step 1 request).Attributed 1) start
    [("/a", 200), ("/a", 404)] := by
  rintro ⟨-, h, -⟩
  exact absurd (h.loyal.2 (by decide +kernel)) (by decide +kernel)

end Tally

end Xyberos.Http
