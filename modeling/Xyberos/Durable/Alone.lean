import Xyberos.Durable.System

/-!
# Xyberos.Durable.Alone — a worker alone

`alone` is the world of one call of a worker on a journal that nobody else writes: one clock that never goes back, the
heartbeat of the call, and an environment that answers as it likes within `fair`.  While no step is running there is no
heartbeat, and a request finds the journal as the one before left it (`runs_call`, `runs_read`).
-/

set_option autoImplicit false

namespace Xyberos.Durable

open Proc (World Runs)

variable {V α : Type}

/-- The journal, the clock, and the heartbeat and the token of a call of a worker. -/
structure Desk (V : Type) where
  journal : Journal
  clock : Instant
  heartbeat : Option (Heartbeat V) := none
  token : Option String := none

namespace Desk

def record (s : Desk V) (id : String) : Record := s.journal.record id

/-- Some time later. -/
def wait (s : Desk V) (delay : ℕ) : Desk V := { s with clock := s.clock + delay }

/-- After a turn of the heartbeat. -/
def beat (store : JournalStore V) (ttl : Duration) (h : Heartbeat V) (s : Desk V) : Desk V :=
  let r := h.turn store ttl s.clock s.journal s.token
  { s with journal := r.1, heartbeat := some r.2.1, token := r.2.2 }

/-- After a call of the store. -/
def call (store : JournalStore V) (op : Op V) (s : Desk V) : Desk V :=
  { s with journal := Call.exec store s.journal ⟨op, s.clock⟩ }

/-- What goes on while the call is suspended. -/
inductive Passes (store : JournalStore V) (ttl : Duration) : Desk V → Desk V → Prop
  | wait (s : Desk V) (delay : ℕ) : Passes store ttl s (s.wait delay)
  | beat {s : Desk V} {h : Heartbeat V} (hh : s.heartbeat = some h) : Passes store ttl s (s.beat store ttl h)

@[simp] theorem wait_journal (s : Desk V) (delay : ℕ) : (s.wait delay).journal = s.journal := rfl

@[simp] theorem wait_clock (s : Desk V) (delay : ℕ) : (s.wait delay).clock = s.clock + delay := rfl

@[simp] theorem wait_heartbeat (s : Desk V) (delay : ℕ) : (s.wait delay).heartbeat = s.heartbeat := rfl

@[simp] theorem wait_token (s : Desk V) (delay : ℕ) : (s.wait delay).token = s.token := rfl

@[simp] theorem call_clock (store : JournalStore V) (op : Op V) (s : Desk V) : (s.call store op).clock = s.clock := rfl

@[simp] theorem call_heartbeat (store : JournalStore V) (op : Op V) (s : Desk V) :
    (s.call store op).heartbeat = s.heartbeat := rfl

theorem call_of_run {store : JournalStore V} {op : Op V} {s : Desk V} {a : op.Reply} {j : Journal}
    (h : (op.txn store s.clock).run s.journal = .ok (a, j)) : s.call store op = { s with journal := j } := by
  rw [call, Call.exec_of_run (x := ⟨op, s.clock⟩) h]

end Desk

/-- The world of a worker alone. -/
def alone (store : JournalStore V) (ttl : Duration) (fair : Env V → Prop) :
    World (Request V) Request.Reply Exc (Desk V) where
  interferes := Desk.Passes store ttl
  allows _ _ := True
  answers q s x s' := ∃ env, fair env ∧ s'.clock = s.clock ∧
    answer store s.clock env s.journal s.heartbeat s.token q = (x, s'.journal, s'.heartbeat, s'.token)

section Clock

variable {store : JournalStore V} {ttl : Duration} {fair : Env V → Prop} {s t : Desk V} {l : List (Request V × Desk V)}

theorem clock_le_of_later {s' : Desk V} (h : (alone store ttl fair).Later s s') : s.clock ≤ s'.clock := by
  induction h with
  | refl => exact le_refl _
  | tail _ hstep ih =>
    refine ih.trans ?_
    cases hstep with
    | wait delay => simp
    | beat hh => exact le_refl _

/-- The clock never goes back. -/
theorem clock_le_of_runs {p : Coroutine V α} {r : Except Exc α} (h : Runs (alone store ttl fair) p s l r t) :
    s.clock ≤ t.clock ∧ ∀ x ∈ l, s.clock ≤ x.2.clock ∧ x.2.clock ≤ t.clock := by
  induction h with
  | ret => exact ⟨le_refl _, by simp⟩
  | raise => exact ⟨le_refl _, by simp⟩
  | ask later answer rest ih =>
    obtain ⟨env, -, hclock, -⟩ := answer
    have hle := clock_le_of_later later
    rw [hclock] at ih
    refine ⟨hle.trans ih.1, List.forall_mem_cons.mpr ⟨⟨hle, ih.1⟩, fun x hx => ?_⟩⟩
    exact ⟨hle.trans (ih.2 x hx).1, (ih.2 x hx).2⟩

end Clock

section Idle

variable {store : JournalStore V} {ttl : Duration} {fair : Env V → Prop} {s t : Desk V} {l : List (Request V × Desk V)}

/-- Without a heartbeat only time passes. -/
theorem later_of_idle (hs : s.heartbeat = none) {s' : Desk V} (h : (alone store ttl fair).Later s s') :
    ∃ delay : ℕ, s' = s.wait delay := by
  induction h with
  | refl => exact ⟨0, by simp [Desk.wait]⟩
  | tail _ hstep ih =>
    obtain ⟨delay, rfl⟩ := ih
    cases hstep with
    | wait delay' =>
      refine ⟨delay + delay', ?_⟩
      simp [Desk.wait, add_assoc]
    | beat hh => cases hs.symm.trans hh

/-- A call of the store. -/
theorem runs_call (hs : s.heartbeat = none) {op : Op V} {r : Except Exc op.Reply}
    (h : Runs (alone store ttl fair) (call op) s l r t) : ∃ delay : ℕ, l = [(.store op, s.wait delay)] ∧
      r = ((op.txn store (s.clock + delay)).commit s.journal).1 ∧ t = (s.wait delay).call store op := by
  obtain ⟨s', hlater, rfl, env, -, hclock, hanswer⟩ := Proc.runs_request.mp h
  obtain ⟨delay, rfl⟩ := later_of_idle hs hlater
  obtain ⟨hr, hj, hh, ht⟩ : ((op.txn store (s.clock + delay)).commit s.journal).1 = r ∧
      ((op.txn store (s.clock + delay)).commit s.journal).2 = t.journal ∧ s.heartbeat = t.heartbeat ∧
      s.token = t.token := by simpa [answer] using hanswer
  refine ⟨delay, rfl, hr.symm, ?_⟩
  cases t
  simp_all [Desk.call, Desk.wait, Call.exec]

/-- A call of the store that reads. -/
theorem runs_read (hs : s.heartbeat = none) {op : Op V} {a : op.Reply}
    (ha : ∀ now, (op.txn store now).run s.journal = .ok (a, s.journal)) {r : Except Exc op.Reply}
    (h : Runs (alone store ttl fair) (call op) s l r t) :
    ∃ delay : ℕ, l = [(.store op, s.wait delay)] ∧ r = .ok a ∧ t = s.wait delay := by
  obtain ⟨delay, rfl, rfl, rfl⟩ := runs_call hs h
  refine ⟨delay, rfl, ?_, Desk.call_of_run (ha _)⟩
  rw [Txn.commit_of_ok (ha _)]

/-- A read, and what goes on with its answer. -/
theorem runs_read_bind (hs : s.heartbeat = none) {op : Op V} {a : op.Reply}
    (ha : ∀ now, (op.txn store now).run s.journal = .ok (a, s.journal)) {f : op.Reply → Coroutine V α} {r : Except Exc α}
    (h : Runs (alone store ttl fair) (call op >>= f) s l r t) : ∃ (delay : ℕ) (l' : List (Request V × Desk V)),
      l = [(.store op, s.wait delay)] ++ l' ∧ Runs (alone store ttl fair) (f a) (s.wait delay) l' r t := by
  rcases Proc.runs_bind.mp h with ⟨e, -, h⟩ | ⟨a', s', l₁, l₂, rfl, h, h'⟩
  · obtain ⟨delay, -, hr, -⟩ := runs_read hs ha h
    cases hr
  · obtain ⟨delay, rfl, hr, rfl⟩ := runs_read hs ha h
    cases hr
    exact ⟨delay, l₂, rfl, h'⟩

/-- A reconciler is asked. -/
theorem runs_reconcile (hs : s.heartbeat = none) {step : String} {value : V} {r : Except Exc (Reconciled V)}
    (h : Runs (alone store ttl fair) (await (.reconcile step value)) s l r t) :
    ∃ (delay : ℕ) (env : Env V), fair env ∧ l = [(.reconcile step value, s.wait delay)] ∧ r = env.reconciled ∧
      t = s.wait delay := by
  obtain ⟨s', hlater, rfl, env, hfair, hclock, hanswer⟩ := Proc.runs_request.mp h
  obtain ⟨delay, rfl⟩ := later_of_idle hs hlater
  obtain ⟨hr, hj, hh, ht⟩ : env.reconciled = r ∧ s.journal = t.journal ∧ s.heartbeat = t.heartbeat ∧
      s.token = t.token := by simpa [answer] using hanswer
  refine ⟨delay, env, hfair, rfl, hr.symm, ?_⟩
  cases t
  simp_all [Desk.wait]

end Idle

/-! ## A run to compute with -/

/-- The run in which no time passes and one environment answers everything. -/
def drive (store : JournalStore V) (env : Env V) :
    Coroutine V α → Desk V → List (Request V × Desk V) × Except Exc α × Desk V
  | .ret a, s => ([], .ok a, s)
  | .raise e, s => ([], .error e, s)
  | .ask q k, s =>
    let r := answer store s.clock env s.journal s.heartbeat s.token q
    let rest := drive store env (k r.1) ⟨r.2.1, s.clock, r.2.2.1, r.2.2.2⟩
    ((q, s) :: rest.1, rest.2)

theorem runs_drive {store : JournalStore V} {ttl : Duration} {fair : Env V → Prop} (env : Env V) (henv : fair env)
    (p : Coroutine V α) (s : Desk V) : Runs (alone store ttl fair) p s (drive store env p s).1
      (drive store env p s).2.1 (drive store env p s).2.2 := by
  induction p generalizing s with
  | ret a => exact .ret
  | raise e => exact .raise
  | ask q k ih =>
    have hanswer : (alone store ttl fair).answers q s (answer store s.clock env s.journal s.heartbeat s.token q).1
        ⟨(answer store s.clock env s.journal s.heartbeat s.token q).2.1, s.clock,
          (answer store s.clock env s.journal s.heartbeat s.token q).2.2.1,
          (answer store s.clock env s.journal s.heartbeat s.token q).2.2.2⟩ := ⟨env, henv, rfl, rfl⟩
    exact .ask (World.Later.refl s) hanswer (ih _ _)

end Xyberos.Durable
