import Xyberos.Durable.Runs
import Xyberos.Durable.Worker

/-!
# Xyberos.Durable.System — workers and operators on one journal

A session is a call of a worker in progress: its coroutine, its heartbeat task and the cancellation token of the
step it runs.  In one turn a coroutine gets one request answered, and a heartbeat goes on to the next place where it
waits; between two turns anybody else may act.  `System` is a journal with any number of sessions, and an action is a
turn of one of them, the start or the crash of one, or a call by an operator.
-/

set_option autoImplicit false

namespace Xyberos.Durable

variable {V α : Type}

/-- A turn of `_watch` runs the operation it is about to await, if any. -/
theorem Heartbeat.turn_journal (store : JournalStore V) (ttl : Duration) (now : Instant) (j : Journal)
    (h : Heartbeat V) (token : Option String) : (h.turn store ttl now j token).1 = j ∨
      ∃ op, h.op? ttl = some op ∧ (h.turn store ttl now j token).1 = Call.exec store j ⟨op, now⟩ := by
  obtain ⟨c, watch⟩ := h
  cases watch with
  | checking => exact .inr ⟨_, rfl, rfl⟩
  | renewing => exact .inr ⟨_, rfl, rfl⟩
  | _ => exact .inl rfl

/-! ## Sessions -/

/-- What the environment answers in a turn, besides the store and the clock. -/
structure Env (V : Type) where
  /-- `random.random()` -/
  draw : ℚ
  /-- how the attempt of the step ends under its timeout -/
  outcome : Except Exc V
  /-- what the reconciler does -/
  reconciled : Except Exc (Reconciled V)

/-- A call of a worker in progress. -/
structure Session (V α : Type) where
  main : Coroutine V α
  heartbeat : Option (Heartbeat V) := none
  token : Option String := none

/-- The answer to a request, with the journal, the heartbeat and the token afterwards. -/
def answer (store : JournalStore V) (now : Instant) (env : Env V) (j : Journal) (heartbeat : Option (Heartbeat V))
    (token : Option String) :
    (q : Request V) → Except Exc q.Reply × Journal × Option (Heartbeat V) × Option String
  | .store op => (((op.txn store now).commit j).1, ((op.txn store now).commit j).2, heartbeat, token)
  | .now => (.ok now, j, heartbeat, token)
  | .random => (.ok env.draw, j, heartbeat, token)
  | .reconcile _ _ => (env.reconciled, j, heartbeat, token)
  | .startHeartbeat claim => (.ok (), j, some { claim }, none)
  | .runStep _ => (env.outcome, j, heartbeat, token)
  | .stopHeartbeat => (heartbeat.elim (.ok ()) Heartbeat.joined, j, none, token)

namespace Session

/-- The coroutine gets its next request answered. -/
def mainTurn (store : JournalStore V) (now : Instant) (env : Env V) (j : Journal) (s : Session V α) :
    Journal × Session V α :=
  match s.main with
  | .ask q k =>
    let r := answer store now env j s.heartbeat s.token q
    (r.2.1, ⟨k r.1, r.2.2.1, r.2.2.2⟩)
  | _ => (j, s)

/-- The heartbeat goes on to the next place where it waits. -/
def heartbeatTurn (store : JournalStore V) (ttl : Duration) (now : Instant) (j : Journal) (s : Session V α) :
    Journal × Session V α :=
  match s.heartbeat with
  | none => (j, s)
  | some h =>
    let r := h.turn store ttl now j s.token
    (r.1, { s with heartbeat := some r.2.1, token := r.2.2 })

@[simp] theorem heartbeatTurn_main (store : JournalStore V) (ttl : Duration) (now : Instant) (j : Journal)
    (s : Session V α) : (s.heartbeatTurn store ttl now j).2.main = s.main := by
  unfold heartbeatTurn
  split <;> rfl

/-- A turn of a heartbeat runs the operation it is about to await, if any. -/
theorem heartbeatTurn_journal (store : JournalStore V) (ttl : Duration) (now : Instant) (j : Journal)
    (s : Session V α) : (s.heartbeatTurn store ttl now j).1 = j ∨
      ∃ h op, s.heartbeat = some h ∧ h.op? ttl = some op ∧
        (s.heartbeatTurn store ttl now j).1 = Call.exec store j ⟨op, now⟩ := by
  unfold heartbeatTurn
  split
  · exact .inl rfl
  · rename_i h hh
    exact (h.turn_journal store ttl now j s.token).imp_right fun ⟨op, hop, hj⟩ => ⟨h, op, hh, hop, hj⟩

/-- A turn of a coroutine runs the operation it is about to await, if any. -/
theorem mainTurn_journal (store : JournalStore V) (now : Instant) (env : Env V) (j : Journal) (s : Session V α) :
    (s.mainTurn store now env j).1 = j ∨ ∃ op, (s.mainTurn store now env j).1 = Call.exec store j ⟨op, now⟩ := by
  unfold mainTurn
  split
  · rename_i q k _
    cases q with
    | store op => exact .inr ⟨op, rfl⟩
    | _ => exact .inl rfl
  · exact .inl rfl

end Session

/-! ## The system -/

/-- Workers that share a store, definitions and activities. -/
structure Fleet (V : Type) where
  store : JournalStore V
  definitions : DefinitionLookup V
  activities : String → ActivityPolicy
  owner : ℕ → String
  settingsLeaseTtl : ℕ → Option Duration := fun _ => none

def Fleet.worker (f : Fleet V) (i : ℕ) : DurableWorker V where
  store := f.store
  definitions := f.definitions
  activities := f.activities
  owner := f.owner i
  settingsLeaseTtl := f.settingsLeaseTtl i

/-- What an operator calls; `submit` of the source is `registerDefinition`, then `submit`. -/
inductive OperatorCall (V : Type)
  | registerDefinition (workflow : Workflow V)
  | submit (workflow : Workflow V) (input : V) (timeout : Option ℚ) (executionId : String)
      (submissionKey : Option String)
  | requestCancellation (executionId : String) (reason : Option String)
  | resumeWaiting (executionId : String) (reason : Option String)
  | expireDeadlines

def OperatorCall.op : OperatorCall V → Op V
  | registerDefinition w => .registerDefinition w
  | submit w input timeout id key => .submit w input timeout id key
  | requestCancellation id reason => .requestCancellation id reason
  | resumeWaiting id reason => .resumeWaiting id reason
  | expireDeadlines => .expireDeadlines

/-- The journal and the session of every worker; a coroutine that has ended is an idle worker. -/
structure System (V : Type) where
  journal : Journal := {}
  sessions : ℕ → Session V Unit := fun _ => ⟨.ret (), none, none⟩

/-- What happens next. -/
inductive Action (V : Type)
  /-- worker `i` calls `run_once` -/
  | runOnce (i : ℕ)
  /-- worker `i` calls `recover` -/
  | recover (i : ℕ)
  /-- the coroutine of worker `i` goes on -/
  | main (i : ℕ) (now : Instant) (env : Env V)
  /-- the heartbeat of worker `i` goes on -/
  | heartbeat (i : ℕ) (now : Instant)
  /-- worker `i` dies -/
  | crash (i : ℕ)
  | operate (c : OperatorCall V) (now : Instant)

namespace System

/-- The session of a worker replaced. -/
def setSession (s : System V) (i : ℕ) (session : Session V Unit) : System V :=
  { s with sessions := Function.update s.sessions i session }

@[simp] theorem setSession_journal (s : System V) (i : ℕ) (session : Session V Unit) :
    (s.setSession i session).journal = s.journal := rfl

@[simp] theorem setSession_self (s : System V) (i : ℕ) (session : Session V Unit) :
    (s.setSession i session).sessions i = session := Function.update_self ..

@[simp] theorem setSession_of_ne (s : System V) {i i' : ℕ} (h : i' ≠ i) (session : Session V Unit) :
    (s.setSession i session).sessions i' = s.sessions i' := Function.update_of_ne h ..

def exec (f : Fleet V) (s : System V) : Action V → System V
  | .runOnce i => s.setSession i { main := (f.worker i).runOnce.discard }
  | .recover i => s.setSession i { main := (f.worker i).recover.discard }
  | .main i now env =>
    let r := (s.sessions i).mainTurn f.store now env s.journal
    { s.setSession i r.2 with journal := r.1 }
  | .heartbeat i now =>
    let r := (s.sessions i).heartbeatTurn f.store (f.worker i).leaseTtl now s.journal
    { s.setSession i r.2 with journal := r.1 }
  | .crash i => s.setSession i { main := .ret () }
  | .operate c now => { s with journal := Call.exec f.store s.journal ⟨c.op, now⟩ }

/-- Whatever happens, the journal is changed by calls of the store. -/
theorem exec_journal (f : Fleet V) (s : System V) (a : Action V) :
    (s.exec f a).journal = s.journal ∨ ∃ x, (s.exec f a).journal = Call.exec f.store s.journal x := by
  cases a with
  | runOnce i => exact .inl rfl
  | recover i => exact .inl rfl
  | main i now env =>
    exact ((s.sessions i).mainTurn_journal f.store now env s.journal).imp_right fun ⟨op, hj⟩ => ⟨⟨op, now⟩, hj⟩
  | heartbeat i now =>
    exact ((s.sessions i).heartbeatTurn_journal f.store (f.worker i).leaseTtl now s.journal).imp_right
      fun ⟨_, op, _, _, hj⟩ => ⟨⟨op, now⟩, hj⟩
  | crash i => exact .inl rfl
  | operate c now => exact .inr ⟨⟨c.op, now⟩, rfl⟩

end System

/-- The system after a history. -/
def runActions (f : Fleet V) (l : List (Action V)) : System V := after (System.exec f) {} l

end Xyberos.Durable
