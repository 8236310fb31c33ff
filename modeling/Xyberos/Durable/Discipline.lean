import Xyberos.Durable.Conduct
import Xyberos.Durable.Evolution
import Xyberos.Durable.System

/-!
# Xyberos.Durable.Discipline — workers that rely on one another

A discipline is an invariant of the journal and a rule for each worker: what it may ask, given the journal, the claims
it was handed, and notes it takes of the answers it got.  Each worker is proved to keep the rule on its own, relying
on the others to write only under claims of their own and to keep the invariant (`Discipline.world`).  From that,
every turn of every history keeps the rule and every state of it the invariant (`Discipline.Kept.sound`).

A `Roster` is a system together with what a history says besides: the workflow each execution was submitted with, and
for each worker the parameter it was started with and its notes.
-/

set_option autoImplicit false

namespace Xyberos.Durable

open Proc (World Ends)

variable {V κ γ α : Type}

/-! ## Scenes -/

/-- The workflow of a submission. -/
def Op.workflow? : Op V → Option (Workflow V)
  | submit w _ _ _ _ => some w
  | _ => none

/-- The journal, and the workflow each execution was submitted with. -/
structure Scene (V : Type) where
  journal : Journal := {}
  submitted : String → Option (Workflow V) := fun _ => none

namespace Scene

def record (x : Scene V) (id : String) : Record := x.journal.record id

/-- The workflows after a call: that of a new execution is entered. -/
def submittedAfter (store : JournalStore V) (x : Scene V) (y : Call V) : String → Option (Workflow V) := fun id =>
  if (x.record id).row = none ∧ ((y.exec store x.journal).record id).row ≠ none then y.op.workflow? else x.submitted id

/-- A call of the store. -/
def call (store : JournalStore V) (x : Scene V) (y : Call V) : Scene V :=
  ⟨y.exec store x.journal, x.submittedAfter store y⟩

/-- The journal holds the executions that were submitted, with their steps. -/
structure Proper (store : JournalStore V) (x : Scene V) : Prop where
  rooted : ∀ id, (x.record id).Rooted
  submitted : ∀ id row, (x.record id).row = some row → ∃ w, x.submitted id = some w ∧
    row.workflow = w.name ∧ row.version = w.version ∧ row.fingerprint = store.definitionFingerprint w ∧
    ∀ s, (x.record id).steps s = none ↔ s ∉ w.stepIds
  placed : ∀ id w, x.submitted id = some w → (x.record id).row ≠ none

/-- What the holder of the claims `held` is left with. -/
structure Spares (held : Set (String × ℕ)) (x y : Scene V) : Prop where
  submitted : ∀ id w, x.submitted id = some w → y.submitted id = some w
  grows : ∀ id, (x.record id).Grows (y.record id)
  held : ∀ p ∈ held, (x.record p.1).Spares p.2 (y.record p.1)

section Calls

variable {store : JournalStore V} {x : Scene V} {y : Call V} {id : String}

theorem record_call : (x.call store y).record id = (y.exec store x.journal).record id := rfl

theorem call_cases (store : JournalStore V) (x : Scene V) (y : Call V) (id : String) :
    (x.call store y).record id = x.record id ∨ Record.Step store y.now id y.op (x.record id) ((x.call store y).record id) :=
  y.exec_moves store x.journal id

theorem call_grows (store : JournalStore V) (x : Scene V) (y : Call V) (id : String) :
    (x.record id).Grows ((x.call store y).record id) := by
  rcases call_cases store x y id with he | hs
  · rw [he]
    exact .refl _
  · exact hs.grows

/-- A workflow is entered for a new execution only. -/
theorem submitted_call (h : x.Proper store) {w : Workflow V} (hw : x.submitted id = some w) (y : Call V) :
    (x.call store y).submitted id = some w :=
  (if_neg fun hnew => h.placed id w hw hnew.1).trans hw

/-- Nothing changes the workflow an execution was submitted with, or its steps. -/
theorem call_proper (h : x.Proper store) (y : Call V) : (x.call store y).Proper store where
  rooted id := by
    rcases call_cases store x y id with he | hs
    · rw [he]
      exact h.rooted id
    · exact fun hn => absurd hn (hs.row_ne_none (h.rooted id))
  submitted id row' hrow' := by
    cases hrow : (x.record id).row with
    | some row =>
      obtain ⟨w, hw, hname, hversion, hprint, hsteps⟩ := h.submitted id row hrow
      have hgrows := call_grows store x y id
      obtain ⟨row'', hrow'', hsame⟩ := hgrows.row row hrow
      cases hrow'.symm.trans hrow''
      refine ⟨w, submitted_call h hw y, hsame.workflow.trans hname, hsame.version.trans hversion,
        hsame.fingerprint.trans hprint, fun s => ?_⟩
      rw [← hgrows.steps_none (by simp [hrow]) s]
      exact hsteps s
    | none =>
      -- the execution is new
      rcases call_cases store x y id with he | hs
      · rw [he, hrow] at hrow'
        cases hrow'
      · rw [h.rooted id hrow] at hs
        obtain ⟨w, input, timeout, key, row'', hop, hrow'', hname, hversion, hprint, -, hsteps⟩ := hs.of_absent
        cases hrow'.symm.trans hrow''
        refine ⟨w, ?_, hname, hversion, hprint, fun s => ?_⟩
        · show (if _ then y.op.workflow? else x.submitted id) = some w
          rw [if_pos ⟨hrow, by rw [← record_call, hrow']; simp⟩, hop]
          rfl
        · rw [hsteps]
          split_ifs with hmem <;> simp [hmem]
  placed id w hw := by
    by_cases hnew : (x.record id).row = none ∧ ((y.exec store x.journal).record id).row ≠ none
    · exact hnew.2
    · have hold : x.submitted id = some w := (if_neg hnew).symm.trans hw
      obtain ⟨row, hrow⟩ := Option.ne_none_iff_exists'.mp (h.placed id w hold)
      obtain ⟨row', hrow', -⟩ := (call_grows store x y id).row row hrow
      simp [hrow']

/-- A call that writes under no claim of mine spares me. -/
theorem call_spares (h : x.Proper store) {held : Set (String × ℕ)} (y : Call V)
    (hy : ∀ c, y.op.writer? = some c → (c.executionId, c.fence) ∉ held) : Spares held x (x.call store y) where
  submitted _ _ hw := submitted_call h hw y
  grows id := call_grows store x y id
  held p hp := by
    rcases call_cases store x y p.1 with he | hs
    · rw [he]
      exact .refl p.2 _
    · refine hs.spares (h.rooted p.1) fun c hc hid hfence => hy c hc ?_
      rwa [hid, hfence]

/-- A call that is no submission enters nothing. -/
theorem submittedAfter_eq (h : x.Proper store) (hy : y.op.workflow? = none) :
    x.submittedAfter store y = x.submitted := by
  funext id
  refine if_neg fun hnew => ?_
  rcases call_cases store x y id with he | hs
  · exact hnew.2 (by rw [← record_call, he]; exact hnew.1)
  · rw [h.rooted id hnew.1] at hs
    obtain ⟨w, input, timeout, key, -, hop, -⟩ := hs.of_absent
    rw [hop] at hy
    cases hy

theorem proper_empty (store : JournalStore V) : ({} : Scene V).Proper store where
  rooted _ _ := rfl
  submitted _ _ hrow := by cases hrow
  placed _ _ hw := by cases hw

end Calls

end Scene

/-! ## Disciplines -/

/-- What a worker knows of a history: the scene, the claims it was handed (execution and fence), and its notes. -/
structure Station (V γ : Type) where
  scene : Scene V
  held : Set (String × ℕ)
  notes : γ

/-- An invariant of the scene, and what a worker that was started with the parameter `k : κ` may ask.  Nothing is said
about histories in which a worker asks what is not `fair`, with the journal, its notes and the time as they are. -/
structure Discipline (V κ γ : Type) where
  store : JournalStore V
  inv : Scene V → Prop
  may : κ → Station V γ → Request V → Prop
  fair : Scene V → γ → Instant → Request V → Prop
  /-- the notes of a worker that is started -/
  blank : γ
  /-- what a worker notes of an answer -/
  note : γ → (q : Request V) → Except Exc q.Reply → γ

namespace Discipline

variable (D : Discipline V κ γ)

/-- What everybody may rely on. -/
def Inv (x : Scene V) : Prop := x.Proper D.store ∧ D.inv x

/-- The station of a worker after it called the store. -/
def after (x : Station V γ) (now : Instant) (op : Op V) : Station V γ where
  scene := x.scene.call D.store ⟨op, now⟩
  held := { p | p ∈ x.held ∨
    ∃ c, Call.issued D.store x.scene.journal ⟨op, now⟩ = some c ∧ p = (c.executionId, c.fence) }
  notes := D.note x.notes (.store op) ((op.txn D.store now).commit x.scene.journal).1

/-- The operations of a worker are under claims it was handed. -/
def Own (held : Set (String × ℕ)) : Request V → Prop
  | .store op => ∀ c, op.writer? = some c → (c.executionId, c.fence) ∈ held
  | _ => True

/-- The surroundings of a worker. -/
def world (k : κ) : World (Request V) Request.Reply Exc (Station V γ) where
  interferes x y := y.held = x.held ∧ y.notes = x.notes ∧ D.Inv y.scene ∧ x.scene.Spares x.held y.scene
  allows q x := Own x.held q ∧ ∀ now, D.fair x.scene x.notes now q → D.may k x q
  answers
    | .store op, x, a, y => ∃ now, D.fair x.scene x.notes now (.store op) ∧
        a = ((op.txn D.store now).commit x.scene.journal).1 ∧ y = D.after x now op ∧ D.Inv y.scene
    | q, x, a, y => y = { x with notes := D.note x.notes q a }

/-- From a station with `P`, the worker keeps the discipline, and returns at one with `Post`. -/
abbrev Behaves (k : κ) (P : Station V γ → Prop) (p : Coroutine V α) (Post : α → Station V γ → Prop) : Prop :=
  (D.world k).Triple P p Post fun _ _ => True

section Rules

variable {D} {k : κ} {P : Station V γ → Prop} {E : Exc → Station V γ → Prop}

/-- A call of the store. -/
theorem triple_call {op : Op V} {Post : op.Reply → Station V γ → Prop} (hP : (D.world k).Stable P)
    (hmay : ∀ x, P x → Own x.held (.store op) ∧ D.may k x (.store op))
    (hpost : ∀ x now, P x → D.fair x.scene x.notes now (.store op) → D.Inv (D.after x now op).scene →
      Ends (fun e => E e (D.after x now op)) (fun a => Post a (D.after x now op))
        ((op.txn D.store now).commit x.scene.journal).1) :
    (D.world k).Triple P (Durable.call op) Post E := by
  refine .request hP fun x hx => ⟨⟨(hmay x hx).1, fun _ _ => (hmay x hx).2⟩, ?_⟩
  rintro a y ⟨now, hfair, rfl, rfl, hinv⟩
  exact hpost x now hx hfair hinv

/-- Any other request. -/
theorem triple_await {q : Request V} {Post : q.Reply → Station V γ → Prop} (hq : ∀ op, q ≠ .store op)
    (hP : (D.world k).Stable P) (hmay : ∀ x, P x → D.may k x q)
    (hpost : ∀ x a, P x → Ends (fun e => E e { x with notes := D.note x.notes q a })
      (fun b => Post b { x with notes := D.note x.notes q a }) a) :
    (D.world k).Triple P (await q) Post E := by
  refine .request hP fun x hx => ?_
  cases q with
  | store op => exact absurd rfl (hq op)
  | _ =>
    refine ⟨⟨trivial, fun _ _ => hmay x hx⟩, ?_⟩
    rintro a y rfl
    exact hpost x a hx

end Rules

end Discipline

/-! ## Claims of one's own -/

namespace Station

variable (store : JournalStore V)

/-- The worker was handed the claim, and what the claim says about the submission is right. -/
structure Has (c : Claim V) (x : Station V γ) : Prop where
  held : (c.executionId, c.fence) ∈ x.held
  pos : 0 < c.fence
  fence_le : c.fence ≤ (x.scene.record c.executionId).fence
  about : ∃ row, (x.scene.record c.executionId).row = some row ∧ c.About store row

/-- The claim is the last one on its execution. -/
def Current (c : Claim V) (x : Station V γ) : Prop := (x.scene.record c.executionId).fence = c.fence

variable {store}

theorem Has.of_grows {c : Claim V} {x y : Station V γ} (h : x.Has store c)
    (held : (c.executionId, c.fence) ∈ y.held)
    (hg : (x.scene.record c.executionId).Grows (y.scene.record c.executionId)) : y.Has store c where
  held := held
  pos := h.pos
  fence_le := h.fence_le.trans hg.fence_le
  about := by
    obtain ⟨row, hrow, habout⟩ := h.about
    obtain ⟨row', hrow', hsame⟩ := hg.row row hrow
    exact ⟨row', hrow', habout.sameWork hsame⟩

theorem Has.current_of_grows {c : Claim V} {x y : Station V γ} (h : x.Has store c)
    (hg : (x.scene.record c.executionId).Grows (y.scene.record c.executionId)) (hy : y.Current c) : x.Current c :=
  le_antisymm (hg.fence_le.trans (le_of_eq hy)) h.fence_le

end Station

namespace Discipline

variable {D : Discipline V κ γ} {k : κ} {c : Claim V}

theorem stable_has : (D.world k).Stable (Station.Has D.store c) := by
  rintro x y ⟨hheld, -, -, hspares⟩ h
  exact h.of_grows (hheld ▸ h.held) (hspares.grows _)

/-- While the claim is the last one, nobody else writes the steps of its execution. -/
theorem steps_of_interferes {x y : Station V γ} (h : (D.world k).interferes x y) (hx : x.Has D.store c)
    (hy : y.Current c) : (y.scene.record c.executionId).steps = (x.scene.record c.executionId).steps := by
  obtain ⟨-, -, -, hspares⟩ := h
  exact (hspares.held _ hx.held).steps hx.pos hx.fence_le hy

theorem has_after {x : Station V γ} (h : x.Has D.store c) (now : Instant) (op : Op V) :
    (D.after x now op).Has D.store c :=
  h.of_grows (.inl h.held) (Scene.call_grows D.store x.scene ⟨op, now⟩ _)

/-- The claim a worker is handed is the last one. -/
theorem has_issued {x : Station V γ} {now : Instant} {owner : String} {ttl : Option Duration}
    (h : ((D.store.claimNext owner ttl now).commit x.scene.journal).1 = .ok (some c)) :
    (D.after x now (.claimNext owner ttl)).Has D.store c ∧ (D.after x now (.claimNext owner ttl)).Current c := by
  have hissued : Call.issued D.store x.scene.journal ⟨.claimNext owner ttl, now⟩ = some c := by
    simp only [Call.issued, h]
  have hhands : Call.handsOut D.store x.scene.journal ⟨.claimNext owner ttl, now⟩ = some c := by
    simp only [Call.handsOut, h]
  obtain ⟨-, -, -, hfence, l, hl, -, hlf⟩ := issued_spec hissued
  obtain ⟨row, hrow, habout⟩ := Ledger.about_of_handsOut hhands fun c' hc' => by cases hc'
  obtain ⟨row', hrow', hsame⟩ := (Scene.call_grows D.store x.scene ⟨.claimNext owner ttl, now⟩ c.executionId).row row hrow
  have hcurrent : (D.after x now (.claimNext owner ttl)).Current c := by
    have hlease : ((D.after x now (.claimNext owner ttl)).scene.record c.executionId).lease = some l := hl
    rw [Station.Current, Record.fence, hlease, Option.map_some, Option.getD_some, hlf]
  exact ⟨⟨.inr ⟨c, hissued, rfl⟩, by omega, hcurrent.ge, row', hrow', habout.sameWork hsame⟩, hcurrent⟩

end Discipline

end Xyberos.Durable
