import Xyberos.Durable.Discipline

/-!
# Xyberos.Durable.Roster — every history keeps the discipline

The workers of a `Roster` may be started with a different fleet each time, as long as the store is the same.
`Discipline.Kept.sound`: if `run_once` and `recover` keep a discipline, then in every state of every history each
session goes on keeping it, and the invariant holds.
-/

set_option autoImplicit false

namespace Xyberos.Durable

variable {V κ γ α : Type}

/-- A system, and what its history says besides: the workflow each execution was submitted with, and for each worker
the parameter it was started with and its notes. -/
structure Roster (V κ γ : Type) where
  system : System V := {}
  submitted : String → Option (Workflow V) := fun _ => none
  param : ℕ → κ
  notes : ℕ → γ

namespace Roster

def scene (s : Roster V κ γ) : Scene V := ⟨s.system.journal, s.submitted⟩

/-- What the worker `i` asks next. -/
def asks (s : Roster V κ γ) (i : ℕ) : Option (Request V) :=
  match (s.system.sessions i).main with
  | .ask q _ => some q
  | _ => none

variable (D : Discipline V κ γ) (f : κ → Fleet V)

/-- The workflows after an action. -/
def submittedBy (s : Roster V κ γ) : Action V → String → Option (Workflow V)
  | .operate c now => s.scene.submittedAfter D.store ⟨c.op, now⟩
  | .main i now _ =>
    match (s.system.sessions i).main with
    | .ask (.store op) _ => s.scene.submittedAfter D.store ⟨op, now⟩
    | _ => s.submitted
  | _ => s.submitted

/-- The notes after an action. -/
def notesBy (s : Roster V κ γ) : Action V → ℕ → γ
  | .runOnce i => Function.update s.notes i D.blank
  | .recover i => Function.update s.notes i D.blank
  | .main i now env =>
    match (s.system.sessions i).main with
    | .ask q _ => Function.update s.notes i (D.note (s.notes i) q
        (answer D.store now env s.system.journal (s.system.sessions i).heartbeat (s.system.sessions i).token q).1)
    | _ => s.notes
  | _ => s.notes

/-- The parameters after an action. -/
def paramBy (s : Roster V κ γ) (k : κ) : Action V → ℕ → κ
  | .runOnce i => Function.update s.param i k
  | .recover i => Function.update s.param i k
  | _ => s.param

/-- An action; if it starts a worker, with the parameter `k`. -/
def exec (s : Roster V κ γ) (x : κ × Action V) : Roster V κ γ where
  system := s.system.exec (f x.1) x.2
  submitted := s.submittedBy D x.2
  param := s.paramBy x.1 x.2
  notes := s.notesBy D x.2

/-- Nothing has happened. -/
def empty (k : κ) : Roster V κ γ := { param := fun _ => k, notes := fun _ => D.blank }

/-- Each session keeps the discipline with the claims it was handed, no claim was handed out twice, and the invariant
holds. -/
structure Sound (held : ℕ → Set (String × ℕ)) (s : Roster V κ γ) : Prop where
  disjoint : ∀ i i' p, p ∈ held i → p ∈ held i' → i = i'
  issued : ∀ i p, p ∈ held i → p.2 ≤ (s.scene.record p.1).fence
  inv : D.Inv s.scene
  keeps : ∀ i, (s.system.sessions i).main.wp (D.world (s.param i)) (fun _ _ => True) ⟨s.scene, held i, s.notes i⟩

end Roster

/-- A worker that is started. -/
def Discipline.Begun (D : Discipline V κ γ) (x : Station V γ) : Prop := D.Inv x.scene ∧ x.notes = D.blank

/-- The fleets keep the discipline: calls that write under no claim keep the invariant, so do those that a worker may
make, and `run_once` and `recover` ask nothing else. -/
structure Discipline.Kept (D : Discipline V κ γ) (f : κ → Fleet V) : Prop where
  store : ∀ k, (f k).store = D.store
  empty : D.inv {}
  free : ∀ x y, D.Inv x → y.op.writer? = none → D.inv (x.call D.store y)
  bound : ∀ k (x : Station V γ) now op c, D.Inv x.scene → op.writer? = some c → (c.executionId, c.fence) ∈ x.held →
    D.may k x (.store op) → D.fair x.scene x.notes now (.store op) → D.inv (x.scene.call D.store ⟨op, now⟩)
  runOnce : ∀ k i, D.Behaves k D.Begun ((f k).worker i).runOnce fun _ _ => True
  recover : ∀ k i, D.Behaves k D.Begun ((f k).worker i).recover fun _ _ => True

namespace Roster

variable {D : Discipline V κ γ} {f : κ → Fleet V} {held : ℕ → Set (String × ℕ)} {s s' : Roster V κ γ}

/-- The scene is the same, and each session keeps the discipline. -/
theorem Sound.goOn (h : s.Sound D held) (hscene : s'.scene = s.scene)
    (hkeeps : ∀ i, (s'.system.sessions i).main.wp (D.world (s'.param i)) (fun _ _ => True)
      ⟨s.scene, held i, s'.notes i⟩) : s'.Sound D held :=
  ⟨h.disjoint, fun i p hp => hscene ▸ h.issued i p hp, hscene ▸ h.inv, fun i => hscene ▸ hkeeps i⟩

/-- A worker is started. -/
theorem Sound.begin (h : s.Sound D held) (i : ℕ) (k : κ) {p : Coroutine V α}
    (hp : D.Behaves k D.Begun p fun _ _ => True) {s' : Roster V κ γ}
    (hsystem : s'.system = s.system.setSession i { main := p.discard }) (hsubmitted : s'.submitted = s.submitted)
    (hparam : s'.param = Function.update s.param i k) (hnotes : s'.notes = Function.update s.notes i D.blank) :
    s'.Sound D held := by
  refine h.goOn (by rw [scene, scene, hsystem, hsubmitted, System.setSession_journal]) fun i' => ?_
  rw [hsystem, hparam, hnotes]
  by_cases he : i' = i
  · subst he
    have hd : D.Behaves k D.Begun p.discard fun _ _ => True := hp.bind fun _ => .ret fun _ _ => trivial
    rw [System.setSession_self, Function.update_self, Function.update_self]
    exact Proc.wp_mono (hd _ ⟨h.inv, rfl⟩) fun _ _ _ => trivial
  · rw [System.setSession_of_ne _ he, Function.update_of_ne he, Function.update_of_ne he]
    exact h.keeps i'

/-- A call that writes under no claim concerns nobody. -/
theorem Sound.call (hD : D.Kept f) (h : s.Sound D held) (y : Call V) (hy : y.op.writer? = none)
    (hscene : s'.scene = s.scene.call D.store y)
    (hmain : ∀ i, (s'.system.sessions i).main = (s.system.sessions i).main) (hparam : s'.param = s.param)
    (hnotes : s'.notes = s.notes) : s'.Sound D held := by
  have hinv : D.Inv (s.scene.call D.store y) := ⟨Scene.call_proper h.inv.1 y, hD.free _ y h.inv hy⟩
  refine ⟨h.disjoint, fun i p hp => ?_, hscene ▸ hinv, fun i => ?_⟩
  · rw [hscene]
    exact (h.issued i p hp).trans (Scene.call_grows D.store s.scene y p.1).fence_le
  · rw [hmain, hscene, hparam, hnotes]
    refine Proc.wp_of_interferes (fun _ _ h => h) (h.keeps i) ⟨rfl, rfl, hinv, ?_⟩
    exact Scene.call_spares h.inv.1 y fun c hc => by cases hy.symm.trans hc

theorem Sound.heartbeatTurn (hD : D.Kept f) (h : s.Sound D held) (k : κ) (i : ℕ) (now : Instant) :
    (s.exec D f (k, .heartbeat i now)).Sound D held := by
  have hmain : ∀ i', ((s.exec D f (k, .heartbeat i now)).system.sessions i').main = (s.system.sessions i').main := by
    intro i'
    by_cases he : i' = i
    · subst he
      show ((s.system.setSession i' _).sessions i').main = _
      rw [System.setSession_self, Session.heartbeatTurn_main]
    · show ((s.system.setSession i _).sessions i').main = _
      rw [System.setSession_of_ne _ he]
  have hjournal : (s.exec D f (k, .heartbeat i now)).system.journal =
      ((s.system.sessions i).heartbeatTurn D.store ((f k).worker i).leaseTtl now s.system.journal).1 := by
    rw [← hD.store k]
    rfl
  rcases (s.system.sessions i).heartbeatTurn_journal D.store ((f k).worker i).leaseTtl now s.system.journal with
    hj | ⟨hb, op, -, hop, hj⟩
  · refine h.goOn (congrArg (Scene.mk · s.submitted) (hjournal.trans hj)) fun i' => ?_
    rw [hmain]
    exact h.keeps i'
  · have hreads : op.writer? = none ∧ op.workflow? = none := by
      unfold Heartbeat.op? at hop
      split at hop <;> cases hop <;> exact ⟨rfl, rfl⟩
    refine h.call hD ⟨op, now⟩ hreads.1 ?_ hmain rfl rfl
    rw [scene, hjournal, hj, Scene.call, Scene.submittedAfter_eq h.inv.1 hreads.2]
    rfl

/-- The claims of worker `i` after a call: a claim it is handed is added. -/
def handed (D : Discipline V κ γ) (s : Roster V κ γ) (held : ℕ → Set (String × ℕ)) (i : ℕ) (now : Instant)
    (op : Op V) : ℕ → Set (String × ℕ) :=
  Function.update held i (D.after ⟨s.scene, held i, s.notes i⟩ now op).held

/-- A call of worker `i` that it may make. -/
theorem Sound.mainCall (hD : D.Kept f) (h : s.Sound D held) (i : ℕ) (now : Instant) (op : Op V)
    (hown : Discipline.Own (held i) (.store op)) (hmay : D.may (s.param i) ⟨s.scene, held i, s.notes i⟩ (.store op))
    (hfair : D.fair s.scene (s.notes i) now (.store op))
    (hscene : s'.scene = s.scene.call D.store ⟨op, now⟩) (hparam : s'.param = s.param)
    (hothers : ∀ i' ≠ i, s'.system.sessions i' = s.system.sessions i' ∧ s'.notes i' = s.notes i')
    (hmain : D.Inv (s.scene.call D.store ⟨op, now⟩) → (s'.system.sessions i).main.wp (D.world (s.param i))
      (fun _ _ => True) (D.after ⟨s.scene, held i, s.notes i⟩ now op))
    (hnotes : s'.notes i = (D.after ⟨s.scene, held i, s.notes i⟩ now op).notes) :
    s'.Sound D (handed D s held i now op) := by
  have hinv : D.Inv (s.scene.call D.store ⟨op, now⟩) := by
    refine ⟨Scene.call_proper h.inv.1 _, ?_⟩
    cases hw : op.writer? with
    | none => exact hD.free _ _ h.inv hw
    | some c => exact hD.bound (s.param i) ⟨s.scene, held i, s.notes i⟩ now op c h.inv hw (hown c hw) hmay hfair
  -- a claim that is handed out has a fence nobody holds
  have hnew : ∀ c, Call.issued D.store s.system.journal ⟨op, now⟩ = some c →
      c.fence = (s.scene.record c.executionId).fence + 1 ∧
      c.fence ≤ ((s.scene.call D.store ⟨op, now⟩).record c.executionId).fence := by
    intro c hc
    obtain ⟨-, -, -, hfence, l, hl, -, hlf⟩ := issued_spec hc
    have hlease : ((s.scene.call D.store ⟨op, now⟩).record c.executionId).lease = some l := hl
    exact ⟨hfence, by rw [Record.fence, hlease]; exact hlf.ge⟩
  have hcases : ∀ i' p, p ∈ handed D s held i now op i' → p ∈ held i' ∨
      i' = i ∧ ∃ c, Call.issued D.store s.system.journal ⟨op, now⟩ = some c ∧ p = (c.executionId, c.fence) := by
    intro i' p hp
    by_cases he : i' = i
    · subst he
      rw [handed, Function.update_self] at hp
      exact hp.imp_right fun hc => ⟨rfl, hc⟩
    · rw [handed, Function.update_of_ne he] at hp
      exact .inl hp
  refine ⟨?_, ?_, hscene ▸ hinv, ?_⟩
  · intro i₁ i₂ p hp₁ hp₂
    rcases hcases i₁ p hp₁ with h₁ | ⟨rfl, c₁, hc₁, rfl⟩
    · rcases hcases i₂ p hp₂ with h₂ | ⟨rfl, c₂, hc₂, rfl⟩
      · exact h.disjoint i₁ i₂ p h₁ h₂
      · have hle := h.issued i₁ _ h₁
        have heq := (hnew c₂ hc₂).1
        dsimp only at hle
        omega
    · rcases hcases i₂ _ hp₂ with h₂ | ⟨rfl, -⟩
      · have hle := h.issued i₂ _ h₂
        have heq := (hnew c₁ hc₁).1
        dsimp only at hle
        omega
      · rfl
  · intro i' p hp
    rw [hscene]
    rcases hcases i' p hp with hp | ⟨-, c, hc, rfl⟩
    · exact (h.issued i' p hp).trans (Scene.call_grows D.store s.scene ⟨op, now⟩ p.1).fence_le
    · exact (hnew c hc).2
  · intro i'
    rw [hparam, hscene]
    by_cases he : i' = i
    · subst he
      rw [hnotes, handed, Function.update_self]
      exact hmain hinv
    · rw [(hothers i' he).1, (hothers i' he).2, handed, Function.update_of_ne he]
      refine Proc.wp_of_interferes (fun _ _ h => h) (h.keeps i') ⟨rfl, rfl, hinv, ?_⟩
      exact Scene.call_spares h.inv.1 _ fun c hc hc' => he (h.disjoint i' i _ hc' (hown c hc))

theorem Sound.mainTurn (hD : D.Kept f) (h : s.Sound D held) (k : κ) (i : ℕ) (now : Instant) (env : Env V)
    (hfair : ∀ q, s.asks i = some q → D.fair s.scene (s.notes i) now q) :
    ∃ held', (s.exec D f (k, .main i now env)).Sound D held' := by
  have hwp := h.keeps i
  have hothers : ∀ i' ≠ i, (s.exec D f (k, .main i now env)).system.sessions i' = s.system.sessions i' :=
    fun i' he => System.setSession_of_ne _ he _
  have hself : (s.exec D f (k, .main i now env)).system.sessions i =
      ((s.system.sessions i).mainTurn D.store now env s.system.journal).2 := by
    rw [← hD.store k]
    exact System.setSession_self ..
  have hjournal : (s.exec D f (k, .main i now env)).system.journal =
      ((s.system.sessions i).mainTurn D.store now env s.system.journal).1 := by
    rw [← hD.store k]
    rfl
  have hsubmitted : (s.exec D f (k, .main i now env)).submitted = s.submittedBy D (.main i now env) := rfl
  have hnotes : (s.exec D f (k, .main i now env)).notes = s.notesBy D (.main i now env) := rfl
  -- a turn that does not call the store
  have quiet : ∀ notes, (s.exec D f (k, .main i now env)).notes = Function.update s.notes i notes →
      (s.exec D f (k, .main i now env)).submitted = s.submitted →
      ((s.system.sessions i).mainTurn D.store now env s.system.journal).1 = s.system.journal →
      ((s.system.sessions i).mainTurn D.store now env s.system.journal).2.main.wp (D.world (s.param i))
        (fun _ _ => True) ⟨s.scene, held i, notes⟩ → (s.exec D f (k, .main i now env)).Sound D held := by
    intro notes hn hs hj hmain
    refine h.goOn (by rw [scene, scene, hjournal, hj, hs]) fun i' => ?_
    show (((s.exec D f (k, .main i now env)).system.sessions i').main).wp (D.world (s.param i')) _ _
    rw [hn]
    by_cases he : i' = i
    · subst he
      rw [hself, Function.update_self]
      exact hmain
    · rw [hothers i' he, Function.update_of_ne he]
      exact h.keeps i'
  unfold Session.mainTurn at hself hjournal quiet
  dsimp only [submittedBy] at hsubmitted
  dsimp only [notesBy] at hnotes
  cases hm : (s.system.sessions i).main with
  | ret a =>
    rw [hm] at quiet hsubmitted hnotes
    exact ⟨held, quiet (s.notes i) (hnotes.trans (Function.update_eq_self i _).symm) hsubmitted rfl hwp⟩
  | raise e =>
    rw [hm] at quiet hsubmitted hnotes
    exact ⟨held, quiet (s.notes i) (hnotes.trans (Function.update_eq_self i _).symm) hsubmitted rfl hwp⟩
  | ask q next =>
    rw [hm] at hself hjournal quiet hsubmitted hnotes hwp
    obtain ⟨⟨hown, hmay⟩, hanswers⟩ := Proc.wp_turn hwp
    have hf := hfair q (by rw [asks, hm])
    cases q with
    | store op =>
      refine ⟨_, h.mainCall hD i now op hown (hmay now hf) hf ?_ rfl (fun i' he => ⟨hothers i' he, ?_⟩)
        (fun hinv => ?_) ?_⟩
      · rw [scene, hjournal, hsubmitted]
        rfl
      · rw [hnotes]
        exact Function.update_of_ne he ..
      · rw [hself]
        exact hanswers _ _ ⟨now, hf, rfl, rfl, hinv⟩
      · rw [hnotes]
        exact Function.update_self ..
    | _ => exact ⟨held, quiet _ hnotes hsubmitted rfl (hanswers _ _ rfl)⟩

/-- The worker whose turn it is asks what is fair. -/
def Fair (D : Discipline V κ γ) (s : Roster V κ γ) (x : κ × Action V) : Prop :=
  match x.2 with
  | .main i now _ => ∀ q, s.asks i = some q → D.fair s.scene (s.notes i) now q
  | _ => True

theorem exec_sound (hD : D.Kept f) (h : ∃ held, s.Sound D held) {x : κ × Action V} (hx : s.Fair D x) :
    ∃ held, (s.exec D f x).Sound D held := by
  obtain ⟨held, h⟩ := h
  obtain ⟨k, a⟩ := x
  cases a with
  | runOnce i => exact ⟨held, h.begin i k (hD.runOnce k i) rfl rfl rfl rfl⟩
  | recover i => exact ⟨held, h.begin i k (hD.recover k i) rfl rfl rfl rfl⟩
  | main i now env => exact h.mainTurn hD k i now env hx
  | heartbeat i now => exact ⟨held, h.heartbeatTurn hD k i now⟩
  | crash i =>
    refine ⟨held, h.goOn rfl fun i' => ?_⟩
    show ((s.system.setSession i { main := .ret () }).sessions i').main.wp (D.world (s.param i')) _ _
    by_cases he : i' = i
    · subst he
      rw [System.setSession_self]
      trivial
    · rw [System.setSession_of_ne _ he]
      exact h.keeps i'
  | operate c now =>
    refine ⟨held, h.call hD ⟨c.op, now⟩ (by cases c <;> rfl) ?_ (fun _ => rfl) rfl rfl⟩
    show (⟨Call.exec (f k).store _ _, _⟩ : Scene V) = _
    rw [hD.store k]
    rfl

/-- Nothing was handed out yet. -/
theorem empty_sound (hD : D.Kept f) (k : κ) : (empty D k).Sound D fun _ => ∅ where
  disjoint _ _ _ h := h.elim
  issued _ _ h := h.elim
  inv := ⟨Scene.proper_empty D.store, hD.empty⟩
  keeps _ := trivial

/-- **Every fair history keeps the discipline.** -/
theorem sound (hD : D.Kept f) (k : κ) (l : List (κ × Action V))
    (hl : Steps (exec D f) (Fair D) (empty D k) l) : ∃ held, (after (exec D f) (empty D k) l).Sound D held :=
  hl.invariant (I := fun s : Roster V κ γ => ∃ held, s.Sound D held) ⟨_, empty_sound hD k⟩
    fun _ _ h hx => exec_sound hD h hx

/-- What a worker asks is what it may ask. -/
theorem Sound.asked (h : s.Sound D held) {i : ℕ} {q : Request V} (hq : s.asks i = some q) (now : Instant)
    (hf : D.fair s.scene (s.notes i) now q) :
    Discipline.Own (held i) q ∧ D.may (s.param i) ⟨s.scene, held i, s.notes i⟩ q := by
  have hwp := h.keeps i
  unfold asks at hq
  cases hm : (s.system.sessions i).main with
  | ret a => rw [hm] at hq; cases hq
  | raise e => rw [hm] at hq; cases hq
  | ask q' next =>
    rw [hm] at hq hwp
    cases hq
    obtain ⟨hown, hmay⟩ := (Proc.wp_turn hwp).1
    exact ⟨hown, hmay now hf⟩

/-- A history lets every execution grow. -/
theorem after_grows (s : Roster V κ γ) (l : List (κ × Action V)) (id : String) :
    (s.scene.record id).Grows ((after (exec D f) s l).scene.record id) := by
  refine after_invariant (I := fun s' : Roster V κ γ => (s.scene.record id).Grows (s'.scene.record id)) (.refl _) ?_
  intro s' x h
  rcases s'.system.exec_journal (f x.1) x.2 with hj | ⟨y, hj⟩
  · have hsame : (s'.exec D f x).scene.record id = s'.scene.record id := congrArg (Journal.record · id) hj
    rwa [hsame]
  · refine h.trans ?_
    have hcall : (s'.exec D f x).scene.record id = (y.exec (f x.1).store s'.system.journal).record id :=
      congrArg (Journal.record · id) hj
    rw [hcall]
    rcases y.exec_moves (f x.1).store s'.system.journal id with he | hstep
    · rw [he]
      exact .refl _
    · exact hstep.grows

end Roster

end Xyberos.Durable
