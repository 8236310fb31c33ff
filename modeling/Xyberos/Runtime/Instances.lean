import Xyberos.Base.Once
import Xyberos.Runtime.ProviderGraph
import Xyberos.Runtime.Scene

/-!
# Xyberos.Runtime.Instances — concurrent resolves share their instances

Any number of calls that resolve, while an application starts or is ready, and while its request contexts come and go.
An owner has a slot for every contract; a resolve takes the lock of a slot, looks again, lets the factory make an
instance and keeps it.  A request context that is closed gives its slots up.  Whatever factories and close hooks do, and
however the calls are interleaved, one instance at most is made for each slot of the application and of the contexts
that are open, every resolve gets that one, and no calls wait for each other's locks in a circle (`shared_instances`).
-/

set_option autoImplicit false

namespace Xyberos.Runtime.Instances

open Proc (World Ends)

variable {κ ι : Type} [DecidableEq κ]

/-! ## What is made -/

/-- The owner for which a provider is resolved, on behalf of a request or of none. -/
def ownerFor (request : Option ℕ) (provider : Provider κ) : Option Owner :=
  match provider.scope, request with
  | .app, _ => some .app
  | .request, some id => some (.request id)
  | _, _ => none

/-- A scene, with the instances that were made for each owner and contract: that a factory returned and that were not
rejected. -/
structure Stage (κ ι : Type) where
  scene : Scene κ ι
  made : Owner × κ → List ι := fun _ => []

/-- The owner is a request context that was closed. -/
def Closed (app : App κ ι) : Owner → Prop
  | .app => False
  | .request id => id ∈ app.closedRequests

def Stage.slots (st : Stage κ ι) : Slots (Owner × κ) ι where
  lock x := (st.scene.app.holdings x.1).locks x.2
  value x := (st.scene.app.holdings x.1).instances x.2
  made := st.made
  gone x := Closed st.scene.app x.1

/-- What is made when a request comes to this end. -/
def madeBy (c : Composition κ ι) (request : Option ℕ) (made : Owner × κ → List ι) :
    (q : Request κ ι) → Except (Failure κ) q.Reply → Owner × κ → List ι
  | .factory provider _, .ok instance_ =>
    match ownerFor request provider, c.rejection provider instance_ [] with
    | some o, none =>
      Function.update made (o, provider.contract) (made (o, provider.contract) ++ [instance_])
    | _, _ => made
  | _, _ => made

/-- The application forgets its instances, when its start has failed or it is stopped. -/
def Closes : Request κ ι → Prop
  | .act (.clear .app) => True
  | _ => False

/-- One turn of a task, whose call belongs to a request or to none, before the application forgets its instances. -/
def Turn (c : Composition κ ι) (t : ℕ) (request : Option ℕ) (q : Request κ ι) (st : Stage κ ι)
    (x : Except (Failure κ) q.Reply) (st' : Stage κ ι) : Prop :=
  Answers c (fun _ _ => True) t q st.scene x st'.scene ∧ st'.made = madeBy c request st.made q x ∧ ¬ Closes q

/-- The instances that a factory is called with are those that are kept, by the owners that are open. -/
def Supplied (c : Composition κ ι) (request : Option ℕ) (dependencies : List (Dependency κ))
    (arguments : List (String × ι)) (st : Stage κ ι) : Prop :=
  List.Forall₂ (fun dependency argument => argument.1 = dependency.parameter ∧
    ∀ provider o, c.registry.get dependency.contract = some provider → ownerFor request provider = some o →
      ¬ Closed st.scene.app o → st.slots.value (o, dependency.contract) = some argument.2) dependencies arguments

/-- When a task that resolves may make a request. -/
def Allowed (c : Composition κ ι) (t : ℕ) (request : Option ℕ) (st : Stage κ ι) : Request κ ι → Prop
  | .act (.keep o provider instance_) => st.slots.lock (o, provider.contract) = some t ∧ (¬ Closed st.scene.app o →
    st.slots.value (o, provider.contract) = none ∧ st.slots.made (o, provider.contract) = [instance_])
  | .act (.unlock o contract) => st.slots.lock (o, contract) = some t ∧ (¬ Closed st.scene.app o →
    st.slots.made (o, contract) = (st.slots.value (o, contract)).toList)
  | .act (.clear (.request id)) => ∀ contract, st.slots.gone (.request id, contract)
  | .lock _ contract => ∀ x, st.slots.lock x = some t → Relation.TransGen c.registry.DependsOn x.2 contract
  | .factory provider arguments => Supplied c request provider.dependencies arguments st ∧
    ∀ o, ownerFor request provider = some o → st.slots.lock (o, provider.contract) = some t ∧
      (¬ Closed st.scene.app o →
        st.slots.value (o, provider.contract) = none ∧ st.slots.made (o, provider.contract) = [])
  | _ => True

/-- A task among others that resolve. -/
def among (c : Composition κ ι) (t : ℕ) (request : Option ℕ) :
    World (Request κ ι) Request.Reply (Failure κ) (Stage κ ι) where
  interferes st st' := Slots.Others t st.slots st'.slots
  allows q st := Allowed c t request st q
  answers q st x st' := Turn c t request q st x st'

/-! ## What a turn does to the slots -/

section Effects

variable {c : Composition κ ι} {t : ℕ}
  {request : Option ℕ} {st st' : Stage κ ι}

omit [DecidableEq κ] in
theorem closed_congr {app app' : App κ ι} (h : app'.closedRequests = app.closedRequests) :
    Closed app' = Closed app := by
  funext o
  cases o with
  | app => rfl
  | request id =>
    unfold Closed
    rw [h]

omit [DecidableEq κ] in
theorem slots_congr (hh : st'.scene.app.holdings = st.scene.app.holdings) (hm : st'.made = st.made)
    (hc : st'.scene.app.closedRequests = st.scene.app.closedRequests) : st'.slots = st.slots := by
  unfold Stage.slots
  rw [hh, hm, closed_congr hc]

theorem update_pair {α : Type} (f : Owner × κ → α) (o : Owner) (k k' : κ) (a : α) :
    Function.update f (o, k') a (o, k) = Function.update (fun k => f (o, k)) k' a k := by
  rcases eq_or_ne k k' with rfl | hne
  · rw [Function.update_self, Function.update_self]
  · have hpair : (o, k) ≠ (o, k') := fun he => hne (congrArg Prod.snd he)
    rw [Function.update_of_ne hne, Function.update_of_ne hpair]

omit [DecidableEq κ] in
/-- The holdings of one owner are replaced. -/
theorem slots_hold {o : Owner} {held : Holdings κ ι}
    (hs : st'.scene.app = { st.scene.app with holdings := Function.update st.scene.app.holdings o held })
    (hm : st'.made = st.made) (lock : Owner × κ → Option ℕ) (value : Owner × κ → Option ι)
    (hlock : ∀ k, held.locks k = lock (o, k)) (hlock' : ∀ x, x.1 ≠ o → lock x = st.slots.lock x)
    (hvalue : ∀ k, held.instances k = value (o, k)) (hvalue' : ∀ x, x.1 ≠ o → value x = st.slots.value x) :
    st'.slots = { st.slots with lock := lock, value := value } := by
  have hh : st'.scene.app.holdings = Function.update st.scene.app.holdings o held := congrArg App.holdings hs
  unfold Stage.slots
  rw [hh, hm, closed_congr (congrArg App.closedRequests hs)]
  congr 1
  · funext ⟨o', k⟩
    rcases eq_or_ne o' o with rfl | ho
    · rw [Function.update_self]
      exact hlock k
    · rw [Function.update_of_ne ho]
      exact (hlock' (o', k) ho).symm
  · funext ⟨o', k⟩
    rcases eq_or_ne o' o with rfl | ho
    · rw [Function.update_self]
      exact hvalue k
    · rw [Function.update_of_ne ho]
      exact (hvalue' (o', k) ho).symm

theorem slots_keep {o : Owner} {provider : Provider κ} {instance_ : ι} {x : Except (Failure κ) Unit}
    (h : Turn c t request (.act (.keep o provider instance_)) st x st') : st'.slots =
      { st.slots with value := Function.update st.slots.value (o, provider.contract) (some instance_) } := by
  obtain ⟨⟨-, hs⟩, hm, -⟩ := h
  refine slots_hold (congrArg Scene.app hs) hm _ _ (fun k => rfl) (fun x _ => rfl) (fun k => ?_) fun x hx => ?_
  · exact (update_pair st.slots.value o k provider.contract (some instance_)).symm
  · exact Function.update_of_ne (fun he => hx (congrArg Prod.fst he)) ..

theorem slots_unlock {o : Owner} {contract : κ} {x : Except (Failure κ) Unit}
    (h : Turn c t request (.act (.unlock o contract)) st x st') : st'.slots =
      { st.slots with lock := Function.update st.slots.lock (o, contract) none } := by
  obtain ⟨⟨-, hs⟩, hm, -⟩ := h
  refine slots_hold (congrArg Scene.app hs) hm _ _ (fun k => ?_) (fun x hx => ?_) (fun k => rfl) fun x _ => rfl
  · exact (update_pair st.slots.lock o k contract none).symm
  · exact Function.update_of_ne (fun he => hx (congrArg Prod.fst he)) ..

theorem slots_lock {o : Owner} {contract : κ} {x : Except (Failure κ) Unit}
    (h : Turn c t request (.lock o contract) st x st') : st.slots.lock (o, contract) = none ∧ x = .ok () ∧
      st'.slots = { st.slots with lock := Function.update st.slots.lock (o, contract) (some t) } := by
  obtain ⟨⟨hfree, hx, hs⟩, hm, -⟩ := h
  refine ⟨hfree, hx, ?_⟩
  refine slots_hold (congrArg Scene.app hs) hm _ _ (fun k => ?_) (fun x hx => ?_) (fun k => rfl) fun x _ => rfl
  · exact (update_pair st.slots.lock o k contract (some t)).symm
  · exact Function.update_of_ne (fun he => hx (congrArg Prod.fst he)) ..

/-- Whether an instance is rejected does not depend on the path. -/
theorem rejection_isNone (provider : Provider κ) (instance_ : ι) (path path' : List κ) :
    c.rejection provider instance_ path = none ↔ c.rejection provider instance_ path' = none := by
  unfold Composition.rejection
  split_ifs <;> simp

theorem slots_factory {provider : Provider κ} {arguments : List (String × ι)} {x : Except (Failure κ) ι}
    (h : Turn c t request (.factory provider arguments) st x st') :
    st'.slots = { st.slots with made := madeBy c request st.made (.factory provider arguments) x } := by
  obtain ⟨⟨-, hs⟩, hm, -⟩ := h
  have happ : st'.scene.app = st.scene.app := by
    rw [hs]
    cases x <;> rfl
  unfold Stage.slots
  rw [happ, hm]

/-- A request context is closed: its slots are given up. -/
theorem slots_setClosed {id : ℕ} {x : Except (Failure κ) Unit} (h : Turn c t request (.act (.setClosed id)) st x st') :
    st'.slots = { st.slots with gone := fun y => Closed st'.scene.app y.1 } ∧
      (∀ o, Closed st.scene.app o → Closed st'.scene.app o) ∧ Closed st'.scene.app (.request id) := by
  obtain ⟨⟨-, hs⟩, hm, -⟩ := h
  have hclosed : st'.scene.app.closedRequests = id :: st.scene.app.closedRequests :=
    congrArg (fun s => s.app.closedRequests) hs
  refine ⟨?_, fun o ho => ?_, ?_⟩
  · have hh : st'.scene.app.holdings = st.scene.app.holdings := congrArg (fun s => s.app.holdings) hs
    unfold Stage.slots
    rw [hh, hm]
    rfl
  · cases o with
    | app => exact ho
    | request id' =>
      unfold Closed
      rw [hclosed]
      exact List.mem_cons_of_mem _ ho
  · unfold Closed
    rw [hclosed]
    exact List.mem_cons_self

/-- A request context forgets its instances. -/
theorem slots_clear {id : ℕ} {x : Except (Failure κ) Unit}
    (h : Turn c t request (.act (.clear (.request id))) st x st') :
    st'.slots = { st.slots with value := st'.slots.value } ∧
      ∀ y : Owner × κ, y.1 ≠ .request id → st'.slots.value y = st.slots.value y := by
  obtain ⟨⟨-, hs⟩, hm, -⟩ := h
  have happ := congrArg Scene.app hs
  have hh : st'.scene.app.holdings = Function.update st.scene.app.holdings (.request id)
    { st.scene.app.holdings (.request id) with instances := fun _ => none } := congrArg App.holdings happ
  have hvalue : ∀ y : Owner × κ, y.1 ≠ .request id → st'.slots.value y = st.slots.value y := by
    intro y hy
    show (st'.scene.app.holdings y.1).instances y.2 = _
    rw [hh, Function.update_of_ne hy]
    rfl
  refine ⟨slots_hold happ hm st.slots.lock st'.slots.value (fun k => rfl) (fun y _ => rfl) (fun k => ?_) hvalue, hvalue⟩
  show none = (st'.scene.app.holdings (.request id)).instances k
  rw [hh, Function.update_self]

/-- The requests that leave the slots alone. -/
def Quiet : Request κ ι → Prop
  | .act (.keep ..) => False
  | .act (.unlock ..) => False
  | .act (.clear _) => False
  | .act (.setClosed _) => False
  | .lock .. => False
  | .factory .. => False
  | _ => True

theorem Quiet.allowed {q : Request κ ι} (hq : Quiet q) : Allowed c t request st q := by
  cases q with
  | act a => cases a <;> first | exact hq.elim | trivial
  | lock o contract => exact hq.elim
  | factory provider arguments => exact hq.elim
  | _ => trivial

/-- An owner that takes a resource from its list keeps its locks and its instances. -/
theorem slots_pop {o : Owner} {x : Except (Failure κ) (Option (Provider κ × ι))}
    (h : Turn c t request (.act (.pop o)) st x st') : st'.slots = st.slots := by
  obtain ⟨⟨-, hs⟩, hm, -⟩ := h
  cases hlast : (st.scene.app.holdings o).owned.getLast? with
  | none =>
    have he : ((Act.pop o).exec c st.scene).2 = st.scene := by
      unfold Act.exec
      dsimp only
      rw [hlast]
    rw [he] at hs
    exact slots_congr (congrArg (fun s => s.app.holdings) hs) hm (congrArg (fun s => s.app.closedRequests) hs)
  | some y =>
    have he : ((Act.pop o).exec c st.scene).2 =
        st.scene.hold o { st.scene.app.holdings o with owned := (st.scene.app.holdings o).owned.dropLast } := by
      unfold Act.exec
      dsimp only
      rw [hlast]
    rw [he] at hs
    exact slots_hold (congrArg Scene.app hs) hm st.slots.lock st.slots.value (fun k => rfl) (fun y _ => rfl)
      (fun k => rfl) fun y _ => rfl

theorem Quiet.slots {q : Request κ ι} (hq : Quiet q) {x : Except (Failure κ) q.Reply}
    (h : Turn c t request q st x st') : st'.slots = st.slots := by
  have hidle : ∀ {s : Scene κ ι}, st'.scene = s → s.app.holdings = st.scene.app.holdings →
      s.app.closedRequests = st.scene.app.closedRequests → st'.made = st.made → st'.slots = st.slots :=
    fun hs hh hc hm => slots_congr ((congrArg (fun s => s.app.holdings) hs).trans hh) hm
      ((congrArg (fun s => s.app.closedRequests) hs).trans hc)
  cases q with
  | act a =>
    cases a with
    | pop o => exact slots_pop h
    | _ => first | exact hq.elim | exact hidle h.1.2 rfl rfl h.2.1
  | lock o contract => exact hq.elim
  | factory provider arguments => exact hq.elim
  | lockLifecycle => exact hidle h.1.2.2 rfl rfl h.2.1
  | close by_ provider instance_ => exact hidle h.1.2 rfl rfl h.2.1
  | startPlugin name => exact hidle h.1.2 rfl rfl h.2.1
  | stopPlugin name => exact hidle h.1.2 rfl rfl h.2.1
  | drained => exact hidle h.1.2.2 rfl rfl h.2.1

/-- What a factory returns is made for its owner, unless it is rejected. -/
theorem slots_made {provider : Provider κ} {arguments : List (String × ι)} {instance_ : ι} {o : Owner}
    (howner : ownerFor request provider = some o) (hrejection : c.rejection provider instance_ [] = none)
    (h : Turn c t request (.factory provider arguments) st (.ok instance_) st') :
    st'.slots = { st.slots with
      made := Function.update st.slots.made (o, provider.contract)
        (st.slots.made (o, provider.contract) ++ [instance_]) } := by
  rw [slots_factory h]
  simp [madeBy, howner, hrejection, Stage.slots]

/-- Nothing is made by a factory that fails, of an instance that is rejected, or where no owner keeps it. -/
theorem slots_unmade {provider : Provider κ} {arguments : List (String × ι)} {x : Except (Failure κ) ι}
    (hx : ∀ o instance_, x = .ok instance_ → ownerFor request provider = some o →
      c.rejection provider instance_ [] ≠ none)
    (h : Turn c t request (.factory provider arguments) st x st') : st'.slots = st.slots := by
  rw [slots_factory h]
  suffices hmade : madeBy c request st.made (.factory provider arguments) x = st.made by
    rw [hmade]
    rfl
  cases x with
  | error e => rfl
  | ok instance_ =>
    cases howner : ownerFor request provider with
    | none => simp [madeBy, howner]
    | some o =>
      cases hrejection : c.rejection provider instance_ [] with
      | none => exact absurd hrejection (hx o instance_ rfl howner)
      | some e => simp [madeBy, howner, hrejection]

/-- A turn that is allowed is a step on the slots. -/
theorem step_of_turn {q : Request κ ι} {x : Except (Failure κ) q.Reply} (hq : Allowed c t request st q)
    (h : Turn c t request q st x st') : Slots.Step t st.slots st'.slots := by
  have hidle : Quiet q → Slots.Step t st.slots st'.slots := fun hquiet => hquiet.slots h ▸ .idle
  cases q with
  | act a =>
    cases a with
    | keep o provider instance_ =>
      rw [slots_keep h]
      exact .keep _ _ hq.1 hq.2
    | unlock o contract =>
      rw [slots_unlock h]
      exact .unlock _ hq.1 hq.2
    | setClosed id =>
      obtain ⟨hs, hgrows, -⟩ := slots_setClosed h
      rw [hs]
      exact .leave _ fun y hy => hgrows y.1 hy
    | clear o =>
      cases o with
      | app => exact absurd trivial h.2.2
      | request id =>
        obtain ⟨hs, hvalue⟩ := slots_clear h
        rw [hs]
        refine .forget _ fun y hy => hvalue y fun he => hy ?_
        obtain ⟨o, k⟩ := y
        obtain rfl : o = .request id := he
        exact hq k
    | _ => exact hidle trivial
  | lock o contract =>
    obtain ⟨hfree, -, hs⟩ := slots_lock h
    rw [hs]
    exact .lock _ hfree
  | factory provider arguments =>
    by_cases hx : ∃ o instance_, x = .ok instance_ ∧ ownerFor request provider = some o ∧
        c.rejection provider instance_ [] = none
    · obtain ⟨o, instance_, rfl, howner, hrejection⟩ := hx
      obtain ⟨hlock, hempty⟩ := hq.2 o howner
      rw [slots_made howner hrejection h]
      exact .make _ _ hlock hempty
    · push Not at hx
      rw [slots_unmade hx h]
      exact .idle
  | _ => exact hidle trivial

end Effects

/-! ## A resolve among others -/

section Resolve

variable {c : Composition κ ι} {t : ℕ}
  {request : Option ℕ} {K : List (Owner × κ)}

/-- A task that holds these locks, of empty slots. -/
def Resting (t : ℕ) (K : List (Owner × κ)) (st : Stage κ ι) : Prop := st.slots.Sound ∧ Slots.Holds t K st.slots

/-- A task that holds these locks and that of a slot whose instance is at hand, if there is one. -/
def Done (t : ℕ) (x : Owner × κ) (K : List (Owner × κ)) (st : Stage κ ι) : Prop :=
  st.slots.Sound ∧ Slots.Settled t x K st.slots

/-- A task that holds these locks and that of a slot it has made an instance for. -/
def Made (t : ℕ) (x : Owner × κ) (K : List (Owner × κ)) (instance_ : ι) (st : Stage κ ι) : Prop :=
  st.slots.Sound ∧ Slots.Pending t x instance_ K st.slots

/-- The instance of a contract is the one that its owner keeps, while the owner is open. -/
def Given (c : Composition κ ι) (request : Option ℕ) (contract : κ) (instance_ : ι) (st : Stage κ ι) : Prop :=
  ∀ provider o, c.registry.get contract = some provider → ownerFor request provider = some o →
    ¬ Closed st.scene.app o → st.slots.value (o, contract) = some instance_

theorem stable_resting : (among c t request).Stable (Resting t K) := fun _ _ ho h => ⟨ho.sound h.1, h.2.others ho⟩

theorem stable_done {x : Owner × κ} : (among c t request).Stable (Done t x K) :=
  fun _ _ ho h => ⟨ho.sound h.1, h.2.others ho⟩

theorem stable_made {x : Owner × κ} {instance_ : ι} : (among c t request).Stable (Made t x K instance_) :=
  fun _ _ ho h => ⟨ho.sound h.1, h.2.others ho⟩

/-- A slot keeps this instance, while its owner is open. -/
def Keeps (x : Owner × κ) (instance_ : ι) (st : Stage κ ι) : Prop :=
  ¬ Closed st.scene.app x.1 → st.slots.value x = some instance_

omit [DecidableEq κ] in
theorem Keeps.others {x : Owner × κ} {instance_ : ι} {st st' : Stage κ ι} (h : Keeps x instance_ st)
    (ho : Slots.Others t st.slots st'.slots) : Keeps x instance_ st' :=
  fun hopen => ho.grows x _ hopen (h fun hclosed => hopen (ho.gone x hclosed))

theorem stable_keeps {x : Owner × κ} {instance_ : ι} : (among c t request).Stable (Keeps x instance_) :=
  fun _ _ ho h => h.others ho

theorem Given.others {contract : κ} {instance_ : ι} {st st' : Stage κ ι} (h : Given c request contract instance_ st)
    (ho : Slots.Others t st.slots st'.slots) : Given c request contract instance_ st' :=
  fun provider o hget howner => Keeps.others (x := (o, contract)) (h provider o hget howner) ho

theorem stable_supplied {dependencies : List (Dependency κ)} {arguments : List (String × ι)} :
    (among c t request).Stable (Supplied c request dependencies arguments) :=
  fun _ _ ho h => h.imp fun d _ hd =>
    ⟨hd.1, fun provider o hget howner => Keeps.others (x := (o, d.contract)) (hd.2 provider o hget howner) ho⟩

omit [DecidableEq κ] in
theorem resting_of_slots {st st' : Stage κ ι} (hs : st'.slots = st.slots) (h : Resting t K st) : Resting t K st' := by
  unfold Resting at h ⊢
  rwa [hs]

/-- What makes only quiet requests keeps the locks. -/
theorem triple_only_quiet {α : Type} {p : Coroutine κ ι α} (h : p.Only Quiet) :
    (among c t request).Triple (Resting t K) p (fun _ => Resting t K) fun _ => Resting t K := by
  refine World.Triple.of_only h stable_resting fun q st hq hst => ⟨hq.allowed, fun x st' hx => ?_⟩
  exact resting_of_slots (hq.slots hx) hst

/-- A look at a slot. -/
theorem triple_find {P : Stage κ ι → Prop} (hP : (among c t request).Stable P)
    (hslots : ∀ st st' : Stage κ ι, st'.slots = st.slots → P st → P st') (o : Owner) (contract : κ)
    {E : Failure κ → Stage κ ι → Prop} : (among c t request).Triple P (act (.find o contract))
      (fun x st => P st ∧ st.slots.value (o, contract) = x) E := by
  refine World.Triple.request hP fun st hst => ⟨trivial, fun x st' hx => ?_⟩
  have hs : st'.slots = st.slots := Quiet.slots (q := .act (.find o contract)) trivial hx
  obtain ⟨⟨rfl, -⟩, -, -⟩ := hx
  refine ⟨hslots st st' hs hst, ?_⟩
  rw [hs]
  rfl

/-- An instance that is kept stays. -/
theorem keeps_of_turn {q : Request κ ι} {st st' : Stage κ ι} {x : Except (Failure κ) q.Reply}
    (hq : (among c t request).allows q st) (h : (among c t request).answers q st x st')
    {y : Owner × κ} {i : ι} (hi : Keeps y i st) : Keeps y i st' :=
  hi.others ((step_of_turn hq h).others (Nat.succ_ne_self t))

/-- The arguments of a factory are the instances that its owners keep. -/
theorem triple_dependencies {resolve : κ → Coroutine κ ι ι} {dependencies : List (Dependency κ)}
    (hresolve : ∀ d ∈ dependencies, (among c t request).Triple (Resting t K) (resolve d.contract)
      (fun i st => Resting t K st ∧ Given c request d.contract i st) fun _ => Resting t K) :
    (among c t request).Triple (Resting t K) (Composition.resolveDependencies resolve dependencies)
      (fun arguments st => Resting t K st ∧ Supplied c request dependencies arguments st) fun _ => Resting t K := by
  induction dependencies with
  | nil => exact World.Triple.pure fun st hst => ⟨hst, .nil⟩
  | cons d dependencies ih =>
    obtain ⟨hd, hrest⟩ := List.forall_mem_cons.mp hresolve
    refine hd.bind fun instance_ => ?_
    have hframe : (among c t request).Stable (Given c request d.contract instance_) := fun _ _ ho h => h.others ho
    have hrest' := (ih hrest).frame hframe fun q st x st' hq hx h provider o hget howner =>
      keeps_of_turn (y := (o, d.contract)) hq hx (h provider o hget howner)
    refine World.Triple.bind (hrest'.weaken (fun st hst => ⟨hst.2, hst.1⟩) (fun _ _ h => h) fun _ _ h => h.2)
      fun arguments => ?_
    exact World.Triple.pure fun st hst => ⟨hst.2.1, .cons ⟨rfl, hst.1⟩ hst.2.2⟩

/-- An instance is made for a slot that its owner holds, or for nobody. -/
theorem triple_createInstance {resolve : κ → Coroutine κ ι ι} {provider : Provider κ} {M : ι → Stage κ ι → Prop}
    (hresolve : ∀ d ∈ provider.dependencies, (among c t request).Triple (Resting t K) (resolve d.contract)
      (fun i st => Resting t K st ∧ Given c request d.contract i st) fun _ => Resting t K)
    (howner : ∀ o, ownerFor request provider = some o → (o, provider.contract) ∈ K)
    (hmade : ∀ st st' arguments instance_, Resting t K st → c.rejection provider instance_ [] = none →
      Turn c t request (.factory provider arguments) st (.ok instance_) st' → M instance_ st')
    (path : List κ) :
    (among c t request).Triple (Resting t K) (c.createInstance resolve provider path) M fun _ => Resting t K := by
  refine (triple_dependencies hresolve).bind fun arguments => ?_
  have hstable : (among c t request).Stable fun st =>
      Resting t K st ∧ Supplied c request provider.dependencies arguments st := stable_resting.and stable_supplied
  have hfactory : (among c t request).Triple
      (fun st => Resting t K st ∧ Supplied c request provider.dependencies arguments st)
      (await (.factory provider arguments))
      (fun i st => (c.rejection provider i [] = none → M i st) ∧ (c.rejection provider i [] ≠ none → Resting t K st))
      (fun _ => Resting t K) := by
    refine World.Triple.request hstable fun st hst => ⟨⟨hst.2, fun o ho => ?_⟩, fun x st' hx => ?_⟩
    · exact ⟨(hst.1.2.lock _).mpr (howner o ho), hst.1.2.empty _ (howner o ho)⟩
    · cases x with
      | error e => exact resting_of_slots (slots_unmade (fun _ _ h => by cases h) hx) hst.1
      | ok instance_ =>
        refine ⟨fun hr => hmade st st' arguments instance_ hst.1 hr hx, fun hr => ?_⟩
        refine resting_of_slots (slots_unmade ?_ hx) hst.1
        rintro o i ⟨⟩ _
        exact hr
  refine World.Triple.bind hfactory.attempt fun x => ?_
  cases x with
  | error e =>
    dsimp only
    split_ifs <;> exact World.Triple.raise fun st hst => hst
  | ok instance_ =>
    dsimp only
    cases hr : c.rejection provider instance_ path with
    | none =>
      have hr' := (rejection_isNone provider instance_ path []).mp hr
      exact World.Triple.pure fun st hst => hst.1 hr'
    | some e =>
      have hr' : c.rejection provider instance_ [] ≠ none := fun h => by
        cases hr.symm.trans ((rejection_isNone provider instance_ [] path).mp h)
      have hclose : (c.closeResource none provider instance_).Only Quiet := by
        unfold Composition.closeResource
        split_ifs
        · exact Proc.only_request trivial
        · trivial
      exact World.Triple.bind (World.Triple.pre (triple_only_quiet hclose) fun st hst => hst.2 hr') fun _ =>
        World.Triple.raise fun st hst => hst

/-- Under the lock of a slot, an instance is found or made. -/
theorem triple_createHeld {create : Coroutine κ ι ι} {o : Owner} {provider : Provider κ}
    (hK : (o, provider.contract) ∉ K)
    (hcreate : (among c t request).Triple (Resting t ((o, provider.contract) :: K)) create
      (Made t (o, provider.contract) K) fun _ => Resting t ((o, provider.contract) :: K)) :
    (among c t request).Triple (Done t (o, provider.contract) K) (Composition.createHeld create o provider)
      (fun i st => Keeps (o, provider.contract) i st ∧ Done t (o, provider.contract) K st)
      fun _ => Done t (o, provider.contract) K := by
  have hdone : ∀ st st' : Stage κ ι, st'.slots = st.slots → Done t (o, provider.contract) K st →
      Done t (o, provider.contract) K st' := by
    intro st st' hs h
    unfold Done at h ⊢
    rwa [hs]
  refine World.Triple.bind (triple_find stable_done hdone o provider.contract) fun x => ?_
  cases x with
  | some existing => exact World.Triple.pure fun st hst => ⟨fun _ => hst.2, hst.1⟩
  | none =>
    refine World.Triple.bind (hcreate.weaken (fun st hst => ⟨hst.1.1, hst.1.2.holds hst.2⟩) (fun _ _ h => h)
      fun _ st hst => ⟨hst.1, hst.2.settled⟩) fun instance_ => ?_
    have hkeep : (among c t request).Triple (Made t (o, provider.contract) K instance_)
        (act (.keep o provider instance_))
        (fun _ st => Keeps (o, provider.contract) instance_ st ∧ Done t (o, provider.contract) K st)
        fun _ => Done t (o, provider.contract) K := by
      refine World.Triple.request stable_made fun st hst => ?_
      have hallowed : Allowed c t request st (.act (.keep o provider instance_)) :=
        ⟨(hst.2.lock _).mpr List.mem_cons_self, hst.2.pending⟩
      refine ⟨hallowed, fun x st' hx => ?_⟩
      obtain rfl : x = .ok () := hx.1.1
      refine ⟨fun _ => ?_, (step_of_turn hallowed hx).sound hst.1, ?_⟩
      · rw [slots_keep hx]
        exact Function.update_self ..
      · rw [slots_keep hx]
        exact hst.2.keep hK
    exact World.Triple.bind hkeep fun _ => World.Triple.pure fun st hst => hst

/-- An instance is found, or made under the lock of its slot. -/
theorem triple_resolveHeld {create : Coroutine κ ι ι} {o : Owner} {provider : Provider κ}
    (horder : ∀ x ∈ K, Relation.TransGen c.registry.DependsOn x.2 provider.contract)
    (hcreate : (o, provider.contract) ∉ K → (among c t request).Triple (Resting t ((o, provider.contract) :: K))
      create (Made t (o, provider.contract) K) fun _ => Resting t ((o, provider.contract) :: K)) :
    (among c t request).Triple (Resting t K) (Composition.resolveHeld create o provider)
      (fun i st => Keeps (o, provider.contract) i st ∧ Resting t K st) fun _ => Resting t K := by
  refine World.Triple.bind (triple_find stable_resting (fun _ _ => resting_of_slots) o provider.contract) fun x => ?_
  cases x with
  | some existing => exact World.Triple.pure fun st hst => ⟨fun _ => hst.2, hst.1⟩
  | none =>
    have hlock : (among c t request).Triple (Resting t K) (await (.lock o provider.contract))
        (fun _ st => (o, provider.contract) ∉ K ∧ Done t (o, provider.contract) K st) fun _ => Resting t K := by
      refine World.Triple.request stable_resting fun st hst => ?_
      have hallowed : Allowed c t request st (.lock o provider.contract) :=
        fun y hy => horder y ((hst.2.lock y).mp hy)
      refine ⟨hallowed, fun x st' hx => ?_⟩
      obtain ⟨hfree, rfl, hs⟩ := slots_lock hx
      obtain ⟨hK, hdone⟩ := hst.2.take hst.1 hfree
      refine ⟨hK, (step_of_turn hallowed hx).sound hst.1, ?_⟩
      rw [hs]
      exact hdone
    refine World.Triple.bind (hlock.pre fun st hst => hst.1) fun _ => World.Triple.assume fun hK => ?_
    have hunlock : ∀ {P : Stage κ ι → Prop}, (among c t request).Stable P →
        (∀ q st x st', (among c t request).allows q st → (among c t request).answers q st x st' → P st →
          P st') →
        (among c t request).Triple (fun st => P st ∧ Done t (o, provider.contract) K st)
          (act (.unlock o provider.contract)) (fun _ st => P st ∧ Resting t K st) fun _ => Resting t K := by
      intro P hP hstep
      refine World.Triple.request (hP.and stable_done) fun st hst => ?_
      have hallowed : Allowed c t request st (.act (.unlock o provider.contract)) :=
        ⟨(hst.2.2.lock _).mpr List.mem_cons_self, hst.2.2.settled⟩
      refine ⟨hallowed, fun x st' hx => ?_⟩
      obtain rfl : x = .ok () := hx.1.1
      refine ⟨hstep (.act (.unlock o provider.contract)) st _ st' hallowed hx hst.1,
        (step_of_turn hallowed hx).sound hst.2.1, ?_⟩
      rw [slots_unlock hx]
      exact hst.2.2.release hK
    refine World.Triple.finally' (triple_createHeld hK (hcreate hK)) (fun i => ?_) fun e => ?_
    · exact hunlock stable_keeps fun q st x st' hq hx h => keeps_of_turn hq hx h
    · refine World.Triple.weaken (hunlock (P := fun _ => True) (fun _ _ _ h => h) fun _ _ _ _ _ _ h => h)
        (fun st hst => ⟨trivial, hst⟩) (fun _ _ h => h.2) fun _ _ h => h

/-- **A resolve among others** gets the instance that is kept for its owner, and gives all its locks back. -/
theorem triple_resolve (depth : ℕ) (path : List κ) (contract : κ)
    (horder : ∀ x ∈ K, Relation.TransGen c.registry.DependsOn x.2 contract) :
    (among c t request).Triple (Resting t K) (c.resolve request depth path contract)
      (fun i st => Resting t K st ∧ Given c request contract i st) fun _ => Resting t K := by
  induction depth generalizing path contract K with
  | zero => exact World.Triple.raise fun st hst => hst
  | succ depth ih =>
    unfold Composition.resolve
    cases hget : c.registry.get contract with
    | none => exact World.Triple.raise fun st hst => hst
    | some provider =>
      obtain rfl : provider.contract = contract := c.registry.keyed contract provider hget
      have hdepends : ∀ d ∈ provider.dependencies, c.registry.DependsOn provider.contract d.contract :=
        fun d hd => (ProviderRegistry.dependsOn_iff hget).mpr (List.mem_map_of_mem hd)
      have hgiven : ∀ {o : Owner} {i : ι} {st : Stage κ ι}, ownerFor request provider = some o →
          Keeps (o, provider.contract) i st → Given c request provider.contract i st := by
        intro o i st howner hkeeps provider' o' hget' howner'
        obtain rfl := Option.some.inj (hget.symm.trans hget')
        obtain rfl := Option.some.inj (howner.symm.trans howner')
        exact hkeeps
      have hheld : ∀ o, ownerFor request provider = some o → (among c t request).Triple (Resting t K)
          (Composition.resolveHeld (c.createInstance (c.resolve request depth (path ++ [provider.contract])) provider
            (path ++ [provider.contract])) o provider)
          (fun i st => Resting t K st ∧ Given c request provider.contract i st) fun _ => Resting t K := by
        intro o howner
        refine (triple_resolveHeld horder fun hK => ?_).weaken (fun _ h => h)
          (fun i st h => ⟨h.2, hgiven howner h.1⟩) fun _ _ h => h
        refine triple_createInstance (fun d hd => ih _ d.contract fun x hx => ?_) (fun o' ho' => ?_) ?_ _
        · rcases List.mem_cons.mp hx with rfl | hx
          · exact .single (hdepends d hd)
          · exact (horder x hx).tail (hdepends d hd)
        · obtain rfl := Option.some.inj (howner.symm.trans ho')
          exact List.mem_cons_self
        · intro st st' arguments instance_ hst hr hx
          have hstep : Slots.Step t st.slots st'.slots := by
            rw [slots_made howner hr hx]
            exact .make _ _ ((hst.2.lock _).mpr List.mem_cons_self) (hst.2.empty _ List.mem_cons_self)
          refine ⟨hstep.sound hst.1, ?_⟩
          rw [slots_made howner hr hx]
          exact hst.2.make hK
      have hnone : ownerFor request provider = none → (among c t request).Triple (Resting t K)
          (c.createInstance (c.resolve request depth (path ++ [provider.contract])) provider
            (path ++ [provider.contract]))
          (fun i st => Resting t K st ∧ Given c request provider.contract i st) fun _ => Resting t K := by
        intro howner
        refine (triple_createInstance (M := fun _ => Resting t K) (fun d hd => ih _ d.contract fun x hx => ?_)
          (fun o ho => ?_) ?_ _).weaken (fun _ h => h) (fun i st h => ⟨h, ?_⟩) fun _ _ h => h
        · exact (horder x hx).tail (hdepends d hd)
        · cases howner.symm.trans ho
        · intro st st' arguments instance_ hst _ hx
          refine resting_of_slots (slots_unmade ?_ hx) hst
          intro o i _ ho
          cases howner.symm.trans ho
        · intro provider' o hget' ho
          obtain rfl := Option.some.inj (hget.symm.trans hget')
          cases howner.symm.trans ho
      dsimp only
      cases hscope : provider.scope with
      | app => exact hheld .app (by simp [ownerFor, hscope])
      | request =>
        cases request with
        | none => exact World.Triple.raise fun st hst => hst
        | some id => exact hheld (.request id) (by simp [ownerFor, hscope])
      | transient => exact hnone (by simp [ownerFor, hscope])

end Resolve

/-! ## The calls -/

/-- A call of an application or of one of its request contexts. -/
inductive Call (κ : Type)
  | start
  /-- `request_context`, on the way in -/
  | enter
  /-- `App.resolve`, in a task with this request context -/
  | resolve (current : Option ℕ) (contract : κ)
  /-- `RequestContext.resolve` -/
  | requestResolve (id : ℕ) (contract : κ)
  /-- `RequestContext.close` -/
  | close (id : ℕ)
  /-- `request_context`, on the way out -/
  | leave (id : ℕ)

namespace Call

/-- The request that a call resolves for. -/
def request : Call κ → Option ℕ
  | resolve current _ => current
  | requestResolve id _ => some id
  | _ => none

/-- What a call resolves. -/
def contract? : Call κ → Option κ
  | resolve _ contract => some contract
  | requestResolve _ contract => some contract
  | _ => none

/-- What a call does; it returns an instance, if it resolves one. -/
def code (c : Composition κ ι) : Call κ → Coroutine κ ι (Option ι)
  | start => do
    c.start
    return none
  | enter => do
    let _ ← Composition.enterRequest
    return none
  | resolve current contract => do
    let instance_ ← c.appResolve current contract
    return some instance_
  | requestResolve id contract => do
    let instance_ ← c.requestResolve id contract
    return some instance_
  | close id => do
    c.closeRequest id
    return none
  | leave id => do
    c.leaveRequest id
    return none

end Call

/-- What a call ends with: no lock, and the instance that is kept while its owner is open. -/
def Answered (c : Composition κ ι) (t : ℕ) (call : Call κ) (x : Except (Failure κ) (Option ι)) (st : Stage κ ι) :
    Prop :=
  Resting t [] st ∧ ∀ instance_ contract, x = .ok (some instance_) → call.contract? = some contract →
    Given c call.request contract instance_ st

section Calls

variable {c : Composition κ ι} {t : ℕ} {request : Option ℕ} {K : List (Owner × κ)}

omit [DecidableEq κ] in
theorem only_stopEntries (names : List String) : (stopEntries (κ := κ) (ι := ι) names).Only Quiet := by
  induction names with
  | nil => trivial
  | cons name names ih =>
    refine Proc.Only.bind (Proc.only_request trivial) fun state => ?_
    split_ifs
    · exact ih
    · refine Proc.Only.bind (Proc.only_request trivial).attempt fun x => ?_
      cases x with
      | ok a => exact Proc.Only.bind (Proc.only_request trivial) fun _ => ih
      | error e =>
        refine Proc.Only.bind (Proc.only_request trivial) fun _ => ?_
        split_ifs
        · exact Proc.Only.bind ih fun _ => trivial
        · trivial

omit [DecidableEq κ] in
theorem only_startEntries (names started : List String) :
    (startEntries (κ := κ) (ι := ι) names started).Only Quiet := by
  induction names generalizing started with
  | nil => trivial
  | cons name names ih =>
    refine Proc.Only.bind (Proc.only_request trivial).attempt fun x => ?_
    cases x with
    | ok a => exact Proc.Only.bind (Proc.only_request trivial) fun _ => ih _
    | error e =>
      refine Proc.Only.bind (only_stopEntries started) fun cleanup => ?_
      split_ifs <;> trivial

omit [DecidableEq κ] in
theorem only_startAll : (startAll (κ := κ) (ι := ι)).Only Quiet :=
  Proc.Only.bind (Proc.only_request trivial) fun names => only_startEntries names []

/-- A start resolves one eager provider after the other. -/
theorem triple_startEager (plan : List (Provider κ)) :
    (among c t none).Triple (Resting t []) (c.startEager plan) (fun _ => Resting t []) fun _ => Resting t [] := by
  induction plan with
  | nil => exact World.Triple.pure fun _ h => h
  | cons provider plan ih =>
    rw [Composition.startEager]
    split_ifs
    · refine World.Triple.bind (triple_resolve c.depth [] provider.contract (by simp)) fun i => ?_
      exact ih.pre fun st hst => hst.1
    · exact ih

theorem triple_startUp :
    (among c t none).Triple (Resting t []) c.startUp (fun _ => Resting t []) fun _ => Resting t [] := by
  refine World.Triple.bind (triple_only_quiet (Proc.only_request trivial)) fun validated => ?_
  have hplan : (c.planOr validated).Only Quiet := by
    unfold Composition.planOr
    split
    · trivial
    · exact Proc.only_ofExcept _
  refine World.Triple.bind (triple_only_quiet hplan) fun plan => ?_
  refine World.Triple.bind (triple_only_quiet (Proc.only_request trivial)) fun _ => ?_
  exact World.Triple.bind (triple_startEager plan) fun _ => triple_only_quiet only_startAll

theorem only_closeLoop (o : Owner) (n : ℕ) : (c.closeLoop o n).Only Quiet := by
  induction n with
  | zero => trivial
  | succ n ih =>
    refine Proc.Only.bind (Proc.only_request trivial) fun x => ?_
    cases x with
    | none => trivial
    | some y =>
      have hclose : (c.closeResource (some o) y.1 y.2).Only Quiet := by
        unfold Composition.closeResource
        split_ifs
        · exact Proc.only_request trivial
        · trivial
      refine Proc.Only.bind hclose.attempt fun x => ?_
      cases x with
      | ok a => exact ih
      | error e => exact Proc.Only.bind ih fun _ => trivial

/-- An owner closes its resources one by one, and keeps its instances and its locks meanwhile. -/
theorem only_closeOwned (o : Owner) : (c.closeOwned o).Only Quiet := only_closeLoop o c.depth

/-- A request context is closed, and then forgets its instances. -/
theorem triple_closeRequest (id : ℕ) :
    (among c t request).Triple (Resting t []) (c.closeRequest id) (fun _ => Resting t []) fun _ => Resting t [] := by
  have hgone : (among c t request).Stable fun st => ∀ contract, st.slots.gone (.request id, contract) :=
    fun _ _ ho h contract => ho.gone _ (h contract)
  refine World.Triple.bind (triple_only_quiet (Proc.only_request trivial)) fun closed => ?_
  split_ifs
  · exact World.Triple.pure fun _ h => h
  · have hset : (among c t request).Triple (Resting t []) (act (.setClosed id))
        (fun _ st => (∀ contract, st.slots.gone (.request id, contract)) ∧ Resting t [] st) fun _ => Resting t [] := by
      refine World.Triple.request stable_resting fun st hst => ⟨trivial, fun x st' hx => ?_⟩
      obtain rfl : x = .ok () := hx.1.1
      obtain ⟨hs, hgrows, hclosed⟩ := slots_setClosed hx
      refine ⟨fun _ => hclosed, (step_of_turn (q := .act (.setClosed id)) trivial hx).sound hst.1, ?_⟩
      rw [hs]
      exact hst.2.leave fun y hy => hgrows y.1 hy
    have hclear : (among c t request).Triple
        (fun st => (∀ contract, st.slots.gone (.request id, contract)) ∧ Resting t [] st) (act (.clear (.request id)))
        (fun _ => Resting t []) fun _ => Resting t [] := by
      refine World.Triple.request (hgone.and stable_resting) fun st hst => ⟨hst.1, fun x st' hx => ?_⟩
      obtain rfl : x = .ok () := hx.1.1
      obtain ⟨hs, hvalue⟩ := slots_clear hx
      refine ⟨(step_of_turn (q := .act (.clear (.request id))) hst.1 hx).sound hst.2.1, ?_⟩
      rw [hs]
      refine hst.2.2.forget fun y hy => hvalue y fun he => hy ?_
      obtain ⟨o, k⟩ := y
      obtain rfl : o = .request id := he
      exact hst.1 k
    have hquiet : (among c t request).Triple (Resting t []) (c.closeOwned (.request id)) (fun _ => Resting t [])
        fun _ => Resting t [] := triple_only_quiet (only_closeOwned (.request id))
    have hclose := hquiet.frame hgone fun q st x st' hq hx h contract =>
        ((step_of_turn hq hx).others (Nat.succ_ne_self t)).gone _ (h contract)
    refine World.Triple.bind hset fun _ => ?_
    refine World.Triple.bind (hclose.weaken (fun _ h => h) (fun _ _ h => h) fun _ _ h => h.2) fun failures => ?_
    refine World.Triple.bind hclear fun _ => ?_
    unfold raiseShutdown
    split_ifs
    · exact World.Triple.pure fun _ h => h
    · exact World.Triple.raise fun _ h => h

theorem triple_leaveRequest (id : ℕ) :
    (among c t request).Triple (Resting t []) (c.leaveRequest id) (fun _ => Resting t []) fun _ => Resting t [] := by
  have hdiscard : (among c t request).Triple (Resting t []) (act (.discard id)) (fun _ => Resting t [])
      fun _ => Resting t [] := triple_only_quiet (Proc.only_request trivial)
  exact World.Triple.finally' (triple_closeRequest id) (fun _ => hdiscard) fun _ => hdiscard

/-- Where the application is about to forget its instances, the run is over. -/
theorem triple_clear_app {P : Stage κ ι → Prop} {M : Unit → Stage κ ι → Prop} {E : Failure κ → Stage κ ι → Prop} :
    (among c t request).Triple P (act (.clear .app)) M E := by
  intro st _ st' _
  exact ⟨trivial, fun x st'' hx => absurd trivial hx.2.2⟩

theorem triple_start :
    (among c t none).Triple (Resting t []) c.start (fun _ => Resting t []) fun _ => Resting t [] := by
  have hquiet : ∀ {q : Request κ ι}, Quiet q →
      (among c t none).Triple (Resting t []) (Proc.request q) (fun _ => Resting t []) fun _ => Resting t [] :=
    fun hq => triple_only_quiet (Proc.only_request hq)
  have hlocked : (among c t none).Triple (Resting t []) c.startLocked (fun _ => Resting t [])
      fun _ => Resting t [] := by
    refine World.Triple.bind (hquiet trivial) fun state => ?_
    split_ifs
    · exact World.Triple.pure fun _ h => h
    · exact World.Triple.raise fun _ h => h
    · refine World.Triple.bind (hquiet trivial) fun _ => ?_
      refine World.Triple.bind (World.Triple.attempt triple_startUp) fun x => ?_
      cases x with
      | error e =>
        refine World.Triple.bind (triple_only_quiet (only_closeOwned .app)) fun failures => ?_
        exact World.Triple.bind (triple_clear_app (M := fun _ _ => False)) fun _ => World.Triple.of_false
      | ok _ => exact World.Triple.bind (hquiet trivial) fun _ => World.Triple.pure fun _ h => h
  refine World.Triple.bind (hquiet trivial) fun _ => ?_
  exact World.Triple.finally' hlocked (fun _ => hquiet trivial) fun _ => hquiet trivial

theorem triple_ensureReady (action : String) :
    (among c t request).Triple (Resting t []) (Composition.ensureReady action) (fun _ => Resting t [])
      fun _ => Resting t [] := by
  refine triple_only_quiet (Proc.Only.bind (Proc.only_request trivial) fun state => ?_)
  split_ifs <;> trivial

theorem triple_enter :
    (among c t request).Triple (Resting t []) (Composition.enterRequest (κ := κ) (ι := ι)) (fun _ => Resting t [])
      fun _ => Resting t [] :=
  World.Triple.bind (triple_ensureReady _) fun _ =>
    triple_only_quiet (Proc.only_request trivial (q := Request.act .openRequest))

theorem triple_appResolve (contract : κ) :
    (among c t request).Triple (Resting t []) (c.appResolve request contract)
      (fun i st => Resting t [] st ∧ Given c request contract i st) fun _ => Resting t [] :=
  World.Triple.bind (triple_ensureReady _) fun _ => triple_resolve c.depth [] contract (by simp)

theorem triple_requestResolve (id : ℕ) (contract : κ) :
    (among c t (some id)).Triple (Resting t []) (c.requestResolve id contract)
      (fun i st => Resting t [] st ∧ Given c (some id) contract i st) fun _ => Resting t [] := by
  refine World.Triple.bind (triple_only_quiet (Proc.only_request trivial)) fun closed => ?_
  split_ifs
  · exact World.Triple.raise fun _ h => h
  · exact triple_resolve c.depth [] contract (by simp)

/-- **A call among others** ends without a lock, and resolves to the instance that is kept. -/
theorem wp_code (call : Call κ) {st : Stage κ ι} (hst : Resting t [] st) :
    (call.code c).wp (among c t call.request) (Answered c t call) st := by
  have hcall : (among c t call.request).Triple (Resting t []) (call.code c)
      (fun x st => Answered c t call (.ok x) st) fun e st => Answered c t call (.error e) st := by
    have hnone : ∀ {st : Stage κ ι}, Resting t [] st → Answered c t call (.ok none) st :=
      fun h => ⟨h, fun _ _ hx => by cases hx⟩
    have herror : ∀ (e : Failure κ) (st : Stage κ ι), Resting t [] st → Answered c t call (.error e) st :=
      fun e st h => ⟨h, fun _ _ hx => by cases hx⟩
    cases call with
    | start =>
      exact World.Triple.bind (triple_start.weaken (fun _ h => h) (fun _ _ h => h) herror) fun _ =>
        World.Triple.pure fun st h => hnone h
    | enter =>
      exact World.Triple.bind (triple_enter.weaken (fun _ h => h) (fun _ _ h => h) herror) fun _ =>
        World.Triple.pure fun st h => hnone h
    | resolve current contract =>
      refine World.Triple.bind ((triple_appResolve contract).weaken (fun _ h => h) (fun _ _ h => h) herror) fun i => ?_
      refine World.Triple.pure fun st h => ⟨h.1, ?_⟩
      rintro _ _ ⟨⟩ ⟨⟩
      exact h.2
    | requestResolve id contract =>
      refine World.Triple.bind ((triple_requestResolve id contract).weaken (fun _ h => h) (fun _ _ h => h) herror)
        fun i => ?_
      refine World.Triple.pure fun st h => ⟨h.1, ?_⟩
      rintro _ _ ⟨⟩ ⟨⟩
      exact h.2
    | close id =>
      exact World.Triple.bind ((triple_closeRequest id).weaken (fun _ h => h) (fun _ _ h => h) herror) fun _ =>
        World.Triple.pure fun st h => hnone h
    | leave id =>
      exact World.Triple.bind ((triple_leaveRequest id).weaken (fun _ h => h) (fun _ _ h => h) herror) fun _ =>
        World.Triple.pure fun st h => hnone h
  refine Proc.wp_mono (hcall st hst) fun x st hx => ?_
  cases x <;> exact hx

end Calls

/-! ## Any number of calls -/

/-- A call that runs. -/
structure Running (κ ι : Type) where
  call : Call κ
  todo : Coroutine κ ι (Option ι)

/-- An application with the calls that were begun; a task is named by its place. -/
structure Sys (κ ι : Type) where
  stage : Stage κ ι
  tasks : List (Running κ ι) := []

namespace Sys

/-- A call is begun, or one of the calls takes a turn. -/
inductive Step (c : Composition κ ι) (s : Sys κ ι) : Sys κ ι → Prop
  | begin (call : Call κ) : Step c s { s with tasks := s.tasks ++ [⟨call, call.code c⟩] }
  | turn (t : ℕ) (call : Call κ) (q : Request κ ι) (k : Except (Failure κ) q.Reply → Coroutine κ ι (Option ι))
    (x : Except (Failure κ) q.Reply) (st' : Stage κ ι) (task : s.tasks[t]? = some ⟨call, .ask q k⟩)
    (answer : Turn c t call.request q s.stage x st') :
    Step c s { stage := st', tasks := s.tasks.set t ⟨call, k x⟩ }

/-- A task asks for a lock. -/
def Asks (s : Sys κ ι) (t : ℕ) (x : Owner × κ) : Prop :=
  ∃ call k, s.tasks[t]? = some ⟨call, .ask (.lock x.1 x.2) k⟩

/-- What stays true of the calls. -/
structure Inv (c : Composition κ ι) (s : Sys κ ι) : Prop where
  sound : s.stage.slots.Sound
  tasks : ∀ (t : ℕ) (task : Running κ ι), s.tasks[t]? = some task →
    task.todo.wp (among c t task.call.request) (Answered c t task.call) s.stage
  holders : ∀ t x, s.stage.slots.lock x = some t → t < s.tasks.length

section Inv

variable {c : Composition κ ι} {s s' : Sys κ ι}

theorem answered_others {t : ℕ} {call : Call κ} {x : Except (Failure κ) (Option ι)} {st st' : Stage κ ι}
    (h : Answered c t call x st) (ho : Slots.Others t st.slots st'.slots) : Answered c t call x st' :=
  ⟨⟨ho.sound h.1.1, h.1.2.others ho⟩, fun i contract hx hcall => (h.2 i contract hx hcall).others ho⟩

theorem Inv.step (h : Inv c s) (hstep : Step c s s') : Inv c s' := by
  cases hstep with
  | begin call =>
    refine ⟨h.sound, fun t task htask => ?_, fun t x hx => ?_⟩
    · dsimp only at htask ⊢
      rcases Nat.lt_trichotomy t s.tasks.length with hlt | rfl | hlt
      · rw [List.getElem?_append_left hlt] at htask
        exact h.tasks t task htask
      · obtain rfl : task = ⟨call, call.code c⟩ := by simpa using htask.symm
        refine wp_code call ⟨h.sound, fun x => ⟨fun hx => ?_, fun hx => by simp at hx⟩, by simp⟩
        exact absurd (h.holders _ x hx) (Nat.lt_irrefl _)
      · rw [List.getElem?_eq_none (by simpa [Nat.add_one_le_iff] using hlt)] at htask
        cases htask
    · have := h.holders t x hx
      simp only [List.length_append, List.length_singleton]
      omega
  | turn t call q k x st' htask hanswer =>
    obtain ⟨hallows, hrest⟩ := Proc.wp_turn (h.tasks t _ htask)
    have hturn : Slots.Step t s.stage.slots st'.slots := step_of_turn hallows hanswer
    have hlt : t < s.tasks.length := (List.getElem?_eq_some_iff.mp htask).1
    refine ⟨hturn.sound h.sound, fun t' task' htask' => ?_, fun t' x' hx' => ?_⟩
    · rcases eq_or_ne t' t with rfl | hne
      · obtain rfl : task' = ⟨call, k x⟩ := by simpa [hlt] using htask'.symm
        exact hrest x st' hanswer
      · have htask'' : s.tasks[t']? = some task' := by simpa [List.getElem?_set_ne hne.symm] using htask'
        exact Proc.wp_of_interferes (fun x _ hx => answered_others hx (hturn.others hne)) (h.tasks t' task' htask'')
          (hturn.others hne)
    · rw [List.length_set]
      rcases eq_or_ne t' t with rfl | hne
      · exact hlt
      · exact h.holders t' x' ((hturn.others hne).only x' hx')

/-- An application that has not resolved anything. -/
def initial (app : App κ ι) : Sys κ ι := { stage := { scene := { app := { app with holdings := fun _ => {} } } } }

omit [DecidableEq κ] in
theorem initial_slots (app : App κ ι) : (initial app).stage.slots = { gone := fun y => Closed app y.1 } := rfl

theorem inv_initial (app : App κ ι) : Inv c (initial app) :=
  ⟨Slots.sound_empty _, fun _ _ h => by simp [initial] at h, fun _ _ h => by simp [initial_slots] at h⟩

theorem inv_of_run {app : App κ ι} (h : Relation.ReflTransGen (Step c) (initial app) s) : Inv c s := by
  induction h with
  | refl => exact inv_initial app
  | tail _ hstep ih => exact ih.step hstep

end Inv

/-! ### The promise -/

/-- What the calls have of each other, for the application and for the request contexts that are open. -/
structure Shared (c : Composition κ ι) (s : Sys κ ι) : Prop where
  /-- an owner gets one instance of a contract at most -/
  once : ∀ o contract, ¬ Closed s.stage.scene.app o → (s.stage.made (o, contract)).length ≤ 1
  /-- and it keeps that one -/
  kept : ∀ o contract instance_, ¬ Closed s.stage.scene.app o →
    (s.stage.scene.app.holdings o).instances contract = some instance_ → s.stage.made (o, contract) = [instance_]
  /-- a call returns the instance that is kept for its owner -/
  returned : ∀ (t : ℕ) (call : Call κ) contract instance_ provider o,
    s.tasks[t]? = some ⟨call, .ret (some instance_)⟩ →
    call.contract? = some contract → c.registry.get contract = some provider →
    ownerFor call.request provider = some o → ¬ Closed s.stage.scene.app o →
    (s.stage.scene.app.holdings o).instances contract = some instance_
  /-- a factory is called with instances that are kept -/
  supplied : ∀ (t : ℕ) (call : Call κ) provider arguments k,
    s.tasks[t]? = some ⟨call, .ask (.factory provider arguments) k⟩ →
    Supplied c call.request provider.dependencies arguments s.stage
  /-- a lock is held by a call that goes on -/
  held : ∀ o contract t, (s.stage.scene.app.holdings o).locks contract = some t →
    ∃ task, s.tasks[t]? = some task ∧ task.todo.ended = none
  /-- where no call holds the lock and nothing is kept, nothing was made, and the next call that comes tries again -/
  retried : ∀ o contract, ¬ Closed s.stage.scene.app o → (s.stage.scene.app.holdings o).locks contract = none →
    (s.stage.scene.app.holdings o).instances contract = none → s.stage.made (o, contract) = []
  /-- calls do not wait for each other's locks in a circle -/
  uncircled : ∀ t, ¬ Relation.TransGen (WaitsFor s.Asks s.stage.slots.lock) t t
  /-- so one of the calls that have not ended waits for no lock that is held -/
  moving : (∃ (t : ℕ) (task : Running κ ι), s.tasks[t]? = some task ∧ task.todo.ended = none) →
    ∃ (t : ℕ) (task : Running κ ι), s.tasks[t]? = some task ∧ task.todo.ended = none ∧
      ∀ x, s.Asks t x → s.stage.slots.lock x = none

variable {c : Composition κ ι} {s : Sys κ ι}

theorem Inv.ended (h : Inv c s) {t : ℕ} {call : Call κ} {todo : Coroutine κ ι (Option ι)}
    {x : Except (Failure κ) (Option ι)} (htask : s.tasks[t]? = some ⟨call, todo⟩) (hx : todo.ended = some x) :
    Answered c t call x s.stage :=
  Proc.wp_of_ended (h.tasks t _ htask) hx

theorem Inv.holder (h : Inv c s) {t : ℕ} {x : Owner × κ} (hx : s.stage.slots.lock x = some t) :
    ∃ task, s.tasks[t]? = some task ∧ task.todo.ended = none := by
  obtain ⟨task, htask⟩ : ∃ task, s.tasks[t]? = some task := ⟨_, List.getElem?_eq_getElem (h.holders t x hx)⟩
  refine ⟨task, htask, ?_⟩
  cases hended : task.todo.ended with
  | none => rfl
  | some y =>
    have hrest : Resting t [] s.stage := (h.ended htask hended).1
    exact absurd ((hrest.2.lock x).mp hx) List.not_mem_nil

/-- A task that waits for a lock comes after all the locks that it holds. -/
theorem Inv.ascends (h : Inv c s) {t : ℕ} {x y : Owner × κ} (hasks : s.Asks t x) (hy : s.stage.slots.lock y = some t) :
    Relation.TransGen c.registry.DependsOn y.2 x.2 := by
  obtain ⟨call, k, htask⟩ := hasks
  exact (Proc.wp_turn (h.tasks t _ htask)).1 y hy

omit [DecidableEq κ] in
theorem Asks.unique {t : ℕ} {x y : Owner × κ} (hx : s.Asks t x) (hy : s.Asks t y) : x = y := by
  obtain ⟨call, k, htask⟩ := hx
  obtain ⟨call', k', htask'⟩ := hy
  have he := htask.symm.trans htask'
  simp only [Option.some.injEq, Running.mk.injEq, Proc.ask.injEq, Request.lock.injEq] at he
  exact Prod.ext he.2.1.1 he.2.1.2

theorem Inv.uncircled (h : Inv c s) (hvalid : c.registry.Valid) (t : ℕ) :
    ¬ Relation.TransGen (WaitsFor s.Asks s.stage.slots.lock) t t :=
  @not_waits_circle ℕ (Owner × κ) s.Asks s.stage.slots.lock (fun y x => Relation.TransGen c.registry.DependsOn y.2 x.2)
    (fun _ _ _ => Relation.TransGen.trans) (fun x => hvalid.acyclic x.2) (fun _ _ _ hx hy => hx.unique hy)
    (fun _ _ hasks _ hy => h.ascends hasks hy) t

theorem Inv.moving (h : Inv c s) (hvalid : c.registry.Valid)
    (hex : ∃ (t : ℕ) (task : Running κ ι), s.tasks[t]? = some task ∧ task.todo.ended = none) :
    ∃ (t : ℕ) (task : Running κ ι), s.tasks[t]? = some task ∧ task.todo.ended = none ∧
      ∀ x, s.Asks t x → s.stage.slots.lock x = none := by
  by_contra hall
  -- otherwise every call that has not ended waits for another one
  let going : List ℕ := (List.range s.tasks.length).filter fun t => s.tasks[t]?.any fun task => task.todo.ended.isNone
  have hgoing : ∀ t, t ∈ going ↔ ∃ task, s.tasks[t]? = some task ∧ task.todo.ended = none := by
    intro t
    rw [List.mem_filter, List.mem_range, Option.any_eq_true]
    constructor
    · rintro ⟨-, task, htask, hended⟩
      exact ⟨task, htask, Option.isNone_iff_eq_none.mp hended⟩
    · rintro ⟨task, htask, hended⟩
      exact ⟨(List.getElem?_eq_some_iff.mp htask).1, task, htask, Option.isNone_iff_eq_none.mpr hended⟩
  obtain ⟨t₀, htask₀⟩ := hex
  obtain ⟨t, -, hcircle⟩ := exists_cycle (R := Function.swap (WaitsFor s.Asks s.stage.slots.lock))
    (List.ne_nil_of_mem ((hgoing t₀).mpr htask₀)) fun t ht => by
      obtain ⟨task, htask, hended⟩ := (hgoing t).mp ht
      obtain ⟨x, hasks, hheld⟩ : ∃ x, s.Asks t x ∧ s.stage.slots.lock x ≠ none := by
        by_contra hnone
        push Not at hnone
        exact hall ⟨t, task, htask, hended, hnone⟩
      obtain ⟨t', ht'⟩ := Option.ne_none_iff_exists'.mp hheld
      exact ⟨t', (hgoing t').mpr (h.holder ht'), x, hasks, ht'⟩
  exact h.uncircled hvalid t (Relation.transGen_swap.mp hcircle)

/-- **Shared instances.**  However calls of a validated application are interleaved, and whenever its request contexts
are closed, the application and each context that is open get one instance at most of a contract, every call returns
that one, a failed creation leaves nothing behind, and no calls wait for each other's locks in a circle. -/
theorem shared_instances (hvalid : c.registry.Valid) {app : App κ ι}
    (h : Relation.ReflTransGen (Step c) (initial app) s) : Shared c s := by
  have hinv : Inv c s := inv_of_run h
  refine ⟨fun o contract hopen => hinv.sound.once (o, contract) hopen,
    fun o contract i hopen hi => hinv.sound.kept (o, contract) hopen i hi, ?_, ?_, ?_, ?_, hinv.uncircled hvalid,
    hinv.moving hvalid⟩
  · intro t call contract i provider o htask hcontract hget howner
    exact (hinv.ended htask rfl).2 i contract rfl hcontract provider o hget howner
  · intro t call provider arguments k htask
    exact (Proc.wp_turn (hinv.tasks t _ htask)).1.1
  · exact fun o contract t ht => hinv.holder (x := (o, contract)) ht
  · exact fun o contract hopen hlock hvalue => hinv.sound.free (o, contract) hopen hlock hvalue

/-! ### A run -/

/-- How a request is answered at once, when a factory makes a new number each time. -/
def answerNow (c : Composition κ ℕ) (t : ℕ) (request : Option ℕ) :
    (q : Request κ ℕ) → Stage κ ℕ → Option (Except (Failure κ) q.Reply × Stage κ ℕ)
  | .act (.clear .app), _ => none
  | .act a, st => some (.ok (a.exec c st.scene).1, { st with scene := (a.exec c st.scene).2 })
  | .lock o contract, st =>
    let h := st.scene.app.holdings o
    if h.locks contract = none then
      some (.ok (), { st with scene := st.scene.hold o { h with locks := Function.update h.locks contract (some t) } })
    else none
  | .factory provider arguments, st =>
    let i := st.scene.history.length
    some (.ok i, ⟨st.scene.log (.created provider i),
      madeBy c request st.made (.factory provider arguments) (.ok i)⟩)
  | _, _ => none

theorem turn_answerNow {c : Composition κ ℕ} {t : ℕ} {request : Option ℕ} {q : Request κ ℕ} {st st' : Stage κ ℕ}
    {x : Except (Failure κ) q.Reply} (h : answerNow c t request q st = some (x, st')) :
    Turn c t request q st x st' := by
  cases q with
  | act a =>
    cases a with
    | clear o => cases o <;> cases h; exact ⟨⟨rfl, rfl⟩, rfl, fun h => h⟩
    | _ => cases h; exact ⟨⟨rfl, rfl⟩, rfl, fun h => h⟩
  | lock o contract =>
    unfold answerNow at h
    dsimp only at h
    split_ifs at h with hfree
    obtain ⟨rfl, rfl⟩ := Prod.mk.inj (Option.some.inj h)
    exact ⟨⟨hfree, rfl, rfl⟩, rfl, fun h => h⟩
  | factory provider arguments =>
    obtain ⟨rfl, rfl⟩ := Prod.mk.inj (Option.some.inj h)
    exact ⟨⟨trivial, rfl⟩, rfl, fun h => h⟩
  | _ => cases h

/-- A task takes a turn, if it can. -/
def go (c : Composition κ ℕ) (s : Sys κ ℕ) (t : ℕ) : Sys κ ℕ :=
  match s.tasks[t]? with
  | some ⟨call, .ask q k⟩ =>
    match answerNow c t call.request q s.stage with
    | some (x, st) => { stage := st, tasks := s.tasks.set t ⟨call, k x⟩ }
    | none => s
  | _ => s

theorem run_go {c : Composition κ ℕ} {s₀ s : Sys κ ℕ} (h : Relation.ReflTransGen (Step c) s₀ s) (t : ℕ) :
    Relation.ReflTransGen (Step c) s₀ (go c s t) := by
  unfold go
  split
  case h_1 call q k htask =>
    split
    · exact h.tail (.turn t call q k _ _ htask (turn_answerNow ‹_›))
    · exact h
  · exact h

/-- Calls that are begun, and take turns in this order. -/
def play (c : Composition κ ℕ) (s : Sys κ ℕ) (calls : List (Call κ)) (turns : List ℕ) : Sys κ ℕ :=
  turns.foldl (go c) { s with tasks := calls.map fun call => ⟨call, call.code c⟩ }

theorem run_play {c : Composition κ ℕ} {s : Sys κ ℕ} (hs : s.tasks = []) (calls : List (Call κ)) (turns : List ℕ) :
    Relation.ReflTransGen (Step c) s (play c s calls turns) := by
  have hbegun : Relation.ReflTransGen (Step c) s { s with tasks := calls.map fun call => ⟨call, call.code c⟩ } := by
    induction calls using List.reverseRecOn with
    | nil =>
      rw [List.map_nil, ← hs]
    | append_singleton calls call ih =>
      rw [List.map_append]
      exact ih.tail (.begin call)
  unfold play
  induction turns using List.reverseRecOn with
  | nil => exact hbegun
  | append_singleton turns t ih =>
    rw [List.foldl_append]
    exact run_go ih t

/-- A session of a request, made with the database of the application. -/
def session : Provider String := ⟨"Session", .request, [⟨"database", "Database"⟩], false, "application", 1⟩

def pool : Provider String := ⟨"Database", .app, [], false, "application", 0⟩

def withSession : Composition String ℕ where
  registry := {
    providers := ⟨[("Database", pool), ("Session", session)], by decide⟩
    frozen := false
    nextOrder := 2
    keyed := by
      intro k p h
      have hmem := Table.get?_eq_some_iff.mp h
      simp only [List.mem_cons, Prod.mk.injEq, List.not_mem_nil, or_false] at hmem
      obtain ⟨rfl, rfl⟩ | ⟨rfl, rfl⟩ := hmem <;> rfl }
  contractName := id
  typeName _ := "int"
  validInstance _ _ := true
  needsCleanup _ _ := false

theorem valid_withSession : withSession.registry.Valid := by
  have hget : ∀ k p, withSession.registry.get k = some p →
      (k = "Database" ∧ p = pool) ∨ (k = "Session" ∧ p = session) := by
    intro k p h
    simpa [withSession] using Table.get?_eq_some_iff.mp h
  have hdepends : ∀ k d, withSession.registry.DependsOn k d → k = "Session" ∧ d = "Database" := by
    intro k d h
    obtain ⟨p, hp⟩ := ProviderRegistry.exists_of_dependsOn h
    have hmem := (ProviderRegistry.dependsOn_iff hp).mp h
    obtain ⟨rfl, rfl⟩ | ⟨rfl, rfl⟩ := hget k p hp <;> simp_all [pool, session]
  refine ⟨fun k d h => ?_, fun k h => ?_, fun k d p q h hp hq => ?_⟩
  · obtain ⟨rfl, rfl⟩ := hdepends k d h
    exact ⟨pool, rfl⟩
  · obtain ⟨d, hd, hrest⟩ := Relation.TransGen.head'_iff.mp h
    obtain ⟨rfl, rfl⟩ := hdepends k d hd
    rcases Relation.ReflTransGen.cases_head hrest with he | ⟨d', hd', -⟩
    · exact absurd he (by decide)
    · exact absurd (hdepends _ _ hd').1 (by decide)
  · obtain ⟨rfl, rfl⟩ := hdepends k d h
    cases hp
    cases hq
    rintro (⟨h, -⟩ | ⟨-, h⟩) <;> cases h

/-- Two calls of one request and one of the application share the database and the session, turn by turn; when that
request is over, the next one gets a session of its own. -/
theorem shared_instances_session :
    let s := play withSession (initial { state := .ready, plugins := .empty })
      [.requestResolve 0 "Session", .resolve none "Database", .requestResolve 0 "Session", .leave 0,
        .resolve (some 1) "Session"]
      ((List.replicate 20 [0, 1, 2]).flatten ++ List.replicate 6 3 ++ List.replicate 10 4)
    Shared withSession s ∧ s.stage.made (.app, "Database") = [0] ∧ s.stage.made (.request 0, "Session") = [2] ∧
      s.stage.made (.request 1, "Session") = [4] ∧ s.stage.scene.app.closedRequests = [0] ∧
      s.tasks.map (fun task => task.todo.ended.map Except.toOption) = [some (some (some 2)), some (some (some 0)),
        some (some (some 2)), some (some none), some (some (some 4))] := by
  refine ⟨shared_instances valid_withSession (run_play rfl _ _), ?_, ?_, ?_, ?_, ?_⟩ <;> decide +kernel

end Sys

end Xyberos.Runtime.Instances
