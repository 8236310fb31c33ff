import Xyberos.Runtime.Scene

/-!
# Xyberos.Runtime.Resolving — instances that are resolved and closed one call at a time

In the world `alone`, whatever factories and close hooks do: a resolve only adds to what the owners own (`Grown`), keeps
what they own in order (`Sound`), and what it rejects is not owned (`triple_resolve`).  `_close_owned` calls every close
hook once, the last one first, and never raises (`wp_closeOwned`).
-/

set_option autoImplicit false

namespace Xyberos.Runtime

open Proc (World Ends)

variable {κ ι : Type} {hooks : Hooks κ} [DecidableEq κ] {c : Composition κ ι}

/-! ## Requests -/

section Requests

theorem not_interferes (s s' : Scene κ ι) : ¬ (alone c hooks).interferes s s' := fun h => h

theorem wp_act {a : Act κ ι} {Post : Except (Failure κ) a.Reply → Scene κ ι → Prop} {s : Scene κ ι} :
    (act a).wp (alone c hooks) Post s ↔ Post (.ok (a.exec c s).1) (a.exec c s).2 := by
  refine (Proc.wp_request_alone not_interferes).trans ?_
  constructor
  · exact fun h => h.2 _ _ ⟨rfl, rfl⟩
  · rintro h
    refine ⟨trivial, ?_⟩
    rintro x s' ⟨rfl, rfl⟩
    exact h

theorem wp_await {q : Request κ ι} {Post : Except (Failure κ) q.Reply → Scene κ ι → Prop} {s : Scene κ ι} :
    (await q).wp (alone c hooks) Post s ↔ ∀ x s', Answers c (hooks.Fair c) 0 q s x s' → Post x s' :=
  (Proc.wp_request_alone not_interferes).trans (and_iff_right trivial)

theorem wp_stopPlugin {name : String} {Post : Except (Failure κ) Unit → Scene κ ι → Prop} {s : Scene κ ι} :
    (await (.stopPlugin name)).wp (alone c hooks) Post s ↔ Post (hooks.stop name) (s.log (.stopped name)) := by
  rw [wp_await]
  constructor
  · exact fun h => h _ _ ⟨rfl, rfl⟩
  · rintro h x s' ⟨rfl, rfl⟩
    exact h

theorem wp_startPlugin {name : String} {Post : Except (Failure κ) Unit → Scene κ ι → Prop} {s : Scene κ ι} :
    (await (.startPlugin name)).wp (alone c hooks) Post s ↔
      Post (hooks.start name) (s.log (.started name (hooks.start name).isOk)) := by
  rw [wp_await]
  constructor
  · exact fun h => h _ _ ⟨rfl, rfl⟩
  · rintro h x s' ⟨rfl, rfl⟩
    exact h

end Requests

/-! ## Instances -/

/-- The scope of the instances of an owner. -/
def Owner.scope : Owner → Scope
  | app => .app
  | request _ => .request

/-- The scene after some calls that resolve: the events `h`, and what they gave to the owners. -/
structure Grown (c : Composition κ ι) (s₀ : Scene κ ι) (h : List (Event κ ι)) (s : Scene κ ι) : Prop where
  history : s.history = s₀.history ++ h
  app : s.app = { s₀.app with holdings := s.app.holdings }
  owned : ∀ o, (s.app.holdings o).owned = (s₀.app.holdings o).owned ++ ownedOf c o h
  starts : startsOf h = []
  stops : stopsOf h = []
  closes : ∀ o, closesOf (some o) h = []

/-- What an owner owns is registered for its scope, is at hand under its contract, and has to be closed. -/
structure Sound (c : Composition κ ι) (s : Scene κ ι) : Prop where
  owns : ∀ o, ∀ x ∈ (s.app.holdings o).owned, c.registry.get x.1.contract = some x.1 ∧ x.1.scope = o.scope ∧
    c.needsCleanup x.1 x.2 ∧ ((s.app.holdings o).instances x.1.contract).isSome
  nodup : ∀ o, ((s.app.holdings o).owned.map fun x => x.1.contract).Nodup

/-- A lock is held, and there is no instance yet. -/
def Awaited (s : Scene κ ι) (x : Owner × κ) : Prop :=
  ((s.app.holdings x.1).locks x.2).isSome ∧ (s.app.holdings x.1).instances x.2 = none

section Steps

variable {s₀ s : Scene κ ι} {h : List (Event κ ι)} {o : Owner} {held : Holdings κ ι}

theorem Grown.refl (s : Scene κ ι) : Grown c s [] s where
  history := (List.append_nil _).symm
  app := rfl
  owned _ := (List.append_nil _).symm
  starts := rfl
  stops := rfl
  closes _ := rfl

theorem Grown.created (hs : Grown c s₀ h s) (provider : Provider κ) (instance_ : ι) :
    Grown c s₀ (h ++ [.created provider instance_]) (s.log (.created provider instance_)) where
  history := by rw [Scene.log_history, hs.history, List.append_assoc]
  app := hs.app
  owned o := by
    rw [ownedOf_append, ← List.append_assoc]
    exact (hs.owned o).trans (List.append_nil _).symm
  starts := by rw [startsOf_append, hs.starts]; rfl
  stops := by rw [stopsOf_append, hs.stops]; rfl
  closes o := by rw [closesOf_append, hs.closes]; rfl

theorem Grown.rejected (hs : Grown c s₀ h s) (provider : Provider κ) (instance_ : ι) :
    Grown c s₀ (h ++ [.closed none provider instance_]) (s.log (.closed none provider instance_)) where
  history := by rw [Scene.log_history, hs.history, List.append_assoc]
  app := hs.app
  owned o := by
    rw [ownedOf_append, ← List.append_assoc]
    exact (hs.owned o).trans (List.append_nil _).symm
  starts := by rw [startsOf_append, hs.starts]; rfl
  stops := by rw [stopsOf_append, hs.stops]; rfl
  closes o := by rw [closesOf_append, hs.closes]; rfl

omit [DecidableEq κ] in
theorem hold_owned (hh : held.owned = (s.app.holdings o).owned) (o' : Owner) :
    ((s.hold o held).app.holdings o').owned = (s.app.holdings o').owned := by
  by_cases ho : o' = o
  · subst ho
    rw [Scene.hold_self, hh]
  · rw [Scene.hold_of_ne _ ho]

theorem Grown.hold (hs : Grown c s₀ h s) (hh : held.owned = (s.app.holdings o).owned) :
    Grown c s₀ h (s.hold o held) where
  history := hs.history
  app := congrArg (fun a : App κ ι => { a with holdings := Function.update s.app.holdings o held }) hs.app
  owned o' := (hold_owned hh o').trans (hs.owned o')
  starts := hs.starts
  stops := hs.stops
  closes := hs.closes

theorem Grown.keep (hs : Grown c s₀ h s) (provider : Provider κ) (instance_ : ι) :
    Grown c s₀ (h ++ [.kept o provider instance_]) ((Act.keep o provider instance_).exec c s).2 where
  history := by
    show s.history ++ [.kept o provider instance_] = _
    rw [hs.history, List.append_assoc]
  app := congrArg (fun a : App κ ι => { a with holdings := ((Act.keep o provider instance_).exec c s).2.app.holdings })
    hs.app
  owned o' := by
    by_cases ho : o' = o
    · subst ho
      show ((s.hold o' _).app.holdings o').owned = _
      rw [Scene.hold_self]
      by_cases hn : c.needsCleanup provider instance_
      · simp [Holdings.keep, hn, hs.owned o', ownedOf, Event.kept?]
      · simp [Holdings.keep, hn, hs.owned o', ownedOf, Event.kept?]
    · show ((s.hold o _).app.holdings o').owned = _
      rw [Scene.hold_of_ne _ ho, hs.owned o']
      simp [ownedOf, Event.kept?, Ne.symm ho]
  starts := by rw [startsOf_append, hs.starts]; rfl
  stops := by rw [stopsOf_append, hs.stops]; rfl
  closes o := by rw [closesOf_append, hs.closes]; rfl

theorem Sound.hold (hs : Sound c s) (ho : held.owned = (s.app.holdings o).owned)
    (hi : held.instances = (s.app.holdings o).instances) : Sound c (s.hold o held) where
  owns o' x hx := by
    by_cases ho' : o' = o
    · subst ho'
      rw [Scene.hold_self] at hx ⊢
      rw [ho] at hx
      rw [hi]
      exact hs.owns o' x hx
    · rw [Scene.hold_of_ne _ ho'] at hx ⊢
      exact hs.owns o' x hx
  nodup o' := by
    by_cases ho' : o' = o
    · subst ho'
      rw [Scene.hold_self, ho]
      exact hs.nodup o'
    · rw [Scene.hold_of_ne _ ho']
      exact hs.nodup o'

theorem Sound.keep (hs : Sound c s) {provider : Provider κ} {instance_ : ι}
    (hget : c.registry.get provider.contract = some provider) (hscope : provider.scope = o.scope)
    (hnone : (s.app.holdings o).instances provider.contract = none) :
    Sound c ((Act.keep o provider instance_).exec c s).2 where
  owns o' x hx := by
    by_cases ho : o' = o
    · subst ho
      rw [keep_self] at hx ⊢
      rw [keep_instances]
      rcases mem_keep_owned.mp hx with hx | ⟨hn, rfl⟩
      · obtain ⟨hg, hsc, hn, hi⟩ := hs.owns o' x hx
        refine ⟨hg, hsc, hn, ?_⟩
        split_ifs
        · rfl
        · exact hi
      · exact ⟨hget, hscope, hn, by simp⟩
    · rw [keep_of_ne c ho] at hx ⊢
      exact hs.owns o' x hx
  nodup o' := by
    by_cases ho : o' = o
    · subst ho
      have hfresh : provider.contract ∉ (s.app.holdings o').owned.map fun x => x.1.contract := by
        rintro hk
        obtain ⟨x, hx, he⟩ := List.mem_map.mp hk
        have hi := (hs.owns o' x hx).2.2.2
        rw [he, hnone] at hi
        cases hi
      rw [keep_self]
      unfold Holdings.keep
      dsimp only
      split_ifs
      · rw [List.map_append]
        exact (hs.nodup o').append (List.nodup_singleton _) (by simpa using hfresh)
      · exact hs.nodup o'
    · rw [keep_of_ne c ho]
      exact hs.nodup o'

omit [DecidableEq κ] in
theorem Awaited.hold {x : Owner × κ} (hx : Awaited s x)
    (hl : x.1 = o → (held.locks x.2).isSome ∧ held.instances x.2 = none) : Awaited (s.hold o held) x := by
  unfold Awaited
  by_cases ho : x.1 = o
  · rw [ho, Scene.hold_self]
    exact hl ho
  · rw [Scene.hold_of_ne _ ho]
    exact hx

end Steps

/-! ## Resolving -/

/-- While a resolve is under way: the locks in `K` are held, and no instance was rejected. -/
def Underway (c : Composition κ ι) (s₀ : Scene κ ι) (K : List (Owner × κ)) (s : Scene κ ι) : Prop :=
  ∃ h, Grown c s₀ h s ∧ closesOf none h = [] ∧ Sound c s ∧ ∀ x ∈ K, Awaited s x

/-- When a resolve has failed: what was rejected is not owned by the application. -/
def Broken (c : Composition κ ι) (s₀ : Scene κ ι) (K : List (Owner × κ)) (s : Scene κ ι) : Prop :=
  ∃ h, Grown c s₀ h s ∧ (∀ x ∈ closesOf none h, x ∉ (s.app.holdings .app).owned) ∧ Sound c s ∧ ∀ x ∈ K, Awaited s x

section Resolve

variable {s₀ s : Scene κ ι} {K : List (Owner × κ)}

theorem Underway.broken (hs : Underway c s₀ K s) : Broken c s₀ K s := by
  obtain ⟨h, hg, hr, hsound, hK⟩ := hs
  refine ⟨h, hg, ?_, hsound, hK⟩
  rw [hr]
  exact fun x hx => absurd hx List.not_mem_nil

theorem Underway.mono {K' : List (Owner × κ)} (hs : Underway c s₀ K s) (hK : K' ⊆ K) : Underway c s₀ K' s := by
  obtain ⟨h, hg, hr, hsound, hs⟩ := hs
  exact ⟨h, hg, hr, hsound, fun x hx => hs x (hK hx)⟩

theorem Broken.mono {K' : List (Owner × κ)} (hs : Broken c s₀ K s) (hK : K' ⊆ K) : Broken c s₀ K' s := by
  obtain ⟨h, hg, hr, hsound, hs⟩ := hs
  exact ⟨h, hg, hr, hsound, fun x hx => hs x (hK hx)⟩

theorem triple_act {a : Act κ ι} {P : Scene κ ι → Prop} {Post : a.Reply → Scene κ ι → Prop}
    {E : Failure κ → Scene κ ι → Prop} (h : ∀ s, P s → Post (a.exec c s).1 (a.exec c s).2) :
    (alone c hooks).Triple P (act a) Post E :=
  fun s hs => wp_act.mpr (h s hs)

theorem triple_await {q : Request κ ι} {P : Scene κ ι → Prop} {Post : q.Reply → Scene κ ι → Prop}
    {E : Failure κ → Scene κ ι → Prop} (h : ∀ s, P s → ∀ x s', Answers c (hooks.Fair c) 0 q s x s' →
      Ends (fun e => E e s') (fun b => Post b s') x) : (alone c hooks).Triple P (await q) Post E :=
  fun s hs => wp_await.mpr (h s hs)

variable {provider : Provider κ} {o : Owner}

theorem triple_reject (hK : provider.scope = .app → (.app, provider.contract) ∈ K) (instance_ : ι) :
    (alone c hooks).Triple (Underway c s₀ K) (c.closeResource none provider instance_) (fun _ => Broken c s₀ K)
      fun _ => Broken c s₀ K := by
  unfold Composition.closeResource
  split_ifs
  · refine triple_await fun s hs x s' hx => ?_
    obtain ⟨-, rfl⟩ := hx
    have hbroken : Broken c s₀ K (s.log (.closed none provider instance_)) := by
      obtain ⟨h, hg, hr, hsound, hs⟩ := hs
      refine ⟨_, hg.rejected provider instance_, fun y hy howned => ?_, ⟨hsound.owns, hsound.nodup⟩, hs⟩
      rw [closesOf_append, hr] at hy
      have hy : y = (provider, instance_) := List.mem_singleton.mp hy
      obtain ⟨-, hscope, -, hsome⟩ := hsound.owns .app y howned
      rw [hy] at hscope hsome
      rw [(hs _ (hK hscope)).2] at hsome
      cases hsome
    cases x <;> exact hbroken
  · exact World.Triple.pure fun s hs => hs.broken

theorem triple_dependencies {resolve : κ → Coroutine κ ι ι}
    (hresolve : ∀ k, (alone c hooks).Triple (Underway c s₀ K) (resolve k) (fun _ => Underway c s₀ K)
      fun _ => Broken c s₀ K) (dependencies : List (Dependency κ)) :
    (alone c hooks).Triple (Underway c s₀ K) (Composition.resolveDependencies resolve dependencies)
      (fun _ => Underway c s₀ K) fun _ => Broken c s₀ K := by
  induction dependencies with
  | nil => exact World.Triple.pure fun s hs => hs
  | cons dependency dependencies ih =>
    refine (hresolve dependency.contract).bind fun instance_ => ih.bind fun arguments => ?_
    exact World.Triple.pure fun s hs => hs

theorem triple_createInstance {resolve : κ → Coroutine κ ι ι}
    (hresolve : ∀ k, (alone c hooks).Triple (Underway c s₀ K) (resolve k) (fun _ => Underway c s₀ K)
      fun _ => Broken c s₀ K) (hK : provider.scope = .app → (.app, provider.contract) ∈ K) (path : List κ) :
    (alone c hooks).Triple (Underway c s₀ K) (c.createInstance resolve provider path) (fun _ => Underway c s₀ K)
      fun _ => Broken c s₀ K := by
  refine (triple_dependencies hresolve _).bind fun arguments => ?_
  have hfactory : (alone c hooks).Triple (Underway c s₀ K) (await (.factory provider arguments))
      (fun _ => Underway c s₀ K) (fun _ => Underway c s₀ K) := by
    refine triple_await fun s hs x s' hx => ?_
    obtain ⟨-, rfl⟩ := hx
    cases x with
    | ok instance_ =>
      obtain ⟨h, hg, hr, hsound, hs⟩ := hs
      exact ⟨_, hg.created provider instance_, by rw [closesOf_append, hr]; rfl, ⟨hsound.owns, hsound.nodup⟩, hs⟩
    | error e => exact hs
  have hcall : (alone c hooks).Triple (Underway c s₀ K) (await (.factory provider arguments)).attempt
      (fun _ => Underway c s₀ K) (fun _ => Broken c s₀ K) :=
    hfactory.attempt.weaken (fun s hs => hs) (fun x s hs => by cases x <;> exact hs) fun e s hs => hs
  refine hcall.bind fun x => ?_
  cases x with
  | error e =>
    dsimp only
    split_ifs <;> exact World.Triple.raise fun s hs => hs.broken
  | ok instance_ =>
    dsimp only
    cases c.rejection provider instance_ path with
    | none => exact World.Triple.pure fun s hs => hs
    | some e => exact (triple_reject hK instance_).bind fun _ => World.Triple.raise fun s hs => hs

omit [DecidableEq κ] in
theorem ne_of_mem {k : κ} (hK : (o, k) ∉ K) {x : Owner × κ} (hx : x ∈ K) (ho : x.1 = o) : x.2 ≠ k := by
  rintro rfl
  subst ho
  exact hK hx

/-- The lock of another contract is released. -/
theorem Awaited.unlock (hK : (o, provider.contract) ∉ K) (hs : ∀ x ∈ K, Awaited s x) :
    ∀ x ∈ K, Awaited ((Act.unlock o provider.contract).exec c s).2 x := by
  intro x hx
  refine (hs x hx).hold fun ho => ?_
  obtain ⟨hl, hi⟩ := hs x hx
  rw [ho] at hl hi
  exact ⟨(congrArg Option.isSome (Function.update_of_ne (ne_of_mem hK hx ho) ..)).trans hl, hi⟩

theorem Underway.unlock (hK : (o, provider.contract) ∉ K) (hs : Underway c s₀ K s) :
    Underway c s₀ K ((Act.unlock o provider.contract).exec c s).2 := by
  obtain ⟨h, hg, hr, hsound, hs⟩ := hs
  exact ⟨h, hg.hold rfl, hr, hsound.hold rfl rfl, Awaited.unlock hK hs⟩

theorem Broken.unlock (hK : (o, provider.contract) ∉ K) (hs : Broken c s₀ K s) :
    Broken c s₀ K ((Act.unlock o provider.contract).exec c s).2 := by
  obtain ⟨h, hg, hr, hsound, hs⟩ := hs
  refine ⟨h, hg.hold rfl, fun x hx howned => ?_, hsound.hold rfl rfl, Awaited.unlock hK hs⟩
  have heq : (((Act.unlock o provider.contract).exec c s).2.app.holdings .app).owned = (s.app.holdings .app).owned := by
    refine hold_owned ?_ .app
    rfl
  rw [heq] at howned
  exact hr x hx howned

theorem triple_createHeld {create : Coroutine κ ι ι} (hget : c.registry.get provider.contract = some provider)
    (hscope : provider.scope = o.scope) (hK : (o, provider.contract) ∉ K)
    (hcreate : (alone c hooks).Triple (Underway c s₀ ((o, provider.contract) :: K)) create
      (fun _ => Underway c s₀ ((o, provider.contract) :: K)) fun _ => Broken c s₀ ((o, provider.contract) :: K)) :
    (alone c hooks).Triple
      (fun s => Underway c s₀ K s ∧ ((s.app.holdings o).locks provider.contract).isSome)
      (Composition.createHeld create o provider) (fun _ => Underway c s₀ K) fun _ => Broken c s₀ K := by
  have hfind : (alone c hooks).Triple
      (fun s => Underway c s₀ K s ∧ ((s.app.holdings o).locks provider.contract).isSome)
      (act (.find o provider.contract))
      (fun x s => Underway c s₀ K s ∧ (x = none → Underway c s₀ ((o, provider.contract) :: K) s))
      fun _ => Broken c s₀ K := by
    refine triple_act fun s hs => ⟨hs.1, fun hnone => ?_⟩
    obtain ⟨⟨h, hg, hr, hsound, hs⟩, hlock⟩ := hs
    exact ⟨h, hg, hr, hsound, List.forall_mem_cons.mpr ⟨⟨hlock, hnone⟩, hs⟩⟩
  refine hfind.bind fun x => ?_
  cases x with
  | some existing => exact World.Triple.pure fun s hs => hs.1
  | none =>
    refine ((hcreate.weaken (fun s hs => hs.2 rfl) (fun _ _ hs => hs) fun e s hs => hs.mono ?_).bind
      fun instance_ => ?_)
    · exact List.subset_cons_self _ _
    · refine World.Triple.bind (M := fun _ => Underway c s₀ K) (triple_act fun s hs => ?_) fun _ =>
        World.Triple.pure fun s hs => hs
      obtain ⟨h, hg, hr, hsound, hs⟩ := hs
      obtain ⟨hawaited, hs⟩ := List.forall_mem_cons.mp hs
      refine ⟨_, hg.keep provider instance_, by rw [closesOf_append, hr]; rfl, hsound.keep hget hscope hawaited.2,
        fun x hx => ?_⟩
      refine (hs x hx).hold fun ho => ?_
      obtain ⟨hl, hi⟩ := hs x hx
      rw [ho] at hl hi
      rw [keep_instances, if_neg (ne_of_mem hK hx ho)]
      exact ⟨hl, hi⟩

/-- The lock of a contract is granted when nobody holds it. -/
theorem triple_lock : (alone c hooks).Triple (Underway c s₀ K) (await (.lock o provider.contract))
    (fun _ s => (o, provider.contract) ∉ K ∧ Underway c s₀ K s ∧ ((s.app.holdings o).locks provider.contract).isSome)
    fun _ => Broken c s₀ K := by
  refine triple_await fun s hs x s' hx => ?_
  obtain ⟨hfree, rfl, rfl⟩ := hx
  obtain ⟨h, hg, hr, hsound, hs⟩ := hs
  have hK : (o, provider.contract) ∉ K := by
    intro hx
    have hl := (hs _ hx).1
    rw [hfree] at hl
    cases hl
  refine ⟨hK, ⟨h, hg.hold rfl, hr, hsound.hold rfl rfl, fun x hx => (hs x hx).hold fun ho => ?_⟩, ?_⟩
  · obtain ⟨hl, hi⟩ := hs x hx
    rw [ho] at hl hi
    exact ⟨(congrArg Option.isSome (Function.update_of_ne (ne_of_mem hK hx ho) ..)).trans hl, hi⟩
  · rw [Scene.hold_self]
    have hself : Function.update (s.app.holdings o).locks provider.contract (some 0) provider.contract = some 0 :=
      Function.update_self ..
    exact congrArg Option.isSome hself

theorem triple_resolveHeld {create : Coroutine κ ι ι} (hget : c.registry.get provider.contract = some provider)
    (hscope : provider.scope = o.scope)
    (hcreate : (alone c hooks).Triple (Underway c s₀ ((o, provider.contract) :: K)) create
      (fun _ => Underway c s₀ ((o, provider.contract) :: K)) fun _ => Broken c s₀ ((o, provider.contract) :: K)) :
    (alone c hooks).Triple (Underway c s₀ K) (Composition.resolveHeld create o provider) (fun _ => Underway c s₀ K)
      fun _ => Broken c s₀ K := by
  refine World.Triple.bind (M := fun _ => Underway c s₀ K) (triple_act fun s hs => hs) fun x => ?_
  cases x with
  | some existing => exact World.Triple.pure fun s hs => hs
  | none =>
    refine triple_lock.bind fun _ => World.Triple.assume fun hK => ?_
    refine World.Triple.finally' (triple_createHeld hget hscope hK hcreate) (fun _ => ?_) fun _ => ?_
    · exact triple_act fun s hs => hs.unlock hK
    · exact triple_act fun s hs => hs.unlock hK

/-- **Resolving.**  Whatever factories and close hooks do, a resolve gives every owner what it records, and the
rejected instance of a resolve that fails is not among it. -/
theorem triple_resolve (request : Option ℕ) (depth : ℕ) (path : List κ) (contract : κ) :
    (alone c hooks).Triple (Underway c s₀ K) (c.resolve request depth path contract) (fun _ => Underway c s₀ K)
      fun _ => Broken c s₀ K := by
  induction depth generalizing path contract K with
  | zero => exact World.Triple.raise fun s hs => hs.broken
  | succ depth ih =>
    unfold Composition.resolve
    cases hget : c.registry.get contract with
    | none => exact World.Triple.raise fun s hs => hs.broken
    | some provider =>
      have hcontract : provider.contract = contract := c.registry.keyed contract provider hget
      rw [← hcontract] at hget
      dsimp only
      cases hscope : provider.scope with
      | app =>
        exact triple_resolveHeld hget hscope (triple_createInstance (fun k => ih _ k) (fun _ => List.mem_cons_self) _)
      | request =>
        have hK : ∀ K' : List (Owner × κ), provider.scope = .app → (Owner.app, provider.contract) ∈ K' := by
          intro K' h
          cases hscope.symm.trans h
        cases request with
        | none => exact World.Triple.raise fun s hs => hs.broken
        | some id => exact triple_resolveHeld hget hscope (triple_createInstance (fun k => ih _ k) (hK _) _)
      | transient =>
        have hK : provider.scope = .app → (Owner.app, provider.contract) ∈ K := fun h => by
          cases hscope.symm.trans h
        exact triple_createInstance (fun k => ih _ k) hK _

end Resolve

/-! ## Closing -/

section Closing

variable {s : Scene κ ι} {o : Owner}

/-- An owner owns at most one resource for every provider. -/
theorem Sound.length_lt (hs : Sound c s) (o : Owner) : (s.app.holdings o).owned.length < c.depth := by
  have hsub : ((s.app.holdings o).owned.map fun x => x.1.contract) ⊆ c.registry.providers.rows.map Prod.fst := by
    intro k hk
    obtain ⟨x, hx, rfl⟩ := List.mem_map.mp hk
    have hget := (hs.owns o x hx).1
    exact List.mem_map.mpr ⟨_, Table.get?_eq_some_iff.mp hget, rfl⟩
  have hle := List.Nodup.length_le_of_subset (hs.nodup o) hsub
  rw [List.length_map, List.length_map] at hle
  exact Nat.lt_succ_of_le hle

/-- What closing the resources of an owner does. -/
structure Closed (o : Owner) (s : Scene κ ι) (x : Except (Failure κ) (Failures κ)) (t : Scene κ ι) : Prop where
  isOk : x.isOk
  history : t.history = s.history ++ (s.app.holdings o).owned.reverse.map fun x => .closed (some o) x.1 x.2
  app : t.app = { s.app with holdings := t.app.holdings }

theorem wp_closeResource {provider : Provider κ} {instance_ : ι} (hn : c.needsCleanup provider instance_)
    {by_ : Option Owner} {Post : Except (Failure κ) Unit → Scene κ ι → Prop}
    (h : ∀ x, Post x (s.log (.closed by_ provider instance_))) :
    (c.closeResource by_ provider instance_).wp (alone c hooks) Post s := by
  unfold Composition.closeResource
  rw [if_pos hn, wp_await]
  rintro x s' ⟨-, rfl⟩
  exact h x

theorem wp_closeLoop {n : ℕ} (hn : (s.app.holdings o).owned.length < n)
    (hclean : ∀ x ∈ (s.app.holdings o).owned, c.needsCleanup x.1 x.2) :
    (c.closeLoop o n).wp (alone c hooks) (Closed o s) s := by
  induction n generalizing s with
  | zero => exact absurd hn (Nat.not_lt_zero _)
  | succ n ih =>
    refine Proc.wp_bind.mpr (wp_act.mpr ?_)
    rw [Proc.ends_ok]
    rcases List.eq_nil_or_concat (s.app.holdings o).owned with howned | ⟨l, x, howned⟩
    · have hpop : (Act.pop o).exec c s = (none, s) := by simp [Act.exec, howned]
      rw [hpop]
      exact ⟨rfl, by rw [howned]; exact (List.append_nil _).symm, rfl⟩
    · rw [List.concat_eq_append] at howned
      have hpop : (Act.pop o).exec c s = (some x, s.hold o { s.app.holdings o with owned := l }) := by
        simp [Act.exec, howned]
      rw [hpop]
      obtain ⟨provider, instance_⟩ := x
      have hx : (provider, instance_) ∈ (s.app.holdings o).owned := by
        rw [howned]
        simp
      have hrest : (c.closeLoop o n).wp (alone c hooks) (Closed o s)
          ((s.hold o { s.app.holdings o with owned := l }).log (.closed (some o) provider instance_)) := by
        have howned' : (((s.hold o { s.app.holdings o with owned := l }).log
            (.closed (some o) provider instance_)).app.holdings o).owned = l :=
          congrArg Holdings.owned (Scene.hold_self ..)
        refine Proc.wp_mono (ih ?_ fun x hx => hclean x ?_) fun x t h => ⟨h.isOk, ?_, ?_⟩
        · rw [howned']
          rw [howned, List.length_append] at hn
          simpa using hn
        · rw [howned'] at hx
          rw [howned]
          exact List.mem_append_left _ hx
        · rw [h.history, howned', howned]
          simp
        · rw [h.app]
          rfl
      refine Proc.wp_bind.mpr (Proc.wp_attempt.mpr (wp_closeResource (hclean (provider, instance_) hx) fun x => ?_))
      rw [Proc.ends_ok]
      cases x with
      | ok u => exact hrest
      | error e =>
        refine Proc.wp_bind.mpr (Proc.wp_mono hrest fun x t h => ?_)
        cases x with
        | ok failures => exact ⟨rfl, h.history, h.app⟩
        | error e => exact h

theorem wp_closeOwned (hs : Sound c s) (o : Owner) : (c.closeOwned o).wp (alone c hooks) (Closed o s) s :=
  wp_closeLoop (hs.length_lt o) fun x hx => (hs.owns o x hx).2.2.1

end Closing

end Xyberos.Runtime
