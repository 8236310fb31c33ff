import Xyberos.Runtime.Resolving

/-!
# Xyberos.Runtime.Lifecycle — `start` and `stop` when hooks fail

A start that fails has to stop the plugins it started and to close what the application owns; a stop has to stop the
started plugins and then to close.  Close hooks may raise what they like.  A stop hook that raises anything but an
`Exception` ends the loop over the plugins (`Hooks.called`): a start then closes all the same, a stop leaves the
application in the middle of its shutdown.  `lifecycle_finishes_iff` says exactly when both are finished.
-/

set_option autoImplicit false

namespace Xyberos.Runtime

open Proc (World Ends Runs)

variable {κ ι : Type} {hooks : Hooks κ}

/-! ## Stop hooks -/

namespace Hooks

/-- The stop hook of a plugin raises something that is not an `Exception`. -/
def escapes (hooks : Hooks κ) (name : String) : Bool :=
  match hooks.stop name with
  | .ok _ => false
  | .error e => !e.error.isInstance "Exception"

/-- The stop hooks that are called: none after one that lets something escape. -/
def called (hooks : Hooks κ) : List String → List String
  | [] => []
  | name :: names => if hooks.escapes name then [name] else name :: hooks.called names

theorem called_eq_iff {names : List String} :
    hooks.called names = names ↔ ∀ name ∈ names.dropLast, hooks.escapes name = false := by
  induction names with
  | nil => simp [called]
  | cons name names ih =>
    rw [called]
    cases names with
    | nil => simp [called]
    | cons name' names =>
      rw [List.dropLast_cons_cons, List.forall_mem_cons, ← ih]
      cases hooks.escapes name <;> simp

end Hooks

/-- What `_stop_entries` does. -/
structure StopSpec (hooks : Hooks κ) (entries : List String) (s : Scene κ ι) (x : Except (Failure κ) (Failures κ))
    (t : Scene κ ι) : Prop where
  history : t.history = s.history ++ (hooks.called entries).map .stopped
  app : t.app = { s.app with plugins := t.app.plugins }
  isOk : x.isOk ↔ ∀ name ∈ entries, hooks.escapes name = false

/-- The entries whose plugin is started. -/
def startedIn (s : Scene κ ι) (entries : List String) : List String :=
  entries.filter fun name => s.app.plugins.get? name = some .started

theorem startedIn_cons_of_pos {s : Scene κ ι} {name : String} {entries : List String}
    (h : s.app.plugins.get? name = some .started) : startedIn s (name :: entries) = name :: startedIn s entries :=
  List.filter_cons_of_pos (decide_eq_true h)

theorem startedIn_cons_of_neg {s : Scene κ ι} {name : String} {entries : List String}
    (h : s.app.plugins.get? name ≠ some .started) : startedIn s (name :: entries) = startedIn s entries :=
  List.filter_cons_of_neg (by simpa using h)

theorem StopSpec.of_log {s s' t : Scene κ ι} {name : String} {entries : List String}
    {x : Except (Failure κ) (Failures κ)} (h : StopSpec hooks entries s' x t)
    (hhistory : s'.history = s.history ++ [.stopped name]) (happ : s'.app = { s.app with plugins := s'.app.plugins })
    (hname : hooks.escapes name = false) : StopSpec hooks (name :: entries) s x t where
  history := by
    rw [h.history, hhistory, Hooks.called, hname]
    simp
  app := by rw [h.app, happ]
  isOk := by rw [h.isOk, List.forall_mem_cons, and_iff_right hname]

/-! ## Start hooks -/

/-- The events of `start_all`: the start hooks in `starts`, then the stop hooks in `stops`. -/
def pluginEvents (starts : List (String × Bool)) (stops : List String) : List (Event κ ι) :=
  starts.map (fun x => .started x.1 x.2) ++ stops.map .stopped

/-- The start hooks that returned, as `startsOf` reads them. -/
theorem startsOf_pluginEvents (starts : List (String × Bool)) (stops : List String) :
    startsOf (pluginEvents starts stops : List (Event κ ι)) = (starts.filter Prod.snd).map Prod.fst := by
  have hstops : startsOf (stops.map .stopped : List (Event κ ι)) = [] := by
    simp [startsOf, Event.started?, List.filterMap_eq_nil_iff]
  rw [pluginEvents, startsOf_append, hstops, List.append_nil]
  induction starts with
  | nil => rfl
  | cons x starts ih =>
    obtain ⟨name, ok⟩ := x
    rw [List.map_cons]
    cases ok with
    | true => exact congrArg (name :: ·) ih
    | false => exact ih

theorem stopsOf_pluginEvents (starts : List (String × Bool)) (stops : List String) :
    stopsOf (pluginEvents starts stops : List (Event κ ι)) = stops := by
  rw [pluginEvents, stopsOf_append]
  simp [stopsOf, Event.stopped?, List.filterMap_map, Function.comp_def]

theorem closesOf_pluginEvents (by_ : Option Owner) (starts : List (String × Bool)) (stops : List String) :
    closesOf by_ (pluginEvents starts stops : List (Event κ ι)) = [] := by
  rw [pluginEvents, closesOf_append]
  simp [closesOf, Event.closed?, List.filterMap_eq_nil_iff]

/-- What the loop of `start_all` does, the plugins in `started` being started. -/
structure StartSpec (hooks : Hooks κ) (started : List String) (s : Scene κ ι) (x : Except (Failure κ) Unit)
    (t : Scene κ ι) (starts : List (String × Bool)) (stops : List String) : Prop where
  history : t.history = s.history ++ pluginEvents starts stops
  app : t.app = { s.app with plugins := t.app.plugins }
  stops_of_ok : x.isOk → stops = []
  stops_of_error : ¬ x.isOk → stops = hooks.called (((starts.filter Prod.snd).map Prod.fst).reverse ++ started)

theorem startedIn_eq_self {s : Scene κ ι} {entries : List String}
    (h : ∀ name ∈ entries, s.app.plugins.get? name = some .started) : startedIn s entries = entries :=
  List.filter_eq_self.mpr fun name hname => decide_eq_true (h name hname)

/-- A plugin is started, and the loop goes on. -/
theorem StartSpec.cons {started : List String} {s s' t : Scene κ ι} {x : Except (Failure κ) Unit} {name : String}
    {starts : List (String × Bool)} {stops : List String} (h : StartSpec hooks (name :: started) s' x t starts stops)
    (hhistory : s'.history = s.history ++ [.started name true])
    (happ : s'.app = { s.app with plugins := s'.app.plugins }) :
    StartSpec hooks started s x t ((name, true) :: starts) stops where
  history := by
    rw [h.history, hhistory]
    simp [pluginEvents]
  app := by rw [h.app, happ]
  stops_of_ok := h.stops_of_ok
  stops_of_error hx := by
    rw [h.stops_of_error hx]
    simp

variable [DecidableEq κ] {c : Composition κ ι}

/-! ## Plugins -/

/-- Marking a plugin does not change which of the others are started. -/
theorem startedIn_mark {s : Scene κ ι} {name : String} {x : PluginState} {entries : List String}
    (hn : name ∉ entries) : startedIn ((Act.mark name x).exec c s).2 entries = startedIn s entries := by
  refine List.filter_congr fun name' hname' => ?_
  have hne : name' ≠ name := fun h => hn (h ▸ hname')
  have hget : ((Act.mark name x).exec c s).2.app.plugins.get? name' = s.app.plugins.get? name' :=
    (Table.get?_modify ..).trans (if_neg hne)
  rw [decide_eq_decide, hget]

theorem wp_stopEntries {entries : List String} (hn : entries.Nodup) (s : Scene κ ι) :
    (stopEntries entries).wp (alone c hooks) (StopSpec hooks (startedIn s entries) s) s := by
  induction entries generalizing s with
  | nil => exact ⟨by simp [startedIn, Hooks.called], rfl, by simp [startedIn, Except.isOk, Except.toBool]⟩
  | cons name entries ih =>
    rw [List.nodup_cons] at hn
    refine Proc.wp_bind.mpr (wp_act.mpr ?_)
    rw [Proc.ends_ok]
    show Proc.wp _ (if s.app.plugins.get? name ≠ some .started then _ else _) _ _
    by_cases hs : s.app.plugins.get? name = some .started
    · rw [if_neg (not_not.mpr hs), startedIn_cons_of_pos hs]
      refine Proc.wp_bind.mpr (Proc.wp_attempt.mpr (wp_stopPlugin.mpr ?_))
      rw [Proc.ends_ok]
      cases hstop : hooks.stop name with
      | ok u =>
        have hname : hooks.escapes name = false := by rw [Hooks.escapes, hstop]
        refine Proc.wp_bind.mpr (wp_act.mpr ?_)
        rw [Proc.ends_ok]
        refine Proc.wp_mono (ih hn.2 _) fun x t h => ?_
        rw [startedIn_mark hn.1] at h
        exact h.of_log rfl rfl hname
      | error e =>
        refine Proc.wp_bind.mpr (wp_act.mpr ?_)
        rw [Proc.ends_ok]
        cases he : e.error.isInstance "Exception" with
        | true =>
          have hname : hooks.escapes name = false := by rw [Hooks.escapes, hstop]; simp [he]
          refine Proc.wp_bind.mpr (Proc.wp_mono (ih hn.2 _) fun x t h => ?_)
          rw [startedIn_mark hn.1] at h
          have h := h.of_log (s := s) rfl rfl hname
          cases x with
          | ok failures => exact ⟨h.history, h.app, h.isOk⟩
          | error e' => exact h
        | false =>
          have hname : hooks.escapes name = true := by rw [Hooks.escapes, hstop]; simp [he]
          refine ⟨?_, rfl, ?_⟩
          · rw [Hooks.called, hname]
            rfl
          · rw [List.forall_mem_cons, hname]
            simp [Except.isOk, Except.toBool]
    · rw [if_pos hs, startedIn_cons_of_neg hs]
      exact ih hn.2 s

theorem get?_mark {s : Scene κ ι} {name name' : String} {x : PluginState} (h : (s.app.plugins.get? name).isSome) :
    ((Act.mark name x).exec c s).2.app.plugins.get? name' =
      if name' = name then some x else s.app.plugins.get? name' := by
  refine (Table.get?_modify ..).trans ?_
  obtain ⟨x', hx'⟩ := Option.isSome_iff_exists.mp h
  rw [hx']
  rfl

theorem wp_startEntries {entries started : List String} (hn : (started ++ entries).Nodup) {s : Scene κ ι}
    (hstarted : ∀ name ∈ started, s.app.plugins.get? name = some .started)
    (hentries : ∀ name ∈ entries, (s.app.plugins.get? name).isSome) :
    (startEntries entries started).wp (alone c hooks)
      (fun x t => ∃ starts stops, StartSpec hooks started s x t starts stops) s := by
  induction entries generalizing started s with
  | nil => exact ⟨[], [], ⟨by simp [pluginEvents], rfl, fun _ => rfl, fun h => absurd rfl h⟩⟩
  | cons name entries ih =>
    refine Proc.wp_bind.mpr (Proc.wp_attempt.mpr (wp_startPlugin.mpr ?_))
    rw [Proc.ends_ok]
    cases hstart : hooks.start name with
    | ok u =>
      have hnm : (name :: started ++ entries).Nodup := List.nodup_middle.mp hn
      have hget : ∀ name', ((Act.mark name .started).exec c (s.log (.started name true))).2.app.plugins.get? name' =
          if name' = name then some .started else s.app.plugins.get? name' :=
        fun name' => get?_mark (hentries name List.mem_cons_self)
      refine Proc.wp_bind.mpr (wp_act.mpr ?_)
      rw [Proc.ends_ok]
      refine Proc.wp_mono (ih hnm (fun name' hname' => ?_) fun name' hname' => ?_) fun x t h => ?_
      · refine (hget name').trans ?_
        split_ifs with hne
        · rfl
        · exact hstarted name' ((List.mem_cons.mp hname').resolve_left hne)
      · refine (congrArg Option.isSome (hget name')).trans ?_
        split_ifs
        · rfl
        · exact hentries name' (List.mem_cons_of_mem _ hname')
      · obtain ⟨starts, stops, h⟩ := h
        exact ⟨_, stops, h.cons rfl rfl⟩
    | error e =>
      refine Proc.wp_bind.mpr (Proc.wp_mono (wp_stopEntries (hn.sublist (List.sublist_append_left ..)) _)
        fun x t h => ?_)
      have h : StopSpec hooks (startedIn s started) (s.log (.started name false)) x t := h
      rw [startedIn_eq_self hstarted] at h
      have hspec : ∀ e', StartSpec hooks started s (.error e') t [(name, false)] (hooks.called started) := fun e' => {
        history := by
          rw [h.history]
          simp [pluginEvents]
        app := h.app
        stops_of_ok := fun hx => absurd hx Bool.false_ne_true
        stops_of_error := fun _ => by simp }
      cases x with
      | error e' => exact ⟨_, _, hspec e'⟩
      | ok cleanup =>
        rw [Proc.ends_ok]
        split_ifs
        · exact ⟨_, _, hspec _⟩
        · exact ⟨_, _, hspec e⟩

/-! ## Starting -/

section Starting

variable {s₀ s t : Scene κ ι}

theorem triple_startEager (plan : List (Provider κ)) :
    (alone c hooks).Triple (Underway c s₀ []) (c.startEager plan) (fun _ => Underway c s₀ []) fun _ => Broken c s₀ [] := by
  induction plan with
  | nil => exact World.Triple.pure fun s hs => hs
  | cons provider plan ih =>
    unfold Composition.startEager
    split_ifs
    · exact (triple_resolve none _ _ _).bind fun _ => ih
    · exact ih

theorem ownedOf_pluginEvents (o : Owner) (starts : List (String × Bool)) (stops : List String) :
    ownedOf c o (pluginEvents starts stops) = [] := by
  rw [pluginEvents, ownedOf_append]
  simp [ownedOf, Event.kept?]

/-- What the body of `start` leaves: the events of the eager instances, then those of the plugins. -/
structure StartedUp (c : Composition κ ι) (hooks : Hooks κ) (s : Scene κ ι) (x : Except (Failure κ) Unit)
    (t : Scene κ ι) (h : List (Event κ ι)) (starts : List (String × Bool)) (stops : List String) : Prop where
  history : t.history = s.history ++ (h ++ pluginEvents starts stops)
  owned : (t.app.holdings .app).owned = (s.app.holdings .app).owned ++ ownedOf c .app h
  instances : startsOf h = [] ∧ stopsOf h = [] ∧ closesOf (some .app) h = []
  sound : Sound c t
  rejected : ∀ y ∈ closesOf none h, y ∉ (t.app.holdings .app).owned
  stops_of_ok : x.isOk → stops = []
  stops_of_error : ¬ x.isOk → stops = hooks.called ((starts.filter Prod.snd).map Prod.fst).reverse

theorem StartedUp.of_broken {e : Failure κ} (hs : Broken c s [] t) :
    ∃ h starts stops, StartedUp c hooks s (.error e) t h starts stops := by
  obtain ⟨h, hg, hr, hsound, -⟩ := hs
  refine ⟨h, [], [], ⟨?_, hg.owned .app, ⟨hg.starts, hg.stops, hg.closes .app⟩, hsound, hr, fun _ => rfl, fun _ => rfl⟩⟩
  rw [hg.history]
  simp [pluginEvents]

/-- The plugins are started after the instances. -/
theorem wp_startAll (hs : Underway c s₀ [] s) : (startAll : Coroutine κ ι Unit).wp (alone c hooks)
    (fun x t => ∃ h starts stops, StartedUp c hooks s₀ x t h starts stops) s := by
  obtain ⟨h, hg, hr, hsound, -⟩ := hs
  refine Proc.wp_bind.mpr (wp_act.mpr ?_)
  rw [Proc.ends_ok]
  have hnames : ∀ name ∈ s.app.plugins.rows.map Prod.fst, (s.app.plugins.get? name).isSome := by
    intro name hname
    obtain ⟨x, hx, rfl⟩ := List.mem_map.mp hname
    rw [Table.get?_eq_some_iff.mpr hx]
    rfl
  refine Proc.wp_mono (wp_startEntries s.app.plugins.nodup (fun _ h => absurd h List.not_mem_nil) hnames) fun x t ht => ?_
  obtain ⟨starts, stops, ht⟩ := ht
  have ht : StartSpec hooks [] s x t starts stops := ht
  have hholdings : t.app.holdings = s.app.holdings := by
    have happ := congrArg App.holdings ht.app
    exact happ
  refine ⟨h, starts, stops, ?_, ?_, ⟨hg.starts, hg.stops, hg.closes .app⟩, ⟨?_, ?_⟩, ?_, ht.stops_of_ok, fun hx => ?_⟩
  · rw [ht.history, hg.history, List.append_assoc]
  · rw [hholdings, hg.owned]
  · rw [hholdings]
    exact hsound.owns
  · rw [hholdings]
    exact hsound.nodup
  · rw [hr]
    exact fun y hy => absurd hy List.not_mem_nil
  · rw [ht.stops_of_error hx, List.append_nil]

theorem wp_planOr {validated : Option (List (Provider κ))}
    {Post : Except (Failure κ) (List (Provider κ)) → Scene κ ι → Prop} (h : ∀ x, Post x s) :
    (c.planOr validated).wp (alone c hooks) Post s := by
  unfold Composition.planOr
  split
  · exact h _
  · exact Proc.wp_ofExcept.mpr (h _)

theorem wp_startUp (hs : Sound c s) : c.startUp.wp (alone c hooks)
    (fun x t => ∃ h starts stops, StartedUp c hooks s x t h starts stops) s := by
  have hgrown : Grown c s [] s := Grown.refl s
  have hbroken : Broken c s [] s := ⟨[], hgrown, by simp [closesOf], hs, by simp⟩
  have hrest : ∀ plan, (do
      let _ ← act .freeze
      c.startEager plan
      startAll : Coroutine κ ι Unit).wp (alone c hooks)
        (fun x t => ∃ h starts stops, StartedUp c hooks s x t h starts stops) s := by
    intro plan
    refine Proc.wp_bind.mpr (wp_act.mpr ?_)
    rw [Proc.ends_ok]
    -- freezing the registry changes neither the holdings nor the history
    have hunderway : Underway c ((Act.freeze).exec c s).2 [] ((Act.freeze).exec c s).2 :=
      ⟨[], Grown.refl _, rfl, ⟨hs.owns, hs.nodup⟩, by simp⟩
    refine Proc.wp_bind.mpr (Proc.wp_mono (triple_startEager plan _ hunderway) fun x t ht => ?_)
    have hback : ∀ {x t h starts stops}, StartedUp c hooks ((Act.freeze).exec c s).2 x t h starts stops →
        StartedUp c hooks s x t h starts stops := fun ht =>
      ⟨ht.history, ht.owned, ht.instances, ht.sound, ht.rejected, ht.stops_of_ok, ht.stops_of_error⟩
    cases x with
    | error e =>
      obtain ⟨h, starts, stops, ht⟩ := StartedUp.of_broken ht
      exact ⟨h, starts, stops, hback ht⟩
    | ok u =>
      refine Proc.wp_mono (wp_startAll ht) fun x t ht => ?_
      obtain ⟨h, starts, stops, ht⟩ := ht
      exact ⟨h, starts, stops, hback ht⟩
  refine Proc.wp_bind.mpr (wp_act.mpr ?_)
  rw [Proc.ends_ok]
  refine Proc.wp_bind.mpr (wp_planOr fun x => ?_)
  cases x with
  | error e => exact StartedUp.of_broken hbroken
  | ok plan => exact hrest plan

/-- The fresh application: nothing was done yet. -/
structure Fresh (s : Scene κ ι) : Prop where
  state : s.app.state = .new ∨ s.app.state = .validated
  holdings : ∀ o, s.app.holdings o = {}
  history : s.history = []

theorem Fresh.sound (hs : Fresh s) : Sound c s where
  owns o x hx := by
    rw [hs.holdings o] at hx
    exact absurd hx List.not_mem_nil
  nodup o := by
    rw [hs.holdings o]
    exact List.nodup_nil

/-- The application has failed.  What it owned was closed, the last one first, and nothing of it was closed before. -/
structure Released (c : Composition κ ι) (t : Scene κ ι) : Prop where
  state : t.app.state = .failed
  closes : closesOf (some .app) t.history = (ownedOf c .app t.history).reverse
  nodup : (ownedOf c .app t.history).Nodup
  rejected : ∀ x ∈ closesOf none t.history, x ∉ ownedOf c .app t.history

/-- An application that is ready. -/
structure Ready (c : Composition κ ι) (s : Scene κ ι) : Prop where
  state : s.app.state = .ready
  sound : Sound c s

/-- What the events of a failed start come to. -/
theorem StartedUp.released {e : Failure κ} {h : List (Event κ ι)} {starts : List (String × Bool)} {stops : List String}
    (hs : StartedUp c hooks s (.error e) t h starts stops) (hfresh : Fresh s) {t' : Scene κ ι}
    (hstate : t'.app.state = .failed)
    (hhistory : t'.history = t.history ++ (t.app.holdings .app).owned.reverse.map fun x => .closed (some .app) x.1 x.2) :
    Released c t' ∧ stopsOf t'.history = hooks.called (startsOf t'.history).reverse := by
  have howned : (t.app.holdings .app).owned = ownedOf c .app h := by
    rw [hs.owned, hfresh.holdings]
    rfl
  obtain ⟨hstarts, hstops, hcloses⟩ := hs.instances
  rw [hs.history, hfresh.history, List.nil_append, howned] at hhistory
  generalize hl : (ownedOf c .app h).reverse = l at hhistory
  have hclosing : ownedOf c .app (l.map fun x => .closed (some .app) x.1 x.2) = [] ∧
      startsOf (l.map fun x => .closed (some .app) x.1 x.2 : List (Event κ ι)) = [] ∧
      stopsOf (l.map fun x => .closed (some .app) x.1 x.2 : List (Event κ ι)) = [] ∧
      closesOf none (l.map fun x => .closed (some .app) x.1 x.2 : List (Event κ ι)) = [] ∧
      closesOf (some .app) (l.map fun x => .closed (some .app) x.1 x.2 : List (Event κ ι)) = l := by
    simp [ownedOf, startsOf, stopsOf, closesOf, Event.kept?, Event.started?, Event.stopped?, Event.closed?,
      List.filterMap_map, Function.comp_def]
  obtain ⟨hclosing₁, hclosing₂, hclosing₃, hclosing₄, hclosing₅⟩ := hclosing
  have howned' : ownedOf c .app t'.history = ownedOf c .app h := by
    rw [hhistory, ownedOf_append, ownedOf_append, ownedOf_pluginEvents, hclosing₁]
    simp
  refine ⟨⟨hstate, ?_, ?_, ?_⟩, ?_⟩
  · rw [howned', hhistory, closesOf_append, closesOf_append, closesOf_pluginEvents, hclosing₅, hcloses, hl]
    rfl
  · rw [howned', ← howned]
    exact (hs.sound.nodup .app).of_map _
  · rw [howned', hhistory, closesOf_append, closesOf_append, closesOf_pluginEvents, hclosing₄, ← howned]
    simpa using hs.rejected
  · rw [hhistory, stopsOf_append, stopsOf_append, startsOf_append, startsOf_append, hclosing₂, hclosing₃, hstarts, hstops,
      stopsOf_pluginEvents, startsOf_pluginEvents]
    simpa using hs.stops_of_error (by simp [Except.isOk, Except.toBool])

theorem wp_raiseShutdown {failures : Failures κ} {otherwise : Coroutine κ ι Unit}
    {Post : Except (Failure κ) Unit → Scene κ ι → Prop} (h : ∀ e, Post (.error e) s)
    (hotherwise : otherwise.wp (alone c hooks) Post s) :
    (raiseShutdown failures otherwise).wp (alone c hooks) Post s := by
  unfold raiseShutdown
  split_ifs
  · exact hotherwise
  · exact h _

/-- The end of a start: the application is ready, or it has failed. -/
def StartEnds (c : Composition κ ι) (hooks : Hooks κ) (x : Except (Failure κ) Unit) (t : Scene κ ι) : Prop :=
  (x.isOk → Ready c t) ∧
    (¬ x.isOk → Released c t ∧ stopsOf t.history = hooks.called (startsOf t.history).reverse)

theorem wp_startLocked (hs : Fresh s) : c.startLocked.wp (alone c hooks) (StartEnds c hooks) s := by
  refine Proc.wp_bind.mpr (wp_act.mpr ?_)
  rw [Proc.ends_ok]
  have hready : s.app.state ≠ .ready := by rcases hs.state with h | h <;> simp [h]
  have hstartable : ¬ (s.app.state ≠ .new ∧ s.app.state ≠ .validated) := by rcases hs.state with h | h <;> simp [h]
  show Proc.wp _ (if s.app.state = .ready then _ else if s.app.state ≠ .new ∧ s.app.state ≠ .validated then _ else _) _ _
  rw [if_neg hready, if_neg hstartable]
  refine Proc.wp_bind.mpr (wp_act.mpr ?_)
  rw [Proc.ends_ok]
  have hsound : Sound c ((Act.goto .starting).exec c s).2 := ⟨(hs.sound (c := c)).owns, (hs.sound (c := c)).nodup⟩
  refine Proc.wp_bind.mpr (Proc.wp_attempt.mpr (Proc.wp_mono (wp_startUp hsound) fun x t ht => ?_))
  obtain ⟨h, starts, stops, ht⟩ := ht
  have ht : StartedUp c hooks s x t h starts stops :=
    ⟨ht.history, ht.owned, ht.instances, ht.sound, ht.rejected, ht.stops_of_ok, ht.stops_of_error⟩
  rw [Proc.ends_ok]
  cases x with
  | ok u =>
    refine Proc.wp_bind.mpr (wp_act.mpr ?_)
    exact ⟨fun _ => ⟨rfl, ht.sound.owns, ht.sound.nodup⟩, fun hx => absurd rfl hx⟩
  | error e =>
    refine Proc.wp_bind.mpr (Proc.wp_mono (wp_closeOwned ht.sound .app) fun x t' ht' => ?_)
    cases x with
    | error e' => cases ht'.isOk
    | ok failures =>
      refine Proc.wp_bind.mpr (wp_act.mpr (Proc.wp_bind.mpr (wp_act.mpr ?_)))
      have hends : ∀ e', StartEnds c hooks (.error e') ((Act.goto .failed).exec c ((Act.clear .app).exec c t').2).2 :=
        fun e' => ⟨fun hx => absurd hx Bool.false_ne_true, fun _ => ht.released hs rfl ht'.history⟩
      exact wp_raiseShutdown hends (hends e)

theorem wp_start (hs : Fresh s) : c.start.wp (alone c hooks) (StartEnds c hooks) s := by
  refine Proc.wp_bind.mpr (wp_await.mpr ?_)
  rintro x s' ⟨-, rfl, rfl⟩
  rw [Proc.ends_ok]
  have hfresh : Fresh { s with app := { s.app with lifecycleLock := some 0 } } := ⟨hs.state, hs.holdings, hs.history⟩
  refine Proc.wp_finally.mpr (Proc.wp_mono (wp_startLocked hfresh) fun x t ht => wp_act.mpr ?_)
  rw [Proc.ends_ok]
  refine ⟨fun hx => ?_, fun hx => ?_⟩
  · exact ⟨(ht.1 hx).state, (ht.1 hx).sound.owns, (ht.1 hx).sound.nodup⟩
  · obtain ⟨hreleased, hstops⟩ := ht.2 hx
    exact ⟨⟨hreleased.state, hreleased.closes, hreleased.nodup, hreleased.rejected⟩, hstops⟩

end Starting

/-! ## Stopping -/

section Stopping

variable {s t : Scene κ ι}

omit [DecidableEq κ] in
theorem startedIn_names (s : Scene κ ι) : startedIn s (s.app.plugins.rows.map Prod.fst) = s.startedPlugins := by
  rw [startedIn, List.filter_map]
  refine congrArg (List.map Prod.fst) (List.filter_congr fun x hx => ?_)
  have hget : s.app.plugins.get? x.1 = some x.2 := Table.get?_eq_some_iff.mpr hx
  simp [hget]

/-- The wait of `stop` for the request contexts comes to its end, in time or not. -/
def Hooks.drains (hooks : Hooks κ) : Bool :=
  match hooks.interrupt with
  | none => true
  | some e => e.error.isInstance "TimeoutError"

theorem wp_drain : c.drain.wp (alone c hooks) (fun x t => t = s ∧ (x.isOk ↔ hooks.drains = true)) s := by
  refine Proc.wp_bind.mpr (Proc.wp_attempt.mpr (wp_await.mpr ?_))
  rintro x s' ⟨hfair, -, hs'⟩
  rw [Proc.ends_ok, hs']
  -- the wait ended in `error`
  have herror : ∀ e : Failure κ, hooks.drains = e.error.isInstance "TimeoutError" →
      (if e.error.isInstance "TimeoutError" then do
        let active : ℕ ← act .active
        let timeout := c.shutdownTimeout.getD "None"
        return [(s!"{active} in-flight request context(s)", lifecycleError s!"shutdown timed out after {timeout}s")]
      else .raise e : Coroutine κ ι (Failures κ)).wp (alone c hooks)
        (fun x t => t = s ∧ (x.isOk ↔ hooks.drains = true)) s := by
    intro e he
    rw [he]
    cases e.error.isInstance "TimeoutError" with
    | true => exact Proc.wp_bind.mpr (wp_act.mpr ⟨rfl, by simp [Except.isOk, Except.toBool]⟩)
    | false => exact ⟨rfl, by simp [Except.isOk, Except.toBool]⟩
  rcases hfair with rfl | ⟨hnone, -, rfl⟩
  · cases hi : hooks.interrupt with
    | none => exact ⟨rfl, by simp [Except.isOk, Except.toBool, Hooks.drains, hi]⟩
    | some e => exact herror e (by rw [Hooks.drains, hi])
  · exact herror timeoutError (by rw [Hooks.drains, hnone]; rfl)

/-- A stop that has finished the application: the started plugins were stopped, the last one first, and then what the
application owned was closed, the last one first. -/
structure Stopped (s t : Scene κ ι) : Prop where
  state : t.app.state = .stopped
  history : t.history = s.history ++ (s.startedPlugins.reverse.map .stopped ++
    (s.app.holdings .app).owned.reverse.map fun x => .closed (some .app) x.1 x.2)

/-- Nothing escapes from a stop. -/
def Hooks.Lets (hooks : Hooks κ) (s : Scene κ ι) : Prop :=
  hooks.drains = true ∧ ∀ name ∈ s.startedPlugins, hooks.escapes name = false

theorem wp_stopReady (hs : Sound c s) : c.stopReady.wp (alone c hooks)
    (fun _ t => (hooks.Lets s ∧ Stopped s t) ∨ (¬ hooks.Lets s ∧ t.app.state = .stopping)) s := by
  refine Proc.wp_bind.mpr (wp_act.mpr ?_)
  rw [Proc.ends_ok]
  refine Proc.wp_bind.mpr (Proc.wp_mono wp_drain fun x s' hx => ?_)
  obtain ⟨rfl, hdrains⟩ := hx
  cases x with
  | error e => exact .inr ⟨fun h => absurd (hdrains.mpr h.1) Bool.false_ne_true, rfl⟩
  | ok late =>
    have hdrains : hooks.drains = true := hdrains.mp rfl
    refine Proc.wp_bind.mpr (Proc.wp_bind.mpr (wp_act.mpr ?_))
    rw [Proc.ends_ok]
    have hnames : startedIn s (s.app.plugins.rows.map Prod.fst).reverse = s.startedPlugins.reverse := by
      rw [startedIn, List.filter_reverse]
      exact congrArg List.reverse (startedIn_names s)
    refine Proc.wp_mono (wp_stopEntries (List.nodup_reverse.mpr s.app.plugins.nodup) _) fun x s₁ h₁ => ?_
    have h₁ : StopSpec hooks (startedIn s (s.app.plugins.rows.map Prod.fst).reverse)
        ((Act.goto .stopping).exec c s).2 x s₁ := h₁
    rw [hnames] at h₁
    cases x with
    | error e =>
      refine .inr ⟨fun hlets => ?_, by rw [h₁.app]; rfl⟩
      exact Bool.false_ne_true (h₁.isOk.mpr fun name hname => hlets.2 name (List.mem_reverse.mp hname))
    | ok plugins =>
      have hquiet := h₁.isOk.mp rfl
      have hlets : hooks.Lets s := ⟨hdrains, fun name hname => hquiet name (List.mem_reverse.mpr hname)⟩
      have hcalled : hooks.called s.startedPlugins.reverse = s.startedPlugins.reverse :=
        Hooks.called_eq_iff.mpr fun name hname => hquiet name (List.dropLast_subset _ hname)
      have hholdings : s₁.app.holdings = s.app.holdings := by
        have happ := congrArg App.holdings h₁.app
        exact happ
      have hsound : Sound c s₁ := ⟨by rw [hholdings]; exact hs.owns, by rw [hholdings]; exact hs.nodup⟩
      refine Proc.wp_bind.mpr (Proc.wp_mono (wp_closeOwned hsound .app) fun x s₂ h₂ => ?_)
      cases x with
      | error e => cases h₂.isOk
      | ok resources =>
        refine Proc.wp_bind.mpr (wp_act.mpr (Proc.wp_bind.mpr (wp_act.mpr ?_)))
        have hstopped : Stopped s ((Act.goto .stopped).exec c ((Act.clear .app).exec c s₂).2).2 := by
          refine ⟨rfl, ?_⟩
          show s₂.history = _
          rw [h₂.history, h₁.history, hcalled, hholdings, List.append_assoc]
          rfl
        exact wp_raiseShutdown (fun e => .inl ⟨hlets, hstopped⟩) (.inl ⟨hlets, hstopped⟩)

theorem wp_stopLocked (hs : Ready c s) : c.stopLocked.wp (alone c hooks)
    (fun _ t => (hooks.Lets s ∧ Stopped s t) ∨ (¬ hooks.Lets s ∧ t.app.state = .stopping)) s := by
  refine Proc.wp_bind.mpr (wp_act.mpr ?_)
  rw [Proc.ends_ok]
  have hidle : ¬ (s.app.state = .new ∨ s.app.state = .validated ∨ s.app.state = .failed) := by simp [hs.state]
  have hnot : s.app.state ≠ .stopped := by simp [hs.state]
  refine (congrArg (fun p => Proc.wp (alone c hooks) p _ s) ((if_neg hnot).trans ((if_neg hidle).trans
    (if_neg (not_not.mpr hs.state))))).mpr ?_
  exact wp_stopReady hs.sound

theorem wp_stop (hs : Ready c s) : c.stop.wp (alone c hooks)
    (fun _ t => (hooks.Lets s ∧ Stopped s t) ∨ (¬ hooks.Lets s ∧ t.app.state = .stopping)) s := by
  refine Proc.wp_bind.mpr (wp_await.mpr ?_)
  rintro x s' ⟨-, rfl, hs'⟩
  rw [Proc.ends_ok, hs']
  have hready : Ready c { s with app := { s.app with lifecycleLock := some 0 } } :=
    ⟨hs.state, hs.sound.owns, hs.sound.nodup⟩
  refine Proc.wp_finally.mpr (Proc.wp_mono (wp_stopLocked hready) fun x t ht => wp_act.mpr ?_)
  rw [Proc.ends_ok]
  exact ht.imp (fun h => ⟨h.1, h.2.state, h.2.history⟩) fun h => h

end Stopping

/-! ## When a lifecycle finishes -/

section Runs

variable {s t : Scene κ ι} {l : List (Request κ ι × Scene κ ι)}

/-- A start that failed has finished the application: it has stopped the plugins it started, the last one first. -/
structure Failed (c : Composition κ ι) (t : Scene κ ι) : Prop extends Released c t where
  stops : stopsOf t.history = (startsOf t.history).reverse

/-- A start that returns has made the application ready. -/
theorem ready_of_start (hs : Fresh s) (h : Runs (alone c hooks) c.start s l (.ok ()) t) : Ready c t :=
  (h.post (wp_start hs)).1 rfl

/-- A resolve leaves the application ready. -/
theorem ready_of_resolve (hs : Ready c s) {request : Option ℕ} {depth : ℕ} {path : List κ} {contract : κ}
    {x : Except (Failure κ) ι} (h : Runs (alone c hooks) (c.resolve request depth path contract) s l x t) :
    Ready c t := by
  have hunderway : Underway c s [] s := ⟨[], Grown.refl s, rfl, hs.sound, by simp⟩
  have hbroken : Broken c s [] t := by
    have ht := h.post (triple_resolve request depth path contract s hunderway)
    cases x with
    | ok instance_ => exact Underway.broken ht
    | error e => exact ht
  obtain ⟨_, hg, -, hsound, -⟩ := hbroken
  refine ⟨?_, hsound⟩
  rw [hg.app]
  exact hs.state

/-- **When a failed start and a stop finish the application.**  A failed start does, if and only if no stop hook of a
plugin it started, the first one apart, raises anything but an `Exception`; a stop does, if and only if its wait is not
interrupted and no stop hook of a started plugin raises anything but an `Exception`. -/
theorem lifecycle_finishes_iff (c : Composition κ ι) (hooks : Hooks κ) :
    (∀ s l e t, Fresh s → Runs (alone c hooks) c.start s l (.error e) t →
      (Failed c t ↔ ∀ name ∈ (startsOf t.history).tail, hooks.escapes name = false)) ∧
    (∀ s l x t, Ready c s → Runs (alone c hooks) c.stop s l x t → (Stopped s t ↔ hooks.Lets s)) := by
  constructor
  · intro s l e t hs h
    obtain ⟨hreleased, hstops⟩ := (h.post (wp_start hs)).2 Bool.false_ne_true
    have hiff : stopsOf t.history = (startsOf t.history).reverse ↔
        ∀ name ∈ (startsOf t.history).tail, hooks.escapes name = false := by
      rw [hstops, Hooks.called_eq_iff, List.dropLast_reverse]
      simp
    exact ⟨fun ht => hiff.mp ht.stops, fun ht => ⟨hreleased, hiff.mpr ht⟩⟩
  · intro s l x t hs h
    rcases h.post (wp_stop hs) with ⟨hlets, ht⟩ | ⟨hlets, ht⟩
    · exact iff_of_true ht hlets
    · refine iff_of_false (fun h => ?_) hlets
      cases h.state.symm.trans ht

end Runs

/-! ## Two plugins -/

/-- How the requests of a call that runs alone are answered when factories return `instance_` and nothing waits. -/
def answerAlone (c : Composition κ ι) (hooks : Hooks κ) (instance_ : ι) :
    (q : Request κ ι) → Scene κ ι → Option (Except (Failure κ) q.Reply × Scene κ ι)
  | .act a, s => some (.ok (a.exec c s).1, (a.exec c s).2)
  | .lockLifecycle, s =>
    if s.app.lifecycleLock = none then some (.ok (), { s with app := { s.app with lifecycleLock := some 0 } }) else none
  | .lock o contract, s =>
    let h := s.app.holdings o
    if h.locks contract = none then
      some (.ok (), s.hold o { h with locks := Function.update h.locks contract (some 0) })
    else none
  | .factory provider _, s => some (.ok instance_, s.log (.created provider instance_))
  | .close by_ provider x, s => some (.ok (), s.log (.closed by_ provider x))
  | .startPlugin name, s => some (hooks.start name, s.log (.started name (hooks.start name).isOk))
  | .stopPlugin name, s => some (hooks.stop name, s.log (.stopped name))
  | .drained, s =>
    if s.app.activeRequests = [] then some (hooks.interrupt.elim (.ok ()) .error, s) else none

theorem answers_answerAlone (instance_ : ι) (q : Request κ ι) (s : Scene κ ι) (x : Except (Failure κ) q.Reply)
    (s' : Scene κ ι) (h : answerAlone c hooks instance_ q s = some (x, s')) : (alone c hooks).answers q s x s' := by
  cases q with
  | act a =>
    obtain ⟨rfl, rfl⟩ := Prod.mk.inj (Option.some.inj h)
    exact ⟨rfl, rfl⟩
  | lockLifecycle =>
    unfold answerAlone at h
    dsimp only at h
    split_ifs at h with hfree
    obtain ⟨rfl, rfl⟩ := Prod.mk.inj (Option.some.inj h)
    exact ⟨hfree, rfl, rfl⟩
  | lock o contract =>
    unfold answerAlone at h
    dsimp only at h
    split_ifs at h with hfree
    obtain ⟨rfl, rfl⟩ := Prod.mk.inj (Option.some.inj h)
    exact ⟨hfree, rfl, rfl⟩
  | factory provider arguments =>
    obtain ⟨rfl, rfl⟩ := Prod.mk.inj (Option.some.inj h)
    exact ⟨trivial, rfl⟩
  | close by_ provider x =>
    obtain ⟨rfl, rfl⟩ := Prod.mk.inj (Option.some.inj h)
    exact ⟨trivial, rfl⟩
  | startPlugin name =>
    obtain ⟨rfl, rfl⟩ := Prod.mk.inj (Option.some.inj h)
    exact ⟨rfl, rfl⟩
  | stopPlugin name =>
    obtain ⟨rfl, rfl⟩ := Prod.mk.inj (Option.some.inj h)
    exact ⟨rfl, rfl⟩
  | drained =>
    unfold answerAlone at h
    dsimp only at h
    split_ifs at h with hidle
    obtain ⟨rfl, rfl⟩ := Prod.mk.inj (Option.some.inj h)
    exact ⟨.inl rfl, fun _ => hidle, rfl⟩

/-- A database that is opened at the start. -/
def database : Provider String := ⟨"Database", .app, [], true, "application", 0⟩

def withDatabase : Composition String ℕ where
  registry := {
    providers := ⟨[("Database", database)], by decide⟩
    frozen := false
    nextOrder := 1
    keyed := by
      intro k p h
      obtain ⟨rfl, rfl⟩ : k = "Database" ∧ p = database := by simpa using Table.get?_eq_some_iff.mp h
      rfl }
  contractName := id
  typeName _ := "int"
  validInstance _ _ := true
  needsCleanup _ _ := true

/-- Plugins that are not started yet. -/
def threePlugins : Scene String ℕ where
  app := { plugins := ⟨[("cache", .registered), ("mail", .registered), ("search", .registered)], by decide⟩ }

theorem fresh_threePlugins : Fresh threePlugins := ⟨.inl rfl, fun _ => rfl, rfl⟩

def cancelledError : Failure String := failure ⟨⟨"CancelledError", ["BaseException"]⟩, ""⟩

/-- One plugin does not start, and the stop hooks in `cancelled` are cancelled. -/
def searchFails (cancelled : List String) : Hooks String where
  start name := if name = "search" then .error (failure (typeError "no index")) else .ok ()
  stop name := if name ∈ cancelled then .error cancelledError else .ok ()

/-- All plugins start, and the stop hooks in `cancelled` are cancelled. -/
def allStart (cancelled : List String) : Hooks String where
  start _ := .ok ()
  stop name := if name ∈ cancelled then .error cancelledError else .ok ()

/-- The run of a call, if it ends. -/
abbrev runAlone {α : Type} (hooks : Hooks String) (p : Coroutine String ℕ α) (s : Scene String ℕ) :
    Option (Except (Failure String) α × Scene String ℕ) :=
  p.run (answerAlone withDatabase hooks 7) s

theorem runs_runAlone {α : Type} {hooks : Hooks String} {p : Coroutine String ℕ α} {s t : Scene String ℕ}
    {x : Except (Failure String) α} (h : runAlone hooks p s = some (x, t)) :
    ∃ l, Runs (alone withDatabase hooks) p s l x t := Proc.runs_run (answers_answerAlone 7) h

/-- A start, a resolve of the database, and then a stop: what the start returns, the state before the stop, and the end
of the stop. -/
def lifetime (hooks : Hooks String) :
    Option ((Except (Failure String) Unit × Scene String ℕ) × (Except (Failure String) Unit × Scene String ℕ)) :=
  (runAlone hooks withDatabase.start threePlugins).bind fun x =>
    (runAlone hooks (withDatabase.resolve none 8 [] "Database") x.2).bind fun y =>
      (runAlone hooks withDatabase.stop y.2).map fun z => ((x.1, y.2), z)

theorem exists_lifetime {hooks : Hooks String} (h : ((lifetime hooks).map fun r => r.1.1.isOk) = some true) :
    ∃ s x t l, lifetime hooks = some ((.ok (), s), (x, t)) ∧ Ready withDatabase s ∧
      Runs (alone withDatabase hooks) withDatabase.stop s l x t := by
  obtain ⟨⟨⟨x, s⟩, y, t⟩, hrun, hx⟩ := Option.map_eq_some_iff.mp h
  obtain ⟨⟨x', s'⟩, hstart, hrest⟩ := Option.bind_eq_some_iff.mp hrun
  obtain ⟨⟨z, s''⟩, hresolve, hrest⟩ := Option.bind_eq_some_iff.mp hrest
  obtain ⟨⟨y', t'⟩, hstop, he⟩ := Option.map_eq_some_iff.mp hrest
  cases he
  obtain ⟨l, hl⟩ := runs_runAlone hstart
  obtain ⟨l', hl'⟩ := runs_runAlone hresolve
  obtain ⟨l'', hl''⟩ := runs_runAlone hstop
  cases x' with
  | error e => cases hx
  | ok u =>
    have hready : Ready withDatabase s' := ready_of_start fresh_threePlugins hl
    exact ⟨s'', y, t, l'', hrun, ready_of_resolve hready hl', hl''⟩

theorem lifecycle_finishes_threePlugins :
    (∃ t, Failed withDatabase t ∧ startsOf t.history = ["cache", "mail"]) ∧
    ∃ s t, Ready withDatabase s ∧ s.startedPlugins = ["cache", "mail", "search"] ∧ Stopped s t := by
  constructor
  · have hfacts : ((runAlone (searchFails ["cache"]) withDatabase.start threePlugins).map fun y =>
        (y.1.isOk, startsOf y.2.history)) = some (false, ["cache", "mail"]) := by decide +kernel
    obtain ⟨⟨x, t⟩, hrun, hx⟩ := Option.map_eq_some_iff.mp hfacts
    obtain ⟨hx, hstarts⟩ := Prod.mk.inj hx
    obtain ⟨l, hl⟩ := runs_runAlone hrun
    cases x with
    | ok u => cases hx
    | error e =>
      have hiff := (lifecycle_finishes_iff withDatabase (searchFails ["cache"])).1 _ l e t fresh_threePlugins hl
      rw [hstarts] at hiff
      exact ⟨t, hiff.mpr (by decide +kernel), hstarts⟩
  · obtain ⟨s, x, t, l, hrun, hready, hl⟩ := @exists_lifetime (allStart []) (by decide +kernel)
    have hfacts : ((lifetime (allStart [])).map fun r => r.1.2.startedPlugins) = some ["cache", "mail", "search"] := by
      decide +kernel
    rw [hrun] at hfacts
    have hstarted : s.startedPlugins = ["cache", "mail", "search"] := Option.some.inj hfacts
    have hiff := (lifecycle_finishes_iff withDatabase (allStart [])).2 s l x t hready hl
    refine ⟨s, t, hready, hstarted, hiff.mpr ⟨rfl, ?_⟩⟩
    rw [hstarted]
    decide +kernel

/-- The stop hook of one plugin is cancelled: the plugin before it is not stopped, the database stays open, and the
application stays in the middle of its shutdown. -/
theorem lifecycle_unfinished : ∃ s l x t, Ready withDatabase s ∧ s.startedPlugins = ["cache", "mail", "search"] ∧
    (s.app.holdings .app).owned.length = 1 ∧ Runs (alone withDatabase (allStart ["mail"])) withDatabase.stop s l x t ∧
    ¬ Stopped s t ∧ t.app.state = .stopping ∧ stopsOf t.history = ["search", "mail"] ∧
    (closesOf (some .app) t.history).length = 0 := by
  obtain ⟨s, x, t, l, hrun, hready, hl⟩ := @exists_lifetime (allStart ["mail"]) (by decide +kernel)
  have hfacts : ((lifetime (allStart ["mail"])).map fun r => (r.1.2.startedPlugins,
      (r.1.2.app.holdings .app).owned.length, r.2.2.app.state, stopsOf r.2.2.history,
      (closesOf (some .app) r.2.2.history).length)) =
        some (["cache", "mail", "search"], 1, .stopping, ["search", "mail"], 0) := by decide +kernel
  rw [hrun] at hfacts
  simp only [Option.map_some, Option.some.injEq, Prod.mk.injEq] at hfacts
  obtain ⟨hstarted, howned, hstate, hstops, hcloses⟩ := hfacts
  refine ⟨s, l, x, t, hready, hstarted, howned, hl, fun h => ?_, hstate, hstops, hcloses⟩
  cases h.state.symm.trans hstate

end Xyberos.Runtime
