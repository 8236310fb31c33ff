import Xyberos.Runtime.Config

/-!
# Xyberos.Runtime.Environment — the order of the variables

`_environment_values` notices a conflict only when a value stands in the way of a longer path: a shorter path takes the
place of the table that is there, and a path that is set twice keeps the value set last.  In an order in which longer
paths come first it notices nothing.
-/

set_option autoImplicit false

namespace Xyberos.Runtime

variable (py : Builtins)

/-- The path that a variable sets; `none` for a variable that is passed over. -/
def pathOf (name : String) : Option (List String) :=
  if name = "XYBEROS_CONFIG" ∨ ¬ "XYBEROS_".toList <+: name.toList then none
  else some (splitDunder (py.lower (String.ofList (name.toList.drop 8))).toList [])

/-- A variable that is not accepted: a part of its path is empty. -/
def Malformed (environ : Table String String) : Prop := ∃ x ∈ environ.rows, ∃ path, pathOf py x.1 = some path ∧ "" ∈ path

/-- Two variables set the same path, or one sets a path on the way to the other's. -/
def Conflict (environ : Table String String) : Prop :=
  ∃ x ∈ environ.rows, ∃ y ∈ environ.rows, x.1 ≠ y.1 ∧ ∃ p q, pathOf py x.1 = some p ∧ pathOf py y.1 = some q ∧
    "" ∉ p ∧ "" ∉ q ∧ p <+: q

/-- Equal as mappings: the same values are found at the same paths. -/
def SameMapping (a b : Mapping) : Prop := ∀ path, (Tree.table a : Config).view path = (Tree.table b : Config).view path

/-- `ConfigurationError`. -/
def Refused (environ : Table String String) : Prop :=
  ∃ message, environmentValues py environ.rows = .error (configurationError message)

/-- The order of the variables does not matter, and a conflict is refused. -/
structure OrderFree (environ : Table String String) : Prop where
  agree : ∀ e e' : Table String String, e.rows.Perm environ.rows → e'.rows.Perm environ.rows →
    (∃ a b, environmentValues py e.rows = .ok a ∧ environmentValues py e'.rows = .ok b ∧ SameMapping a b) ∨
      Refused py e ∧ Refused py e'
  refused : Conflict py environ → ∀ e : Table String String, e.rows.Perm environ.rows → Refused py e

/-! ## One setting -/

section Insert

variable {parts path : List String} {value : String} {values values' : Mapping}

theorem splitDunder_ne_nil (text part : List Char) : splitDunder text part ≠ [] := by
  fun_induction splitDunder text part with
  | case1 => simp
  | case2 _ _ _ _ ih => exact ih
  | case3 => simp

theorem pathOf_ne_nil {name : String} (h : pathOf py name = some path) : path ≠ [] := by
  unfold pathOf at h
  split_ifs at h
  obtain rfl := Option.some.inj h
  exact splitDunder_ne_nil _ _

theorem view_cons (values : Mapping) (k : String) (path : List String) :
    (Tree.table values : Config).view (k :: path) = (values.lookup k).bind fun tree => tree.view path := by
  rw [Tree.view]

theorem view_put (values : Mapping) (k : String) (tree : Config) (k' : String) (path : List String) :
    (Tree.table (Tree.put k tree values) : Config).view (k' :: path) =
      if k' = k then tree.view path else (Tree.table values : Config).view (k' :: path) := by
  rw [view_cons, view_cons, Tree.lookup_put]
  split_ifs <;> rfl

/-- A longer path is set in the table under its first part. -/
theorem insertSetting_cons {part part' : String} {rest : List String}
    (h : insertSetting (part :: part' :: rest) value values = some values') :
    ∃ inner inner', insertSetting (part' :: rest) value inner = some inner' ∧
      values' = Tree.put part (.table inner') values ∧
      ∀ k path, (Tree.table values : Config).view (part :: k :: path) = (Tree.table inner : Config).view (k :: path) := by
  unfold insertSetting at h
  cases hl : values.lookup part with
  | none =>
    rw [hl] at h
    obtain ⟨inner', hi, rfl⟩ := Option.map_eq_some_iff.mp h
    refine ⟨[], inner', hi, rfl, fun k path => ?_⟩
    rw [view_cons, hl]
    rfl
  | some tree =>
    rw [hl] at h
    cases tree with
    | leaf => cases h
    | table inner =>
      obtain ⟨inner', hi, rfl⟩ := Option.map_eq_some_iff.mp h
      refine ⟨inner, inner', hi, rfl, fun k path => ?_⟩
      rw [view_cons, hl]
      rfl

/-- What is found at a path after a setting: its value, the tables on its way, nothing beyond it, and elsewhere what was
there. -/
theorem view_insertSetting (hparts : parts ≠ []) (h : insertSetting parts value values = some values')
    (path : List String) :
    (Tree.table values' : Config).view path =
      if path = parts then some (some (.str value))
      else if path <+: parts then some none
      else if parts <+: path then none
      else (Tree.table values : Config).view path := by
  induction parts generalizing values values' path with
  | nil => exact absurd rfl hparts
  | cons part rest ih =>
    cases path with
    | nil =>
      rw [if_neg (by simp), if_pos List.nil_prefix]
      rfl
    | cons k path =>
      cases rest with
      | nil =>
        obtain rfl := Option.some.inj h
        rw [view_put]
        by_cases hk : k = part
        · subst hk
          cases path with
          | nil => simp [Tree.view]
          | cons k' path => simp [Tree.view]
        · simp [hk, Ne.symm hk]
      | cons part' rest =>
        obtain ⟨inner, inner', hi, rfl, hview⟩ := insertSetting_cons h
        rw [view_put]
        by_cases hk : k = part
        · subst hk
          rw [if_pos rfl, ih (by simp) hi]
          simp only [List.cons.injEq, true_and, List.cons_prefix_cons]
          cases path with
          | nil => simp
          | cons k' path => rw [hview]
        · simp [hk, Ne.symm hk]

/-- A setting is refused where a value stands on its way. -/
theorem view_of_insertSetting_none (h : insertSetting parts value values = none) :
    ∃ path a, path ≠ [] ∧ path <+: parts ∧ path ≠ parts ∧ (Tree.table values : Config).view path = some (some a) := by
  induction parts generalizing values with
  | nil => cases h
  | cons part rest ih =>
    cases rest with
    | nil => cases h
    | cons part' rest =>
      unfold insertSetting at h
      cases hl : values.lookup part with
      | none =>
        rw [hl] at h
        obtain ⟨path, a, hne, -, -, hview⟩ := ih (Option.map_eq_none_iff.mp h)
        cases path with
        | nil => exact absurd rfl hne
        | cons k path => cases hview
      | some tree =>
        rw [hl] at h
        cases tree with
        | leaf a =>
          refine ⟨[part], a, by simp, by simp, by simp, ?_⟩
          rw [view_cons, hl]
          rfl
        | table inner =>
          obtain ⟨path, a, -, hprefix, hne, hview⟩ := ih (Option.map_eq_none_iff.mp h)
          refine ⟨part :: path, a, by simp, List.cons_prefix_cons.mpr ⟨rfl, hprefix⟩, by simpa using hne, ?_⟩
          rw [view_cons, hl]
          exact hview

end Insert

/-! ## The settings of an environment -/

section Settings

variable {py} {values values' : Mapping} {environ : List (String × String)} {x : String × String}

/-- What the turn for one variable can do. -/
theorem environmentStep_cases (py : Builtins) (values : Mapping) (x : String × String) :
    (pathOf py x.1 = none ∧ environmentStep py values x = .ok values) ∨
    ∃ path, pathOf py x.1 = some path ∧
      (("" ∈ path ∧ ∃ message, environmentStep py values x = .error (configurationError message)) ∨
      ("" ∉ path ∧ insertSetting path x.2 values = none ∧
        ∃ message, environmentStep py values x = .error (configurationError message)) ∨
      ("" ∉ path ∧ ∃ values', insertSetting path x.2 values = some values' ∧
        environmentStep py values x = .ok values')) := by
  unfold environmentStep pathOf
  dsimp only
  split_ifs with hskip hempty
  · exact .inl ⟨rfl, rfl⟩
  · exact .inr ⟨_, rfl, .inl ⟨hempty, _, rfl⟩⟩
  · refine .inr ⟨_, rfl, .inr ?_⟩
    cases hi : insertSetting (splitDunder (py.lower (String.ofList (x.1.toList.drop 8))).toList []) x.2 values with
    | none => exact .inl ⟨hempty, rfl, _, rfl⟩
    | some values' => exact .inr ⟨hempty, values', rfl, rfl⟩

theorem environmentValues_concat (environ : List (String × String)) (x : String × String) :
    environmentValues py (environ ++ [x]) =
      (environmentValues py environ).bind fun values => environmentStep py values x := by
  unfold environmentValues
  rw [List.foldlM_append]
  simp only [List.foldlM_cons, List.foldlM_nil, bind_pure]
  rfl

/-- Nothing but `ConfigurationError` is raised. -/
theorem environmentValues_or (py : Builtins) (environ : List (String × String)) :
    (∃ values, environmentValues py environ = .ok values) ∨
      ∃ message, environmentValues py environ = .error (configurationError message) := by
  induction environ using List.reverseRecOn with
  | nil => exact .inl ⟨_, rfl⟩
  | append_singleton environ x ih =>
    rw [environmentValues_concat]
    rcases ih with ⟨values, h⟩ | ⟨message, h⟩
    · rw [h]
      show (∃ values', environmentStep py values x = .ok values') ∨ _
      rcases environmentStep_cases py values x with ⟨-, h⟩ | ⟨path, -, ⟨-, h⟩ | ⟨-, -, h⟩ | ⟨-, values', -, h⟩⟩
      · exact .inl ⟨_, h⟩
      · exact .inr h
      · exact .inr h
      · exact .inl ⟨_, h⟩
    · rw [h]
      exact .inr ⟨_, rfl⟩

/-- The values in the mapping are those of accepted variables. -/
def Written (py : Builtins) (environ : List (String × String)) (values : Mapping) : Prop :=
  ∀ path a, (Tree.table values : Config).view path = some (some a) → ∃ x ∈ environ, pathOf py x.1 = some path

/-- A mapping is returned only if every path is accepted. -/
theorem written_of_ok (h : environmentValues py environ = .ok values) :
    (∀ x ∈ environ, ∀ path, pathOf py x.1 = some path → "" ∉ path) ∧ Written py environ values := by
  induction environ using List.reverseRecOn generalizing values with
  | nil =>
    obtain rfl : [] = values := Except.ok.inj h
    refine ⟨by simp, fun path a hview => ?_⟩
    cases path with
    | nil => cases hview
    | cons k path => cases hview
  | append_singleton environ x ih =>
    obtain ⟨prev, hprev, hstep⟩ := foldlM_concat_ok h
    obtain ⟨haccepted, hwritten⟩ := ih hprev
    rcases environmentStep_cases py prev x with
      ⟨hskip, hok⟩ | ⟨path, hpath, ⟨-, _, herr⟩ | ⟨-, -, _, herr⟩ | ⟨hgood, values', hi, hok⟩⟩
    · obtain rfl := Except.ok.inj (hok.symm.trans hstep)
      refine ⟨fun y hy path hpath => ?_, fun path a hview => ?_⟩
      · rcases List.mem_append.mp hy with hy | hy
        · exact haccepted y hy path hpath
        · rw [List.mem_singleton.mp hy, hskip] at hpath
          cases hpath
      · obtain ⟨y, hy, hp⟩ := hwritten path a hview
        exact ⟨y, List.mem_append_left _ hy, hp⟩
    · cases herr.symm.trans hstep
    · cases herr.symm.trans hstep
    · obtain rfl := Except.ok.inj (hok.symm.trans hstep)
      refine ⟨fun y hy path' hpath' => ?_, fun path' a hview => ?_⟩
      · rcases List.mem_append.mp hy with hy | hy
        · exact haccepted y hy path' hpath'
        · rw [List.mem_singleton.mp hy, hpath] at hpath'
          exact Option.some.inj hpath' ▸ hgood
      · rw [view_insertSetting (pathOf_ne_nil py hpath) hi] at hview
        split_ifs at hview with heq
        · exact ⟨x, by simp, heq ▸ hpath⟩
        · cases hview
        · obtain ⟨y, hy, hp⟩ := hwritten path' a hview
          exact ⟨y, List.mem_append_left _ hy, hp⟩

/-- A mapping is returned if no value stands on the way of a later path. -/
theorem ok_of_pairwise (py : Builtins) (haccepted : ∀ x ∈ environ, ∀ path, pathOf py x.1 = some path → "" ∉ path)
    (hpairs : environ.Pairwise fun x y => ∀ p q, pathOf py x.1 = some p → pathOf py y.1 = some q → p <+: q → p = q) :
    ∃ values, environmentValues py environ = .ok values := by
  induction environ using List.reverseRecOn with
  | nil => exact ⟨_, rfl⟩
  | append_singleton environ x ih =>
    obtain ⟨hpairs, -, hlast⟩ := List.pairwise_append.mp hpairs
    obtain ⟨values, hvalues⟩ := ih (fun y hy => haccepted y (List.mem_append_left _ hy)) hpairs
    rw [environmentValues_concat, hvalues]
    show ∃ values', environmentStep py values x = .ok values'
    rcases environmentStep_cases py values x with ⟨-, hok⟩ | ⟨path, hpath, ⟨hbad, -⟩ | ⟨-, hi, -⟩ | ⟨-, values', -, hok⟩⟩
    · exact ⟨_, hok⟩
    · exact absurd hbad (haccepted x (by simp) path hpath)
    · obtain ⟨path', a, -, hprefix, hne, hview⟩ := view_of_insertSetting_none hi
      obtain ⟨y, hy, hpath'⟩ := (written_of_ok hvalues).2 path' a hview
      exact absurd (hlast y hy x (by simp) path' path hpath' hpath hprefix) hne
    · exact ⟨_, hok⟩

/-- The mapping of an environment without conflicts: each value at its path, tables on the way, and nothing else. -/
structure Determined (py : Builtins) (environ : List (String × String)) (values : Mapping) : Prop where
  value : ∀ x ∈ environ, ∀ path, pathOf py x.1 = some path →
    (Tree.table values : Config).view path = some (some (.str x.2))
  table : ∀ x ∈ environ, ∀ path p, pathOf py x.1 = some p → path <+: p → path ≠ p →
    (Tree.table values : Config).view path = some none
  absent : ∀ path, path ≠ [] → (∀ x ∈ environ, ∀ p, pathOf py x.1 = some p → ¬ path <+: p) →
    (Tree.table values : Config).view path = none

theorem determined_of_ok (hpairs : environ.Pairwise fun x y => ∀ p q, pathOf py x.1 = some p →
      pathOf py y.1 = some q → ¬ p <+: q ∧ ¬ q <+: p)
    (h : environmentValues py environ = .ok values) : Determined py environ values := by
  induction environ using List.reverseRecOn generalizing values with
  | nil =>
    obtain rfl : [] = values := Except.ok.inj h
    refine ⟨by simp, by simp, fun path hne _ => ?_⟩
    cases path with
    | nil => exact absurd rfl hne
    | cons k path => rfl
  | append_singleton environ x ih =>
    obtain ⟨hpairs, -, hlast⟩ := List.pairwise_append.mp hpairs
    obtain ⟨prev, hprev, hstep⟩ := foldlM_concat_ok h
    have hd := ih hpairs hprev
    rcases environmentStep_cases py prev x with ⟨hskip, hok⟩ | ⟨path, hpath, ⟨-, _, herr⟩ | ⟨-, -, _, herr⟩ | ⟨-, values', hi, hok⟩⟩
    · obtain rfl := Except.ok.inj (hok.symm.trans hstep)
      have hold : ∀ y ∈ environ ++ [x], ∀ p, pathOf py y.1 = some p → y ∈ environ := by
        intro y hy p hp
        rcases List.mem_append.mp hy with hy | hy
        · exact hy
        · rw [List.mem_singleton.mp hy, hskip] at hp
          cases hp
      refine ⟨fun y hy p hp => hd.value y (hold y hy p hp) p hp, fun y hy path p hp => ?_, fun path hne hnone => ?_⟩
      · exact hd.table y (hold y hy p hp) path p hp
      · exact hd.absent path hne fun y hy => hnone y (List.mem_append_left _ hy)
    · cases herr.symm.trans hstep
    · cases herr.symm.trans hstep
    · obtain rfl := Except.ok.inj (hok.symm.trans hstep)
      have hview := view_insertSetting (pathOf_ne_nil py hpath) hi
      refine ⟨fun y hy p hp => ?_, fun y hy path' p hp hprefix hne => ?_, fun path' hne hnone => ?_⟩
      · rw [hview]
        rcases List.mem_append.mp hy with hy | hy
        · obtain ⟨hnot, hnot'⟩ := hlast y hy x (by simp) p path hp hpath
          have hother : p ≠ path := by
            rintro rfl
            exact hnot List.prefix_rfl
          rw [if_neg hother, if_neg hnot, if_neg hnot']
          exact hd.value y hy p hp
        · obtain rfl := List.mem_singleton.mp hy
          rw [if_pos (Option.some.inj (hp.symm.trans hpath))]
      · rw [hview]
        rcases List.mem_append.mp hy with hy | hy
        · obtain ⟨hnot, hnot'⟩ := hlast y hy x (by simp) p path hp hpath
          have hother : path' ≠ path := by
            rintro rfl
            exact hnot' hprefix
          rw [if_neg hother]
          split_ifs with h h
          · rfl
          · exact absurd (h.trans hprefix) hnot'
          · exact hd.table y hy path' p hp hprefix hne
        · obtain rfl := List.mem_singleton.mp hy
          obtain rfl := Option.some.inj (hp.symm.trans hpath)
          rw [if_neg hne, if_pos hprefix]
      · have hnot : ¬ path' <+: path := hnone x (by simp) path hpath
        have hother : path' ≠ path := by
          rintro rfl
          exact hnot List.prefix_rfl
        rw [hview, if_neg hother, if_neg hnot]
        split_ifs with h
        · rfl
        · exact hd.absent path' hne fun y hy => hnone y (List.mem_append_left _ hy)

end Settings

/-! ## The order of the variables -/

section Orders

variable {py} {environ e : Table String String} {a b : Mapping}

theorem Determined.sameMapping {l l' : List (String × String)} (ha : Determined py l a) (hb : Determined py l' b)
    (hmem : ∀ x, x ∈ l ↔ x ∈ l') : SameMapping a b := by
  intro path
  cases path with
  | nil => rw [Tree.view, Tree.view]
  | cons k path =>
    by_cases hset : ∃ x ∈ l, ∃ p, pathOf py x.1 = some p ∧ k :: path <+: p
    · obtain ⟨x, hx, p, hp, hprefix⟩ := hset
      by_cases heq : k :: path = p
      · rw [ha.value x hx _ (heq ▸ hp), hb.value x ((hmem x).mp hx) _ (heq ▸ hp)]
      · rw [ha.table x hx _ p hp hprefix heq, hb.table x ((hmem x).mp hx) _ p hp hprefix heq]
    · push Not at hset
      rw [ha.absent _ (by simp) hset, hb.absent _ (by simp) fun x hx => hset x ((hmem x).mpr hx)]

/-- Distinct variables without conflicts set paths that do not lie on each other's way. -/
theorem pairwise_of_not_conflict (hgood : ¬ Malformed py environ) (hfree : ¬ Conflict py environ)
    (he : e.rows.Perm environ.rows) : e.rows.Pairwise fun x y => ∀ p q, pathOf py x.1 = some p →
      pathOf py y.1 = some q → ¬ p <+: q ∧ ¬ q <+: p := by
  have hnames : e.rows.Pairwise fun x y => x.1 ≠ y.1 := List.pairwise_map.mp e.nodup
  refine hnames.imp_of_mem fun {x y} hx hy hne p q hp hq => ?_
  have hx' := he.subset hx
  have hy' := he.subset hy
  have hpgood : "" ∉ p := fun h => hgood ⟨x, hx', p, hp, h⟩
  have hqgood : "" ∉ q := fun h => hgood ⟨y, hy', q, hq, h⟩
  exact ⟨fun h => hfree ⟨x, hx', y, hy', hne, p, q, hp, hq, hpgood, hqgood, h⟩,
    fun h => hfree ⟨y, hy', x, hx', Ne.symm hne, q, p, hq, hp, hqgood, hpgood, h⟩⟩

theorem refused_of_malformed (hbad : Malformed py environ) (he : e.rows.Perm environ.rows) : Refused py e := by
  rcases environmentValues_or py e.rows with ⟨values, h⟩ | h
  · obtain ⟨x, hx, path, hpath, hempty⟩ := hbad
    exact absurd hempty ((written_of_ok h).1 x (he.mem_iff.mpr hx) path hpath)
  · exact h

/-- With the longer paths first no conflict is noticed. -/
theorem exists_accepted (hgood : ¬ Malformed py environ) :
    ∃ e : Table String String, e.rows.Perm environ.rows ∧ ∃ values, environmentValues py e.rows = .ok values := by
  let size (x : String × String) : ℕ := ((pathOf py x.1).getD []).length
  have hperm : (environ.rows.mergeSort fun x y => size y ≤ size x).Perm environ.rows := List.mergeSort_perm ..
  have hsorted : (environ.rows.mergeSort fun x y => decide (size y ≤ size x)).Pairwise fun x y =>
      decide (size y ≤ size x) = true := List.pairwise_mergeSort
    (fun x y z hxy hyz => decide_eq_true ((of_decide_eq_true hyz).trans (of_decide_eq_true hxy)))
    (fun x y => by simpa using Nat.le_total (size y) (size x)) environ.rows
  refine ⟨⟨_, (hperm.map Prod.fst).nodup_iff.mpr environ.nodup⟩, hperm, ok_of_pairwise py ?_ ?_⟩
  · exact fun x hx path hpath hempty => hgood ⟨x, hperm.subset hx, path, hpath, hempty⟩
  · refine hsorted.imp fun {x y} hle p q hp hq hprefix => hprefix.eq_of_length_le ?_
    simpa [size, hp, hq] using hle

/-- **The order of the variables does not matter and conflicts are refused** exactly when there is no conflict, or when a
name is malformed: then every order is refused. -/
theorem orderFree_iff (py : Builtins) (environ : Table String String) :
    OrderFree py environ ↔ Malformed py environ ∨ ¬ Conflict py environ := by
  constructor
  · intro h
    by_contra hnot
    obtain ⟨hgood, hconflict⟩ := not_or.mp hnot
    obtain ⟨e, he, values, hok⟩ := exists_accepted hgood
    obtain ⟨message, herr⟩ := h.refused (not_not.mp hconflict) e he
    cases hok.symm.trans herr
  · rintro (hbad | hfree)
    · exact ⟨fun e e' he he' => .inr ⟨refused_of_malformed hbad he, refused_of_malformed hbad he'⟩,
        fun _ e he => refused_of_malformed hbad he⟩
    · refine ⟨fun e e' he he' => ?_, fun h => absurd h hfree⟩
      by_cases hbad : Malformed py environ
      · exact .inr ⟨refused_of_malformed hbad he, refused_of_malformed hbad he'⟩
      · have hmapping : ∀ {e : Table String String}, e.rows.Perm environ.rows →
            ∃ values, environmentValues py e.rows = .ok values ∧ Determined py e.rows values := by
          intro e he
          have hpairs := pairwise_of_not_conflict hbad hfree he
          obtain ⟨values, hok⟩ := ok_of_pairwise py
            (fun x hx path hpath hempty => hbad ⟨x, he.subset hx, path, hpath, hempty⟩)
            (hpairs.imp fun h p q hp hq hprefix => absurd hprefix (h p q hp hq).1)
          exact ⟨values, hok, determined_of_ok hpairs hok⟩
        obtain ⟨a, ha, hda⟩ := hmapping he
        obtain ⟨b, hb, hdb⟩ := hmapping he'
        exact .inl ⟨a, b, ha, hb, hda.sameMapping hdb fun x => (he.mem_iff).trans he'.mem_iff.symm⟩

/-- A variable with a long path, and one that sets a part of it. -/
def nestedThenFlat : Table String String where
  rows := [("XYBEROS_DATABASE__URL", "sqlite://"), ("XYBEROS_DATABASE", "off")]
  nodup := by decide

/-- The value of the first variable is lost, without an error. -/
theorem not_orderFree_nestedThenFlat : ¬ OrderFree asciiBuiltins nestedThenFlat := by
  intro h
  have hconflict : Conflict asciiBuiltins nestedThenFlat := by
    refine ⟨("XYBEROS_DATABASE", "off"), by decide, ("XYBEROS_DATABASE__URL", "sqlite://"), by decide, by decide,
      ["database"], ["database", "url"], by decide +kernel, by decide +kernel, by decide, by decide, by decide⟩
  obtain ⟨message, herr⟩ := h.refused hconflict nestedThenFlat (List.Perm.refl _)
  have hok : (environmentValues asciiBuiltins nestedThenFlat.rows).toOption.isSome := by decide +kernel
  rw [herr] at hok
  cases hok

end Orders

end Xyberos.Runtime
