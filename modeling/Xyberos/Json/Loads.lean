import Xyberos.Json.Values

/-!
# Xyberos.Json.Loads — `json.loads`, and what comes back

The scanner of `json.loads`, over texts, with a bound on its calls that no text reaches.  Whatever the text, a value
that is read is plain: its keys are strings, it has no tuples and none of its strings has a pair of surrogates.  A plain
value that was written is read back as itself.
-/

set_option autoImplicit false

namespace Xyberos.Json

variable {F : Type}

/-! ## `json.loads` -/

/-- `JSONDecodeError`; its messages, which give the position, are left out. -/
def jsonDecodeError : Exc := ⟨⟨"JSONDecodeError", ["ValueError", "Exception", "BaseException"]⟩, "Expecting value"⟩

def isJsonSpace (c : Char) : Bool := c == ' ' || c == '\t' || c == '\n' || c == '\r'

def skipSpace (text : List Char) : List Char := text.dropWhile isJsonSpace

/-- The words that are read as scalars.  Every `NaN` is the one object of the decoder. -/
def constants (F : Type) : List (List Char × Scalar F) :=
  [(['n', 'u', 'l', 'l'], .none), (['t', 'r', 'u', 'e'], .bool true), (['f', 'a', 'l', 's', 'e'], .bool false),
    (['N', 'a', 'N'], .float (.nan 0)), (['I', 'n', 'f', 'i', 'n', 'i', 't', 'y'], .float (.infinite false)),
    (['-', 'I', 'n', 'f', 'i', 'n', 'i', 't', 'y'], .float (.infinite true))]

/-- The rest of a text behind a word. -/
def dropWord : List Char → List Char → Option (List Char)
  | [], text => some text
  | _ :: _, [] => none
  | c :: word, d :: text => if c = d then dropWord word text else none

def scanConstant (text : List Char) : Option (Scalar F × List Char) :=
  (constants F).findSome? fun c => (dropWord c.1 text).map fun rest => (c.2, rest)

namespace Interpreter

variable (py : Interpreter F)

/-- A number, converted: an `int` may have too many digits. -/
def readNumber (n : Number) : Except Exc (Scalar F) :=
  if n.isFloat then .ok (.float (py.read n))
  else
    let digits := (n.int.filter Char.isDigit).length
    if py.maxStrDigits ≠ 0 ∧ py.maxStrDigits < digits then
      .error (valueError (s!"Exceeds the limit ({py.maxStrDigits} digits) for integer string conversion: " ++
        s!"value has {digits} digits; use sys.set_int_max_str_digits() to increase the limit"))
    else .ok (.int (readInt n.int))

/-- A constant or a number. -/
def scanScalar (text : List Char) : Except Exc (Scalar F × List Char) :=
  match scanConstant text with
  | some scanned => .ok scanned
  | none =>
    match scanNumber text with
    | none => .error jsonDecodeError
    | some (n, rest) => do return (← py.readNumber n, rest)

end Interpreter

/-- `d[key] = value` for a member of a dictionary that is read: the last of a key counts, in the place of the first. -/
def setMember (key : Str) (v : Value F) : List (Str × Value F) → List (Str × Value F)
  | [] => [(key, v)]
  | m :: members => if m.1 = key then (key, v) :: members else m :: setMember key v members

def dictOf (members : List (Str × Value F)) : Value F :=
  .dict ((members.foldl (fun d m => setMember m.1 m.2 d) []).map fun m => (.str m.1, m.2))

namespace Interpreter

variable (py : Interpreter F)

mutual

/-- `scan_once`, within a number of calls and of nested containers. -/
def scanOnce : ℕ → ℕ → List Char → Except Exc (Value F × List Char)
  | 0, _, _ => .error jsonDecodeError
  | calls + 1, depth, text =>
    match text with
    | '"' :: text =>
      match scanString text with
      | none => .error jsonDecodeError
      | some (s, rest) => .ok (.scalar (.str s), rest)
    | '[' :: text =>
      match depth with
      | 0 => .error recursionError
      | depth + 1 =>
        match skipSpace text with
        | ']' :: rest => .ok (.list [], rest)
        | text => do
          let (items, rest) ← scanItems calls depth text
          return (.list items, rest)
    | '{' :: text =>
      match depth with
      | 0 => .error recursionError
      | depth + 1 =>
        match skipSpace text with
        | '}' :: rest => .ok (.dict [], rest)
        | text => do
          let (members, rest) ← scanMembers calls depth text
          return (dictOf members, rest)
    | text => do
      let (s, rest) ← py.scanScalar text
      return (.scalar s, rest)

/-- The items of an array, from the first on. -/
def scanItems : ℕ → ℕ → List Char → Except Exc (List (Value F) × List Char)
  | 0, _, _ => .error jsonDecodeError
  | calls + 1, depth, text => do
    let (v, rest) ← scanOnce calls depth text
    match skipSpace rest with
    | ']' :: rest => return ([v], rest)
    | ',' :: rest => do
      let (items, rest) ← scanItems calls depth (skipSpace rest)
      return (v :: items, rest)
    | _ => .error jsonDecodeError

/-- The members of an object, from the first on. -/
def scanMembers : ℕ → ℕ → List Char → Except Exc (List (Str × Value F) × List Char)
  | 0, _, _ => .error jsonDecodeError
  | calls + 1, depth, text =>
    match text with
    | '"' :: text =>
      match scanString text with
      | none => .error jsonDecodeError
      | some (key, rest) =>
        match skipSpace rest with
        | ':' :: rest => do
          let (v, rest) ← scanOnce calls depth (skipSpace rest)
          match skipSpace rest with
          | '}' :: rest => return ([(key, v)], rest)
          | ',' :: rest => do
            let (members, rest) ← scanMembers calls depth (skipSpace rest)
            return ((key, v) :: members, rest)
          | _ => .error jsonDecodeError
        | _ => .error jsonDecodeError
    | _ => .error jsonDecodeError

end

/-- `json.loads`. -/
def loads (text : List Char) : Except Exc (Value F) := do
  let (v, rest) ← py.scanOnce (2 * text.length + 1) py.decodeDepth (skipSpace text)
  if skipSpace rest = [] then return v else .error jsonDecodeError

end Interpreter

/-! ## Whatever is read is plain -/

/-- The keys are strings, there are no tuples, and no string has a pair of surrogates. -/
def Value.Plain : Value F → Prop :=
  Every (fun s => ∀ t, s = .str t → ¬ Paired t) False fun keys => ∀ key ∈ keys, ∃ t, key = .str t ∧ ¬ Paired t

namespace Interpreter

variable (py : Interpreter F)

/-- The keys of every dictionary are different, as keys are compared. -/
def Valid : Value F → Prop :=
  Value.Every (fun _ => True) True fun keys => keys.Pairwise fun a b => ¬ Scalar.Equal py.toFloats a b

/-- No `int` has too many digits. -/
def Printed : Value F → Prop :=
  Value.Every py.Printable True fun keys => ∀ key ∈ keys, py.Printable key

end Interpreter

theorem mem_setMember {key : Str} {v : Value F} {members : List (Str × Value F)} {m : Str × Value F}
    (h : m ∈ setMember key v members) : m = (key, v) ∨ m ∈ members := by
  induction members with
  | nil => exact .inl (List.mem_singleton.mp h)
  | cons m' members ih =>
    unfold setMember at h
    split_ifs at h with hkey
    · exact (List.mem_cons.mp h).imp_right (List.mem_cons_of_mem _)
    · rcases List.mem_cons.mp h with rfl | h
      · exact .inr (List.mem_cons_self ..)
      · exact (ih h).imp_right (List.mem_cons_of_mem _)

theorem nodup_setMember {key : Str} {v : Value F} {members : List (Str × Value F)}
    (h : (members.map Prod.fst).Nodup) : ((setMember key v members).map Prod.fst).Nodup := by
  induction members with
  | nil => exact List.nodup_singleton key
  | cons m members ih =>
    obtain ⟨hm, hmembers⟩ := List.nodup_cons.mp h
    unfold setMember
    split_ifs with hkey
    · subst hkey
      exact List.nodup_cons.mpr ⟨hm, hmembers⟩
    · refine List.nodup_cons.mpr ⟨fun hmem => ?_, ih hmembers⟩
      obtain ⟨m', hm', heq⟩ := List.mem_map.mp hmem
      rcases mem_setMember hm' with rfl | hm'
      · exact hkey heq.symm
      · exact hm (List.mem_map.mpr ⟨m', hm', heq⟩)

theorem mem_foldl_setMember {members d : List (Str × Value F)} {m : Str × Value F}
    (h : m ∈ members.foldl (fun d m => setMember m.1 m.2 d) d) : m ∈ members ∨ m ∈ d := by
  induction members generalizing d with
  | nil => exact .inr h
  | cons m' members ih =>
    rcases ih h with h | h
    · exact .inl (List.mem_cons_of_mem _ h)
    · rcases mem_setMember h with rfl | h
      · exact .inl (List.mem_cons_self ..)
      · exact .inr h

theorem mem_constants {text : List Char} {s : Scalar F} {rest : List Char} (h : scanConstant text = some (s, rest)) :
    ∃ word, (word, s) ∈ constants F ∧ dropWord word text = some rest := by
  obtain ⟨c, hc, h⟩ := List.exists_of_findSome?_eq_some h
  obtain ⟨rest', hrest, h⟩ := Option.map_eq_some_iff.mp h
  obtain ⟨rfl, rfl⟩ := Prod.mk.inj h
  exact ⟨c.1, hc, hrest⟩

namespace Interpreter

variable {py : Interpreter F}

theorem plain_of_scanScalar {text : List Char} {s : Scalar F} {rest : List Char}
    (h : py.scanScalar text = .ok (s, rest)) : (∀ t, s ≠ .str t) ∧ py.Printable s := by
  unfold scanScalar at h
  cases hc : (scanConstant text : Option (Scalar F × List Char)) with
  | some scanned =>
    rw [hc] at h
    obtain rfl := Except.ok.inj h
    obtain ⟨word, hword, -⟩ := mem_constants hc
    simp only [constants, List.mem_cons, Prod.mk.injEq, List.not_mem_nil, or_false] at hword
    obtain ⟨-, rfl⟩ | ⟨-, rfl⟩ | ⟨-, rfl⟩ | ⟨-, rfl⟩ | ⟨-, rfl⟩ | ⟨-, rfl⟩ := hword <;> exact ⟨nofun, trivial⟩
  | none =>
    rw [hc] at h
    dsimp only at h
    cases hn : scanNumber text with
    | none => rw [hn] at h; cases h
    | some scanned =>
      rw [hn] at h
      obtain ⟨s', hs', h⟩ := bind_eq_ok.mp h
      obtain ⟨rfl, -⟩ := Prod.mk.inj (Except.ok.inj h)
      unfold readNumber at hs'
      dsimp only at hs'
      split_ifs at hs' with hfloat hdigits
      · obtain rfl := Except.ok.inj hs'
        exact ⟨nofun, trivial⟩
      · obtain rfl := Except.ok.inj hs'
        refine ⟨nofun, ?_⟩
        rw [not_and_or, not_not, not_lt] at hdigits
        exact hdigits.imp_right fun h => (digitsOf_readInt_le hn).trans h

variable (py)

/-- What holds of a value that `loads` returns: it is plain, its dictionaries have different keys, its `int`s are short
enough to be converted, and it is nested no deeper than the scanner may go. -/
structure Loaded (depth : ℕ) (v : Value F) : Prop where
  plain : v.Plain
  valid : py.Valid v
  printed : py.Printed v
  depth_le : v.depth ≤ depth

variable {py}

theorem loaded_scalar {s : Scalar F} (h : ∀ t, s = .str t → ¬ Paired t) (hp : py.Printable s) (depth : ℕ) :
    py.Loaded depth (.scalar s) :=
  ⟨h, trivial, hp, Nat.zero_le _⟩

theorem loaded_list {depth : ℕ} {items : List (Value F)} (h : ∀ v ∈ items, py.Loaded depth v) :
    py.Loaded (depth + 1) (.list items) where
  plain := Value.every_list.mpr fun v hv => (h v hv).plain
  valid := Value.every_list.mpr fun v hv => (h v hv).valid
  printed := Value.every_list.mpr fun v hv => (h v hv).printed
  depth_le := Value.depth_list_le.mpr ⟨depth, rfl, fun v hv => (h v hv).depth_le⟩

theorem nodup_foldl_setMember {members d : List (Str × Value F)} (h : (d.map Prod.fst).Nodup) :
    ((members.foldl (fun d m => setMember m.1 m.2 d) d).map Prod.fst).Nodup := by
  induction members generalizing d with
  | nil => exact h
  | cons m members ih => exact ih (nodup_setMember h)

theorem loaded_dictOf {depth : ℕ} {members : List (Str × Value F)}
    (h : ∀ m ∈ members, ¬ Paired m.1 ∧ py.Loaded depth m.2) : py.Loaded (depth + 1) (dictOf members) := by
  have hmem : ∀ m ∈ members.foldl (fun d m => setMember m.1 m.2 d) [], m ∈ members :=
    fun m hm => (mem_foldl_setMember hm).resolve_right List.not_mem_nil
  have hnodup : ((members.foldl (fun d m => setMember m.1 m.2 d) []).map Prod.fst).Nodup :=
    nodup_foldl_setMember List.nodup_nil
  constructor
  · rw [dictOf, Value.Plain, Value.every_dict, List.forall_mem_map, List.forall_mem_map, List.forall_mem_map]
    exact ⟨fun m hm => ⟨m.1, rfl, (h m (hmem m hm)).1⟩, fun m hm => (h m (hmem m hm)).2.plain⟩
  · rw [dictOf, Valid, Value.every_dict, List.forall_mem_map, List.map_map]
    refine ⟨List.pairwise_map.mpr ?_, fun m hm => (h m (hmem m hm)).2.valid⟩
    exact (List.pairwise_map.mp hnodup).imp fun hne heq => hne heq
  · rw [dictOf, Printed, Value.every_dict, List.forall_mem_map, List.forall_mem_map, List.forall_mem_map]
    exact ⟨fun _ _ => trivial, fun m hm => (h m (hmem m hm)).2.printed⟩
  · rw [dictOf, Value.depth_dict_le]
    exact ⟨depth, rfl, List.forall_mem_map.mpr fun m hm => (h m (hmem m hm)).2.depth_le⟩

variable (py)

/-- What the three scanners return. -/
structure Sound (calls depth : ℕ) (text : List Char) : Prop where
  value : ∀ v rest, py.scanOnce calls depth text = .ok (v, rest) → py.Loaded depth v
  items : ∀ items rest, py.scanItems calls depth text = .ok (items, rest) → ∀ v ∈ items, py.Loaded depth v
  members : ∀ members rest, py.scanMembers calls depth text = .ok (members, rest) →
    ∀ m ∈ members, ¬ Paired m.1 ∧ py.Loaded depth m.2

variable {py}

theorem sound (calls : ℕ) : ∀ depth text, py.Sound calls depth text := by
  induction calls with
  | zero => exact fun depth text => ⟨nofun, nofun, nofun⟩
  | succ calls ih =>
    intro depth text
    refine ⟨fun v rest h => ?_, fun items rest h => ?_, fun members rest h => ?_⟩
    · -- a value, by its first character
      unfold scanOnce at h
      split at h
      · -- a string
        split at h
        · cases h
        · next s rest' hs =>
          obtain ⟨rfl, rfl⟩ := Prod.mk.inj (Except.ok.inj h)
          have hprintable : py.Printable (.str s) := trivial
          refine loaded_scalar (fun t ht => ?_) hprintable depth
          obtain rfl := Scalar.str.inj ht
          exact not_paired_of_scanString hs
      · -- an array; at depth zero it is nested too deep
        cases depth with
        | zero => cases h
        | succ depth =>
          dsimp only at h
          split at h
          · obtain ⟨rfl, rfl⟩ := Prod.mk.inj (Except.ok.inj h)
            exact loaded_list (by simp)
          · obtain ⟨⟨items, rest'⟩, hitems, h⟩ := bind_eq_ok.mp h
            obtain ⟨rfl, rfl⟩ := Prod.mk.inj (Except.ok.inj h)
            exact loaded_list ((ih depth _).items items rest' hitems)
      · -- an object
        cases depth with
        | zero => cases h
        | succ depth =>
          dsimp only at h
          split at h
          · obtain ⟨rfl, rfl⟩ := Prod.mk.inj (Except.ok.inj h)
            have hnone : ∀ m ∈ ([] : List (Str × Value F)), ¬ Paired m.1 ∧ py.Loaded depth m.2 := by
              simp
            exact loaded_dictOf hnone
          · obtain ⟨⟨members, rest'⟩, hmembers, h⟩ := bind_eq_ok.mp h
            obtain ⟨rfl, rfl⟩ := Prod.mk.inj (Except.ok.inj h)
            exact loaded_dictOf ((ih depth _).members members rest' hmembers)
      · -- a constant or a number
        obtain ⟨⟨s, rest'⟩, hs, h⟩ := bind_eq_ok.mp h
        obtain ⟨rfl, rfl⟩ := Prod.mk.inj (Except.ok.inj h)
        obtain ⟨hstr, hp⟩ := plain_of_scanScalar hs
        exact loaded_scalar (fun t ht => absurd ht (hstr t)) hp depth
    · -- the items of an array
      unfold scanItems at h
      obtain ⟨⟨v, rest'⟩, hv, h⟩ := bind_eq_ok.mp h
      dsimp only at h
      split at h
      · obtain ⟨rfl, rfl⟩ := Prod.mk.inj (Except.ok.inj h)
        exact List.forall_mem_singleton.mpr ((ih depth text).value v rest' hv)
      · obtain ⟨⟨items', rest''⟩, hitems, h⟩ := bind_eq_ok.mp h
        obtain ⟨rfl, rfl⟩ := Prod.mk.inj (Except.ok.inj h)
        exact List.forall_mem_cons.mpr ⟨(ih depth text).value v rest' hv, (ih depth _).items _ _ hitems⟩
      · cases h
    · -- the members of an object
      unfold scanMembers at h
      split at h
      · split at h
        · cases h
        · next key rest₀ hkey =>
          split at h
          · obtain ⟨⟨v, rest'⟩, hv, h⟩ := bind_eq_ok.mp h
            have hmember := And.intro (not_paired_of_scanString hkey) ((ih depth _).value v rest' hv)
            dsimp only at h
            split at h
            · obtain ⟨rfl, rfl⟩ := Prod.mk.inj (Except.ok.inj h)
              exact List.forall_mem_singleton.mpr hmember
            · obtain ⟨⟨members', rest''⟩, hmembers, h⟩ := bind_eq_ok.mp h
              obtain ⟨rfl, rfl⟩ := Prod.mk.inj (Except.ok.inj h)
              exact List.forall_mem_cons.mpr ⟨hmember, (ih depth _).members _ _ hmembers⟩
            · cases h
          · cases h
      · cases h

/-- Whatever the text, a value that is read is well formed, and plain. -/
theorem loaded_of_loads {text : List Char} {v : Value F} (h : py.loads text = .ok v) : py.Loaded py.decodeDepth v := by
  obtain ⟨⟨v', rest⟩, hscan, h⟩ := bind_eq_ok.mp h
  dsimp only at h
  split_ifs at h
  obtain rfl := Except.ok.inj h
  exact (sound _ _ _).value v' rest hscan

end Interpreter

/-- What equals a plain value is plain, and nested as deep at most. -/
theorem Value.Same.plain {v w : Value F} (h : v.Same w) (hw : w.Plain) : v.Plain ∧ ∀ d, w.depth ≤ d → v.depth ≤ d := by
  induction v using Value.induct generalizing w with
  | scalar s =>
    obtain ⟨t, rfl, hsame⟩ := Value.same_scalar.mp h
    refine ⟨?_, fun _ hd => hd⟩
    rcases hsame with rfl | ⟨i, j, rfl, -⟩
    · exact hw
    · exact fun t ht => by cases ht
  | list items ih =>
    obtain ⟨items', rfl, hitems⟩ := Value.same_list.mp h
    have hw' := Value.every_list.mp hw
    refine ⟨Value.every_list.mpr fun v hv => ?_, fun d hd => ?_⟩
    · obtain ⟨v', hv', hsame⟩ := forall₂_mem hitems hv
      exact (ih v hv hsame (hw' v' hv')).1
    · obtain ⟨d', rfl, hparts⟩ := Value.depth_list_le.mp hd
      refine Value.depth_list_le.mpr ⟨d', rfl, fun v hv => ?_⟩
      obtain ⟨v', hv', hsame⟩ := forall₂_mem hitems hv
      exact (ih v hv hsame (hw' v' hv')).2 d' (hparts v' hv')
  | tuple items =>
    obtain ⟨items', rfl, -⟩ := Value.same_tuple.mp h
    exact (Value.every_tuple.mp hw).1.elim
  | dict items ih =>
    obtain ⟨items', rfl, -, hitems⟩ := Value.same_dict.mp h
    obtain ⟨hkeys, hw'⟩ := Value.every_dict.mp hw
    refine ⟨Value.every_dict.mpr ⟨List.forall_mem_map.mpr fun m hm => ?_, fun m hm => ?_⟩, fun d hd => ?_⟩
    · obtain ⟨v', hv', -⟩ := hitems m hm
      exact hkeys m.1 (List.mem_map.mpr ⟨_, hv', rfl⟩)
    · obtain ⟨v', hv', hsame⟩ := hitems m hm
      exact (ih m hm hsame (hw' _ hv')).1
    · obtain ⟨d', rfl, hparts⟩ := Value.depth_dict_le.mp hd
      refine Value.depth_dict_le.mpr ⟨d', rfl, fun m hm => ?_⟩
      obtain ⟨v', hv', hsame⟩ := hitems m hm
      exact (ih m hm hsame (hw' _ hv')).2 d' (hparts _ hv')

/-! ## A plain value that was written is read back -/

theorem dropWord_eq_some {word text rest : List Char} (h : dropWord word text = some rest) : text = word ++ rest := by
  induction word generalizing text with
  | nil => exact Option.some.inj h
  | cons c word ih =>
    cases text with
    | nil => cases h
    | cons d text =>
      unfold dropWord at h
      split_ifs at h with hc
      rw [hc, ih h]
      rfl

/-- A number starts with a digit, or with a sign before one. -/
theorem Number.WellFormed.head {n : Number} (h : n.WellFormed) :
    ∃ sign d more, n.text = sign ++ d :: more ∧ (sign = [] ∨ sign = ['-']) ∧ d.isDigit = true := by
  obtain ⟨sign, digits, hint, hsign, hdigits⟩ := h.int
  have hhead : ∃ d more, digits = d :: more ∧ d.isDigit = true := by
    rcases hdigits with rfl | ⟨⟨hne, hall⟩, -⟩
    · exact ⟨'0', [], rfl, rfl⟩
    · obtain ⟨d, more, rfl⟩ := List.exists_cons_of_ne_nil hne
      exact ⟨d, more, rfl, hall d (List.mem_cons_self ..)⟩
  obtain ⟨d, more, rfl, hd⟩ := hhead
  refine ⟨sign, d, more ++ n.frac ++ n.exp, ?_, hsign, hd⟩
  rw [Number.text, hint]
  simp

/-- A number is not one of the words. -/
theorem scanConstant_number {n : Number} (h : n.WellFormed) (rest : List Char) :
    (scanConstant (n.text ++ rest) : Option (Scalar F × List Char)) = none := by
  obtain ⟨sign, d, more, htext, hsign, hd⟩ := h.head
  rw [Option.eq_none_iff_forall_ne_some]
  rintro ⟨s, rest'⟩ hc
  obtain ⟨word, hword, hdrop⟩ := mem_constants hc
  have heq := dropWord_eq_some hdrop
  rw [htext] at heq
  have hdigit : ∀ c : Char, c.isDigit = false → d ≠ c := by
    rintro c hc rfl
    rw [hd] at hc
    cases hc
  have hminus := hdigit '-' rfl
  have hn := hdigit 'n' rfl
  have ht := hdigit 't' rfl
  have hf := hdigit 'f' rfl
  have hN := hdigit 'N' rfl
  have hI := hdigit 'I' rfl
  rcases hsign with rfl | rfl <;> simp [constants] at hword <;>
    rcases hword with ⟨rfl, -⟩ | ⟨rfl, -⟩ | ⟨rfl, -⟩ | ⟨rfl, -⟩ | ⟨rfl, -⟩ | ⟨rfl, -⟩ <;> simp_all

namespace Interpreter

variable {py : Interpreter F}

theorem readNumber_repr (x : F) : py.readNumber (py.repr x) = .ok (.float (.finite x)) := by
  rw [readNumber, if_pos (py.repr_isFloat x), py.read_repr]

theorem readNumber_int {i : ℤ} (h : py.Printable (.int i)) : py.readNumber (intNumber i) = .ok (.int i) := by
  have hfilter : ((intText i).filter Char.isDigit).length = digitsOf i := by
    have hall := List.filter_eq_self.mpr (digits_toDigits i.natAbs).2
    unfold intText digitsOf
    split_ifs
    · rw [List.filter_cons_of_neg (by decide), hall]
    · rw [hall]
  have hfits : ¬ (py.maxStrDigits ≠ 0 ∧ py.maxStrDigits < digitsOf i) := by
    rcases h with h | h
    · exact fun hn => hn.1 h
    · exact fun hn => absurd hn.2 (Nat.not_lt.mpr h)
  rw [readNumber, if_neg (by simp [Number.isFloat, intNumber])]
  dsimp only [intNumber]
  rw [hfilter, if_neg hfits, readInt_intText]

theorem scanScalar_number {n : Number} (h : n.WellFormed) {s : Scalar F} (hs : py.readNumber n = .ok s)
    {rest : List Char} (hrest : Stops rest) : py.scanScalar (n.text ++ rest) = .ok (s, rest) := by
  rw [scanScalar, scanConstant_number h, scanNumber_text h hrest]
  dsimp only
  rw [hs]
  rfl

/-- A scalar other than a string is read back. -/
theorem scanScalar_lexeme {s : Scalar F} (hs : ∀ t, s ≠ .str t) (hp : py.Printable s) {rest : List Char}
    (hrest : Stops rest) : ∃ t, py.scanScalar (py.lexeme s ++ rest) = .ok (t, rest) ∧ s.Same t := by
  cases s with
  | none => exact ⟨.none, rfl, .inl rfl⟩
  | bool b => exact ⟨.bool b, by cases b <;> rfl, .inl rfl⟩
  | int i =>
    have h := scanScalar_number (intNumber_wellFormed i) (readNumber_int hp) hrest
    rw [intNumber_text] at h
    exact ⟨.int i, h, .inl rfl⟩
  | float x =>
    cases x with
    | finite x => exact ⟨_, scanScalar_number (py.repr_wellFormed x) (readNumber_repr x) hrest, .inl rfl⟩
    | infinite negative => exact ⟨.float (.infinite negative), by cases negative <;> rfl, .inl rfl⟩
    | nan i => exact ⟨.float (.nan 0), rfl, .inr ⟨i, 0, rfl, rfl⟩⟩
  | str t => exact absurd rfl (hs t)

/-- What a scanner tells a value by: the first character is no space, and does not close or open anything else. -/
theorem head_lexeme {s : Scalar F} (hs : ∀ t, s ≠ .str t) : ∃ c rest, py.lexeme s = c :: rest ∧
    isJsonSpace c = false ∧ c ≠ ']' ∧ c ≠ '"' ∧ c ≠ '[' ∧ c ≠ '\x7b' := by
  have hnumber : ∀ n : Number, n.WellFormed → ∃ c rest, n.text = c :: rest ∧
      isJsonSpace c = false ∧ c ≠ ']' ∧ c ≠ '"' ∧ c ≠ '[' ∧ c ≠ '\x7b' := by
    intro n h
    obtain ⟨sign, d, more, htext, hsign, hd⟩ := h.head
    rcases hsign with rfl | rfl
    · refine ⟨d, more, htext, ?_⟩
      have hdigit : ∀ c : Char, c.isDigit = false → d ≠ c := by
        rintro c hc rfl
        rw [hd] at hc
        cases hc
      refine ⟨?_, hdigit _ rfl, hdigit _ rfl, hdigit _ rfl, hdigit _ rfl⟩
      simp [isJsonSpace, hdigit ' ' rfl, hdigit '\t' rfl, hdigit '\n' rfl, hdigit '\r' rfl]
    · exact ⟨'-', d :: more, htext, by decide⟩
  cases s with
  | none => exact ⟨'n', _, rfl, by decide⟩
  | bool b => cases b <;> exact ⟨_, _, rfl, by decide⟩
  | int i =>
    have h := hnumber _ (intNumber_wellFormed i)
    rwa [intNumber_text] at h
  | float x =>
    cases x with
    | finite x => exact hnumber _ (py.repr_wellFormed x)
    | infinite negative => cases negative <;> exact ⟨_, _, rfl, by decide⟩
    | nan => exact ⟨'N', _, rfl, by decide⟩
  | str t => exact absurd rfl (hs t)

variable (py)

/-- A text is scanned as the value, wherever it stands and with the calls that the length of the text allows. -/
structure Reads (depth : ℕ) (v : Value F) (text : List Char) : Prop where
  starts : ∃ c rest, text = c :: rest ∧ isJsonSpace c = false ∧ c ≠ ']'
  read : ∀ {rest calls}, Stops rest → 2 * (text ++ rest).length + 1 ≤ calls →
    ∃ w, py.scanOnce calls depth (text ++ rest) = .ok (w, rest) ∧ v.Same w

variable {py}

theorem reads_scalar {s : Scalar F} (hplain : ∀ t, s = .str t → ¬ Paired t) (hp : py.Printable s) (depth : ℕ) :
    py.Reads depth (.scalar s) (py.lexeme s) := by
  by_cases hstr : ∃ t, s = .str t
  · obtain ⟨t, rfl⟩ := hstr
    refine ⟨⟨'"', _, rfl, by decide⟩, fun {rest calls} _ hcalls => ?_⟩
    obtain ⟨calls, rfl⟩ : ∃ n, calls = n + 1 := ⟨calls - 1, by omega⟩
    refine ⟨.scalar (.str t), ?_, Value.same_scalar.mpr ⟨_, rfl, .inl rfl⟩⟩
    show py.scanOnce (calls + 1) depth ('"' :: (stringTail t ++ rest)) = _
    rw [scanOnce, scanString_stringTail (hplain t rfl)]
  · have hs : ∀ t, s ≠ .str t := fun t ht => hstr ⟨t, ht⟩
    obtain ⟨c, more, htext, hspace, hclose, hquote, hlist, hdict⟩ : ∃ c rest, py.lexeme s = c :: rest ∧
        isJsonSpace c = false ∧ c ≠ ']' ∧ c ≠ '"' ∧ c ≠ '[' ∧ c ≠ '\x7b' := head_lexeme hs
    refine ⟨⟨c, more, htext, hspace, hclose⟩, fun {rest calls} hrest hcalls => ?_⟩
    obtain ⟨calls, rfl⟩ : ∃ n, calls = n + 1 := ⟨calls - 1, by omega⟩
    obtain ⟨t, hscan, hsame⟩ := scanScalar_lexeme hs hp hrest
    rw [htext, List.cons_append] at hscan ⊢
    refine ⟨.scalar t, ?_, Value.same_scalar.mpr ⟨t, rfl, hsame⟩⟩
    unfold scanOnce
    split
    · next heq => exact absurd (List.cons.inj heq).1 hquote
    · next heq => exact absurd (List.cons.inj heq).1 hlist
    · next heq => exact absurd (List.cons.inj heq).1 hdict
    · rw [hscan]
      rfl

theorem skipSpace_cons {c : Char} (h : isJsonSpace c = false) (text : List Char) : skipSpace (c :: text) = c :: text := by
  rw [skipSpace, List.dropWhile_cons, h]
  rfl

/-- What the first part starts with, the parts and their commas start with. -/
theorem commas_starts {text : List Char} {texts : List (List Char)} {c : Char} {more : List Char}
    (h : text = c :: more) : ∃ more', commas (text :: texts) = c :: more' := by
  subst h
  cases texts with
  | nil => exact ⟨more, rfl⟩
  | cons text' texts => exact ⟨_, rfl⟩

theorem stops_cons {c : Char} (h : c = ',' ∨ c = ']' ∨ c = '\x7d') (text : List Char) : Stops (c :: text) := by
  intro d hd
  obtain rfl := Option.some.inj hd
  rcases h with rfl | rfl | rfl <;> decide

theorem scanItems_last {calls depth : ℕ} {text rest rest' : List Char} {v : Value F}
    (hv : py.scanOnce calls depth text = .ok (v, rest)) (h : skipSpace rest = ']' :: rest') :
    py.scanItems (calls + 1) depth text = .ok ([v], rest') := by
  unfold scanItems
  refine bind_eq_ok.mpr ⟨_, hv, ?_⟩
  dsimp only
  rw [h]
  rfl

theorem scanItems_more {calls depth : ℕ} {text rest rest' : List Char} {v : Value F}
    {scanned : List (Value F) × List Char} (hv : py.scanOnce calls depth text = .ok (v, rest))
    (h : skipSpace rest = ',' :: rest') (hmore : py.scanItems calls depth (skipSpace rest') = .ok scanned) :
    py.scanItems (calls + 1) depth text = .ok (v :: scanned.1, scanned.2) := by
  unfold scanItems
  refine bind_eq_ok.mpr ⟨_, hv, ?_⟩
  dsimp only
  rw [h]
  exact bind_eq_ok.mpr ⟨_, hmore, rfl⟩

/-- The items of an array, and the bracket that closes it. -/
theorem scanItems_commas {depth : ℕ} {items : List (Value F)} {texts : List (List Char)}
    (h : List.Forall₂ (py.Reads depth) items texts) (hne : items ≠ []) {rest : List Char} {calls : ℕ}
    (hcalls : 2 * (commas texts ++ ']' :: rest).length + 2 ≤ calls) :
    ∃ items', py.scanItems calls depth (commas texts ++ ']' :: rest) = .ok (items', rest) ∧
      List.Forall₂ Value.Same items items' := by
  induction h generalizing calls with
  | nil => exact absurd rfl hne
  | @cons v text items texts hv htexts ih =>
    obtain ⟨calls, rfl⟩ : ∃ n, calls = n + 1 := ⟨calls - 1, by omega⟩
    cases htexts with
    | nil =>
      have hcalls' : 2 * (text ++ ']' :: rest).length + 1 ≤ calls := by
        rw [commas] at hcalls
        omega
      obtain ⟨w, hw, hsame⟩ := hv.read (stops_cons (.inr (.inl rfl)) rest) hcalls'
      exact ⟨[w], scanItems_last hw (skipSpace_cons rfl _), .cons hsame .nil⟩
    | @cons v' text' items texts hv' htexts =>
      have hsplit : commas (text :: text' :: texts) ++ ']' :: rest =
          text ++ ',' :: (commas (text' :: texts) ++ ']' :: rest) := by
        rw [commas_cons, List.append_assoc, List.cons_append]
      rw [hsplit] at hcalls ⊢
      have hcalls' : 2 * (text ++ ',' :: (commas (text' :: texts) ++ ']' :: rest)).length + 1 ≤ calls := by
        omega
      rw [List.length_append, List.length_cons] at hcalls
      obtain ⟨w, hw, hsame⟩ := hv.read (stops_cons (.inl rfl) _) hcalls'
      have hrest : 2 * (commas (text' :: texts) ++ ']' :: rest).length + 2 ≤ calls := by
        omega
      obtain ⟨items', hitems, hall⟩ := ih (List.cons_ne_nil _ _) hrest
      obtain ⟨c, more, htext, hspace, -⟩ := hv'.starts
      obtain ⟨more', hmore⟩ : ∃ more', commas (text' :: texts) = c :: more' := commas_starts htext
      have hskip : skipSpace (commas (text' :: texts) ++ ']' :: rest) = commas (text' :: texts) ++ ']' :: rest := by
        rw [hmore, List.cons_append, skipSpace_cons hspace]
      rw [← hskip] at hitems
      exact ⟨w :: items', scanItems_more hw (skipSpace_cons rfl _) hitems, .cons hsame hall⟩

theorem scanOnce_array {calls depth : ℕ} {text : List Char} {scanned : List (Value F) × List Char}
    (hne : ∀ rest, skipSpace text ≠ ']' :: rest) (h : py.scanItems calls depth (skipSpace text) = .ok scanned) :
    py.scanOnce (calls + 1) (depth + 1) ('[' :: text) = .ok (.list scanned.1, scanned.2) := by
  unfold scanOnce
  split
  · next heq => exact absurd (List.cons.inj heq).1 (by decide)
  · next heq =>
    obtain rfl := (List.cons.inj heq).2
    dsimp only
    split
    · next heq => exact absurd heq (hne _)
    · exact bind_eq_ok.mpr ⟨_, h, rfl⟩
  · next heq => exact absurd (List.cons.inj heq).1 (by decide)
  · next hlist _ => exact absurd rfl (hlist text)

theorem scanOnce_object {calls depth : ℕ} {text : List Char} {scanned : List (Str × Value F) × List Char}
    (hne : ∀ rest, skipSpace text ≠ '\x7d' :: rest) (h : py.scanMembers calls depth (skipSpace text) = .ok scanned) :
    py.scanOnce (calls + 1) (depth + 1) ('\x7b' :: text) = .ok (dictOf scanned.1, scanned.2) := by
  unfold scanOnce
  split
  · next heq => exact absurd (List.cons.inj heq).1 (by decide)
  · next heq => exact absurd (List.cons.inj heq).1 (by decide)
  · next heq =>
    obtain rfl := (List.cons.inj heq).2
    dsimp only
    split
    · next heq => exact absurd heq (hne _)
    · exact bind_eq_ok.mpr ⟨_, h, rfl⟩
  · next hdict => exact absurd rfl (hdict text)

/-- An array of values that are read is read. -/
theorem reads_list {depth : ℕ} {items : List (Value F)} {texts : List (List Char)}
    (h : List.Forall₂ (py.Reads depth) items texts) : py.Reads (depth + 1) (.list items) ('[' :: (commas texts ++ [']'])) := by
  refine ⟨⟨'[', _, rfl, by decide⟩, fun {rest calls} _ hcalls => ?_⟩
  obtain ⟨calls, rfl⟩ : ∃ n, calls = n + 1 := ⟨calls - 1, by omega⟩
  have htext : '[' :: (commas texts ++ [']']) ++ rest = '[' :: (commas texts ++ ']' :: rest) := by
    simp
  rw [htext, List.length_cons] at hcalls
  rw [htext]
  cases h with
  | nil => exact ⟨.list [], rfl, Value.same_list.mpr ⟨[], rfl, .nil⟩⟩
  | @cons v text items texts hv hitems =>
    have hcalls' : 2 * (commas (text :: texts) ++ ']' :: rest).length + 2 ≤ calls := by
      omega
    obtain ⟨items', hscan, hsame⟩ := scanItems_commas (List.Forall₂.cons hv hitems) (List.cons_ne_nil _ _) hcalls'
    refine ⟨.list items', ?_, Value.same_list.mpr ⟨items', rfl, hsame⟩⟩
    obtain ⟨c, more, htext, hspace, hclose⟩ := hv.starts
    obtain ⟨more', hmore⟩ : ∃ more', commas (text :: texts) = c :: more' := commas_starts htext
    have hskip : skipSpace (commas (text :: texts) ++ ']' :: rest) = commas (text :: texts) ++ ']' :: rest := by
      rw [hmore, List.cons_append, skipSpace_cons hspace]
    refine scanOnce_array (fun rest' heq => ?_) (by rw [hskip]; exact hscan)
    rw [hskip, hmore, List.cons_append] at heq
    exact hclose (List.cons.inj heq).1

/-- The text of a member with a plain key. -/
def ReadsMember (py : Interpreter F) (depth : ℕ) (m : Scalar F × Value F) (text : List Char) : Prop :=
  ∃ key value, m.1 = .str key ∧ ¬ Paired key ∧ py.Reads depth m.2 value ∧ text = stringText key ++ ':' :: value

theorem scanMembers_last {calls depth : ℕ} {text behind rest rest' rest'' : List Char} {key : Str} {v : Value F}
    (hkey : scanString text = some (key, behind)) (hcolon : skipSpace behind = ':' :: rest)
    (hv : py.scanOnce calls depth (skipSpace rest) = .ok (v, rest')) (h : skipSpace rest' = '\x7d' :: rest'') :
    py.scanMembers (calls + 1) depth ('"' :: text) = .ok ([(key, v)], rest'') := by
  rw [scanMembers, hkey]
  dsimp only
  rw [hcolon]
  refine bind_eq_ok.mpr ⟨_, hv, ?_⟩
  dsimp only
  rw [h]
  rfl

theorem scanMembers_more {calls depth : ℕ} {text behind rest rest' rest'' : List Char} {key : Str} {v : Value F}
    {scanned : List (Str × Value F) × List Char} (hkey : scanString text = some (key, behind))
    (hcolon : skipSpace behind = ':' :: rest) (hv : py.scanOnce calls depth (skipSpace rest) = .ok (v, rest'))
    (h : skipSpace rest' = ',' :: rest'') (hmore : py.scanMembers calls depth (skipSpace rest'') = .ok scanned) :
    py.scanMembers (calls + 1) depth ('"' :: text) = .ok ((key, v) :: scanned.1, scanned.2) := by
  rw [scanMembers, hkey]
  dsimp only
  rw [hcolon]
  refine bind_eq_ok.mpr ⟨_, hv, ?_⟩
  dsimp only
  rw [h]
  exact bind_eq_ok.mpr ⟨_, hmore, rfl⟩

/-- The members of an object, and the brace that closes it. -/
theorem scanMembers_commas {depth : ℕ} {items : List (Scalar F × Value F)} {texts : List (List Char)}
    (h : List.Forall₂ (py.ReadsMember depth) items texts) (hne : items ≠ []) {rest : List Char} {calls : ℕ}
    (hcalls : 2 * (commas texts ++ '\x7d' :: rest).length + 2 ≤ calls) :
    ∃ members, py.scanMembers calls depth (commas texts ++ '\x7d' :: rest) = .ok (members, rest) ∧
      List.Forall₂ (fun m m' => m.1 = Scalar.str m'.1 ∧ m.2.Same m'.2) items members := by
  induction h generalizing calls with
  | nil => exact absurd rfl hne
  | @cons m text items texts hm htexts ih =>
    obtain ⟨calls, rfl⟩ : ∃ n, calls = n + 1 := ⟨calls - 1, by omega⟩
    obtain ⟨key, value, hkey, hpaired, hvalue, rfl⟩ := hm
    obtain ⟨c, more, hstart, hspace, -⟩ := hvalue.starts
    have hskip : ∀ tail, skipSpace (value ++ tail) = value ++ tail := by
      intro tail
      rw [hstart, List.cons_append, skipSpace_cons hspace]
    cases htexts with
    | nil =>
      -- the last member, before the closing bracket
      have hsplit : commas [stringText key ++ ':' :: value] ++ '\x7d' :: rest =
          '"' :: (stringTail key ++ ':' :: (value ++ '\x7d' :: rest)) := by
        simp [commas, stringText]
      rw [hsplit] at hcalls ⊢
      simp only [List.length_cons, List.length_append] at hcalls
      have hcalls' : 2 * (value ++ '\x7d' :: rest).length + 1 ≤ calls := by
        rw [List.length_append, List.length_cons]
        omega
      obtain ⟨w, hw, hsame⟩ := hvalue.read (stops_cons (.inr (.inr rfl)) rest) hcalls'
      rw [← hskip] at hw
      exact ⟨_, scanMembers_last (scanString_stringTail hpaired _) (skipSpace_cons rfl _) hw (skipSpace_cons rfl _),
        .cons ⟨hkey, hsame⟩ .nil⟩
    | @cons m' text' items texts hm' htexts =>
      -- a member with another behind the comma
      have hsplit : commas ((stringText key ++ ':' :: value) :: text' :: texts) ++ '\x7d' :: rest =
          '"' :: (stringTail key ++ ':' :: (value ++ ',' :: (commas (text' :: texts) ++ '\x7d' :: rest))) := by
        simp [commas_cons, stringText]
      rw [hsplit] at hcalls ⊢
      simp only [List.length_cons, List.length_append] at hcalls
      have hcalls' : 2 * (value ++ ',' :: (commas (text' :: texts) ++ '\x7d' :: rest)).length + 1 ≤ calls := by
        simp only [List.length_cons, List.length_append]
        omega
      have hrest : 2 * (commas (text' :: texts) ++ '\x7d' :: rest).length + 2 ≤ calls := by
        simp only [List.length_cons, List.length_append]
        omega
      obtain ⟨w, hw, hsame⟩ := hvalue.read (stops_cons (.inl rfl) _) hcalls'
      obtain ⟨members, hmembers, hall⟩ := ih (List.cons_ne_nil _ _) hrest
      obtain ⟨more', hmore⟩ : ∃ more', commas (text' :: texts) = '"' :: more' := by
        obtain ⟨key', value', -, -, -, rfl⟩ := hm'
        exact commas_starts rfl
      have hskip' : skipSpace (commas (text' :: texts) ++ '\x7d' :: rest) = commas (text' :: texts) ++ '\x7d' :: rest := by
        rw [hmore, List.cons_append, skipSpace_cons rfl]
      rw [← hskip] at hw
      rw [← hskip'] at hmembers
      exact ⟨_, scanMembers_more (scanString_stringTail hpaired _) (skipSpace_cons rfl _) hw (skipSpace_cons rfl _) hmembers,
        .cons ⟨hkey, hsame⟩ hall⟩

theorem setMember_of_notMem {key : Str} {v : Value F} {members : List (Str × Value F)}
    (h : key ∉ members.map Prod.fst) : setMember key v members = members ++ [(key, v)] := by
  induction members with
  | nil => rfl
  | cons m members ih =>
    obtain ⟨hne, hrest⟩ : key ≠ m.1 ∧ key ∉ members.map Prod.fst := by
      simpa using h
    rw [setMember, if_neg fun hm => hne hm.symm, ih hrest]
    rfl

/-- Members with different keys are all kept. -/
theorem foldl_setMember {members d : List (Str × Value F)} (h : ((d ++ members).map Prod.fst).Nodup) :
    members.foldl (fun d m => setMember m.1 m.2 d) d = d ++ members := by
  induction members generalizing d with
  | nil => simp
  | cons m members ih =>
    have hnot : m.1 ∉ d.map Prod.fst := by
      intro hm
      rw [List.map_append, List.map_cons] at h
      exact (List.nodup_append.mp h).2.2 _ hm _ (List.mem_cons_self ..) rfl
    rw [List.foldl_cons, setMember_of_notMem hnot, ih (by simpa using h)]
    simp

theorem keys_of_forall₂ {items : List (Scalar F × Value F)} {members : List (Str × Value F)}
    (h : List.Forall₂ (fun m m' => m.1 = Scalar.str m'.1 ∧ m.2.Same m'.2) items members) :
    items.map Prod.fst = members.map fun m => Scalar.str m.1 := by
  induction h with
  | nil => rfl
  | cons hab _ ih => rw [List.map_cons, List.map_cons, hab.1, ih]

/-- An object whose members are read is read, as a dictionary. -/
theorem reads_dict {depth : ℕ} {items sorted : List (Scalar F × Value F)} {texts : List (List Char)}
    (hperm : sorted.Perm items) (hvalid : (items.map Prod.fst).Pairwise fun a b => ¬ Scalar.Equal py.toFloats a b)
    (h : List.Forall₂ (py.ReadsMember depth) sorted texts) :
    py.Reads (depth + 1) (.dict items) ('\x7b' :: (commas texts ++ ['\x7d'])) := by
  refine ⟨⟨'\x7b', _, rfl, by decide⟩, fun {rest calls} _ hcalls => ?_⟩
  obtain ⟨calls, rfl⟩ : ∃ n, calls = n + 1 := ⟨calls - 1, by omega⟩
  have htext : '\x7b' :: (commas texts ++ ['\x7d']) ++ rest = '\x7b' :: (commas texts ++ '\x7d' :: rest) := by
    simp
  rw [htext, List.length_cons] at hcalls
  rw [htext]
  cases h with
  | nil =>
    obtain rfl := hperm.nil_eq
    exact ⟨.dict [], rfl, Value.same_dict.mpr ⟨[], rfl, rfl, by simp⟩⟩
  | @cons m text sorted texts hm hsorted =>
    have hcalls' : 2 * (commas (text :: texts) ++ '\x7d' :: rest).length + 2 ≤ calls := by
      omega
    obtain ⟨members, hscan, hsame⟩ := scanMembers_commas (List.Forall₂.cons hm hsorted) (List.cons_ne_nil _ _) hcalls'
    obtain ⟨more', hmore⟩ : ∃ more', commas (text :: texts) = '"' :: more' := by
      obtain ⟨key, value, -, -, -, rfl⟩ := hm
      exact commas_starts rfl
    have hskip : skipSpace (commas (text :: texts) ++ '\x7d' :: rest) = commas (text :: texts) ++ '\x7d' :: rest := by
      rw [hmore, List.cons_append, skipSpace_cons rfl]
    -- the keys that are read are those of the dictionary, and all different
    have hnodup : (members.map Prod.fst).Nodup := by
      have hpair : ((m :: sorted).map Prod.fst).Pairwise fun a b => ¬ Scalar.Equal py.toFloats a b :=
        (hperm.map Prod.fst).symm.pairwise hvalid fun hab hba => hab hba.symm
      rw [keys_of_forall₂ hsame, List.pairwise_map] at hpair
      exact List.pairwise_map.mpr hpair
    refine ⟨dictOf members, scanOnce_object (fun rest' heq => ?_) (by rw [hskip]; exact hscan), ?_⟩
    · rw [hskip, hmore, List.cons_append] at heq
      exact absurd (List.cons.inj heq).1 (by decide)
    · rw [dictOf, foldl_setMember (by simpa using hnodup)]
      refine Value.same_dict.mpr ⟨_, rfl, ?_, fun m₀ hm₀ => ?_⟩
      · rw [List.nil_append, List.length_map, ← hsame.length_eq, hperm.length_eq]
      · obtain ⟨m', hm', hkey, hsame'⟩ := forall₂_mem hsame (hperm.mem_iff.mpr hm₀)
        refine ⟨m'.2, ?_, hsame'⟩
        rw [hkey, List.nil_append]
        exact List.mem_map_of_mem hm'

/-- What is written of a plain value is scanned as the value. -/
theorem reads_of_encode {v : Value F} (hplain : v.Plain) (hvalid : py.Valid v) {d depth : ℕ} {text : List Char}
    (h : py.encode v d = .ok text) (hdepth : v.depth ≤ depth) : py.Reads depth v text := by
  induction v using Value.induct generalizing d depth text with
  | scalar s =>
    obtain ⟨hp, rfl⟩ := encode_scalar.mp h
    exact reads_scalar hplain hp depth
  | list items ih =>
    obtain ⟨d', texts, rfl, htexts, rfl⟩ := encode_list.mp h
    obtain ⟨depth', rfl, hparts⟩ := Value.depth_list_le.mp hdepth
    have hp := Value.every_list.mp hplain
    have hv := Value.every_list.mp hvalid
    refine reads_list (((List.forall₂_and_left items texts).mpr ⟨fun _ hv => hv, htexts⟩).imp ?_)
    rintro v text ⟨hmem, htext⟩
    exact ih v hmem (hp v hmem) (hv v hmem) htext (hparts v hmem)
  | tuple items => exact (Value.every_tuple.mp hplain).1.elim
  | dict items ih =>
    obtain ⟨d', texts, rfl, hsort, htexts, rfl⟩ := encode_dict.mp h
    obtain ⟨depth', rfl, hparts⟩ := Value.depth_dict_le.mp hdepth
    obtain ⟨hkeys, hp⟩ := Value.every_dict.mp hplain
    obtain ⟨hdistinct, hv⟩ := Value.every_dict.mp hvalid
    have hmem : ∀ m ∈ py.sorted items, m ∈ items := fun m hm => (sorted_perm items).mem_iff.mp hm
    refine reads_dict (sorted_perm items) hdistinct (((List.forall₂_and_left _ texts).mpr ⟨hmem, htexts⟩).imp ?_)
    rintro m text ⟨hm, hpm, value, hvalue, rfl⟩
    obtain ⟨key, hkey, hpaired⟩ := hkeys m.1 (List.mem_map_of_mem hm)
    refine ⟨key, value, hkey, hpaired, ih m hm (hp m hm) (hv m hm) hvalue (hparts m hm), ?_⟩
    rw [hkey]
    rfl

/-- **The round trip.**  A plain value comes back as itself, if it is not nested deeper than `loads` may go. -/
theorem loads_dumps {v : Value F} (hplain : v.Plain) (hvalid : py.Valid v) {text : List Char}
    (h : py.dumps v = .ok text) (hdepth : v.depth ≤ py.decodeDepth) : ∃ w, py.loads text = .ok w ∧ v.Same w := by
  have hreads := reads_of_encode hplain hvalid h hdepth
  have hstops : Stops [] := nofun
  have hcalls : 2 * (text ++ []).length + 1 ≤ 2 * text.length + 1 := by
    simp
  obtain ⟨w, hw, hsame⟩ := hreads.read hstops hcalls
  obtain ⟨c, more, htext, hspace, -⟩ := hreads.starts
  have hskip : skipSpace text = text := by
    rw [htext, skipSpace_cons hspace]
  rw [List.append_nil] at hw
  refine ⟨w, ?_, hsame⟩
  rw [loads, hskip, hw]
  rfl

/-! ### What `json.loads` raises -/

section Raises

/-- What it raises meets a condition. -/
def RaisesOnly {α : Type} (E : Exc → Prop) (x : Except Exc α) : Prop := ∀ e, x = .error e → E e

variable {α β : Type} {E : Exc → Prop}

theorem raises_ok (a : α) : RaisesOnly E (.ok a) := nofun

theorem raises_error {e : Exc} (h : E e) : RaisesOnly E (.error e : Except Exc α) := by
  intro e' he
  rw [← Except.error.inj he]
  exact h

theorem RaisesOnly.bind {x : Except Exc α} {f : α → Except Exc β} (h : RaisesOnly E x) (hf : ∀ a, RaisesOnly E (f a)) :
    RaisesOnly E (x >>= f) := by
  cases x with
  | error e => exact raises_error (h e rfl)
  | ok a => exact hf a

variable {py : Interpreter F} (hdecode : E jsonDecodeError) (hrecursion : E recursionError)
  (hvalue : ∀ message, E (valueError message))

include hdecode hvalue in
theorem raises_scanScalar (text : List Char) : RaisesOnly E (py.scanScalar text) := by
  unfold scanScalar
  split
  · exact raises_ok _
  · split
    · exact raises_error hdecode
    · refine RaisesOnly.bind ?_ fun _ => raises_ok _
      unfold readNumber
      dsimp only
      split_ifs
      · exact raises_ok _
      · exact raises_error (hvalue _)
      · exact raises_ok _

include hdecode hrecursion hvalue in
theorem raises_scan (calls : ℕ) : ∀ depth text, RaisesOnly E (py.scanOnce calls depth text) ∧
    RaisesOnly E (py.scanItems calls depth text) ∧ RaisesOnly E (py.scanMembers calls depth text) := by
  induction calls with
  | zero => exact fun _ _ => ⟨raises_error hdecode, raises_error hdecode, raises_error hdecode⟩
  | succ calls ih =>
    refine fun depth text => ⟨?_, ?_, ?_⟩
    · -- a value
      unfold scanOnce
      split
      · split
        · exact raises_error hdecode
        · exact raises_ok _
      · split
        · exact raises_error hrecursion
        · split
          · exact raises_ok _
          · exact (ih ..).2.1.bind fun _ => raises_ok _
      · split
        · exact raises_error hrecursion
        · split
          · exact raises_ok _
          · exact (ih ..).2.2.bind fun _ => raises_ok _
      · exact (raises_scanScalar hdecode hvalue _).bind fun _ => raises_ok _
    · -- the items of an array
      unfold scanItems
      refine (ih ..).1.bind fun ⟨v, rest⟩ => ?_
      dsimp only
      split
      · exact raises_ok _
      · exact (ih ..).2.1.bind fun _ => raises_ok _
      · exact raises_error hdecode
    · -- the members of an object
      unfold scanMembers
      split
      · split
        · exact raises_error hdecode
        · split
          · refine (ih ..).1.bind fun ⟨v, rest⟩ => ?_
            dsimp only
            split
            · exact raises_ok _
            · exact (ih ..).2.2.bind fun _ => raises_ok _
            · exact raises_error hdecode
          · exact raises_error hdecode
      · exact raises_error hdecode

include hdecode hrecursion hvalue in
/-- What `json.loads` raises: the text is no JSON, it is nested too deep, or an `int` in it has too many digits. -/
theorem raises_loads (text : List Char) : RaisesOnly E (py.loads text) := by
  refine (raises_scan hdecode hrecursion hvalue ..).1.bind fun ⟨v, rest⟩ => ?_
  dsimp only
  split_ifs
  · exact raises_ok _
  · exact raises_error hdecode

end Raises

end Interpreter

end Xyberos.Json
