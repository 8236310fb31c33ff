import Mathlib.Data.List.Induction
import Mathlib.Logic.Basic
import Xyberos.Base.Forest

/-!
# Xyberos.Execution.Tokens — cancellation tokens

`CancellationToken` of `execution/policies.py`.  The tokens of one tree stand in a list, in order of creation, and a
token is its position there.  The recursion of `cancel` is as deep as the tree; the interpreter's recursion limit is
left out.
-/

set_option autoImplicit false

namespace Xyberos.Execution.Tokens

/-! ## Tokens -/

/-- `CancellationToken`: `waiters` is the event, and whether it is set. -/
structure Token where
  cancelled : Bool := false
  reason : Option String := none
  waiters : Option Bool := none
  children : List ℕ := []
deriving DecidableEq

/-- What `cancel` does to a token that is not cancelled, before it goes to the children. -/
def Token.mark (token : Token) (reason : Option String) : Token :=
  { token with cancelled := true, reason := reason, waiters := token.waiters.map fun _ => true }

@[simp] theorem Token.mark_cancelled (token : Token) (reason : Option String) :
    (token.mark reason).cancelled = true := rfl

@[simp] theorem Token.mark_reason (token : Token) (reason : Option String) : (token.mark reason).reason = reason := rfl

@[simp] theorem Token.mark_children (token : Token) (reason : Option String) :
    (token.mark reason).children = token.children := rfl

/-- `cancel`, in at most `fuel` nested calls. -/
def cancelWithin : ℕ → List Token → ℕ → Option String → List Token
  | 0, heap, _, _ => heap
  | fuel + 1, heap, t, reason =>
    match heap[t]? with
    | none => heap
    | some token =>
      if token.cancelled then heap
      else token.children.foldl (fun heap c => cancelWithin fuel heap c reason) (heap.set t (token.mark reason))

/-- `token.cancel(reason)`: a call nests only in a call on an older token, so there are at most as many as tokens. -/
def cancel (heap : List Token) (t : ℕ) (reason : Option String) : List Token := cancelWithin heap.length heap t reason

/-- `token.child()`: the new token is the last one. -/
def child (heap : List Token) (t : ℕ) : List Token :=
  match heap[t]? with
  | none => heap
  | some token =>
    -- a child of a cancelled token is cancelled at once, and not linked
    if token.cancelled then heap ++ [Token.mark {} token.reason]
    else heap.set t { token with children := token.children ++ [heap.length] } ++ [{}]

/-- `token.wait()` until it returns or suspends. -/
def wait (heap : List Token) (t : ℕ) : List Token :=
  match heap[t]? with
  | none => heap
  | some token =>
    if token.cancelled then heap else heap.set t { token with waiters := some (token.waiters.getD false) }

/-! ## Runs -/

/-- A call on a token. -/
inductive Call
  | child (token : ℕ)
  | cancel (token : ℕ) (reason : Option String)
  | wait (token : ℕ)
deriving DecidableEq

/-- The token a call is made on. -/
def Call.token : Call → ℕ
  | .child t => t
  | .cancel t _ => t
  | .wait t => t

def Call.apply (heap : List Token) : Call → List Token
  | .child t => Tokens.child heap t
  | .cancel t reason => Tokens.cancel heap t reason
  | .wait t => Tokens.wait heap t

/-- One call; `none` when there is no such token to call. -/
def step (heap : List Token) (call : Call) : Option (List Token) :=
  if call.token < heap.length then some (call.apply heap) else none

/-- The tree after the calls, from one fresh token. -/
def tree (calls : List Call) : Option (List Token) := calls.foldlM step [{}]

/-- The token each `child()` was called on, in order. -/
def parents (calls : List Call) : List ℕ :=
  calls.filterMap fun
    | .child t => some t
    | _ => none

/-- No call of `cancel` reached the token. -/
def Quiet (tokens : List ℕ) (calls : List Call) (t : ℕ) : Prop :=
  ∀ u reason, Call.cancel u reason ∈ calls → ¬ Descends tokens u t

/-! ## Marking -/

/-- `heap'` is `heap` with the uncancelled tokens of `d` marked. -/
structure Marks (d : ℕ → Prop) (reason : Option String) (heap heap' : List Token) : Prop where
  length : heap'.length = heap.length
  marked : ∀ s token, heap[s]? = some token → d s → token.cancelled = false →
    heap'[s]? = some (token.mark reason)
  kept : ∀ s token, heap[s]? = some token → (d s → token.cancelled = true) → heap'[s]? = some token

variable {d e : ℕ → Prop} {reason : Option String} {heap heap' heap'' : List Token} {tokens : List ℕ} {t : ℕ}

theorem Marks.of_cancelled (h : ∀ s token, heap[s]? = some token → d s → token.cancelled = true) :
    Marks d reason heap heap := by
  refine ⟨rfl, ?_, fun _ _ hs _ => hs⟩
  intro s token hs hd hnot
  rw [h s token hs hd] at hnot
  cases hnot

theorem Marks.congr (h : Marks d reason heap heap') (hde : ∀ s token, heap[s]? = some token → (d s ↔ e s)) :
    Marks e reason heap heap' := by
  refine ⟨h.length, ?_, ?_⟩
  · intro s token hs he
    exact h.marked s token hs ((hde s token hs).mpr he)
  · intro s token hs he
    exact h.kept s token hs fun hd => he ((hde s token hs).mp hd)

theorem Marks.trans (h : Marks d reason heap heap') (h' : Marks e reason heap' heap'') :
    Marks (fun s => d s ∨ e s) reason heap heap'' := by
  refine ⟨h'.length.trans h.length, ?_, ?_⟩
  · intro s token hs hde hnot
    by_cases hd : d s
    · exact h'.kept s _ (h.marked s token hs hd hnot) fun _ => rfl
    · exact h'.marked s token (h.kept s token hs fun hd' => absurd hd' hd) (hde.resolve_left hd) hnot
  · intro s token hs hde
    exact h'.kept s token (h.kept s token hs fun hd => hde (.inl hd)) fun he => hde (.inr he)

theorem Marks.set {token : Token} (ht : heap[t]? = some token) (hnot : token.cancelled = false) :
    Marks (· = t) reason heap (heap.set t (token.mark reason)) := by
  obtain ⟨hlt, -⟩ := List.getElem?_eq_some_iff.mp ht
  refine ⟨List.length_set, ?_, ?_⟩
  · rintro s other hs rfl -
    obtain rfl : token = other := Option.some.inj (ht.symm.trans hs)
    exact List.getElem?_set_self hlt
  · intro s other hs hkeep
    have hne : t ≠ s := by
      rintro rfl
      obtain rfl : token = other := Option.some.inj (ht.symm.trans hs)
      rw [hkeep rfl] at hnot
      cases hnot
    rw [List.getElem?_set_ne hne, hs]

/-- What a marked heap has at a token the heap has. -/
theorem Marks.get (h : Marks d reason heap heap') {s : ℕ} {token' : Token} (hs : heap'[s]? = some token') :
    ∃ token, heap[s]? = some token ∧
      (d s ∧ token.cancelled = false ∧ token' = token.mark reason ∨
        (d s → token.cancelled = true) ∧ token' = token) := by
  obtain ⟨hlt, -⟩ := List.getElem?_eq_some_iff.mp hs
  rw [h.length] at hlt
  have htoken := List.getElem?_eq_getElem hlt
  refine ⟨_, htoken, ?_⟩
  by_cases hd : d s ∧ heap[s].cancelled = false
  · exact .inl ⟨hd.1, hd.2, Option.some.inj (hs.symm.trans (h.marked s _ htoken hd.1 hd.2))⟩
  · have hkeep : d s → heap[s].cancelled = true := by
      intro hds
      by_contra hne
      exact hd ⟨hds, by simpa using hne⟩
    exact .inr ⟨hkeep, Option.some.inj (hs.symm.trans (h.kept s _ htoken hkeep))⟩

/-! ## Links -/

def Cancelled (heap : List Token) (s : ℕ) : Prop := ∃ token, heap[s]? = some token ∧ token.cancelled = true

/-- Every child is linked to its parent, or cancelled with it. -/
def Linked (d : ℕ → Prop) (tokens : List ℕ) (heap : List Token) : Prop :=
  ∀ s k token, d s → tokens[k]? = some s → heap[s]? = some token →
    (token.cancelled = true → Cancelled heap (k + 1)) ∧ (token.cancelled = false → k + 1 ∈ token.children)

/-- Links are to children. -/
def Sound (tokens : List ℕ) (heap : List Token) : Prop :=
  ∀ s token c, heap[s]? = some token → c ∈ token.children → ∃ k, c = k + 1 ∧ tokens[k]? = some s

theorem Marks.cancelled (h : Marks d reason heap heap') {s : ℕ} (hs : Cancelled heap s) : Cancelled heap' s := by
  obtain ⟨token, htoken, hcancelled⟩ := hs
  exact ⟨token, h.kept s token htoken fun _ => hcancelled, hcancelled⟩

theorem Marks.sound (h : Marks d reason heap heap') (hsound : Sound tokens heap) : Sound tokens heap' := by
  intro s token' c hs hc
  obtain ⟨token, htoken, ⟨-, -, rfl⟩ | ⟨-, rfl⟩⟩ := h.get hs
  · exact hsound s token c htoken hc
  · exact hsound s token' c htoken hc

/-- Marking whole subtrees keeps the links. -/
theorem Marks.linked (h : Marks e reason heap heap') (hlen : tokens.length < heap.length)
    (he : ∀ s k, e s → tokens[k]? = some s → e (k + 1)) (hlinked : Linked d tokens heap) :
    Linked d tokens heap' := by
  intro s k token' hd hk hs
  obtain ⟨hklt, -⟩ := List.getElem?_eq_some_iff.mp hk
  have hchild := List.getElem?_eq_getElem (show k + 1 < heap.length by omega)
  obtain ⟨token, htoken, ⟨hes, hnot, rfl⟩ | ⟨hkeep, rfl⟩⟩ := h.get hs
  · refine ⟨fun _ => ?_, nofun⟩
    -- the parent is newly marked, and so is the child unless it was cancelled before
    by_cases hcancelled : heap[k + 1].cancelled = true
    · exact h.cancelled ⟨_, hchild, hcancelled⟩
    · exact ⟨_, h.marked (k + 1) _ hchild (he s k hes hk) (by simpa using hcancelled), rfl⟩
  · obtain ⟨hcancel, hlink⟩ := hlinked s k token' hd hk htoken
    exact ⟨fun hc => h.cancelled (hcancel hc), hlink⟩

/-- All under a cancelled token is cancelled. -/
theorem Linked.cancelled (h : Linked (Descends tokens t) tokens heap) (ht : Cancelled heap t) {s : ℕ}
    (hs : Descends tokens t s) : Cancelled heap s := by
  induction hs with
  | self => exact ht
  | child hdesc hk ih =>
    obtain ⟨token, htoken, hcancelled⟩ := ih
    exact (h _ _ token hdesc hk htoken).1 hcancelled

/-- A loop of calls which each mark a subtree marks all of them. -/
theorem foldl_marks {f : List Token → ℕ → List Token} {n : ℕ}
    (hf : ∀ heap c, heap.length ≤ n + c → tokens.length < heap.length → Linked (Descends tokens c) tokens heap →
      Sound tokens heap → Marks (Descends tokens c) reason heap (f heap c)) :
    ∀ (cs : List ℕ) (heap : List Token), (∀ c ∈ cs, heap.length ≤ n + c ∧ Linked (Descends tokens c) tokens heap) →
      tokens.length < heap.length → Sound tokens heap →
      Marks (fun s => ∃ c ∈ cs, Descends tokens c s) reason heap (cs.foldl f heap)
  | [], heap, _, _, _ => .of_cancelled fun _ _ _ h => by simp at h
  | c :: cs, heap, hcs, hsize, hsound => by
    obtain ⟨hlen, hlinked⟩ := hcs c List.mem_cons_self
    have hfirst := hf heap c hlen hsize hlinked hsound
    have hrest := foldl_marks hf cs (f heap c)
      (by
        intro c' hc'
        obtain ⟨hlen', hlinked'⟩ := hcs c' (List.mem_cons_of_mem _ hc')
        rw [hfirst.length]
        exact ⟨hlen', hfirst.linked hsize (fun _ _ => .child) hlinked'⟩)
      (hfirst.length ▸ hsize) (hfirst.sound hsound)
    rw [List.foldl_cons]
    exact (hfirst.trans hrest).congr fun s _ _ => by simp

/-- `cancel` marks the token and all under it. -/
theorem cancelWithin_marks (hg : Grown tokens) (fuel : ℕ) :
    ∀ heap t, heap.length ≤ fuel + t → tokens.length < heap.length → Linked (Descends tokens t) tokens heap →
      Sound tokens heap → Marks (Descends tokens t) reason heap (cancelWithin fuel heap t reason) := by
  have hout : ∀ (heap : List Token) (t : ℕ), heap.length ≤ t → Marks (Descends tokens t) reason heap heap := by
    intro heap t hlen
    refine .of_cancelled fun s token hs hdesc => ?_
    obtain ⟨hlt, -⟩ := List.getElem?_eq_some_iff.mp hs
    have := hdesc.le hg
    omega
  induction fuel with
  | zero =>
    intro heap t hlen _ _ _
    exact hout heap t (by omega)
  | succ fuel ih =>
    intro heap t hlen hsize hlinked hsound
    unfold cancelWithin
    cases ht : heap[t]? with
    | none => exact hout heap t (List.getElem?_eq_none_iff.mp ht)
    | some token =>
      dsimp only
      cases hcancelled : token.cancelled with
      | true =>
        rw [if_pos rfl]
        refine .of_cancelled fun s other hs hdesc => ?_
        obtain ⟨_, hother, hc⟩ := hlinked.cancelled ⟨token, ht, hcancelled⟩ hdesc
        obtain rfl := Option.some.inj (hs.symm.trans hother)
        exact hc
      | false =>
        rw [if_neg (by simp)]
        have hself : Marks (· = t) reason heap (heap.set t (token.mark reason)) := .set ht hcancelled
        have hchildren : ∀ c ∈ token.children, t < c ∧ Linked (Descends tokens c) tokens (heap.set t (token.mark reason)) := by
          intro c hc
          obtain ⟨k, rfl, hk⟩ := hsound t token c ht hc
          have hlt := hg k t hk
          refine ⟨by omega, ?_⟩
          -- the subtree of a child lies behind the token that was marked
          intro s m other hdesc hm hs
          have hs' := hdesc.le hg
          have hm' := hg m s hm
          rw [List.getElem?_set_ne (by omega)] at hs
          obtain ⟨hcancel, hlink⟩ := hlinked s m other (.of_child hk hdesc) hm hs
          exact ⟨fun h => hself.cancelled (hcancel h), hlink⟩
        have hrest := foldl_marks ih token.children (heap.set t (token.mark reason))
          (by
            intro c hc
            obtain ⟨hlt, hlink⟩ := hchildren c hc
            rw [List.length_set]
            exact ⟨by omega, hlink⟩)
          (by rwa [List.length_set]) (hself.sound hsound)
        refine (hself.trans hrest).congr fun s _ _ => ⟨?_, ?_⟩
        · rintro (rfl | ⟨c, hc, hdesc⟩)
          · exact .self
          · obtain ⟨k, rfl, hk⟩ := hsound t token c ht hc
            exact .of_child hk hdesc
        · intro hdesc
          rcases hdesc.eq_or_child with rfl | ⟨k, hk, hdesc⟩
          · exact .inl rfl
          · exact .inr ⟨k + 1, (hlinked t k token .self hk ht).2 hcancelled, hdesc⟩

/-! ## The invariant -/

/-- After the calls a token is cancelled when one of them reached it, with the reason of the first that did. -/
structure Inv (tokens : List ℕ) (calls : List Call) (heap : List Token) : Prop where
  length : heap.length = tokens.length + 1
  grown : Grown tokens
  sound : Sound tokens heap
  linked : Linked (fun _ => True) tokens heap
  named : ∀ u reason, Call.cancel u reason ∈ calls → u < heap.length
  cancelled_iff : ∀ t token, heap[t]? = some token → (token.cancelled = true ↔ ¬ Quiet tokens calls t)
  first : ∀ t token before u reason after, heap[t]? = some token → calls = before ++ Call.cancel u reason :: after →
    Descends tokens u t → Quiet tokens before t → token.reason = reason

theorem parents_append_child (calls : List Call) (p : ℕ) : parents (calls ++ [.child p]) = parents calls ++ [p] := by
  rw [parents, List.filterMap_append]
  rfl

theorem parents_append_cancel (calls : List Call) (t : ℕ) (reason : Option String) :
    parents (calls ++ [.cancel t reason]) = parents calls := by
  rw [parents, List.filterMap_append]
  exact List.append_nil _

theorem parents_append_wait (calls : List Call) (t : ℕ) : parents (calls ++ [.wait t]) = parents calls := by
  rw [parents, List.filterMap_append]
  exact List.append_nil _

theorem quiet_append {calls : List Call} {call : Call} :
    Quiet tokens (calls ++ [call]) t ↔
      Quiet tokens calls t ∧ ∀ u reason, call = .cancel u reason → ¬ Descends tokens u t := by
  constructor
  · intro h
    refine ⟨fun u reason hmem => h u reason (List.mem_append_left _ hmem), ?_⟩
    rintro u reason rfl
    exact h u reason (by simp)
  · rintro ⟨hcalls, hcall⟩ u reason hmem
    rcases List.mem_append.mp hmem with hmem | hmem
    · exact hcalls u reason hmem
    · exact hcall u reason (List.mem_singleton.mp hmem).symm

/-- Where a list stands split after one more element. -/
theorem append_singleton_eq {calls before after : List Call} {call c : Call}
    (h : calls ++ [call] = before ++ c :: after) :
    (calls = before ∧ call = c) ∨ ∃ after', calls = before ++ c :: after' := by
  rcases List.eq_nil_or_concat' after with rfl | ⟨after', last, rfl⟩
  · obtain ⟨hcalls, hcall⟩ := List.append_inj' h rfl
    exact .inl ⟨hcalls, List.singleton_inj.mp hcall⟩
  · rw [← List.cons_append, ← List.append_assoc] at h
    exact .inr ⟨after', (List.append_inj' h rfl).1⟩

/-- A split of the calls is no new one when the last call is not `cancel`. -/
theorem split_of_append {calls before after : List Call} {call : Call} {u : ℕ} {reason : Option String}
    (hcall : ∀ v reason', call ≠ .cancel v reason')
    (h : calls ++ [call] = before ++ .cancel u reason :: after) : ∃ after', calls = before ++ .cancel u reason :: after' := by
  rcases append_singleton_eq h with ⟨-, rfl⟩ | hsplit
  · exact absurd rfl (hcall u reason)
  · exact hsplit

/-- A cancelled token stays cancelled for its reason. -/
def Keeps (heap heap' : List Token) : Prop :=
  ∀ (s : ℕ) (token : Token), heap[s]? = some token → token.cancelled = true →
    ∃ token', heap'[s]? = some token' ∧ token'.cancelled = true ∧ token'.reason = token.reason

theorem Keeps.cancelled (h : Keeps heap heap') {s : ℕ} (hs : Cancelled heap s) : Cancelled heap' s := by
  obtain ⟨token, htoken, hc⟩ := hs
  obtain ⟨token', htoken', hc', -⟩ := h s token htoken hc
  exact ⟨token', htoken', hc'⟩

namespace Inv

variable {calls : List Call}

theorem start : Inv [] [] [{}] := by
  have hone : ∀ (t : ℕ) (token : Token), [({} : Token)][t]? = some token → t = 0 ∧ token = {} := by
    intro t token ht
    obtain ⟨hlt, heq⟩ := List.getElem?_eq_some_iff.mp ht
    rw [List.length_singleton] at hlt
    obtain rfl : t = 0 := by omega
    exact ⟨rfl, heq.symm⟩
  refine ⟨rfl, nofun, ?_, nofun, nofun, ?_, ?_⟩
  · intro s token c hs hc
    obtain ⟨-, rfl⟩ := hone s token hs
    cases hc
  · intro t token ht
    obtain ⟨-, rfl⟩ := hone t token ht
    exact ⟨nofun, fun h => absurd nofun h⟩
  · intro t token before u reason after _ h
    simp at h

theorem lt_length (h : Inv tokens calls heap) {s : ℕ} {token : Token} (hs : heap[s]? = some token) :
    s ≤ tokens.length := by
  obtain ⟨hlt, -⟩ := List.getElem?_eq_some_iff.mp hs
  rw [h.length] at hlt
  omega

/-! ### `wait` -/

theorem length_wait (heap : List Token) (t : ℕ) : (Tokens.wait heap t).length = heap.length := by
  unfold Tokens.wait
  split
  · rfl
  · split_ifs <;> simp

/-- `wait` touches nothing but its event. -/
theorem get_wait {s : ℕ} {token' : Token} (hs : (Tokens.wait heap t)[s]? = some token') :
    ∃ token, heap[s]? = some token ∧ token'.cancelled = token.cancelled ∧ token'.reason = token.reason ∧
      token'.children = token.children := by
  unfold Tokens.wait at hs
  cases ht : heap[t]? with
  | none =>
    rw [ht] at hs
    exact ⟨token', hs, rfl, rfl, rfl⟩
  | some token =>
    rw [ht] at hs
    dsimp only at hs
    split_ifs at hs with hcancelled
    · exact ⟨token', hs, rfl, rfl, rfl⟩
    · by_cases hne : t = s
      · subst hne
        rw [List.getElem?_set_self (List.getElem?_eq_some_iff.mp ht).1] at hs
        obtain rfl := Option.some.inj hs
        exact ⟨token, ht, rfl, rfl, rfl⟩
      · rw [List.getElem?_set_ne hne] at hs
        exact ⟨token', hs, rfl, rfl, rfl⟩

theorem keeps_wait (heap : List Token) (t : ℕ) : Keeps heap (Tokens.wait heap t) := by
  intro s token hs hc
  obtain ⟨hlt, -⟩ := List.getElem?_eq_some_iff.mp hs
  have hs' := List.getElem?_eq_getElem (show s < (Tokens.wait heap t).length by rwa [length_wait])
  obtain ⟨token', htoken', hcancelled, hreason, -⟩ := get_wait hs'
  obtain rfl := Option.some.inj (hs.symm.trans htoken')
  exact ⟨_, hs', hcancelled.trans hc, hreason⟩

theorem wait (h : Inv tokens calls heap) (t : ℕ) : Inv tokens (calls ++ [.wait t]) (Tokens.wait heap t) := by
  have hcall : ∀ v reason, Call.wait t ≠ .cancel v reason := nofun
  constructor
  · exact (length_wait heap t).trans h.length
  · exact h.grown
  · intro s token' c hs hc
    obtain ⟨token, htoken, -, -, heq⟩ := get_wait hs
    exact h.sound s token c htoken (heq ▸ hc)
  · intro s k token' _ hk hs
    obtain ⟨token, htoken, hc, -, heq⟩ := get_wait hs
    obtain ⟨hcancel, hlink⟩ := h.linked s k token trivial hk htoken
    rw [hc, heq]
    exact ⟨fun hyes => (keeps_wait heap t).cancelled (hcancel hyes), hlink⟩
  · intro u reason hmem
    rw [length_wait]
    exact h.named u reason (by simpa using hmem)
  · intro s token' hs
    obtain ⟨token, htoken, hc, -, -⟩ := get_wait hs
    rw [hc, h.cancelled_iff s token htoken, quiet_append]
    simp [hcall]
  · intro s token' before u reason after hs hsplit hdesc hquiet
    obtain ⟨token, htoken, -, hr, -⟩ := get_wait hs
    obtain ⟨after', hcalls⟩ := split_of_append hcall hsplit
    rw [hr]
    exact h.first s token before u reason after' htoken hcalls hdesc hquiet

/-! ### `cancel` -/

theorem marks (h : Inv tokens calls heap) (t : ℕ) (reason : Option String) :
    Marks (Descends tokens t) reason heap (Tokens.cancel heap t reason) := by
  have hsize : tokens.length < heap.length := by
    rw [h.length]
    omega
  exact cancelWithin_marks h.grown heap.length heap t (by omega) hsize
    (fun s k token _ hk hs => h.linked s k token trivial hk hs) h.sound

theorem cancel (h : Inv tokens calls heap) {t : ℕ} (ht : t < heap.length) (reason : Option String) :
    Inv tokens (calls ++ [.cancel t reason]) (Tokens.cancel heap t reason) := by
  have hmarks := h.marks t reason
  have hquiet : ∀ s, Quiet tokens (calls ++ [.cancel t reason]) s ↔ Quiet tokens calls s ∧ ¬ Descends tokens t s := by
    intro s
    rw [quiet_append]
    exact and_congr_right fun _ => ⟨fun hcall => hcall t reason rfl, by rintro hnot u r ⟨⟩; exact hnot⟩
  constructor
  · exact hmarks.length.trans h.length
  · exact h.grown
  · exact hmarks.sound h.sound
  · exact hmarks.linked (by have := h.length; omega) (fun _ _ => .child) h.linked
  · intro u r hmem
    rw [hmarks.length]
    rcases List.mem_append.mp hmem with hmem | hmem
    · exact h.named u r hmem
    · obtain ⟨rfl, rfl⟩ := Call.cancel.inj (List.mem_singleton.mp hmem)
      exact ht
  · intro s token' hs
    rw [hquiet]
    obtain ⟨token, htoken, ⟨hdesc, -, rfl⟩ | ⟨hkeep, rfl⟩⟩ := hmarks.get hs
    · exact ⟨fun _ hq => hq.2 hdesc, fun _ => rfl⟩
    · rw [h.cancelled_iff s token' htoken] at hkeep ⊢
      tauto
  · intro s token' before u r after hs hsplit hdesc hbefore
    obtain ⟨token, htoken, ⟨hmarked, hnot, rfl⟩ | ⟨hkeep, rfl⟩⟩ := hmarks.get hs
    · -- a token marked now was reached by no earlier call
      have hcalls : Quiet tokens calls s := by
        by_contra hreached
        rw [(h.cancelled_iff s token htoken).mpr hreached] at hnot
        cases hnot
      rcases append_singleton_eq hsplit with ⟨-, hcall⟩ | ⟨after', rfl⟩
      · exact (Call.cancel.inj hcall).2
      · exact absurd hdesc (hcalls u r (by simp))
    · rcases append_singleton_eq hsplit with ⟨rfl, hcall⟩ | ⟨after', hcalls⟩
      · obtain ⟨rfl, rfl⟩ := Call.cancel.inj hcall
        exact absurd hbefore ((h.cancelled_iff s token' htoken).mp (hkeep hdesc))
      · exact h.first s token' before u r after' htoken hcalls hdesc hbefore

/-! ### `child` -/

/-- What `child()` leaves of the old tokens, and the new one. -/
theorem get_child {p : ℕ} {parent : Token} (hp : heap[p]? = some parent) {s : ℕ} {token' : Token}
    (hs : (Tokens.child heap p)[s]? = some token') :
    (s = heap.length ∧ token'.cancelled = parent.cancelled ∧ token'.children = [] ∧
      (parent.cancelled = true → token'.reason = parent.reason)) ∨
    ∃ token, heap[s]? = some token ∧ token'.cancelled = token.cancelled ∧ token'.reason = token.reason ∧
      ∀ c, c ∈ token'.children ↔ c ∈ token.children ∨ s = p ∧ parent.cancelled = false ∧ c = heap.length := by
  unfold Tokens.child at hs
  rw [hp] at hs
  dsimp only at hs
  have hlast : ∀ {l : List Token} {new : Token}, l.length = heap.length → (l ++ [new])[s]? = some token' →
      s = heap.length ∧ token' = new ∨ l[s]? = some token' := by
    intro l new hl hget
    rcases Nat.lt_or_ge s l.length with hlt | hge
    · rw [List.getElem?_append_left hlt] at hget
      exact .inr hget
    · obtain ⟨hlt, -⟩ := List.getElem?_eq_some_iff.mp hget
      rw [List.length_append, List.length_singleton] at hlt
      obtain rfl : s = l.length := by omega
      rw [List.getElem?_append_right (Nat.le_refl _), Nat.sub_self] at hget
      exact .inl ⟨hl, (Option.some.inj hget).symm⟩
  by_cases hcancelled : parent.cancelled = true
  · rw [if_pos hcancelled] at hs
    rcases hlast rfl hs with ⟨rfl, rfl⟩ | hold
    · exact .inl ⟨rfl, hcancelled.symm, rfl, fun _ => rfl⟩
    · exact .inr ⟨token', hold, rfl, rfl, by simp [hcancelled]⟩
  · rw [if_neg hcancelled] at hs
    rcases hlast List.length_set hs with ⟨rfl, rfl⟩ | hold
    · exact .inl ⟨rfl, by simpa using hcancelled, rfl, fun h => absurd h hcancelled⟩
    · by_cases hne : p = s
      · subst hne
        rw [List.getElem?_set_self (List.getElem?_eq_some_iff.mp hp).1] at hold
        obtain rfl := Option.some.inj hold
        exact .inr ⟨parent, hp, rfl, rfl, by simp [hcancelled]⟩
      · rw [List.getElem?_set_ne hne] at hold
        exact .inr ⟨token', hold, rfl, rfl, by simp [Ne.symm hne]⟩

theorem length_child {p : ℕ} {parent : Token} (hp : heap[p]? = some parent) :
    (Tokens.child heap p).length = heap.length + 1 := by
  unfold Tokens.child
  rw [hp]
  dsimp only
  split_ifs <;> simp

theorem keeps_child {p : ℕ} {parent : Token} (hp : heap[p]? = some parent) : Keeps heap (Tokens.child heap p) := by
  intro s token hs hc
  obtain ⟨hlt, -⟩ := List.getElem?_eq_some_iff.mp hs
  have hs' := List.getElem?_eq_getElem (show s < (Tokens.child heap p).length by rw [length_child hp]; omega)
  rcases get_child hp hs' with ⟨rfl, -⟩ | ⟨token', htoken', hcancelled, hreason, -⟩
  · exact absurd hlt (Nat.lt_irrefl _)
  · obtain rfl := Option.some.inj (hs.symm.trans htoken')
    exact ⟨_, hs', hcancelled.trans hc, hreason⟩

theorem child (h : Inv tokens calls heap) {p : ℕ} (hplt : p < heap.length) :
    Inv (tokens ++ [p]) (calls ++ [.child p]) (Tokens.child heap p) := by
  obtain ⟨parent, hp⟩ : ∃ parent, heap[p]? = some parent := ⟨_, List.getElem?_eq_getElem hplt⟩
  have hlength := h.length
  have hple : p ≤ tokens.length := by omega
  have hnew : (tokens ++ [p])[tokens.length]? = some p := by simp
  have hcall : ∀ v reason, Call.child p ≠ .cancel v reason := nofun
  -- a call reaches an old token in the grown tree as in the old one, and the new token where it reaches the parent
  have hold : ∀ {s : ℕ} {token : Token}, heap[s]? = some token →
      ∀ u, Descends (tokens ++ [p]) u s ↔ Descends tokens u s :=
    fun hs _ => descends_append h.grown (h.lt_length hs)
  have hlast : ∀ u, u < heap.length → (Descends (tokens ++ [p]) u heap.length ↔ Descends tokens u p) := by
    intro u hu
    rw [hlength, descends_new h.grown hple]
    exact ⟨fun hd => hd.resolve_left (by omega), .inr⟩
  have hquiet : ∀ {some' : List Call} {s q : ℕ}, (∀ u reason, Call.cancel u reason ∈ some' →
      (Descends (tokens ++ [p]) u s ↔ Descends tokens u q)) →
      (Quiet (tokens ++ [p]) some' s ↔ Quiet tokens some' q) :=
    fun hd => forall₃_congr fun u reason hmem => not_congr (hd u reason hmem)
  have happend : ∀ s, Quiet (tokens ++ [p]) (calls ++ [.child p]) s ↔ Quiet (tokens ++ [p]) calls s := by
    intro s
    rw [quiet_append]
    simp [hcall]
  constructor
  · rw [length_child hp, List.length_append, List.length_singleton, hlength]
  · exact h.grown.append hple
  · intro s token' c hs hc
    rcases get_child hp hs with ⟨-, -, hnil, -⟩ | ⟨token, htoken, -, -, hmem⟩
    · rw [hnil] at hc
      cases hc
    · rcases (hmem c).mp hc with hc | ⟨rfl, -, rfl⟩
      · obtain ⟨k, rfl, hk⟩ := h.sound s token c htoken hc
        exact ⟨k, rfl, List.getElem?_append_left (List.getElem?_eq_some_iff.mp hk).1 ▸ hk⟩
      · exact ⟨tokens.length, hlength, hnew⟩
  · intro s k token' _ hk hs
    obtain ⟨hklt, -⟩ := List.getElem?_eq_some_iff.mp hk
    rw [List.length_append, List.length_singleton] at hklt
    rcases get_child hp hs with ⟨rfl, -⟩ | ⟨token, htoken, hc, -, hmem⟩
    · have := (h.grown.append hple) k _ hk
      omega
    · rw [hc]
      by_cases hlt : k < tokens.length
      · rw [List.getElem?_append_left hlt] at hk
        obtain ⟨hcancel, hlink⟩ := h.linked s k token trivial hk htoken
        exact ⟨fun hyes => (keeps_child hp).cancelled (hcancel hyes), fun hno => (hmem _).mpr (.inl (hlink hno))⟩
      · obtain rfl : k = tokens.length := by omega
        obtain rfl : p = s := Option.some.inj (hnew.symm.trans hk)
        obtain rfl : parent = token := Option.some.inj (hp.symm.trans htoken)
        refine ⟨fun hyes => ?_, fun hno => (hmem _).mpr (.inr ⟨rfl, hno, hlength.symm⟩)⟩
        have hs' := List.getElem?_eq_getElem
          (show tokens.length + 1 < (Tokens.child heap p).length by rw [length_child hp]; omega)
        rcases get_child hp hs' with ⟨-, hc', -⟩ | ⟨other, hother, -⟩
        · exact ⟨_, hs', hc'.trans hyes⟩
        · have := h.lt_length hother
          omega
  · intro u reason hmem
    rw [length_child hp]
    have := h.named u reason (by simpa using hmem)
    omega
  · intro s token' hs
    rw [happend]
    rcases get_child hp hs with ⟨rfl, hc, -, -⟩ | ⟨token, htoken, hc, -⟩
    · rw [hc, h.cancelled_iff p parent hp, hquiet fun u reason hmem => hlast u (h.named u reason hmem)]
    · rw [hc, h.cancelled_iff s token htoken, hquiet fun u _ _ => hold htoken u]
  · intro s token' before u reason after hs hsplit hdesc hbefore
    obtain ⟨after', hcalls⟩ := split_of_append hcall hsplit
    have hmem : ∀ v r, Call.cancel v r ∈ before → v < heap.length := by
      intro v r hv
      exact h.named v r (by rw [hcalls]; exact List.mem_append_left _ hv)
    rcases get_child hp hs with ⟨rfl, hc, -, hr⟩ | ⟨token, htoken, -, hr, -⟩
    · have hu : u < heap.length := h.named u reason (by rw [hcalls]; simp)
      have hdesc' := (hlast u hu).mp hdesc
      have hreached : ¬ Quiet tokens calls p := fun hq => hq u reason (by rw [hcalls]; simp) hdesc'
      rw [hr ((h.cancelled_iff p parent hp).mpr hreached)]
      exact h.first p parent before u reason after' hp hcalls hdesc'
        ((hquiet fun v r hv => hlast v (hmem v r hv)).mp hbefore)
    · rw [hr]
      exact h.first s token before u reason after' htoken hcalls ((hold htoken u).mp hdesc)
        ((hquiet fun v _ _ => hold htoken v).mp hbefore)

/-! ### Runs -/

theorem step {call : Call} {next : List Token} (h : Inv (parents calls) calls heap)
    (hstep : Tokens.step heap call = some next) :
    Inv (parents (calls ++ [call])) (calls ++ [call]) next ∧ Keeps heap next := by
  unfold Tokens.step at hstep
  split_ifs at hstep with hlt
  obtain rfl := Option.some.inj hstep
  cases call with
  | child p =>
    rw [parents_append_child]
    exact ⟨h.child hlt, keeps_child (List.getElem?_eq_getElem hlt)⟩
  | cancel t reason =>
    rw [parents_append_cancel]
    exact ⟨h.cancel hlt reason, fun s token hs hc => ⟨token, (h.marks t reason).kept s token hs fun _ => hc, hc, rfl⟩⟩
  | wait t =>
    rw [parents_append_wait]
    exact ⟨h.wait t, keeps_wait heap t⟩

theorem run (h : Inv (parents calls) calls heap) {more : List Call} (hrun : more.foldlM Tokens.step heap = some heap') :
    Inv (parents (calls ++ more)) (calls ++ more) heap' ∧ Keeps heap heap' := by
  induction more generalizing calls heap with
  | nil =>
    obtain rfl := Option.some.inj hrun
    rw [List.append_nil]
    exact ⟨h, fun s token hs hc => ⟨token, hs, hc, rfl⟩⟩
  | cons call more ih =>
    rw [List.foldlM_cons] at hrun
    obtain ⟨next, hstep, hrest⟩ := Option.bind_eq_some_iff.mp hrun
    obtain ⟨hnext, hkeeps⟩ := h.step hstep
    obtain ⟨hinv, hkeeps'⟩ := ih hnext hrest
    rw [List.append_assoc] at hinv
    refine ⟨hinv, fun s token hs hc => ?_⟩
    obtain ⟨token₁, hs₁, hc₁, hr₁⟩ := hkeeps s token hs hc
    obtain ⟨token₂, hs₂, hc₂, hr₂⟩ := hkeeps' s token₁ hs₁ hc₁
    exact ⟨token₂, hs₂, hc₂, hr₂.trans hr₁⟩

end Inv

theorem inv_tree {calls : List Call} (h : tree calls = some heap) : Inv (parents calls) calls heap := by
  have hstart : Inv (parents []) [] [{}] := .start
  exact (hstart.run h).1

/-- A token is cancelled exactly when a call reached it from above, for the reason of the first such call, and stays
so; a call on a child leaves its parent and its siblings alone. -/
theorem cancellation_descends (calls more : List Call) (heap heap' : List Token) (h : tree calls = some heap)
    (h' : tree (calls ++ more) = some heap') :
    (∀ (t : ℕ) (token : Token), heap[t]? = some token →
      (token.cancelled = true ↔ ∃ u reason, Call.cancel u reason ∈ calls ∧ Descends (parents calls) u t) ∧
      (∀ before u reason after, calls = before ++ .cancel u reason :: after → Descends (parents calls) u t →
        Quiet (parents calls) before t → token.reason = reason) ∧
      (token.cancelled = true →
        ∃ token', heap'[t]? = some token' ∧ token'.cancelled = true ∧ token'.reason = token.reason)) ∧
    ∀ c reason, c < heap.length → ∃ next, step heap (.cancel c reason) = some next ∧
      (∀ t, ¬ Descends (parents calls) c t → next[t]? = heap[t]?) ∧
      ∀ k p, c = k + 1 → (parents calls)[k]? = some p →
        next[p]? = heap[p]? ∧ ∀ m, (parents calls)[m]? = some p → m ≠ k → next[m + 1]? = heap[m + 1]? := by
  have hinv := inv_tree h
  refine ⟨?_, ?_⟩
  · intro t token ht
    refine ⟨?_, fun before u reason after => hinv.first t token before u reason after ht, ?_⟩
    · rw [hinv.cancelled_iff t token ht]
      simp only [Quiet, not_forall, not_not, exists_prop]
    · rw [tree, List.foldlM_append] at h'
      obtain ⟨middle, hmiddle, hrest⟩ := Option.bind_eq_some_iff.mp h'
      obtain rfl : heap = middle := Option.some.inj (h.symm.trans hmiddle)
      exact (hinv.run hrest).2 t token ht
  · intro c reason hc
    have hmarks := hinv.marks c reason
    have hrest : ∀ t, ¬ Descends (parents calls) c t → (cancel heap c reason)[t]? = heap[t]? := by
      intro t hnot
      cases ht : heap[t]? with
      | none =>
        rw [List.getElem?_eq_none_iff] at ht ⊢
        rwa [hmarks.length]
      | some token => exact hmarks.kept t token ht fun hdesc => absurd hdesc hnot
    refine ⟨_, if_pos hc, hrest, ?_⟩
    rintro k p rfl hk
    exact ⟨hrest p (not_descends_parent hinv.grown hk),
      fun m hm hne => hrest (m + 1) (not_descends_sibling hinv.grown hk hm hne)⟩

/-- The first child is cancelled for its own reason before the root, and a late child inherits the root's. -/
theorem cancellation_descends_late :
    ∃ heap heap', tree [.child 0, .child 0, .cancel 1 "done", .cancel 0 "stop"] = some heap ∧
      tree ([.child 0, .child 0, .cancel 1 "done", .cancel 0 "stop"] ++ [.child 2, .cancel 3 "late"]) = some heap' ∧
      heap.map Token.reason = [some "stop", some "done", some "stop"] ∧
      (∃ token, heap'[3]? = some token ∧ token.reason = some "stop") ∧
      ∀ (t : ℕ) (token : Token), heap[t]? = some token → token.cancelled = true → ∃ token', heap'[t]? = some token' ∧
        token'.reason = token.reason := by
  let heap : List Token :=
    [⟨true, some "stop", none, [1, 2]⟩, ⟨true, some "done", none, []⟩, ⟨true, some "stop", none, []⟩]
  have h : tree [.child 0, .child 0, .cancel 1 "done", .cancel 0 "stop"] = some heap := by decide +kernel
  have h' : tree ([.child 0, .child 0, .cancel 1 "done", .cancel 0 "stop"] ++ [.child 2, .cancel 3 "late"]) =
      some (heap ++ [⟨true, some "stop", none, []⟩]) := by decide +kernel
  refine ⟨heap, _, h, h', rfl, ⟨_, rfl, rfl⟩, ?_⟩
  intro t token ht hc
  obtain ⟨-, -, hkeeps⟩ := (cancellation_descends _ _ heap _ h h').1 t token ht
  obtain ⟨token', ht', -, hr⟩ := hkeeps hc
  exact ⟨token', ht', hr⟩

end Xyberos.Execution.Tokens
