import Xyberos.Base.Replace
import Xyberos.Json.Text

/-!
# Xyberos.Ai.Logging — how much of a call may reach the logs

`LoggingPolicy.apply` replaces the secrets one after another, each in what the one before has left.  The markers are not
touched by a later secret, so the content is masked as it should be exactly when the secrets are separate in it.
-/

set_option autoImplicit false

namespace Xyberos.Ai

open Json

/-- `_REDACTED`. -/
def redactedMark : Str := Str.ofString "[redacted]"

/-- `LoggingPolicy`. -/
structure LoggingPolicy where
  captureContent : Bool := false
  maxContentLength : ℕ := 200
  redact : List Str := []
  one_le : 1 ≤ maxContentLength := by decide

namespace LoggingPolicy

variable (policy : LoggingPolicy)

/-- The loop of `apply`. -/
def redacted (content : Str) : Str :=
  policy.redact.foldl (fun redacted secret => if secret = [] then redacted else replace secret redactedMark redacted)
    content

/-- `apply`. -/
def apply (content : Str) : Str :=
  let redacted := policy.redacted content
  if policy.maxContentLength < redacted.length then redacted.take policy.maxContentLength ++ Str.ofString "..."
  else redacted

/-- The same policy with its secrets in another order. -/
def reordered (secrets : List Str) : LoggingPolicy := { policy with redact := secrets }

/-- What lies inside an occurrence of a secret is gone, what lies outside of all is there, in order, and the order of the
secrets does not matter. -/
structure Redacts (content : Str) : Prop where
  masked : Masked redactedMark policy.redact content (policy.apply content)
  order : ∀ secrets : List Str, secrets.Perm policy.redact → (policy.reordered secrets).apply content = policy.apply content

/-- The secrets are words of other characters than the marker. -/
def Secrets : Prop := ∀ secret ∈ policy.redact, secret ≠ [] ∧ ∀ c ∈ secret, c ∉ redactedMark

instance : Decidable policy.Secrets :=
  have (secret : Str) : Decidable (∀ c ∈ secret, c ∉ redactedMark) :=
    List.decidableBAll (fun c : CodePoint => c ∉ redactedMark) secret
  inferInstanceAs (Decidable (∀ secret ∈ policy.redact, secret ≠ [] ∧ ∀ c ∈ secret, c ∉ redactedMark))

variable {policy} {content : Str} {secrets : List Str}

theorem redacted_eq (hs : policy.Secrets) (h : secrets.Perm policy.redact) :
    (policy.reordered secrets).redacted content = replaceAll redactedMark secrets content := by
  have hne : ∀ secret ∈ secrets, secret ≠ [] := fun secret hsecret => (hs secret (h.subset hsecret)).1
  show secrets.foldl _ content = secrets.foldl _ content
  clear h
  induction secrets generalizing content with
  | nil => rfl
  | cons secret secrets ih =>
    obtain ⟨hfirst, hrest⟩ := List.forall_mem_cons.mp hne
    rw [List.foldl_cons, List.foldl_cons, if_neg hfirst, ih hrest]

theorem apply_of_le (h : (policy.redacted content).length ≤ policy.maxContentLength) :
    policy.apply content = policy.redacted content := if_neg (Nat.not_lt.mpr h)

/-- A text that is not cut is not what a text that is cut becomes. -/
theorem apply_eq_iff (h : (policy.redacted content).length ≤ policy.maxContentLength) :
    (policy.reordered secrets).apply content = policy.apply content ↔
      (policy.reordered secrets).redacted content = policy.redacted content := by
  rw [apply_of_le h]
  by_cases hcut : policy.maxContentLength < ((policy.reordered secrets).redacted content).length
  · have hlong : ((policy.reordered secrets).apply content).length = policy.maxContentLength + 3 := by
      rw [show (policy.reordered secrets).apply content = _ from if_pos hcut, List.length_append, List.length_take]
      show min policy.maxContentLength _ + 3 = _
      omega
    refine iff_of_false (fun heq => ?_) (fun heq => ?_)
    · rw [heq] at hlong
      omega
    · rw [heq] at hcut
      omega
  · rw [show (policy.reordered secrets).apply content = _ from if_neg hcut]

/-- **A content is redacted as it should be exactly when the secrets are separate in it.** -/
theorem redacts_iff (hs : policy.Secrets) (hlength : (policy.redacted content).length ≤ policy.maxContentLength) :
    policy.Redacts content ↔ Separate policy.redact content := by
  have hwords : [] ∉ policy.redact := fun hnil => (hs [] hnil).1 rfl
  have hmarker : redactedMark ≠ [] := by decide
  have hself : policy.redacted content = replaceAll redactedMark policy.redact content :=
    redacted_eq hs (List.Perm.refl _)
  rw [separate_iff_masked hmarker hwords fun secret hsecret => (hs secret hsecret).2]
  have happly : policy.apply content = replaceAll redactedMark policy.redact content :=
    (apply_of_le hlength).trans hself
  constructor
  · rintro ⟨hmasked, horder⟩
    refine ⟨happly ▸ hmasked, fun secrets h => ?_⟩
    rw [← redacted_eq hs h, ← hself]
    exact (apply_eq_iff hlength).mp (horder secrets h)
  · rintro ⟨hmasked, horder⟩
    refine ⟨happly.symm ▸ hmasked, fun secrets h => (apply_eq_iff hlength).mpr ?_⟩
    rw [redacted_eq hs h, hself, horder secrets h]

/-- Two secrets, each of which occurs once. -/
def hushAndPin : LoggingPolicy := { redact := [Str.ofString "hush", Str.ofString "pin"] }

theorem hushAndPin_places {secret : Str} (hsecret : secret ∈ hushAndPin.redact) {i : ℕ}
    (h : secret <+: (Str.ofString "hush my pin").drop i) :
    secret = Str.ofString "hush" ∧ i = 0 ∨ secret = Str.ofString "pin" ∧ i = 8 := by
  have hplaces : ∀ secret ∈ hushAndPin.redact, ∀ i ≤ 10, secret <+: (Str.ofString "hush my pin").drop i →
      secret = Str.ofString "hush" ∧ i = 0 ∨ secret = Str.ofString "pin" ∧ i = 8 := by decide +kernel
  by_cases hi : i ≤ 10
  · exact hplaces secret hsecret i hi h
  · have hlength : (Str.ofString "hush my pin").length = 11 := by decide
    rw [List.drop_eq_nil_of_le (by omega), List.prefix_nil] at h
    subst h
    exact absurd hsecret (by decide)

theorem redacts_hush : hushAndPin.Redacts (Str.ofString "hush my pin") := by
  have hfound : Found (Str.ofString "hush") (Str.ofString "hush my pin") 0 ∧
      Found (Str.ofString "pin") (Str.ofString "hush my pin") 8 :=
    ⟨⟨[], (Str.ofString " my pin").map Piece.kept, by decide +kernel, by decide +kernel⟩,
      ⟨(Str.ofString "hush my ").map Piece.kept, [], by decide +kernel, by decide +kernel⟩⟩
  have hoccurs : ∀ {u i}, Found u (Str.ofString "hush my pin") i → u ∈ hushAndPin.redact →
      u <+: (Str.ofString "hush my pin").drop i := by
    intro u i h hu
    have hne : [] ∉ [u] := by
      rw [List.mem_singleton]
      rintro rfl
      exact absurd hu (by decide)
    have hcover : Piece.Hides (Piece.coverAll [u] ((Str.ofString "hush my pin").map Piece.kept)) i u := h
    exact (mem_of_hides hne hcover).2
  refine (redacts_iff (by decide +kernel) (by decide +kernel)).mpr ⟨fun u hu v hv hne i j hi hj => ?_, ?_⟩
  · rcases hushAndPin_places hu (hoccurs hi hu) with ⟨rfl, rfl⟩ | ⟨rfl, rfl⟩ <;>
      rcases hushAndPin_places hv (hoccurs hj hv) with ⟨rfl, rfl⟩ | ⟨rfl, rfl⟩
    · exact absurd rfl hne
    · exact .inl (by decide)
    · exact .inr (by decide)
    · exact absurd rfl hne
  · rintro p ⟨secret, hsecret, i, hoccurs, hle, hlt⟩
    rcases hushAndPin_places hsecret hoccurs with ⟨rfl, rfl⟩ | ⟨rfl, rfl⟩
    · exact ⟨_, hsecret, 0, hfound.1, hle, hlt⟩
    · exact ⟨_, hsecret, 8, hfound.2, hle, hlt⟩

/-- Of two secrets that overlap the end of the second one is left. -/
theorem not_redacts_overlap :
    ({ redact := [Str.ofString "xy", Str.ofString "yz"] } : LoggingPolicy).Secrets ∧
    ({ redact := [Str.ofString "xy", Str.ofString "yz"] } : LoggingPolicy).apply (Str.ofString "xyz") =
      Str.ofString "[redacted]z" ∧
    ¬ ({ redact := [Str.ofString "xy", Str.ofString "yz"] } : LoggingPolicy).Redacts (Str.ofString "xyz") := by
  refine ⟨by decide +kernel, by decide +kernel, fun h => ?_⟩
  have hswapped := h.order [Str.ofString "yz", Str.ofString "xy"] (List.Perm.swap ..)
  revert hswapped
  decide +kernel

end LoggingPolicy

end Xyberos.Ai
