import Xyberos.Http.Sessions
import Xyberos.Json.Utf8
import Mathlib.Data.List.DropRight

/-!
# Xyberos.Http.Cookies — signed session cookies

A cookie is the session id, a dot, and the HMAC of the id in URL-safe base 64.  The signature has no dot, so the last dot
of a cookie is where it was signed, whatever the id is; and it is ASCII, which is all that `hmac.compare_digest` compares.
The model of the middleware takes the signature of an id as a parameter; here it is computed, and the middleware that
computes it signs and verifies as these functions do (`signed_keyed`, `verified_keyed`).
-/

set_option autoImplicit false

namespace Xyberos.Http

open Json

/-! ## Text and bytes -/

/-- A digit of URL-safe base 64. -/
def base64Digit (n : ℕ) : CodePoint :=
  if n < 26 then CodePoint.ofNat (65 + n)
  else if n < 52 then CodePoint.ofNat (97 + (n - 26))
  else if n < 62 then CodePoint.ofNat (48 + (n - 52))
  else if n = 62 then codeOf '-'
  else codeOf '_'

/-- `base64.urlsafe_b64encode`. -/
def urlsafeB64encode : List Byte → Str
  | [] => []
  | [a] => [base64Digit (a.val / 4), base64Digit (a.val % 4 * 16), codeOf '=', codeOf '=']
  | [a, b] =>
    [base64Digit (a.val / 4), base64Digit (a.val % 4 * 16 + b.val / 16), base64Digit (b.val % 16 * 4), codeOf '=']
  | a :: b :: c :: rest =>
    base64Digit (a.val / 4) :: base64Digit (a.val % 4 * 16 + b.val / 16) ::
      base64Digit (b.val % 16 * 4 + c.val / 64) :: base64Digit (c.val % 64) :: urlsafeB64encode rest

/-- `cookie.rpartition(".")`; `none` when there is no dot. -/
def rpartitionDot (cookie : Str) : Option (Str × Str) :=
  match cookie.reverse.span (· ≠ codeOf '.') with
  | (_, []) => none
  | (tail, _ :: head) => some (head.reverse, tail.reverse)

/-- `hmac.compare_digest` of two texts. -/
def compareTexts (a b : Str) : Except Exc Bool :=
  if IsAscii a ∧ IsAscii b then .ok (a == b)
  else .error (typeError "comparing strings with non-ASCII characters is not supported")

/-! ## Signing -/

/-- HMAC-SHA256: 32 bytes for a secret and a message. -/
structure HmacSha256 where
  digest : List Byte → List Byte → List Byte
  length_digest : ∀ secret message, (digest secret message).length = 32

namespace HmacSha256

variable (mac : HmacSha256) (secret : List Byte)

/-- `_signature`. -/
def signature (sessionId : Str) : Except Exc Str := do
  let message ← encodeUtf8 sessionId
  return (urlsafeB64encode (mac.digest secret message)).rdropWhile (· = codeOf '=')

/-- `_signed`. -/
def signed (sessionId : Str) : Except Exc Str := do
  return sessionId ++ codeOf '.' :: (← mac.signature secret sessionId)

/-- `_verified`. -/
def verified (cookie : Str) : Except Exc (Option Str) :=
  match rpartitionDot cookie with
  | none => .ok none
  | some (sessionId, signature) =>
    if sessionId = [] ∨ signature = [] then .ok none
    else do
      let expected ← mac.signature secret sessionId
      return if ← compareTexts signature expected then some sessionId else none

/-- The id of a cookie is returned if the cookie is that id, signed, and nothing is raised. -/
def Decides (cookie : Str) : Prop :=
  ∃ answer, mac.verified secret cookie = .ok answer ∧
    ∀ sessionId, answer = some sessionId ↔ sessionId ≠ [] ∧ mac.signed secret sessionId = .ok cookie

end HmacSha256

/-- What stands before the last dot can be encoded, and what stands behind it is ASCII, if there is text on both sides. -/
def Comparable (cookie : Str) : Prop :=
  ∀ sessionId signature, rpartitionDot cookie = some (sessionId, signature) → sessionId ≠ [] → signature ≠ [] →
    Encodable sessionId ∧ IsAscii signature

/-! ## The parts of a cookie -/

section Parts

variable {cookie head tail : Str}

theorem rpartitionDot_append (h : codeOf '.' ∉ tail) :
    rpartitionDot (head ++ codeOf '.' :: tail) = some (head, tail) := by
  have hrest : ∀ c ∈ tail.reverse, decide (c ≠ codeOf '.') = true := by
    intro c hc
    refine decide_eq_true ?_
    rintro rfl
    exact h (List.mem_reverse.mp hc)
  have hreverse : (head ++ codeOf '.' :: tail).reverse = tail.reverse ++ codeOf '.' :: head.reverse := by simp
  unfold rpartitionDot
  rw [hreverse, List.span_eq_takeWhile_dropWhile, List.takeWhile_append_of_pos hrest,
    List.dropWhile_append_of_pos hrest]
  simp

theorem rpartitionDot_eq_some :
    rpartitionDot cookie = some (head, tail) ↔ cookie = head ++ codeOf '.' :: tail ∧ codeOf '.' ∉ tail := by
  refine ⟨fun h => ?_, fun ⟨heq, h⟩ => heq ▸ rpartitionDot_append h⟩
  by_cases hdot : codeOf '.' ∈ cookie
  · -- the last dot
    obtain ⟨back, front, hsplit, hback⟩ := List.eq_append_cons_of_mem (List.mem_reverse.mpr hdot)
    have hcookie : cookie = front.reverse ++ codeOf '.' :: back.reverse := by
      rw [← List.reverse_reverse cookie, hsplit]
      simp
    have hback' : codeOf '.' ∉ back.reverse := fun h => hback (List.mem_reverse.mp h)
    rw [hcookie, rpartitionDot_append hback'] at h
    obtain ⟨rfl, rfl⟩ := Prod.mk.inj (Option.some.inj h)
    exact ⟨hcookie, hback'⟩
  · have hnone : cookie.reverse.dropWhile (· ≠ codeOf '.') = [] := by
      rw [List.dropWhile_eq_nil_iff]
      intro c hc
      refine decide_eq_true ?_
      rintro rfl
      exact hdot (List.mem_reverse.mp hc)
    unfold rpartitionDot at h
    rw [List.span_eq_takeWhile_dropWhile, hnone] at h
    cases h

/-- A digit is ASCII, and neither the dot nor the padding. -/
theorem base64Digit_spec (n : ℕ) :
    (base64Digit n).val < 128 ∧ base64Digit n ≠ codeOf '.' ∧ base64Digit n ≠ codeOf '=' := by
  have hsmall : ∀ n < 64, (base64Digit n).val < 128 ∧ base64Digit n ≠ codeOf '.' ∧ base64Digit n ≠ codeOf '=' := by
    decide
  by_cases h : n < 64
  · exact hsmall n h
  · have hlast : base64Digit n = base64Digit 63 := by
      unfold base64Digit
      rw [if_neg (by omega), if_neg (by omega), if_neg (by omega), if_neg (by omega)]
      rfl
    rw [hlast]
    exact hsmall 63 (by omega)

theorem mem_urlsafeB64encode {bytes : List Byte} {c : CodePoint} (h : c ∈ urlsafeB64encode bytes) :
    c = codeOf '=' ∨ ∃ n, c = base64Digit n := by
  fun_induction urlsafeB64encode bytes with
  | case1 => cases h
  | case2 a =>
    simp only [List.mem_cons, List.not_mem_nil, or_false] at h
    rcases h with rfl | rfl | rfl | rfl
    · exact .inr ⟨_, rfl⟩
    · exact .inr ⟨_, rfl⟩
    · exact .inl rfl
    · exact .inl rfl
  | case3 a b =>
    simp only [List.mem_cons, List.not_mem_nil, or_false] at h
    rcases h with rfl | rfl | rfl | rfl
    · exact .inr ⟨_, rfl⟩
    · exact .inr ⟨_, rfl⟩
    · exact .inr ⟨_, rfl⟩
    · exact .inl rfl
  | case4 a b c' rest ih =>
    simp only [List.mem_cons] at h
    rcases h with rfl | rfl | rfl | rfl | h
    · exact .inr ⟨_, rfl⟩
    · exact .inr ⟨_, rfl⟩
    · exact .inr ⟨_, rfl⟩
    · exact .inr ⟨_, rfl⟩
    · exact ih h

/-- Text that is not empty begins with a digit. -/
theorem head_urlsafeB64encode {bytes : List Byte} (h : bytes ≠ []) : ∃ n, base64Digit n ∈ urlsafeB64encode bytes := by
  fun_cases urlsafeB64encode bytes with
  | case1 => exact absurd rfl h
  | case2 => exact ⟨_, List.mem_cons_self⟩
  | case3 => exact ⟨_, List.mem_cons_self⟩
  | case4 => exact ⟨_, List.mem_cons_self⟩

end Parts

/-! ## Cookies -/

namespace HmacSha256

variable {mac : HmacSha256} {secret : List Byte} {sessionId cookie expected : Str}

theorem signature_ok (mac : HmacSha256) (secret : List Byte) (h : Encodable sessionId) :
    ∃ expected, mac.signature secret sessionId = .ok expected := by
  unfold signature
  rw [encodeUtf8, if_pos h]
  exact ⟨_, rfl⟩

theorem encodable_of_signature (h : mac.signature secret sessionId = .ok expected) : Encodable sessionId := by
  by_contra hnot
  unfold signature at h
  rw [encodeUtf8, if_neg hnot] at h
  cases h

/-- A signature is ASCII, has no dot and is not empty. -/
theorem signature_spec (h : mac.signature secret sessionId = .ok expected) :
    IsAscii expected ∧ codeOf '.' ∉ expected ∧ expected ≠ [] := by
  unfold signature at h
  rw [encodeUtf8, if_pos (encodable_of_signature h)] at h
  obtain rfl := Except.ok.inj h
  generalize hbytes : mac.digest secret (sessionId.flatMap utf8Bytes) = bytes
  have hne : bytes ≠ [] := by
    rintro rfl
    have := mac.length_digest secret (sessionId.flatMap utf8Bytes)
    simp [hbytes] at this
  have hmem : ∀ c ∈ (urlsafeB64encode bytes).rdropWhile (· = codeOf '='), c ∈ urlsafeB64encode bytes :=
    fun c hc => (List.rdropWhile_prefix _ _).subset hc
  refine ⟨fun c hc => ?_, fun hc => ?_, fun hnil => ?_⟩
  · rcases mem_urlsafeB64encode (hmem c hc) with rfl | ⟨n, rfl⟩
    · decide
    · exact (base64Digit_spec n).1
  · rcases mem_urlsafeB64encode (hmem _ hc) with heq | ⟨n, heq⟩
    · revert heq
      decide
    · exact (base64Digit_spec n).2.1 heq.symm
  · obtain ⟨n, hn⟩ := head_urlsafeB64encode hne
    have := List.rdropWhile_eq_nil_iff.mp hnil _ hn
    exact (base64Digit_spec n).2.2 (of_decide_eq_true this)

theorem signed_eq_ok : mac.signed secret sessionId = .ok cookie ↔
    ∃ expected, mac.signature secret sessionId = .ok expected ∧ cookie = sessionId ++ codeOf '.' :: expected := by
  unfold signed
  cases hexpected : mac.signature secret sessionId with
  | error e => exact iff_of_false (fun h => by cases h) (by simp)
  | ok expected =>
    show Except.ok (sessionId ++ codeOf '.' :: expected) = Except.ok cookie ↔ _
    rw [Except.ok.injEq]
    simp [eq_comm]

/-- A cookie with text on both sides of its last dot is compared. -/
theorem verified_of_rpartition {signature : Str} (hpart : rpartitionDot cookie = some (sessionId, signature))
    (hid : sessionId ≠ []) (hsig : signature ≠ []) : mac.verified secret cookie =
      (mac.signature secret sessionId).bind fun expected =>
        (compareTexts signature expected).map fun same => if same then some sessionId else none := by
  unfold verified
  rw [hpart]
  dsimp only
  rw [if_neg (not_or.mpr ⟨hid, hsig⟩)]
  cases mac.signature secret sessionId with
  | error e => simp only [bind, Except.bind]
  | ok expected =>
    simp only [bind, Except.bind]
    cases compareTexts signature expected with
    | error e => simp only [Except.map]
    | ok same => simp only [Except.map, pure, Except.pure]

/-- **A signed id is read back.** -/
theorem verified_signed (hid : sessionId ≠ []) (h : mac.signed secret sessionId = .ok cookie) :
    mac.verified secret cookie = .ok (some sessionId) := by
  obtain ⟨expected, hexpected, rfl⟩ := signed_eq_ok.mp h
  obtain ⟨hascii, hdot, hne⟩ := signature_spec hexpected
  rw [verified_of_rpartition (rpartitionDot_append hdot) hid hne, hexpected, Except.bind, compareTexts,
    if_pos ⟨hascii, hascii⟩, beq_self_eq_true]
  rfl

/-- A cookie is compared without an exception when its parts are comparable. -/
theorem decides_of_comparable (hc : Comparable cookie) : mac.Decides secret cookie := by
  have hnone : mac.verified secret cookie = .ok none → mac.Decides secret cookie := by
    intro hverified
    refine ⟨none, hverified, fun sessionId => iff_of_false (by simp) ?_⟩
    rintro ⟨hid, hsigned⟩
    rw [verified_signed hid hsigned] at hverified
    cases hverified
  cases hpart : rpartitionDot cookie with
  | none =>
    refine hnone ?_
    unfold verified
    rw [hpart]
  | some parts =>
    obtain ⟨sessionId, signature⟩ := parts
    by_cases hempty : sessionId = [] ∨ signature = []
    · refine hnone ?_
      unfold verified
      rw [hpart]
      exact if_pos hempty
    · obtain ⟨hid, hsig⟩ := not_or.mp hempty
      obtain ⟨hencodable, hascii⟩ := hc _ _ hpart hid hsig
      obtain ⟨expected, hexpected⟩ := signature_ok mac secret hencodable
      have hverified : mac.verified secret cookie =
          .ok (if signature == expected then some sessionId else none) := by
        rw [verified_of_rpartition hpart hid hsig, hexpected, Except.bind, compareTexts,
          if_pos ⟨hascii, (signature_spec hexpected).1⟩]
        rfl
      by_cases heq : signature = expected
      · subst heq
        have hsigned : mac.signed secret sessionId = .ok cookie :=
          signed_eq_ok.mpr ⟨_, hexpected, (rpartitionDot_eq_some.mp hpart).1⟩
        refine ⟨some sessionId, verified_signed hid hsigned, fun other => ⟨?_, ?_⟩⟩
        · rintro h
          obtain rfl := Option.some.inj h
          exact ⟨hid, hsigned⟩
        · rintro ⟨hother, hsigned'⟩
          have := (verified_signed hother hsigned').symm.trans (verified_signed hid hsigned)
          exact (Except.ok.inj this).symm
      · refine hnone ?_
        rw [hverified, if_neg (by simpa using heq)]

/-- Where a part is not comparable, an exception is raised. -/
theorem not_decides_of_not_comparable (hc : ¬ Comparable cookie) : ¬ mac.Decides secret cookie := by
  rintro ⟨answer, hverified, -⟩
  refine hc fun sessionId signature hpart hid hsig => ?_
  rw [verified_of_rpartition hpart hid hsig] at hverified
  cases hexpected : mac.signature secret sessionId with
  | error e =>
    rw [hexpected] at hverified
    cases hverified
  | ok expected =>
    refine ⟨encodable_of_signature hexpected, ?_⟩
    rw [hexpected] at hverified
    by_contra hascii
    have hraises : compareTexts signature expected = .error _ := if_neg fun h => hascii h.1
    rw [Except.bind, hraises] at hverified
    cases hverified

/-- **Signed cookies are read back, and a cookie is decided upon exactly when its parts can be compared.** -/
theorem verified_iff (mac : HmacSha256) (secret : List Byte) (sessionId cookie : Str) :
    (sessionId ≠ [] → Encodable sessionId →
      ∃ cookie, mac.signed secret sessionId = .ok cookie ∧ mac.verified secret cookie = .ok (some sessionId)) ∧
    (mac.Decides secret cookie ↔ Comparable cookie) := by
  constructor
  · intro hid hencodable
    obtain ⟨expected, hexpected⟩ := signature_ok mac secret hencodable
    have hsigned := signed_eq_ok.mpr ⟨expected, hexpected, rfl⟩
    exact ⟨_, hsigned, verified_signed hid hsigned⟩
  · exact ⟨fun h => by_contra fun hc => not_decides_of_not_comparable hc h, decides_of_comparable⟩

/-- A digest for tests: the bytes of the secret and the message, filled up. -/
def filled : HmacSha256 where
  digest secret message := (secret ++ message ++ List.replicate 32 (Byte.ofNat 0)).take 32
  length_digest secret message := by
    rw [List.length_take, List.length_append, List.length_replicate]
    omega

/-- A cookie that ends in `é` raises `TypeError`. -/
theorem not_decides_accented : ¬ filled.Decides [1, 2, 3] (Str.ofString "abc.é") := by
  rintro ⟨answer, h, -⟩
  have hraises : (filled.verified [1, 2, 3] (Str.ofString "abc.é")).toOption = none := by decide +kernel
  rw [h] at hraises
  cases hraises

end HmacSha256

/-! ## The middleware -/

namespace HmacSha256

variable {V : Type} (mac : HmacSha256) (secret : List Byte) (m : SessionMiddleware V)

/-- The signature of an id in characters. -/
def signatureText (sessionId : String) : String :=
  textOf ((mac.signature secret (Str.ofString sessionId)).toOption.getD [])

/-- The middleware that signs with the secret. -/
def keyed : SessionMiddleware V := { m with digest := mac.signatureText secret }

theorem signature_ofString (sessionId : String) :
    mac.signature secret (Str.ofString sessionId) = .ok (Str.ofString (mac.signatureText secret sessionId)) := by
  obtain ⟨expected, hexpected⟩ := signature_ok mac secret (encodable_ofString sessionId)
  have hencodable : Encodable expected := (signature_spec hexpected).1.encodable
  rw [signatureText, hexpected]
  exact congrArg Except.ok (ofString_textOf hencodable).symm

/-- **Ids are signed alike.** -/
theorem signed_keyed (sessionId : String) :
    mac.signed secret (Str.ofString sessionId) = .ok (Str.ofString ((mac.keyed secret m).signed sessionId)) := by
  refine signed_eq_ok.mpr ⟨_, signature_ofString mac secret sessionId, ?_⟩
  rw [SessionMiddleware.signed, keyed, ofString_append, ofString_append, List.append_assoc]
  rfl

theorem rpartitionDot_ofString (cookie : String) :
    rpartitionDot (Str.ofString cookie) = (rpartition cookie '.').map (Prod.map Str.ofString Str.ofString) := by
  have hdot : (fun c => decide (c ≠ codeOf '.')) ∘ codeOf = fun c => decide (c ≠ '.') := by
    funext c
    simp [codeOf_injective.eq_iff]
  unfold rpartitionDot rpartition
  rw [Str.ofString, ← List.map_reverse, List.span_eq_takeWhile_dropWhile, List.span_eq_takeWhile_dropWhile,
    List.takeWhile_map, List.dropWhile_map, hdot]
  cases cookie.toList.reverse.dropWhile (· ≠ '.') with
  | nil => rfl
  | cons c head => simp [Str.ofString, List.map_reverse]

theorem compareTexts_ofString (a b : String) :
    compareTexts (Str.ofString a) (Str.ofString b) = compareDigest a b := by
  have hascii : IsAscii (Str.ofString a) ∧ IsAscii (Str.ofString b) ↔
      (a.toList ++ b.toList).all (fun c => c.toNat < 128) = true := by
    rw [isAscii_ofString, isAscii_ofString, List.all_eq_true, List.forall_mem_append]
    simp only [decide_eq_true_eq]
  have hsame : (Str.ofString a == Str.ofString b) = (a == b) := by
    rw [Bool.eq_iff_iff, beq_iff_eq, beq_iff_eq]
    exact ⟨ofString_injective, congrArg Str.ofString⟩
  rw [compareTexts, compareDigest, hsame]
  exact if_congr hascii rfl rfl

/-- **Cookies are verified alike.** -/
theorem verified_keyed (cookie : String) : mac.verified secret (Str.ofString cookie) =
    ((mac.keyed secret m).verified cookie).map (Option.map Str.ofString) := by
  unfold verified SessionMiddleware.verified
  rw [rpartitionDot_ofString]
  cases rpartition cookie '.' with
  | none => rfl
  | some parts =>
    obtain ⟨sessionId, signature⟩ := parts
    dsimp only [Option.map_some, Prod.map]
    simp only [ofString_eq_nil_iff]
    by_cases hempty : sessionId = "" ∨ signature = ""
    · rw [if_pos hempty, if_pos hempty]
      rfl
    · rw [if_neg hempty, if_neg hempty, signature_ofString]
      show (do return if ← compareTexts (Str.ofString signature) (Str.ofString (mac.signatureText secret sessionId))
        then some (Str.ofString sessionId) else none) = _
      rw [compareTexts_ofString, keyed]
      cases compareDigest signature (mac.signatureText secret sessionId) with
      | error e => rfl
      | ok same => cases same <;> rfl

end HmacSha256

end Xyberos.Http
