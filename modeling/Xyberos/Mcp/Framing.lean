import Xyberos.Json.Spacing
import Xyberos.Mcp.Client

/-!
# Xyberos.Mcp.Framing — objects sent as an event stream

How a server writes objects into a server-sent-event stream: each object is serialized over lines, each line goes out
behind `data:`, and a blank line ends the event.  Comments and the other fields may stand anywhere, and a line ends in
LF, CR LF or CR.  The stream is UTF-8.

A serialization of an object is a text that `json.loads` reads as the object.  Whatever the framing, the objects come
back in order (`load_eventData`).
-/

set_option autoImplicit false

namespace Xyberos.Mcp

open Json

variable {F : Type}

/-! ## UTF-8 -/

def utf8 (text : List Char) : Body := text.flatMap String.utf8EncodeChar

/-- `raw.decode("utf-8")`. -/
def decodeUtf8 (raw : Body) : Option (List Char) := raw.toByteArray.utf8Decode?.map Array.toList

/-- `json.detect_encoding`. -/
def detectEncoding (raw : Body) : String :=
  if [0, 0, 0xfe, 0xff] <+: raw ∨ [0xff, 0xfe, 0, 0] <+: raw then "utf-32"
  else if [0xfe, 0xff] <+: raw ∨ [0xff, 0xfe] <+: raw then "utf-16"
  else if [0xef, 0xbb, 0xbf] <+: raw then "utf-8-sig"
  else
    match raw with
    | a :: b :: c :: d :: _ =>
      if a = 0 then if b = 0 then "utf-32-be" else "utf-16-be"
      else if b = 0 then if c = 0 ∧ d = 0 then "utf-32-le" else "utf-16-le"
      else "utf-8"
    | [a, b] => if a = 0 then "utf-16-be" else if b = 0 then "utf-16-le" else "utf-8"
    | _ => "utf-8"

/-- `json.loads` decodes UTF-8, and other bytes as the world does. -/
def World.decoding (w : World F) : World F :=
  { w with
    decode := fun raw =>
      if detectEncoding raw = "utf-8" then (decodeUtf8 raw).elim (w.decode raw) .ok else w.decode raw }

/-! ## The stream -/

/-- The text of an object, cut into lines at line breaks. -/
inductive Broken : List (List Char) → List Char → Prop
  | last (line) : Broken [line] line
  | more (line) {lines text} {lineBreak : List Char} (hb : lineBreak ∈ [['\n'], ['\r', '\n'], ['\r']])
    (h : Broken lines text) : Broken (line :: lines) (line ++ lineBreak ++ text)

/-- The lines make a serialization of the object: a text that `json.loads` reads as it.  A text that it refuses, with
too many digits in an integer or nested too deep, is none. -/
def Serializes (py : Interpreter F) (object : Value F) (lines : List (List Char)) : Prop :=
  IsMapping object ∧ ∃ text, Broken lines text ∧ py.loads text = .ok object

/-- The fields beside `data`. -/
inductive Field
  | event | id | retry
deriving DecidableEq, Repr

def Field.name : Field → String
  | .event => "event"
  | .id => "id"
  | .retry => "retry"

/-- A line of a stream; a `data` line with a space behind the colon or without. -/
inductive Line
  | blank
  | data (space : Bool) (text : List Char)
  | comment (text : List Char)
  | field (kind : Field) (text : List Char)
deriving DecidableEq, Repr

namespace Line

def text : Line → List Char
  | .blank => []
  | .data space text => "data:".toList ++ (if space then [' '] else []) ++ text
  | .comment text => ':' :: text
  | Line.field kind text => kind.name.toList ++ ':' :: text

@[simp] theorem text_blank : Line.blank.text = [] := rfl

theorem text_data (space : Bool) (text : List Char) :
    (Line.data space text).text = "data:".toList ++ (if space then [' '] else []) ++ text := rfl

@[simp] theorem text_field (kind : Field) (text : List Char) :
    (Line.field kind text).text = kind.name.toList ++ ':' :: text := rfl

def data? : Line → Option (List Char)
  | .data _ text => some text
  | _ => none

end Line

inductive LineEnd
  | lf | crlf | cr
deriving DecidableEq, Repr

def LineEnd.text : LineEnd → List Char
  | .lf => ['\n']
  | .crlf => ['\r', '\n']
  | .cr => ['\r']

/-- A stream: its lines with their ends, and behind them a line without. -/
structure Stream where
  lines : List (Line × LineEnd)
  last : Option Line

namespace Stream

def text (s : Stream) : List Char :=
  (s.lines.flatMap fun l => l.1.text ++ l.2.text) ++ (s.last.elim [] Line.text)

def allLines (s : Stream) : List Line := s.lines.map Prod.fst ++ s.last.toList

/-- No line has a line break in it, the line without an end is not blank, and no CR stands before an LF but in the end
of a line. -/
structure WellFormed (s : Stream) : Prop where
  plain : ∀ line ∈ s.allLines, '\n' ∉ line.text ∧ '\r' ∉ line.text
  last_ne_blank : s.last ≠ some .blank
  apart : s.lines.IsChain fun a b => ¬ (a.2 = .cr ∧ b = (.blank, .lf))

end Stream

/-- The lines are events with these data lines, with others between. -/
inductive Frames : List (List (List Char)) → List Line → Prop
  | nil : Frames [] []
  | between {events line lines} (hl : line.data? = none) (h : Frames events lines) : Frames events (line :: lines)
  | event (body : List Line) {events lines} (hbody : .blank ∉ body) (hdata : body.filterMap Line.data? ≠ [])
    (hend : lines = [] ∨ lines.head? = some .blank) (h : Frames events lines) :
    Frames (body.filterMap Line.data? :: events) (body ++ lines)

/-! ## Bytes and characters -/

theorem utf8_append (a b : List Char) : utf8 (a ++ b) = utf8 a ++ utf8 b := List.flatMap_append

theorem utf8_cons (c : Char) (text : List Char) : utf8 (c :: text) = String.utf8EncodeChar c ++ utf8 text := rfl

theorem decodeUtf8_utf8 (text : List Char) : decodeUtf8 (utf8 text) = some text := by
  have hbytes : (utf8 text).toByteArray = text.utf8Encode := rfl
  rw [decodeUtf8, hbytes, List.utf8Decode?_utf8Encode]
  rfl

theorem encode_ascii {c : Char} (h : c.toNat < 0x80) : String.utf8EncodeChar c = [UInt8.ofNat c.toNat] := by
  have hle : c.val.toNat ≤ 0x7f := Nat.lt_succ_iff.mp h
  rw [String.utf8EncodeChar, if_pos hle]
  rfl

theorem encode_high {c : Char} (h : 0x80 ≤ c.toNat) :
    String.utf8EncodeChar c ≠ [] ∧ ∀ b ∈ String.utf8EncodeChar c, 0x80 ≤ b.toNat := by
  have hbyte : ∀ n m k : ℕ, 0 < m → m + k ≤ 256 → 0x80 ≤ k → 0x80 ≤ (UInt8.ofNat (n % m + k)).toNat := by
    intro n m k hm hmk hk
    have hlt := Nat.mod_lt n hm
    rw [UInt8.toNat_ofNat', Nat.mod_eq_of_lt (by omega)]
    omega
  have hle : ¬ c.val.toNat ≤ 0x7f := Nat.not_le.mpr h
  rw [String.utf8EncodeChar, if_neg hle]
  split_ifs
  · refine ⟨by simp, ?_⟩
    simp only [List.forall_mem_cons]
    exact ⟨hbyte _ _ _ (by decide) (by decide) (by decide), hbyte _ _ _ (by decide) (by decide) (by decide), by simp⟩
  · refine ⟨by simp, ?_⟩
    simp only [List.forall_mem_cons]
    exact ⟨hbyte _ _ _ (by decide) (by decide) (by decide), hbyte _ _ _ (by decide) (by decide) (by decide),
      hbyte _ _ _ (by decide) (by decide) (by decide), by simp⟩
  · refine ⟨by simp, ?_⟩
    simp only [List.forall_mem_cons]
    exact ⟨hbyte _ _ _ (by decide) (by decide) (by decide), hbyte _ _ _ (by decide) (by decide) (by decide),
      hbyte _ _ _ (by decide) (by decide) (by decide), hbyte _ _ _ (by decide) (by decide) (by decide), by simp⟩

/-- An ASCII byte is a character of the text. -/
theorem mem_utf8 {text : List Char} {b : UInt8} (h : b ∈ utf8 text) (hb : b.toNat < 0x80) :
    ∃ c ∈ text, c.toNat = b.toNat := by
  obtain ⟨c, hc, hmem⟩ := List.mem_flatMap.mp h
  refine ⟨c, hc, ?_⟩
  by_cases hlt : c.toNat < 0x80
  · rw [encode_ascii hlt] at hmem
    rw [List.mem_singleton.mp hmem, UInt8.toNat_ofNat', Nat.mod_eq_of_lt (by omega)]
  · have := (encode_high (Nat.not_lt.mp hlt)).2 b hmem
    omega

/-! ## Stripping -/

/-- The characters that `bytes.strip` removes. -/
def isStripped (c : Char) : Bool := c.toNat == 0x20 || (0x09 ≤ c.toNat && c.toNat ≤ 0x0d)

def stripText (text : List Char) : List Char := ((text.dropWhile isStripped).reverse.dropWhile isStripped).reverse

theorem isByteSpace_ofNat {c : Char} (h : c.toNat < 0x80) : isByteSpace (UInt8.ofNat c.toNat) = isStripped c := by
  have hb : (UInt8.ofNat c.toNat).toNat = c.toNat := by
    rw [UInt8.toNat_ofNat', Nat.mod_eq_of_lt (by omega)]
  have hspace : UInt8.ofNat c.toNat = 0x20 ↔ c.toNat = 0x20 := by
    rw [← UInt8.toNat_inj, hb]
    rfl
  rw [isByteSpace, isStripped]
  simp only [UInt8.le_iff_toNat_le, hb]
  congr 1
  rw [Bool.eq_iff_iff, beq_iff_eq, beq_iff_eq, hspace]

theorem not_isByteSpace {b : UInt8} (h : 0x80 ≤ b.toNat) : isByteSpace b = false := by
  have hne : b ≠ 0x20 := by rintro rfl; exact absurd h (by decide)
  have hlt : ¬ b ≤ 0x0d := by
    rw [UInt8.le_iff_toNat_le]
    have : (0x0d : UInt8).toNat = 13 := rfl
    omega
  simp [isByteSpace, hne, hlt]

theorem not_isStripped {c : Char} (h : 0x80 ≤ c.toNat) : isStripped c = false := by
  have hne : c.toNat ≠ 0x20 := by omega
  have hlt : ¬ c.toNat ≤ 0x0d := by omega
  simp [isStripped, hne, hlt]

theorem dropWhile_utf8 (text : List Char) : (utf8 text).dropWhile isByteSpace = utf8 (text.dropWhile isStripped) := by
  induction text with
  | nil => rfl
  | cons c text ih =>
    rw [utf8_cons]
    by_cases hlt : c.toNat < 0x80
    · rw [encode_ascii hlt, List.singleton_append]
      by_cases hs : isStripped c = true
      · rw [List.dropWhile_cons_of_pos (by rw [isByteSpace_ofNat hlt, hs]), List.dropWhile_cons_of_pos hs, ih]
      · rw [List.dropWhile_cons_of_neg (by rw [isByteSpace_ofNat hlt]; exact hs), List.dropWhile_cons_of_neg hs, utf8_cons,
          encode_ascii hlt, List.singleton_append]
    · obtain ⟨hne, hhigh⟩ := encode_high (Nat.not_lt.mp hlt)
      obtain ⟨b, bs, hbs⟩ := List.exists_cons_of_ne_nil hne
      have hb := not_isByteSpace (hhigh b (by rw [hbs]; exact List.mem_cons_self ..))
      rw [List.dropWhile_cons_of_neg (by rw [not_isStripped (Nat.not_lt.mp hlt)]; simp), utf8_cons, hbs, List.cons_append,
        List.dropWhile_cons_of_neg (by rw [hb]; simp)]

theorem reverse_dropWhile_utf8 (text : List Char) :
    ((utf8 text).reverse.dropWhile isByteSpace).reverse = utf8 (text.reverse.dropWhile isStripped).reverse := by
  induction text using List.reverseRecOn with
  | nil => rfl
  | append_singleton text c ih =>
    have hone : utf8 [c] = String.utf8EncodeChar c := List.append_nil _
    rw [utf8_append, hone, List.reverse_append, List.reverse_append, List.reverse_singleton, List.singleton_append]
    by_cases hlt : c.toNat < 0x80
    · rw [encode_ascii hlt, List.reverse_singleton, List.singleton_append]
      by_cases hs : isStripped c = true
      · rw [List.dropWhile_cons_of_pos (by rw [isByteSpace_ofNat hlt, hs]), List.dropWhile_cons_of_pos hs, ih]
      · rw [List.dropWhile_cons_of_neg (by rw [isByteSpace_ofNat hlt]; exact hs), List.dropWhile_cons_of_neg hs,
          List.reverse_cons, List.reverse_reverse, List.reverse_cons, List.reverse_reverse, utf8_append, hone,
          encode_ascii hlt]
    · obtain ⟨hne, hhigh⟩ := encode_high (Nat.not_lt.mp hlt)
      obtain ⟨bs, b, hbs⟩ := (List.eq_nil_or_concat' (String.utf8EncodeChar c)).resolve_left hne
      have hb := not_isByteSpace (hhigh b (by rw [hbs]; simp))
      rw [List.dropWhile_cons_of_neg (by rw [not_isStripped (Nat.not_lt.mp hlt)]; simp), List.reverse_cons,
        List.reverse_reverse, utf8_append, hone, hbs, List.reverse_append, List.reverse_singleton, List.singleton_append,
        List.cons_append, List.dropWhile_cons_of_neg (by rw [hb]; simp)]
      simp

theorem stripBytes_utf8 (text : List Char) : stripBytes (utf8 text) = utf8 (stripText text) := by
  rw [stripBytes, dropWhile_utf8, reverse_dropWhile_utf8, stripText]

/-! ## The lines of a stream -/

theorem splitLinesFrom_append {line : Body} (h : 0x0a ∉ line ∧ 0x0d ∉ line) (acc rest : Body) :
    splitLinesFrom acc (line ++ rest) = splitLinesFrom (line.reverse ++ acc) rest := by
  induction line generalizing acc with
  | nil => rfl
  | cons b line ih =>
    obtain ⟨hlf, hcr⟩ := h
    rw [List.mem_cons, not_or] at hlf hcr
    rw [List.cons_append, splitLinesFrom, if_neg (not_or.mpr ⟨Ne.symm hlf.1, Ne.symm hcr.1⟩), ih ⟨hlf.2, hcr.2⟩,
      List.reverse_cons, List.append_assoc, List.singleton_append]
    exact fun _ hb _ => hcr.1 hb.symm

theorem plain_utf8 {text : List Char} (h : '\n' ∉ text ∧ '\r' ∉ text) : 0x0a ∉ utf8 text ∧ 0x0d ∉ utf8 text := by
  refine ⟨fun hm => ?_, fun hm => ?_⟩
  · obtain ⟨c, hc, hn⟩ := mem_utf8 hm (by decide)
    have hlf : c.toNat = '\n'.toNat := hn
    exact h.1 (Char.toNat_inj.mp hlf ▸ hc)
  · obtain ⟨c, hc, hn⟩ := mem_utf8 hm (by decide)
    have hcr : c.toNat = '\r'.toNat := hn
    exact h.2 (Char.toNat_inj.mp hcr ▸ hc)

/-- Bytes start with an LF only where the text does. -/
theorem head_utf8 {text : List Char} {raw : Body} (h : utf8 text = 0x0a :: raw) : text.head? = some '\n' := by
  cases text with
  | nil => cases h
  | cons c text =>
    rw [utf8_cons] at h
    by_cases hlt : c.toNat < 0x80
    · rw [encode_ascii hlt, List.singleton_append] at h
      have hbyte := congrArg UInt8.toNat (List.cons.inj h).1
      rw [UInt8.toNat_ofNat', Nat.mod_eq_of_lt (by omega)] at hbyte
      have hc : c.toNat = '\n'.toNat := hbyte
      rw [Char.toNat_inj.mp hc]
      rfl
    · obtain ⟨hne, hhigh⟩ := encode_high (Nat.not_lt.mp hlt)
      obtain ⟨b, bs, hbs⟩ := List.exists_cons_of_ne_nil hne
      rw [hbs, List.cons_append] at h
      have := hhigh b (by rw [hbs]; exact List.mem_cons_self ..)
      rw [(List.cons.inj h).1] at this
      exact absurd this (by decide)

theorem Line.text_ne_nil {line : Line} (h : line ≠ .blank) : line.text ≠ [] := by
  cases line with
  | blank => exact absurd rfl h
  | data space text => simp [Line.text_data]
  | comment text => exact List.cons_ne_nil _ _
  | field kind text => simp

theorem head_append {a : List Char} {c : Char} (b : List Char) (ha : a ≠ []) (hc : c ∉ a) : (a ++ b).head? ≠ some c := by
  rw [List.head?_append_of_ne_nil _ ha]
  exact fun h => hc (List.mem_of_mem_head? h)

/-- The lines of the bytes of a stream are its lines. -/
theorem splitLines_text {s : Stream} (h : s.WellFormed) : splitLines (utf8 s.text) = s.allLines.map fun l => utf8 l.text := by
  obtain ⟨lines, last⟩ := s
  obtain ⟨hplain, hlast, hapart⟩ := h
  show splitLinesFrom [] (utf8 ((lines.flatMap fun l => l.1.text ++ l.2.text) ++ last.elim [] Line.text)) =
    (lines.map Prod.fst ++ last.toList).map fun l => utf8 l.text
  simp only [Stream.allLines] at hplain
  dsimp only at hlast hapart
  induction lines with
  | nil =>
    cases last with
    | none => rfl
    | some line =>
      have hne := Line.text_ne_nil fun he => hlast (congrArg some he)
      have hline := hplain line (by simp)
      have hbytes : utf8 line.text ≠ [] := by
        obtain ⟨c, text, hc⟩ := List.exists_cons_of_ne_nil hne
        rw [hc, utf8_cons]
        by_cases hlt : c.toNat < 0x80
        · rw [encode_ascii hlt]
          simp
        · simp [(encode_high (Nat.not_lt.mp hlt)).1]
      have hsplit := splitLinesFrom_append (plain_utf8 hline) [] []
      rw [List.append_nil, List.append_nil, splitLinesFrom, if_neg (by simpa using hbytes), List.reverse_reverse] at hsplit
      simpa using hsplit
  | cons first lines ih =>
    obtain ⟨line, lineEnd⟩ := first
    have hrest := ih (fun l hl => hplain l (by simp only [List.map_cons, List.cons_append]; exact List.mem_cons_of_mem _ hl))
      hapart.tail
    have hline := plain_utf8 (hplain line (by simp))
    generalize htext : (lines.flatMap fun l => l.1.text ++ l.2.text) ++ last.elim [] Line.text = text at hrest
    rw [List.flatMap_cons, List.append_assoc, htext, List.append_assoc, utf8_append, utf8_append,
      splitLinesFrom_append hline, List.append_nil, List.map_cons, List.cons_append, List.map_cons, ← hrest]
    cases lineEnd with
    | lf =>
      show splitLinesFrom _ (0x0a :: utf8 text) = _
      rw [splitLinesFrom, if_pos (.inl rfl), List.reverse_reverse]
      exact fun _ hb _ => absurd hb (by decide)
    | crlf =>
      show splitLinesFrom _ (0x0d :: 0x0a :: utf8 text) = _
      rw [splitLinesFrom, List.reverse_reverse]
    | cr =>
      show splitLinesFrom _ (0x0d :: utf8 text) = _
      rw [splitLinesFrom, if_pos (.inr rfl), List.reverse_reverse]
      intro raw _ hraw
      refine absurd (head_utf8 hraw) ?_
      rw [← htext]
      cases lines with
      | nil =>
        cases last with
        | none => simp
        | some other =>
          have hne := Line.text_ne_nil fun he => hlast (congrArg some he)
          have hhead := head_append [] hne (hplain other (by simp)).1
          simpa using hhead
      | cons next lines =>
        obtain ⟨other, otherEnd⟩ := next
        have hne := (List.isChain_cons_cons.mp hapart).1
        rw [List.flatMap_cons, List.append_assoc, List.append_assoc]
        by_cases hblank : other = .blank
        · subst hblank
          cases otherEnd with
          | lf => exact absurd ⟨rfl, rfl⟩ hne
          | crlf => simp [LineEnd.text]
          | cr => simp [LineEnd.text]
        · exact head_append _ (Line.text_ne_nil hblank) (hplain other (by simp)).1

/-! ## The payloads of the events -/

theorem stripText_space (text : List Char) : stripText (' ' :: text) = stripText text := by
  rw [stripText, stripText, List.dropWhile_cons_of_pos (by decide)]

/-- What a `data` line carries. -/
theorem data_line (space : Bool) (text : List Char) :
    IsData (utf8 (Line.data space text).text) ∧ dataOf (utf8 (Line.data space text).text) = utf8 (stripText text) := by
  have hsplit : utf8 (Line.data space text).text = dataField ++ utf8 ((if space then [' '] else []) ++ text) := by
    rw [Line.text_data, List.append_assoc, utf8_append]
    rfl
  refine ⟨⟨_, hsplit.symm⟩, ?_⟩
  rw [dataOf, hsplit, List.drop_left, stripBytes_utf8]
  cases space with
  | false => rfl
  | true => exact congrArg utf8 (stripText_space text)

/-- A line that starts with another character than space and `d` carries nothing, and is not blank. -/
theorem other_line {c : Char} (text : List Char) (hlt : c.toNat < 0x80) (hs : isStripped c = false) (hd : c ≠ 'd') :
    ¬ IsData (utf8 (c :: text)) ∧ stripBytes (utf8 (c :: text)) ≠ [] := by
  rw [utf8_cons, encode_ascii hlt, List.singleton_append]
  refine ⟨fun hdata => ?_, fun hstrip => ?_⟩
  · obtain ⟨rest, hrest⟩ := hdata
    have hbyte := congrArg UInt8.toNat (List.cons.inj hrest).1
    rw [UInt8.toNat_ofNat', Nat.mod_eq_of_lt (by omega)] at hbyte
    have hc : c.toNat = 'd'.toNat := hbyte.symm
    exact hd (Char.toNat_inj.mp hc)
  · have hspace := stripBytes_eq_nil.mp hstrip _ (List.mem_cons_self ..)
    rw [isByteSpace_ofNat hlt, hs] at hspace
    cases hspace

theorem not_data_line {line : Line} (h : line.data? = none) :
    ¬ IsData (utf8 line.text) ∧ (stripBytes (utf8 line.text) = [] ↔ line = .blank) := by
  have hother : ∀ {line : Line}, line ≠ .blank → ∀ c text, line.text = c :: text → c.toNat < 0x80 → isStripped c = false →
      c ≠ 'd' → ¬ IsData (utf8 line.text) ∧ (stripBytes (utf8 line.text) = [] ↔ line = .blank) := by
    intro line hne c text ht hlt hs hd
    rw [ht]
    obtain ⟨hdata, hstrip⟩ := other_line text hlt hs hd
    exact ⟨hdata, ⟨fun he => absurd he hstrip, fun he => absurd he hne⟩⟩
  cases line with
  | blank => exact ⟨by decide, ⟨fun _ => rfl, fun _ => rfl⟩⟩
  | data space text => cases h
  | comment text => exact hother (by simp) ':' text rfl (by decide) (by decide) (by decide)
  | field kind text =>
    cases kind with
    | event => exact hother (by simp) 'e' _ rfl (by decide) (by decide) (by decide)
    | id => exact hother (by simp) 'i' _ rfl (by decide) (by decide) (by decide)
    | retry => exact hother (by simp) 'r' _ rfl (by decide) (by decide) (by decide)

/-- The bytes of lines. -/
def bytesOfLines (lines : List Line) : List Body := lines.map fun l => utf8 l.text

theorem blocks_body {body : List Line} (hb : .blank ∉ body) (lines : List Line) :
    blocks (bytesOfLines (body ++ lines)) =
      (blocks (bytesOfLines lines)).modifyHead (((body.filterMap Line.data?).map fun t => utf8 (stripText t)) ++ ·) := by
  induction body with
  | nil =>
    obtain ⟨block, rest, he⟩ := List.exists_cons_of_ne_nil (blocks_ne_nil (bytesOfLines lines))
    rw [List.nil_append, he]
    rfl
  | cons line body ih =>
    rw [List.mem_cons, not_or] at hb
    have hcons : bytesOfLines (line :: body ++ lines) = utf8 line.text :: bytesOfLines (body ++ lines) := rfl
    rw [hcons, blocks_cons, ih hb.2]
    cases hd : line.data? with
    | none =>
      obtain ⟨hdata, hblank⟩ := not_data_line hd
      rw [if_neg hdata, if_neg fun he => hb.1 (hblank.mp he).symm, List.filterMap_cons_none hd]
    | some text =>
      cases line with
      | data space text' =>
        obtain rfl := Option.some.inj hd
        rw [if_pos (data_line space text').1, (data_line space text').2, List.filterMap_cons_some hd,
          List.modifyHead_modifyHead]
        rfl
      | blank => cases hd
      | comment => cases hd
      | field => cases hd

/-- The payloads are those of the events. -/
theorem payloads_frames {events : List (List (List Char))} {lines : List Line} (h : Frames events lines) :
    (blocks (bytesOfLines lines)).filterMap payload? =
      events.map fun texts => joinData (texts.map fun t => utf8 (stripText t)) := by
  induction h with
  | nil => rfl
  | @between events line lines hl h ih =>
    have hcons : bytesOfLines (line :: lines) = utf8 line.text :: bytesOfLines lines := rfl
    obtain ⟨hdata, hblank⟩ := not_data_line hl
    rw [hcons, blocks_cons, if_neg hdata]
    by_cases he : line = .blank
    · rw [if_pos (hblank.mpr he), List.filterMap_cons_none rfl, ih]
    · rw [if_neg fun hs => he (hblank.mp hs), ih]
  | @event body events lines hbody hne hend h ih =>
    -- the block goes on where the body ends, with no data
    obtain ⟨more, hmore⟩ : ∃ more, blocks (bytesOfLines lines) = [] :: more := by
      rcases hend with rfl | hhead
      · exact ⟨[], rfl⟩
      · obtain ⟨rest, rfl⟩ : ∃ rest, lines = .blank :: rest := by
          cases lines with
          | nil => cases hhead
          | cons line rest => exact ⟨rest, by rw [Option.some.inj hhead]⟩
        have hnone : (Line.blank).data? = none := rfl
        obtain ⟨hdata, hblank⟩ := not_data_line hnone
        refine ⟨blocks (bytesOfLines rest), ?_⟩
        have hcons : bytesOfLines (.blank :: rest) = utf8 (Line.blank).text :: bytesOfLines rest := rfl
        rw [hcons, blocks_cons, if_neg hdata, if_pos (hblank.mpr rfl)]
    rw [hmore, List.filterMap_cons_none rfl] at ih
    have hdata : payload? ((body.filterMap Line.data?).map fun t => utf8 (stripText t)) =
        some (joinData ((body.filterMap Line.data?).map fun t => utf8 (stripText t))) := by
      rw [payload?, if_neg (by simpa using hne)]
    rw [blocks_body hbody, hmore, List.modifyHead_cons, List.append_nil, List.filterMap_cons_some hdata, ih, List.map_cons]

theorem joinData_utf8 (texts : List (List Char)) :
    joinData (texts.map utf8) = utf8 (['\n'].intercalate texts) := by
  induction texts with
  | nil => rfl
  | cons text texts ih =>
    by_cases hlast : texts = []
    · rw [hlast, List.map_singleton, joinData, List.intercalate_singleton, List.intercalate_singleton]
    · rw [List.map_cons, joinData, List.intercalate_cons_of_ne_nil (by simpa using hlast),
        List.intercalate_cons_of_ne_nil hlast, utf8_append, utf8_append, ← ih]
      rfl

/-! ## Reading a payload -/

theorem detectEncoding_utf8 {raw : Body} (hfirst : ∀ b ∈ raw.head?, b.toNat < 0x80) (h : ∀ b ∈ raw, b ≠ 0) :
    detectEncoding raw = "utf-8" := by
  have hmark : ∀ (a : UInt8) (rest : Body), ¬ a.toNat < 0x80 ∨ a = 0 → ¬ a :: rest <+: raw := by
    rintro a rest ha ⟨tail, rfl⟩
    rcases ha with ha | ha
    · exact ha (hfirst a rfl)
    · exact h a (List.mem_cons_self ..) ha
  unfold detectEncoding
  rw [if_neg (not_or.mpr ⟨hmark _ _ (.inr rfl), hmark _ _ (.inl (by decide))⟩),
    if_neg (not_or.mpr ⟨hmark _ _ (.inl (by decide)), hmark _ _ (.inl (by decide))⟩), if_neg (hmark _ _ (.inl (by decide)))]
  split
  · next a b c d rest =>
    rw [if_neg (h a (by simp)), if_neg (h b (by simp))]
  · next a b =>
    rw [if_neg (h a (by simp)), if_neg (h b (by simp))]
  · rfl

/-- Clean text that starts with an ASCII character is decoded. -/
theorem World.decode_utf8 (w : World F) {text : List Char} (hfirst : ∀ c ∈ text.head?, c.toNat < 0x80)
    (hc : ∀ c ∈ text, Clean c) : w.decoding.decode (utf8 text) = .ok text := by
  have hhead : ∀ b ∈ (utf8 text).head?, b.toNat < 0x80 := by
    intro b hb
    cases text with
    | nil => cases hb
    | cons c text =>
      have hlt := hfirst c rfl
      rw [utf8_cons, encode_ascii hlt] at hb
      rw [← Option.some.inj hb, UInt8.toNat_ofNat', Nat.mod_eq_of_lt (by omega)]
      exact hlt
  have hzero : ∀ b ∈ utf8 text, b ≠ 0 := by
    rintro b hb rfl
    obtain ⟨c, hmem, hn⟩ := mem_utf8 hb (by decide)
    have hnul : c.toNat = (Char.ofNat 0).toNat := hn
    have := hc c hmem
    rw [Char.toNat_inj.mp hnul] at this
    exact absurd this (by decide)
  show (if _ then _ else _) = _
  rw [if_pos (detectEncoding_utf8 hhead hzero), decodeUtf8_utf8]
  rfl

/-! ## Serializations -/

theorem isJsonSpace_of_isStripped {c : Char} (h : isStripped c = true) (hc : Clean c) : isJsonSpace c = true := by
  rcases hc with hc | hc
  · have hn : c.toNat = ' '.toNat := by
      have hspace : ' '.toNat = 0x20 := rfl
      simp only [isStripped, Bool.or_eq_true, beq_iff_eq, Bool.and_eq_true, decide_eq_true_eq] at h
      omega
    rw [Char.toNat_inj.mp hn]
    rfl
  · exact hc

theorem stripText_split (line : List Char) :
    ∃ before behind, line = before ++ (stripText line ++ behind) ∧ ∀ c ∈ before ++ behind, isStripped c = true := by
  refine ⟨line.takeWhile isStripped, ((line.dropWhile isStripped).reverse.takeWhile isStripped).reverse, ?_, ?_⟩
  · rw [stripText, ← List.reverse_append, List.takeWhile_append_dropWhile, List.reverse_reverse,
      List.takeWhile_append_dropWhile]
  · intro c hc
    rcases List.mem_append.mp hc with hc | hc
    · exact List.mem_takeWhile_imp hc
    · exact List.mem_takeWhile_imp (List.mem_reverse.mp hc)

theorem respaced_append (text : List Char) {rest rest' : List Char} (h : Respaced rest rest') :
    Respaced (text ++ rest) (text ++ rest') := by
  induction text with
  | nil => exact h
  | cons c text ih => exact .cons c ih

theorem Broken.ne_nil {lines : List (List Char)} {text : List Char} (h : Broken lines text) : lines ≠ [] := by
  cases h with
  | last line => exact List.cons_ne_nil _ _
  | more line hb h => exact List.cons_ne_nil _ _

/-- Stripped lines differ from the text that they were cut from in the space at the breaks. -/
theorem respaced_broken {lines : List (List Char)} {text : List Char} (h : Broken lines text) (hc : ∀ c ∈ text, Clean c) :
    ∃ space rest, text = space ++ rest ∧ Spaces space ∧ Respaced rest (['\n'].intercalate (lines.map stripText)) := by
  induction h with
  | last line =>
    obtain ⟨before, behind, hsplit, hstripped⟩ := stripText_split line
    have hclean : ∀ c ∈ before ++ behind, Clean c := fun c hm => hc c (by
      rw [hsplit]
      simp only [List.mem_append] at hm ⊢
      tauto)
    refine ⟨before, stripText line ++ behind, hsplit, fun c hm => ?_, ?_⟩
    · have hm := List.mem_append_left behind hm
      exact isJsonSpace_of_isStripped (hstripped c hm) (hclean c hm)
    · have hspace : Respaced behind [] := .stop fun c hm => by
        have hm := List.mem_append_right before hm
        exact isJsonSpace_of_isStripped (hstripped c hm) (hclean c hm)
      have happend := respaced_append (stripText line) hspace
      rw [List.append_nil] at happend
      rwa [List.map_singleton, List.intercalate_singleton]
  | @more line lines text lineBreak hb h ih =>
    obtain ⟨before, behind, hsplit, hstripped⟩ := stripText_split line
    obtain ⟨space, rest, rfl, hspace, hrest⟩ := ih fun c hm => hc c (by
      simp only [List.mem_append]
      exact .inr hm)
    have hclean : ∀ c ∈ before ++ behind, Clean c := fun c hm => hc c (by
      rw [hsplit]
      simp only [List.mem_append] at hm ⊢
      tauto)
    have hbreak : Spaces lineBreak ∧ ∃ c ∈ lineBreak, c.toNat < 0x20 := by
      simp only [List.mem_cons, List.not_mem_nil, or_false] at hb
      rcases hb with rfl | rfl | rfl
      · exact ⟨by simp [Spaces, isJsonSpace], '\n', by simp, by decide⟩
      · exact ⟨by simp [Spaces, isJsonSpace], '\n', by simp, by decide⟩
      · exact ⟨by simp [Spaces, isJsonSpace], '\r', by simp, by decide⟩
    refine ⟨before, stripText line ++ ((behind ++ lineBreak ++ space) ++ rest), ?_, fun c hm => ?_, ?_⟩
    · conv_lhs => rw [hsplit]
      simp only [List.append_assoc]
    · have hm := List.mem_append_left behind hm
      exact isJsonSpace_of_isStripped (hstripped c hm) (hclean c hm)
    · have hjoin : ['\n'].intercalate ((line :: lines).map stripText) =
          stripText line ++ '\n' :: ['\n'].intercalate (lines.map stripText) := by
        rw [List.map_cons, List.intercalate_cons_of_ne_nil (by simpa using h.ne_nil), List.append_assoc,
          List.singleton_append]
      rw [hjoin]
      refine respaced_append _ (.space (fun c hm => ?_) ?_ hrest)
      · rcases List.mem_append.mp hm with hm | hm
        · rcases List.mem_append.mp hm with hm | hm
          · have hm := List.mem_append_right before hm
            exact isJsonSpace_of_isStripped (hstripped c hm) (hclean c hm)
          · exact hbreak.1 c hm
        · exact hspace c hm
      · obtain ⟨c, hm, hlt⟩ := hbreak.2
        exact ⟨c, by simp [hm], hlt⟩

/-- The payload of an event with a serialization of an object is read as the object. -/
theorem load_serialized (w : World F) (settings : McpServerSettings) {object : Value F} {lines : List (List Char)}
    (h : Serializes w.toInterpreter object lines) :
    w.decoding.load settings (joinData (lines.map fun t => utf8 (stripText t))) = .ok object := by
  obtain ⟨⟨items, rfl⟩, text, hbroken, hloads⟩ := h
  obtain ⟨space, rest, rfl, hspace, hrest⟩ := respaced_broken hbroken (Interpreter.clean_of_loads hloads)
  have hpayload : w.toInterpreter.loads (['\n'].intercalate (lines.map stripText)) = .ok (.dict items) :=
    Interpreter.loads_respaced hspace hloads hrest
  have hfirst : ∀ c ∈ (['\n'].intercalate (lines.map stripText)).head?, c.toNat < 0x80 := by
    intro c hc
    rcases Interpreter.head_of_loads_dict hpayload c hc with hs | rfl
    · simp only [isJsonSpace, Bool.or_eq_true, beq_iff_eq] at hs
      rcases hs with ((rfl | rfl) | rfl) | rfl <;> decide
    · decide
  have hdecode := w.decode_utf8 hfirst (Interpreter.clean_of_loads hpayload)
  have hbytes : joinData (lines.map fun t => utf8 (stripText t)) = utf8 (['\n'].intercalate (lines.map stripText)) := by
    rw [← joinData_utf8, List.map_map]
    rfl
  have hread : w.decoding.loadsBytes (utf8 (['\n'].intercalate (lines.map stripText))) = .ok (.dict items) :=
    bind_eq_ok.mpr ⟨_, hdecode, hpayload⟩
  rw [hbytes]
  exact load_ok hread ⟨items, rfl⟩

/-- **However objects are serialized and framed**, what the client reads of the stream are the objects in order. -/
theorem load_eventData (w : World F) (settings : McpServerSettings) (objects : List (Value F))
    (serials : List (List (List Char))) (stream : Stream)
    (hserial : List.Forall₂ (Serializes w.toInterpreter) objects serials) (hstream : stream.WellFormed)
    (hframes : Frames serials stream.allLines) :
    (eventData (utf8 stream.text)).mapM (w.decoding.load settings) = .ok objects := by
  rw [eventData_eq, payloads, splitLines_text hstream]
  show ((blocks (bytesOfLines stream.allLines)).filterMap payload?).mapM (w.decoding.load settings) = _
  rw [payloads_frames hframes, mapM_eq_ok]
  clear hframes
  induction hserial with
  | nil => exact .nil
  | cons hobject _ ih => exact .cons (load_serialized w settings hobject) ih

/-- A response over two lines with a comment between them, and a ping whose blank line is missing. -/
def mixedStream : Stream where
  lines := [(.comment " hello".toList, .lf), (.data true "\x7b\"id\": 1,".toList, .cr), (.comment [], .cr),
    (.data false "  \"result\": \x7b\x7d\x7d".toList, .crlf), (.blank, .crlf), (.blank, .lf),
    (.field .event " message".toList, .lf)]
  last := some (.data true "\x7b\"id\": 1, \"method\": \"ping\"\x7d".toList)

theorem load_mixedStream :
    (eventData (utf8 mixedStream.text)).mapM ((sends "").decoding.load freshClient.settings) = .ok [response, ping] := by
  refine load_eventData (sends "") freshClient.settings [response, ping]
    [["\x7b\"id\": 1,".toList, "  \"result\": \x7b\x7d\x7d".toList], ["\x7b\"id\": 1, \"method\": \"ping\"\x7d".toList]]
    mixedStream ?_ ⟨by decide +kernel, by decide, by decide +kernel⟩ ?_
  · refine .cons ⟨⟨_, rfl⟩, _, .more _ (List.mem_cons_self ..) (.last _), ?_⟩ (.cons ⟨⟨_, rfl⟩, _, .last _, ?_⟩ .nil)
    · decide +kernel
    · decide +kernel
  · have hping := Frames.event [.field .event " message".toList, .data true "\x7b\"id\": 1, \"method\": \"ping\"\x7d".toList]
      (by decide +kernel) (by decide +kernel) (.inl rfl) .nil
    have hrest : Frames _ (.blank :: .blank :: _) := .between rfl (.between rfl hping)
    have hboth := Frames.event [.data true "\x7b\"id\": 1,".toList, .comment [], .data false "  \"result\": \x7b\x7d\x7d".toList]
      (by decide +kernel) (by decide +kernel) (.inr rfl) hrest
    exact .between rfl hboth

end Xyberos.Mcp
