import Mathlib.Tactic.SplitIfs
import ScopeGrant.Json.Token
import ScopeGrant.Json.Writer
import ScopeGrant.Proofs.Text.Digit

/-!
# Text literals

What a literal between quotes says. A character may stand for itself unless it is a quote, a
backslash or a control; eight characters have a short escape; and every character may be given by
its code units, one or a surrogate pair, in hexadecimal digits. Reading a literal gives the text
that it says, nothing but a literal is read as a text, and what is written for a text is a literal
that says it.
-/

namespace ScopeGrant.Json

open Text (IsHexDigit hexDigits isHexDigit_digitChar exists_isHexDigit_of_hexValue?)

/-! ## What a literal says -/

/-- A code unit of 16 bits in four hexadecimal digits. -/
inductive CodeUnit : Nat → List Char → Prop
  | digits {i j k l : Fin 16} {a b c d : Char} (ha : IsHexDigit i a) (hb : IsHexDigit j b)
      (hc : IsHexDigit k c) (hd : IsHexDigit l d) :
      CodeUnit (((i * 16 + j) * 16 + k) * 16 + l) [a, b, c, d]

/-- The characters that have a short escape, each with the letter of its escape. -/
def shortEscapes : List (Char × Char) :=
  [('"', '"'), ('\\', '\\'), ('/', '/'), ('\x08', 'b'), ('\x0c', 'f'), ('\n', 'n'), ('\r', 'r'),
    ('\t', 't')]

/-- The ways in which a character may be written in a literal. -/
inductive Spelling : Char → List Char → Prop
  /-- It stands for itself. -/
  | plain {c : Char} (hcontrol : ' ' ≤ c) (hquote : c ≠ '"') (hescape : c ≠ '\\') : Spelling c [c]
  /-- A backslash and a letter. -/
  | short {c letter : Char} (h : (c, letter) ∈ shortEscapes) : Spelling c ['\\', letter]
  /-- Its only code unit. -/
  | unit {c : Char} {digits : List Char} (hbasic : c.toNat < 0x10000)
      (h : CodeUnit c.toNat digits) : Spelling c ('\\' :: 'u' :: digits)
  /-- Its two code units. -/
  | pair {c : Char} {high low : List Char} (hbeyond : 0x10000 ≤ c.toNat)
      (hhigh : CodeUnit (0xD800 + (c.toNat - 0x10000) / 0x400) high)
      (hlow : CodeUnit (0xDC00 + (c.toNat - 0x10000) % 0x400) low) :
      Spelling c ('\\' :: 'u' :: high ++ '\\' :: 'u' :: low)

/-- The characters of a text, and the inside of a literal that says it. -/
inductive Spellings : List Char → List Char → Prop
  | nil : Spellings [] []
  | cons {c : Char} {cs inside rest : List Char} (h : Spelling c inside)
      (hrest : Spellings cs rest) : Spellings (c :: cs) (inside ++ rest)

/-- The literal says the text. -/
def IsLiteralOf (literal text : String) : Prop :=
  ∃ inside, Spellings text.toList inside ∧ literal.toList = '"' :: inside ++ ['"']

/-! ## Reading a literal -/

theorem CodeUnit.exists_hex4?_eq {n : Nat} {digits : List Char} (h : CodeUnit n digits) :
    ∃ a b c d, digits = [a, b, c, d] ∧ hex4? a b c d = some n := by
  cases h with
  | digits ha hb hc hd =>
    refine ⟨_, _, _, _, rfl, ?_⟩
    simp [hex4?, ha.hexValue?_eq, hb.hexValue?_eq, hc.hexValue?_eq, hd.hexValue?_eq]

theorem isHighSurrogate_iff {n : Nat} : isHighSurrogate n = true ↔ 0xD800 ≤ n ∧ n ≤ 0xDBFF := by
  simp [isHighSurrogate]

theorem isLowSurrogate_iff {n : Nat} : isLowSurrogate n = true ↔ 0xDC00 ≤ n ∧ n ≤ 0xDFFF := by
  simp [isLowSurrogate]

theorem toNat_lt_or (c : Char) : c.toNat < 0xD800 ∨ 0xDFFF < c.toNat ∧ c.toNat < 0x110000 :=
  c.valid

theorem pairedChar_eq {c : Char} (h : 0x10000 ≤ c.toNat) :
    pairedChar (0xD800 + (c.toNat - 0x10000) / 0x400)
      (0xDC00 + (c.toNat - 0x10000) % 0x400) = c := by
  have hvalue : (0xD800 + (c.toNat - 0x10000) / 0x400 - 0xD800) * 0x400 +
      (0xDC00 + (c.toNat - 0x10000) % 0x400 - 0xDC00) + 0x10000 = c.toNat := by
    omega
  rw [pairedChar, hvalue, Char.ofNat_toNat]

section

variable {spoiled : Bool} {found rest : List Char}

theorem lexText_plain {c : Char} (hcontrol : ' ' ≤ c) (hquote : c ≠ '"') (hescape : c ≠ '\\') :
    lexText spoiled found (c :: rest) = lexText spoiled (c :: found) rest := by
  have hnot : ¬ c < ' ' := by simpa using hcontrol
  -- every case before the last one begins with a quote or a backslash
  rw [lexText, if_neg hnot] <;> simp_all

theorem lexText_short {c letter : Char} (h : (c, letter) ∈ shortEscapes) :
    lexText spoiled found ('\\' :: letter :: rest) = lexText spoiled (c :: found) rest := by
  simp only [shortEscapes, List.mem_cons, Prod.mk.injEq, List.not_mem_nil, or_false] at h
  rcases h with h | h | h | h | h | h | h | h <;> obtain ⟨rfl, rfl⟩ := h <;>
    simp [lexText, escapedChar?]

theorem lexText_unit {n : Nat} {digits : List Char} (h : CodeUnit n digits)
    (hhigh : ¬ isHighSurrogate n = true) (hlow : ¬ isLowSurrogate n = true) :
    lexText spoiled found ('\\' :: 'u' :: digits ++ rest) =
      lexText spoiled (Char.ofNat n :: found) rest := by
  obtain ⟨a, b, c, d, rfl, hvalue⟩ := h.exists_hex4?_eq
  simp [lexText, hvalue, hhigh, hlow]

theorem lowAtFront?_of_codeUnit {n : Nat} {digits : List Char} (h : CodeUnit n digits)
    (hlow : isLowSurrogate n = true) :
    lowAtFront? ('\\' :: 'u' :: digits ++ rest) = some (n, rest) := by
  obtain ⟨a, b, c, d, rfl, hvalue⟩ := h.exists_hex4?_eq
  simp [lowAtFront?, hvalue, hlow]

theorem lexText_of_lowAtFront? {a b c d : Char} {n m : Nat} {rest' : List Char}
    (hvalue : hex4? a b c d = some n) (hn : isHighSurrogate n = true)
    (hfront : lowAtFront? rest = some (m, rest')) :
    lexText spoiled found ('\\' :: 'u' :: a :: b :: c :: d :: rest) =
      lexText spoiled (pairedChar n m :: found) rest' := by
  have hnot : ¬ isLowSurrogate n = true := by
    rw [isHighSurrogate_iff] at hn
    rw [isLowSurrogate_iff]
    omega
  rw [lexText]
  simp only [hvalue]
  rw [if_neg hnot, if_pos hn]
  split
  next h =>
    rw [hfront] at h
    cases h
    rfl
  next h =>
    rw [hfront] at h
    cases h

theorem lexText_pair {n m : Nat} {high low : List Char} (hhigh : CodeUnit n high)
    (hlow : CodeUnit m low) (hn : isHighSurrogate n = true) (hm : isLowSurrogate m = true) :
    lexText spoiled found ('\\' :: 'u' :: high ++ '\\' :: 'u' :: low ++ rest) =
      lexText spoiled (pairedChar n m :: found) rest := by
  have hfront : lowAtFront? ('\\' :: 'u' :: low ++ rest) = some (m, rest) :=
    lowAtFront?_of_codeUnit hlow hm
  obtain ⟨a, b, c, d, rfl, hvalue⟩ := hhigh.exists_hex4?_eq
  rw [List.append_assoc]
  exact lexText_of_lowAtFront? hvalue hn hfront

/-- However a character is written, it is the next one that is read. -/
theorem Spelling.lexText_eq {c : Char} {inside : List Char} (h : Spelling c inside) :
    lexText spoiled found (inside ++ rest) = lexText spoiled (c :: found) rest := by
  have hvalid := toNat_lt_or c
  cases h with
  | plain hcontrol hquote hescape => exact lexText_plain hcontrol hquote hescape
  | short h => exact lexText_short h
  | unit hbasic h =>
    have hhigh : ¬ isHighSurrogate c.toNat = true := by
      rw [isHighSurrogate_iff]
      omega
    have hlow : ¬ isLowSurrogate c.toNat = true := by
      rw [isLowSurrogate_iff]
      omega
    rw [lexText_unit h hhigh hlow, Char.ofNat_toNat]
  | pair hbeyond hhigh hlow =>
    have hn : isHighSurrogate (0xD800 + (c.toNat - 0x10000) / 0x400) = true :=
      isHighSurrogate_iff.2 (by omega)
    have hm : isLowSurrogate (0xDC00 + (c.toNat - 0x10000) % 0x400) = true :=
      isLowSurrogate_iff.2 (by omega)
    rw [lexText_pair hhigh hlow hn hm, pairedChar_eq hbeyond]

theorem Spellings.lexText_eq {cs inside : List Char} (h : Spellings cs inside) :
    lexText spoiled found (inside ++ '"' :: rest) =
      (spoiled, .ok (found.reverse ++ cs, rest)) := by
  induction h generalizing found with
  | nil => simp [lexText]
  | cons h _ ih =>
    rw [List.append_assoc, h.lexText_eq, ih, List.reverse_cons, List.append_assoc,
      List.singleton_append]

end

/-- A literal is one token, which holds the text that the literal says. -/
theorem textToken_of_spellings {text : String} {inside rest : List Char}
    (h : Spellings text.toList inside) :
    textToken (inside ++ '"' :: rest) = (.text (.ok text) (.ok ()), rest) := by
  simp [textToken, h.lexText_eq]

/-! ## What is read as a text -/

theorem codeUnit_of_hex4? {a b c d : Char} {n : Nat} (h : hex4? a b c d = some n) :
    CodeUnit n [a, b, c, d] := by
  simp only [hex4?, Option.bind_eq_bind, Option.bind_eq_some_iff, Option.pure_def,
    Option.some.injEq] at h
  obtain ⟨_, ha, _, hb, _, hc, _, hd, rfl⟩ := h
  obtain ⟨i, rfl, hi⟩ := exists_isHexDigit_of_hexValue? ha
  obtain ⟨j, rfl, hj⟩ := exists_isHexDigit_of_hexValue? hb
  obtain ⟨k, rfl, hk⟩ := exists_isHexDigit_of_hexValue? hc
  obtain ⟨l, rfl, hl⟩ := exists_isHexDigit_of_hexValue? hd
  exact .digits hi hj hk hl

theorem CodeUnit.lt {n : Nat} {digits : List Char} (h : CodeUnit n digits) : n < 0x10000 := by
  cases h
  omega

theorem mem_shortEscapes_of_escapedChar? {letter c : Char} (h : escapedChar? letter = some c) :
    (c, letter) ∈ shortEscapes := by
  unfold escapedChar? at h
  split_ifs at h
  iterate 8
    next heq =>
      obtain rfl := eq_of_beq heq
      cases h
      decide

/-- A text that was spoiled stays so. -/
theorem lexText_of_spoiled {spoiled : Bool} (h : spoiled = true) (found text : List Char) :
    (lexText spoiled found text).1 = true := by
  fun_induction lexText spoiled found text <;> simp_all

theorem lexText_of_short {spoiled : Bool} {found rest : List Char} (h : rest.length < 4) :
    lexText spoiled found ('\\' :: 'u' :: rest) = (spoiled, .error (shortEscape rest)) := by
  rw [lexText]
  rintro a b c d rest' rfl
  simp only [List.length_cons] at h
  omega

theorem exists_error_of_endsInEscape {spoiled : Bool} {found text : List Char}
    (h : endsInEscape text = true) : ∃ fault, (lexText spoiled found text).2 = .error fault := by
  unfold endsInEscape at h
  split at h
  · exact ⟨.truncated, by rw [lexText]⟩
  · exact ⟨.truncated, by rw [lexText]⟩
  · next rest => exact ⟨shortEscape rest, by rw [lexText_of_short (of_decide_eq_true h)]⟩
  · cases h

theorem exists_of_lowAtFront? {text rest : List Char} {m : Nat}
    (h : lowAtFront? text = some (m, rest)) :
    ∃ digits, text = '\\' :: 'u' :: digits ++ rest ∧ CodeUnit m digits ∧
      isLowSurrogate m = true := by
  unfold lowAtFront? at h
  split at h
  · next a b c d rest' =>
    split at h
    · next n hn =>
      split at h
      · next hlow =>
        cases h
        exact ⟨[a, b, c, d], rfl, codeUnit_of_hex4? hn, hlow⟩
      · cases h
    · cases h
  · cases h

theorem toNat_ofNat {n : Nat} (h : n.isValidChar) : (Char.ofNat n).toNat = n := by
  rw [Char.ofNat, dif_pos h]
  rfl

theorem spelling_of_codeUnit {n : Nat} {digits : List Char} (h : CodeUnit n digits)
    (hhigh : ¬ isHighSurrogate n = true) (hlow : ¬ isLowSurrogate n = true) :
    Spelling (Char.ofNat n) ('\\' :: 'u' :: digits) := by
  rw [isHighSurrogate_iff] at hhigh
  rw [isLowSurrogate_iff] at hlow
  have hlt : n < 0x10000 := h.lt
  have hvalid : n < 0xD800 ∨ 0xDFFF < n ∧ n < 0x110000 := by omega
  have hvalue : (Char.ofNat n).toNat = n := toNat_ofNat hvalid
  exact .unit (by rwa [hvalue]) (by rwa [hvalue])

theorem spelling_of_codeUnits {n m : Nat} {high low : List Char} (hhigh : CodeUnit n high)
    (hlow : CodeUnit m low) (hn : isHighSurrogate n = true) (hm : isLowSurrogate m = true) :
    Spelling (pairedChar n m) ('\\' :: 'u' :: high ++ '\\' :: 'u' :: low) := by
  rw [isHighSurrogate_iff] at hn
  rw [isLowSurrogate_iff] at hm
  have hvalue : (pairedChar n m).toNat = (n - 0xD800) * 0x400 + (m - 0xDC00) + 0x10000 :=
    toNat_ofNat (Or.inr (by omega))
  have hfirst : 0xD800 + ((pairedChar n m).toNat - 0x10000) / 0x400 = n := by omega
  have hsecond : 0xDC00 + ((pairedChar n m).toNat - 0x10000) % 0x400 = m := by omega
  exact .pair (by omega) (by rwa [hfirst]) (by rwa [hsecond])

/-- The text begins with a spelling of the characters behind those in `found`, and with a quote
behind it. -/
def Spelled (found chars text rest : List Char) : Prop :=
  ∃ cs inside, chars = found.reverse ++ cs ∧ text = inside ++ '"' :: rest ∧ Spellings cs inside

theorem Spelled.cons {c : Char} {found chars inside text rest : List Char} (hc : Spelling c inside)
    (h : Spelled (c :: found) chars text rest) : Spelled found chars (inside ++ text) rest := by
  obtain ⟨cs, inside', rfl, rfl, hrest⟩ := h
  exact ⟨c :: cs, inside ++ inside', by simp, by simp, .cons hc hrest⟩

/-- A text that can be kept is read from nothing but a spelling of it. -/
theorem spelled_of_lexText {spoiled : Bool} {found text chars rest : List Char}
    (h : lexText spoiled found text = (false, .ok (chars, rest))) :
    Spelled found chars text rest := by
  fun_induction lexText spoiled found text with
  | case2 spoiled found rest' =>
    cases h
    exact ⟨[], [], by simp, rfl, .nil⟩
  | case4 spoiled found a b c d text n hn hlow ih =>
    -- a second half that stands alone spoils the text
    have hspoiled := lexText_of_spoiled rfl found text
    rw [h] at hspoiled
    cases hspoiled
  | case5 spoiled found a b c d text n hn hlow hhigh m text' hfront ih =>
    obtain ⟨digits, rfl, hdigits, hm⟩ := exists_of_lowAtFront? hfront
    have hc := spelling_of_codeUnits (codeUnit_of_hex4? hn) hdigits hhigh hm
    simpa using (ih h).cons hc
  | case6 spoiled found a b c d text n hn hlow hhigh hfront ih =>
    cases hend : endsInEscape text with
    | true =>
      -- the text has no end, for it breaks off where the second half might have stood
      obtain ⟨fault, herror⟩ := exists_error_of_endsInEscape hend
      rw [h] at herror
      cases herror
    | false =>
      -- a first half that stands alone spoils it too
      have hspoiled : (lexText (spoiled || !endsInEscape text) found text).1 = true :=
        lexText_of_spoiled (by simp [hend]) found text
      rw [h] at hspoiled
      cases hspoiled
  | case7 spoiled found a b c d text n hn hlow hhigh ih =>
    have hc := spelling_of_codeUnit (codeUnit_of_hex4? hn) hhigh hlow
    simpa using (ih h).cons hc
  | case10 spoiled found letter text _ _ c hletter ih =>
    exact (ih h).cons (.short (mem_shortEscapes_of_escapedChar? hletter))
  | case13 spoiled found c text hquote _ _ hend hescape hcontrol ih =>
    have hne : c ≠ '\\' := by
      rintro rfl
      cases text with
      | nil => exact hend rfl rfl
      | cons d text => exact hescape d text rfl rfl
    exact (ih h).cons (.plain (Char.not_lt.1 hcontrol) hquote hne)
  | _ => simp at h

/-- A text is read behind a quote exactly from the spellings of it that end with a quote. -/
theorem textToken_eq_iff {s : String} {skipped : Except Fault Unit} {text rest : List Char} :
    textToken text = (.text (.ok s) skipped, rest) ↔
      skipped = .ok () ∧ ∃ inside, Spellings s.toList inside ∧ text = inside ++ '"' :: rest := by
  constructor
  · intro h
    unfold textToken at h
    split at h
    · simp at h
    · next spoiled chars rest' hlex =>
      cases spoiled with
      | true => simp at h
      | false =>
        obtain ⟨cs, inside, rfl, rfl, hcs⟩ := spelled_of_lexText hlex
        obtain ⟨⟨rfl, rfl⟩, rfl⟩ := by simpa using h
        exact ⟨rfl, inside, by simpa using hcs, rfl⟩
  · rintro ⟨rfl, inside, hinside, rfl⟩
    exact textToken_of_spellings hinside

/-! ## Writing a literal -/

theorem spellings_map {write : Char → String} (h : ∀ c, Spelling c (write c).toList)
    (cs : List Char) : Spellings cs (String.join (cs.map write)).toList := by
  induction cs with
  | nil => exact .nil
  | cons c cs ih =>
    rw [List.map_cons, String.join_cons, String.toList_append]
    exact .cons (h c) ih

theorem codeUnit_of_lt {n : Nat} (h : n < 0x100) :
    CodeUnit n ['0', '0', Nat.digitChar (n / 0x10), Nat.digitChar (n % 0x10)] := by
  have hzero : Nat.digitChar 0 = '0' := rfl
  have hunit := CodeUnit.digits (isHexDigit_digitChar 0) (isHexDigit_digitChar 0)
    (isHexDigit_digitChar ⟨n / 0x10, by omega⟩) (isHexDigit_digitChar ⟨n % 0x10, by omega⟩)
  simpa [Nat.div_add_mod', hzero] using hunit

/-- Every character is written in one of the ways in which it may stand in a literal. -/
theorem spelling_escapeChar (c : Char) : Spelling c (escapeChar c).toList := by
  unfold escapeChar
  split_ifs
  iterate 7
    next h =>
      obtain rfl := eq_of_beq h
      exact .short (by decide)
  next hlt =>
    have hlt : c.toNat < 0x10 := hlt
    have hunit := codeUnit_of_lt (n := c.toNat) (by omega)
    rw [Nat.div_eq_of_lt hlt, Nat.mod_eq_of_lt hlt, Nat.digitChar_eq_zero.2 rfl] at hunit
    simpa [hexDigits, Nat.toDigits_of_lt_base hlt] using Spelling.unit (by omega) hunit
  next hle hlt =>
    have hle : 0x10 ≤ c.toNat := Nat.le_of_not_lt hle
    have hlt : c.toNat < 0x20 := hlt
    have hunit := codeUnit_of_lt (n := c.toNat) (by omega)
    have hhigh : c.toNat / 0x10 < 0x10 := by omega
    have hdigits : Nat.toDigits 16 c.toNat =
        [Nat.digitChar (c.toNat / 0x10), Nat.digitChar (c.toNat % 0x10)] := by
      rw [Nat.toDigits_of_base_le (by decide) hle, Nat.toDigits_of_lt_base hhigh,
        List.singleton_append]
    simpa [hexDigits, hdigits] using Spelling.unit (by omega) hunit
  next hquote hescape _ _ _ _ _ _ hcontrol =>
    rw [beq_iff_eq] at hquote hescape
    have hcontrol : ' ' ≤ c := Char.not_lt.1 hcontrol
    simpa using Spelling.plain hcontrol hquote hescape

theorem isLiteralOf_writeText (text : String) : IsLiteralOf (writeText text) text := by
  refine ⟨_, spellings_map spelling_escapeChar text.toList, ?_⟩
  simp [writeText]

end ScopeGrant.Json
