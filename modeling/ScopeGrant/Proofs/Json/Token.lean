import Mathlib.Data.List.Forall2
import Mathlib.Data.List.TakeWhile
import ScopeGrant.Numeric.Word
import ScopeGrant.Proofs.Json.Literal

/-!
# What written values are as tokens

A text spells a row of tokens if reading it adds just these tokens, whatever was read before and
whatever follows. The one thing that may not follow is what a number would go on with; inside an
array or an object each value is followed by a mark, so that values can be put together. The other
way round, what is read as a text alone is a literal with nothing but blank characters around it
(`tokens_eq_text_iff`).
-/

namespace ScopeGrant.Json

open Text (digitsValue digitsValue_toDigits isDigit_of_mem_toDigits length_toDigits_of_head?)

/-- No number goes on with the text. -/
def EndsNumber (rest : List Char) : Prop :=
  ∀ c ∈ rest.head?, c.isDigit = false ∧ c ≠ '.' ∧ c ≠ 'e' ∧ c ≠ 'E'

/-- The text is read as the tokens. -/
def Spells (text : List Char) (ts : List Token) : Prop :=
  ∀ found rest, EndsNumber rest →
    tokensLoop found (text ++ rest) = tokensLoop (ts.reverse ++ found) rest

theorem endsNumber_nil : EndsNumber [] := by
  simp [EndsNumber]

theorem endsNumber_cons {c : Char} {rest : List Char}
    (h : c.isDigit = false ∧ c ≠ '.' ∧ c ≠ 'e' ∧ c ≠ 'E') : EndsNumber (c :: rest) := by
  simpa [EndsNumber] using h

theorem Spells.tokens_eq {text : String} {ts : List Token} (h : Spells text.toList ts) :
    tokens text = ts := by
  have hrun := h [] [] endsNumber_nil
  rw [List.append_nil, List.append_nil, tokensLoop, List.reverse_reverse] at hrun
  exact hrun

/-! ## Single tokens -/

theorem spells_of_lexToken {c : Char} {text : List Char} {t : Token} (hblank : isBlank c = false)
    (h : ∀ rest, EndsNumber rest → lexToken c (text ++ rest) = (t, rest)) :
    Spells (c :: text) [t] := by
  intro found rest hrest
  rw [List.cons_append, tokensLoop, hblank, h rest hrest]
  rfl

theorem spells_null : Spells "null".toList [.literal (.ok .null)] :=
  spells_of_lexToken rfl fun _ _ => rfl

theorem spells_writeBool (b : Bool) :
    Spells (writeBool b).toList [.literal (.ok (.boolean b))] := by
  cases b with
  | false => exact spells_of_lexToken rfl fun _ _ => rfl
  | true => exact spells_of_lexToken rfl fun _ _ => rfl

theorem spells_literal {literal text : String} (h : IsLiteralOf literal text) :
    Spells literal.toList [.text (.ok text) (.ok ())] := by
  obtain ⟨inside, hinside, hliteral⟩ := h
  rw [hliteral]
  refine spells_of_lexToken rfl fun rest _ => ?_
  show textToken ((inside ++ ['"']) ++ rest) = _
  rw [List.append_assoc]
  exact textToken_of_spellings hinside

/-! ## Numbers -/

theorem ne_of_isDigit {c d : Char} (hc : c.isDigit = true) (hd : d.isDigit = false) : c ≠ d := by
  rintro rfl
  exact Bool.false_ne_true (hd.symm.trans hc)

theorem isBlank_of_isDigit {c : Char} (h : c.isDigit = true) : isBlank c = false := by
  have hne : ∀ d : Char, d.isDigit = false → (c == d) = false :=
    fun d hd => beq_false_of_ne (ne_of_isDigit h hd)
  simp [isBlank, hne]

theorem lexToken_of_isDigit {c : Char} (h : c.isDigit = true) (rest : List Char) :
    lexToken c rest = lexNumber false (c :: rest) := by
  have hne : ∀ d : Char, d.isDigit = false → (c == d) = false :=
    fun d hd => beq_false_of_ne (ne_of_isDigit h hd)
  simp [lexToken, hne, h]

theorem EndsNumber.takeWhile_eq_nil {rest : List Char} (h : EndsNumber rest) :
    rest.takeWhile Char.isDigit = [] := by
  cases rest with
  | nil => rfl
  | cons c rest => exact List.takeWhile_cons_of_neg (by simp [(h c rfl).1])

theorem EndsNumber.dropWhile_eq_self {rest : List Char} (h : EndsNumber rest) :
    rest.dropWhile Char.isDigit = rest := by
  cases rest with
  | nil => rfl
  | cons c rest => exact List.dropWhile_cons_of_neg (by simp [(h c rfl).1])

theorem EndsNumber.lexAfterWhole_eq {rest : List Char} (h : EndsNumber rest) (n : NumberText) :
    lexAfterWhole n rest = wholeNumber n rest := by
  cases rest with
  | nil => rfl
  | cons c rest =>
    obtain ⟨-, hpoint, hlower, hupper⟩ := h c rfl
    simp [lexAfterWhole, lexAfterDigits, hpoint, hlower, hupper]

theorem lexNumber_toDigits {n : Nat} (hn : n ≤ maxUnsigned) {rest : List Char}
    (hrest : EndsNumber rest) :
    lexNumber false (Nat.toDigits 10 n ++ rest) = (.number (.ok (.integer n)) (.ok ()), rest) := by
  have hdigits : ∀ c ∈ Nat.toDigits 10 n, c.isDigit = true := fun c => isDigit_of_mem_toDigits
  have htake : (Nat.toDigits 10 n ++ rest).takeWhile Char.isDigit = Nat.toDigits 10 n := by
    rw [List.takeWhile_append_of_pos hdigits, hrest.takeWhile_eq_nil, List.append_nil]
  have hdrop : (Nat.toDigits 10 n ++ rest).dropWhile Char.isDigit = rest := by
    rw [List.dropWhile_append_of_pos hdigits, hrest.dropWhile_eq_self]
  have hne : (Nat.toDigits 10 n).isEmpty = false := by simp
  have hzero : ¬ ((Nat.toDigits 10 n).head? = some '0' ∧ 1 < (Nat.toDigits 10 n).length) :=
    fun ⟨hhead, hlength⟩ => Nat.ne_of_gt hlength (length_toDigits_of_head? hhead)
  have hkept : NumberText.kept { negative := false, whole := Nat.toDigits 10 n } =
      .ok (.integer n) := by
    simp [NumberText.kept, hn]
  simp only [lexNumber, htake, hdrop, hne, hzero, hrest.lexAfterWhole_eq, wholeNumber, hkept,
    Bool.false_eq_true, if_false]

theorem spells_unsigned (n : UInt64) :
    Spells (toString n).toList [.number (.ok (.integer n.toNat)) (.ok ())] := by
  have hn : n.toNat ≤ maxUnsigned := Nat.le_of_lt_succ n.toNat_lt
  have htext : (toString n).toList = Nat.toDigits 10 n.toNat := Nat.toList_repr
  obtain ⟨c, digits, hdigits⟩ := List.exists_cons_of_ne_nil (Nat.toDigits_ne_nil (n := n.toNat))
  have hc : c.isDigit = true :=
    isDigit_of_mem_toDigits (hdigits ▸ List.mem_cons_self)
  rw [htext, hdigits]
  refine spells_of_lexToken (isBlank_of_isDigit hc) fun rest hrest => ?_
  rw [lexToken_of_isDigit hc, ← List.cons_append, ← hdigits]
  exact lexNumber_toDigits hn hrest

/-! ## Marks -/

/-- The character is a token by itself. -/
structure IsMark (c : Char) (t : Token) : Prop where
  /-- It is not blank. -/
  not_blank : isBlank c = false
  /-- No number goes on with it. -/
  ends : c.isDigit = false ∧ c ≠ '.' ∧ c ≠ 'e' ∧ c ≠ 'E'
  /-- It is read as the token. -/
  lex : ∀ rest, lexToken c rest = (t, rest)

theorem isMark_comma : IsMark ',' .comma :=
  ⟨rfl, by decide, fun _ => rfl⟩

theorem isMark_colon : IsMark ':' .colon :=
  ⟨rfl, by decide, fun _ => rfl⟩

theorem isMark_beginArray : IsMark '[' .beginArray :=
  ⟨rfl, by decide, fun _ => rfl⟩

theorem isMark_endArray : IsMark ']' .endArray :=
  ⟨rfl, by decide, fun _ => rfl⟩

theorem isMark_beginObject : IsMark '\x7b' .beginObject :=
  ⟨rfl, by decide, fun _ => rfl⟩

theorem isMark_endObject : IsMark '\x7d' .endObject :=
  ⟨rfl, by decide, fun _ => rfl⟩

theorem spells_nil : Spells [] [] :=
  fun _ _ _ => rfl

section

variable {c : Char} {t : Token} {text text' : List Char} {ts ts' : List Token}

theorem Spells.cons (hc : IsMark c t) (h : Spells text ts) : Spells (c :: text) (t :: ts) := by
  intro found rest hrest
  rw [List.cons_append, tokensLoop, hc.not_blank, hc.lex]
  simpa using h (t :: found) rest hrest

/-- What is separated by a mark is put together. -/
theorem Spells.append (h : Spells text ts) (hc : IsMark c t) (h' : Spells text' ts') :
    Spells (text ++ c :: text') (ts ++ t :: ts') := by
  intro found rest hrest
  have hmark : EndsNumber (c :: text' ++ rest) := endsNumber_cons hc.ends
  rw [List.append_assoc, h found _ hmark, h'.cons hc _ rest hrest]
  simp

end

/-! ## A text alone -/

/-- The text holds a literal that says `s`, and nothing but blank characters around it. -/
def HoldsLiteralOf (input s : String) : Prop :=
  ∃ before literal after : String, input = before ++ literal ++ after ∧ IsLiteralOf literal s ∧
    ∀ c ∈ before.toList ++ after.toList, isBlank c = true

/-- Whether a token is a text. -/
def Token.isText : Token → Bool
  | .text _ _ => true
  | _ => false

theorem isText_ite {p : Prop} [Decidable p] {x y : Token × List Char}
    (hx : p → x.1.isText = false) (hy : ¬ p → y.1.isText = false) :
    (if p then x else y).1.isText = false := by
  split
  · exact hx ‹_›
  · exact hy ‹_›

theorem isText_wordToken (literal : Literal) (word text : List Char) :
    (wordToken literal word text).1.isText = false := by
  unfold wordToken
  split <;> rfl

theorem isText_lexExponent (n : NumberText) (text : List Char) :
    (lexExponent n text).1.isText = false :=
  isText_ite (fun _ => rfl) fun _ => rfl

theorem isText_lexAfterDigits (n : NumberText) (text : List Char) :
    (lexAfterDigits n text).1.isText = false := by
  unfold lexAfterDigits
  split
  · exact isText_lexExponent _ _
  · exact isText_lexExponent _ _
  · rfl

theorem isText_lexAfterWhole (n : NumberText) (text : List Char) :
    (lexAfterWhole n text).1.isText = false := by
  unfold lexAfterWhole
  split
  · exact isText_ite (fun _ => rfl) fun _ => isText_lexAfterDigits _ _
  · exact isText_lexAfterDigits _ _

theorem isText_lexNumber (negative : Bool) (text : List Char) :
    (lexNumber negative text).1.isText = false :=
  isText_ite (fun _ => rfl) fun _ => isText_ite (fun _ => rfl) fun _ => isText_lexAfterWhole _ _

/-- A text is read behind a quote alone. -/
theorem isText_lexToken {c : Char} (hc : c ≠ '"') (text : List Char) :
    (lexToken c text).1.isText = false := by
  have hquote : ¬ (c == '"') = true := by simpa using hc
  unfold lexToken
  -- the six marks come first, then what a quote, a letter, a sign or a digit begins
  iterate 6 refine isText_ite (fun _ => rfl) fun _ => ?_
  refine isText_ite (fun h => absurd h hquote) fun _ => ?_
  iterate 3 refine isText_ite (fun _ => isText_wordToken _ _ _) fun _ => ?_
  iterate 2 refine isText_ite (fun _ => isText_lexNumber _ _) fun _ => ?_
  rfl

section

variable {text : List Char} {s : String} {c : Char} {skipped : Except Fault Unit}

theorem tokensLoop_cons_of_blank (hc : isBlank c = true) (found : List Token) :
    tokensLoop found (c :: text) = tokensLoop found text := by
  rw [tokensLoop, if_pos hc]

theorem tokensLoop_cons (hc : ¬ isBlank c = true) (found : List Token) :
    tokensLoop found (c :: text) =
      tokensLoop ((lexToken c text).1 :: found) (lexToken c text).2 := by
  rw [tokensLoop, if_neg hc]

/-- What was read before stays in front. -/
theorem tokensLoop_append (new found : List Token) (text : List Char) :
    tokensLoop (new ++ found) text = found.reverse ++ tokensLoop new text := by
  fun_induction tokensLoop new text with
  | case1 new => rw [tokensLoop, List.reverse_append]
  | case2 new c text hblank ih => rw [tokensLoop_cons_of_blank hblank, ih]
  | case3 new c text hblank ih => rw [tokensLoop_cons hblank, ← ih, List.cons_append]

theorem tokensLoop_singleton (t : Token) (text : List Char) :
    tokensLoop [t] text = t :: tokensLoop [] text :=
  tokensLoop_append [] [t] text

theorem tokensLoop_eq_nil_iff : tokensLoop [] text = [] ↔ ∀ c ∈ text, isBlank c = true := by
  induction text with
  | nil => simp [tokensLoop]
  | cons c text ih =>
    rw [List.forall_mem_cons]
    by_cases hblank : isBlank c = true
    · rw [tokensLoop_cons_of_blank hblank, ih, and_iff_right hblank]
    · rw [tokensLoop_cons hblank, tokensLoop_singleton]
      simp [hblank]

theorem tokensLoop_append_of_blank {gap : List Char} (h : ∀ c ∈ gap, isBlank c = true)
    (found : List Token) : tokensLoop found (gap ++ text) = tokensLoop found text := by
  induction gap with
  | nil => rfl
  | cons c gap ih =>
    rw [List.forall_mem_cons] at h
    rw [List.cons_append, tokensLoop_cons_of_blank h.1, ih h.2]

/-- A text alone is read from a literal alone, which blank characters may surround. -/
theorem exists_of_tokensLoop_eq_text (h : tokensLoop [] text = [.text (.ok s) skipped]) :
    ∃ before inside after, text = before ++ '"' :: (inside ++ '"' :: after) ∧
      Spellings s.toList inside ∧ (∀ c ∈ before, isBlank c = true) ∧
      ∀ c ∈ after, isBlank c = true := by
  induction text with
  | nil =>
    rw [tokensLoop] at h
    cases h
  | cons c text ih =>
    by_cases hblank : isBlank c = true
    · rw [tokensLoop_cons_of_blank hblank] at h
      obtain ⟨before, inside, after, rfl, hinside, hbefore, hafter⟩ := ih h
      exact ⟨c :: before, inside, after, rfl, hinside, List.forall_mem_cons.2 ⟨hblank, hbefore⟩,
        hafter⟩
    · rw [tokensLoop_cons hblank, tokensLoop_singleton, List.cons.injEq,
        tokensLoop_eq_nil_iff] at h
      obtain ⟨htoken, hafter⟩ := h
      have hquote : c = '"' := by
        by_contra hc
        have hno := isText_lexToken hc text
        rw [htoken] at hno
        cases hno
      subst hquote
      have hread : textToken text = (.text (.ok s) skipped, (textToken text).2) :=
        Prod.ext htoken rfl
      obtain ⟨-, inside, hinside, htext⟩ := textToken_eq_iff.1 hread
      exact ⟨[], inside, _, congrArg _ htext, hinside, List.forall_mem_nil _, hafter⟩

theorem tokensLoop_surrounded {before inside after : List Char}
    (hinside : Spellings s.toList inside) (hbefore : ∀ c ∈ before, isBlank c = true)
    (hafter : ∀ c ∈ after, isBlank c = true) :
    tokensLoop [] (before ++ '"' :: (inside ++ '"' :: after)) = [.text (.ok s) (.ok ())] := by
  have hread : textToken (inside ++ '"' :: after) = (.text (.ok s) (.ok ()), after) :=
    textToken_eq_iff.2 ⟨rfl, inside, hinside, rfl⟩
  have hquote : ¬ isBlank '"' = true := by decide
  rw [tokensLoop_append_of_blank hbefore, tokensLoop_cons hquote, tokensLoop_singleton]
  show (textToken _).1 :: tokensLoop [] (textToken _).2 = _
  rw [hread, tokensLoop_eq_nil_iff.2 hafter]

/-- The tokens of a text are a single text exactly if it is a literal that blank characters may
surround. -/
theorem tokens_eq_text_iff {input : String} :
    (∃ skipped, tokens input = [.text (.ok s) skipped]) ↔ HoldsLiteralOf input s := by
  constructor
  · rintro ⟨skipped, h⟩
    obtain ⟨before, inside, after, hinput, hinside, hbefore, hafter⟩ :=
      exists_of_tokensLoop_eq_text h
    refine ⟨String.ofList before, String.ofList ('"' :: inside ++ ['"']), String.ofList after,
      ?_, ⟨inside, hinside, by simp⟩, ?_⟩
    · rw [← String.toList_inj, hinput]
      simp
    · simpa only [String.toList_ofList] using List.forall_mem_append.2 ⟨hbefore, hafter⟩
  · rintro ⟨before, literal, after, rfl, ⟨inside, hinside, hliteral⟩, hblank⟩
    rw [List.forall_mem_append] at hblank
    refine ⟨.ok (), ?_⟩
    rw [tokens, String.toList_append, String.toList_append, hliteral]
    simpa using tokensLoop_surrounded hinside hblank.1 hblank.2

end

/-! ## Arrays and objects -/

/-- The texts spell the rows of tokens, one by one. -/
abbrev SpellsAll (items : List String) (rows : List (List Token)) : Prop :=
  List.Forall₂ (fun item ts => Spells item.toList ts) items rows

theorem SpellsAll.joined {items : List String} {rows : List (List Token)}
    (h : SpellsAll items rows) :
    Spells (String.intercalate "," items).toList ([.comma].intercalate rows) := by
  rw [String.toList_intercalate]
  induction h with
  | nil => exact spells_nil
  | @cons item ts items rows hitem hitems ih =>
    cases hitems with
    | nil => simpa using hitem
    | cons _ _ => simpa [List.intercalate_cons_cons] using hitem.append isMark_comma ih

theorem spells_writeArray {items : List String} {rows : List (List Token)}
    (h : SpellsAll items rows) :
    Spells (writeArray items).toList (.beginArray :: [.comma].intercalate rows ++ [.endArray]) := by
  simpa [writeArray] using
    Spells.cons isMark_beginArray (h.joined.append isMark_endArray spells_nil)

theorem spells_writeObject {fields : List (String × String)} {rows : List (List Token)}
    (h : SpellsAll (fields.map fun (name, value) => writeText name ++ ":" ++ value) rows) :
    Spells (writeObject fields).toList
      (.beginObject :: [.comma].intercalate rows ++ [.endObject]) := by
  simpa [writeObject] using
    Spells.cons isMark_beginObject (h.joined.append isMark_endObject spells_nil)

theorem spells_field {name value : String} {ts : List Token} (h : Spells value.toList ts) :
    Spells (writeText name ++ ":" ++ value).toList (.text (.ok name) (.ok ()) :: .colon :: ts) := by
  simpa using (spells_literal (isLiteralOf_writeText name)).append isMark_colon h

end ScopeGrant.Json
