import ScopeGrant.Json.Decoder
import ScopeGrant.Proofs.Except
import ScopeGrant.Proofs.Json.Token

/-!
# Decoding what was written

A decoder takes a value from a text if it takes it from the tokens that the text spells, whatever
tokens follow them. There is one lemma for each way of writing a value and one for each way of
putting decoders together, so that a round trip follows the shape of what is written. In an object
every field makes one draft of another, and `Fills` is the chain of these drafts.
-/

namespace ScopeGrant.Json

/-- The decoder takes the value from the tokens and leaves those that follow. -/
structure Yields {α : Type} (d : Decoder α) (ts : List Token) (value : α) : Prop where
  /-- The tokens do not end an array. -/
  head : ts.head? ≠ some .endArray
  /-- What is taken. -/
  take : ∀ rest, ∃ h, d (ts ++ rest) = .ok ⟨value, rest, h⟩

/-- The text is one value, from which the decoder takes `value`. -/
def Denotes {α : Type} (d : Decoder α) (text : String) (value : α) : Prop :=
  ∃ ts, Spells text.toList ts ∧ Yields d ts value

section

variable {α β : Type} {d : Decoder α} {ts : List Token} {value : α} {text : String}

theorem Yields.exists_cons (h : Yields d ts value) :
    ∃ t us, ts = t :: us ∧ t ≠ .endArray := by
  cases ts with
  | nil =>
    obtain ⟨hshorter, -⟩ := h.take []
    exact absurd hshorter (Nat.lt_irrefl _)
  | cons t us => exact ⟨t, us, rfl, fun ht => h.head (congrArg some ht)⟩

theorem Yields.map (h : Yields d ts value) (f : α → β) : Yields (d.map f) ts (f value) := by
  refine ⟨h.head, fun rest => ?_⟩
  obtain ⟨hshorter, htake⟩ := h.take rest
  exact ⟨hshorter, by rw [Decoder.map, htake]; rfl⟩

theorem Yields.refine (h : Yields d ts value) {f : α → Except Fault β} {b : β}
    (hf : f value = .ok b) : Yields (d.refine f) ts b := by
  refine ⟨h.head, fun rest => ?_⟩
  obtain ⟨hshorter, htake⟩ := h.take rest
  exact ⟨hshorter, by simp only [Decoder.refine, htake, ok_bind, hf]; rfl⟩

theorem Denotes.map (h : Denotes d text value) (f : α → β) :
    Denotes (d.map f) text (f value) := by
  obtain ⟨ts, hspells, hyields⟩ := h
  exact ⟨ts, hspells, hyields.map f⟩

theorem Denotes.refine (h : Denotes d text value) {f : α → Except Fault β} {b : β}
    (hf : f value = .ok b) : Denotes (d.refine f) text b := by
  obtain ⟨ts, hspells, hyields⟩ := h
  exact ⟨ts, hspells, hyields.refine hf⟩

/-! ## Whole texts -/

theorem Denotes.exists_take (h : Denotes d text value) :
    ∃ hshorter, d (tokens text) = .ok ⟨value, [], hshorter⟩ := by
  obtain ⟨ts, hspells, hyields⟩ := h
  have htake := hyields.take []
  rw [List.append_nil] at htake
  rwa [hspells.tokens_eq]

theorem Denotes.decodeText_eq (h : Denotes d text value) : decodeText d text = .ok value := by
  obtain ⟨hshorter, htake⟩ := h.exists_take
  rw [decodeText, htake]
  rfl

/-- What is made of the value decides whether the text is read. -/
theorem decodeText_refine_of_take
    (h : ∃ hshorter, d (tokens text) = .ok ⟨value, [], hshorter⟩) (f : α → Except Fault β) :
    decodeText (d.refine f) text = f value := by
  obtain ⟨hshorter, htake⟩ := h
  rw [decodeText, Decoder.refine, htake, ok_bind]
  cases f value <;> rfl

theorem Denotes.decodeText_refine (h : Denotes d text value) (f : α → Except Fault β) :
    decodeText (d.refine f) text = f value :=
  decodeText_refine_of_take h.exists_take f

end

/-! ## Single tokens -/

theorem yields_first {α : Type} {d : Decoder α} {t : Token} {value : α} (ht : t ≠ .endArray)
    (h : ∀ rest, d (t :: rest) = .ok (.first value)) : Yields d [t] value :=
  ⟨fun hhead => ht (Option.some.inj hhead), fun rest => ⟨Nat.lt_succ_self _, h rest⟩⟩

theorem denotes_text {literal s : String} (h : IsLiteralOf literal s) : Denotes text literal s :=
  ⟨_, spells_literal h, yields_first nofun fun _ => rfl⟩

theorem denotes_writeText (s : String) : Denotes text (writeText s) s :=
  denotes_text (isLiteralOf_writeText s)

theorem denotes_writeBool (b : Bool) : Denotes boolean (writeBool b) b :=
  ⟨_, spells_writeBool b, yields_first nofun fun _ => rfl⟩

theorem denotes_unsigned (n : UInt64) : Denotes unsigned (toString n) n := by
  refine ⟨_, spells_unsigned n, yields_first nofun fun rest => ?_⟩
  have hnot : ¬ (n.toNat : Int) < 0 := by omega
  have hvalue : UInt64.ofNat (n.toNat : Int).toNat = n := by simp
  rw [unsigned, if_neg hnot, hvalue]

theorem denotes_textOrNull (s : Option String) :
    Denotes (orNull text) (writeOption writeText s) s := by
  cases s with
  | none => exact ⟨_, spells_null, yields_first nofun fun _ => rfl⟩
  | some s => exact ⟨_, spells_literal (isLiteralOf_writeText s), yields_first nofun fun _ => rfl⟩

theorem exists_of_text_eq_ok {ts : List Token} {taken : Text.Taken ts String}
    (h : text ts = .ok taken) :
    ∃ skipped, ts = .text (.ok taken.value) skipped :: taken.rest := by
  unfold text at h
  split at h
  · cases h
    exact ⟨_, rfl⟩
  · cases h

/-- What is made of a text is read from the literals of just those texts of which it can be made. -/
theorem decodeText_text_refine_eq_ok_iff {β : Type} {f : String → Except Fault β} {input : String}
    {b : β} : decodeText (text.refine f) input = .ok b ↔
      ∃ s, HoldsLiteralOf input s ∧ f s = .ok b := by
  constructor
  · intro h
    obtain ⟨made, hmade, hrest⟩ := bind_eq_ok_iff.1 h
    obtain ⟨taken, htaken, hmade⟩ := bind_eq_ok_iff.1 hmade
    obtain ⟨value, hvalue, hmade⟩ := bind_eq_ok_iff.1 hmade
    cases hmade
    obtain ⟨skipped, htokens⟩ := exists_of_text_eq_ok htaken
    have hempty : taken.rest = [] := by
      by_contra hne
      rw [if_neg (by simpa using hne)] at hrest
      cases hrest
    rw [hempty] at htokens
    rw [if_pos (by simpa using hempty)] at hrest
    exact ⟨taken.value, tokens_eq_text_iff.1 ⟨skipped, htokens⟩, hvalue.trans hrest⟩
  · rintro ⟨s, hholds, hf⟩
    obtain ⟨skipped, htokens⟩ := tokens_eq_text_iff.2 hholds
    have htake : ∃ hshorter, text (tokens input) = .ok ⟨s, [], hshorter⟩ := by
      rw [htokens]
      exact ⟨Nat.zero_lt_one, rfl⟩
    rw [decodeText_refine_of_take htake, hf]

/-! ## Arrays -/

theorem intercalate_cons_eq_flatMap {α : Type} (x : α) (row : List α) (rows : List (List α)) :
    [x].intercalate (row :: rows) = row ++ rows.flatMap (x :: ·) := by
  induction rows generalizing row with
  | nil => simp
  | cons next rows ih => simp [List.intercalate_cons_cons, ih]

section

variable {α : Type} {d : Decoder α} {ts us rest : List Token} {value : α} {found values : List α}
  {rows : List (List Token)}

theorem Yields.nextElement_first (h : Yields d ts value) (rest : List Token) :
    nextElement true (ts ++ rest) = .ok (some (ts ++ rest)) := by
  obtain ⟨t, us, rfl, ht⟩ := h.exists_cons
  cases t with
  | endArray => exact absurd rfl ht
  | _ => rfl

theorem Yields.nextElement_behind (h : Yields d ts value) (rest : List Token) :
    nextElement false (.comma :: ts ++ rest) = .ok (some (ts ++ rest)) := by
  obtain ⟨t, us, rfl, ht⟩ := h.exists_cons
  cases t with
  | endArray => exact absurd rfl ht
  | _ => rfl

theorem Yields.elements_eq (h : Yields d ts value) {first : Bool}
    (hnext : nextElement first us = .ok (some (ts ++ rest))) :
    elements d first found us = elements d false (value :: found) rest := by
  obtain ⟨hshorter, htake⟩ := h.take rest
  rw [elements]
  split
  next hnext' => rw [hnext] at hnext'; cases hnext'
  next hnext' => rw [hnext] at hnext'; cases hnext'
  next us' hnext' =>
    rw [hnext] at hnext'
    cases hnext'
    rw [htake]

theorem elements_end (first : Bool) :
    elements d first found (.endArray :: rest) = .ok (found.reverse, .endArray :: rest) := by
  rw [elements]
  split <;> simp_all [nextElement]

theorem elements_behind (h : List.Forall₂ (Yields d) rows values) :
    elements d false found (rows.flatMap (.comma :: ·) ++ .endArray :: rest) =
      .ok (found.reverse ++ values, .endArray :: rest) := by
  induction h generalizing found with
  | nil => simpa using elements_end false
  | @cons ts value rows values hvalue _ ih =>
    rw [List.flatMap_cons, List.append_assoc, hvalue.elements_eq (hvalue.nextElement_behind _), ih]
    simp

theorem elements_joined (h : List.Forall₂ (Yields d) rows values) :
    elements d true [] ([.comma].intercalate rows ++ .endArray :: rest) =
      .ok (values, .endArray :: rest) := by
  cases h with
  | nil => exact elements_end true
  | cons hvalue hrows =>
    rw [intercalate_cons_eq_flatMap, List.append_assoc,
      hvalue.elements_eq (hvalue.nextElement_first _), elements_behind hrows]
    rfl

theorem array_eq_ok {end_ : List Token} (helements : elements d true [] ts = .ok (values, end_))
    (hclose : closeArray end_ = .ok rest) :
    ∃ h, array d (.beginArray :: ts) = .ok ⟨values, rest, h⟩ := by
  have hshorter : rest.length < ts.length :=
    Nat.lt_of_lt_of_le (length_of_closeArray hclose) (length_of_elements helements)
  refine ⟨Nat.lt_succ_of_lt hshorter, ?_⟩
  rw [array]
  split
  next h => rw [helements] at h; cases h
  next h =>
    rw [helements] at h
    cases h
    split
    next h => rw [hclose] at h; cases h
    next h =>
      rw [hclose] at h
      cases h
      rfl

theorem yields_array (h : List.Forall₂ (Yields d) rows values) :
    Yields (array d) (.beginArray :: [.comma].intercalate rows ++ [.endArray]) values := by
  refine ⟨nofun, fun rest => ?_⟩
  rw [List.append_assoc]
  exact array_eq_ok (elements_joined h) rfl

theorem exists_rows {items : List String} (h : List.Forall₂ (Denotes d) items values) :
    ∃ rows, SpellsAll items rows ∧ List.Forall₂ (Yields d) rows values := by
  induction h with
  | nil => exact ⟨[], .nil, .nil⟩
  | cons hitem _ ih =>
    obtain ⟨ts, hspells, hyields⟩ := hitem
    obtain ⟨rows, hitems, hvalues⟩ := ih
    exact ⟨ts :: rows, .cons hspells hitems, .cons hyields hvalues⟩

theorem denotes_writeArray {items : List String} (h : List.Forall₂ (Denotes d) items values) :
    Denotes (array d) (writeArray items) values := by
  obtain ⟨rows, hitems, hvalues⟩ := exists_rows h
  exact ⟨_, spells_writeArray hitems, yields_array hvalues⟩

theorem denotes_writeArray_map {β : Type} {xs : List β} {write : β → String} {f : β → α}
    (h : ∀ x ∈ xs, Denotes d (write x) (f x)) :
    Denotes (array d) (writeArray (xs.map write)) (xs.map f) := by
  refine denotes_writeArray ?_
  rw [List.forall₂_map_left_iff, List.forall₂_map_right_iff, List.forall₂_same]
  exact h

end

/-! ## Objects -/

section

variable {σ : Type} {shape : Shape σ} {draft next last : σ} {name : String} {d : Decoder σ}
  {fields : List (String × String)}

/-- The fields turn the first draft of the shape into the last one, each by the decoder that the
shape has for it. -/
inductive Fills (shape : Shape σ) : σ → List (String × String) → σ → Prop
  | nil {draft : σ} : Fills shape draft [] draft
  | cons {draft next last : σ} {name value : String} {fields : List (String × String)}
      {d : Decoder σ} (hd : shape.decoderFor name draft = .ok d) (hvalue : Denotes d value next)
      (hrest : Fills shape next fields last) : Fills shape draft ((name, value) :: fields) last

/-- A field whose value is put into the draft. -/
theorem Fills.put {α : Type} {value : String} {a : α} {d : Decoder α} {f : α → σ}
    (hd : shape.decoderFor name draft = .ok (d.map f)) (hvalue : Denotes d value a)
    (hrest : Fills shape (f a) fields last) : Fills shape draft ((name, value) :: fields) last :=
  .cons hd (hvalue.map f) hrest

theorem Yields.members_eq {ts us rest : List Token} {first : Bool} (h : Yields d ts next)
    (hd : shape.decoderFor name draft = .ok d)
    (hkey : nextKey first us = .ok (some (name, .colon :: (ts ++ rest)))) :
    shape.members first draft us = shape.members false next rest := by
  obtain ⟨hshorter, htake⟩ := h.take rest
  rw [Shape.members]
  split
  next h => rw [hkey] at h; cases h
  next h => rw [hkey] at h; cases h
  next h =>
    rw [hkey] at h
    cases h
    simp only [hd]
    split
    next h => cases h
    next h =>
      cases h
      rw [htake]

theorem members_end (first : Bool) {rest : List Token} :
    shape.members first draft (.endObject :: rest) = .ok (draft, .endObject :: rest) := by
  rw [Shape.members]
  split <;> simp_all [nextKey]

/-- The tokens of the fields, and what is taken from them behind other fields. -/
theorem Fills.exists_rows (h : Fills shape draft fields last) :
    ∃ rows, SpellsAll (fields.map fun (name, value) => writeText name ++ ":" ++ value) rows ∧
      (∀ rest, shape.members false draft (rows.flatMap (.comma :: ·) ++ .endObject :: rest) =
        .ok (last, .endObject :: rest)) ∧
      ∀ rest, shape.members true draft ([.comma].intercalate rows ++ .endObject :: rest) =
        .ok (last, .endObject :: rest) := by
  induction h with
  | nil => exact ⟨[], .nil, fun _ => members_end false, fun _ => members_end true⟩
  | @cons draft next last name value fields d hd hvalue _ ih =>
    obtain ⟨ts, hspells, hyields⟩ := hvalue
    obtain ⟨rows, hitems, hbehind, -⟩ := ih
    refine ⟨(.text (.ok name) (.ok ()) :: .colon :: ts) :: rows,
      .cons (spells_field hspells) hitems, fun rest => ?_, fun rest => ?_⟩
    · rw [List.flatMap_cons, List.append_assoc, ← hbehind rest]
      exact hyields.members_eq hd rfl
    · rw [intercalate_cons_eq_flatMap, List.append_assoc, ← hbehind rest]
      exact hyields.members_eq hd rfl

theorem decode_eq_ok {ts end_ rest : List Token}
    (hmembers : shape.members true shape.blank ts = .ok (draft, end_))
    (hcomplete : shape.complete draft = .ok next) (hclose : closeObject end_ = .ok rest) :
    ∃ h, shape.decode (.beginObject :: ts) = .ok ⟨next, rest, h⟩ := by
  have hshorter : rest.length < ts.length :=
    Nat.lt_of_lt_of_le (length_of_closeObject hclose) (Shape.length_of_members hmembers)
  refine ⟨Nat.lt_succ_of_lt hshorter, ?_⟩
  rw [Shape.decode]
  split
  next h => rw [hmembers] at h; cases h
  next h =>
    rw [hmembers] at h
    cases h
    rw [hcomplete, ok_bind]
    split
    next h => rw [hclose] at h; cases h
    next h =>
      rw [hclose] at h
      cases h
      rfl

theorem denotes_writeObject (h : Fills shape shape.blank fields draft)
    (hcomplete : shape.complete draft = .ok draft) :
    Denotes shape.decode (writeObject fields) draft := by
  obtain ⟨rows, hrows, -, hmembers⟩ := h.exists_rows
  refine ⟨_, spells_writeObject hrows, nofun, fun rest => ?_⟩
  rw [List.append_assoc]
  exact decode_eq_ok (hmembers rest) hcomplete rfl

end

end ScopeGrant.Json
