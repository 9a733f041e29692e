import ScopeGrant.Json.Token
import ScopeGrant.Text.Taken

/-!
# Decoding JSON texts

A decoder takes one value from the front of a row of tokens. It asks for a value of a certain shape
and stops at the first token that does not fit, so of two faults the one further left is reported.
Objects may also be written as arrays that hold their fields in order; fields that are not known are
skipped, and those that are known may stand only once.
-/

namespace ScopeGrant.Json

open Text (Taken)

/-- A way of taking a value from the front of a row of tokens. -/
abbrev Decoder (α : Type) := (ts : List Token) → Except Fault (Taken ts α)

namespace Decoder

/-- Apply a function to the value that is taken. -/
def map {α β : Type} (f : α → β) (d : Decoder α) : Decoder β := fun ts => do
  let taken ← d ts
  return ⟨f taken.value, taken.rest, taken.shorter⟩

/-- Make something else of the value that is taken, which may fail. -/
def refine {α β : Type} (d : Decoder α) (f : α → Except Fault β) : Decoder β := fun ts => do
  let taken ← d ts
  return ⟨← f taken.value, taken.rest, taken.shorter⟩

end Decoder

/-! ## Single tokens -/

/-- What is wrong where a value of another shape is expected. A number, a word or a text is read to
its end before its kind is found wrong. -/
def unexpected (expected : String) : List Token → Fault
  | [] => .truncated
  | .literal (.ok .null) :: _ => .mismatch (.kind .null expected)
  | .literal (.ok (.boolean b)) :: _ => .mismatch (.kind (.boolean b) expected)
  | .literal (.error fault) :: _ => fault
  | .number (.ok (.integer n)) _ :: _ => .mismatch (.kind (.integer n) expected)
  | .number (.ok .fraction) _ :: _ => .mismatch (.kind .fraction expected)
  | .number (.error fault) _ :: _ => fault
  | .text (.ok s) _ :: _ => .mismatch (.kind (.text s) expected)
  | .text (.error fault) _ :: _ => fault
  | .beginArray :: _ => .mismatch (.kind .sequence expected)
  | .beginObject :: _ => .mismatch (.kind .map expected)
  | _ => .malformed

/-- Take a text. -/
def text : Decoder String
  | .text (.ok s) _ :: _ => .ok (.first s)
  | ts => .error (unexpected "a string" ts)

/-- Take a truth value. -/
def boolean : Decoder Bool
  | .literal (.ok (.boolean b)) :: _ => .ok (.first b)
  | ts => .error (unexpected "a boolean" ts)

/-- Take an unsigned integer of 64 bits. -/
def unsigned : Decoder UInt64
  | .number (.ok (.integer n)) _ :: _ =>
    if n < 0 then .error (.mismatch (.range n "u64")) else .ok (.first (UInt64.ofNat n.toNat))
  | ts => .error (unexpected "u64" ts)

/-- Take a value, or `null`. -/
def orNull {α : Type} (d : Decoder α) : Decoder (Option α)
  | .literal (.ok .null) :: _ => .ok (.first none)
  | ts => d.map some ts

/-! ## Arrays -/

/-- The tokens of the next element of an array, or `none` if the array ends. The `first` element
has no comma before it. -/
def nextElement (first : Bool) : List Token → Except Fault (Option (List Token))
  | [] => .error .truncated
  | .endArray :: _ => .ok none
  | t :: rest =>
    if first then .ok (some (t :: rest))
    else
      match t, rest with
      | .comma, [] => .error .truncated
      | .comma, .endArray :: _ => .error .malformed
      | .comma, next => .ok (some next)
      | _, _ => .error .malformed

theorem length_of_nextElement {first : Bool} {ts us : List Token}
    (h : nextElement first ts = .ok (some us)) : us.length ≤ ts.length := by
  unfold nextElement at h
  split at h <;> try simp at h
  split at h
  · simp_all
  · split at h <;> simp_all

/-- The tokens behind the closing bracket of an array. -/
def closeArray : List Token → Except Fault (List Token)
  | [] => .error .truncated
  | .endArray :: rest => .ok rest
  | _ => .error .malformed

theorem length_of_closeArray {ts rest : List Token} (h : closeArray ts = .ok rest) :
    rest.length < ts.length := by
  unfold closeArray at h
  split at h <;> simp_all

/-- Take the remaining elements of an array; `found` holds the ones before them, newest first. The
answer is all elements and the tokens from the closing bracket on. -/
def elements {α : Type} (d : Decoder α) (first : Bool) (found : List α) (ts : List Token) :
    Except Fault (List α × List Token) :=
  match _h : nextElement first ts with
  | .error fault => .error fault
  | .ok none => .ok (found.reverse, ts)
  | .ok (some us) =>
    match d us with
    | .error fault => .error fault
    | .ok taken => elements d false (taken.value :: found) taken.rest
termination_by ts.length
decreasing_by exact Nat.lt_of_lt_of_le taken.shorter (length_of_nextElement _h)

theorem length_of_elements {α : Type} {d : Decoder α} {first : Bool} {found : List α}
    {ts rest : List Token} {values : List α} (h : elements d first found ts = .ok (values, rest)) :
    rest.length ≤ ts.length := by
  fun_induction elements d first found ts with
  | case1 => simp at h
  | case2 => simp_all
  | case3 => simp at h
  | case4 first found ts us hus taken htaken ih =>
    exact Nat.le_of_lt
      (Nat.lt_of_le_of_lt (ih h) (Nat.lt_of_lt_of_le taken.shorter (length_of_nextElement hus)))

/-- Take an array of values. -/
def array {α : Type} (d : Decoder α) : Decoder (List α)
  | .beginArray :: inner =>
    match _h : elements d true [] inner with
    | .error fault => .error fault
    | .ok (values, end_) =>
      match _h' : closeArray end_ with
      | .error fault => .error fault
      | .ok rest =>
        .ok ⟨values, rest, Nat.lt_succ_of_le (Nat.le_of_lt
          (Nat.lt_of_lt_of_le (length_of_closeArray _h') (length_of_elements _h)))⟩
  | ts => .error (unexpected "a sequence" ts)

/-! ## Values that are skipped -/

/-- What encloses a place in a value that is skipped. -/
inductive Enclosing where
  /-- An array. -/
  | array
  /-- An object. -/
  | object
deriving Repr, DecidableEq

/-- What stands next in a value that is skipped. -/
inductive Place where
  /-- A value. -/
  | value
  /-- The first element or key, or the end, of what was just opened. -/
  | opened
  /-- The name of a field. -/
  | key
  /-- The colon behind the name of a field. -/
  | colon
  /-- A comma, or the end of what encloses the place. -/
  | after
deriving Repr, DecidableEq

/-- What stands behind a value that is complete: nothing if nothing encloses it. -/
def afterValue : List Enclosing → Option (Place × List Enclosing)
  | [] => none
  | enclosing => some (.after, enclosing)

/-- Skip a token where a value stands. -/
def skipAtValue (enclosing : List Enclosing) :
    Token → Except Fault (Option (Place × List Enclosing))
  | .literal kept => kept.map fun _ => afterValue enclosing
  | .number _ skipped => skipped.map fun _ => afterValue enclosing
  | .text _ skipped => skipped.map fun _ => afterValue enclosing
  | .beginArray => .ok (some (.opened, .array :: enclosing))
  | .beginObject => .ok (some (.opened, .object :: enclosing))
  | _ => .error .malformed

/-- Skip a token where the name of a field stands. -/
def skipAtKey (enclosing : List Enclosing) : Token → Except Fault (Option (Place × List Enclosing))
  | .text _ skipped => skipped.map fun _ => some (.colon, enclosing)
  | _ => .error .malformed

/-- Skip one token. -/
def skipToken : Place → List Enclosing → Token → Except Fault (Option (Place × List Enclosing))
  | .value, enclosing, t => skipAtValue enclosing t
  | .key, enclosing, t => skipAtKey enclosing t
  | .colon, enclosing, .colon => .ok (some (.value, enclosing))
  | .opened, .array :: outer, .endArray => .ok (afterValue outer)
  | .opened, .object :: outer, .endObject => .ok (afterValue outer)
  | .opened, .array :: outer, t => skipAtValue (.array :: outer) t
  | .opened, .object :: outer, t => skipAtKey (.object :: outer) t
  | .after, .array :: outer, .comma => .ok (some (.value, .array :: outer))
  | .after, .object :: outer, .comma => .ok (some (.key, .object :: outer))
  | .after, .array :: outer, .endArray => .ok (afterValue outer)
  | .after, .object :: outer, .endObject => .ok (afterValue outer)
  | _, _, _ => .error .malformed

/-- The tokens behind a value that is skipped. -/
def skipLoop (place : Place) (enclosing : List Enclosing) : List Token → Except Fault (List Token)
  | [] => .error .truncated
  | t :: rest =>
    match skipToken place enclosing t with
    | .error fault => .error fault
    | .ok none => .ok rest
    | .ok (some (next, enclosing)) => skipLoop next enclosing rest

theorem length_of_skipLoop {place : Place} {enclosing : List Enclosing} {ts rest : List Token}
    (h : skipLoop place enclosing ts = .ok rest) : rest.length < ts.length := by
  fun_induction skipLoop place enclosing ts with
  | case1 => simp at h
  | case2 => simp at h
  | case3 => simp_all
  | case4 place enclosing t ts next outer _ ih => exact Nat.lt_succ_of_lt (ih h)

/-- Take a value of any shape and forget it. -/
def skip : Decoder Unit := fun ts =>
  match _h : skipLoop .value [] ts with
  | .error fault => .error fault
  | .ok rest => .ok ⟨(), rest, length_of_skipLoop _h⟩

/-! ## Objects -/

/-- The name of the next field of an object and the tokens behind it, or `none` if the object ends.
The `first` field has no comma before it. -/
def nextKey (first : Bool) : List Token → Except Fault (Option (String × List Token))
  | [] => .error .truncated
  | .endObject :: _ => .ok none
  | t :: rest =>
    if first then key? (t :: rest)
    else
      match t, rest with
      | .comma, [] => .error .truncated
      | .comma, next => key? next
      | _, _ => .error .malformed
where
  /-- The name of a field at the front of a row of tokens. -/
  key? : List Token → Except Fault (Option (String × List Token))
    | .text (.ok name) _ :: rest => .ok (some (name, rest))
    | .text (.error fault) _ :: _ => .error fault
    | _ => .error .malformed

theorem length_of_key {ts rest : List Token} {name : String}
    (h : nextKey.key? ts = .ok (some (name, rest))) : rest.length < ts.length := by
  unfold nextKey.key? at h
  split at h <;> simp_all

theorem length_of_nextKey {first : Bool} {ts rest : List Token} {name : String}
    (h : nextKey first ts = .ok (some (name, rest))) : rest.length < ts.length := by
  unfold nextKey at h
  split at h <;> try simp at h
  split at h
  · exact length_of_key h
  · split at h
    · simp at h
    · exact Nat.lt_succ_of_lt (length_of_key h)
    · simp at h

/-- The tokens behind a colon. -/
def afterColon : List Token → Except Fault (List Token)
  | [] => .error .truncated
  | .colon :: rest => .ok rest
  | _ => .error .malformed

theorem length_of_afterColon {ts rest : List Token} (h : afterColon ts = .ok rest) :
    rest.length < ts.length := by
  unfold afterColon at h
  split at h <;> simp_all

/-- The tokens behind the closing brace of an object. -/
def closeObject : List Token → Except Fault (List Token)
  | [] => .error .truncated
  | .endObject :: rest => .ok rest
  | _ => .error .malformed

theorem length_of_closeObject {ts rest : List Token} (h : closeObject ts = .ok rest) :
    rest.length < ts.length := by
  unfold closeObject at h
  split at h <;> simp_all

/-- A field of an object that is put together in a draft `σ`. -/
structure ObjectField (σ : Type) where
  /-- Its name. -/
  name : String
  /-- Whether the object must have it. -/
  required : Bool
  /-- Whether a draft has it. -/
  isSet : σ → Bool
  /-- Take its value and put it into a draft. -/
  decode : σ → Decoder σ

/-- The shape of an object. -/
structure Shape (σ : Type) where
  /-- What an object of this shape is called. -/
  expected : String
  /-- What it is called where an array stands for it. -/
  expectedArray : String
  /-- Its fields, in the order in which an array holds them. -/
  fields : List (ObjectField σ)
  /-- The draft without fields. -/
  blank : σ

namespace Shape

variable {σ : Type}

/-- The decoder for the value of a field, unless the draft already has the field. -/
def decoderFor (shape : Shape σ) (name : String) (draft : σ) : Except Fault (Decoder σ) :=
  match shape.fields.find? (·.name == name) with
  | none => .ok (skip.map fun _ => draft)
  | some field =>
    if field.isSet draft then .error (.mismatch (.repeated name)) else .ok (field.decode draft)

/-- Take the remaining fields of an object. The answer is the draft and the tokens from the closing
brace on. -/
def members (shape : Shape σ) (first : Bool) (draft : σ) (ts : List Token) :
    Except Fault (σ × List Token) :=
  match _h : nextKey first ts with
  | .error fault => .error fault
  | .ok none => .ok (draft, ts)
  | .ok (some (name, us)) =>
    match shape.decoderFor name draft with
    | .error fault => .error fault
    | .ok d =>
      match _h' : afterColon us with
      | .error fault => .error fault
      | .ok vs =>
        match d vs with
        | .error fault => .error fault
        | .ok taken => shape.members false taken.value taken.rest
termination_by ts.length
decreasing_by
  have := taken.shorter
  have := length_of_afterColon _h'
  have := length_of_nextKey _h
  omega

theorem length_of_members {shape : Shape σ} {first : Bool} {draft draft' : σ}
    {ts rest : List Token} (h : shape.members first draft ts = .ok (draft', rest)) :
    rest.length ≤ ts.length := by
  fun_induction members shape first draft ts with
  | case1 => simp at h
  | case2 => simp_all
  | case3 => simp at h
  | case4 => simp at h
  | case5 => simp at h
  | case6 first draft ts name us hk d _ vs hc taken _ ih =>
    have := ih h
    have := taken.shorter
    have := length_of_afterColon hc
    have := length_of_nextKey hk
    omega

/-- Check that a draft has every field that it must have. -/
def complete (shape : Shape σ) (draft : σ) : Except Fault σ :=
  match shape.fields.find? fun field => field.required && !field.isSet draft with
  | some field => .error (.mismatch (.missing field.name))
  | none => .ok draft

/-- Take the elements of an array as the values of `fields`, which begin at place `index` of the
object. A field that need not be there is left out if the array ends before it. -/
def positional (shape : Shape σ) (index : Nat) (draft : σ) :
    List (ObjectField σ) → (ts : List Token) →
      Except Fault { out : σ × List Token // out.2.length ≤ ts.length }
  | [], ts => .ok ⟨(draft, ts), Nat.le_refl _⟩
  | field :: fields, ts =>
    match _h : nextElement (index == 0) ts with
    | .error fault => .error fault
    | .ok none =>
      if field.required then .error (.mismatch (.short index shape.expectedArray))
      else shape.positional (index + 1) draft fields ts
    | .ok (some us) => do
      let taken ← field.decode draft us
      let ⟨out, hout⟩ ← shape.positional (index + 1) taken.value fields taken.rest
      return ⟨out, Nat.le_trans hout
        (Nat.le_of_lt (Nat.lt_of_lt_of_le taken.shorter (length_of_nextElement _h)))⟩

/-- Take an object of the shape, or an array that stands for one. -/
def decode (shape : Shape σ) : Decoder σ
  | .beginObject :: inner =>
    match _h : shape.members true shape.blank inner with
    | .error fault => .error fault
    | .ok (draft, end_) => do
      let draft ← shape.complete draft
      match _h' : closeObject end_ with
      | .error fault => .error fault
      | .ok rest =>
        .ok ⟨draft, rest, Nat.lt_succ_of_le (Nat.le_of_lt
          (Nat.lt_of_lt_of_le (length_of_closeObject _h') (length_of_members _h)))⟩
  | .beginArray :: inner => do
    let ⟨(draft, end_), hend⟩ ← shape.positional 0 shape.blank shape.fields inner
    match _h' : closeArray end_ with
    | .error fault => .error fault
    | .ok rest =>
      .ok ⟨draft, rest, Nat.lt_succ_of_le (Nat.le_of_lt
        (Nat.lt_of_lt_of_le (length_of_closeArray _h') hend))⟩
  | ts => .error (unexpected shape.expected ts)

end Shape

/-! ## Whole texts -/

/-- The value of a text that holds one value and nothing else. -/
def decodeText {α : Type} (d : Decoder α) (input : String) : Except Fault α := do
  let taken ← d (tokens input)
  if taken.rest.isEmpty then .ok taken.value else .error .malformed

end ScopeGrant.Json
