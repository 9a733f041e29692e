import Mathlib.Data.List.Basic

/-!
# Operations that can be refused

Some operations have no result for some operands: a text cannot be cut inside a character, a list
has no element behind its end, and a natural number has no difference to a greater one. Here such an
operation is checked, and it comes to `none` where it is refused. An algorithm that is made of
checked operations comes to `none` as soon as one of them is refused, so whoever shows that it comes
to something shows that none ever is.
-/

namespace ScopeGrant

variable {α β : Type}

/-- The difference of two numbers. -/
def sub? (a b : Nat) : Option Nat :=
  if b ≤ a then some (a - b) else none

/-- The first `count` elements of a list, and the others. -/
def splitAt? (xs : List α) (count : Nat) : Option (List α × List α) :=
  if count ≤ xs.length then some (xs.splitAt count) else none

theorem sub?_eq_some {a b : Nat} (h : b ≤ a) : sub? a b = some (a - b) :=
  if_pos h

theorem splitAt?_eq_some {xs : List α} {count : Nat} (h : count ≤ xs.length) :
    splitAt? xs count = some (xs.take count, xs.drop count) := by
  rw [splitAt?, if_pos h, List.splitAt_eq]

namespace Text

/-- The text from a byte offset on, which must be the place of a character or the end. -/
def sliceFrom? (s : String) (start : Nat) : Option String := do
  let p ← s.pos? ⟨start⟩
  return (s.sliceFrom p).copy

/-- The text between two byte offsets, each of which must be the place of a character or the end. -/
def slice? (s : String) (start stop : Nat) : Option String := do
  let p ← s.pos? ⟨start⟩
  let q ← s.pos? ⟨stop⟩
  if p ≤ q then some (s.extract p q) else none

/-- A text may be cut behind a text that it begins with. -/
theorem exists_pos?_of_append {s before rest : String} (h : s = before ++ rest) :
    ∃ p, s.pos? ⟨before.utf8ByteSize⟩ = some p ∧ p.Splits before rest := by
  have hvalid : before.rawEndPos.IsValid s :=
    String.Pos.Raw.isValid_iff_exists_append.2 ⟨before, rest, h, rfl⟩
  refine ⟨s.pos before.rawEndPos hvalid, ?_, h, String.offset_pos⟩
  rw [String.pos?, String.Slice.pos?]
  exact congrArg _ (dif_pos (String.Pos.Raw.isValidForSlice_eq_true_iff.2 hvalid.toSlice))

theorem sliceFrom?_append (before rest : String) :
    sliceFrom? (before ++ rest) before.utf8ByteSize = some rest := by
  obtain ⟨p, hp, hsplits⟩ := exists_pos?_of_append (rfl : before ++ rest = _)
  rw [sliceFrom?, hp]
  exact congrArg some hsplits.copy_sliceFrom_eq

theorem slice?_append (before middle rest : String) :
    slice? (before ++ (middle ++ rest)) before.utf8ByteSize
      (before.utf8ByteSize + middle.utf8ByteSize) = some middle := by
  obtain ⟨p, hp, -, hstart⟩ := exists_pos?_of_append (rfl : before ++ (middle ++ rest) = _)
  obtain ⟨q, hq, -, hstop⟩ := exists_pos?_of_append (@String.append_assoc before middle rest).symm
  rw [String.utf8ByteSize_append] at hq
  have hle : p ≤ q := by
    rw [String.Pos.le_iff, hstart, hstop]
    exact String.Pos.Raw.le_iff.2 (by simp)
  rw [slice?, hp, hq]
  refine (if_pos hle).trans (congrArg some ?_)
  have hbytes : (before.toByteArray ++ (middle.toByteArray ++ rest.toByteArray)).extract
      before.utf8ByteSize (before.utf8ByteSize + middle.utf8ByteSize) = middle.toByteArray :=
    (ByteArray.extract_append_size_add (i := 0)).trans (ByteArray.extract_append_eq_left rfl)
  rw [← String.toByteArray_inj, String.toByteArray_extract, hstart, hstop,
    String.toByteArray_append, String.toByteArray_append, String.byteIdx_rawEndPos,
    String.byteIdx_rawEndPos, String.utf8ByteSize_append]
  exact hbytes

example : slice? "aäb" 1 3 = some "ä" ∧ slice? "aäb" 1 2 = none := by decide

end Text

/-! ## Rows of checked operations -/

section Rows

variable {f : α → Option Bool} {p : α → Bool} {xs : List α}

theorem mapM_eq_some {f : α → Option β} {g : α → β} (h : ∀ x ∈ xs, f x = some (g x)) :
    xs.mapM f = some (xs.map g) := by
  induction xs with
  | nil => rfl
  | cons x xs ih =>
    obtain ⟨hx, hxs⟩ := List.forall_mem_cons.1 h
    rw [List.mapM_cons, hx, ih hxs]
    rfl

/-- Where nothing is left out, nothing is refused. -/
theorem mapM_eq_some_filterMap {f : α → Option β} (h : ∀ x ∈ xs, ∃ y, f x = some y) :
    xs.mapM f = some (xs.filterMap f) := by
  induction xs with
  | nil => rfl
  | cons x xs ih =>
    obtain ⟨⟨y, hy⟩, hxs⟩ := List.forall_mem_cons.1 h
    rw [List.mapM_cons, hy, ih hxs, List.filterMap_cons_some hy]
    rfl

theorem allM_eq_some (h : ∀ x ∈ xs, f x = some (p x)) : xs.allM f = some (xs.all p) := by
  induction xs with
  | nil => rfl
  | cons x xs ih =>
    obtain ⟨hx, hxs⟩ := List.forall_mem_cons.1 h
    rw [List.allM, hx, List.all_cons]
    cases p x with
    | false => rfl
    | true => exact ih hxs

theorem anyM_eq_some (h : ∀ x ∈ xs, f x = some (p x)) : xs.anyM f = some (xs.any p) := by
  induction xs with
  | nil => rfl
  | cons x xs ih =>
    obtain ⟨hx, hxs⟩ := List.forall_mem_cons.1 h
    rw [List.anyM, hx, List.any_cons]
    cases p x with
    | false => exact ih hxs
    | true => rfl

theorem filterM_eq_some (h : ∀ x ∈ xs, f x = some (p x)) : xs.filterM f = some (xs.filter p) := by
  have hrun : ∀ found, xs.filterAuxM f found = some ((xs.filter p).reverse ++ found) := by
    induction xs with
    | nil => exact fun found => rfl
    | cons x xs ih =>
      intro found
      obtain ⟨hx, hxs⟩ := List.forall_mem_cons.1 h
      rw [List.filterAuxM, hx, List.filter_cons]
      cases p x with
      | false => exact ih hxs found
      | true => exact (ih hxs (x :: found)).trans (by simp)
  rw [List.filterM, hrun]
  simp

end Rows

end ScopeGrant
