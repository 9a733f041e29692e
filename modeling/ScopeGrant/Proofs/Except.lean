import Mathlib.Data.List.Forall2
import Mathlib.Data.List.Induction

/-!
# Computations that can fail

What a sequence of steps that can fail comes to: it succeeds if every step does, and it fails with
the error of the first step that fails.
-/

namespace ScopeGrant

variable {ε α β : Type}

theorem bind_eq_ok_iff {x : Except ε α} {f : α → Except ε β} {b : β} :
    x >>= f = .ok b ↔ ∃ a, x = .ok a ∧ f a = .ok b := by
  cases x with
  | error e => simp [bind, Except.bind]
  | ok a => simp [bind, Except.bind]

theorem map_eq_ok_iff {x : Except ε α} {f : α → β} {b : β} :
    x.map f = .ok b ↔ ∃ a, x = .ok a ∧ f a = b := by
  cases x with
  | error e => simp [Except.map]
  | ok a => simp [Except.map]

theorem exists_eq_ok_iff {x : Except ε α} : (∃ a, x = .ok a) ↔ ∀ e, x ≠ .error e := by
  cases x <;> simp

theorem exists_eq_ok_iff_toBool {x : Except ε α} : (∃ a, x = .ok a) ↔ x.toBool = true := by
  cases x <;> simp [Except.toBool]

theorem exists_eq_error_iff {x : Except ε α} : (∃ e, x = .error e) ↔ x.toBool = false := by
  cases x <;> simp [Except.toBool]

@[simp] theorem ok_bind (a : α) (f : α → Except ε β) : (.ok a >>= f : Except ε β) = f a := rfl

@[simp] theorem error_bind (e : ε) (f : α → Except ε β) :
    (.error e >>= f : Except ε β) = .error e := rfl

@[simp] theorem throw_bind (e : ε) (f : α → Except ε β) :
    (throw e >>= f : Except ε β) = .error e := rfl

/-- What holds at the start and is kept by each step holds in the end. -/
theorem foldlM_invariant {f : β → α → Except ε β} {P : List α → β → Prop}
    (hstep : ∀ ys x b b', P ys b → f b x = .ok b' → P (ys ++ [x]) b') {xs : List α} {start b : β}
    (hstart : P [] start) (h : xs.foldlM f start = .ok b) : P xs b := by
  have hrun : ∀ ys start, P ys start → xs.foldlM f start = .ok b → P (ys ++ xs) b := by
    clear hstart h
    induction xs with
    | nil =>
      intro ys start hys h
      cases h
      rwa [List.append_nil]
    | cons x xs ih =>
      intro ys start hys h
      rw [List.foldlM_cons] at h
      obtain ⟨b', hx, hxs⟩ := bind_eq_ok_iff.1 h
      rw [List.append_cons]
      exact ih _ _ (hstep ys x start b' hys hx) hxs
  exact hrun [] start hstart h

/-- Where each step does what another one does or fails in a given way, so does the whole run. -/
theorem foldlM_eq_or_error {f g : β → α → Except ε β} {P : ε → Prop}
    (hstep : ∀ b x, f b x = g b x ∨ ∃ e, P e ∧ f b x = .error e) (xs : List α) (start : β) :
    xs.foldlM f start = xs.foldlM g start ∨ ∃ e, P e ∧ xs.foldlM f start = .error e := by
  induction xs generalizing start with
  | nil => exact Or.inl rfl
  | cons x xs ih =>
    rw [List.foldlM_cons, List.foldlM_cons]
    rcases hstep start x with hsame | ⟨e, he, herror⟩
    · rw [hsame]
      cases g start x with
      | error e => exact Or.inl rfl
      | ok b => exact ih b
    · rw [herror]
      exact Or.inr ⟨e, he, rfl⟩

/-- A list of steps succeeds if each of them does, with their results in order. -/
theorem mapM_eq_ok_iff {f : α → Except ε β} {xs : List α} {ys : List β} :
    xs.mapM f = .ok ys ↔ List.Forall₂ (fun x y => f x = .ok y) xs ys := by
  induction xs generalizing ys with
  | nil =>
    rw [List.mapM_nil, List.forall₂_nil_left_iff]
    exact ⟨fun h => (Except.ok.inj h).symm, fun h => h ▸ rfl⟩
  | cons x xs ih =>
    rw [List.mapM_cons, bind_eq_ok_iff, List.forall₂_cons_left_iff]
    refine exists_congr fun y => ?_
    constructor
    · rintro ⟨hy, hrest⟩
      obtain ⟨zs, hzs, h⟩ := bind_eq_ok_iff.1 hrest
      exact ⟨zs, hy, ih.1 hzs, (Except.ok.inj h).symm⟩
    · rintro ⟨zs, hy, hzs, rfl⟩
      exact ⟨hy, bind_eq_ok_iff.2 ⟨zs, ih.2 hzs, rfl⟩⟩

theorem exists_of_mem_mapM {f : α → Except ε β} {xs : List α} {ys : List β} {y : β}
    (h : xs.mapM f = .ok ys) (hy : y ∈ ys) : ∃ x ∈ xs, f x = .ok y := by
  rw [mapM_eq_ok_iff] at h
  induction h with
  | nil => cases hy
  | @cons x _ _ _ hx _ ih =>
    rcases List.mem_cons.1 hy with rfl | hy
    · exact ⟨x, List.mem_cons_self .., hx⟩
    · obtain ⟨x', hmem, hx'⟩ := ih hy
      exact ⟨x', List.mem_cons_of_mem _ hmem, hx'⟩

/-- A list of steps succeeds if each of them does. -/
theorem exists_mapM_eq_ok_iff {f : α → Except ε β} {xs : List α} :
    (∃ ys, xs.mapM f = .ok ys) ↔ ∀ x ∈ xs, ∃ y, f x = .ok y := by
  simp only [mapM_eq_ok_iff]
  induction xs with
  | nil => simp
  | cons x xs ih =>
    rw [List.forall_mem_cons, ← ih]
    simp only [List.forall₂_cons_left_iff]
    constructor
    · rintro ⟨_, y, ys, hy, hys, -⟩
      exact ⟨⟨y, hy⟩, ys, hys⟩
    · rintro ⟨⟨y, hy⟩, ys, hys⟩
      exact ⟨_, y, ys, hy, hys, rfl⟩

/-! ## Related lists -/

section Related

variable {R : α → β → Prop} {xs : List α} {ys : List β} {x : α} {y : β}

theorem exists_right_of_forall₂ (h : List.Forall₂ R xs ys) (hx : x ∈ xs) : ∃ y ∈ ys, R x y := by
  induction h with
  | nil => cases hx
  | @cons _ y _ _ hxy _ ih =>
    rcases List.mem_cons.1 hx with rfl | hx
    · exact ⟨y, List.mem_cons_self .., hxy⟩
    · obtain ⟨z, hz, hxz⟩ := ih hx
      exact ⟨z, List.mem_cons_of_mem _ hz, hxz⟩

theorem exists_left_of_forall₂ (h : List.Forall₂ R xs ys) (hy : y ∈ ys) : ∃ x ∈ xs, R x y :=
  exists_right_of_forall₂ h.flip hy

/-- If each element is related to something, then the list is related to some list. -/
theorem exists_forall₂ (h : ∀ x ∈ xs, ∃ y, R x y) : ∃ ys, List.Forall₂ R xs ys := by
  induction xs with
  | nil => exact ⟨[], .nil⟩
  | cons x xs ih =>
    obtain ⟨⟨y, hy⟩, hrest⟩ := List.forall_mem_cons.1 h
    obtain ⟨ys, hys⟩ := ih hrest
    exact ⟨y :: ys, .cons hy hys⟩

end Related

/-! ## The first failure -/

/-- No element of the list is at fault, if `fault before x e` says that `x` fails with `e` behind
the elements `before`. -/
def Faultless (fault : List α → α → ε → Prop) (xs : List α) : Prop :=
  ∀ before x after e, xs = before ++ x :: after → ¬ fault before x e

/-- The first element of the list that is at fault fails with `e`. -/
def FirstFault (fault : List α → α → ε → Prop) (xs : List α) (e : ε) : Prop :=
  ∃ before x after, xs = before ++ x :: after ∧ Faultless fault before ∧ fault before x e

section FirstFault

variable {fault : List α → α → ε → Prop} {xs : List α}

theorem faultless_nil : Faultless fault [] := by
  intro before x after e h
  simp at h

/-- A split of a list with one element behind it is at this element, or inside the list. -/
theorem concat_eq_append_cons {before after : List α} {x y : α}
    (h : xs ++ [y] = before ++ x :: after) :
    (xs = before ∧ y = x) ∨ ∃ after', xs = before ++ x :: after' := by
  rcases List.eq_nil_or_concat after with rfl | ⟨after', z, rfl⟩
  · obtain ⟨hxs, hy⟩ := List.append_inj' h rfl
    exact Or.inl ⟨hxs, List.singleton_inj.1 hy⟩
  · rw [List.concat_eq_append, ← List.cons_append, ← List.append_assoc] at h
    exact Or.inr ⟨after', (List.append_inj' h rfl).1⟩

theorem faultless_concat {y : α} :
    Faultless fault (xs ++ [y]) ↔ Faultless fault xs ∧ ∀ e, ¬ fault xs y e := by
  constructor
  · refine fun h => ⟨fun before x after e hxs => ?_, fun e => h xs y [] e rfl⟩
    exact h before x (after ++ [y]) e (by rw [hxs, List.append_assoc, List.cons_append])
  · rintro ⟨hxs, hy⟩ before x after e h
    rcases concat_eq_append_cons h with ⟨rfl, rfl⟩ | ⟨after', hsplit⟩
    · exact hy e
    · exact hxs before x after' e hsplit

theorem firstFault_concat {y : α} {e : ε} :
    FirstFault fault (xs ++ [y]) e ↔
      FirstFault fault xs e ∨ (Faultless fault xs ∧ fault xs y e) := by
  constructor
  · rintro ⟨before, x, after, h, hbefore, hx⟩
    rcases concat_eq_append_cons h with ⟨rfl, rfl⟩ | ⟨after', hsplit⟩
    · exact Or.inr ⟨hbefore, hx⟩
    · exact Or.inl ⟨before, x, after', hsplit, hbefore, hx⟩
  · rintro (⟨before, x, after, rfl, hbefore, hx⟩ | ⟨hxs, hy⟩)
    · exact ⟨before, x, after ++ [y], by simp, hbefore, hx⟩
    · exact ⟨xs, y, [], rfl, hxs, hy⟩

/-- A list has a first fault unless it has none. -/
theorem faultless_iff : Faultless fault xs ↔ ∀ e, ¬ FirstFault fault xs e := by
  constructor
  · rintro h e ⟨before, x, after, hsplit, -, hx⟩
    exact h before x after e hsplit hx
  · induction xs using List.reverseRecOn with
    | nil => exact fun _ => faultless_nil
    | append_singleton xs y ih =>
      intro h
      have hxs := ih fun e he => h e (firstFault_concat.2 (Or.inl he))
      exact faultless_concat.2 ⟨hxs, fun e he => h e (firstFault_concat.2 (Or.inr ⟨hxs, he⟩))⟩

/-- Where faults do not depend on what stands before, nothing is at fault if no element is. -/
theorem faultless_iff_forall_mem {fault : α → ε → Prop} :
    Faultless (fun _ => fault) xs ↔ ∀ x ∈ xs, ∀ e, ¬ fault x e := by
  constructor
  · intro h x hx e
    obtain ⟨before, after, hsplit⟩ := List.append_of_mem hx
    exact h before x after e hsplit
  · rintro h before x after e rfl
    exact h x (by simp) e

/-- A fold fails with its first fault, if faults are what makes a step fail in a state that may
stand behind the elements so far. -/
theorem foldlM_eq_error_iff {f : β → α → Except ε β} {P : List α → β → Prop} {start : β} {e : ε}
    (hfault : ∀ ys x b e, P ys b → (f b x = .error e ↔ fault ys x e))
    (hkeep : ∀ ys x b b', P ys b → f b x = .ok b' → P (ys ++ [x]) b') (hstart : P [] start) :
    xs.foldlM f start = .error e ↔ FirstFault fault xs e := by
  -- the induction takes elements off the end, where a fold goes on with what it has come to
  induction xs using List.reverseRecOn generalizing e with
  | nil => simp [FirstFault, pure, Except.pure]
  | append_singleton xs y ih =>
    rw [List.foldlM_append, firstFault_concat, ← ih, faultless_iff]
    simp only [← ih]
    cases hxs : xs.foldlM f start with
    | error e' => simp
    | ok b =>
      rw [ok_bind, List.foldlM_cons, ← hfault xs y b e (foldlM_invariant hkeep hstart hxs)]
      cases f b y with
      | error e' => simp
      | ok b' => simp [pure, Except.pure]

/-- A fold succeeds if nothing in the list is at fault. -/
theorem exists_foldlM_eq_ok_iff {f : β → α → Except ε β} {P : List α → β → Prop} {start : β}
    (hfault : ∀ ys x b e, P ys b → (f b x = .error e ↔ fault ys x e))
    (hkeep : ∀ ys x b b', P ys b → f b x = .ok b' → P (ys ++ [x]) b') (hstart : P [] start) :
    (∃ b, xs.foldlM f start = .ok b) ↔ Faultless fault xs := by
  rw [faultless_iff]
  simp only [← foldlM_eq_error_iff hfault hkeep hstart]
  cases xs.foldlM f start <;> simp

/-- A fold succeeds if nothing in the list is at fault, where faults depend on the elements alone.
-/
theorem exists_foldlM_eq_ok_iff_of_const {f : β → α → Except ε β} {fault : α → ε → Prop}
    (hfault : ∀ b x e, f b x = .error e ↔ fault x e) (start : β) :
    (∃ b, xs.foldlM f start = .ok b) ↔ Faultless (fun _ => fault) xs :=
  exists_foldlM_eq_ok_iff (P := fun _ _ => True) (fun _ x b e _ => hfault b x e)
    (fun _ _ _ _ _ _ => trivial) trivial

/-- Doing something for each element is a fold that has nothing to remember. -/
theorem forM_eq_foldlM (xs : List α) (f : α → Except ε Unit) :
    xs.forM f = xs.foldlM (fun _ x => f x) () := by
  induction xs with
  | nil => rfl
  | cons x xs ih =>
    rw [List.forM_eq_forM] at ih ⊢
    rw [List.forM_cons, List.foldlM_cons, ih]

section Related

variable {R : α → β → Prop} {ys : List β} {fault' : List β → β → ε → Prop} {g : ε → ε}

theorem exists_of_forall₂_concat {x : α} (h : List.Forall₂ R (xs ++ [x]) ys) :
    ∃ ys' y, ys = ys' ++ [y] ∧ List.Forall₂ R xs ys' ∧ R x y := by
  rw [← List.forall₂_reverse_iff, List.reverse_append] at h
  obtain ⟨y, ys', hy, hrest, hys⟩ := List.forall₂_cons_left_iff.1 h
  refine ⟨ys'.reverse, y, by rw [← List.reverse_cons, ← hys, List.reverse_reverse], ?_, hy⟩
  rwa [← List.forall₂_reverse_iff, List.reverse_reverse]

theorem faultless_iff_of_firstFault_iff
    (h : ∀ e', FirstFault fault' ys e' ↔ ∃ e, FirstFault fault xs e ∧ e' = g e) :
    Faultless fault' ys ↔ Faultless fault xs := by
  rw [faultless_iff, faultless_iff]
  constructor
  · exact fun hnone e he => hnone (g e) ((h _).2 ⟨e, he, rfl⟩)
  · intro hnone e' he'
    obtain ⟨e, he, -⟩ := (h e').1 he'
    exact hnone e he

/-- Where related elements behind related lists have related faults, so have related lists. -/
theorem firstFault_iff_of_forall₂
    (hfault : ∀ before before' x y, List.Forall₂ R before before' → R x y →
      ∀ e', fault' before' y e' ↔ ∃ e, fault before x e ∧ e' = g e)
    (h : List.Forall₂ R xs ys) (e' : ε) :
    FirstFault fault' ys e' ↔ ∃ e, FirstFault fault xs e ∧ e' = g e := by
  induction xs using List.reverseRecOn generalizing ys e' with
  | nil =>
    rw [List.forall₂_nil_left_iff.1 h]
    simp [FirstFault]
  | append_singleton xs x ih =>
    obtain ⟨ys, y, rfl, hxs, hxy⟩ := exists_of_forall₂_concat h
    have hfaultless := faultless_iff_of_firstFault_iff (ih hxs)
    simp only [firstFault_concat, ih hxs, hfaultless, hfault xs ys x y hxs hxy, or_and_right,
      exists_or, and_assoc, exists_and_left]

end Related

theorem forM_eq_error_iff {f : α → Except ε Unit} {e : ε} :
    xs.forM f = .error e ↔ FirstFault (fun _ x e => f x = .error e) xs e := by
  rw [forM_eq_foldlM]
  exact foldlM_eq_error_iff (P := fun _ _ => True) (fun _ _ _ _ _ => Iff.rfl)
    (fun _ _ _ _ _ _ => trivial) trivial

theorem exists_of_forM_eq_error {f : α → Except ε Unit} {e : ε} (h : xs.forM f = .error e) :
    ∃ x ∈ xs, f x = .error e := by
  obtain ⟨before, x, after, rfl, -, hx⟩ := forM_eq_error_iff.1 h
  exact ⟨x, List.mem_append_right before (List.mem_cons_self ..), hx⟩

theorem forM_eq_ok_iff {f : α → Except ε Unit} :
    xs.forM f = .ok () ↔ Faultless (fun _ x e => f x = .error e) xs := by
  rw [faultless_iff]
  simp only [← forM_eq_error_iff]
  cases xs.forM f <;> simp

theorem forM_eq_ok_iff_forall_mem {f : α → Except ε Unit} :
    xs.forM f = .ok () ↔ ∀ x ∈ xs, f x = .ok () := by
  rw [forM_eq_ok_iff, faultless_iff_forall_mem]
  refine forall₂_congr fun x _ => ?_
  rw [← exists_eq_ok_iff]
  exact ⟨fun ⟨_, h⟩ => h, fun h => ⟨(), h⟩⟩

end FirstFault

end ScopeGrant
