import Mathlib.Data.List.Forall2

/-!
# Outcomes of steps that can fail

A computation that answers with a value or a fault answers with a value exactly if each of its parts
does, and with the fault of the first part that does not. The statements below take such
computations apart, one for each way in which the program composes them.
-/
namespace ScriptTree.Outcome

variable {ε α β γ : Type}

theorem bind_eq_ok_iff {x : Except ε α} {f : α → Except ε β} {b : β} :
    (x >>= f) = .ok b ↔ ∃ a, x = .ok a ∧ f a = .ok b := by
  cases x with
  | error e =>
    constructor
    · intro h
      cases h
    · intro h
      obtain ⟨a, h, -⟩ := h
      cases h
  | ok a =>
    constructor
    · intro h
      exact ⟨a, rfl, h⟩
    · intro h
      obtain ⟨a', h, hb⟩ := h
      cases h
      exact hb

/-- Two steps that do not depend on each other, and what is made of both. -/
theorem bind₂_eq_ok_iff {x : Except ε α} {y : Except ε β} {f : α → β → Except ε γ} {c : γ} :
    (x >>= fun a => y >>= fun b => f a b) = .ok c ↔
      ∃ a b, x = .ok a ∧ y = .ok b ∧ f a b = .ok c := by
  simp only [bind_eq_ok_iff]
  constructor
  · intro h
    obtain ⟨a, hx, b, hy, hc⟩ := h
    exact ⟨a, b, hx, hy, hc⟩
  · intro h
    obtain ⟨a, b, hx, hy, hc⟩ := h
    exact ⟨a, hx, b, hy, hc⟩

/-- A chain of two steps fails in the first or, after its answer, in the second. -/
theorem bind_eq_error_iff {x : Except ε α} {f : α → Except ε β} {e : ε} :
    (x >>= f) = .error e ↔ x = .error e ∨ ∃ a, x = .ok a ∧ f a = .error e := by
  cases x with
  | error e' =>
    constructor
    · intro h
      cases h
      exact .inl rfl
    · rintro (h | ⟨a, h, -⟩) <;> cases h
      rfl
  | ok a =>
    constructor
    · exact fun h => .inr ⟨a, rfl, h⟩
    · rintro (h | ⟨a', h, he⟩) <;> cases h
      exact he

theorem mapError_eq_ok_iff {ε' : Type} {x : Except ε α} {f : ε → ε'} {a : α} :
    x.mapError f = .ok a ↔ x = .ok a := by
  cases x with
  | error e => simp [Except.mapError]
  | ok a' => simp [Except.mapError]

theorem mapError_eq_error_iff {ε' : Type} {x : Except ε α} {f : ε → ε'} {e' : ε'} :
    x.mapError f = .error e' ↔ ∃ e, x = .error e ∧ f e = e' := by
  cases x with
  | error e => simp [Except.mapError]
  | ok a => simp [Except.mapError]

theorem pure_eq_ok_iff {a b : α} : (pure a : Except ε α) = .ok b ↔ a = b :=
  ⟨Except.ok.inj, congrArg Except.ok⟩

/-- A list of steps succeeds if every single step does, and answers with their answers in order. -/
theorem mapM_eq_ok_iff {f : α → Except ε β} {xs : List α} {ys : List β} :
    xs.mapM f = .ok ys ↔ List.Forall₂ (fun x y => f x = .ok y) xs ys := by
  induction xs generalizing ys with
  | nil =>
    rw [List.mapM_nil, pure_eq_ok_iff, List.forall₂_nil_left_iff]
    exact eq_comm
  | cons x xs ih =>
    simp only [List.mapM_cons, bind_eq_ok_iff, pure_eq_ok_iff, List.forall₂_cons_left_iff, ih]
    constructor
    · intro h
      obtain ⟨y, hy, ys', hys, rfl⟩ := h
      exact ⟨y, ys', hy, hys, rfl⟩
    · intro h
      obtain ⟨y, ys', hy, hys, rfl⟩ := h
      exact ⟨y, hy, ys', hys, rfl⟩

theorem exists_mapM_eq_ok_iff {f : α → Except ε β} {xs : List α} :
    (∃ ys, xs.mapM f = .ok ys) ↔ ∀ x ∈ xs, ∃ y, f x = .ok y := by
  induction xs with
  | nil => simp [pure_eq_ok_iff]
  | cons x xs ih =>
    rw [List.forall_mem_cons, ← ih]
    simp only [List.mapM_cons, bind_eq_ok_iff, pure_eq_ok_iff]
    constructor
    · intro h
      obtain ⟨_, y, hy, ys, hys, -⟩ := h
      exact ⟨⟨y, hy⟩, ys, hys⟩
    · intro h
      obtain ⟨⟨y, hy⟩, ys, hys⟩ := h
      exact ⟨_, y, hy, ys, hys, rfl⟩

/-- A list of steps fails as one of them does. -/
theorem exists_of_mapM_eq_error {f : α → Except ε β} {xs : List α} {e : ε}
    (h : xs.mapM f = .error e) : ∃ x ∈ xs, f x = .error e := by
  induction xs with
  | nil => cases h
  | cons x xs ih =>
    rw [List.mapM_cons] at h
    rcases bind_eq_error_iff.mp h with hx | ⟨y, -, h⟩
    · exact ⟨x, .head _, hx⟩
    · rcases bind_eq_error_iff.mp h with hxs | ⟨ys, -, h⟩
      · obtain ⟨x', hmem, hx'⟩ := ih hxs
        exact ⟨x', .tail _ hmem, hx'⟩
      · cases h

/-- A change of the list that no single step notices is not noticed by all of them. -/
theorem mapM_map_of_mem {f : α → Except ε β} {g : α → α} {xs : List α}
    (h : ∀ x ∈ xs, f (g x) = f x) : (xs.map g).mapM f = xs.mapM f := by
  induction xs with
  | nil => rfl
  | cons x xs ih =>
    rw [List.map_cons, List.mapM_cons, List.mapM_cons, h x (.head _), ih fun y hy => h y (.tail _ hy)]

theorem forall₂_imp_of_mem {R S : α → β → Prop} {xs : List α} {ys : List β}
    (h : List.Forall₂ R xs ys) (himp : ∀ x ∈ xs, ∀ y ∈ ys, R x y → S x y) :
    List.Forall₂ S xs ys := by
  induction h with
  | nil => exact .nil
  | cons hxy _ ih =>
    exact .cons (himp _ (.head _) _ (.head _) hxy)
      (ih fun x hx y hy => himp x (.tail _ hx) y (.tail _ hy))

/-- What every answer to a member of the left list has, every member of the right list has. -/
theorem forall_mem_of_forall₂ {R : α → β → Prop} {P : β → Prop} {xs : List α} {ys : List β}
    (h : List.Forall₂ R xs ys) (himp : ∀ x ∈ xs, ∀ y, R x y → P y) : ∀ y ∈ ys, P y := by
  induction h with
  | nil => exact fun y hy => nomatch hy
  | cons hxy _ ih =>
    exact List.forall_mem_cons.mpr
      ⟨himp _ (.head _) _ hxy, ih fun x hx => himp x (.tail _ hx)⟩

/-- Lists are related by both of two relations if they are by each. -/
theorem forall₂_and_iff {R S : α → β → Prop} {xs : List α} {ys : List β} :
    List.Forall₂ (fun x y => R x y ∧ S x y) xs ys ↔ List.Forall₂ R xs ys ∧ List.Forall₂ S xs ys := by
  constructor
  · intro h
    exact ⟨h.imp fun _ _ h => h.1, h.imp fun _ _ h => h.2⟩
  · intro h
    obtain ⟨hR, hS⟩ := h
    induction hR with
    | nil => exact .nil
    | cons hr _ ih =>
      cases hS with
      | cons hs hS => exact .cons ⟨hr, hs⟩ (ih hS)

theorem forall₂_congr_of_mem {R S : α → β → Prop} {xs : List α} {ys : List β}
    (h : ∀ x ∈ xs, ∀ y, R x y ↔ S x y) : List.Forall₂ R xs ys ↔ List.Forall₂ S xs ys :=
  ⟨fun hR => forall₂_imp_of_mem hR fun x hx y _ => (h x hx y).mp,
    fun hS => forall₂_imp_of_mem hS fun x hx y _ => (h x hx y).mpr⟩

/-- What is made of related members is what is made of a related list. -/
theorem exists_forall₂_map_iff {R : α → β → Prop} {f : β → γ} {xs : List α} {zs : List γ} :
    (∃ ys, List.Forall₂ R xs ys ∧ ys.map f = zs) ↔
      List.Forall₂ (fun x z => ∃ y, R x y ∧ f y = z) xs zs := by
  constructor
  · intro h
    obtain ⟨ys, h, rfl⟩ := h
    rw [List.forall₂_map_right_iff]
    exact h.imp fun _ y hxy => ⟨y, hxy, rfl⟩
  · intro h
    induction h with
    | nil => exact ⟨[], .nil, rfl⟩
    | cons hxz _ ih =>
      obtain ⟨y, hxy, rfl⟩ := hxz
      obtain ⟨ys, hys, rfl⟩ := ih
      exact ⟨y :: ys, .cons hxy hys, rfl⟩

/-- Lists whose members are determined by what they are related to are determined by it. -/
theorem eq_of_forall₂ {R : α → β → Prop} {xs xs' : List α} {ys : List β}
    (h : List.Forall₂ R xs ys) (h' : List.Forall₂ R xs' ys)
    (hinj : ∀ x ∈ xs, ∀ x' y, R x y → R x' y → x = x') : xs = xs' := by
  induction h generalizing xs' with
  | nil => exact (List.forall₂_nil_right_iff.mp h').symm
  | cons hxy _ ih =>
    cases h' with
    | cons hxy' h' =>
      rw [hinj _ (.head _) _ _ hxy hxy', ih h' fun x hx => hinj x (.tail _ hx)]

/-- What is found first depends on what is found in each member. -/
theorem findSome?_congr_of_mem {f g : α → Option β} {xs : List α} (h : ∀ x ∈ xs, f x = g x) :
    xs.findSome? f = xs.findSome? g := by
  induction xs with
  | nil => rfl
  | cons x xs ih =>
    rw [List.findSome?_cons, List.findSome?_cons, h x (.head _), ih fun y hy => h y (.tail _ hy)]

/-! ## Faults -/

/-- The fault that a computation answers with, if it does. -/
def fault? : Except ε α → Option ε
  | .error e => some e
  | .ok _ => none

/-- A second step whose fault does not depend on the first answer is asked when the first has none. -/
theorem fault?_bind {x : Except ε α} {f : α → Except ε β} {y : Option ε}
    (h : ∀ a, fault? (f a) = y) : fault? (x >>= f) = (fault? x).or y := by
  cases x with
  | error e => rfl
  | ok a => exact h a

/-- What is made of an answer has no fault of its own. -/
theorem fault?_bind_pure (x : Except ε α) (f : α → β) :
    fault? (x >>= fun a => pure (f a)) = fault? x := by
  cases x <;> rfl

/-- A list of steps fails as the first of them does that fails. -/
theorem fault?_mapM (f : α → Except ε β) (xs : List α) :
    fault? (xs.mapM f) = xs.findSome? fun x => fault? (f x) := by
  induction xs with
  | nil => rfl
  | cons x xs ih =>
    have hrest (y : β) : fault? (xs.mapM f >>= fun ys => pure (y :: ys)) =
        xs.findSome? fun x => fault? (f x) := by
      rw [fault?_bind_pure, ih]
    rw [List.mapM_cons, fault?_bind hrest, List.findSome?_cons]
    cases fault? (f x) <;> rfl

end ScriptTree.Outcome
