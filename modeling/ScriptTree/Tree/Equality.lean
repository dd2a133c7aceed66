import ScriptTree.Tree.Basic

/-!
# Equality of trees

Trees are compared node by node. The comparison is decided by a recursion that follows the shape of
the trees, lists of children included; `Expr.same_iff` and `Stmt.same_iff` say that it decides
equality, which gives every kind of tree its `DecidableEq` instance.
-/
namespace ScriptTree

mutual

/-- Whether two expressions are equal, node by node. -/
def Expr.same : Expr → Expr → Bool
  | .literal a, .literal b => decide (a = b)
  | .name a, .name b => decide (a = b)
  | .attr v a, .attr w b => v.same w && decide (a = b)
  | .subscript v i, .subscript w j => v.same w && i.same j
  | .bitOr l r, .bitOr m s => l.same m && r.same s
  | .list es, .list fs => Expr.sameList es fs
  | .dict es, .dict fs => Expr.sameEntries es fs
  | .call f xs, .call g ys => f.same g && Expr.sameArguments xs ys
  | _, _ => false
termination_by structural a => a

def Expr.sameList : List Expr → List Expr → Bool
  | [], [] => true
  | e :: es, f :: fs => e.same f && Expr.sameList es fs
  | _, _ => false
termination_by structural a => a

def Expr.sameEntries : List (Entry Expr) → List (Entry Expr) → Bool
  | [], [] => true
  | ⟨k, v⟩ :: es, ⟨l, w⟩ :: fs => k.same l && v.same w && Expr.sameEntries es fs
  | _, _ => false
termination_by structural a => a

def Expr.sameArguments : List (Argument Expr) → List (Argument Expr) → Bool
  | [], [] => true
  | ⟨k, v⟩ :: xs, ⟨l, w⟩ :: ys => decide (k = l) && v.same w && Expr.sameArguments xs ys
  | _, _ => false
termination_by structural a => a

end

mutual

theorem Expr.eq_of_same : ∀ {a b : Expr}, a.same b = true → a = b
  | .literal _, b, h => by cases b <;> simp_all [Expr.same]
  | .name _, b, h => by cases b <;> simp_all [Expr.same]
  | .attr _ _, b, h => by
    cases b <;> simp only [Expr.same, Bool.and_eq_true, decide_eq_true_eq, Bool.false_eq_true] at h
    exact congr (congrArg Expr.attr (Expr.eq_of_same h.1)) h.2
  | .subscript _ _, b, h => by
    cases b <;> simp only [Expr.same, Bool.and_eq_true, Bool.false_eq_true] at h
    exact congr (congrArg Expr.subscript (Expr.eq_of_same h.1)) (Expr.eq_of_same h.2)
  | .bitOr _ _, b, h => by
    cases b <;> simp only [Expr.same, Bool.and_eq_true, Bool.false_eq_true] at h
    exact congr (congrArg Expr.bitOr (Expr.eq_of_same h.1)) (Expr.eq_of_same h.2)
  | .list _, b, h => by
    cases b <;> simp only [Expr.same, Bool.false_eq_true] at h
    exact congrArg Expr.list (Expr.eq_of_sameList h)
  | .dict _, b, h => by
    cases b <;> simp only [Expr.same, Bool.false_eq_true] at h
    exact congrArg Expr.dict (Expr.eq_of_sameEntries h)
  | .call _ _, b, h => by
    cases b <;> simp only [Expr.same, Bool.and_eq_true, Bool.false_eq_true] at h
    exact congr (congrArg Expr.call (Expr.eq_of_same h.1)) (Expr.eq_of_sameArguments h.2)

theorem Expr.eq_of_sameList : ∀ {es fs : List Expr}, Expr.sameList es fs = true → es = fs
  | [], fs, h => by cases fs <;> simp_all [Expr.sameList]
  | _ :: _, fs, h => by
    cases fs <;> simp only [Expr.sameList, Bool.and_eq_true, Bool.false_eq_true] at h
    rw [Expr.eq_of_same h.1, Expr.eq_of_sameList h.2]

theorem Expr.eq_of_sameEntries :
    ∀ {es fs : List (Entry Expr)}, Expr.sameEntries es fs = true → es = fs
  | [], fs, h => by cases fs <;> simp_all [Expr.sameEntries]
  | ⟨_, _⟩ :: _, fs, h => by
    cases fs with
    | nil => simp [Expr.sameEntries] at h
    | cons =>
      simp only [Expr.sameEntries, Bool.and_eq_true] at h
      rw [Expr.eq_of_same h.1.1, Expr.eq_of_same h.1.2, Expr.eq_of_sameEntries h.2]

theorem Expr.eq_of_sameArguments :
    ∀ {xs ys : List (Argument Expr)}, Expr.sameArguments xs ys = true → xs = ys
  | [], ys, h => by cases ys <;> simp_all [Expr.sameArguments]
  | ⟨_, _⟩ :: _, ys, h => by
    cases ys with
    | nil => simp [Expr.sameArguments] at h
    | cons =>
      simp only [Expr.sameArguments, Bool.and_eq_true, decide_eq_true_eq] at h
      rw [h.1.1, Expr.eq_of_same h.1.2, Expr.eq_of_sameArguments h.2]

end

mutual

theorem Expr.same_self : ∀ a : Expr, a.same a = true
  | .literal _ => by simp [Expr.same]
  | .name _ => by simp [Expr.same]
  | .attr v _ => by simp [Expr.same, Expr.same_self v]
  | .subscript v i => by simp [Expr.same, Expr.same_self v, Expr.same_self i]
  | .bitOr l r => by simp [Expr.same, Expr.same_self l, Expr.same_self r]
  | .list es => by simp [Expr.same, Expr.sameList_self es]
  | .dict es => by simp [Expr.same, Expr.sameEntries_self es]
  | .call f xs => by simp [Expr.same, Expr.same_self f, Expr.sameArguments_self xs]

theorem Expr.sameList_self : ∀ es : List Expr, Expr.sameList es es = true
  | [] => rfl
  | e :: es => by simp [Expr.sameList, Expr.same_self e, Expr.sameList_self es]

theorem Expr.sameEntries_self : ∀ es : List (Entry Expr), Expr.sameEntries es es = true
  | [] => rfl
  | ⟨k, v⟩ :: es => by
    simp [Expr.sameEntries, Expr.same_self k, Expr.same_self v, Expr.sameEntries_self es]

theorem Expr.sameArguments_self : ∀ xs : List (Argument Expr), Expr.sameArguments xs xs = true
  | [] => rfl
  | ⟨_, v⟩ :: xs => by simp [Expr.sameArguments, Expr.same_self v, Expr.sameArguments_self xs]

end

theorem Expr.same_iff (a b : Expr) : a.same b = true ↔ a = b :=
  ⟨Expr.eq_of_same, fun h => h ▸ Expr.same_self a⟩

instance : DecidableEq Expr := fun a b => decidable_of_iff _ (Expr.same_iff a b)

deriving instance DecidableEq for Entry

deriving instance DecidableEq for Argument

mutual

/-- Whether two statements are equal, node by node. -/
def Stmt.same : Stmt → Stmt → Bool
  | .importFrom m xs, .importFrom n ys => decide (m = n) && decide (xs = ys)
  | .classDef a bs ss, .classDef b cs ts => decide (a = b) && decide (bs = cs) && Stmt.sameList ss ts
  | .assign x v, .assign y w => decide (x = y) && decide (v = w)
  | .annAssign x t, .annAssign y u => decide (x = y) && decide (t = u)
  | .expr v, .expr w => decide (v = w)
  | .pass, .pass => true
  | _, _ => false
termination_by structural a => a

def Stmt.sameList : List Stmt → List Stmt → Bool
  | [], [] => true
  | s :: ss, t :: ts => s.same t && Stmt.sameList ss ts
  | _, _ => false
termination_by structural a => a

end

mutual

theorem Stmt.eq_of_same : ∀ {a b : Stmt}, a.same b = true → a = b
  | .importFrom _ _, b, h => by cases b <;> simp_all [Stmt.same]
  | .classDef _ _ _, b, h => by
    cases b <;> simp only [Stmt.same, Bool.and_eq_true, decide_eq_true_eq, Bool.false_eq_true] at h
    rw [h.1.1, h.1.2, Stmt.eq_of_sameList h.2]
  | .assign _ _, b, h => by cases b <;> simp_all [Stmt.same]
  | .annAssign _ _, b, h => by cases b <;> simp_all [Stmt.same]
  | .expr _, b, h => by cases b <;> simp_all [Stmt.same]
  | .pass, b, h => by cases b <;> simp_all [Stmt.same]

theorem Stmt.eq_of_sameList : ∀ {ss ts : List Stmt}, Stmt.sameList ss ts = true → ss = ts
  | [], ts, h => by cases ts <;> simp_all [Stmt.sameList]
  | _ :: _, ts, h => by
    cases ts <;> simp only [Stmt.sameList, Bool.and_eq_true, Bool.false_eq_true] at h
    rw [Stmt.eq_of_same h.1, Stmt.eq_of_sameList h.2]

end

mutual

theorem Stmt.same_self : ∀ a : Stmt, a.same a = true
  | .importFrom _ _ => by simp [Stmt.same]
  | .classDef _ _ ss => by simp [Stmt.same, Stmt.sameList_self ss]
  | .assign _ _ => by simp [Stmt.same]
  | .annAssign _ _ => by simp [Stmt.same]
  | .expr _ => by simp [Stmt.same]
  | .pass => rfl

theorem Stmt.sameList_self : ∀ ss : List Stmt, Stmt.sameList ss ss = true
  | [] => rfl
  | s :: ss => by simp [Stmt.sameList, Stmt.same_self s, Stmt.sameList_self ss]

end

theorem Stmt.same_iff (a b : Stmt) : a.same b = true ↔ a = b :=
  ⟨Stmt.eq_of_same, fun h => h ▸ Stmt.same_self a⟩

instance : DecidableEq Stmt := fun a b => decidable_of_iff _ (Stmt.same_iff a b)

deriving instance DecidableEq for Module

deriving instance DecidableEq for Node

end ScriptTree
