import ScriptTree.Path.Piece
import ScriptTree.Proofs.Outcome
import ScriptTree.Proofs.Path.Balance

/-!
# The dots that separate

The first reading cuts a path at its top-level dots. `split_eq_ok_iff` says what it accepts: texts
joined by dots, each of which a scanner passes from outside all brackets to outside all brackets
without meeting a dot at the top. Where the pieces begin follows from their lengths.
-/
namespace ScriptTree.Path

open Text (byteLength)
open Outcome (bind_eq_ok_iff pure_eq_ok_iff)

/-- A scanner gets over a text from one state to another and meets no separating dot in it. -/
inductive Passes : Nesting → List Char → Nesting → Prop
  | nil {n : Nesting} : Passes n [] n
  | cons {n n' m : Nesting} {c : Char} {cs : List Char} (hdot : ¬ (c = '.' ∧ n.isTop = true))
      (hstep : n.step c = some n') (h : Passes n' cs m) : Passes n (c :: cs) m

theorem Nesting.isTop_iff (n : Nesting) : n.isTop = true ↔ n = .top := by
  obtain ⟨depth, quote⟩ := n
  cases quote <;> simp [Nesting.isTop, Nesting.top]

theorem Passes.append {n n' m : Nesting} {cs ds : List Char} (h : Passes n cs n')
    (h' : Passes n' ds m) : Passes n (cs ++ ds) m := by
  induction h with
  | nil => exact h'
  | cons hdot hstep _ ih => exact .cons hdot hstep (ih h')

/-! ## What a scanner gets over -/

theorem Nesting.step_plain {depth : Nat} {c : Char} (hq : isQuote c = false) (ho : c ≠ '[')
    (hc : c ≠ ']') : Nesting.step ⟨depth, none⟩ c = some ⟨depth, none⟩ := by
  simp [Nesting.step, hq, ho, hc]

theorem Nesting.step_top {c : Char} (ho : c ≠ '[') (hc : c ≠ ']') :
    Nesting.step .top c = some .top := by
  simp [Nesting.step, Nesting.top, ho, hc]

theorem Nesting.step_opening (depth : Nat) :
    Nesting.step ⟨depth, none⟩ '[' = some ⟨depth + 1, none⟩ := by
  simp [Nesting.step, isQuote]

theorem Nesting.step_closing (depth : Nat) :
    Nesting.step ⟨depth + 1, none⟩ ']' = some ⟨depth, none⟩ := by
  simp [Nesting.step, isQuote]

theorem Nesting.step_quote {depth : Nat} {q : Char} (hq : isQuote q = true) :
    Nesting.step ⟨depth + 1, none⟩ q = some ⟨depth + 1, some q⟩ := by
  simp [Nesting.step, hq]

theorem Nesting.step_hidden (depth : Nat) (q c : Char) :
    Nesting.step ⟨depth, some q⟩ c = some ⟨depth, if c = q then none else some q⟩ := by
  by_cases hc : c = q <;> simp [Nesting.step, hc]

theorem not_isTop_succ (depth : Nat) (quote : Option Char) (c : Char) :
    ¬ (c = '.' ∧ Nesting.isTop ⟨depth + 1, quote⟩ = true) := by
  simp [Nesting.isTop]

theorem passes_hidden {depth : Nat} {q : Char} {hidden : List Char} (hh : q ∉ hidden) :
    Passes ⟨depth + 1, some q⟩ (hidden ++ [q]) ⟨depth + 1, none⟩ := by
  induction hidden with
  | nil =>
    refine .cons (not_isTop_succ _ _ _) ?_ .nil
    rw [Nesting.step_hidden, if_pos rfl]
  | cons c hidden ih =>
    have hc : c ≠ q := fun h => hh (h ▸ .head _)
    refine .cons (not_isTop_succ _ _ _) ?_ (ih fun h => hh (.tail _ h))
    rw [Nesting.step_hidden, if_neg hc]

/-- Inside a bracket a balanced text is passed down to that bracket. -/
theorem Balanced.passes {depth : Nat} {cs : List Char} (h : Balanced depth cs) :
    Passes ⟨depth + 1, none⟩ cs ⟨1, none⟩ := by
  induction h with
  | nil => exact .nil
  | plain hq ho hc _ ih =>
    exact .cons (not_isTop_succ _ _ _) (Nesting.step_plain hq ho hc) ih
  | opening _ ih => exact .cons (not_isTop_succ _ _ _) (Nesting.step_opening _) ih
  | closing _ ih => exact .cons (not_isTop_succ _ _ _) (Nesting.step_closing _) ih
  | quoted hq hh _ ih =>
    rw [List.append_cons]
    exact .cons (not_isTop_succ _ _ _) (Nesting.step_quote hq) ((passes_hidden hh).append ih)

/-- A subscript is passed from the top to the top. -/
theorem Balanced.passes_brackets {inside : List Char} (h : Balanced 0 inside) :
    Passes .top ('[' :: (inside ++ [']'])) .top := by
  refine .cons (by simp) (Nesting.step_opening 0) (h.passes.append ?_)
  exact .cons (not_isTop_succ _ _ _) (Nesting.step_closing 0) .nil

/-- Outside brackets only dots and brackets are looked at. -/
theorem passes_top {cs : List Char} (h : ∀ c ∈ cs, c ≠ '.' ∧ c ≠ '[' ∧ c ≠ ']') :
    Passes .top cs .top := by
  induction cs with
  | nil => exact .nil
  | cons c cs ih =>
    obtain ⟨hdot, ho, hc⟩ := h c (.head _)
    exact .cons (fun hd => hdot hd.1) (Nesting.step_top ho hc) (ih fun d hd => h d (.tail _ hd))

/-- Up to the first opening bracket a passed text has no dot and no closing bracket. -/
theorem Passes.free_of_top {cs : List Char} {m : Nesting} (h : Passes .top cs m) :
    ∀ c ∈ cs.takeWhile (· ≠ '['), c ≠ '.' ∧ c ≠ '[' ∧ c ≠ ']' := by
  generalize hn : Nesting.top = n at h
  induction h with
  | nil => intro c hc; cases hc
  | @cons n n' m d ds hdot hstep _ ih =>
    subst hn
    intro c hc
    by_cases ho : d = '['
    · rw [List.takeWhile_cons_of_neg (by simp [ho])] at hc
      cases hc
    have hd : d ≠ ']' := by
      rintro rfl
      simp [Nesting.step, Nesting.top, isQuote] at hstep
    have hnext : Nesting.top = n' := by
      rw [Nesting.step_top ho hd] at hstep
      exact Option.some.inj hstep
    rw [List.takeWhile_cons_of_pos (by simp [ho])] at hc
    rcases List.mem_cons.mp hc with rfl | hc
    · exact ⟨fun h => hdot ⟨h, rfl⟩, ho, hd⟩
    · exact ih hnext c hc

/-! ## Cutting -/

/-- Texts that stand one after the other, a dot between them, from a byte on. -/
def pieces (start : Nat) : List (List Char) → List Piece
  | [] => []
  | text :: texts => ⟨start, text⟩ :: pieces (start + byteLength text + 1) texts

/-- Texts with a dot in front of each. -/
def dotted (texts : List (List Char)) : List Char := texts.flatMap ('.' :: ·)

theorem intercalate_dot (text : List Char) (texts : List (List Char)) :
    List.intercalate ['.'] (text :: texts) = text ++ dotted texts := by
  induction texts generalizing text with
  | nil => simp [dotted]
  | cons t texts ih =>
    rw [List.intercalate_cons_cons, ih, List.append_assoc]
    rfl

theorem splitFrom_passes {n m : Nesting} {text : List Char} (h : Passes n text m)
    (start position : Nat) (rest : List Char) :
    splitFrom n start position (text ++ rest) =
      (splitFrom m start (position + byteLength text) rest).map
        fun cut => (text ++ cut.1, cut.2) := by
  induction h generalizing position with
  | @nil n =>
    rw [List.nil_append, Text.byteLength_nil, Nat.add_zero]
    cases splitFrom n start position rest <;> rfl
  | @cons n n' m c cs hdot hstep _ ih =>
    rw [List.cons_append, splitFrom, if_neg hdot, hstep, Text.byteLength_cons, ← Nat.add_assoc]
    simp only [ih]
    cases splitFrom m start (position + c.utf8Size + byteLength cs) rest <;> rfl

theorem splitFrom_dotted {texts : List (List Char)} (h : ∀ t ∈ texts, Passes .top t .top)
    (start position : Nat) :
    splitFrom .top start position (dotted texts) = .ok ([], pieces (position + 1) texts) := by
  induction texts generalizing start position with
  | nil => rfl
  | cons t texts ih =>
    have hrest := ih (fun u hu => h u (.tail _ hu)) (position + 1)
      (position + 1 + byteLength t)
    have hfirst : splitFrom .top (position + 1) (position + 1) (t ++ dotted texts) =
        .ok (t, pieces (position + 1 + byteLength t + 1) texts) := by
      rw [splitFrom_passes (h t (.head _)), hrest, Except.map, List.append_nil]
    change splitFrom .top start position ('.' :: (t ++ dotted texts)) = _
    rw [splitFrom, if_pos ⟨rfl, rfl⟩, hfirst]
    rfl

theorem exists_of_splitFrom {n : Nesting} {start position : Nat} {cs text : List Char}
    {ps : List Piece} (h : splitFrom n start position cs = .ok (text, ps)) :
    ∃ texts, ps = pieces (position + byteLength text + 1) texts ∧ cs = text ++ dotted texts ∧
      Passes n text .top ∧ ∀ t ∈ texts, Passes .top t .top := by
  induction cs generalizing n start position text ps with
  | nil =>
    rw [splitFrom] at h
    split at h
    · next htop =>
      cases h
      rw [(Nesting.isTop_iff n).mp htop]
      exact ⟨[], rfl, rfl, .nil, fun t ht => nomatch ht⟩
    · cases h
  | cons c cs ih =>
    rw [splitFrom] at h
    split at h
    · next hdot =>
      obtain ⟨rfl, htop⟩ := hdot
      obtain rfl := (Nesting.isTop_iff n).mp htop
      obtain ⟨⟨t, ps'⟩, hrest, h⟩ := bind_eq_ok_iff.mp h
      cases pure_eq_ok_iff.mp h
      obtain ⟨texts, rfl, rfl, hpass, hall⟩ := ih hrest
      refine ⟨t :: texts, rfl, rfl, .nil, ?_⟩
      intro u hu
      rcases List.mem_cons.mp hu with rfl | hu
      · exact hpass
      · exact hall u hu
    · next hdot =>
      split at h
      · cases h
      · next n' hstep =>
        obtain ⟨⟨t, ps'⟩, hrest, h⟩ := bind_eq_ok_iff.mp h
        cases pure_eq_ok_iff.mp h
        obtain ⟨texts, rfl, rfl, hpass, hall⟩ := ih hrest
        refine ⟨texts, ?_, rfl, .cons hdot hstep hpass, hall⟩
        rw [Text.byteLength_cons, ← Nat.add_assoc]

/-- The first reading accepts texts joined by dots, none of which has a dot of its own at the top,
and answers with these texts. -/
theorem split_eq_ok_iff {path : List Char} {ps : List Piece} :
    split path = .ok ps ↔
      ∃ texts, texts ≠ [] ∧ ps = pieces 0 texts ∧ path = List.intercalate ['.'] texts ∧
        ∀ t ∈ texts, Passes .top t .top := by
  constructor
  · intro h
    obtain ⟨⟨text, ps'⟩, hsplit, h⟩ := bind_eq_ok_iff.mp h
    cases pure_eq_ok_iff.mp h
    obtain ⟨texts, rfl, rfl, hpass, hall⟩ := exists_of_splitFrom hsplit
    refine ⟨text :: texts, List.cons_ne_nil _ _, rfl, (intercalate_dot _ _).symm, ?_⟩
    intro u hu
    rcases List.mem_cons.mp hu with rfl | hu
    · exact hpass
    · exact hall u hu
  · intro h
    obtain ⟨texts, hne, rfl, rfl, hall⟩ := h
    cases texts with
    | nil => exact absurd rfl hne
    | cons text texts =>
      rw [intercalate_dot, split, splitFrom_passes (hall text (.head _)),
        splitFrom_dotted fun u hu => hall u (.tail _ hu)]
      simp [Except.map, pieces, bind, Except.bind, pure, Except.pure]

end ScriptTree.Path
