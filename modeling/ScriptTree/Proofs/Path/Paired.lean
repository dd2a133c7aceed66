import ScriptTree.Proofs.Path.Dots

/-!
# Paths whose brackets are paired

A path is paired if every bracket in it has its partner, where brackets inside the quotes of a
subscript do not count. The scanner that comes to such a path from outside all brackets is outside
all brackets after it, and it comes to be there in no other way: `paired_iff_run`. So a place in a
path is outside all brackets exactly if the path is paired up to there, whatever follows.
-/
namespace ScriptTree.Path

open Text (consFirst consFirst_some consFirst_eq_some_iff)

/-- Characters that are no brackets, and balanced texts in brackets. -/
inductive Paired : List Char → Prop
  | nil : Paired []
  | plain {c : Char} {cs : List Char} (ho : c ≠ '[') (hc : c ≠ ']') (h : Paired cs) :
      Paired (c :: cs)
  | group {inside cs : List Char} (hi : Balanced 0 inside) (h : Paired cs) :
      Paired ('[' :: (inside ++ ']' :: cs))

/-! ## The state of the scanner after a text -/

/-- Where a scanner is after a text, unless it meets a closing bracket without an open one. -/
def Nesting.run (n : Nesting) (cs : List Char) : Option Nesting := cs.foldlM Nesting.step n

theorem Nesting.run_nil (n : Nesting) : n.run [] = some n := rfl

theorem Nesting.run_cons (n : Nesting) (c : Char) (cs : List Char) :
    n.run (c :: cs) = (n.step c).bind fun m => m.run cs := rfl

theorem Nesting.run_append (n : Nesting) (cs ds : List Char) :
    n.run (cs ++ ds) = (n.run cs).bind fun m => m.run ds := List.foldlM_append

/-- A scanner stops only before a closing bracket outside all brackets. -/
theorem Nesting.of_step_eq_none {n : Nesting} {c : Char} (h : n.step c = none) :
    n = .top ∧ c = ']' := by
  obtain ⟨depth, quote⟩ := n
  cases quote with
  | some q => cases h
  | none =>
    simp only [Nesting.step] at h
    split at h
    · cases h
    split at h
    · cases h
    split at h
    · next hc =>
      split at h
      · next hdepth => exact ⟨by rw [hdepth]; rfl, hc⟩
      · cases h
    · cases h

theorem Passes.run {n m : Nesting} {cs : List Char} (h : Passes n cs m) : n.run cs = some m := by
  induction h with
  | nil => rfl
  | cons _ hstep _ ih => rw [Nesting.run_cons, hstep, Option.bind_some, ih]

/-- The scan of a path is one bracket deeper than the scanner of a subscript. One character moves both
alike, unless it is the bracket at which the subscript ends. -/
theorem takeSubscript_cons (depth : Nat) (quote : Option Char) (c : Char) :
    (depth = 0 ∧ quote = none ∧ c = ']' ∧ ∀ cs, takeSubscript depth quote (c :: cs) = some ([], cs)) ∨
      ∃ d q, Nesting.step ⟨depth + 1, quote⟩ c = some ⟨d + 1, q⟩ ∧
        ∀ cs, takeSubscript depth quote (c :: cs) = consFirst c (takeSubscript d q cs) := by
  cases quote with
  | some q =>
    exact .inr ⟨depth, if c = q then none else some q, Nesting.step_hidden _ _ _,
      fun cs => by rw [takeSubscript]⟩
  | none =>
    by_cases hq : isQuote c = true
    · exact .inr ⟨depth, some c, Nesting.step_quote hq, fun cs => by rw [takeSubscript, if_pos hq]⟩
    by_cases ho : c = '['
    · refine .inr ⟨depth + 1, none, by rw [ho, Nesting.step_opening], fun cs => ?_⟩
      rw [takeSubscript, if_neg hq, if_pos ho]
    by_cases hc : c = ']'
    · cases depth with
      | zero =>
        refine .inl ⟨rfl, rfl, hc, fun cs => ?_⟩
        rw [takeSubscript, if_neg hq, if_neg ho, if_pos hc, if_pos rfl]
      | succ depth =>
        refine .inr ⟨depth, none, by rw [hc, Nesting.step_closing], fun cs => ?_⟩
        rw [takeSubscript, if_neg hq, if_neg ho, if_pos hc, if_neg (Nat.succ_ne_zero _),
          Nat.add_sub_cancel]
    · refine .inr ⟨depth, none, Nesting.step_plain (by simpa using hq) ho hc, fun cs => ?_⟩
      rw [takeSubscript, if_neg hq, if_neg ho, if_neg hc]

/-- A scanner that is inside brackets and gets out of all of them meets the end of the subscript. -/
theorem exists_takeSubscript_of_run {depth : Nat} {quote : Option Char} {cs : List Char}
    (h : Nesting.run ⟨depth + 1, quote⟩ cs = some .top) :
    ∃ inside rest, takeSubscript depth quote cs = some (inside, rest) ∧
      Nesting.run .top rest = some .top := by
  induction cs generalizing depth quote with
  | nil =>
    rw [Nesting.run_nil] at h
    cases h
  | cons c cs ih =>
    rw [Nesting.run_cons] at h
    obtain ⟨rfl, rfl, rfl, htake⟩ | ⟨d, q, hstep, htake⟩ := takeSubscript_cons depth quote c
    · exact ⟨[], cs, htake cs, h⟩
    · rw [hstep] at h
      obtain ⟨inside, rest, hmore, hrest⟩ := ih h
      exact ⟨c :: inside, rest, by rw [htake, hmore, consFirst_some], hrest⟩

/-! ## Paired texts -/

theorem Paired.run {cs : List Char} (h : Paired cs) : Nesting.run .top cs = some .top := by
  induction h with
  | nil => rfl
  | plain ho hc _ ih => rw [Nesting.run_cons, Nesting.step_top ho hc, Option.bind_some, ih]
  | group hi _ ih =>
    rw [List.append_cons, ← List.cons_append, Nesting.run_append, hi.passes_brackets.run,
      Option.bind_some, ih]

theorem paired_of_run {cs : List Char} (h : Nesting.run .top cs = some .top) : Paired cs := by
  -- A subscript is passed in one go, so the induction is on the length.
  induction hlen : cs.length using Nat.strongRecOn generalizing cs with
  | ind n ih =>
    subst hlen
    cases cs with
    | nil => exact .nil
    | cons c cs =>
      rw [Nesting.run_cons] at h
      by_cases ho : c = '['
      · rw [ho, Nesting.top, Nesting.step_opening, Option.bind_some] at h
        obtain ⟨inside, rest, htake, hrest⟩ := exists_takeSubscript_of_run h
        obtain ⟨rfl, hi⟩ := takeSubscript_eq_some_iff.mp htake
        rw [ho]
        refine .group hi (ih rest.length ?_ hrest rfl)
        simp only [List.length_cons, List.length_append]
        omega
      by_cases hc : c = ']'
      · rw [hc] at h
        cases h
      · rw [Nesting.step_top ho hc, Option.bind_some] at h
        exact .plain ho hc (ih cs.length (Nat.lt_succ_self _) h rfl)

/-- The paired texts are those that a scanner passes from the top to the top, dots or not. -/
theorem paired_iff_run {cs : List Char} : Paired cs ↔ Nesting.run .top cs = some .top :=
  ⟨Paired.run, paired_of_run⟩

theorem Passes.paired {cs : List Char} (h : Passes .top cs .top) : Paired cs := paired_of_run h.run

/-- After a paired text the rest of a path is read as if nothing stood before it. -/
theorem paired_append_iff {cs ds : List Char} (h : Paired cs) : Paired (cs ++ ds) ↔ Paired ds := by
  rw [paired_iff_run, paired_iff_run, Nesting.run_append, h.run, Option.bind_some]

theorem Paired.dot {cs : List Char} (h : Paired cs) : Paired (cs ++ ['.']) :=
  (paired_append_iff h).mpr (.plain (by decide) (by decide) .nil)

/-- A closing bracket after a paired text has no partner. -/
theorem not_paired_closing {cs ds : List Char} (h : Paired cs) : ¬ Paired (cs ++ ']' :: ds) := by
  rw [paired_append_iff h]
  intro hclosing
  cases hclosing with
  | plain _ hc _ => exact hc rfl

theorem Passes.run_ne_top {n m : Nesting} {cs ds : List Char}
    (h : Passes n (cs ++ '.' :: ds) m) : n.run cs ≠ some .top := by
  induction cs generalizing n with
  | nil =>
    cases h with
    | cons hdot _ _ =>
      intro hrun
      exact hdot ⟨rfl, (Nesting.isTop_iff n).mpr (Option.some.inj hrun)⟩
  | cons c cs ih =>
    cases h with
    | cons _ hstep h =>
      rw [Nesting.run_cons, hstep, Option.bind_some]
      exact ih h

/-- What a scanner passes has no dot outside all brackets. -/
theorem Passes.not_paired_before_dot {m : Nesting} {cs ds : List Char}
    (h : Passes .top (cs ++ '.' :: ds) m) : ¬ Paired cs := fun hcs => h.run_ne_top hcs.run

end ScriptTree.Path
