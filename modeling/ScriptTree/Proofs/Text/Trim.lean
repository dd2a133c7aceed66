import Mathlib.Data.List.DropRight
import ScriptTree.Proofs.Text.Span
import ScriptTree.Text.Blank

/-!
# Trimmed texts

A text without blanks at its ends is what trimming leaves of it however many blanks are put around
it, and every text is its trimmed form with blanks around it. For a text of blanks only the trimmed
form is empty.
-/
namespace ScriptTree.Text

/-- Nothing but blanks. -/
def Blanks (cs : List Char) : Prop := ∀ c ∈ cs, isBlank c = true

/-- Neither the first nor the last character is a blank. -/
structure Trimmed (cs : List Char) : Prop where
  first : EndsRow isBlank cs
  last : ∀ c ∈ cs.getLast?, isBlank c = false

theorem Blanks.nil : Blanks [] := fun _ h => nomatch h

theorem Blanks.reverse {cs : List Char} (h : Blanks cs) : Blanks cs.reverse :=
  fun c hc => h c (List.mem_reverse.mp hc)

theorem trimmed_of_forall {cs : List Char} (h : ∀ c ∈ cs, isBlank c = false) : Trimmed cs where
  first := fun c hc => h c (List.mem_of_mem_head? hc)
  last := fun c hc => h c (List.mem_of_getLast? hc)

/-- The visible ASCII characters are no blanks. -/
theorem isBlank_eq_false_of_visible {c : Char} (h : 33 ≤ c.toNat ∧ c.toNat ≤ 126) :
    isBlank c = false := by
  cases hblank : isBlank c with
  | false => rfl
  | true =>
    obtain ⟨r, hr, hlo, hhi⟩ := (isBlank_iff c).mp hblank
    have hoff : ∀ r ∈ blankRanges, r.2 < 33 ∨ 126 < r.1 := by decide
    have := hoff r hr
    omega

theorem trimEnd_append {cs post : List Char} (hpost : Blanks post)
    (hcs : ∀ c ∈ cs.getLast?, isBlank c = false) : trimEnd (cs ++ post) = cs := by
  have hfirst : EndsRow isBlank cs.reverse := by
    intro c hc
    rw [List.head?_reverse] at hc
    exact hcs c hc
  rw [trimEnd, List.reverse_append, dropWhile_row hpost.reverse hfirst, List.reverse_reverse]

/-- Trimming removes the blanks around a text and no more. -/
theorem trim_append {pre cs post : List Char} (hpre : Blanks pre) (hcs : Trimmed cs)
    (hpost : Blanks post) : trim (pre ++ (cs ++ post)) = cs := by
  cases hne : cs with
  | nil =>
    have hall : ∀ c ∈ pre ++ post, isBlank c = true := by
      intro c hc
      rcases List.mem_append.mp hc with h | h
      · exact hpre c h
      · exact hpost c h
    rw [List.nil_append, trim, List.dropWhile_eq_nil_iff.mpr hall]
    rfl
  | cons c rest =>
    have hfirst : EndsRow isBlank (cs ++ post) := by
      intro d hd
      apply hcs.first
      rw [hne] at hd ⊢
      exact hd
    rw [← hne, trim, dropWhile_row hpre hfirst, trimEnd_append hpost hcs.last]

theorem exists_trimEnd (cs : List Char) :
    ∃ post, Blanks post ∧ cs = trimEnd cs ++ post ∧ ∀ c ∈ (trimEnd cs).getLast?, isBlank c = false := by
  refine ⟨(cs.reverse.takeWhile isBlank).reverse, ?_, ?_, ?_⟩
  · intro c hc
    exact List.mem_takeWhile_imp (List.mem_reverse.mp hc)
  · rw [trimEnd, ← List.reverse_append, List.takeWhile_append_dropWhile, List.reverse_reverse]
  · intro c hc
    rw [trimEnd, List.getLast?_reverse] at hc
    have h := List.head?_dropWhile_not isBlank cs.reverse
    rw [Option.mem_def.mp hc] at h
    simpa using h

/-- A text is its trimmed form with blanks around it. -/
theorem exists_trim (cs : List Char) :
    ∃ pre post, Blanks pre ∧ Blanks post ∧ cs = pre ++ (trim cs ++ post) ∧ Trimmed (trim cs) := by
  obtain ⟨post, hpost, heq, hlast⟩ := exists_trimEnd (cs.dropWhile isBlank)
  refine ⟨cs.takeWhile isBlank, post, ?_, hpost, ?_, ?_, hlast⟩
  · exact fun c hc => List.mem_takeWhile_imp hc
  · rw [trim, ← heq, List.takeWhile_append_dropWhile]
  · intro c hc
    -- The first character of the trimmed form is the first one that is left of the text.
    have hfirst : c ∈ (cs.dropWhile isBlank).head? := by
      rw [heq, List.head?_append]
      rw [trim] at hc
      rw [Option.mem_def.mp hc]
      rfl
    have h := List.head?_dropWhile_not isBlank cs
    rw [Option.mem_def.mp hfirst] at h
    simpa using h

/-- What trimming leaves of a text is the one trimmed text that makes it up with blanks around. -/
theorem trim_eq_iff {cs ds : List Char} :
    trim cs = ds ↔
      Trimmed ds ∧ ∃ pre post, Blanks pre ∧ Blanks post ∧ cs = pre ++ (ds ++ post) := by
  constructor
  · rintro rfl
    obtain ⟨pre, post, hpre, hpost, heq, htrimmed⟩ := exists_trim cs
    exact ⟨htrimmed, pre, post, hpre, hpost, heq⟩
  · intro h
    obtain ⟨htrimmed, pre, post, hpre, hpost, rfl⟩ := h
    exact trim_append hpre htrimmed hpost

end ScriptTree.Text
