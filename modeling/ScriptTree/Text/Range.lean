/-!
# Classes of characters by range

A class of characters is written as an ascending table of inclusive ranges of code points. The
search stops at the first range that begins above the code point, so that a question about a low
code point looks at a few entries only. `inRanges_iff` says that this is membership in one of the
ranges, for any table that ascends; each table module checks its own table.
-/
namespace ScriptTree.Text

/-- Inclusive ranges of code points, lowest first. -/
abbrev Ranges := List (Nat × Nat)

/-- Every range is non-empty and lies above the one before it. -/
def ascending : Ranges → Bool
  | [] => true
  | [r] => decide (r.1 ≤ r.2)
  | r :: s :: rest => decide (r.1 ≤ r.2) && decide (r.2 < s.1) && ascending (s :: rest)

/-- Whether a code point lies in one of the ranges of an ascending table. -/
def inRanges (n : Nat) : Ranges → Bool
  | [] => false
  | (lo, hi) :: rest => if n < lo then false else if n ≤ hi then true else inRanges n rest

theorem lt_of_ascending {r : Nat × Nat} {rest : Ranges} (h : ascending (r :: rest) = true)
    {s : Nat × Nat} (hs : s ∈ rest) : r.2 < s.1 := by
  induction rest generalizing r with
  | nil => cases hs
  | cons t rest ih =>
    simp only [ascending, Bool.and_eq_true, decide_eq_true_eq] at h
    obtain ⟨⟨_, hrt⟩, ht⟩ := h
    rcases List.mem_cons.mp hs with rfl | hs
    · exact hrt
    · have htt : t.1 ≤ t.2 := by
        cases rest with
        | nil => simpa [ascending] using ht
        | cons _ _ => simp only [ascending, Bool.and_eq_true, decide_eq_true_eq] at ht; exact ht.1.1
      have := ih ht hs
      omega

theorem ascending_tail {r : Nat × Nat} {rest : Ranges} (h : ascending (r :: rest) = true) :
    ascending rest = true := by
  cases rest with
  | nil => rfl
  | cons _ _ => simp only [ascending, Bool.and_eq_true] at h; exact h.2

/-- On an ascending table the early stop loses nothing. -/
theorem inRanges_iff {t : Ranges} (h : ascending t = true) (n : Nat) :
    inRanges n t = true ↔ ∃ r ∈ t, r.1 ≤ n ∧ n ≤ r.2 := by
  induction t with
  | nil => simp [inRanges]
  | cons r rest ih =>
    obtain ⟨lo, hi⟩ := r
    have hrest := ih (ascending_tail h)
    simp only [inRanges]
    split
    · next hlo =>
      simp only [Bool.false_eq_true, false_iff, List.mem_cons, not_exists, not_and]
      rintro s (rfl | hs) hn
      · simp only at hn; omega
      · have hb := lt_of_ascending h hs
        have hle : lo ≤ hi := by
          cases rest with
          | nil => cases hs
          | cons _ _ =>
            simp only [ascending, Bool.and_eq_true, decide_eq_true_eq] at h; exact h.1.1
        simp only at hb; omega
    · next hlo =>
      split
      · next hhi => simp only [List.mem_cons, true_iff]; exact ⟨_, .inl rfl, by simp only; omega, hhi⟩
      · next hhi =>
        rw [hrest]
        constructor
        · rintro ⟨s, hs, hn⟩; exact ⟨s, .tail _ hs, hn⟩
        · rintro ⟨s, hs, hn⟩
          rcases List.mem_cons.mp hs with rfl | hs
          · simp only at hn; omega
          · exact ⟨s, hs, hn⟩

end ScriptTree.Text
