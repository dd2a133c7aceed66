import Mathlib.Data.List.Basic

/-!
# Joined texts

A joined text is at least as long as each text in it, and at least as long as there are separators
in it. Readers that count their rounds by the length of the text rest on both. No character comes
into it from elsewhere, nor does one come from elsewhere into the pieces of a text that is cut.
-/
namespace ScriptTree.Text

theorem length_le_intercalate (sep : List Char) {ts : List (List Char)} {t : List Char}
    (ht : t ∈ ts) : t.length ≤ (List.intercalate sep ts).length := by
  induction ts with
  | nil => cases ht
  | cons u ts ih =>
    cases ts with
    | nil =>
      obtain rfl := List.mem_singleton.mp ht
      simp
    | cons v ts =>
      simp only [List.intercalate_cons_cons, List.length_append] at ih ⊢
      rcases List.mem_cons.mp ht with rfl | ht
      · omega
      · have := ih ht
        omega

theorem count_le_intercalate {sep : List Char} (hsep : sep ≠ []) (ts : List (List Char)) :
    ts.length ≤ (List.intercalate sep ts).length + 1 := by
  have hpos : 0 < sep.length := List.length_pos_of_ne_nil hsep
  induction ts with
  | nil => exact Nat.zero_le _
  | cons t ts ih =>
    cases ts with
    | nil => simp
    | cons u ts =>
      simp only [List.intercalate_cons_cons, List.length_append, List.length_cons] at ih ⊢
      omega

/-- A joined text is made of the characters of its parts and of the separator. -/
theorem mem_intercalate {sep : List Char} {ts : List (List Char)} {c : Char}
    (h : c ∈ List.intercalate sep ts) : c ∈ sep ∨ ∃ t ∈ ts, c ∈ t := by
  induction ts with
  | nil => simp at h
  | cons t ts ih =>
    cases ts with
    | nil => exact .inr ⟨t, .head _, by simpa using h⟩
    | cons u ts =>
      rw [List.intercalate_cons_cons, List.append_assoc, List.mem_append, List.mem_append] at h
      rcases h with h | h | h
      · exact .inr ⟨t, .head _, h⟩
      · exact .inl h
      · rcases ih h with h | ⟨v, hv, hc⟩
        · exact .inl h
        · exact .inr ⟨v, .tail _ hv, hc⟩

/-- A joined text begins with its first part. -/
theorem exists_intercalate_cons (sep t : List Char) (ts : List (List Char)) :
    ∃ more, List.intercalate sep (t :: ts) = t ++ more := by
  cases ts with
  | nil => exact ⟨[], by rw [List.intercalate_singleton, List.append_nil]⟩
  | cons u ts =>
    rw [List.intercalate_cons_cons, List.append_assoc]
    exact ⟨_, rfl⟩

/-- The pieces of a text do not hold the character at which it is cut, and no new ones. -/
theorem of_mem_splitOn {c d : Char} {cs piece : List Char} (h : piece ∈ cs.splitOn c)
    (hd : d ∈ piece) : d ≠ c ∧ d ∈ cs := by
  induction cs generalizing piece with
  | nil =>
    rw [List.splitOn_nil, List.mem_singleton] at h
    rw [h] at hd
    cases hd
  | cons x cs ih =>
    have hlater {piece : List Char} (h : piece ∈ cs.splitOn c) (hd : d ∈ piece) :
        d ≠ c ∧ d ∈ x :: cs := (ih h hd).imp_right (.tail x)
    rw [List.splitOn_cons_eq_if_modifyHead] at h
    split at h
    · rcases List.mem_cons.mp h with rfl | h
      · cases hd
      · exact hlater h hd
    · next hx =>
      obtain ⟨first, rest, hpieces⟩ := List.exists_cons_of_ne_nil (List.splitOn_ne_nil c cs)
      have hfirst : first ∈ cs.splitOn c := by
        rw [hpieces]
        exact .head _
      have hrest : ∀ u ∈ rest, u ∈ cs.splitOn c := by
        rw [hpieces]
        exact fun u hu => .tail _ hu
      rw [hpieces, List.modifyHead_cons] at h
      rcases List.mem_cons.mp h with rfl | h
      · rcases List.mem_cons.mp hd with rfl | hd
        · exact ⟨fun heq => hx (beq_iff_eq.mpr heq), .head _⟩
        · exact hlater hfirst hd
      · exact hlater (hrest piece h) hd

/-- Texts that each end in a character are cut at it into these texts, and nothing is left. -/
theorem splitOn_flatMap_concat {c : Char} {ts : List (List Char)} (h : ∀ t ∈ ts, c ∉ t) :
    (ts.flatMap (· ++ [c])).splitOn c = ts ++ [[]] := by
  induction ts with
  | nil => rfl
  | cons t ts ih =>
    obtain ⟨ht, hts⟩ := List.forall_mem_cons.mp h
    rw [List.flatMap_cons, List.append_assoc, List.singleton_append,
      List.splitOn_append_cons_self_of_not_mem ht, ih hts]
    rfl

/-- A text is cut in one way at the last place of a character. -/
theorem append_cons_inj_of_not_mem {c : Char} {as bs cs ds : List Char} (hbs : c ∉ bs)
    (hds : c ∉ ds) (h : as ++ c :: bs = cs ++ c :: ds) : as = cs ∧ bs = ds := by
  rcases List.append_eq_append_iff.mp h with ⟨ms, hcs, hms⟩ | ⟨ms, has, hms⟩
  · cases ms with
    | nil => exact ⟨by rw [hcs, List.append_nil], (List.cons.inj hms).2⟩
    | cons m ms =>
      rw [(List.cons.inj hms).2] at hbs
      exact absurd (List.mem_append_right _ (.head _)) hbs
  · cases ms with
    | nil => exact ⟨by rw [has, List.append_nil], (List.cons.inj hms).2.symm⟩
    | cons m ms =>
      rw [(List.cons.inj hms).2] at hds
      exact absurd (List.mem_append_right _ (.head _)) hds

end ScriptTree.Text
