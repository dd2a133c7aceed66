import ScriptTree.Proofs.Path.Canonical
import ScriptTree.Proofs.Path.Paired

/-!
# Quoted subscripts

What a subscript stands for is told by a rule about its text: an integer text is that integer, one
quoted string is what stands between its quotes, and every other text is itself. The scanner knows
what one quoted string is, since it closes a quote at its next occurrence. The literal of a subscript
is found by a look at the first and the last character only, so it follows the rule except where
several quoted strings stand in one subscript and the outer two quotes are the same, as in
`'a'+'b'`. There the outer quotes go and the inner ones stay.
-/
namespace ScriptTree.Path

/-- The literal that the rule gives to the text of a subscript. -/
inductive Denotes : List Char → Expr → Prop
  | integer {cs : List Char} {n : Int64} (h : Text.readInteger? cs = some n.toInt) :
      Denotes cs (.int n)
  | quoted {q : Char} {inner : List Char} (hq : isQuote q = true) (hinner : q ∉ inner) :
      Denotes (q :: (inner ++ [q])) (.string (String.ofList inner))
  | bare {cs : List Char} (hinteger : Text.readInteger? cs = none)
      (hquoted : ∀ q inner, isQuote q = true → q ∉ inner → cs ≠ q :: (inner ++ [q])) :
      Denotes cs (.string (String.ofList cs))

/-- Two or more quoted strings in one text, the first of which begins and the last of which ends it
with the same quote. -/
def Spliced (cs : List Char) : Prop :=
  ∃ q inner, isQuote q = true ∧ q ∈ inner ∧ cs = q :: (inner ++ [q])

/-- Inside the brackets of a subscript the scanner is in a quoted stretch from the first character of
a text to the last one, and out of it after that. -/
structure ScannedAsOne (q : Char) (cs : List Char) : Prop where
  within : ∀ before after, cs = before ++ after → before ≠ [] → after ≠ [] →
    Nesting.run ⟨1, none⟩ before = some ⟨1, some q⟩
  outside : Nesting.run ⟨1, none⟩ cs = some ⟨1, none⟩

/-! ## What the scanner sees -/

/-- An open quote stays open as long as its character does not occur. -/
theorem run_hidden {q : Char} {hidden : List Char} (h : q ∉ hidden) (depth : Nat) :
    Nesting.run ⟨depth, some q⟩ hidden = some ⟨depth, some q⟩ := by
  induction hidden with
  | nil => rfl
  | cons c hidden ih =>
    have hc : c ≠ q := fun hcq => h (hcq ▸ .head _)
    rw [Nesting.run_cons, Nesting.step_hidden, if_neg hc, Option.bind_some]
    exact ih fun hmem => h (.tail _ hmem)

theorem run_quote {q : Char} (hq : isQuote q = true) (cs : List Char) :
    Nesting.run ⟨1, none⟩ (q :: cs) = Nesting.run ⟨1, some q⟩ cs := by
  rw [Nesting.run_cons, Nesting.step_quote hq, Option.bind_some]

/-- A closing quote ends the stretch. -/
theorem run_closed {q : Char} (hq : isQuote q = true) {hidden : List Char} (h : q ∉ hidden) :
    Nesting.run ⟨1, none⟩ (q :: (hidden ++ [q])) = some ⟨1, none⟩ := by
  rw [run_quote hq, Nesting.run_append, run_hidden h, Option.bind_some, Nesting.run_cons,
    Nesting.step_hidden, if_pos rfl]
  rfl

/-- Between two equal quotes the scanner sees one quoted string exactly if the quote does not occur
there again. -/
theorem scannedAsOne_iff {q : Char} (hq : isQuote q = true) {inner : List Char} :
    ScannedAsOne q (q :: (inner ++ [q])) ↔ q ∉ inner := by
  constructor
  · intro h hmem
    -- After the first occurrence inside, the scanner is out of the quoted stretch too early.
    obtain ⟨hidden, rest, rfl, hfirst⟩ := List.eq_append_cons_of_mem hmem
    have hsplit : q :: (hidden ++ q :: rest ++ [q]) = q :: (hidden ++ [q]) ++ (rest ++ [q]) := by
      simp
    have hopen := h.within _ _ hsplit (List.cons_ne_nil _ _) (by simp)
    rw [run_closed hq hfirst] at hopen
    cases hopen
  · intro hinner
    refine ⟨?_, run_closed hq hinner⟩
    intro before after hsplit hbefore hafter
    obtain ⟨c, hidden, rfl⟩ := List.exists_cons_of_ne_nil hbefore
    obtain ⟨after, d, rfl⟩ := (List.eq_nil_or_concat' after).resolve_left hafter
    rw [List.cons_append, ← List.append_assoc] at hsplit
    obtain ⟨rfl, hrest⟩ := List.cons.inj hsplit
    obtain ⟨rfl, -⟩ := List.append_inj' hrest rfl
    rw [run_quote hq]
    exact run_hidden (fun hmem => hinner (List.mem_append_left _ hmem)) 1

/-! ## What the literal keeps -/

theorem exists_delimiter {q : Char} (hq : isQuote q = true) : ∃ o : QuoteStyle, o.delimiter = q := by
  simp only [isQuote, Bool.or_eq_true, beq_iff_eq] at hq
  rcases hq with rfl | rfl
  · exact ⟨.double, rfl⟩
  · exact ⟨.single, rfl⟩

/-- Equal quotes at the two ends of a subscript go, whatever stands between them. -/
theorem indexLiteral_of_quotes {q : Char} (hq : isQuote q = true) {inner : List Char} {i : String}
    (hi : i.toList = q :: (inner ++ [q])) : indexLiteral i = .string (String.ofList inner) := by
  obtain ⟨o, rfl⟩ := exists_delimiter hq
  rw [indexLiteral, hi, readInteger?_quoted, unquote_quoted]
  rfl

theorem unquote_of_ne {cs : List Char}
    (h : ∀ q inner, isQuote q = true → cs ≠ q :: (inner ++ [q])) : unquote cs = cs := by
  cases cs with
  | nil => rfl
  | cons q rest =>
    rw [unquote]
    split
    · next hends =>
      obtain ⟨hq, hlast⟩ := hends
      have hrest := List.dropLast_append_getLast? q (Option.mem_def.mpr hlast)
      exact absurd (congrArg (q :: ·) hrest.symm) (h q rest.dropLast hq)
    · rfl

/-- A text that is no integer and does not stand between equal quotes stays as it is. -/
theorem indexLiteral_of_bare {i : String} (hinteger : Text.readInteger? i.toList = none)
    (h : ∀ q inner, isQuote q = true → i.toList ≠ q :: (inner ++ [q])) :
    indexLiteral i = .string i := by
  rw [indexLiteral, hinteger, unquote_of_ne h, String.ofList_toList]
  rfl

/-- A valid integer text fits 64 bits, so the literal is the integer that it denotes. -/
theorem ValidIndex.exists_int {i : String} (h : ValidIndex i.toList) {n : Int}
    (hn : Text.readInteger? i.toList = some n) :
    ∃ k : Int64, k.toInt = n ∧ indexLiteral i = .int k := by
  have hdefect := (indexDefect?_eq_none_iff h.trimmed h.balanced).mpr h
  rw [indexDefect?, if_neg h.nonempty, hn] at hdefect
  cases hk : Text.int64? n with
  | none => simp [hk] at hdefect
  | some k =>
    refine ⟨k, (Text.int64?_eq_some_iff.mp hk).symm, ?_⟩
    rw [indexLiteral, hn, Option.bind_some, hk]

theorem ValidIndex.denotes_integer {i : String} (h : ValidIndex i.toList) {n : Int}
    (hn : Text.readInteger? i.toList = some n) : Denotes i.toList (indexLiteral i) := by
  obtain ⟨k, rfl, hliteral⟩ := h.exists_int hn
  rw [hliteral]
  exact .integer hn

/-! ## Where the literal follows the rule -/

/-- Between equal quotes the rule looks for another occurrence of the quote. -/
theorem Denotes.between_quotes {q : Char} (hq : isQuote q = true) {inner : List Char} {e : Expr}
    (h : Denotes (q :: (inner ++ [q])) e) :
    (q ∉ inner ∧ e = .string (String.ofList inner)) ∨
      e = .string (String.ofList (q :: (inner ++ [q]))) := by
  generalize htext : q :: (inner ++ [q]) = cs at h
  cases h with
  | integer hread =>
    obtain ⟨o, rfl⟩ := exists_delimiter hq
    rw [← htext, readInteger?_quoted] at hread
    cases hread
  | quoted _ hinner =>
    obtain ⟨rfl, hsame⟩ := List.cons.inj htext
    obtain ⟨rfl, -⟩ := List.append_inj' hsame rfl
    exact .inl ⟨hinner, rfl⟩
  | bare _ _ => exact .inr rfl

/-- The rule keeps the outer quotes of a spliced text, the literal drops them. -/
theorem not_denotes_of_spliced {i : String} (h : Spliced i.toList) :
    ¬ Denotes i.toList (indexLiteral i) := by
  obtain ⟨q, inner, hq, hmem, hi⟩ := h
  rw [indexLiteral_of_quotes hq hi, hi]
  intro hdenotes
  rcases hdenotes.between_quotes hq with ⟨hinner, -⟩ | hwhole
  · exact hinner hmem
  · rw [Expr.string, Expr.string, Expr.literal.injEq, Literal.string.injEq,
      String.ofList_inj] at hwhole
    have hlength := congrArg List.length hwhole
    simp only [List.length_cons, List.length_append, List.length_nil] at hlength
    omega

theorem ValidIndex.denotes {i : String} (h : ValidIndex i.toList) (hspliced : ¬ Spliced i.toList) :
    Denotes i.toList (indexLiteral i) := by
  cases hn : Text.readInteger? i.toList with
  | some n => exact h.denotes_integer hn
  | none =>
    by_cases hquotes : ∃ q inner, isQuote q = true ∧ i.toList = q :: (inner ++ [q])
    · obtain ⟨q, inner, hq, hi⟩ := hquotes
      have hinner : q ∉ inner := fun hmem => hspliced ⟨q, inner, hq, hmem, hi⟩
      rw [indexLiteral_of_quotes hq hi, hi]
      exact .quoted hq hinner
    · have hbare : ∀ q inner, isQuote q = true → i.toList ≠ q :: (inner ++ [q]) :=
        fun q inner hq hi => hquotes ⟨q, inner, hq, hi⟩
      have hrule := Denotes.bare hn fun q inner hq _ => hbare q inner hq
      rw [String.ofList_toList] at hrule
      rwa [indexLiteral_of_bare hn hbare]

/-- A subscript of a path stands for what the rule says exactly if its text is not spliced. Where the
literal loses two quotes, the scanner saw one quoted string exactly if the quote does not occur
between them; where it loses none and the text is no integer, the literal is the text. -/
theorem indexLiteral_follows_rule_iff (path : String) (ss : List Segment) (hread : read path = .ok ss)
    (s : Segment) (hs : s ∈ ss) (i : String) (hi : i ∈ s.indices) :
    (Denotes i.toList (indexLiteral i) ↔ ¬ Spliced i.toList) ∧
      (∀ q inner, isQuote q = true → i.toList = q :: (inner ++ [q]) →
        indexLiteral i = .string (String.ofList inner) ∧
          (ScannedAsOne q i.toList ↔ q ∉ inner)) ∧
      (Text.readInteger? i.toList = none →
        (∀ q inner, isQuote q = true → i.toList ≠ q :: (inner ++ [q])) →
          indexLiteral i = .string i) := by
  have hvalid : ValidIndex i.toList := ((valid_of_read hread).2 s hs).indices i hi
  refine ⟨?_, ?_, ?_⟩
  · exact ⟨fun h hspliced => not_denotes_of_spliced hspliced h, hvalid.denotes⟩
  · intro q inner hq hquotes
    refine ⟨indexLiteral_of_quotes hq hquotes, ?_⟩
    rw [hquotes]
    exact scannedAsOne_iff hq
  · exact fun hinteger hquotes => indexLiteral_of_bare hinteger hquotes

/-- The sum of two quoted strings reads as one subscript and loses its first and its last quote,
though the scanner is out of the quotes in between. -/
theorem indexLiteral_of_splicedSum :
    read "table.cells['a'+'b']" = .ok [⟨"table", []⟩, ⟨"cells", ["'a'+'b'"]⟩] ∧
      indexLiteral "'a'+'b'" = .string "a'+'b" ∧
      '\'' ∈ "a'+'b".toList ∧
      Nesting.run ⟨1, none⟩ "'a'".toList = some ⟨1, none⟩ ∧
      expr "table.cells['a'+'b']" =
        .ok (.subscript (.attr (.ofName "table") ⟨"cells"⟩) (.string "a'+'b")) := by
  decide +kernel

/-- A path with a quoted subscript that holds the other quote, and a spliced one. -/
def quotedPath : String := "table['it\"s']['a'+'b']"

theorem indexLiteral_follows_rule_quotedPath :
    read quotedPath = .ok [⟨"table", ["'it\"s'", "'a'+'b'"]⟩] ∧
      (Denotes "'it\"s'".toList (indexLiteral "'it\"s'") ↔ ¬ Spliced "'it\"s'".toList) ∧
      Spliced "'a'+'b'".toList ∧
      ¬ Denotes "'a'+'b'".toList (indexLiteral "'a'+'b'") := by
  have hread : read quotedPath = .ok [⟨"table", ["'it\"s'", "'a'+'b'"]⟩] := by decide +kernel
  have hspliced : Spliced "'a'+'b'".toList := ⟨'\'', "a'+'b".toList, by decide, by decide, by decide⟩
  refine ⟨hread, ?_, hspliced, ?_⟩
  · exact (indexLiteral_follows_rule_iff _ _ hread _ (.head _) _ (.head _)).1
  · intro hdenotes
    exact (indexLiteral_follows_rule_iff _ _ hread _ (.head _) _ (.tail _ (.head _))).1.mp hdenotes
      hspliced

end ScriptTree.Path
