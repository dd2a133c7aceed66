import ScriptTree.Proofs.Path.Defects
import ScriptTree.Proofs.Path.Quotation
import ScriptTree.Proofs.Text.Counts

/-!
# Checks that cannot fail after the first reading

Some things are checked of a path that its first reading has already settled, or a check before. The
end of a subscript is looked for by a scanner of its own, which begins inside the bracket and sees
quotes from there on. It marches in step with the scan of the whole path, one bracket behind it, so
it finds an end, and the one at which the scan gets back out of the brackets. A path that can be read
has a segment, and one is enough for a tree. An integer that does not fit 64 bits is refused before
its literal is made.
-/
namespace ScriptTree.Path

open Text (byteLength byteLength_append consFirst_eq_some_iff Digits placeValue)
open Outcome (bind_eq_ok_iff bind_eq_error_iff mapError_eq_error_iff)

/-! ## Where the reader of a piece looks for the end of a subscript -/

/-- The loop over the subscripts of a piece gets from a text to a later one. The numbers are the bytes
of the path at which the two begin. -/
inductive Advances : Nat → List Char → Nat → List Char → Prop
  | here {position : Nat} {cs : List Char} : Advances position cs position cs
  | round {position position' : Nat} {inner inside rest cs : List Char}
      (htake : takeSubscript 0 none inner = some (inside, rest))
      (hindex : indexDefect? (Text.trim inside) = none)
      (h : Advances (position + (byteLength inside + 2)) rest position' cs) :
      Advances position ('[' :: inner) position' cs

/-- The loop looks for the end of a subscript in what follows an opening bracket at a byte. -/
def Piece.LooksInto (p : Piece) (position : Nat) (inner : List Char) : Prop :=
  p.text.takeWhile (· ≠ '[') ≠ [] ∧
    Advances (p.offset + byteLength (p.text.takeWhile (· ≠ '['))) (p.text.dropWhile (· ≠ '['))
      position ('[' :: inner)

/-- The loop fails for want of a closing bracket only where it looks for one and there is none. -/
theorem exists_of_subscripts_unclosed {position : Nat} {cs : List Char} {span : Span}
    (h : subscripts position cs = .error ⟨.unclosedSubscript, span⟩) :
    ∃ position' inner, Advances position cs position' ('[' :: inner) ∧
      takeSubscript 0 none inner = none := by
  fun_induction subscripts position cs with
  | case1 => cases h
  | case2 position inner hnone => exact ⟨position, inner, .here, hnone⟩
  | case3 position inner inside rest htake index group defect hdefect =>
    obtain ⟨rfl, -⟩ := Fault.mk.inj (Except.error.inj h)
    obtain ⟨hempty, -⟩ | ⟨hrange, -⟩ := of_indexDefect?_eq_some hdefect
    · cases hempty
    · cases hrange
  | case4 position inner inside rest htake index group hindex ih =>
    obtain h | ⟨_, _, h⟩ := bind_eq_error_iff.mp h
    · obtain ⟨position', inner', hadvances, hnone⟩ := ih h
      exact ⟨position', inner', .round htake hindex hadvances, hnone⟩
    · cases h
  | case5 => cases h

theorem exists_of_ofPiece_unclosed {p : Piece} {span : Span}
    (h : Segment.ofPiece p = .error ⟨.unclosedSubscript, span⟩) :
    ∃ position inner, p.LooksInto position inner ∧ takeSubscript 0 none inner = none := by
  rw [Segment.ofPiece] at h
  split at h
  · cases h
  next hname =>
  obtain h | ⟨_, _, h⟩ := bind_eq_error_iff.mp h
  · obtain ⟨position, inner, hadvances, hnone⟩ := exists_of_subscripts_unclosed h
    exact ⟨position, inner, ⟨hname, hadvances⟩, hnone⟩
  · cases h

/-! ## The scan of the path -/

theorem exists_splitFrom_of_run {n : Nesting} {cs : List Char} (h : n.run cs = some .top)
    (start position : Nat) : ∃ cut, splitFrom n start position cs = .ok cut := by
  induction cs generalizing n start position with
  | nil =>
    obtain rfl := Option.some.inj h
    exact ⟨_, rfl⟩
  | cons c cs ih =>
    rw [Nesting.run_cons] at h
    rw [splitFrom]
    split
    · next hdot =>
      -- The reading does not step over a dot that separates, and the step would lead nowhere.
      obtain ⟨rfl, htop⟩ := hdot
      obtain rfl := (Nesting.isTop_iff n).mp htop
      obtain ⟨cut, hcut⟩ := ih h (position + 1) (position + 1)
      exact ⟨_, by rw [hcut]; rfl⟩
    · cases hstep : n.step c with
      | none =>
        rw [hstep] at h
        cases h
      | some m =>
        rw [hstep] at h
        obtain ⟨cut, hcut⟩ := ih h start (position + c.utf8Size)
        exact ⟨_, by simp only [hcut]; rfl⟩

/-- The first reading accepts a path if it is outside all brackets at the end. -/
theorem exists_split_iff (path : List Char) :
    (∃ ps, split path = .ok ps) ↔ Nesting.run .top path = some .top := by
  constructor
  · intro h
    obtain ⟨ps, h⟩ := h
    exact (paired_of_split h).run
  · intro h
    obtain ⟨cut, hcut⟩ := exists_splitFrom_of_run h 0 0
    exact ⟨_, by rw [split, hcut]; rfl⟩

/-! ## The two scanners -/

/-- After each part of a subscript the scan of the path is one bracket deeper than the scanner of the
subscript, which takes the other part. -/
theorem run_of_takeSubscript {depth : Nat} {quote : Option Char} {x y rest : List Char}
    (h : takeSubscript depth quote (x ++ (y ++ ']' :: rest)) = some (x ++ y, rest)) :
    ∃ d q, Nesting.run ⟨depth + 1, quote⟩ x = some ⟨d + 1, q⟩ ∧
      takeSubscript d q (y ++ ']' :: rest) = some (y, rest) := by
  induction x generalizing depth quote with
  | nil => exact ⟨depth, quote, rfl, h⟩
  | cons c x ih =>
    obtain ⟨-, -, -, htake⟩ | ⟨d, q, hstep, htake⟩ := takeSubscript_cons depth quote c
    · rw [List.cons_append, htake] at h
      cases h
    · rw [List.cons_append, htake] at h
      obtain ⟨inside, hmore, hinside⟩ := consFirst_eq_some_iff.mp h
      obtain rfl := (List.cons.inj hinside).2
      rw [Nesting.run_cons, hstep, Option.bind_some]
      exact ih hmore

/-- The scan of a path is outside all brackets before a subscript and after it and nowhere between. -/
structure ReturnsAfter (before inside : List Char) : Prop where
  opens : Nesting.run .top before = some .top
  within : ∀ x y, inside = x ++ y →
    ∃ n, Nesting.run .top (before ++ '[' :: x) = some n ∧ 0 < n.depth
  closes : Nesting.run .top (before ++ '[' :: (inside ++ [']'])) = some .top

theorem run_opening {before : List Char} (h : Nesting.run .top before = some .top)
    (cs : List Char) : Nesting.run .top (before ++ '[' :: cs) = Nesting.run ⟨1, none⟩ cs := by
  rw [Nesting.run_append, h, Option.bind_some, Nesting.run_cons, Nesting.top, Nesting.step_opening,
    Option.bind_some]

/-- The scanner of a subscript stops where the scan of the path gets back out of the brackets. -/
theorem returnsAfter_of_takeSubscript {before inner inside rest : List Char}
    (hbefore : Nesting.run .top before = some .top)
    (h : takeSubscript 0 none inner = some (inside, rest)) : ReturnsAfter before inside := by
  rw [takeSubscript_eq h] at h
  refine ⟨hbefore, ?_, ?_⟩
  · intro x y hxy
    rw [hxy, List.append_assoc] at h
    obtain ⟨d, q, hrun, -⟩ := run_of_takeSubscript h
    exact ⟨⟨d + 1, q⟩, by rw [run_opening hbefore, hrun], Nat.succ_pos d⟩
  · rw [← List.append_nil inside, List.append_assoc] at h
    obtain ⟨d, q, hrun, hend⟩ := run_of_takeSubscript h
    rw [run_opening hbefore, Nesting.run_append, hrun, Option.bind_some]
    -- The scanner has taken all that it takes, so the bracket before it is the one it looks for.
    obtain ⟨rfl, rfl, -, -⟩ | ⟨d', q', -, htake⟩ := takeSubscript_cons d q ']'
    · rfl
    · rw [List.nil_append, htake] at hend
      obtain ⟨_, -, hcons⟩ := consFirst_eq_some_iff.mp hend
      cases hcons

/-! ## The places of the loop in the path -/

/-- What the loop has passed of a paired text is paired, and so is what is left. -/
theorem Advances.paired {position position' : Nat} {cs cs' : List Char}
    (h : Advances position cs position' cs') (hcs : Paired cs) :
    ∃ passed, cs = passed ++ cs' ∧ position' = position + byteLength passed ∧ Paired passed ∧
      Paired cs' := by
  induction h with
  | here => exact ⟨[], rfl, rfl, .nil, hcs⟩
  | @round position position' inner inside rest cs' htake _ _ ih =>
    cases hcs with
    | plain ho _ _ => exact absurd rfl ho
    | @group inside' rest' hi hrest =>
      -- The balanced text that comes first is what the scanner takes.
      rw [takeSubscript_balanced hi] at htake
      cases htake
      obtain ⟨passed, rfl, rfl, hpassed, hleft⟩ := ih hrest
      refine ⟨'[' :: (inside ++ ']' :: passed), by simp, ?_, .group hi hpassed, hleft⟩
      rw [byteLength_bracketed, Nat.add_assoc]

/-- Before a piece the path is paired, and the piece begins at the byte that it says. -/
theorem exists_of_mem_pieces {start : Nat} {texts : List (List Char)} {p : Piece}
    (hall : ∀ t ∈ texts, Passes .top t .top) (hp : p ∈ pieces start texts) :
    ∃ lead after, List.intercalate ['.'] texts = lead ++ (p.text ++ after) ∧
      p.offset = start + byteLength lead ∧ Paired lead ∧ Passes .top p.text .top := by
  induction texts generalizing start with
  | nil => cases hp
  | cons text texts ih =>
    obtain ⟨htext, htexts⟩ := List.forall_mem_cons.mp hall
    rw [pieces] at hp
    obtain rfl | hp := List.mem_cons.mp hp
    · exact ⟨[], dotted texts, intercalate_dot text texts, rfl, .nil, htext⟩
    · obtain ⟨lead, after, hpath, hoffset, hlead, hpass⟩ := ih htexts hp
      cases texts with
      | nil => cases hp
      | cons t texts =>
        refine ⟨text ++ '.' :: lead, after, ?_, ?_, ?_, hpass⟩
        · rw [List.intercalate_cons_cons, hpath]
          simp
        · have hdot : '.'.utf8Size = 1 := rfl
          rw [hoffset, byteLength_append, Text.byteLength_cons, hdot]
          omega
        · exact (paired_append_iff htext.paired).mpr (.plain (by decide) (by decide) hlead)

/-- Where the loop looks for the end of a subscript, it finds one. -/
theorem exists_of_looksInto {path : List Char} {ps : List Piece} (hsplit : split path = .ok ps)
    {p : Piece} (hp : p ∈ ps) {position : Nat} {inner : List Char}
    (h : p.LooksInto position inner) :
    ∃ before inside rest after, takeSubscript 0 none inner = some (inside, rest) ∧
      path = before ++ '[' :: (inside ++ ']' :: (rest ++ after)) ∧ byteLength before = position ∧
      ReturnsAfter before inside := by
  obtain ⟨texts, -, rfl, rfl, hall⟩ := split_eq_ok_iff.mp hsplit
  obtain ⟨lead, after, hpath, hoffset, hlead, hpass⟩ := exists_of_mem_pieces hall hp
  obtain ⟨passed, hrow, rfl, hpassed, hleft⟩ := h.2.paired hpass.paired.dropWhile
  have hname : Paired (p.text.takeWhile (· ≠ '[')) := (passes_top hpass.free_of_top).paired
  have hbefore : Paired (lead ++ (p.text.takeWhile (· ≠ '[') ++ passed)) :=
    (paired_append_iff hlead).mpr ((paired_append_iff hname).mpr hpassed)
  cases hleft with
  | plain ho _ _ => exact absurd rfl ho
  | @group inside rest hi _ =>
    have htake := takeSubscript_balanced hi rest
    have htext : p.text =
        p.text.takeWhile (· ≠ '[') ++ (passed ++ '[' :: (inside ++ ']' :: rest)) := by
      rw [← hrow, List.takeWhile_append_dropWhile]
    refine ⟨_, inside, rest, after, htake, ?_, ?_,
      returnsAfter_of_takeSubscript hbefore.run htake⟩
    · rw [hpath]
      conv_lhs => rw [htext]
      simp
    · rw [hoffset, byteLength_append, byteLength_append]
      omega

/-! ## What is read -/

theorem Defect.eq_emptyPath_of_reason {d : Defect} : d.reason = "empty path" → d = .emptyPath := by
  cases d <;> decide

/-- No path is said to be empty. -/
theorem ne_emptyPath {path : String} {e : Error}
    (h : Draft.Attribute.ofPath path = .error e ∨ expr path = .error e ∨ moduleExpr path = .error e)
    (span : Span) : e ≠ .invalidPath path "empty path" span := by
  intro he
  obtain hread | ⟨-, defect, hdefect, rfl⟩ := error_cases h
  · obtain ⟨fault, hfault, rfl⟩ := mapError_eq_error_iff.mp hread
    obtain ⟨-, hreason, -⟩ := Error.invalidPath.inj he
    obtain ⟨s, -, -, hs, -⟩ := shows_of_segments hfault
    rw [Defect.eq_emptyPath_of_reason hreason] at hs
    exact hs
  · obtain ⟨-, hreason, -⟩ := Error.invalidPath.inj he
    cases Defect.eq_emptyPath_of_reason hreason
    rcases hdefect with h | h <;> cases h

/-- A subscript that is an integer text stands for the integer that its digits denote. -/
theorem ValidIndex.exists_int_of_digits {i : String} (h : ValidIndex i.toList) {digits : List Char}
    (hd : Digits digits) :
    (i.toList = digits → ∃ k : Int64, k.toInt = placeValue digits ∧ indexLiteral i = .int k) ∧
      (i.toList = '-' :: digits →
        ∃ k : Int64, k.toInt = -placeValue digits ∧ indexLiteral i = .int k) := by
  have hvalue : Nat.ofDigitChars 10 digits 0 = placeValue digits := Text.ofDigitChars_zero digits
  constructor
  · rintro rfl
    exact h.exists_int (Text.readInteger?_eq_some_iff.mpr (.inl ⟨hd, by rw [hvalue]⟩))
  · intro hi
    exact h.exists_int (Text.readInteger?_eq_some_iff.mpr (.inr ⟨digits, hi, hd, by rw [hvalue]⟩))

/-! ## The checks -/

/-- After the first reading of a path no later check of the same thing fails: every subscript ends, and
where the scan of the path has it end; there is a segment and with it a tree; integers fit. -/
theorem guards_never_fail (path : String) :
    ((∃ ps, split path.toList = .ok ps) ↔ Nesting.run .top path.toList = some .top) ∧
    (∀ ps, split path.toList = .ok ps → ∀ p ∈ ps,
      (∀ position inner, p.LooksInto position inner →
        ∃ before inside rest after, takeSubscript 0 none inner = some (inside, rest) ∧
          path.toList = before ++ '[' :: (inside ++ ']' :: (rest ++ after)) ∧
          byteLength before = position ∧ ReturnsAfter before inside) ∧
      ∀ span, Segment.ofPiece p ≠ .error ⟨.unclosedSubscript, span⟩) ∧
    (∀ ss, read path = .ok ss → ss ≠ [] ∧ (∃ e, treeOf path ss = .ok e) ∧
      ∀ s ∈ ss, ∀ i ∈ s.indices, ∀ digits, Digits digits →
        (i.toList = digits → ∃ k : Int64, k.toInt = placeValue digits ∧ indexLiteral i = .int k) ∧
        (i.toList = '-' :: digits →
          ∃ k : Int64, k.toInt = -placeValue digits ∧ indexLiteral i = .int k)) ∧
    ∀ span, Draft.Attribute.ofPath path ≠ .error (.invalidPath path "empty path" span) ∧
      expr path ≠ .error (.invalidPath path "empty path" span) ∧
      moduleExpr path ≠ .error (.invalidPath path "empty path" span) := by
  refine ⟨exists_split_iff path.toList, ?_, ?_, ?_⟩
  · intro ps hsplit p hp
    refine ⟨fun position inner h => exists_of_looksInto hsplit hp h, fun span hunclosed => ?_⟩
    obtain ⟨position, inner, hlooks, hnone⟩ := exists_of_ofPiece_unclosed hunclosed
    obtain ⟨_, _, _, _, htake, -⟩ := exists_of_looksInto hsplit hp hlooks
    rw [hnone] at htake
    cases htake
  · intro ss hread
    obtain ⟨hne, hvalid⟩ := valid_of_read hread
    exact ⟨hne, exists_treeOf hne,
      fun s hs i hi digits hd => ((hvalid s hs).indices i hi).exists_int_of_digits hd⟩
  · intro span
    exact ⟨fun h => ne_emptyPath (.inl h) span rfl, fun h => ne_emptyPath (.inr (.inl h)) span rfl,
      fun h => ne_emptyPath (.inr (.inr h)) span rfl⟩

/-- A path in which a quoted bracket, a nested bracket and a padded integer stand in subscripts. -/
def hiddenBracket : String := "é.b['x]' [1]][ -07 ].c"

theorem guards_never_fail_hiddenBracket :
    split hiddenBracket.toList =
        .ok [⟨0, ['é']⟩, ⟨3, "b['x]' [1]][ -07 ]".toList⟩, ⟨22, ['c']⟩] ∧
      Piece.LooksInto ⟨3, "b['x]' [1]][ -07 ]".toList⟩ 14 " -07 ]".toList ∧
      (∃ before inside rest after, takeSubscript 0 none " -07 ]".toList = some (inside, rest) ∧
        hiddenBracket.toList = before ++ '[' :: (inside ++ ']' :: (rest ++ after)) ∧
        byteLength before = 14 ∧ ReturnsAfter before inside) ∧
      read hiddenBracket = .ok [⟨"é", []⟩, ⟨"b", ["'x]' [1]", "-07"]⟩, ⟨"c", []⟩] ∧
      Digits ['0', '7'] ∧ ∃ k : Int64, k.toInt = -7 ∧ indexLiteral "-07" = .int k := by
  have hsplit : split hiddenBracket.toList =
      .ok [⟨0, ['é']⟩, ⟨3, "b['x]' [1]][ -07 ]".toList⟩, ⟨22, ['c']⟩] := by
    decide +kernel
  have hread : read hiddenBracket = .ok [⟨"é", []⟩, ⟨"b", ["'x]' [1]", "-07"]⟩, ⟨"c", []⟩] := by
    decide +kernel
  have hlooks : Piece.LooksInto ⟨3, "b['x]' [1]][ -07 ]".toList⟩ 14 " -07 ]".toList := by
    have hname : "b['x]' [1]][ -07 ]".toList.takeWhile (· ≠ '[') = ['b'] := by decide +kernel
    have hrow : "b['x]' [1]][ -07 ]".toList.dropWhile (· ≠ '[') =
        '[' :: "'x]' [1]][ -07 ]".toList := by
      decide +kernel
    have htake : takeSubscript 0 none "'x]' [1]][ -07 ]".toList =
        some ("'x]' [1]".toList, '[' :: " -07 ]".toList) := by
      decide +kernel
    rw [Piece.LooksInto, hname, hrow]
    exact ⟨List.cons_ne_nil _ _, .round htake (by decide +kernel) .here⟩
  have hdigits : Digits ['0', '7'] := ⟨List.cons_ne_nil _ _, List.all_eq_true.mp (by decide)⟩
  obtain ⟨-, hpieces, hsegments, -⟩ := guards_never_fail hiddenBracket
  obtain ⟨-, -, hindices⟩ := hsegments _ hread
  have hindex := hindices _ (.tail _ (.head _)) "-07" (.tail _ (.head _)) _ hdigits
  exact ⟨hsplit, hlooks, (hpieces _ hsplit _ (.tail _ (.head _))).1 _ _ hlooks, hread, hdigits,
    hindex.2 (by decide +kernel)⟩

end ScriptTree.Path
