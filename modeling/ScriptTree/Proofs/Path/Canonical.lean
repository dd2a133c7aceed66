import ScriptTree.Draft.Attribute
import ScriptTree.Path.Expr
import ScriptTree.Print.Layout
import ScriptTree.Proofs.Path.Spelling
import ScriptTree.Proofs.Print.Determined

/-!
# The canonical path of a tree

The text of a path's tree is again a path: the same names, and for each subscript the canonical text
of the literal that it stands for. Where no literal needs an escape this path spells segments that
build the same tree, however the first path wrote its subscripts. A literal with an escape is left
out on purpose, since the reader of paths does not undo escapes.
-/
namespace ScriptTree.Path

open Text (Digits isBlank)
open Outcome (bind_eq_ok_iff pure_eq_ok_iff mapError_eq_ok_iff)
open Print (isControl quoted escape)

variable {q : QuoteStyle}

/-! ## The text of a subscript -/

/-- The literal that a subscript stands for. -/
def indexValue (index : String) : Literal :=
  match (Text.readInteger? index.toList).bind Text.int64? with
  | some i => .int i
  | none => .string (String.ofList (unquote index.toList))

theorem indexLiteral_eq (index : String) : indexLiteral index = .literal (indexValue index) := by
  unfold indexLiteral indexValue
  cases (Text.readInteger? index.toList).bind Text.int64? <;> rfl

/-- A text that needs no escape between delimiters. -/
def Verbatim (delimiter : Char) (s : String) : Prop :=
  ∀ c ∈ s.toList, c ≠ delimiter ∧ c ≠ '\\' ∧ isControl c = false

-- Named, since the search would rather run through all characters than through those of the text.
instance (delimiter : Char) (s : String) : Decidable (Verbatim delimiter s) :=
  List.decidableBAll _ _

theorem flatMap_escape_of_verbatim {delimiter : Char} {cs : List Char}
    (h : ∀ c ∈ cs, c ≠ delimiter ∧ c ≠ '\\' ∧ isControl c = false) :
    cs.flatMap (escape delimiter) = cs := by
  induction cs with
  | nil => rfl
  | cons c cs ih =>
    obtain ⟨hd, hb, hc⟩ := h c (.head _)
    have hne {d : Char} (hcontrol : isControl d = true) : c ≠ d := by
      rintro rfl
      rw [hcontrol] at hc
      cases hc
    have hplain : escape delimiter c = [c] := by
      rw [escape, if_neg hb, if_neg (hne (by decide)), if_neg (hne (by decide)),
        if_neg (hne (by decide)), if_neg hd, hc]
      rfl
    rw [List.flatMap_cons, hplain, ih fun d hd => h d (.tail _ hd)]
    rfl

theorem quoted_of_verbatim {delimiter : Char} {s : String} (h : Verbatim delimiter s) :
    quoted delimiter s.toList = delimiter :: (s.toList ++ [delimiter]) := by
  rw [quoted, flatMap_escape_of_verbatim h]

theorem isQuote_delimiter (q : QuoteStyle) : isQuote q.delimiter = true := by cases q <;> decide

/-! ## Canonical texts are valid -/

theorem trimmed_of_ends {c d : Char} {cs : List Char} (hc : isBlank c = false)
    (hd : isBlank d = false) : Text.Trimmed (c :: (cs ++ [d])) := by
  refine ⟨Text.endsRow_cons hc _, ?_⟩
  intro x hx
  rw [← List.cons_append, List.getLast?_concat] at hx
  cases hx
  exact hd

/-- Between quotes that do not occur in it, a text is a valid subscript. -/
theorem validIndex_quoted {cs : List Char} (h : q.delimiter ∉ cs) :
    ValidIndex (q.delimiter :: (cs ++ [q.delimiter])) where
  nonempty := List.cons_ne_nil _ _
  trimmed := by
    have hblank : isBlank q.delimiter = false := by cases q <;> decide
    exact trimmed_of_ends hblank hblank
  balanced := .quoted (isQuote_delimiter q) h .nil
  fits := by
    intro hdigits
    have hfirst := hdigits.2 q.delimiter (.head _)
    cases q <;> exact absurd hfirst (by decide)
  fitsBelow := by
    intro digits heq
    have hfirst := (List.cons.inj heq).1
    cases q <;> exact absurd hfirst (by decide)

theorem balanced_of_plain {cs : List Char}
    (h : ∀ c ∈ cs, isQuote c = false ∧ c ≠ '[' ∧ c ≠ ']') : Balanced 0 cs := by
  induction cs with
  | nil => exact .nil
  | cons c cs ih =>
    obtain ⟨hq, ho, hc⟩ := h c (.head _)
    exact .plain hq ho hc (ih fun d hd => h d (.tail _ hd))

theorem plain_of_digit {c : Char} (h : c = '-' ∨ c.isDigit = true) :
    isBlank c = false ∧ isQuote c = false ∧ c ≠ '[' ∧ c ≠ ']' := by
  have hcode : 45 ≤ c.toNat ∧ c.toNat ≤ 57 := by
    rcases h with rfl | h
    · decide
    · have := digit_code h
      omega
  have hne {d : Char} (hd : ¬ (45 ≤ d.toNat ∧ d.toNat ≤ 57)) : c ≠ d := by
    rintro rfl
    exact hd hcode
  refine ⟨Text.isBlank_eq_false_of_visible (by omega), ?_, hne (by decide), hne (by decide)⟩
  have hdouble : c ≠ '"' := hne (by decide)
  have hsingle : c ≠ '\'' := hne (by decide)
  simp [isQuote, hdouble, hsingle]

/-- The decimal text of a 64-bit integer is a valid subscript. -/
theorem validIndex_decimal (i : Int64) : ValidIndex (Text.decimal i.toInt) := by
  have hlo : -9223372036854775808 ≤ i.toInt := Int64.minValue_le_toInt i
  have hhi : i.toInt < 9223372036854775808 := i.toInt_lt
  have hread := Text.readInteger?_decimal i.toInt
  obtain ⟨c, ds, hdecimal, hc, hds⟩ := Text.exists_decimal i.toInt
  rw [hdecimal] at hread ⊢
  have hall : ∀ d ∈ c :: ds, d = '-' ∨ d.isDigit = true :=
    List.forall_mem_cons.mpr ⟨hc, fun d hd => .inr (hds d hd)⟩
  refine ⟨List.cons_ne_nil _ _, ?_, ?_, ?_, ?_⟩
  · exact Text.trimmed_of_forall fun d hd => (plain_of_digit (hall d hd)).1
  · exact balanced_of_plain fun d hd => (plain_of_digit (hall d hd)).2
  · intro hdigits
    have hvalue := Text.readInteger?_eq_some_iff.mpr (.inl ⟨hdigits, rfl⟩)
    rw [hread] at hvalue
    have := Option.some.inj hvalue
    omega
  · intro digits heq hdigits
    have hvalue := Text.readInteger?_eq_some_iff.mpr (.inr ⟨digits, heq, hdigits, rfl⟩)
    rw [hread] at hvalue
    have := Option.some.inj hvalue
    omega

/-! ## Canonical texts stand for the same literal -/

theorem unquote_quoted (cs : List Char) :
    unquote (q.delimiter :: (cs ++ [q.delimiter])) = cs := by
  rw [unquote, if_pos ⟨isQuote_delimiter q, List.getLast?_concat⟩, List.dropLast_concat]

theorem readInteger?_quoted (cs : List Char) :
    Text.readInteger? (q.delimiter :: (cs ++ [q.delimiter])) = none := by
  cases hread : Text.readInteger? (q.delimiter :: (cs ++ [q.delimiter])) with
  | none => rfl
  | some n =>
    rcases Text.readInteger?_eq_some_iff.mp hread with ⟨hdigits, -⟩ | ⟨digits, heq, -⟩
    · have hfirst := hdigits.2 q.delimiter (.head _)
      cases q <;> exact absurd hfirst (by decide)
    · have hfirst := (List.cons.inj heq).1
      cases q <;> exact absurd hfirst (by decide)

/-- What a literal must satisfy for its text to be a subscript that stands for it. -/
def Plain (q : QuoteStyle) : Literal → Prop
  | .string s => Verbatim q.delimiter s
  | .int _ => True
  | .bool _ => False

theorem indexValue_text {l : Literal} (h : Plain q l) :
    indexValue (String.ofList (l.text q)) = l := by
  rw [indexValue, String.toList_ofList]
  cases l with
  | string s =>
    rw [Literal.text, quoted_of_verbatim h, readInteger?_quoted, unquote_quoted,
      String.ofList_toList]
    rfl
  | int i =>
    rw [Literal.text, Text.readInteger?_decimal, Option.bind_some, Text.int64?_toInt]
  | bool b => cases h

theorem validIndex_text {l : Literal} (h : Plain q l) : ValidIndex (l.text q) := by
  cases l with
  | string s =>
    rw [Literal.text, quoted_of_verbatim h]
    exact validIndex_quoted fun hmem => (h _ hmem).1 rfl
  | int i => exact validIndex_decimal i
  | bool b => cases h

/-- A subscript never stands for a truth value. -/
theorem indexValue_ne_bool (index : String) (b : Bool) : indexValue index ≠ .bool b := by
  unfold indexValue
  split <;> exact fun h => nomatch h

/-! ## The text of a path -/

/-- The canonical text of a subscript. -/
def indexText (q : QuoteStyle) (index : String) : List Char := (indexValue index).text q

/-- Subscripts in brackets. -/
def bracketed (q : QuoteStyle) (indices : List String) : List Char :=
  indices.flatMap fun i => '[' :: (indexText q i ++ [']'])

def Segment.text (q : QuoteStyle) (s : Segment) : List Char :=
  s.name.toList ++ bracketed q s.indices

theorem text_subscript_segment {s : Segment} {e : Expr} {t : List Char} (h : e.text q = .ok t) :
    (s.subscript e).text q = .ok (t ++ bracketed q s.indices) := by
  rw [Segment.subscript]
  generalize s.indices = indices
  induction indices generalizing e t with
  | nil => rw [bracketed, List.flatMap_nil, List.append_nil]; exact h
  | cons i indices ih =>
    have hindex : (indexLiteral i).text q = .ok (indexText q i) := by
      rw [indexLiteral_eq]
      rfl
    have hstep := Expr.text_subscript_eq_ok_iff.mpr ⟨t, indexText q i, h, hindex, rfl⟩
    rw [List.foldl_cons, ih hstep, List.append_assoc]
    rfl

theorem text_attach {s : Segment} {e : Expr} {t : List Char} (hname : s.name ≠ "")
    (h : e.text q = .ok t) : (Segment.attach e s).text q = .ok (t ++ '.' :: s.text q) := by
  have hattr : (Expr.attr e ⟨s.name⟩).text q = .ok (t ++ '.' :: s.name.toList) :=
    Expr.text_attr_eq_ok_iff.mpr ⟨t, h, hname, rfl⟩
  rw [Segment.attach, text_subscript_segment hattr, List.append_assoc]
  rfl

/-- The tree of segments is printed as their canonical texts joined by dots. -/
theorem text_toExpr? {segments : List Segment} {e : Expr} (hnames : ∀ s ∈ segments, s.name ≠ "")
    (h : toExpr? segments = some e) :
    e.text q = .ok (List.intercalate ['.'] (segments.map (Segment.text q))) := by
  cases segments with
  | nil => cases h
  | cons s rest =>
    have hfirst : (Expr.ofName s.name).text q = .ok s.name.toList :=
      Ident.text_eq_ok_iff.mpr ⟨hnames s (.head _), rfl⟩
    have hrest {e : Expr} {t : List Char} (ht : e.text q = .ok t) :
        (rest.foldl Segment.attach e).text q =
          .ok (t ++ dotted (rest.map (Segment.text q))) := by
      have hnames' : ∀ s ∈ rest, s.name ≠ "" := fun u hu => hnames u (.tail _ hu)
      clear h hnames hfirst
      induction rest generalizing e t with
      | nil => rw [List.map_nil, dotted, List.flatMap_nil, List.append_nil]; exact ht
      | cons u rest ih =>
        have hattach := text_attach (hnames' u (.head _)) ht
        rw [List.foldl_cons, ih hattach fun v hv => hnames' v (.tail _ hv), List.append_assoc]
        rfl
    cases h
    rw [List.map_cons, intercalate_dot]
    exact hrest (text_subscript_segment hfirst)

/-! ## The segments of the canonical path -/

def Segment.canonical (q : QuoteStyle) (s : Segment) : Segment :=
  ⟨s.name, s.indices.map fun i => String.ofList (indexText q i)⟩

theorem spellsIndices_bracketed (indices : List String) :
    SpellsIndices (indices.map fun i => String.ofList (indexText q i)) (bracketed q indices) := by
  induction indices with
  | nil => exact .nil
  | cons i indices ih =>
    have h := SpellsIndices.cons (i := String.ofList (indexText q i)) .nil .nil ih
    rw [String.toList_ofList, List.nil_append, List.append_nil] at h
    rw [bracketed, List.flatMap_cons, List.cons_append, List.append_assoc, List.singleton_append]
    exact h

theorem spells_canonical (segments : List Segment) :
    Spells (segments.map (Segment.canonical q))
      (List.intercalate ['.'] (segments.map (Segment.text q))) := by
  refine ⟨_, ?_, rfl⟩
  rw [List.forall₂_map_left_iff, List.forall₂_map_right_iff, List.forall₂_same]
  exact fun s _ => ⟨_, rfl, spellsIndices_bracketed s.indices⟩

theorem Segment.Valid.canonical {s : Segment} (h : s.Valid)
    (hplain : ∀ i ∈ s.indices, Plain q (indexValue i)) : (s.canonical q).Valid := by
  refine ⟨h.named, h.nameFree, ?_⟩
  intro j hj
  obtain ⟨i, hi, rfl⟩ := List.mem_map.mp hj
  rw [String.toList_ofList]
  exact validIndex_text (hplain i hi)

theorem subscript_canonical {s : Segment} (hplain : ∀ i ∈ s.indices, Plain q (indexValue i))
    (e : Expr) : (s.canonical q).subscript e = s.subscript e := by
  rw [Segment.subscript, Segment.subscript, Segment.canonical]
  generalize s.indices = indices at hplain
  induction indices generalizing e with
  | nil => rfl
  | cons i indices ih =>
    have hi : indexLiteral (String.ofList (indexText q i)) = indexLiteral i := by
      rw [indexLiteral_eq, indexLiteral_eq, indexText, indexValue_text (hplain i (.head _))]
    rw [List.map_cons, List.foldl_cons, List.foldl_cons, hi]
    exact ih _ fun j hj => hplain j (.tail _ hj)

/-- The canonical segments build the same tree. -/
theorem toExpr?_canonical {segments : List Segment}
    (hplain : ∀ s ∈ segments, ∀ i ∈ s.indices, Plain q (indexValue i)) :
    toExpr? (segments.map (Segment.canonical q)) = toExpr? segments := by
  cases segments with
  | nil => rfl
  | cons s rest =>
    have hrest (e : Expr) :
        (rest.map (Segment.canonical q)).foldl Segment.attach e = rest.foldl Segment.attach e := by
      have hplain' := fun u hu => hplain u (.tail _ hu)
      clear hplain
      induction rest generalizing e with
      | nil => rfl
      | cons u rest ih =>
        have hattach : Segment.attach e (u.canonical q) = Segment.attach e u :=
          subscript_canonical (hplain' u (.head _)) _
        rw [List.map_cons, List.foldl_cons, List.foldl_cons, hattach]
        exact ih _ fun v hv => hplain' v (.tail _ hv)
    rw [List.map_cons, toExpr?, toExpr?, subscript_canonical (hplain s (.head _)), hrest]
    rfl

/-! ## The round trip -/

/-- The text by which an expression subscripts. -/
def subscriptText? : Expr → Option String
  | .subscript _ (.literal (.string s)) => some s
  | _ => none

/-- An expression that does not subscript by a text that needs an escape. -/
def VerbatimSubscript (delimiter : Char) (e : Expr) : Prop :=
  ∀ s ∈ subscriptText? e, Verbatim delimiter s

instance (delimiter : Char) (e : Expr) : Decidable (VerbatimSubscript delimiter e) :=
  inferInstanceAs (Decidable (∀ s ∈ subscriptText? e, Verbatim delimiter s))

section Subscripts

variable {P : Expr → Prop}

theorem everywhere_of_subscript {indices : List String} {e : Expr}
    (h : (indices.foldl (fun e i => .subscript e (indexLiteral i)) e).Everywhere P) :
    e.Everywhere P ∧ ∀ i ∈ indices, ∃ v, P (.subscript v (indexLiteral i)) := by
  induction indices generalizing e with
  | nil => exact ⟨h, fun i hi => nomatch hi⟩
  | cons i indices ih =>
    obtain ⟨hfirst, hrest⟩ := ih h
    obtain ⟨hself, he, -⟩ := Expr.everywhere_subscript.mp hfirst
    refine ⟨he, List.forall_mem_cons.mpr ⟨⟨e, hself⟩, hrest⟩⟩

/-- What holds everywhere in the tree of a path holds at each of its subscripts. -/
theorem subscript_of_everywhere {segments : List Segment} {e : Expr}
    (he : toExpr? segments = some e) (h : e.Everywhere P) :
    ∀ s ∈ segments, ∀ i ∈ s.indices, ∃ v, P (.subscript v (indexLiteral i)) := by
  cases segments with
  | nil => cases he
  | cons s rest =>
    have hrest {e : Expr} (h : (rest.foldl Segment.attach e).Everywhere P) :
        e.Everywhere P ∧
          ∀ u ∈ rest, ∀ i ∈ u.indices, ∃ v, P (.subscript v (indexLiteral i)) := by
      clear he
      induction rest generalizing e with
      | nil => exact ⟨h, fun u hu => nomatch hu⟩
      | cons u rest ih =>
        obtain ⟨hattach, hrest⟩ := ih h
        obtain ⟨hattr, hu⟩ := everywhere_of_subscript hattach
        exact ⟨(Expr.everywhere_attr.mp hattr).2, List.forall_mem_cons.mpr ⟨hu, hrest⟩⟩
    cases he
    obtain ⟨hfirst, hsegments⟩ := hrest h
    exact List.forall_mem_cons.mpr ⟨(everywhere_of_subscript hfirst).2, hsegments⟩

end Subscripts

theorem plain_of_verbatim {v : Expr} {index : String}
    (h : VerbatimSubscript q.delimiter (.subscript v (indexLiteral index))) :
    Plain q (indexValue index) := by
  rw [indexLiteral_eq] at h
  cases hvalue : indexValue index with
  | string s => rw [hvalue] at h; exact h s rfl
  | int i => trivial
  | bool b => exact absurd hvalue (indexValue_ne_bool index b)

theorem treeOf_eq_ok_iff {path : String} {segments : List Segment} {e : Expr} :
    treeOf path segments = .ok e ↔ toExpr? segments = some e := by
  rw [treeOf]
  cases toExpr? segments with
  | none => simp
  | some e' => simp

theorem expr_eq_ok_iff {path : String} {e : Expr} :
    expr path = .ok e ↔ ∃ ss, segments path.toList = .ok ss ∧ toExpr? ss = some e := by
  simp only [expr, bind_eq_ok_iff, read, mapError_eq_ok_iff, treeOf_eq_ok_iff]

theorem attributeExpr_eq_ok_iff {path : String} {e : Expr} :
    attributeExpr path = .ok e ↔
      ∃ ss, segments path.toList = .ok ss ∧ 2 ≤ ss.length ∧ toExpr? ss = some e := by
  simp only [attributeExpr, bind_eq_ok_iff, read, mapError_eq_ok_iff]
  refine exists_congr fun ss => and_congr_right fun _ => ?_
  split
  · next h => simp; omega
  · next h => rw [treeOf_eq_ok_iff]; simp; omega

theorem moduleExpr_eq_ok_iff {path : String} {e : Expr} :
    moduleExpr path = .ok e ↔
      ∃ ss, segments path.toList = .ok ss ∧ (∀ s ∈ ss, s.indices = []) ∧ toExpr? ss = some e := by
  simp only [moduleExpr, bind_eq_ok_iff, read, mapError_eq_ok_iff]
  refine exists_congr fun ss => and_congr_right fun _ => ?_
  split
  · next h =>
    simp only [List.any_eq_true, Bool.not_eq_true', List.isEmpty_eq_false_iff] at h
    obtain ⟨s, hs, hne⟩ := h
    simp only [reduceCtorEq, false_iff, not_and]
    exact fun hplain => absurd (hplain s hs) hne
  · next h =>
    have hplain : ∀ s ∈ ss, s.indices = [] := by simpa using h
    rw [treeOf_eq_ok_iff]
    exact (and_iff_right hplain).symm

/-- The canonical path of segments reads as segments that build the same tree. -/
theorem segments_canonical {path : List Char} {ss : List Segment} {e : Expr}
    (hread : segments path = .ok ss) (he : toExpr? ss = some e)
    (hverbatim : e.Everywhere (VerbatimSubscript q.delimiter)) :
    e.text q = .ok (List.intercalate ['.'] (ss.map (Segment.text q))) ∧
      segments (List.intercalate ['.'] (ss.map (Segment.text q))) =
        .ok (ss.map (Segment.canonical q)) ∧
      toExpr? (ss.map (Segment.canonical q)) = some e := by
  obtain ⟨⟨hne, hvalid⟩, -⟩ := segments_eq_ok_iff.mp hread
  have hplain : ∀ s ∈ ss, ∀ i ∈ s.indices, Plain q (indexValue i) := by
    intro s hs i hi
    obtain ⟨v, hv⟩ := subscript_of_everywhere he hverbatim s hs i hi
    exact plain_of_verbatim hv
  refine ⟨text_toExpr? (fun s hs => (hvalid s hs).named) he, ?_, ?_⟩
  · refine segments_eq_ok_iff.mpr ⟨⟨?_, ?_⟩, spells_canonical ss⟩
    · rwa [ne_eq, List.map_eq_nil_iff]
    · intro s hs
      obtain ⟨u, hu, rfl⟩ := List.mem_map.mp hs
      exact (hvalid u hu).canonical (hplain u hu)
  · rw [toExpr?_canonical hplain, he]

/-- Printing the tree of a path and reading the text as a path gives the tree again, and so does
building an attribute from it. -/
theorem expr_of_print (o : PrintOptions) (path : String) (e : Expr) (he : expr path = .ok e)
    (hverbatim : e.Everywhere (VerbatimSubscript o.quote.delimiter)) :
    ∃ path', (Node.expr e).print o = .ok path' ∧ expr path' = .ok e ∧
      (∀ e', expr path' = .ok e' → (Node.expr e').print o = .ok path') ∧
      ∀ a, Draft.Attribute.ofPath path = .ok a →
        ∃ a', Draft.Attribute.ofPath path' = .ok a' ∧ a'.expr = a.expr := by
  obtain ⟨ss, hread, htree⟩ := expr_eq_ok_iff.mp he
  obtain ⟨htext, hread', htree'⟩ := segments_canonical hread htree hverbatim
  have hprint : (Node.expr e).print o =
      .ok (String.ofList (List.intercalate ['.'] (ss.map (Segment.text o.quote)))) :=
    Node.print_expr_eq_ok_iff.mpr ⟨_, htext, rfl⟩
  have he' : expr (String.ofList (List.intercalate ['.'] (ss.map (Segment.text o.quote)))) = .ok e := by
    refine expr_eq_ok_iff.mpr ⟨_, ?_, htree'⟩
    rw [String.toList_ofList]
    exact hread'
  refine ⟨_, hprint, he', ?_, ?_⟩
  · intro e' h
    rw [he'] at h
    cases h
    exact hprint
  · intro a ha
    obtain ⟨ea, hea, ha⟩ := bind_eq_ok_iff.mp ha
    cases pure_eq_ok_iff.mp ha
    obtain ⟨ss', hss', hlength, htree''⟩ := attributeExpr_eq_ok_iff.mp hea
    rw [hread] at hss'
    cases hss'
    rw [htree] at htree''
    cases htree''
    have hattr : attributeExpr
        (String.ofList (List.intercalate ['.'] (ss.map (Segment.text o.quote)))) = .ok e := by
      refine attributeExpr_eq_ok_iff.mpr ⟨_, ?_, ?_, htree'⟩
      · rw [String.toList_ofList]
        exact hread'
      · rw [List.length_map]
        exact hlength
    exact ⟨⟨_, e⟩, bind_eq_ok_iff.mpr ⟨e, hattr, rfl⟩, rfl⟩

/-- The tree of a path whose subscripts are a padded integer, a quoted text and a bare text. -/
def subscriptedTree : Expr :=
  .subscript
    (.subscript (.subscript (.attr (.ofName "data") ⟨"f"⟩) (.int 7)) (.string "x.y"))
    (.string "[k]")

theorem expr_of_print_subscripted :
    expr "data.f[ 007 ][\"x.y\"][[k]]" = .ok subscriptedTree ∧
      subscriptedTree.Everywhere (VerbatimSubscript '\'') ∧
      ∃ path', (Node.expr subscriptedTree).print { quote := .single } = .ok path' ∧
        expr path' = .ok subscriptedTree ∧
        (∀ e', expr path' = .ok e' → (Node.expr e').print { quote := .single } = .ok path') ∧
        ∀ a, Draft.Attribute.ofPath "data.f[ 007 ][\"x.y\"][[k]]" = .ok a →
          ∃ a', Draft.Attribute.ofPath path' = .ok a' ∧ a'.expr = a.expr := by
  have hexpr : expr "data.f[ 007 ][\"x.y\"][[k]]" = .ok subscriptedTree := by
    decide +kernel
  have hverbatim : subscriptedTree.Everywhere (VerbatimSubscript '\'') := by decide
  exact ⟨hexpr, hverbatim, expr_of_print { quote := .single } _ _ hexpr hverbatim⟩

end ScriptTree.Path
