import ScriptTree.Proofs.Print.Outline
import ScriptTree.Proofs.Print.PlainLine
import ScriptTree.Tree.Equality

/-!
# Printed modules show their blocks

The text of a module over checked identifiers has one line for each row of its outline, and the
outline can be seen in the text: the lines end where the line breaks are, the leading blanks give the
depth, and a line that begins like the header of a class is one. A deeper line stands after each
header and nowhere else. So two modules print alike exactly if they have the same outline. What the
single lines say about the expressions on them is not asked here.
-/
namespace ScriptTree

open Print (commaJoin SingleLine PlainLine plainLine_word plainLine_expr unbroken_commaJoin)
open Text (EndsRow endsRow_cons)
open Outcome (forall₂_imp_of_mem forall_mem_of_forall₂)

/-! ## Headers -/

/-- The line begins like the header of a class: with the word `class`, a blank and a name. -/
def opensBlock (line : List Char) : Bool :=
  match Text.after? classWord line with
  | some (c :: _) => isIdentifierStart c
  | _ => false

theorem opensBlock_of_plainLine {line : List Char} (h : PlainLine line) :
    opensBlock line = false := by
  rw [opensBlock]
  split
  · next c rest hafter =>
    have hline : line = classWord ++ c :: rest := Text.after?_eq_some hafter
    have hword : isIdentifier ['c', 'l', 'a', 's', 's'] = true := by decide
    exact h.oneWord ['c', 'l', 'a', 's', 's'] (c :: rest) hline
      (all_part_of_isIdentifier hword) c rfl
  · rfl

theorem opensBlock_header {name : List Char} (hname : isIdentifier name = true)
    (rest : List Char) : opensBlock (classWord ++ (name ++ rest)) = true := by
  obtain ⟨c, cs, rfl, hstart, -⟩ := isIdentifier_iff.mp hname
  simpa [opensBlock, classWord, Text.after?] using hstart

/-- An outline whose lines can be told apart, and in which no block is empty. -/
inductive Outline.Legible : Outline → Prop
  | leaf {line : List Char} (hline : SingleLine line) (hopens : opensBlock line = false) :
      Legible (.leaf line)
  | block {header : List Char} {body : List Outline} (hline : SingleLine header)
      (hopens : opensBlock header = true) (hne : body ≠ []) (hbody : ∀ x ∈ body, Legible x) :
      Legible (.block header body)

section Legible

variable {q : QuoteStyle}

/-- A statement that is not a class prints a line that is no header. -/
theorem Stmt.legible_label {s : Stmt} (hs : s.isClass = false) (h : s.WellNamed Ident.Checked)
    {t : List Char} (ht : s.label q = .ok t) : SingleLine t ∧ opensBlock t = false := by
  have hplain (h : PlainLine t) : SingleLine t ∧ opensBlock t = false :=
    ⟨h.toSingleLine, opensBlock_of_plainLine h⟩
  cases s with
  | importFrom source names =>
    obtain ⟨-, -, ts, hsource, rfl⟩ := importText_eq_ok_iff.mp ht
    have hsourceLine := (plainLine_expr (h.exprs source (.head _)) hsource).unbroken
    have hnames : '\n' ∉ commaJoin (names.map (·.name.toList)) := by
      apply unbroken_commaJoin
      intro t ht
      obtain ⟨i, hi, rfl⟩ := List.mem_map.mp ht
      exact (plainLine_word (h.idents i hi)).unbroken
    refine ⟨⟨⟨'f', rfl, by decide⟩, ?_⟩, rfl⟩
    simp [fromWord, importWord, hsourceLine, hnames]
  | classDef name bases body => cases hs
  | assign target value =>
    obtain ⟨-, tv, hv, rfl⟩ := assignText_eq_ok_iff.mp ht
    have hvalue := (plainLine_expr (h.exprs value (.head _)) hv).unbroken
    exact hplain ((plainLine_word (h.idents target (.head _))).append_cons (by decide) (by decide)
      (by simpa using hvalue) fun _ => endsRow_cons (by decide) _)
  | annAssign target type =>
    obtain ⟨-, tt, hv, rfl⟩ := annAssignText_eq_ok_iff.mp ht
    have htype := (plainLine_expr (h.exprs type (.head _)) hv).unbroken
    exact hplain ((plainLine_word (h.idents target (.head _))).append_cons (by decide) (by decide)
      (by simpa using htype) fun h => by cases h)
  | expr value => exact hplain (plainLine_expr (h.exprs value (.head _)) ht)
  | pass =>
    cases ht
    exact hplain (plainLine_word (by decide))

theorem legible_header {name : Ident} {bases : List Expr} {body : List Stmt}
    (h : (Stmt.classDef name bases body).WellNamed Ident.Checked) {t : List Char}
    (ht : headerText q name bases = .ok t) : SingleLine t ∧ opensBlock t = true := by
  obtain ⟨-, ts, hbases, rfl⟩ := headerText_eq_ok_iff.mp ht
  have hname : name.Checked := h.idents name (.head _)
  refine ⟨⟨⟨'c', rfl, by decide⟩, ?_⟩, opensBlock_header hname _⟩
  have hnameLine := (plainLine_word hname).unbroken
  have hbasesLine : '\n' ∉ basesText ts := by
    have hjoin : '\n' ∉ commaJoin ts := unbroken_commaJoin
      (forall_mem_of_forall₂ hbases fun e he t ht => (plainLine_expr (h.exprs e he) ht).unbroken)
    rw [basesText]
    split
    · exact List.not_mem_nil
    · simp [hjoin]
  simp [classWord, hnameLine, hbasesLine]

theorem Outline.legible_bodyOf {xs : List Outline} (h : ∀ x ∈ xs, x.Legible) :
    bodyOf xs ≠ [] ∧ ∀ x ∈ bodyOf xs, x.Legible := by
  cases xs with
  | nil =>
    refine ⟨List.cons_ne_nil _ _, List.forall_mem_singleton.mpr ?_⟩
    exact .leaf (plainLine_word (by decide)).toSingleLine rfl
  | cons x xs => exact ⟨List.cons_ne_nil _ _, h⟩

/-- The outline of a statement over checked identifiers is legible. -/
theorem Stmt.legible_outline {s : Stmt} (h : ∀ t ∈ s.preorder, t.WellNamed Ident.Checked)
    {x : Outline} (hx : s.outline q = .ok x) : x.Legible := by
  induction s using Stmt.induct_class generalizing x with
  | line s hs =>
    obtain ⟨t, ht, rfl⟩ := (outline_eq_ok_iff hs).mp hx
    obtain ⟨hline, hopens⟩ := legible_label hs ((forall_preorder_of_not_isClass hs).mp h) ht
    exact .leaf hline hopens
  | classDef name bases body ih =>
    obtain ⟨header, xs, hheader, hbody, rfl⟩ := outline_classDef_eq_ok_iff.mp hx
    obtain ⟨hself, hinner⟩ := forall_preorder_classDef.mp h
    obtain ⟨hline, hopens⟩ := legible_header hself hheader
    have hxs : ∀ x ∈ xs, x.Legible := forall_mem_of_forall₂ hbody
      fun s hs x hx => ih s hs (allNamed_iff.mp hinner s hs) hx
    obtain ⟨hne, hlegible⟩ := Outline.legible_bodyOf hxs
    exact .block hline hopens hne hlegible

theorem Stmt.legible_outlineAll {ss : List Stmt} (h : Stmt.AllNamed Ident.Checked ss)
    {xs : List Outline} (hxs : Stmt.outlineAll q ss = .ok xs) : ∀ x ∈ xs, x.Legible :=
  forall_mem_of_forall₂ (outlineAll_eq_ok_iff.mp hxs)
    fun s hs _ hx => legible_outline (allNamed_iff.mp h s hs) hx

end Legible

/-! ## Deeper lines stand after headers -/

/-- After a header comes a row one level deeper, after another row comes no deeper row. -/
def Row.Leads (r : Row) (next? : Option Row) : Prop :=
  if r.header then ∃ next, next? = some next ∧ next.depth = r.depth + 1
  else ∀ next ∈ next?, next.depth ≤ r.depth

/-- Each row leads to the row after it. -/
def Row.Nested : List Row → Prop
  | [] => True
  | r :: rest => r.Leads rest.head? ∧ Nested rest

namespace Outline

theorem exists_rows_cons (x : Outline) (depth : Nat) :
    ∃ r more, x.rows depth = r :: more ∧ r.depth = depth := by
  cases x with
  | leaf line => exact ⟨_, _, rfl, rfl⟩
  | block header body => exact ⟨_, _, rfl, rfl⟩

theorem depth_head_rowsAll {depth : Nat} {xs : List Outline} {rest : List Row}
    (hrest : ∀ r ∈ rest.head?, r.depth ≤ depth) :
    ∀ r ∈ (rowsAll depth xs ++ rest).head?, r.depth ≤ depth := by
  cases xs with
  | nil => exact hrest
  | cons x xs =>
    obtain ⟨r, more, hrows, hdepth⟩ := x.exists_rows_cons depth
    intro r' hr'
    rw [rowsAll, hrows] at hr'
    cases hr'
    omega

theorem nested_rowsAll {xs : List Outline} {depth : Nat} {rest : List Row}
    (h : ∀ x ∈ xs, ∀ rest, (∀ r ∈ rest.head?, r.depth ≤ depth) → Row.Nested rest →
      Row.Nested (x.rows depth ++ rest))
    (hdepth : ∀ r ∈ rest.head?, r.depth ≤ depth) (hrest : Row.Nested rest) :
    Row.Nested (rowsAll depth xs ++ rest) := by
  induction xs with
  | nil => exact hrest
  | cons x xs ih =>
    rw [rowsAll, List.append_assoc]
    exact h x (.head _) _ (depth_head_rowsAll hdepth) (ih fun y hy => h y (.tail _ hy))

theorem nested_rows {x : Outline} (hx : x.Legible) {depth : Nat} {rest : List Row}
    (hdepth : ∀ r ∈ rest.head?, r.depth ≤ depth) (hrest : Row.Nested rest) :
    Row.Nested (x.rows depth ++ rest) := by
  induction x generalizing depth rest with
  | leaf line => exact ⟨hdepth, hrest⟩
  | block header body ih =>
    cases hx with
    | block _ _ hne hbody =>
      have hinner : Row.Nested (rowsAll (depth + 1) body ++ rest) :=
        nested_rowsAll (fun x hx rest hdepth hrest => ih x hx (hbody x hx) hdepth hrest)
          (fun r hr => Nat.le_succ_of_le (hdepth r hr)) hrest
      refine ⟨?_, hinner⟩
      obtain ⟨x, xs, rfl⟩ := List.exists_cons_of_ne_nil hne
      obtain ⟨r, more, hrows, hr⟩ := x.exists_rows_cons (depth + 1)
      refine ⟨r, ?_, hr⟩
      rw [rowsAll, hrows]
      rfl

/-! ## The rows determine the outline -/

/-- What follows an outline at its depth or above does not belong to it. -/
def SplitsRows (x : Outline) : Prop :=
  ∀ (depth : Nat) (y : Outline) (u v : List Row), (∀ r ∈ u.head?, r.depth ≤ depth) →
    (∀ r ∈ v.head?, r.depth ≤ depth) → x.rows depth ++ u = y.rows depth ++ v → x = y ∧ u = v

theorem rowsAll_append_inj {xs : List Outline} (hxs : ∀ x ∈ xs, x.SplitsRows) {depth : Nat}
    {ys : List Outline} {u v : List Row} (hu : ∀ r ∈ u.head?, r.depth < depth)
    (hv : ∀ r ∈ v.head?, r.depth < depth) (h : rowsAll depth xs ++ u = rowsAll depth ys ++ v) :
    xs = ys ∧ u = v := by
  -- A row at the depth of the outlines cannot be the first one of what follows them.
  have hstop {z : Outline} {zs : List Outline} {rest w : List Row}
      (hw : ∀ r ∈ w.head?, r.depth < depth) (hrows : w = rowsAll depth (z :: zs) ++ rest) :
      False := by
    obtain ⟨r, more, hz, hr⟩ := z.exists_rows_cons depth
    rw [rowsAll, hz] at hrows
    have hlt := hw r (by rw [hrows]; rfl)
    omega
  induction xs generalizing ys with
  | nil =>
    cases ys with
    | nil => exact ⟨rfl, h⟩
    | cons y ys => exact (hstop hu h).elim
  | cons x xs ih =>
    cases ys with
    | nil => exact (hstop hv h.symm).elim
    | cons y ys =>
      rw [rowsAll, rowsAll, List.append_assoc, List.append_assoc] at h
      obtain ⟨rfl, hrest⟩ := hxs x (.head _) depth y _ _
        (depth_head_rowsAll fun r hr => Nat.le_of_lt (hu r hr))
        (depth_head_rowsAll fun r hr => Nat.le_of_lt (hv r hr)) h
      obtain ⟨rfl, rfl⟩ := ih (fun z hz => hxs z (.tail _ hz)) hrest
      exact ⟨rfl, rfl⟩

theorem splitsRows (x : Outline) : x.SplitsRows := by
  induction x with
  | leaf line =>
    intro depth y u v _ _ h
    cases y with
    | leaf line' =>
      simp only [rows, List.cons_append, List.nil_append, List.cons.injEq, Row.mk.injEq,
        Line.mk.injEq, true_and, and_true] at h
      exact ⟨by rw [h.1], h.2⟩
    | block header body => simp [rows] at h
  | block header body ih =>
    intro depth y u v hu hv h
    cases y with
    | leaf line => simp [rows] at h
    | block header' body' =>
      simp only [rows, List.cons_append, List.cons.injEq, Row.mk.injEq, Line.mk.injEq, true_and,
        and_true] at h
      obtain ⟨rfl, hrows⟩ := h
      obtain ⟨rfl, rfl⟩ := rowsAll_append_inj ih (fun r hr => Nat.lt_succ_of_le (hu r hr))
        (fun r hr => Nat.lt_succ_of_le (hv r hr)) hrows
      exact ⟨rfl, rfl⟩

theorem rowsAll_inj {depth : Nat} {xs ys : List Outline} (h : rowsAll depth xs = rowsAll depth ys) :
    xs = ys := by
  have hnil : ∀ r ∈ ([] : List Row).head?, r.depth < depth := fun r hr => by cases hr
  rw [← List.append_nil (rowsAll depth xs), ← List.append_nil (rowsAll depth ys)] at h
  exact (rowsAll_append_inj (fun x _ => x.splitsRows) hnil hnil h).1

/-- Each row of a legible outline fills a line, and looks like a header exactly if it is one. -/
theorem Legible.rows {x : Outline} (hx : x.Legible) (depth : Nat) :
    ∀ r ∈ x.rows depth, SingleLine r.text ∧ opensBlock r.text = r.header := by
  induction x generalizing depth with
  | leaf line =>
    cases hx with
    | leaf hline hopens => exact List.forall_mem_singleton.mpr ⟨hline, hopens⟩
  | block header body ih =>
    cases hx with
    | block hline hopens _ hbody =>
      refine List.forall_mem_cons.mpr ⟨⟨hline, hopens⟩, ?_⟩
      rw [rowsAll_eq_flatMap, List.forall_mem_flatMap]
      exact fun x hx => ih x hx (hbody x hx) (depth + 1)

theorem legible_rowsAll {xs : List Outline} (hxs : ∀ x ∈ xs, x.Legible) (depth : Nat) :
    ∀ r ∈ rowsAll depth xs, SingleLine r.text ∧ opensBlock r.text = r.header := by
  rw [rowsAll_eq_flatMap, List.forall_mem_flatMap]
  exact fun x hx => (hxs x hx).rows depth

end Outline

/-! ## The text determines the lines -/

/-- The blanks of a line end where its text begins, and the text ends at the first line break. -/
theorem Line.cut_layout {l : Line} (hl : SingleLine l.text) (indentSize : Nat)
    (rest : List Char) :
    (l.layout indentSize ++ rest).takeWhile (· == ' ') =
        List.replicate (l.depth * indentSize) ' ' ∧
      ((l.layout indentSize ++ rest).dropWhile (· == ' ')).takeWhile (· != '\n') = l.text ∧
      ((l.layout indentSize ++ rest).dropWhile (· == ' ')).dropWhile (· != '\n') =
        '\n' :: rest := by
  have hblanks : ∀ c ∈ List.replicate (l.depth * indentSize) ' ', (c == ' ') = true := by
    intro c hc
    rw [List.eq_of_mem_replicate hc]
    rfl
  have hbegins : EndsRow (· == ' ') (l.text ++ '\n' :: rest) := by
    obtain ⟨c, hc, hne⟩ := hl.begins
    intro d hd
    rw [List.head?_append, Option.mem_def.mp hc] at hd
    cases hd
    exact beq_false_of_ne hne
  have htext : ∀ c ∈ l.text, (c != '\n') = true := by
    intro c hc
    rw [bne_iff_ne]
    rintro rfl
    exact hl.unbroken hc
  have hends : EndsRow (· != '\n') ('\n' :: rest) := endsRow_cons rfl rest
  have hshape : l.layout indentSize ++ rest =
      List.replicate (l.depth * indentSize) ' ' ++ (l.text ++ '\n' :: rest) := by
    simp [Line.layout]
  rw [hshape, Text.takeWhile_row hblanks hbegins, Text.dropWhile_row hblanks hbegins,
    Text.takeWhile_row htext hends, Text.dropWhile_row htext hends]
  exact ⟨rfl, rfl, rfl⟩

theorem Line.layout_append_inj {l m : Line} (hl : SingleLine l.text) (hm : SingleLine m.text)
    {indentSize : Nat} (hindent : 1 ≤ indentSize) {rest rest' : List Char}
    (h : l.layout indentSize ++ rest = m.layout indentSize ++ rest') : l = m ∧ rest = rest' := by
  obtain ⟨hblanks, htext, hrest⟩ := cut_layout hl indentSize rest
  obtain ⟨hblanks', htext', hrest'⟩ := cut_layout hm indentSize rest'
  rw [h, hblanks'] at hblanks
  rw [h, htext'] at htext
  rw [h, hrest'] at hrest
  have hwidth := congrArg List.length hblanks
  rw [List.length_replicate, List.length_replicate] at hwidth
  have hdepth : l.depth = m.depth := Nat.eq_of_mul_eq_mul_right hindent hwidth.symm
  refine ⟨?_, (List.cons.inj hrest).2.symm⟩
  obtain ⟨depth, text⟩ := l
  simp only at hdepth htext
  rw [hdepth, ← htext]

/-- Laid-out lines are read back from their blanks and line breaks. -/
theorem layout_inj {indentSize : Nat} (hindent : 1 ≤ indentSize) {ls ms : List Line}
    (hls : ∀ l ∈ ls, SingleLine l.text) (hms : ∀ m ∈ ms, SingleLine m.text)
    (h : layout indentSize ls = layout indentSize ms) : ls = ms := by
  have hne (l : Line) (ls : List Line) : layout indentSize (l :: ls) ≠ [] := by
    simp [layout, Line.layout]
  induction ls generalizing ms with
  | nil =>
    cases ms with
    | nil => rfl
    | cons m ms => exact absurd h.symm (hne m ms)
  | cons l ls ih =>
    cases ms with
    | nil => exact absurd h (hne l ls)
    | cons m ms =>
      rw [layout, layout, List.flatMap_cons, List.flatMap_cons] at h
      obtain ⟨rfl, hrest⟩ := Line.layout_append_inj (hls l (.head _)) (hms m (.head _)) hindent h
      rw [ih (fun l hl => hls l (.tail _ hl)) (fun m hm => hms m (.tail _ hm)) hrest]

theorem Row.eq_of_map_toLine {rs rs' : List Row} (hrs : ∀ r ∈ rs, opensBlock r.text = r.header)
    (hrs' : ∀ r ∈ rs', opensBlock r.text = r.header)
    (h : rs.map Row.toLine = rs'.map Row.toLine) : rs = rs' := by
  have hback {rs : List Row} (hrs : ∀ r ∈ rs, opensBlock r.text = r.header) :
      (rs.map Row.toLine).map (fun l => ⟨l, opensBlock l.text⟩) = rs := by
    rw [List.map_map]
    refine Eq.trans (List.map_congr_left fun r hr => ?_) (List.map_id rs)
    rw [Function.comp, hrs r hr]
    rfl
  rw [← hback hrs, h, hback hrs']

/-! ## Modules -/

/-- All identifiers at every depth are checked, and every import names something. -/
def Module.Checked (m : Module) : Prop := Stmt.AllNamed Ident.Checked m.body

instance (m : Module) : Decidable m.Checked := inferInstanceAs (Decidable (Stmt.AllNamed _ _))

/-- A text shows an outline: it is laid out from the rows, each of which fills a line and begins like
a header exactly if it is one, and a deeper line stands after each header and nowhere else. -/
structure Outline.ShownBy (indentSize : Nat) (xs : List Outline) (s : String) : Prop where
  text : s.toList = layout indentSize ((rowsAll 0 xs).map Row.toLine)
  single : ∀ r ∈ rowsAll 0 xs, SingleLine r.text
  headers : ∀ r ∈ rowsAll 0 xs, opensBlock r.text = r.header
  nested : Row.Nested (rowsAll 0 xs)

theorem Outline.ShownBy.inj {indentSize : Nat} (hindent : 1 ≤ indentSize) {xs ys : List Outline}
    {s : String} (hx : ShownBy indentSize xs s) (hy : ShownBy indentSize ys s) : xs = ys := by
  have hsingle {zs : List Outline} (hz : ShownBy indentSize zs s) :
      ∀ l ∈ (rowsAll 0 zs).map Row.toLine, SingleLine l.text := by
    rw [List.forall_mem_map]
    exact hz.single
  have hlines := layout_inj hindent (hsingle hx) (hsingle hy) (hx.text.symm.trans hy.text)
  exact rowsAll_inj (Row.eq_of_map_toLine hx.headers hy.headers hlines)

/-- A checked module is printed, and its text shows its outline. -/
theorem Module.exists_shownBy {m : Module} (h : m.Checked) (o : PrintOptions) :
    ∃ xs s, m.outline o.quote = .ok xs ∧ (Node.module m).print o = .ok s ∧
      Outline.ShownBy o.indentSize xs s := by
  obtain ⟨xs, hxs⟩ := Stmt.exists_outlineAll (q := o.quote) (h.imp fun _ hi => hi.ne_empty)
  have hlegible := Stmt.legible_outlineAll h hxs
  have hrows := Outline.legible_rowsAll hlegible 0
  have hnested : Row.Nested (Outline.rowsAll 0 xs ++ []) :=
    Outline.nested_rowsAll (fun x hx _ => Outline.nested_rows (hlegible x hx))
      (fun r hr => by cases hr) trivial
  rw [List.append_nil] at hnested
  exact ⟨xs, _, hxs, print_of_outline hxs, String.toList_ofList, fun r hr => (hrows r hr).1,
    fun r hr => (hrows r hr).2, hnested⟩

/-- Two checked modules print alike exactly if they have the same outline. -/
theorem Node.print_module_eq_iff (o : PrintOptions) (hindent : 1 ≤ o.indentSize) (m₁ m₂ : Module)
    (h₁ : m₁.Checked) (h₂ : m₂.Checked) :
    ∃ xs₁ xs₂ s₁ s₂, m₁.outline o.quote = .ok xs₁ ∧ m₂.outline o.quote = .ok xs₂ ∧
      (Node.module m₁).print o = .ok s₁ ∧ (Node.module m₂).print o = .ok s₂ ∧
      Outline.ShownBy o.indentSize xs₁ s₁ ∧ Outline.ShownBy o.indentSize xs₂ s₂ ∧
      (s₁ = s₂ ↔ xs₁ = xs₂) := by
  obtain ⟨xs₁, s₁, hxs₁, hs₁, hshown₁⟩ := Module.exists_shownBy h₁ o
  obtain ⟨xs₂, s₂, hxs₂, hs₂, hshown₂⟩ := Module.exists_shownBy h₂ o
  refine ⟨xs₁, xs₂, s₁, s₂, hxs₁, hxs₂, hs₁, hs₂, hshown₁, hshown₂, ?_⟩
  constructor
  · rintro rfl
    exact hshown₁.inj hindent hshown₂
  · rintro rfl
    rw [← String.toList_inj, hshown₁.text, hshown₂.text]

/-- A module in which a class called `class` holds an empty class, a declaration and a string with
a line break. -/
def implicitBody : Module where
  body := [.importFrom (.attr (.ofName "lib") ⟨"types"⟩) [⟨"A"⟩, ⟨"B"⟩],
    .classDef ⟨"class"⟩ [.ofName "A"]
      [.classDef ⟨"Inner"⟩ [] [], .annAssign ⟨"class"⟩ (.ofName "int")],
    .expr (.list [.string "class C:\n    pass"])]

/-- The same module with the body of the empty class written out. -/
def explicitBody : Module where
  body := [.importFrom (.attr (.ofName "lib") ⟨"types"⟩) [⟨"A"⟩, ⟨"B"⟩],
    .classDef ⟨"class"⟩ [.ofName "A"]
      [.classDef ⟨"Inner"⟩ [] [.pass], .annAssign ⟨"class"⟩ (.ofName "int")],
    .expr (.list [.string "class C:\n    pass"])]

theorem print_bodies_alike :
    implicitBody.Checked ∧ explicitBody.Checked ∧ implicitBody ≠ explicitBody ∧
      ∃ xs₁ xs₂ s₁ s₂, implicitBody.outline .double = .ok xs₁ ∧
        explicitBody.outline .double = .ok xs₂ ∧
        (Node.module implicitBody).print {} = .ok s₁ ∧
        (Node.module explicitBody).print {} = .ok s₂ ∧
        Outline.ShownBy 4 xs₁ s₁ ∧ Outline.ShownBy 4 xs₂ s₂ ∧ (s₁ = s₂ ↔ xs₁ = xs₂) :=
  ⟨by decide, by decide, by decide,
    Node.print_module_eq_iff {} (by decide) implicitBody explicitBody (by decide) (by decide)⟩

end ScriptTree
