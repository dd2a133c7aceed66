import ScriptTree.Proofs.Print.Refusal

/-!
# Printed modules are composed of their lines

The text of a module is the text of the rows of its outline, from top to bottom, each after blanks
for its depth. So the text is made of the texts of the statements in it, the indent size enters
nowhere but in the number of blanks, and a statement inside classes brings the same rows as on its
own, only deeper, whatever stands around it. The same text is written by one pass over the statements
that keeps the text so far and the depth of the next line; each statement adds its own lines to the
text and leaves the depth as it was.
-/
namespace ScriptTree

open Print (Fault)
open Outcome (bind₂_eq_ok_iff pure_eq_ok_iff)

/-! ## Rows as text -/

/-- The row some levels deeper. -/
def Row.deeper (levels : Nat) (r : Row) : Row := { r with depth := r.depth + levels }

/-- The text of rows under each other: for each its blanks, its line and a line break. -/
def Row.page (indentSize : Nat) (rs : List Row) : String :=
  String.ofList (rs.flatMap fun r =>
    List.replicate (r.depth * indentSize) ' ' ++ (r.text ++ ['\n']))

theorem Row.page_append (n : Nat) (rs rs' : List Row) :
    page n (rs ++ rs') = page n rs ++ page n rs' := by
  rw [page, List.flatMap_append, String.ofList_append]
  rfl

theorem layout_toLine (n : Nat) (rs : List Row) :
    String.ofList (layout n (rs.map Row.toLine)) = Row.page n rs := by
  rw [layout, List.flatMap_map]
  rfl

namespace Outline

/-- Outlines under each other have their rows under each other. -/
theorem rowsAll_append (depth : Nat) (xs ys : List Outline) :
    rowsAll depth (xs ++ ys) = rowsAll depth xs ++ rowsAll depth ys := by
  rw [rowsAll_eq_flatMap, rowsAll_eq_flatMap, rowsAll_eq_flatMap, List.flatMap_append]

theorem page_rowsAll (n depth : Nat) (xs : List Outline) :
    Row.page n (rowsAll depth xs) = String.join (xs.map fun x => Row.page n (x.rows depth)) := by
  induction xs with
  | nil => rfl
  | cons x xs ih => rw [rowsAll, Row.page_append, ih, List.map_cons, String.join_cons]

/-- An outline brings the same rows at every depth. -/
theorem rows_deeper (x : Outline) (depth levels : Nat) :
    x.rows (depth + levels) = (x.rows depth).map (Row.deeper levels) := by
  induction x generalizing depth with
  | leaf line => rfl
  | block header body ih =>
    have hbody : rowsAll (depth + levels + 1) body =
        (rowsAll (depth + 1) body).map (Row.deeper levels) := by
      rw [rowsAll_eq_flatMap, rowsAll_eq_flatMap, List.map_flatMap, Nat.add_right_comm]
      exact List.flatMap_congr fun x hx => ih x hx (depth + 1)
    rw [rows, rows, hbody]
    rfl

end Outline

section Composed

variable {q : QuoteStyle} {o : PrintOptions}

/-! ## Statements inside classes -/

namespace Stmt

theorem outlineAll_append_eq_ok_iff {ss ts : List Stmt} {zs : List Outline} :
    outlineAll q (ss ++ ts) = .ok zs ↔
      ∃ xs ys, outlineAll q ss = .ok xs ∧ outlineAll q ts = .ok ys ∧ xs ++ ys = zs := by
  simp only [outlineAll_eq_mapM, List.mapM_append, bind₂_eq_ok_iff, pure_eq_ok_iff]

theorem outlineAll_around_eq_ok_iff {before after : List Stmt} {s : Stmt} {zs : List Outline} :
    outlineAll q (before ++ s :: after) = .ok zs ↔
      ∃ xs x ys, outlineAll q before = .ok xs ∧ s.outline q = .ok x ∧ outlineAll q after = .ok ys ∧
        xs ++ x :: ys = zs := by
  simp only [outlineAll_append_eq_ok_iff, outlineAll, bind₂_eq_ok_iff, pure_eq_ok_iff]
  constructor
  · intro heq
    obtain ⟨xs, _, hxs, ⟨x, ys, hx, hys, rfl⟩, rfl⟩ := heq
    exact ⟨xs, x, ys, hxs, hx, hys, rfl⟩
  · intro heq
    obtain ⟨xs, x, ys, hxs, hx, hys, rfl⟩ := heq
    exact ⟨xs, x :: ys, hxs, ⟨x, ys, hx, hys, rfl⟩, rfl⟩

/-- A place among statements: what stands before and after it, and the class that it is in. -/
inductive Place
  | here (before after : List Stmt)
  | inside (before : List Stmt) (name : Ident) (bases : List Expr) (place : Place)
      (after : List Stmt)

namespace Place

/-- The statements with one put at the place. -/
def fill (s : Stmt) : Place → List Stmt
  | here before after => before ++ s :: after
  | inside before name bases place after => before ++ .classDef name bases (place.fill s) :: after

/-- How many classes are around the place. -/
def levels : Place → Nat
  | here _ _ => 0
  | inside _ _ _ place _ => place.levels + 1

theorem fill_ne_nil (p : Place) (s : Stmt) : p.fill s ≠ [] := by
  cases p <;> simp [fill]

/-- A class with a place in it is not empty, so its block is what stands in it. -/
theorem bodyOf_fill {p : Place} {s : Stmt} {xs : List Outline}
    (h : outlineAll q (p.fill s) = .ok xs) : Outline.bodyOf xs = xs := by
  have hforall := outlineAll_eq_ok_iff.mp h
  cases xs with
  | nil => exact absurd (List.forall₂_nil_right_iff.mp hforall) (p.fill_ne_nil s)
  | cons x xs => rfl

/-- The rows of statements are those of the one at a place, as deep as the place is, and rows before
and after it that are the same for every statement there. -/
theorem exists_rows (p : Place) {s : Stmt} {xs : List Outline} (depth : Nat)
    (h : outlineAll q (p.fill s) = .ok xs) :
    ∃ before after, (∃ x, s.outline q = .ok x) ∧ ∀ t y, t.outline q = .ok y →
      ∃ ys, outlineAll q (p.fill t) = .ok ys ∧
        Outline.rowsAll depth ys = before ++ (y.rows (depth + p.levels) ++ after) := by
  induction p generalizing xs depth with
  | here before after =>
    obtain ⟨xs, x, zs, hxs, hx, hzs, rfl⟩ := outlineAll_around_eq_ok_iff.mp h
    refine ⟨Outline.rowsAll depth xs, Outline.rowsAll depth zs, ⟨x, hx⟩, fun t y hy => ?_⟩
    refine ⟨xs ++ y :: zs, outlineAll_around_eq_ok_iff.mpr ⟨xs, y, zs, hxs, hy, hzs, rfl⟩, ?_⟩
    rw [Outline.rowsAll_append, Outline.rowsAll]
    rfl
  | inside before name bases p after ih =>
    obtain ⟨xs, x, zs, hxs, hx, hzs, rfl⟩ := outlineAll_around_eq_ok_iff.mp h
    obtain ⟨header, inner, hheader, hinner, -⟩ := outline_classDef_eq_ok_iff.mp hx
    obtain ⟨above, below, hs, hplace⟩ := ih (depth + 1) (outlineAll_eq_ok_iff.mpr hinner)
    refine ⟨Outline.rowsAll depth xs ++ ⟨⟨depth, header⟩, true⟩ :: above,
      below ++ Outline.rowsAll depth zs, hs, fun t y hy => ?_⟩
    obtain ⟨ys, hys, hrows⟩ := hplace t y hy
    have hclass : (classDef name bases (p.fill t)).outline q = .ok (.block header ys) :=
      outline_classDef_eq_ok_iff.mpr
        ⟨header, ys, hheader, outlineAll_eq_ok_iff.mp hys, by rw [bodyOf_fill hys]⟩
    refine ⟨xs ++ .block header ys :: zs,
      outlineAll_around_eq_ok_iff.mpr ⟨xs, _, zs, hxs, hclass, hzs, rfl⟩, ?_⟩
    have hlevels : depth + 1 + p.levels = depth + (inside before name bases p after).levels := by
      rw [levels]
      omega
    rw [Outline.rowsAll_append, Outline.rowsAll, Outline.rows, hrows, hlevels]
    simp only [List.cons_append, List.append_assoc]

end Place

end Stmt

/-! ## One pass over the statements -/

/-- What a pass over statements keeps: the text so far and the depth of the next line. -/
structure Page where
  text : List Char
  depth : Nat

namespace Page

/-- Adds a line to the text. -/
def push (indentSize : Nat) (p : Page) (line : List Char) : Page :=
  { p with text := p.text ++ (List.replicate (p.depth * indentSize) ' ' ++ (line ++ ['\n'])) }

def indent (p : Page) : Page := { p with depth := p.depth + 1 }

def dedent (p : Page) : Page := { p with depth := p.depth - 1 }

/-- The page with lines added to the text, and the depth that it had. -/
def extend (indentSize : Nat) (p : Page) (lines : List Line) : Page :=
  { p with text := p.text ++ layout indentSize lines }

theorem extend_nil (n : Nat) (p : Page) : p.extend n [] = p := by
  rw [extend, layout, List.flatMap_nil, List.append_nil]

theorem extend_append (n : Nat) (p : Page) (ls ms : List Line) :
    (p.extend n ls).extend n ms = p.extend n (ls ++ ms) := by
  rw [extend, extend, extend, layout, layout, layout, List.flatMap_append, List.append_assoc]

theorem extend_singleton (n : Nat) (p : Page) (line : List Char) :
    p.extend n [⟨p.depth, line⟩] = p.push n line := by
  rw [extend, layout, List.flatMap_singleton]
  rfl

/-- What is written between going one level down and up again stands one level deeper. -/
theorem dedent_extend_indent (n : Nat) (p : Page) (ls : List Line) :
    (p.indent.extend n ls).dedent = p.extend n ls := rfl

end Page

mutual

/-- Adds a statement to a page. The body of a class is written one level deeper, after which the
depth is taken back. -/
def Stmt.write (o : PrintOptions) (p : Page) : Stmt → Except Fault Page
  | .classDef name bases body => do
    let p := (p.push o.indentSize (← headerText o.quote name bases)).indent
    let p ← Stmt.writeAll o (if body.isEmpty then p.push o.indentSize passLine else p) body
    return p.dedent
  | s => return p.push o.indentSize (← s.label o.quote)
termination_by structural s => s

def Stmt.writeAll (o : PrintOptions) (p : Page) : List Stmt → Except Fault Page
  | [] => .ok p
  | s :: ss => do
    let p ← s.write o p
    Stmt.writeAll o p ss
termination_by structural ss => ss

end

theorem Stmt.writeAll_eq_of_forall {ss : List Stmt} {p : Page}
    (h : ∀ s ∈ ss, ∀ p : Page, s.write o p =
      (s.lines o.quote p.depth >>= fun lines => pure (p.extend o.indentSize lines))) :
    Stmt.writeAll o p ss =
      (Stmt.linesAll o.quote p.depth ss >>= fun lines => pure (p.extend o.indentSize lines)) := by
  induction ss generalizing p with
  | nil => exact congrArg Except.ok (p.extend_nil o.indentSize).symm
  | cons s ss ih =>
    obtain ⟨hs, hss⟩ := List.forall_mem_cons.mp h
    have hrest (lines : List Line) : Stmt.writeAll o (p.extend o.indentSize lines) ss =
        (Stmt.linesAll o.quote p.depth ss >>= fun rest =>
          pure (p.extend o.indentSize (lines ++ rest))) := by
      simp only [ih hss, Page.extend_append]
      rfl
    rw [writeAll, hs, linesAll]
    simp only [bind_assoc, pure_bind, hrest]

/-- A statement adds its lines to a page and leaves the depth as it was. -/
theorem Stmt.write_eq (s : Stmt) (p : Page) :
    s.write o p =
      (s.lines o.quote p.depth >>= fun lines => pure (p.extend o.indentSize lines)) := by
  induction s using Stmt.induct_class generalizing p with
  | line s hs =>
    have hwrite : s.write o p = (s.label o.quote >>= fun t => pure (p.push o.indentSize t)) := by
      cases s with
      | classDef name bases body => cases hs
      | _ => rfl
    rw [hwrite, lines_eq_label hs]
    simp only [bind_assoc, pure_bind, Page.extend_singleton]
  | classDef name bases body ih =>
    have hheader (header : List Char) (ls : List Line) :
        ((p.push o.indentSize header).indent.extend o.indentSize ls).dedent =
          p.extend o.indentSize (⟨p.depth, header⟩ :: ls) := by
      rw [Page.dedent_extend_indent, ← Page.extend_singleton, Page.extend_append]
      rfl
    rw [write, lines]
    simp only [bind_assoc, pure_bind]
    refine bind_congr fun header => ?_
    cases body with
    | nil =>
      rw [List.isEmpty_nil, if_pos rfl, ← Page.extend_singleton]
      exact congrArg Except.ok (hheader header [⟨p.depth + 1, passLine⟩])
    | cons s ss =>
      simp only [List.isEmpty_cons, Bool.false_eq_true, if_false, writeAll_eq_of_forall ih,
        bind_assoc, pure_bind, hheader]
      rfl

theorem Stmt.writeAll_eq (ss : List Stmt) (p : Page) :
    Stmt.writeAll o p ss =
      (Stmt.linesAll o.quote p.depth ss >>= fun lines => pure (p.extend o.indentSize lines)) :=
  writeAll_eq_of_forall fun s _ p => s.write_eq p

/-! ## Texts of statements and modules -/

theorem Stmt.print_of_outline {s : Stmt} {x : Outline} (h : s.outline o.quote = .ok x) :
    (Node.stmt s).print o = .ok (Row.page o.indentSize (x.rows 0)) := by
  rw [Node.print, Node.text, Stmt.text, lines_of_outline h, ← layout_toLine]
  rfl

/-- The printed modules are those that have an outline, and their texts are those of its rows. -/
theorem Module.print_eq_ok_iff {m : Module} {text : String} :
    (Node.module m).print o = .ok text ↔
      ∃ xs, m.outline o.quote = .ok xs ∧ Row.page o.indentSize (Outline.rowsAll 0 xs) = text := by
  constructor
  · intro h
    obtain ⟨xs, hxs⟩ := Stmt.exists_outlineAll (q := o.quote) (Node.exists_print_iff.mp ⟨text, h⟩)
    rw [print_of_outline hxs, layout_toLine] at h
    exact ⟨xs, hxs, Except.ok.inj h⟩
  · intro heq
    obtain ⟨xs, hxs, rfl⟩ := heq
    rw [print_of_outline hxs, layout_toLine]

/-- A module that goes on after a printed one is printed exactly if what goes on is, after it. -/
theorem Module.print_append_iff {m : Module} {text : String}
    (h : (Node.module m).print o = .ok text) (ts : List Stmt) (v : String) :
    (Node.module ⟨m.body ++ ts⟩).print o = .ok v ↔
      ∃ u, (Node.module ⟨ts⟩).print o = .ok u ∧ v = text ++ u := by
  obtain ⟨xs, hxs, rfl⟩ := print_eq_ok_iff.mp h
  have hxs : Stmt.outlineAll o.quote m.body = .ok xs := hxs
  simp only [print_eq_ok_iff, outline, Stmt.outlineAll_append_eq_ok_iff, hxs]
  constructor
  · intro heq
    obtain ⟨_, ⟨_, ys, ⟨⟩, hys, rfl⟩, rfl⟩ := heq
    refine ⟨_, ⟨ys, hys, rfl⟩, ?_⟩
    rw [Outline.rowsAll_append, Row.page_append]
  · intro heq
    obtain ⟨_, ⟨ys, hys, rfl⟩, rfl⟩ := heq
    refine ⟨_, ⟨xs, ys, rfl, hys, rfl⟩, ?_⟩
    rw [Outline.rowsAll_append, Row.page_append]

/-- A text is composed of the rows of an outline of the module. -/
structure Module.Composed (m : Module) (o : PrintOptions) (text : String) (xs : List Outline) :
    Prop where
  outline : m.outline o.quote = .ok xs
  rows : text = Row.page o.indentSize (Outline.rowsAll 0 xs)
  /-- One pass over the statements writes the text and ends at the depth at which it began. -/
  written : Stmt.writeAll o ⟨[], 0⟩ m.body = .ok ⟨text.toList, 0⟩
  /-- Under another indent size the same rows stand after other blanks. -/
  rescaled : ∀ n, (Node.module m).print { o with indentSize := n } =
    .ok (Row.page n (Outline.rowsAll 0 xs))
  /-- The text is that of the statements under each other. -/
  statements : ∃ texts, List.Forall₂ (fun s t => (Node.stmt s).print o = .ok t) m.body texts ∧
    text = String.join texts
  /-- What comes after the module is printed after it. -/
  followed : ∀ ts v, (Node.module ⟨m.body ++ ts⟩).print o = .ok v ↔
    ∃ u, (Node.module ⟨ts⟩).print o = .ok u ∧ v = text ++ u
  /-- A statement at a place inside classes brings the rows that it has on its own, as much deeper,
  and so does every other one that is put there; the rows around it stay as they are. -/
  nested : ∀ (p : Stmt.Place) s, p.fill s = m.body → ∃ x before after,
    s.outline o.quote = .ok x ∧ (Node.stmt s).print o = .ok (Row.page o.indentSize (x.rows 0)) ∧
    Outline.rowsAll 0 xs = before ++ ((x.rows 0).map (Row.deeper p.levels) ++ after) ∧
    ∀ t y, t.outline o.quote = .ok y →
      (Node.module ⟨p.fill t⟩).print o = .ok (Row.page o.indentSize
        (before ++ ((y.rows 0).map (Row.deeper p.levels) ++ after)))

/-- The text of a printed module is composed of the rows of its outline. -/
theorem Module.print_composed (m : Module) (o : PrintOptions) (text : String)
    (h : (Node.module m).print o = .ok text) : ∃ xs, Module.Composed m o text xs := by
  obtain ⟨xs, hxs, hrows⟩ := print_eq_ok_iff.mp h
  refine ⟨xs, hxs, hrows.symm, ?_, fun n => ?_, ?_, print_append_iff h, fun p s hs => ?_⟩
  · rw [Stmt.writeAll_eq, Stmt.linesAll_of_outlineAll hxs, ← hrows, ← layout_toLine,
      String.toList_ofList]
    rfl
  · exact print_eq_ok_iff.mpr ⟨xs, hxs, rfl⟩
  · refine ⟨xs.map fun x => Row.page o.indentSize (x.rows 0), ?_, ?_⟩
    · rw [List.forall₂_map_right_iff]
      exact (Stmt.outlineAll_eq_ok_iff.mp hxs).imp fun _ _ => Stmt.print_of_outline
    · rw [← hrows, Outline.page_rowsAll]
  · have hbody : Stmt.outlineAll o.quote (p.fill s) = .ok xs := hs ▸ hxs
    obtain ⟨before, after, ⟨x, hx⟩, hplace⟩ := p.exists_rows 0 hbody
    simp only [Outline.rows_deeper] at hplace
    obtain ⟨ys, hys, hsplit⟩ := hplace s x hx
    rw [hbody] at hys
    cases hys
    refine ⟨x, before, after, hx, Stmt.print_of_outline hx, hsplit, fun t y hy => ?_⟩
    obtain ⟨ys, hys, hrows⟩ := hplace t y hy
    exact print_eq_ok_iff.mpr ⟨ys, hys, by rw [hrows]⟩

end Composed

/-- A module with a class in a class, of which the inner one is empty. -/
def classInClass : Module where
  body := [.importFrom (.ofName "m") [⟨"B"⟩],
    .classDef ⟨"A"⟩ [.ofName "B"]
      [.classDef ⟨"C"⟩ [] [], .annAssign ⟨"x"⟩ (.ofName "int")],
    .assign ⟨"y"⟩ (.ofName "A")]

def classInClassText : String :=
  "from m import B\nclass A(B):\n    class C:\n        pass\n    x: int\ny = A\n"

theorem Module.print_composed_classInClass :
    (Node.module classInClass).print {} = .ok classInClassText ∧
      ∃ xs, Module.Composed classInClass {} classInClassText xs :=
  ⟨rfl, Module.print_composed classInClass {} classInClassText rfl⟩

end ScriptTree
