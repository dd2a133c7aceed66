import ScriptTree.Proofs.Draft.Module
import ScriptTree.Proofs.Path.Defects
import ScriptTree.Proofs.Path.Spine
import ScriptTree.Proofs.Print.Outline
import ScriptTree.Proofs.Text.Join

/-!
# Import requests and their lines

A request is accepted if its path is a dotted name without brackets and its symbol is an identifier;
what stands between the dots is not looked at. Its code is one line that holds both as they were
given. The last blank on the line tells them apart, since a symbol has no blank in it, so that
different requests have different lines. A path may hold a line break, and then what is one line to
the printer is several to a reader.
-/
namespace ScriptTree

open Outcome (mapM_eq_ok_iff mapError_eq_error_iff)

namespace Path

/-! ## Dotted names -/

/-- A text without brackets that is empty at no side of a dot. -/
structure ModuleName (path : String) : Prop where
  plain : ∀ c ∈ path.toList, c ≠ '[' ∧ c ≠ ']'
  named : ∀ piece ∈ path.toList.splitOn '.', piece ≠ []

-- The two checks are named, since the search would rather run through all characters.
instance (path : String) : Decidable (ModuleName path) :=
  @decidable_of_iff _ _
    ⟨fun h => ⟨h.1, h.2⟩, fun h => ⟨h.plain, h.named⟩⟩
    (@instDecidableAnd _ _ (List.decidableBAll _ path.toList)
      (List.decidableBAll _ (path.toList.splitOn '.')))

/-- Pieces without subscripts. -/
def plainSegments (pieces : List (List Char)) : List Segment :=
  pieces.map fun piece => ⟨String.ofList piece, []⟩

theorem spells_plainSegments (pieces : List (List Char)) :
    Spells (plainSegments pieces) (List.intercalate ['.'] pieces) := by
  refine ⟨pieces, ?_, rfl⟩
  rw [plainSegments, List.forall₂_map_left_iff, List.forall₂_same]
  intro piece _
  refine ⟨[], ?_, .nil⟩
  rw [String.toList_ofList, List.append_nil]

theorem plainSegments_ne_nil (cs : List Char) : plainSegments (cs.splitOn '.') ≠ [] := by
  rw [plainSegments, ne_eq, List.map_eq_nil_iff]
  exact List.splitOn_ne_nil _ _

theorem ModuleName.segments {path : String} (h : ModuleName path) :
    segments path.toList = .ok (plainSegments (path.toList.splitOn '.')) := by
  have hspells := spells_plainSegments (path.toList.splitOn '.')
  rw [List.intercalate_splitOn] at hspells
  refine segments_eq_ok_iff.mpr ⟨⟨?_, ?_⟩, hspells⟩
  · exact plainSegments_ne_nil _
  · refine List.forall_mem_map.mpr fun piece hpiece => ⟨?_, ?_, fun i hi => nomatch hi⟩
    · rw [ne_eq, String.ofList_eq_empty_iff]
      exact h.named piece hpiece
    · rw [String.toList_ofList]
      intro c hc
      obtain ⟨hdot, hmem⟩ := Text.of_mem_splitOn hpiece hc
      exact ⟨hdot, h.plain c hmem⟩

theorem moduleName_of_moduleExpr {path : String} {e : Expr} (h : moduleExpr path = .ok e) :
    ModuleName path := by
  obtain ⟨ss, hread, hplain, -⟩ := moduleExpr_eq_ok_iff.mp h
  obtain ⟨⟨hne, hvalid⟩, hspells⟩ := segments_eq_ok_iff.mp hread
  have hnames : ss.map (Segment.text .double) = ss.map fun s => s.name.toList := by
    refine List.map_congr_left fun s hs => ?_
    rw [Segment.text, hplain s hs]
    exact List.append_nil _
  have hpath := hspells.eq_of_plain (q := .double) hplain
  rw [hnames] at hpath
  constructor
  · intro c hc
    rw [hpath] at hc
    rcases Text.mem_intercalate hc with hdot | ⟨t, ht, hc⟩
    · cases List.mem_singleton.mp hdot
      decide
    · obtain ⟨s, hs, rfl⟩ := List.mem_map.mp ht
      exact ((hvalid s hs).nameFree c hc).2
  · have hdots : ∀ t ∈ ss.map (fun s => s.name.toList), '.' ∉ t :=
      List.forall_mem_map.mpr fun s hs hdot => ((hvalid s hs).nameFree '.' hdot).1 rfl
    rw [hpath, List.splitOn_intercalate '.' hdots (by rwa [ne_eq, List.map_eq_nil_iff])]
    refine List.forall_mem_map.mpr fun s hs hempty => (hvalid s hs).named ?_
    exact String.toList_eq_nil_iff.mp hempty

/-- The paths of modules are the dotted names. -/
theorem exists_moduleExpr_iff {path : String} :
    (∃ e, moduleExpr path = .ok e) ↔ ModuleName path := by
  constructor
  · intro h
    obtain ⟨e, he⟩ := h
    exact moduleName_of_moduleExpr he
  · intro h
    obtain ⟨e, he⟩ := exists_toExpr? (plainSegments_ne_nil path.toList)
    refine ⟨e, moduleExpr_eq_ok_iff.mpr ⟨_, h.segments, ?_, he⟩⟩
    exact List.forall_mem_map.mpr fun _ _ => rfl

/-- The error for any other path is about the path. -/
theorem exists_invalidPath {path : String} (h : ¬ ModuleName path) :
    ∃ reason span, moduleExpr path = .error (.invalidPath path reason span) := by
  cases hmodule : moduleExpr path with
  | ok e => exact absurd (moduleName_of_moduleExpr hmodule) h
  | error e =>
    rcases error_cases (.inr (.inr hmodule)) with hread | ⟨-, defect, -, rfl⟩
    · obtain ⟨fault, -, rfl⟩ := mapError_eq_error_iff.mp hread
      exact ⟨_, _, rfl⟩
    · exact ⟨_, _, rfl⟩

end Path

namespace Draft

namespace Import

/-! ## Accepted requests -/

theorem exists_ofPath_iff {path symbol : String} :
    (∃ i, ofPath path symbol = .ok i) ↔
      Path.ModuleName path ∧ isIdentifier symbol.toList = true := by
  constructor
  · intro h
    obtain ⟨i, h⟩ := h
    obtain ⟨hsymbol, rfl, -⟩ := ofPath_eq_ok_iff.mp h
    exact ⟨Path.moduleName_of_moduleExpr i.source_eq, hsymbol⟩
  · intro h
    obtain ⟨hpath, hsymbol⟩ := h
    obtain ⟨source, hsource⟩ := Path.exists_moduleExpr_iff.mpr hpath
    exact ⟨⟨path, ⟨symbol⟩, source, hsource⟩, ofPath_eq_ok_iff.mpr ⟨hsymbol, rfl, rfl⟩⟩

/-- The symbol is looked at after the path. -/
theorem ofPath_of_not_isIdentifier {path symbol : String} (h : Path.ModuleName path)
    (hsymbol : isIdentifier symbol.toList = false) :
    ofPath path symbol = .error (.invalidIdentifier symbol) := by
  obtain ⟨source, hsource⟩ := Path.exists_moduleExpr_iff.mpr h
  rw [ofPath_of_moduleExpr hsource, Ident.check, hsymbol]
  rfl

theorem checked_of_ofPath {path symbol : String} {i : Import} (h : ofPath path symbol = .ok i) :
    i.symbol.Checked := by
  obtain ⟨hsymbol, -, heq⟩ := ofPath_eq_ok_iff.mp h
  rw [heq]
  exact hsymbol

/-- The code of a request. -/
def line (i : Import) : String := "from " ++ i.path ++ " import " ++ i.symbol.name ++ "\n"

/-- The same without the line break at its end. -/
def text (i : Import) : List Char :=
  fromWord ++ (i.path.toList ++ (importWord ++ i.symbol.name.toList))

theorem toList_line (i : Import) : i.line.toList = i.text ++ ['\n'] := by
  simp [line, text, fromWord, importWord]

/-- The path and the symbol can be told apart: no blank stands in the symbol. -/
theorem text_injective {i j : Import} (hi : i.symbol.Checked) (hj : j.symbol.Checked)
    (h : i.text = j.text) : i = j := by
  have hblank {s : Ident} (hs : s.Checked) : ' ' ∉ s.name.toList := fun hmem =>
    (ne_space_of_isIdentifierPart (all_part_of_isIdentifier hs ' ' hmem)).1 rfl
  have hsplit (i : Import) : i.text =
      (fromWord ++ i.path.toList ++ [' ', 'i', 'm', 'p', 'o', 'r', 't']) ++
        ' ' :: i.symbol.name.toList := by
    simp [text, importWord]
  rw [hsplit, hsplit] at h
  -- The blank before the symbol is the last one on the line; a path may hold the word `import`.
  obtain ⟨hpath, hsymbol⟩ := Text.append_cons_inj_of_not_mem (hblank hi) (hblank hj) h
  have hpath := List.append_cancel_left (List.append_cancel_right hpath)
  exact key_injective (Prod.ext (String.toList_injective hpath)
    (congrArg Ident.mk (String.toList_injective hsymbol)))

theorem line_injective {i j : Import} (hi : i.symbol.Checked) (hj : j.symbol.Checked)
    (h : i.line = j.line) : i = j := by
  have hlist := congrArg String.toList h
  rw [toList_line, toList_line] at hlist
  exact text_injective hi hj (List.append_cancel_right hlist)

/-- A line holds a line break inside only if the path does. -/
theorem unbroken_text {i : Import} (hi : i.symbol.Checked) (hpath : '\n' ∉ i.path.toList) :
    '\n' ∉ i.text := by
  have hsymbol : '\n' ∉ i.symbol.name.toList := fun hmem =>
    (ne_space_of_isIdentifierPart (all_part_of_isIdentifier hi '\n' hmem)).2 rfl
  simp [text, fromWord, importWord, hpath, hsymbol]

variable {o : PrintOptions}

theorem lines_toStmt {i : Import} (hi : i.symbol.Checked) :
    i.toStmt.lines o.quote 0 = .ok [⟨0, i.text⟩] := by
  have htext : importText o.quote i.source [i.symbol] = .ok i.text := by
    refine importText_eq_ok_iff.mpr ⟨List.cons_ne_nil _ _, ?_, i.path.toList, ?_, ?_⟩
    · exact List.forall_mem_singleton.mpr hi.ne_empty
    · exact Path.text_of_moduleExpr i.source_eq o.quote
    · simp [text, Print.commaJoin]
  rw [toStmt, Stmt.lines, htext]
  rfl

theorem layout_text (i : Import) (n : Nat) :
    String.ofList (layout n [⟨0, i.text⟩]) = i.line := by
  rw [← String.toList_inj, toList_line, String.toList_ofList]
  simp [layout, Line.layout]

theorem codeWith_eq {i : Import} (hi : i.symbol.Checked) :
    (Draft.importFrom i).codeWith o = .ok i.line := by
  show (Node.stmt i.toStmt).print o = .ok i.line
  rw [Node.print, Node.text, Stmt.text, lines_toStmt hi]
  exact congrArg Except.ok (layout_text i o.indentSize)

end Import

end Draft

/-- A statement at the front of a module is printed before the rest. -/
theorem Node.print_module_cons {o : PrintOptions} {s : Stmt} {ls : List Line}
    (h : s.lines o.quote 0 = .ok ls) (body : List Stmt) :
    (Node.module ⟨s :: body⟩).print o = do
      let rest ← (Node.module ⟨body⟩).print o
      return String.ofList (layout o.indentSize ls) ++ rest := by
  simp only [Node.print, Node.text, Module.text, Stmt.textAll, Stmt.linesAll, h]
  cases Stmt.linesAll o.quote 0 body with
  | error f => rfl
  | ok rest =>
    refine congrArg Except.ok ?_
    rw [layout, List.flatMap_append, String.ofList_append]
    rfl

namespace Draft

/-! ## The imports of a module -/

section Imports

variable {o : PrintOptions} {is : List Import}

theorem print_imports (h : ∀ i ∈ is, i.symbol.Checked) (body : List Stmt) :
    (Node.module ⟨is.map Import.toStmt ++ body⟩).print o = do
      let rest ← (Node.module ⟨body⟩).print o
      return String.join (is.map Import.line) ++ rest := by
  induction is with
  | nil => simp
  | cons i is ih =>
    obtain ⟨hi, his⟩ := List.forall_mem_cons.mp h
    rw [List.map_cons, List.cons_append, Node.print_module_cons (Import.lines_toStmt hi), ih his]
    simp only [bind_assoc, pure_bind, Import.layout_text, List.map_cons, String.join_cons,
      String.append_assoc]

theorem nodup_lines (h : ∀ i ∈ is, i.symbol.Checked) (hnodup : is.Nodup) :
    (is.map Import.line).Nodup :=
  hnodup.map_on fun i hi j hj => Import.line_injective (h i hi) (h j hj)

/-- Without line breaks in the paths, the text of the imports is cut into their lines. -/
theorem nodup_splitOn_lines (h : ∀ i ∈ is, i.symbol.Checked) (hnodup : is.Nodup)
    (hpaths : ∀ i ∈ is, '\n' ∉ i.path.toList) :
    ((String.join (is.map Import.line)).toList.splitOn '\n').Nodup := by
  have hjoin : (String.join (is.map Import.line)).toList =
      (is.map Import.text).flatMap (· ++ ['\n']) := by
    rw [String.toList_join, List.flatMap_map, List.flatMap_map]
    exact List.flatMap_congr fun i _ => i.toList_line
  have hunbroken : ∀ t ∈ is.map Import.text, '\n' ∉ t :=
    List.forall_mem_map.mpr fun i hi => Import.unbroken_text (h i hi) (hpaths i hi)
  have hempty : [] ∉ is.map Import.text := by
    intro hmem
    obtain ⟨i, -, hi⟩ := List.mem_map.mp hmem
    cases hi
  have htexts : (is.map Import.text).Nodup :=
    hnodup.map_on fun i hi j hj => Import.text_injective (h i hi) (h j hj)
  rw [hjoin, Text.splitOn_flatMap_concat hunbroken]
  exact List.nodup_append.mpr ⟨htexts, List.nodup_singleton _, fun t ht u hu heq =>
    hempty (List.mem_singleton.mp hu ▸ heq ▸ ht)⟩

end Imports

/-- The imports of a module are accepted requests if the ones that are given to it are. -/
theorem Module.checked_of_run {ts : List Module.Step}
    (h : ∀ i, .importFrom i ∈ ts → ∃ path symbol, Import.ofPath path symbol = .ok i) :
    ∀ i ∈ (run step empty ts).imports, i.symbol.Checked := by
  intro i hi
  rw [run_empty_eq, List.mem_eraseDups] at hi
  obtain ⟨t, ht, hrequest⟩ := List.mem_filterMap.mp hi
  cases t with
  | add s => cases hrequest
  | importFrom j =>
    cases hrequest
    obtain ⟨path, symbol, hj⟩ := h i ht
    exact Import.checked_of_ofPath hj
  | requireImport symbol path =>
    rw [Step.request?] at hrequest
    cases hrequired : Import.ofPath path symbol with
    | error e =>
      rw [hrequired] at hrequest
      cases hrequest
    | ok j =>
      rw [hrequired] at hrequest
      cases hrequest
      exact Import.checked_of_ofPath hrequired

/-- A request is accepted if its path is a dotted name and its symbol an identifier, and otherwise
refused for the path before the symbol. Its code is one line with both on it, by which requests can
be told apart. So the code of a module begins with different pieces of code, one for each import,
and these are the lines of the text unless a line break stands in a path. -/
theorem Import.ofPath_prints_line (path symbol : String) :
    ((∃ i, ofPath path symbol = .ok i) ↔
      Path.ModuleName path ∧ isIdentifier symbol.toList = true) ∧
    (¬ Path.ModuleName path →
      ∃ reason span, ∀ s, ofPath path s = .error (.invalidPath path reason span)) ∧
    (Path.ModuleName path → isIdentifier symbol.toList = false →
      ofPath path symbol = .error (.invalidIdentifier symbol)) ∧
    (∀ i o, ofPath path symbol = .ok i →
      (Draft.importFrom i).codeWith o = .ok ("from " ++ path ++ " import " ++ symbol ++ "\n")) ∧
    (∀ path' symbol' i j o, ofPath path symbol = .ok i → ofPath path' symbol' = .ok j →
      ((Draft.importFrom i).codeWith o = (Draft.importFrom j).codeWith o ↔
        path = path' ∧ symbol = symbol')) ∧
    ∀ ts, (∀ i, .importFrom i ∈ ts → ∃ path symbol, ofPath path symbol = .ok i) →
      ∀ o, ∃ codes,
        (run Module.step .empty ts).imports.mapM (fun i => (Draft.importFrom i).codeWith o) =
          .ok codes ∧
        codes.Nodup ∧
        ((Draft.module (run Module.step .empty ts)).codeWith o = do
          let rest ← (Node.module ⟨(run Module.step .empty ts).statements⟩).print o
          return String.join codes ++ rest) ∧
        ((∀ i ∈ (run Module.step .empty ts).imports, '\n' ∉ i.path.toList) →
          ((String.join codes).toList.splitOn '\n').Nodup) := by
  refine ⟨exists_ofPath_iff, fun hpath => ?_, ofPath_of_not_isIdentifier, fun i o hi => ?_,
    fun path' symbol' i j o hi hj => ?_, fun ts hts o => ?_⟩
  · obtain ⟨reason, span, herror⟩ := Path.exists_invalidPath hpath
    exact ⟨reason, span, ofPath_of_error herror⟩
  · obtain ⟨-, rfl, hsymbol⟩ := ofPath_eq_ok_iff.mp hi
    rw [codeWith_eq (checked_of_ofPath hi), line, hsymbol]
  · rw [codeWith_eq (checked_of_ofPath hi), codeWith_eq (checked_of_ofPath hj)]
    obtain ⟨-, hpath, hsymbol⟩ := ofPath_eq_ok_iff.mp hi
    obtain ⟨-, hpath', hsymbol'⟩ := ofPath_eq_ok_iff.mp hj
    constructor
    · intro heq
      have hsame := line_injective (checked_of_ofPath hi) (checked_of_ofPath hj)
        (Except.ok.inj heq)
      rw [← hpath, ← hpath', hsame]
      refine ⟨rfl, ?_⟩
      rw [hsame, hsymbol'] at hsymbol
      exact (congrArg Ident.name hsymbol).symm
    · intro heq
      rw [line, line, hpath, hpath', hsymbol, hsymbol', heq.1, heq.2]
  · have hchecked := Module.checked_of_run hts
    have hnodup : (run Module.step .empty ts).imports.Nodup := by
      rw [Module.run_empty_eq]
      exact nodup_eraseDups _
    refine ⟨(run Module.step .empty ts).imports.map line, ?_, nodup_lines hchecked hnodup,
      print_imports hchecked _, nodup_splitOn_lines hchecked hnodup⟩
    rw [mapM_eq_ok_iff, List.forall₂_map_right_iff, List.forall₂_same]
    exact fun i hi => codeWith_eq (hchecked i hi)

/-- The import of `A` from `lib.a`. -/
def libImport : Import := ⟨"lib.a", ⟨"A"⟩, .attr (.ofName "lib") ⟨"a"⟩, by decide +kernel⟩

/-- A request that is made twice and one for another symbol. -/
def libRun : List Module.Step :=
  [.importFrom libImport, .requireImport "B" "lib.b", .importFrom libImport]

theorem Import.ofPath_prints_line_lib :
    ¬ Path.ModuleName "lib[0]" ∧ Path.ModuleName "lib.a" ∧
      (∃ reason span, ofPath "lib[0]" "" = .error (.invalidPath "lib[0]" reason span)) ∧
      ofPath "lib.a" "" = .error (.invalidIdentifier "") ∧
      ofPath "lib.a" "A" = .ok libImport ∧
      (Draft.importFrom libImport).codeWith {} = .ok "from lib.a import A\n" ∧
      (∃ j, ofPath "lib.b" "A" = .ok j ∧
        (Draft.importFrom libImport).codeWith {} ≠ (Draft.importFrom j).codeWith {}) ∧
      (∀ i, .importFrom i ∈ libRun → ∃ path symbol, ofPath path symbol = .ok i) ∧
      ∃ codes,
        (run Module.step .empty libRun).imports.mapM (fun i => (Draft.importFrom i).codeWith {}) =
          .ok codes ∧
        codes.Nodup ∧ ((String.join codes).toList.splitOn '\n').Nodup := by
  have hbad : ¬ Path.ModuleName "lib[0]" := by decide +kernel
  have hgood : Path.ModuleName "lib.a" := by decide +kernel
  have hlib : ofPath "lib.a" "A" = .ok libImport := ofPath_eq_ok_iff.mpr ⟨by decide, rfl, rfl⟩
  have haccepted : ∀ i, .importFrom i ∈ libRun → ∃ path symbol, ofPath path symbol = .ok i := by
    intro i hi
    have heq : i = libImport := by simpa [libRun] using hi
    exact ⟨"lib.a", "A", heq ▸ hlib⟩
  obtain ⟨reason, span, herror⟩ := (ofPath_prints_line "lib[0]" "").2.1 hbad
  obtain ⟨-, -, hsymbol, -⟩ := ofPath_prints_line "lib.a" ""
  obtain ⟨-, -, -, hcode, hsame, hmodule⟩ := ofPath_prints_line "lib.a" "A"
  obtain ⟨j, hj⟩ := (ofPath_prints_line "lib.b" "A").1.mpr (by decide +kernel)
  obtain ⟨codes, hcodes, hnodup, -, hlines⟩ := hmodule libRun haccepted {}
  refine ⟨hbad, hgood, ⟨reason, span, herror ""⟩, hsymbol hgood (by decide), hlib,
    hcode libImport {} hlib, ⟨j, hj, fun heq => ?_⟩, haccepted, codes, hcodes, hnodup, hlines ?_⟩
  · exact absurd ((hsame "lib.b" "A" libImport j {} hlib hj).mp heq).1 (by decide)
  · decide +kernel

/-- Two requests, of which the second has a line break in its path. -/
def brokenRun : List Module.Step :=
  [.requireImport "A" "x", .requireImport "B" "x import A\nfrom y"]

/-- With a line break in a path, a line of one import can be a line of another one. -/
theorem Module.brokenRun_repeats_line :
    ((run step .empty brokenRun).imports.map fun i => (i.path, i.symbol.name)) =
        [("x", "A"), ("x import A\nfrom y", "B")] ∧
      (Draft.module (run step .empty brokenRun)).code =
        .ok "from x import A\nfrom x import A\nfrom y import B\n" ∧
      ¬ ("from x import A\nfrom x import A\nfrom y import B\n".toList.splitOn '\n').Nodup := by
  decide +kernel

end Draft

end ScriptTree
