import ScriptTree.Draft
import ScriptTree.Proofs.Keyed
import ScriptTree.Proofs.Path.Spine

/-!
# What a call collects

Two lists describe a run of a call: the positional values and the settings of keywords in it, each
in the order given. The tree of the call has the positional values first and then one named argument
for each keyword, at the place where it was set first and with the value that it was set to last.
Nothing else of the run matters: not how steps of the two kinds are interleaved, and not whether
values come one by one. The code of a call is put together from the code of its parts.
-/
namespace ScriptTree

/-! ## The code of a call -/

/-- The code of an argument is that of its value, after the keyword and an equals sign if it is
named; there is none for an empty keyword. -/
def Argument.HasCode (o : PrintOptions) (x : Argument Expr) (code : String) : Prop :=
  match x.keyword with
  | none => (Node.expr x.value).print o = .ok code
  | some k => k.name ≠ "" ∧
      ∃ value, (Node.expr x.value).print o = .ok value ∧ k.name ++ " = " ++ value = code

section Code

variable {o : PrintOptions} {code : String}

theorem Argument.hasCode_iff {x : Argument Expr} :
    x.HasCode o code ↔ x.text o.quote = .ok code.toList := by
  obtain ⟨keyword, v⟩ := x
  cases keyword with
  | none => exact Node.print_expr_iff_text
  | some k =>
    rw [text_named_eq_ok_iff]
    constructor
    · intro heq
      obtain ⟨hk, value, hvalue, rfl⟩ := heq
      refine ⟨value.toList, hk, Node.print_expr_iff_text.mp hvalue, ?_⟩
      simp
    · intro heq
      obtain ⟨tv, hk, hv, hcode⟩ := heq
      refine ⟨hk, String.ofList tv, Node.print_expr_eq_ok_iff.mpr ⟨tv, hv, rfl⟩, ?_⟩
      rw [← String.toList_inj, ← hcode]
      simp

theorem toList_callText (callee : String) (codes : List String) :
    (callee ++ "(" ++ ", ".intercalate codes ++ ")").toList =
      callee.toList ++ '(' :: (Print.commaJoin (codes.map String.toList) ++ [')']) := by
  simp [Print.commaJoin, String.toList_intercalate]

/-- A call is printed as its callee and, in parentheses and between commas, its arguments. -/
theorem Node.print_call_eq_ok_iff {f : Expr} {xs : List (Argument Expr)} :
    (Node.expr (.call f xs)).print o = .ok code ↔
      ∃ callee codes, (Node.expr f).print o = .ok callee ∧
        List.Forall₂ (fun x t => x.HasCode o t) xs codes ∧
        callee ++ "(" ++ ", ".intercalate codes ++ ")" = code := by
  rw [print_expr_iff_text, Expr.text_call_eq_ok_iff]
  constructor
  · intro heq
    obtain ⟨tf, ts, hf, hts, hcode⟩ := heq
    refine ⟨String.ofList tf, ts.map String.ofList, print_expr_eq_ok_iff.mpr ⟨tf, hf, rfl⟩, ?_, ?_⟩
    · rw [List.forall₂_map_right_iff]
      refine hts.imp fun x t ht => ?_
      rwa [Argument.hasCode_iff, String.toList_ofList]
    · rw [← String.toList_inj, ← hcode, toList_callText]
      simp [Function.comp_def]
  · intro heq
    obtain ⟨callee, codes, hf, hcodes, rfl⟩ := heq
    refine ⟨callee.toList, codes.map String.toList, print_expr_iff_text.mp hf, ?_, ?_⟩
    · rw [List.forall₂_map_right_iff]
      exact hcodes.imp fun _ _ => Argument.hasCode_iff.mp
    · rw [toList_callText]

end Code

namespace Draft.Call

/-! ## Runs -/

namespace Step

/-- The positional values of a step. -/
def positional : Step → List Value
  | .arg value => [value]
  | .args values => values
  | .kwarg _ _ => []
  | .kwargs _ => []

/-- The keywords that a step sets, with their values. -/
def settings : Step → List (String × Value)
  | .arg _ => []
  | .args _ => []
  | .kwarg name value => [(name, value)]
  | .kwargs values => values

end Step

/-- The call after a run. -/
def run (c : Call) (ts : List Step) : Call := ts.foldl step c

def positionals (ts : List Step) : List Value := ts.flatMap Step.positional

def settings (ts : List Step) : List (String × Value) := ts.flatMap Step.settings

theorem addArgs_eq (c : Call) (vs : List Value) :
    c.addArgs vs = { c with args := c.args ++ vs.map Value.resolve } := by
  induction vs generalizing c with
  | nil => rw [List.map_nil, List.append_nil]; rfl
  | cons v vs ih =>
    rw [addArgs, List.foldl_cons, ← addArgs, ih, addArg, List.append_assoc]
    rfl

/-- The value of a setting as a tree. -/
def resolved (e : String × Value) : String × Expr := (e.1, e.2.resolve)

theorem setKwargs_eq (c : Call) (es : List (String × Value)) :
    c.setKwargs es =
      { c with
        kwargs := (es.map resolved).foldl (fun acc e => Keyed.put e.1 e.2 acc) c.kwargs } := by
  induction es generalizing c with
  | nil => rfl
  | cons e es ih =>
    rw [setKwargs, List.foldl_cons, ← setKwargs, ih]
    rfl

theorem step_eq (c : Call) (t : Step) :
    step c t =
      ⟨c.func, c.args ++ t.positional.map Value.resolve,
        (t.settings.map resolved).foldl (fun acc e => Keyed.put e.1 e.2 acc) c.kwargs⟩ := by
  cases t with
  | arg v => rfl
  | args vs => exact addArgs_eq c vs
  | kwarg name v =>
    rw [Step.positional, List.map_nil, List.append_nil]
    rfl
  | kwargs es =>
    rw [Step.positional, List.map_nil, List.append_nil]
    exact setKwargs_eq c es

theorem run_eq (c : Call) (ts : List Step) :
    run c ts =
      ⟨c.func, c.args ++ (positionals ts).map Value.resolve,
        ((settings ts).map resolved).foldl (fun acc e => Keyed.put e.1 e.2 acc) c.kwargs⟩ := by
  induction ts generalizing c with
  | nil => simp [run, positionals, settings]
  | cons t ts ih =>
    rw [run, List.foldl_cons, ← run, ih, step_eq]
    simp only [positionals, settings, List.flatMap_cons, List.map_append, List.append_assoc,
      List.foldl_append]

/-- Only the two lists matter. -/
theorem run_congr {ts us : List Step} (c : Call) (hvalues : positionals us = positionals ts)
    (hsettings : settings us = settings ts) : run c us = run c ts := by
  rw [run_eq, run_eq, hvalues, hsettings]

/-! ## The tree and the code after a run -/

/-- There is one keyword argument for each keyword that was given, in the order in which the
keywords were given first, with the tree of the value that was given last. -/
structure Collects (given : List (String × Value)) (kwargs : List (String × Expr)) : Prop where
  names : kwargs.map Prod.fst = (given.map Prod.fst).eraseDups
  values : ∀ name e, (name, e) ∈ kwargs ↔ ∃ before v after,
    given = before ++ (name, v) :: after ∧ name ∉ after.map Prod.fst ∧ v.resolve = e

theorem map_fst_resolved (es : List (String × Value)) :
    (es.map resolved).map Prod.fst = es.map Prod.fst := by
  rw [List.map_map]
  rfl

theorem collects_ofList (given : List (String × Value)) :
    Collects given (Keyed.ofList (given.map resolved)) where
  names := by rw [Keyed.keys_ofList, map_fst_resolved]
  values := by
    intro name e
    rw [Keyed.mem_ofList_iff]
    constructor
    · intro heq
      obtain ⟨before, after, hsplit, hafter⟩ := heq
      obtain ⟨before, rest, rfl, rfl, hrest⟩ := List.map_eq_append_iff.mp hsplit
      obtain ⟨⟨name, v⟩, after, rfl, ⟨⟩, rfl⟩ := List.map_eq_cons_iff.mp hrest
      exact ⟨before, v, after, rfl, map_fst_resolved after ▸ hafter, rfl⟩
    · intro heq
      obtain ⟨before, v, after, rfl, hafter, rfl⟩ := heq
      refine ⟨before.map resolved, after.map resolved, by simp [resolved], ?_⟩
      rwa [map_fst_resolved]

/-- The arguments of a call: the values in their order and then the keywords. -/
def arguments (values : List Value) (kwargs : List (String × Expr)) : List (Argument Expr) :=
  values.map (fun v => .positional v.resolve) ++ kwargs.map fun e => .named e.1 e.2

/-- The code that a callee has on its own is what it prints. -/
theorem codeWith_expr_of_path {callee : String} {f : Expr} (h : Path.expr callee = .ok f)
    (o : PrintOptions) : (Draft.expr f).codeWith o = (Node.expr f).print o := by
  show (Node.expr f).normalized.print o = _
  rw [(Path.spine_of_expr h).normalized]

theorem exists_print_path {callee : String} {f : Expr} (h : Path.expr callee = .ok f)
    (o : PrintOptions) : ∃ code, (Node.expr f).print o = .ok code := by
  obtain ⟨t, ht⟩ := (Expr.exists_text_iff (q := o.quote)).mpr (Path.spine_of_expr h).named
  exact ⟨String.ofList t, Node.print_expr_eq_ok_iff.mpr ⟨t, ht, rfl⟩⟩

/-- After any run of a call its arguments are the positional values and then the keywords that were
set, its code is put together from theirs, and nothing but the order of the values and that of the
settings matters. -/
theorem run_assembles (callee : String) (f : Expr) (h : Path.expr callee = .ok f) (ts : List Step) :
    ∃ c kwargs, ofCallee callee = .ok c ∧ Collects (settings ts) kwargs ∧
      (run c ts).toExpr = .call f (arguments (positionals ts) kwargs) ∧
      (∀ o, ∃ calleeCode, (Draft.expr f).codeWith o = .ok calleeCode ∧
        ∀ code, (Draft.call (run c ts)).codeWith o = .ok code ↔
          ∃ codes,
            List.Forall₂ (fun x t => x.HasCode o t) (arguments (positionals ts) kwargs) codes ∧
            calleeCode ++ "(" ++ ", ".intercalate codes ++ ")" = code) ∧
      (∀ us, positionals us = positionals ts → settings us = settings ts → run c us = run c ts) ∧
      (∀ p k us, p.settings = [] → k.positional = [] →
        run c (ts ++ p :: k :: us) = run c (ts ++ k :: p :: us)) ∧
      (∀ vs us, run c (ts ++ .args vs :: us) = run c (ts ++ (vs.map .arg ++ us))) ∧
      ∀ es us, run c (ts ++ .kwargs es :: us) =
        run c (ts ++ (es.map (fun e => .kwarg e.1 e.2) ++ us)) := by
  have hcallee : ofCallee callee = .ok ⟨f, [], []⟩ := by
    rw [ofCallee, h]
    rfl
  have htree : (run ⟨f, [], []⟩ ts).toExpr =
      .call f (arguments (positionals ts) (Keyed.ofList ((settings ts).map resolved))) := by
    rw [run_eq, toExpr, arguments, List.nil_append, List.map_map]
    rfl
  refine ⟨⟨f, [], []⟩, Keyed.ofList ((settings ts).map resolved), hcallee, collects_ofList _, htree,
    fun o => ?_, fun us => run_congr _, fun p k us hp hk => ?_, fun vs us => ?_, fun es us => ?_⟩
  · obtain ⟨calleeCode, hcode⟩ := exists_print_path h o
    refine ⟨calleeCode, (codeWith_expr_of_path h o).trans hcode, fun code => ?_⟩
    have hprint : (Draft.call (run ⟨f, [], []⟩ ts)).codeWith o =
        (Node.expr (run ⟨f, [], []⟩ ts).toExpr).print o := rfl
    rw [hprint, htree, Node.print_call_eq_ok_iff, hcode]
    constructor
    · intro heq
      obtain ⟨_, codes, ⟨⟩, hcodes⟩ := heq
      exact ⟨codes, hcodes⟩
    · intro heq
      obtain ⟨codes, hcodes⟩ := heq
      exact ⟨calleeCode, codes, rfl, hcodes⟩
  · refine run_congr _ ?_ ?_
    · simp [positionals, hk]
    · simp [settings, hp]
  · refine run_congr _ ?_ ?_
    · simp [positionals, List.flatMap_map, Step.positional]
    · simp [settings, List.flatMap_map, Step.settings]
  · refine run_congr _ ?_ ?_
    · simp [positionals, List.flatMap_map, Step.positional]
    · simp [settings, List.flatMap_map, Step.settings]

/-- A run that sets one keyword twice and gives the positional values in between. -/
def mixedRun : List Step :=
  [.kwarg "a" (.int 1), .arg (.string "v"), .kwargs [("b", .bool true), ("a", .int 2)],
    .args [.int 3]]

/-- The same values and settings, all at once. -/
def bulkRun : List Step :=
  [.args [.string "v", .int 3], .kwargs [("a", .int 1), ("b", .bool true), ("a", .int 2)]]

theorem run_assembles_mixed :
    Path.expr "log.info" = .ok (.attr (.ofName "log") ⟨"info"⟩) ∧
      positionals bulkRun = positionals mixedRun ∧ settings bulkRun = settings mixedRun ∧
      ∃ c kwargs, ofCallee "log.info" = .ok c ∧ Collects (settings mixedRun) kwargs ∧
        (run c mixedRun).toExpr = .call (.attr (.ofName "log") ⟨"info"⟩)
          (arguments (positionals mixedRun) kwargs) ∧
        (Draft.call (run c mixedRun)).code = .ok "log.info(\"v\", 3, a = 2, b = True)" ∧
        run c bulkRun = run c mixedRun ∧
        run c (mixedRun ++ [.arg (.int 4), .kwarg "c" (.int 5)]) =
          run c (mixedRun ++ [.kwarg "c" (.int 5), .arg (.int 4)]) := by
  have hpath : Path.expr "log.info" = .ok (.attr (.ofName "log") ⟨"info"⟩) := by decide +kernel
  have hcallee : ofCallee "log.info" = .ok ⟨.attr (.ofName "log") ⟨"info"⟩, [], []⟩ := by
    rw [ofCallee, hpath]
    rfl
  obtain ⟨c, kwargs, hc, hkwargs, htree, -, hsame, hcommute, -⟩ := run_assembles _ _ hpath mixedRun
  have hcode : (Draft.call (run c mixedRun)).code =
      .ok "log.info(\"v\", 3, a = 2, b = True)" := by
    cases Except.ok.inj (hc.symm.trans hcallee)
    rfl
  exact ⟨hpath, rfl, rfl, c, kwargs, hc, hkwargs, htree, hcode, hsame bulkRun rfl rfl,
    hcommute (.arg (.int 4)) (.kwarg "c" (.int 5)) [] rfl rfl⟩

end Draft.Call

end ScriptTree
