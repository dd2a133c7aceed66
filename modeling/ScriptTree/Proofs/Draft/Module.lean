import ScriptTree.Draft
import ScriptTree.Draft.Run
import ScriptTree.Proofs.Keyed
import ScriptTree.Proofs.Outcome

/-!
# What a module collects

Two lists describe a run of a module: the import requests in it that succeed, and the statements in
it. After the run the imports are the requests without the repeated ones, in the order in which they
were first made, and the statements are all that were added. Nothing else of the run matters, so
neither the way in which requests and statements are interleaved nor a repeated request does. A
request is for the path and the symbol that the step gives, and becomes the statement that imports
the one from the other. Which paths are those of modules is not the business of this file.
-/
namespace ScriptTree.Draft

open Outcome (bind_eq_ok_iff)

/-! ## Requests -/

/-- The path and the symbol of a request. -/
def Import.key (i : Import) : String × Ident := (i.path, i.symbol)

theorem Import.key_injective : Function.Injective Import.key := by
  intro i j h
  obtain ⟨hpath, hsymbol⟩ := Prod.mk.inj h
  rw [← agrees_iff, agrees, Bool.and_eq_true, decide_eq_true_eq, decide_eq_true_eq]
  exact ⟨hpath, hsymbol⟩

/-- The statement for a request imports its symbol from the tree of its path. -/
theorem Import.exists_toStmt_eq (i : Import) :
    ∃ source, Path.moduleExpr i.path = .ok source ∧ i.toStmt = .importFrom source [i.symbol] :=
  ⟨i.source, i.source_eq, rfl⟩

theorem Import.ofPath_of_error {path : String} {e : Error} (h : Path.moduleExpr path = .error e)
    (symbol : String) : ofPath path symbol = .error e := by
  unfold ofPath
  split
  · next e' he =>
    rw [h] at he
    cases he
    rfl
  · next source hsource =>
    rw [h] at hsource
    cases hsource

theorem Import.ofPath_of_moduleExpr {path : String} {source : Expr}
    (h : Path.moduleExpr path = .ok source) (symbol : String) :
    ofPath path symbol = (Ident.check symbol >>= fun s => pure ⟨path, s, source, h⟩) := by
  unfold ofPath
  split
  · next e he =>
    rw [h] at he
    cases he
  · next source' hsource =>
    cases h.symm.trans hsource
    rfl

/-- A request is for the given path and symbol, which is an identifier. That the path is one of a
module is part of what a request is. -/
theorem Import.ofPath_eq_ok_iff {path symbol : String} {i : Import} :
    ofPath path symbol = .ok i ↔
      isIdentifier symbol.toList = true ∧ i.path = path ∧ i.symbol = ⟨symbol⟩ := by
  constructor
  · intro h
    cases hmodule : Path.moduleExpr path with
    | error e =>
      rw [ofPath_of_error hmodule] at h
      cases h
    | ok source =>
      rw [ofPath_of_moduleExpr hmodule] at h
      obtain ⟨s, hs, hi⟩ := bind_eq_ok_iff.mp h
      obtain ⟨hsymbol, rfl⟩ := (Ident.check_eq_ok_iff symbol s).mp hs
      cases hi
      exact ⟨hsymbol, rfl, rfl⟩
  · intro h
    obtain ⟨hsymbol, rfl, hi⟩ := h
    rw [ofPath_of_moduleExpr i.source_eq,
      (Ident.check_eq_ok_iff symbol ⟨symbol⟩).mpr ⟨hsymbol, rfl⟩]
    refine congrArg Except.ok ((agrees_iff _ _).mp ?_)
    simp [agrees, hi]

theorem Import.insert_eq (i : Import) (is : List Import) :
    i.insert is = if i ∈ is then is else is ++ [i] := by
  have hany : is.any i.agrees = true ↔ i ∈ is := by
    simp only [List.any_eq_true, agrees_iff, exists_eq_right']
  rw [insert]
  by_cases h : i ∈ is
  · rw [if_pos h, if_pos (hany.mpr h)]
  · rw [if_neg h, if_neg (fun hmem => h (hany.mp hmem))]

/-- Making requests one after the other keeps the first of each. -/
theorem Import.distinct_eq_eraseDups (is : List Import) : distinct is = is.eraseDups := by
  induction is using List.reverseRecOn with
  | nil => rfl
  | append_singleton is i ih =>
    rw [distinct, List.foldl_append, ← distinct, ih, eraseDups_concat, List.foldl_cons,
      List.foldl_nil, insert_eq]
    simp only [List.mem_eraseDups]

namespace Module

/-- The request that a step makes, if it makes one and it succeeds. -/
def Step.request? : Step → Option Import
  | .add _ => none
  | .importFrom i => some i
  | .requireImport symbol path => (Import.ofPath path symbol).toOption

/-- The statement that a step adds. -/
def Step.statement? : Step → Option Stmt
  | .add s => some s
  | .importFrom _ => none
  | .requireImport _ _ => none

/-- The successful import requests of a run. -/
def requests (ts : List Step) : List Import := ts.filterMap Step.request?

/-- The statements that a run adds. -/
def additions (ts : List Step) : List Stmt := ts.filterMap Step.statement?

theorem request?_requireImport {symbol path : String} {i : Import} :
    (Step.requireImport symbol path).request? = some i ↔
      isIdentifier symbol.toList = true ∧ i.path = path ∧ i.symbol = ⟨symbol⟩ := by
  rw [Step.request?, ← Import.ofPath_eq_ok_iff]
  cases Import.ofPath path symbol <;> simp [Except.toOption]

theorem requireImport_eq_map (m : Module) (symbol path : String) :
    m.requireImport symbol path = (Import.ofPath path symbol).map m.addImport := by
  rw [requireImport]
  cases Import.ofPath path symbol <;> rfl

/-- A step that fails is one that makes no request and adds nothing. -/
theorem exists_step_error_iff (m : Module) (t : Step) :
    (∃ e, step m t = .error e) ↔ t.request? = none ∧ t.statement? = none := by
  cases t with
  | add s => simp [step, Step.request?, Step.statement?]
  | importFrom i => simp [step, Step.request?]
  | requireImport symbol path =>
    rw [step, requireImport_eq_map, Step.request?, Step.statement?]
    cases Import.ofPath path symbol <;> simp [Except.map, Except.toOption]

theorem settle_eq (m : Module) (t : Step) :
    settle step m t =
      ⟨m.statements ++ t.statement?.toList,
        t.request?.toList.foldl (fun is i => i.insert is) m.imports⟩ := by
  cases t with
  | add s => rfl
  | importFrom i => simp [settle, step, addImport, Step.statement?, Step.request?]
  | requireImport symbol path =>
    rw [settle, step, requireImport_eq_map, Step.statement?, Step.request?]
    cases Import.ofPath path symbol <;> simp [Except.map, Except.toOption, addImport]

theorem run_eq (m : Module) (ts : List Step) :
    run step m ts =
      ⟨m.statements ++ additions ts, (requests ts).foldl (fun is i => i.insert is) m.imports⟩ := by
  induction ts generalizing m with
  | nil => simp [run, additions, requests]
  | cons t ts ih =>
    rw [run, List.foldl_cons, ← run, ih, settle_eq, additions, requests, additions, requests]
    cases hs : t.statement? <;> cases hr : t.request? <;> simp [hs, hr]

theorem run_empty_eq (ts : List Step) :
    run step empty ts = ⟨additions ts, (requests ts).eraseDups⟩ := by
  rw [run_eq, ← Import.distinct_eq_eraseDups]
  rfl

/-- A step that adds nothing and requests what was requested before changes nothing. -/
theorem run_append_cons_of_requested {ts : List Step} {t : Step} (hadd : t.statement? = none)
    (hreq : ∀ i ∈ t.request?, i ∈ requests ts) (us : List Step) :
    run step empty (ts ++ t :: us) = run step empty (ts ++ us) := by
  have hadditions : additions (ts ++ t :: us) = additions (ts ++ us) := by
    simp [additions, hadd]
  have hrequests : (requests (ts ++ t :: us)).eraseDups = (requests (ts ++ us)).eraseDups := by
    cases ht : t.request? with
    | none => simp [requests, ht]
    | some i =>
      have hmem : i ∈ ts.filterMap Step.request? := hreq i ht
      simp only [requests, List.filterMap_append, List.filterMap_cons, ht]
      exact eraseDups_append_cons_of_mem hmem _
  rw [run_empty_eq, run_empty_eq, hadditions, hrequests]

/-- After any run the imports are the different requests in the order in which they were first made,
and they come before the added statements, all of which stay. Each of them is a statement for its
own path and symbol, which are those that the step gave. Only the two lists matter. -/
theorem run_collects (ts : List Step) :
    ((run step empty ts).imports.map Import.key).Nodup ∧
      (run step empty ts).imports.map Import.key = ((requests ts).map Import.key).eraseDups ∧
      (run step empty ts).toModule.body =
        (run step empty ts).imports.map Import.toStmt ++ additions ts ∧
      (∀ i ∈ (run step empty ts).imports, ∃ source, Path.moduleExpr i.path = .ok source ∧
        i.toStmt = .importFrom source [i.symbol]) ∧
      (∀ symbol path i, (Step.requireImport symbol path).request? = some i ↔
        isIdentifier symbol.toList = true ∧ i.path = path ∧ i.symbol = ⟨symbol⟩) ∧
      (∀ m t, (∃ e, step m t = .error e) ↔ t.request? = none ∧ t.statement? = none) ∧
      (∀ us, (requests us).map Import.key = (requests ts).map Import.key →
        additions us = additions ts →
          (run step empty us).toModule = (run step empty ts).toModule ∧
            (Draft.module (run step empty us)).code = (Draft.module (run step empty ts)).code ∧
            ∀ o, (Draft.module (run step empty us)).codeWith o =
              (Draft.module (run step empty ts)).codeWith o) ∧
      ∀ t us, t.statement? = none → (∀ i ∈ t.request?, i.key ∈ (requests ts).map Import.key) →
        run step empty (ts ++ t :: us) = run step empty (ts ++ us) := by
  have himports : (run step empty ts).imports.map Import.key =
      ((requests ts).map Import.key).eraseDups := by
    rw [run_empty_eq, eraseDups_map Import.key_injective]
  refine ⟨?_, himports, ?_, fun i _ => i.exists_toStmt_eq, fun _ _ _ => request?_requireImport,
    exists_step_error_iff, ?_, ?_⟩
  · rw [himports]
    exact nodup_eraseDups _
  · rw [run_empty_eq]
    rfl
  · intro us hrequests hadditions
    have hsame : run step empty us = run step empty ts := by
      rw [run_empty_eq, run_empty_eq, hadditions,
        List.map_injective_iff.mpr Import.key_injective hrequests]
    rw [hsame]
    exact ⟨rfl, rfl, fun _ => rfl⟩
  · intro t us hadd hreq
    refine run_append_cons_of_requested hadd (fun i hi => ?_) us
    exact (List.mem_map_of_injective Import.key_injective).mp (hreq i hi)

/-- The import of `A` from `lib.a` as a statement that is added and not requested. -/
def addedImport : Stmt := .importFrom (.attr (.ofName "lib") ⟨"a"⟩) [⟨"A"⟩]

/-- Requests for two symbols, one of them made twice, a request that fails, and an import that is
added twice. -/
def mixedRun : List Step :=
  [.requireImport "B" "lib.b", .add addedImport, .requireImport "C" "lib..c",
    .requireImport "A" "lib.a", .requireImport "B" "lib.b", .add addedImport]

/-- The successful requests of `mixedRun` after its statements. -/
def sortedRun : List Step :=
  [.add addedImport, .add addedImport, .requireImport "B" "lib.b", .requireImport "A" "lib.a",
    .requireImport "B" "lib.b"]

theorem run_collects_mixed :
    (requests sortedRun).map Import.key = (requests mixedRun).map Import.key ∧
      additions sortedRun = additions mixedRun ∧
      (run step empty sortedRun).toModule = (run step empty mixedRun).toModule ∧
      (run step empty mixedRun).toModule.body =
        [.importFrom (.attr (.ofName "lib") ⟨"b"⟩) [⟨"B"⟩],
          .importFrom (.attr (.ofName "lib") ⟨"a"⟩) [⟨"A"⟩], addedImport, addedImport] ∧
      (Draft.module (run step empty sortedRun)).code =
        .ok ("from lib.b import B\nfrom lib.a import A\n" ++
          "from lib.a import A\nfrom lib.a import A\n") ∧
      (Step.requireImport "A" "lib.a").statement? = none ∧
      (∀ i ∈ (Step.requireImport "A" "lib.a").request?,
        i.key ∈ (requests mixedRun).map Import.key) ∧
      run step empty (mixedRun ++ [.requireImport "A" "lib.a"]) = run step empty mixedRun := by
  have hrequests : (requests sortedRun).map Import.key = (requests mixedRun).map Import.key := by
    decide +kernel
  have hadditions : additions sortedRun = additions mixedRun := by decide
  have hagain : ∀ i ∈ (Step.requireImport "A" "lib.a").request?,
      i.key ∈ (requests mixedRun).map Import.key := by
    decide +kernel
  have himports : (run step empty mixedRun).imports.map Import.toStmt =
      [.importFrom (.attr (.ofName "lib") ⟨"b"⟩) [⟨"B"⟩],
        .importFrom (.attr (.ofName "lib") ⟨"a"⟩) [⟨"A"⟩]] := by
    decide +kernel
  have hcode : (Draft.module (run step empty mixedRun)).code =
      .ok ("from lib.b import B\nfrom lib.a import A\n" ++
        "from lib.a import A\nfrom lib.a import A\n") := by
    decide +kernel
  obtain ⟨-, -, hbody, -, -, -, hsame, hrepeat⟩ := run_collects mixedRun
  obtain ⟨htree, hsorted, -⟩ := hsame sortedRun hrequests hadditions
  rw [himports] at hbody
  refine ⟨hrequests, hadditions, htree, hbody, hsorted.trans hcode, rfl, hagain, ?_⟩
  rw [hrepeat (.requireImport "A" "lib.a") [] rfl hagain, List.append_nil]

end Module

end ScriptTree.Draft
