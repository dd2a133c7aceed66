import ScriptTree.Draft.Import

/-!
# Modules

A module under construction collects statements and import requests. Requests are collapsed and
come first, in the order in which they were first made; statements follow in the order given and
are never collapsed, imports among them included.
-/
namespace ScriptTree.Draft

structure Module where
  statements : List Stmt
  imports : List Import

namespace Module

def empty : Module := ⟨[], []⟩

def add (m : Module) (s : Stmt) : Module := { m with statements := m.statements ++ [s] }

def addImport (m : Module) (i : Import) : Module := { m with imports := i.insert m.imports }

def requireImport (m : Module) (symbol path : String) : Except Error Module := do
  return m.addImport (← Import.ofPath path symbol)

inductive Step where
  | add (s : Stmt)
  | importFrom (i : Import)
  | requireImport (symbol path : String)

def step (m : Module) : Step → Except Error Module
  | .add s => .ok (m.add s)
  | .importFrom i => .ok (m.addImport i)
  | .requireImport symbol path => m.requireImport symbol path

def toModule (m : Module) : ScriptTree.Module := ⟨m.imports.map Import.toStmt ++ m.statements⟩

end Module

end ScriptTree.Draft
