import ScriptTree.Draft
import ScriptTree.Draft.Run
import ScriptTree.Json.Reader
import ScriptTree.Proofs.Draft.Agreement
import ScriptTree.Proofs.Draft.Attribute
import ScriptTree.Proofs.Draft.Call
import ScriptTree.Proofs.Draft.Class
import ScriptTree.Proofs.Draft.Import
import ScriptTree.Proofs.Draft.Module
import ScriptTree.Proofs.Draft.Printable
import ScriptTree.Proofs.Draft.Shape
import ScriptTree.Proofs.Draft.TypeUnion
import ScriptTree.Proofs.Json.Readback
import ScriptTree.Proofs.Outcome
import ScriptTree.Proofs.Path.Balance
import ScriptTree.Proofs.Path.Canonical
import ScriptTree.Proofs.Path.Defects
import ScriptTree.Proofs.Path.Dots
import ScriptTree.Proofs.Path.Guards
import ScriptTree.Proofs.Path.Paired
import ScriptTree.Proofs.Path.Quotation
import ScriptTree.Proofs.Path.Spelling
import ScriptTree.Proofs.Print.Blocks
import ScriptTree.Proofs.Print.Composed
import ScriptTree.Proofs.Print.Determined
import ScriptTree.Proofs.Print.Literal
import ScriptTree.Proofs.Print.Readback
import ScriptTree.Proofs.Print.Reader
import ScriptTree.Proofs.Print.Refusal
import ScriptTree.Proofs.Print.Regrouped
import ScriptTree.Proofs.Print.Settings
import ScriptTree.Proofs.Print.Success
import ScriptTree.Proofs.Print.Template
import ScriptTree.Proofs.Text.Counts
import ScriptTree.Proofs.Text.Digits
import ScriptTree.Proofs.Text.Span
import ScriptTree.Proofs.Text.Trim
import ScriptTree.Proofs.Tree.Lossless
import ScriptTree.Proofs.Tree.Reading
import ScriptTree.Proofs.Tree.Rebuild
import ScriptTree.Proofs.Tree.Spelled
import ScriptTree.Proofs.Tree.Subexpression
import ScriptTree.Proofs.Tree.Union
import ScriptTree.Proofs.Value.Begun
import ScriptTree.Proofs.Value.Mirrored
import ScriptTree.Proofs.Word
import ScriptTree.Tree.OfSnapshot
import ScriptTree.Tree.Order
import ScriptTree.Tree.Snapshot
import ScriptTree.Value.OfJson
