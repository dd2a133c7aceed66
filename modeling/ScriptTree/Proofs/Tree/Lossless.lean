import ScriptTree.Proofs.Json.Readback
import ScriptTree.Proofs.Tree.Subexpression
import ScriptTree.Tree.OfSnapshot
import ScriptTree.Tree.Snapshot

/-!
# Snapshots are lossless

A snapshot is read back as the tree that it was taken of, and so is its text. The bound on the
reading of expressions and statements is the depth of the value that is read, and each expression
lies below the value that holds it, so the bound is never reached.
-/
namespace ScriptTree

/-! ## Records -/

/-- The record of an entry. -/
def Entry.toJson (x : Entry Expr) : Json :=
  .object [("key", x.key.toJson), ("value", x.value.toJson)]

/-- The record of an argument. -/
def Argument.toJson (x : Argument Expr) : Json :=
  .object [("keyword", Ident.optionToJson x.keyword), ("value", x.value.toJson)]

theorem Expr.toJsonAll_eq_map (es : List Expr) : Expr.toJsonAll es = es.map Expr.toJson := by
  induction es with
  | nil => rfl
  | cons e es ih => rw [Expr.toJsonAll, List.map_cons, ih]

theorem Expr.entriesToJson_eq_map (es : List (Entry Expr)) :
    Expr.entriesToJson es = es.map Entry.toJson := by
  induction es with
  | nil => rfl
  | cons x es ih =>
    rw [Expr.entriesToJson, List.map_cons, ih]
    rfl

theorem Expr.argumentsToJson_eq_map (xs : List (Argument Expr)) :
    Expr.argumentsToJson xs = xs.map Argument.toJson := by
  induction xs with
  | nil => rfl
  | cons x xs ih =>
    rw [Expr.argumentsToJson, List.map_cons, ih]
    rfl

theorem Stmt.toJsonAll_eq_map (ss : List Stmt) : Stmt.toJsonAll ss = ss.map Stmt.toJson := by
  induction ss with
  | nil => rfl
  | cons s ss ih => rw [Stmt.toJsonAll, List.map_cons, ih]

/-- Items that are read back one by one are read back as a list. -/
theorem Json.listOf?_map {α : Type} {read : Json → Option α} {write : α → Json} {xs : List α}
    (h : ∀ x ∈ xs, read (write x) = some x) :
    (Json.array (xs.map write)).listOf? read = some xs := by
  show (xs.map write).mapM read = some xs
  induction xs with
  | nil => rfl
  | cons x xs ih =>
    rw [List.map_cons, List.mapM_cons, h x (.head _), ih fun y hy => h y (.tail _ hy)]
    rfl

/-! ## Reading -/

theorem Ident.ofJson?_toJson (i : Ident) : Ident.ofJson? i.toJson = some i := rfl

theorem Ident.optionOfJson?_optionToJson (k : Option Ident) :
    Ident.optionOfJson? (some (Ident.optionToJson k)) = some k := by
  cases k with
  | none => rfl
  | some i => rfl

theorem Literal.ofJson?_toJson (l : Literal) : Literal.ofJson? l.toJson = some l := by
  cases l with
  | string s => rfl
  | bool b => rfl
  | int n =>
    show (Text.int64? n.toInt).bind (fun n => some (Literal.int n)) = some (.int n)
    rw [Text.int64?_toInt]
    rfl

section Reading

variable {read : Json → Option Expr}

theorem Entry.ofJson?_toJson {x : Entry Expr} (hk : read x.key.toJson = some x.key)
    (hv : read x.value.toJson = some x.value) : Entry.ofJson? read x.toJson = some x := by
  show (read x.key.toJson).bind (fun k => (read x.value.toJson).bind fun v => some ⟨k, v⟩) = some x
  rw [hk, hv]
  rfl

theorem Argument.ofJson?_toJson {x : Argument Expr} (hv : read x.value.toJson = some x.value) :
    Argument.ofJson? read x.toJson = some x := by
  show (Ident.optionOfJson? (some (Ident.optionToJson x.keyword))).bind
    (fun k => (read x.value.toJson).bind fun v => some ⟨k, v⟩) = some x
  rw [Ident.optionOfJson?_optionToJson, hv]
  rfl

/-- One step of the reading: an expression is read back if the expressions inside it are. -/
theorem Expr.ofVariant?_toJson {e : Expr} (h : ∀ c ∈ e.children, read c.toJson = some c) :
    e.toJson.variant?.bind (Expr.ofVariant? read) = some e := by
  cases e with
  | literal l =>
    show (Literal.ofJson? l.toJson).map Expr.literal = some (.literal l)
    rw [Literal.ofJson?_toJson]
    rfl
  | name i => rfl
  | attr v i =>
    have hv := h v (.head _)
    show (read v.toJson).bind (fun v => (Ident.ofJson? i.toJson).bind fun i =>
      some (Expr.attr v i)) = some (.attr v i)
    rw [hv, Ident.ofJson?_toJson]
    rfl
  | subscript v i =>
    have hv := h v (.head _)
    have hi := h i (.tail _ (.head _))
    show (read v.toJson).bind (fun v => (read i.toJson).bind fun i =>
      some (Expr.subscript v i)) = some (.subscript v i)
    rw [hv, hi]
    rfl
  | bitOr l r =>
    have hl := h l (.head _)
    have hr := h r (.tail _ (.head _))
    show (read l.toJson).bind (fun l => (read r.toJson).bind fun r =>
      some (Expr.bitOr l r)) = some (.bitOr l r)
    rw [hl, hr]
    rfl
  | list es =>
    have hes : ∀ e ∈ es, read e.toJson = some e := h
    show ((Json.array (Expr.toJsonAll es)).listOf? read).bind (fun es =>
      some (Expr.list es)) = some (.list es)
    rw [Expr.toJsonAll_eq_map, Json.listOf?_map hes]
    rfl
  | dict es =>
    have hentries : ∀ x ∈ es, Entry.ofJson? read x.toJson = some x := by
      intro x hx
      apply Entry.ofJson?_toJson
      · exact h _ (List.mem_flatMap.mpr ⟨x, hx, .head _⟩)
      · exact h _ (List.mem_flatMap.mpr ⟨x, hx, .tail _ (.head _)⟩)
    show ((Json.array (Expr.entriesToJson es)).listOf? (Entry.ofJson? read)).bind (fun es =>
      some (Expr.dict es)) = some (.dict es)
    rw [Expr.entriesToJson_eq_map, Json.listOf?_map hentries]
    rfl
  | call f xs =>
    have hf := h f (.head _)
    have harguments : ∀ x ∈ xs, Argument.ofJson? read x.toJson = some x := by
      intro x hx
      apply Argument.ofJson?_toJson
      exact h _ (.tail _ (List.mem_map_of_mem hx))
    show (read f.toJson).bind (fun f =>
      ((Json.array (Expr.argumentsToJson xs)).listOf? (Argument.ofJson? read)).bind fun xs =>
        some (Expr.call f xs)) = some (.call f xs)
    rw [hf, Expr.argumentsToJson_eq_map, Json.listOf?_map harguments]
    rfl

end Reading

/-- The snapshot of an expression lies below the snapshot of the one that holds it. -/
theorem Expr.depth_toJson_lt {e c : Expr} (h : c ∈ e.children) :
    c.toJson.depth < e.toJson.depth := by
  cases e with
  | literal l => cases h
  | name i => cases h
  | attr v i =>
    obtain rfl := List.mem_singleton.mp h
    simp only [Expr.toJson, Json.tagged, Json.depth, Json.depthMembers]
    omega
  | subscript v i =>
    simp only [Expr.children, List.mem_cons, List.not_mem_nil, or_false] at h
    simp only [Expr.toJson, Json.tagged, Json.depth, Json.depthMembers]
    rcases h with rfl | rfl <;> omega
  | bitOr l r =>
    simp only [Expr.children, List.mem_cons, List.not_mem_nil, or_false] at h
    simp only [Expr.toJson, Json.tagged, Json.depth, Json.depthMembers]
    rcases h with rfl | rfl <;> omega
  | list es =>
    have hc : c ∈ es := h
    have hdepth := Json.depth_le_depthItems (List.mem_map_of_mem (f := Expr.toJson) hc)
    simp only [Expr.toJson, Expr.toJsonAll_eq_map, Json.tagged, Json.depth, Json.depthMembers]
    omega
  | dict es =>
    obtain ⟨x, hx, hc⟩ := List.mem_flatMap.mp h
    have hdepth := Json.depth_le_depthItems (List.mem_map_of_mem (f := Entry.toJson) hx)
    simp only [List.mem_cons, List.not_mem_nil, or_false] at hc
    rw [Entry.toJson] at hdepth
    simp only [Expr.toJson, Expr.entriesToJson_eq_map, Json.tagged, Json.depth,
      Json.depthMembers] at hdepth ⊢
    rcases hc with rfl | rfl <;> omega
  | call f xs =>
    simp only [Expr.toJson, Expr.argumentsToJson_eq_map, Json.tagged, Json.depth,
      Json.depthMembers]
    rcases List.mem_cons.mp h with rfl | h
    · omega
    · obtain ⟨x, hx, rfl⟩ := List.mem_map.mp h
      have hdepth := Json.depth_le_depthItems (List.mem_map_of_mem (f := Argument.toJson) hx)
      rw [Argument.toJson] at hdepth
      simp only [Json.depth, Json.depthMembers] at hdepth
      omega

theorem Expr.ofJsonWithin?_toJson {fuel : Nat} {e : Expr} (h : e.toJson.depth < fuel) :
    Expr.ofJsonWithin? fuel e.toJson = some e := by
  induction fuel generalizing e with
  | zero => omega
  | succ fuel ih =>
    apply Expr.ofVariant?_toJson
    intro c hc
    have hdepth := Expr.depth_toJson_lt hc
    exact ih (by omega)

theorem Expr.ofJson?_toJson (e : Expr) : Expr.ofJson? e.toJson = some e :=
  Expr.ofJsonWithin?_toJson (Nat.lt_succ_self _)

/-- One step of the reading: a statement is read back if the statements inside it are. -/
theorem Stmt.ofJsonWithin?_succ {fuel : Nat} {s : Stmt}
    (h : ∀ c ∈ s.children, Stmt.ofJsonWithin? fuel c.toJson = some c) :
    Stmt.ofJsonWithin? (fuel + 1) s.toJson = some s := by
  have hexprs (es : List Expr) : (Json.array (Expr.toJsonAll es)).listOf? Expr.ofJson? = some es := by
    rw [Expr.toJsonAll_eq_map]
    exact Json.listOf?_map fun e _ => Expr.ofJson?_toJson e
  cases s with
  | importFrom source names =>
    have hnames : (Json.array (names.map Ident.toJson)).listOf? Ident.ofJson? = some names :=
      Json.listOf?_map fun i _ => Ident.ofJson?_toJson i
    show (Expr.ofJson? source.toJson).bind (fun source =>
      ((Json.array (names.map Ident.toJson)).listOf? Ident.ofJson?).bind fun names =>
        some (Stmt.importFrom source names)) = some (.importFrom source names)
    rw [Expr.ofJson?_toJson, hnames]
    rfl
  | classDef name bases body =>
    have hbody : ∀ c ∈ body, Stmt.ofJsonWithin? fuel c.toJson = some c := h
    show (Ident.ofJson? name.toJson).bind (fun name =>
      ((Json.array (Expr.toJsonAll bases)).listOf? Expr.ofJson?).bind fun bases =>
        ((Json.array (Stmt.toJsonAll body)).listOf? (Stmt.ofJsonWithin? fuel)).bind fun body =>
          some (Stmt.classDef name bases body)) = some (.classDef name bases body)
    rw [Ident.ofJson?_toJson, hexprs, Stmt.toJsonAll_eq_map, Json.listOf?_map hbody]
    rfl
  | assign x v =>
    show (Ident.ofJson? x.toJson).bind (fun x => (Expr.ofJson? v.toJson).bind fun v =>
      some (Stmt.assign x v)) = some (.assign x v)
    rw [Ident.ofJson?_toJson, Expr.ofJson?_toJson]
    rfl
  | annAssign x t =>
    show (Ident.ofJson? x.toJson).bind (fun x => (Expr.ofJson? t.toJson).bind fun t =>
      some (Stmt.annAssign x t)) = some (.annAssign x t)
    rw [Ident.ofJson?_toJson, Expr.ofJson?_toJson]
    rfl
  | expr v =>
    show (Expr.ofJson? v.toJson).map Stmt.expr = some (.expr v)
    rw [Expr.ofJson?_toJson]
    rfl
  | pass => rfl

/-- The snapshot of a statement lies below the snapshot of the class that holds it. -/
theorem Stmt.depth_toJson_lt {s c : Stmt} (h : c ∈ s.children) :
    c.toJson.depth < s.toJson.depth := by
  cases s with
  | classDef name bases body =>
    have hc : c ∈ body := h
    have hdepth := Json.depth_le_depthItems (List.mem_map_of_mem (f := Stmt.toJson) hc)
    simp only [Stmt.toJson, Stmt.toJsonAll_eq_map, Json.tagged, Json.depth, Json.depthMembers]
    omega
  | _ => cases h

theorem Stmt.ofJsonWithin?_toJson {fuel : Nat} {s : Stmt} (h : s.toJson.depth < fuel) :
    Stmt.ofJsonWithin? fuel s.toJson = some s := by
  induction fuel generalizing s with
  | zero => omega
  | succ fuel ih =>
    apply Stmt.ofJsonWithin?_succ
    intro c hc
    have hdepth := Stmt.depth_toJson_lt hc
    exact ih (by omega)

theorem Stmt.ofJson?_toJson (s : Stmt) : Stmt.ofJson? s.toJson = some s :=
  Stmt.ofJsonWithin?_toJson (Nat.lt_succ_self _)

theorem Module.ofJson?_toJson (m : Module) : Module.ofJson? m.toJson = some m := by
  show ((Json.array (Stmt.toJsonAll m.body)).listOf? Stmt.ofJson?).bind (fun body =>
    some (Module.mk body)) = some m
  rw [Stmt.toJsonAll_eq_map, Json.listOf?_map fun s _ => Stmt.ofJson?_toJson s]
  rfl

/-- A snapshot is read back as its tree. -/
theorem Node.ofJson?_toJson (n : Node) : Node.ofJson? n.toJson = some n := by
  cases n with
  | module m =>
    show (Module.ofJson? m.toJson).bind (fun m => some (Node.module m)) = some (.module m)
    rw [Module.ofJson?_toJson]
    rfl
  | stmt s =>
    show (Stmt.ofJson? s.toJson).bind (fun s => some (Node.stmt s)) = some (.stmt s)
    rw [Stmt.ofJson?_toJson]
    rfl
  | expr e =>
    show (Expr.ofJson? e.toJson).bind (fun e => some (Node.expr e)) = some (.expr e)
    rw [Expr.ofJson?_toJson]
    rfl

/-! ## Text -/

section Exact

open Json (Exact)

theorem exact_tagged {tag : String} {content : Json} (h : Exact content) :
    Exact (.tagged tag content) :=
  .object (List.nodup_singleton _) (List.forall_mem_singleton.mpr h)

theorem exact_pair {a b : String} {x y : Json} (hab : a ≠ b) (hx : Exact x) (hy : Exact y) :
    Exact (.object [(a, x), (b, y)]) := by
  apply Exact.object
  · simp [hab]
  · exact List.forall_mem_cons.mpr ⟨hx, List.forall_mem_singleton.mpr hy⟩

theorem exact_map {α : Type} {write : α → Json} {xs : List α} (h : ∀ x ∈ xs, Exact (write x)) :
    Exact (.array (xs.map write)) := .array (List.forall_mem_map.mpr h)

theorem Ident.exact_toJson (i : Ident) : Exact i.toJson := exact_tagged (.string i.name)

theorem Ident.exact_optionToJson (k : Option Ident) : Exact (Ident.optionToJson k) := by
  cases k with
  | none => exact .null
  | some i => exact i.exact_toJson

theorem Literal.exact_toJson (l : Literal) : Exact l.toJson := by
  cases l with
  | string s => exact exact_tagged (.string s)
  | bool b => exact exact_tagged (.bool b)
  | int n =>
    have hlo : -9223372036854775808 ≤ n.toInt := Int64.minValue_le_toInt n
    have hhi : n.toInt < 9223372036854775808 := n.toInt_lt
    exact exact_tagged (.integer hlo (by omega))

theorem Expr.exact_toJson (e : Expr) : Exact e.toJson := by
  induction e with
  | literal l => exact exact_tagged l.exact_toJson
  | name i => exact exact_tagged i.exact_toJson
  | attr v i hv => exact exact_tagged (exact_pair (by decide) hv i.exact_toJson)
  | subscript v i hv hi => exact exact_tagged (exact_pair (by decide) hv hi)
  | bitOr l r hl hr => exact exact_tagged (exact_pair (by decide) hl hr)
  | list es hes =>
    rw [Expr.toJson, Expr.toJsonAll_eq_map]
    exact exact_tagged (exact_tagged (exact_map hes))
  | dict es hes =>
    rw [Expr.toJson, Expr.entriesToJson_eq_map]
    refine exact_tagged (exact_tagged (exact_map fun x hx => ?_))
    exact exact_pair (by decide) (hes x hx).1 (hes x hx).2
  | call f xs hf hxs =>
    rw [Expr.toJson, Expr.argumentsToJson_eq_map]
    refine exact_tagged (exact_pair (by decide) hf (exact_map fun x hx => ?_))
    exact exact_pair (by decide) (Ident.exact_optionToJson x.keyword) (hxs x hx)

theorem exact_expressions (es : List Expr) : Exact (.array (Expr.toJsonAll es)) := by
  rw [Expr.toJsonAll_eq_map]
  exact exact_map fun e _ => e.exact_toJson

theorem Stmt.exact_toJson (s : Stmt) : Exact s.toJson := by
  induction s with
  | importFrom source names =>
    have hnames := exact_map fun i (_ : i ∈ names) => i.exact_toJson
    exact exact_tagged (exact_pair (by decide) source.exact_toJson hnames)
  | classDef name bases body hbody =>
    rw [Stmt.toJson, Stmt.toJsonAll_eq_map]
    apply exact_tagged
    apply Exact.object
    · simp
    · simp only [List.forall_mem_cons]
      exact ⟨name.exact_toJson, exact_expressions bases, exact_map hbody, by simp⟩
  | assign x v => exact exact_tagged (exact_pair (by decide) x.exact_toJson v.exact_toJson)
  | annAssign x t =>
    exact exact_tagged (exact_pair (by decide) x.exact_toJson (exact_tagged t.exact_toJson))
  | expr v => exact exact_tagged v.exact_toJson
  | pass => exact .string "Pass"

theorem Node.exact_toJson (n : Node) : Exact n.toJson := by
  cases n with
  | module m =>
    have hbody := exact_map fun s (_ : s ∈ m.body) => s.exact_toJson
    rw [← Stmt.toJsonAll_eq_map] at hbody
    exact exact_tagged (exact_tagged hbody)
  | stmt s => exact exact_tagged s.exact_toJson
  | expr e => exact exact_tagged e.exact_toJson

end Exact

/-- The text of a snapshot, read as JSON and then as a tree, gives the tree that it was taken of. -/
theorem Node.ofJson?_pretty (n : Node) {limit : Nat} (h : n.toJson.depth ≤ limit) :
    (Json.read? limit n.toJson.pretty).bind Node.ofJson? = some n := by
  rw [Json.read?_pretty n.exact_toJson h, Option.bind_some, Node.ofJson?_toJson]

/-- An empty and a filled list of bases, a nested class, a call with both kinds of arguments, a
string with escapes and both ends of the integers. -/
def Node.nestedClass : Node :=
  .stmt (.classDef ⟨"C"⟩ []
    [.classDef ⟨"D"⟩ [.ofName "C"] [.pass],
      .assign ⟨"x"⟩ (.call (.attr (.ofName "a") ⟨"b"⟩)
        [.positional (.int Int64.minValue), .named "k" (.string "\"é\\\n\x01")]),
      .assign ⟨"y"⟩ (.int Int64.maxValue)])

theorem Node.ofJson?_pretty_nestedClass :
    Node.nestedClass.toJson.depth ≤ 127 ∧
      (Json.read? 127 Node.nestedClass.toJson.pretty).bind Node.ofJson? = some Node.nestedClass :=
  ⟨by decide, Node.ofJson?_pretty Node.nestedClass (by decide)⟩

end ScriptTree
