import Mathlib.Data.List.DropRight
import ScriptTree.Proofs.Json.Scalar
import ScriptTree.Proofs.Keyed
import ScriptTree.Proofs.Text.Join

/-!
# Laid-out JSON text is read back

The layout puts blanks before items, members and closing brackets, and the reader drops them there.
What is proved is that the text of a value is read back as that value, with every nesting limit that
the value keeps to. Floats are left out, and so are objects that name a member twice, since the
reader merges those.
-/
namespace ScriptTree.Json

open Text (EndsRow)

/-- Values that have a text of their own: integers within the range in which texts have integers,
no floats, and no member named twice. -/
inductive Exact : Json → Prop
  | null : Exact .null
  | bool (b : Bool) : Exact (.bool b)
  | string (s : String) : Exact (.string s)
  | integer {n : Int} (hlo : -9223372036854775808 ≤ n) (hhi : n ≤ 18446744073709551615) :
      Exact (.integer n)
  | array {js : List Json} (h : ∀ j ∈ js, Exact j) : Exact (.array js)
  | object {ms : List (String × Json)} (hnames : (ms.map Prod.fst).Nodup)
      (h : ∀ m ∈ ms, Exact m.2) : Exact (.object ms)

/-! ## The layout of items and members -/

theorem prettyItems_eq_map (depth : Nat) (js : List Json) :
    prettyItems depth js = js.map fun j => j.prettyAt depth := by
  induction js with
  | nil => rfl
  | cons j js ih => rw [prettyItems, List.map_cons, ih]

/-- A member on its line. -/
def memberText (depth : Nat) (m : String × Json) : List Char :=
  quoted m.1 ++ ':' :: ' ' :: m.2.prettyAt depth

theorem prettyMembers_eq_map (depth : Nat) (ms : List (String × Json)) :
    prettyMembers depth ms = ms.map (memberText depth) := by
  induction ms with
  | nil => rfl
  | cons m ms ih =>
    rw [prettyMembers, List.map_cons, ih]
    rfl

/-- The lines inside a block, each with its break in front. -/
def linesText (depth : Nat) (lines : List (List Char)) : List Char :=
  List.intercalate [','] (lines.map (lineStart (depth + 1) ++ ·))

theorem block_append (opening closing : Char) (depth : Nat) {lines : List (List Char)}
    (hne : lines ≠ []) (rest : List Char) :
    block opening closing depth lines ++ rest =
      opening :: (linesText depth lines ++ (lineStart depth ++ closing :: rest)) := by
  cases lines with
  | nil => exact absurd rfl hne
  | cons line lines => simp [block, linesText]

theorem length_le_block (opening closing : Char) (depth : Nat) {lines : List (List Char)}
    {line : List Char} (h : line ∈ lines) :
    line.length ≤ (block opening closing depth lines).length := by
  have hblock := block_append opening closing depth (List.ne_nil_of_mem h) []
  have hline := Text.length_le_intercalate [',']
    (List.mem_map_of_mem (f := (lineStart (depth + 1) ++ ·)) h)
  rw [List.append_nil] at hblock
  rw [hblock]
  simp only [linesText, List.length_cons, List.length_append] at hline ⊢
  omega

theorem count_le_block (opening closing : Char) (depth : Nat) (lines : List (List Char)) :
    lines.length ≤ (block opening closing depth lines).length := by
  by_cases hne : lines = []
  · rw [hne]
    exact Nat.zero_le _
  · have hblock := block_append opening closing depth hne []
    have hcount := Text.count_le_intercalate (List.cons_ne_nil ',' [])
      (lines.map (lineStart (depth + 1) ++ ·))
    rw [List.append_nil] at hblock
    rw [List.length_map] at hcount
    rw [hblock]
    simp only [linesText, List.length_cons, List.length_append]
    omega

theorem depth_le_depthItems {j : Json} {js : List Json} (h : j ∈ js) :
    j.depth ≤ depthItems js := by
  induction js with
  | nil => cases h
  | cons i js ih =>
    rw [depthItems]
    rcases List.mem_cons.mp h with rfl | h
    · exact Nat.le_max_left _ _
    · exact Nat.le_trans (ih h) (Nat.le_max_right _ _)

theorem depth_le_depthMembers {m : String × Json} {ms : List (String × Json)} (h : m ∈ ms) :
    m.2.depth ≤ depthMembers ms := by
  induction ms with
  | nil => cases h
  | cons i ms ih =>
    rw [depthMembers]
    rcases List.mem_cons.mp h with rfl | h
    · exact Nat.le_max_left _ _
    · exact Nat.le_trans (ih h) (Nat.le_max_right _ _)

namespace Reader

/-! ## Blanks -/

theorem skipSpace_of_not_isSpace {c : Char} (h : isSpace c = false) (cs : List Char) :
    skipSpace (c :: cs) = c :: cs := List.dropWhile_cons_of_neg (by simp [h])

theorem skipSpace_lineStart (depth : Nat) (cs : List Char) :
    skipSpace (lineStart depth ++ cs) = skipSpace cs := by
  apply List.dropWhile_append_of_pos
  intro c hc
  rcases List.mem_cons.mp hc with rfl | hc
  · rfl
  · rw [List.eq_of_mem_replicate hc]
    rfl

theorem skipSpace_skipSpace (cs : List Char) : skipSpace (skipSpace cs) = skipSpace cs :=
  List.dropWhile_idempotent isSpace cs

/-- A reader that drops the blanks in front of what it reads. -/
def DropsSpace {α : Type} (read : Reader α) : Prop := ∀ cs, read (skipSpace cs) = read cs

theorem DropsSpace.lineStart {α : Type} {read : Reader α} (h : DropsSpace read) (depth : Nat)
    (cs : List Char) : read (lineStart depth ++ cs) = read cs := by
  rw [← h, skipSpace_lineStart, h]

theorem DropsSpace.blank {α : Type} {read : Reader α} (h : DropsSpace read) (cs : List Char) :
    read (' ' :: cs) = read cs := by
  rw [← h, ← h cs]
  rfl

theorem dropsSpace_value (fuel limit : Nat) : DropsSpace (value fuel limit) := by
  intro cs
  cases limit with
  | zero => rw [value, value, skipSpace_skipSpace]
  | succ limit => rw [value, value, skipSpace_skipSpace]

theorem dropsSpace_items {item : Reader Json} (h : DropsSpace item) (fuel : Nat) :
    DropsSpace (items item fuel) := by
  intro cs
  cases fuel with
  | zero => rfl
  | succ fuel => rw [items, items, h]

theorem dropsSpace_memberKey : DropsSpace memberKey := by
  intro cs
  rw [memberKey, memberKey, skipSpace_skipSpace]

theorem dropsSpace_members (item : Reader Json) (fuel : Nat) :
    DropsSpace (members item fuel) := by
  intro cs
  cases fuel with
  | zero => rfl
  | succ fuel => rw [members, members, dropsSpace_memberKey]

/-- An array whose bracket is not closed at once has items. -/
theorem arrayBody_eq {item : Reader Json} (h : DropsSpace item) (fuel : Nat) {cs more : List Char}
    {c : Char} (hskip : skipSpace cs = c :: more) (hc : c ≠ ']') :
    arrayBody item fuel cs = (items item fuel cs).map fun r => (.array r.1, r.2) := by
  unfold arrayBody
  split
  · next hclosed => exact absurd (List.cons.inj (hskip.symm.trans hclosed)).1 hc
  · rw [dropsSpace_items h]

/-- An object whose brace is not closed at once has members. -/
theorem objectBody_eq (item : Reader Json) (fuel : Nat) {cs more : List Char} {c : Char}
    (hskip : skipSpace cs = c :: more) (hc : c ≠ '}') :
    objectBody item fuel cs =
      (members item fuel cs).map fun r => (.object (Keyed.ofList r.1), r.2) := by
  unfold objectBody
  split
  · next hclosed => exact absurd (List.cons.inj (hskip.symm.trans hclosed)).1 hc
  · rw [dropsSpace_members]

/-! ## First characters -/

/-- A decimal text begins with no character of the layout. -/
theorem exists_decimal (n : Int) : ∃ c ds, Text.decimal n = c :: ds ∧
    isSpace c = false ∧ c ≠ ']' ∧ c ≠ '[' ∧ c ≠ '{' := by
  obtain ⟨c, ds, hdecimal, hc, -⟩ := Text.exists_decimal n
  have hne {d : Char} : ¬ (d = '-' ∨ d.isDigit = true) → c ≠ d := Text.ne_of_begins_decimal hc
  refine ⟨c, ds, hdecimal, ?_, hne (by decide), hne (by decide), hne (by decide)⟩
  simp only [isSpace, Bool.or_eq_false_iff, beq_eq_false_iff_ne]
  exact ⟨⟨⟨hne (by decide), hne (by decide)⟩, hne (by decide)⟩, hne (by decide)⟩

/-- A value begins with neither a blank nor a closing bracket. -/
def Opens (cs : List Char) : Prop := ∃ c rest, cs = c :: rest ∧ isSpace c = false ∧ c ≠ ']'

theorem opens_cons {c : Char} (hspace : isSpace c = false) (hbracket : c ≠ ']') (cs : List Char) :
    Opens (c :: cs) := ⟨c, cs, rfl, hspace, hbracket⟩

theorem opens_block {opening closing : Char} (hspace : isSpace opening = false)
    (hbracket : opening ≠ ']') (depth : Nat) (lines : List (List Char)) :
    Opens (block opening closing depth lines) := by
  cases lines with
  | nil => exact opens_cons hspace hbracket _
  | cons line lines => exact opens_cons hspace hbracket _

theorem opens_prettyAt {j : Json} (h : Exact j) (depth : Nat) : Opens (j.prettyAt depth) := by
  cases h with
  | null => exact opens_cons (by decide) (by decide) _
  | bool b =>
    cases b with
    | false => exact opens_cons (by decide) (by decide) _
    | true => exact opens_cons (by decide) (by decide) _
  | string s => exact opens_cons (by decide) (by decide) _
  | @integer n =>
    obtain ⟨c, ds, hdecimal, hc⟩ := exists_decimal n
    show Opens (Text.decimal n)
    rw [hdecimal]
    exact opens_cons hc.1 hc.2.1 ds
  | array => exact opens_block (by decide) (by decide) _ _
  | object => exact opens_block (by decide) (by decide) _ _

/-! ## Rounds of the loops -/

theorem memberKey_quoted (key : String) (cs : List Char) :
    memberKey (quoted key ++ ':' :: cs) = some (key, cs) := by
  have hquote : ∀ cs, skipSpace ('"' :: cs) = '"' :: cs := skipSpace_of_not_isSpace (by decide)
  have hcolon : ∀ cs, skipSpace (':' :: cs) = ':' :: cs := skipSpace_of_not_isSpace (by decide)
  have hbody := stringBody_flatMap key.toList (':' :: cs)
  rw [quoted, List.cons_append, List.append_assoc, List.singleton_append, memberKey, hquote]
  simp only [hbody, Option.bind_eq_bind, Option.bind_some, hcolon, String.ofList_toList]
  rfl

/-- A line holds an item: the reader takes it, as long as no number goes on after it. -/
def ItemReads (item : Reader Json) (j : Json) (line : List Char) : Prop :=
  ∀ rest, EndsRow isNumberPart rest → item (line ++ rest) = some (j, rest)

/-- A line holds a member. -/
def MemberReads (item : Reader Json) (m : String × Json) (line : List Char) : Prop :=
  ∀ rest, EndsRow isNumberPart rest →
    ∃ text, memberKey (line ++ rest) = some (m.1, text) ∧ item text = some (m.2, rest)

section Loops

variable {item : Reader Json} {tail rest : List Char}

theorem items_lines {js : List Json} {lines : List (List Char)}
    (hlines : List.Forall₂ (ItemReads item) js lines) (hne : js ≠ [])
    (hends : EndsRow isNumberPart tail) (htail : skipSpace tail = ']' :: rest) {fuel : Nat}
    (hfuel : js.length ≤ fuel) :
    items item fuel (List.intercalate [','] lines ++ tail) = some (js, rest) := by
  -- Each round takes one line, so the bound goes down with the list of lines.
  induction hlines generalizing fuel with
  | nil => exact absurd rfl hne
  | @cons j line js lines hj hjs ih =>
    obtain ⟨fuel, rfl⟩ : ∃ k, fuel = k + 1 := ⟨fuel - 1, by simp at hfuel; omega⟩
    cases hjs with
    | nil =>
      rw [List.intercalate_singleton, items, hj tail hends]
      simp only [Option.bind_eq_bind, Option.bind_some, htail]
      rfl
    | @cons i next is more hi his =>
      have hcomma : EndsRow isNumberPart
          (',' :: (List.intercalate [','] (next :: more) ++ tail)) :=
        Text.endsRow_cons (by decide) _
      have hskip : ∀ cs, skipSpace (',' :: cs) = ',' :: cs :=
        skipSpace_of_not_isSpace (by decide)
      have hrest := ih (List.cons_ne_nil i is) (by simp at hfuel ⊢; omega)
      rw [List.intercalate_cons_cons, List.append_assoc, List.append_assoc, List.singleton_append,
        items, hj _ hcomma]
      simp only [Option.bind_eq_bind, Option.bind_some, hskip, hrest]
      rfl

theorem members_lines {ms : List (String × Json)} {lines : List (List Char)}
    (hlines : List.Forall₂ (MemberReads item) ms lines) (hne : ms ≠ [])
    (hends : EndsRow isNumberPart tail) (htail : skipSpace tail = '}' :: rest) {fuel : Nat}
    (hfuel : ms.length ≤ fuel) :
    members item fuel (List.intercalate [','] lines ++ tail) = some (ms, rest) := by
  induction hlines generalizing fuel with
  | nil => exact absurd rfl hne
  | @cons m line ms lines hm hms ih =>
    obtain ⟨fuel, rfl⟩ : ∃ k, fuel = k + 1 := ⟨fuel - 1, by simp at hfuel; omega⟩
    cases hms with
    | nil =>
      obtain ⟨text, hkey, hvalue⟩ := hm tail hends
      rw [List.intercalate_singleton, members, hkey]
      simp only [Option.bind_eq_bind, Option.bind_some, hvalue, htail]
      rfl
    | @cons i next is more hi his =>
      have hcomma : EndsRow isNumberPart
          (',' :: (List.intercalate [','] (next :: more) ++ tail)) :=
        Text.endsRow_cons (by decide) _
      have hskip : ∀ cs, skipSpace (',' :: cs) = ',' :: cs :=
        skipSpace_of_not_isSpace (by decide)
      have hrest := ih (List.cons_ne_nil i is) (by simp at hfuel ⊢; omega)
      obtain ⟨text, hkey, hvalue⟩ := hm _ hcomma
      rw [List.intercalate_cons_cons, List.append_assoc, List.append_assoc, List.singleton_append,
        members, hkey]
      simp only [Option.bind_eq_bind, Option.bind_some, hvalue, hskip, hrest]
      rfl

end Loops

/-! ## Values -/

/-- The text of a value is read back as the value in every place where a value can stand. -/
def ReadsAt (fuel limit depth : Nat) (j : Json) : Prop :=
  ∀ rest, EndsRow isNumberPart rest →
    value fuel limit (j.prettyAt depth ++ rest) = some (j, rest)

theorem value_eq_scalar {c : Char} (hspace : isSpace c = false) (hbracket : c ≠ '[')
    (hbrace : c ≠ '{') (fuel limit : Nat) (cs : List Char) :
    value fuel limit (c :: cs) = scalar (c :: cs) := by
  cases limit
  all_goals
    unfold value
    rw [skipSpace_of_not_isSpace hspace]
    split
    · next h => exact absurd (List.cons.inj h).1 hbracket
    · next h => exact absurd (List.cons.inj h).1 hbrace
    · rfl

theorem readsAt_of_scalar {j : Json} {depth : Nat} {c : Char} {cs : List Char}
    (htext : j.prettyAt depth = c :: cs) (hc : isSpace c = false ∧ c ≠ '[' ∧ c ≠ '{')
    (hscalar : ∀ rest, EndsRow isNumberPart rest → scalar (c :: (cs ++ rest)) = some (j, rest))
    (fuel limit : Nat) : ReadsAt fuel limit depth j := by
  intro rest hrest
  rw [htext, List.cons_append, value_eq_scalar hc.1 hc.2.1 hc.2.2]
  exact hscalar rest hrest

section Blocks

variable {fuel limit depth : Nat}

theorem endsRow_lineStart (cs : List Char) : EndsRow isNumberPart (lineStart depth ++ cs) :=
  Text.endsRow_cons (by decide) _

theorem skipSpace_linesText (depth : Nat) {line : List Char} (lines : List (List Char)) {c : Char}
    {cs : List Char} (hline : line = c :: cs) (hc : isSpace c = false) (tail : List Char) :
    ∃ more, skipSpace (linesText depth (line :: lines) ++ tail) = c :: more := by
  obtain ⟨more, hmore⟩ := Text.exists_intercalate_cons [','] (lineStart (depth + 1) ++ line)
    (lines.map (lineStart (depth + 1) ++ ·))
  refine ⟨cs ++ (more ++ tail), ?_⟩
  rw [linesText, List.map_cons, hmore, List.append_assoc, List.append_assoc, skipSpace_lineStart,
    hline, List.cons_append, skipSpace_of_not_isSpace hc]

/-- An array is read back if its items are. -/
theorem readsAt_array {js : List Json} (hfuel : js.length ≤ fuel) (hexact : ∀ j ∈ js, Exact j)
    (hitems : ∀ j ∈ js, ReadsAt fuel limit (depth + 1) j) :
    ReadsAt fuel (limit + 1) depth (.array js) := by
  intro rest hrest
  cases js with
  | nil => rfl
  | cons j js =>
    have hlines : List.Forall₂ (ItemReads (value fuel limit)) (j :: js)
        ((prettyItems (depth + 1) (j :: js)).map (lineStart (depth + 1) ++ ·)) := by
      rw [prettyItems_eq_map, List.map_map, List.forall₂_map_right_iff, List.forall₂_same]
      intro i hi tail htail
      show value fuel limit (lineStart (depth + 1) ++ i.prettyAt (depth + 1) ++ tail) = _
      rw [List.append_assoc, (dropsSpace_value fuel limit).lineStart]
      exact hitems i hi tail htail
    have htail : skipSpace (lineStart depth ++ ']' :: rest) = ']' :: rest := by
      rw [skipSpace_lineStart]
      exact skipSpace_of_not_isSpace (by decide) rest
    have hread : items (value fuel limit) fuel
        (linesText depth (j.prettyAt (depth + 1) :: prettyItems (depth + 1) js) ++
          (lineStart depth ++ ']' :: rest)) = some (j :: js, rest) :=
      items_lines hlines (List.cons_ne_nil j js) (endsRow_lineStart _) htail hfuel
    obtain ⟨c, cs, hj, hspace, hbracket⟩ := opens_prettyAt (hexact j (.head _)) (depth + 1)
    obtain ⟨more, hmore⟩ := skipSpace_linesText depth (prettyItems (depth + 1) js) hj hspace
      (lineStart depth ++ ']' :: rest)
    have hbody := arrayBody_eq (dropsSpace_value fuel limit) fuel hmore hbracket
    rw [hread] at hbody
    rw [prettyAt, prettyItems, block_append _ _ _ (List.cons_ne_nil _ _)]
    exact hbody

/-- An object is read back if its members are and no name is repeated. -/
theorem readsAt_object {ms : List (String × Json)} (hfuel : ms.length ≤ fuel)
    (hnames : (ms.map Prod.fst).Nodup)
    (hmembers : ∀ m ∈ ms, ReadsAt fuel limit (depth + 1) m.2) :
    ReadsAt fuel (limit + 1) depth (.object ms) := by
  intro rest hrest
  cases ms with
  | nil => rfl
  | cons m ms =>
    have hlines : List.Forall₂ (MemberReads (value fuel limit)) (m :: ms)
        ((prettyMembers (depth + 1) (m :: ms)).map (lineStart (depth + 1) ++ ·)) := by
      rw [prettyMembers_eq_map, List.map_map, List.forall₂_map_right_iff, List.forall₂_same]
      intro i hi tail htail
      have hvalue := hmembers i hi tail htail
      rw [← (dropsSpace_value fuel limit).blank] at hvalue
      refine ⟨_, ?_, hvalue⟩
      show memberKey (lineStart (depth + 1) ++ memberText (depth + 1) i ++ tail) = _
      rw [List.append_assoc, dropsSpace_memberKey.lineStart, memberText, List.append_assoc]
      exact memberKey_quoted _ _
    have htail : skipSpace (lineStart depth ++ '}' :: rest) = '}' :: rest := by
      rw [skipSpace_lineStart]
      exact skipSpace_of_not_isSpace (by decide) rest
    have hread : members (value fuel limit) fuel
        (linesText depth (memberText (depth + 1) m :: prettyMembers (depth + 1) ms) ++
          (lineStart depth ++ '}' :: rest)) = some (m :: ms, rest) :=
      members_lines hlines (List.cons_ne_nil m ms) (endsRow_lineStart _) htail hfuel
    have hline : memberText (depth + 1) m = '"' :: _ := rfl
    obtain ⟨more, hmore⟩ := skipSpace_linesText depth (prettyMembers (depth + 1) ms) hline
      (by decide) (lineStart depth ++ '}' :: rest)
    have hbody := objectBody_eq (value fuel limit) fuel hmore (by decide)
    rw [hread, Option.map_some, Keyed.ofList_of_nodup hnames] at hbody
    rw [prettyAt, prettyMembers, block_append _ _ _ (List.cons_ne_nil _ _)]
    exact hbody

end Blocks

/-- With every bound above its own measures, the reader takes the text of a value as the value. -/
theorem readsAt_prettyAt {j : Json} (h : Exact j) {fuel limit depth : Nat}
    (hlimit : j.depth ≤ limit) (hfuel : (j.prettyAt depth).length ≤ fuel) :
    ReadsAt fuel limit depth j := by
  induction h generalizing limit depth with
  | null => exact readsAt_of_scalar rfl (by decide) (fun _ _ => rfl) fuel limit
  | bool b =>
    cases b with
    | false => exact readsAt_of_scalar rfl (by decide) (fun _ _ => rfl) fuel limit
    | true => exact readsAt_of_scalar rfl (by decide) (fun _ _ => rfl) fuel limit
  | string s =>
    exact readsAt_of_scalar rfl (by decide) (fun rest _ => scalar_quoted s rest) fuel limit
  | @integer n hlo hhi =>
    obtain ⟨c, ds, hdecimal, hspace, -, hbracket, hbrace⟩ := exists_decimal n
    have htext : (Json.integer n).prettyAt depth = c :: ds := hdecimal
    refine readsAt_of_scalar htext ⟨hspace, hbracket, hbrace⟩ (fun rest hrest => ?_) fuel limit
    have hread := scalar_decimal hlo hhi hrest
    rw [hdecimal] at hread
    exact hread
  | @array js hexact ih =>
    rw [Json.depth] at hlimit
    rw [prettyAt] at hfuel
    obtain ⟨limit, rfl⟩ : ∃ k, limit = k + 1 := ⟨limit - 1, by omega⟩
    have hcount := count_le_block '[' ']' depth (prettyItems (depth + 1) js)
    rw [prettyItems_eq_map, List.length_map] at hcount
    rw [prettyItems_eq_map] at hfuel
    apply readsAt_array (Nat.le_trans hcount hfuel) hexact
    intro j hj
    have hdepth := depth_le_depthItems hj
    have hlength := length_le_block '[' ']' depth
      (List.mem_map_of_mem (f := fun j => j.prettyAt (depth + 1)) hj)
    exact ih j hj (by omega) (Nat.le_trans hlength hfuel)
  | @object ms hnames _ ih =>
    rw [Json.depth] at hlimit
    rw [prettyAt] at hfuel
    obtain ⟨limit, rfl⟩ : ∃ k, limit = k + 1 := ⟨limit - 1, by omega⟩
    have hcount := count_le_block '{' '}' depth (prettyMembers (depth + 1) ms)
    rw [prettyMembers_eq_map, List.length_map] at hcount
    rw [prettyMembers_eq_map] at hfuel
    apply readsAt_object (Nat.le_trans hcount hfuel) hnames
    intro m hm
    have hdepth := depth_le_depthMembers hm
    have hlength := length_le_block '{' '}' depth
      (List.mem_map_of_mem (f := memberText (depth + 1)) hm)
    have hvalue : (m.2.prettyAt (depth + 1)).length ≤ (memberText (depth + 1) m).length := by
      simp only [memberText, List.length_append, List.length_cons]
      omega
    exact ih m hm (by omega) (by omega)

end Reader

/-- Reading the laid-out text of a value gives the value, unless it nests too deep for the reader. -/
theorem read?_pretty {j : Json} (h : Exact j) {limit : Nat} (hlimit : j.depth ≤ limit) :
    read? limit j.pretty = some j := by
  have hread := Reader.readsAt_prettyAt h hlimit (Nat.le_refl (j.prettyAt 0).length) []
    (Text.endsRow_nil _)
  rw [List.append_nil] at hread
  unfold read? pretty
  rw [hread]
  rfl

end ScriptTree.Json
