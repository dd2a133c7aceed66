import ScriptTree.Proofs.Path.Dots
import ScriptTree.Proofs.Text.Digits

/-!
# The spellings of paths

A path spells a list of segments: their names joined by dots, each followed by its subscripts in
brackets, with any blanks inside the brackets around the text of a subscript. The reader accepts
the spellings of valid segments and nothing else, so that every path has one reading.
-/
namespace ScriptTree.Path

open Text (Blanks Trimmed Digits)
open Outcome (bind_eq_ok_iff pure_eq_ok_iff mapM_eq_ok_iff mapError_eq_ok_iff forall_mem_of_forall₂)

/-- What the text of a subscript must look like. An integer text must denote a 64-bit integer. -/
structure ValidIndex (index : List Char) : Prop where
  nonempty : index ≠ []
  trimmed : Trimmed index
  balanced : Balanced 0 index
  fits : Digits index → Nat.ofDigitChars 10 index 0 ≤ 9223372036854775807
  fitsBelow : ∀ digits, index = '-' :: digits → Digits digits →
    Nat.ofDigitChars 10 digits 0 ≤ 9223372036854775808

structure Segment.Valid (s : Segment) : Prop where
  named : s.name ≠ ""
  nameFree : ∀ c ∈ s.name.toList, c ≠ '.' ∧ c ≠ '[' ∧ c ≠ ']'
  indices : ∀ i ∈ s.indices, ValidIndex i.toList

/-- Subscripts in brackets, one after the other. -/
inductive SpellsIndices : List String → List Char → Prop
  | nil : SpellsIndices [] []
  | cons {i : String} {is : List String} {pre post cs : List Char} (hpre : Blanks pre)
      (hpost : Blanks post) (h : SpellsIndices is cs) :
      SpellsIndices (i :: is) ('[' :: (pre ++ (i.toList ++ post)) ++ ']' :: cs)

/-- A name with the subscripts that follow it. -/
def Segment.Spells (s : Segment) (text : List Char) : Prop :=
  ∃ tail, text = s.name.toList ++ tail ∧ SpellsIndices s.indices tail

/-- Segments joined by dots. -/
def Spells (segments : List Segment) (path : List Char) : Prop :=
  ∃ texts, List.Forall₂ Segment.Spells segments texts ∧ path = List.intercalate ['.'] texts

/-! ## Subscripts -/

theorem int64?_isNone_eq_false_iff (n : Int) :
    (Text.int64? n).isNone = false ↔ -9223372036854775808 ≤ n ∧ n ≤ 9223372036854775807 := by
  rw [Text.int64?]
  split
  · next h => simp [h]
  · next h => simp only [Option.isNone_none, Bool.true_eq_false, h]

/-- A trimmed and balanced text has no defect exactly if it is a valid index. -/
theorem indexDefect?_eq_none_iff {index : List Char} (ht : Trimmed index)
    (hb : Balanced 0 index) : indexDefect? index = none ↔ ValidIndex index := by
  rw [indexDefect?]
  constructor
  · intro h
    split at h
    · cases h
    next hne =>
    have hrange (n : Int) (hn : Text.readInteger? index = some n) :
        -9223372036854775808 ≤ n ∧ n ≤ 9223372036854775807 := by
      rw [← int64?_isNone_eq_false_iff, Option.isNone_eq_false_iff]
      simpa [hn, Option.isSome_iff_ne_none] using h
    refine ⟨hne, ht, hb, ?_, ?_⟩
    · intro hd
      have := hrange _ (Text.readInteger?_eq_some_iff.mpr (.inl ⟨hd, rfl⟩))
      omega
    · intro digits hindex hd
      have := hrange _ (Text.readInteger?_eq_some_iff.mpr (.inr ⟨digits, hindex, hd, rfl⟩))
      omega
  · intro h
    rw [if_neg h.nonempty]
    cases hn : Text.readInteger? index with
    | none => rfl
    | some n =>
      have hrange : -9223372036854775808 ≤ n ∧ n ≤ 9223372036854775807 := by
        rcases Text.readInteger?_eq_some_iff.mp hn with ⟨hd, rfl⟩ | ⟨digits, hindex, hd, rfl⟩
        · have := h.fits hd
          omega
        · have := h.fitsBelow digits hindex hd
          omega
      rw [← int64?_isNone_eq_false_iff] at hrange
      simp [hrange]

theorem subscripts_cons {position : Nat} {inner inside rest : List Char}
    (h : takeSubscript 0 none inner = some (inside, rest)) :
    subscripts position ('[' :: inner) =
      match indexDefect? (Text.trim inside) with
      | some defect => .error ⟨defect, ⟨position, Text.byteLength inside + 2⟩⟩
      | none => do
        let indices ← subscripts (position + (Text.byteLength inside + 2)) rest
        return String.ofList (Text.trim inside) :: indices := by
  rw [subscripts]
  split
  · next hnone => rw [h] at hnone; cases hnone
  · next inside' rest' hsome =>
    rw [h] at hsome
    cases hsome
    rfl

/-- One round of the reader: nothing is left, or a subscript without defect comes first. -/
theorem exists_of_subscripts {position : Nat} {cs : List Char} {indices : List String}
    (h : subscripts position cs = .ok indices) :
    (cs = [] ∧ indices = []) ∨
      ∃ inside rest position' indices', cs = '[' :: (inside ++ ']' :: rest) ∧
        Balanced 0 inside ∧ indexDefect? (Text.trim inside) = none ∧
        subscripts position' rest = .ok indices' ∧
        indices = String.ofList (Text.trim inside) :: indices' := by
  cases cs with
  | nil =>
    rw [subscripts] at h
    cases h
    exact .inl ⟨rfl, rfl⟩
  | cons c inner =>
    by_cases hc : c = '['
    · subst hc
      cases htake : takeSubscript 0 none inner with
      | none =>
        rw [subscripts] at h
        split at h
        · cases h
        · next hsome => rw [htake] at hsome; cases hsome
      | some cut =>
        obtain ⟨inside, rest⟩ := cut
        obtain ⟨rfl, hb⟩ := takeSubscript_eq_some_iff.mp htake
        rw [subscripts_cons htake] at h
        split at h
        · cases h
        next hdefect =>
        obtain ⟨indices', hrest, h⟩ := bind_eq_ok_iff.mp h
        exact .inr ⟨inside, rest, _, indices', rfl, hb, hdefect, hrest, (pure_eq_ok_iff.mp h).symm⟩
    · rw [subscripts] at h
      · cases h
      · exact hc

/-- A balanced text in brackets is a subscript unless it has a defect. -/
theorem SpellsIndices.cons_of_balanced {inside cs : List Char} {is : List String}
    (h : SpellsIndices is cs) (hb : Balanced 0 inside)
    (hdefect : indexDefect? (Text.trim inside) = none) :
    ValidIndex (String.ofList (Text.trim inside)).toList ∧
      SpellsIndices (String.ofList (Text.trim inside) :: is) ('[' :: (inside ++ ']' :: cs)) := by
  obtain ⟨pre, post, hpre, hpost, heq, ht⟩ := Text.exists_trim inside
  have htrim : Balanced 0 (Text.trim inside) := by
    rw [heq, balanced_blanks_append hpre, balanced_append_blanks hpost] at hb
    exact hb
  have hspelled := SpellsIndices.cons (i := String.ofList (Text.trim inside)) hpre hpost h
  rw [String.toList_ofList, ← heq] at hspelled
  rw [String.toList_ofList]
  exact ⟨(indexDefect?_eq_none_iff ht htrim).mp hdefect, hspelled⟩

theorem spells_of_subscripts {position : Nat} {cs : List Char} {indices : List String}
    (h : subscripts position cs = .ok indices) :
    SpellsIndices indices cs ∧ ∀ i ∈ indices, ValidIndex i.toList := by
  induction indices generalizing position cs with
  | nil =>
    obtain ⟨rfl, -⟩ | ⟨_, _, _, _, _, _, _, _, hcons⟩ := exists_of_subscripts h
    · exact ⟨.nil, List.forall_mem_nil _⟩
    · cases hcons
  | cons i indices ih =>
    obtain ⟨-, hnil⟩ | ⟨inside, rest, position', indices', rfl, hb, hdefect, hrest, hcons⟩ :=
      exists_of_subscripts h
    · cases hnil
    cases hcons
    obtain ⟨hspells, hvalid⟩ := ih hrest
    obtain ⟨hindex, hspelled⟩ := hspells.cons_of_balanced hb hdefect
    exact ⟨hspelled, List.forall_mem_cons.mpr ⟨hindex, hvalid⟩⟩

theorem subscripts_of_spells {indices : List String} {cs : List Char}
    (h : SpellsIndices indices cs) (hvalid : ∀ i ∈ indices, ValidIndex i.toList)
    (position : Nat) : subscripts position cs = .ok indices := by
  induction h generalizing position with
  | nil => rw [subscripts]
  | @cons i is pre post cs hpre hpost _ ih =>
    have hi : ValidIndex i.toList := hvalid i (.head _)
    have hb : Balanced 0 (pre ++ (i.toList ++ post)) := by
      rw [balanced_blanks_append hpre, balanced_append_blanks hpost]
      exact hi.balanced
    have htrim : Text.trim (pre ++ (i.toList ++ post)) = i.toList :=
      Text.trim_append hpre hi.trimmed hpost
    rw [List.cons_append, subscripts_cons (takeSubscript_balanced hb cs), htrim,
      (indexDefect?_eq_none_iff hi.trimmed hi.balanced).mpr hi, String.ofList_toList]
    simp only [ih fun j hj => hvalid j (.tail _ hj)]
    rfl

/-! ## Segments -/

/-- Spelled subscripts begin with a bracket, so that a name ends before them. -/
theorem SpellsIndices.endsRow {indices : List String} {cs : List Char}
    (h : SpellsIndices indices cs) : Text.EndsRow (· ≠ '[') cs := by
  cases h with
  | nil => exact Text.endsRow_nil _
  | cons _ _ _ => exact Text.endsRow_cons (by decide) _

theorem spells_of_ofPiece {p : Piece} {s : Segment} (hp : Passes .top p.text .top)
    (h : Segment.ofPiece p = .ok s) : s.Valid ∧ s.Spells p.text := by
  rw [Segment.ofPiece] at h
  split at h
  · cases h
  next hne =>
  obtain ⟨indices, hsub, h⟩ := bind_eq_ok_iff.mp h
  cases pure_eq_ok_iff.mp h
  obtain ⟨hspells, hvalid⟩ := spells_of_subscripts hsub
  refine ⟨⟨?_, ?_, hvalid⟩, ?_⟩
  · intro hempty
    exact hne (String.ofList_eq_empty_iff.mp hempty)
  · rw [String.toList_ofList]
    exact hp.free_of_top
  · refine ⟨_, ?_, hspells⟩
    rw [String.toList_ofList, List.takeWhile_append_dropWhile]

theorem ofPiece_of_spells {s : Segment} {text : List Char} (hv : s.Valid) (h : s.Spells text)
    (offset : Nat) : Segment.ofPiece ⟨offset, text⟩ = .ok s := by
  obtain ⟨tail, rfl, hspells⟩ := h
  have hname : ∀ c ∈ s.name.toList, decide (c ≠ '[') = true :=
    fun c hc => decide_eq_true (hv.nameFree c hc).2.1
  have htake := Text.takeWhile_row hname hspells.endsRow
  have hdrop := Text.dropWhile_row hname hspells.endsRow
  have hne : s.name.toList ≠ [] := by
    intro hempty
    exact hv.named (String.toList_eq_nil_iff.mp hempty)
  rw [Segment.ofPiece]
  simp only [htake, hdrop, if_neg hne, subscripts_of_spells hspells hv.indices, String.ofList_toList]
  rfl

theorem SpellsIndices.passes {indices : List String} {cs : List Char}
    (h : SpellsIndices indices cs) (hvalid : ∀ i ∈ indices, ValidIndex i.toList) :
    Passes .top cs .top := by
  induction h with
  | nil => exact .nil
  | @cons i is pre post cs hpre hpost _ ih =>
    have hb : Balanced 0 (pre ++ (i.toList ++ post)) := by
      rw [balanced_blanks_append hpre, balanced_append_blanks hpost]
      exact (hvalid i (.head _)).balanced
    rw [List.append_cons]
    exact hb.passes_brackets.append (ih fun j hj => hvalid j (.tail _ hj))

theorem Segment.Spells.passes {s : Segment} {text : List Char} (hv : s.Valid) (h : s.Spells text) :
    Passes .top text .top := by
  obtain ⟨tail, rfl, hspells⟩ := h
  exact (passes_top hv.nameFree).append (hspells.passes hv.indices)

/-! ## Paths -/

theorem ofPiece_eq_ok_iff {text : List Char} (hp : Passes .top text .top) (offset : Nat)
    {s : Segment} : Segment.ofPiece ⟨offset, text⟩ = .ok s ↔ s.Valid ∧ s.Spells text :=
  ⟨spells_of_ofPiece hp, fun ⟨hv, h⟩ => ofPiece_of_spells hv h offset⟩

theorem forall₂_ofPiece_iff {texts : List (List Char)} (hall : ∀ t ∈ texts, Passes .top t .top)
    (start : Nat) {segments : List Segment} :
    List.Forall₂ (fun p s => Segment.ofPiece p = .ok s) (pieces start texts) segments ↔
      (∀ s ∈ segments, s.Valid) ∧ List.Forall₂ Segment.Spells segments texts := by
  rw [← List.forall₂_and_left]
  induction texts generalizing start segments with
  | nil => simp [pieces]
  | cons t texts ih =>
    simp only [pieces, List.forall₂_cons_left_iff, List.forall₂_cons_right_iff,
      ofPiece_eq_ok_iff (hall t (.head _)), ih fun u hu => hall u (.tail _ hu)]

/-- The reader accepts the spellings of valid segments and answers with these segments. -/
theorem segments_eq_ok_iff {path : List Char} {ss : List Segment} :
    segments path = .ok ss ↔ (ss ≠ [] ∧ ∀ s ∈ ss, s.Valid) ∧ Spells ss path := by
  constructor
  · intro h
    obtain ⟨ps, hsplit, hmap⟩ := bind_eq_ok_iff.mp h
    obtain ⟨texts, hne, rfl, rfl, hall⟩ := split_eq_ok_iff.mp hsplit
    obtain ⟨hvalid, hspells⟩ := (forall₂_ofPiece_iff hall 0).mp (mapM_eq_ok_iff.mp hmap)
    refine ⟨⟨?_, hvalid⟩, texts, hspells, rfl⟩
    rintro rfl
    exact hne (List.forall₂_nil_left_iff.mp hspells)
  · intro h
    obtain ⟨⟨hne, hvalid⟩, texts, hspells, rfl⟩ := h
    have hall : ∀ t ∈ texts, Passes .top t .top :=
      forall_mem_of_forall₂ hspells fun s hs t hst => hst.passes (hvalid s hs)
    have htexts : texts ≠ [] := by
      rintro rfl
      exact hne (List.forall₂_nil_right_iff.mp hspells)
    exact bind_eq_ok_iff.mpr ⟨pieces 0 texts, split_eq_ok_iff.mpr ⟨texts, htexts, rfl, rfl, hall⟩,
      mapM_eq_ok_iff.mpr ((forall₂_ofPiece_iff hall 0).mpr ⟨hvalid, hspells⟩)⟩

/-- What a path reads as are valid segments, and there is one at least. -/
theorem valid_of_read {path : String} {ss : List Segment} (h : read path = .ok ss) :
    ss ≠ [] ∧ ∀ s ∈ ss, s.Valid := (segments_eq_ok_iff.mp (mapError_eq_ok_iff.mp h)).1

/-- A path reads as a list of segments exactly if these are valid and the path spells them. -/
theorem read_eq_ok_iff (path : String) (ss : List Segment) :
    read path = .ok ss ↔ (ss ≠ [] ∧ ∀ s ∈ ss, s.Valid) ∧ Spells ss path.toList := by
  rw [read, mapError_eq_ok_iff, segments_eq_ok_iff]

end ScriptTree.Path
