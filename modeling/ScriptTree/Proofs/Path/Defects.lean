import ScriptTree.Draft.Attribute
import ScriptTree.Proofs.Path.Paired
import ScriptTree.Proofs.Path.Spelling

/-!
# What the errors of a path point at

The error for a path comes with a span of bytes. Here the span is a stretch of the path, and for each
defect it is said what the stretch looks like. Byte counts become places because each reader is
followed together with the text that it has read so far: a segment begun and the dot before it for the
scan, subscripts without a defect inside a piece, segments without a defect before a piece. The last
two also say that in a path whose brackets are paired the reported defect is the first one.
-/
namespace ScriptTree.Path

open Text (byteLength byteLength_append byteLength_toList)
open Outcome (bind_eq_ok_iff bind_eq_error_iff mapError_eq_error_iff)

/-! ## Stretches -/

/-- A stretch of a path, with what stands before it and after it. -/
structure Stretch where
  before : List Char
  spanned : List Char
  after : List Char

namespace Stretch

def whole (s : Stretch) : List Char := s.before ++ (s.spanned ++ s.after)

def span (s : Stretch) : Span := ⟨byteLength s.before, byteLength s.spanned⟩

/-- At the start of the path or after a dot outside all brackets. -/
def Opens (before : List Char) : Prop := before = [] ∨ ∃ x, before = x ++ ['.'] ∧ Paired x

/-- All that stands between two dots outside all brackets, or between such a dot and an end of the
path. -/
structure IsSegment (s : Stretch) : Prop where
  opens : Opens s.before
  undotted : ∀ a b, s.spanned = a ++ '.' :: b → ¬ Paired (s.before ++ a)
  closes : s.after = [] ∨ ∃ y, s.after = '.' :: y ∧ Paired (s.before ++ s.spanned)

end Stretch

/-- A span that can be cut out of a text: it lies inside it and parts no character. -/
structure CutsOut (path : String) (span : Span) : Prop where
  inside : span.offset + span.length ≤ path.utf8ByteSize
  first : String.Pos.Raw.IsValid path ⟨span.offset⟩
  last : String.Pos.Raw.IsValid path ⟨span.offset + span.length⟩

/-- What the stretch that shows a defect looks like. -/
def Shows : Defect → Stretch → Prop
  | .unbalancedBracket, s => s.spanned = [']'] ∧ Paired s.before
  | .unclosedSubscript, s => s.IsSegment ∧ s.after = [] ∧ ¬ Paired s.whole
  | .emptySegment, s => s.IsSegment ∧ (s.spanned = [] ∨ ∃ cs, s.spanned = '[' :: cs)
  | .textAfterSubscript, s =>
    (∃ lead head, s.before = lead ++ (head ++ [']']) ∧
      Stretch.IsSegment ⟨lead, head ++ ']' :: s.spanned, s.after⟩) ∧
    ∃ c cs, s.spanned = c :: cs ∧ c ≠ '['
  | .emptySubscript, s =>
    ∃ inside, s.spanned = '[' :: (inside ++ [']']) ∧ Balanced 0 inside ∧ Text.trim inside = []
  | .integerOutOfRange, s =>
    ∃ inside, s.spanned = '[' :: (inside ++ [']']) ∧ Balanced 0 inside ∧
      ∃ n, Text.readInteger? (Text.trim inside) = some n ∧
        ¬ (-9223372036854775808 ≤ n ∧ n ≤ 9223372036854775807)
  | .subscriptedModule, s | .missingDot, s => s.before = [] ∧ s.after = []
  | .emptyPath, _ => False

/-- Nothing, or segments without a defect and the dot after them. -/
def ReadsUpTo (lead : List Char) : Prop :=
  lead = [] ∨ ∃ x ss, lead = x ++ ['.'] ∧ segments x = .ok ss

/-- What stands before the stretch has no defect. Only where a whole segment is at fault does this
end with a dot. -/
def FirstDefect : Defect → Stretch → Prop
  | .emptySegment, s => ReadsUpTo s.before
  | .textAfterSubscript, s | .emptySubscript, s | .integerOutOfRange, s =>
    ∃ ss, segments s.before = .ok ss
  | _, _ => False

theorem Stretch.cutsOut {s : Stretch} {path : String} (h : s.whole = path.toList) :
    CutsOut path s.span := by
  have hpath : path = String.ofList s.before ++ String.ofList s.spanned ++ String.ofList s.after := by
    rw [← String.toList_inj, ← h, whole]
    simp
  have hsize (cs : List Char) : (String.ofList cs).utf8ByteSize = byteLength cs := by
    rw [← byteLength_toList, String.toList_ofList]
  refine ⟨?_, ?_, ?_⟩
  · rw [← byteLength_toList, ← h, whole, byteLength_append, byteLength_append]
    show byteLength s.before + byteLength s.spanned ≤ _
    omega
  · refine String.Pos.Raw.isValid_iff_exists_append.mpr
      ⟨_, _, hpath.trans String.append_assoc, String.Pos.Raw.ext ?_⟩
    rw [String.byteIdx_rawEndPos, hsize]
    rfl
  · refine String.Pos.Raw.isValid_iff_exists_append.mpr ⟨_, _, hpath, String.Pos.Raw.ext ?_⟩
    rw [String.byteIdx_rawEndPos, String.utf8ByteSize_append, hsize, hsize]
    rfl

/-! ## Segments of a path -/

theorem Stretch.Opens.paired {lead : List Char} (h : Opens lead) : Paired lead := by
  obtain rfl | ⟨x, rfl, hx⟩ := h
  · exact .nil
  · exact hx.dot

/-- A piece that a scanner passes is a segment, up to a dot if the scanner ends outside all brackets,
and in any case up to the end of the path. -/
theorem isSegment_of_passes {lead text after : List Char} {m : Nesting}
    (hlead : Stretch.Opens lead) (hpass : Passes .top text m)
    (hafter : after = [] ∨ m = .top ∧ ∃ y, after = '.' :: y) :
    Stretch.IsSegment ⟨lead, text, after⟩ where
  opens := hlead
  undotted := by
    rintro a b rfl hpaired
    exact hpass.not_paired_before_dot ((paired_append_iff hlead.paired).mp hpaired)
  closes := by
    obtain rfl | ⟨rfl, y, rfl⟩ := hafter
    · exact .inl rfl
    · exact .inr ⟨y, rfl, (paired_append_iff hlead.paired).mpr hpass.paired⟩

/-! ## The scan -/

/-- Where the scan of a path fails. It has read `lead` up to the last dot that separates and `text`
after it; every step moves one character, and at a dot both, to the side that is read. -/
theorem shows_of_splitFrom {n : Nesting} {lead text cs : List Char} {fault : Fault}
    (hlead : Stretch.Opens lead) (hpass : Passes .top text n)
    (h : splitFrom n (byteLength lead) (byteLength (lead ++ text)) cs = .error fault) :
    ∃ s : Stretch, s.whole = lead ++ (text ++ cs) ∧ s.span = fault.span ∧ Shows fault.defect s ∧
      (fault.defect = .unbalancedBracket ∨ fault.defect = .unclosedSubscript) := by
  induction cs generalizing n lead text with
  | nil =>
    rw [splitFrom] at h
    split at h
    · cases h
    next htop =>
    cases h
    have hopen : ¬ Paired (lead ++ text) := by
      rw [paired_append_iff hlead.paired, paired_iff_run, hpass.run, Option.some.injEq,
        ← Nesting.isTop_iff]
      exact htop
    refine ⟨⟨lead, text, []⟩, rfl, ?_, ⟨isSegment_of_passes hlead hpass (.inl rfl), rfl, ?_⟩, .inr rfl⟩
    · rw [Stretch.span, byteLength_append, Nat.add_sub_cancel_left]
    · rwa [Stretch.whole, List.append_nil]
  | cons c cs ih =>
    rw [splitFrom] at h
    split at h
    · next hdot =>
      obtain ⟨rfl, htop⟩ := hdot
      obtain rfl := (Nesting.isTop_iff n).mp htop
      obtain h | ⟨_, _, h⟩ := bind_eq_error_iff.mp h
      · have hread : Stretch.Opens (lead ++ text ++ ['.']) :=
          .inr ⟨_, rfl, (paired_append_iff hlead.paired).mpr hpass.paired⟩
        have hposition : byteLength (lead ++ text) + 1 = byteLength (lead ++ text ++ ['.']) := by
          rw [byteLength_append (lead ++ text)]
          rfl
        rw [hposition] at h
        obtain ⟨s, hwhole, hs⟩ := ih hread .nil (by rwa [List.append_nil])
        exact ⟨s, by rw [hwhole]; simp, hs⟩
      · cases h
    · next hdot =>
      split at h
      · next hstep =>
        cases h
        obtain ⟨rfl, rfl⟩ := Nesting.of_step_eq_none hstep
        refine ⟨⟨lead ++ text, [']'], cs⟩, by simp [Stretch.whole], rfl, ⟨rfl, ?_⟩, .inl rfl⟩
        exact (paired_append_iff hlead.paired).mpr hpass.paired
      · next n' hstep =>
        obtain h | ⟨_, _, h⟩ := bind_eq_error_iff.mp h
        · have hposition : byteLength (lead ++ text) + c.utf8Size =
              byteLength (lead ++ (text ++ [c])) := by
            simp [Nat.add_assoc]
          rw [hposition] at h
          obtain ⟨s, hwhole, hs⟩ := ih hlead (hpass.append (.cons hdot hstep .nil)) h
          exact ⟨s, by rw [hwhole]; simp, hs⟩
        · cases h

theorem shows_of_split {path : List Char} {fault : Fault} (h : split path = .error fault) :
    ∃ s : Stretch, s.whole = path ∧ s.span = fault.span ∧ Shows fault.defect s ∧
      (fault.defect = .unbalancedBracket ∨ fault.defect = .unclosedSubscript) := by
  obtain h | ⟨_, _, h⟩ := bind_eq_error_iff.mp h
  · exact shows_of_splitFrom (.inl rfl) .nil h
  · cases h

/-! ## The subscripts of a piece -/

/-- What is wrong where a subscript should stand: it is a subscript with a defect, or something else
that goes on to the end of the piece. -/
inductive Stumbles : Defect → List Char → List Char → Prop
  | text {c : Char} {cs : List Char} (hc : c ≠ '[') : Stumbles .textAfterSubscript (c :: cs) []
  | group {inside after : List Char} {d : Defect} (hi : Balanced 0 inside)
      (hd : indexDefect? (Text.trim inside) = some d) :
      Stumbles d ('[' :: (inside ++ [']'])) after

theorem byteLength_bracketed (inside rest : List Char) :
    byteLength ('[' :: (inside ++ ']' :: rest)) = byteLength inside + 2 + byteLength rest := by
  have hopening : '['.utf8Size = 1 := rfl
  have hclosing : ']'.utf8Size = 1 := rfl
  rw [Text.byteLength_cons, byteLength_append, Text.byteLength_cons, hopening, hclosing]
  omega

theorem stumbles_of_subscripts {position : Nat} {cs : List Char} {fault : Fault} (hp : Paired cs)
    (h : subscripts position cs = .error fault) :
    ∃ is head spanned after, cs = head ++ (spanned ++ after) ∧ SpellsIndices is head ∧
      (∀ i ∈ is, ValidIndex i.toList) ∧
      fault.span = ⟨position + byteLength head, byteLength spanned⟩ ∧
      Stumbles fault.defect spanned after := by
  induction hp generalizing position with
  | nil =>
    rw [subscripts] at h
    cases h
  | @plain c cs ho _ _ _ =>
    rw [subscripts] at h
    · cases h
      refine ⟨[], [], c :: cs, [], by simp, .nil, List.forall_mem_nil _, rfl, .text ho⟩
    · exact ho
  | @group inside cs hi _ ih =>
    rw [subscripts_cons (takeSubscript_balanced hi cs)] at h
    split at h
    · next d hd =>
      cases h
      refine ⟨[], [], '[' :: (inside ++ [']']), cs, by simp, .nil, List.forall_mem_nil _, ?_,
        .group hi hd⟩
      rw [byteLength_bracketed]
      rfl
    · next hd =>
      obtain h | ⟨_, _, h⟩ := bind_eq_error_iff.mp h
      · obtain ⟨is, head, spanned, after, rfl, hspells, hvalid, hspan, hs⟩ := ih h
        obtain ⟨hindex, hspelled⟩ := hspells.cons_of_balanced hi hd
        refine ⟨_, _, spanned, after, ?_, hspelled, List.forall_mem_cons.mpr ⟨hindex, hvalid⟩, ?_, hs⟩
        · simp
        · rw [hspan, byteLength_bracketed, Nat.add_assoc]
      · cases h

theorem of_indexDefect?_eq_some {index : List Char} {d : Defect} (h : indexDefect? index = some d) :
    (d = .emptySubscript ∧ index = []) ∨
      (d = .integerOutOfRange ∧ ∃ n, Text.readInteger? index = some n ∧
        ¬ (-9223372036854775808 ≤ n ∧ n ≤ 9223372036854775807)) := by
  rw [indexDefect?] at h
  split at h
  · next hempty =>
    cases h
    exact .inl ⟨rfl, hempty⟩
  split at h
  · next n hn =>
    split at h
    · next hnone =>
      cases h
      refine .inr ⟨rfl, n, hn, ?_⟩
      rw [← int64?_isNone_eq_false_iff, hnone]
      exact Bool.noConfusion
    · cases h
  · cases h

/-! ## A piece -/

/-- From its first opening bracket on a paired text is paired. -/
theorem Paired.dropWhile {cs : List Char} (h : Paired cs) : Paired (cs.dropWhile (· ≠ '[')) := by
  induction h with
  | nil => exact .nil
  | plain ho _ _ ih =>
    rw [List.dropWhile_cons_of_pos (by simpa using ho)]
    exact ih
  | group hi h _ =>
    rw [List.dropWhile_cons_of_neg (by simp)]
    exact .group hi h

theorem SpellsIndices.ends {is : List String} {cs : List Char} (h : SpellsIndices is cs) :
    cs = [] ∨ ∃ ds, cs = ds ++ [']'] := by
  induction h with
  | nil => exact .inl rfl
  | @cons i is pre post cs _ _ _ ih =>
    obtain rfl | ⟨ds, rfl⟩ := ih
    · exact .inr ⟨_, rfl⟩
    · exact .inr ⟨'[' :: (pre ++ (i.toList ++ post)) ++ ']' :: ds, by simp⟩

/-- A piece is no segment because it has no name or because of something that stands after a segment
at its front. Unless it is a subscript, a subscript stands before it. -/
theorem stumbles_of_ofPiece {offset : Nat} {text : List Char} {fault : Fault}
    (hpass : Passes .top text .top) (h : Segment.ofPiece ⟨offset, text⟩ = .error fault) :
    (fault = ⟨.emptySegment, ⟨offset, byteLength text⟩⟩ ∧ (text = [] ∨ ∃ cs, text = '[' :: cs)) ∨
      ∃ (s : Segment) (head spanned after : List Char), text = head ++ (spanned ++ after) ∧
        s.Valid ∧ s.Spells head ∧ ((∃ cs, spanned = '[' :: cs) ∨ ∃ ds, head = ds ++ [']']) ∧
        fault.span = ⟨offset + byteLength head, byteLength spanned⟩ ∧
        Stumbles fault.defect spanned after := by
  obtain ⟨defect, span⟩ := fault
  rw [Segment.ofPiece] at h
  split at h
  · next hname =>
    cases h
    refine .inl ⟨rfl, ?_⟩
    cases text with
    | nil => exact .inl rfl
    | cons c cs =>
      refine .inr ⟨cs, ?_⟩
      simpa using hname
  next hname =>
  obtain h | ⟨_, _, h⟩ := bind_eq_error_iff.mp h
  · obtain ⟨is, row, spanned, after, hrest, hspells, hvalid, hspan, hs⟩ :=
      stumbles_of_subscripts hpass.paired.dropWhile h
    have htext : text = text.takeWhile (· ≠ '[') ++ (row ++ (spanned ++ after)) := by
      rw [← hrest, List.takeWhile_append_dropWhile]
    refine .inr ⟨⟨String.ofList (text.takeWhile (· ≠ '[')), is⟩, text.takeWhile (· ≠ '[') ++ row,
      spanned, after, ?_, ⟨?_, ?_, hvalid⟩, ⟨row, ?_, hspells⟩, ?_, ?_, hs⟩
    · rw [List.append_assoc]
      exact htext
    · exact fun hempty => hname (String.ofList_eq_empty_iff.mp hempty)
    · rw [String.toList_ofList]
      exact hpass.free_of_top
    · rw [String.toList_ofList]
    · obtain rfl | ⟨ds, rfl⟩ := hspells.ends
      · -- What follows the name begins with the bracket at which the name ends.
        cases hs with
        | @text c cs hc =>
          have hfirst := List.head?_dropWhile_not (· ≠ '[') text
          rw [hrest] at hfirst
          simp [hc] at hfirst
        | group _ _ => exact .inl ⟨_, rfl⟩
      · exact .inr ⟨_, (List.append_assoc _ _ _).symm⟩
    · rw [hspan, byteLength_append, Nat.add_assoc]
  · cases h

/-! ## What has been read before a piece -/

theorem Spells.concat {ss : List Segment} {s : Segment} {x text : List Char} (hne : ss ≠ [])
    (h : Spells ss x) (hs : s.Spells text) : Spells (ss ++ [s]) (x ++ '.' :: text) := by
  obtain ⟨texts, hall, rfl⟩ := h
  refine ⟨texts ++ [text], List.rel_append hall (.cons hs .nil), ?_⟩
  cases texts with
  | nil => exact absurd (List.forall₂_nil_right_iff.mp hall) hne
  | cons t texts =>
    rw [List.cons_append, intercalate_dot, intercalate_dot, dotted, dotted, List.flatMap_append]
    simp

/-- A valid segment after segments and a dot is one more segment. -/
theorem ReadsUpTo.segments {lead text : List Char} {s : Segment} (h : ReadsUpTo lead)
    (hv : s.Valid) (hs : s.Spells text) : ∃ ss, segments (lead ++ text) = .ok ss := by
  obtain rfl | ⟨x, ss, rfl, hx⟩ := h
  · refine ⟨[s], segments_eq_ok_iff.mpr ⟨⟨List.cons_ne_nil _ _, by simpa using hv⟩, [text], ?_, ?_⟩⟩
    · exact .cons hs .nil
    · rw [List.intercalate_singleton, List.nil_append]
  · obtain ⟨⟨hne, hvalid⟩, hspells⟩ := segments_eq_ok_iff.mp hx
    have hmore := hspells.concat hne hs
    rw [List.append_assoc, List.singleton_append]
    refine ⟨ss ++ [s], segments_eq_ok_iff.mpr ⟨⟨by simp, ?_⟩, hmore⟩⟩
    exact List.forall_mem_append.mpr ⟨hvalid, by simpa using hv⟩

theorem paired_dotted {texts : List (List Char)} (h : ∀ t ∈ texts, Paired t) :
    Paired (dotted texts) := by
  induction texts with
  | nil => exact .nil
  | cons t texts ih =>
    have hrest := ih fun u hu => h u (.tail _ hu)
    exact .plain (by decide) (by decide) ((paired_append_iff (h t (.head _))).mpr hrest)

/-- What splits into pieces is paired. -/
theorem paired_of_split {path : List Char} {ps : List Piece} (h : split path = .ok ps) :
    Paired path := by
  obtain ⟨texts, hne, -, rfl, hall⟩ := split_eq_ok_iff.mp h
  obtain ⟨t, texts, rfl⟩ := List.exists_cons_of_ne_nil hne
  rw [intercalate_dot, paired_append_iff (hall t (.head _)).paired]
  exact paired_dotted fun u hu => (hall u (.tail _ hu)).paired

theorem ReadsUpTo.opens {lead : List Char} (h : ReadsUpTo lead) : Stretch.Opens lead := by
  obtain rfl | ⟨x, ss, rfl, hx⟩ := h
  · exact .inl rfl
  · obtain ⟨ps, hsplit, -⟩ := bind_eq_ok_iff.mp hx
    exact .inr ⟨x, rfl, paired_of_split hsplit⟩

/-! ## The pieces -/

theorem shows_of_ofPiece {lead text after : List Char} {fault : Fault} (hlead : ReadsUpTo lead)
    (hpass : Passes .top text .top) (hafter : after = [] ∨ ∃ y, after = '.' :: y)
    (h : Segment.ofPiece ⟨byteLength lead, text⟩ = .error fault) :
    ∃ s : Stretch, s.whole = lead ++ (text ++ after) ∧ s.span = fault.span ∧
      Shows fault.defect s ∧ FirstDefect fault.defect s := by
  have hsegment : Stretch.IsSegment ⟨lead, text, after⟩ :=
    isSegment_of_passes hlead.opens hpass (hafter.imp_right fun hy => ⟨rfl, hy⟩)
  obtain ⟨rfl, hbegins⟩ | ⟨s, head, spanned, after', rfl, hv, hspells, hends, hspan, hs⟩ :=
    stumbles_of_ofPiece hpass h
  · exact ⟨⟨lead, text, after⟩, rfl, rfl, ⟨hsegment, hbegins⟩, hlead⟩
  have hbefore := hlead.segments hv hspells
  obtain ⟨defect, span⟩ := fault
  refine ⟨⟨lead ++ head, spanned, after' ++ after⟩, by simp [Stretch.whole], ?_, ?_⟩
  · rw [Stretch.span, hspan, byteLength_append]
  cases hs with
  | @text c cs hc =>
    obtain ⟨_, hopening⟩ | ⟨ds, rfl⟩ := hends
    · exact absurd (List.cons.inj hopening).1 hc
    · refine ⟨⟨⟨lead, ds, rfl, ?_⟩, c, cs, rfl, hc⟩, hbefore⟩
      simpa using hsegment
  | @group inside _ _ hi hd =>
    obtain ⟨rfl, hempty⟩ | ⟨rfl, hrange⟩ := of_indexDefect?_eq_some hd
    · exact ⟨⟨inside, rfl, hi, hempty⟩, hbefore⟩
    · exact ⟨⟨inside, rfl, hi, hrange⟩, hbefore⟩

/-- Where the pieces of a path fail. The piece that fails comes after pieces that are segments. -/
theorem shows_of_pieces {lead : List Char} {texts : List (List Char)} {fault : Fault}
    (hlead : ReadsUpTo lead) (hall : ∀ t ∈ texts, Passes .top t .top)
    (h : (pieces (byteLength lead) texts).mapM Segment.ofPiece = .error fault) :
    ∃ s : Stretch, s.whole = lead ++ List.intercalate ['.'] texts ∧ s.span = fault.span ∧
      Shows fault.defect s ∧ FirstDefect fault.defect s := by
  induction texts generalizing lead with
  | nil => cases h
  | cons text texts ih =>
    have hpass : Passes .top text .top := hall text (.head _)
    have hrest : ∀ t ∈ texts, Passes .top t .top := fun t ht => hall t (.tail _ ht)
    rw [pieces, List.mapM_cons] at h
    obtain h | ⟨s, hs, h⟩ := bind_eq_error_iff.mp h
    · rw [intercalate_dot]
      refine shows_of_ofPiece hlead hpass ?_ h
      cases texts with
      | nil => exact .inl rfl
      | cons t texts => exact .inr ⟨_, rfl⟩
    obtain h | ⟨_, _, h⟩ := bind_eq_error_iff.mp h
    · obtain ⟨hv, hspells⟩ := (ofPiece_eq_ok_iff hpass _).mp hs
      obtain ⟨ss, hss⟩ := hlead.segments hv hspells
      have hposition : byteLength lead + byteLength text + 1 =
          byteLength (lead ++ text ++ ['.']) := by
        rw [byteLength_append, byteLength_append]
        rfl
      rw [hposition] at h
      obtain ⟨stretch, hwhole, hstretch⟩ := ih (.inr ⟨_, ss, rfl, hss⟩) hrest h
      refine ⟨stretch, ?_, hstretch⟩
      cases texts with
      | nil => cases h
      | cons t texts => rw [hwhole, List.intercalate_cons_cons]; simp
    · cases h

/-! ## Paths -/

theorem shows_of_segments {path : List Char} {fault : Fault} (h : segments path = .error fault) :
    ∃ s : Stretch, s.whole = path ∧ s.span = fault.span ∧ Shows fault.defect s ∧
      (Paired path → FirstDefect fault.defect s) := by
  obtain hsplit | ⟨ps, hsplit, hmap⟩ := bind_eq_error_iff.mp h
  · obtain ⟨s, rfl, hspan, hs, hdefect⟩ := shows_of_split hsplit
    refine ⟨s, rfl, hspan, hs, fun hpaired => ?_⟩
    obtain ⟨defect, span⟩ := fault
    obtain ⟨before, spanned, after⟩ := s
    -- The first reading fails only on a path whose brackets are not paired.
    obtain rfl | rfl := hdefect
    · obtain ⟨rfl, hbefore⟩ := hs
      exact absurd hpaired (not_paired_closing hbefore)
    · exact absurd hpaired hs.2.2
  · obtain ⟨texts, -, rfl, rfl, hall⟩ := split_eq_ok_iff.mp hsplit
    obtain ⟨s, hwhole, hspan, hs, hfirst⟩ := shows_of_pieces (.inl rfl) hall hmap
    exact ⟨s, hwhole, hspan, hs, fun _ => hfirst⟩

/-- One segment is enough for a tree. -/
theorem exists_treeOf {path : String} {ss : List Segment} (h : ss ≠ []) :
    ∃ e, treeOf path ss = .ok e := by
  obtain ⟨s, ss, rfl⟩ := List.exists_cons_of_ne_nil h
  exact ⟨_, rfl⟩

theorem treeOf_ne_error {path : String} {ss : List Segment} (h : ss ≠ []) (e : Error) :
    treeOf path ss ≠ .error e := by
  obtain ⟨tree, htree⟩ := exists_treeOf h
  rw [htree]
  exact fun he => nomatch he

/-- Every error for a path is one of its reader, or about the path as a whole. -/
theorem error_cases {path : String} {e : Error}
    (h : Draft.Attribute.ofPath path = .error e ∨ expr path = .error e ∨ moduleExpr path = .error e) :
    read path = .error e ∨ (∃ ss, read path = .ok ss) ∧
      ∃ defect, (defect = .missingDot ∨ defect = .subscriptedModule) ∧
        e = Fault.toError path ⟨defect, ⟨0, path.utf8ByteSize⟩⟩ := by
  obtain h | h | h := h
  · obtain h | ⟨_, _, h⟩ := bind_eq_error_iff.mp h
    · obtain h | ⟨ss, hread, h⟩ := bind_eq_error_iff.mp h
      · exact .inl h
      · split at h
        · cases h
          exact .inr ⟨⟨ss, hread⟩, _, .inl rfl, rfl⟩
        · exact absurd h (treeOf_ne_error (valid_of_read hread).1 e)
    · cases h
  · obtain h | ⟨ss, hread, h⟩ := bind_eq_error_iff.mp h
    · exact .inl h
    · exact absurd h (treeOf_ne_error (valid_of_read hread).1 e)
  · obtain h | ⟨ss, hread, h⟩ := bind_eq_error_iff.mp h
    · exact .inl h
    · split at h
      · cases h
        exact .inr ⟨⟨ss, hread⟩, _, .inr rfl, rfl⟩
      · exact absurd h (treeOf_ne_error (valid_of_read hread).1 e)

/-- Whichever way a path is used, its error quotes a stretch of the path that shows the defect. If
the brackets of the path are paired, an error of its reader is about the first defect. -/
theorem error_shows_defect (path : String) (e : Error)
    (h : Draft.Attribute.ofPath path = .error e ∨ expr path = .error e ∨ moduleExpr path = .error e) :
    ∃ (fault : Fault) (s : Stretch), e = fault.toError path ∧ CutsOut path fault.span ∧
      s.whole = path.toList ∧ s.span = fault.span ∧ Shows fault.defect s ∧
      (read path = .error e → Paired path.toList → FirstDefect fault.defect s) := by
  obtain h | ⟨⟨ss, hread⟩, defect, hdefect, rfl⟩ := error_cases h
  · obtain ⟨fault, hfault, rfl⟩ := mapError_eq_error_iff.mp h
    obtain ⟨s, hwhole, hspan, hs, hfirst⟩ := shows_of_segments hfault
    exact ⟨fault, s, rfl, hspan ▸ s.cutsOut hwhole, hwhole, hspan, hs, fun _ => hfirst⟩
  · have hwhole : Stretch.whole ⟨[], path.toList, []⟩ = path.toList := by
      rw [Stretch.whole, List.nil_append, List.append_nil]
    have hspan : Stretch.span ⟨[], path.toList, []⟩ = ⟨0, path.utf8ByteSize⟩ := by
      rw [Stretch.span, byteLength_toList]
      rfl
    refine ⟨_, ⟨[], path.toList, []⟩, rfl, hspan ▸ Stretch.cutsOut hwhole, hwhole, hspan, ?_, ?_⟩
    · obtain rfl | rfl := hdefect <;> exact ⟨rfl, rfl⟩
    · intro h
      rw [hread] at h
      cases h

theorem error_shows_defect_emptySubscript :
    Draft.Attribute.ofPath "é.b[ 0 ][ ]..c" =
        .error (.invalidPath "é.b[ 0 ][ ]..c" "empty subscript" ⟨9, 3⟩) ∧
      ∃ (fault : Fault) (s : Stretch),
        .invalidPath "é.b[ 0 ][ ]..c" "empty subscript" ⟨9, 3⟩ = fault.toError "é.b[ 0 ][ ]..c" ∧
          CutsOut "é.b[ 0 ][ ]..c" fault.span ∧ s.whole = "é.b[ 0 ][ ]..c".toList ∧
          s.span = fault.span ∧ Shows fault.defect s ∧
          (read "é.b[ 0 ][ ]..c" = .error (.invalidPath "é.b[ 0 ][ ]..c" "empty subscript" ⟨9, 3⟩) →
            Paired "é.b[ 0 ][ ]..c".toList → FirstDefect fault.defect s) := by
  have h : Draft.Attribute.ofPath "é.b[ 0 ][ ]..c" =
      .error (.invalidPath "é.b[ 0 ][ ]..c" "empty subscript" ⟨9, 3⟩) := by
    decide +kernel
  exact ⟨h, error_shows_defect _ _ (.inl h)⟩

end ScriptTree.Path
