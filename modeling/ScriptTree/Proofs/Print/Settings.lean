import ScriptTree.Print.Options
import ScriptTree.Proofs.Text.Counts

/-!
# Settings of the environment

Two texts of the environment may each replace one of the print options. What such a text holds is
said without a reader: without the blanks at its ends it is the text of a count, or the name of a
style but for the case of its ASCII letters. The options follow the settings: an option is what its
setting holds, and a setting that is missing or holds nothing leaves its option alone.
-/
namespace ScriptTree

open Text (Blanks Trimmed Digits SpellsCount)

/-- What is left of the text of a setting without the blanks at its ends. -/
def TrimsTo (text : String) (cs : List Char) : Prop :=
  Trimmed cs ∧ ∃ pre post, Blanks pre ∧ Blanks post ∧ text.toList = pre ++ (cs ++ post)

theorem trimsTo_iff {text : String} {cs : List Char} :
    TrimsTo text cs ↔ Text.trim text.toList = cs := Text.trim_eq_iff.symm

/-- A setting that is a count. -/
def HoldsCount (text : String) (n : Nat) : Prop := ∃ cs, TrimsTo text cs ∧ SpellsCount cs n

/-- A setting that is the name of a style, in whatever case. -/
def HoldsStyle (text : String) (q : QuoteStyle) : Prop :=
  ∃ cs, TrimsTo text cs ∧ cs.map Char.toLower = q.name.toList

/-! ## What the readers of settings accept -/

theorem readCount?_trim_eq_some_iff (text : String) (n : Nat) :
    Text.readCount? (Text.trim text.toList) = some n ↔ HoldsCount text n := by
  simp only [HoldsCount, trimsTo_iff, exists_eq_left', Text.readCount?_eq_some_iff]

namespace QuoteStyle

theorem ofName?_eq_some_iff {name : String} {q : QuoteStyle} :
    ofName? name = some q ↔ name = q.name := by
  constructor
  · intro h
    rw [ofName?] at h
    split at h
    · next hdouble => cases h; exact hdouble
    split at h
    · next hsingle => cases h; exact hsingle
    · cases h
  · rintro rfl
    cases q <;> rfl

theorem parse?_eq_some_iff (text : String) (q : QuoteStyle) :
    parse? text = some q ↔ HoldsStyle text q := by
  simp only [parse?, HoldsStyle, trimsTo_iff, exists_eq_left', ofName?_eq_some_iff,
    ← String.toList_inj, String.toList_ofList]

end QuoteStyle

namespace PrintOptions

/-- A setting that can be read takes the place of a default, and every other one leaves it. -/
theorem getD_bind_eq_iff {α : Type} {read : String → Option α} {Holds : String → α → Prop}
    (hread : ∀ text a, read text = some a ↔ Holds text a) (setting : Option String) (default a : α) :
    (setting.bind read).getD default = a ↔
      (∃ text ∈ setting, Holds text a) ∨
        (a = default ∧ ∀ text ∈ setting, ∀ b, ¬ Holds text b) := by
  cases setting with
  | none => simp [eq_comm]
  | some text =>
    simp only [Option.bind_some, Option.mem_some_iff, exists_eq_left', forall_eq', ← hread]
    cases read text with
    | none => simp [eq_comm]
    | some b => simp

theorem overlayIndent_eq_iff (size : Nat) (setting : Option String) (n : Nat) :
    overlayIndent size setting = n ↔
      (∃ text ∈ setting, HoldsCount text n) ∨
        (n = size ∧ ∀ text ∈ setting, ∀ m, ¬ HoldsCount text m) :=
  getD_bind_eq_iff readCount?_trim_eq_some_iff setting size n

theorem overlayQuote_eq_iff (style : QuoteStyle) (setting : Option String) (q : QuoteStyle) :
    overlayQuote style setting = q ↔
      (∃ text ∈ setting, HoldsStyle text q) ∨
        (q = style ∧ ∀ text ∈ setting, ∀ r, ¬ HoldsStyle text r) :=
  getD_bind_eq_iff QuoteStyle.parse?_eq_some_iff setting style q

/-! ## Written counts -/

/-- However a count is written, with blanks around it, zeros in front of it and a plus sign before
them, it is held. -/
theorem holdsCount_decimal {n : Nat} (hn : n < 2 ^ 64) {pre sign zeros post : List Char}
    (hpre : Blanks pre) (hpost : Blanks post) (hsign : sign = [] ∨ sign = ['+'])
    (hzeros : ∀ c ∈ zeros, c = '0') :
    HoldsCount (String.ofList (pre ++ (sign ++ (zeros ++ Text.decimal n) ++ post))) n := by
  have hdecimal : Text.decimal n = Nat.toDigits 10 n := by
    rw [Text.decimal, if_neg (by omega), Int.natAbs_natCast]
  have hdigits : Digits (zeros ++ Text.decimal n) := by
    obtain ⟨hne, hall⟩ := Text.digits_toDigits n
    rw [hdecimal]
    refine ⟨List.append_ne_nil_of_right_ne_nil _ hne, List.forall_mem_append.mpr ⟨?_, hall⟩⟩
    intro c hc
    rw [hzeros c hc]
    rfl
  have hvalue : Text.placeValue (zeros ++ Text.decimal n) = n := by
    rw [Text.placeValue_zeros hzeros, hdecimal, Text.placeValue_toDigits]
  have hspelled : SpellsCount (sign ++ (zeros ++ Text.decimal n)) n := by
    have hfits : Text.placeValue (zeros ++ Text.decimal n) < 2 ^ 64 := by rwa [hvalue]
    rcases hsign with rfl | rfl
    · have h := SpellsCount.bare hdigits hfits
      rwa [hvalue] at h
    · have h := SpellsCount.signed hdigits hfits
      rwa [hvalue] at h
  exact ⟨_, ⟨hspelled.trimmed, pre, post, hpre, hpost, String.toList_ofList⟩, hspelled⟩

/-! ## The options -/

/-- The options of the environment are what the settings hold and the defaults where they hold
nothing. Neither setting has a say in the option of the other, and every count can be set. -/
theorem overlay_follows_settings (indent quote : Option String) :
    (∀ n, (overlay {} indent quote).indentSize = n ↔
      (∃ text ∈ indent, HoldsCount text n) ∨
        (n = 4 ∧ ∀ text ∈ indent, ∀ m, ¬ HoldsCount text m)) ∧
    (∀ q, (overlay {} indent quote).quote = q ↔
      (∃ text ∈ quote, HoldsStyle text q) ∨
        (q = .double ∧ ∀ text ∈ quote, ∀ r, ¬ HoldsStyle text r)) ∧
    (∀ other, (overlay {} indent other).indentSize = (overlay {} indent quote).indentSize) ∧
    (∀ other, (overlay {} other quote).quote = (overlay {} indent quote).quote) ∧
    ∀ (n : Nat) (pre sign zeros post : List Char), n < 2 ^ 64 → Blanks pre → Blanks post →
      (sign = [] ∨ sign = ['+']) → (∀ c ∈ zeros, c = '0') →
      (overlay {} (some (String.ofList (pre ++ (sign ++ (zeros ++ Text.decimal n) ++ post))))
        quote).indentSize = n := by
  refine ⟨overlayIndent_eq_iff 4 indent, overlayQuote_eq_iff .double quote, fun _ => rfl,
    fun _ => rfl, ?_⟩
  intro n pre sign zeros post hn hpre hpost hsign hzeros
  have hholds := holdsCount_decimal hn hpre hpost hsign hzeros
  exact (overlayIndent_eq_iff 4 _ n).mpr (.inl ⟨_, rfl, hholds⟩)

/-- The largest count with all that may stand around it, and the number after it. -/
theorem overlay_follows_settings_largest :
    18446744073709551615 < 2 ^ 64 ∧ Blanks ['\u3000'] ∧ Blanks ['\n'] ∧
      HoldsStyle " sInGlE\t" .single ∧
      overlay {} (some "\u3000+0018446744073709551615\n") (some " sInGlE\t") =
        ⟨18446744073709551615, .single⟩ ∧
      overlay {} (some "18446744073709551616") (some "singl") = ⟨4, .double⟩ := by
  have hwide : Blanks ['\u3000'] := List.forall_mem_singleton.mpr (by decide)
  have hbreak : Blanks ['\n'] := List.forall_mem_singleton.mpr (by decide)
  have hstyle : HoldsStyle " sInGlE\t" .single :=
    ⟨"sInGlE".toList, trimsTo_iff.mpr (by decide +kernel), by decide⟩
  obtain ⟨-, hquote, -, -, hcount⟩ := overlay_follows_settings
    (some "\u3000+0018446744073709551615\n") (some " sInGlE\t")
  have hzeros : ∀ c ∈ ['0', '0'], c = '0' :=
    List.forall_mem_cons.mpr ⟨rfl, List.forall_mem_singleton.mpr rfl⟩
  have hindent := hcount 18446744073709551615 ['\u3000'] ['+'] ['0', '0'] ['\n'] (by decide) hwide
    hbreak (.inr rfl) hzeros
  have hsingle := (hquote .single).mpr (.inl ⟨_, rfl, hstyle⟩)
  exact ⟨by decide, hwide, hbreak, hstyle, congrArg₂ PrintOptions.mk hindent hsingle,
    by decide +kernel⟩

end PrintOptions

end ScriptTree
