import FractalShader.Proofs.Decimal.Numeral
import FractalShader.Proofs.Shader.Lines
import Mathlib.Data.List.Chain
import Mathlib.Data.List.Infix

/-
  Characters that change their meaning when they repeat.

  Two minus signs in a row take one from a variable, and two
  slashes start a comment.  A template puts names and values
  between texts of its own, and a value may start with a
  sign.  So it is enough to look at the pieces of a template
  to see that none of these characters comes together with
  itself.

  Main declarations:
    * `Lines.Parted`
    * `Lines.parted_iff_lines`
    * `Operand`
    * `Binary.operand_literal`
    * `Settings.Named`
    * `Template.Spaced`
    * `Template.parted_render`
-/

------------------------------------------------------------
-- Characters That Never Repeat
------------------------------------------------------------

namespace FractalShader

namespace Lines

/- Two characters are not both a given one. -/
def Apart (c x y : Char) : Prop :=
  ¬ (x = c ∧ y = c)

instance (c x y : Char) : Decidable (Apart c x y) := by
  unfold Apart
  infer_instance

/- A character never stands right after itself. -/
def Parted (c : Char) (text : List Char) : Prop :=
  text.IsChain (Apart c)

instance (c : Char) (text : List Char) :
    Decidable (Parted c text) := by
  unfold Parted
  infer_instance

variable {c : Char}

/- No part of the text is the character written twice. -/
theorem parted_iff
    (c : Char)
    (text : List Char) :
    Parted c text ↔ ¬ [c, c] <:+: text := by
  unfold Parted
  rw [List.isChain_iff_forall_rel_of_append_cons_cons]
  constructor
  · intro h hGiven
    rcases hGiven with ⟨before, after, hText⟩
    apply @h c c before after
    · rw [← hText]
      simp
    · exact ⟨rfl, rfl⟩
  · rintro h x y before after hText ⟨rfl, rfl⟩
    apply h
    exact ⟨before, after, by simp [hText]⟩

theorem parted_of_not_mem
    {text : List Char}
    (h : c ∉ text) :
    Parted c text := by
  rw [parted_iff]
  intro hInfix
  exact h (hInfix.subset List.mem_cons_self)

theorem parted_append_iff
    (xs ys : List Char) :
    Parted c (xs ++ ys) ↔
      Parted c xs ∧ Parted c ys ∧
        ¬ (c ∈ xs.getLast? ∧ c ∈ ys.head?) := by
  unfold Parted
  rw [List.isChain_append]
  refine and_congr_right fun _ => and_congr_right fun _ => ?_
  constructor
  · intro h hBoth
    exact h c hBoth.1 c hBoth.2 ⟨rfl, rfl⟩
  · rintro h x hx y hy ⟨rfl, rfl⟩
    exact h ⟨hx, hy⟩

theorem parted_cons_iff
    (x : Char)
    (rest : List Char) :
    Parted c (x :: rest) ↔
      Parted c rest ∧ ¬ (x = c ∧ c ∈ rest.head?) := by
  have hAppend := parted_append_iff (c := c) [x] rest
  have hSingle : Parted c [x] := List.isChain_singleton x
  simp only [List.cons_append, List.nil_append] at hAppend
  rw [hAppend]
  simp [hSingle]

theorem parted_append_iff_of_last
    {xs : List Char}
    (h : c ∉ xs.getLast?)
    (ys : List Char) :
    Parted c (xs ++ ys) ↔ Parted c xs ∧ Parted c ys := by
  rw [parted_append_iff]
  tauto

theorem parted_append_iff_of_head
    {ys : List Char}
    (h : c ∉ ys.head?)
    (xs : List Char) :
    Parted c (xs ++ ys) ↔ Parted c xs ∧ Parted c ys := by
  rw [parted_append_iff]
  tauto

/- An ordinary character ends no line. -/
theorem ne_of_isControl
    (hControl : isControl c = false) :
    '\n' ≠ c ∧ '\r' ≠ c := by
  constructor <;>
    · rintro rfl
      cases hControl

/- The first line starts as the text does. -/
theorem mem_head?_split
    (hControl : isControl c = false)
    {text line : List Char}
    {lines : List (List Char)}
    (h : split text = line :: lines) :
    c ∈ line.head? ↔ c ∈ text.head? := by
  rcases ne_of_isControl hControl with ⟨hFeed, hReturn⟩
  revert h
  fun_cases split text with
  | case1 => simp
  | case2 rest =>
      rintro ⟨⟩
      simp [hFeed]
  | case3 rest =>
      rintro ⟨⟩
      simp [hReturn]
  | case4 d rest _ _ hNil =>
      rintro ⟨⟩
      simp
  | case5 d rest _ _ first others =>
      rintro ⟨⟩
      simp

/- A character that repeats does so within one line. -/
theorem parted_iff_lines
    (hControl : isControl c = false)
    (text : List Char) :
    Parted c text ↔ ∀ line ∈ split text, Parted c line := by
  rcases ne_of_isControl hControl with ⟨hFeed, hReturn⟩
  have hEmpty : Parted c [] := List.isChain_nil
  fun_induction split text with
  | case1 => simp [hEmpty]
  | case2 rest ih =>
      simp [parted_cons_iff, hFeed, hEmpty, ih]
  | case3 rest ih =>
      simp [parted_cons_iff, hFeed, hReturn, hEmpty, ih]
  | case4 d rest _ _ hNil =>
      rw [split_eq_nil_iff] at hNil
      simp [hNil]
  | case5 d rest _ _ line lines hLines ih =>
      rw [hLines, List.forall_mem_cons] at ih
      rw [List.forall_mem_cons, parted_cons_iff,
        parted_cons_iff, mem_head?_split hControl hLines]
      tauto

theorem parted_iff_ofText
    (hControl : isControl c = false)
    (text : String) :
    Parted c text.toList ↔
      ∀ line ∈ ofText text, Parted c line.toList := by
  rw [parted_iff_lines hControl, ofText, List.forall_mem_map]
  simp only [String.toList_ofList]

/- Lines that are set off to the right repeat no more. -/
theorem parted_indented_iff
    (hControl : isControl c = false)
    (hBlank : ' ' ≠ c)
    (lines : List String) :
    Parted c
        (String.join
          (lines.map fun line => "    " ++ line ++ "\n")).toList
        ↔
      ∀ line ∈ lines, Parted c line.toList := by
  have hFeed := (ne_of_isControl hControl).1
  have hMargin : c ∉ "    ".toList := by
    simp [hBlank.symm]
  have hEnd : c ∉ "\n".toList := by
    simp [hFeed.symm]
  induction lines with
  | nil => simp [Parted]
  | cons line lines ih =>
      have hLast :
          c ∉ ("    " ++ line ++ "\n").toList.getLast? := by
        rw [String.toList_append]
        intro hMem
        exact hFeed (ended_line _ c hMem).symm
      rw [List.map_cons, String.join_cons,
        String.toList_append, parted_append_iff_of_last hLast,
        List.forall_mem_cons, String.toList_append,
        parted_append_iff_of_head fun hMem =>
          hEnd (List.mem_of_head? hMem),
        String.toList_append,
        parted_append_iff_of_last fun hMem =>
          hMargin (List.mem_of_getLast? hMem),
        and_iff_left (parted_of_not_mem hEnd),
        and_iff_right (parted_of_not_mem hMargin)]
      exact and_congr_right fun _ => ih

end Lines

end FractalShader

------------------------------------------------------------
-- Operands
------------------------------------------------------------

namespace FractalShader

open Lines

/-
  A text that can stand next to operators: a character does
  not repeat in it, does not end it, and is at most a sign
  in front of it.
-/
structure Operand
    (c : Char)
    (signed : Bool)
    (text : List Char) : Prop where
  nonempty : text ≠ []
  parted : Parted c text
  last : c ∉ text.getLast?
  head : c ∈ text.head? → signed = true

namespace Operand

variable {c : Char} {signed : Bool} {xs ys : List Char}

/- A text that does not hold the character at all. -/
theorem of_not_mem
    (hNe : xs ≠ [])
    (h : c ∉ xs)
    (signed : Bool) :
    Operand c signed xs where
  nonempty := hNe
  parted := parted_of_not_mem h
  last := fun hLast => h (List.mem_of_getLast? hLast)
  head := fun hHead => absurd (List.mem_of_head? hHead) h

/- A sign is put in front of a text without one. -/
theorem sign
    (h : Operand c false xs) :
    Operand c true (c :: xs) where
  nonempty := List.cons_ne_nil c xs
  parted :=
    (parted_cons_iff c xs).mpr
      ⟨h.parted, fun hHead => by cases h.head hHead.2⟩
  last := by
    rw [List.getLast?_cons_of_ne_nil h.nonempty]
    exact h.last
  head := fun _ => rfl

theorem append
    (hXs : Operand c signed xs)
    {other : Bool}
    (hYs : Operand c other ys) :
    Operand c signed (xs ++ ys) where
  nonempty := List.append_ne_nil_of_left_ne_nil hXs.nonempty ys
  parted :=
    (parted_append_iff xs ys).mpr
      ⟨hXs.parted, hYs.parted, fun h => hXs.last h.1⟩
  last := by
    rw [List.getLast?_append_of_ne_nil xs hYs.nonempty]
    exact hYs.last
  head := by
    rw [List.head?_append_of_ne_nil xs hXs.nonempty]
    exact hXs.head

/- A sign may be allowed where there is none. -/
theorem allow
    (h : Operand c signed xs) :
    Operand c true xs where
  nonempty := h.nonempty
  parted := h.parted
  last := h.last
  head := fun _ => rfl

end Operand

end FractalShader

------------------------------------------------------------
-- Literals
------------------------------------------------------------

namespace FractalShader

open Lines

/- The characters that change their meaning when repeated. -/
def marks : List Char := ['-', '/']

theorem mem_marks_iff
    {c : Char} :
    c ∈ marks ↔ c = '-' ∨ c = '/' := by
  simp [marks]

theorem isControl_of_mark
    {c : Char}
    (hMark : c ∈ marks) :
    isControl c = false := by
  rcases mem_marks_iff.mp hMark with rfl | rfl <;> decide

theorem blank_ne_mark
    {c : Char}
    (hMark : c ∈ marks) :
    ' ' ≠ c := by
  rcases mem_marks_iff.mp hMark with rfl | rfl <;> decide

/- Digits are none of them. -/
theorem Digit.char_ne_mark
    {c : Char}
    (hMark : c ∈ marks)
    (d : Digit) :
    c ≠ d.char := by
  revert d
  rcases mem_marks_iff.mp hMark with rfl | rfl <;> decide

/- A number is written with its digits. -/
theorem Digit.toList_toString (n : Nat) :
    (toString n).toList = Nat.toDigits 10 n := by
  simp [toString, Nat.repr]

theorem Digit.not_mem_toDigits
    {c : Char}
    (hMark : c ∈ marks)
    (n : Nat) :
    c ∉ Nat.toDigits 10 n := by
  rcases exists_spelling n with ⟨d, digits, hText, _⟩
  rw [hText, List.mem_map]
  rintro ⟨other, _, rfl⟩
  exact char_ne_mark hMark other rfl

namespace Numeral

theorem mark_not_mem_fractionChars
    {c : Char}
    (hMark : c ∈ marks)
    (fraction : List Digit) :
    c ∉ fractionChars fraction := by
  have hPoint : '.' ∉ marks := by decide
  unfold fractionChars
  split
  · exact List.not_mem_nil
  · rw [List.mem_cons, List.mem_map]
    rintro (rfl | ⟨d, _, rfl⟩)
    · exact hPoint hMark
    · exact Digit.char_ne_mark hMark d rfl

/- A numeral without its sign and its exponent. -/
def plainChars (n : Numeral) : List Char :=
  Nat.toDigits 10 n.whole ++ fractionChars n.fraction

theorem chars_eq (n : Numeral) :
    n.chars false =
      (if n.negative then ['-'] else []) ++
        (n.plainChars ++ exponentChars false n.exponent) := by
  simp [chars, plainChars, fractionChars]

theorem mark_not_mem_plainChars
    {c : Char}
    (hMark : c ∈ marks)
    (n : Numeral) :
    c ∉ n.plainChars := by
  rw [plainChars, List.mem_append, not_or]
  exact
    ⟨Digit.not_mem_toDigits hMark _,
      mark_not_mem_fractionChars hMark _⟩

theorem slash_not_mem_chars
    (n : Numeral) :
    '/' ∉ n.chars false := by
  have hMark : '/' ∈ marks := by decide
  have hPlain := mark_not_mem_plainChars hMark n
  have hDigits := Digit.not_mem_toDigits hMark
  rw [chars_eq, List.mem_append, List.mem_append]
  rintro (hSign | hText | hExponent)
  · cases hNegative : n.negative <;>
      simp [hNegative] at hSign
  · exact hPlain hText
  · revert hExponent
    rcases n.exponent with _ | e | e <;>
      simp [exponentChars, hDigits]

/- Without a sign in front only the exponent may hold one. -/
theorem operand_unsigned
    (n : Numeral) :
    Operand '-' false
      (n.plainChars ++ exponentChars false n.exponent) := by
  have hMark : '-' ∈ marks := by decide
  have hDigits :
      ∀ m, Operand '-' false (Nat.toDigits 10 m) := by
    intro m
    rcases head_toDigits m with ⟨d, rest, hText⟩
    refine .of_not_mem ?_ (Digit.not_mem_toDigits hMark m) false
    rw [hText]
    exact List.cons_ne_nil _ _
  have hPlain : Operand '-' false n.plainChars := by
    refine
      .of_not_mem ?_ (mark_not_mem_plainChars hMark n) false
    exact
      List.append_ne_nil_of_left_ne_nil
        (hDigits n.whole).nonempty _
  have hExponent : Operand '-' false ['e'] :=
    .of_not_mem (by decide) (by decide) false
  rcases n.exponent with _ | e | e
  · rw [exponentChars, List.append_nil]
    exact hPlain
  · exact hPlain.append (hExponent.append (hDigits e))
  · exact
      hPlain.append
        (hExponent.append (hDigits (e + 1)).sign)

/- The sign of a numeral is the only one in front of it. -/
theorem operand_chars
    (n : Numeral) :
    Operand '-' n.negative (n.chars false) := by
  have hUnsigned := n.operand_unsigned
  rw [chars_eq]
  cases n.negative with
  | true => exact hUnsigned.sign
  | false => exact hUnsigned

end Numeral

/- Spelling keeps the sign. -/
theorem Decimal.spell_negative
    (layout : Decimal.Layout)
    (negative : Bool)
    (d : Decimal) :
    (d.spell layout negative).negative = negative := by
  unfold spell
  split
  · unfold plain
    split <;> rfl
  · rfl

namespace Binary

/- A finite number is spelled with its sign. -/
theorem exists_numeral_of_isFinite
    {f : Format}
    (layout : Decimal.Layout)
    {negative : Bool}
    {rank : Fin (f.infinity + 1)}
    (h : (signed negative rank).isFinite = true) :
    ∃ n,
      (signed negative rank).numeral? layout = some n ∧
        n.negative = negative := by
  have hRank : rank.val ≠ f.infinity := by
    simp only [isFinite, decide_eq_true_eq] at h
    omega
  simp only [numeral?, if_neg hRank]
  split
  · exact ⟨_, rfl, rfl⟩
  · exact ⟨_, rfl, Decimal.spell_negative _ _ _⟩

/- A literal is a numeral, and has the sign of its number. -/
theorem exists_numeral
    {f : Format}
    (x : Binary f) :
    ∃ n : Numeral,
      x.literal.toList = n.chars false ∧
        (n.negative = true → ∃ rank, x = signed true rank)
      := by
  unfold literal
  split
  · rename_i hFinite
    cases x with
    | nan => cases hFinite
    | signed negative rank =>
        rcases exists_numeral_of_isFinite .shader hFinite with
          ⟨n, hText, hSign⟩
        refine ⟨n, ?_, ?_⟩
        · simp [text, hText]
        · intro hNegative
          rw [hSign] at hNegative
          exact ⟨rank, by rw [hNegative]⟩
  · exact
      ⟨⟨false, 0, [.zero], none⟩, by decide, by simp⟩

/- What a literal holds besides its sign does not repeat. -/
theorem operand_literal
    {f : Format}
    {c : Char}
    (hMark : c ∈ marks)
    (x : Binary f) :
    Operand c true x.literal.toList := by
  rcases x.exists_numeral with ⟨n, hText, _⟩
  have hSigns := n.operand_chars
  have hSlash := n.slash_not_mem_chars
  rw [hText]
  rcases mem_marks_iff.mp hMark with rfl | rfl
  · exact hSigns.allow
  · exact .of_not_mem hSigns.nonempty hSlash true

/- Only a number with a sign has a literal with a sign. -/
theorem operand_literal_unsigned
    {f : Format}
    {x : Binary f}
    (h : ∀ rank, x ≠ signed true rank) :
    Operand '-' false x.literal.toList := by
  rcases x.exists_numeral with ⟨n, hText, hSign⟩
  have hSigns := n.operand_chars
  cases hNegative : n.negative with
  | true =>
      rcases hSign hNegative with ⟨rank, hEq⟩
      exact absurd hEq (h rank)
  | false =>
      rw [hText]
      rwa [hNegative] at hSigns

end Binary

end FractalShader

------------------------------------------------------------
-- Names
------------------------------------------------------------

namespace FractalShader

open Lines

/- A text that holds no mark. -/
def Clear (text : String) : Prop :=
  ∀ c ∈ marks, c ∉ text.toList

instance (text : String) : Decidable (Clear text) :=
  List.decidableBAll (fun c => c ∉ text.toList) marks

/- Numbers of variables and cells are clear. -/
theorem clear_toString (n : Nat) : Clear (toString n) := by
  intro c hMark
  rw [Digit.toList_toString]
  exact Digit.not_mem_toDigits hMark n

/- A name is not empty and holds no mark. -/
structure Unmarked (name : String) : Prop where
  nonempty : name ≠ ""
  clear : Clear name

instance (name : String) : Decidable (Unmarked name) :=
  decidable_of_iff (name ≠ "" ∧ Clear name)
    ⟨fun h => ⟨h.1, h.2⟩, fun h => ⟨h.nonempty, h.clear⟩⟩

theorem Unmarked.operand
    {name : String}
    (h : Unmarked name)
    {c : Char}
    (hMark : c ∈ marks)
    (signed : Bool) :
    Operand c signed name.toList := by
  refine .of_not_mem ?_ (h.clear c hMark) signed
  simpa using h.nonempty

theorem Unmarked.append
    {name other : String}
    (hName : Unmarked name)
    (hOther : Clear other) :
    Unmarked (name ++ other) where
  nonempty := by simp [hName.nonempty]
  clear := by
    intro c hMark
    rw [String.toList_append, List.mem_append, not_or]
    exact ⟨hName.clear c hMark, hOther c hMark⟩

/- The names of variables and uniforms hold no marks. -/
structure Settings.Named (settings : Settings) : Prop where
  stateVar : Unmarked settings.stateVar
  iterationVar : Unmarked settings.iterationVar
  paramArray : Unmarked settings.paramArray
  slotStem : Unmarked settings.slotStem

/- Neither do the names that stand for want of others. -/
theorem Settings.named_default
    (mode : Mode)
    (inline : Bool) :
    Named { mode := mode, inlineLiterals := inline } := by
  have hState : Unmarked "z" := by decide
  have hIteration : Unmarked "i" := by decide
  have hArray : Unmarked "uNodeParams" := by decide
  have hStem : Unmarked "uParam" := by decide
  exact ⟨hState, hIteration, hArray, hStem⟩

variable {settings : Settings}

theorem Var.unmarked_text
    (h : settings.Named)
    (var : Var) :
    Unmarked (var.text settings) := by
  cases var with
  | state => exact h.stateVar
  | stage index =>
      have hStem : Unmarked "v" := by decide
      exact hStem.append (clear_toString index)

theorem Reference.unmarked_slot
    (h : settings.Named)
    (slot : Slot) :
    Unmarked ((Reference.slot slot).text settings) := by
  have hLetter : slot.letter ∉ marks := by
    cases slot <;> decide
  constructor
  · simp [Reference.text, Slot.uniform]
  · intro c hMark
    simp only [Reference.text, Slot.uniform,
      String.toList_push, List.mem_append, List.mem_singleton,
      not_or]
    refine ⟨h.slotStem.clear c hMark, ?_⟩
    rintro rfl
    exact hLetter hMark

theorem Reference.unmarked_cell
    (h : settings.Named)
    (index : Nat) :
    Unmarked ((Reference.cell index).text settings) := by
  have hOpen : Clear "[" := by decide
  have hClose : Clear "]" := by decide
  exact
    ((h.paramArray.append hOpen).append
      (clear_toString index)).append hClose

/- Only a literal may have a sign. -/
theorem Reference.operand_text
    (h : settings.Named)
    {c : Char}
    (hMark : c ∈ marks)
    (reference : Reference) :
    Operand c true (reference.text settings).toList := by
  cases reference with
  | literal value => exact Binary.operand_literal hMark value
  | cell index =>
      exact (unmarked_cell h index).operand hMark true
  | slot slot =>
      exact (unmarked_slot h slot).operand hMark true

end FractalShader

------------------------------------------------------------
-- Templates
------------------------------------------------------------

namespace FractalShader

open Lines

/- What a scope puts into a template are operands. -/
structure Scope.Fills
    (c : Char)
    (signed : Bool)
    (scope : Scope) : Prop where
  output : Operand c false scope.output.toList
  inputA : Operand c false scope.inputA.toList
  inputB : Operand c false scope.inputB.toList
  param :
    ∀ input, Operand c signed (scope.param input).toList

namespace Piece

/- A fixed text has characters, and none of them repeats. -/
def plain (c : Char) : Piece → Bool
  | .text s => s != "" && decide (Parted c s.toList)
  | _ => true

/- A fixed text ends with a character. -/
def ends (c : Char) : Piece → Bool
  | .text s => s.toList.getLast? == some c
  | _ => false

/- A piece may start with a character. -/
def starts
    (c : Char)
    (signed : Bool) : Piece → Bool
  | .text s => s.toList.head? == some c
  | .param _ => signed
  | _ => false

variable {c : Char} {signed : Bool} {scope : Scope}

/- What a rendered piece may bring together with others. -/
structure Renders
    (c : Char)
    (signed : Bool)
    (piece : Piece)
    (text : List Char) : Prop where
  nonempty : text ≠ []
  parted : Parted c text
  ends : c ∈ text.getLast? → piece.ends c = true
  starts : c ∈ text.head? → piece.starts c signed = true

/- An operand is put into a template without further ado. -/
theorem renders_of_operand
    {piece : Piece}
    {text : List Char}
    {allowed : Bool}
    (h : Operand c allowed text)
    (hStarts :
      allowed = true → piece.starts c signed = true) :
    piece.Renders c signed text where
  nonempty := h.nonempty
  parted := h.parted
  ends := fun hLast => absurd hLast h.last
  starts := fun hHead => hStarts (h.head hHead)

theorem renders
    (hScope : scope.Fills c signed)
    {piece : Piece}
    (hPlain : piece.plain c = true) :
    piece.Renders c signed (piece.render scope).toList := by
  cases piece with
  | text s =>
      simp only [plain, Bool.and_eq_true, bne_iff_ne, ne_eq,
        decide_eq_true_eq] at hPlain
      constructor
      · simpa [render] using hPlain.1
      · exact hPlain.2
      · intro hLast
        simpa [Piece.ends, render] using hLast
      · intro hHead
        simpa [Piece.starts, render] using hHead
  | output =>
      exact renders_of_operand hScope.output (by simp)
  | inputA =>
      exact renders_of_operand hScope.inputA (by simp)
  | inputB =>
      exact renders_of_operand hScope.inputB (by simp)
  | param input =>
      exact renders_of_operand (hScope.param input) id

end Piece

namespace Template

/-
  No two pieces of a template bring a character together.
-/
def Spaced
    (c : Char)
    (signed : Bool)
    (template : Template) : Prop :=
  (∀ piece ∈ template, piece.plain c = true) ∧
    template.IsChain fun x y =>
      ¬ (x.ends c = true ∧ y.starts c signed = true)

instance
    (c : Char)
    (signed : Bool)
    (template : Template) :
    Decidable (template.Spaced c signed) := by
  unfold Spaced
  infer_instance

/- The character does not repeat in what is rendered. -/
theorem parted_render
    {c : Char}
    {signed : Bool}
    {template : Template}
    (hTemplate : template.Spaced c signed)
    {scope : Scope}
    (hScope : scope.Fills c signed) :
    Parted c (template.render scope).toList := by
  rcases hTemplate with ⟨hPlain, hSpaced⟩
  have hText :
      (template.render scope).toList =
        (template.map fun piece =>
          (piece.render scope).toList).flatten := by
    rw [render, String.toList_join, List.flatMap_map,
      List.flatMap_def]
  have hRenders :=
    fun piece hPiece =>
      Piece.renders hScope (hPlain piece hPiece)
  rw [hText, Parted, List.isChain_flatten]
  · constructor
    · intro text hMem
      rcases List.mem_map.mp hMem with ⟨piece, hPiece, rfl⟩
      exact (hRenders piece hPiece).parted
    · rw [List.isChain_map]
      apply hSpaced.imp_of_mem_imp
      rintro x y hx hy hApart _ hLast _ hHead ⟨rfl, rfl⟩
      exact
        hApart
          ⟨(hRenders x hx).ends hLast,
            (hRenders y hy).starts hHead⟩
  · intro hMem
    rcases List.mem_map.mp hMem with ⟨piece, hPiece, hNil⟩
    exact (hRenders piece hPiece).nonempty hNil

end Template

end FractalShader
