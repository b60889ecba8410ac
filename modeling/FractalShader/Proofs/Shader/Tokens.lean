import FractalShader.Proofs.Shader.Marks
import Mathlib.Data.List.SplitBy

/-
  The words of shader text.

  A text is cut into words and other characters, and blanks
  are left out.  A cut between two parts of a text loses
  nothing unless a word runs across it, so the words of a
  text are those of its lines, and those of a template are
  the words of its pieces.

  Main declarations:
    * `Lines.tokens`
    * `Lines.tokens_append`
    * `Lines.Word`
    * `Lines.tokens_weave`
    * `Lines.tokens_ofText`
    * `Template.Loose`
    * `Template.tokens_render`
-/

------------------------------------------------------------
-- Tokens
------------------------------------------------------------

namespace FractalShader

namespace Lines

/- A character of a name or of a number. -/
def isLetter (c : Char) : Bool :=
  c.isAlphanum || c == '_'

/- A blank or the end of a line. -/
def isBlank (c : Char) : Bool :=
  c == ' ' || c == '\n'

/- Neighbours that belong to one word. -/
def joins (x y : Char) : Bool :=
  isLetter x && isLetter y

/-
  The words of a text and its other characters in order,
  blanks left out.
-/
def tokens (text : List Char) : List (List Char) :=
  (text.splitBy joins).filter fun token =>
    !token.any isBlank

theorem tokens_nil : tokens [] = [] := rfl

/-
  The tokens of two texts are those of the text that they
  make, unless a word runs from one into the other.
-/
theorem tokens_append
    {xs ys : List Char}
    (h : ∀ x ∈ xs.getLast?, ∀ y ∈ ys.head?,
      joins x y = false) :
    tokens (xs ++ ys) = tokens xs ++ tokens ys := by
  rw [tokens, List.splitBy_append h, List.filter_append]
  rfl

theorem tokens_append_of_last
    {xs : List Char}
    (h : ∀ x ∈ xs.getLast?, isLetter x = false)
    (ys : List Char) :
    tokens (xs ++ ys) = tokens xs ++ tokens ys := by
  apply tokens_append
  intro x hx y _
  simp [joins, h x hx]

theorem tokens_append_of_head
    {ys : List Char}
    (h : ∀ y ∈ ys.head?, isLetter y = false)
    (xs : List Char) :
    tokens (xs ++ ys) = tokens xs ++ tokens ys := by
  apply tokens_append
  intro x _ y hy
  simp [joins, h y hy]

/- No word goes on behind the end of a line. -/
theorem tokens_append_of_ended
    {xs : List Char}
    (h : Ended xs)
    (ys : List Char) :
    tokens (xs ++ ys) = tokens xs ++ tokens ys := by
  apply tokens_append_of_last
  intro c hc
  rw [h c hc]
  rfl

/- The end of a line is no token. -/
theorem tokens_ended (line : List Char) :
    tokens (line ++ ['\n']) = tokens line := by
  have hBlank : tokens ['\n'] = [] := by decide
  rw [tokens_append_of_head (by simp [isLetter]), hBlank,
    List.append_nil]

theorem tokens_line (line : String) :
    tokens (line ++ "\n").toList = tokens line.toList := by
  rw [String.toList_append]
  exact tokens_ended line.toList

/- Tokens are parts of the text. -/
theorem mem_of_mem_tokens
    {text token : List Char}
    {c : Char}
    (hToken : token ∈ tokens text)
    (hMem : c ∈ token) :
    c ∈ text := by
  have hGroup := (List.mem_filter.mp hToken).1
  rw [← List.flatten_splitBy joins text]
  exact List.mem_flatten.mpr ⟨token, hGroup, hMem⟩

end Lines

end FractalShader

------------------------------------------------------------
-- Words
------------------------------------------------------------

namespace FractalShader

namespace Lines

/- A text of letters only, and not without any. -/
structure Word (text : List Char) : Prop where
  nonempty : text ≠ []
  letters : ∀ c ∈ text, isLetter c = true

instance (text : List Char) : Decidable (Word text) :=
  have : Decidable (∀ c ∈ text, isLetter c = true) :=
    List.decidableBAll (fun c => isLetter c = true) text
  decidable_of_iff
    (text ≠ [] ∧ ∀ c ∈ text, isLetter c = true)
    ⟨fun h => ⟨h.1, h.2⟩, fun h => ⟨h.nonempty, h.letters⟩⟩

/- Letters are no blanks. -/
theorem isBlank_of_isLetter
    {c : Char}
    (h : isLetter c = true) :
    isBlank c = false := by
  unfold isBlank
  rw [Bool.or_eq_false_iff, beq_eq_false_iff_ne,
    beq_eq_false_iff_ne]
  constructor <;>
    · rintro rfl
      revert h
      decide

theorem tokens_word
    {text : List Char}
    (h : Word text) :
    tokens text = [text] := by
  have hChain : text.IsChain fun x y => joins x y = true := by
    apply List.Pairwise.isChain
    apply List.pairwise_of_forall_mem_list
    intro x hx y hy
    simp [joins, h.letters x hx, h.letters y hy]
  have hSolid : text.any isBlank = false := by
    rw [List.any_eq_false]
    intro c hc
    simp [isBlank_of_isLetter (h.letters c hc)]
  rw [tokens, List.splitBy_of_isChain h.nonempty hChain]
  simp [hSolid]

/- A word between texts that end and start without one. -/
theorem tokens_weave
    {text word rest : String}
    (hText : ∀ c ∈ text.toList.getLast?, isLetter c = false)
    (hWord : Word word.toList)
    (hRest : ∀ c ∈ rest.toList.head?, isLetter c = false) :
    tokens (text ++ (word ++ rest)).toList =
      tokens text.toList ++
        word.toList :: tokens rest.toList := by
  rw [String.toList_append, tokens_append_of_last hText,
    String.toList_append, tokens_append_of_head hRest,
    tokens_word hWord]
  rfl

theorem Word.append
    {xs ys : List Char}
    (hXs : Word xs)
    (hYs : ∀ c ∈ ys, isLetter c = true) :
    Word (xs ++ ys) where
  nonempty := List.append_ne_nil_of_left_ne_nil hXs.nonempty ys
  letters := by
    intro c hc
    rw [List.mem_append] at hc
    exact hc.elim (hXs.letters c) (hYs c)

/- A digit is a letter of a word. -/
theorem isLetter_digit (d : Digit) :
    isLetter d.char = true := by
  revert d
  decide

/- A number is written as a word. -/
theorem word_toString (n : Nat) :
    Word (toString n).toList := by
  rcases Digit.exists_spelling n with ⟨d, digits, hDigits, _⟩
  rw [Digit.toList_toString, hDigits]
  refine ⟨List.cons_ne_nil _ _, fun c hc => ?_⟩
  rcases List.mem_map.mp hc with ⟨digit, _, rfl⟩
  exact isLetter_digit digit

end Lines

end FractalShader

------------------------------------------------------------
-- Lines
------------------------------------------------------------

namespace FractalShader

namespace Lines

/- A text whose only control characters end lines. -/
def Printed (text : List Char) : Prop :=
  ∀ c ∈ text, c = '\n' ∨ isControl c = false

instance (text : List Char) : Decidable (Printed text) :=
  List.decidableBAll
    (fun c => c = '\n' ∨ isControl c = false) text

theorem Printed.append
    {xs ys : List Char}
    (hXs : Printed xs)
    (hYs : Printed ys) :
    Printed (xs ++ ys) := by
  intro c hc
  rw [List.mem_append] at hc
  exact hc.elim (hXs c) (hYs c)

theorem Quiet.printed
    {text : String}
    (h : Quiet text) :
    Printed text.toList :=
  fun c hc => Or.inr (h c hc)

/- Words hold no control characters. -/
theorem Word.quiet
    {text : String}
    (h : Word text.toList) :
    Quiet text := by
  intro c hc
  have hLetter := h.letters c hc
  have hRanges :
      isLetter c =
        ((decide (c.val ≥ 'A'.val ∧ c.val ≤ 'Z'.val) ||
            decide (c.val ≥ 'a'.val) &&
              decide (c.val ≤ 'z'.val)) ||
          decide (c.val ≥ '0'.val) &&
            decide (c.val ≤ '9'.val) ||
          c == '_') :=
    rfl
  simp only [hRanges, Bool.or_eq_true, Bool.and_eq_true,
    decide_eq_true_eq, beq_iff_eq, ge_iff_le,
    UInt32.le_iff_toNat_le] at hLetter
  change
    (((65 ≤ c.toNat ∧ c.toNat ≤ 90) ∨
          (97 ≤ c.toNat ∧ c.toNat ≤ 122)) ∨
        (48 ≤ c.toNat ∧ c.toNat ≤ 57)) ∨ c = '_' at hLetter
  rcases hLetter with hName | rfl
  · simp only [isControl, Bool.or_eq_false_iff,
      Bool.and_eq_false_iff, decide_eq_false_iff_not]
    omega
  · decide

/- The lines of a text hold its other characters. -/
theorem mem_of_mem_split
    {text line : List Char}
    {c : Char}
    (hLine : line ∈ split text)
    (hMem : c ∈ line) :
    c ∈ text ∧ c ≠ '\n' := by
  fun_induction split text generalizing line with
  | case1 => cases hLine
  | case2 rest ih =>
      rcases List.mem_cons.mp hLine with rfl | hLater
      · cases hMem
      · exact (ih hLater hMem).imp_left (List.mem_cons_of_mem _)
  | case3 rest ih =>
      rcases List.mem_cons.mp hLine with rfl | hLater
      · cases hMem
      · refine (ih hLater hMem).imp_left fun hRest => ?_
        exact List.mem_cons_of_mem _ (List.mem_cons_of_mem _ hRest)
  | case4 d rest hEnd hReturn hNil =>
      rw [List.mem_singleton] at hLine
      subst hLine
      rw [List.mem_singleton] at hMem
      subst hMem
      exact ⟨List.mem_cons_self, hEnd⟩
  | case5 d rest hEnd hReturn first others hLines ih =>
      rw [hLines] at ih
      rcases List.mem_cons.mp hLine with rfl | hLater
      · rcases List.mem_cons.mp hMem with rfl | hFirst
        · exact ⟨List.mem_cons_self, hEnd⟩
        · exact
            (ih List.mem_cons_self hFirst).imp_left
              (List.mem_cons_of_mem _)
      · exact
          (ih (List.mem_cons_of_mem _ hLater) hMem).imp_left
            (List.mem_cons_of_mem _)

/- The lines of a printed text and their ends make it. -/
theorem join_split
    {text : List Char}
    (hPrinted : Printed text)
    (hEnded : Ended text) :
    (split text).flatMap (fun line => line ++ ['\n']) =
      text := by
  fun_induction split text with
  | case1 => rfl
  | case2 rest ih =>
      have hRest : Printed rest :=
        fun c hc => hPrinted c (List.mem_cons_of_mem _ hc)
      rw [List.flatMap_cons, ih hRest hEnded.tail]
      rfl
  | case3 rest ih =>
      -- A carriage return is a control character.
      rcases hPrinted '\r' List.mem_cons_self with hEq | hEq <;>
        cases hEq
  | case4 c rest hEnd hReturn hNil =>
      rw [split_eq_nil_iff] at hNil
      subst hNil
      cases hEnd (hEnded c rfl)
  | case5 c rest hEnd hReturn line lines hLines ih =>
      have hRest : Printed rest :=
        fun d hd => hPrinted d (List.mem_cons_of_mem _ hd)
      have hJoin := ih hRest hEnded.tail
      rw [hLines, List.flatMap_cons] at hJoin
      rw [List.flatMap_cons, List.cons_append,
        List.cons_append, hJoin]

/- The tokens of a text are those of its lines. -/
theorem tokens_ofText
    {text : String}
    (hPrinted : Printed text.toList)
    (hEnded : Ended text.toList) :
    (ofText text).flatMap (fun line => tokens line.toList) =
      tokens text.toList := by
  have hLines :
      ∀ lines : List (List Char),
        tokens (lines.flatMap fun line => line ++ ['\n']) =
          lines.flatMap tokens := by
    intro lines
    induction lines with
    | nil => rfl
    | cons line lines ih =>
        rw [List.flatMap_cons, List.flatMap_cons,
          tokens_append_of_ended (ended_line line),
          tokens_ended, ih]
  rw [ofText, List.flatMap_map]
  simp only [String.toList_ofList]
  rw [← hLines, join_split hPrinted hEnded]

end Lines

end FractalShader

------------------------------------------------------------
-- Templates
------------------------------------------------------------

namespace FractalShader

open Lines

/-
  What a scope puts into a template: names of variables, and
  references within a line.
-/
structure Scope.Worded (scope : Scope) : Prop where
  output : Word scope.output.toList
  inputA : Word scope.inputA.toList
  inputB : Word scope.inputB.toList
  nonempty : ∀ input, scope.param input ≠ ""
  quiet : ∀ input, Quiet (scope.param input)

namespace Piece

/- A fixed text has characters, and stays on its lines. -/
def legible : Piece → Bool
  | .text s => s != "" && decide (Printed s.toList)
  | _ => true

/- A piece may start with a letter. -/
def opens : Piece → Bool
  | .text s => s.toList.head?.any isLetter
  | _ => true

/- A piece may end with a letter. -/
def closes : Piece → Bool
  | .text s => s.toList.getLast?.any isLetter
  | _ => true

variable {scope : Scope} {piece : Piece}

theorem render_ne_nil
    (hScope : scope.Worded)
    (hPiece : piece.legible = true) :
    (piece.render scope).toList ≠ [] := by
  cases piece with
  | text s =>
      simp only [legible, Bool.and_eq_true, bne_iff_ne]
        at hPiece
      simpa [render] using hPiece.1
  | output => exact hScope.output.nonempty
  | inputA => exact hScope.inputA.nonempty
  | inputB => exact hScope.inputB.nonempty
  | param input => simpa [render] using hScope.nonempty input

theorem printed_render
    (hScope : scope.Worded)
    (hPiece : piece.legible = true) :
    Printed (piece.render scope).toList := by
  cases piece with
  | text s =>
      simp only [legible, Bool.and_eq_true, decide_eq_true_eq]
        at hPiece
      exact hPiece.2
  | output => exact hScope.output.quiet.printed
  | inputA => exact hScope.inputA.quiet.printed
  | inputB => exact hScope.inputB.quiet.printed
  | param input => exact (hScope.quiet input).printed

/- No word runs on behind a piece that cannot end with one. -/
theorem isLetter_last
    (hCloses : piece.closes = false) :
    ∀ c ∈ (piece.render scope).toList.getLast?,
      isLetter c = false := by
  intro c hc
  cases piece with
  | text s =>
      rw [render] at hc
      rw [closes, Option.mem_def.mp hc] at hCloses
      exact hCloses
  | output => cases hCloses
  | inputA => cases hCloses
  | inputB => cases hCloses
  | param input => cases hCloses

theorem isLetter_head
    (hOpens : piece.opens = false) :
    ∀ c ∈ (piece.render scope).toList.head?,
      isLetter c = false := by
  intro c hc
  cases piece with
  | text s =>
      rw [render] at hc
      rw [opens, Option.mem_def.mp hc] at hOpens
      exact hOpens
  | output => cases hOpens
  | inputA => cases hOpens
  | inputB => cases hOpens
  | param input => cases hOpens

end Piece

namespace Template

/- No word runs from one piece of a template into another. -/
def Loose (template : Template) : Prop :=
  (∀ piece ∈ template, piece.legible = true) ∧
    template.IsChain fun x y =>
      ¬ (x.closes = true ∧ y.opens = true)

instance (template : Template) : Decidable template.Loose := by
  unfold Loose
  infer_instance

variable {template : Template} {scope : Scope}

theorem render_cons
    (piece : Piece)
    (template : Template)
    (scope : Scope) :
    (render (piece :: template) scope).toList =
      (piece.render scope).toList ++
        (template.render scope).toList := by
  rw [render, List.map_cons, String.join_cons,
    String.toList_append]
  rfl

/- The tokens of a template are those of its pieces. -/
theorem tokens_render
    (hLoose : template.Loose)
    (hScope : scope.Worded) :
    tokens (template.render scope).toList =
      template.flatMap fun piece =>
        tokens (piece.render scope).toList := by
  rcases hLoose with ⟨hLegible, hChain⟩
  induction template with
  | nil => rfl
  | cons piece template ih =>
      rw [List.forall_mem_cons] at hLegible
      rw [List.isChain_cons] at hChain
      rw [render_cons, List.flatMap_cons,
        ← ih hLegible.2 hChain.2]
      cases template with
      | nil => simp [render, tokens_nil]
      | cons next template =>
          have hNext := hChain.1 next rfl
          have hNonempty :=
            next.render_ne_nil hScope
              (hLegible.2 next List.mem_cons_self)
          have hHead :
              (render (next :: template) scope).toList.head? =
                (next.render scope).toList.head? := by
            rw [render_cons,
              List.head?_append_of_ne_nil _ hNonempty]
          cases hCloses : piece.closes with
          | false =>
              exact
                tokens_append_of_last
                  (Piece.isLetter_last hCloses) _
          | true =>
              have hOpens : next.opens = false := by
                simpa [hCloses] using hNext
              apply tokens_append_of_head
              rw [hHead]
              exact Piece.isLetter_head hOpens

/- What is rendered stays on its lines. -/
theorem printed_render
    (hLoose : template.Loose)
    (hScope : scope.Worded) :
    Printed (template.render scope).toList := by
  have hLegible := hLoose.1
  clear hLoose
  induction template with
  | nil => exact fun c hc => absurd hc List.not_mem_nil
  | cons piece template ih =>
      rw [List.forall_mem_cons] at hLegible
      rw [render_cons]
      exact
        (piece.printed_render hScope hLegible.1).append
          (ih hLegible.2)

end Template

namespace BuiltIn

/- The templates of the built-in kinds under their ids. -/
def templates : List (String × Template) :=
  [ ("box_fold", boxFold), ("sphere_fold", sphereFold)
  , ("abs_fold", absFold), ("menger_fold", mengerFold)
  , ("rotate", rotate), ("scale", scale)
  , ("translate", translate), ("mandelbulb", mandelbulb)
  , ("menger_scale", mengerScale), ("union", choose "<")
  , ("intersect", choose ">"), ("blend", blend) ]

/- The statements of every built-in kind are a template. -/
theorem exists_template :
    ∀ kind ∈ kinds, ∃ template,
      (kind.id, template) ∈ templates ∧
        kind.body = template.render := by
  intro kind hKind
  simp only [kinds, folds, transforms, fractals, combiners,
    List.cons_append, List.nil_append, List.mem_cons,
    List.not_mem_nil, or_false] at hKind
  rcases hKind with rfl | rfl | rfl | rfl | rfl | rfl | rfl |
    rfl | rfl | rfl | rfl | rfl
  all_goals exact ⟨_, by simp [templates], rfl⟩

theorem loose_templates :
    ∀ entry ∈ templates, entry.2.Loose := by
  decide +kernel

end BuiltIn

end FractalShader

------------------------------------------------------------
-- Numerals
------------------------------------------------------------

namespace FractalShader

open Lines

/- The characters that numerals are made of. -/
def Numeral.Spells (c : Char) : Prop :=
  (∃ d : Digit, d.char = c) ∨ c = '-' ∨ c = '.' ∨ c = 'e'

theorem Digit.spells_of_mem_toDigits
    {n : Nat}
    {c : Char}
    (h : c ∈ Nat.toDigits 10 n) :
    Numeral.Spells c := by
  rcases exists_spelling n with ⟨d, digits, hText, _⟩
  rw [hText, List.mem_map] at h
  rcases h with ⟨digit, _, hDigit⟩
  exact Or.inl ⟨digit, hDigit⟩

theorem Numeral.spells_of_mem_fractionChars
    {fraction : List Digit}
    {c : Char}
    (h : c ∈ fractionChars fraction) :
    Spells c := by
  unfold fractionChars at h
  split at h
  · cases h
  · rcases List.mem_cons.mp h with rfl | hDigits
    · exact Or.inr (by simp)
    · rcases List.mem_map.mp hDigits with ⟨digit, _, hDigit⟩
      exact Or.inl ⟨digit, hDigit⟩

theorem Numeral.spells_of_mem_exponentChars
    {exponent : Option Int}
    {c : Char}
    (h : c ∈ exponentChars false exponent) :
    Spells c := by
  rcases exponent with _ | e | e
  · cases h
  · simp only [exponentChars, Bool.false_eq_true, if_false,
      List.singleton_append, List.mem_cons] at h
    rcases h with rfl | hDigits
    · exact Or.inr (by simp)
    · exact Digit.spells_of_mem_toDigits hDigits
  · simp only [exponentChars, List.mem_cons] at h
    rcases h with rfl | rfl | hDigits
    · exact Or.inr (by simp)
    · exact Or.inr (by simp)
    · exact Digit.spells_of_mem_toDigits hDigits

theorem Numeral.spells_of_mem_chars
    {n : Numeral}
    {c : Char}
    (h : c ∈ n.chars false) :
    Spells c := by
  rw [chars_eq, plainChars] at h
  simp only [List.mem_append] at h
  rcases h with hSign | (hWhole | hFraction) | hExponent
  · split at hSign
    · rw [List.mem_singleton] at hSign
      subst hSign
      exact Or.inr (by simp)
    · cases hSign
  · exact Digit.spells_of_mem_toDigits hWhole
  · exact spells_of_mem_fractionChars hFraction
  · exact spells_of_mem_exponentChars hExponent

/- A literal is made of the characters of numerals. -/
theorem Binary.spells_of_mem_literal
    {f : Format}
    {x : Binary f}
    {c : Char}
    (h : c ∈ x.literal.toList) :
    Numeral.Spells c := by
  rcases x.exists_numeral with ⟨n, hText, _⟩
  rw [hText] at h
  exact Numeral.spells_of_mem_chars h

theorem Binary.quiet_literal
    {f : Format}
    (x : Binary f) :
    Quiet x.literal := by
  intro c hc
  rcases spells_of_mem_literal hc with
    ⟨digit, rfl⟩ | rfl | rfl | rfl
  · clear hc
    revert digit
    decide
  all_goals decide

end FractalShader

------------------------------------------------------------
-- Names
------------------------------------------------------------

namespace FractalShader

open Lines

/- The names of variables and uniforms are words. -/
structure Settings.Worded (settings : Settings) : Prop where
  stateVar : Word settings.stateVar.toList
  iterationVar : Word settings.iterationVar.toList
  paramArray : Word settings.paramArray.toList
  slotStem : Word settings.slotStem.toList

/- So are the names that stand for want of others. -/
theorem Settings.worded_default
    (mode : Mode)
    (inline : Bool) :
    Worded { mode := mode, inlineLiterals := inline } := by
  have hState : Word "z".toList := by decide
  have hIteration : Word "i".toList := by decide
  have hArray : Word "uNodeParams".toList := by decide
  have hStem : Word "uParam".toList := by decide
  exact ⟨hState, hIteration, hArray, hStem⟩

variable {settings : Settings}

theorem Var.word_text
    (h : settings.Worded)
    (var : Var) :
    Word (var.text settings).toList := by
  cases var with
  | state => exact h.stateVar
  | stage index =>
      have hStem : Word "v".toList := by decide
      rw [text, String.toList_append]
      exact hStem.append (word_toString index).letters

namespace Reference

theorem word_slot
    (h : settings.Worded)
    (slot : Slot) :
    Word ((Reference.slot slot).text settings).toList := by
  have hLetter : isLetter slot.letter = true := by
    cases slot <;> decide
  rw [text, Slot.uniform, String.toList_push]
  exact h.slotStem.append (by simpa using hLetter)

/- A cell is the array with a number in brackets. -/
theorem tokens_cell
    (h : settings.Worded)
    (index : Nat) :
    tokens ((Reference.cell index).text settings).toList =
      [ settings.paramArray.toList, ['[']
      , (toString index).toList, [']'] ] := by
  have hOpen : tokens "[".toList = [['[']] := by
    decide
  have hClose : tokens "]".toList = [[']']] := by
    decide
  rw [text, String.append_assoc, String.append_assoc,
    String.toList_append,
    tokens_append_of_head (by simp [isLetter]),
    tokens_word h.paramArray,
    tokens_weave (by simp [isLetter]) (word_toString index)
      (by simp [isLetter]),
    hOpen, hClose]
  rfl

theorem text_ne_empty
    (h : settings.Worded)
    (reference : Reference) :
    reference.text settings ≠ "" := by
  cases reference with
  | literal value =>
      have hMark : '-' ∈ marks := by decide
      simpa [text] using
        (Binary.operand_literal hMark value).nonempty
  | slot slot => simpa using (word_slot h slot).nonempty
  | cell index => simp [text]

theorem quiet_text
    (h : settings.Worded)
    (reference : Reference) :
    Quiet (reference.text settings) := by
  cases reference with
  | literal value => exact value.quiet_literal
  | slot slot => exact (word_slot h slot).quiet
  | cell index =>
      have hOpen : Quiet "[" := by decide
      have hClose : Quiet "]" := by decide
      exact
        ((h.paramArray.quiet.append hOpen).append
          (word_toString index).quiet).append hClose

end Reference

end FractalShader

------------------------------------------------------------
-- Blocks
------------------------------------------------------------

namespace FractalShader

open Lines

namespace Block

variable {settings : Settings}

/- The tokens of a declaration. -/
theorem tokens_declaration
    (h : settings.Worded)
    (block : Block) :
    tokens (block.declaration settings).toList =
      [ "vec4".toList, (block.output.text settings).toList
      , ['='], (block.inputA.text settings).toList
      , [';'] ] := by
  have hOutput := block.output.word_text h
  have hInput := block.inputA.word_text h
  have hVector : tokens "vec4 ".toList = ["vec4".toList] := by
    decide
  have hTakes : tokens " = ".toList = [['=']] := by
    decide
  have hEnd : tokens ";\n".toList = [[';']] := by
    decide
  rw [declaration]
  simp only [String.append_assoc]
  rw [tokens_weave (by simp [isLetter]) hOutput
      (by simp [isLetter]),
    tokens_weave (by simp [isLetter]) hInput
      (by simp [isLetter]),
    hVector, hTakes, hEnd]
  rfl

variable {block : Block}

/- The line that opens a guard. -/
def test
    (settings : Settings)
    (guard : Guard) : String :=
  "if ((" ++ settings.iterationVar ++ " % " ++
    toString guard.modulus.toNat ++ ") == " ++
    toString guard.remainder.toNat ++ ") \x7b"

theorem quiet_test
    (h : settings.Worded)
    (guard : Guard) :
    Quiet (test settings guard) := by
  have hIf : Quiet "if ((" := by decide
  have hRest : Quiet " % " := by decide
  have hEqual : Quiet ") == " := by decide
  have hOpen : Quiet ") \x7b" := by decide
  have hModulus := (word_toString guard.modulus.toNat).quiet
  have hRemainder := (word_toString guard.remainder.toNat).quiet
  exact
    (((((hIf.append h.iterationVar.quiet).append hRest).append
      hModulus).append hEqual).append hRemainder).append hOpen

/- The tokens of the line that opens a guard. -/
theorem tokens_test
    (h : settings.Worded)
    (guard : Guard) :
    tokens (test settings guard).toList =
      [ "if".toList, ['('], ['(']
      , settings.iterationVar.toList, ['%']
      , (toString guard.modulus.toNat).toList
      , [')'], ['='], ['=']
      , (toString guard.remainder.toNat).toList
      , [')'], ['\x7b'] ] := by
  have hIf :
      tokens "if ((".toList = ["if".toList, ['('], ['(']] := by
    decide
  have hRest : tokens " % ".toList = [['%']] := by
    decide
  have hEqual :
      tokens ") == ".toList = [[')'], ['='], ['=']] := by
    decide
  have hOpen : tokens ") \x7b".toList = [[')'], ['\x7b']] := by
    decide
  rw [test]
  simp only [String.append_assoc]
  rw [tokens_weave (by simp [isLetter]) h.iterationVar
      (by simp [isLetter]),
    tokens_weave (by simp [isLetter]) (word_toString _)
      (by simp [isLetter]),
    tokens_weave (by simp [isLetter]) (word_toString _)
      (by simp [isLetter]),
    hIf, hRest, hEqual, hOpen]
  rfl

/- The statements under a guard, set off to the right. -/
def inset (statements : String) : String :=
  String.join
    ((ofText statements).map fun line =>
      "    " ++ line ++ "\n")

theorem guarded_eq
    (settings : Settings)
    (guard : Guard)
    (statements : String) :
    guarded settings guard statements =
      test settings guard ++ "\n" ++
        (inset statements ++ "\x7d\n") := by
  have hOpen : ") \x7b\n" = ") \x7b" ++ "\n" := rfl
  rw [guarded, hOpen, test, inset]
  simp only [String.append_assoc]

/- Setting lines off to the right changes no tokens. -/
theorem tokens_inset
    {statements : String}
    (hPrinted : Printed statements.toList)
    (hEnded : Ended statements.toList) :
    tokens (inset statements).toList =
      tokens statements.toList := by
  have hLines :
      ∀ lines : List String,
        tokens
            (String.join
              (lines.map fun line =>
                "    " ++ line ++ "\n")).toList =
          lines.flatMap fun line => tokens line.toList := by
    intro lines
    induction lines with
    | nil => rfl
    | cons line lines ih =>
        have hMargin : tokens "    ".toList = [] := by
          decide
        have hLine : Ended ("    " ++ line ++ "\n").toList := by
          rw [String.toList_append]
          exact ended_line _
        rw [List.map_cons, String.join_cons,
          String.toList_append, tokens_append_of_ended hLine,
          ih, tokens_line, String.toList_append,
          tokens_append_of_last (by simp [isLetter]), hMargin]
        rfl
  rw [inset, hLines, tokens_ofText hPrinted hEnded]

theorem ended_inset (statements : String) :
    Ended (inset statements).toList := by
  apply ended_join
  intro text hText
  rcases List.mem_map.mp hText with ⟨line, _, rfl⟩
  rw [String.toList_append]
  exact ended_line _

theorem printed_inset
    {statements : String}
    (hPrinted : Printed statements.toList) :
    Printed (inset statements).toList := by
  intro c hc
  rw [inset, String.toList_join, List.flatMap_map,
    List.mem_flatMap] at hc
  rcases hc with ⟨line, hLine, hMem⟩
  have hMargin : Printed "    ".toList := by decide
  have hEnd : Printed "\n".toList := by decide
  have hPart : Printed line.toList := by
    rcases List.mem_map.mp hLine with ⟨chars, hChars, rfl⟩
    intro d hd
    rw [String.toList_ofList] at hd
    exact hPrinted d (mem_of_mem_split hChars hd).1
  rw [String.toList_append, String.toList_append] at hMem
  exact ((hMargin.append hPart).append hEnd) c hMem

/- The tokens of statements under a guard. -/
theorem tokens_guarded
    (settings : Settings)
    (guard : Guard)
    {statements : String}
    (hPrinted : Printed statements.toList)
    (hEnded : Ended statements.toList) :
    tokens (guarded settings guard statements).toList =
      tokens (test settings guard).toList ++
        (tokens statements.toList ++ [['\x7d']]) := by
  have hClose : tokens "\x7d\n".toList = [['\x7d']] := by
    decide
  have hLine : Ended (test settings guard ++ "\n").toList := by
    rw [String.toList_append]
    exact ended_line _
  rw [guarded_eq, String.toList_append,
    tokens_append_of_ended hLine, tokens_line,
    String.toList_append,
    tokens_append_of_head (by simp [isLetter]), hClose,
    tokens_inset hPrinted hEnded]

end Block

end FractalShader

------------------------------------------------------------
-- Code of a Stage
------------------------------------------------------------

namespace FractalShader

open Lines

namespace Block

variable {settings : Settings} {block : Block}

/- What a block puts into its template. -/
theorem worded_scope
    (h : settings.Worded)
    (block : Block) :
    (block.scope settings).Worded := by
  have hName := fun var : Var => var.word_text h
  constructor
  · exact hName _
  · exact hName _
  · unfold Scope.inputB scope
    dsimp only
    cases block.inputB with
    | none => exact hName _
    | some var => exact hName var
  · intro input
    rcases block.param_cases settings input with
      hNone | ⟨r, _, hText⟩
    · rw [hNone]
      decide
    · rw [hText]
      exact r.2.text_ne_empty h
  · intro input
    have hZero : Quiet "0.0" := by decide
    rcases block.param_cases settings input with
      hNone | ⟨r, _, hText⟩
    · rw [hNone]
      exact hZero
    · rw [hText]
      exact r.2.quiet_text h

theorem ended_declaration
    (settings : Settings)
    (block : Block) :
    Ended (block.declaration settings).toList := by
  rw [declaration, String.toList_append]
  exact ended_append_line _ [';']

/- A declaration stays on its line. -/
theorem printed_declaration
    (h : settings.Worded)
    (block : Block) :
    Printed (block.declaration settings).toList := by
  have hVector : Printed "vec4 ".toList := by decide
  have hTakes : Printed " = ".toList := by decide
  have hEnd : Printed ";\n".toList := by decide
  have hOutput := (block.output.word_text h).quiet.printed
  have hInput := (block.inputA.word_text h).quiet.printed
  simp only [declaration, String.toList_append]
  exact
    (((hVector.append hOutput).append hTakes).append
      hInput).append hEnd

/- A block whose statements are those of a template. -/
structure Filled
    (template : Template)
    (block : Block) : Prop where
  loose : template.Loose
  body : block.body = template.render
  ended :
    ∀ scope, Ended (template.render scope).toList

/- The tokens that a block puts into its template. -/
def fillings
    (settings : Settings)
    (template : Template)
    (block : Block) : List (List Char) :=
  template.flatMap fun piece =>
    tokens (piece.render (block.scope settings)).toList

variable {template : Template}

/- The tokens of a block that has no guard. -/
theorem Filled.tokens_code
    (h : block.Filled template)
    (hWorded : settings.Worded)
    (hGuard : block.guard = none) :
    tokens (block.code settings).toList =
      tokens (block.declaration settings).toList ++
        block.fillings settings template := by
  have hScope := block.worded_scope hWorded
  rw [code, String.toList_append,
    tokens_append_of_ended (ended_declaration settings block),
    statements, hGuard, h.body]
  dsimp only
  rw [Template.tokens_render h.loose hScope, fillings]

/- The tokens of a block that has one. -/
theorem Filled.tokens_code_guarded
    (h : block.Filled template)
    (hWorded : settings.Worded)
    {guard : Guard}
    (hGuard : block.guard = some guard) :
    tokens (block.code settings).toList =
      tokens (block.declaration settings).toList ++
        (tokens (test settings guard).toList ++
          (block.fillings settings template ++
            [['\x7d']])) := by
  have hScope := block.worded_scope hWorded
  rw [code, String.toList_append,
    tokens_append_of_ended (ended_declaration settings block),
    statements, hGuard, h.body]
  dsimp only
  rw [tokens_guarded settings guard
      (Template.printed_render h.loose hScope) (h.ended _),
    Template.tokens_render h.loose hScope, fillings]

/- A block stays on its lines. -/
theorem Filled.printed_code
    (h : block.Filled template)
    (hWorded : settings.Worded) :
    Printed (block.code settings).toList := by
  have hBody :=
    Template.printed_render h.loose
      (block.worded_scope hWorded)
  rw [code, String.toList_append]
  apply (printed_declaration hWorded block).append
  rw [statements, h.body]
  cases block.guard with
  | none => exact hBody
  | some guard =>
      have hEnd : Printed "\n".toList := by decide
      have hClose : Printed "\x7d\n".toList := by
        decide
      dsimp only
      simp only [guarded_eq, String.toList_append]
      exact
        ((quiet_test hWorded guard).printed.append
          hEnd).append
            ((printed_inset hBody).append hClose)

end Block

/- The block of a built-in kind fills its template. -/
theorem Stage.Writes.exists_filled
    {inline : Bool}
    {stage : Stage}
    {block : Block}
    (h : stage.Writes .builtIn inline block) :
    ∃ template,
      (stage.kind, template) ∈ BuiltIn.templates ∧
        block.Filled template := by
  rcases h with ⟨kind, _, _, _, _, hKind, _, rfl⟩
  rcases Catalog.find?_ofKinds hKind with ⟨hMem, hId⟩
  rcases BuiltIn.exists_template kind hMem with
    ⟨template, hTemplate, hBody⟩
  rcases BuiltIn.exists_lines kind hMem with ⟨rows, hRows⟩
  rw [hId] at hTemplate
  refine ⟨template, hTemplate, ?_, hBody, ?_⟩
  · exact BuiltIn.loose_templates _ hTemplate
  · intro scope
    rw [← hBody, hRows]
    exact BuiltIn.ended_render_lines rows scope

end FractalShader
