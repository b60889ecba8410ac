import FractalShader.Proofs.Shader.Signs
import FractalShader.Proofs.Shader.Tokens

/-
  What shader text declares, and what it uses.

  A variable is declared where its name follows another
  word, and used wherever else its name stands.  Code grows
  line by line: each line uses variables of lines before it
  only, and declares one only where every brace is closed.
  Templates declare nothing, and close their braces.

  Main declarations:
    * `Lines.declared`
    * `Lines.used`
    * `Lines.depth`
    * `Lines.Scoped`
    * `Lines.Scoped.text`
    * `Template.Calm`
    * `BuiltIn.calm_templates`
    * `Template.Calm.still`
    * `Template.Calm.level`
-/

------------------------------------------------------------
-- Variables of Lines
------------------------------------------------------------

namespace FractalShader

namespace Lines

/- The number of the stage whose variable a word names. -/
def stage? : List Char → Option Nat
  | 'v' :: rest =>
      match Digit.takeFront rest with
      | (d :: digits, []) =>
          some (Digit.value (d :: digits))
      | _ => none
  | _ => none

/- A token of letters only. -/
def isWord (token : List Char) : Bool :=
  token.all isLetter

theorem Word.isWord
    {text : List Char}
    (h : Word text) :
    isWord text = true :=
  List.all_eq_true.mpr h.letters

/- Whether a word comes right before what comes next. -/
def typedAfter : Bool → List (List Char) → Bool
  | typed, [] => typed
  | _, token :: rest => typedAfter (isWord token) rest

/-
  The variables whose names follow a word, given whether a
  word comes first.
-/
def declaredAfter : Bool → List (List Char) → List Nat
  | _, [] => []
  | typed, token :: rest =>
      (if typed then (stage? token).toList else []) ++
        declaredAfter (isWord token) rest

/-
  The variables that a line declares: those whose names
  follow a word, that of their type.
-/
def declared (line : String) : List Nat :=
  declaredAfter false (tokens line.toList)

/- The variables whose names stand in a line. -/
def mentioned (line : String) : List Nat :=
  (tokens line.toList).filterMap stage?

/- The variables that a line mentions beside declaring. -/
def used (line : String) : List Nat :=
  (mentioned line).diff (declared line)

theorem declaredAfter_append
    (typed : Bool)
    (xs ys : List (List Char)) :
    declaredAfter typed (xs ++ ys) =
      declaredAfter typed xs ++
        declaredAfter (typedAfter typed xs) ys := by
  induction xs generalizing typed with
  | nil => rfl
  | cons token xs ih =>
      simp [declaredAfter, typedAfter, ih]

/- A word in front can only make for another declaration. -/
theorem declaredAfter_eq_nil
    {typed : Bool}
    {ts : List (List Char)}
    (h : declaredAfter true ts = []) :
    declaredAfter typed ts = [] := by
  cases ts with
  | nil => rfl
  | cons token ts =>
      cases typed with
      | true => exact h
      | false =>
          rw [declaredAfter, List.append_eq_nil_iff] at h
          simpa [declaredAfter] using h.2

theorem declaredAfter_false_eq_nil
    {typed : Bool}
    {ts : List (List Char)}
    (h : declaredAfter typed ts = []) :
    declaredAfter false ts = [] := by
  cases typed with
  | true => exact declaredAfter_eq_nil h
  | false => exact h

/- The number of a variable is read from its name. -/
theorem stage?_name (n : Nat) :
    stage? ("v" ++ toString n).toList = some n := by
  rcases Digit.exists_spelling n with
    ⟨d, digits, hDigits, hValue, _⟩
  have hFront :
      Digit.takeFront (Nat.toDigits 10 n) =
        (d :: digits, []) := by
    rw [hDigits, ← List.append_nil (List.map _ _)]
    exact Digit.takeFront_append (d :: digits) (by simp)
  rw [String.toList_append, Digit.toList_toString]
  change stage? ('v' :: Nat.toDigits 10 n) = _
  rw [stage?, hFront]
  simp [hValue]

/- Only what starts like a variable names one. -/
theorem stage?_eq_none
    {token : List Char}
    (h : 'v' ∉ token.head?) :
    stage? token = none := by
  unfold stage?
  split
  · simp at h
  · rfl

end Lines

end FractalShader

------------------------------------------------------------
-- Braces
------------------------------------------------------------

namespace FractalShader

namespace Lines

/- The tokens that open and close a block of statements. -/
def braces : List (List Char) := [['\x7b'], ['\x7d']]

/-
  How many braces are open behind a token, given how many
  are open in front; nothing when one is closed that was
  never opened.
-/
def brace (opened : Nat) (token : List Char) : Option Nat :=
  if token = ['\x7b'] then
    some (opened + 1)
  else if token = ['\x7d'] then
    if opened = 0 then none else some (opened - 1)
  else
    some opened

/- How many braces are open behind some tokens. -/
def depth
    (opened : Nat)
    (ts : List (List Char)) : Option Nat :=
  ts.foldlM brace opened

/- Every brace that is opened is closed. -/
def Level (lines : List String) : Prop :=
  depth 0 (lines.flatMap fun line => tokens line.toList) =
    some 0

theorem depth_cons
    (n : Nat)
    (token : List Char)
    (ts : List (List Char)) :
    depth n (token :: ts) =
      (brace n token).bind fun m => depth m ts :=
  List.foldlM_cons

theorem depth_append
    (n : Nat)
    (xs ys : List (List Char)) :
    depth n (xs ++ ys) =
      (depth n xs).bind fun m => depth m ys :=
  List.foldlM_append

theorem brace_of_plain
    {token : List Char}
    (h : token ∉ braces)
    (n : Nat) :
    brace n token = some n := by
  simp only [braces, List.mem_cons, not_or] at h
  rw [brace, if_neg h.1, if_neg h.2.1]

theorem brace_add
    {n m : Nat}
    {token : List Char}
    (h : brace n token = some m)
    (more : Nat) :
    brace (n + more) token = some (m + more) := by
  unfold brace at h ⊢
  split at h
  · cases h
    rw [if_pos ‹_›, Nat.add_right_comm]
  · rw [if_neg ‹_›]
    split at h
    · rw [if_pos ‹_›]
      split at h
      · cases h
      · cases h
        rw [if_neg (by omega)]
        congr 1
        omega
    · cases h
      rw [if_neg ‹_›]

/- Braces around some tokens do not disturb their own. -/
theorem depth_add
    {n m : Nat}
    {ts : List (List Char)}
    (h : depth n ts = some m)
    (more : Nat) :
    depth (n + more) ts = some (m + more) := by
  induction ts generalizing n with
  | nil =>
      cases h
      rfl
  | cons token ts ih =>
      rw [depth_cons, Option.bind_eq_some_iff] at h
      rcases h with ⟨next, hBrace, hRest⟩
      rw [depth_cons, brace_add hBrace, Option.bind_some,
        ih hRest]

/- Tokens whose braces are closed leave the depth alone. -/
theorem depth_of_level
    {ts : List (List Char)}
    (h : depth 0 ts = some 0)
    (n : Nat) :
    depth n ts = some n := by
  simpa using depth_add h n

/- So do tokens that are no braces. -/
theorem depth_of_plain
    {ts : List (List Char)}
    (h : ∀ token ∈ ts, token ∉ braces)
    (n : Nat) :
    depth n ts = some n := by
  induction ts with
  | nil => rfl
  | cons token ts ih =>
      rw [List.forall_mem_cons] at h
      rw [depth_cons, brace_of_plain h.1, Option.bind_some,
        ih h.2]

theorem Level.append
    {xs ys : List String}
    (hXs : Level xs)
    (hYs : Level ys) :
    Level (xs ++ ys) := by
  rw [Level, List.flatMap_append, depth_append, hXs,
    Option.bind_some, hYs]

end Lines

end FractalShader

------------------------------------------------------------
-- Scoped Code
------------------------------------------------------------

namespace FractalShader

namespace Lines

/-
  A line that computes a remainder tests the iteration, and
  some remainder passes the test.
-/
def Tests (settings : Settings) (line : String) : Prop :=
  ['%'] ∈ tokens line.toList →
    ∃ guard,
      line = Block.test settings guard ∧
        1 ≤ guard.modulus ∧ guard.remainder < guard.modulus

/-
  Lines that declare some variables in this order.  A line
  uses what earlier lines declare, and declares a variable
  only where no brace is open.
-/
inductive Scoped
    (settings : Settings) :
    List Nat → List String → Prop where
  | nil : Scoped settings [] []
  | line
      {done : List Nat}
      {code : List String}
      {line : String}
      (hCode : Scoped settings done code)
      (hLevel : declared line ≠ [] → Level code)
      (hUsed : ∀ index ∈ used line, index ∈ done)
      (hTests : Tests settings line) :
      Scoped settings (done ++ declared line)
        (code ++ [line])

variable {settings : Settings} {done : List Nat}
variable {code : List String}

/- The variables are those that the lines declare. -/
theorem Scoped.declared_eq
    (h : Scoped settings done code) :
    code.flatMap declared = done := by
  induction h with
  | nil => rfl
  | line _ _ _ _ ih => simp [ih]

/- Nothing is mentioned that is not declared. -/
theorem Scoped.mentioned_mem
    (h : Scoped settings done code) :
    ∀ line ∈ code, ∀ index ∈ mentioned line, index ∈ done := by
  induction h with
  | nil => simp
  | @line done code last hCode hLevel hUsed hTests ih =>
      intro line hLine index hIndex
      rw [List.mem_append]
      rcases List.mem_append.mp hLine with hOld | hNew
      · exact Or.inl (ih line hOld index hIndex)
      · rw [List.mem_singleton] at hNew
        subst hNew
        by_cases hDeclared : index ∈ declared line
        · exact Or.inr hDeclared
        · refine Or.inl (hUsed index ?_)
          exact List.mem_diff_of_mem hIndex hDeclared

/-
  Tokens that declare nothing, name known variables only and
  compute no remainder.
-/
structure Still
    (done : List Nat)
    (ts : List (List Char)) : Prop where
  undeclared : declaredAfter false ts = []
  known : ∀ token ∈ ts, ∀ index ∈ stage? token, index ∈ done
  untested : ['%'] ∉ ts

/- A part of such tokens is one too. -/
theorem Still.of_infix
    {part ts : List (List Char)}
    (h : Still done ts)
    (hPart : part <:+: ts) :
    Still done part := by
  rcases hPart with ⟨front, back, rfl⟩
  refine ⟨?_, ?_, ?_⟩
  · have hNone := h.undeclared
    rw [declaredAfter_append, declaredAfter_append,
      List.append_eq_nil_iff, List.append_eq_nil_iff] at hNone
    exact declaredAfter_false_eq_nil hNone.1.2
  · intro token hToken
    exact h.known token (by simp [hToken])
  · intro hTest
    exact h.untested (by simp [hTest])

/- A line of such tokens belongs anywhere. -/
theorem Scoped.still
    (h : Scoped settings done code)
    {line : String}
    (hLine : Still done (tokens line.toList)) :
    Scoped settings done (code ++ [line]) := by
  have hNone : declared line = [] := hLine.undeclared
  have hUsed : ∀ index ∈ used line, index ∈ done := by
    intro index hIndex
    have hMentioned := List.diff_subset _ _ hIndex
    rcases List.mem_filterMap.mp hMentioned with
      ⟨token, hToken, hStage⟩
    exact hLine.known token hToken index hStage
  have hNext :
      Scoped settings (done ++ declared line)
        (code ++ [line]) :=
    h.line (fun hSome => absurd hNone hSome) hUsed
      fun hTest => absurd hTest hLine.untested
  rwa [hNone, List.append_nil] at hNext

/- So does a text of them. -/
theorem Scoped.text
    (h : Scoped settings done code)
    {text : String}
    (hPrinted : Printed text.toList)
    (hEnded : Ended text.toList)
    (hStill : Still done (tokens text.toList)) :
    Scoped settings done (code ++ ofText text) := by
  have hLines :
      ∀ line ∈ ofText text,
        Still done (tokens line.toList) := by
    intro line hLine
    apply hStill.of_infix
    rcases List.append_of_mem hLine with ⟨front, back, hEq⟩
    rw [← tokens_ofText hPrinted hEnded, hEq]
    refine
      ⟨front.flatMap fun line => tokens line.toList,
        back.flatMap fun line => tokens line.toList, ?_⟩
    simp
  generalize ofText text = lines at hLines
  induction lines generalizing code with
  | nil => rwa [List.append_nil]
  | cons line lines ih =>
      rw [List.forall_mem_cons] at hLines
      have hNext := ih (h.still hLines.1) hLines.2
      rwa [List.append_assoc] at hNext

end Lines

end FractalShader

------------------------------------------------------------
-- Signs of Code
------------------------------------------------------------

namespace FractalShader

namespace Lines

/- The sign of a remainder, and braces. -/
def controls : List (List Char) := ['%'] :: braces

/- A token that is none of these and names no variable. -/
structure Inert (token : List Char) : Prop where
  unnamed : stage? token = none
  plain : token ∉ controls

/- Words are no such signs. -/
theorem Word.not_mem_controls
    {text : List Char}
    (h : Word text) :
    text ∉ controls := by
  have hControls : ∀ sign ∈ controls, ¬ Word sign := by
    decide
  exact fun hMem => hControls text hMem h

/- A token without the characters of those signs. -/
theorem inert_of_not_mem
    {token : List Char}
    (h : ∀ c ∈ ['v', '\x7b', '\x7d', '%'], c ∉ token) :
    Inert token := by
  constructor
  · apply stage?_eq_none
    intro hHead
    exact h 'v' (by simp) (List.mem_of_head? hHead)
  · intro hMem
    simp only [controls, braces, List.mem_cons,
      List.not_mem_nil, or_false] at hMem
    rcases hMem with rfl | rfl | rfl <;> simp at h

/- A number is a word, and does not name a variable. -/
theorem inert_toString (n : Nat) :
    Inert (toString n).toList := by
  refine ⟨?_, (word_toString n).not_mem_controls⟩
  apply stage?_eq_none
  intro hHead
  have hMem := List.mem_of_head? hHead
  rw [Digit.toList_toString] at hMem
  rcases Digit.spells_of_mem_toDigits hMem with
    ⟨digit, hDigit⟩ | hSign | hSign | hSign
  · revert hDigit
    revert digit
    decide
  all_goals cases hSign

/- What holds of the marks of numerals holds of a literal. -/
theorem inert_literal
    {f : Format}
    {x : Binary f}
    {token : List Char}
    (h : token ∈ tokens x.literal.toList) :
    Inert token := by
  apply inert_of_not_mem
  intro c hc hMem
  rcases Binary.spells_of_mem_literal
      (mem_of_mem_tokens h hMem) with
    ⟨digit, rfl⟩ | rfl | rfl | rfl
  · clear h hMem
    revert digit
    decide
  all_goals
    clear h hMem
    revert hc
    decide

/- Tokens that name nothing declare nothing. -/
theorem declaredAfter_of_unnamed
    {ts : List (List Char)}
    (h : ∀ token ∈ ts, stage? token = none)
    {typed : Bool} :
    declaredAfter typed ts = [] := by
  induction ts generalizing typed with
  | nil => rfl
  | cons token ts ih =>
      rw [List.forall_mem_cons] at h
      rw [declaredAfter, h.1, ih h.2]
      simp

/- A name that no word comes before is not declared. -/
theorem declaredAfter_name
    {name : String}
    (hWord : Word name.toList)
    {typed : Bool}
    (hTyped : (!typed) = true)
    {rest : List (List Char)}
    (hRest : declaredAfter true rest = []) :
    declaredAfter typed (tokens name.toList ++ rest) = [] := by
  have hFalse : typed = false := by simpa using hTyped
  rw [tokens_word hWord, hFalse, List.singleton_append,
    declaredAfter, declaredAfter_eq_nil hRest]
  rfl

end Lines

end FractalShader

------------------------------------------------------------
-- Templates
------------------------------------------------------------

namespace FractalShader

open Lines

/-
  What a scope puts into a template: variables from a list,
  and references that name no variable.
-/
structure Scope.Reads
    (done : List Nat)
    (scope : Scope) : Prop where
  worded : scope.Worded
  output :
    ∀ index ∈ stage? scope.output.toList, index ∈ done
  inputA :
    ∀ index ∈ stage? scope.inputA.toList, index ∈ done
  inputB :
    ∀ index ∈ stage? scope.inputB.toList, index ∈ done
  param :
    ∀ input, ∀ token ∈ tokens (scope.param input).toList,
      Inert token

namespace Template

/- The tokens that a template brings along. -/
def fixed (template : Template) : List (List Char) :=
  template.flatMap fun
    | .text s => tokens s.toList
    | _ => []

/-
  No variable is put right behind a word, given whether a
  word comes first.  What is put for a parameter may end
  with a word.
-/
def untyped : Bool → Template → Bool
  | _, [] => true
  | typed, .text s :: rest =>
      declaredAfter typed (tokens s.toList) == [] &&
        untyped (typedAfter typed (tokens s.toList)) rest
  | _, .param _ :: rest => untyped true rest
  | typed, _ :: rest => !typed && untyped true rest

/-
  A template that declares nothing, names no variable of its
  own, computes no remainder, and closes its braces.
-/
def Calm (template : Template) : Prop :=
  template.untyped false = true ∧
    (∀ token ∈ template.fixed,
      stage? token = none ∧ token ≠ ['%']) ∧
    depth 0 template.fixed = some 0

instance (template : Template) : Decidable template.Calm := by
  unfold Calm
  infer_instance

variable {template : Template} {scope : Scope}
variable {done : List Nat}

/- What is put into a template declares nothing. -/
theorem declaredAfter_render
    (hScope : scope.Reads done)
    {typed : Bool}
    (h : template.untyped typed = true) :
    declaredAfter typed
        (template.flatMap fun piece =>
          tokens (piece.render scope).toList) =
      [] := by
  induction template generalizing typed with
  | nil => rfl
  | cons piece template ih =>
      rw [List.flatMap_cons]
      cases piece with
      | text s =>
          rw [untyped, Bool.and_eq_true, beq_iff_eq] at h
          rw [Piece.render, declaredAfter_append, h.1,
            ih h.2]
          rfl
      | param input =>
          have hParam :
              ∀ token ∈ tokens (scope.param input).toList,
                stage? token = none :=
            fun token hToken =>
              (hScope.param input token hToken).unnamed
          rw [Piece.render, declaredAfter_append,
            declaredAfter_of_unnamed hParam,
            declaredAfter_eq_nil (ih h)]
          rfl
      | output =>
          rcases (Bool.and_eq_true _ _).mp h with ⟨hType, hRest⟩
          exact
            declaredAfter_name hScope.worded.output hType
              (ih hRest)
      | inputA =>
          rcases (Bool.and_eq_true _ _).mp h with ⟨hType, hRest⟩
          exact
            declaredAfter_name hScope.worded.inputA hType
              (ih hRest)
      | inputB =>
          rcases (Bool.and_eq_true _ _).mp h with ⟨hType, hRest⟩
          exact
            declaredAfter_name hScope.worded.inputB hType
              (ih hRest)

/- A token is one of the template or is put into it. -/
theorem token_cases
    (hScope : scope.Reads done)
    {token : List Char}
    (h :
      token ∈ template.flatMap fun piece =>
        tokens (piece.render scope).toList) :
    token ∈ template.fixed ∨
      (∀ index ∈ stage? token, index ∈ done) ∧
        token ∉ controls := by
  rcases List.mem_flatMap.mp h with ⟨piece, hPiece, hToken⟩
  have hName :
      ∀ {name : String}, Word name.toList →
        (∀ index ∈ stage? name.toList, index ∈ done) →
        token ∈ tokens name.toList →
          (∀ index ∈ stage? token, index ∈ done) ∧
            token ∉ controls := by
    intro name hWord hKnown hMem
    rw [tokens_word hWord, List.mem_singleton] at hMem
    subst hMem
    exact ⟨hKnown, hWord.not_mem_controls⟩
  cases piece with
  | text s =>
      exact Or.inl (List.mem_flatMap.mpr ⟨_, hPiece, hToken⟩)
  | param input =>
      have hInert := hScope.param input token hToken
      exact
        Or.inr ⟨by simp [hInert.unnamed], hInert.plain⟩
  | output =>
      exact
        Or.inr (hName hScope.worded.output hScope.output hToken)
  | inputA =>
      exact
        Or.inr (hName hScope.worded.inputA hScope.inputA hToken)
  | inputB =>
      exact
        Or.inr (hName hScope.worded.inputB hScope.inputB hToken)

/- Only the template's own braces count. -/
theorem depth_render
    (hScope : scope.Reads done)
    (n : Nat) :
    depth n
        (template.flatMap fun piece =>
          tokens (piece.render scope).toList) =
      depth n template.fixed := by
  induction template generalizing n with
  | nil => rfl
  | cons piece template ih =>
      have hFixed :
          fixed (piece :: template) =
            fixed [piece] ++ fixed template := by
        simp [fixed]
      have hPiece :
          ∀ n,
            depth n (tokens (piece.render scope).toList) =
              depth n (fixed [piece]) := by
        intro n
        by_cases hText : ∃ s, piece = .text s
        · rcases hText with ⟨s, rfl⟩
          simp [fixed, Piece.render]
        · have hNone : fixed [piece] = [] := by
            cases piece with
            | text s => exact absurd ⟨s, rfl⟩ hText
            | _ => rfl
          rw [hNone]
          apply depth_of_plain
          intro token hToken
          have hPut :
              token ∈ fixed [piece] ∨
                (∀ index ∈ stage? token, index ∈ done) ∧
                  token ∉ controls :=
            token_cases hScope (by simpa using hToken)
          rw [hNone] at hPut
          have hPlain := (hPut.resolve_left (by simp)).2
          exact List.not_mem_of_not_mem_cons hPlain
      rw [List.flatMap_cons, hFixed, depth_append,
        depth_append, hPiece]
      simp only [ih]

namespace Calm

/- A calm template uses what is put into it, and no more. -/
theorem still
    (h : template.Calm)
    (hScope : scope.Reads done) :
    Still done
      (template.flatMap fun piece =>
        tokens (piece.render scope).toList) where
  undeclared := declaredAfter_render hScope h.1
  known := by
    intro token hToken index hIndex
    rcases token_cases hScope hToken with hFixed | hPut
    · rw [(h.2.1 token hFixed).1] at hIndex
      cases hIndex
    · exact hPut.1 index hIndex
  untested := by
    intro hTest
    rcases token_cases hScope hTest with hFixed | hPut
    · exact (h.2.1 _ hFixed).2 rfl
    · exact hPut.2 (by simp [controls])

/- It closes the braces that it opens. -/
theorem level
    (h : template.Calm)
    (hScope : scope.Reads done)
    (n : Nat) :
    depth n
        (template.flatMap fun piece =>
          tokens (piece.render scope).toList) =
      some n := by
  rw [depth_render hScope]
  exact depth_of_level h.2.2 n

end Calm

end Template

namespace BuiltIn

/- The templates of the built-in kinds are calm. -/
theorem calm_templates :
    ∀ entry ∈ templates, entry.2.Calm := by
  decide +kernel

end BuiltIn

end FractalShader
