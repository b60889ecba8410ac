import FractalShader.Proofs.Shader.Declared
import FractalShader.Proofs.Shader.Layout

/-
  What is hashed of a fragment determines its layout.

  The declarations end where the number of cells tells.  The
  comments cut the lines behind them into blocks and give
  the ids and the kinds, and a kind gives the places in its
  statements where the references of the inputs stand.

  Main declarations:
    * `Settings.declarations_append_inj`
    * `Block.lines_inj`
    * `Lines.headline_inj`
    * `Reference.append_inj`
    * `Template.param_eq`
    * `Block.Filled.fillings_eq`
    * `Stage.Twins`
    * `Fragment.determined_by_text`
-/

------------------------------------------------------------
-- Declarations
------------------------------------------------------------

namespace FractalShader

open Lines

/- A number is read from its digits. -/
theorem Lines.toString_inj
    {n m : Nat}
    (h : toString n = toString m) :
    n = m := by
  have hName := stage?_name n
  rw [h, stage?_name] at hName
  exact (Option.some.inj hName).symm

/- A mark that is not in two texts ends both. -/
theorem Lines.append_mark_inj
    {c : Char}
    {xs xs' ys ys' : List Char}
    (hXs : c ∉ xs)
    (hXs' : c ∉ xs')
    (h : xs ++ c :: ys = xs' ++ c :: ys') :
    xs = xs' ∧ ys = ys' := by
  rcases List.append_eq_append_iff.mp h with
    ⟨more, rfl, hRest⟩ | ⟨more, rfl, hRest⟩
  · cases more with
    | nil => simpa using hRest
    | cons d more =>
        rw [List.cons_append, List.cons.injEq] at hRest
        simp [← hRest.1] at hXs'
  · cases more with
    | nil => simpa using hRest.symm
    | cons d more =>
        rw [List.cons_append, List.cons.injEq] at hRest
        simp [← hRest.1] at hXs

theorem Settings.declarations_succ (n : Nat) :
    ({} : Settings).declarations (n + 1) =
      "uniform float uNodeParams[" ++
        (toString (n + 1) ++
          ("]" ++ (";\n" ++ ({} : Settings).declarations 0))) := by
  have hArray :
      "uniform float " ++ "uNodeParams" ++ "[" =
        "uniform float uNodeParams[" := by
    decide
  have hEnd : "];\n" = "]" ++ ";\n" := rfl
  rw [declarations, declarations, if_neg (Nat.succ_ne_zero n),
    if_pos rfl, hArray, hEnd]
  simp only [String.append_assoc, String.empty_append]

/-
  The declarations tell where they end: either the array of
  parameters comes first, with its size, or there is none.
-/
theorem Settings.declarations_append_inj
    {n m : Nat}
    {text other : String}
    (h :
      ({} : Settings).declarations n ++ text =
        ({} : Settings).declarations m ++ other) :
    n = m := by
  -- The first slot starts with another letter than the array.
  have hApart :
      ∀ (k : Nat) (xs ys : String),
        ({} : Settings).declarations 0 ++ xs ≠
          ({} : Settings).declarations (k + 1) ++ ys := by
    intro k xs ys hEq
    have hSlot :
        16 ≤ (({} : Settings).declarations 0).toList.length ∧
          (({} : Settings).declarations 0).toList.take 16 =
            "uniform float uP".toList := by
      decide +kernel
    have hArray :
        16 ≤ "uniform float uNodeParams[".toList.length ∧
          "uniform float uNodeParams[".toList.take 16 =
            "uniform float uN".toList := by
      decide
    have hFront := congrArg (fun s => s.toList.take 16) hEq
    rw [declarations_succ, String.append_assoc] at hFront
    simp only [String.toList_append] at hFront
    rw [List.take_append_of_le_length hSlot.1, hSlot.2,
      List.take_append_of_le_length hArray.1, hArray.2]
      at hFront
    revert hFront
    decide
  cases n with
  | zero =>
      cases m with
      | zero => rfl
      | succ m => exact absurd h (hApart m text other)
  | succ n =>
      cases m with
      | zero => exact absurd h.symm (hApart n other text)
      | succ m =>
          have hBracket :
              ∀ k : Nat, ']' ∉ (toString k).toList := by
            intro k hMem
            have hLetter := (word_toString k).letters _ hMem
            revert hLetter
            decide
          have hOpen : "]".toList = [']'] := rfl
          rw [declarations_succ, declarations_succ] at h
          simp only [String.append_assoc] at h
          rw [String.append_right_inj, ← String.toList_inj]
            at h
          simp only [String.toList_append, hOpen,
            List.singleton_append] at h
          have hSize :=
            (append_mark_inj (hBracket _) (hBracket _) h).1
          exact toString_inj (String.toList_inj.mp hSize)

end FractalShader

------------------------------------------------------------
-- Blocks
------------------------------------------------------------

namespace FractalShader

open Lines

/- A headline gives the id and the kind, if it has no mark. -/
theorem Lines.headline_inj
    {node other kind third : String}
    (hNode : Quiet node)
    (hOther : Quiet other)
    (hKind : '(' ∉ kind.toList)
    (hThird : '(' ∉ third.toList)
    (h : headline node kind = headline other third) :
    node = other ∧ kind = third := by
  rw [headline, headline, commentSafe_of_quiet hNode,
    commentSafe_of_quiet hOther] at h
  have hOpen : " (" = " " ++ "(" := rfl
  rw [hOpen] at h
  simp only [String.append_assoc] at h
  rw [String.append_right_inj, ← String.toList_inj] at h
  have hReverse := congrArg List.reverse h
  have hMark : "(".toList = ['('] := rfl
  have hBlank : " ".toList = [' '] := rfl
  have hClose : ")".toList = [')'] := rfl
  simp only [String.toList_append, hMark, hBlank, hClose,
    List.reverse_append, List.reverse_cons, List.reverse_nil,
    List.nil_append, List.append_assoc, List.cons_append,
    List.cons.injEq, true_and] at hReverse
  rcases append_mark_inj (by simpa using hKind)
      (by simpa using hThird) hReverse with
    ⟨hKinds, hRest⟩
  rw [List.cons.injEq, List.reverse_inj] at hRest
  rw [List.reverse_inj] at hKinds
  exact
    ⟨String.toList_inj.mp hRest.2, String.toList_inj.mp hKinds⟩

namespace Block

variable {settings : Settings} {inline : Bool}

/- The lines of blocks start with a comment. -/
theorem takeWhile_lines
    (blocks : List Block) :
    (blocks.flatMap (lines settings)).takeWhile
        (fun line => !isComment line) =
      [] := by
  cases blocks with
  | nil => rfl
  | cons block blocks =>
      rw [List.flatMap_cons, lines, List.cons_append,
        List.takeWhile_cons]
      simp [headline, isComment_headline]

/- The comments cut the lines of blocks. -/
theorem lines_inj
    (hNamed : settings.Named)
    {blocks others : List Block}
    (hBlocks : ∀ block ∈ blocks, block.Written inline)
    (hOthers : ∀ other ∈ others, other.Written inline)
    (h :
      blocks.flatMap (lines settings) =
        others.flatMap (lines settings)) :
    List.Forall₂
      (fun block other =>
        block.headline = other.headline ∧
          ofText (block.code settings) =
            ofText (other.code settings))
      blocks others := by
  have hFront :
      ∀ (block : Block) (rest : List Block),
        block.Written inline →
          (ofText (block.code settings) ++
                rest.flatMap (lines settings)).takeWhile
              (fun line => !isComment line) =
            ofText (block.code settings) := by
    intro block rest hBlock
    rcases hBlock with ⟨stage, hWrites⟩
    have hCode := hWrites.isComment_code hNamed
    rw [List.takeWhile_append_of_pos (by simpa using hCode),
      takeWhile_lines, List.append_nil]
  induction blocks generalizing others with
  | nil =>
      cases others with
      | nil => exact .nil
      | cons other others => cases h
  | cons block blocks ih =>
      cases others with
      | nil => cases h
      | cons other others =>
          rw [List.forall_mem_cons] at hBlocks hOthers
          rw [List.flatMap_cons, List.flatMap_cons, lines,
            lines, List.cons_append, List.cons_append,
            List.cons.injEq] at h
          have hCode :
              ofText (block.code settings) =
                ofText (other.code settings) := by
            rw [← hFront block blocks hBlocks.1, h.2,
              hFront other others hOthers.1]
          have hRest := h.2
          rw [hCode, List.append_cancel_left_eq] at hRest
          exact
            .cons ⟨h.1, hCode⟩ (ih hBlocks.2 hOthers.2 hRest)

end Block

end FractalShader

------------------------------------------------------------
-- References
------------------------------------------------------------

namespace FractalShader

open Lines

/- A reference to a uniform: a slot or a cell. -/
def Reference.Uniform : Reference → Prop
  | .literal _ => False
  | .cell _ => True
  | .slot _ => True

/- No slot has the name of the array. -/
def Settings.Apart (settings : Settings) : Prop :=
  ∀ slot : Slot,
    slot.uniform settings.slotStem ≠ settings.paramArray

theorem Settings.apart_default
    (mode : Mode)
    (inline : Bool) :
    Apart { mode := mode, inlineLiterals := inline } := by
  have hApart :
      ∀ slot : Slot, slot.uniform "uParam" ≠ "uNodeParams" := by
    intro slot
    cases slot <;> decide
  exact hApart

theorem Slot.letter_injective :
    Function.Injective Slot.letter := by
  intro slot other h
  revert h
  cases slot <;> cases other <;> decide

variable {settings : Settings}

/- A reference to a uniform tells where it ends. -/
theorem Reference.append_inj
    (hWorded : settings.Worded)
    (hApart : settings.Apart)
    {reference other : Reference}
    (hReference : reference.Uniform)
    (hOther : other.Uniform)
    {xs ys : List (List Char)}
    (h :
      tokens (reference.text settings).toList ++ xs =
        tokens (other.text settings).toList ++ ys) :
    reference = other := by
  -- A slot is one word, and a cell starts with another.
  have hMixed :
      ∀ (slot : Slot) (index : Nat) (xs ys : List (List Char)),
        tokens ((Reference.slot slot).text settings).toList ++
            xs ≠
          tokens ((Reference.cell index).text settings).toList ++
            ys := by
    intro slot index xs ys hEq
    rw [tokens_word (word_slot hWorded slot),
      tokens_cell hWorded] at hEq
    simp only [List.cons_append, List.cons.injEq] at hEq
    exact hApart slot (String.toList_inj.mp hEq.1)
  cases reference with
  | literal value => cases hReference
  | slot slot =>
      cases other with
      | literal value => cases hOther
      | cell index => exact absurd h (hMixed slot index xs ys)
      | slot slot' =>
          rw [tokens_word (word_slot hWorded slot),
            tokens_word (word_slot hWorded slot')] at h
          simp only [List.cons_append, List.cons.injEq, text,
            Slot.uniform, String.toList_push] at h
          have hLetter := List.append_cancel_left h.1
          rw [List.cons.injEq] at hLetter
          rw [Slot.letter_injective hLetter.1]
  | cell index =>
      cases other with
      | literal value => cases hOther
      | slot slot =>
          exact absurd h.symm (hMixed slot index ys xs)
      | cell index' =>
          rw [tokens_cell hWorded, tokens_cell hWorded] at h
          simp only [List.cons_append, List.cons.injEq,
            true_and] at h
          rw [toString_inj (String.toList_inj.mp h.1)]

/- Behind a word of each the texts go on alike. -/
theorem Lines.word_append_inj
    {name other : String}
    (hName : Word name.toList)
    (hOther : Word other.toList)
    {xs ys : List (List Char)}
    (h :
      tokens name.toList ++ xs = tokens other.toList ++ ys) :
    xs = ys := by
  rw [tokens_word hName, tokens_word hOther] at h
  exact (List.cons.inj h).2

/- What a scope gives for some inputs is in uniforms. -/
def Scope.Uniform
    (settings : Settings)
    (inputs : List String)
    (scope : Scope) : Prop :=
  ∀ input ∈ inputs,
    ∃ reference : Reference,
      reference.Uniform ∧
        scope.param input = reference.text settings

namespace Template

/- The inputs whose references stand in a template. -/
def params (template : Template) : List String :=
  template.filterMap fun
    | .param input => some input
    | _ => none

/- What is put into a template can be read from the result. -/
theorem param_eq
    (hWorded : settings.Worded)
    (hApart : settings.Apart)
    {scope other : Scope}
    (hScope : scope.Worded)
    (hOther : other.Worded)
    {template : Template}
    (hReads : scope.Uniform settings template.params)
    (hOtherReads : other.Uniform settings template.params)
    (h :
      (template.flatMap fun piece =>
          tokens (piece.render scope).toList) =
        template.flatMap fun piece =>
          tokens (piece.render other).toList) :
    ∀ input ∈ template.params,
      scope.param input = other.param input := by
  induction template with
  | nil => simp [params]
  | cons piece template ih =>
      rw [List.flatMap_cons, List.flatMap_cons] at h
      cases piece with
      | text s =>
          exact
            ih hReads hOtherReads (List.append_cancel_left h)
      | output =>
          exact
            ih hReads hOtherReads
              (word_append_inj hScope.output hOther.output h)
      | inputA =>
          exact
            ih hReads hOtherReads
              (word_append_inj hScope.inputA hOther.inputA h)
      | inputB =>
          exact
            ih hReads hOtherReads
              (word_append_inj hScope.inputB hOther.inputB h)
      | param input =>
          have hParams :
              params (.param input :: template) =
                input :: params template := rfl
          rw [hParams, Scope.Uniform, List.forall_mem_cons]
            at hReads
          rw [hParams, Scope.Uniform, List.forall_mem_cons]
            at hOtherReads
          rw [hParams, List.forall_mem_cons]
          rcases hReads.1 with ⟨r, hUniform, hText⟩
          rcases hOtherReads.1 with ⟨r', hUniform', hText'⟩
          simp only [Piece.render] at h
          have hSame : scope.param input = other.param input := by
            rw [hText, hText'] at h ⊢
            rw [Reference.append_inj hWorded hApart hUniform
              hUniform' h]
          rw [hSame] at h
          exact
            ⟨hSame,
              ih hReads.2 hOtherReads.2
                (List.append_cancel_left h)⟩

end Template

end FractalShader

------------------------------------------------------------
-- Code of a Block
------------------------------------------------------------

namespace FractalShader

open Lines

namespace Block

variable {settings : Settings} {block other : Block}

/- Every block reads some outputs. -/
theorem exists_reads
    (hWorded : settings.Worded)
    (hUnstaged : settings.Unstaged)
    (block : Block) :
    ∃ done, (block.scope settings).Reads done := by
  have hOne : ∀ var : Var, ∃ done, var.Among done := by
    intro var
    cases var with
    | state => exact ⟨[], trivial⟩
    | stage index => exact ⟨[index], List.mem_cons_self⟩
  have hSome :
      ∃ done, ∀ var ∈ block.inputB, var.Among done := by
    cases block.inputB with
    | none => exact ⟨[], by simp⟩
    | some var => simpa using hOne var
  rcases hOne block.inputA with ⟨first, hFirst⟩
  rcases hSome with ⟨second, hSecond⟩
  refine
    ⟨block.index :: (first ++ second),
      reads_scope hWorded hUnstaged List.mem_cons_self
        (hFirst.mono ?_) fun var hVar =>
          (hSecond var hVar).mono ?_⟩
  · intro index hIndex
    simp [hIndex]
  · intro index hIndex
    simp [hIndex]

/-
  Code of one template gives what is put into it: the
  declaration has five tokens, a guard is known by the sign
  of the remainder, and its line has twelve.
-/
theorem Filled.fillings_eq
    {template : Template}
    (h : block.Filled template)
    (hOther : other.Filled template)
    (hCalm : template.Calm)
    (hWorded : settings.Worded)
    (hUnstaged : settings.Unstaged)
    (hCode :
      tokens (block.code settings).toList =
        tokens (other.code settings).toList) :
    block.fillings settings template =
      other.fillings settings template := by
  have hUntested :
      ∀ block : Block,
        ['%'] ∉ block.fillings settings template := by
    intro block
    rcases exists_reads hWorded hUnstaged block with
      ⟨done, hReads⟩
    exact (hCalm.still hReads).untested
  have hTested :
      ∀ guard,
        ['%'] ∈ tokens (test settings guard).toList := by
    intro guard
    simp [tokens_test hWorded]
  have hOpening :
      (tokens (block.declaration settings).toList).length =
        (tokens (other.declaration settings).toList).length :=
    by simp [tokens_declaration hWorded]
  cases hGuard : block.guard with
  | none =>
      rw [h.tokens_code hWorded hGuard] at hCode
      cases hOtherGuard : other.guard with
      | none =>
          rw [hOther.tokens_code hWorded hOtherGuard] at hCode
          exact (List.append_inj hCode hOpening).2
      | some guard =>
          rw [hOther.tokens_code_guarded hWorded hOtherGuard]
            at hCode
          have hRest := (List.append_inj hCode hOpening).2
          refine absurd ?_ (hUntested block)
          rw [hRest]
          exact List.mem_append_left _ (hTested guard)
  | some guard =>
      rw [h.tokens_code_guarded hWorded hGuard] at hCode
      cases hOtherGuard : other.guard with
      | none =>
          rw [hOther.tokens_code hWorded hOtherGuard] at hCode
          have hRest := (List.append_inj hCode hOpening).2
          refine absurd ?_ (hUntested other)
          rw [← hRest]
          exact List.mem_append_left _ (hTested guard)
      | some guard' =>
          rw [hOther.tokens_code_guarded hWorded hOtherGuard]
            at hCode
          have hRest := (List.append_inj hCode hOpening).2
          have hLine :
              (tokens (test settings guard).toList).length =
                (tokens
                  (test settings guard').toList).length := by
            simp [tokens_test hWorded]
          exact
            List.append_cancel_right
              (List.append_inj hRest hLine).2

end Block

end FractalShader

------------------------------------------------------------
-- Stages
------------------------------------------------------------

namespace FractalShader

open Lines

namespace BuiltIn

/- A kind has one template. -/
theorem template_unique :
    ∀ entry ∈ templates, ∀ other ∈ templates,
      entry.1 = other.1 → entry = other := by
  decide

/- The inputs of a kind are those in its template. -/
theorem params_templates :
    ∀ kind ∈ kinds, ∀ entry ∈ templates,
      entry.1 = kind.id →
        entry.2.params ⊆ kind.inputs.map Input.id ∧
          kind.inputs.map Input.id ⊆ entry.2.params := by
  decide

end BuiltIn

namespace Stage

/- Stages of one id and kind whose inputs have the same slots. -/
structure Twins (stage other : Stage) : Prop where
  id : stage.id = other.id
  kind : stage.kind = other.kind
  slot :
    ∀ input ∈ Catalog.builtIn.inputs stage.kind,
      stage.slot? input = other.slot? input

variable {stage other : Stage} {block third : Block}
variable {settings : Settings}

/- What the statements of a stage get for an input. -/
theorem Writes.param_eq
    {catalog : Catalog}
    (h : stage.Writes catalog false block)
    (hDistinct : catalog.Distinct)
    (settings : Settings)
    {input : Input}
    (hInput : input ∈ catalog.inputs stage.kind) :
    ∃ first earlier,
      (block.scope settings).param input.id =
        (stage.reference false first earlier input).text
          settings := by
  rcases h with
    ⟨kind, index, outputs, references, cells, hKind, hFound,
      rfl⟩
  rcases List.append_of_mem hInput with
    ⟨earlier, later, hSplit⟩
  exact
    ⟨outputs.cells, earlier,
      param_block hDistinct hKind hFound hSplit settings
        index⟩

theorem uniform_reference
    (stage : Stage)
    (first : Nat)
    (earlier : List Input)
    (input : Input) :
    (stage.reference false first earlier
      input).Uniform := by
  unfold reference
  split <;> trivial

/- A reference tells the slot. -/
theorem slot?_of_reference
    {first second : Nat}
    {earlier before : List Input}
    {input : Input}
    (h :
      stage.reference false first earlier input =
        other.reference false second before input) :
    stage.slot? input = other.slot? input := by
  simp only [reference, Bool.false_eq_true, if_false] at h
  split at h <;> split at h <;> simp_all

/- The kind of a built-in stage has no mark in its id. -/
theorem Writes.exists_kind
    {inline : Bool}
    (h : stage.Writes .builtIn inline block) :
    ∃ kind ∈ BuiltIn.kinds,
      kind.id = stage.kind ∧
        Catalog.builtIn.inputs stage.kind = kind.inputs ∧
        '(' ∉ stage.kind.toList := by
  have hKinds :
      ∀ kind ∈ BuiltIn.kinds, '(' ∉ kind.id.toList := by
    decide
  rcases h with ⟨kind, _, _, _, _, hKind, _, _⟩
  rcases Catalog.find?_ofKinds hKind with ⟨hMem, hId⟩
  refine ⟨kind, hMem, hId, Catalog.inputs_eq hKind, ?_⟩
  rw [← hId]
  exact hKinds kind hMem

/- What stands in the template are references to uniforms. -/
theorem Writes.uniform
    (h : stage.Writes .builtIn false block)
    (settings : Settings)
    {template : Template}
    (hTemplate :
      (stage.kind, template) ∈ BuiltIn.templates) :
    (block.scope settings).Uniform settings
      template.params := by
  intro id hId
  rcases h.exists_kind with ⟨kind, hKind, hName, hInputs, _⟩
  have hDeclared :=
    (BuiltIn.params_templates kind hKind _ hTemplate
      hName.symm).1 hId
  rcases List.mem_map.mp hDeclared with ⟨input, hInput, rfl⟩
  rw [← hInputs] at hInput
  rcases h.param_eq Catalog.distinct_builtIn settings hInput
    with ⟨first, earlier, hParam⟩
  exact
    ⟨_, stage.uniform_reference first earlier input, hParam⟩

/- Equal code below equal headlines is that of twins. -/
theorem Writes.twins
    (h : stage.Writes .builtIn false block)
    (hOther : other.Writes .builtIn false third)
    (hWorded : settings.Worded)
    (hUnstaged : settings.Unstaged)
    (hApart : settings.Apart)
    (hQuiet : Quiet stage.id ∧ Quiet other.id)
    (hHeadline : block.headline = third.headline)
    (hCode :
      ofText (block.code settings) =
        ofText (third.code settings)) :
    stage.Twins other := by
  rcases h.exists_kind with
    ⟨kind, hKind, hName, hInputs, hMark⟩
  rcases hOther.exists_kind with ⟨_, _, _, _, hOtherMark⟩
  rw [h.headline_eq, hOther.headline_eq] at hHeadline
  rcases headline_inj hQuiet.1 hQuiet.2 hMark hOtherMark
      hHeadline with
    ⟨hId, hSame⟩
  rcases h.exists_filled with ⟨template, hMem, hFilled⟩
  rcases hOther.exists_filled with
    ⟨template', hOtherMem, hOtherFilled⟩
  have hTemplate : template = template' :=
    congrArg Prod.snd
      (BuiltIn.template_unique _ hMem _ hOtherMem hSame)
  subst hTemplate
  have hTokens :
      tokens (block.code settings).toList =
        tokens (third.code settings).toList := by
    rw [← tokens_ofText (hFilled.printed_code hWorded)
        (h.lined.ended_code settings),
      ← tokens_ofText (hOtherFilled.printed_code hWorded)
        (hOther.lined.ended_code settings),
      hCode]
  have hFillings :=
    hFilled.fillings_eq hOtherFilled
      (BuiltIn.calm_templates _ hMem) hWorded hUnstaged
      hTokens
  have hParams :=
    Template.param_eq hWorded hApart
      (block.worded_scope hWorded) (third.worded_scope hWorded)
      (h.uniform settings hMem)
      (hOther.uniform settings hOtherMem) hFillings
  refine ⟨hId, hSame, fun input hInput => ?_⟩
  have hOwn :=
    h.param_eq Catalog.distinct_builtIn settings hInput
  have hTheirs :=
    hOther.param_eq Catalog.distinct_builtIn settings
      (hSame ▸ hInput)
  rw [hInputs] at hInput
  have hPlace :=
    (BuiltIn.params_templates kind hKind _ hMem
      hName.symm).2 (List.mem_map_of_mem hInput)
  rcases hOwn with ⟨first, earlier, hOwn⟩
  rcases hTheirs with ⟨second, before, hTheirs⟩
  have hText := hParams _ hPlace
  rw [hOwn, hTheirs] at hText
  exact
    slot?_of_reference
      (Reference.append_inj hWorded hApart
        (stage.uniform_reference first earlier input)
        (other.uniform_reference second before input)
        (congrArg (fun s => tokens s.toList ++ []) hText))

end Stage

end FractalShader

------------------------------------------------------------
-- Fragments
------------------------------------------------------------

namespace FractalShader

open Lines

/- Twins have the same cells. -/
theorem Stage.Twins.unbound_eq
    {stage other : Stage}
    (h : stage.Twins other) :
    (stage.unbound (Catalog.builtIn.inputs stage.kind)).map
        (fun input => (⟨stage.id, input.id⟩ : Cell)) =
      (other.unbound (Catalog.builtIn.inputs other.kind)).map
        fun input => ⟨other.id, input.id⟩ := by
  have hSame :
      stage.unbound (Catalog.builtIn.inputs stage.kind) =
        other.unbound (Catalog.builtIn.inputs stage.kind) := by
    apply List.filter_congr
    intro input hInput
    rw [h.slot input hInput]
  rw [hSame, h.kind, h.id]

namespace Program

variable {settings : Settings}

/- Blocks of one text belong to stages that are twins. -/
theorem twins_of_blocks
    (hWorded : settings.Worded)
    (hUnstaged : settings.Unstaged)
    (hApart : settings.Apart)
    {stages others : List Stage}
    {blocks thirds : List Block}
    (hStages : ∀ stage ∈ stages, Quiet stage.id)
    (hOthers : ∀ other ∈ others, Quiet other.id)
    (hWrites :
      List.Forall₂ (Stage.Writes .builtIn false) stages blocks)
    (hOtherWrites :
      List.Forall₂ (Stage.Writes .builtIn false) others thirds)
    (hLines :
      List.Forall₂
        (fun (block third : Block) =>
          block.headline = third.headline ∧
            ofText (block.code settings) =
              ofText (third.code settings))
        blocks thirds) :
    List.Forall₂ Stage.Twins stages others := by
  induction hLines generalizing stages others with
  | nil =>
      cases hWrites
      cases hOtherWrites
      exact .nil
  | cons hFirst _ ih =>
      cases hWrites with
      | cons hWrites hMore =>
          cases hOtherWrites with
          | cons hOtherWrites hOtherMore =>
              rw [List.forall_mem_cons] at hStages hOthers
              exact
                .cons
                  (hWrites.twins hOtherWrites hWorded
                    hUnstaged hApart ⟨hStages.1, hOthers.1⟩
                    hFirst.1 hFirst.2)
                  (ih hStages.2 hOthers.2 hMore hOtherMore)

/- Programs of one text have blocks of one text. -/
theorem lines_of_source
    {inline : Bool}
    {program other : Program}
    (hBlocks : ∀ block ∈ program.blocks, block.Written inline)
    (hOthers : ∀ block ∈ other.blocks, block.Written inline)
    (hNamed : settings.Named)
    (hWorded : settings.Worded)
    (h : program.source settings = other.source settings) :
    List.Forall₂
      (fun (block third : Block) =>
        block.headline = third.headline ∧
          ofText (block.code settings) =
            ofText (third.code settings))
      program.blocks other.blocks := by
  have hLines := congrArg ofText h
  rw [ofText_source (Block.lined_of_written hBlocks),
    ofText_source (Block.lined_of_written hOthers), closing_eq,
    closing_eq,
    ofText_line (quiet_lastLine hWorded program),
    ofText_line (quiet_lastLine hWorded other)] at hLines
  exact
    Block.lines_inj hNamed hBlocks hOthers
      (List.append_inj' hLines rfl).1

end Program

namespace Fragment

/- The cells of stages that are twins are the same. -/
theorem layout_of_twins
    {p q : Pipeline}
    {f g : Fragment}
    (hF : f.Laid .builtIn {} p)
    (hG : g.Laid .builtIn {} q)
    (h :
      List.Forall₂ Stage.Twins
        (p.filter fun stage => stage.enabled)
        (q.filter fun stage => stage.enabled)) :
    f.layout = g.layout := by
  rw [hF.layout, hG.layout, Catalog.unbound, Catalog.unbound]
  generalize p.filter (fun stage => stage.enabled) = stages
    at h
  generalize q.filter (fun stage => stage.enabled) = others
    at h
  simp only [List.map_flatMap, List.map_map]
  induction h with
  | nil => rfl
  | cons hFirst _ ih =>
      rw [List.flatMap_cons, List.flatMap_cons, ih]
      congr 1
      exact hFirst.unbound_eq

/-
  Two fragments whose declarations and texts have the same
  bytes, one after the other, are the same apart from their
  values, whatever ids without control characters there are.
-/
theorem determined_by_text
    {p q : Pipeline}
    (hP : ∀ stage ∈ p, Quiet stage.id)
    (hQ : ∀ stage ∈ q, Quiet stage.id)
    {f g : Fragment}
    (hF : ofPipeline .builtIn {} p = .ok f)
    (hG : ofPipeline .builtIn {} q = .ok g)
    (hBytes :
      (f.declarations ++ f.source).toUTF8 =
        (g.declarations ++ g.source).toUTF8) :
    f.declarations = g.declarations ∧
      f.source = g.source ∧ f.layout = g.layout := by
  have hNamed := Settings.named_default .auto false
  have hWorded := Settings.worded_default .auto false
  have hUnstaged := Settings.unstaged_default .auto false
  have hApart := Settings.apart_default .auto false
  rcases exists_program hF with ⟨program, hProgram, rfl⟩
  rcases exists_program hG with ⟨other, hOther, rfl⟩
  have hText := String.toByteArray_inj.mp hBytes
  have hCells :
      program.cells.length = other.cells.length :=
    Settings.declarations_append_inj hText
  have hDeclarations :
      (program.fragment {}).declarations =
        (other.fragment {}).declarations := by
    simp only [Program.fragment, hCells]
  rw [hDeclarations, String.append_right_inj] at hText
  have hWrites := Program.writes_of_assemble hProgram
  have hOtherWrites := Program.writes_of_assemble hOther
  have hLines :=
    Program.lines_of_source
      (Program.written_of_writes hWrites)
      (Program.written_of_writes hOtherWrites) hNamed hWorded
      hText
  have hTwins :=
    Program.twins_of_blocks hWorded hUnstaged hApart
      (fun stage hStage => hP stage (List.mem_filter.mp hStage).1)
      (fun stage hStage => hQ stage (List.mem_filter.mp hStage).1)
      hWrites hOtherWrites hLines
  refine ⟨hDeclarations, hText, ?_⟩
  exact
    layout_of_twins
      (laid_of_cells
        (Program.assembles_of_assemble hProgram).cells_eq)
      (laid_of_cells
        (Program.assembles_of_assemble hOther).cells_eq)
      hTwins

/- A stage whose id looks like a headline and like code. -/
def labelled
    (scale : F32)
    (rest : Pipeline) : Pipeline :=
  { id := "s (rotate)) v1 = z; // (scale)"
    kind := "scale"
    params := Dict.empty.insert "scale" scale } :: rest

/- A stage that does not run. -/
def resting : Stage where
  id := "t"
  kind := "blend"
  enabled := false

theorem determined_by_text_labelled :
    (∀ stage ∈ labelled (.ofInt 2) [], Quiet stage.id) ∧
      (∀ stage ∈ labelled (.ofInt 3) [resting],
        Quiet stage.id) ∧
      ∃ f g,
        ofPipeline .builtIn {} (labelled (.ofInt 2) []) =
            .ok f ∧
          ofPipeline .builtIn {}
              (labelled (.ofInt 3) [resting]) =
            .ok g ∧
          (f.declarations ++ f.source).toUTF8 =
            (g.declarations ++ g.source).toUTF8 ∧
          f.declarations = g.declarations ∧
          f.source = g.source ∧ f.layout = g.layout := by
  have hP :
      ∀ stage ∈ labelled (.ofInt 2) [], Quiet stage.id := by
    decide
  have hQ :
      ∀ stage ∈ labelled (.ofInt 3) [resting],
        Quiet stage.id := by
    decide
  have hFrames :
      (Program.ofPipeline .builtIn false
            (labelled (.ofInt 2) [])).map Program.frame =
        (Program.ofPipeline .builtIn false
            (labelled (.ofInt 3) [resting])).map
          Program.frame :=
    rfl
  have hKnown :
      ∀ stage ∈ labelled (.ofInt 2) [],
        Catalog.builtIn.contains stage.kind = true := by
    decide
  rcases (exists_ofPipeline_iff Catalog.proper_builtIn {}
      (labelled (.ofInt 2) [])).mpr hKnown with
    ⟨f, hF⟩
  rcases exists_program hF with ⟨program, hProgram, rfl⟩
  rcases Answers.cases_of_map_eq hFrames with
    ⟨why, hNone, _⟩ | ⟨found, other, hFound, hOther, hFrame⟩
  · cases hNone.symm.trans hProgram
  · cases hFound.symm.trans hProgram
    have hG :
        ofPipeline .builtIn {}
            (labelled (.ofInt 3) [resting]) =
          .ok (other.fragment {}) := by
      simp only [ofPipeline, hOther]
      rfl
    have hBytes :
        ((program.fragment {}).declarations ++
              (program.fragment {}).source).toUTF8 =
          ((other.fragment {}).declarations ++
              (other.fragment {}).source).toUTF8 := by
      rcases Program.fragment_of_frame {} hFrame with
        ⟨hSource, hDeclarations, _, _⟩
      rw [hSource, hDeclarations]
    exact
      ⟨hP, hQ, _, _, hF, hG, hBytes,
        determined_by_text hP hQ hF hG hBytes⟩

end Fragment

end FractalShader
