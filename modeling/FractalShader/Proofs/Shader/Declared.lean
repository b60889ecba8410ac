import FractalShader.Proofs.Shader.Scopes

/-
  Programs declare every variable once, before its use.

  What a stage reads is the state or the output of an
  enabled stage before it, whatever ids and sources the
  stages have.  So each block uses what the blocks before it
  declare, and declares its own output before any guard.

  Main declarations:
    * `Var.Among`
    * `Program.Runs`
    * `Program.Assembles.runs`
    * `Program.Runs.split`
    * `Block.Calm.scoped_code`
    * `Program.Runs.scoped`
    * `Program.Declares`
    * `Fragment.declares_before_use`
-/

------------------------------------------------------------
-- Variables at Hand
------------------------------------------------------------

namespace FractalShader

/- A variable that is the state or the output of a stage. -/
def Var.Among (done : List Nat) : Var → Prop
  | .state => True
  | .stage index => index ∈ done

theorem Var.Among.mono
    {done more : List Nat}
    {var : Var}
    (h : var.Among done)
    (hMore : done ⊆ more) :
    var.Among more := by
  cases var with
  | state => trivial
  | stage index => exact hMore h

namespace Outputs

/- What may be read are outputs of some stages. -/
structure Among
    (done : List Nat)
    (outputs : Outputs) : Prop where
  latest : outputs.latest.Among done
  named :
    ∀ id var, outputs.named.lookup id = some var →
      var.Among done

variable {done : List Nat} {outputs : Outputs}

theorem among_start : Outputs.start.Among [] where
  latest := trivial
  named := by
    intro id var hFound
    cases hFound

/- Any source reads one of them. -/
theorem Among.read
    (h : outputs.Among done)
    (source : Option String) :
    (outputs.read source).Among done := by
  cases source with
  | none => exact h.latest
  | some id =>
      unfold Outputs.read
      dsimp only
      split
      · trivial
      · cases hFound : outputs.named.lookup id with
        | none => exact h.latest
        | some var => exact h.named id var hFound

/- A stage adds its own. -/
theorem Among.push
    (h : outputs.Among done)
    (id : String)
    {var : Var}
    {more : List Nat}
    (hVar : var.Among (done ++ more))
    (cells : Nat) :
    (outputs.push id var cells).Among (done ++ more) where
  latest := hVar
  named := by
    intro other found hFound
    simp only [Outputs.push, List.lookup_cons] at hFound
    split at hFound
    · cases hFound
      exact hVar
    · exact
        (h.named other found hFound).mono
          (List.subset_append_left done more)

end Outputs

end FractalShader

------------------------------------------------------------
-- Programs that Run
------------------------------------------------------------

namespace FractalShader

namespace Program

/-
  Blocks that run one after the other: each reads the state
  or outputs of earlier blocks, and so does the result.
-/
inductive Runs : List Nat → List Block → Var → Prop where
  | result
      {done : List Nat}
      {result : Var}
      (hResult : result.Among done) :
      Runs done [] result
  | block
      {done : List Nat}
      {block : Block}
      {blocks : List Block}
      {result : Var}
      (hFirst : block.inputA.Among done)
      (hSecond : ∀ var ∈ block.inputB, var.Among done)
      (hRest : Runs (done ++ [block.index]) blocks result) :
      Runs done (block :: blocks) result

variable {catalog : Catalog} {inline : Bool}
variable {index : Nat} {outputs : Outputs} {p : Pipeline}
variable {program : Program} {done : List Nat}

/- The blocks of a program run, whatever their sources are. -/
theorem Assembles.runs
    (h : Assembles catalog inline index outputs p program)
    (hOutputs : outputs.Among done) :
    Runs done program.blocks program.result := by
  induction h generalizing done with
  | nil => exact .result hOutputs.latest
  | @enabled index outputs stage rest kind references cells
      program hKind hEnabled hFound hRest ih =>
      have hOwn : (Var.stage index).Among (done ++ [index]) :=
        List.mem_append_right done List.mem_cons_self
      refine
        .block (hOutputs.read _) ?_
          (ih (hOutputs.push stage.id hOwn _))
      intro var hVar
      unfold Stage.block at hVar
      dsimp only at hVar
      cases hArity : kind.arity with
      | single =>
          rw [hArity] at hVar
          cases hVar
      | dual =>
          rw [hArity] at hVar
          rcases Option.map_eq_some_iff.mp hVar with
            ⟨source, _, rfl⟩
          exact hOutputs.read _
  | @disabled index outputs stage rest kind program hKind
      hDisabled hRest ih =>
      have hSame := hOutputs.read stage.sources.a
      rw [← List.append_nil done] at hSame ⊢
      exact ih (hOutputs.push stage.id hSame 0)

/-
  The blocks before another run as well, with an input of
  that block for the result.
-/
theorem Runs.split
    {earlier later : List Block}
    {block : Block}
    {result : Var}
    (h : Runs done (earlier ++ block :: later) result) :
    Runs done earlier block.inputA ∧
      ∀ var ∈ block.inputB, Runs done earlier var := by
  induction earlier generalizing done with
  | nil =>
      cases h with
      | block hFirst hSecond _ =>
          exact
            ⟨.result hFirst,
              fun var hVar => .result (hSecond var hVar)⟩
  | cons first earlier ih =>
      cases h with
      | block hFirst hSecond hRest =>
          rcases ih hRest with ⟨hNext, hOther⟩
          exact
            ⟨.block hFirst hSecond hNext,
              fun var hVar =>
                .block hFirst hSecond (hOther var hVar)⟩

/- The result is the output of one of the blocks. -/
theorem Runs.among
    {blocks : List Block}
    {result : Var}
    (h : Runs done blocks result) :
    result.Among (done ++ blocks.map Block.index) := by
  induction h with
  | result hResult => simpa using hResult
  | block _ _ _ ih => simpa using ih

end Program

/- The numbers of the enabled stages. -/
def Pipeline.enabledFrom
    (index : Nat)
    (p : Pipeline) : List Nat :=
  ((p.zipIdx index).filter fun e => e.1.enabled).map Prod.snd

/- Each enabled stage has a block with its number. -/
theorem Program.Assembles.indices_eq
    {catalog : Catalog}
    {inline : Bool}
    {index : Nat}
    {outputs : Outputs}
    {p : Pipeline}
    {program : Program}
    (h : Assembles catalog inline index outputs p program) :
    program.blocks.map Block.index =
      Pipeline.enabledFrom index p := by
  unfold Pipeline.enabledFrom
  induction h with
  | nil => rfl
  | enabled _ hEnabled _ _ ih =>
      rw [List.zipIdx_cons, List.filter_cons,
        if_pos hEnabled, List.map_cons, List.map_cons, ih]
      rfl
  | disabled _ hDisabled _ ih =>
      rw [List.zipIdx_cons, List.filter_cons,
        if_neg (by simp [hDisabled]), ih]

/- They increase. -/
theorem Pipeline.pairwise_enabledFrom
    (index : Nat)
    (p : Pipeline) :
    (Pipeline.enabledFrom index p).Pairwise (· < ·) := by
  have hPart :
      (Pipeline.enabledFrom index p).Sublist
        ((p.zipIdx index).map Prod.snd) :=
    List.filter_sublist.map _
  rw [List.zipIdx_map_snd] at hPart
  exact List.Pairwise.sublist hPart List.pairwise_lt_range'

end FractalShader

------------------------------------------------------------
-- Names
------------------------------------------------------------

namespace FractalShader

open Lines

/- Apart from the outputs no name is that of an output. -/
structure Settings.Unstaged (settings : Settings) : Prop where
  stateVar : stage? settings.stateVar.toList = none
  iterationVar : stage? settings.iterationVar.toList = none
  paramArray : stage? settings.paramArray.toList = none
  slot :
    ∀ slot : Slot,
      stage? (slot.uniform settings.slotStem).toList = none

theorem Settings.unstaged_default
    (mode : Mode)
    (inline : Bool) :
    Unstaged { mode := mode, inlineLiterals := inline } := by
  have hState : stage? "z".toList = none := by decide
  have hIteration : stage? "i".toList = none := by
    decide
  have hArray : stage? "uNodeParams".toList = none := by
    decide
  have hSlot :
      ∀ slot : Slot,
        stage? (slot.uniform "uParam").toList = none := by
    intro slot
    cases slot <;> decide
  exact ⟨hState, hIteration, hArray, hSlot⟩

variable {settings : Settings}

/- Only the outputs at hand are named. -/
theorem Var.Among.named
    {done : List Nat}
    {var : Var}
    (h : var.Among done)
    (hUnstaged : settings.Unstaged) :
    ∀ index ∈ stage? (var.text settings).toList,
      index ∈ done := by
  intro index hIndex
  cases var with
  | state =>
      rw [text, hUnstaged.stateVar] at hIndex
      cases hIndex
  | stage number =>
      rw [text, stage?_name] at hIndex
      cases hIndex
      exact h

/- The reference of an input names no output. -/
theorem Reference.inert_text
    (hWorded : settings.Worded)
    (hUnstaged : settings.Unstaged)
    (reference : Reference) :
    ∀ token ∈ tokens (reference.text settings).toList,
      Inert token := by
  cases reference with
  | literal value => exact fun token h => inert_literal h
  | slot slot =>
      have hWord := word_slot hWorded slot
      rw [tokens_word hWord]
      simp only [List.mem_singleton, forall_eq]
      exact ⟨hUnstaged.slot slot, hWord.not_mem_controls⟩
  | cell index =>
      have hArray : Inert settings.paramArray.toList :=
        ⟨hUnstaged.paramArray,
          hWorded.paramArray.not_mem_controls⟩
      rw [tokens_cell hWorded]
      simp only [List.forall_mem_cons]
      refine
        ⟨hArray, inert_of_not_mem (by simp),
          inert_toString index, inert_of_not_mem (by simp),
          by simp⟩

end FractalShader

------------------------------------------------------------
-- Code of a Block
------------------------------------------------------------

namespace FractalShader

open Lines

namespace Block

/- A block of a calm template with a guard that may pass. -/
structure Calm (block : Block) : Prop where
  filled :
    ∃ template : Template,
      template.Calm ∧ block.Filled template
  guard :
    ∀ guard ∈ block.guard,
      1 ≤ guard.modulus ∧ guard.remainder < guard.modulus

/- The line that declares the output of a block. -/
def opening
    (settings : Settings)
    (block : Block) : String :=
  "vec4 " ++ block.output.text settings ++ " = " ++
    block.inputA.text settings ++ ";"

variable {settings : Settings} {block : Block}
variable {done : List Nat} {code : List String}

theorem declaration_eq
    (settings : Settings)
    (block : Block) :
    block.declaration settings =
      block.opening settings ++ "\n" := by
  have hEnd : ";\n" = ";" ++ "\n" := rfl
  rw [declaration, hEnd, opening]
  simp only [String.append_assoc]

theorem quiet_opening
    (h : settings.Worded)
    (block : Block) :
    Quiet (block.opening settings) := by
  have hVector : Quiet "vec4 " := by decide
  have hTakes : Quiet " = " := by decide
  have hEnd : Quiet ";" := by decide
  have hOutput := (block.output.word_text h).quiet
  have hInput := (block.inputA.word_text h).quiet
  exact
    (((hVector.append hOutput).append hTakes).append
      hInput).append hEnd

theorem tokens_opening
    (h : settings.Worded)
    (block : Block) :
    tokens (block.opening settings).toList =
      [ "vec4".toList, (block.output.text settings).toList
      , ['='], (block.inputA.text settings).toList
      , [';'] ] := by
  rw [← tokens_declaration h, declaration_eq, tokens_line]

/- What a block puts into its template. -/
theorem reads_scope
    (hWorded : settings.Worded)
    (hUnstaged : settings.Unstaged)
    (hOwn : block.index ∈ done)
    (hFirst : block.inputA.Among done)
    (hSecond : ∀ var ∈ block.inputB, var.Among done) :
    (block.scope settings).Reads done where
  worded := block.worded_scope hWorded
  output := by
    have hOutput : block.output.Among done := hOwn
    exact hOutput.named hUnstaged
  inputA := hFirst.named hUnstaged
  inputB := by
    unfold Scope.inputB scope
    dsimp only
    cases hInput : block.inputB with
    | none => exact hFirst.named hUnstaged
    | some var => exact (hSecond var hInput).named hUnstaged
  param := by
    intro input
    have hZero : tokens "0.0".toList = [['0'], ['.'], ['0']] := by
      decide
    rcases block.param_cases settings input with
      hNone | ⟨r, _, hText⟩
    · rw [hNone, hZero]
      simp only [List.forall_mem_cons]
      refine ⟨?_, ?_, ?_, by simp⟩ <;>
        exact inert_of_not_mem (by simp)
    · rw [hText]
      exact r.2.inert_text hWorded hUnstaged

theorem stage?_output
    (settings : Settings)
    (block : Block) :
    stage? (block.output.text settings).toList =
      some block.index :=
  stage?_name block.index

theorem declared_opening
    (h : settings.Worded)
    (block : Block) :
    declared (block.opening settings) = [block.index] := by
  have hVector : Word "vec4".toList := by decide
  have hTakes : stage? ['='] = none ∧ isWord ['='] = false :=
    ⟨rfl, rfl⟩
  have hEnd : stage? [';'] = none := rfl
  rw [declared, tokens_opening h]
  simp only [declaredAfter, hVector.isWord, stage?_output,
    hTakes, hEnd]
  simp

/- A declaration uses what its input names. -/
theorem used_opening
    (h : settings.Worded)
    (block : Block) :
    used (block.opening settings) =
      (stage? (block.inputA.text settings).toList).toList := by
  have hVector : stage? "vec4".toList = none := by
    decide
  have hTakes : stage? ['='] = none := rfl
  have hEnd : stage? [';'] = none := rfl
  rw [used, declared_opening h, mentioned, tokens_opening h]
  simp only [List.filterMap_cons, hVector, stage?_output,
    hTakes, hEnd, List.filterMap_nil, List.diff_cons,
    List.diff_nil, List.erase_cons_head]
  cases stage? (block.inputA.text settings).toList <;> rfl

/- A declaration has no braces, and computes no remainder. -/
theorem plain_opening
    (h : settings.Worded)
    (block : Block) :
    ∀ token ∈ tokens (block.opening settings).toList,
      token ∉ controls := by
  have hVector : Word "vec4".toList := by decide
  have hOutput := block.output.word_text h
  have hInput := block.inputA.word_text h
  rw [tokens_opening h]
  simp only [List.forall_mem_cons]
  exact
    ⟨hVector.not_mem_controls, hOutput.not_mem_controls,
      by decide, hInput.not_mem_controls, by decide, by simp⟩

/- A block declares its output where every brace is closed. -/
theorem scoped_opening
    (hWorded : settings.Worded)
    (hUnstaged : settings.Unstaged)
    (hFirst : block.inputA.Among done)
    (hCode : Scoped settings done code)
    (hLevel : Level code) :
    Scoped settings (done ++ [block.index])
      (code ++ [block.opening settings]) := by
  have hUsed :
      ∀ index ∈ used (block.opening settings),
        index ∈ done := by
    intro index hIndex
    rw [used_opening hWorded, Option.mem_toList] at hIndex
    exact hFirst.named hUnstaged index hIndex
  rw [← declared_opening hWorded block]
  exact
    hCode.line (fun _ => hLevel) hUsed fun hTest =>
      absurd List.mem_cons_self
        (plain_opening hWorded block _ hTest)

/- The line of a guard names nothing, and may pass. -/
theorem scoped_test
    (hWorded : settings.Worded)
    (hUnstaged : settings.Unstaged)
    {guard : Guard}
    (hGuard :
      1 ≤ guard.modulus ∧ guard.remainder < guard.modulus)
    (hCode : Scoped settings done code) :
    Scoped settings done
      (code ++ [test settings guard]) := by
  have hUnnamed :
      ∀ token ∈ tokens (test settings guard).toList,
        stage? token = none := by
    have hIf : stage? "if".toList = none := by decide
    rw [tokens_test hWorded]
    simp only [List.forall_mem_cons, hIf,
      hUnstaged.iterationVar, (inert_toString _).unnamed]
    simp [stage?]
  have hDeclared : declared (test settings guard) = [] :=
    declaredAfter_of_unnamed hUnnamed
  have hMentioned : mentioned (test settings guard) = [] :=
    List.filterMap_eq_nil_iff.mpr hUnnamed
  have hNext :
      Scoped settings (done ++ declared (test settings guard))
        (code ++ [test settings guard]) := by
    refine
      hCode.line (fun hSome => absurd hDeclared hSome) ?_
        fun _ => ⟨guard, rfl, hGuard⟩
    rw [used, hMentioned, List.nil_diff]
    simp
  rwa [hDeclared, List.append_nil] at hNext

/- It opens a brace. -/
theorem depth_test
    (h : settings.Worded)
    (guard : Guard)
    (n : Nat) :
    depth n (tokens (test settings guard).toList) =
      some (n + 1) := by
  have hPlain :
      ∀ {text : List Char}, Word text → text ∉ braces :=
    fun hWord =>
      List.not_mem_of_not_mem_cons hWord.not_mem_controls
  have hIf : Word "if".toList := by decide
  rw [tokens_test h, ← List.dropLast_concat_getLast
    (List.cons_ne_nil _ _), depth_append, depth_of_plain]
  · rfl
  · simp only [List.dropLast, List.forall_mem_cons]
    exact
      ⟨hPlain hIf, by decide, by decide,
        hPlain h.iterationVar, by decide,
        hPlain (word_toString _), by decide, by decide,
        by decide, hPlain (word_toString _), by decide,
        by simp⟩

/- The lines of statements under a guard. -/
theorem ofText_guarded
    (hWorded : settings.Worded)
    (guard : Guard)
    (statements : String) :
    ofText (guarded settings guard statements) =
      [test settings guard] ++
        (ofText (inset statements) ++ ["\x7d"]) := by
  have hTest : Ended (test settings guard ++ "\n").toList := by
    rw [String.toList_append]
    exact ended_line _
  have hClose : ofText "\x7d\n" = ["\x7d"] := by
    decide
  rw [guarded_eq, ofText_append hTest,
    ofText_line (quiet_test hWorded guard),
    ofText_append (ended_inset statements), hClose]

namespace Calm

/- What comes after the declaration uses what is at hand. -/
theorem scoped_statements
    (h : block.Calm)
    (hWorded : settings.Worded)
    (hUnstaged : settings.Unstaged)
    (hScope : (block.scope settings).Reads done)
    (hCode : Scoped settings done code) :
    Scoped settings done
      (code ++ ofText (block.statements settings)) := by
  rcases h.filled with ⟨template, hCalm, hFilled⟩
  have hLoose := hFilled.loose
  have hPrinted :=
    Template.printed_render hLoose hScope.worded
  have hEnded := hFilled.ended (block.scope settings)
  have hStill := hCalm.still hScope
  rw [← Template.tokens_render hLoose hScope.worded] at hStill
  rw [statements, hFilled.body]
  cases hGuard : block.guard with
  | none => exact hCode.text hPrinted hEnded hStill
  | some guard =>
      have hTest :=
        scoped_test hWorded hUnstaged (h.guard guard hGuard)
          hCode
      rw [← tokens_inset hPrinted hEnded] at hStill
      have hInset :=
        hTest.text (printed_inset hPrinted) (ended_inset _)
          hStill
      have hClose : Still done (tokens "\x7d".toList) := by
        have hBrace : tokens "\x7d".toList = [['\x7d']] := by
          decide
        rw [hBrace]
        refine ⟨rfl, ?_, by decide⟩
        simp [stage?]
      have hEnd := hInset.still hClose
      dsimp only
      rw [ofText_guarded hWorded]
      simpa using hEnd

/- A block closes the braces that it opens. -/
theorem level_code
    (h : block.Calm)
    (hWorded : settings.Worded)
    (hScope : (block.scope settings).Reads done)
    (hEnded : Ended (block.code settings).toList) :
    Level (ofText (block.code settings)) := by
  rcases h.filled with ⟨template, hCalm, hFilled⟩
  have hOpening :
      ∀ n,
        depth n (tokens (block.declaration settings).toList) =
          some n := by
    apply depth_of_plain
    rw [tokens_declaration hWorded, ← tokens_opening hWorded]
    intro token hToken
    exact
      List.not_mem_of_not_mem_cons
        (plain_opening hWorded block token hToken)
  have hFillings :
      ∀ n,
        depth n (block.fillings settings template) = some n :=
    hCalm.level hScope
  rw [Level, tokens_ofText (hFilled.printed_code hWorded)
    hEnded]
  cases hGuard : block.guard with
  | none =>
      rw [hFilled.tokens_code hWorded hGuard, depth_append,
        hOpening, Option.bind_some, hFillings]
  | some guard =>
      rw [hFilled.tokens_code_guarded hWorded hGuard,
        depth_append, hOpening, Option.bind_some,
        depth_append, depth_test hWorded, Option.bind_some,
        depth_append,
        hFillings, Option.bind_some]
      rfl

/- A block declares its output and uses earlier ones. -/
theorem scoped_code
    (h : block.Calm)
    (hLined : block.Lined)
    (hWorded : settings.Worded)
    (hUnstaged : settings.Unstaged)
    (hFirst : block.inputA.Among done)
    (hSecond : ∀ var ∈ block.inputB, var.Among done)
    (hCode : Scoped settings done code)
    (hLevel : Level code) :
    Scoped settings (done ++ [block.index])
        (code ++ ofText (block.code settings)) ∧
      Level (code ++ ofText (block.code settings)) := by
  have hMore : done ⊆ done ++ [block.index] :=
    List.subset_append_left done [block.index]
  have hScope :
      (block.scope settings).Reads (done ++ [block.index]) :=
    reads_scope hWorded hUnstaged
      (List.mem_append_right done List.mem_cons_self)
      (hFirst.mono hMore)
      (fun var hVar => (hSecond var hVar).mono hMore)
  have hLines :
      ofText (block.code settings) =
        [block.opening settings] ++
          ofText (block.statements settings) := by
    rw [Block.code,
      ofText_append (ended_declaration settings block),
      declaration_eq,
      ofText_line (quiet_opening hWorded block)]
  constructor
  · rw [hLines, ← List.append_assoc]
    exact
      h.scoped_statements hWorded hUnstaged hScope
        (scoped_opening hWorded hUnstaged hFirst hCode hLevel)
  · exact
      hLevel.append
        (h.level_code hWorded hScope
          (hLined.ended_code settings))

end Calm

end Block

/- The block of a built-in kind is calm. -/
theorem Stage.Writes.calm
    {inline : Bool}
    {stage : Stage}
    {block : Block}
    (h : stage.Writes .builtIn inline block) :
    block.Calm := by
  rcases h.exists_filled with ⟨template, hMem, hFilled⟩
  refine
    ⟨⟨template, BuiltIn.calm_templates _ hMem, hFilled⟩, ?_⟩
  rcases h with ⟨kind, _, _, _, _, _, _, rfl⟩
  intro guard hGuard
  have hValid := (Option.mem_filter_iff.mp hGuard).2
  simp only [Guard.valid, Bool.and_eq_true,
    decide_eq_true_eq] at hValid
  exact hValid.2

end FractalShader

------------------------------------------------------------
-- Code of Programs
------------------------------------------------------------

namespace FractalShader

open Lines

namespace Lines

/- The lines of a text apart from its comments. -/
def codeLines (text : String) : List String :=
  (ofText text).filter fun line => !isComment line

end Lines

/- A block that a stage of a built-in kind writes. -/
def Block.Written (inline : Bool) (block : Block) : Prop :=
  ∃ stage : Stage, stage.Writes .builtIn inline block

theorem Block.lined_of_written
    {inline : Bool}
    {blocks : List Block}
    (h : ∀ block ∈ blocks, block.Written inline) :
    ∀ block ∈ blocks, block.Lined := by
  intro block hBlock
  rcases h block hBlock with ⟨stage, hWrites⟩
  exact hWrites.lined

namespace Program

variable {settings : Settings} {inline : Bool}
variable {blocks : List Block} {result : Var}
variable {done : List Nat} {code : List String}

theorem written_of_writes
    {stages : List Stage}
    (h :
      List.Forall₂ (Stage.Writes .builtIn inline) stages
        blocks) :
    ∀ block ∈ blocks, block.Written inline := by
  induction h with
  | nil => simp
  | cons hFirst _ ih =>
      exact List.forall_mem_cons.mpr ⟨⟨_, hFirst⟩, ih⟩

/- Running blocks declare their outputs, one after another. -/
theorem Runs.scoped
    (h : Runs done blocks result)
    (hBlocks : ∀ block ∈ blocks, block.Written inline)
    (hWorded : settings.Worded)
    (hUnstaged : settings.Unstaged)
    (hCode : Scoped settings done code)
    (hLevel : Level code) :
    Scoped settings (done ++ blocks.map Block.index)
      (code ++
        blocks.flatMap fun block =>
          ofText (block.code settings)) := by
  induction h generalizing code with
  | result => simpa using hCode
  | block hFirst hSecond _ ih =>
      rw [List.forall_mem_cons] at hBlocks
      rcases hBlocks.1 with ⟨stage, hWrites⟩
      rcases hWrites.calm.scoped_code hWrites.lined hWorded
          hUnstaged hFirst hSecond hCode hLevel with
        ⟨hNext, hNextLevel⟩
      simpa using ih hBlocks.2 hNext hNextLevel

/- The code of blocks is that of each. -/
theorem codeLines_texts
    (hBlocks : ∀ block ∈ blocks, block.Written inline)
    (hNamed : settings.Named) :
    codeLines
        (String.join (blocks.map (Block.text settings))) =
      blocks.flatMap fun block =>
        ofText (block.code settings) := by
  rw [codeLines,
    Block.ofText_texts (Block.lined_of_written hBlocks),
    List.filter_flatMap]
  apply List.flatMap_congr
  intro block hBlock
  rcases hBlocks block hBlock with ⟨stage, hWrites⟩
  have hCode := hWrites.isComment_code hNamed
  rw [Block.lines, hWrites.headline_eq, List.filter_cons,
    if_neg (by simp [isComment_headline]),
    List.filter_eq_self]
  intro line hLine
  simp [hCode line hLine]

/- The code of blocks declares what may be read behind it. -/
theorem Runs.scoped_texts
    (h : Runs [] blocks result)
    (hBlocks : ∀ block ∈ blocks, block.Written inline)
    (hNamed : settings.Named)
    (hWorded : settings.Worded)
    (hUnstaged : settings.Unstaged) :
    Scoped settings (blocks.map Block.index)
      (codeLines
        (String.join (blocks.map (Block.text settings)))) := by
  rw [codeLines_texts hBlocks hNamed]
  exact h.scoped hBlocks hWorded hUnstaged .nil rfl

end Program

/-
  A name is that of the state, or of a variable that some
  lines declare.
-/
def Settings.Bound
    (settings : Settings)
    (code : List String)
    (name : String) : Prop :=
  name = settings.stateVar ∨
    ∃ index,
      name = "v" ++ toString index ∧
        ∃ line ∈ code, index ∈ declared line

/- What is read behind some blocks is declared in them. -/
theorem Program.Runs.bound
    {settings : Settings}
    {inline : Bool}
    {blocks : List Block}
    {result : Var}
    (h : Runs [] blocks result)
    (hBlocks : ∀ block ∈ blocks, block.Written inline)
    (hNamed : settings.Named)
    (hWorded : settings.Worded)
    (hUnstaged : settings.Unstaged) :
    settings.Bound
      (codeLines
        (String.join (blocks.map (Block.text settings))))
      (result.text settings) := by
  have hScoped :=
    h.scoped_texts hBlocks hNamed hWorded hUnstaged
  have hAmong := h.among
  cases result with
  | state => exact Or.inl rfl
  | stage index =>
      refine Or.inr ⟨index, rfl, ?_⟩
      rw [← List.mem_flatMap, hScoped.declared_eq]
      exact hAmong

end FractalShader

------------------------------------------------------------
-- Whole Texts
------------------------------------------------------------

namespace FractalShader

open Lines

namespace Program

/- The last line, which hands on the result. -/
def lastLine
    (settings : Settings)
    (program : Program) : String :=
  settings.stateVar ++ " = " ++
    program.result.text settings ++ ";"

variable {settings : Settings} {program : Program}

theorem quiet_lastLine
    (h : settings.Worded)
    (program : Program) :
    Quiet (program.lastLine settings) := by
  have hTakes : Quiet " = " := by decide
  have hEnd : Quiet ";" := by decide
  have hResult := (program.result.word_text h).quiet
  exact
    ((h.stateVar.quiet.append hTakes).append hResult).append
      hEnd

theorem closing_eq
    (settings : Settings)
    (program : Program) :
    program.closing settings =
      program.lastLine settings ++ "\n" := by
  have hEnd : ";\n" = ";" ++ "\n" := rfl
  rw [closing, hEnd, lastLine]
  simp only [String.append_assoc]

/- The last line uses the result, and declares nothing. -/
theorem still_lastLine
    {done : List Nat}
    (hWorded : settings.Worded)
    (hUnstaged : settings.Unstaged)
    (hResult : program.result.Among done) :
    Still done
      (tokens (program.lastLine settings).toList) := by
  have hTokens :
      tokens (program.lastLine settings).toList =
        [ settings.stateVar.toList, ['=']
        , (program.result.text settings).toList, [';'] ] := by
    have hTakes : tokens " = ".toList = [['=']] := by
      decide
    have hEnd : tokens ";".toList = [[';']] := by
      decide
    rw [lastLine]
    simp only [String.append_assoc]
    rw [String.toList_append,
      tokens_append_of_head (by simp [isLetter]),
      tokens_word hWorded.stateVar,
      tokens_weave (by simp [isLetter])
        (program.result.word_text hWorded)
        (by simp [isLetter]),
      hTakes, hEnd]
    rfl
  have hTakes : stage? ['='] = none ∧ isWord ['='] = false :=
    ⟨rfl, rfl⟩
  have hEnd : stage? [';'] = none := rfl
  have hControl : ['%'] ∈ controls := List.mem_cons_self
  have hState := hWorded.stateVar.not_mem_controls
  have hRead :=
    (program.result.word_text hWorded).not_mem_controls
  rw [hTokens]
  refine ⟨?_, ?_, ?_⟩
  · simp only [declaredAfter, hTakes, hEnd]
    simp
  · simp only [List.forall_mem_cons, hUnstaged.stateVar,
      hTakes, hEnd]
    exact
      ⟨by simp, by simp, hResult.named hUnstaged, by simp⟩
  · simp only [List.mem_cons, List.not_mem_nil, or_false,
      not_or]
    refine ⟨?_, by decide, ?_, by decide⟩
    · intro hEq
      exact hState (hEq ▸ hControl)
    · intro hEq
      exact hRead (hEq ▸ hControl)

/- The code of a program is that of its blocks and a line. -/
theorem codeLines_source
    {inline : Bool}
    (hBlocks : ∀ block ∈ program.blocks, block.Written inline)
    (hNamed : settings.Named)
    (hWorded : settings.Worded) :
    codeLines (program.source settings) =
      codeLines
          (String.join
            (program.blocks.map (Block.text settings))) ++
        [program.lastLine settings] := by
  have hLined := Block.lined_of_written hBlocks
  have hClosing := filter_closing hNamed program
  have hLine :
      ofText (program.closing settings) =
        [program.lastLine settings] := by
    rw [closing_eq, ofText_line (quiet_lastLine hWorded program)]
  rw [hLine, List.filter_eq_nil_iff] at hClosing
  rw [codeLines, codeLines, ofText_source hLined,
    ← Block.ofText_texts hLined, List.filter_append, hLine]
  congr 1
  rw [List.filter_eq_self]
  intro line hMem
  simpa using hClosing line hMem

/-
  The text of a program, comments aside, declares the
  outputs of the enabled stages in order, each one once and
  where no brace is open, and mentions no other.  What a
  block gets for its inputs, and what the last line hands
  on, is the state or declared on a line before.  Every
  guard passes on some iteration.
-/
structure Declares
    (settings : Settings)
    (p : Pipeline)
    (program : Program) : Prop where
  comments :
    (ofText (program.source settings)).filter isComment =
      (p.filter fun stage => stage.enabled).map fun stage =>
        headline stage.id stage.kind
  increasing : (p.enabledFrom 0).Pairwise (· < ·)
  declared :
    (codeLines (program.source settings)).flatMap declared =
      p.enabledFrom 0
  mentioned :
    ∀ line ∈ codeLines (program.source settings),
      ∀ index ∈ mentioned line, index ∈ p.enabledFrom 0
  stepwise :
    Scoped settings (p.enabledFrom 0)
      (codeLines (program.source settings))
  inputs :
    ∀ earlier block later,
      program.blocks = earlier ++ block :: later →
      ∀ input,
        input = (block.scope settings).inputA ∨
            input = (block.scope settings).inputB →
          settings.Bound
            (codeLines
              (String.join
                (earlier.map (Block.text settings))))
            input
  last :
    codeLines (program.source settings) =
      codeLines
          (String.join
            (program.blocks.map (Block.text settings))) ++
        [program.lastLine settings]
  result :
    settings.Bound
      (codeLines
        (String.join
          (program.blocks.map (Block.text settings))))
      (program.result.text settings)
  guards :
    ∀ block ∈ program.blocks, ∀ guard ∈ block.guard,
      1 ≤ guard.modulus ∧ guard.remainder < guard.modulus

theorem declares_of_assemble
    {inline : Bool}
    {p : Pipeline}
    (h : assemble .builtIn inline 0 .start p = .ok program)
    (hNamed : settings.Named)
    (hWorded : settings.Worded)
    (hUnstaged : settings.Unstaged) :
    program.Declares settings p := by
  have hSteps := assembles_of_assemble h
  have hRuns := hSteps.runs Outputs.among_start
  have hBlocks := written_of_writes (writes_of_assemble h)
  have hLast := codeLines_source hBlocks hNamed hWorded
  have hScoped :
      Scoped settings (p.enabledFrom 0)
        (codeLines (program.source settings)) := by
    have hCode :=
      hRuns.scoped_texts hBlocks hNamed hWorded hUnstaged
    have hAmong := hRuns.among
    rw [List.nil_append] at hAmong
    rw [hLast, ← hSteps.indices_eq]
    exact
      hCode.still (still_lastLine hWorded hUnstaged hAmong)
  refine
    ⟨filter_source h hNamed, p.pairwise_enabledFrom 0,
      hScoped.declared_eq, hScoped.mentioned_mem, hScoped, ?_,
      hLast,
      hRuns.bound hBlocks hNamed hWorded hUnstaged, ?_⟩
  · intro earlier block later hSplit input hInput
    rw [hSplit] at hRuns hBlocks
    rcases hRuns.split with ⟨hFirst, hSecond⟩
    have hEarlier :
        ∀ block ∈ earlier, block.Written inline :=
      fun block hBlock =>
        hBlocks block (List.mem_append_left _ hBlock)
    have hRead :=
      hFirst.bound hEarlier hNamed hWorded hUnstaged
    rcases hInput with rfl | rfl
    · exact hRead
    · unfold Scope.inputB Block.scope
      dsimp only
      cases hVar : block.inputB with
      | none => exact hRead
      | some var =>
          exact
            (hSecond var hVar).bound hEarlier hNamed hWorded
              hUnstaged
  · intro block hBlock
    rcases hBlocks block hBlock with ⟨stage, hWrites⟩
    exact hWrites.calm.guard

end Program

namespace Fragment

/-
  Every pipeline of built-in kinds has a fragment, and its
  text declares every variable once and before its use.
-/
theorem declares_before_use
    (mode : Mode)
    (inline : Bool)
    {p : Pipeline}
    (hKnown :
      ∀ stage ∈ p,
        Catalog.builtIn.contains stage.kind = true) :
    ∃ program : Program,
      Program.ofPipeline .builtIn inline p = .ok program ∧
        ofPipeline .builtIn
            { mode := mode, inlineLiterals := inline } p =
          .ok
            (program.fragment
              { mode := mode, inlineLiterals := inline }) ∧
        program.Declares
          { mode := mode, inlineLiterals := inline } p := by
  rcases (Program.exists_assemble_iff Catalog.proper_builtIn
      inline 0 .start p).mpr hKnown with
    ⟨program, hProgram⟩
  refine ⟨program, hProgram, ?_, ?_⟩
  · simp only [ofPipeline, Program.ofPipeline, hProgram]
    rfl
  · exact
      Program.declares_of_assemble hProgram
        (Settings.named_default mode inline)
        (Settings.worded_default mode inline)
        (Settings.unstaged_default mode inline)

/-
  Stages that share an id, name one another, themselves and
  nothing, one of them the start; one is disabled, and one
  has a guard.
-/
def tangled : Pipeline :=
  [ { id := "root-start"
      kind := "menger_fold"
      guard := some ⟨true, 3, 1⟩ }
  , { id := "a"
      kind := "union"
      sources := ⟨some "missing", some "a"⟩ }
  , { id := "a"
      kind := "scale"
      enabled := false
      sources := ⟨some "b", none⟩ }
  , { id := "b"
      kind := "blend"
      sources := ⟨some "root-start", some "a"⟩ } ]

theorem declares_before_use_tangled :
    (∀ stage ∈ tangled,
        Catalog.builtIn.contains stage.kind = true) ∧
      ∃ program : Program,
        Program.ofPipeline .builtIn false tangled =
            .ok program ∧
          ofPipeline .builtIn {} tangled =
            .ok (program.fragment {}) ∧
          (codeLines (program.source {})).flatMap declared =
            [0, 1, 3] ∧
          ∀ line ∈ codeLines (program.source {}),
            2 ∉ mentioned line := by
  have hKnown :
      ∀ stage ∈ tangled,
        Catalog.builtIn.contains stage.kind = true := by
    decide
  have hIndices : tangled.enabledFrom 0 = [0, 1, 3] := by
    decide
  rcases declares_before_use .auto false hKnown with
    ⟨program, hProgram, hFragment, hDeclares⟩
  refine ⟨hKnown, program, hProgram, hFragment, ?_, ?_⟩
  · exact hDeclares.declared.trans hIndices
  · intro line hLine hOther
    have hMem := hDeclares.mentioned line hLine 2 hOther
    rw [hIndices] at hMem
    revert hMem
    decide

/- What is missing or has not run yet is the latest output. -/
example :
    (Program.ofPipeline .builtIn false tangled).toOption.map
        (fun program =>
          (program.blocks.map fun block =>
            (block.index, block.inputA, block.inputB))) =
      some
        [ (0, .state, none)
        , (1, .stage 0, some (.stage 0))
        , (3, .state, some (.stage 1)) ] := by
  decide

end Fragment

end FractalShader
