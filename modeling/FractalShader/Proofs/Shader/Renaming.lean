import FractalShader.Proofs.Shader.Declared
import Mathlib.Logic.Equiv.Basic

/-
  Ids reach the comments of a fragment and nothing else.

  Other ids that are told apart as the old ones are, and by
  which the start keeps its own, lead to the same variables
  and cells: what is looked up under an id is found under the
  other one.  The statements of built-in kinds do not mention
  ids, so only the headlines change.

  Main declarations:
    * `Renaming`
    * `Pipeline.rename`
    * `Outputs.read_rename`
    * `Stage.references_rename`
    * `Program.assemble_rename`
    * `Fragment.Renamed`
    * `Fragment.ofPipeline_rename`
-/

------------------------------------------------------------
-- Renaming
------------------------------------------------------------

namespace FractalShader

/-
  Other names for ids.  Different ids have different names,
  and the start keeps its own.
-/
structure Renaming where
  name : String → String
  injective : Function.Injective name
  start : name startId = startId

namespace Renaming

instance : CoeFun Renaming fun _ => String → String :=
  ⟨name⟩

theorem eq_startId_iff
    (ρ : Renaming)
    (id : String) :
    ρ id = startId ↔ id = startId := by
  conv_lhs => rw [← ρ.start, ρ.injective.eq_iff]

theorem beq_eq
    (ρ : Renaming)
    (id other : String) :
    (ρ id == ρ other) = (id == other) := by
  rw [Bool.eq_iff_iff, beq_iff_eq, beq_iff_eq,
    ρ.injective.eq_iff]

/- Two ids change places. -/
def swap
    (first second : String)
    (hFirst : startId ≠ first)
    (hSecond : startId ≠ second) : Renaming where
  name := Equiv.swap first second
  injective := (Equiv.swap first second).injective
  start := Equiv.swap_apply_of_ne_of_ne hFirst hSecond

end Renaming

/- A failure that names other ids. -/
def Failure.rename (ρ : Renaming) : Failure → Failure
  | .cycle waiting => .cycle (waiting.map ρ)
  | .unknownKind node kind => .unknownKind (ρ node) kind
  | .emptyRange node input => .emptyRange (ρ node) input
  | .miscounted node => .miscounted (ρ node)

/- An answer under other names. -/
def Renaming.answer
    {α : Type}
    (ρ : Renaming)
    (f : α → α) : Except Failure α → Except Failure α
  | .error why => .error (why.rename ρ)
  | .ok a => .ok (f a)

/- Steps that commute with renaming one after the other. -/
theorem Renaming.bind_answer
    {α β : Type}
    (ρ : Renaming)
    {f : α → α}
    {g : β → β}
    {x : Except Failure α}
    {next other : α → Except Failure β}
    (h : ∀ a, other (f a) = ρ.answer g (next a)) :
    (ρ.answer f x >>= other) = ρ.answer g (x >>= next) := by
  cases x with
  | error why => rfl
  | ok a => exact h a

/- A stage under another id, with the ids of its sources. -/
def Stage.rename (ρ : Renaming) (stage : Stage) : Stage :=
  { stage with
    id := ρ stage.id
    sources := ⟨stage.sources.a.map ρ, stage.sources.b.map ρ⟩ }

def Pipeline.rename (ρ : Renaming) (p : Pipeline) : Pipeline :=
  p.map (Stage.rename ρ)

def Cell.rename (ρ : Renaming) (cell : Cell) : Cell :=
  { cell with node := ρ cell.node }

def Block.rename (ρ : Renaming) (block : Block) : Block :=
  { block with node := ρ block.node }

def Outputs.rename (ρ : Renaming) (outputs : Outputs) : Outputs :=
  { outputs with
    named := outputs.named.map fun e => (ρ e.1, e.2) }

/- Cells under other ids, with their values. -/
def Renaming.cells
    (ρ : Renaming)
    (cells : List (Cell × F32)) : List (Cell × F32) :=
  cells.map fun e => (e.1.rename ρ, e.2)

def Program.rename (ρ : Renaming) (program : Program) : Program :=
  { program with
    blocks := program.blocks.map (Block.rename ρ)
    cells := ρ.cells program.cells }

end FractalShader

------------------------------------------------------------
-- Programs
------------------------------------------------------------

namespace FractalShader

namespace Outputs

/- What is stored under an id is found under its name. -/
theorem lookup_rename
    (ρ : Renaming)
    (named : List (String × Var))
    (id : String) :
    (named.map fun e => (ρ e.1, e.2)).lookup (ρ id) =
      named.lookup id := by
  induction named with
  | nil => rfl
  | cons e named ih =>
      rw [List.map_cons, List.lookup_cons, List.lookup_cons,
        ρ.beq_eq, ih]

/- A source reads the same variable. -/
theorem read_rename
    (ρ : Renaming)
    (outputs : Outputs)
    (source : Option String) :
    (outputs.rename ρ).read (source.map ρ) =
      outputs.read source := by
  cases source with
  | none => rfl
  | some id =>
      simp only [Option.map_some, read, ρ.eq_startId_iff]
      rw [rename, lookup_rename]

end Outputs

namespace Stage

theorem value_rename
    (ρ : Renaming)
    (stage : Stage)
    (input : Input) :
    (stage.rename ρ).value input =
      ρ.answer id (stage.value input) := by
  unfold Stage.value
  split <;> rfl

/- The references are the same, and the cells are renamed. -/
theorem references_rename
    (ρ : Renaming)
    (inline : Bool)
    (stage : Stage)
    (next : Nat)
    (inputs : List Input) :
    (stage.rename ρ).references inline next inputs =
      ρ.answer (fun found => (found.1, ρ.cells found.2))
        (stage.references inline next inputs) := by
  induction inputs generalizing next with
  | nil => rfl
  | cons input inputs ih =>
      have hSlot :
          (stage.rename ρ).slot? input = stage.slot? input :=
        rfl
      rw [references, references, hSlot]
      cases stage.slot? input with
      | some slot =>
          rw [ih]
          cases references inline stage next inputs <;> rfl
      | none =>
          rw [value_rename]
          cases stage.value input with
          | error why => rfl
          | ok value =>
              cases inline with
              | true =>
                  simp only [ih]
                  cases references true stage next inputs <;>
                    rfl
              | false =>
                  simp only [ih]
                  cases
                    references false stage (next + 1) inputs
                    <;> rfl

end Stage

/- So is the block. -/
theorem Stage.block_rename
    (ρ : Renaming)
    (stage : Stage)
    (kind : Kind)
    (index : Nat)
    (outputs : Outputs)
    (references : List (String × Reference)) :
    (stage.rename ρ).block kind index (outputs.rename ρ)
        references =
      (stage.block kind index outputs references).rename ρ := by
  have hFirst :
      (outputs.rename ρ).read (stage.rename ρ).sources.a =
        outputs.read stage.sources.a :=
    outputs.read_rename ρ stage.sources.a
  have hSecond :
      ((stage.rename ρ).sources.b.map fun id =>
          (outputs.rename ρ).read (some id)) =
        stage.sources.b.map fun id =>
          outputs.read (some id) := by
    cases hSource : stage.sources.b with
    | none => simp [Stage.rename, hSource]
    | some id =>
        simp only [Stage.rename, hSource, Option.map_some]
        exact congrArg some (outputs.read_rename ρ (some id))
  rw [Stage.block, Stage.block, Block.rename, hFirst, hSecond]
  rfl

namespace Program

/- Assembling stages commutes with renaming them. -/
theorem assemble_rename
    (ρ : Renaming)
    (catalog : Catalog)
    (inline : Bool)
    (index : Nat)
    (outputs : Outputs)
    (p : Pipeline) :
    assemble catalog inline index (outputs.rename ρ)
        (p.rename ρ) =
      ρ.answer (rename ρ)
        (assemble catalog inline index outputs p) := by
  induction p generalizing index outputs with
  | nil => rfl
  | cons stage rest ih =>
      change
        assemble catalog inline index (outputs.rename ρ)
            (stage.rename ρ :: Pipeline.rename ρ rest) =
          _
      have hFirst :
          (outputs.rename ρ).read (stage.rename ρ).sources.a =
            outputs.read stage.sources.a :=
        outputs.read_rename ρ stage.sources.a
      cases hKind : catalog.find? stage.kind with
      | none =>
          have hOther :
              catalog.find? (stage.rename ρ).kind = none :=
            hKind
          rw [assemble, assemble, hKind, hOther]
          rfl
      | some kind =>
          have hOther :
              catalog.find? (stage.rename ρ).kind = some kind :=
            hKind
          cases hEnabled : stage.enabled with
          | false =>
              have hRest :=
                ih (index + 1)
                  (outputs.push stage.id
                    (outputs.read stage.sources.a) 0)
              rw [assemble_disabled hKind hEnabled,
                assemble_disabled hOther hEnabled, ← hRest,
                hFirst]
              rfl
          | true =>
              rw [assemble_bind hKind hEnabled,
                assemble_bind hOther hEnabled]
              have hFound :=
                stage.references_rename ρ inline outputs.cells
                  kind.inputs
              have hCells :
                  (outputs.rename ρ).cells = outputs.cells :=
                rfl
              rw [hCells, hFound]
              apply ρ.bind_answer
              intro found
              have hLength :
                  (ρ.cells found.2).length = found.2.length :=
                List.length_map _
              have hRest :
                  assemble catalog inline (index + 1)
                      ((outputs.rename ρ).push
                        (stage.rename ρ).id (.stage index)
                        found.2.length)
                      (Pipeline.rename ρ rest) =
                    ρ.answer (rename ρ)
                      (assemble catalog inline (index + 1)
                        (outputs.push stage.id
                          (.stage index) found.2.length)
                        rest) :=
                ih (index + 1)
                  (outputs.push stage.id (.stage index)
                    found.2.length)
              rw [hLength, hRest]
              apply ρ.bind_answer
              intro program
              rw [stage.block_rename]
              simp [Renaming.answer, rename, Renaming.cells]

end Program

end FractalShader

------------------------------------------------------------
-- Fragments
------------------------------------------------------------

namespace FractalShader

open Lines

/- The code of a template does not mention the id. -/
theorem Block.code_rename
    (ρ : Renaming)
    {block : Block}
    {template : Template}
    (h : block.body = template.render)
    (settings : Settings) :
    (block.rename ρ).code settings = block.code settings := by
  have hBody :
      (block.rename ρ).body
          ((block.rename ρ).scope settings) =
        block.body (block.scope settings) := by
    change
      block.body ((block.rename ρ).scope settings) = _
    rw [h]
    rfl
  have hStatements :
      (block.rename ρ).statements settings =
        block.statements settings := by
    rw [statements, statements, hBody]
    rfl
  rw [code, code, hStatements]
  rfl

namespace Program

variable {settings : Settings} {inline : Bool}

/- The blocks of a program have the ids of the stages. -/
theorem lines_of_writes
    (settings : Settings)
    {stages : List Stage}
    {blocks : List Block}
    (h :
      List.Forall₂ (Stage.Writes .builtIn inline) stages
        blocks)
    (name : String → String) :
    (blocks.flatMap fun block =>
        headline (name block.node) block.kind ::
          ofText (block.code settings)) =
      (List.zipWith
          (fun (stage : Stage) code =>
            headline (name stage.id) stage.kind :: code)
          stages
          (blocks.map fun block =>
            ofText (block.code settings))).flatten := by
  induction h with
  | nil => rfl
  | cons hFirst _ ih =>
      rcases hFirst with ⟨_, _, _, _, _, _, _, rfl⟩
      rw [List.flatMap_cons, ih]
      rfl

/- Only the headlines of a renamed program are others. -/
theorem lines_rename
    (ρ : Renaming)
    (settings : Settings)
    {stages : List Stage}
    {blocks : List Block}
    (h :
      List.Forall₂ (Stage.Writes .builtIn inline) stages
        blocks) :
    (blocks.map (Block.rename ρ)).flatMap
        (Block.lines settings) =
      blocks.flatMap fun block =>
        headline (ρ block.node) block.kind ::
          ofText (block.code settings) := by
  rw [List.flatMap_map]
  apply List.flatMap_congr
  intro block hBlock
  rcases written_of_writes h block hBlock with
    ⟨stage, hWrites⟩
  rcases hWrites.exists_filled with ⟨template, _, hFilled⟩
  rw [Block.lines, Block.code_rename ρ hFilled.body]
  rfl

end Program

namespace Fragment

/-
  Two fragments of a pipeline before and after renaming.
  Their lines are the same code below the headlines of the
  enabled stages, and the layout is renamed.
-/
structure Renamed
    (ρ : Renaming)
    (p : Pipeline)
    (f g : Fragment) : Prop where
  declarations : g.declarations = f.declarations
  values : g.values = f.values
  layout : g.layout = f.layout.map (Cell.rename ρ)
  length :
    (ofText g.source).length = (ofText f.source).length
  lines :
    ∃ (codes : List (List String)) (last : List String),
      codes.length =
          (p.filter fun stage => stage.enabled).length ∧
        ofText f.source =
          (List.zipWith
              (fun (stage : Stage) code =>
                headline stage.id stage.kind :: code)
              (p.filter fun stage => stage.enabled)
              codes).flatten ++
            last ∧
        ofText g.source =
          (List.zipWith
              (fun (stage : Stage) code =>
                headline (ρ stage.id) stage.kind :: code)
              (p.filter fun stage => stage.enabled)
              codes).flatten ++
            last

theorem renamed_of_writes
    {ρ : Renaming}
    (settings : Settings)
    {inline : Bool}
    {p : Pipeline}
    {program : Program}
    (hWrites :
      List.Forall₂ (Stage.Writes .builtIn inline)
        (p.filter fun stage => stage.enabled)
        program.blocks)
    (hLined :
      ∀ block ∈ (program.rename ρ).blocks, block.Lined) :
    Renamed ρ p (program.fragment settings)
      ((program.rename ρ).fragment settings) := by
  have hLines :
      ofText (program.source settings) =
        (program.blocks.flatMap fun block =>
            headline block.node block.kind ::
              ofText (block.code settings)) ++
          ofText (program.closing settings) :=
    Program.ofText_source (Program.lined_of_writes hWrites)
      settings
  have hOtherLines :
      ofText ((program.rename ρ).source settings) =
        (program.blocks.flatMap fun block =>
            headline (ρ block.node) block.kind ::
              ofText (block.code settings)) ++
          ofText (program.closing settings) := by
    rw [Program.ofText_source hLined settings,
      ← Program.lines_rename ρ settings hWrites]
    rfl
  refine ⟨?_, ?_, ?_, ?_, ?_⟩
  · simp [Program.fragment, Program.rename, Renaming.cells]
  · simp [Program.fragment, Program.rename, Renaming.cells]
  · simp [Program.fragment, Program.rename, Renaming.cells]
  · change
      (ofText ((program.rename ρ).source settings)).length =
        (ofText (program.source settings)).length
    rw [hLines, hOtherLines, List.length_append,
      List.length_append, List.length_flatMap,
      List.length_flatMap]
    rfl
  · refine
      ⟨program.blocks.map fun block =>
          ofText (block.code settings),
        ofText (program.closing settings), ?_, ?_, ?_⟩
    · rw [List.length_map, hWrites.length_eq]
    · change ofText (program.source settings) = _
      rw [hLines]
      exact
        congrArg (· ++ _)
          (Program.lines_of_writes settings hWrites fun id => id)
    · change ofText ((program.rename ρ).source settings) = _
      rw [hOtherLines]
      exact
        congrArg (· ++ _)
          (Program.lines_of_writes settings hWrites ρ)

/-
  Whatever the settings are, a pipeline of built-in kinds
  and the renamed one both have no fragment, or both have
  one, and these differ in the headlines and in the layout
  only, which are renamed.
-/
theorem ofPipeline_rename
    (ρ : Renaming)
    (settings : Settings)
    (p : Pipeline) :
    (∃ why,
        ofPipeline .builtIn settings p = .error why ∧
          ofPipeline .builtIn settings (p.rename ρ) =
            .error (why.rename ρ)) ∨
      ∃ f g,
        ofPipeline .builtIn settings p = .ok f ∧
          ofPipeline .builtIn settings (p.rename ρ) =
            .ok g ∧
          Renamed ρ p f g := by
  have hRename :
      Program.ofPipeline .builtIn settings.inlineLiterals
          (p.rename ρ) =
        ρ.answer (Program.rename ρ)
          (Program.ofPipeline .builtIn
            settings.inlineLiterals p) :=
    Program.assemble_rename ρ .builtIn
      settings.inlineLiterals 0 .start p
  unfold ofPipeline
  cases hProgram :
      Program.ofPipeline .builtIn settings.inlineLiterals p with
  | error why =>
      rw [hProgram] at hRename
      rw [hRename]
      exact Or.inl ⟨why, rfl, rfl⟩
  | ok program =>
      rw [hProgram] at hRename
      have hWrites := Program.writes_of_assemble hProgram
      have hOtherWrites := Program.writes_of_assemble hRename
      rw [hRename]
      exact
        Or.inr
          ⟨_, _, rfl, rfl,
            renamed_of_writes settings hWrites
              (Program.lined_of_writes hOtherWrites)⟩

/- A stage that another one names. -/
def sourced : Pipeline :=
  [ { id := "a"
      kind := "scale" }
  , { id := "b"
      kind := "translate"
      sources := ⟨some "a", none⟩ } ]

/- An id that tries to add a line. -/
def breaking : Renaming :=
  .swap "a" "x\nz = v9;" (by decide) (by decide)

theorem ofPipeline_rename_breaking :
    ∃ f g,
      ofPipeline .builtIn {} sourced = .ok f ∧
        ofPipeline .builtIn {} (sourced.rename breaking) =
          .ok g ∧
        g.declarations = f.declarations ∧
        (ofText g.source).length =
          (ofText f.source).length ∧
        (ofText f.source).head? = some "// a (scale)" ∧
        (ofText g.source).head? =
          some "// x z = v9; (scale)" := by
  have hKnown :
      ∀ stage ∈ sourced,
        Catalog.builtIn.contains stage.kind = true := by
    decide
  have hSwapped : breaking "a" = "x\nz = v9;" :=
    Equiv.swap_apply_left _ _
  have hOld : headline "a" "scale" = "// a (scale)" := by
    decide +kernel
  have hNew :
      headline "x\nz = v9;" "scale" =
        "// x z = v9; (scale)" := by
    decide +kernel
  rcases (exists_ofPipeline_iff Catalog.proper_builtIn {}
      sourced).mpr hKnown with
    ⟨found, hFound⟩
  rcases ofPipeline_rename breaking {} sourced with
    ⟨why, hNone, _⟩ | ⟨f, g, hF, hG, hRenamed⟩
  · cases hNone.symm.trans hFound
  · refine
      ⟨f, g, hF, hG, hRenamed.declarations, hRenamed.length,
        ?_⟩
    rcases hRenamed.lines with
      ⟨codes, last, hLength, hLines, hOtherLines⟩
    cases codes with
    | nil => cases hLength
    | cons code codes =>
        constructor
        · rw [hLines, ← hOld]
          rfl
        · rw [hOtherLines, ← hNew, ← hSwapped]
          rfl

end Fragment

end FractalShader
