import FractalShader.Proofs.Shader.Assembly
import FractalShader.Proofs.Shader.Values

/-
  The passage of each stage in the text of a fragment.

  An enabled stage has one passage: a comment that names it,
  a variable that starts from its first input, and the
  statements of its kind, under the guard of the stage if
  one is in force.  The statements read for an input its
  slot, its value, or its cell in the array of parameters.

  With values in uniforms, the inputs of enabled stages that
  no slot feeds have the cells of the array, one each, in the
  order of the stages and of the inputs that their kinds
  declare.  So the number of a cell is the number of such
  inputs before it, and this is the number in the text.

  Main declarations:
    * `Stage.passage`
    * `Stage.text_block`
    * `Stage.unbound`
    * `Stage.reference`
    * `Stage.mem_references`
    * `Catalog.unbound`
    * `Program.Assembles.cells_eq`
    * `Fragment.Laid`
    * `Block.Receives`
    * `Program.Assembles.receives`
    * `Program.receives_of_ofPipeline`
-/

------------------------------------------------------------
-- Text of a Stage
------------------------------------------------------------

namespace FractalShader

namespace Stage

/-
  Statements that run only on the iterations that the guard
  of a stage asks for, when it is active and asks for some.
-/
def guarded
    (settings : Settings)
    (stage : Stage)
    (statements : String) : String :=
  match stage.guard with
  | none => statements
  | some guard =>
      if guard.active ∧ 1 ≤ guard.modulus ∧
          guard.remainder < guard.modulus then
        "if ((" ++ settings.iterationVar ++ " % " ++
          toString guard.modulus.toNat ++ ") == " ++
          toString guard.remainder.toNat ++ ") \x7b\n" ++
          String.join
            ((Lines.ofText statements).map fun line =>
              "    " ++ line ++ "\n") ++
          "\x7d\n"
      else
        statements

/-
  The passage of a stage: a comment with its id and kind,
  the variable with its number, and its statements.
-/
def passage
    (settings : Settings)
    (stage : Stage)
    (index : Nat)
    (input statements : String) : String :=
  "// " ++ Lines.commentSafe stage.id ++ " (" ++
    stage.kind ++ ")\n" ++
    ("vec4 v" ++ toString index ++ " = " ++ input ++
      ";\n") ++
    stage.guarded settings statements

variable {kind : Kind} {index : Nat} {outputs : Outputs}
variable {references : List (String × Reference)}

/- Statements run under the guard that a block takes over. -/
theorem statements_eq
    (settings : Settings)
    {stage : Stage}
    {block : Block}
    (hGuard :
      block.guard =
        stage.guard.filter fun g => g.active && g.valid) :
    block.statements settings =
      stage.guarded settings
        (block.body (block.scope settings)) := by
  unfold Block.statements guarded
  rw [hGuard]
  generalize block.body (block.scope settings) = text
  cases stage.guard with
  | none => rfl
  | some guard =>
      simp only [Option.filter, Guard.valid,
        Bool.and_eq_true, decide_eq_true_eq]
      by_cases hForce :
          guard.active ∧ 1 ≤ guard.modulus ∧
            guard.remainder < guard.modulus
      · rw [if_pos hForce, if_pos hForce]
        rfl
      · rw [if_neg hForce, if_neg hForce]

/- The text of a block is the passage of its stage. -/
theorem text_block
    (settings : Settings)
    (stage : Stage) :
    (stage.block kind index outputs references).text
        settings =
      stage.passage settings index
        ((outputs.read stage.sources.a).text settings)
        (kind.body
          ((stage.block kind index outputs
            references).scope settings)) := by
  have hName :
      "vec4 " ++
          (stage.block kind index outputs
            references).output.text settings =
        "vec4 v" ++ toString index := by
    change "vec4 " ++ ("v" ++ toString index) = _
    rw [← String.append_assoc]
    rfl
  rw [Block.text, statements_eq settings rfl,
    Block.declaration, hName]
  rfl

/- Statements under a guard are set in. -/
example :
    ({ id := "a\nb"
       kind := "scale"
       guard := some ⟨true, 3, 1⟩ } : Stage).passage {} 4 "z"
        "v4 *= 2.0;\nv4 += z;\n" =
      "// a b (scale)\nvec4 v4 = z;\n" ++
        "if ((i % 3) == 1) \x7b\n" ++
        "    v4 *= 2.0;\n    v4 += z;\n\x7d\n" := by
  decide +kernel

end Stage

end FractalShader

------------------------------------------------------------
-- Inputs of a Stage
------------------------------------------------------------

namespace FractalShader

namespace Stage

variable {stage : Stage} {first : Nat}
variable {references : List (String × Reference)}
variable {cells : List (Cell × F32)}

/- The inputs that no slot feeds. -/
def unbound
    (stage : Stage)
    (inputs : List Input) : List Input :=
  inputs.filter fun input => (stage.slot? input).isNone

/-
  What an input reads: its slot, or else its value in the
  text or a cell after the cells of earlier stages and of
  earlier inputs.
-/
def reference
    (inline : Bool)
    (stage : Stage)
    (first : Nat)
    (earlier : List Input)
    (input : Input) : Reference :=
  match stage.slot? input with
  | some slot => .slot slot
  | none =>
      if inline then
        .literal (input.resolve stage.params)
      else
        .cell (first + (stage.unbound earlier).length)

/- The cell of an input, with its value. -/
def cell
    (stage : Stage)
    (input : Input) : Cell × F32 :=
  (⟨stage.id, input.id⟩, input.resolve stage.params)

theorem unbound_cons_of_some
    {input : Input}
    {slot : Slot}
    (hSlot : stage.slot? input = some slot)
    (inputs : List Input) :
    stage.unbound (input :: inputs) =
      stage.unbound inputs := by
  simp [unbound, hSlot]

theorem unbound_cons_of_none
    {input : Input}
    (hSlot : stage.slot? input = none)
    (inputs : List Input) :
    stage.unbound (input :: inputs) =
      input :: stage.unbound inputs := by
  simp [unbound, hSlot]

/- A value that is given is the one that is stored. -/
theorem value_eq_ok
    {input : Input}
    {value : F32}
    (h : stage.value input = .ok value) :
    value = input.resolve stage.params := by
  unfold Stage.value at h
  split at h
  · cases h
    rfl
  · cases h

/- The cells are those of the inputs without a slot. -/
theorem cells_of_references
    {inputs : List Input}
    (h :
      stage.references false first inputs =
        .ok (references, cells)) :
    cells = (stage.unbound inputs).map stage.cell := by
  have hSteps := refers_of_references h
  clear h
  induction hSteps with
  | nil => rfl
  | slot hSlot _ ih =>
      rw [unbound_cons_of_some hSlot]
      exact ih
  | literal hInline => cases hInline
  | cell _ hSlot hValue _ ih =>
      rw [unbound_cons_of_none hSlot, value_eq_ok hValue, ih]
      rfl

/- The references stand under the ids of the inputs. -/
theorem keys_of_references
    {inline : Bool}
    {inputs : List Input}
    (h :
      stage.references inline first inputs =
        .ok (references, cells)) :
    references.map Prod.fst = inputs.map Input.id := by
  have hSteps := refers_of_references h
  clear h
  induction hSteps with
  | nil => rfl
  | slot _ _ ih | literal _ _ _ _ ih | cell _ _ _ _ ih =>
      rw [List.map_cons, List.map_cons, ih]

theorem reference_of_slot
    (inline : Bool)
    {input : Input}
    {slot : Slot}
    (hSlot : stage.slot? input = some slot)
    (first : Nat)
    (earlier : List Input) :
    stage.reference inline first earlier input =
      .slot slot := by
  simp [reference, hSlot]

theorem reference_literal
    {input : Input}
    (hSlot : stage.slot? input = none)
    (first : Nat)
    (earlier : List Input) :
    stage.reference true first earlier input =
      .literal (input.resolve stage.params) := by
  simp [reference, hSlot]

theorem reference_cell
    {input : Input}
    (hSlot : stage.slot? input = none)
    (first : Nat)
    (earlier : List Input) :
    stage.reference false first earlier input =
      .cell (first + (stage.unbound earlier).length) := by
  simp [reference, hSlot]

/- Inputs before a literal do not matter. -/
theorem reference_true
    (first : Nat)
    (earlier others : List Input)
    (input : Input) :
    stage.reference true first earlier input =
      stage.reference true first others input :=
  rfl

/- An input with a slot does not move the cells after it. -/
theorem reference_cons_of_some
    (inline : Bool)
    {other : Input}
    {slot : Slot}
    (hSlot : stage.slot? other = some slot)
    (first : Nat)
    (earlier : List Input)
    (input : Input) :
    stage.reference inline first (other :: earlier) input =
      stage.reference inline first earlier input := by
  unfold reference
  rw [unbound_cons_of_some hSlot]

/- One without a slot moves them by one. -/
theorem reference_cons_of_none
    {other : Input}
    (hSlot : stage.slot? other = none)
    (first : Nat)
    (earlier : List Input)
    (input : Input) :
    stage.reference false first (other :: earlier) input =
      stage.reference false (first + 1) earlier input := by
  unfold reference
  rw [unbound_cons_of_none hSlot, List.length_cons,
    Nat.add_comm _ 1, ← Nat.add_assoc]

/- An input has its slot, its value, or the next cell. -/
theorem mem_references
    {inline : Bool}
    {inputs : List Input}
    (h :
      stage.references inline first inputs =
        .ok (references, cells))
    {earlier : List Input}
    {input : Input}
    {later : List Input}
    (hSplit : inputs = earlier ++ input :: later) :
    (input.id, stage.reference inline first earlier input) ∈
      references := by
  have hSteps := refers_of_references h
  clear h
  induction hSteps generalizing earlier with
  | nil => simp at hSplit
  | slot hSlot _ ih =>
      rcases List.cons_eq_append_iff.mp hSplit with
        ⟨rfl, hHere⟩ | ⟨before, rfl, hRest⟩
      · cases hHere
        rw [reference_of_slot _ hSlot]
        exact List.mem_cons_self
      · rw [reference_cons_of_some _ hSlot]
        exact List.mem_cons_of_mem _ (ih hRest)
  | literal hInline hSlot hValue _ ih =>
      subst hInline
      rcases List.cons_eq_append_iff.mp hSplit with
        ⟨rfl, hHere⟩ | ⟨before, rfl, hRest⟩
      · cases hHere
        rw [reference_literal hSlot, value_eq_ok hValue]
        exact List.mem_cons_self
      · rw [reference_true _ _ before]
        exact List.mem_cons_of_mem _ (ih hRest)
  | cell hInline hSlot _ _ ih =>
      subst hInline
      rcases List.cons_eq_append_iff.mp hSplit with
        ⟨rfl, hHere⟩ | ⟨before, rfl, hRest⟩
      · cases hHere
        rw [reference_cell hSlot]
        exact List.mem_cons_self
      · rw [reference_cons_of_none hSlot]
        exact List.mem_cons_of_mem _ (ih hRest)

end Stage

end FractalShader

------------------------------------------------------------
-- Cells of a Program
------------------------------------------------------------

namespace FractalShader

namespace Catalog

/- The inputs that a kind declares; unknown ones have none. -/
def inputs
    (catalog : Catalog)
    (kind : String) : List Input :=
  ((catalog.find? kind).map Kind.inputs).getD []

/-
  The inputs of enabled stages that no slot feeds, each with
  its own stage, in order.
-/
def unbound
    (catalog : Catalog)
    (p : Pipeline) : List (Stage × Input) :=
  (p.filter fun stage => stage.enabled).flatMap fun stage =>
    (stage.unbound (catalog.inputs stage.kind)).map
      fun input => (stage, input)

variable {catalog : Catalog} {stage : Stage}

theorem inputs_eq
    {kind : Kind}
    (hKind : catalog.find? stage.kind = some kind) :
    catalog.inputs stage.kind = kind.inputs := by
  simp [inputs, hKind]

theorem unbound_cons_of_enabled
    (hEnabled : stage.enabled = true)
    (p : Pipeline) :
    catalog.unbound (stage :: p) =
      (stage.unbound (catalog.inputs stage.kind)).map
          (fun input => (stage, input)) ++
        catalog.unbound p := by
  simp [unbound, hEnabled]

theorem unbound_cons_of_disabled
    (hDisabled : stage.enabled = false)
    (p : Pipeline) :
    catalog.unbound (stage :: p) = catalog.unbound p := by
  simp [unbound, hDisabled]

theorem unbound_append
    (catalog : Catalog)
    (p q : Pipeline) :
    catalog.unbound (p ++ q) =
      catalog.unbound p ++ catalog.unbound q := by
  simp [unbound]

end Catalog

namespace Program

variable {catalog : Catalog} {index : Nat}
variable {outputs : Outputs} {p : Pipeline}
variable {program : Program}

/- The cells are those of the inputs without a slot. -/
theorem Assembles.cells_eq
    (h : Assembles catalog false index outputs p program) :
    program.cells =
      (catalog.unbound p).map fun e => e.1.cell e.2 := by
  induction h with
  | nil => rfl
  | enabled hKind hEnabled hFound _ ih =>
      rw [Catalog.unbound_cons_of_enabled hEnabled,
        List.map_append, ← ih, Catalog.inputs_eq hKind,
        Stage.cells_of_references hFound, List.map_map]
      rfl
  | disabled _ hDisabled _ ih =>
      rw [Catalog.unbound_cons_of_disabled hDisabled, ih]

end Program

end FractalShader

------------------------------------------------------------
-- Layouts
------------------------------------------------------------

namespace FractalShader

/- The inputs of a stage have their places in the layout. -/
theorem Catalog.getElem?_unbound
    (catalog : Catalog)
    (before after : Pipeline)
    {stage : Stage}
    (hEnabled : stage.enabled = true)
    {earlier later : List Input}
    {input : Input}
    (hInput :
      catalog.inputs stage.kind = earlier ++ input :: later)
    (hSlot : stage.slot? input = none) :
    (catalog.unbound (before ++ stage :: after))[
        (catalog.unbound before).length +
          (stage.unbound earlier).length]? =
      some (stage, input) := by
  have hSplit :
      stage.unbound (earlier ++ input :: later) =
        stage.unbound earlier ++
          input :: stage.unbound later := by
    simp [Stage.unbound, hSlot]
  rw [unbound_append, unbound_cons_of_enabled hEnabled,
    hInput, hSplit,
    List.getElem?_append_right (Nat.le_add_right _ _)]
  simp

namespace Fragment

variable {catalog : Catalog} {settings : Settings}

/-
  The array of a fragment has a cell for each input of an
  enabled stage that no slot feeds, in order, with the value
  of that input; it is declared with that number of cells
  unless it has none.
-/
structure Laid
    (catalog : Catalog)
    (settings : Settings)
    (p : Pipeline)
    (fragment : Fragment) : Prop where
  layout :
    fragment.layout =
      (catalog.unbound p).map
        fun e => (⟨e.1.id, e.2.id⟩ : Cell)
  values :
    fragment.values =
      (catalog.unbound p).map
        fun e => e.2.resolve e.1.params
  length : fragment.values.length = fragment.layout.length
  declarations :
    fragment.declarations =
      (if fragment.layout.length = 0 then
        ""
      else
        "uniform float " ++ settings.paramArray ++ "[" ++
          toString fragment.layout.length ++ "];\n") ++
        String.join
          (Slot.all.map fun slot =>
            "uniform float " ++
              settings.slotStem.push slot.letter ++ ";\n")

theorem laid_of_cells
    {p : Pipeline}
    {program : Program}
    (hCells :
      program.cells =
        (catalog.unbound p).map fun e => e.1.cell e.2) :
    Laid catalog settings p (program.fragment settings) where
  layout := by simp [Program.fragment, hCells, Stage.cell]
  values := by simp [Program.fragment, hCells, Stage.cell]
  length := by simp [Program.fragment]
  declarations := by
    simp [Program.fragment, Settings.declarations,
      Slot.uniform]

/- The cell of an input carries its name and its value. -/
theorem Laid.getElem?_cell
    {before after : Pipeline}
    {stage : Stage}
    {fragment : Fragment}
    (h :
      fragment.Laid catalog settings
        (before ++ stage :: after))
    (hEnabled : stage.enabled = true)
    {earlier later : List Input}
    {input : Input}
    (hInput :
      catalog.inputs stage.kind = earlier ++ input :: later)
    (hSlot : stage.slot? input = none)
    {k : Nat}
    (hNumber :
      k =
        (catalog.unbound before).length +
          (stage.unbound earlier).length) :
    fragment.layout[k]? = some ⟨stage.id, input.id⟩ ∧
      fragment.values[k]? =
        some (input.resolve stage.params) := by
  have hPlace :=
    catalog.getElem?_unbound before after hEnabled hInput
      hSlot
  rw [← hNumber] at hPlace
  constructor
  · rw [h.layout, List.getElem?_map, hPlace]
    rfl
  · rw [h.values, List.getElem?_map, hPlace]
    rfl

end Fragment

end FractalShader

------------------------------------------------------------
-- What Statements Receive
------------------------------------------------------------

namespace FractalShader

/-
  The block of a stage is its passage in the text, with the
  statements that its kind writes for what the block hands
  on: the id, a variable with the number of the stage, and
  for each input the name of its slot, its value, or the cell
  with a number.  The number counts the inputs without a
  slot before it, and at its place in the layout and in the
  values stand the input and its value.
-/
structure Block.Receives
    (catalog : Catalog)
    (settings : Settings)
    (fragment : Fragment)
    (before : Pipeline)
    (stage : Stage)
    (block : Block) : Prop where
  text :
    ∃ kind,
      catalog.find? stage.kind = some kind ∧
        block.text settings =
          stage.passage settings before.length
            (block.scope settings).inputA
            (kind.body (block.scope settings))
  node : (block.scope settings).node = stage.id
  output :
    (block.scope settings).output =
      "v" ++ toString before.length
  slot :
    ∀ input ∈ catalog.inputs stage.kind, ∀ slot,
      stage.slot? input = some slot →
        (block.scope settings).param input.id =
          settings.slotStem.push slot.letter
  literal :
    settings.inlineLiterals = true →
      ∀ input ∈ catalog.inputs stage.kind,
        stage.slot? input = none →
          (block.scope settings).param input.id =
            (input.resolve stage.params).literal
  cell :
    settings.inlineLiterals = false →
      ∀ earlier input later,
        catalog.inputs stage.kind =
            earlier ++ input :: later →
          stage.slot? input = none →
            ∃ k,
              k =
                  (catalog.unbound before).length +
                    (stage.unbound earlier).length ∧
                (block.scope settings).param input.id =
                  settings.paramArray ++ "[" ++
                    toString k ++ "]" ∧
                fragment.layout[k]? =
                  some ⟨stage.id, input.id⟩ ∧
                fragment.values[k]? =
                  some (input.resolve stage.params)

namespace Stage

variable {catalog : Catalog} {settings : Settings}
variable {stage : Stage} {kind : Kind} {outputs : Outputs}
variable {references : List (String × Reference)}
variable {cells : List (Cell × F32)}

/- What a block hands on for an input is its reference. -/
theorem param_block
    (hDistinct : catalog.Distinct)
    (hKind : catalog.find? stage.kind = some kind)
    {inline : Bool}
    (hFound :
      stage.references inline outputs.cells kind.inputs =
        .ok (references, cells))
    {earlier later : List Input}
    {input : Input}
    (hInput :
      catalog.inputs stage.kind = earlier ++ input :: later)
    (settings : Settings)
    (index : Nat) :
    ((stage.block kind index outputs references).scope
        settings).param input.id =
      (stage.reference inline outputs.cells earlier
        input).text settings := by
  rw [Catalog.inputs_eq hKind] at hInput
  apply Block.param_scope settings _
    (mem_references hFound hInput)
  rw [block, keys_of_references hFound]
  exact hDistinct _ kind hKind

/- The block of an enabled stage is as it should be. -/
theorem receives_block
    (hDistinct : catalog.Distinct)
    (hKind : catalog.find? stage.kind = some kind)
    (hEnabled : stage.enabled = true)
    (hFound :
      stage.references settings.inlineLiterals outputs.cells
          kind.inputs =
        .ok (references, cells))
    {before after : Pipeline}
    {fragment : Fragment}
    (hLaid :
      settings.inlineLiterals = false →
        fragment.Laid catalog settings
          (before ++ stage :: after))
    (hCells :
      settings.inlineLiterals = false →
        outputs.cells = (catalog.unbound before).length) :
    (stage.block kind before.length outputs
        references).Receives catalog settings fragment before
      stage where
  text := ⟨kind, hKind, stage.text_block settings⟩
  node := rfl
  output := rfl
  slot := by
    intro input hMem slot hSlot
    rcases List.append_of_mem hMem with
      ⟨earlier, later, hInput⟩
    rw [param_block hDistinct hKind hFound hInput,
      reference_of_slot _ hSlot]
    rfl
  literal := by
    intro hInline input hMem hSlot
    rcases List.append_of_mem hMem with
      ⟨earlier, later, hInput⟩
    rw [hInline] at hFound
    rw [param_block hDistinct hKind hFound hInput,
      reference_literal hSlot]
    rfl
  cell := by
    intro hInline earlier input later hInput hSlot
    rw [hInline] at hFound
    refine ⟨_, rfl, ?_, ?_⟩
    · rw [param_block hDistinct hKind hFound hInput,
        reference_cell hSlot, hCells hInline]
      rfl
    · exact
        (hLaid hInline).getElem?_cell hEnabled hInput hSlot
          rfl

end Stage

namespace Program

variable {catalog : Catalog} {settings : Settings}
variable {index : Nat} {outputs : Outputs}
variable {p : Pipeline} {program : Program}

/-
  The blocks of a program are those of the enabled stages,
  in order: the induction is over the stages to come, and
  the cells of those before have been counted.
-/
theorem Assembles.receives
    (h :
      Assembles catalog settings.inlineLiterals index outputs
        p program)
    (hDistinct : catalog.Distinct)
    {before whole : Pipeline}
    (hSplit : whole = before ++ p)
    (hIndex : index = before.length)
    {fragment : Fragment}
    (hLaid :
      settings.inlineLiterals = false →
        fragment.Laid catalog settings whole)
    (hCells :
      settings.inlineLiterals = false →
        outputs.cells = (catalog.unbound before).length) :
    List.Forall₂
      (fun entry block =>
        block.Receives catalog settings fragment
          (whole.take entry.2) entry.1)
      ((p.zipIdx index).filter fun entry => entry.1.enabled)
      program.blocks := by
  induction h generalizing before with
  | nil => exact List.Forall₂.nil
  | @enabled _ _ stage rest kind _ _ _ hKind hEnabled hFound _
      ih =>
      subst hIndex
      have hNext : whole = (before ++ [stage]) ++ rest := by
        simp [hSplit]
      have hTake : whole.take before.length = before := by
        simp [hSplit]
      rw [List.zipIdx_cons, List.filter_cons, if_pos hEnabled]
      refine List.Forall₂.cons ?_ (ih hNext (by simp) ?_)
      · rw [hTake]
        rw [hSplit] at hLaid
        exact
          Stage.receives_block hDistinct hKind hEnabled hFound
            hLaid hCells
      · intro hInline
        rw [hInline] at hFound
        rw [Catalog.unbound_append,
          Catalog.unbound_cons_of_enabled hEnabled,
          Catalog.inputs_eq hKind,
          Stage.cells_of_references hFound]
        simp [Outputs.push, hCells hInline, Catalog.unbound]
  | @disabled _ _ stage rest _ _ hKind hDisabled _ ih =>
      subst hIndex
      have hNext : whole = (before ++ [stage]) ++ rest := by
        simp [hSplit]
      rw [List.zipIdx_cons, List.filter_cons,
        if_neg (by simp [hDisabled])]
      refine ih hNext (by simp) ?_
      intro hInline
      rw [Catalog.unbound_append,
        Catalog.unbound_cons_of_disabled hDisabled]
      simp [Outputs.push, hCells hInline, Catalog.unbound]

/- The blocks of a program are those of its stages. -/
theorem receives_of_ofPipeline
    (hDistinct : catalog.Distinct)
    (h :
      ofPipeline catalog settings.inlineLiterals p =
        .ok program) :
    List.Forall₂
      (fun entry block =>
        block.Receives catalog settings
          (program.fragment settings) (p.take entry.2)
          entry.1)
      (p.zipIdx.filter fun entry => entry.1.enabled)
      program.blocks := by
  have hSteps := assembles_of_assemble h
  have hSplit : p = [] ++ p := rfl
  refine hSteps.receives hDistinct hSplit rfl ?_ fun _ => rfl
  intro hInline
  rw [hInline] at hSteps
  exact Fragment.laid_of_cells hSteps.cells_eq

/- Two stages have two blocks. -/
theorem exists_two_blocks
    {R : Stage × Nat → Block → Prop}
    {first second : Stage × Nat}
    {blocks : List Block}
    (h : List.Forall₂ R [first, second] blocks) :
    ∃ one two,
      blocks = [one, two] ∧ R first one ∧ R second two := by
  rcases h with _ | ⟨hFirst, _ | ⟨hSecond, hNil⟩⟩
  cases hNil
  exact ⟨_, _, rfl, hFirst, hSecond⟩

end Program

end FractalShader
