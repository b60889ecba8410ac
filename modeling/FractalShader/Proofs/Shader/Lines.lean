import FractalShader.Proofs.Shader.Wiring

/-
  The lines of shader text.

  The text of a program is put together from parts that end
  with their lines, so its lines are those of the parts: for
  each block a line that names its node, and those of its
  code.

  Main declarations:
    * `Lines.Ended`
    * `Lines.split_append`
    * `Lines.Quiet`
    * `Lines.ofText_line`
    * `Lines.headline`
    * `Block.lines`
    * `Program.ofText_source`
    * `Stage.Writes`
    * `Program.writes_of_assemble`
-/

------------------------------------------------------------
-- Texts That End with Their Lines
------------------------------------------------------------

namespace FractalShader

namespace Lines

/- A text that has no unfinished line. -/
def Ended (text : List Char) : Prop :=
  ∀ c ∈ text.getLast?, c = '\n'

theorem ended_nil : Ended [] := by
  intro c hc
  cases hc

/- What follows a text that has no unfinished line. -/
theorem Ended.append
    {xs ys : List Char}
    (hXs : Ended xs)
    (hYs : Ended ys) :
    Ended (xs ++ ys) := by
  intro c hc
  rw [List.getLast?_append] at hc
  cases hLast : ys.getLast? with
  | none =>
      rw [hLast] at hc
      exact hXs c hc
  | some d =>
      rw [hLast] at hc
      cases hc
      exact hYs c hLast

theorem Ended.tail
    {c : Char}
    {rest : List Char}
    (h : Ended (c :: rest)) :
    Ended rest := by
  intro d hd
  apply h
  rw [List.getLast?_cons, hd]
  rfl

theorem ended_line (line : List Char) :
    Ended (line ++ ['\n']) := by
  intro c hc
  rw [List.getLast?_concat] at hc
  cases hc
  rfl

/- It does not matter what stands before a line. -/
theorem ended_append_line
    (text line : List Char) :
    Ended (text ++ (line ++ ['\n'])) := by
  rw [← List.append_assoc]
  exact ended_line _

/- A character that ends no line stays in the first line. -/
theorem split_cons
    {c : Char}
    {rest : List Char}
    (hEnd : c ≠ '\n')
    (hReturn : c = '\r' → rest.head? ≠ some '\n') :
    split (c :: rest) =
      ((split rest).head?.map (c :: ·)).getD [c] ::
        (split rest).tail := by
  rw [split]
  · cases split rest <;> rfl
  · exact hEnd
  · rintro later rfl rfl
    exact hReturn rfl rfl

theorem split_eq_nil_iff (text : List Char) :
    split text = [] ↔ text = [] := by
  fun_cases split text <;> simp_all

/- Lines of a text without an unfinished one are complete. -/
theorem split_append
    {xs : List Char}
    (hEnded : Ended xs)
    (ys : List Char) :
    split (xs ++ ys) = split xs ++ split ys := by
  fun_induction split xs with
  | case1 => rfl
  | case2 rest ih =>
      rw [List.cons_append, split, List.cons_append, ih]
      exact Ended.tail hEnded
  | case3 rest ih =>
      rw [List.cons_append, List.cons_append, split,
        List.cons_append, ih]
      exact Ended.tail (Ended.tail hEnded)
  | case4 c rest hEnd hReturn hNil =>
      rw [split_eq_nil_iff] at hNil
      subst hNil
      cases hEnd (hEnded c rfl)
  | case5 c rest hEnd hReturn line lines hLines ih =>
      have hHead : (rest ++ ys).head? = rest.head? := by
        cases rest with
        | nil => cases hLines
        | cons d rest => rfl
      rw [List.cons_append, split_cons hEnd]
      · rw [ih (Ended.tail hEnded), hLines]
        rfl
      · rw [hHead]
        rintro rfl hEq
        rcases List.head?_eq_some_iff.mp hEq with ⟨later, rfl⟩
        exact hReturn later rfl rfl

/- A line is read back up to its end. -/
theorem split_line
    {line : List Char}
    (hPlain : ∀ c ∈ line, isControl c = false) :
    split (line ++ ['\n']) = [line] := by
  induction line with
  | nil => rfl
  | cons c line ih =>
      rw [List.forall_mem_cons] at hPlain
      rw [List.cons_append, split_cons, ih hPlain.2]
      · rfl
      · rintro rfl
        cases hPlain.1
      · rintro rfl
        cases hPlain.1

theorem ofText_append
    {text : String}
    (hEnded : Ended text.toList)
    (other : String) :
    ofText (text ++ other) = ofText text ++ ofText other := by
  rw [ofText, String.toList_append, split_append hEnded,
    List.map_append]
  rfl

/- Texts without unfinished lines have lines of their own. -/
theorem ofText_join
    {texts : List String}
    (hEnded : ∀ text ∈ texts, Ended text.toList) :
    ofText (String.join texts) = texts.flatMap ofText := by
  induction texts with
  | nil => rfl
  | cons text texts ih =>
      rw [List.forall_mem_cons] at hEnded
      rw [String.join_cons, ofText_append hEnded.1,
        ih hEnded.2]
      rfl

/- Texts without unfinished lines make another one. -/
theorem ended_join
    {texts : List String}
    (hEnded : ∀ text ∈ texts, Ended text.toList) :
    Ended (String.join texts).toList := by
  induction texts with
  | nil => exact ended_nil
  | cons text texts ih =>
      rw [List.forall_mem_cons] at hEnded
      rw [String.join_cons, String.toList_append]
      exact hEnded.1.append (ih hEnded.2)

/- A text without control characters. -/
def Quiet (text : String) : Prop :=
  ∀ c ∈ text.toList, isControl c = false

instance (text : String) : Decidable (Quiet text) :=
  List.decidableBAll (fun c => isControl c = false) text.toList

theorem Quiet.append
    {text other : String}
    (hText : Quiet text)
    (hOther : Quiet other) :
    Quiet (text ++ other) := by
  intro c hc
  rw [String.toList_append, List.mem_append] at hc
  exact hc.elim (hText c) (hOther c)

theorem ofText_line
    {line : String}
    (hQuiet : Quiet line) :
    ofText (line ++ "\n") = [line] := by
  rw [ofText, String.toList_append]
  change (split (line.toList ++ ['\n'])).map _ = _
  rw [split_line hQuiet, List.map_singleton,
    String.ofList_toList]

/- What is safe for a comment controls nothing. -/
theorem quiet_commentSafe
    (text : String) :
    Quiet (commentSafe text) := by
  intro c hc
  rw [commentSafe, String.toList_map, List.mem_map] at hc
  rcases hc with ⟨d, _, rfl⟩
  split
  · decide
  · rename_i hNot
    simpa using hNot

/- A text without control characters is safe as it is. -/
theorem commentSafe_of_quiet
    {text : String}
    (h : Quiet text) :
    commentSafe text = text := by
  have hSame :
      text.toList.map
          (fun c => if isControl c then ' ' else c) =
        text.toList := by
    conv_rhs => rw [← List.map_id text.toList]
    apply List.map_congr_left
    intro c hc
    rw [h c hc]
    rfl
  rw [commentSafe, ← String.toList_inj, String.toList_map,
    hSame]

end Lines

end FractalShader

------------------------------------------------------------
-- Lines of Templates
------------------------------------------------------------

namespace FractalShader

namespace BuiltIn

open Lines

/- A template made of lines has no unfinished one. -/
theorem ended_render_lines
    (rows : List (List Piece))
    (scope : Scope) :
    Ended ((lines rows).render scope).toList := by
  induction rows with
  | nil => exact ended_nil
  | cons row rows ih =>
      have hRow :
          (lines (row :: rows)).render scope =
            String.join (row.map (Piece.render scope)) ++
              "\n" ++ (lines rows).render scope := by
        simp [lines, Template.render, Piece.render,
          String.append_assoc]
      rw [hRow, String.toList_append, String.toList_append]
      exact (ended_line _).append ih

/- The statements of every built-in kind are lines. -/
theorem exists_lines :
    ∀ kind ∈ kinds, ∃ rows, kind.body = (lines rows).render := by
  simp only [kinds, folds, transforms, fractals, combiners,
    List.cons_append, List.nil_append, List.forall_mem_cons]
  refine
    ⟨⟨_, rfl⟩, ⟨_, rfl⟩, ⟨_, rfl⟩, ⟨_, rfl⟩, ⟨_, rfl⟩,
      ⟨_, rfl⟩, ⟨_, rfl⟩, ⟨_, rfl⟩, ⟨_, rfl⟩, ⟨_, rfl⟩,
      ⟨_, rfl⟩, ⟨_, rfl⟩, ?_⟩
  simp

end BuiltIn

end FractalShader

------------------------------------------------------------
-- Lines of Programs
------------------------------------------------------------

namespace FractalShader

open Lines

/- The line that names a node and its kind. -/
def Lines.headline (node kind : String) : String :=
  "// " ++ Lines.commentSafe node ++ " (" ++ kind ++ ")"

/- Neither an id nor a kind breaks the line. -/
theorem Lines.quiet_headline
    (node : String)
    {kind : String}
    (hKind : Quiet kind) :
    Quiet (headline node kind) := by
  have hStart : Quiet "// " := by decide
  have hOpen : Quiet " (" := by decide
  have hClose : Quiet ")" := by decide
  have hNode := quiet_commentSafe node
  exact
    (((hStart.append hNode).append hOpen).append hKind).append
      hClose

namespace Block

/- The line that names the node of a block. -/
def headline (block : Block) : String :=
  Lines.headline block.node block.kind

/- What a block adds after that line. -/
def code
    (settings : Settings)
    (block : Block) : String :=
  block.declaration settings ++ block.statements settings

/- The line that names the node, and those of the code. -/
def lines
    (settings : Settings)
    (block : Block) : List String :=
  block.headline :: ofText (block.code settings)

/- A block whose kind fits in a line and writes lines. -/
structure Lined (block : Block) : Prop where
  kind : Quiet block.kind
  body : ∀ scope, Ended (block.body scope).toList

theorem text_eq
    (settings : Settings)
    (block : Block) :
    block.text settings =
      block.headline ++ "\n" ++ block.code settings := by
  have hEnd : ")\n" = ")" ++ "\n" := rfl
  rw [text, header, hEnd, headline, Lines.headline, code]
  simp only [String.append_assoc]

variable {block : Block}

theorem Lined.ended_statements
    (h : block.Lined)
    (settings : Settings) :
    Ended (block.statements settings).toList := by
  unfold statements
  cases block.guard with
  | none => exact h.body _
  | some guard =>
      dsimp only
      rw [guarded, String.toList_append]
      exact ended_append_line _ ['\x7d']

theorem Lined.ended_code
    (h : block.Lined)
    (settings : Settings) :
    Ended (block.code settings).toList := by
  rw [code, String.toList_append]
  apply Ended.append _ (h.ended_statements settings)
  rw [declaration, String.toList_append]
  exact ended_append_line _ [';']

theorem Lined.ended_text
    (h : block.Lined)
    (settings : Settings) :
    Ended (block.text settings).toList := by
  rw [text_eq, String.toList_append, String.toList_append]
  exact (ended_line _).append (h.ended_code settings)

theorem Lined.ofText_text
    (h : block.Lined)
    (settings : Settings) :
    ofText (block.text settings) = block.lines settings := by
  have hEnded : Ended (block.headline ++ "\n").toList := by
    rw [String.toList_append]
    exact ended_line _
  rw [text_eq, ofText_append hEnded,
    headline, ofText_line (quiet_headline _ h.kind)]
  rfl

theorem ended_texts
    {blocks : List Block}
    (h : ∀ block ∈ blocks, block.Lined)
    (settings : Settings) :
    ∀ text ∈ blocks.map (Block.text settings),
      Ended text.toList := by
  intro text hText
  rcases List.mem_map.mp hText with ⟨block, hBlock, rfl⟩
  exact (h block hBlock).ended_text settings

/- The lines of blocks are those of each. -/
theorem ofText_texts
    {blocks : List Block}
    (h : ∀ block ∈ blocks, block.Lined)
    (settings : Settings) :
    ofText (String.join (blocks.map (Block.text settings))) =
      blocks.flatMap (Block.lines settings) := by
  rw [ofText_join (ended_texts h settings), List.flatMap_map]
  apply List.flatMap_congr
  intro block hBlock
  exact (h block hBlock).ofText_text settings

end Block

namespace Program

/- The statement that hands on the result. -/
def closing
    (settings : Settings)
    (program : Program) : String :=
  settings.stateVar ++ " = " ++
    program.result.text settings ++ ";\n"

/- The lines of a program are those of its blocks and one. -/
theorem ofText_source
    {program : Program}
    (h : ∀ block ∈ program.blocks, block.Lined)
    (settings : Settings) :
    ofText (program.source settings) =
      program.blocks.flatMap (Block.lines settings) ++
        ofText (program.closing settings) := by
  have hSource :
      program.source settings =
        String.join
            (program.blocks.map (Block.text settings)) ++
          program.closing settings := by
    rw [source, closing]
    simp only [String.append_assoc]
  rw [hSource,
    ofText_append (ended_join (Block.ended_texts h settings)),
    Block.ofText_texts h]

end Program

end FractalShader

------------------------------------------------------------
-- Blocks of Stages
------------------------------------------------------------

namespace FractalShader

open Lines

/-
  A block is that of a stage, whatever has run before, and
  has the references of the inputs of its kind.
-/
def Stage.Writes
    (catalog : Catalog)
    (inline : Bool)
    (stage : Stage)
    (block : Block) : Prop :=
  ∃ kind index outputs references cells,
    catalog.find? stage.kind = some kind ∧
      stage.references inline outputs.cells kind.inputs =
        .ok (references, cells) ∧
      block = stage.block kind index outputs references

namespace Program

/- The blocks are those of the enabled stages, in order. -/
theorem writes_of_assemble
    {catalog : Catalog}
    {inline : Bool}
    {index : Nat}
    {outputs : Outputs}
    {pipeline : Pipeline}
    {program : Program}
    (h :
      assemble catalog inline index outputs pipeline =
        .ok program) :
    List.Forall₂ (Stage.Writes catalog inline)
      (pipeline.filter fun stage => stage.enabled)
      program.blocks := by
  have hSteps := assembles_of_assemble h
  clear h
  induction hSteps with
  | nil => exact .nil
  | enabled hKind hEnabled hFound _ ih =>
      rw [List.filter_cons, if_pos hEnabled]
      exact
        .cons ⟨_, _, _, _, _, hKind, hFound, rfl⟩ ih
  | disabled _ hDisabled _ ih =>
      rw [List.filter_cons, if_neg (by simp [hDisabled])]
      exact ih

end Program

/- The block of a built-in kind writes lines. -/
theorem Stage.Writes.lined
    {inline : Bool}
    {stage : Stage}
    {block : Block}
    (h : stage.Writes .builtIn inline block) :
    block.Lined := by
  rcases h with ⟨kind, _, _, _, _, hKind, _, rfl⟩
  rcases Catalog.find?_ofKinds hKind with ⟨hMem, hId⟩
  have hIds :
      ∀ kind ∈ BuiltIn.kinds, Quiet kind.id := by
    decide
  constructor
  · rw [Stage.block, ← hId]
    exact hIds kind hMem
  · intro scope
    rcases BuiltIn.exists_lines kind hMem with ⟨rows, hBody⟩
    change Ended (kind.body scope).toList
    rw [hBody]
    exact BuiltIn.ended_render_lines rows scope

end FractalShader
