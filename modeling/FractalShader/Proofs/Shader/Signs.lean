import FractalShader.Proofs.Catalog.Limits
import FractalShader.Proofs.Session.Inlined
import FractalShader.Proofs.Shader.Marks

/-
  Signs next to each other in shader text.

  The statements of a kind put minus signs of their own next
  to values, and a literal may start with a sign.  The two
  come together in one place only: where the limit of a box
  fold is negated and the limit is a zero with a sign.

  Main declarations:
    * `Lines.isComment`
    * `Lines.Decrements`
    * `BuiltIn.exists_spaced`
    * `Block.parted_code_iff`
    * `Stage.Writes.parted_signs_iff`
    * `Fragment.decrements_iff`
-/

------------------------------------------------------------
-- Templates of Kinds
------------------------------------------------------------

namespace FractalShader

namespace BuiltIn

/- The input of a box fold. -/
def limit : Input :=
  limited (between 0 1600)
    (input "limit" "Limit" 0 400 1 100)

/-
  No statements bring slashes together, and only those of a
  box fold may bring signs together.
-/
theorem exists_spaced :
    ∀ kind ∈ kinds, ∃ template,
      kind.body = template.render ∧
        template.Spaced '/' true ∧
        (kind.id ≠ "box_fold" ∧ template.Spaced '-' true ∨
          kind.id = "box_fold" ∧ kind.inputs = [limit] ∧
            template = boxFold) := by
  intro kind hKind
  simp only [kinds, folds, transforms, fractals, combiners,
    List.cons_append, List.nil_append, List.mem_cons,
    List.not_mem_nil, or_false] at hKind
  rcases hKind with rfl | rfl | rfl | rfl | rfl | rfl | rfl |
    rfl | rfl | rfl | rfl | rfl
  · exact ⟨_, rfl, by decide, Or.inr ⟨rfl, rfl, rfl⟩⟩
  all_goals
    exact
      ⟨_, rfl, by decide,
        Or.inl ⟨by decide, by decide⟩⟩

/- Without a sign in front of the limit they stay apart. -/
theorem spaced_boxFold :
    boxFold.Spaced '-' false := by
  decide

end BuiltIn

end FractalShader

------------------------------------------------------------
-- Limits with a Sign
------------------------------------------------------------

namespace FractalShader

/- Confining a value leaves it, or takes one of the ends. -/
theorem Interval.confine_cases
    (i : Interval)
    (value : F32) :
    i.confine value = value ∨
      i.confine value = i.least ∨
        i.confine value = i.greatest := by
  unfold Interval.confine
  dsimp only
  split <;> split <;> simp

namespace BuiltIn

/- Of the numbers that may be a limit only a zero has a sign. -/
theorem eq_zero_of_confine_limit
    {value : F32}
    {rank : Fin (Format.single.infinity + 1)}
    (h : limit.confine value = .signed true rank) :
    limit.confine value = .zero true := by
  have hProper : (between 0 1600).proper = true := by
    decide
  have hLeast : (between 0 1600).least.key? = some 0 := by
    decide
  have hNumber : value ≠ .nan := by
    rintro rfl
    rw [Input.confine_nan] at h
    cases h
  have hWithin :=
    (Interval.within_confine hProper hNumber).1
  rw [show (between 0 1600).confine value =
      .signed true rank from h, Binary.le_iff] at hWithin
  rcases hWithin with ⟨x, y, hx, hy, hLe⟩
  rw [hLeast] at hx
  cases hx
  cases hy
  have hRank : rank.val = 0 := by omega
  rw [h, Binary.zero, Binary.ofRank]
  congr 1
  apply Fin.ext
  exact hRank.trans (Nat.zero_min _).symm

/- Neither end of the limits is that zero. -/
theorem eq_zero_of_confine
    {value : F32}
    (h : limit.confine value = .zero true) :
    value = .zero true := by
  have hLeast : (between 0 1600).least ≠ .zero true := by
    decide
  have hGreatest : (between 0 1600).greatest ≠ .zero true := by
    decide
  rcases Interval.confine_cases (between 0 1600) value with
    hSame | hEnd | hEnd
  · exact hSame.symm.trans h
  · exact absurd (hEnd.symm.trans h) hLeast
  · exact absurd (hEnd.symm.trans h) hGreatest

/-
  The limit of a box fold has a sign when and only when a
  zero with a sign is stored.
-/
theorem resolve_limit_cases
    (params : Dict F32) :
    params.get? "limit" = some (.zero true) ∧
        limit.resolve params = .zero true ∨
      params.get? "limit" ≠ some (.zero true) ∧
        ∀ rank, limit.resolve params ≠ .signed true rank := by
  by_cases hStored : params.get? "limit" = some (.zero true)
  · have hWithin : limit.Within (.zero true) := by
      intro limits hLimits
      cases hLimits
      decide
    exact
      Or.inl
        ⟨hStored,
          Input.resolve_eq hStored (by decide) hWithin⟩
  · refine Or.inr ⟨hStored, fun rank hSigned => ?_⟩
    have hInitial : limit.initial ≠ .zero true := by
      decide
    have hZero :=
      eq_zero_of_confine (eq_zero_of_confine_limit hSigned)
    rw [show limit.id = "limit" from rfl] at hZero
    cases hValue : params.get? "limit" with
    | none =>
        rw [hValue] at hZero
        exact hInitial hZero
    | some value =>
        rw [hValue, Option.filter_some] at hZero
        split at hZero
        · apply hStored
          rw [hValue]
          exact congrArg some hZero
        · exact hInitial hZero

end BuiltIn

end FractalShader

------------------------------------------------------------
-- Blocks
------------------------------------------------------------

namespace FractalShader

open Lines

namespace Block

variable {settings : Settings} {c : Char}

/-
  What a block puts into its template are operands, when its
  references are.
-/
theorem fills_scope
    (h : settings.Named)
    (hMark : c ∈ marks)
    (block : Block)
    {signed : Bool}
    (hReferences :
      ∀ r ∈ block.references,
        Operand c signed (r.2.text settings).toList) :
    (block.scope settings).Fills c signed := by
  have hName :
      ∀ var : Var,
        Operand c false (var.text settings).toList :=
    fun var => (var.unmarked_text h).operand hMark false
  constructor
  · exact hName _
  · exact hName _
  · unfold Scope.inputB scope
    dsimp only
    cases block.inputB with
    | none => exact hName _
    | some var => exact hName var
  · intro input
    have hZero : Unmarked "0.0" := by decide
    rcases block.param_cases settings input with
      hNone | ⟨r, hReference, hText⟩
    · rw [hNone]
      exact hZero.operand hMark signed
    · rw [hText]
      exact hReferences r hReference

/- A guard is written without marks. -/
theorem parted_guarded_iff
    (h : settings.Named)
    (hMark : c ∈ marks)
    (guard : Guard)
    (statements : String) :
    Parted c (guarded settings guard statements).toList ↔
      Parted c statements.toList := by
  have hIf : Unmarked "if ((" := by decide
  have hRest : Clear " % " := by decide
  have hEqual : Clear ") == " := by decide
  have hOpen : Clear ") \x7b\n" := by decide
  have hClose : Clear "\x7d\n" := by decide
  have hTest :=
    (((((hIf.append h.iterationVar.clear).append hRest).append
        (clear_toString guard.modulus.toNat)).append
          hEqual).append
            (clear_toString
              guard.remainder.toNat)).append hOpen
  have hText := hTest.operand hMark false
  rw [guarded, String.toList_append,
    parted_append_iff_of_head fun hHead =>
      hClose c hMark (List.mem_of_head? hHead),
    String.toList_append,
    parted_append_iff_of_last hText.last,
    parted_indented_iff (isControl_of_mark hMark)
      (blank_ne_mark hMark),
    ← parted_iff_ofText (isControl_of_mark hMark),
    and_iff_left (parted_of_not_mem (hClose c hMark)),
    and_iff_right hText.parted]

/- A declaration is written without marks. -/
theorem unmarked_declaration
    (h : settings.Named)
    (block : Block) :
    Unmarked (block.declaration settings) := by
  have hVector : Unmarked "vec4 " := by decide
  have hTakes : Clear " = " := by decide
  have hEnd : Clear ";\n" := by decide
  have hOutput := (block.output.unmarked_text h).clear
  have hInput := (block.inputA.unmarked_text h).clear
  exact
    (((hVector.append hOutput).append hTakes).append
      hInput).append hEnd

/- A block repeats what its statements repeat. -/
theorem parted_code_iff
    (h : settings.Named)
    (hMark : c ∈ marks)
    (block : Block) :
    Parted c (block.code settings).toList ↔
      Parted c (block.body (block.scope settings)).toList := by
  have hText :=
    (unmarked_declaration h block).operand hMark false
  rw [code, String.toList_append,
    parted_append_iff_of_last hText.last,
    and_iff_right hText.parted]
  unfold statements
  cases block.guard with
  | none => rfl
  | some guard => exact parted_guarded_iff h hMark guard _

end Block

end FractalShader

------------------------------------------------------------
-- Blocks of Stages
------------------------------------------------------------

namespace FractalShader

open Lines

/- The limit is written right after a sign. -/
theorem BuiltIn.not_parted_boxFold
    {scope : Scope}
    (h : scope.param "limit" = "-0.0") :
    ¬ Parted '-' (boxFold.render scope).toList := by
  have hText :
      (boxFold.render scope).toList =
        (scope.output ++ ".xyz = clamp(" ++ scope.output ++
            ".xyz, ").toList ++
          ['-', '-'] ++
          ("0.0, -0.0) * 2.0 - " ++ scope.output ++
            ".xyz;\n").toList := by
    simp [Template.render, boxFold, lines, Piece.render, h]
  rw [hText, parted_iff, not_not]
  exact ⟨_, _, rfl⟩

namespace Stage

/-
  A box fold whose limit is not bound and is stored as the
  zero with a sign.
-/
structure NegatesZero (stage : Stage) : Prop where
  kind : stage.kind = "box_fold"
  unbound : Bindings.slot? stage.bindings "limit" = none
  stored : stage.params.get? "limit" = some (.zero true)

variable {settings : Settings} {stage : Stage}
variable {block : Block}

/- No block brings slashes together. -/
theorem Writes.parted_slashes
    {inline : Bool}
    (h : stage.Writes .builtIn inline block)
    (hNamed : settings.Named) :
    Parted '/' (block.code settings).toList := by
  have hMark : '/' ∈ marks := by decide
  rcases h with ⟨kind, _, _, _, _, hKind, _, rfl⟩
  rcases Catalog.find?_ofKinds hKind with ⟨hMem, _⟩
  rcases BuiltIn.exists_spaced kind hMem with
    ⟨template, hBody, hSpaced, _⟩
  rw [Block.parted_code_iff hNamed hMark]
  change Parted '/' (kind.body _).toList
  rw [hBody]
  apply Template.parted_render hSpaced
  apply Block.fills_scope hNamed hMark
  intro r _
  exact r.2.operand_text hNamed hMark

/- The block of a box fold has the limit as a literal. -/
theorem references_limit
    {next : Nat}
    {references : List (String × Reference)}
    {cells : List (Cell × F32)}
    (h :
      stage.references true next [BuiltIn.limit] =
        .ok (references, cells)) :
    (∃ slot,
        Bindings.slot? stage.bindings "limit" = some slot ∧
          references = [("limit", .slot slot)]) ∨
      Bindings.slot? stage.bindings "limit" = none ∧
        references =
          [("limit",
            .literal
              (BuiltIn.limit.resolve stage.params))] := by
  have hProper : BuiltIn.limit.proper = true := by
    decide
  rw [Stage.references] at h
  split at h
  · rename_i slot hSlot
    rcases Answers.bind_eq_ok_iff.mp h with ⟨_, hNone, hEq⟩
    cases hNone
    cases hEq
    exact Or.inl ⟨slot, hSlot, rfl⟩
  · rename_i hSlot
    rcases Answers.bind_eq_ok_iff.mp h with
      ⟨value, hValue, h⟩
    rw [Stage.value, if_pos hProper] at hValue
    cases hValue
    rw [if_pos rfl] at h
    rcases Answers.bind_eq_ok_iff.mp h with ⟨_, hNone, hEq⟩
    cases hNone
    cases hEq
    exact Or.inr ⟨hSlot, rfl⟩

/- A box fold repeats a sign only before such a limit. -/
theorem parted_boxFold_iff
    (hNamed : settings.Named)
    {next : Nat}
    {cells : List (Cell × F32)}
    (hKind : stage.kind = "box_fold")
    (h :
      stage.references true next [BuiltIn.limit] =
        .ok (block.references, cells)) :
    Parted '-'
        (BuiltIn.boxFold.render (block.scope settings)).toList
        ↔
      ¬ stage.NegatesZero := by
  have hMark : '-' ∈ marks := by decide
  have hParted :=
    fun hReferences =>
      Template.parted_render BuiltIn.spaced_boxFold
        (Block.fills_scope hNamed hMark block hReferences)
  rcases references_limit h with
    ⟨slot, hSlot, hEq⟩ | ⟨hSlot, hEq⟩
  · have hNot : ¬ stage.NegatesZero := by
      intro hZero
      cases hSlot.symm.trans hZero.unbound
    rw [iff_true_right hNot]
    apply hParted
    simp only [hEq, List.mem_singleton, forall_eq]
    exact
      (Reference.unmarked_slot hNamed slot).operand hMark false
  · rcases BuiltIn.resolve_limit_cases stage.params with
      ⟨hStored, hZero⟩ | ⟨hStored, hUnsigned⟩
    · have hLiteral :
          (Binary.zero true : F32).literal = "-0.0" := by
        decide
      have hParam :
          (block.scope settings).param "limit" = "-0.0" := by
        simp [Scope.param, Block.scope, hEq, hZero,
          Dict.get?_ofList, Reference.text, hLiteral]
      have hHolds : stage.NegatesZero :=
        ⟨hKind, hSlot, hStored⟩
      rw [iff_false_right (not_not.mpr hHolds)]
      exact BuiltIn.not_parted_boxFold hParam
    · have hNot : ¬ stage.NegatesZero :=
        fun hZero => hStored hZero.stored
      rw [iff_true_right hNot]
      apply hParted
      simp only [hEq, List.mem_singleton, forall_eq]
      exact Binary.operand_literal_unsigned hUnsigned

/- Signs come together where a zero is negated once more. -/
theorem Writes.parted_signs_iff
    (h : stage.Writes .builtIn true block)
    (hNamed : settings.Named) :
    Parted '-' (block.code settings).toList ↔
      ¬ stage.NegatesZero := by
  have hMark : '-' ∈ marks := by decide
  rcases h with
    ⟨kind, index, outputs, references, cells, hKind, hFound,
      rfl⟩
  rcases Catalog.find?_ofKinds hKind with ⟨hMem, hId⟩
  rcases BuiltIn.exists_spaced kind hMem with
    ⟨template, hBody, _, hCases⟩
  rw [Block.parted_code_iff hNamed hMark]
  change Parted '-' (kind.body _).toList ↔ _
  rw [hBody]
  rcases hCases with
    ⟨hOther, hSpaced⟩ | ⟨hBox, hInputs, rfl⟩
  · have hNot : ¬ stage.NegatesZero :=
      fun hZero => hOther (hId.trans hZero.kind)
    rw [iff_true_right hNot]
    apply Template.parted_render hSpaced
    apply Block.fills_scope hNamed hMark
    intro r _
    exact r.2.operand_text hNamed hMark
  · rw [hInputs] at hFound
    exact
      parted_boxFold_iff hNamed (hId.symm.trans hBox) hFound

end Stage

end FractalShader

------------------------------------------------------------
-- Lines of Programs
------------------------------------------------------------

namespace FractalShader

open Lines

namespace Lines

/- A line that holds a comment only. -/
def isComment (line : String) : Bool :=
  ['/', '/'].isPrefixOf line.toList

/- A line that takes one from a variable. -/
def Decrements (line : String) : Prop :=
  ['-', '-'] <:+: line.toList

instance (line : String) : Decidable (Decrements line) := by
  unfold Decrements
  infer_instance

theorem isComment_headline
    (node kind : String) :
    isComment (headline node kind) = true := by
  simp [isComment, headline]

theorem isComment_of_parted
    {line : String}
    (h : Parted '/' line.toList) :
    isComment line = false := by
  rw [parted_iff] at h
  rw [isComment, Bool.eq_false_iff, ne_eq,
    List.isPrefixOf_iff_prefix]
  exact fun hPrefix => h hPrefix.isInfix

/- Within one text the lines tell whether signs meet. -/
theorem exists_decrements_iff
    (text : String) :
    (∃ line ∈ ofText text, Decrements line) ↔
      ¬ Parted '-' text.toList := by
  rw [parted_iff_ofText (by decide)]
  simp only [parted_iff, Decrements]
  push Not
  rfl

end Lines

variable {settings : Settings}

namespace Stage

variable {stage : Stage} {block : Block}

theorem Writes.isComment_code
    {inline : Bool}
    (h : stage.Writes .builtIn inline block)
    (hNamed : settings.Named) :
    ∀ line ∈ ofText (block.code settings),
      isComment line = false := by
  have hCode := h.parted_slashes hNamed
  rw [parted_iff_ofText (by decide)] at hCode
  intro line hLine
  exact isComment_of_parted (hCode line hLine)

theorem Writes.headline_eq
    {inline : Bool}
    (h : stage.Writes .builtIn inline block) :
    block.headline = headline stage.id stage.kind := by
  rcases h with ⟨_, _, _, _, _, _, _, rfl⟩
  rfl

/- The headline is the only comment of a block. -/
theorem Writes.filter_lines
    {inline : Bool}
    (h : stage.Writes .builtIn inline block)
    (hNamed : settings.Named) :
    (block.lines settings).filter isComment =
      [headline stage.id stage.kind] := by
  rw [Block.lines, h.headline_eq, List.filter_cons,
    if_pos (isComment_headline _ _), List.cons_eq_cons,
    List.filter_eq_nil_iff]
  refine ⟨rfl, fun line hLine => ?_⟩
  simp [h.isComment_code hNamed line hLine]

/- Signs come together in the code of a block only. -/
theorem Writes.decrements_lines_iff
    (h : stage.Writes .builtIn true block)
    (hNamed : settings.Named) :
    (∃ line ∈ block.lines settings,
        isComment line = false ∧ Decrements line) ↔
      stage.NegatesZero := by
  have hCode := h.isComment_code hNamed
  have hSigns :
      (∃ line ∈ ofText (block.code settings),
          Decrements line) ↔
        stage.NegatesZero := by
    rw [exists_decrements_iff, h.parted_signs_iff hNamed,
      not_not]
  rw [← hSigns, Block.lines, h.headline_eq,
    List.exists_mem_cons_iff]
  simp only [isComment_headline, Bool.true_eq_false, false_and,
    false_or]
  exact
    exists_congr fun line =>
      and_congr_right fun hLine =>
        and_iff_right (hCode line hLine)

end Stage

namespace Program

/- The last line is written without marks. -/
theorem unmarked_closing
    (h : settings.Named)
    (program : Program) :
    Unmarked (program.closing settings) := by
  have hTakes : Clear " = " := by decide
  have hEnd : Clear ";\n" := by decide
  have hResult := (program.result.unmarked_text h).clear
  exact
    ((h.stateVar.append hTakes).append hResult).append hEnd

theorem filter_closing
    (h : settings.Named)
    (program : Program) :
    (ofText (program.closing settings)).filter isComment =
      [] := by
  have hSlashes :
      ∀ line ∈ ofText (program.closing settings),
        Parted '/' line.toList := by
    rw [← parted_iff_ofText (by decide)]
    exact
      parted_of_not_mem
        ((unmarked_closing h program).clear '/'
          (by decide))
  rw [List.filter_eq_nil_iff]
  intro line hLine
  simp [isComment_of_parted (hSlashes line hLine)]

theorem not_decrements_closing
    (h : settings.Named)
    (program : Program) :
    ¬ ∃ line ∈ ofText (program.closing settings),
        Decrements line := by
  rw [exists_decrements_iff, not_not]
  exact
    parted_of_not_mem
      ((unmarked_closing h program).clear '-'
        (by decide))

variable {stages : List Stage} {blocks : List Block}

theorem lined_of_writes
    {inline : Bool}
    (h :
      List.Forall₂ (Stage.Writes .builtIn inline) stages
        blocks) :
    ∀ block ∈ blocks, block.Lined := by
  induction h with
  | nil => simp
  | cons hFirst _ ih =>
      exact List.forall_mem_cons.mpr ⟨hFirst.lined, ih⟩

theorem filter_of_writes
    {inline : Bool}
    (h :
      List.Forall₂ (Stage.Writes .builtIn inline) stages
        blocks)
    (hNamed : settings.Named) :
    (blocks.flatMap (Block.lines settings)).filter isComment =
      stages.map fun stage =>
        headline stage.id stage.kind := by
  induction h with
  | nil => rfl
  | cons hFirst _ ih =>
      rw [List.flatMap_cons, List.filter_append,
        hFirst.filter_lines hNamed, ih]
      rfl

theorem decrements_of_writes
    (h :
      List.Forall₂ (Stage.Writes .builtIn true) stages blocks)
    (hNamed : settings.Named) :
    (∃ line ∈ blocks.flatMap (Block.lines settings),
        isComment line = false ∧ Decrements line) ↔
      ∃ stage ∈ stages, stage.NegatesZero := by
  induction h with
  | nil => simp
  | cons hFirst _ ih =>
      rw [List.flatMap_cons, List.exists_mem_cons_iff, ← ih,
        ← hFirst.decrements_lines_iff hNamed]
      simp only [List.mem_append, or_and_right, exists_or]

variable {p : Pipeline} {program : Program}

/- The comments of a program are its headlines. -/
theorem filter_source
    {inline : Bool}
    (h : assemble .builtIn inline 0 .start p = .ok program)
    (hNamed : settings.Named) :
    (ofText (program.source settings)).filter isComment =
      (p.filter fun stage => stage.enabled).map fun stage =>
        headline stage.id stage.kind := by
  have hWrites := writes_of_assemble h
  rw [ofText_source (lined_of_writes hWrites),
    List.filter_append, filter_of_writes hWrites hNamed,
    filter_closing hNamed, List.append_nil]

/- Signs come together before a zero with a sign. -/
theorem decrements_source_iff
    (h : assemble .builtIn true 0 .start p = .ok program)
    (hNamed : settings.Named) :
    (∃ line ∈ ofText (program.source settings),
        isComment line = false ∧ Decrements line) ↔
      ∃ stage ∈ p,
        stage.enabled = true ∧ stage.NegatesZero := by
  have hWrites := writes_of_assemble h
  have hClosing := not_decrements_closing hNamed program
  have hStages :
      (∃ stage ∈ p,
          stage.enabled = true ∧ stage.NegatesZero) ↔
        ∃ stage ∈ p.filter (fun stage => stage.enabled),
          stage.NegatesZero := by
    simp only [List.mem_filter, and_assoc]
  rw [ofText_source (lined_of_writes hWrites), hStages,
    ← decrements_of_writes hWrites hNamed]
  simp only [List.mem_append, or_and_right, exists_or]
  constructor
  · rintro (hBlocks | ⟨line, hLine, _, hSigns⟩)
    · exact hBlocks
    · exact absurd ⟨line, hLine, hSigns⟩ hClosing
  · exact Or.inl

end Program

namespace Fragment

/-
  With values in the text, every pipeline of built-in kinds
  has a fragment whose comments name its enabled stages, and
  another line of it takes one from something when and only
  when the limit of an enabled box fold is not bound and is
  stored as the zero with a sign.
-/
theorem decrements_iff
    {p : Pipeline}
    (hKnown :
      ∀ stage ∈ p,
        Catalog.builtIn.contains stage.kind = true) :
    ∃ fragment,
      ofPipeline .builtIn { inlineLiterals := true } p =
          .ok fragment ∧
        (ofText fragment.source).filter isComment =
          ((p.filter fun stage => stage.enabled).map
            fun stage => headline stage.id stage.kind) ∧
        ((∃ line ∈ ofText fragment.source,
            isComment line = false ∧ Decrements line) ↔
          ∃ stage ∈ p,
            stage.enabled = true ∧ stage.NegatesZero) := by
  have hNamed := Settings.named_default .auto true
  rcases (Program.exists_assemble_iff Catalog.proper_builtIn
      true 0 .start p).mpr hKnown with
    ⟨program, hProgram⟩
  refine
    ⟨program.fragment { inlineLiterals := true }, ?_, ?_, ?_⟩
  · simp only [ofPipeline, Program.ofPipeline, hProgram]
    rfl
  · exact Program.filter_source hProgram hNamed
  · exact Program.decrements_source_iff hProgram hNamed

/- A scale with a sign, and a box fold that negates a zero. -/
def negatedZero : Pipeline :=
  [ { id := "s"
      kind := "scale"
      params := Dict.empty.insert "scale" (.ofInt (-2)) }
  , { id := "b--"
      kind := "box_fold"
      params := Dict.empty.insert "limit" (.zero true) } ]

theorem decrements_iff_negatedZero :
    ∃ fragment,
      ofPipeline .builtIn { inlineLiterals := true }
            negatedZero =
          .ok fragment ∧
        (ofText fragment.source).filter isComment =
          ["// s (scale)", "// b-- (box_fold)"] ∧
        ∃ line ∈ ofText fragment.source,
          isComment line = false ∧ Decrements line := by
  have hKnown :
      ∀ stage ∈ negatedZero,
        Catalog.builtIn.contains stage.kind = true := by
    decide +kernel
  rcases decrements_iff hKnown with
    ⟨fragment, hFragment, hComments, hSigns⟩
  refine ⟨fragment, hFragment, ?_, hSigns.mpr ?_⟩
  · rw [hComments]
    decide +kernel
  · refine
      ⟨_, List.mem_cons_of_mem _ List.mem_cons_self, rfl, ?_⟩
    refine ⟨rfl, ?_, ?_⟩ <;> decide +kernel

end Fragment

namespace Desk

/- A session that folds about nothing, with a sign. -/
def foldedZero : Desk :=
  (start (.new { inlineLiterals := true }) {}).run
    [.edit (.addNode (some "b") "box_fold"),
      .edit (.setParam "b" "limit" (.zero true))]

/- What the renderer shows takes one from a number. -/
theorem shows_decrement :
    foldedZero.renderer.fragment.map (fun f =>
          (ofText f.source).filter fun line =>
            !isComment line) =
        some
          [ "vec4 v0 = z;"
          , "v0.xyz = clamp(v0.xyz, --0.0, -0.0) * 2.0 - v0.xyz;"
          , "z = v0;" ] ∧
      Decrements
        "v0.xyz = clamp(v0.xyz, --0.0, -0.0) * 2.0 - v0.xyz;"
      := by
  constructor <;> decide +kernel

end Desk

end FractalShader
