import FractalShader.Proofs.Session.Visible
import FractalShader.Proofs.Shader.References

/-
  The values of inputs follow the history of edits.

  Three paths lead to the value of an input: what is stored
  when it is set, what a program reads, and what is handed
  out for a layout.  In a session that starts empty all
  three give the value that was set last since the node was
  added, within the limits of the input, or else the initial
  value.

  Main declarations:
    * `Desk.taken`
    * `Desk.stores_run`
    * `Session.Holds`
    * `Session.Ordered.holds`
    * `Session.follows_history`
-/

------------------------------------------------------------
-- Runs
------------------------------------------------------------

namespace FractalShader

/- A taken edit is taken by the graph, with the same id. -/
theorem Session.Ordered.answer_eq
    {s : Session}
    (h : s.Ordered)
    {supply : Supply}
    {edit : Edit}
    {outcome : Outcome}
    (hTaken : (s.apply supply edit).1 = .ok outcome) :
    (s.graph.apply supply edit).answer =
      .ok outcome.created := by
  cases hAnswer : (s.graph.apply supply edit).answer with
  | error why =>
      rw [apply_refused hAnswer] at hTaken
      cases hTaken
  | ok created =>
      rcases h.apply_taken hAnswer with
        ⟨other, _, hOther, hCreated, _⟩
      rw [hTaken] at hOther
      cases hOther
      rw [hCreated]

namespace Desk

/- The edit of a command, if it is taken. -/
def taken? (desk : Desk) : Command → Option Taken
  | .edit edit =>
      match (desk.session.apply desk.supply edit).1 with
      | .ok outcome => some ⟨edit, outcome.created⟩
      | .error _ => none
  | _ => none

/- The edits of a run that are taken, in order. -/
def taken (desk : Desk) : List Command → List Taken
  | [] => []
  | command :: commands =>
      (desk.taken? command).toList ++
        (desk.step command).taken commands

variable {desk : Desk} {history : List Taken}

/- Every command stores what the longer history tells. -/
theorem stores_step
    (hOrdered : desk.session.Ordered)
    (hStores : desk.session.graph.Stores history)
    (command : Command) :
    (desk.step command).session.graph.Stores
      (history ++ (desk.taken? command).toList) := by
  have hKeep :
      ∀ g : Graph, g = desk.session.graph →
        g.Stores (history ++ []) := by
    rintro g rfl
    rw [List.append_nil]
    exact hStores
  cases command with
  | edit edit =>
      have hGraph :=
        desk.session.apply_graph desk.supply edit
      rw [← Graph.apply_graph] at hGraph
      change
        (desk.session.apply desk.supply edit).2.1.graph.Stores _
      unfold taken?
      dsimp only
      split
      · rename_i outcome hTaken
        rw [hGraph]
        exact hStores.apply (hOrdered.answer_eq hTaken)
      · rename_i why hRejected
        rcases (hOrdered.rejected_iff why).mp hRejected with
          ⟨refusal, _, hRefused⟩
        rw [Session.apply_refused hRefused]
        exact hKeep _ rfl
  | compile => exact hKeep _ desk.session.compile_content.1
  | compileIfNeeded =>
      exact hKeep _ desk.session.compileIfNeeded_content.1
  | setMode mode => exact hKeep _ rfl

/- Every run stores what its history tells. -/
theorem stores_run
    (hOrdered : desk.session.Ordered)
    (hStores : desk.session.graph.Stores history)
    (commands : List Command) :
    (desk.run commands).session.graph.Stores
      (history ++ desk.taken commands) := by
  induction commands generalizing desk history with
  | nil =>
      rw [taken, List.append_nil]
      exact hStores
  | cons command commands ih =>
      rw [taken, ← List.append_assoc]
      exact
        ih (ordered_step hOrdered command)
          (stores_step hOrdered hStores command)

end Desk

end FractalShader

------------------------------------------------------------
-- Sessions
------------------------------------------------------------

namespace FractalShader

namespace Session

/-
  An input of a node has a value wherever it is read: as it
  is stored, at the stage of the node, in every program of
  the pipeline unless a slot is bound, and among the values
  for the layout that was compiled last.
-/
structure Holds
    (s : Session)
    (node : Node)
    (input : Input)
    (value : F32) : Prop where
  stored : node.params.get? input.id = some value
  finite : value.isFinite = true
  within : input.Within value
  resolved :
    ∃ stage,
      s.pipeline.filter (fun t => t.id == node.id) =
          [stage] ∧
        stage.value input = .ok value
  emitted :
    ∀ inline program,
      Program.ofPipeline .builtIn inline s.pipeline =
          .ok program →
        (node.enabled = true →
          ∃ block ∈ program.blocks, block.node = node.id) ∧
          ∀ block ∈ program.blocks,
            block.node = node.id →
              ∃ reference,
                (input.id, reference) ∈ block.references ∧
                  match
                    Bindings.slot? node.bindings input.id
                  with
                  | some slot => reference = .slot slot
                  | none =>
                      reference.Reads 0 program.cells
                        ⟨node.id, input.id⟩ value
  refreshed :
    ∃ values,
      s.values = .ok values ∧
        ∀ baseline ∈ s.baseline,
          values.length = baseline.fragment.layout.length ∧
            ∀ entry ∈ baseline.fragment.layout.zip values,
              entry.1 = ⟨node.id, input.id⟩ →
                entry.2 = value

variable {s : Session} {node : Node} {input : Input}
variable {value : F32}

/- All entries for an input are the value of its stage. -/
theorem refreshed_of_value
    (hValue :
      Catalog.builtIn.value s.pipeline ⟨node.id, input.id⟩ =
        .ok value) :
    ∃ values,
      s.values = .ok values ∧
        ∀ baseline ∈ s.baseline,
          values.length = baseline.fragment.layout.length ∧
            ∀ entry ∈ baseline.fragment.layout.zip values,
              entry.1 = ⟨node.id, input.id⟩ →
                entry.2 = value := by
  rcases s.exists_values with ⟨values, hValues⟩
  refine ⟨values, hValues, ?_⟩
  intro baseline hBaseline
  have hSome : s.baseline = some baseline := hBaseline
  unfold Session.values at hValues
  rw [hSome] at hValues
  rcases Answers.of_mapM_eq_ok hValues with ⟨hLength, hEach⟩
  refine ⟨hLength, ?_⟩
  intro entry hEntry hCell
  have hFound := hEach entry hEntry
  rw [hCell, hValue] at hFound
  exact (Except.ok.inj hFound).symm

/- A stored value within the limits holds everywhere. -/
theorem Ordered.holds
    (h : s.Ordered)
    (hNodup : s.graph.ids.Nodup)
    (hNode : node ∈ s.graph.nodes)
    (hReal : isSentinel node.id = false)
    (hInput :
      Catalog.builtIn.input? node.kind input.id = some input)
    (hStored : node.params.get? input.id = some value)
    (hFinite : value.isFinite = true)
    (hWithin : input.Within value) :
    s.Holds node input value := by
  have hDistinct := (Pipeline.orders_of_ofGraph h.pipeline).nodup
  have hFound : s.graph.node? node.id = some node :=
    Answers.find?_eq_some hNodup hNode
  rcases h.shows_node? hNodup hReal hFound with
    ⟨stage, hStage, hOperation⟩
  have hMem : stage ∈ s.pipeline := by
    have hKept : stage ∈ [stage] := List.mem_singleton_self _
    rw [← hStage] at hKept
    exact List.mem_of_mem_filter hKept
  have hId : stage.id = node.id :=
    congrArg Operation.id hOperation
  have hKind : stage.kind = node.kind :=
    congrArg Operation.kind hOperation
  have hBindings : stage.bindings = node.bindings :=
    congrArg Operation.bindings hOperation
  rcases Catalog.builtIn_input? hInput with
    ⟨kind, hKnown, hDeclared, hListed, _⟩
  have hProper : input.proper = true :=
    Catalog.proper_builtIn _ kind hKnown input hListed
  have hValue : stage.value input = .ok value := by
    have hParams : stage.params = node.params :=
      congrArg Operation.params hOperation
    rw [Stage.value, if_pos hProper, hParams,
      Input.resolve_eq hStored hFinite hWithin]
  refine
    ⟨hStored, hFinite, hWithin, ⟨stage, hStage, hValue⟩, ?_,
      refreshed_of_value ?_⟩
  · intro inline program hProgram
    constructor
    · intro hEnabled
      have hOn : stage.enabled = true :=
        (congrArg Operation.enabled hOperation).trans hEnabled
      rw [← hId]
      exact Program.exists_block_of_stage hProgram hMem hOn
    · intro block hBlock hName
      rcases Program.read_of_block hProgram hDistinct hMem
          (hKind ▸ hKnown) hListed hBlock
          (hName.trans hId.symm) with
        ⟨reference, hReference, hReads⟩
      refine ⟨reference, hReference, ?_⟩
      rw [Stage.slot?, hBindings] at hReads
      cases hSlot : Bindings.slot? node.bindings input.id with
      | some slot =>
          rw [hSlot] at hReads
          exact hReads
      | none =>
          rw [hSlot] at hReads
          rcases hReads with ⟨read, hReadValue, hReads⟩
          rw [hValue] at hReadValue
          cases hReadValue
          rw [← hId]
          exact hReads
  · simp only [Catalog.value, ← hId,
      Catalog.stage?_eq_some hDistinct hMem, hKind, hInput,
      hValue]

/- The values that are stored after a run are finite. -/
theorem finiteValues_run
    (h : s.graph.FiniteValues)
    (supply : Supply)
    (commands : List Command) :
    ((Desk.start s supply).run
      commands).session.graph.FiniteValues :=
  allValues_run h (fun _ hFinite => hFinite) supply commands

/- What a session stores that starts empty. -/
theorem stores_run_new
    (settings : Settings)
    (supply : Supply)
    (commands : List Command) :
    ((Desk.start (.new settings) supply).run
        commands).session.graph.Stores
      ((Desk.start (.new settings) supply).taken commands) := by
  have hOrdered := (Started.new settings).ordered
  rw [← List.nil_append (Desk.taken _ _)]
  exact
    Desk.stores_run hOrdered Graph.stores_initial commands

/-
  In a session that starts empty, every input that the kind
  of a node declares holds the value to which it was set
  last since the node was added, within the limits, or else
  its initial value.
-/
theorem follows_history
    {settings : Settings}
    {supply : Supply}
    {commands : List Command}
    (hRun :
      ((Desk.start (.new settings) supply).run
        commands).session = s)
    (hNode : node ∈ s.graph.nodes)
    {name : String}
    (hInput :
      Catalog.builtIn.input? node.kind name = some input) :
    ∃ value,
      ((∃ asked,
          LastSet node.id name
              ((Desk.start (.new settings) supply).taken
                commands)
              asked ∧
            value = input.confine asked) ∨
        (∀ asked,
            ¬ LastSet node.id name
              ((Desk.start (.new settings) supply).taken
                commands)
              asked) ∧
          value = input.initial) ∧
        s.Holds node input value := by
  have hStores := stores_run_new settings supply commands
  rw [hRun] at hStores
  have hOrdered : s.Ordered := by
    rw [← hRun]
    exact
      Desk.ordered_run (Started.new settings).ordered commands
  have hAllFinite : s.graph.FiniteValues := by
    rw [← hRun]
    exact
      finiteValues_run Graph.finiteValues_initial supply
        commands
  rcases Catalog.builtIn_input? hInput with
    ⟨kind, hKnown, _, hListed, rfl⟩
  have hReal := hStores.real_of_input? hNode hInput
  have hStored := hStores.params node hNode _ input hInput
  have hFinite := hAllFinite node hNode _ _ hStored
  refine
    ⟨_, ?_,
      hOrdered.holds hStores.nodup hNode hReal hInput hStored
        hFinite (Input.within_answer hKnown hListed hFinite)⟩
  cases hLast :
      lastSet? node.id input.id
        ((Desk.start (.new settings) supply).taken
          commands) with
  | some asked =>
      exact
        Or.inl ⟨asked, lastSet?_eq_some_iff.mp hLast, rfl⟩
  | none =>
      refine Or.inr ⟨?_, rfl⟩
      intro asked hSet
      rw [lastSet?_eq_some_iff.mpr hSet] at hLast
      cases hLast

/-
  A session in which a node is removed and added again under
  another kind, and set twice, once in vain.
-/
def readded : Session :=
  ((Desk.start (.new { mode := .manual }) {}).run
    [.edit (.addNode (some "n") "mandelbulb"),
      .edit (.setParam "n" "power" (.ofInt 100)),
      .compile,
      .edit (.removeNode "n"),
      .edit (.addNode (some "n") "mandelbulb"),
      .edit (.setParam "n" "power" (.ofInt 60)),
      .edit (.setParam "n" "scale" (.ofInt 3))]).session

/- Its node, with the greatest power there is. -/
def readdedNode : Node where
  id := "n"
  kind := "mandelbulb"
  params := Dict.empty.insert "power" (.ofInt 32)

/- The input that was set. -/
def power : Input :=
  BuiltIn.limited (BuiltIn.between 100 3200)
    (BuiltIn.input "power" "Power" 100 1600 10 800)

theorem follows_history_readded :
    readdedNode ∈ readded.graph.nodes ∧
      Catalog.builtIn.input? readdedNode.kind "power" =
        some power ∧
      readded.Holds readdedNode power (.ofInt 32) := by
  have hNode : readdedNode ∈ readded.graph.nodes := by
    decide +kernel
  have hInput :
      Catalog.builtIn.input? readdedNode.kind "power" =
        some power := by
    decide +kernel
  rcases follows_history (s := readded) rfl hNode hInput with
    ⟨value, _, hHolds⟩
  have hStored :
      readdedNode.params.get? power.id =
        some (.ofInt 32) := by
    decide +kernel
  have hValue := hHolds.stored
  rw [hStored] at hValue
  cases hValue
  exact ⟨hNode, hInput, hHolds⟩

end Session

end FractalShader
