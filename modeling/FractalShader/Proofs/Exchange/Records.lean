import FractalShader.Proofs.Exchange.Model

/-
  Records are read back from their JSON form when the
  numbers in them are.

  A number is legible when its text is read as the number,
  which none is that is not finite.  Nothing else can get
  lost: names are read whatever their characters, members
  that are left out or null are read as absent, and so are
  defaults as themselves.

  Main declarations:
    * `Number.Legible`
    * `Numbered`
    * `Legible`
    * `Record.nullable_eq`
    * `ReadsBack.input`
    * `ReadsBack.graph`
    * `ReadsBack.fragment`
    * `ReadsBack.outcome`
-/

------------------------------------------------------------
-- Numbers
------------------------------------------------------------

namespace FractalShader

/- A number of either width. -/
inductive Number where
  | single (x : F32)
  | double (x : F64)

/- The text of a number is read as the number. -/
def Number.Legible : Number → Prop
  | .single x => ofText? (compactText x) = some x
  | .double x => ofText? (compactText x) = some x

/- A type whose values hold numbers. -/
class Numbered (α : Type) where
  numbers : α → List Number

export Numbered (numbers)

/- All numbers that a value holds are legible. -/
def Legible
    {α : Type}
    [Numbered α]
    (x : α) : Prop :=
  ∀ number ∈ numbers x, number.Legible

instance : Numbered F32 where
  numbers x := [.single x]

instance : Numbered F64 where
  numbers x := [.double x]

section Collections

variable {α : Type} [Numbered α]

instance : Numbered (Option α) where
  numbers x := x.toList.flatMap numbers

instance : Numbered (List α) where
  numbers xs := xs.flatMap numbers

instance : Numbered (Dict α) where
  numbers d := d.values.flatMap numbers

theorem legible_option_iff
    {x : Option α} :
    Legible x ↔ ∀ y ∈ x, Legible y := by
  cases x <;> simp [Legible, numbers]

theorem legible_list_iff
    {xs : List α} :
    Legible xs ↔ ∀ x ∈ xs, Legible x := by
  simp only [Legible, numbers, List.mem_flatMap]
  constructor
  · exact fun h x hx number hNumber => h number ⟨x, hx, hNumber⟩
  · rintro h number ⟨x, hx, hNumber⟩
    exact h x hx number hNumber

theorem legible_dict_iff
    {d : Dict α} :
    Legible d ↔ ∀ entry ∈ d.entries, Legible entry.2 := by
  have hValues : Legible d ↔ Legible d.values := Iff.rfl
  rw [hValues, legible_list_iff]
  exact List.forall_mem_map

end Collections

namespace Binary

variable {f : Format}

/- Numbers are written without a string in them. -/
theorem clean_toJsonAs
    (x : Binary f)
    (layout : Decimal.Layout) :
    (x.toJsonAs layout).Clean := by
  unfold toJsonAs
  split <;> rfl

end Binary

namespace ReadsBack

/- A legible number is read back from its form. -/
theorem ofLegible32
    {x : F32}
    (h : Legible x) :
    ReadsBack x := by
  have hText : ofText? (compactText x) = some x :=
    h (.single x) List.mem_cons_self
  have hClean := x.clean_toJsonAs .jsonSingle
  rw [ofText?_compactText hClean] at hText
  exact ⟨hClean, hText⟩

theorem ofLegible64
    {x : F64}
    (h : Legible x) :
    ReadsBack x := by
  have hText : ofText? (compactText x) = some x :=
    h (.double x) List.mem_cons_self
  have hClean := x.clean_toJsonAs .jsonDouble
  rw [ofText?_compactText hClean] at hText
  exact ⟨hClean, hText⟩

end ReadsBack

end FractalShader

------------------------------------------------------------
-- Catalog
------------------------------------------------------------

namespace FractalShader

/- A field that may be null is read as an optional value. -/
theorem Record.nullable_eq
    {α : Type}
    [JsonForm α]
    (record : Record)
    (name : String) :
    (record.nullable name : Option (Option α)) =
      match record.fields.lookup name with
      | none =>
          if record.positional then none else some none
      | some json => JsonForm.ofJson? json := by
  unfold Record.nullable Record.nullableBy
  cases record.fields.lookup name with
  | none => rfl
  | some json => cases json <;> rfl

instance : Numbered Interval where
  numbers i := numbers i.least ++ numbers i.greatest

instance : Numbered Input where
  numbers i :=
    numbers i.range ++ numbers i.step ++ numbers i.initial ++
      numbers i.limits

instance : Numbered KindCard where
  numbers k := numbers k.inputs

/- Both parts of a value are legible when the value is. -/
theorem legible_append_iff
    {xs ys : List Number} :
    (∀ number ∈ xs ++ ys, number.Legible) ↔
      (∀ number ∈ xs, number.Legible) ∧
        ∀ number ∈ ys, number.Legible :=
  List.forall_mem_append

namespace ReadsBack

theorem arity (a : Arity) : ReadsBack a := by
  apply enumerated
  cases a <;> decide

theorem interval
    {i : Interval}
    (h : Legible i) :
    ReadsBack i := by
  rcases legible_append_iff.mp h with ⟨hLeast, hGreatest⟩
  have hLeast := ofLegible32 hLeast
  have hGreatest := ofLegible32 hGreatest
  refine ⟨Json.clean_record ?_, ?_⟩
  · simp [hLeast.clean, hGreatest.clean]
  · change
      Option.bind
          (Record.ofJson? ["min", "max"] (.record _)) _ =
        some i
    rw [Record.ofJson?_record (by simp) (by simp),
      Option.bind_some]
    simp [Record.required, List.lookup_cons, hLeast.read,
      hGreatest.read]

/- Limits, if there are any, are read back. -/
theorem limits
    {x : Option Interval}
    (h : Legible x) :
    ReadsBack x := by
  apply option
  · exact fun i hi => interval (legible_option_iff.mp h i hi)
  · intro i _ hNull
    cases hNull

theorem input
    {i : Input}
    (h : Legible i) :
    ReadsBack i := by
  rcases legible_append_iff.mp h with ⟨h, hLimits⟩
  rcases legible_append_iff.mp h with ⟨h, hInitial⟩
  rcases legible_append_iff.mp h with ⟨hRange, hStep⟩
  have hRange := interval hRange
  have hStep := ofLegible32 hStep
  have hInitial := ofLegible32 hInitial
  have hLimits := limits hLimits
  refine ⟨Json.clean_record ?_, ?_⟩
  · simp [(string _).clean, hRange.clean, hStep.clean,
      hInitial.clean, hLimits.clean]
  · change
      Option.bind (Record.ofJson? _ (.record _)) _ = some i
    rw [Record.ofJson?_record (by simp) (by simp),
      Option.bind_some]
    simp [Record.required, Record.nullable_eq,
      List.lookup_cons, (string _).read, hRange.read,
      hStep.read, hInitial.read, hLimits.read]

theorem card
    {k : KindCard}
    (h : Legible k) :
    ReadsBack k := by
  have hArity := arity k.arity
  have hInputs : ReadsBack k.inputs :=
    list fun i hi => input (legible_list_iff.mp h i hi)
  refine ⟨Json.clean_record ?_, ?_⟩
  · simp [(string _).clean, (optionString _).clean,
      hArity.clean, hInputs.clean, (bool _).clean]
  · change
      Option.bind (Record.ofJson? _ (.record _)) _ = some k
    rw [Record.ofJson?_record (by simp) (by simp),
      Option.bind_some]
    simp [Record.required, Record.nullable_eq,
      Record.defaulted, List.lookup_cons, (string _).read,
      (optionString _).read, hArity.read, hInputs.read,
      (bool _).read]

end ReadsBack

end FractalShader

------------------------------------------------------------
-- Graphs
------------------------------------------------------------

namespace FractalShader

instance : Numbered Position where
  numbers p := numbers p.x ++ numbers p.y

instance : Numbered Node where
  numbers n := numbers n.params ++ numbers n.position

instance : Numbered Edge where
  numbers _ := []

instance : Numbered Graph where
  numbers g := numbers g.nodes

instance : Numbered Stage where
  numbers s := numbers s.params

namespace ReadsBack

theorem params
    {d : Dict F32}
    (h : Legible d) :
    ReadsBack d :=
  dict fun entry hEntry =>
    ofLegible32 (legible_dict_iff.mp h entry hEntry)

theorem position
    {p : Position}
    (h : Legible p) :
    ReadsBack p := by
  rcases legible_append_iff.mp h with ⟨hX, hY⟩
  have hX := ofLegible64 hX
  have hY := ofLegible64 hY
  refine ⟨Json.clean_record ?_, ?_⟩
  · simp [hX.clean, hY.clean]
  · change
      Option.bind
          (Record.ofJson? ["x", "y"] (.record _)) _ =
        some p
    rw [Record.ofJson?_record (by simp) (by simp),
      Option.bind_some]
    simp [Record.required, List.lookup_cons, hX.read, hY.read]

theorem optionPosition
    {p : Option Position}
    (h : Legible p) :
    ReadsBack p := by
  apply option
  · exact fun q hq => position (legible_option_iff.mp h q hq)
  · intro q _ hNull
    cases hNull

/- A node is its operation with a position as last member. -/
theorem node
    {n : Node}
    (h : Legible n) :
    ReadsBack n := by
  rcases legible_append_iff.mp h with ⟨hParams, hPosition⟩
  have hParams := params hParams
  have hPosition := optionPosition hPosition
  refine ⟨Json.clean_record ?_, ?_⟩
  · intro member hMember
    rcases List.mem_append.mp hMember with hMember | hMember
    · exact n.clean_members member hMember
    · rw [List.mem_singleton.mp hMember]
      exact hPosition.clean
  · have hNodup :
        ((n.toOperation.members ++
          [("position", toJson n.position)]).map
            (·.1)).Nodup := by
      rw [List.map_append, n.map_members]
      simp [Operation.names]
    have hKnown :
        ∀ member ∈ n.toOperation.members ++
            [("position", toJson n.position)],
          member.1 ∈ Operation.names ++ ["position"] := by
      simp [Operation.members, Operation.names]
    have hRead :
        Record.defaulted
            ⟨n.toOperation.members ++
              [("position", toJson n.position)], false⟩
            "position" none =
          some n.position := by
      simp [Record.defaulted, Operation.members,
        List.lookup_cons, hPosition.read]
    change Option.bind (Record.ofJson? _ (.record _)) _ = some n
    rw [Record.ofJson?_record hKnown hNodup,
      Option.bind_some, n.ofRecord?_members, hParams.read,
      hRead]
    rfl

theorem port (p : Port) : ReadsBack p := by
  apply enumerated
  cases p <;> decide

theorem optionPort (p : Option Port) : ReadsBack p := by
  apply option
  · exact fun q _ => port q
  · intro q _ hNull
    cases hNull

theorem edge (e : Edge) : ReadsBack e := by
  have hPort := optionPort e.port
  refine ⟨Json.clean_record ?_, ?_⟩
  · simp [(string _).clean, hPort.clean]
  · change
      Option.bind (Record.ofJson? _ (.record _)) _ = some e
    rw [Record.ofJson?_record (by simp) (by simp),
      Option.bind_some]
    simp [Record.required, Record.defaulted,
      List.lookup_cons, (string _).read, hPort.read]

theorem graph
    {g : Graph}
    (h : Legible g) :
    ReadsBack g := by
  have hNodes : ReadsBack g.nodes :=
    list fun n hn => node (legible_list_iff.mp h n hn)
  have hEdges : ReadsBack g.edges := list fun e _ => edge e
  refine ⟨Json.clean_record ?_, ?_⟩
  · simp [hNodes.clean, hEdges.clean]
  · change
      Option.bind
          (Record.ofJson? ["nodes", "edges"] (.record _)) _ =
        some g
    rw [Record.ofJson?_record (by simp) (by simp),
      Option.bind_some]
    simp [Record.required, List.lookup_cons, hNodes.read,
      hEdges.read]

theorem stage
    {s : Stage}
    (h : Legible s) :
    ReadsBack s := by
  refine ⟨s.clean_toJson, ?_⟩
  rw [s.ofJson?_toJson, (params h).read]
  rfl

end ReadsBack

end FractalShader

------------------------------------------------------------
-- Fragments and Settings
------------------------------------------------------------

namespace FractalShader

instance : Numbered Cell where
  numbers _ := []

instance : Numbered Fragment where
  numbers f := numbers f.values

instance : Numbered Settings where
  numbers _ := []

instance : Numbered Outcome where
  numbers o := numbers o.fragment ++ numbers o.values

namespace ReadsBack

theorem cell (c : Cell) : ReadsBack c := by
  refine ⟨Json.clean_record ?_, ?_⟩
  · simp [(string _).clean]
  · change
      Option.bind
          (Record.ofJson? ["nodeId", "inputId"]
            (.record _)) _ =
        some c
    rw [Record.ofJson?_record (by simp) (by simp),
      Option.bind_some]
    simp [Record.required, List.lookup_cons, (string _).read]

theorem values
    {xs : List F32}
    (h : Legible xs) :
    ReadsBack xs :=
  list fun x hx => ofLegible32 (legible_list_iff.mp h x hx)

theorem fragment
    {f : Fragment}
    (h : Legible f) :
    ReadsBack f := by
  have hLayout : ReadsBack f.layout := list fun c _ => cell c
  have hValues := values h
  refine ⟨Json.clean_record ?_, ?_⟩
  · simp [(string _).clean, hLayout.clean, hValues.clean]
  · change
      Option.bind (Record.ofJson? _ (.record _)) _ = some f
    rw [Record.ofJson?_record (by simp) (by simp),
      Option.bind_some]
    simp [Record.required, List.lookup_cons, (string _).read,
      hLayout.read, hValues.read]

theorem mode (m : Mode) : ReadsBack m := by
  apply enumerated
  cases m <;> decide

theorem settings (s : Settings) : ReadsBack s := by
  have hMode := mode s.mode
  refine ⟨Json.clean_record ?_, ?_⟩
  · simp [(string _).clean, hMode.clean, (bool _).clean]
  · change
      Option.bind (Record.ofJson? _ (.record _)) _ = some s
    rw [Record.ofJson?_record (by simp) (by simp),
      Option.bind_some]
    simp [Record.defaulted, List.lookup_cons, (string _).read,
      hMode.read, (bool _).read]

/- An outcome with all that may be null in it. -/
theorem outcome
    {o : Outcome}
    (h : Legible o) :
    ReadsBack o := by
  rcases legible_append_iff.mp h with ⟨hFragment, hValues⟩
  have hFragment : ReadsBack o.fragment := by
    apply option
    · exact fun f hf =>
        fragment (legible_option_iff.mp hFragment f hf)
    · intro f _ hNull
      cases hNull
  have hValues : ReadsBack o.values := by
    apply option
    · exact fun xs hxs =>
        values (legible_option_iff.mp hValues xs hxs)
    · intro xs _ hNull
      cases hNull
  refine ⟨Json.clean_record ?_, ?_⟩
  · simp [(bool _).clean, hFragment.clean, hValues.clean,
      (optionString _).clean]
  · change
      Option.bind (Record.ofJson? _ (.record _)) _ = some o
    rw [Record.ofJson?_record (by simp) (by simp),
      Option.bind_some]
    simp [Record.required, Record.nullable_eq,
      List.lookup_cons, (bool _).read, hFragment.read,
      hValues.read, (optionString _).read]

end ReadsBack

end FractalShader
