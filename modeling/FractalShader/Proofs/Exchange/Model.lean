import FractalShader.Proofs.Exchange.Form

/-
  Pipelines are read back from their text.

  All that can get lost is a stored value: one that is not
  finite has no number to spell it.

  Main declarations:
    * `Operation.ofRecord?_members`
    * `Stage.ofJson?_toJson`
    * `Pipeline.Readable.ofJson?_toJson`
    * `Pipeline.ofJson?_toJson_eq_none`
-/

------------------------------------------------------------
-- Operations
------------------------------------------------------------

namespace FractalShader

namespace ReadsBack

theorem slot (s : Slot) : ReadsBack s := by
  apply enumerated
  cases s <;> decide

theorem guard (g : Guard) : ReadsBack g := by
  have hActive := bool g.active
  have hModulus := uint32 g.modulus
  have hRemainder := uint32 g.remainder
  refine ⟨Json.clean_record ?_, ?_⟩
  · simp [hActive.clean, hModulus.clean, hRemainder.clean]
  · change
      Option.bind
          (Record.ofJson? ["active", "modulus", "remainder"]
            (.record _)) _ =
        some g
    rw [Record.ofJson?_record (by simp) (by simp),
      Option.bind_some]
    simp [Record.required, List.lookup_cons, hActive.read,
      hModulus.read, hRemainder.read]

/- Bindings are read back, cleared ones included. -/
theorem bindings (b : Bindings) : ReadsBack b := by
  apply dict
  intro entry _
  apply option
  · exact fun s _ => slot s
  · intro s _ hNull
    cases hNull

end ReadsBack

namespace Operation

/- No guard looks like an absent one. -/
theorem readsBack_guard (o : Operation) :
    ReadsBack o.guard := by
  apply ReadsBack.option
  · exact fun g _ => .guard g
  · intro g _ hNull
    cases hNull

/- The forms of the fields are clean. -/
theorem clean_members (o : Operation) :
    ∀ member ∈ o.members, member.2.Clean := by
  have hParams : (toJson o.params).Clean :=
    Json.clean_dict fun entry _ => Binary.clean_toJson entry.2
  have hBindings := ReadsBack.bindings o.bindings
  simp [members, (ReadsBack.string _).clean,
    (ReadsBack.bool _).clean, hParams, hBindings.clean,
    o.readsBack_guard.clean]

/-
  An operation is read from its fields, whatever follows,
  with the values that are read for its own.
-/
theorem ofRecord?_members
    (o : Operation)
    (rest : List (String × Json)) :
    ofRecord? ⟨o.members ++ rest, false⟩ =
      (ofJson? (toJson o.params)).map fun params =>
        { o with params } := by
  have hBindings := ReadsBack.bindings o.bindings
  cases hParams :
      (ofJson? (toJson o.params) : Option (Dict F32)) <;>
    simp [ofRecord?, members, Record.required,
      Record.defaulted, List.lookup_cons,
      (ReadsBack.string _).read, (ReadsBack.bool _).read,
      hBindings.read, o.readsBack_guard.read, hParams]

/- The members of an operation have its names, in order. -/
theorem map_members (o : Operation) :
    o.members.map (·.1) = names :=
  rfl

end Operation

end FractalShader

------------------------------------------------------------
-- Stages
------------------------------------------------------------

namespace FractalShader

namespace ReadsBack

theorem optionString (s : Option String) : ReadsBack s := by
  apply option
  · exact fun name _ => string name
  · intro name _ hNull
    cases hNull

/- Sources that are left out are read as missing. -/
theorem sources (s : Sources) : ReadsBack s := by
  have hPresent :
      ∀ name : String,
        (ofJson? (toJson name) : Option (Option String)) =
          some (some name) :=
    fun name => (optionString (some name)).read
  have hKnown :
      ∀ member ∈ s.members, member.1 ∈ ["a", "b"] := by
    rcases s with ⟨_ | a, _ | b⟩ <;>
      simp [Sources.members, Sources.member]
  have hNodup : (s.members.map (·.1)).Nodup := by
    rcases s with ⟨_ | a, _ | b⟩ <;>
      simp [Sources.members, Sources.member]
  refine ⟨Json.clean_record ?_, ?_⟩
  · rcases s with ⟨_ | a, _ | b⟩ <;>
      simp [Sources.members, Sources.member, (string _).clean]
  · change
      Option.bind
          (Record.ofJson? ["a", "b"] (.record s.members)) _ =
        some s
    rw [Record.ofJson?_record hKnown hNodup, Option.bind_some]
    rcases s with ⟨_ | a, _ | b⟩ <;>
      simp [Sources.members, Sources.member,
        Record.defaulted, List.lookup_cons, hPresent]

end ReadsBack

namespace Stage

/- The member that follows those of the operation. -/
def lastMembers (s : Stage) : List (String × Json) :=
  if s.sources = {} then [] else
    [("sources", toJson s.sources)]

theorem toJson_eq (s : Stage) :
    toJson s =
      .record (s.toOperation.members ++ s.lastMembers) :=
  rfl

variable {s : Stage}

theorem eq_of_mem_lastMembers
    {member : String × Json}
    (h : member ∈ s.lastMembers) :
    member = ("sources", toJson s.sources) := by
  unfold lastMembers at h
  split at h
  · cases h
  · exact List.mem_singleton.mp h

/- The names of a stage are known and distinct. -/
theorem known_members (s : Stage) :
    ∀ member ∈ s.toOperation.members ++ s.lastMembers,
      member.1 ∈ Operation.names ++ ["sources"] := by
  intro member hMember
  apply List.mem_append.mpr
  rcases List.mem_append.mp hMember with hMember | hMember
  · rw [← s.map_members]
    exact .inl (List.mem_map_of_mem hMember)
  · rw [eq_of_mem_lastMembers hMember]
    exact .inr List.mem_cons_self

theorem nodup_members (s : Stage) :
    ((s.toOperation.members ++ s.lastMembers).map
      (·.1)).Nodup := by
  rw [List.map_append, s.map_members]
  unfold lastMembers
  split <;> simp [Operation.names]

/- The sources are read, whether they are written or not. -/
theorem defaulted_sources (s : Stage) :
    Record.defaulted
        ⟨s.toOperation.members ++ s.lastMembers, false⟩
        "sources" {} =
      some s.sources := by
  have hSources := (ReadsBack.sources s.sources).read
  unfold lastMembers
  split
  · rename_i hNone
    simp [Record.defaulted, Operation.members, List.lookup_cons,
      hNone]
  · simp [Record.defaulted, Operation.members, List.lookup_cons,
      hSources]

end Stage

namespace Stage

theorem clean_toJson (s : Stage) : (toJson s).Clean := by
  apply Json.clean_record
  intro member hMember
  rcases List.mem_append.mp hMember with hMember | hMember
  · exact s.clean_members member hMember
  · rw [eq_of_mem_lastMembers hMember]
    exact (ReadsBack.sources s.sources).clean

/- A stage is read with the values that are read for its own. -/
theorem ofJson?_toJson (s : Stage) :
    ofJson? (toJson s) =
      (ofJson? (toJson s.params)).map fun params =>
        { s with params } := by
  change Option.bind (Record.ofJson? _ _) _ = _
  rw [toJson_eq,
    Record.ofJson?_record s.known_members s.nodup_members,
    Option.bind_some, s.ofRecord?_members, s.defaulted_sources]
  cases (ofJson? (toJson s.params) : Option (Dict F32)) <;> rfl

end Stage

end FractalShader

------------------------------------------------------------
-- Pipelines
------------------------------------------------------------

namespace FractalShader

namespace Pipeline

/- Every stored value is read back. -/
def Readable (p : Pipeline) : Prop :=
  ∀ stage ∈ p, ∀ entry ∈ stage.params.entries,
    ofJson? (toJson entry.2) = some entry.2

variable {p : Pipeline}

theorem clean_toJson (p : Pipeline) : (toJson p).Clean :=
  Json.clean_list fun stage _ => stage.clean_toJson

theorem Readable.ofJson?_toJson
    (h : p.Readable) :
    ofJson? (toJson p) = some p := by
  apply ReadsBack.read
  apply ReadsBack.list
  intro stage hStage
  refine ⟨stage.clean_toJson, ?_⟩
  have hParams : ReadsBack stage.params :=
    .dict fun entry hEntry =>
      .single (h stage hStage entry hEntry)
  rw [stage.ofJson?_toJson, hParams.read]
  rfl

/- Values that are read back are finite. -/
theorem Readable.isFinite
    (h : p.Readable) :
    ∀ stage ∈ p, ∀ entry ∈ stage.params.entries,
      entry.2.isFinite = true := by
  intro stage hStage entry hEntry
  by_contra hNot
  have hRead := h stage hStage entry hEntry
  rw [Binary.ofJson?_toJson_eq_none (by simpa using hNot)]
    at hRead
  cases hRead

/- One value that is not finite spoils the whole form. -/
theorem ofJson?_toJson_eq_none
    {stage : Stage}
    (hStage : stage ∈ p)
    {entry : String × F32}
    (hEntry : entry ∈ stage.params.entries)
    (h : entry.2.isFinite = false) :
    (ofJson? (toJson p) : Option Pipeline) = none := by
  have hValue := Binary.ofJson?_toJson_eq_none h
  apply ofJson?_list_eq_none hStage
  rw [stage.ofJson?_toJson, ofJson?_dict_eq_none hEntry hValue]
  rfl

end Pipeline

end FractalShader
