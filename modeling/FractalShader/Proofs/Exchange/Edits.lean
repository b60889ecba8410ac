import FractalShader.Proofs.Exchange.Records

/-
  Edits are read back from their JSON form, and with them
  everything that is exchanged is read back from its text.

  Before an edit is read, the whole of it is checked: every
  string, every number, and how deep it nests.  Its own form
  passes, and the member that tells its kind is told apart
  from the others by its name.

  Main declarations:
    * `Json.Plain`
    * `Edit.ofTagged?_record`
    * `Edit.ofParts?_form`
    * `ReadsBack.edit`
    * `RoundTrips`
    * `round_trips`
-/

------------------------------------------------------------
-- Checks
------------------------------------------------------------

namespace FractalShader

namespace Json

/- Strings and numbers are read, and nesting is limited. -/
structure Plain
    (depth : Nat)
    (json : Json) : Prop where
  sound : json.sound (fun n => n.reading?.isSome) = true
  depth_le : json.depth ≤ depth

theorem plain_null : Plain 0 .null :=
  ⟨rfl, Nat.le_refl 0⟩

theorem plain_bool (b : Bool) : Plain 0 (.bool b) :=
  ⟨rfl, Nat.le_refl 0⟩

theorem plain_string (s : String) : Plain 0 (.ofString s) := by
  refine ⟨?_, Nat.le_refl 0⟩
  simp [Json.sound, Json.ofString]

/- What a number is read from is plain. -/
theorem plain_number
    {json : Json}
    (h : json.reading?.isSome = true) :
    Plain 0 json := by
  cases json with
  | number n => exact ⟨h, Nat.le_refl 0⟩
  | _ => cases h

/- An object nests one deeper than its members. -/
theorem plain_record
    {depth : Nat}
    {members : List (String × Json)}
    (h : ∀ member ∈ members, Plain depth member.2) :
    Plain (depth + 1) (.record members) := by
  have hSound :
      soundMembers (fun n => n.reading?.isSome)
          (members.map fun m => (Text.ofString m.1, m.2)) =
        true := by
    induction members with
    | nil => rfl
    | cons member members ih =>
        have hRest :=
          ih fun other hOther =>
            h other (List.mem_cons_of_mem _ hOther)
        have hMember := (h member List.mem_cons_self).sound
        simp [soundMembers, soundMember, hMember, hRest]
  have hDepth :
      depthMembers
          (members.map fun m => (Text.ofString m.1, m.2)) ≤
        depth := by
    induction members with
    | nil => exact Nat.zero_le depth
    | cons member members ih =>
        have hRest :=
          ih
            (fun other hOther =>
              h other (List.mem_cons_of_mem _ hOther))
            (by
              simp only [List.map_cons, soundMembers,
                Bool.and_eq_true] at hSound
              exact hSound.2)
        have hMember := (h member List.mem_cons_self).depth_le
        simp only [List.map_cons, depthMembers, depthMember]
        omega
  exact ⟨hSound, Nat.succ_le_succ hDepth⟩

theorem Plain.mono
    {depth more : Nat}
    {json : Json}
    (h : Plain depth json)
    (hLe : depth ≤ more) :
    Plain more json :=
  ⟨h.sound, Nat.le_trans h.depth_le hLe⟩

/- An absent value is plain, and a present one as it is. -/
theorem plain_option
    {α : Type}
    [JsonForm α]
    {depth : Nat}
    {x : Option α}
    (h : ∀ y ∈ x, Plain depth (toJson y)) :
    Plain depth (toJson x) := by
  cases x with
  | none => exact plain_null.mono (Nat.zero_le depth)
  | some y => exact h y rfl

end Json

namespace ReadsBack

/- What a number is read back from has a reading. -/
theorem reading32
    {x : F32}
    (h : ReadsBack x) :
    (toJson x).reading?.isSome = true := by
  have hRead := h.read
  change (toJson x).reading?.map Reading.toBinary = some x
    at hRead
  rcases Option.map_eq_some_iff.mp hRead with
    ⟨reading, hReading, _⟩
  rw [hReading]
  rfl

theorem reading64
    {x : F64}
    (h : ReadsBack x) :
    (toJson x).reading?.isSome = true := by
  have hRead := h.read
  change (toJson x).reading?.map Reading.toBinary = some x
    at hRead
  rcases Option.map_eq_some_iff.mp hRead with
    ⟨reading, hReading, _⟩
  rw [hReading]
  rfl

theorem readingUInt32 (n : UInt32) :
    (toJson n).reading?.isSome = true := by
  have hRead := (uint32 n).read
  cases hReading : (toJson n).reading? with
  | none =>
      simp only [ofJson?, hReading] at hRead
      cases hRead
  | some reading => rfl

end ReadsBack

end FractalShader

------------------------------------------------------------
-- Edits
------------------------------------------------------------

namespace FractalShader

instance : Numbered Edit where
  numbers
    | .setParam _ _ value => numbers value
    | .moveNode _ position => numbers position
    | _ => []

/- A name inside an edit, or null, is read back. -/
theorem Record.nullableBy_choice?
    {α : Type}
    [Enumerated α]
    {record : Record}
    {name : String}
    {x : Option α}
    (hField : record.fields.lookup name = some (toJson x))
    (h :
      ∀ y ∈ x,
        Enumerated.ofName? (Enumerated.name y) = some y) :
    record.nullableBy Edit.choice? name = some x := by
  unfold Record.nullableBy
  rw [hField]
  cases x with
  | none => rfl
  | some y =>
      have hName := h y rfl
      change
        (((Json.ofString (Enumerated.name y)).choice?
            Json.isVacant).bind Enumerated.ofName?).map some =
          some (some y)
      simp [Json.ofString, Json.choice?, hName]

namespace ReadsBack

theorem optionSlot (s : Option Slot) : ReadsBack s := by
  apply option
  · exact fun other _ => slot other
  · intro other _ hNull
    cases hNull

theorem optionGuard (g : Option Guard) : ReadsBack g := by
  apply option
  · exact fun guard _ => .guard guard
  · intro guard _ hNull
    cases hNull

end ReadsBack

namespace Edit

/- No member of an edit has the name of the kind. -/
theorem name_ne_kind (e : Edit) :
    ∀ member ∈ e.form.2, member.1 ≠ "kind" := by
  cases e <;> simp [form]

/- The kind is taken from its member, wherever it stands. -/
theorem ofTagged?_record
    (kind : String)
    {members : List (String × Json)}
    (h : ∀ member ∈ members, member.1 ≠ "kind") :
    ofTagged? (.record (("kind", toJson kind) :: members)) =
      ofParts? kind (.record members) := by
  have hNone :
      (members.map fun m =>
          (Json.Text.ofString m.1, m.2)).filter isKind =
        [] := by
    apply List.filter_eq_nil_iff.mpr
    intro member hMember
    rcases List.mem_map.mp hMember with ⟨m, hm, rfl⟩
    simpa [isKind] using h m hm
  have hAll :
      (members.map fun m =>
          (Json.Text.ofString m.1, m.2)).filter
            (fun m => !isKind m) =
        members.map fun m =>
          (Json.Text.ofString m.1, m.2) := by
    apply List.filter_eq_self.mpr
    intro member hMember
    rcases List.mem_map.mp hMember with ⟨m, hm, rfl⟩
    simpa [isKind] using h m hm
  have hKind :
      isKind (Json.Text.ofString "kind", toJson kind) =
        true := by
    simp [isKind]
  unfold ofTagged? Json.record
  simp only [List.map_cons, List.filter_cons, hKind, hNone,
    hAll, if_true, Bool.not_true, Bool.false_eq_true, if_false]
  rw [(ReadsBack.string kind).read]
  rfl

/- An edit is read from its kind and its members. -/
theorem ofParts?_form
    {e : Edit}
    (h : Legible e) :
    ofParts? e.form.1 (.record e.form.2) = some e := by
  have hString := fun s : String => (ReadsBack.string s).read
  cases e with
  | addNode id kind =>
      have hId := (ReadsBack.optionString id).read
      simp [form, ofParts?, Record.ofJson?_record,
        Record.required, Record.nullable_eq,
        List.lookup_cons, hString, hId]
  | removeNode node =>
      simp [form, ofParts?, Record.ofJson?_record,
        Record.required, hString]
  | connect source target port =>
      have hPort :
          Record.nullableBy choice?
              ⟨(Edit.connect source target port).form.2,
                false⟩
              "handle" =
            some port := by
        apply Record.nullableBy_choice?
        · simp [form, List.lookup_cons]
        · intro p _
          cases p <;> decide
      simp only [form] at hPort
      simp [form, ofParts?, Record.ofJson?_record,
        Record.required, List.lookup_cons, hString, hPort]
  | disconnect edge =>
      simp [form, ofParts?, Record.ofJson?_record,
        Record.required, hString]
  | setParam node input value =>
      have hValue := (ReadsBack.ofLegible32 h).read
      simp [form, ofParts?, Record.ofJson?_record,
        Record.required, List.lookup_cons, hString, hValue]
  | toggleBinding node input =>
      simp [form, ofParts?, Record.ofJson?_record,
        Record.required, List.lookup_cons, hString]
  | setBinding node input slot =>
      have hSlot :
          Record.nullableBy choice?
              ⟨(Edit.setBinding node input slot).form.2,
                false⟩
              "slot" =
            some slot := by
        apply Record.nullableBy_choice?
        · simp [form, List.lookup_cons]
        · intro s _
          cases s <;> decide
      simp only [form] at hSlot
      simp [form, ofParts?, Record.ofJson?_record,
        Record.required, List.lookup_cons, hString, hSlot]
  | setGuard node guard =>
      have hGuard := (ReadsBack.optionGuard guard).read
      simp [form, ofParts?, Record.ofJson?_record,
        Record.required, Record.nullable_eq,
        List.lookup_cons, hString, hGuard]
  | setEnabled node enabled =>
      have hEnabled := (ReadsBack.bool enabled).read
      simp [form, ofParts?, Record.ofJson?_record,
        Record.required, List.lookup_cons, hString, hEnabled]
  | moveNode node position =>
      have hPosition := (ReadsBack.position h).read
      simp [form, ofParts?, Record.ofJson?_record,
        Record.required, List.lookup_cons, hString,
        hPosition]

/- The members of an edit have clean forms. -/
theorem clean_members
    {e : Edit}
    (h : Legible e) :
    ∀ member ∈ e.form.2, member.2.Clean := by
  have hString := fun s : String => (ReadsBack.string s).clean
  cases e with
  | addNode id kind =>
      simp [form, hString, (ReadsBack.optionString id).clean]
  | connect source target port =>
      simp [form, hString, (ReadsBack.optionPort port).clean]
  | setParam node input value =>
      simp [form, hString, (ReadsBack.ofLegible32 h).clean]
  | setBinding node input slot =>
      simp [form, hString, (ReadsBack.optionSlot slot).clean]
  | setGuard node guard =>
      simp [form, hString, (ReadsBack.optionGuard guard).clean]
  | setEnabled node enabled =>
      simp [form, hString, (ReadsBack.bool enabled).clean]
  | moveNode node position =>
      simp [form, hString, (ReadsBack.position h).clean]
  | removeNode | disconnect | toggleBinding =>
      simp [form, hString]

/- They pass the check, and the deepest one is an object. -/
theorem plain_members
    {e : Edit}
    (h : Legible e) :
    ∀ member ∈ e.form.2, member.2.Plain 1 := by
  have hString :
      ∀ s : String, (toJson s).Plain 1 :=
    fun s => (Json.plain_string s).mono (Nat.zero_le 1)
  cases e with
  | addNode id kind =>
      have hId := Json.plain_option fun s (_ : s ∈ id) => hString s
      simp [form, hString, hId]
  | connect source target port =>
      have hPort : (toJson port).Plain 1 :=
        Json.plain_option fun p _ =>
          hString (Enumerated.name p)
      simp [form, hString, hPort]
  | setParam node input value =>
      have hReading := (ReadsBack.ofLegible32 h).reading32
      have hValue :=
        (Json.plain_number hReading).mono (Nat.zero_le 1)
      simp [form, hString, hValue]
  | setBinding node input slot =>
      have hSlot : (toJson slot).Plain 1 :=
        Json.plain_option fun s _ =>
          hString (Enumerated.name s)
      simp [form, hString, hSlot]
  | setGuard node guard =>
      have hGuard : (toJson guard).Plain 1 := by
        apply Json.plain_option
        intro g _
        apply Json.plain_record
        have hNumber :=
          fun n => Json.plain_number (ReadsBack.readingUInt32 n)
        have hActive : (toJson g.active).Plain 0 :=
          Json.plain_bool g.active
        simp [hNumber, hActive]
      simp [form, hString, hGuard]
  | setEnabled node enabled =>
      have hEnabled : (toJson enabled).Plain 1 :=
        (Json.plain_bool enabled).mono (Nat.zero_le 1)
      simp [form, hString, hEnabled]
  | moveNode node position =>
      rcases legible_append_iff.mp h with ⟨hX, hY⟩
      have hX :=
        Json.plain_number (ReadsBack.ofLegible64 hX).reading64
      have hY :=
        Json.plain_number (ReadsBack.ofLegible64 hY).reading64
      have hPosition : (toJson position).Plain 1 := by
        apply Json.plain_record
        simp [hX, hY]
      simp [form, hString, hPosition]
  | removeNode | disconnect | toggleBinding =>
      simp [form, hString]

end Edit

namespace ReadsBack

theorem edit
    {e : Edit}
    (h : Legible e) :
    ReadsBack e := by
  have hKind := Json.plain_string e.form.1
  have hMembers := Edit.plain_members h
  refine ⟨Json.clean_record ?_, ?_⟩
  · intro member hMember
    rcases List.mem_cons.mp hMember with rfl | hMember
    · exact (string e.form.1).clean
    · exact Edit.clean_members h member hMember
  · have hPlain : (toJson e).Plain 2 := by
      apply Json.plain_record
      intro member hMember
      rcases List.mem_cons.mp hMember with rfl | hMember
      · exact hKind.mono (Nat.zero_le 1)
      · exact hMembers member hMember
    have hDepth : (toJson e).depth ≤ Edit.depthLimit :=
      Nat.le_trans hPlain.depth_le (by decide)
    have hRead : Edit.ofTagged? (toJson e) = some e := by
      change
        Edit.ofTagged?
            (.record (("kind", toJson e.form.1) :: e.form.2)) =
          some e
      rw [Edit.ofTagged?_record _ e.name_ne_kind,
        Edit.ofParts?_form h]
    change
      (if _ && decide (_ ≤ _) then Edit.ofTagged? _ else none) =
        some e
    rw [hPlain.sound, hRead]
    simp [hDepth]

end ReadsBack

end FractalShader

------------------------------------------------------------
-- Texts
------------------------------------------------------------

namespace FractalShader

/-
  Both texts of a value whose numbers are legible are read
  as the value.
-/
def RoundTrips
    (α : Type)
    [JsonForm α]
    [Numbered α] : Prop :=
  ∀ x : α,
    Legible x →
      ofText? (compactText x) = some x ∧
        ofText? (prettyText x) = some x

theorem roundTrips_of_readsBack
    {α : Type}
    [JsonForm α]
    [Numbered α]
    (h : ∀ x : α, Legible x → ReadsBack x) :
    RoundTrips α := by
  intro x hLegible
  have hBack := h x hLegible
  rw [ofText?_compactText hBack.clean,
    ofText?_prettyText hBack.clean]
  exact ⟨hBack.read, hBack.read⟩

/- Everything that is exchanged is read back from its text. -/
theorem round_trips :
    RoundTrips Pipeline ∧
      RoundTrips Stage ∧
      RoundTrips Node ∧
      RoundTrips Edge ∧
      RoundTrips Graph ∧
      RoundTrips Input ∧
      RoundTrips Cell ∧
      RoundTrips Edit ∧
      RoundTrips Outcome ∧
      RoundTrips Fragment ∧
      RoundTrips KindCard ∧
      RoundTrips Settings := by
  refine
    ⟨?_, ?_, ?_, ?_, ?_, ?_, ?_, ?_, ?_, ?_, ?_, ?_⟩ <;>
    apply roundTrips_of_readsBack
  · exact fun p h =>
      .list fun s hs => .stage (legible_list_iff.mp h s hs)
  · exact fun _ => .stage
  · exact fun _ => .node
  · exact fun e _ => .edge e
  · exact fun _ => .graph
  · exact fun _ => .input
  · exact fun c _ => .cell c
  · exact fun _ => .edit
  · exact fun _ => .outcome
  · exact fun _ => .fragment
  · exact fun _ => .card
  · exact fun s _ => .settings s

/- A tenth of a step, under a name that has to be escaped. -/
def tenth : Edit :=
  .setParam "\"fold\"\n" "offset_x" (.ofRatio 1 10)

/- What it leads to in a session: a number and nothing else. -/
def tenthShown : Outcome where
  requiresCompile := false
  values := some [.ofRatio 1 10]

theorem round_trips_tenth :
    Legible tenth ∧ Legible tenthShown ∧
      ofText? (prettyText tenth) = some tenth ∧
      ofText? (compactText tenthShown) = some tenthShown := by
  have hTenth :
      (Number.single (.ofRatio 1 10)).Legible := by
    unfold Number.Legible
    decide +kernel
  have hEdit : Legible tenth := by
    simpa [Legible, tenth, numbers] using hTenth
  have hShown : Legible tenthShown := by
    simpa [Legible, tenthShown, numbers] using hTenth
  rcases round_trips with
    ⟨_, _, _, _, _, _, _, hEdits, hOutcomes, _⟩
  exact
    ⟨hEdit, hShown, (hEdits tenth hEdit).2,
      (hOutcomes tenthShown hShown).1⟩

end FractalShader
