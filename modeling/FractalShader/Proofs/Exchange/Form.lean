import FractalShader.Exchange.Messages
import FractalShader.Proofs.Answers
import FractalShader.Proofs.Json.Syntax
import Mathlib.Data.List.Nodup

/-
  Values that are read back from their text.

  A value is read back when its JSON form is clean and gives
  the value again.  For lists, maps and records it takes no
  more than that their parts are read back.

  Main declarations:
    * `ofText?_compactText`
    * `ofText?_prettyText`
    * `ReadsBack`
    * `ReadsBack.dict`
    * `Record.ofJson?_record`
-/

------------------------------------------------------------
-- Texts
------------------------------------------------------------

namespace FractalShader

/- A text without blanks is read as the form it spells. -/
theorem ofText?_compactText
    {α : Type}
    [JsonForm α]
    {x : α}
    (h : (toJson x).Clean) :
    (ofText? (compactText x) : Option α) =
      ofJson? (toJson x) := by
  unfold ofText? compactText
  rw [String.toList_ofList, Json.parse?_compact h]
  rfl

/- So is a text with line breaks. -/
theorem ofText?_prettyText
    {α : Type}
    [JsonForm α]
    {x : α}
    (h : (toJson x).Clean) :
    (ofText? (prettyText x) : Option α) =
      ofJson? (toJson x) := by
  unfold ofText? prettyText
  rw [String.toList_ofList, Json.parse?_pretty h]
  rfl

/- The form of a value is clean and is read as the value. -/
structure ReadsBack
    {α : Type}
    [JsonForm α]
    (x : α) : Prop where
  clean : (toJson x).Clean
  read : ofJson? (toJson x) = some x

end FractalShader

------------------------------------------------------------
-- Simple Values
------------------------------------------------------------

namespace FractalShader

namespace Json

/- What spells a string has that string. -/
theorem clean_ofString (s : String) :
    (Json.ofString s).Clean := by
  simp [Clean, Json.ofString, sound]

/- Objects are clean when their members are. -/
theorem clean_record
    {members : List (String × Json)}
    (h : ∀ m ∈ members, m.2.Clean) :
    (Json.record members).Clean := by
  change
    soundMembers (fun _ => true)
      (members.map fun m => (Text.ofString m.1, m.2)) = true
  induction members with
  | nil => rfl
  | cons member members ih =>
      have hRest :=
        ih fun other hOther =>
          h other (List.mem_cons_of_mem _ hOther)
      have hMember : sound (fun _ => true) member.2 = true :=
        h member List.mem_cons_self
      simp [soundMembers, soundMember, hMember, hRest]

theorem clean_array
    {items : List Json}
    (h : ∀ item ∈ items, item.Clean) :
    (Json.array items).Clean := by
  change soundItems (fun _ => true) items = true
  induction items with
  | nil => rfl
  | cons item items ih =>
      have hRest :=
        ih fun other hOther =>
          h other (List.mem_cons_of_mem _ hOther)
      have hItem : sound (fun _ => true) item = true :=
        h item List.mem_cons_self
      simp [soundItems, hItem, hRest]

end Json

namespace Binary

/- A number that is not finite has a clean form as well. -/
theorem clean_toJson (x : F32) : (toJson x).Clean := by
  change (x.toJsonAs .jsonSingle).Clean
  unfold toJsonAs
  split <;> rfl

/- It is null, from which no number is read. -/
theorem ofJson?_toJson_eq_none
    {x : F32}
    (h : x.isFinite = false) :
    (ofJson? (toJson x) : Option F32) = none := by
  have hNumeral : x.numeral? .jsonSingle = none := by
    cases x with
    | nan => rfl
    | signed negative rank =>
        have hInfinite : rank.val = Format.single.infinity := by
          simp only [isFinite, decide_eq_false_iff_not] at h
          omega
        simp [numeral?, hInfinite]
  change
    (x.toJsonAs .jsonSingle).reading?.map Reading.toBinary =
      (none : Option F32)
  unfold toJsonAs
  rw [hNumeral]
  rfl

end Binary

namespace ReadsBack

theorem bool (b : Bool) : ReadsBack b := ⟨rfl, rfl⟩

theorem string (s : String) : ReadsBack s :=
  ⟨Json.clean_ofString s, Json.Text.string?_ofString s⟩

/- Numbers have clean forms, so reading is all it takes. -/
theorem single
    {x : F32}
    (h : ofJson? (toJson x) = some x) :
    ReadsBack x :=
  ⟨Binary.clean_toJson x, h⟩

theorem uint32 (n : UInt32) : ReadsBack n := by
  refine ⟨rfl, ?_⟩
  have hLess : n.toNat < UInt32.size := n.toNat_lt_size
  have hReading :
      (Json.number (.ofInt n.toNat)).reading? =
        some (.integer n.toNat) := by
    have hFits : n.toNat < 2 ^ 64 := by
      unfold UInt32.size at hLess
      omega
    have hNumeral :
        Numeral.ofInt n.toNat = ⟨false, n.toNat, [], none⟩ := by
      have hSign : ¬ (n.toNat : Int) < 0 := by omega
      simp only [Numeral.ofInt, hSign, decide_false,
        Int.natAbs_natCast]
    rw [hNumeral]
    exact if_pos ⟨rfl, rfl, hFits⟩
  simp only [ofJson?, toJson, hReading]
  rw [if_pos hLess, UInt32.ofNat_toNat]

/- A named value is read back when its name is its own. -/
theorem enumerated
    {α : Type}
    [Enumerated α]
    {x : α}
    (h : Enumerated.ofName? (Enumerated.name x) = some x) :
    ReadsBack x := by
  refine ⟨Json.clean_ofString _, ?_⟩
  change
    ((Json.ofString (Enumerated.name x)).choice?
      Json.isNull).bind Enumerated.ofName? = some x
  simp [Json.ofString, Json.choice?, h]

end ReadsBack

end FractalShader

------------------------------------------------------------
-- Collections
------------------------------------------------------------

namespace FractalShader

namespace Json

variable {α : Type} [JsonForm α]

/- Lists and maps have clean forms when their parts do. -/
theorem clean_list
    {xs : List α}
    (h : ∀ x ∈ xs, (toJson x).Clean) :
    (toJson xs).Clean := by
  apply clean_array
  intro item hItem
  rcases List.mem_map.mp hItem with ⟨x, hx, rfl⟩
  exact h x hx

theorem clean_dict
    {d : Dict α}
    (h : ∀ entry ∈ d.entries, (toJson entry.2).Clean) :
    (toJson d).Clean := by
  apply clean_record
  intro member hMember
  rcases List.mem_map.mp hMember with ⟨entry, hEntry, rfl⟩
  exact h entry hEntry

end Json

/- Maps in which the same values are found are the same. -/
theorem Dict.ext_get?
    {α : Type}
    {d e : Dict α}
    (h : ∀ key, d.get? key = e.get? key) :
    d = e := by
  have hMem :
      ∀ entry, entry ∈ d.entries ↔ entry ∈ e.entries := by
    rintro ⟨key, value⟩
    rw [← get?_eq_some_iff, ← get?_eq_some_iff, h]
  have hNodup :
      ∀ c : Dict α, c.entries.Nodup := by
    intro c
    refine c.sorted.imp ?_
    rintro _ _ hLess rfl
    exact String.lt_irrefl _ hLess
  have hPerm : d.entries.Perm e.entries :=
    (List.perm_ext_iff_of_nodup (hNodup d) (hNodup e)).mpr hMem
  apply ext_entries
  refine hPerm.eq_of_pairwise ?_ d.sorted e.sorted
  intro _ _ _ _ hLess hMore
  exact absurd hMore (String.lt_asymm hLess)

/- Collecting the entries of a map gives the map. -/
theorem Dict.ofList_entries
    {α : Type}
    (d : Dict α) :
    Dict.ofList d.entries = d := by
  apply ext_get?
  intro key
  rw [get?_ofList]
  apply Option.ext
  intro value
  rw [get?_eq_some_iff, Option.map_eq_some_iff]
  constructor
  · intro hGiven
    rcases hGiven with ⟨entry, hEntry, rfl⟩
    have hKey : entry.1 = key := by
      simpa using List.find?_some hEntry
    have hMem := List.mem_of_find?_eq_some hEntry
    rw [List.mem_reverse] at hMem
    exact hKey ▸ hMem
  · intro hMem
    have hKeys : (d.entries.reverse.map (·.1)).Nodup := by
      rw [List.map_reverse, List.nodup_reverse]
      refine d.pairwise_keys.imp ?_
      rintro _ _ hLess rfl
      exact String.lt_irrefl _ hLess
    have hFound :=
      Answers.find?_eq_some hKeys (List.mem_reverse.mpr hMem)
    exact ⟨_, hFound, rfl⟩

namespace ReadsBack

variable {α : Type} [JsonForm α]

/- What is not null is read as a present value. -/
theorem ofJson?_present
    {json : Json}
    (h : json ≠ .null) :
    (ofJson? json : Option (Option α)) =
      (ofJson? json).map some := by
  cases json with
  | null => exact absurd rfl h
  | _ => rfl

/- A present value must not look like an absent one. -/
theorem option
    {x : Option α}
    (h : ∀ y ∈ x, ReadsBack y)
    (hNull : ∀ y ∈ x, toJson y ≠ .null) :
    ReadsBack x := by
  cases x with
  | none => exact ⟨rfl, rfl⟩
  | some y =>
      have hSome := h y rfl
      refine ⟨hSome.clean, ?_⟩
      change (ofJson? (toJson y) : Option (Option α)) = _
      rw [ofJson?_present (hNull y rfl), hSome.read]
      rfl

theorem list
    {xs : List α}
    (h : ∀ x ∈ xs, ReadsBack x) :
    ReadsBack xs := by
  refine ⟨Json.clean_list fun x hx => (h x hx).clean, ?_⟩
  change (xs.map toJson).mapM ofJson? = some xs
  rw [Answers.mapM_map_eq_some (k := id) fun x hx =>
      (h x hx).read,
    List.map_id]

/- A map is read back when its values are. -/
theorem dict
    {d : Dict α}
    (h : ∀ entry ∈ d.entries, ReadsBack entry.2) :
    ReadsBack d := by
  have hClean :=
    Json.clean_dict fun entry hEntry =>
      (h entry hEntry).clean
  have hEntries :
      ∀ entry ∈ d.entries,
        (do
          some
            (← (Json.Text.ofString entry.1).string?,
              ← ofJson? (toJson entry.2)) :
          Option (String × α)) = some (id entry) := by
    intro entry hEntry
    have hRead := (h entry hEntry).read
    simp [hRead]
  refine ⟨hClean, ?_⟩
  change
    Option.bind (List.mapM _ (List.map _ (List.map _ _))) _ =
      some d
  rw [List.map_map, Answers.mapM_map_eq_some hEntries,
    List.map_id, Option.bind_some, Dict.ofList_entries]

end ReadsBack

/- Lists and maps are not read when a part is not. -/
theorem ofJson?_list_eq_none
    {α : Type}
    [JsonForm α]
    {xs : List α}
    {x : α}
    (hMem : x ∈ xs)
    (h : (ofJson? (toJson x) : Option α) = none) :
    (ofJson? (toJson xs) : Option (List α)) = none := by
  change (xs.map toJson).mapM ofJson? = none
  exact Answers.mapM_eq_none (List.mem_map_of_mem hMem) h

theorem ofJson?_dict_eq_none
    {α : Type}
    [JsonForm α]
    {d : Dict α}
    {entry : String × α}
    (hMem : entry ∈ d.entries)
    (h : (ofJson? (toJson entry.2) : Option α) = none) :
    (ofJson? (toJson d) : Option (Dict α)) = none := by
  change
    Option.bind (List.mapM _ (List.map _ (List.map _ _))) _ =
      none
  rw [List.map_map,
    Answers.mapM_eq_none (List.mem_map_of_mem hMem)
      (by simp [h])]
  rfl

end FractalShader

------------------------------------------------------------
-- Records
------------------------------------------------------------

namespace FractalShader

namespace Record

theorem distinct_eq_true_iff (names : List String) :
    distinct names = true ↔ names.Nodup := by
  induction names with
  | nil => simp [distinct]
  | cons name names ih =>
      simp [distinct, ih, List.nodup_cons]

/- The members of a record are found when they are known. -/
theorem ofJson?_record
    {names : List String}
    {members : List (String × Json)}
    (hKnown : ∀ m ∈ members, m.1 ∈ names)
    (hNodup : (members.map (·.1)).Nodup) :
    Record.ofJson? names (.record members) =
      some ⟨members, false⟩ := by
  have hKeyed :
      ∀ member ∈ members,
        (do
          some
            (← (Json.Text.ofString member.1).string?,
              member.2) :
          Option (String × Json)) = some (id member) := by
    intro member _
    simp
  have hKept :
      members.filter (fun m => names.contains m.1) =
        members := by
    apply List.filter_eq_self.mpr
    intro member hMember
    simpa using hKnown member hMember
  have hDistinct := (distinct_eq_true_iff _).mpr hNodup
  change
    Option.bind (List.mapM _ (List.map _ members)) _ =
      some (Record.mk members false)
  rw [Answers.mapM_map_eq_some hKeyed, List.map_id,
    Option.bind_some, hKept, if_pos hDistinct]

end Record

end FractalShader
