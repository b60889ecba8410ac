import FractalShader.Json.Syntax
import FractalShader.Proofs.Json.Token

/-
  Values are read back from both layouts of their text.

  Both layouts spell the tokens of a value, and the tokens
  of a value are read as that value.  Texts hold no lone
  halves of surrogate pairs, since two halves that meet would
  be read as one character.

  Main declarations:
    * `Json.Clean`
    * `Json.spells_compact`
    * `Json.spells_pretty`
    * `Json.ofTokens?_tokens`
    * `Json.parse?_compact`
    * `Json.parse?_pretty`
-/

------------------------------------------------------------
-- Clean Values
------------------------------------------------------------

namespace FractalShader

namespace Json

/- All strings and keys are strings without lone halves. -/
def Clean (json : Json) : Prop :=
  json.sound (fun _ => true) = true

/- A text that has a string spells it. -/
theorem Text.exists_ofString
    {t : Text}
    (h : t.string?.isSome = true) :
    ∃ s, t = ofString s := by
  have hChars :
      ∀ {t : Text} {cs}, t.mapM Symbol.char? = some cs →
        t = cs.map .char := by
    intro t
    induction t with
    | nil =>
        intro cs hNone
        cases hNone
        rfl
    | cons symbol t ih =>
        intro cs hSome
        rw [List.mapM_cons] at hSome
        rcases Option.bind_eq_some_iff.mp hSome with
          ⟨c, hFirst, hSome⟩
        rcases Option.bind_eq_some_iff.mp hSome with
          ⟨rest, hRest, hSome⟩
        cases hSome
        cases symbol with
        | char d =>
            cases hFirst
            rw [List.map_cons, ← ih hRest]
        | half code => cases hFirst
  unfold string? at h
  rw [Option.isSome_map] at h
  rcases Option.isSome_iff_exists.mp h with ⟨cs, hSome⟩
  refine ⟨String.ofList cs, ?_⟩
  rw [ofString, String.toList_ofList]
  exact hChars hSome

end Json

end FractalShader

------------------------------------------------------------
-- Tokens in Front
------------------------------------------------------------

namespace FractalShader

namespace Json

namespace Spells

variable {text : List Char} {tokens : List Token}

/- A token may stand right in front of others. -/
theorem front
    (h : Spells text tokens)
    {c : Char}
    {chars : List Char}
    {token : Token}
    (hFirst : Token.isBlank c = false)
    (hNext :
      Token.next? (c :: chars ++ text) =
        some (token, text)) :
    Spells (c :: chars ++ text) (token :: tokens) :=
  @Spells.cons [] text c chars token tokens rfl hFirst hNext h

theorem openArray (h : Spells text tokens) :
    Spells ('[' :: text) (.openArray :: tokens) :=
  @front text tokens h '[' [] _ rfl rfl

theorem closeArray (h : Spells text tokens) :
    Spells (']' :: text) (.closeArray :: tokens) :=
  @front text tokens h ']' [] _ rfl rfl

theorem openObject (h : Spells text tokens) :
    Spells ('\x7b' :: text) (.openObject :: tokens) :=
  @front text tokens h '\x7b' [] _ rfl rfl

theorem closeObject (h : Spells text tokens) :
    Spells ('\x7d' :: text) (.closeObject :: tokens) :=
  @front text tokens h '\x7d' [] _ rfl rfl

theorem comma (h : Spells text tokens) :
    Spells (',' :: text) (.comma :: tokens) :=
  @front text tokens h ',' [] _ rfl rfl

theorem colon (h : Spells text tokens) :
    Spells (':' :: text) (.colon :: tokens) :=
  @front text tokens h ':' [] _ rfl rfl

theorem null (h : Spells text tokens) :
    Spells (Token.null.chars ++ text) (.null :: tokens) :=
  h.front rfl rfl

theorem bool
    (h : Spells text tokens)
    (b : Bool) :
    Spells ((Token.bool b).chars ++ text)
      (.bool b :: tokens) := by
  cases b with
  | true => exact h.front rfl rfl
  | false => exact h.front rfl rfl

theorem string
    (h : Spells text tokens)
    {t : Text}
    (hText : t.string?.isSome = true) :
    Spells (t.chars ++ text) (.string t :: tokens) := by
  rcases Text.exists_ofString hText with ⟨s, rfl⟩
  exact h.front rfl (Token.next?_string s text)

/- A number must not run into what follows it. -/
theorem number
    (h : Spells text tokens)
    (hEnds : Numeral.Ends text)
    (n : Numeral) :
    Spells ((Token.number n).chars ++ text)
      (.number n :: tokens) := by
  have hNext := Token.next?_number n hEnds
  have hDigit : ∀ d : Digit, Token.isBlank d.char = false := by
    decide
  rw [Token.chars] at hNext ⊢
  rcases Numeral.head_chars true n with ⟨c, tail, hText, hHead⟩
  rw [hText] at hNext ⊢
  refine h.front ?_ hNext
  rcases hHead with rfl | ⟨d, rfl⟩
  · rfl
  · exact hDigit d

/- The break of a line spells nothing. -/
theorem lineBreak
    (h : Spells text tokens)
    (level : Nat) :
    Spells (Json.lineBreak level ++ text) tokens := by
  apply h.blank
  simp [Json.lineBreak, Token.isBlank]

end Spells

end Json

end FractalShader

------------------------------------------------------------
-- Both Layouts
------------------------------------------------------------

namespace FractalShader

namespace Json

open Numeral (Ends)

/- What follows an item starts with a mark or a line break. -/
theorem ends_prettyItems
    (level : Nat)
    (items : List Json)
    (rest : List Char) :
    Ends (prettyItems level items ++ rest) := by
  intro c hc
  cases items <;> cases hc <;> decide

theorem ends_prettyMembers
    (level : Nat)
    (members : List (Text × Json))
    (rest : List Char) :
    Ends (prettyMembers level members ++ rest) := by
  intro c hc
  cases members <;> cases hc <;> decide

mutual

/- The text with line breaks spells the tokens of a value. -/
theorem spells_pretty
    {rest : List Char}
    {toks : List Token} :
    ∀ (json : Json) (level : Nat), json.Clean → Ends rest →
      Spells rest toks →
        Spells (json.pretty level ++ rest)
          (json.tokens ++ toks)
  | .null, _, _, _, hRest => hRest.null
  | .bool b, _, _, _, hRest => hRest.bool b
  | .number n, _, _, hEnds, hRest => hRest.number hEnds n
  | .string _, _, hClean, _, hRest => hRest.string hClean
  | .array [], _, _, _, hRest => hRest.closeArray.openArray
  | .array (item :: items), level, hClean, _, hRest => by
      rcases Bool.and_eq_true_iff.mp hClean with
        ⟨hItem, hItems⟩
      have hLater := spells_prettyItems items level hItems hRest
      have hValue :=
        spells_pretty item (level + 1) hItem
          (ends_prettyItems level items rest) hLater
      simpa [pretty, tokens] using
        (hValue.lineBreak (level + 1)).openArray
  | .object [], _, _, _, hRest => hRest.closeObject.openObject
  | .object (member :: members), level, hClean, _, hRest => by
      rcases Bool.and_eq_true_iff.mp hClean with
        ⟨hMember, hMembers⟩
      have hLater :=
        spells_prettyMembers members level hMembers hRest
      have hValue :=
        spells_prettyMember member level hMember
          (ends_prettyMembers level members rest) hLater
      simpa [pretty, tokens] using
        (hValue.lineBreak (level + 1)).openObject

theorem spells_prettyItems
    {rest : List Char}
    {toks : List Token} :
    ∀ (items : List Json) (level : Nat),
      soundItems (fun _ => true) items = true →
        Spells rest toks →
          Spells (prettyItems level items ++ rest)
            (itemTokens items ++ toks)
  | [], level, _, hRest => by
      simpa [prettyItems, itemTokens] using
        hRest.closeArray.lineBreak level
  | item :: items, level, hClean, hRest => by
      rcases Bool.and_eq_true_iff.mp hClean with
        ⟨hItem, hItems⟩
      have hLater := spells_prettyItems items level hItems hRest
      have hValue :=
        spells_pretty item (level + 1) hItem
          (ends_prettyItems level items rest) hLater
      simpa [prettyItems, itemTokens] using
        (hValue.lineBreak (level + 1)).comma

theorem spells_prettyMembers
    {rest : List Char}
    {toks : List Token} :
    ∀ (members : List (Text × Json)) (level : Nat),
      soundMembers (fun _ => true) members = true →
        Spells rest toks →
          Spells (prettyMembers level members ++ rest)
            (memberTokens members ++ toks)
  | [], level, _, hRest => by
      simpa [prettyMembers, memberTokens] using
        hRest.closeObject.lineBreak level
  | member :: members, level, hClean, hRest => by
      rcases Bool.and_eq_true_iff.mp hClean with
        ⟨hMember, hMembers⟩
      have hLater :=
        spells_prettyMembers members level hMembers hRest
      have hValue :=
        spells_prettyMember member level hMember
          (ends_prettyMembers level members rest) hLater
      simpa [prettyMembers, memberTokens] using
        (hValue.lineBreak (level + 1)).comma

theorem spells_prettyMember
    {rest : List Char}
    {toks : List Token} :
    ∀ (member : Text × Json) (level : Nat),
      soundMember (fun _ => true) member = true →
        Ends rest → Spells rest toks →
          Spells (prettyMember level member ++ rest)
            (memberToken member ++ toks)
  | (key, value), level, hClean, hEnds, hRest => by
      rcases Bool.and_eq_true_iff.mp hClean with
        ⟨hKey, hValue⟩
      have hLater :=
        spells_pretty value (level + 1) hValue hEnds hRest
      have hBlank : [' '].all Token.isBlank = true := rfl
      simpa [prettyMember, memberToken] using
        (hLater.blank hBlank).colon.string hKey

end

/- What follows an item without blanks starts with a mark. -/
theorem ends_itemTokens
    (items : List Json)
    (rest : List Char) :
    Ends ((itemTokens items).flatMap Token.chars ++ rest) := by
  intro c hc
  cases items <;> cases hc <;> decide

theorem ends_memberTokens
    (members : List (Text × Json))
    (rest : List Char) :
    Ends
      ((memberTokens members).flatMap Token.chars ++ rest) := by
  intro c hc
  cases members <;> cases hc <;> decide

mutual

/- The text without blanks spells the tokens of a value. -/
theorem spells_compact
    {rest : List Char}
    {toks : List Token} :
    ∀ json : Json, json.Clean → Ends rest →
      Spells rest toks →
        Spells (json.tokens.flatMap Token.chars ++ rest)
          (json.tokens ++ toks)
  | .null, _, _, hRest => hRest.null
  | .bool b, _, _, hRest => by
      simpa [tokens] using hRest.bool b
  | .number n, _, hEnds, hRest => by
      simpa [tokens] using hRest.number hEnds n
  | .string _, hClean, _, hRest => by
      simpa [tokens, Token.chars] using hRest.string hClean
  | .array [], _, _, hRest => hRest.closeArray.openArray
  | .array (item :: items), hClean, _, hRest => by
      rcases Bool.and_eq_true_iff.mp hClean with
        ⟨hItem, hItems⟩
      have hLater := spells_compactItems items hItems hRest
      have hValue :=
        spells_compact item hItem (ends_itemTokens items rest)
          hLater
      simpa [tokens, Token.chars] using hValue.openArray
  | .object [], _, _, hRest => hRest.closeObject.openObject
  | .object (member :: members), hClean, _, hRest => by
      rcases Bool.and_eq_true_iff.mp hClean with
        ⟨hMember, hMembers⟩
      have hLater := spells_compactMembers members hMembers hRest
      have hValue :=
        spells_compactMember member hMember
          (ends_memberTokens members rest) hLater
      simpa [tokens, Token.chars] using hValue.openObject

theorem spells_compactItems
    {rest : List Char}
    {toks : List Token} :
    ∀ items : List Json,
      soundItems (fun _ => true) items = true →
        Spells rest toks →
          Spells
            ((itemTokens items).flatMap Token.chars ++ rest)
            (itemTokens items ++ toks)
  | [], _, hRest => hRest.closeArray
  | item :: items, hClean, hRest => by
      rcases Bool.and_eq_true_iff.mp hClean with
        ⟨hItem, hItems⟩
      have hLater := spells_compactItems items hItems hRest
      have hValue :=
        spells_compact item hItem (ends_itemTokens items rest)
          hLater
      simpa [itemTokens, Token.chars] using hValue.comma

theorem spells_compactMembers
    {rest : List Char}
    {toks : List Token} :
    ∀ members : List (Text × Json),
      soundMembers (fun _ => true) members = true →
        Spells rest toks →
          Spells
            ((memberTokens members).flatMap Token.chars ++ rest)
            (memberTokens members ++ toks)
  | [], _, hRest => hRest.closeObject
  | member :: members, hClean, hRest => by
      rcases Bool.and_eq_true_iff.mp hClean with
        ⟨hMember, hMembers⟩
      have hLater := spells_compactMembers members hMembers hRest
      have hValue :=
        spells_compactMember member hMember
          (ends_memberTokens members rest) hLater
      simpa [memberTokens, Token.chars] using hValue.comma

theorem spells_compactMember
    {rest : List Char}
    {toks : List Token} :
    ∀ member : Text × Json,
      soundMember (fun _ => true) member = true →
        Ends rest → Spells rest toks →
          Spells
            ((memberToken member).flatMap Token.chars ++ rest)
            (memberToken member ++ toks)
  | (key, value), hClean, hEnds, hRest => by
      rcases Bool.and_eq_true_iff.mp hClean with
        ⟨hKey, hValue⟩
      have hLater := spells_compact value hValue hEnds hRest
      simpa [memberToken, Token.chars] using
        hLater.colon.string hKey

end

end Json

end FractalShader

------------------------------------------------------------
-- Values of Tokens
------------------------------------------------------------

namespace FractalShader

namespace Json

/- The first token of a value opens nothing that it closes. -/
theorem head_tokens (json : Json) :
    ∃ token rest, json.tokens = token :: rest ∧
      token ≠ .closeArray := by
  cases json with
  | null => exact ⟨_, _, rfl, by decide⟩
  | bool b => exact ⟨_, _, rfl, by simp⟩
  | number n => exact ⟨_, _, rfl, by simp⟩
  | string t => exact ⟨_, _, rfl, by simp⟩
  | array items => cases items <;> exact ⟨_, _, rfl, by simp⟩
  | object members =>
      cases members <;> exact ⟨_, _, rfl, by simp⟩

mutual

/- The tokens of a value are read as that value. -/
theorem ofTokens?_tokens
    (rest : List Token) :
    ∀ (json : Json) (bound : Nat),
      2 * json.tokens.length ≤ bound + 1 →
        ofTokens? bound (json.tokens ++ rest) =
          some (json, rest)
  | json, 0, hBound => by
      rcases json.head_tokens with ⟨token, others, hHead, _⟩
      rw [hHead, List.length_cons] at hBound
      omega
  | .null, bound + 1, _ => rfl
  | .bool b, bound + 1, _ => rfl
  | .number n, bound + 1, _ => rfl
  | .string t, bound + 1, _ => rfl
  | .array [], bound + 1, _ => rfl
  | .array (item :: items), bound + 1, hBound => by
      have hLess :
          2 * (item.tokens ++ itemTokens items).length ≤
            bound := by
        simp only [tokens, List.cons_append, List.length_cons]
          at hBound
        omega
      have hItems :=
        itemsOfTokens?_tokens rest item items bound
          hLess
      rcases item.head_tokens with
        ⟨token, others, hHead, hOpen⟩
      rw [hHead, List.cons_append] at hItems
      rw [tokens, hHead]
      simp only [List.cons_append, List.append_assoc]
      rw [ofTokens?, hItems]
      · rfl
      · intro _ hSame
        injection hSame with hEq
        exact hOpen hEq
  | .object [], bound + 1, _ => rfl
  | .object ((key, value) :: members), bound + 1, hBound => by
      have hLess :
          2 *
              (memberToken (key, value) ++
                memberTokens members).length ≤
            bound := by
        simp only [tokens, List.cons_append, List.length_cons]
          at hBound
        omega
      have hMembers :=
        membersOfTokens?_tokens rest key value
          members bound hLess
      rw [tokens]
      simp only [memberToken, List.cons_append,
        List.append_assoc] at hMembers ⊢
      rw [ofTokens?, hMembers]
      · rfl
      · intro _ hSame
        cases hSame

/- Items are read up to the end of their array. -/
theorem itemsOfTokens?_tokens
    (rest : List Token) :
    ∀ (item : Json) (items : List Json) (bound : Nat),
      2 * (item.tokens ++ itemTokens items).length ≤ bound →
        itemsOfTokens? bound
            (item.tokens ++ (itemTokens items ++ rest)) =
          some (item :: items, rest)
  | item, items, 0, hBound => by
      rcases item.head_tokens with ⟨token, others, hHead, _⟩
      rw [hHead, List.cons_append, List.length_cons] at hBound
      omega
  | item, [], bound + 1, hBound => by
      have hItem :=
        ofTokens?_tokens (itemTokens [] ++ rest) item
          bound
          (by
            simp only [List.length_append] at hBound
            omega)
      rw [itemsOfTokens?, hItem]
      rfl
  | item, next :: items, bound + 1, hBound => by
      simp only [itemTokens, List.length_append,
        List.length_cons] at hBound
      have hItem :=
        ofTokens?_tokens
          (itemTokens (next :: items) ++ rest) item
          bound (by omega)
      have hLater :=
        itemsOfTokens?_tokens rest next items bound
          (by
            rw [List.length_append]
            omega)
      rw [itemsOfTokens?, hItem]
      simp [itemTokens, hLater]

/- Members are read up to the end of their object. -/
theorem membersOfTokens?_tokens
    (rest : List Token) :
    ∀ (key : Text) (value : Json)
      (members : List (Text × Json)) (bound : Nat),
      2 *
          (memberToken (key, value) ++
            memberTokens members).length ≤
        bound →
        membersOfTokens? bound
            (memberToken (key, value) ++
              (memberTokens members ++ rest)) =
          some ((key, value) :: members, rest)
  | key, value, members, 0, hBound => by
      simp [memberToken] at hBound
  | key, value, [], bound + 1, hBound => by
      have hValue :=
        ofTokens?_tokens (memberTokens [] ++ rest) value
          bound
          (by
            simp only [memberToken, List.length_append,
              List.length_cons] at hBound
            omega)
      simp only [memberToken, List.cons_append]
      rw [membersOfTokens?, hValue]
      rfl
  | key, value, (other, next) :: members, bound + 1, hBound => by
      simp only [memberToken, memberTokens, List.cons_append,
        List.length_append, List.length_cons] at hBound
      have hValue :=
        ofTokens?_tokens
          (memberTokens ((other, next) :: members) ++ rest)
          value bound (by omega)
      have hLater :=
        membersOfTokens?_tokens rest other next members
          bound
          (by
            simp only [memberToken, List.cons_append,
              List.length_append, List.length_cons]
            omega)
      simp only [memberToken, List.cons_append]
      rw [membersOfTokens?, hValue]
      simp [memberTokens, hLater]

end

/- A text that spells the tokens of a value is that value. -/
theorem parse?_eq_of_spells
    {text : List Char}
    {json : Json}
    (h : Spells text json.tokens) :
    parse? text = some json := by
  have hTokens :=
    ofTokens?_tokens [] json
      (2 * json.tokens.length + 1) (by omega)
  rw [List.append_nil] at hTokens
  unfold parse?
  rw [h.all?_eq]
  simp [hTokens]

/- The text without blanks is read back. -/
theorem parse?_compact
    {json : Json}
    (h : json.Clean) :
    parse? json.compact = some json := by
  have hSpells :=
    spells_compact json h Numeral.ends_nil (Spells.nil rfl)
  rw [List.append_nil, List.append_nil] at hSpells
  exact parse?_eq_of_spells hSpells

/- The text with line breaks is read back. -/
theorem parse?_pretty
    {json : Json}
    (h : json.Clean)
    (level : Nat) :
    parse? (json.pretty level) = some json := by
  have hSpells :=
    spells_pretty json level h Numeral.ends_nil (Spells.nil rfl)
  rw [List.append_nil, List.append_nil] at hSpells
  exact parse?_eq_of_spells hSpells

end Json

end FractalShader
