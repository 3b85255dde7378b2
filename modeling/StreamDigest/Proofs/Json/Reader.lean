import StreamDigest.Json.Reader
import StreamDigest.Proofs.Json.Token

namespace StreamDigest

namespace Json

mutual

/-- The tokens that a value consists of. -/
def tokens : Json → List Token
  | null => [.null]
  | bool b => [.bool b]
  | number lexeme => [.number lexeme]
  | string t => [.text t]
  | array items => .beginArray :: itemTokens items
  | object members => .beginObject :: memberTokens members

def itemTokens : List Json → List Token
  | [] => [.endArray]
  | [v] => v.tokens ++ [.endArray]
  | v :: items => v.tokens ++ .comma :: itemTokens items

def memberTokens : List (Text × Json) → List Token
  | [] => [.endObject]
  | [(name, v)] => .text name :: .colon :: v.tokens ++ [.endObject]
  | (name, v) :: members => .text name :: .colon :: v.tokens ++ .comma :: memberTokens members

end

namespace Reader

variable {frames : List Frame} {token : Token} {w : Await}

theorem step?_value (hw : w = .value ∨ w = .firstItem) (ht : token ≠ .endArray) :
    step? ⟨frames, w⟩ token = start? frames token := by
  rcases hw with rfl | rfl
  · rfl
  · simp [step?, ht]

theorem fold_name (hw : w = .name ∨ w = .firstName) (acc : List (Text × Json)) (name : Text)
    (ts : List Token) :
    (.text name :: .colon :: ts).foldlM step? ⟨.object acc :: frames, w⟩ =
      ts.foldlM step? ⟨.member acc name :: frames, .value⟩ := by
  rcases hw with rfl | rfl <;> rfl

mutual

/-- The tokens of a value put it in its place. -/
theorem fold_tokens (v : Json) (frames : List Frame) {w : Await}
    (hw : w = .value ∨ w = .firstItem) :
    v.tokens.foldlM step? ⟨frames, w⟩ = place? frames v := by
  cases v with
  | null | bool | number | string => simp [tokens, step?_value hw, start?]
  | array items =>
    rw [tokens, List.foldlM_cons, step?_value hw (by simp)]
    exact fold_items items frames [] (.inr rfl) (fun _ => rfl)
  | object members =>
    rw [tokens, List.foldlM_cons, step?_value hw (by simp)]
    exact fold_members members frames [] (.inr rfl) (fun _ => rfl)

theorem fold_items (items : List Json) (frames : List Frame) (acc : List Json) {w : Await}
    (hw : w = .value ∨ w = .firstItem) (he : items = [] → w = .firstItem) :
    (itemTokens items).foldlM step? ⟨.array acc :: frames, w⟩ =
      place? frames (.array (acc.reverse ++ items)) := by
  match items with
  -- Only the first item may be left out: behind a comma there is another.
  | [] => simp [itemTokens, he rfl, step?, separate?]
  | [v] => simp [itemTokens, fold_tokens v _ hw, place?, step?, separate?]
  | v :: u :: items =>
    have h := fold_items (u :: items) frames (v :: acc) (.inl rfl) (by simp)
    simp [itemTokens, fold_tokens v _ hw, place?, step?, separate?, h]

theorem fold_members (members : List (Text × Json)) (frames : List Frame)
    (acc : List (Text × Json)) {w : Await} (hw : w = .name ∨ w = .firstName)
    (he : members = [] → w = .firstName) :
    (memberTokens members).foldlM step? ⟨.object acc :: frames, w⟩ =
      place? frames (.object (acc.reverse ++ members)) := by
  match members with
  | [] => simp [memberTokens, he rfl, step?, separate?]
  | [(name, v)] =>
    have h := fold_tokens v (.member acc name :: frames) (.inl rfl)
    rw [memberTokens, List.cons_append, List.cons_append, fold_name hw]
    simp [h, place?, step?, separate?]
  | (name, v) :: m :: members =>
    have h := fold_tokens v (.member acc name :: frames) (.inl rfl)
    have hr := fold_members (m :: members) frames ((name, v) :: acc) (.inl rfl) (by simp)
    rw [memberTokens, List.cons_append, List.cons_append, fold_name hw]
    · simp [h, place?, step?, separate?, hr]
    · simp

end

end Reader

theorem ofTokens?_tokens (v : Json) : ofTokens? v.tokens = some v := by
  rw [ofTokens?, Reader.fold_tokens v [] (.inl rfl)]
  rfl

theorem separated_cons {t : Token} {rest : List Token} (ht : t.isNumber = false)
    (h : Token.Separated rest) : Token.Separated (t :: rest) :=
  List.isChain_cons.mpr ⟨fun _ _ hn => absurd hn (by simp [ht]), h⟩

mutual

/-- A value keeps its numbers apart, and from what comes after it. -/
theorem separated_tokens (v : Json) (rest : List Token) (first : ∀ t ∈ rest.head?, t.isMark)
    (h : Token.Separated rest) : Token.Separated (v.tokens ++ rest) := by
  cases v with
  | null | bool | number | string => exact List.isChain_cons.mpr ⟨fun t ht _ => first t ht, h⟩
  | array items => exact separated_cons rfl (separated_items items rest h)
  | object members => exact separated_cons rfl (separated_members members rest h)

theorem separated_items (items : List Json) (rest : List Token) (h : Token.Separated rest) :
    Token.Separated (itemTokens items ++ rest) := by
  match items with
  | [] => exact separated_cons rfl h
  | [v] =>
    rw [itemTokens, List.append_assoc]
    exact separated_tokens v _ (by rintro _ ⟨⟩; rfl) (separated_cons rfl h)
  | v :: u :: items =>
    have hr := separated_items (u :: items) rest h
    rw [itemTokens, List.append_assoc]
    · exact separated_tokens v _ (by rintro _ ⟨⟩; rfl) (separated_cons rfl hr)
    · simp

theorem separated_members (members : List (Text × Json)) (rest : List Token)
    (h : Token.Separated rest) : Token.Separated (memberTokens members ++ rest) := by
  match members with
  | [] => exact separated_cons rfl h
  | [(name, v)] =>
    have hv := separated_tokens v (.endObject :: rest) (by rintro _ ⟨⟩; rfl) (separated_cons rfl h)
    simpa [memberTokens] using separated_cons rfl (separated_cons rfl hv)
  | (name, v) :: m :: members =>
    have hr := separated_members (m :: members) rest h
    have hv := separated_tokens v (.comma :: (memberTokens (m :: members) ++ rest))
      (by rintro _ ⟨⟩; rfl) (separated_cons rfl hr)
    have hm := separated_cons (t := .text name) rfl (separated_cons (t := .colon) rfl hv)
    simpa [memberTokens] using hm

end

/-- A text that writes the tokens of a value spells the value, whatever its blanks and escapes. -/
theorem parse?_of_layout {v : Json} {text : String} (h : Token.Layout v.tokens text.toList) :
    parse? text = some v := by
  have hs : Token.Separated v.tokens := by
    simpa using separated_tokens v [] (by simp) .nil
  simp [parse?, Token.ofChars?_of_layout h hs, ofTokens?_tokens]

end Json

end StreamDigest
