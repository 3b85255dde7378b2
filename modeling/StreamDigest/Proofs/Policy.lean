import Mathlib.Data.List.Sort
import StreamDigest.Policy.Document
import StreamDigest.Proofs.Json.Value
import StreamDigest.Proofs.Permission

namespace StreamDigest

namespace NameSet

/-- A set is known by its names. -/
theorem eq_of_mem_iff {s t : NameSet} (h : ∀ name, name ∈ s ↔ name ∈ t) : s = t := by
  have irrefl : Std.Irrefl fun x y : String => x < y := ⟨String.lt_irrefl⟩
  have antisymm : Std.Antisymm fun x y : String => x < y :=
    ⟨fun _ _ hxy hyx => absurd hyx (String.lt_asymm hxy)⟩
  have same : s.names = t.names := List.Pairwise.eq_of_mem_iff s.sorted t.sorted h
  cases s
  cases t
  cases same
  rfl

theorem ofList_perm {s : NameSet} {names : List String} (h : names.Perm s.names) :
    ofList names = s :=
  eq_of_mem_iff fun _ => mem_ofList.trans h.mem_iff

end NameSet

namespace Json

theorem word?_ofNat (x : UInt64) : word? (ofNat x.toNat) = some x := by
  simp [word?, nat?_ofNat, x.toNat_lt_size]

theorem mapM_string?_ofString (names : List String) :
    (names.map ofString).mapM string? = some names := by
  induction names with
  | nil => rfl
  | cons name names ih => simp [ofString, string?, Text.toString?_ofString, ih]

/-- A set of names in the order that `order` brings them into. -/
def ofNamesIn (order : List String → List String) : Option NameSet → Json
  | none => null
  | some s => array ((order s.names).map ofString)

theorem names?_ofNamesIn {order : List String → List String}
    (h : ∀ names, (order names).Perm names) (names : Option NameSet) :
    names? (ofNamesIn order names) = some names := by
  cases names with
  | none => rfl
  | some s =>
    rw [ofNamesIn, names?, mapM_string?_ofString, Option.map_some, NameSet.ofList_perm (h s.names)]

theorem sound_text (s : String) : ∀ p ∈ Text.ofString s, p.Sound := by
  simp [Text.ofString, Piece.Sound]

theorem sound_ofString (s : String) : ∀ t ∈ (ofString s).tokens, t.Sound := by
  simpa [ofString, tokens, Token.Sound] using sound_text s

theorem sound_ofNat (n : Nat) : ∀ t ∈ (ofNat n).tokens, t.Sound := by
  simpa [ofNat, tokens, Token.Sound] using Numeral.written_toDigits n

theorem sound_ofStrings (names : List String) :
    ∀ t ∈ (array (names.map ofString)).tokens, t.Sound := by
  have items : ∀ v ∈ names.map ofString, ∀ t ∈ v.tokens, t.Sound := by
    simpa using fun name _ => sound_ofString name
  simpa [tokens, Token.Sound] using sound_items items

theorem sound_ofNamesIn (order : List String → List String) (names : Option NameSet) :
    ∀ t ∈ (ofNamesIn order names).tokens, t.Sound := by
  cases names with
  | none => simp [ofNamesIn, tokens, Token.Sound]
  | some s => exact sound_ofStrings (order s.names)

end Json

namespace Policy

variable {p : Policy} {order : List String → List String}

/-- The value of a policy, with its names in the order that `order` brings them into. -/
def toJsonIn (order : List String → List String) (p : Policy) : Json :=
  .object [
    (Text.ofString "allow_key_fallback", .bool p.keyFallback),
    (Text.ofString "min_hmac_key_len", .ofNat p.minKeyLen.toNat),
    (Text.ofString "max_live_contexts", .ofNat p.maxLive.toNat),
    (Text.ofString "allowed_algorithms", .ofNamesIn order p.allowed)]

def documentIn (order : List String → List String) (p : Policy) : String :=
  String.ofList (p.toJsonIn order).render

theorem toJson_eq (p : Policy) : p.toJson = p.toJsonIn id := by
  have names (names : Option NameSet) : Json.ofNames names = Json.ofNamesIn id names := by
    cases names <;> rfl
  rw [toJson, toJsonIn, names]

theorem document_eq (p : Policy) : p.document = p.documentIn id := by
  rw [document, documentIn, toJson_eq]

theorem ofJson?_toJsonIn (h : ∀ names, (order names).Perm names) (p : Policy) :
    ofJson? (p.toJsonIn order) = some p := by
  simp [ofJson?, toJsonIn, Json.fields?, Text.toString?_ofString, Json.field?, Json.bool?,
    Json.word?_ofNat, Json.names?_ofNamesIn h]

theorem sound_toJsonIn (p : Policy) : ∀ t ∈ (p.toJsonIn order).tokens, t.Sound := by
  refine Json.sound_object ?_
  simp only [List.forall_mem_cons]
  exact ⟨⟨Json.sound_text _, by simp [Json.tokens, Token.Sound]⟩,
    ⟨Json.sound_text _, Json.sound_ofNat _⟩, ⟨Json.sound_text _, Json.sound_ofNat _⟩,
    ⟨Json.sound_text _, Json.sound_ofNamesIn order _⟩, List.forall_mem_nil _⟩

/-- A text that spells a policy is read as the policy, if it is a valid one. -/
theorem ofDocument_of_layout (h : ∀ names, (order names).Perm names) {text : String}
    (layout : Token.Layout (p.toJsonIn order).tokens text.toList) :
    ofDocument text = p.validate.map fun _ => p := by
  simp [ofDocument, Json.parse?_of_layout layout, ofJson?_toJsonIn h]

theorem layout_documentIn (p : Policy) :
    Token.Layout (p.toJsonIn order).tokens (p.documentIn order).toList :=
  Json.layout_render (sound_toJsonIn p)

theorem validate_of_ofDocument {text : String} (h : ofDocument text = .ok p) :
    p.validate = .ok () := by
  unfold ofDocument at h
  split at h
  · cases h
  · next q _ =>
    cases hv : q.validate with
    | error e => simp [hv, Except.map] at h
    | ok u =>
      rw [hv] at h
      cases h
      exact hv

/-- A valid policy survives its document: it is read back, whatever order its names are written in
and whatever blanks and escapes are put in. What is read is a valid policy, and every library takes
it. -/
theorem document_round_trip :
    (∀ p : Policy,
      (p.validate = .ok () ↔
        p.maxLive ≠ 0 ∧ ∀ s, p.allowed = some s → ∀ name ∈ s, (Algorithm.lookup name).isSome) ∧
      (p.validate = .ok () → ofDocument p.document = .ok p ∧
        ∀ order : List String → List String, (∀ names, (order names).Perm names) →
          ofDocument (p.documentIn order) = .ok p ∧
          ∀ text : String, Token.Layout (p.toJsonIn order).tokens text.toList →
            ofDocument text = .ok p)) ∧
    ∀ (text : String) (p : Policy), ofDocument text = .ok p →
      p.validate = .ok () ∧
      ∀ {σ : Type} (library : Library σ), Service.make library p = .ok { library, policy := p } := by
  have back (p : Policy) (valid : p.validate = .ok ()) {order : List String → List String}
      (h : ∀ names, (order names).Perm names) (text : String)
      (layout : Token.Layout (p.toJsonIn order).tokens text.toList) : ofDocument text = .ok p := by
    rw [ofDocument_of_layout h layout, valid]
    rfl
  refine ⟨fun p => ⟨validate_eq_ok_iff, fun valid => ⟨?_, fun order h => ⟨?_, back p valid h⟩⟩⟩,
    fun text p h => ?_⟩
  · rw [document_eq]
    exact back p valid (fun _ => .refl _) _ (layout_documentIn p)
  · exact back p valid h _ (layout_documentIn p)
  · have valid := validate_of_ofDocument h
    exact ⟨valid, fun library => Service.make_eq_ok_iff.mpr ⟨valid, rfl⟩⟩

theorem document_of_two_names :
    let p : Policy := {
      keyFallback := false
      minKeyLen := 18446744073709551615
      maxLive := 18446744073709551615
      allowed := some (.ofList ["sha 256", "hMaC/sHa_384"]) }
    let text := "\x7b\"allow_key_fallback\":false,\"min_hmac_key_len\":18446744073709551615," ++
      "\"max_live_contexts\":18446744073709551615," ++
      "\"allowed_algorithms\":[\"sha 256\",\"hMaC/sHa_384\"]\x7d"
    p.validate = .ok () ∧ p.documentIn List.reverse = text ∧ ofDocument text = .ok p ∧
      ∀ {σ : Type} (library : Library σ), Service.make library p = .ok { library, policy := p } := by
  intro p text
  have valid : p.validate = .ok () := by decide +kernel
  have written : p.documentIn List.reverse = text := by decide +kernel
  have read : ofDocument text = .ok p :=
    written ▸ (((document_round_trip.1 p).2 valid).2 List.reverse List.reverse_perm).1
  exact ⟨valid, written, read, (document_round_trip.2 text p read).2⟩

end Policy

end StreamDigest
