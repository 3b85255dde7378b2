import StreamDigest.Proofs.Json.Reader

namespace StreamDigest

namespace Numeral

theorem toDigits_first {n : Nat} (h : 0 < n) : ∃ c cs, Nat.toDigits 10 n = c :: cs ∧ c ≠ '0' := by
  induction n using Nat.strongRecOn with
  | ind n ih =>
    rw [Nat.toDigits_eq_if (by decide)]
    split
    · next small =>
      have ne : ∀ n < 10, 0 < n → n.digitChar ≠ '0' := by decide
      exact ⟨_, _, rfl, ne n small h⟩
    · next large =>
      obtain ⟨c, cs, he, hc⟩ := ih (n / 10) (by omega) (by omega)
      exact ⟨c, _, by rw [he]; rfl, hc⟩

theorem whole_toDigits (n : Nat) : Whole (Nat.toDigits 10 n) := by
  rcases Nat.eq_zero_or_pos n with rfl | h
  · exact .zero
  · have digits : ∀ c ∈ Nat.toDigits 10 n, c.isDigit := fun c hc =>
      Nat.isDigit_of_mem_toDigits (by decide) (by decide) hc
    obtain ⟨c, cs, he, hc⟩ := toDigits_first h
    rw [he] at digits ⊢
    exact .run (digits c List.mem_cons_self) hc fun d hd => digits d (List.mem_cons_of_mem _ hd)

theorem written_toDigits (n : Nat) : Written (Nat.toDigits 10 n) := by
  simpa using Written.parts (.inl rfl) (whole_toDigits n) .absent .absent

end Numeral

namespace Piece

/-- Whether a unit is a character or half of a surrogate pair indeed. -/
def Sound : Piece → Prop
  | char _ => True
  | surrogate code => 0xd800 ≤ code ∧ code < 0xe000

theorem written_hexEscape {code : Nat} (h : code < 0x10000) :
    Written (ofCode code) (Text.hexEscape code) := by
  have digit : ∀ x < 16, Scanner.hexValue? (Bytes.hexDigit x) = some x := by decide
  have written := Written.code (digit (code / 256 / 16) (by omega))
    (digit (code / 256 % 16) (by omega)) (digit (code % 256 / 16) (by omega))
    (digit (code % 256 % 16) (by omega))
  have value : 16 * (16 * (16 * (code / 256 / 16) + code / 256 % 16) + code % 256 / 16) +
      code % 256 % 16 = code := by omega
  have high : code / 256 % 256 = code / 256 := by omega
  rw [value] at written
  simpa [Text.hexEscape, Bytes.bigEndian, Bytes.littleEndian, high] using written

theorem written_escapeChar (c : Char) : Written (char c) (Text.escapeChar c) := by
  unfold Text.escapeChar
  iterate 7
    split
    · next h =>
      subst h
      exact .short rfl
  split
  · next h =>
    have hc : ofCode c.toNat = char c := by
      rw [ofCode, if_neg (by omega), Char.ofNat_toNat]
    rw [← hc]
    exact written_hexEscape (by omega)
  · next hq hb _ _ _ _ _ h => exact .plain (Nat.not_lt.mp h) hq hb

theorem written_escapePiece {p : Piece} (h : p.Sound) : p.Written (Text.escapePiece p) := by
  cases p with
  | char c => exact written_escapeChar c
  | surrogate code =>
    have written := written_hexEscape (Nat.lt_trans h.2 (by decide))
    rwa [show ofCode code = surrogate code from if_pos h] at written

end Piece

theorem Text.written_escape {t : Text} (h : ∀ p ∈ t, p.Sound) :
    t.Written (t.flatMap escapePiece) := by
  induction t with
  | nil => exact .nil
  | cons p t ih =>
    rw [List.flatMap_cons]
    exact .cons (Piece.written_escapePiece (h p List.mem_cons_self))
      (ih fun p hp => h p (List.mem_cons_of_mem _ hp))

namespace Token

def render : Token → List Char
  | beginArray => ['[']
  | endArray => [']']
  | beginObject => ['\x7b']
  | endObject => ['\x7d']
  | comma => [',']
  | colon => [':']
  | null => ['n', 'u', 'l', 'l']
  | bool true => ['t', 'r', 'u', 'e']
  | bool false => ['f', 'a', 'l', 's', 'e']
  | number lexeme => lexeme
  | text t => t.render

/-- Whether a token can be written. -/
def Sound : Token → Prop
  | number lexeme => Numeral.Written lexeme
  | text t => ∀ p ∈ t, p.Sound
  | _ => True

theorem written_render {t : Token} (h : t.Sound) : t.Written t.render := by
  cases t with
  | beginArray | endArray | beginObject | endObject | comma | colon => exact .mark rfl
  | null => exact .null
  | bool b =>
    cases b with
    | false => exact .no
    | true => exact .yes
  | number lexeme => exact .number h
  | text t => exact .text (Text.written_escape h)

/-- Blanks may stand around all tokens. -/
theorem layout_spaced {ts : List Token} {gap : List Char} (hg : ∀ c ∈ gap, Scanner.isBlank c)
    (h : ∀ t ∈ ts, t.Sound) : Layout ts (ts.flatMap (fun t => gap ++ t.render) ++ gap) := by
  induction ts with
  | nil => exact .blanks hg
  | cons t ts ih =>
    have layout := Layout.token hg (written_render (h t List.mem_cons_self))
      (ih fun t ht => h t (List.mem_cons_of_mem _ ht))
    simpa using layout

theorem layout_render {ts : List Token} (h : ∀ t ∈ ts, t.Sound) :
    Layout ts (ts.flatMap render) := by
  simpa using layout_spaced (List.forall_mem_nil _) h

end Token

namespace Json

mutual

theorem render_eq (v : Json) : v.render = v.tokens.flatMap Token.render := by
  cases v with
  | null | number | string => simp [render, tokens, Token.render]
  | bool b => cases b <;> simp [render, tokens, Token.render]
  | array items => simp [render, tokens, Token.render, renderItems_eq items]
  | object members => simp [render, tokens, Token.render, renderMembers_eq members]

theorem renderItems_eq (items : List Json) :
    renderItems items = (itemTokens items).flatMap Token.render := by
  match items with
  | [] => rfl
  | [v] => simp [renderItems, itemTokens, Token.render, render_eq v]
  | v :: u :: items =>
    simp [renderItems, itemTokens, Token.render, render_eq v, renderItems_eq (u :: items)]

theorem renderMembers_eq (members : List (Text × Json)) :
    renderMembers members = (memberTokens members).flatMap Token.render := by
  match members with
  | [] => rfl
  | [(name, v)] => simp [renderMembers, memberTokens, Token.render, render_eq v]
  | (name, v) :: m :: members =>
    simp [renderMembers, memberTokens, Token.render, render_eq v, renderMembers_eq (m :: members)]

end

theorem sound_items {items : List Json} (h : ∀ v ∈ items, ∀ t ∈ v.tokens, t.Sound) :
    ∀ t ∈ itemTokens items, t.Sound := by
  match items with
  | [] => simp [itemTokens, Token.Sound]
  | [v] =>
    have hv := h v List.mem_cons_self
    simpa [itemTokens, Token.Sound, or_imp, forall_and] using hv
  | v :: u :: items =>
    have hv := h v List.mem_cons_self
    have hr := sound_items fun v hv => h v (List.mem_cons_of_mem _ hv)
    simpa [itemTokens, Token.Sound, or_imp, forall_and] using ⟨hv, hr⟩

theorem sound_members {members : List (Text × Json)}
    (h : ∀ m ∈ members, (∀ p ∈ m.1, p.Sound) ∧ ∀ t ∈ m.2.tokens, t.Sound) :
    ∀ t ∈ memberTokens members, t.Sound := by
  match members with
  | [] => simp [memberTokens, Token.Sound]
  | [(name, v)] =>
    have hv := h (name, v) List.mem_cons_self
    simpa [memberTokens, Token.Sound, or_imp, forall_and] using hv
  | (name, v) :: m :: members =>
    obtain ⟨hn, hv⟩ := h (name, v) List.mem_cons_self
    have hr := sound_members fun m hm => h m (List.mem_cons_of_mem _ hm)
    simpa [memberTokens, Token.Sound, or_imp, forall_and] using ⟨hn, hv, hr⟩

theorem sound_object {members : List (Text × Json)}
    (h : ∀ m ∈ members, (∀ p ∈ m.1, p.Sound) ∧ ∀ t ∈ m.2.tokens, t.Sound) :
    ∀ t ∈ (object members).tokens, t.Sound :=
  List.forall_mem_cons.mpr ⟨trivial, sound_members h⟩

theorem layout_render {v : Json} (h : ∀ t ∈ v.tokens, t.Sound) :
    Token.Layout v.tokens (String.ofList v.render).toList := by
  rw [String.toList_ofList, render_eq]
  exact Token.layout_render h

/-- The text of a value with the same blanks around all of its tokens. -/
def spaced (gap : List Char) (v : Json) : String :=
  String.ofList (v.tokens.flatMap (fun t => gap ++ t.render) ++ gap)

theorem layout_spaced {v : Json} {gap : List Char} (hg : ∀ c ∈ gap, Scanner.isBlank c)
    (h : ∀ t ∈ v.tokens, t.Sound) : Token.Layout v.tokens (v.spaced gap).toList := by
  rw [spaced, String.toList_ofList]
  exact Token.layout_spaced hg h

theorem layout_object {members : List (Text × Json)} {text : String} (gap : List Char)
    (hg : ∀ c ∈ gap, Scanner.isBlank c)
    (h : ∀ m ∈ members, (∀ p ∈ m.1, p.Sound) ∧ ∀ t ∈ m.2.tokens, t.Sound)
    (spelled : (object members).spaced gap = text) :
    Token.Layout (object members).tokens text.toList :=
  spelled ▸ layout_spaced hg (sound_object h)

end Json

end StreamDigest
