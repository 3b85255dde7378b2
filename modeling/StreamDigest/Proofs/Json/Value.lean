import StreamDigest.Proofs.Json.Render

namespace StreamDigest

/-- The string that a text writes. Halves of surrogate pairs stand for a character only together. -/
inductive Text.Spells : Text → List Char → Prop
  | nil : Spells [] []
  | char {c : Char} {t : Text} {cs : List Char} (h : Spells t cs) : Spells (.char c :: t) (c :: cs)
  | pair {high low : Nat} {c : Char} {t : Text} {cs : List Char}
      (hh : 0xd800 ≤ high ∧ high < 0xdc00) (hl : 0xdc00 ≤ low ∧ low < 0xe000)
      (hc : c.toNat = 0x10000 + (high - 0xd800) * 0x400 + (low - 0xdc00)) (h : Spells t cs) :
      Spells (.surrogate high :: .surrogate low :: t) (c :: cs)

theorem Piece.toNat_join {high low : Nat} (hh : 0xd800 ≤ high ∧ high < 0xdc00)
    (hl : 0xdc00 ≤ low ∧ low < 0xe000) :
    (join high low).toNat = 0x10000 + (high - 0xd800) * 0x400 + (low - 0xdc00) := by
  have valid : (0x10000 + (high - 0xd800) * 0x400 + (low - 0xdc00)).isValidChar :=
    .inr ⟨by omega, by omega⟩
  rw [join, Char.ofNat, dif_pos valid]
  rfl

namespace Text

theorem spells_of_chars? {t : Text} {cs : List Char} (h : t.chars? = some cs) : t.Spells cs := by
  fun_induction chars? t generalizing cs with
  | case1 =>
    cases h
    exact .nil
  | case2 c t ih =>
    obtain ⟨cs, ht, rfl⟩ := Option.map_eq_some_iff.mp h
    exact .char (ih ht)
  | case3 high low t halves ih =>
    obtain ⟨cs, ht, rfl⟩ := Option.map_eq_some_iff.mp h
    obtain ⟨hh, hl⟩ : (0xd800 ≤ high ∧ high < 0xdc00) ∧ (0xdc00 ≤ low ∧ low < 0xe000) := by
      simpa [Piece.isHigh, Piece.isLow] using halves
    exact .pair hh hl (Piece.toNat_join hh hl) (ih ht)
  | case4 => cases h
  | case5 => cases h

theorem chars?_of_spells {t : Text} {cs : List Char} (h : t.Spells cs) : t.chars? = some cs := by
  induction h with
  | nil => rfl
  | char _ ih => simp [chars?, ih]
  | @pair high low c t cs hh hl hc _ ih =>
    have hj : Piece.join high low = c := Char.toNat_inj.mp ((Piece.toNat_join hh hl).trans hc.symm)
    simp [chars?, Piece.isHigh, Piece.isLow, hh, hl, hj, ih]

theorem toString?_eq_some_iff {t : Text} {s : String} :
    t.toString? = some s ↔ t.Spells s.toList := by
  rw [toString?, Option.map_eq_some_iff]
  constructor
  · rintro ⟨cs, h, rfl⟩
    rw [String.toList_ofList]
    exact spells_of_chars? h
  · intro h
    exact ⟨_, chars?_of_spells h, String.ofList_toList⟩

end Text

namespace Numeral

theorem toDigits_digit {c : Char} (h : c.isDigit) : Nat.toDigits 10 (c.toNat - 48) = [c] := by
  obtain ⟨low, high⟩ : 48 ≤ c.toNat ∧ c.toNat ≤ 57 := Char.isDigit_iff_toNat.mp h
  rw [Nat.toDigits_of_lt_base (by omega), List.singleton_inj, ← Char.toNat_inj,
    Nat.toNat_digitChar_of_lt_ten (by omega)]
  omega

/-- Digits behind those of a number are the last digits of a greater one. -/
theorem toDigits_append {n : Nat} {cs : List Char} (hn : 0 < n) (h : ∀ c ∈ cs, c.isDigit) :
    Nat.toDigits 10 (Nat.ofDigitChars 10 cs n) = Nat.toDigits 10 n ++ cs := by
  induction cs generalizing n with
  | nil => simp
  | cons c cs ih =>
    obtain ⟨hc, hcs⟩ := List.forall_mem_cons.mp h
    have small : c.toNat - 48 < 10 := by
      have hd := Char.isDigit_iff_toNat.mp hc
      simp only [Char.reduceToNat] at hd
      omega
    calc Nat.toDigits 10 (Nat.ofDigitChars 10 (c :: cs) n)
        = Nat.toDigits 10 (10 * n + (c.toNat - 48)) ++ cs := by
          rw [Nat.ofDigitChars_cons, ih (by omega) hcs]
          rfl
      _ = Nat.toDigits 10 n ++ c :: cs := by
          rw [← Nat.toDigits_append_toDigits (by decide) hn small, toDigits_digit hc]
          simp

theorem toDigits_of_whole {cs : List Char} (h : Whole cs) :
    Nat.toDigits 10 (Nat.ofDigitChars 10 cs 0) = cs := by
  cases h with
  | zero => rfl
  | @run c cs digit nonzero digits =>
    have positive : 0 < c.toNat - 48 := by
      have low : 48 ≤ c.toNat := (Char.isDigit_iff_toNat.mp digit).1
      have ne : c.toNat ≠ 48 := fun he => nonzero (Char.toNat_inj.mp he)
      omega
    have first : Nat.ofDigitChars 10 (c :: cs) 0 = Nat.ofDigitChars 10 cs (c.toNat - 48) := by
      rw [Nat.ofDigitChars_cons]
      simp
    rw [first, toDigits_append positive digits, toDigits_digit digit]
    rfl

/-- A number that is written with digits alone has neither a sign nor a point nor an exponent. -/
theorem whole_of_digits {cs : List Char} (h : Written cs) (hd : ∀ c ∈ cs, c.isDigit) : Whole cs := by
  obtain @⟨sign, whole, fraction, exponent, hs, hw, hf, he⟩ := h
  simp only [List.forall_mem_append] at hd
  obtain ⟨ds, -, df, de⟩ := hd
  have no_sign : sign = [] := by
    rcases hs with rfl | rfl
    · rfl
    · cases ds '-' List.mem_cons_self
  have no_fraction : fraction = [] := by
    cases hf with
    | absent => rfl
    | present => cases df '.' List.mem_cons_self
  have no_exponent : exponent = [] := by
    cases he with
    | absent => rfl
    | present hm =>
      rcases hm with rfl | rfl
      · cases de 'e' List.mem_cons_self
      · cases de 'E' List.mem_cons_self
  simpa [no_sign, no_fraction, no_exponent] using hw

end Numeral

namespace Token

theorem numeral_of_written {l cs : List Char} (h : Written (.number l) cs) : Numeral.Written l := by
  cases h with
  | mark h =>
    simp only [Scanner.punctuation?] at h
    grind
  | number h => exact h

theorem numeral_of_layout {ts : List Token} {l cs : List Char} (h : Layout ts cs)
    (hm : .number l ∈ ts) : Numeral.Written l := by
  induction h with
  | blanks => cases hm
  | token _ ht _ ih =>
    rcases List.mem_cons.mp hm with rfl | hm
    · exact numeral_of_written ht
    · exact ih hm

end Token

namespace Json

/-- Whether the value, if it is a number, is written as one. -/
def Readable (v : Json) : Prop :=
  ∀ l, v = number l → Numeral.Written l

theorem number_mem_memberTokens {members : List (Text × Json)} {name : Text} {l : List Char}
    (h : (name, number l) ∈ members) : .number l ∈ memberTokens members := by
  match members with
  | [] => cases h
  | [m] =>
    obtain rfl := List.mem_singleton.mp h
    simp [memberTokens, tokens]
  | m :: n :: members =>
    rcases List.mem_cons.mp h with rfl | h
    · simp [memberTokens, tokens]
    · have later := number_mem_memberTokens h
      simp [memberTokens, later]

theorem readable_of_layout {members : List (Text × Json)} {cs : List Char}
    (h : Token.Layout (object members).tokens cs) : ∀ m ∈ members, m.2.Readable := by
  rintro ⟨name, v⟩ hm l rfl
  exact Token.numeral_of_layout h (List.mem_cons_of_mem _ (number_mem_memberTokens hm))

theorem nat?_ofNat (n : Nat) : (ofNat n).nat? = some n := by
  have digits : (Nat.toDigits 10 n).all Char.isDigit := List.all_eq_true.mpr fun c hc =>
    Nat.isDigit_of_mem_toDigits (by decide) (by decide) hc
  have value : decimal (Nat.toDigits 10 n) = n := by
    rw [decimal, ← Nat.ofDigitChars_eq_foldl, Nat.ofDigitChars_ten_toDigits]
  simp [ofNat, nat?, digits, value]

/-- A number that is read is written with the digits of its value. -/
theorem nat?_eq_some_iff {v : Json} {n : Nat} (h : v.Readable) : v.nat? = some n ↔ v = ofNat n := by
  constructor
  · intro hn
    unfold nat? at hn
    split at hn
    · next l =>
      split at hn
      · next digits =>
        cases hn
        have whole := Numeral.whole_of_digits (h l rfl) (List.all_eq_true.mp digits)
        rw [ofNat, decimal, ← Nat.ofDigitChars_eq_foldl, Numeral.toDigits_of_whole whole]
      · cases hn
    · cases hn
  · rintro rfl
    exact nat?_ofNat n

end Json

end StreamDigest
