import Mathlib.Data.List.Chain
import StreamDigest.Json.Token

namespace StreamDigest

namespace Numeral

/-- One digit or more. -/
def Run (cs : List Char) : Prop :=
  cs ≠ [] ∧ ∀ c ∈ cs, c.isDigit

inductive Whole : List Char → Prop
  | zero : Whole ['0']
  | run {c : Char} {cs : List Char} (digit : c.isDigit) (nonzero : c ≠ '0')
      (digits : ∀ d ∈ cs, d.isDigit) : Whole (c :: cs)

inductive Fraction : List Char → Prop
  | absent : Fraction []
  | present {cs : List Char} (digits : Run cs) : Fraction ('.' :: cs)

inductive Exponent : List Char → Prop
  | absent : Exponent []
  | present {mark : Char} {sign cs : List Char} (hm : mark = 'e' ∨ mark = 'E')
      (hs : sign = [] ∨ sign = ['+'] ∨ sign = ['-']) (digits : Run cs) :
      Exponent (mark :: (sign ++ cs))

/-- A number has no needless zeros in front, and digits on both sides of its point. -/
inductive Written : List Char → Prop
  | parts {sign whole fraction exponent : List Char} (hs : sign = [] ∨ sign = ['-'])
      (hw : Whole whole) (hf : Fraction fraction) (he : Exponent exponent) :
      Written (sign ++ (whole ++ (fraction ++ exponent)))

end Numeral

/-- The ways to write a unit of a string: as itself, or behind a backslash. -/
inductive Piece.Written : Piece → List Char → Prop
  | plain {c : Char} (printable : 0x20 ≤ c.toNat) (quote : c ≠ '"') (backslash : c ≠ '\\') :
      Written (.char c) [c]
  | short {e c : Char} (h : Scanner.escaped? e = some c) : Written (.char c) ['\\', e]
  | code {a b c d : Char} {x y z w : Nat} (ha : Scanner.hexValue? a = some x)
      (hb : Scanner.hexValue? b = some y) (hc : Scanner.hexValue? c = some z)
      (hd : Scanner.hexValue? d = some w) :
      Written (.ofCode (16 * (16 * (16 * x + y) + z) + w)) ['\\', 'u', a, b, c, d]

inductive Text.Written : Text → List Char → Prop
  | nil : Written [] []
  | cons {p : Piece} {t : Text} {cs rest : List Char} (hp : p.Written cs) (ht : Written t rest) :
      Written (p :: t) (cs ++ rest)

namespace Token

inductive Written : Token → List Char → Prop
  | mark {t : Token} {c : Char} (h : Scanner.punctuation? c = some t) : Written t [c]
  | null : Written .null ['n', 'u', 'l', 'l']
  | yes : Written (.bool true) ['t', 'r', 'u', 'e']
  | no : Written (.bool false) ['f', 'a', 'l', 's', 'e']
  | number {cs : List Char} (h : Numeral.Written cs) : Written (.number cs) cs
  | text {t : Text} {cs : List Char} (h : Text.Written t cs) :
      Written (.text t) ('"' :: (cs ++ ['"']))

/-- The ways to write tokens one after another, with any blanks around them. -/
inductive Layout : List Token → List Char → Prop
  | blanks {cs : List Char} (h : ∀ c ∈ cs, Scanner.isBlank c) : Layout [] cs
  | token {t : Token} {ts : List Token} {blanks cs rest : List Char}
      (hb : ∀ c ∈ blanks, Scanner.isBlank c) (ht : t.Written cs) (hr : Layout ts rest) :
      Layout (t :: ts) (blanks ++ (cs ++ rest))

def isMark : Token → Bool
  | .beginArray | .endArray | .beginObject | .endObject | .comma | .colon => true
  | _ => false

def isNumber : Token → Bool
  | .number _ => true
  | _ => false

/-- Every number comes before a token that ends it. -/
def Separated (ts : List Token) : Prop :=
  ts.IsChain fun t u => t.isNumber → u.isMark

end Token

namespace Scanner

variable {s s' s'' : Scanner} {c : Char} {cs rest l : List Char} {d e : Digits} {tokens : List Token}

/-- Whether a scan comes from `s` to `s'` over the characters. -/
def Reaches (s : Scanner) (cs : List Char) (s' : Scanner) : Prop :=
  cs.foldlM step? s = some s'

/-- The tokens that are found from `s` on. -/
def read (s : Scanner) (cs : List Char) : Option (List Token) :=
  (cs.foldlM step? s).bind finish?

namespace Reaches

theorem nil : Reaches s [] s :=
  rfl

theorem cons (h : s.step? c = some s') (hr : Reaches s' cs s'') : Reaches s (c :: cs) s'' := by
  rw [Reaches, List.foldlM_cons, h]
  exact hr

theorem one (h : s.step? c = some s') : Reaches s [c] s' :=
  cons h nil

theorem append (h : Reaches s cs s') (hr : Reaches s' rest s'') : Reaches s (cs ++ rest) s'' := by
  rw [Reaches, List.foldlM_append, h]
  exact hr

theorem read_eq (h : Reaches s cs s') (rest : List Char) : s.read (cs ++ rest) = s'.read rest := by
  rw [read, List.foldlM_append, h]
  rfl

theorem blanks (h : ∀ c ∈ cs, isBlank c) : Reaches { tokens } cs { tokens } := by
  induction cs with
  | nil => exact nil
  | cons c cs ih =>
    have hc : ({ tokens } : Scanner).step? c = some { tokens } := by
      simp [step?, between?, h c List.mem_cons_self]
    exact cons hc (ih fun c hm => h c (List.mem_cons_of_mem _ hm))

/-- One more character of a number. -/
theorem next (h : d.next? c = some e) :
    Reaches ⟨.number d l, tokens⟩ [c] ⟨.number e (c :: l), tokens⟩ :=
  one (by simp [step?, h])

theorem digits (again : ∀ c, c.isDigit → e.next? c = some e) (h : ∀ c ∈ cs, c.isDigit) :
    Reaches ⟨.number e l, tokens⟩ cs ⟨.number e (cs.reverse ++ l), tokens⟩ := by
  induction cs generalizing l with
  | nil => exact nil
  | cons c cs ih =>
    have hr := ih (l := c :: l) fun c hm => h c (List.mem_cons_of_mem _ hm)
    simpa using (next (again c (h c List.mem_cons_self))).append hr

theorem run (first : ∀ c, c.isDigit → d.next? c = some e)
    (again : ∀ c, c.isDigit → e.next? c = some e) (h : Numeral.Run cs) :
    Reaches ⟨.number d l, tokens⟩ cs ⟨.number e (cs.reverse ++ l), tokens⟩ := by
  obtain ⟨hne, hd⟩ := h
  cases cs with
  | nil => exact absurd rfl hne
  | cons c cs =>
    have hr : Reaches ⟨.number e (c :: l), tokens⟩ cs ⟨.number e (cs.reverse ++ c :: l), tokens⟩ :=
      digits again fun c hm => hd c (List.mem_cons_of_mem _ hm)
    simpa using (next (first c (hd c List.mem_cons_self))).append hr

end Reaches

/-- A digit begins a number as it would go on after a sign. -/
theorem step?_digit (h : c.isDigit) :
    ({ tokens } : Scanner).step? c = step? ⟨.number .sign [], tokens⟩ c := by
  have ne {x : Char} (hx : x.isDigit = false) : c ≠ x := by
    rintro rfl
    simp [hx] at h
  by_cases hz : c = '0' <;>
    simp [step?, between?, isBlank, punctuation?, opening?, Digits.next?, h, hz, ne]

/-- Whether a number that has come to `d` may end or go on with its exponent. -/
def TakesExponent (d : Digits) : Prop :=
  d.isComplete ∧ d.next? 'e' = some .mark ∧ d.next? 'E' = some .mark

theorem reaches_whole (h : Numeral.Whole cs) :
    ∃ d, TakesExponent d ∧ d.next? '.' = some .point ∧
      Reaches ⟨.number .sign l, tokens⟩ cs ⟨.number d (cs.reverse ++ l), tokens⟩ := by
  cases h with
  | zero => exact ⟨.zero, ⟨rfl, rfl, rfl⟩, rfl, Reaches.next rfl⟩
  | @run c cs digit nonzero digits =>
    refine ⟨.whole, ⟨rfl, rfl, rfl⟩, rfl, ?_⟩
    have hc : Digits.sign.next? c = some .whole := by simp [Digits.next?, nonzero, digit]
    have hr : Reaches ⟨.number .whole (c :: l), tokens⟩ cs _ :=
      .digits (fun c hc => by simp [Digits.next?, hc]) digits
    simpa using (Reaches.next hc).append hr

theorem reaches_whole_first (h : Numeral.Whole cs) :
    ∃ d, TakesExponent d ∧ d.next? '.' = some .point ∧
      Reaches { tokens } cs ⟨.number d cs.reverse, tokens⟩ := by
  obtain ⟨d, hd, hp, hr⟩ : ∃ d, TakesExponent d ∧ d.next? '.' = some .point ∧
      Reaches ⟨.number .sign [], tokens⟩ cs ⟨.number d (cs.reverse ++ []), tokens⟩ :=
    reaches_whole h
  refine ⟨d, hd, hp, ?_⟩
  have first {c : Char} {cs : List Char} (hc : c.isDigit) {s : Scanner}
      (hr : Reaches ⟨.number .sign [], tokens⟩ (c :: cs) s) : Reaches { tokens } (c :: cs) s := by
    rwa [Reaches, List.foldlM_cons, step?_digit hc]
  rw [List.append_nil] at hr
  cases h with
  | zero => exact first rfl hr
  | run digit => exact first digit hr

theorem reaches_fraction (hd : TakesExponent d) (hp : d.next? '.' = some .point)
    (h : Numeral.Fraction cs) :
    ∃ e, TakesExponent e ∧ Reaches ⟨.number d l, tokens⟩ cs ⟨.number e (cs.reverse ++ l), tokens⟩ := by
  cases h with
  | absent => exact ⟨d, hd, .nil⟩
  | @present cs digits =>
    refine ⟨.fraction, ⟨rfl, rfl, rfl⟩, ?_⟩
    have digit (c : Char) (hc : c.isDigit) : Digits.fraction.next? c = some .fraction := by
      simp [Digits.next?, hc]
    have hr : Reaches ⟨.number .point ('.' :: l), tokens⟩ cs _ :=
      .run (fun c hc => by simp [Digits.next?, hc]) digit digits
    simpa using (Reaches.next hp).append hr

theorem reaches_exponent (hd : TakesExponent d) (h : Numeral.Exponent cs) :
    ∃ e : Digits, e.isComplete ∧
      Reaches ⟨.number d l, tokens⟩ cs ⟨.number e (cs.reverse ++ l), tokens⟩ := by
  cases h with
  | absent => exact ⟨d, hd.1, .nil⟩
  | @present mark sign cs hm hs digits =>
    refine ⟨.exponent, rfl, ?_⟩
    have again (c : Char) (hc : c.isDigit) : Digits.exponent.next? c = some .exponent := by
      simp [Digits.next?, hc]
    have hmark : d.next? mark = some .mark := by
      rcases hm with rfl | rfl
      · exact hd.2.1
      · exact hd.2.2
    have first : Reaches ⟨.number d l, tokens⟩ [mark] _ := .next hmark
    rcases hs with rfl | hs
    · have hr : Reaches ⟨.number .mark (mark :: l), tokens⟩ cs _ :=
        .run (fun c hc => by simp [Digits.next?, hc]) again digits
      simpa using first.append hr
    · have hn : ∃ c, sign = [c] ∧ Digits.mark.next? c = some .markSign := by
        rcases hs with rfl | rfl
        · exact ⟨'+', rfl, rfl⟩
        · exact ⟨'-', rfl, rfl⟩
      obtain ⟨c, rfl, hc⟩ := hn
      have hr : Reaches ⟨.number .markSign (c :: mark :: l), tokens⟩ cs _ :=
        .run (fun c hc => by simp [Digits.next?, hc]) again digits
      simpa using first.append ((Reaches.next hc).append hr)

theorem reaches_number (h : Numeral.Written cs) :
    ∃ d : Digits, d.isComplete ∧ Reaches { tokens } cs ⟨.number d cs.reverse, tokens⟩ := by
  obtain @⟨sign, whole, fraction, exponent, hs, hw, hf, he⟩ := h
  have start : ∃ d, TakesExponent d ∧ d.next? '.' = some .point ∧
      Reaches { tokens } (sign ++ whole) ⟨.number d (sign ++ whole).reverse, tokens⟩ := by
    rcases hs with rfl | rfl
    · exact reaches_whole_first hw
    · obtain ⟨d, hd, hp, hr⟩ := reaches_whole (l := ['-']) hw
      exact ⟨d, hd, hp, by simpa using Reaches.cons rfl hr⟩
  obtain ⟨d, hd, hp, hr⟩ := start
  obtain ⟨e, he', hr'⟩ := reaches_fraction hd hp hf
  obtain ⟨f, hc, hr''⟩ := reaches_exponent he' he
  exact ⟨f, hc, by simpa using hr.append (hr'.append hr'')⟩

theorem Reaches.piece {p : Piece} {t : Text} (h : p.Written cs) :
    Reaches ⟨.text t, tokens⟩ cs ⟨.text (p :: t), tokens⟩ := by
  cases h with
  | plain printable quote backslash =>
    exact .one (by simp [step?, quote, backslash, Nat.not_lt.mpr printable])
  | @short e c h =>
    have hu : e ≠ 'u' := by
      rintro rfl
      cases h
    exact .cons rfl (.one (by simp [step?, hu, h]))
  | code ha hb hc hd =>
    have digit {c : Char} {x n value : Nat} (h : hexValue? c = some x) (hn : n ≠ 3) :
        step? ⟨.code t n value, tokens⟩ c = some ⟨.code t (n + 1) (16 * value + x), tokens⟩ := by
      simp [step?, h, hn]
    have last {c : Char} {x value : Nat} (h : hexValue? c = some x) :
        step? ⟨.code t 3 value, tokens⟩ c =
          some ⟨.text (.ofCode (16 * value + x) :: t), tokens⟩ := by
      simp [step?, h]
    have hr : Reaches ⟨.code t 0 0, tokens⟩ _ _ :=
      .cons (digit ha (by decide)) <| .cons (digit hb (by decide)) <|
        .cons (digit hc (by decide)) <| .one (last hd)
    rw [Nat.mul_zero, Nat.zero_add] at hr
    exact .cons rfl (.cons rfl hr)

theorem Reaches.pieces {t u : Text} (h : u.Written cs) :
    Reaches ⟨.text t, tokens⟩ cs ⟨.text (u.reverse ++ t), tokens⟩ := by
  induction h generalizing t with
  | nil => exact .nil
  | cons hp _ ih => simpa using (Reaches.piece hp).append ih

/-- Where a scan stands after a token. Only a number may still go on. -/
inductive Past (tokens : List Token) : Token → Scanner → Prop
  | token {t : Token} : Past tokens t { tokens := t :: tokens }
  | number {d : Digits} {l : List Char} (h : d.isComplete) :
    Past tokens (.number l.reverse) ⟨.number d l, tokens⟩

theorem reaches_token {t : Token} (h : t.Written cs) :
    ∃ s, Past tokens t s ∧ Reaches { tokens } cs s := by
  cases h with
  | @mark _ c h =>
    have hb : isBlank c = false := by
      simp only [punctuation?] at h
      grind [isBlank]
    exact ⟨_, .token, .one (by simp [step?, between?, hb, h])⟩
  | null => exact ⟨_, .token, rfl⟩
  | yes => exact ⟨_, .token, rfl⟩
  | no => exact ⟨_, .token, rfl⟩
  | number h =>
    obtain ⟨d, hd, hr⟩ := reaches_number h
    refine ⟨⟨.number d _, tokens⟩, ?_, hr⟩
    simpa using Past.number (l := cs.reverse) hd
  | @text t _ h =>
    refine ⟨_, .token, .cons rfl ((Reaches.pieces h).append (.one ?_))⟩
    simp [step?]

/-- A character that no number goes on with. -/
def Ends (c : Char) : Prop :=
  isBlank c ∨ ∃ t, punctuation? c = some t

theorem Ends.next? (h : Ends c) (d : Digits) : d.next? c = none := by
  rcases h with h | ⟨t, h⟩
  · obtain rfl | rfl | rfl | rfl : c = ' ' ∨ c = '\t' ∨ c = '\n' ∨ c = '\r' := by
      simpa [isBlank, or_assoc] using h
    all_goals cases d <;> rfl
  · obtain rfl | rfl | rfl | rfl | rfl | rfl :
        c = '[' ∨ c = ']' ∨ c = '\x7b' ∨ c = '\x7d' ∨ c = ',' ∨ c = ':' := by
      simp only [punctuation?] at h
      grind
    all_goals cases d <;> rfl

theorem Past.read {t : Token} (h : Past tokens t s) (he : t.isNumber → ∀ c ∈ cs.head?, Ends c) :
    s.read cs = ({ tokens := t :: tokens } : Scanner).read cs := by
  cases h with
  | token => rfl
  | @number d l hd =>
    cases cs with
    | nil => simp [Scanner.read, finish?, hd, pure]
    | cons c cs =>
      have hn := (he rfl c rfl).next? d
      simp [Scanner.read, step?, hn, hd]

theorem ends_of_layout {ts : List Token} (h : Token.Layout ts cs) (hm : ∀ t ∈ ts.head?, t.isMark)
    (behind : ts = [] → ∀ c ∈ rest.head?, Ends c) : ∀ c ∈ (cs ++ rest).head?, Ends c := by
  cases h with
  | @blanks cs h =>
    cases cs with
    | nil => exact behind rfl
    | cons b cs =>
      rintro c ⟨⟩
      exact .inl (h b List.mem_cons_self)
  | @token t ts blanks lexeme rest hb ht hr =>
    cases blanks with
    | cons b blanks =>
      rintro c ⟨⟩
      exact .inl (hb b List.mem_cons_self)
    | nil =>
      have hm := hm t rfl
      cases ht with
      | mark h =>
        rintro c ⟨⟩
        exact .inr ⟨_, h⟩
      | null | yes | no | number | text => cases hm

/-- What is laid out is found, and the scan goes on with what stands behind it. -/
theorem read_layout {ts : List Token} (h : Token.Layout ts cs) (hs : Token.Separated ts)
    (behind : ∀ t ∈ ts.getLast?, t.isNumber → ∀ c ∈ rest.head?, Ends c) :
    ({ tokens } : Scanner).read (cs ++ rest) =
      ({ tokens := ts.reverse ++ tokens } : Scanner).read rest := by
  induction h generalizing tokens with
  | @blanks cs h => exact (Reaches.blanks h).read_eq rest
  | @token t ts blanks cs cs' hb ht hr ih =>
    -- A number is put to the tokens by the first character after it, or by the end of the text.
    obtain ⟨s, past, reaches⟩ : ∃ s, Past tokens t s ∧ Reaches { tokens } cs s := reaches_token ht
    obtain ⟨first, later⟩ := List.isChain_cons.mp hs
    have ends : t.isNumber → ∀ c ∈ (cs' ++ rest).head?, Ends c := fun hn =>
      ends_of_layout hr (fun u hu => first u hu hn) fun he => behind t (by simp [he]) hn
    have behind' : ∀ u ∈ ts.getLast?, u.isNumber → ∀ c ∈ rest.head?, Ends c := fun u hu =>
      behind u (by simp [List.getLast?_cons, Option.mem_def.mp hu])
    calc ({ tokens } : Scanner).read (blanks ++ (cs ++ cs') ++ rest)
        = ({ tokens } : Scanner).read (cs ++ (cs' ++ rest)) := by
          rw [List.append_assoc, List.append_assoc, (Reaches.blanks hb).read_eq]
      _ = s.read (cs' ++ rest) := reaches.read_eq _
      _ = ({ tokens := t :: tokens } : Scanner).read (cs' ++ rest) := past.read ends
      _ = ({ tokens := (t :: ts).reverse ++ tokens } : Scanner).read rest := by
          simp [ih later behind']

end Scanner

namespace Token

/-- What is written one after another is what is found. -/
theorem ofChars?_of_layout {ts : List Token} {cs : List Char} (h : Layout ts cs)
    (hs : Separated ts) : ofChars? cs = some ts := by
  have hr : ({} : Scanner).read (cs ++ []) = _ := Scanner.read_layout h hs (by simp)
  rw [List.append_nil, List.append_nil] at hr
  exact hr.trans (by simp [Scanner.read, Scanner.finish?])

end Token

end StreamDigest
