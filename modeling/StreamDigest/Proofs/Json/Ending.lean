import StreamDigest.Proofs.Json.Reader

namespace StreamDigest

namespace Scanner

variable {s s' : Scanner} {c : Char} {cs : List Char} {tokens ts : List Token}

/-- All that a scan may do with a character: pass over it, go on with a token, or find one. -/
inductive Move (s : Scanner) (c : Char) : Scanner → Prop
  | blank (hs : s.scan = .between) (hb : isBlank c) : Move s c s
  | onward {scan : Scan} (h : scan ≠ .between) : Move s c { s with scan }
  | found {scan : Scan} {t : Token} (more : List Token) : Move s c ⟨scan, more ++ t :: s.tokens⟩

theorem between?_move (h : between? tokens c = some s') : Move { tokens } c s' := by
  unfold between? at h
  split at h
  · next hb =>
    cases h
    exact .blank rfl hb
  · split at h
    · next t _ =>
      cases h
      exact .found []
    · obtain ⟨scan, ho, rfl⟩ := Option.map_eq_some_iff.mp h
      refine .onward ?_
      rintro rfl
      simp only [opening?] at ho
      grind

theorem step?_move (h : s.step? c = some s') : Move s c s' := by
  obtain ⟨scan, tokens⟩ := s
  cases scan with
  | between => exact between?_move h
  | word rest token =>
    simp only [step?] at h
    split at h
    · cases h
    · split at h
      · cases h
        exact .found []
      · cases h
    · split at h
      · cases h
        exact .onward (by simp)
      · cases h
  | number d l =>
    simp only [step?] at h
    split at h
    · cases h
      exact .onward (by simp)
    · split at h
      · -- The number has ended in front of the character, which may be a token of its own.
        cases between?_move h with
        | blank | onward => exact .found []
        | @found scan t more =>
          have hm : Move ⟨.number d l, tokens⟩ c ⟨scan, more ++ [t] ++ .number l.reverse :: tokens⟩ :=
            .found _
          rwa [List.append_assoc] at hm
      · cases h
  | text t =>
    simp only [step?] at h
    split at h
    · cases h
      exact .found []
    · split at h
      · cases h
        exact .onward (by simp)
      · split at h
        · cases h
        · cases h
          exact .onward (by simp)
  | escape t =>
    simp only [step?] at h
    split at h
    · cases h
      exact .onward (by simp)
    · obtain ⟨_, _, rfl⟩ := Option.map_eq_some_iff.mp h
      exact .onward (by simp)
  | code t digits value =>
    obtain ⟨_, _, rfl⟩ := Option.map_eq_some_iff.mp h
    dsimp only
    split <;> exact .onward (by simp)

theorem read_cons (s : Scanner) (c : Char) (cs : List Char) :
    s.read (c :: cs) = (s.step? c).bind fun s' => s'.read cs := by
  rw [read, List.foldlM_cons]
  cases s.step? c <;> rfl

/-- Tokens that are found stay found. There are more unless nothing but blanks is left. -/
theorem read_grows (h : s.read cs = some ts) :
    ∃ more, ts = s.tokens.reverse ++ more ∧
      (more = [] → s.scan = .between ∧ ∀ c ∈ cs, isBlank c) := by
  induction cs generalizing s with
  | nil =>
    obtain ⟨scan, tokens⟩ := s
    change finish? ⟨scan, tokens⟩ = some ts at h
    cases scan with
    | between =>
      cases h
      exact ⟨[], by simp, fun _ => ⟨rfl, List.forall_mem_nil _⟩⟩
    | number d l =>
      simp only [finish?] at h
      split at h
      · cases h
        exact ⟨[.number l.reverse], by simp, by simp⟩
      · cases h
    | word | text | escape | code => cases h
  | cons c cs ih =>
    rw [read_cons] at h
    obtain ⟨s', hs, h⟩ := Option.bind_eq_some_iff.mp h
    obtain ⟨more, rfl, hm⟩ := ih h
    cases step?_move hs with
    | blank between hb => exact ⟨more, rfl, fun he => ⟨between, List.forall_mem_cons.mpr ⟨hb, (hm he).2⟩⟩⟩
    | onward hne => exact ⟨more, rfl, fun he => absurd (hm he).1 hne⟩
    | @found scan t new => exact ⟨t :: (new.reverse ++ more), by simp, by simp⟩

end Scanner

namespace Json

/-- A value is over with its last token. -/
theorem ofTokens?_append (v : Json) {more : List Token} (h : more ≠ []) :
    ofTokens? (v.tokens ++ more) = none := by
  cases more with
  | nil => exact absurd rfl h
  | cons t more =>
    have hv : v.tokens.foldlM Reader.step? {} = some ⟨[], .done v⟩ :=
      Reader.fold_tokens v [] (.inl rfl)
    rw [ofTokens?, List.foldlM_append, hv]
    rfl

/-- Nothing but blanks may stand behind a value. A number would go on there. -/
theorem parse?_append {v : Json} {text junk : String} (h : Token.Layout v.tokens text.toList)
    (closed : ∀ t ∈ v.tokens.getLast?, t.isNumber = false)
    (hj : ∃ c ∈ junk.toList, ¬Scanner.isBlank c) : parse? (text ++ junk) = none := by
  have hs : Token.Separated v.tokens := by
    simpa using separated_tokens v [] (by simp) .nil
  have read : Token.ofChars? (text ++ junk).toList =
      ({ tokens := v.tokens.reverse } : Scanner).read junk.toList := by
    have ends : ∀ t ∈ v.tokens.getLast?, t.isNumber → ∀ c ∈ junk.toList.head?, Scanner.Ends c :=
      fun t ht hn => absurd hn (by simp [closed t ht])
    have hr : ({} : Scanner).read (text.toList ++ junk.toList) = _ := Scanner.read_layout h hs ends
    rw [List.append_nil] at hr
    rwa [String.toList_append]
  rw [parse?, read]
  cases hr : ({ tokens := v.tokens.reverse } : Scanner).read junk.toList with
  | none => rfl
  | some ts =>
    obtain ⟨more, rfl, hm⟩ := Scanner.read_grows hr
    have hne : more ≠ [] := by
      rintro rfl
      obtain ⟨c, hc, hb⟩ := hj
      exact hb ((hm rfl).2 c hc)
    simpa using ofTokens?_append v hne

theorem getLast?_memberTokens (members : List (Text × Json)) :
    (memberTokens members).getLast? = some .endObject := by
  induction members with
  | nil => rfl
  | cons m members ih =>
    cases members with
    | nil => exact List.getLast?_concat
    | cons n members => simp [memberTokens, List.getLast?_cons, List.getLast?_append, ih]

theorem parse?_object_append {members : List (Text × Json)} {text junk : String}
    (h : Token.Layout (object members).tokens text.toList)
    (hj : ∃ c ∈ junk.toList, ¬Scanner.isBlank c) : parse? (text ++ junk) = none := by
  refine parse?_append h (fun t ht => ?_) hj
  rw [tokens, List.getLast?_cons, getLast?_memberTokens] at ht
  cases ht
  rfl

end Json

end StreamDigest
