import StreamDigest.Algorithm.Name

namespace StreamDigest

namespace Algorithm

variable {a b : Algorithm} {c d : Char} {s t : List Char} {name other : String}

/-- Whether the two are a small letter of the ASCII alphabet and its capital. -/
def Capital (small capital : Char) : Prop :=
  'a' ≤ small ∧ small ≤ 'z' ∧ capital.toNat + 32 = small.toNat

/-- Two characters that are the same up to the case of ASCII letters. -/
def Alike (c d : Char) : Prop :=
  c = d ∨ Capital c d ∨ Capital d c

/-- To write a name another way: separators come and go anywhere, and letters change their case. -/
inductive Respelled : List Char → List Char → Prop
  | nil : Respelled [] []
  | alike {c d : Char} {s t : List Char} (h : Alike c d) (hr : Respelled s t) :
      Respelled (c :: s) (d :: t)
  | drop {c : Char} {s t : List Char} (h : c ∈ ['-', '_', '/', ' ']) (hr : Respelled s t) :
      Respelled (c :: s) t
  | put {c : Char} {s t : List Char} (h : c ∈ ['-', '_', '/', ' ']) (hr : Respelled s t) :
      Respelled s (c :: t)

/-- The characters that names are made of: ASCII letters, digits and separators. -/
def Usual (c : Char) : Prop :=
  ('a' ≤ c ∧ c ≤ 'z' ∨ 'A' ≤ c ∧ c ≤ 'Z' ∨ '0' ≤ c ∧ c ≤ '9') ∨ c ∈ ['-', '_', '/', ' ']

/-- The characters of a normal form. -/
def letters (s : List Char) : List Char :=
  (s.filter fun c => !isSeparator c).map Char.toUpper

theorem normalize_eq (name : String) : normalize name = String.ofList (letters name.toList) :=
  rfl

theorem normalize_eq_iff : normalize name = normalize other ↔
    letters name.toList = letters other.toList := by
  rw [normalize_eq, normalize_eq, String.ofList_inj]

theorem isSeparator_iff : isSeparator c = true ↔ c ∈ ['-', '_', '/', ' '] := by
  simp [isSeparator, or_assoc]

theorem toNat_toUpper (c : Char) :
    c.toUpper.toNat = if 'a' ≤ c ∧ c ≤ 'z' then c.toNat - 32 else c.toNat := by
  simp only [Char.le_def]
  unfold Char.toUpper
  split
  · next h =>
    have low : 97 ≤ c.val.toNat := h.1
    have bound := c.val.toNat_lt
    -- The distance from small letters to capitals is negative, so the sum of the words wraps.
    have sum : (c.val + ('A'.val - 'a'.val)).toNat = (c.val.toNat + (2 ^ 32 - 32)) % 2 ^ 32 :=
      UInt32.toNat_add _ _
    show (c.val + ('A'.val - 'a'.val)).toNat = c.val.toNat - 32
    omega
  · rfl

theorem le_iff_toNat_le : c ≤ d ↔ c.toNat ≤ d.toNat :=
  Iff.rfl

/-- Characters are raised to the same one only if they are alike. -/
theorem toUpper_eq_iff : c.toUpper = d.toUpper ↔ Alike c d := by
  simp only [← Char.toNat_inj, toNat_toUpper, Alike, Capital, le_iff_toNat_le, Char.reduceToNat]
  split <;> split <;> omega

theorem isSeparator_toUpper (c : Char) : isSeparator c.toUpper = isSeparator c := by
  rw [Bool.eq_iff_iff]
  simp only [isSeparator, Bool.or_eq_true, decide_eq_true_eq, ← Char.toNat_inj, toNat_toUpper,
    le_iff_toNat_le, Char.reduceToNat]
  split <;> omega

theorem usual_of_toUpper (h : 'A' ≤ c.toUpper ∧ c.toUpper ≤ 'Z' ∨ '0' ≤ c.toUpper ∧ c.toUpper ≤ '9') :
    Usual c := by
  simp only [toNat_toUpper, le_iff_toNat_le, Char.reduceToNat] at h
  refine .inl ?_
  simp only [le_iff_toNat_le, Char.reduceToNat]
  split at h <;> omega

theorem letters_separator (h : isSeparator c) : letters (c :: s) = letters s := by
  simp [letters, h]

theorem letters_cons (h : ¬isSeparator c) : letters (c :: s) = c.toUpper :: letters s := by
  simp [letters, h]

theorem letters_of_respelled (h : Respelled s t) : letters s = letters t := by
  induction h with
  | nil => rfl
  | @alike c d _ _ h _ ih =>
    have hu := toUpper_eq_iff.mpr h
    have same : isSeparator c = isSeparator d := by
      rw [← isSeparator_toUpper c, hu, isSeparator_toUpper]
    by_cases hc : isSeparator c
    · rw [letters_separator hc, letters_separator (same ▸ hc), ih]
    · rw [letters_cons hc, letters_cons (same ▸ hc), hu, ih]
  | drop h _ ih => rw [letters_separator (isSeparator_iff.mpr h), ih]
  | put h _ ih => rw [letters_separator (isSeparator_iff.mpr h), ih]

theorem respelled_of_letters (h : letters s = letters t) : Respelled s t := by
  induction s generalizing t with
  | nil =>
    induction t with
    | nil => exact .nil
    | cons d t iht =>
      by_cases hd : isSeparator d
      · rw [letters_separator hd] at h
        exact .put (isSeparator_iff.mp hd) (iht h)
      · cases h.trans (letters_cons hd)
  | cons c s ih =>
    by_cases hc : isSeparator c
    · rw [letters_separator hc] at h
      exact .drop (isSeparator_iff.mp hc) (ih h)
    · -- The letter is found in the other name behind the separators that come first there.
      induction t with
      | nil => cases (letters_cons hc).symm.trans h
      | cons d t iht =>
        by_cases hd : isSeparator d
        · rw [letters_separator hd] at h
          exact .put (isSeparator_iff.mp hd) (iht h)
        · rw [letters_cons hc, letters_cons hd] at h
          obtain ⟨hu, hl⟩ := List.cons.inj h
          exact .alike (toUpper_eq_iff.mp hu) (ih hl)

theorem normalize_eq_iff_respelled :
    normalize name = normalize other ↔ Respelled name.toList other.toList :=
  normalize_eq_iff.trans ⟨respelled_of_letters, letters_of_respelled⟩

theorem aliases_disjoint (ha : name ∈ a.aliases) (hb : name ∈ b.aliases) : a = b := by
  have all : ∀ a ∈ all, ∀ b ∈ all, ∀ name ∈ a.aliases, name ∈ b.aliases → a = b := by
    decide +kernel
  exact all a (mem_all a) b (mem_all b) name ha hb

theorem normalize_alias (h : name ∈ a.aliases) : normalize name = name := by
  have all : ∀ a ∈ all, ∀ name ∈ a.aliases, normalize name = name := by decide +kernel
  exact all a (mem_all a) name h

theorem capital_or_digit_of_mem_alias (h : name ∈ a.aliases) (hc : c ∈ name.toList) :
    'A' ≤ c ∧ c ≤ 'Z' ∨ '0' ≤ c ∧ c ≤ '9' := by
  have all : ∀ a ∈ all, ∀ name ∈ a.aliases,
      name.toList.all fun c => 'A' ≤ c ∧ c ≤ 'Z' ∨ '0' ≤ c ∧ c ≤ '9' := by decide +kernel
  simpa using List.all_eq_true.mp (all a (mem_all a) name h) c hc

theorem lookup_eq_some_iff : lookup name = some a ↔ normalize name ∈ a.aliases := by
  constructor
  · intro h
    simpa using List.find?_some h
  · intro h
    cases hl : lookup name with
    | none =>
      have none := List.find?_eq_none.mp hl a (mem_all a)
      simp [h] at none
    | some b =>
      have hb : normalize name ∈ b.aliases := by simpa using List.find?_some hl
      rw [aliases_disjoint h hb]

theorem named_eq_ok_iff : named name = .ok a ↔ lookup name = some a := by
  unfold named
  cases lookup name <;> simp

theorem named_eq_error_iff {f : Fault} :
    named name = .error f ↔ lookup name = none ∧ f = .unsupportedAlgorithm name := by
  unfold named
  cases lookup name <;> simp [eq_comm]

theorem usual_of_lookup (h : lookup name = some a) (hc : c ∈ name.toList) : Usual c := by
  by_cases hs : isSeparator c
  · exact .inr (isSeparator_iff.mp hs)
  · have mem : c.toUpper ∈ (normalize name).toList := by
      rw [normalize_eq, String.toList_ofList]
      exact List.mem_map_of_mem (List.mem_filter.mpr ⟨hc, by simp [hs]⟩)
    exact usual_of_toUpper (capital_or_digit_of_mem_alias (lookup_eq_some_iff.mp h) mem)

theorem lookup_eq_some_iff_respelled :
    lookup name = some a ↔ ∃ spelling ∈ a.aliases, Respelled spelling.toList name.toList := by
  rw [lookup_eq_some_iff]
  constructor
  · intro h
    exact ⟨_, h, normalize_eq_iff_respelled.mp (normalize_alias h)⟩
  · rintro ⟨spelling, ha, hr⟩
    rwa [← normalize_eq_iff_respelled.mpr hr, normalize_alias ha]

/-- A name stands for the algorithm that has its normal form among its aliases. So a name may be
written with any separators and in any case, and nothing else about it is loose: a name with a
character of another kind is refused, and a name that is refused is given back as it was written. -/
theorem named_up_to_spelling :
    (∀ name other, normalize name = normalize other ↔ Respelled name.toList other.toList) ∧
    (∀ name other, normalize name = normalize other →
      ∀ a, named name = .ok a ↔ named other = .ok a) ∧
    (∀ name a, named name = .ok a ↔ normalize name ∈ a.aliases) ∧
    (∀ name a, named name = .ok a ↔ ∃ spelling ∈ a.aliases, Respelled spelling.toList name.toList) ∧
    (∀ a b : Algorithm, a ≠ b → ∀ spelling ∈ a.aliases, spelling ∉ b.aliases) ∧
    (∀ name, (∃ c ∈ name.toList, ¬Usual c) → named name = .error (.unsupportedAlgorithm name)) ∧
    (∀ name f, named name = .error f → f = .unsupportedAlgorithm name) ∧
    ∀ text, ofString text = named text := by
  refine ⟨fun _ _ => normalize_eq_iff_respelled, fun name other h a => ?_, fun name a => ?_,
    fun name a => ?_, fun a b hab spelling ha hb => hab (aliases_disjoint ha hb), fun name h => ?_,
    fun name f h => (named_eq_error_iff.mp h).2, fun _ => rfl⟩
  · rw [named_eq_ok_iff, named_eq_ok_iff, lookup_eq_some_iff, lookup_eq_some_iff, h]
  · rw [named_eq_ok_iff, lookup_eq_some_iff]
  · rw [named_eq_ok_iff, lookup_eq_some_iff_respelled]
  · obtain ⟨c, hc, hu⟩ := h
    refine named_eq_error_iff.mpr ⟨Option.eq_none_iff_forall_ne_some.mpr fun a ha => ?_, rfl⟩
    exact hu (usual_of_lookup ha hc)

/-- The long s is raised to a plain one only outside ASCII. -/
theorem named_loosely_but_in_ascii :
    let loose := "hMaC / _sHa-2--56 "
    let plain := "HMACSHA256"
    let long := "ſHA-256"
    normalize loose = normalize plain ∧ named loose = .ok hmacSha256 ∧
      named plain = .ok hmacSha256 ∧ named long = .error (.unsupportedAlgorithm long) := by
  intro loose plain long
  have same : normalize loose = normalize plain := by decide +kernel
  have found : named plain = .ok hmacSha256 := by
    refine (named_up_to_spelling.2.2.1 plain hmacSha256).mpr ?_
    decide +kernel
  have other : ∃ c ∈ long.toList, ¬Usual c :=
    ⟨'ſ', by decide +kernel, by unfold Usual; decide⟩
  exact ⟨same, (named_up_to_spelling.2.1 loose plain same hmacSha256).mpr found, found,
    named_up_to_spelling.2.2.2.2.2.1 long other⟩

end Algorithm

end StreamDigest
