import Mathlib.Data.List.Forall2
import StreamDigest.Proofs.Json.Ending
import StreamDigest.Proofs.Policy

namespace StreamDigest

namespace Policy

/-- The parts of a policy that a document may give. -/
inductive Field
  | keyFallback
  | minKeyLen
  | maxLive
  | allowed
  deriving DecidableEq, Repr

def Field.name : Field → String
  | keyFallback => "allow_key_fallback"
  | minKeyLen => "min_hmac_key_len"
  | maxLive => "max_live_contexts"
  | allowed => "allowed_algorithms"

/-- What a member of a document says. -/
inductive Entry
  | keyFallback (b : Bool)
  | minKeyLen (n : UInt64)
  | maxLive (n : UInt64)
  | allowed (names : Option NameSet)
  | other (name : String) (v : Json)

/-- Whether the texts write the names of the set, in any order and as often as they like. -/
def Enumerates (texts : List Text) (s : NameSet) : Prop :=
  (∀ t ∈ texts, ∃ name : String, t.Spells name.toList) ∧
    ∀ name : String, name ∈ s ↔ ∃ t ∈ texts, t.Spells name.toList

/-- The values that a field takes, and what they say. -/
inductive Field.Takes : Field → Json → Entry → Prop
  | keyFallback (b : Bool) : Takes .keyFallback (.bool b) (.keyFallback b)
  | minKeyLen (n : UInt64) : Takes .minKeyLen (.ofNat n.toNat) (.minKeyLen n)
  | maxLive (n : UInt64) : Takes .maxLive (.ofNat n.toNat) (.maxLive n)
  | everyName : Takes .allowed .null (.allowed none)
  | names {texts : List Text} {s : NameSet} (h : Enumerates texts s) :
      Takes .allowed (.array (texts.map .string)) (.allowed (some s))

namespace Entry

def field? : Entry → Option Field
  | keyFallback _ => some .keyFallback
  | minKeyLen _ => some .minKeyLen
  | maxLive _ => some .maxLive
  | allowed _ => some .allowed
  | other _ _ => none

/-- Whether a member with this name and this value says what the entry says. -/
inductive Member : Entry → String × Json → Prop
  | field {f : Field} {v : Json} {e : Entry} (h : f.Takes v e) : Member e (f.name, v)
  | other {name : String} {v : Json} (h : ∀ f : Field, name ≠ f.name) :
      Member (.other name v) (name, v)

def Written (e : Entry) (m : Text × Json) : Prop :=
  ∃ name : String, m.1.Spells name.toList ∧ e.Member (name, m.2)

end Entry

/-- Whether the text is an object with these entries, whatever its blanks and escapes. -/
def Writes (text : String) (es : List Entry) : Prop :=
  ∃ members, List.Forall₂ Entry.Written es members ∧
    Token.Layout (Json.object members).tokens text.toList

/-- No field is written twice. -/
def Once (es : List Entry) : Prop :=
  ∀ f : Field, es.countP (fun e => e.field? = some f) ≤ 1

/-- The value that entries give, or the one that stands if none of them gives any. -/
def Gives {α : Type} (es : List Entry) (entry : α → Entry) (absent x : α) : Prop :=
  (∀ y, entry y ∈ es → x = y) ∧ ((∀ y, entry y ∉ es) → x = absent)

/-- Whether the policy has what the entries give, and what any policy has for the rest. -/
structure Describes (es : List Entry) (p : Policy) : Prop where
  keyFallback : Gives es .keyFallback ({} : Policy).keyFallback p.keyFallback
  minKeyLen : Gives es .minKeyLen ({} : Policy).minKeyLen p.minKeyLen
  maxLive : Gives es .maxLive ({} : Policy).maxLive p.maxLive
  allowed : Gives es .allowed ({} : Policy).allowed p.allowed

/-- What is wrong with a policy. -/
inductive Flaw (p : Policy) : String → Prop
  | noRoom (h : p.maxLive = 0) : Flaw p "max_live_contexts must be at least 1"
  | unknown {s : NameSet} {name : String} (h : p.maxLive ≠ 0) (hs : p.allowed = some s)
      (hn : name ∈ s) (hl : Algorithm.lookup name = none) :
      Flaw p s!"unknown algorithm in allow-list: {name}"

end Policy

namespace Json

open Policy

section mapM

variable {α β : Type} {g : α → Option β} {xs : List α} {ys : List β} {y : β}

theorem exists_mapM_iff : (∃ ys, xs.mapM g = some ys) ↔ ∀ x ∈ xs, ∃ y, g x = some y := by
  induction xs with
  | nil => simp
  | cons x xs ih => simp [List.mapM_cons, Option.bind_eq_some_iff, ih]

theorem mem_mapM_iff (h : xs.mapM g = some ys) : y ∈ ys ↔ ∃ x ∈ xs, g x = some y := by
  induction xs generalizing ys with
  | nil =>
    cases h
    simp
  | cons x xs ih =>
    rw [List.mapM_cons] at h
    obtain ⟨z, hz, h⟩ := Option.bind_eq_some_iff.mp h
    obtain ⟨zs, hzs, h⟩ := Option.bind_eq_some_iff.mp h
    cases h
    simp [ih hzs, hz, eq_comm]

end mapM

theorem bool?_eq_some_iff {v : Json} {b : Bool} : v.bool? = some b ↔ v = bool b := by
  cases v <;> simp [bool?]

theorem word?_eq_some_iff {v : Json} {x : UInt64} (h : v.Readable) :
    v.word? = some x ↔ v = ofNat x.toNat := by
  constructor
  · intro hw
    obtain ⟨n, hn, hw⟩ := Option.bind_eq_some_iff.mp hw
    split at hw
    · next small =>
      cases hw
      rw [UInt64.toNat_ofNat_of_lt' small, (nat?_eq_some_iff h).mp hn]
    · cases hw
  · rintro rfl
    exact word?_ofNat x

theorem exists_texts {items : List Json} (h : ∀ v ∈ items, ∃ s, v.string? = some s) :
    ∃ texts : List Text, items = texts.map string := by
  induction items with
  | nil => exact ⟨[], rfl⟩
  | cons v items ih =>
    obtain ⟨⟨s, hs⟩, hi⟩ := List.forall_mem_cons.mp h
    obtain ⟨texts, rfl⟩ := ih hi
    unfold string? at hs
    split at hs
    · next t => exact ⟨t :: texts, rfl⟩
    · cases hs

theorem mapM_string? (texts : List Text) :
    (texts.map string).mapM string? = texts.mapM Text.toString? := by
  rw [List.mapM_map]
  rfl

theorem enumerates_iff {texts : List Text} {s : NameSet} : Enumerates texts s ↔
    ∃ names, texts.mapM Text.toString? = some names ∧ s = NameSet.ofList names := by
  simp only [Enumerates, ← Text.toString?_eq_some_iff, ← exists_mapM_iff]
  constructor
  · rintro ⟨⟨names, hn⟩, hs⟩
    refine ⟨names, hn, NameSet.eq_of_mem_iff fun name => ?_⟩
    rw [hs, NameSet.mem_ofList, mem_mapM_iff hn]
  · rintro ⟨names, hn, rfl⟩
    refine ⟨⟨names, hn⟩, fun name => ?_⟩
    rw [NameSet.mem_ofList, mem_mapM_iff hn]

theorem names?_eq_some_iff {v : Json} {names : Option NameSet} :
    v.names? = some names ↔ Field.allowed.Takes v (.allowed names) := by
  constructor
  · intro h
    unfold names? at h
    split at h
    · cases h
      exact .everyName
    · next items =>
      obtain ⟨names, hn, rfl⟩ := Option.map_eq_some_iff.mp h
      obtain ⟨texts, rfl⟩ := exists_texts (exists_mapM_iff.mp ⟨names, hn⟩)
      rw [mapM_string?] at hn
      exact .names (enumerates_iff.mpr ⟨names, hn, rfl⟩)
    · cases h
  · intro h
    cases h with
    | everyName => rfl
    | names h =>
      obtain ⟨names, hn, rfl⟩ := enumerates_iff.mp h
      rw [names?, mapM_string?, hn]
      rfl

theorem field?_eq_some_iff {α : Type} {fields : List (String × Json)} {name : String}
    {read : Json → Option α} {absent x : α} : field? fields name read absent = some x ↔
      (fields.filter (fun m => m.1 = name) = [] ∧ x = absent) ∨
        ∃ v, fields.filter (fun m => m.1 = name) = [(name, v)] ∧ read v = some x := by
  have named : ∀ m ∈ fields.filter (fun m => m.1 = name), m.1 = name := by simp
  unfold field?
  generalize fields.filter (fun m => m.1 = name) = found at named
  match found with
  | [] => simp [eq_comm]
  | [(n, v)] =>
    obtain rfl : n = name := named _ List.mem_cons_self
    simp
  | _ :: _ :: _ => simp

theorem fields?_eq_some_iff_mem {members : List (Text × Json)} {fields : List (String × Json)}
    (h : fields? members = some fields) {name : String} {v : Json} :
    (name, v) ∈ fields ↔ ∃ t, (t, v) ∈ members ∧ t.Spells name.toList := by
  simp [mem_mapM_iff h, Text.toString?_eq_some_iff]

end Json

namespace Policy

variable {p q : Policy} {f g : Field} {e : Entry} {es ds : List Entry} {v : Json} {text : String}
  {members : List (Text × Json)} {fields : List (String × Json)}

theorem Field.name_inj : f.name = g.name ↔ f = g := by
  cases f <;> cases g <;> simp [name]

theorem Field.Takes.field? (h : f.Takes v e) : e.field? = some f := by
  cases h <;> rfl

namespace Entry.Member

variable {m : String × Json}

theorem field?_iff (h : e.Member m) : e.field? = some f ↔ m.1 = f.name := by
  cases h with
  | field h => rw [h.field?, Option.some.injEq, Field.name_inj]
  | other h => simpa [field?] using h f

theorem takes (h : e.Member m) (hf : e.field? = some f) : ∃ v, m = (f.name, v) ∧ f.Takes v e := by
  cases h with
  | field h =>
    cases h.field?.symm.trans hf
    exact ⟨_, rfl, h⟩
  | other h => cases hf

end Entry.Member

theorem filter_field (h : List.Forall₂ Entry.Member es fields) (f : Field) :
    List.Forall₂ Entry.Member (es.filter fun e => e.field? = some f)
      (fields.filter fun m => m.1 = f.name) := by
  refine List.rel_filter (fun e m hm => ?_) h
  simpa using hm.field?_iff

/-- How a field is read: each value that it takes is read as what the value says, and no other is
read. -/
structure Reads {α : Type} (f : Field) (entry : α → Entry) (read : Json → Option α) : Prop where
  inj : ∀ x y, entry x = entry y → x = y
  owns : ∀ e, e.field? = some f ↔ ∃ x, e = entry x
  takes : ∀ v, v.Readable → ∀ x, read v = some x ↔ f.Takes v (entry x)

theorem reads_keyFallback : Reads .keyFallback .keyFallback Json.bool? where
  inj _ _ := Entry.keyFallback.inj
  owns e := by cases e <;> simp [Entry.field?]
  takes v _ x := by
    rw [Json.bool?_eq_some_iff]
    exact ⟨fun h => h ▸ .keyFallback x, fun h => by cases h; rfl⟩

theorem reads_minKeyLen : Reads .minKeyLen .minKeyLen Json.word? where
  inj _ _ := Entry.minKeyLen.inj
  owns e := by cases e <;> simp [Entry.field?]
  takes v hv x := by
    rw [Json.word?_eq_some_iff hv]
    exact ⟨fun h => h ▸ .minKeyLen x, fun h => by cases h; rfl⟩

theorem reads_maxLive : Reads .maxLive .maxLive Json.word? where
  inj _ _ := Entry.maxLive.inj
  owns e := by cases e <;> simp [Entry.field?]
  takes v hv x := by
    rw [Json.word?_eq_some_iff hv]
    exact ⟨fun h => h ▸ .maxLive x, fun h => by cases h; rfl⟩

theorem reads_allowed : Reads .allowed .allowed Json.names? where
  inj _ _ := Entry.allowed.inj
  owns e := by cases e <;> simp [Entry.field?]
  takes _ _ _ := Json.names?_eq_some_iff

section field

variable {α : Type} {entry : α → Entry} {read : Json → Option α} {absent x y : α}

theorem Gives.unique (hx : Gives es entry absent x) (hy : Gives es entry absent y) : x = y := by
  by_cases h : ∃ z, entry z ∈ es
  · obtain ⟨z, hz⟩ := h
    rw [hx.1 z hz, hy.1 z hz]
  · have none : ∀ z, entry z ∉ es := fun z hz => h ⟨z, hz⟩
    rw [hx.2 none, hy.2 none]

theorem field?_of_entries (hr : Reads f entry read) (h : List.Forall₂ Entry.Member es fields)
    (readable : ∀ m ∈ fields, m.2.Readable) (once : es.countP (fun e => e.field? = some f) ≤ 1)
    (absent : α) : ∃ x, Json.field? fields f.name read absent = some x ∧ Gives es entry absent x := by
  have hf := filter_field h f
  rw [List.countP_eq_length_filter] at once
  simp only [Json.field?_eq_some_iff]
  match hes : es.filter fun e => e.field? = some f with
  | [] =>
    rw [hes, List.forall₂_nil_left_iff] at hf
    refine ⟨absent, .inl ⟨hf, rfl⟩, fun y hy => ?_, fun _ => rfl⟩
    have none := List.filter_eq_nil_iff.mp hes _ hy
    simp [(hr.owns _).mpr ⟨y, rfl⟩] at none
  | [e] =>
    have he : e ∈ es.filter fun e => e.field? = some f := hes ▸ List.mem_cons_self
    obtain ⟨x, rfl⟩ := (hr.owns e).mp (by simpa using (List.mem_filter.mp he).2)
    rw [hes] at hf
    obtain ⟨m, _, hm, hrest, hfs⟩ := List.forall₂_cons_left_iff.mp hf
    obtain rfl := List.forall₂_nil_left_iff.mp hrest
    obtain ⟨v, rfl, hv⟩ := hm.takes ((hr.owns _).mpr ⟨x, rfl⟩)
    have hmem : (f.name, v) ∈ fields := List.mem_of_mem_filter (hfs ▸ List.mem_cons_self)
    refine ⟨x, .inr ⟨v, hfs, (hr.takes v (readable _ hmem) x).mpr hv⟩, fun y hy => ?_, fun h => ?_⟩
    · have only : entry y ∈ es.filter fun e => e.field? = some f :=
        List.mem_filter.mpr ⟨hy, by simpa using (hr.owns _).mpr ⟨y, rfl⟩⟩
      rw [hes, List.mem_singleton] at only
      exact (hr.inj _ _ only).symm
    · exact absurd (List.mem_of_mem_filter he) (h x)
  | _ :: _ :: _ =>
    rw [hes] at once
    simp at once

/-- What is read of a field has been written at most once, and with a value that the field takes. -/
theorem once_and_taken (hr : Reads f entry read) (readable : ∀ m ∈ fields, m.2.Readable)
    (h : Json.field? fields f.name read absent = some x) :
    fields.countP (fun m => m.1 = f.name) ≤ 1 ∧ ∀ v, (f.name, v) ∈ fields → ∃ e, f.Takes v e := by
  rw [List.countP_eq_length_filter]
  rcases Json.field?_eq_some_iff.mp h with ⟨he, -⟩ | ⟨v, he, hv⟩
  · refine ⟨by simp [he], fun v hm => ?_⟩
    have none := List.filter_eq_nil_iff.mp he _ hm
    simp at none
  · refine ⟨by simp [he], fun w hm => ?_⟩
    have only : (f.name, w) ∈ fields.filter fun m => m.1 = f.name :=
      List.mem_filter.mpr ⟨hm, by simp⟩
    rw [he, List.mem_singleton] at only
    cases only
    exact ⟨_, (hr.takes v (readable _ hm) x).mp hv⟩

end field

theorem Describes.unique (hp : Describes es p) (hq : Describes es q) : q = p := by
  obtain ⟨_, _, _, _⟩ := p
  obtain ⟨_, _, _, _⟩ := q
  cases hp.keyFallback.unique hq.keyFallback
  cases hp.minKeyLen.unique hq.minKeyLen
  cases hp.maxLive.unique hq.maxLive
  cases hp.allowed.unique hq.allowed
  rfl

theorem ofJson?_object_eq_some_iff : ofJson? (.object members) = some p ↔
    ∃ fields, Json.fields? members = some fields ∧
      Json.field? fields Field.keyFallback.name Json.bool? true = some p.keyFallback ∧
      Json.field? fields Field.minKeyLen.name Json.word? 0 = some p.minKeyLen ∧
      Json.field? fields Field.maxLive.name Json.word? 1024 = some p.maxLive ∧
      Json.field? fields Field.allowed.name Json.names? none = some p.allowed := by
  obtain ⟨b, _, _, _⟩ := p
  cases b <;> simp [ofJson?, Option.bind_eq_some_iff, Field.name]

theorem fields_of_written (h : List.Forall₂ Entry.Written es members) :
    ∃ fields, Json.fields? members = some fields ∧ List.Forall₂ Entry.Member es fields := by
  induction h with
  | nil => exact ⟨[], rfl, .nil⟩
  | @cons e m es members hm _ ih =>
    obtain ⟨name, hn, he⟩ := hm
    obtain ⟨fields, hf, hes⟩ := ih
    refine ⟨(name, m.2) :: fields, ?_, .cons he hes⟩
    have first := Text.toString?_eq_some_iff.mpr hn
    unfold Json.fields? at hf ⊢
    simp [List.mapM_cons, first, hf]

theorem readable_fields (h : Json.fields? members = some fields)
    (layout : Token.Layout (Json.object members).tokens text.toList) :
    ∀ m ∈ fields, m.2.Readable := by
  rintro ⟨name, v⟩ hm
  obtain ⟨t, ht, _⟩ := (Json.fields?_eq_some_iff_mem h).mp hm
  exact Json.readable_of_layout layout _ ht

/-- Entries that write no field twice are read as the policy that they describe. -/
theorem ofJson?_of_written (h : List.Forall₂ Entry.Written es members)
    (layout : Token.Layout (Json.object members).tokens text.toList) (once : Once es) :
    ∃ p, ofJson? (.object members) = some p ∧ Describes es p := by
  obtain ⟨fields, hf, hes⟩ := fields_of_written h
  have readable := readable_fields hf layout
  obtain ⟨_, h₁, g₁⟩ := field?_of_entries reads_keyFallback hes readable (once _) true
  obtain ⟨_, h₂, g₂⟩ := field?_of_entries reads_minKeyLen hes readable (once _) 0
  obtain ⟨_, h₃, g₃⟩ := field?_of_entries reads_maxLive hes readable (once _) 1024
  obtain ⟨_, h₄, g₄⟩ := field?_of_entries reads_allowed hes readable (once _) none
  exact ⟨⟨_, _, _, _⟩, ofJson?_object_eq_some_iff.mpr ⟨fields, hf, h₁, h₂, h₃, h₄⟩, g₁, g₂, g₃, g₄⟩

/-- In an object that is read, all names are strings, and every field is written at most once and
with a value that it takes. -/
theorem sound_of_ofJson? (h : ofJson? (.object members) = some p)
    (layout : Token.Layout (Json.object members).tokens text.toList) :
    ∃ fields, Json.fields? members = some fields ∧ ∀ f : Field,
      fields.countP (fun m => m.1 = f.name) ≤ 1 ∧ ∀ v, (f.name, v) ∈ fields → ∃ e, f.Takes v e := by
  obtain ⟨fields, hf, h₁, h₂, h₃, h₄⟩ := ofJson?_object_eq_some_iff.mp h
  have readable := readable_fields hf layout
  refine ⟨fields, hf, fun f => ?_⟩
  cases f with
  | keyFallback => exact once_and_taken reads_keyFallback readable h₁
  | minKeyLen => exact once_and_taken reads_minKeyLen readable h₂
  | maxLive => exact once_and_taken reads_maxLive readable h₃
  | allowed => exact once_and_taken reads_allowed readable h₄

theorem once_of_ofJson? (h : List.Forall₂ Entry.Written es members)
    (layout : Token.Layout (Json.object members).tokens text.toList)
    (read : ofJson? (.object members) = some p) : Once es := by
  obtain ⟨fields, hf, good⟩ := sound_of_ofJson? read layout
  obtain ⟨fields', hf', hes⟩ := fields_of_written h
  cases hf.symm.trans hf'
  intro f
  have count := (filter_field hes f).length_eq
  rw [← List.countP_eq_length_filter, ← List.countP_eq_length_filter] at count
  rw [count]
  exact (good f).1

theorem Gives.congr {α : Type} {entry : α → Entry} {absent x : α}
    (same : ∀ y, entry y ∈ ds ↔ entry y ∈ es) (h : Gives es entry absent x) :
    Gives ds entry absent x := by
  simpa only [Gives, same] using h

/-- Only what is said of the fields counts. -/
theorem Describes.congr (same : ∀ e, e.field?.isSome → (e ∈ ds ↔ e ∈ es)) (h : Describes es p) :
    Describes ds p where
  keyFallback := h.keyFallback.congr fun _ => same _ rfl
  minKeyLen := h.minKeyLen.congr fun _ => same _ rfl
  maxLive := h.maxLive.congr fun _ => same _ rfl
  allowed := h.allowed.congr fun _ => same _ rfl

theorem flaw_of_validate {fault : Fault} (h : p.validate = .error fault) :
    ∃ reason, p.Flaw reason ∧ fault = .invalidOptions (.rejected reason) := by
  unfold validate at h
  split at h
  · next hz =>
    cases h
    exact ⟨_, .noRoom hz, rfl⟩
  · next hz =>
    split at h
    · next name hs =>
      cases h
      obtain ⟨s, hs, hn⟩ := Option.bind_eq_some_iff.mp hs
      have hl := List.find?_some hn
      exact ⟨_, .unknown hz hs (List.mem_of_find?_eq_some hn) (by simpa using hl), rfl⟩
    · cases h

theorem ofDocument_unreadable (h : (Json.parse? text).bind ofJson? = none) :
    ofDocument text = .error (.invalidOptions .unreadable) := by
  rw [ofDocument, h]

theorem Field.Takes.lt_size {n : Nat} (h : f.Takes (.ofNat n) e) : n < UInt64.size := by
  have small {x : UInt64} (h : Json.ofNat n = .ofNat x.toNat) : n < UInt64.size := by
    have same := congrArg Json.nat? h
    rw [Json.nat?_ofNat, Json.nat?_ofNat, Option.some.injEq] at same
    exact same ▸ x.toNat_lt_size
  generalize hv : Json.ofNat n = v at h
  cases h with
  | minKeyLen | maxLive => exact small hv
  | keyFallback | everyName | names => cases hv

section layout

variable (layout : Token.Layout (Json.object members).tokens text.toList)

include layout

theorem unreadable_of_layout (h : ∀ p, ofJson? (.object members) ≠ some p) :
    ofDocument text = .error (.invalidOptions .unreadable) := by
  refine ofDocument_unreadable ?_
  rw [Json.parse?_of_layout layout]
  exact Option.eq_none_iff_forall_ne_some.mpr h

theorem unreadable_of_value {t : Text} (hm : (t, v) ∈ members) (ht : t.Spells f.name.toList)
    (hv : ∀ e, ¬f.Takes v e) : ofDocument text = .error (.invalidOptions .unreadable) := by
  refine unreadable_of_layout layout fun p read => ?_
  obtain ⟨fields, hf, good⟩ := sound_of_ofJson? read layout
  obtain ⟨e, he⟩ := (good f).2 v ((Json.fields?_eq_some_iff_mem hf).mpr ⟨t, hm, ht⟩)
  exact hv e he

theorem unreadable_of_name {t : Text} (hm : (t, v) ∈ members)
    (ht : ∀ name : String, ¬t.Spells name.toList) :
    ofDocument text = .error (.invalidOptions .unreadable) := by
  refine unreadable_of_layout layout fun p read => ?_
  obtain ⟨fields, hf, _⟩ := sound_of_ofJson? read layout
  obtain ⟨_, decoded⟩ := Json.exists_mapM_iff.mp ⟨fields, hf⟩ (t, v) hm
  obtain ⟨name, hn, _⟩ := Option.map_eq_some_iff.mp decoded
  exact ht name (Text.toString?_eq_some_iff.mp hn)

theorem unreadable_of_junk {junk : String} (hj : ∃ c ∈ junk.toList, ¬Scanner.isBlank c) :
    ofDocument (text ++ junk) = .error (.invalidOptions .unreadable) := by
  refine ofDocument_unreadable ?_
  rw [Json.parse?_object_append layout hj]
  rfl

end layout

theorem ofDocument_of_writes (h : Writes text es) (once : Once es) :
    ∃ p, Describes es p ∧ ofDocument text = p.validate.map fun _ => p := by
  obtain ⟨members, hm, layout⟩ := h
  obtain ⟨p, read, describes⟩ := ofJson?_of_written hm layout once
  refine ⟨p, describes, ?_⟩
  rw [ofDocument, Json.parse?_of_layout layout, Option.bind_some, read]

theorem unreadable_of_twice (h : Writes text es) (twice : ¬Once es) :
    ofDocument text = .error (.invalidOptions .unreadable) := by
  obtain ⟨members, hm, layout⟩ := h
  exact unreadable_of_layout layout fun p read => twice (once_of_ofJson? hm layout read)

theorem Entry.written_field (h : f.Takes v e) : e.Written (Text.ofString f.name, v) :=
  ⟨f.name, Text.toString?_eq_some_iff.mp (Text.toString?_ofString _), .field h⟩

theorem Entry.written_other {name : String} (h : ∀ f : Field, name ≠ f.name) :
    (Entry.other name v).Written (Text.ofString name, v) :=
  ⟨name, Text.toString?_eq_some_iff.mp (Text.toString?_ofString _), .other h⟩

theorem Field.takes_names (names : List String) :
    Field.allowed.Takes (.array (names.map .ofString)) (.allowed (some (.ofList names))) := by
  refine Json.names?_eq_some_iff.mp ?_
  rw [Json.names?, Json.mapM_string?_ofString]
  rfl

/-- An object with known members, each at most once and with a value that its field takes, is read as
the policy that has these values, and the defaults for the other fields. The order of the members,
their blanks and escapes, further members and repeated names are of no account. A field that is
written twice, or with a value that it does not take, and whatever stands behind the object make the
document unreadable. -/
theorem meaning_of_document :
    (∀ text es, Writes text es → Once es →
      ∃ p, Describes es p ∧ (∀ q, Describes es q → q = p) ∧
        (p.maxLive ≠ 0 ∧ (∀ s, p.allowed = some s → ∀ name ∈ s, (Algorithm.lookup name).isSome) →
          ofDocument text = .ok p) ∧
        (¬(p.maxLive ≠ 0 ∧
            ∀ s, p.allowed = some s → ∀ name ∈ s, (Algorithm.lookup name).isSome) →
          ∃ reason, p.Flaw reason ∧
            ofDocument text = .error (.invalidOptions (.rejected reason)))) ∧
    (∀ text text' es es', Writes text es → Writes text' es' → Once es → Once es' →
      (∀ e, e.field?.isSome → (e ∈ es ↔ e ∈ es')) → ofDocument text = ofDocument text') ∧
    (∀ text es, Writes text es → ¬Once es →
      ofDocument text = .error (.invalidOptions .unreadable)) ∧
    (∀ text members, Token.Layout (Json.object members).tokens text.toList →
      (∀ t v f, (t, v) ∈ members → t.Spells (Field.name f).toList → (∀ e, ¬f.Takes v e) →
        ofDocument text = .error (.invalidOptions .unreadable)) ∧
      (∀ t v, (t, v) ∈ members → (∀ name : String, ¬t.Spells name.toList) →
        ofDocument text = .error (.invalidOptions .unreadable)) ∧
      ∀ junk : String, (∃ c ∈ junk.toList, ¬Scanner.isBlank c) →
        ofDocument (text ++ junk) = .error (.invalidOptions .unreadable)) ∧
    ∀ (f : Field) n, 2 ^ 64 ≤ n → ∀ e, ¬f.Takes (.ofNat n) e := by
  refine ⟨fun text es hw once => ?_, fun text text' es es' hw hw' once once' same => ?_,
    fun text es => unreadable_of_twice, fun text members layout =>
      ⟨fun t v f => unreadable_of_value layout, fun t v => unreadable_of_name layout,
        fun junk => unreadable_of_junk layout⟩,
    fun f n hn e h => Nat.not_le.mpr h.lt_size hn⟩
  · obtain ⟨p, describes, read⟩ := ofDocument_of_writes hw once
    refine ⟨p, describes, fun q hq => describes.unique hq, fun valid => ?_, fun invalid => ?_⟩
    · rw [read, validate_eq_ok_iff.mpr valid]
      rfl
    · cases hv : p.validate with
      | ok => exact absurd (validate_eq_ok_iff.mp hv) invalid
      | error fault =>
        obtain ⟨reason, flaw, rfl⟩ := flaw_of_validate hv
        exact ⟨reason, flaw, by rw [read, hv]; rfl⟩
  · obtain ⟨p, describes, read⟩ := ofDocument_of_writes hw once
    obtain ⟨q, describes', read'⟩ := ofDocument_of_writes hw' once'
    obtain rfl := describes.unique (describes'.congr same)
    rw [read, read']

/-- Two documents of one policy, and three next to them that cannot be read. -/
theorem documents_of_one_policy :
    let p : Policy := { maxLive := 18446744073709551615, allowed := some (.ofList ["sha 256"]) }
    let terse := "\x7b\"allowed_algorithms\":[\"sha 256\"]," ++
      "\"max_live_contexts\":18446744073709551615\x7d"
    let loose := " \x7b \"note\" : [ \x7b \x7d , [ null ] ] , " ++
      "\"max_live_contexts\" : 18446744073709551615 , " ++
      "\"allowed_algorithms\" : [ \"sha 256\" , \"sha 256\" ] \x7d "
    let double := "\x7b\"max_live_contexts\":7,\"max_live_contexts\":7\x7d"
    let large := "\x7b\"max_live_contexts\":18446744073709551616\x7d"
    ofDocument terse = .ok p ∧ ofDocument loose = .ok p ∧
      ∀ text ∈ [double, large, terse ++ " ,"],
        ofDocument text = .error (.invalidOptions .unreadable) := by
  intro p terse loose double large
  obtain ⟨read, same, twice, refused, never⟩ := meaning_of_document
  let note : Json := .array [.object [], .array [.null]]
  let limit (n : Nat) := (Text.ofString Field.maxLive.name, Json.ofNat n)
  let list (names : List String) :=
    (Text.ofString Field.allowed.name, Json.array (names.map .ofString))
  have sound_note : ∀ t ∈ note.tokens, t.Sound := by
    simp [note, Json.tokens, Json.itemTokens, Json.memberTokens, Token.Sound]
  have sound_limit (n : Nat) : ∀ t ∈ (limit n).2.tokens, t.Sound := Json.sound_ofNat n
  have sound_list (names : List String) : ∀ t ∈ (list names).2.tokens, t.Sound :=
    Json.sound_ofStrings names
  have terse_layout : Token.Layout
      (Json.object [list ["sha 256"], limit p.maxLive.toNat]).tokens terse.toList := by
    refine Json.layout_object [] (List.forall_mem_nil _) ?_ (by decide +kernel)
    simp only [List.forall_mem_cons]
    exact ⟨⟨Json.sound_text _, sound_list _⟩, ⟨Json.sound_text _, sound_limit _⟩,
      List.forall_mem_nil _⟩
  have terse_writes : Writes terse [.allowed p.allowed, .maxLive p.maxLive] :=
    ⟨_, .cons (Entry.written_field (Field.takes_names _))
      (.cons (Entry.written_field (.maxLive _)) .nil), terse_layout⟩
  have terse_once : Once [.allowed p.allowed, .maxLive p.maxLive] := by
    intro f
    cases f <;> decide
  have terse_read : ofDocument terse = .ok p := by
    obtain ⟨q, _, unique, ok, _⟩ := read terse _ terse_writes terse_once
    have describes : Describes [.allowed p.allowed, .maxLive p.maxLive] p := by
      constructor <;> simp [Gives, p]
    obtain rfl := unique p describes
    exact ok (validate_eq_ok_iff.mp (by decide +kernel))
  have loose_writes : Writes loose [.other "note" note, .maxLive p.maxLive, .allowed p.allowed] := by
    have other (f : Field) : "note" ≠ f.name := by cases f <;> decide
    have again : Field.allowed.Takes (list ["sha 256", "sha 256"]).2 (.allowed p.allowed) := by
      have taken := Field.takes_names ["sha 256", "sha 256"]
      rwa [show NameSet.ofList ["sha 256", "sha 256"] = .ofList ["sha 256"] by decide] at taken
    refine ⟨[(Text.ofString "note", note), limit p.maxLive.toNat, list ["sha 256", "sha 256"]],
      .cons (Entry.written_other other) (.cons (Entry.written_field (.maxLive _))
      (.cons (Entry.written_field again) .nil)), ?_⟩
    refine Json.layout_object [' '] (by simp [Scanner.isBlank]) ?_ (by decide +kernel)
    simp only [List.forall_mem_cons]
    exact ⟨⟨Json.sound_text _, sound_note⟩, ⟨Json.sound_text _, sound_limit _⟩,
      ⟨Json.sound_text _, sound_list _⟩, List.forall_mem_nil _⟩
  have loose_read : ofDocument loose = ofDocument terse := by
    refine same loose terse _ _ loose_writes terse_writes ?_ terse_once fun e he => ?_
    · intro f
      cases f <;> decide
    · have ne : e ≠ .other "note" note := by
        rintro rfl
        cases he
      simp only [List.mem_cons, ne, false_or, or_left_comm]
  have double_writes : Writes double [.maxLive 7, .maxLive 7] := by
    refine ⟨[limit 7, limit 7], .cons (Entry.written_field (.maxLive 7))
      (.cons (Entry.written_field (.maxLive 7)) .nil), ?_⟩
    refine Json.layout_object [] (List.forall_mem_nil _) ?_ (by decide +kernel)
    simp only [List.forall_mem_cons]
    exact ⟨⟨Json.sound_text _, sound_limit _⟩, ⟨Json.sound_text _, sound_limit _⟩,
      List.forall_mem_nil _⟩
  have large_layout : Token.Layout (Json.object [limit (2 ^ 64)]).tokens large.toList := by
    refine Json.layout_object [] (List.forall_mem_nil _) ?_ (by decide +kernel)
    simp only [List.forall_mem_cons]
    exact ⟨⟨Json.sound_text _, sound_limit _⟩, List.forall_mem_nil _⟩
  refine ⟨terse_read, loose_read.trans terse_read, ?_⟩
  simp only [List.forall_mem_cons]
  refine ⟨twice double _ double_writes fun h => absurd (h .maxLive) (by decide), ?_, ?_,
    List.forall_mem_nil _⟩
  · exact (refused large _ large_layout).1 _ _ .maxLive List.mem_cons_self
      (Text.toString?_eq_some_iff.mp (Text.toString?_ofString _)) (never .maxLive _ le_rfl)
  · exact (refused terse _ terse_layout).2.2 " ," ⟨',', by decide +kernel, by decide⟩

end Policy

end StreamDigest
