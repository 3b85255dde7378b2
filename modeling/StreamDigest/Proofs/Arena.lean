import StreamDigest.Arena
import StreamDigest.Proofs.Update

namespace StreamDigest

namespace Handle

theorem toNat_toWord (h : Handle) :
    h.toWord.toNat = h.generation.toNat * 2 ^ 32 + h.index.toNat := by
  have hi := h.index.toNat_lt
  have hg := h.generation.toNat_lt
  rw [toWord, UInt64.toNat_or, UInt64.toNat_shiftLeft, UInt32.toNat_toUInt64,
    UInt32.toNat_toUInt64, show (32 : UInt64).toNat % 64 = 32 from rfl, Nat.shiftLeft_eq,
    Nat.mod_eq_of_lt (by omega), Nat.mul_comm, ← Nat.two_pow_add_eq_or_of_lt hi]

theorem toNat_ofWord_index (w : UInt64) : (ofWord w).index.toNat = w.toNat % 2 ^ 32 :=
  UInt64.toNat_toUInt32 w

theorem toNat_ofWord_generation (w : UInt64) : (ofWord w).generation.toNat = w.toNat / 2 ^ 32 := by
  have bound := w.toNat_lt
  rw [ofWord, UInt64.toNat_toUInt32, UInt64.toNat_shiftRight,
    show (32 : UInt64).toNat % 64 = 32 from rfl, Nat.shiftRight_eq_div_pow]
  omega

theorem ofWord_toWord (h : Handle) : ofWord h.toWord = h := by
  have hi := h.index.toNat_lt
  have index := toNat_ofWord_index h.toWord
  have generation := toNat_ofWord_generation h.toWord
  rw [toNat_toWord] at index generation
  have same {a b : Handle} (i : a.index.toNat = b.index.toNat)
      (g : a.generation.toNat = b.generation.toNat) : a = b := by
    cases a
    cases b
    exact (mk.injEq ..).mpr ⟨UInt32.toNat_inj.mp i, UInt32.toNat_inj.mp g⟩
  exact same (by omega) (by omega)

theorem toWord_ofWord (w : UInt64) : (ofWord w).toWord = w := by
  apply UInt64.toNat_inj.mp
  rw [toNat_toWord, toNat_ofWord_index, toNat_ofWord_generation]
  omega

end Handle

namespace Arena

variable {α : Type} {s t : Arena α} {h : Handle} {a : α}

def Vacant (s : Arena α) (n : Nat) : Prop :=
  ∃ slot, s.slots[n]? = some slot ∧ slot.content = none

def contents (s : Arena α) : List α :=
  s.slots.toList.filterMap Slot.content

def occupied (s : Arena α) : Nat :=
  s.slots.toList.countP fun slot => slot.content.isSome

/-- The free list names slots that are there. -/
def FreeInRange (s : Arena α) : Prop :=
  ∀ i ∈ s.free, i.toNat < s.slots.size

@[simp]
theorem slots_takeRoom (s : Arena α) : s.takeRoom.slots = s.slots := rfl

/-- Indices reach every slot, and the free list has each vacant one once. -/
structure Sound (s : Arena α) : Prop where
  size_le : s.slots.size ≤ 2 ^ 32
  free_nodup : (s.free.map UInt32.toNat).Nodup
  mem_free : ∀ n, n ∈ s.free.map UInt32.toNat ↔ s.Vacant n

theorem empty_sound : ({} : Arena α).Sound where
  size_le := by simp
  free_nodup := by simp
  mem_free := by simp [Vacant]

/-- The two ways to put an element in: the slot that was freed last is used again, or else there is
a new one. -/
inductive Insertion (s : Arena α) (a : α) : Handle → Arena α → Prop
  | reuse {i free slot} (hf : s.free = i :: free) (hs : s.slots[i.toNat]? = some slot)
      (hv : slot.content = none) :
      Insertion s a ⟨i, slot.generation⟩ { s with
        slots := s.slots.modify i.toNat fun slot => { slot with content := some a }, free }
  | extend (hf : s.free = []) (hb : s.slots.size < 2 ^ 32) :
      Insertion s a ⟨s.slots.size.toUInt32, 0⟩ { s with
        slots := s.slots.push { content := some a } }

theorem toNat_toUInt32 {n : Nat} (h : n < 2 ^ 32) : n.toUInt32.toNat = n :=
  Nat.mod_eq_of_lt h

/-- Under a sound arena with an index to spare, nothing is displaced. -/
theorem Sound.insertion (sound : s.Sound) (room : s.free = [] → s.slots.size < 2 ^ 32) (a : α) :
    ∃ h t, s.insert a = (h, none, t) ∧ Insertion s a h t := by
  cases hf : s.free with
  | cons i free =>
    obtain ⟨slot, hs, hv⟩ := (sound.mem_free i.toNat).mp (by simp [hf])
    refine ⟨_, _, ?_, .reuse hf hs hv⟩
    simp [insert, reserve, hf, Arena.slot, hs, hv, fill]
  | nil =>
    have hb := room hf
    have hi := toNat_toUInt32 hb
    refine ⟨_, _, ?_, .extend hf hb⟩
    have he : (s.slots.push {}).modify s.slots.size (fun slot => { slot with content := some a }) =
        s.slots.push { content := some a } := by
      apply Array.ext_getElem?
      intro n
      by_cases hn : s.slots.size = n
      · subst hn
        rw [Array.getElem?_modify, if_pos rfl]
        simp
      · rw [Array.getElem?_modify, if_neg hn, Array.getElem?_push, Array.getElem?_push,
          if_neg (Ne.symm hn), if_neg (Ne.symm hn)]
    simp [insert, reserve, hf, Arena.slot, fill, hi, he]

theorem Insertion.getElem? (ins : Insertion s a h t) (n : Nat) :
    t.slots[n]? = if n = h.index.toNat then some ⟨h.generation, some a⟩ else s.slots[n]? := by
  cases ins with
  | @reuse i free slot hf hs hv =>
    by_cases hn : n = i.toNat
    · subst hn
      simp [Array.getElem?_modify, hs]
    · simp [Array.getElem?_modify, hn, Ne.symm hn]
  | extend hf hb =>
    simp only [toNat_toUInt32 hb, Array.getElem?_push]

theorem Insertion.live (ins : Insertion s a h t) : t.live = s.live := by
  cases ins <;> rfl

theorem Insertion.before (ins : Insertion s a h t) :
    s.slots[h.index.toNat]? = some ⟨h.generation, none⟩ ∨
      s.slots[h.index.toNat]? = none ∧ h.generation = 0 := by
  cases ins with
  | @reuse i free slot hf hs hv =>
    cases slot
    exact .inl (by simp_all)
  | extend hf hb => exact .inr ⟨by simp [toNat_toUInt32 hb], rfl⟩

/-- The handle of a vacant slot, and of one that is not there yet, leads nowhere. -/
theorem Insertion.find_before (ins : Insertion s a h t) : s.find h = .unknown := by
  rcases ins.before with hs | ⟨hs, _⟩
  · simp [find, hs, UInt32.lt_irrefl]
  · simp [find, hs]

theorem index_ne_of_generation {h' : Handle} (hne : h' ≠ h) (hi : h'.index = h.index) :
    h'.generation ≠ h.generation := by
  intro hg
  cases h
  cases h'
  simp_all

theorem Insertion.find (ins : Insertion s a h t) (h' : Handle) :
    t.find h' = if h' = h then .here a else s.find h' := by
  unfold Arena.find
  rw [ins.getElem?]
  by_cases hh : h' = h
  · subst hh
    simp [UInt32.lt_irrefl]
  · rw [if_neg hh]
    by_cases hi : h'.index = h.index
    · have hg := index_ne_of_generation hh hi
      rw [if_pos (by rw [hi]), hi]
      rcases ins.before with hs | ⟨hs, hz⟩
      · simp [hs, hg]
      · have hn : ¬h'.generation < h.generation := by
          rw [hz]
          exact UInt32.not_lt_zero
        simp [hs, hg, hn]
    · rw [if_neg fun he => hi (UInt32.toNat_inj.mp he)]

theorem find_here {h : Handle} (hf : s.find h = .here a) :
    s.slots[h.index.toNat]? = some ⟨h.generation, some a⟩ := by
  unfold find at hf
  split at hf
  · cases hf
  · next slot hs =>
    split at hf
    · cases hf
    · split at hf
      · next hc =>
        split at hf
        · next hg =>
          cases hf
          rw [hs]
          cases slot
          simp_all
        · cases hf
      · cases hf

theorem find_fill {b : α} (hf : s.find h = .here a) (h' : Handle) :
    (s.fill h.index b).find h' = if h' = h then .here b else s.find h' := by
  have hs := find_here hf
  unfold find fill
  rw [Array.getElem?_modify]
  by_cases hh : h' = h
  · subst hh
    simp [hs, UInt32.lt_irrefl]
  · rw [if_neg hh]
    by_cases hi : h'.index = h.index
    · have hg := index_ne_of_generation hh hi
      simp [hi, hs, hg]
    · rw [if_neg fun he => hi (UInt32.toNat_inj.mp he.symm)]

theorem vacate_here (hf : s.find h = .here a) :
    s.vacate h.index = {
      slots := s.slots.modify h.index.toNat fun slot => ⟨slot.generation + 1, none⟩
      free := h.index :: s.free
      live := s.live - 1 } := by
  simp [vacate, slot, find_here hf]

theorem getElem?_vacate (hf : s.find h = .here a) (n : Nat) :
    (s.vacate h.index).slots[n]? =
      if n = h.index.toNat then some ⟨h.generation + 1, none⟩ else s.slots[n]? := by
  rw [vacate_here hf, Array.getElem?_modify]
  by_cases hn : n = h.index.toNat
  · subst hn
    simp [find_here hf]
  · rw [if_neg hn, if_neg (Ne.symm hn)]

theorem getElem?_fill {b : α} (hf : s.find h = .here a) (n : Nat) :
    (s.fill h.index b).slots[n]? =
      if n = h.index.toNat then some ⟨h.generation, some b⟩ else s.slots[n]? := by
  rw [fill, Array.getElem?_modify]
  by_cases hn : n = h.index.toNat
  · subst hn
    simp [find_here hf]
  · rw [if_neg hn, if_neg (Ne.symm hn)]

/-- To retire an element right after an update is to vacate its slot. -/
theorem retire_fill {b : α} (hf : s.find h = .here a) :
    (s.fill h.index b).retire h = s.vacate h.index := by
  have hb : (s.fill h.index b).find h = .here b := by rw [find_fill hf, if_pos rfl]
  have hv := vacate_here hb
  simp only [retire, hb]
  rw [hv, vacate_here hf]
  simp only [fill, mk.injEq, and_self, and_true]
  apply Array.ext_getElem?
  intro n
  simp only [Array.getElem?_modify]
  by_cases hn : h.index.toNat = n
  · simp [hn, Function.comp_def]
  · simp [hn]

/-- Short of the last generation, only the handle that led to the element is affected. -/
theorem find_vacate (hf : s.find h = .here a) (hb : h.generation.toNat + 1 < 2 ^ 32) (h' : Handle) :
    (s.vacate h.index).find h' = if h' = h then .retired else s.find h' := by
  have hs := find_here hf
  have hn : (h.generation + 1).toNat = h.generation.toNat + 1 := by
    rw [UInt32.toNat_add]
    exact Nat.mod_eq_of_lt hb
  unfold find
  rw [getElem?_vacate hf]
  by_cases hh : h' = h
  · subst hh
    have hl : h'.generation < h'.generation + 1 := UInt32.lt_iff_toNat_lt.mpr (by omega)
    simp [hl]
  · rw [if_neg hh]
    by_cases hi : h'.index = h.index
    · have hg := index_ne_of_generation hh hi
      have hg' : h'.generation.toNat ≠ h.generation.toNat := fun he => hg (UInt32.toNat_inj.mp he)
      rw [if_pos (by rw [hi]), hi, hs]
      by_cases hl : h'.generation < h.generation
      · have hl' : h'.generation < h.generation + 1 := by
          rw [UInt32.lt_iff_toNat_lt] at hl ⊢
          omega
        simp [hl, hl']
      · have hl' : ¬h'.generation < h.generation + 1 := by
          rw [UInt32.lt_iff_toNat_lt] at hl ⊢
          omega
        simp [hl, hl', hg]
    · rw [if_neg fun he => hi (UInt32.toNat_inj.mp he)]

theorem vacant_iff {n : Nat} : s.Vacant n ↔ ∃ g, s.slots[n]? = some ⟨g, none⟩ := by
  constructor
  · rintro ⟨⟨g, c⟩, hs, rfl⟩
    exact ⟨g, hs⟩
  · rintro ⟨g, hs⟩
    exact ⟨_, hs, rfl⟩

theorem Insertion.vacant_iff (ins : Insertion s a h t) (n : Nat) :
    t.Vacant n ↔ s.Vacant n ∧ n ≠ h.index.toNat := by
  simp only [Arena.vacant_iff, ins.getElem?]
  by_cases hn : n = h.index.toNat <;> simp [hn]

theorem Insertion.sound (ins : Insertion s a h t) (sound : s.Sound) : t.Sound := by
  have hvac := ins.vacant_iff
  cases ins with
  | @reuse i free slot hf hs hv =>
    have hnd := sound.free_nodup
    simp only [hf, List.map_cons, List.nodup_cons] at hnd
    refine ⟨by simpa using sound.size_le, hnd.2, ?_⟩
    intro n
    rw [hvac, ← sound.mem_free, hf, List.map_cons, List.mem_cons]
    constructor
    · intro hm
      exact ⟨.inr hm, fun he => hnd.1 (he ▸ hm)⟩
    · rintro ⟨hm | hm, hne⟩
      · exact absurd hm hne
      · exact hm
  | extend hf hb =>
    refine ⟨by simp only [Array.size_push]; omega, sound.free_nodup, ?_⟩
    intro n
    rw [hvac, ← sound.mem_free]
    simp [hf]

theorem sound_fill {b : α} (sound : s.Sound) (hf : s.find h = .here a) :
    (s.fill h.index b).Sound := by
  refine ⟨by simpa [fill] using sound.size_le, sound.free_nodup, ?_⟩
  intro n
  rw [fill, sound.mem_free, Arena.vacant_iff, Arena.vacant_iff, Array.getElem?_modify]
  by_cases hn : h.index.toNat = n
  · subst hn
    simp [find_here hf]
  · rw [if_neg hn]

theorem sound_vacate (sound : s.Sound) (hf : s.find h = .here a) : (s.vacate h.index).Sound := by
  have hocc : ¬s.Vacant h.index.toNat := by simp [Arena.vacant_iff, find_here hf]
  have hfree : h.index.toNat ∉ s.free.map UInt32.toNat := fun hm => hocc ((sound.mem_free _).mp hm)
  have hnd : ((s.vacate h.index).free.map UInt32.toNat).Nodup := by
    rw [vacate_here hf]
    exact List.nodup_cons.mpr ⟨hfree, sound.free_nodup⟩
  refine ⟨by simpa [vacate_here hf] using sound.size_le, hnd, ?_⟩
  intro n
  rw [Arena.vacant_iff, getElem?_vacate hf, vacate_here hf]
  by_cases hn : n = h.index.toNat
  · simp [hn]
  · rw [if_neg hn, ← Arena.vacant_iff, ← sound.mem_free]
    simp [hn]

theorem length_contents (s : Arena α) : s.contents.length = s.occupied :=
  List.length_filterMap_eq_countP

theorem mem_contents_of_find (hf : s.find h = .here a) : a ∈ s.contents :=
  List.mem_filterMap.mpr
    ⟨_, List.mem_iff_getElem?.mpr ⟨h.index.toNat, by simpa using find_here hf⟩, rfl⟩

theorem Sound.freeInRange (sound : s.Sound) : s.FreeInRange := by
  intro i hi
  obtain ⟨slot, hs, _⟩ := (sound.mem_free i.toNat).mp (List.mem_map_of_mem hi)
  exact (Array.getElem?_eq_some_iff.mp hs).1

/-- Nothing free means nothing vacant. -/
theorem Sound.occupied_slot (sound : s.Sound) (hf : s.free = []) {n : Nat} {slot : Slot α}
    (hs : s.slots[n]? = some slot) : ∃ a, slot.content = some a := by
  cases hc : slot.content with
  | some a => exact ⟨a, rfl⟩
  | none =>
    have := (sound.mem_free n).mpr ⟨slot, hs, hc⟩
    simp [hf] at this

theorem occupied_of_full (sound : s.Sound) (hf : s.free = []) : s.occupied = s.slots.size := by
  have hall : ∀ slot ∈ s.slots.toList, slot.content.isSome = true := by
    intro slot hm
    obtain ⟨n, hs⟩ := List.mem_iff_getElem?.mp hm
    rw [Array.getElem?_toList] at hs
    exact Option.isSome_iff_exists.mpr (sound.occupied_slot hf hs)
  rw [occupied, List.countP_eq_length.mpr hall, Array.length_toList]

theorem reserve_lt (range : s.FreeInRange) : s.reserve.1.toNat < s.reserve.2.slots.size := by
  unfold reserve
  cases hf : s.free with
  | cons i free => exact range i (by simp [hf])
  | nil =>
    have hle : s.slots.size.toUInt32.toNat ≤ s.slots.size := Nat.mod_le _ _
    simp only [Array.size_push]
    omega

theorem contents_reserve (s : Arena α) : s.reserve.2.contents = s.contents := by
  unfold reserve
  split
  · rfl
  · simp [contents]

/-- An element goes in, and the one that it displaces comes out. -/
theorem insert_contents (range : s.FreeInRange) (a : α) :
    ∃ rest, s.contents.Perm ((s.insert a).2.1.toList ++ rest) ∧
      (s.insert a).2.2.contents.Perm (a :: rest) := by
  have hlt := reserve_lt range
  have hs : s.reserve.2.slots[s.reserve.1.toNat]? = some (s.reserve.2.slot s.reserve.1) := by
    simp [slot, Array.getElem?_eq_getElem hlt]
  obtain ⟨rest, hb, ha⟩ := exists_perm_array_modify hs fun slot => { slot with content := some a }
  refine ⟨rest.filterMap Slot.content, ?_, ?_⟩
  · rw [← contents_reserve]
    refine (hb.filterMap _).trans (.of_eq ?_)
    cases hc : (s.reserve.2.slot s.reserve.1).content <;> simp [insert, hc]
  · exact (ha.filterMap _).trans (.of_eq (by simp))

theorem fill_contents {b : α} (hf : s.find h = .here a) :
    ∃ rest, s.contents.Perm (a :: rest) ∧ (s.fill h.index b).contents.Perm (b :: rest) := by
  obtain ⟨rest, hb, ha⟩ :=
    exists_perm_array_modify (find_here hf) fun slot => { slot with content := some b }
  exact ⟨rest.filterMap Slot.content, hb.filterMap Slot.content, ha.filterMap Slot.content⟩

theorem vacate_contents (hf : s.find h = .here a) :
    s.contents.Perm (a :: (s.vacate h.index).contents) := by
  obtain ⟨rest, hb, ha⟩ :=
    exists_perm_array_modify (find_here hf) fun slot => ⟨slot.generation + 1, none⟩
  rw [vacate_here hf]
  have hr := ha.filterMap Slot.content
  exact (hb.filterMap _).trans (.cons a hr.symm)

theorem size_insert (s : Arena α) (a : α) :
    (s.insert a).2.2.slots.size = s.slots.size + if s.free = [] then 1 else 0 := by
  simp only [insert, fill, reserve]
  split
  · next hf => simp [hf]
  · next hf => simp [hf]

theorem freeInRange_insert (range : s.FreeInRange) (a : α) : (s.insert a).2.2.FreeInRange := by
  have hsize := s.size_insert a
  have hfree : ∀ i ∈ (s.insert a).2.2.free, i ∈ s.free := by
    simp only [insert, fill, reserve]
    split
    · next hf => simp_all
    · next hf => simp_all
  intro i hi
  have hlt := range i (hfree i hi)
  omega

theorem freeInRange_fill {b : α} (range : s.FreeInRange) (i : UInt32) :
    (s.fill i b).FreeInRange := by
  intro j hj
  simpa [fill] using range j hj

theorem freeInRange_vacate (range : s.FreeInRange) (hf : s.find h = .here a) :
    (s.vacate h.index).FreeInRange := by
  rw [vacate_here hf]
  intro i hi
  rcases List.mem_cons.mp hi with rfl | hi
  · simpa using (Array.getElem?_eq_some_iff.mp (find_here hf)).1
  · simpa using range i hi

end Arena

end StreamDigest
