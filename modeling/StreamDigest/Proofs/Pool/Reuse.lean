import StreamDigest.Library.Software
import StreamDigest.Proofs.Pool

namespace StreamDigest

namespace Handle

/-- The first handles that a slot gives out. Generations count up and come round. -/
def series (i : UInt32) (n : Nat) : List Handle :=
  (List.range n).map fun k => ⟨i, k.toUInt32⟩

theorem series_succ (i : UInt32) (n : Nat) : series i (n + 1) = series i n ++ [⟨i, n.toUInt32⟩] := by
  simp [series, List.range_succ]

@[simp]
theorem length_series (i : UInt32) (n : Nat) : (series i n).length = n := by
  simp [series]

theorem series_nodup_iff {i : UInt32} {n : Nat} : (series i n).Nodup ↔ n ≤ 2 ^ 32 := by
  constructor
  · intro distinct
    by_contra hn
    have h0 : 0 < (series i n).length := by rw [length_series]; omega
    have h1 : 2 ^ 32 < (series i n).length := by rw [length_series]; omega
    have he : (series i n)[0] = (series i n)[2 ^ 32] := by simp [series]
    exact absurd ((distinct.getElem_inj_iff).mp he) (by omega)
  · intro hn
    refine (List.nodup_map_iff_inj_on List.nodup_range).mpr ?_
    intro j hj k hk he
    have hg := congrArg (fun h : Handle => h.generation.toNat) he
    rw [List.mem_range] at hj hk
    rwa [Arena.toNat_toUInt32 (by omega), Arena.toNat_toUInt32 (by omega)] at hg

end Handle

namespace Arena

variable {α : Type} {s t : Arena α} {h : Handle} {a : α} {issued : List Handle}

/-- The handles issued for a slot count its elements, the one that is there last. -/
structure Numbered (s : Arena α) (issued : List Handle) : Prop where
  sound : s.Sound
  turns : ∀ i, ∃ n, (s.slot i).generation = n.toUInt32 ∧
    issued.filter (·.index = i) = Handle.series i (n + (s.slot i).content.toList.length)

theorem empty_numbered : ({} : Arena α).Numbered [] where
  sound := empty_sound
  turns := fun _ => ⟨0, rfl, rfl⟩

theorem slot_of_getElem? {i : UInt32} {slot : Slot α} (hs : s.slots[i.toNat]? = some slot) :
    s.slot i = slot := by
  rw [Arena.slot, hs, Option.getD_some]

theorem find_eq_here_iff :
    s.find h = .here a ↔ s.slots[h.index.toNat]? = some ⟨h.generation, some a⟩ := by
  refine ⟨find_here, ?_⟩
  intro hs
  simp [find, hs, UInt32.lt_irrefl]

/-- What an element leaves behind leads to no other, even if generations come round. -/
theorem find_vacate_eq_here_iff {b : α} (hf : s.find h = .here a) (h' : Handle) :
    (s.vacate h.index).find h' = .here b ↔ h' ≠ h ∧ s.find h' = .here b := by
  rw [find_eq_here_iff, find_eq_here_iff, getElem?_vacate hf]
  by_cases hi : h'.index.toNat = h.index.toNat
  · rw [if_pos hi, hi, find_here hf]
    have hg (hne : h' ≠ h) : h'.generation ≠ h.generation :=
      index_ne_of_generation hne (UInt32.toNat_inj.mp hi)
    constructor
    · intro he
      simp at he
    · rintro ⟨hne, he⟩
      exact absurd (congrArg Slot.generation (Option.some.inj he)).symm (hg hne)
  · rw [if_neg hi]
    refine ⟨fun hs => ⟨?_, hs⟩, And.right⟩
    rintro rfl
    exact hi rfl

theorem Numbered.takeRoom (hn : s.Numbered issued) : s.takeRoom.Numbered issued :=
  ⟨⟨hn.sound.size_le, hn.sound.free_nodup, hn.sound.mem_free⟩, hn.turns⟩

/-- An element that is there has its handle from its own opening. -/
theorem Numbered.mem_of_here (hn : s.Numbered issued) (hf : s.find h = .here a) : h ∈ issued := by
  obtain ⟨n, hg, hi⟩ := hn.turns h.index
  rw [slot_of_getElem? (find_here hf)] at hg hi
  have hm : h ∈ Handle.series h.index (n + 1) := by
    rw [Handle.series_succ, ← hg]
    simp
  exact (List.mem_filter.mp (hi ▸ hm)).1

/-- A write into one slot keeps the count of all others. -/
theorem Numbered.write (hn : s.Numbered issued) (sound : t.Sound) {more : List Handle} {i : UInt32}
    {slot : Slot α} (hmore : ∀ h ∈ more, h.index = i)
    (hw : ∀ n, t.slots[n]? = if n = i.toNat then some slot else s.slots[n]?)
    (turn : ∃ n, slot.generation = n.toUInt32 ∧ issued.filter (·.index = i) ++ more =
      Handle.series i (n + slot.content.toList.length)) : t.Numbered (issued ++ more) := by
  refine ⟨sound, ?_⟩
  intro j
  by_cases hj : j = i
  · subst hj
    have hall : more.filter (·.index = j) = more :=
      List.filter_eq_self.mpr fun h hm => decide_eq_true (hmore h hm)
    have hs : t.slot j = slot := slot_of_getElem? (by rw [hw, if_pos rfl])
    rw [hs, List.filter_append, hall]
    exact turn
  · have hnone : more.filter (·.index = j) = [] :=
      List.filter_eq_nil_iff.mpr fun h hm => by simp [hmore h hm, Ne.symm hj]
    have hs : t.slot j = s.slot j := by
      rw [Arena.slot, hw, if_neg fun he => hj (UInt32.toNat_inj.mp he), Arena.slot]
    rw [hs, List.filter_append, hnone, List.append_nil]
    exact hn.turns j

theorem Insertion.slot_before (ins : Insertion s a h t) : s.slot h.index = ⟨h.generation, none⟩ := by
  rcases ins.before with hs | ⟨hs, hz⟩
  · exact slot_of_getElem? hs
  · rw [Arena.slot, hs, hz]
    rfl

theorem Numbered.insertion (hn : s.Numbered issued) (room : s.free = [] → s.slots.size < 2 ^ 32)
    (a : α) :
    ∃ h t, s.insert a = (h, none, t) ∧ Insertion s a h t ∧ t.Numbered (issued ++ [h]) := by
  obtain ⟨h, t, heq, ins⟩ := hn.sound.insertion room a
  obtain ⟨n, hg, hi⟩ := hn.turns h.index
  rw [ins.slot_before] at hg hi
  refine ⟨h, t, heq, ins, hn.write (ins.sound hn.sound) (by simp) ins.getElem? ⟨n, hg, ?_⟩⟩
  have hh : h = ⟨h.index, n.toUInt32⟩ := by rw [← hg]
  exact (congrArg₂ (· ++ ·) hi (congrArg List.singleton hh)).trans (Handle.series_succ _ n).symm

theorem Numbered.fill {b : α} (hn : s.Numbered issued) (hf : s.find h = .here a) :
    (s.fill h.index b).Numbered issued := by
  obtain ⟨n, hg, hi⟩ := hn.turns h.index
  rw [slot_of_getElem? (find_here hf)] at hg hi
  have hw := hn.write (sound_fill (b := b) hn.sound hf) (by simp) (getElem?_fill hf)
    ⟨n, hg, (List.append_nil _).trans hi⟩
  rwa [List.append_nil] at hw

theorem Numbered.vacate (hn : s.Numbered issued) (hf : s.find h = .here a) :
    (s.vacate h.index).Numbered issued := by
  obtain ⟨n, hg, hi⟩ := hn.turns h.index
  rw [slot_of_getElem? (find_here hf)] at hg hi
  have hnext : h.generation + 1 = (n + 1).toUInt32 :=
    (congrArg (· + 1) hg).trans (UInt32.ofNat_add n 1).symm
  have hw := hn.write (sound_vacate hn.sound hf) (by simp) (getElem?_vacate hf)
    ⟨n + 1, hnext, (List.append_nil _).trans hi⟩
  rwa [List.append_nil] at hw

/-- With all indices in use, an insertion goes to the first slot, and repeats the handle that this
slot has given out last. -/
theorem Numbered.mem_insert_of_full (hn : s.Numbered issued) (hfree : s.free = [])
    (full : 2 ^ 32 ≤ s.slots.size) (a : α) : (s.insert a).1 ∈ issued := by
  have hsize : s.slots.size = 2 ^ 32 := Nat.le_antisymm hn.sound.size_le full
  obtain ⟨slot, hs⟩ : ∃ slot, s.slots[0]? = some slot :=
    ⟨_, Array.getElem?_eq_getElem (by omega)⟩
  obtain ⟨b, hb⟩ := hn.sound.occupied_slot hfree hs
  have hf : s.find ⟨0, slot.generation⟩ = .here b := find_eq_here_iff.mpr (hb ▸ hs)
  have hpush : (s.slots.push {})[0]? = some slot := by
    rw [Array.getElem?_push, if_neg (by omega), hs]
  have hhandle : (s.insert a).1 = ⟨0, slot.generation⟩ := by
    have hindex : s.reserve = (0, { s with slots := s.slots.push {} }) := by
      simp [reserve, hfree, hsize]
    have hslot : ({ s with slots := s.slots.push {} } : Arena α).slot 0 = slot :=
      slot_of_getElem? hpush
    simp only [insert, hindex, hslot]
  rw [hhandle]
  exact hn.mem_of_here hf

end Arena

namespace Pool

variable {σ : Type} {p q : Pool σ} {a : Action} {r : Reply} {issued : List Handle} {h : Handle}

theorem Step.size_le (st : Step p a r q) : p.arena.slots.size ≤ q.arena.slots.size := by
  cases st with
  | opened hb room hc => exact (p.arena.takeRoom.size_insert _).symm ▸ Nat.le_add_right _ _
  | kept hf => simp [Arena.fill]
  | ended hf => simp [Arena.vacate_here hf]
  | full | failed | unknown | retired | inserted | removed | counted | storeless | digested =>
    exact Nat.le_refl _

theorem size_le_after (p : Pool σ) (actions : List Action) :
    p.arena.slots.size ≤ (p.after actions).arena.slots.size := by
  induction actions generalizing p with
  | nil => exact Nat.le_refl _
  | cons a rest ih => exact Nat.le_trans (perform_step p a).size_le (ih _)

/-- A new handle repeats no other, or else it is for a slot beyond all indices. -/
theorem Step.numbered (st : Step p a r q) (hn : p.arena.Numbered issued)
    (fits : (issued ++ r.opened?.toList).Nodup ∨ q.arena.slots.size ≤ 2 ^ 32) :
    q.arena.Numbered (issued ++ r.opened?.toList) := by
  cases st with
  | @opened _ begin c custody hb room hc =>
    have hroom : p.arena.takeRoom.free = [] → p.arena.takeRoom.slots.size < 2 ^ 32 := by
      intro hfree
      by_contra hfull
      rcases fits with distinct | hle
      · have hm := hn.takeRoom.mem_insert_of_full hfree (Nat.le_of_not_lt hfull) c
        exact List.disjoint_of_nodup_append distinct hm (by simp [Reply.opened?])
      · rw [Arena.size_insert, if_pos hfree] at hle
        omega
    obtain ⟨h, t, heq, _, numbered⟩ := hn.takeRoom.insertion hroom c
    rw [heq]
    exact numbered
  | kept hf => simpa [Reply.opened?] using hn.fill hf
  | ended hf => simpa [Reply.opened?] using hn.vacate hf
  | full | failed | unknown | retired | inserted | removed | counted | storeless | digested =>
    simpa [Reply.opened?] using hn

theorem numbered_after (hn : p.arena.Numbered issued) (actions : List Action)
    (fits : (issued ++ p.opens actions).Nodup ∨ (p.after actions).arena.slots.size ≤ 2 ^ 32) :
    (p.after actions).arena.Numbered (issued ++ p.opens actions) := by
  induction actions generalizing p issued with
  | nil => simpa [opens] using hn
  | cons a rest ih =>
    rw [opens, ← List.append_assoc] at fits ⊢
    have hstep := (perform_step p a).numbered hn <| fits.imp
      (fun distinct => (List.nodup_append.mp distinct).1)
      (fun hle => Nat.le_trans (size_le_after _ rest) hle)
    exact ih hstep fits

/-- What an action opens leads somewhere from then on, and what it retires does no more. -/
theorem Step.here_iff (st : Step p a r q) (hn : p.arena.Numbered issued)
    (running : ∀ c ∈ p.arena.contents, c.phase ≠ .finalized)
    (hn' : q.arena.Numbered (issued ++ r.opened?.toList)) (h : Handle) :
    (∃ c, q.arena.find h = .here c) ↔
      r.opened? = some h ∨ (∃ c, p.arena.find h = .here c) ∧ r.retired? a ≠ some h := by
  cases st with
  | @opened _ begin c custody hb room hc =>
    have hroom : p.arena.takeRoom.free = [] → p.arena.takeRoom.slots.size < 2 ^ 32 := by
      intro hfree
      have hle := hn'.sound.size_le
      rw [Arena.size_insert, if_pos hfree] at hle
      omega
    obtain ⟨i, t, heq, ins, _⟩ := hn.takeRoom.insertion hroom c
    rw [heq]
    simp only [ins.find, Reply.opened?, Reply.retired?]
    by_cases hh : h = i
    · simp [hh]
    · simp [hh, Ne.symm hh]
      rfl
  | @kept i call c r after hf hp live =>
    rw [Reply.retired?_result (running c (Arena.mem_contents_of_find hf)) hp, if_neg live]
    simp only [Arena.find_fill hf]
    by_cases hh : h = i
    · simp [hh, hf, Reply.opened?]
    · simp [hh, Reply.opened?]
  | @ended i call c r after hf hp gone =>
    rw [Reply.retired?_result (running c (Arena.mem_contents_of_find hf)) hp, if_pos gone]
    simp [Arena.find_vacate_eq_here_iff hf, Reply.opened?, and_comm, eq_comm]
  | unknown hf => simp [Reply.retired?_refuse (.inl rfl), Reply.opened?]
  | retired hf => simp [Reply.retired?_refuse (.inr rfl), Reply.opened?]
  | full | failed | inserted | removed | counted | storeless | digested =>
    simp [Reply.opened?, Reply.retired?]

/-- As long as no handle repeats another, it leads somewhere from its opening on until it has
retired what it leads to. -/
theorem here_iff_after (hn : p.arena.Numbered issued)
    (running : ∀ c ∈ p.arena.contents, c.phase ≠ .finalized) (actions : List Action)
    (distinct : (issued ++ p.opens actions).Nodup) (h : Handle) :
    (∃ c, (p.after actions).arena.find h = .here c) ↔
      ((∃ c, p.arena.find h = .here c) ∨ h ∈ p.opens actions) ∧ h ∉ p.retirements actions := by
  induction actions generalizing p issued with
  | nil => simp [opens, retirements]
  | cons a rest ih =>
    rw [opens, ← List.append_assoc] at distinct
    have st := perform_step p a
    have hn' := st.numbered hn (.inl (List.nodup_append.mp distinct).1)
    have hlater := ih hn' (st.running hn.sound.freeInRange running) distinct
    -- What is retired here was opened before, so it is not opened now or later.
    have hold (hr : (p.perform a).1.retired? a = some h) :
        (p.perform a).1.opened? ≠ some h ∧ h ∉ (p.perform a).2.opens rest := by
      obtain ⟨c, hc⟩ := st.here_of_retired hr
      have hm := hn.mem_of_here hc
      rw [List.append_assoc] at distinct
      have hnot := List.disjoint_of_nodup_append distinct hm
      exact ⟨fun ho => hnot (by simp [ho]), fun ho => hnot (List.mem_append_right _ ho)⟩
    rw [after_cons, hlater, st.here_iff hn running hn', opens, retirements, List.mem_append,
      List.mem_append, Option.mem_toList, Option.mem_toList]
    by_cases hr : (p.perform a).1.retired? a = some h
    · simp [hr, hold hr]
    · simp [hr, or_assoc, or_left_comm]

theorem nodup_iff_of_numbered (hn : p.arena.Numbered issued) :
    issued.Nodup ↔ ∀ i, (issued.map Handle.index).count i ≤ 2 ^ 32 := by
  have hseries (i : UInt32) : ∃ n, issued.filter (·.index = i) = Handle.series i n ∧
      (issued.map Handle.index).count i = n := by
    obtain ⟨n, _, hi⟩ := hn.turns i
    refine ⟨_, hi, ?_⟩
    rw [List.count_eq_countP, List.countP_map, List.countP_eq_length_filter]
    exact (congrArg List.length hi).trans (Handle.length_series i _)
  constructor
  · intro distinct i
    obtain ⟨n, hi, hcount⟩ := hseries i
    rw [hcount, ← Handle.series_nodup_iff, ← hi]
    exact distinct.filter _
  · intro few
    refine List.nodup_iff_count_le_one.mpr fun h => ?_
    obtain ⟨n, hi, hcount⟩ := hseries h.index
    have distinct : (Handle.series h.index n).Nodup :=
      Handle.series_nodup_iff.mpr (hcount ▸ few h.index)
    rw [← hi] at distinct
    have hle := List.nodup_iff_count_le_one.mp distinct h
    rwa [List.count_filter (by simp)] at hle

/-- The handles that a run opens are distinct if and only if it has neither more slots than there
are indices, nor more openings in one slot than there are generations. As long as they are, a handle
leads nowhere but to what was opened under it. -/
theorem opens_nodup_iff (service : Service σ) (custody : Custody) (actions : List Action) :
    let start : Pool σ := { service, custody }
    let p := start.after actions
    ((start.opens actions).Nodup ↔
      p.arena.slots.size ≤ 2 ^ 32 ∧
      ∀ i, ((start.opens actions).map Handle.index).count i ≤ 2 ^ 32) ∧
    ((start.opens actions).Nodup → ∀ h, (∃ c, p.arena.find h = .here c) ↔
      h ∈ start.opens actions ∧ h ∉ start.retirements actions) := by
  intro start p
  have fresh : start.arena.Numbered [] := Arena.empty_numbered
  refine ⟨⟨?_, ?_⟩, ?_⟩
  · intro distinct
    have hn : p.arena.Numbered _ := numbered_after fresh actions (.inl distinct)
    exact ⟨hn.sound.size_le, (nodup_iff_of_numbered hn).mp distinct⟩
  · rintro ⟨hsize, few⟩
    have hn : p.arena.Numbered _ := numbered_after fresh actions (.inr hsize)
    exact (nodup_iff_of_numbered hn).mpr few
  · intro distinct h
    have running : ∀ c ∈ start.arena.contents, c.phase ≠ .finalized := by
      simp [start, Arena.contents]
    have hiff := here_iff_after fresh running actions distinct h
    have hnone : start.arena.find h = .unknown := by simp [start, Arena.find]
    simpa [hnone] using hiff

/-- One slot opened and retired over and over. -/
def rounds (n : Nat) : List Action :=
  (List.range n).flatMap fun k => [.openDigest .sha256 0, .call ⟨0, k.toUInt32⟩ .discard]

theorem rounds_succ (n : Nat) :
    rounds (n + 1) = rounds n ++ [.openDigest .sha256 0, .call ⟨0, n.toUInt32⟩ .discard] := by
  simp [rounds, List.range_succ]

/-- A pool for one computation at a time. -/
def single (arena : Arena (Computation Primitive)) : Pool Primitive where
  service := { library := .software, policy := { maxLive := 1 } }
  custody := {}
  arena := arena

/-- The arena after a number of rounds: there is no slot at all before the first. -/
def worn (n : Nat) : Arena (Computation Primitive) :=
  if n = 0 then {} else { slots := #[{ generation := n.toUInt32 }], free := [0] }

/-- The arena while a round's computation is there. -/
def taken (n : Nat) (primitive : Primitive) : Arena (Computation Primitive) where
  slots := #[⟨n.toUInt32, some (.start .sha256 primitive none)⟩]
  live := 1

theorem find_taken (n : Nat) (primitive : Primitive) :
    (taken n primitive).find ⟨0, n.toUInt32⟩ = .here (.start .sha256 primitive none) :=
  Arena.find_eq_here_iff.mpr rfl

theorem open_worn (n : Nat) : ∃ primitive, (single (worn n)).perform (.openDigest .sha256 0) =
    (.opened (.ok ⟨0, n.toUInt32⟩), single (taken n primitive)) := by
  cases n with
  | zero => exact ⟨_, rfl⟩
  | succ n => exact ⟨_, rfl⟩

theorem discard_taken (n : Nat) (primitive : Primitive) :
    (single (taken n primitive)).perform (.call ⟨0, n.toUInt32⟩ .discard) =
      (.result (.status (.ok ())), single (worn (n + 1))) := by
  have hf := find_taken n primitive
  have hgone : (taken n primitive).vacate 0 = worn (n + 1) := by
    rw [Arena.vacate_here hf]
    simp [taken, worn]
  simp only [perform, Pool.call, single, hf]
  rw [hgone]
  rfl

theorem rounds_single (n : Nat) :
    (single {}).after (rounds n) = single (worn n) ∧
    (single {}).opens (rounds n) = Handle.series 0 n ∧
    (single {}).retirements (rounds n) = Handle.series 0 n := by
  induction n with
  | zero => exact ⟨rfl, rfl, rfl⟩
  | succ n ih =>
    obtain ⟨hafter, hopens, hretired⟩ := ih
    obtain ⟨primitive, hopen⟩ := open_worn n
    have hdiscard := discard_taken n primitive
    rw [rounds_succ, after_append, opens_append, retirements_append, hafter, hopens, hretired,
      Handle.series_succ]
    simp [opens, retirements, hopen, hdiscard, Reply.opened?, Reply.retired?]
    rfl

/-- A feed reaches what a round has opened. -/
theorem feed_taken (n : Nat) (primitive : Primitive) (b : UInt8) :
    ((single (taken n primitive)).call ⟨0, n.toUInt32⟩ (.feed [b] 0 1)).1 = .status (.ok ()) := by
  simp only [Pool.call, single, find_taken]
  rfl

/-- A round whose generation was there before opens a handle that has been retired. -/
theorem rounds_repeat {k n : Nat} (hk : k < n) (same : n.toUInt32 = k.toUInt32) :
    let p := (single {}).after (rounds n)
    ⟨0, k.toUInt32⟩ ∈ (single {}).retirements (rounds n) ∧
    (p.perform (.openDigest .sha256 0)).1 = .opened (.ok ⟨0, k.toUInt32⟩) ∧
    ¬((single {}).opens (rounds n ++ [.openDigest .sha256 0])).Nodup ∧
    ∀ b, ((p.perform (.openDigest .sha256 0)).2.call ⟨0, k.toUInt32⟩ (.feed [b] 0 1)).1 =
      .status (.ok ()) := by
  intro p
  obtain ⟨hafter, hopens, hretired⟩ := rounds_single n
  obtain ⟨primitive, hopen⟩ := open_worn n
  have hp : p = single (worn n) := hafter
  have hm : ⟨0, k.toUInt32⟩ ∈ Handle.series 0 n :=
    List.mem_map.mpr ⟨k, List.mem_range.mpr hk, rfl⟩
  rw [← same] at hm ⊢
  refine ⟨hretired ▸ hm, by rw [hp, hopen], ?_, ?_⟩
  · intro distinct
    rw [opens_append, hafter, hopens] at distinct
    exact List.disjoint_of_nodup_append distinct hm (by simp [opens, hopen, Reply.opened?])
  · intro b
    rw [hp, hopen]
    exact feed_taken n primitive b

/-- Generations come round: after as many openings as there are, a slot gives out its first handle
again. What was opened under it then was retired long ago, and it leads to another one now. -/
theorem handle_comes_round :
    let start := single {}
    let p := start.after (rounds (2 ^ 32))
    let q := (p.perform (.openDigest .sha256 0)).2
    start.service.policy.validate = .ok () ∧
    ⟨0, 0⟩ ∈ start.retirements (rounds (2 ^ 32)) ∧
    (p.perform (.openDigest .sha256 0)).1 = .opened (.ok ⟨0, 0⟩) ∧
    ¬(start.opens (rounds (2 ^ 32) ++ [.openDigest .sha256 0])).Nodup ∧
    (q.call ⟨0, 0⟩ (.feed [0] 0 1)).1 = .status (.ok ()) := by
  obtain ⟨hretired, hopen, hrepeat, hfeed⟩ := rounds_repeat (k := 0) (Nat.two_pow_pos 32) rfl
  exact ⟨rfl, hretired, hopen, hrepeat, hfeed 0⟩

end Pool

end StreamDigest
