import StreamDigest.Library.Software
import StreamDigest.Proofs.Pool

namespace StreamDigest

namespace Pool

variable {σ : Type} {p q : Pool σ} {a : Action} {r : Reply} {opened closed : Nat}

/-- What a pool's own counts come to, after `opened` computations were begun in it and `closed` of
them were retired. -/
structure Booked (p : Pool σ) (opened closed : Nat) : Prop where
  sound : p.arena.Sound
  live_eq : p.live = p.arena.occupied
  balance : p.live + closed = opened
  running : ∀ c ∈ p.arena.contents, c.phase ≠ .finalized
  size_le : p.arena.slots.size ≤ p.service.policy.maxLive.toNat

/-- There is an index for a new slot as long as there is room. -/
theorem Booked.insertion (h : Booked p opened closed)
    (bound : p.service.policy.maxLive.toNat ≤ 2 ^ 32)
    (room : p.live < p.service.policy.maxLive.toNat) (c : Computation σ) :
    ∃ i t, p.arena.takeRoom.insert c = (i, none, t) ∧ Arena.Insertion p.arena.takeRoom c i t := by
  have sound : p.arena.takeRoom.Sound := ⟨h.sound.size_le, h.sound.free_nodup, h.sound.mem_free⟩
  refine sound.insertion ?_ c
  intro hf
  have hfull := Arena.occupied_of_full h.sound hf
  have hlive := h.live_eq
  change p.arena.slots.size < 2 ^ 32
  omega

theorem Booked.enter {c : Computation σ} (h : Booked p opened closed)
    (bound : p.service.policy.maxLive.toNat ≤ 2 ^ 32)
    (room : p.live < p.service.policy.maxLive.toNat) (live : c.phase ≠ .finalized)
    (custody : Custody) :
    Booked { p with custody, arena := (p.arena.takeRoom.insert c).2.2 } (opened + 1) closed := by
  obtain ⟨i, t, heq, ins⟩ := h.insertion bound room c
  have range : p.arena.takeRoom.FreeInRange := h.sound.freeInRange
  obtain ⟨rest, hb, ha⟩ := Arena.insert_contents range c
  rw [heq] at hb ha ⊢
  have hlive : t.live = p.live + 1 := ins.live
  have hocc : t.occupied = p.arena.occupied + 1 := by
    rw [← Arena.length_contents, ← Arena.length_contents, ha.length_eq]
    exact congrArg (· + 1) hb.length_eq.symm
  refine ⟨ins.sound ⟨h.sound.size_le, h.sound.free_nodup, h.sound.mem_free⟩, ?_, ?_, ?_, ?_⟩
  · exact hlive.trans (by rw [hocc, h.live_eq])
  · have := h.balance
    change t.live + closed = opened + 1
    omega
  · intro d hd
    rcases List.mem_cons.mp (ha.mem_iff.mp hd) with rfl | hm
    · exact live
    · exact h.running d (hb.mem_iff.mpr hm)
  · cases ins with
    | reuse hf hs hv => simpa using h.size_le
    | extend hf hlt =>
      have hfull := Arena.occupied_of_full h.sound hf
      have := h.live_eq
      simp only [Arena.slots_takeRoom, Array.size_push]
      omega

theorem Booked.keep {i : Handle} {c d : Computation σ} (h : Booked p opened closed)
    (hf : p.arena.find i = .here c) (live : d.phase ≠ .finalized) (custody : Custody) :
    Booked { p with custody, arena := p.arena.fill i.index d } opened closed := by
  obtain ⟨rest, hb, ha⟩ := Arena.fill_contents (b := d) hf
  have hocc : (p.arena.fill i.index d).occupied = p.arena.occupied := by
    rw [← Arena.length_contents, ← Arena.length_contents, ha.length_eq, hb.length_eq]
    rfl
  refine ⟨Arena.sound_fill h.sound hf, h.live_eq.trans hocc.symm, h.balance, ?_, ?_⟩
  · intro e he
    rcases List.mem_cons.mp (ha.mem_iff.mp he) with rfl | hm
    · exact live
    · exact h.running e (hb.mem_iff.mpr (List.mem_cons_of_mem _ hm))
  · simpa [Arena.fill] using h.size_le

theorem Booked.leave {i : Handle} {c : Computation σ} (h : Booked p opened closed)
    (hf : p.arena.find i = .here c) (custody : Custody) :
    Booked { p with custody, arena := p.arena.vacate i.index } opened (closed + 1) := by
  have hperm := Arena.vacate_contents hf
  have hocc : p.arena.occupied = (p.arena.vacate i.index).occupied + 1 := by
    rw [← Arena.length_contents, ← Arena.length_contents, hperm.length_eq]
    rfl
  have hlive : (p.arena.vacate i.index).live = p.live - 1 := by
    rw [Arena.vacate_here hf]
    rfl
  have hb := h.balance
  have hl := h.live_eq
  refine ⟨Arena.sound_vacate h.sound hf, ?_, ?_, ?_, ?_⟩
  · change (p.arena.vacate i.index).live = (p.arena.vacate i.index).occupied
    omega
  · change (p.arena.vacate i.index).live + (closed + 1) = opened
    omega
  · intro d hd
    exact h.running d (hperm.mem_iff.mpr (List.mem_cons_of_mem _ hd))
  · simpa [Arena.vacate_here hf] using h.size_le

theorem Booked.step (h : Booked p opened closed)
    (bound : p.service.policy.maxLive.toNat ≤ 2 ^ 32) (st : Step p a r q) :
    Booked q (opened + r.opened?.toList.length) (closed + (r.retired? a).toList.length) := by
  have same (custody : Custody) : Booked { p with custody } opened closed :=
    ⟨h.sound, h.live_eq, h.balance, h.running, h.size_le⟩
  cases st with
  | full hb hfull => exact h
  | failed hb room he => exact same _
  | opened hb room hc =>
    obtain ⟨algorithm, p, b, rfl⟩ := begin_start hb hc
    exact h.enter bound room (Computation.phase_live rfl) _
  | unknown hf =>
    rw [Reply.retired?_refuse (.inl rfl)]
    exact same _
  | retired hf =>
    rw [Reply.retired?_refuse (.inr rfl)]
    exact same _
  | @kept i call c r after hf hp live =>
    rw [Reply.retired?_result (h.running c (Arena.mem_contents_of_find hf)) hp, if_neg live]
    exact h.keep hf live _
  | @ended i call c r after hf hp gone =>
    rw [Reply.retired?_result (h.running c (Arena.mem_contents_of_find hf)) hp, if_pos gone]
    exact h.leave hf _
  | inserted hi => exact same _
  | removed hr => exact same _
  | counted ho => exact same _
  | storeless hs hd => exact h
  | digested => exact h

theorem booked_after (h : Booked p opened closed)
    (bound : p.service.policy.maxLive.toNat ≤ 2 ^ 32) (actions : List Action) :
    Booked (p.after actions) (opened + (p.opens actions).length)
      (closed + (p.retirements actions).length) := by
  induction actions generalizing p opened closed with
  | nil => exact h
  | cons a rest ih =>
    have hs := h.step bound (perform_step p a)
    have hb : (p.perform a).2.service.policy.maxLive.toNat ≤ 2 ^ 32 := by
      rw [service_perform]
      exact bound
    have hr := ih hs hb
    rw [after_cons, opens, retirements, List.length_append, List.length_append,
      ← Nat.add_assoc, ← Nat.add_assoc]
    exact hr

theorem fresh_booked (service : Service σ) (custody : Custody) :
    Booked { service, custody } 0 0 where
  sound := Arena.empty_sound
  live_eq := rfl
  balance := rfl
  running := by simp [Arena.contents]
  size_le := Nat.zero_le _

theorem Step.opened_iff {begin : Custody → Except Fault (Computation σ) × Custody}
    (st : Step p a r q) (hb : a.begin? p.service = some begin) :
    (∃ h, r = .opened (.ok h)) ↔
      p.live < p.service.policy.maxLive.toNat ∧ ∃ c, (begin p.custody).1 = .ok c := by
  cases st with
  | full hb' hfull =>
    have hn : ¬p.live < p.service.policy.maxLive.toNat := by omega
    simp [hn]
  | failed hb' room he =>
    cases hb.symm.trans hb'
    simp [he]
  | opened hb' room hc =>
    cases hb.symm.trans hb'
    simp [hc, room]
  | storeless hs hd => cases (begin?_of_asksStore hs).symm.trans hb
  | unknown | retired | kept | ended | inserted | removed | counted | digested => cases hb

theorem Step.arena_of_refused {e : Fault} (st : Step p a (.opened (.error e)) q) :
    q.arena = p.arena := by
  cases st with
  | full hb hfull => rfl
  | failed hb room he => rfl

/-- A pool's counts, its free list and its slots agree in every state that it comes to: room is
taken up and given back exactly, no count goes below zero and no index out of bounds. -/
theorem pool_bookkeeping (service : Service σ) (bound : service.policy.maxLive.toNat ≤ 2 ^ 32)
    (custody : Custody) (actions : List Action) :
    let start : Pool σ := { service, custody }
    let p := start.after actions
    p.live = p.arena.occupied ∧
    p.live + (start.retirements actions).length = (start.opens actions).length ∧
    (p.arena.free.map UInt32.toNat).Nodup ∧
    (∀ n, n ∈ p.arena.free.map UInt32.toNat ↔ p.arena.Vacant n) ∧
    (∀ c ∈ p.arena.contents, c.phase ≠ .finalized) ∧
    p.live ≤ service.policy.maxLive.toNat ∧
    p.arena.slots.size ≤ service.policy.maxLive.toNat ∧
    (∀ a begin, a.begin? service = some begin →
      ((∃ h, (p.perform a).1 = .opened (.ok h)) ↔
        p.live < service.policy.maxLive.toNat ∧ ∃ c, (begin p.custody).1 = .ok c) ∧
      ∀ e, (p.perform a).1 = .opened (.error e) → (p.perform a).2.arena = p.arena) ∧
    (∀ h c, p.arena.find h = .here c → 0 < p.live ∧ h.index.toNat < p.arena.slots.size) ∧
    p.arena.reserve.1.toNat < p.arena.reserve.2.slots.size := by
  intro start p
  have hs : p.service = service := service_after start actions
  have h : Booked p _ _ := booked_after (fresh_booked service custody) bound actions
  have hsize := h.size_le
  rw [hs] at hsize
  have hocc : p.arena.occupied ≤ p.arena.slots.size := by
    rw [← Array.length_toList]
    exact List.countP_le_length
  have hlive := h.live_eq
  refine ⟨hlive, by simpa using h.balance, h.sound.free_nodup, h.sound.mem_free, h.running,
    by omega, hsize, ?_, ?_, Arena.reserve_lt h.sound.freeInRange⟩
  · intro a begin hb
    have st := perform_step p a
    have ho := st.opened_iff (by rw [hs]; exact hb)
    rw [hs] at ho
    refine ⟨ho, ?_⟩
    intro e he
    rw [he] at st
    exact st.arena_of_refused
  · intro i c hf
    have hpos : 0 < p.arena.occupied := by
      rw [← Arena.length_contents]
      exact List.length_pos_of_mem (Arena.mem_contents_of_find hf)
    exact ⟨by omega, (Array.getElem?_eq_some_iff.mp (Arena.find_here hf)).1⟩

/-- One slot of which a run makes use twice, with openings that fail between. -/
theorem single_slot_bookkeeping :
    let service : Service Primitive := { library := .software, policy := { maxLive := 1 } }
    let start : Pool Primitive := { service, custody := {} }
    let actions : List Action := [.openMac .hmacSha256 1 0, .openDigest .sha1 0, .openDigest .sha256 0,
      .call ⟨0, 0⟩ .discard, .openDigest .sha512 0, .call ⟨0, 0⟩ .discard]
    let p := start.after actions
    service.policy.maxLive.toNat ≤ 2 ^ 32 ∧ p.live = p.arena.occupied ∧
      p.live + (start.retirements actions).length = (start.opens actions).length ∧
      p.live ≤ service.policy.maxLive.toNat := by
  intro service start actions p
  have bound : service.policy.maxLive.toNat ≤ 2 ^ 32 := by decide
  obtain ⟨hlive, hbalance, _, _, _, hle, _⟩ := pool_bookkeeping service bound {} actions
  exact ⟨bound, hlive, hbalance, hle⟩

end Pool

end StreamDigest
