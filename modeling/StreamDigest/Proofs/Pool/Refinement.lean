import StreamDigest.Library.Software
import StreamDigest.Proofs.Pool

namespace StreamDigest

namespace Arena

variable {α : Type} {s : Arena α} {a : α} {issued : List Handle} {h : Handle}

/-- A handle that leads anywhere has been issued. Each slot has had at most as many elements as
there were handles, so no generation has come round. -/
structure Tracks (s : Arena α) (issued : List Handle) : Prop where
  sound : s.Sound
  size_le : s.slots.size ≤ issued.length
  generation_le : ∀ (n : Nat) (slot : Slot α), s.slots[n]? = some slot →
    slot.generation.toNat + slot.content.toList.length ≤ issued.length
  issued : ∀ h, s.find h ≠ .unknown → h ∈ issued

theorem empty_tracks : ({} : Arena α).Tracks [] where
  sound := empty_sound
  size_le := by simp
  generation_le := by simp
  issued := by simp [find]

theorem Tracks.takeRoom (ht : s.Tracks issued) : s.takeRoom.Tracks issued :=
  ⟨⟨ht.sound.size_le, ht.sound.free_nodup, ht.sound.mem_free⟩, ht.size_le, ht.generation_le,
    ht.issued⟩

theorem Tracks.insertion (ht : s.Tracks issued) (few : issued.length < 2 ^ 32) (a : α) :
    ∃ h t, s.insert a = (h, none, t) ∧ Insertion s a h t ∧ t.Tracks (issued ++ [h]) := by
  have hsize := ht.size_le
  obtain ⟨h, t, heq, ins⟩ := ht.sound.insertion (fun _ => by omega) a
  refine ⟨h, t, heq, ins, ins.sound ht.sound, ?_, ?_, ?_⟩
  · have hle : t.slots.size ≤ s.slots.size + 1 := by
      cases ins <;> simp
    simp only [List.length_append, List.length_singleton]
    omega
  · intro n slot hs
    rw [ins.getElem?] at hs
    simp only [List.length_append, List.length_singleton]
    split at hs
    · cases hs
      rcases ins.before with hb | ⟨_, hz⟩
      · have := ht.generation_le _ _ hb
        simp only [Option.toList_none, List.length_nil] at this
        simp only [Option.toList_some, List.length_singleton]
        omega
      · simp [hz]
    · have := ht.generation_le n slot hs
      omega
  · intro h' hf
    rw [ins.find] at hf
    split at hf
    · next he => simp [he]
    · exact List.mem_append_left _ (ht.issued h' hf)

/-- To write to a slot that a handle leads to makes no other handle lead anywhere. -/
theorem Tracks.issued_of_write {t : Arena α} {found : Finding α} (ht : s.Tracks issued)
    (hf : s.find h = .here a) (hfind : ∀ h', t.find h' = if h' = h then found else s.find h')
    {h' : Handle} (hne : t.find h' ≠ .unknown) : h' ∈ issued := by
  rw [hfind] at hne
  split at hne
  · next he =>
    subst he
    exact ht.issued h' (by simp [hf])
  · exact ht.issued h' hne

theorem Tracks.fill {b : α} (ht : s.Tracks issued) (hf : s.find h = .here a) :
    (s.fill h.index b).Tracks issued := by
  refine ⟨sound_fill ht.sound hf, by simpa [Arena.fill] using ht.size_le, ?_, ?_⟩
  · intro n slot hs
    simp only [Arena.fill, Array.getElem?_modify] at hs
    split at hs
    · next hn =>
      subst hn
      rw [find_here hf] at hs
      cases hs
      exact ht.generation_le _ ⟨h.generation, some a⟩ (find_here hf)
    · exact ht.generation_le n slot hs
  · exact fun h' => ht.issued_of_write hf (find_fill hf)

theorem Tracks.generation_lt (ht : s.Tracks issued) (few : issued.length < 2 ^ 32)
    (hf : s.find h = .here a) : h.generation.toNat + 1 < 2 ^ 32 := by
  have hle := ht.generation_le _ _ (find_here hf)
  simp only [Option.toList_some, List.length_singleton] at hle
  omega

theorem Tracks.vacate (ht : s.Tracks issued) (few : issued.length < 2 ^ 32)
    (hf : s.find h = .here a) : (s.vacate h.index).Tracks issued := by
  have hlt := ht.generation_lt few hf
  refine ⟨sound_vacate ht.sound hf, by simpa [vacate_here hf] using ht.size_le, ?_, ?_⟩
  · intro n slot hs
    rw [getElem?_vacate hf] at hs
    split at hs
    · cases hs
      have hle := ht.generation_le _ _ (find_here hf)
      simp only [Option.toList_some, List.length_singleton] at hle
      have hn : (h.generation + 1).toNat = h.generation.toNat + 1 := by
        rw [UInt32.toNat_add]
        exact Nat.mod_eq_of_lt hlt
      simp only [Option.toList_none, List.length_nil]
      omega
    · exact ht.generation_le n slot hs
  · exact fun h' => ht.issued_of_write hf (find_vacate hf hlt)

end Arena

namespace Pool

variable {σ : Type} {p q : Pool σ} {a : Action} {r : Reply} {issued : List Handle} {h : Handle}
  {c : Computation σ}

structure Tracked (p : Pool σ) (issued : List Handle) : Prop where
  arena : p.arena.Tracks issued
  running : ∀ c ∈ p.arena.contents, c.phase ≠ .finalized

/-- What an opening comes to: the handle led nowhere before, and all others lead where they did. -/
theorem Tracked.insertion (ht : Tracked p issued) (few : issued.length < 2 ^ 32)
    (c : Computation σ) : ∃ h t, p.arena.takeRoom.insert c = (h, none, t) ∧
      p.arena.find h = .unknown ∧ (∀ h', t.find h' = if h' = h then .here c else p.arena.find h') ∧
      t.Tracks (issued ++ [h]) := by
  obtain ⟨h, t, heq, ins, tracks⟩ := ht.arena.takeRoom.insertion few c
  exact ⟨h, t, heq, ins.find_before, ins.find, tracks⟩

/-- There are few handles yet if there are few with those that come later. -/
theorem few_of_append {later : List Handle} (few : (issued ++ later).length < 2 ^ 32) :
    issued.length < 2 ^ 32 :=
  (List.prefix_append issued later).length_le.trans_lt few

theorem Tracked.step (ht : Tracked p issued) (st : Step p a r q)
    (few : (issued ++ r.opened?.toList).length < 2 ^ 32) :
    Tracked q (issued ++ r.opened?.toList) := by
  have hlt := few_of_append few
  refine ⟨?_, st.running ht.arena.sound.freeInRange ht.running⟩
  cases st with
  | @opened _ _ c _ hb room hc =>
    obtain ⟨h, t, heq, _, _, tracks⟩ := ht.insertion hlt c
    rw [heq]
    exact tracks
  | kept hf => simpa [Reply.opened?] using ht.arena.fill hf
  | ended hf => simpa [Reply.opened?] using ht.arena.vacate hlt hf
  | full | failed | unknown | retired | inserted | removed | counted | storeless | digested =>
    simpa [Reply.opened?] using ht.arena

theorem Tracked.after (ht : Tracked p issued) (actions : List Action)
    (few : (issued ++ p.opens actions).length < 2 ^ 32) :
    Tracked (p.after actions) (issued ++ p.opens actions) := by
  induction actions generalizing p issued with
  | nil => simpa [opens] using ht
  | cons a rest ih =>
    rw [opens, ← List.append_assoc] at few ⊢
    exact ih (ht.step (perform_step p a) (few_of_append few)) few

/-- A handle that has led to a computation never leads to another. -/
theorem Tracked.retired_step (ht : Tracked p issued) (few : issued.length < 2 ^ 32)
    (st : Step p a r q) (hr : p.arena.find h = .retired) : q.arena.find h = .retired := by
  cases st with
  | @opened _ _ c _ hb room hc =>
    obtain ⟨h', t, heq, hun, hfind, _⟩ := ht.insertion few c
    have hne : h ≠ h' := by
      rintro rfl
      cases hr.symm.trans hun
    rw [heq]
    exact (hfind h).trans (by rw [if_neg hne, hr])
  | @kept i call c r after hf hp live =>
    have hne : h ≠ i := by
      rintro rfl
      cases hr.symm.trans hf
    exact (Arena.find_fill hf h).trans (by rw [if_neg hne, hr])
  | @ended i call c r after hf hp gone =>
    refine (Arena.find_vacate hf (ht.arena.generation_lt few hf) h).trans ?_
    rw [hr, ite_self]
  | full | failed | unknown | retired | inserted | removed | counted | storeless | digested =>
    exact hr

/-- The calls of a run that go through a handle. -/
def callsTo (h : Handle) (actions : List Action) : List Call :=
  actions.filterMap fun
    | .call i call => if i = h then some call else none
    | _ => none

theorem callsTo_cons (h : Handle) (a : Action) (rest : List Action) :
    callsTo h (a :: rest) = callsTo h [a] ++ callsTo h rest := by
  simp [callsTo, List.filterMap_cons]
  split <;> simp_all

/-- A computation is retired by a call of its own, or only its own calls have changed it. -/
theorem Tracked.here_step (ht : Tracked p issued) (few : issued.length < 2 ^ 32)
    (st : Step p a r q) (hc : p.arena.find h = .here c) :
    (r.retired? a = some h ∧ q.arena.find h = .retired) ∨
    (r.retired? a ≠ some h ∧
      q.arena.find h = .here (c.after p.service.library (callsTo h [a]))) := by
  have elsewhere (hn : callsTo h [a] = []) (hr : r.retired? a ≠ some h)
      (hf : q.arena.find h = p.arena.find h) :
      r.retired? a ≠ some h ∧
        q.arena.find h = .here (c.after p.service.library (callsTo h [a])) := by
    rw [hn, hf]
    exact ⟨hr, hc⟩
  cases st with
  | full hb | failed hb =>
    refine .inr (elsewhere ?_ (by simp [Reply.retired?]) rfl)
    cases a <;> first | rfl | cases hb
  | @opened _ begin d _ hb room hd =>
    obtain ⟨h', t, heq, hun, hfind, _⟩ := ht.insertion few d
    have hne : h ≠ h' := by
      rintro rfl
      cases hc.symm.trans hun
    refine .inr (elsewhere ?_ (by simp [Reply.retired?]) ?_)
    · cases a <;> first | rfl | cases hb
    · rw [heq]
      exact (hfind h).trans (if_neg hne)
  | @unknown i call hf =>
    have hne : i ≠ h := by
      rintro rfl
      cases hc.symm.trans hf
    exact .inr (elsewhere (by simp [callsTo, hne]) (by simp [Reply.retired?_refuse (.inl rfl)]) rfl)
  | @retired i call hf =>
    have hne : i ≠ h := by
      rintro rfl
      cases hc.symm.trans hf
    exact .inr (elsewhere (by simp [callsTo, hne]) (by simp [Reply.retired?_refuse (.inr rfl)]) rfl)
  | @kept i call d r after hf hp live =>
    have hr : (Reply.result r).retired? (.call i call) ≠ some h := by
      simp [Reply.retired?_result (ht.running d (Arena.mem_contents_of_find hf)) hp, live]
    have hfind := Arena.find_fill (b := after) hf h
    by_cases hh : h = i
    · subst hh
      cases hc.symm.trans hf
      refine .inr ⟨hr, hfind.trans ?_⟩
      simp [callsTo, hp]
    · exact .inr (elsewhere (by simp [callsTo, Ne.symm hh]) hr (hfind.trans (if_neg hh)))
  | @ended i call d r after hf hp gone =>
    have hr := Reply.retired?_result (ht.running d (Arena.mem_contents_of_find hf)) hp i
    rw [if_pos gone] at hr
    have hfind := Arena.find_vacate hf (ht.arena.generation_lt few hf) h
    by_cases hh : h = i
    · subst hh
      exact .inl ⟨hr, hfind.trans (if_pos rfl)⟩
    · have hother : (Reply.result r).retired? (.call i call) ≠ some h := by
        simp [hr, Ne.symm hh]
      exact .inr (elsewhere (by simp [callsTo, Ne.symm hh]) hother (hfind.trans (if_neg hh)))
  | inserted | removed | counted | digested =>
    exact .inr (elsewhere rfl (by simp [Reply.retired?]) rfl)
  | storeless hs =>
    refine .inr (elsewhere ?_ (by simp [Reply.retired?]) rfl)
    cases a <;> first | rfl | cases hs

/-- What a handle leads to that was opened just now. -/
theorem Tracked.opened_step (ht : Tracked p issued) (few : issued.length < 2 ^ 32)
    (st : Step p a (.opened (.ok h)) q) :
    ∃ begin c k, a.begin? p.service = some begin ∧ begin p.custody = (.ok c, k) ∧
      q.arena.find h = .here c := by
  generalize hr : Reply.opened (.ok h) = r at st
  cases st with
  | @opened _ begin c k hb room hc =>
    obtain ⟨h', t, heq, _, hfind, _⟩ := ht.insertion few c
    rw [heq] at hr ⊢
    cases hr
    exact ⟨begin, c, k, hb, hc, (hfind h').trans (if_pos rfl)⟩
  | full | failed | unknown | retired | kept | ended | inserted | removed | counted | storeless
  | digested => cases hr

theorem Tracked.retired_after (ht : Tracked p issued) (actions : List Action)
    (few : (issued ++ p.opens actions).length < 2 ^ 32) (hr : p.arena.find h = .retired) :
    (p.after actions).arena.find h = .retired := by
  induction actions generalizing p issued with
  | nil => exact hr
  | cons a rest ih =>
    rw [opens, ← List.append_assoc] at few
    have hlt := few_of_append few
    have st := perform_step p a
    exact ih (ht.step st hlt) few (ht.retired_step (few_of_append hlt) st hr)

theorem Tracked.here_after (ht : Tracked p issued) (actions : List Action)
    (few : (issued ++ p.opens actions).length < 2 ^ 32) (hc : p.arena.find h = .here c)
    (hn : h ∉ p.retirements actions) :
    (p.after actions).arena.find h = .here (c.after p.service.library (callsTo h actions)) := by
  induction actions generalizing p issued c with
  | nil => exact hc
  | cons a rest ih =>
    rw [opens, ← List.append_assoc] at few
    have hlt := few_of_append few
    have st := perform_step p a
    rw [retirements, List.mem_append, not_or] at hn
    have hlt' := few_of_append hlt
    rcases ht.here_step hlt' st hc with ⟨hr, _⟩ | ⟨_, hf⟩
    · exact absurd (by simp [hr]) hn.1
    · rw [after_cons, ih (ht.step st hlt) few hf hn.2, st.service, callsTo_cons h a rest,
        Computation.after_append]

theorem Tracked.retired_of_mem (ht : Tracked p issued) (actions : List Action)
    (few : (issued ++ p.opens actions).length < 2 ^ 32) (hm : h ∈ p.retirements actions) :
    (p.after actions).arena.find h = .retired := by
  induction actions generalizing p issued with
  | nil => cases hm
  | cons a rest ih =>
    rw [opens, ← List.append_assoc] at few
    have hlt := few_of_append few
    have hlt' := few_of_append hlt
    have st := perform_step p a
    rcases List.mem_append.mp hm with hr | hm
    · rw [Option.mem_toList] at hr
      obtain ⟨c, hc⟩ := st.here_of_retired hr
      rcases ht.here_step hlt' st hc with ⟨_, hf⟩ | ⟨hne, _⟩
      · exact (ht.step st hlt).retired_after rest few hf
      · exact absurd hr hne
    · exact ih (ht.step st hlt) few hm

/-- Whether an action brings a key in or takes one away. -/
def Action.managesKeys : Action → Bool
  | .insertKey .. | .removeKey _ => true
  | .openDigest .. | .openMac .. | .call .. | .outstanding | .digest .. => false

theorem kept_begin {s : Service σ} {begin : Custody → Except Fault (Computation σ) × Custody}
    (hb : a.begin? s = some begin) (k : Custody) : k.Kept (begin k).2 := by
  cases a with
  | openDigest a n =>
    cases hb
    exact .refl k
  | openMac a key n =>
    cases hb
    exact (s.on n).kept_beginMacFromHandle a key k
  | call | insertKey | removeKey | outstanding | digest => cases hb

theorem Step.kept_custody (st : Step p a r q) (hn : a.managesKeys = false) :
    p.custody.Kept q.custody := by
  cases st with
  | full | unknown | retired | storeless | digested => exact .refl _
  | failed hb room he =>
    have hk := kept_begin hb p.custody
    rw [he] at hk
    exact hk
  | opened hb room hc =>
    have hk := kept_begin hb p.custody
    rw [hc] at hk
    exact hk.trans (Custody.kept_settle _ _ _)
  | kept | ended => exact Custody.kept_settle _ _ _
  | inserted | removed => cases hn
  | counted ho => exact Custody.kept_outstanding ho

theorem alike_perform {f : Key → Key} (h : p.custody.Alike q.custody f)
    (hm : a.managesKeys = true) :
    ∃ f', (p.perform a).2.custody.Alike (q.perform a).2.custody f' := by
  cases a with
  | insertKey bytes hardware =>
    simp only [perform]
    cases hp : p.custody.insert? bytes hardware with
    | some r =>
      obtain ⟨l, f', hq, h'⟩ := h.insert hp
      exact ⟨f', by rw [hq]; exact h'⟩
    | none => exact ⟨f, by rw [h.insert_none hp]; exact h⟩
  | removeKey key =>
    simp only [perform]
    cases hp : p.custody.remove? key with
    | some r =>
      obtain ⟨l, hq, h'⟩ := h.remove hp
      exact ⟨f, by rw [hq]; exact h'⟩
    | none => exact ⟨f, by rw [h.remove_none hp]; exact h⟩
  | openDigest | openMac | call | outstanding | digest => cases hm

/-- Nothing but the actions on keys makes a difference to the stored keys. -/
theorem alike_after {f : Key → Key} (h : p.custody.Alike q.custody f) (actions : List Action) :
    ∃ f', (p.after actions).custody.Alike
      (q.after (actions.filter Action.managesKeys)).custody f' := by
  induction actions generalizing p q f with
  | nil => exact ⟨f, h⟩
  | cons a rest ih =>
    cases hm : a.managesKeys with
    | true =>
      obtain ⟨f', h'⟩ := alike_perform h hm
      rw [List.filter_cons_of_pos hm]
      exact ih h'
    | false =>
      rw [List.filter_cons_of_neg (by simp [hm])]
      exact ih (h.kept ((perform_step p a).kept_custody hm) (.refl _))

/-- What a computation in a pool is and does, it would be and do on its own. -/
theorem begin_alike {s : Service σ} {f : Key → Key} {k l k' : Custody}
    {begin : Custody → Except Fault (Computation σ) × Custody} (hb : a.begin? s = some begin)
    (h : k.Alike l f) (hc : begin k = (.ok c, k')) :
    ∃ d b, (begin l).1 = .ok d ∧ c = d.rebind b := by
  cases a with
  | openDigest a n =>
    cases hb
    have hd : (s.on n).beginDigest a = .ok c := (Prod.mk.inj hc).1
    obtain ⟨_, _, primitive, _, rfl⟩ := Service.beginDigest_eq_ok_iff.mp hd
    exact ⟨_, none, hd, rfl⟩
  | openMac a key n =>
    cases hb
    exact Service.beginMacFromHandle_alike h hc
  | call | insertKey | removeKey | outstanding | digest => cases hb

/-- A call through a word refines the same call on a computation that stands alone: the one that
the service begins for the opening in question when nothing but its store's keys has changed, and
that has seen the earlier calls through that handle and nothing else. A handle whose computation
was retired says so, and all other words are unknown. -/
theorem call_refines_alone (service : Service σ) (custody : Custody) (grounded : custody.Grounded)
    (actions : List Action)
    (few : (({ service, custody } : Pool σ).opens actions).length < 2 ^ 32)
    (w : UInt64) (call : Call) :
    let start : Pool σ := { service, custody }
    let p := start.after actions
    (∀ earlier a later h, actions = earlier ++ a :: later →
      ((start.after earlier).perform a).1 = .opened (.ok h) → w = h.toWord →
      h ∉ start.retirements actions →
      ∃ begin c, a.begin? service = some begin ∧
        (begin (start.after (earlier.filter Action.managesKeys)).custody).1 = .ok c ∧
        (p.call (.ofWord w) call).1 =
          (((c.after service.library (callsTo h later)).perform call).run service.library).1) ∧
    (∀ h ∈ start.retirements actions, w = h.toWord →
      p.call (.ofWord w) call = (call.refuse (.retired call.operation), p)) ∧
    ((∀ h ∈ start.opens actions, w ≠ h.toWord) →
      p.call (.ofWord w) call = (call.refuse .invalidHandle, p)) := by
  intro start p
  have fresh : Tracked start [] := ⟨Arena.empty_tracks, by simp [start, Arena.contents]⟩
  refine ⟨?_, ?_, ?_⟩
  · rintro earlier a later h rfl hopen rfl hlive
    rw [Handle.ofWord_toWord]
    have hservice : (start.after earlier).service = service := service_after start earlier
    have few' := few
    change (start.opens _).length < 2 ^ 32 at few'
    rw [opens_append, opens, hopen, ← List.append_assoc] at few'
    have hlt : (start.opens earlier ++ [h]).length < 2 ^ 32 := by
      rw [List.length_append] at few'
      exact Nat.lt_of_le_of_lt (Nat.le_add_right _ _) few'
    have hlt' : (start.opens earlier).length < 2 ^ 32 := by
      rw [List.length_append] at hlt
      omega
    have before : Tracked (start.after earlier) (start.opens earlier) := fresh.after earlier hlt'
    have st := perform_step (start.after earlier) a
    rw [hopen] at st
    obtain ⟨begin, c, k, hb, hc, hf⟩ := before.opened_step hlt' st
    have hlater : h ∉ ((start.after earlier).perform a).2.retirements later := by
      intro hm
      apply hlive
      rw [retirements_append, retirements]
      exact List.mem_append_right _ (List.mem_append_right _ hm)
    have hfind := (before.step st hlt).here_after later few' hf hlater
    obtain ⟨f, halike⟩ := alike_after (p := start) (q := start) grounded.alike earlier
    obtain ⟨d, b, hd, rfl⟩ := begin_alike hb halike hc
    refine ⟨begin, d, by rw [← hservice]; exact hb, hd, ?_⟩
    have hp : p.arena.find h = .here ((d.after service.library (callsTo h later)).rebind b) := by
      rw [← Computation.after_rebind, ← hservice, ← st.service, ← hfind]
      simp only [p, after_append, after_cons]
    have hlib : p.service.library = service.library := by
      rw [show p.service = service from service_after start _]
    unfold Pool.call
    rw [hp]
    simp only [hlib, Computation.perform_rebind]
  · rintro h hm rfl
    rw [Handle.ofWord_toWord]
    have hf := fresh.retired_of_mem actions few hm
    unfold Pool.call
    rw [hf]
  · intro hn
    have hf : p.arena.find (.ofWord w) = .unknown := by
      by_contra hne
      have hm := (fresh.after actions few).arena.issued _ hne
      exact hn _ hm (Handle.toWord_ofWord w).symm
    unfold Pool.call
    rw [hf]

/-- A MAC and a digest side by side, of which the digest is given up. -/
theorem mac_refines_alone_beside_digest :
    let service : Service Primitive := { library := .software, policy := {} }
    let start : Pool Primitive := { service, custody := {} }
    let feed : Call := .feed [1, 2, 3] 0 3
    let actions : List Action := [.insertKey [7, 7] false, .openMac .hmacSha256 1 0, .openDigest .sha1 0,
      .call ⟨0, 0⟩ feed, .call ⟨1, 0⟩ .discard]
    let p := start.after actions
    (start.opens actions).length < 2 ^ 32 ∧
    (∃ c, (service.beginMacFromHandle .hmacSha256 1
        (start.after [.insertKey [7, 7] false]).custody).1 = .ok c ∧
      (p.call (.ofWord 0) (.finalize 32)).1 =
        (((c.after .software [feed]).perform (.finalize 32)).run .software).1) ∧
    p.call (.ofWord 1) (.finalize 20) = (.output (.error (.retired "finalize")), p) ∧
    p.call (.ofWord (2 ^ 32)) .discard = (.status (.error .invalidHandle), p) := by
  intro service start feed actions p
  have few : (start.opens actions).length < 2 ^ 32 := by decide
  have grounded : ({} : Custody).Grounded := by
    simp [Custody.Grounded, Custody.entries, Custody.stock]
  have refines := call_refines_alone service {} grounded actions few
  refine ⟨few, ?_, ?_, ?_⟩
  · obtain ⟨begin, c, hb, hc, hr⟩ := (refines 0 (.finalize 32)).1 [.insertKey [7, 7] false]
      (.openMac .hmacSha256 1 0) _ ⟨0, 0⟩ rfl rfl rfl (by decide)
    cases hb
    exact ⟨c, hc, hr⟩
  · exact (refines 1 (.finalize 20)).2.1 ⟨1, 0⟩ (by decide) rfl
  · exact (refines (2 ^ 32) .discard).2.2 (by decide)

end Pool

end StreamDigest
