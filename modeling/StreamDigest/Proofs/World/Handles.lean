import StreamDigest.Proofs.World.Register

namespace StreamDigest

variable {σ : Type}

namespace Pool

variable {p q : Pool σ} {issued issued' : List Handle} {h : Handle}

theorem Reply.exists_call_of_retired {a : Action} {r : Reply} (hr : r.retired? a = some h) :
    ∃ call, a = .call h call := by
  unfold Reply.retired? at hr
  split at hr
  · obtain ⟨_, rfl⟩ := by simpa using hr
    exact ⟨_, rfl⟩
  · cases hr

/-- Two pools in which a handle leads to the same, whatever else there is in them. -/
structure AlikeAt (p q : Pool σ) (h : Handle) : Prop where
  service : q.service = p.service
  find : q.arena.find h = p.arena.find h
  known : p.arena.find h ≠ .unknown

theorem AlikeAt.call (al : p.AlikeAt q h) (call : Call) :
    (q.perform (.call h call)).1 = (p.perform (.call h call)).1 := by
  have hcall : (q.call h call).1 = (p.call h call).1 := by
    unfold Pool.call
    rw [al.find, al.service]
    cases p.arena.find h <;> rfl
  exact congrArg Reply.result hcall

/-- The same action may begin a computation in one of the pools and not in the other: its handle is another
one. -/
theorem AlikeAt.step (al : p.AlikeAt q h) (tp : p.Tracked issued) (tq : q.Tracked issued')
    (few : issued.length < 2 ^ 32) (few' : issued'.length < 2 ^ 32) (a : Action) :
    (p.perform a).2.AlikeAt (q.perform a).2 h := by
  have sp := perform_step p a
  have sq := perform_step q a
  have service : (q.perform a).2.service = (p.perform a).2.service := by
    rw [service_perform, service_perform, al.service]
  have ends : (q.perform a).1.retired? a = some h ↔ (p.perform a).1.retired? a = some h := by
    constructor
    all_goals
      intro hr
      obtain ⟨call, rfl⟩ := Reply.exists_call_of_retired hr
      simpa [al.call call] using hr
  cases hf : p.arena.find h with
  | unknown => exact absurd hf al.known
  | retired =>
    have hp := tp.retired_step few sp hf
    have hq := tq.retired_step few' sq (al.find.trans hf)
    exact ⟨service, by rw [hp, hq], by simp [hp]⟩
  | here c =>
    have hq := tq.here_step few' sq (al.find.trans hf)
    rcases tp.here_step few sp hf with ⟨hr, hp⟩ | ⟨hr, hp⟩
    · rcases hq with ⟨_, hq⟩ | ⟨hr', _⟩
      · exact ⟨service, by rw [hp, hq], by simp [hp]⟩
      · exact absurd (ends.mpr hr) hr'
    · rcases hq with ⟨hr', _⟩ | ⟨_, hq⟩
      · exact absurd (ends.mp hr') hr
      · exact ⟨service, by rw [hp, hq, al.service], by simp [hp]⟩

end Pool

namespace World

variable {w v : World σ} {number : Nat} {host : Host σ} {issued issued' : List Handle} {h : Handle}

/-- The handle that an action opens in a pool. -/
def opened? (w : World σ) (number : Nat) (a : Action) : Option Handle :=
  match a, (w.perform a).1 with
  | .pool other _, .pool r => if other = number then r.opened? else none
  | _, _ => none

/-- The handles that a run opens in a pool, one by one. -/
def opens (w : World σ) (number : Nat) : List Action → List Handle
  | [] => []
  | a :: rest => (w.opened? number a).toList ++ (w.perform a).2.opens number rest

theorem opens_append (w : World σ) (number : Nat) (before later : List Action) :
    w.opens number (before ++ later) = w.opens number before ++ (w.after before).opens number later := by
  induction before generalizing w with
  | nil => rfl
  | cons a rest ih =>
    rw [List.cons_append, opens, opens, ih, List.append_assoc]
    rfl

/-- A pool in which all that leads anywhere was issued. -/
def Tracked (w : World σ) (number : Nat) (issued : List Handle) : Prop :=
  ∀ host, w.hosts[number]? = some host →
    host.arena.Tracks issued ∧ ∀ c ∈ host.arena.contents, c.phase ≠ .finalized

theorem tracked_start (service : Service σ) (stores : Nat) (places : List Place) (number : Nat) :
    (start service stores places).Tracked number [] := by
  intro host hh
  obtain ⟨place, _, rfl⟩ : ∃ place, places[number]? = some place ∧ { place } = host := by
    simpa [start] using hh
  exact ⟨Arena.empty_tracks, by simp [Arena.contents]⟩

theorem PoolStep.tracked {a : Pool.Action} {p : Pool σ} (st : w.PoolStep number a host p)
    (t : w.Tracked number issued) : p.Tracked issued := by
  obtain ⟨arena, running⟩ := t host st.here
  rw [st.arena] at arena running
  exact ⟨arena, running⟩

theorem PoolStep.hosts {a : Pool.Action} {p : Pool σ} (st : w.PoolStep number a host p) :
    (w.perform (.pool number a)).2.hosts[number]? =
      some { host with arena := (p.perform a).2.arena } := by
  obtain ⟨hn, _⟩ := Array.getElem?_eq_some_iff.mp st.here
  rw [st.perform, keep, Array.getElem?_setIfInBounds_self_of_lt hn]

theorem hosts_perform_pool {other : Nat} (hne : other ≠ number) (w : World σ) (a : Pool.Action) :
    (w.perform (.pool other a)).2.hosts[number]? = w.hosts[number]? := by
  rcases w.idle_or_poolStep other a with ⟨hw, _⟩ | ⟨host, p, st⟩
  · rw [hw]
  · rw [st.perform, keep, Array.getElem?_setIfInBounds_ne hne]

theorem Tracked.step (t : w.Tracked number issued) (a : Action)
    (few : (issued ++ (w.opened? number a).toList).length < 2 ^ 32) :
    (w.perform a).2.Tracked number (issued ++ (w.opened? number a).toList) := by
  cases a with
  | session a =>
    have hnone : w.opened? number (.session a) = none := rfl
    rw [hnone, Option.toList_none, List.append_nil]
    exact t
  | pool other a =>
    by_cases hn : other = number
    · subst hn
      rcases w.idle_or_poolStep other a with ⟨hw, _⟩ | ⟨host, p, st⟩
      · have hnone : w.opened? other (.pool other a) = none := by simp [opened?, hw]
        rw [hnone, hw, Option.toList_none, List.append_nil]
        exact t
      · have hopened : w.opened? other (.pool other a) = (p.perform a).1.opened? := by
          simp [opened?, st.perform]
        rw [hopened] at few ⊢
        obtain ⟨arena, running⟩ := (st.tracked t).step (p.perform_step a) few
        intro host' hh
        cases st.hosts.symm.trans hh
        exact ⟨arena, running⟩
    · have hnone : w.opened? number (.pool other a) = none := by
        unfold opened?
        split
        · next heq _ =>
          cases heq
          rw [if_neg hn]
        · rfl
      rw [hnone, Option.toList_none, List.append_nil, Tracked, hosts_perform_pool hn]
      exact t

theorem Tracked.after (t : w.Tracked number issued) (actions : List Action)
    (few : (issued ++ w.opens number actions).length < 2 ^ 32) :
    (w.after actions).Tracked number (issued ++ w.opens number actions) := by
  induction actions generalizing w issued with
  | nil =>
    rw [opens, List.append_nil]
    exact t
  | cons a rest ih =>
    rw [opens, ← List.append_assoc] at few ⊢
    exact ih (t.step a (Pool.few_of_append few)) few

/-- Two worlds in which a handle of a pool leads to the same, whatever else there is in them. -/
structure AlikeAt (w v : World σ) (number : Nat) (h : Handle) : Prop where
  service : v.session.service = w.session.service
  stores : v.session.stores.size = w.session.stores.size
  hosts : ∃ x y, w.hosts[number]? = some x ∧ v.hosts[number]? = some y ∧ y.place = x.place ∧
    y.arena.find h = x.arena.find h ∧ x.arena.find h ≠ .unknown

theorem custody?_isSome {s t : Session σ} (hs : t.stores.size = s.stores.size) (place : Place) :
    (t.custody? place).isSome = (s.custody? place).isSome := by
  cases place with
  | direct => rfl
  | store n =>
    rw [Bool.eq_iff_iff]
    simp only [Session.custody?, Option.isSome_map, isSome_getElem?, hs]

/-- The pool is open in both of the worlds, or in neither. -/
theorem AlikeAt.pools (al : w.AlikeAt v number h) (a : Pool.Action) :
    (w.perform (.pool number a) = (.absent, w) ∧ v.perform (.pool number a) = (.absent, v)) ∨
      ∃ x y p q, w.PoolStep number a x p ∧ v.PoolStep number a y q ∧ y.place = x.place ∧
        p.AlikeAt q h := by
  obtain ⟨x, y, hx, hy, hplace, hfind, known⟩ := al.hosts
  have hopen := custody?_isSome al.stores x.place
  cases hk : w.session.custody? x.place with
  | none =>
    have hl : v.session.custody? y.place = none := by simpa [hk, hplace] using hopen
    exact .inl ⟨(idle_of_custody? hx hk a).1, (idle_of_custody? hy hl a).1⟩
  | some k =>
    obtain ⟨l, hl⟩ : ∃ l, v.session.custody? y.place = some l := by
      rw [← Option.isSome_iff_exists, hplace, hopen, hk, Option.isSome_some]
    exact .inr ⟨x, y, _, _, poolStep_of_custody? hx hk a, poolStep_of_custody? hy hl a, hplace,
      ⟨al.service, hfind, known⟩⟩

theorem AlikeAt.step (al : w.AlikeAt v number h) (tw : w.Tracked number issued)
    (tv : v.Tracked number issued') (few : issued.length < 2 ^ 32) (few' : issued'.length < 2 ^ 32)
    (a : Action) : (w.perform a).2.AlikeAt (v.perform a).2 number h := by
  have service : (v.perform a).2.session.service = (w.perform a).2.session.service := by
    rw [service_perform, service_perform, al.service]
  have stores : (v.perform a).2.session.stores.size = (w.perform a).2.session.stores.size := by
    rw [size_stores_perform, size_stores_perform, al.stores]
  refine ⟨service, stores, ?_⟩
  cases a with
  | session a => exact al.hosts
  | pool other a =>
    by_cases hn : other = number
    · subst hn
      rcases al.pools a with ⟨hw, hv⟩ | ⟨x, y, p, q, sw, sv, hplace, alike⟩
      · rw [hw, hv]
        exact al.hosts
      · have next := alike.step (sw.tracked tw) (sv.tracked tv) few few' a
        exact ⟨_, _, sw.hosts, sv.hosts, hplace, next.find, next.known⟩
    · rw [hosts_perform_pool hn, hosts_perform_pool hn]
      exact al.hosts

theorem AlikeAt.after (al : w.AlikeAt v number h) (tw : w.Tracked number issued)
    (tv : v.Tracked number issued') (actions : List Action)
    (few : (issued ++ w.opens number actions).length < 2 ^ 32)
    (few' : (issued' ++ v.opens number actions).length < 2 ^ 32) :
    (w.after actions).AlikeAt (v.after actions) number h := by
  induction actions generalizing w v issued issued' with
  | nil => exact al
  | cons a rest ih =>
    rw [opens, ← List.append_assoc] at few few'
    have now := Pool.few_of_append few
    have now' := Pool.few_of_append few'
    exact ih (al.step tw tv (Pool.few_of_append now) (Pool.few_of_append now') a)
      (tw.step a now) (tv.step a now') few few'

/-- A call through the handle has the same answer in both of the worlds. -/
theorem AlikeAt.call (al : w.AlikeAt v number h) (call : Call) :
    (v.perform (.pool number (.call h call))).1 = (w.perform (.pool number (.call h call))).1 := by
  rcases al.pools (.call h call) with ⟨hw, hv⟩ | ⟨x, y, p, q, sw, sv, _, alike⟩
  · rw [hw, hv]
  · rw [sw.perform, sv.perform, alike.call]

end World

end StreamDigest
