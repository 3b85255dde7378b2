import StreamDigest.Proofs.Pool.Account
import StreamDigest.Proofs.Pool.Bookkeeping
import StreamDigest.Proofs.Session.Step

namespace StreamDigest

/-- How a new binding comes out of a source: its key is the copy that was just made, or one of the
stored keys if there is no copy. -/
def Custody.Bound (k : Custody) (copy : Option Key) : Binding → Prop
  | .restricted key => copy = some key ∧ ¬k.vault.Holds key
  | .shared key => copy = none ∧ key ∈ k.keys

variable {σ : Type} {k l : Custody} {key : Key} {b : Binding} {c : Computation σ}

/-- Only a store can be without a copy. -/
theorem Custody.stock_of_copyForSigning_none (h : k.copyForSigning key = (none, l)) :
    k.stock.isSome := by
  cases hs : k.source with
  | direct =>
    rw [copyForSigning, hs] at h
    cases h
  | store s => rw [stock, hs, Option.isSome_some]

theorem Custody.mem_keys_of_isLive (h : k.stock.isSome) (live : k.isLive key = true) :
    key ∈ k.keys := by
  obtain ⟨_, he⟩ := (isLive_iff h).mp live
  obtain ⟨e, he⟩ := Option.isSome_iff_exists.mp he
  have hkey : e.key = key := by simpa using List.find?_some he
  rw [← hkey]
  exact List.mem_map_of_mem (List.mem_of_find?_eq_some he)

namespace Service

variable {s : Service σ} {a : Algorithm}

/-- The binding of a MAC that was begun with a key: a signing copy of it that was not there before, or
else the key itself. -/
def Binds (s : Service σ) (key : Key) (k l : Custody) : Option Binding → Prop
  | some (.restricted copy) => ¬k.vault.Holds copy ∧ l.vault.usage copy = .signing ∧
      l.vault.bytes copy = k.vault.bytes key
  | some (.shared original) => original = key ∧ s.policy.keyFallback = true ∧
      (k.copyForSigning key).1 = none
  | none => False

theorem bindKey_binds (h : s.bindKey key k = (.ok b, l)) : s.Binds key k l (some b) := by
  rcases bindKey_eq_ok h with ⟨copy, hc, rfl⟩ | ⟨hf, hc, rfl, _⟩
  · obtain ⟨hv, hcopy⟩ := Custody.copyForSigning_bytes hc
    refine ⟨Custody.not_holds_copy hc, ?_, ?_⟩
    · rw [hv, hcopy, Vault.signingCopy, Vault.usage_deposit, if_pos rfl]
    · rw [hv, hcopy, Vault.signingCopy, Vault.bytes_deposit, if_pos rfl]
  · exact ⟨rfl, hf, by rw [hc]⟩

theorem beginMac_binds (h : s.beginMac a key k = (.ok c, l)) : s.Binds key k l c.binding := by
  obtain ⟨_, b, p, hbind, _, rfl⟩ := beginMac_eq_ok h
  exact bindKey_binds hbind

theorem beginMacFromHandle_binds {handle : UInt64}
    (h : s.beginMacFromHandle a handle k = (.ok c, l)) :
    ∃ e ∈ k.entries, e.handle = handle ∧ s.Binds e.key k l c.binding := by
  obtain ⟨_, k', l', hr, hm, rfl⟩ := beginMacFromHandle_eq_ok h
  obtain ⟨rfl, e, he, rfl⟩ := Custody.resolve_eq_ok hr
  have hmem := List.mem_of_find?_eq_some he
  refine ⟨e, hmem, by simpa using List.find?_some he, ?_⟩
  have binds := beginMac_binds hm
  generalize c.binding = binding at binds ⊢
  -- The reference that resolving the handle took makes no difference to what is copied.
  match binding, binds with
  | some (.restricted copy), ⟨hnew, husage, hbytes⟩ =>
    exact ⟨fun hold => hnew (Vault.holds_retain.mpr hold), by simpa [Custody.release] using husage,
      by simpa [Custody.release] using hbytes⟩
  | some (.shared original), ⟨horiginal, hf, hcopy⟩ =>
    refine ⟨horiginal, hf, Option.not_isSome_iff_eq_none.mp fun hsome => ?_⟩
    have hstock := Custody.stock_isSome_of_mem hmem
    have hiff := (Custody.copyForSigning_isSome hstock).mp hsome
    have hsome' := (Custody.copyForSigning_isSome
      (k := { k with vault := k.vault.retain e.key }) hstock).mpr hiff
    rw [hcopy] at hsome'
    cases hsome'

theorem bindKey_bound (live : k.isLive key = true) (h : s.bindKey key k = (.ok b, l)) :
    k.Bound (k.copyForSigning key).1 b := by
  rcases bindKey_eq_ok h with ⟨copy, hc, rfl⟩ | ⟨_, hc, rfl, _⟩
  · exact ⟨by rw [hc], Custody.not_holds_copy hc⟩
  · exact ⟨by rw [hc], Custody.mem_keys_of_isLive (Custody.stock_of_copyForSigning_none hc) live⟩

theorem beginMac_bound (h : s.beginMac a key k = (.ok c, l)) (hb : c.binding = some b) :
    k.Bound (s.copyMade a key k) b := by
  obtain ⟨hm, b', p, hbind, _, rfl⟩ := beginMac_eq_ok h
  obtain ⟨_, _, live, _⟩ := checkMac_eq_ok_iff.mp hm
  cases hb
  rw [copyMade, hm]
  exact bindKey_bound live hbind

theorem beginMacFromHandle_bound {handle : UInt64} (h : s.beginMacFromHandle a handle k = (.ok c, l))
    (hb : c.binding = some b) : k.Bound (s.copyMadeFromHandle a handle k) b := by
  obtain ⟨key, k', l', hr, hm, _⟩ := beginMacFromHandle_eq_ok h
  have hbound := beginMac_bound hm hb
  obtain ⟨rfl, _⟩ := Custody.resolve_eq_ok hr
  rw [copyMadeFromHandle, hr]
  -- The reference that resolving the handle took makes no key a stored or a known one.
  cases b with
  | restricted copy => exact ⟨hbound.1, fun hold => hbound.2 (Vault.holds_retain.mpr hold)⟩
  | shared key' => exact hbound

end Service

namespace Pool

variable {p q : Pool σ} {a : Action} {r : Reply}

theorem begin_bound {s : Service σ} {begin : Custody → Except Fault (Computation σ) × Custody}
    (hb : a.begin? s = some begin) (h : begin k = (.ok c, l)) (hbind : c.binding = some b) :
    k.Bound (copyBegun s k a) b := by
  cases a with
  | openDigest a =>
    cases hb
    cases (Service.binding_beginDigest (Prod.mk.inj h).1).symm.trans hbind
  | openMac a handle =>
    cases hb
    exact Service.beginMacFromHandle_bound h hbind
  | call | insertKey | removeKey | outstanding | digest => cases hb

theorem Step.bound (st : Step p a r q) (range : p.arena.FreeInRange) {d : Computation σ}
    (hd : d ∈ q.arena.contents) (hb : d.binding = some b) :
    (∃ c ∈ p.arena.contents, c.binding = some b) ∨ p.custody.Bound (p.copyMade a) b := by
  rcases st.binding range hd hb with earlier | ⟨begin, l, hbegin, hd, room⟩
  · exact .inl earlier
  · right
    rw [copyMade, if_neg (by omega)]
    exact begin_bound hbegin hd hb

theorem boundKeys_of_refused {e : Fault} (st : Step p a (.opened (.error e)) q) :
    q.boundKeys = p.boundKeys := by
  rw [boundKeys, boundKeys, st.arena_of_refused]

end Pool

namespace Session

variable {s t : Session σ} {r : Reply} {a : Action} {site : Place} {number : Nat}

/-- No computation was begun, and those that have a key had it before. -/
structure Carried (s t : Session σ) : Prop where
  size : t.computations.size = s.computations.size
  binding : ∀ i c b, t.computation? i = some c → c.binding = some b →
    ∃ c', s.computation? i = some c' ∧ c'.binding = some b

/-- The computation `c` was begun by an action. -/
structure Begun (s t : Session σ) (a : Action) (c : Computation σ) : Prop where
  computations : t.computations = s.computations.push (some c)
  bound : ∀ b, c.binding = some b →
    ∃ k, s.custody? a.place = some k ∧ k.Bound (s.copyMade a) b

/-- Whether an action begins a computation, and the rest of what it does to them. -/
def Threads (s : Session σ) (a : Action) : Reply → Session σ → Prop
  | .computation number, t => number = s.computations.size ∧ ∃ c, Begun s t a c
  | _, t => Carried s t

theorem carried_of_eq (h : t.computations = s.computations) : Carried s t := by
  refine ⟨by rw [h], ?_⟩
  intro i c b hc hb
  exact ⟨c, by simpa only [computation?, h] using hc, hb⟩

theorem carried_set {after : Computation σ} {y : Option (Computation σ)}
    (hc : s.computation? number = some c) (hb : after.binding = c.binding ∨ after.binding = none)
    (hy : y = some after ∨ y = none)
    (ht : t.computations = s.computations.setIfInBounds number y) : Carried s t := by
  refine ⟨by rw [ht, Array.size_setIfInBounds], ?_⟩
  intro i d b hd hbind
  rw [computation?, ht, Array.getElem?_setIfInBounds] at hd
  split at hd
  · next hi =>
    subst hi
    refine ⟨c, hc, ?_⟩
    rcases hy with rfl | rfl
    · split at hd
      · cases hd
        rcases hb with hb | hb
        · exact hb.symm.trans hbind
        · cases hb.symm.trans hbind
      · cases hd
    · split at hd <;> cases hd
  · exact ⟨d, hd, hbind⟩

theorem threads_addComputation {begun : Except Fault (Computation σ)} {s' : Session σ}
    (hs : s'.computations = s.computations)
    (hb : ∀ c b, begun = .ok c → c.binding = some b →
      ∃ k, s.custody? a.place = some k ∧ k.Bound (s.copyMade a) b) :
    s.Threads a (s'.addComputation begun).1 (s'.addComputation begun).2 := by
  cases begun with
  | error e => exact carried_of_eq hs
  | ok c =>
    have hp : (s'.addComputation (.ok c)).2.computations = s.computations.push (some c) := by
      rw [← hs]
      rfl
    refine ⟨?_, c, hp, fun b => hb c b rfl⟩
    rw [hs]

theorem threads_of_carried (hr : ∀ number, r ≠ .computation number) (h : Carried s t) :
    s.Threads a r t := by
  cases r with
  | computation number => exact absurd rfl (hr number)
  | _ => exact h

theorem Begins.bound (h : s.Begins k a c) (hk : s.custody? a.place = some k)
    (hb : c.binding = some b) : k.Bound (s.copyMade a) b := by
  cases h with
  | digest hd => cases (Service.binding_beginDigest hd).symm.trans hb
  | mac hn hm =>
    have hmade := copyMade_beginMac hn hk
    rw [Action.place] at hmade
    rw [hmade]
    exact Service.beginMac_bound hm hb
  | macFromHandle hm =>
    have hmade := copyMade_beginMacFromHandle hk
    rw [Action.place] at hmade
    rw [hmade]
    exact Service.beginMacFromHandle_bound hm hb

theorem Step.threads (st : Step s a r t) : s.Threads a r t := by
  cases st with
  | absent => exact carried_of_eq rfl
  | read hr => exact threads_of_carried hr (carried_of_eq rfl)
  | kept hk kept hr => exact threads_of_carried hr (carried_of_eq (by simp))
  | gained => exact carried_of_eq (by simp [addKey])
  | gave => exact carried_of_eq rfl
  | stocked ha hk kind known hr hn => exact threads_of_carried hn (carried_of_eq (by simp))
  | begun ha hk kept hb =>
    refine threads_addComputation (by simp) ?_
    exact fun c b hc hbind => ⟨_, hk, (hb c hc).bound hk hbind⟩
  | @went a r number c after calls hn hc ha =>
    exact carried_set hc (ha ▸ c.binding_after_or _ calls) (.inl rfl) rfl
  | @dropped number c hc =>
    have hb : c.retire.binding = c.binding ∨ c.retire.binding = none := .inr rfl
    exact carried_set hc hb (.inr rfl) rfl

theorem threads (s : Session σ) (a : Action) : s.Threads a (s.perform a).1 (s.perform a).2 :=
  (s.perform_step a).threads

/-- A fault leaves the caller and all computations with the keys that they had. -/
theorem Step.holdings_of_fault {e : Fault} (st : Step s a (.fault e) t) :
    t.holdings = s.holdings := by
  generalize hr : Reply.fault e = r at st
  cases st with
  | absent | read => rfl
  | kept => exact holdings_keep _ _ _
  | @begun a k l begun ha hk kept hb =>
    cases begun with
    | error e => exact holdings_keep _ _ _
    | ok c => cases hr
  | stocked ha hk kind known hf hn => exact absurd hr.symm (hf e)
  | gained | gave | went | dropped => cases hr

end Session

end StreamDigest
