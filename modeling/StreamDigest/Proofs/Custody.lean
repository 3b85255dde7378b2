import StreamDigest.Proofs.Vault

namespace StreamDigest

namespace Custody

variable {k l m : Custody} {key : Key}

/-- The keys that a store has under handles, with the last handle. -/
def stock (k : Custody) : Option (UInt64 × List Entry) :=
  match k.source with
  | .direct => none
  | .store s => some (s.lastHandle, s.entries)

def entries (k : Custody) : List Entry :=
  match k.stock with
  | some (_, entries) => entries
  | none => []

/-- Every stored key is one of the vault's. -/
def Grounded (k : Custody) : Prop :=
  ∀ e ∈ k.entries, k.vault.Holds e.key

/-- No key came or went, whatever became of references and signing copies. -/
structure Kept (k l : Custody) : Prop where
  vault : k.vault.Kept l.vault
  stock : l.stock = k.stock

theorem Kept.refl (k : Custody) : k.Kept k :=
  ⟨.refl _, rfl⟩

theorem Kept.trans (h : k.Kept l) (h' : l.Kept m) : k.Kept m :=
  ⟨h.vault.trans h'.vault, h'.stock.trans h.stock⟩

theorem entries_eq {s : UInt64 × List Entry} (h : k.stock = some s) : k.entries = s.2 := by
  rw [entries, h]

theorem stock_eq_none_iff : k.stock = none ↔ k.source = .direct := by
  unfold stock
  split <;> simp_all

/-- What is known of a stock is known of the store that has it. -/
theorem source_of_stock {s : UInt64 × List Entry} (h : k.stock = some s) :
    ∃ t, k.source = .store t ∧ s = (t.lastHandle, t.entries) := by
  unfold stock at h
  split at h
  · cases h
  · next t ht => exact ⟨t, ht, (Option.some.inj h).symm⟩

theorem source_of_stock_isSome (h : k.stock.isSome) :
    ∃ t, k.source = .store t ∧ k.entries = t.entries := by
  obtain ⟨s, hs⟩ := Option.isSome_iff_exists.mp h
  obtain ⟨t, ht, rfl⟩ := source_of_stock hs
  exact ⟨t, ht, entries_eq hs⟩

theorem stock_isSome_of_mem {e : Entry} (h : e ∈ k.entries) : k.stock.isSome := by
  unfold entries at h
  split at h
  · next hs => simp [hs]
  · cases h

theorem Kept.entries (h : k.Kept l) : l.entries = k.entries := by
  simp [Custody.entries, h.stock]

theorem kept_release (k : Custody) (key : Key) : k.Kept (k.release key) :=
  ⟨k.vault.kept_release key, rfl⟩

theorem kept_retain (k : Custody) (key : Key) : k.Kept { k with vault := k.vault.retain key } :=
  ⟨k.vault.kept_retain key, rfl⟩

theorem kept_settle (k : Custody) (before after : Option Binding) :
    k.Kept (k.settle before after) :=
  ⟨k.vault.kept_settle before after, rfl⟩

theorem kept_resolve (k : Custody) (handle : UInt64) : k.Kept (k.resolve handle).2 := by
  unfold resolve
  split
  · exact .refl k
  · split
    · exact k.kept_retain _
    · exact .refl k

theorem kept_copyForSigning (k : Custody) (key : Key) : k.Kept (k.copyForSigning key).2 := by
  have hv := k.vault.kept_deposit (k.vault.bytes key) .signing
  unfold copyForSigning
  split
  · next hs => exact ⟨hv, by simp [stock, hs]⟩
  · next s hs =>
    split
    · exact ⟨hv, by simp [stock, hs, KeyStore.prune]⟩
    · exact .refl k

theorem kept_outstanding {n : Nat} (h : k.outstanding? = some (n, l)) : k.Kept l := by
  unfold outstanding? at h
  split at h
  · cases h
  · next s hs =>
    cases h
    exact ⟨.refl _, by simp [stock, hs, KeyStore.prune]⟩

theorem resolve_eq_ok {handle : UInt64} (h : k.resolve handle = (.ok key, l)) :
    l = { k with vault := k.vault.retain key } ∧
      ∃ e, k.entries.find? (fun e => e.handle = handle) = some e ∧ key = e.key := by
  unfold resolve at h
  split at h
  · cases h
  · next s hs =>
    split at h
    · next e he =>
      cases h
      exact ⟨rfl, e, by simpa [entries, stock, hs, KeyStore.entry?] using he, rfl⟩
    · cases h

theorem entry_of_resolve {handle : UInt64} {key : Key} (h : (k.resolve handle).1 = .ok key) :
    ∃ e ∈ k.entries, e.handle = handle ∧ e.key = key := by
  obtain ⟨_, e, he, rfl⟩ := resolve_eq_ok (Prod.ext h rfl : k.resolve handle = (.ok key, _))
  exact ⟨e, List.mem_of_find?_eq_some he, by simpa using List.find?_some he, rfl⟩

theorem resolve_of_find? {handle : UInt64} {e : Entry}
    (h : k.entries.find? (fun e => e.handle = handle) = some e) :
    k.resolve handle = (.ok e.key, { k with vault := k.vault.retain e.key }) := by
  obtain ⟨s, hs, he⟩ := source_of_stock_isSome (stock_isSome_of_mem (List.mem_of_find?_eq_some h))
  rw [he] at h
  have hf : s.entry? handle = some e := h
  simp only [resolve, hs, hf]

theorem resolve_of_absent {handle : UInt64}
    (h : k.entries.find? (fun e => e.handle = handle) = none) :
    k.resolve handle = (.error .invalidKeyHandle, k) := by
  obtain ⟨vault, _ | s⟩ := k
  · rfl
  · have he : s.entry? handle = none := h
    simp only [resolve, he]

theorem resolve_fault {handle : UInt64} {e : Fault} (h : (k.resolve handle).1 = .error e) :
    e = .invalidKeyHandle := by
  cases hf : k.entries.find? fun e => decide (e.handle = handle) with
  | some entry =>
    rw [resolve_of_find? hf] at h
    cases h
  | none =>
    rw [resolve_of_absent hf] at h
    exact (Except.error.inj h).symm

/-- What a signing copy is made of, if one is made. -/
theorem copyForSigning_bytes {copy : Key} (h : k.copyForSigning key = (some copy, l)) :
    l.vault = (k.vault.signingCopy key).2 ∧ copy = (k.vault.signingCopy key).1 := by
  unfold copyForSigning at h
  split at h
  · cases h
    exact ⟨rfl, rfl⟩
  · split at h
    · cases h
      exact ⟨rfl, rfl⟩
    · cases h

theorem not_holds_copy {copy : Key} (h : k.copyForSigning key = (some copy, l)) :
    ¬k.vault.Holds copy := by
  rw [(copyForSigning_bytes h).2]
  exact k.vault.not_holds_deposit _ _

theorem copyForSigning_none (h : k.copyForSigning key = (none, l)) : l = k := by
  unfold copyForSigning at h
  split at h
  · cases h
  · split at h
    · cases h
    · exact (Prod.mk.inj h).2.symm

/-- A store makes signing copies of its keys that are not in hardware. -/
theorem copyForSigning_isSome (h : k.stock.isSome) : (k.copyForSigning key).1.isSome ↔
    ∃ e, k.entries.find? (fun e => e.key = key) = some e ∧ e.hardware = false := by
  obtain ⟨s, hs, he⟩ := source_of_stock_isSome h
  rw [he]
  simp only [copyForSigning, hs]
  change _ ↔ ∃ e, s.entryOf? key = some e ∧ e.hardware = false
  split
  · next e he => simp [he]
  · next hn =>
    simp only [Option.isSome_none, Bool.false_eq_true, false_iff, not_exists, not_and]
    rintro ⟨handle, key, hardware⟩ he rfl
    exact hn handle key he

theorem isLive_iff (h : k.stock.isSome) : k.isLive key = true ↔
    k.vault.bytes key ≠ [] ∧ (k.entries.find? fun e => e.key = key).isSome := by
  obtain ⟨s, hs, he⟩ := source_of_stock_isSome h
  simp only [isLive, hs, he, KeyStore.entryOf?, Bool.and_eq_true, Bool.not_eq_true',
    List.isEmpty_eq_false_iff, ne_eq]

theorem exists_remove? {s : UInt64 × List Entry} (h : k.stock = some s) (n : UInt64) :
    ∃ b l, k.remove? n = some (b, l) ∧ b = (s.2.find? fun e => e.handle = n).isSome ∧
      l.stock = some (s.1, s.2.filter fun e => e.handle ≠ n) ∧ k.vault.Kept l.vault := by
  obtain ⟨t, ht, rfl⟩ := source_of_stock h
  simp only [remove?, ht, KeyStore.remove, KeyStore.entry?]
  cases hf : t.entries.find? fun e => decide (e.handle = n) with
  | none =>
    refine ⟨_, _, rfl, rfl, ?_, .refl _⟩
    have hall := List.find?_eq_none.mp hf
    rw [List.filter_eq_self.mpr (by simpa using hall)]
    rfl
  | some e => exact ⟨_, _, rfl, rfl, rfl, k.vault.kept_release e.key⟩

theorem remove?_eq_some {n : UInt64} {b : Bool} (h : k.remove? n = some (b, l)) :
    ∃ s, k.stock = some s ∧ b = (s.2.find? fun e => e.handle = n).isSome ∧
      l.stock = some (s.1, s.2.filter fun e => e.handle ≠ n) ∧ k.vault.Kept l.vault := by
  have stocked : k.stock ≠ none := fun hs => by simp [remove?, stock_eq_none_iff.mp hs] at h
  obtain ⟨s, hs⟩ := Option.ne_none_iff_exists'.mp stocked
  obtain ⟨b', m, hm, hb, hstock, hvault⟩ := exists_remove? hs n
  cases h.symm.trans hm
  exact ⟨s, hs, hb, hstock, hvault⟩

/-- To store a key is to take it in, to make way for it and to put it under its handle. -/
theorem insert?_of_stock {s : UInt64 × List Entry} (h : k.stock = some s) (b : Bytes)
    (hardware : Bool) : ∃ removed m t,
      ({ k with vault := (k.vault.deposit b .any).2 } : Custody).remove? (s.1 + 1) =
        some (removed, m) ∧ m.source = .store t ∧
      k.insert? b hardware = some (s.1 + 1,
        { m with source := .store (t.put ⟨s.1 + 1, (k.vault.deposit b .any).1, hardware⟩) }) := by
  obtain ⟨t, ht, rfl⟩ := source_of_stock h
  let x := t.remove (k.vault.deposit b .any).2 (t.lastHandle + 1)
  exact ⟨x.1, ⟨x.2.2, .store x.2.1⟩, x.2.1, by simp only [remove?, ht, x], rfl,
    by simp only [insert?, ht]; rfl⟩

theorem exists_insert? {s : UInt64 × List Entry} (h : k.stock = some s) (b : Bytes)
    (hardware : Bool) : ∃ l, k.insert? b hardware = some (s.1 + 1, l) ∧
      l.stock = some (s.1 + 1, ⟨s.1 + 1, (k.vault.deposit b .any).1, hardware⟩ ::
        s.2.filter fun e => e.handle ≠ s.1 + 1) ∧
      (k.vault.deposit b .any).2.Kept l.vault := by
  obtain ⟨removed, m, t, hr, ht, hi⟩ := insert?_of_stock h b hardware
  obtain ⟨s', hs', _, hm, hv⟩ := remove?_eq_some hr
  cases h.symm.trans hs'
  obtain ⟨t', ht', hs⟩ := source_of_stock hm
  cases ht.symm.trans ht'
  refine ⟨_, hi, ?_, hv⟩
  rw [(Prod.mk.inj hs).2]
  rfl

theorem insert?_eq_some {b : Bytes} {hardware : Bool} {n : UInt64}
    (h : k.insert? b hardware = some (n, l)) :
    ∃ s, k.stock = some s ∧ n = s.1 + 1 ∧
      l.stock = some (s.1 + 1, ⟨s.1 + 1, (k.vault.deposit b .any).1, hardware⟩ ::
        s.2.filter fun e => e.handle ≠ s.1 + 1) ∧
      (k.vault.deposit b .any).2.Kept l.vault := by
  have stocked : k.stock ≠ none := fun hs => by simp [insert?, stock_eq_none_iff.mp hs] at h
  obtain ⟨s, hs⟩ := Option.ne_none_iff_exists'.mp stocked
  obtain ⟨m, hm, hstock, hvault⟩ := exists_insert? hs b hardware
  cases h.symm.trans hm
  exact ⟨s, hs, rfl, hstock, hvault⟩

end Custody

def Entry.rekey (f : Key → Key) (e : Entry) : Entry :=
  { e with key := f e.key }

namespace Custody

variable {k l k' l' : Custody} {f : Key → Key}

/-- Two custodies with the same stored keys, up to their serials: `f` takes those of one to those of
the other. -/
structure Alike (k l : Custody) (f : Key → Key) : Prop where
  stock : l.stock = k.stock.map fun s => (s.1, s.2.map (Entry.rekey f))
  left : ∀ e ∈ k.entries, k.vault.Holds e.key
  right : ∀ e ∈ k.entries, l.vault.Holds (f e.key)
  bytes : ∀ e ∈ k.entries, l.vault.bytes (f e.key) = k.vault.bytes e.key
  injective : ∀ e ∈ k.entries, ∀ e' ∈ k.entries, f e.key = f e'.key → e.key = e'.key

theorem Alike.entries (h : Alike k l f) : l.entries = k.entries.map (Entry.rekey f) := by
  unfold Custody.entries
  rw [h.stock]
  cases k.stock <;> rfl

theorem Grounded.alike (h : k.Grounded) : Alike k k id where
  stock := by
    have hid : Entry.rekey id = id := rfl
    cases k.stock <;> simp [hid]
  left := h
  right := h
  bytes _ _ := rfl
  injective _ _ _ _ he := he

theorem Alike.kept (h : Alike k l f) (hk : k.Kept k') (hl : l.Kept l') : Alike k' l' f := by
  have he := hk.entries
  refine ⟨by rw [hl.stock, hk.stock, h.stock], ?_, ?_, ?_, ?_⟩
  · intro e hm
    exact hk.vault.holds _ (h.left e (he ▸ hm))
  · intro e hm
    exact hl.vault.holds _ (h.right e (he ▸ hm))
  · intro e hm
    rw [he] at hm
    rw [hk.vault.bytes _ (h.left e hm), hl.vault.bytes _ (h.right e hm), h.bytes e hm]
  · rw [he]
    exact h.injective

theorem Alike.find?_handle (h : Alike k l f) (handle : UInt64) :
    l.entries.find? (fun e => e.handle = handle) =
      (k.entries.find? fun e => e.handle = handle).map (Entry.rekey f) := by
  rw [h.entries, List.find?_map]
  rfl

theorem Alike.find?_key (h : Alike k l f) {e : Entry} (he : e ∈ k.entries) :
    l.entries.find? (fun e' => e'.key = f e.key) =
      (k.entries.find? fun e' => e'.key = e.key).map (Entry.rekey f) := by
  rw [h.entries, List.find?_map]
  rw [← List.head?_filter, ← List.head?_filter]
  congr 2
  apply List.filter_congr
  intro e' he'
  apply decide_eq_decide.mpr
  exact ⟨h.injective e' he' e he, fun heq => congrArg f heq⟩

theorem Alike.isLive (h : Alike k l f) {e : Entry} (he : e ∈ k.entries)
    (live : k.isLive e.key = true) : l.isLive (f e.key) = true := by
  have hk := stock_isSome_of_mem he
  have hl : l.stock.isSome := by
    rw [h.stock]
    simpa using hk
  obtain ⟨hb, hf⟩ := (isLive_iff hk).mp live
  refine (isLive_iff hl).mpr ⟨by rw [h.bytes e he]; exact hb, ?_⟩
  rw [h.find?_key he]
  simpa using hf

theorem Alike.copyForSigning (h : Alike k l f) {e : Entry} (he : e ∈ k.entries) :
    (l.copyForSigning (f e.key)).1.isSome = (k.copyForSigning e.key).1.isSome := by
  have hk := stock_isSome_of_mem he
  have hl : l.stock.isSome := by
    rw [h.stock]
    simpa using hk
  apply Bool.eq_iff_iff.mpr
  rw [copyForSigning_isSome hk, copyForSigning_isSome hl, h.find?_key he]
  cases k.entries.find? fun e' => decide (e'.key = e.key) <;> simp [Entry.rekey]

/-- No key that was stored before is the new one, on either side. -/
theorem Alike.apart_of_deposit (h : Alike k l f) {e : Entry} (he : e ∈ k.entries) (b : Bytes) :
    e.key ≠ (k.vault.deposit b .any).1 ∧ f e.key ≠ (l.vault.deposit b .any).1 := by
  constructor
  · intro heq
    exact k.vault.not_holds_deposit b .any (heq ▸ h.left e he)
  · intro heq
    exact l.vault.not_holds_deposit b .any (heq ▸ h.right e he)

theorem Alike.insert (h : Alike k l f) {b : Bytes} {hardware : Bool} {n : UInt64}
    (hi : k.insert? b hardware = some (n, k')) :
    ∃ l' f', l.insert? b hardware = some (n, l') ∧ Alike k' l' f' := by
  obtain ⟨s, hs, rfl, hstock, hvault⟩ := insert?_eq_some hi
  have hl : l.stock = some (s.1, s.2.map (Entry.rekey f)) := by simp [h.stock, hs]
  obtain ⟨l', hi', hstock', hvault'⟩ := exists_insert? hl b hardware
  have kept := (k.vault.kept_deposit b .any).trans hvault
  have kept' := (l.vault.kept_deposit b .any).trans hvault'
  let fresh := (k.vault.deposit b .any).1
  let fresh' := (l.vault.deposit b .any).1
  have held : (k.vault.deposit b .any).2.Holds fresh := Vault.holds_deposit.mpr (.inr rfl)
  have held' : (l.vault.deposit b .any).2.Holds fresh' := Vault.holds_deposit.mpr (.inr rfl)
  have hold : ∀ e ∈ k.entries, Function.update f fresh fresh' e.key = f e.key := fun e he =>
    Function.update_of_ne (h.apart_of_deposit he b).1 fresh' f
  have hnew : Function.update f fresh fresh' fresh = fresh' := Function.update_self fresh fresh' f
  have hmem (e : Entry) (he : e ∈ k'.entries) : e = ⟨s.1 + 1, fresh, hardware⟩ ∨ e ∈ k.entries := by
    rw [entries_eq hstock] at he
    rw [entries_eq hs]
    exact (List.mem_cons.mp he).imp id fun he => (List.mem_filter.mp he).1
  refine ⟨l', Function.update f fresh fresh', hi', ?_, ?_, ?_, ?_, ?_⟩
  · have hmap : (s.2.filter fun e => e.handle ≠ s.1 + 1).map
          (Entry.rekey (Function.update f fresh fresh')) =
        (s.2.map (Entry.rekey f)).filter fun e => e.handle ≠ s.1 + 1 := by
      rw [List.filter_map]
      refine List.map_congr_left fun e he => ?_
      rw [Entry.rekey, Entry.rekey, hold e (entries_eq hs ▸ (List.mem_filter.mp he).1)]
    rw [hstock, hstock', Option.map_some, List.map_cons, hmap]
    simp only [Entry.rekey, fresh, hnew, fresh']
  · intro e he
    rcases hmem e he with rfl | he
    · exact hvault.holds _ held
    · exact kept.holds _ (h.left e he)
  · intro e he
    rcases hmem e he with rfl | he
    · rw [hnew]
      exact hvault'.holds _ held'
    · rw [hold e he]
      exact kept'.holds _ (h.right e he)
  · intro e he
    rcases hmem e he with rfl | he
    · rw [hnew, hvault'.bytes _ held', hvault.bytes _ held]
      simp [fresh, fresh', Vault.bytes_deposit]
    · rw [hold e he, kept.bytes _ (h.left e he), kept'.bytes _ (h.right e he), h.bytes e he]
  · intro e he e' he' heq
    rcases hmem e he with rfl | he
    · rcases hmem e' he' with rfl | he'
      · rfl
      · rw [hold e' he'] at heq
        exact absurd (heq.symm.trans hnew) (h.apart_of_deposit he' b).2
    · rw [hold e he] at heq
      rcases hmem e' he' with rfl | he'
      · exact absurd (heq.trans hnew) (h.apart_of_deposit he b).2
      · rw [hold e' he'] at heq
        exact h.injective e he e' he' heq

theorem Alike.insert_none (h : Alike k l f) {b : Bytes} {hardware : Bool}
    (hi : k.insert? b hardware = none) : l.insert? b hardware = none := by
  cases hl : l.insert? b hardware with
  | none => rfl
  | some r =>
    obtain ⟨s, hs, _⟩ := insert?_eq_some hl
    obtain ⟨t, ht, _⟩ := Option.map_eq_some_iff.mp (h.stock.symm.trans hs)
    obtain ⟨m, hm, _⟩ := exists_insert? ht b hardware
    cases hi.symm.trans hm

theorem Alike.remove_none (h : Alike k l f) {n : UInt64} (hr : k.remove? n = none) :
    l.remove? n = none := by
  cases hl : l.remove? n with
  | none => rfl
  | some r =>
    obtain ⟨s, hs, _⟩ := remove?_eq_some hl
    obtain ⟨t, ht, _⟩ := Option.map_eq_some_iff.mp (h.stock.symm.trans hs)
    obtain ⟨b, m, hm, _⟩ := exists_remove? ht n
    cases hr.symm.trans hm

theorem Alike.remove (h : Alike k l f) {n : UInt64} {b : Bool} (hr : k.remove? n = some (b, k')) :
    ∃ l', l.remove? n = some (b, l') ∧ Alike k' l' f := by
  obtain ⟨s, hs, hb, hstock, hvault⟩ := remove?_eq_some hr
  have hl : l.stock = some (s.1, s.2.map (Entry.rekey f)) := by simp [h.stock, hs]
  obtain ⟨b', l', hr', hb', hstock', hvault'⟩ := exists_remove? hl n
  have hk := entries_eq hs
  have hk' := entries_eq hstock
  have hmem : ∀ e ∈ k'.entries, e ∈ k.entries := by
    rw [hk', hk]
    exact fun e he => (List.mem_filter.mp he).1
  have hbb : b' = b := by
    rw [hb, hb', List.find?_map]
    simp only [Option.isSome_map]
    rfl
  subst hbb
  refine ⟨l', hr', ?_, ?_, ?_, ?_, ?_⟩
  · rw [hstock, hstock', List.filter_map]
    rfl
  · exact fun e he => hvault.holds _ (h.left e (hmem e he))
  · exact fun e he => hvault'.holds _ (h.right e (hmem e he))
  · intro e he
    rw [hvault.bytes _ (h.left e (hmem e he)), hvault'.bytes _ (h.right e (hmem e he)),
      h.bytes e (hmem e he)]
  · exact fun e he e' he' => h.injective e (hmem e he) e' (hmem e' he')

end Custody

end StreamDigest
