import StreamDigest.Proofs.Account

namespace StreamDigest

namespace Vault

variable {v w : Vault} {key : Key}

theorem ext_find? (h : ∀ k, v.find? k = w.find? k) : v = w := by
  cases v
  cases w
  congr 1
  exact Array.ext_getElem? fun i => h ⟨i⟩

theorem release_release (v : Vault) (key other : Key) :
    (v.release key).release other = (v.release other).release key := by
  refine ext_find? fun k => ?_
  simp only [find?_release]
  by_cases hk : key = k <;> by_cases ho : other = k <;> simp [hk, ho]

theorem holds_of_references_pos (h : 0 < v.references key) : v.Holds key := by
  by_contra hn
  rw [references_of_not_holds hn] at h
  exact Nat.lt_irrefl 0 h

/-- There is a reference besides the one that is given up. -/
theorem retain_release (h : 0 < v.references key) (other : Key) :
    (v.release key).retain other = (v.retain other).release key := by
  refine ext_find? fun k => ?_
  simp only [find?_release, find?_retain]
  by_cases hk : key = k
  · by_cases ho : other = k
    · subst hk
      obtain ⟨m, hm⟩ := find?_eq_some (holds_of_references_pos h)
      have hpos : 0 < m.references := by simpa [references_eq, hm] using h
      have hsub : m.references - 1 + 1 = m.references := by omega
      simp [ho, hm, hsub]
    · simp [hk, ho]
  · by_cases ho : other = k <;> simp [hk, ho]

theorem deposit_release (h : v.Holds key) (b : Bytes) (usage : Usage) :
    (v.release key).deposit b usage =
      ((v.deposit b usage).1, (v.deposit b usage).2.release key) := by
  have hkey : ((v.release key).deposit b usage).1 = (v.deposit b usage).1 := by
    simp [deposit, release]
  have hne : key ≠ (v.deposit b usage).1 := by
    rintro rfl
    exact v.not_holds_deposit b usage h
  refine Prod.ext hkey (ext_find? fun k => ?_)
  simp only [find?_deposit, find?_release, hkey]
  by_cases hk : k = (v.deposit b usage).1
  · simp [hk, hne]
  · simp [hk]

theorem signingCopy_release (h : v.Holds key) (other : Key) :
    (v.release key).signingCopy other =
      ((v.signingCopy other).1, (v.signingCopy other).2.release key) := by
  rw [signingCopy, bytes_release, deposit_release h]
  rfl

theorem settle_release (v : Vault) (key : Key) (before after : Option Binding) :
    (v.release key).settle before after = (v.settle before after).release key := by
  unfold settle
  split
  · exact v.release_release _ _
  · rfl

end Vault

/-- The store as it is without a key. -/
def KeyStore.without (s : KeyStore) (key : Key) : KeyStore :=
  { s with entries := s.entries.filter fun e => e.key ≠ key }

def KeySource.without (source : KeySource) (key : Key) : KeySource :=
  match source with
  | .direct => .direct
  | .store s => .store (s.without key)

namespace Custody

/-- Nothing of the key is stored, and one reference to it is given up. -/
def without (k : Custody) (key : Key) : Custody where
  vault := k.vault.release key
  source := k.source.without key

/-- The next key that is stored will get another handle than `key` has. -/
def Reserves (k : Custody) (key : Key) : Prop :=
  ∀ s, k.stock = some s → ∀ e ∈ s.2, e.key = key → e.handle ≠ s.1 + 1

/-- The key has a reference and its handle to itself, and is no signing copy. -/
structure Spares (k : Custody) (key : Key) : Prop where
  pos : 0 < k.vault.references key
  copies : key ∉ k.copies
  reserves : k.Reserves key

end Custody

namespace KeyStore

variable {s : KeyStore} {key other : Key}

/-- To strike out what is not looked for makes no difference to what is found. -/
theorem find?_filter_of_imp {p q : Entry → Bool} {entries : List Entry}
    (h : ∀ e ∈ entries, p e = true → q e = true) :
    (entries.filter q).find? p = entries.find? p := by
  rw [← List.head?_filter, ← List.head?_filter, List.filter_filter]
  refine congrArg List.head? (List.filter_congr fun e he => ?_)
  cases hp : p e with
  | false => rfl
  | true => rw [h e he hp, Bool.and_self]

theorem entry?_without {handle : UInt64} (h : ∀ e ∈ s.entries, e.handle = handle → e.key ≠ key) :
    KeyStore.entry? (s.without key) handle = s.entry? handle := by
  refine find?_filter_of_imp fun e he hh => ?_
  simpa using h e he (by simpa using hh)

theorem entryOf?_without (h : other ≠ key ∨ key ∉ s.entries.map Entry.key) :
    (s.without key).entryOf? other = s.entryOf? other := by
  refine find?_filter_of_imp fun e he hk => ?_
  obtain rfl : e.key = other := by simpa using hk
  have hne : e.key ≠ key := by
    rcases h with hne | hm
    · exact hne
    · exact fun hkey => hm (hkey ▸ List.mem_map_of_mem he)
  simpa using hne

/-- What becomes of the references to a key makes no difference to copies of other keys. -/
theorem prune_release (v : Vault) (h : key ∉ s.copies) :
    (s.without key).prune (v.release key) = (s.prune v).without key := by
  have hcopies : s.copies.filter (fun copy => 0 < (v.release key).references copy) =
      s.copies.filter fun copy => 0 < v.references copy := by
    refine List.filter_congr fun copy hm => ?_
    have hne : key ≠ copy := fun heq => h (heq ▸ hm)
    rw [Vault.references_release, if_neg hne, Nat.sub_zero]
  rw [prune, prune, without, without]
  simp only [hcopies]

theorem remove_release (v : Vault) {handle : UInt64}
    (h : KeyStore.entry? (s.without key) handle = s.entry? handle) :
    (s.without key).remove (v.release key) handle =
      ((s.remove v handle).1, (s.remove v handle).2.1.without key,
        (s.remove v handle).2.2.release key) := by
  rw [remove, h, remove]
  cases s.entry? handle with
  | none => rfl
  | some e =>
    have hcomm : (s.entries.filter fun e => e.key ≠ key).filter (fun e => e.handle ≠ handle) =
        (s.entries.filter fun e => e.handle ≠ handle).filter fun e => e.key ≠ key := by
      simp only [List.filter_filter, Bool.and_comm]
    simp only [without, hcomm, v.release_release key]

theorem put_without {e : Entry} (h : e.key ≠ key) :
    (s.without key).put e = (s.put e).without key := by
  simp [put, without, h]

end KeyStore

namespace Custody

variable {k l : Custody} {key other : Key}

@[simp]
theorem vault_without (k : Custody) (key : Key) : (k.without key).vault = k.vault.release key := rfl

theorem entries_without (k : Custody) (key : Key) :
    (k.without key).entries = k.entries.filter fun e => e.key ≠ key := by
  obtain ⟨vault, _ | s⟩ := k <;> rfl

theorem release_without (k : Custody) (key other : Key) :
    (k.without key).release other = (k.release other).without key := by
  simp [release, without, k.vault.release_release]

theorem settle_without (k : Custody) (key : Key) (before after : Option Binding) :
    (k.without key).settle before after = (k.settle before after).without key := by
  simp [settle, without, Vault.settle_release]

theorem Spares.holds (h : k.Spares key) : k.vault.Holds key :=
  Vault.holds_of_references_pos h.pos

theorem Spares.retain_without (h : k.Spares key) (other : Key) :
    { k.without key with vault := (k.without key).vault.retain other } =
      ({ k with vault := k.vault.retain other } : Custody).without key := by
  simp [without, Vault.retain_release h.pos]

theorem Spares.retain (h : k.Spares key) (other : Key) :
    ({ k with vault := k.vault.retain other } : Custody).Spares key := by
  refine ⟨?_, h.copies, h.reserves⟩
  rw [Vault.references_retain h.holds]
  exact Nat.add_pos_left h.pos _

theorem Spares.resolve_without (h : k.Spares key) {handle : UInt64}
    (hne : ∀ e ∈ k.entries, e.handle = handle → e.key ≠ key) :
    (k.without key).resolve handle = ((k.resolve handle).1, (k.resolve handle).2.without key) := by
  have hfind : (k.without key).entries.find? (fun e => e.handle = handle) =
      k.entries.find? fun e => e.handle = handle := by
    rw [entries_without]
    refine KeyStore.find?_filter_of_imp fun e he hh => ?_
    simpa using hne e he (by simpa using hh)
  cases he : k.entries.find? fun e => decide (e.handle = handle) with
  | some e => rw [resolve_of_find? (hfind.trans he), resolve_of_find? he, h.retain_without]
  | none => rw [resolve_of_absent (hfind.trans he), resolve_of_absent he]

theorem Spares.resolve (h : k.Spares key) (handle : UInt64) : (k.resolve handle).2.Spares key := by
  cases he : k.entries.find? fun e => decide (e.handle = handle) with
  | some e =>
    rw [resolve_of_find? he]
    exact h.retain e.key
  | none =>
    rw [resolve_of_absent he]
    exact h

theorem isLive_without (h : other ≠ key ∨ key ∉ k.keys) :
    (k.without key).isLive other = k.isLive other := by
  obtain ⟨vault, _ | s⟩ := k
  · simp [isLive, without, KeySource.without]
  · have hs : (s.without key).entryOf? other = s.entryOf? other := KeyStore.entryOf?_without h
    simp [isLive, without, KeySource.without, hs]

theorem Spares.copyForSigning_without (h : k.Spares key) (hne : other ≠ key ∨ key ∉ k.keys) :
    (k.without key).copyForSigning other =
      ((k.copyForSigning other).1, (k.copyForSigning other).2.without key) := by
  have hcopy := Vault.signingCopy_release h.holds other
  have hcopies := h.copies
  obtain ⟨vault, _ | s⟩ := k
  · simp [copyForSigning, without, KeySource.without, hcopy]
  · have hs : (s.without key).entryOf? other = s.entryOf? other := KeyStore.entryOf?_without hne
    have hprune : (s.without key).prune ((vault.signingCopy other).2.release key) =
        (s.prune (vault.signingCopy other).2).without key := KeyStore.prune_release _ hcopies
    cases he : s.entryOf? other with
    | none => simp [copyForSigning, without, KeySource.without, hs, he]
    | some e =>
      obtain ⟨handle, stored, hardware⟩ := e
      cases hardware with
      | true => simp [copyForSigning, without, KeySource.without, hs, he]
      | false =>
        simp only [copyForSigning, without, KeySource.without, hs, he, hcopy, hprune]
        rfl

theorem Spares.insert?_without (h : k.Spares key) (b : Bytes) (hardware : Bool) :
    (k.without key).insert? b hardware =
      (k.insert? b hardware).map fun x => (x.1, x.2.without key) := by
  have hdeposit := Vault.deposit_release h.holds b .any
  have hne : (k.vault.deposit b .any).1 ≠ key := by
    rintro rfl
    exact k.vault.not_holds_deposit b .any h.holds
  have hreserves := h.reserves
  obtain ⟨vault, _ | s⟩ := k
  · rfl
  · have hentry : KeyStore.entry? (s.without key) (s.lastHandle + 1) =
        s.entry? (s.lastHandle + 1) :=
      KeyStore.entry?_without fun e he hh hkey => hreserves _ rfl e he hkey hh
    have hremove := KeyStore.remove_release (vault.deposit b .any).2 hentry
    have hlast : (s.without key).lastHandle = s.lastHandle := rfl
    simp only [insert?, without, KeySource.without, KeyStore.insert, hdeposit, hlast, hremove,
      Option.map_some, KeyStore.put_without (e := ⟨s.lastHandle + 1, _, hardware⟩) hne]

theorem remove?_without {handle : UInt64} (hne : ∀ e ∈ k.entries, e.handle = handle → e.key ≠ key) :
    (k.without key).remove? handle = (k.remove? handle).map fun x => (x.1, x.2.without key) := by
  obtain ⟨vault, _ | s⟩ := k
  · rfl
  · have hs : KeyStore.entry? (s.without key) handle = s.entry? handle := KeyStore.entry?_without hne
    simp only [remove?, without, KeySource.without, KeyStore.remove_release vault hs,
      Option.map_some]

theorem Spares.outstanding?_without (h : k.Spares key) :
    (k.without key).outstanding? = k.outstanding?.map fun x => (x.1, x.2.without key) := by
  obtain ⟨vault, _ | s⟩ := k
  · rfl
  · have hprune : (s.without key).prune (vault.release key) = (s.prune vault).without key :=
      KeyStore.prune_release _ h.copies
    simp only [outstanding?, without, KeySource.without, KeyStore.outstanding, hprune,
      Option.map_some]
    rfl

end Custody

namespace Service

variable {σ : Type} {k : Custody} {key other : Key}

theorem checkMac_without (s : Service σ) (a : Algorithm) (h : other ≠ key ∨ key ∉ k.keys) :
    s.checkMac a other (k.without key) = s.checkMac a other k := by
  simp [checkMac, Custody.isLive_without h]

theorem bindKey_without (s : Service σ) (h : k.Spares key) (hne : other ≠ key ∨ key ∉ k.keys) :
    s.bindKey other (k.without key) =
      ((s.bindKey other k).1, (s.bindKey other k).2.without key) := by
  have hcopy := h.copyForSigning_without hne
  unfold bindKey
  rw [hcopy]
  rcases hk : k.copyForSigning other with ⟨_ | copy, l⟩
  · cases Custody.copyForSigning_none hk
    cases s.policy.keyFallback with
    | true =>
      have hretain := h.retain_without other
      simp only [if_true, hretain]
    | false => rfl
  · rfl

theorem beginMac_without (s : Service σ) (a : Algorithm) (h : k.Spares key)
    (hne : other ≠ key ∨ key ∉ k.keys) :
    s.beginMac a other (k.without key) =
      ((s.beginMac a other k).1, (s.beginMac a other k).2.without key) := by
  rw [beginMac_eq, beginMac_eq]
  rw [s.checkMac_without a hne, s.bindKey_without h hne]
  cases s.checkMac a other k with
  | error e => rfl
  | ok _ =>
    rcases s.bindKey other k with ⟨e | binding, l⟩
    · rfl
    · simp only [Custody.vault_without, Vault.bytes_release]
      cases s.library.mac s.occasion a (l.vault.bytes binding.key) with
      | error e => simp [Custody.release_without]
      | ok primitive => rfl

theorem beginMacFromHandle_without (s : Service σ) (a : Algorithm) (h : k.Spares key)
    {handle : UInt64}
    (hne : ∀ e ∈ k.entries, e.handle = handle → e.key ≠ key) :
    s.beginMacFromHandle a handle (k.without key) =
      ((s.beginMacFromHandle a handle k).1, (s.beginMacFromHandle a handle k).2.without key) := by
  have hr := h.resolve_without hne
  have hspares := h.resolve handle
  rw [beginMacFromHandle_eq, beginMacFromHandle_eq]
  rw [hr]
  rcases hk : k.resolve handle with ⟨e | other, l⟩
  · rfl
  · rw [hk] at hspares
    have hother : other ≠ key := by
      obtain ⟨_, e, he, rfl⟩ := Custody.resolve_eq_ok hk
      exact hne e (List.mem_of_find?_eq_some he) (by simpa using List.find?_some he)
    simp only [s.beginMac_without a hspares (.inl hother), Custody.release_without]

theorem mac_without (s : Service σ) (a : Algorithm) (h : k.Spares key)
    (hne : other ≠ key ∨ key ∉ k.keys) (data : Bytes) :
    s.mac a other data (k.without key) =
      ((s.mac a other data k).1, (s.mac a other data k).2.without key) := by
  unfold mac
  rw [s.beginMac_without a h hne]
  rcases s.beginMac a other k with ⟨e | c, l⟩
  · rfl
  · simp only [Custody.settle_without]

end Service

end StreamDigest
