import StreamDigest.Proofs.Session.Step
import StreamDigest.Proofs.Without

namespace StreamDigest

/-- Whether a handle stands for a key. -/
def Custody.lists (k : Custody) (handle : UInt64) (key : Key) : Bool :=
  k.entries.any fun e => e.handle = handle && e.key = key

theorem Custody.lists_eq_false {k : Custody} {handle : UInt64} {key : Key}
    (h : k.lists handle key = false) : ∀ e ∈ k.entries, e.handle = handle → e.key ≠ key := by
  intro e he hh hk
  simpa [hh, hk] using List.any_eq_false.mp h e he

theorem Custody.exists_of_lists {k : Custody} {handle : UInt64} {key : Key}
    (h : k.lists handle key = true) : ∃ e ∈ k.entries, e.handle = handle ∧ e.key = key := by
  simpa [lists] using h

namespace Session

variable {σ : Type} {s : Session σ} {a : Action} {site : Place} {k : Custody} {key : Key}

/-- The session as it is when a key has been taken out of the store that it was in. -/
def without (s : Session σ) (key : Key) : Session σ :=
  { s with
    vault := s.vault.release key
    stores := s.stores.map fun store => store.without key }

/-- Whether an action asks a store for the key, by its handle or as one that the caller holds, or
looks at the references to it. -/
def asksFor (s : Session σ) (key : Key) : Action → Bool
  | .remove place handle | .resolve place handle | .beginMacFromHandle _ handle place _ =>
    (s.custody? place).any fun k => k.lists handle key
  | .copyForSigning place number | .isLive place number | .beginMac _ number place _
  | .mac _ number place .. =>
    s.key? number = some key && (s.custody? place).any fun k => key ∈ k.keys
  | .inspectKey number => s.key? number = some key
  | _ => false

/-- The key has a reference and its handle to itself, and is no signing copy of any store. -/
structure Spares (s : Session σ) (key : Key) : Prop where
  pos : 0 < s.vault.references key
  copies : ∀ n k, s.custody? (.store n) = some k → key ∉ k.copies
  reserves : ∀ n k, s.custody? (.store n) = some k → k.Reserves key

theorem vault_of_custody? (hk : s.custody? site = some k) : k.vault = s.vault := by
  cases site with
  | direct =>
    cases hk
    rfl
  | store n =>
    obtain ⟨_, _, rfl⟩ := Option.map_eq_some_iff.mp hk
    rfl

theorem Spares.custody (h : s.Spares key) (hk : s.custody? site = some k) : k.Spares key := by
  have hpos : 0 < k.vault.references key := vault_of_custody? hk ▸ h.pos
  cases site with
  | direct =>
    cases hk
    exact ⟨hpos, List.not_mem_nil, fun _ hs => nomatch hs⟩
  | store n => exact ⟨hpos, h.copies n k hk, h.reserves n k hk⟩

@[simp]
theorem key?_without (s : Session σ) (key : Key) (number : Nat) :
    (s.without key).key? number = s.key? number := rfl

@[simp]
theorem computation?_without (s : Session σ) (key : Key) (number : Nat) :
    (s.without key).computation? number = s.computation? number := rfl

@[simp]
theorem vault_without (s : Session σ) (key : Key) :
    (s.without key).vault = s.vault.release key := rfl

@[simp]
theorem service_without (s : Session σ) (key : Key) : (s.without key).service = s.service := rfl

theorem custody?_without (s : Session σ) (key : Key) (site : Place) :
    (s.without key).custody? site = (s.custody? site).map fun k => k.without key := by
  cases site with
  | direct => rfl
  | store n =>
    rw [custody?, custody?, without, Array.getElem?_map]
    cases s.stores[n]? <;> rfl

@[simp]
theorem keep_without (s : Session σ) (key : Key) (site : Place) (k : Custody) :
    (s.without key).keep site (k.without key) = (s.keep site k).without key := by
  obtain ⟨vault, _ | store⟩ := k
  · cases site <;> rfl
  · cases site with
    | direct => rfl
    | store n =>
      have hmap : (s.stores.map fun store => store.without key).setIfInBounds n (store.without key) =
          (s.stores.setIfInBounds n store).map fun store => store.without key :=
        Array.map_setIfInBounds.symm
      exact congrArg (fun stores => ({ s with vault := vault.release key, stores } : Session σ)) hmap

@[simp]
theorem addKey_without (s : Session σ) (key other : Key) :
    (s.without key).addKey other = ((s.addKey other).1, (s.addKey other).2.without key) := rfl

@[simp]
theorem addComputation_without (s : Session σ) (key : Key)
    (begun : Except Fault (Computation σ)) : (s.without key).addComputation begun =
      ((s.addComputation begun).1, (s.addComputation begun).2.without key) := by
  cases begun <;> rfl

@[simp]
theorem replace_without (s : Session σ) (key : Key) (number : Nat) (before after : Computation σ) :
    (s.without key).replace number before after = (s.replace number before after).without key := by
  simp [replace, without, Vault.settle_release]

/-- The action does the same whether or not the key is there. -/
def Indifferent (s : Session σ) (key : Key) (a : Action) : Prop :=
  (s.without key).perform? a = (s.perform? a).map fun x => (x.1, x.2.without key)

variable {number : Nat} {handle : UInt64} {place : Place} {other : Key}

theorem indifferent_cloneKey (h : s.Spares key) (number : Nat) :
    s.Indifferent key (.cloneKey number) := by
  cases hn : s.key? number with
  | none => simp [Indifferent, perform?, hn]
  | some other =>
    have hr := Vault.retain_release h.pos other
    simp only [Indifferent, perform?, key?_without, hn, vault_without, Option.bind_eq_bind,
      Option.bind_some, hr]
    rfl

theorem indifferent_signingCopy (h : s.Spares key) (number : Nat) :
    s.Indifferent key (.signingCopy number) := by
  cases hn : s.key? number with
  | none => simp [Indifferent, perform?, hn]
  | some other =>
    have hc := Vault.signingCopy_release (Vault.holds_of_references_pos h.pos) other
    simp only [Indifferent, perform?, key?_without, hn, vault_without, Option.bind_eq_bind,
      Option.bind_some, hc]
    rfl

theorem indifferent_dropKey (s : Session σ) (key : Key) (number : Nat) :
    s.Indifferent key (.dropKey number) := by
  cases hn : s.key? number with
  | none => simp [Indifferent, perform?, hn]
  | some other =>
    have hr := s.vault.release_release key other
    simp only [Indifferent, perform?, key?_without, hn, vault_without, Option.bind_eq_bind,
      Option.bind_some, hr]
    rfl

theorem indifferent_inspectKey (ha : s.asksFor key (.inspectKey number) = false) :
    s.Indifferent key (.inspectKey number) := by
  cases hn : s.key? number with
  | none => simp [Indifferent, perform?, hn]
  | some other =>
    have hne : key ≠ other := by
      rintro rfl
      simp [asksFor, hn] at ha
    have hf := Vault.find?_release s.vault key other
    rw [if_neg hne] at hf
    cases hm : s.vault.find? other <;> simp [Indifferent, perform?, hn, hf, hm]

theorem indifferent_sameMaterial (s : Session σ) (key : Key) (number other : Nat) :
    s.Indifferent key (.sameMaterial number other) := by
  cases hn : s.key? number with
  | none => simp [Indifferent, perform?, hn]
  | some x => cases ho : s.key? other <;> simp [Indifferent, perform?, hn, ho]

theorem indifferent_insert (h : s.Spares key) (place : Place) (bytes : Bytes) (hardware : Bool) :
    s.Indifferent key (.insert place bytes hardware) := by
  cases hk : s.custody? place with
  | none => simp [Indifferent, perform?, custody?_without, hk]
  | some k =>
    have hi := (h.custody hk).insert?_without bytes hardware
    cases hx : k.insert? bytes hardware <;>
      simp [Indifferent, perform?, custody?_without, hk, hi, hx]

theorem indifferent_remove (ha : s.asksFor key (.remove place handle) = false) :
    s.Indifferent key (.remove place handle) := by
  cases hk : s.custody? place with
  | none => simp [Indifferent, perform?, custody?_without, hk]
  | some k =>
    have hne := Custody.lists_eq_false (by simpa [asksFor, hk] using ha)
    have hr := Custody.remove?_without hne
    cases hx : k.remove? handle <;> simp [Indifferent, perform?, custody?_without, hk, hr, hx]

theorem indifferent_resolve (h : s.Spares key) (ha : s.asksFor key (.resolve place handle) = false) :
    s.Indifferent key (.resolve place handle) := by
  cases hk : s.custody? place with
  | none => simp [Indifferent, perform?, custody?_without, hk]
  | some k =>
    have hne := Custody.lists_eq_false (by simpa [asksFor, hk] using ha)
    have hr := (h.custody hk).resolve_without hne
    rcases hx : k.resolve handle with ⟨e | other, l⟩ <;>
      simp [Indifferent, perform?, custody?_without, hk, hr, hx]

theorem indifferent_outstanding (h : s.Spares key) (place : Place) :
    s.Indifferent key (.outstanding place) := by
  cases hk : s.custody? place with
  | none => simp [Indifferent, perform?, custody?_without, hk]
  | some k =>
    have ho := (h.custody hk).outstanding?_without
    cases hx : k.outstanding? <;> simp [Indifferent, perform?, custody?_without, hk, ho, hx]

/-- A key that the caller holds is another one, or it is not stored where it is used. -/
theorem apart_of_asksFor (hn : s.key? number = some other) (hk : s.custody? place = some k)
    (ha : (s.key? number = some key && (s.custody? place).any fun k => key ∈ k.keys) = false) :
    other ≠ key ∨ key ∉ k.keys := by
  simpa [hn, hk, or_iff_not_imp_left] using ha

theorem indifferent_copyForSigning (h : s.Spares key)
    (ha : s.asksFor key (.copyForSigning place number) = false) :
    s.Indifferent key (.copyForSigning place number) := by
  cases hk : s.custody? place with
  | none => simp [Indifferent, perform?, custody?_without, hk]
  | some k =>
    cases hn : s.key? number with
    | none => simp [Indifferent, perform?, custody?_without, hk, hn]
    | some other =>
      have hc := (h.custody hk).copyForSigning_without (apart_of_asksFor hn hk ha)
      rcases hx : k.copyForSigning other with ⟨_ | copy, l⟩ <;>
        simp [Indifferent, perform?, custody?_without, hk, hn, hc, hx]

theorem indifferent_isLive (ha : s.asksFor key (.isLive place number) = false) :
    s.Indifferent key (.isLive place number) := by
  cases hk : s.custody? place with
  | none => simp [Indifferent, perform?, custody?_without, hk]
  | some k =>
    cases hn : s.key? number with
    | none => simp [Indifferent, perform?, custody?_without, hk, hn]
    | some other =>
      have hl := Custody.isLive_without (apart_of_asksFor hn hk ha)
      simp [Indifferent, perform?, custody?_without, hk, hn, hl]

theorem indifferent_beginMac (h : s.Spares key) {a : Algorithm} {n : Nat}
    (ha : s.asksFor key (.beginMac a number place n) = false) :
    s.Indifferent key (.beginMac a number place n) := by
  cases hn : s.key? number with
  | none => simp [Indifferent, perform?, hn]
  | some other =>
    cases hk : s.custody? place with
    | none => simp [Indifferent, perform?, custody?_without, hk, hn]
    | some k =>
      have hm := (s.service.on n).beginMac_without a (h.custody hk) (apart_of_asksFor hn hk ha)
      simp [Indifferent, perform?, custody?_without, hk, hn, hm]

theorem indifferent_beginMacFromHandle (h : s.Spares key) {a : Algorithm} {n : Nat}
    (ha : s.asksFor key (.beginMacFromHandle a handle place n) = false) :
    s.Indifferent key (.beginMacFromHandle a handle place n) := by
  cases hk : s.custody? place with
  | none => simp [Indifferent, perform?, custody?_without, hk]
  | some k =>
    have hne := Custody.lists_eq_false (by simpa [asksFor, hk] using ha)
    have hm := (s.service.on n).beginMacFromHandle_without a (h.custody hk) hne
    simp [Indifferent, perform?, custody?_without, hk, hm]

theorem indifferent_mac (h : s.Spares key) {a : Algorithm} {data : Bytes} {n : Nat}
    (ha : s.asksFor key (.mac a number place data n) = false) :
    s.Indifferent key (.mac a number place data n) := by
  cases hn : s.key? number with
  | none => simp [Indifferent, perform?, hn]
  | some other =>
    cases hk : s.custody? place with
    | none => simp [Indifferent, perform?, custody?_without, hk, hn]
    | some k =>
      have hm := (s.service.on n).mac_without a (h.custody hk) (apart_of_asksFor hn hk ha) data
      simp [Indifferent, perform?, custody?_without, hk, hn, hm]

theorem indifferent (h : s.Spares key) (ha : s.asksFor key a = false) : s.Indifferent key a := by
  cases a with
  | key bytes usage =>
    have hd := Vault.deposit_release (Vault.holds_of_references_pos h.pos) bytes usage
    simp only [Indifferent, perform?, vault_without, hd]
    rfl
  | cloneKey number => exact indifferent_cloneKey h number
  | signingCopy number => exact indifferent_signingCopy h number
  | dropKey number => exact s.indifferent_dropKey key number
  | inspectKey number => exact indifferent_inspectKey ha
  | sameMaterial number other => exact s.indifferent_sameMaterial key number other
  | insert place bytes hardware => exact indifferent_insert h place bytes hardware
  | remove place handle => exact indifferent_remove ha
  | resolve place handle => exact indifferent_resolve h ha
  | copyForSigning place number => exact indifferent_copyForSigning h ha
  | isLive place number => exact indifferent_isLive ha
  | outstanding place => exact indifferent_outstanding h place
  | beginDigest | beginDigestNamed => exact congrArg some (addComputation_without s key _)
  | beginMac a number place n => exact indifferent_beginMac h ha
  | beginMacFromHandle a handle place n => exact indifferent_beginMacFromHandle h ha
  | digest a data n => rfl
  | mac a number place data n => exact indifferent_mac h ha
  | inspect number | call number | feedPieces number =>
    cases hc : s.computation? number <;> simp [Indifferent, perform?, hc]
  | drop number =>
    cases hc : s.computation? number with
    | none => simp [Indifferent, perform?, hc]
    | some c =>
      simp only [Indifferent, perform?, computation?_without, hc, replace_without]
      rfl

theorem perform_without (h : s.Spares key) (ha : s.asksFor key a = false) :
    (s.without key).perform a = ((s.perform a).1, (s.perform a).2.without key) := by
  have hp := indifferent h ha
  rw [Indifferent] at hp
  rw [perform, perform, hp]
  cases s.perform? a <;> rfl

end Session

end StreamDigest
