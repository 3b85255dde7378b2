import StreamDigest.Proofs.Computation
import StreamDigest.Proofs.Custody
import StreamDigest.Service

namespace StreamDigest

/-- A library that fails to set a computation up is not said to fail in the middle of one. -/
theorem Failure.onCreation_ne (e : Failure) (text : String) :
    e.onCreation ≠ .computation text := by
  unfold onCreation
  split <;> simp

namespace Service

variable {σ : Type} {s : Service σ} {a : Algorithm} {key : Key} {k l : Custody}

/-- The ways in which a digest begins or fails to. -/
inductive DigestBeginning (s : Service σ) (a : Algorithm) : Except Fault (Computation σ) → Prop
  | misused (hk : a.kind ≠ .digest) :
      DigestBeginning s a (.error (.unsupportedAlgorithm s!"{a.name} is not a digest"))
  | disabled (hk : a.kind = .digest) (hp : s.policy.permits a = false) :
      DigestBeginning s a (.error (.unsupportedAlgorithm s!"{a.name} (disabled)"))
  | failed {e} (hk : a.kind = .digest) (hp : s.policy.permits a = true)
      (he : s.library.digest s.occasion a = .error e) : DigestBeginning s a (.error e.onCreation)
  | begun {p} (hk : a.kind = .digest) (hp : s.policy.permits a = true)
      (hl : s.library.digest s.occasion a = .ok p) : DigestBeginning s a (.ok (.start a p none))

theorem beginDigest_beginning (s : Service σ) (a : Algorithm) :
    DigestBeginning s a (s.beginDigest a) := by
  unfold beginDigest askDigest checkPermitted
  by_cases hk : a.kind = .digest
  · by_cases hp : s.policy.permits a = true
    · cases hl : s.library.digest s.occasion a with
      | ok p => simpa [hk, hp, Exchange.run, hl] using DigestBeginning.begun hk hp hl
      | error e => simpa [hk, hp, Exchange.run, hl] using DigestBeginning.failed hk hp hl
    · have hp' := Bool.eq_false_iff.mpr hp
      simpa [hk, hp, Exchange.run] using DigestBeginning.disabled hk hp'
  · have misused : DigestBeginning s a _ := .misused hk
    simpa [hk, Exchange.run] using misused

theorem beginDigest_eq_ok_iff {c : Computation σ} : s.beginDigest a = .ok c ↔
    a.kind = .digest ∧ s.policy.permits a = true ∧
      ∃ p, s.library.digest s.occasion a = .ok p ∧ c = .start a p none := by
  have hb := s.beginDigest_beginning a
  generalize s.beginDigest a = r at hb
  cases hb with
  | misused hk => simp [hk]
  | disabled hk hp => simp [hp]
  | failed hk hp he => simp [he]
  | begun hk hp hl => simp [hk, hp, hl, eq_comm]

theorem binding_beginDigest {c : Computation σ} (h : s.beginDigest a = .ok c) :
    c.binding = none := by
  obtain ⟨_, _, p, _, rfl⟩ := beginDigest_eq_ok_iff.mp h
  rfl

theorem beginDigestNamed_eq (s : Service σ) (name : String) :
    s.beginDigestNamed name = (Algorithm.named name).bind s.beginDigest := by
  unfold beginDigestNamed askDigestNamed
  cases Algorithm.named name <;> rfl

theorem beginDigestNamed_eq_ok {name : String} {c : Computation σ}
    (h : s.beginDigestNamed name = .ok c) :
    ∃ a, Algorithm.named name = .ok a ∧ s.beginDigest a = .ok c := by
  rw [beginDigestNamed_eq] at h
  cases hn : Algorithm.named name with
  | error e => simp [hn, Except.bind] at h
  | ok a => exact ⟨a, rfl, by simpa [hn, Except.bind] using h⟩

theorem binding_beginDigestNamed {name : String} {c : Computation σ}
    (h : s.beginDigestNamed name = .ok c) : c.binding = none := by
  obtain ⟨a, _, hd⟩ := beginDigestNamed_eq_ok h
  exact binding_beginDigest hd

/-- The ways in which the look at an algorithm and a key before a MAC goes. -/
inductive MacCheck (s : Service σ) (a : Algorithm) (key : Key) (k : Custody) :
    Except Fault Unit → Prop
  | misused (hk : a.kind ≠ .mac) :
      MacCheck s a key k (.error (.unsupportedAlgorithm s!"{a.name} is not a MAC mechanism"))
  | disabled (hk : a.kind = .mac) (hp : s.policy.permits a = false) :
      MacCheck s a key k (.error (.unsupportedAlgorithm s!"{a.name} (disabled)"))
  | dead (hk : a.kind = .mac) (hp : s.policy.permits a = true) (hl : k.isLive key = false) :
      MacCheck s a key k (.error .invalidKeyHandle)
  | short (hk : a.kind = .mac) (hp : s.policy.permits a = true) (hl : k.isLive key = true)
      (hm : (k.vault.bytes key).length < s.policy.minKeyLen.toNat) :
      MacCheck s a key k (.error (.invalidKey
        s!"key is {(k.vault.bytes key).length} bytes, at least {s.policy.minKeyLen} required"))
  | passed (hk : a.kind = .mac) (hp : s.policy.permits a = true) (hl : k.isLive key = true)
      (hm : s.policy.minKeyLen.toNat ≤ (k.vault.bytes key).length) : MacCheck s a key k (.ok ())

theorem macCheck (s : Service σ) (a : Algorithm) (key : Key) (k : Custody) :
    MacCheck s a key k (s.checkMac a key k) := by
  unfold checkMac checkPermitted
  by_cases hk : a.kind = .mac
  · by_cases hp : s.policy.permits a = true
    · by_cases hl : k.isLive key = true
      · by_cases hm : (k.vault.bytes key).length < s.policy.minKeyLen.toNat
        · simpa [hk, hp, hl, hm, bind, Except.bind] using MacCheck.short hk hp hl hm
        · have hle := Nat.not_lt.mp hm
          simpa [hk, hp, hl, hm, bind, Except.bind, pure, Except.pure]
            using MacCheck.passed hk hp hl hle
      · have hl' := Bool.eq_false_iff.mpr hl
        simpa [hk, hp, hl, bind, Except.bind] using MacCheck.dead hk hp hl'
    · have hp' := Bool.eq_false_iff.mpr hp
      have disabled : MacCheck s a key k _ := .disabled hk hp'
      simpa [hk, hp, bind, Except.bind] using disabled
  · have misused : MacCheck s a key k _ := .misused hk
    simpa [hk, bind, Except.bind] using misused

theorem checkMac_eq_ok_iff : s.checkMac a key k = .ok () ↔
    a.kind = .mac ∧ s.policy.permits a = true ∧ k.isLive key = true ∧
      s.policy.minKeyLen.toNat ≤ (k.vault.bytes key).length := by
  have hc := s.macCheck a key k
  generalize s.checkMac a key k = r at hc
  cases hc with
  | misused hk => simp [hk]
  | disabled hk hp => simp [hp]
  | dead hk hp hl => simp [hl]
  | short hk hp hl hm => simp [hm]
  | passed hk hp hl hm => simp [hk, hp, hl, hm]

/-- The ways in which a MAC begins or fails to. -/
inductive MacBeginning (s : Service σ) (a : Algorithm) (key : Key) (k : Custody) :
    Except Fault (Computation σ) → Custody → Prop
  | refused {e} (h : s.checkMac a key k = .error e) : MacBeginning s a key k (.error e) k
  | unbound {e l} (h : s.checkMac a key k = .ok ()) (hb : s.bindKey key k = (.error e, l)) :
      MacBeginning s a key k (.error e) l
  | failed {b l e} (h : s.checkMac a key k = .ok ()) (hb : s.bindKey key k = (.ok b, l))
      (he : s.library.mac s.occasion a (l.vault.bytes b.key) = .error e) :
      MacBeginning s a key k (.error e.onCreation) (l.release b.key)
  | begun {b l p} (h : s.checkMac a key k = .ok ()) (hb : s.bindKey key k = (.ok b, l))
      (hp : s.library.mac s.occasion a (l.vault.bytes b.key) = .ok p) :
      MacBeginning s a key k (.ok (.start a p (some b))) l

theorem beginMac_eq (s : Service σ) (a : Algorithm) (key : Key) (k : Custody) :
    s.beginMac a key k =
      match s.checkMac a key k with
      | .error e => (.error e, k)
      | .ok () =>
        match s.bindKey key k with
        | (.error e, k) => (.error e, k)
        | (.ok b, k) =>
          match s.library.mac s.occasion a (k.vault.bytes b.key) with
          | .error e => (.error e.onCreation, k.release b.key)
          | .ok p => (.ok (.start a p (some b)), k) := by
  unfold beginMac askMac
  cases s.checkMac a key k with
  | error e => rfl
  | ok u =>
    rcases s.bindKey key k with ⟨e | b, l⟩
    · rfl
    · cases hp : s.library.mac s.occasion a (l.vault.bytes b.key) <;> simp [Exchange.run, hp]

theorem beginMacFromHandle_eq (s : Service σ) (a : Algorithm) (handle : UInt64) (k : Custody) :
    s.beginMacFromHandle a handle k =
      match k.resolve handle with
      | (.error e, k) => (.error e, k)
      | (.ok key, k) => ((s.beginMac a key k).1, (s.beginMac a key k).2.release key) := by
  unfold beginMacFromHandle askMacFromHandle
  rcases k.resolve handle with ⟨e | key, l⟩
  · rfl
  · exact Exchange.run_map _ _ _

theorem beginMac_beginning (s : Service σ) (a : Algorithm) (key : Key) (k : Custody) :
    MacBeginning s a key k (s.beginMac a key k).1 (s.beginMac a key k).2 := by
  rw [beginMac_eq]
  cases h : s.checkMac a key k with
  | error e => exact .refused h
  | ok u =>
    rcases hb : s.bindKey key k with ⟨e | b, l⟩
    · exact .unbound h hb
    · cases hp : s.library.mac s.occasion a (l.vault.bytes b.key) with
      | error e => simpa [hb, hp] using MacBeginning.failed h hb hp
      | ok p => simpa [hb, hp] using MacBeginning.begun h hb hp

theorem beginMac_eq_ok {c : Computation σ} (h : s.beginMac a key k = (.ok c, l)) :
    s.checkMac a key k = .ok () ∧ ∃ b p, s.bindKey key k = (.ok b, l) ∧
      s.library.mac s.occasion a (l.vault.bytes b.key) = .ok p ∧ c = .start a p (some b) := by
  have hm := beginMac_beginning s a key k
  rw [h] at hm
  cases hm with
  | begun hc hb hp => exact ⟨hc, _, _, hb, hp, rfl⟩

theorem beginMacFromHandle_eq_ok {handle : UInt64} {c : Computation σ}
    (h : s.beginMacFromHandle a handle k = (.ok c, l)) :
    ∃ key k' l', k.resolve handle = (.ok key, k') ∧ s.beginMac a key k' = (.ok c, l') ∧
      l = l'.release key := by
  rw [beginMacFromHandle_eq] at h
  rcases hr : k.resolve handle with ⟨e | key, k'⟩
  · simp [hr] at h
  · simp only [hr, Prod.mk.injEq] at h
    exact ⟨key, k', _, rfl, Prod.ext h.1 rfl, h.2.symm⟩

theorem bindKey_isSome : (∃ b, (s.bindKey key k).1 = .ok b) ↔
    (k.copyForSigning key).1.isSome ∨ s.policy.keyFallback = true := by
  unfold bindKey
  rcases k.copyForSigning key with ⟨_ | copy, l⟩
  · by_cases hf : s.policy.keyFallback = true <;> simp [hf]
  · simp

theorem kept_bindKey (s : Service σ) (key : Key) (k : Custody) : k.Kept (s.bindKey key k).2 := by
  have hc := k.kept_copyForSigning key
  unfold bindKey
  rcases hk : k.copyForSigning key with ⟨_ | copy, l⟩
  · rw [hk] at hc
    by_cases hf : s.policy.keyFallback = true
    · simpa [hf] using hc.trans (l.kept_retain key)
    · simpa [hf] using hc
  · rw [hk] at hc
    exact hc

theorem bindKey_eq_ok {b : Binding} (h : s.bindKey key k = (.ok b, l)) :
    (∃ copy, k.copyForSigning key = (some copy, l) ∧ b = .restricted copy) ∨
      (s.policy.keyFallback = true ∧ k.copyForSigning key = (none, k) ∧ b = .shared key ∧
        l = { k with vault := k.vault.retain key }) := by
  unfold bindKey at h
  rcases hk : k.copyForSigning key with ⟨_ | copy, l'⟩
  · obtain rfl := Custody.copyForSigning_none hk
    rw [hk] at h
    by_cases hf : s.policy.keyFallback = true
    · simp only [hf, if_true, Prod.mk.injEq, Except.ok.injEq] at h
      exact .inr ⟨hf, rfl, h.1.symm, h.2.symm⟩
    · simp [hf] at h
  · rw [hk] at h
    simp only [Prod.mk.injEq, Except.ok.injEq] at h
    obtain ⟨rfl, rfl⟩ := h
    exact .inl ⟨copy, rfl, rfl⟩

theorem bindKey_error {e : Fault} (h : s.bindKey key k = (.error e, l)) :
    e = .initialization "no signing copy of the key available" ∧ l = k ∧
      (k.copyForSigning key).1 = none ∧ s.policy.keyFallback = false := by
  unfold bindKey at h
  rcases hk : k.copyForSigning key with ⟨_ | copy, l'⟩
  · obtain rfl := Custody.copyForSigning_none hk
    rw [hk] at h
    by_cases hf : s.policy.keyFallback = true
    · simp [hf] at h
    · simp only [hf, if_false, Prod.mk.injEq, Except.error.injEq, Bool.false_eq_true] at h
      exact ⟨h.1.symm, h.2.symm, rfl, Bool.eq_false_iff.mpr hf⟩
  · simp [hk] at h

/-- A computation gets the bytes of the key that was asked for. -/
theorem bytes_bindKey {b : Binding} (h : s.bindKey key k = (.ok b, l)) :
    l.vault.bytes b.key = k.vault.bytes key := by
  rcases bindKey_eq_ok h with ⟨copy, hk, rfl⟩ | ⟨_, _, rfl, rfl⟩
  · obtain ⟨hv, hc⟩ := Custody.copyForSigning_bytes hk
    simp [Binding.key, hv, hc, Vault.signingCopy, Vault.bytes_deposit]
  · simp [Binding.key]

theorem kept_beginMac (s : Service σ) (a : Algorithm) (key : Key) (k : Custody) :
    k.Kept (s.beginMac a key k).2 := by
  have hk := s.kept_bindKey key k
  have hm := beginMac_beginning s a key k
  generalize (s.beginMac a key k).1 = r at hm
  generalize (s.beginMac a key k).2 = l at hm ⊢
  cases hm with
  | refused h => exact .refl k
  | unbound h hb =>
    rw [hb] at hk
    exact hk
  | failed h hb he =>
    rw [hb] at hk
    exact hk.trans (Custody.kept_release _ _)
  | begun h hb hp =>
    rw [hb] at hk
    exact hk

theorem kept_beginMacFromHandle (s : Service σ) (a : Algorithm) (handle : UInt64) (k : Custody) :
    k.Kept (s.beginMacFromHandle a handle k).2 := by
  have hr := k.kept_resolve handle
  rw [beginMacFromHandle_eq]
  rcases hk : k.resolve handle with ⟨e | key, l⟩
  · rw [hk] at hr
    exact hr
  · rw [hk] at hr
    exact (hr.trans (s.kept_beginMac a key l)).trans (Custody.kept_release _ key)

theorem beginMac_of_ok {b : Binding} {p : σ} (h : s.checkMac a key k = .ok ())
    (hb : s.bindKey key k = (.ok b, l)) (hp : s.library.mac s.occasion a (l.vault.bytes b.key) = .ok p) :
    s.beginMac a key k = (.ok (.start a p (some b)), l) := by
  simp [beginMac_eq, h, hb, hp]

/-- Custodies with the same stored keys make no difference to what a MAC computes. -/
theorem beginMac_alike {f : Key → Key} {k' : Custody} {e : Entry} {c : Computation σ}
    (h : Custody.Alike k l f) (he : e ∈ k.entries) (hc : s.beginMac a e.key k = (.ok c, k')) :
    ∃ d b, (s.beginMac a (f e.key) l).1 = .ok d ∧ c = d.rebind b := by
  obtain ⟨hm, b, p, hb, hp, rfl⟩ := beginMac_eq_ok hc
  obtain ⟨hkind, hpermit, hlive, hlen⟩ := checkMac_eq_ok_iff.mp hm
  have hm' : s.checkMac a (f e.key) l = .ok () := by
    refine checkMac_eq_ok_iff.mpr ⟨hkind, hpermit, h.isLive he hlive, ?_⟩
    rw [h.bytes e he]
    exact hlen
  obtain ⟨b', hb'⟩ : ∃ b', (s.bindKey (f e.key) l).1 = .ok b' := by
    rw [bindKey_isSome, h.copyForSigning he, ← bindKey_isSome, hb]
    exact ⟨b, rfl⟩
  have hbind : s.bindKey (f e.key) l = (.ok b', (s.bindKey (f e.key) l).2) := Prod.ext hb' rfl
  have hp' : s.library.mac s.occasion a ((s.bindKey (f e.key) l).2.vault.bytes b'.key) = .ok p := by
    rw [bytes_bindKey hbind, h.bytes e he, ← bytes_bindKey hb]
    exact hp
  refine ⟨_, some b, by rw [beginMac_of_ok hm' hbind hp'], rfl⟩

theorem beginMacFromHandle_alike {f : Key → Key} {k' : Custody} {handle : UInt64} {c : Computation σ}
    (h : Custody.Alike k l f) (hc : s.beginMacFromHandle a handle k = (.ok c, k')) :
    ∃ d b, (s.beginMacFromHandle a handle l).1 = .ok d ∧ c = d.rebind b := by
  obtain ⟨key, k₁, k₂, hr, hm, _⟩ := beginMacFromHandle_eq_ok hc
  obtain ⟨hk, e, he, rfl⟩ := Custody.resolve_eq_ok hr
  have he' : l.entries.find? (fun e => e.handle = handle) = some (e.rekey f) := by
    rw [h.find?_handle, he]
    rfl
  have hr' : l.resolve handle =
      (.ok (f e.key), { l with vault := l.vault.retain (f e.key) }) := Custody.resolve_of_find? he'
  have hkept := k.kept_resolve handle
  have hkept' := l.kept_resolve handle
  rw [hr] at hkept
  rw [hr'] at hkept'
  have hmem : e ∈ k₁.entries := by
    rw [hkept.entries]
    exact List.mem_of_find?_eq_some he
  obtain ⟨d, b, hd, hrebind⟩ := beginMac_alike (h.kept hkept hkept') hmem hm
  refine ⟨d, b, ?_, hrebind⟩
  rw [beginMacFromHandle_eq]
  rw [hr']
  exact hd

theorem beginDigest_ne (s : Service σ) (a : Algorithm) (text : String) :
    s.beginDigest a ≠ .error (.computation text) := by
  have hb := s.beginDigest_beginning a
  generalize s.beginDigest a = r at hb
  cases hb with
  | misused | disabled | begun => simp
  | failed hk hp he => simpa using Failure.onCreation_ne _ text

theorem checkMac_ne (s : Service σ) (a : Algorithm) (key : Key) (k : Custody) (text : String) :
    s.checkMac a key k ≠ .error (.computation text) := by
  have hc := s.macCheck a key k
  generalize s.checkMac a key k = r at hc
  cases hc <;> simp

theorem beginMac_ne (s : Service σ) (a : Algorithm) (key : Key) (k : Custody) (text : String) :
    (s.beginMac a key k).1 ≠ .error (.computation text) := by
  have hm := beginMac_beginning s a key k
  generalize (s.beginMac a key k).1 = r at hm ⊢
  generalize (s.beginMac a key k).2 = l at hm
  cases hm with
  | refused h =>
    have hne := s.checkMac_ne a key k text
    rw [h] at hne
    simpa using hne
  | unbound h hb => simp [(bindKey_error hb).1]
  | failed h hb he => simpa using Failure.onCreation_ne _ text
  | begun h hb hp => simp

end Service

end StreamDigest
