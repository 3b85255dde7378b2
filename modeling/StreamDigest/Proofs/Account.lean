import StreamDigest.Proofs.Service

namespace StreamDigest

namespace Vault

variable {v w : Vault} {key : Key} {copies handed : List Key}

/-- A store's list of its copies agrees with those that it has handed out, as far as there are
references to them. -/
structure Listed (v : Vault) (copies handed : List Key) : Prop where
  copies_nodup : copies.Nodup
  copies_hold : ∀ key ∈ copies, v.Holds key
  handed_nodup : handed.Nodup
  handed_hold : ∀ key ∈ handed, v.Holds key
  agree : ∀ key, 0 < v.references key → (key ∈ copies ↔ key ∈ handed)

theorem nil_listed (v : Vault) : v.Listed [] [] := by
  constructor <;> simp

theorem Listed.later (h : v.Listed copies handed) (hl : v.Later w) : w.Listed copies handed := by
  refine ⟨h.copies_nodup, fun key hk => hl.holds key (h.copies_hold key hk), h.handed_nodup,
    fun key hk => hl.holds key (h.handed_hold key hk), ?_⟩
  intro key hpos
  by_cases hold : v.Holds key
  · apply h.agree
    have hdead := hl.dead key hold
    omega
  · constructor
    · exact fun hc => absurd (h.copies_hold key hc) hold
    · exact fun hc => absurd (h.handed_hold key hc) hold

theorem Listed.prune (h : v.Listed copies handed) :
    v.Listed (copies.filter fun key => 0 < v.references key) handed := by
  refine ⟨h.copies_nodup.filter _, ?_, h.handed_nodup, h.handed_hold, ?_⟩
  · exact fun key hk => h.copies_hold key (List.mem_filter.mp hk).1
  · intro key hpos
    rw [List.mem_filter, ← h.agree key hpos]
    simp [hpos]

theorem Listed.cons (h : v.Listed copies handed) (hk : v.Holds key) (hc : key ∉ copies)
    (hh : key ∉ handed) : v.Listed (key :: copies) (key :: handed) := by
  refine ⟨List.nodup_cons.mpr ⟨hc, h.copies_nodup⟩, ?_,
    List.nodup_cons.mpr ⟨hh, h.handed_nodup⟩, ?_, ?_⟩
  · intro k hm
    rcases List.mem_cons.mp hm with rfl | hm
    · exact hk
    · exact h.copies_hold k hm
  · intro k hm
    rcases List.mem_cons.mp hm with rfl | hm
    · exact hk
    · exact h.handed_hold k hm
  · intro k hpos
    rw [List.mem_cons, List.mem_cons, h.agree k hpos]

/-- As many of a store's copies are listed with references as were handed out and have some. -/
theorem Listed.length_filter (h : v.Listed copies handed) :
    (copies.filter fun key => 0 < v.references key).length =
      (handed.filter fun key => 0 < v.references key).length := by
  apply List.Perm.length_eq
  apply (List.perm_ext_iff_of_nodup (h.copies_nodup.filter _) (h.handed_nodup.filter _)).mpr
  intro key
  rw [List.mem_filter, List.mem_filter]
  constructor
  · rintro ⟨hm, hpos⟩
    exact ⟨(h.agree key (by simpa using hpos)).mp hm, hpos⟩
  · rintro ⟨hm, hpos⟩
    exact ⟨(h.agree key (by simpa using hpos)).mpr hm, hpos⟩

end Vault

namespace Custody

variable {k l m : Custody} {key : Key} {handed new new' elsewhere elsewhere' : List Key}

def keys (k : Custody) : List Key :=
  k.entries.map Entry.key

def copies (k : Custody) : List Key :=
  match k.source with
  | .direct => []
  | .store s => s.copies

/-- Handles tell stored keys apart. -/
def Tidy (k : Custody) : Prop :=
  (k.entries.map Entry.handle).Nodup

theorem Tidy.handle_inj (h : k.Tidy) {e e' : Entry} (he : e ∈ k.entries) (he' : e' ∈ k.entries)
    (hh : e.handle = e'.handle) : e = e' :=
  List.inj_on_of_nodup_map h he he' hh

theorem Tidy.find?_handle (h : k.Tidy) {e : Entry} (he : e ∈ k.entries) :
    k.entries.find? (fun e' => e'.handle = e.handle) = some e := by
  cases hf : k.entries.find? fun e' => decide (e'.handle = e.handle) with
  | none =>
    have hne := List.find?_eq_none.mp hf e he
    simp at hne
  | some e' =>
    have hh : e'.handle = e.handle := by simpa using List.find?_some hf
    rw [h.handle_inj (List.mem_of_find?_eq_some hf) he hh]

/-- The books of a source that has handed out the copies `handed`, when there are the references
`elsewhere` besides its own. -/
structure Account (k : Custody) (handed elsewhere : List Key) : Prop where
  balanced : k.vault.Balanced (k.keys ++ elsewhere)
  tidy : k.Tidy
  listed : k.vault.Listed k.copies handed
  apart : ∀ key ∈ handed, key ∉ k.keys

/-- What comes of a source in some step, in which it hands out the copies `new` and after which there
are the references `elsewhere` besides its own. -/
structure Turn (k l : Custody) (handed new elsewhere : List Key) : Prop where
  account : l.Account (new ++ handed) elsewhere
  later : k.vault.Later l.vault
  fresh : ∀ key ∈ new, ¬k.vault.Holds key
  stored : ∀ key ∈ l.keys, key ∈ k.keys ∨ ¬k.vault.Holds key
  kind : l.source = .direct ↔ k.source = .direct

theorem Turn.trans (t : Turn k l handed new elsewhere)
    (t' : Turn l m (new ++ handed) new' elsewhere') :
    Turn k m handed (new' ++ new) elsewhere' := by
  refine ⟨by simpa using t'.account, t.later.trans t'.later, ?_, ?_, t'.kind.trans t.kind⟩
  · intro key hk hold
    rcases List.mem_append.mp hk with hk | hk
    · exact t'.fresh key hk (t.later.holds key hold)
    · exact t.fresh key hk hold
  · intro key hk
    rcases t'.stored key hk with hk | hn
    · exact t.stored key hk
    · exact .inr fun hold => hn (t.later.holds key hold)

theorem Account.stay (h : k.Account handed elsewhere) : Turn k k handed [] elsewhere :=
  ⟨h, .refl _, by simp, fun _ => .inl, Iff.rfl⟩

theorem Account.perm (h : k.Account handed elsewhere) (hp : elsewhere.Perm elsewhere') :
    k.Account handed elsewhere' :=
  ⟨h.balanced.perm (hp.append_left _), h.tidy, h.listed, h.apart⟩

theorem Turn.perm (t : Turn k l handed new elsewhere) (hp : elsewhere.Perm elsewhere') :
    Turn k l handed new elsewhere' :=
  ⟨t.account.perm hp, t.later, t.fresh, t.stored, t.kind⟩

/-- Only references came and went. -/
theorem Account.revault {w : Vault} (h : k.Account handed elsewhere) (hl : k.vault.Later w)
    (hb : w.Balanced (k.keys ++ elsewhere')) :
    Turn k { k with vault := w } handed [] elsewhere' :=
  ⟨⟨hb, h.tidy, h.listed.later hl, h.apart⟩, hl, by simp, fun _ => .inl, Iff.rfl⟩

theorem Account.retain (h : k.Account handed elsewhere) (hm : key ∈ k.keys ++ elsewhere) :
    Turn k { k with vault := k.vault.retain key } handed [] (key :: elsewhere) := by
  have hb := (h.balanced.retain hm).perm List.perm_middle.symm
  exact h.revault (Vault.later_retain (h.balanced.references_pos.mpr hm)) hb

theorem Account.release (h : k.Account handed (key :: elsewhere)) :
    Turn k (k.release key) handed [] elsewhere := by
  have hb := (h.balanced.perm List.perm_middle).release
  exact h.revault (k.vault.later_release key) hb

theorem Account.resolve {handle : UInt64} (h : k.Account handed elsewhere)
    (hr : k.resolve handle = (.ok key, l)) : Turn k l handed [] (key :: elsewhere) := by
  obtain ⟨rfl, e, he, rfl⟩ := resolve_eq_ok hr
  exact h.retain (List.mem_append_left _ (List.mem_map_of_mem (List.mem_of_find?_eq_some he)))

theorem resolve_error {handle : UInt64} {e : Fault} (h : k.resolve handle = (.error e, l)) : l = k := by
  unfold resolve at h
  split at h
  · cases h
    rfl
  · split at h
    · cases h
    · cases h
      rfl

/-- The copies that a store accounts for: without a store, there is no account of any. -/
def issued (k : Custody) (copy : Option Key) : List Key :=
  match k.source with
  | .direct => []
  | .store _ => copy.toList

/-- Material that a source takes in and somebody else refers to. -/
theorem Account.deposit (h : k.Account handed elsewhere) (b : Bytes) (usage : Usage) :
    Turn k { k with vault := (k.vault.deposit b usage).2 } handed []
      ((k.vault.deposit b usage).1 :: elsewhere) :=
  h.revault (k.vault.later_deposit b usage) ((h.balanced.deposit b usage).perm List.perm_middle.symm)

@[simp]
theorem issued_none (k : Custody) : k.issued none = [] := by
  unfold issued
  split <;> rfl

theorem Account.copyForSigning (h : k.Account handed elsewhere) (key : Key) :
    Turn k (k.copyForSigning key).2 handed (k.issued (k.copyForSigning key).1)
      ((k.copyForSigning key).1.toList ++ elsewhere) := by
  obtain ⟨vault, _ | s⟩ := k
  · exact h.deposit (vault.bytes key) .signing
  · unfold Custody.copyForSigning
    dsimp only
    split
    · have hnew := vault.not_holds_deposit (vault.bytes key) .signing
      have hb := (h.balanced.deposit (vault.bytes key) .signing).perm List.perm_middle.symm
      have hl := vault.later_deposit (vault.bytes key) .signing
      have hlisted := (h.listed.later hl).prune
      refine ⟨⟨hb, h.tidy, ?_, ?_⟩, hl, ?_, fun _ => .inl, by simp⟩
      · refine hlisted.cons (Vault.holds_deposit.mpr (.inr rfl)) ?_ ?_
        · exact fun hm => hnew (h.listed.copies_hold _ (List.mem_filter.mp hm).1)
        · exact fun hm => hnew (h.listed.handed_hold _ hm)
      · intro c hc
        rcases List.mem_cons.mp hc with rfl | hc
        · exact fun hm => hnew (h.balanced.holds (List.mem_append_left _ hm))
        · exact h.apart c hc
      · intro c hc
        rw [List.mem_singleton.mp hc]
        exact hnew
    · exact h.stay

/-- The one entry under a handle, and all others. -/
theorem perm_cons_filter_handle {entries : List Entry} {n : UInt64} {e : Entry}
    (hn : (entries.map Entry.handle).Nodup)
    (he : entries.find? (fun e => e.handle = n) = some e) :
    entries.Perm (e :: entries.filter fun e => e.handle ≠ n) := by
  induction entries with
  | nil => cases he
  | cons x rest ih =>
    rw [List.map_cons, List.nodup_cons] at hn
    by_cases hx : x.handle = n
    · rw [List.find?_cons_of_pos (by simpa using hx)] at he
      cases he
      have hrest : rest.filter (fun e => e.handle ≠ n) = rest := by
        apply List.filter_eq_self.mpr
        intro e he
        have hne : e.handle ≠ n := by
          rintro rfl
          exact hn.1 (hx ▸ List.mem_map_of_mem he)
        simpa using hne
      rw [List.filter_cons_of_neg (by simpa using hx), hrest]
    · rw [List.find?_cons_of_neg (by simpa using hx)] at he
      rw [List.filter_cons_of_pos (by simpa using hx)]
      exact ((ih hn.2 he).cons x).trans (.swap _ _ _)

theorem Account.remove {n : UInt64} {b : Bool} (h : k.Account handed elsewhere)
    (hr : k.remove? n = some (b, l)) : Turn k l handed [] elsewhere := by
  obtain ⟨vault, _ | s⟩ := k
  · cases hr
  · simp only [remove?, KeyStore.remove] at hr
    cases he : s.entry? n with
    | none =>
      rw [he] at hr
      cases hr
      exact h.stay
    | some e =>
      rw [he] at hr
      cases hr
      have hperm := perm_cons_filter_handle h.tidy he
      have hl := vault.later_release e.key
      have hmem : ∀ e' ∈ s.entries.filter (fun e => e.handle ≠ n), e' ∈ s.entries :=
        fun e' he' => (List.mem_filter.mp he').1
      refine ⟨⟨?_, ?_, h.listed.later hl, ?_⟩, hl, by simp, ?_, by simp⟩
      · exact (h.balanced.perm ((hperm.map Entry.key).append_right elsewhere)).release
      · exact h.tidy.sublist (List.filter_sublist.map Entry.handle)
      · intro c hc hm
        obtain ⟨e', he', rfl⟩ := List.mem_map.mp hm
        exact h.apart _ hc (List.mem_map_of_mem (hmem e' he'))
      · intro c hm
        obtain ⟨e', he', rfl⟩ := List.mem_map.mp hm
        exact .inl (List.mem_map_of_mem (hmem e' he'))

/-- A key gets under a handle that no other has. -/
theorem Account.put {s : KeyStore} {e : Entry} (h : k.Account handed (e.key :: elsewhere))
    (hs : k.source = .store s) (hh : ∀ e' ∈ k.entries, e'.handle ≠ e.handle)
    (hk : e.key ∉ handed) : ({ k with source := .store (s.put e) } : Custody).Account handed
      elsewhere := by
  obtain ⟨vault, source⟩ := k
  subst hs
  refine ⟨h.balanced.perm List.perm_middle, ?_, h.listed, ?_⟩
  · refine List.nodup_cons.mpr ⟨fun hm => ?_, h.tidy⟩
    obtain ⟨e', he', heq⟩ := List.mem_map.mp hm
    exact hh e' he' heq
  · intro c hc hm
    rcases List.mem_cons.mp hm with rfl | hm
    · exact hk hc
    · exact h.apart c hc hm

theorem Account.insert {b : Bytes} {hardware : Bool} {n : UInt64} (h : k.Account handed elsewhere)
    (hi : k.insert? b hardware = some (n, l)) : Turn k l handed [] elsewhere := by
  obtain ⟨s, hs, _⟩ := insert?_eq_some hi
  obtain ⟨removed, m, t, hr, ht, hi'⟩ := insert?_of_stock hs b hardware
  cases hi.symm.trans hi'
  have turn := (h.deposit b .any).trans ((h.deposit b .any).account.remove hr)
  obtain ⟨s', hs', _, hm, _⟩ := remove?_eq_some hr
  cases hs.symm.trans hs'
  have hnew := k.vault.not_holds_deposit b .any
  have account := turn.account.put (e := ⟨s.1 + 1, _, hardware⟩) ht
    (by simp [entries_eq hm]) fun hc => hnew (h.listed.handed_hold _ hc)
  refine ⟨account, turn.later, by simp, ?_, by rw [← turn.kind, ht]; simp⟩
  intro key hk
  rcases List.mem_cons.mp hk with rfl | hk
  · exact .inr hnew
  · refine turn.stored key ?_
    rwa [keys, entries, stock, ht]

theorem Account.outstanding {n : Nat} (h : k.Account handed elsewhere)
    (ho : k.outstanding? = some (n, l)) : Turn k l handed [] elsewhere := by
  obtain ⟨vault, _ | s⟩ := k
  · cases ho
  · cases ho
    exact ⟨⟨h.balanced, h.tidy, h.listed.prune, h.apart⟩, .refl _, by simp, fun _ => .inl, by simp⟩

end Custody

/-- The key of a binding, if there is one. -/
def Binding.held (b : Option Binding) : List Key :=
  (b.map Binding.key).toList

@[simp]
theorem Binding.held_none : Binding.held none = [] := rfl

@[simp]
theorem Binding.held_some (b : Binding) : Binding.held (some b) = [b.key] := rfl

theorem Custody.Account.settle {k : Custody} {handed elsewhere : List Key}
    {before after : Option Binding}
    (h : k.Account handed (Binding.held before ++ elsewhere)) (hb : after = before ∨ after = none) :
    Custody.Turn k (k.settle before after) handed [] (Binding.held after ++ elsewhere) := by
  rcases hb with rfl | rfl
  · cases after with
    | none => exact h.stay
    | some b => exact h.stay
  · cases before with
    | none => exact h.stay
    | some b => exact h.release

namespace Service

variable {σ : Type} {s : Service σ} {a : Algorithm} {key : Key} {k l : Custody}
  {handed elsewhere : List Key}

/-- The signing copy that beginning a MAC asks for and gets. -/
def copyMade (s : Service σ) (a : Algorithm) (key : Key) (k : Custody) : Option Key :=
  match s.checkMac a key k with
  | .ok () => (k.copyForSigning key).1
  | .error _ => none

def copyMadeFromHandle (s : Service σ) (a : Algorithm) (handle : UInt64) (k : Custody) : Option Key :=
  match k.resolve handle with
  | (.ok key, l) => s.copyMade a key l
  | (.error _, _) => none

/-- The key that a new computation holds on to. -/
def heldBy (begun : Except Fault (Computation σ)) : List Key :=
  match begun with
  | .ok c => Binding.held c.binding
  | .error _ => []

@[simp]
theorem heldBy_error (e : Fault) : heldBy (.error e : Except Fault (Computation σ)) = [] := rfl

@[simp]
theorem heldBy_start (p : σ) (b : Option Binding) :
    heldBy (.ok (.start a p b)) = Binding.held b := rfl

theorem bindKey_turn (s : Service σ) (h : k.Account handed elsewhere)
    (hm : key ∈ k.keys ++ elsewhere) :
    Custody.Turn k (s.bindKey key k).2 handed (k.issued (k.copyForSigning key).1)
      ((match (s.bindKey key k).1 with | .ok b => [b.key] | .error _ => []) ++ elsewhere) := by
  have t := h.copyForSigning key
  unfold bindKey
  rcases hc : k.copyForSigning key with ⟨_ | copy, l⟩
  · have hl := Custody.copyForSigning_none hc
    subst hl
    rw [hc] at t
    by_cases hf : s.policy.keyFallback = true
    · simpa [hf, Binding.key] using t.trans (t.account.retain hm)
    · simpa [hf] using t
  · rw [hc] at t
    exact t

theorem beginMac_turn (s : Service σ) (a : Algorithm) (h : k.Account handed elsewhere)
    (hm : key ∈ k.keys ++ elsewhere) :
    Custody.Turn k (s.beginMac a key k).2 handed (k.issued (s.copyMade a key k))
      (heldBy (s.beginMac a key k).1 ++ elsewhere) := by
  have t := s.bindKey_turn h hm
  rw [beginMac_eq]
  unfold copyMade
  cases hcheck : s.checkMac a key k with
  | error e =>
    rw [Custody.issued_none]
    exact h.stay
  | ok u =>
    rcases hb : s.bindKey key k with ⟨e | b, l⟩
    · rw [hb] at t
      exact t
    · rw [hb] at t
      cases hp : s.library.mac s.occasion a (l.vault.bytes b.key) with
      | error e => simpa [hp] using t.trans t.account.release
      | ok p => simpa [hp] using t

theorem issued_resolve {handle : UInt64} (hr : k.resolve handle = (.ok key, l)) (copy : Option Key) :
    l.issued copy = k.issued copy := by
  obtain ⟨rfl, _⟩ := Custody.resolve_eq_ok hr
  rfl

theorem beginMacFromHandle_turn (s : Service σ) (a : Algorithm) (handle : UInt64)
    (h : k.Account handed elsewhere) :
    Custody.Turn k (s.beginMacFromHandle a handle k).2 handed
      (k.issued (s.copyMadeFromHandle a handle k))
      (heldBy (s.beginMacFromHandle a handle k).1 ++ elsewhere) := by
  rw [beginMacFromHandle_eq]
  unfold copyMadeFromHandle
  rcases hr : k.resolve handle with ⟨e | key, l⟩
  · have hl := Custody.resolve_error hr
    subst hl
    simpa using h.stay
  · have t := h.resolve hr
    have t' := s.beginMac_turn a t.account (List.mem_append_right _ List.mem_cons_self)
    have both := t.trans (t'.perm List.perm_middle)
    rw [← issued_resolve hr]
    simpa using both.trans both.account.release

theorem mac_turn (s : Service σ) (a : Algorithm) (data : Bytes) (h : k.Account handed elsewhere)
    (hm : key ∈ k.keys ++ elsewhere) :
    Custody.Turn k (s.mac a key data k).2 handed (k.issued (s.copyMade a key k)) elsewhere := by
  have t := s.beginMac_turn a h hm
  unfold mac
  rcases hb : s.beginMac a key k with ⟨e | c, l⟩
  · rw [hb] at t
    exact t
  · rw [hb] at t
    obtain ⟨_, b, p, _, _, rfl⟩ := beginMac_eq_ok hb
    have live : (Computation.start a p (some b)).phase ≠ .finalized := Computation.phase_live rfl
    have hnone := Computation.binding_finalized (Computation.complete_finalized s.library live data)
    have t' := t.account.settle (.inr hnone)
    rw [hnone] at t'
    simpa [hnone] using t.trans t'

end Service

end StreamDigest
