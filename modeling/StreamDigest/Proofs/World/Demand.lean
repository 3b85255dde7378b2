import StreamDigest.Library.Software
import StreamDigest.Proofs.Permission
import StreamDigest.Proofs.World.Binding

namespace StreamDigest

variable {σ : Type}

namespace Custody

variable {k : Custody} {key : Key} {o : Offer}

/-- The caller may use the key: any of its own, and of a store those that are under a handle. -/
def Has (k : Custody) (key : Key) : Prop :=
  k.source = .direct ∨ ∃ e ∈ k.entries, e.key = key

/-- There are signing copies of the key: of any of the caller's own, and of a store's unless it has
the key in hardware. -/
def Copies (k : Custody) (key : Key) : Prop :=
  k.source = .direct ∨ ∃ e ∈ k.entries, e.key = key ∧ e.hardware = false

instance : Decidable (k.Has key) :=
  inferInstanceAs (Decidable (_ ∨ _))

instance : Decidable (k.Copies key) :=
  inferInstanceAs (Decidable (_ ∨ _))

theorem isLive_iff_has : k.isLive key = true ↔ k.vault.bytes key ≠ [] ∧ k.Has key := by
  unfold Has
  cases hs : k.stock with
  | none =>
    have direct := stock_eq_none_iff.mp hs
    have direct_offer : k.Offers key .direct := direct
    rw [direct_offer.isLive_iff]
    simp [direct]
  | some s =>
    have stored : k.source ≠ .direct := fun h => by simp [stock_eq_none_iff.mpr h] at hs
    rw [isLive_iff (by simp [hs]), List.find?_isSome]
    simp [stored]

theorem Offers.copies_iff (h : k.Offers key o) : k.Copies key ↔ o.copied = true := by
  cases o with
  | direct => exact iff_of_true (.inl h) rfl
  | stored hardware =>
    obtain ⟨⟨e, he, hkey⟩, all⟩ := h
    have stored : k.source ≠ .direct := fun hs => by simp [entries, stock, hs] at he
    rw [Offer.copied, Bool.not_eq_true', ← all e he hkey]
    constructor
    · rintro (direct | ⟨e', he', hkey', soft⟩)
      · exact absurd direct stored
      · rw [all e he hkey, ← all e' he' hkey', soft]
    · exact fun soft => .inr ⟨e, he, hkey, soft⟩

end Custody

/-- In any run, a key that may be used is one of the offers, whatever store it is asked of. -/
theorem World.exists_offer_after (service : Service σ) (stores : Nat) (places : List Place)
    (actions : List Action) {place : Place} {k : Custody} {key : Key}
    (hk : ((start service stores places).after actions).session.custody? place = some k)
    (has : k.Has key) : ∃ o, k.Offers key o := by
  rcases has with direct | ⟨e, he, rfl⟩
  · exact ⟨.direct, direct⟩
  · obtain ⟨n, rfl⟩ := exists_store hk he
    exact ⟨_, (offers_after service stores places actions hk he).1⟩

theorem World.resolve_after (service : Service σ) (stores : Nat) (places : List Place)
    (actions : List Action) {place : Place} {k : Custody} {e : Entry}
    (hk : ((start service stores places).after actions).session.custody? place = some k)
    (he : e ∈ k.entries) : (k.resolve e.handle).1 = .ok e.key := by
  obtain ⟨n, rfl⟩ := exists_store hk he
  exact (offers_after service stores places actions hk he).2

namespace Library

theorem softwareMac_blake2bMac (n : Nat) (key : Bytes) : software.mac n .blake2bMac key =
    if key.length ≤ 64 then .ok (.plain .blake2b (Blake2b.start key))
    else .error (.fault (.invalidKey "BLAKE2b keys are limited to 64 bytes")) := rfl

theorem softwareMac_hmac {a : Algorithm} (hk : a.kind = .mac) (hne : a ≠ .blake2bMac) (n : Nat)
    (key : Bytes) : software.mac n a key = .ok (.ofHmac a.hash key) := by
  cases a with
  | sha1 | sha256 | sha384 | sha512 | blake2b => cases hk
  | hmacSha1 | hmacSha256 | hmacSha384 | hmacSha512 => rfl
  | blake2bMac => exact absurd rfl hne

theorem softwareMac_blake2bMac_eq_ok {n : Nat} {key : Bytes} {p : Primitive}
    (h : software.mac n .blake2bMac key = .ok p) :
    key.length ≤ 64 ∧ p = .plain .blake2b (Blake2b.start key) := by
  rw [softwareMac_blake2bMac] at h
  split at h
  · next hlen => exact ⟨hlen, (Except.ok.inj h).symm⟩
  · cases h

/-- The one thing that the software library has against the key of a MAC. -/
theorem softwareMac_error_iff {a : Algorithm} (hk : a.kind = .mac) {n : Nat} {key : Bytes}
    {e : Failure} : software.mac n a key = .error e ↔ a = .blake2bMac ∧ 64 < key.length ∧
      e = .fault (.invalidKey "BLAKE2b keys are limited to 64 bytes") := by
  by_cases ha : a = .blake2bMac
  · subst ha
    rw [softwareMac_blake2bMac]
    by_cases hlen : key.length ≤ 64
    · simp [hlen]
    · have hlt := Nat.not_le.mp hlen
      simp [hlen, hlt, eq_comm]
  · simp [softwareMac_hmac hk ha, ha]

end Library

/-- What a MAC of the software library takes to begin, in the order in which it is looked at. -/
inductive Demand
  /-- The algorithm is a MAC. -/
  | mac
  /-- The algorithm is in use. -/
  | permitted
  /-- There is something to the key, and the caller may use it. -/
  | live
  /-- The key is as long as the policy wants it. -/
  | long
  /-- There is a signing copy of the key, or else the key itself will do. -/
  | bindable
  /-- The key is not too long for the algorithm. -/
  | accepted
  deriving DecidableEq, Repr

namespace Demand

variable {policy : Policy} {a : Algorithm} {key : Key} {k : Custody} {d : Demand}

def all : List Demand :=
  [mac, permitted, live, long, bindable, accepted]

def Met (policy : Policy) (a : Algorithm) (key : Key) (k : Custody) : Demand → Prop
  | mac => a.kind = .mac
  | permitted => policy.Allows a
  | live => k.vault.bytes key ≠ [] ∧ k.Has key
  | long => policy.minKeyLen.toNat ≤ (k.vault.bytes key).length
  | bindable => k.Copies key ∨ policy.keyFallback = true
  | accepted => a = .blake2bMac → (k.vault.bytes key).length ≤ 64

instance : DecidablePred (Met policy a key k)
  | mac => inferInstanceAs (Decidable (_ = _))
  | permitted => decidable_of_iff (policy.permits a = true) Policy.permits_iff
  | live => inferInstanceAs (Decidable (_ ∧ _))
  | long => inferInstanceAs (Decidable (_ ≤ _))
  | bindable => inferInstanceAs (Decidable (_ ∨ _))
  | accepted => inferInstanceAs (Decidable (_ → _))

/-- What becomes of a request that does not meet the demand. -/
def fault (policy : Policy) (a : Algorithm) (bytes : Bytes) : Demand → Fault
  | mac => .unsupportedAlgorithm s!"{a.name} is not a MAC mechanism"
  | permitted => .unsupportedAlgorithm s!"{a.name} (disabled)"
  | live => .invalidKeyHandle
  | long => .invalidKey s!"key is {bytes.length} bytes, at least {policy.minKeyLen} required"
  | bindable => .initialization "no signing copy of the key available"
  | accepted => .invalidKey "BLAKE2b keys are limited to 64 bytes"

/-- The first demand that is not met. -/
def firstUnmet (policy : Policy) (a : Algorithm) (key : Key) (k : Custody) : Option Demand :=
  all.find? fun d => ¬d.Met policy a key k

theorem mem_all (d : Demand) : d ∈ all := by
  cases d <;> decide

theorem firstUnmet_eq_none_iff :
    firstUnmet policy a key k = none ↔ ∀ d : Demand, d.Met policy a key k := by
  simp [firstUnmet, List.find?_eq_none, mem_all]

theorem firstUnmet_eq_some (before : List Demand) {after : List Demand}
    (hall : all = before ++ d :: after) (met : ∀ d ∈ before, d.Met policy a key k)
    (unmet : ¬d.Met policy a key k) :
    firstUnmet policy a key k = some d := by
  refine List.find?_eq_some_iff_append.mpr ⟨by simpa using unmet, before, after, hall, ?_⟩
  simpa using met

end Demand

namespace Service

variable {s : Service σ} {policy : Policy} {a : Algorithm} {key : Key} {k l : Custody}

theorem checkMac_eq_ok_iff_met : s.checkMac a key k = .ok () ↔
    ∀ d ∈ [Demand.mac, .permitted, .live, .long], d.Met s.policy a key k := by
  rw [checkMac_eq_ok_iff, Policy.permits_iff, Custody.isLive_iff_has]
  simp [Demand.Met]

/-- A MAC that is refused comes up against the first demand that is not met. -/
theorem firstUnmet_of_refused {e : Fault} (h : s.checkMac a key k = .error e) :
    ∃ d, Demand.firstUnmet s.policy a key k = some d ∧
      e = d.fault s.policy a (k.vault.bytes key) := by
  have hc := s.macCheck a key k
  rw [h] at hc
  cases hc with
  | misused hk =>
    exact ⟨.mac, Demand.firstUnmet_eq_some [] rfl (by simp) hk, rfl⟩
  | disabled hk hp =>
    refine ⟨.permitted, Demand.firstUnmet_eq_some [.mac] rfl ?_ ?_, rfl⟩
    · simpa [Demand.Met] using hk
    · simpa [Demand.Met, ← Policy.permits_iff] using hp
  | dead hk hp hl =>
    refine ⟨.live, Demand.firstUnmet_eq_some [.mac, .permitted] rfl ?_ ?_, rfl⟩
    · simpa [Demand.Met, ← Policy.permits_iff] using ⟨hk, hp⟩
    · rw [Demand.Met, ← Custody.isLive_iff_has, hl]
      exact Bool.false_ne_true
  | short hk hp hl hm =>
    refine ⟨.long, Demand.firstUnmet_eq_some [.mac, .permitted, .live] rfl ?_ ?_, rfl⟩
    · simpa [Demand.Met, ← Policy.permits_iff, ← Custody.isLive_iff_has] using ⟨hk, hp, hl⟩
    · simpa [Demand.Met] using hm

/-- A key that may be used can be bound if it has a signing copy, or will do itself. -/
theorem bindKey_isSome_iff_met {o : Offer} (a : Algorithm) (h : k.Offers key o) :
    (∃ b, (s.bindKey key k).1 = .ok b) ↔ Demand.bindable.Met s.policy a key k := by
  rw [bindKey_isSome, h.copyForSigning_isSome, ← h.copies_iff]
  rfl

/-- The service of the software library under a policy. -/
def software (policy : Policy) (occasion : Nat) : Service Primitive where
  library := .software
  policy
  occasion

/-- A MAC of the software library that has just begun. -/
structure FreshMac (a : Algorithm) (key : Key) (k : Custody) (c : Computation Primitive) :
    Prop where
  algorithm : c.algorithm = a
  idle : c.phase = .idle
  processed : c.processed = 0
  keyed : c.isKeyed = true
  restricted : c.usesRestrictedKey = true ↔ k.Copies key
  /-- Keyed BLAKE2b is never set up with a key that it has no room for. -/
  blake2b : a = .blake2bMac → (k.vault.bytes key).length ≤ 64 ∧
    c.primitive = some (.plain .blake2b (Blake2b.start (k.vault.bytes key)))

theorem freshMac_of_begun {c : Computation Primitive} {o : Offer} {n : Nat} (h : k.Offers key o)
    (hc : (software policy n).beginMac a key k = (.ok c, l)) : FreshMac a key k c := by
  obtain ⟨_, b, p, hb, hp, hstart⟩ := beginMac_eq_ok hc
  rw [bytes_bindKey hb] at hp
  have idle : c.phase = .idle := by
    rw [hstart]
    rfl
  have restricted : c.usesRestrictedKey = o.copied :=
    usesRestrictedKey_after h hc .software [] (by simp [Computation.after, idle])
  subst hstart
  refine ⟨rfl, rfl, rfl, rfl, by rw [restricted, h.copies_iff], ?_⟩
  rintro rfl
  obtain ⟨hlen, rfl⟩ := Library.softwareMac_blake2bMac_eq_ok hp
  exact ⟨hlen, rfl⟩

/-- A MAC of the software library begins, or comes up against the first demand that is not met. -/
theorem beginMac_outcome (policy : Policy) (n : Nat) (a : Algorithm)
    (offered : k.Has key → ∃ o, k.Offers key o) :
    (∃ d, Demand.firstUnmet policy a key k = some d ∧
      ((software policy n).beginMac a key k).1 = .error (d.fault policy a (k.vault.bytes key))) ∨
    (∀ d : Demand, d.Met policy a key k) ∧
      ∃ c, ((software policy n).beginMac a key k).1 = .ok c ∧ FreshMac a key k c := by
  cases hm : (software policy n).checkMac a key k with
  | error e =>
    obtain ⟨d, hd, rfl⟩ := firstUnmet_of_refused hm
    exact .inl ⟨d, hd, by rw [beginMac_eq, hm]; rfl⟩
  | ok u =>
    have checked := checkMac_eq_ok_iff_met.mp hm
    obtain ⟨hk, _, hlive, _⟩ := checkMac_eq_ok_iff.mp hm
    -- A store goes by the first of its entries that has the key. In an offer they are all alike.
    obtain ⟨o, offer⟩ := offered (Custody.isLive_iff_has.mp hlive).2
    have bound := bindKey_isSome_iff_met (s := software policy n) a offer
    rcases hb : (software policy n).bindKey key k with ⟨e | b, l⟩
    · obtain ⟨rfl, _⟩ := bindKey_error hb
      refine .inl ⟨.bindable, Demand.firstUnmet_eq_some _ rfl checked ?_, ?_⟩
      · rw [hb] at bound
        exact fun met => by simpa using bound.mpr met
      · rw [beginMac_eq, hm, hb]
        rfl
    · have bindable := bound.mp ⟨b, by rw [hb]⟩
      have begins := beginMac_of_bound hm hb
      cases hp : (software policy n).library.mac (software policy n).occasion a (k.vault.bytes key) with
      | error e =>
        obtain ⟨ha, hlen, rfl⟩ := (Library.softwareMac_error_iff hk).mp hp
        rw [hp] at begins
        have bound_met := List.forall_mem_append.mpr ⟨checked, List.forall_mem_singleton.mpr bindable⟩
        refine .inl ⟨.accepted, Demand.firstUnmet_eq_some _ rfl bound_met ?_, begins⟩
        exact fun met => absurd (met ha) (Nat.not_le.mpr hlen)
      | ok p =>
        rw [hp] at begins
        have accepted : Demand.accepted.Met policy a key k := by
          rintro rfl
          exact (Library.softwareMac_blake2bMac_eq_ok hp).1
        have all_met : ∀ d ∈ Demand.all, d.Met policy a key k :=
          List.forall_mem_append.mpr ⟨checked, by simpa using ⟨bindable, accepted⟩⟩
        exact .inr ⟨fun d => all_met d d.mem_all, _, begins,
          freshMac_of_begun offer (Prod.ext begins rfl)⟩

/-- In a store of any run, or with keys of the caller's own, a MAC of the software library begins if
its algorithm is a MAC and in use, and its key is one that the caller may use, with something to it,
as long as the policy wants it, with a signing copy unless the policy does without, and not too long
for BLAKE2b. Else it comes up against the first of these that does not hold. Once begun, it has a
signing copy of its key if there was one to have. A handle that the store does not have is refused
whatever the algorithm, and one that it has stands for its key. -/
theorem mac_begins_iff_demands_met (service : Service σ) (stores : Nat) (places : List Place)
    (actions : List World.Action) (place : Place) (k : Custody)
    (reached : ((World.start service stores places).after actions).session.custody? place = some k)
    (policy : Policy) (n : Nat) (a : Algorithm) (key : Key) :
    ((∃ c, ((software policy n).beginMac a key k).1 = .ok c) ↔
      ∀ d : Demand, d.Met policy a key k) ∧
    (∀ e, ((software policy n).beginMac a key k).1 = .error e ↔
      ∃ d, Demand.firstUnmet policy a key k = some d ∧
        e = d.fault policy a (k.vault.bytes key)) ∧
    (∀ c, ((software policy n).beginMac a key k).1 = .ok c → FreshMac a key k c) ∧
    (∀ handle, (∀ e ∈ k.entries, e.handle ≠ handle) →
      (software policy n).beginMacFromHandle a handle k = (.error .invalidKeyHandle, k)) ∧
    ∀ e ∈ k.entries, ((software policy n).beginMacFromHandle a e.handle k).1 =
      ((software policy n).beginMac a e.key k).1 := by
  have offered : k.Has key → ∃ o, k.Offers key o :=
    World.exists_offer_after service stores places actions reached
  have outcome := beginMac_outcome policy n a offered
  refine ⟨?_, ?_, ?_, ?_, ?_⟩
  · rcases outcome with ⟨d, hd, fails⟩ | ⟨met, c, begins, _⟩
    · rw [← Demand.firstUnmet_eq_none_iff, hd, fails]
      simp
    · exact iff_of_true ⟨c, begins⟩ met
  · intro e
    rcases outcome with ⟨d, hd, fails⟩ | ⟨met, c, begins, _⟩
    · rw [hd, fails]
      simp [eq_comm]
    · rw [Demand.firstUnmet_eq_none_iff.mpr met, begins]
      simp
  · intro c hc
    rcases outcome with ⟨d, hd, fails⟩ | ⟨met, c', begins, fresh⟩
    · cases hc.symm.trans fails
    · cases hc.symm.trans begins
      exact fresh
  · intro handle absent
    exact (software policy n).beginMacFromHandle_of_absent a absent
  · intro e he
    have resolves := World.resolve_after service stores places actions reached he
    exact beginMacFromHandle_of_resolve (Prod.ext resolves rfl)

/-- A store with a key, a key in hardware, and a key that is too long for BLAKE2b. -/
theorem mac_demands_of_three_keys :
    let w := (World.start (software {} 0) 1 []).after [
      .session (.insert (.store 0) (Bytes.zeros 20) false),
      .session (.insert (.store 0) (Bytes.zeros 20) true),
      .session (.insert (.store 0) (Bytes.zeros 65) false)]
    let s := software { keyFallback := false, minKeyLen := 16 } 0
    ∃ k, w.session.custody? (.store 0) = some k ∧
      (∃ c, (s.beginMac .hmacSha1 ⟨0⟩ k).1 = .ok c ∧ c.usesRestrictedKey = true) ∧
      (s.beginMac .hmacSha1 ⟨1⟩ k).1 =
        .error (.initialization "no signing copy of the key available") ∧
      (s.beginMac .blake2bMac ⟨2⟩ k).1 =
        .error (.invalidKey "BLAKE2b keys are limited to 64 bytes") ∧
      (s.beginMac .sha1 ⟨3⟩ k).1 = .error (.unsupportedAlgorithm "SHA-1 is not a MAC mechanism") ∧
      (s.beginMacFromHandle .sha1 4 k).1 = .error .invalidKeyHandle := by
  intro w s
  obtain ⟨k, hk⟩ : ∃ k, w.session.custody? (.store 0) = some k := ⟨_, rfl⟩
  have decides := mac_begins_iff_demands_met (software {} 0) 1 [] _ (.store 0) k hk
    { keyFallback := false, minKeyLen := 16 } 0
  obtain ⟨c, hc⟩ : ∃ c, (s.beginMac .hmacSha1 ⟨0⟩ k).1 = .ok c := by
    refine (decides .hmacSha1 ⟨0⟩).1.mpr fun d => ?_
    cases hk
    cases d <;> decide
  refine ⟨k, hk, ⟨c, hc, ?_⟩, ?_, ?_, ?_, ?_⟩
  · refine ((decides .hmacSha1 ⟨0⟩).2.2.1 c hc).restricted.mpr ?_
    cases hk
    decide
  · refine ((decides .hmacSha1 ⟨1⟩).2.1 _).mpr ⟨.bindable, ?_, rfl⟩
    cases hk
    decide
  · refine ((decides .blake2bMac ⟨2⟩).2.1 _).mpr ⟨.accepted, ?_, rfl⟩
    cases hk
    decide
  · refine ((decides .sha1 ⟨3⟩).2.1 _).mpr ⟨.mac, ?_, rfl⟩
    cases hk
    decide
  · rw [(decides .sha1 ⟨3⟩).2.2.2.1 4 ?_]
    cases hk
    decide

end Service

end StreamDigest
