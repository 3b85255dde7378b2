import StreamDigest.Proofs.Service

namespace StreamDigest

namespace Vault

/-- A reference that is taken and given up again leaves no trace. -/
theorem release_retain (v : Vault) (key : Key) : (v.retain key).release key = v := by
  obtain ⟨materials⟩ := v
  simp only [retain, release, mk.injEq]
  apply Array.ext_getElem?
  intro i
  rw [Array.getElem?_modify, Array.getElem?_modify]
  split
  · cases materials[i]? <;> simp
  · rfl

end Vault

namespace Policy

variable {p q : Policy} {kind : Kind} {a : Algorithm}

/-- An algorithm is in use if there is no list of names, or if it is looked up under one of them. -/
def Allows (p : Policy) (a : Algorithm) : Prop :=
  p.allowed = none ∨ ∃ s, p.allowed = some s ∧ ∃ name ∈ s, Algorithm.lookup name = some a

theorem permits_iff : p.permits a = true ↔ p.Allows a := by
  unfold permits Allows
  cases p.allowed with
  | none => simp
  | some s =>
    simp only [List.any_eq_true, decide_eq_true_eq, reduceCtorEq, Option.some.injEq, false_or,
      exists_eq_left']
    rfl

/-- What a request for a computation comes up against if the algorithm is not of the kind, or not in
use. -/
def refusal (kind : Kind) (a : Algorithm) : Fault :=
  .unsupportedAlgorithm <|
    if a.kind = kind then s!"{a.name} (disabled)"
    else
      match kind with
      | .digest => s!"{a.name} is not a digest"
      | .mac => s!"{a.name} is not a MAC mechanism"

/-- Two policies that no computation tells apart: those that have the same algorithms in use, under
whatever names. -/
structure Agrees (p q : Policy) : Prop where
  keyFallback : q.keyFallback = p.keyFallback
  minKeyLen : q.minKeyLen = p.minKeyLen
  maxLive : q.maxLive = p.maxLive
  permits : ∀ a, q.permits a = p.permits a

theorem validate_eq_ok_iff : p.validate = .ok () ↔
    p.maxLive ≠ 0 ∧ ∀ s, p.allowed = some s → ∀ name ∈ s, (Algorithm.lookup name).isSome := by
  unfold validate
  split
  · next h => simp [h]
  · next h =>
    cases hs : p.allowed with
    | none => simp [h]
    | some s =>
      cases hf : s.names.find? fun name => (Algorithm.lookup name).isNone with
      | none =>
        have hall := List.find?_eq_none.mp hf
        simp only [Option.bind_some, hf, true_iff, Option.some.injEq, forall_eq']
        refine ⟨h, fun name hm => ?_⟩
        simpa [Option.isSome_iff_ne_none] using hall name hm
      | some name =>
        have hm := List.mem_of_find?_eq_some hf
        have hn : Algorithm.lookup name = none := by simpa using List.find?_some hf
        simp only [Option.bind_some, hf, reduceCtorEq, Option.some.injEq, forall_eq', false_iff,
          not_and]
        intro _ hall
        have hsome := hall name hm
        rw [hn] at hsome
        cases hsome

/-- The policy with each name in its list replaced by `f` of it. -/
def respell (p : Policy) (f : String → String) : Policy :=
  { p with allowed := p.allowed.map fun s => .ofList (s.names.map f) }

theorem mem_respelled {s : NameSet} {f : String → String} {name : String} :
    name ∈ NameSet.ofList (s.names.map f) ↔ ∃ old ∈ s, f old = name := by
  rw [NameSet.mem_ofList, List.mem_map]
  rfl

section respell

variable {f : String → String}
  (same : ∀ s, p.allowed = some s → ∀ name ∈ s, Algorithm.lookup (f name) = Algorithm.lookup name)

include same

theorem allows_respell : (p.respell f).Allows a ↔ p.Allows a := by
  unfold Allows respell
  cases hs : p.allowed with
  | none => simp
  | some s =>
    simp only [Option.map_some, reduceCtorEq, Option.some.injEq, false_or, exists_eq_left',
      mem_respelled]
    constructor
    · rintro ⟨_, ⟨old, hold, rfl⟩, hl⟩
      exact ⟨old, hold, (same s hs old hold).symm.trans hl⟩
    · rintro ⟨old, hold, hl⟩
      exact ⟨f old, ⟨old, hold, rfl⟩, (same s hs old hold).trans hl⟩

theorem agrees_respell : p.Agrees (p.respell f) where
  keyFallback := rfl
  minKeyLen := rfl
  maxLive := rfl
  permits a := Bool.eq_iff_iff.mpr (by rw [permits_iff, permits_iff, allows_respell same])

theorem validate_respell : (p.respell f).validate = .ok () ↔ p.validate = .ok () := by
  rw [validate_eq_ok_iff, validate_eq_ok_iff]
  refine and_congr_right fun _ => ?_
  unfold respell
  cases hs : p.allowed with
  | none => simp
  | some s =>
    simp only [Option.map_some, Option.some.injEq, forall_eq', mem_respelled]
    constructor
    · intro h name hm
      rw [← same s hs name hm]
      exact h _ ⟨name, hm, rfl⟩
    · rintro h _ ⟨name, hm, rfl⟩
      rw [same s hs name hm]
      exact h name hm

end respell

end Policy

namespace Service

variable {σ : Type} {s : Service σ} {a : Algorithm} {key : Key} {k l : Custody}

theorem make_eq_ok_iff {library : Library σ} {policy : Policy} :
    make library policy = .ok s ↔ policy.validate = .ok () ∧ s = { library, policy } := by
  unfold make
  cases policy.validate with
  | error e => simp [Except.map]
  | ok u => simp [Except.map, eq_comm]

/-- Nothing but the policy is looked at before a request is refused on account of its algorithm, and
nothing is asked of the library. -/
theorem askDigest_refused (h : ¬(a.kind = .digest ∧ s.policy.Allows a)) :
    s.askDigest a = .answer (.error (Policy.refusal .digest a)) := by
  rw [← Policy.permits_iff] at h
  unfold askDigest checkPermitted
  by_cases hk : a.kind = .digest
  · have hp : s.policy.permits a = false := Bool.eq_false_iff.mpr fun hp => h ⟨hk, hp⟩
    simp [Policy.refusal, hk, hp]
  · simp [Policy.refusal, hk]

/-- A name that no algorithm has is refused as it was written. -/
theorem askDigestNamed_unknown {name : String} (h : Algorithm.lookup name = none) :
    s.askDigestNamed name = .answer (.error (.unsupportedAlgorithm name)) := by
  simp [askDigestNamed, Algorithm.named, h]

theorem askDigestNamed_refused {name : String} (hl : Algorithm.lookup name = some a)
    (h : ¬(a.kind = .digest ∧ s.policy.Allows a)) :
    s.askDigestNamed name = .answer (.error (Policy.refusal .digest a)) := by
  simp [askDigestNamed, Algorithm.named, hl, askDigest_refused h]

theorem beginDigestNamed_refused {name : String} (hl : Algorithm.lookup name = some a)
    (h : ¬(a.kind = .digest ∧ s.policy.Allows a)) :
    s.beginDigestNamed name = .error (Policy.refusal .digest a) := by
  rw [beginDigestNamed, askDigestNamed_refused hl h]
  rfl

theorem beginDigest_refused (h : ¬(a.kind = .digest ∧ s.policy.Allows a)) :
    s.beginDigest a = .error (Policy.refusal .digest a) := by
  rw [beginDigest, askDigest_refused h]
  rfl

theorem checkMac_refused (h : ¬(a.kind = .mac ∧ s.policy.Allows a)) :
    s.checkMac a key k = .error (Policy.refusal .mac a) := by
  rw [← Policy.permits_iff] at h
  have hc := s.macCheck a key k
  generalize s.checkMac a key k = r at hc
  cases hc with
  | misused hk => simp [Policy.refusal, hk]
  | disabled hk hp => simp [Policy.refusal, hk]
  | dead hk hp | short hk hp | passed hk hp => exact absurd ⟨hk, hp⟩ h

theorem askMac_refused (h : ¬(a.kind = .mac ∧ s.policy.Allows a)) :
    s.askMac a key k = .answer (.error (Policy.refusal .mac a), k) := by
  rw [askMac, checkMac_refused h]

theorem askMacFromHandle_refused (h : ¬(a.kind = .mac ∧ s.policy.Allows a)) {handle : UInt64}
    (hr : (k.resolve handle).1 = .ok key) :
    s.askMacFromHandle a handle k = .answer (.error (Policy.refusal .mac a), k) := by
  have hk : k.resolve handle = (.ok key, (k.resolve handle).2) := Prod.ext hr rfl
  obtain ⟨hl, _⟩ := Custody.resolve_eq_ok hk
  rw [askMacFromHandle, hk, hl]
  simp only [askMac_refused h, Exchange.map, Custody.release, Vault.release_retain]

theorem beginMac_refused (h : ¬(a.kind = .mac ∧ s.policy.Allows a)) :
    s.beginMac a key k = (.error (Policy.refusal .mac a), k) := by
  rw [beginMac, askMac_refused h]
  rfl

theorem beginMacFromHandle_refused (h : ¬(a.kind = .mac ∧ s.policy.Allows a)) {handle : UInt64}
    (hr : (k.resolve handle).1 = .ok key) :
    s.beginMacFromHandle a handle k = (.error (Policy.refusal .mac a), k) := by
  rw [beginMacFromHandle, askMacFromHandle_refused h hr]
  rfl

theorem digest_refused (h : ¬(a.kind = .digest ∧ s.policy.Allows a)) (data : Bytes) :
    s.digest a data = .error (Policy.refusal .digest a) := by
  rw [digest, beginDigest_refused h]
  rfl

theorem mac_refused (h : ¬(a.kind = .mac ∧ s.policy.Allows a)) (data : Bytes) :
    s.mac a key data k = (.error (Policy.refusal .mac a), k) := by
  rw [mac, beginMac_refused h]

/-- A computation as a request for one of a kind is to get it. -/
structure Admits (s : Service σ) (kind : Kind) (a : Algorithm) (c : Computation σ) : Prop where
  ofKind : a.kind = kind
  allowed : s.policy.Allows a
  algorithm : c.algorithm = a
  keyed : c.binding.isSome = true ↔ kind = .mac

/-- Whether a computation is admitted does not depend on the occasion. -/
theorem Admits.of_on {n : Nat} {kind : Kind} {c : Computation σ} (h : (s.on n).Admits kind a c) :
    s.Admits kind a c :=
  ⟨h.ofKind, h.allowed, h.algorithm, h.keyed⟩

theorem admits_beginDigest {c : Computation σ} (h : s.beginDigest a = .ok c) :
    s.Admits .digest a c := by
  obtain ⟨hk, hp, _, _, rfl⟩ := beginDigest_eq_ok_iff.mp h
  exact ⟨hk, Policy.permits_iff.mp hp, rfl, by simp [Computation.start]⟩

theorem admits_beginMac {c : Computation σ} (h : s.beginMac a key k = (.ok c, l)) :
    s.Admits .mac a c := by
  obtain ⟨hm, _, _, _, _, rfl⟩ := beginMac_eq_ok h
  obtain ⟨hk, hp, _⟩ := checkMac_eq_ok_iff.mp hm
  exact ⟨hk, Policy.permits_iff.mp hp, rfl, by simp [Computation.start]⟩

theorem admits_beginMacFromHandle {handle : UInt64} {c : Computation σ}
    (h : s.beginMacFromHandle a handle k = (.ok c, l)) : s.Admits .mac a c := by
  obtain ⟨_, _, _, _, hm, _⟩ := beginMacFromHandle_eq_ok h
  exact admits_beginMac hm

/-- The same library under another policy. -/
def under (s : Service σ) (q : Policy) : Service σ :=
  { s with policy := q }

@[simp]
theorem on_under (s : Service σ) (q : Policy) (n : Nat) :
    (s.under q).on n = (s.on n).under q := rfl

section agrees

variable {q : Policy} (h : s.policy.Agrees q)

include h

theorem checkPermitted_under (a : Algorithm) : (s.under q).checkPermitted a = s.checkPermitted a := by
  simp only [checkPermitted, under, h.permits]

theorem beginDigest_under (a : Algorithm) : (s.under q).beginDigest a = s.beginDigest a := by
  simp only [beginDigest, askDigest, checkPermitted_under h]
  rfl

theorem beginDigestNamed_under (name : String) :
    (s.under q).beginDigestNamed name = s.beginDigestNamed name := by
  have same : (s.under q).beginDigest = s.beginDigest := funext (beginDigest_under h)
  rw [beginDigestNamed_eq, beginDigestNamed_eq, same]

theorem beginMac_under (a : Algorithm) (key : Key) (k : Custody) :
    (s.under q).beginMac a key k = s.beginMac a key k := by
  have checked : (s.under q).checkMac a key k = s.checkMac a key k := by
    simp only [checkMac, checkPermitted_under h]
    simp only [under, h.minKeyLen]
  have bound : (s.under q).bindKey key k = s.bindKey key k := by
    simp only [bindKey, under, h.keyFallback]
  rw [beginMac_eq, beginMac_eq, checked, bound]
  rfl

theorem beginMacFromHandle_under (a : Algorithm) (handle : UInt64) (k : Custody) :
    (s.under q).beginMacFromHandle a handle k = s.beginMacFromHandle a handle k := by
  simp only [beginMacFromHandle_eq, beginMac_under h]

theorem digest_under (a : Algorithm) (data : Bytes) : (s.under q).digest a data = s.digest a data := by
  simp only [digest, beginDigest_under h]
  rfl

theorem mac_under (a : Algorithm) (key : Key) (data : Bytes) (k : Custody) :
    (s.under q).mac a key data k = s.mac a key data k := by
  simp only [mac, beginMac_under h]
  rfl

end agrees

end Service

end StreamDigest
