import StreamDigest.Proofs.Containment
import StreamDigest.Proofs.World.Revocation

namespace StreamDigest

variable {σ : Type}

/-- Where a MAC has its key from: the caller, or a store, which has it in hardware or not. -/
inductive Offer
  | direct
  | stored (hardware : Bool)
  deriving DecidableEq, Repr

/-- Whether there are signing copies of the key. -/
def Offer.copied : Offer → Bool
  | direct => true
  | stored hardware => !hardware

namespace Custody

variable {k l : Custody} {key : Key} {o : Offer}

/-- A store offers a key as one thing only, under however many handles. -/
def Offers (k : Custody) (key : Key) : Offer → Prop
  | .direct => k.source = .direct
  | .stored hardware =>
    (∃ e ∈ k.entries, e.key = key) ∧ ∀ e ∈ k.entries, e.key = key → e.hardware = hardware

theorem Offers.find?_key {hardware : Bool} (h : k.Offers key (.stored hardware)) :
    ∃ e, k.entries.find? (fun e => e.key = key) = some e ∧ e.hardware = hardware := by
  obtain ⟨⟨e, he, hkey⟩, all⟩ := h
  cases hf : k.entries.find? fun e => decide (e.key = key) with
  | none =>
    have hne := List.find?_eq_none.mp hf e he
    simp [hkey] at hne
  | some e' =>
    have hkey' : e'.key = key := by simpa using List.find?_some hf
    exact ⟨e', rfl, all e' (List.mem_of_find?_eq_some hf) hkey'⟩

theorem Offers.stock_isSome {hardware : Bool} (h : k.Offers key (.stored hardware)) :
    k.stock.isSome := by
  obtain ⟨⟨e, he, _⟩, _⟩ := h
  exact stock_isSome_of_mem he

/-- Every offer is of a key that is live, unless there is nothing to the key. -/
theorem Offers.isLive_iff (h : k.Offers key o) :
    k.isLive key = true ↔ k.vault.bytes key ≠ [] := by
  cases o with
  | direct =>
    have hs : k.source = .direct := h
    simp [isLive, hs]
  | stored hardware =>
    obtain ⟨e, hf, _⟩ := h.find?_key
    rw [Custody.isLive_iff h.stock_isSome, hf]
    simp

theorem Offers.copyForSigning_isSome (h : k.Offers key o) :
    (k.copyForSigning key).1.isSome = o.copied := by
  cases o with
  | direct =>
    have hs : k.source = .direct := h
    simp only [copyForSigning, hs]
    rfl
  | stored hardware =>
    obtain ⟨e, hf, rfl⟩ := h.find?_key
    have hiff : (k.copyForSigning key).1.isSome = true ↔ e.hardware = false := by
      rw [Custody.copyForSigning_isSome h.stock_isSome, hf]
      simp
    rw [Bool.eq_iff_iff, hiff, Offer.copied, Bool.not_eq_true']

/-- The serial of a signing copy depends on how many keys there are, not on their references. -/
theorem copyForSigning_retain (k : Custody) (key other : Key) :
    (({ k with vault := k.vault.retain other } : Custody).copyForSigning key).1 =
      (k.copyForSigning key).1 := by
  obtain ⟨vault, _ | s⟩ := k
  · simp [copyForSigning, Vault.signingCopy, Vault.deposit, Vault.retain]
  · simp only [copyForSigning]
    split <;> simp [Vault.signingCopy, Vault.deposit, Vault.retain]

theorem isLive_retain (k : Custody) (key other : Key) :
    ({ k with vault := k.vault.retain other } : Custody).isLive key = k.isLive key := by
  simp [isLive]

end Custody

/-- In any run, each key of a store is offered under its handle as what it was stored as. -/
theorem World.offers_after (service : Service σ) (stores : Nat) (places : List Place)
    (actions : List Action) {n : Nat} {k : Custody} {e : Entry}
    (hk : ((start service stores places).after actions).session.custody? (.store n) = some k)
    (he : e ∈ k.entries) :
    k.Offers e.key (.stored e.hardware) ∧ (k.resolve e.handle).1 = .ok e.key := by
  have fresh := accounted_start service stores places
  have tidy := (fresh.after actions).tidy n k hk
  have nodup := fresh.nodup_after (by rw [stored_start]; exact List.nodup_nil) actions
  refine ⟨⟨⟨e, he, rfl⟩, ?_⟩, by rw [Custody.resolve_of_find? (tidy.find?_handle he)]⟩
  intro e' he' hkey
  obtain ⟨s, hs, rfl⟩ := Option.map_eq_some_iff.mp hk
  obtain ⟨hmem, rfl⟩ := Array.getElem?_eq_some_iff.mp hs
  have hn := (List.nodup_flatMap.mp nodup).1 _ (Array.getElem_mem_toList hmem)
  rw [List.inj_on_of_nodup_map hn he' he hkey]

namespace Computation

variable {lib : Library σ} {c : Computation σ} {p : σ} {b : Option Binding}

theorem sent?_rebind (c : Computation σ) (b : Option Binding) (call : Call) :
    ((c.rebind b).perform call).sent? = (c.perform call).sent? := by
  by_cases hf : c.phase = .finalized
  · rw [rebind_finalized hf]
  · obtain ⟨p, h⟩ := exists_live hf
    have h' : (c.rebind b).primitive = some p := h
    cases hc : call.isFeed with
    | true => rw [sent?_feed h hc, sent?_feed h' hc]
    | false =>
      rw [sent?_last h hc, sent?_last h' hc]
      rfl

theorem event_rebind (c : Computation σ) (b : Option Binding) (lib : Library σ) (call : Call) :
    (c.rebind b).event lib call = c.event lib call := by
  rw [event_eq, event_eq, perform_rebind, Exchange.fails_congr lib (request_perform _ call)
    (request_perform c call) (sent?_rebind c b call)]

theorem history_rebind (c : Computation σ) (b : Option Binding) (lib : Library σ)
    (calls : List Call) : (c.rebind b).history lib calls = c.history lib calls := by
  induction calls generalizing c with
  | nil => rfl
  | cons call rest ih => rw [history_cons, history_cons, event_rebind, perform_rebind, ih]

theorem traffic_rebind (c : Computation σ) (b : Option Binding) (lib : Library σ)
    (calls : List Call) : (c.rebind b).traffic lib calls = c.traffic lib calls := by
  induction calls generalizing c with
  | nil => rfl
  | cons call rest ih => rw [traffic, traffic, sent?_rebind, perform_rebind, ih]

theorem phase_rebind (c : Computation σ) (b : Option Binding) :
    (c.rebind b).phase = c.phase := rfl

theorem algorithm_rebind (c : Computation σ) (b : Option Binding) :
    (c.rebind b).algorithm = c.algorithm := rfl

theorem processed_rebind (c : Computation σ) (b : Option Binding) :
    (c.rebind b).processed = c.processed := rfl

theorem isKeyed_rebind (b : Binding) (keyed : c.phase ≠ .finalized → c.isKeyed = true) :
    (c.rebind (some b)).isKeyed = c.isKeyed := by
  by_cases hf : c.phase = .finalized
  · rw [rebind_finalized hf]
  · obtain ⟨p, h⟩ := exists_live hf
    rw [keyed hf]
    simp [Fields.isKeyed, rebind, h]

/-- Computations that no call tells apart, neither to their callers nor to the library. -/
structure Indistinct (lib : Library σ) (c d : Computation σ) : Prop where
  algorithm : d.algorithm = c.algorithm
  history : ∀ calls, d.history lib calls = c.history lib calls
  traffic : ∀ calls, d.traffic lib calls = c.traffic lib calls
  phase : ∀ calls, (d.after lib calls).phase = (c.after lib calls).phase
  keyed : ∀ calls, (d.after lib calls).isKeyed = (c.after lib calls).isKeyed
  processed : ∀ calls, (d.after lib calls).processed = (c.after lib calls).processed
  text : ∀ calls, (d.after lib calls).describe = (c.after lib calls).describe

/-- It makes no difference which key a keyed computation has. -/
theorem indistinct_rebind (lib : Library σ) (b : Binding) (keyed : c.isKeyed = true) :
    Indistinct lib c (c.rebind (some b)) := by
  have keyed_after (calls : List Call) :
      ((c.after lib calls).rebind (some b)).isKeyed = (c.after lib calls).isKeyed := by
    refine isKeyed_rebind b fun live => ?_
    rw [Fields.isKeyed, binding_after lib c calls live]
    exact keyed
  constructor
  case algorithm => exact algorithm_rebind c (some b)
  case history => exact history_rebind c (some b) lib
  case traffic => exact traffic_rebind c (some b) lib
  all_goals
    intro calls
    rw [after_rebind]
  case phase => exact phase_rebind _ _
  case keyed => exact keyed_after calls
  case processed => exact processed_rebind _ _
  case text =>
    exact describe_congr (algorithm_rebind _ _) (phase_rebind _ _) (keyed_after calls)
      (processed_rebind _ _)

/-- Outcomes with the same fault, or with computations that nothing tells apart. -/
inductive SameOutcome (lib : Library σ) :
    Except Fault (Computation σ) → Except Fault (Computation σ) → Prop
  | failed (e : Fault) : SameOutcome lib (.error e) (.error e)
  | begun {c d : Computation σ} (h : Indistinct lib c d) : SameOutcome lib (.ok c) (.ok d)

theorem SameOutcome.exists_begun {r : Except Fault (Computation σ)}
    (h : SameOutcome lib (.ok c) r) : ∃ d, r = .ok d ∧ Indistinct lib c d := by
  cases h with
  | begun h => exact ⟨_, rfl, h⟩

end Computation

namespace Service

variable {s : Service σ} {a : Algorithm} {key key' : Key} {k l : Custody} {o o' : Offer}

/-- The service with its policy on keys that have no signing copy changed. -/
def withFallback (s : Service σ) (fallback : Bool) : Service σ :=
  { s with policy := { s.policy with keyFallback := fallback } }

/-- Before a MAC takes hold of its key, the bytes are all that tells one key from another. -/
theorem checkMac_offers (s : Service σ) (a : Algorithm) (h : k.Offers key o)
    (h' : l.Offers key' o') (same : l.vault.bytes key' = k.vault.bytes key) :
    s.checkMac a key' l = s.checkMac a key k := by
  have live : l.isLive key' = k.isLive key := by
    rw [Bool.eq_iff_iff, h'.isLive_iff, h.isLive_iff, same]
  simp only [checkMac, live, same]

theorem exists_bindKey (fallback : s.policy.keyFallback = true) (key : Key) (k : Custody) :
    ∃ b l, s.bindKey key k = (.ok b, l) := by
  obtain ⟨b, hb⟩ := bindKey_isSome.mpr (.inr fallback)
  exact ⟨b, _, Prod.ext hb rfl⟩

theorem beginMac_of_bound {b : Binding} (hm : s.checkMac a key k = .ok ())
    (hb : s.bindKey key k = (.ok b, l)) :
    (s.beginMac a key k).1 =
      match s.library.mac s.occasion a (k.vault.bytes key) with
      | .ok p => .ok (.start a p (some b))
      | .error e => .error e.onCreation := by
  simp only [beginMac_eq, hm, hb, bytes_bindKey hb]
  cases s.library.mac s.occasion a (k.vault.bytes key) <;> rfl

theorem beginMac_same (fallback : s.policy.keyFallback = true) (h : k.Offers key o)
    (h' : l.Offers key' o') (same : l.vault.bytes key' = k.vault.bytes key) :
    Computation.SameOutcome s.library (s.beginMac a key k).1 (s.beginMac a key' l).1 := by
  have check := s.checkMac_offers a h h' same
  cases hm : s.checkMac a key k with
  | error e =>
    rw [beginMac_eq, beginMac_eq, check, hm]
    exact .failed e
  | ok u =>
    obtain ⟨b, _, hb⟩ := exists_bindKey fallback key k
    obtain ⟨b', _, hb'⟩ := exists_bindKey fallback key' l
    rw [beginMac_of_bound hm hb, beginMac_of_bound (check.trans hm) hb', same]
    cases s.library.mac s.occasion a (k.vault.bytes key) with
    | error e => exact .failed e.onCreation
    | ok p => exact .begun (Computation.indistinct_rebind s.library b' rfl)

theorem bindKey_fst (s : Service σ) (key : Key) (k : Custody) : (s.bindKey key k).1 =
    match (k.copyForSigning key).1 with
    | some copy => .ok (.restricted copy)
    | none =>
      if s.policy.keyFallback then .ok (.shared key)
      else .error (.initialization "no signing copy of the key available") := by
  unfold bindKey
  rcases k.copyForSigning key with ⟨_ | copy, l⟩
  · cases s.policy.keyFallback <;> rfl
  · rfl

/-- A handle stands for its key. -/
theorem beginMacFromHandle_of_resolve {handle : UInt64} (h : k.resolve handle = (.ok key, l)) :
    (s.beginMacFromHandle a handle k).1 = (s.beginMac a key k).1 := by
  obtain ⟨hl, _⟩ := Custody.resolve_eq_ok h
  have check : s.checkMac a key l = s.checkMac a key k := by
    simp only [hl, checkMac, Custody.isLive_retain, Vault.bytes_retain]
  have bind : (s.bindKey key l).1 = (s.bindKey key k).1 := by
    rw [bindKey_fst, bindKey_fst, hl, Custody.copyForSigning_retain]
  have begin_fst : (s.beginMac a key l).1 = (s.beginMac a key k).1 := by
    cases hm : s.checkMac a key k with
    | error e => rw [beginMac_eq, beginMac_eq, check, hm]
    | ok u =>
      rcases hb : s.bindKey key k with ⟨e | b, m⟩
      · rw [hb] at bind
        have hb' : s.bindKey key l = (.error e, (s.bindKey key l).2) := Prod.ext bind rfl
        rw [beginMac_eq, beginMac_eq, check, hm, hb, hb']
      · rw [hb] at bind
        have hb' : s.bindKey key l = (.ok b, (s.bindKey key l).2) := Prod.ext bind rfl
        rw [beginMac_of_bound (check.trans hm) hb', beginMac_of_bound hm hb, hl, Vault.bytes_retain]
  rw [beginMacFromHandle_eq, h]
  exact begin_fst

/-- A policy on keys that have no signing copy is of no concern to the others. -/
theorem beginMac_withFallback (s : Service σ) (a : Algorithm) (h : k.Offers key o)
    (copied : o.copied = true) (fallback : Bool) :
    (s.withFallback fallback).beginMac a key k = s.beginMac a key k := by
  have check : (s.withFallback fallback).checkMac a key k = s.checkMac a key k := rfl
  have bind : (s.withFallback fallback).bindKey key k = s.bindKey key k := by
    rw [← h.copyForSigning_isSome] at copied
    obtain ⟨copy, hc⟩ := Option.isSome_iff_exists.mp copied
    have hcopy : k.copyForSigning key = (some copy, (k.copyForSigning key).2) := Prod.ext hc rfl
    rw [bindKey, bindKey, hcopy]
  rw [beginMac_eq, beginMac_eq, check, bind]
  rfl

/-- The fault of a MAC whose key has no signing copy and is not used itself. -/
def withholding (s : Service σ) (a : Algorithm) (key : Key) (k : Custody) : Fault :=
  match s.checkMac a key k with
  | .error e => e
  | .ok () => .initialization "no signing copy of the key available"

/-- Nothing is asked of the library for it. -/
theorem askMac_withheld (s : Service σ) (a : Algorithm) (h : k.Offers key (.stored true))
    (fallback : s.policy.keyFallback = false) :
    s.askMac a key k = .answer (.error (s.withholding a key k), k) := by
  have none_copied : k.copyForSigning key = (none, k) := by
    have hnone := Option.isSome_eq_false_iff.mp h.copyForSigning_isSome
    have hc : k.copyForSigning key = (none, (k.copyForSigning key).2) :=
      Prod.ext (Option.isNone_iff_eq_none.mp hnone) rfl
    rw [hc, Custody.copyForSigning_none hc]
  have unbound : s.bindKey key k =
      (.error (.initialization "no signing copy of the key available"), k) := by
    simp [bindKey, none_copied, fallback]
  rw [askMac, withholding, unbound]
  cases s.checkMac a key k <;> rfl

theorem withholding_initialization_iff (s : Service σ) (a : Algorithm) (key : Key) (k : Custody) :
    (s.withholding a key k).kind = .initialization ↔ s.checkMac a key k = .ok () := by
  rw [withholding]
  cases hm : s.checkMac a key k with
  | error e =>
    have hkind := kind_checkMac hm
    simp only [reduceCtorEq, iff_false]
    intro hi
    simp [hi] at hkind
  | ok u => simp [Fault.kind]

/-- A computation has a signing copy if there was one to have. -/
theorem usesRestrictedKey_after {c : Computation σ} (h : k.Offers key o)
    (hc : s.beginMac a key k = (.ok c, l)) (lib : Library σ) (calls : List Call)
    (live : (c.after lib calls).phase ≠ .finalized) :
    (c.after lib calls).usesRestrictedKey = o.copied := by
  obtain ⟨_, b, p, hb, _, rfl⟩ := beginMac_eq_ok hc
  rw [Fields.usesRestrictedKey, Computation.binding_after lib _ calls live,
    ← h.copyForSigning_isSome]
  rcases bindKey_eq_ok hb with ⟨copy, hk, rfl⟩ | ⟨_, hk, rfl, _⟩
  · rw [hk]
    rfl
  · rw [hk]
    rfl

/-- It makes no difference to a MAC where its key is from. With the same bytes it begins or fails in
the same way, by a key or by its handle. Once begun it cannot be told apart from another by any
calls, but for whether its key is a signing copy; and it leaves alone what keys there are, but for
their references and the account of copies. Without leave to use a key itself, all that changes is
that a key in hardware is refused: after all else has been looked at, without asking anything of
the library, and with nothing taken hold of. What a store of any run has under a handle is one of the offers. -/
theorem binding_immaterial (s : Service σ) (a : Algorithm) :
    (∀ stores places actions n k e,
      ((World.start s stores places).after actions).session.custody? (.store n) = some k →
      e ∈ k.entries →
        k.Offers e.key (.stored e.hardware) ∧ (k.resolve e.handle).1 = .ok e.key) ∧
    (∀ fallback handle key k l, k.resolve handle = (.ok key, l) →
      ((s.withFallback fallback).beginMacFromHandle a handle k).1 =
        ((s.withFallback fallback).beginMac a key k).1) ∧
    (∀ fallback key (k : Custody), k.Kept ((s.withFallback fallback).beginMac a key k).2) ∧
    (∀ k l key key' o o', k.Offers key o → l.Offers key' o' →
      l.vault.bytes key' = k.vault.bytes key →
        Computation.SameOutcome s.library ((s.withFallback true).beginMac a key k).1
          ((s.withFallback true).beginMac a key' l).1) ∧
    (∀ fallback k l key o c calls, k.Offers key o →
      (s.withFallback fallback).beginMac a key k = (.ok c, l) →
      (c.after s.library calls).phase ≠ .finalized →
        (c.after s.library calls).usesRestrictedKey = o.copied) ∧
    (∀ k key o, k.Offers key o → o.copied = true →
      (s.withFallback false).beginMac a key k = (s.withFallback true).beginMac a key k) ∧
    ∀ k key, k.Offers key (.stored true) → ∃ e : Fault,
      (e.kind = .initialization ↔ a.kind = .mac ∧ s.policy.permits a = true ∧
        k.vault.bytes key ≠ [] ∧ s.policy.minKeyLen.toNat ≤ (k.vault.bytes key).length) ∧
      ∀ (τ : Type) (library : Library τ) (occasion : Nat),
        let t : Service τ := { library, policy := s.policy, occasion }
        (t.withFallback false).beginMac a key k = (.error e, k) ∧
          ((t.withFallback false).askMac a key k).request = none := by
  refine ⟨?_, ?_, ?_, ?_, ?_, ?_, ?_⟩
  · intro stores places actions n k e hk he
    exact World.offers_after s stores places actions hk he
  · intro fallback handle key k l h
    exact beginMacFromHandle_of_resolve h
  · intro fallback key k
    exact kept_beginMac _ a key k
  · intro k l key key' o o' h h' same
    exact beginMac_same (s := s.withFallback true) rfl h h' same
  · intro fallback k l key o c calls h hc live
    exact usesRestrictedKey_after h hc s.library calls live
  · intro k key o h copied
    rw [s.beginMac_withFallback a h copied, s.beginMac_withFallback a h copied]
  · intro k key h
    refine ⟨s.withholding a key k, ?_, ?_⟩
    · rw [withholding_initialization_iff, checkMac_eq_ok_iff, h.isLive_iff]
    · intro τ library occasion t
      have asked := (t.withFallback false).askMac_withheld a h rfl
      exact ⟨by rw [beginMac, asked]; rfl, by rw [asked]; rfl⟩

/-- A key of the caller's, and its bytes stored twice, once in hardware. -/
theorem binding_immaterial_for_three :
    let library : Library Nat :=
      { name := "lengths", digest := fun _ _ => .ok 0, mac := fun _ _ key => .ok key.length,
        absorb := fun n data => .ok (n + data.length)
        output := fun n => .ok (Bytes.zeros (28 + n)) }
    let s : Service Nat := { library, policy := {} }
    let w := (World.start s 2 []).after [.session (.key [1, 2, 3] .signing),
      .session (.insert (.store 0) [1, 2, 3] false), .session (.insert (.store 1) [1, 2, 3] true)]
    let calls : List Call := [.feed [7] 0 1, .finalize 32]
    ∃ k l m, w.session.custody? .direct = some k ∧ w.session.custody? (.store 0) = some l ∧
      w.session.custody? (.store 1) = some m ∧
      ∃ c d e : Computation Nat, (s.beginMac .hmacSha256 ⟨0⟩ k).1 = .ok c ∧
        (s.beginMac .hmacSha256 ⟨1⟩ l).1 = .ok d ∧ (s.beginMac .hmacSha256 ⟨2⟩ m).1 = .ok e ∧
        d.history library calls = c.history library calls ∧
        e.history library calls = c.history library calls ∧
        d.usesRestrictedKey = true ∧ e.usesRestrictedKey = false ∧
        ∃ f : Fault, f.kind = .initialization ∧
          (s.withFallback false).beginMac .hmacSha256 ⟨2⟩ m = (.error f, m) ∧
          ((s.withFallback false).askMac .hmacSha256 ⟨2⟩ m).request = none ∧
          (s.askMac .hmacSha256 ⟨2⟩ m).request = some (.mac .hmacSha256 [1, 2, 3]) := by
  intro library s w calls
  obtain ⟨offers, _, _, same, copied, _, refused⟩ := binding_immaterial s .hmacSha256
  obtain ⟨k, hk⟩ : ∃ k, w.session.custody? .direct = some k := ⟨_, rfl⟩
  obtain ⟨l, hl⟩ : ∃ l, w.session.custody? (.store 0) = some l := ⟨_, rfl⟩
  obtain ⟨m, hm⟩ : ∃ m, w.session.custody? (.store 1) = some m := ⟨_, rfl⟩
  have direct : k.Offers ⟨0⟩ .direct := by
    cases hk
    rfl
  have software : l.Offers ⟨1⟩ (.stored false) := by
    refine (offers 2 [] _ 0 l ⟨1, ⟨1⟩, false⟩ hl ?_).1
    cases hl
    exact .head _
  have hardware : m.Offers ⟨2⟩ (.stored true) := by
    refine (offers 2 [] _ 1 m ⟨1, ⟨2⟩, true⟩ hm ?_).1
    cases hm
    exact .head _
  obtain ⟨c, hc⟩ : ∃ c, (s.beginMac .hmacSha256 ⟨0⟩ k).1 = .ok c := by
    cases hk
    exact ⟨_, rfl⟩
  have bytes_l : l.vault.bytes ⟨1⟩ = k.vault.bytes ⟨0⟩ := by
    cases hk
    cases hl
    rfl
  have bytes_m : m.vault.bytes ⟨2⟩ = k.vault.bytes ⟨0⟩ := by
    cases hk
    cases hm
    rfl
  have begun_l := same k l ⟨0⟩ ⟨1⟩ .direct (.stored false) direct software bytes_l
  have begun_m := same k m ⟨0⟩ ⟨2⟩ .direct (.stored true) direct hardware bytes_m
  have hfallback : s.withFallback true = s := rfl
  rw [hfallback, hc] at begun_l begun_m
  obtain ⟨d, hd, like_d⟩ := begun_l.exists_begun
  obtain ⟨e, he, like_e⟩ := begun_m.exists_begun
  have live : (c.after s.library []).phase ≠ .finalized := by
    cases hk
    cases hc
    decide
  have live_d : (d.after s.library []).phase ≠ .finalized := like_d.phase [] ▸ live
  have live_e : (e.after s.library []).phase ≠ .finalized := like_e.phase [] ▸ live
  refine ⟨k, l, m, hk, hl, hm, c, d, e, hc, hd, he, like_d.history calls, like_e.history calls,
    ?_, ?_, ?_⟩
  · exact copied true l _ ⟨1⟩ (.stored false) d [] software (Prod.ext hd rfl) live_d
  · exact copied true m _ ⟨2⟩ (.stored true) e [] hardware (Prod.ext he rfl) live_e
  · obtain ⟨f, hf, hrefused⟩ := refused m ⟨2⟩ hardware
    obtain ⟨begun, asked⟩ := hrefused Nat library 0
    refine ⟨f, hf.mpr ?_, begun, asked, ?_⟩
    · cases hm
      decide
    · cases hm
      rfl

end Service

end StreamDigest
