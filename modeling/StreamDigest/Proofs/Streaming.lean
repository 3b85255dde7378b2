import StreamDigest.Proofs.Service
import StreamDigest.Proofs.Standard

namespace StreamDigest

/-- One feeding: part of a buffer, the range of which may be out of bounds. -/
structure Feed where
  data : Bytes
  offset : Nat
  length : Nat

namespace Feed

def call (f : Feed) : Call :=
  .feed f.data f.offset f.length

/-- The bytes that are taken in. -/
def accepted (f : Feed) : Bytes :=
  if f.data.length < f.offset + f.length then [] else f.data.slice f.offset f.length

def message (feeds : List Feed) : Bytes :=
  feeds.flatMap accepted

def result (f : Feed) : Except Fault Unit :=
  if f.data.length < f.offset + f.length then
    .error (.invalidRange "update" f.offset f.length f.data.length)
  else .ok ()

end Feed

/-- The computations of an algorithm that a service has begun, for a MAC with a key of these bytes,
which may have come from a store. A digest has no use for the key. -/
inductive Service.Begun {σ : Type} (s : Service σ) (a : Algorithm) : Bytes → Computation σ → Prop
  | digest {key c} (h : s.beginDigest a = .ok c) : Begun s a key c
  | mac {k l : Custody} {key c} (h : s.beginMac a key k = (.ok c, l)) :
      Begun s a (k.vault.bytes key) c
  | macFromHandle {k k' l : Custody} {handle key c} (hr : k.resolve handle = (.ok key, k'))
      (h : s.beginMacFromHandle a handle k = (.ok c, l)) : Begun s a (k.vault.bytes key) c

namespace Computation

variable {c : Computation Primitive} {p : Primitive} {a : Algorithm} {key : Bytes}

/-- A computation of an algorithm that has taken in a message, if it is not over. -/
structure Along (c : Computation Primitive) (a : Algorithm) (p : Primitive) (message : Bytes) :
    Prop where
  algorithm : c.algorithm = a
  primitive : c.primitive = some (p.absorb message)

theorem along_start (h : p.Computes a key) (b : Option Binding) :
    (start a p b).Along a p [] :=
  ⟨rfl, by rw [h.absorb_nil]; rfl⟩

/-- What a feeding does over the software library. -/
theorem Along.feed {message : Bytes} (h : c.Along a p message) (f : Feed) :
    ((c.feed f.data f.offset f.length).run .software).1 = f.result ∧
      ((c.feed f.data f.offset f.length).run .software).2.Along a p (message ++ f.accepted) := by
  obtain ⟨ha, hs⟩ := h
  rcases run_feed .software hs f.data f.offset f.length with
    ⟨hr, hf⟩ | ⟨hr, hl, hf⟩ | ⟨hr, hl, q, hq, hf⟩ | ⟨hr, hl, e, he, hf⟩
  · rw [hf, Feed.result, Feed.accepted, if_pos hr, if_pos hr, List.append_nil]
    exact ⟨rfl, ha, hs⟩
  · have hslice : f.data.slice f.offset f.length = [] := by simp [Bytes.slice, hl]
    rw [hf, Feed.result, Feed.accepted, if_neg (by omega), if_neg (by omega), hslice,
      List.append_nil]
    exact ⟨rfl, ha, rfl⟩
  · have hq' : (p.absorb message).absorb (f.data.slice f.offset f.length) = q := Except.ok.inj hq
    rw [p.absorb_append] at hq'
    rw [hf, Feed.result, Feed.accepted, if_neg (by omega), if_neg (by omega), hq'.symm]
    exact ⟨rfl, ha, rfl⟩
  · cases he

theorem Along.after_feeds {message : Bytes} (h : c.Along a p message) (feeds : List Feed) :
    (c.after .software (feeds.map Feed.call)).Along a p (message ++ Feed.message feeds) := by
  induction feeds generalizing c message with
  | nil => simpa [Feed.message] using h
  | cons f rest ih =>
    have hf := (h.feed f).2
    rw [Feed.message, List.flatMap_cons, ← List.append_assoc, List.map_cons, after_cons]
    apply ih
    rw [Feed.call, perform, Exchange.run_map]
    exact hf

theorem Along.outcome {message : Bytes} (h : c.Along a p message) (hp : p.Computes a key)
    (capacity : Nat) : c.outcome .software (p.absorb message) capacity =
      if capacity < a.outputLen then .error (.outputTooSmall a.outputLen capacity)
      else .ok (a.standard key message) := by
  have hlen : c.outputLen = a.outputLen := congrArg Algorithm.outputLen h.algorithm
  have hout : Library.software.output (p.absorb message) = .ok (a.standard key message) := by
    change Except.ok (p.absorb message).output = _
    rw [hp.output_eq]
  have hcheck : c.checkOutput (a.standard key message) = .ok (a.standard key message) := by
    rw [Fields.checkOutput, if_pos (by rw [hlen, a.length_standard])]
  simp only [Computation.outcome, hlen, hout, hcheck]

theorem Along.finalize {message : Bytes} (h : c.Along a p message) (hp : p.Computes a key)
    {capacity : Nat} (hc : a.outputLen ≤ capacity) :
    ((c.finalize capacity).run .software).1 = .ok (a.standard key message) := by
  rw [run_finalize h.primitive, h.outcome hp, if_neg (by omega)]

/-- All that may be said of a computation over the software library after calls of any kind. -/
def Sane (c : Computation Primitive) (a : Algorithm) (p : Primitive) : Prop :=
  c.phase = .finalized ∨ ∃ message, c.Along a p message

theorem Sane.perform (h : c.Sane a p) (call : Call) :
    ((c.perform call).run .software).2.Sane a p := by
  rcases h with hf | ⟨message, hm⟩
  · rw [perform_finalized hf]
    exact .inl hf
  · cases call with
    | feed data offset length =>
      have hf := (hm.feed ⟨data, offset, length⟩).2
      rw [Computation.perform, Exchange.run_map]
      exact .inr ⟨_, hf⟩
    | finalize | finalizeInto | verify | discard =>
      exact .inl (phase_last .software c _ (by simp))

theorem Sane.after (h : c.Sane a p) (calls : List Call) :
    (c.after .software calls).Sane a p := by
  induction calls generalizing c with
  | nil => exact h
  | cons call rest ih => exact ih (h.perform call)

/-- The software library never fails in the middle of a computation. -/
theorem Sane.fault_ne (h : c.Sane a p) (hp : p.Computes a key) (call : Call) (text : String) :
    ((c.perform call).run .software).1.fault? ≠ some (.computation text) := by
  rcases h with hf | ⟨message, hm⟩
  · rw [run_perform_finalized .software hf]
    split
    · simp [Result.fault?]
    · simp [Call.fault?_refuse]
  · have hs := hm.primitive
    have ho (capacity : Nat) : c.outcome .software (p.absorb message) capacity ≠
        .error (.computation text) := by
      rw [hm.outcome hp]
      split <;> simp
    cases call with
    | feed data offset length =>
      have hf := (hm.feed ⟨data, offset, length⟩).1
      rw [Computation.perform, Exchange.run_map]
      change (Result.status ((c.feed data offset length).run .software).1).fault? ≠ _
      rw [show ((c.feed data offset length).run .software).1 = _ from hf, Feed.result]
      split <;> simp [Result.fault?]
    | finalize capacity =>
      have ho := ho capacity
      rw [Computation.perform, Exchange.run_map, run_finalize hs]
      cases hr : c.outcome .software (p.absorb message) capacity <;> simp_all [Result.fault?]
    | finalizeInto out offset length =>
      have ho := ho length
      rw [Computation.perform, Exchange.run_map, run_finalizeInto hs]
      by_cases hr : out.length < offset + length
      · simp [hr, Result.fault?]
      · rw [if_neg hr]
        cases hr : c.outcome .software (p.absorb message) length <;> simp_all [Result.fault?]
    | verify expected =>
      have ho := ho c.outputLen
      rw [Computation.perform, Exchange.run_map, run_verify hs]
      cases hr : c.outcome .software (p.absorb message) c.outputLen with
      | error e => simp_all [Result.fault?, Except.bind]
      | ok output =>
        by_cases he : output = expected <;>
          simp [Result.fault?, Except.bind, Fields.compare, he]
    | discard => simp [Computation.perform, Exchange.run, Result.fault?]

/-- All at once comes to the same as piece by piece. -/
theorem Along.complete (h : c.Along a p []) (hp : p.Computes a key) (message : Bytes) :
    (c.complete .software message).1 = .ok (a.standard key message) := by
  let f : Feed := ⟨message, 0, message.length⟩
  have hin : ¬f.data.length < f.offset + f.length := by simp [f]
  have hacc : f.accepted = message := by
    rw [Feed.accepted, if_neg hin]
    simp [f, Bytes.slice]
  have hres : f.result = .ok () := by rw [Feed.result, if_neg hin]
  have hf := h.feed f
  rw [hres, hacc, List.nil_append] at hf
  unfold Computation.complete
  rcases hrun : (c.feed message 0 message.length).run Library.software with ⟨r, d⟩
  rw [show (c.feed f.data f.offset f.length).run Library.software = (r, d) from hrun] at hf
  obtain ⟨rfl, hd⟩ := hf
  exact hd.finalize hp (Nat.le_of_eq (congrArg Algorithm.outputLen hd.algorithm).symm)

end Computation

namespace Service

variable {s : Service Primitive} {a : Algorithm} {key : Bytes} {c : Computation Primitive}

theorem Begun.along (hl : s.library = .software) (h : s.Begun a key c) :
    ∃ p, p.Computes a key ∧ c.Along a p [] := by
  cases h with
  | digest h =>
    obtain ⟨_, _, p, hp, rfl⟩ := beginDigest_eq_ok_iff.mp h
    rw [hl] at hp
    have hc := Primitive.computes_digest hp key
    exact ⟨p, hc, Computation.along_start hc none⟩
  | mac h =>
    obtain ⟨_, b, p, hb, hp, rfl⟩ := beginMac_eq_ok h
    rw [hl, bytes_bindKey hb] at hp
    have hc := Primitive.computes_mac hp
    exact ⟨p, hc, Computation.along_start hc (some b)⟩
  | @macFromHandle k k' l handle key c hr h =>
    obtain ⟨key', k₁, l₁, hr', hm, _⟩ := beginMacFromHandle_eq_ok h
    obtain ⟨rfl, rfl⟩ : key' = key ∧ k₁ = k' := by simpa using hr'.symm.trans hr
    obtain ⟨_, b, p, hb, hp, rfl⟩ := beginMac_eq_ok hm
    obtain ⟨hk, _⟩ := Custody.resolve_eq_ok hr
    rw [hl, bytes_bindKey hb, hk, Vault.bytes_retain] at hp
    have hc := Primitive.computes_mac hp
    exact ⟨p, hc, Computation.along_start hc (some b)⟩

/-- Over the software library a computation takes in all that its caller feeds it within bounds,
and finalizes to the standard function of all of that in order, however it was cut up. It comes
to the same in one go, and the library never fails on the way. -/
theorem streaming_computes_standard (policy : Policy) (occasion : Nat) (a : Algorithm) :
    let s : Service Primitive := { library := .software, policy, occasion }
    (a.kind = .digest → policy.permits a = true → ∃ c, s.beginDigest a = .ok c) ∧
    (∀ key message, (a.standard key message).length = a.outputLen) ∧
    (∀ key c, s.Begun a key c →
      (∀ (feeds : List Feed) (f : Feed),
        (((c.after .software (feeds.map Feed.call)).perform f.call).run .software).1 =
          .status f.result) ∧
      (∀ (feeds : List Feed) (capacity : Nat), a.outputLen ≤ capacity →
        (((c.after .software (feeds.map Feed.call)).perform (.finalize capacity)).run .software).1 =
          .output (.ok (a.standard key (Feed.message feeds)))) ∧
      ∀ calls call text, (((c.after .software calls).perform call).run .software).1.fault? ≠
        some (.computation text)) ∧
    (∀ key c message, s.beginDigest a = .ok c →
      s.digest a message = .ok (a.standard key message)) ∧
    (∀ k key c l message, s.beginMac a key k = (.ok c, l) →
      (s.mac a key message k).1 = .ok (a.standard (k.vault.bytes key) message)) ∧
    ∀ k key message text, s.digest a message ≠ .error (.computation text) ∧
      (s.mac a key message k).1 ≠ .error (.computation text) := by
  intro s
  have hl : s.library = .software := rfl
  have digest (key : Bytes) (c : Computation Primitive) (message : Bytes)
      (h : s.beginDigest a = .ok c) : s.digest a message = .ok (a.standard key message) := by
    obtain ⟨p, hp, halong⟩ := Begun.along hl (.digest h : s.Begun a key c)
    simp [Service.digest, h, hl, halong.complete hp, bind, Except.bind]
  have mac (k : Custody) (key : Key) (c : Computation Primitive) (l : Custody) (message : Bytes)
      (h : s.beginMac a key k = (.ok c, l)) :
      (s.mac a key message k).1 = .ok (a.standard (k.vault.bytes key) message) := by
    obtain ⟨p, hp, halong⟩ := Begun.along hl (.mac h)
    simp [Service.mac, h, hl, halong.complete hp]
  refine ⟨?_, fun key message => a.length_standard key message, ?_, digest, mac, ?_⟩
  · intro hk hp
    have hlib : s.library.digest occasion a = .ok (.ofHash a.hash) := by
      change Library.softwareDigest a = _
      rw [Library.softwareDigest, hk]
    exact ⟨_, beginDigest_eq_ok_iff.mpr ⟨hk, hp, _, hlib, rfl⟩⟩
  · intro key c h
    obtain ⟨p, hp, halong⟩ := h.along hl
    refine ⟨?_, ?_, ?_⟩
    · intro feeds f
      rw [Feed.call, Computation.perform, Exchange.run_map]
      exact congrArg Result.status ((halong.after_feeds feeds).feed f).1
    · intro feeds capacity hc
      rw [Computation.perform, Exchange.run_map]
      exact congrArg Result.output ((halong.after_feeds feeds).finalize hp hc)
    · intro calls call text
      have hsane : c.Sane a p := .inr ⟨[], halong⟩
      exact (hsane.after calls).fault_ne hp call text
  · intro k key message text
    constructor
    · cases hb : s.beginDigest a with
      | ok c => simp [digest [] c message hb]
      | error e =>
        have hne := s.beginDigest_ne a text
        rw [hb] at hne
        simpa [Service.digest, hb, bind, Except.bind] using hne
    · rcases hb : s.beginMac a key k with ⟨e | c, l⟩
      · have hne := s.beginMac_ne a key k text
        rw [hb] at hne
        simpa [Service.mac, hb] using hne
      · simp [mac k key c l message hb]

/-- A stored key, and a message of which one piece is out of bounds. -/
theorem streamed_hmac_of_stored_key :
    let s : Service Primitive := { library := .software, policy := {} }
    let k : Custody := {
      vault := { materials := #[⟨[1, 2, 3], .any, 1⟩] }
      source := .store { lastHandle := 1, entries := [⟨1, ⟨0⟩, false⟩] } }
    let feeds : List Feed := [⟨[7, 8, 9], 1, 1⟩, ⟨[7], 0, 2⟩, ⟨[7, 8, 9], 0, 2⟩]
    ∃ c l, s.beginMacFromHandle .hmacSha256 1 k = (.ok c, l) ∧
      (((c.after .software (feeds.map Feed.call)).perform (.finalize 40)).run .software).1 =
        .output (.ok (Algorithm.hmacSha256.standard [1, 2, 3] [8, 7, 8])) := by
  intro s k feeds
  obtain ⟨c, hc⟩ : ∃ c, (s.beginMacFromHandle .hmacSha256 1 k).1 = .ok c := ⟨_, rfl⟩
  have hr : k.resolve 1 = (.ok ⟨0⟩, (k.resolve 1).2) := rfl
  have begun : s.Begun .hmacSha256 [1, 2, 3] c := .macFromHandle hr (Prod.ext hc rfl)
  have h := (streaming_computes_standard {} 0 .hmacSha256).2.2.1 [1, 2, 3] c begun
  exact ⟨c, _, Prod.ext hc rfl, h.2.1 feeds 40 (by decide)⟩

end Service

end StreamDigest
