import StreamDigest.Computation.Call
import StreamDigest.Proofs.Software
import StreamDigest.Proofs.Without

namespace StreamDigest

namespace Bytes

/-- As many bytes, of which nothing else can be told. -/
def veil (b : Bytes) : Bytes :=
  b.map fun _ => 0

@[simp]
theorem length_veil (b : Bytes) : b.veil.length = b.length :=
  List.length_map _

@[simp]
theorem veil_veil (b : Bytes) : b.veil.veil = b.veil := by
  simp [veil]

theorem veil_eq_zeros (b : Bytes) : b.veil = zeros b.length :=
  List.map_const'

@[simp]
theorem isEmpty_veil (b : Bytes) : b.veil.isEmpty = b.isEmpty :=
  List.isEmpty_map

@[simp]
theorem slice_veil (b : Bytes) (offset length : Nat) :
    b.veil.slice offset length = (b.slice offset length).veil := by
  simp only [veil, slice, List.map_take, List.map_drop]

@[simp]
theorem overwrite_veil (b : Bytes) (offset : Nat) (part : Bytes) :
    b.veil.overwrite offset part.veil = (b.overwrite offset part).veil := by
  simp only [veil, overwrite, List.map_append, List.map_take, List.map_drop, List.length_map]

theorem cut_veil (size count : Nat) (b : Bytes) :
    b.veil.cut size count = (b.cut size count).map veil := by
  induction count generalizing b with
  | zero => rfl
  | succ count ih =>
    have hdrop : List.drop size b.veil = veil (b.drop size) := List.map_drop.symm
    have htake : List.take size b.veil = veil (b.take size) := List.map_take.symm
    rw [cut, cut, List.map_cons, hdrop, htake, ih]

@[simp]
theorem pieces_veil (size : Nat) (b : Bytes) : b.veil.pieces size = (b.pieces size).map veil := by
  rw [pieces, pieces, cut_veil, length_veil]

end Bytes

def Material.veil (m : Material) : Material :=
  { m with bytes := m.bytes.veil }

@[simp]
theorem Material.veil_veil (m : Material) : m.veil.veil = m.veil := by
  simp [veil]

@[simp]
theorem Material.describe_veil (m : Material) : m.veil.describe = m.describe := by
  have length : m.veil.bytes.length = m.bytes.length := m.bytes.length_veil
  have usage : m.veil.usage = m.usage := rfl
  delta describe
  rw [length, usage]

namespace Vault

/-- The vault without what is in its keys. -/
def veil (v : Vault) : Vault :=
  ⟨v.materials.map Material.veil⟩

@[simp]
theorem find?_veil (v : Vault) (key : Key) : v.veil.find? key = (v.find? key).map Material.veil := by
  simp [veil, find?]

@[simp]
theorem bytes_veil (v : Vault) (key : Key) : v.veil.bytes key = (v.bytes key).veil := by
  unfold bytes
  rw [find?_veil]
  cases v.find? key <;> rfl

@[simp]
theorem references_veil (v : Vault) (key : Key) : v.veil.references key = v.references key := by
  unfold references
  rw [find?_veil]
  cases v.find? key <;> rfl

@[simp]
theorem deposit_veil (v : Vault) (b : Bytes) (usage : Usage) :
    v.veil.deposit b.veil usage = ((v.deposit b usage).1, (v.deposit b usage).2.veil) := by
  simp [deposit, veil, Material.veil]

@[simp]
theorem signingCopy_veil (v : Vault) (key : Key) :
    v.veil.signingCopy key = ((v.signingCopy key).1, (v.signingCopy key).2.veil) := by
  rw [signingCopy, signingCopy, bytes_veil, deposit_veil]

@[simp]
theorem retain_veil (v : Vault) (key : Key) : v.veil.retain key = (v.retain key).veil := by
  refine ext_find? fun k => ?_
  simp only [find?_veil, find?_retain]
  split <;> cases v.find? k <;> rfl

@[simp]
theorem release_veil (v : Vault) (key : Key) : v.veil.release key = (v.release key).veil := by
  refine ext_find? fun k => ?_
  simp only [find?_veil, find?_release]
  split <;> cases v.find? k <;> rfl

@[simp]
theorem settle_veil (v : Vault) (before after : Option Binding) :
    v.veil.settle before after = (v.settle before after).veil := by
  unfold settle
  split <;> simp

end Vault

namespace Custody

def veil (k : Custody) : Custody :=
  { k with vault := k.vault.veil }

variable (k : Custody) (key : Key)

@[simp]
theorem vault_veil : k.veil.vault = k.vault.veil := rfl

@[simp]
theorem release_veil : k.veil.release key = (k.release key).veil := by
  simp [release, veil]

@[simp]
theorem settle_veil (before after : Option Binding) :
    k.veil.settle before after = (k.settle before after).veil := by
  simp [settle, veil]

@[simp]
theorem resolve_veil (handle : UInt64) :
    k.veil.resolve handle = ((k.resolve handle).1, (k.resolve handle).2.veil) := by
  obtain ⟨vault, _ | s⟩ := k
  · rfl
  · simp only [veil, resolve]
    cases s.entry? handle <;> simp

@[simp]
theorem isLive_veil : k.veil.isLive key = k.isLive key := by
  obtain ⟨vault, _ | s⟩ := k <;> simp [veil, isLive]

theorem prune_veil (s : KeyStore) (v : Vault) : s.prune v.veil = s.prune v := by
  simp [KeyStore.prune]

@[simp]
theorem copyForSigning_veil :
    k.veil.copyForSigning key = ((k.copyForSigning key).1, (k.copyForSigning key).2.veil) := by
  obtain ⟨vault, _ | s⟩ := k
  · simp [veil, copyForSigning]
  · simp only [veil, copyForSigning, Vault.signingCopy_veil, prune_veil]
    split <;> rfl

theorem remove_veil (s : KeyStore) (v : Vault) (handle : UInt64) :
    s.remove v.veil handle =
      ((s.remove v handle).1, (s.remove v handle).2.1, (s.remove v handle).2.2.veil) := by
  unfold KeyStore.remove
  cases s.entry? handle <;> simp

@[simp]
theorem insert?_veil (b : Bytes) (hardware : Bool) :
    k.veil.insert? b.veil hardware = (k.insert? b hardware).map fun x => (x.1, x.2.veil) := by
  obtain ⟨vault, _ | s⟩ := k
  · rfl
  · simp [veil, insert?, KeyStore.insert, remove_veil]

@[simp]
theorem remove?_veil (handle : UInt64) :
    k.veil.remove? handle = (k.remove? handle).map fun x => (x.1, x.2.veil) := by
  obtain ⟨vault, _ | s⟩ := k
  · rfl
  · simp [veil, remove?, remove_veil]

@[simp]
theorem outstanding?_veil :
    k.veil.outstanding? = k.outstanding?.map fun x => (x.1, x.2.veil) := by
  obtain ⟨vault, _ | s⟩ := k
  · rfl
  · simp [veil, outstanding?, KeyStore.outstanding, prune_veil]

end Custody

variable {σ τ : Type}

/-- A library as it looks when keys, messages and outputs are veiled: what it does then depends on
nothing that is behind the veil. -/
structure Library.Veils (lib : Library σ) (veiled : Library τ) (f : σ → τ) : Prop where
  digest : ∀ n a, veiled.digest n a = (lib.digest n a).map f
  mac : ∀ n a key, veiled.mac n a key.veil = (lib.mac n a key).map f
  absorb : ∀ p data, veiled.absorb (f p) data.veil = (lib.absorb p data).map f
  output : ∀ p, veiled.output (f p) = (lib.output p).map Bytes.veil

def Call.veil : Call → Call
  | .feed data offset length => .feed data.veil offset length
  | .finalize capacity => .finalize capacity
  | .finalizeInto out offset length => .finalizeInto out.veil offset length
  | .verify expected => .verify expected.veil
  | .discard => .discard

/-- Whether the outcome of a call depends on a tag. -/
def Call.verifies : Call → Bool
  | .verify _ => true
  | _ => false

/-- A result without the bytes in it, and without the outcome of a comparison of tags. -/
def Result.veil (compared : Bool) : Result → Result
  | .status (.error .verification) =>
    if compared then .status (.ok ()) else .status (.error .verification)
  | .status r => .status r
  | .output r => .output (r.map Bytes.veil)
  | .written r out => .written r out.veil

namespace Computation

def map (f : σ → τ) (c : Computation σ) : Computation τ where
  algorithm := c.algorithm
  phase := c.phase
  primitive := c.primitive.map f
  binding := c.binding
  processed := c.processed
  agree := ⟨by simp [c.agree.ended], by simpa using c.agree.unbound⟩

variable {lib : Library σ} {veiled : Library τ} {f : σ → τ} {c : Computation σ} {p : σ}

theorem primitive_map (h : c.primitive = some p) : (c.map f).primitive = some (f p) :=
  congrArg (Option.map f) h

theorem primitive_map_none (h : c.primitive = none) : (c.map f).primitive = none :=
  congrArg (Option.map f) h

@[simp]
theorem fed_map (c : Computation σ) (p : σ) (n : Nat) :
    (c.map f).fed (f p) n = (c.fed p n).map f := rfl

@[simp]
theorem retire_map (c : Computation σ) : (c.map f).retire = c.retire.map f := rfl

@[simp]
theorem start_map (a : Algorithm) (p : σ) (b : Option Binding) :
    (start a p b).map f = start a (f p) b := rfl

@[simp]
theorem algorithm_map (c : Computation σ) : (c.map f).algorithm = c.algorithm := rfl

@[simp]
theorem processed_map (c : Computation σ) : (c.map f).processed = c.processed := rfl

@[simp]
theorem outputLen_map (c : Computation σ) : (c.map f).outputLen = c.outputLen := rfl

@[simp]
theorem phase_map (c : Computation σ) : (c.map f).phase = c.phase := rfl

@[simp]
theorem binding_map (c : Computation σ) : (c.map f).binding = c.binding := rfl

@[simp]
theorem isKeyed_map (c : Computation σ) : (c.map f).isKeyed = c.isKeyed := rfl

@[simp]
theorem usesRestrictedKey_map (c : Computation σ) :
    (c.map f).usesRestrictedKey = c.usesRestrictedKey := rfl

@[simp]
theorem describe_map (c : Computation σ) : (c.map f).describe = c.describe :=
  describe_congr rfl c.phase_map c.isKeyed_map rfl

section veils

variable (h : lib.Veils veiled f)

include h

theorem run_feed_veil (c : Computation σ) (data : Bytes) (offset length : Nat) :
    ((c.map f).feed data.veil offset length).run veiled =
      (((c.feed data offset length).run lib).1, ((c.feed data offset length).run lib).2.map f) := by
  cases hp : c.primitive with
  | none => rw [feed_of_retired hp, feed_of_retired (primitive_map_none hp)]; rfl
  | some p =>
    rw [feed_of_live hp, feed_of_live (primitive_map hp)]
    simp only [Bytes.length_veil, Bytes.slice_veil]
    by_cases hr : data.length < offset + length
    · rw [if_pos hr, if_pos hr]
      rfl
    · rw [if_neg hr, if_neg hr]
      by_cases hl : length = 0
      · rw [if_pos hl, if_pos hl]
        rfl
      · have ha := h.absorb p (data.slice offset length)
        rw [if_neg hl, if_neg hl]
        simp only [Exchange.run, ha]
        cases lib.absorb p (data.slice offset length) <;> rfl

theorem outcome_veil (c : Computation σ) (p : σ) (capacity : Nat) :
    (c.map f).outcome veiled (f p) capacity = (c.outcome lib p capacity).map Bytes.veil := by
  have ho := h.output p
  unfold outcome
  rw [outputLen_map, ho]
  split
  · rfl
  · cases lib.output p with
    | error e => rfl
    | ok output =>
      simp only [Except.map, Fields.checkOutput, Bytes.length_veil, outputLen_map, algorithm_map]
      split <;> rfl

theorem run_finalize_veil (c : Computation σ) (capacity : Nat) :
    ((c.map f).finalize capacity).run veiled =
      (((c.finalize capacity).run lib).1.map Bytes.veil,
        ((c.finalize capacity).run lib).2.map f) := by
  cases hs : c.primitive with
  | some p =>
    have hm : (c.map f).primitive = some (f p) := primitive_map hs
    rw [run_finalize hm, run_finalize hs, outcome_veil h, retire_map]
  | none =>
    rw [finalize_of_retired hs, finalize_of_retired (primitive_map_none hs)]
    rfl

theorem run_finalizeInto_veil (c : Computation σ) (out : Bytes) (offset length : Nat) :
    ((c.map f).finalizeInto out.veil offset length).run veiled =
      (((c.finalizeInto out offset length).run lib).1,
        ((c.finalizeInto out offset length).run lib).2.1.veil,
        ((c.finalizeInto out offset length).run lib).2.2.map f) := by
  cases hs : c.primitive with
  | some p =>
    have hm : (c.map f).primitive = some (f p) := primitive_map hs
    rw [run_finalizeInto hm, run_finalizeInto hs, outcome_veil h, retire_map, Bytes.length_veil]
    split
    · rfl
    · cases c.outcome lib p length with
      | error e => rfl
      | ok output => simp only [Except.map, Bytes.length_veil, Bytes.overwrite_veil]
  | none => simp only [finalizeInto_eq, hs, primitive_map_none hs, Exchange.run]

/-- Whether a tag is right cannot be told, but everything else about the outcome. -/
theorem run_verify_veil (c : Computation σ) (expected : Bytes) :
    (Result.status (((c.map f).verify expected.veil).run veiled).1).veil true =
        (Result.status ((c.verify expected).run lib).1).veil true ∧
      (((c.map f).verify expected.veil).run veiled).2 = ((c.verify expected).run lib).2.map f := by
  have compared (expected output : Bytes) :
      (Result.status (Fields.compare expected output)).veil true = .status (.ok ()) := by
    unfold Fields.compare
    split <;> rfl
  cases hs : c.primitive with
  | some p =>
    have hm : (c.map f).primitive = some (f p) := primitive_map hs
    rw [run_verify hm, run_verify hs, outcome_veil h, retire_map, outputLen_map]
    refine ⟨?_, rfl⟩
    cases c.outcome lib p c.outputLen with
    | error e => rfl
    | ok output => exact (compared _ _).trans (compared _ _).symm
  | none =>
    rw [verify_eq, verify_eq, finalize_of_retired hs, finalize_of_retired (primitive_map_none hs)]
    exact ⟨rfl, rfl⟩

theorem run_perform_veil (c : Computation σ) (call : Call) :
    (((c.map f).perform call.veil).run veiled).1.veil call.verifies =
        (((c.perform call).run lib).1.veil call.verifies) ∧
      (((c.map f).perform call.veil).run veiled).2 = ((c.perform call).run lib).2.map f := by
  cases call with
  | feed data offset length =>
    simp only [Call.veil, perform, Exchange.run_map, run_feed_veil h, and_self]
  | finalize capacity =>
    simp only [Call.veil, perform, Exchange.run_map, run_finalize_veil h, Result.veil]
    cases ((c.finalize capacity).run lib).1 <;> simp [Except.map]
  | finalizeInto out offset length =>
    simp [Call.veil, perform, Exchange.run_map, run_finalizeInto_veil h, Result.veil]
  | verify expected =>
    simp only [Call.veil, perform, Exchange.run_map]
    exact run_verify_veil h c expected
  | discard => exact ⟨rfl, rfl⟩

theorem feedAll_veil (c : Computation σ) (pieces : List Bytes) :
    (c.map f).feedAll veiled (pieces.map Bytes.veil) =
      ((c.feedAll lib pieces).1, (c.feedAll lib pieces).2.map f) := by
  induction pieces generalizing c with
  | nil => rfl
  | cons data rest ih =>
    simp only [List.map_cons, feedAll, Bytes.length_veil, run_feed_veil h]
    rcases (c.feed data 0 data.length).run lib with ⟨e | _, d⟩
    · rfl
    · exact ih d

theorem complete_veil (c : Computation σ) (data : Bytes) :
    (c.map f).complete veiled data.veil =
      ((c.complete lib data).1.map Bytes.veil, (c.complete lib data).2.map f) := by
  simp only [complete, Bytes.length_veil, run_feed_veil h]
  rcases (c.feed data 0 data.length).run lib with ⟨e | _, d⟩
  · rfl
  · exact run_finalize_veil h d d.outputLen

end veils

end Computation

namespace Service

/-- The service with its library veiled. -/
def veil (s : Service σ) (veiled : Library τ) : Service τ where
  library := veiled
  policy := s.policy
  occasion := s.occasion

variable {s : Service σ} {veiled : Library τ} {f : σ → τ} (h : s.library.Veils veiled f)

@[simp]
theorem library_veil (s : Service σ) (veiled : Library τ) : (s.veil veiled).library = veiled := rfl

@[simp]
theorem on_veil (s : Service σ) (veiled : Library τ) (n : Nat) :
    (s.veil veiled).on n = (s.on n).veil veiled := rfl

theorem checkMac_veil (s : Service σ) (veiled : Library τ) (a : Algorithm) (key : Key) (k : Custody) :
    (s.veil veiled).checkMac a key k.veil = s.checkMac a key k := by
  have hp : (s.veil veiled).checkPermitted a = s.checkPermitted a := rfl
  have hm : (s.veil veiled).policy.minKeyLen = s.policy.minKeyLen := rfl
  unfold checkMac
  rw [hp, hm, Custody.isLive_veil, Custody.vault_veil, Vault.bytes_veil, Bytes.length_veil]

theorem bindKey_veil (s : Service σ) (veiled : Library τ) (key : Key) (k : Custody) :
    (s.veil veiled).bindKey key k.veil = ((s.bindKey key k).1, (s.bindKey key k).2.veil) := by
  unfold bindKey
  rw [Custody.copyForSigning_veil]
  rcases k.copyForSigning key with ⟨_ | copy, l⟩
  · have hf : (s.veil veiled).policy.keyFallback = s.policy.keyFallback := rfl
    simp only [hf, Custody.vault_veil, Vault.retain_veil]
    cases s.policy.keyFallback <;> rfl
  · rfl

include h

theorem beginDigest_veil (a : Algorithm) :
    (s.veil veiled).beginDigest a = (s.beginDigest a).map (Computation.map f) := by
  have hd := h.digest s.occasion a
  have hp : (s.veil veiled).checkPermitted a = s.checkPermitted a := rfl
  have hn : (s.veil veiled).occasion = s.occasion := rfl
  unfold beginDigest askDigest
  rw [hp, hn, library_veil]
  split
  · rfl
  · cases s.checkPermitted a with
    | error e => rfl
    | ok u =>
      simp only [Exchange.run, hd]
      cases s.library.digest s.occasion a <;> simp [Except.map]

theorem beginDigestNamed_veil (name : String) :
    (s.veil veiled).beginDigestNamed name = (s.beginDigestNamed name).map (Computation.map f) := by
  rw [beginDigestNamed_eq, beginDigestNamed_eq]
  cases Algorithm.named name with
  | error e => rfl
  | ok a => exact beginDigest_veil h a

theorem beginMac_veil (a : Algorithm) (key : Key) (k : Custody) :
    (s.veil veiled).beginMac a key k.veil =
      ((s.beginMac a key k).1.map (Computation.map f), (s.beginMac a key k).2.veil) := by
  rw [beginMac_eq, beginMac_eq]
  rw [checkMac_veil]
  cases s.checkMac a key k with
  | error e => rfl
  | ok u =>
    simp only [bindKey_veil]
    rcases s.bindKey key k with ⟨e | b, l⟩
    · rfl
    · have hm := h.mac s.occasion a (l.vault.bytes b.key)
      simp only [veil, Custody.vault_veil, Vault.bytes_veil, hm]
      cases s.library.mac s.occasion a (l.vault.bytes b.key) <;> simp [Except.map]

theorem beginMacFromHandle_veil (a : Algorithm) (handle : UInt64) (k : Custody) :
    (s.veil veiled).beginMacFromHandle a handle k.veil =
      ((s.beginMacFromHandle a handle k).1.map (Computation.map f),
        (s.beginMacFromHandle a handle k).2.veil) := by
  rw [beginMacFromHandle_eq, beginMacFromHandle_eq]
  rw [Custody.resolve_veil]
  rcases k.resolve handle with ⟨e | key, l⟩
  · rfl
  · simp only [beginMac_veil h, Custody.release_veil]

theorem digest_veil (a : Algorithm) (data : Bytes) :
    (s.veil veiled).digest a data.veil = (s.digest a data).map Bytes.veil := by
  unfold digest
  rw [beginDigest_veil h]
  cases s.beginDigest a with
  | error e => rfl
  | ok c => exact congrArg Prod.fst (Computation.complete_veil h c data)

theorem mac_veil (a : Algorithm) (key : Key) (data : Bytes) (k : Custody) :
    (s.veil veiled).mac a key data.veil k.veil =
      ((s.mac a key data k).1.map Bytes.veil, (s.mac a key data k).2.veil) := by
  unfold mac
  rw [beginMac_veil h]
  rcases s.beginMac a key k with ⟨e | c, l⟩
  · rfl
  · have hc := Computation.complete_veil h c data
    have hs : (s.veil veiled).library = veiled := rfl
    simp only [Except.map, hs, hc, Computation.binding_map, Custody.settle_veil]

end Service

/-- The hash that a computation runs. -/
def Primitive.hash : Primitive → Hash
  | plain h _ | hmac h _ => h

theorem Primitive.length_output (p : Primitive) : p.output.length = p.hash.outputLen := by
  cases p with
  | plain h s | hmac h s => exact h.length_output _

namespace Library

/-- The software library without keys and messages. -/
def softwareVeiled : Library Hash where
  name := software.name
  digest n a := (software.digest n a).map Primitive.hash
  mac n a key := (software.mac n a key).map Primitive.hash
  absorb h _ := .ok h
  output h := .ok (Bytes.zeros h.outputLen)

theorem software_veils : software.Veils softwareVeiled Primitive.hash where
  digest _ _ := rfl
  mac _ a key := by
    -- The hash is taken off both sides by `simp`: `rfl` would compare the states first.
    cases a with
    | blake2bMac =>
      simp only [softwareVeiled, software, softwareMac, Primitive.ofKeyedBlake2b, Bytes.length_veil]
      split <;> simp only [Except.map, Primitive.hash]
    | hmacSha1 | hmacSha256 | hmacSha384 | hmacSha512 =>
      simp only [softwareVeiled, software, softwareMac, Except.map, Primitive.ofHmac, Primitive.hash]
    | sha1 | sha256 | sha384 | sha512 | blake2b => rfl
  absorb p data := by cases p <;> rfl
  output p := by
    have hlen := p.length_output
    simp only [softwareVeiled, software, Except.map, Bytes.veil_eq_zeros, hlen]

end Library

end StreamDigest
