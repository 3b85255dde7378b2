import StreamDigest.Proofs.Session
import StreamDigest.Proofs.Veil

namespace StreamDigest

variable {σ τ : Type}

namespace Session

/-- The same action on other bytes. -/
def Action.veil : Action → Action
  | .key bytes usage => .key bytes.veil usage
  | .insert place bytes hardware => .insert place bytes.veil hardware
  | .digest a data n => .digest a data.veil n
  | .mac a number place data n => .mac a number place data.veil n
  | .call number c => .call number c.veil
  | .feedPieces number data size => .feedPieces number data.veil size
  | a => a

def Action.verifies : Action → Bool
  | .call _ c => c.verifies
  | _ => false

/-- An answer without the bytes in it, and without the outcome of a comparison of tags. -/
def Reply.veil (compared : Bool) : Reply → Reply
  | .material m => .material m.veil
  | .output b => .output b.veil
  | .result r => .result (r.veil compared)
  | r => r

/-- The session without what is in its keys and messages. -/
def veil (s : Session σ) (veiled : Library τ) (f : σ → τ) : Session τ where
  service := s.service.veil veiled
  vault := s.vault.veil
  stores := s.stores
  keys := s.keys
  computations := s.computations.map (Option.map (Computation.map f))

variable (s : Session σ) (veiled : Library τ) (f : σ → τ)

@[simp]
theorem service_veil : (s.veil veiled f).service = s.service.veil veiled := rfl

@[simp]
theorem vault_veil : (s.veil veiled f).vault = s.vault.veil := rfl

@[simp]
theorem key?_veil (number : Nat) : (s.veil veiled f).key? number = s.key? number := rfl

@[simp]
theorem computation?_veil (number : Nat) :
    (s.veil veiled f).computation? number = (s.computation? number).map (Computation.map f) := by
  simp only [computation?, veil, Array.getElem?_map]
  rcases s.computations[number]? with _ | _ | c <;> rfl

@[simp]
theorem custody?_veil (site : Place) :
    (s.veil veiled f).custody? site = (s.custody? site).map Custody.veil := by
  cases site with
  | direct => rfl
  | store n =>
    simp only [custody?, veil]
    cases s.stores[n]? <;> rfl

@[simp]
theorem keep_veil (site : Place) (k : Custody) :
    (s.veil veiled f).keep site k.veil = (s.keep site k).veil veiled f := by
  obtain ⟨vault, _ | store⟩ := k <;> cases site <;> rfl

@[simp]
theorem addKey_veil (key : Key) :
    (s.veil veiled f).addKey key = ((s.addKey key).1, (s.addKey key).2.veil veiled f) := rfl

@[simp]
theorem addComputation_veil (begun : Except Fault (Computation σ)) :
    (s.veil veiled f).addComputation (begun.map (Computation.map f)) =
      ((s.addComputation begun).1, (s.addComputation begun).2.veil veiled f) := by
  cases begun with
  | error e => rfl
  | ok c => simp [addComputation, veil, Except.map]

@[simp]
theorem replace_veil (number : Nat) (before after : Computation σ) :
    (s.veil veiled f).replace number (before.map f) (after.map f) =
      (s.replace number before after).veil veiled f := by
  simp [replace, veil, Array.map_setIfInBounds]

theorem ofOutput_veil (x : Except Fault Bytes) (compared : Bool) :
    (ofOutput (x.map Bytes.veil)).veil compared = (ofOutput x).veil compared := by
  cases x <;> simp [ofOutput, Reply.veil, Except.map]

variable {s veiled f} (h : s.service.library.Veils veiled f)

include h

theorem perform?_veil (a : Action) :
    ((s.veil veiled f).perform? a.veil).map (fun x => (x.1.veil a.verifies, x.2)) =
      (s.perform? a).map fun x => (x.1.veil a.verifies, x.2.veil veiled f) := by
  have hon (n : Nat) : (s.service.on n).library.Veils veiled f := h
  cases a
  all_goals
    simp only [Action.veil, perform?, key?_veil, computation?_veil, custody?_veil, service_veil,
      vault_veil, keep_veil, addComputation_veil, replace_veil, ofOutput_veil,
      Vault.deposit_veil, Vault.retain_veil, Vault.signingCopy_veil, Vault.release_veil,
      Vault.find?_veil, Custody.insert?_veil, Custody.remove?_veil, Custody.resolve_veil,
      Custody.copyForSigning_veil, Custody.isLive_veil, Custody.outstanding?_veil,
      Computation.retire_map, Service.library_veil, Service.on_veil,
      Service.beginDigest_veil (hon _), Service.beginDigestNamed_veil (hon _),
      Service.beginMac_veil (hon _), Service.beginMacFromHandle_veil (hon _),
      Service.digest_veil (hon _), Service.mac_veil (hon _), Bytes.pieces_veil, Computation.feedAll_veil h,
      Option.bind_eq_bind, Option.pure_def, Option.map_some, Option.map_bind, Option.bind_map,
      Function.comp_def]
  case inspectKey number =>
    simp only [Reply.veil, Material.veil_veil]
  case resolve site handle =>
    congr 1
    funext k
    rcases k.resolve handle with ⟨e | key, l⟩ <;> simp
  case copyForSigning site number =>
    congr 1
    funext k
    congr 1
    funext key
    rcases k.copyForSigning key with ⟨_ | copy, l⟩ <;> simp
  case call number call =>
    congr 1
    funext c
    obtain ⟨result, after⟩ := Computation.run_perform_veil h c call
    simp only [Action.verifies, Reply.veil, result, after, replace_veil]
  case drop number =>
    congr 1
    funext c
    simp [veil, Array.map_setIfInBounds]
  all_goals rfl

/-- What an action does and answers has nothing to do with the bytes that are kept back. -/
theorem perform_veil (a : Action) :
    ((s.veil veiled f).perform a.veil).1.veil a.verifies = (s.perform a).1.veil a.verifies ∧
      ((s.veil veiled f).perform a.veil).2 = (s.perform a).2.veil veiled f := by
  have hp := perform?_veil h a
  unfold perform
  cases hs : s.perform? a with
  | none =>
    rw [hs, Option.map_none, Option.map_eq_none_iff] at hp
    rw [hp]
    exact ⟨rfl, rfl⟩
  | some x =>
    rw [hs, Option.map_some, Option.map_eq_some_iff] at hp
    obtain ⟨y, hy, heq⟩ := hp
    rw [hy]
    exact Prod.mk.inj heq

end Session

end StreamDigest
