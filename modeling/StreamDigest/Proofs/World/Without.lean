import StreamDigest.Proofs.Session.Without
import StreamDigest.Proofs.World

namespace StreamDigest

variable {σ : Type} {key : Key}

namespace Pool

variable {p : Pool σ} {a : Action}

/-- The pool as it is when its store is without a key. -/
def without (p : Pool σ) (key : Key) : Pool σ :=
  { p with custody := p.custody.without key }

/-- Whether an action asks the store for the key, by its handle. -/
def asksFor (p : Pool σ) (key : Key) : Action → Bool
  | .openMac _ handle _ | .removeKey handle => p.custody.lists handle key
  | _ => false

theorem enroll_without {begin : Custody → Except Fault (Computation σ) × Custody}
    (hb : begin (p.custody.without key) =
      ((begin p.custody).1, (begin p.custody).2.without key)) :
    (p.without key).enroll begin = ((p.enroll begin).1, (p.enroll begin).2.without key) := by
  unfold enroll
  by_cases hfull : p.service.policy.maxLive.toNat ≤ p.live
  · have hfull' : (p.without key).service.policy.maxLive.toNat ≤ (p.without key).live := hfull
    rw [if_pos hfull, if_pos hfull']
    rfl
  · have hfull' : ¬(p.without key).service.policy.maxLive.toNat ≤ (p.without key).live := hfull
    have hcustody : begin (p.without key).custody = _ := hb
    rw [if_neg hfull, if_neg hfull', hcustody]
    rcases begin p.custody with ⟨e | c, l⟩
    · rfl
    · simp only [Custody.settle_without]
      rfl

theorem call_without (p : Pool σ) (key : Key) (h : Handle) (call : Call) :
    (p.without key).call h call = ((p.call h call).1, (p.call h call).2.without key) := by
  have harena : (p.without key).arena = p.arena := rfl
  unfold Pool.call
  rw [harena]
  cases p.arena.find h with
  | unknown | retired => rfl
  | here c =>
    have hsettle := p.custody.settle_without key c.binding
    simp only [without, hsettle]
    rfl

theorem openDigest_without (p : Pool σ) (key : Key) (a : Algorithm) (n : Nat) :
    (p.without key).openDigest a n = ((p.openDigest a n).1, (p.openDigest a n).2.without key) :=
  enroll_without rfl

theorem openMac_without (h : p.custody.Spares key) (a : Algorithm) {handle : UInt64}
    (hl : p.custody.lists handle key = false) (n : Nat) : (p.without key).openMac a handle n =
      ((p.openMac a handle n).1, (p.openMac a handle n).2.without key) :=
  enroll_without ((p.service.on n).beginMacFromHandle_without a h (Custody.lists_eq_false hl))

theorem perform_without (h : p.custody.Spares key) (ha : p.asksFor key a = false) :
    (p.without key).perform a = ((p.perform a).1, (p.perform a).2.without key) := by
  have hcustody : (p.without key).custody = p.custody.without key := rfl
  cases a with
  | openDigest a n => simp [perform, openDigest_without]
  | openMac a handle n => simp [perform, openMac_without h a ha]
  | call i call => simp [perform, call_without]
  | insertKey bytes hardware =>
    have hi := h.insert?_without bytes hardware
    simp only [perform, hcustody, hi]
    cases p.custody.insert? bytes hardware <;> rfl
  | removeKey handle =>
    have hr := Custody.remove?_without (Custody.lists_eq_false ha)
    simp only [perform, hcustody, hr]
    cases p.custody.remove? handle <;> rfl
  | outstanding =>
    have ho := h.outstanding?_without
    simp only [perform, hcustody, ho]
    cases p.custody.outstanding? <;> rfl
  | digest a data n => rfl

end Pool

namespace World

variable {w : World σ} {a : Action} {handed : Nat → List Key}

/-- The world as it is when a key has been taken out of the store that it was in. -/
def without (w : World σ) (key : Key) : World σ :=
  { w with session := w.session.without key }

/-- Whether an action asks a store for the key, or looks at the references to it. -/
def asksFor (w : World σ) (key : Key) : Action → Bool
  | .session a => w.session.asksFor key a
  | .pool number a => (w.hosts[number]?.bind w.pool?).any fun p => p.asksFor key a

theorem pool?_without (w : World σ) (key : Key) (host : Host σ) :
    (w.without key).pool? host = (w.pool? host).map fun p => p.without key := by
  have hk := w.session.custody?_without key host.place
  have hw : (w.without key).session = w.session.without key := rfl
  rw [pool?, pool?, hw, hk]
  cases w.session.custody? host.place <;> rfl

theorem keep_without (w : World σ) (key : Key) (number : Nat) (host : Host σ) (p : Pool σ) :
    (w.without key).keep number host (p.without key) = (w.keep number host p).without key := by
  have hk := w.session.keep_without key host.place p.custody
  have hp : (p.without key).custody = p.custody.without key := rfl
  have hw : (w.without key).session = w.session.without key := rfl
  rw [keep, keep, hp, hw, hk]
  rfl

/-- An action that does not ask for a key does the same without it. -/
theorem perform_without (h : w.session.Spares key) (ha : w.asksFor key a = false) :
    (w.without key).perform a = ((w.perform a).1, (w.perform a).2.without key) := by
  cases a with
  | session a =>
    have hs := Session.perform_without h ha
    have hw : (w.without key).session = w.session.without key := rfl
    simp only [perform, perform?, hw, hs]
    rfl
  | pool number a =>
    have hhosts : (w.without key).hosts = w.hosts := rfl
    cases hh : w.hosts[number]? with
    | none => simp [perform, perform?, hhosts, hh]
    | some host =>
      cases hp : w.pool? host with
      | none => simp [perform, perform?, hhosts, hh, hp, pool?_without]
      | some p =>
        obtain ⟨k, hk, rfl⟩ := Option.map_eq_some_iff.mp hp
        have hasks := ha
        simp only [asksFor, hh, Option.bind_some, hp, Option.any_some] at hasks
        have hperform := Pool.perform_without (p := ⟨_, k, _⟩) (h.custody hk) hasks
        simp [perform, perform?, hhosts, hh, hp, pool?_without, hperform, keep_without]

/-- A stored key has a reference, and it is not one of the copies that stores hand out. -/
theorem Accounted.spares (h : w.Accounted handed) (hm : key ∈ stored w.session.stores)
    (reserves : ∀ n k, w.session.custody? (.store n) = some k → k.Reserves key) :
    w.session.Spares key := by
  have hpos := h.balanced.references_pos.mpr (List.mem_append_left _ hm)
  refine ⟨hpos, fun n k hk hc => h.apart n key ?_ hm, reserves⟩
  have hv := Session.vault_of_custody? hk
  exact ((h.listed n k hk).agree key (hv ▸ hpos)).mp hc

end World

end StreamDigest
