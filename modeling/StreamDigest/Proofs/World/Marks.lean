import StreamDigest.Proofs.World
import StreamDigest.Proofs.Session.Step

namespace StreamDigest

namespace Vault

variable {v w : Vault} {key : Key}

/-- What stays with material for good, by serial. -/
def marks (v : Vault) : List (Bytes × Usage) :=
  v.materials.toList.map fun m => (m.bytes, m.usage)

theorem getElem?_marks (v : Vault) (key : Key) :
    v.marks[key.serial]? = (v.find? key).map fun m => (m.bytes, m.usage) := by
  simp [marks, find?]

theorem holds_iff_marks : v.Holds key ↔ key.serial < v.marks.length := by
  simp [Holds, marks]

theorem marks_congr (h : ∀ k, (w.find? k).map (fun m => (m.bytes, m.usage)) =
    (v.find? k).map fun m => (m.bytes, m.usage)) : w.marks = v.marks :=
  List.ext_getElem? fun i => by
    have hi := h ⟨i⟩
    rwa [← getElem?_marks, ← getElem?_marks] at hi

@[simp]
theorem marks_retain (v : Vault) (key : Key) : (v.retain key).marks = v.marks := by
  refine marks_congr fun k => ?_
  rw [find?_retain]
  split
  · cases v.find? k <;> rfl
  · rfl

@[simp]
theorem marks_release (v : Vault) (key : Key) : (v.release key).marks = v.marks := by
  refine marks_congr fun k => ?_
  rw [find?_release]
  split
  · cases v.find? k <;> rfl
  · rfl

@[simp]
theorem marks_settle (v : Vault) (before after : Option Binding) :
    (v.settle before after).marks = v.marks := by
  unfold settle
  split <;> simp

@[simp]
theorem marks_deposit (v : Vault) (b : Bytes) (usage : Usage) :
    (v.deposit b usage).2.marks = v.marks ++ [(b, usage)] := by
  simp [marks, deposit]

/-- The serial of new material is the number of those before it. -/
theorem serial_deposit (v : Vault) (b : Bytes) (usage : Usage) :
    (v.deposit b usage).1.serial = v.marks.length := by
  simp [marks, deposit]

theorem holds_of_marks (h : v.marks <+: w.marks) (hk : v.Holds key) : w.Holds key :=
  holds_iff_marks.mpr (Nat.lt_of_lt_of_le (holds_iff_marks.mp hk) h.length_le)

theorem getElem?_of_marks {i : Nat} {mark : Bytes × Usage} (h : v.marks <+: w.marks)
    (hi : v.marks[i]? = some mark) : w.marks[i]? = some mark := by
  obtain ⟨hlt, rfl⟩ := List.getElem?_eq_some_iff.mp hi
  exact List.prefix_iff_getElem?.mp h i hlt

theorem bytes_of_marks {b : Bytes} {usage : Usage} (h : v.marks[key.serial]? = some (b, usage)) :
    v.bytes key = b ∧ v.usage key = usage := by
  rw [getElem?_marks] at h
  obtain ⟨m, hm, heq⟩ := Option.map_eq_some_iff.mp h
  cases heq
  simp [bytes, Vault.usage, hm]

end Vault

namespace Custody

variable {k l : Custody} {n : UInt64}

theorem marks_resolve (k : Custody) (handle : UInt64) :
    (k.resolve handle).2.vault.marks = k.vault.marks := by
  unfold resolve
  split
  · rfl
  · split
    · exact Vault.marks_retain _ _
    · rfl

theorem marks_copyForSigning (k : Custody) (key : Key) :
    k.vault.marks <+: (k.copyForSigning key).2.vault.marks := by
  have grown : k.vault.marks <+: (k.vault.signingCopy key).2.marks := by
    rw [Vault.signingCopy, Vault.marks_deposit]
    exact List.prefix_append _ _
  unfold copyForSigning
  split
  · exact grown
  · split
    · exact grown
    · exact List.prefix_refl _

theorem marks_remove? {b : Bool} (h : k.remove? n = some (b, l)) :
    l.vault.marks = k.vault.marks := by
  obtain ⟨vault, _ | s⟩ := k
  · cases h
  · simp only [remove?, KeyStore.remove] at h
    split at h
    all_goals
      cases h
      simp

theorem marks_insert? {b : Bytes} {hardware : Bool} (h : k.insert? b hardware = some (n, l)) :
    l.vault.marks = k.vault.marks ++ [(b, .any)] := by
  obtain ⟨s, hs, _⟩ := insert?_eq_some h
  obtain ⟨removed, m, t, hr, _, hi⟩ := insert?_of_stock hs b hardware
  cases h.symm.trans hi
  rw [← Vault.marks_deposit]
  exact marks_remove? hr

theorem marks_outstanding? {n : Nat} (h : k.outstanding? = some (n, l)) :
    l.vault.marks = k.vault.marks := by
  obtain ⟨vault, _ | s⟩ := k
  · cases h
  · cases h
    rfl

end Custody

namespace Service

variable {σ : Type}

theorem marks_bindKey (s : Service σ) (key : Key) (k : Custody) :
    k.vault.marks <+: (s.bindKey key k).2.vault.marks := by
  have grown := k.marks_copyForSigning key
  unfold bindKey
  rcases hc : k.copyForSigning key with ⟨_ | copy, l⟩
  · rw [hc] at grown
    cases s.policy.keyFallback <;> simpa using grown
  · rw [hc] at grown
    exact grown

theorem marks_beginMac (s : Service σ) (a : Algorithm) (key : Key) (k : Custody) :
    k.vault.marks <+: (s.beginMac a key k).2.vault.marks := by
  have grown := s.marks_bindKey key k
  have hm := beginMac_beginning s a key k
  generalize (s.beginMac a key k).1 = r at hm
  generalize (s.beginMac a key k).2 = l at hm ⊢
  cases hm with
  | refused => exact List.prefix_refl _
  | unbound h hb | begun h hb =>
    rw [hb] at grown
    exact grown
  | failed h hb =>
    rw [hb] at grown
    simpa [Custody.release] using grown

theorem marks_beginMacFromHandle (s : Service σ) (a : Algorithm) (handle : UInt64) (k : Custody) :
    k.vault.marks <+: (s.beginMacFromHandle a handle k).2.vault.marks := by
  have same := k.marks_resolve handle
  rw [beginMacFromHandle_eq]
  rw [← same]
  rcases k.resolve handle with ⟨e | key, l⟩
  · exact List.prefix_refl _
  · simpa [Custody.release] using s.marks_beginMac a key l

theorem marks_mac (s : Service σ) (a : Algorithm) (key : Key) (data : Bytes) (k : Custody) :
    k.vault.marks <+: (s.mac a key data k).2.vault.marks := by
  have grown := s.marks_beginMac a key k
  unfold mac
  rcases hb : s.beginMac a key k with ⟨e | c, l⟩
  · rw [hb] at grown
    exact grown
  · rw [hb] at grown
    simpa [Custody.settle] using grown

end Service

namespace Session

variable {σ : Type} {s : Session σ} {a : Action}

theorem marks_of_perform? (h : ∀ x, s.perform? a = some x → s.vault.marks <+: x.2.vault.marks) :
    s.vault.marks <+: (s.perform a).2.vault.marks := by
  unfold perform
  cases hp : s.perform? a with
  | none => exact List.prefix_refl _
  | some x => exact h x hp

theorem marks_addComputation (s : Session σ) (begun : Except Fault (Computation σ)) :
    (s.addComputation begun).2.vault.marks = s.vault.marks := by
  cases begun <;> rfl

theorem marks_keep (s : Session σ) (site : Place) (k : Custody) :
    (s.keep site k).vault.marks = k.vault.marks := by
  rw [vault_keep]

theorem marks_custody {place : Place} {k l : Custody} (hk : s.custody? place = some k)
    (h : k.vault.marks <+: l.vault.marks) : s.vault.marks <+: (s.keep place l).vault.marks := by
  cases place with
  | direct =>
    cases hk
    simpa [marks_keep] using h
  | store n =>
    obtain ⟨store, _, rfl⟩ := Option.map_eq_some_iff.mp hk
    simpa [marks_keep] using h

theorem marks_perform (s : Session σ) (a : Action) :
    s.vault.marks <+: (s.perform a).2.vault.marks := by
  refine marks_of_perform? fun x h => ?_
  cases a
  all_goals
    simp only [perform?, Option.bind_eq_bind, Option.bind_eq_some_iff, Option.pure_def,
      Option.some.injEq] at h
  case key =>
    obtain rfl := h
    simp [addKey]
  case cloneKey | signingCopy =>
    obtain ⟨key, _, rfl⟩ := h
    simp [addKey, Vault.signingCopy]
  case dropKey =>
    obtain ⟨key, _, rfl⟩ := h
    simp
  case insert =>
    obtain ⟨k, hk, ⟨n, l⟩, hi, rfl⟩ := h
    exact marks_custody hk (Custody.marks_insert? hi ▸ List.prefix_append _ _)
  case remove =>
    obtain ⟨k, hk, ⟨b, l⟩, hr, rfl⟩ := h
    exact marks_custody hk (Custody.marks_remove? hr ▸ List.prefix_refl _)
  case outstanding =>
    obtain ⟨k, hk, ⟨n, l⟩, ho, rfl⟩ := h
    exact marks_custody hk (Custody.marks_outstanding? ho ▸ List.prefix_refl _)
  case resolve place handle =>
    obtain ⟨k, hk, h⟩ := h
    have same := k.marks_resolve handle
    rcases hr : k.resolve handle with ⟨e | key, l⟩
    all_goals
      rw [hr] at h same
      cases h
      exact marks_custody hk (same ▸ List.prefix_refl _)
  case copyForSigning =>
    obtain ⟨k, hk, key, _, h⟩ := h
    have grown := k.marks_copyForSigning key
    rcases hc : k.copyForSigning key with ⟨_ | copy, l⟩
    all_goals
      rw [hc] at h grown
      cases h
      exact marks_custody hk grown
  case beginDigest | beginDigestNamed =>
    obtain rfl := h
    rw [marks_addComputation]
  case beginMac a _ _ n =>
    obtain ⟨key, _, k, hk, rfl⟩ := h
    rw [marks_addComputation]
    exact marks_custody hk ((s.service.on n).marks_beginMac a key k)
  case beginMacFromHandle a handle _ n =>
    obtain ⟨k, hk, rfl⟩ := h
    rw [marks_addComputation]
    exact marks_custody hk ((s.service.on n).marks_beginMacFromHandle a handle k)
  case mac a _ _ data n =>
    obtain ⟨key, _, k, hk, rfl⟩ := h
    exact marks_custody hk ((s.service.on n).marks_mac a key data k)
  case call | feedPieces | drop =>
    obtain ⟨c, _, rfl⟩ := h
    simp [replace]
  case inspectKey | sameMaterial | isLive =>
    obtain ⟨_, _, _, _, rfl⟩ := h
    exact List.prefix_refl _
  case inspect =>
    obtain ⟨_, _, rfl⟩ := h
    exact List.prefix_refl _
  case digest =>
    obtain rfl := h
    exact List.prefix_refl _

end Session

theorem Pool.Step.marks {σ : Type} {p q : Pool σ} {a : Pool.Action} {r : Pool.Reply}
    (st : Step p a r q) : p.custody.vault.marks <+: q.custody.vault.marks := by
  have begun {begin k x} (hb : a.begin? p.service = some begin) (hx : begin p.custody = (x, k)) :
      p.custody.vault.marks <+: k.vault.marks := by
    cases a with
    | openDigest =>
      cases hb
      cases hx
      exact List.prefix_refl _
    | openMac a handle n =>
      cases hb
      have grown := (p.service.on n).marks_beginMacFromHandle a handle p.custody
      rw [hx] at grown
      exact grown
    | _ => cases hb
  cases st with
  | failed hb _ he => exact begun hb he
  | opened hb _ hc => simpa [Custody.settle] using begun hb hc
  | kept | ended => simp [Custody.settle]
  | inserted hi => exact Custody.marks_insert? hi ▸ List.prefix_append _ _
  | removed hr => exact Custody.marks_remove? hr ▸ List.prefix_refl _
  | counted ho => exact Custody.marks_outstanding? ho ▸ List.prefix_refl _
  | full | unknown | retired | storeless | digested => exact List.prefix_refl _

namespace World

variable {σ : Type} {w : World σ}

/-- Nothing is forgotten of any material, and nothing said of it later. -/
theorem marks_perform (w : World σ) (a : Action) :
    w.session.vault.marks <+: (w.perform a).2.session.vault.marks := by
  cases a with
  | session a => exact w.session.marks_perform a
  | pool number a =>
    rcases w.idle_or_poolStep number a with ⟨hw, _⟩ | ⟨host, p, st⟩
    · rw [hw]
    · rw [st.perform]
      exact Session.marks_custody st.custody (p.perform_step a).marks

theorem marks_after (w : World σ) (actions : List Action) :
    w.session.vault.marks <+: (w.after actions).session.vault.marks := by
  induction actions generalizing w with
  | nil => exact List.prefix_refl _
  | cons a rest ih => exact (w.marks_perform a).trans (ih (w.perform a).2)

end World

end StreamDigest
