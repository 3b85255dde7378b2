import StreamDigest.Binding
import Mathlib

namespace StreamDigest

namespace Vault

variable {v : Vault} {key k : Key} {b : Bytes} {usage : Usage}

/-- Material for the key has been taken in. -/
def Holds (v : Vault) (key : Key) : Prop :=
  key.serial < v.materials.size

instance (v : Vault) (key : Key) : Decidable (v.Holds key) :=
  inferInstanceAs (Decidable (key.serial < v.materials.size))

theorem find?_retain (v : Vault) (key k : Key) : (v.retain key).find? k =
    if key = k then (v.find? k).map fun m => { m with references := m.references + 1 }
    else v.find? k := by
  cases key
  cases k
  simp [retain, find?, Array.getElem?_modify]

theorem find?_release (v : Vault) (key k : Key) : (v.release key).find? k =
    if key = k then (v.find? k).map fun m => { m with references := m.references - 1 }
    else v.find? k := by
  cases key
  cases k
  simp [release, find?, Array.getElem?_modify]

theorem find?_deposit (v : Vault) (b : Bytes) (usage : Usage) (k : Key) :
    (v.deposit b usage).2.find? k =
      if k = (v.deposit b usage).1 then some ⟨b, usage, 1⟩ else v.find? k := by
  cases k
  simp [deposit, find?, Array.getElem?_push]

theorem find?_eq_none (h : ¬v.Holds k) : v.find? k = none :=
  Array.getElem?_eq_none (Nat.not_lt.mp h)

theorem find?_eq_some (h : v.Holds k) : ∃ m, v.find? k = some m :=
  ⟨_, Array.getElem?_eq_getElem h⟩

@[simp]
theorem holds_retain : (v.retain key).Holds k ↔ v.Holds k := by
  simp [Holds, retain]

@[simp]
theorem holds_release : (v.release key).Holds k ↔ v.Holds k := by
  simp [Holds, release]

theorem holds_deposit : (v.deposit b usage).2.Holds k ↔ v.Holds k ∨ k = (v.deposit b usage).1 := by
  cases k
  simp [Holds, deposit]
  omega

/-- The key of new material is a new one. -/
theorem not_holds_deposit (v : Vault) (b : Bytes) (usage : Usage) :
    ¬v.Holds (v.deposit b usage).1 := by
  simp [Holds, deposit]

theorem bytes_eq (v : Vault) (k : Key) : v.bytes k = ((v.find? k).map Material.bytes).getD [] := by
  unfold bytes
  cases v.find? k <;> rfl

theorem usage_eq (v : Vault) (k : Key) : v.usage k = ((v.find? k).map Material.usage).getD .any := by
  unfold usage
  cases v.find? k <;> rfl

@[simp]
theorem usage_release (v : Vault) (key k : Key) : (v.release key).usage k = v.usage k := by
  rw [usage_eq, usage_eq, find?_release]
  split
  · cases v.find? k <;> rfl
  · rfl

theorem usage_deposit (v : Vault) (b : Bytes) (usage : Usage) (k : Key) :
    (v.deposit b usage).2.usage k = if k = (v.deposit b usage).1 then usage else v.usage k := by
  rw [usage_eq, usage_eq, find?_deposit]
  split <;> rfl

theorem references_eq (v : Vault) (k : Key) :
    v.references k = ((v.find? k).map Material.references).getD 0 := by
  unfold references
  cases v.find? k <;> rfl

@[simp]
theorem bytes_retain (v : Vault) (key k : Key) : (v.retain key).bytes k = v.bytes k := by
  rw [bytes_eq, bytes_eq, find?_retain]
  split
  · cases v.find? k <;> rfl
  · rfl

@[simp]
theorem bytes_release (v : Vault) (key k : Key) : (v.release key).bytes k = v.bytes k := by
  rw [bytes_eq, bytes_eq, find?_release]
  split
  · cases v.find? k <;> rfl
  · rfl

theorem bytes_deposit (v : Vault) (b : Bytes) (usage : Usage) (k : Key) :
    (v.deposit b usage).2.bytes k = if k = (v.deposit b usage).1 then b else v.bytes k := by
  rw [bytes_eq, bytes_eq, find?_deposit]
  split <;> rfl

theorem references_retain (h : v.Holds k) : (v.retain key).references k =
    v.references k + if key = k then 1 else 0 := by
  obtain ⟨m, hm⟩ := find?_eq_some h
  rw [references_eq, references_eq, find?_retain, hm]
  split <;> rfl

theorem references_release (v : Vault) (key k : Key) : (v.release key).references k =
    v.references k - if key = k then 1 else 0 := by
  rw [references_eq, references_eq, find?_release]
  split
  · cases v.find? k <;> simp
  · rfl

theorem references_deposit (v : Vault) (b : Bytes) (usage : Usage) (k : Key) :
    (v.deposit b usage).2.references k =
      if k = (v.deposit b usage).1 then 1 else v.references k := by
  rw [references_eq, references_eq, find?_deposit]
  split <;> rfl

theorem references_of_not_holds (h : ¬v.Holds k) : v.references k = 0 := by
  simp [references, find?_eq_none h]

/-- The material that was there is still there, with its bytes. -/
structure Kept (v w : Vault) : Prop where
  holds : ∀ k, v.Holds k → w.Holds k
  bytes : ∀ k, v.Holds k → w.bytes k = v.bytes k

theorem Kept.refl (v : Vault) : v.Kept v :=
  ⟨fun _ h => h, fun _ _ => rfl⟩

theorem Kept.trans {w u : Vault} (h : v.Kept w) (h' : w.Kept u) : v.Kept u :=
  ⟨fun k hk => h'.holds k (h.holds k hk),
    fun k hk => (h'.bytes k (h.holds k hk)).trans (h.bytes k hk)⟩

theorem kept_retain (v : Vault) (key : Key) : v.Kept (v.retain key) :=
  ⟨fun _ => holds_retain.mpr, fun k _ => bytes_retain v key k⟩

theorem kept_release (v : Vault) (key : Key) : v.Kept (v.release key) :=
  ⟨fun _ => holds_release.mpr, fun k _ => bytes_release v key k⟩

theorem kept_deposit (v : Vault) (b : Bytes) (usage : Usage) : v.Kept (v.deposit b usage).2 := by
  refine ⟨fun k hk => holds_deposit.mpr (.inl hk), ?_⟩
  intro k hk
  have hne : k ≠ (v.deposit b usage).1 := by
    rintro rfl
    exact not_holds_deposit v b usage hk
  rw [bytes_deposit, if_neg hne]

theorem kept_settle (v : Vault) (before after : Option Binding) :
    v.Kept (v.settle before after) := by
  unfold settle
  split
  · exact kept_release v _
  · exact .refl v

/-- `refs` lists every reference to a key that there is. -/
def Balanced (v : Vault) (refs : List Key) : Prop :=
  ∀ k, v.references k = refs.count k

variable {refs : List Key}

theorem empty_balanced : ({} : Vault).Balanced [] := by
  intro k
  simp [references, find?]

theorem Balanced.perm {refs' : List Key} (h : v.Balanced refs) (hp : refs.Perm refs') :
    v.Balanced refs' :=
  fun k => (h k).trans (hp.count_eq k)

theorem Balanced.references_pos (h : v.Balanced refs) : 0 < v.references k ↔ k ∈ refs := by
  rw [h k]
  exact List.count_pos_iff

theorem Balanced.holds (h : v.Balanced refs) (hm : k ∈ refs) : v.Holds k := by
  by_contra hn
  have hpos := h.references_pos.mpr hm
  rw [references_of_not_holds hn] at hpos
  omega

theorem Balanced.deposit (h : v.Balanced refs) (b : Bytes) (usage : Usage) :
    (v.deposit b usage).2.Balanced ((v.deposit b usage).1 :: refs) := by
  intro k
  rw [references_deposit, List.count_cons]
  split
  · next hk =>
    have hn : refs.count k = 0 := by
      rw [← h k]
      apply references_of_not_holds
      rw [hk]
      exact not_holds_deposit v b usage
    simp [hk.symm, hn]
  · next hk => simp [h k, Ne.symm hk]

theorem Balanced.retain (h : v.Balanced refs) (hm : key ∈ refs) :
    (v.retain key).Balanced (key :: refs) := by
  intro k
  by_cases hk : v.Holds k
  · rw [references_retain hk, h k, List.count_cons]
    simp
  · have hne : key ≠ k := by
      rintro rfl
      exact hk (h.holds hm)
    have hz := h k
    rw [references_of_not_holds hk] at hz
    rw [references_of_not_holds (fun hr => hk (holds_retain.mp hr)), List.count_cons, ← hz]
    simp [hne]

theorem Balanced.release (h : v.Balanced (key :: refs)) : (v.release key).Balanced refs := by
  intro k
  have hk := h k
  rw [List.count_cons] at hk
  rw [references_release, hk]
  by_cases he : key = k
  · simp [he]
  · simp [he]

/-- A vault that came later: nothing was lost, and what had no references any more got none. -/
structure Later (v w : Vault) : Prop where
  holds : ∀ k, v.Holds k → w.Holds k
  dead : ∀ k, v.Holds k → v.references k = 0 → w.references k = 0

theorem Later.refl (v : Vault) : v.Later v :=
  ⟨fun _ h => h, fun _ _ h => h⟩

theorem Later.trans {w u : Vault} (h : v.Later w) (h' : w.Later u) : v.Later u :=
  ⟨fun k hk => h'.holds k (h.holds k hk),
    fun k hk hd => h'.dead k (h.holds k hk) (h.dead k hk hd)⟩

theorem later_deposit (v : Vault) (b : Bytes) (usage : Usage) : v.Later (v.deposit b usage).2 := by
  refine ⟨fun k hk => holds_deposit.mpr (.inl hk), ?_⟩
  intro k hk hd
  have hne : k ≠ (v.deposit b usage).1 := by
    rintro rfl
    exact not_holds_deposit v b usage hk
  rw [references_deposit, if_neg hne, hd]

theorem later_release (v : Vault) (key : Key) : v.Later (v.release key) := by
  refine ⟨fun _ => holds_release.mpr, ?_⟩
  intro k _ hd
  rw [references_release, hd, Nat.zero_sub]

theorem later_retain (h : 0 < v.references key) : v.Later (v.retain key) := by
  refine ⟨fun _ => holds_retain.mpr, ?_⟩
  intro k hk hd
  have hne : key ≠ k := by
    rintro rfl
    omega
  rw [references_retain hk, hd, if_neg hne]

end Vault

end StreamDigest
