import StreamDigest.Proofs.World.Register

namespace StreamDigest

/-- Where elements are told apart by what is looked for, the one that is found has it. -/
theorem find?_eq_some_iff_of_inj {α β : Type} [DecidableEq β] {xs : List α} {f : α → β}
    (inj : ∀ x ∈ xs, ∀ y ∈ xs, f x = f y → x = y) {b : β} {x : α} :
    (xs.find? fun x => f x = b) = some x ↔ x ∈ xs ∧ f x = b := by
  constructor
  · intro hf
    exact ⟨List.mem_of_find?_eq_some hf, by simpa using List.find?_some hf⟩
  · rintro ⟨hx, rfl⟩
    cases hf : xs.find? fun y => decide (f y = f x) with
    | none =>
      have hne := List.find?_eq_none.mp hf x hx
      simp at hne
    | some y =>
      have heq : f y = f x := by simpa using List.find?_some hf
      rw [inj y (List.mem_of_find?_eq_some hf) x hx heq]

namespace Custody

variable {k l : Custody} {took : List Intake} {gone : List UInt64} {key : Key} {es : List Entry}

/-- The same keys, with those of a store in the order `es`. -/
def reorder (k : Custody) (es : List Entry) : Custody :=
  match k.source with
  | .direct => k
  | .store s => { k with source := .store { s with entries := es } }

/-- The keys under the handles of a store, by what it has taken in and struck off. -/
structure Represents (k : Custody) (took : List Intake) (gone : List UInt64) : Prop where
  handles : (took.map fun x => x.entry.handle.toNat) = List.range' 1 took.length
  inserts : ∀ b hardware, ∃ l, k.insert? b hardware = some (took.length.toUInt64 + 1, l)
  removes : ∀ handle, ∃ removed l, k.remove? handle = some (removed, l) ∧
    (removed = true ↔ ∃ x ∈ took, x.entry.handle ∉ gone ∧ x.entry.handle = handle)
  resolves : ∀ handle key, (k.resolve handle).1 = .ok key ↔
    ∃ x ∈ took, x.entry.handle ∉ gone ∧ x.entry.handle = handle ∧ x.entry.key = key
  refuses : ∀ handle, (∀ x ∈ took, x.entry.handle ∉ gone → x.entry.handle ≠ handle) →
    k.resolve handle = (.error .invalidKeyHandle, k)
  material : ∀ x ∈ took,
    k.vault.bytes x.entry.key = x.bytes ∧ k.vault.usage x.entry.key = .any
  apart : ∀ x ∈ took, ∀ y ∈ took, x.entry.key = y.entry.key → x = y
  live : ∀ key, k.isLive key = true ↔
    k.vault.bytes key ≠ [] ∧ ∃ x ∈ took, x.entry.handle ∉ gone ∧ x.entry.key = key
  copies : ∀ key, (k.copyForSigning key).1.isSome ↔
    ∃ x ∈ took, x.entry.handle ∉ gone ∧ x.entry.key = key ∧ x.entry.hardware = false
  copied : ∀ key copy l, k.copyForSigning key = (some copy, l) →
    ¬k.vault.Holds copy ∧ l.vault.find? copy = some ⟨k.vault.bytes key, .signing, 1⟩
  unordered : ∀ es key, es.Perm k.entries →
    (es.find? fun e => e.key = key) = (k.entries.find? fun e => e.key = key) ∧
      (k.reorder es).isLive key = k.isLive key ∧
      (k.reorder es).copyForSigning key =
        ((k.copyForSigning key).1, (k.copyForSigning key).2.reorder es)

theorem find?_copy {copy : Key} (h : k.copyForSigning key = (some copy, l)) :
    l.vault.find? copy = some ⟨k.vault.bytes key, .signing, 1⟩ := by
  obtain ⟨hv, rfl⟩ := copyForSigning_bytes h
  rw [hv, Vault.signingCopy, Vault.find?_deposit, if_pos rfl]

theorem isLive_reorder (h : (es.find? fun e => e.key = key) = k.entries.find? fun e => e.key = key) :
    (k.reorder es).isLive key = k.isLive key := by
  obtain ⟨vault, _ | s⟩ := k
  · rfl
  · exact congrArg (fun found => !(vault.bytes key).isEmpty && found.isSome) h

theorem copyForSigning_reorder
    (h : (es.find? fun e => e.key = key) = k.entries.find? fun e => e.key = key) :
    (k.reorder es).copyForSigning key =
      ((k.copyForSigning key).1, (k.copyForSigning key).2.reorder es) := by
  obtain ⟨vault, _ | s⟩ := k
  · rfl
  · have hf : ({ s with entries := es } : KeyStore).entryOf? key = s.entryOf? key := h
    simp only [reorder, copyForSigning, hf]
    split <;> rfl

theorem Register.key_inj (h : k.Register took gone) {x y : Intake} (hx : x ∈ took) (hy : y ∈ took)
    (hkey : x.entry.key = y.entry.key) : x = y :=
  List.inj_on_of_nodup_map h.nodup hx hy hkey

theorem Register.entry_inj (h : k.Register took gone) (e : Entry) (he : e ∈ k.entries) (e' : Entry)
    (he' : e' ∈ k.entries) (hkey : e.key = e'.key) : e = e' := by
  obtain ⟨x, hx, _, rfl⟩ := h.mem_entries.mp he
  obtain ⟨y, hy, _, rfl⟩ := h.mem_entries.mp he'
  rw [h.key_inj hx hy hkey]

theorem Register.find?_key (h : k.Register took gone) {e : Entry} :
    (k.entries.find? fun e' => e'.key = key) = some e ↔ e ∈ k.entries ∧ e.key = key :=
  find?_eq_some_iff_of_inj h.entry_inj

theorem Register.find?_handle (h : k.Register took gone) {handle : UInt64} {e : Entry} :
    (k.entries.find? fun e' => e'.handle = handle) = some e ↔
      e ∈ k.entries ∧ e.handle = handle := by
  refine find?_eq_some_iff_of_inj fun e he e' he' hhandle => ?_
  obtain ⟨x, hx, _, rfl⟩ := h.mem_entries.mp he
  obtain ⟨y, hy, _, rfl⟩ := h.mem_entries.mp he'
  rw [h.handle_inj hx hy hhandle]

/-- Which of a store's keys matches does not hang on the order that they are looked through in. -/
theorem Register.find?_perm (h : k.Register took gone) (hp : es.Perm k.entries) (key : Key) :
    (es.find? fun e => e.key = key) = k.entries.find? fun e => e.key = key := by
  refine Option.ext fun e => ?_
  rw [h.find?_key, ← hp.mem_iff]
  refine find?_eq_some_iff_of_inj fun e he e' he' => ?_
  exact h.entry_inj e (hp.mem_iff.mp he) e' (hp.mem_iff.mp he')

theorem Register.resolves (h : k.Register took gone) (handle : UInt64) (key : Key) :
    (k.resolve handle).1 = .ok key ↔
      ∃ x ∈ took, x.entry.handle ∉ gone ∧ x.entry.handle = handle ∧ x.entry.key = key := by
  constructor
  · intro hr
    obtain ⟨e, he, rfl, rfl⟩ := entry_of_resolve hr
    obtain ⟨x, hx, hgone, rfl⟩ := h.mem_entries.mp he
    exact ⟨x, hx, hgone, rfl, rfl⟩
  · rintro ⟨x, hx, hgone, rfl, rfl⟩
    have he := h.mem_entries.mpr ⟨x, hx, hgone, rfl⟩
    rw [resolve_of_find? (h.find?_handle.mpr ⟨he, rfl⟩)]

theorem Register.represents (h : k.Register took gone) : k.Represents took gone where
  handles := h.handles
  inserts b hardware := by
    obtain ⟨l, hi, _⟩ := exists_insert? h.stock b hardware
    exact ⟨l, hi⟩
  removes handle := by
    obtain ⟨removed, l, hr, hremoved, _⟩ := exists_remove? h.stock handle
    refine ⟨removed, l, hr, ?_⟩
    rw [hremoved, ← entries_eq h.stock, Option.isSome_iff_exists]
    simp only [h.find?_handle, h.mem_entries]
    constructor
    · rintro ⟨_, ⟨x, hx, hgone, rfl⟩, rfl⟩
      exact ⟨x, hx, hgone, rfl⟩
    · rintro ⟨x, hx, hgone, rfl⟩
      exact ⟨x.entry, ⟨x, hx, hgone, rfl⟩, rfl⟩
  resolves := h.resolves
  refuses handle absent := by
    refine resolve_of_absent (List.find?_eq_none.mpr fun e he => ?_)
    obtain ⟨x, hx, hgone, rfl⟩ := h.mem_entries.mp he
    simpa using absent x hx hgone
  material x hx := Vault.bytes_of_marks (h.marks x hx)
  apart _ hx _ hy := h.key_inj hx hy
  live key := by
    rw [isLive_iff (by rw [h.stock]; rfl), Option.isSome_iff_exists]
    simp only [h.find?_key, h.mem_entries]
    refine and_congr_right fun _ => ⟨?_, ?_⟩
    · rintro ⟨_, ⟨x, hx, hgone, rfl⟩, rfl⟩
      exact ⟨x, hx, hgone, rfl⟩
    · rintro ⟨x, hx, hgone, rfl⟩
      exact ⟨x.entry, ⟨x, hx, hgone, rfl⟩, rfl⟩
  copies key := by
    rw [copyForSigning_isSome (by rw [h.stock]; rfl)]
    simp only [h.find?_key, h.mem_entries]
    constructor
    · rintro ⟨_, ⟨⟨x, hx, hgone, rfl⟩, rfl⟩, hh⟩
      exact ⟨x, hx, hgone, rfl, hh⟩
    · rintro ⟨x, hx, hgone, rfl, hh⟩
      exact ⟨x.entry, ⟨⟨x, hx, hgone, rfl⟩, rfl⟩, hh⟩
  copied _ _ _ hc := ⟨not_holds_copy hc, find?_copy hc⟩
  unordered es key hp := by
    have hf := h.find?_perm hp key
    exact ⟨hf, isLive_reorder hf, copyForSigning_reorder hf⟩

/-- A store knows nothing of other material, whatever its bytes. -/
theorem of_foreign (hs : k.stock.isSome) (foreign : ∀ e ∈ k.entries, e.key ≠ key) :
    k.isLive key = false ∧ k.copyForSigning key = (none, k) := by
  have absent : key ∉ k.keys := fun hm => by
    obtain ⟨e, he, heq⟩ := List.mem_map.mp hm
    exact foreign e he heq
  exact ⟨isLive_of_absent hs absent, copyForSigning_of_absent hs absent⟩

end Custody

namespace World

variable {σ : Type}

/-- A store is what its history makes of it, as long as the count of its handles has not come round:
the handles that it gave out are the numbers from one on, each stands for the bytes that were stored
under it until it is struck off, and of all material there is, a store knows its own. No two handles
share theirs, in one store or two, and no other material is ever taken for a stored key. -/
theorem store_represents (service : Service σ) (stores n : Nat) (places : List Place)
    (actions : List Action) (hn : n < stores) :
    let w := start service stores places
    ∃ k, (w.after actions).session.custody? (.store n) = some k ∧
      ((w.intakes n actions).length < UInt64.size →
        k.Represents (w.intakes n actions) (w.withdrawals n actions)) ∧
      (∀ before later, actions = before ++ later →
        w.intakes n before <+: w.intakes n actions ∧
          w.withdrawals n before <+: w.withdrawals n actions) ∧
      (∀ m x y, x ∈ w.intakes m actions → y ∈ w.intakes n actions →
        x.entry.key = y.entry.key → m = n) ∧
      ∀ before a later key, actions = before ++ a :: later → a.stores? = none →
        ¬(w.after before).session.vault.Holds key →
        (w.after (before ++ [a])).session.vault.Holds key →
        k.isLive key = false ∧ k.copyForSigning key = (none, k) := by
  intro w
  have size : w.session.stores.size = stores := by simp [w, start]
  obtain ⟨k₀, hk₀⟩ := exists_custody (size.symm ▸ hn)
  obtain ⟨k, hk⟩ := exists_custody (n := n) (w := w.after actions)
    (by rw [(accounted_start service stores places).size_after actions, size]; exact hn)
  have register₀ := register_start service stores places hk₀
  refine ⟨k, hk, ?_, ?_, ?_, ?_⟩
  · intro few
    have register := register_after actions (by simpa using few) hk₀ register₀ hk
    rw [List.nil_append, List.nil_append] at register
    exact register.represents
  · rintro before later rfl
    rw [intakes_append, withdrawals_append]
    exact ⟨List.prefix_append _ _, List.prefix_append _ _⟩
  · intro m x y hx hy
    exact store_eq_of_mem_intakes hx hy
  · rintro before a later key rfl ha hnew hmade
    refine Custody.of_foreign (stock_isSome hk) fun e he => ?_
    rcases mem_entries_after _ hk₀ hk he with hm | ⟨x, hx, rfl⟩
    · rw [Custody.entries_eq register₀.stock] at hm
      cases hm
    · exact not_mem_intakes_of_made ha hnew hmade hx

/-- Equal bytes in two stores and under three handles, one of them struck off and one in hardware,
and a signing copy. -/
theorem store_represents_equal_bytes :
    let service : Service Nat :=
      { library := { name := "lengths", digest := fun _ _ => .ok 0, mac := fun _ _ key => .ok key.length,
                     absorb := fun n data => .ok (n + data.length), output := fun _ => .ok [] }
        policy := {} }
    let actions : List Action := [.session (.insert (.store 0) [1, 2] false),
      .session (.insert (.store 1) [1, 2] false), .session (.insert (.store 0) [1, 2] true),
      .session (.insert (.store 0) [1, 2] false), .session (.resolve (.store 0) 1),
      .session (.copyForSigning (.store 0) 0), .session (.remove (.store 0) 1)]
    ∃ k, ((start service 2 []).after actions).session.custody? (.store 0) = some k ∧
      (∃ l, k.insert? [1, 2] false = some (4, l)) ∧
      k.resolve 1 = (.error .invalidKeyHandle, k) ∧
      (k.resolve 2).1 = .ok ⟨2⟩ ∧ (k.resolve 3).1 = .ok ⟨3⟩ ∧
      k.isLive ⟨0⟩ = false ∧ k.isLive ⟨1⟩ = false ∧ k.isLive ⟨2⟩ = true ∧ k.isLive ⟨4⟩ = false ∧
      (k.copyForSigning ⟨2⟩).1 = none ∧ (k.copyForSigning ⟨3⟩).1.isSome := by
  intro service actions
  obtain ⟨k, hk, representing, _, _, foreign⟩ :=
    store_represents service 2 0 [] actions (by decide)
  dsimp only [service, actions] at hk representing foreign ⊢
  have took : intakes (start service 2 []) 0 actions =
      [⟨⟨1, ⟨0⟩, false⟩, [1, 2]⟩, ⟨⟨2, ⟨2⟩, true⟩, [1, 2]⟩, ⟨⟨3, ⟨3⟩, false⟩, [1, 2]⟩] := by
    decide +kernel
  have gone : withdrawals (start service 2 []) 0 actions = [1] := by decide +kernel
  rw [took, gone] at representing
  have represents := representing (by decide)
  have bytes : k.vault.bytes ⟨2⟩ = [1, 2] :=
    (represents.material ⟨⟨2, ⟨2⟩, true⟩, [1, 2]⟩ (by simp)).1
  refine ⟨k, hk, represents.inserts [1, 2] false, represents.refuses 1 (by decide), ?_, ?_, ?_, ?_,
    ?_, ?_, ?_, ?_⟩
  · exact (represents.resolves 2 ⟨2⟩).mpr (by simp)
  · exact (represents.resolves 3 ⟨3⟩).mpr (by simp)
  · exact Bool.eq_false_iff.mpr (mt (represents.live ⟨0⟩).mp (by simp))
  · exact Bool.eq_false_iff.mpr (mt (represents.live ⟨1⟩).mp (by simp))
  · exact (represents.live ⟨2⟩).mpr ⟨by simp [bytes], by simp⟩
  · exact (foreign (actions.take 5) (actions[5]) (actions.drop 6) ⟨4⟩ rfl rfl (by decide +kernel)
      (by decide +kernel)).1
  · exact Option.not_isSome_iff_eq_none.mp (mt (represents.copies ⟨2⟩).mp (by simp))
  · exact (represents.copies ⟨3⟩).mpr (by simp)

end World

end StreamDigest
