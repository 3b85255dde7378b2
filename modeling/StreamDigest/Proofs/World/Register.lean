import StreamDigest.Proofs.World.Marks
import StreamDigest.Proofs.World.References

namespace StreamDigest

/-- A key that a store has taken in, with the bytes that it was given. -/
structure Intake where
  entry : Entry
  bytes : Bytes
  deriving DecidableEq, Repr

namespace Custody

variable {k l : Custody} {key : Key} {took : List Intake} {gone : List UInt64}

/-- What a step does to the keys of a source: those that it takes in, and the handles that it strikes
off. -/
inductive Files (k l : Custody) : List Intake → List UInt64 → Prop
  | kept (h : k.Kept l) : Files k l [] []
  | inserted {b hardware n} (h : k.insert? b hardware = some (n, l)) :
    Files k l [⟨⟨n, (k.vault.deposit b .any).1, hardware⟩, b⟩] []
  | removed {n} (h : k.remove? n = some (true, l)) : Files k l [] [n]

theorem Files.kind (h : k.Files l took gone) : l.source = .direct ↔ k.source = .direct := by
  cases h with
  | kept h => exact h.kind
  | inserted h => exact (keys_of_insert? h).1
  | removed h => exact (keys_of_remove? h).1

/-- A key that is stored was so before, or it is one that was taken in. -/
theorem Files.mem_entries (h : k.Files l took gone) {e : Entry} (he : e ∈ l.entries) :
    e ∈ k.entries ∨ ∃ x ∈ took, x.entry = e := by
  cases h with
  | kept h => exact .inl (h.entries ▸ he)
  | inserted h =>
    obtain ⟨s, hs, rfl, hl, _⟩ := insert?_eq_some h
    rw [entries_eq hl] at he
    rw [entries_eq hs]
    rcases List.mem_cons.mp he with rfl | he
    · exact .inr ⟨_, List.mem_singleton_self _, rfl⟩
    · exact .inl (List.mem_filter.mp he).1
  | removed h =>
    obtain ⟨s, hs, _, hl, _⟩ := remove?_eq_some h
    rw [entries_eq hl] at he
    rw [entries_eq hs]
    exact .inl (List.mem_filter.mp he).1

/-- No key gets into two places: a new one is in none. -/
theorem Files.nodup {rest : List Key} (h : k.Files l took gone) (hn : (k.keys ++ rest).Nodup)
    (held : ∀ key ∈ k.keys ++ rest, k.vault.Holds key) : (l.keys ++ rest).Nodup := by
  have filtered {s : UInt64 × List Entry} (hs : k.stock = some s) (p : Entry → Bool) :
      ((s.2.filter p).map Entry.key ++ rest).Sublist (k.keys ++ rest) := by
    rw [keys, entries_eq hs]
    exact (List.filter_sublist.map Entry.key).append_right rest
  cases h with
  | kept h => rwa [h.keys]
  | @inserted b hardware n h =>
    obtain ⟨s, hs, _, hl, _⟩ := insert?_eq_some h
    rw [keys, entries_eq hl, List.map_cons, List.cons_append]
    refine List.nodup_cons.mpr ⟨fun hm => ?_, hn.sublist (filtered hs _)⟩
    exact k.vault.not_holds_deposit b .any (held _ ((filtered hs _).subset hm))
  | removed h =>
    obtain ⟨s, hs, _, hl, _⟩ := remove?_eq_some h
    rw [keys, entries_eq hl]
    exact hn.sublist (filtered hs _)

theorem remove?_false {n : UInt64} (h : k.remove? n = some (false, l)) : l = k := by
  obtain ⟨vault, _ | s⟩ := k
  · cases h
  · simp only [remove?, KeyStore.remove] at h
    split at h
    · exact (Prod.mk.inj (Option.some.inj h)).2.symm
    · cases h

/-- The keys taken in whose handles were not struck off. -/
def standing (took : List Intake) (gone : List UInt64) : List Intake :=
  took.filter fun x => x.entry.handle ∉ gone

@[simp]
theorem mem_standing {x : Intake} : x ∈ standing took gone ↔ x ∈ took ∧ x.entry.handle ∉ gone := by
  simp [standing]

theorem standing_append_singleton (took : List Intake) (gone : List UInt64) (n : UInt64) :
    standing took (gone ++ [n]) = (standing took gone).filter fun x => x.entry.handle ≠ n := by
  unfold standing
  rw [List.filter_filter]
  refine List.filter_congr fun x _ => ?_
  by_cases h : x.entry.handle = n <;> simp [h]

/-- A store by its history: what it has taken in under handles counted from one, which have not come
round, and what it has struck off. -/
structure Register (k : Custody) (took : List Intake) (gone : List UInt64) : Prop where
  stock : k.stock = some (took.length.toUInt64, ((standing took gone).map Intake.entry).reverse)
  handles : (took.map fun x => x.entry.handle.toNat) = List.range' 1 took.length
  struck : ∀ n ∈ gone, n.toNat ≤ took.length
  marks : ∀ x ∈ took, k.vault.marks[x.entry.key.serial]? = some (x.bytes, .any)
  nodup : (took.map fun x => x.entry.key).Nodup

theorem Register.handle_bounds (h : k.Register took gone) {x : Intake} (hx : x ∈ took) :
    1 ≤ x.entry.handle.toNat ∧ x.entry.handle.toNat ≤ took.length := by
  have hm : x.entry.handle.toNat ∈ took.map fun x => x.entry.handle.toNat :=
    List.mem_map_of_mem hx
  rw [h.handles, List.mem_range'_1] at hm
  omega

theorem Register.mem_entries (h : k.Register took gone) {e : Entry} :
    e ∈ k.entries ↔ ∃ x ∈ took, x.entry.handle ∉ gone ∧ x.entry = e := by
  simp [entries_eq h.stock, and_assoc]

theorem Register.handle_inj (h : k.Register took gone) {x y : Intake} (hx : x ∈ took)
    (hy : y ∈ took) (hhandle : x.entry.handle = y.entry.handle) : x = y :=
  List.inj_on_of_nodup_map (h.handles ▸ List.nodup_range') hx hy (congrArg UInt64.toNat hhandle)

theorem toNat_next {n : Nat} (h : n + 1 < UInt64.size) : (n.toUInt64 + 1).toNat = n + 1 := by
  simp only [UInt64.size] at h
  simp only [Nat.toUInt64_eq, UInt64.toNat_add, UInt64.toNat_ofNat', UInt64.reduceToNat]
  omega

/-- The handle that comes next is not in use, even where the count comes round. -/
theorem Register.next_unused (h : k.Register took gone) (few : took.length < UInt64.size)
    {x : Intake} (hx : x ∈ took) : x.entry.handle ≠ took.length.toUInt64 + 1 := by
  intro heq
  obtain ⟨hpos, hle⟩ := h.handle_bounds hx
  simp only [heq, UInt64.size, Nat.toUInt64_eq, UInt64.toNat_add, UInt64.toNat_ofNat',
    UInt64.reduceToNat] at hpos hle few
  omega

theorem Register.holds (h : k.Register took gone) {x : Intake} (hx : x ∈ took) :
    k.vault.Holds x.entry.key :=
  Vault.holds_iff_marks.mpr (List.getElem?_eq_some_iff.mp (h.marks x hx)).1

theorem Register.of_marks (h : k.Register took gone) (hs : l.stock = k.stock)
    (hv : k.vault.marks <+: l.vault.marks) : l.Register took gone where
  stock := hs.trans h.stock
  handles := h.handles
  struck := h.struck
  marks x hx := Vault.getElem?_of_marks hv (h.marks x hx)
  nodup := h.nodup

theorem Register.insert? (h : k.Register took gone) {b : Bytes} {hardware : Bool} {n : UInt64}
    (few : took.length + 1 < UInt64.size) (hi : k.insert? b hardware = some (n, l)) :
    l.Register (took ++ [⟨⟨n, (k.vault.deposit b .any).1, hardware⟩, b⟩]) gone := by
  have hmarks := marks_insert? hi
  obtain ⟨s, hs, rfl, hl, _⟩ := insert?_eq_some hi
  cases h.stock.symm.trans hs
  have next := toNat_next few
  have hfresh : took.length.toUInt64 + 1 ∉ gone := fun hm => by
    have hle := h.struck _ hm
    omega
  have hunused : (((standing took gone).map Intake.entry).reverse.filter fun e =>
      e.handle ≠ took.length.toUInt64 + 1) = ((standing took gone).map Intake.entry).reverse := by
    refine List.filter_eq_self.mpr fun e he => decide_eq_true ?_
    obtain ⟨x, hx, rfl⟩ := List.mem_map.mp (List.mem_reverse.mp he)
    exact h.next_unused (Nat.lt_of_succ_lt few) (mem_standing.mp hx).1
  refine ⟨?_, ?_, ?_, ?_, ?_⟩
  · rw [hl, hunused]
    simp [standing, hfresh]
  · simp [h.handles, next, List.range'_1_concat, Nat.add_comm]
  · intro n hn
    have hle := h.struck n hn
    simp only [List.length_append, List.length_singleton]
    omega
  · intro x hx
    rcases List.mem_append.mp hx with hx | hx
    · exact Vault.getElem?_of_marks (hmarks ▸ List.prefix_append _ _) (h.marks x hx)
    · obtain rfl := List.mem_singleton.mp hx
      simp [hmarks, Vault.serial_deposit]
  · rw [List.map_append, List.map_singleton]
    refine h.nodup.append (List.nodup_singleton _) ?_
    intro key hkey hnew
    obtain rfl := List.mem_singleton.mp hnew
    obtain ⟨x, hx, heq⟩ := List.mem_map.mp hkey
    have hheld := h.holds hx
    rw [heq] at hheld
    exact k.vault.not_holds_deposit b .any hheld

theorem Register.remove? (h : k.Register took gone) {n : UInt64}
    (hr : k.remove? n = some (true, l)) : l.Register took (gone ++ [n]) := by
  have hmarks := marks_remove? hr
  obtain ⟨s, hs, hfound, hl, _⟩ := remove?_eq_some hr
  cases h.stock.symm.trans hs
  refine ⟨?_, h.handles, ?_, ?_, h.nodup⟩
  · rw [hl, standing_append_singleton, List.filter_reverse, List.filter_map]
    rfl
  · intro m hm
    rcases List.mem_append.mp hm with hm | hm
    · exact h.struck m hm
    · obtain rfl := List.mem_singleton.mp hm
      obtain ⟨e, he, heq⟩ := List.find?_isSome.mp hfound.symm
      obtain ⟨x, hx, rfl⟩ := List.mem_map.mp (List.mem_reverse.mp he)
      have hle := (h.handle_bounds (mem_standing.mp hx).1).2
      rwa [of_decide_eq_true heq] at hle
  · rw [hmarks]
    exact h.marks

theorem Files.fresh (hf : k.Files l took gone) {x : Intake} (hx : x ∈ took) :
    ¬k.vault.Holds x.entry.key ∧ l.vault.Holds x.entry.key := by
  cases hf with
  | kept | removed => cases hx
  | @inserted b _ _ hi =>
    obtain ⟨_, _, _, _, hv⟩ := insert?_eq_some hi
    obtain rfl := List.mem_singleton.mp hx
    exact ⟨k.vault.not_holds_deposit b .any, hv.holds _ (Vault.holds_deposit.mpr (.inr rfl))⟩

theorem Files.register {took' : List Intake} {gone' : List UInt64} (hf : k.Files l took' gone')
    (few : (took ++ took').length < UInt64.size) (hv : k.vault.marks <+: l.vault.marks)
    (h : k.Register took gone) : l.Register (took ++ took') (gone ++ gone') := by
  cases hf with
  | kept hk =>
    rw [List.append_nil, List.append_nil]
    exact h.of_marks hk.stock hv
  | inserted hi =>
    rw [List.append_nil]
    exact h.insert? (by simpa using few) hi
  | removed hr =>
    rw [List.append_nil]
    exact h.remove? hr

theorem copyForSigning_of_absent (hs : k.stock.isSome) (h : key ∉ k.keys) :
    k.copyForSigning key = (none, k) := by
  rcases hc : k.copyForSigning key with ⟨_ | copy, l⟩
  · rw [copyForSigning_none hc]
  · have hsome : (k.copyForSigning key).1.isSome := by
      rw [hc]
      rfl
    obtain ⟨e, he, _⟩ := (copyForSigning_isSome hs).mp hsome
    have hkey : e.key = key := by simpa using List.find?_some he
    exact absurd (hkey ▸ List.mem_map_of_mem (List.mem_of_find?_eq_some he)) h

theorem isLive_of_absent (hs : k.stock.isSome) (h : key ∉ k.keys) : k.isLive key = false :=
  Bool.eq_false_iff.mpr fun live => h (mem_keys_of_isLive hs live)

end Custody

/-- An action that neither brings a key into a store nor takes one away. -/
theorem Session.Step.keeps {σ : Type} {s t : Session σ} {a : Session.Action} {r : Session.Reply}
    (st : Step s a r t) (ha : a.stocks = false) :
    ∃ site k l, s.custody? site = some k ∧ k.Kept l ∧ t.vault = l.vault ∧
      t.stores = (s.keep site l).stores := by
  cases st with
  | absent | read => exact ⟨_, _, _, s.custody?_direct, .refl _, rfl, rfl⟩
  | @kept a r site k l hk kept hr => exact ⟨site, k, l, hk, kept, vault_keep .., rfl⟩
  | @gained a site k l key hn hk kept known => exact ⟨site, k, l, hk, kept, vault_keep .., rfl⟩
  | @gave number key hn =>
    exact ⟨_, _, _, s.custody?_direct, s.direct.kept_release key, rfl, rfl⟩
  | stocked hs => cases ha.symm.trans hs
  | @begun a k l begun hb hk kept hc =>
    refine ⟨a.place, k, l, hk, kept, ?_, ?_⟩ <;> cases begun <;> simp [addComputation, vault_keep]
  | @went a r number c after calls hn hc ha =>
    exact ⟨_, _, _, s.custody?_direct, s.direct.kept_settle c.binding after.binding, rfl, rfl⟩
  | @dropped number c hc =>
    exact ⟨_, _, _, s.custody?_direct, s.direct.kept_settle c.binding c.retire.binding, rfl, rfl⟩

namespace World

variable {σ : Type} {w : World σ} {a : Action} {n : Nat} {site : Place} {k l : Custody} {key : Key}
  {took : List Intake} {gone : List UInt64}

/-- The bytes that an action is to store, and whether in hardware. -/
def Action.stores? : Action → Option (Bytes × Bool)
  | .session (.insert _ bytes hardware) | .pool _ (.insertKey bytes hardware) =>
    some (bytes, hardware)
  | _ => none

/-- The handle that an action is to revoke. -/
def Action.revokes? : Action → Option UInt64
  | .session (.remove _ handle) | .pool _ (.removeKey handle) => some handle
  | _ => none

/-- The handle that a key is stored under. -/
def Reply.stored? : Reply → Option UInt64
  | .session (.handle handle) | .pool (.key handle) => some handle
  | _ => none

def Reply.isRemoved : Reply → Bool
  | .session (.flag removed) | .pool (.removed removed) => removed
  | _ => false

/-- The key that a store takes in in a step. -/
def intake (w : World σ) (n : Nat) (a : Action) : List Intake :=
  match a.stores?, (w.perform a).1.stored? with
  | some (bytes, hardware), some handle =>
    if w.place a = .store n then
      [⟨⟨handle, (w.session.vault.deposit bytes .any).1, hardware⟩, bytes⟩]
    else []
  | _, _ => []

/-- The handle that a store strikes off in a step. -/
def withdrawal (w : World σ) (n : Nat) (a : Action) : List UInt64 :=
  match a.revokes?, (w.perform a).1.isRemoved with
  | some handle, true => if w.place a = .store n then [handle] else []
  | _, _ => []

theorem of_withdrawal {handle : UInt64} (h : w.withdrawal n a = [handle]) :
    a.revokes? = some handle ∧ w.place a = .store n := by
  unfold withdrawal at h
  split at h
  · next hr _ =>
    split at h
    · next hp =>
      cases h
      exact ⟨hr, hp⟩
    · cases h
  · cases h

/-- The keys that a store takes in in a run, one by one. -/
def intakes (w : World σ) (n : Nat) : List Action → List Intake
  | [] => []
  | a :: rest => w.intake n a ++ (w.perform a).2.intakes n rest

/-- The handles that a store strikes off in a run, one by one. -/
def withdrawals (w : World σ) (n : Nat) : List Action → List UInt64
  | [] => []
  | a :: rest => w.withdrawal n a ++ (w.perform a).2.withdrawals n rest

/-- A step on the keys at a place, with what goes into the register of its store. -/
structure Filing (w : World σ) (a : Action) (site : Place) (k l : Custody) (took : List Intake)
    (gone : List UInt64) : Prop where
  custody : w.session.custody? site = some k
  files : k.Files l took gone
  vault : (w.perform a).2.session.vault = l.vault
  stores : (w.perform a).2.session.stores = (w.session.keep site l).stores
  intake : ∀ n, w.intake n a = if site = .store n then took else []
  withdrawal : ∀ n, w.withdrawal n a = if site = .store n then gone else []

theorem filing_of_kept (hk : w.session.custody? site = some k) (kept : k.Kept l)
    (hv : (w.perform a).2.session.vault = l.vault)
    (hs : (w.perform a).2.session.stores = (w.session.keep site l).stores)
    (hi : a.stores? = none ∨ (w.perform a).1.stored? = none)
    (hr : a.revokes? = none ∨ (w.perform a).1.isRemoved = false) : w.Filing a site k l [] [] := by
  refine ⟨hk, .kept kept, hv, hs, fun n => ?_, fun n => ?_⟩
  · rw [ite_self, World.intake]
    rcases hi with hi | hi
    · rw [hi]
    · rw [hi]
      split <;> simp_all
  · rw [ite_self, World.withdrawal]
    rcases hr with hr | hr
    · rw [hr]
    · rw [hr]
      split <;> simp_all

theorem filing_of_idle (hw : (w.perform a).2 = w) (hi : (w.perform a).1.stored? = none)
    (hr : (w.perform a).1.isRemoved = false) :
    w.Filing a .direct w.session.direct w.session.direct [] [] :=
  filing_of_kept w.session.custody?_direct (.refl _) (by rw [hw]; rfl) (by rw [hw]; rfl) (.inr hi)
    (.inr hr)

theorem filing_of_insert? {bytes : Bytes} {hardware : Bool} {handle : UInt64}
    (hk : w.session.custody? site = some k) (hi : k.insert? bytes hardware = some (handle, l))
    (hv : (w.perform a).2.session.vault = l.vault)
    (hs : (w.perform a).2.session.stores = (w.session.keep site l).stores)
    (ha : a.stores? = some (bytes, hardware)) (hr : a.revokes? = none) (hp : w.place a = site)
    (hh : (w.perform a).1.stored? = some handle) :
    w.Filing a site k l [⟨⟨handle, (k.vault.deposit bytes .any).1, hardware⟩, bytes⟩] [] := by
  refine ⟨hk, .inserted hi, hv, hs, fun n => ?_, fun n => ?_⟩
  · rw [World.intake, ha, hh, hp, (custody?_eq_some hk).1]
  · rw [ite_self, World.withdrawal, hr]

theorem filing_of_remove? {handle : UInt64} {removed : Bool} (hk : w.session.custody? site = some k)
    (hx : k.remove? handle = some (removed, l)) (hv : (w.perform a).2.session.vault = l.vault)
    (hs : (w.perform a).2.session.stores = (w.session.keep site l).stores)
    (ha : a.revokes? = some handle) (hi : a.stores? = none) (hp : w.place a = site)
    (hr : (w.perform a).1.isRemoved = removed) : ∃ gone, w.Filing a site k l [] gone := by
  cases removed with
  | false =>
    obtain rfl := Custody.remove?_false hx
    exact ⟨[], filing_of_kept hk (.refl _) hv hs (.inl hi) (.inr hr)⟩
  | true =>
    refine ⟨[handle], hk, .removed hx, hv, hs, fun n => ?_, fun n => ?_⟩
    · rw [ite_self, World.intake, hi]
    · rw [World.withdrawal, ha, hr, hp]

theorem session_filing (w : World σ) (a : Session.Action) :
    ∃ site k l took gone, w.Filing (.session a) site k l took gone := by
  have performed {a : Session.Action} {r : Session.Reply} {t : Session σ}
      (hp : w.session.perform? a = some (r, t)) :
      w.perform (.session a) = (.session r, { w with session := t }) := by
    simp [perform, perform?, Session.perform, hp]
  have idle (hp : w.session.perform? a = none) :
      ∃ site k l took gone, w.Filing (.session a) site k l took gone := by
    have hw : w.perform (.session a) = (.session .absent, w) := by
      simp [perform, perform?, Session.perform, hp]
    exact ⟨_, _, _, _, _, filing_of_idle (by rw [hw]) (by rw [hw]; rfl) (by rw [hw]; rfl)⟩
  cases hs : a.stocks with
  | false =>
    obtain ⟨site, k, l, hk, kept, hv, ht⟩ := (w.session.perform_step a).keeps hs
    refine ⟨site, k, l, [], [], filing_of_kept hk kept hv ht (.inl ?_) (.inl ?_)⟩
    all_goals cases a <;> first | rfl | cases hs
  | true =>
    cases a with
    | insert place bytes hardware =>
      cases hk : w.session.custody? place with
      | none => exact idle (by simp [Session.perform?, hk])
      | some k =>
        cases hi : k.insert? bytes hardware with
        | none => exact idle (by simp [Session.perform?, hk, hi])
        | some x =>
          have hp := performed (a := .insert place bytes hardware) (r := .handle x.1)
            (t := w.session.keep place x.2) (by simp [Session.perform?, hk, hi])
          exact ⟨place, k, x.2, _, _, filing_of_insert? hk hi (by rw [hp]; exact Session.vault_keep ..)
            (by rw [hp]) rfl rfl rfl (by rw [hp]; rfl)⟩
    | remove place handle =>
      cases hk : w.session.custody? place with
      | none => exact idle (by simp [Session.perform?, hk])
      | some k =>
        cases hx : k.remove? handle with
        | none => exact idle (by simp [Session.perform?, hk, hx])
        | some x =>
          have hp := performed (a := .remove place handle) (r := .flag x.1)
            (t := w.session.keep place x.2) (by simp [Session.perform?, hk, hx])
          obtain ⟨gone, hf⟩ := filing_of_remove? (a := .session (.remove place handle)) hk hx
            (by rw [hp]; exact Session.vault_keep ..) (by rw [hp]) rfl rfl rfl (by rw [hp]; rfl)
          exact ⟨place, k, x.2, [], gone, hf⟩
    | _ => cases hs

theorem PoolStep.filing {number : Nat} {a : Pool.Action} {host : Host σ} {p : Pool σ}
    (st : w.PoolStep number a host p) :
    ∃ site k l took gone, w.Filing (.pool number a) site k l took gone := by
  have hv : (w.perform (.pool number a)).2.session.vault = (p.perform a).2.custody.vault := by
    rw [st.perform]
    exact Session.vault_keep ..
  have hs : (w.perform (.pool number a)).2.session.stores =
      (w.session.keep host.place (p.perform a).2.custody).stores := by
    rw [st.perform]
    rfl
  have hreply : (w.perform (.pool number a)).1 = .pool (p.perform a).1 := by rw [st.perform]
  cases hm : a.managesKeys with
  | false =>
    have kept := (p.perform_step a).kept_custody hm
    refine ⟨host.place, _, _, [], [], filing_of_kept st.custody kept hv hs (.inl ?_) (.inl ?_)⟩
    all_goals cases a <;> first | rfl | cases hm
  | true =>
    cases a with
    | insertKey bytes hardware =>
      cases hi : p.custody.insert? bytes hardware with
      | none =>
        have hp : p.perform (.insertKey bytes hardware) = (.absent, p) := by simp [Pool.perform, hi]
        rw [hp] at hv hs hreply
        exact ⟨_, _, _, _, _, filing_of_kept st.custody (.refl _) hv hs (.inr (by rw [hreply]; rfl))
          (.inl rfl)⟩
      | some x =>
        have hp : p.perform (.insertKey bytes hardware) = (.key x.1, { p with custody := x.2 }) := by
          simp [Pool.perform, hi]
        rw [hp] at hv hs hreply
        exact ⟨_, _, _, _, _, filing_of_insert? st.custody hi hv hs rfl rfl st.place
          (by rw [hreply]; rfl)⟩
    | removeKey handle =>
      cases hx : p.custody.remove? handle with
      | none =>
        have hp : p.perform (.removeKey handle) = (.absent, p) := by simp [Pool.perform, hx]
        rw [hp] at hv hs hreply
        exact ⟨_, _, _, _, _, filing_of_kept st.custody (.refl _) hv hs (.inl rfl)
          (.inr (by rw [hreply]; rfl))⟩
      | some x =>
        have hp : p.perform (.removeKey handle) = (.removed x.1, { p with custody := x.2 }) := by
          simp [Pool.perform, hx]
        rw [hp] at hv hs hreply
        obtain ⟨gone, hf⟩ := filing_of_remove? st.custody hx hv hs rfl rfl st.place
          (by rw [hreply]; rfl)
        exact ⟨_, _, _, _, gone, hf⟩
    | _ => cases hm

theorem filing (w : World σ) (a : Action) :
    ∃ site k l took gone, w.Filing a site k l took gone := by
  cases a with
  | session a => exact w.session_filing a
  | pool number a =>
    rcases w.idle_or_poolStep number a with ⟨hw, _⟩ | ⟨host, p, st⟩
    · exact ⟨_, _, _, _, _, filing_of_idle (by rw [hw]) (by rw [hw]; rfl) (by rw [hw]; rfl)⟩
    · exact st.filing

theorem size_stores_perform (w : World σ) (a : Action) :
    (w.perform a).2.session.stores.size = w.session.stores.size := by
  obtain ⟨site, k, l, _, _, hf⟩ := w.filing a
  rw [hf.stores, Session.size_stores_keep]

theorem exists_custody_step (a : Action) (hk : w.session.custody? (.store n) = some k) :
    ∃ l, (w.perform a).2.session.custody? (.store n) = some l := by
  obtain ⟨store, hstore, _⟩ := Option.map_eq_some_iff.mp hk
  obtain ⟨hlt, _⟩ := Array.getElem?_eq_some_iff.mp hstore
  exact exists_custody (w.size_stores_perform a ▸ hlt)

theorem mem_entries_step (a : Action) (hk : w.session.custody? (.store n) = some k)
    (hl : (w.perform a).2.session.custody? (.store n) = some l) {e : Entry} (he : e ∈ l.entries) :
    e ∈ k.entries ∨ ∃ x ∈ w.intake n a, x.entry = e := by
  obtain ⟨site, k', l', took, gone, hf⟩ := w.filing a
  rw [hf.intake]
  rcases custody?_after hf.custody hf.files.kind hf.vault hf.stores hl with
    ⟨rfl, rfl⟩ | ⟨_, k'', hk'', rfl⟩
  · cases hk.symm.trans hf.custody
    rw [if_pos rfl]
    exact hf.files.mem_entries he
  · cases hk.symm.trans hk''
    exact .inl he

/-- No key is stored twice. -/
theorem Accounted.nodup_step {handed : Nat → List Key} (h : w.Accounted handed)
    (hn : (stored w.session.stores).Nodup) (a : Action) :
    (stored (w.perform a).2.session.stores).Nodup := by
  obtain ⟨site, k, l, _, _, hf⟩ := w.filing a
  obtain ⟨rest, hbefore, hafter⟩ := stored_keep hf.custody hf.files.kind
  rw [hf.stores]
  refine hafter.nodup_iff.mpr (hf.files.nodup (hbefore.nodup_iff.mp hn) ?_)
  intro key hm
  rw [(custody?_eq_some hf.custody).1]
  exact h.balanced.holds (List.mem_append_left _ (hbefore.mem_iff.mpr hm))

theorem Accounted.nodup_after {handed : Nat → List Key} (h : w.Accounted handed) (hn : (stored w.session.stores).Nodup)
    (actions : List Action) : (stored (w.after actions).session.stores).Nodup := by
  induction actions generalizing w handed with
  | nil => exact hn
  | cons a rest ih => exact ih (h.books a).accounted (h.nodup_step hn a)

/-- What a step does to the history of a store. -/
theorem register_step {took : List Intake} {gone : List UInt64} (a : Action)
    (few : (took ++ w.intake n a).length < UInt64.size)
    (hk : w.session.custody? (.store n) = some k) (h : k.Register took gone)
    (hl : (w.perform a).2.session.custody? (.store n) = some l) :
    l.Register (took ++ w.intake n a) (gone ++ w.withdrawal n a) := by
  have hv : k.vault.marks <+: l.vault.marks := by
    rw [(custody?_eq_some hk).1, (custody?_eq_some hl).1]
    exact w.marks_perform a
  obtain ⟨site, k', l', took', gone', hf⟩ := w.filing a
  rw [hf.intake] at few ⊢
  rw [hf.withdrawal]
  rcases custody?_after hf.custody hf.files.kind hf.vault hf.stores hl with
    ⟨rfl, rfl⟩ | ⟨hne, k'', hk'', rfl⟩
  · cases hk.symm.trans hf.custody
    rw [if_pos rfl] at few ⊢
    rw [if_pos rfl]
    exact hf.files.register few hv h
  · cases hk.symm.trans hk''
    rw [if_neg hne, if_neg hne, List.append_nil, List.append_nil]
    exact h.of_marks rfl hv

theorem register_after {took : List Intake} {gone : List UInt64} (actions : List Action)
    (few : (took ++ w.intakes n actions).length < UInt64.size)
    (hk : w.session.custody? (.store n) = some k) (h : k.Register took gone)
    (hl : (w.after actions).session.custody? (.store n) = some l) :
    l.Register (took ++ w.intakes n actions) (gone ++ w.withdrawals n actions) := by
  induction actions generalizing w k took gone with
  | nil =>
    cases hk.symm.trans hl
    simpa [intakes, withdrawals] using h
  | cons a rest ih =>
    obtain ⟨m, hm⟩ := exists_custody_step a hk
    rw [intakes, ← List.append_assoc] at few ⊢
    rw [withdrawals, ← List.append_assoc]
    have now : (took ++ w.intake n a).length < UInt64.size := by
      rw [List.length_append] at few
      omega
    exact ih few hm (register_step a now hk h hm) hl

theorem stock_isSome (hk : w.session.custody? (.store n) = some k) : k.stock.isSome := by
  obtain ⟨store, _, rfl⟩ := Option.map_eq_some_iff.mp hk
  rfl

/-- The keys of a store at a later time: those that it had, and others that it has taken in. -/
theorem mem_entries_after (actions : List Action) (hk : w.session.custody? (.store n) = some k)
    (hl : (w.after actions).session.custody? (.store n) = some l) {e : Entry} (he : e ∈ l.entries) :
    e ∈ k.entries ∨ ∃ x ∈ w.intakes n actions, x.entry = e := by
  induction actions generalizing w k with
  | nil =>
    cases hk.symm.trans hl
    exact .inl he
  | cons a rest ih =>
    obtain ⟨m, hm⟩ := exists_custody_step a hk
    rcases ih hm hl with he | ⟨x, hx, rfl⟩
    · refine (mem_entries_step a hk hm he).imp_right ?_
      exact fun ⟨x, hx, heq⟩ => ⟨x, List.mem_append_left _ hx, heq⟩
    · exact .inr ⟨x, List.mem_append_right _ hx, rfl⟩

theorem register_start (service : Service σ) (stores : Nat) (places : List Place)
    (hk : (start service stores places).session.custody? (.store n) = some k) :
    k.Register [] [] := by
  obtain ⟨store, hs, rfl⟩ := Option.map_eq_some_iff.mp hk
  obtain ⟨_, rfl⟩ := by simpa [start, Array.getElem?_replicate] using hs
  exact ⟨rfl, rfl, by simp, by simp, List.nodup_nil⟩

theorem intakes_append (w : World σ) (n : Nat) (before later : List Action) :
    w.intakes n (before ++ later) = w.intakes n before ++ (w.after before).intakes n later := by
  induction before generalizing w with
  | nil => rfl
  | cons a rest ih =>
    rw [List.cons_append, intakes, intakes, ih, List.append_assoc]
    rfl

theorem withdrawals_append (w : World σ) (n : Nat) (before later : List Action) :
    w.withdrawals n (before ++ later) =
      w.withdrawals n before ++ (w.after before).withdrawals n later := by
  induction before generalizing w with
  | nil => rfl
  | cons a rest ih =>
    rw [List.cons_append, withdrawals, withdrawals, ih, List.append_assoc]
    rfl

/-- A key that a store takes in is made in that step, and for that store. -/
theorem fresh_of_mem_intake {x : Intake} (h : x ∈ w.intake n a) :
    a.stores?.isSome ∧ w.place a = .store n ∧ ¬w.session.vault.Holds x.entry.key ∧
      (w.perform a).2.session.vault.Holds x.entry.key := by
  have hfresh : ¬w.session.vault.Holds x.entry.key ∧
      (w.perform a).2.session.vault.Holds x.entry.key := by
    obtain ⟨site, k, l, took, gone, hf⟩ := w.filing a
    rw [hf.intake] at h
    split at h
    · have hkey := hf.files.fresh h
      rwa [(custody?_eq_some hf.custody).1, ← hf.vault] at hkey
    · cases h
  unfold intake at h
  split at h
  · next hs _ =>
    split at h
    · next hp => exact ⟨by rw [hs]; rfl, hp, hfresh⟩
    · cases h
  · cases h

theorem holds_after (actions : List Action) (h : w.session.vault.Holds key) :
    (w.after actions).session.vault.Holds key :=
  Vault.holds_of_marks (w.marks_after actions) h

/-- The keys that a store takes in in a run are made in it. -/
theorem fresh_of_mem_intakes {x : Intake} {actions : List Action} (h : x ∈ w.intakes n actions) :
    ¬w.session.vault.Holds x.entry.key ∧ (w.after actions).session.vault.Holds x.entry.key := by
  induction actions generalizing w with
  | nil => cases h
  | cons a rest ih =>
    rcases List.mem_append.mp h with h | h
    · obtain ⟨_, _, hnew, hheld⟩ := fresh_of_mem_intake h
      exact ⟨hnew, holds_after rest hheld⟩
    · obtain ⟨hnew, hheld⟩ := ih h
      exact ⟨fun hk => hnew (holds_after [a] hk), hheld⟩

/-- No two stores take in the same material, whatever the bytes. -/
theorem store_eq_of_mem_intakes {m : Nat} {x y : Intake} {actions : List Action}
    (hx : x ∈ w.intakes m actions) (hy : y ∈ w.intakes n actions)
    (hkey : x.entry.key = y.entry.key) : m = n := by
  induction actions generalizing w with
  | nil => cases hx
  | cons a rest ih =>
    rcases List.mem_append.mp hx with hx | hx <;> rcases List.mem_append.mp hy with hy | hy
    · have hm := (fresh_of_mem_intake hx).2.1
      have hn := (fresh_of_mem_intake hy).2.1
      exact Place.store.inj (hm.symm.trans hn)
    · exact absurd (hkey ▸ (fresh_of_mem_intake hx).2.2.2) (fresh_of_mem_intakes hy).1
    · exact absurd (hkey.symm ▸ (fresh_of_mem_intake hy).2.2.2) (fresh_of_mem_intakes hx).1
    · exact ih hx hy

/-- Material that an action other than storing it brought about is never a stored key. -/
theorem not_mem_intakes_of_made {x : Intake} {before later : List Action} (ha : a.stores? = none)
    (hnew : ¬(w.after before).session.vault.Holds key)
    (hmade : (w.after (before ++ [a])).session.vault.Holds key)
    (hx : x ∈ w.intakes n (before ++ a :: later)) : x.entry.key ≠ key := by
  rintro rfl
  rw [intakes_append] at hx
  rcases List.mem_append.mp hx with hx | hx
  · exact hnew (fresh_of_mem_intakes hx).2
  · rcases List.mem_append.mp hx with hx | hx
    · have hs := (fresh_of_mem_intake hx).1
      rw [ha] at hs
      cases hs
    · rw [after, List.foldl_append] at hmade
      exact (fresh_of_mem_intakes hx).1 hmade

end World

end StreamDigest
