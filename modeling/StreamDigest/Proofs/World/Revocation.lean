import StreamDigest.Proofs.World.Handles
import StreamDigest.Proofs.World.References
import StreamDigest.Proofs.World.Register
import StreamDigest.Proofs.World.Without

namespace StreamDigest

variable {σ : Type}

namespace Custody

variable {k l : Custody} {key : Key} {handle : UInt64}

theorem find?_handle_of_absent (h : ∀ e ∈ k.entries, e.handle ≠ handle) :
    k.entries.find? (fun e => e.handle = handle) = none :=
  List.find?_eq_none.mpr (by simpa using h)

theorem remove?_of_absent (hs : k.stock.isSome) (h : ∀ e ∈ k.entries, e.handle ≠ handle) :
    k.remove? handle = some (false, k) := by
  have hfind := find?_handle_of_absent h
  obtain ⟨vault, _ | s⟩ := k
  · cases hs
  · have he : s.entry? handle = none := hfind
    simp only [remove?, KeyStore.remove, he]

end Custody

namespace Service

variable {s : Service σ} {k : Custody} {key : Key} {handle : UInt64}

/-- The fault of a MAC whose key is not live. -/
def refusal (s : Service σ) (a : Algorithm) : Fault :=
  if a.kind = .mac then
    if s.policy.permits a then .invalidKeyHandle
    else .unsupportedAlgorithm s!"{a.name} (disabled)"
  else .unsupportedAlgorithm s!"{a.name} is not a MAC mechanism"

@[simp]
theorem refusal_on (s : Service σ) (n : Nat) (a : Algorithm) : (s.on n).refusal a = s.refusal a := rfl

theorem checkMac_of_dead (s : Service σ) (a : Algorithm) (h : k.isLive key = false) :
    s.checkMac a key k = .error (s.refusal a) := by
  have hc := s.macCheck a key k
  generalize s.checkMac a key k = r at hc
  cases hc with
  | misused hk => simp [refusal, hk]
  | disabled hk hp => simp [refusal, hk, hp]
  | dead hk hp hl => simp [refusal, hk, hp]
  | short hk hp hl | passed hk hp hl => exact absurd hl (by simp [h])

theorem beginMac_of_dead (s : Service σ) (a : Algorithm) (h : k.isLive key = false) :
    s.beginMac a key k = (.error (s.refusal a), k) := by
  rw [beginMac_eq, s.checkMac_of_dead a h]

theorem mac_of_dead (s : Service σ) (a : Algorithm) (data : Bytes) (h : k.isLive key = false) :
    s.mac a key data k = (.error (s.refusal a), k) := by
  rw [mac, s.beginMac_of_dead a h]

theorem beginMacFromHandle_of_absent (s : Service σ) (a : Algorithm)
    (h : ∀ e ∈ k.entries, e.handle ≠ handle) :
    s.beginMacFromHandle a handle k = (.error .invalidKeyHandle, k) := by
  rw [beginMacFromHandle_eq, Custody.resolve_of_absent (Custody.find?_handle_of_absent h)]

end Service

namespace Session

variable {s t : Session σ} {a : Action} {n number : Nat} {k : Custody} {key : Key}

/-- What an action does to the computation that it is about depends on nothing else. -/
theorem perform_about (ha : a.about = some number) (hs : t.service = s.service)
    (hc : t.computations[number]? = s.computations[number]?) :
    (t.perform a).1 = (s.perform a).1 ∧
      (t.perform a).2.computations[number]? = (s.perform a).2.computations[number]? := by
  have hcomp : t.computation? number = s.computation? number := by
    rw [computation?, computation?, hc]
  have put (x : Option (Computation σ)) : (t.computations.setIfInBounds number x)[number]? =
      (s.computations.setIfInBounds number x)[number]? := by
    have hsize : number < t.computations.size ↔ number < s.computations.size := by
      rw [← Nat.not_le, ← Nat.not_le, ← Array.getElem?_eq_none_iff, ← Array.getElem?_eq_none_iff, hc]
    simp [Array.getElem?_setIfInBounds, hsize]
  have absent (hs : s.perform? a = none) (ht : t.perform? a = none) :
      (t.perform a).1 = (s.perform a).1 ∧
        (t.perform a).2.computations[number]? = (s.perform a).2.computations[number]? := by
    rw [perform, perform, hs, ht]
    exact ⟨rfl, hc⟩
  cases hx : s.computation? number with
  | none =>
    have hy : t.computation? number = none := hcomp.trans hx
    cases a with
    | inspect | call | feedPieces | drop =>
      cases ha
      exact absent (by simp [perform?, hx]) (by simp [perform?, hy])
    | _ => cases ha
  | some c =>
    have hy : t.computation? number = some c := hcomp.trans hx
    cases a with
    | inspect =>
      cases ha
      simpa [perform, perform?, hx, hy] using hc
    | call _ call =>
      cases ha
      rw [perform, perform, perform?_call hx, perform?_call hy, hs]
      exact ⟨rfl, put _⟩
    | feedPieces _ data size =>
      cases ha
      rw [perform, perform, perform?_feedPieces hx, perform?_feedPieces hy, hs]
      exact ⟨rfl, put _⟩
    | drop =>
      cases ha
      rw [perform, perform, perform?_drop hx, perform?_drop hy]
      exact ⟨rfl, put _⟩
    | _ => cases ha

theorem Step.computations_apart {r : Reply} (st : Step s a r t) (ha : a.about ≠ some number)
    (hlt : number < s.computations.size) : t.computations[number]? = s.computations[number]? := by
  cases st with
  | absent | read | gave => rfl
  | kept | stocked => simp
  | gained => simp [addKey]
  | @begun a k l begun =>
    cases begun with
    | error e => simp [addComputation]
    | ok c =>
      have hne : number ≠ s.computations.size := Nat.ne_of_lt hlt
      simp [addComputation, Array.getElem?_push, hne]
  | went hn =>
    have hne : _ ≠ number := fun heq => ha (heq ▸ hn)
    simp [replace, hne]
  | dropped =>
    have hne : _ ≠ number := fun heq => ha (congrArg some heq)
    simp [hne]

theorem Step.size_computations_le {r : Reply} (st : Step s a r t) :
    s.computations.size ≤ t.computations.size := by
  cases st with
  | absent | read | gave => exact Nat.le_refl _
  | kept | stocked => simp
  | gained => simp [addKey]
  | @begun a k l begun => cases begun <;> simp [addComputation]
  | went | dropped => simp [replace]

end Session

namespace World

variable {w : World σ} {n : Nat} {h : UInt64} {k : Custody} {key : Key} {handed : Nat → List Key}

/-- Neither the handle nor the key is of any use at the store, and to try changes nothing. -/
structure Revoked (w : World σ) (n : Nat) (h : UInt64) (key : Key) : Prop where
  resolve : w.perform (.session (.resolve (.store n) h)) =
    (.session (.fault .invalidKeyHandle), w)
  remove : w.perform (.session (.remove (.store n) h)) = (.session (.flag false), w)
  beginMacFromHandle : ∀ a occasion,
    w.perform (.session (.beginMacFromHandle a h (.store n) occasion)) =
      (.session (.fault .invalidKeyHandle), w)
  beginMac : ∀ a number occasion, w.session.key? number = some key →
    w.perform (.session (.beginMac a number (.store n) occasion)) =
      (.session (.fault (w.session.service.refusal a)), w)
  mac : ∀ a number data occasion, w.session.key? number = some key →
    w.perform (.session (.mac a number (.store n) data occasion)) =
      (.session (.fault (w.session.service.refusal a)), w)
  copyForSigning : ∀ number, w.session.key? number = some key →
    w.perform (.session (.copyForSigning (.store n) number)) = (.session .noKey, w)
  isLive : ∀ number, w.session.key? number = some key →
    w.perform (.session (.isLive (.store n) number)) = (.session (.flag false), w)
  removeKey : ∀ number host, w.hosts[number]? = some host → host.place = .store n →
    w.perform (.pool number (.removeKey h)) = (.pool (.removed false), w)
  openMac : ∀ number host a occasion, w.hosts[number]? = some host → host.place = .store n →
    ∃ e, w.perform (.pool number (.openMac a h occasion)) = (.pool (.opened (.error e)), w) ∧
      (host.arena.live < w.session.service.policy.maxLive.toNat → e = .invalidKeyHandle)

theorem perform_of_perform? {a : Session.Action} {r : Session.Reply}
    (hp : w.session.perform? a = some (r, w.session)) :
    w.perform (.session a) = (.session r, w) := by
  simp [perform, perform?, Session.perform, hp]

variable {number : Nat} {host : Host σ}

/-- A pool that takes its keys from a store, and an action that leaves it as it is. -/
theorem perform_of_pool {a : Pool.Action} {r : Pool.Reply} (hh : w.hosts[number]? = some host)
    (hp : host.place = .store n) (hk : w.session.custody? (.store n) = some k)
    (ha : Pool.perform ⟨w.session.service, k, host.arena⟩ a =
      (r, ⟨w.session.service, k, host.arena⟩)) : w.perform (.pool number a) = (.pool r, w) := by
  obtain ⟨place, arena⟩ := host
  obtain rfl : place = .store n := hp
  have hpool : w.pool? ⟨.store n, arena⟩ = some ⟨w.session.service, k, arena⟩ := by
    rw [pool?, hk]
    rfl
  have hkeep : w.keep number ⟨.store n, arena⟩ ⟨w.session.service, k, arena⟩ = w := by
    rw [keep, Session.keep_self hk, setIfInBounds_self hh]
  simp [perform, perform?, hh, hpool, ha, hkeep]

/-- A pool with room finds no key, and gives the room back. -/
theorem openMac_of_absent (s : Service σ) (arena : Arena (Computation σ)) (a : Algorithm)
    (occasion : Nat) (hh : ∀ e ∈ k.entries, e.handle ≠ h) :
    ∃ e, Pool.perform ⟨s, k, arena⟩ (.openMac a h occasion) = (.opened (.error e), ⟨s, k, arena⟩) ∧
      (arena.live < s.policy.maxLive.toNat → e = .invalidKeyHandle) := by
  by_cases hfull : s.policy.maxLive.toNat ≤ arena.live
  · refine ⟨.initialization s!"{s.policy.maxLive} contexts already open", ?_, by omega⟩
    simp [Pool.perform, Pool.openMac, Pool.enroll, Pool.live, hfull]
  · refine ⟨.invalidKeyHandle, ?_, fun _ => rfl⟩
    have hbegin := (s.on occasion).beginMacFromHandle_of_absent a hh
    have hroom : arena.takeRoom.returnRoom = arena := rfl
    simp [Pool.perform, Pool.openMac, Pool.enroll, Pool.live, hfull, hbegin, hroom]

theorem revoked_of_absent (hk : w.session.custody? (.store n) = some k)
    (hh : ∀ e ∈ k.entries, e.handle ≠ h) (hm : key ∉ k.keys) : w.Revoked n h key := by
  have hstock : k.stock.isSome := by
    obtain ⟨store, _, rfl⟩ := Option.map_eq_some_iff.mp hk
    rfl
  have dead := Custody.isLive_of_absent hstock hm
  have hself := Session.keep_self hk
  have hresolve := Custody.resolve_of_absent (Custody.find?_handle_of_absent hh)
  have hremove := Custody.remove?_of_absent hstock hh
  have hcopy := Custody.copyForSigning_of_absent hstock hm
  refine ⟨?_, ?_, ?_, ?_, ?_, ?_, ?_, ?_, ?_⟩
  · exact perform_of_perform? (by simp [Session.perform?, hk, hresolve, hself])
  · exact perform_of_perform? (by simp [Session.perform?, hk, hremove, hself])
  · intro a occasion
    have hbegin := (w.session.service.on occasion).beginMacFromHandle_of_absent a hh
    exact perform_of_perform? (by
      simp [Session.perform?, hk, hbegin, hself, Session.addComputation])
  · intro a number occasion hn
    have hbegin := (w.session.service.on occasion).beginMac_of_dead a dead
    exact perform_of_perform? (by
      simp [Session.perform?, hk, hn, hbegin, hself, Session.addComputation])
  · intro a number data occasion hn
    have hmac := (w.session.service.on occasion).mac_of_dead a data dead
    exact perform_of_perform? (by
      simp [Session.perform?, hk, hn, hmac, hself, Session.ofOutput])
  · intro number hn
    exact perform_of_perform? (by simp [Session.perform?, hk, hn, hcopy, hself])
  · intro number hn
    exact perform_of_perform? (by simp [Session.perform?, hk, hn, dead])
  · intro number host hhost hplace
    exact perform_of_pool hhost hplace hk (by simp [Pool.perform, hremove])
  · intro number host a occasion hhost hplace
    obtain ⟨e, he, hroom⟩ := openMac_of_absent w.session.service host.arena a occasion hh
    exact ⟨e, perform_of_pool hhost hplace hk he, hroom⟩

theorem custody?_without (hk : w.session.custody? (.store n) = some k) (key : Key) :
    (w.without key).session.custody? (.store n) = some (k.without key) := by
  have hw := w.session.custody?_without key (.store n)
  rw [hk] at hw
  exact hw

/-- Without a key, neither it nor its handle is of any use. -/
theorem Accounted.revoked (acc : w.Accounted handed) (hk : w.session.custody? (.store n) = some k)
    {e : Entry} (he : e ∈ k.entries) : (w.without e.key).Revoked n e.handle e.key := by
  have tidy := acc.tidy n k hk
  refine revoked_of_absent (custody?_without hk e.key) ?_ ?_
  · rw [Custody.entries_without]
    intro e' he' hh
    obtain ⟨hm, hne⟩ := List.mem_filter.mp he'
    have heq := tidy.handle_inj hm he hh
    simp [heq] at hne
  · rw [Custody.keys, Custody.entries_without]
    intro hm
    obtain ⟨e', he', hkey⟩ := List.mem_map.mp hm
    have hne := (List.mem_filter.mp he').2
    simp [hkey] at hne

theorem exists_store {site : Place} {e : Entry} (hk : w.session.custody? site = some k)
    (he : e ∈ k.entries) : ∃ n, site = .store n := by
  cases site with
  | direct =>
    cases hk
    cases he
  | store n => exact ⟨n, rfl⟩

/-- Where a handle stands for a key, there is no use in it without the key. -/
theorem Accounted.revoked_of_lists (acc : w.Accounted handed) {site : Place} {handle : UInt64}
    (hl : ((w.session.custody? site).any fun k => k.lists handle key) = true) :
    ∃ n, site = .store n ∧ (w.without key).Revoked n handle key := by
  obtain ⟨k, hk, hl⟩ := (Option.any_eq_true _ _).mp hl
  obtain ⟨e, he, rfl, rfl⟩ := Custody.exists_of_lists hl
  obtain ⟨n, rfl⟩ := exists_store hk he
  exact ⟨n, rfl, acc.revoked hk he⟩

/-- Where the caller asks for a key that is stored, there is no use in that without the key. -/
theorem Accounted.revoked_of_key? (acc : w.Accounted handed) {site : Place} {number : Nat}
    (ha : (w.session.key? number = some key &&
      (w.session.custody? site).any fun k => key ∈ k.keys) = true) :
    w.session.key? number = some key ∧
      ∃ n handle, site = .store n ∧ (w.without key).Revoked n handle key := by
  obtain ⟨hn, hs⟩ := Bool.and_eq_true_iff.mp ha
  obtain ⟨k, hk, hm⟩ := (Option.any_eq_true _ _).mp hs
  obtain ⟨e, he, rfl⟩ := List.mem_map.mp (of_decide_eq_true hm)
  obtain ⟨n, rfl⟩ := exists_store hk he
  exact ⟨of_decide_eq_true hn, n, e.handle, rfl, acc.revoked hk he⟩

theorem perform_inspectKey (w : World σ) (number : Nat) :
    (w.perform (.session (.inspectKey number))).2 = w := by
  have hs : (w.session.perform (.inspectKey number)).2 = w.session := by
    unfold Session.perform Session.perform?
    cases hn : w.session.key? number with
    | none => simp [hn]
    | some key => cases hf : w.session.vault.find? key <;> simp [hn, hf]
  change { w with session := (w.session.perform (.inspectKey number)).2 } = w
  rw [hs]

/-- What asks for a key that is not there comes to nothing. -/
theorem Accounted.idle_of_asksFor (acc : w.Accounted handed) {a : Action}
    (ha : w.asksFor key a = true) : ((w.without key).perform a).2 = w.without key := by
  cases a with
  | session a =>
    cases a with
    | remove place handle =>
      obtain ⟨n, rfl, hr⟩ := acc.revoked_of_lists ha
      rw [hr.remove]
    | resolve place handle =>
      obtain ⟨n, rfl, hr⟩ := acc.revoked_of_lists ha
      rw [hr.resolve]
    | beginMacFromHandle a handle place occasion =>
      obtain ⟨n, rfl, hr⟩ := acc.revoked_of_lists ha
      rw [hr.beginMacFromHandle a occasion]
    | copyForSigning place number =>
      obtain ⟨hn, n, handle, rfl, hr⟩ := acc.revoked_of_key? ha
      rw [hr.copyForSigning number hn]
    | isLive place number =>
      obtain ⟨hn, n, handle, rfl, hr⟩ := acc.revoked_of_key? ha
      rw [hr.isLive number hn]
    | beginMac a number place occasion =>
      obtain ⟨hn, n, handle, rfl, hr⟩ := acc.revoked_of_key? ha
      rw [hr.beginMac a number occasion hn]
    | mac a number place data occasion =>
      obtain ⟨hn, n, handle, rfl, hr⟩ := acc.revoked_of_key? ha
      rw [hr.mac a number data occasion hn]
    | inspectKey number => exact perform_inspectKey _ number
    | _ => cases ha
  | pool number a =>
    obtain ⟨p, hp, hasks⟩ := (Option.any_eq_true _ _).mp ha
    obtain ⟨host, hh, hpool⟩ := Option.bind_eq_some_iff.mp hp
    obtain ⟨k, hk, rfl⟩ := Option.map_eq_some_iff.mp hpool
    have hl {handle : UInt64} (hl : k.lists handle key = true) :=
      acc.revoked_of_lists ((Option.any_eq_true _ _).mpr ⟨k, hk, hl⟩)
    cases a with
    | openMac a handle occasion =>
      obtain ⟨n, hplace, hr⟩ := hl hasks
      obtain ⟨e, he, _⟩ := hr.openMac number host a occasion hh hplace
      rw [he]
    | removeKey handle =>
      obtain ⟨n, hplace, hr⟩ := hl hasks
      rw [hr.removeKey number host hh hplace]
    | _ => cases hasks

/-- What is left of some actions without those that ask for the key. -/
def others (w : World σ) (key : Key) : List Action → List Action
  | [] => []
  | a :: rest =>
    if w.asksFor key a then w.others key rest else a :: (w.perform a).2.others key rest

/-- A key that is stored in one place is in no other. -/
theorem place_of_nodup {stores : Array KeyStore} (nodup : (stored stores).Nodup) {i j : Nat}
    {s t : KeyStore} (hi : stores[i]? = some s) (hj : stores[j]? = some t) {e e' : Entry}
    (he : e ∈ s.entries) (he' : e' ∈ t.entries) (hkey : e.key = e'.key) : i = j := by
  have apart := List.pairwise_iff_getElem.mp (List.nodup_flatMap.mp nodup).2
  have clash {i j : Nat} {s t : KeyStore} (hi : stores[i]? = some s) (hj : stores[j]? = some t)
      {e e' : Entry} (he : e ∈ s.entries) (he' : e' ∈ t.entries) (hkey : e.key = e'.key) :
      ¬i < j := by
    intro hlt
    obtain ⟨himem, rfl⟩ := Array.getElem?_eq_some_iff.mp hi
    obtain ⟨hjmem, rfl⟩ := Array.getElem?_eq_some_iff.mp hj
    rw [← Array.length_toList] at himem hjmem
    have hd := apart i j himem hjmem hlt
    exact hd (List.mem_map_of_mem he) (hkey ▸ List.mem_map_of_mem he')
  have hij := clash hi hj he he' hkey
  have hji := clash hj hi he' he hkey.symm
  omega

/-- To take a key away from all stores is to strike its handle off in the one that has it. -/
theorem map_without {stores : Array KeyStore} (nodup : (stored stores).Nodup) {s : KeyStore}
    (hs : stores[n]? = some s) (handles : (s.entries.map Entry.handle).Nodup) {e : Entry}
    (he : e ∈ s.entries) : (stores.map fun store => store.without e.key) =
      stores.setIfInBounds n
        { s with entries := s.entries.filter fun e' => e'.handle ≠ e.handle } := by
  have keys : (s.entries.map Entry.key).Nodup :=
    (List.nodup_flatMap.mp nodup).1 s (by simpa using Array.mem_of_getElem? hs)
  refine Array.ext_getElem? fun i => ?_
  rw [Array.getElem?_map, Array.getElem?_setIfInBounds]
  by_cases hi : n = i
  · subst hi
    obtain ⟨hn, _⟩ := Array.getElem?_eq_some_iff.mp hs
    rw [if_pos rfl, if_pos hn, hs, Option.map_some, KeyStore.without]
    congr 2
    refine List.filter_congr fun e' he' => decide_eq_decide.mpr (not_congr ?_)
    constructor
    · exact fun hkey => congrArg Entry.handle (List.inj_on_of_nodup_map keys he' he hkey)
    · exact fun hh => congrArg Entry.key (List.inj_on_of_nodup_map handles he' he hh)
  · rw [if_neg hi]
    cases ht : stores[i]? with
    | none => rfl
    | some t =>
      have hall : t.entries.filter (fun e' => e'.key ≠ e.key) = t.entries := by
        refine List.filter_eq_self.mpr fun e' he' => decide_eq_true ?_
        exact fun hkey => hi (place_of_nodup nodup hs ht he he' hkey.symm)
      rw [Option.map_some, KeyStore.without, hall]

/-- What becomes of a world in which a key is revoked. -/
theorem Accounted.perform_remove (acc : w.Accounted handed)
    (nodup : (stored w.session.stores).Nodup) (hk : w.session.custody? (.store n) = some k)
    {e : Entry} (he : e ∈ k.entries) : w.perform (.session (.remove (.store n) e.handle)) =
      (.session (.flag true), w.without e.key) := by
  obtain ⟨s, hs, rfl⟩ := Option.map_eq_some_iff.mp hk
  have tidy := acc.tidy n _ hk
  have hentry : s.entry? e.handle = some e := tidy.find?_handle he
  have hmap := map_without nodup hs tidy he
  simp only [perform, perform?, Session.perform, Session.perform?, hk]
  simp [Custody.remove?, KeyStore.remove, hentry, Session.keep, without, Session.without, hmap]

/-- A store that has taken in `took` has a key under a handle, and the count of its handles has not
come round. -/
structure Stocks (w : World σ) (n : Nat) (e : Entry) (took : List Intake) : Prop where
  accounted : ∃ handed, w.Accounted handed
  nodup : (stored w.session.stores).Nodup
  register : ∃ k gone, w.session.custody? (.store n) = some k ∧ k.Register took gone ∧ e ∈ k.entries
  few : took.length < UInt64.size

variable {e : Entry} {took : List Intake} {a : Action}

theorem Stocks.mem_stored (st : w.Stocks n e took) : e.key ∈ stored w.session.stores := by
  obtain ⟨k, _, hk, _, he⟩ := st.register
  exact mem_stored_of_keys hk (List.mem_map_of_mem he)

theorem Stocks.reserves (st : w.Stocks n e took) (m : Nat) (l : Custody)
    (hl : w.session.custody? (.store m) = some l) : l.Reserves e.key := by
  intro s hs e' he' hkey
  obtain ⟨k, gone, hk, register, he⟩ := st.register
  obtain ⟨store, hstore, rfl⟩ := Option.map_eq_some_iff.mp hk
  obtain ⟨store', hstore', rfl⟩ := Option.map_eq_some_iff.mp hl
  cases hs
  obtain rfl := place_of_nodup st.nodup hstore' hstore he' he hkey
  cases hstore.symm.trans hstore'
  have hlast : store.lastHandle = took.length.toUInt64 :=
    congrArg Prod.fst (Option.some.inj register.stock)
  obtain ⟨x, hx, _, rfl⟩ := register.mem_entries.mp he'
  rw [hlast]
  exact register.next_unused st.few hx

theorem Stocks.spares (st : w.Stocks n e took) : w.session.Spares e.key :=
  st.accounted.elim fun _ acc => acc.spares st.mem_stored st.reserves

/-- Without a key, neither it nor its handle is of any use. -/
theorem Stocks.revoked (st : w.Stocks n e took) : (w.without e.key).Revoked n e.handle e.key := by
  obtain ⟨_, acc⟩ := st.accounted
  obtain ⟨_, _, hk, _, he⟩ := st.register
  exact acc.revoked hk he

theorem asksFor_of_revokes {handle : UInt64} (ha : a.revokes? = some handle)
    (hp : w.place a = .store n) (hk : w.session.custody? (.store n) = some k) :
    w.asksFor key a = k.lists handle key := by
  cases a with
  | session a =>
    cases a with
    | remove place handle =>
      cases ha
      obtain rfl : place = .store n := hp
      simp [asksFor, Session.asksFor, hk]
    | _ => cases ha
  | pool number a =>
    cases a with
    | removeKey handle =>
      cases ha
      cases hh : w.hosts[number]? with
      | none => simp [place, hh] at hp
      | some host =>
        obtain hplace : host.place = .store n := by simpa [place, hh] using hp
        simp [asksFor, hh, pool?, hplace, hk, Pool.asksFor]
    | _ => cases ha

/-- A key that is not asked for stays under its handle. -/
theorem Stocks.step (st : w.Stocks n e took) (ha : w.asksFor e.key a = false)
    (few : (took ++ w.intake n a).length < UInt64.size) :
    (w.perform a).2.Stocks n e (took ++ w.intake n a) := by
  obtain ⟨handed, acc⟩ := st.accounted
  obtain ⟨k, gone, hk, register, he⟩ := st.register
  obtain ⟨l, hl⟩ := exists_custody_step a hk
  refine ⟨⟨_, (acc.books a).accounted⟩, acc.nodup_step st.nodup a,
    ⟨l, _, hl, register_step a few hk register hl, ?_⟩, few⟩
  obtain ⟨site, k', l', took', gone', hf⟩ := w.filing a
  rcases custody?_after hf.custody hf.files.kind hf.vault hf.stores hl with
    ⟨rfl, rfl⟩ | ⟨_, k'', hk'', rfl⟩
  · cases hk.symm.trans hf.custody
    have hgone := hf.withdrawal n
    rw [if_pos rfl] at hgone
    cases hf.files with
    | kept kept => rwa [kept.entries]
    | inserted hi =>
      obtain ⟨s, hs, _, hs', _⟩ := Custody.insert?_eq_some hi
      rw [Custody.entries_eq hs', List.mem_cons, List.mem_filter]
      refine .inr ⟨Custody.entries_eq hs ▸ he, decide_eq_true ?_⟩
      exact st.reserves n k hk s hs e (Custody.entries_eq hs ▸ he) rfl
    | @removed handle hr =>
      obtain ⟨s, hs, _, hs', _⟩ := Custody.remove?_eq_some hr
      rw [Custody.entries_eq hs', List.mem_filter]
      refine ⟨Custody.entries_eq hs ▸ he, decide_eq_true fun hh => ?_⟩
      obtain ⟨hrevokes, hplace⟩ := of_withdrawal hgone
      rw [asksFor_of_revokes hrevokes hplace hk] at ha
      exact Custody.lists_eq_false ha e he hh rfl
  · cases hk.symm.trans hk''
    exact he

/-- What a store takes in is the same without a key that is not asked for. -/
theorem intake_without (h : w.session.Spares key) (ha : w.asksFor key a = false) (n : Nat) :
    (w.without key).intake n a = w.intake n a := by
  have hreply : ((w.without key).perform a).1 = (w.perform a).1 := by rw [perform_without h ha]
  have hplace : (w.without key).place a = w.place a := by cases a <;> rfl
  have hfresh (b : Bytes) : ((w.without key).session.vault.deposit b .any).1 =
      (w.session.vault.deposit b .any).1 := by
    change ((w.session.vault.release key).deposit b .any).1 = _
    rw [Vault.deposit_release (Vault.holds_of_references_pos h.pos)]
  simp only [intake, hreply, hplace, hfresh]

/-- Without a stored key, a world goes on as it would with it if nobody asked for it. -/
theorem Stocks.after_without (st : w.Stocks n e took) (actions : List Action)
    (few : (took ++ (w.without e.key).intakes n actions).length < UInt64.size) :
    let v := w.after (w.others e.key actions)
    (w.without e.key).after actions = v.without e.key ∧ ∃ took, v.Stocks n e took := by
  induction actions generalizing w took with
  | nil => exact ⟨rfl, took, st⟩
  | cons a rest ih =>
    intro v
    have hrest : (w.without e.key).after (a :: rest) =
        ((w.without e.key).perform a).2.after rest := rfl
    rw [intakes] at few
    cases ha : w.asksFor e.key a with
    | true =>
      have hv : v = w.after (w.others e.key rest) := by simp only [v, others, if_pos ha]
      obtain ⟨_, acc⟩ := st.accounted
      rw [acc.idle_of_asksFor ha] at few
      rw [hv, hrest, acc.idle_of_asksFor ha]
      refine ih st ?_
      simp only [List.length_append] at few ⊢
      omega
    | false =>
      have hv : v = (w.perform a).2.after ((w.perform a).2.others e.key rest) := by
        simp only [v, others, ha]
        rfl
      rw [intake_without st.spares ha, perform_without st.spares ha, ← List.append_assoc] at few
      have now : (took ++ w.intake n a).length < UInt64.size := by
        rw [List.length_append] at few
        omega
      rw [hv, hrest, perform_without st.spares ha]
      exact ih (st.step ha now) few

/-- Two worlds with the same computation under a number. -/
structure Alike (w v : World σ) (number : Nat) : Prop where
  service : v.session.service = w.session.service
  same : v.session.computations[number]? = w.session.computations[number]?
  there : number < w.session.computations.size

theorem computations_pool (w : World σ) (host : Nat) (a : Pool.Action) :
    (w.perform (.pool host a)).2.session.computations = w.session.computations := by
  rcases w.idle_or_poolStep host a with ⟨hw, _⟩ | ⟨host, p, st⟩
  · rw [hw]
  · rw [st.perform]
    exact Session.computations_keep _ _ _

/-- An action that is about no computation under the number leaves what is there. -/
theorem computations_perform {a : Action} (ha : a.about ≠ some number)
    (hlt : number < w.session.computations.size) :
    (w.perform a).2.session.computations[number]? = w.session.computations[number]? := by
  cases a with
  | session a => exact (w.session.perform_step a).computations_apart ha hlt
  | pool host a => rw [computations_pool]

theorem size_computations_le (w : World σ) (a : Action) :
    w.session.computations.size ≤ (w.perform a).2.session.computations.size := by
  cases a with
  | session a => exact (w.session.perform_step a).size_computations_le
  | pool host a => exact Nat.le_of_eq (by rw [computations_pool])

theorem Alike.step {v : World σ} (al : Alike w v number) (a : Action) :
    (a.about = some number → (v.perform a).1 = (w.perform a).1) ∧
      Alike (w.perform a).2 (v.perform a).2 number := by
  have service : (v.perform a).2.session.service = (w.perform a).2.session.service := by
    rw [service_perform, service_perform, al.service]
  have there := Nat.lt_of_lt_of_le al.there (w.size_computations_le a)
  by_cases ha : a.about = some number
  · cases a with
    | session a =>
      obtain ⟨hr, hc⟩ := Session.perform_about ha al.service al.same
      exact ⟨fun _ => congrArg Reply.session hr, service, hc, there⟩
    | pool => cases ha
  · have hlt : number < v.session.computations.size := by
      rw [← Nat.not_le, ← Array.getElem?_eq_none_iff, al.same, Array.getElem?_eq_none_iff, Nat.not_le]
      exact al.there
    refine ⟨fun h => absurd h ha, service, ?_, there⟩
    rw [computations_perform ha hlt, computations_perform ha al.there, al.same]

theorem Alike.after {v : World σ} (al : Alike w v number) (actions : List Action) :
    Alike (w.after actions) (v.after actions) number := by
  induction actions generalizing w v with
  | nil => exact al
  | cons a rest ih => exact ih (al.step a).2

theorem entry_of_removed
    (removed : (w.perform (.session (.remove (.store n) h))).1 = .session (.flag true)) :
    ∃ k e, w.session.custody? (.store n) = some k ∧ e ∈ k.entries ∧ e.handle = h := by
  have hr : (w.session.perform (.remove (.store n) h)).1 = .flag true := Reply.session.inj removed
  cases hk : w.session.custody? (.store n) with
  | none => simp [Session.perform, Session.perform?, hk] at hr
  | some k =>
    cases hx : k.remove? h with
    | none => simp [Session.perform, Session.perform?, hk, hx] at hr
    | some x =>
      obtain ⟨b, l⟩ := x
      obtain rfl : b = true := by
        simpa [Session.perform, Session.perform?, hk, hx] using hr
      obtain ⟨s, hs, hb, _⟩ := Custody.remove?_eq_some hx
      obtain ⟨e, he⟩ := Option.isSome_iff_exists.mp hb.symm
      refine ⟨k, e, rfl, ?_, by simpa using List.find?_some he⟩
      rw [Custody.entries_eq hs]
      exact List.mem_of_find?_eq_some he

theorem stored_start (service : Service σ) (stores : Nat) (places : List Place) :
    stored (start service stores places).session.stores = [] := by
  simp [stored, start]

/-- Revocation is for good, and nobody else takes note of it, as long as the count of the store's handles
does not come round. The key that is revoked is the one that the handle has stood for all along. Neither
of them is of any use at the store again, whatever is done and stored later; and a world goes on without
the key as it would with it if nobody asked for it, with the same answer to everything else. A computation
that was begun before gives the same answers even to a run in which the key is still asked for, and
found; and so does one in a pool, as long as the generations of the pool's handles do not come round. -/
theorem revocation_complete (service : Service σ) (stores : Nat) (places : List Place)
    (actions : List Action) (n : Nat) (h : UInt64)
    (removed : (((start service stores places).after actions).perform
      (.session (.remove (.store n) h))).1 = .session (.flag true)) :
    let remove : Action := .session (.remove (.store n) h)
    let w := (start service stores places).after actions
    let v := (w.perform remove).2
    ∃ key, (∃ k, w.session.custody? (.store n) = some k ∧ (k.resolve h).1 = .ok key) ∧
      (((start service stores places).intakes n actions).length < UInt64.size →
        ∀ front back k other, actions = front ++ back →
          ((start service stores places).after front).session.custody? (.store n) = some k →
          (k.resolve h).1 = .ok other → other = key) ∧
      ∀ more,
        let x := v.after more
        let y := w.after (w.others key more)
        (((start service stores places).intakes n (actions ++ remove :: more)).length < UInt64.size →
          x.Revoked n h key ∧ x = y.without key ∧
          ∀ a, y.asksFor key a = false → (x.perform a).1 = (y.perform a).1) ∧
        (∀ a number c, w.session.computation? number = some c → a.about = some number →
          (x.perform a).1 = ((w.after more).perform a).1) ∧
        ∀ number host i c, w.hosts[number]? = some host → host.arena.find i = .here c →
          ((start service stores places).opens number (actions ++ more)).length < 2 ^ 32 →
          ((start service stores places).opens number (actions ++ remove :: more)).length < 2 ^ 32 →
          ∀ call, (x.perform (.pool number (.call i call))).1 =
            ((w.after more).perform (.pool number (.call i call))).1 := by
  intro remove w v
  have fresh := accounted_start service stores places
  have acc := fresh.after actions
  have nodup : (stored w.session.stores).Nodup :=
    fresh.nodup_after (by rw [stored_start]; exact List.nodup_nil) actions
  obtain ⟨k, e, hk, he, rfl⟩ := entry_of_removed removed
  have hv : v = w.without e.key := congrArg Prod.snd (acc.perform_remove nodup hk he)
  obtain ⟨k₀, hk₀⟩ : ∃ k₀, (start service stores places).session.custody? (.store n) = some k₀ := by
    obtain ⟨store, hstore, _⟩ := Option.map_eq_some_iff.mp hk
    obtain ⟨hlt, _⟩ := Array.getElem?_eq_some_iff.mp hstore
    exact exists_custody (fresh.size_after actions ▸ hlt)
  have register {front : List Action} {k' : Custody}
      (few : ((start service stores places).intakes n front).length < UInt64.size)
      (hk' : ((start service stores places).after front).session.custody? (.store n) = some k') :
      k'.Register ((start service stores places).intakes n front)
        ((start service stores places).withdrawals n front) := by
    have register := register_after front (by simpa using few) hk₀
      (register_start service stores places hk₀) hk'
    rwa [List.nil_append, List.nil_append] at register
  refine ⟨e.key, ⟨k, hk, ?_⟩, ?_, ?_⟩
  · rw [Custody.resolve_of_find? ((acc.tidy n k hk).find?_handle he)]
  · rintro few front back k' other rfl hk' hother
    obtain ⟨e', he', hh, rfl⟩ := Custody.entry_of_resolve hother
    have before := few
    rw [intakes_append, List.length_append] at before
    obtain ⟨x, hx, _, rfl⟩ := (register (by omega) hk').mem_entries.mp he'
    obtain ⟨y, hy, _, rfl⟩ := (register few hk).mem_entries.mp he
    have hx' : x ∈ (start service stores places).intakes n (front ++ back) := by
      rw [intakes_append]
      exact List.mem_append_left _ hx
    rw [(register few hk).handle_inj hx' hy hh]
  · intro more x y
    refine ⟨fun few => ?_, ?_, ?_⟩
    · rw [intakes_append, intakes] at few
      have now : ((start service stores places).intakes n actions).length < UInt64.size := by
        rw [List.length_append] at few
        omega
      have st : w.Stocks n e ((start service stores places).intakes n actions) :=
        ⟨⟨_, acc⟩, nodup, ⟨k, _, hk, register now hk, he⟩, now⟩
      obtain ⟨hx, took, sty⟩ := st.after_without more (by rw [← hv]; exact few)
      have hxy : x = y.without e.key := by
        rw [← hx, ← hv]
      refine ⟨?_, hxy, ?_⟩
      · rw [hxy]
        exact sty.revoked
      · intro a ha
        rw [hxy, perform_without sty.spares ha]
    · intro a number c hc hn
      have al : Alike w v number := by
        refine ⟨by rw [hv]; rfl, by rw [hv]; rfl, lt_size_of_computation? hc⟩
      exact ((al.after more).step a).1 hn
    · intro number host i c hhost hfind few few' call
      rw [opens_append] at few few'
      have before := (tracked_start service stores places number).after actions
        (Pool.few_of_append few)
      have al : AlikeAt w v number i := by
        refine ⟨by rw [hv]; rfl, w.size_stores_perform remove, host, host, hhost, ?_, rfl, rfl, ?_⟩
        · rw [hv]
          exact hhost
        · simp [hfind]
      have after : v.Tracked number ((start service stores places).opens number actions) := by
        rw [hv]
        exact before
      exact (al.after before after more few few').call call

/-- A key in hardware that two MACs use, one of them in a pool, is revoked, and its bytes are stored once
more. -/
theorem revocation_of_key_in_use :
    let library : Library Nat :=
      { name := "lengths", digest := fun _ _ => .ok 0, mac := fun _ _ key => .ok key.length,
        absorb := fun n data => .ok (n + data.length), output := fun n => .ok (Bytes.zeros (30 + n)) }
    let actions := [.session (.insert (.store 0) [1] true), .session (.insert (.store 0) [2] false),
      .session (.resolve (.store 0) 1), .session (.beginMac .hmacSha256 0 (.store 0) 0),
      .pool 0 (.openMac .hmacSha256 1 0)]
    let again : List Action := [.session (.insert (.store 0) [1] true)]
    let remove : Action := .session (.remove (.store 0) 1)
    let finish : Action := .session (.call 0 (.finalize 32))
    let close : Action := .pool 0 (.call ⟨0, 0⟩ (.finalize 32))
    let w := (start { library, policy := {} } 1 [.store 0]).after actions
    let x := (w.perform remove).2.after again
    (w.perform remove).1 = .session (.flag true) ∧
    x.perform (.session (.resolve (.store 0) 1)) = (.session (.fault .invalidKeyHandle), x) ∧
    x.perform (.session (.beginMac .hmacSha256 0 (.store 0) 0)) =
      (.session (.fault .invalidKeyHandle), x) ∧
    (x.perform finish).1 = ((w.after again).perform finish).1 ∧
    (x.perform close).1 = ((w.after again).perform close).1 ∧
    (x.perform (.session (.resolve (.store 0) 2))).1 =
      ((w.after again).perform (.session (.resolve (.store 0) 2))).1 := by
  intro library actions again remove finish close w x
  have complete := revocation_complete { library, policy := {} } 1 [.store 0] actions 0 1
  -- The names are unfolded: telling that two of them agree would run the world twice.
  dsimp only [library, actions, again, remove, finish, close, w, x] at complete ⊢
  obtain ⟨key, ⟨k, hk, hkey⟩, _, later⟩ := complete (by rfl)
  obtain rfl : key = ⟨0⟩ := by
    cases hk
    cases hkey
    rfl
  obtain ⟨complete, computations, pools⟩ := later [.session (.insert (.store 0) [1] true)]
  obtain ⟨revoked, _, others⟩ := complete (by decide +kernel)
  refine ⟨by rfl, revoked.resolve, ?_, ?_, ?_, ?_⟩
  · exact revoked.beginMac .hmacSha256 0 0 (by rfl)
  · exact computations (.session (.call 0 (.finalize 32))) 0 _ (by rfl) (by rfl)
  · exact pools 0 _ ⟨0, 0⟩ _ (by rfl) (by rfl) (by decide +kernel) (by decide +kernel) (.finalize 32)
  · exact others (.session (.resolve (.store 0) 2)) (by rfl)

end World

end StreamDigest
