import StreamDigest.Proofs.Account
import StreamDigest.Proofs.Update
import StreamDigest.Session

namespace StreamDigest

namespace Session

variable {σ : Type} {s t : Session σ} {k l : Custody} {key : Key} {site : Place} {number : Nat}
  {c : Computation σ} {new : List Key}

/-- The keys that the caller holds. -/
def callerKeys (s : Session σ) : List Key :=
  s.keys.toList.flatMap Option.toList

def boundBy (c : Option (Computation σ)) : List Key :=
  Binding.held (c.bind (·.binding))

/-- The keys that the computations hold on to. -/
def boundKeys (s : Session σ) : List Key :=
  s.computations.toList.flatMap boundBy

def holdings (s : Session σ) : List Key :=
  s.callerKeys ++ s.boundKeys

theorem mem_callerKeys : key ∈ s.callerKeys ↔ ∃ number, s.key? number = some key := by
  simp [callerKeys, key?, Array.mem_iff_getElem?, Option.join_eq_some_iff]

theorem mem_holdings (h : s.key? number = some key) : key ∈ s.holdings :=
  List.mem_append_left _ (mem_callerKeys.mpr ⟨number, h⟩)

theorem holdings_addKey (s : Session σ) (key : Key) :
    (s.addKey key).2.holdings.Perm (key :: s.holdings) := by
  have hk : (s.addKey key).2.callerKeys = s.callerKeys ++ [key] := by
    simp [addKey, callerKeys]
  rw [holdings, hk, List.append_assoc]
  exact List.perm_middle

theorem holdings_addComputation (s : Session σ) (begun : Except Fault (Computation σ)) :
    (s.addComputation begun).2.holdings.Perm (Service.heldBy begun ++ s.holdings) := by
  cases begun with
  | error e => exact .refl _
  | ok c =>
    have hb : (s.addComputation (.ok c)).2.boundKeys = s.boundKeys ++ Binding.held c.binding := by
      simp [addComputation, boundKeys, boundBy]
    have hk : (s.addComputation (.ok c)).2.callerKeys = s.callerKeys := rfl
    rw [holdings, hb, hk, ← List.append_assoc]
    exact List.perm_append_comm

theorem callerKeys_setKey (h : s.key? number = some key) :
    s.callerKeys.Perm
      (key :: { s with keys := s.keys.setIfInBounds number none }.callerKeys) := by
  have hx : s.keys[number]? = some (some key) := by
    simpa [key?, Option.join_eq_some_iff] using h
  obtain ⟨rest, hb, ha⟩ := exists_perm_array_set hx none
  exact (hb.flatMap_right Option.toList).trans ((ha.flatMap_right Option.toList).symm.cons key)

theorem holdings_setKey (h : s.key? number = some key) :
    s.holdings.Perm
      (key :: { s with keys := s.keys.setIfInBounds number none }.holdings) :=
  (callerKeys_setKey h).append_right s.boundKeys

theorem holdings_setComputation {x : Option (Computation σ)} (h : s.computations[number]? = some x)
    (y : Option (Computation σ)) :
    ∃ rest, s.holdings.Perm (boundBy x ++ rest) ∧
      { s with computations := s.computations.setIfInBounds number y }.holdings.Perm
        (boundBy y ++ rest) := by
  obtain ⟨rest, hb, ha⟩ := exists_perm_array_set h y
  have move (z : List Key) : (s.callerKeys ++ (z ++ rest.flatMap boundBy)).Perm
      (z ++ (s.callerKeys ++ rest.flatMap boundBy)) := by
    rw [← List.append_assoc, ← List.append_assoc]
    exact List.perm_append_comm.append_right _
  refine ⟨s.callerKeys ++ rest.flatMap boundBy, ?_, ?_⟩
  · exact ((hb.flatMap_right boundBy).append_left s.callerKeys).trans (move _)
  · exact ((ha.flatMap_right boundBy).append_left s.callerKeys).trans (move _)

@[simp]
theorem holdings_keep (s : Session σ) (site : Place) (k : Custody) :
    (s.keep site k).holdings = s.holdings := by
  unfold keep
  split <;> rfl

theorem vault_keep (s : Session σ) (site : Place) (k : Custody) :
    (s.keep site k).vault = k.vault := by
  unfold keep
  split <;> rfl

/-- Nothing becomes of a session whose keys stay as they are. -/
theorem keep_self (hk : s.custody? site = some k) : s.keep site k = s := by
  cases site with
  | direct =>
    cases hk
    rfl
  | store n =>
    obtain ⟨store, hs, rfl⟩ := Option.map_eq_some_iff.mp hk
    simp only [keep, setIfInBounds_self hs]

@[simp]
theorem size_stores_keep (s : Session σ) (site : Place) (k : Custody) :
    (s.keep site k).stores.size = s.stores.size := by
  unfold keep
  split
  · exact Array.size_setIfInBounds
  · rfl

/-- Where an action takes its keys from. -/
def Action.place : Action → Place
  | .insert place .. | .remove place _ | .resolve place _ | .copyForSigning place _
  | .isLive place _ | .outstanding place | .beginMac _ _ place _ | .beginMacFromHandle _ _ place _
  | .mac _ _ place .. => place
  | _ => .direct

/-- The signing copy that an action asks for and gets. -/
def copyMade (s : Session σ) : Action → Option Key
  | .copyForSigning place number => do
    ((← s.custody? place).copyForSigning (← s.key? number)).1
  | .beginMac a number place n | .mac a number place _ n => do
    (s.service.on n).copyMade a (← s.key? number) (← s.custody? place)
  | .beginMacFromHandle a handle place n => do
    (s.service.on n).copyMadeFromHandle a handle (← s.custody? place)
  | _ => none

theorem perform?_beginMac (hn : s.key? number = some key) (hk : s.custody? site = some k)
    (a : Algorithm) (n : Nat) : s.perform? (.beginMac a number site n) =
      some ((s.keep site ((s.service.on n).beginMac a key k).2).addComputation
        ((s.service.on n).beginMac a key k).1) := by
  simp [perform?, hn, hk]

theorem copyMade_beginMac (hn : s.key? number = some key) (hk : s.custody? site = some k)
    (a : Algorithm) (n : Nat) : s.copyMade (.beginMac a number site n) =
      (s.service.on n).copyMade a key k := by
  simp [copyMade, hn, hk]

theorem perform?_beginMacFromHandle (hk : s.custody? site = some k) (a : Algorithm)
    (handle : UInt64) (n : Nat) : s.perform? (.beginMacFromHandle a handle site n) =
      some ((s.keep site ((s.service.on n).beginMacFromHandle a handle k).2).addComputation
        ((s.service.on n).beginMacFromHandle a handle k).1) := by
  simp [perform?, hk]

theorem copyMade_beginMacFromHandle (hk : s.custody? site = some k) (a : Algorithm)
    (handle : UInt64) (n : Nat) : s.copyMade (.beginMacFromHandle a handle site n) =
      (s.service.on n).copyMadeFromHandle a handle k := by
  simp [copyMade, hk]

theorem perform?_call (hc : s.computation? number = some c) (call : Call) :
    s.perform? (.call number call) =
      some (.result ((c.perform call).run s.service.library).1,
        s.replace number c ((c.perform call).run s.service.library).2) := by
  simp [perform?, hc]

theorem perform?_feedPieces (hc : s.computation? number = some c) (data : Bytes) (size : Nat) :
    s.perform? (.feedPieces number data size) =
      some (.result (.status (c.feedAll s.service.library (data.pieces size)).1),
        s.replace number c (c.feedAll s.service.library (data.pieces size)).2) := by
  simp [perform?, hc]

theorem perform?_drop (hc : s.computation? number = some c) :
    s.perform? (.drop number) = some (.done, { s with
      vault := s.vault.settle c.binding c.retire.binding
      computations := s.computations.setIfInBounds number none }) := by
  simp [perform?, hc, replace]

/-- A step on the keys at a place, with what it means for the books of their source. -/
structure Moves (s t : Session σ) (site : Place) (k l : Custody) (new : List Key) : Prop where
  custody : s.custody? site = some k
  vault : t.vault = l.vault
  stores : t.stores = (s.keep site l).stores
  turn : ∀ handed elsewhere, k.Account handed (elsewhere ++ s.holdings) →
    Custody.Turn k l handed new (elsewhere ++ t.holdings)

/-- The keys of a session for a step that needs no store. -/
def direct (s : Session σ) : Custody where
  vault := s.vault
  source := .direct

theorem moves_direct {w : Vault} (hv : t.vault = w) (hs : t.stores = s.stores)
    (ht : ∀ handed elsewhere, s.direct.Account handed (elsewhere ++ s.holdings) →
      Custody.Turn s.direct { s.direct with vault := w } handed [] (elsewhere ++ t.holdings)) :
    Moves s t .direct s.direct { s.direct with vault := w } [] :=
  ⟨rfl, hv, hs, ht⟩

theorem moves_addKey {w : Vault} (h : ∀ handed elsewhere,
      s.direct.Account handed (elsewhere ++ s.holdings) →
      Custody.Turn s.direct { s.direct with vault := w } handed []
        (key :: (elsewhere ++ s.holdings))) :
    Moves s (({ s with vault := w } : Session σ).addKey key).2 .direct s.direct
      { s.direct with vault := w } [] := by
  refine moves_direct rfl rfl ?_
  intro handed elsewhere ha
  have hp : (({ s with vault := w } : Session σ).addKey key).2.holdings.Perm ([key] ++ s.holdings) :=
    holdings_addKey _ key
  exact (h handed _ ha).perm (perm_out hp).symm

/-- A computation is replaced by what has become of it, which may have let go of its key. -/
theorem moves_replace {after : Computation σ} {y : Option (Computation σ)}
    (hc : s.computation? number = some c)
    (hb : after.binding = c.binding ∨ after.binding = none)
    (hy : boundBy y = Binding.held after.binding) :
    Moves s { s with
        vault := s.vault.settle c.binding after.binding
        computations := s.computations.setIfInBounds number y }
      .direct s.direct { s.direct with vault := s.vault.settle c.binding after.binding } [] := by
  refine moves_direct rfl rfl ?_
  intro handed elsewhere ha
  have hx : s.computations[number]? = some (some c) := by
    simpa [computation?, Option.join_eq_some_iff] using hc
  obtain ⟨rest, hbefore, hafter⟩ := holdings_setComputation hx y
  rw [hy] at hafter
  have t := (ha.perm (perm_out hbefore)).settle hb
  exact t.perm (perm_out hafter).symm

theorem moves_keep {x : List Key} (hk : s.custody? site = some k)
    (hv : t.vault = l.vault) (hs : t.stores = (s.keep site l).stores)
    (hp : t.holdings.Perm (x ++ s.holdings))
    (ht : ∀ handed elsewhere, k.Account handed (elsewhere ++ s.holdings) →
      Custody.Turn k l handed new (x ++ (elsewhere ++ s.holdings))) : Moves s t site k l new :=
  ⟨hk, hv, hs, fun handed elsewhere ha => (ht handed elsewhere ha).perm (perm_out hp).symm⟩

/-- The caller gets a key. -/
theorem moves_keep_addKey (hk : s.custody? site = some k)
    (ht : ∀ handed elsewhere, k.Account handed elsewhere →
      Custody.Turn k l handed new (key :: elsewhere)) :
    Moves s ((s.keep site l).addKey key).2 site k l new := by
  have hp : ((s.keep site l).addKey key).2.holdings.Perm ([key] ++ s.holdings) := by
    rw [← s.holdings_keep site l]
    exact holdings_addKey _ key
  exact moves_keep hk (vault_keep ..) rfl hp fun handed elsewhere ha => ht handed _ ha

theorem moves_keep_self (hk : s.custody? site = some k)
    (ht : ∀ handed elsewhere, k.Account handed (elsewhere ++ s.holdings) →
      Custody.Turn k l handed new (elsewhere ++ s.holdings)) :
    Moves s (s.keep site l) site k l new := by
  have hp : (s.keep site l).holdings.Perm ([] ++ s.holdings) := by
    rw [holdings_keep]
    exact .refl _
  exact moves_keep hk (vault_keep ..) rfl hp ht

/-- What an action does to the books: nothing at all, or one step on the keys at its place. -/
def Bookable (s : Session σ) (a : Action) : Prop :=
  ((s.perform a).2 = s ∧ s.copyMade a = none) ∨
    ∃ k l, Moves s (s.perform a).2 a.place k l (k.issued (s.copyMade a))

variable {a : Action} {r : Reply}

theorem bookable_absent (h : s.perform? a = none) (hn : s.copyMade a = none) : s.Bookable a :=
  .inl ⟨by rw [perform, h]; rfl, hn⟩

theorem bookable_same (h : s.perform? a = some (r, s)) (hn : s.copyMade a = none) :
    s.Bookable a :=
  .inl ⟨by rw [perform, h]; rfl, hn⟩

theorem bookable_quiet (h : s.perform? a = some (r, t)) (hn : s.copyMade a = none)
    (hm : Moves s t a.place k l []) : s.Bookable a := by
  have ht : (s.perform a).2 = t := by
    rw [perform, h]
    rfl
  refine .inr ⟨k, l, ?_⟩
  rw [ht, hn, Custody.issued_none]
  exact hm

theorem bookable_made {copy : Option Key} (h : s.perform? a = some (r, t))
    (hc : s.copyMade a = copy) (hm : Moves s t a.place k l (k.issued copy)) : s.Bookable a := by
  have ht : (s.perform a).2 = t := by
    rw [perform, h]
    rfl
  refine .inr ⟨k, l, ?_⟩
  rw [ht, hc]
  exact hm

theorem bookable_cloneKey (s : Session σ) (number : Nat) : s.Bookable (.cloneKey number) := by
  cases hk : s.key? number with
  | none => exact bookable_absent (by simp [perform?, hk]) rfl
  | some key =>
    have hp : s.perform? (.cloneKey number) =
        some (({ s with vault := s.vault.retain key } : Session σ).addKey key) := by
      simp [perform?, hk]
    refine bookable_quiet hp rfl (moves_addKey fun handed elsewhere ha => ha.retain ?_)
    exact List.mem_append_right _ (List.mem_append_right _ (mem_holdings hk))

theorem bookable_signingCopy (s : Session σ) (number : Nat) :
    s.Bookable (.signingCopy number) := by
  cases hk : s.key? number with
  | none => exact bookable_absent (by simp [perform?, hk]) rfl
  | some key =>
    have hp : s.perform? (.signingCopy number) =
        some (({ s with vault := (s.vault.signingCopy key).2 } : Session σ).addKey
          (s.vault.signingCopy key).1) := by
      simp [perform?, hk]
    exact bookable_quiet hp rfl (moves_addKey fun handed elsewhere ha => ha.deposit _ _)

theorem bookable_dropKey (s : Session σ) (number : Nat) : s.Bookable (.dropKey number) := by
  cases hk : s.key? number with
  | none => exact bookable_absent (by simp [perform?, hk]) rfl
  | some key =>
    have hp : s.perform? (.dropKey number) = some (.done, { s with
        vault := s.vault.release key
        keys := s.keys.setIfInBounds number none }) := by
      simp [perform?, hk]
    refine bookable_quiet hp rfl (moves_direct rfl rfl ?_)
    intro handed elsewhere ha
    have hheld : s.holdings.Perm ([key] ++ _) := holdings_setKey hk
    exact (ha.perm (perm_out hheld)).release

theorem bookable_insert (s : Session σ) (place : Place) (bytes : Bytes) (hardware : Bool) :
    s.Bookable (.insert place bytes hardware) := by
  cases hk : s.custody? place with
  | none => exact bookable_absent (by simp [perform?, hk]) rfl
  | some k =>
    cases hi : k.insert? bytes hardware with
    | none => exact bookable_absent (by simp [perform?, hk, hi]) rfl
    | some r =>
      have hp : s.perform? (.insert place bytes hardware) =
          some (.handle r.1, s.keep place r.2) := by
        simp [perform?, hk, hi]
      exact bookable_quiet hp rfl (moves_keep_self hk fun _ _ ha => ha.insert hi)

theorem bookable_remove (s : Session σ) (place : Place) (handle : UInt64) :
    s.Bookable (.remove place handle) := by
  cases hk : s.custody? place with
  | none => exact bookable_absent (by simp [perform?, hk]) rfl
  | some k =>
    cases hr : k.remove? handle with
    | none => exact bookable_absent (by simp [perform?, hk, hr]) rfl
    | some r =>
      have hp : s.perform? (.remove place handle) = some (.flag r.1, s.keep place r.2) := by
        simp [perform?, hk, hr]
      exact bookable_quiet hp rfl (moves_keep_self hk fun _ _ ha => ha.remove hr)

theorem bookable_outstanding (s : Session σ) (place : Place) : s.Bookable (.outstanding place) := by
  cases hk : s.custody? place with
  | none => exact bookable_absent (by simp [perform?, hk]) rfl
  | some k =>
    cases ho : k.outstanding? with
    | none => exact bookable_absent (by simp [perform?, hk, ho]) rfl
    | some r =>
      have hp : s.perform? (.outstanding place) = some (.count r.1, s.keep place r.2) := by
        simp [perform?, hk, ho]
      exact bookable_quiet hp rfl (moves_keep_self hk fun _ _ ha => ha.outstanding ho)

theorem bookable_resolve (s : Session σ) (place : Place) (handle : UInt64) :
    s.Bookable (.resolve place handle) := by
  cases hk : s.custody? place with
  | none => exact bookable_absent (by simp [perform?, hk]) rfl
  | some k =>
    rcases hr : k.resolve handle with ⟨e | key, l⟩
    · have hp : s.perform? (.resolve place handle) = some (.fault e, s.keep place l) := by
        simp [perform?, hk, hr]
      refine bookable_quiet hp rfl (moves_keep_self hk fun _ _ ha => ?_)
      rw [Custody.resolve_error hr]
      exact ha.stay
    · have hp : s.perform? (.resolve place handle) = some ((s.keep place l).addKey key) := by
        simp [perform?, hk, hr]
      exact bookable_quiet hp rfl (moves_keep_addKey hk fun _ _ ha => ha.resolve hr)

theorem bookable_copyForSigning (s : Session σ) (place : Place) (number : Nat) :
    s.Bookable (.copyForSigning place number) := by
  cases hk : s.custody? place with
  | none => exact bookable_absent (by simp [perform?, hk]) (by simp [copyMade, hk])
  | some k =>
    cases hn : s.key? number with
    | none => exact bookable_absent (by simp [perform?, hk, hn]) (by simp [copyMade, hk, hn])
    | some key =>
      have hmade : s.copyMade (.copyForSigning place number) = (k.copyForSigning key).1 := by
        simp [copyMade, hk, hn]
      rcases hc : k.copyForSigning key with ⟨_ | copy, l⟩
      · have hp : s.perform? (.copyForSigning place number) = some (.noKey, s.keep place l) := by
          simp [perform?, hk, hn, hc]
        rw [hc] at hmade
        refine bookable_made hp hmade (moves_keep_self hk ?_)
        intro handed elsewhere ha
        have t := ha.copyForSigning key
        rw [hc] at t
        exact t
      · have hp : s.perform? (.copyForSigning place number) =
            some ((s.keep place l).addKey copy) := by
          simp [perform?, hk, hn, hc]
        rw [hc] at hmade
        refine bookable_made hp hmade (moves_keep_addKey hk ?_)
        intro handed elsewhere ha
        have t := ha.copyForSigning key
        rw [hc] at t
        exact t

/-- A computation that may have got hold of a key. -/
theorem moves_keep_addComputation {begun : Except Fault (Computation σ)}
    (hk : s.custody? site = some k)
    (ht : ∀ handed elsewhere, k.Account handed (elsewhere ++ s.holdings) →
      Custody.Turn k l handed new (Service.heldBy begun ++ (elsewhere ++ s.holdings))) :
    Moves s ((s.keep site l).addComputation begun).2 site k l new := by
  have hp : ((s.keep site l).addComputation begun).2.holdings.Perm
      (Service.heldBy begun ++ s.holdings) := by
    rw [← s.holdings_keep site l]
    exact holdings_addComputation _ begun
  have hs : ((s.keep site l).addComputation begun).2.stores = (s.keep site l).stores := by
    cases begun <;> rfl
  have hv : ((s.keep site l).addComputation begun).2.vault = l.vault := by
    cases begun <;> exact vault_keep ..
  exact moves_keep hk hv hs hp ht

theorem bookable_beginMac (s : Session σ) (a : Algorithm) (number : Nat) (place : Place)
    (n : Nat) : s.Bookable (.beginMac a number place n) := by
  cases hn : s.key? number with
  | none => exact bookable_absent (by simp [perform?, hn]) (by simp [copyMade, hn])
  | some key =>
    cases hk : s.custody? place with
    | none => exact bookable_absent (by simp [perform?, hk, hn]) (by simp [copyMade, hk, hn])
    | some k =>
      refine bookable_made (perform?_beginMac hn hk a n) (copyMade_beginMac hn hk a n)
        (moves_keep_addComputation hk ?_)
      intro handed elsewhere ha
      have hm : key ∈ k.keys ++ (elsewhere ++ s.holdings) :=
        List.mem_append_right _ (List.mem_append_right _ (mem_holdings hn))
      exact (s.service.on n).beginMac_turn a ha hm

theorem bookable_beginMacFromHandle (s : Session σ) (a : Algorithm) (handle : UInt64)
    (place : Place) (n : Nat) : s.Bookable (.beginMacFromHandle a handle place n) := by
  cases hk : s.custody? place with
  | none => exact bookable_absent (by simp [perform?, hk]) (by simp [copyMade, hk])
  | some k =>
    refine bookable_made (perform?_beginMacFromHandle hk a handle n)
      (copyMade_beginMacFromHandle hk a handle n) (moves_keep_addComputation hk ?_)
    exact fun handed elsewhere ha => (s.service.on n).beginMacFromHandle_turn a handle ha

theorem bookable_mac (s : Session σ) (a : Algorithm) (number : Nat) (place : Place)
    (data : Bytes) (n : Nat) : s.Bookable (.mac a number place data n) := by
  cases hn : s.key? number with
  | none => exact bookable_absent (by simp [perform?, hn]) (by simp [copyMade, hn])
  | some key =>
    cases hk : s.custody? place with
    | none => exact bookable_absent (by simp [perform?, hk, hn]) (by simp [copyMade, hk, hn])
    | some k =>
      have hp : s.perform? (.mac a number place data n) =
          some (ofOutput ((s.service.on n).mac a key data k).1,
            s.keep place ((s.service.on n).mac a key data k).2) := by
        simp [perform?, hk, hn]
      refine bookable_made hp (by simp [copyMade, hk, hn]; rfl) (moves_keep_self hk ?_)
      intro handed elsewhere ha
      have hm : key ∈ k.keys ++ (elsewhere ++ s.holdings) :=
        List.mem_append_right _ (List.mem_append_right _ (mem_holdings hn))
      exact (s.service.on n).mac_turn a data ha hm

theorem bookable_call (s : Session σ) (number : Nat) (call : Call) :
    s.Bookable (.call number call) := by
  cases hc : s.computation? number with
  | none => exact bookable_absent (by simp [perform?, hc]) rfl
  | some c =>
    have hb := Computation.binding_perform s.service.library c call
    exact bookable_quiet (perform?_call hc call) rfl (moves_replace hc hb rfl)

theorem bookable_feedPieces (s : Session σ) (number : Nat) (data : Bytes) (size : Nat) :
    s.Bookable (.feedPieces number data size) := by
  cases hc : s.computation? number with
  | none => exact bookable_absent (by simp [perform?, hc]) rfl
  | some c =>
    have hb := c.binding_feedAll s.service.library (data.pieces size)
    exact bookable_quiet (perform?_feedPieces hc data size) rfl (moves_replace hc hb rfl)

theorem bookable_drop (s : Session σ) (number : Nat) : s.Bookable (.drop number) := by
  cases hc : s.computation? number with
  | none => exact bookable_absent (by simp [perform?, hc]) rfl
  | some c => exact bookable_quiet (perform?_drop hc) rfl (moves_replace hc (.inr rfl) rfl)

/-- A computation that holds on to no key. -/
theorem bookable_keyless {begun : Except Fault (Computation σ)}
    (hp : s.perform? a = some (s.addComputation begun)) (hn : s.copyMade a = none)
    (hd : a.place = .direct) (hb : ∀ c, begun = .ok c → c.binding = none) : s.Bookable a := by
  cases begun with
  | error e => exact bookable_same hp hn
  | ok c =>
    have hheld : (s.addComputation (.ok c)).2.holdings.Perm ([] ++ s.holdings) := by
      have h := holdings_addComputation s (.ok c)
      rwa [Service.heldBy, hb c rfl] at h
    have hm : Moves s (s.addComputation (.ok c)).2 .direct s.direct s.direct [] :=
      moves_direct rfl rfl fun handed elsewhere ha => ha.stay.perm (perm_out hheld).symm
    rw [← hd] at hm
    exact bookable_quiet hp hn hm

/-- An action that only reads. -/
theorem bookable_read (h : ∀ r t, s.perform? a = some (r, t) → s = t)
    (hn : s.copyMade a = none) : s.Bookable a := by
  cases hp : s.perform? a with
  | none => exact bookable_absent hp hn
  | some x =>
    obtain ⟨r, t⟩ := x
    cases h r t hp
    exact bookable_same hp hn

theorem bookable (s : Session σ) (a : Action) : s.Bookable a := by
  cases a with
  | key bytes usage =>
    exact bookable_quiet rfl rfl (moves_addKey fun handed elsewhere ha => ha.deposit bytes usage)
  | cloneKey number => exact s.bookable_cloneKey number
  | signingCopy number => exact s.bookable_signingCopy number
  | dropKey number => exact s.bookable_dropKey number
  | inspectKey number => exact bookable_read (by simp [perform?, Option.bind_eq_some_iff]) rfl
  | sameMaterial number other =>
    exact bookable_read (by simp [perform?, Option.bind_eq_some_iff]) rfl
  | insert place bytes hardware => exact s.bookable_insert place bytes hardware
  | remove place handle => exact s.bookable_remove place handle
  | resolve place handle => exact s.bookable_resolve place handle
  | copyForSigning place number => exact s.bookable_copyForSigning place number
  | isLive place number => exact bookable_read (by simp [perform?, Option.bind_eq_some_iff]) rfl
  | outstanding place => exact s.bookable_outstanding place
  | beginDigest a n => exact bookable_keyless rfl rfl rfl fun _ => Service.binding_beginDigest
  | beginDigestNamed name n =>
    exact bookable_keyless rfl rfl rfl fun _ => Service.binding_beginDigestNamed
  | beginMac a number place n => exact s.bookable_beginMac a number place n
  | beginMacFromHandle a handle place n => exact s.bookable_beginMacFromHandle a handle place n
  | digest a data n => exact bookable_same rfl rfl
  | mac a number place data n => exact s.bookable_mac a number place data n
  | inspect number => exact bookable_read (by simp [perform?, Option.bind_eq_some_iff]) rfl
  | call number call => exact s.bookable_call number call
  | feedPieces number data size => exact s.bookable_feedPieces number data size
  | drop number => exact s.bookable_drop number

end Session

end StreamDigest
