import StreamDigest.Proofs.Session

namespace StreamDigest

namespace Custody

variable {k l : Custody} {n : UInt64}

theorem Kept.kind (h : k.Kept l) : l.source = .direct ↔ k.source = .direct := by
  rw [← stock_eq_none_iff, ← stock_eq_none_iff, h.stock]

theorem Kept.keys (h : k.Kept l) : l.keys = k.keys := by
  rw [Custody.keys, Custody.keys, h.entries]

theorem keys_of_insert? {b : Bytes} {hardware : Bool} (h : k.insert? b hardware = some (n, l)) :
    (l.source = .direct ↔ k.source = .direct) ∧
      ∀ key ∈ l.keys, key ∈ k.keys ∨ ¬k.vault.Holds key := by
  obtain ⟨s, hs, _, hl, _⟩ := insert?_eq_some h
  refine ⟨by simp [← stock_eq_none_iff, hs, hl], ?_⟩
  intro key hm
  rw [keys, entries_eq hl, List.map_cons, List.mem_cons] at hm
  rcases hm with rfl | hm
  · exact .inr (k.vault.not_holds_deposit b .any)
  · rw [keys, entries_eq hs]
    exact .inl ((List.filter_sublist.map Entry.key).subset hm)

theorem keys_of_remove? {b : Bool} (h : k.remove? n = some (b, l)) :
    (l.source = .direct ↔ k.source = .direct) ∧ ∀ key ∈ l.keys, key ∈ k.keys := by
  obtain ⟨s, hs, _, hl, _⟩ := remove?_eq_some h
  refine ⟨by simp [← stock_eq_none_iff, hs, hl], ?_⟩
  intro key hm
  rw [keys, entries_eq hl] at hm
  rw [keys, entries_eq hs]
  exact (List.filter_sublist.map Entry.key).subset hm

end Custody

theorem Service.kept_mac {σ : Type} (s : Service σ) (a : Algorithm) (key : Key) (data : Bytes)
    (k : Custody) : k.Kept (s.mac a key data k).2 := by
  have kept := s.kept_beginMac a key k
  unfold mac
  rcases hb : s.beginMac a key k with ⟨e | c, l⟩
  · rw [hb] at kept
    exact kept
  · rw [hb] at kept
    exact kept.trans (Custody.kept_settle _ _ _)

namespace Session

variable {σ : Type}

/-- The actions that begin computations or go on with them, or do all of that in one go. -/
def Action.ofEngine : Action → Bool
  | .beginDigest .. | .beginDigestNamed .. | .beginMac .. | .beginMacFromHandle .. | .digest ..
  | .mac .. | .inspect _ | .call .. | .feedPieces .. | .drop _ => true
  | _ => false

/-- The actions that are to begin a computation. -/
def Action.begins : Action → Bool
  | .beginDigest .. | .beginDigestNamed .. | .beginMac .. | .beginMacFromHandle .. => true
  | _ => false

/-- The computation that an action is about. -/
def Action.about : Action → Option Nat
  | .inspect number | .call number _ | .feedPieces number .. | .drop number => some number
  | _ => none

/-- Whether an action brings a key into a store or takes one away. -/
def Action.stocks : Action → Bool
  | .insert .. | .remove .. => true
  | _ => false

/-- How an action begins a computation with the keys of a source. -/
inductive Begins (s : Session σ) (k : Custody) : Action → Computation σ → Prop
  | digest {a algorithm n c} (h : (s.service.on n).beginDigest algorithm = .ok c) : Begins s k a c
  | mac {algorithm number place n key c l} (hn : s.key? number = some key)
      (h : (s.service.on n).beginMac algorithm key k = (.ok c, l)) :
      Begins s k (.beginMac algorithm number place n) c
  | macFromHandle {algorithm handle place n c l}
      (h : (s.service.on n).beginMacFromHandle algorithm handle k = (.ok c, l)) :
      Begins s k (.beginMacFromHandle algorithm handle place n) c

/-- All that an action can do. -/
inductive Step (s : Session σ) : Action → Reply → Session σ → Prop
  | absent {a} : Step s a .absent s
  | read {a r} (hr : ∀ number, r ≠ .computation number) : Step s a r s
  | kept {a r site k l} (hk : s.custody? site = some k) (kept : k.Kept l)
      (hr : ∀ number, r ≠ .computation number) : Step s a r (s.keep site l)
  | gained {a site k l key} (ha : a.ofEngine = false) (hk : s.custody? site = some k)
      (kept : k.Kept l) (known : key ∈ s.callerKeys ∨ key ∈ k.keys ∨ ¬k.vault.Holds key) :
      Step s a ((s.keep site l).addKey key).1 ((s.keep site l).addKey key).2
  | gave {number key} (hn : s.key? number = some key) : Step s (.dropKey number) .done { s with
      vault := s.vault.release key
      keys := s.keys.setIfInBounds number none }
  | stocked {a r site k l} (ha : a.stocks = true) (hk : s.custody? site = some k)
      (kind : l.source = .direct ↔ k.source = .direct)
      (known : ∀ key ∈ l.keys, key ∈ k.keys ∨ ¬k.vault.Holds key)
      (hr : ∀ f, r ≠ .fault f) (hn : ∀ number, r ≠ .computation number) : Step s a r (s.keep site l)
  | begun {a k l begun} (ha : a.begins = true) (hk : s.custody? a.place = some k) (kept : k.Kept l)
      (hb : ∀ c, begun = .ok c → s.Begins k a c) :
      Step s a ((s.keep a.place l).addComputation begun).1
        ((s.keep a.place l).addComputation begun).2
  | went {a r number c after calls} (hn : a.about = some number)
      (hc : s.computation? number = some c) (ha : after = c.after s.service.library calls) :
      Step s a (.result r) (s.replace number c after)
  | dropped {number c} (hc : s.computation? number = some c) : Step s (.drop number) .done { s with
      vault := s.vault.settle c.binding c.retire.binding
      computations := s.computations.setIfInBounds number none }

theorem ofOutput_ne_computation (x : Except Fault Bytes) (number : Nat) :
    ofOutput x ≠ .computation number := by
  cases x <;> simp [ofOutput]

variable {s t : Session σ} {a : Action} {r : Reply} {site : Place} {k l : Custody} {key : Key}
  {number : Nat}

theorem custody?_direct (s : Session σ) : s.custody? .direct = some s.direct := rfl

theorem step_of_none (h : s.perform? a = none) : Step s a (s.perform a).1 (s.perform a).2 := by
  rw [perform, h]
  exact .absent

theorem step_of_some {x : Reply × Session σ} (h : s.perform? a = some x) (st : Step s a x.1 x.2) :
    Step s a (s.perform a).1 (s.perform a).2 := by
  rw [perform, h]
  exact st

/-- An action that only reads. -/
theorem step_of_read (h : ∀ r t, s.perform? a = some (r, t) →
    s = t ∧ ∀ number, r ≠ .computation number) : Step s a (s.perform a).1 (s.perform a).2 := by
  cases hp : s.perform? a with
  | none => exact step_of_none hp
  | some x =>
    obtain ⟨r, t⟩ := x
    obtain ⟨rfl, hr⟩ := h r t hp
    exact step_of_some hp (.read hr)

theorem step_key (s : Session σ) (bytes : Bytes) (usage : Usage) :
    Step s (.key bytes usage) (s.perform (.key bytes usage)).1 (s.perform (.key bytes usage)).2 := by
  have kept : s.direct.Kept { s.direct with vault := (s.vault.deposit bytes usage).2 } :=
    ⟨s.vault.kept_deposit bytes usage, rfl⟩
  exact .gained rfl s.custody?_direct kept (.inr (.inr (s.vault.not_holds_deposit bytes usage)))

theorem step_cloneKey (s : Session σ) (number : Nat) :
    Step s (.cloneKey number) (s.perform (.cloneKey number)).1 (s.perform (.cloneKey number)).2 := by
  cases hk : s.key? number with
  | none => exact step_of_none (by simp [perform?, hk])
  | some key =>
    have hp : s.perform? (.cloneKey number) =
        some (({ s with vault := s.vault.retain key } : Session σ).addKey key) := by
      simp [perform?, hk]
    exact step_of_some hp
      (.gained rfl s.custody?_direct (s.direct.kept_retain key) (.inl (mem_callerKeys.mpr ⟨number, hk⟩)))

theorem step_signingCopy (s : Session σ) (number : Nat) :
    Step s (.signingCopy number) (s.perform (.signingCopy number)).1
      (s.perform (.signingCopy number)).2 := by
  cases hk : s.key? number with
  | none => exact step_of_none (by simp [perform?, hk])
  | some key =>
    have hp : s.perform? (.signingCopy number) =
        some (({ s with vault := (s.vault.signingCopy key).2 } : Session σ).addKey
          (s.vault.signingCopy key).1) := by
      simp [perform?, hk]
    have kept : s.direct.Kept { s.direct with vault := (s.vault.signingCopy key).2 } :=
      ⟨s.vault.kept_deposit _ _, rfl⟩
    exact step_of_some hp (.gained rfl s.custody?_direct kept
      (.inr (.inr (s.vault.not_holds_deposit _ _))))

theorem step_dropKey (s : Session σ) (number : Nat) :
    Step s (.dropKey number) (s.perform (.dropKey number)).1 (s.perform (.dropKey number)).2 := by
  cases hk : s.key? number with
  | none => exact step_of_none (by simp [perform?, hk])
  | some key =>
    have hp : s.perform? (.dropKey number) = some (.done, { s with
        vault := s.vault.release key
        keys := s.keys.setIfInBounds number none }) := by
      simp [perform?, hk]
    exact step_of_some hp (.gave hk)

theorem step_insert (s : Session σ) (place : Place) (bytes : Bytes) (hardware : Bool) :
    Step s (.insert place bytes hardware) (s.perform (.insert place bytes hardware)).1
      (s.perform (.insert place bytes hardware)).2 := by
  cases hk : s.custody? place with
  | none => exact step_of_none (by simp [perform?, hk])
  | some k =>
    cases hi : k.insert? bytes hardware with
    | none => exact step_of_none (by simp [perform?, hk, hi])
    | some x =>
      have hp : s.perform? (.insert place bytes hardware) =
          some (.handle x.1, s.keep place x.2) := by
        simp [perform?, hk, hi]
      obtain ⟨kind, known⟩ := Custody.keys_of_insert? hi
      exact step_of_some hp (.stocked rfl hk kind known (by simp) (by simp))

theorem step_remove (s : Session σ) (place : Place) (handle : UInt64) :
    Step s (.remove place handle) (s.perform (.remove place handle)).1
      (s.perform (.remove place handle)).2 := by
  cases hk : s.custody? place with
  | none => exact step_of_none (by simp [perform?, hk])
  | some k =>
    cases hr : k.remove? handle with
    | none => exact step_of_none (by simp [perform?, hk, hr])
    | some x =>
      have hp : s.perform? (.remove place handle) = some (.flag x.1, s.keep place x.2) := by
        simp [perform?, hk, hr]
      obtain ⟨kind, known⟩ := Custody.keys_of_remove? hr
      exact step_of_some hp (.stocked rfl hk kind (fun key hm => .inl (known key hm)) (by simp) (by simp))

theorem step_outstanding (s : Session σ) (place : Place) :
    Step s (.outstanding place) (s.perform (.outstanding place)).1
      (s.perform (.outstanding place)).2 := by
  cases hk : s.custody? place with
  | none => exact step_of_none (by simp [perform?, hk])
  | some k =>
    cases ho : k.outstanding? with
    | none => exact step_of_none (by simp [perform?, hk, ho])
    | some x =>
      have hp : s.perform? (.outstanding place) = some (.count x.1, s.keep place x.2) := by
        simp [perform?, hk, ho]
      exact step_of_some hp (.kept hk (Custody.kept_outstanding ho) (by simp))

theorem step_resolve (s : Session σ) (place : Place) (handle : UInt64) :
    Step s (.resolve place handle) (s.perform (.resolve place handle)).1
      (s.perform (.resolve place handle)).2 := by
  cases hk : s.custody? place with
  | none => exact step_of_none (by simp [perform?, hk])
  | some k =>
    have kept := k.kept_resolve handle
    rcases hr : k.resolve handle with ⟨e | key, l⟩
    · have hp : s.perform? (.resolve place handle) = some (.fault e, s.keep place l) := by
        simp [perform?, hk, hr]
      rw [hr] at kept
      exact step_of_some hp (.kept hk kept (by simp))
    · have hp : s.perform? (.resolve place handle) = some ((s.keep place l).addKey key) := by
        simp [perform?, hk, hr]
      obtain ⟨_, e, he, rfl⟩ := Custody.resolve_eq_ok hr
      rw [hr] at kept
      exact step_of_some hp (.gained rfl hk kept
        (.inr (.inl (List.mem_map_of_mem (List.mem_of_find?_eq_some he)))))

theorem step_copyForSigning (s : Session σ) (place : Place) (number : Nat) :
    Step s (.copyForSigning place number) (s.perform (.copyForSigning place number)).1
      (s.perform (.copyForSigning place number)).2 := by
  cases hk : s.custody? place with
  | none => exact step_of_none (by simp [perform?, hk])
  | some k =>
    cases hn : s.key? number with
    | none => exact step_of_none (by simp [perform?, hk, hn])
    | some key =>
      have kept := k.kept_copyForSigning key
      rcases hc : k.copyForSigning key with ⟨_ | copy, l⟩
      · have hp : s.perform? (.copyForSigning place number) = some (.noKey, s.keep place l) := by
          simp [perform?, hk, hn, hc]
        rw [hc] at kept
        exact step_of_some hp (.kept hk kept (by simp))
      · have hp : s.perform? (.copyForSigning place number) =
            some ((s.keep place l).addKey copy) := by
          simp [perform?, hk, hn, hc]
        rw [hc] at kept
        exact step_of_some hp (.gained rfl hk kept (.inr (.inr (Custody.not_holds_copy hc))))

theorem step_beginDigestNamed (s : Session σ) (name : String) (n : Nat) :
    Step s (.beginDigestNamed name n) (s.perform (.beginDigestNamed name n)).1
      (s.perform (.beginDigestNamed name n)).2 := by
  have hp : s.perform? (.beginDigestNamed name n) = some
      ((s.keep .direct s.direct).addComputation ((s.service.on n).beginDigestNamed name)) := rfl
  refine step_of_some hp (.begun rfl s.custody?_direct (.refl _) ?_)
  intro c hc
  obtain ⟨_, _, hd⟩ := Service.beginDigestNamed_eq_ok hc
  exact .digest hd

theorem step_beginMac (s : Session σ) (a : Algorithm) (number : Nat) (place : Place) (n : Nat) :
    Step s (.beginMac a number place n) (s.perform (.beginMac a number place n)).1
      (s.perform (.beginMac a number place n)).2 := by
  cases hn : s.key? number with
  | none => exact step_of_none (by simp [perform?, hn])
  | some key =>
    cases hk : s.custody? place with
    | none => exact step_of_none (by simp [perform?, hn, hk])
    | some k =>
      refine step_of_some (perform?_beginMac hn hk a n)
        (.begun rfl hk ((s.service.on n).kept_beginMac a key k) ?_)
      exact fun c hc => .mac hn (Prod.ext hc rfl)

theorem step_beginMacFromHandle (s : Session σ) (a : Algorithm) (handle : UInt64) (place : Place)
    (n : Nat) : Step s (.beginMacFromHandle a handle place n)
      (s.perform (.beginMacFromHandle a handle place n)).1
      (s.perform (.beginMacFromHandle a handle place n)).2 := by
  cases hk : s.custody? place with
  | none => exact step_of_none (by simp [perform?, hk])
  | some k =>
    refine step_of_some (perform?_beginMacFromHandle hk a handle n)
      (.begun rfl hk ((s.service.on n).kept_beginMacFromHandle a handle k) ?_)
    exact fun c hc => .macFromHandle (Prod.ext hc rfl)

theorem step_mac (s : Session σ) (a : Algorithm) (number : Nat) (place : Place) (data : Bytes)
    (n : Nat) : Step s (.mac a number place data n) (s.perform (.mac a number place data n)).1
      (s.perform (.mac a number place data n)).2 := by
  cases hn : s.key? number with
  | none => exact step_of_none (by simp [perform?, hn])
  | some key =>
    cases hk : s.custody? place with
    | none => exact step_of_none (by simp [perform?, hn, hk])
    | some k =>
      have hp : s.perform? (.mac a number place data n) =
          some (ofOutput ((s.service.on n).mac a key data k).1,
            s.keep place ((s.service.on n).mac a key data k).2) := by
        simp [perform?, hk, hn]
      exact step_of_some hp
        (.kept hk ((s.service.on n).kept_mac a key data k) (ofOutput_ne_computation _))

theorem step_call (s : Session σ) (number : Nat) (call : Call) :
    Step s (.call number call) (s.perform (.call number call)).1 (s.perform (.call number call)).2 := by
  cases hc : s.computation? number with
  | none => exact step_of_none (by simp [perform?, hc])
  | some c =>
    have ha : ((c.perform call).run s.service.library).2 = c.after s.service.library [call] := rfl
    exact step_of_some (perform?_call hc call) (.went rfl hc ha)

theorem step_feedPieces (s : Session σ) (number : Nat) (data : Bytes) (size : Nat) :
    Step s (.feedPieces number data size) (s.perform (.feedPieces number data size)).1
      (s.perform (.feedPieces number data size)).2 := by
  cases hc : s.computation? number with
  | none => exact step_of_none (by simp [perform?, hc])
  | some c =>
    obtain ⟨calls, hd⟩ := c.feedAll_eq_after s.service.library (data.pieces size)
    exact step_of_some (perform?_feedPieces hc data size) (.went rfl hc hd)

theorem step_drop (s : Session σ) (number : Nat) :
    Step s (.drop number) (s.perform (.drop number)).1 (s.perform (.drop number)).2 := by
  cases hc : s.computation? number with
  | none => exact step_of_none (by simp [perform?, hc])
  | some c => exact step_of_some (perform?_drop hc) (.dropped hc)

theorem perform_step (s : Session σ) (a : Action) : Step s a (s.perform a).1 (s.perform a).2 := by
  cases a with
  | key bytes usage => exact s.step_key bytes usage
  | cloneKey number => exact s.step_cloneKey number
  | signingCopy number => exact s.step_signingCopy number
  | dropKey number => exact s.step_dropKey number
  | insert place bytes hardware => exact s.step_insert place bytes hardware
  | remove place handle => exact s.step_remove place handle
  | resolve place handle => exact s.step_resolve place handle
  | copyForSigning place number => exact s.step_copyForSigning place number
  | outstanding place => exact s.step_outstanding place
  | beginDigest a n =>
    exact .begun (a := .beginDigest a n) rfl rfl (.refl _) fun c hc => .digest hc
  | beginDigestNamed name n => exact s.step_beginDigestNamed name n
  | beginMac a number place n => exact s.step_beginMac a number place n
  | beginMacFromHandle a handle place n => exact s.step_beginMacFromHandle a handle place n
  | digest a data n => exact .read (ofOutput_ne_computation _)
  | mac a number place data n => exact s.step_mac a number place data n
  | call number call => exact s.step_call number call
  | feedPieces number data size => exact s.step_feedPieces number data size
  | drop number => exact s.step_drop number
  | inspectKey | sameMaterial | isLive | inspect =>
    refine step_of_read fun r t h => ?_
    simp only [perform?, Option.bind_eq_bind, Option.bind_eq_some_iff, Option.pure_def,
      Option.some.injEq, Prod.mk.injEq] at h
    grind

@[simp]
theorem computations_keep (s : Session σ) (site : Place) (k : Custody) :
    (s.keep site k).computations = s.computations := by
  unfold keep
  split <;> rfl

@[simp]
theorem service_keep (s : Session σ) (site : Place) (k : Custody) :
    (s.keep site k).service = s.service := by
  unfold keep
  split <;> rfl

theorem Step.service (st : Step s a r t) : t.service = s.service := by
  cases st with
  | kept | gained | stocked => simp [addKey]
  | @begun a k l begun => cases begun <;> simp [addComputation]
  | absent | read | gave | went | dropped => rfl

theorem ofEngine_of_begins (h : a.begins = true) : a.ofEngine = true := by
  cases a <;> first | rfl | cases h

theorem about_of_begins (h : a.begins = true) : a.about = none := by
  cases a <;> first | rfl | cases h

theorem ofEngine_of_about (h : a.about = some number) : a.ofEngine = true := by
  cases a <;> first | rfl | cases h

theorem stocks_of_ofEngine (h : a.ofEngine = true) : a.stocks = false := by
  cases a <;> first | rfl | cases h

@[simp]
theorem keys_keep (s : Session σ) (site : Place) (k : Custody) :
    (s.keep site k).keys = s.keys := by
  unfold keep
  split <;> rfl

/-- What the engine does leaves the caller with the same keys. -/
theorem Step.keys_of_engine (st : Step s a r t) (ha : a.ofEngine = true) : t.keys = s.keys := by
  cases st with
  | absent | read | went | dropped => rfl
  | kept | stocked => simp
  | @begun a k l begun => cases begun <;> simp [addComputation]
  | gained hn => cases ha.symm.trans hn
  | gave => cases ha

theorem Step.begins_of_computation (st : Step s a (.computation number) t) : a.begins = true := by
  generalize hr : Reply.computation number = r at st
  cases st with
  | begun ha => exact ha
  | read hn => exact absurd hr.symm (hn number)
  | kept _ _ hn => exact absurd hr.symm (hn number)
  | stocked _ _ _ _ _ hn => exact absurd hr.symm (hn number)
  | absent | gained | gave | went | dropped => cases hr

/-- Only what is about a computation, or begins one, makes any difference to computations. -/
theorem Step.computations_eq (st : Step s a r t) (hb : a.begins = false) (hn : a.about = none) :
    t.computations = s.computations := by
  cases st with
  | absent | read | gave => rfl
  | kept | stocked => simp
  | gained => simp [addKey]
  | begun ha => cases ha.symm.trans hb
  | went ha => cases ha.symm.trans hn
  | dropped => cases hn

/-- What is about one computation makes no difference to all others. -/
theorem Step.computations_about (st : Step s a r t) (hn : a.about = some number) :
    t.computations = s.computations ∨
      ∃ x, t.computations = s.computations.setIfInBounds number x := by
  cases st with
  | absent | read | gave => exact .inl rfl
  | kept | stocked => exact .inl (by simp)
  | gained => exact .inl (by simp [addKey])
  | begun ha => cases (about_of_begins ha).symm.trans hn
  | went ha =>
    cases ha.symm.trans hn
    exact .inr ⟨_, rfl⟩
  | dropped =>
    cases hn
    exact .inr ⟨_, rfl⟩

end Session

end StreamDigest
