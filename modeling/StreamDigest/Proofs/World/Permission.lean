import StreamDigest.Proofs.Permission
import StreamDigest.Proofs.World.Computations

namespace StreamDigest

/-- A new element is found under its handle, whatever was there before. -/
theorem Arena.find_insert {α : Type} {s : Arena α} (range : s.FreeInRange) (a : α) :
    (s.insert a).2.2.find (s.insert a).1 = .here a := by
  have hlt := reserve_lt range
  simp only [insert, fill, find, slot, Array.getElem?_modify, if_true,
    Array.getElem?_eq_getElem hlt, Option.map_some, Option.getD_some, UInt32.lt_irrefl, if_false]

variable {σ : Type}

/-- What an action asks of the library in order to set up a computation, to go on with or for its
output. -/
def Session.opening (s : Session σ) : Session.Action → Option Request
  | .beginDigest a n | .digest a _ n => ((s.service.on n).askDigest a).request
  | .beginDigestNamed name n => ((s.service.on n).askDigestNamed name).request
  | .beginMac a number place n | .mac a number place _ n => do
    ((s.service.on n).askMac a (← s.key? number) (← s.custody? place)).request
  | .beginMacFromHandle a handle place n => do
    ((s.service.on n).askMacFromHandle a handle (← s.custody? place)).request
  | _ => none

/-- What an action asks of the library in order to set up a computation, which it does not come to
without room. -/
def Pool.opening (p : Pool σ) : Pool.Action → Option Request
  | .openDigest a n =>
    if p.service.policy.maxLive.toNat ≤ p.live then none
    else ((p.service.on n).askDigest a).request
  | .openMac a handle n =>
    if p.service.policy.maxLive.toNat ≤ p.live then none
    else ((p.service.on n).askMacFromHandle a handle p.custody).request
  | .digest a _ n => ((p.service.on n).askDigest a).request
  | _ => none

namespace World

/-- What an action asks of the library in order to set up a computation. -/
def opening (w : World σ) : Action → Option Request
  | .session a => w.session.opening a
  | .pool number a => do (← w.pool? (← w.hosts[number]?)).opening a

/-- The kind of computation that an action is to begin, and of which algorithm. -/
def Action.wants? : Action → Option (Kind × Algorithm)
  | .session (.beginDigest a _) | .session (.digest a ..) | .pool _ (.openDigest a _)
  | .pool _ (.digest a ..) => some (.digest, a)
  | .session (.beginDigestNamed name _) => (Algorithm.lookup name).map fun a => (.digest, a)
  | .session (.beginMac a ..) | .session (.beginMacFromHandle a ..) | .session (.mac a ..)
  | .pool _ (.openMac a ..) => some (.mac, a)
  | _ => none

/-- The answer to an action that is to begin a computation, if none is begun. -/
def Action.refuse (f : Fault) : Action → Reply
  | .session _ => .session (.fault f)
  | .pool _ (.digest ..) => .pool (.output (.error f))
  | .pool .. => .pool (.opened (.error f))

/-- Whether a computation was begun, to go on with or for its output. -/
def Reply.begun : Reply → Bool
  | .session (.computation _) | .session (.output _) | .pool (.opened (.ok _))
  | .pool (.output (.ok _)) => true
  | _ => false

/-- The computation that was begun in a step: the one that the answer tells of, or the one that the
output is from. -/
inductive Begins (w : World σ) (a : Action) (c : Computation σ) : Prop
  | session {number} (hr : (w.perform a).1 = .session (.computation number))
      (hc : (w.perform a).2.session.computation? number = some c)
  | pool {number b handle host} (ha : a = .pool number b)
      (hr : (w.perform a).1 = .pool (.opened (.ok handle)))
      (hh : (w.perform a).2.hosts[number]? = some host) (hc : host.arena.find handle = .here c)
  | output {data b} (hr : (w.perform a).1 = .session (.output b) ∨
        (w.perform a).1 = .pool (.output (.ok b)))
      (hc : (c.complete w.session.service.library data).1 = .ok b)

/-- All that a request names is there: the key or store, the key under the handle, and room in the
pool. -/
inductive Ready (w : World σ) : Action → Prop
  | beginDigest {a n} : Ready w (.session (.beginDigest a n))
  | beginDigestNamed {name n} : Ready w (.session (.beginDigestNamed name n))
  | digest {a data n} : Ready w (.session (.digest a data n))
  | beginMac {a number place n key k} (hn : w.session.key? number = some key)
      (hk : w.session.custody? place = some k) : Ready w (.session (.beginMac a number place n))
  | mac {a number place data n key k} (hn : w.session.key? number = some key)
      (hk : w.session.custody? place = some k) : Ready w (.session (.mac a number place data n))
  | beginMacFromHandle {a handle place n key k} (hk : w.session.custody? place = some k)
      (hr : (k.resolve handle).1 = .ok key) : Ready w (.session (.beginMacFromHandle a handle place n))
  | openDigest {a n number host p} (hh : w.hosts[number]? = some host) (hp : w.pool? host = some p)
      (room : p.live < w.session.service.policy.maxLive.toNat) :
      Ready w (.pool number (.openDigest a n))
  | openMac {a handle n number host p key} (hh : w.hosts[number]? = some host)
      (hp : w.pool? host = some p) (room : p.live < w.session.service.policy.maxLive.toNat)
      (hr : (p.custody.resolve handle).1 = .ok key) : Ready w (.pool number (.openMac a handle n))
  | poolDigest {a data n number host p} (hh : w.hosts[number]? = some host)
      (hp : w.pool? host = some p) : Ready w (.pool number (.digest a data n))

end World

namespace Pool

variable {p : Pool σ}

theorem enroll_refused {begin : Custody → Except Fault (Computation σ) × Custody} {f : Fault}
    (room : p.live < p.service.policy.maxLive.toNat) (hb : begin p.custody = (.error f, p.custody)) :
    p.enroll begin = (.error f, p) := by
  unfold enroll
  rw [if_neg (by omega), hb]
  rfl

end Pool

namespace World

variable {w : World σ} {a : Action} {kind : Kind} {algorithm : Algorithm}

theorem perform_session {b : Session.Action} {r : Session.Reply}
    (h : w.session.perform? b = some (r, w.session)) : w.perform (.session b) = (.session r, w) := by
  simp [perform, perform?, Session.perform, h]

theorem keep_self {number : Nat} {host : Host σ} {p : Pool σ} (hh : w.hosts[number]? = some host)
    (hp : w.pool? host = some p) : w.keep number host p = w := by
  obtain ⟨k, hk, rfl⟩ := Option.map_eq_some_iff.mp hp
  rw [keep, Session.keep_self hk, setIfInBounds_self hh]

theorem perform_pool {number : Nat} {host : Host σ} {p : Pool σ} {b : Pool.Action} {r : Pool.Reply}
    (hh : w.hosts[number]? = some host) (hp : w.pool? host = some p)
    (h : p.perform b = (r, p)) : w.perform (.pool number b) = (.pool r, w) := by
  simp [perform, perform?, hh, hp, h, keep_self hh hp]

/-- A request for an algorithm that is of the wrong kind or not in use comes to nothing, whatever the
library: no key is touched, and no room taken up. -/
theorem perform_refused (ready : w.Ready a) (wanted : a.wants? = some (kind, algorithm))
    (h : ¬(algorithm.kind = kind ∧ w.session.service.policy.Allows algorithm)) :
    w.perform a = (a.refuse (Policy.refusal kind algorithm), w) := by
  have hon (n : Nat) :
      ¬(algorithm.kind = kind ∧ (w.session.service.on n).policy.Allows algorithm) := h
  cases ready with
  | beginDigest =>
    cases wanted
    exact perform_session (by simp [Session.perform?, Service.beginDigest_refused (hon _),
      Session.addComputation])
  | beginDigestNamed =>
    obtain ⟨_, hl, heq⟩ := Option.map_eq_some_iff.mp wanted
    cases heq
    exact perform_session (by simp [Session.perform?, Service.beginDigestNamed_refused hl (hon _),
      Session.addComputation])
  | digest =>
    cases wanted
    exact perform_session (by simp [Session.perform?, Service.digest_refused (hon _),
      Session.ofOutput])
  | beginMac hn hk =>
    cases wanted
    exact perform_session (by simp [Session.perform?, hn, hk, Service.beginMac_refused (hon _),
      Session.keep_self hk, Session.addComputation])
  | mac hn hk =>
    cases wanted
    exact perform_session (by simp [Session.perform?, hn, hk, Service.mac_refused (hon _),
      Session.keep_self hk, Session.ofOutput])
  | beginMacFromHandle hk hr =>
    cases wanted
    exact perform_session (by simp [Session.perform?, hk,
      Service.beginMacFromHandle_refused (hon _) hr, Session.keep_self hk, Session.addComputation])
  | openDigest hh hp room =>
    cases wanted
    obtain ⟨k, _, rfl⟩ := Option.map_eq_some_iff.mp hp
    refine perform_pool hh hp ?_
    rw [Pool.perform, Pool.openDigest,
      Pool.enroll_refused room (by rw [Service.beginDigest_refused (hon _)])]
    rfl
  | openMac hh hp room hr =>
    cases wanted
    obtain ⟨k, _, rfl⟩ := Option.map_eq_some_iff.mp hp
    refine perform_pool hh hp ?_
    rw [Pool.perform, Pool.openMac,
      Pool.enroll_refused room (Service.beginMacFromHandle_refused (hon _) hr)]
    rfl
  | poolDigest hh hp =>
    cases wanted
    obtain ⟨k, _, rfl⟩ := Option.map_eq_some_iff.mp hp
    refine perform_pool hh hp ?_
    rw [Pool.perform, Service.digest_refused (hon _)]

/-- It asks nothing of the library. -/
theorem opening_refused (ready : w.Ready a) (wanted : a.wants? = some (kind, algorithm))
    (h : ¬(algorithm.kind = kind ∧ w.session.service.policy.Allows algorithm)) :
    w.opening a = none := by
  have hon (n : Nat) :
      ¬(algorithm.kind = kind ∧ (w.session.service.on n).policy.Allows algorithm) := h
  cases ready with
  | beginDigest | digest =>
    cases wanted
    simp [opening, Session.opening, Service.askDigest_refused (hon _), Exchange.request]
  | beginDigestNamed =>
    obtain ⟨_, hl, heq⟩ := Option.map_eq_some_iff.mp wanted
    cases heq
    simp [opening, Session.opening, Service.askDigestNamed_refused hl (hon _), Exchange.request]
  | beginMac hn hk | mac hn hk =>
    cases wanted
    simp [opening, Session.opening, hn, hk, Service.askMac_refused (hon _), Exchange.request]
  | beginMacFromHandle hk hr =>
    cases wanted
    simp [opening, Session.opening, hk, Service.askMacFromHandle_refused (hon _) hr,
      Exchange.request]
  | openDigest hh hp =>
    cases wanted
    obtain ⟨k, _, rfl⟩ := Option.map_eq_some_iff.mp hp
    simp [opening, Pool.opening, hh, hp, Service.askDigest_refused (hon _), Exchange.request]
  | openMac hh hp room hr =>
    cases wanted
    obtain ⟨k, _, rfl⟩ := Option.map_eq_some_iff.mp hp
    simp [opening, Pool.opening, hh, hp, Service.askMacFromHandle_refused (hon _) hr,
      Exchange.request]
  | poolDigest hh hp =>
    cases wanted
    obtain ⟨k, _, rfl⟩ := Option.map_eq_some_iff.mp hp
    simp [opening, Pool.opening, hh, hp, Service.askDigest_refused (hon _), Exchange.request]

end World

namespace Session

variable {s : Session σ} {a : Action} {number : Nat}

theorem begun_of_addComputation {begun : Except Fault (Computation σ)}
    (h : (s.addComputation begun).1 = .computation number) :
    ∃ c, begun = .ok c ∧ (s.addComputation begun).2.computation? number = some c := by
  cases begun with
  | error e => cases h
  | ok c =>
    cases h
    exact ⟨c, rfl, by simp [addComputation, computation?]⟩

theorem ok_of_ofOutput {x : Except Fault Bytes} {b : Bytes} (h : ofOutput x = .output b) :
    x = .ok b := by
  cases x with
  | error e => cases h
  | ok b' =>
    cases h
    rfl

/-- A computation that was begun is of an algorithm that was asked for and is in use. -/
theorem admits_of_computation (h : (s.perform a).1 = .computation number) :
    ∃ kind algorithm c, (World.Action.session a).wants? = some (kind, algorithm) ∧
      s.service.Admits kind algorithm c ∧ (s.perform a).2.computation? number = some c := by
  have st := s.perform_step a
  rw [h] at st
  have begins := st.begins_of_computation
  cases a with
  | beginDigest algorithm n =>
    obtain ⟨c, hb, hc⟩ := begun_of_addComputation h
    exact ⟨.digest, algorithm, c, rfl, (Service.admits_beginDigest hb).of_on, hc⟩
  | beginDigestNamed name n =>
    obtain ⟨c, hb, hc⟩ := begun_of_addComputation h
    obtain ⟨algorithm, hn, hd⟩ := Service.beginDigestNamed_eq_ok hb
    have hl : Algorithm.lookup name = some algorithm := by
      unfold Algorithm.named at hn
      split at hn <;> cases hn
      assumption
    exact ⟨.digest, algorithm, c, by simp [World.Action.wants?, hl],
      (Service.admits_beginDigest hd).of_on, hc⟩
  | beginMac algorithm number place n =>
    cases hn : s.key? number with
    | none => simp [perform, perform?, hn] at h
    | some key =>
      cases hk : s.custody? place with
      | none => simp [perform, perform?, hn, hk] at h
      | some k =>
        have hp : s.perform (.beginMac algorithm number place n) = _ :=
          congrArg (·.getD (.absent, s)) (perform?_beginMac hn hk algorithm n)
        rw [hp] at h ⊢
        obtain ⟨c, hb, hc⟩ := begun_of_addComputation h
        exact ⟨.mac, algorithm, c, rfl, (Service.admits_beginMac (Prod.ext hb rfl)).of_on, hc⟩
  | beginMacFromHandle algorithm handle place n =>
    cases hk : s.custody? place with
    | none => simp [perform, perform?, hk] at h
    | some k =>
      have hp : s.perform (.beginMacFromHandle algorithm handle place n) = _ :=
        congrArg (·.getD (.absent, s)) (perform?_beginMacFromHandle hk algorithm handle n)
      rw [hp] at h ⊢
      obtain ⟨c, hb, hc⟩ := begun_of_addComputation h
      exact ⟨.mac, algorithm, c, rfl,
        (Service.admits_beginMacFromHandle (Prod.ext hb rfl)).of_on, hc⟩
  | _ => cases begins

end Session

namespace Service

variable {s : Service σ} {a : Algorithm} {data b : Bytes}

theorem admits_digest (h : s.digest a data = .ok b) :
    ∃ c, s.Admits .digest a c ∧ (c.complete s.library data).1 = .ok b := by
  cases hb : s.beginDigest a with
  | error e => simp [digest, hb, bind, Except.bind] at h
  | ok c =>
    refine ⟨c, admits_beginDigest hb, ?_⟩
    simpa [digest, hb, bind, Except.bind] using h

theorem admits_mac {key : Key} {k : Custody} (h : (s.mac a key data k).1 = .ok b) :
    ∃ c, s.Admits .mac a c ∧ (c.complete s.library data).1 = .ok b := by
  unfold mac at h
  rcases hb : s.beginMac a key k with ⟨e | c, l⟩
  · rw [hb] at h
    cases h
  · rw [hb] at h
    exact ⟨c, admits_beginMac hb, h⟩

end Service

namespace Session

variable {s : Session σ} {a : Action} {b : Bytes}

theorem ne_output_of_perform? (h : ∀ x, s.perform? a = some x → x.1 ≠ .output b) :
    (s.perform a).1 ≠ .output b := by
  unfold perform
  cases hp : s.perform? a with
  | none => exact nofun
  | some x => exact h x hp

/-- So is the computation that an output is from. -/
theorem admits_of_output (h : (s.perform a).1 = .output b) :
    ∃ kind algorithm c data, (World.Action.session a).wants? = some (kind, algorithm) ∧
      s.service.Admits kind algorithm c ∧ (c.complete s.service.library data).1 = .ok b := by
  cases a with
  | digest algorithm data n =>
    obtain ⟨c, admits, hc⟩ := Service.admits_digest (ok_of_ofOutput h)
    exact ⟨.digest, algorithm, c, data, rfl, admits.of_on, hc⟩
  | mac algorithm number place data n =>
    cases hn : s.key? number with
    | none => simp [perform, perform?, hn] at h
    | some key =>
      cases hk : s.custody? place with
      | none => simp [perform, perform?, hn, hk] at h
      | some k =>
        have hm : ofOutput ((s.service.on n).mac algorithm key data k).1 = .output b := by
          simpa [perform, perform?, hn, hk] using h
        obtain ⟨c, admits, hc⟩ := Service.admits_mac (ok_of_ofOutput hm)
        exact ⟨.mac, algorithm, c, data, rfl, admits.of_on, hc⟩
  | key | cloneKey | signingCopy | dropKey | inspectKey | sameMaterial | insert | remove | resolve
  | copyForSigning | isLive | outstanding | beginDigest | beginDigestNamed | beginMac
  | beginMacFromHandle | inspect | call | feedPieces | drop =>
    refine absurd h (ne_output_of_perform? fun x hx => ?_)
    simp only [perform?, addKey, addComputation, Option.bind_eq_bind, Option.bind_eq_some_iff,
      Option.pure_def, Option.some.injEq] at hx
    grind

end Session

namespace Pool

variable {p q : Pool σ} {a : Action} {r : Reply} {h : Handle}

theorem Step.admits_of_opened (st : Step p a (.opened (.ok h)) q) (range : p.arena.FreeInRange) :
    ∃ kind algorithm c, (∀ number, (World.Action.pool number a).wants? = some (kind, algorithm)) ∧
      p.service.Admits kind algorithm c ∧ q.arena.find h = .here c := by
  generalize hr : Reply.opened (.ok h) = r at st
  cases st with
  | @opened _ begin c custody hb room hc =>
    obtain rfl : h = (p.arena.takeRoom.insert c).1 := by
      cases hr
      rfl
    have found := Arena.find_insert (s := p.arena.takeRoom) range c
    cases a with
    | openDigest algorithm n =>
      cases hb
      have hd := (Prod.mk.inj hc).1
      exact ⟨.digest, algorithm, c, fun _ => rfl, (Service.admits_beginDigest hd).of_on, found⟩
    | openMac algorithm handle n =>
      cases hb
      exact ⟨.mac, algorithm, c, fun _ => rfl, (Service.admits_beginMacFromHandle hc).of_on, found⟩
    | _ => cases hb
  | full | failed | unknown | retired | kept | ended | inserted | removed | counted | storeless
  | digested => cases hr

theorem Step.admits_of_output {b : Bytes} (st : Step p a (.output (.ok b)) q) :
    ∃ kind algorithm c data, (∀ number, (World.Action.pool number a).wants? = some (kind, algorithm)) ∧
      p.service.Admits kind algorithm c ∧ (c.complete p.service.library data).1 = .ok b := by
  generalize hr : Reply.output (.ok b) = r at st
  cases st with
  | @digested algorithm data n =>
    obtain ⟨c, admits, hc⟩ := Service.admits_digest (Reply.output.inj hr).symm
    exact ⟨.digest, algorithm, c, data, fun _ => rfl, admits.of_on, hc⟩
  | full | failed | opened | unknown | retired | kept | ended | inserted | removed | counted
  | storeless => cases hr

end Pool

namespace World

variable {w : World σ} {handed : Nat → List Key} {a : Action} {c : Computation σ}

/-- Whatever computation is begun, it is of an algorithm that was asked for and is in use, and has a
key if it is to be a MAC. -/
theorem Accounted.admits (h : w.Accounted handed) (begun : (w.perform a).1.begun = true) :
    ∃ kind algorithm c, a.wants? = some (kind, algorithm) ∧
      w.session.service.Admits kind algorithm c ∧ w.Begins a c := by
  cases a with
  | session a =>
    have hr : (w.perform (.session a)).1 = .session (w.session.perform a).1 := rfl
    have ht : (w.perform (.session a)).2.session = (w.session.perform a).2 := rfl
    rw [hr] at begun
    cases hs : (w.session.perform a).1 with
    | computation number =>
      obtain ⟨kind, algorithm, c, wanted, admits, hc⟩ := Session.admits_of_computation hs
      exact ⟨kind, algorithm, c, wanted, admits, .session (hr.trans (congrArg _ hs)) (ht ▸ hc)⟩
    | output b =>
      obtain ⟨kind, algorithm, c, data, wanted, admits, hc⟩ := Session.admits_of_output hs
      exact ⟨kind, algorithm, c, wanted, admits, .output (.inl (hr.trans (congrArg _ hs))) hc⟩
    | _ =>
      rw [hs] at begun
      cases begun
  | pool number a =>
    rcases w.idle_or_poolStep number a with ⟨hw, _⟩ | ⟨host, p, st⟩
    · rw [hw] at begun
      cases begun
    · have hr : (w.perform (.pool number a)).1 = .pool (p.perform a).1 := by rw [st.perform]
      have step := p.perform_step a
      rw [hr] at begun
      cases hs : (p.perform a).1 with
      | opened x =>
        rw [hs] at begun step hr
        cases x with
        | error e => cases begun
        | ok handle =>
          obtain ⟨kind, algorithm, c, wanted, admits, hc⟩ := step.admits_of_opened (st.range h)
          obtain ⟨hlt, _⟩ := Array.getElem?_eq_some_iff.mp st.here
          have hh : (w.perform (.pool number a)).2.hosts[number]? =
              some { host with arena := (p.perform a).2.arena } := by
            rw [st.perform]
            simp [keep, hlt]
          exact ⟨kind, algorithm, c, wanted number, st.service ▸ admits, .pool rfl hr hh hc⟩
      | output x =>
        rw [hs] at begun step hr
        cases x with
        | error e => cases begun
        | ok b =>
          obtain ⟨kind, algorithm, c, data, wanted, admits, hc⟩ := step.admits_of_output
          exact ⟨kind, algorithm, c, wanted number, st.service ▸ admits,
            .output (.inr hr) (st.service ▸ hc)⟩
      | _ =>
        rw [hs] at begun
        cases begun

/-- Whatever has gone on with a computation, it has the algorithm that it was admitted with. -/
theorem Ran.admitted {s : Service σ} (h : Ran s c) :
    s.policy.Allows c.algorithm ∧ (c.algorithm.kind = .digest → c.binding = none) ∧
      (c.phase ≠ .finalized → c.algorithm.kind = .mac → c.binding.isSome = true) := by
  obtain ⟨keyed, _⟩ := h.binding
  refine ⟨?_, ?_, fun live hk => (keyed live).mpr hk⟩
  · obtain ⟨n, start, bytes, calls, hb, _⟩ := h
    cases hb with
    | digest hd => exact (Service.admits_beginDigest hd).allowed
    | mac hm => exact (Service.admits_beginMac hm).allowed
    | macFromHandle _ hm => exact (Service.admits_beginMacFromHandle hm).allowed
  · intro hk
    by_cases hf : c.phase = .finalized
    · exact Computation.binding_finalized hf
    · refine Option.not_isSome_iff_eq_none.mp fun hsome => ?_
      have hmac := (keyed hf).mp hsome
      rw [hk] at hmac
      cases hmac

end World

namespace Session

variable {s : Session σ} {q : Policy}

/-- The same session under another policy. -/
def under (s : Session σ) (q : Policy) : Session σ :=
  { s with service := s.service.under q }

@[simp]
theorem service_under (s : Session σ) (q : Policy) : (s.under q).service = s.service.under q := rfl

@[simp]
theorem vault_under (s : Session σ) (q : Policy) : (s.under q).vault = s.vault := rfl

@[simp]
theorem key?_under (s : Session σ) (q : Policy) (number : Nat) :
    (s.under q).key? number = s.key? number := rfl

@[simp]
theorem computation?_under (s : Session σ) (q : Policy) (number : Nat) :
    (s.under q).computation? number = s.computation? number := rfl

@[simp]
theorem custody?_under (s : Session σ) (q : Policy) (site : Place) :
    (s.under q).custody? site = s.custody? site := by
  cases site <;> rfl

@[simp]
theorem keep_under (s : Session σ) (q : Policy) (site : Place) (k : Custody) :
    (s.under q).keep site k = (s.keep site k).under q := by
  unfold keep
  split <;> rfl

@[simp]
theorem addKey_under (s : Session σ) (q : Policy) (key : Key) :
    (s.under q).addKey key = ((s.addKey key).1, (s.addKey key).2.under q) := rfl

@[simp]
theorem addComputation_under (s : Session σ) (q : Policy) (begun : Except Fault (Computation σ)) :
    (s.under q).addComputation begun =
      ((s.addComputation begun).1, (s.addComputation begun).2.under q) := by
  cases begun <;> rfl

@[simp]
theorem replace_under (s : Session σ) (q : Policy) (number : Nat) (before after : Computation σ) :
    (s.under q).replace number before after = (s.replace number before after).under q := rfl

theorem perform?_under (h : s.service.policy.Agrees q) (a : Action) :
    (s.under q).perform? a = (s.perform? a).map fun x => (x.1, x.2.under q) := by
  have hon (n : Nat) : (s.service.on n).policy.Agrees q := h
  cases a
  all_goals
    simp only [perform?, key?_under, computation?_under, custody?_under, keep_under, addKey_under,
      addComputation_under, replace_under, service_under, vault_under, Service.on_under,
      Service.beginDigest_under (hon _), Service.beginDigestNamed_under (hon _),
      Service.beginMac_under (hon _), Service.beginMacFromHandle_under (hon _),
      Service.digest_under (hon _), Service.mac_under (hon _), Option.bind_eq_bind, Option.pure_def,
      Option.map_some, Option.map_bind, Function.comp_def]
  case resolve site handle =>
    congr 1
    funext k
    rcases k.resolve handle with ⟨e | key, l⟩ <;> rfl
  case copyForSigning site number =>
    congr 1
    funext k
    congr 1
    funext key
    rcases k.copyForSigning key with ⟨_ | copy, l⟩ <;> rfl
  all_goals rfl

theorem perform_under (h : s.service.policy.Agrees q) (a : Action) :
    (s.under q).perform a = ((s.perform a).1, (s.perform a).2.under q) := by
  rw [perform, perform, perform?_under h]
  cases s.perform? a <;> rfl

end Session

namespace Pool

variable {p : Pool σ} {q : Policy}

def under (p : Pool σ) (q : Policy) : Pool σ :=
  { p with service := p.service.under q }

theorem enroll_under (h : p.service.policy.Agrees q)
    (begin : Custody → Except Fault (Computation σ) × Custody) :
    (p.under q).enroll begin = ((p.enroll begin).1, (p.enroll begin).2.under q) := by
  have hmax : (p.under q).service.policy.maxLive = p.service.policy.maxLive := h.maxLive
  have hlive : (p.under q).live = p.live := rfl
  have hcustody : (p.under q).custody = p.custody := rfl
  unfold enroll
  rw [hmax, hlive, hcustody]
  split
  · rfl
  · rcases begin p.custody with ⟨e | c, l⟩ <;> rfl

theorem call_under (p : Pool σ) (q : Policy) (i : Handle) (call : Call) :
    (p.under q).call i call = ((p.call i call).1, (p.call i call).2.under q) := by
  have harena : (p.under q).arena = p.arena := rfl
  unfold Pool.call
  rw [harena]
  cases p.arena.find i <;> rfl

theorem perform_under (h : p.service.policy.Agrees q) (a : Action) :
    (p.under q).perform a = ((p.perform a).1, (p.perform a).2.under q) := by
  have hservice : (p.under q).service = p.service.under q := rfl
  have hcustody : (p.under q).custody = p.custody := rfl
  have hon (n : Nat) : (p.service.on n).policy.Agrees q := h
  cases a with
  | openDigest a n =>
    simp only [perform, openDigest, hservice, Service.on_under, Service.beginDigest_under (hon n),
      enroll_under h]
    rfl
  | openMac a handle n =>
    have hm : ((p.service.under q).on n).beginMacFromHandle a handle =
        (p.service.on n).beginMacFromHandle a handle :=
      funext fun k => Service.beginMacFromHandle_under (hon n) a handle k
    simp only [perform, openMac, hservice, hm, enroll_under h]
    rfl
  | call i call =>
    simp only [perform, call_under]
    rfl
  | insertKey bytes hardware =>
    simp only [perform, hcustody]
    cases p.custody.insert? bytes hardware <;> rfl
  | removeKey handle =>
    simp only [perform, hcustody]
    cases p.custody.remove? handle <;> rfl
  | outstanding =>
    simp only [perform, hcustody]
    cases p.custody.outstanding? <;> rfl
  | digest a data n =>
    simp only [perform, hservice, Service.on_under, Service.digest_under (hon n)]

end Pool

namespace World

variable {w : World σ} {q : Policy}

def under (w : World σ) (q : Policy) : World σ :=
  { w with session := w.session.under q }

/-- Names that stand for the same algorithms are as good as each other. -/
theorem perform_under (h : w.session.service.policy.Agrees q) (a : Action) :
    (w.under q).perform a = ((w.perform a).1, (w.perform a).2.under q) := by
  have hsession : (w.under q).session = w.session.under q := rfl
  have hhosts : (w.under q).hosts = w.hosts := rfl
  cases a with
  | session a =>
    simp only [perform, perform?, hsession, Session.perform_under h]
    rfl
  | pool number a =>
    have hpool (host : Host σ) : (w.under q).pool? host = (w.pool? host).map fun p => p.under q := by
      simp only [pool?, hsession, Session.custody?_under]
      cases w.session.custody? host.place <;> rfl
    have hkeep (host : Host σ) (p : Pool σ) :
        (w.under q).keep number host (p.under q) = (w.keep number host p).under q := by
      simp only [keep, hsession]
      exact congrArg (fun session : Session σ => (⟨session, _⟩ : World σ))
        (w.session.keep_under q host.place p.custody)
    cases hh : w.hosts[number]? with
    | none => simp [perform, perform?, hhosts, hh]
    | some host =>
      cases hp : w.pool? host with
      | none => simp [perform, perform?, hhosts, hh, hp, hpool]
      | some p =>
        obtain ⟨k, hk, rfl⟩ := Option.map_eq_some_iff.mp hp
        have hperform := Pool.perform_under (p := ⟨w.session.service, k, host.arena⟩) h a
        simp [perform, perform?, hhosts, hh, hp, hpool, hperform, hkeep]

/-- The answers to a run of actions. -/
def replies (w : World σ) : List Action → List Reply
  | [] => []
  | a :: rest => (w.perform a).1 :: (w.perform a).2.replies rest

theorem replies_under (h : w.session.service.policy.Agrees q) (actions : List Action) :
    (w.under q).replies actions = w.replies actions := by
  induction actions generalizing w with
  | nil => rfl
  | cons a rest ih =>
    rw [replies, replies, perform_under h, ih]
    rwa [service_perform]

/-- The allow-list has the last word, wherever a computation is begun. Every computation that there ever
is has an algorithm that is in use; to begin one for a digest gives a digest without a key, and for a
MAC a MAC with one. A request for any other algorithm is refused without asking anything of the library
or taking hold of a key, and nothing comes of it. How the names in the list are spelled does not matter. -/
theorem allow_list_enforced (library : Library σ) (policy : Policy) (service : Service σ)
    (made : Service.make library policy = .ok service) (stores : Nat) (places : List Place) :
    let init := start service stores places
    (∀ actions, ∀ c ∈ (init.after actions).computations,
      policy.Allows c.algorithm ∧ (c.algorithm.kind = .digest → c.binding = none) ∧
        (c.phase ≠ .finalized → c.algorithm.kind = .mac → c.binding.isSome = true)) ∧
    (∀ actions a, ((init.after actions).perform a).1.begun = true →
      ∃ kind algorithm c, a.wants? = some (kind, algorithm) ∧ service.Admits kind algorithm c ∧
        (init.after actions).Begins a c) ∧
    (∀ (τ : Type) (w : World τ), w.session.service.policy = policy →
      (∀ a kind algorithm, w.Ready a → a.wants? = some (kind, algorithm) →
        ¬(algorithm.kind = kind ∧ policy.Allows algorithm) →
        w.perform a = (a.refuse (Policy.refusal kind algorithm), w) ∧ w.opening a = none) ∧
      ∀ name occasion, Algorithm.lookup name = none →
        let a : Action := .session (.beginDigestNamed name occasion)
        w.perform a = (.session (.fault (.unsupportedAlgorithm name)), w) ∧ w.opening a = none) ∧
    ∀ f : String → String,
      (∀ s, policy.allowed = some s → ∀ name ∈ s, Algorithm.lookup (f name) = Algorithm.lookup name) →
      Service.make library (policy.respell f) = .ok { library, policy := policy.respell f } ∧
      (∀ a, (policy.respell f).Allows a ↔ policy.Allows a) ∧
      ∀ actions, (start { library, policy := policy.respell f } stores places).replies actions =
        init.replies actions := by
  intro init
  obtain ⟨valid, rfl⟩ := Service.make_eq_ok_iff.mp made
  have fresh := accounted_start { library, policy } stores places
  have service_init : init.session.service = { library, policy } := rfl
  refine ⟨?_, ?_, ?_, ?_⟩
  · intro actions c hc
    have ran := fresh.ran_after (by simp [start, computations, Session.contents, Arena.contents])
      actions c hc
    exact ran.admitted
  · intro actions a begun
    have admits := (fresh.after actions).admits begun
    rwa [service_after, service_init] at admits
  · rintro τ w rfl
    refine ⟨fun a kind algorithm ready wanted h =>
      ⟨perform_refused ready wanted h, opening_refused ready wanted h⟩, ?_⟩
    intro name occasion hl a
    have ask := Service.askDigestNamed_unknown (s := w.session.service.on occasion) hl
    refine ⟨perform_session ?_, ?_⟩
    · simp [Session.perform?, Service.beginDigestNamed, ask, Exchange.run, Session.addComputation]
    · simp [a, opening, Session.opening, ask, Exchange.request]
  · intro f same
    refine ⟨?_, fun a => Policy.allows_respell same, ?_⟩
    · exact Service.make_eq_ok_iff.mpr ⟨(Policy.validate_respell same).mpr valid, rfl⟩
    · intro actions
      exact replies_under (w := init) (Policy.agrees_respell same) actions

/-- Two names in odd spellings, a store and a pool. -/
theorem allow_list_of_two_names :
    let library : Library Nat :=
      { name := "lengths", digest := fun _ _ => .ok 0, mac := fun _ _ key => .ok key.length,
        absorb := fun n data => .ok (n + data.length), output := fun n => .ok (Bytes.zeros (30 + n)) }
    let policy : Policy := { allowed := some (.ofList ["sha 256", "HS256"]) }
    let respelled : Policy := { allowed := some (.ofList ["SHA_256", "Hmac/Sha256"]) }
    let init := start { library, policy } 1 [.store 0]
    let w := init.after [.session (.insert (.store 0) [1, 2] false)]
    let open256 : Action := .pool 0 (.openMac .hmacSha256 1 0)
    (∃ c, w.Begins open256 c ∧ c.algorithm = .hmacSha256 ∧ c.binding.isSome = true) ∧
    (∀ c ∈ (w.perform open256).2.computations, policy.Allows c.algorithm) ∧
    w.perform (.session (.digest .hmacSha256 [3] 0)) =
      (.session (.fault (.unsupportedAlgorithm "HMAC-SHA256 is not a digest")), w) ∧
    w.perform (.pool 0 (.openMac .hmacSha1 1 0)) =
      (.pool (.opened (.error (.unsupportedAlgorithm "HMAC-SHA1 (disabled)"))), w) ∧
    (w.opening open256 = some (.mac .hmacSha256 [1, 2]) ∧
      w.opening (.pool 0 (.openMac .hmacSha1 1 0)) = none) ∧
    ∀ actions, (start { library, policy := respelled } 1 [.store 0]).replies actions =
      init.replies actions := by
  intro library policy respelled init w open256
  have valid : policy.validate = .ok () := by decide +kernel
  obtain ⟨present, begun, refused, spelled⟩ := allow_list_enforced library policy { library, policy }
    (Service.make_eq_ok_iff.mpr ⟨valid, rfl⟩) 1 [.store 0]
  obtain ⟨denied, _⟩ := refused Nat w rfl
  have disallowed : ¬policy.Allows .hmacSha1 := by
    rw [← Policy.permits_iff]
    decide +kernel
  let insert : Action := .session (.insert (.store 0) [1, 2] false)
  have refused_open := denied (.pool 0 (.openMac .hmacSha1 1 0)) .mac .hmacSha1
    (.openMac rfl rfl (by decide) rfl) rfl fun h => disallowed h.2
  refine ⟨?_, ?_, ?_, refused_open.1, ⟨by decide +kernel, refused_open.2⟩, ?_⟩
  · obtain ⟨_, _, c, wanted, admits, begins⟩ := begun [insert] open256 (by decide +kernel)
    cases wanted
    exact ⟨c, begins, admits.algorithm, admits.keyed.mpr rfl⟩
  · intro c hc
    exact (present [insert, open256] c hc).1
  · exact (denied (.session (.digest .hmacSha256 [3] 0)) .digest .hmacSha256 .digest rfl nofun).1
  · intro actions
    let f (name : String) : String := if name = "HS256" then "Hmac/Sha256" else "SHA_256"
    have hf : policy.respell f = respelled := by decide +kernel
    rw [← hf]
    refine (spelled f fun s hs name hm => ?_).2.2 actions
    cases hs
    have hall : ∀ name ∈ (NameSet.ofList ["sha 256", "HS256"]).names,
        Algorithm.lookup (f name) = Algorithm.lookup name := by decide +kernel
    exact hall name hm

end World

end StreamDigest
