import StreamDigest.Proofs.Session.Veil
import StreamDigest.Proofs.World.Permission

namespace StreamDigest

variable {σ τ α β : Type}

def Slot.map (f : α → β) (s : Slot α) : Slot β where
  generation := s.generation
  content := s.content.map f

def Finding.map (f : α → β) : Finding α → Finding β
  | here a => here (f a)
  | retired => retired
  | unknown => unknown

namespace Arena

/-- The same arena with other elements. -/
def map (f : α → β) (s : Arena α) : Arena β where
  slots := s.slots.map (Slot.map f)
  free := s.free
  live := s.live

variable (f : α → β) (s : Arena α)

@[simp]
theorem takeRoom_map : (s.map f).takeRoom = s.takeRoom.map f := rfl

theorem slot_map (index : UInt32) : (s.map f).slot index = (s.slot index).map f := by
  simp only [slot, map, Array.getElem?_map]
  cases s.slots[index.toNat]? <;> rfl

theorem map_map {γ : Type} (g : β → γ) : (s.map f).map g = s.map (g ∘ f) := by
  simp [map, Slot.map, Function.comp_def]

theorem modify_map (g : Slot α → Slot α) (g' : Slot β → Slot β)
    (h : ∀ slot, (g slot).map f = g' (slot.map f)) (i : Nat) :
    (s.slots.map (Slot.map f)).modify i g' = (s.slots.modify i g).map (Slot.map f) := by
  apply Array.ext_getElem?
  intro j
  simp only [Array.getElem?_modify, Array.getElem?_map]
  split
  · cases s.slots[j]? <;> simp [h]
  · rfl

@[simp]
theorem fill_map (index : UInt32) (a : α) : (s.map f).fill index (f a) = (s.fill index a).map f := by
  have hm := s.modify_map f (fun slot => { slot with content := some a })
    (fun slot => { slot with content := some (f a) }) (fun _ => rfl) index.toNat
  simp only [fill, map, hm]

@[simp]
theorem insert_map (a : α) : (s.map f).insert (f a) =
    ((s.insert a).1, (s.insert a).2.1.map f, (s.insert a).2.2.map f) := by
  have hr : (s.map f).reserve = (s.reserve.1, s.reserve.2.map f) := by
    unfold reserve
    cases hf : s.free with
    | nil => simp [map, hf, Slot.map]
    | cons i free => simp [map, hf]
  simp only [insert, hr, slot_map, fill_map]
  rfl

@[simp]
theorem find_map (h : Handle) : (s.map f).find h = (s.find h).map f := by
  unfold find
  simp only [map, Array.getElem?_map]
  cases s.slots[h.index.toNat]? with
  | none => rfl
  | some slot =>
    obtain ⟨generation, _ | a⟩ := slot
    · simp only [Option.map_some, Slot.map, Option.map_none]
      split <;> rfl
    · simp only [Option.map_some, Slot.map]
      split
      · rfl
      · split <;> rfl

@[simp]
theorem vacate_map (index : UInt32) : (s.map f).vacate index = (s.vacate index).map f := by
  have hm := s.modify_map f (fun slot => { generation := slot.generation + 1, content := none })
    (fun slot => { generation := slot.generation + 1, content := none }) (fun _ => rfl) index.toNat
  have hs : ((s.map f).slot index).content.isSome = (s.slot index).content.isSome := by
    rw [slot_map]
    exact Option.isSome_map
  unfold vacate
  rw [hs]
  split
  · simp only [map, hm]
  · rfl

theorem retire_map (s : Arena α) (f : α → β) (h : Handle) :
    (s.map f).retire h = (s.retire h).map f := by
  unfold retire
  rw [find_map]
  cases s.find h with
  | here a => exact vacate_map ..
  | retired | unknown => rfl

end Arena

namespace Pool

def Action.veil : Action → Action
  | .call h c => .call h c.veil
  | .insertKey bytes hardware => .insertKey bytes.veil hardware
  | .digest a data n => .digest a data.veil n
  | a => a

def Action.verifies : Action → Bool
  | .call _ c => c.verifies
  | _ => false

def Reply.veil (compared : Bool) : Reply → Reply
  | .result r => .result (r.veil compared)
  | .output r => .output (r.map Bytes.veil)
  | r => r

/-- The pool without what is in its keys and messages. -/
def veil (p : Pool σ) (veiled : Library τ) (f : σ → τ) : Pool τ where
  service := p.service.veil veiled
  custody := p.custody.veil
  arena := p.arena.map (Computation.map f)

variable {p : Pool σ} {veiled : Library τ} {f : σ → τ}

theorem enroll_veil (begin : Custody → Except Fault (Computation σ) × Custody)
    (begin' : Custody → Except Fault (Computation τ) × Custody)
    (hb : begin' p.custody.veil =
      ((begin p.custody).1.map (Computation.map f), (begin p.custody).2.veil)) :
    (p.veil veiled f).enroll begin' = ((p.enroll begin).1, (p.enroll begin).2.veil veiled f) := by
  have hmax : (p.veil veiled f).service.policy.maxLive = p.service.policy.maxLive := rfl
  have hlive : (p.veil veiled f).live = p.live := rfl
  have hcustody : (p.veil veiled f).custody = p.custody.veil := rfl
  have harena : (p.veil veiled f).arena = p.arena.map (Computation.map f) := rfl
  unfold enroll
  rw [hmax, hlive, hcustody, harena, hb]
  split
  · rfl
  · rcases begin p.custody with ⟨e | c, l⟩
    · rfl
    · have hd (displaced : Option (Computation σ)) :
          (displaced.map (Computation.map f)).bind (·.binding) = displaced.bind (·.binding) := by
        cases displaced <;> simp
      simp only [Except.map, Arena.takeRoom_map, Arena.insert_map, hd, Custody.settle_veil]
      rfl

variable (h : p.service.library.Veils veiled f)

include h

theorem call_veil (i : Handle) (call : Call) :
    ((p.veil veiled f).call i call.veil).1.veil call.verifies =
        (p.call i call).1.veil call.verifies ∧
      ((p.veil veiled f).call i call.veil).2 = (p.call i call).2.veil veiled f := by
  have harena : (p.veil veiled f).arena = p.arena.map (Computation.map f) := rfl
  have hcustody : (p.veil veiled f).custody = p.custody.veil := rfl
  have hlibrary : (p.veil veiled f).service.library = veiled := rfl
  unfold Pool.call
  rw [harena, Arena.find_map]
  cases p.arena.find i with
  | unknown | retired =>
    refine ⟨?_, rfl⟩
    cases call <;> simp [Finding.map, Call.veil, Call.refuse, Call.operation, Result.veil]
  | here c =>
    obtain ⟨result, after⟩ := Computation.run_perform_veil h c call
    simp only [Finding.map, hlibrary, after, Computation.phase_map, Computation.binding_map,
      hcustody, Custody.settle_veil]
    refine ⟨result, ?_⟩
    cases call with
    | feed data offset length =>
      simp only [Call.veil, Arena.fill_map, Arena.retire_map]
      split <;> rfl
    | finalize | finalizeInto | verify | discard =>
      simp only [Call.veil, Arena.vacate_map]
      rfl

theorem perform_veil (a : Action) :
    ((p.veil veiled f).perform a.veil).1.veil a.verifies = (p.perform a).1.veil a.verifies ∧
      ((p.veil veiled f).perform a.veil).2 = (p.perform a).2.veil veiled f := by
  have hcustody : (p.veil veiled f).custody = p.custody.veil := rfl
  have hservice : (p.veil veiled f).service = p.service.veil veiled := rfl
  have hon (n : Nat) : (p.service.on n).library.Veils veiled f := h
  cases a with
  | openDigest a n =>
    have ho : (p.veil veiled f).openDigest a n = _ :=
      enroll_veil (fun custody => ((p.service.on n).beginDigest a, custody)) _
        (Prod.ext (Service.beginDigest_veil (hon n) a) rfl)
    simp only [Action.veil, perform, ho]
    exact ⟨rfl, rfl⟩
  | openMac a handle n =>
    have ho : (p.veil veiled f).openMac a handle n = _ :=
      enroll_veil _ _ (Service.beginMacFromHandle_veil (hon n) a handle p.custody)
    simp only [Action.veil, perform, ho]
    exact ⟨rfl, rfl⟩
  | call i call =>
    obtain ⟨result, after⟩ := call_veil h i call
    exact ⟨congrArg Reply.result result, after⟩
  | insertKey bytes hardware =>
    simp only [Action.veil, perform, hcustody, Custody.insert?_veil]
    cases p.custody.insert? bytes hardware <;> exact ⟨rfl, rfl⟩
  | removeKey handle =>
    simp only [Action.veil, perform, hcustody, Custody.remove?_veil]
    cases p.custody.remove? handle <;> exact ⟨rfl, rfl⟩
  | outstanding =>
    simp only [Action.veil, perform, hcustody, Custody.outstanding?_veil]
    cases p.custody.outstanding? <;> exact ⟨rfl, rfl⟩
  | digest a data n =>
    refine ⟨?_, rfl⟩
    simp only [Action.veil, perform, hservice, Service.on_veil, Service.digest_veil (hon n),
      Reply.veil]
    cases (p.service.on n).digest a data <;> simp [Except.map]

end Pool

/-- What can be told of a computation without its output. -/
structure Computation.Look where
  algorithm : Algorithm
  phase : Phase
  processed : UInt64
  keyed : Bool
  restricted : Bool
  text : String

def Computation.look (c : Computation σ) : Look where
  algorithm := c.algorithm
  phase := c.phase
  processed := c.processed
  keyed := c.isKeyed
  restricted := c.usesRestrictedKey
  text := c.describe

@[simp]
theorem Computation.look_map (f : σ → τ) (c : Computation σ) : (c.map f).look = c.look := by
  simp only [look, algorithm_map, phase_map, processed_map, isKeyed_map, usesRestrictedKey_map,
    describe_map]

/-- What can be told of a key without its bytes. -/
structure Material.Look where
  length : Nat
  usage : Usage
  references : Nat
  text : String

def Material.look (m : Material) : Look where
  length := m.bytes.length
  usage := m.usage
  references := m.references
  text := m.describe

@[simp]
theorem Material.look_veil (m : Material) : m.veil.look = m.look := by
  simp only [look, describe_veil, Look.mk.injEq, and_true]
  exact ⟨m.bytes.length_veil, rfl, rfl⟩

namespace World

/-- What can be told of a world: of the keys and the computations that the caller has, by number, and
of those in the pools, by handle. -/
structure Look where
  keys : List (Option (Key × Option Material.Look))
  computations : List (Option Computation.Look)
  pools : List (Place × Arena Computation.Look)

def look (w : World σ) : Look where
  keys := w.session.keys.toList.map (Option.map fun key =>
    (key, (w.session.vault.find? key).map Material.look))
  computations := w.session.computations.toList.map (Option.map Computation.look)
  pools := w.hosts.toList.map fun host => (host.place, host.arena.map Computation.look)

def Action.veil : Action → Action
  | .session a => .session a.veil
  | .pool number a => .pool number a.veil

def Action.verifies : Action → Bool
  | .session a => a.verifies
  | .pool _ a => a.verifies

/-- An answer without the bytes in it, and without the outcome of a comparison of tags. -/
def Reply.veil (compared : Bool) : Reply → Reply
  | .session r => .session (r.veil compared)
  | .pool r => .pool (r.veil compared)
  | .absent => .absent

/-- The world without what is in its keys and messages. -/
def veil (w : World σ) (veiled : Library τ) (f : σ → τ) : World τ where
  session := w.session.veil veiled f
  hosts := w.hosts.map fun host =>
    { place := host.place, arena := host.arena.map (Computation.map f) }

theorem verifies_veil (a : Action) : a.veil.verifies = a.verifies := by
  cases a with
  | session a =>
    cases a with
    | call number c => cases c <;> rfl
    | _ => rfl
  | pool number a =>
    cases a with
    | call h c => cases c <;> rfl
    | _ => rfl

theorem look_veil (w : World σ) (veiled : Library τ) (f : σ → τ) :
    (w.veil veiled f).look = w.look := by
  have hlook : Computation.look ∘ Computation.map f = (Computation.look : Computation σ → _) :=
    funext fun c => c.look_map f
  have hmaterial : Material.look ∘ Material.veil = Material.look := funext Material.look_veil
  simp only [look, veil, Session.veil, Vault.find?_veil, Option.map_map, hmaterial, hlook,
    Array.toList_map, List.map_map, Function.comp_def, Arena.map_map]

variable {w : World σ} {veiled : Library τ} {f : σ → τ}

theorem keep_veil (w : World σ) (number : Nat) (host : Host σ) (q : Pool σ) :
    (w.veil veiled f).keep number ⟨host.place, host.arena.map (Computation.map f)⟩
      (q.veil veiled f) = (w.keep number host q).veil veiled f := by
  have hs := w.session.keep_veil veiled f host.place q.custody
  simp only [keep, veil, Pool.veil, hs, Array.map_setIfInBounds]

/-- What is done in a world has nothing to do with the bytes that are kept back. -/
theorem perform_veil (h : w.session.service.library.Veils veiled f) (a : Action) :
    ((w.veil veiled f).perform a.veil).1.veil a.verifies = (w.perform a).1.veil a.verifies ∧
      ((w.veil veiled f).perform a.veil).2 = (w.perform a).2.veil veiled f := by
  cases a with
  | session a =>
    obtain ⟨reply, after⟩ := Session.perform_veil h a
    exact ⟨congrArg Reply.session reply, congrArg (fun session => (⟨session, _⟩ : World τ)) after⟩
  | pool number a =>
    have hhosts : (w.veil veiled f).hosts[number]? = w.hosts[number]?.map fun host =>
        { place := host.place, arena := host.arena.map (Computation.map f) } := by
      simp [veil]
    cases hh : w.hosts[number]? with
    | none =>
      rw [hh] at hhosts
      simp [perform, perform?, Action.veil, hhosts, hh]
    | some host =>
      rw [hh, Option.map_some] at hhosts
      have hpool : (w.veil veiled f).pool? ⟨host.place, host.arena.map (Computation.map f)⟩ =
          (w.pool? host).map fun p => p.veil veiled f := by
        simp only [pool?, veil, Session.custody?_veil]
        cases w.session.custody? host.place <;> rfl
      cases hp : w.pool? host with
      | none =>
        rw [hp] at hpool
        simp [perform, perform?, Action.veil, hhosts, hh, hp, hpool]
      | some p =>
        rw [hp, Option.map_some] at hpool
        obtain ⟨k, hk, rfl⟩ := Option.map_eq_some_iff.mp hp
        obtain ⟨reply, after⟩ := Pool.perform_veil (p := ⟨w.session.service, k, host.arena⟩) h a
        simp only [perform, perform?, Action.veil, hhosts, hh, hp, hpool, Option.bind_eq_bind,
          Option.bind_some, Option.pure_def, Option.getD_some, after]
        exact ⟨congrArg Reply.pool reply, keep_veil w number host _⟩

/-- All that a caller gets to see in a run, under one policy or another at each step, but for the
bytes in the answers and the outcomes of comparisons of tags. -/
def observe (w : World σ) : List (Policy × Action) → List (Reply × Look)
  | [] => []
  | (policy, a) :: rest =>
    let (r, v) := (w.under policy).perform a
    (r.veil a.verifies, v.look) :: v.observe rest

theorem observe_veil (h : w.session.service.library.Veils veiled f)
    (steps : List (Policy × Action)) :
    (w.veil veiled f).observe (steps.map fun step => (step.1, step.2.veil)) = w.observe steps := by
  induction steps generalizing w with
  | nil => rfl
  | cons step rest ih =>
    obtain ⟨policy, a⟩ := step
    have hunder : (w.veil veiled f).under policy = (w.under policy).veil veiled f := rfl
    have hlibrary : (w.under policy).session.service.library.Veils veiled f := h
    obtain ⟨reply, after⟩ := perform_veil hlibrary a
    have hnext : ((w.under policy).perform a).2.session.service.library.Veils veiled f := by
      rw [service_perform]
      exact hlibrary
    simp only [List.map_cons, observe, hunder, verifies_veil, reply, after, look_veil, ih hnext]

/-- Keys and messages of the software library show in nothing but outputs. Two runs that take the same
steps, under whatever policies, with other bytes of the same lengths in keys, messages, buffers and
tags, get the same answers and see the same all along, but for the bytes that are given out and for
whether a tag is right. -/
theorem keys_and_messages_stay_veiled (policy : Policy) (stores : Nat) (places : List Place)
    (xs ys : List (Policy × Action))
    (same : (xs.map fun step => (step.1, step.2.veil)) = ys.map fun step => (step.1, step.2.veil)) :
    (start { library := .software, policy } stores places).observe xs =
      (start { library := .software, policy } stores places).observe ys := by
  rw [← observe_veil Library.software_veils xs, same, observe_veil Library.software_veils ys]

/-- Two keys and messages of the same lengths, and what can be read back of the keys. -/
theorem keys_and_messages_of_same_lengths :
    let run (key message tag : Bytes) : List (Policy × Action) :=
      [({}, .session (.key key .any)),
        ({ minKeyLen := 3 }, .session (.beginMac .hmacSha256 0 .direct 0)),
        ({}, .session (.insert (.store 0) key false)), ({}, .pool 0 (.openMac .blake2bMac 1 0)),
        ({}, .session (.beginMac .hmacSha256 0 .direct 0)), ({}, .session (.call 0 (.feed message 1 2))),
        ({}, .session (.call 0 (.verify tag))), ({}, .session (.inspectKey 0))]
    let init := start { library := .software, policy := {} } 1 [.store 0]
    let read (key : Bytes) : Reply :=
      ((init.perform (.session (.key key .any))).2.perform (.session (.inspectKey 0))).1
    init.observe (run [1, 2] [3, 4, 5] [6]) = init.observe (run [7, 8] [9, 10, 11] [12]) ∧
    read [1, 2] = .session (.material ⟨[1, 2], .any, 1⟩) ∧
    read [7, 8] = .session (.material ⟨[7, 8], .any, 1⟩) := by
  intro run init read
  exact ⟨keys_and_messages_stay_veiled {} 1 [.store 0] _ _ (by rfl), by rfl, by rfl⟩

end World

end StreamDigest
