import StreamDigest.Proofs.Account
import StreamDigest.Proofs.Pool
import StreamDigest.Proofs.Update

namespace StreamDigest

namespace Pool

variable {σ : Type} {p q : Pool σ} {a : Action} {r : Reply} {handed elsewhere : List Key}
  {s : Service σ} {k : Custody}

def boundBy (c : Computation σ) : List Key :=
  Binding.held c.binding

/-- The keys that the computations of a pool hold on to. -/
def boundKeys (p : Pool σ) : List Key :=
  p.arena.contents.flatMap boundBy

/-- The signing copy that an opening asks for and gets. -/
def copyBegun (s : Service σ) (k : Custody) : Action → Option Key
  | .openMac a handle n => (s.on n).copyMadeFromHandle a handle k
  | _ => none

/-- The signing copy that an action asks for and gets. Without room it does not come to that. -/
def copyMade (p : Pool σ) (a : Action) : Option Key :=
  if p.service.policy.maxLive.toNat ≤ p.live then none else copyBegun p.service p.custody a

theorem begin_turn {begin : Custody → Except Fault (Computation σ) × Custody}
    (hb : a.begin? s = some begin) (h : k.Account handed elsewhere) :
    Custody.Turn k (begin k).2 handed (k.issued (copyBegun s k a))
      (Service.heldBy (begin k).1 ++ elsewhere) := by
  cases a with
  | openDigest a n =>
    cases hb
    have hheld : Service.heldBy ((s.on n).beginDigest a) = [] := by
      cases hd : (s.on n).beginDigest a with
      | error e => rfl
      | ok c => rw [Service.heldBy, Service.binding_beginDigest hd]; rfl
    have hcopy : copyBegun s k (.openDigest a n) = none := rfl
    rw [hheld, hcopy, Custody.issued_none]
    exact h.stay
  | openMac a handle n =>
    cases hb
    exact (s.on n).beginMacFromHandle_turn a handle h
  | call | insertKey | removeKey | outstanding | digest => cases hb

/-- What every step does to the books of a pool's keys, when there are the references `elsewhere`
besides those of its computations. -/
theorem Step.turn (st : Step p a r q) (range : p.arena.FreeInRange)
    (h : p.custody.Account handed (elsewhere ++ p.boundKeys)) :
    Custody.Turn p.custody q.custody handed (p.custody.issued (p.copyMade a))
      (elsewhere ++ q.boundKeys) := by
  have quiet {l : Custody} {refs : List Key} (hn : copyBegun p.service p.custody a = none)
      (t : Custody.Turn p.custody l handed [] refs) :
      Custody.Turn p.custody l handed (p.custody.issued (p.copyMade a)) refs := by
    rw [copyMade, hn, ite_self, Custody.issued_none]
    exact t
  cases st with
  | full hb hfull =>
    rw [copyMade, if_pos hfull, Custody.issued_none]
    exact h.stay
  | failed hb room he =>
    have t := begin_turn hb h
    rw [he] at t
    rw [copyMade, if_neg (by omega)]
    exact t
  | @opened _ begin c custody hb room hc =>
    have t := begin_turn hb h
    rw [hc] at t
    rw [copyMade, if_neg (by omega)]
    obtain ⟨rest, hbefore, hafter⟩ := Arena.insert_contents (s := p.arena.takeRoom) range c
    -- The element that was displaced lets go of its key; without more than all indices in use
    -- there is none.
    generalize (p.arena.takeRoom.insert c).2.1 = displaced at hbefore ⊢
    have hout : p.boundKeys.Perm (Binding.held (displaced.bind (·.binding)) ++
        rest.flatMap boundBy) := by
      refine (hbefore.flatMap_right boundBy).trans (.of_eq ?_)
      cases displaced <;> simp [boundBy]
    have hin : (rest.flatMap boundBy ++ Service.heldBy (.ok c)).Perm
        ((p.arena.takeRoom.insert c).2.2.contents.flatMap boundBy) :=
      List.perm_append_comm.trans (hafter.flatMap_right boundBy).symm
    have hmove : (Service.heldBy (.ok c) ++ (elsewhere ++ p.boundKeys)).Perm
        (Binding.held (displaced.bind (·.binding)) ++
          (elsewhere ++ (rest.flatMap boundBy ++ Service.heldBy (.ok c)))) := by
      apply List.perm_iff_count.mpr
      intro key
      have hcount := hout.count_eq key
      simp only [List.count_append] at hcount ⊢
      omega
    have both := (t.perm hmove).trans ((t.perm hmove).account.settle (.inr rfl))
    exact both.perm (hin.append_left elsewhere)
  | unknown | retired => exact quiet rfl h.stay
  | @kept i call c r after hf hp live =>
    obtain ⟨rest, hbefore, hafter⟩ := Arena.fill_contents (b := after) hf
    have hb := Computation.binding_perform p.service.library c call
    rw [hp] at hb
    have t := (h.perm (perm_out (hbefore.flatMap_right boundBy))).settle hb
    exact quiet rfl (t.perm (perm_out (hafter.flatMap_right boundBy)).symm)
  | @ended i call c r after hf hp gone =>
    have hbefore := Arena.vacate_contents hf
    have hb := Computation.binding_perform p.service.library c call
    rw [hp] at hb
    have t := (h.perm (perm_out (hbefore.flatMap_right boundBy))).settle hb
    rw [Computation.binding_finalized gone] at t ⊢
    exact quiet rfl t
  | inserted hi => exact quiet rfl (h.insert hi)
  | removed hr => exact quiet rfl (h.remove hr)
  | counted ho => exact quiet rfl (h.outstanding ho)
  | storeless hs hd =>
    refine quiet ?_ h.stay
    cases a <;> first | rfl | cases hs
  | digested => exact quiet rfl h.stay

theorem Step.freeInRange (st : Step p a r q) (range : p.arena.FreeInRange) :
    q.arena.FreeInRange := by
  cases st with
  | opened hb room hc => exact Arena.freeInRange_insert (s := p.arena.takeRoom) range _
  | kept hf hp live => exact Arena.freeInRange_fill range _
  | ended hf hp gone => exact Arena.freeInRange_vacate range hf
  | full | failed | unknown | retired | inserted | removed | counted | storeless | digested =>
    exact range

/-- A computation in a pool had its key before, or has just begun with it. -/
theorem Step.binding (st : Step p a r q) (range : p.arena.FreeInRange) {d : Computation σ}
    (hd : d ∈ q.arena.contents) {b : Binding} (hb : d.binding = some b) :
    (∃ c ∈ p.arena.contents, c.binding = some b) ∨
      ∃ begin k, a.begin? p.service = some begin ∧ begin p.custody = (.ok d, k) ∧
        p.live < p.service.policy.maxLive.toNat := by
  cases st with
  | @opened _ begin c custody hbegin room hc =>
    obtain ⟨rest, hbefore, hafter⟩ := Arena.insert_contents (s := p.arena.takeRoom) range c
    rcases List.mem_cons.mp (hafter.mem_iff.mp hd) with rfl | hm
    · exact .inr ⟨begin, custody, hbegin, hc, room⟩
    · exact .inl ⟨d, hbefore.mem_iff.mpr (List.mem_append_right _ hm), hb⟩
  | @kept i call c r after hf hp live =>
    obtain ⟨rest, hbefore, hafter⟩ := Arena.fill_contents (b := after) hf
    rcases List.mem_cons.mp (hafter.mem_iff.mp hd) with rfl | hm
    · have hbind := Computation.binding_perform p.service.library c call
      rw [hp] at hbind
      rcases hbind with hbind | hbind
      · exact .inl ⟨c, Arena.mem_contents_of_find hf, hbind.symm.trans hb⟩
      · cases hbind.symm.trans hb
    · exact .inl ⟨d, hbefore.mem_iff.mpr (List.mem_cons_of_mem _ hm), hb⟩
  | ended hf hp gone =>
    exact .inl ⟨d, (Arena.vacate_contents hf).mem_iff.mpr (List.mem_cons_of_mem _ hd), hb⟩
  | full | failed | unknown | retired | inserted | removed | counted | storeless | digested =>
    exact .inl ⟨d, hd, hb⟩

end Pool

end StreamDigest
