import Mathlib

namespace StreamDigest

variable {α : Type} {n : Nat} {x : α}

/-- What a list and the list with another element at one place have in common. -/
theorem exists_perm_set {l : List α} (h : l[n]? = some x) (y : α) :
    ∃ rest, l.Perm (x :: rest) ∧ (l.set n y).Perm (y :: rest) := by
  obtain ⟨hn, rfl⟩ := List.getElem?_eq_some_iff.mp h
  exact ⟨l.eraseIdx n, (List.getElem_cons_eraseIdx_perm hn).symm, List.set_perm_cons_eraseIdx hn y⟩

theorem exists_perm_modify {l : List α} (h : l[n]? = some x) (f : α → α) :
    ∃ rest, l.Perm (x :: rest) ∧ (l.modify n f).Perm (f x :: rest) := by
  obtain ⟨rest, hl, hs⟩ := exists_perm_set h (f x)
  have he : l.modify n f = l.set n (f x) := by
    obtain ⟨hn, rfl⟩ := List.getElem?_eq_some_iff.mp h
    apply List.ext_getElem?
    intro i
    by_cases hi : n = i
    · subst hi
      simp [hn]
    · simp [hi]
  exact ⟨rest, hl, he ▸ hs⟩

theorem exists_perm_array_set {a : Array α} (h : a[n]? = some x) (y : α) :
    ∃ rest, a.toList.Perm (x :: rest) ∧ (a.setIfInBounds n y).toList.Perm (y :: rest) := by
  rw [Array.toList_setIfInBounds]
  exact exists_perm_set (by simpa using h) y

theorem exists_perm_array_modify {a : Array α} (h : a[n]? = some x) (f : α → α) :
    ∃ rest, a.toList.Perm (x :: rest) ∧ (a.modify n f).toList.Perm (f x :: rest) := by
  rw [Array.toList_modify]
  exact exists_perm_modify (by simpa using h) f

theorem setIfInBounds_self {a : Array α} (h : a[n]? = some x) : a.setIfInBounds n x = a := by
  obtain ⟨hn, rfl⟩ := Array.getElem?_eq_some_iff.mp h
  rw [Array.setIfInBounds, dif_pos hn, Array.set_getElem_self]

/-- What is taken out of the back of a list may stand in front. -/
theorem perm_out {front all part rest : List α} (h : all.Perm (part ++ rest)) :
    (front ++ all).Perm (part ++ (front ++ rest)) := by
  refine (h.append_left front).trans ?_
  rw [← List.append_assoc, ← List.append_assoc]
  exact List.perm_append_comm.append_right rest

end StreamDigest
