namespace StreamDigest

/-- A finite set of names, in increasing order. -/
structure NameSet where
  names : List String
  sorted : names.Pairwise (· < ·)
  deriving DecidableEq, Repr

namespace NameSet

def place (name : String) : List String → List String
  | [] => [name]
  | x :: xs => if name < x then name :: x :: xs else if name = x then x :: xs else x :: place name xs

theorem mem_place {name y : String} {xs : List String} :
    y ∈ place name xs ↔ y = name ∨ y ∈ xs := by
  induction xs with
  | nil => simp [place]
  | cons x xs ih => grind [place]

theorem place_sorted {name : String} {xs : List String} (h : xs.Pairwise (· < ·)) :
    (place name xs).Pairwise (· < ·) := by
  induction xs with
  | nil => simp [place]
  | cons x xs ih =>
    obtain ⟨hx, hs⟩ := List.pairwise_cons.mp h
    simp only [place]
    split
    · next lt =>
      refine List.pairwise_cons.mpr ⟨?_, h⟩
      intro y hy
      rcases List.mem_cons.mp hy with rfl | hy
      · exact lt
      · exact String.lt_trans lt (hx y hy)
    · next ge =>
      split
      · exact h
      · next ne =>
        have lt : x < name := by
          rcases Decidable.em (x < name) with lt | nlt
          · exact lt
          · exact absurd (String.le_antisymm (String.not_lt.mp nlt) (String.not_lt.mp ge)) ne
        refine List.pairwise_cons.mpr ⟨?_, ih hs⟩
        intro y hy
        rcases mem_place.mp hy with rfl | hy
        · exact lt
        · exact hx y hy

def empty : NameSet where
  names := []
  sorted := .nil

def insert (s : NameSet) (name : String) : NameSet where
  names := place name s.names
  sorted := place_sorted s.sorted

def ofList (names : List String) : NameSet :=
  names.foldl insert empty

instance : Membership String NameSet where
  mem s name := name ∈ s.names

theorem mem_insert {s : NameSet} {name y : String} : y ∈ s.insert name ↔ y = name ∨ y ∈ s :=
  mem_place

theorem mem_ofList {names : List String} {y : String} : y ∈ ofList names ↔ y ∈ names := by
  have step (s : NameSet) : y ∈ names.foldl insert s ↔ y ∈ names ∨ y ∈ s := by
    induction names generalizing s with
    | nil => simp
    | cons x xs ih =>
      rw [List.foldl_cons, ih, mem_insert, List.mem_cons]
      grind
  rw [ofList, step]
  exact ⟨fun h => h.resolve_right (List.not_mem_nil), .inl⟩

end NameSet

end StreamDigest
