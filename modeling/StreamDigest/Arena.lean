namespace StreamDigest

structure Handle where
  index : UInt32
  generation : UInt32
  deriving DecidableEq, Repr

namespace Handle

/-- The generation in the upper half of a word and the index in the lower. -/
def toWord (h : Handle) : UInt64 :=
  h.generation.toUInt64 <<< 32 ||| h.index.toUInt64

def ofWord (w : UInt64) : Handle where
  index := w.toUInt32
  generation := (w >>> 32).toUInt32

def describe (h : Handle) : String :=
  s!"ContextHandle \x7b index: {h.index}, generation: {h.generation} \x7d"

end Handle

structure Slot (α : Type) where
  generation : UInt32 := 0
  content : Option α := none
  deriving DecidableEq, Repr

/-- Elements in slots that are used again. A slot's generation tells its successive elements
apart, up to its width; so do indices. -/
structure Arena (α : Type) where
  slots : Array (Slot α) := #[]
  free : List UInt32 := []
  live : Nat := 0
  deriving DecidableEq, Repr

/-- What a handle leads to. -/
inductive Finding (α : Type)
  | here (a : α)
  | retired
  | unknown
  deriving DecidableEq, Repr

namespace Arena

variable {α : Type}

/-- The slot to use next: the one that was freed last, or else a new one. -/
def reserve (s : Arena α) : UInt32 × Arena α :=
  match s.free with
  | index :: free => (index, { s with free })
  | [] => (s.slots.size.toUInt32, { s with slots := s.slots.push {} })

def slot (s : Arena α) (index : UInt32) : Slot α :=
  s.slots[index.toNat]?.getD {}

def fill (s : Arena α) (index : UInt32) (a : α) : Arena α :=
  { s with slots := s.slots.modify index.toNat fun slot => { slot with content := some a } }

/-- Takes up room for an element that is to come. -/
def takeRoom (s : Arena α) : Arena α :=
  { s with live := s.live + 1 }

/-- Gives back room that was taken up for an element that does not come. -/
def returnRoom (s : Arena α) : Arena α :=
  { s with live := s.live - 1 }

/-- Puts an element for which there is room into a slot; returns its handle and the element that was
there, if any. -/
def insert (s : Arena α) (a : α) : Handle × Option α × Arena α :=
  let (index, s) := s.reserve
  let slot := s.slot index
  ({ index, generation := slot.generation }, slot.content, s.fill index a)

def find (s : Arena α) (h : Handle) : Finding α :=
  match s.slots[h.index.toNat]? with
  | none => .unknown
  | some slot =>
    if h.generation < slot.generation then .retired
    else
      match slot.content with
      | some a => if h.generation = slot.generation then .here a else .unknown
      | none => .unknown

/-- Empties an occupied slot and moves it on to its next generation. -/
def vacate (s : Arena α) (index : UInt32) : Arena α :=
  if (s.slot index).content.isSome then {
    slots := s.slots.modify index.toNat fun slot =>
      { generation := slot.generation + 1, content := none }
    free := index :: s.free
    live := s.live - 1 }
  else s

/-- Vacates the slot of an element that is still under its handle. -/
def retire (s : Arena α) (h : Handle) : Arena α :=
  match s.find h with
  | .here _ => s.vacate h.index
  | _ => s

end Arena

end StreamDigest
