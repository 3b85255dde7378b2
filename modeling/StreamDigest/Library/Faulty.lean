import StreamDigest.Library

namespace StreamDigest

/-- Where a library is made to fail. -/
structure FaultPlan where
  creation : Option Failure := none
  absorption : Option Failure := none
  /-- How many absorptions succeed before `absorption` strikes. -/
  tolerated : Nat := 0
  output : Option Failure := none
  /-- The length that every output is cut or filled up to. -/
  resized : Option Nat := none

def Bytes.resize (b : Bytes) (n : Nat) : Bytes :=
  b.take n ++ zeros (n - b.length)

namespace FaultPlan

variable {σ : Type}

def create (p : FaultPlan) (created : Except Failure σ) : Except Failure (σ × Nat) := do
  let s ← created
  match p.creation with
  | some e => .error e
  | none => .ok (s, 0)

def absorb (p : FaultPlan) (lib : Library σ) (s : σ × Nat) (data : Bytes) :
    Except Failure (σ × Nat) :=
  match p.absorption with
  | some e => if p.tolerated ≤ s.2 then .error e else next
  | none => next
where
  next := (lib.absorb s.1 data).map fun t => (t, s.2 + 1)

def finish (p : FaultPlan) (lib : Library σ) (s : σ × Nat) : Except Failure Bytes :=
  match p.output with
  | some e => .error e
  | none => (lib.output s.1).map fun b => (p.resized.map b.resize).getD b

end FaultPlan

/-- A library around `lib` that fails as planned; it counts the absorptions of each computation. -/
def Library.faulty {σ : Type} (lib : Library σ) (p : FaultPlan) : Library (σ × Nat) where
  name := "faulty"
  digest occasion a := p.create (lib.digest occasion a)
  mac occasion a key := p.create (lib.mac occasion a key)
  absorb := p.absorb lib
  output := p.finish lib

end StreamDigest
