import StreamDigest.Library

namespace StreamDigest

/-- What a call asks of the library: nothing, or one request whose result decides the rest. -/
inductive Exchange (σ α : Type)
  | answer (a : α)
  | digest (occasion : Nat) (a : Algorithm) (next : Except Failure σ → α)
  | mac (occasion : Nat) (a : Algorithm) (key : Bytes) (next : Except Failure σ → α)
  | absorb (primitive : σ) (data : Bytes) (next : Except Failure σ → α)
  | output (primitive : σ) (next : Except Failure Bytes → α)

inductive Request
  | digest (a : Algorithm)
  | mac (a : Algorithm) (key : Bytes)
  | absorb (data : Bytes)
  | output
  deriving DecidableEq, Repr

namespace Exchange

variable {σ α β : Type}

def map (f : α → β) : Exchange σ α → Exchange σ β
  | answer a => answer (f a)
  | digest n a next => digest n a (f ∘ next)
  | mac n a key next => mac n a key (f ∘ next)
  | absorb p data next => absorb p data (f ∘ next)
  | output p next => output p (f ∘ next)

def run (lib : Library σ) : Exchange σ α → α
  | answer a => a
  | digest n a next => next (lib.digest n a)
  | mac n a key next => next (lib.mac n a key)
  | absorb p data next => next (lib.absorb p data)
  | output p next => next (lib.output p)

def request : Exchange σ α → Option Request
  | answer _ => none
  | digest _ a _ => some (.digest a)
  | mac _ a key _ => some (.mac a key)
  | absorb _ data _ => some (.absorb data)
  | output _ _ => some .output

/-- Whatever the library returns, what comes of the exchange has the property. -/
def Always (P : α → Prop) : Exchange σ α → Prop
  | answer a => P a
  | digest _ _ next | mac _ _ _ next | absorb _ _ next => ∀ r, P (next r)
  | output _ next => ∀ r, P (next r)

/-- The exchange, with the proof that what comes of it has the property. -/
def attach {P : α → Prop} : (x : Exchange σ α) → x.Always P → Exchange σ {a // P a}
  | answer a, h => answer ⟨a, h⟩
  | digest n a next, h => digest n a fun r => ⟨next r, h r⟩
  | mac n a key next, h => mac n a key fun r => ⟨next r, h r⟩
  | absorb p data next, h => absorb p data fun r => ⟨next r, h r⟩
  | output p next, h => output p fun r => ⟨next r, h r⟩

@[simp]
theorem run_map (f : α → β) (lib : Library σ) (x : Exchange σ α) :
    (x.map f).run lib = f (x.run lib) := by
  cases x <;> rfl

@[simp]
theorem request_map (f : α → β) (x : Exchange σ α) : (x.map f).request = x.request := by
  cases x <;> rfl

theorem map_map {γ : Type} (f : α → β) (g : β → γ) (x : Exchange σ α) :
    (x.map f).map g = x.map (g ∘ f) := by
  cases x <;> rfl

theorem map_val_attach {P : α → Prop} (x : Exchange σ α) (h : x.Always P) :
    (x.attach h).map Subtype.val = x := by
  cases x <;> rfl

/-- What is attached to may be put into another form that it can be told from. -/
theorem map_attach_eq {P : α → Prop} {x : Exchange σ α} (h : x.Always P) {f : β → α}
    {g : {a // P a} → β} (hg : ∀ b (hb : P (f b)), g ⟨f b, hb⟩ = b) {y : Exchange σ β}
    (hy : y.map f = x) : (x.attach h).map g = y := by
  subst hy
  cases y with
  | answer b => exact congrArg answer (hg b h)
  | digest n a next => exact congrArg (digest n a) (funext fun r => hg _ (h r))
  | mac n a key next => exact congrArg (mac n a key) (funext fun r => hg _ (h r))
  | absorb p data next => exact congrArg (absorb p data) (funext fun r => hg _ (h r))
  | output p next => exact congrArg (output p) (funext fun r => hg _ (h r))

theorem Always.map {P : α → Prop} {Q : β → Prop} {f : α → β} {x : Exchange σ α} (h : x.Always P)
    (hf : ∀ a, P a → Q (f a)) : (x.map f).Always Q := by
  cases x with
  | answer a => exact hf a h
  | digest | mac | absorb | output => exact fun r => hf _ (h r)

end Exchange

end StreamDigest
