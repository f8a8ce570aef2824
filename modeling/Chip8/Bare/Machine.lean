import Chip8.Execution.Machine

-- The machine without guarantees: plain arrays and words instead of types that rule out what must not
-- happen, and work that is done in place.

namespace Chip8
namespace Bare

@[ext]
structure State where
  v : Vector UInt8 16
  i : UInt16
  pc : UInt16
  slots : Vector UInt16 16
  depth : Nat
  memory : Vector UInt8 4096
  -- A pixel is a byte, and it is lit if the byte is 1.
  cells : Vector UInt8 2048
  keys : Vector Bool 16
  delay : UInt8
  sound : UInt8
  phase : UInt32
  waiting : Option Nat
  redraw : Bool
deriving DecidableEq

@[ext]
structure Machine where
  state : State
  config : Config
  generator : Generator
deriving DecidableEq

-- What comes of work on a machine: a result, the machine and the events on the way.
abbrev Yield (α : Type) : Type :=
  Except Fault α × Machine × List Event

-- Work on a machine in place. What was written before a refusal stays written, and what was reported stays
-- reported. There is no outcome at all if an index or a number leaves its bounds.
def Effect (α : Type) : Type :=
  Machine → Option (Yield α)

namespace Effect

variable {α β : Type}

-- The events of what was done before.
def after (es : List Event) : Option (Yield α) → Option (Yield α) :=
  Option.map fun (r, m, es') => (r, m, es ++ es')

instance : Monad Effect where
  pure a m := some (.ok a, m, [])
  bind e k m :=
    match e m with
    | none => none
    | some (.error f, m', es) => some (.error f, m', es)
    | some (.ok a, m', es) => after es (k a m')

def get : Effect State :=
  fun m => some (.ok m.state, m, [])

def config : Effect Config :=
  fun m => some (.ok m.config, m, [])

def modify (g : State → State) : Effect Unit :=
  fun m => some (.ok (), { m with state := g m.state }, [])

def nextByte : Effect UInt8 :=
  fun m => some (.ok m.generator.byte, { m with generator := m.generator.next }, [])

def report (e : Event) : Effect Unit :=
  fun m => some (.ok (), m, [e])

def refuse (f : Fault) : Effect α :=
  fun m => some (.error f, m, [])

def demand : Option α → Effect α
  | some a => fun m => some (.ok a, m, [])
  | none => fun _ => none

-- Writes once more if `e` is refused, and passes the refusal on.
def undo (e : Effect α) (g : State → State) : Effect α := fun m =>
  match e m with
  | some (.error f, m', es) => some (.error f, { m' with state := g m'.state }, es)
  | r => r

-- Reports a refusal and passes it on.
def reporting (e : Effect α) (g : Fault → Event) : Effect α := fun m =>
  match e m with
  | some (.error f, m', es) => some (.error f, m', es ++ [g f])
  | r => r

variable {m : Machine}

@[simp]
theorem after_nil (r : Option (Yield α)) : after [] r = r := by
  cases r <;> rfl

@[simp]
theorem after_some (es es' : List Event) (r : Except Fault α) :
    after es (some (r, m, es')) = some (r, m, es ++ es') := rfl

@[simp]
theorem bind_apply (e : Effect α) (k : α → Effect β) :
    (e >>= k) m =
      match e m with
      | none => none
      | some (.error f, m', es) => some (.error f, m', es)
      | some (.ok a, m', es) => after es (k a m') := rfl

@[simp]
theorem pure_apply (a : α) : (pure a : Effect α) m = some (.ok a, m, []) := rfl

@[simp]
theorem get_apply : get m = some (.ok m.state, m, []) := rfl

@[simp]
theorem config_apply : config m = some (.ok m.config, m, []) := rfl

@[simp]
theorem modify_apply (g : State → State) :
    modify g m = some (.ok (), { m with state := g m.state }, []) := rfl

@[simp]
theorem nextByte_apply :
    nextByte m = some (.ok m.generator.byte, { m with generator := m.generator.next }, []) := rfl

@[simp]
theorem report_apply (e : Event) : report e m = some (.ok (), m, [e]) := rfl

@[simp]
theorem refuse_apply (f : Fault) : (refuse f : Effect α) m = some (.error f, m, []) := rfl

@[simp]
theorem demand_some (a : α) : demand (some a) m = some (.ok a, m, []) := rfl

@[simp]
theorem undo_apply (e : Effect α) (g : State → State) :
    e.undo g m =
      match e m with
      | some (.error f, m', es) => some (.error f, { m' with state := g m'.state }, es)
      | r => r := rfl

@[simp]
theorem reporting_apply (e : Effect α) (g : Fault → Event) :
    e.reporting g m =
      match e m with
      | some (.error f, m', es) => some (.error f, m', es ++ [g f])
      | r => r := rfl

end Effect

-- Sums, differences and products that have to stay within a word of the given size.
def sum (size a b : Nat) : Option Nat :=
  if a + b < size then some (a + b) else none

def difference (a b : Nat) : Option Nat :=
  if b ≤ a then some (a - b) else none

def product (size a b : Nat) : Option Nat :=
  if a * b < size then some (a * b) else none

variable {α : Type} {n : Nat}

-- An array with one place overwritten.
def put (xs : Vector α n) (k : Nat) (a : α) : Option (Vector α n) :=
  if k < n then some (xs.setIfInBounds k a) else none

-- The values of an array from `start` on.
def slice (xs : Vector α n) (start : Nat) : Nat → Option (List α)
  | 0 => some []
  | length + 1 => do
    let a ← xs[start]?
    let as ← slice xs (start + 1) length
    return a :: as

-- An array with the places from `start` on overwritten.
def overwrite (xs : Vector α n) (start : Nat) : List α → Option (Vector α n)
  | [] => some xs
  | a :: as => do
    let xs' ← put xs start a
    overwrite xs' (start + 1) as

end Bare
end Chip8
