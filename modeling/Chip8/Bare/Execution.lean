import Chip8.Bare.Machine
import Chip8.Move

-- What the bare machine does, write by write, and what it reports on the way.

namespace Chip8
namespace Bare

-- Registers

def register (x : Nat) : Effect UInt8 := do
  let s ← .get
  .demand s.v[x]?

def setRegister (x : Nat) (byte : UInt8) : Effect Unit := do
  let s ← .get
  let v ← .demand (put s.v x byte)
  .modify fun s => { s with v }

def setFlag (b : Bool) : Effect Unit :=
  setRegister Register.flag (if b then 1 else 0)

-- The program counter

def moveOn : Effect Unit := do
  let s ← .get
  let pc ← .demand (sum UInt16.size s.pc.toNat 2)
  .modify fun s => { s with pc := .ofNat pc }

-- Where the instruction stands that `pc` has just moved past.
def origin : Effect UInt16 := do
  let s ← .get
  let pc ← .demand (difference s.pc.toNat 2)
  return .ofNat pc

def jumpTo (target : Nat) : Effect Unit :=
  .modify fun s => { s with pc := .ofNat target }

-- The stack

def push (address caller : UInt16) : Effect Unit := do
  let s ← .get
  if s.depth < 16 then
    let slots ← .demand (put s.slots s.depth address)
    let depth ← .demand (sum UInt64.size s.depth 1)
    .modify fun s => { s with slots, depth }
  else
    .refuse (.stackOverflow caller)

def pop (caller : UInt16) : Effect UInt16 := do
  let s ← .get
  if 0 < s.depth then
    let depth ← .demand (difference s.depth 1)
    .modify fun s => { s with depth }
    .demand s.slots[depth]?
  else
    .refuse (.stackUnderflow caller)

-- Memory

def inside (address length : Nat) : Effect Unit :=
  if address + length ≤ Memory.size then pure () else .refuse (.outOfBounds (max address Memory.size))

def read (address length : Nat) : Effect (List UInt8) := do
  inside address length
  let s ← .get
  .demand (slice s.memory address length)

def write (address : Nat) (bytes : List UInt8) : Effect Unit := do
  inside address bytes.length
  let s ← .get
  let memory ← .demand (overwrite s.memory address bytes)
  .modify fun s => { s with memory }

def fetch (address : UInt16) : Effect Opcode := do
  let bytes ← read address.toNat 2
  let high ← .demand bytes[0]?
  let low ← .demand bytes[1]?
  return .ofNat (256 * high.toNat + low.toNat)

-- The display

def place (x y : Nat) : Nat :=
  (y % Display.height) * Display.width + x % Display.width

-- The places that a sprite with its corner at `(x, y)` toggles, one entry for each set bit.
def places (x y : Nat) : List UInt8 → List Nat
  | [] => []
  | row :: rows =>
    (((List.range 8).filter (Display.rowBit row)).map fun c => place (x + c) y) ++
      places x (y + 1) rows

def toggleAll (cells : Vector UInt8 2048) (hit : Bool) :
    List Nat → Option (Vector UInt8 2048 × Bool)
  | [] => some (cells, hit)
  | k :: ks => do
    let cell ← cells[k]?
    let cells' ← put cells k (cell ^^^ 1)
    toggleAll cells' (hit || cell = 1) ks

def drawSprite (x y : UInt8) (sprite : List UInt8) : Effect Bool := do
  let s ← .get
  let (cells, hit) ← .demand (toggleAll s.cells false (places x.toNat y.toNat sprite))
  .modify fun s => { s with cells }
  return hit

-- The keypad

def lowestKey : Effect (Option (Fin 16)) := do
  let s ← .get
  return Keypad.lowest ⟨s.keys⟩

def isHeld (key : UInt8) : Effect Bool := do
  let s ← .get
  .demand s.keys[key.toNat % 16]?

def setHeld (key : UInt8) (held : Bool) : Effect Unit := do
  let s ← .get
  if key.toNat < 16 then
    let keys ← .demand (put s.keys key.toNat held)
    .modify fun s => { s with keys }
  else
    .refuse (.invalidKey key)

def deliver : List KeyChange → Effect Unit
  | [] => pure ()
  | c :: cs => do
    setHeld c.key c.held
    deliver cs

-- The timers

def tick : Effect Unit :=
  .modify fun s => { s with delay := Timers.countdown s.delay, sound := Timers.countdown s.sound }

-- The end of every cycle that is not refused.
def elapse : Effect Unit := do
  let config ← .config
  match config.timer with
  | .host => pure ()
  | .cycles divider =>
    let s ← .get
    let phase ← .demand (sum UInt32.size s.phase.toNat 1)
    .modify fun s => { s with phase := .ofNat phase }
    if max divider.toNat 1 ≤ phase then
      .modify fun s => { s with phase := 0 }
      tick
    else
      pure ()

-- Instructions. `pc` is already past the instruction.

def holds : Condition → Effect Bool
  | .byteEq x byte => do return (← register x) = byte
  | .byteNe x byte => do return (← register x) ≠ byte
  | .eq x y => do return (← register x) = (← register y)
  | .ne x y => do return (← register x) ≠ (← register y)
  | .held x => do isHeld (← register x)
  | .released x => do return !(← isHeld (← register x))

-- The sum of two registers is formed in 16 bits.
def combine (op : Alu) (a b : UInt8) : Option (UInt8 × Option Bool) :=
  match op with
  | .add => do
    let c ← sum UInt16.size a.toNat b.toNat
    return (.ofNat (c % 256), some (255 < c))
  | _ => some (op.apply a b)

def execute : Instruction → Effect Unit
  | .clear => .modify fun s => { s with cells := .replicate 2048 0, redraw := true }
  | .ret => do jumpTo (← pop (← origin)).toNat
  | .jump target => jumpTo target
  | .call target => do
    let caller ← origin
    let s ← .get
    push s.pc caller
    jumpTo target
  | .skip c => do if ← holds c then moveOn else pure ()
  | .loadByte x byte => setRegister x byte
  | .addByte x byte => do setRegister x ((← register x) + byte)
  | .alu op x y => do
    let (r, flag) ← .demand (combine op (← register x) (← register y))
    setRegister x r
    match flag with
    | none => pure ()
    | some b => setFlag b
  | .loadIndex target => .modify fun s => { s with i := .ofNat target }
  | .jumpOffset target => do
    jumpTo (← .demand (sum UInt16.size (← register Register.v0).toNat target))
  | .random x mask => do setRegister x ((← .nextByte) &&& mask)
  | .draw x y rows => do
    let left ← register x
    let top ← register y
    let s ← .get
    let sprite ← read s.i.toNat rows
    let hit ← drawSprite left top sprite
    setFlag hit
    .modify fun s => { s with redraw := true }
  | .readDelay x => do
    let s ← .get
    setRegister x s.delay
  | .awaitKey x => do
    match ← lowestKey with
    | some key => setRegister x (.ofNat key)
    | none =>
      .report (.parked x)
      .modify fun s => { s with waiting := some x }
  | .setDelay x => do
    let delay ← register x
    .modify fun s => { s with delay }
  | .setSound x => do
    let sound ← register x
    .modify fun s => { s with sound }
  -- The one sum that wraps.
  | .addIndex x => do
    let byte ← register x
    .modify fun s => { s with i := s.i + byte.toUInt16 }
  | .glyph x => do
    let offset ← .demand (product UInt16.size Font.glyphSize (← register x).toNat)
    let i ← .demand (sum UInt16.size Font.start offset)
    .modify fun s => { s with i := .ofNat i }
  | .decimal x => do
    let value ← register x
    let s ← .get
    write s.i.toNat (decimalDigits value)
  | .store x => do
    let s ← .get
    let count ← .demand (sum UInt64.size x 1)
    let bytes ← .demand (slice s.v 0 count)
    write s.i.toNat bytes
  | .restore x => do
    let s ← .get
    let count ← .demand (sum UInt64.size x 1)
    let bytes ← read s.i.toNat count
    let v ← .demand (overwrite s.v 0 bytes)
    .modify fun s => { s with v }

-- The operations are kept in a table with a place for each family.
def lookup (op : Opcode) : Option (Option Instruction) :=
  if op.family < 16 then some (Instruction.decode? op) else none

-- Cycles

def registerNumber (x : Nat) : Option Register :=
  if h : x < 16 then some ⟨x, h⟩ else none

def sampleKeys (number : Nat) : Effect Outcome := do
  let x ← .demand (registerNumber number)
  match ← lowestKey with
  | none => return .waiting x
  | some key =>
    setRegister x (.ofNat key)
    .modify fun s => { s with waiting := none }
    .report (.keyReceived x key)
    return .keyReceived x key

def skipUnknown (address : UInt16) (op : Opcode) : Effect Outcome := do
  let config ← .config
  if config.strict then
    (Effect.refuse (.unknownOpcode op address)).reporting (.failed address)
  else
    .report (.skipped address op)
    moveOn
    return .unknown address op

-- `pc` moves on before the instruction is executed, and back if the instruction is refused.
def perform (address : UInt16) (op : Opcode) (i : Instruction) : Effect Outcome := do
  moveOn
  ((execute i).undo fun s => { s with pc := address }).reporting (.failed address)
  let s ← .get
  .report (.executed address op i ⟨s.v⟩ s.i s.pc)
  return .executed address op i

def fetchExecute : Effect Outcome := do
  let s ← .get
  let op ← (fetch s.pc).reporting (.failed s.pc)
  match ← .demand (lookup op) with
  | none => skipUnknown s.pc op
  | some i => perform s.pc op i

def attempt : Effect Outcome := do
  let s ← .get
  match s.waiting with
  | some x => sampleKeys x
  | none => fetchExecute

def cycle : Effect Outcome := do
  let outcome ← attempt
  elapse
  return outcome

-- Moves of the host

def load (program : List UInt8) : Effect Unit := do
  let limit ← .demand (difference Memory.size Memory.programStart)
  if program.length ≤ limit then
    write Memory.programStart program
    .report (.loaded program.length)
  else
    .refuse (.programTooLarge program.length limit)

def State.initial : State where
  v := .replicate 16 0
  i := 0
  pc := 0x200
  slots := .replicate 16 0
  depth := 0
  memory := Memory.initial.bytes
  cells := .replicate 2048 0
  keys := .replicate 16 false
  delay := 0
  sound := 0
  phase := 0
  waiting := none
  redraw := false

def act : Move → Effect Unit
  | .load program => load program
  | .reset => do
    .modify fun _ => .initial
    .report .reset
  | .cycle => do let _ ← cycle
  | .tick => tick
  | .setHeld key held => setHeld key held
  | .collectFrame => .modify fun s => { s with redraw := false }
  | .deliver changes => deliver changes

namespace Machine

def new (config : Config) (entropy : Key) : Machine where
  state := .initial
  config
  generator := .ofKey (config.seed.elim entropy .ofSeed)

-- The machine after a list of moves, refused ones among them.
def run (m : Machine) : List Move → Option Machine
  | [] => some m
  | mv :: mvs =>
    match act mv m with
    | none => none
    | some (_, m', _) => run m' mvs

end Machine
end Bare
end Chip8
