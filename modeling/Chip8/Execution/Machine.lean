import Chip8.Execution.Config
import Chip8.Execution.Semantics
import Chip8.Random.Generator

-- A machine that its host loads, feeds with keys and advances by one cycle at a time.

namespace Chip8

-- What a completed cycle did.
inductive Outcome where
  | executed (address : UInt16) (opcode : Opcode) (instruction : Instruction)
  | unknown (address : UInt16) (opcode : Opcode)
  | waiting (register : Register)
  | keyReceived (register : Register) (key : Fin 16)
deriving DecidableEq, Repr

@[ext]
structure Machine where
  state : State
  config : Config
  generator : Generator
deriving DecidableEq

-- An operation's result, the machine that it leaves behind and the events on the way.
@[ext]
structure Transition (α : Type) where
  machine : Machine
  result : α
  events : List Event

namespace Machine

-- The seed fixes the random bytes; without one they come from the key `entropy`.
def new (config : Config) (entropy : Key) : Machine where
  state := .initial
  config
  generator := .ofKey (config.seed.elim entropy .ofSeed)

def load (m : Machine) (program : List UInt8) : Transition (Except Fault Unit) :=
  match m.state.memory.load program with
  | .ok memory => ⟨{ m with state.memory := memory }, .ok (), [.loaded program.length]⟩
  | .error f => ⟨m, .error f, []⟩

-- The configuration stays and the generator goes on where it is.
def reset (m : Machine) : Transition Unit :=
  ⟨{ m with state := .initial }, (), [.reset]⟩

def tick (m : Machine) : Machine :=
  { m with state.timers := m.state.timers.tick }

def setHeld (m : Machine) (key : UInt8) (held : Bool) : Machine × Except Fault Unit :=
  match m.state.keypad.set key held with
  | .ok keypad => ({ m with state.keypad := keypad }, .ok ())
  | .error f => (m, .error f)

-- The display, if it was drawn on since the last call.
def collectFrame (m : Machine) : Machine × Option Display :=
  ({ m with state.redraw := false }, if m.state.redraw then some m.state.display else none)

def soundOn (m : Machine) : Bool :=
  m.state.timers.soundOn

-- The timers take part in every cycle that does not fail.
def elapse (m : Machine) : Machine :=
  match m.config.timer with
  | .cycles divider => { m with state.timers := m.state.timers.cycle divider }
  | .host => m

def fail (m : Machine) (f : Fault) : Transition (Except Fault Outcome) :=
  ⟨m, .error f, [.failed m.state.pc f]⟩

def sampleKeys (m : Machine) (x : Register) : Transition (Except Fault Outcome) :=
  match m.state.keypad.lowest with
  | some key =>
    ⟨elapse { m with state := { m.state.setV x (.ofNat key) with waiting := none } },
      .ok (.keyReceived x key), [.keyReceived x key]⟩
  | none => ⟨m.elapse, .ok (.waiting x), []⟩

def skipUnknown (m : Machine) (op : Opcode) : Transition (Except Fault Outcome) :=
  if m.config.strict then
    m.fail (.unknownOpcode op m.state.pc)
  else
    ⟨elapse { m with state := m.state.advance },
      .ok (.unknown m.state.pc op), [.skipped m.state.pc op]⟩

def perform (m : Machine) (op : Opcode) (i : Instruction) : Transition (Except Fault Outcome) :=
  match i.execute m.generator.byte m.state with
  | .error f => m.fail f
  | .ok s =>
    let generator := if i.drawsByte then m.generator.next else m.generator
    ⟨elapse { m with state := s, generator },
      .ok (.executed m.state.pc op i),
      i.events m.state ++ [.executed m.state.pc op i s.v s.i s.pc]⟩

-- A pending key comes before anything else; otherwise the instruction at `pc` is executed.
def cycle (m : Machine) : Transition (Except Fault Outcome) :=
  match m.state.waiting with
  | some x => m.sampleKeys x
  | none =>
    match m.state.memory.fetch m.state.pc with
    | .error f => m.fail f
    | .ok op =>
      match Instruction.decode? op with
      | none => m.skipUnknown op
      | some i => m.perform op i

@[simp]
theorem elapse_config (m : Machine) : m.elapse.config = m.config := by
  unfold elapse
  split <;> rfl

@[simp]
theorem elapse_generator (m : Machine) : m.elapse.generator = m.generator := by
  unfold elapse
  split <;> rfl

end Machine
end Chip8
