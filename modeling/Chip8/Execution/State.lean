import Chip8.Components.Memory
import Chip8.Components.Stack
import Chip8.Components.Keypad
import Chip8.Components.Display
import Chip8.Components.Registers
import Chip8.Components.Timers
import Chip8.Instruction.Basic

namespace Chip8

@[ext]
structure State where
  v : Registers
  i : UInt16
  pc : UInt16
  stack : Stack
  memory : Memory
  display : Display
  keypad : Keypad
  timers : Timers
  -- The register that a pending key goes to.
  waiting : Option Register
  -- The display was drawn on and no frame has been taken since.
  redraw : Bool
deriving DecidableEq

namespace State

def initial : State where
  v := .initial
  i := 0
  pc := .ofNat Memory.programStart
  stack := .initial
  memory := .initial
  display := .blank
  keypad := .initial
  timers := .initial
  waiting := none
  redraw := false

def setV (s : State) (x : Register) (byte : UInt8) : State :=
  { s with v := s.v.set x byte }

def setFlag (s : State) (b : Bool) : State :=
  s.setV .flag (if b then 1 else 0)

def advance (s : State) : State :=
  { s with pc := s.pc + 2 }

-- Moving on touches `pc` alone.
section

variable (s : State)

@[simp]
theorem advance_v : s.advance.v = s.v := rfl

@[simp]
theorem advance_i : s.advance.i = s.i := rfl

@[simp]
theorem advance_stack : s.advance.stack = s.stack := rfl

@[simp]
theorem advance_memory : s.advance.memory = s.memory := rfl

@[simp]
theorem advance_display : s.advance.display = s.display := rfl

@[simp]
theorem advance_keypad : s.advance.keypad = s.keypad := rfl

@[simp]
theorem advance_timers : s.advance.timers = s.timers := rfl

@[simp]
theorem advance_waiting : s.advance.waiting = s.waiting := rfl

end

end State
end Chip8
