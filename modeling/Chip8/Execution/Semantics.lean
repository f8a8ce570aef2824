import Chip8.Execution.Event
import Chip8.Execution.State

-- The effect of an instruction on the state that it is fetched in. Whatever can be refused is
-- checked first, and a refusal yields no state at all.

namespace Chip8

def Condition.holds (s : State) : Condition → Bool
  | byteEq x byte => s.v.get x = byte
  | byteNe x byte => s.v.get x ≠ byte
  | eq x y => s.v.get x = s.v.get y
  | ne x y => s.v.get x ≠ s.v.get y
  | held x => s.keypad.isHeld (s.v.get x)
  | released x => !s.keypad.isHeld (s.v.get x)

-- The result for operands `a` and `b`, and the flag of those operations that have one.
def Alu.apply : Alu → UInt8 → UInt8 → UInt8 × Option Bool
  | copy, _, b => (b, none)
  | or, a, b => (a ||| b, none)
  | and, a, b => (a &&& b, none)
  | xor, a, b => (a ^^^ b, none)
  | add, a, b => (a + b, some (255 < a.toNat + b.toNat))
  | sub, a, b => (a - b, some (b < a))
  | shiftRight, a, _ => (a >>> 1, some (a.toNat % 2 = 1))
  | subFrom, a, b => (b - a, some (a < b))
  | shiftLeft, a, _ => (a <<< 1, some (128 ≤ a.toNat))

-- The flag is written after the result, so it stays where both go to the same register.
def State.compute (s : State) (op : Alu) (x y : Register) : State :=
  match op.apply (s.v.get x) (s.v.get y) with
  | (r, none) => s.setV x r
  | (r, some b) => (s.setV x r).setFlag b

-- A key that is held arrives at once. Without one the machine parks and says so.
def State.awaitKey (s : State) (x : Register) : State × List Event :=
  match s.keypad.lowest with
  | some key => (s.setV x (.ofNat key), [])
  | none => ({ s with waiting := some x }, [.parked x])

-- Hundreds, tens and ones.
def decimalDigits (byte : UInt8) : List UInt8 :=
  [byte / 100, byte / 10 % 10, byte % 10]

namespace Instruction

-- `byte` is what the generator yields next.
def execute (byte : UInt8) (s : State) : Instruction → Except Fault State
  | clear => .ok { s.advance with display := s.display.clear, redraw := true }
  | ret => do
    let (address, stack) ← s.stack.pop s.pc
    return { s with pc := address, stack }
  | jump target => .ok { s with pc := .ofNat target }
  | call target => do
    let stack ← s.stack.push (s.pc + 2) s.pc
    return { s with pc := .ofNat target, stack }
  | skip c => .ok (if c.holds s then s.advance.advance else s.advance)
  | loadByte x b => .ok (s.advance.setV x b)
  | addByte x b => .ok (s.advance.setV x (s.v.get x + b))
  | alu op x y => .ok (s.advance.compute op x y)
  | loadIndex target => .ok { s.advance with i := .ofNat target }
  | jumpOffset target => .ok { s with pc := (s.v.get .v0).toUInt16 + .ofNat target }
  | random x mask => .ok (s.advance.setV x (byte &&& mask))
  | draw x y rows => do
    let sprite ← s.memory.slice s.i.toNat rows
    let (display, hit) := s.display.draw (s.v.get x) (s.v.get y) sprite
    return { s.advance.setFlag hit with display, redraw := true }
  | readDelay x => .ok (s.advance.setV x s.timers.delay)
  | awaitKey x => .ok (s.advance.awaitKey x).1
  | setDelay x => .ok { s.advance with timers := { s.timers with delay := s.v.get x } }
  | setSound x => .ok { s.advance with timers := { s.timers with sound := s.v.get x } }
  | addIndex x => .ok { s.advance with i := s.i + (s.v.get x).toUInt16 }
  | glyph x => .ok { s.advance with i := .ofNat (Font.start + Font.glyphSize * (s.v.get x).toNat) }
  | decimal x => do
    let memory ← s.memory.write s.i.toNat (decimalDigits (s.v.get x))
    return { s.advance with memory }
  | store x => do
    let memory ← s.memory.write s.i.toNat (s.v.upTo x)
    return { s.advance with memory }
  | restore x => do
    let bytes ← s.memory.slice s.i.toNat (x + 1)
    return { s.advance with v := s.v.overlay bytes }

-- What it reports while it is executed.
def events (s : State) : Instruction → List Event
  | awaitKey x => (s.awaitKey x).2
  | _ => []

variable {byte : UInt8} {s s' : State} {x : Register} {key : Fin 16}

theorem execute_awaitKey_of_some (hk : s.keypad.lowest = some key) :
    (awaitKey x).execute byte s = .ok (s.advance.setV x (.ofNat key)) := by
  rw [execute, State.awaitKey, State.advance_keypad, hk]

theorem execute_awaitKey_of_none (hk : s.keypad.lowest = none) :
    (awaitKey x).execute byte s = .ok { s.advance with waiting := some x } := by
  rw [execute, State.awaitKey, State.advance_keypad, hk]
  rfl

theorem of_execute_awaitKey (h : (awaitKey x).execute byte s = .ok s') :
    (s.keypad.lowest = none ∧ s' = { s.advance with waiting := some x }) ∨
      ∃ key, s.keypad.lowest = some key ∧ s' = s.advance.setV x (.ofNat key) := by
  cases hk : s.keypad.lowest
  case none =>
    cases (execute_awaitKey_of_none hk).symm.trans h
    exact .inl ⟨rfl, rfl⟩
  case some key =>
    cases (execute_awaitKey_of_some hk).symm.trans h
    exact .inr ⟨key, rfl, rfl⟩

-- Only keys decide on what is reported.
theorem events_congr (i : Instruction) (s s' : State) (hk : s.keypad = s'.keypad) :
    i.events s = i.events s' := by
  cases i
  case awaitKey =>
    simp only [events, State.awaitKey, hk]
    split <;> rfl
  all_goals rfl

end Instruction
end Chip8
