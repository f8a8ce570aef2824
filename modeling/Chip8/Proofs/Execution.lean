import Chip8.Execution.Semantics

-- What an instruction leaves behind if it is not refused. Each form says which parts of the state may
-- differ, so whatever an instruction keeps is read off the forms.

namespace Chip8

theorem State.compute_eq (s : State) (op : Alu) (x y : Register) :
    ∃ v, s.compute op x y = { s with v } := by
  unfold compute
  split <;> exact ⟨_, rfl⟩

namespace Instruction

-- The instructions that load, move or combine bytes in registers.
def writesRegisters : Instruction → Bool
  | loadByte .. | addByte .. | alu .. | random .. | readDelay .. | restore .. => true
  | _ => false

def writesIndex : Instruction → Bool
  | loadIndex .. | addIndex .. | glyph .. => true
  | _ => false

def writesMemory : Instruction → Bool
  | decimal .. | store .. => true
  | _ => false

inductive Yields (s : State) : Instruction → State → Prop
  | jump : Yields s (jump target) { s with pc := .ofNat target }
  | jumpOffset :
    Yields s (jumpOffset target) { s with pc := (s.v.get .v0).toUInt16 + .ofNat target }
  | call (hp : s.stack.push (s.pc + 2) s.pc = .ok stack) :
    Yields s (call target) { s with pc := .ofNat target, stack }
  | ret (hp : s.stack.pop s.pc = .ok (address, stack)) :
    Yields s ret { s with pc := address, stack }
  | skip (hc : c.holds s = true) : Yields s (skip c) s.advance.advance
  | stay (hc : c.holds s = false) : Yields s (skip c) s.advance
  | clear : Yields s clear { s.advance with display := s.display.clear, redraw := true }
  | draw {rows : Fin 16} (hm : s.memory.slice s.i.toNat rows = .ok sprite) :
    Yields s (draw x y rows) { s.advance.setFlag (s.display.draw (s.v.get x) (s.v.get y) sprite).2 with
      display := (s.display.draw (s.v.get x) (s.v.get y) sprite).1
      redraw := true }
  | park (hk : s.keypad.lowest = none) :
    Yields s (awaitKey x) { s.advance with waiting := some x }
  | answer (hk : s.keypad.lowest = some key) :
    Yields s (awaitKey x) (s.advance.setV x (.ofNat key))
  | registers (hi : i.writesRegisters = true) : Yields s i { s.advance with v }
  | index (hi : i.writesIndex = true) : Yields s i { s.advance with i := n }
  | memory (hi : i.writesMemory = true) : Yields s i { s.advance with memory }
  | setDelay :
    Yields s (setDelay x) { s.advance with timers := { s.timers with delay := s.v.get x } }
  | setSound :
    Yields s (setSound x) { s.advance with timers := { s.timers with sound := s.v.get x } }

variable {i : Instruction} {s s' : State}

theorem Yields.phase : i.Yields s s' → s'.timers.phase = s.timers.phase
  | jump | jumpOffset | call _ | ret _ | skip _ | stay _ | clear | draw _ | park _ | answer _
  | registers _ | index _ | memory _ | setDelay | setSound => rfl

theorem Yields.keypad : i.Yields s s' → s'.keypad = s.keypad
  | jump | jumpOffset | call _ | ret _ | skip _ | stay _ | clear | draw _ | park _ | answer _
  | registers _ | index _ | memory _ | setDelay | setSound => rfl

-- Only an instruction that sets the redraw flag touches the display.
theorem Yields.display : i.Yields s s' → s'.redraw = false →
    s.redraw = false ∧ s'.display = s.display
  | clear, h | draw _, h => nomatch h
  | jump, h | jumpOffset, h | call _, h | ret _, h | skip _, h | stay _, h | park _, h | answer _, h
  | registers _, h | index _, h | memory _, h | setDelay, h | setSound, h => ⟨h, rfl⟩

-- Only an instruction that finds no key held leaves the machine waiting.
theorem Yields.waiting : i.Yields s s' → s'.waiting = s.waiting ∨
    ∃ x, i = awaitKey x ∧ s.keypad.lowest = none ∧ s'.waiting = some x
  | park hk => .inr ⟨_, rfl, hk, rfl⟩
  | jump | jumpOffset | call _ | ret _ | skip _ | stay _ | clear | draw _ | answer _
  | registers _ | index _ | memory _ | setDelay | setSound => .inl rfl

theorem execute_yields {byte : UInt8} (h : i.execute byte s = .ok s') :
    i.Yields s s' := by
  cases i
  case ret | call | draw =>
    have ⟨_, hc, hs⟩ := Fault.bind_ok_eq_ok_iff.mp h
    rw [hs]
    constructor
    exact hc
  case decimal | store =>
    have ⟨_, _, hs⟩ := Fault.bind_ok_eq_ok_iff.mp h
    exact hs ▸ .memory rfl
  case restore =>
    have ⟨_, _, hs⟩ := Fault.bind_ok_eq_ok_iff.mp h
    exact hs ▸ .registers rfl
  case awaitKey x =>
    obtain ⟨hk, rfl⟩ | ⟨_, hk, rfl⟩ := of_execute_awaitKey h
    case inl => exact .park hk
    case inr => exact .answer hk
  case skip c =>
    cases h
    cases hc : c.holds s
    case false => exact .stay hc
    case true => exact .skip hc
  case alu op x y =>
    cases h
    have ⟨_, hv⟩ := s.advance.compute_eq op x y
    rw [hv]
    exact .registers rfl
  case jump | jumpOffset | clear | setDelay | setSound =>
    cases h
    constructor
  case loadByte | addByte | random | readDelay =>
    cases h
    exact .registers rfl
  case loadIndex | addIndex | glyph =>
    cases h
    exact .index rfl

theorem execute_draw {x y : Register} {rows : Fin 16} {sprite : List UInt8} {byte : UInt8}
    (hm : s.memory.slice s.i.toNat rows = .ok sprite) :
    (draw x y rows).execute byte s =
      .ok { s.advance.setFlag (s.display.draw (s.v.get x) (s.v.get y) sprite).2 with
        display := (s.display.draw (s.v.get x) (s.v.get y) sprite).1
        redraw := true } :=
  Fault.bind_ok_eq_ok_iff.mpr ⟨_, hm, rfl⟩

end Instruction
end Chip8
