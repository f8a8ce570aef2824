import Chip8.Execution.Machine

-- The ways in which a cycle can go, each with all that it leaves behind.

namespace Chip8

-- What a completed cycle does to timers.
def TimerSource.elapse : TimerSource → Timers → Timers
  | cycles divider, t => t.cycle divider
  | host, t => t

namespace Machine

theorem elapse_eq (m : Machine) :
    m.elapse = { m with state.timers := m.config.timer.elapse m.state.timers } := by
  unfold elapse
  split <;> simp only [TimerSource.elapse, *]

section

variable (m : Machine)

@[simp]
theorem elapse_pc : m.elapse.state.pc = m.state.pc := by
  rw [elapse_eq]

@[simp]
theorem elapse_stack : m.elapse.state.stack = m.state.stack := by
  rw [elapse_eq]

@[simp]
theorem elapse_memory : m.elapse.state.memory = m.state.memory := by
  rw [elapse_eq]

@[simp]
theorem elapse_display : m.elapse.state.display = m.state.display := by
  rw [elapse_eq]

@[simp]
theorem elapse_keypad : m.elapse.state.keypad = m.state.keypad := by
  rw [elapse_eq]

@[simp]
theorem elapse_redraw : m.elapse.state.redraw = m.state.redraw := by
  rw [elapse_eq]

end

-- The machine after it has executed `i`, before its timers move.
def executed (m : Machine) (i : Instruction) (s : State) : Machine :=
  { m with state := s, generator := if i.drawsByte then m.generator.next else m.generator }

-- The machine after `key` has arrived for `x`, before its timers move.
def received (m : Machine) (x : Register) (key : Fin 16) : Machine :=
  { m with state := { m.state.setV x (.ofNat key) with waiting := none } }

inductive Cycle (m : Machine) : Transition (Except Fault Outcome) → Prop
  | wait (hw : m.state.waiting = some x) (hk : m.state.keypad.lowest = none) :
    Cycle m ⟨m.elapse, .ok (.waiting x), []⟩
  | receive (hw : m.state.waiting = some x) (hk : m.state.keypad.lowest = some key) :
    Cycle m ⟨(m.received x key).elapse, .ok (.keyReceived x key), [.keyReceived x key]⟩
  | stray (hw : m.state.waiting = none) (hf : m.state.memory.fetch m.state.pc = .error f) :
    Cycle m (m.fail f)
  | stop (hw : m.state.waiting = none) (hf : m.state.memory.fetch m.state.pc = .ok op)
      (hd : Instruction.decode? op = none) (hs : m.config.strict = true) :
    Cycle m (m.fail (.unknownOpcode op m.state.pc))
  | skip (hw : m.state.waiting = none) (hf : m.state.memory.fetch m.state.pc = .ok op)
      (hd : Instruction.decode? op = none) (hs : m.config.strict = false) :
    Cycle m ⟨elapse { m with state := m.state.advance }, .ok (.unknown m.state.pc op),
      [.skipped m.state.pc op]⟩
  | refuse (hw : m.state.waiting = none) (hf : m.state.memory.fetch m.state.pc = .ok op)
      (hd : Instruction.decode? op = some i)
      (he : i.execute m.generator.byte m.state = .error f) :
    Cycle m (m.fail f)
  | execute (hw : m.state.waiting = none) (hf : m.state.memory.fetch m.state.pc = .ok op)
      (hd : Instruction.decode? op = some i)
      (he : i.execute m.generator.byte m.state = .ok s) :
    Cycle m ⟨(m.executed i s).elapse, .ok (.executed m.state.pc op i),
      i.events m.state ++ [.executed m.state.pc op i s.v s.i s.pc]⟩

theorem cycle_goes (m : Machine) : m.Cycle m.cycle := by
  unfold cycle
  split
  case h_1 x hw =>
    unfold sampleKeys
    split
    case h_1 key hk => exact .receive hw hk
    case h_2 hk => exact .wait hw hk
  case h_2 hw =>
    split
    case h_1 f hf => exact .stray hw hf
    case h_2 op hf =>
      split
      case h_1 hd =>
        unfold skipUnknown
        split
        case isTrue hs => exact .stop hw hf hd hs
        case isFalse hs => exact .skip hw hf hd (by simpa using hs)
      case h_2 i hd =>
        unfold perform
        split
        case h_1 f he => exact .refuse hw hf hd he
        case h_2 s he => exact .execute hw hf hd he

namespace Cycle

variable {m : Machine} {t : Transition (Except Fault Outcome)} {f : Fault}

-- A cycle goes one way only.
theorem eq_cycle : m.Cycle t → t = m.cycle
  | wait hw hk | receive hw hk => by simp [cycle, sampleKeys, received, hw, hk]
  | stray hw hf => by simp [cycle, hw, hf]
  | stop hw hf hd hs | skip hw hf hd hs => by simp [cycle, skipUnknown, hw, hf, hd, hs]
  | refuse hw hf hd he | execute hw hf hd he => by simp [cycle, perform, executed, hw, hf, hd, he]

theorem preserves_config : m.Cycle t → t.machine.config = m.config
  | wait .. | receive .. | skip .. | execute .. => by simp [received, executed]
  | stray .. | stop .. | refuse .. => rfl

-- A cycle that fails leaves its machine as it found it.
theorem machine_eq_of_error (h : m.Cycle t) (hr : t.result = .error f) : t.machine = m := by
  cases h
  case stray | stop | refuse => rfl
  all_goals cases hr

theorem events_eq_of_error (h : m.Cycle t) (hr : t.result = .error f) :
    t.events = [.failed m.state.pc f] := by
  cases h
  case stray | stop | refuse =>
    cases hr
    rfl
  all_goals cases hr

end Cycle

-- What a cycle does whose instruction is known and goes through.
theorem cycle_of_execute {m : Machine} {op : Opcode} {i : Instruction} {s : State}
    (hw : m.state.waiting = none) (hf : m.state.memory.fetch m.state.pc = .ok op)
    (hd : Instruction.decode? op = some i) (he : i.execute m.generator.byte m.state = .ok s) :
    m.cycle.machine = (m.executed i s).elapse ∧ m.cycle.result = .ok (.executed m.state.pc op i) := by
  have hc : m.Cycle _ := .execute hw hf hd he
  rw [← hc.eq_cycle]
  exact ⟨rfl, rfl⟩

end Machine
end Chip8
