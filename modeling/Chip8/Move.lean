import Chip8.Session

-- What the commands of a session come down to for its machine. Whatever holds along every list of
-- moves holds along every list of commands.

namespace Chip8

inductive Move where
  | load (program : List UInt8)
  | reset
  | cycle
  | tick
  | setHeld (key : UInt8) (held : Bool)
  | collectFrame
  -- The key changes under way on a link.
  | deliver (changes : List KeyChange)
deriving DecidableEq, Repr

-- The moves other than a reset and a load that is accepted.
def Move.Quiet : Move → Prop
  | load program => Memory.programLimit < program.length
  | reset => False
  | _ => True

namespace Machine

def act (m : Machine) : Move → Machine
  | .load program => (m.load program).machine
  | .reset => m.reset.machine
  | .cycle => m.cycle.machine
  | .tick => m.tick
  | .setHeld key held => (m.setHeld key held).1
  | .collectFrame => m.collectFrame.1
  | .deliver changes => { m with state.keypad := (m.state.keypad.applyAll changes).1 }

-- The machine after a list of moves.
def run (m : Machine) : List Move → Machine
  | [] => m
  | mv :: mvs => run (m.act mv) mvs

theorem run_append (m : Machine) (mvs₁ mvs₂ : List Move) :
    m.run (mvs₁ ++ mvs₂) = (m.run mvs₁).run mvs₂ := by
  induction mvs₁ generalizing m with
  | nil => rfl
  | cons mv mvs ih => exact ih (m.act mv)

theorem load_machine_of_lt {m : Machine} {program : List UInt8}
    (h : Memory.programLimit < program.length) : (m.load program).machine = m := by
  have hl : m.state.memory.load program =
      .error (.programTooLarge program.length Memory.programLimit) := if_neg (Nat.not_le_of_lt h)
  rw [load, hl]

-- What the host can change by itself, short of a reset. Whatever else a machine holds only cycles
-- change.
theorem act_of_host {mv : Move} (m : Machine) (hr : mv ≠ .reset) (hc : mv ≠ .cycle) :
    ∃ memory keypad timers redraw,
      m.act mv = { m with state := { m.state with memory, keypad, timers, redraw } } ∧
      timers.phase = m.state.timers.phase ∧ (mv.Quiet → memory = m.state.memory) := by
  cases mv
  case load program =>
    by_cases h : Memory.programLimit < program.length
    case pos => exact ⟨_, _, _, _, load_machine_of_lt h, rfl, fun _ => rfl⟩
    case neg =>
      have hl : m.state.memory.load program = .ok (m.state.memory.put Memory.programStart program) :=
        if_pos (Nat.le_of_not_lt h)
      exact ⟨_, _, _, _, by rw [act, load, hl], rfl, fun hq => absurd hq h⟩
  case reset | cycle => contradiction
  case setHeld key held =>
    simp only [act, setHeld]
    split
    case h_1 => exact ⟨_, _, _, _, rfl, rfl, fun _ => rfl⟩
    case h_2 => exact ⟨_, _, _, _, rfl, rfl, fun _ => rfl⟩
  case tick | collectFrame | deliver => exact ⟨_, _, _, _, rfl, rfl, fun _ => rfl⟩

end Machine

namespace Session

-- Commands that concern a link alone, or an end that is gone, leave the machine as it is.
def move? (s : Session) : Command → Option Move
  | .load program => some (.load program)
  | .reset => some .reset
  | .cycle => some .cycle
  | .tick => some .tick
  | .setHeld key held => some (.setHeld key held)
  | .collectFrame => some .collectFrame
  | .deliverKeys k => (s.attached? k).map fun l => .deliver l.keys
  | .post k => (s.attached? k).map fun _ => .collectFrame
  | .openLink _ | .addFrontend _ | .dropFrontend _ | .detach _ | .send .. | .newest _ => none

def moves (s : Session) : List Command → List Move
  | [] => []
  | c :: cs => (s.move? c).toList ++ moves (s.step c).1 cs

theorem machine_step (s : Session) (c : Command) :
    (s.step c).1.machine = s.machine.run (s.move? c).toList := by
  cases c
  case deliverKeys k | post k =>
    simp only [step, move?]
    cases s.attached? k <;> rfl
  case addFrontend k | dropFrontend k | send k _ | newest k =>
    simp only [step, move?]
    cases s.frontend? k <;> rfl
  case detach k =>
    simp only [step, move?]
    cases s.attached? k <;> rfl
  all_goals rfl

theorem eq_reset_of_move? {s : Session} {c : Command} (h : s.move? c = some .reset) : c = .reset := by
  cases c
  case reset => rfl
  case deliverKeys | post =>
    have ⟨_, _, hm⟩ := Option.map_eq_some_iff.mp h
    cases hm
  all_goals cases h

theorem eq_cycle_of_move? {s : Session} {c : Command} (h : s.move? c = some .cycle) : c = .cycle := by
  cases c
  case cycle => rfl
  case deliverKeys | post =>
    have ⟨_, _, hm⟩ := Option.map_eq_some_iff.mp h
    cases hm
  all_goals cases h

theorem collect_of_move? {s : Session} {c : Command} (h : s.move? c = some .collectFrame) :
    c = .collectFrame ∨ ∃ k, c = .post k := by
  cases c
  case collectFrame => exact .inl rfl
  case post k => exact .inr ⟨k, rfl⟩
  case deliverKeys =>
    have ⟨_, _, hm⟩ := Option.map_eq_some_iff.mp h
    cases hm
  all_goals cases h

-- A command leaves the machine as it is or makes one move, and only resets reset and only cycles cycle.
theorem machine_step_cases (s : Session) (c : Command) :
    (s.step c).1.machine = s.machine ∨ ∃ mv, (s.step c).1.machine = s.machine.act mv ∧
      (mv = .reset → c = .reset) ∧ (mv = .cycle → c = .cycle) := by
  rw [machine_step]
  cases h : s.move? c
  case none => exact .inl rfl
  case some mv =>
    refine .inr ⟨mv, rfl, ?_, ?_⟩
    case refine_1 => exact fun hr => eq_reset_of_move? (hr ▸ h)
    case refine_2 => exact fun hc => eq_cycle_of_move? (hc ▸ h)

theorem machine_run (s : Session) (cs : List Command) :
    (s.run cs).machine = s.machine.run (s.moves cs) := by
  induction cs generalizing s with
  | nil => rfl
  | cons c cs ih => rw [run, ih, machine_step, moves, Machine.run_append]

end Session
end Chip8
