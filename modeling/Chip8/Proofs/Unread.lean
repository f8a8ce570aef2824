import Chip8.Proofs.Cycle
import Chip8.Proofs.Execution

-- Two parts of the state that no instruction reads: the redraw flag, and the cycles that the divider has
-- counted since it last ticked. Whatever these are, an instruction does the same to all the rest, and so
-- does a cycle until its timers move.

namespace Chip8

-- The state with other values in the parts that no instruction reads.
def State.withUnread (s : State) (phase : Nat) (redraw : Bool) : State :=
  { s with timers := { s.timers with phase }, redraw }

namespace State

variable (s : State) (phase : Nat) (redraw : Bool)

theorem holds_withUnread (c : Condition) : c.holds (s.withUnread phase redraw) = c.holds s := by
  cases c <;> rfl

theorem compute_withUnread (op : Alu) (x y : Register) :
    (s.withUnread phase redraw).compute op x y = (s.compute op x y).withUnread phase redraw := by
  simp only [compute, withUnread]
  split <;> rfl

end State

-- A check that goes through gives way to what comes after it, be that seen through `h` or not.
theorem Fault.bind_ok_eq_map {e : Except Fault α} {f g : α → β} {h : β → β} (hf : ∀ a, f a = h (g a)) :
    (e >>= fun a => .ok (f a)) = (e >>= fun a => .ok (g a)).map h := by
  cases e
  case error => rfl
  case ok a => exact congrArg Except.ok (hf a)

namespace Instruction

-- Whether executing the instruction draws on the display.
def draws : Instruction → Bool
  | clear | draw .. => true
  | _ => false

theorem Yields.redraw {i : Instruction} {s s' : State} :
    i.Yields s s' → s'.redraw = (i.draws || s.redraw)
  | clear | draw _ | jump | jumpOffset | call _ | ret _ | skip _ | stay _ | park _ | answer _
  | setDelay | setSound => rfl
  | registers hi | index hi | memory hi => by
    cases i <;> first | rfl | cases hi

theorem execute_withUnread (i : Instruction) (byte : UInt8) (s : State) (phase : Nat) (redraw : Bool) :
    i.execute byte (s.withUnread phase redraw) =
      (i.execute byte s).map fun s' => s'.withUnread phase (i.draws || redraw) := by
  cases i
  case ret | call | draw | decimal | store | restore => exact Fault.bind_ok_eq_map fun _ => rfl
  case skip c =>
    simp only [execute, State.holds_withUnread]
    cases c.holds s <;> rfl
  case alu op x y =>
    exact congrArg Except.ok (s.advance.compute_withUnread phase redraw op x y)
  case awaitKey x =>
    cases hk : s.keypad.lowest
    case none =>
      rw [execute_awaitKey_of_none hk, execute_awaitKey_of_none (s := s.withUnread phase redraw) hk]
      rfl
    case some =>
      rw [execute_awaitKey_of_some hk, execute_awaitKey_of_some (s := s.withUnread phase redraw) hk]
      rfl
  all_goals rfl

end Instruction

namespace Machine

variable {m : Machine} {t : Transition (Except Fault Outcome)}

-- The machine with its timers driven by another source and with other values in the parts of its state
-- that no instruction reads.
def withUnread (m : Machine) (timer : TimerSource) (phase : Nat) (redraw : Bool) : Machine :=
  { m with config.timer := timer, state := m.state.withUnread phase redraw }

-- Both machines come to the same `w`, and from there they let their timers move if the cycle is completed.
theorem Cycle.withUnread (timer : TimerSource) (phase : Nat) (redraw : Bool) :
    m.Cycle t → ∃ w drawn, w.config = m.config ∧ w.state.timers.phase = m.state.timers.phase ∧
      w.state.redraw = (drawn || m.state.redraw) ∧ t.machine = (if t.result.isOk then w.elapse else w) ∧
      let w' := w.withUnread timer phase (drawn || redraw)
      (m.withUnread timer phase redraw).Cycle
        ⟨if t.result.isOk then w'.elapse else w', t.result, t.events⟩
  | wait hw hk => ⟨m, false, rfl, rfl, rfl, rfl, .wait hw hk⟩
  | receive hw hk => ⟨m.received _ _, false, rfl, rfl, rfl, rfl, .receive hw hk⟩
  | stray hw hf => ⟨m, false, rfl, rfl, rfl, rfl, .stray hw hf⟩
  | stop hw hf hd hs => ⟨m, false, rfl, rfl, rfl, rfl, .stop hw hf hd hs⟩
  | skip hw hf hd hs =>
    ⟨{ m with state := m.state.advance }, false, rfl, rfl, rfl, rfl, .skip hw hf hd hs⟩
  | refuse (i := i) hw hf hd he =>
    have he' := (i.execute_withUnread _ _ phase redraw).trans (congrArg _ he)
    ⟨m, false, rfl, rfl, rfl, rfl, .refuse hw hf hd he'⟩
  | execute (i := i) hw hf hd he =>
    have hy := Instruction.execute_yields he
    have he' := (i.execute_withUnread _ _ phase redraw).trans (congrArg _ he)
    have hs := i.events_congr (m.withUnread timer phase redraw).state m.state rfl
    ⟨m.executed i _, i.draws, rfl, hy.phase, hy.redraw, rfl, hs ▸ .execute hw hf hd he'⟩

end Machine
end Chip8
