import Chip8.Proofs.Embedding.Moves

-- A bare machine that a host drives from power-on, in whatever order, never leaves its bounds.

namespace Chip8
namespace Bare

-- What a bare machine keeps to at all times.
structure Machine.Inside (b : Machine) : Prop where
  depth_le : b.state.depth ≤ 16
  slot_le : ∀ k, (b.state.slots.get k).toNat ≤ 0x1000
  pc_le : b.state.pc.toNat ≤ 0x10FE
  cell_eq : ∀ c, b.state.cells.get c = 0 ∨ b.state.cells.get c = 1
  waiting_lt : ∀ x, b.state.waiting = some x → x < 16
  phase : b.config.timer.Allows b.state.phase.toNat

variable {m : Chip8.Machine}

theorem inside_bare (hb : m.Bounded) : m.bare.Inside where
  depth_le := m.state.stack.depth_le
  slot_le := hb.state.stack
  pc_le := hb.state.pc_le
  cell_eq c := by
    have hc : m.bare.state.cells.get c = Display.byte (m.state.display.isLit c) := Vector.getElem_map ..
    rw [hc]
    cases m.state.display.isLit c
    case false => exact .inl rfl
    case true => exact .inr rfl
  waiting_lt x hw := by
    have ⟨y, _, hy⟩ := Option.map_eq_some_iff.mp hw
    exact hy ▸ y.isLt
  phase := by
    rw [Machine.bare_state, toNat_phase m hb.phase]
    exact hb.phase

theorem act_isSome (hb : m.Bounded) (mv : Move) : (act mv m.bare).isSome := by
  have ⟨_, _, ha⟩ := act_bare hb mv
  rw [ha]
  rfl

-- The bare machine is where the session's machine is, inside its bounds, and nothing that a host can
-- do next takes an index or a number out of them.
theorem run_inside (config : Config) (entropy : Key) (cs : List Command) :
    ∃ b, (Machine.new config entropy).run ((Session.new config entropy).moves cs) = some b ∧
      b = ((Session.new config entropy).run cs).machine.bare ∧ b.Inside ∧
        ∀ mv, (act mv b).isSome := by
  have hb := Machine.Bounded.new config entropy
  have hr := hb.run ((Session.new config entropy).moves cs)
  refine ⟨_, ?_, rfl, ?_, ?_⟩
  all_goals rw [Session.machine_run]
  case refine_1 =>
    rw [new_bare]
    exact run_bare hb _
  case refine_2 => exact inside_bare hr
  case refine_3 => exact act_isSome hr

end Bare
end Chip8
