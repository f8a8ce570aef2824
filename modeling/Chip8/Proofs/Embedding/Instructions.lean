import Chip8.Proofs.Bounds
import Chip8.Proofs.Embedding.Components

-- What the effects do on a bare machine that stands for a machine, up to whole instructions. As long
-- as `pc` is not outside memory, none of them leaves the bounds of a word or an array.

namespace Chip8
namespace Bare

section Effects

variable (m : Chip8.Machine)

theorem register_bare (x : Register) : register x m.bare = some (.ok (m.state.v.get x), m.bare, []) := by
  simp [register, State.bare, Registers.get_eq]

theorem setRegister_bare (x : Register) (byte : UInt8) :
    setRegister x byte m.bare =
      some (.ok (), Chip8.Machine.bare { m with state := m.state.setV x byte }, []) := by
  simp [setRegister, put_eq_set]
  rfl

theorem setFlag_bare (b : Bool) :
    setFlag b m.bare = some (.ok (), Chip8.Machine.bare { m with state := m.state.setFlag b }, []) :=
  setRegister_bare ..

theorem moveOn_bare (hp : m.state.pc.toNat + 2 < UInt16.size) :
    moveOn m.bare = some (.ok (), Chip8.Machine.bare { m with state := m.state.advance }, []) := by
  simp [moveOn, sum_eq hp, State.bare, State.advance, Chip8.Machine.bare]

theorem origin_bare (hp : m.state.pc.toNat + 2 < UInt16.size) :
    origin (Chip8.Machine.bare { m with state := m.state.advance }) =
      some (.ok m.state.pc, Chip8.Machine.bare { m with state := m.state.advance }, []) := by
  have hd : difference (m.state.pc + 2).toNat 2 = some m.state.pc.toNat := by
    rw [State.toNat_add_two hp]
    exact if_pos (Nat.le_add_left ..)
  simp only [State.advance, origin, Effect.bind_apply, Effect.get_apply, Chip8.Machine.bare_state,
    State.bare_pc, hd, Effect.demand_some, Effect.pure_apply, UInt16.ofNat_toNat, Effect.after_nil]

theorem lowestKey_bare : lowestKey m.bare = some (.ok m.state.keypad.lowest, m.bare, []) := rfl

theorem isHeld_bare (key : UInt8) :
    isHeld key m.bare = some (.ok (m.state.keypad.isHeld key), m.bare, []) := by
  simp [isHeld, State.bare, Keypad.isHeld, Nat.mod_lt]

theorem tick_bare : tick m.bare = some (.ok (), m.tick.bare, []) := rfl

theorem setHeld_bare (key : UInt8) (held : Bool) :
    setHeld key held m.bare = some ((m.setHeld key held).2, (m.setHeld key held).1.bare, []) := by
  by_cases hk : key.toNat < 16
  case pos =>
    have hp := put_eq_set m.state.keypad.held ⟨key.toNat, hk⟩ held
    simp [setHeld, Chip8.Machine.setHeld, Keypad.set, hk, State.bare, hp, Chip8.Machine.bare]
  case neg => simp [setHeld, Chip8.Machine.setHeld, Keypad.set, hk]

theorem toNat_phase_of_lt (hp : m.state.timers.phase + 1 < UInt32.size) :
    m.state.bare.phase.toNat = m.state.timers.phase :=
  UInt32.toNat_ofNat_of_lt' (Nat.lt_of_succ_lt hp)

theorem toNat_phase (h : m.config.timer.Allows m.state.timers.phase) :
    m.state.bare.phase.toNat = m.state.timers.phase :=
  toNat_phase_of_lt m h.lt

theorem elapse_bare_of_lt (hp : m.state.timers.phase + 1 < UInt32.size) :
    elapse m.bare = some (.ok (), m.elapse.bare, []) := by
  have hs : sum UInt32.size m.state.bare.phase.toNat 1 = some (m.state.timers.phase + 1) := by
    rw [toNat_phase_of_lt m hp]
    exact sum_eq hp
  cases hc : m.config.timer
  case host => simp [elapse, Chip8.Machine.elapse, hc]
  case cycles divider =>
    by_cases hd : max divider.toNat 1 ≤ m.state.timers.phase + 1
    case pos =>
      have ht : m.state.timers.cycle divider = { m.state.timers.tick with phase := 0 } :=
        if_neg (Nat.not_lt_of_le hd)
      simp only [elapse, Effect.bind_apply, Effect.config_apply, Chip8.Machine.bare_config, hc,
        Effect.get_apply, Chip8.Machine.bare_state, hs, Effect.demand_some, Effect.modify_apply,
        if_pos hd, Chip8.Machine.elapse, ht]
      rfl
    case neg =>
      have ht : m.state.timers.cycle divider =
          { m.state.timers with phase := m.state.timers.phase + 1 } :=
        if_pos (Nat.lt_of_not_le hd)
      simp only [elapse, Effect.bind_apply, Effect.config_apply, Chip8.Machine.bare_config, hc,
        Effect.get_apply, Chip8.Machine.bare_state, hs, Effect.demand_some, Effect.modify_apply,
        if_neg hd, Effect.pure_apply, Chip8.Machine.elapse, ht]
      rfl

theorem elapse_bare (h : m.config.timer.Allows m.state.timers.phase) :
    elapse m.bare = some (.ok (), m.elapse.bare, []) :=
  elapse_bare_of_lt m h.lt

theorem holds_bare (c : Condition) : holds c m.bare = some (.ok (c.holds m.state), m.bare, []) := by
  cases c <;> simp [holds, Condition.holds, register_bare, isHeld_bare]

theorem combine_eq (op : Alu) (a b : UInt8) : combine op a b = some (op.apply a b) := by
  cases op
  case add =>
    have := a.toNat_lt
    have := b.toNat_lt
    have hs : sum UInt16.size a.toNat b.toNat = some (a.toNat + b.toNat) :=
      sum_eq (by simp only [UInt16.size]; omega)
    have hr : UInt8.ofNat ((a.toNat + b.toNat) % 256) = a + b := by
      rw [← UInt8.toNat_inj]
      simp
    simp [combine, hs, hr, Alu.apply]
  all_goals rfl

theorem pop_bare (caller : UInt16) :
    pop caller m.bare =
      match m.state.stack.pop caller with
      | .ok (address, stack) =>
        some (.ok address, Chip8.Machine.bare { m with state := { m.state with stack } }, [])
      | .error f => some (.error f, m.bare, []) := by
  have := m.state.stack.depth_le
  by_cases hd : 0 < m.state.stack.depth
  case pos =>
    have hi : m.state.stack.depth - 1 < 16 := by omega
    have hs : 1 ≤ m.state.stack.depth := hd
    simp [pop, difference, Stack.pop, State.bare, hd, hs, hi]
    rfl
  case neg => simp [pop, Stack.pop, State.bare, hd]

theorem push_bare (address caller : UInt16) :
    push address caller m.bare =
      match m.state.stack.push address caller with
      | .ok stack => some (.ok (), Chip8.Machine.bare { m with state := { m.state with stack } }, [])
      | .error f => some (.error f, m.bare, []) := by
  by_cases hd : m.state.stack.depth < 16
  case pos =>
    have hp := put_eq_set m.state.stack.slots ⟨m.state.stack.depth, hd⟩ address
    have hs : sum UInt64.size m.state.stack.depth 1 = some (m.state.stack.depth + 1) :=
      sum_eq (Nat.lt_of_le_of_lt hd (by decide))
    simp [push, Stack.push, State.bare, hd, hp, hs]
    rfl
  case neg => simp [push, Stack.push, State.bare, hd]

theorem read_bare (a n : Nat) : read a n m.bare = some (m.state.memory.slice a n, m.bare, []) := by
  by_cases h : a + n ≤ Memory.size
  case pos => simp [read, inside, Memory.slice, State.bare, h, slice_memory h]
  case neg => simp [read, inside, Memory.slice, Memory.outside, h]

theorem write_bare (a : Nat) (bs : List UInt8) :
    write a bs m.bare =
      match m.state.memory.write a bs with
      | .ok memory => some (.ok (), Chip8.Machine.bare { m with state := { m.state with memory } }, [])
      | .error f => some (.error f, m.bare, []) := by
  by_cases h : a + bs.length ≤ Memory.size
  case pos =>
    simp [write, inside, Memory.write, State.bare, h, overwrite_memory h]
    rfl
  case neg => simp [write, inside, Memory.write, Memory.outside, h]

theorem fetch_bare (a : UInt16) : fetch a m.bare = some (m.state.memory.fetch a, m.bare, []) := by
  by_cases h : a.toNat + 2 ≤ Memory.size
  case pos => simp [fetch, read_bare, Memory.fetch, Memory.slice, h, List.range_succ]
  case neg => simp [fetch, read_bare, Memory.fetch, Memory.slice, h]

theorem drawSprite_bare (x y : UInt8) (sprite : List UInt8) :
    drawSprite x y sprite m.bare =
      some (.ok (m.state.display.draw x y sprite).2, Chip8.Machine.bare
        { m with state := { m.state with display := (m.state.display.draw x y sprite).1 } }, []) := by
  have ht := toggleAll_bare m.state.display false (Display.spriteCells x.toNat y.toNat sprite)
  simp [drawSprite, State.bare, places_eq, ht]
  exact ⟨rfl, rfl⟩

end Effects

-- Instructions

-- A bare machine that has moved past `i` executes it in place as `m` does.
def Follows (m : Chip8.Machine) (i : Instruction) : Prop :=
  execute i (Chip8.Machine.bare { m with state := m.state.advance }) =
    match i.execute m.generator.byte m.state with
    | .ok s => some (.ok (), (m.executed i s).bare, i.events m.state)
    | .error f => some (.error f, Chip8.Machine.bare { m with state := m.state.advance }, [])

section Instructions

variable {m : Chip8.Machine} {x y : Register}

theorem follows_skip (hp : m.state.pc.toNat + 2 ≤ Memory.size) (c : Condition) :
    Follows m (.skip c) := by
  have ha := State.Bounded.advance_lt hp
  have hc : c.holds m.state.advance = c.holds m.state := by cases c <;> rfl
  cases hh : c.holds m.state
  case false =>
    simp [Follows, execute, holds_bare, Instruction.execute, Instruction.events, hc, hh]
    rfl
  case true =>
    simp [Follows, execute, holds_bare, moveOn_bare, Instruction.execute, Instruction.events, hc, hh, ha]
    rfl

theorem follows_alu (op : Alu) : Follows m (.alu op x y) := by
  simp [Follows, execute, register_bare, setRegister_bare, combine_eq, Instruction.execute,
    Instruction.events, State.compute]
  cases op.apply (m.state.v.get x) (m.state.v.get y)
  case mk r flag =>
    cases flag <;> simp [setFlag_bare, Chip8.Machine.executed, Instruction.drawsByte]

theorem follows_jumpOffset (target : Address) : Follows m (.jumpOffset target) := by
  have hs : sum UInt16.size (m.state.v.get .v0).toNat target =
      some ((m.state.v.get .v0).toNat + target) := by
    have := (m.state.v.get .v0).toNat_lt
    exact sum_eq (by simp only [UInt16.size]; omega)
  have hr : UInt16.ofNat ((m.state.v.get .v0).toNat + target) =
      (m.state.v.get .v0).toUInt16 + .ofNat target := by
    rw [← UInt16.toNat_inj]
    simp
  simp [Follows, execute, jumpTo, register_bare, Instruction.events, hs, hr, -UInt16.ofNat_add]
  rfl

theorem follows_glyph : Follows m (.glyph x) := by
  have := (m.state.v.get x).toNat_lt
  have hp : product UInt16.size Font.glyphSize (m.state.v.get x).toNat =
      some (Font.glyphSize * (m.state.v.get x).toNat) :=
    product_eq (by simp only [Font.glyphSize, UInt16.size]; omega)
  have hs : sum UInt16.size Font.start (Font.glyphSize * (m.state.v.get x).toNat) =
      some (Font.start + Font.glyphSize * (m.state.v.get x).toNat) :=
    sum_eq (by simp only [Font.start, Font.glyphSize, UInt16.size]; omega)
  simp [Follows, execute, register_bare, Instruction.events, hp, hs, -UInt16.ofNat_add]
  rfl

theorem follows_awaitKey : Follows m (.awaitKey x) := by
  cases hk : m.state.keypad.lowest
  case none =>
    simp [Follows, execute, lowestKey_bare, Instruction.execute_awaitKey_of_none hk, Instruction.events,
      State.awaitKey, hk]
    rfl
  case some =>
    simp [Follows, execute, lowestKey_bare, setRegister_bare, Instruction.execute_awaitKey_of_some hk,
      Instruction.events, State.awaitKey, hk]
    rfl

theorem follows_of_ok {i : Instruction} {s : Chip8.State}
    (he : i.execute m.generator.byte m.state = .ok s)
    (hb : execute i (Chip8.Machine.bare { m with state := m.state.advance }) =
      some (.ok (), (m.executed i s).bare, i.events m.state)) : Follows m i := by
  rw [Follows, he]
  exact hb

theorem follows_of_error {i : Instruction} {f : Fault}
    (he : i.execute m.generator.byte m.state = .error f)
    (hb : execute i (Chip8.Machine.bare { m with state := m.state.advance }) =
      some (.error f, Chip8.Machine.bare { m with state := m.state.advance }, [])) : Follows m i := by
  rw [Follows, he]
  exact hb

theorem follows_ret (hp : m.state.pc.toNat + 2 < UInt16.size) : Follows m .ret := by
  cases h : m.state.stack.pop m.state.pc
  case error =>
    refine follows_of_error (Fault.bind_ok_eq_error_iff.mpr h) ?_
    simp [execute, origin_bare, hp, pop_bare, h]
  case ok =>
    refine follows_of_ok (Fault.bind_ok_eq_ok_iff.mpr ⟨_, h, rfl⟩) ?_
    simp [execute, jumpTo, origin_bare, hp, pop_bare, h, Instruction.events]
    rfl

theorem follows_call (hp : m.state.pc.toNat + 2 < UInt16.size) (target : Address) :
    Follows m (.call target) := by
  have ha : m.state.advance.pc = m.state.pc + 2 := rfl
  cases h : m.state.stack.push (m.state.pc + 2) m.state.pc
  case error =>
    refine follows_of_error (Fault.bind_ok_eq_error_iff.mpr h) ?_
    simp [execute, origin_bare, hp, push_bare, ha, h]
  case ok =>
    refine follows_of_ok (Fault.bind_ok_eq_ok_iff.mpr ⟨_, h, rfl⟩) ?_
    simp [execute, origin_bare, hp, push_bare, ha, h, Instruction.events]
    rfl

theorem follows_draw (rows : Fin 16) : Follows m (.draw x y rows) := by
  cases h : m.state.memory.slice m.state.i.toNat rows
  case error =>
    refine follows_of_error (Fault.bind_ok_eq_error_iff.mpr h) ?_
    simp [execute, register_bare, read_bare, h]
  case ok =>
    refine follows_of_ok (Fault.bind_ok_eq_ok_iff.mpr ⟨_, h, rfl⟩) ?_
    simp [execute, register_bare, read_bare, drawSprite_bare, setFlag_bare, h, Instruction.events]
    rfl

theorem follows_decimal : Follows m (.decimal x) := by
  cases h : m.state.memory.write m.state.i.toNat (decimalDigits (m.state.v.get x))
  case error =>
    refine follows_of_error (Fault.bind_ok_eq_error_iff.mpr h) ?_
    simp [execute, register_bare, write_bare, h]
  case ok =>
    refine follows_of_ok (Fault.bind_ok_eq_ok_iff.mpr ⟨_, h, rfl⟩) ?_
    simp [execute, register_bare, write_bare, h, Instruction.events]
    rfl

theorem follows_store : Follows m (.store x) := by
  cases h : m.state.memory.write m.state.i.toNat (m.state.v.upTo x)
  case error =>
    refine follows_of_error (Fault.bind_ok_eq_error_iff.mpr h) ?_
    simp [execute, write_bare, slice_registers, count_eq, h]
  case ok =>
    refine follows_of_ok (Fault.bind_ok_eq_ok_iff.mpr ⟨_, h, rfl⟩) ?_
    simp [execute, write_bare, slice_registers, count_eq, h, Instruction.events]
    rfl

theorem follows_restore : Follows m (.restore x) := by
  cases h : m.state.memory.slice m.state.i.toNat (x + 1)
  case error =>
    refine follows_of_error (Fault.bind_ok_eq_error_iff.mpr h) ?_
    simp [execute, read_bare, count_eq, h]
  case ok bytes =>
    have hl : bytes.length ≤ 16 := by
      have ⟨_, hb⟩ := Memory.slice_eq_ok_iff.mp h
      simp [hb, Nat.succ_le_of_lt x.isLt]
    refine follows_of_ok (Fault.bind_ok_eq_ok_iff.mpr ⟨_, h, rfl⟩) ?_
    simp [execute, read_bare, count_eq, h, overwrite_registers hl, Instruction.events]
    generalize m.state.v.overlay bytes = v
    rfl

theorem follows (hp : m.state.pc.toNat + 2 ≤ Memory.size) (i : Instruction) : Follows m i := by
  have hq : m.state.pc.toNat + 2 < UInt16.size := Memory.lt_of_le_size hp
  cases i
  case clear =>
    simp [Follows, execute, Instruction.execute, Instruction.events, Display.clear, Chip8.Machine.executed,
      Chip8.Machine.bare, State.bare, bare_blank, Instruction.drawsByte]
  case ret => exact follows_ret hq
  case jump | loadIndex => rfl
  case call => exact follows_call hq _
  case skip => exact follows_skip hp _
  case loadByte => exact setRegister_bare ..
  case addByte | readDelay =>
    simp [Follows, execute, register_bare, setRegister_bare, Instruction.events]
    rfl
  case alu => exact follows_alu _
  case jumpOffset => exact follows_jumpOffset _
  case random =>
    have hs := setRegister_bare { m with state := m.state.advance, generator := m.generator.next }
    exact (Effect.after_nil _).trans (hs _ _)
  case draw => exact follows_draw _
  case awaitKey => exact follows_awaitKey
  case setDelay | setSound | addIndex =>
    simp [Follows, execute, register_bare, Instruction.events]
    rfl
  case glyph => exact follows_glyph
  case decimal => exact follows_decimal
  case store => exact follows_store
  case restore => exact follows_restore

end Instructions

end Bare
end Chip8
