import Chip8.Proofs.Embedding.Instructions

-- A bare machine that stands for a machine within bounds follows it move by move, in place and without
-- ever leaving the bounds of a word or an array.

namespace Chip8
namespace Bare

-- Cycles

section Cycles

variable {m : Chip8.Machine} {t : Transition (Except Fault Outcome)} {x : Register} {op : Opcode}
  {i : Instruction} {f : Fault} {s : Chip8.State}

theorem sampleKeys_bare_none (hk : m.state.keypad.lowest = none) :
    sampleKeys x m.bare = some (.ok (.waiting x), m.bare, []) := by
  simp [sampleKeys, registerNumber, lowestKey_bare, hk]

theorem sampleKeys_bare_some (hk : m.state.keypad.lowest = some key) :
    sampleKeys x m.bare =
      some (.ok (.keyReceived x key), (m.received x key).bare, [.keyReceived x key]) := by
  simp [sampleKeys, registerNumber, lowestKey_bare, setRegister_bare, hk]
  rfl

theorem perform_bare_ok (hp : m.state.pc.toNat + 2 ≤ Memory.size)
    (he : i.execute m.generator.byte m.state = .ok s) :
    perform m.state.pc op i m.bare =
      some (.ok (.executed m.state.pc op i), (m.executed i s).bare,
        i.events m.state ++ [.executed m.state.pc op i s.v s.i s.pc]) := by
  have hf := follows hp i
  have hq : m.state.pc.toNat + 2 < UInt16.size := Memory.lt_of_le_size hp
  rw [Follows, he] at hf
  simp [perform, moveOn_bare, hq, hf]
  exact ⟨rfl, rfl, rfl⟩

theorem perform_bare_error (hp : m.state.pc.toNat + 2 ≤ Memory.size)
    (he : i.execute m.generator.byte m.state = .error f) :
    perform m.state.pc op i m.bare = some (.error f, m.bare, [.failed m.state.pc f]) := by
  have hf := follows hp i
  have hq : m.state.pc.toNat + 2 < UInt16.size := Memory.lt_of_le_size hp
  rw [Follows, he] at hf
  simp [perform, moveOn_bare, hq, hf]
  rfl

theorem lookup_eq (op : Opcode) : lookup op = some (Instruction.decode? op) :=
  if_pos op.family_lt

theorem cycle_bare_of_ok {m' : Chip8.Machine} {o : Outcome} {es : List Event} (hb : m'.Bounded)
    (ha : attempt m.bare = some (.ok o, m'.bare, es)) :
    cycle m.bare = some (.ok o, m'.elapse.bare, es) := by
  simp [cycle, ha, elapse_bare m' hb.phase]

theorem cycle_bare_of_error (ha : attempt m.bare = some (.error f, m.bare, es)) :
    cycle m.bare = some (.error f, m.bare, es) := by
  simp [cycle, ha]

theorem cycle_bare (hb : m.Bounded) : m.Cycle t →
    cycle m.bare = some (t.result, t.machine.bare, t.events)
  | .wait hw hk => by
    refine cycle_bare_of_ok hb ?_
    simp [attempt, hw, sampleKeys_bare_none hk]
  | .receive hw hk => by
    refine cycle_bare_of_ok (hb.received ..) ?_
    simp [attempt, hw, sampleKeys_bare_some hk]
  | .stray hw hf => by
    refine cycle_bare_of_error ?_
    simp [attempt, hw, fetchExecute, fetch_bare, hf, Chip8.Machine.fail]
  | .stop hw hf hd hs => by
    refine cycle_bare_of_error ?_
    simp [attempt, hw, fetchExecute, fetch_bare, hf, lookup_eq, hd, skipUnknown, hs, Chip8.Machine.fail]
  | .skip hw hf hd hs => by
    have ⟨hp, _⟩ := Memory.fetch_eq_ok_iff.mp hf
    have hq : m.state.pc.toNat + 2 < UInt16.size := Memory.lt_of_le_size hp
    refine cycle_bare_of_ok (hb.advance hp) ?_
    simp [attempt, hw, fetchExecute, fetch_bare, hf, lookup_eq, hd, skipUnknown, hs, moveOn_bare, hq]
  | .refuse hw hf hd he => by
    have ⟨hp, _⟩ := Memory.fetch_eq_ok_iff.mp hf
    refine cycle_bare_of_error ?_
    simp [attempt, hw, fetchExecute, fetch_bare, hf, lookup_eq, hd, perform_bare_error hp he,
      Chip8.Machine.fail]
  | .execute hw hf hd he => by
    have ⟨hp, _⟩ := Memory.fetch_eq_ok_iff.mp hf
    refine cycle_bare_of_ok (hb.executed hp he) ?_
    simp [attempt, hw, fetchExecute, fetch_bare, hf, lookup_eq, hd, perform_bare_ok hp he]

end Cycles

-- Moves of the host

theorem load_bare (m : Chip8.Machine) (program : List UInt8) :
    load program m.bare =
      some ((m.load program).result, (m.load program).machine.bare, (m.load program).events) := by
  have hd : difference Memory.size Memory.programStart = some Memory.programLimit := rfl
  by_cases h : program.length ≤ Memory.programLimit
  case pos =>
    have hw : m.state.memory.write Memory.programStart program =
        .ok (m.state.memory.put Memory.programStart program) :=
      if_pos (Nat.add_le_of_le_sub' (by decide) h)
    simp [load, hd, h, write_bare, hw, Chip8.Machine.load, Memory.load]
  case neg => simp [load, hd, h, Chip8.Machine.load, Memory.load]

theorem deliver_bare (m : Chip8.Machine) (changes : List KeyChange) :
    ∃ r, deliver changes m.bare = some (r, (m.act (.deliver changes)).bare, []) := by
  induction changes generalizing m
  case nil => exact ⟨_, rfl⟩
  case cons c cs ih =>
    cases hs : m.state.keypad.set c.key c.held
    case error f =>
      exact ⟨.error f, by simp [deliver, setHeld_bare, Chip8.Machine.setHeld, Chip8.Machine.act,
        Keypad.applyAll, hs]⟩
    case ok keypad =>
      obtain ⟨r, hr⟩ := ih { m with state := { m.state with keypad } }
      exact ⟨r, by simpa [deliver, setHeld_bare, Chip8.Machine.setHeld, Chip8.Machine.act,
        Keypad.applyAll, hs] using hr⟩

theorem initial_bare : State.initial = Chip8.State.initial.bare := by
  ext <;> simp [State.initial, Chip8.State.initial, Chip8.State.bare, Registers.initial, Stack.initial,
    Keypad.initial, Timers.initial, bare_blank, Memory.programStart]

theorem act_bare {m : Chip8.Machine} (hb : m.Bounded) (mv : Move) :
    ∃ r es, act mv m.bare = some (r, (m.act mv).bare, es) := by
  cases mv
  case load program => exact ⟨_, _, load_bare m program⟩
  case reset =>
    exact ⟨.ok (), [.reset], by simp [act, initial_bare, Chip8.Machine.act, Chip8.Machine.reset]; rfl⟩
  case cycle =>
    have hc := cycle_bare hb m.cycle_goes
    exact ⟨m.cycle.result.map fun _ => (), m.cycle.events, by
      cases hr : m.cycle.result <;> simp [act, hc, hr, Chip8.Machine.act, Except.map]⟩
  case tick => exact ⟨_, _, tick_bare m⟩
  case setHeld key held => exact ⟨_, _, setHeld_bare m key held⟩
  case collectFrame => exact ⟨_, _, rfl⟩
  case deliver changes =>
    obtain ⟨r, hr⟩ := deliver_bare m changes
    exact ⟨r, [], hr⟩

theorem new_bare (config : Config) (entropy : Key) :
    Machine.new config entropy = (Chip8.Machine.new config entropy).bare := by
  rw [Machine.new, initial_bare]
  rfl

theorem run_bare {m : Chip8.Machine} (hb : m.Bounded) (mvs : List Move) :
    Machine.run m.bare mvs = some (m.run mvs).bare := by
  induction mvs generalizing m
  case nil => rfl
  case cons mv mvs ih =>
    have ⟨_, _, ha⟩ := act_bare hb mv
    rw [Machine.run, ha]
    exact ih (hb.act mv)

end Bare
end Chip8
