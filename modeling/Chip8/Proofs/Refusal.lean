import Chip8.Move
import Chip8.Proofs.Cycle
import Chip8.Proofs.Encoding

-- When a cycle is refused and with which fault, in terms of the word at `pc` and the numbers that
-- the instruction works with. A refusal changes nothing, and nothing but a reset or a load that goes
-- through takes its reason away.

namespace Chip8
namespace Instruction

-- How an instruction that is fetched in `s` is refused.
inductive Refused (s : State) : Instruction → Fault → Prop
  | ret (h : s.stack.depth = 0) : Refused s .ret (.stackUnderflow s.pc)
  | call (h : s.stack.depth = 16) : Refused s (.call target) (.stackOverflow s.pc)
  | draw (h : Memory.size < s.i.toNat + rows.val) :
    Refused s (.draw x y rows) (Memory.outside s.i.toNat)
  | decimal (h : Memory.size < s.i.toNat + 3) : Refused s (.decimal x) (Memory.outside s.i.toNat)
  | store (h : Memory.size < s.i.toNat + (x.val + 1)) :
    Refused s (.store x) (Memory.outside s.i.toNat)
  | restore (h : Memory.size < s.i.toNat + (x.val + 1)) :
    Refused s (.restore x) (Memory.outside s.i.toNat)

theorem execute_eq_error_iff {i : Instruction} {byte : UInt8} {s : State} {f : Fault} :
    i.execute byte s = .error f ↔ i.Refused s f := by
  constructor
  case mp =>
    intro h
    cases i <;> simp only [execute, reduceCtorEq] at h
    case ret =>
      obtain ⟨hd, hf⟩ := Stack.pop_eq_error_iff.mp (Fault.bind_ok_eq_error_iff.mp h)
      exact hf ▸ .ret hd
    case call =>
      obtain ⟨hd, hf⟩ := Stack.push_eq_error_iff.mp (Fault.bind_ok_eq_error_iff.mp h)
      exact hf ▸ .call hd
    case draw =>
      obtain ⟨hi, hf⟩ := Memory.slice_eq_error_iff.mp (Fault.bind_ok_eq_error_iff.mp h)
      exact hf ▸ .draw hi
    case decimal =>
      obtain ⟨hi, hf⟩ := Memory.write_eq_error_iff.mp (Fault.bind_ok_eq_error_iff.mp h)
      exact hf ▸ .decimal hi
    case store =>
      obtain ⟨hi, hf⟩ := Memory.write_eq_error_iff.mp (Fault.bind_ok_eq_error_iff.mp h)
      exact hf ▸ .store (by simpa using hi)
    case restore =>
      obtain ⟨hi, hf⟩ := Memory.slice_eq_error_iff.mp (Fault.bind_ok_eq_error_iff.mp h)
      exact hf ▸ .restore hi
  case mpr =>
    intro h
    cases h <;> refine Fault.bind_ok_eq_error_iff.mpr ?_
    case ret hd => exact Stack.pop_eq_error_iff.mpr ⟨hd, rfl⟩
    case call hd => exact Stack.push_eq_error_iff.mpr ⟨hd, rfl⟩
    case draw hi | restore hi => exact Memory.slice_eq_error_iff.mpr ⟨hi, rfl⟩
    case decimal hi => exact Memory.write_eq_error_iff.mpr ⟨hi, rfl⟩
    case store hi => exact Memory.write_eq_error_iff.mpr ⟨by simpa using hi, rfl⟩

end Instruction

namespace Machine

-- The word that `pc` points at.
def word (m : Machine) : Opcode :=
  .ofNat <| 256 * (m.state.memory.get m.state.pc.toNat).toNat +
    (m.state.memory.get (m.state.pc.toNat + 1)).toNat

-- How the word `op` is refused where it stands. Addresses are added without bound.
inductive Rejects (m : Machine) (op : Opcode) : Fault → Prop
  | unknown (ha : ¬op.Assigned) (hs : m.config.strict = true) :
    Rejects m op (.unknownOpcode op m.state.pc)
  | underflow (hf : op.family = 0x0) (hk : op.kk.toNat = 0xEE) (hd : m.state.stack.depth = 0) :
    Rejects m op (.stackUnderflow m.state.pc)
  | overflow (hf : op.family = 0x2) (hd : m.state.stack.depth = 16) :
    Rejects m op (.stackOverflow m.state.pc)
  | sprite (hf : op.family = 0xD) (hi : Memory.size < m.state.i.toNat + op.n) :
    Rejects m op (.outOfBounds (max m.state.i.toNat Memory.size))
  | decimal (hf : op.family = 0xF) (hk : op.kk.toNat = 0x33)
      (hi : Memory.size < m.state.i.toNat + 3) :
    Rejects m op (.outOfBounds (max m.state.i.toNat Memory.size))
  | registers (hf : op.family = 0xF) (hk : op.kk.toNat = 0x55 ∨ op.kk.toNat = 0x65)
      (hi : Memory.size < m.state.i.toNat + op.x + 1) :
    Rejects m op (.outOfBounds (max m.state.i.toNat Memory.size))

-- How a cycle is refused.
inductive Refuses (m : Machine) : Fault → Prop
  | fetch (hw : m.state.waiting = none) (hp : Memory.size < m.state.pc.toNat + 2) :
    Refuses m (.outOfBounds (max m.state.pc.toNat Memory.size))
  | word (hw : m.state.waiting = none) (hp : m.state.pc.toNat + 2 ≤ Memory.size)
      (hr : m.Rejects m.word f) :
    Refuses m f

variable {m : Machine} {op : Opcode} {t : Transition (Except Fault Outcome)} {f : Fault}

theorem fetch_eq_ok_iff :
    m.state.memory.fetch m.state.pc = .ok op ↔
      m.state.pc.toNat + 2 ≤ Memory.size ∧ op = m.word :=
  Memory.fetch_eq_ok_iff

theorem rejects_of_refused {i : Instruction} :
    op.Encodes i → i.Refused m.state f → m.Rejects op f
  | .ret hf hk, .ret hd => .underflow hf hk hd
  | .call hf, .call hd => .overflow hf hd
  | .draw hf, .draw hi => .sprite hf hi
  | .decimal hf hk, .decimal hi => .decimal hf hk hi
  | .store hf hk, .store hi => .registers hf (.inl hk) hi
  | .restore hf hk, .restore hi => .registers hf (.inr hk) hi

theorem Rejects.unknown_or_refused :
    m.Rejects op f → (¬op.Assigned ∧ m.config.strict = true ∧ f = .unknownOpcode op m.state.pc) ∨
      ∃ i, op.Encodes i ∧ i.Refused m.state f
  | unknown ha hs => .inl ⟨ha, hs, rfl⟩
  | underflow hf hk hd => .inr ⟨_, .ret hf hk, .ret hd⟩
  | overflow hf hd => .inr ⟨_, .call hf, .call hd⟩
  | sprite hf hi => .inr ⟨_, .draw hf, .draw hi⟩
  | decimal hf hk hi => .inr ⟨_, .decimal hf hk, .decimal hi⟩
  | registers hf (.inl hk) hi => .inr ⟨_, .store hf hk, .store hi⟩
  | registers hf (.inr hk) hi => .inr ⟨_, .restore hf hk, .restore hi⟩

theorem Cycle.refuses (h : m.Cycle t) (hr : t.result = .error f) : m.Refuses f := by
  cases h <;> cases hr
  case stray hw hf =>
    have ⟨hp, he⟩ := Memory.fetch_eq_error_iff.mp hf
    exact he ▸ .fetch hw hp
  case stop hw hf hd hs =>
    have ⟨hp, ho⟩ := fetch_eq_ok_iff.mp hf
    exact .word hw hp <| ho ▸ .unknown (Instruction.decode?_eq_none_iff.mp hd) hs
  case refuse hw hf hd he =>
    have ⟨hp, ho⟩ := fetch_eq_ok_iff.mp hf
    have hr := Instruction.execute_eq_error_iff.mp he
    exact .word hw hp <| ho ▸ rejects_of_refused (Instruction.encodes_of_decode? hd) hr

theorem Refuses.cycle : m.Refuses f → m.Cycle (m.fail f)
  | fetch hw hp => .stray hw <| Memory.fetch_eq_error_iff.mpr ⟨hp, rfl⟩
  | word hw hp hr => by
    have hf := fetch_eq_ok_iff.mpr ⟨hp, rfl⟩
    cases hr.unknown_or_refused
    case inl h =>
      obtain ⟨ha, hs, rfl⟩ := h
      exact .stop hw hf (Instruction.decode?_eq_none_iff.mpr ha) hs
    case inr h =>
      have ⟨_, hi, hr⟩ := h
      exact .refuse hw hf (Instruction.decode?_of_encodes hi) (Instruction.execute_eq_error_iff.mpr hr)

theorem result_eq_error_iff : m.cycle.result = .error f ↔ m.Refuses f where
  mp h  := m.cycle_goes.refuses h
  mpr h := h.cycle.eq_cycle ▸ rfl

theorem Rejects.ne_programTooLarge {size max : Nat} : ¬m.Rejects op (.programTooLarge size max) :=
  (nomatch ·)

theorem Rejects.ne_invalidKey {key : UInt8} : ¬m.Rejects op (.invalidKey key) :=
  (nomatch ·)

theorem Refuses.waiting : m.Refuses f → m.state.waiting = none
  | fetch hw _ | word hw _ _ => hw

-- A cycle fails exactly if it is refused, never with the fault of another operation, and not at all
-- while a key is pending.
theorem cycle_fails_iff_refused (m : Machine) :
    (∀ f, m.cycle.result = .error f ↔ m.Refuses f) ∧
    (∀ size max, m.cycle.result ≠ .error (.programTooLarge size max)) ∧
    (∀ key, m.cycle.result ≠ .error (.invalidKey key)) ∧
    (m.state.waiting = none ∨ ∃ o, m.cycle.result = .ok o) := by
  refine ⟨fun _ => result_eq_error_iff, ?_, ?_, ?_⟩
  case refine_1 =>
    intro size max h
    cases result_eq_error_iff.mp h
    case word hr => exact hr.ne_programTooLarge
  case refine_2 =>
    intro key h
    cases result_eq_error_iff.mp h
    case word hr => exact hr.ne_invalidKey
  case refine_3 =>
    cases h : m.cycle.result
    case error f => exact .inl (result_eq_error_iff.mp h).waiting
    case ok o => exact .inr ⟨o, rfl⟩

end Machine
end Chip8
