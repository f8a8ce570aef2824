import Chip8.Proofs.Commands
import Chip8.Proofs.Execution
import Chip8.Proofs.Refusal

-- Which bytes of memory commands read and which they write. A command puts a list of bytes in one place, and
-- of memory it takes account of no more than the bytes that it reads.

namespace Chip8
namespace Memory

variable {m m₁ m₂ : Memory} {a k : Nat} {bs : List UInt8}

-- There is nothing to put, or room for all of it.
def Fits (a : Nat) (bs : List UInt8) : Prop :=
  bs = [] ∨ a + bs.length ≤ size

theorem get_put_of_fits (h : Fits a bs) (k : Nat) :
    (m.put a bs).get k = if a ≤ k ∧ k < a + bs.length then bs[k - a]?.getD 0 else m.get k := by
  cases h
  case inl h =>
    have : ¬(a ≤ k ∧ k < a + ([] : List UInt8).length) := by simp
    rw [h, put_nil, if_neg this]
  case inr h => exact get_put h k

theorem get_put_of_not_mem (h : Fits a bs) (hk : k ∉ List.range' a bs.length) :
    (m.put a bs).get k = m.get k := by
  rw [get_put_of_fits h, if_neg (mt List.mem_range'_1.mpr hk)]

theorem fetch_put_of_not_mem {k : UInt16} (h : Fits a bs) (h₀ : k.toNat ∉ List.range' a bs.length)
    (h₁ : k.toNat + 1 ∉ List.range' a bs.length) : (m.put a bs).fetch k = m.fetch k := by
  rw [fetch, fetch, get_put_of_not_mem h h₀, get_put_of_not_mem h h₁]

-- What is put somewhere is the same wherever it is put, and hides what was there before.
theorem get_put_eq_get_put (h : Fits a bs) (hk : k ∉ List.range' a bs.length → m₁.get k = m₂.get k) :
    (m₁.put a bs).get k = (m₂.put a bs).get k := by
  by_cases hm : k ∈ List.range' a bs.length
  case pos =>
    rw [List.mem_range'_1] at hm
    rw [get_put_of_fits h, get_put_of_fits h, if_pos hm, if_pos hm]
  case neg => rw [get_put_of_not_mem h hm, get_put_of_not_mem h hm, hk hm]

theorem get_put_self (h : Fits a bs) (hk : k < bs.length) : (m.put a bs).get (a + k) = bs[k] := by
  have : a ≤ a + k ∧ a + k < a + bs.length := by omega
  rw [get_put_of_fits h, if_pos this, Nat.add_sub_cancel_left, List.getElem?_eq_getElem hk]
  rfl

theorem fits_bytes (m : Memory) : Fits 0 m.bytes.toList :=
  .inr (by simp [size])

-- All bytes of a memory, put at its start, are that memory.
theorem put_bytes (m₁ m₂ : Memory) : m₁.put 0 m₂.bytes.toList = m₂ := by
  refine ext_get fun k => ?_
  rw [get_put_of_fits (fits_bytes m₂)]
  by_cases hk : k < 4096
  case pos => simp [get, hk]
  case neg => simp [get, hk]

end Memory

theorem State.compute_withMemory (s : State) (memory : Memory) (op : Alu) (x y : Register) :
    State.compute { s with memory } op x y = { s.compute op x y with memory } := by
  simp only [compute]
  split <;> rfl

namespace Instruction

variable {i : Instruction} {byte : UInt8} {s s' : State} {memory : Memory} {f : Fault}

-- How many bytes an instruction takes from memory, from `I` on.
def inputSize : Instruction → Nat
  | draw _ _ rows => rows
  | restore x => x + 1
  | _ => 0

-- The bytes that it puts there.
def output (s : State) : Instruction → List UInt8
  | decimal x => decimalDigits (s.v.get x)
  | store x => s.v.upTo x
  | _ => []

theorem execute_memory (h : i.execute byte s = .ok s') :
    s'.memory = s.memory.put s.i.toNat (i.output s) ∧ Memory.Fits s.i.toNat (i.output s) := by
  cases i
  case decimal | store =>
    have ⟨_, hm, hs⟩ := Fault.bind_ok_eq_ok_iff.mp h
    have ⟨hf, hp⟩ := Memory.write_eq_ok_iff.mp hm
    exact ⟨hs ▸ hp, .inr hf⟩
  case ret | call | draw | restore =>
    have ⟨_, _, hs⟩ := Fault.bind_ok_eq_ok_iff.mp h
    exact ⟨hs ▸ rfl, .inl rfl⟩
  case skip c =>
    cases h
    cases c.holds s <;> exact ⟨rfl, .inl rfl⟩
  case alu op x y =>
    cases h
    have ⟨_, hv⟩ := s.advance.compute_eq op x y
    exact ⟨hv ▸ rfl, .inl rfl⟩
  case awaitKey =>
    obtain ⟨_, rfl⟩ | ⟨_, _, rfl⟩ := of_execute_awaitKey h <;> exact ⟨rfl, .inl rfl⟩
  all_goals
    cases h
    exact ⟨rfl, .inl rfl⟩

theorem Refused.withMemory (memory : Memory) : i.Refused s f → i.Refused { s with memory } f
  | ret h => .ret h
  | call h => .call h
  | draw h => .draw h
  | decimal h => .decimal h
  | store h => .store h
  | restore h => .restore h

-- A refusal has nothing to do with what memory holds.
theorem refused_withMemory (memory : Memory) (h : i.execute byte s = .error f) :
    i.execute byte { s with memory } = .error f :=
  execute_eq_error_iff.mpr ((execute_eq_error_iff.mp h).withMemory memory)

-- The bytes of another memory are as good, if they are the same where the instruction reads.
theorem execute_withMemory (h : i.execute byte s = .ok s')
    (hr : ∀ a ∈ List.range' s.i.toNat i.inputSize, memory.get a = s.memory.get a) :
    i.execute byte { s with memory } =
      .ok { s' with memory := memory.put s.i.toNat (i.output s) } := by
  cases i
  case draw | restore =>
    have ⟨bs, hm, hs⟩ := Fault.bind_ok_eq_ok_iff.mp h
    have ⟨hf, hb⟩ := Memory.slice_eq_ok_iff.mp hm
    refine Fault.bind_ok_eq_ok_iff.mpr ⟨bs, Memory.slice_eq_ok_iff.mpr ⟨hf, ?_⟩, by rw [hs]; rfl⟩
    rw [hb]
    refine List.map_congr_left fun k hk => (hr _ ?_).symm
    have := List.mem_range.mp hk
    exact List.mem_range'_1.mpr ⟨Nat.le_add_right .., Nat.add_lt_add_left this _⟩
  case decimal | store =>
    have ⟨_, hm, hs⟩ := Fault.bind_ok_eq_ok_iff.mp h
    have ⟨hf, _⟩ := Memory.write_eq_ok_iff.mp hm
    exact Fault.bind_ok_eq_ok_iff.mpr ⟨_, Memory.write_eq_ok_iff.mpr ⟨hf, rfl⟩, by rw [hs]; rfl⟩
  case ret | call =>
    have ⟨_, hm, hs⟩ := Fault.bind_ok_eq_ok_iff.mp h
    exact Fault.bind_ok_eq_ok_iff.mpr ⟨_, hm, by rw [hs]; rfl⟩
  case skip c =>
    have hc : c.holds { s with memory } = c.holds s := by cases c <;> rfl
    cases h
    simp only [execute, hc]
    cases c.holds s <;> rfl
  case alu op x y =>
    cases h
    exact congrArg Except.ok (s.advance.compute_withMemory memory op x y)
  case awaitKey =>
    obtain ⟨hk, rfl⟩ | ⟨_, hk, rfl⟩ := of_execute_awaitKey h
    case inl => exact execute_awaitKey_of_none (s := { s with memory }) hk
    case inr => exact execute_awaitKey_of_some (s := { s with memory }) hk
  all_goals
    cases h
    rfl

end Instruction

-- The instruction that a cycle came to execute.
def Outcome.instruction? : Except Fault Outcome → Option Instruction
  | .ok (.executed _ _ i) => some i
  | _ => none

namespace Machine

variable {m : Machine} {t : Transition (Except Fault Outcome)} {i : Instruction} {op : Opcode}
  {memory : Memory}

-- The instruction that the next cycle executes, if it executes one.
def executed? (m : Machine) : Option Instruction :=
  Outcome.instruction? m.cycle.result

-- Where the next cycle fetches its word from, if it fetches one.
def fetched (m : Machine) : List Nat :=
  if m.state.waiting = none ∧ m.state.pc.toNat + 2 ≤ Memory.size then
    [m.state.pc.toNat, m.state.pc.toNat + 1]
  else
    []

-- The addresses that the next cycle reads.
def reads (m : Machine) : List Nat :=
  m.fetched ++ List.range' m.state.i.toNat (m.executed?.elim 0 Instruction.inputSize)

-- The bytes that the next cycle puts into memory, from `I` on.
def output (m : Machine) : List UInt8 :=
  m.executed?.elim [] (Instruction.output m.state)

def withMemory (m : Machine) (memory : Memory) : Machine :=
  { m with state.memory := memory }

theorem load_of_le {program : List UInt8} (h : program.length ≤ Memory.programLimit) :
    m.load program = ⟨m.withMemory (m.state.memory.put Memory.programStart program), .ok (),
      [.loaded program.length]⟩ := by
  have hl : m.state.memory.load program = .ok _ := if_pos h
  rw [load, hl]
  rfl

theorem load_of_not_le {program : List UInt8} (h : ¬program.length ≤ Memory.programLimit) :
    m.load program = ⟨m, .error (.programTooLarge program.length Memory.programLimit), []⟩ := by
  have hl : m.state.memory.load program = .error _ := if_neg h
  rw [load, hl]

theorem elapse_withMemory (m : Machine) (memory : Memory) :
    (m.withMemory memory).elapse = m.elapse.withMemory memory := by
  rw [elapse_eq, elapse_eq]
  rfl

theorem Cycle.executed?_eq (h : m.Cycle t) : m.executed? = Outcome.instruction? t.result := by
  rw [executed?, h.eq_cycle]

-- A cycle that executes an instruction goes one way.
theorem of_executed? (h : m.executed? = some i) : ∃ op s,
    m.state.waiting = none ∧ m.state.memory.fetch m.state.pc = .ok op ∧
      Instruction.decode? op = some i ∧ i.execute m.generator.byte m.state = .ok s ∧
      m.cycle.machine = (m.executed i s).elapse := by
  have hc := m.cycle_goes
  rw [executed?] at h
  generalize m.cycle = t at hc h
  cases hc
  case execute hw hf hd he =>
    cases h
    exact ⟨_, _, hw, hf, hd, he, rfl⟩
  all_goals cases h

-- What a cycle reads and writes whose instruction is known and goes through.
theorem uses_of_execute {s : State} (hw : m.state.waiting = none)
    (hf : m.state.memory.fetch m.state.pc = .ok op) (hd : Instruction.decode? op = some i)
    (he : i.execute m.generator.byte m.state = .ok s) :
    m.reads = m.state.pc.toNat :: (m.state.pc.toNat + 1) ::
      List.range' m.state.i.toNat i.inputSize ∧ m.output = i.output m.state := by
  have hc : m.Cycle _ := .execute hw hf hd he
  rw [reads, output, hc.executed?_eq, fetched, if_pos ⟨hw, (Memory.fetch_eq_ok_iff.mp hf).1⟩]
  exact ⟨rfl, rfl⟩

theorem Cycle.memory_eq (h : m.Cycle t) :
    t.machine.state.memory = m.state.memory.put m.state.i.toNat m.output ∧
      Memory.Fits m.state.i.toNat m.output := by
  rw [output, h.executed?_eq]
  cases h
  case execute he =>
    have ⟨hm, hf⟩ := Instruction.execute_memory he
    exact ⟨(elapse_memory _).trans hm, hf⟩
  case wait | receive | skip => exact ⟨elapse_memory _, .inl rfl⟩
  case stray | stop | refuse => exact ⟨rfl, .inl rfl⟩

theorem fetch_withMemory (hw : m.state.waiting = none)
    (hf : m.state.memory.fetch m.state.pc = .ok op)
    (hr : ∀ a ∈ m.fetched, memory.get a = m.state.memory.get a) :
    memory.fetch m.state.pc = .ok op := by
  have ⟨hp, ho⟩ := Memory.fetch_eq_ok_iff.mp hf
  rw [fetched, if_pos ⟨hw, hp⟩] at hr
  have h₀ := hr _ (List.mem_cons_self ..)
  have h₁ := hr _ (List.mem_cons_of_mem _ (List.mem_cons_self ..))
  exact Memory.fetch_eq_ok_iff.mpr ⟨hp, by rw [h₀, h₁, ho]⟩

-- Where the bytes that are read are the same, both machines go the same way.
theorem Cycle.withMemory (h : m.Cycle t) (hr : ∀ a ∈ m.reads, memory.get a = m.state.memory.get a) :
    (m.withMemory memory).Cycle
      ⟨t.machine.withMemory (memory.put m.state.i.toNat m.output), t.result, t.events⟩ := by
  have ⟨hr₁, hr₂⟩ := List.forall_mem_append.mp hr
  rw [h.executed?_eq] at hr₂
  rw [output, h.executed?_eq]
  cases h
  case wait hw hk =>
    exact elapse_withMemory .. ▸ .wait (m := m.withMemory memory) hw hk
  case receive hw hk =>
    exact elapse_withMemory .. ▸ .receive (m := m.withMemory memory) hw hk
  case stray hw hf =>
    have hf' : memory.fetch m.state.pc = _ :=
      Memory.fetch_eq_error_iff.mpr (Memory.fetch_eq_error_iff.mp hf)
    exact .stray (m := m.withMemory memory) hw hf'
  case stop hw hf hd hs =>
    have hf' := fetch_withMemory hw hf hr₁
    exact .stop (m := m.withMemory memory) hw hf' hd hs
  case skip hw hf hd hs =>
    have hf' := fetch_withMemory hw hf hr₁
    exact elapse_withMemory .. ▸ .skip (m := m.withMemory memory) hw hf' hd hs
  case refuse hw hf hd he =>
    have hf' := fetch_withMemory hw hf hr₁
    have he' := Instruction.refused_withMemory memory he
    exact .refuse (m := m.withMemory memory) hw hf' hd he'
  case execute i _ hw hf hd he =>
    have hf' := fetch_withMemory hw hf hr₁
    have he' := Instruction.execute_withMemory he hr₂
    have hs := i.events_congr (m.withMemory memory).state m.state rfl
    exact hs ▸ elapse_withMemory .. ▸ .execute (m := m.withMemory memory) hw hf' hd he'

end Machine

namespace Session

variable {s : Session} {c : Command} {cs : List Command} {a : Nat} {memory : Memory}

-- What a command puts into memory, behind the address where it puts it.
def puts (s : Session) : Command → Nat × List UInt8
  | .load program =>
    if program.length ≤ Memory.programLimit then (Memory.programStart, program) else (0, [])
  | .reset => (0, Memory.initial.bytes.toList)
  | .cycle => (s.machine.state.i.toNat, s.machine.output)
  | _ => (0, [])

-- The addresses that a command writes.
def writes (s : Session) (c : Command) : List Nat :=
  List.range' (s.puts c).1 (s.puts c).2.length

-- The addresses that a command reads.
def reads (s : Session) : Command → List Nat
  | .cycle => s.machine.reads
  | _ => []

-- The addresses that commands write, one after the other.
def written (s : Session) : List Command → List Nat
  | [] => []
  | c :: cs => s.writes c ++ written (s.step c).1 cs

theorem fits_puts (s : Session) (c : Command) : Memory.Fits (s.puts c).1 (s.puts c).2 := by
  cases c
  case load program =>
    rw [puts]
    split
    case isTrue h =>
      simp only [Memory.programLimit, Memory.programStart, Memory.size] at h
      exact .inr (by simp only [Memory.programStart, Memory.size]; omega)
    case isFalse => exact .inl rfl
  case reset =>
    simp only [puts]
    exact Memory.initial.fits_bytes
  case cycle => exact s.machine.cycle_goes.memory_eq.2
  all_goals exact .inl rfl

theorem memory_step (s : Session) (c : Command) : (s.step c).1.machine.state.memory =
    s.machine.state.memory.put (s.puts c).1 (s.puts c).2 := by
  cases c
  case load program =>
    by_cases h : program.length ≤ Memory.programLimit
    case pos => rw [step, puts, if_pos h, Machine.load_of_le h]; rfl
    case neg => rw [step, puts, if_neg h, Machine.load_of_not_le h]; rfl
  case reset =>
    rw [puts, Memory.put_bytes _ .initial]
    rfl
  case cycle => exact s.machine.cycle_goes.memory_eq.1
  case setHeld key held =>
    simp only [step, Machine.setHeld]
    split <;> rfl
  case tick | collectFrame | openLink => rfl
  case addFrontend | dropFrontend | detach | send | newest | deliverKeys | post =>
    simp only [step]
    split <;> rfl

theorem get_step (h : a ∉ s.writes c) :
    (s.step c).1.machine.state.memory.get a = s.machine.state.memory.get a := by
  rw [memory_step, Memory.get_put_of_not_mem (s.fits_puts c) h]

-- What no command writes stays as it is.
theorem get_run (h : a ∉ s.written cs) :
    (s.run cs).machine.state.memory.get a = s.machine.state.memory.get a := by
  induction cs generalizing s with
  | nil => rfl
  | cons c cs ih =>
    have ⟨hc, hcs⟩ := not_or.mp (mt List.mem_append.mpr h)
    exact (ih hcs).trans (get_step hc)

def withMemory (s : Session) (memory : Memory) : Session :=
  { s with machine := s.machine.withMemory memory }

-- Where the bytes that a command reads are the same, it does the same and puts the same into memory.
theorem step_withMemory (hr : ∀ a ∈ s.reads c, memory.get a = s.machine.state.memory.get a) :
    (s.withMemory memory).step c =
      ((s.step c).1.withMemory (memory.put (s.puts c).1 (s.puts c).2), (s.step c).2) := by
  cases c
  case cycle =>
    exact step_cycle (s := s.withMemory memory) (s.machine.cycle_goes.withMemory hr)
  case load program =>
    by_cases h : program.length ≤ Memory.programLimit
    case pos =>
      rw [step, step, puts, if_pos h, Machine.load_of_le h, Machine.load_of_le h]
      rfl
    case neg =>
      rw [step, step, puts, if_neg h, Machine.load_of_not_le h, Machine.load_of_not_le h]
      rfl
  case reset =>
    rw [puts, Memory.put_bytes _ .initial]
    rfl
  case setHeld key held =>
    simp only [step, Machine.setHeld, withMemory, Machine.withMemory]
    split <;> rfl
  case tick | collectFrame | openLink => rfl
  case addFrontend k | dropFrontend k | send k _ | newest k =>
    have hk : (s.withMemory memory).frontend? k = s.frontend? k := rfl
    simp only [step, hk]
    split <;> rfl
  case detach k | deliverKeys k | post k =>
    have hk : (s.withMemory memory).attached? k = s.attached? k := rfl
    simp only [step, hk]
    split <;> rfl

end Session
end Chip8
