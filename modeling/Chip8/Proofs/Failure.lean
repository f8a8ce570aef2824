import Chip8.Proofs.Embedding.Moves
import Chip8.Proofs.Refusal

-- A cycle that fails changes nothing, and fails in the same way again until a reset or a load that is
-- accepted comes in between: its reason lies in parts of the machine that no other command reaches.

namespace Chip8

-- The commands other than a reset and a load that is accepted.
def Command.Quiet : Command → Prop
  | load program => Memory.programLimit < program.length
  | reset => False
  | _ => True

namespace Session

variable {s : Session} {c : Command} {cs : List Command} {mv : Move}

theorem quiet_of_mem_move? (hq : c.Quiet) (hm : mv ∈ (s.move? c).toList) : mv.Quiet := by
  cases c
  case load | reset | cycle | tick | setHeld | collectFrame =>
    have hm := List.mem_singleton.mp hm
    exact hm ▸ hq
  case deliverKeys | post =>
    have ⟨_, _, hm⟩ := Option.map_eq_some_iff.mp (Option.mem_toList.mp hm)
    exact hm ▸ trivial
  all_goals cases hm

theorem quiet_of_mem_moves (hq : ∀ c ∈ cs, c.Quiet) (hm : mv ∈ s.moves cs) : mv.Quiet := by
  induction cs generalizing s
  case nil => cases hm
  case cons c cs ih =>
    have ⟨hc, hcs⟩ := List.forall_mem_cons.mp hq
    cases List.mem_append.mp hm
    case inl hm => exact quiet_of_mem_move? hc hm
    case inr hm => exact ih hcs hm

end Session

namespace Machine

variable {m n : Machine} {op : Opcode} {f : Fault} {mv : Move} {mvs : List Move}

-- Machines that agree in everything a refusal can depend on.
structure Alike (m n : Machine) : Prop where
  config  : n.config = m.config
  waiting : n.state.waiting = m.state.waiting
  pc      : n.state.pc = m.state.pc
  i       : n.state.i = m.state.i
  stack   : n.state.stack = m.state.stack
  memory  : n.state.memory = m.state.memory

namespace Alike

theorem refl : m.Alike m := ⟨rfl, rfl, rfl, rfl, rfl, rfl⟩

theorem word (ha : m.Alike n) : n.word = m.word := by
  rw [Machine.word, Machine.word, ha.memory, ha.pc]

theorem rejects (ha : m.Alike n) (h : m.Rejects op f) : n.Rejects op f := by
  cases h
  case unknown h hs => exact ha.pc ▸ .unknown h (ha.config ▸ hs)
  case underflow hf hk hd => exact ha.pc ▸ .underflow hf hk (ha.stack ▸ hd)
  case overflow hf hd => exact ha.pc ▸ .overflow hf (ha.stack ▸ hd)
  case sprite hf hi => exact ha.i ▸ .sprite hf (ha.i ▸ hi)
  case decimal hf hk hi => exact ha.i ▸ .decimal hf hk (ha.i ▸ hi)
  case registers hf hk hi => exact ha.i ▸ .registers hf hk (ha.i ▸ hi)

theorem refuses (ha : m.Alike n) (h : m.Refuses f) : n.Refuses f := by
  cases h
  case fetch hw hp => exact ha.pc ▸ .fetch (ha.waiting ▸ hw) (ha.pc ▸ hp)
  case word hw hp hr => exact .word (ha.waiting ▸ hw) (ha.pc ▸ hp) (ha.word ▸ ha.rejects hr)

end Alike

theorem Refuses.alike_act (h : m.Refuses f) (hq : mv.Quiet) : m.Alike (m.act mv) := by
  by_cases hc : mv = .cycle
  case pos =>
    subst hc
    have hm : m.act .cycle = m := congrArg Transition.machine h.cycle.eq_cycle.symm
    exact hm.symm ▸ .refl
  case neg =>
    have hr : mv ≠ .reset := fun hr => by
      subst hr
      cases hq
    have ⟨_, _, _, _, hm, _, hk⟩ := m.act_of_host hr hc
    rw [hm]
    exact ⟨rfl, rfl, rfl, rfl, rfl, hk hq⟩

theorem Refuses.run (h : m.Refuses f) (hq : ∀ mv ∈ mvs, mv.Quiet) : (m.run mvs).Refuses f := by
  induction mvs generalizing m
  case nil => exact h
  case cons mv mvs ih =>
    have ⟨hm, hms⟩ := List.forall_mem_cons.mp hq
    exact ih ((h.alike_act hm).refuses h) hms

end Machine

namespace Session

theorem failed_cycle_sticks {s : Session} {f : Fault} (hs : s.Reachable)
    (h : s.machine.cycle.result = .error f) :
    (s.step .cycle).1 = s ∧
      Bare.cycle s.machine.bare = some (.error f, s.machine.bare, [.failed s.machine.state.pc f]) ∧
      ∀ cs, (∀ c ∈ cs, c.Quiet) → (s.run cs).machine.cycle.result = .error f := by
  have hc := s.machine.cycle_goes
  have hm := hc.machine_eq_of_error h
  refine ⟨?_, ?_, ?_⟩
  case refine_1 => exact congrArg (Session.mk · s.links) hm
  case refine_2 =>
    have hb := Bare.cycle_bare hs.bounded hc
    rwa [h, hm, hc.events_eq_of_error h] at hb
  case refine_3 =>
    intro cs hq
    have hr := Machine.result_eq_error_iff.mp h
    rw [machine_run]
    exact Machine.result_eq_error_iff.mpr <| hr.run fun _ => quiet_of_mem_moves hq

-- A strict machine fails from power-on until a program is loaded.
theorem failed_cycle_sticks_from_power_on :
    let s := new { strict := true } ⟨.replicate 8 0⟩
    let f := Fault.unknownOpcode 0 0x200
    s.machine.cycle.result = .error f ∧ (s.step .cycle).1 = s ∧
      (s.run [.setHeld 3 true, .tick, .cycle]).machine.cycle.result = .error f := by
  intro s f
  have hw : s.machine.word = 0 := by decide +kernel
  have hd : Instruction.decode? 0 = none := rfl
  have hr : s.machine.Rejects 0 f := .unknown (Instruction.decode?_eq_none_iff.mp hd) rfl
  have hf := Machine.result_eq_error_iff.mpr <| .word rfl (by decide) (hw.symm ▸ hr)
  have ⟨hs, _, hc⟩ := failed_cycle_sticks (reachable_new ..) hf
  exact ⟨hf, hs, hc _ (by simp [Command.Quiet])⟩

end Session
end Chip8
