import Chip8.Move
import Chip8.Proofs.Cycle
import Chip8.Proofs.Execution

-- The bounds that a machine never leaves. They lean on one another: an instruction is fetched from
-- inside memory, so the address behind it lies at most just outside, and so does every address that a
-- call puts on the stack; a return jumps no further than that, and an offset jump no further than 255
-- past the last address.

namespace Chip8

def Stack.Bounded (s : Stack) : Prop :=
  ∀ k, (s.slot k).toNat ≤ Memory.size

namespace Stack.Bounded

variable {s t : Stack} {address caller : UInt16}

theorem initial : Stack.initial.Bounded := by
  intro k
  simp

theorem push (hb : s.Bounded) (ha : address.toNat ≤ Memory.size)
    (h : s.push address caller = .ok t) : t.Bounded := by
  intro k
  rw [Stack.slot_push h]
  split
  case isTrue => exact ha
  case isFalse => exact hb k

theorem pop (hb : s.Bounded) (h : s.pop caller = .ok (address, t)) : t.Bounded :=
  fun k => Stack.slot_pop h k ▸ hb k

theorem popped_le (hb : s.Bounded) (h : s.pop caller = .ok (address, t)) :
    address.toNat ≤ Memory.size := by
  have ⟨k, _, ha, _⟩ := Stack.of_pop h
  exact ha ▸ hb k

end Stack.Bounded

structure State.Bounded (s : State) : Prop where
  pc_le : s.pc.toNat ≤ 0x10FE
  stack : s.stack.Bounded

namespace State

theorem toNat_add_two {address : UInt16} (h : address.toNat + 2 < UInt16.size) :
    (address + 2).toNat = address.toNat + 2 := by
  rw [UInt16.toNat_add]
  exact Nat.mod_eq_of_lt h

theorem toNat_target (target : Address) : (UInt16.ofNat target).toNat = target := by
  have := target.isLt
  rw [UInt16.toNat_ofNat']
  omega

theorem toNat_offset (byte : UInt8) (target : Address) :
    (byte.toUInt16 + .ofNat target).toNat = byte.toNat + target := by
  have := byte.toNat_lt
  have := target.isLt
  rw [UInt16.toNat_add, UInt8.toNat_toUInt16, toNat_target]
  omega

namespace Bounded

variable {s s' : State} {i : Instruction}

theorem initial : State.initial.Bounded where
  pc_le := by decide
  stack := .initial

theorem target_le (target : Address) : (UInt16.ofNat target).toNat ≤ 0x10FE := by
  have := target.isLt
  rw [toNat_target]
  omega

theorem offset_le (byte : UInt8) (target : Address) :
    (byte.toUInt16 + .ofNat target).toNat ≤ 0x10FE := by
  have := byte.toNat_lt
  have := target.isLt
  rw [toNat_offset]
  omega

theorem advance_le (hp : s.pc.toNat + 2 ≤ Memory.size) : s.advance.pc.toNat ≤ Memory.size := by
  rw [advance, toNat_add_two (Memory.lt_of_le_size hp)]
  exact hp

theorem advance_lt (hp : s.pc.toNat + 2 ≤ Memory.size) :
    s.advance.pc.toNat + 2 < UInt16.size :=
  Nat.lt_of_le_of_lt (Nat.add_le_add_right (advance_le hp) 2) (by decide)

theorem skip_le (hp : s.pc.toNat + 2 ≤ Memory.size) :
    s.advance.advance.pc.toNat ≤ Memory.size + 2 := by
  rw [advance, toNat_add_two (advance_lt hp)]
  exact Nat.add_le_add_right (advance_le hp) 2

theorem yields (hb : s.Bounded) (hp : s.pc.toNat + 2 ≤ Memory.size) : i.Yields s s' → s'.Bounded
  | .jump => ⟨target_le _, hb.stack⟩
  | .jumpOffset => ⟨offset_le .., hb.stack⟩
  | .call h => ⟨target_le _, hb.stack.push (advance_le hp) h⟩
  | .ret h => ⟨Nat.le_trans (hb.stack.popped_le h) (by decide), hb.stack.pop h⟩
  | .skip _ => ⟨Nat.le_trans (skip_le hp) (by decide), hb.stack⟩
  | .stay _ | .clear | .draw _ | .park _ | .answer _ | .registers _ | .index _ | .memory _
  | .setDelay | .setSound => ⟨Nat.le_trans (advance_le hp) (by decide), hb.stack⟩

end Bounded
end State

-- The numbers of cycles that a timer source can have counted since it last ticked.
def TimerSource.Allows : TimerSource → Nat → Prop
  | cycles divider, phase => phase < max divider.toNat 1
  | host, phase => phase = 0

namespace TimerSource.Allows

variable {source : TimerSource} {t : Timers}

theorem zero : source.Allows 0 := by
  cases source
  case cycles => exact Nat.lt_of_lt_of_le Nat.zero_lt_one (Nat.le_max_right ..)
  case host => rfl

theorem elapse (h : source.Allows t.phase) : source.Allows (source.elapse t).phase := by
  cases source
  case cycles divider => exact t.cycle_phase_lt divider
  case host => exact h

-- One more cycle can still be counted in 32 bits.
theorem lt (h : source.Allows t.phase) : t.phase + 1 < UInt32.size := by
  cases source
  case cycles divider =>
    have hd : max divider.toNat 1 < UInt32.size := Nat.max_lt.mpr ⟨divider.toNat_lt_size, by decide⟩
    exact Nat.lt_of_le_of_lt h hd
  case host => exact h ▸ by decide

end TimerSource.Allows

structure Machine.Bounded (m : Machine) : Prop where
  state : m.state.Bounded
  phase : m.config.timer.Allows m.state.timers.phase

namespace Machine.Bounded

variable {m : Machine} {t : Transition (Except Fault Outcome)}

theorem new (config : Config) (entropy : Key) : (Machine.new config entropy).Bounded where
  state := .initial
  phase := .zero

theorem elapse (hb : m.Bounded) : m.elapse.Bounded := by
  rw [elapse_eq]
  exact ⟨⟨hb.state.pc_le, hb.state.stack⟩, hb.phase.elapse⟩

theorem received (hb : m.Bounded) (x : Register) (key : Fin 16) : (m.received x key).Bounded :=
  ⟨⟨hb.state.pc_le, hb.state.stack⟩, hb.phase⟩

theorem advance (hb : m.Bounded) (hp : m.state.pc.toNat + 2 ≤ Memory.size) :
    Machine.Bounded { m with state := m.state.advance } where
  state := ⟨Nat.le_trans (State.Bounded.advance_le hp) (by decide), hb.state.stack⟩
  phase := hb.phase

theorem executed {i : Instruction} {s : State} {byte : UInt8} (hb : m.Bounded)
    (hp : m.state.pc.toNat + 2 ≤ Memory.size) (he : i.execute byte m.state = .ok s) :
    (m.executed i s).Bounded := by
  have hy := Instruction.execute_yields he
  exact ⟨hb.state.yields hp hy, hy.phase ▸ hb.phase⟩

theorem cycle (hb : m.Bounded) : m.Cycle t → t.machine.Bounded
  | .wait .. => hb.elapse
  | .receive .. => (hb.received ..).elapse
  | .stray .. | .stop .. | .refuse .. => hb
  | .skip _ hf _ _ =>
    have ⟨hp, _⟩ := Memory.fetch_eq_ok_iff.mp hf
    (hb.advance hp).elapse
  | .execute _ hf _ he =>
    have ⟨hp, _⟩ := Memory.fetch_eq_ok_iff.mp hf
    (hb.executed hp he).elapse

theorem act (hb : m.Bounded) (mv : Move) : (m.act mv).Bounded := by
  by_cases hr : mv = .reset
  case pos =>
    subst hr
    exact ⟨.initial, .zero⟩
  by_cases hc : mv = .cycle
  case pos =>
    subst hc
    exact hb.cycle m.cycle_goes
  case neg =>
    have ⟨_, _, _, _, hm, hp, _⟩ := m.act_of_host hr hc
    rw [hm]
    exact ⟨⟨hb.state.pc_le, hb.state.stack⟩, hp ▸ hb.phase⟩

theorem run (hb : m.Bounded) (mvs : List Move) : (m.run mvs).Bounded := by
  induction mvs generalizing m
  case nil => exact hb
  case cons mv _ ih => exact ih (hb.act mv)

end Machine.Bounded

theorem Session.Reachable.bounded {s : Session} : s.Reachable → s.machine.Bounded
  | ⟨config, entropy, cs, h⟩ => by
    rw [← h, machine_run]
    exact (Machine.Bounded.new config entropy).run _

end Chip8
