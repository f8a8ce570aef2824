import Chip8.Proofs.Bounds
import Chip8.Proofs.Commands

-- How far a countdown gets. Behind a divider it is a matter of two numbers, whatever the program does: the
-- cycles that are completed and the ticks of the host.

namespace Chip8

inductive Countdown where
  | delay
  | sound
deriving DecidableEq, Repr

namespace Timers

variable {t : Timers} {divider : UInt32}

-- What is left of a countdown.
def left (t : Timers) : Countdown → UInt8
  | .delay => t.delay
  | .sound => t.sound

theorem left_tick (t : Timers) (k : Countdown) : (t.tick.left k).toNat = (t.left k).toNat - 1 := by
  cases k <;> exact toNat_countdown _

-- Both countdowns go down in a cycle that reaches the divider, and stay where they are in any other.
theorem left_cycle_eq (t : Timers) (divider : UInt32) (k : Countdown) :
    ((t.cycle divider).left k).toNat =
      (t.left k).toNat - if max divider.toNat 1 ≤ t.phase + 1 then 1 else 0 := by
  unfold cycle
  split
  case isTrue hl =>
    rw [if_neg (Nat.not_le_of_lt hl)]
    cases k <;> rfl
  case isFalse hn =>
    rw [if_pos (Nat.le_of_not_lt hn), ← left_tick]
    cases k <;> rfl

-- The quotient is 1 in the cycle that makes the divider tick and 0 in the others.
theorem left_cycle (h : t.phase < max divider.toNat 1) (k : Countdown) :
    ((t.cycle divider).left k).toNat = (t.left k).toNat - (t.phase + 1) / max divider.toNat 1 := by
  rw [left_cycle_eq]
  split
  case isTrue hd =>
    have he : t.phase + 1 = max divider.toNat 1 := Nat.le_antisymm h hd
    rw [he, Nat.div_self (he ▸ Nat.succ_pos _)]
  case isFalse hn => rw [Nat.div_eq_of_lt (Nat.lt_of_not_le hn)]

end Timers

namespace Instruction

-- The register that the instruction sets a countdown from.
def setsFrom? : Instruction → Countdown → Option Register
  | setDelay x, .delay => some x
  | setSound x, .sound => some x
  | _, _ => none

theorem Yields.left {i : Instruction} {s s' : State} (k : Countdown) :
    i.Yields s s' → s'.timers.left k = (i.setsFrom? k).elim (s.timers.left k) s.v.get
  | setDelay | setSound => by cases k <;> rfl
  | jump | jumpOffset | call _ | ret _ | skip _ | stay _ | clear | draw _ | park _ | answer _ => rfl
  | registers hi | index hi | memory hi => by
    cases i <;> first | rfl | cases hi

end Instruction

namespace Reply

-- The register that a cycle has set a countdown from.
def setsFrom? : Reply → Countdown → Option Register
  | outcome (.executed _ _ i), k => i.setsFrom? k
  | _, _ => none

theorem setsFrom?_of_not_completes {r : Reply} (h : r.completes = false) (k : Countdown) :
    r.setsFrom? k = none := by
  cases r
  case outcome => cases h
  all_goals rfl

end Reply

-- Before the timers move, an instruction that sets a countdown has set it and nothing else has touched it.
theorem Machine.Cycle.settles {m : Machine} {t : Transition (Except Fault Outcome)} :
    m.Cycle t → ∃ w, w.config = m.config ∧ w.state.timers.phase = m.state.timers.phase ∧
      (∀ k, w.state.timers.left k =
        ((Reply.ofResult .outcome t.result).setsFrom? k).elim (m.state.timers.left k) m.state.v.get) ∧
      t.machine = if t.result.isOk then w.elapse else w
  | wait _ _ => ⟨m, rfl, rfl, fun _ => rfl, rfl⟩
  | receive _ _ => ⟨m.received _ _, rfl, rfl, fun _ => rfl, rfl⟩
  | skip _ _ _ _ => ⟨{ m with state := m.state.advance }, rfl, rfl, fun _ => rfl, rfl⟩
  | stray _ _ | stop _ _ _ _ | refuse _ _ _ _ => ⟨m, rfl, rfl, fun _ => rfl, rfl⟩
  | execute _ _ _ he =>
    have hy := Instruction.execute_yields he
    ⟨m.executed _ _, rfl, hy.phase, fun k => hy.left k, rfl⟩

namespace Session

variable {s : Session} {c : Command} {cs : List Command} {divider : UInt32} {k : Countdown}

-- How many cycles are completed along commands.
def completed (s : Session) (cs : List Command) : Nat :=
  (s.replies cs).countP Reply.completes

theorem completed_cons (s : Session) (c : Command) (cs : List Command) :
    s.completed (c :: cs) = (s.step c).1.completed cs + if (s.step c).2.1.completes then 1 else 0 := by
  rw [completed, replies_cons, List.countP_cons]
  rfl

-- What a command counts a countdown down from: the value that it sets it to, or what was left.
def start (s : Session) (c : Command) (k : Countdown) : UInt8 :=
  ((s.step c).2.1.setsFrom? k).elim (s.machine.state.timers.left k) s.machine.state.v.get

-- The machine is driven by the divider.
structure Driven (s : Session) (divider : UInt32) : Prop where
  timer : s.machine.config.timer = .cycles divider
  phase : s.machine.state.timers.phase < max divider.toNat 1

theorem timers_cycle (hs : s.Driven divider) :
    let e := s.machine.state.timers.phase + if (s.step .cycle).2.1.completes then 1 else 0
    let t := (s.step .cycle).1.machine.state.timers
    t.phase = e % max divider.toNat 1 ∧
      ∀ k, (t.left k).toNat = (s.start .cycle k).toNat - e / max divider.toNat 1 := by
  obtain ⟨w, hc, hp, hl, hm⟩ := s.machine.cycle_goes.settles
  have hs' : (s.step .cycle).1.machine = s.machine.cycle.machine := rfl
  have hb : ∀ k, s.start .cycle k = w.state.timers.left k := fun k => (hl k).symm
  have hd : w.state.timers.phase < max divider.toNat 1 := hp ▸ hs.phase
  simp only [hs', hm, hb, s.completes_cycle, ← hp]
  cases s.machine.cycle.result.isOk
  case false =>
    rw [if_neg Bool.false_ne_true, if_neg Bool.false_ne_true, Nat.add_zero, Nat.mod_eq_of_lt hd,
      Nat.div_eq_of_lt hd]
    exact ⟨rfl, fun _ => rfl⟩
  case true =>
    have hw : w.elapse.state.timers = w.state.timers.cycle divider := by
      rw [Machine.elapse_eq, hc, hs.timer]
      rfl
    rw [if_pos rfl, if_pos rfl, hw]
    exact ⟨Timers.phase_cycle hd, Timers.left_cycle hd⟩

-- One command: a completed cycle adds 1 to the count of the divider, a tick of the host takes 1 off.
theorem timers_command (hs : s.Driven divider) (hr : c ≠ .reset) :
    let e := s.machine.state.timers.phase + if (s.step c).2.1.completes then 1 else 0
    let t := (s.step c).1.machine.state.timers
    t.phase = e % max divider.toNat 1 ∧
      ∀ k, (t.left k).toNat =
        (s.start c k).toNat - (if c = .tick then 1 else 0) - e / max divider.toNat 1 := by
  by_cases hc : c = .cycle
  case pos => exact hc ▸ timers_cycle hs
  case neg =>
    have hn := s.completes_step hc
    have hb : ∀ k, s.start c k = s.machine.state.timers.left k := fun k => by
      rw [start, Reply.setsFrom?_of_not_completes hn]
      rfl
    simp only [hb]
    rw [hn, if_neg Bool.false_ne_true, Nat.add_zero, Nat.mod_eq_of_lt hs.phase, Nat.div_eq_of_lt hs.phase]
    by_cases ht : c = .tick
    case pos =>
      subst ht
      exact ⟨rfl, Timers.left_tick _⟩
    case neg =>
      rw [timers_step hr hc ht, if_neg ht]
      exact ⟨rfl, fun _ => rfl⟩

theorem Driven.step (hs : s.Driven divider) (hr : c ≠ .reset) : (s.step c).1.Driven divider where
  timer := s.config_step c ▸ hs.timer
  phase := by
    rw [(timers_command hs hr).1]
    exact Nat.mod_lt _ (by omega)

-- Counting down along one stretch and then along another: what the divider has counted in the first one
-- is carried over to the second.
theorem countdown_add {d : Nat} (hd : 0 < d) (a e n₁ n₂ h₁ h₂ : Nat) :
    a - h₁ - (e + n₁) / d - h₂ - ((e + n₁) % d + n₂) / d = a - (h₂ + h₁) - (e + (n₂ + n₁)) / d := by
  have hq : (e + (n₂ + n₁)) / d = (e + n₁) / d + ((e + n₁) % d + n₂) / d :=
    calc (e + (n₂ + n₁)) / d
      _ = (d * ((e + n₁) / d) + ((e + n₁) % d + n₂)) / d := by
        rw [← Nat.add_assoc (d * _), Nat.div_add_mod, Nat.add_comm n₂, Nat.add_assoc]
      _ = (e + n₁) / d + ((e + n₁) % d + n₂) / d := Nat.mul_add_div hd ..
  omega

theorem phase_run (hs : s.Driven divider) (hr : .reset ∉ cs) :
    (s.run cs).machine.state.timers.phase =
      (s.machine.state.timers.phase + s.completed cs) % max divider.toNat 1 := by
  induction cs generalizing s
  case nil => exact (Nat.mod_eq_of_lt hs.phase).symm
  case cons c cs ih =>
    have ⟨hc, hcs⟩ := List.ne_and_not_mem_of_not_mem_cons hr
    rw [run, ih (hs.step hc.symm) hcs, (timers_command hs hc.symm).1, Nat.mod_add_mod, completed_cons,
      Nat.add_assoc, Nat.add_comm (completed _ _)]

-- The law for the commands behind `c` makes the law for all of them.
theorem left_cons (hs : s.Driven divider) (hr : c ≠ .reset)
    (h : (((s.step c).1.run cs).machine.state.timers.left k).toNat =
      ((s.step c).1.machine.state.timers.left k).toNat - cs.count .tick -
        ((s.step c).1.machine.state.timers.phase + (s.step c).1.completed cs) / max divider.toNat 1) :
    ((s.run (c :: cs)).machine.state.timers.left k).toNat =
      (s.start c k).toNat - (c :: cs).count .tick -
        (s.machine.state.timers.phase + s.completed (c :: cs)) / max divider.toNat 1 := by
  have hd : 0 < max divider.toNat 1 := by omega
  have ⟨hp, hl⟩ := timers_command hs hr
  rw [run, h, hp, hl, countdown_add hd, completed_cons, List.count_cons]
  simp only [beq_iff_eq]

theorem left_run (hs : s.Driven divider) (hr : .reset ∉ cs)
    (hk : ∀ r ∈ s.replies cs, r.setsFrom? k = none) :
    ((s.run cs).machine.state.timers.left k).toNat =
      (s.machine.state.timers.left k).toNat - cs.count .tick -
        (s.machine.state.timers.phase + s.completed cs) / max divider.toNat 1 := by
  induction cs generalizing s
  case nil =>
    have hq : (s.machine.state.timers.phase + s.completed []) / max divider.toNat 1 = 0 :=
      Nat.div_eq_of_lt hs.phase
    rw [hq]
    rfl
  case cons c cs ih =>
    have ⟨hc, hcs⟩ := List.ne_and_not_mem_of_not_mem_cons hr
    have ⟨hk, hks⟩ := List.forall_mem_cons.mp hk
    rw [left_cons hs hc.symm (ih (hs.step hc.symm) hcs hks), start, hk]
    rfl

-- Where a countdown is not set, it has gone down by the ticks of the host and by one for every full round
-- of the divider. Where the first cycle sets it and none after that, it goes down from the new value in
-- the same way, that cycle included; setting it does not disturb the count of the divider.
theorem countdown_law (hs : s.Reachable) (ht : s.machine.config.timer = .cycles divider)
    (hr : .reset ∉ cs) :
    let d := max divider.toNat 1
    let e := s.machine.state.timers.phase
    let n := s.completed cs
    let h := cs.count .tick
    let t := (s.run cs).machine.state.timers
    t.phase = (e + n) % d ∧
    (∀ k, (∀ r ∈ s.replies cs, r.setsFrom? k = none) →
      (t.left k).toNat = (s.machine.state.timers.left k).toNat - h - (e + n) / d) ∧
    (∀ k x cs', cs = .cycle :: cs' → (s.step .cycle).2.1.setsFrom? k = some x →
      (∀ r ∈ (s.step .cycle).1.replies cs', r.setsFrom? k = none) →
      (t.left k).toNat = (s.machine.state.v.get x).toNat - h - (e + n) / d) := by
  intro d e n h t
  have hb := hs.bounded.phase
  rw [ht] at hb
  have hs : s.Driven divider := ⟨ht, hb⟩
  refine ⟨phase_run hs hr, fun k => left_run hs hr, ?_⟩
  rintro k x cs' rfl hx hk
  have ⟨hc, hcs⟩ := List.ne_and_not_mem_of_not_mem_cons hr
  have hl := left_cons hs hc.symm (left_run (hs.step hc.symm) hcs hk)
  rw [start, hx] at hl
  exact hl

-- The sound is set to 5 in the second cycle, and the delay in the third, which makes the divider tick.
-- The host ticks once more behind it.
theorem countdown_law_of_both :
    let s := (new { timer := .cycles 3 } ⟨.replicate 8 0⟩).run
      [.load [0x60, 0x05, 0xF0, 0x18, 0xF0, 0x15], .cycle, .cycle]
    let cs := [.cycle, .tick]
    s.Reachable ∧ s.machine.config.timer = .cycles 3 ∧ .reset ∉ cs ∧
      (s.run cs).machine.state.timers.phase = 0 ∧
      ((s.run cs).machine.state.timers.left .sound).toNat = 3 ∧
      ((s.run cs).machine.state.timers.left .delay).toNat = 3 := by
  intro s cs
  let s₀ := new { timer := .cycles 3 } ⟨.replicate 8 0⟩
  let program : List UInt8 := [0x60, 0x05, 0xF0, 0x18, 0xF0, 0x15]
  obtain ⟨memory, hm, h₀⟩ : ∃ memory, memory = Memory.initial.put 0x200 program ∧
      (s₀.step (.load program)).1 = { s₀ with machine.state.memory := memory } := ⟨_, rfl, rfl⟩
  have hf₁ : memory.fetch 0x200 = .ok 0x6005 :=
    hm ▸ Memory.fetch_put (by decide) (by decide) rfl rfl rfl
  have hf₂ : memory.fetch 0x202 = .ok 0xF018 :=
    hm ▸ Memory.fetch_put (by decide) (by decide) rfl rfl rfl
  have hf₃ : memory.fetch 0x204 = .ok 0xF015 :=
    hm ▸ Memory.fetch_put (by decide) (by decide) rfl rfl rfl
  let s₁ := { s₀ with machine.state.memory := memory }
  let s₂ := { s₁ with machine.state := { s₁.machine.state with
    pc := 0x202, v := Registers.initial.set .v0 5, timers := ⟨0, 0, 1⟩ } }
  let s₃ := { s₂ with machine.state := { s₂.machine.state with pc := 0x204, timers := ⟨0, 5, 2⟩ } }
  let s₄ := { s₃ with machine.state := { s₃.machine.state with pc := 0x206, timers := ⟨4, 4, 0⟩ } }
  have h₁ : (s₁.step .cycle).1 = s₂ :=
    congrArg Prod.fst (step_cycle (s := s₁) (.execute (i := .loadByte .v0 5) rfl hf₁ rfl rfl))
  have h₂ : (s₂.step .cycle).1 = s₃ :=
    congrArg Prod.fst (step_cycle (s := s₂) (.execute (i := .setSound .v0) rfl hf₂ rfl rfl))
  have h₃ : s₃.step .cycle = (s₄, .outcome (.executed 0x204 0xF015 (.setDelay .v0)),
      [.executed 0x204 0xF015 (.setDelay .v0) s₃.machine.state.v 0 0x206]) :=
    step_cycle (s := s₃) (.execute rfl hf₃ rfl rfl)
  have hs : s = s₃ := by
    simp only [s, run]
    rw [h₀, h₁, h₂]
  have hq : s.replies cs = [.outcome (.executed 0x204 0xF015 (.setDelay .v0)), .done] := by
    rw [hs, replies_cons, h₃]
    rfl
  have hn : s.completed cs = 1 := by
    rw [completed, hq]
    rfl
  have hr : s.Reachable := ⟨_, _, _, rfl⟩
  have ht : s.machine.config.timer = .cycles 3 := hs ▸ rfl
  have hb : .reset ∉ cs := by simp [cs]
  have he : s.machine.state.timers.phase = 2 := hs ▸ rfl
  obtain ⟨hp, hc, hd⟩ := countdown_law hr ht hb
  rw [he, hn] at hp hc hd
  refine ⟨hr, ht, hb, hp, ?_, ?_⟩
  case refine_1 =>
    have hv : s.machine.state.timers.left .sound = 5 := hs ▸ rfl
    refine (hc .sound ?_).trans (hv ▸ rfl)
    rw [hq]
    simp [Reply.setsFrom?, Instruction.setsFrom?]
  case refine_2 =>
    have hv : s.machine.state.v.get .v0 = 5 := hs ▸ rfl
    have hx : (s.step .cycle).2.1.setsFrom? .delay = some .v0 := by
      rw [hs, h₃]
      rfl
    refine (hd .delay .v0 _ rfl hx fun r h => ?_).trans (hv ▸ rfl)
    rw [List.mem_singleton.mp h]
    rfl

end Session
end Chip8
