import Chip8.Proofs.Execution
import Chip8.Proofs.Refusal

-- The wait for a key. An instruction that finds no key held parks the machine; from then on cycles
-- sample the keypad until one finds a key, whatever the host does in between.

namespace Chip8
namespace Machine

variable {m m₀ : Machine} {x : Register} {key : Fin 16} {mv : Move}

-- The instruction at `pc` is one that reads a key to `x`.
structure Awaits (m : Machine) (x : Register) : Prop where
  waiting : m.state.waiting = none
  inside  : m.state.pc.toNat + 2 ≤ Memory.size
  encodes : m.word.Encodes (.awaitKey x)

-- What `m₀`, parked for `x`, has become while it waits. The host may have changed the memory, the
-- keypad, the timers and the redraw flag.
structure Parked (m₀ : Machine) (x : Register) (m : Machine) : Prop where
  waiting   : m.state.waiting = some x
  pc        : m.state.pc = m₀.state.pc + 2
  v         : m.state.v = m₀.state.v
  i         : m.state.i = m₀.state.i
  stack     : m.state.stack = m₀.state.stack
  display   : m.state.display = m₀.state.display
  config    : m.config = m₀.config
  generator : m.generator = m₀.generator

-- The machine, had the keypad been different.
def withKeypad (m : Machine) (keypad : Keypad) : Machine :=
  { m with state.keypad := keypad }

namespace Awaits

theorem fetch (ha : m.Awaits x) : m.state.memory.fetch m.state.pc = .ok m.word :=
  fetch_eq_ok_iff.mpr ⟨ha.inside, rfl⟩

theorem decode (ha : m.Awaits x) : Instruction.decode? m.word = some (.awaitKey x) :=
  Instruction.decode?_of_encodes ha.encodes

theorem park (ha : m.Awaits x) (hk : m.state.keypad.Idle) :
    ∃ events, m.cycle = ⟨elapse { m with state := { m.state.advance with waiting := some x } },
      .ok (.executed m.state.pc m.word (.awaitKey x)), events⟩ := by
  have he : (Instruction.awaitKey x).execute m.generator.byte m.state =
      .ok { m.state.advance with waiting := some x } :=
    Instruction.execute_awaitKey_of_none (Keypad.lowest_eq_none_iff.mpr hk)
  have hc : m.Cycle _ := .execute ha.waiting ha.fetch ha.decode he
  exact ⟨_, hc.eq_cycle.symm⟩

theorem answer (ha : m.Awaits x) (hk : m.state.keypad.Lowest key) :
    ∃ events, m.cycle = ⟨elapse { m with state := m.state.advance.setV x (.ofNat key) },
      .ok (.executed m.state.pc m.word (.awaitKey x)), events⟩ := by
  have he : (Instruction.awaitKey x).execute m.generator.byte m.state =
      .ok (m.state.advance.setV x (.ofNat key)) :=
    Instruction.execute_awaitKey_of_some (Keypad.lowest_eq_some_iff.mpr hk)
  have hc : m.Cycle _ := .execute ha.waiting ha.fetch ha.decode he
  exact ⟨_, hc.eq_cycle.symm⟩

end Awaits

theorem cycle_of_idle (hw : m.state.waiting = some x) (hk : m.state.keypad.Idle) :
    m.cycle = ⟨m.elapse, .ok (.waiting x), []⟩ := by
  have hc : m.Cycle _ := .wait hw (Keypad.lowest_eq_none_iff.mpr hk)
  exact hc.eq_cycle.symm

theorem cycle_of_lowest (hw : m.state.waiting = some x) (hk : m.state.keypad.Lowest key) :
    m.cycle = ⟨(m.received x key).elapse, .ok (.keyReceived x key), [.keyReceived x key]⟩ := by
  have hc : m.Cycle _ := .receive hw (Keypad.lowest_eq_some_iff.mpr hk)
  exact hc.eq_cycle.symm

@[simp]
theorem elapse_waiting (m : Machine) : m.elapse.state.waiting = m.state.waiting := by
  rw [elapse_eq]

namespace Parked

-- What the host can do to a machine keeps it parked.
theorem host (hp : m₀.Parked x m) (memory : Memory) (keypad : Keypad) (timers : Timers) (redraw : Bool) :
    m₀.Parked x { m with state := { m.state with memory, keypad, timers, redraw } } :=
  ⟨hp.waiting, hp.pc, hp.v, hp.i, hp.stack, hp.display, hp.config, hp.generator⟩

theorem elapse (hp : m₀.Parked x m) : m₀.Parked x m.elapse := by
  rw [elapse_eq]
  exact hp.host ..

theorem act (hp : m₀.Parked x m) (hr : mv ≠ .reset) (hk : mv = .cycle → m.state.keypad.Idle) :
    m₀.Parked x (m.act mv) := by
  by_cases hc : mv = .cycle
  case pos =>
    subst hc
    rw [Machine.act, cycle_of_idle hp.waiting (hk rfl)]
    exact hp.elapse
  case neg =>
    obtain ⟨_, _, _, _, hm, _⟩ := m.act_of_host hr hc
    rw [hm]
    exact hp.host ..

end Parked

theorem Awaits.parked (ha : m.Awaits x) (hk : m.state.keypad.Idle) :
    m.Parked x m.cycle.machine := by
  have ⟨_, hc⟩ := ha.park hk
  have hp : m.Parked x { m with state := { m.state.advance with waiting := some x } } :=
    ⟨rfl, rfl, rfl, rfl, rfl, rfl, rfl, rfl⟩
  rw [hc]
  exact hp.elapse

theorem Awaits.withKeypad (ha : m.Awaits x) (keypad : Keypad) : (m.withKeypad keypad).Awaits x :=
  ⟨ha.waiting, ha.inside, ha.encodes⟩

-- Apart from the timers, and from what the host did meanwhile, a machine that was parked ends up where
-- it would be had the key been held from the start.
theorem Parked.agrees (hp : m₀.Parked x m) (ha : m₀.Awaits x) (hk : m.state.keypad.Lowest key) :
    let b := (m₀.withKeypad m.state.keypad).cycle.machine
    m.cycle.machine = { b with state := { b.state with
      memory := m.state.memory
      redraw := m.state.redraw
      timers := m.cycle.machine.state.timers } } := by
  have ⟨_, hc⟩ := (ha.withKeypad m.state.keypad).answer hk
  rw [cycle_of_lowest hp.waiting hk, hc]
  simp [elapse_eq, received, withKeypad, State.setV, State.advance, hp.v, hp.i, hp.pc, hp.stack,
    hp.display, hp.config, hp.generator, ha.waiting]

theorem act_pc_waiting (hr : mv ≠ .reset) (hc : mv ≠ .cycle) :
    (m.act mv).state.pc = m.state.pc ∧ (m.act mv).state.waiting = m.state.waiting := by
  obtain ⟨_, _, _, _, hm, _⟩ := m.act_of_host hr hc
  rw [hm]
  exact ⟨rfl, rfl⟩

-- A machine that waits after a cycle waited before, or has just been parked.
theorem Cycle.waiting {t : Transition (Except Fault Outcome)} (h : m.Cycle t)
    (hx : t.machine.state.waiting = some x) :
    m.state.keypad.Idle ∧ (m.state.waiting = some x ∨ m.Awaits x) := by
  cases h
  case wait hw hk => exact ⟨Keypad.lowest_eq_none_iff.mp hk, .inl (by simpa using hx)⟩
  case receive => simp [received] at hx
  case stray hw _ | stop hw _ _ _ | refuse hw _ _ _ => cases hw.symm.trans hx
  case skip hw _ _ _ => simp [hw] at hx
  case execute hw hf hd he =>
    rw [elapse_waiting] at hx
    cases (Instruction.execute_yields he).waiting
    case inl hs => cases hw.symm.trans (hs.symm.trans hx)
    case inr h =>
      obtain ⟨y, rfl, hk, hs⟩ := h
      obtain rfl := Option.some.inj (hs.symm.trans hx)
      obtain ⟨hi, ho⟩ := fetch_eq_ok_iff.mp hf
      exact ⟨Keypad.lowest_eq_none_iff.mp hk, .inr ⟨hw, hi, ho ▸ Instruction.encodes_of_decode? hd⟩⟩

end Machine

namespace Session

open Machine

variable {s : Session} {m₀ : Machine} {x : Register} {key : Fin 16} {c : Command} {cs : List Command}

-- What a waiting machine sleeps through: no reset, and no cycle that starts while a key is held.
def Sleeps (s : Session) : List Command → Prop
  | [] => True
  | c :: cs => c ≠ .reset ∧ (c = .cycle → s.machine.state.keypad.Idle) ∧ Sleeps (s.step c).1 cs

theorem parked_step (hp : m₀.Parked x s.machine) (hr : c ≠ .reset)
    (hk : c = .cycle → s.machine.state.keypad.Idle) : m₀.Parked x (s.step c).1.machine := by
  cases s.machine_step_cases c
  case inl h => exact h ▸ hp
  case inr h =>
    have ⟨_, h, hr', hc'⟩ := h
    exact h ▸ hp.act (hr ∘ hr') (hk ∘ hc')

theorem parked_run (hp : m₀.Parked x s.machine) (hs : s.Sleeps cs) :
    m₀.Parked x (s.run cs).machine := by
  induction cs generalizing s
  case nil => exact hp
  case cons c cs ih =>
    have ⟨hr, hk, hs⟩ := hs
    exact ih (parked_step hp hr hk) hs

theorem step_pc_waiting (hr : c ≠ .reset) (hc : c ≠ .cycle) :
    (s.step c).1.machine.state.pc = s.machine.state.pc ∧
      (s.step c).1.machine.state.waiting = s.machine.state.waiting := by
  cases s.machine_step_cases c
  case inl h => exact h ▸ ⟨rfl, rfl⟩
  case inr h =>
    have ⟨_, h, hr', hc'⟩ := h
    exact h ▸ act_pc_waiting (hr ∘ hr') (hc ∘ hc')

-- Only cycles and resets move `pc` or end a wait.
theorem run_pc_waiting (hr : .reset ∉ cs) (hc : .cycle ∉ cs) :
    (s.run cs).machine.state.pc = s.machine.state.pc ∧
      (s.run cs).machine.state.waiting = s.machine.state.waiting := by
  induction cs generalizing s
  case nil => exact ⟨rfl, rfl⟩
  case cons c cs ih =>
    have ⟨hr₁, hr₂⟩ := List.ne_and_not_mem_of_not_mem_cons hr
    have ⟨hc₁, hc₂⟩ := List.ne_and_not_mem_of_not_mem_cons hc
    have ⟨hp, hw⟩ := step_pc_waiting (s := s) hr₁.symm hc₁.symm
    have ⟨hp', hw'⟩ := ih (s := (s.step c).1) hr₂ hc₂
    exact ⟨hp'.trans hp, hw'.trans hw⟩

-- Along `cs` the machine was parked for `x` and has slept since.
def FallsAsleep (s : Session) (x : Register) (cs : List Command) : Prop :=
  ∃ cs₁ cs₂, cs = cs₁ ++ .cycle :: cs₂ ∧ (s.run cs₁).machine.Awaits x ∧
    (s.run cs₁).machine.state.keypad.Idle ∧ ((s.run cs₁).step .cycle).1.Sleeps cs₂

theorem FallsAsleep.cons : (s.step c).1.FallsAsleep x cs → s.FallsAsleep x (c :: cs)
  | ⟨cs₁, cs₂, hc, h⟩ => ⟨c :: cs₁, cs₂, hc ▸ rfl, h⟩

theorem FallsAsleep.waiting (h : s.FallsAsleep x cs) : (s.run cs).machine.state.waiting = some x := by
  obtain ⟨cs₁, cs₂, rfl, ha, hk, hs⟩ := h
  rw [run_append]
  have hp : (s.run cs₁).machine.Parked x ((s.run cs₁).step .cycle).1.machine := ha.parked hk
  exact (parked_run hp hs).waiting

theorem waiting_of_step (hx : (s.step c).1.machine.state.waiting = some x) :
    (s.machine.state.waiting = some x ∧ c ≠ .reset ∧ (c = .cycle → s.machine.state.keypad.Idle)) ∨
      (c = .cycle ∧ s.machine.Awaits x ∧ s.machine.state.keypad.Idle) := by
  by_cases hc : c = .cycle
  case pos =>
    subst hc
    have ⟨hk, hw⟩ := s.machine.cycle_goes.waiting hx
    cases hw
    case inl hw => exact .inl ⟨hw, nofun, fun _ => hk⟩
    case inr ha => exact .inr ⟨rfl, ha, hk⟩
  case neg =>
    have hr : c ≠ .reset := fun hr => by
      subst hr
      cases hx
    have ⟨_, hw⟩ := step_pc_waiting (s := s) hr hc
    exact .inl ⟨hw.symm.trans hx, hr, fun h => absurd h hc⟩

-- A machine that waits at the end has waited all along or fell asleep on the way.
theorem waiting_of_run (hx : (s.run cs).machine.state.waiting = some x) :
    (s.machine.state.waiting = some x ∧ s.Sleeps cs) ∨ s.FallsAsleep x cs := by
  induction cs generalizing s
  case nil => exact .inl ⟨hx, trivial⟩
  case cons c cs ih =>
    cases ih hx
    case inr h => exact .inr h.cons
    case inl h =>
      have ⟨hw, hs⟩ := h
      cases waiting_of_step hw
      case inl h => exact .inl ⟨h.1, h.2.1, h.2.2, hs⟩
      case inr h =>
        obtain ⟨rfl, ha, hk⟩ := h
        exact .inr ⟨[], cs, rfl, ha, hk, hs⟩

-- What the next cycles do to a machine that was parked for `x` when it was `m₀`.
structure Dormant (m₀ : Machine) (x : Register) (s : Session) : Prop where
  parked : m₀.Parked x s.machine
  -- Nothing is fetched: what is in memory and where `pc` points does not matter.
  blind : ∀ memory pc,
    (cycle { s.machine with state := { s.machine.state with memory, pc } }).result =
      s.machine.cycle.result
  idle : s.machine.state.keypad.Idle →
    s.machine.cycle.result = .ok (.waiting x) ∧
    s.machine.cycle.machine = { s.machine with state := { s.machine.state with
      timers := s.machine.config.timer.elapse s.machine.state.timers } }
  held : ∀ key, s.machine.state.keypad.Lowest key →
    s.machine.cycle.result = .ok (.keyReceived x key) ∧
    s.machine.cycle.machine = { s.machine with state := { s.machine.state with
      v := s.machine.state.v.set x (.ofNat key)
      waiting := none
      timers := s.machine.config.timer.elapse s.machine.state.timers } }
  agrees : ∀ key, s.machine.state.keypad.Lowest key →
    let b := (m₀.withKeypad s.machine.state.keypad).cycle.machine
    s.machine.cycle.machine = { b with state := { b.state with
      memory := s.machine.state.memory
      redraw := s.machine.state.redraw
      timers := s.machine.cycle.machine.state.timers } }
  -- After the key has arrived the next cycle starts behind the instruction.
  resumes : ∀ key, s.machine.state.keypad.Lowest key → ∀ cs, .reset ∉ cs → .cycle ∉ cs →
    ((s.step .cycle).1.run cs).machine.state.pc = m₀.state.pc + 2 ∧
    ((s.step .cycle).1.run cs).machine.state.waiting = none

theorem cycle_result_of_waiting {m n : Machine} (hm : m.state.waiting = some x)
    (hn : n.state.waiting = some x) (hk : n.state.keypad = m.state.keypad) :
    n.cycle.result = m.cycle.result := by
  cases h : m.state.keypad.lowest
  case none =>
    have hi := Keypad.lowest_eq_none_iff.mp h
    rw [cycle_of_idle hm hi, cycle_of_idle hn (hk ▸ hi)]
  case some key =>
    have hl := Keypad.lowest_eq_some_iff.mp h
    rw [cycle_of_lowest hm hl, cycle_of_lowest hn (hk ▸ hl)]

theorem dormant (hp : m₀.Parked x s.machine) (ha : m₀.Awaits x) : s.Dormant m₀ x where
  parked := hp
  blind _ _ := cycle_result_of_waiting hp.waiting hp.waiting rfl
  idle hk := by
    rw [cycle_of_idle hp.waiting hk]
    exact ⟨rfl, elapse_eq _⟩
  held key hk := by
    rw [cycle_of_lowest hp.waiting hk]
    exact ⟨rfl, elapse_eq _⟩
  agrees key hk := hp.agrees ha hk
  resumes key hk cs hr hc := by
    have ⟨hpc, hw⟩ := run_pc_waiting (s := (s.step .cycle).1) hr hc
    have hm : (s.step .cycle).1.machine = s.machine.cycle.machine := rfl
    rw [hpc, hw, hm, cycle_of_lowest hp.waiting hk, elapse_eq]
    exact ⟨hp.pc, rfl⟩

-- Where an instruction reads a key, a key that is held is read at once, and otherwise the machine is
-- parked until a cycle finds one. There is no other way for a machine to wait.
theorem key_wait_protocol :
    (∀ (s : Session) (x : Register), s.machine.Awaits x →
      (∀ key, s.machine.state.keypad.Lowest key →
        s.machine.cycle.result =
          .ok (.executed s.machine.state.pc s.machine.word (.awaitKey x)) ∧
        s.machine.cycle.machine = { s.machine with state := { s.machine.state with
          v := s.machine.state.v.set x (.ofNat key)
          pc := s.machine.state.pc + 2
          timers := s.machine.config.timer.elapse s.machine.state.timers } }) ∧
      (s.machine.state.keypad.Idle →
        s.machine.cycle.result =
          .ok (.executed s.machine.state.pc s.machine.word (.awaitKey x)) ∧
        ∀ cs, (s.step .cycle).1.Sleeps cs → ((s.step .cycle).1.run cs).Dormant s.machine x)) ∧
    ∀ (config : Config) (entropy : Key) (cs : List Command) (x : Register),
      ((new config entropy).run cs).machine.state.waiting = some x ↔
        (new config entropy).FallsAsleep x cs := by
  refine ⟨fun s x ha => ⟨?_, ?_⟩, ?_⟩
  case refine_1 =>
    intro key hk
    have ⟨_, hc⟩ := ha.answer hk
    rw [hc]
    exact ⟨rfl, elapse_eq _⟩
  case refine_2 =>
    intro hk
    have ⟨_, hc⟩ := ha.park hk
    refine ⟨hc ▸ rfl, ?_⟩
    intro cs hs
    exact dormant (parked_run (ha.parked hk) hs) ha
  case refine_3 =>
    intro config entropy cs x
    refine ⟨?_, FallsAsleep.waiting⟩
    intro hx
    cases waiting_of_run hx
    case inl h => cases h.1
    case inr h => exact h

-- `F00A` parks the machine, a cycle passes, a program is loaded over it and key F arrives.
theorem key_wait_protocol_last_key :
    let s := (new {} ⟨.replicate 8 0⟩).run [.load [0xF0, 0x0A]]
    let s' := (s.step .cycle).1.run [.cycle, .load [0x00, 0x00], .setHeld 0xF true]
    s.machine.Awaits .v0 ∧ s.machine.state.keypad.Idle ∧
      s'.machine.cycle.result = .ok (.keyReceived .v0 (.last 15)) := by
  intro s s'
  have hd : Instruction.decode? s.machine.word = some (.awaitKey .v0) := by decide +kernel
  have ha : s.machine.Awaits .v0 := ⟨rfl, by decide, Instruction.encodes_of_decode? hd⟩
  have hi : s.machine.state.keypad.Idle := by decide +kernel
  have hi' : s.machine.cycle.machine.state.keypad.Idle := by
    have ⟨_, hc⟩ := ha.park hi
    rw [hc, elapse_eq]
    exact hi
  have hl : s'.machine.state.keypad.Lowest (.last 15) := by decide +kernel
  have ⟨_, hp⟩ := (key_wait_protocol.1 s .v0 ha).2 hi
  have hs := hp [.cycle, .load [0x00, 0x00], .setHeld 0xF true]
    ⟨nofun, fun _ => hi', nofun, nofun, nofun, nofun, trivial⟩
  exact ⟨ha, hi, (hs.held _ hl).1⟩

end Session
end Chip8
