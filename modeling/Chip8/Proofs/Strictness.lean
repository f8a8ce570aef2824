import Chip8.Proofs.Commands

-- A strict machine against a lenient one. They do the same until the first word that is no instruction:
-- there the lenient machine goes on behind the word, and the strict one stops in front of it.

namespace Chip8
namespace Machine

variable {m : Machine} {t : Transition (Except Fault Outcome)} {address : UInt16} {op : Opcode}

-- The machine, had it been configured to fail on a word that is no instruction.
def strictly (m : Machine) : Machine :=
  { m with config.strict := true }

theorem elapse_strictly (m : Machine) : m.strictly.elapse = m.elapse.strictly := by
  rw [elapse_eq, elapse_eq]
  rfl

theorem Cycle.strictly (hu : ∀ address op, t.result ≠ .ok (.unknown address op)) :
    m.Cycle t → m.strictly.Cycle ⟨t.machine.strictly, t.result, t.events⟩
  | wait hw hk => m.elapse_strictly ▸ .wait hw hk
  | receive hw hk => (m.received _ _).elapse_strictly ▸ .receive hw hk
  | stray hw hf => .stray hw hf
  | stop hw hf hd _ => .stop hw hf hd rfl
  | skip _ _ _ _ => absurd rfl (hu _ _)
  | refuse hw hf hd he => .refuse hw hf hd he
  | execute hw hf hd he => (m.executed _ _).elapse_strictly ▸ .execute hw hf hd he

theorem Cycle.unknown (hu : t.result = .ok (.unknown address op)) (h : m.Cycle t) :
    address = m.state.pc ∧ t.machine = elapse { m with state := m.state.advance } ∧
      m.strictly.Cycle (m.strictly.fail (.unknownOpcode op address)) := by
  cases h <;> cases hu
  case skip hw hs hf hd => exact ⟨rfl, rfl, .stop hw hf hd rfl⟩

end Machine

namespace Session

variable {s : Session} {c : Command} {cs : List Command} {address : UInt16} {op : Opcode}

def strictly (s : Session) : Session :=
  { s with machine := s.machine.strictly }

theorem step_strictly (hu : ∀ address op, (s.step c).2.1 ≠ .outcome (.unknown address op)) :
    s.strictly.step c = ((s.step c).1.strictly, (s.step c).2) := by
  by_cases hc : c = .cycle
  case neg => exact step_exchange (fun config => { config with strict := true }) id id rfl hc
  case pos =>
    subst hc
    refine step_cycle (s := s.strictly) (s.machine.cycle_goes.strictly fun address op h => ?_)
    exact hu address op (congrArg (Reply.ofResult .outcome) h)

theorem run_strictly (hu : ∀ address op, .outcome (.unknown address op) ∉ s.replies cs) :
    s.strictly.run cs = (s.run cs).strictly ∧ s.strictly.transcript cs = s.transcript cs := by
  induction cs generalizing s
  case nil => exact ⟨rfl, rfl⟩
  case cons c cs ih =>
    have hs := step_strictly fun address op h => hu address op (h ▸ List.mem_cons_self ..)
    have ⟨hr, ht⟩ := ih fun address op h => hu address op (List.mem_cons_of_mem _ h)
    rw [run, transcript, hs]
    exact ⟨hr, congrArg _ ht⟩

theorem step_unknown (h : (s.step .cycle).2.1 = .outcome (.unknown address op)) :
    s.strictly.step .cycle =
      (s.strictly, .fault (.unknownOpcode op address), [.failed address (.unknownOpcode op address)]) ∧
    (s.step .cycle).1 = { s with machine.state := { s.machine.state with
      pc := address + 2
      timers := s.machine.config.timer.elapse s.machine.state.timers } } := by
  have hr : s.machine.cycle.result = .ok (.unknown address op) := by
    change Reply.ofResult .outcome s.machine.cycle.result = _ at h
    cases hc : s.machine.cycle.result <;> rw [hc] at h <;> cases h
    rfl
  obtain ⟨rfl, hm, hs⟩ := s.machine.cycle_goes.unknown hr
  rw [Machine.elapse_eq] at hm
  exact ⟨step_cycle (s := s.strictly) hs, congrArg (Session.mk · s.links) hm⟩

-- A word that the lenient machine skips is one that the strict machine fails on.
theorem unknown_not_mem (hu : ∀ address op, .fault (.unknownOpcode op address) ∉ s.strictly.replies cs) :
    ∀ address op, .outcome (.unknown address op) ∉ s.replies cs := by
  induction cs generalizing s
  case nil => exact fun _ _ => List.not_mem_nil
  case cons c cs ih =>
    have hc : ∀ address op, (s.step c).2.1 ≠ .outcome (.unknown address op) := by
      intro address op h
      obtain rfl : c = .cycle := Decidable.by_contra fun hc => by
        have hn := s.completes_step hc
        rw [h] at hn
        cases hn
      refine hu address op ?_
      rw [replies_cons, (step_unknown h).1]
      exact List.mem_cons_self ..
    intro address op h
    cases List.mem_cons.mp h
    case inl h => exact hc address op h.symm
    case inr h =>
      refine ih (fun address op h => hu address op ?_) address op h
      rw [replies_cons, step_strictly hc]
      exact List.mem_cons_of_mem _ h

-- A strict and a lenient machine cannot be told apart until the lenient one skips a word. On that word
-- the strict machine stops as it is, and the lenient one has moved behind it in one cycle.
theorem strictness_shows_at_unknown_words (config : Config) (entropy : Key) (cs : List Command) :
    let s := new { config with strict := false } entropy
    let t := new { config with strict := true } entropy
    ((∀ address op, .outcome (.unknown address op) ∉ s.replies cs) →
      t.run cs = (s.run cs).strictly ∧ t.transcript cs = s.transcript cs ∧
      ∀ address op, ((s.run cs).step .cycle).2.1 = .outcome (.unknown address op) →
        (t.run cs).step .cycle = (t.run cs, .fault (.unknownOpcode op address),
          [.failed address (.unknownOpcode op address)]) ∧
        ((s.run cs).step .cycle).1 = { s.run cs with machine.state := { (t.run cs).machine.state with
          pc := address + 2
          timers := config.timer.elapse (t.run cs).machine.state.timers } }) ∧
    ((∀ address op, .fault (.unknownOpcode op address) ∉ t.replies cs) →
      t.run cs = (s.run cs).strictly ∧ t.transcript cs = s.transcript cs) := by
  intro s t
  refine ⟨fun hu => ?_, fun hu => run_strictly (s := s) (unknown_not_mem hu)⟩
  have ⟨hr, ht⟩ := run_strictly hu
  have hr : t.run cs = (s.run cs).strictly := hr
  refine ⟨hr, ht, fun address op h => ?_⟩
  have ⟨hs, hl⟩ := step_unknown h
  rw [hr, hs, hl, s.config_run]
  exact ⟨rfl, rfl⟩

-- A register is loaded; the word behind is no instruction.
theorem strictness_shows_behind_load :
    let s := new {} ⟨.replicate 8 0⟩
    let t := new { strict := true } ⟨.replicate 8 0⟩
    let cs := [.load [0x60, 0x05, 0x00, 0x00], .cycle]
    s.replies cs = [.done, .outcome (.executed 0x200 0x6005 (.loadByte .v0 5))] ∧
      t.run cs = (s.run cs).strictly ∧ t.transcript cs = s.transcript cs ∧
      ((s.run cs).step .cycle).2.1 = .outcome (.unknown 0x202 0) ∧
      (t.run cs).step .cycle =
        (t.run cs, .fault (.unknownOpcode 0 0x202), [.failed 0x202 (.unknownOpcode 0 0x202)]) ∧
      ((s.run cs).step .cycle).1.machine.state.pc = 0x204 := by
  intro s t cs
  obtain ⟨memory, hm, h₀⟩ : ∃ memory, memory = Memory.initial.put 0x200 [0x60, 0x05, 0x00, 0x00] ∧
      s.step (.load [0x60, 0x05, 0x00, 0x00]) =
        ({ s with machine.state.memory := memory }, .done, [.loaded 4]) := ⟨_, rfl, rfl⟩
  have hf₁ : memory.fetch 0x200 = .ok 0x6005 :=
    hm ▸ Memory.fetch_put (by decide) (by decide) rfl rfl rfl
  have hf₂ : memory.fetch 0x202 = .ok 0 :=
    hm ▸ Memory.fetch_put (by decide) (by decide) rfl rfl rfl
  let s₁ := { s with machine.state.memory := memory }
  let s₂ := { s₁ with machine.state := { s₁.machine.state with
    pc := 0x202, v := Registers.initial.set .v0 5 } }
  have h₁ : (s₁.step .cycle).1 = s₂ ∧
      (s₁.step .cycle).2.1 = .outcome (.executed 0x200 0x6005 (.loadByte .v0 5)) := by
    rw [step_cycle (s := s₁) (.execute (i := .loadByte .v0 5) rfl hf₁ rfl rfl)]
    exact ⟨rfl, rfl⟩
  have h₂ : (s₂.step .cycle).2.1 = .outcome (.unknown 0x202 0) :=
    congrArg (fun t => t.2.1) (step_cycle (s := s₂) (.skip rfl hf₂ rfl rfl))
  have hs : s.run cs = s₂ := by
    rw [run, h₀, run, h₁.1, run]
  have hq : s.replies cs = [.done, .outcome (.executed 0x200 0x6005 (.loadByte .v0 5))] := by
    rw [replies_cons, h₀, replies_cons, h₁.2]
    rfl
  have hw : ((s.run cs).step .cycle).2.1 = .outcome (.unknown 0x202 0) := hs ▸ h₂
  obtain ⟨hl, hc⟩ := strictness_shows_at_unknown_words {} ⟨.replicate 8 0⟩ cs
  have hn : ∀ address op, .outcome (.unknown address op) ∉ s.replies cs := by simp [hq]
  obtain ⟨hr, ht, hu⟩ := hl hn
  obtain ⟨hf, he⟩ := hu 0x202 0 hw
  have hn' : ∀ address op, .fault (.unknownOpcode op address) ∉ t.replies cs := by
    have ht : t.replies cs = s.replies cs := congrArg _ ht
    simp [ht, hq]
  have hp : ((s.run cs).step .cycle).1.machine.state.pc = 0x202 + 2 := by rw [he]
  exact ⟨hq, hr, (hc hn').2, hw, hf, hp⟩

end Session
end Chip8
