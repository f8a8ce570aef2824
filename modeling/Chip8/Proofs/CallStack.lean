import Chip8.Proofs.Brackets
import Chip8.Proofs.Commands
import Chip8.Proofs.Execution

-- The stack of a machine against the calls and returns that it has executed: the open frames are the
-- return addresses of the calls that no return has matched.

namespace Chip8

-- The call or return that an instruction is, fetched from `address`.
def Instruction.bracket? (address : UInt16) : Instruction → Option Bracket
  | call _ => some (.call address)
  | ret => some .ret
  | _ => none

-- The call or return that a command has executed.
def Reply.bracket? : Reply → Option Bracket
  | outcome (.executed address _ i) => i.bracket? address
  | _ => none

theorem Reply.bracket?_of_not_completes {r : Reply} (h : r.completes = false) : r.bracket? = none := by
  cases r
  case outcome => cases h
  all_goals rfl

namespace Machine

-- What becomes of the stack where a call, a return or none of them is executed.
inductive Shifts (m : Machine) : Option Bracket → Machine → Prop
  | keep (hs : n.state.stack = m.state.stack) : Shifts m none n
  | call (hp : m.state.stack.push (returnAddress m.state.pc) m.state.pc = .ok n.state.stack) :
    Shifts m (some (.call m.state.pc)) n
  | ret (hp : m.state.stack.pop m.state.pc = .ok (n.state.pc, n.state.stack)) :
    Shifts m (some .ret) n

variable {m n : Machine} {t : Transition (Except Fault Outcome)} {i : Instruction} {s : State}
  {b : Option Bracket} {address : UInt16} {op : Opcode} {target : Address}

theorem Shifts.elapse : m.Shifts b n → m.Shifts b n.elapse
  | keep hs => .keep (n.elapse_stack.trans hs)
  | call hp => .call (n.elapse_stack.symm ▸ hp)
  | ret hp => .ret (by rwa [elapse_pc, elapse_stack])

theorem shifts_of_yields : i.Yields m.state s → m.Shifts (i.bracket? m.state.pc) (m.executed i s)
  | .call hp => .call hp
  | .ret hp => .ret hp
  | .jump | .jumpOffset | .skip _ | .stay _ | .clear | .draw _ | .park _ | .answer _ | .setDelay
  | .setSound => .keep rfl
  | .registers hi | .index hi | .memory hi => by
    cases i <;> first | exact .keep rfl | cases hi

theorem Cycle.shifts : m.Cycle t → m.Shifts (Reply.ofResult .outcome t.result).bracket? t.machine
  | wait _ _ => Shifts.elapse (.keep rfl)
  | receive _ _ => Shifts.elapse (.keep rfl)
  | skip _ _ _ _ => Shifts.elapse (.keep rfl)
  | stray _ _ | stop _ _ _ _ | refuse _ _ _ _ => .keep rfl
  | execute _ _ _ he => (shifts_of_yields (Instruction.execute_yields he)).elapse

theorem push_of_call (h : m.cycle.result = .ok (.executed address op (.call target))) :
    address = m.state.pc ∧ m.state.stack.push (returnAddress address) m.state.pc =
      .ok m.cycle.machine.state.stack := by
  have hs := m.cycle_goes.shifts
  rw [h] at hs
  generalize m.cycle.machine = n at hs
  cases hs
  case call hp => exact ⟨rfl, hp⟩

theorem pop_of_ret (h : m.cycle.result = .ok (.executed address op .ret)) :
    m.state.stack.pop m.state.pc =
      .ok (m.cycle.machine.state.pc, m.cycle.machine.state.stack) := by
  have hs := m.cycle_goes.shifts
  rw [h] at hs
  generalize m.cycle.machine = n at hs
  cases hs
  case ret hp => exact hp

end Machine

namespace Session

variable {s : Session} {c : Command} {cs : List Command} {address : UInt16} {op : Opcode}
  {target : Address}

-- The calls and returns that the cycles among commands execute, the oldest first.
def brackets (s : Session) : List Command → List Bracket
  | [] => []
  | c :: cs => (s.step c).2.1.bracket?.toList ++ (s.step c).1.brackets cs

theorem bracket?_step (hc : c ≠ .cycle) : (s.step c).2.1.bracket? = none :=
  Reply.bracket?_of_not_completes (s.completes_step hc)

theorem stack_step (hr : c ≠ .reset) (hc : c ≠ .cycle) :
    (s.step c).1.machine.state.stack = s.machine.state.stack := by
  obtain hm | ⟨mv, hm, hr', hc'⟩ := s.machine_step_cases c
  case inl => rw [hm]
  case inr =>
    obtain ⟨_, _, _, _, ha, _⟩ := s.machine.act_of_host (mt hr' hr) (mt hc' hc)
    rw [hm, ha]

-- A reset aside, only cycles that execute a call or a return touch the stack.
theorem shifts_step (hr : c ≠ .reset) :
    s.machine.Shifts (s.step c).2.1.bracket? (s.step c).1.machine := by
  by_cases hc : c = .cycle
  case pos => exact hc ▸ s.machine.cycle_goes.shifts
  case neg => exact bracket?_step hc ▸ .keep (stack_step hr hc)

-- By induction from the first command on: its call or return moves a frame over to the ones that are
-- open before the others.
theorem frames_run (hr : .reset ∉ cs) :
    Bracket.excess (s.brackets cs) ≤ s.machine.state.stack.frames.length ∧
      (s.run cs).machine.state.stack.frames =
        Bracket.resume s.machine.state.stack.frames (s.brackets cs) := by
  induction cs generalizing s
  case nil => exact ⟨Nat.zero_le _, Bracket.resume_nil.symm⟩
  case cons c cs ih =>
    obtain ⟨hc, hcs⟩ := List.ne_and_not_mem_of_not_mem_cons hr
    obtain ⟨he, hf⟩ := ih (s := (s.step c).1) hcs
    have hs := s.shifts_step hc.symm
    rw [brackets, run, hf]
    generalize (s.step c).1.brackets cs = h at he
    generalize (s.step c).1.machine = m at hs he
    generalize (s.step c).2.1.bracket? = b at hs
    cases hs
    case keep hs =>
      rw [hs] at he ⊢
      exact ⟨he, rfl⟩
    case call hp =>
      rw [Stack.frames_push hp] at he ⊢
      rw [List.length_append] at he
      exact ⟨Nat.sub_le_of_le_add he, Bracket.resume_call.symm⟩
    case ret hp =>
      rw [Stack.frames_pop hp, List.length_append]
      exact ⟨Nat.succ_le_succ he, (Bracket.resume_ret _).symm⟩

theorem frames_of_initial (hi : s.machine.state = .initial) (hr : .reset ∉ cs) :
    Bracket.excess (s.brackets cs) = 0 ∧
      (s.run cs).machine.state.stack.frames = Bracket.pending (s.brackets cs) := by
  have ⟨he, hf⟩ := frames_run (s := s) hr
  rw [hi] at he hf
  rw [hf, Bracket.resume, State.initial, Stack.frames_initial, List.take_nil, List.nil_append]
  exact ⟨Nat.le_zero.mp he, rfl⟩

-- A return goes back behind the newest of the calls that are still open.
theorem ret_of_initial (hi : s.machine.state = .initial) (hr : .reset ∉ cs)
    (h : (s.run cs).machine.cycle.result = .ok (.executed address op .ret)) :
    ∃ h₁ a h₂, s.brackets cs = h₁ ++ .call a :: h₂ ∧ Bracket.Balanced h₂ ∧
      (s.run cs).machine.cycle.machine.state.pc = returnAddress a := by
  have hf := Stack.frames_pop (Machine.pop_of_ret h)
  rw [(frames_of_initial hi hr).2] at hf
  have ⟨h₁, a, h₂, hh, hb, hl⟩ := Bracket.exists_newest (h := s.brackets cs) (by simp [hf])
  rw [hf, List.getLast?_concat] at hl
  exact ⟨h₁, a, h₂, hh, hb, Option.some.inj hl⟩

-- A return that follows a call, with calls and returns that match in between, undoes the call.
theorem ret_of_balanced {address' : UInt16} {op' : Opcode} (hr : .reset ∉ cs)
    (hc : s.machine.cycle.result = .ok (.executed address op (.call target)))
    (hb : Bracket.Balanced ((s.step .cycle).1.brackets cs))
    (h : ((s.step .cycle).1.run cs).machine.cycle.result = .ok (.executed address' op' .ret)) :
    let t := ((s.step .cycle).1.run cs).machine.cycle.machine.state
    t.pc = returnAddress address ∧ t.stack.frames = s.machine.state.stack.frames := by
  intro t
  have ⟨_, hp⟩ := Machine.push_of_call hc
  have hf := (frames_run (s := (s.step .cycle).1) hr).2
  rw [hb.resume, Stack.frames_pop (Machine.pop_of_ret h)] at hf
  have ⟨hf, ha⟩ := List.append_inj' (hf.trans (Stack.frames_push hp)) rfl
  exact ⟨List.singleton_inj.mp ha, hf⟩

-- What the slots and the depth become where a call, a return or none of them is executed.
theorem slots_step (hr : c ≠ .reset) :
    let stack := s.machine.state.stack
    let t := (s.step c).1.machine.state
    ((s.step c).2.1.bracket? = none → t.stack = stack) ∧
    (∀ a, (s.step c).2.1.bracket? = some (.call a) →
      a = s.machine.state.pc ∧ stack.depth < 16 ∧ t.stack.depth = stack.depth + 1 ∧
        ∀ k, t.stack.slot k = if k.val = stack.depth then returnAddress a else stack.slot k) ∧
    ((s.step c).2.1.bracket? = some .ret →
      stack.depth = t.stack.depth + 1 ∧ (∀ k, t.stack.slot k = stack.slot k) ∧
        ∀ k, k.val = t.stack.depth → t.pc = stack.slot k) := by
  have hs := s.shifts_step hr
  generalize (s.step c).1.machine = m at hs
  generalize (s.step c).2.1.bracket? = b at hs
  cases hs
  case keep hs => simp [hs]
  case call hp =>
    have ⟨k, hd, _, ht⟩ := Stack.of_push hp
    refine ⟨by simp, fun a ha => ?_, by simp⟩
    cases ha
    exact ⟨rfl, hd ▸ k.isLt, hd ▸ ht, Stack.slot_push hp⟩
  case ret hp =>
    have ⟨k, hd, ha, _, ht⟩ := Stack.of_pop hp
    refine ⟨by simp, by simp, fun _ => ⟨ht ▸ hd, Stack.slot_pop hp, fun j hj => ?_⟩⟩
    rw [ha, Fin.ext (hj.trans ht)]

-- The stack is a list: its frames are the return addresses of the calls that no return has matched, a
-- call adds one and a return goes to the last and takes it off. Only a call writes a slot.
theorem call_stack_refines_list :
    (∀ (s : Session) (cs : List Command), s.machine.state = .initial → .reset ∉ cs →
      let h := s.brackets cs
      let m := (s.run cs).machine
      m.state.stack.frames = Bracket.pending h ∧
      m.state.stack.depth + Bracket.returns h = Bracket.calls h ∧ m.state.stack.depth ≤ 16 ∧
      ∀ address op, m.cycle.result = .ok (.executed address op .ret) →
        ∃ h₁ a h₂, h = h₁ ++ .call a :: h₂ ∧ Bracket.Balanced h₂ ∧
          m.cycle.machine.state.pc = returnAddress a) ∧
    (∀ (s : Session) (cs : List Command) (address address' : UInt16) (op op' : Opcode)
        (target : Address), .reset ∉ cs →
      s.machine.cycle.result = .ok (.executed address op (.call target)) →
      let t := (s.step .cycle).1
      let m := (t.run cs).machine
      Bracket.Balanced (t.brackets cs) → m.cycle.result = .ok (.executed address' op' .ret) →
      m.cycle.machine.state.pc = returnAddress address ∧
        m.cycle.machine.state.stack.frames = s.machine.state.stack.frames) ∧
    (∀ (s : Session) (c : Command), c ≠ .reset →
      let stack := s.machine.state.stack
      let t := (s.step c).1.machine.state
      ((s.step c).2.1.bracket? = none → t.stack = stack) ∧
      (∀ a, (s.step c).2.1.bracket? = some (.call a) →
        a = s.machine.state.pc ∧ stack.depth < 16 ∧ t.stack.depth = stack.depth + 1 ∧
          ∀ k, t.stack.slot k = if k.val = stack.depth then returnAddress a else stack.slot k) ∧
      ((s.step c).2.1.bracket? = some .ret →
        stack.depth = t.stack.depth + 1 ∧ (∀ k, t.stack.slot k = stack.slot k) ∧
          ∀ k, k.val = t.stack.depth → t.pc = stack.slot k)) ∧
    (∀ (s : Session) (f : Fault), s.machine.cycle.result = .error f →
      (s.step .cycle).1.machine.state.stack = s.machine.state.stack) := by
  refine ⟨?_, ?_, fun s c => slots_step, ?_⟩
  case refine_1 =>
    intro s cs hi hr h m
    have ⟨he, hf⟩ := frames_of_initial hi hr
    refine ⟨hf, ?_, m.state.stack.depth_le, fun _ _ => ret_of_initial hi hr⟩
    rw [← Stack.length_frames, hf, Bracket.length_pending, he]
    rfl
  case refine_2 =>
    intro s cs address address' op op' target hr hc t m hb
    exact ret_of_balanced hr hc hb
  case refine_3 =>
    intro s f hf
    have hm : s.machine.cycle.machine = s.machine := s.machine.cycle_goes.machine_eq_of_error hf
    exact congrArg (·.state.stack) hm

-- A call of a subroutine that returns at once, and the return.
theorem call_stack_refines_list_of_subroutine :
    let s := new {} ⟨.replicate 8 0⟩
    let cs := [.load [0x22, 0x04, 0x00, 0x00, 0x00, 0xEE], .cycle]
    s.brackets cs = [.call 0x200] ∧ (s.run cs).machine.state.stack.frames = [0x202] ∧
      (s.run cs).machine.cycle.machine.state.pc = 0x202 ∧
        (s.run cs).machine.cycle.machine.state.stack.frames = [] := by
  intro s cs
  let m₀ := Machine.new {} ⟨.replicate 8 0⟩
  obtain ⟨memory, hm, hl⟩ : ∃ memory,
      memory = Memory.initial.put 0x200 [0x22, 0x04, 0x00, 0x00, 0x00, 0xEE] ∧
      m₀.act (.load [0x22, 0x04, 0x00, 0x00, 0x00, 0xEE]) = { m₀ with state.memory := memory } :=
    ⟨_, rfl, rfl⟩
  have hf₁ : memory.fetch 0x200 = .ok 0x2204 :=
    hm ▸ Memory.fetch_put (by decide) (by decide) rfl rfl rfl
  have hf₂ : memory.fetch 0x204 = .ok 0x00EE :=
    hm ▸ Memory.fetch_put (by decide) (by decide) rfl rfl rfl
  obtain ⟨stack, below, hp, hq⟩ : ∃ stack below, Stack.initial.push 0x202 0x200 = .ok stack ∧
      stack.pop 0x204 = .ok (0x202, below) := ⟨_, _, rfl, rfl⟩
  let loaded : Session := ⟨{ m₀ with state.memory := memory }, []⟩
  have hs : (s.step (.load [0x22, 0x04, 0x00, 0x00, 0x00, 0xEE])).1 = loaded :=
    congrArg (Session.mk · []) hl
  obtain ⟨h₁, hc⟩ := Machine.cycle_of_execute (m := loaded.machine) (i := .call ⟨0x204, by decide⟩) rfl
    hf₁ rfl (Fault.bind_ok_eq_ok_iff.mpr ⟨stack, hp, rfl⟩)
  have hm : (s.run cs).machine = loaded.machine.cycle.machine := by
    simp only [cs, run, hs]
    rfl
  have hr : loaded.machine.cycle.machine.cycle.result = .ok (.executed 0x204 0x00EE .ret) := by
    rw [h₁]
    exact (Machine.cycle_of_execute (i := .ret) rfl hf₂ rfl
      (Fault.bind_ok_eq_ok_iff.mpr ⟨_, hq, rfl⟩)).2
  have hb : s.brackets cs = [.call 0x200] := by
    have hb₀ : (s.step (.load [0x22, 0x04, 0x00, 0x00, 0x00, 0xEE])).2.1.bracket? = none :=
      bracket?_step (by simp)
    have hb₁ : (loaded.step .cycle).2.1.bracket? = some (.call 0x200) :=
      congrArg (fun r => (Reply.ofResult Reply.outcome r).bracket?) hc
    simp only [cs, brackets, hs, hb₀, hb₁]
    rfl
  have hf := (call_stack_refines_list.1 s cs rfl (by simp [cs])).1
  have hu := call_stack_refines_list.2.1 loaded [] _ _ _ _ _ (by simp) hc (.of_pending rfl rfl) hr
  rw [hb] at hf
  refine ⟨hb, hf, ?_⟩
  rw [hm]
  exact hu

end Session
end Chip8
