import Chip8.Proofs.Commands
import Chip8.Proofs.Embedding.Moves
import Chip8.Proofs.Encoding
import Chip8.Proofs.KeyWait
import Chip8.Proofs.Lines
import Chip8.Proofs.Links

-- What the log tells of a run. A cycle tells its outcome and nothing else, so waits for a key show in the log as
-- what they are: each is opened by one line and closed by another, and in between there is none of a cycle.

namespace Chip8

-- What a cycle from `s` to `s'` tells of its result. Registers are told as the instruction has left them.
inductive State.Tells (s s' : State) : Except Fault Outcome → List Line → Prop
  | executed (ht : l.trace? = some
      ⟨address.toNat, op.toNat, s'.v.bytes.toList.map UInt8.toNat, s'.i.toNat, s'.pc.toNat⟩) :
    Tells s s' (.ok (.executed address op n)) ((s'.waiting.map Line.waits).toList ++ [l])
  | unknown : Tells s s' (.ok (.unknown address op)) [.skipped address op]
  | waiting : Tells s s' (.ok (.waiting x)) []
  | keyReceived : Tells s s' (.ok (.keyReceived x key)) [.received x key]
  | failed (hp : s'.pc = s.pc) : Tells s s' (.error f) [.failed s.pc f]

namespace Line

-- The log of a machine that waits for `x`: the instruction that has parked it, and nothing that a cycle tells
-- behind it.
inductive Pause (x : Register) : List Line → Prop
  | mk (ht : l.trace? = some t) (ho : t.opcode = 0xF00A + 0x100 * x.val) (hq : ∀ l ∈ ls, Quiet l) :
    Pause x (l :: ls)

-- The log from the end of a wait for `x` on; `waiting` is what the machine waits for behind it.
inductive Ends (x : Register) (waiting : Option Register) : List Line → Prop
  | received : Ends x waiting (received x key :: ls)
  | reset : Ends x waiting (.reset :: ls)
  | never (hw : waiting = some x) : Ends x waiting []

end Line

-- How far a log has come: there may be a wait, and between the two lines that open one it is not yet on.
inductive Wait where
  | settled (waiting : Option Register)
  | parking (x : Register)

namespace Wait

-- The lines that the log may go on with.
inductive Goes : Wait → Line → Wait → Prop
  | park : Goes (settled none) (.waits x) (parking x)
  | parked (ht : l.trace? = some t) (ho : t.opcode = 0xF00A + 0x100 * x.val) :
    Goes (parking x) l (settled (some x))
  | receive : Goes (settled (some x)) (.received x key) (settled none)
  | reset : Goes (settled waiting) .reset (settled none)
  | executed (ht : l.trace? = some t) : Goes (settled none) l (settled none)
  | skipped : Goes (settled none) (.skipped address op) (settled none)
  | failed : Goes (settled none) (.failed pc f) (settled none)
  | quiet (hq : l.Quiet) : Goes (settled waiting) l (settled waiting)

inductive Follows : Wait → List Line → Wait → Prop
  | nil : Follows w [] w
  | cons (h : Goes w l w') (hs : Follows w' ls w'') : Follows w (l :: ls) w''

variable {w w' w'' : Wait} {l : Line} {ls ls' : List Line} {x : Register} {key : Fin 16}
  {waiting : Option Register}

theorem Goes.of_waits (h : Goes w (.waits x) w') : w = settled none ∧ w' = parking x := by
  generalize hl : Line.waits x = l at h
  cases h with
  | park =>
    cases Line.waits_inj.mp hl
    exact ⟨rfl, rfl⟩
  | parked ht _ | executed ht => cases hl ▸ ht
  | receive | reset | skipped | failed =>
    simp [Line.waits, Line.received, Line.reset, Line.skipped, Line.failed] at hl
  | quiet hq => exact absurd (hl ▸ hq.message) (by simp [Line.waits])

theorem Goes.of_received (h : Goes w (.received x key) w') : w = settled (some x) ∧ w' = settled none := by
  generalize hl : Line.received x key = l at h
  cases h with
  | receive =>
    cases (Line.received_inj.mp hl).1
    exact ⟨rfl, rfl⟩
  | parked ht _ | executed ht => cases hl ▸ ht
  | park | reset | skipped | failed =>
    simp [Line.waits, Line.received, Line.reset, Line.skipped, Line.failed] at hl
  | quiet hq => exact absurd (hl ▸ hq.message) (by simp [Line.received])

theorem Goes.follows (h : Goes w l w') : Follows w [l] w' :=
  .cons h .nil

theorem Follows.append (h : Follows w ls w') (h' : Follows w' ls' w'') : Follows w (ls ++ ls') w'' := by
  induction h
  case nil => exact h'
  case cons hg _ ih => exact .cons hg (ih h')

theorem Follows.split (h : Follows w (ls ++ ls') w'') : ∃ w', Follows w ls w' ∧ Follows w' ls' w'' := by
  induction ls generalizing w
  case nil => exact ⟨w, .nil, h⟩
  case cons l ls ih =>
    cases h
    case cons hg h =>
      obtain ⟨w', h, h'⟩ := ih h
      exact ⟨w', .cons hg h, h'⟩

theorem follows_quiet (hq : ∀ l ∈ ls, l.Quiet) : Follows (settled waiting) ls (settled waiting) := by
  induction ls
  case nil => exact .nil
  case cons l ls ih =>
    have ⟨hl, hs⟩ := List.forall_mem_cons.mp hq
    exact .cons (.quiet hl) (ih hs)

-- While a wait is on, it is quiet up to the end.
theorem Follows.ends (h : Follows (settled (some x)) ls (settled waiting)) :
    ∃ quiet rest, ls = quiet ++ rest ∧ (∀ l ∈ quiet, l.Quiet) ∧ Line.Ends x waiting rest := by
  induction ls
  case nil =>
    cases h
    exact ⟨[], [], rfl, nofun, .never rfl⟩
  case cons l ls ih =>
    cases h with
    | cons hg h =>
      cases hg with
      | receive => exact ⟨[], _, rfl, nofun, .received⟩
      | reset => exact ⟨[], _, rfl, nofun, .reset⟩
      | quiet hq =>
        obtain ⟨quiet, rest, rfl, hs, he⟩ := ih h
        exact ⟨l :: quiet, rest, rfl, List.forall_mem_cons.mpr ⟨hq, hs⟩, he⟩

-- A log that ends in a wait has come there from its opening, unless it starts in it.
theorem Follows.opened (h : Follows w ls (settled (some x))) :
    (w = settled (some x) ∧ ∀ l ∈ ls, l.Quiet) ∨ (w = parking x ∧ Line.Pause x ls) ∨
      ∃ ls' pause, ls = ls' ++ .waits x :: pause ∧ Line.Pause x pause := by
  induction ls generalizing w
  case nil =>
    cases h
    exact .inl ⟨rfl, nofun⟩
  case cons l ls ih =>
    cases h with
    | cons hg h =>
      obtain ⟨rfl, hq⟩ | ⟨rfl, hp⟩ | ⟨ls', pause, rfl, hp⟩ := ih h
      case inl =>
        cases hg with
        | parked ht ho => exact .inr (.inl ⟨rfl, .mk ht ho hq⟩)
        | quiet hl => exact .inl ⟨rfl, List.forall_mem_cons.mpr ⟨hl, hq⟩⟩
      case inr.inl =>
        cases hg with
        | park => exact .inr (.inr ⟨[], ls, rfl, hp⟩)
      case inr.inr => exact .inr (.inr ⟨l :: ls', pause, rfl, hp⟩)

-- What comes behind the opening of a wait.
theorem Follows.paused (h : Follows w (ls ++ .waits x :: ls') (settled waiting)) :
    ∃ pause rest, ls' = pause ++ rest ∧ Line.Pause x pause ∧ Line.Ends x waiting rest := by
  obtain ⟨_, _, h⟩ := h.split
  cases h with
  | cons hg h =>
    obtain ⟨-, rfl⟩ := hg.of_waits
    cases h with
    | cons hg h =>
      cases hg with
      | parked ht ho =>
        obtain ⟨quiet, rest, rfl, hq, he⟩ := h.ends
        exact ⟨_, rest, rfl, .mk ht ho hq, he⟩

-- What has come before the arrival of a key.
theorem Follows.resumed (h : Follows (settled none) (ls ++ .received x key :: ls') w) :
    ∃ ls₀ pause, ls = ls₀ ++ .waits x :: pause ∧ Line.Pause x pause := by
  obtain ⟨_, h, h'⟩ := h.split
  cases h' with
  | cons hg _ =>
    obtain ⟨rfl, -⟩ := hg.of_received
    obtain ⟨hw, _⟩ | ⟨hw, _⟩ | h := h.opened
    case inl | inr.inl => cases hw
    case inr.inr => exact h

end Wait

theorem Opcode.toNat_of_awaitKey {op : Opcode} {x : Register} (h : op.Encodes (.awaitKey x)) :
    op.toNat = 0xF00A + 0x100 * x.val := by
  cases h with
  | awaitKey hf hk =>
    rw [Opcode.toNat_kk] at hk
    rw [Opcode.family] at hf
    rw [Opcode.val_x]
    omega

-- An instruction that goes through reports that the machine waits if it has parked it, and nothing else.
theorem Instruction.Yields.events {i : Instruction} {s s' : State} (h : i.Yields s s')
    (hw : s.waiting = none) : i.events s = (s'.waiting.map Event.parked).toList := by
  have hn : [] = (s.waiting.map Event.parked).toList := by rw [hw]; rfl
  cases h with
  | park hk =>
    rw [Instruction.events, State.awaitKey, hk]
    rfl
  | answer hk =>
    rw [Instruction.events, State.awaitKey, hk]
    exact hn
  | registers hi | index hi | memory hi =>
    cases i
    case awaitKey => cases hi
    all_goals exact hn
  | jump | jumpOffset | call | ret | skip | stay | clear | draw | setDelay | setSound => exact hn

namespace Event

theorem quiet_loaded (bytes : Nat) : (loaded bytes).line.Quiet where
  trace? := rfl
  level := ⟨nofun, nofun⟩
  message := by simp [line, message]

theorem quiet_heldBack : heldBack.line.Quiet where
  trace? := by decide
  level := by decide
  message := by decide

theorem quiet_disconnected : disconnected.line.Quiet where
  trace? := rfl
  level := by decide
  message := by decide

end Event

theorem Link.Posts.quiet {l : Link} {m : Machine} {t : Link × Bool × List Event} :
    l.Posts m t → ∀ e ∈ t.2.2, e.line.Quiet
  | nothing _ | sent _ _ _ => nofun
  | disconnected _ _ => List.forall_mem_singleton.mpr Event.quiet_disconnected
  | heldBack _ _ _ => List.forall_mem_singleton.mpr Event.quiet_heldBack

namespace Machine.Cycle

variable {m : Machine} {t : Transition (Except Fault Outcome)}

open Wait

theorem tells : m.Cycle t → m.state.Tells t.machine.state t.result (t.events.map Event.line)
  | wait .. => .waiting
  | receive .. => .keyReceived
  | stray .. | stop .. | refuse .. => .failed rfl
  | skip .. => .unknown
  | execute (s := s) hw _ _ he => by
    have hl (e : Event) : ((s.waiting.map Event.parked).toList ++ [e]).map Event.line =
        (s.waiting.map Line.waits).toList ++ [e.line] := by
      cases s.waiting <;> rfl
    rw [(Instruction.execute_yields he).events hw, hl, elapse_eq]
    exact .executed Event.trace?_executed

theorem follows : m.Cycle t →
    Follows (settled m.state.waiting) (t.events.map Event.line) (settled t.machine.state.waiting)
  | wait _ _ => by
    rw [elapse_waiting]
    exact .nil
  | receive hw _ => by
    rw [elapse_waiting, hw]
    exact Goes.receive.follows
  | stray hw _ | stop hw _ _ _ | refuse hw _ _ _ => by
    rw [fail, hw]
    exact Goes.failed.follows
  | skip hw _ _ _ => by
    rw [elapse_waiting, State.advance_waiting, hw]
    exact Goes.skipped.follows
  | execute hw _ hd he => by
    rw [elapse_waiting, executed]
    have hy := Instruction.execute_yields he
    rw [hy.events hw, hw]
    obtain h | ⟨x, rfl, _, h⟩ := hy.waiting
    case inl =>
      rw [h, hw]
      exact (Goes.executed Event.trace?_executed).follows
    case inr =>
      rw [h]
      have ho := Opcode.toNat_of_awaitKey (Instruction.encodes_of_decode? hd)
      exact .cons .park (Goes.parked Event.trace?_executed ho).follows

end Machine.Cycle

namespace Session

open Wait

variable {s : Session} {c : Command}

-- The lines that a list of commands adds to the log.
def log (s : Session) (cs : List Command) : List Line :=
  (s.transcript cs).flatMap fun r => r.2.map Event.line

theorem log_concat (s : Session) (cs : List Command) (c : Command) :
    s.log (cs ++ [c]) = s.log cs ++ ((s.run cs).step c).2.2.map Event.line := by
  rw [log, transcript_append, List.flatMap_append]
  exact congrArg _ (List.append_nil _)

theorem quiet_step (hr : c ≠ .reset) (hc : c ≠ .cycle) : ∀ e ∈ (s.step c).2.2, e.line.Quiet := by
  cases c
  case reset | cycle => contradiction
  case load program =>
    simp only [step, Machine.load]
    split
    case h_1 => exact List.forall_mem_singleton.mpr (Event.quiet_loaded _)
    case h_2 => exact List.forall_mem_nil _
  case post k =>
    simp only [step]
    split
    case h_1 l _ => exact (l.tryPost_posts s.machine).quiet
    case h_2 => exact List.forall_mem_nil _
  case tick | setHeld | collectFrame | openLink => exact List.forall_mem_nil _
  case addFrontend | dropFrontend | detach | send | newest | deliverKeys =>
    simp only [step]
    split <;> exact List.forall_mem_nil _

theorem follows_step (s : Session) (c : Command) :
    Follows (settled s.machine.state.waiting) ((s.step c).2.2.map Event.line)
      (settled (s.step c).1.machine.state.waiting) := by
  by_cases hr : c = .reset
  case pos =>
    subst hr
    exact Goes.reset.follows
  by_cases hc : c = .cycle
  case pos =>
    subst hc
    exact s.machine.cycle_goes.follows
  case neg =>
    rw [(step_pc_waiting hr hc).2]
    exact follows_quiet (List.forall_mem_map.mpr (quiet_step hr hc))

theorem follows_log (s : Session) (cs : List Command) :
    Follows (settled s.machine.state.waiting) (s.log cs)
      (settled (s.run cs).machine.state.waiting) := by
  induction cs generalizing s with
  | nil => exact .nil
  | cons c cs ih => exact (s.follows_step c).append (ih (s.step c).1)

-- The log can be read as the run. Every cycle adds what it has come to, the same in place, and a cycle that fails
-- stays where it is. So a log is bracketed by its waits: where one opens, the log pauses until the key for the
-- same register arrives, the machine is reset or the log is over, and no key arrives unless there is a wait for
-- it.
theorem log_tells_waits (config : Config) (entropy : Key) (cs : List Command) :
    let t := (new config entropy).run cs
    let c := t.machine.cycle
    let log := (new config entropy).log cs
    (new config entropy).log (cs ++ [.cycle]) = log ++ c.events.map Event.line ∧
      t.machine.state.Tells c.machine.state c.result (c.events.map Event.line) ∧
      Bare.cycle t.machine.bare = some (c.result, c.machine.bare, c.events) ∧
      (∀ ls x ls', log = ls ++ .waits x :: ls' → ∃ pause rest, ls' = pause ++ rest ∧
        Line.Pause x pause ∧ Line.Ends x t.machine.state.waiting rest) ∧
      ∀ ls x key ls', log = ls ++ .received x key :: ls' →
        ∃ ls₀ pause, ls = ls₀ ++ .waits x :: pause ∧ Line.Pause x pause := by
  intro t c log
  have hl : Follows (settled none) log (settled t.machine.state.waiting) :=
    follows_log (new config entropy) cs
  have ht : t.Reachable := ⟨config, entropy, cs, rfl⟩
  have hc : t.machine.Cycle c := t.machine.cycle_goes
  refine ⟨log_concat _ cs .cycle, hc.tells, Bare.cycle_bare ht.bounded hc, fun ls x ls' he => ?_,
    fun ls x key ls' he => ?_⟩
  case refine_1 => exact (he ▸ hl).paused
  case refine_2 => exact (he ▸ hl).resumed

-- `F00A` parks the machine, key F arrives, and the return behind it fails.
theorem log_tells_waits_last_key :
    let cs := [.load [0xF0, 0x0A, 0x00, 0xEE], .cycle, .cycle, .setHeld 0xF true, .cycle]
    let loaded := ⟨.debug, "loaded program", [("bytes", 4)]⟩
    let waits := ⟨.debug, "waiting for key", [("register", 0)]⟩
    let trace := ⟨.trace, "200 F00A LD Vx, K       " ++
      "v[00, 00, 00, 00, 00, 00, 00, 00, 00, 00, 00, 00, 00, 00, 00, 00] i0000 pc0202", []⟩
    let received := ⟨.debug, "key received", [("register", 0), ("key", 15)]⟩
    let failed := ⟨.error, "cycle failed: stack underflow returning from 0x202", [("pc", 0x202)]⟩
    let t := (new {} ⟨.replicate 8 0⟩).run cs
    (new {} ⟨.replicate 8 0⟩).log (cs ++ [.cycle]) = [loaded, waits, trace, received, failed] ∧
      t.machine.state.Tells t.machine.cycle.machine.state (.error (.stackUnderflow 0x202)) [failed] ∧
      (∃ pause rest, [trace, received] = pause ++ rest ∧ Line.Pause .v0 pause ∧
        Line.Ends .v0 none rest) ∧
      ∃ ls₀ pause, [loaded, waits, trace] = ls₀ ++ waits :: pause ∧ Line.Pause .v0 pause := by
  intro cs loaded waits trace received failed
  obtain ⟨hl, ht, -, ho, hk⟩ := log_tells_waits {} ⟨.replicate 8 0⟩ cs
  obtain ⟨hs, hn, hw, hq⟩ :
      (new {} ⟨.replicate 8 0⟩).log cs = [loaded, waits, trace, received] ∧
      (new {} ⟨.replicate 8 0⟩).log (cs ++ [.cycle]) = [loaded, waits, trace, received, failed] ∧
      ((new {} ⟨.replicate 8 0⟩).run cs).machine.state.waiting = none ∧
      (((new {} ⟨.replicate 8 0⟩).run cs).step .cycle).2.1 = .fault (.stackUnderflow 0x202) := by
    decide +kernel
  generalize (new {} ⟨.replicate 8 0⟩).run cs = t at *
  have hr : t.machine.cycle.result = .error (.stackUnderflow 0x202) := by
    change Reply.ofResult .outcome t.machine.cycle.result = _ at hq
    cases hc : t.machine.cycle.result <;> rw [hc] at hq <;> cases hq
    rfl
  have hf : t.machine.cycle.events.map Event.line = [failed] := by
    rw [hs] at hl
    exact List.append_cancel_left (hl.symm.trans hn)
  exact ⟨hn, hr ▸ hf ▸ ht, hw ▸ ho [loaded] .v0 _ hs, hk _ .v0 (.last 15) [] hs⟩

end Session
end Chip8
