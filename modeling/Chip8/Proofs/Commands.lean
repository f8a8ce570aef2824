import Chip8.Move
import Chip8.Proofs.Cycle

-- What the commands of a session have in common for its machine. Only cycles report an outcome, and only
-- they look at the configuration or at the cycles that the divider has counted.

namespace Chip8
namespace Reply

-- Whether a completed cycle is what the reply is about.
def completes : Reply → Bool
  | outcome _ => true
  | _ => false

theorem completes_ofResult (r : Except Fault Outcome) : (ofResult outcome r).completes = r.isOk := by
  cases r <;> rfl

end Reply

namespace Session

variable {α : Type} {s : Session} {c : Command}

-- What a list of commands answers.
def replies (s : Session) (cs : List Command) : List Reply :=
  (s.transcript cs).map Prod.fst

theorem replies_cons (cs : List Command) :
    s.replies (c :: cs) = (s.step c).2.1 :: (s.step c).1.replies cs := rfl

-- What a list of commands yields one by one, in their order.
def gather (f : Session → Command → Option α) (s : Session) : List Command → List α
  | [] => []
  | c :: cs => (f s c).toList ++ gather f (s.step c).1 cs

theorem gather_append (f : Session → Command → Option α) (cs ds : List Command) :
    s.gather f (cs ++ ds) = s.gather f cs ++ (s.run cs).gather f ds := by
  induction cs generalizing s
  case nil => rfl
  case cons c cs ih => simp only [List.cons_append, gather, ih, List.append_assoc, run]

theorem gather_eq_nil {f : Session → Command → Option α} {cs : List Command}
    (h : ∀ s, ∀ c ∈ cs, f s c = none) : s.gather f cs = [] := by
  induction cs generalizing s
  case nil => rfl
  case cons c cs ih =>
    rw [gather, h s c List.mem_cons_self, ih fun s d hd => h s d (List.mem_cons_of_mem c hd)]
    rfl

theorem step_cycle {t : Transition (Except Fault Outcome)} (h : s.machine.Cycle t) :
    s.step .cycle = ({ s with machine := t.machine }, .ofResult .outcome t.result, t.events) :=
  h.eq_cycle ▸ rfl

theorem completes_cycle (s : Session) :
    (s.step .cycle).2.1.completes = s.machine.cycle.result.isOk :=
  Reply.completes_ofResult _

theorem completes_step (hc : c ≠ .cycle) : (s.step c).2.1.completes = false := by
  cases c
  case cycle => contradiction
  case deliverKeys k =>
    simp only [step]
    split
    case h_1 l _ => cases (l.deliverKeys s.machine).2.2 <;> rfl
    case h_2 => rfl
  case addFrontend | dropFrontend | detach | send | newest | post =>
    simp only [step]
    split <;> rfl
  case load program =>
    simp only [step]
    cases (s.machine.load program).result <;> rfl
  case setHeld key held =>
    simp only [step]
    cases (s.machine.setHeld key held).2 <;> rfl
  case reset | tick | collectFrame | openLink => rfl

theorem timers_step (hr : c ≠ .reset) (hc : c ≠ .cycle) (ht : c ≠ .tick) :
    (s.step c).1.machine.state.timers = s.machine.state.timers := by
  cases c
  case reset | cycle | tick => contradiction
  case load program =>
    simp only [step, Machine.load]
    split <;> rfl
  case setHeld key held =>
    simp only [step, Machine.setHeld]
    split <;> rfl
  case collectFrame | openLink => rfl
  case addFrontend | dropFrontend | detach | send | newest | deliverKeys | post =>
    simp only [step]
    split <;> rfl

theorem phase_step (hr : c ≠ .reset) (hc : c ≠ .cycle) :
    (s.step c).1.machine.state.timers.phase = s.machine.state.timers.phase := by
  by_cases ht : c = .tick
  case pos => subst ht; rfl
  case neg => rw [timers_step hr hc ht]

theorem config_step (s : Session) (c : Command) :
    (s.step c).1.machine.config = s.machine.config := by
  obtain hm | ⟨mv, hm, _⟩ := s.machine_step_cases c
  case inl => rw [hm]
  case inr =>
    rw [hm]
    by_cases hr : mv = .reset
    case pos => subst hr; rfl
    by_cases hc : mv = .cycle
    case pos => subst hc; exact s.machine.cycle_goes.preserves_config
    case neg =>
      obtain ⟨_, _, _, _, ha, _⟩ := s.machine.act_of_host hr hc
      rw [ha]

theorem config_run (s : Session) (cs : List Command) :
    (s.run cs).machine.config = s.machine.config := by
  induction cs generalizing s with
  | nil => rfl
  | cons c cs ih => exact (ih (s.step c).1).trans (s.config_step c)

-- The session with its machine configured in another way, fed from another generator and at another
-- count of the divider.
def exchange (s : Session) (config : Config → Config) (generator : Generator → Generator)
    (phase : Nat → Nat) : Session :=
  { s with machine := { s.machine with
      config := config s.machine.config
      generator := generator s.machine.generator
      state.timers.phase := phase s.machine.state.timers.phase } }

-- Only a cycle can tell the difference. A reset puts the count to 0, so 0 has to stay what it is.
theorem step_exchange (config : Config → Config) (generator : Generator → Generator) (phase : Nat → Nat)
    (hp : phase 0 = 0) (hc : c ≠ .cycle) :
    (s.exchange config generator phase).step c =
      ((s.step c).1.exchange config generator phase, (s.step c).2) := by
  cases c
  case cycle => contradiction
  case reset =>
    simp only [step, exchange, Machine.reset, State.initial, Timers.initial, hp]
  case load program =>
    simp only [step, exchange, Machine.load]
    split <;> rfl
  case setHeld key held =>
    simp only [step, exchange, Machine.setHeld]
    split <;> rfl
  case tick | collectFrame | openLink => rfl
  case addFrontend k | dropFrontend k | send k _ | newest k =>
    have hk : (s.exchange config generator phase).frontend? k = s.frontend? k := rfl
    simp only [step, hk]
    split <;> rfl
  case detach k | deliverKeys k | post k =>
    have hk : (s.exchange config generator phase).attached? k = s.attached? k := rfl
    simp only [step, hk]
    split <;> rfl

end Session
end Chip8
