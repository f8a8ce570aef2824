import Chip8.Proofs.Commands
import Chip8.Proofs.Unread

-- A divider against a host that ticks. A machine whose timers follow its cycles cannot be told from one
-- whose host ticks by itself, as long as the host ticks behind every completed cycle that the divider
-- would tick in.

namespace Chip8
namespace Machine

variable {m : Machine} {divider : UInt32} {t : Transition (Except Fault Outcome)}

-- The machine with its timers left to the host.
def unpaced (m : Machine) : Machine :=
  { m with config.timer := .host, state.timers.phase := 0 }

theorem elapse_unpaced (hm : m.config.timer = .cycles divider) :
    m.elapse.unpaced =
      if m.state.timers.phase + 1 < max divider.toNat 1 then m.unpaced else m.unpaced.tick := by
  rw [elapse_eq, hm, TimerSource.elapse, Timers.cycle]
  by_cases h : m.state.timers.phase + 1 < max divider.toNat 1
  case pos => rw [if_pos h, if_pos h]; rfl
  case neg => rw [if_neg h, if_neg h]; rfl

-- Up to the moment at which the timers move both machines come to the same `w`.
theorem Cycle.unpaced (h : m.Cycle t) : ∃ w, w.config = m.config ∧
    w.state.timers.phase = m.state.timers.phase ∧
    t.machine = (if t.result.isOk then w.elapse else w) ∧
    m.unpaced.Cycle ⟨w.unpaced, t.result, t.events⟩ := by
  obtain ⟨w, _, hc, hp, hr, hm, hu⟩ := h.withUnread .host 0 m.state.redraw
  refine ⟨w, hc, hp, hm, ?_⟩
  have hw : (if t.result.isOk then w.unpaced.elapse else w.unpaced) = w.unpaced := ite_self _
  rw [← hr] at hu
  rw [← hw]
  exact hu

end Machine

namespace Session

variable {s : Session} {c : Command} {divider : UInt32} {n : Nat}

-- The session with the timers of its machine left to the host.
def unpaced (s : Session) : Session :=
  { s with machine := s.machine.unpaced }

-- How many cycles are completed since the last reset, if it was `n` before the command.
def tally (s : Session) (n : Nat) (c : Command) : Nat :=
  if c = .reset then 0 else if (s.step c).2.1.completes then n + 1 else n

-- What the host does behind a command if it ticks once in `d` completed cycles, `n` of them before.
def beat (s : Session) (d n : Nat) (c : Command) : List Command :=
  if (s.step c).2.1.completes ∧ d ∣ n + 1 then [.tick] else []

-- The commands with the ticks of the host among them.
def paced (s : Session) (d n : Nat) : List Command → List Command
  | [] => []
  | c :: cs => c :: s.beat d n c ++ (s.run (c :: s.beat d n c)).paced d (s.tally n c) cs

-- The machine is driven by the divider, and `n` cycles are completed since the last reset.
structure Counts (s : Session) (divider : UInt32) (n : Nat) : Prop where
  timer : s.machine.config.timer = .cycles divider
  phase : s.machine.state.timers.phase = n % max divider.toNat 1

theorem mod_add_one_lt_iff {d : Nat} (hd : 0 < d) : n % d + 1 < d ↔ ¬d ∣ n + 1 := by
  rw [Nat.dvd_iff_mod_eq_zero, ← Nat.mod_add_mod]
  constructor
  case mp =>
    intro h
    rw [Nat.mod_eq_of_lt h]
    exact Nat.succ_ne_zero _
  case mpr =>
    intro h
    refine Nat.lt_of_le_of_ne (Nat.mod_lt n hd) fun he => h ?_
    rw [he, Nat.mod_self]

namespace Counts

variable {m : Machine}

theorem elapse (hs : s.Counts divider n) (hc : m.config = s.machine.config)
    (hp : m.state.timers.phase = s.machine.state.timers.phase) :
    Counts { s with machine := m.elapse } divider (n + 1) where
  timer := by rw [Machine.elapse_config, hc, hs.timer]
  phase := by
    have hd : m.state.timers.phase < max divider.toNat 1 := by
      rw [hp, hs.phase]
      exact Nat.mod_lt _ (by omega)
    simp only [Machine.elapse_eq, hc, hs.timer, TimerSource.elapse]
    rw [Timers.phase_cycle hd, hp, hs.phase, Nat.mod_add_mod]

-- The divider ticks in the cycle behind which the host does.
theorem unpaced_elapse (hs : s.Counts divider n) (hc : m.config = s.machine.config)
    (hp : m.state.timers.phase = s.machine.state.timers.phase) :
    m.elapse.unpaced = if max divider.toNat 1 ∣ n + 1 then m.unpaced.tick else m.unpaced := by
  have hd : 0 < max divider.toNat 1 := by omega
  rw [m.elapse_unpaced (hc ▸ hs.timer), hp, hs.phase]
  simp only [mod_add_one_lt_iff hd, ite_not]

end Counts

theorem cycle_unpaced (hs : s.Counts divider n) :
    (s.unpaced.step .cycle).2 = (s.step .cycle).2 ∧
    s.unpaced.run (.cycle :: s.unpaced.beat (max divider.toNat 1) n .cycle) = (s.step .cycle).1.unpaced ∧
    (s.step .cycle).1.Counts divider (s.unpaced.tally n .cycle) := by
  obtain ⟨w, hc, hp, hm, hu⟩ := s.machine.cycle_goes.unpaced
  have hu : s.unpaced.step .cycle = (⟨w.unpaced, s.links⟩, (s.step .cycle).2) :=
    step_cycle (s := s.unpaced) hu
  have hs' : (s.step .cycle).1 = { s with machine := s.machine.cycle.machine } := rfl
  have hl : s.unpaced.tally n .cycle = if s.machine.cycle.result.isOk then n + 1 else n := by
    rw [← s.completes_cycle, tally, hu]
    rfl
  rw [hs', hm, hl, run, beat, hu, s.completes_cycle]
  refine ⟨rfl, ?_⟩
  cases s.machine.cycle.result.isOk
  case false => exact ⟨rfl, hc ▸ hs.timer, hp.trans hs.phase⟩
  case true =>
    refine ⟨?_, hs.elapse hc hp⟩
    rw [if_pos rfl, unpaced, hs.unpaced_elapse hc hp]
    by_cases hb : max divider.toNat 1 ∣ n + 1
    case pos => rw [if_pos hb, if_pos ⟨rfl, hb⟩]; rfl
    case neg => rw [if_neg hb, if_neg fun h => hb h.2]; rfl

theorem step_unpaced (hs : s.Counts divider n) (c : Command) :
    (s.unpaced.step c).2 = (s.step c).2 ∧
    s.unpaced.run (c :: s.unpaced.beat (max divider.toNat 1) n c) = (s.step c).1.unpaced ∧
    (s.step c).1.Counts divider (s.unpaced.tally n c) := by
  by_cases hc : c = .cycle
  case pos => exact hc ▸ cycle_unpaced hs
  case neg =>
    have hu : s.unpaced.step c = ((s.step c).1.unpaced, (s.step c).2) :=
      step_exchange (fun config => { config with timer := .host }) id (fun _ => 0) rfl hc
    have hn := s.unpaced.completes_step hc
    refine ⟨by rw [hu], ?_, ?_⟩
    case refine_1 =>
      rw [beat, hn, if_neg fun h => Bool.false_ne_true h.1, run, hu]
      rfl
    case refine_2 =>
      rw [tally, hn]
      refine ⟨(s.config_step c).symm ▸ hs.timer, ?_⟩
      by_cases hr : c = .reset
      case pos => rw [if_pos hr, hr, Nat.zero_mod]; rfl
      case neg => rw [if_neg hr, phase_step hr hc, hs.phase]; rfl

theorem run_unpaced (hs : s.Counts divider n) (cs : List Command) :
    s.unpaced.run (s.unpaced.paced (max divider.toNat 1) n cs) = (s.run cs).unpaced ∧
      ∃ n', (s.run cs).Counts divider n' := by
  induction cs generalizing s n
  case nil => exact ⟨rfl, n, hs⟩
  case cons c cs ih =>
    have ⟨_, hu, hs'⟩ := step_unpaced hs c
    rw [paced, run_append, hu]
    exact ih hs'

-- Where the host ticks does not depend on the commands to come.
theorem paced_append (s : Session) (d n : Nat) (cs₁ cs₂ : List Command) :
    ∃ n', s.paced d n (cs₁ ++ cs₂) = s.paced d n cs₁ ++ (s.run (s.paced d n cs₁)).paced d n' cs₂ := by
  induction cs₁ generalizing s n
  case nil => exact ⟨n, rfl⟩
  case cons c cs ih =>
    have ⟨n', h⟩ := ih (s.run (c :: s.beat d n c)) (s.tally n c)
    refine ⟨n', ?_⟩
    rw [List.cons_append, paced, paced, h, List.append_assoc, run_append]

-- After any commands, with the ticks of the host among them, both machines are in the same state but for
-- the count of the divider, and they answer the next command with the same.
theorem timer_sources_agree (divider : UInt32) (strict : Bool) (seed : Option UInt64) (entropy : Key)
    (cs : List Command) (c : Command) :
    let d := max divider.toNat 1
    let s := (new { timer := .cycles divider, strict, seed } entropy).run cs
    let t₀ := new { timer := .host, strict, seed } entropy
    let t := t₀.run (t₀.paced d 0 cs)
    t = s.unpaced ∧ (t.step c).2 = (s.step c).2 ∧
      t₀.paced d 0 cs ++ [c] <+: t₀.paced d 0 (cs ++ [c]) := by
  intro d s t₀ t
  have hs : (new { timer := .cycles divider, strict, seed } entropy).Counts divider 0 :=
    ⟨rfl, (Nat.zero_mod _).symm⟩
  have ⟨hu, _, hn⟩ := run_unpaced hs cs
  have ht : t = s.unpaced := hu
  refine ⟨ht, ht ▸ (step_unpaced hn c).1, ?_⟩
  have ⟨_, hp⟩ := t₀.paced_append d 0 cs [c]
  rw [hp]
  exact (List.prefix_append_right_inj _).mpr ⟨_, rfl⟩

end Session
end Chip8
