import Chip8.Proofs.Countdown
import Chip8.Proofs.Embedding.Instructions

-- The timers by themselves, with a divider that may be another one in each cycle. They count the cycles since
-- the last one that ticked, and the next one ticks as soon as its divider is reached. A count that is not below
-- the divider is given up at once, so it never comes to the end of its word.

namespace Chip8
namespace Timers

-- What may be done to timers.
inductive Use where
  | cycle (divider : UInt32)
  | tick
  | setDelay (byte : UInt8)
  | setSound (byte : UInt8)
deriving DecidableEq, Repr

def use (t : Timers) : Use → Timers
  | .cycle divider => t.cycle divider
  | .tick => t.tick
  | .setDelay byte => { t with delay := byte }
  | .setSound byte => { t with sound := byte }

-- The timers after a list of uses.
def run (t : Timers) : List Use → Timers
  | [] => t
  | u :: us => run (t.use u) us

-- Whether a cycle ticks, as it can be seen from outside: a countdown that is at 1 comes to an end.
def ticksIn (t : Timers) (divider : UInt32) : Bool :=
  (cycle { t with delay := 1 } divider).delay = 0

-- For each cycle among the uses, whether it ticks.
def ticks (t : Timers) : List Use → List Bool
  | [] => []
  | .cycle divider :: us => t.ticksIn divider :: ticks (t.cycle divider) us
  | u :: us => ticks (t.use u) us

-- How many cycles there were since the last one that ticked.
def sinceTick (ticked : List Bool) : Nat :=
  (ticked.reverse.takeWhile (! ·)).length

variable {t : Timers} {divider : UInt32}

theorem sinceTick_concat (ticked : List Bool) (b : Bool) :
    sinceTick (ticked ++ [b]) = if b then 0 else sinceTick ticked + 1 := by
  cases b <;> simp [sinceTick]

theorem ticksIn_iff : t.ticksIn divider = true ↔ max divider.toNat 1 ≤ t.phase + 1 := by
  rw [ticksIn, decide_eq_true_iff, cycle]
  split
  case isTrue h => exact iff_of_false (by decide : (1 : UInt8) ≠ 0) (Nat.not_le_of_lt h)
  case isFalse h => exact iff_of_true rfl (Nat.le_of_not_lt h)

theorem phase_cycle_eq (t : Timers) (divider : UInt32) :
    (t.cycle divider).phase = if t.ticksIn divider then 0 else t.phase + 1 := by
  simp only [ticksIn_iff, cycle, ← Nat.not_lt, ite_not]
  split <;> rfl

-- The count of cycles stands for those since the last tick, and there is room for one more in its word.
structure Counted (t : Timers) (ticked : List Bool) : Prop where
  phase : t.phase = sinceTick ticked
  room : t.phase + 1 < UInt32.size

variable {ticked : List Bool}

theorem Counted.initial : Timers.initial.Counted [] where
  phase := rfl
  room := by decide

theorem Counted.cycle (h : t.Counted ticked) (divider : UInt32) :
    (t.cycle divider).Counted (ticked ++ [t.ticksIn divider]) where
  phase := by rw [phase_cycle_eq, sinceTick_concat, h.phase]
  room := by
    have hd : max divider.toNat 1 < UInt32.size := Nat.max_lt.mpr ⟨divider.toNat_lt_size, by decide⟩
    exact Nat.lt_of_le_of_lt (t.cycle_phase_lt divider) hd

theorem Counted.run (h : t.Counted ticked) (us : List Use) :
    (t.run us).Counted (ticked ++ t.ticks us) := by
  induction us generalizing t ticked
  case nil => rwa [ticks, List.append_nil]
  case cons u us ih =>
    cases u
    case cycle divider =>
      rw [ticks, List.append_cons]
      exact ih (h.cycle divider)
    case tick | setDelay | setSound => exact ih ⟨h.phase, h.room⟩

-- However the divider changes, a cycle ticks exactly if the cycles since the last one that ticked, itself
-- among them, reach it; then both countdowns go down by one, and otherwise they stay. The count is that of
-- these cycles, below the divider of the last cycle at all times, and the next sum fits into its word.
theorem cycles_counted_since_tick (us : List Use) (divider : UInt32) :
    let t := initial.run us
    let n := sinceTick (initial.ticks us)
    let d := max divider.toNat 1
    t.phase = n ∧ n + 1 < UInt32.size ∧ (t.cycle divider).phase < d ∧
      (t.ticksIn divider = true ↔ d ≤ n + 1) ∧
      (∀ k, ((t.cycle divider).left k).toNat = (t.left k).toNat - if d ≤ n + 1 then 1 else 0) ∧
      ∀ m : Machine,
        let w := { m with config.timer := .cycles divider, state.timers := t }
        Bare.elapse w.bare = some (.ok (), w.elapse.bare, []) := by
  intro t n d
  obtain ⟨hp, hr⟩ := Counted.initial.run us
  have hp : t.phase = n := hp
  exact ⟨hp, hp ▸ hr, t.cycle_phase_lt divider, hp ▸ ticksIn_iff, hp ▸ t.left_cycle_eq divider,
    fun _ => Bare.elapse_bare_of_lt _ hr⟩

end Timers
end Chip8
