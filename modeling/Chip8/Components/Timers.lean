-- The delay and sound countdowns. Both stop at zero. They are moved by ticks, which come either from
-- the host or, through `cycle`, from a divider of the completed cycles.

namespace Chip8

@[ext]
structure Timers where
  delay : UInt8
  sound : UInt8
  -- Cycles completed since the divider last ticked.
  phase : Nat
deriving DecidableEq

namespace Timers

def initial : Timers := ⟨0, 0, 0⟩

def countdown (n : UInt8) : UInt8 :=
  .ofNat (n.toNat - 1)

theorem toNat_countdown (n : UInt8) : (countdown n).toNat = n.toNat - 1 := by
  have := n.toNat_lt
  simp [countdown]; omega

def tick (t : Timers) : Timers :=
  { t with delay := countdown t.delay, sound := countdown t.sound }

-- One completed cycle. A divider of 0 counts as 1.
def cycle (t : Timers) (divider : UInt32) : Timers :=
  if t.phase + 1 < max divider.toNat 1 then
    { t with phase := t.phase + 1 }
  else
    { t.tick with phase := 0 }

def soundOn (t : Timers) : Bool :=
  t.sound ≠ 0

theorem cycle_phase_lt (t : Timers) (divider : UInt32) :
    (t.cycle divider).phase < max divider.toNat 1 := by
  unfold cycle
  split
  case isTrue h => exact h
  case isFalse => exact Nat.lt_of_lt_of_le Nat.zero_lt_one (Nat.le_max_right ..)

theorem phase_cycle {t : Timers} {divider : UInt32} (h : t.phase < max divider.toNat 1) :
    (t.cycle divider).phase = (t.phase + 1) % max divider.toNat 1 := by
  unfold cycle
  split
  case isTrue h => exact (Nat.mod_eq_of_lt h).symm
  case isFalse hn =>
    have he : t.phase + 1 = max divider.toNat 1 := Nat.le_antisymm h (Nat.le_of_not_lt hn)
    rw [he, Nat.mod_self]

end Timers
end Chip8
