namespace Chip8

inductive TimerSource where
  -- The timers tick once in `divider` completed cycles, a divider of 0 counting as 1.
  | cycles (divider : UInt32)
  -- Only the host ticks the timers.
  | host
deriving DecidableEq, Repr

structure Config where
  timer : TimerSource := .cycles 1
  -- Fail on a word that is no instruction instead of skipping it.
  strict : Bool := false
  seed : Option UInt64 := none
deriving DecidableEq, Repr

end Chip8
