import Chip8.Fault

-- The hexadecimal keypad: which of the 16 keys are held.

namespace Chip8

@[ext]
structure Keypad where
  held : Vector Bool 16
deriving DecidableEq

namespace Keypad

def initial : Keypad := ⟨Vector.replicate 16 false⟩

def set (k : Keypad) (key : UInt8) (held : Bool) : Except Fault Keypad :=
  if h : key.toNat < 16 then
    .ok ⟨k.held.set key.toNat held⟩
  else
    .error (.invalidKey key)

-- Only the low nibble of `key` counts.
def isHeld (k : Keypad) (key : UInt8) : Bool :=
  k.held[key.toNat % 16]

-- The lowest key that is held.
def lowest (k : Keypad) : Option (Fin 16) :=
  (List.finRange 16).find? k.held.get

-- No key is held.
def Idle (k : Keypad) : Prop :=
  ∀ key, k.held.get key = false

-- `key` is held and no key below it is.
def Lowest (k : Keypad) (key : Fin 16) : Prop :=
  k.held.get key = true ∧ ∀ j, j < key → k.held.get j = false

instance (k : Keypad) : Decidable k.Idle :=
  inferInstanceAs (Decidable (∀ key, k.held.get key = false))

instance (k : Keypad) (key : Fin 16) : Decidable (k.Lowest key) :=
  inferInstanceAs (Decidable (k.held.get key = true ∧ ∀ j, j < key → k.held.get j = false))

def clear (_ : Keypad) : Keypad := initial

theorem set_eq_error_iff {k : Keypad} {key : UInt8} {b : Bool} {f : Fault} :
    k.set key b = .error f ↔ 16 ≤ key.toNat ∧ f = .invalidKey key := by
  unfold set
  split
  case isTrue h => exact ⟨(nomatch ·), fun e => absurd h (by omega)⟩
  case isFalse h => exact ⟨fun e => ⟨by omega, (Except.error.inj e).symm⟩, fun e => e.2 ▸ rfl⟩

theorem lowest_eq_none_iff {k : Keypad} : k.lowest = none ↔ k.Idle := by
  simp [lowest, Idle]

theorem lowest_eq_some_iff {k : Keypad} {key : Fin 16} : k.lowest = some key ↔ k.Lowest key := by
  rw [lowest, List.find?_eq_some_iff_getElem]
  refine and_congr_right fun _ => ⟨?_, ?_⟩
  case refine_1 =>
    intro ⟨i, hi, he, hj⟩ j hl
    have hv : key.val = i := by simp [← he]
    have hb := hj j.val (hv ▸ hl)
    simpa using hb
  case refine_2 =>
    intro h
    exact ⟨key, by simp, by simp, fun j hj => by simpa using h ⟨j, _⟩ hj⟩

end Keypad
end Chip8
