import Chip8.Text.Hex

-- Why an operation was refused. Whoever raises a fault leaves everything as it was.

namespace Chip8

inductive Fault where
  | unknownOpcode (opcode address : UInt16)
  | outOfBounds (address : Nat)
  | stackOverflow (caller : UInt16)
  | stackUnderflow (caller : UInt16)
  | programTooLarge (size max : Nat)
  | invalidKey (key : UInt8)
deriving DecidableEq, Repr

namespace Fault

def message : Fault → String
  | unknownOpcode opcode address =>
    "unknown opcode " ++ Hex.literal 4 opcode.toNat ++ " at " ++ Hex.literal 3 address.toNat
  | outOfBounds address => "memory access out of bounds at " ++ Hex.literal 4 address
  | stackOverflow caller => "stack overflow calling from " ++ Hex.literal 3 caller.toNat
  | stackUnderflow caller => "stack underflow returning from " ++ Hex.literal 3 caller.toNat
  | programTooLarge size max =>
    "program is " ++ toString size ++ " bytes but only " ++ toString max ++ " fit in memory"
  | invalidKey key => "key " ++ Hex.literal 2 key.toNat ++ " is not on the keypad"

variable {p : Prop} [Decidable p] {a b : α} {f g : Fault}

-- The two outcomes of a check.
theorem ite_eq_ok_iff : (if p then Except.ok a else .error g) = .ok b ↔ p ∧ b = a := by
  split
  case isTrue h => simp [h, eq_comm]
  case isFalse h => simp [h]

theorem ite_eq_error_iff : (if p then Except.ok a else .error g) = .error f ↔ ¬p ∧ f = g := by
  split
  case isTrue h => simp [h]
  case isFalse h => simp [h, eq_comm]

theorem bind_eq_error_iff {e : Except Fault α} {k : α → Except Fault β} :
    e >>= k = .error f ↔ e = .error f ∨ ∃ a, e = .ok a ∧ k a = .error f := by
  cases e <;> simp [bind, Except.bind]

theorem bind_ok_eq_ok_iff {e : Except Fault α} {k : α → β} {b : β} :
    (e >>= fun a => .ok (k a)) = .ok b ↔ ∃ a, e = .ok a ∧ b = k a := by
  cases e <;> simp [bind, Except.bind, eq_comm]

-- Only a check can refuse what comes after it.
theorem bind_ok_eq_error_iff {e : Except Fault α} {k : α → β} :
    (e >>= fun a => .ok (k a)) = .error f ↔ e = .error f := by
  simp [bind_eq_error_iff]

end Fault
end Chip8
