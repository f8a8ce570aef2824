import Chip8.Proofs.Cycle
import Chip8.Proofs.Encoding
import Chip8.Proofs.Execution

-- What instructions make of the numbers in registers, told in integers. The operands are those before the
-- instruction, also where the flag register is one of them. Where the result and the flag go to the same
-- register, it holds the flag.

namespace Chip8
namespace Registers

variable {v : Registers} {x : Register} {r : UInt8} {n : Nat}

end Registers

namespace Alu

variable (a b : UInt8)

theorem exists_code_iff {code : Nat} : (∃ op, ofCode? code = some op) ↔ code ≤ 0x7 ∨ code = 0xE := by
  rw [← Option.ne_none_iff_exists', Ne, ofCode?_eq_none_iff, Decidable.not_not]

end Alu

namespace Machine

variable {m : Machine} {op : Opcode} {i : Instruction} {u : State}

end Machine
end Chip8
