import Chip8.Fault
import Chip8.Instruction.Decode

-- What the machine and its links report while they work.

namespace Chip8

inductive Level where
  | error
  | warn
  | debug
  | trace
deriving DecidableEq, Repr

def Level.name : Level → String
  | error => "ERROR"
  | warn => "WARN"
  | debug => "DEBUG"
  | trace => "TRACE"

inductive Event where
  | loaded (bytes : Nat)
  | reset
  -- The registers are those after the instruction.
  | executed (address : UInt16) (opcode : Opcode) (instruction : Instruction)
      (v : Registers) (i pc : UInt16)
  | parked (register : Register)
  | keyReceived (register : Register) (key : Fin 16)
  | skipped (address : UInt16) (opcode : Opcode)
  | failed (pc : UInt16) (fault : Fault)
  | heldBack
  | disconnected
deriving DecidableEq, Repr

namespace Event

def level : Event → Level
  | loaded .. | reset | parked .. | keyReceived .. | disconnected => .debug
  | executed .. | heldBack => .trace
  | skipped .. => .warn
  | failed .. => .error

def registerList (v : Registers) : String :=
  "[" ++ ", ".intercalate (v.bytes.toList.map fun b => Hex.digits 2 b.toNat) ++ "]"

def message : Event → String
  | loaded _ => "loaded program"
  | reset => "reset"
  | executed address opcode instruction v i pc =>
    " ".intercalate [
      Hex.digits 3 address.toNat,
      Hex.digits 4 opcode.toNat,
      String.ofList (instruction.mnemonic.toList.rightpad 14 ' '),
      "v" ++ registerList v,
      "i" ++ Hex.digits 4 i.toNat,
      "pc" ++ Hex.digits 4 pc.toNat]
  | parked _ => "waiting for key"
  | keyReceived _ _ => "key received"
  | skipped address opcode =>
    Hex.digits 4 opcode.toNat ++ " at " ++ Hex.digits 3 address.toNat ++
      " is not a Chip-8 instruction, skipping"
  | failed _ fault => "cycle failed: " ++ fault.message
  | heldBack => "frontend is behind, holding snapshot back"
  | disconnected => "frontend disconnected"

def fields : Event → List (String × Nat)
  | loaded bytes => [("bytes", bytes)]
  | parked register => [("register", register)]
  | keyReceived register key => [("register", register), ("key", key)]
  | failed pc _ => [("pc", pc.toNat)]
  | _ => []

end Event
end Chip8
