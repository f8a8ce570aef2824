import Chip8.Components.Registers

-- The instructions of the machine, with their operands taken apart.

namespace Chip8

abbrev Address := Fin 4096

-- When the next instruction is skipped.
inductive Condition where
  | byteEq (x : Register) (byte : UInt8)
  | byteNe (x : Register) (byte : UInt8)
  | eq (x y : Register)
  | ne (x y : Register)
  -- The key numbered by the low nibble of the register.
  | held (x : Register)
  | released (x : Register)
deriving DecidableEq, Repr

-- What a register becomes by way of another.
inductive Alu where
  | copy
  | or
  | and
  | xor
  | add
  | sub
  | shiftRight
  -- The difference with its sides swapped.
  | subFrom
  | shiftLeft
deriving DecidableEq, Repr

inductive Instruction where
  | clear
  | ret
  | jump (target : Address)
  | call (target : Address)
  | skip (condition : Condition)
  | loadByte (x : Register) (byte : UInt8)
  | addByte (x : Register) (byte : UInt8)
  | alu (op : Alu) (x y : Register)
  | loadIndex (target : Address)
  -- The target counts from `V0`.
  | jumpOffset (target : Address)
  | random (x : Register) (mask : UInt8)
  | draw (x y : Register) (rows : Fin 16)
  | readDelay (x : Register)
  | awaitKey (x : Register)
  | setDelay (x : Register)
  | setSound (x : Register)
  | addIndex (x : Register)
  | glyph (x : Register)
  | decimal (x : Register)
  -- The registers `V0` up to `x`.
  | store (x : Register)
  | restore (x : Register)
deriving DecidableEq, Repr

def Condition.mnemonic : Condition → String
  | byteEq _ _ => "SE Vx, byte"
  | byteNe _ _ => "SNE Vx, byte"
  | eq _ _ => "SE Vx, Vy"
  | ne _ _ => "SNE Vx, Vy"
  | held _ => "SKP Vx"
  | released _ => "SKNP Vx"

def Alu.mnemonic : Alu → String
  | copy => "LD Vx, Vy"
  | or => "OR Vx, Vy"
  | and => "AND Vx, Vy"
  | xor => "XOR Vx, Vy"
  | add => "ADD Vx, Vy"
  | sub => "SUB Vx, Vy"
  | shiftRight => "SHR Vx"
  | subFrom => "SUBN Vx, Vy"
  | shiftLeft => "SHL Vx"

namespace Instruction

def mnemonic : Instruction → String
  | clear => "CLS"
  | ret => "RET"
  | jump _ => "JP addr"
  | call _ => "CALL addr"
  | skip c => c.mnemonic
  | loadByte _ _ => "LD Vx, byte"
  | addByte _ _ => "ADD Vx, byte"
  | alu op _ _ => op.mnemonic
  | loadIndex _ => "LD I, addr"
  | jumpOffset _ => "JP V0, addr"
  | random _ _ => "RND Vx, byte"
  | draw _ _ _ => "DRW Vx, Vy, n"
  | readDelay _ => "LD Vx, DT"
  | awaitKey _ => "LD Vx, K"
  | setDelay _ => "LD DT, Vx"
  | setSound _ => "LD ST, Vx"
  | addIndex _ => "ADD I, Vx"
  | glyph _ => "LD F, Vx"
  | decimal _ => "LD B, Vx"
  | store _ => "LD [I], Vx"
  | restore _ => "LD Vx, [I]"

-- Whether executing the instruction uses up a random byte.
def drawsByte : Instruction → Bool
  | random _ _ => true
  | _ => false

theorem drawsByte_iff {i : Instruction} : i.drawsByte = true ↔ ∃ x mask, i = random x mask := by
  cases i <;> simp [drawsByte]

end Instruction
end Chip8
