import Chip8.Instruction.Basic

-- Reading an instruction off its word of 16 bits. The topmost nibble is the family; of the words in
-- the families 0, 8, E and F only some are assigned, and bits that no operand takes are ignored.

namespace Chip8

abbrev Opcode := UInt16

namespace Opcode

def family (op : Opcode) : Nat :=
  op.toNat / 4096

def x (op : Opcode) : Register :=
  ⟨op.toNat / 256 % 16, Nat.mod_lt _ (by decide)⟩

def y (op : Opcode) : Register :=
  ⟨op.toNat / 16 % 16, Nat.mod_lt _ (by decide)⟩

def n (op : Opcode) : Fin 16 :=
  ⟨op.toNat % 16, Nat.mod_lt _ (by decide)⟩

def kk (op : Opcode) : UInt8 :=
  .ofNat op.toNat

def nnn (op : Opcode) : Address :=
  ⟨op.toNat % 4096, Nat.mod_lt _ (by decide)⟩

theorem family_lt (op : Opcode) : op.family < 16 := by
  have := op.toNat_lt
  simp only [family]; omega

@[simp]
theorem val_x (op : Opcode) : op.x.val = op.toNat / 256 % 16 := rfl

@[simp]
theorem val_y (op : Opcode) : op.y.val = op.toNat / 16 % 16 := rfl

@[simp]
theorem val_n (op : Opcode) : op.n.val = op.toNat % 16 := rfl

@[simp]
theorem val_nnn (op : Opcode) : op.nnn.val = op.toNat % 4096 := rfl

@[simp]
theorem toNat_kk (op : Opcode) : op.kk.toNat = op.toNat % 256 := by
  simp [kk]

end Opcode

def Alu.ofCode? : Nat → Option Alu
  | 0x0 => some copy
  | 0x1 => some or
  | 0x2 => some and
  | 0x3 => some xor
  | 0x4 => some add
  | 0x5 => some sub
  | 0x6 => some shiftRight
  | 0x7 => some subFrom
  | 0xE => some shiftLeft
  | _ => none

namespace Instruction

-- The low byte alone tells the two instructions of family 0 apart.
def ofSystem? : Nat → Option Instruction
  | 0xE0 => some clear
  | 0xEE => some ret
  | _ => none

def ofKey? (x : Register) : Nat → Option Instruction
  | 0x9E => some (skip (.held x))
  | 0xA1 => some (skip (.released x))
  | _ => none

def ofMisc? (x : Register) : Nat → Option Instruction
  | 0x07 => some (readDelay x)
  | 0x0A => some (awaitKey x)
  | 0x15 => some (setDelay x)
  | 0x18 => some (setSound x)
  | 0x1E => some (addIndex x)
  | 0x29 => some (glyph x)
  | 0x33 => some (decimal x)
  | 0x55 => some (store x)
  | 0x65 => some (restore x)
  | _ => none

def decode? (op : Opcode) : Option Instruction :=
  match op.family with
  | 0x0 => ofSystem? op.kk.toNat
  | 0x1 => some (jump op.nnn)
  | 0x2 => some (call op.nnn)
  | 0x3 => some (skip (.byteEq op.x op.kk))
  | 0x4 => some (skip (.byteNe op.x op.kk))
  | 0x5 => some (skip (.eq op.x op.y))
  | 0x6 => some (loadByte op.x op.kk)
  | 0x7 => some (addByte op.x op.kk)
  | 0x8 => (Alu.ofCode? op.n).map (alu · op.x op.y)
  | 0x9 => some (skip (.ne op.x op.y))
  | 0xA => some (loadIndex op.nnn)
  | 0xB => some (jumpOffset op.nnn)
  | 0xC => some (random op.x op.kk)
  | 0xD => some (draw op.x op.y op.n)
  | 0xE => ofKey? op.x op.kk.toNat
  | _ => ofMisc? op.x op.kk.toNat

end Instruction
end Chip8
