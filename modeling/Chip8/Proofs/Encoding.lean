import Chip8.Instruction.Decode

-- The code of the instructions as a table: which words stand for which instruction, and which words
-- stand for none.

namespace Chip8
namespace Opcode

inductive Encodes (op : Opcode) : Instruction → Prop
  | clear (hf : op.family = 0x0) (hk : op.kk.toNat = 0xE0) : Encodes op .clear
  | ret (hf : op.family = 0x0) (hk : op.kk.toNat = 0xEE) : Encodes op .ret
  | jump (hf : op.family = 0x1) : Encodes op (.jump op.nnn)
  | call (hf : op.family = 0x2) : Encodes op (.call op.nnn)
  | byteEq (hf : op.family = 0x3) : Encodes op (.skip (.byteEq op.x op.kk))
  | byteNe (hf : op.family = 0x4) : Encodes op (.skip (.byteNe op.x op.kk))
  | eq (hf : op.family = 0x5) : Encodes op (.skip (.eq op.x op.y))
  | loadByte (hf : op.family = 0x6) : Encodes op (.loadByte op.x op.kk)
  | addByte (hf : op.family = 0x7) : Encodes op (.addByte op.x op.kk)
  | alu (hf : op.family = 0x8) (ha : Alu.ofCode? op.n = some a) : Encodes op (.alu a op.x op.y)
  | ne (hf : op.family = 0x9) : Encodes op (.skip (.ne op.x op.y))
  | loadIndex (hf : op.family = 0xA) : Encodes op (.loadIndex op.nnn)
  | jumpOffset (hf : op.family = 0xB) : Encodes op (.jumpOffset op.nnn)
  | random (hf : op.family = 0xC) : Encodes op (.random op.x op.kk)
  | draw (hf : op.family = 0xD) : Encodes op (.draw op.x op.y op.n)
  | held (hf : op.family = 0xE) (hk : op.kk.toNat = 0x9E) : Encodes op (.skip (.held op.x))
  | released (hf : op.family = 0xE) (hk : op.kk.toNat = 0xA1) : Encodes op (.skip (.released op.x))
  | readDelay (hf : op.family = 0xF) (hk : op.kk.toNat = 0x07) : Encodes op (.readDelay op.x)
  | awaitKey (hf : op.family = 0xF) (hk : op.kk.toNat = 0x0A) : Encodes op (.awaitKey op.x)
  | setDelay (hf : op.family = 0xF) (hk : op.kk.toNat = 0x15) : Encodes op (.setDelay op.x)
  | setSound (hf : op.family = 0xF) (hk : op.kk.toNat = 0x18) : Encodes op (.setSound op.x)
  | addIndex (hf : op.family = 0xF) (hk : op.kk.toNat = 0x1E) : Encodes op (.addIndex op.x)
  | glyph (hf : op.family = 0xF) (hk : op.kk.toNat = 0x29) : Encodes op (.glyph op.x)
  | decimal (hf : op.family = 0xF) (hk : op.kk.toNat = 0x33) : Encodes op (.decimal op.x)
  | store (hf : op.family = 0xF) (hk : op.kk.toNat = 0x55) : Encodes op (.store op.x)
  | restore (hf : op.family = 0xF) (hk : op.kk.toNat = 0x65) : Encodes op (.restore op.x)

-- The words that stand for an instruction.
def Assigned (op : Opcode) : Prop :=
  match op.family with
  | 0x0 => op.kk.toNat = 0xE0 ∨ op.kk.toNat = 0xEE
  | 0x8 => op.n.val ≤ 0x7 ∨ op.n.val = 0xE
  | 0xE => op.kk.toNat = 0x9E ∨ op.kk.toNat = 0xA1
  | 0xF => op.kk.toNat ∈ [0x07, 0x0A, 0x15, 0x18, 0x1E, 0x29, 0x33, 0x55, 0x65]
  | _ => True

end Opcode

theorem Alu.ofCode?_eq_none_iff {n : Nat} : Alu.ofCode? n = none ↔ ¬(n ≤ 0x7 ∨ n = 0xE) := by
  unfold Alu.ofCode?
  split <;> simp only [reduceCtorEq, false_iff, true_iff]
  all_goals grind

namespace Instruction

variable {op : Opcode} {i : Instruction} {x : Register} {n : Nat}

theorem ofSystem?_eq_none_iff : ofSystem? n = none ↔ ¬(n = 0xE0 ∨ n = 0xEE) := by
  unfold ofSystem?
  split <;> simp_all

theorem ofKey?_eq_none_iff : ofKey? x n = none ↔ ¬(n = 0x9E ∨ n = 0xA1) := by
  unfold ofKey?
  split <;> simp_all

theorem ofMisc?_eq_none_iff :
    ofMisc? x n = none ↔ n ∉ [0x07, 0x0A, 0x15, 0x18, 0x1E, 0x29, 0x33, 0x55, 0x65] := by
  unfold ofMisc?
  split <;> simp_all

theorem decode?_eq_none_iff : decode? op = none ↔ ¬op.Assigned := by
  have h := op.family_lt
  unfold decode? Opcode.Assigned
  generalize op.family = family at h
  match family, h with
  | 0x0, _ => exact ofSystem?_eq_none_iff
  | 0x8, _ => exact Option.map_eq_none_iff.trans Alu.ofCode?_eq_none_iff
  | 0xE, _ => exact ofKey?_eq_none_iff
  | 0xF, _ => exact ofMisc?_eq_none_iff
  | 0x1, _ | 0x2, _ | 0x3, _ | 0x4, _ | 0x5, _ | 0x6, _ | 0x7, _ | 0x9, _ | 0xA, _ | 0xB, _
  | 0xC, _ | 0xD, _ => simp
  | _ + 0x10, h => exact absurd h (by omega)

theorem encodes_of_decode? (h : decode? op = some i) : op.Encodes i := by
  have hf := op.family_lt
  unfold decode? at h
  split at h
  case h_1 =>
    unfold ofSystem? at h
    split at h <;> cases h <;> constructor <;> assumption
  case h_9 =>
    have ⟨_, ha, hi⟩ := Option.map_eq_some_iff.mp h
    exact hi ▸ .alu ‹_› ha
  case h_15 =>
    unfold ofKey? at h
    split at h <;> cases h <;> constructor <;> assumption
  case h_16 =>
    have hf : op.family = 0xF := by grind
    unfold ofMisc? at h
    split at h <;> cases h <;> constructor <;> assumption
  all_goals
    cases h
    constructor
    assumption

theorem decode?_of_encodes (h : op.Encodes i) : decode? op = some i := by
  cases h <;> simp only [decode?, ofSystem?, ofKey?, ofMisc?, Option.map_some, *]

end Instruction
end Chip8
