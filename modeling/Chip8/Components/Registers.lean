-- The sixteen general registers, `V0` up to `VF`.

namespace Chip8

abbrev Register := Fin 16

namespace Register

def v0 : Register := 0

def v1 : Register := 1

def v2 : Register := 2

-- `VF`, which instructions leave a carry, a borrow, a shifted out bit or a collision in.
def flag : Register := 15

end Register

@[ext]
structure Registers where
  bytes : Vector UInt8 16
deriving DecidableEq, Repr

namespace Registers

def initial : Registers := ⟨Vector.replicate 16 0⟩

def get (v : Registers) (x : Register) : UInt8 :=
  v.bytes.get x

def set (v : Registers) (x : Register) (byte : UInt8) : Registers :=
  ⟨v.bytes.set x byte x.isLt⟩

-- `V0` up to `x`.
def upTo (v : Registers) (x : Register) : List UInt8 :=
  v.bytes.toList.take (x + 1)

-- Bytes go to the registers from `V0` on; the other registers stay.
def overlay (v : Registers) (bytes : List UInt8) : Registers :=
  ⟨Vector.ofFn fun x => bytes[x.val]?.getD (v.get x)⟩

theorem get_eq (v : Registers) (x : Register) : v.get x = v.bytes[x.val] := rfl

theorem get_set (v : Registers) (x y : Register) (byte : UInt8) :
    (v.set x byte).get y = if x = y then byte else v.get y := by
  by_cases h : x = y
  case pos =>
    subst h
    simp [set, get_eq]
  case neg =>
    have hv : x.val ≠ y.val := fun e => h (Fin.ext e)
    simp [set, get_eq, h, hv]

theorem get_set_self (v : Registers) (x : Register) (byte : UInt8) : (v.set x byte).get x = byte := by
  rw [get_set, if_pos rfl]

theorem get_set_of_ne {x y : Register} (h : x ≠ y) (v : Registers) (byte : UInt8) :
    (v.set x byte).get y = v.get y := by
  rw [get_set, if_neg h]

theorem get_set_or (v : Registers) (x y : Register) (byte : UInt8) :
    (v.set x byte).get y = v.get y ∨ y = x := by
  by_cases h : x = y
  case pos => exact .inr h.symm
  case neg => exact .inl (get_set_of_ne h v byte)

@[simp]
theorem length_upTo (v : Registers) (x : Register) : (v.upTo x).length = x + 1 := by
  rw [upTo, List.length_take, Vector.length_toList]
  omega

theorem getElem?_upTo (v : Registers) (x y : Register) (h : y ≤ x) :
    (v.upTo x)[y.val]? = some (v.get y) := by
  have hy : y.val < x.val + 1 := Nat.lt_succ_of_le h
  simp [upTo, get_eq, hy]

@[simp]
theorem get_overlay (v : Registers) (bytes : List UInt8) (x : Register) :
    (v.overlay bytes).get x = bytes[x.val]?.getD (v.get x) := by
  simp [overlay, get_eq]

end Registers
end Chip8
