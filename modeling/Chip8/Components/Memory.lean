import Chip8.Fault
import Chip8.Components.Font

-- Flat memory of 4096 bytes. Addresses and lengths are natural numbers, so that `address + length`
-- never wraps; an access is granted exactly if the whole of its range lies inside.

namespace Chip8

@[ext]
structure Memory where
  bytes : Vector UInt8 4096
deriving DecidableEq

namespace Memory

def size : Nat := 4096

-- Addresses just outside still fit in a word.
theorem lt_of_le_size {a : Nat} (h : a ≤ size) : a < UInt16.size :=
  Nat.lt_of_le_of_lt h (by decide)

def programStart : Nat := 0x200

-- The longest program that fits behind `programStart`.
def programLimit : Nat := size - programStart

-- The byte at `a`, and 0 outside.
def get (m : Memory) (a : Nat) : UInt8 :=
  m.bytes[a]?.getD 0

-- Bytes laid down from `a` on; those that fall outside are lost.
def put (m : Memory) (a : Nat) : List UInt8 → Memory
  | [] => m
  | b :: bs => put ⟨m.bytes.setIfInBounds a b⟩ (a + 1) bs

theorem ext_get {m₁ m₂ : Memory} (h : ∀ a, m₁.get a = m₂.get a) : m₁ = m₂ :=
  Memory.ext (Vector.ext fun i hi => by simpa [get, hi] using h i)

@[simp]
theorem put_nil (m : Memory) (a : Nat) : m.put a [] = m := rfl

theorem get_put {m : Memory} {a : Nat} {bs : List UInt8} (h : a + bs.length ≤ size) (k : Nat) :
    (m.put a bs).get k = if a ≤ k ∧ k < a + bs.length then bs[k - a]?.getD 0 else m.get k := by
  induction bs generalizing m a with
  | nil =>
    have : ¬ (a ≤ k ∧ k < a + 0) := by omega
    simp only [put, List.length_nil, if_neg this]
  | cons b bs ih =>
    simp only [List.length_cons, size] at h
    rw [put, ih (by simp only [size]; omega), List.length_cons]
    by_cases hk : k = a
    · subst hk
      have h₁ : ¬ (k + 1 ≤ k ∧ k < k + 1 + bs.length) := by omega
      have h₂ : k ≤ k ∧ k < k + (bs.length + 1) := by omega
      have h₃ : k < 4096 := by omega
      rw [if_neg h₁, if_pos h₂]
      simp [get, h₃]
    · have hs : (⟨m.bytes.setIfInBounds a b⟩ : Memory).get k = m.get k := by
        simp [get, Ne.symm hk]
      rw [hs]
      by_cases hi : a + 1 ≤ k ∧ k < a + 1 + bs.length
      · have h₂ : a ≤ k ∧ k < a + (bs.length + 1) := by omega
        have h₃ : k - a = (k - (a + 1)) + 1 := by omega
        rw [if_pos hi, if_pos h₂, h₃, List.getElem?_cons_succ]
      · have h₂ : ¬ (a ≤ k ∧ k < a + (bs.length + 1)) := by omega
        rw [if_neg hi, if_neg h₂]

-- Zeros, with the font in its place.
def initial : Memory :=
  put ⟨Vector.replicate 4096 0⟩ Font.start Font.glyphs

-- What a refused access reports: where the range first leaves memory, or its start if that is
-- already outside.
def outside (address : Nat) : Fault :=
  .outOfBounds (max address size)

-- `length` bytes from `address` on.
def slice (m : Memory) (address length : Nat) : Except Fault (List UInt8) :=
  if address + length ≤ size then
    .ok ((List.range length).map fun k => m.get (address + k))
  else
    .error (outside address)

-- Writes all of the bytes from `address` on, or none.
def write (m : Memory) (address : Nat) (bytes : List UInt8) : Except Fault Memory :=
  if address + bytes.length ≤ size then
    .ok (m.put address bytes)
  else
    .error (outside address)

def read (m : Memory) (address : Nat) : Except Fault UInt8 :=
  if address + 1 ≤ size then .ok (m.get address) else .error (outside address)

-- The word at `address`, high byte first.
def fetch (m : Memory) (address : UInt16) : Except Fault UInt16 :=
  if address.toNat + 2 ≤ size then
    .ok (.ofNat (256 * (m.get address.toNat).toNat + (m.get (address.toNat + 1)).toNat))
  else
    .error (outside address.toNat)

-- A program replaces the bytes that it covers and no others.
def load (m : Memory) (program : List UInt8) : Except Fault Memory :=
  if program.length ≤ programLimit then
    .ok (m.put programStart program)
  else
    .error (.programTooLarge program.length programLimit)

theorem slice_eq_ok_iff {m : Memory} {a n : Nat} {bs : List UInt8} :
    m.slice a n = .ok bs ↔ a + n ≤ size ∧ bs = (List.range n).map fun k => m.get (a + k) :=
  Fault.ite_eq_ok_iff

theorem slice_eq_error_iff {m : Memory} {a n : Nat} {f : Fault} :
    m.slice a n = .error f ↔ size < a + n ∧ f = outside a := by
  rw [← Nat.not_le]
  exact Fault.ite_eq_error_iff

theorem write_eq_ok_iff {m m' : Memory} {a : Nat} {bs : List UInt8} :
    m.write a bs = .ok m' ↔ a + bs.length ≤ size ∧ m' = m.put a bs :=
  Fault.ite_eq_ok_iff

theorem write_eq_error_iff {m : Memory} {a : Nat} {bs : List UInt8} {f : Fault} :
    m.write a bs = .error f ↔ size < a + bs.length ∧ f = outside a := by
  rw [← Nat.not_le]
  exact Fault.ite_eq_error_iff

theorem fetch_eq_ok_iff {m : Memory} {a : UInt16} {op : UInt16} :
    m.fetch a = .ok op ↔ a.toNat + 2 ≤ size ∧
      op = .ofNat (256 * (m.get a.toNat).toNat + (m.get (a.toNat + 1)).toNat) :=
  Fault.ite_eq_ok_iff

-- A word that lies within bytes just laid down is read off them.
theorem fetch_put {m : Memory} {a : Nat} {bs : List UInt8} {k op : UInt16} {hi lo : UInt8}
    (h : a + bs.length ≤ size) (hk : a ≤ k.toNat) (hh : bs[k.toNat - a]? = some hi)
    (hl : bs[k.toNat - a + 1]? = some lo) (ho : op = .ofNat (256 * hi.toNat + lo.toNat)) :
    (m.put a bs).fetch k = .ok op := by
  have ⟨_, _⟩ := List.getElem?_eq_some_iff.mp hl
  have h₁ : a ≤ k.toNat ∧ k.toNat < a + bs.length := by omega
  have h₂ : a ≤ k.toNat + 1 ∧ k.toNat + 1 < a + bs.length := by omega
  have hs : k.toNat + 1 - a = k.toNat - a + 1 := by omega
  refine fetch_eq_ok_iff.mpr ⟨by omega, ho.trans ?_⟩
  rw [get_put h, get_put h, if_pos h₁, if_pos h₂, hs, hh, hl]
  rfl

theorem fetch_eq_error_iff {m : Memory} {a : UInt16} {f : Fault} :
    m.fetch a = .error f ↔ size < a.toNat + 2 ∧ f = outside a.toNat := by
  rw [← Nat.not_le]
  exact Fault.ite_eq_error_iff

end Memory
end Chip8
