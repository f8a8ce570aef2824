-- The ChaCha block function with 12 rounds and a block counter of 64 bits, which is the source of
-- random words.

namespace Chip8
namespace ChaCha

abbrev Block := Vector UInt32 16

def rotateLeft (x n : UInt32) : UInt32 :=
  (x <<< n) ||| (x >>> (32 - n))

def word (b : Block) (i : Nat) : UInt32 :=
  b[i]?.getD 0

def quarterRound (b : Block) (i j k l : Nat) : Block :=
  let x₀ := word b i + word b j
  let w₀ := rotateLeft (word b l ^^^ x₀) 16
  let z₀ := word b k + w₀
  let y₀ := rotateLeft (word b j ^^^ z₀) 12
  let x₁ := x₀ + y₀
  let w₁ := rotateLeft (w₀ ^^^ x₁) 8
  let z₁ := z₀ + w₁
  let y₁ := rotateLeft (y₀ ^^^ z₁) 7
  (((b.setIfInBounds i x₁).setIfInBounds j y₁).setIfInBounds k z₁).setIfInBounds l w₁

def columnRound (b : Block) : Block :=
  let b := quarterRound b 0 4 8 12
  let b := quarterRound b 1 5 9 13
  let b := quarterRound b 2 6 10 14
  quarterRound b 3 7 11 15

def diagonalRound (b : Block) : Block :=
  let b := quarterRound b 0 5 10 15
  let b := quarterRound b 1 6 11 12
  let b := quarterRound b 2 7 8 13
  quarterRound b 3 4 9 14

def doubleRound (b : Block) : Block :=
  diagonalRound (columnRound b)

def doubleRounds : Nat → Block → Block
  | 0, b => b
  | n + 1, b => doubleRounds n (doubleRound b)

-- The constants `expand 32-byte k`, the key, the counter with its low word first, and zeros.
def start (key : Vector UInt32 8) (counter : UInt64) : Block := #v[
  0x61707865, 0x3320646e, 0x79622d32, 0x6b206574,
  key[0], key[1], key[2], key[3],
  key[4], key[5], key[6], key[7],
  counter.toUInt32, (counter >>> 32).toUInt32, 0, 0]

def block (key : Vector UInt32 8) (counter : UInt64) : Block :=
  let b := start key counter
  b.zipWith (· + ·) (doubleRounds 6 b)

end ChaCha
end Chip8
