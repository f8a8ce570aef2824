import Chip8.Random.ChaCha

-- A seekable stream of random bytes: a key fixes the whole stream, a generator is a position in it.

namespace Chip8

structure Key where
  words : Vector UInt32 8
deriving DecidableEq

namespace Key

-- One step of the congruential sequence that spreads a seed over a key.
def advance (s : UInt64) : UInt64 :=
  s * 6364136223846793005 + 11634580027462260723

-- The word of a step: the upper bits, folded and rotated by the topmost five.
def scramble (s : UInt64) : UInt32 :=
  let x := (((s >>> 18) ^^^ s) >>> 27).toUInt32
  let r := (s >>> 59).toUInt32
  (x >>> r) ||| (x <<< (32 - r))

def iterate (s : UInt64) : Nat → UInt64
  | 0 => s
  | n + 1 => advance (iterate s n)

def ofSeed (seed : UInt64) : Key :=
  ⟨Vector.ofFn fun i => scramble (iterate seed (i + 1))⟩

-- Byte `n` of the stream is the low byte of word `n`; a block holds 16 words.
def byteAt (k : Key) (n : Nat) : UInt8 :=
  (ChaCha.word (ChaCha.block k.words (.ofNat (n / 16))) (n % 16)).toUInt8

end Key

@[ext]
structure Generator where
  key : Key
  position : Nat
deriving DecidableEq

namespace Generator

def ofKey (key : Key) : Generator := ⟨key, 0⟩

-- The byte that the next draw yields.
def byte (g : Generator) : UInt8 :=
  g.key.byteAt g.position

def next (g : Generator) : Generator :=
  { g with position := g.position + 1 }

end Generator
end Chip8
