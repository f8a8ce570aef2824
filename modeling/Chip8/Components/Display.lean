-- The monochrome display of 64 by 32 pixels. A sprite toggles pixels; it meets lit ones exactly where
-- a toggle switches a pixel off.

namespace Chip8

@[ext]
structure Display where
  -- Row by row from the top, each row from the left.
  pixels : Vector Bool 2048
deriving DecidableEq

namespace Display

def width : Nat := 64

def height : Nat := 32

abbrev Cell := Fin 2048

def blank : Display := ⟨Vector.replicate 2048 false⟩

def clear (_ : Display) : Display := blank

-- The cell in column `x` and row `y`, both taken around the edges.
def cell (x y : Nat) : Cell :=
  ⟨(y % 32) * 64 + x % 64, by omega⟩

def isLit (d : Display) (c : Cell) : Bool :=
  d.pixels.get c

def pixel (d : Display) (x y : Nat) : Bool :=
  d.isLit (cell x y)

def toggle (d : Display) (c : Cell) : Display :=
  ⟨d.pixels.set c (!d.isLit c) c.isLt⟩

-- Toggles cells one after the other. The flag, `hit` to begin with, comes out set if one of them
-- was lit when its turn came.
def toggleAll (d : Display) (hit : Bool) : List Cell → Display × Bool
  | [] => (d, hit)
  | c :: cs => if d.isLit c then toggleAll (d.toggle c) true cs else toggleAll (d.toggle c) hit cs

-- Whether column `c` of a sprite's row is set; column 0 is the most significant bit.
def rowBit (row : UInt8) (c : Nat) : Bool :=
  row.toNat.testBit (7 - c)

-- The cells that one row of a sprite toggles.
def rowCells (x y : Nat) (row : UInt8) : List Cell :=
  ((List.range 8).filter (rowBit row)).map fun c => cell (x + c) y

-- The cells that a sprite with its corner at `(x, y)` toggles, one entry for each set bit.
def spriteCells (x y : Nat) : List UInt8 → List Cell
  | [] => []
  | row :: rows => rowCells x y row ++ spriteCells x (y + 1) rows

-- Draws a sprite; the flag tells whether it switched a lit pixel off.
def draw (d : Display) (x y : UInt8) (sprite : List UInt8) : Display × Bool :=
  d.toggleAll false (spriteCells x.toNat y.toNat sprite)

-- The number of lit pixels.
def lit (d : Display) : Nat :=
  d.pixels.toList.count true

theorem isLit_eq (d : Display) (c : Cell) : d.isLit c = d.pixels[c.val] := rfl

@[simp]
theorem isLit_blank (c : Cell) : blank.isLit c = false := by
  simp [blank, isLit_eq]

@[simp]
theorem isLit_toggle (d : Display) (c c' : Cell) :
    (d.toggle c).isLit c' = (d.isLit c' ^^ decide (c = c')) := by
  by_cases h : c = c'
  · subst h
    simp [toggle, isLit_eq]
  · have : c.val ≠ c'.val := fun e => h (Fin.ext e)
    simp [toggle, isLit_eq, h, this]

theorem ext_isLit {d₁ d₂ : Display} (h : ∀ c, d₁.isLit c = d₂.isLit c) : d₁ = d₂ := by
  ext i hi
  exact h ⟨i, hi⟩

theorem toggleAll_cons (d : Display) (hit : Bool) (c : Cell) (cs : List Cell) :
    d.toggleAll hit (c :: cs) = (d.toggle c).toggleAll (hit || d.isLit c) cs := by
  rw [toggleAll]
  cases d.isLit c <;> simp

theorem toggleAll_append (d : Display) (hit : Bool) (cs₁ cs₂ : List Cell) :
    d.toggleAll hit (cs₁ ++ cs₂) =
      (d.toggleAll hit cs₁).1.toggleAll (d.toggleAll hit cs₁).2 cs₂ := by
  induction cs₁ generalizing d hit with
  | nil => rfl
  | cons c cs ih => simp only [List.cons_append, toggleAll_cons, ih]

-- A pixel changes exactly if it is toggled an odd number of times.
theorem isLit_toggleAll (d : Display) (hit : Bool) (cs : List Cell) (c : Cell) :
    (d.toggleAll hit cs).1.isLit c = (d.isLit c ^^ decide (cs.count c % 2 = 1)) := by
  induction cs generalizing d hit with
  | nil => simp [toggleAll]
  | cons c' cs ih =>
    rw [toggleAll_cons, ih, isLit_toggle, Bool.xor_assoc]
    congr 1
    by_cases h : c' = c
    case pos =>
      subst h
      rw [List.count_cons_self]
      by_cases ho : cs.count c' % 2 = 1
      case pos => have : ¬ (cs.count c' + 1) % 2 = 1 := by omega
                  simp [ho, this]
      case neg => have : (cs.count c' + 1) % 2 = 1 := by omega
                  simp [ho, this]
    case neg =>
      rw [List.count_cons_of_ne h]
      simp [h]

end Display
end Chip8
