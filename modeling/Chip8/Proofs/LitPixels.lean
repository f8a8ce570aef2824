import Mathlib.Algebra.BigOperators.Fin
import Mathlib.Data.Fintype.BigOperators
import Chip8.Proofs.Sprites

-- What drawing does to the number of lit pixels. A toggle lights a pixel or switches one off, so the bits of a
-- sprite are accounted for: each is a pixel more, or a pixel less for one that was met lit.

namespace Chip8
namespace Display

-- How many bits of a sprite are set.
def setBits (sprite : List UInt8) : Nat :=
  (sprite.map fun row => (List.range 8).countP row.toNat.testBit).sum

-- How many of the toggles switch a pixel off.
def erasures (d : Display) : List Cell → Nat
  | [] => 0
  | c :: cs => (d.isLit c).toNat + erasures (d.toggle c) cs

variable {d : Display} {hit : Bool} {c : Cell} {cs : List Cell} {x y : Nat} {sprite : List UInt8}

theorem lit_toggle (d : Display) (c : Cell) : (d.toggle c).lit + 2 * (d.isLit c).toNat = d.lit + 1 := by
  have hc : c.val < d.pixels.toList.length := by simp
  have he : d.pixels.toList[c.val] = d.isLit c := by simp [isLit_eq]
  have hn : d.isLit c = true → 0 < d.pixels.toList.count true := fun h =>
    List.count_pos_iff.mpr (h ▸ he ▸ List.getElem_mem hc)
  rw [lit, lit, toggle, Vector.toList_set, List.count_set hc, he]
  generalize d.pixels.toList.count true = n at hn
  cases hl : d.isLit c
  case false => simp
  case true =>
    have := hn hl
    simp
    omega

-- Each toggle is a pixel more, but for an erasure, which is a pixel less.
theorem lit_toggleAll : (d.toggleAll hit cs).1.lit + 2 * d.erasures cs = d.lit + cs.length := by
  induction cs generalizing d hit
  case nil => rfl
  case cons c cs ih =>
    have hc := d.lit_toggle c
    have hcs := @ih (d.toggle c) (hit || d.isLit c)
    rw [toggleAll_cons, erasures, List.length_cons]
    omega

theorem toggleAll_hit_eq : (d.toggleAll hit cs).2 = (hit || decide (0 < d.erasures cs)) := by
  induction cs generalizing d hit
  case nil => simp [toggleAll, erasures]
  case cons c cs ih =>
    rw [toggleAll_cons, ih, erasures, Bool.or_assoc]
    cases d.isLit c
    case false => simp
    case true => simp [Nat.add_comm 1]

theorem length_rowCells (row : UInt8) :
    (rowCells x y row).length = (List.range 8).countP row.toNat.testBit := by
  have hr : List.range 8 = (List.range 8).reverse.map (7 - ·) := rfl
  rw [rowCells, List.length_map, ← List.countP_eq_length_filter, ← List.countP_reverse, hr,
    List.countP_map]
  rfl

theorem length_spriteCells : (spriteCells x y sprite).length = setBits sprite := by
  induction sprite generalizing y with
  | nil => rfl
  | cons row rows ih =>
    rw [spriteCells, List.length_append, length_rowCells, ih]
    rfl

-- How many lit pixels a sprite with its corner at `(x, y)` switches off.
def losses (d : Display) (x y : UInt8) (sprite : List UInt8) : Nat :=
  d.erasures (spriteCells x.toNat y.toNat sprite)

theorem lit_draw (d : Display) (x y : UInt8) (sprite : List UInt8) :
    (d.draw x y sprite).1.lit + 2 * d.losses x y sprite = d.lit + setBits sprite := by
  rw [draw, losses, lit_toggleAll, length_spriteCells]

theorem draw_hit_eq (d : Display) (x y : UInt8) (sprite : List UInt8) :
    (d.draw x y sprite).2 = decide (0 < d.losses x y sprite) := by
  rw [draw, losses, toggleAll_hit_eq, Bool.false_or]

theorem lit_eq_card_cells (d : Display) : d.lit = (Finset.univ.filter fun c => d.isLit c = true).card := by
  have hp : d.pixels.toList = (List.finRange 2048).map d.isLit := by
    refine List.ext_getElem (by simp) fun k _ _ => ?_
    simp [isLit_eq]
  have hf : (Finset.univ.filter fun c => d.isLit c = true).card =
      (List.finRange 2048).countP fun c => d.isLit c = true :=
    List.countP_eq_length_filter.symm
  rw [lit, hp, List.count_eq_countP, List.countP_map, hf]
  refine List.countP_congr fun c _ => ?_
  simp

-- Columns and rows name each cell once.
theorem cell_bijective : Function.Bijective fun p : Fin 64 × Fin 32 => cell p.1 p.2 := by
  refine ⟨?_, ?_⟩
  case refine_1 =>
    intro p q h
    have ⟨hx, hy⟩ := cell_eq_cell_iff.mp h
    refine Prod.ext (Fin.ext ?_) (Fin.ext ?_)
    case refine_1 => exact (Nat.mod_eq_of_lt p.1.isLt).symm.trans hx
    case refine_2 => exact (Nat.mod_eq_of_lt p.2.isLt).symm.trans hy
  case refine_2 =>
    intro c
    obtain ⟨px, py, hc⟩ := exists_cell c
    exact ⟨(px, py), hc⟩

theorem lit_eq_card (d : Display) :
    d.lit = (Finset.univ.filter fun p : Fin 64 × Fin 32 => d.pixel p.1 p.2 = true).card := by
  rw [lit_eq_card_cells, Finset.card_filter, Finset.card_filter]
  exact (cell_bijective.sum_comp fun c => if d.isLit c = true then 1 else 0).symm

-- The lit pixels are counted by their columns and rows. A sprite adds a pixel for each of its set bits exactly
-- if it meets none that is lit; at any rate it adds no more, and it falls short by an even number.
theorem lit_pixels_accounted_for :
    (∀ d : Display,
      d.lit = (Finset.univ.filter fun p : Fin 64 × Fin 32 => d.pixel p.1 p.2 = true).card) ∧
    ∀ (d : Display) (x y : UInt8) (sprite : List UInt8),
      let drawn := d.draw x y sprite
      let p := setBits sprite
      (drawn.2 = false ↔ drawn.1.lit = d.lit + p) ∧
      drawn.1.lit ≤ d.lit + p ∧
      drawn.1.lit % 2 = (d.lit + p) % 2 := by
  refine ⟨lit_eq_card, ?_⟩
  intro d x y sprite drawn p
  have hl : drawn.1.lit + 2 * d.losses x y sprite = d.lit + p := d.lit_draw x y sprite
  have hh : drawn.2 = decide (0 < d.losses x y sprite) := d.draw_hit_eq x y sprite
  rw [hh, decide_eq_false_iff_not]
  omega

end Display
end Chip8
