import Mathlib.Algebra.BigOperators.Fin
import Mathlib.Data.Fintype.BigOperators
import Chip8.Proofs.Cycle
import Chip8.Proofs.Encoding
import Chip8.Proofs.Execution

-- What is left of a sprite once it is drawn, told without the order in which its pixels are toggled: a
-- pixel depends on nothing but how often the sprite hits it. A long sprite wraps around onto itself and
-- hits pixels more than once.

namespace Chip8
namespace Display

-- How many pairs of a row and a column of a sprite have their bit set and fall on the pixel in column `px`
-- and row `py`, where the sprite has its corner at `(x, y)`.
def hits (x y : Nat) (sprite : List UInt8) (px : Fin 64) (py : Fin 32) : Nat :=
  (Finset.univ.filter fun p : Fin sprite.length × Fin 8 =>
    (sprite.get p.1).toNat.testBit (7 - p.2) = true ∧
      (x + p.2) % width = px ∧ (y + p.1) % height = py).card

-- A pixel that the sprite hits is lit already, or the sprite hits it again.
def Collides (d : Display) (x y : Nat) (sprite : List UInt8) : Prop :=
  ∃ px py, 1 ≤ hits x y sprite px py ∧ d.pixel px py = true ∨ 2 ≤ hits x y sprite px py

-- The share of a single row.
def rowHits (x y : Nat) (row : UInt8) (px : Fin 64) (py : Fin 32) : Nat :=
  (Finset.univ.filter fun c : Fin 8 =>
    row.toNat.testBit (7 - c) = true ∧ (x + c) % width = px ∧ y % height = py).card

variable {d : Display} {hit : Bool} {c c' : Cell} {cs : List Cell} {x y : Nat} {sprite : List UInt8}
  {px : Fin 64} {py : Fin 32}

theorem cell_eq_cell_iff : cell x y = cell px py ↔ x % width = px ∧ y % height = py := by
  have := px.isLt
  have := py.isLt
  simp only [cell, Fin.mk.injEq, width, height]
  omega

theorem exists_cell (c : Cell) : ∃ (px : Fin 64) (py : Fin 32), cell px py = c := by
  have hc := c.isLt
  refine ⟨⟨c.val % 64, by omega⟩, ⟨c.val / 64, by omega⟩, Fin.ext ?_⟩
  simp only [cell]
  omega

theorem hits_cons (row : UInt8) (rows : List UInt8) :
    hits x y (row :: rows) px py = rowHits x y row px py + hits x (y + 1) rows px py := by
  simp only [hits, rowHits, Finset.card_filter, Fintype.sum_prod_type]
  refine (Fin.sum_univ_succ (n := rows.length) _).trans (congrArg _ ?_)
  simp only [List.get_cons_succ', Fin.val_succ, Nat.add_right_comm y 1, Nat.add_assoc y]

theorem count_rowCells (row : UInt8) :
    (rowCells x y row).count (cell px py) = rowHits x y row px py := by
  have hr : rowHits x y row px py = (List.finRange 8).countP fun c : Fin 8 =>
      row.toNat.testBit (7 - c) = true ∧ (x + c) % width = px ∧ y % height = py :=
    List.countP_eq_length_filter.symm
  rw [hr, rowCells, List.count_eq_countP, List.countP_map, List.countP_filter,
    ← List.map_coe_finRange_eq_range, List.countP_map]
  refine List.countP_congr fun c _ => ?_
  simp [rowBit, cell_eq_cell_iff, and_comm]

-- The cells that drawing toggles are the hits, one by one.
theorem count_spriteCells : (spriteCells x y sprite).count (cell px py) = hits x y sprite px py := by
  induction sprite generalizing y with
  | nil => rfl
  | cons row rows ih => rw [spriteCells, List.count_append, count_rowCells, ih, hits_cons]

-- One of the toggles of `c` among `cs` switches it off.
def Erases (d : Display) (cs : List Cell) (c : Cell) : Prop :=
  1 ≤ cs.count c ∧ d.isLit c = true ∨ 2 ≤ cs.count c

theorem erases_cons_iff :
    d.Erases (c' :: cs) c ↔ c' = c ∧ d.isLit c' = true ∨ (d.toggle c').Erases cs c := by
  by_cases hc : c' = c
  case pos =>
    subst hc
    simp only [Erases, List.count_cons_self, isLit_toggle, decide_true, Bool.xor_true]
    generalize cs.count c' = n
    cases d.isLit c'
    case false =>
      simp only [Bool.false_eq_true, and_false, false_or, Bool.not_false, and_true]
      omega
    case true => simp
  case neg => simp [Erases, List.count_cons_of_ne hc, hc]

theorem toggleAll_hit_iff : (d.toggleAll hit cs).2 = true ↔ hit = true ∨ ∃ c, d.Erases cs c := by
  induction cs generalizing d hit
  case nil => simp [toggleAll, Erases]
  case cons c' cs ih =>
    rw [toggleAll_cons, ih]
    simp only [erases_cons_iff, exists_or, exists_eq_left', Bool.or_eq_true, or_assoc]

theorem pixel_draw (d : Display) (x y : UInt8) (sprite : List UInt8) (px : Fin 64) (py : Fin 32) :
    (d.draw x y sprite).1.pixel px py =
      (d.pixel px py ^^ decide (hits x.toNat y.toNat sprite px py % 2 = 1)) := by
  rw [draw, pixel, isLit_toggleAll, count_spriteCells, pixel]

theorem draw_hit_iff (d : Display) (x y : UInt8) (sprite : List UInt8) :
    (d.draw x y sprite).2 = true ↔ d.Collides x.toNat y.toNat sprite := by
  rw [draw, toggleAll_hit_iff]
  simp only [Bool.false_eq_true, false_or]
  constructor
  case mp =>
    intro ⟨c, hc⟩
    obtain ⟨px, py, rfl⟩ := exists_cell c
    rw [Erases, count_spriteCells] at hc
    exact ⟨px, py, hc⟩
  case mpr =>
    intro ⟨px, py, hc⟩
    refine ⟨cell px py, ?_⟩
    rw [Erases, count_spriteCells]
    exact hc

end Display

namespace Machine

variable {m : Machine} {op : Opcode}

-- The bytes that lie in memory from `I` on.
def bytesAtIndex (m : Machine) (n : Nat) : List UInt8 :=
  (List.range n).map fun k => m.state.memory.get (m.state.i.toNat + k)

theorem cycle_of_draw (hw : m.state.waiting = none) (hf : m.state.memory.fetch m.state.pc = .ok op)
    (hd : op.family = 0xD) (hi : m.state.i.toNat + op.n ≤ Memory.size) :
    let drawn := m.state.display.draw (m.state.v.get op.x) (m.state.v.get op.y) (m.bytesAtIndex op.n)
    m.cycle.result = .ok (.executed m.state.pc op (.draw op.x op.y op.n)) ∧
      m.cycle.machine.state.display = drawn.1 ∧
      m.cycle.machine.state.v = m.state.v.set .flag (if drawn.2 then 1 else 0) := by
  intro drawn
  have hs : m.state.memory.slice m.state.i.toNat op.n = .ok (m.bytesAtIndex op.n) :=
    Memory.slice_eq_ok_iff.mpr ⟨hi, rfl⟩
  obtain ⟨hm, hr⟩ := cycle_of_execute hw hf (Instruction.decode?_of_encodes (.draw hd))
    (Instruction.execute_draw hs)
  refine ⟨hr, ?_, ?_⟩
  case refine_1 => rw [hm, elapse_display]; rfl
  case refine_2 => rw [hm, elapse_eq]; rfl

-- Drawing a sprite changes the pixels that it hits an odd number of times, and tells whether it met a lit
-- one or hit one twice. An instruction that draws takes the corner from two registers as they are before
-- the flag is written, so that the flag may be one of them.
theorem sprites_toggle_odd_hits :
    (∀ (d : Display) (x y : UInt8) (sprite : List UInt8),
      (∀ (px : Fin 64) (py : Fin 32), (d.draw x y sprite).1.pixel px py =
        (d.pixel px py ^^ decide (Display.hits x.toNat y.toNat sprite px py % 2 = 1))) ∧
      ((d.draw x y sprite).2 = true ↔ d.Collides x.toNat y.toNat sprite)) ∧
    ∀ (m : Machine) (op : Opcode), m.state.waiting = none →
      m.state.memory.fetch m.state.pc = .ok op → op.family = 0xD →
      m.state.i.toNat + op.n ≤ Memory.size →
      let x := (m.state.v.get op.x).toNat
      let y := (m.state.v.get op.y).toNat
      let sprite := m.bytesAtIndex op.n
      let s := m.cycle.machine.state
      m.cycle.result = .ok (.executed m.state.pc op (.draw op.x op.y op.n)) ∧
        (∀ (px : Fin 64) (py : Fin 32), s.display.pixel px py =
          (m.state.display.pixel px py ^^ decide (Display.hits x y sprite px py % 2 = 1))) ∧
        (m.state.display.Collides x y sprite → s.v.get .flag = 1) ∧
        (¬m.state.display.Collides x y sprite → s.v.get .flag = 0) ∧
        ∀ r, r ≠ .flag → s.v.get r = m.state.v.get r := by
  refine ⟨fun d x y sprite => ⟨d.pixel_draw x y sprite, d.draw_hit_iff x y sprite⟩, ?_⟩
  intro m op hw hf hd hi x y sprite s
  obtain ⟨hr, hs, hv⟩ := cycle_of_draw hw hf hd hi
  refine ⟨hr, fun px py => ?_, fun hc => ?_, fun hc => ?_, fun r hn => ?_⟩
  case refine_1 => rw [hs, Display.pixel_draw]
  case refine_2 =>
    rw [hv, Registers.get_set, if_pos rfl, (Display.draw_hit_iff ..).mpr hc]
    rfl
  case refine_3 =>
    rw [hv, Registers.get_set, if_pos rfl, Bool.eq_false_iff.mpr (mt (Display.draw_hit_iff ..).mp hc)]
    rfl
  case refine_4 => rw [hv, Registers.get_set, if_neg (Ne.symm hn)]

-- A sprite of 33 rows comes back to its first row, and an instruction draws across the right edge at the
-- place that the flag register names.
theorem sprites_toggle_odd_hits_around_edges :
    let m := new {} ⟨.replicate 8 0⟩
    let m := { m with state := { m.state with
      memory := m.state.memory.put 0x200 [0xDF, 0xF1, 0xC0]
      i := 0x202
      v := m.state.v.set .flag 63
      display := Display.blank.toggle (Display.cell 0 31) } }
    let s := m.cycle.machine.state
    (∃ d, d = Display.blank.draw 0 0 (.replicate 33 0x80) ∧
      d.1.pixel 0 0 = false ∧ d.1.pixel 0 1 = true ∧ d.2 = true) ∧
    s.display.pixel 63 31 = true ∧ s.display.pixel 0 31 = false ∧ s.v.get .flag = 1 := by
  intro m₀
  obtain ⟨hd, hm⟩ := sprites_toggle_odd_hits
  obtain ⟨memory, hp⟩ : ∃ memory, m₀.state.memory.put 0x200 [0xDF, 0xF1, 0xC0] = memory := ⟨_, rfl⟩
  rw [hp]
  intro m s
  refine ⟨?_, ?_⟩
  case refine_1 =>
    obtain ⟨hd, hc⟩ := hd .blank 0 0 (.replicate 33 0x80)
    refine ⟨_, rfl, (hd 0 0).trans ?_, (hd 0 1).trans ?_, hc.mpr ⟨0, 0, .inr ?_⟩⟩
    all_goals decide +kernel
  case refine_2 =>
    have hf : memory.fetch 0x200 = .ok 0xDFF1 :=
      hp ▸ Memory.fetch_put (by decide) (by decide) rfl rfl rfl
    have hb : m.bytesAtIndex 1 = [0xC0] := by
      have hg : memory.get 0x202 = 0xC0 := hp ▸ Memory.get_put (by decide) _
      exact congrArg (· :: []) hg
    have hl (px : Fin 64) (py : Fin 32) :
        m.state.display.pixel px py = decide (Display.cell 0 31 = Display.cell px py) := by
      simp [m, Display.pixel]
    have hg : m.state.v.get .flag = 63 := (Registers.get_set ..).trans (if_pos rfl)
    have hx : Opcode.x 0xDFF1 = .flag := rfl
    have hy : Opcode.y 0xDFF1 = .flag := rfl
    have hn : (Opcode.n 0xDFF1).val = 1 := rfl
    have hi : 0x202 + 1 ≤ Memory.size := by decide
    obtain ⟨_, hs, hv, _⟩ := hm m 0xDFF1 rfl hf (by decide) hi
    simp only [hx, hy, hn, hg, hl, hb] at hs hv
    refine ⟨(hs 63 31).trans ?_, (hs 0 31).trans ?_, hv ⟨0, 31, .inl ⟨?_, (hl 0 31).trans ?_⟩⟩⟩
    all_goals decide

end Machine
end Chip8
