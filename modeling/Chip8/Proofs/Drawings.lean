import Chip8.Proofs.LitPixels
import Chip8.Proofs.MemoryUse

-- What is left of several drawings. A drawing flips the pixels that its sprite hits an odd number of times,
-- whatever they were, so drawings can change places and two that hit alike cancel. The flags are another
-- matter: they tell what a drawing met when its turn came.

namespace Chip8

-- A sprite with the place of its corner.
structure Drawing where
  x : UInt8
  y : UInt8
  sprite : List UInt8
deriving DecidableEq, Repr

-- The cells that a drawing toggles.
def Drawing.cells (p : Drawing) : List Display.Cell :=
  Display.spriteCells p.x.toNat p.y.toNat p.sprite

namespace Display

-- The display after drawings, one after the other.
def drawAll (d : Display) : List Drawing → Display
  | [] => d
  | p :: ps => drawAll (d.draw p.x p.y p.sprite).1 ps

variable {d : Display} {hit hit₁ hit₂ : Bool} {cs cs₁ cs₂ : List Cell} {x x₁ x₂ y y₁ y₂ : Nat}
  {sprite sprite₁ sprite₂ : List UInt8} {p q : Drawing} {ps qs : List Drawing}

-- Of the toggles of a cell only the parity of their number matters.
theorem toggleAll_congr (h : ∀ c, cs₁.count c % 2 = cs₂.count c % 2) :
    (d.toggleAll hit₁ cs₁).1 = (d.toggleAll hit₂ cs₂).1 :=
  ext_isLit fun c => by rw [isLit_toggleAll, isLit_toggleAll, h c]

-- The flag to begin with has no part in what is drawn.
theorem toggleAll_eq : d.toggleAll hit cs = ((d.toggleAll false cs).1, hit || (d.toggleAll false cs).2) := by
  refine Prod.ext (toggleAll_congr fun _ => rfl) ?_
  simp only [toggleAll_hit_eq, Bool.false_or]

theorem drawAll_eq : d.drawAll ps = (d.toggleAll false (ps.flatMap Drawing.cells)).1 := by
  induction ps generalizing d with
  | nil => rfl
  | cons p ps ih =>
    rw [drawAll, ih, List.flatMap_cons, toggleAll_append]
    exact toggleAll_congr fun _ => rfl

theorem drawAll_perm (h : ps.Perm qs) : d.drawAll ps = d.drawAll qs := by
  rw [drawAll_eq, drawAll_eq]
  refine toggleAll_congr fun c => ?_
  rw [(h.flatMap_right Drawing.cells).count_eq]

-- Two drawings that toggle the same cells can both be left out.
theorem drawAll_cancel (ps₁ ps₂ ps₃ : List Drawing) (h : q.cells = p.cells) :
    d.drawAll (ps₁ ++ p :: ps₂ ++ q :: ps₃) = d.drawAll (ps₁ ++ ps₂ ++ ps₃) := by
  rw [drawAll_eq, drawAll_eq]
  refine toggleAll_congr fun c => ?_
  simp only [List.flatMap_append, List.flatMap_cons, List.count_append, h]
  omega

theorem draw_draw_self (d : Display) (x y : UInt8) (sprite : List UInt8) :
    ((d.draw x y sprite).1.draw x y sprite).1 = d :=
  drawAll_cancel (p := ⟨x, y, sprite⟩) [] [] [] rfl

-- A sprite that is not empty cannot pass twice without meeting itself: it would leave pixels behind.
theorem draw_draw_hit (d : Display) (x y : UInt8) (hs : 0 < setBits sprite) :
    (d.draw x y sprite).2 = true ∨ ((d.draw x y sprite).1.draw x y sprite).2 = true := by
  have h₁ := d.lit_draw x y sprite
  have h₂ := (d.draw x y sprite).1.lit_draw x y sprite
  rw [draw_draw_self] at h₂
  rw [draw_hit_eq, draw_hit_eq, decide_eq_true_iff, decide_eq_true_iff]
  omega

theorem rowCells_congr (hx : x₁ % 64 = x₂ % 64) (hy : y₁ % 32 = y₂ % 32) (row : UInt8) :
    rowCells x₁ y₁ row = rowCells x₂ y₂ row := by
  refine List.map_congr_left fun c _ => Fin.ext ?_
  simp only [cell]
  omega

-- Corners that are the same around the edges of the display are the same to a sprite.
theorem spriteCells_congr (hx : x₁ % 64 = x₂ % 64) (hy : y₁ % 32 = y₂ % 32) :
    spriteCells x₁ y₁ sprite = spriteCells x₂ y₂ sprite := by
  induction sprite generalizing y₁ y₂ with
  | nil => rfl
  | cons row rows ih =>
    have hr : (y₁ + 1) % 32 = (y₂ + 1) % 32 := by omega
    rw [spriteCells, spriteCells, rowCells_congr hx hy, ih hr]

theorem spriteCells_append : spriteCells x y (sprite₁ ++ sprite₂) =
    spriteCells x y sprite₁ ++ spriteCells x (y + sprite₁.length) sprite₂ := by
  induction sprite₁ generalizing y with
  | nil => rfl
  | cons row rows ih =>
    have hl : y + (rows.length + 1) = y + 1 + rows.length := by omega
    rw [List.cons_append, spriteCells, spriteCells, ih, List.append_assoc, List.length_cons, hl]

-- A sprite can be cut between two of its rows.
theorem draw_append (d : Display) (x y : UInt8) (sprite₁ sprite₂ : List UInt8) :
    let upper := d.draw x y sprite₁
    let lower := upper.1.draw x (.ofNat ((y.toNat + sprite₁.length) % 32)) sprite₂
    d.draw x y (sprite₁ ++ sprite₂) = (lower.1, upper.2 || lower.2) := by
  have hy : (y.toNat + sprite₁.length) % 32 =
      (UInt8.ofNat ((y.toNat + sprite₁.length) % 32)).toNat % 32 := by
    rw [UInt8.toNat_ofNat']
    omega
  simp only [draw]
  rw [spriteCells_append, toggleAll_append, spriteCells_congr rfl hy, toggleAll_eq]

end Display

namespace Machine

variable {m : Machine} {x y : Register} {n : Fin 16} {op : Opcode}

-- An instruction that draws finds all of its sprite in memory.
theorem display_of_draw (h : m.executed? = some (.draw x y n)) :
    let drawn := m.state.display.draw (m.state.v.get x) (m.state.v.get y) (m.bytesAtIndex n)
    m.cycle.machine.state.display = drawn.1 ∧
      m.cycle.machine.state.v = m.state.v.set .flag (if drawn.2 then 1 else 0) := by
  intro drawn
  obtain ⟨_, s, _, _, _, hs, hm⟩ := of_executed? h
  obtain ⟨_, hb, rfl⟩ := Fault.bind_ok_eq_ok_iff.mp hs
  obtain ⟨_, rfl⟩ := Memory.slice_eq_ok_iff.mp hb
  rw [hm, elapse_eq]
  exact ⟨rfl, rfl⟩

-- The same drawing made again takes the first one back, wherever the machine was in between.
theorem draw_takes_back {m' : Machine} (h : m.executed? = some (.draw x y n))
    (h' : m'.executed? = some (.draw x y n)) (hb : m'.bytesAtIndex n = m.bytesAtIndex n)
    (hx : m'.state.v.get x = m.state.v.get x) (hy : m'.state.v.get y = m.state.v.get y)
    (hd : m'.state.display = m.cycle.machine.state.display) :
    m'.cycle.machine.state.display = m.state.display ∧
      (0 < Display.setBits (m.bytesAtIndex n) →
        m.cycle.machine.state.v.get .flag = 1 ∨ m'.cycle.machine.state.v.get .flag = 1) := by
  obtain ⟨hd₁, hv₁⟩ := display_of_draw h
  obtain ⟨hd₂, hv₂⟩ := display_of_draw h'
  rw [hb, hx, hy, hd, hd₁] at hd₂ hv₂
  refine ⟨hd₂.trans (Display.draw_draw_self ..), fun hs => ?_⟩
  rw [hv₁, hv₂, Registers.get_set_self, Registers.get_set_self]
  have hh := m.state.display.draw_draw_hit (m.state.v.get x) (m.state.v.get y) hs
  exact hh.imp (if_pos ·) (if_pos ·)

theorem executed?_draw (hw : m.state.waiting = none) (hf : m.state.memory.fetch m.state.pc = .ok op)
    (hd : Instruction.decode? op = some (.draw x y n)) (hi : m.state.i.toNat + n ≤ Memory.size) :
    m.executed? = some (.draw x y n) := by
  have hs := Memory.slice_eq_ok_iff (m := m.state.memory).mpr ⟨hi, rfl⟩
  exact (Cycle.execute hw hf hd (Instruction.execute_draw hs)).executed?_eq

-- Where the word behind is the same, so is the instruction, unless its corner is in the flag register.
theorem executed?_draw_again (hw : m.state.waiting = none)
    (hf : m.state.memory.fetch m.state.pc = .ok op)
    (hf' : m.state.memory.fetch (m.state.pc + 2) = .ok op) (hd : op.family = 0xD)
    (hi : m.state.i.toNat + op.n ≤ Memory.size) (hx : op.x ≠ .flag) (hy : op.y ≠ .flag) :
    let m' := m.cycle.machine
    m.executed? = some (.draw op.x op.y op.n) ∧ m'.executed? = some (.draw op.x op.y op.n) ∧
      m'.bytesAtIndex op.n = m.bytesAtIndex op.n ∧
      m'.state.v.get op.x = m.state.v.get op.x ∧ m'.state.v.get op.y = m.state.v.get op.y := by
  intro m'
  have hd := Instruction.decode?_of_encodes (.draw hd)
  have hs : m.state.memory.slice m.state.i.toNat op.n = .ok (m.bytesAtIndex op.n) :=
    Memory.slice_eq_ok_iff.mpr ⟨hi, rfl⟩
  obtain ⟨hm, _⟩ := cycle_of_execute hw hf hd (Instruction.execute_draw hs)
  have hm' : m' = _ := hm.trans (elapse_eq _)
  rw [hm']
  refine ⟨executed?_draw hw hf hd hi, executed?_draw hw hf' hd hi, rfl, ?_, ?_⟩
  case refine_1 => exact Registers.get_set_of_ne hx.symm ..
  case refine_2 => exact Registers.get_set_of_ne hy.symm ..

end Machine

namespace Session

-- Drawings can be made in any order, two of the same sprite in the same place of the display cancel, and a
-- sprite can be drawn in two pieces, whose flags together are its flag. So an instruction that draws is taken
-- back if it is executed again with the same bytes and the same corner before anything else is drawn, and a
-- sprite with a set bit shows in one of the two flags. Right behind itself an instruction finds everything as
-- it was, unless its corner is in the flag register.
theorem drawings_commute_and_cancel :
    (∀ (d : Display) (ps qs : List Drawing), ps.Perm qs → d.drawAll ps = d.drawAll qs) ∧
    (∀ (d : Display) (ps₁ ps₂ ps₃ : List Drawing) (p q : Drawing), q.sprite = p.sprite →
      q.x.toNat % Display.width = p.x.toNat % Display.width →
      q.y.toNat % Display.height = p.y.toNat % Display.height →
      d.drawAll (ps₁ ++ p :: ps₂ ++ q :: ps₃) = d.drawAll (ps₁ ++ ps₂ ++ ps₃)) ∧
    (∀ (d : Display) (x y : UInt8) (sprite₁ sprite₂ : List UInt8),
      let upper := d.draw x y sprite₁
      let lower := upper.1.draw x (.ofNat ((y.toNat + sprite₁.length) % Display.height)) sprite₂
      d.draw x y (sprite₁ ++ sprite₂) = (lower.1, upper.2 || lower.2)) ∧
    (∀ (s : Session) (cs : List Command) (x y : Register) (n : Fin 16),
      let t := (s.step .cycle).1
      let u := t.run cs
      let w := (u.step .cycle).1
      s.machine.executed? = some (.draw x y n) → u.machine.executed? = some (.draw x y n) →
      u.machine.state.i = s.machine.state.i →
      u.machine.bytesAtIndex n = s.machine.bytesAtIndex n →
      u.machine.state.v.get x = s.machine.state.v.get x →
      u.machine.state.v.get y = s.machine.state.v.get y →
      u.machine.state.display = t.machine.state.display →
      w.machine.state.display = s.machine.state.display ∧
        (0 < Display.setBits (s.machine.bytesAtIndex n) →
          t.machine.state.v.get .flag = 1 ∨ w.machine.state.v.get .flag = 1)) ∧
    ∀ (m : Machine) (op : Opcode), m.state.waiting = none →
      m.state.memory.fetch m.state.pc = .ok op → m.state.memory.fetch (m.state.pc + 2) = .ok op →
      op.family = 0xD → m.state.i.toNat + op.n ≤ Memory.size → op.x ≠ .flag → op.y ≠ .flag →
      let m₁ := m.cycle.machine
      let m₂ := m₁.cycle.machine
      m.executed? = some (.draw op.x op.y op.n) ∧ m₁.executed? = some (.draw op.x op.y op.n) ∧
        m₂.state.display = m.state.display ∧
        (0 < Display.setBits (m.bytesAtIndex op.n) →
          m₁.state.v.get .flag = 1 ∨ m₂.state.v.get .flag = 1) := by
  refine ⟨fun _ _ _ => Display.drawAll_perm, ?_, Display.draw_append, ?_, ?_⟩
  case refine_1 =>
    intro d ps₁ ps₂ ps₃ p q hs hx hy
    have hc : q.cells = p.cells := by
      rw [Drawing.cells, Drawing.cells, hs]
      exact Display.spriteCells_congr hx hy
    exact Display.drawAll_cancel ps₁ ps₂ ps₃ hc
  case refine_2 =>
    intro s cs x y n t u w h h' _ hb hx hy hd
    exact Machine.draw_takes_back h h' hb hx hy hd
  case refine_3 =>
    intro m op hw hf hf' hd hi hx hy m₁ m₂
    obtain ⟨h, h', hb, hx, hy⟩ := Machine.executed?_draw_again hw hf hf' hd hi hx hy
    exact ⟨h, h', Machine.draw_takes_back h h' hb hx hy rfl⟩

-- Sprites that overlap change places and are taken back from the other side of the edges. A machine draws one
-- on a pixel that is lit and takes it back, at once or after its frame was collected and its timers ticked.
theorem drawings_commute_and_cancel_over_lit_pixel :
    let p : Drawing := ⟨1, 2, [0xFF, 0x81]⟩
    let p' : Drawing := ⟨65, 34, [0xFF, 0x81]⟩
    let q : Drawing := ⟨4, 2, [0x3C]⟩
    let m := Machine.new {} ⟨.replicate 8 0⟩
    let m := { m with state := { m.state with
      memory := m.state.memory.put 0x200 [0xD1, 0x21, 0xD1, 0x21, 0xF0]
      i := 0x204
      display := Display.blank.toggle (Display.cell 0 0) } }
    let s : Session := ⟨m, []⟩
    let t := (s.step .cycle).1
    let w := ((t.run [.collectFrame, .tick]).step .cycle).1
    let m₁ := m.cycle.machine
    let m₂ := m₁.cycle.machine
    m.state.display.drawAll [p, q] = m.state.display.drawAll [q, p] ∧
    m.state.display.drawAll [p, q, p'] = m.state.display.drawAll [q] ∧
    w.machine.state.display = m.state.display ∧
    (t.machine.state.v.get .flag = 1 ∨ w.machine.state.v.get .flag = 1) ∧
    m₂.state.display = m.state.display ∧ (m₁.state.v.get .flag = 1 ∨ m₂.state.v.get .flag = 1) := by
  intro p p' q m₀
  obtain ⟨hperm, hcancel, _, htwice, hagain⟩ := drawings_commute_and_cancel
  obtain ⟨memory, hp⟩ : ∃ memory, m₀.state.memory.put 0x200 [0xD1, 0x21, 0xD1, 0x21, 0xF0] = memory :=
    ⟨_, rfl⟩
  rw [hp]
  intro m s t w m₁ m₂
  have hf : memory.fetch 0x200 = .ok 0xD121 :=
    hp ▸ Memory.fetch_put (by decide) (by decide) rfl rfl rfl
  have hf' : memory.fetch 0x202 = .ok 0xD121 :=
    hp ▸ Memory.fetch_put (by decide) (by decide) rfl rfl rfl
  have hi : 0x204 + 1 ≤ Memory.size := by decide
  have hb : m.bytesAtIndex 1 = [0xF0] := by
    have hg : memory.get 0x204 = 0xF0 := hp ▸ Memory.get_put (by decide) _
    exact congrArg (· :: []) hg
  have hs : 0 < Display.setBits (m.bytesAtIndex 1) := hb ▸ by decide
  obtain ⟨he, _, hd, hh⟩ := hagain m 0xD121 rfl hf hf' (by decide) hi (by decide) (by decide)
  refine ⟨hperm _ _ _ (.swap ..), ?_, ?_⟩
  case refine_1 => exact hcancel _ [] [q] [] p p' rfl (by decide) (by decide)
  case refine_2 =>
    have hl : m.state.memory.slice m.state.i.toNat 1 = .ok _ := Memory.slice_eq_ok_iff.mpr ⟨hi, rfl⟩
    have hx : (Instruction.draw .v1 .v2 1).execute m.generator.byte m.state = .ok _ :=
      Instruction.execute_draw hl
    have hm : m₁ = _ := (Machine.cycle_of_execute rfl hf rfl hx).1.trans (Machine.elapse_eq _)
    have hu : (t.run [.collectFrame, .tick]).machine = (m₁.collectFrame.1).tick := rfl
    rw [hm] at hu
    obtain ⟨hd', hh'⟩ := htwice s [.collectFrame, .tick] .v1 .v2 1 he
      (hu ▸ Machine.executed?_draw rfl hf' rfl hi) (hu ▸ rfl) (hu ▸ rfl) (hu ▸ rfl) (hu ▸ rfl) rfl
    exact ⟨hd', hh' hs, hd, hh hs⟩

end Session
end Chip8
