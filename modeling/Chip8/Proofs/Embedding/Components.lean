import Chip8.Bare.Execution

-- A machine seen as a bare machine, and its arrays and words against the components they stand for.

namespace Chip8

namespace Display

def byte : Bool → UInt8
  | true => 1
  | false => 0

def bare (d : Display) : Vector UInt8 2048 :=
  d.pixels.map byte

end Display

def State.bare (s : State) : Bare.State where
  v := s.v.bytes
  i := s.i
  pc := s.pc
  slots := s.stack.slots
  depth := s.stack.depth
  memory := s.memory.bytes
  cells := s.display.bare
  keys := s.keypad.held
  delay := s.timers.delay
  sound := s.timers.sound
  phase := .ofNat s.timers.phase
  waiting := s.waiting.map Fin.val
  redraw := s.redraw

namespace State

variable (s : State)

@[simp]
theorem bare_v : s.bare.v = s.v.bytes := rfl

@[simp]
theorem bare_i : s.bare.i = s.i := rfl

@[simp]
theorem bare_pc : s.bare.pc = s.pc := rfl

@[simp]
theorem bare_waiting : s.bare.waiting = s.waiting.map Fin.val := rfl

end State

def Machine.bare (m : Machine) : Bare.Machine :=
  ⟨m.state.bare, m.config, m.generator⟩

namespace Machine

@[simp]
theorem bare_state (m : Machine) : m.bare.state = m.state.bare := rfl

@[simp]
theorem bare_config (m : Machine) : m.bare.config = m.config := rfl

@[simp]
theorem bare_generator (m : Machine) : m.bare.generator = m.generator := rfl

end Machine

namespace Bare

-- Arrays

section Arrays

variable {α : Type} {n : Nat}

theorem get_eq (xs : Vector α n) (k : Fin n) : xs.get k = xs[k.val] := rfl

theorem put_eq (xs : Vector α n) {k : Nat} (a : α) (h : k < n) :
    put xs k a = some (xs.setIfInBounds k a) := by
  simp [put, h]

theorem put_eq_set (xs : Vector α n) (k : Fin n) (a : α) :
    put xs k a = some (xs.set k a k.isLt) := by
  rw [put_eq xs a k.isLt]
  congr
  ext
  simp [Vector.getElem_set, Vector.getElem_setIfInBounds]

theorem slice_eq (xs : Vector α n) {start length : Nat} (h : start + length ≤ n) :
    slice xs start length = some ((xs.toList.drop start).take length) := by
  induction length generalizing start
  case zero => rfl
  case succ length ih =>
    have hs : start < n := by omega
    have hd : xs.toList.drop start = xs[start] :: xs.toList.drop (start + 1) := by
      rw [List.drop_eq_getElem_cons (by simpa using hs)]
      simp
    simp [slice, ih (by omega : start + 1 + length ≤ n), hs, hd]

theorem overwrite_eq (xs : Vector α n) {start : Nat} {as : List α} (h : start + as.length ≤ n) :
    overwrite xs start as =
      some (.ofFn fun k => if start ≤ k then as[k - start]?.getD (xs.get k) else xs.get k) := by
  induction as generalizing xs start
  case nil => simp [overwrite, get_eq]
  case cons a as ih =>
    rw [List.length_cons] at h
    rw [overwrite, put_eq xs a (by omega)]
    refine (ih (xs.setIfInBounds start a) (by omega)).trans ?_
    congr
    ext k
    rcases Nat.lt_trichotomy start k.val with hk | hk | hk
    · have hs : k.val - start = (k.val - (start + 1)) + 1 := by omega
      have hn : start ≤ k.val := Nat.le_of_lt hk
      simp [hs, hn, Nat.succ_le_of_lt hk, get_eq, Nat.ne_of_lt hk]
    · subst hk
      rw [if_neg (Nat.not_succ_le_self _), if_pos (Nat.le_refl _), Nat.sub_self]
      simp [get_eq]
    · have hn : ¬start + 1 ≤ k.val := by omega
      simp [get_eq, hn, Nat.not_le_of_lt hk, Nat.ne_of_gt hk]

end Arrays

-- Words

theorem sum_eq {size a b : Nat} (h : a + b < size) : sum size a b = some (a + b) := if_pos h

theorem product_eq {size a b : Nat} (h : a * b < size) : product size a b = some (a * b) := if_pos h

-- A register's number is far from the end of a word.
theorem count_eq (x : Register) : sum UInt64.size x 1 = some (x.val + 1) :=
  sum_eq (Nat.lt_of_le_of_lt (Nat.succ_le_of_lt x.isLt) (by decide))

-- Memory and registers

theorem slice_memory {mem : Memory} {a n : Nat} (h : a + n ≤ Memory.size) :
    slice mem.bytes a n = some ((List.range n).map fun k => mem.get (a + k)) := by
  rw [slice_eq mem.bytes (show a + n ≤ 4096 from h)]
  refine congrArg some (List.ext_getElem? fun k => ?_)
  by_cases hk : k < n
  case pos =>
    have hi : a + k < 4096 := Nat.lt_of_lt_of_le (Nat.add_lt_add_left hk a) h
    simp [hk, Memory.get, hi]
  case neg =>
    rw [List.getElem?_take, if_neg hk]
    simp [hk]

theorem overwrite_memory {mem : Memory} {a : Nat} {bs : List UInt8} (h : a + bs.length ≤ Memory.size) :
    overwrite mem.bytes a bs = some (mem.put a bs).bytes := by
  induction bs generalizing mem a
  case nil => rfl
  case cons b bs ih =>
    simp only [List.length_cons, Memory.size] at *
    rw [overwrite, put_eq _ _ (by omega)]
    exact @ih ⟨mem.bytes.setIfInBounds a b⟩ (a + 1) (by omega)

theorem slice_registers (v : Registers) (x : Register) :
    slice v.bytes 0 (x + 1) = some (v.upTo x) := by
  rw [slice_eq _ (by omega)]
  rfl

theorem overwrite_registers {v : Registers} {bs : List UInt8} (h : bs.length ≤ 16) :
    overwrite v.bytes 0 bs = some (v.overlay bs).bytes := by
  rw [overwrite_eq _ (by omega)]
  simp [Registers.overlay, Registers.get]

-- The display

theorem places_eq (x y : Nat) (rows : List UInt8) :
    places x y rows = (Display.spriteCells x y rows).map Fin.val := by
  induction rows generalizing y
  case nil => rfl
  case cons row rows ih =>
    rw [places, Display.spriteCells, List.map_append, ih, Display.rowCells, List.map_map]
    rfl

theorem getElem?_bare (d : Display) (c : Display.Cell) :
    d.bare[c.val]? = some (Display.byte (d.isLit c)) := by
  simp [Display.bare, Display.isLit_eq]

theorem bare_toggle (d : Display) (c : Display.Cell) :
    (d.toggle c).bare = d.bare.setIfInBounds c (Display.byte (!d.isLit c)) := by
  ext k hk
  by_cases h : c.val = k
  case pos =>
    subst h
    simp [Display.bare, Display.toggle]
  case neg => simp [Display.bare, Display.toggle, h]

theorem toggleAll_bare (d : Display) (hit : Bool) (cs : List Display.Cell) :
    toggleAll d.bare hit (cs.map Fin.val) =
      some ((d.toggleAll hit cs).1.bare, (d.toggleAll hit cs).2) := by
  induction cs generalizing d hit
  case nil => rfl
  case cons c cs ih =>
    rw [List.map_cons, toggleAll, getElem?_bare, Display.toggleAll_cons, ← ih, bare_toggle]
    cases hl : d.isLit c <;> simp [Display.byte, put_eq]

theorem bare_blank : Display.blank.bare = .replicate 2048 0 := by
  simp [Display.bare, Display.blank, Display.byte]

end Bare
end Chip8
