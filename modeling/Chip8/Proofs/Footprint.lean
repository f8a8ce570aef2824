import Chip8.Proofs.Arithmetic
import Chip8.Proofs.MemoryUse
import Chip8.Proofs.RandomBytes
import Chip8.Proofs.Sprites
import Chip8.Proofs.StoredBytes
import Chip8.Proofs.Unread

-- What a cycle can change: for each word of the code the places that it may write. Every other place is after
-- the cycle what it was before, `pc` and the advance of the timers apart.

namespace Chip8

-- What a machine keeps, `pc` apart, one value each.
inductive Place where
  | memory (address : Nat)
  | pixel (px : Fin 64) (py : Fin 32)
  | redraw
  | depth
  | slot (k : Fin 16)
  | index
  | delay
  | sound
  | waiting
  | generator
  | register (x : Register)
deriving DecidableEq, Repr

-- Both machines have the same in that place.
def Place.Kept (m n : Machine) : Place → Prop
  | memory a => n.state.memory.get a = m.state.memory.get a
  | pixel px py => n.state.display.pixel px py = m.state.display.pixel px py
  | redraw => n.state.redraw = m.state.redraw
  | depth => n.state.stack.depth = m.state.stack.depth
  | slot k => n.state.stack.slot k = m.state.stack.slot k
  | index => n.state.i = m.state.i
  | delay => n.state.timers.delay = m.state.timers.delay
  | sound => n.state.timers.sound = m.state.timers.sound
  | waiting => n.state.waiting = m.state.waiting
  | generator => n.generator = m.generator
  | register x => n.state.v.get x = m.state.v.get x

-- The places that the word `op` may write when it is executed in `s`.
inductive Opcode.Touches (s : State) (op : Opcode) : Place → Prop
  | digit (hf : op.family = 0xF) (hk : op.kk.toNat = 0x33) (ha : s.i.toNat ≤ a)
      (hl : a < s.i.toNat + 3) : Touches s op (.memory a)
  | stored (hf : op.family = 0xF) (hk : op.kk.toNat = 0x55) (ha : s.i.toNat ≤ a)
      (hl : a ≤ s.i.toNat + op.x) : Touches s op (.memory a)
  | blanked {px : Fin 64} {py : Fin 32} (hf : op.family = 0x0) (hk : op.kk.toNat = 0xE0) :
    Touches s op (.pixel px py)
  -- The rectangle of the sprite, around the edges.
  | drawn {px : Fin 64} {py : Fin 32} (hf : op.family = 0xD)
      (hx : ∃ c < 8, ((s.v.get op.x).toNat + c) % Display.width = px)
      (hy : ∃ r < op.n.val, ((s.v.get op.y).toNat + r) % Display.height = py) :
    Touches s op (.pixel px py)
  | redrawn (h : op.family = 0x0 ∧ op.kk.toNat = 0xE0 ∨ op.family = 0xD) : Touches s op .redraw
  | depth (h : op.family = 0x2 ∨ op.family = 0x0 ∧ op.kk.toNat = 0xEE) : Touches s op .depth
  | pushed (hf : op.family = 0x2) (hk : k.val = s.stack.depth) : Touches s op (.slot k)
  | index (h : op.family = 0xA ∨ op.family = 0xF ∧ (op.kk.toNat = 0x1E ∨ op.kk.toNat = 0x29)) :
    Touches s op .index
  | delay (hf : op.family = 0xF) (hk : op.kk.toNat = 0x15) : Touches s op .delay
  | sound (hf : op.family = 0xF) (hk : op.kk.toNat = 0x18) : Touches s op .sound
  | parked (hf : op.family = 0xF) (hk : op.kk.toNat = 0x0A) (hn : s.keypad.lowest = none) :
    Touches s op .waiting
  | random (hf : op.family = 0xC) : Touches s op .generator
  -- A result goes to the first register that the word names.
  | result (h : op.family = 0x6 ∨ op.family = 0x7 ∨ op.family = 0xC ∨
      op.family = 0x8 ∧ (op.n.val ≤ 0x7 ∨ op.n.val = 0xE) ∨ op.family = 0xF ∧ op.kk.toNat = 0x07) :
    Touches s op (.register op.x)
  | key (hf : op.family = 0xF) (hk : op.kk.toNat = 0x0A) (hn : s.keypad.lowest ≠ none) :
    Touches s op (.register op.x)
  | flag (h : op.family = 0x8 ∧ (0x4 ≤ op.n.val ∧ op.n.val ≤ 0x7 ∨ op.n.val = 0xE) ∨
      op.family = 0xD) : Touches s op (.register .flag)
  | restored (hf : op.family = 0xF) (hk : op.kk.toNat = 0x65) (hr : r ≤ op.x) :
    Touches s op (.register r)

-- The places that a cycle in `s` with the given outcome may write: those of the word at `pc`, or those of a
-- key that arrives.
inductive Outcome.Touches (s : State) : Outcome → Place → Prop
  | word {op : Opcode} (hw : s.waiting = none) (hf : s.memory.fetch s.pc = .ok op) (ht : op.Touches s p) :
    Touches s (.executed s.pc op i) p
  | answer (hw : s.waiting = some x) : Touches s (.keyReceived x key) (.register x)
  | release (hw : s.waiting = some x) : Touches s (.keyReceived x key) .waiting

-- Whether an operation has a flag besides its result.
def Alu.flags (op : Alu) : Bool :=
  (op.apply 0 0).2.isSome

theorem Alu.flags_of_code {op : Alu} {code : Nat} (h : ofCode? code = some op) (hf : op.flags = true) :
    0x4 ≤ code ∧ code ≤ 0x7 ∨ code = 0xE := by
  unfold ofCode? at h
  split at h <;> cases h
  case h_1 | h_2 | h_3 | h_4 => cases hf
  case h_5 | h_6 | h_7 | h_8 | h_9 => omega

-- A hit lies in the rectangle of the sprite.
theorem Display.exists_of_hits {x y : Nat} {sprite : List UInt8} {px : Fin 64} {py : Fin 32}
    (h : hits x y sprite px py ≠ 0) :
    (∃ c < 8, (x + c) % width = px) ∧ ∃ r < sprite.length, (y + r) % height = py := by
  obtain ⟨p, hp⟩ := Finset.card_ne_zero.mp h
  obtain ⟨_, _, hx, hy⟩ := Finset.mem_filter.mp hp
  exact ⟨⟨p.2, p.2.isLt, hx⟩, p.1, p.1.isLt, hy⟩

-- An operation writes its result, and its flag if it has one.
theorem State.get_compute_or (s : State) (op : Alu) (x y r : Register) :
    (s.compute op x y).v.get r = s.v.get r ∨ r = x ∨ op.flags = true ∧ r = .flag := by
  have hp (b : UInt8) : (s.v.set x b).get r = s.v.get r ∨ r = x ∨ op.flags = true ∧ r = .flag :=
    (Registers.get_set_or ..).imp_right .inl
  have hq (b f : UInt8) (hf : op.flags = true) : ((s.v.set x b).set .flag f).get r = s.v.get r ∨
      r = x ∨ op.flags = true ∧ r = .flag := by
    obtain h | h := Registers.get_set_or (s.v.set x b) .flag r f
    case inl => exact h ▸ hp b
    case inr => exact .inr (.inr ⟨hf, h⟩)
  cases op
  case copy | or | and | xor => exact hp _
  case add | sub | shiftRight | subFrom | shiftLeft => exact hq _ _ rfl

namespace Instruction

-- The registers that an instruction may write.
inductive Writes (s : State) : Instruction → Register → Prop
  | loadByte : Writes s (loadByte x b) x
  | addByte : Writes s (addByte x b) x
  | random : Writes s (random x mask) x
  | readDelay : Writes s (readDelay x) x
  | result : Writes s (alu a x y) x
  | flag (hf : a.flags = true) : Writes s (alu a x y) .flag
  | hit : Writes s (draw x y rows) .flag
  | answer (hk : s.keypad.lowest = some key) : Writes s (awaitKey x) x
  | restore (hr : r ≤ x) : Writes s (restore x) r

variable {i : Instruction} {s s' : State} {op : Opcode} {byte : UInt8} {r : Register}

theorem Yields.depth : i.Yields s s' →
    s'.stack.depth = s.stack.depth ∨ i = Instruction.ret ∨ ∃ target, i = Instruction.call target
  | call _ => .inr (.inr ⟨_, rfl⟩)
  | ret _ => .inr (.inl rfl)
  | jump | jumpOffset | skip _ | stay _ | clear | draw _ | park _ | answer _ | registers _ | index _
  | memory _ | setDelay | setSound => .inl rfl

theorem Yields.slot (k : Fin 16) : i.Yields s s' →
    s'.stack.slot k = s.stack.slot k ∨ (∃ target, i = Instruction.call target) ∧ k.val = s.stack.depth
  | call hp => by
    by_cases hk : k.val = s.stack.depth
    case pos => exact .inr ⟨⟨_, rfl⟩, hk⟩
    case neg => exact .inl ((Stack.slot_push hp k).trans (if_neg hk))
  | ret hp => .inl (Stack.slot_pop hp k)
  | jump | jumpOffset | skip _ | stay _ | clear | draw _ | park _ | answer _ | registers _ | index _
  | memory _ | setDelay | setSound => .inl rfl

theorem Yields.delay : i.Yields s s' →
    s'.timers.delay = s.timers.delay ∨ ∃ x, i = Instruction.setDelay x
  | setDelay => .inr ⟨_, rfl⟩
  | jump | jumpOffset | call _ | ret _ | skip _ | stay _ | clear | draw _ | park _ | answer _
  | registers _ | index _ | memory _ | setSound => .inl rfl

theorem Yields.sound : i.Yields s s' →
    s'.timers.sound = s.timers.sound ∨ ∃ x, i = Instruction.setSound x
  | setSound => .inr ⟨_, rfl⟩
  | jump | jumpOffset | call _ | ret _ | skip _ | stay _ | clear | draw _ | park _ | answer _
  | registers _ | index _ | memory _ | setDelay => .inl rfl

-- Only the pixels around a sprite change, unless all of them are cleared.
theorem Yields.pixel (px : Fin 64) (py : Fin 32) (h : i.Yields s s') :
    s'.display.pixel px py = s.display.pixel px py ∨ i = Instruction.clear ∨
      ∃ (x y : Register) (rows : Fin 16), i = Instruction.draw x y rows ∧
        (∃ c < 8, ((s.v.get x).toNat + c) % Display.width = px) ∧
        ∃ k < rows.val, ((s.v.get y).toNat + k) % Display.height = py := by
  cases h
  case clear => exact .inr (.inl rfl)
  case draw sprite x y rows hm =>
    by_cases hh : Display.hits (s.v.get x).toNat (s.v.get y).toNat sprite px py = 0
    case pos =>
      refine .inl ((Display.pixel_draw ..).trans ?_)
      simp [hh]
    case neg =>
      obtain ⟨hx, hy⟩ := Display.exists_of_hits hh
      have hl : sprite.length = rows := by
        rw [(Memory.slice_eq_ok_iff.mp hm).2, List.length_map, List.length_range]
      exact .inr (.inr ⟨x, y, rows, rfl, hx, hl ▸ hy⟩)
  all_goals exact .inl rfl

theorem execute_register (h : i.execute byte s = .ok s') :
    s'.v.get r = s.v.get r ∨ i.Writes s r := by
  have hset {x : Register} {b : UInt8} (hw : i.Writes s x) :
      (s.v.set x b).get r = s.v.get r ∨ i.Writes s r :=
    (s.v.get_set_or x r b).imp_right fun (hr : r = x) => hr ▸ hw
  cases execute_yields h
  case draw => exact hset .hit
  case answer hk => exact hset (.answer hk)
  case registers hi =>
    cases i <;> cases hi
    case loadByte => cases h; exact hset .loadByte
    case addByte => cases h; exact hset .addByte
    case random => cases h; exact hset .random
    case readDelay => cases h; exact hset .readDelay
    case alu a x y =>
      have hv := congrArg State.v (Except.ok.inj h)
      obtain hr | rfl | ⟨hf, rfl⟩ := s.advance.get_compute_or a x y r
      case inl => exact .inl (hv ▸ hr)
      case inr.inl => exact .inr .result
      case inr.inr => exact .inr (.flag hf)
    case restore x =>
      obtain ⟨_, hm, hs⟩ := Fault.bind_ok_eq_ok_iff.mp h
      obtain ⟨_, rfl⟩ := Memory.slice_eq_ok_iff.mp hm
      by_cases hr : r ≤ x
      case pos => exact .inr (.restore hr)
      case neg =>
        have hl : x.val + 1 ≤ r.val := Nat.lt_of_not_le hr
        refine .inl ((congrArg (Registers.get · r) (congrArg State.v hs)).trans ?_)
        refine (Registers.get_overlay ..).trans ?_
        rw [List.getElem?_eq_none (by simpa using hl)]
        rfl
  all_goals exact .inl rfl

-- The registers in terms of the word.
theorem Writes.touches (hw : i.Writes s r) (he : op.Encodes i) : op.Touches s (.register r) := by
  cases hw
  case loadByte => cases he with | loadByte hf => exact .result (.inl hf)
  case addByte => cases he with | addByte hf => exact .result (.inr (.inl hf))
  case random => cases he with | random hf => exact .result (.inr (.inr (.inl hf)))
  case readDelay => cases he with | readDelay hf hk => exact .result (.inr (.inr (.inr (.inr ⟨hf, hk⟩))))
  case result =>
    cases he with
    | alu hf ha =>
      have hn := Alu.exists_code_iff.mp ⟨_, ha⟩
      exact .result (.inr (.inr (.inr (.inl ⟨hf, hn⟩))))
  case flag h => cases he with | alu hf ha => exact .flag (.inl ⟨hf, Alu.flags_of_code ha h⟩)
  case hit => cases he with | draw hf => exact .flag (.inr hf)
  case answer hn => cases he with | awaitKey hf hk => exact .key hf hk (by simp [hn])
  case restore hr => cases he with | restore hf hk => exact .restored hf hk hr

theorem output_touches {a : Nat} (he : op.Encodes i)
    (hm : a ∈ List.range' s.i.toNat (i.output s).length) : op.Touches s (.memory a) := by
  obtain ⟨ha, hl⟩ := List.mem_range'_1.mp hm
  cases he
  case decimal hf hk => exact .digit hf hk ha hl
  case store hf hk =>
    simp only [output, Registers.length_upTo] at hl
    exact .stored hf hk ha (by omega)
  all_goals exact absurd hl (Nat.not_lt_of_le ha)

-- Wherever the word of an instruction does not write, the instruction leaves the machine as it was.
theorem executed_kept {m : Machine} (he : op.Encodes i)
    (hs : i.execute m.generator.byte m.state = .ok s') (p : Place) :
    p.Kept m (m.executed i s') ∨ op.Touches m.state p := by
  have hy := execute_yields hs
  cases p
  case memory a =>
    obtain ⟨hm, hb⟩ := execute_memory hs
    by_cases ha : a ∈ List.range' m.state.i.toNat (i.output m.state).length
    case pos => exact .inr (output_touches he ha)
    case neg => exact .inl ((congrArg (Memory.get · a) hm).trans (Memory.get_put_of_not_mem hb ha))
  case pixel px py =>
    obtain h | rfl | ⟨x, y, rows, rfl, hx, hr⟩ := hy.pixel px py
    case inl => exact .inl h
    case inr.inl =>
      cases he
      case clear hf hk => exact .inr (.blanked hf hk)
    case inr.inr =>
      cases he
      case draw hf => exact .inr (.drawn hf hx hr)
  case redraw =>
    cases hd : i.draws
    case false =>
      have hr := hy.redraw
      rw [hd, Bool.false_or] at hr
      exact .inl hr
    case true =>
      refine .inr (.redrawn ?_)
      cases he <;> cases hd
      case clear hf hk => exact .inl ⟨hf, hk⟩
      case draw hf => exact .inr hf
  case depth =>
    obtain h | rfl | ⟨target, rfl⟩ := hy.depth
    case inl => exact .inl h
    case inr.inl =>
      cases he
      case ret hf hk => exact .inr (.depth (.inr ⟨hf, hk⟩))
    case inr.inr =>
      cases he
      case call hf => exact .inr (.depth (.inl hf))
  case slot k =>
    obtain h | ⟨⟨target, rfl⟩, hk⟩ := hy.slot k
    case inl => exact .inl h
    case inr =>
      cases he
      case call hf => exact .inr (.pushed hf hk)
  case index =>
    cases hi : i.writesIndex
    case false => exact .inl (hy.index_eq hi)
    case true =>
      refine .inr (.index ?_)
      cases he <;> cases hi
      case loadIndex hf => exact .inl hf
      case addIndex hf hk => exact .inr ⟨hf, .inl hk⟩
      case glyph hf hk => exact .inr ⟨hf, .inr hk⟩
  case delay =>
    obtain h | ⟨x, rfl⟩ := hy.delay
    case inl => exact .inl h
    case inr =>
      cases he
      case setDelay hf hk => exact .inr (.delay hf hk)
  case sound =>
    obtain h | ⟨x, rfl⟩ := hy.sound
    case inl => exact .inl h
    case inr =>
      cases he
      case setSound hf hk => exact .inr (.sound hf hk)
  case waiting =>
    obtain h | ⟨x, rfl, hn, _⟩ := hy.waiting
    case inl => exact .inl h
    case inr =>
      cases he with
      | awaitKey hf hk => exact .inr (.parked hf hk hn)
  case generator =>
    cases hd : i.drawsByte
    case false => exact .inl (by simp [Place.Kept, Machine.executed, hd])
    case true => exact .inr (.random (family_of_drawsByte (decode?_of_encodes he) hd))
  case register r => exact (execute_register hs).imp_right fun h => h.touches he

end Instruction

namespace Machine

variable {m : Machine} {o : Outcome} {t : Transition (Except Fault Outcome)}

-- A key that arrives goes to the register that waits for it, which then waits no longer.
theorem received_kept {x : Register} (key : Fin 16) (hw : m.state.waiting = some x) (p : Place) :
    p.Kept m (m.received x key) ∨ (Outcome.keyReceived x key).Touches m.state p := by
  cases p
  case waiting => exact .inr (.release hw)
  case register r =>
    obtain h | rfl := m.state.v.get_set_or x r (.ofNat key)
    case inl => exact .inl h
    case inr => exact .inr (.answer hw)
  all_goals exact .inl rfl

-- Where a completed cycle has come to before its timers move.
theorem Cycle.kept : m.Cycle t → t.result = .ok o → ∃ w : Machine, t.machine = w.elapse ∧
    w.config = m.config ∧ w.state.keypad = m.state.keypad ∧
    w.state.timers.phase = m.state.timers.phase ∧
    (w.state.redraw = m.state.redraw ∨ w.state.redraw = true) ∧
    ∀ p : Place, p.Kept m w ∨ o.Touches m.state p
  | wait hw hk, h =>
    ⟨m, rfl, rfl, rfl, rfl, .inl rfl, fun p => .inl (by cases p <;> rfl)⟩
  | receive hw hk, h => by
    cases h
    exact ⟨m.received _ _, rfl, rfl, rfl, rfl, .inl rfl, received_kept _ hw⟩
  | skip hw hf hd hs, h =>
    ⟨{ m with state := m.state.advance }, rfl, rfl, rfl, rfl, .inl rfl,
      fun p => .inl (by cases p <;> rfl)⟩
  | execute (i := i) (s := s) hw hf hd he, h => by
    cases h
    have hy := Instruction.execute_yields he
    refine ⟨m.executed i s, rfl, rfl, hy.keypad, hy.phase, ?_, fun p => ?_⟩
    case refine_1 =>
      have hr := hy.redraw
      cases hi : i.draws <;> rw [hi] at hr
      case false => exact .inl hr
      case true => exact .inr hr
    case refine_2 =>
      exact (Instruction.executed_kept (Instruction.encodes_of_decode? hd) he p).imp_right (.word hw hf)
  | stray _ _, h | stop .., h | refuse .., h => nomatch h

-- A completed cycle writes only what its outcome may write, and `pc`, until its timers move.
theorem cycle_keeps_rest (m : Machine) (o : Outcome) (h : m.cycle.result = .ok o) :
    ∃ w : Machine,
      m.cycle.machine = { w with state.timers := m.config.timer.elapse w.state.timers } ∧
      w.config = m.config ∧ w.state.keypad = m.state.keypad ∧
      w.state.timers.phase = m.state.timers.phase ∧
      (w.state.redraw = m.state.redraw ∨ w.state.redraw = true) ∧
      ∀ p : Place, p.Kept m w ∨ o.Touches m.state p := by
  obtain ⟨w, hm, hc, hw⟩ := m.cycle_goes.kept h
  refine ⟨w, ?_, hc, hw⟩
  rw [hm, elapse_eq, hc]

-- Two registers are stored. The byte behind theirs stays, and so do the registers, the display and `I`.
theorem cycle_keeps_rest_of_store :
    let m := new {} ⟨.replicate 8 0⟩
    let m := { m with state := { m.state with
      memory := m.state.memory.put 0x200 [0xF1, 0x55]
      i := 0x300 } }
    let w := m.cycle.machine
    w.state.memory.get 0x302 = m.state.memory.get 0x302 ∧ w.state.v.get .v1 = m.state.v.get .v1 ∧
      w.state.display.pixel 63 31 = m.state.display.pixel 63 31 ∧ w.state.i = 0x300 := by
  intro m₀
  obtain ⟨memory, hp⟩ : ∃ memory, m₀.state.memory.put 0x200 [0xF1, 0x55] = memory := ⟨_, rfl⟩
  rw [hp]
  intro m w
  have hf : memory.fetch 0x200 = .ok 0xF155 :=
    hp ▸ Memory.fetch_put (by decide) (by decide) rfl rfl rfl
  have hl : 0x300 + (m.state.v.upTo .v1).length ≤ Memory.size := by
    rw [Registers.length_upTo]
    decide
  have hx : (Instruction.store .v1).execute m.generator.byte m.state = .ok _ :=
    Fault.bind_ok_eq_ok_iff.mpr ⟨_, Memory.write_eq_ok_iff.mpr ⟨hl, rfl⟩, rfl⟩
  obtain ⟨u, hm, _, _, _, _, hu⟩ := cycle_keeps_rest m _ (cycle_of_execute rfl hf rfl hx).2
  have hk {p : Place} (hn : ¬Opcode.Touches m.state 0xF155 p) : p.Kept m u :=
    (hu p).resolve_right fun h => hn (by cases h; assumption)
  have hw : w = _ := hm
  rw [hw]
  refine ⟨hk (p := .memory 0x302) ?_, hk (p := .register .v1) ?_, hk (p := .pixel 63 31) ?_,
    hk (p := .index) ?_⟩ <;> intro h <;> cases h
  case refine_1.digit hd _ _ => exact absurd hd (by decide)
  case refine_1.stored hb =>
    have hb : 0x302 ≤ 0x300 + 1 := hb
    exact absurd hb (by decide)
  case refine_2.result h | refine_4.index h => exact absurd h (by decide)
  case refine_2.key hd _ | refine_2.restored hd _ => exact absurd hd (by decide)
  case refine_3.blanked hf _ | refine_3.drawn hf _ _ => exact absurd hf (by decide)

end Machine
end Chip8
