import Chip8.Proofs.MemoryUse

-- What an instruction puts into memory is there when it is looked for, as long as nothing else was written in
-- its place. So registers that are stored come back, and so do the digits of a register.

namespace Chip8

-- The digits make up the byte again.
theorem decimalDigits_value (b : UInt8) : ∃ h t o, decimalDigits b = [h, t, o] ∧
    h ≤ 9 ∧ t ≤ 9 ∧ o ≤ 9 ∧ 100 * h.toNat + 10 * t.toNat + o.toNat = b.toNat := by
  have := b.toNat_lt
  refine ⟨b / 100, b / 10 % 10, b % 10, rfl, ?_⟩
  simp only [UInt8.le_iff_toNat_le, UInt8.toNat_div, UInt8.toNat_mod, UInt8.reduceToNat]
  omega

namespace Instruction

variable {i : Instruction} {s s' : State}

-- Only some instructions move `I`.
theorem Yields.index_eq (hi : i.writesIndex = false) : i.Yields s s' → s'.i = s.i
  | jump | jumpOffset | call _ | ret _ | skip _ | stay _ | clear | draw _ | park _ | answer _
  | registers _ | memory _ | setDelay | setSound => rfl
  | index h => nomatch h.symm.trans hi

end Instruction

namespace Machine

variable {m : Machine} {i : Instruction} {x : Register} {op : Opcode}

-- Registers are restored if there is memory to restore them from.
theorem executed?_restore (hw : m.state.waiting = none) (hf : m.state.memory.fetch m.state.pc = .ok op)
    (hd : Instruction.decode? op = some (.restore x)) (hb : m.state.i.toNat + (x + 1) ≤ Memory.size) :
    m.executed? = some (.restore x) := by
  have hs := Memory.slice_eq_ok_iff (m := m.state.memory).mpr ⟨hb, rfl⟩
  exact (Cycle.execute hw hf hd (Fault.bind_ok_eq_ok_iff.mpr ⟨_, hs, rfl⟩)).executed?_eq

theorem index_cycle (he : m.executed? = some i) (hi : i.writesIndex = false) :
    m.cycle.machine.state.i = m.state.i := by
  obtain ⟨_, _, _, _, _, hs, hm⟩ := of_executed? he
  have hy := (Instruction.execute_yields hs).index_eq hi
  rw [hm, elapse_eq]
  exact hy

-- A restored register holds the byte in its place; registers above the last one and memory stay.
theorem cycle_of_restore (he : m.executed? = some (.restore x)) :
    m.cycle.machine.state.memory = m.state.memory ∧
      ∀ j, m.cycle.machine.state.v.get j =
        if j ≤ x then m.state.memory.get (m.state.i.toNat + j) else m.state.v.get j := by
  obtain ⟨_, s, _, _, _, hs, hm⟩ := of_executed? he
  obtain ⟨bytes, hb, hs⟩ := Fault.bind_ok_eq_ok_iff.mp hs
  obtain ⟨_, rfl⟩ := Memory.slice_eq_ok_iff.mp hb
  have hs' : s.memory = m.state.memory := hs ▸ rfl
  rw [hm]
  refine ⟨(elapse_memory _).trans hs', fun j => ?_⟩
  rw [elapse_eq, hs]
  refine (Registers.get_overlay ..).trans ?_
  rw [List.getElem?_map]
  by_cases hj : j ≤ x
  case pos =>
    rw [if_pos hj, List.getElem?_range (Nat.lt_succ_of_le hj)]
    rfl
  case neg =>
    rw [if_neg hj, List.getElem?_eq_none (List.length_range ▸ Nat.lt_of_not_le hj)]
    rfl

end Machine

namespace Session

variable {s : Session} {cs : List Command} {k : Nat}

-- What a cycle has put into memory is there until something else is written in its place.
theorem get_output {b : UInt8} (hb : s.machine.output[k]? = some b)
    (hw : s.machine.state.i.toNat + k ∉ (s.step .cycle).1.written cs) :
    ((s.step .cycle).1.run cs).machine.state.memory.get (s.machine.state.i.toNat + k) = b := by
  obtain ⟨hk, hb⟩ := List.getElem?_eq_some_iff.mp hb
  rw [get_run hw, memory_step]
  exact (Memory.get_put_self (s.fits_puts .cycle) hk).trans hb

-- A register is restored to what the cycle has put in its place.
theorem get_restored {b : UInt8} {y j : Register}
    (hy : ((s.step .cycle).1.run cs).machine.executed? = some (.restore y))
    (hi : ((s.step .cycle).1.run cs).machine.state.i = s.machine.state.i) (hj : j ≤ y)
    (hb : s.machine.output[j.val]? = some b)
    (hw : s.machine.state.i.toNat + j ∉ (s.step .cycle).1.written cs) :
    (((s.step .cycle).1.run cs).step .cycle).1.machine.state.v.get j = b := by
  have hv := (Machine.cycle_of_restore hy).2 j
  rw [hi, if_pos hj, get_output hb hw] at hv
  exact hv

-- Registers that are stored come back when they are restored from the same place, if nothing was written
-- there in between; the restored registers beyond them take what memory holds, and no other register changes.
-- Likewise the digits of a register come back, and they make up its value.
theorem stored_bytes_come_back (s : Session) (cs : List Command) (y : Register) :
    let t := (s.step .cycle).1
    let u := t.run cs
    let w := (u.step .cycle).1.machine.state
    let a := s.machine.state.i.toNat
    u.machine.executed? = some (.restore y) → u.machine.state.i = s.machine.state.i →
    (∀ x, s.machine.executed? = some (.store x) →
      (∀ k ∈ t.written cs, ¬(a ≤ k ∧ k ≤ a + x)) →
      (∀ j, j ≤ x → j ≤ y → w.v.get j = s.machine.state.v.get j) ∧
      (∀ j, x < j → j ≤ y → w.v.get j = u.machine.state.memory.get (a + j)) ∧
      (∀ j, y < j → w.v.get j = u.machine.state.v.get j) ∧
      w.memory = u.machine.state.memory ∧
      w.i = u.machine.state.i ∧ t.machine.state.i = s.machine.state.i) ∧
    (∀ x, s.machine.executed? = some (.decimal x) →
      (∀ k ∈ t.written cs, ¬(a ≤ k ∧ k ≤ a + 2)) → Register.v2 ≤ y →
      w.v.get .v0 ≤ 9 ∧ w.v.get .v1 ≤ 9 ∧ w.v.get .v2 ≤ 9 ∧
      100 * (w.v.get .v0).toNat + 10 * (w.v.get .v1).toNat + (w.v.get .v2).toNat =
        (s.machine.state.v.get x).toNat) := by
  intro t u w a he hi
  obtain ⟨hm, hr⟩ := Machine.cycle_of_restore he
  rw [hi] at hr
  have hv : ∀ j, w.v.get j = if j ≤ y then u.machine.state.memory.get (a + j) else
    u.machine.state.v.get j := hr
  refine ⟨?_, ?_⟩
  case refine_1 =>
    intro x hx hw
    have ho : s.machine.output = s.machine.state.v.upTo x := by rw [Machine.output, hx]; rfl
    have hi₁ := Machine.index_cycle (m := u.machine) he rfl
    have hi₂ := Machine.index_cycle (m := s.machine) hx rfl
    refine ⟨fun j hj hy => ?_, fun j _ hy => ?_, fun j hy => ?_, hm, hi₁, hi₂⟩
    case refine_1 =>
      have hb := ho ▸ Registers.getElem?_upTo s.machine.state.v x j hj
      exact get_restored he hi hy hb fun hk => hw _ hk ⟨Nat.le_add_right .., Nat.add_le_add_left hj _⟩
    case refine_2 => rw [hv, if_pos hy]
    case refine_3 => rw [hv, if_neg (Fin.not_le.mpr hy)]
  case refine_2 =>
    intro x hx hw hy
    obtain ⟨b₀, b₁, b₂, hd, hb⟩ := decimalDigits_value (s.machine.state.v.get x)
    have ho : s.machine.output = [b₀, b₁, b₂] := by rw [Machine.output, hx, ← hd]; rfl
    have hg : ∀ j b, [b₀, b₁, b₂][j.val]? = some b → j ≤ Register.v2 → w.v.get j = b := by
      intro j b hb hj
      have hy : j ≤ y := Nat.le_trans hj hy
      exact get_restored he hi hy (ho ▸ hb) fun hk =>
        hw _ hk ⟨Nat.le_add_right .., Nat.add_le_add_left hj _⟩
    rw [hg .v0 b₀ rfl (by decide), hg .v1 b₁ rfl (by decide), hg .v2 b₂ rfl (by decide)]
    exact hb

-- Two registers are stored over the very word that stores them, and digits are stored behind the program.
theorem stored_bytes_come_back_over_program :
    let m := Machine.new {} ⟨.replicate 8 0⟩
    let v := (m.state.v.set .v0 234).set .v1 7
    let s (memory : Memory) (i : UInt16) : Session :=
      ⟨{ m with state := { m.state with v, i, memory } }, []⟩
    let s₁ := s (m.state.memory.put 0x200 [0xF1, 0x55, 0xF2, 0x65]) 0x200
    let s₂ := s (m.state.memory.put 0x200 [0xF0, 0x33, 0xF2, 0x65]) 0x210
    let u := s₁.run [.cycle, .tick]
    let w₁ := (s₁.run [.cycle, .tick, .cycle]).machine.state
    let w₂ := (s₂.run [.cycle, .tick, .cycle]).machine.state
    w₁.v.get .v0 = 234 ∧ w₁.v.get .v1 = 7 ∧ w₁.v.get .v2 = u.machine.state.memory.get 0x202 ∧
      100 * (w₂.v.get .v0).toNat + 10 * (w₂.v.get .v1).toNat + (w₂.v.get .v2).toNat = 234 := by
  intro m v s
  obtain ⟨p₁, hp₁⟩ : ∃ p, m.state.memory.put 0x200 [0xF1, 0x55, 0xF2, 0x65] = p := ⟨_, rfl⟩
  obtain ⟨p₂, hp₂⟩ : ∃ p, m.state.memory.put 0x200 [0xF0, 0x33, 0xF2, 0x65] = p := ⟨_, rfl⟩
  rw [hp₁, hp₂]
  intro s₁ s₂ u w₁ w₂
  have hv₀ : v.get .v0 = 234 := by
    refine (Registers.get_set ..).trans ((if_neg (by decide)).trans ?_)
    exact (Registers.get_set ..).trans (if_pos rfl)
  have hv₁ : v.get .v1 = 7 := (Registers.get_set ..).trans (if_pos rfl)
  have hl : (v.upTo .v1).length = 2 := Registers.length_upTo ..
  have hb₁ : 0x200 + 3 ≤ Memory.size := by decide
  have hb₂ : 0x210 + 3 ≤ Memory.size := by decide
  have hs (byte) (st : State) (hi : st.i = 0x200) (hv : st.v = v) :
      (Instruction.store .v1).execute byte st =
        .ok { st.advance with memory := st.memory.put 0x200 (v.upTo .v1) } := by
    have hb : st.i.toNat + (st.v.upTo .v1).length ≤ Memory.size := by
      rw [hi, hv, hl]
      decide
    exact Fault.bind_ok_eq_ok_iff.mpr ⟨_, Memory.write_eq_ok_iff.mpr ⟨hb, rfl⟩, by rw [hi, hv]; rfl⟩
  have hd (byte) (st : State) (hi : st.i = 0x210) (hv : st.v = v) :
      (Instruction.decimal .v0).execute byte st =
        .ok { st.advance with memory := st.memory.put 0x210 (decimalDigits 234) } := by
    have hb : st.i.toNat + (decimalDigits (st.v.get .v0)).length ≤ Memory.size := hi ▸ hb₂
    exact Fault.bind_ok_eq_ok_iff.mpr ⟨_, Memory.write_eq_ok_iff.mpr ⟨hb, rfl⟩, by rw [hi, hv, hv₀]; rfl⟩
  -- A program that puts bytes into memory goes on with the word behind, if that is still there.
  have hgo {memory : Memory} {a : UInt16} {op : Opcode} {i : Instruction} {bs : List UInt8}
      (hf : memory.fetch 0x200 = .ok op) (hd : Instruction.decode? op = some i)
      (hx : ∀ byte st, st.i = a → st.v = v →
        i.execute byte st = .ok { st.advance with memory := st.memory.put a.toNat bs })
      (hf' : (memory.put a.toNat bs).fetch 0x202 = .ok 0xF265) (hb : a.toNat + 3 ≤ Memory.size) :
      let u := ((s memory a).step .cycle).1.run [.tick]
      (s memory a).machine.executed? = some i ∧ u.machine.executed? = some (.restore .v2) ∧
        u.machine.state.i = a := by
    intro u
    let m₀ := (s memory a).machine
    have hx := hx m₀.generator.byte m₀.state rfl rfl
    have he := (Machine.Cycle.execute (m := m₀) rfl hf hd hx).executed?_eq
    have hc : m₀.cycle.machine = _ := (Machine.cycle_of_execute rfl hf hd hx).1
    have hu : u.machine = m₀.cycle.machine.tick := rfl
    rw [hu, hc, Machine.elapse_eq]
    exact ⟨he, Machine.executed?_restore rfl hf' rfl hb, rfl⟩
  have hf₁ : p₁.fetch 0x200 = .ok 0xF155 := hp₁ ▸ Memory.fetch_put (by decide) (by decide) rfl rfl rfl
  have hf₁' : p₁.fetch 0x202 = .ok 0xF265 := hp₁ ▸ Memory.fetch_put (by decide) (by decide) rfl rfl rfl
  have hf₂ : p₂.fetch 0x200 = .ok 0xF033 := hp₂ ▸ Memory.fetch_put (by decide) (by decide) rfl rfl rfl
  have hf₂' : p₂.fetch 0x202 = .ok 0xF265 := hp₂ ▸ Memory.fetch_put (by decide) (by decide) rfl rfl rfl
  obtain ⟨hx₁, hy₁, hi₁⟩ := hgo (a := 0x200) hf₁ rfl hs ((Memory.fetch_put_of_not_mem
    (.inr (by rw [hl]; decide)) (by rw [hl]; decide) (by rw [hl]; decide)).trans hf₁') hb₁
  obtain ⟨hx₂, hy₂, hi₂⟩ := hgo (a := 0x210) hf₂ rfl hd ((Memory.fetch_put_of_not_mem
    (.inr hb₂) (by decide) (by decide)).trans hf₂') hb₂
  obtain ⟨h₁, h₁', _⟩ := (stored_bytes_come_back s₁ [.tick] .v2 hy₁ hi₁).1 .v1 hx₁ nofun
  obtain ⟨_, _, _, h₂⟩ := (stored_bytes_come_back s₂ [.tick] .v2 hy₂ hi₂).2 .v0 hx₂ nofun (by decide)
  refine ⟨?_, ?_, h₁' .v2 (by decide) (by decide), h₂.trans (congrArg UInt8.toNat hv₀)⟩
  case refine_1 => exact (h₁ .v0 (by decide) (by decide)).trans hv₀
  case refine_2 => exact (h₁ .v1 (by decide) (by decide)).trans hv₁

end Session
end Chip8
