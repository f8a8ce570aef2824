import Chip8.Proofs.MemoryUse

-- Bytes of memory that no cycle reads make no difference. Two machines that differ in such bytes alone go
-- on side by side, and the bytes in which they differ become fewer with every command that writes some.

namespace Chip8
namespace Session

variable {s : Session} {c : Command} {cs : List Command} {memory : Memory} {D : Nat → Prop}

-- The memory of the session's machine and the other one differ in bytes of `D` at most.
def DiffersIn (s : Session) (memory : Memory) (D : Nat → Prop) : Prop :=
  ∀ a, memory.get a ≠ s.machine.state.memory.get a → D a

-- Along commands no cycle reads a byte of `D` that has not been written by then.
def ReadsOutside (s : Session) (D : Nat → Prop) (cs : List Command) : Prop :=
  ∀ cs₁ c cs₂, cs = cs₁ ++ c :: cs₂ → ∀ a ∈ (s.run cs₁).reads c, D a → a ∈ s.written cs₁

theorem ReadsOutside.head (h : s.ReadsOutside D (c :: cs)) : ∀ a ∈ s.reads c, ¬D a :=
  fun a ha hd => List.not_mem_nil (h [] c cs rfl a ha hd)

theorem ReadsOutside.tail (h : s.ReadsOutside D (c :: cs)) :
    (s.step c).1.ReadsOutside (fun a => D a ∧ a ∉ s.writes c) cs := by
  intro cs₁ d cs₂ he a ha ⟨hd, hw⟩
  have hm := h (c :: cs₁) d cs₂ (congrArg (c :: ·) he) a ha hd
  exact (List.mem_append.mp hm).resolve_left hw

theorem ReadsOutside.of_append {ds : List Command} (h : s.ReadsOutside D (cs ++ ds)) :
    s.ReadsOutside D cs := by
  intro cs₁ c cs₂ he
  exact h cs₁ c (cs₂ ++ ds) (by rw [he, List.append_assoc]; rfl)

-- What a command writes, it writes to both memories.
theorem DiffersIn.step (h : s.DiffersIn memory D) (c : Command) :
    (s.step c).1.DiffersIn (memory.put (s.puts c).1 (s.puts c).2) fun a => D a ∧ a ∉ s.writes c := by
  intro a hn
  rw [memory_step] at hn
  by_cases hw : a ∈ s.writes c
  case pos => exact absurd (Memory.get_put_eq_get_put (s.fits_puts c) (absurd hw)) hn
  case neg =>
    refine ⟨h a fun he => hn ?_, hw⟩
    exact Memory.get_put_eq_get_put (s.fits_puts c) fun _ => he

theorem differsIn_run (h : s.DiffersIn memory D) (hr : s.ReadsOutside D cs) :
    (s.withMemory memory).transcript cs = s.transcript cs ∧
      ∃ memory', (s.withMemory memory).run cs = (s.run cs).withMemory memory' ∧
        (s.run cs).DiffersIn memory' fun a => D a ∧ a ∉ s.written cs := by
  induction cs generalizing s memory D
  case nil => exact ⟨rfl, memory, rfl, fun a ha => ⟨h a ha, List.not_mem_nil⟩⟩
  case cons c cs ih =>
    have hs : (s.withMemory memory).step c = _ :=
      step_withMemory fun a ha => Decidable.not_not.mp (mt (h a) (hr.head a ha))
    obtain ⟨ht, memory', hm, hd⟩ := ih (h.step c) hr.tail
    refine ⟨?_, memory', ?_, ?_⟩
    case refine_1 => rw [transcript, transcript, hs, ht]
    case refine_2 => rw [run, hs, hm]; rfl
    case refine_3 =>
      intro a ha
      obtain ⟨⟨hd, hc⟩, hw⟩ := hd a ha
      exact ⟨hd, fun hm => (List.mem_append.mp hm).elim hc hw⟩

-- Two machines that differ only in bytes of `D` answer the same along commands that read no byte of `D`
-- before it is written. After each of the commands they are the same again, but for the bytes of `D` that
-- nothing was written to. The condition is about the first of the machines alone.
theorem unread_bytes_make_no_difference (s : Session) (memory : Memory) (D : Nat → Prop)
    (cs : List Command) (hd : ∀ a, memory.get a ≠ s.machine.state.memory.get a → D a)
    (hr : ∀ cs₁ c cs₂, cs = cs₁ ++ c :: cs₂ →
      ∀ a ∈ (s.run cs₁).reads c, D a → a ∈ s.written cs₁) :
    let t := s.withMemory memory
    t.transcript cs = s.transcript cs ∧
      ∀ cs₁ cs₂, cs = cs₁ ++ cs₂ → ∃ memory', t.run cs₁ = (s.run cs₁).withMemory memory' ∧
        ∀ a, memory'.get a ≠ (s.run cs₁).machine.state.memory.get a → D a ∧ a ∉ s.written cs₁ := by
  intro t
  have hr : s.ReadsOutside D cs := hr
  refine ⟨(differsIn_run hd hr).1, ?_⟩
  intro cs₁ cs₂ he
  exact (differsIn_run hd (he ▸ hr).of_append).2

-- Of two bytes that differ, one is overwritten before it is read and one is never read.
theorem unread_bytes_make_no_difference_behind_store :
    let m := Machine.new {} ⟨.replicate 8 0⟩
    let s : Session :=
      ⟨m.withMemory (m.state.memory.put 0x200 [0xA2, 0x10, 0xF0, 0x55, 0xF0, 0x65]), []⟩
    let t := s.withMemory (s.machine.state.memory.put 0x210 [7, 9])
    let cs := [.cycle, .cycle, .cycle]
    t.transcript cs = s.transcript cs ∧ ∃ memory, t.run cs = (s.run cs).withMemory memory ∧
      ∀ a, a ≠ 0x211 → memory.get a = (s.run cs).machine.state.memory.get a := by
  intro m
  obtain ⟨memory, hp⟩ : ∃ memory,
    m.state.memory.put 0x200 [0xA2, 0x10, 0xF0, 0x55, 0xF0, 0x65] = memory := ⟨_, rfl⟩
  rw [hp]
  intro s t cs
  have hf₀ : memory.fetch 0x200 = .ok 0xA210 :=
    hp ▸ Memory.fetch_put (by decide) (by decide) rfl rfl rfl
  have hf₁ : memory.fetch 0x202 = .ok 0xF055 :=
    hp ▸ Memory.fetch_put (by decide) (by decide) rfl rfl rfl
  have hf₂ : memory.fetch 0x204 = .ok 0xF065 :=
    hp ▸ Memory.fetch_put (by decide) (by decide) rfl rfl rfl
  let m₀ := m.withMemory memory
  let m₁ := { m₀ with state := { m₀.state with pc := 0x202, i := 0x210 } }
  let m₂ := { m₁ with state := { m₁.state with pc := 0x204, memory := memory.put 0x210 [0] } }
  have hf₂ : m₂.state.memory.fetch 0x204 = .ok 0xF065 :=
    (Memory.fetch_put_of_not_mem (.inr (by decide)) (by decide) (by decide)).trans hf₂
  have hb : 0x210 + 1 ≤ Memory.size := by decide
  have he₁ : (Instruction.store .v0).execute m₁.generator.byte m₁.state = .ok m₂.state :=
    Fault.bind_ok_eq_ok_iff.mpr ⟨_, Memory.write_eq_ok_iff.mpr ⟨hb, rfl⟩, rfl⟩
  have he₂ : ∃ s, (Instruction.restore .v0).execute m₂.generator.byte m₂.state = .ok s :=
    ⟨_, Fault.bind_ok_eq_ok_iff.mpr ⟨_, Memory.slice_eq_ok_iff.mpr ⟨hb, rfl⟩, rfl⟩⟩
  obtain ⟨_, he₂⟩ := he₂
  have h₀ : m₀.cycle.machine = m₁ :=
    (Machine.cycle_of_execute (i := .loadIndex ⟨0x210, by decide⟩) rfl hf₀ rfl rfl).1
  have h₁ : m₁.cycle.machine = m₂ := (Machine.cycle_of_execute rfl hf₁ rfl he₁).1
  have hr₀ : m₀.reads = [0x200, 0x201] :=
    (Machine.uses_of_execute (i := .loadIndex ⟨0x210, by decide⟩) rfl hf₀ rfl rfl).1
  have hr₁ : m₁.reads = [0x202, 0x203] := (Machine.uses_of_execute rfl hf₁ rfl he₁).1
  have hr₂ : m₂.reads = [0x204, 0x205, 0x210] := (Machine.uses_of_execute rfl hf₂ rfl he₂).1
  have ho₁ : m₁.output = [0] := (Machine.uses_of_execute rfl hf₁ rfl he₁).2
  have hs₀ : (s.step .cycle).1 = ⟨m₁, []⟩ := congrArg (Session.mk · []) h₀
  have hs₁ : (step ⟨m₁, []⟩ .cycle).1 = ⟨m₂, []⟩ := congrArg (Session.mk · []) h₁
  have hw : ∀ a, a = 0x210 → ∀ ds, a ∈ s.written (.cycle :: .cycle :: ds) := by
    rintro a rfl ds
    have hw₁ : (⟨m₁, []⟩ : Session).writes .cycle = [0x210] := by
      rw [writes, puts, ho₁]
      rfl
    rw [written, written, hs₀, hw₁]
    exact List.mem_append_right _ (List.mem_append_left _ (List.mem_singleton.mpr rfl))
  have hd : ∀ a, t.machine.state.memory.get a ≠ s.machine.state.memory.get a →
      a = 0x210 ∨ a = 0x211 := by
    intro a hn
    have hf : Memory.Fits 0x210 [7, 9] := .inr (by decide)
    have hm : a ∈ List.range' 0x210 2 := Decidable.not_not.mp (mt (Memory.get_put_of_not_mem hf) hn)
    rw [List.mem_range'_1] at hm
    omega
  have hr : ∀ cs₁ c cs₂, cs = cs₁ ++ c :: cs₂ →
      ∀ a ∈ (s.run cs₁).reads c, a = 0x210 ∨ a = 0x211 → a ∈ s.written cs₁ := by
    intro cs₁ c cs₂ he a ha hD
    have he : [.cycle, .cycle, .cycle] = cs₁ ++ c :: cs₂ := he
    obtain _ | ⟨_, _ | ⟨_, _ | ⟨_, cs₁⟩⟩⟩ := cs₁
    case nil =>
      cases he
      have ha : a ∈ m₀.reads := ha
      rw [hr₀] at ha
      simp only [List.mem_cons, List.not_mem_nil, or_false] at ha
      omega
    case cons.nil =>
      cases he
      rw [run, run, hs₀] at ha
      have ha : a ∈ m₁.reads := ha
      rw [hr₁] at ha
      simp only [List.mem_cons, List.not_mem_nil, or_false] at ha
      omega
    case cons.cons.nil =>
      cases he
      rw [run, run, run, hs₀, hs₁] at ha
      have ha : a ∈ m₂.reads := ha
      rw [hr₂] at ha
      simp only [List.mem_cons, List.not_mem_nil, or_false] at ha
      exact hw a (by omega) []
    case cons.cons.cons => simp at he
  obtain ⟨ht, h⟩ := unread_bytes_make_no_difference s _ _ cs hd hr
  obtain ⟨memory', hm, h⟩ := h cs [] rfl
  refine ⟨ht, memory', hm, fun a ha => Decidable.not_not.mp fun hn => ?_⟩
  obtain ⟨hD, hn'⟩ := h a hn
  exact ha (hD.resolve_left fun he => hn' (hw a he [.cycle]))

end Session
end Chip8
