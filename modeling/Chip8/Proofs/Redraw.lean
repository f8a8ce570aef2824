import Chip8.Move
import Chip8.Proofs.Cycle
import Chip8.Proofs.Execution

-- What the redraw flag tells. While the flag is down nothing has been drawn since a frame was last
-- collected, but for one thing: a reset blanks the display and takes the flag down with it.

namespace Chip8
namespace Machine

variable {m : Machine} {t : Transition (Except Fault Outcome)} {mv : Move} {mvs : List Move}

-- Only a cycle that raises the flag touches the display.
theorem Cycle.display : m.Cycle t → t.machine.state.redraw = false →
    m.state.redraw = false ∧ t.machine.state.display = m.state.display
  | wait _ _, h => by
    rw [elapse_redraw] at h
    exact ⟨h, elapse_display _⟩
  | receive _ _, h | skip _ _ _ _, h => by
    rw [elapse_redraw] at h
    exact ⟨h, elapse_display _⟩
  | stray _ _, h | stop _ _ _ _, h | refuse _ _ _ _, h => ⟨h, rfl⟩
  | execute _ _ _ he, h => by
    rw [elapse_redraw] at h
    rw [elapse_display]
    exact (Instruction.execute_yields he).display h

theorem act_display (hr : mv ≠ .reset) (hf : mv ≠ .collectFrame)
    (h : (m.act mv).state.redraw = false) :
    m.state.redraw = false ∧ (m.act mv).state.display = m.state.display := by
  cases mv
  case reset | collectFrame => contradiction
  case cycle => exact m.cycle_goes.display h
  case load program =>
    simp only [act, load] at h ⊢
    split at h <;> exact ⟨h, rfl⟩
  case setHeld key held =>
    simp only [act, setHeld] at h ⊢
    split at h <;> exact ⟨h, rfl⟩
  case tick | deliver => exact ⟨h, rfl⟩

-- The display when a frame was last collected along the moves, and `seen` if none was.
def lastSeen (m : Machine) (seen : Display) : List Move → Display
  | [] => seen
  | mv :: mvs => (m.act mv).lastSeen (if mv = .collectFrame then m.state.display else seen) mvs

end Machine

-- Whether the moves reset the machine after they last collected a frame; `since` if they do neither.
def Move.resetSince (since : Bool) : List Move → Bool
  | [] => since
  | .reset :: mvs => resetSince true mvs
  | .collectFrame :: mvs => resetSince false mvs
  | _ :: mvs => resetSince since mvs

namespace Machine

variable {m : Machine} {mv : Move} {mvs : List Move} {seen : Display} {since : Bool}

-- While the flag is down the display is the one last seen, or blank if a reset came after it.
def Told (m : Machine) (seen : Display) (since : Bool) : Prop :=
  m.state.redraw = false → m.state.display = if since then .blank else seen

theorem Told.run (h : m.Told seen since) :
    (m.run mvs).Told (m.lastSeen seen mvs) (Move.resetSince since mvs) := by
  induction mvs generalizing m seen since
  case nil => exact h
  case cons mv mvs ih =>
    by_cases hr : mv = .reset
    case pos =>
      subst hr
      exact ih fun _ => rfl
    by_cases hf : mv = .collectFrame
    case pos =>
      subst hf
      exact ih fun _ => rfl
    case neg =>
      have hs : Move.resetSince since (mv :: mvs) = Move.resetSince since mvs := by
        cases mv <;> first | rfl | contradiction
      rw [Machine.run, lastSeen, if_neg hf, hs]
      refine ih fun hd => ?_
      have ⟨hd, he⟩ := act_display hr hf hd
      exact he ▸ h hd

theorem collectFrame_eq_some_iff {d : Display} :
    m.collectFrame.2 = some d ↔ m.state.redraw = true ∧ m.state.display = d := by
  simp [collectFrame]

theorem collectFrame_eq_none_iff : m.collectFrame.2 = none ↔ m.state.redraw = false := by
  simp [collectFrame]

-- A frame that is collected is the display. Where none is, the display is the one last seen, unless
-- the machine was reset since: then it is blank, which hides the change if the last one was lit.
theorem collectFrame_tells (config : Config) (entropy : Key) (mvs : List Move) :
    let m := (new config entropy).run mvs
    let seen := (new config entropy).lastSeen .blank mvs
    let since := Move.resetSince false mvs
    (∀ d, m.collectFrame.2 = some d → d = m.state.display) ∧
    (m.collectFrame.2 = none →
      m.state.display = (if since then .blank else seen) ∧
      (m.state.display = seen ↔ since = false ∨ seen = .blank)) := by
  intro m seen since
  refine ⟨?_, ?_⟩
  case refine_1 =>
    intro d h
    exact (collectFrame_eq_some_iff.mp h).2.symm
  case refine_2 =>
    intro h
    have ht : (new config entropy).Told .blank false := fun _ => rfl
    have hd : m.state.display = if since then .blank else seen :=
      ht.run (collectFrame_eq_none_iff.mp h)
    refine ⟨hd, ?_⟩
    rw [hd]
    cases since
    case false => simp
    case true => simp [eq_comm]

-- A sprite is drawn and collected, and the machine is reset.
theorem collectFrame_misses_reset :
    let m := (new {} ⟨.replicate 8 0⟩).run [.load [0xA2, 0x00, 0xD0, 0x01], .cycle, .cycle]
    let m' := m.run [.collectFrame, .reset]
    m.collectFrame.2 = some m.state.display ∧ m'.collectFrame.2 = none ∧
      m'.state.display ≠ m.state.display := by
  intro m m'
  let m₀ := new {} ⟨.replicate 8 0⟩
  obtain ⟨memory, hp, hl⟩ : ∃ memory, memory = Memory.initial.put 0x200 [0xA2, 0x00, 0xD0, 0x01] ∧
      m₀.act (.load [0xA2, 0x00, 0xD0, 0x01]) = { m₀ with state.memory := memory } := ⟨_, rfl, rfl⟩
  have hf₁ : memory.fetch 0x200 = .ok 0xA200 :=
    hp ▸ Memory.fetch_put (by decide) (by decide) rfl rfl rfl
  have hf₂ : memory.fetch 0x202 = .ok 0xD001 :=
    hp ▸ Memory.fetch_put (by decide) (by decide) rfl rfl rfl
  have hs : memory.slice 0x200 1 = .ok [0xA2] := by
    have hg : memory.get 0x200 = 0xA2 := hp ▸ Memory.get_put (by decide) _
    exact Memory.slice_eq_ok_iff.mpr ⟨by decide, congrArg (· :: []) hg.symm⟩
  let m₁ := { m₀ with state := { m₀.state with memory, pc := 0x202, i := 0x200 } }
  have h₁ : (cycle { m₀ with state.memory := memory }).machine = m₁ :=
    (cycle_of_execute (i := .loadIndex ⟨0x200, by decide⟩) rfl hf₁ rfl rfl).1
  have h₂ := (cycle_of_execute (m := m₁) (i := .draw .v0 .v0 1) rfl hf₂ rfl
    (Instruction.execute_draw hs)).1
  have hm : m = m₁.cycle.machine := by
    change run m₀ _ = _
    rw [run, hl, run, act, h₁, run, act, run]
  rw [h₂] at hm
  have hr : m.state.redraw = true := by rw [hm, elapse_redraw]; rfl
  have hl : m.state.display.isLit ⟨0, by decide⟩ = true := by
    rw [hm, elapse_display, executed, Display.draw, Display.isLit_toggleAll]
    exact congrArg (· ^^ true) (Display.isLit_blank _)
  refine ⟨collectFrame_eq_some_iff.mpr ⟨hr, rfl⟩, rfl, ?_⟩
  intro h
  rw [← h] at hl
  exact Bool.false_ne_true ((Display.isLit_blank _).symm.trans hl)

end Machine
end Chip8
