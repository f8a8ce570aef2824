import Chip8.Proofs.RandomBytes

-- Two machines that differ only in where their random bytes come from. Nothing tells them apart as long
-- as every byte that is asked for is masked out.

namespace Chip8
namespace Instruction

variable {i : Instruction} {op : Opcode}

-- The instruction lets nothing of a random byte through.
def Masked (i : Instruction) : Prop :=
  ∀ x mask, i = random x mask → mask = 0

theorem masked_of_decode? (hd : decode? op = some i) (hk : op.family = 0xC → op.kk = 0) : i.Masked := by
  rintro x mask rfl
  cases encodes_of_decode? hd
  case random hf => exact hk hf

theorem execute_of_masked (hm : i.Masked) (byte byte' : UInt8) (s : State) :
    i.execute byte s = i.execute byte' s := by
  cases i
  case random x mask =>
    obtain rfl := hm x mask rfl
    simp only [execute, UInt8.and_zero]
  all_goals rfl

-- To ask for a random byte is never refused.
theorem masked_of_refused {byte : UInt8} {s : State} {f : Fault} (he : i.execute byte s = .error f) :
    i.Masked := by
  rintro x mask rfl
  cases he

end Instruction

namespace Machine

variable {m : Machine} {t : Transition (Except Fault Outcome)}

-- The machine with its random bytes from another generator.
def reseed (m : Machine) (seed : Option UInt64) (g : Generator) : Machine :=
  { m with config.seed := seed, generator := g }

theorem elapse_reseed (m : Machine) (seed : Option UInt64) (g : Generator) :
    (m.reseed seed g).elapse = m.elapse.reseed seed g := by
  rw [elapse_eq, elapse_eq]
  rfl

theorem Cycle.reseed (seed : Option UInt64) (g : Generator)
    (hm : ∀ op, (Reply.ofResult .outcome t.result).random? = some op → op.kk = 0) :
    m.Cycle t → ∃ g', (m.reseed seed g).Cycle ⟨t.machine.reseed seed g', t.result, t.events⟩
  | wait hw hk => ⟨g, m.elapse_reseed seed g ▸ .wait hw hk⟩
  | receive hw hk => ⟨g, (m.received _ _).elapse_reseed seed g ▸ .receive hw hk⟩
  | stray hw hf => ⟨g, .stray hw hf⟩
  | stop hw hf hd hs => ⟨g, .stop hw hf hd hs⟩
  | skip hw hf hd hs => ⟨g, elapse_reseed _ seed g ▸ .skip hw hf hd hs⟩
  | refuse hw hf hd he =>
    have he' := (Instruction.execute_of_masked (Instruction.masked_of_refused he) _ g.byte _).symm.trans he
    ⟨g, .refuse hw hf hd he'⟩
  | execute (i := i) hw hf hd he =>
    have hi := Instruction.masked_of_decode? hd fun ho => hm _ (if_pos ho)
    have he' := (Instruction.execute_of_masked hi _ g.byte _).symm.trans he
    ⟨if i.drawsByte then g.next else g, (m.executed i _).elapse_reseed seed _ ▸ .execute hw hf hd he'⟩

end Machine

namespace Session

variable {s : Session} {c : Command} {cs : List Command}

def reseed (s : Session) (seed : Option UInt64) (g : Generator) : Session :=
  { s with machine := s.machine.reseed seed g }

theorem step_reseed (seed : Option UInt64) (g : Generator) (hm : ∀ r, s.roll? c = some r → r.mask = 0) :
    ∃ g', (s.reseed seed g).step c = ((s.step c).1.reseed seed g', (s.step c).2) := by
  by_cases hc : c = .cycle
  case neg => exact ⟨g, step_exchange (fun config => { config with seed }) (fun _ => g) id rfl hc⟩
  case pos =>
    subst hc
    have ⟨g', h⟩ := s.machine.cycle_goes.reseed seed g fun op ho => hm _ (congrArg _ ho)
    exact ⟨g', step_cycle (s := s.reseed seed g) h⟩

-- Only the first run has to mask its bytes out: up to there the second one executes the same words.
theorem run_reseed (seed : Option UInt64) (g : Generator) (hm : ∀ r ∈ s.rolls cs, r.mask = 0) :
    ∃ g', (s.reseed seed g).run cs = (s.run cs).reseed seed g' ∧
      (s.reseed seed g).transcript cs = s.transcript cs := by
  induction cs generalizing s g
  case nil => exact ⟨g, rfl, rfl⟩
  case cons c cs ih =>
    have ⟨hc, hcs⟩ := List.forall_mem_append.mp hm
    have ⟨g₁, hs⟩ := step_reseed seed g fun r hr => hc r (Option.mem_toList.mpr hr)
    have ⟨g₂, hr, ht⟩ := ih g₁ hcs
    refine ⟨g₂, ?_, ?_⟩
    case refine_1 => rw [run, hs, hr, run]
    case refine_2 => rw [transcript, hs, ht, transcript]

-- The seed of a machine shows in nothing but the random bytes that are let through: as long as all are
-- masked out in one run, the run under another seed answers and reports the same, and leaves the same
-- state and links behind every command.
theorem seed_shows_in_random_bytes (timer : TimerSource) (strict : Bool) (seed₁ seed₂ : Option UInt64)
    (entropy₁ entropy₂ : Key) (cs : List Command)
    (hm : ∀ r ∈ (new { timer, strict, seed := seed₁ } entropy₁).rolls cs, r.mask = 0) :
    let s := new { timer, strict, seed := seed₁ } entropy₁
    let t := new { timer, strict, seed := seed₂ } entropy₂
    t.transcript cs = s.transcript cs ∧
      ∀ ds, ds <+: cs → (t.run ds).machine.state = (s.run ds).machine.state ∧
        (t.run ds).links = (s.run ds).links := by
  intro s t
  have ht : t = s.reseed seed₂ t.machine.generator := rfl
  refine ⟨?_, ?_⟩
  case refine_1 =>
    have ⟨_, _, h⟩ := run_reseed seed₂ t.machine.generator hm
    exact h
  case refine_2 =>
    rintro ds ⟨es, rfl⟩
    rw [rolls_append] at hm
    have ⟨_, hr, _⟩ := run_reseed seed₂ t.machine.generator (List.forall_mem_append.mp hm).1
    rw [ht, hr]
    exact ⟨rfl, rfl⟩

-- A byte is asked for under an empty mask.
theorem seed_shows_in_random_bytes_let_through :
    let s := new { seed := some 0 } ⟨.replicate 8 0⟩
    let t := new { seed := some 8 } ⟨.replicate 8 0⟩
    let cs := [.load [0xC0, 0x00], .cycle]
    s.machine.generator ≠ t.machine.generator ∧ (s.rolls cs).map Roll.mask = [0] ∧
      t.transcript cs = s.transcript cs ∧ (t.run cs).machine.state = (s.run cs).machine.state := by
  intro s t cs
  let s₁ := (s.step (.load [0xC0, 0x00])).1
  have hf : s₁.machine.state.memory.fetch 0x200 = .ok 0xC000 :=
    Memory.fetch_put (by decide) (by decide) rfl rfl rfl
  obtain ⟨r, h, hk⟩ := s₁.roll?_of_fetch rfl hf rfl
  have hr : s.rolls cs = [r] := by
    change (s.roll? (.load [0xC0, 0x00])).toList ++ ((s₁.roll? .cycle).toList ++ []) = _
    rw [roll?_of_ne (by simp), h]
    rfl
  have hm : ∀ r ∈ s.rolls cs, r.mask = 0 := by
    intro r' hr'
    rw [hr] at hr'
    exact List.mem_singleton.mp hr' ▸ hk
  obtain ⟨ht, hs⟩ : t.transcript cs = s.transcript cs ∧ ∀ ds, ds <+: cs →
      (t.run ds).machine.state = (s.run ds).machine.state ∧ (t.run ds).links = (s.run ds).links :=
    seed_shows_in_random_bytes (.cycles 1) false (some 0) (some 8) ⟨.replicate 8 0⟩ ⟨.replicate 8 0⟩ cs hm
  exact ⟨by decide +kernel, hr ▸ congrArg (· :: []) hk, ht, (hs cs (List.prefix_refl _)).1⟩

end Session
end Chip8
