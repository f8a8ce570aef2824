import Chip8.Proofs.Commands
import Chip8.Proofs.Encoding

-- The random bytes that a machine draws, against the stream that its seed fixes: they are the bytes of
-- the stream in their order, and nothing but the instruction that asks for one uses one up.

namespace Chip8

-- A generator as it is read in sequence. It holds what is left of one block, and works out the next block
-- when all words of the last one are used up.
structure Supply where
  key : Key
  -- The block to come.
  counter : UInt64
  words : List UInt32

namespace Supply

def ofKey (key : Key) : Supply := ⟨key, 0, []⟩

def draw (s : Supply) : UInt8 × Supply :=
  match s.words with
  | w :: words => (w.toUInt8, { s with words })
  | [] =>
    let block := ChaCha.block s.key.words s.counter
    ((ChaCha.word block 0).toUInt8,
      { s with counter := s.counter + 1, words := block.toList.drop 1 })

-- The byte that is drawn after `n` others.
def byte (s : Supply) : Nat → UInt8
  | 0 => s.draw.1
  | n + 1 => s.draw.2.byte n

-- The supply has handed out `n` bytes.
structure After (s : Supply) (key : Key) (n : Nat) : Prop where
  key_eq : s.key = key
  counter_eq : s.counter = .ofNat ((n + 15) / 16)
  words_eq : s.words = if n % 16 = 0 then [] else
    (ChaCha.block key.words (.ofNat (n / 16))).toList.drop (n % 16)

namespace After

variable {s : Supply} {key : Key} {n : Nat}

theorem ofKey (key : Key) : (ofKey key).After key 0 :=
  ⟨rfl, rfl, rfl⟩

-- At the end of a block the next one is worked out.
theorem draw_of_dvd (h : s.After key n) (hn : n % 16 = 0) :
    s.draw.1 = key.byteAt n ∧ s.draw.2.After key (n + 1) := by
  have hc : (n + 15) / 16 = n / 16 := by omega
  have hw : s.words = [] := by rw [h.words_eq, if_pos hn]
  have hs : s.draw = ((ChaCha.word (ChaCha.block key.words (.ofNat (n / 16))) 0).toUInt8,
      ⟨key, .ofNat (n / 16) + 1, (ChaCha.block key.words (.ofNat (n / 16))).toList.drop 1⟩) := by
    rw [draw, hw, ← hc, ← h.counter_eq, ← h.key_eq]
  have h₁ : (n + 1) % 16 = 1 := by omega
  have hq : (n + 1) / 16 = n / 16 := by omega
  have hq' : (n + 1 + 15) / 16 = n / 16 + 1 := by omega
  rw [hs, Key.byteAt, hn]
  refine ⟨rfl, rfl, ?_, ?_⟩
  case refine_1 => rw [hq', UInt64.ofNat_add]; rfl
  case refine_2 => rw [h₁, hq, if_neg Nat.one_ne_zero]

theorem draw_of_not_dvd (h : s.After key n) (hn : n % 16 ≠ 0) :
    s.draw.1 = key.byteAt n ∧ s.draw.2.After key (n + 1) := by
  let block := ChaCha.block key.words (.ofNat (n / 16))
  have hl : n % 16 < block.toList.length := by
    rw [Vector.length_toList]
    exact Nat.mod_lt n (by decide)
  have hw : s.words = block.toList[n % 16] :: block.toList.drop (n % 16 + 1) := by
    rw [h.words_eq, if_neg hn, ← List.drop_eq_getElem_cons hl]
  have hb : block.toList[n % 16] = ChaCha.word block (n % 16) := by
    rw [ChaCha.word, ← Vector.getElem?_toList, List.getElem?_eq_getElem hl]
    rfl
  have hs : s.draw = ((ChaCha.word block (n % 16)).toUInt8,
      ⟨key, .ofNat ((n + 15) / 16), block.toList.drop (n % 16 + 1)⟩) := by
    rw [draw, hw, hb, ← h.counter_eq, ← h.key_eq]
  have hq : (n + 15) / 16 = (n + 1 + 15) / 16 := by omega
  rw [hs, hq]
  refine ⟨rfl, rfl, rfl, ?_⟩
  by_cases he : n % 16 + 1 = 16
  case pos =>
    have h₀ : (n + 1) % 16 = 0 := by omega
    rw [if_pos h₀, he]
    exact List.drop_of_length_le (Nat.le_of_eq (Vector.length_toList ..))
  case neg =>
    have h₁ : (n + 1) % 16 = n % 16 + 1 := by omega
    have hq : (n + 1) / 16 = n / 16 := by omega
    rw [h₁, hq, if_neg (Nat.succ_ne_zero _)]

theorem draw (h : s.After key n) : s.draw.1 = key.byteAt n ∧ s.draw.2.After key (n + 1) := by
  by_cases hn : n % 16 = 0
  case pos => exact h.draw_of_dvd hn
  case neg => exact h.draw_of_not_dvd hn

theorem byte_eq (h : s.After key n) (k : Nat) : s.byte k = key.byteAt (n + k) := by
  induction k generalizing s n
  case zero => exact h.draw.1
  case succ k ih =>
    rw [byte, ih h.draw.2, Nat.add_right_comm]
    rfl

end After

-- What is read in sequence can be looked up anywhere.
theorem byte_ofKey (key : Key) (n : Nat) : (ofKey key).byte n = key.byteAt n := by
  rw [(After.ofKey key).byte_eq, Nat.zero_add]

end Supply

-- The word `Cxkk` that a cycle has executed.
def Reply.random? : Reply → Option Opcode
  | outcome (.executed _ op _) => if op.family = 0xC then some op else none
  | _ => none

theorem Reply.random?_of_not_completes {r : Reply} (h : r.completes = false) : r.random? = none := by
  cases r
  case outcome => cases h
  all_goals rfl

theorem Instruction.family_of_drawsByte {op : Opcode} {i : Instruction} (hd : decode? op = some i)
    (h : i.drawsByte = true) : op.family = 0xC := by
  obtain ⟨x, mask, rfl⟩ := drawsByte_iff.mp h
  cases encodes_of_decode? hd
  case random hf => exact hf

namespace Machine

-- What becomes of the generator where a random byte is asked for, and where none is.
inductive Rolls (m : Machine) : Option Opcode → Machine → Prop
  | keep (hg : n.generator = m.generator) : Rolls m none n
  | roll (hg : n.generator = m.generator.next)
      (hv : n.state.v.get op.x = m.generator.byte &&& op.kk) :
    Rolls m (some op) n

variable {m n : Machine} {t : Transition (Except Fault Outcome)} {i : Instruction} {s : State}
  {op : Opcode} {o : Option Opcode}

theorem Rolls.elapse : m.Rolls o n → m.Rolls o n.elapse
  | keep hg => .keep (n.elapse_generator.trans hg)
  | roll hg hv => by
    rw [elapse_eq]
    exact .roll hg hv

theorem rolls_of_execute (hd : Instruction.decode? op = some i)
    (he : i.execute m.generator.byte m.state = .ok s) :
    m.Rolls (if op.family = 0xC then some op else none) (m.executed i s) := by
  by_cases hf : op.family = 0xC
  case pos =>
    obtain rfl := Option.some.inj (hd.symm.trans (Instruction.decode?_of_encodes (.random hf)))
    cases he
    rw [if_pos hf]
    exact .roll rfl ((Registers.get_set ..).trans (if_pos rfl))
  case neg =>
    rw [if_neg hf]
    exact .keep (if_neg (mt (Instruction.family_of_drawsByte hd) hf))

theorem Cycle.rolls : m.Cycle t → m.Rolls (Reply.ofResult .outcome t.result).random? t.machine
  | wait _ _ => Rolls.elapse (.keep rfl)
  | receive _ _ => Rolls.elapse (.keep rfl)
  | skip _ _ _ _ => Rolls.elapse (.keep rfl)
  | stray _ _ | stop _ _ _ _ | refuse _ _ _ _ => .keep rfl
  | execute _ _ hd he => (rolls_of_execute hd he).elapse

end Machine

-- What an executed `Cxkk` has left in its register, under the mask `kk`.
structure Roll where
  mask : UInt8
  result : UInt8
deriving DecidableEq, Repr

namespace Session

variable {s : Session} {c : Command} {cs cs₁ cs₂ : List Command} {op : Opcode}

def roll? (s : Session) (c : Command) : Option Roll :=
  (s.step c).2.1.random?.map fun op => ⟨op.kk, (s.step c).1.machine.state.v.get op.x⟩

-- What the words `Cxkk` leave that are executed along commands, the oldest first.
def rolls (s : Session) (cs : List Command) : List Roll :=
  s.gather roll? cs

theorem rolls_cons : s.rolls (c :: cs) = (s.roll? c).toList ++ (s.step c).1.rolls cs := rfl

theorem rolls_append : s.rolls (cs₁ ++ cs₂) = s.rolls cs₁ ++ (s.run cs₁).rolls cs₂ :=
  gather_append ..

theorem generator_step (hc : c ≠ .cycle) :
    (s.step c).1.machine.generator = s.machine.generator := by
  obtain hm | ⟨mv, hm, _, hc'⟩ := s.machine_step_cases c
  case inl => rw [hm]
  case inr =>
    rw [hm]
    by_cases hr : mv = .reset
    case pos => rw [hr]; rfl
    case neg =>
      obtain ⟨_, _, _, _, ha, _⟩ := s.machine.act_of_host hr (mt hc' hc)
      rw [ha]

-- Only a cycle that executes `Cxkk` touches the generator.
theorem rolls_step (s : Session) (c : Command) :
    s.machine.Rolls (s.step c).2.1.random? (s.step c).1.machine := by
  by_cases hc : c = .cycle
  case pos => exact hc ▸ s.machine.cycle_goes.rolls
  case neg =>
    rw [Reply.random?_of_not_completes (s.completes_step hc)]
    exact .keep (generator_step hc)

theorem generator_of_roll? (s : Session) (c : Command) :
    let g := s.machine.generator
    (s.roll? c = none ∧ (s.step c).1.machine.generator = g) ∨
      ∃ r, s.roll? c = some r ∧ (s.step c).1.machine.generator = g.next ∧ r.result = g.byte &&& r.mask := by
  intro g
  have h := s.rolls_step c
  rw [roll?]
  generalize (s.step c).1.machine = n at h
  generalize (s.step c).2.1.random? = o at h
  cases h
  case keep hg => exact .inl ⟨rfl, hg⟩
  case roll hg hv => exact .inr ⟨_, rfl, hg, hv⟩

theorem roll?_of_ne (hc : c ≠ .cycle) : s.roll? c = none := by
  rw [roll?, Reply.random?_of_not_completes (s.completes_step hc)]
  rfl

-- A word `Cxkk` that is fetched is executed.
theorem roll?_of_fetch (hw : s.machine.state.waiting = none)
    (hf : s.machine.state.memory.fetch s.machine.state.pc = .ok op) (ho : op.family = 0xC) :
    ∃ r, s.roll? .cycle = some r ∧ r.mask = op.kk := by
  have hd := Instruction.decode?_of_encodes (.random ho)
  have hs := step_cycle (s := s) (.execute hw hf hd rfl)
  have hr : (s.step .cycle).2.1.random? = some op := by
    rw [hs]
    exact if_pos ho
  exact ⟨_, by rw [roll?, hr]; rfl, rfl⟩

theorem rolls_run (s : Session) (cs : List Command) :
    let g := s.machine.generator
    (s.run cs).machine.generator = ⟨g.key, g.position + (s.rolls cs).length⟩ ∧
      ∀ k r, (s.rolls cs)[k]? = some r → r.result = g.key.byteAt (g.position + k) &&& r.mask := by
  induction cs generalizing s
  case nil => exact ⟨rfl, nofun⟩
  case cons c cs ih =>
    intro g
    have ⟨hp, hr⟩ := ih (s.step c).1
    rw [run, hp, rolls_cons]
    cases s.generator_of_roll? c
    case inl h =>
      obtain ⟨ho, hg⟩ := h
      rw [hg] at hr ⊢
      rw [ho]
      exact ⟨rfl, hr⟩
    case inr h =>
      obtain ⟨r, ho, hg, hv⟩ := h
      rw [hg] at hr ⊢
      rw [ho]
      refine ⟨?_, ?_⟩
      case refine_1 => exact congrArg (Generator.mk g.key) (Nat.add_right_comm ..)
      case refine_2 =>
        intro k r' hk
        cases k
        case zero => exact Option.some.inj hk ▸ hv
        case succ k =>
          rw [← Nat.add_assoc, Nat.add_right_comm]
          exact hr k r' hk

-- The bytes of a seeded machine are those of the stream in their order, however often it is reset and
-- whatever else it executes. As far as the count of blocks goes, byte `k` is the low byte of word `k % 16`
-- of block `k / 16`. An executed `Cxkk` uses up one byte, also under an empty mask, and no other command
-- uses up any.
theorem random_bytes_follow_seed (config : Config) (seed : UInt64) (entropy : Key) (cs : List Command) :
    let s₀ := new { config with seed := some seed } entropy
    let s := s₀.run cs
    let key := Key.ofSeed seed
    let stream := (Supply.ofKey key).byte
    (∀ k r, (s₀.rolls cs)[k]? = some r → r.result = stream k &&& r.mask) ∧
    (∀ k, k < 16 * UInt64.size → ∃ counter : UInt64, counter.toNat = k / 16 ∧
      stream k = (ChaCha.word (ChaCha.block key.words counter) (k % 16)).toUInt8) ∧
    s.machine.generator = ⟨key, (s₀.rolls cs).length⟩ ∧
    ∀ c, (s.step c).1.machine.generator =
      if (s.roll? c).isSome then s.machine.generator.next else s.machine.generator := by
  intro s₀ s key stream
  have ⟨hg, hr⟩ := s₀.rolls_run cs
  refine ⟨?_, ?_, ?_, ?_⟩
  case refine_1 =>
    intro k r hk
    have hb : r.result = key.byteAt (0 + k) &&& r.mask := hr k r hk
    rw [hb, Nat.zero_add, ← Supply.byte_ofKey]
  case refine_2 =>
    intro k hk
    have hq : k / 16 < UInt64.size := Nat.div_lt_of_lt_mul hk
    exact ⟨.ofNat (k / 16), UInt64.toNat_ofNat_of_lt' hq, Supply.byte_ofKey key k⟩
  case refine_3 =>
    have hg : s.machine.generator = ⟨key, 0 + (s₀.rolls cs).length⟩ := hg
    rw [hg, Nat.zero_add]
  case refine_4 =>
    intro c
    cases s.generator_of_roll? c
    case inl h => rw [h.1, h.2]; rfl
    case inr h =>
      obtain ⟨r, ho, hg, _⟩ := h
      rw [ho, hg]
      rfl

-- One byte is asked for before a reset, and one behind it under a mask.
theorem random_bytes_follow_seed_eight :
    let s := new { seed := some 8 } ⟨.replicate 8 0⟩
    s.rolls [.load [0xC0, 0xFF], .cycle, .reset, .load [0xC1, 0x0F], .cycle] =
      [⟨0xFF, 178⟩, ⟨0x0F, 3⟩] := by
  intro s
  let cs : List Command := [.load [0xC0, 0xFF], .cycle, .reset, .load [0xC1, 0x0F], .cycle]
  let s₁ := (s.step (.load [0xC0, 0xFF])).1
  let s₂ := s₁.run [.cycle, .reset, .load [0xC1, 0x0F]]
  have hf₁ : s₁.machine.state.memory.fetch 0x200 = .ok 0xC0FF :=
    Memory.fetch_put (by decide) (by decide) rfl rfl rfl
  have hf₂ : s₂.machine.state.memory.fetch 0x200 = .ok 0xC10F :=
    Memory.fetch_put (by decide) (by decide) rfl rfl rfl
  obtain ⟨r₁, h₁, hm₁⟩ := s₁.roll?_of_fetch rfl hf₁ rfl
  obtain ⟨r₂, h₂, hm₂⟩ := s₂.roll?_of_fetch rfl hf₂ rfl
  have hr : s.rolls cs = [r₁, r₂] := by
    have hl : ∀ t program, roll? t (.load program) = none := fun t _ => t.roll?_of_ne (by simp)
    have hq : ∀ t, roll? t .reset = none := fun t => t.roll?_of_ne (by simp)
    change (s.roll? (.load [0xC0, 0xFF])).toList ++ ((s₁.roll? .cycle).toList ++
      ((roll? _ .reset).toList ++ ((roll? _ (.load [0xC1, 0x0F])).toList ++
        ((s₂.roll? .cycle).toList ++ [])))) = _
    rw [hl, h₁, hq, hl, h₂]
    rfl
  obtain ⟨hv, _⟩ := random_bytes_follow_seed {} 8 ⟨.replicate 8 0⟩ cs
  have hv₁ := hv 0 r₁ (congrArg (·[0]?) hr)
  have hv₂ := hv 1 r₂ (congrArg (·[1]?) hr)
  have hb₁ : (Key.ofSeed 8).byteAt 0 = 178 := by decide +kernel
  have hb₂ : (Key.ofSeed 8).byteAt 1 = 3 := by decide +kernel
  rw [Supply.byte_ofKey, hb₁, hm₁] at hv₁
  rw [Supply.byte_ofKey, hb₂, hm₂] at hv₂
  have he₁ : r₁ = ⟨0xFF, 178⟩ := congr (congrArg Roll.mk hm₁) hv₁
  have he₂ : r₂ = ⟨0x0F, 3⟩ := congr (congrArg Roll.mk hm₂) hv₂
  exact hr.trans (by rw [he₁, he₂])

end Session
end Chip8
