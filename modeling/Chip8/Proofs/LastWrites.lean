import Chip8.Proofs.Embedding.Components
import Chip8.Proofs.MemoryUse

-- Memory as a bounded store. Whatever it was used for before, an access is granted exactly if all of its bytes
-- lie inside, and then it finds in each place the byte that was last written there.

namespace Chip8

namespace Memory

inductive Access where
  | load (program : List UInt8)
  | write (address : Nat) (byte : UInt8)
  | fill (address : Nat) (bytes : List UInt8)
  | read (address : Nat)
  | slice (address length : Nat)
  | fetch (address : UInt16)
deriving DecidableEq, Repr

inductive Answer where
  | done
  | byte (byte : UInt8)
  | bytes (bytes : List UInt8)
  | word (word : Nat)
deriving DecidableEq, Repr

-- What a write leaves behind, which is what was there before if it is refused.
def settle (m : Memory) : Except Fault Memory → Memory × Except Fault Answer
  | .ok m' => (m', .ok .done)
  | .error f => (m, .error f)

def perform (m : Memory) : Access → Memory × Except Fault Answer
  | .load program => m.settle (m.load program)
  | .write address byte => m.settle (m.write address [byte])
  | .fill address bytes => m.settle (m.write address bytes)
  | .read address => (m, (m.read address).map .byte)
  | .slice address length => (m, (m.slice address length).map .bytes)
  | .fetch address => (m, (m.fetch address).map fun word => .word word.toNat)

-- The memory after a list of accesses.
def run (m : Memory) : List Access → Memory
  | [] => m
  | x :: xs => run (m.perform x).1 xs

namespace Access

def address : Access → Nat
  | load _ => 0x200
  | write address _ | fill address _ | read address | slice address _ => address
  | fetch address => address.toNat

def length : Access → Nat
  | load program => program.length
  | write _ _ | read _ => 1
  | fill _ bytes => bytes.length
  | slice _ length => length
  | fetch _ => 2

def Granted : Access → Prop
  | load program => program.length ≤ 3584
  | x => x.address + x.length ≤ 4096

instance : DecidablePred Granted
  | load _ | write _ _ | fill _ _ | read _ | slice _ _ | fetch _ => inferInstanceAs (Decidable (_ ≤ _))

-- Why it fails if it is not granted.
def refusal : Access → Fault
  | load program => .programTooLarge program.length 3584
  | x => .outOfBounds (max x.address 4096)

-- What it is answered if it is granted and memory holds the given bytes.
def answer (byte : Nat → UInt8) : Access → Answer
  | load _ | write _ _ | fill _ _ => .done
  | read address => .byte (byte address)
  | slice address length => .bytes ((List.range length).map fun k => byte (address + k))
  | fetch address => .word (256 * (byte address.toNat).toNat + (byte (address.toNat + 1)).toNat)

def written : Access → List UInt8
  | load program => program
  | write _ byte => [byte]
  | fill _ bytes => bytes
  | read _ | slice _ _ | fetch _ => []

-- The byte that it writes at `k`, if it is granted and does.
def writes? (x : Access) (k : Nat) : Option UInt8 :=
  if x.Granted ∧ x.address ≤ k then x.written[k - x.address]? else none

variable {x : Access} {k : Nat}

theorem writes?_eq_none (h : x.Granted → k < x.address ∨ x.address + x.written.length ≤ k) :
    x.writes? k = none := by
  rw [writes?]
  split
  case isTrue hg =>
    have := h hg.1
    exact List.getElem?_eq_none (by omega)
  case isFalse => rfl

-- Only an access that leaves memory is reported by a place.
theorem of_refusal {a : Nat} (hg : ¬x.Granted) (hr : x.refusal = .outOfBounds a) :
    4096 < x.address + x.length ∧ a = max x.address 4096 := by
  cases x with
  | load => cases hr
  | write | fill | read | slice | fetch =>
    cases hr
    exact ⟨Nat.lt_of_not_le hg, rfl⟩

theorem Granted.fits (h : Granted x) : Fits x.address x.written := by
  cases x with
  | load => exact .inr (Nat.add_le_add_left h 0x200)
  | write | fill => exact .inr h
  | read | slice | fetch => exact .inl rfl

end Access

-- The byte that memory starts with at `k`.
def powerOn (k : Nat) : UInt8 :=
  if 0x050 ≤ k ∧ k ≤ 0x09F then Font.glyphs[k - 0x050]?.getD 0 else 0

-- The byte last written at `k`, or else the one from the start.
def lastByte (history : List Access) (k : Nat) : UInt8 :=
  (history.reverse.findSome? (·.writes? k)).getD (powerOn k)

variable {m : Memory} {x : Access} {xs : List Access} {k : Nat}

theorem get_initial (k : Nat) : initial.get k = powerOn k := by
  have hf : Font.start + Font.glyphs.length ≤ size := by decide
  have hz : (⟨.replicate 4096 0⟩ : Memory).get k = 0 := by
    rw [get, Vector.getElem?_replicate]
    split <;> rfl
  rw [initial, get_put hf, hz]
  exact ite_congr (propext (and_congr_right fun _ => Nat.lt_succ_iff)) (fun _ => rfl) fun _ => rfl

-- Two bytes always make up a word.
theorem toNat_ofNat_bytes (hi lo : UInt8) :
    (UInt16.ofNat (256 * hi.toNat + lo.toNat)).toNat = 256 * hi.toNat + lo.toNat := by
  have := hi.toNat_lt
  have := lo.toNat_lt
  exact UInt16.toNat_ofNat_of_lt' (by simp only [UInt16.size]; omega)

theorem perform_eq (m : Memory) (x : Access) : m.perform x =
    if x.Granted then (m.put x.address x.written, .ok (x.answer m.get))
    else (m, .error x.refusal) := by
  cases x with
  | load | write | fill => exact apply_ite m.settle ..
  | read => exact apply_ite (fun r => (m, Except.map Answer.byte r)) ..
  | slice => exact apply_ite (fun r => (m, Except.map Answer.bytes r)) ..
  | fetch =>
    simp only [Access.answer]
    rw [← toNat_ofNat_bytes]
    exact apply_ite (fun r => (m, Except.map (fun w => Answer.word (UInt16.toNat w)) r)) ..

end Memory

namespace Bare

open Memory

-- Where a range stops, if that is a number of 64 bits and not behind the end.
def range (address length : Nat) : Except Fault Nat :=
  match (sum UInt64.size address length).filter (· ≤ size) with
  | some stop => .ok stop
  | none => .error (.outOfBounds (max address size))

def view (bytes : Vector UInt8 4096) (address length : Nat) (answer : List UInt8 → Option Answer) :
    Option (Vector UInt8 4096 × Except Fault Answer) :=
  match range address length with
  | .ok stop => do
    let taken ← slice bytes address (stop - address)
    return (bytes, .ok (← answer taken))
  | .error f => some (bytes, .error f)

def fill (bytes : Vector UInt8 4096) (address : Nat) (written : List UInt8) :
    Option (Vector UInt8 4096 × Except Fault Answer) :=
  match range address written.length with
  | .ok _ => (overwrite bytes address written).map (·, .ok .done)
  | .error f => some (bytes, .error f)

def access (bytes : Vector UInt8 4096) : Access → Option (Vector UInt8 4096 × Except Fault Answer)
  | .load program =>
    if programLimit < program.length then
      some (bytes, .error (.programTooLarge program.length programLimit))
    else
      fill bytes programStart program
  | .write address byte => fill bytes address [byte]
  | .fill address written => fill bytes address written
  | .read address => view bytes address 1 fun taken => taken[0]?.map .byte
  | .slice address length => view bytes address length fun taken => some (.bytes taken)
  | .fetch address => view bytes address.toNat 2 fun taken => do
    let high ← taken[0]?
    let low ← taken[1]?
    return .word (256 * high.toNat + low.toNat)

-- A sum that overflows is that of a range that leaves memory.
theorem range_eq (address length : Nat) : range address length =
    if address + length ≤ size then .ok (address + length) else .error (outside address) := by
  rw [range, sum]
  by_cases h : address + length ≤ size
  case pos =>
    have hs : address + length < UInt64.size := Nat.lt_of_le_of_lt h (by decide)
    rw [if_pos h, if_pos hs, Option.filter_some, if_pos (decide_eq_true h)]
  case neg =>
    rw [if_neg h]
    by_cases hs : address + length < UInt64.size
    case pos =>
      rw [if_pos hs, Option.filter_some, if_neg (mt of_decide_eq_true h)]
      rfl
    case neg =>
      rw [if_neg hs]
      rfl

theorem view_eq (m : Memory) (address length : Nat) (answer : List UInt8 → Option Answer) :
    view m.bytes address length answer =
      if address + length ≤ size then
        (answer ((List.range length).map fun k => m.get (address + k))).map (m.bytes, .ok ·)
      else some (m.bytes, .error (outside address)) := by
  rw [view, range_eq]
  by_cases h : address + length ≤ size
  case pos =>
    rw [if_pos h, if_pos h]
    simp only [Nat.add_sub_cancel_left, slice_memory h]
    exact Option.map_eq_bind.symm
  case neg => rw [if_neg h, if_neg h]

theorem fill_eq (m : Memory) (address : Nat) (written : List UInt8) :
    fill m.bytes address written =
      if address + written.length ≤ size then some ((m.put address written).bytes, .ok .done)
      else some (m.bytes, .error (outside address)) := by
  rw [fill, range_eq]
  by_cases h : address + written.length ≤ size
  case pos =>
    rw [if_pos h, if_pos h]
    simp only [overwrite_memory h]
    rfl
  case neg => rw [if_neg h, if_neg h]

-- Words and plain bytes are as good as numbers, and no index is ever out of bounds.
theorem access_eq (m : Memory) (x : Access) :
    access m.bytes x = some ((m.perform x).1.bytes, (m.perform x).2) := by
  rw [Memory.perform_eq]
  by_cases h : x.Granted
  case pos =>
    rw [if_pos h]
    cases x with
    | load program =>
      refine (if_neg (Nat.not_lt.mpr h)).trans ((fill_eq ..).trans (if_pos ?_))
      exact Nat.add_le_add_left h programStart
    | write | fill => exact (fill_eq ..).trans (if_pos h)
    | read | slice | fetch => exact (view_eq ..).trans (if_pos h)
  case neg =>
    rw [if_neg h]
    cases x with
    | load program => exact if_pos (Nat.lt_of_not_le h)
    | write | fill => exact (fill_eq ..).trans (if_neg h)
    | read | slice | fetch => exact (view_eq ..).trans (if_neg h)

end Bare

namespace Memory

variable {m : Memory} {xs : List Access} {k : Nat}

theorem get_perform (m : Memory) (x : Access) (k : Nat) :
    (m.perform x).1.get k = (x.writes? k).getD (m.get k) := by
  rw [perform_eq]
  by_cases h : x.Granted
  case pos =>
    rw [if_pos h]
    refine (get_put_of_fits h.fits k).trans ?_
    by_cases hk : x.address ≤ k ∧ k < x.address + x.written.length
    case pos =>
      have hw : x.writes? k = x.written[k - x.address]? := if_pos ⟨h, hk.1⟩
      rw [if_pos hk, hw, List.getElem?_eq_getElem (by omega)]
      rfl
    case neg =>
      rw [if_neg hk, Access.writes?_eq_none fun _ => by omega]
      rfl
  case neg =>
    rw [if_neg h, Access.writes?_eq_none fun hg => absurd hg h]
    rfl

theorem get_run (m : Memory) (xs : List Access) (k : Nat) :
    (m.run xs).get k = (xs.reverse.findSome? (·.writes? k)).getD (m.get k) := by
  induction xs generalizing m with
  | nil => rfl
  | cons x xs ih =>
    rw [run, ih, get_perform, List.reverse_cons, List.findSome?_append]
    cases xs.reverse.findSome? (·.writes? k) <;> simp

theorem get_run_of_not_written (h : ∀ x ∈ xs, x.writes? k = none) : (m.run xs).get k = m.get k := by
  rw [get_run, List.findSome?_eq_none_iff.mpr fun x hx => h x (List.mem_reverse.mp hx)]
  rfl

theorem get_run_initial (history : List Access) (k : Nat) :
    (initial.run history).get k = lastByte history k := by
  rw [get_run, get_initial]
  rfl

-- A program stays where later ones do not reach.
theorem get_run_loads {program : List UInt8} {later : List (List UInt8)} {b : UInt8}
    (hp : program.length ≤ 3584) (hb : program[k]? = some b)
    (hl : ∀ p ∈ later, p.length ≤ k ∨ 3584 < p.length) :
    (m.run (.load program :: later.map .load)).get (0x200 + k) = b := by
  have hs : (Access.load program).writes? (0x200 + k) = some b := by
    refine (if_pos ⟨hp, Nat.le_add_right ..⟩).trans ?_
    exact (congrArg (program[·]?) (Nat.add_sub_cancel_left ..)).trans hb
  have hn : ∀ x ∈ later.map Access.load, x.writes? (0x200 + k) = none := by
    intro x hx
    obtain ⟨p, hm, rfl⟩ := List.mem_map.mp hx
    refine Access.writes?_eq_none fun hg => .inr ?_
    exact Nat.add_le_add_left ((hl p hm).resolve_right (Nat.not_lt.mpr hg)) 0x200
  rw [run, get_run_of_not_written hn, get_perform, hs]
  rfl

-- After any history an access is granted exactly if its range lies inside. It is then answered what was last
-- written, and otherwise it fails and writes nothing. A range that is not empty is then reported by the first
-- of its places outside. All of that is so for words and plain bytes, too. A program is there until something
-- else is written in its place, so one that was longer shows behind the others.
theorem bounded_store (history : List Access) (x : Access) :
    let m := initial.run history
    (m.perform x).2 =
        (if x.Granted then .ok (x.answer (lastByte history)) else .error x.refusal) ∧
      (¬x.Granted → (m.perform x).1 = m) ∧
      (∀ k, m.get k = lastByte history k) ∧
      (∀ a, ¬x.Granted → x.refusal = .outOfBounds a → 0 < x.length →
        (x.address ≤ a ∧ a < x.address + x.length ∧ 4096 ≤ a) ∧
          ∀ k, x.address ≤ k → 4096 ≤ k → a ≤ k) ∧
      Bare.access m.bytes x = some ((m.perform x).1.bytes, (m.perform x).2) ∧
      ∀ (program : List UInt8) (later : List (List UInt8)) k b, program.length ≤ 3584 →
        program[k]? = some b → (∀ p ∈ later, p.length ≤ k ∨ 3584 < p.length) →
        (m.run (.load program :: later.map .load)).get (0x200 + k) = b := by
  intro m
  have hg := get_run_initial history
  refine ⟨?_, fun hn => ?_, hg, fun a hn hr hl => ?_, Bare.access_eq m x, fun _ _ _ _ => get_run_loads⟩
  case refine_1 =>
    rw [perform_eq, funext hg]
    exact apply_ite Prod.snd ..
  case refine_2 => rw [perform_eq, if_neg hn]
  case refine_3 =>
    obtain ⟨ho, rfl⟩ := Access.of_refusal hn hr
    exact ⟨by omega, fun k hk hs => Nat.max_le.mpr ⟨hk, hs⟩⟩

-- A slice that stops behind the end, and a program of one byte over one of three bytes.
theorem bounded_store_past_end :
    let x := Access.slice 0xFFE 3
    let m := initial.run [.fill 0xFFE [1, 2], .write 0x1000 3]
    (m.perform x).2 = .error (.outOfBounds 0x1000) ∧ (m.perform x).1 = m ∧
      (∀ k, 0xFFE ≤ k → 4096 ≤ k → 0x1000 ≤ k) ∧
      (m.run [.load [4, 5, 6], .load [7]]).get 0x202 = 6 := by
  intro x m
  have hn : ¬x.Granted := by decide
  obtain ⟨hx, hm, _, ha, _, hl⟩ := bounded_store [.fill 0xFFE [1, 2], .write 0x1000 3] x
  refine ⟨hx.trans (if_neg hn), hm hn, (ha 0x1000 hn rfl (by decide)).2, ?_⟩
  exact hl [4, 5, 6] [[7]] 2 6 (by decide) rfl (by decide)

end Memory
end Chip8
