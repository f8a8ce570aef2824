import Chip8.Execution.Event

-- The lines that make up the log, and what can be read off them again. The line of an executed instruction is
-- plain text, so whoever wants to know what it tells has to find the numbers in it.

namespace Chip8
namespace Hex

-- What a digit counts, if it is one.
def digit? (c : Char) : Option Nat :=
  if '0' ≤ c ∧ c ≤ '9' then some (c.toNat - '0'.toNat)
  else if 'A' ≤ c ∧ c ≤ 'F' then some (c.toNat - 'A'.toNat + 10)
  else none

def value (cs : List Char) : Nat :=
  cs.foldl (fun n c => 16 * n + (digit? c).getD 0) 0

-- The numbers in a text: its longest runs of digits.
def numbers (cs : List Char) : List Nat :=
  ((cs.splitOnP fun c => (digit? c).isNone).filter (· ≠ [])).map value

variable {c : Char} {cs ds : List Char} {d n width : Nat}

theorem value_concat (cs : List Char) (c : Char) :
    value (cs ++ [c]) = 16 * value cs + (digit? c).getD 0 := by
  rw [value, List.foldl_append]
  rfl

theorem value_zeros (k : Nat) (cs : List Char) : value (List.replicate k '0' ++ cs) = value cs := by
  induction k with
  | zero => rfl
  | succ k ih => exact ih

theorem digit?_digitChar (h : d < 16) : digit? d.digitChar.toUpper = some d := by
  have hs : ∀ d ∈ List.range 16, digit? d.digitChar.toUpper = some d := by decide
  exact hs d (List.mem_range.mpr h)

-- The digits of a number are digits, and they count what the number is. By its last digit.
theorem reads_toDigits (n : Nat) :
    (∀ c ∈ (Nat.toDigits 16 n).map Char.toUpper, (digit? c).isSome) ∧
      value ((Nat.toDigits 16 n).map Char.toUpper) = n := by
  induction n using Nat.strongRecOn with
  | ind n ih =>
    by_cases h : n < 16
    case pos =>
      have hd := digit?_digitChar h
      rw [Nat.toDigits_of_lt_base h, List.map_singleton, List.forall_mem_singleton]
      exact ⟨by rw [hd]; rfl, by simp [value, hd]⟩
    case neg =>
      have hd := digit?_digitChar (Nat.mod_lt n (by decide : 0 < 16))
      obtain ⟨hs, hv⟩ := ih (n / 16) (by omega)
      rw [Nat.toDigits_of_base_le (by decide) (Nat.le_of_not_lt h), List.map_append, List.map_singleton,
        List.forall_mem_append, List.forall_mem_singleton, value_concat, hv, hd, Option.getD_some]
      exact ⟨⟨hs, rfl⟩, Nat.div_add_mod n 16⟩

-- Texts are read number by number: what is no digit ends one.
theorem numbers_append_cons (cs ds : List Char) (h : digit? c = none) :
    numbers (cs ++ c :: ds) = numbers cs ++ numbers ds := by
  rw [numbers, List.splitOnP_append_cons cs ds (by rw [h]; rfl), List.filter_append, List.map_append]
  rfl

theorem numbers_cons (cs : List Char) (h : digit? c = none) : numbers (c :: cs) = numbers cs :=
  numbers_append_cons [] cs h

theorem numbers_concat (cs : List Char) (h : digit? c = none) : numbers (cs ++ [c]) = numbers cs := by
  rw [numbers_append_cons cs [] h]
  exact List.append_nil _

theorem numbers_of_digits (hs : ∀ c ∈ cs, (digit? c).isSome) (hn : cs ≠ []) : numbers cs = [value cs] := by
  have hp : ∀ c ∈ cs, (digit? c).isNone = false := fun c hc => by
    rw [Option.isNone_eq_false_iff, hs c hc]
  rw [numbers, List.splitOnP_eq_singleton hp, List.filter_cons_of_pos (by simpa using hn)]
  rfl

@[simp]
theorem numbers_digits (width n : Nat) : numbers (digits width n).toList = [n] := by
  obtain ⟨hs, hv⟩ := reads_toDigits n
  rw [digits, String.toList_ofList, List.leftpad, numbers_of_digits, value_zeros, hv]
  case hs =>
    rw [List.forall_mem_append]
    exact ⟨fun c hc => List.eq_of_mem_replicate hc ▸ rfl, hs⟩
  case hn => simp [Nat.toDigits_ne_nil]

theorem numbers_append_of_none (hc : ∀ c ∈ cs, digit? c = none) (ds : List Char) :
    numbers (cs ++ ds) = numbers ds := by
  induction cs with
  | nil => rfl
  | cons c cs ih =>
    have ⟨h, hc⟩ := List.forall_mem_cons.mp hc
    exact (numbers_cons _ h).trans (ih hc)

theorem numbers_intercalate (h : digit? c = none) (hs : ∀ c ∈ cs, digit? c = none)
    (texts : List (List Char)) : numbers ((c :: cs).intercalate texts) = texts.flatMap numbers := by
  induction texts with
  | nil => rfl
  | cons text texts ih =>
    cases texts with
    | nil => simp
    | cons text' texts =>
      rw [List.intercalate_cons_cons, List.flatMap_cons, ← ih, List.append_assoc, List.cons_append,
        numbers_append_cons _ _ h, numbers_append_of_none hs]

end Hex

structure Line where
  level : Level
  message : String
  fields : List (String × Nat)
deriving DecidableEq, Repr

-- What the line of an executed instruction tells.
structure Trace where
  address : Nat
  opcode : Nat
  v : List Nat
  i : Nat
  pc : Nat
deriving DecidableEq, Repr

namespace Line

-- Where the instruction came from stands in front and what it has left at the end. Between them stands its name,
-- in which some letters may pass for digits.
def trace? (l : Line) : Option Trace :=
  match l.level, Hex.numbers l.message.toList, (Hex.numbers l.message.toList).reverse with
  | .trace, address :: opcode :: _, pc :: i :: v => some { address, opcode, v := (v.take 16).reverse, i, pc }
  | _, _, _ => none

def waits (x : Register) : Line :=
  ⟨.debug, "waiting for key", [("register", x)]⟩

def received (x : Register) (key : Fin 16) : Line :=
  ⟨.debug, "key received", [("register", x), ("key", key)]⟩

def reset : Line :=
  ⟨.debug, "reset", []⟩

def skipped (address : UInt16) (op : Opcode) : Line :=
  ⟨.warn, Hex.digits 4 op.toNat ++ " at " ++ Hex.digits 3 address.toNat ++
    " is not a Chip-8 instruction, skipping", []⟩

def failed (pc : UInt16) (f : Fault) : Line :=
  ⟨.error, "cycle failed: " ++ f.message, [("pc", pc.toNat)]⟩

theorem waits_inj {x x' : Register} : waits x = waits x' ↔ x = x' := by
  simp [waits, Fin.ext_iff]

theorem received_inj {x x' : Register} {key key' : Fin 16} :
    received x key = received x' key' ↔ x = x' ∧ key = key' := by
  simp [received, Fin.ext_iff]

-- It tells of no instruction and no failure, and a wait does not begin or end with it.
structure Quiet (l : Line) : Prop where
  trace? : l.trace? = none
  level : l.level ≠ .warn ∧ l.level ≠ .error
  message : l.message ∉ ["waiting for key", "key received", "reset"]

end Line

namespace Event

def line (e : Event) : Line :=
  ⟨e.level, e.message, e.fields⟩

theorem numbers_registerList (v : Registers) :
    Hex.numbers (registerList v).toList = v.bytes.toList.map UInt8.toNat := by
  have hc : ", ".toList = [',', ' '] := rfl
  have hs : (registerList v).toList = '[' :: [',', ' '].intercalate
      ((v.bytes.toList.map fun b => Hex.digits 2 b.toNat).map String.toList) ++ [']'] := by
    simp [registerList, String.toList_intercalate, hc]
  rw [hs, Hex.numbers_concat _ (by decide), Hex.numbers_cons _ (by decide),
    Hex.numbers_intercalate (by decide) (List.forall_mem_singleton.mpr (by decide)), List.flatMap_map,
    List.flatMap_map]
  simp only [Hex.numbers_digits]
  exact List.map_eq_flatMap.symm

-- The name of the instruction may add numbers of its own.
theorem numbers_message (address : UInt16) (op : Opcode) (n : Instruction) (v : Registers) (i pc : UInt16) :
    ∃ name, Hex.numbers (executed address op n v i pc).message.toList =
      address.toNat :: op.toNat :: (name ++ v.bytes.toList.map UInt8.toNat ++ [i.toNat, pc.toNat]) := by
  refine ⟨Hex.numbers (n.mnemonic.toList.rightpad 14 ' '), ?_⟩
  rw [message, String.toList_intercalate]
  change Hex.numbers ([' '].intercalate _) = _
  rw [Hex.numbers_intercalate (by decide) (List.forall_mem_nil _)]
  simp (disch := decide) [Hex.numbers_cons, numbers_registerList]

-- Whatever is reported of an instruction can be read back from its line.
theorem trace?_executed {address i pc : UInt16} {op : Opcode} {n : Instruction} {v : Registers} :
    (executed address op n v i pc).line.trace? =
      some ⟨address.toNat, op.toNat, v.bytes.toList.map UInt8.toNat, i.toNat, pc.toNat⟩ := by
  obtain ⟨name, hn⟩ := numbers_message address op n v i pc
  have hl : (v.bytes.toList.map UInt8.toNat).reverse.length = 16 := by simp
  have hr : (Hex.numbers (executed address op n v i pc).line.message.toList).reverse =
      pc.toNat :: i.toNat :: ((v.bytes.toList.map UInt8.toNat).reverse ++
        (name.reverse ++ [op.toNat, address.toNat])) := by
    rw [line, hn]
    simp
  rw [Line.trace?, hr, line, hn]
  simp only [level, List.take_left' hl, List.reverse_reverse]

end Event
end Chip8
