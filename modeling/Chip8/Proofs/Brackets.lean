-- Calls and returns as brackets: which of the calls in a list of both are still open at its end.

namespace Chip8

-- A call, by the address that it is fetched from, or a return.
inductive Bracket where
  | call (address : UInt16)
  | ret
deriving DecidableEq, Repr

-- Where a call returns to.
def returnAddress (address : UInt16) : UInt16 :=
  address + 2

namespace Bracket

variable {h h₁ h₂ p : List Bracket} {a b : UInt16} {n : Nat} {frames : List UInt16}

def calls : List Bracket → Nat
  | [] => 0
  | call _ :: h => calls h + 1
  | ret :: h => calls h

def returns : List Bracket → Nat
  | [] => 0
  | call _ :: h => returns h
  | ret :: h => returns h + 1

-- The number of returns that match no call in the list.
def excess : List Bracket → Nat
  | [] => 0
  | call _ :: h => excess h - 1
  | ret :: h => excess h + 1

-- The return addresses of the calls that no return in the list matches, the oldest call first.
def pending : List Bracket → List UInt16
  | [] => []
  | call a :: h => if excess h = 0 then returnAddress a :: pending h else pending h
  | ret :: h => pending h

-- The open frames after the calls and returns, where `frames` were open before them. The returns that
-- match no call take the newest of these.
def resume (frames : List UInt16) (h : List Bracket) : List UInt16 :=
  frames.take (frames.length - excess h) ++ pending h

-- No return goes below the depth where the list begins, and the last one comes back to it.
structure Balanced (h : List Bracket) : Prop where
  returns_le : ∀ p, p <+: h → returns p ≤ calls p
  returns_eq : returns h = calls h

-- Prefixes of a list that begins with a bracket are empty or begin with it too.
theorem forall_prefix_cons {x : Bracket} {q : List Bracket → Prop} :
    (∀ p, p <+: x :: h → q p) ↔ q [] ∧ ∀ p, p <+: h → q (x :: p) where
  mp hp := ⟨hp [] List.nil_prefix, fun p ht => hp (x :: p) (List.cons_prefix_cons.mpr ⟨rfl, ht⟩)⟩
  mpr hp p hx := by
    cases List.prefix_cons_iff.mp hx
    case inl hn => exact hn ▸ hp.1
    case inr hc =>
      obtain ⟨t, rfl, ht⟩ := hc
      exact hp.2 t ht

-- A list goes below its depth by as much as its prefixes hold more returns than calls.
theorem excess_le_iff : excess h ≤ n ↔ ∀ p, p <+: h → returns p ≤ calls p + n := by
  induction h generalizing n
  case nil => simp [excess, returns, calls]
  case cons x h ih =>
    rw [forall_prefix_cons]
    cases x
    case call a =>
      have hs : excess (call a :: h) ≤ n ↔ excess h ≤ n + 1 := Nat.sub_le_iff_le_add
      rw [hs, ih]
      simp only [returns, calls, Nat.zero_le, true_and, Nat.add_right_comm _ 1 n, Nat.add_assoc]
    case ret =>
      simp only [excess, returns, calls, Nat.zero_le, true_and]
      cases n
      case zero =>
        refine iff_of_false (Nat.not_succ_le_zero _) fun hp => ?_
        exact absurd (hp [] List.nil_prefix) (Nat.not_succ_le_zero _)
      case succ n =>
        rw [Nat.add_le_add_iff_right, ih]
        simp only [← Nat.add_assoc, Nat.add_le_add_iff_right]

theorem length_pending : (pending h).length + returns h = calls h + excess h := by
  induction h
  case nil => rfl
  case cons x h ih =>
    cases x
    case ret => simp only [pending, returns, calls, excess]; omega
    case call a =>
      simp only [pending, returns, calls, excess]
      split
      case isTrue he => simp only [List.length_cons]; omega
      case isFalse he => omega

theorem resume_nil : resume frames [] = frames := by
  rw [resume, pending, List.append_nil]
  exact List.take_length

theorem resume_call : resume frames (call a :: h) = resume (frames ++ [returnAddress a]) h := by
  rw [resume, resume, pending, excess, List.length_append, List.length_singleton]
  split
  case isTrue he =>
    rw [List.take_of_length_le (by omega), List.take_of_length_le (by simp; omega)]
    exact List.append_cons ..
  case isFalse he =>
    have hn : frames.length + 1 - excess h = frames.length - (excess h - 1) := by omega
    rw [hn, List.take_append_of_le_length (Nat.sub_le ..)]

theorem resume_ret (frame : UInt16) : resume (frames ++ [frame]) (ret :: h) = resume frames h := by
  rw [resume, resume, pending, excess, List.length_append, List.length_singleton]
  rw [Nat.add_sub_add_right, List.take_append_of_le_length (Nat.sub_le ..)]

namespace Balanced

theorem excess (hb : Balanced h) : excess h = 0 :=
  Nat.le_zero.mp (excess_le_iff.mpr hb.returns_le)

theorem pending (hb : Balanced h) : pending h = [] := by
  have hl := length_pending (h := h)
  rw [hb.excess, hb.returns_eq] at hl
  exact List.eq_nil_of_length_eq_zero (by omega)

-- What was open stays open, and nothing else is.
theorem resume (hb : Balanced h) : resume frames h = frames := by
  rw [Bracket.resume, hb.excess, hb.pending, List.append_nil]
  exact List.take_length

theorem of_pending (he : Bracket.excess h = 0) (hp : Bracket.pending h = []) : Balanced h where
  returns_le := excess_le_iff.mp (Nat.le_of_eq he)
  returns_eq := by
    have hl := length_pending (h := h)
    rw [he, hp] at hl
    simpa using hl

end Balanced

-- Behind the newest of the open calls all calls and returns match.
theorem exists_newest (hp : pending h ≠ []) : ∃ h₁ a h₂, h = h₁ ++ call a :: h₂ ∧ Balanced h₂ ∧
    (pending h).getLast? = some (returnAddress a) := by
  induction h
  case nil => contradiction
  case cons x h ih =>
    cases x
    case ret =>
      obtain ⟨h₁, a, h₂, rfl, hb, hl⟩ := ih hp
      exact ⟨ret :: h₁, a, h₂, rfl, hb, hl⟩
    case call b =>
      by_cases he : excess h = 0
      case neg =>
        rw [pending, if_neg he] at hp ⊢
        obtain ⟨h₁, a, h₂, rfl, hb, hl⟩ := ih hp
        exact ⟨call b :: h₁, a, h₂, rfl, hb, hl⟩
      case pos =>
        rw [pending, if_pos he, List.getLast?_cons]
        by_cases hn : pending h = []
        case pos => exact ⟨[], b, h, rfl, .of_pending he hn, by rw [hn]; rfl⟩
        case neg =>
          obtain ⟨h₁, a, h₂, rfl, hb, hl⟩ := ih hn
          exact ⟨call b :: h₁, a, h₂, rfl, hb, by rw [hl]; rfl⟩

end Bracket
end Chip8
