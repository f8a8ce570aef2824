import Chip8.Fault

-- Return addresses of up to 16 nested calls. A pop leaves its slot as it was, so the slots above the
-- depth tell of calls that are over.

namespace Chip8

@[ext]
structure Stack where
  slots : Vector UInt16 16
  depth : Nat
  depth_le : depth ≤ 16
deriving DecidableEq

namespace Stack

def initial : Stack where
  slots := Vector.replicate 16 0
  depth := 0
  depth_le := by omega

-- `caller` is where the call stands.
def push (s : Stack) (address caller : UInt16) : Except Fault Stack :=
  if h : s.depth < 16 then
    .ok ⟨s.slots.set s.depth address, s.depth + 1, h⟩
  else
    .error (.stackOverflow caller)

-- The address on top and the stack below it.
def pop (s : Stack) (caller : UInt16) : Except Fault (UInt16 × Stack) :=
  if h : 0 < s.depth then
    have := s.depth_le
    .ok (s.slots[s.depth - 1], ⟨s.slots, s.depth - 1, by omega⟩)
  else
    .error (.stackUnderflow caller)

-- What a slot holds, above the depth as well.
def slot (s : Stack) (k : Fin 16) : UInt16 :=
  s.slots.get k

-- The open calls, the oldest first.
def frames (s : Stack) : List UInt16 :=
  s.slots.toList.take s.depth

@[simp]
theorem length_frames (s : Stack) : s.frames.length = s.depth := by
  have := s.depth_le
  rw [frames, List.length_take, Vector.length_toList]
  omega

@[simp]
theorem frames_initial : initial.frames = [] := rfl

theorem push_eq_error_iff {s : Stack} {a c : UInt16} {f : Fault} :
    s.push a c = .error f ↔ s.depth = 16 ∧ f = .stackOverflow c := by
  have := s.depth_le
  unfold push
  split
  case isTrue h => exact ⟨(nomatch ·), fun e => absurd h (by omega)⟩
  case isFalse h => exact ⟨fun e => ⟨by omega, (Except.error.inj e).symm⟩, fun e => e.2 ▸ rfl⟩

theorem pop_eq_error_iff {s : Stack} {c : UInt16} {f : Fault} :
    s.pop c = .error f ↔ s.depth = 0 ∧ f = .stackUnderflow c := by
  unfold pop
  split
  case isTrue h => exact ⟨(nomatch ·), fun e => absurd h (by omega)⟩
  case isFalse h => exact ⟨fun e => ⟨by omega, (Except.error.inj e).symm⟩, fun e => e.2 ▸ rfl⟩

-- A push that goes through takes the lowest free slot.
theorem of_push {s t : Stack} {a c : UInt16} (h : s.push a c = .ok t) :
    ∃ k : Fin 16, s.depth = k ∧ t.slots = s.slots.set k a k.isLt ∧ t.depth = k + 1 := by
  unfold push at h
  split at h <;> cases h
  case isTrue hd => exact ⟨⟨s.depth, hd⟩, rfl, rfl, rfl⟩

-- A pop that goes through frees the highest slot in use, and writes none.
theorem of_pop {s t : Stack} {a c : UInt16} (h : s.pop c = .ok (a, t)) :
    ∃ k : Fin 16, s.depth = k + 1 ∧ a = s.slot k ∧ t.slots = s.slots ∧ t.depth = k := by
  have := s.depth_le
  unfold pop at h
  split at h <;> cases h
  case isTrue hd => exact ⟨⟨s.depth - 1, by omega⟩, (Nat.sub_add_cancel hd).symm, rfl, rfl, rfl⟩

theorem slot_eq (s : Stack) (k : Fin 16) : s.slot k = s.slots[k.val] := rfl

@[simp]
theorem slot_initial (k : Fin 16) : initial.slot k = 0 :=
  Vector.getElem_replicate k.isLt

theorem slot_push {s t : Stack} {a c : UInt16} (h : s.push a c = .ok t) (k : Fin 16) :
    t.slot k = if k.val = s.depth then a else s.slot k := by
  have ⟨_, hd, hs, _⟩ := of_push h
  simp only [slot_eq, hs, hd, Vector.getElem_set, eq_comm]

theorem slot_pop {s t : Stack} {a c : UInt16} (h : s.pop c = .ok (a, t)) (k : Fin 16) :
    t.slot k = s.slot k := by
  have ⟨_, _, _, hs, _⟩ := of_pop h
  rw [slot, slot, hs]

theorem frames_push {s t : Stack} {a c : UInt16} (h : s.push a c = .ok t) :
    t.frames = s.frames ++ [a] := by
  have ⟨k, hd, hs, ht⟩ := of_push h
  rw [frames, frames, hs, ht, hd, Vector.toList_set]
  rw [List.take_succ_eq_append_getElem (by simp)]
  simp [List.take_set_of_le (Nat.le_refl _)]

theorem frames_pop {s t : Stack} {a c : UInt16} (h : s.pop c = .ok (a, t)) :
    s.frames = t.frames ++ [a] := by
  have ⟨k, hd, ha, hs, ht⟩ := of_pop h
  rw [frames, frames, hs, ht, hd, ha, slot_eq]
  rw [List.take_succ_eq_append_getElem (by simp)]
  simp

end Stack
end Chip8
