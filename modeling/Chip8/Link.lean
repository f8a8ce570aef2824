import Chip8.Execution.Machine

-- A link joins a machine to its frontends. Key changes travel to the machine in the order
-- in which they were sent, snapshots travel back and are held while the frontends are behind.

namespace Chip8

structure KeyChange where
  key : UInt8
  held : Bool
deriving DecidableEq, Repr

-- All that a screen and a speaker need.
@[ext]
structure Snapshot where
  frame : Display
  soundOn : Bool
  delay : UInt8
deriving DecidableEq

def Machine.snapshot (m : Machine) : Snapshot where
  frame := m.state.display
  soundOn := m.soundOn
  delay := m.state.timers.delay

-- Makes changes in turn, up to one of a key that does not exist; yields the changes behind it and
-- the number of those made.
def Keypad.applyAll (k : Keypad) : List KeyChange → Keypad × List KeyChange × Except Fault Nat
  | [] => (k, [], .ok 0)
  | c :: cs =>
    match k.set c.key c.held with
    | .error f => (k, cs, .error f)
    | .ok k' =>
      let (k'', rest, count) := applyAll k' cs
      (k'', rest, count.map (· + 1))

@[ext]
structure Link where
  capacity : Nat
  -- Changes and snapshots under way, the oldest first.
  keys : List KeyChange
  snapshots : List Snapshot
  -- How many frontends hold the link, and whether the machine does.
  frontends : Nat
  attached : Bool
  -- The sound state of the last snapshot sent.
  soundSent : Bool
  -- A change was seen that no snapshot has carried yet.
  pending : Bool
deriving DecidableEq

namespace Link

-- There is room for at least one snapshot.
def new (capacity : Nat) : Link where
  capacity := max capacity 1
  keys := []
  snapshots := []
  frontends := 1
  attached := true
  soundSent := false
  pending := false

def addFrontend (l : Link) : Link :=
  { l with frontends := l.frontends + 1 }

def dropFrontend (l : Link) : Link :=
  { l with frontends := l.frontends - 1 }

def detach (l : Link) : Link :=
  { l with attached := false }

-- The flag tells whether there is a machine to send to. The key is looked at on delivery.
def send (l : Link) (change : KeyChange) : Link × Bool :=
  if l.attached then ({ l with keys := l.keys ++ [change] }, true) else (l, false)

-- The newest snapshot; older ones are dropped with it.
def newest (l : Link) : Link × Option Snapshot :=
  ({ l with snapshots := [] }, l.snapshots.getLast?)

def deliverKeys (l : Link) (m : Machine) : Link × Machine × Except Fault Nat :=
  let (keypad, keys, count) := m.state.keypad.applyAll l.keys
  ({ l with keys }, { m with state.keypad := keypad }, count)

-- Whether there is something that the frontends have not been told.
def stale (l : Link) (m : Machine) : Bool :=
  l.pending || m.state.redraw || m.soundOn != l.soundSent

-- Sends a snapshot if something is new, a frontend is left and there is room. The flag tells whether
-- it was sent.
def tryPost (l : Link) (m : Machine) : Link × Bool × List Event :=
  if !l.stale m then
    (l, false, [])
  else if l.frontends = 0 then
    ({ l with pending := true }, false, [.disconnected])
  else if l.capacity ≤ l.snapshots.length then
    ({ l with pending := true }, false, [.heldBack])
  else
    ({ l with
        snapshots := l.snapshots ++ [m.snapshot]
        soundSent := m.soundOn
        pending := false },
      true, [])

-- The frame counts as taken even if the snapshot is held back; the link remembers the change.
def post (l : Link) (m : Machine) : Link × Transition Bool :=
  let (l', sent, events) := l.tryPost m
  (l', ⟨m.collectFrame.1, sent, events⟩)

end Link
end Chip8
