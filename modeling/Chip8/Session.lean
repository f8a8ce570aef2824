import Chip8.Link

-- A machine with its links, driven by one command after the other.

namespace Chip8

inductive Command where
  | load (program : List UInt8)
  | reset
  | cycle
  | tick
  | setHeld (key : UInt8) (held : Bool)
  | collectFrame
  | openLink (capacity : Nat)
  -- The remaining commands name a link by its place in the order of opening.
  | addFrontend (link : Nat)
  | dropFrontend (link : Nat)
  | detach (link : Nat)
  | send (link : Nat) (change : KeyChange)
  | newest (link : Nat)
  | deliverKeys (link : Nat)
  | post (link : Nat)
deriving DecidableEq, Repr

inductive Reply where
  | done
  | fault (fault : Fault)
  | outcome (outcome : Outcome)
  | frame (frame : Option Display)
  | opened (link : Nat)
  | answer (yes : Bool)
  | snapshot (snapshot : Option Snapshot)
  | count (count : Nat)
  -- The end of the link that the command belongs to does not exist or was dropped.
  | absent
deriving DecidableEq

namespace Reply

def ofResult (ok : α → Reply) : Except Fault α → Reply
  | .ok a => ok a
  | .error f => fault f

end Reply

structure Session where
  machine : Machine
  links : List Link
deriving DecidableEq

namespace Session

def new (config : Config) (entropy : Key) : Session :=
  ⟨.new config entropy, []⟩

-- The link at `k`, if a frontend holds it.
def frontend? (s : Session) (k : Nat) : Option Link :=
  s.links[k]?.filter fun l => 0 < l.frontends

-- The link at `k`, if the machine holds it.
def attached? (s : Session) (k : Nat) : Option Link :=
  s.links[k]?.filter fun l => l.attached

def setLink (s : Session) (k : Nat) (l : Link) : Session :=
  { s with links := s.links.set k l }

def step (s : Session) : Command → Session × Reply × List Event
  | .load program =>
    let t := s.machine.load program
    ({ s with machine := t.machine }, .ofResult (fun _ => .done) t.result, t.events)
  | .reset =>
    let t := s.machine.reset
    ({ s with machine := t.machine }, .done, t.events)
  | .cycle =>
    let t := s.machine.cycle
    ({ s with machine := t.machine }, .ofResult .outcome t.result, t.events)
  | .tick => ({ s with machine := s.machine.tick }, .done, [])
  | .setHeld key held =>
    let (machine, result) := s.machine.setHeld key held
    ({ s with machine }, .ofResult (fun _ => .done) result, [])
  | .collectFrame =>
    let (machine, frame) := s.machine.collectFrame
    ({ s with machine }, .frame frame, [])
  | .openLink capacity => ({ s with links := s.links ++ [.new capacity] }, .opened s.links.length, [])
  | .addFrontend k =>
    match s.frontend? k with
    | some l => (s.setLink k l.addFrontend, .done, [])
    | none => (s, .absent, [])
  | .dropFrontend k =>
    match s.frontend? k with
    | some l => (s.setLink k l.dropFrontend, .done, [])
    | none => (s, .absent, [])
  | .detach k =>
    match s.attached? k with
    | some l => (s.setLink k l.detach, .done, [])
    | none => (s, .absent, [])
  | .send k change =>
    match s.frontend? k with
    | some l =>
      let (l', sent) := l.send change
      (s.setLink k l', .answer sent, [])
    | none => (s, .absent, [])
  | .newest k =>
    match s.frontend? k with
    | some l =>
      let (l', snapshot) := l.newest
      (s.setLink k l', .snapshot snapshot, [])
    | none => (s, .absent, [])
  | .deliverKeys k =>
    match s.attached? k with
    | some l =>
      let (l', machine, count) := l.deliverKeys s.machine
      (({ s with machine } : Session).setLink k l', .ofResult .count count, [])
    | none => (s, .absent, [])
  | .post k =>
    match s.attached? k with
    | some l =>
      let (l', t) := l.post s.machine
      (({ s with machine := t.machine } : Session).setLink k l', .answer t.result, t.events)
    | none => (s, .absent, [])

-- The session after a list of commands.
def run (s : Session) : List Command → Session
  | [] => s
  | c :: cs => run (s.step c).1 cs

theorem run_append (s : Session) (cs₁ cs₂ : List Command) :
    s.run (cs₁ ++ cs₂) = (s.run cs₁).run cs₂ := by
  induction cs₁ generalizing s with
  | nil => rfl
  | cons c cs ih => exact ih (s.step c).1

-- The sessions that commands lead to from power-on.
def Reachable (s : Session) : Prop :=
  ∃ config entropy cs, (new config entropy).run cs = s

theorem reachable_new (config : Config) (entropy : Key) : (new config entropy).Reachable :=
  ⟨config, entropy, [], rfl⟩

-- What a list of commands answers and reports, one entry for each command.
def transcript (s : Session) : List Command → List (Reply × List Event)
  | [] => []
  | c :: cs => (s.step c).2 :: transcript (s.step c).1 cs

theorem transcript_append (s : Session) (cs₁ cs₂ : List Command) :
    s.transcript (cs₁ ++ cs₂) = s.transcript cs₁ ++ (s.run cs₁).transcript cs₂ := by
  induction cs₁ generalizing s with
  | nil => rfl
  | cons c cs ih => simp only [List.cons_append, transcript, ih, run]

end Session
end Chip8
