import Chip8.Proofs.Commands
import Chip8.Proofs.Links
import Chip8.Proofs.Unread

-- Looking at a machine. To collect a frame, to post a snapshot and to take the newest one changes nothing
-- that any other command answers, and nothing of the machine but its redraw flag.

namespace Chip8

namespace Command

-- The commands that only look at what the machine shows.
def observes : Command → Bool
  | collectFrame | newest _ | post _ => true
  | _ => false

-- The commands without the observations among them.
def unobserved (cs : List Command) : List Command :=
  cs.filter fun c => !c.observes

end Command

namespace Machine

variable {m : Machine} {t : Transition (Except Fault Outcome)}

def withRedraw (m : Machine) (redraw : Bool) : Machine :=
  { m with state.redraw := redraw }

theorem elapse_withRedraw (m : Machine) (redraw : Bool) :
    (m.withRedraw redraw).elapse = m.elapse.withRedraw redraw := by
  rw [elapse_eq, elapse_eq]
  rfl

-- A cycle raises the flag if it draws, and does not look at it.
theorem Cycle.withRedraw (h : m.Cycle t) (redraw : Bool) : ∃ drawn,
    t.machine.state.redraw = (drawn || m.state.redraw) ∧
      (m.withRedraw redraw).Cycle ⟨t.machine.withRedraw (drawn || redraw), t.result, t.events⟩ := by
  obtain ⟨w, drawn, hc, hp, hr, hm, hu⟩ := h.withUnread m.config.timer m.state.timers.phase redraw
  have hw : w.withUnread m.config.timer m.state.timers.phase (drawn || redraw) =
      w.withRedraw (drawn || redraw) := by
    rw [← hc, ← hp]
    rfl
  refine ⟨drawn, ?_, ?_⟩
  case refine_1 =>
    rw [hm, ← hr]
    split
    case isTrue => exact elapse_redraw w
    case isFalse => rfl
  case refine_2 =>
    rw [hm, apply_ite (Machine.withRedraw · (drawn || redraw)), ← elapse_withRedraw, ← hw]
    exact hu

end Machine

-- The link without all that posting snapshots and taking them touches.
def Link.unseen (l : Link) : Link :=
  { l with snapshots := [], soundSent := false, pending := false }

namespace Link

variable {l : Link} {m : Machine}

theorem Posts.unseen {t : Link × Bool × List Event} : l.Posts m t → t.1.unseen = l.unseen
  | nothing _ | disconnected _ _ | heldBack _ _ _ | sent _ _ _ => rfl

end Link

namespace Session

variable {s t : Session} {k : Nat} {c : Command} {cs ds : List Command}

-- The session without all that observing it touches.
def unseen (s : Session) : Session where
  machine := s.machine.withRedraw false
  links := s.links.map Link.unseen

theorem unseen_unseen (s : Session) : s.unseen.unseen = s.unseen :=
  congrArg (Session.mk _) (by simp [unseen, Link.unseen])

theorem unseen_setLink (s : Session) (k : Nat) (l : Link) :
    (s.setLink k l).unseen = s.unseen.setLink k l.unseen :=
  congrArg (Session.mk _) List.map_set

theorem frontend?_unseen (s : Session) (k : Nat) :
    s.unseen.frontend? k = (s.frontend? k).map Link.unseen := by
  simp only [frontend?, unseen, List.getElem?_map]
  cases s.links[k]? <;> simp [Option.filter, Link.unseen]

theorem attached?_unseen (s : Session) (k : Nat) :
    s.unseen.attached? k = (s.attached? k).map Link.unseen := by
  simp only [attached?, unseen, List.getElem?_map]
  cases s.links[k]? <;> simp [Option.filter, Link.unseen]

theorem move?_unseen (s : Session) (c : Command) : s.unseen.move? c = s.move? c := by
  cases c
  case deliverKeys k | post k =>
    simp only [move?, attached?_unseen, Option.map_map]
    rfl
  all_goals rfl

theorem step_unseen_of_host (ho : c.observes = false) (hc : c ≠ .cycle) :
    s.unseen.step c = ((s.step c).1.unseen, (s.step c).2) := by
  cases c
  case cycle => contradiction
  case collectFrame | newest | post => cases ho
  case reset | tick => rfl
  case load program =>
    simp only [step, unseen, Machine.load, Machine.withRedraw]
    split <;> rfl
  case setHeld key held =>
    simp only [step, unseen, Machine.setHeld, Machine.withRedraw]
    split <;> rfl
  case openLink capacity =>
    simp only [step, unseen, List.map_append, List.length_map]
    rfl
  case addFrontend k | dropFrontend k =>
    simp only [step, frontend?_unseen]
    cases s.frontend? k
    case none => rfl
    case some l =>
      simp only [Option.map_some, unseen_setLink]
      rfl
  case send k change =>
    simp only [step, frontend?_unseen]
    cases s.frontend? k
    case none => rfl
    case some l =>
      simp only [Option.map_some, Link.send, unseen_setLink]
      cases ha : l.attached <;> simp [Link.unseen, ha]
  case detach k | deliverKeys k =>
    simp only [step, attached?_unseen]
    cases s.attached? k
    case none => rfl
    case some l =>
      simp only [Option.map_some, unseen_setLink]
      rfl

theorem step_unseen (ho : c.observes = false) :
    (s.unseen.step c).2 = (s.step c).2 ∧ (s.unseen.step c).1.unseen = (s.step c).1.unseen := by
  by_cases hc : c = .cycle
  case neg =>
    rw [step_unseen_of_host ho hc]
    exact ⟨rfl, (s.step c).1.unseen_unseen⟩
  case pos =>
    subst hc
    have ⟨drawn, _, h⟩ := s.machine.cycle_goes.withRedraw false
    have hs : s.unseen.step .cycle = (⟨s.machine.cycle.machine.withRedraw (drawn || false), s.unseen.links⟩,
        (s.step .cycle).2) := step_cycle (s := s.unseen) h
    rw [hs]
    exact ⟨rfl, congrArg (Session.mk _) (congrArg Session.links s.unseen_unseen)⟩

theorem unseen_setLink_of_eq {l l' : Link} (h : s.links[k]? = some l) (hl : l'.unseen = l.unseen) :
    (s.setLink k l').unseen = s.unseen := by
  rw [unseen_setLink, hl]
  refine congrArg (Session.mk _) (List.ext_getElem? fun j => ?_)
  by_cases hj : k = j
  case neg => exact List.getElem?_set_ne hj
  case pos =>
    subst hj
    have hk : s.unseen.links[k]? = some l.unseen := by rw [unseen, List.getElem?_map, h]; rfl
    exact (link_setLink_self hk _).trans hk.symm

theorem step_observes (ho : c.observes = true) : (s.step c).1.unseen = s.unseen := by
  cases c
  case collectFrame => rfl
  case newest k =>
    simp only [step]
    split
    case h_1 l h => exact unseen_setLink_of_eq (frontend?_eq_some_iff.mp h).1 rfl
    case h_2 => rfl
  case post k =>
    simp only [step]
    split
    case h_1 l h =>
      exact unseen_setLink_of_eq (s := { s with machine := s.machine.collectFrame.1 })
        (attached?_eq_some_iff.mp h).1 (l.tryPost_posts s.machine).unseen
    case h_2 => rfl
  all_goals cases ho

-- What the commands other than observations answer and report, and the machine that each of them leaves,
-- its redraw flag aside.
def effects (s : Session) : List Command → List (Reply × List Event × Machine)
  | [] => []
  | c :: cs =>
    let t := s.step c
    if c.observes then effects t.1 cs
    else (t.2.1, t.2.2, t.1.machine.withRedraw false) :: effects t.1 cs

theorem effects_of_unseen_eq (h : s.unseen = t.unseen) (cs : List Command) :
    s.effects cs = t.effects (Command.unobserved cs) := by
  induction cs generalizing s t
  case nil => rfl
  case cons c cs ih =>
    cases ho : c.observes
    case true =>
      have hc : Command.unobserved (c :: cs) = Command.unobserved cs := by
        simp [Command.unobserved, ho]
      rw [effects, if_pos ho, hc]
      exact ih ((step_observes ho).trans h)
    case false =>
      have hc : Command.unobserved (c :: cs) = c :: Command.unobserved cs := by
        simp [Command.unobserved, ho]
      have ⟨hs, hs'⟩ := step_unseen (s := s) ho
      have ⟨ht, ht'⟩ := step_unseen (s := t) ho
      have hr : (s.step c).2 = (t.step c).2 := by rw [← hs, h, ht]
      have hu : (s.step c).1.unseen = (t.step c).1.unseen := by rw [← hs', h, ht']
      have hm : (s.step c).1.machine.withRedraw false = (t.step c).1.machine.withRedraw false :=
        congrArg Session.machine hu
      simp only [hc, effects, ho, hr, hm, ih hu]

-- However the observations among commands are placed, the other commands have the same effects.
theorem observation_changes_nothing (s : Session) (h : Command.unobserved cs = Command.unobserved ds) :
    s.effects cs = s.effects ds := by
  rw [effects_of_unseen_eq rfl cs, h, ← effects_of_unseen_eq rfl ds]

-- A machine that clears its display over and over posts to a link with room, to the same link when it
-- is full, and after the frontend has left.
theorem observation_changes_nothing_on_full_link :
    let s := new {} ⟨.replicate 8 0⟩
    let cs := [.openLink 1, .load [0x00, 0xE0, 0x12, 0x00], .cycle, .post 0, .cycle, .cycle, .post 0,
      .newest 0, .dropFrontend 0, .post 0, .collectFrame, .cycle]
    let ds := [.openLink 1, .load [0x00, 0xE0, 0x12, 0x00], .cycle, .cycle, .cycle, .dropFrontend 0, .cycle]
    Command.unobserved cs = Command.unobserved ds ∧ s.effects cs = s.effects ds :=
  ⟨rfl, observation_changes_nothing _ rfl⟩

end Session
end Chip8
