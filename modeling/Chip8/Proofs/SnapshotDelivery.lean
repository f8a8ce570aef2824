import Chip8.Proofs.Commands
import Chip8.Proofs.Links

-- The way of snapshots from the machine to the frontends of a link: they queue up in the order in which
-- they were posted, and whoever asks for the newest clears the queue for all.

namespace Chip8

-- What passes a link: a snapshot that is posted, or the answer to a frontend that asked for the newest.
inductive Traffic where
  | posted (x : Snapshot)
  | asked (answer : Option Snapshot)

namespace Traffic

-- What a command to a machine passes over its link, by its reply.
def ofReply? (m : Machine) : Command → Reply → Option Traffic
  | .post _, .answer true => some (posted m.snapshot)
  | .newest _, .snapshot answer => some (asked answer)
  | _, _ => none

variable {q : List Snapshot} {es fs : List Traffic}

-- The snapshots that were posted, and those that the frontends received.
def sent (es : List Traffic) : List Snapshot :=
  es.filterMap fun
    | posted x => some x
    | asked _ => none

def received (es : List Traffic) : List Snapshot :=
  es.filterMap fun
    | posted _ => none
    | asked answer => answer

-- What was posted since the newest snapshot was last asked for, behind `q` if it never was.
def fresh (q : List Snapshot) : List Traffic → List Snapshot
  | [] => q
  | posted x :: es => fresh (q ++ [x]) es
  | asked _ :: es => fresh [] es

theorem fresh_append : fresh q (es ++ fs) = fresh (fresh q es) fs := by
  induction es generalizing q
  case nil => rfl
  case cons e es ih => cases e <;> exact ih

end Traffic

namespace Link

variable {l l' l'' : Link} {m : Machine} {c : Command} {es fs : List Traffic}

-- How traffic takes a link to another. The snapshots that left the queue are `gone`, delivered or not.
structure Delivers (l : Link) (es : List Traffic) (l' : Link) : Prop where
  capacity : l'.capacity = l.capacity
  bounded : l.snapshots.length ≤ l.capacity → l'.snapshots.length ≤ l'.capacity
  fresh : l'.snapshots = Traffic.fresh l.snapshots es
  ordered : ∃ gone, l.snapshots ++ Traffic.sent es = gone ++ l'.snapshots ∧
    List.Sublist (Traffic.received es) gone

namespace Delivers

theorem nothing (hc : l'.capacity = l.capacity) (hs : l'.snapshots = l.snapshots) :
    l.Delivers [] l' where
  capacity := hc
  bounded h := hs ▸ hc ▸ h
  fresh := hs
  ordered := ⟨[], by rw [hs]; exact List.append_nil _, .slnil⟩

theorem trans (h : l.Delivers es l') (h' : l'.Delivers fs l'') : l.Delivers (es ++ fs) l'' where
  capacity := h'.capacity.trans h.capacity
  bounded := h'.bounded ∘ h.bounded
  fresh := by rw [h'.fresh, h.fresh, Traffic.fresh_append]
  ordered := by
    have ⟨gone, hg, hr⟩ := h.ordered
    have ⟨gone', hg', hr'⟩ := h'.ordered
    refine ⟨gone ++ gone', ?_, ?_⟩
    case refine_1 =>
      calc l.snapshots ++ Traffic.sent (es ++ fs)
        _ = gone ++ (l'.snapshots ++ Traffic.sent fs) := by
          rw [Traffic.sent, List.filterMap_append, ← List.append_assoc, ← List.append_assoc, ← hg]
          rfl
        _ = gone ++ gone' ++ l''.snapshots := by rw [hg', List.append_assoc]
    case refine_2 =>
      rw [Traffic.received, List.filterMap_append]
      exact hr.append hr'

-- The answer is the last snapshot of the queue, and the whole queue is gone.
theorem newest (l : Link) : l.Delivers [.asked l.snapshots.getLast?] l.newest.1 where
  capacity := rfl
  bounded _ := Nat.zero_le _
  fresh := rfl
  ordered := by
    refine ⟨l.snapshots, rfl, ?_⟩
    cases h : l.snapshots.getLast?
    case none => exact List.nil_sublist _
    case some x =>
      have ⟨older, hx⟩ := List.getLast?_eq_some_iff.mp h
      rw [hx]
      exact List.sublist_append_right ..

theorem follow (hp : ∀ k, c ≠ .post k) (hn : ∀ k, c ≠ .newest k) : l.Delivers [] (l.follow m c) := by
  have ⟨_, _, _, _, hl, hs⟩ := l.follow_eq (m := m) hp
  rw [hl]
  exact .nothing rfl (hs hn)

end Delivers

theorem Posts.delivers {t : Link × Bool × List Event} :
    l.Posts m t → l.Delivers (if t.2.1 then [.posted m.snapshot] else []) t.1
  | nothing _ | disconnected _ _ | heldBack _ _ _ => .nothing rfl rfl
  | sent _ _ hc => {
      capacity := rfl
      bounded := fun _ => (List.length_append ..).symm ▸ hc
      fresh := rfl
      ordered := ⟨[], rfl, .slnil⟩ }

end Link

namespace Session

variable {s : Session} {k : Nat} {l : Link} {c : Command} {cs : List Command}

-- What a command passes over link `k`.
def traffic? (s : Session) (k : Nat) (c : Command) : Option Traffic :=
  if c.link? = some k then Traffic.ofReply? s.machine c (s.step c).2.1 else none

-- What passes over link `k` along commands.
def traffic (s : Session) (k : Nat) (cs : List Command) : List Traffic :=
  s.gather (traffic? · k) cs

theorem traffic?_of_ne (hc : c.link? ≠ some k) : s.traffic? k c = none :=
  if_neg hc

theorem traffic?_eq (hc : c.link? = some k) :
    s.traffic? k c = Traffic.ofReply? s.machine c (s.step c).2.1 :=
  if_pos hc

theorem delivers_post (h : s.links[k]? = some l) :
    l.Delivers (s.traffic? k (.post k)).toList (l.follow s.machine (.post k)) := by
  rw [traffic?_eq rfl, Link.follow]
  cases ha : l.attached
  case false =>
    simp only [step, attached?_eq_none h ha]
    exact .nothing rfl rfl
  case true =>
    have hp := (l.tryPost_posts s.machine).delivers
    rw [step_post (attached?_eq_some_iff.mpr ⟨h, ha⟩)]
    cases hs : (l.tryPost s.machine).2.1 <;> rw [hs] at hp <;> exact hp

theorem delivers_newest (h : s.links[k]? = some l) :
    l.Delivers (s.traffic? k (.newest k)).toList (l.follow s.machine (.newest k)) := by
  rw [traffic?_eq rfl, Link.follow]
  by_cases hf : 0 < l.frontends
  case neg =>
    have hn : s.frontend? k = none := by rw [frontend?_of_link h, if_neg hf]
    simp only [step, hn, if_neg hf]
    exact .nothing rfl rfl
  case pos =>
    rw [step_newest (frontend?_eq_some_iff.mpr ⟨h, hf⟩), if_pos hf]
    exact .newest l

theorem traffic_step (h : s.links[k]? = some l) : ∃ l', (s.step c).1.links[k]? = some l' ∧
    l.Delivers (s.traffic? k c).toList l' := by
  by_cases hc : c.link? = some k
  case neg => exact ⟨l, link_step_of_ne hc h, traffic?_of_ne hc ▸ .nothing rfl rfl⟩
  case pos =>
    refine ⟨_, link_step hc h, ?_⟩
    cases c <;> cases hc
    case post => exact delivers_post h
    case newest => exact delivers_newest h
    all_goals
      rw [traffic?_eq rfl]
      refine .follow ?_ ?_ <;> nofun

theorem traffic_run (cs : List Command) (h : s.links[k]? = some l) : ∃ l',
    (s.run cs).links[k]? = some l' ∧ l.Delivers (s.traffic k cs) l' := by
  induction cs generalizing s l
  case nil => exact ⟨l, h, .nothing rfl rfl⟩
  case cons c cs ih =>
    have ⟨_, h', hd⟩ := traffic_step (c := c) h
    have ⟨l'', h'', hd'⟩ := ih h'
    exact ⟨l'', h'', hd.trans hd'⟩

-- Along any commands the snapshots that the frontends of a link receive are a subsequence of those that
-- were posted, and those that wait are what was posted since a frontend last asked for the newest. So
-- the next one to ask receives the last of these and leaves nothing behind, with the machine there or not.
theorem newest_snapshots_received (s : Session) (capacity : Nat) (cs : List Command) :
    let k := s.links.length
    let s₀ := (s.step (.openLink capacity)).1
    let es := s₀.traffic k cs
    let t := s₀.run cs
    ∃ l gone, t.links[k]? = some l ∧ l.snapshots.length ≤ max capacity 1 ∧
      Traffic.sent es = gone ++ l.snapshots ∧ List.Sublist (Traffic.received es) gone ∧
      l.snapshots = Traffic.fresh [] es ∧
      (0 < l.frontends → t.step (.newest k) =
        (t.setLink k { l with snapshots := [] }, .snapshot (Traffic.fresh [] es).getLast?, [])) := by
  intro k s₀ es t
  have ⟨l, h, hd⟩ := traffic_run cs (s.link_openLink capacity)
  have ⟨gone, hg, hr⟩ := hd.ordered
  refine ⟨l, gone, h, ?_, hg, hr, hd.fresh, ?_⟩
  case refine_1 => exact Nat.le_trans (hd.bounded (Nat.zero_le _)) (Nat.le_of_eq hd.capacity)
  case refine_2 =>
    intro hf
    rw [step_newest (frontend?_eq_some_iff.mpr ⟨h, hf⟩), hd.fresh]
    rfl

end Session
end Chip8
