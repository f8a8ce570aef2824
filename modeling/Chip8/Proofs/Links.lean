import Chip8.Move

-- What commands come down to for a single link: a command about another link leaves it as it is.

namespace Chip8

-- The link that a command is about.
def Command.link? : Command → Option Nat
  | addFrontend k | dropFrontend k | detach k | send k _ | newest k | deliverKeys k | post k => some k
  | load _ | reset | cycle | tick | setHeld .. | collectFrame | openLink _ => none

-- The link after a command about it. An end that is gone does nothing.
def Link.follow (l : Link) (m : Machine) : Command → Link
  | .addFrontend _ => if 0 < l.frontends then l.addFrontend else l
  | .dropFrontend _ => if 0 < l.frontends then l.dropFrontend else l
  | .detach _ => if l.attached then l.detach else l
  | .send _ change => if 0 < l.frontends then (l.send change).1 else l
  | .newest _ => if 0 < l.frontends then l.newest.1 else l
  | .deliverKeys _ => if l.attached then (l.deliverKeys m).1 else l
  | .post _ => if l.attached then (l.post m).1 else l
  | _ => l

namespace Link

variable {l : Link} {m : Machine} {c : Command}

-- The ways in which posting a snapshot can go.
inductive Posts (l : Link) (m : Machine) : Link × Bool × List Event → Prop
  | nothing (hs : l.stale m = false) : Posts l m (l, false, [])
  | disconnected (hs : l.stale m = true) (hf : l.frontends = 0) :
    Posts l m ({ l with pending := true }, false, [.disconnected])
  | heldBack (hs : l.stale m = true) (hf : 0 < l.frontends)
      (hc : l.capacity ≤ l.snapshots.length) :
    Posts l m ({ l with pending := true }, false, [.heldBack])
  | sent (hs : l.stale m = true) (hf : 0 < l.frontends) (hc : l.snapshots.length < l.capacity) :
    Posts l m ({ l with
      snapshots := l.snapshots ++ [m.snapshot]
      soundSent := m.soundOn
      pending := false }, true, [])

theorem tryPost_posts (l : Link) (m : Machine) : l.Posts m (l.tryPost m) := by
  unfold tryPost
  split
  case isTrue hs => exact .nothing (by simpa using hs)
  case isFalse hs =>
    have hs : l.stale m = true := by simpa using hs
    split
    case isTrue hf => exact .disconnected hs hf
    case isFalse hf =>
      have hf : 0 < l.frontends := Nat.pos_of_ne_zero hf
      split
      case isTrue hc => exact .heldBack hs hf hc
      case isFalse hc => exact .sent hs hf (Nat.lt_of_not_le hc)

namespace Posts

variable {t : Link × Bool × List Event}

theorem keys : l.Posts m t → t.1.keys = l.keys
  | nothing _ | disconnected _ _ | heldBack _ _ _ | sent _ _ _ => rfl

theorem attached : l.Posts m t → t.1.attached = l.attached
  | nothing _ | disconnected _ _ | heldBack _ _ _ | sent _ _ _ => rfl

theorem capacity : l.Posts m t → t.1.capacity = l.capacity
  | nothing _ | disconnected _ _ | heldBack _ _ _ | sent _ _ _ => rfl

theorem snapshots : l.Posts m t → t.1.snapshots = l.snapshots ++ if t.2.1 then [m.snapshot] else []
  | nothing _ | disconnected _ _ | heldBack _ _ _ => (List.append_nil _).symm
  | sent _ _ _ => rfl

theorem sent_iff : l.Posts m t →
    (t.2.1 = true ↔ 0 < l.frontends ∧ l.snapshots.length < l.capacity ∧ l.stale m = true)
  | nothing hs => by simp [hs]
  | disconnected _ hf => by simp [hf]
  | heldBack _ _ hc => by simp [Nat.not_lt_of_le hc]
  | sent hs hf hc => by simp [hs, hf, hc]

end Posts

-- Where a frontend is left and the queue has room, it is up to the link whether a posting sends.
theorem tryPost_sent (hf : 0 < l.frontends) (hc : l.snapshots.length < l.capacity) :
    (l.tryPost m).2.1 = l.stale m := by
  rw [Bool.eq_iff_iff, (l.tryPost_posts m).sent_iff]
  exact ⟨fun h => h.2.2, fun h => ⟨hf, hc, h⟩⟩

-- What a link remembers of the changes it saw is up to postings alone. Its snapshots are up to them and to
-- the frontends that ask for the newest one.
theorem follow_eq (hp : ∀ k, c ≠ .post k) : ∃ keys snapshots frontends attached,
    l.follow m c = { l with keys, snapshots, frontends, attached } ∧
      ((∀ k, c ≠ .newest k) → snapshots = l.snapshots) := by
  cases c
  case post => exact absurd rfl (hp _)
  case newest =>
    simp only [follow]
    split
    case isTrue => exact ⟨_, _, _, _, rfl, fun hn => absurd rfl (hn _)⟩
    case isFalse => exact ⟨_, _, _, _, rfl, fun _ => rfl⟩
  case addFrontend | dropFrontend | detach | send | deliverKeys =>
    simp only [follow, send]
    repeat' split
    all_goals exact ⟨_, _, _, _, rfl, fun _ => rfl⟩
  all_goals exact ⟨_, _, _, _, rfl, fun _ => rfl⟩

-- Only two kinds of commands move key changes.
theorem follow_keys (hs : ∀ k change, c ≠ .send k change) (hd : ∀ k, c ≠ .deliverKeys k) :
    (l.follow m c).keys = l.keys := by
  cases c
  case send => exact absurd rfl (hs _ _)
  case deliverKeys => exact absurd rfl (hd _)
  case post =>
    simp only [follow]
    split
    case isTrue => exact (l.tryPost_posts m).keys
    case isFalse => rfl
  case addFrontend | dropFrontend | detach | newest =>
    simp only [follow]
    split <;> rfl
  all_goals rfl

theorem follow_attached (hd : ∀ k, c ≠ .detach k) : (l.follow m c).attached = l.attached := by
  cases c
  case detach => exact absurd rfl (hd _)
  case post =>
    simp only [follow]
    split
    case isTrue => exact (l.tryPost_posts m).attached
    case isFalse => rfl
  case addFrontend | dropFrontend | send | newest | deliverKeys =>
    simp only [follow, send]
    repeat' split
    all_goals rfl
  all_goals rfl

end Link

namespace Session

variable {s : Session} {k : Nat} {l l' : Link} {c : Command} {cs : List Command}

theorem frontend?_eq_some_iff : s.frontend? k = some l ↔ s.links[k]? = some l ∧ 0 < l.frontends := by
  simp [frontend?, Option.filter_eq_some_iff]

theorem attached?_eq_some_iff : s.attached? k = some l ↔ s.links[k]? = some l ∧ l.attached = true := by
  simp [attached?, Option.filter_eq_some_iff]

theorem frontend?_of_link (h : s.links[k]? = some l) :
    s.frontend? k = if 0 < l.frontends then some l else none := by
  rw [frontend?, h]
  simp [Option.filter]

theorem attached?_of_link (h : s.links[k]? = some l) :
    s.attached? k = if l.attached then some l else none := by
  rw [attached?, h]
  simp [Option.filter]

theorem attached?_eq_none (h : s.links[k]? = some l) (ha : l.attached = false) : s.attached? k = none := by
  rw [attached?_of_link h, ha]
  rfl

theorem link_setLink_self (h : s.links[k]? = some l) (l' : Link) :
    (s.setLink k l').links[k]? = some l' := by
  have ⟨hk, _⟩ := List.getElem?_eq_some_iff.mp h
  exact List.getElem?_set_self hk

theorem link_setLink_of_ne {j : Nat} (hj : j ≠ k) (l' : Link) :
    (s.setLink j l').links[k]? = s.links[k]? :=
  List.getElem?_set_ne hj

theorem link_step_of_ne (hc : c.link? ≠ some k) (h : s.links[k]? = some l) :
    (s.step c).1.links[k]? = some l := by
  cases c
  case load | reset | cycle | tick | setHeld | collectFrame => exact h
  case openLink =>
    have ⟨hk, _⟩ := List.getElem?_eq_some_iff.mp h
    exact (List.getElem?_append_left hk).trans h
  case addFrontend j | dropFrontend j | detach j | send j _ | newest j | deliverKeys j | post j =>
    have hj : j ≠ k := fun e => hc (congrArg some e)
    simp only [step]
    split
    case h_1 => exact (link_setLink_of_ne hj _).trans h
    case h_2 => exact h

theorem link_step (hc : c.link? = some k) (h : s.links[k]? = some l) :
    (s.step c).1.links[k]? = some (l.follow s.machine c) := by
  cases c <;> cases hc
  case addFrontend | dropFrontend | send | newest =>
    simp only [step, Link.follow, frontend?_of_link h]
    by_cases hl : 0 < l.frontends
    case pos =>
      rw [if_pos hl, if_pos hl]
      exact link_setLink_self h _
    case neg =>
      rw [if_neg hl, if_neg hl]
      exact h
  case detach | deliverKeys | post =>
    simp only [step, Link.follow, attached?_of_link h]
    cases hl : l.attached
    case true => exact link_setLink_self h _
    case false => exact h

theorem exists_link_step (h : s.links[k]? = some l) (c : Command) :
    ∃ l', (s.step c).1.links[k]? = some l' := by
  by_cases hc : c.link? = some k
  case pos => exact ⟨_, link_step hc h⟩
  case neg => exact ⟨_, link_step_of_ne hc h⟩

theorem step_send (h : s.frontend? k = some l) (change : KeyChange) :
    s.step (.send k change) = (s.setLink k (l.send change).1, .answer l.attached, []) := by
  simp only [step, h, Link.send]
  cases l.attached <;> rfl

theorem step_newest (h : s.frontend? k = some l) :
    s.step (.newest k) = (s.setLink k l.newest.1, .snapshot l.snapshots.getLast?, []) := by
  simp only [step, h]
  rfl

theorem step_deliverKeys (h : s.attached? k = some l) :
    s.step (.deliverKeys k) =
      (({ s with machine := (l.deliverKeys s.machine).2.1 } : Session).setLink k
        (l.deliverKeys s.machine).1, .ofResult .count (l.deliverKeys s.machine).2.2, []) := by
  simp only [step, h]

theorem step_post (h : s.attached? k = some l) :
    s.step (.post k) =
      (({ s with machine := s.machine.collectFrame.1 } : Session).setLink k (l.tryPost s.machine).1,
        .answer (l.tryPost s.machine).2.1, (l.tryPost s.machine).2.2) := by
  simp only [step, h]
  rfl

theorem attached_step (h : s.attached? k = some l) (hd : c ≠ .detach k) :
    ∃ l', (s.step c).1.attached? k = some l' := by
  have ⟨hl, ha⟩ := attached?_eq_some_iff.mp h
  by_cases hc : c.link? = some k
  case neg => exact ⟨l, attached?_eq_some_iff.mpr ⟨link_step_of_ne hc hl, ha⟩⟩
  case pos =>
    refine ⟨_, attached?_eq_some_iff.mpr ⟨link_step hc hl, (Link.follow_attached ?_).trans ha⟩⟩
    rintro j rfl
    exact hd (congrArg Command.detach (Option.some.inj hc))

theorem attached_run (h : s.attached? k = some l) (hd : .detach k ∉ cs) :
    ∃ l', (s.run cs).attached? k = some l' := by
  induction cs generalizing s l
  case nil => exact ⟨l, h⟩
  case cons c cs ih =>
    have ⟨hc, hcs⟩ := List.ne_and_not_mem_of_not_mem_cons hd
    have ⟨_, h'⟩ := attached_step h hc.symm
    exact ih h' hcs

-- A link that is opened finds its place behind those that were opened before.
theorem link_openLink (capacity : Nat) :
    (s.step (.openLink capacity)).1.links[s.links.length]? = some (.new capacity) :=
  List.getElem?_concat_length ..

end Session
end Chip8
