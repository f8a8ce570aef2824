import Chip8.Proofs.Links
import Chip8.Proofs.Redraw

-- What the frontend of a link shows, against what the machine shows: no change is lost on the way, also
-- where the machine changes faster than the frontend looks.

namespace Chip8

-- What a screen and a speaker are at.
@[ext]
structure Picture where
  frame : Display
  soundOn : Bool
deriving DecidableEq

def Picture.blank : Picture :=
  ⟨.blank, false⟩

def Snapshot.picture (s : Snapshot) : Picture :=
  ⟨s.frame, s.soundOn⟩

def Machine.picture (m : Machine) : Picture :=
  ⟨m.state.display, m.soundOn⟩

-- The picture after a reply to a frontend that asked for the newest snapshot.
def Picture.told (p : Picture) : Reply → Picture
  | .snapshot (some s) => s.picture
  | _ => p

-- The picture of the frontend of link `k` after commands, which shows `p` before them.
def Session.shown (s : Session) (k : Nat) (p : Picture) : List Command → Picture
  | [] => p
  | c :: cs => (s.step c).1.shown k (if c = .newest k then p.told (s.step c).2.1 else p) cs

-- The command leaves both ends on link `k` and the machine without a reset, and frames are collected
-- for this link alone.
def Command.Sole (k : Nat) : Command → Prop
  | reset | collectFrame => False
  | post j => j = k
  | addFrontend j | dropFrontend j | detach j => j ≠ k
  | _ => True

-- The commands leave the picture of the machine as it is.
def Session.Still (s : Session) : List Command → Prop
  | [] => True
  | c :: cs => (s.step c).1.machine.picture = s.machine.picture ∧ (s.step c).1.Still cs

namespace Link

variable {l : Link} {m m' : Machine} {p : Picture} {t : Link × Bool × List Event}
  {keys : List KeyChange}

-- The picture of a frontend at `p` once it has taken the newest snapshot.
def ahead (l : Link) (p : Picture) : Picture :=
  l.snapshots.getLast?.elim p Snapshot.picture

structure Open (l : Link) : Prop where
  attached : l.attached = true
  frontends : 0 < l.frontends
  room : 0 < l.capacity

theorem Open.withKeys (ho : l.Open) : Open { l with keys } :=
  ⟨ho.attached, ho.frontends, ho.room⟩

theorem Open.newest (ho : l.Open) : l.newest.1.Open :=
  ⟨ho.attached, ho.frontends, ho.room⟩

theorem Posts.isOpen (ho : l.Open) : l.Posts m t → t.1.Open
  | nothing _ => ho
  | disconnected _ _ | heldBack _ _ _ | sent _ _ _ => ⟨ho.attached, ho.frontends, ho.room⟩

-- A change that the frontend has not been sent is marked, by the redraw flag of the machine or on
-- the link.
structure Faithful (l : Link) (m : Machine) (p : Picture) : Prop where
  isOpen : l.Open
  soundSent : l.soundSent = (l.ahead p).soundOn
  frame : l.pending = false → m.state.redraw = false → (l.ahead p).frame = m.state.display

namespace Faithful

theorem move (hf : l.Faithful m p)
    (hd : m'.state.redraw = false → m.state.redraw = false ∧ m'.state.display = m.state.display) :
    Faithful { l with keys } m' p where
  isOpen := hf.isOpen.withKeys
  soundSent := hf.soundSent
  frame hp hr := (hf.frame hp (hd hr).1).trans (hd hr).2.symm

theorem newest (hf : l.Faithful m p) : l.newest.1.Faithful m (l.ahead p) where
  isOpen := hf.isOpen.newest
  soundSent := hf.soundSent
  frame := hf.frame

end Faithful

theorem stale_eq_false_iff :
    l.stale m = false ↔ l.pending = false ∧ m.state.redraw = false ∧ m.soundOn = l.soundSent := by
  simp [stale, and_assoc]

theorem ahead_sent : ahead { l with snapshots := l.snapshots ++ [m.snapshot] } p = m.picture := by
  rw [ahead, List.getLast?_concat]
  rfl

namespace Posts

theorem faithful (hf : l.Faithful m p) : l.Posts m t → t.1.Faithful m.collectFrame.1 p
  | nothing hs => ⟨hf.isOpen, hf.soundSent, fun hp _ => hf.frame hp (stale_eq_false_iff.mp hs).2.1⟩
  | disconnected hs h₀ => ⟨(disconnected hs h₀).isOpen hf.isOpen, hf.soundSent, nofun⟩
  | heldBack hs h₀ hc => ⟨(heldBack hs h₀ hc).isOpen hf.isOpen, hf.soundSent, nofun⟩
  | sent hs h₀ hc =>
    ⟨(sent hs h₀ hc).isOpen hf.isOpen, congrArg Picture.soundOn ahead_sent.symm,
      fun _ _ => congrArg Picture.frame ahead_sent⟩

-- Unless it is held back, a post leaves the frontend nothing to wait for.
theorem ahead_eq (hf : l.Faithful m p) (hr : t.2.1 = true ∨ l.snapshots.length < l.capacity) :
    l.Posts m t → t.1.ahead p = m.picture
  | nothing hs => by
    have ⟨hp, hd, hs⟩ := stale_eq_false_iff.mp hs
    exact Picture.ext (hf.frame hp hd) (hf.soundSent.symm.trans hs.symm)
  | disconnected _ h₀ => absurd hf.isOpen.frontends (h₀ ▸ Nat.lt_irrefl 0)
  | heldBack _ _ hc => absurd hr (by simpa using hc)
  | sent _ _ _ => ahead_sent

-- A post sends what the machine shows, or nothing.
theorem ahead_eq_or : l.Posts m t → t.1.ahead p = l.ahead p ∨ t.1.ahead p = m.picture
  | nothing _ | disconnected _ _ | heldBack _ _ _ => .inl rfl
  | sent _ _ _ => .inr ahead_sent

end Posts

-- The link is about to send a snapshot that it was held back from sending.
structure Owes (l : Link) : Prop where
  isOpen : l.Open
  pending : l.pending = true

theorem Owes.withKeys (ho : l.Owes) : Owes { l with keys } :=
  ⟨ho.isOpen.withKeys, ho.pending⟩

theorem Owes.newest (ho : l.Owes) : l.newest.1.Owes :=
  ⟨ho.isOpen.newest, ho.pending⟩

namespace Posts

theorem owes (ho : l.Open) (he : t.2.2 = [.heldBack]) :
    l.Posts m t → t.1.Owes ∧ t.1.capacity ≤ t.1.snapshots.length
  | nothing _ | disconnected _ _ | sent _ _ _ => nomatch he
  | heldBack hs h₀ hc => ⟨⟨(heldBack hs h₀ hc).isOpen ho, rfl⟩, hc⟩

-- As long as there is no room nothing moves.
theorem eq_of_owes (ho : l.Owes) (hc : l.capacity ≤ l.snapshots.length) : l.Posts m t → t.1 = l
  | nothing hs => rfl
  | disconnected _ h₀ => absurd ho.isOpen.frontends (h₀ ▸ Nat.lt_irrefl 0)
  | heldBack _ _ _ => by rw [← ho.pending]
  | sent _ _ hr => absurd hc (Nat.not_le_of_lt hr)

theorem sent_of_owes (ho : l.Owes) (hc : l.snapshots.length < l.capacity) :
    l.Posts m t → t.1.snapshots = l.snapshots ++ [m.snapshot] ∧ t.2 = (true, [])
  | nothing hs => by
    have hp := (stale_eq_false_iff.mp hs).1
    rw [ho.pending] at hp
    cases hp
  | disconnected _ h₀ => absurd ho.isOpen.frontends (h₀ ▸ Nat.lt_irrefl 0)
  | heldBack _ _ hr => absurd hc (Nat.not_lt_of_le hr)
  | sent _ _ _ => ⟨rfl, rfl⟩

end Posts
end Link

namespace Session

variable {s : Session} {k : Nat} {l : Link} {p : Picture} {c : Command} {cs cs₁ cs₂ : List Command}

theorem shown_append :
    s.shown k p (cs₁ ++ cs₂) = (s.run cs₁).shown k (s.shown k p cs₁) cs₂ := by
  induction cs₁ generalizing s p with
  | nil => rfl
  | cons c cs ih => exact ih

-- Posts of the link aside, only a drawing touches the display, and it raises the flag.
theorem display_step (hc : c.Sole k) (hp : c ≠ .post k)
    (h : (s.step c).1.machine.state.redraw = false) :
    s.machine.state.redraw = false ∧
      (s.step c).1.machine.state.display = s.machine.state.display := by
  rw [machine_step] at h ⊢
  cases hm : s.move? c
  case none =>
    rw [hm] at h
    exact ⟨h, rfl⟩
  case some mv =>
    rw [hm] at h
    refine Machine.act_display ?_ ?_ h
    case refine_1 =>
      rintro rfl
      cases eq_reset_of_move? hm
      exact hc
    case refine_2 =>
      rintro rfl
      obtain rfl | ⟨j, rfl⟩ := collect_of_move? hm
      case inl => exact hc
      case inr => exact hp (congrArg _ hc)

-- Posts and takings aside, commands move at most the key changes of the link.
theorem link_step_of_sole (hc : c.Sole k) (hp : c ≠ .post k) (hn : c ≠ .newest k)
    (h : s.links[k]? = some l) : ∃ keys, (s.step c).1.links[k]? = some { l with keys } := by
  by_cases hk : c.link? = some k
  case neg => exact ⟨l.keys, link_step_of_ne hk h⟩
  case pos =>
    rw [link_step hk h]
    cases c <;> cases hk
    case addFrontend | dropFrontend | detach => exact absurd rfl hc
    case post => exact absurd rfl hp
    case newest => exact absurd rfl hn
    case send =>
      simp only [Link.follow, Link.send]
      split
      case isTrue => split <;> exact ⟨_, rfl⟩
      case isFalse => exact ⟨_, rfl⟩
    case deliverKeys =>
      simp only [Link.follow]
      split <;> exact ⟨_, rfl⟩

theorem posts_step (h : s.links[k]? = some l) (ho : l.Open) :
    ∃ t, l.Posts s.machine t ∧ (s.step (.post k)).1.links[k]? = some t.1 ∧
      (s.step (.post k)).1.machine = s.machine.collectFrame.1 ∧
      (s.step (.post k)).2 = (.answer t.2.1, t.2.2) := by
  rw [step_post (attached?_eq_some_iff.mpr ⟨h, ho.attached⟩)]
  exact ⟨_, l.tryPost_posts s.machine, link_setLink_self h _, rfl, rfl⟩

theorem newest_step (h : s.links[k]? = some l) (ho : l.Open) :
    (s.step (.newest k)).1.links[k]? = some l.newest.1 ∧ (s.step (.newest k)).1.machine = s.machine ∧
      (s.step (.newest k)).2.1 = .snapshot l.snapshots.getLast? := by
  rw [step_newest (frontend?_eq_some_iff.mpr ⟨h, ho.frontends⟩)]
  exact ⟨link_setLink_self h _, rfl, rfl⟩

theorem shown_cons_of_ne (hn : c ≠ .newest k) :
    s.shown k p (c :: cs) = (s.step c).1.shown k p cs := by
  rw [shown, if_neg hn]

theorem shown_newest (h : s.links[k]? = some l) (ho : l.Open) :
    s.shown k p [.newest k] = l.ahead p := by
  rw [shown, shown, if_pos rfl, (newest_step h ho).2.2, Link.ahead]
  cases l.snapshots.getLast? <;> rfl

-- What the frontend has ahead changes only to what the machine shows.
theorem faithful_step (hc : c.Sole k) (h : s.links[k]? = some l) (hf : l.Faithful s.machine p) :
    ∃ l', (s.step c).1.links[k]? = some l' ∧
      l'.Faithful (s.step c).1.machine (s.shown k p [c]) ∧
      (l'.ahead (s.shown k p [c]) = l.ahead p ∨ l'.ahead (s.shown k p [c]) = s.machine.picture) := by
  by_cases hp : c = .post k
  case pos =>
    subst hp
    have ⟨t, ht, hl, hm, _⟩ := posts_step h hf.isOpen
    rw [shown_cons_of_ne (by simp), hm]
    exact ⟨t.1, hl, ht.faithful hf, ht.ahead_eq_or⟩
  by_cases hn : c = .newest k
  case pos =>
    subst hn
    have ⟨hl, hm, _⟩ := newest_step h hf.isOpen
    rw [shown_newest h hf.isOpen, hm]
    exact ⟨_, hl, hf.newest, .inl rfl⟩
  case neg =>
    have ⟨keys, hl⟩ := link_step_of_sole hc hp hn h
    rw [shown_cons_of_ne hn]
    exact ⟨_, hl, hf.move (display_step hc hp), .inl rfl⟩

theorem faithful_run (hc : ∀ c ∈ cs, c.Sole k) (h : s.links[k]? = some l)
    (hf : l.Faithful s.machine p) :
    ∃ l', (s.run cs).links[k]? = some l' ∧ l'.Faithful (s.run cs).machine (s.shown k p cs) := by
  induction cs generalizing s l p
  case nil => exact ⟨l, h, hf⟩
  case cons c cs ih =>
    have ⟨hc, hcs⟩ := List.forall_mem_cons.mp hc
    have ⟨_, h', hf', _⟩ := faithful_step hc h hf
    exact ih hcs h' hf'

-- A frontend that has nothing to wait for has nothing to wait for until the machine shows something
-- else.
theorem ahead_run (hc : ∀ c ∈ cs, c.Sole k) (hs : s.Still cs) (h : s.links[k]? = some l)
    (hf : l.Faithful s.machine p) (ha : l.ahead p = s.machine.picture) :
    ∃ l', (s.run cs).links[k]? = some l' ∧ l'.Open ∧
      l'.ahead (s.shown k p cs) = (s.run cs).machine.picture := by
  induction cs generalizing s l p
  case nil => exact ⟨l, h, hf.isOpen, ha⟩
  case cons c cs ih =>
    have ⟨hc, hcs⟩ := List.forall_mem_cons.mp hc
    have ⟨hm, hs⟩ := hs
    have ⟨_, h', hf', ha'⟩ := faithful_step hc h hf
    refine ih hcs hs h' hf' (Eq.trans ?_ hm.symm)
    cases ha'
    case inl ha' => exact ha'.trans ha
    case inr ha' => exact ha'

-- While the queue is full, and while it is empty and nothing is posted, a link that is held back
-- waits.
theorem owes_step (hc : c.Sole k) (h : s.links[k]? = some l) (ho : l.Owes)
    (hq : l.capacity ≤ l.snapshots.length ∧ c ≠ .newest k ∨ l.snapshots = [] ∧ c ≠ .post k) :
    ∃ keys, (s.step c).1.links[k]? = some { l with keys } := by
  by_cases hp : c = .post k
  case pos =>
    subst hp
    have ⟨hf, _⟩ := hq.resolve_right fun he => he.2 rfl
    have ⟨_, ht, hl, _⟩ := posts_step h ho.isOpen
    exact ⟨l.keys, hl.trans (congrArg some (ht.eq_of_owes ho hf))⟩
  by_cases hn : c = .newest k
  case pos =>
    subst hn
    have ⟨he, _⟩ := hq.resolve_left fun hf => hf.2 rfl
    have hl := (newest_step h ho.isOpen).1
    rw [Link.newest, ← he] at hl
    exact ⟨l.keys, hl⟩
  case neg => exact link_step_of_sole hc hp hn h

theorem owes_run (hc : ∀ c ∈ cs, c.Sole k) (h : s.links[k]? = some l) (ho : l.Owes)
    (hq : l.capacity ≤ l.snapshots.length ∧ .newest k ∉ cs ∨ l.snapshots = [] ∧ .post k ∉ cs) :
    ∃ l', (s.run cs).links[k]? = some l' ∧ l'.Owes ∧ l'.snapshots = l.snapshots := by
  induction cs generalizing s l
  case nil => exact ⟨l, h, ho, rfl⟩
  case cons c cs ih =>
    have ⟨hc, hcs⟩ := List.forall_mem_cons.mp hc
    simp only [List.mem_cons, not_or, ne_comm] at hq
    have ⟨keys, h'⟩ := owes_step hc h ho (hq.imp (And.imp_right And.left) (And.imp_right And.left))
    have hq := hq.imp (And.imp_right And.right) (And.imp_right And.right)
    exact ih (l := { l with keys }) hcs h' ho.withKeys hq

theorem faithful_openLink (capacity : Nat) (hi : s.machine.state = .initial) :
    (Link.new capacity).Faithful (s.step (.openLink capacity)).1.machine .blank where
  isOpen := ⟨rfl, Nat.one_pos, Nat.lt_of_lt_of_le Nat.one_pos (Nat.le_max_right ..)⟩
  soundSent := rfl
  frame _ _ := congrArg State.display hi.symm

-- After a post that is not held back the frontend catches up with the machine.
theorem catches_up (h : s.links[k]? = some l) (hf : l.Faithful s.machine p)
    (hr : (s.step (.post k)).2.1 = .answer true ∨ l.snapshots.length < l.capacity)
    (hc : ∀ c ∈ cs, c.Sole k) (hs : (s.step (.post k)).1.Still cs) :
    s.shown k p (.post k :: cs ++ [.newest k]) = (s.run (.post k :: cs)).machine.picture := by
  obtain ⟨t, ht, hl, hm, hr'⟩ := posts_step h hf.isOpen
  rw [hr'] at hr
  have hf' := ht.faithful hf
  have ha := ht.ahead_eq hf (hr.imp_left Reply.answer.inj)
  rw [← hm] at hf'
  obtain ⟨l', hl, ho, ha⟩ := ahead_run hc hs hl hf' (ha.trans (congrArg Machine.picture hm).symm)
  rw [shown_append, run, shown_newest hl ho, shown_cons_of_ne (by simp), ha]

-- A post that is held back goes out once the frontend has made room.
theorem goes_out (h : s.links[k]? = some l) (ho : l.Open)
    (he : (s.step (.post k)).2.2 = [.heldBack]) (hc : ∀ c ∈ cs₁ ++ cs₂, c.Sole k)
    (hn : .newest k ∉ cs₁) (hp : .post k ∉ cs₂) :
    let t := (s.step (.post k)).1.run (cs₁ ++ .newest k :: cs₂)
    (t.step (.post k)).2 = (.answer true, []) ∧
      ((t.step (.post k)).1.step (.newest k)).2.1 = .snapshot (some t.machine.snapshot) := by
  intro t
  obtain ⟨hc₁, hc₂⟩ := List.forall_mem_append.mp hc
  obtain ⟨t₀, ht, hl, _, hr⟩ := posts_step h ho
  rw [hr] at he
  obtain ⟨ho, hf⟩ := ht.owes ho he
  obtain ⟨_, hl, ho, _⟩ := owes_run hc₁ hl ho (.inl ⟨hf, hn⟩)
  obtain ⟨hl, _⟩ := newest_step hl ho.isOpen
  obtain ⟨l', hl, ho, hs⟩ := owes_run hc₂ hl ho.newest (.inr ⟨rfl, hp⟩)
  rw [← run, ← run_append] at hl
  obtain ⟨t₁, ht, hl, _, hr⟩ := posts_step hl ho.isOpen
  have hc : l'.snapshots.length < l'.capacity := hs ▸ ho.isOpen.room
  obtain ⟨hs', ha⟩ := ht.sent_of_owes ho hc
  rw [hr, ha, (newest_step hl (ht.isOpen ho.isOpen)).2.2, hs', List.getLast?_concat]
  exact ⟨rfl, rfl⟩

-- No change is lost on the way from a machine to the frontend of a link that was opened in its initial
-- state. After a post that is not held back the frontend catches up by its next look at the queue, and
-- where one is held back, the first post after such a look sends what the machine shows by then.
theorem frontend_keeps_up (s : Session) (capacity : Nat) (cs : List Command)
    (hi : s.machine.state = .initial) (hc : ∀ c ∈ cs, c.Sole s.links.length) :
    let k := s.links.length
    let s₀ := (s.step (.openLink capacity)).1
    let t := s₀.run cs
    ∃ l sent events, t.links[k]? = some l ∧ (t.step (.post k)).2 = (.answer sent, events) ∧
      (sent = true ∨ l.snapshots.length < l.capacity → ∀ cs', (∀ c ∈ cs', c.Sole k) →
        (t.step (.post k)).1.Still cs' →
        s₀.shown k .blank (cs ++ .post k :: cs' ++ [.newest k]) =
          (s₀.run (cs ++ .post k :: cs')).machine.picture) ∧
      (sent = false ∧ events = [.heldBack] → ∀ cs₁ cs₂, (∀ c ∈ cs₁ ++ cs₂, c.Sole k) →
        .newest k ∉ cs₁ → .post k ∉ cs₂ →
        let u := (t.step (.post k)).1.run (cs₁ ++ .newest k :: cs₂)
        (u.step (.post k)).2 = (.answer true, []) ∧
          ((u.step (.post k)).1.step (.newest k)).2.1 = .snapshot (some u.machine.snapshot)) := by
  intro k s₀ t
  have ⟨l, h, hf⟩ := faithful_run hc (s.link_openLink capacity) (faithful_openLink capacity hi)
  have ⟨⟨_, sent, events⟩, _, _, _, hr⟩ := posts_step h hf.isOpen
  refine ⟨l, sent, events, h, hr, ?_, ?_⟩
  case refine_1 =>
    intro hs cs' hc' hq
    rw [run_append, List.append_assoc, shown_append]
    refine catches_up h hf (hs.imp_left fun e => ?_) hc' hq
    rw [hr, e]
  case refine_2 =>
    intro he cs₁ cs₂ hc' hn hp
    exact goes_out h hf.isOpen (hr ▸ he.2) hc' hn hp

-- The sound goes on, and off again before the frontend has looked.
theorem frontend_keeps_up_with_sound :
    let s := new {} ⟨.replicate 8 0⟩
    let s₀ := (s.step (.openLink 1)).1
    let cs := [.load [0x60, 0x02, 0xF0, 0x18], .cycle, .cycle]
    s₀.shown 0 .blank (cs ++ [.post 0] ++ [.newest 0]) = ⟨.blank, true⟩ ∧
      let t := s₀.run (cs ++ [.post 0, .tick])
      let u := (t.step (.post 0)).1.run [.newest 0]
      (u.step (.post 0)).2 = (.answer true, []) ∧
        ((u.step (.post 0)).1.step (.newest 0)).2.1 = .snapshot (some ⟨.blank, false, 0⟩) := by
  intro s s₀ cs
  let m₀ := Machine.new {} ⟨.replicate 8 0⟩
  obtain ⟨memory, hm, hl⟩ : ∃ memory, memory = Memory.initial.put 0x200 [0x60, 0x02, 0xF0, 0x18] ∧
      m₀.act (.load [0x60, 0x02, 0xF0, 0x18]) = { m₀ with state.memory := memory } := ⟨_, rfl, rfl⟩
  have hf₁ : memory.fetch 0x200 = .ok 0x6002 :=
    hm ▸ Memory.fetch_put (by decide) (by decide) rfl rfl rfl
  have hf₂ : memory.fetch 0x202 = .ok 0xF018 :=
    hm ▸ Memory.fetch_put (by decide) (by decide) rfl rfl rfl
  let m₁ := { m₀ with state := { m₀.state with memory, pc := 0x202, v := m₀.state.v.set .v0 2 } }
  let m₂ := { m₁ with state := { m₁.state with pc := 0x204, timers.sound := 1 } }
  have h₁ : (Machine.cycle { m₀ with state.memory := memory }).machine = m₁ :=
    (Machine.cycle_of_execute (i := .loadByte .v0 2) rfl hf₁ rfl rfl).1
  have h₂ : m₁.cycle.machine = m₂ :=
    (Machine.cycle_of_execute (i := .setSound .v0) rfl hf₂ rfl rfl).1
  have hs : s₀.run cs = ⟨m₂, [.new 1]⟩ := by
    have hs₀ : (s₀.step (.load [0x60, 0x02, 0xF0, 0x18])).1 =
        ⟨{ m₀ with state.memory := memory }, [.new 1]⟩ := congrArg (Session.mk · [.new 1]) hl
    have hs₁ : (step ⟨{ m₀ with state.memory := memory }, [.new 1]⟩ .cycle).1 = ⟨m₁, [.new 1]⟩ :=
      congrArg (Session.mk · [.new 1]) h₁
    have hs₂ : (step ⟨m₁, [.new 1]⟩ .cycle).1 = ⟨m₂, [.new 1]⟩ :=
      congrArg (Session.mk · [.new 1]) h₂
    simp only [cs, run, hs₀, hs₁, hs₂]
  have hc : ∀ c ∈ cs, c.Sole 0 := by simp [cs, Command.Sole]
  have hc' : ∀ c ∈ cs ++ [.post 0, .tick], c.Sole 0 := by simp [cs, Command.Sole]
  obtain ⟨_, sent, _, _, ha, hk, _⟩ := frontend_keeps_up s 1 cs rfl hc
  have hr : sent = true := by
    change ((s₀.run cs).step (.post 0)).2 = _ at ha
    rw [hs] at ha
    exact Reply.answer.inj (congrArg Prod.fst ha).symm
  have hp := hk (.inl hr) [] (by simp) trivial
  refine ⟨hp.trans ?_, ?_⟩
  case refine_1 =>
    rw [run_append, hs]
    rfl
  case refine_2 =>
    intro t u
    have ht : t = (⟨m₂, [.new 1]⟩ : Session).run [.post 0, .tick] := by
      simp only [t, run_append, hs]
    obtain ⟨_, _, _, _, ha, _, hk⟩ := frontend_keeps_up s 1 (cs ++ [.post 0, .tick]) rfl hc'
    have he : (t.step (.post 0)).2 = (.answer false, [.heldBack]) := by
      rw [ht]
      rfl
    obtain ⟨ha, hb⟩ := Prod.mk.inj (ha.symm.trans he)
    obtain ⟨hp, hn⟩ := hk ⟨Reply.answer.inj ha, hb⟩ [] [] (by simp) (by simp) (by simp)
    have hl : s.links.length = 0 := rfl
    simp only [hl, List.nil_append] at hp hn
    have hu : u.machine.snapshot = ⟨.blank, false, 0⟩ := by
      simp only [u, ht]
      rfl
    rw [← hu]
    simp only [u, t, s₀]
    exact ⟨hp, hn⟩

end Session
end Chip8
