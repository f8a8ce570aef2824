import Chip8.Proofs.Observation
import Chip8.Proofs.Picture

-- Links that share a machine. The machine has one redraw flag for all of them: a posting on one link takes
-- it, and the links that post after it do not learn of what was drawn. The same commands without the
-- postings on a link tell what these take away from another.

namespace Chip8

namespace Command

variable {j : Nat} {c : Command} {cs : List Command}

-- The commands without the postings on link `j`.
def without (j : Nat) (cs : List Command) : List Command :=
  cs.filter fun c => c ≠ .post j

theorem without_eq_self (hp : .post j ∉ cs) : without j cs = cs :=
  List.filter_eq_self.mpr fun _ hc => decide_eq_true fun he => hp (he ▸ hc)

theorem without_cons_post : without j (.post j :: cs) = without j cs := by
  simp [without]

theorem without_cons_of_ne (hc : c ≠ .post j) : without j (c :: cs) = c :: without j cs := by
  simp [without, hc]

end Command

namespace Machine

variable {m : Machine} {mv : Move}

-- Moves hand the flag on without looking at it, unless they take it down.
theorem act_withRedraw (hr : mv ≠ .reset) (hf : mv ≠ .collectFrame) (b : Bool) :
    (m.withRedraw (m.state.redraw || b)).act mv =
      (m.act mv).withRedraw ((m.act mv).state.redraw || b) := by
  cases mv
  case reset | collectFrame => contradiction
  case cycle =>
    have ⟨drawn, hd, hc⟩ := m.cycle_goes.withRedraw (m.state.redraw || b)
    rw [act, act, ← hc.eq_cycle, hd, Bool.or_assoc]
  case load program =>
    simp only [act, load, withRedraw]
    split <;> rfl
  case setHeld key held =>
    simp only [act, setHeld, withRedraw]
    split <;> rfl
  case tick | deliver => rfl

end Machine

namespace Link

variable {l : Link} {m : Machine} {c : Command} {b : Bool}

theorem stale_withRedraw (l : Link) (m : Machine) (b : Bool) :
    l.stale (m.withRedraw (m.state.redraw || b)) = (l.stale m || b) := by
  simp only [stale, Machine.withRedraw, Machine.soundOn]
  cases b <;> simp

-- A flag that is up makes no difference to a link that has something to tell anyway.
theorem tryPost_withRedraw (hs : b = true → l.stale m = true) :
    l.tryPost (m.withRedraw (m.state.redraw || b)) = l.tryPost m := by
  have hb : (l.stale m || b) = l.stale m := by
    cases b
    case false => exact Bool.or_false _
    case true => rw [hs rfl, Bool.true_or]
  simp only [tryPost, stale_withRedraw, hb]
  rfl

theorem follow_withRedraw (hs : ∀ k, c = .post k → l.attached = true → b = true → l.stale m = true) :
    l.follow (m.withRedraw (m.state.redraw || b)) c = l.follow m c := by
  cases c
  case post k =>
    simp only [follow]
    split
    case isTrue ha =>
      change (l.tryPost _).1 = (l.tryPost m).1
      rw [tryPost_withRedraw (hs k rfl ha)]
    case isFalse => rfl
  all_goals rfl

end Link

namespace Session

variable {s t : Session} {j k : Nat} {l : Link} {b : Bool} {c : Command} {cs ds : List Command}
  {p : Picture}

-- Whether after a command a redraw is missing from the flag that postings on link `j` have taken, and that
-- nothing else has taken since. `missing` tells it before the command.
def takesRedraw (s : Session) (j : Nat) (missing : Bool) (c : Command) : Bool :=
  if s.move? c = some .collectFrame then c = .post j && (s.machine.state.redraw || missing)
  else if s.move? c = some .reset then false
  else missing

def redrawTaken (s : Session) (j : Nat) (missing : Bool) : List Command → Bool
  | [] => missing
  | c :: cs => (s.step c).1.redrawTaken j (s.takesRedraw j missing c) cs

-- What the commands about link `k` answer.
def linkReplies (s : Session) (k : Nat) (cs : List Command) : List Reply :=
  s.gather (fun s c => if c.link? = some k then some (s.step c).2.1 else none) cs

-- Whenever something is posted on link `k` while a redraw is missing that postings on link `j` have taken,
-- there is something else to tell.
def Spares (s : Session) (j k : Nat) (missing : Bool) (cs : List Command) : Prop :=
  ∀ cs₁ cs₂, cs = cs₁ ++ .post k :: cs₂ → ∀ l, (s.run cs₁).attached? k = some l →
    s.redrawTaken j missing cs₁ = true → l.stale (s.run cs₁).machine = true

theorem Spares.head (h : s.Spares j k b (c :: cs)) (hc : c = .post k) (hl : s.attached? k = some l) :
    b = true → l.stale s.machine = true :=
  h [] cs (by rw [hc]; rfl) l hl

theorem Spares.tail (h : s.Spares j k b (c :: cs)) :
    (s.step c).1.Spares j k (s.takesRedraw j b c) cs :=
  fun cs₁ cs₂ he => h (c :: cs₁) cs₂ (congrArg (c :: ·) he)

theorem spares_of_not_mem (hp : .post k ∉ cs) : s.Spares j k b cs :=
  fun _ _ he => absurd (he ▸ List.mem_append_right _ List.mem_cons_self) hp

-- The last posting on link `k` comes on top of those before it.
theorem Spares.append_post (h : s.Spares j k b cs)
    (hs : ∀ l, (s.run cs).attached? k = some l → s.redrawTaken j b cs = true →
      l.stale (s.run cs).machine = true) (hd : .post k ∉ ds) :
    s.Spares j k b (cs ++ .post k :: ds) := by
  intro cs₁ cs₂ he
  obtain ⟨es, hes, he⟩ | ⟨es, hes, he⟩ := List.append_eq_append_iff.mp he
  case inl =>
    obtain _ | ⟨e, es⟩ := es
    case nil => rwa [hes, List.append_nil]
    case cons => exact absurd ((List.cons.inj he).2 ▸ List.mem_append_right _ List.mem_cons_self) hd
  case inr =>
    obtain _ | ⟨e, es⟩ := es
    case nil => rwa [hes, List.append_nil] at hs
    case cons => exact h cs₁ es ((List.cons.inj he).1 ▸ hes)

theorem redrawTaken_append (cs ds : List Command) : s.redrawTaken j b (cs ++ ds) =
    (s.run cs).redrawTaken j (s.redrawTaken j b cs) ds := by
  induction cs generalizing s b with
  | nil => rfl
  | cons c cs ih => exact ih

-- Two sessions that have come the same way, but for postings that have taken a redraw from the first if
-- `missing` says so. What these do to their own link shows nowhere else.
structure Beside (s t : Session) (k : Nat) (missing : Bool) : Prop where
  unseen : s.unseen = t.unseen
  machine : t.machine = s.machine.withRedraw (s.machine.state.redraw || missing)
  link : s.links[k]? = t.links[k]?

namespace Beside

theorem refl (s : Session) (k : Nat) : s.Beside s k false where
  unseen := rfl
  machine := by rw [Bool.or_false]; rfl
  link := rfl

theorem move? (h : s.Beside t k b) (c : Command) : s.move? c = t.move? c := by
  rw [← move?_unseen, h.unseen, move?_unseen]

theorem machine_step (h : s.Beside t k b) (hc : c ≠ .post j) : (t.step c).1.machine =
    (s.step c).1.machine.withRedraw ((s.step c).1.machine.state.redraw || s.takesRedraw j b c) := by
  rw [Session.machine_step, Session.machine_step, ← h.move?, takesRedraw, h.machine]
  by_cases hf : s.move? c = some .collectFrame
  case pos =>
    rw [if_pos hf, hf, decide_eq_false hc]
    rfl
  by_cases hr : s.move? c = some .reset
  case pos =>
    rw [if_neg hf, if_pos hr, hr]
    rfl
  case neg =>
    rw [if_neg hf, if_neg hr]
    cases hm : s.move? c
    case none => rfl
    case some mv =>
      have hr : mv ≠ .reset := fun he => hr (he ▸ hm)
      have hf : mv ≠ .collectFrame := fun he => hf (he ▸ hm)
      exact Machine.act_withRedraw hr hf b

theorem link_step (h : s.Beside t k b) (hl : s.links[k]? = some l)
    (hs : c = .post k → l.attached = true → b = true → l.stale s.machine = true) :
    (s.step c).1.links[k]? = (t.step c).1.links[k]? := by
  have hl' := h.link.symm.trans hl
  by_cases hc : c.link? = some k
  case neg => rw [link_step_of_ne hc hl, link_step_of_ne hc hl']
  case pos =>
    rw [Session.link_step hc hl, Session.link_step hc hl', h.machine, Link.follow_withRedraw]
    rintro i rfl
    exact hs (congrArg _ (Option.some.inj hc))

theorem reply_step (h : s.Beside t k b) (hl : s.links[k]? = some l) (hc : c.link? = some k)
    (hs : c = .post k → l.attached = true → b = true → l.stale s.machine = true) :
    (s.step c).2.1 = (t.step c).2.1 := by
  have hl' := h.link.symm.trans hl
  cases ho : c.observes
  case false => rw [← (step_unseen ho).1, h.unseen, (step_unseen ho).1]
  case true =>
    cases c <;> cases ho <;> cases hc
    case newest =>
      simp only [step, frontend?_of_link hl, frontend?_of_link hl']
      split <;> rfl
    case post =>
      cases ha : l.attached
      case false => simp only [step, attached?_eq_none hl ha, attached?_eq_none hl' ha]
      case true =>
        have hl := attached?_eq_some_iff.mpr ⟨hl, ha⟩
        have hl' := attached?_eq_some_iff.mpr ⟨hl', ha⟩
        rw [step_post hl, step_post hl', h.machine, Link.tryPost_withRedraw (hs rfl ha)]

-- What both sessions do alike.
theorem step (h : s.Beside t k b) (hl : s.links[k]? = some l) (hc : c ≠ .post j)
    (hs : c = .post k → l.attached = true → b = true → l.stale s.machine = true) :
    (s.step c).1.Beside (t.step c).1 k (s.takesRedraw j b c) where
  unseen := by
    cases ho : c.observes
    case false => rw [← (step_unseen ho).2, h.unseen, (step_unseen ho).2]
    case true => rw [step_observes ho, h.unseen, step_observes ho]
  machine := h.machine_step hc
  link := h.link_step hl hs

-- What the first does alone.
theorem post (h : s.Beside t k b) (hl : s.links[k]? = some l) (hj : j ≠ k) :
    (s.step (.post j)).1.Beside t k (s.takesRedraw j b (.post j)) where
  unseen := (step_observes rfl).trans h.unseen
  machine := by
    have hm : s.move? (.post j) = (s.attached? j).map fun _ => .collectFrame := rfl
    rw [h.machine, Session.machine_step, takesRedraw]
    cases ha : s.attached? j
    case none =>
      rw [ha, Option.map_none] at hm
      rw [hm, if_neg nofun, if_neg nofun]
      rfl
    case some =>
      rw [ha, Option.map_some] at hm
      rw [hm, if_pos rfl, decide_eq_true rfl]
      rfl
  link := by
    have hc : (Command.post j).link? ≠ some k := fun he => hj (Option.some.inj he)
    exact (link_step_of_ne hc hl).trans (hl.symm.trans h.link)

end Beside

theorem linkReplies_cons (c : Command) (cs : List Command) : s.linkReplies k (c :: cs) =
    (if c.link? = some k then [(s.step c).2.1] else []) ++ (s.step c).1.linkReplies k cs := by
  rw [linkReplies, gather]
  split <;> rfl

theorem beside_run (h : s.Beside t k b) (hl : s.links[k]? = some l) (hj : j ≠ k)
    (hs : s.Spares j k b cs) :
    (s.run cs).Beside (t.run (Command.without j cs)) k (s.redrawTaken j b cs) ∧
      s.linkReplies k cs = t.linkReplies k (Command.without j cs) ∧
      ∀ p, s.shown k p cs = t.shown k p (Command.without j cs) := by
  induction cs generalizing s t l b
  case nil => exact ⟨h, rfl, fun _ => rfl⟩
  case cons c cs ih =>
    obtain ⟨l', hl'⟩ := exists_link_step hl c
    by_cases hc : c = .post j
    case pos =>
      subst hc
      have hc : (Command.post j).link? ≠ some k := fun he => hj (Option.some.inj he)
      obtain ⟨hb, hr, hp⟩ := ih (h.post hl hj) hl' hs.tail
      rw [Command.without_cons_post, linkReplies_cons, if_neg hc]
      exact ⟨hb, hr, fun p => (shown_cons_of_ne (by simp)).trans (hp p)⟩
    case neg =>
      have hs' : c = .post k → l.attached = true → b = true → l.stale s.machine = true :=
        fun hc ha => hs.head hc (attached?_eq_some_iff.mpr ⟨hl, ha⟩)
      obtain ⟨hb, hr, hp⟩ := ih (h.step hl hc hs') hl' hs.tail
      rw [Command.without_cons_of_ne hc, linkReplies_cons, linkReplies_cons, hr]
      refine ⟨hb, ?_, fun p => ?_⟩
      case refine_1 =>
        split
        case isTrue hk => rw [h.reply_step hl hk hs']
        case isFalse => rfl
      case refine_2 =>
        rw [shown, shown, hp]
        split
        case isTrue hn => rw [h.reply_step hl (hn ▸ rfl) hs']
        case isFalse => rfl

-- A posting that finds room and something to tell lets the frontend catch up with the first session, if the
-- link is faithful to the second.
theorem Beside.catches_up (h : s.Beside t k b) (hl : s.links[k]? = some l) (hj : j ≠ k)
    (hf : l.Faithful t.machine p) (hc : l.snapshots.length < l.capacity)
    (hs : b = true → l.stale s.machine = true) :
    s.shown k p [.post k, .newest k] = s.machine.picture := by
  have hs : s.Spares j k b [.post k, .newest k] := by
    have h : s.Spares j k b [] := spares_of_not_mem List.not_mem_nil
    refine h.append_post (fun l' ha => ?_) (by simp)
    obtain rfl := Option.some.inj (hl.symm.trans (attached?_eq_some_iff.mp ha).1)
    exact hs
  have hw : Command.without j [.post k, .newest k] = [.post k, .newest k] :=
    Command.without_eq_self (by simp [hj])
  have ⟨_, _, hp⟩ := beside_run h hl hj hs
  rw [hw] at hp
  have hl := h.link.symm.trans hl
  have ht := Session.catches_up hl hf (.inr hc) (List.forall_mem_nil _) trivial
  have ⟨_, _, _, hm, _⟩ := posts_step hl hf.isOpen
  calc s.shown k p [.post k, .newest k]
    _ = t.shown k p [.post k, .newest k] := hp p
    _ = (t.run [.post k]).machine.picture := ht
    _ = t.machine.picture := (congrArg Machine.picture hm).trans rfl
    _ = s.machine.picture := (congrArg Machine.picture h.machine).trans rfl

-- Postings on one link make a difference to another only by the redraw flag that they take. What the
-- commands about the other link answer stays the same until something is posted on it with a redraw missing
-- and nothing else to tell; this posting sends nothing, where without the others it would. As long as there
-- was none of that kind, the frontend of a link that was opened in the initial state catches up with the
-- machine after every posting with room.
theorem posting_takes_redraws (s : Session) (j k : Nat) (cs : List Command) (hj : j ≠ k)
    (hk : k < s.links.length)
    (hs : ∀ cs₁ cs₂, cs = cs₁ ++ .post k :: cs₂ → ∀ l, (s.run cs₁).attached? k = some l →
      s.redrawTaken j false cs₁ = true → l.stale (s.run cs₁).machine = true) :
    let ds := Command.without j cs
    let u := s.run cs
    let t := s.run ds
    let missing := s.redrawTaken j false cs
    s.linkReplies k cs = s.linkReplies k ds ∧
    u.links[k]? = t.links[k]? ∧ u.machine.withRedraw false = t.machine.withRedraw false ∧
    (∀ l, u.attached? k = some l → 0 < l.frontends → l.snapshots.length < l.capacity →
      (u.step (.post k)).2.1 = .answer (l.stale u.machine) ∧
      (t.step (.post k)).2.1 = .answer (l.stale u.machine || missing)) ∧
    (∀ capacity l, s.links[k]? = some (.new capacity) → s.machine.state = .initial →
      (∀ c ∈ ds, c.Sole k) → u.links[k]? = some l → l.snapshots.length < l.capacity →
      (missing = true → l.stale u.machine = true) →
      s.shown k .blank (cs ++ [.post k, .newest k]) = u.machine.picture) := by
  intro ds u t missing
  obtain ⟨hb, hr, hp⟩ := beside_run (.refl s k) (List.getElem?_eq_getElem hk) hj hs
  refine ⟨hr, hb.link, ?_, ?_, ?_⟩
  case refine_1 => exact (congrArg (Machine.withRedraw · false) hb.machine).symm
  case refine_2 =>
    intro l hl hf hc
    have ⟨hl', ha⟩ := attached?_eq_some_iff.mp hl
    have hl' : t.attached? k = some l := attached?_eq_some_iff.mpr ⟨hb.link.symm.trans hl', ha⟩
    rw [step_post hl, step_post hl', Link.tryPost_sent hf hc, Link.tryPost_sent hf hc, hb.machine,
      Link.stale_withRedraw]
    exact ⟨rfl, rfl⟩
  case refine_3 =>
    intro capacity l hl hi hd hl' hc hm
    have hf : (Link.new capacity).Faithful s.machine .blank := faithful_openLink capacity hi
    obtain ⟨l₀, hl₀, hf⟩ := faithful_run hd hl hf
    obtain rfl := Option.some.inj (hl'.symm.trans (hb.link.trans hl₀))
    rw [shown_append, hp]
    exact hb.catches_up hl' hj hf hc hm

-- When a sound comes on, a posting on the other link does no harm, as there is something to tell anyway. It
-- does once the sound has been told.
theorem posting_takes_redraws_behind_sound :
    let s : Session := ⟨.new { timer := .host } ⟨.replicate 8 0⟩, [.new 2, .new 2]⟩
    let cs := [.load [0x60, 0x05, 0xF0, 0x18, 0x00, 0xE0, 0x00, 0xE0], .cycle, .cycle, .cycle, .post 0]
    let ds := cs ++ [.post 1, .cycle, .post 0]
    let u := s.run ds
    let t := s.run (Command.without 0 ds)
    s.shown 1 .blank (cs ++ [.post 1, .newest 1]) = (s.run cs).machine.picture ∧
      (u.step (.post 1)).2.1 = .answer false ∧ (t.step (.post 1)).2.1 = .answer true := by
  intro s cs
  let m := Machine.new { timer := .host } ⟨.replicate 8 0⟩
  obtain ⟨memory, hp, hl⟩ : ∃ memory,
      memory = Memory.initial.put 0x200 [0x60, 0x05, 0xF0, 0x18, 0x00, 0xE0, 0x00, 0xE0] ∧
      m.act (.load [0x60, 0x05, 0xF0, 0x18, 0x00, 0xE0, 0x00, 0xE0]) = { m with state.memory := memory } :=
    ⟨_, rfl, rfl⟩
  have hf₀ : memory.fetch 0x200 = .ok 0x6005 :=
    hp ▸ Memory.fetch_put (by decide) (by decide) rfl rfl rfl
  have hf₁ : memory.fetch 0x202 = .ok 0xF018 :=
    hp ▸ Memory.fetch_put (by decide) (by decide) rfl rfl rfl
  have hf₂ : memory.fetch 0x204 = .ok 0x00E0 :=
    hp ▸ Memory.fetch_put (by decide) (by decide) rfl rfl rfl
  have hf₃ : memory.fetch 0x206 = .ok 0x00E0 :=
    hp ▸ Memory.fetch_put (by decide) (by decide) rfl rfl rfl
  let m₀ : Machine := { m with state.memory := memory }
  let v := m.state.v.set .v0 5
  let m₁ := { m₀ with state := { m₀.state with pc := 0x202, v } }
  let m₂ := { m₁ with state := { m₁.state with pc := 0x204, timers := ⟨0, 5, 0⟩ } }
  let m₃ := { m₂ with state := { m₂.state with pc := 0x206, redraw := true } }
  let m₄ := { m₂ with state := { m₂.state with pc := 0x208, redraw := true } }
  have hg : v.get .v0 = 5 := (Registers.get_set ..).trans (if_pos rfl)
  have he₁ : (Instruction.setSound .v0).execute m₁.generator.byte m₁.state = .ok m₂.state := by
    rw [Instruction.execute, hg]
    rfl
  have h₀ : m₀.cycle.machine = m₁ := (Machine.cycle_of_execute (i := .loadByte .v0 5) rfl hf₀ rfl rfl).1
  have h₁ : m₁.cycle.machine = m₂ := (Machine.cycle_of_execute rfl hf₁ rfl he₁).1
  have h₂ : m₂.cycle.machine = m₃ := (Machine.cycle_of_execute (i := .clear) rfl hf₂ rfl rfl).1
  have h₃ : (m₃.withRedraw false).cycle.machine = m₄ :=
    (Machine.cycle_of_execute (i := .clear) rfl hf₃ rfl rfl).1
  let ls : List Link := [.new 2, .new 2]
  let l : Link := ⟨2, [], [m₃.snapshot], 1, true, true, false⟩
  have hcs : s.run cs = ⟨m₃.withRedraw false, [l, .new 2]⟩ := by
    have hs₀ : (step ⟨m, ls⟩ (.load [0x60, 0x05, 0xF0, 0x18, 0x00, 0xE0, 0x00, 0xE0])).1 = ⟨m₀, ls⟩ :=
      congrArg (Session.mk · ls) hl
    have hs₁ : (step ⟨m₀, ls⟩ .cycle).1 = ⟨m₁, ls⟩ := congrArg (Session.mk · ls) h₀
    have hs₂ : (step ⟨m₁, ls⟩ .cycle).1 = ⟨m₂, ls⟩ := congrArg (Session.mk · ls) h₁
    have hs₃ : (step ⟨m₂, ls⟩ .cycle).1 = ⟨m₃, ls⟩ := congrArg (Session.mk · ls) h₂
    change run ⟨m, ls⟩ _ = _
    rw [run, hs₀, run, hs₁, run, hs₂, run, hs₃]
    rfl
  have hds (ls : List Link) : run ⟨m₃.withRedraw false, ls⟩ [.cycle] = ⟨m₄, ls⟩ :=
    congrArg (Session.mk · ls) h₃
  have hu : s.run (cs ++ [.post 1, .cycle]) = ⟨m₄, [l, l]⟩ := by
    rw [run_append, hcs]
    exact hds [l, l]
  intro ds u t
  simp only [u, t]
  have hds : ds = cs ++ [.post 1, .cycle] ++ [.post 0] := rfl
  have hu' : s.run ds =
      ⟨m₄.withRedraw false, [{ l with snapshots := [m₃.snapshot, m₄.snapshot] }, l]⟩ := by
    rw [hds, run_append, hu]
    rfl
  have hm : s.redrawTaken 0 false ds = true := by
    rw [hds, redrawTaken_append, hu]
    rfl
  have hs₁ : s.Spares 0 1 false cs := spares_of_not_mem (by simp [cs])
  have hs₂ : s.Spares 0 1 false ds := by
    refine hs₁.append_post (fun l' hl _ => ?_) (by simp)
    rw [hcs] at hl ⊢
    cases hl
    rfl
  have hj : 0 ≠ 1 := by decide
  have hk : 1 < s.links.length := by decide
  have hd : ∀ c ∈ Command.without 0 cs, c.Sole 1 := by simp [cs, Command.without, Command.Sole]
  obtain ⟨_, _, _, _, h₁⟩ := posting_takes_redraws s 0 1 cs hj hk hs₁
  obtain ⟨_, _, _, h₂, _⟩ := posting_takes_redraws s 0 1 ds hj hk hs₂
  have hl₁ : (s.run cs).links[1]? = some (.new 2) := by rw [hcs]; rfl
  have hl₂ : (s.run ds).attached? 1 = some l := by rw [hu']; rfl
  have hn₁ : (Link.new 2).stale (s.run cs).machine = true := by rw [hcs]; rfl
  have hn₂ : l.stale (s.run ds).machine = false := by rw [hu']; rfl
  obtain ⟨h₂, h₃⟩ := h₂ l hl₂ Nat.one_pos Nat.one_lt_two
  rw [hn₂] at h₂
  rw [hm, Bool.or_true] at h₃
  exact ⟨h₁ 2 (.new 2) rfl rfl hd hl₁ Nat.two_pos fun _ => hn₁, h₂, h₃⟩

-- A sprite is drawn and posted on two links, one after the other. The frontend of the second is not told.
theorem posting_takes_redraw_of_sprite :
    let s := (new {} ⟨.replicate 8 0⟩).run [.openLink 1, .openLink 1]
    let cs := [.load [0xA2, 0x00, 0xD0, 0x01], .cycle, .cycle, .post 0, .post 1, .newest 1]
    let d := (s.run cs).machine.state.display
    d ≠ .blank ∧ s.linkReplies 1 cs = [.answer false, .snapshot none] ∧
      s.linkReplies 1 (Command.without 0 cs) = [.answer true, .snapshot (some ⟨d, false, 0⟩)] := by
  let m := Machine.new {} ⟨.replicate 8 0⟩
  let ls : List Link := [.new 1, .new 1]
  obtain ⟨memory, hp, hl⟩ : ∃ memory, memory = Memory.initial.put 0x200 [0xA2, 0x00, 0xD0, 0x01] ∧
      m.act (.load [0xA2, 0x00, 0xD0, 0x01]) = { m with state.memory := memory } := ⟨_, rfl, rfl⟩
  have hf₁ : memory.fetch 0x200 = .ok 0xA200 :=
    hp ▸ Memory.fetch_put (by decide) (by decide) rfl rfl rfl
  have hf₂ : memory.fetch 0x202 = .ok 0xD001 :=
    hp ▸ Memory.fetch_put (by decide) (by decide) rfl rfl rfl
  have hs : memory.slice 0x200 1 = .ok [0xA2] := by
    have hg : memory.get 0x200 = 0xA2 := hp ▸ Memory.get_put (by decide) _
    exact Memory.slice_eq_ok_iff.mpr ⟨by decide, congrArg (· :: []) hg.symm⟩
  let m₁ := { m with state := { m.state with memory, pc := 0x202, i := 0x200 } }
  have h₁ : (Machine.cycle { m with state.memory := memory }).machine = m₁ :=
    (Machine.cycle_of_execute (i := .loadIndex ⟨0x200, by decide⟩) rfl hf₁ rfl rfl).1
  have h₂ := (Machine.cycle_of_execute (m := m₁) (i := .draw .v0 .v0 1) rfl hf₂ rfl
    (Instruction.execute_draw hs)).1
  obtain ⟨v, d, hd, h₂⟩ : ∃ v d, d.isLit (Display.cell 0 0) = true ∧ m₁.cycle.machine =
      { m₁ with state := { m₁.state with v, pc := 0x204, display := d, redraw := true } } := by
    rw [Machine.elapse_eq] at h₂
    generalize hg : m₁.state.display.draw (m₁.state.v.get .v0) (m₁.state.v.get .v0) [0xA2] = g at h₂
    refine ⟨(m₁.state.advance.setFlag g.2).v, g.1, ?_, h₂⟩
    rw [← hg, Display.draw, Display.isLit_toggleAll]
    exact congrArg (· ^^ true) (Display.isLit_blank _)
  let m₂ := { m₁ with state := { m₁.state with v, pc := 0x204, display := d, redraw := true } }
  have hr₀ : (step ⟨m, ls⟩ (.load [0xA2, 0x00, 0xD0, 0x01])).1 = ⟨{ m with state.memory := memory }, ls⟩ :=
    congrArg (Session.mk · ls) hl
  have hr₁ : (step ⟨{ m with state.memory := memory }, ls⟩ .cycle).1 = ⟨m₁, ls⟩ :=
    congrArg (Session.mk · ls) h₁
  have hr₂ : (step ⟨m₁, ls⟩ .cycle).1 = ⟨m₂, ls⟩ := congrArg (Session.mk · ls) h₂
  have hr (cs : List Command) :
      linkReplies ⟨m, ls⟩ 1 (.load [0xA2, 0x00, 0xD0, 0x01] :: .cycle :: .cycle :: cs) =
        linkReplies ⟨m₂, ls⟩ 1 cs := by
    rw [linkReplies_cons, linkReplies_cons, linkReplies_cons, hr₀, hr₁, hr₂]
    rfl
  have hcs : (run ⟨m, ls⟩ [.load [0xA2, 0x00, 0xD0, 0x01], .cycle, .cycle, .post 0, .post 1,
      .newest 1]).machine.state.display = d := by
    rw [run, run, run, hr₀, hr₁, hr₂]
    rfl
  have hn : (new {} ⟨.replicate 8 0⟩).run [.openLink 1, .openLink 1] = ⟨m, ls⟩ := rfl
  simp only [hn, hcs]
  refine ⟨?_, ?_, ?_⟩
  case refine_1 =>
    rintro rfl
    exact Bool.false_ne_true ((Display.isLit_blank _).symm.trans hd)
  case refine_2 => exact (hr [.post 0, .post 1, .newest 1]).trans rfl
  case refine_3 => exact (hr [.post 1, .newest 1]).trans rfl

end Session
end Chip8
