import Chip8.Proofs.Commands
import Chip8.Proofs.Links

-- When a link posts a snapshot. It remembers the sound state it sent last and a single flag, which is all
-- there is to keep of the postings before: a change that any of them saw since is sent as soon as there
-- is a frontend and room, whatever became of it in the meantime.

namespace Chip8

-- What a posting found at the machine, and whether a snapshot was sent.
structure Posting where
  redraw : Bool
  snapshot : Snapshot
  sent : Bool

namespace Posting

variable {p : Posting} {ps qs : List Posting}

-- The sound state of the last snapshot that was sent; off if there is none.
def soundSent (ps : List Posting) : Bool :=
  (ps.reverse.find? Posting.sent).elim false fun p => p.snapshot.soundOn

-- The postings behind the last one that was sent, the latest first.
def unsent (ps : List Posting) : List Posting :=
  ps.reverse.takeWhile fun p => !p.sent

-- The posting came upon something new: the display was drawn on, or the sound is not what was sent last.
def Changes (p : Posting) (sound : Bool) : Prop :=
  p.redraw = true ∨ p.snapshot.soundOn ≠ sound

-- A change was seen that no snapshot has carried yet.
def Due (ps : List Posting) : Prop :=
  ∃ p ∈ unsent ps, p.Changes (soundSent ps)

theorem soundSent_concat_of_sent (ps : List Posting) (hp : p.sent = true) :
    soundSent (ps ++ [p]) = p.snapshot.soundOn := by
  simp [soundSent, hp]

theorem soundSent_concat_of_unsent (ps : List Posting) (hp : p.sent = false) :
    soundSent (ps ++ [p]) = soundSent ps := by
  simp [soundSent, hp]

theorem not_due_concat_of_sent (ps : List Posting) (hp : p.sent = true) : ¬Due (ps ++ [p]) := by
  simp [Due, unsent, hp]

theorem due_concat_of_unsent (ps : List Posting) (hp : p.sent = false) :
    Due (ps ++ [p]) ↔ p.Changes (soundSent ps) ∨ Due ps := by
  simp [Due, unsent, soundSent_concat_of_unsent ps hp, hp]

-- A change is not forgotten before something is sent.
theorem Due.append (h : Due ps) (hq : ∀ q ∈ qs, q.sent = false) : Due (ps ++ qs) := by
  induction qs generalizing ps
  case nil => rwa [List.append_nil]
  case cons q qs ih =>
    have ⟨hp, hq⟩ := List.forall_mem_cons.mp hq
    rw [List.append_cons]
    exact ih ((due_concat_of_unsent ps hp).mpr (.inr h)) hq

end Posting

namespace Link

variable {l : Link} {m : Machine} {c : Command} {ps : List Posting} {t : Link × Bool × List Event}

-- What the link remembers is what there is to remember of its postings.
structure Tracks (l : Link) (ps : List Posting) : Prop where
  sound : l.soundSent = Posting.soundSent ps
  change : l.pending = true ↔ Posting.Due ps

theorem Tracks.new (capacity : Nat) : (Link.new capacity).Tracks [] where
  sound := rfl
  change := by simp [Link.new, Posting.Due, Posting.unsent]

theorem Tracks.stale_iff (h : l.Tracks ps) (sent : Bool) : l.stale m = true ↔
    Posting.Changes ⟨m.state.redraw, m.snapshot, sent⟩ (Posting.soundSent ps) ∨ Posting.Due ps := by
  simp only [stale, Bool.or_eq_true, h.change, h.sound, bne_iff_ne, Posting.Changes, Machine.snapshot]
  rw [or_assoc, or_comm]

theorem Tracks.follow (h : l.Tracks ps) (hp : ∀ k, c ≠ .post k) : (l.follow m c).Tracks ps := by
  have ⟨_, _, _, _, hl, _⟩ := l.follow_eq (m := m) hp
  rw [hl]
  exact ⟨h.sound, h.change⟩

theorem Posts.tracks (h : l.Tracks ps) :
    l.Posts m t → t.1.Tracks (ps ++ [⟨m.state.redraw, m.snapshot, t.2.1⟩])
  | nothing hs => by
    have hn := mt (h.stale_iff false).mpr (Bool.eq_false_iff.mp hs)
    have hd := Posting.due_concat_of_unsent (p := ⟨m.state.redraw, m.snapshot, false⟩) ps rfl
    refine ⟨h.sound.trans (Posting.soundSent_concat_of_unsent ps rfl).symm, h.change.trans ?_⟩
    exact ⟨fun hp => hd.mpr (.inr hp), fun hc => absurd (hd.mp hc) hn⟩
  | disconnected hs _ | heldBack hs _ _ => by
    have hd := (Posting.due_concat_of_unsent ps rfl).mpr ((h.stale_iff false).mp hs)
    exact ⟨h.sound.trans (Posting.soundSent_concat_of_unsent ps rfl).symm, ⟨fun _ => hd, fun _ => rfl⟩⟩
  | sent _ _ _ => by
    have hs := Posting.soundSent_concat_of_sent (p := ⟨m.state.redraw, m.snapshot, true⟩) ps rfl
    exact ⟨hs.symm, ⟨nofun, fun hd => absurd hd (Posting.not_due_concat_of_sent ps rfl)⟩⟩

end Link

namespace Session

variable {s : Session} {k : Nat} {l : Link} {c : Command} {cs : List Command} {ps : List Posting}

-- The posting that a command makes on link `k`.
def posting? (s : Session) (k : Nat) (c : Command) : Option Posting :=
  if c = .post k then (s.attached? k).map fun _ =>
    ⟨s.machine.state.redraw, s.machine.snapshot, (s.step c).2.1 = .answer true⟩
  else none

-- The postings on link `k` along commands.
def postings (s : Session) (k : Nat) (cs : List Command) : List Posting :=
  s.gather (posting? · k) cs

theorem postings_cons : s.postings k (c :: cs) = (s.posting? k c).toList ++ (s.step c).1.postings k cs :=
  rfl

theorem postings_append (cs ds : List Command) :
    s.postings k (cs ++ ds) = s.postings k cs ++ (s.run cs).postings k ds :=
  gather_append ..

theorem posting?_of_ne (hc : c ≠ .post k) : s.posting? k c = none :=
  if_neg hc

theorem postings_eq_nil (hp : .post k ∉ cs) : s.postings k cs = [] :=
  gather_eq_nil fun _ _ hc => posting?_of_ne fun he => hp (he ▸ hc)

theorem posting?_of_answer {sent : Bool} (h : s.attached? k = some l)
    (hr : (s.step (.post k)).2.1 = .answer sent) :
    s.posting? k (.post k) = some ⟨s.machine.state.redraw, s.machine.snapshot, sent⟩ := by
  rw [posting?, if_pos rfl, h, hr]
  simp

theorem tracks_step (h : s.links[k]? = some l) (ht : l.Tracks ps) : ∃ l',
    (s.step c).1.links[k]? = some l' ∧ l'.capacity = l.capacity ∧
      l'.Tracks (ps ++ (s.posting? k c).toList) := by
  by_cases hp : c = .post k
  case neg =>
    rw [posting?_of_ne hp]
    by_cases hc : c.link? = some k
    case neg => exact ⟨l, link_step_of_ne hc h, rfl, (List.append_nil ps).symm ▸ ht⟩
    case pos =>
      have hp : ∀ j, c ≠ .post j := by
        rintro j rfl
        exact hp (congrArg Command.post (Option.some.inj hc))
      have ⟨_, _, _, _, hl, _⟩ := l.follow_eq (m := s.machine) hp
      refine ⟨_, link_step hc h, ?_, (List.append_nil ps).symm ▸ ht.follow hp⟩
      rw [hl]
  case pos =>
    subst hp
    refine ⟨_, link_step rfl h, ?_⟩
    cases ha : l.attached
    case false =>
      rw [Link.follow, ha, posting?, if_pos rfl, attached?_eq_none h ha]
      exact ⟨rfl, (List.append_nil ps).symm ▸ ht⟩
    case true =>
      have hs := l.tryPost_posts s.machine
      have h := attached?_eq_some_iff.mpr ⟨h, ha⟩
      rw [Link.follow, if_pos ha, posting?_of_answer h (congrArg (·.2.1) (step_post h))]
      exact ⟨hs.capacity, hs.tracks ht⟩

-- The postings so far come along, since the link remembers what they saw.
theorem tracks_run (cs : List Command) (h : s.links[k]? = some l) (ht : l.Tracks ps) : ∃ l',
    (s.run cs).links[k]? = some l' ∧ l'.capacity = l.capacity ∧ l'.Tracks (ps ++ s.postings k cs) := by
  induction cs generalizing s l ps
  case nil => exact ⟨l, h, rfl, (List.append_nil ps).symm ▸ ht⟩
  case cons c cs ih =>
    have ⟨_, h', hc', ht'⟩ := tracks_step (c := c) h ht
    have ⟨l'', h'', hc'', ht''⟩ := ih h' ht'
    rw [List.append_assoc] at ht''
    exact ⟨l'', h'', hc''.trans hc', ht''⟩

-- A posting sends if there is someone to send to, room, and something due, now or since earlier.
theorem post_goes (h : s.attached? k = some l) (ht : l.Tracks ps) : ∃ l' sent,
    (s.step (.post k)).2.1 = .answer sent ∧
      (s.step (.post k)).1 = ⟨{ s.machine with state.redraw := false }, s.links.set k l'⟩ ∧
      l'.snapshots = l.snapshots ++ (if sent then [s.machine.snapshot] else []) ∧
      (sent = true ↔ 0 < l.frontends ∧ l.snapshots.length < l.capacity ∧
        (Posting.Changes ⟨s.machine.state.redraw, s.machine.snapshot, sent⟩ (Posting.soundSent ps) ∨
          Posting.Due ps)) := by
  have hp := l.tryPost_posts s.machine
  refine ⟨(l.tryPost s.machine).1, (l.tryPost s.machine).2.1, ?_, ?_, hp.snapshots, ?_⟩
  case refine_1 => rw [step_post h]
  case refine_2 => rw [step_post h]; rfl
  case refine_3 => rw [hp.sent_iff, ht.stale_iff]

theorem tracks_openLink (capacity : Nat) (hd : .detach s.links.length ∉ cs) :
    let s₀ := (s.step (.openLink capacity)).1
    ∃ l, (s₀.run cs).attached? s.links.length = some l ∧ l.capacity = max capacity 1 ∧
      l.Tracks (s₀.postings s.links.length cs) := by
  intro s₀
  have h := s.link_openLink capacity
  have ⟨l, ha⟩ := attached_run (attached?_eq_some_iff.mpr ⟨h, rfl⟩) hd
  have ⟨l', hl, hc, ht⟩ := tracks_run cs h (.new capacity)
  obtain rfl := Option.some.inj (hl.symm.trans (attached?_eq_some_iff.mp ha).1)
  exact ⟨l', ha, hc, ht⟩

-- A posting on a link sends if a frontend is left, the queue has room, and this posting or one since the
-- last that sent came upon something new. So a change that was seen by a posting that did not send goes
-- out with the first posting that finds room, whatever has become of the machine by then.
theorem posting_sends_changes (s : Session) (capacity : Nat) (cs : List Command)
    (hd : .detach s.links.length ∉ cs) :
    let k := s.links.length
    let s₀ := (s.step (.openLink capacity)).1
    let ps := s₀.postings k cs
    let t := s₀.run cs
    let t' := (t.step (.post k)).1
    ∃ l l' sent, t.links[k]? = some l ∧ (t.step (.post k)).2.1 = .answer sent ∧
      let due := Posting.Changes ⟨t.machine.state.redraw, t.machine.snapshot, sent⟩
        (Posting.soundSent ps) ∨ Posting.Due ps
      (sent = true ↔ 0 < l.frontends ∧ l.snapshots.length < max capacity 1 ∧ due) ∧
      t' = ⟨{ t.machine with state.redraw := false }, t.links.set k l'⟩ ∧
      l'.snapshots = l.snapshots ++ (if sent then
        [⟨t.machine.state.display, t.machine.soundOn, t.machine.state.timers.delay⟩] else []) ∧
      (sent = false → due → ∀ ds, .detach k ∉ ds → (∀ q ∈ t'.postings k ds, q.sent = false) →
        ∃ l sent, (t'.run ds).links[k]? = some l ∧ ((t'.run ds).step (.post k)).2.1 = .answer sent ∧
          (sent = true ↔ 0 < l.frontends ∧ l.snapshots.length < max capacity 1)) := by
  intro k s₀ ps t t'
  obtain ⟨l, ha, hc, ht⟩ := s.tracks_openLink capacity hd
  obtain ⟨l', sent, hr, ht', hq, hs⟩ := post_goes ha ht
  refine ⟨l, l', sent, (attached?_eq_some_iff.mp ha).1, hr, hc ▸ hs, ht', hq, ?_⟩
  intro hn hdue ds hd' hu
  have hcs : .detach k ∉ cs ++ .post k :: ds := by simpa using ⟨hd, hd'⟩
  have hps : s₀.postings k (cs ++ .post k :: ds) =
      ps ++ [⟨t.machine.state.redraw, t.machine.snapshot, sent⟩] ++ t'.postings k ds := by
    rw [postings_append, postings_cons, posting?_of_answer ha hr, List.append_assoc]
    rfl
  -- The refused posting is part of the longer history now, and nothing was sent behind it.
  have hdue' : Posting.Due (s₀.postings k (cs ++ .post k :: ds)) :=
    hps ▸ ((Posting.due_concat_of_unsent ps hn).mpr hdue).append hu
  obtain ⟨l, ha, hc, ht⟩ := s.tracks_openLink capacity hcs
  obtain ⟨_, sent, hr, _, _, hs⟩ := post_goes ha ht
  rw [run_append] at ha hr hs
  refine ⟨l, sent, (attached?_eq_some_iff.mp ha).1, hr, ?_⟩
  rw [hs, hc]
  exact ⟨fun ⟨hf, hl, _⟩ => ⟨hf, hl⟩, fun ⟨hf, hl⟩ => ⟨hf, hl, .inr hdue'⟩⟩

-- The display is cleared while the queue is full, and the machine is reset before there is room.
theorem posting_sends_changes_across_reset :
    let s := ((new {} ⟨.replicate 8 0⟩).step (.openLink 1)).1
    let cs := [.reset, .load [0x00, 0xE0], .cycle]
    let t := s.run (cs ++ .post 0 :: cs)
    let u := (t.step (.post 0)).1.run [.reset, .newest 0]
    (t.step (.post 0)).2.1 = .answer false ∧ u.machine.state.redraw = false ∧
      u.links.map Link.soundSent = [u.machine.soundOn] ∧ (u.step (.post 0)).2.1 = .answer true := by
  intro s cs
  let m := Machine.new {} ⟨.replicate 8 0⟩
  obtain ⟨memory, hm, hl⟩ : ∃ memory, memory = Memory.initial.put 0x200 [0x00, 0xE0] ∧
      m.act (.load [0x00, 0xE0]) = { m with state.memory := memory } := ⟨_, rfl, rfl⟩
  have hf : memory.fetch 0x200 = .ok 0x00E0 :=
    hm ▸ Memory.fetch_put (by decide) (by decide) rfl rfl rfl
  let m' := { m with state := { m.state with memory, pc := 0x202, redraw := true } }
  have hcs (st : State) (ls : List Link) : run ⟨{ m with state := st }, ls⟩ cs = ⟨m', ls⟩ := by
    have h₀ : (step ⟨{ m with state := st }, ls⟩ .reset).1 = ⟨m, ls⟩ := rfl
    have h₁ : (step ⟨m, ls⟩ (.load [0x00, 0xE0])).1 = ⟨{ m with state.memory := memory }, ls⟩ :=
      congrArg (Session.mk · ls) hl
    have h₂ : (step ⟨{ m with state.memory := memory }, ls⟩ .cycle).1 = ⟨m', ls⟩ :=
      congrArg (Session.mk · ls) (Machine.cycle_of_execute (i := .clear) rfl hf rfl rfl).1
    rw [run, h₀, run, h₁, run, h₂, run]
  let l : Link := ⟨1, [], [⟨.blank, false, 0⟩], 1, true, false, false⟩
  have hs : s.run cs = ⟨m', [.new 1]⟩ := hcs _ _
  have hp : (step ⟨m', [.new 1]⟩ (.post 0)).1 = ⟨{ m' with state.redraw := false }, [l]⟩ := rfl
  have hr : s.run (cs ++ .post 0 :: cs) = ⟨m', [l]⟩ := by
    rw [run_append, hs, run, hp]
    exact hcs _ _
  have hps : s.postings 0 (cs ++ .post 0 :: cs) = [⟨true, ⟨.blank, false, 0⟩, true⟩] := by
    rw [postings_append, postings_eq_nil (by simp [cs]), hs, postings_cons, postings_eq_nil (by simp [cs])]
    rfl
  have h := posting_sends_changes (new {} ⟨.replicate 8 0⟩) 1 (cs ++ .post 0 :: cs) (by simp [cs])
  have hz : (new {} ⟨.replicate 8 0⟩).links.length = 0 := rfl
  have ho : ((new {} ⟨.replicate 8 0⟩).step (.openLink 1)).1 = s := rfl
  simp only [hz, ho, hr, hps] at h
  simp only [hr]
  obtain ⟨_, _, sent, _, ha, _, _, _, hk⟩ := h
  have hq : ∀ q ∈ (step ⟨m', [l]⟩ (.post 0)).1.postings 0 [.reset, .newest 0], q.sent = false := by
    rw [postings_eq_nil (by simp)]
    exact List.forall_mem_nil _
  obtain ⟨_, sent', hl', ha', hi⟩ :=
    hk (Reply.answer.inj ha).symm (.inl (.inl rfl)) [.reset, .newest 0] (by simp) hq
  obtain rfl := Option.some.inj hl'
  refine ⟨rfl, rfl, rfl, ?_⟩
  rw [ha', hi.mpr ⟨by decide, by decide⟩]

end Session
end Chip8
