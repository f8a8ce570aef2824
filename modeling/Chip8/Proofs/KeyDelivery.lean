import Chip8.Proofs.Cycle
import Chip8.Proofs.Execution
import Chip8.Proofs.Links

-- The way of key changes from the frontends of a link to the machine: whatever is sent arrives once
-- and in order, and a change of a key that does not exist holds up those behind it for one delivery.

namespace Chip8

-- The key is one of the keypad.
def KeyChange.Valid (c : KeyChange) : Prop :=
  c.key.toNat < 16

instance : DecidablePred KeyChange.Valid :=
  fun c => inferInstanceAs (Decidable (c.key.toNat < 16))

namespace Keypad

variable {k : Keypad} {c bad : KeyChange} {cs made rest : List KeyChange}

-- The keypad after a change. A key that does not exist changes nothing.
def make (k : Keypad) (c : KeyChange) : Keypad :=
  ⟨Vector.ofFn fun key => if c.key.toNat = key then c.held else k.held.get key⟩

-- The keypad after changes in their order.
def makeAll (k : Keypad) (cs : List KeyChange) : Keypad :=
  cs.foldl make k

theorem makeAll_nil : k.makeAll [] = k :=
  List.foldl_nil ..

theorem makeAll_cons : k.makeAll (c :: cs) = (k.make c).makeAll cs :=
  List.foldl_cons ..

theorem makeAll_append : k.makeAll (made ++ rest) = (k.makeAll made).makeAll rest :=
  List.foldl_append ..

theorem set_of_valid (h : c.Valid) : k.set c.key c.held = .ok (k.make c) := by
  have hc : c.key.toNat < 16 := h
  have he : k.held.set c.key.toNat c.held hc = (k.make c).held :=
    Vector.ext fun i hi => by simp [make, Vector.getElem_set, Vector.get]
  rw [set, dif_pos hc, he]

theorem set_of_not_valid (h : ¬c.Valid) : k.set c.key c.held = .error (.invalidKey c.key) :=
  set_eq_error_iff.mpr ⟨Nat.le_of_not_lt h, rfl⟩

theorem applyAll_of_valid (h : ∀ c ∈ cs, c.Valid) :
    k.applyAll cs = (k.makeAll cs, [], .ok cs.length) := by
  induction cs generalizing k with
  | nil => rfl
  | cons c cs ih =>
    have ⟨hc, hcs⟩ := List.forall_mem_cons.mp h
    simp only [applyAll, set_of_valid hc, ih hcs, makeAll_cons, Except.map, List.length_cons]

-- What comes behind a key that does not exist is left for another time.
theorem applyAll_of_not_valid (h : ∀ c ∈ made, c.Valid) (hb : ¬bad.Valid) :
    k.applyAll (made ++ bad :: rest) = (k.makeAll made, rest, .error (.invalidKey bad.key)) := by
  induction made generalizing k with
  | nil => simp only [List.nil_append, applyAll, set_of_not_valid hb, makeAll_nil]
  | cons c cs ih =>
    have ⟨hc, hcs⟩ := List.forall_mem_cons.mp h
    simp only [List.cons_append, applyAll, set_of_valid hc, ih hcs, makeAll_cons, Except.map]

end Keypad

namespace KeyChange

variable {cs made rest : List KeyChange} {bad : KeyChange}

theorem all_valid_or_split (cs : List KeyChange) : (∀ c ∈ cs, c.Valid) ∨
    ∃ made bad rest, cs = made ++ bad :: rest ∧ (∀ c ∈ made, c.Valid) ∧ ¬bad.Valid := by
  induction cs with
  | nil => exact .inl nofun
  | cons c cs ih =>
    by_cases hc : c.Valid
    case neg => exact .inr ⟨[], c, cs, rfl, nofun, hc⟩
    case pos =>
      cases ih
      case inl h => exact .inl (List.forall_mem_cons.mpr ⟨hc, h⟩)
      case inr h =>
        obtain ⟨made, bad, rest, rfl, hm, hb⟩ := h
        exact .inr ⟨c :: made, bad, rest, rfl, List.forall_mem_cons.mpr ⟨hc, hm⟩, hb⟩

-- What one delivery takes off a queue: as far as the first change of a key that does not exist, and
-- that one with it.
def batch : List KeyChange → List KeyChange
  | [] => []
  | c :: cs => if c.Valid then c :: batch cs else [c]

theorem batch_append (cs : List KeyChange) (k : Keypad) : batch cs ++ (k.applyAll cs).2.1 = cs := by
  induction cs generalizing k with
  | nil => rfl
  | cons c cs ih =>
    by_cases hc : c.Valid
    case pos => simp only [batch, if_pos hc, Keypad.applyAll, Keypad.set_of_valid hc, List.cons_append, ih]
    case neg => simp only [batch, if_neg hc, Keypad.applyAll, Keypad.set_of_not_valid hc]; rfl

-- The changes of keys that do not exist.
def faulty (cs : List KeyChange) : List KeyChange :=
  cs.filter fun c => ¬c.Valid

theorem faulty_eq_nil_iff : faulty cs = [] ↔ ∀ c ∈ cs, c.Valid := by
  simp [faulty]

theorem faulty_split (h : ∀ c ∈ made, c.Valid) (hb : ¬bad.Valid) :
    faulty (made ++ bad :: rest) = bad :: faulty rest := by
  have hm := faulty_eq_nil_iff.mpr h
  rw [faulty] at hm
  rw [faulty, List.filter_append, hm, List.nil_append, List.filter_cons_of_pos (by simpa using hb)]
  rfl

theorem filter_split (h : ∀ c ∈ made, c.Valid) (hb : ¬bad.Valid) :
    (made ++ bad :: rest).filter KeyChange.Valid = made ++ rest.filter KeyChange.Valid := by
  rw [List.filter_append, List.filter_cons_of_neg (by simpa using hb),
    List.filter_eq_self.mpr fun c hc => decide_eq_true (h c hc)]

end KeyChange

-- A cycle reads the keypad and never writes it.
theorem Machine.Cycle.keypad {m : Machine} {t : Transition (Except Fault Outcome)} :
    m.Cycle t → t.machine.state.keypad = m.state.keypad
  | wait _ _ | receive _ _ | skip _ _ _ _ => elapse_keypad _
  | stray _ _ | stop _ _ _ _ | refuse _ _ _ _ => rfl
  | execute _ _ _ he => (elapse_keypad _).trans (Instruction.execute_yields he).keypad

namespace Session

variable {s : Session} {k : Nat} {l : Link} {c : Command} {cs : List Command}

-- The key changes that a command hands to link `k`.
def sends (s : Session) (k : Nat) (c : Command) : List KeyChange :=
  match c with
  | .send j change => if j = k ∧ (s.step c).2.1 = .answer true then [change] else []
  | _ => []

-- The key changes that a command takes off link `k`.
def takes (s : Session) (k : Nat) (c : Command) : List KeyChange :=
  match c with
  | .deliverKeys j => if j = k then (s.attached? k).elim [] fun l => KeyChange.batch l.keys else []
  | _ => []

-- The key changes sent on link `k` along commands, and those that the machine has taken.
def sent (s : Session) (k : Nat) : List Command → List KeyChange
  | [] => []
  | c :: cs => s.sends k c ++ (s.step c).1.sent k cs

def taken (s : Session) (k : Nat) : List Command → List KeyChange
  | [] => []
  | c :: cs => s.takes k c ++ (s.step c).1.taken k cs

theorem sends_of_ne (hc : c.link? ≠ some k) : s.sends k c = [] := by
  cases c
  case send j _ => exact if_neg fun hj => hc (congrArg some hj.1)
  all_goals rfl

theorem takes_of_ne (hc : c.link? ≠ some k) : s.takes k c = [] := by
  cases c
  case deliverKeys j => exact if_neg fun hj => hc (congrArg some hj)
  all_goals rfl

theorem keys_send (h : s.links[k]? = some l) (change : KeyChange) :
    l.keys ++ s.sends k (.send k change) = (l.follow s.machine (.send k change)).keys := by
  by_cases hf : 0 < l.frontends
  case neg =>
    simp [sends, step, Link.follow, frontend?_of_link h, hf]
  case pos =>
    have hs := step_send (frontend?_eq_some_iff.mpr ⟨h, hf⟩) change
    rw [sends, hs, Link.follow, if_pos hf, Link.send]
    cases l.attached <;> simp

theorem keys_deliverKeys (h : s.links[k]? = some l) :
    l.keys = s.takes k (.deliverKeys k) ++ (l.follow s.machine (.deliverKeys k)).keys := by
  rw [takes, if_pos rfl, Link.follow, attached?_of_link h]
  cases l.attached
  case false => rfl
  case true => exact (KeyChange.batch_append l.keys s.machine.state.keypad).symm

-- What was queued and what is sent is taken or queued still, in this order.
theorem keys_step (h : s.links[k]? = some l) : ∃ l', (s.step c).1.links[k]? = some l' ∧
    l.keys ++ s.sends k c = s.takes k c ++ l'.keys := by
  by_cases hc : c.link? = some k
  case neg =>
    refine ⟨l, link_step_of_ne hc h, ?_⟩
    rw [sends_of_ne hc, takes_of_ne hc, List.append_nil, List.nil_append]
  case pos =>
    refine ⟨_, link_step hc h, ?_⟩
    cases c <;> cases hc
    case send change => exact keys_send h change
    case deliverKeys => exact (List.append_nil _).trans (keys_deliverKeys h)
    all_goals
      refine (List.append_nil _).trans (Eq.symm ?_)
      exact Link.follow_keys nofun nofun

theorem keys_run (cs : List Command) (h : s.links[k]? = some l) : ∃ l', (s.run cs).links[k]? = some l' ∧
    l.keys ++ s.sent k cs = s.taken k cs ++ l'.keys := by
  induction cs generalizing s l
  case nil => exact ⟨l, h, List.append_nil _⟩
  case cons c cs ih =>
    have ⟨l', hl, hk⟩ := keys_step (c := c) h
    have ⟨l'', hl', hk'⟩ := ih hl
    refine ⟨l'', hl', ?_⟩
    calc l.keys ++ (s.sends k c ++ (s.step c).1.sent k cs)
      _ = s.takes k c ++ (l'.keys ++ (s.step c).1.sent k cs) := by
        rw [← List.append_assoc, hk, List.append_assoc]
      _ = s.takes k c ++ (s.step c).1.taken k cs ++ l''.keys := by
        rw [hk', List.append_assoc]

theorem deliver_of_valid (h : s.attached? k = some l) (hv : ∀ c ∈ l.keys, c.Valid) :
    s.step (.deliverKeys k) =
      (({ s with machine.state.keypad := s.machine.state.keypad.makeAll l.keys } : Session).setLink k
        { l with keys := [] }, .count l.keys.length, []) := by
  rw [step_deliverKeys h, Link.deliverKeys, Keypad.applyAll_of_valid hv]
  rfl

theorem deliver_of_not_valid {made rest : List KeyChange} {bad : KeyChange}
    (h : s.attached? k = some l) (hl : l.keys = made ++ bad :: rest) (hm : ∀ c ∈ made, c.Valid)
    (hb : ¬bad.Valid) :
    s.step (.deliverKeys k) =
      (({ s with machine.state.keypad := s.machine.state.keypad.makeAll made } : Session).setLink k
        { l with keys := rest }, .fault (.invalidKey bad.key), []) := by
  rw [step_deliverKeys h, Link.deliverKeys, hl, Keypad.applyAll_of_not_valid hm hb]
  rfl

end Session

-- The command neither writes the keypad nor moves key changes of link `k`.
def Command.LeavesKeys (k : Nat) : Command → Prop
  | reset | setHeld .. | deliverKeys _ => False
  | send j _ | detach j => j ≠ k
  | _ => True

namespace Session

variable {s : Session} {k : Nat} {l : Link} {c : Command} {cs : List Command}

-- What the deliveries of link `k` among commands answer.
def answers (s : Session) (k : Nat) : List Command → List Reply
  | [] => []
  | c :: cs =>
    if c = .deliverKeys k then (s.step c).2.1 :: (s.step c).1.answers k cs
    else (s.step c).1.answers k cs

theorem keypad_step (hc : c.LeavesKeys k) :
    (s.step c).1.machine.state.keypad = s.machine.state.keypad := by
  cases c
  case reset | setHeld | deliverKeys => cases hc
  case cycle => exact s.machine.cycle_goes.keypad
  case load =>
    simp only [step, Machine.load]
    split <;> rfl
  case tick | collectFrame | openLink => rfl
  case addFrontend | dropFrontend | detach | send | newest | post =>
    simp only [step]
    split <;> rfl

theorem queue_step (hc : c.LeavesKeys k) (h : s.attached? k = some l) :
    ∃ l', (s.step c).1.attached? k = some l' ∧ l'.keys = l.keys := by
  have hd : c ≠ .detach k := by
    rintro rfl
    exact hc rfl
  have hs : s.sends k c = [] := by
    cases c
    case send => exact if_neg fun hj => hc hj.1
    all_goals rfl
  have ht : s.takes k c = [] := by
    cases c
    case deliverKeys => cases hc
    all_goals rfl
  have ⟨l', ha⟩ := attached_step h hd
  have ⟨l'', hl, hk⟩ := keys_step (c := c) (attached?_eq_some_iff.mp h).1
  obtain rfl := Option.some.inj (hl.symm.trans (attached?_eq_some_iff.mp ha).1)
  rw [hs, ht, List.append_nil, List.nil_append] at hk
  exact ⟨l'', ha, hk.symm⟩

-- Each delivery up to the last change of a key that does not exist fails on the next one of these.
theorem deliveries_fail (h : s.attached? k = some l)
    (hc : ∀ c ∈ cs, c = .deliverKeys k ∨ c.LeavesKeys k)
    (hn : cs.count (.deliverKeys k) = (KeyChange.faulty l.keys).length) :
    s.answers k cs = (KeyChange.faulty l.keys).map (fun c => .fault (.invalidKey c.key)) ∧
      ∃ l', (s.run cs).attached? k = some l' ∧ (∀ c ∈ l'.keys, c.Valid) ∧
        (s.run cs).machine.state.keypad.makeAll l'.keys =
          s.machine.state.keypad.makeAll (l.keys.filter KeyChange.Valid) := by
  induction cs generalizing s l
  case nil =>
    have hf := List.eq_nil_of_length_eq_zero hn.symm
    have hv := KeyChange.faulty_eq_nil_iff.mp hf
    refine ⟨by rw [hf]; rfl, l, h, hv, ?_⟩
    rw [List.filter_eq_self.mpr fun c hc => decide_eq_true (hv c hc)]
    rfl
  case cons c cs ih =>
    obtain ⟨hc, hcs⟩ := List.forall_mem_cons.mp hc
    cases hc
    case inl hc =>
      subst hc
      rw [List.count_cons_self] at hn
      cases KeyChange.all_valid_or_split l.keys
      case inl hv =>
        rw [KeyChange.faulty_eq_nil_iff.mpr hv] at hn
        cases hn
      case inr hq =>
        obtain ⟨made, bad, rest, hl, hm, hb⟩ := hq
        have hs := deliver_of_not_valid h hl hm hb
        obtain ⟨hk, ha⟩ := attached?_eq_some_iff.mp h
        have ha : (s.step (.deliverKeys k)).1.attached? k = some { l with keys := rest } := by
          rw [hs]
          exact attached?_eq_some_iff.mpr ⟨link_setLink_self hk _, ha⟩
        rw [hl, KeyChange.faulty_split hm hb] at hn ⊢
        obtain ⟨hr, l', hx, hv, hp⟩ := ih ha hcs (Nat.succ.inj hn)
        refine ⟨?_, l', hx, hv, ?_⟩
        case refine_1 => rw [answers, if_pos rfl, hr, hs]; rfl
        case refine_2 =>
          rw [run, hp, hs, KeyChange.filter_split hm hb, Keypad.makeAll_append]
          rfl
    case inr hc =>
      obtain ⟨l', ha, hk⟩ := queue_step hc h
      have hd : c ≠ .deliverKeys k := by
        rintro rfl
        cases hc
      rw [List.count_cons_of_ne hd] at hn
      obtain ⟨hr, hx⟩ := ih ha hcs (hk ▸ hn)
      rw [hk, keypad_step hc] at hx
      rw [answers, if_neg hd, hr, hk]
      exact ⟨rfl, hx⟩

-- Whatever the frontends of a link send is taken by the machine once and in order, or queued still. A
-- delivery takes the whole queue, or fails on the first key that does not exist and leaves what comes
-- behind it; so as many deliveries fail as there are such keys, and the next one makes the rest.
theorem key_changes_delivered :
    (∀ (s : Session) (capacity : Nat) (cs : List Command),
      let k := s.links.length
      let s₀ := (s.step (.openLink capacity)).1
      ∃ l, (s₀.run cs).links[k]? = some l ∧ s₀.sent k cs = s₀.taken k cs ++ l.keys ∧
        (.detach k ∉ cs → 0 < l.frontends → ∀ change,
          ((s₀.run cs).step (.send k change)).2.1 = .answer true)) ∧
    (∀ (s : Session) (k : Nat) (l : Link), s.attached? k = some l →
      ((∀ c ∈ l.keys, c.Valid) →
        s.step (.deliverKeys k) =
          (({ s with machine.state.keypad := s.machine.state.keypad.makeAll l.keys } : Session).setLink
            k { l with keys := [] }, .count l.keys.length, [])) ∧
      (∀ made bad rest, l.keys = made ++ bad :: rest → (∀ c ∈ made, c.Valid) → ¬bad.Valid →
        s.step (.deliverKeys k) =
          (({ s with machine.state.keypad := s.machine.state.keypad.makeAll made } : Session).setLink
            k { l with keys := rest }, .fault (.invalidKey bad.key), []))) ∧
    (∀ (s : Session) (k : Nat) (l : Link) (cs : List Command), s.attached? k = some l →
      (∀ c ∈ cs, c = .deliverKeys k ∨ c.LeavesKeys k) →
      cs.count (.deliverKeys k) = (KeyChange.faulty l.keys).length →
      s.answers k cs = (KeyChange.faulty l.keys).map (fun c => .fault (.invalidKey c.key)) ∧
      let t := ((s.run cs).step (.deliverKeys k)).1
      (∃ n, ((s.run cs).step (.deliverKeys k)).2.1 = .count n) ∧
        t.links[k]?.map Link.keys = some [] ∧
        t.machine.state.keypad = s.machine.state.keypad.makeAll (l.keys.filter KeyChange.Valid)) := by
  refine ⟨?_, ?_, ?_⟩
  case refine_1 =>
    intro s capacity cs k s₀
    have h := s.link_openLink capacity
    have ⟨l, hl, hk⟩ := keys_run cs h
    refine ⟨l, hl, hk, ?_⟩
    intro hd hf change
    have ⟨l', ha⟩ := attached_run (attached?_eq_some_iff.mpr ⟨h, rfl⟩) hd
    have ⟨hl', ha⟩ := attached?_eq_some_iff.mp ha
    obtain rfl := Option.some.inj (hl.symm.trans hl')
    rw [step_send (frontend?_eq_some_iff.mpr ⟨hl, hf⟩), ha]
  case refine_2 =>
    intro s k l h
    exact ⟨deliver_of_valid h, fun _ _ _ => deliver_of_not_valid h⟩
  case refine_3 =>
    intro s k l cs h hc hn
    have ⟨hr, l', ha, hv, hp⟩ := deliveries_fail h hc hn
    have hs := deliver_of_valid ha hv
    have hl := (attached?_eq_some_iff.mp ha).1
    refine ⟨hr, ?_⟩
    rw [hs]
    refine ⟨⟨_, rfl⟩, ?_, hp⟩
    exact congrArg (Option.map Link.keys) (link_setLink_self hl _)

-- Keys 3, 20 and 5 are pressed, and a cycle passes between the two deliveries.
theorem key_changes_delivered_behind_bad_key :
    let s := (new {} ⟨.replicate 8 0⟩).run
      [.openLink 1, .send 0 ⟨0x3, true⟩, .send 0 ⟨0x20, true⟩, .send 0 ⟨0x5, true⟩]
    let t := ((s.run [.deliverKeys 0, .cycle]).step (.deliverKeys 0)).1
    s.answers 0 [.deliverKeys 0, .cycle] = [.fault (.invalidKey 0x20)] ∧
      t.links[0]?.map Link.keys = some [] ∧
        t.machine.state.keypad.isHeld 0x3 = true ∧ t.machine.state.keypad.isHeld 0x5 = true := by
  intro s t
  let l : Link := ⟨1, [⟨0x3, true⟩, ⟨0x20, true⟩, ⟨0x5, true⟩], [], 1, true, false, false⟩
  have h : s.attached? 0 = some l := rfl
  have hc : ∀ c ∈ [Command.deliverKeys 0, .cycle], c = .deliverKeys 0 ∨ c.LeavesKeys 0 := by
    simp [Command.LeavesKeys]
  have ⟨hr, _, hk, hp⟩ := key_changes_delivered.2.2 s 0 l _ h hc rfl
  refine ⟨hr, hk, ?_⟩
  rw [hp]
  decide +kernel

end Session
end Chip8
