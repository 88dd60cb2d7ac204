import Mathlib.Data.List.Count
import Mathlib.Logic.Relation

/-!
# Rendezvous

Threads that exchange messages without a buffer: a message passes when its sender
and its receiver have met. A thread that calls before its partner is blocked in the
send or in the receive phase, and blocked threads are paired later. A pair is a
thread that sends to the other, or one that receives from the other: it need not
be both.

* `Call` — what the call of a thread can do;
* `Move` — what the pairing of blocked threads can do;
* `NoRival`, `Aligned`, `Spent` — three invariants, each kept by every move, and by
  every call under a condition on the blocked threads. They give closed receives,
  delivery to the addressee, and delivery at most once.
-/

namespace Rendezvous

variable {τ ν : Type}

/-! ## The protocol -/

/-- What a thread waits for. A sender has asked for the destination `dest`; `kept` is the
destination remembered for the pairing. `reply` is its receive phase after the send: the
source it will receive from, if any. A source is a number, or `none` for any thread. -/
inductive Phase (ν : Type)
  | idle
  | sending (dest kept : Option ν) (reply : Option (Option ν))
  | receiving (source : Option ν)
  deriving DecidableEq

namespace Phase

/-- The one thread the receive phase waits for, now or after the send. -/
def awaits : Phase ν → Option ν
  | idle => none
  | sending _ _ reply => reply.join
  | receiving source => source

/-- The thread sends to this number. -/
def sendsTo (n : ν) : Phase ν → Prop
  | sending _ kept _ => kept = some n
  | _ => False

/-- The phase of a sender after its send. -/
def afterSend : Option (Option ν) → Phase ν
  | none => idle
  | some source => receiving source

/-- The source of a thread that receives. -/
def source? : Phase ν → Option (Option ν)
  | receiving source => some source
  | _ => none

@[simp] theorem awaits_afterSend (reply : Option (Option ν)) :
    (afterSend reply).awaits = reply.join := by
  cases reply <;> rfl

@[simp] theorem not_sendsTo_afterSend (n : ν) (reply : Option (Option ν)) :
    ¬ (afterSend reply).sendsTo n := by
  cases reply <;> exact id

end Phase

/-- A message that has passed. -/
structure Record (τ ν : Type) where
  sender : τ
  senderNo : ν
  receiver : τ
  receiverNo : ν
  dest : Option ν
  awaited : Option (Option ν)

/-- The threads, with the messages that have passed and the calls that were made. -/
structure State (τ ν : Type) where
  number : τ → ν
  phase : τ → Phase ν
  transfers : List (Record τ ν)
  calls : List (τ × Option ν)

section

variable [DecidableEq τ] {s' : State τ ν}

/-- Put one thread into a phase. -/
def State.set (s : State τ ν) (t : τ) (p : Phase ν) : State τ ν :=
  { s with phase := fun x => if x = t then p else s.phase x }

/-- A call is made. -/
def State.called (s : State τ ν) (c : τ) (dest : Option ν) : State τ ν :=
  { s with calls := (c, dest) :: s.calls }

/-- The record of a message from `f` to `t`. -/
def State.record (s : State τ ν) (f t : τ) (dest : Option ν) : Record τ ν where
  sender := f
  senderNo := s.number f
  receiver := t
  receiverNo := s.number t
  dest := dest
  awaited := (s.phase t).source?

/-- A message passes from `f` to `t`. -/
def State.transfer (s : State τ ν) (f t : τ) (dest : Option ν) (reply : Option (Option ν)) :
    State τ ν :=
  { (s.set t .idle).set f (.afterSend reply) with transfers := s.record f t dest :: s.transfers }

/-- What a call of `c` can do. `old` is the destination remembered from an earlier send. With
`lost` the thread is left in the send phase without a destination of its own. -/
inductive Call (c : τ) (dest : Option ν) (reply : Option (Option ν)) (old : Option ν) :
    State τ ν → State τ ν → Prop
  | stay {s} : Call c dest reply old s (s.called c dest)
  | receive {s source} : dest = none → reply = some source →
      Call c dest reply old s ((s.called c dest).set c (.receiving source))
  | lost {s} : dest = none → reply = none →
      Call c dest reply old s ((s.called c dest).set c (.sending none old none))
  | blocked {s d kept} : dest = some d → (kept = none ∨ kept = some d) →
      Call c dest reply old s ((s.called c dest).set c (.sending dest kept reply))
  | direct {s d t} : dest = some d → s.number t = d →
      Call c dest reply old s ((s.called c dest).transfer c t dest reply)

/-- What the pairing can do. A thread may also be woken. -/
inductive Move : State τ ν → State τ ν → Prop
  | wake {s} (t : τ) : Move s (s.set t .idle)
  | pair {s f t dest kept reply source} : s.phase f = .sending dest kept reply →
      s.phase t = .receiving source → (kept = some (s.number t) ∨ source = some (s.number f)) →
      Move s (s.transfer f t dest reply)

theorem State.set_phase (s : State τ ν) (t x : τ) (p : Phase ν) :
    (s.set t p).phase x = if x = t then p else s.phase x := rfl

theorem State.transfer_phase (s : State τ ν) (f t x : τ) (dest : Option ν)
    (reply : Option (Option ν)) : (s.transfer f t dest reply).phase x =
      if x = f then .afterSend reply else if x = t then .idle else s.phase x := rfl

/-- A thread whose phase is the old one or idle, or that is `f` after its send. -/
theorem State.transfer_cases (s : State τ ν) (f t : τ) (dest : Option ν)
    (reply : Option (Option ν)) (x : τ) :
    (x = f ∧ (s.transfer f t dest reply).phase x = .afterSend reply) ∨
    (x ≠ f ∧ (s.transfer f t dest reply).phase x = .idle) ∨
    (x ≠ f ∧ (s.transfer f t dest reply).phase x = s.phase x) := by
  rw [State.transfer_phase]
  by_cases hf : x = f
  · exact .inl ⟨hf, by rw [if_pos hf]⟩
  · right
    rw [if_neg hf]
    by_cases ht : x = t
    · exact .inl ⟨hf, by rw [if_pos ht]⟩
    · exact .inr ⟨hf, by rw [if_neg ht]⟩

/-! ## Partners -/

/-- The thread sends to this number, or its receive phase waits for it. -/
def Phase.names (p : Phase ν) (n : ν) : Prop := p.awaits = some n ∨ p.sendsTo n

theorem Phase.not_names_idle (n : ν) : ¬ (Phase.idle : Phase ν).names n := by
  rintro (h | h)
  · simp [Phase.awaits] at h
  · exact h

variable {s : State τ ν} {f x : τ} {dest : Option ν} {reply : Option (Option ν)}

/-- A partner after a transfer is one from before, or of the receive phase of the sender. -/
theorem State.transfer_names {t : τ} {n : ν} (h : ((s.transfer f t dest reply).phase x).names n) :
    (s.phase x).names n ∨ (x = f ∧ reply.join = some n) := by
  rcases s.transfer_cases f t dest reply x with ⟨hx, hp⟩ | ⟨_, hp⟩ | ⟨_, hp⟩
  · rw [hp] at h
    rcases h with h | h
    · rw [Phase.awaits_afterSend] at h
      exact .inr ⟨hx, h⟩
    · exact absurd h (Phase.not_sendsTo_afterSend _ _)
  · rw [hp] at h
    exact absurd h (Phase.not_names_idle n)
  · rw [hp] at h
    exact .inl h

theorem Move.names (h : Move s s') {n : ν} (hn : (s'.phase x).names n) : (s.phase x).names n := by
  cases h with
  | wake t =>
    rw [State.set_phase] at hn
    split at hn
    · exact absurd hn (Phase.not_names_idle n)
    · exact hn
  | @pair f t dest kept reply source hf _ _ =>
    rcases State.transfer_names hn with h | ⟨rfl, h⟩
    · exact h
    · rw [hf]
      exact .inl h

theorem Move.number (h : Move s s') : s'.number = s.number := by
  cases h <;> rfl

/-! ## Closed receives -/

/-- A message to a thread that received from one thread comes from this thread. -/
def Closed (s : State τ ν) : Prop :=
  ∀ r ∈ s.transfers, ∀ n, r.awaited = some (some n) → r.senderNo = n

/-- The only thread blocked in a send to a thread that awaits one thread is this one. -/
def NoRival (s : State τ ν) : Prop :=
  ∀ f t, f ≠ t → (s.phase f).sendsTo (s.number t) → ∀ n, (s.phase t).awaits = some n →
    s.number f = n

/-- A call of `c` that brings no rivals together: it sends to `dest`, or if it has none and does
not receive, to `old`, and receives as `reply` says. -/
structure NoNewRival (s : State τ ν) (c : τ) (dest : Option ν) (reply : Option (Option ν))
    (old : Option ν) : Prop where
  asSender : ∀ t, t ≠ c →
    (dest = some (s.number t) ∨ (dest = none ∧ reply = none ∧ old = some (s.number t))) →
    ∀ n, (s.phase t).awaits = some n → s.number c = n
  asReceiver : ∀ f, f ≠ c → (s.phase f).sendsTo (s.number c) → ∀ n, reply.join = some n →
    s.number f = n

theorem Phase.not_sendsTo_idle (n : ν) : ¬ (Phase.idle : Phase ν).sendsTo n := id

/-- A transfer brings no rivals together if the receive phase of its sender does not. -/
theorem NoRival.transfer {s : State τ ν} {f : τ} {reply : Option (Option ν)} (t : τ)
    (dest : Option ν) (hr : NoRival s)
    (hf : ∀ x, x ≠ f → (s.phase x).sendsTo (s.number f) → ∀ n, reply.join = some n →
      s.number x = n) : NoRival (s.transfer f t dest reply) := by
  intro x y hne hsend n haw
  rcases s.transfer_cases f t dest reply x with ⟨_, hx⟩ | ⟨_, hx⟩ | ⟨hxf, hx⟩
  · rw [hx] at hsend
    exact absurd hsend (Phase.not_sendsTo_afterSend _ _)
  · rw [hx] at hsend
    exact absurd hsend (Phase.not_sendsTo_idle _)
  · rw [hx] at hsend
    rcases s.transfer_cases f t dest reply y with ⟨hy, hy'⟩ | ⟨_, hy'⟩ | ⟨_, hy'⟩
    · rw [hy', Phase.awaits_afterSend] at haw
      rw [hy] at hsend
      exact hf x hxf hsend n haw
    · rw [hy'] at haw
      simp [Phase.awaits] at haw
    · rw [hy'] at haw
      exact hr x y hne hsend n haw

theorem Move.noRival (h : Move s s') (hr : NoRival s) (hc : Closed s) : NoRival s' ∧ Closed s' := by
  cases h with
  | wake t =>
    refine ⟨?_, hc⟩
    intro f x hne hsend n haw
    rw [State.set_phase] at hsend haw
    by_cases hf : f = t
    · rw [if_pos hf] at hsend
      exact absurd hsend (Phase.not_sendsTo_idle _)
    · rw [if_neg hf] at hsend
      by_cases hx : x = t
      · rw [if_pos hx] at haw
        simp [Phase.awaits] at haw
      · rw [if_neg hx] at haw
        exact hr f x hne hsend n haw
  | @pair f t dest kept reply source hf ht hmatch =>
    have hft : f ≠ t := by
      rintro rfl
      rw [hf] at ht
      simp at ht
    constructor
    · -- the receive phase of the sender was awaited before
      refine hr.transfer t dest fun x hx hsend n haw => hr x f hx hsend n ?_
      rw [hf]
      exact haw
    · intro r hmem n haw
      rcases List.mem_cons.mp hmem with rfl | hmem
      · have haw' : (s.phase t).source? = some (some n) := haw
        rw [ht] at haw'
        injection haw' with haw'
        show s.number f = n
        rcases hmatch with hk | hsrc
        · refine hr f t hft ?_ n ?_
          · rw [hf]
            exact hk
          · rw [ht]
            exact haw'
        · rw [hsrc] at haw'
          injection haw'
      · exact hc r hmem n haw

variable {c : τ} {old : Option ν}

theorem Call.noRival (h : Call c dest reply old s s') (hr : NoRival s) (hc : Closed s)
    (hidle : s.phase c = .idle) (hnew : NoNewRival s c dest reply old) :
    NoRival s' ∧ Closed s' := by
  -- whatever the caller has become, the others have kept their phases
  have hblock : ∀ p : Phase ν,
      (∀ n, p.sendsTo n → dest = some n ∨ (dest = none ∧ reply = none ∧ old = some n)) →
      (∀ n, p.awaits = some n → reply.join = some n) →
      NoRival ((s.called c dest).set c p) := by
    intro p hsends hawaits f t hne hsend n haw
    rw [State.set_phase] at hsend haw
    by_cases hf : f = c
    · rw [if_pos hf] at hsend
      have ht : t ≠ c := fun ht => hne (hf.trans ht.symm)
      rw [if_neg ht] at haw
      rw [hf]
      exact hnew.asSender t ht (hsends _ hsend) n haw
    · rw [if_neg hf] at hsend
      by_cases ht : t = c
      · rw [if_pos ht] at haw
        rw [ht] at hsend
        exact hnew.asReceiver f hf hsend n (hawaits n haw)
      · rw [if_neg ht] at haw
        exact hr f t hne hsend n haw
  cases h with
  | stay => exact ⟨hr, hc⟩
  | receive _ hreply =>
    refine ⟨hblock _ (fun _ hs => hs.elim) (fun n hn => ?_), hc⟩
    rw [hreply]
    exact hn
  | lost hdest hreply =>
    exact ⟨hblock _ (fun n hs => .inr ⟨hdest, hreply, hs⟩)
      (fun n hn => absurd hn (by simp [Phase.awaits])), hc⟩
  | @blocked d k hd hk =>
    refine ⟨hblock _ (fun n hs => ?_) (fun n hn => hn), hc⟩
    have hs' : k = some n := hs
    rcases hk with hk | hk
    · rw [hk] at hs'
      simp at hs'
    · exact .inl (hd.trans (hk.symm.trans hs'))
  | @direct d t hd ht =>
    refine ⟨NoRival.transfer (s := s.called c dest) t dest hr hnew.asReceiver, ?_⟩
    intro r hmem n haw
    rcases List.mem_cons.mp hmem with rfl | hmem
    · have haw' : (s.phase t).source? = some (some n) := haw
      show s.number c = n
      have htc : t ≠ c := by
        rintro rfl
        rw [hidle] at haw'
        simp [Phase.source?] at haw'
      refine hnew.asSender t htc ?_ n ?_
      · left
        rw [hd, ht]
      · cases hp : s.phase t with
        | idle => rw [hp] at haw'; simp [Phase.source?] at haw'
        | sending _ _ _ => rw [hp] at haw'; simp [Phase.source?] at haw'
        | receiving src =>
          rw [hp] at haw'
          injection haw'
    · exact hc r hmem n haw

/-! ## Delivery to the addressee -/

/-- A message reaches the destination its sender has asked for. -/
def Addressed (s : State τ ν) : Prop :=
  ∀ r ∈ s.transfers, ∀ d, r.dest = some d → r.receiverNo = d

/-- A blocked sender is awaited by nobody but its destination, which is the one remembered. -/
structure Aligned (s : State τ ν) : Prop where
  kept : ∀ f d k reply, s.phase f = .sending (some d) k reply → k = none ∨ k = some d
  awaited : ∀ f t, f ≠ t → ∀ d k reply, s.phase f = .sending (some d) k reply →
    (s.phase t).awaits = some (s.number f) → d = s.number t

/-- A call of `c` after which no blocked sender is awaited by another thread than its
destination. -/
structure NoNewStray (s : State τ ν) (c : τ) (dest : Option ν) (reply : Option (Option ν))
    (blocks : Prop) : Prop where
  asSender : blocks → ∀ t, t ≠ c → ∀ d, dest = some d →
    (s.phase t).awaits = some (s.number c) → d = s.number t
  asReceiver : ∀ f, f ≠ c → ∀ d k r, s.phase f = .sending (some d) k r →
    reply.join = some (s.number f) → d = s.number c

/-- A transfer keeps senders aligned if the receive phase of its sender does. -/
theorem Aligned.transfer {s : State τ ν} {f : τ} {reply : Option (Option ν)} (t : τ)
    (dest : Option ν) (ha : Aligned s)
    (hf : ∀ x, x ≠ f → ∀ d k r, s.phase x = .sending (some d) k r →
      reply.join = some (s.number x) → d = s.number f) : Aligned (s.transfer f t dest reply) := by
  have hkeep : ∀ x d k r, (s.transfer f t dest reply).phase x = .sending d k r →
      x ≠ f ∧ s.phase x = .sending d k r := by
    intro x d k r hx
    rcases s.transfer_cases f t dest reply x with ⟨_, hx'⟩ | ⟨_, hx'⟩ | ⟨hxf, hx'⟩
    · rw [hx'] at hx
      cases reply <;> simp [Phase.afterSend] at hx
    · rw [hx'] at hx
      simp at hx
    · rw [hx'] at hx
      exact ⟨hxf, hx⟩
  refine ⟨fun x d k r hx => ha.kept x d k r (hkeep x (some d) k r hx).2, ?_⟩
  intro x y hne d k r hx haw
  obtain ⟨hxf, hx'⟩ := hkeep x (some d) k r hx
  rcases s.transfer_cases f t dest reply y with ⟨hy, hy'⟩ | ⟨_, hy'⟩ | ⟨_, hy'⟩
  · rw [hy', Phase.awaits_afterSend] at haw
    rw [hy]
    exact hf x hxf d k r hx' haw
  · rw [hy'] at haw
    simp [Phase.awaits] at haw
  · rw [hy'] at haw
    exact ha.awaited x y hne d k r hx' haw

theorem Move.aligned (h : Move s s') (ha : Aligned s) (hd : Addressed s) :
    Aligned s' ∧ Addressed s' := by
  cases h with
  | wake t =>
    refine ⟨⟨?_, ?_⟩, hd⟩
    · intro f d k reply hf
      rw [State.set_phase] at hf
      split at hf
      · simp at hf
      · exact ha.kept f d k reply hf
    · intro f x hne d k reply hf haw
      rw [State.set_phase] at hf haw
      split at hf
      · simp at hf
      · split at haw
        · simp [Phase.awaits] at haw
        · exact ha.awaited f x hne d k reply hf haw
  | @pair f t dest kept reply source hf ht hmatch =>
    have hft : f ≠ t := by
      rintro rfl
      rw [hf] at ht
      simp at ht
    constructor
    · refine ha.transfer t dest fun x hx d k r hp haw => ha.awaited x f hx d k r hp ?_
      rw [hf]
      exact haw
    · intro r hmem d hdest
      rcases List.mem_cons.mp hmem with rfl | hmem
      · have hdest' : dest = some d := hdest
        rw [hdest'] at hf
        show s.number t = d
        rcases hmatch with hk | hsrc
        · rcases ha.kept f d kept reply hf with hk' | hk'
          · rw [hk] at hk'
            simp at hk'
          · rw [hk] at hk'
            injection hk'
        · refine (ha.awaited f t hft d kept reply hf ?_).symm
          rw [ht]
          exact hsrc
      · exact hd r hmem d hdest

theorem Call.aligned {blocks : Prop} (h : Call c dest reply old s s') (ha : Aligned s)
    (hd : Addressed s) (hnew : NoNewStray s c dest reply blocks)
    (hblocks : ∀ d k, s'.phase c = .sending (some d) k reply → blocks) :
    Aligned s' ∧ Addressed s' := by
  have hblock : ∀ p : Phase ν, (∀ d k r, p = .sending (some d) k r → blocks ∧ dest = some d ∧
      (k = none ∨ k = some d)) → (∀ n, p.awaits = some n → reply.join = some n) →
      Aligned ((s.called c dest).set c p) := by
    intro p hsends hawaits
    constructor
    · intro f d k r hf
      rw [State.set_phase] at hf
      split at hf
      · exact (hsends d k r hf).2.2
      · exact ha.kept f d k r hf
    · intro f t hne d k r hf haw
      rw [State.set_phase] at hf haw
      by_cases hfc : f = c
      · rw [if_pos hfc] at hf
        have ht : t ≠ c := fun ht => hne (hfc.trans ht.symm)
        rw [if_neg ht, hfc] at haw
        obtain ⟨hb, hdest, _⟩ := hsends d k r hf
        exact hnew.asSender hb t ht d hdest haw
      · rw [if_neg hfc] at hf
        by_cases ht : t = c
        · rw [if_pos ht] at haw
          rw [ht]
          exact hnew.asReceiver f hfc d k r hf (hawaits _ haw)
        · rw [if_neg ht] at haw
          exact ha.awaited f t hne d k r hf haw
  cases h with
  | stay => exact ⟨⟨ha.kept, ha.awaited⟩, hd⟩
  | receive _ hreply =>
    refine ⟨hblock _ (fun _ _ _ hs => absurd hs (by simp)) (fun n hn => ?_), hd⟩
    rw [hreply]
    exact hn
  | lost _ _ =>
    exact ⟨hblock _ (fun _ _ _ hs => absurd hs (by simp))
      (fun n hn => absurd hn (by simp [Phase.awaits])), hd⟩
  | @blocked d k hdest hk =>
    refine ⟨hblock _ ?_ (fun n hn => hn), hd⟩
    intro d' k' r hs
    injection hs with h1 h2 h3
    have hdd : d = d' := Option.some.inj (hdest.symm.trans h1)
    subst hdd
    refine ⟨hblocks d k ?_, hdest, h2 ▸ hk⟩
    rw [State.set_phase, if_pos rfl, hdest]
  | @direct d t hdest ht =>
    have ha' : Aligned (s.called c dest) := ⟨ha.kept, ha.awaited⟩
    refine ⟨ha'.transfer t dest hnew.asReceiver, ?_⟩
    intro r hmem d' hdest'
    rcases List.mem_cons.mp hmem with rfl | hmem
    · show s.number t = d'
      rw [ht]
      exact Option.some.inj (hdest.symm.trans hdest')
    · exact hd r hmem d' hdest'

/-! ## Runs -/

/-- A call of an idle thread, or a move. -/
def Step (s s' : State τ ν) : Prop :=
  (∃ c dest reply old, s.phase c = .idle ∧ Call c dest reply old s s') ∨ Move s s'

/-- A message with a destination has reached it, or a thread that waited for the sender. -/
structure Wanted (s : State τ ν) : Prop where
  passed : ∀ r ∈ s.transfers, ∀ d, r.dest = some d →
    r.receiverNo = d ∨ r.awaited = some (some r.senderNo)
  kept : ∀ f d k reply, s.phase f = .sending (some d) k reply → k = none ∨ k = some d

theorem Wanted.set {t : τ} {p : Phase ν} (hw : Wanted s)
    (hp : ∀ d k reply, p = .sending (some d) k reply → k = none ∨ k = some d) :
    Wanted (s.set t p) := by
  refine ⟨hw.passed, fun x d k reply hx => ?_⟩
  rw [State.set_phase] at hx
  split at hx
  · exact hp d k reply hx
  · exact hw.kept x d k reply hx

theorem Wanted.transfer {f t : τ} (hw : Wanted s)
    (h : ∀ d, dest = some d → s.number t = d ∨ (s.phase t).source? = some (some (s.number f))) :
    Wanted (s.transfer f t dest reply) := by
  refine ⟨fun r hr d hd => ?_, fun x d k r hx => ?_⟩
  · rcases List.mem_cons.mp hr with rfl | hr
    · exact h d hd
    · exact hw.passed r hr d hd
  · rcases s.transfer_cases f t dest reply x with ⟨_, hp⟩ | ⟨_, hp⟩ | ⟨_, hp⟩ <;> rw [hp] at hx
    · cases reply <;> simp [Phase.afterSend] at hx
    · simp at hx
    · exact hw.kept x d k r hx

theorem Step.wanted (h : Step s s') (hw : Wanted s) : Wanted s' := by
  rcases h with ⟨c, dest, reply, old, _, hc⟩ | hm
  · have hw' : Wanted (s.called c dest) := ⟨hw.passed, hw.kept⟩
    cases hc with
    | stay => exact hw'
    | receive | lost => exact hw'.set (by simp)
    | blocked hd hk =>
      refine hw'.set fun d k reply hp => ?_
      injection hp with hdest hkept
      rw [← hkept, ← hdest, hd]
      exact hk
    | direct hd ht => exact hw'.transfer fun d hd' => .inl (ht.trans (Option.some.inj (hd ▸ hd')))
  · cases hm with
    | wake t => exact hw.set (by simp)
    | pair hf ht hmatch =>
      refine hw.transfer fun d hd => ?_
      rcases hmatch with rfl | rfl
      · -- paired by what the sender remembers, which is its destination
        exact .inl (Option.some.inj ((hw.kept _ _ _ _ (hd ▸ hf)).resolve_left (by simp)))
      · exact .inr (by rw [ht]; rfl)

theorem Wanted.run (hw : Wanted s) (h : Relation.ReflTransGen Step s s') : Wanted s' := by
  induction h with
  | refl => exact hw
  | tail _ hs ih => exact hs.wanted ih

/-! ## Delivery at most once -/

variable [DecidableEq ν]

/-- How many messages have passed from `f` to the number `n`. -/
def State.passed (s : State τ ν) (f : τ) (n : ν) : Nat :=
  s.transfers.countP fun r => decide (r.sender = f ∧ r.receiverNo = n)

/-- How many calls of `f` had the destination `n`. -/
def State.asked (s : State τ ν) (f : τ) (n : ν) : Nat :=
  s.calls.countP fun c => decide (c.1 = f ∧ c.2 = some n)

/-- How many messages to `n` wait at `f`. -/
def Phase.waiting (n : ν) : Phase ν → Nat
  | sending dest _ _ => if dest = some n then 1 else 0
  | _ => 0

/-- Every message that has passed or waits was asked for by a call of its own. -/
structure Spent (s : State τ ν) : Prop where
  owed : ∀ f n, s.passed f n + (s.phase f).waiting n ≤ s.asked f n
  named : ∀ f k r, s.phase f ≠ .sending none k r

theorem Phase.waiting_afterSend (n : ν) (reply : Option (Option ν)) :
    (afterSend reply).waiting n = 0 := by
  cases reply <;> rfl

theorem State.passed_transfer (s : State τ ν) (f t : τ) (dest : Option ν)
    (reply : Option (Option ν)) (x : τ) (n : ν) : (s.transfer f t dest reply).passed x n =
      s.passed x n + if f = x ∧ s.number t = n then 1 else 0 := by
  show (s.record f t dest :: s.transfers).countP _ = _
  rw [List.countP_cons]
  by_cases h : f = x ∧ s.number t = n
  · rw [if_pos h, if_pos (decide_eq_true (by exact h))]
    rfl
  · have hne : decide ((s.record f t dest).sender = x ∧ (s.record f t dest).receiverNo = n) =
        false := decide_eq_false h
    rw [if_neg h, hne]
    rfl

theorem State.asked_called (s : State τ ν) (c : τ) (dest : Option ν) (x : τ) (n : ν) :
    (s.called c dest).asked x n = s.asked x n + if c = x ∧ dest = some n then 1 else 0 := by
  show ((c, dest) :: s.calls).countP _ = _
  rw [List.countP_cons]
  by_cases h : c = x ∧ dest = some n
  · rw [if_pos h, if_pos (decide_eq_true (by exact h))]
    rfl
  · rw [if_neg h, if_neg (fun h' => h (of_decide_eq_true h'))]
    rfl

/-- The sender of a message no longer waits, and no other thread waits more. -/
theorem State.transfer_waiting (s : State τ ν) (f t : τ) (dest : Option ν)
    (reply : Option (Option ν)) (x : τ) (n : ν) :
    ((s.transfer f t dest reply).phase x).waiting n ≤
      if x = f then 0 else (s.phase x).waiting n := by
  rcases s.transfer_cases f t dest reply x with ⟨hx, hp⟩ | ⟨hx, hp⟩ | ⟨hx, hp⟩
  · rw [hp, Phase.waiting_afterSend]
    exact Nat.zero_le _
  · rw [hp]
    exact Nat.zero_le _
  · exact Nat.le_of_eq (by rw [hp, if_neg hx])

omit [DecidableEq ν] in
theorem State.transfer_named (h : ∀ f k r, s.phase f ≠ .sending none k r) (f t : τ)
    (dest : Option ν) (reply : Option (Option ν)) (x : τ) (k : Option ν) (r : Option (Option ν)) :
    (s.transfer f t dest reply).phase x ≠ .sending none k r := by
  rcases s.transfer_cases f t dest reply x with ⟨_, hp⟩ | ⟨_, hp⟩ | ⟨_, hp⟩
  · rw [hp]
    cases reply <;> simp [Phase.afterSend]
  · rw [hp]
    simp
  · rw [hp]
    exact h x k r

theorem Move.spent (h : Move s s') (hs : Spent s) (ha : Aligned s) : Spent s' := by
  cases h with
  | wake t =>
    constructor
    · intro f n
      have h1 := hs.owed f n
      have h2 : ((s.set t .idle).phase f).waiting n ≤ (s.phase f).waiting n := by
        rw [State.set_phase]
        split
        · exact Nat.zero_le _
        · exact Nat.le_refl _
      show s.passed f n + _ ≤ s.asked f n
      omega
    · intro f k r
      rw [State.set_phase]
      split
      · simp
      · exact hs.named f k r
  | @pair f t dest kept reply source hf ht hmatch =>
    refine ⟨?_, State.transfer_named hs.named f t dest reply⟩
    intro x n
    have h1 := hs.owed x n
    have h2 := s.transfer_waiting f t dest reply x n
    show (s.transfer f t dest reply).passed x n + _ ≤ s.asked x n
    rw [State.passed_transfer]
    by_cases hx : f = x
    · subst hx
      rw [if_pos rfl] at h2
      -- the message that waited has passed
      obtain ⟨d, hd⟩ : ∃ d, dest = some d := by
        cases hdest : dest with
        | none => rw [hdest] at hf; exact absurd hf (hs.named f kept reply)
        | some d => exact ⟨d, rfl⟩
      rw [hd] at hf
      have hnum : s.number t = d := by
        rcases hmatch with hk | hsrc
        · rcases ha.kept f d kept reply hf with hk' | hk'
          · rw [hk] at hk'
            simp at hk'
          · exact Option.some.inj (hk.symm.trans hk')
        · refine (ha.awaited f t ?_ d kept reply hf ?_).symm
          · rintro rfl
            rw [hf] at ht
            simp at ht
          · rw [ht]
            exact hsrc
      rw [hf] at h1
      simp only [Phase.waiting, Option.some.injEq] at h1
      simp only [true_and, hnum]
      omega
    · rw [if_neg (fun h => hx h.symm)] at h2
      rw [if_neg (fun h => hx h.1)]
      omega

theorem Call.spent (h : Call c dest reply old s s') (hs : Spent s) (hidle : s.phase c = .idle)
    (hlost : dest = none → reply ≠ none) : Spent s' := by
  have hblock : ∀ p : Phase ν, (∀ n, p.waiting n ≤ if dest = some n then 1 else 0) →
      (∀ k r, p ≠ .sending none k r) → Spent ((s.called c dest).set c p) := by
    intro p hp hnamed
    constructor
    · intro f n
      have h1 := hs.owed f n
      show s.passed f n + _ ≤ (s.called c dest).asked f n
      rw [State.asked_called, State.set_phase]
      by_cases hf : f = c
      · subst hf
        have h2 := hp n
        rw [if_pos rfl]
        simp only [true_and]
        omega
      · have : (s.called c dest).phase f = s.phase f := rfl
        rw [if_neg hf, if_neg (fun h => hf h.1.symm), this]
        omega
    · intro f k r
      rw [State.set_phase]
      split
      · exact hnamed k r
      · exact hs.named f k r
  cases h with
  | stay =>
    refine ⟨fun f n => ?_, hs.named⟩
    have h1 := hs.owed f n
    show s.passed f n + (s.phase f).waiting n ≤ _
    rw [State.asked_called]
    omega
  | receive _ _ => exact hblock _ (fun n => Nat.zero_le _) (by simp)
  | lost hdest hreply => exact absurd hreply (hlost hdest)
  | @blocked d k hdest _ =>
    refine hblock _ (fun n => Nat.le_refl _) (fun k' r hs' => ?_)
    injection hs' with h1
    exact absurd (hdest.symm.trans h1) (by simp)
  | @direct d t hdest ht =>
    subst hdest
    refine ⟨?_, State.transfer_named hs.named c t (some d) reply⟩
    intro x n
    have h1 := hs.owed x n
    have h2 := (s.called c (some d)).transfer_waiting c t (some d) reply x n
    have h3 : (s.called c (some d)).passed x n = s.passed x n := rfl
    have h4 : (s.called c (some d)).phase x = s.phase x := rfl
    have h5 : (s.called c (some d)).number t = d := ht
    show ((s.called c (some d)).transfer c t (some d) reply).passed x n + _ ≤
      (s.called c (some d)).asked x n
    rw [State.passed_transfer, State.asked_called, h3, h5]
    rw [h4] at h2
    simp only [Option.some.injEq]
    by_cases hx : x = c
    · rw [if_pos hx] at h2
      omega
    · rw [if_neg hx] at h2
      omega

end

end Rendezvous
