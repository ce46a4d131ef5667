import Cob.Lib.Potential
import Cob.Queue.Progress

/-!
# The progress thread returns

Every access of a sender or of the progress thread brings the end of a run nearer, or it only looks:
for the enqueue position, for a free cell, for a published one, for the counter to move on. In a
run in which all threads only look, no position is left half sent, so the progress thread finds
what is there to dequeue; then the next cell is free, and the senders find it. A run in which no
thread is passed over therefore ends, and it ends with everything delivered.

* `Settled` — positions not published are held, those behind the dequeue position are released;
* `Poll` — the steps that only look;
* `Move.poll_or_left_lt` — the other steps bring the end nearer;
* `done_of_stuck`, `not_endless` — how runs end, and that they do;
* `delivered` — what the progress thread delivers, and that it returns.
-/

namespace Cob.Queue.Progress

/-- The threads that use the progress queue. -/
inductive Thread where
  /-- A sender, the last of them `execute`. -/
  | sender (i : ℕ)
  | progress
  deriving DecidableEq

/-- The thread that makes an access; `wait` unblocks by itself. -/
def Action.thread : Action → Option Thread
  | .send i _ => some (.sender i)
  | .consume _ => some .progress
  | .unblock => none

/-- The threads answer for the positions of the ring. -/
structure Settled (h : List (Event LogEvent)) (s : State) : Prop where
  /-- A position that is not published yet is held by a sender. -/
  held : ∀ (p : ℕ) (y : Entry LogEvent), (ledger h)[p]? = some y → y.phase.rank < 2 →
    ∃ (i : ℕ) (w : Sender), s.senders[i]? = some w ∧ w.held = some p
  /-- The positions before the dequeue position have been released. -/
  released : h.filterMap Event.releasedPos = List.range s.ring.dequeuePos
  /-- Who has begun to send may send. -/
  begun : ∀ (i : ℕ) (w : Sender), s.senders[i]? = some w → w.todo ≠ [] →
    w.pc ≠ .enqueue .load → s.maySend i = true

section Settled

variable {capacity : ℕ} {messages : List (List Message)} {h : List (Event LogEvent)}
  {c : List (ℕ × LogEvent)} {s s' : State} {a : Action} {e : Option (Event LogEvent)}

/-- A step of the progress thread leaves the senders alone. -/
@[simp]
theorem senders_popped (s : State) (ring : Ring LogEvent) (r : PopPc LogEvent ⊕ Option LogEvent) :
    (s.popped ring r).senders = s.senders := by
  rcases r with pc | (_ | ev) <;> rfl

/-- Workers that have returned stay so. -/
theorem Move.joined (hm : Move s a s' e) (hjoined : s.joined = true) : s'.joined = true := by
  cases hm with
  | enqueue hi _ _ => exact joined_set hjoined (eq_last_of_joined hjoined hi) rfl
  | count hi => exact joined_set hjoined (eq_last_of_joined hjoined hi) rfl
  | notify hi => exact joined_set hjoined (eq_last_of_joined hjoined hi) rfl
  | load _ => exact hjoined
  | wait _ => exact hjoined
  | pop _ _ => simpa [State.joined] using hjoined
  | unblock _ => exact hjoined

/-- Who may send may go on. -/
theorem Move.maySend (hm : Move s a s' e) {i : ℕ} (hmay : s.maySend i = true) :
    s'.maySend i = true := by
  have hlength : s'.senders.length = s.senders.length := by
    cases hm <;> simp
  rw [State.maySend, Bool.or_eq_true, decide_eq_true_eq] at hmay ⊢
  rw [hlength]
  exact hmay.imp_right hm.joined

/-- A position stays held while its holder goes on holding it. -/
theorem exists_held_set {i p : ℕ} {w w' : Sender} (hi : s.senders[i]? = some w)
    (hkeep : w.held = some p → w'.held = some p)
    (hheld : ∃ (j : ℕ) (v : Sender), s.senders[j]? = some v ∧ v.held = some p) :
    ∃ (j : ℕ) (v : Sender), (s.senders.set i w')[j]? = some v ∧ v.held = some p := by
  obtain ⟨j, v, hj, hp⟩ := hheld
  rcases eq_or_ne i j with rfl | hne
  · obtain rfl := Option.some.inj (hi.symm.trans hj)
    have hlt : i < s.senders.length := (List.getElem?_eq_some_iff.mp hi).1
    exact ⟨i, w', List.getElem?_set_self hlt, hkeep hp⟩
  · exact ⟨j, v, by rw [List.getElem?_set_ne hne, hj], hp⟩

/-- Where the holder of a position that is not published after a step is to be found. -/
theorem Settled.held_before (hS : Settled h s)
    (hallowed : ∀ ev, e = some ev → Allowed capacity (ledger h) ev) {p : ℕ} {y : Entry LogEvent}
    (hy : (ledger (h ++ e.toList))[p]? = some y) (hrank : y.phase.rank < 2) :
    e = some (.claimed p y.item) ∨ e ≠ some (.published p) ∧
      ∃ (i : ℕ) (w : Sender), s.senders[i]? = some w ∧ w.held = some p := by
  rw [ledger_append_toList] at hy
  cases e with
  | none => exact .inr ⟨nofun, hS.held p y hy hrank⟩
  | some e =>
    have hallow := hallowed e rfl
    rcases hallow.exists_of_record hy with rfl | ⟨y₀, hy₀, hle⟩
    · exact .inl rfl
    · refine .inr ⟨?_, hS.held p y₀ hy₀ (hle.trans_lt hrank)⟩
      intro hpublished
      obtain rfl := Option.some.inj hpublished
      obtain ⟨x, hx⟩ := hallow.reached rfl
      obtain rfl := Option.some.inj (hx.symm.trans hy)
      exact absurd hrank (show ¬ Phase.published.rank < 2 by decide)

/-- A sender that holds the position it has claimed until it publishes it leaves things settled. -/
theorem Settled.sender (hS : Settled h s)
    (hallowed : ∀ ev, e = some ev → Allowed capacity (ledger h) ev) {i : ℕ} {w w' : Sender}
    (hi : s.senders[i]? = some w)
    (hclaimed : ∀ p x, e = some (.claimed p x) → w'.held = some p)
    (hkeep : ∀ p, w.held = some p → w'.held = some p ∨ e = some (.published p))
    (hreleased : e.bind Event.releasedPos = none) (hsenders : s'.senders = s.senders.set i w')
    (hpos : s'.ring.dequeuePos = s.ring.dequeuePos)
    (hbegun : ∀ (j : ℕ) (v : Sender), s'.senders[j]? = some v → v.todo ≠ [] →
      v.pc ≠ .enqueue .load → s'.maySend j = true) : Settled (h ++ e.toList) s' where
  held := by
    intro p y hy hrank
    rw [hsenders]
    rcases hS.held_before hallowed hy hrank with hclaim | ⟨hnot, hheld⟩
    · have hlt : i < s.senders.length := (List.getElem?_eq_some_iff.mp hi).1
      exact ⟨i, w', List.getElem?_set_self hlt, hclaimed p _ hclaim⟩
    · exact exists_held_set hi (fun hp => (hkeep p hp).resolve_right hnot) hheld
  released := by
    rw [List.filterMap_append, hS.released, hpos]
    cases e with
    | none => simp
    | some e =>
      have hnone : e.releasedPos = none := hreleased
      simp [hnone]
  begun := hbegun

/-- A step of the progress thread that counts the position it releases leaves things settled. -/
theorem Settled.consumer (hS : Settled h s)
    (hmay : ∀ i, s.maySend i = true → s'.maySend i = true)
    (hallowed : ∀ ev, e = some ev → Allowed capacity (ledger h) ev)
    (hclaimed : ∀ p x, e ≠ some (.claimed p x)) (hsenders : s'.senders = s.senders)
    (hreleased : List.range s.ring.dequeuePos ++ e.toList.filterMap Event.releasedPos =
      List.range s'.ring.dequeuePos) : Settled (h ++ e.toList) s' where
  held := by
    intro p y hy hrank
    rw [hsenders]
    rcases hS.held_before hallowed hy hrank with hclaim | ⟨-, hheld⟩
    · exact absurd hclaim (hclaimed p _)
    · exact hheld
  released := by rw [List.filterMap_append, hS.released, hreleased]
  begun := by
    intro j v hj htodo hpc
    rw [hsenders] at hj
    exact hmay j (hS.begun j v hj htodo hpc)

/-- Every move leaves things settled. -/
theorem Settled.move (hS : Settled h s) (hI : Consistent capacity h s) (hm : Move s a s' e) :
    Settled (h ++ e.toList) s' := by
  have hallowed := (lawful_append_toList.mp (hI.move hm).lawful).2
  have hmay : ∀ i, s.maySend i = true → s'.maySend i = true := fun _ => hm.maySend
  -- who else has begun to send may go on
  have hbegun : ∀ {i : ℕ} {w : Sender}, s'.senders = s.senders.set i w → s.maySend i = true →
      ∀ (j : ℕ) (v : Sender), s'.senders[j]? = some v → v.todo ≠ [] → v.pc ≠ .enqueue .load →
        s'.maySend j = true := by
    intro i w hsenders hi j v hj htodo hpc
    rcases eq_or_ne i j with rfl | hne
    · exact hmay i hi
    · rw [hsenders, List.getElem?_set_ne hne] at hj
      exact hmay j (hS.begun j v hj htodo hpc)
  cases hm with
  | @enqueue i spurious pc ev rest ring r e hi hsends hstep =>
    -- the call holds what it claims, and what it gives up is published
    obtain ⟨hheld, hclaimed⟩ := Ring.held_or_published hstep
    obtain ⟨-, hpos⟩ := Ring.enqueueStep_frame hstep
    refine hS.sender hallowed hi (fun p x he => ?_) (fun p hp => ?_) ?_ rfl hpos
      (hbegun rfl hsends)
    · rw [held_after]
      exact hclaimed p x he
    · rw [held_after]
      exact hheld p hp
    · have hreturned := returned_enqueueStep hstep
      cases e with
      | none => rfl
      | some e => cases e <;> first | rfl | cases hreturned
  | @count i spurious ev rest hi =>
    have hsends := hS.begun i _ hi nofun nofun
    exact hS.sender hallowed hi nofun nofun rfl rfl rfl (hbegun rfl hsends)
  | @notify i spurious ev rest hi =>
    have hsends := hS.begun i _ hi nofun nofun
    exact hS.sender hallowed hi nofun nofun rfl rfl rfl (hbegun rfl hsends)
  | load _ => exact hS.consumer hmay hallowed nofun rfl (List.append_nil _)
  | wait _ => exact hS.consumer hmay hallowed nofun rfl (List.append_nil _)
  | @pop moved pc ring r e hc hstep =>
    have hrank := Ring.rank_target_popStep hstep
    have hclaimed : ∀ p x, e ≠ some (.claimed p x) := by
      rintro p x rfl
      exact absurd (hrank p .claimed rfl) (by decide)
    refine hS.consumer hmay hallowed hclaimed (senders_popped _ _ _) ?_
    -- only a release moves the dequeue position on
    cases pc with
    | check =>
      simp only [Ring.popStep] at hstep
      split_ifs at hstep <;> (obtain ⟨rfl, rfl, rfl⟩ := by simpa using hstep) <;>
        exact List.append_nil _
    | read =>
      obtain ⟨rfl, rfl, rfl⟩ := by simpa [Ring.popStep] using hstep
      exact List.append_nil _
    | release ev =>
      obtain ⟨rfl, rfl, rfl⟩ := by simpa [Ring.popStep] using hstep
      exact List.range_succ.symm
  | unblock _ => exact hS.consumer hmay hallowed nofun rfl (List.append_nil _)

/-- What every run keeps: the ring is consistent, the accounts balance and things are settled. -/
theorem exists_of_reachable {n : ℕ} (htwo : 2 ≤ bitCeil n)
    (hreach : (progressMachine n messages).Reachable s) :
    ∃ h c, Consistent (bitCeil n) h s ∧ Accounts messages h c s ∧ Settled h s := by
  obtain ⟨tr, hrun⟩ := hreach
  refine ⟨_, _, consistent_of_run htwo hrun, accounts_of_run htwo hrun, ?_⟩
  induction hrun with
  | start hinit =>
    obtain rfl := hinit
    refine ⟨by simp [history], rfl, fun i w hi _ hpc => ?_⟩
    obtain ⟨script, -, rfl⟩ := by simpa using hi
    exact absurd rfl hpc
  | move hbefore hstep ih =>
    rw [history_cons]
    exact ih.move (consistent_of_run htwo hbefore) (move_of_step hstep)

end Settled

/-! ### The accesses that only look -/

/-- The accesses of `enqueue` before a position is claimed, and where the call goes on. -/
inductive Spin (q : Ring LogEvent) (spurious : Bool) : EnqueuePc → EnqueuePc → Prop
  | load : Spin q spurious .load (.check q.enqueuePos)
  | free {pos : ℕ} : (q.cell pos).sequence = pos → Spin q spurious (.check pos) (.exchange pos)
  | retry {pos : ℕ} : (q.cell pos).sequence ≠ pos → Spin q spurious (.check pos) .load
  | lost {pos : ℕ} : (q.enqueuePos = pos → spurious = true) →
      Spin q spurious (.exchange pos) (.check q.enqueuePos)

/-- The accesses of the progress thread that find nothing to dequeue. -/
inductive Waits (s : State) : ConsumerPc → ConsumerPc → Prop
  | load : Waits s .load (if s.processed = s.messagesEnqueued then .wait else .dequeue .check)
  | wait : Waits s .wait (if s.messagesEnqueued = s.processed then .blocked else .load)
  | empty : (s.ring.cell s.ring.dequeuePos).sequence ≠ s.ring.dequeuePos + 1 →
      Waits s (.dequeue .check) (.dequeue .check)

/-- The steps that change nothing but where a thread is. -/
inductive Poll (s : State) : Action → State → Prop
  | send {i : ℕ} {spurious : Bool} {pc pc' : EnqueuePc} {ev : LogEvent} {rest : List LogEvent} :
      s.senders[i]? = some ⟨.enqueue pc, ev :: rest⟩ → Spin s.ring spurious pc pc' →
      Poll s (.send i spurious) { s with senders := s.senders.set i ⟨.enqueue pc', ev :: rest⟩ }
  | consume {moved : LogEvent} {c : ConsumerPc} : Waits s s.consumer c →
      Poll s (.consume moved) { s with consumer := c }
  | unblock : s.consumer = .blocked → Poll s .unblock { s with consumer := .wait }

/-- The accesses to come until an event is sent, those that only look apart; the claim of a position
counts for the three accesses that the progress thread makes there as well. -/
def SenderPc.left : SenderPc → ℕ
  | .enqueue pc =>
    match pc with
    | .load | .check _ | .exchange _ => 8
    | .write _ => 4
    | .publish _ => 3
  | .count => 2
  | .notify => 1

/-- The accesses a sender still has to make. -/
def Sender.left : Sender → ℕ
  | ⟨_, []⟩ => 0
  | ⟨pc, _ :: rest⟩ => pc.left + 8 * rest.length

/-- The accesses the progress thread has made at the dequeue position. -/
def ConsumerPc.made : ConsumerPc → ℕ
  | .dequeue .read => 1
  | .dequeue (.release _) => 2
  | .dequeue .check | .load | .wait | .blocked | .done => 0

/-- The accesses that the threads still have to make. -/
def State.left (s : State) : ℕ :=
  tally Sender.left s.senders + 3 * (s.ring.enqueuePos - s.ring.dequeuePos) - s.consumer.made

section Polls

variable {capacity : ℕ} {messages : List (List Message)} {h : List (Event LogEvent)}
  {c : List (ℕ × LogEvent)} {s s' : State} {a : Action} {e : Option (Event LogEvent)}

/-- The progress thread works on positions that have been claimed. -/
theorem Consistent.made_le (hI : Consistent capacity h s) :
    3 * s.ring.dequeuePos + s.consumer.made ≤ 3 * s.ring.enqueuePos := by
  have hle := hI.ring.taken_le
  have hpos := hI.ring.enqueuePos
  have hconsumer := hI.consumer
  cases hc : s.consumer with
  | dequeue pc =>
    rw [hc] at hconsumer
    cases pc with
    | check =>
      have hcount : takenCount (ledger h) = s.ring.dequeuePos := hconsumer
      show _ + 0 ≤ _
      omega
    | read =>
      have hcount := hconsumer.1
      show _ + 1 ≤ _
      omega
    | release =>
      have hcount := hconsumer.1
      show _ + 2 ≤ _
      omega
  | load | wait | blocked | done =>
    rw [hc] at hconsumer
    have hcount : takenCount (ledger h) = s.ring.dequeuePos := hconsumer
    show _ + 0 ≤ _
    omega

/-- A sender whose accesses to come grow fewer brings the end nearer. -/
theorem left_lt_of_sender (hI : Consistent capacity h s) {i : ℕ} {w w' : Sender}
    (hi : s.senders[i]? = some w) (hsenders : s'.senders = s.senders.set i w')
    (hpos : s'.ring.dequeuePos = s.ring.dequeuePos) (hmade : s'.consumer.made = s.consumer.made)
    (hle : s.ring.enqueuePos ≤ s'.ring.enqueuePos)
    (hlt : w'.left + 3 * (s'.ring.enqueuePos - s.ring.enqueuePos) < w.left) :
    s'.left < s.left := by
  have htally := tally_set Sender.left hi w'
  have hbound := hI.made_le
  simp only [State.left, hsenders, hpos, hmade]
  omega

/-- A step changes nothing but where a thread is, or brings the end nearer. -/
theorem Move.poll_or_left_lt (hI : Consistent capacity h s) (hm : Move s a s' e) :
    Poll s a s' ∨ s'.left < s.left := by
  have hbound := hI.made_le
  have hbound' := (hI.move hm).made_le
  cases hm with
  | @enqueue i spurious pc ev rest ring r e hi hmay hstep =>
    cases pc with
    | load =>
      obtain ⟨rfl, rfl, rfl⟩ := by simpa [Ring.enqueueStep] using hstep
      exact .inl (.send hi .load)
    | check pos =>
      simp only [Ring.enqueueStep] at hstep
      -- a queue that looks full and a position that is gone both send the call back
      split_ifs at hstep with hzero hneg <;> (obtain ⟨rfl, rfl, rfl⟩ := by simpa using hstep)
      · exact .inl (.send hi (.free (by omega)))
      · exact .inl (.send hi (.retry (by omega)))
      · exact .inl (.send hi (.retry (by omega)))
    | exchange pos =>
      simp only [Ring.enqueueStep] at hstep
      split_ifs at hstep with hexchange <;> (obtain ⟨rfl, rfl, rfl⟩ := by simpa using hstep)
      · -- four accesses less for the sender, and three more for the progress thread
        refine .inr (left_lt_of_sender hI hi rfl rfl rfl (Nat.le_succ _) ?_)
        simp only [Sender.left, SenderPc.after, SenderPc.left]
        omega
      · refine .inl (.send hi (.lost fun heq => ?_))
        simpa using mt (And.intro heq) hexchange
    | write pos =>
      obtain ⟨rfl, rfl, rfl⟩ := by simpa [Ring.enqueueStep] using hstep
      refine .inr (left_lt_of_sender hI hi rfl rfl rfl le_rfl ?_)
      simp [Sender.left, SenderPc.after, SenderPc.left]
    | publish pos =>
      obtain ⟨rfl, rfl, rfl⟩ := by simpa [Ring.enqueueStep] using hstep
      refine .inr (left_lt_of_sender hI hi rfl rfl rfl le_rfl ?_)
      simp [Sender.left, SenderPc.after, SenderPc.left]
  | count hi =>
    refine .inr (left_lt_of_sender hI hi rfl rfl rfl le_rfl ?_)
    simp [Sender.left, SenderPc.left]
  | @notify i spurious ev rest hi =>
    refine .inr (left_lt_of_sender hI hi rfl rfl ?_ le_rfl ?_)
    · show (if s.consumer = .blocked then ConsumerPc.wait else s.consumer).made = _
      split_ifs with hblocked
      · rw [hblocked]
        rfl
      · rfl
    · -- the next event, if there is one, has all its accesses to come
      cases rest with
      | nil => simp [Sender.left, SenderPc.left]
      | cons ev' rest =>
        simp only [Sender.left, SenderPc.left, List.length_cons]
        omega
  | load hc => exact .inl (.consume (hc ▸ .load))
  | wait hc => exact .inl (.consume (hc ▸ .wait))
  | @pop moved pc ring r e hc hstep =>
    rw [hc] at hbound
    cases pc with
    | check =>
      simp only [Ring.popStep] at hstep
      split_ifs at hstep with hzero <;> (obtain ⟨rfl, rfl, rfl⟩ := by simpa using hstep)
      · right
        have hmade : 3 * s.ring.dequeuePos + 1 ≤ 3 * s.ring.enqueuePos := hbound'
        simp only [State.left, State.popped, ConsumerPc.made, hc]
        omega
      · refine .inl (.consume ?_)
        rw [hc]
        exact .empty (by omega)
    | read =>
      obtain ⟨rfl, rfl, rfl⟩ := by simpa [Ring.popStep] using hstep
      right
      have hmade : 3 * s.ring.dequeuePos + 2 ≤ 3 * s.ring.enqueuePos := hbound'
      simp only [State.left, State.popped, ConsumerPc.made, hc, Ring.enqueuePos_storeData,
        Ring.dequeuePos_storeData]
      omega
    | release ev =>
      obtain ⟨rfl, rfl, rfl⟩ := by simpa [Ring.popStep] using hstep
      right
      have hmade : 3 * s.ring.dequeuePos + 2 ≤ 3 * s.ring.enqueuePos := hbound
      simp only [State.left, State.popped, ConsumerPc.made, hc]
      omega
  | unblock hc => exact .inl (.unblock hc)

/-- A step that only looks leaves as many accesses to make. -/
theorem Poll.left_eq (hp : Poll s a s') : s'.left = s.left := by
  cases hp with
  | @send i spurious pc pc' ev rest hi hspin =>
    have htally := tally_set Sender.left hi ⟨.enqueue pc', ev :: rest⟩
    have hsame : Sender.left ⟨.enqueue pc', ev :: rest⟩ =
        Sender.left ⟨.enqueue pc, ev :: rest⟩ := by
      cases hspin <;> rfl
    simp only [State.left]
    omega
  | @consume moved c hwaits =>
    have hsame : c.made = 0 ∧ s.consumer.made = 0 := by
      cases hc : s.consumer <;> rw [hc] at hwaits <;> cases hwaits <;> (try split_ifs) <;>
        exact ⟨rfl, rfl⟩
    simp only [State.left, hsame]
  | unblock hc =>
    simp only [State.left, hc, ConsumerPc.made]

/-- What the steps that only look leave alone. -/
structure Kept (s s' : State) : Prop where
  ring : s'.ring = s.ring
  messagesEnqueued : s'.messagesEnqueued = s.messagesEnqueued
  processed : s'.processed = s.processed
  todo : s'.senders.map Sender.todo = s.senders.map Sender.todo

theorem Kept.trans {s'' : State} (h : Kept s s') (h' : Kept s' s'') : Kept s s'' where
  ring := h'.ring.trans h.ring
  messagesEnqueued := h'.messagesEnqueued.trans h.messagesEnqueued
  processed := h'.processed.trans h.processed
  todo := h'.todo.trans h.todo

theorem Poll.kept (hp : Poll s a s') : Kept s s' := by
  cases hp with
  | @send i spurious pc pc' ev rest hi hspin =>
    refine ⟨rfl, rfl, rfl, ?_⟩
    rw [List.map_set]
    apply List.ext_getElem?
    intro j
    rw [List.getElem?_set]
    split_ifs with heq hlt
    · rw [← heq, List.getElem?_map, hi]
      rfl
    · rw [List.getElem?_eq_none (by omega)]
    · rfl
  | consume _ => exact ⟨rfl, rfl, rfl, rfl⟩
  | unblock _ => exact ⟨rfl, rfl, rfl, rfl⟩

/-- Who may send depends on what is still to be sent only. -/
theorem Kept.maySend (hk : Kept s s') (i : ℕ) : s'.maySend i = s.maySend i := by
  have hjoined : ∀ s : State, s.joined = (s.senders.map Sender.todo).dropLast.all List.isEmpty := by
    intro s
    rw [← List.map_dropLast, List.all_map]
    rfl
  have hlength : s'.senders.length = s.senders.length := by
    simpa using congrArg List.length hk.todo
  rw [State.maySend, State.maySend, hjoined, hjoined, hk.todo, hlength]

/-- A step that only looks moves one thread. -/
theorem Poll.sender_eq (hp : Poll s a s') {i : ℕ} (hother : a.thread ≠ some (.sender i)) :
    s'.senders[i]? = s.senders[i]? := by
  cases hp with
  | @send j spurious pc pc' ev rest hj hspin =>
    have hne : j ≠ i := by
      rintro rfl
      exact hother rfl
    exact List.getElem?_set_ne hne
  | consume _ => rfl
  | unblock _ => rfl

theorem Poll.consumer_eq (hp : Poll s a s') (hblocked : s.consumer ≠ .blocked)
    (hother : a.thread ≠ some .progress) : s'.consumer = s.consumer := by
  cases hp with
  | send _ _ => rfl
  | consume _ => exact absurd rfl hother
  | unblock hc => exact absurd hc hblocked

end Polls

/-! ### What is left when nothing but looking goes on -/

/-- The steps of a sender that only looks. -/
theorem Poll.spins {s s' : State} {a : Action} {i : ℕ} (hp : Poll s a s')
    (hi : a.thread = some (.sender i)) :
    ∃ (spurious : Bool) (pc pc' : EnqueuePc) (ev : LogEvent) (rest : List LogEvent),
      a = .send i spurious ∧ s.senders[i]? = some ⟨.enqueue pc, ev :: rest⟩ ∧
        s'.senders[i]? = some ⟨.enqueue pc', ev :: rest⟩ ∧ Spin s.ring spurious pc pc' := by
  cases hp with
  | @send j spurious pc pc' ev rest hj hspin =>
    obtain rfl : j = i := by simpa [Action.thread] using hi
    have hlt : j < s.senders.length := (List.getElem?_eq_some_iff.mp hj).1
    exact ⟨spurious, pc, pc', ev, rest, rfl, hj, List.getElem?_set_self hlt, hspin⟩
  | consume _ => cases hi
  | unblock _ => cases hi

/-- The steps of the progress thread that only look. -/
theorem Poll.waits {s s' : State} {a : Action} (hp : Poll s a s')
    (ha : a.thread = some .progress) : ∃ c, Waits s s.consumer c ∧ s'.consumer = c := by
  cases hp with
  | send _ _ => cases ha
  | @consume moved c hwaits => exact ⟨c, hwaits, rfl⟩
  | unblock _ => cases ha

theorem Spin.held_eq_none {q : Ring LogEvent} {spurious : Bool} {pc pc' : EnqueuePc}
    (h : Spin q spurious pc pc') : pc.held = none := by
  cases h <;> rfl

/-- Who has an event to send and may send can move. -/
theorem step_send_ne_none {s : State} {i : ℕ} {w : Sender} (hi : s.senders[i]? = some w)
    (htodo : w.todo ≠ []) (hmay : s.maySend i = true) (spurious : Bool) :
    s.step (.send i spurious) ≠ none := by
  obtain ⟨pc, _ | ⟨ev, rest⟩⟩ := w
  · exact absurd rfl htodo
  · simp [State.step, hi, hmay]

/-- The progress thread can move unless it is blocked or has returned. -/
theorem step_consume_ne_none {s : State} (hblocked : s.consumer ≠ .blocked)
    (hdone : s.consumer ≠ .done) (moved : LogEvent) : s.step (.consume moved) ≠ none := by
  cases hc : s.consumer with
  | blocked => exact absurd hc hblocked
  | done => exact absurd hc hdone
  | load | wait | dequeue pc => simp [State.step, State.consume, hc]

/-- When everything is sent and the progress thread has returned, nobody has a step to make. -/
theorem step_ne_some_of_done {s s' : State} {a : Action} (hsent : ∀ w ∈ s.senders, w.todo = [])
    (hdone : s.consumer = .done) : s.step a ≠ some s' := by
  intro hstep
  have hnot : ∀ {i : ℕ} {pc : SenderPc} {ev : LogEvent} {rest : List LogEvent},
      s.senders[i]? ≠ some ⟨pc, ev :: rest⟩ := by
    intro i pc ev rest hi
    cases hsent _ (List.mem_of_getElem? hi)
  have hm := move_of_step hstep
  generalize event (s, a) = e at hm
  cases hm with
  | enqueue hi _ _ => exact hnot hi
  | count hi => exact hnot hi
  | notify hi => exact hnot hi
  | load hc | wait hc | pop hc _ | unblock hc =>
    rw [hdone] at hc
    cases hc

/-- When nobody who may send has an event to send, nobody has. -/
theorem todo_eq_nil_of_maySend {s : State}
    (h : ∀ (i : ℕ) (w : Sender), s.senders[i]? = some w → s.maySend i = true → w.todo = []) :
    ∀ w ∈ s.senders, w.todo = [] := by
  have hjoined : s.joined = true := by
    rw [State.joined, List.all_eq_true]
    intro w hw
    obtain ⟨i, hi⟩ := List.getElem?_of_mem hw
    rw [List.getElem?_dropLast] at hi
    split_ifs at hi with hlt
    have hmay : s.maySend i = true := by
      rw [State.maySend, decide_eq_true (show i + 1 < s.senders.length by omega)]
      rfl
    rw [h i w hi hmay]
    rfl
  intro w hw
  obtain ⟨i, hi⟩ := List.getElem?_of_mem hw
  exact h i w hi (by rw [State.maySend, hjoined, Bool.or_true])

/-- The senders with events to send are before the claim of a position. -/
def Quiet (s : State) : Prop :=
  ∀ (i : ℕ) (w : Sender), s.senders[i]? = some w → w.todo ≠ [] →
    ∃ pc : EnqueuePc, w.pc = .enqueue pc ∧ pc.held = none

section Quiet

variable {capacity : ℕ} {messages : List (List Message)} {h : List (Event LogEvent)}
  {c : List (ℕ × LogEvent)} {s : State}

theorem Quiet.held_eq_none (hq : Quiet s) {i : ℕ} {w : Sender} (hi : s.senders[i]? = some w) :
    w.held = none := by
  obtain ⟨pc, _ | ⟨ev, rest⟩⟩ := w
  · cases pc <;> rfl
  · obtain ⟨pc, rfl, hnone⟩ := hq i _ hi nofun
    exact hnone

/-- Everything sent has been counted. -/
theorem Quiet.counted (hq : Quiet s) (hA : Accounts messages h c s) :
    s.messagesEnqueued = c.length := by
  have hpending : tally Sender.pending s.senders = 0 := by
    refine tally_eq_zero_iff.mpr fun w hw => ?_
    obtain ⟨i, hi⟩ := List.getElem?_of_mem hw
    obtain ⟨pc, _ | ⟨ev, rest⟩⟩ := w
    · cases pc <;> rfl
    · obtain ⟨pc, rfl, hnone⟩ := hq i _ hi nofun
      simp [Sender.pending, hnone]
  rw [← hA.counted, hpending, Nat.add_zero]

/-- Nobody waits for a notification. -/
theorem Quiet.not_blocked (hq : Quiet s) (hA : Accounts messages h c s)
    (hne : s.processed ≠ s.messagesEnqueued) : s.consumer ≠ .blocked := by
  intro hblocked
  rcases hA.blocked hblocked with heq | ⟨i, ev, rest, hi⟩
  · exact hne heq
  · obtain ⟨pc, hpc, -⟩ := hq i _ hi nofun
    cases hpc

/-- The next event to dequeue is published. -/
theorem Quiet.sequence_dequeuePos (hq : Quiet s) (hI : Consistent capacity h s)
    (hA : Accounts messages h c s) (hS : Settled h s) (hlt : s.processed < c.length)
    (hcheck : s.consumer = .dequeue .check) :
    (s.ring.cell s.ring.dequeuePos).sequence = s.ring.dequeuePos + 1 := by
  have htaken : takenCount (ledger h) = s.ring.dequeuePos := by
    have hconsumer := hI.consumer
    rwa [hcheck] at hconsumer
  have hlength := hA.length_ledger hI
  have hring := hI.ring
  rw [htaken] at hring
  have hfront : s.ring.dequeuePos < (ledger h).length := by
    rw [← hA.processed_eq, hlength]
    exact hlt
  obtain ⟨⟨x, ph⟩, hy⟩ : ∃ y, (ledger h)[s.ring.dequeuePos]? = some y :=
    ⟨_, List.getElem?_eq_getElem hfront⟩
  refine hring.sequence_taken_iff.mpr ⟨x, ?_⟩
  -- a position that nobody holds is published at least, and this one is not taken
  have hlow : ¬ ph.rank < 2 := by
    intro hrank
    obtain ⟨i, w, hi, hheld⟩ := hS.held _ _ hy hrank
    rw [hq.held_eq_none hi] at hheld
    cases hheld
  have hhigh : ¬ 3 ≤ ph.rank := fun hrank => lt_irrefl _ ((hring.taken_iff _ _ hy).mp hrank)
  obtain rfl : ph = .published := Phase.rank_injective (show ph.rank = 2 by omega)
  exact hy

/-- When everything has been dequeued, the next cell is free. -/
theorem Settled.sequence_enqueuePos (hS : Settled h s) (hI : Consistent capacity h s)
    (hA : Accounts messages h c s) (hle : c.length ≤ s.processed) :
    (s.ring.cell s.ring.enqueuePos).sequence = s.ring.enqueuePos := by
  have hlength := hA.length_ledger hI
  rw [hI.ring.enqueuePos]
  refine hI.ring.sequence_length_iff.mpr ?_
  rcases Nat.lt_or_ge (ledger h).length s.ring.capacity with hlt | hge
  · exact .inl hlt
  · right
    have htwo := hI.ring.two_le
    have hmem : (ledger h).length - s.ring.capacity ∈ h.filterMap Event.releasedPos := by
      rw [hS.released, List.mem_range, ← hA.processed_eq]
      omega
    obtain ⟨e, he, hpos⟩ := List.mem_filterMap.mp hmem
    cases e with
    | released p x =>
      obtain rfl := Option.some.inj hpos
      exact ⟨x, (hI.lawful.mem_released_iff _ x).mp he⟩
    | _ => cases hpos

end Quiet

/-- How far a call of `enqueue` is from claiming the enqueue position. -/
def toClaim (enqueuePos : ℕ) : EnqueuePc → ℕ
  | .load => 2
  | .check pos => if pos = enqueuePos then 1 else 3
  | .exchange pos => if pos = enqueuePos then 0 else 2
  | .write _ | .publish _ => 0

/-- How far a sender is from claiming the enqueue position. -/
def Sender.toClaim (enqueuePos : ℕ) : Sender → ℕ
  | ⟨.enqueue pc, _⟩ => Progress.toClaim enqueuePos pc
  | _ => 0

/-- How far the progress thread is from calling `dequeue`. -/
def ConsumerPc.toDequeue : ConsumerPc → ℕ
  | .wait => 2
  | .load => 1
  | .blocked | .dequeue _ | .done => 0

/-- Each access of a call brings it closer to a free cell. -/
theorem Spin.toClaim_lt {q : Ring LogEvent} {pc pc' : EnqueuePc} (h : Spin q false pc pc')
    (hfree : (q.cell q.enqueuePos).sequence = q.enqueuePos) :
    toClaim q.enqueuePos pc' < toClaim q.enqueuePos pc := by
  cases h with
  | load => simp [toClaim]
  | @free pos hseq =>
    simp only [toClaim]
    split_ifs <;> omega
  | @retry pos hseq =>
    have hne : pos ≠ q.enqueuePos := by
      rintro rfl
      exact hseq hfree
    simp [toClaim, hne]
  | @lost pos hlost =>
    have hne : pos ≠ q.enqueuePos := by
      rintro rfl
      cases hlost rfl
    simp [toClaim, hne]

section Endless

variable {n : ℕ} {messages : List (List Message)} {f : ℕ → State × Action} {k : ℕ}

open Classical in
/-- From some point on an endless run makes only steps that change nothing but where a thread is. -/
theorem eventually_poll (htwo : 2 ≤ bitCeil n) (h : (progressMachine n messages).Endless f) :
    ∃ k, ∀ m, k ≤ m → Poll (f m).1 (f m).2 (f (m + 1)).1 := by
  have hend := Machine.Endless.eventually_not (M := progressMachine n messages) (Φ := State.left)
    (p := fun m => ∃ s', m.1.step m.2 = some s' ∧ ¬ Poll m.1 m.2 s') ?_ h
  · obtain ⟨k, hk⟩ := hend
    refine ⟨k, fun m hkm => ?_⟩
    have hno := of_decide_eq_false (hk m hkm)
    by_contra hpoll
    exact hno ⟨_, h.step m, hpoll⟩
  · intro s a s' hreach hstep
    obtain ⟨_, _, hI, -, -⟩ := exists_of_reachable htwo hreach
    rcases (move_of_step hstep).poll_or_left_lt hI with hpoll | hlt
    · have hsame := hpoll.left_eq
      rw [if_neg]
      · exact hsame.le
      · rw [decide_eq_true_eq]
        rintro ⟨s'', hs'', hnot⟩
        obtain rfl := Option.some.inj (hstep.symm.trans hs'')
        exact hnot hpoll
    · split_ifs <;> omega

/-- What only looking leaves alone, for good. -/
theorem kept_of_poll (hpoll : ∀ m, k ≤ m → Poll (f m).1 (f m).2 (f (m + 1)).1) {m : ℕ}
    (hkm : k ≤ m) : Kept (f k).1 (f m).1 := by
  induction m, hkm using Nat.le_induction with
  | base => exact ⟨rfl, rfl, rfl, rfl⟩
  | succ m hkm ih => exact ih.trans (hpoll m hkm).kept

/-- Who has claimed a position goes on until its event is sent. -/
theorem quiet_of_poll (htwo : 2 ≤ bitCeil n) (h : (progressMachine n messages).Endless f)
    (hfair : ∀ i, (progressMachine n messages).FairTo Action.thread (some (.sender i)) f)
    (hpoll : ∀ m, k ≤ m → Poll (f m).1 (f m).2 (f (m + 1)).1) {m : ℕ} (hkm : k ≤ m) :
    Quiet (f m).1 := by
  intro i w hi htodo
  by_contra hbusy
  -- a busy sender makes no step that only looks
  have hnot : ∀ j, m ≤ j → (f j).1.senders[i]? = some w → (f j).2.thread ≠ some (.sender i) := by
    intro j hmj hj hmove
    obtain ⟨_, pc, _, _, _, -, hpc, -, hspin⟩ := (hpoll j (hkm.trans hmj)).spins hmove
    obtain rfl := Option.some.inj (hj.symm.trans hpc)
    exact hbusy ⟨pc, rfl, hspin.held_eq_none⟩
  have hstay : ∀ j, m ≤ j → (f j).1.senders[i]? = some w := by
    intro j hmj
    induction j, hmj using Nat.le_induction with
    | base => exact hi
    | succ j hmj ih => rw [(hpoll j (hkm.trans hmj)).sender_eq (hnot j hmj ih), ih]
  have hbegun : w.pc ≠ .enqueue .load := fun hpc => hbusy ⟨_, hpc, rfl⟩
  obtain ⟨j, hmj, hmove⟩ := (hfair i).exists_move (n := m) fun j hmj => by
    obtain ⟨_, _, -, -, hS⟩ := exists_of_reachable htwo (h.reachable j)
    have hj := hstay j hmj
    exact ⟨.send i false, rfl, step_send_ne_none hj htodo (hS.begun i w hj htodo hbegun) false⟩
  exact hnot j hmj (hstay j hmj) hmove

/-- The progress thread dequeues what has been sent. -/
theorem processed_of_poll (htwo : 2 ≤ bitCeil n) (h : (progressMachine n messages).Endless f)
    (hfair : ∀ t, (progressMachine n messages).FairTo Action.thread (some t) f)
    (hpoll : ∀ m, k ≤ m → Poll (f m).1 (f m).2 (f (m + 1)).1) :
    (f k).1.processed = (f k).1.messagesEnqueued := by
  -- suppose events are left: the consumer only polls, so they are left forever
  by_contra hne
  have hnever : ∀ m, k ≤ m → (f m).1.processed ≠ (f m).1.messagesEnqueued := by
    intro m hkm
    have hkept := kept_of_poll hpoll hkm
    rwa [hkept.processed, hkept.messagesEnqueued]
  -- all that was sent is counted, so the consumer neither sleeps nor has seen the pill
  have hawake : ∀ m, k ≤ m → (f m).1.consumer ≠ .blocked ∧ (f m).1.consumer ≠ .done := by
    intro m hkm
    have hq := quiet_of_poll htwo h (fun i => hfair (.sender i)) hpoll hkm
    obtain ⟨_, c, hI, hA, -⟩ := exists_of_reachable htwo (h.reachable m)
    refine ⟨hq.not_blocked hA (hnever m hkm), fun hdone => hnever m hkm ?_⟩
    have hall := hA.length_le_of_pill (hA.pill_of_done hdone)
    rw [hq.counted hA]
    exact le_antisymm (hA.processed_le hI) hall
  -- the rank of the consumer falls with each of its moves until it dequeues
  refine (hfair .progress).elim (Φ := fun s => s.consumer.toDequeue) k ?_ ?_ ?_
  · intro m hkm
    obtain ⟨hblocked, hdone⟩ := hawake m hkm
    exact ⟨.consume pill, rfl, step_consume_ne_none hblocked hdone pill⟩
  · intro m hkm hother
    rw [(hpoll m hkm).consumer_eq (hawake m hkm).1 hother]
  · intro m hkm hmove
    have hq := quiet_of_poll htwo h (fun i => hfair (.sender i)) hpoll hkm
    obtain ⟨_, c, hI, hA, hS⟩ := exists_of_reachable htwo (h.reachable m)
    have hlt : (f m).1.processed < c.length := by
      rw [← hq.counted hA]
      exact lt_of_le_of_ne (hq.counted hA ▸ hA.processed_le hI) (hnever m hkm)
    obtain ⟨c', hwaits, hc'⟩ := (hpoll m hkm).waits hmove
    rw [hc']
    cases hc : (f m).1.consumer with
    | load =>
      rw [hc] at hwaits
      cases hwaits
      rw [if_neg (hnever m hkm)]
      decide
    | wait =>
      rw [hc] at hwaits
      cases hwaits
      rw [if_neg (hnever m hkm).symm]
      decide
    -- the next event is published, so the cell cannot look empty
    | dequeue pc =>
      rw [hc] at hwaits
      cases hwaits with
      | empty hne => exact absurd (hq.sequence_dequeuePos hI hA hS hlt hc) hne
    | blocked | done =>
      rw [hc] at hwaits
      cases hwaits

/-- The senders that may send send all their events. -/
theorem todo_of_poll (htwo : 2 ≤ bitCeil n) (h : (progressMachine n messages).Endless f)
    (hfair : ∀ t, (progressMachine n messages).FairTo Action.thread (some t) f)
    (hpoll : ∀ m, k ≤ m → Poll (f m).1 (f m).2 (f (m + 1)).1)
    (hcas : ∀ m, k ≤ m → ∀ i, (f m).2 ≠ .send i true) : ∀ w ∈ (f k).1.senders, w.todo = [] := by
  have hq := quiet_of_poll htwo h (fun i => hfair (.sender i)) hpoll le_rfl
  obtain ⟨_, c, hI, hA, hS⟩ := exists_of_reachable htwo (h.reachable k)
  have hdequeued := processed_of_poll htwo h hfair hpoll
  -- all that was sent is dequeued, so the cell of the next claim is free
  have hfree := hS.sequence_enqueuePos hI hA (hdequeued.trans (hq.counted hA)).ge
  refine todo_eq_nil_of_maySend fun i w hi hmay => ?_
  by_contra htodo
  -- a sender with an event left keeps it, since no claim is made
  have hsends : ∀ m, k ≤ m → ∃ v, (f m).1.senders[i]? = some v ∧ v.todo ≠ [] := by
    intro m hkm
    have hsame := congrArg (·[i]?) (kept_of_poll hpoll hkm).todo
    simp only [List.getElem?_map, hi, Option.map_some, Option.map_eq_some_iff] at hsame
    obtain ⟨v, hv, htodo'⟩ := hsame
    exact ⟨v, hv, htodo' ▸ htodo⟩
  -- its rank falls with each of its moves until it claims
  refine (hfair (.sender i)).elim k
    (Φ := fun s => s.senders[i]?.elim 0 (Sender.toClaim (f k).1.ring.enqueuePos)) ?_ ?_ ?_
  · intro m hkm
    obtain ⟨v, hv, hsends⟩ := hsends m hkm
    have hmay' := (kept_of_poll hpoll hkm).maySend i
    exact ⟨.send i false, rfl, step_send_ne_none hv hsends (hmay'.trans hmay) false⟩
  · intro m hkm hother
    rw [(hpoll m hkm).sender_eq hother]
  · intro m hkm hmove
    obtain ⟨spurious, pc, pc', ev, rest, ha, hpc, hpc', hspin⟩ := (hpoll m hkm).spins hmove
    have hring := (kept_of_poll hpoll hkm).ring
    rw [hring] at hspin
    obtain rfl : spurious = false := by
      cases spurious with
      | false => rfl
      | true => exact absurd ha (hcas m hkm i)
    simp only [hpc, hpc']
    exact hspin.toClaim_lt hfree

/-- No endless run passes over no thread forever, unless compare-exchanges fail spuriously
forever. -/
theorem not_endless (htwo : 2 ≤ bitCeil n) (h : (progressMachine n messages).Endless f)
    (hcas : ∃ k, ∀ m, k ≤ m → ∀ i, (f m).2 ≠ .send i true)
    (hfair : ∀ t, (progressMachine n messages).FairTo Action.thread (some t) f) : False := by
  obtain ⟨k₁, hpoll⟩ := eventually_poll htwo h
  obtain ⟨k₂, hcas⟩ := hcas
  obtain ⟨k, hk₁, hk₂⟩ : ∃ k, k₁ ≤ k ∧ k₂ ≤ k := ⟨max k₁ k₂, le_max_left _ _, le_max_right _ _⟩
  have hpoll' := fun m (hkm : k ≤ m) => hpoll m (hk₁.trans hkm)
  have hsent := todo_of_poll htwo h hfair hpoll' fun m hkm => hcas m (hk₂.trans hkm)
  have hq := quiet_of_poll htwo h (fun i => hfair (.sender i)) hpoll' (le_refl k)
  obtain ⟨_, c, hI, hA, hS⟩ := exists_of_reachable htwo (h.reachable k)
  have hdequeued := processed_of_poll htwo h hfair hpoll'
  have hdone := hA.done_of_drained hsent (hdequeued.trans (hq.counted hA)).ge
  exact step_ne_some_of_done hsent hdone (h.step k)

end Endless

/-- In a state in which no thread can move everything has been sent and the progress thread has
returned. -/
theorem done_of_stuck {capacity : ℕ} {messages : List (List Message)} {tr : List (State × Action)}
    {s : State} (htwo : 2 ≤ bitCeil capacity)
    (hrun : (progressMachine capacity messages).Run tr s)
    (hstuck : ∀ a, a.thread ≠ none → s.step a = none) : s.consumer = .done := by
  have hsent : ∀ w ∈ s.senders, w.todo = [] := by
    refine todo_eq_nil_of_maySend fun i w hi hmay => ?_
    by_contra htodo
    exact step_send_ne_none hi htodo hmay false (hstuck _ nofun)
  have hblocked : s.consumer ≠ .blocked := (delivered_of_run htwo hrun).2.2.2.2.2 hsent
  by_contra hdone
  exact step_consume_ne_none hblocked hdone pill (hstuck _ nofun)

/-- In every run each event is dequeued once, in the order of its sender; the pill comes last, and
with it the progress thread returns; a progress thread blocked while it has events to process is
about to be notified, and none is blocked once everything has been sent; when no thread can move,
the progress thread has returned, having dequeued everything. And no run goes on forever, unless
it passes over a thread forever or compare-exchanges fail spuriously forever. -/
theorem delivered {capacity : ℕ} {messages : List (List Message)} (htwo : 2 ≤ bitCeil capacity) :
    (∀ (tr : List (State × Action)) (s : State), (progressMachine capacity messages).Run tr s →
      s.processed = (dequeued tr).length ∧
      DeliversPart (scripts messages) (dequeued tr) ∧
      (pill ∈ dequeued tr → ∃ before, dequeued tr = before ++ [pill] ∧
        Delivers (messages.map (·.map Message.event)) before) ∧
      (s.consumer = .done ↔ pill ∈ dequeued tr) ∧
      (s.consumer = .blocked → s.processed < s.messagesEnqueued →
        ∃ w ∈ s.senders, w.pc = .notify) ∧
      ((∀ w ∈ s.senders, w.todo = []) → s.consumer ≠ .blocked) ∧
      ((∀ a, a.thread ≠ none → s.step a = none) → s.consumer = .done)) ∧
    ∀ f, (progressMachine capacity messages).Endless f →
      (∃ k, ∀ m, k ≤ m → ∀ i, (f m).2 ≠ .send i true) →
        ∃ t, ¬ (progressMachine capacity messages).FairTo Action.thread (some t) f := by
  refine ⟨fun tr s hrun => ?_, fun f h hcas => ?_⟩
  · obtain ⟨hprocessed, hpart, hall, hdone, hnotify, hblocked⟩ := delivered_of_run htwo hrun
    exact ⟨hprocessed, hpart, hall, hdone, hnotify, hblocked, done_of_stuck htwo hrun⟩
  · by_contra hfair
    rw [not_exists] at hfair
    exact not_endless htwo h hcas fun t => not_not.mp (hfair t)

/-- Two workers with a message each. -/
def greetings : List (List Message) := [[⟨ascii "a", [], false⟩], [⟨ascii "b", [], true⟩]]

/-- The progress thread blocks; the first worker sends its message and counts it. -/
def beforeNotify : List Action :=
  List.replicate 2 (.consume pill) ++ List.replicate 6 (.send 0 false)

/-- The other worker sends as well, then `execute`, and the progress thread returns. -/
def afterNotify : List Action :=
  .send 0 false :: List.replicate 7 (.send 1 false) ++
    List.replicate 10 (.consume pill) ++ List.replicate 7 (.send 2 false) ++
      List.replicate 5 (.consume pill)

/-- The build before any access, the progress thread elsewhere. -/
def greetingsState (c : ConsumerPc) : State :=
  ⟨Ring.create 2, 0, (scripts greetings).map Sender.start, c, 0⟩

/-- The progress thread blocks and is woken for nothing, over and over. -/
def idling : ℕ → State × Action
  | 0 => (greetingsState .load, .consume pill)
  | n + 1 =>
    if n % 2 = 0 then (greetingsState .wait, .consume pill)
    else (greetingsState .blocked, .unblock)

theorem endless_idling : (progressMachine 2 greetings).Endless idling where
  init := rfl
  step := by
    intro n
    cases n with
    | zero => rfl
    | succ n =>
      rcases Nat.mod_two_eq_zero_or_one n with heven | hodd
      · simp only [idling, heven, if_true, show (n + 1) % 2 ≠ 0 by omega, if_false]
        rfl
      · simp only [idling, hodd, one_ne_zero, if_false, show (n + 1) % 2 = 0 by omega, if_true]
        rfl

theorem delivered_greetings : (∃ (tr : List (State × Action)) (s : State),
    (progressMachine 2 greetings).Run tr s ∧ s.consumer = .done ∧
      ∃ before, dequeued tr = before ++ [pill] ∧
        Delivers (greetings.map (·.map Message.event)) before) ∧
    ∃ t, ¬ (progressMachine 2 greetings).FairTo Action.thread (some t) idling := by
  constructor
  · obtain ⟨tr, s, hrun, hs⟩ := Machine.exists_run_of_exec (M := progressMachine 2 greetings)
      (s := greetingsState .load) rfl (beforeNotify ++ afterNotify)
      (fun r => r.2.consumer = .done) (by decide +kernel)
    have hdone := of_decide_eq_true hs
    obtain ⟨-, -, hall, hiff, -⟩ := (delivered (by decide)).1 tr s hrun
    exact ⟨tr, s, hrun, hdone, hall (hiff.mp hdone)⟩
  · refine (delivered (by decide)).2 idling endless_idling ⟨0, fun m _ i => ?_⟩
    cases m with
    | zero => nofun
    | succ m =>
      simp only [idling]
      split_ifs <;> nofun

/-- Between counting a message and notifying, the progress thread is still blocked. -/
theorem blocked_beforeNotify : ¬ ∀ (capacity : ℕ) (messages : List (List Message))
    (tr : List (State × Action)) (s : State), 2 ≤ bitCeil capacity →
    (progressMachine capacity messages).Run tr s →
    ¬ (s.consumer = .blocked ∧ s.processed < s.messagesEnqueued) := by
  intro hall
  obtain ⟨tr, s, hrun, hs⟩ := Machine.exists_run_of_exec (M := progressMachine 2 greetings)
    (s := greetingsState .load) rfl beforeNotify
    (fun r => r.2.consumer = .blocked ∧ r.2.processed < r.2.messagesEnqueued) (by decide +kernel)
  exact hall 2 greetings tr s (by decide) hrun (of_decide_eq_true hs)

end Cob.Queue.Progress
