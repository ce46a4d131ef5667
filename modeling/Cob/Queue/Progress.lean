import Cob.Bytes
import Cob.Lib.Machine
import Cob.Lib.Tally
import Cob.Queue.Mpsc

/-!
# The progress thread

The workers send log events through the progress queue; `execute` sends the poison pill after it
has joined them; the progress thread waits on the number of messages enqueued and dequeues. The
adversary picks the thread that makes the next access.

* `sent` — the events in the order of their positions, each with its sender;
* `dequeued` — the events that the progress thread has dequeued, in order;
* `Consistent` — what every run keeps;
* `delivered_of_run` — exactly once, in the order of each sender, the pill last, and no lost wakeup.
-/

namespace Cob.Queue.Progress

/-- `ExecuteContext::LogEvent`. -/
structure LogEvent where
  consoleMessage : Bytes
  logMessage : Bytes
  isError : Bool
  isPoisonPill : Bool
  deriving DecidableEq, Inhabited

/-- What a worker sends. -/
structure Message where
  consoleMessage : Bytes
  logMessage : Bytes
  isError : Bool
  deriving DecidableEq

/-- The event a worker enqueues for a message. -/
def Message.event (m : Message) : LogEvent :=
  ⟨m.consoleMessage, m.logMessage, m.isError, false⟩

/-- The event `execute` enqueues after the workers have returned. -/
def pill : LogEvent := ⟨[], [], false, true⟩

/-- The places in the code that sends an event. -/
inductive SenderPc where
  /-- In `enqueue`, which is called again when it returns false. -/
  | enqueue (pc : EnqueuePc)
  /-- Before `messages_enqueued.fetch_add`. -/
  | count
  /-- Before `messages_enqueued.notify_one`. -/
  | notify
  deriving DecidableEq

/-- A thread that sends events: where it is, and the events still to send. -/
structure Sender where
  pc : SenderPc
  todo : List LogEvent
  deriving DecidableEq

/-- A thread before its first event. -/
def Sender.start (script : List LogEvent) : Sender := ⟨.enqueue .load, script⟩

/-- The places in the loop of the progress thread. -/
inductive ConsumerPc where
  /-- Before `messages_enqueued` is loaded. -/
  | load
  /-- At `messages_enqueued.wait`, before the value is compared. -/
  | wait
  /-- Blocked in `messages_enqueued.wait`. -/
  | blocked
  /-- In `dequeue`, which is called again when it returns false. -/
  | dequeue (pc : PopPc LogEvent)
  /-- Returned. -/
  | done
  deriving DecidableEq

/-- The queue, the counter and the threads. The last sender is `execute` itself. -/
structure State where
  ring : Ring LogEvent
  messagesEnqueued : ℕ
  senders : List Sender
  consumer : ConsumerPc
  processed : ℕ
  deriving DecidableEq

/-- What the adversary picks. -/
inductive Action where
  /-- The sender `i` makes its next access; a compare-exchange may fail spuriously. -/
  | send (i : ℕ) (spurious : Bool)
  /-- The progress thread makes its next access; `moved` is what moving an event out of its cell
  leaves there. -/
  | consume (moved : LogEvent)
  /-- `wait` unblocks without a notification, to compare again. -/
  | unblock
  deriving DecidableEq

/-- `pool.clear()` returns when the workers have. -/
def State.joined (s : State) : Bool := s.senders.dropLast.all fun w => w.todo.isEmpty

/-- The workers send freely, `execute` after the workers have returned. -/
def State.maySend (s : State) (i : ℕ) : Bool := i + 1 < s.senders.length || s.joined

/-- Where a sender goes on after an access of `enqueue`. -/
def SenderPc.after : EnqueuePc ⊕ Bool → SenderPc
  | .inl pc => .enqueue pc
  | .inr true => .count
  | .inr false => .enqueue .load

/-- The next access of a sender with an event to send. -/
def State.send (s : State) (i : ℕ) (spurious : Bool) (ev : LogEvent) (rest : List LogEvent) :
    SenderPc → State
  | .enqueue pc =>
    let (ring, r, _) := s.ring.enqueueStep ev spurious pc
    { s with ring, senders := s.senders.set i ⟨.after r, ev :: rest⟩ }
  | .count =>
    { s with
      messagesEnqueued := s.messagesEnqueued + 1
      senders := s.senders.set i ⟨.notify, ev :: rest⟩ }
  | .notify =>
    { s with
      consumer := if s.consumer = .blocked then .wait else s.consumer
      senders := s.senders.set i ⟨.enqueue .load, rest⟩ }

/-- The state after an access of `dequeue`. -/
def State.popped (s : State) (ring : Ring LogEvent) : PopPc LogEvent ⊕ Option LogEvent → State
  | .inl pc => { s with ring, consumer := .dequeue pc }
  | .inr none => { s with ring, consumer := .dequeue .check }
  | .inr (some ev) =>
    { s with
      ring
      processed := s.processed + 1
      consumer := if ev.isPoisonPill then .done else .load }

/-- The next access of the progress thread. -/
def State.consume (s : State) (moved : LogEvent) : Option State :=
  match s.consumer with
  | .load =>
    some { s with consumer := if s.processed = s.messagesEnqueued then .wait else .dequeue .check }
  | .wait =>
    some { s with consumer := if s.messagesEnqueued = s.processed then .blocked else .load }
  | .blocked => none
  | .dequeue pc =>
    let (ring, r, _) := s.ring.popStep moved pc
    some (s.popped ring r)
  | .done => none

/-- The state after an action. -/
def State.step (s : State) : Action → Option State
  | .send i spurious =>
    match s.senders[i]? with
    | some ⟨pc, ev :: rest⟩ => if s.maySend i then some (s.send i spurious ev rest pc) else none
    | _ => none
  | .consume moved => s.consume moved
  | .unblock => if s.consumer = .blocked then some { s with consumer := .wait } else none

/-- What each thread sends: the workers their messages, `execute` the pill. -/
def scripts (messages : List (List Message)) : List (List LogEvent) :=
  messages.map (·.map Message.event) ++ [[pill]]

/-- A build whose workers send the given messages through a queue of the given capacity. -/
def progressMachine (capacity : ℕ) (messages : List (List Message)) : Machine State Action where
  init s := s = ⟨Ring.create capacity, 0, (scripts messages).map Sender.start, .load, 0⟩
  step := State.step

/-- The event of a move on the queue. -/
def event : State × Action → Option (Event LogEvent)
  | (s, .send i spurious) =>
    match s.senders[i]? with
    | some ⟨.enqueue pc, ev :: _⟩ => (s.ring.enqueueStep ev spurious pc).2.2
    | _ => none
  | (s, .consume moved) =>
    match s.consumer with
    | .dequeue pc => (s.ring.popStep moved pc).2.2
    | _ => none
  | (_, .unblock) => none

/-- The sender and the event that a step claims a position for. -/
def claim : Action → Option (Event LogEvent) → Option (ℕ × LogEvent)
  | .send i _, some (.claimed _ ev) => some (i, ev)
  | _, _ => none

/-- The events of a run on the queue, the earliest first. -/
def history (tr : List (State × Action)) : List (Event LogEvent) := tr.reverse.filterMap event

/-- The events in the order of their positions, each with its sender. -/
def sent (tr : List (State × Action)) : List (ℕ × LogEvent) :=
  tr.reverse.filterMap fun m => claim m.2 (event m)

/-- What one sender has sent so far. -/
def sentBy (i : ℕ) (l : List (ℕ × LogEvent)) : List LogEvent :=
  (l.filter fun c => c.1 = i).map Prod.snd

/-- The item an event of the queue returns. -/
def returned : Event LogEvent → Option LogEvent
  | .released _ ev => some ev
  | _ => none

/-- The events that the progress thread has dequeued, in order. -/
def dequeued (tr : List (State × Action)) : List LogEvent := (history tr).filterMap returned

@[simp]
theorem history_cons (m : State × Action) (tr : List (State × Action)) :
    history (m :: tr) = history tr ++ (event m).toList := by
  cases h : event m <;> simp [history, h]

@[simp]
theorem sent_cons (m : State × Action) (tr : List (State × Action)) :
    sent (m :: tr) = sent tr ++ (claim m.2 (event m)).toList := by
  cases h : claim m.2 (event m) <;> simp [sent, h]

@[simp]
theorem dequeued_cons (m : State × Action) (tr : List (State × Action)) :
    dequeued (m :: tr) = dequeued tr ++ ((event m).bind returned).toList := by
  simp only [dequeued, history_cons, List.filterMap_append]
  cases event m with
  | none => rfl
  | some e => cases h : returned e <;> simp [h]

@[simp]
theorem sentBy_append (i : ℕ) (l l' : List (ℕ × LogEvent)) :
    sentBy i (l ++ l') = sentBy i l ++ sentBy i l' := by
  simp [sentBy]

/-- What a step does, one constructor for each kind of access. -/
inductive Move (s : State) : Action → State → Option (Event LogEvent) → Prop
  | enqueue {i : ℕ} {spurious : Bool} {pc : EnqueuePc} {ev : LogEvent} {rest : List LogEvent}
      {ring : Ring LogEvent} {r : EnqueuePc ⊕ Bool} {e : Option (Event LogEvent)} :
      s.senders[i]? = some ⟨.enqueue pc, ev :: rest⟩ → s.maySend i = true →
      s.ring.enqueueStep ev spurious pc = (ring, r, e) →
      Move s (.send i spurious)
        { s with ring, senders := s.senders.set i ⟨.after r, ev :: rest⟩ } e
  | count {i : ℕ} {spurious : Bool} {ev : LogEvent} {rest : List LogEvent} :
      s.senders[i]? = some ⟨.count, ev :: rest⟩ →
      Move s (.send i spurious)
        { s with
          messagesEnqueued := s.messagesEnqueued + 1
          senders := s.senders.set i ⟨.notify, ev :: rest⟩ } none
  | notify {i : ℕ} {spurious : Bool} {ev : LogEvent} {rest : List LogEvent} :
      s.senders[i]? = some ⟨.notify, ev :: rest⟩ →
      Move s (.send i spurious)
        { s with
          consumer := if s.consumer = .blocked then .wait else s.consumer
          senders := s.senders.set i ⟨.enqueue .load, rest⟩ } none
  | load {moved : LogEvent} : s.consumer = .load →
      Move s (.consume moved)
        { s with
          consumer := if s.processed = s.messagesEnqueued then .wait else .dequeue .check } none
  | wait {moved : LogEvent} : s.consumer = .wait →
      Move s (.consume moved)
        { s with
          consumer := if s.messagesEnqueued = s.processed then .blocked else .load } none
  | pop {moved : LogEvent} {pc : PopPc LogEvent} {ring : Ring LogEvent}
      {r : PopPc LogEvent ⊕ Option LogEvent} {e : Option (Event LogEvent)} :
      s.consumer = .dequeue pc → s.ring.popStep moved pc = (ring, r, e) →
      Move s (.consume moved) (s.popped ring r) e
  | unblock : s.consumer = .blocked → Move s .unblock { s with consumer := .wait } none

/-- Every step is one of these moves. -/
theorem move_of_step {s s' : State} {a : Action} (h : s.step a = some s') :
    Move s a s' (event (s, a)) := by
  -- the branches of `State.step`, and the event that each of them records
  cases a with
  | send i spurious =>
    simp only [State.step] at h
    split at h
    · next pc ev rest hi =>
      split_ifs at h with hmay
      obtain rfl := Option.some.inj h
      cases pc with
      | enqueue pc =>
        simp only [event, hi]
        exact .enqueue hi hmay rfl
      | count =>
        simp only [event, hi]
        exact .count hi
      | notify =>
        simp only [event, hi]
        exact .notify hi
    · cases h
  | consume moved =>
    simp only [State.step, State.consume] at h
    split at h
    · next hc =>
      obtain rfl := Option.some.inj h
      simp only [event, hc]
      exact .load hc
    · next hc =>
      obtain rfl := Option.some.inj h
      simp only [event, hc]
      exact .wait hc
    · cases h
    · next pc hc =>
      obtain rfl := Option.some.inj h
      simp only [event, hc]
      exact .pop hc rfl
    · cases h
  | unblock =>
    simp only [State.step] at h
    split_ifs at h with hc
    obtain rfl := Option.some.inj h
    exact .unblock hc

namespace Sender

/-- The position a sender holds. -/
def held : Sender → Option ℕ
  | ⟨.enqueue pc, _ :: _⟩ => pc.held
  | _ => none

/-- What a sender knows about the ledger. -/
def Holds (capacity : ℕ) (l : List (Entry LogEvent)) : Sender → Prop
  | ⟨.enqueue pc, ev :: _⟩ => pc.Holds capacity l ev
  | _ => True

/-- The events a sender has not claimed a position for. -/
def unsent : Sender → List LogEvent
  | ⟨.enqueue pc, todo⟩ => if pc.held.isSome then todo.tail else todo
  | ⟨_, todo⟩ => todo.tail

/-- Whether a sender has claimed a position that it has not counted yet. -/
def pending : Sender → ℕ
  | ⟨.enqueue pc, _ :: _⟩ => if pc.held.isSome then 1 else 0
  | ⟨.count, _ :: _⟩ => 1
  | _ => 0

variable {capacity : ℕ} {l : List (Entry LogEvent)} {w : Sender}

/-- What an event of another thread leaves to a sender. -/
theorem Holds.record (h : w.Holds capacity l) {e : Event LogEvent} (he : Allowed capacity l e)
    (hother : ∀ p ph, w.held = some p → e.target ≠ some (p, ph)) :
    w.Holds capacity (record l e) := by
  obtain ⟨pc, todo⟩ := w
  cases pc with
  | enqueue pc =>
    cases todo with
    | nil => trivial
    | cons ev rest => exact EnqueuePc.Holds.record h he hother
  | count => trivial
  | notify => trivial

/-- A position that a sender holds is not published yet. -/
theorem Holds.of_held (h : w.Holds capacity l) {p : ℕ} (hheld : w.held = some p) :
    ∃ y, l[p]? = some y ∧ y.phase.rank < 2 := by
  obtain ⟨pc, todo⟩ := w
  cases pc with
  | enqueue pc =>
    cases todo with
    | nil => cases hheld
    | cons ev rest =>
      cases pc with
      | write pos => cases hheld; exact ⟨_, h, show Phase.claimed.rank < 2 by decide⟩
      | publish pos => cases hheld; exact ⟨_, h, show Phase.written.rank < 2 by decide⟩
      | load | check | exchange => cases hheld
  | count => cases hheld
  | notify => cases hheld

end Sender

/-- What the progress thread knows, the dequeue position being `pos`. -/
def ConsumerPc.Holds (pos : ℕ) (l : List (Entry LogEvent)) : ConsumerPc → Prop
  | .dequeue pc => pc.Holds pos l
  | .load | .wait | .blocked | .done => takenCount l = pos

/-- What an event of a sender leaves to the progress thread. -/
theorem ConsumerPc.Holds.record {capacity pos : ℕ} {l : List (Entry LogEvent)} {c : ConsumerPc}
    (h : c.Holds pos l) {e : Event LogEvent} (he : Allowed capacity l e)
    (hrank : ∀ p ph, e.target = some (p, ph) → ph.rank ≤ 2) : c.Holds pos (record l e) := by
  have hcount : takenCount (Queue.record l e) = takenCount l := by
    rw [he.takenCount_record]
    cases e with
    | taken p => exact absurd (hrank p .taken rfl) (by decide)
    | _ => rfl
  have hkeep : ∀ y, l[pos]? = some y → 3 ≤ y.phase.rank →
      (Queue.record l e)[pos]? = some y := by
    intro y hy hthree
    refine he.getElem?_record hy fun ph htarget => ?_
    have hold := he.rank_eq htarget hy
    have := hrank pos ph htarget
    omega
  cases c with
  | dequeue pc =>
    cases pc with
    | check => exact hcount.trans h
    | read =>
      obtain ⟨htaken, x, hx⟩ := h
      exact ⟨hcount.trans htaken, x, hkeep _ hx (show 3 ≤ Phase.taken.rank by decide)⟩
    | release data =>
      obtain ⟨htaken, hx⟩ := h
      exact ⟨hcount.trans htaken, hkeep _ hx (show 3 ≤ Phase.read.rank by decide)⟩
  | load | wait | blocked | done => exact hcount.trans h

/-- The ring shows the ledger of the history; each thread knows what its place says, and no two
senders hold one position. -/
structure Consistent (capacity : ℕ) (h : List (Event LogEvent)) (s : State) : Prop where
  lawful : Lawful capacity h
  capacity_eq : s.ring.capacity = capacity
  ring : s.ring.Inv (takenCount (ledger h)) (ledger h)
  holds : ∀ w ∈ s.senders, w.Holds capacity (ledger h)
  apart : Apart Sender.held s.senders
  consumer : s.consumer.Holds s.ring.dequeuePos (ledger h)

section Consistent

variable {capacity : ℕ} {h : List (Event LogEvent)} {s : State}

/-- A step outside the queue keeps the invariant. -/
theorem Consistent.keep (hI : Consistent capacity h s) {s' : State} (hring : s'.ring = s.ring)
    (hholds : ∀ w ∈ s'.senders, w ∈ s.senders ∨ w.held = none ∧ w.Holds capacity (ledger h))
    (hapart : Apart Sender.held s'.senders)
    (hconsumer : s'.consumer = s.consumer ∨
      s'.consumer.Holds s.ring.dequeuePos (ledger h)) : Consistent capacity h s' where
  lawful := hI.lawful
  capacity_eq := hring ▸ hI.capacity_eq
  ring := hring ▸ hI.ring
  holds := fun w hw => (hholds w hw).elim (hI.holds w) fun h => h.2
  apart := hapart
  consumer := by
    rw [hring]
    rcases hconsumer with heq | hholds
    · exact heq ▸ hI.consumer
    · exact hholds

/-- The position a sender holds after an access of `enqueue` is the one it held, or new. -/
theorem held_after (r : EnqueuePc ⊕ Bool) (ev : LogEvent) (rest : List LogEvent) :
    Sender.held ⟨.after r, ev :: rest⟩ = r.elim EnqueuePc.held fun _ => none := by
  cases r with
  | inl pc => rfl
  | inr b => cases b <;> rfl

/-- An access of `enqueue` keeps the invariant. -/
theorem Consistent.enqueue (hI : Consistent capacity h s) {i : ℕ} {spurious : Bool}
    {pc : EnqueuePc} {ev : LogEvent} {rest : List LogEvent} {ring : Ring LogEvent}
    {r : EnqueuePc ⊕ Bool} {e : Option (Event LogEvent)}
    (hi : s.senders[i]? = some ⟨.enqueue pc, ev :: rest⟩)
    (hstep : s.ring.enqueueStep ev spurious pc = (ring, r, e)) :
    Consistent capacity (h ++ e.toList)
      { s with ring, senders := s.senders.set i ⟨.after r, ev :: rest⟩ } := by
  have hcap := hI.capacity_eq
  have hholds : pc.Holds capacity (ledger h) ev := hI.holds _ (List.mem_of_getElem? hi)
  obtain ⟨hring, hallowed, hnext⟩ := hI.ring.enqueueStep (hcap ▸ hholds) hstep
  rw [hcap] at hallowed hnext
  obtain ⟨hcap', hpos⟩ := Ring.enqueueStep_frame hstep
  obtain ⟨hheld, htarget⟩ := Ring.held_enqueueStep hstep
  have hrank := Ring.rank_target_enqueueStep hstep
  -- a position that is new to this sender is new to all of them
  have hfresh : ∀ w ∈ s.senders, ∀ p, w.held = some p → e ≠ some (.claimed p ev) := by
    rintro w hw p hp rfl
    obtain ⟨y, hy, -⟩ := (hI.holds w hw).of_held hp
    obtain ⟨rfl, -⟩ := hallowed _ rfl
    simp at hy
  refine
    { lawful := lawful_append_toList.mpr ⟨hI.lawful, hallowed⟩
      capacity_eq := hcap'.trans hcap
      ring := ?_
      holds := ?_
      apart := ?_
      consumer := ?_ }
  · rw [ledger_append_toList, ← hring.taken_eq]
    exact hring
  · intro w hw
    rw [ledger_append_toList]
    obtain ⟨j, hj⟩ := List.getElem?_of_mem hw
    rw [List.getElem?_set] at hj
    split_ifs at hj with heq hlt
    · obtain rfl := Option.some.inj hj
      cases r with
      | inl pc' => exact hnext pc' rfl
      | inr b => cases b <;> trivial
    · have hbefore := hI.holds w (List.mem_of_getElem? hj)
      cases e with
      | none => exact hbefore
      | some e =>
        refine hbefore.record (hallowed e rfl) fun p ph hp hev => ?_
        rcases htarget p ph hev with hsame | hnew
        · exact heq (hI.apart i j _ w p hi hj hsame hp)
        · exact hfresh w (List.mem_of_getElem? hj) p hp hnew
  · refine hI.apart.set hi fun p hp => ?_
    rw [held_after] at hp
    exact (hheld p hp).imp_right fun hnew w hw hwp => hfresh w hw p hwp hnew
  · rw [ledger_append_toList]
    show s.consumer.Holds ring.dequeuePos _
    rw [hpos]
    cases e with
    | none => exact hI.consumer
    | some e => exact hI.consumer.record (hallowed e rfl) hrank

/-- An access of `dequeue` keeps the invariant. -/
theorem Consistent.pop (hI : Consistent capacity h s) {moved : LogEvent} {pc : PopPc LogEvent}
    {ring : Ring LogEvent} {r : PopPc LogEvent ⊕ Option LogEvent} {e : Option (Event LogEvent)}
    (hc : s.consumer = .dequeue pc) (hstep : s.ring.popStep moved pc = (ring, r, e)) :
    Consistent capacity (h ++ e.toList) (s.popped ring r) := by
  have hcap := hI.capacity_eq
  have hholds : pc.Holds s.ring.dequeuePos (ledger h) := by
    have := hI.consumer
    rwa [hc] at this
  obtain ⟨hcap', hring, hallowed, hafter⟩ := hI.ring.popStep hholds hstep
  rw [hcap] at hallowed
  have hrank := Ring.rank_target_popStep hstep
  have hpopped : (s.popped ring r).ring = ring ∧ (s.popped ring r).senders = s.senders := by
    rcases r with pc' | (_ | ev) <;> exact ⟨rfl, rfl⟩
  refine
    { lawful := lawful_append_toList.mpr ⟨hI.lawful, hallowed⟩
      capacity_eq := by rw [hpopped.1, hcap', hcap]
      ring := by rwa [hpopped.1, ledger_append_toList]
      holds := ?_
      apart := hpopped.2 ▸ hI.apart
      consumer := ?_ }
  · intro w hw
    rw [hpopped.2] at hw
    rw [ledger_append_toList]
    cases e with
    | none => exact hI.holds w hw
    | some e =>
      refine (hI.holds w hw).record (hallowed e rfl) fun p ph hp hev => ?_
      -- the consumer moves on published positions, which no sender holds
      obtain ⟨y, hy, hlow⟩ := (hI.holds w hw).of_held hp
      have hold := (hallowed e rfl).rank_eq hev hy
      have := hrank p ph hev
      omega
  · rw [ledger_append_toList, hpopped.1]
    rcases r with pc' | (_ | ev)
    · exact hafter
    · exact hafter
    · simp only [State.popped]
      split_ifs <;> exact hafter

/-- Every move keeps the invariant. -/
theorem Consistent.move (hI : Consistent capacity h s) {a : Action} {s' : State}
    {e : Option (Event LogEvent)} (hm : Move s a s' e) :
    Consistent capacity (h ++ e.toList) s' := by
  -- a sender that holds no position may stand anywhere
  have hset : ∀ {i : ℕ} {w : Sender}, s.senders[i]? = some w → ∀ w' : Sender, w'.held = none →
      w'.Holds capacity (ledger h) → Apart Sender.held (s.senders.set i w') ∧
        ∀ v ∈ s.senders.set i w', v ∈ s.senders ∨ v.held = none ∧ v.Holds capacity (ledger h) := by
    intro i w hi w' hnone hholds
    refine ⟨hI.apart.set hi fun p hp => ?_, fun v hv => ?_⟩
    · rw [hnone] at hp
      cases hp
    · rcases List.mem_or_eq_of_mem_set hv with hv | rfl
      · exact .inl hv
      · exact .inr ⟨hnone, hholds⟩
  have hconsumer := hI.consumer
  cases hm with
  | enqueue hi _ hstep => exact hI.enqueue hi hstep
  | @count i _ ev rest hi =>
    obtain ⟨hapart, hholds⟩ := hset hi ⟨.notify, ev :: rest⟩ rfl trivial
    rw [Option.toList_none, List.append_nil]
    exact hI.keep rfl hholds hapart (.inl rfl)
  | @notify i _ ev rest hi =>
    have hload : Sender.Holds capacity (ledger h) ⟨.enqueue .load, rest⟩ := by
      cases rest <;> trivial
    have hnone : Sender.held ⟨.enqueue .load, rest⟩ = none := by
      cases rest <;> rfl
    obtain ⟨hapart, hholds⟩ := hset hi _ hnone hload
    rw [Option.toList_none, List.append_nil]
    refine hI.keep rfl hholds hapart ?_
    show (if s.consumer = .blocked then _ else _) = _ ∨ _
    split_ifs with hc
    · -- the wake-up leaves the consumer between two dequeues
      rw [hc] at hconsumer
      exact .inr hconsumer
    · exact .inl rfl
  | load hc =>
    rw [Option.toList_none, List.append_nil]
    refine hI.keep rfl (fun w hw => .inl hw) hI.apart (.inr ?_)
    rw [hc] at hconsumer
    show ConsumerPc.Holds _ _ (if _ then _ else _)
    split_ifs <;> exact hconsumer
  | wait hc =>
    rw [Option.toList_none, List.append_nil]
    refine hI.keep rfl (fun w hw => .inl hw) hI.apart (.inr ?_)
    rw [hc] at hconsumer
    show ConsumerPc.Holds _ _ (if _ then _ else _)
    split_ifs <;> exact hconsumer
  | pop hc hstep => exact hI.pop hc hstep
  | unblock hc =>
    rw [Option.toList_none, List.append_nil]
    refine hI.keep rfl (fun w hw => .inl hw) hI.apart (.inr ?_)
    rw [hc] at hconsumer
    exact hconsumer

end Consistent

/-- The queue of a build is consistent along every run. -/
theorem consistent_of_run {n : ℕ} {messages : List (List Message)} {tr : List (State × Action)}
    {s : State} (htwo : 2 ≤ bitCeil n) (hrun : (progressMachine n messages).Run tr s) :
    Consistent (bitCeil n) (history tr) s := by
  induction hrun with
  | start hinit =>
    obtain rfl := hinit
    have hstart : ∀ w ∈ (scripts messages).map Sender.start,
        w.held = none ∧ w.Holds (bitCeil n) [] := by
      intro w hw
      obtain ⟨script, -, rfl⟩ := List.mem_map.mp hw
      cases script <;> exact ⟨rfl, trivial⟩
    refine
      { lawful := lawful_nil
        capacity_eq := Ring.capacity_create n
        ring := Ring.inv_create htwo
        holds := fun w hw => (hstart w hw).2
        apart := ?_
        consumer := rfl }
    intro t t' w w' p ht _ hp
    rw [(hstart w (List.mem_of_getElem? ht)).1] at hp
    cases hp
  | move _ hstep ih =>
    rw [history_cons]
    exact ih.move (move_of_step hstep)

/-- What the threads have done so far, read off the history `h` and the events `c` sent. -/
structure Accounts (messages : List (List Message)) (h : List (Event LogEvent))
    (c : List (ℕ × LogEvent)) (s : State) : Prop where
  items : h.filterMap Event.claimedItem = c.map Prod.snd
  /-- The progress thread has dequeued the first of the events sent. -/
  dequeued_eq : h.filterMap returned = (c.take s.processed).map Prod.snd
  processed_eq : s.processed = s.ring.dequeuePos
  length : s.senders.length = messages.length + 1
  /-- Each sender has sent the beginning of its script. -/
  script : ∀ (i : ℕ) (w : Sender), s.senders[i]? = some w →
    (scripts messages)[i]? = some (sentBy i c ++ w.unsent)
  sender_lt : ∀ x ∈ c, x.1 ≤ messages.length
  /-- `execute` sends when the workers have returned. -/
  last : ∀ x ∈ c, x.1 = messages.length → s.joined = true ∧ c.getLast? = some x
  /-- What is sent is counted, or about to be. -/
  counted : s.messagesEnqueued + tally Sender.pending s.senders = c.length
  /-- Who is blocked in vain is about to be notified. -/
  blocked : s.consumer = .blocked → s.processed = s.messagesEnqueued ∨
    ∃ (i : ℕ) (ev : LogEvent) (rest : List LogEvent), s.senders[i]? = some ⟨.notify, ev :: rest⟩
  done : s.consumer = .done ↔ ∃ ev ∈ h.filterMap returned, ev.isPoisonPill = true

section Accounts

variable {capacity : ℕ} {messages : List (List Message)} {h : List (Event LogEvent)}
  {c : List (ℕ × LogEvent)} {s : State}

/-- Once the workers have returned, only `execute` has events to send. -/
theorem eq_last_of_joined {i : ℕ} {pc : SenderPc} {ev : LogEvent} {rest : List LogEvent}
    (hjoined : s.joined = true) (hi : s.senders[i]? = some ⟨pc, ev :: rest⟩) :
    i + 1 = s.senders.length := by
  have hlt : i < s.senders.length := (List.getElem?_eq_some_iff.mp hi).1
  by_contra hne
  have hmem : (⟨pc, ev :: rest⟩ : Sender) ∈ s.senders.dropLast := by
    apply List.mem_of_getElem? (i := i)
    rw [List.getElem?_dropLast, if_pos (by omega), hi]
  have hempty := List.all_eq_true.mp hjoined _ hmem
  simp at hempty

/-- Workers that have returned stay so. -/
theorem joined_set {i : ℕ} {w : Sender} (hjoined : s.joined = true)
    (hi : i + 1 = s.senders.length) {s' : State} (hs' : s'.senders = s.senders.set i w) :
    s'.joined = true := by
  rw [State.joined, hs', List.all_eq_true]
  intro v hv
  obtain ⟨j, hj⟩ := List.getElem?_of_mem hv
  rw [List.getElem?_dropLast, List.length_set] at hj
  split_ifs at hj with hlt
  rw [List.getElem?_set_ne (by omega)] at hj
  apply List.all_eq_true.mp hjoined
  apply List.mem_of_getElem? (i := j)
  rw [List.getElem?_dropLast, if_pos hlt, hj]

/-- An access of `enqueue` claims a position for the event, or leaves the accounts of the sender
alone. -/
theorem sender_enqueueStep {q q' : Ring LogEvent} {ev : LogEvent} {spurious : Bool}
    {pc : EnqueuePc} {r : EnqueuePc ⊕ Bool} {e : Option (Event LogEvent)} (rest : List LogEvent)
    (hstep : q.enqueueStep ev spurious pc = (q', r, e)) :
    (∃ p, e = some (.claimed p ev) ∧ Sender.pending ⟨.enqueue pc, ev :: rest⟩ = 0 ∧
      Sender.unsent ⟨.enqueue pc, ev :: rest⟩ = ev :: rest ∧
      Sender.pending ⟨.after r, ev :: rest⟩ = 1 ∧ Sender.unsent ⟨.after r, ev :: rest⟩ = rest) ∨
    ((∀ i spurious, claim (.send i spurious) e = none) ∧ e.bind Event.claimedItem = none ∧
      Sender.pending ⟨.after r, ev :: rest⟩ = Sender.pending ⟨.enqueue pc, ev :: rest⟩ ∧
      Sender.unsent ⟨.after r, ev :: rest⟩ = Sender.unsent ⟨.enqueue pc, ev :: rest⟩) := by
  -- only the compare-exchange that goes through claims a position
  cases pc with
  | load =>
    obtain ⟨rfl, rfl, rfl⟩ := by simpa [Ring.enqueueStep] using hstep
    exact .inr ⟨fun _ _ => rfl, rfl, rfl, rfl⟩
  | check pos =>
    simp only [Ring.enqueueStep] at hstep
    split_ifs at hstep <;> (obtain ⟨rfl, rfl, rfl⟩ := by simpa using hstep) <;>
      exact .inr ⟨fun _ _ => rfl, rfl, rfl, rfl⟩
  | exchange pos =>
    simp only [Ring.enqueueStep] at hstep
    split_ifs at hstep
    · obtain ⟨rfl, rfl, rfl⟩ := by simpa using hstep
      exact .inl ⟨pos, rfl, rfl, rfl, rfl, rfl⟩
    · obtain ⟨rfl, rfl, rfl⟩ := by simpa using hstep
      exact .inr ⟨fun _ _ => rfl, rfl, rfl, rfl⟩
  | write pos =>
    obtain ⟨rfl, rfl, rfl⟩ := by simpa [Ring.enqueueStep] using hstep
    exact .inr ⟨fun _ _ => rfl, rfl, rfl, rfl⟩
  | publish pos =>
    obtain ⟨rfl, rfl, rfl⟩ := by simpa [Ring.enqueueStep] using hstep
    exact .inr ⟨fun _ _ => rfl, rfl, rfl, rfl⟩

/-- No access of `enqueue` returns an item. -/
theorem returned_enqueueStep {q q' : Ring LogEvent} {ev : LogEvent} {spurious : Bool}
    {pc : EnqueuePc} {r : EnqueuePc ⊕ Bool} {e : Option (Event LogEvent)}
    (hstep : q.enqueueStep ev spurious pc = (q', r, e)) : e.bind returned = none := by
  have hrank := Ring.rank_target_enqueueStep hstep
  rcases e with _ | e
  · rfl
  · cases e with
    | released p x => exact absurd (hrank p .released rfl) (by decide)
    | _ => rfl

/-- A sender that neither claims a position nor forgets an event leaves the accounts as they
are. -/
theorem Accounts.sender (hA : Accounts messages h c s) {s' : State} {h' : List (Event LogEvent)}
    {i : ℕ} {pc : SenderPc} {ev : LogEvent} {rest : List LogEvent} {w : Sender}
    (hi : s.senders[i]? = some ⟨pc, ev :: rest⟩) (hsenders : s'.senders = s.senders.set i w)
    (hunsent : w.unsent = Sender.unsent ⟨pc, ev :: rest⟩)
    (hcount : s'.messagesEnqueued + w.pending =
      s.messagesEnqueued + Sender.pending ⟨pc, ev :: rest⟩)
    (hprocessed : s'.processed = s.processed) (hpos : s'.ring.dequeuePos = s.ring.dequeuePos)
    (hblocked : s'.consumer = .blocked → s'.processed = s'.messagesEnqueued ∨
      ∃ (j : ℕ) (ev : LogEvent) (rest : List LogEvent),
        s'.senders[j]? = some ⟨.notify, ev :: rest⟩)
    (hdone : s'.consumer = .done ↔ s.consumer = .done)
    (hitems : h'.filterMap Event.claimedItem = h.filterMap Event.claimedItem)
    (hreturned : h'.filterMap returned = h.filterMap returned) :
    Accounts messages h' c s' where
  items := hitems.trans hA.items
  dequeued_eq := by rw [hreturned, hprocessed, hA.dequeued_eq]
  processed_eq := by rw [hprocessed, hpos, hA.processed_eq]
  length := by rw [hsenders, List.length_set, hA.length]
  script := by
    intro j v hj
    rw [hsenders, List.getElem?_set] at hj
    split_ifs at hj with heq hlt
    · obtain rfl := Option.some.inj hj
      rw [← heq, hunsent]
      exact hA.script i _ hi
    · exact hA.script j v hj
  sender_lt := hA.sender_lt
  last := by
    intro x hx hmain
    obtain ⟨hjoined, hlast⟩ := hA.last x hx hmain
    exact ⟨joined_set hjoined (eq_last_of_joined hjoined hi) hsenders, hlast⟩
  -- what the count loses the sender has pending, and the other way round
  counted := by
    have htally := tally_set Sender.pending hi w
    have := hA.counted
    rw [hsenders]
    omega
  blocked := hblocked
  done := by rw [hdone, hreturned, hA.done]

/-- Who is about to notify still is when another sender moves. -/
theorem notifying_set {i : ℕ} {w w' : Sender} (hi : s.senders[i]? = some w)
    (hne : w.pc ≠ .notify)
    (hnotify : ∃ (j : ℕ) (ev : LogEvent) (rest : List LogEvent),
      s.senders[j]? = some ⟨.notify, ev :: rest⟩) :
    ∃ (j : ℕ) (ev : LogEvent) (rest : List LogEvent),
      (s.senders.set i w')[j]? = some ⟨.notify, ev :: rest⟩ := by
  obtain ⟨j, ev, rest, hj⟩ := hnotify
  refine ⟨j, ev, rest, ?_⟩
  rw [List.getElem?_set_ne, hj]
  rintro rfl
  obtain rfl := Option.some.inj (hi.symm.trans hj)
  exact hne rfl

/-- A position has been claimed for each of the events sent. -/
theorem Accounts.length_ledger (hA : Accounts messages h c s) (hI : Consistent capacity h s) :
    (ledger h).length = c.length := by
  rw [← List.length_map Entry.item, hI.lawful.items, hA.items, List.length_map]

/-- The dequeue position has not passed the events sent. -/
theorem Accounts.processed_le (hA : Accounts messages h c s) (hI : Consistent capacity h s) :
    s.processed ≤ c.length := by
  have hlength := hA.length_ledger hI
  have htaken : takenCount (ledger h) ≤ (ledger h).length := takenCount_le
  have hconsumer : s.ring.dequeuePos ≤ takenCount (ledger h) := by
    have := hI.consumer
    cases hc : s.consumer with
    | dequeue pc =>
      rw [hc] at this
      cases pc with
      | check => exact ge_of_eq this
      | read => exact this.1 ▸ Nat.le_succ _
      | release => exact this.1 ▸ Nat.le_succ _
    | load | wait | blocked | done =>
      rw [hc] at this
      exact ge_of_eq this
  rw [hA.processed_eq]
  omega

/-- A claim sends the next event of the sender's script. -/
theorem Accounts.claim (hA : Accounts messages h c s) (hI : Consistent capacity h s) {i p : ℕ}
    {pc : SenderPc} {ev : LogEvent} {rest : List LogEvent} {w : Sender} {ring : Ring LogEvent}
    (hi : s.senders[i]? = some ⟨pc, ev :: rest⟩) (hmay : s.maySend i = true)
    (hpc : pc ≠ .notify) (hpending : Sender.pending ⟨pc, ev :: rest⟩ = 0)
    (hunsent : Sender.unsent ⟨pc, ev :: rest⟩ = ev :: rest) (hpending' : w.pending = 1)
    (hunsent' : w.unsent = rest) (hpos : ring.dequeuePos = s.ring.dequeuePos) :
    Accounts messages (h ++ [.claimed p ev]) (c ++ [(i, ev)])
      { s with ring, senders := s.senders.set i w } := by
  have hscript := hA.script i _ hi
  rw [hunsent] at hscript
  have hlt : i < s.senders.length := (List.getElem?_eq_some_iff.mp hi).1
  have hlength := hA.length
  -- `execute` sends one event only, and after it no worker has any left
  have hfirst : ∀ x ∈ c, x.1 ≠ messages.length := by
    intro x hx hmain
    have hmainIs := eq_last_of_joined (hA.last x hx hmain).1 hi
    obtain rfl : i = messages.length := by omega
    have hpill : sentBy messages.length c ++ ev :: rest = [pill] := by
      have hlast : (scripts messages)[messages.length]? = some [pill] := by simp [scripts]
      exact Option.some.inj (hscript.symm.trans hlast)
    have hempty : sentBy messages.length c = [] := by
      have := congrArg List.length hpill
      rw [List.length_append, List.length_cons, List.length_singleton] at this
      exact List.length_eq_zero_iff.mp (by omega)
    have hmem : x.2 ∈ sentBy messages.length c := by
      simp only [sentBy, List.mem_map, List.mem_filter, decide_eq_true_eq]
      exact ⟨x, ⟨hx, hmain⟩, rfl⟩
    rw [hempty] at hmem
    cases hmem
  refine
    { items := by simp [hA.items, Event.claimedItem]
      dequeued_eq := ?_
      processed_eq := hA.processed_eq.trans hpos.symm
      length := by rw [List.length_set, hA.length]
      script := ?_
      sender_lt := ?_
      last := ?_
      counted := ?_
      blocked := fun hc => (hA.blocked hc).imp_right (notifying_set hi hpc)
      done := by simp [hA.done, returned] }
  · rw [List.filterMap_append, hA.dequeued_eq, List.take_append_of_le_length (hA.processed_le hI)]
    simp [returned]
  · intro j v hj
    rw [List.getElem?_set] at hj
    split_ifs at hj with heq
    · obtain rfl := Option.some.inj hj
      subst heq
      rw [hscript, hunsent']
      simp [sentBy]
    · rw [hA.script j v hj]
      simp [sentBy, heq]
  · intro x hx
    rcases List.mem_append.mp hx with hx | hx
    · exact hA.sender_lt x hx
    · obtain rfl := List.mem_singleton.mp hx
      show i ≤ messages.length
      omega
  · intro x hx hmain
    rcases List.mem_append.mp hx with hx | hx
    · exact absurd hmain (hfirst x hx)
    · obtain rfl := List.mem_singleton.mp hx
      have hlast : i + 1 = s.senders.length := by
        have : i = messages.length := hmain
        omega
      have hjoined : s.joined = true := by
        rw [State.maySend, Bool.or_eq_true, decide_eq_true_eq] at hmay
        exact hmay.resolve_left (by omega)
      exact ⟨joined_set hjoined hlast rfl, by simp⟩
  · have htally := tally_set Sender.pending hi w
    have := hA.counted
    simp only [List.length_append, List.length_singleton]
    omega

/-- A step of the progress thread that returns no item leaves the accounts as they are. -/
theorem Accounts.consumer (hA : Accounts messages h c s) {s' : State} {h' : List (Event LogEvent)}
    (hsenders : s'.senders = s.senders) (hcounter : s'.messagesEnqueued = s.messagesEnqueued)
    (hprocessed : s'.processed = s.processed) (hpos : s'.ring.dequeuePos = s.ring.dequeuePos)
    (hblocked : s'.consumer = .blocked → s'.processed = s'.messagesEnqueued)
    (hdone : s.consumer ≠ .done ∧ s'.consumer ≠ .done)
    (hitems : h'.filterMap Event.claimedItem = h.filterMap Event.claimedItem)
    (hreturned : h'.filterMap returned = h.filterMap returned) :
    Accounts messages h' c s' where
  items := hitems.trans hA.items
  dequeued_eq := by rw [hreturned, hprocessed, hA.dequeued_eq]
  processed_eq := by rw [hprocessed, hpos, hA.processed_eq]
  length := by rw [hsenders, hA.length]
  script := by rw [hsenders]; exact hA.script
  sender_lt := hA.sender_lt
  last := by
    intro x hx hmain
    rw [State.joined, hsenders]
    exact hA.last x hx hmain
  counted := by rw [hsenders, hcounter, hA.counted]
  blocked := fun hc => .inl (hblocked hc)
  done := by
    rw [hreturned, ← hA.done]
    exact ⟨fun h => absurd h hdone.2, fun h => absurd h hdone.1⟩

/-- The progress thread dequeues the next of the events sent. -/
theorem Accounts.release (hA : Accounts messages h c s) (hI : Consistent capacity h s)
    {ev : LogEvent} (hc : s.consumer = .dequeue (.release ev)) {ring : Ring LogEvent}
    (hpos : ring.dequeuePos = s.ring.dequeuePos + 1) :
    Accounts messages (h ++ [.released s.ring.dequeuePos ev]) c
      (s.popped ring (.inr (some ev))) where
  items := by simp [hA.items, Event.claimedItem]
  dequeued_eq := by
    -- the event it releases is the one it has read at the ring's position
    have hread : (ledger h)[s.ring.dequeuePos]? = some ⟨ev, .read⟩ := by
      have := hI.consumer
      rw [hc] at this
      exact this.2
    have hitem : (c.map Prod.snd)[s.processed]? = some ev := by
      rw [← hA.items, ← hI.lawful.items, List.getElem?_map, hA.processed_eq, hread]
      rfl
    show _ = (c.take (s.processed + 1)).map Prod.snd
    rw [List.map_take, List.take_add_one, hitem, ← List.map_take, ← hA.dequeued_eq]
    simp [returned]
  processed_eq := by
    show s.processed + 1 = ring.dequeuePos
    rw [hpos, hA.processed_eq]
  length := hA.length
  script := hA.script
  sender_lt := hA.sender_lt
  last := hA.last
  counted := hA.counted
  blocked := by
    intro hblocked
    simp only [State.popped] at hblocked
    split_ifs at hblocked
  done := by
    -- before the release no pill had been dequeued, or the consumer would be done
    have hnot : ∀ x ∈ h.filterMap returned, x.isPoisonPill ≠ true := by
      intro x hx hpill
      have hdone := hA.done.mpr ⟨x, hx, hpill⟩
      rw [hc] at hdone
      cases hdone
    simp only [State.popped, List.filterMap_append, List.mem_append]
    constructor
    · intro hdone
      split_ifs at hdone with hpill
      exact ⟨ev, .inr (by simp [returned]), hpill⟩
    · rintro ⟨x, hx | hx, hpill⟩
      · exact absurd hpill (hnot x hx)
      · obtain rfl : x = ev := by simpa [returned] using hx
        rw [if_pos hpill]

/-- Every move keeps the accounts. -/
theorem Accounts.move (hA : Accounts messages h c s) (hI : Consistent capacity h s) {a : Action}
    {s' : State} {e : Option (Event LogEvent)} (hm : Move s a s' e) :
    Accounts messages (h ++ e.toList) (c ++ (Progress.claim a e).toList) s' := by
  cases hm with
  | @enqueue i spurious pc ev rest ring r e hi hmay hstep =>
    -- only the claim changes what has been sent; the other accesses of `enqueue` change no count
    obtain ⟨-, hpos⟩ := Ring.enqueueStep_frame hstep
    rcases sender_enqueueStep rest hstep with
      ⟨p, rfl, hpending, hunsent, hpending', hunsent'⟩ | ⟨hclaim, hitem, hpending, hunsent⟩
    · exact hA.claim hI hi hmay (fun h => by cases h) hpending hunsent hpending' hunsent' hpos
    · rw [hclaim, Option.toList_none, List.append_nil]
      refine hA.sender hi rfl hunsent ?_ rfl hpos ?_ Iff.rfl ?_ ?_
      · show s.messagesEnqueued + _ = _
        rw [hpending]
      · exact fun hc => (hA.blocked hc).imp_right (notifying_set hi fun h => by cases h)
      · cases e <;> simp_all
      · have hreturned := returned_enqueueStep hstep
        cases e <;> simp_all
  | @count i _ ev rest hi =>
    have hlt : i < s.senders.length := (List.getElem?_eq_some_iff.mp hi).1
    rw [show Progress.claim (.send i _) none = none from rfl]
    rw [Option.toList_none, Option.toList_none, List.append_nil, List.append_nil]
    -- the sender has counted its event and still owes the notification
    refine hA.sender hi rfl rfl rfl rfl rfl (fun _ => .inr ⟨i, ev, rest, ?_⟩) Iff.rfl rfl rfl
    rw [List.getElem?_set_self hlt]
  | @notify i _ ev rest hi =>
    rw [show Progress.claim (.send i _) none = none from rfl]
    rw [Option.toList_none, Option.toList_none, List.append_nil, List.append_nil]
    refine hA.sender hi rfl rfl (by cases rest <;> rfl) rfl rfl ?_ ?_ rfl rfl
    · -- the notification wakes a blocked consumer, so none is blocked after it
      intro hc
      change (if s.consumer = .blocked then ConsumerPc.wait else s.consumer) = _ at hc
      split_ifs at hc with hblocked
      exact absurd hc hblocked
    · show (if s.consumer = .blocked then ConsumerPc.wait else s.consumer) = _ ↔ _
      split_ifs with hblocked
      · simp [hblocked]
      · rfl
  | load hc =>
    rw [show Progress.claim (.consume _) none = none from rfl]
    rw [Option.toList_none, Option.toList_none, List.append_nil, List.append_nil]
    refine hA.consumer rfl rfl rfl rfl ?_ ⟨(by rw [hc]; intro h; cases h), ?_⟩ rfl rfl
    · -- `load` goes to `wait` or to `pop`, never to `blocked`
      intro hblocked
      change (if _ then ConsumerPc.wait else _) = _ at hblocked
      split_ifs at hblocked
    · show (if _ then ConsumerPc.wait else _) ≠ _
      split_ifs <;> (intro h; cases h)
  | wait hc =>
    rw [show Progress.claim (.consume _) none = none from rfl]
    rw [Option.toList_none, Option.toList_none, List.append_nil, List.append_nil]
    refine hA.consumer rfl rfl rfl rfl ?_ ⟨(by rw [hc]; intro h; cases h), ?_⟩ rfl rfl
    · -- `wait` blocks only on an unchanged count, which is what `blocked` records
      intro hblocked
      change (if s.messagesEnqueued = s.processed then ConsumerPc.blocked else _) = _ at hblocked
      split_ifs at hblocked with heq
      exact heq.symm
    · show (if _ then ConsumerPc.blocked else _) ≠ _
      split_ifs <;> (intro h; cases h)
  | @pop moved pc ring r e hc hstep =>
    -- a pop ends in its release: only then is the event processed
    have hclaim : Progress.claim (.consume moved) e = none := by cases e <;> rfl
    rw [hclaim, Option.toList_none, List.append_nil]
    have hnot : s.consumer ≠ .done := by rw [hc]; intro h; cases h
    cases pc with
    | check =>
      simp only [Ring.popStep] at hstep
      split_ifs at hstep <;> (obtain ⟨rfl, rfl, rfl⟩ := by simpa using hstep)
      · exact hA.consumer rfl rfl rfl rfl (fun h => by cases h) ⟨hnot, fun h => by cases h⟩
          (by simp [Event.claimedItem]) (by simp [returned])
      · exact hA.consumer rfl rfl rfl rfl (fun h => by cases h) ⟨hnot, fun h => by cases h⟩
          (by simp [Event.claimedItem]) (by simp [returned])
    | read =>
      obtain ⟨rfl, rfl, rfl⟩ := by simpa [Ring.popStep] using hstep
      exact hA.consumer rfl rfl rfl rfl (fun h => by cases h) ⟨hnot, fun h => by cases h⟩
        (by simp [Event.claimedItem]) (by simp [returned])
    | release ev =>
      obtain ⟨rfl, rfl, rfl⟩ := by simpa [Ring.popStep] using hstep
      exact hA.release hI hc rfl
  | unblock hc =>
    rw [show Progress.claim .unblock none = none from rfl]
    rw [Option.toList_none, Option.toList_none, List.append_nil, List.append_nil]
    exact hA.consumer rfl rfl rfl rfl (fun h => by cases h)
      ⟨(by rw [hc]; intro h; cases h), fun h => by cases h⟩ rfl rfl

/-- A build starts with nothing sent. -/
theorem accounts_start (capacity : ℕ) (messages : List (List Message)) :
    Accounts messages [] []
      ⟨Ring.create capacity, 0, (scripts messages).map Sender.start, .load, 0⟩ where
  items := rfl
  dequeued_eq := rfl
  processed_eq := rfl
  length := by simp [scripts]
  script := by
    intro i w hi
    obtain ⟨script, hscript, rfl⟩ := by simpa using hi
    simp [hscript, sentBy, Sender.start, Sender.unsent, EnqueuePc.held]
  sender_lt := by simp
  last := by simp
  counted := by
    have hstart : tally Sender.pending ((scripts messages).map Sender.start) = 0 := by
      rw [tally_map, tally_eq_zero_iff]
      intro script _
      cases script <;> rfl
    rw [hstart]
    rfl
  blocked := nofun
  done := by simp

/-- The accounts balance along every run. -/
theorem accounts_of_run {n : ℕ} {tr : List (State × Action)} (htwo : 2 ≤ bitCeil n)
    (hrun : (progressMachine n messages).Run tr s) :
    Accounts messages (history tr) (sent tr) s := by
  induction hrun with
  | start hinit =>
    obtain rfl := hinit
    exact accounts_start n messages
  | move hbefore hstep ih =>
    rw [history_cons, sent_cons]
    exact ih.move (consistent_of_run htwo hbefore) (move_of_step hstep)

/-- What a sender with nothing left has sent is its script. -/
theorem Accounts.sentBy_eq (hA : Accounts messages h c s) {i : ℕ} {w : Sender}
    (hi : s.senders[i]? = some w) (hempty : w.todo = []) :
    (scripts messages)[i]? = some (sentBy i c) := by
  have hunsent : w.unsent = [] := by
    obtain ⟨pc, todo⟩ := w
    obtain rfl : todo = [] := hempty
    cases pc <;> simp [Sender.unsent]
  rw [hA.script i w hi, hunsent, List.append_nil]

theorem mem_sentBy {i : ℕ} {ev : LogEvent} : ev ∈ sentBy i c ↔ (i, ev) ∈ c := by
  simp [sentBy]

/-- What has been sent begins each script. -/
theorem Accounts.begins (hA : Accounts messages h c s) {i : ℕ} {script : List LogEvent}
    (hi : (scripts messages)[i]? = some script) : sentBy i c <+: script := by
  have hlt : i < s.senders.length := by
    have := (List.getElem?_eq_some_iff.mp hi).1
    rw [hA.length]
    simpa [scripts] using this
  have hscript := hA.script i _ (List.getElem?_eq_getElem hlt)
  rw [hi] at hscript
  exact ⟨_, (Option.some.inj hscript).symm⟩

/-- Only `execute` sends pills, and it sends the one. -/
theorem Accounts.eq_pill (hA : Accounts messages h c s) {x : ℕ × LogEvent} (hx : x ∈ c)
    (hpill : x.2.isPoisonPill = true) : x = (messages.length, pill) := by
  obtain ⟨i, ev⟩ := x
  have hle : i ≤ messages.length := hA.sender_lt _ hx
  rcases Nat.lt_or_ge i messages.length with hlt | hge
  · -- the messages of the workers are no pills
    exfalso
    have hi : (scripts messages)[i]? = some (messages[i].map Message.event) := by
      rw [scripts, List.getElem?_append_left (by simpa using hlt), List.getElem?_map,
        List.getElem?_eq_getElem hlt]
      rfl
    have hmem := (hA.begins hi).subset (mem_sentBy.mpr hx)
    obtain ⟨m, -, rfl⟩ := List.mem_map.mp hmem
    cases hpill
  · obtain rfl : i = messages.length := by omega
    have hi : (scripts messages)[messages.length]? = some [pill] := by simp [scripts]
    have hmem := (hA.begins hi).subset (mem_sentBy.mpr hx)
    rw [List.mem_singleton.mp hmem]

/-- The pill is sent last, when the workers have sent all their messages. -/
theorem Accounts.pill_last (hA : Accounts messages h c s) (hx : (messages.length, pill) ∈ c) :
    ∃ before, c = before ++ [(messages.length, pill)] ∧ (∀ x ∈ before, x.1 < messages.length) ∧
      ∀ (i : ℕ) (ms : List Message), messages[i]? = some ms →
        sentBy i before = ms.map Message.event := by
  obtain ⟨hjoined, hlast⟩ := hA.last _ hx rfl
  obtain ⟨before, rfl⟩ := List.getLast?_eq_some_iff.mp hlast
  -- `execute` sends one event, so it had sent nothing before
  have hmain : sentBy messages.length before = [] := by
    have hi : (scripts messages)[messages.length]? = some [pill] := by simp [scripts]
    have hlength := (hA.begins hi).length_le
    rw [sentBy_append, List.length_append] at hlength
    simp only [sentBy, List.filter_cons, decide_true, if_true, List.filter_nil, List.map_cons,
      List.map_nil, List.length_singleton] at hlength
    exact List.length_eq_zero_iff.mp (by simp only [sentBy]; omega)
  refine ⟨before, rfl, fun x hx => ?_, fun i ms hi => ?_⟩
  · have hle := hA.sender_lt x (List.mem_append_left _ hx)
    refine lt_of_le_of_ne hle fun heq => ?_
    have hmem : x.2 ∈ sentBy messages.length before := mem_sentBy.mpr (heq ▸ hx)
    rw [hmain] at hmem
    cases hmem
  · have hlt : i < messages.length := (List.getElem?_eq_some_iff.mp hi).1
    have hlength := hA.length
    have hget := List.getElem?_eq_getElem (show i < s.senders.length by omega)
    -- the workers have returned, so all of their scripts is sent
    have hreturned : (s.senders[i]).todo = [] := by
      have hmem : s.senders[i] ∈ s.senders.dropLast := by
        apply List.mem_of_getElem? (i := i)
        rw [List.getElem?_dropLast, if_pos (by omega), hget]
      simpa using List.all_eq_true.mp hjoined _ hmem
    have hscript := hA.sentBy_eq hget hreturned
    have hi' : (scripts messages)[i]? = some (ms.map Message.event) := by
      rw [scripts, List.getElem?_append_left (by simpa using hlt), List.getElem?_map, hi]
      rfl
    rw [hi', sentBy_append] at hscript
    have hnot : sentBy i [(messages.length, pill)] = [] := by simp [sentBy, hlt.ne']
    rw [hnot, List.append_nil] at hscript
    exact (Option.some.inj hscript).symm

/-- Once the pill is dequeued, everything sent is. -/
theorem Accounts.length_le_of_pill (hA : Accounts messages h c s)
    (hx : (messages.length, pill) ∈ c.take s.processed) : c.length ≤ s.processed := by
  obtain ⟨before, rfl, hworkers, -⟩ := hA.pill_last (List.mem_of_mem_take hx)
  by_contra hshort
  rw [List.length_append, List.length_singleton, not_le] at hshort
  rw [List.take_append_of_le_length (by omega)] at hx
  exact lt_irrefl _ (hworkers _ (List.mem_of_mem_take hx))

/-- A progress thread that has returned has dequeued the pill. -/
theorem Accounts.pill_of_done (hA : Accounts messages h c s) (hdone : s.consumer = .done) :
    (messages.length, pill) ∈ c.take s.processed := by
  obtain ⟨ev, hev, hpill⟩ := hA.done.mp hdone
  rw [hA.dequeued_eq] at hev
  obtain ⟨x, hx, rfl⟩ := List.mem_map.mp hev
  rwa [← hA.eq_pill (List.mem_of_mem_take hx) hpill]

/-- Once everything is sent and dequeued, the progress thread has returned. -/
theorem Accounts.done_of_drained (hA : Accounts messages h c s)
    (hreturned : ∀ w ∈ s.senders, w.todo = []) (hprocessed : c.length ≤ s.processed) :
    s.consumer = .done := by
  have hlength := hA.length
  have hget := List.getElem?_eq_getElem (show messages.length < s.senders.length by omega)
  have hscript := hA.sentBy_eq hget (hreturned _ (List.mem_of_getElem? hget))
  have hlast : (scripts messages)[messages.length]? = some [pill] := by simp [scripts]
  have hmain : pill ∈ sentBy messages.length c := by
    rw [← Option.some.inj (hlast.symm.trans hscript)]
    exact List.mem_singleton_self _
  refine hA.done.mpr ⟨pill, ?_, rfl⟩
  rw [hA.dequeued_eq, List.take_of_length_le hprocessed]
  exact List.mem_map.mpr ⟨_, mem_sentBy.mp hmain, rfl⟩

end Accounts

/-- `out` has the first events of each script, those of one script in their order. -/
def DeliversPart (scripts : List (List LogEvent)) (out : List LogEvent) : Prop :=
  ∃ c : List (ℕ × LogEvent), c.map Prod.snd = out ∧ (∀ x ∈ c, x.1 < scripts.length) ∧
    ∀ (i : ℕ) (script : List LogEvent), scripts[i]? = some script → sentBy i c <+: script

/-- `out` has each event of each script exactly once, those of one script in their order. -/
def Delivers (scripts : List (List LogEvent)) (out : List LogEvent) : Prop :=
  ∃ c : List (ℕ × LogEvent), c.map Prod.snd = out ∧ (∀ x ∈ c, x.1 < scripts.length) ∧
    ∀ (i : ℕ) (script : List LogEvent), scripts[i]? = some script → sentBy i c = script

/-- Each event is dequeued once, in the order of its sender; the pill comes last, and with it the
progress thread returns; a progress thread blocked while it has events to process is about to be
notified, and none is blocked once everything has been sent. -/
theorem delivered_of_run {capacity : ℕ} {messages : List (List Message)}
    {tr : List (State × Action)} {s : State} (htwo : 2 ≤ bitCeil capacity)
    (hrun : (progressMachine capacity messages).Run tr s) :
    s.processed = (dequeued tr).length ∧
    DeliversPart (scripts messages) (dequeued tr) ∧
    (pill ∈ dequeued tr → ∃ before, dequeued tr = before ++ [pill] ∧
      Delivers (messages.map (·.map Message.event)) before) ∧
    (s.consumer = .done ↔ pill ∈ dequeued tr) ∧
    (s.consumer = .blocked → s.processed < s.messagesEnqueued →
      ∃ w ∈ s.senders, w.pc = .notify) ∧
    ((∀ w ∈ s.senders, w.todo = []) → s.consumer ≠ .blocked) := by
  have hA := accounts_of_run htwo hrun
  have hI := consistent_of_run htwo hrun
  have hle := hA.processed_le hI
  -- the consumer has dequeued a prefix of what was sent: every clause is one about `sent`
  have hdequeued : dequeued tr = ((sent tr).take s.processed).map Prod.snd := hA.dequeued_eq
  have hmem : ∀ ev ∈ dequeued tr, ∃ i, (i, ev) ∈ (sent tr).take s.processed := by
    intro ev hev
    rw [hdequeued] at hev
    obtain ⟨⟨i, ev⟩, hx, rfl⟩ := List.mem_map.mp hev
    exact ⟨i, hx⟩
  have hdone : s.consumer = .done ↔ pill ∈ dequeued tr := by
    rw [hA.done]
    constructor
    · rintro ⟨ev, hev, hpill⟩
      obtain ⟨i, hx⟩ := hmem ev hev
      obtain ⟨-, rfl⟩ := Prod.mk.inj (hA.eq_pill (List.mem_of_mem_take hx) hpill)
      exact hev
    · exact fun hev => ⟨pill, hev, rfl⟩
  refine ⟨?_, ?_, ?_, hdone, ?_, ?_⟩
  · rw [hdequeued, List.length_map, List.length_take, Nat.min_eq_left hle]
  · refine ⟨_, hdequeued.symm, fun x hx => ?_, fun i script hi => ?_⟩
    · have := hA.sender_lt x (List.mem_of_mem_take hx)
      simp only [scripts, List.length_append, List.length_map, List.length_singleton]
      omega
    · have htake := List.take_prefix s.processed (sent tr)
      have hpart := (htake.filter fun x => x.1 = i).map Prod.snd
      exact hpart.trans (hA.begins hi)
  · -- the pill is sent last, so what has been dequeued by then is all of it
    intro hpill
    obtain ⟨i, hx⟩ := hmem pill hpill
    obtain ⟨rfl, -⟩ := Prod.mk.inj (hA.eq_pill (List.mem_of_mem_take hx) rfl)
    have hall := hA.length_le_of_pill hx
    obtain ⟨before, hsent, hworkers, hscripts⟩ := hA.pill_last (List.mem_of_mem_take hx)
    rw [hsent] at hall hdequeued
    rw [List.take_of_length_le hall, List.map_append] at hdequeued
    refine ⟨_, hdequeued, before, rfl, ?_, fun i script hi => ?_⟩
    · simpa using hworkers
    · obtain ⟨ms, hms, rfl⟩ := by simpa using hi
      exact hscripts i ms hms
  · intro hblocked hlt
    rcases hA.blocked hblocked with heq | ⟨i, ev, rest, hi⟩
    · omega
    · exact ⟨_, List.mem_of_getElem? hi, rfl⟩
  · -- all counted and none pending: the consumer would have had the pill
    intro hreturned hblocked
    have hcounted := hA.counted
    have hpending : tally Sender.pending s.senders = 0 := by
      refine tally_eq_zero_iff.mpr fun w hw => ?_
      obtain ⟨pc, todo⟩ := w
      obtain rfl : todo = [] := hreturned _ hw
      cases pc <;> rfl
    rcases hA.blocked hblocked with heq | ⟨i, ev, rest, hi⟩
    · rw [hA.done_of_drained hreturned (by omega)] at hblocked
      cases hblocked
    · have := hreturned _ (List.mem_of_getElem? hi)
      cases this

end Cob.Queue.Progress
