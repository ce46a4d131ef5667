import Cob.Lib.Machine
import Cob.Queue.Ring

/-!
# The queue of ready nodes

`LockFreeMPMCQueue` under every interleaving of its atomic accesses: any number of threads call
`enqueue` and `dequeue` as often as they like, and the adversary picks the thread that makes the
next access and the compare-exchanges that fail spuriously.

* `Thread.Holds` — what a thread knows in the middle of a call;
* `Consistent` — the ring shows the ledger of the history, and no two threads hold one position;
* `bounded_fifo` — in a ring of two cells at least, every run is one of a bounded FIFO.
-/

namespace Cob.Queue

variable {α : Type*}

/-- The places in the loop of `dequeue`, each before the access it names. -/
inductive DequeuePc (α : Type*) where
  /-- Before `dequeue_pos_` is loaded. -/
  | load
  /-- Before the sequence number is loaded. -/
  | check (pos : ℕ)
  /-- Before the compare-exchange. -/
  | exchange (pos : ℕ)
  /-- Before the item is copied from the cell. -/
  | read (pos : ℕ)
  /-- Before the sequence number is stored. -/
  | release (pos : ℕ) (data : α)
  deriving DecidableEq

/-- The next access of `dequeue`: the ring, the place after it or what the call returns (`none`
for false), and the event. -/
def Ring.dequeueStep (q : Ring α) (spurious : Bool) :
    DequeuePc α → Ring α × (DequeuePc α ⊕ Option α) × Option (Event α)
  | .load => (q, .inl (.check q.dequeuePos), none)
  | .check pos =>
    -- published, not yet published, or taken by another consumer
    let diff : ℤ := (q.cell pos).sequence - (pos + 1 : ℕ)
    if diff = 0 then (q, .inl (.exchange pos), none)
    else if diff < 0 then (q, .inr none, some (.empty pos))
    else (q, .inl .load, none)
  | .exchange pos =>
    if q.dequeuePos = pos ∧ spurious = false then
      ({ q with dequeuePos := q.dequeuePos + 1 }, .inl (.read pos), some (.taken pos))
    else (q, .inl (.check q.dequeuePos), none)
  | .read pos => (q, .inl (.release pos (q.cell pos).data), some (.read pos (q.cell pos).data))
  | .release pos data =>
    (q.storeSequence pos (pos + q.bufferMask + 1), .inr (some data), some (.released pos data))

namespace DequeuePc

/-- The position a call of `dequeue` has taken and not released yet. -/
def held : DequeuePc α → Option ℕ
  | .read pos | .release pos _ => some pos
  | .load | .check _ | .exchange _ => none

/-- What a call of `dequeue` knows at each place. -/
def Holds (l : List (Entry α)) : DequeuePc α → Prop
  | .load => True
  | .check pos => pos ≤ takenCount l
  | .exchange pos => pos ≤ takenCount l ∧
      (pos = takenCount l → ∃ x, l[pos]? = some ⟨x, .published⟩)
  | .read pos => ∃ x, l[pos]? = some ⟨x, .taken⟩
  | .release pos data => l[pos]? = some ⟨data, .read⟩

end DequeuePc

section DequeueStep

variable {q q' : Ring α} {l : List (Entry α)} {spurious : Bool} {pc : DequeuePc α}
  {r : DequeuePc α ⊕ Option α} {e : Option (Event α)}

/-- When the sequence number lags behind, the next position is not published. -/
theorem Ring.Inv.not_published_of_lt (hI : q.Inv q.dequeuePos l) {pos : ℕ}
    (hle : pos ≤ q.dequeuePos) (hlt : (q.cell pos).sequence < pos + 1) :
    pos = q.dequeuePos ∧ ∀ y, l[pos]? = some y → y.phase.rank < 2 := by
  have hpos : pos = q.dequeuePos := by
    rcases Nat.lt_or_ge pos q.dequeuePos with hstale | hge
    · -- a taken position shows its successor, or the cell is a lap ahead
      exfalso
      have htaken := hI.taken_le
      have hstale' : pos < l.length := by omega
      obtain ⟨y, hy⟩ : ∃ y, l[pos]? = some y := ⟨_, List.getElem?_eq_getElem hstale'⟩
      have hrank := (hI.taken_iff _ _ hy).mpr hstale
      rcases Nat.lt_or_ge (pos + q.capacity) l.length with hold | hlap
      · have := hI.le_sequence hold
        rw [hI.cell_eq_of_modEq (b := pos) Nat.add_modEq_right] at this
        have := hI.two_le
        omega
      · rw [hI.current _ _ hy hlap] at hlt
        have := hI.two_le
        unfold Phase.sequence at hlt
        split_ifs at hlt <;> omega
    · omega
  refine ⟨hpos, fun y hy => ?_⟩
  subst hpos
  by_contra hrank
  have hnot := mt (hI.taken_iff _ _ hy).mp (lt_irrefl _)
  rw [hI.current _ _ hy hI.length_le] at hlt
  unfold Phase.sequence at hlt
  split_ifs at hlt <;> omega

/-- One access of `dequeue` is a step that a bounded FIFO permits, and the ring shows it. -/
theorem Ring.Inv.dequeueStep (hI : q.Inv q.dequeuePos l) (hpc : pc.Holds l)
    (hstep : q.dequeueStep spurious pc = (q', r, e)) :
    q'.capacity = q.capacity ∧ q'.Inv q'.dequeuePos (recorded l e) ∧
      (∀ ev, e = some ev → Allowed q.capacity l ev) ∧
      ∀ pc', r = .inl pc' → pc'.Holds (recorded l e) := by
  have htaken := hI.taken_eq
  cases pc with
  | load =>
    obtain ⟨rfl, rfl, rfl⟩ := by simpa [Ring.dequeueStep] using hstep
    refine ⟨rfl, hI, fun _ hev => (by cases hev), ?_⟩
    rintro pc' ⟨⟩
    exact htaken.le
  | check pos =>
    have hle : pos ≤ q.dequeuePos := htaken ▸ hpc
    simp only [Ring.dequeueStep] at hstep
    split_ifs at hstep with hzero hneg
    · -- the sequence says published, so a claim at this position would find its entry
      obtain ⟨rfl, rfl, rfl⟩ := by simpa using hstep
      refine ⟨rfl, hI, fun _ hev => (by cases hev), ?_⟩
      rintro pc' ⟨⟩
      refine ⟨hpc, fun hlast => ?_⟩
      have hlast : pos = q.dequeuePos := hlast.trans htaken.symm
      subst hlast
      exact hI.sequence_taken_iff.mp (by omega)
    · -- empty: the first position not taken is not published
      obtain ⟨rfl, rfl, rfl⟩ := by simpa using hstep
      refine ⟨rfl, hI, ?_, fun _ hpc' => by cases hpc'⟩
      rintro ev ⟨⟩
      obtain ⟨hlast, hnot⟩ := hI.not_published_of_lt hle (by omega)
      exact ⟨hlast.trans htaken, hnot⟩
    · -- another thread was here first: load again
      obtain ⟨rfl, rfl, rfl⟩ := by simpa using hstep
      refine ⟨rfl, hI, fun _ hev => (by cases hev), ?_⟩
      rintro pc' ⟨⟩
      trivial
  | exchange pos =>
    obtain ⟨-, hready⟩ := hpc
    simp only [Ring.dequeueStep] at hstep
    split_ifs at hstep with hexchange
    · -- the claim: the entry is taken and the ring's positions move on
      obtain ⟨rfl, rfl, rfl⟩ := by simpa using hstep
      obtain ⟨x, hx⟩ := hready (hexchange.1 ▸ htaken)
      obtain ⟨rfl, -⟩ := hexchange
      have hlap := hI.length_le_add hx (show Phase.published.rank < 5 by decide)
      refine ⟨rfl, ?_, ?_, ?_⟩
      · refine hI.reach hx rfl rfl rfl (fun _ _ => rfl) ?_ (fun _ => ?_)
          (.inr ⟨rfl, rfl, rfl⟩)
        · exact hI.current _ _ hx hlap
        · exact hI.data _ _ hx (show 1 ≤ Phase.published.rank by decide)
            (show Phase.published.rank ≤ 3 by decide)
      · rintro ev ⟨⟩
        exact ⟨htaken, x, hx⟩
      · rintro pc' ⟨⟩
        exact ⟨x, by simp [record, hx, Entry.reach]⟩
    · -- the compare-exchange failed and has read the new position
      obtain ⟨rfl, rfl, rfl⟩ := by simpa using hstep
      refine ⟨rfl, hI, fun _ hev => (by cases hev), ?_⟩
      rintro pc' ⟨⟩
      exact htaken.le
  | read pos =>
    obtain ⟨x, hx⟩ := hpc
    -- no later lap has reached the cell before its release, so it still holds the entry's data
    have hlap := hI.length_le_add hx (show Phase.taken.rank < 5 by decide)
    have hdata : (q.cell pos).data = x :=
      hI.data _ _ hx (show 1 ≤ Phase.taken.rank by decide) (show Phase.taken.rank ≤ 3 by decide)
    obtain ⟨rfl, rfl, rfl⟩ := by simpa [Ring.dequeueStep, hdata] using hstep
    refine ⟨rfl, ?_, ?_, ?_⟩
    · exact hI.reach hx rfl rfl rfl (fun _ _ => rfl) (hI.current _ _ hx hlap)
        (fun h => absurd h (by decide)) (.inl ⟨by decide, rfl⟩)
    · rintro ev ⟨⟩
      exact hx
    · rintro pc' ⟨⟩
      simp [DequeuePc.Holds, record, hx, Entry.reach]
  | release pos data =>
    have hread : l[pos]? = some ⟨data, .read⟩ := hpc
    obtain ⟨rfl, rfl, rfl⟩ := by simpa [Ring.dequeueStep] using hstep
    refine ⟨rfl, ?_, ?_, fun _ hpc' => by cases hpc'⟩
    · refine hI.reach hread rfl rfl rfl ?_ ?_ (fun h => absurd h (by decide))
        (.inl ⟨by decide, rfl⟩)
      · intro p hne
        rw [Ring.cell_storeSequence, if_neg hne.symm]
      · rw [Ring.cell_storeSequence, if_pos rfl]
        rfl
    · rintro ev ⟨⟩
      exact hread

/-- The position a call holds after an access is the one it held, or one it has just taken. -/
theorem Ring.held_dequeueStep (hstep : q.dequeueStep spurious pc = (q', r, e)) :
    (∀ p, (r.elim DequeuePc.held fun _ => none) = some p →
      pc.held = some p ∨ e = some (.taken p)) ∧
    ∀ p ph, e.bind Event.target = some (p, ph) → pc.held = some p ∨ e = some (.taken p) := by
  cases pc with
  | load =>
    obtain ⟨rfl, rfl, rfl⟩ := by simpa [Ring.dequeueStep] using hstep
    simp [DequeuePc.held]
  | check pos =>
    simp only [Ring.dequeueStep] at hstep
    split_ifs at hstep <;> (obtain ⟨rfl, rfl, rfl⟩ := by simpa using hstep) <;>
      simp [DequeuePc.held, Event.target]
  | exchange pos =>
    simp only [Ring.dequeueStep] at hstep
    split_ifs at hstep <;> (obtain ⟨rfl, rfl, rfl⟩ := by simpa using hstep) <;>
      simp [DequeuePc.held, Event.target]
  | read pos =>
    obtain ⟨rfl, rfl, rfl⟩ := by simpa [Ring.dequeueStep] using hstep
    simp [DequeuePc.held, Event.target]
  | release pos data =>
    obtain ⟨rfl, rfl, rfl⟩ := by simpa [Ring.dequeueStep] using hstep
    simp [DequeuePc.held, Event.target]

end DequeueStep

/-- What an event of another call leaves to a call of `dequeue`. -/
theorem DequeuePc.Holds.record {capacity : ℕ} {l : List (Entry α)} {pc : DequeuePc α}
    (h : pc.Holds l) {e : Event α} (he : Allowed capacity l e)
    (hother : ∀ p ph, pc.held = some p → e.target ≠ some (p, ph)) :
    pc.Holds (record l e) := by
  have hcount := he.takenCount_record
  cases pc with
  | load => trivial
  | check pos =>
    show pos ≤ _
    rw [hcount]
    exact le_trans h (Nat.le_add_right _ _)
  | exchange pos =>
    obtain ⟨hle, hready⟩ := h
    refine ⟨by rw [hcount]; exact hle.trans (Nat.le_add_right _ _), fun hlast => ?_⟩
    obtain rfl : pos = takenCount l := by omega
    obtain ⟨x, hx⟩ := hready rfl
    refine ⟨x, he.getElem?_record_of_published hx ?_⟩
    -- taking the position would have moved the dequeue position on
    rintro rfl
    simp [Event.takenPos] at hcount
    omega
  | read pos =>
    obtain ⟨x, hx⟩ := h
    exact ⟨x, he.getElem?_record hx fun ph => hother pos ph rfl⟩
  | release pos data => exact he.getElem?_record h fun ph => hother pos ph rfl

/-- A thread: between two calls, or in the middle of one. -/
inductive Thread (α : Type*) where
  | idle
  | enqueue (data : α) (pc : EnqueuePc)
  | dequeue (pc : DequeuePc α)
  deriving DecidableEq

namespace Thread

/-- The position a thread holds. -/
def held : Thread α → Option ℕ
  | idle => none
  | enqueue _ pc => pc.held
  | dequeue pc => pc.held

/-- What a thread knows. -/
def Holds (capacity : ℕ) (l : List (Entry α)) : Thread α → Prop
  | idle => True
  | enqueue data pc => pc.Holds capacity l data
  | dequeue pc => pc.Holds l

end Thread

/-- The next access of a thread; `none` between two calls. -/
def Ring.threadStep (q : Ring α) (spurious : Bool) :
    Thread α → Option (Ring α × Thread α × Option (Event α))
  | .idle => none
  | .enqueue data pc =>
    let (q', r, e) := q.enqueueStep data spurious pc
    some (q', r.elim (.enqueue data) fun _ => .idle, e)
  | .dequeue pc =>
    let (q', r, e) := q.dequeueStep spurious pc
    some (q', r.elim .dequeue fun _ => .idle, e)

section ThreadStep

variable {q q' : Ring α} {l : List (Entry α)} {spurious : Bool} {th th' : Thread α}
  {e : Option (Event α)}

theorem Ring.Inv.threadStep (hI : q.Inv q.dequeuePos l) (hth : th.Holds q.capacity l)
    (hstep : q.threadStep spurious th = some (q', th', e)) :
    q'.capacity = q.capacity ∧ q'.Inv q'.dequeuePos (recorded l e) ∧
      (∀ ev, e = some ev → Allowed q.capacity l ev) ∧ th'.Holds q.capacity (recorded l e) := by
  cases th with
  | idle => cases hstep
  | enqueue data pc =>
    obtain ⟨⟨q₁, r, e₁⟩, hcall⟩ : ∃ r, q.enqueueStep data spurious pc = r := ⟨_, rfl⟩
    rw [Ring.threadStep, hcall] at hstep
    obtain ⟨rfl, rfl, rfl⟩ := by simpa using hstep
    obtain ⟨hinv, hallowed, hnext⟩ := hI.enqueueStep hth hcall
    obtain ⟨hcap, hpos⟩ := Ring.enqueueStep_frame hcall
    refine ⟨hcap, hpos ▸ hinv, hallowed, ?_⟩
    cases r with
    | inl pc' => exact hnext pc' rfl
    | inr b => trivial
  | dequeue pc =>
    obtain ⟨⟨q₁, r, e₁⟩, hcall⟩ : ∃ r, q.dequeueStep spurious pc = r := ⟨_, rfl⟩
    rw [Ring.threadStep, hcall] at hstep
    obtain ⟨rfl, rfl, rfl⟩ := by simpa using hstep
    obtain ⟨hcap, hinv, hallowed, hnext⟩ := hI.dequeueStep hth hcall
    refine ⟨hcap, hinv, hallowed, ?_⟩
    cases r with
    | inl pc' => exact hnext pc' rfl
    | inr b => trivial

/-- The position a thread holds after an access is the one it held, or a new one. -/
theorem Ring.held_threadStep (hstep : q.threadStep spurious th = some (q', th', e)) :
    (∀ p, th'.held = some p →
      th.held = some p ∨ (∃ x, e = some (.claimed p x)) ∨ e = some (.taken p)) ∧
    ∀ p ph, e.bind Event.target = some (p, ph) →
      th.held = some p ∨ (∃ x, e = some (.claimed p x)) ∨ e = some (.taken p) := by
  cases th with
  | idle => cases hstep
  | enqueue data pc =>
    obtain ⟨⟨q₁, r, e₁⟩, hcall⟩ : ∃ r, q.enqueueStep data spurious pc = r := ⟨_, rfl⟩
    rw [Ring.threadStep, hcall] at hstep
    obtain ⟨rfl, rfl, rfl⟩ := by simpa using hstep
    obtain ⟨hheld, htarget⟩ := Ring.held_enqueueStep hcall
    refine ⟨fun p hp => ?_, fun p ph hp => ?_⟩
    · exact (hheld p (by cases r <;> exact hp)).imp_right fun h => .inl ⟨data, h⟩
    · exact (htarget p ph hp).imp_right fun h => .inl ⟨data, h⟩
  | dequeue pc =>
    obtain ⟨⟨q₁, r, e₁⟩, hcall⟩ : ∃ r, q.dequeueStep spurious pc = r := ⟨_, rfl⟩
    rw [Ring.threadStep, hcall] at hstep
    obtain ⟨rfl, rfl, rfl⟩ := by simpa using hstep
    obtain ⟨hheld, htarget⟩ := Ring.held_dequeueStep hcall
    refine ⟨fun p hp => ?_, fun p ph hp => ?_⟩
    · exact (hheld p (by cases r <;> exact hp)).imp_right .inr
    · exact (htarget p ph hp).imp_right .inr

end ThreadStep

section Frame

variable {capacity : ℕ} {l : List (Entry α)} {th : Thread α}

/-- What an event of another thread leaves to this one. -/
theorem Thread.Holds.record (h : th.Holds capacity l) {e : Event α} (he : Allowed capacity l e)
    (hother : ∀ p ph, th.held = some p → e.target ≠ some (p, ph)) :
    th.Holds capacity (record l e) := by
  cases th with
  | idle => trivial
  | enqueue data pc => exact EnqueuePc.Holds.record h he hother
  | dequeue pc => exact DequeuePc.Holds.record h he hother

/-- A position that a thread holds is claimed, and it is not waiting to be taken. -/
theorem Thread.Holds.of_held (h : th.Holds capacity l) {p : ℕ} (hheld : th.held = some p) :
    ∃ y, l[p]? = some y ∧ y.phase ≠ .published := by
  cases th with
  | idle => cases hheld
  | enqueue data pc =>
    cases pc with
    | write pos => cases hheld; exact ⟨_, h, nofun⟩
    | publish pos => cases hheld; exact ⟨_, h, nofun⟩
    | load | check | exchange => cases hheld
  | dequeue pc =>
    cases pc with
    | read pos =>
      cases hheld
      obtain ⟨x, hx⟩ := h
      exact ⟨_, hx, nofun⟩
    | release pos data => cases hheld; exact ⟨_, h, nofun⟩
    | load | check | exchange => cases hheld

end Frame

/-- The queue and the threads that use it. -/
structure State (α : Type*) where
  ring : Ring α
  threads : List (Thread α)
  deriving DecidableEq

/-- What the adversary picks. -/
inductive Action (α : Type*) where
  /-- Thread `t` calls `enqueue`. -/
  | enqueue (t : ℕ) (data : α)
  /-- Thread `t` calls `dequeue`. -/
  | dequeue (t : ℕ)
  /-- Thread `t` makes its next access; a compare-exchange may fail spuriously. -/
  | work (t : ℕ) (spurious : Bool)
  deriving DecidableEq

/-- The state after an action. -/
def State.step (s : State α) : Action α → Option (State α)
  | .enqueue t data =>
    match s.threads[t]? with
    | some .idle => some { s with threads := s.threads.set t (.enqueue data .load) }
    | _ => none
  | .dequeue t =>
    match s.threads[t]? with
    | some .idle => some { s with threads := s.threads.set t (.dequeue .load) }
    | _ => none
  | .work t spurious =>
    (s.threads[t]?.bind (s.ring.threadStep spurious)).map fun (ring, th, _) =>
      ⟨ring, s.threads.set t th⟩

/-- The event of a move. -/
def event : State α × Action α → Option (Event α)
  | (s, .work t spurious) => (s.threads[t]?.bind (s.ring.threadStep spurious)).bind (·.2.2)
  | (_, .enqueue _ _) | (_, .dequeue _) => none

/-- The events of a run, the earliest first. -/
def history (tr : List (State α × Action α)) : List (Event α) := tr.reverse.filterMap event

@[simp]
theorem history_cons (m : State α × Action α) (tr : List (State α × Action α)) :
    history (m :: tr) = history tr ++ (event m).toList := by
  cases h : event m <;> simp [history, h]

/-- The queue constructed for a capacity, used by a number of threads. -/
def queueMachine [Inhabited α] (capacity threads : ℕ) : Machine (State α) (Action α) where
  init s := s = ⟨Ring.create capacity, List.replicate threads .idle⟩
  step := State.step

/-- The ring shows the ledger of the history; each thread knows what its place in the call says,
and no two threads hold one position. -/
structure Consistent (capacity : ℕ) (h : List (Event α)) (s : State α) : Prop where
  lawful : Lawful capacity h
  capacity_eq : s.ring.capacity = capacity
  ring : s.ring.Inv s.ring.dequeuePos (ledger h)
  holds : ∀ (t : ℕ) (th : Thread α), s.threads[t]? = some th → th.Holds capacity (ledger h)
  apart : Apart Thread.held s.threads

section Runs

variable {capacity : ℕ} {h : List (Event α)} {s s' : State α}

/-- Between two calls a thread holds nothing. -/
theorem Consistent.call (hI : Consistent capacity h s) {t : ℕ} {old : Thread α}
    (ht : s.threads[t]? = some old) (th : Thread α) (hheld : th.held = none)
    (hholds : th.Holds capacity (ledger h)) :
    Consistent capacity h { s with threads := s.threads.set t th } where
  lawful := hI.lawful
  capacity_eq := hI.capacity_eq
  ring := hI.ring
  holds := by
    intro u th' hu
    rw [List.getElem?_set] at hu
    split_ifs at hu with heq hlt
    · obtain rfl := Option.some.inj hu
      exact hholds
    · exact hI.holds u th' hu
  apart := by
    refine hI.apart.set ht fun p hp => ?_
    rw [hheld] at hp
    cases hp

/-- An access of one thread keeps the invariant. -/
theorem Consistent.work (hI : Consistent capacity h s) {t : ℕ} {th th' : Thread α} {spurious : Bool}
    {ring : Ring α} {e : Option (Event α)} (ht : s.threads[t]? = some th)
    (hstep : s.ring.threadStep spurious th = some (ring, th', e)) :
    Consistent capacity (h ++ e.toList) ⟨ring, s.threads.set t th'⟩ := by
  have hcap := hI.capacity_eq
  obtain ⟨hcap', hring, hallowed, hnext⟩ :=
    hI.ring.threadStep (hcap ▸ hI.holds t th ht) hstep
  rw [hcap] at hcap' hallowed hnext
  obtain ⟨hheld, htarget⟩ := Ring.held_threadStep hstep
  -- a position that is new to this thread is new to all of them
  have hfresh : ∀ th₁ ∈ s.threads, ∀ p, th₁.held = some p →
      ¬ ((∃ x, e = some (.claimed p x)) ∨ e = some (.taken p)) := by
    intro th₁ hu p hp
    obtain ⟨u, hu⟩ := List.getElem?_of_mem hu
    obtain ⟨y, hy, hne⟩ := (hI.holds u th₁ hu).of_held hp
    rintro (⟨x, rfl⟩ | rfl)
    · obtain ⟨rfl, -⟩ := hallowed _ rfl
      simp at hy
    · obtain ⟨-, x, hx⟩ := hallowed _ rfl
      obtain rfl := Option.some.inj (hx.symm.trans hy)
      exact hne rfl
  refine
    { lawful := lawful_append_toList.mpr ⟨hI.lawful, hallowed⟩
      capacity_eq := hcap'
      ring := ledger_append_toList h e ▸ hring
      holds := ?_
      apart := ?_ }
  · intro u th₁ hu
    rw [ledger_append_toList]
    rw [List.getElem?_set] at hu
    split_ifs at hu with heq hlt
    · obtain rfl := Option.some.inj hu
      exact hnext
    · have hbefore := hI.holds u th₁ hu
      cases e with
      | none => exact hbefore
      | some ev =>
        refine hbefore.record (hallowed ev rfl) fun p ph hp hev => ?_
        rcases htarget p ph hev with hsame | hnew
        · exact heq (hI.apart t u th th₁ p ht hu hsame hp)
        · exact hfresh th₁ (List.mem_of_getElem? hu) p hp hnew
  · refine hI.apart.set ht fun p hp => ?_
    refine (hheld p hp).imp_right fun hnew c hc hcp => ?_
    exact hfresh c hc p hcp hnew

/-- The invariant holds along every run. -/
theorem consistent_of_run [Inhabited α] {n threads : ℕ} {tr : List (State α × Action α)}
    (htwo : 2 ≤ bitCeil n) (hrun : (queueMachine n threads).Run tr s) :
    Consistent (bitCeil n) (history tr) s := by
  -- induction over the run: two kinds of calls begin, and threads work on theirs
  induction hrun with
  | start hinit =>
    obtain rfl := hinit
    refine
      { lawful := lawful_nil
        capacity_eq := Ring.capacity_create n
        ring := Ring.inv_create htwo
        holds := ?_
        apart := ?_ }
    · intro t th ht
      obtain rfl := List.eq_of_mem_replicate (List.mem_of_getElem? ht)
      trivial
    · intro t t' th th' p ht _ hp
      obtain rfl := List.eq_of_mem_replicate (List.mem_of_getElem? ht)
      cases hp
  | @move tr s s' a _ hstep ih =>
    rw [history_cons]
    cases a with
    | enqueue t data =>
      change s.step (.enqueue t data) = some s' at hstep
      simp only [State.step] at hstep
      split at hstep
      · next ht =>
        obtain rfl := Option.some.inj hstep
        simpa [event] using ih.call ht (.enqueue data .load) rfl trivial
      · cases hstep
    | dequeue t =>
      change s.step (.dequeue t) = some s' at hstep
      simp only [State.step] at hstep
      split at hstep
      · next ht =>
        obtain rfl := Option.some.inj hstep
        simpa [event] using ih.call ht (.dequeue .load) rfl trivial
      · cases hstep
    | work t spurious =>
      obtain ⟨⟨ring, th', e⟩, hthread, rfl⟩ := Option.map_eq_some_iff.mp hstep
      obtain ⟨th, ht, hcall⟩ := Option.bind_eq_some_iff.mp hthread
      have hevent : event (s, .work t spurious) = e := by simp [event, ht, hcall]
      rw [hevent]
      exact ih.work ht hcall

end Runs

/-- The histories of a bounded FIFO. -/
structure BoundedFifo (capacity : ℕ) (h : List (Event α)) : Prop where
  /-- Enqueues claim the positions in order. -/
  claims : ∃ n, h.filterMap Event.claimedPos = List.range n
  /-- Dequeues take the positions in order. -/
  takes : ∃ n, h.filterMap Event.takenPos = List.range n
  /-- No item is returned by two dequeues. -/
  once : (h.filterMap Event.releasedPos).Nodup
  /-- A dequeue returns the item of the enqueue that claimed its position. -/
  returned : ∀ before p x after, h = before ++ .released p x :: after →
    .claimed p x ∈ before ∧ .published p ∈ before ∧ .taken p ∈ before
  /-- Dequeues take, and read, published positions only. -/
  published : ∀ before e p after, h = before ++ e :: after →
    (e = .taken p ∨ ∃ x, e = .read p x) → .published p ∈ before
  /-- A cell is claimed, and written, after the position a lap earlier was released. -/
  released : ∀ before e p after, h = before ++ e :: after →
    ((∃ x, e = .claimed p x) ∨ e = .written p) →
    p < capacity ∨ ∃ x, .released (p - capacity) x ∈ before
  /-- An enqueue that returns false inspected a cell whose last item was not released. -/
  full : ∀ before p after, h = before ++ .full p :: after →
    capacity ≤ p ∧ ∀ x, .released (p - capacity) x ∉ before
  /-- A dequeue that returns false inspected a position that was not published. -/
  empty : ∀ before p after, h = before ++ .empty p :: after → .published p ∉ before

/-- A lawful history is one of a bounded FIFO. -/
theorem Lawful.boundedFifo {capacity : ℕ} {h : List (Event α)} (hlawful : Lawful capacity h) :
    BoundedFifo capacity h where
  claims := ⟨_, hlawful.claims⟩
  takes := ⟨_, hlawful.takes⟩
  once := hlawful.nodup_released
  returned := by
    intro before p x after heq
    have hbefore := hlawful.before heq
    have hread : (ledger before)[p]? = some ⟨x, .read⟩ := hlawful before _ after heq
    exact ⟨(hbefore.mem_claimed_iff p x).mpr ⟨_, hread, rfl⟩,
      (hbefore.mem_published_iff p).mpr ⟨_, hread, show 2 ≤ Phase.read.rank by decide⟩,
      (hbefore.mem_taken_iff p).mpr ⟨_, hread, show 3 ≤ Phase.read.rank by decide⟩⟩
  published := by
    intro before e p after heq he
    have hallowed := hlawful before e after heq
    apply ((hlawful.before heq).mem_published_iff p).mpr
    rcases he with rfl | ⟨x, rfl⟩
    · obtain ⟨-, x, hx⟩ := hallowed
      exact ⟨_, hx, le_rfl⟩
    · exact ⟨_, hallowed, show 2 ≤ Phase.taken.rank by decide⟩
  released := by
    intro before e p after heq he
    have hallowed := hlawful before e after heq
    have hbefore := hlawful.before heq
    rcases he with ⟨x, rfl⟩ | rfl
    · refine hallowed.2.imp_right ?_
      rintro ⟨y, hy⟩
      exact ⟨y, (hbefore.mem_released_iff _ _).mpr hy⟩
    · -- the position was claimed before it is written
      obtain ⟨x, hx⟩ := hallowed
      exact hbefore.released_of_claimed ((hbefore.mem_claimed_iff p x).mpr ⟨_, hx, rfl⟩)
  full := by
    intro before p after heq
    obtain ⟨hle, -, hnot⟩ := hlawful before _ after heq
    exact ⟨hle, fun x hx => hnot x (((hlawful.before heq).mem_released_iff _ _).mp hx)⟩
  empty := by
    intro before p after heq hmem
    obtain ⟨-, hnot⟩ := hlawful before _ after heq
    obtain ⟨y, hy, hrank⟩ := ((hlawful.before heq).mem_published_iff p).mp hmem
    have := hnot y hy
    omega

/-- In a ring of two cells at least, the queue is a bounded FIFO, whatever the threads call and
however their accesses interleave. -/
theorem bounded_fifo [Inhabited α] {capacity threads : ℕ} {tr : List (State α × Action α)}
    {s : State α} (htwo : 2 ≤ bitCeil capacity)
    (hrun : (queueMachine capacity threads).Run tr s) :
    BoundedFifo (bitCeil capacity) (history tr) :=
  (consistent_of_run htwo hrun).lawful.boundedFifo

/-- Two threads: the second enqueue overtakes the first between its claim and its store, and the
ring of two cells is then full. -/
def overtaking : List (Action ℕ) :=
  .enqueue 0 7 :: List.replicate 3 (.work 0 false) ++
    .enqueue 1 8 :: .work 1 false :: .work 1 false :: .work 1 true ::
      List.replicate 4 (.work 1 false) ++
    -- the first item is not written yet
    .dequeue 1 :: List.replicate 2 (.work 1 false) ++
    .enqueue 1 9 :: List.replicate 2 (.work 1 false) ++
    List.replicate 2 (.work 0 false) ++
    .dequeue 1 :: List.replicate 5 (.work 1 false)

/-- The dequeue in between finds its position not published, and the enqueue finds the ring
full. -/
theorem bounded_fifo_two : ∃ (tr : List (State ℕ × Action ℕ)) (s : State ℕ),
    (queueMachine 2 2).Run tr s ∧ BoundedFifo (bitCeil 2) (history tr) ∧
      (.empty 0 ∈ history tr ∧ .full 2 ∈ history tr ∧ .released 0 7 ∈ history tr) := by
  have hinit : (queueMachine 2 2 : Machine (State ℕ) (Action ℕ)).init
      ⟨Ring.create 2, List.replicate 2 .idle⟩ := rfl
  obtain ⟨tr, s, hrun, hs⟩ := Machine.exists_run_of_exec hinit overtaking
    (fun r => .empty 0 ∈ history r.1 ∧ .full 2 ∈ history r.1 ∧ .released 0 7 ∈ history r.1)
    (by decide +kernel)
  exact ⟨tr, s, hrun, bounded_fifo (by decide) hrun, of_decide_eq_true hs⟩

end Cob.Queue
