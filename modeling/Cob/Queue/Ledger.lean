import Mathlib.Data.List.Basic
import Mathlib.Data.List.Range

/-!
# What a bounded queue records

The calls of a bounded queue take each position through the same phases: an enqueue claims it,
writes its item and publishes it; a dequeue takes it, reads the item and releases it. The events
of a run, in the order in which they happen, are its history; the `ledger` of a history lists the
positions claimed so far with the phase each has reached.

* `Allowed` — the event that the ledger of a bounded FIFO permits next;
* `Lawful` — the histories all of whose events were permitted when they happened;
* `Lawful.mem_claimed_iff`, `mem_published_iff`, `mem_released_iff` — the ledger read off the
  history;
* `Lawful.claims`, `Lawful.takes` — positions are claimed and taken in order.

A concrete queue is connected to this one by showing that its histories are lawful.
-/

namespace Cob.Queue

/-- How far a position has come. -/
inductive Phase where
  | claimed | written | published | taken | read | released
  deriving DecidableEq

namespace Phase

/-- The phases in their order. -/
def rank : Phase → ℕ
  | claimed => 0
  | written => 1
  | published => 2
  | taken => 3
  | read => 4
  | released => 5

theorem rank_le (ph : Phase) : ph.rank ≤ 5 := by
  cases ph <;> decide

theorem rank_injective {ph ph' : Phase} (h : ph.rank = ph'.rank) : ph = ph' := by
  cases ph <;> cases ph' <;> first | rfl | cases h

end Phase

/-- What a step of a call does to the queue. -/
inductive Event (α : Type*) where
  /-- An enqueue of `data` claimed the position. -/
  | claimed (pos : ℕ) (data : α)
  /-- It wrote its item. -/
  | written (pos : ℕ)
  /-- It published the position and returned true. -/
  | published (pos : ℕ)
  /-- An enqueue that inspected the position returned false. -/
  | full (pos : ℕ)
  /-- A dequeue claimed the position. -/
  | taken (pos : ℕ)
  /-- It read the item. -/
  | read (pos : ℕ) (data : α)
  /-- It released the position and returned the item. -/
  | released (pos : ℕ) (data : α)
  /-- A dequeue that inspected the position returned false. -/
  | empty (pos : ℕ)
  deriving DecidableEq

/-- A claimed position. -/
structure Entry (α : Type*) where
  item : α
  phase : Phase
  deriving DecidableEq

variable {α : Type*}

namespace Entry

/-- The entry, having reached a phase. -/
def reach (e : Entry α) (phase : Phase) : Entry α := { e with phase }

@[simp]
theorem item_reach (e : Entry α) (phase : Phase) : (e.reach phase).item = e.item := rfl

@[simp]
theorem phase_reach (e : Entry α) (phase : Phase) : (e.reach phase).phase = phase := rfl

end Entry

/-- The ledger after an event. -/
def record (l : List (Entry α)) : Event α → List (Entry α)
  | .claimed _ data => l ++ [⟨data, .claimed⟩]
  | .written pos => l.modify pos (·.reach .written)
  | .published pos => l.modify pos (·.reach .published)
  | .full _ => l
  | .taken pos => l.modify pos (·.reach .taken)
  | .read pos _ => l.modify pos (·.reach .read)
  | .released pos _ => l.modify pos (·.reach .released)
  | .empty _ => l

/-- The ledger of a history. -/
def ledger (h : List (Event α)) : List (Entry α) := h.foldl record []

/-- The ledger after a step that may have been an event. -/
def recorded (l : List (Entry α)) (e : Option (Event α)) : List (Entry α) := e.elim l (record l)

/-- The number of positions taken so far. -/
def takenCount (l : List (Entry α)) : ℕ := l.countP fun e => 3 ≤ e.phase.rank

/-- The events that a bounded FIFO permits. -/
def Allowed (capacity : ℕ) (l : List (Entry α)) : Event α → Prop
  | .claimed pos _ => pos = l.length ∧
      (pos < capacity ∨ ∃ x, l[pos - capacity]? = some ⟨x, .released⟩)
  | .written pos => ∃ x, l[pos]? = some ⟨x, .claimed⟩
  | .published pos => ∃ x, l[pos]? = some ⟨x, .written⟩
  | .full pos => capacity ≤ pos ∧ pos = l.length ∧
      ∀ x, l[pos - capacity]? ≠ some ⟨x, .released⟩
  | .taken pos => pos = takenCount l ∧ ∃ x, l[pos]? = some ⟨x, .published⟩
  | .read pos data => l[pos]? = some ⟨data, .taken⟩
  | .released pos data => l[pos]? = some ⟨data, .read⟩
  | .empty pos => pos = takenCount l ∧ ∀ e, l[pos]? = some e → e.phase.rank < 2

/-- Every event was permitted when it happened. -/
def Lawful (capacity : ℕ) (h : List (Event α)) : Prop :=
  ∀ before e after, h = before ++ e :: after → Allowed capacity (ledger before) e

@[simp]
theorem ledger_nil : ledger ([] : List (Event α)) = [] := rfl

@[simp]
theorem ledger_concat (h : List (Event α)) (e : Event α) :
    ledger (h ++ [e]) = record (ledger h) e := by
  simp [ledger]

@[simp]
theorem recorded_none (l : List (Entry α)) : recorded l none = l := rfl

@[simp]
theorem recorded_some (l : List (Entry α)) (e : Event α) : recorded l (some e) = record l e := rfl

theorem ledger_append_toList (h : List (Event α)) (e : Option (Event α)) :
    ledger (h ++ e.toList) = recorded (ledger h) e := by
  cases e <;> simp

section Record

variable {l : List (Entry α)} {capacity : ℕ}

/-- Marking a position keeps what was claimed. -/
theorem getElem?_modify_reach {p q : ℕ} {ph : Phase} :
    (l.modify p (·.reach ph))[q]? =
      if p = q then l[q]?.map (·.reach ph) else l[q]? := by
  rw [List.getElem?_modify]
  split_ifs <;> simp

/-- A position that moves on changes the number of taken positions by its own share. -/
theorem takenCount_modify {p : ℕ} (ph : Phase) {old : Phase} {x : α} (h : l[p]? = some ⟨x, old⟩) :
    takenCount (l.modify p (·.reach ph)) + (if 3 ≤ old.rank then 1 else 0) =
      takenCount l + if 3 ≤ ph.rank then 1 else 0 := by
  induction l generalizing p with
  | nil => simp at h
  | cons e l ih =>
    cases p with
    | zero =>
      obtain rfl : e = ⟨x, old⟩ := by simpa using h
      by_cases hold : 3 ≤ old.rank <;> by_cases hnew : 3 ≤ ph.rank <;>
        simp [takenCount, hold, hnew, Nat.add_assoc]
    | succ p =>
      have hrest := ih (p := p) (by simpa using h)
      simp only [takenCount, List.modify_succ_cons, List.countP_cons] at hrest ⊢
      omega

@[simp]
theorem takenCount_append_claimed (x : α) : takenCount (l ++ [⟨x, .claimed⟩]) = takenCount l := by
  simp [takenCount, Phase.rank]

theorem takenCount_le : takenCount l ≤ l.length := List.countP_le_length

/-- The position an event moves on, and the phase it reaches. -/
def Event.target : Event α → Option (ℕ × Phase)
  | .claimed pos _ => some (pos, .claimed)
  | .written pos => some (pos, .written)
  | .published pos => some (pos, .published)
  | .taken pos => some (pos, .taken)
  | .read pos _ => some (pos, .read)
  | .released pos _ => some (pos, .released)
  | .full _ | .empty _ => none

/-- What a permitted event does to the ledger: nothing, or it appends a claimed position, or it
moves one position to its next phase. -/
theorem Allowed.record_cases {e : Event α} (h : Allowed capacity l e) :
    (e.target = none ∧ record l e = l) ∨
    (∃ x, e = .claimed l.length x ∧ record l e = l ++ [⟨x, .claimed⟩]) ∨
    (∃ pos x old ph, e.target = some (pos, ph) ∧ l[pos]? = some ⟨x, old⟩ ∧
      ph.rank = old.rank + 1 ∧ record l e = l.modify pos (·.reach ph)) := by
  cases e with
  | claimed pos x =>
    obtain ⟨rfl, -⟩ := h
    exact .inr (.inl ⟨x, rfl, rfl⟩)
  | written pos =>
    obtain ⟨x, hx⟩ := h
    exact .inr (.inr ⟨pos, x, _, _, rfl, hx, rfl, rfl⟩)
  | published pos =>
    obtain ⟨x, hx⟩ := h
    exact .inr (.inr ⟨pos, x, _, _, rfl, hx, rfl, rfl⟩)
  | taken pos =>
    obtain ⟨-, x, hx⟩ := h
    exact .inr (.inr ⟨pos, x, _, _, rfl, hx, rfl, rfl⟩)
  | read pos x => exact .inr (.inr ⟨pos, x, _, _, rfl, h, rfl, rfl⟩)
  | released pos x => exact .inr (.inr ⟨pos, x, _, _, rfl, h, rfl, rfl⟩)
  | full pos => exact .inl ⟨rfl, rfl⟩
  | empty pos => exact .inl ⟨rfl, rfl⟩

/-- A permitted event leaves every other claimed position alone. -/
theorem Allowed.getElem?_record {e : Event α} (h : Allowed capacity l e) {p : ℕ} {y : Entry α}
    (hp : l[p]? = some y) (hne : ∀ ph, e.target ≠ some (p, ph)) : (record l e)[p]? = some y := by
  rcases h.record_cases with ⟨-, heq⟩ | ⟨x, -, heq⟩ | ⟨pos, x, old, ph, htarget, -, -, heq⟩
  · rwa [heq]
  · have hlt : p < l.length := (List.getElem?_eq_some_iff.mp hp).1
    rwa [heq, List.getElem?_append_left hlt]
  · have hpos : pos ≠ p := by
      rintro rfl
      exact hne ph htarget
    rwa [heq, getElem?_modify_reach, if_neg hpos]

/-- The position of a permitted event that is no claim was in the phase before. -/
theorem Allowed.rank_eq {e : Event α} (h : Allowed capacity l e) {p : ℕ} {ph : Phase}
    (htarget : e.target = some (p, ph)) {y : Entry α} (hy : l[p]? = some y) :
    y.phase.rank + 1 = ph.rank := by
  rcases h.record_cases with ⟨hnone, -⟩ | ⟨x, rfl, -⟩ | ⟨pos, x, old, ph', hsome, hold, hrank, -⟩
  · rw [hnone] at htarget
    cases htarget
  · obtain ⟨rfl, rfl⟩ : l.length = p ∧ Phase.claimed = ph := by simpa [Event.target] using htarget
    simp at hy
  · obtain ⟨rfl, rfl⟩ : pos = p ∧ ph' = ph := by simpa using hsome.symm.trans htarget
    obtain rfl := Option.some.inj (hold.symm.trans hy)
    exact hrank.symm

/-- After a permitted event its position has reached the phase. -/
theorem Allowed.reached {e : Event α} (h : Allowed capacity l e) {p : ℕ} {ph : Phase}
    (htarget : e.target = some (p, ph)) : ∃ x, (record l e)[p]? = some ⟨x, ph⟩ := by
  rcases h.record_cases with ⟨hnone, -⟩ | ⟨x, rfl, heq⟩ | ⟨pos, x, old, ph', hsome, hold, -, heq⟩
  · rw [hnone] at htarget
    cases htarget
  · obtain ⟨rfl, rfl⟩ : l.length = p ∧ Phase.claimed = ph := by simpa [Event.target] using htarget
    exact ⟨x, by simp [heq]⟩
  · obtain ⟨rfl, rfl⟩ : pos = p ∧ ph' = ph := by simpa using hsome.symm.trans htarget
    exact ⟨x, by simp [heq, hold, Entry.reach]⟩

/-- Claimed positions keep their items and never go back. -/
theorem Allowed.exists_getElem?_record {e : Event α} (h : Allowed capacity l e) {p : ℕ}
    {y : Entry α} (hp : l[p]? = some y) :
    ∃ z, (record l e)[p]? = some z ∧ z.item = y.item ∧ y.phase.rank ≤ z.phase.rank := by
  rcases h.record_cases with ⟨-, heq⟩ | ⟨x, -, heq⟩ | ⟨pos, x, old, ph, -, hold, hrank, heq⟩
  · exact ⟨y, by rwa [heq], rfl, le_rfl⟩
  · have hlt : p < l.length := (List.getElem?_eq_some_iff.mp hp).1
    exact ⟨y, by rwa [heq, List.getElem?_append_left hlt], rfl, le_rfl⟩
  · rcases eq_or_ne pos p with rfl | hpos
    · obtain rfl := Option.some.inj (hold.symm.trans hp)
      refine ⟨⟨x, ph⟩, by simp [heq, hold, Entry.reach], rfl, ?_⟩
      show old.rank ≤ ph.rank
      omega
    · exact ⟨y, by rwa [heq, getElem?_modify_reach, if_neg hpos], rfl, le_rfl⟩

/-- What is claimed after a permitted event has just been claimed, or was claimed before and has not
gone back. -/
theorem Allowed.exists_of_record {e : Event α} (h : Allowed capacity l e) {p : ℕ} {z : Entry α}
    (hz : (record l e)[p]? = some z) :
    e = .claimed p z.item ∨ ∃ y, l[p]? = some y ∧ y.phase.rank ≤ z.phase.rank := by
  rcases h.record_cases with ⟨-, heq⟩ | ⟨x, rfl, heq⟩ | ⟨pos, x, old, ph, -, hold, hrank, heq⟩
  · exact .inr ⟨z, heq ▸ hz, le_rfl⟩
  · rw [heq, List.getElem?_append] at hz
    split_ifs at hz with hlt
    · exact .inr ⟨z, hz, le_rfl⟩
    · rw [List.getElem?_singleton] at hz
      split_ifs at hz with h0
      obtain rfl := Option.some.inj hz
      exact .inl (by rw [show p = l.length by omega])
  · rw [heq, getElem?_modify_reach] at hz
    split_ifs at hz with hpos
    · subst hpos
      obtain rfl : Entry.reach ⟨x, old⟩ ph = z := by simpa [hold] using hz
      refine .inr ⟨_, hold, ?_⟩
      show old.rank ≤ ph.rank
      omega
    · exact .inr ⟨z, hz, le_rfl⟩

/-- The position taken by an event. -/
def Event.takenPos : Event α → Option ℕ
  | .taken pos => some pos
  | _ => none

/-- Only taking a position changes the number of positions taken. -/
theorem Allowed.takenCount_record {e : Event α} (h : Allowed capacity l e) :
    takenCount (record l e) = takenCount l + e.takenPos.toList.length := by
  cases e with
  | claimed pos x => simp [record, Event.takenPos]
  | written pos =>
    obtain ⟨x, hx⟩ := h
    simpa [record, Phase.rank, Event.takenPos] using takenCount_modify .written hx
  | published pos =>
    obtain ⟨x, hx⟩ := h
    simpa [record, Phase.rank, Event.takenPos] using takenCount_modify .published hx
  | taken pos =>
    obtain ⟨rfl, x, hx⟩ := h
    simpa [record, Phase.rank, Event.takenPos] using takenCount_modify .taken hx
  | read pos x => simpa [record, Phase.rank, Event.takenPos] using takenCount_modify .read h
  | released pos x => simpa [record, Phase.rank, Event.takenPos] using takenCount_modify .released h
  | full pos => simp [record, Event.takenPos]
  | empty pos => simp [record, Event.takenPos]

/-- A published position stays so until it is taken. -/
theorem Allowed.getElem?_record_of_published {e : Event α} (h : Allowed capacity l e) {p : ℕ}
    {x : α} (hp : l[p]? = some ⟨x, .published⟩) (hne : e ≠ .taken p) :
    (record l e)[p]? = some ⟨x, .published⟩ := by
  refine h.getElem?_record hp fun ph htarget => ?_
  rcases h.record_cases with ⟨hnone, -⟩ | ⟨z, rfl, -⟩ | ⟨pos, z, old, ph', hsome, hold, hrank, -⟩
  · rw [hnone] at htarget
    cases htarget
  · obtain ⟨rfl, -⟩ : l.length = p ∧ Phase.claimed = ph := by simpa [Event.target] using htarget
    simp at hp
  · obtain ⟨rfl, rfl⟩ : pos = p ∧ ph' = ph := by simpa using hsome.symm.trans htarget
    obtain ⟨-, rfl⟩ := Entry.mk.inj (Option.some.inj (hold.symm.trans hp))
    obtain rfl : ph' = .taken := Phase.rank_injective hrank
    -- only one event takes the position to this phase
    cases e <;> simp [Event.target] at htarget
    exact hne (by rw [htarget])

end Record

section Lawful

variable {capacity : ℕ} {h : List (Event α)}

@[simp]
theorem lawful_nil : Lawful capacity ([] : List (Event α)) := by
  intro before e after heq
  simp at heq

/-- A history is lawful when it is lawful up to its last event and that event was permitted. -/
theorem lawful_concat {e : Event α} :
    Lawful capacity (h ++ [e]) ↔ Lawful capacity h ∧ Allowed capacity (ledger h) e := by
  constructor
  · intro hlawful
    refine ⟨fun before e' after heq => ?_, hlawful h e [] rfl⟩
    exact hlawful before e' (after ++ [e]) (by simp [heq])
  · rintro ⟨hlawful, hallowed⟩ before e' after heq
    rcases List.eq_nil_or_concat after with rfl | ⟨rest, last, rfl⟩
    · obtain ⟨rfl, rfl⟩ : h = before ∧ e = e' := by simpa using List.append_inj' heq rfl
      exact hallowed
    · refine hlawful before e' rest ?_
      rw [List.concat_eq_append, ← List.cons_append, ← List.append_assoc] at heq
      exact (List.append_inj' heq rfl).1

theorem lawful_append_toList {e : Option (Event α)} :
    Lawful capacity (h ++ e.toList) ↔
      Lawful capacity h ∧ ∀ ev, e = some ev → Allowed capacity (ledger h) ev := by
  cases e with
  | none => simp
  | some e => simp [lawful_concat]

/-- The induction rule: what holds of the empty history and survives every permitted event holds
of every lawful history. -/
@[elab_as_elim]
theorem Lawful.induction {P : List (Event α) → Prop} (nil : P [])
    (concat : ∀ h e, Lawful capacity h → Allowed capacity (ledger h) e → P h → P (h ++ [e]))
    (hlawful : Lawful capacity h) : P h := by
  induction h using List.reverseRecOn with
  | nil => exact nil
  | append_singleton h e ih =>
    obtain ⟨hbefore, hallowed⟩ := lawful_concat.mp hlawful
    exact concat h e hbefore hallowed (ih hbefore)

/-- What happened before an event of a lawful history is lawful. -/
theorem Lawful.before {before after : List (Event α)} (hlawful : Lawful capacity h)
    (heq : h = before ++ after) : Lawful capacity before := by
  rintro before' e after' rfl
  exact hlawful before' e (after' ++ after) (by simp [heq])

/-- A position has reached a phase exactly when an event took it there. -/
theorem Lawful.exists_target_iff (hlawful : Lawful capacity h) (p : ℕ) (ph : Phase) :
    (∃ e ∈ h, e.target = some (p, ph)) ↔
      ∃ y, (ledger h)[p]? = some y ∧ ph.rank ≤ y.phase.rank := by
  refine hlawful.induction ?_ fun h e _ hallowed ih => ?_
  · simp
  · rw [ledger_concat]
    constructor
    · rintro ⟨e', he', htarget⟩
      rcases List.mem_append.mp he' with he' | he'
      · -- an earlier event: the position has not gone back since
        obtain ⟨y, hy, hrank⟩ := ih.mp ⟨e', he', htarget⟩
        obtain ⟨z, hz, -, hle⟩ := hallowed.exists_getElem?_record hy
        exact ⟨z, hz, hrank.trans hle⟩
      · obtain rfl := List.mem_singleton.mp he'
        obtain ⟨x, hx⟩ := hallowed.reached htarget
        exact ⟨_, hx, le_rfl⟩
    · rintro ⟨z, hz, hrank⟩
      by_cases hsame : e.target = some (p, ph)
      · exact ⟨e, by simp, hsame⟩
      · -- the position had come as far before this event
        suffices ∃ y, (ledger h)[p]? = some y ∧ ph.rank ≤ y.phase.rank by
          obtain ⟨e', he', htarget⟩ := ih.mpr this
          exact ⟨e', by simp [he'], htarget⟩
        rcases hallowed.record_cases with
          ⟨-, heq⟩ | ⟨x, rfl, heq⟩ | ⟨pos, x, old, ph', htarget, hold, hnext, heq⟩
        · exact ⟨z, heq ▸ hz, hrank⟩
        · rw [heq, List.getElem?_append] at hz
          split_ifs at hz with hlt
          · exact ⟨z, hz, hrank⟩
          · exfalso
            obtain ⟨hp, rfl⟩ : p - (ledger h).length = 0 ∧ z = ⟨x, .claimed⟩ := by
              rw [List.getElem?_singleton] at hz
              split_ifs at hz with h0
              exact ⟨h0, (Option.some.inj hz).symm⟩
            have : ph = .claimed := by cases ph <;> simp [Phase.rank] at hrank ⊢
            have hpos : p = (ledger h).length := by omega
            exact hsame (by rw [hpos, this]; rfl)
        · rw [heq, getElem?_modify_reach] at hz
          split_ifs at hz with hpos
          · subst hpos
            obtain rfl : Entry.reach ⟨x, old⟩ ph' = z := by simpa [hold] using hz
            refine ⟨_, hold, ?_⟩
            have hne : ph ≠ ph' := by
              rintro rfl
              exact hsame htarget
            have : ph.rank ≠ ph'.rank := mt Phase.rank_injective hne
            have hle : ph.rank ≤ ph'.rank := hrank
            show ph.rank ≤ old.rank
            omega
          · exact ⟨z, hz, hrank⟩

/-- No position reaches a phase twice. -/
theorem Lawful.nodup_targets (hlawful : Lawful capacity h) :
    (h.filterMap Event.target).Nodup := by
  refine hlawful.induction ?_ fun h e hlawful hallowed ih => ?_
  · simp
  · rw [List.filterMap_append, List.nodup_append]
    refine ⟨ih, by cases htarget : e.target <;> simp [htarget], ?_⟩
    rintro ⟨p, ph⟩ hbefore ⟨p', ph'⟩ hlast heq
    obtain ⟨rfl, rfl⟩ := Prod.mk.inj heq
    have htarget : e.target = some (p, ph) := by simpa using hlast
    -- an event that took the position this far would have left it there
    obtain ⟨e', he', hsame⟩ := List.mem_filterMap.mp hbefore
    obtain ⟨y, hy, hrank⟩ := (hlawful.exists_target_iff p ph).mp ⟨e', he', hsame⟩
    have := hallowed.rank_eq htarget hy
    omega

/-- The position claimed by an event. -/
def Event.claimedPos : Event α → Option ℕ
  | .claimed pos _ => some pos
  | _ => none

/-- The position whose item an event returns. -/
def Event.releasedPos : Event α → Option ℕ
  | .released pos _ => some pos
  | _ => none

/-- The item of a claim. -/
def Event.claimedItem : Event α → Option α
  | .claimed _ data => some data
  | _ => none

/-- The ledger holds the items of the claims. -/
theorem Lawful.items (hlawful : Lawful capacity h) :
    (ledger h).map Entry.item = h.filterMap Event.claimedItem := by
  have hmark : ∀ (l : List (Entry α)) (p : ℕ) (ph : Phase),
      (l.modify p (·.reach ph)).map Entry.item = l.map Entry.item := by
    intro l p ph
    apply List.ext_getElem?
    intro i
    rw [List.getElem?_map, getElem?_modify_reach, List.getElem?_map]
    split_ifs
    · cases l[i]? <;> rfl
    · rfl
  refine hlawful.induction rfl fun h e _ _ ih => ?_
  rw [List.filterMap_append, ← ih, ledger_concat]
  cases e <;> simp [record, Event.claimedItem, hmark]

/-- Enqueues claim the positions in order. -/
theorem Lawful.claims (hlawful : Lawful capacity h) :
    h.filterMap Event.claimedPos = List.range (ledger h).length := by
  refine hlawful.induction ?_ fun h e _ hallowed ih => ?_
  · rfl
  · rw [List.filterMap_append, ih, ledger_concat]
    cases e with
    | claimed pos x =>
      obtain ⟨rfl, -⟩ := hallowed
      simp [record, Event.claimedPos, List.range_succ]
    | _ => simp [record, Event.claimedPos]

/-- Dequeues take the positions in order. -/
theorem Lawful.takes (hlawful : Lawful capacity h) :
    h.filterMap Event.takenPos = List.range (takenCount (ledger h)) := by
  refine hlawful.induction ?_ fun h e _ hallowed ih => ?_
  · rfl
  · rw [List.filterMap_append, ih, ledger_concat]
    rw [hallowed.takenCount_record]
    cases e with
    | taken pos =>
      obtain ⟨rfl, -⟩ := hallowed
      simp [Event.takenPos, List.range_succ]
    | _ => simp [Event.takenPos]

/-- The item of a position is the one it was claimed for. -/
theorem Lawful.mem_claimed_iff (hlawful : Lawful capacity h) (p : ℕ) (x : α) :
    .claimed p x ∈ h ↔ ∃ y, (ledger h)[p]? = some y ∧ y.item = x := by
  -- an event records nothing, appends an entry, or advances the phase of one and keeps its item
  refine hlawful.induction ?_ fun h e _ hallowed ih => ?_
  · simp
  · rw [ledger_concat, List.mem_append, List.mem_singleton, ih]
    rcases hallowed.record_cases with
      ⟨hnone, heq⟩ | ⟨z, rfl, heq⟩ | ⟨pos, z, old, ph, htarget, hold, hrank, heq⟩
    · rw [heq, or_iff_left]
      rintro rfl
      cases hnone
    · rw [heq]
      constructor
      · rintro (⟨y, hy, hitem⟩ | heq)
        · exact ⟨y, List.getElem?_append_left (List.getElem?_eq_some_iff.mp hy).1 ▸ hy, hitem⟩
        · obtain ⟨rfl, rfl⟩ := Event.claimed.inj heq
          exact ⟨⟨x, .claimed⟩, by simp, rfl⟩
      · rintro ⟨y, hy, hitem⟩
        rw [List.getElem?_append] at hy
        split_ifs at hy with hlt
        · exact .inl ⟨y, hy, hitem⟩
        · rw [List.getElem?_singleton] at hy
          split_ifs at hy with h0
          obtain rfl := Option.some.inj hy
          obtain rfl : p = (ledger h).length := by omega
          exact .inr (by rw [← hitem])
    · rw [heq, getElem?_modify_reach, or_iff_left]
      · split_ifs with hpos
        · subst hpos
          simp [hold, Entry.reach]
        · rfl
      · rintro rfl
        obtain ⟨rfl, rfl⟩ : p = pos ∧ Phase.claimed = ph := by simpa [Event.target] using htarget
        simp [Phase.rank] at hrank

/-- A released position is out of the queue for good. -/
theorem Lawful.mem_released_iff (hlawful : Lawful capacity h) (p : ℕ) (x : α) :
    .released p x ∈ h ↔ (ledger h)[p]? = some ⟨x, .released⟩ := by
  have hreleased : ∀ {y : Entry α}, Phase.released.rank ≤ y.phase.rank → y.phase = .released := by
    rintro ⟨y, ph⟩ hle
    cases ph <;> simp [Phase.rank] at hle ⊢
  constructor
  · refine hlawful.induction ?_ fun h e _ hallowed ih => ?_
    · simp
    · intro hmem
      rw [ledger_concat]
      rcases List.mem_append.mp hmem with hmem | hlast
      · obtain ⟨⟨z, ph⟩, hz, rfl, hle⟩ := hallowed.exists_getElem?_record (ih hmem)
        rw [hz, ← hreleased hle]
      · obtain rfl := List.mem_singleton.mp hlast
        have hx : (ledger h)[p]? = some ⟨x, .read⟩ := hallowed
        simp [record, hx, Entry.reach]
  · intro hx
    obtain ⟨e, he, htarget⟩ := (hlawful.exists_target_iff p .released).mpr ⟨_, hx, le_rfl⟩
    obtain ⟨y, rfl⟩ : ∃ y, e = .released p y := by
      cases e <;> simp [Event.target] at htarget
      exact ⟨_, by rw [htarget]⟩
    -- the event that released the position returned its item
    obtain ⟨before, after, rfl⟩ := List.append_of_mem he
    have hread : (ledger before)[p]? = some ⟨y, .read⟩ := hlawful before _ after rfl
    have hclaim := (hlawful.before rfl).mem_claimed_iff p y |>.mpr ⟨_, hread, rfl⟩
    obtain ⟨z, hz, hitem⟩ := (hlawful.mem_claimed_iff p y).mp (List.mem_append_left _ hclaim)
    obtain rfl := Option.some.inj (hx.symm.trans hz)
    obtain rfl : x = y := hitem
    exact he

/-- A position was published exactly when its phase says so. -/
theorem Lawful.mem_published_iff (hlawful : Lawful capacity h) (p : ℕ) :
    .published p ∈ h ↔ ∃ y, (ledger h)[p]? = some y ∧ 2 ≤ y.phase.rank := by
  rw [← show Phase.published.rank = 2 from rfl, ← hlawful.exists_target_iff p .published]
  constructor
  · exact fun hmem => ⟨_, hmem, rfl⟩
  · rintro ⟨e, he, htarget⟩
    cases e <;> simp [Event.target] at htarget
    rwa [htarget] at he

/-- A position was taken exactly when its phase says so. -/
theorem Lawful.mem_taken_iff (hlawful : Lawful capacity h) (p : ℕ) :
    .taken p ∈ h ↔ ∃ y, (ledger h)[p]? = some y ∧ 3 ≤ y.phase.rank := by
  rw [← show Phase.taken.rank = 3 from rfl, ← hlawful.exists_target_iff p .taken]
  constructor
  · exact fun hmem => ⟨_, hmem, rfl⟩
  · rintro ⟨e, he, htarget⟩
    cases e <;> simp [Event.target] at htarget
    rwa [htarget] at he

/-- No position is released twice. -/
theorem Lawful.nodup_released (hlawful : Lawful capacity h) :
    (h.filterMap Event.releasedPos).Nodup := by
  -- the releases are among the phases that the events reach
  have hsplit : h.filterMap Event.releasedPos = (h.filterMap Event.target).filterMap
      fun t => if t.2 = .released then some t.1 else none := by
    rw [List.filterMap_filterMap]
    congr 1
    funext e
    cases e <;> rfl
  rw [hsplit]
  refine List.Pairwise.filterMap _ ?_ hlawful.nodup_targets
  rintro ⟨p, ph⟩ ⟨p', ph'⟩ hne b hb b' hb' rfl
  have hp : ph = .released ∧ p = b := by simpa using hb
  have hp' : ph' = .released ∧ p' = b := by simpa using hb'
  exact hne (by rw [hp.1, hp.2, hp'.1, hp'.2])

/-- A position is claimed after the one a lap earlier was released. -/
theorem Lawful.released_of_claimed (hlawful : Lawful capacity h) {p : ℕ} {x : α}
    (hmem : .claimed p x ∈ h) : p < capacity ∨ ∃ y, .released (p - capacity) y ∈ h := by
  obtain ⟨before, after, rfl⟩ := List.append_of_mem hmem
  obtain ⟨-, hfree⟩ := hlawful before _ after rfl
  refine hfree.imp_right ?_
  rintro ⟨y, hy⟩
  exact ⟨y, List.mem_append_left _ (((hlawful.before rfl).mem_released_iff _ _).mpr hy)⟩

end Lawful

end Cob.Queue
