import Mathlib.Data.List.Basic
import Mathlib.Data.List.Range

/-!
# Compressed rows

Entries `(row, value)` with rows below `n` are stored row by row in one array, found through
offsets: count the entries of each row, add up the counts, then place every entry at the cursor of
its row.

* `start entries k` — the entries of the rows before `k`;
* `offsets_getElem?` — the offset of a row is its start;
* `Placed` — what holds after some of the entries were placed;
* `row_build` — the stored row has its values in the order of the entries.
-/

namespace Csr

variable {α : Type*}

/-- The number of entries of each row, one place further on. -/
def counts (n : ℕ) (entries : List (ℕ × α)) : List ℕ :=
  entries.foldl (fun offsets e => offsets.modify (e.1 + 1) (· + 1)) (List.replicate (n + 1) 0)

/-- Each place gets the sum of the places up to it. -/
def accumulate (n : ℕ) (counts : List ℕ) : List ℕ :=
  (List.range n).foldl (fun offsets i => offsets.modify (i + 1) (· + offsets.getD i 0)) counts

/-- The offsets of the rows, and of the end. -/
def offsets (n : ℕ) (entries : List (ℕ × α)) : List ℕ := accumulate n (counts n entries)

/-- Storing an entry at the cursor of its row. -/
def place (p : List ℕ × List α) (e : ℕ × α) : List ℕ × List α :=
  (p.1.modify e.1 (· + 1), p.2.set (p.1.getD e.1 0) e.2)

/-- The values of all rows; the array has `blank` everywhere at first. -/
def values (n : ℕ) (entries : List (ℕ × α)) (blank : α) : List α :=
  let offsets := offsets n entries
  (entries.foldl place (offsets.dropLast, List.replicate (offsets.getD n 0) blank)).2

/-- The values between the offsets of a row. -/
def row (offsets : List ℕ) (values : List α) (k : ℕ) : List α :=
  (values.drop (offsets.getD k 0)).take (offsets.getD (k + 1) 0 - offsets.getD k 0)

/-- The number of entries of row `k`. -/
def rowLength (entries : List (ℕ × α)) (k : ℕ) : ℕ := entries.countP fun e => e.1 = k

/-- The number of entries of the rows before `k`. -/
def start (entries : List (ℕ × α)) (k : ℕ) : ℕ := entries.countP fun e => e.1 < k

section Offsets

variable {n : ℕ} (entries : List (ℕ × α))

@[simp]
theorem start_zero : start entries 0 = 0 := by
  simp [start]

theorem start_succ (k : ℕ) : start entries (k + 1) = start entries k + rowLength entries k := by
  unfold start rowLength
  induction entries with
  | nil => rfl
  | cons e entries ih =>
    simp only [List.countP_cons, decide_eq_true_eq]
    split_ifs <;> omega

theorem start_mono {j k : ℕ} (h : j ≤ k) : start entries j ≤ start entries k := by
  refine List.countP_mono_left fun e _ he => ?_
  simp only [decide_eq_true_eq] at he ⊢
  omega

/-- The counts, for places up to `n`. -/
theorem counts_getElem? {k : ℕ} (hk : k ≤ n) :
    (counts n entries)[k]? = some (entries.countP fun e => e.1 + 1 = k) := by
  have hfold : ∀ places : List ℕ,
      (entries.foldl (fun offsets e => offsets.modify (e.1 + 1) (· + 1)) places)[k]? =
        (places[k]?).map (· + entries.countP fun e => e.1 + 1 = k) := by
    induction entries with
    | nil => simp
    | cons e entries ih =>
      intro places
      rw [List.foldl_cons, ih, List.getElem?_modify, List.countP_cons]
      cases places[k]? with
      | none => rfl
      | some c =>
        by_cases he : e.1 + 1 = k
        · simp [he]
          omega
        · simp [he]
  rw [counts, hfold, List.getElem?_replicate, if_pos (by omega)]
  simp

/-- The offset of a row is its start. -/
theorem offsets_getElem? {k : ℕ} (hk : k ≤ n) :
    (offsets n entries)[k]? = some (start entries k) := by
  -- after `i` rounds the places up to `i` are sums, and the others are counts
  have hloop : ∀ i ≤ n, ∀ k ≤ n,
      ((List.range i).foldl (fun offsets i => offsets.modify (i + 1) (· + offsets.getD i 0))
        (counts n entries))[k]? =
        some (if k ≤ i then start entries k else entries.countP fun e => e.1 + 1 = k) := by
    intro i hi
    induction i with
    | zero =>
      intro k hk
      rw [List.range_zero, List.foldl_nil, counts_getElem? entries hk]
      split_ifs with hzero
      · obtain rfl : k = 0 := by omega
        simp
      · rfl
    | succ i ih =>
      intro k hk
      have hbefore := ih (by omega)
      rw [List.range_succ, List.foldl_append, List.foldl_cons, List.foldl_nil,
        List.getElem?_modify, hbefore k hk, List.getD_eq_getElem?_getD, hbefore i (by omega)]
      by_cases heq : i + 1 = k
      · subst heq
        have hnot : ¬ i + 1 ≤ i := by omega
        simp [hnot, start_succ, rowLength, Nat.add_comm]
      · simp only [heq, if_false]
        split_ifs <;> first | rfl | omega
  rw [offsets, accumulate, hloop n le_rfl k hk, if_pos hk]

theorem offsets_getD {k : ℕ} (hk : k ≤ n) : (offsets n entries).getD k 0 = start entries k := by
  rw [List.getD_eq_getElem?_getD, offsets_getElem? entries hk, Option.getD_some]

theorem length_offsets (n : ℕ) : (offsets n entries).length = n + 1 := by
  have hcounts : ∀ places : List ℕ,
      (entries.foldl (fun offsets e => offsets.modify (e.1 + 1) (· + 1)) places).length =
        places.length := by
    induction entries with
    | nil => simp
    | cons e entries ih => simp [ih]
  have hsums : ∀ (rounds : List ℕ) (places : List ℕ),
      (rounds.foldl (fun offsets i => offsets.modify (i + 1) (· + offsets.getD i 0))
        places).length = places.length := by
    intro rounds
    induction rounds with
    | nil => simp
    | cons i rounds ih =>
      intro places
      rw [List.foldl_cons, ih, List.length_modify]
  rw [offsets, accumulate, hsums, counts, hcounts, List.length_replicate]

end Offsets

/-- What holds when the entries `done` were placed. -/
structure Placed (n : ℕ) (entries done : List (ℕ × α)) (p : List ℕ × List α) : Prop where
  /-- The cursor of a row stands behind its entries so far. -/
  cursor : ∀ k < n, p.1[k]? = some (start entries k + rowLength done k)
  length : p.2.length = start entries n
  /-- The entries so far stand in their rows. -/
  stored : ∀ k < n, ∀ j < rowLength done k,
    p.2[start entries k + j]? = ((done.filter fun e => e.1 = k).map Prod.snd)[j]?

section Place

variable {n : ℕ} {entries : List (ℕ × α)}

theorem rowLength_append (l l' : List (ℕ × α)) (k : ℕ) :
    rowLength (l ++ l') k = rowLength l k + rowLength l' k := List.countP_append

/-- Placing the next entry. -/
theorem Placed.place {done rest : List (ℕ × α)} {e : ℕ × α} {p : List ℕ × List α}
    (hentries : entries = done ++ e :: rest) (he : e.1 < n) (h : Placed n entries done p) :
    Placed n entries (done ++ [e]) (place p e) := by
  have hcursor : p.1.getD e.1 0 = start entries e.1 + rowLength done e.1 := by
    rw [List.getD_eq_getElem?_getD, h.cursor e.1 he, Option.getD_some]
  have hone : ∀ k, rowLength [e] k = if e.1 = k then 1 else 0 := by
    intro k
    simp [rowLength, List.countP_cons]
  -- the row of `e` has room for it
  have hroom : start entries e.1 + rowLength done e.1 < start entries (e.1 + 1) := by
    have hlength : rowLength entries e.1 = rowLength done e.1 + rowLength ([e] ++ rest) e.1 := by
      rw [hentries, rowLength_append]
      rfl
    rw [rowLength_append, hone, if_pos rfl] at hlength
    rw [start_succ]
    omega
  have hend : start entries (e.1 + 1) ≤ start entries n := start_mono entries he
  refine ⟨?_, ?_, ?_⟩
  · intro k hk
    rw [Csr.place, List.getElem?_modify, h.cursor k hk, rowLength_append, hone]
    split_ifs <;> simp [Nat.add_assoc]
  · rw [Csr.place, List.length_set]
    exact h.length
  · intro k hk j hj
    rw [rowLength_append, hone] at hj
    simp only [Csr.place, hcursor, List.filter_append, List.map_append]
    have hlen : ((done.filter fun e => e.1 = k).map Prod.snd).length = rowLength done k := by
      rw [List.length_map, rowLength, List.countP_eq_length_filter]
    by_cases hek : e.1 = k
    · subst hek
      rw [if_pos rfl] at hj
      rcases Nat.lt_succ_iff_lt_or_eq.mp hj with hlt | rfl
      · rw [List.getElem?_set_ne (by omega), List.getElem?_append_left (by omega)]
        exact h.stored _ hk j hlt
      · rw [List.getElem?_set_self (by rw [h.length]; omega),
          List.getElem?_append_right (by omega), hlen]
        simp
    · -- the rows of `e` and `k` do not meet
      rw [if_neg hek, Nat.add_zero] at hj
      have hin : start entries k + j < start entries (k + 1) := by
        have hle : rowLength done k ≤ rowLength entries k := by
          rw [hentries, rowLength_append]
          omega
        rw [start_succ]
        omega
      have hne : start entries e.1 + rowLength done e.1 ≠ start entries k + j := by
        rcases Nat.lt_or_gt_of_ne hek with hlt | hlt
        · have hmono := start_mono entries (show e.1 + 1 ≤ k from hlt)
          omega
        · have hmono := start_mono entries (show k + 1 ≤ e.1 from hlt)
          omega
      rw [List.getElem?_set_ne hne, List.getElem?_append_left (by omega)]
      exact h.stored k hk j hj

/-- Placing all entries. -/
theorem placed_foldl (hrows : ∀ e ∈ entries, e.1 < n) {p : List ℕ × List α}
    (h : Placed n entries [] p) : Placed n entries entries (entries.foldl Csr.place p) := by
  have hrest : ∀ (rest done : List (ℕ × α)) (p : List ℕ × List α), entries = done ++ rest →
      Placed n entries done p → Placed n entries entries (rest.foldl Csr.place p) := by
    intro rest
    induction rest with
    | nil =>
      intro done p hdone h
      obtain rfl : entries = done := by simpa using hdone
      exact h
    | cons e rest ih =>
      intro done p hdone h
      have he : e.1 < n := hrows e (by simp [hdone])
      exact ih (done ++ [e]) _ (by simp [hdone]) (h.place hdone he)
  exact hrest entries [] p rfl h

/-- The stored row has its values in the order of the entries. -/
theorem row_build (hrows : ∀ e ∈ entries, e.1 < n) (blank : α) {k : ℕ} (hk : k < n) :
    row (offsets n entries) (values n entries blank) k =
      (entries.filter fun e => e.1 = k).map Prod.snd := by
  -- every entry has been placed in its row
  have hplaced : Placed n entries entries (entries.foldl Csr.place
      ((offsets n entries).dropLast, List.replicate (start entries n) blank)) := by
    refine placed_foldl hrows ⟨?_, List.length_replicate, ?_⟩
    · intro i hi
      rw [List.getElem?_dropLast, length_offsets, if_pos (by omega), offsets_getElem? entries hi.le]
      simp [rowLength]
    · intro i _ j hj
      simp [rowLength] at hj
  have hlen : ((entries.filter fun e => e.1 = k).map Prod.snd).length = rowLength entries k := by
    rw [List.length_map, rowLength, List.countP_eq_length_filter]
  unfold row values
  simp only [offsets_getD entries hk.le, offsets_getD entries (show k + 1 ≤ n from hk),
    offsets_getD entries le_rfl]
  have hsucc := start_succ entries k
  apply List.ext_getElem?
  intro j
  rw [List.getElem?_take, List.getElem?_drop]
  split_ifs with hj
  · exact hplaced.stored k hk j (by omega)
  · rw [List.getElem?_eq_none (by omega)]

end Place

end Csr
