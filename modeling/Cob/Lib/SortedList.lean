import Mathlib.Data.List.Sort
import Mathlib.Data.List.TakeWhile

/-!
# Lists kept in order

A list that is ordered by a key and searched by halving, the way `std::lower_bound` does it.

* `lowerBound` — the search, and where it ends in a partitioned list (`lowerBound_eq`);
* `find`, `insert`, `erase` — a table whose entries have different keys, as operations at the
  position that the search finds;
* `find_insert`, `find_erase` — what the operations do to the table as a map.
-/

namespace SortedList

variable {α : Type*}

section Search

variable {below : α → Bool} {l : List α}

/-- The loop of the search: `count` positions from `first` on are left. Every round makes `count`
smaller, so as many rounds as there are positions suffice. -/
def search (below : α → Bool) (l : List α) : ℕ → ℕ → ℕ → ℕ
  | 0, first, _ => first
  | rounds + 1, first, count =>
    if count = 0 then first
    else
      match l[first + count / 2]? with
      | none => first
      | some a =>
        if below a then search below l rounds (first + count / 2 + 1) (count - (count / 2 + 1))
        else search below l rounds first (count / 2)

/-- `std::lower_bound`: a position whose element is not below, with all elements below before it. -/
def lowerBound (below : α → Bool) (l : List α) : ℕ := search below l l.length 0 l.length

example : lowerBound (fun n => decide (n < 4)) [1, 3, 4, 4, 8] = 2 := by decide

/-- The elements below come first. -/
def Partitioned (below : α → Bool) (l : List α) : Prop := l.Pairwise fun a b => below b → below a

/-- An element of a partitioned list is below exactly before the first one that is not. -/
theorem Partitioned.below_iff (h : Partitioned below l) {i : ℕ} {a : α} (hi : l[i]? = some a) :
    below a = true ↔ i < l.findIdx (!below ·) := by
  obtain ⟨hlt, rfl⟩ := List.getElem?_eq_some_iff.mp hi
  constructor
  · intro hbelow
    rw [List.lt_findIdx_iff]
    refine ⟨hlt, fun j hj => ?_⟩
    rcases Nat.lt_or_eq_of_le hj with hji | rfl
    · simp [List.pairwise_iff_getElem.mp h j i (by omega) hlt hji hbelow]
    · simp [hbelow]
  · intro hfirst
    simpa using List.not_of_lt_findIdx hfirst

/-- The search keeps the first element that is not below between its bounds. -/
theorem search_eq (h : Partitioned below l) {rounds first count : ℕ} (hrounds : count ≤ rounds)
    (hlo : first ≤ l.findIdx (!below ·)) (hhi : l.findIdx (!below ·) ≤ first + count)
    (hlen : first + count ≤ l.length) :
    search below l rounds first count = l.findIdx (!below ·) := by
  induction rounds generalizing first count with
  | zero =>
    rw [search]
    omega
  | succ rounds ih =>
    rw [search]
    by_cases hcount : count = 0
    · rw [if_pos hcount]
      omega
    · have hmid : first + count / 2 < l.length := by omega
      have hget := List.getElem?_eq_getElem hmid
      have hiff := h.below_iff hget
      rw [if_neg hcount, hget]
      dsimp only
      by_cases hbelow : below l[first + count / 2] = true
      · -- the middle is below, so the bound lies behind it
        have hfirst := hiff.mp hbelow
        rw [if_pos hbelow]
        apply ih <;> omega
      · have hfirst := mt hiff.mpr hbelow
        rw [if_neg hbelow]
        apply ih <;> omega

/-- In a partitioned list the search finds the first element that is not below. -/
theorem lowerBound_eq (h : Partitioned below l) : lowerBound below l = l.findIdx (!below ·) := by
  have hle : l.findIdx (!below ·) ≤ l.length := List.findIdx_le_length
  exact search_eq h le_rfl (Nat.zero_le _) (by omega) (by omega)

theorem take_lowerBound (h : Partitioned below l) :
    l.take (lowerBound below l) = l.takeWhile below := by
  rw [lowerBound_eq h, List.takeWhile_eq_take_findIdx_not]

theorem drop_lowerBound (h : Partitioned below l) :
    l.drop (lowerBound below l) = l.dropWhile below := by
  rw [lowerBound_eq h, List.dropWhile_eq_drop_findIdx_not]

end Search

section Table

variable {κ : Type*} [LinearOrder κ] (key : α → κ) {l : List α} {a b : α} {k : κ}

/-- Where the entry of a key is, or would be. -/
def position (k : κ) (l : List α) : ℕ := lowerBound (fun a => key a < k) l

/-- The entry of a key, if the search ends at one. -/
def find (k : κ) (l : List α) : Option α := l[position key k l]?.filter fun a => key a = k

/-- `insert` at the position of its key. -/
def insert (a : α) (l : List α) : List α := l.insertIdx (position key (key a) l) a

/-- `erase` at the position of a key, if the search ends at its entry. -/
def erase (k : κ) (l : List α) : List α :=
  if (find key k l).isSome then l.eraseIdx (position key k l) else l

/-- The keys do not fall. -/
def Sorted (l : List α) : Prop := l.Pairwise fun a b => key a ≤ key b

/-- The keys rise, so they are all different. -/
def Ascending (l : List α) : Prop := l.Pairwise fun a b => key a < key b

variable {key}

theorem Ascending.sorted (h : Ascending key l) : Sorted key l := h.imp le_of_lt

theorem Sorted.partitioned (h : Sorted key l) (k : κ) :
    Partitioned (fun a => decide (key a < k)) l :=
  h.imp fun hle hlt => by simpa using hle.trans_lt (by simpa using hlt)

/-- The position of a key splits the entries into smaller ones and others. -/
theorem Sorted.split (h : Sorted key l) (k : κ) :
    (∀ a ∈ l.take (position key k l), key a < k) ∧
      ∀ a ∈ l.drop (position key k l), k ≤ key a := by
  have hpart := h.partitioned k
  constructor
  · intro a ha
    rw [position, take_lowerBound hpart] at ha
    simpa using List.mem_takeWhile_imp ha
  · intro a ha
    rw [position, drop_lowerBound hpart] at ha
    cases hrest : l.dropWhile (fun a => decide (key a < k)) with
    | nil => simp [hrest] at ha
    | cons b rest =>
      -- the first of the rest is not below `k`, and the others follow it
      have hb : k ≤ key b := by
        have hhead := List.head?_dropWhile_not (fun a => decide (key a < k)) l
        simpa [hrest] using hhead
      have htail : Sorted key (b :: rest) :=
        hrest ▸ h.sublist (List.dropWhile_sublist _)
      rw [hrest] at ha
      rcases List.mem_cons.mp ha with rfl | ha
      · exact hb
      · exact hb.trans (List.rel_of_pairwise_cons htail ha)

/-- In a sorted list the search is as good as trying the entries one by one. -/
theorem Sorted.find_eq (h : Sorted key l) (k : κ) :
    find key k l = l.find? fun a => key a = k := by
  obtain ⟨hsmall, hlarge⟩ := h.split k
  have hskip : (l.take (position key k l)).find? (fun a => decide (key a = k)) = none := by
    rw [List.find?_eq_none]
    exact fun a ha => by simpa using (hsmall a ha).ne
  have hsplit : l.find? (fun a => decide (key a = k)) =
      (l.drop (position key k l)).find? fun a => decide (key a = k) := by
    conv_lhs => rw [← List.take_append_drop (position key k l) l]
    rw [List.find?_append, hskip, Option.none_or]
  have hhead : l[position key k l]? = (l.drop (position key k l)).head? := by
    rw [List.head?_drop]
  have hrest : Sorted key (l.drop (position key k l)) := h.sublist (List.drop_sublist _ _)
  rw [hsplit, find, hhead]
  cases hdrop : l.drop (position key k l) with
  | nil => rfl
  | cons b rest =>
    rw [hdrop] at hlarge hrest
    rw [List.head?_cons, List.find?_cons]
    by_cases hb : key b = k
    · simp [hb]
    · -- the first entry that is not smaller is larger, and so are all behind it
      have hlt : k < key b := lt_of_le_of_ne (hlarge b List.mem_cons_self) (Ne.symm hb)
      have hnone : rest.find? (fun a => decide (key a = k)) = none := by
        rw [List.find?_eq_none]
        intro a ha
        simpa using (hlt.trans_le (List.rel_of_pairwise_cons hrest ha)).ne'
      simp [hb, hnone]

/-- Entries with the same key are the same. -/
theorem Ascending.eq_of_key_eq (h : Ascending key l) (ha : a ∈ l) (hb : b ∈ l)
    (heq : key a = key b) : a = b := by
  obtain ⟨i, hi, rfl⟩ := List.mem_iff_getElem.mp ha
  obtain ⟨j, hj, rfl⟩ := List.mem_iff_getElem.mp hb
  rcases lt_trichotomy i j with hij | rfl | hji
  · exact absurd heq (List.pairwise_iff_getElem.mp h i j hi hj hij).ne
  · rfl
  · exact absurd heq (List.pairwise_iff_getElem.mp h j i hj hi hji).ne'

theorem Ascending.nodup (h : Ascending key l) : l.Nodup :=
  h.imp fun hlt heq => hlt.ne (congrArg key heq)

/-- The entry found is the one with the key. -/
theorem Ascending.find_eq_some_iff (h : Ascending key l) :
    find key k l = some a ↔ a ∈ l ∧ key a = k := by
  rw [h.sorted.find_eq]
  constructor
  · intro hfind
    exact ⟨List.mem_of_find?_eq_some hfind, by simpa using List.find?_some hfind⟩
  · rintro ⟨ha, rfl⟩
    cases hfind : l.find? (fun b => decide (key b = key a)) with
    | none => simpa using List.find?_eq_none.mp hfind a ha
    | some b =>
      have hb : key b = key a := by simpa using List.find?_some hfind
      rw [h.eq_of_key_eq (List.mem_of_find?_eq_some hfind) ha hb]

/-- No entry is found for a key exactly when there is none. -/
theorem Ascending.find_eq_none_iff (h : Ascending key l) :
    find key k l = none ↔ ∀ a ∈ l, key a ≠ k := by
  rw [h.sorted.find_eq, List.find?_eq_none]
  simp

/-! ### Insertion -/

theorem position_le_length (k : κ) (h : Sorted key l) : position key k l ≤ l.length := by
  rw [position, lowerBound_eq (h.partitioned k)]
  exact List.findIdx_le_length

theorem mem_insert (h : Sorted key l) : b ∈ insert key a l ↔ b = a ∨ b ∈ l :=
  List.mem_insertIdx (position_le_length _ h)

theorem insertIdx_eq_append (a : α) {n : ℕ} (h : n ≤ l.length) :
    l.insertIdx n a = l.take n ++ a :: l.drop n := by
  induction l generalizing n with
  | nil => simp_all
  | cons b l ih =>
    cases n with
    | zero => rfl
    | succ n => simp [List.insertIdx_succ_cons, ih (Nat.le_of_succ_le_succ h)]

/-- A new key keeps the order. -/
theorem Ascending.insert (h : Ascending key l) (hnew : find key (key a) l = none) :
    Ascending key (SortedList.insert key a l) := by
  obtain ⟨hsmall, hlarge⟩ := h.sorted.split (key a)
  have hne := h.find_eq_none_iff.mp hnew
  rw [SortedList.insert, insertIdx_eq_append a (position_le_length _ h.sorted)]
  refine List.pairwise_append.mpr ⟨h.sublist (List.take_sublist _ _),
    List.pairwise_cons.mpr ⟨fun b hb => ?_, h.sublist (List.drop_sublist _ _)⟩, fun b hb c hc => ?_⟩
  · exact lt_of_le_of_ne (hlarge b hb) (hne b (List.mem_of_mem_drop hb)).symm
  · have hba := hsmall b hb
    rcases List.mem_cons.mp hc with rfl | hc
    · exact hba
    · exact hba.trans_le (hlarge c hc)

/-- Inserting changes what is found for one key. -/
theorem Ascending.find_insert (h : Ascending key l) (hnew : find key (key a) l = none) (k : κ) :
    find key k (SortedList.insert key a l) = if key a = k then some a else find key k l := by
  ext b
  rw [(h.insert hnew).find_eq_some_iff, mem_insert h.sorted]
  split_ifs with hk
  · subst hk
    have hne := h.find_eq_none_iff.mp hnew
    constructor
    · rintro ⟨rfl | hb, heq⟩
      · rfl
      · exact absurd heq (hne b hb)
    · rintro ⟨⟩
      exact ⟨.inl rfl, rfl⟩
  · rw [h.find_eq_some_iff]
    constructor
    · rintro ⟨rfl | hb, heq⟩
      · exact absurd heq hk
      · exact ⟨hb, heq⟩
    · exact fun ⟨hb, heq⟩ => ⟨.inr hb, heq⟩

/-! ### Removal -/

/-- Erasing keeps the order. -/
theorem Ascending.erase (h : Ascending key l) (k : κ) :
    Ascending key (SortedList.erase key k l) := by
  unfold SortedList.erase
  split_ifs
  · exact h.sublist (List.eraseIdx_sublist _ _)
  · exact h

/-- Erasing removes the entry of the key. -/
theorem Ascending.mem_erase (h : Ascending key l) :
    b ∈ SortedList.erase key k l ↔ b ∈ l ∧ key b ≠ k := by
  unfold SortedList.erase
  split_ifs with hfind
  · obtain ⟨a, ha⟩ := Option.isSome_iff_exists.mp hfind
    obtain ⟨hget, hka⟩ := Option.filter_eq_some_iff.mp ha
    have hka : key a = k := by simpa using hka
    rw [List.mem_eraseIdx_iff_getElem?]
    constructor
    · rintro ⟨i, hi, hb⟩
      have hmem := List.mem_of_getElem? hb
      refine ⟨hmem, fun heq => hi ?_⟩
      -- keys are distinct, so the element with key `k` is the one erased
      have hsame := h.eq_of_key_eq hmem (List.mem_of_getElem? hget) (heq.trans hka.symm)
      have hlt := (List.getElem?_eq_some_iff.mp hb).1
      exact (List.getElem?_inj hlt h.nodup).mp (hb.trans (hsame ▸ hget.symm))
    · rintro ⟨hb, hne⟩
      obtain ⟨i, hi⟩ := List.mem_iff_getElem?.mp hb
      refine ⟨i, ?_, hi⟩
      rintro rfl
      rw [hget, Option.some.injEq] at hi
      exact hne (hi ▸ hka)
  · have hnone : find key k l = none := by simpa using hfind
    have hne := h.find_eq_none_iff.mp hnone
    exact ⟨fun hb => ⟨hb, hne b hb⟩, And.left⟩

/-- Erasing changes what is found for one key. -/
theorem Ascending.find_erase (h : Ascending key l) (k k' : κ) :
    find key k' (SortedList.erase key k l) = if k = k' then none else find key k' l := by
  ext b
  rw [(h.erase k).find_eq_some_iff, h.mem_erase]
  split_ifs with hk
  · subst hk
    simp
  · rw [h.find_eq_some_iff]
    constructor
    · exact fun ⟨⟨hb, _⟩, heq⟩ => ⟨hb, heq⟩
    · rintro ⟨hb, rfl⟩
      exact ⟨⟨hb, fun heq => hk heq.symm⟩, rfl⟩

end Table

end SortedList
