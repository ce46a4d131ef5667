import Cob.Bytes

/-!
# Definitions

`Definitions` is `std::flat_map<std::string_view, std::string_view>`: key/value pairs sorted by
key, each key once. `emplace` keeps an existing value, `insertOrAssign` replaces it.

The readers of the executor are here too: `getDefinitionOf` and the linker and archiver vectors,
which fall back to other definitions when theirs is empty.
-/

namespace Cob

/-- A sorted map from definition names to values. -/
structure Definitions where
  /-- The pairs in key order. -/
  entries : List (Bytes × Bytes)
  /-- Keys are strictly increasing. -/
  sorted : entries.Pairwise fun a b => a.1 < b.1

namespace Definitions

/-- Maps with the same entries are equal. -/
theorem ext {d e : Definitions} (h : d.entries = e.entries) : d = e := by
  cases d
  cases e
  congr

instance : DecidableEq Definitions := fun d e =>
  decidable_of_iff (d.entries = e.entries) ⟨ext, congrArg _⟩

/-- The map without entries. -/
def empty : Definitions := ⟨[], List.Pairwise.nil⟩

/-- `find`. -/
def find (d : Definitions) (key : Bytes) : Option Bytes := d.entries.lookup key

/-- The entries with `key` inserted in order, `merge old new` replacing the value `old` of a key
already there. -/
def upsert (merge : Bytes → Bytes → Bytes) (key value : Bytes) :
    List (Bytes × Bytes) → List (Bytes × Bytes)
  | [] => [(key, value)]
  | (k, v) :: rest =>
    if key < k then (key, value) :: (k, v) :: rest
    else if key = k then (k, merge v value) :: rest
    else (k, v) :: upsert merge key value rest

section Upsert

variable (merge : Bytes → Bytes → Bytes) (key value : Bytes)

/-- The keys after `upsert` are the old ones and the inserted one. -/
theorem mem_upsert_fst {l : List (Bytes × Bytes)} {p : Bytes × Bytes}
    (h : p ∈ upsert merge key value l) : p.1 = key ∨ ∃ q ∈ l, q.1 = p.1 := by
  induction l with
  | nil =>
    obtain rfl : p = (key, value) := by simpa [upsert] using h
    exact .inl rfl
  | cons a l ih =>
    unfold upsert at h
    split_ifs at h with hlt heq
    · rcases List.mem_cons.mp h with rfl | h
      · exact .inl rfl
      · exact .inr ⟨p, h, rfl⟩
    · rcases List.mem_cons.mp h with rfl | h
      · exact .inl heq.symm
      · exact .inr ⟨p, List.mem_cons_of_mem _ h, rfl⟩
    · rcases List.mem_cons.mp h with rfl | h
      · exact .inr ⟨_, List.mem_cons_self, rfl⟩
      · rcases ih h with h | ⟨q, hq, he⟩
        · exact .inl h
        · exact .inr ⟨q, List.mem_cons_of_mem _ hq, he⟩

/-- `upsert` keeps the keys in order. -/
theorem pairwise_upsert {l : List (Bytes × Bytes)} (h : l.Pairwise fun a b => a.1 < b.1) :
    (upsert merge key value l).Pairwise fun a b => a.1 < b.1 := by
  induction l with
  | nil => simp [upsert]
  | cons a l ih =>
    obtain ⟨ha, hl⟩ := List.pairwise_cons.mp h
    unfold upsert
    split_ifs with hlt heq
    · refine List.pairwise_cons.mpr ⟨fun b hb => ?_, h⟩
      rcases List.mem_cons.mp hb with rfl | hb
      · exact hlt
      · exact hlt.trans (ha b hb)
    · exact List.pairwise_cons.mpr ⟨ha, hl⟩
    · refine List.pairwise_cons.mpr ⟨fun b hb => ?_, ih hl⟩
      rcases mem_upsert_fst merge key value hb with hk | ⟨q, hq, hk⟩
      · exact hk ▸ lt_of_le_of_ne (not_lt.mp hlt) (Ne.symm heq)
      · exact hk ▸ ha q hq

/-- What `upsert` leaves under each key of a sorted list. -/
theorem lookup_upsert {l : List (Bytes × Bytes)} (h : l.Pairwise fun a b => a.1 < b.1)
    (k : Bytes) :
    (upsert merge key value l).lookup k =
      if k = key then some ((l.lookup key).elim value fun v => merge v value)
      else l.lookup k := by
  induction l with
  | nil =>
    by_cases hk : k = key
    · simp [upsert, hk]
    · simp [upsert, hk, List.lookup_cons, beq_false_of_ne hk]
  | cons a l ih =>
    obtain ⟨a₁, a₂⟩ := a
    obtain ⟨ha, hl⟩ := List.pairwise_cons.mp h
    rw [upsert]
    by_cases hlt : key < a₁
    · -- inserted in front: no entry of the sorted list has the key
      have hnone : ((a₁, a₂) :: l).lookup key = none := by
        refine List.lookup_eq_none_iff.mpr fun b hb => ?_
        rcases List.mem_cons.mp hb with rfl | hb
        · simpa using hlt.ne
        · simpa using (hlt.trans (ha b hb)).ne
      rw [if_pos hlt, hnone]
      by_cases hk : k = key
      · simp [hk]
      · simp [List.lookup_cons, beq_false_of_ne hk, hk]
    · rw [if_neg hlt]
      by_cases heq : key = a₁
      · subst heq
        rw [if_pos rfl]
        by_cases hk : k = key
        · simp [hk]
        · simp [List.lookup_cons, beq_false_of_ne hk, hk]
      · rw [if_neg heq]
        by_cases hka : k = a₁
        · subst hka
          simp [Ne.symm heq]
        · simp [List.lookup_cons, beq_false_of_ne hka, beq_false_of_ne heq, ih hl]

end Upsert

/-- `emplace`: a key already there keeps its value. -/
def emplace (d : Definitions) (key value : Bytes) : Definitions :=
  ⟨upsert (fun old _ => old) key value d.entries, pairwise_upsert _ _ _ d.sorted⟩

/-- `insert_or_assign`: a key already there gets the new value. -/
def insertOrAssign (d : Definitions) (key value : Bytes) : Definitions :=
  ⟨upsert (fun _ new => new) key value d.entries, pairwise_upsert _ _ _ d.sorted⟩

@[simp]
theorem find_empty (key : Bytes) : empty.find key = none := rfl

theorem find_emplace (d : Definitions) (key value k : Bytes) :
    (d.emplace key value).find k =
      if k = key then some ((d.find key).getD value) else d.find k := by
  rw [find, emplace, lookup_upsert _ _ _ d.sorted]
  simp only [find]
  cases d.entries.lookup key <;> rfl

theorem find_insertOrAssign (d : Definitions) (key value k : Bytes) :
    (d.insertOrAssign key value).find k = if k = key then some value else d.find k := by
  rw [find, insertOrAssign, lookup_upsert _ _ _ d.sorted]
  simp only [find]
  cases d.entries.lookup key <;> rfl

/-- The definitions with several of them replaced, one after the other. -/
def override (d : Definitions) (overrides : List (Bytes × Bytes)) : Definitions :=
  overrides.foldl (fun d o => d.insertOrAssign o.1 o.2) d

theorem override_append (d : Definitions) (os os' : List (Bytes × Bytes)) :
    d.override (os ++ os') = (d.override os).override os' := List.foldl_append ..

theorem lookup_cons (a : Bytes × Bytes) (l : List (Bytes × Bytes)) (k : Bytes) :
    (a :: l).lookup k = if k = a.1 then some a.2 else l.lookup k := by
  obtain ⟨a₁, a₂⟩ := a
  by_cases hk : k = a₁
  · simp [hk]
  · simp [List.lookup_cons, beq_false_of_ne hk, hk]

/-- The value of a key after the overrides: that of its last override, and the old one if there
is none. -/
theorem find_override (d : Definitions) (os : List (Bytes × Bytes)) (k : Bytes) :
    (d.override os).find k = (os.reverse.lookup k).or (d.find k) := by
  unfold override
  induction os generalizing d with
  | nil => rfl
  | cons o os ih =>
    rw [List.foldl_cons, ih, List.reverse_cons, List.lookup_append, find_insertOrAssign]
    by_cases hk : k = o.1
    · have hsome : List.lookup k [o] = some o.2 := by rw [lookup_cons, if_pos hk]
      rw [if_pos hk, hsome]
      cases os.reverse.lookup k <;> rfl
    · have hnone : List.lookup k [o] = none := by rw [lookup_cons, if_neg hk, List.lookup_nil]
      simp [hk, hnone]

/-- A sorted list has nothing under a key before its first. -/
theorem lookup_eq_none_of_lt {a : Bytes × Bytes} {l : List (Bytes × Bytes)} {k : Bytes}
    (h : (a :: l).Pairwise fun a b => a.1 < b.1) (hk : k < a.1) : (a :: l).lookup k = none := by
  refine List.lookup_eq_none_iff.mpr fun b hb => ?_
  rcases List.mem_cons.mp hb with rfl | hb
  · simpa using hk.ne
  · simpa using (hk.trans ((List.pairwise_cons.mp h).1 b hb)).ne

/-- Sorted lists with the same value under every key are equal. -/
theorem eq_of_lookup {l l' : List (Bytes × Bytes)} (h : l.Pairwise fun a b => a.1 < b.1)
    (h' : l'.Pairwise fun a b => a.1 < b.1) (heq : ∀ k, l.lookup k = l'.lookup k) : l = l' := by
  -- induction on both lists: the smaller first key has a value in one list only
  induction l generalizing l' with
  | nil =>
    cases l' with
    | nil => rfl
    | cons b l' =>
      have hb := heq b.1
      simp [lookup_cons] at hb
  | cons a l ih =>
    cases l' with
    | nil =>
      have ha := heq a.1
      simp [lookup_cons] at ha
    | cons b l' =>
      have hfirst : a.1 = b.1 := by
        rcases lt_trichotomy a.1 b.1 with hlt | hsame | hlt
        · have ha := heq a.1
          simp [lookup_cons a, lookup_eq_none_of_lt h' hlt] at ha
        · exact hsame
        · have hb := heq b.1
          simp [lookup_cons b, lookup_eq_none_of_lt h hlt] at hb
      obtain rfl : a = b := by
        have hvalue := heq a.1
        simp only [lookup_cons, if_pos, hfirst, Option.some.injEq] at hvalue
        exact Prod.ext hfirst hvalue
      obtain ⟨ha, hl⟩ := List.pairwise_cons.mp h
      obtain ⟨hb, hl'⟩ := List.pairwise_cons.mp h'
      have hnone : ∀ l : List (Bytes × Bytes), (∀ b ∈ l, a.1 < b.1) → l.lookup a.1 = none :=
        fun l hlt => List.lookup_eq_none_iff.mpr fun b hb => by simpa using (hlt b hb).ne
      rw [ih hl hl' fun k => ?_]
      by_cases hk : k = a.1
      · rw [hk, hnone l ha, hnone l' hb]
      · simpa [lookup_cons, hk] using heq k

/-- Maps with the same value under every key are equal. -/
theorem ext_find {d e : Definitions} (h : ∀ k, d.find k = e.find k) : d = e :=
  ext (eq_of_lookup d.sorted e.sorted h)

/-- The value of a key after several definitions were emplaced: the old one, and that of its first
definition if there is none. -/
theorem find_foldl_emplace (d : Definitions) (l : List (Bytes × Bytes)) (k : Bytes) :
    (l.foldl (fun d e => d.emplace e.1 e.2) d).find k = (d.find k).or (l.lookup k) := by
  induction l generalizing d with
  | nil => simp
  | cons e l ih =>
    rw [List.foldl_cons, ih, find_emplace, lookup_cons]
    by_cases hk : k = e.1
    · subst hk
      cases d.find e.1 <;> simp
    · simp [hk]

/-- Emplacing several definitions changes nothing exactly when all their keys are there. -/
theorem foldl_emplace_eq_self_iff (d : Definitions) (l : List (Bytes × Bytes)) :
    l.foldl (fun d e => d.emplace e.1 e.2) d = d ↔ ∀ e ∈ l, (d.find e.1).isSome := by
  constructor
  · intro h e he
    have hfind := find_foldl_emplace d l e.1
    rw [h] at hfind
    -- the list has a value for the key
    have hsome : (l.lookup e.1).isSome := by
      rw [Option.isSome_iff_ne_none]
      intro hnone
      simpa using List.lookup_eq_none_iff.mp hnone e he
    rw [hfind, Option.isSome_or, hsome, Bool.or_true]
  · intro h
    refine ext_find fun k => ?_
    rw [find_foldl_emplace]
    cases hk : d.find k with
    | some v => rfl
    | none =>
      rw [Option.none_or, List.lookup_eq_none_iff]
      intro e he
      have hne : k ≠ e.1 := by
        rintro rfl
        have hsome := h e he
        simp [hk] at hsome
      simpa using hne

/-- Overriding more definitions first does not matter when each of them has its old value or is
overridden again. -/
theorem override_override_eq_iff (d : Definitions) (os os' : List (Bytes × Bytes)) :
    (d.override os).override os' = d.override os' ↔
      ∀ k, k ∉ os'.map Prod.fst → (d.override os).find k = d.find k := by
  have hkeys : ∀ k, os'.reverse.lookup k = none ↔ k ∉ os'.map Prod.fst := by
    intro k
    rw [List.lookup_eq_none_iff]
    simp only [List.mem_reverse, List.mem_map, not_exists, not_and]
    exact forall₂_congr fun o _ => by simpa using ne_comm
  constructor
  · intro h k hk
    have hfind : ((d.override os).override os').find k = (d.override os').find k := by rw [h]
    simpa only [find_override _ os', (hkeys k).mpr hk, Option.none_or] using hfind
  · intro h
    refine ext_find fun k => ?_
    rw [find_override _ os', find_override _ os']
    cases hlookup : os'.reverse.lookup k with
    | some v => rfl
    | none => rw [h k ((hkeys k).mp hlookup)]

/-- `COBBuilder::getDefinitionOf<std::string>`: empty when there is no definition. -/
def getDefinitionOf (d : Definitions) (key : Bytes) : Bytes := (d.find key).getD []

/-- `COBBuilder::getDefinitionOf<std::vector<std::string>>`. -/
def getDefinitionVec (d : Definitions) (key : Bytes) : List Bytes :=
  Bytes.splitSpaces (d.getDefinitionOf key)

/-- `COBBuilder::getLinkerVec`: the C++ compiler links when no linker is defined. -/
def getLinkerVec (d : Definitions) (cxxVec : List Bytes) : List Bytes :=
  let linkerVec := d.getDefinitionVec (ascii "linker")
  if linkerVec = [] ∨ linkerVec = [[]] then cxxVec else linkerVec

/-- `COBBuilder::getArchiverVec`, with the Linux default. -/
def getArchiverVec (d : Definitions) : List Bytes :=
  let archiverVec := d.getDefinitionVec (ascii "archiver")
  if archiverVec = [] ∨ archiverVec = [[]] then [ascii "ar"] else archiverVec

end Definitions

end Cob
