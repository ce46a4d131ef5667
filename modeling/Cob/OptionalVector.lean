import Cob.Graph.BuildGraph
import Cob.Lib.Fueled
import Mathlib.Algebra.Ring.Nat
import Mathlib.Data.List.Induction

/-!
# optional_vector

The container of the opaque inputs and the dependency-file inputs of a step: null, or one
allocation with a header and room for elements behind it. The header holds 32-bit numbers, so that
doubling a capacity may wrap. Elements are views of 16 bytes. Allocations succeed.

The module introduces:

* `OptionalVector` — the container with its members, which may leave the room they have;
* `Growable` — what it is for: a list with a capacity that has no bound;
* `refines_call` — one member does to the container what it does to the list, unless a capacity of
  `2^32` would be needed;
* `inside_iff` — the sequences of calls that stay inside the memory;
* `pushed_iff` — how many elements can be pushed.
-/

namespace Cob

open Fueled

variable {E : Type}

/-- What `header_` points to. -/
structure OptionalVector.Block (E : Type) where
  capacity : UInt32
  size : UInt32
  /-- the room behind the header, with the elements that were constructed there -/
  cells : List (Option E)

/-- `optional_vector`. -/
structure OptionalVector (E : Type) where
  header : Option (OptionalVector.Block E)

namespace OptionalVector

/-! ### The members -/

/-- `header_size() + (new_cap * sizeof(Element_T))`. -/
def allocationSize (newCap : UInt64) : UInt64 := 8 + newCap * 16

/-- The number of elements that fit into an allocation. -/
def room (newCap : UInt64) : ℕ := ((allocationSize newCap).toNat - 8) / 16

/-- `realloc`: what fits is kept. -/
def resize (cells : List (Option E)) (n : ℕ) : List (Option E) :=
  (cells ++ List.replicate (n - cells.length) none).take n

namespace Block

/-- `reserve` of a null vector. -/
def create (newCap : UInt64) : Block E :=
  ⟨newCap.toUInt32, 0, List.replicate (room newCap) none⟩

/-- `reserve` of a vector with a header. -/
def reserve (b : Block E) (newCap : UInt64) : Block E :=
  if newCap ≤ b.capacity.toUInt64 then b
  else ⟨newCap.toUInt32, b.size, resize b.cells (room newCap)⟩

/-- The second `if` of `emplace_back`. The product is one of 32-bit numbers. -/
def grow (b : Block E) : Block E :=
  if b.size ≥ b.capacity then
    b.reserve (if b.capacity = 0 then 4 else (b.capacity * 2).toUInt64)
  else b

/-- The rest of `emplace_back`. -/
def construct (b : Block E) (e : E) : Fueled (Block E) :=
  if b.size.toNat < b.cells.length then
    .ok { b with size := b.size + 1, cells := b.cells.set b.size.toNat (some e) }
  else .error .outOfBounds

/-- `pop_back` of a vector with a header. -/
def popBack (b : Block E) : Block E := if b.size > 0 then { b with size := b.size - 1 } else b

end Block

/-- The default constructor. -/
def empty : OptionalVector E := ⟨none⟩

variable (v : OptionalVector E)

/-- `has_value`. -/
def hasValue : Bool := v.header.isSome

/-- `size`. -/
def size : UInt64 := (v.header.map fun b => b.size.toUInt64).getD 0

/-- `reserve`. -/
def reserve (newCap : UInt64) : OptionalVector E :=
  match v.header with
  | some b => ⟨some (b.reserve newCap)⟩
  | none => ⟨some (.create newCap)⟩

/-- `emplace`. -/
def emplace : OptionalVector E := if v.hasValue then v else v.reserve 4

/-- `emplace_back`, and `push_back`. -/
def emplaceBack (e : E) : Fueled (OptionalVector E) := do
  let b ← ((v.header.getD (.create 4)).grow).construct e
  pure ⟨some b⟩

/-- `pop_back`. -/
def popBack : OptionalVector E := ⟨v.header.map Block.popBack⟩

/-- `clear`. -/
def clear (_ : OptionalVector E) : OptionalVector E := ⟨none⟩

/-- `operator[]`, which checks nothing. -/
def get (index : UInt64) : Fueled E :=
  match (v.header.bind fun b => b.cells[index.toNat]?).join with
  | some e => .ok e
  | none => .error .outOfBounds

/-- `at`: none stands for `std::out_of_range`. -/
def getAt (index : UInt64) : Fueled (Option E) :=
  if index ≥ v.size then pure none else some <$> v.get index

/-- What a loop from `begin` to `end` reads. -/
def toList : Fueled (List E) := (List.range v.size.toNat).mapM fun i => v.get (.ofNat i)

end OptionalVector

/-! ### The list it stands for -/

/-- A list with room for so many elements. -/
structure Growable (E : Type) where
  items : List E
  capacity : ℕ

namespace Growable

/-- A list with the element at its end, and room for twice as many where there was none left. -/
def push (g : Growable E) (e : E) : Growable E where
  items := g.items ++ [e]
  capacity :=
    if g.items.length < g.capacity then g.capacity
    else if g.capacity = 0 then 4 else 2 * g.capacity

/-- Room for at least so many. -/
def reserve (g : Growable E) (n : ℕ) : Growable E := { g with capacity := max g.capacity n }

end Growable

/-- A call that changes a vector. -/
inductive Op (E : Type) where
  | reserve (newCap : UInt64)
  | emplace
  | pushBack (e : E)
  | popBack
  | clear

namespace Op

/-- The call. -/
def run (v : OptionalVector E) : Op E → Fueled (OptionalVector E)
  | .reserve newCap => pure (v.reserve newCap)
  | .emplace => pure v.emplace
  | .pushBack e => v.emplaceBack e
  | .popBack => pure v.popBack
  | .clear => pure v.clear

/-- What it does to a list that may be missing. -/
def apply (o : Option (Growable E)) : Op E → Option (Growable E)
  | .reserve newCap => some ((o.getD ⟨[], 0⟩).reserve newCap.toNat)
  | .emplace => some (o.getD ⟨[], 4⟩)
  | .pushBack e => some ((o.getD ⟨[], 4⟩).push e)
  | .popBack => o.map fun g => { g with items := g.items.dropLast }
  | .clear => none

/-- The capacity that is asked for fits into the header. -/
def Fits : Op E → Prop
  | .reserve newCap => newCap.toNat < 2 ^ 32
  | _ => True

end Op

namespace OptionalVector

section Refinement

variable {b : Block E} {g : Growable E} {v : OptionalVector E} {o : Option (Growable E)}
  {newCap : UInt64}

/-- A block with the elements of a list at its front, and the list's capacity. -/
structure Block.Holds (b : Block E) (g : Growable E) : Prop where
  size_eq : b.size.toNat = g.items.length
  capacity_eq : b.capacity.toNat = g.capacity
  length_eq : b.cells.length = g.capacity
  prefix_cells : g.items.map some <+: b.cells

/-- The vector stands for the list. -/
def Holds (v : OptionalVector E) (o : Option (Growable E)) : Prop :=
  match v.header, o with
  | some b, some g => b.Holds g
  | none, none => True
  | _, _ => False

theorem Block.Holds.length_le (h : b.Holds g) : g.items.length ≤ g.capacity := by
  have hle := h.prefix_cells.length_le
  rwa [List.length_map, h.length_eq] at hle

/-- An allocation has room for what was asked for. -/
theorem room_eq (h : newCap.toNat < 2 ^ 32) : room newCap = newCap.toNat := by
  rw [room, allocationSize, UInt64.toNat_add, UInt64.toNat_mul]
  simp only [UInt64.reduceToNat]
  omega

theorem toNat_toUInt32 (h : newCap.toNat < 2 ^ 32) : newCap.toUInt32.toNat = newCap.toNat := by
  rw [UInt64.toNat_toUInt32]
  exact Nat.mod_eq_of_lt h

@[simp]
theorem length_resize (cells : List (Option E)) (n : ℕ) : (resize cells n).length = n := by
  rw [resize, List.length_take, List.length_append, List.length_replicate]
  omega

/-- Growing keeps everything. -/
theorem prefix_resize {cells : List (Option E)} {n : ℕ} (h : cells.length ≤ n) :
    cells <+: resize cells n := by
  rw [resize, List.take_of_length_le (by simp; omega)]
  exact List.prefix_append _ _

theorem Block.holds_create (h : newCap.toNat < 2 ^ 32) :
    (Block.create newCap : Block E).Holds ⟨[], newCap.toNat⟩ where
  size_eq := rfl
  capacity_eq := toNat_toUInt32 h
  length_eq := by rw [Block.create, List.length_replicate, room_eq h]
  prefix_cells := List.nil_prefix

theorem Block.Holds.reserve (h : b.Holds g) (newCap : UInt64) (hfits : newCap.toNat < 2 ^ 32) :
    (b.reserve newCap).Holds (g.reserve newCap.toNat) := by
  rw [Block.reserve]
  split_ifs with hle
  · have hle : newCap.toNat ≤ g.capacity := by
      rw [← h.capacity_eq]
      simpa using UInt64.le_iff_toNat_le.mp hle
    rw [Growable.reserve, max_eq_left hle]
    exact h
  · have hlt : g.capacity < newCap.toNat := by
      rw [← h.capacity_eq]
      simpa using UInt64.lt_iff_toNat_lt.mp (UInt64.not_le.mp hle)
    have hmax : max g.capacity newCap.toNat = newCap.toNat := max_eq_right hlt.le
    refine ⟨h.size_eq, ?_, ?_, ?_⟩
    · exact (toNat_toUInt32 hfits).trans hmax.symm
    · simp only [length_resize, room_eq hfits, Growable.reserve, hmax]
    · have hroom : b.cells.length ≤ room newCap := by rw [room_eq hfits, h.length_eq]; exact hlt.le
      exact h.prefix_cells.trans (prefix_resize hroom)

/-- Growing makes room for one more, unless the capacity cannot be doubled. -/
theorem Block.Holds.grow (h : b.Holds g) (e : E) (hfits : (g.push e).capacity < 2 ^ 32) :
    b.grow.Holds ⟨g.items, (g.push e).capacity⟩ := by
  rw [Block.grow, Growable.push]
  rw [Growable.push] at hfits
  have hsize := h.size_eq
  have hcapacity := h.capacity_eq
  simp only at hfits ⊢
  by_cases hless : g.items.length < g.capacity
  · have hnot : ¬ b.size ≥ b.capacity := by
      rw [ge_iff_le, UInt32.le_iff_toNat_le]
      omega
    rw [if_neg hnot, if_pos hless]
    exact h
  · have hfull : b.size ≥ b.capacity := by
      rw [ge_iff_le, UInt32.le_iff_toNat_le]
      omega
    rw [if_neg hless] at hfits
    rw [if_pos hfull, if_neg hless]
    by_cases hzero : b.capacity = 0
    · have hzero' : g.capacity = 0 := by rw [← hcapacity, hzero]; rfl
      rw [if_pos hzero, if_pos hzero']
      have hreserve := h.reserve 4 (by decide)
      rwa [Growable.reserve, hzero'] at hreserve
    · have hzero' : g.capacity ≠ 0 := by
        rw [← hcapacity]
        exact fun heq => hzero (UInt32.toNat_inj.mp heq)
      rw [if_neg hzero'] at hfits
      rw [if_neg hzero, if_neg hzero']
      -- the doubling does not wrap below 2^32
      have htwice : (b.capacity * 2).toUInt64.toNat = 2 * g.capacity := by
        rw [UInt32.toNat_toUInt64, UInt32.toNat_mul, hcapacity]
        simp only [UInt32.reduceToNat]
        omega
      have hreserve := h.reserve (b.capacity * 2).toUInt64 (by omega)
      rwa [Growable.reserve, htwice, max_eq_right (by omega)] at hreserve

/-- Where the capacity cannot be doubled, nothing grows. -/
theorem Block.Holds.grow_eq (h : b.Holds g) (e : E) (hfits : ¬ (g.push e).capacity < 2 ^ 32) :
    b.grow = b ∧ g.capacity ≤ g.items.length := by
  have hsize := h.size_eq
  have hcapacity := h.capacity_eq
  have hword := b.capacity.toNat_lt
  simp only [Growable.push] at hfits
  split_ifs at hfits with hless hzero
  · omega
  · omega
  · have hwraps : (b.capacity * 2).toUInt64 ≤ b.capacity.toUInt64 := by
      rw [UInt64.le_iff_toNat_le, UInt32.toNat_toUInt64, UInt32.toNat_toUInt64, UInt32.toNat_mul]
      simp only [UInt32.reduceToNat]
      omega
    have hne : b.capacity ≠ 0 := by
      rintro heq
      rw [heq] at hcapacity
      exact hzero hcapacity.symm
    refine ⟨?_, by omega⟩
    rw [Block.grow, if_neg hne, Block.reserve, if_pos hwraps, ite_self]

/-- A new element goes behind the others. -/
theorem Block.Holds.construct {n : ℕ} (h : b.Holds ⟨g.items, n⟩) (e : E)
    (hless : g.items.length < n) :
    Returns (b.construct e) fun b' => b'.Holds ⟨g.items ++ [e], n⟩ := by
  have hsize := h.size_eq
  have hlength := h.length_eq
  have hcapacity := h.capacity_eq
  have hword := b.capacity.toNat_lt
  simp only at hsize hlength hcapacity
  rw [Block.construct, if_pos (by omega)]
  refine returns_pure ⟨?_, hcapacity, ?_, ?_⟩
  · show (b.size + 1).toNat = (g.items ++ [e]).length
    rw [UInt32.toNat_add, List.length_append, hsize]
    simp only [UInt32.reduceToNat, List.length_singleton]
    omega
  · simpa using hlength
  · obtain ⟨rest, hcells⟩ := h.prefix_cells
    -- the cell behind the items exists, since the size is below the capacity
    cases rest with
    | nil =>
      have hlen := congrArg List.length hcells
      simp only [List.append_nil, List.length_map] at hlen
      omega
    | cons c rest =>
      refine ⟨rest, ?_⟩
      show _ = b.cells.set b.size.toNat (some e)
      rw [hsize, ← hcells, List.set_append_right _ _ (by simp)]
      simp

/-- `push_back` either does what it does to the list or leaves the memory. -/
theorem Block.Holds.push (h : b.Holds g) (e : E) :
    ((g.push e).capacity < 2 ^ 32 →
      Returns (b.grow.construct e) fun b' => b'.Holds (g.push e)) ∧
    (¬ (g.push e).capacity < 2 ^ 32 → b.grow.construct e = .error .outOfBounds) := by
  refine ⟨fun hfits => ?_, fun hfits => ?_⟩
  · have hgrow := h.grow e hfits
    have hle := h.length_le
    have hless : g.items.length < (g.push e).capacity := by
      rw [Growable.push]
      simp only
      split_ifs <;> omega
    exact hgrow.construct e hless
  · obtain ⟨hgrow, hfull⟩ := h.grow_eq e hfits
    rw [hgrow, Block.construct, if_neg]
    rw [h.size_eq, h.length_eq]
    omega

theorem Block.Holds.popBack (h : b.Holds g) :
    b.popBack.Holds { g with items := g.items.dropLast } := by
  have hsize := h.size_eq
  rw [Block.popBack]
  split_ifs with hpos
  · refine ⟨?_, h.capacity_eq, h.length_eq, ?_⟩
    · rw [List.length_dropLast, ← hsize]
      exact UInt32.toNat_sub_of_le _ _ (UInt32.le_iff_toNat_le.mpr hpos)
    · rw [List.map_dropLast]
      exact (List.dropLast_prefix _).trans h.prefix_cells
  · have hzero : b.size.toNat = 0 := by
      by_contra hne
      exact hpos (UInt32.lt_iff_toNat_lt.mpr (Nat.pos_of_ne_zero hne))
    have hnil : g.items = [] := List.eq_nil_of_length_eq_zero (hsize.symm.trans hzero)
    rw [hnil]
    refine ⟨?_, h.capacity_eq, h.length_eq, List.nil_prefix⟩
    simpa using hzero

/-! ### Sequences of calls -/

/-- The capacity of a list that may be missing. -/
def capacityOf (o : Option (Growable E)) : ℕ := (o.map Growable.capacity).getD 0

theorem Holds.cases (h : v.Holds o) :
    (v = ⟨none⟩ ∧ o = none) ∨ ∃ b g, v = ⟨some b⟩ ∧ o = some g ∧ b.Holds g := by
  obtain ⟨_ | b⟩ := v
  · cases o with
    | none => exact .inl ⟨rfl, rfl⟩
    | some g => exact h.elim
  · cases o with
    | none => exact h.elim
    | some g => exact .inr ⟨b, g, rfl, rfl, h⟩

/-- The header has room for the capacity. -/
theorem Holds.capacity_lt (h : v.Holds o) : capacityOf o < 2 ^ 32 := by
  obtain ⟨rfl, rfl⟩ | ⟨b, g, rfl, rfl, hb⟩ := h.cases
  · exact Nat.two_pow_pos 32
  · show g.capacity < 2 ^ 32
    rw [← hb.capacity_eq]
    exact b.capacity.toNat_lt

/-- The elements are pushed into the block that the vector has, or into a new one. -/
theorem Holds.pushBack (h : v.Holds o) (e : E) :
    (((o.getD ⟨[], 4⟩).push e).capacity < 2 ^ 32 →
      Returns (v.emplaceBack e) fun v' => v'.Holds (some ((o.getD ⟨[], 4⟩).push e))) ∧
    (¬ ((o.getD ⟨[], 4⟩).push e).capacity < 2 ^ 32 → v.emplaceBack e = .error .outOfBounds) := by
  have hblock : (v.header.getD (.create 4)).Holds (o.getD ⟨[], 4⟩) := by
    obtain ⟨rfl, rfl⟩ | ⟨b, g, rfl, rfl, hb⟩ := h.cases
    · exact Block.holds_create (by decide)
    · exact hb
  obtain ⟨hreturns, hstuck⟩ := hblock.push e
  rw [emplaceBack]
  refine ⟨fun hfits => ?_, fun hnot => ?_⟩
  · exact (hreturns hfits).bind fun b hb => returns_pure hb
  · rw [hstuck hnot]
    rfl

theorem Holds.reserve (h : v.Holds o) (hfits : newCap.toNat < 2 ^ 32) :
    (v.reserve newCap).Holds (some ((o.getD ⟨[], 0⟩).reserve newCap.toNat)) := by
  obtain ⟨rfl, rfl⟩ | ⟨b, g, rfl, rfl, hb⟩ := h.cases
  · show (Block.create newCap).Holds _
    rw [Option.getD_none, Growable.reserve, Nat.zero_max]
    exact Block.holds_create hfits
  · exact hb.reserve newCap hfits

theorem Holds.emplace (h : v.Holds o) : v.emplace.Holds (some (o.getD ⟨[], 4⟩)) := by
  obtain ⟨rfl, rfl⟩ | ⟨b, g, rfl, rfl, hb⟩ := h.cases
  · have hfour : (4 : UInt64).toNat < 2 ^ 32 := by decide
    exact Block.holds_create hfour
  · exact hb

theorem Holds.popBack (h : v.Holds o) :
    v.popBack.Holds (o.map fun g => { g with items := g.items.dropLast }) := by
  obtain ⟨rfl, rfl⟩ | ⟨b, g, rfl, rfl, hb⟩ := h.cases
  · exact trivial
  · exact Block.Holds.popBack hb

/-- The capacity fits into the header. -/
def FitsHeader (o : Option (Growable E)) : Prop := capacityOf o < 2 ^ 32

/-- The capacity of the list fits into the header after every call. -/
abbrev Bounded (o : Option (Growable E)) (ops : List (Op E)) : Prop :=
  Within Op.apply FitsHeader o ops

/-- A call does to the vector what it does to the list, unless a capacity of `2^32` would be
needed: then it leaves the memory. -/
theorem refines_call {op : Op E} (hfits : op.Fits) :
    Refines Op.run Op.apply Holds FitsHeader op := by
  intro v o h
  -- only a push may need more than the header can hold
  have hdone : ∀ {v' : OptionalVector E}, v'.Holds (op.apply o) → op.run v = pure v' →
      (FitsHeader (op.apply o) → Returns (op.run v) fun v' => v'.Holds (op.apply o)) ∧
        (¬ FitsHeader (op.apply o) → op.run v = .error .outOfBounds) := by
    intro v' hv' hrun
    refine ⟨fun _ => ?_, fun hnot => absurd hv'.capacity_lt hnot⟩
    rw [hrun]
    exact returns_pure hv'
  cases op with
  | reserve newCap => exact hdone (h.reserve hfits) rfl
  | emplace => exact hdone h.emplace rfl
  | pushBack e => exact h.pushBack e
  | popBack => exact hdone h.popBack rfl
  | clear =>
    have hclear : v.clear.Holds none := trivial
    exact hdone hclear rfl

/-! ### Reading -/

/-- The elements of a list that may be missing. -/
def itemsOf (o : Option (Growable E)) : List E := (o.map Growable.items).getD []

theorem Holds.hasValue (h : v.Holds o) : v.hasValue = o.isSome := by
  obtain ⟨rfl, rfl⟩ | ⟨b, g, rfl, rfl, hb⟩ := h.cases <;> rfl

theorem Holds.size (h : v.Holds o) : v.size.toNat = (itemsOf o).length := by
  obtain ⟨rfl, rfl⟩ | ⟨b, g, rfl, rfl, hb⟩ := h.cases
  · rfl
  · exact (UInt32.toNat_toUInt64 b.size).trans hb.size_eq

/-- `operator[]` reads an element that was pushed. -/
theorem Holds.get (h : v.Holds o) {index : UInt64} {e : E}
    (hget : (itemsOf o)[index.toNat]? = some e) : v.get index = .ok e := by
  obtain ⟨rfl, rfl⟩ | ⟨b, g, rfl, rfl, hb⟩ := h.cases
  · simp [itemsOf] at hget
  · obtain ⟨rest, hcells⟩ := hb.prefix_cells
    have hget : g.items[index.toNat]? = some e := hget
    have hcell : b.cells[index.toNat]? = some (some e) := by
      rw [← hcells, List.getElem?_append_left, List.getElem?_map, hget]
      · rfl
      · rw [List.length_map]
        exact (List.getElem?_eq_some_iff.mp hget).1
    simp [OptionalVector.get, hcell]

/-- `at` reads an element that was pushed, or throws. -/
theorem Holds.getAt (h : v.Holds o) (index : UInt64) :
    v.getAt index = .ok (itemsOf o)[index.toNat]? := by
  rw [OptionalVector.getAt]
  split_ifs with hout
  · rw [ge_iff_le, UInt64.le_iff_toNat_le, h.size] at hout
    rw [List.getElem?_eq_none hout]
    rfl
  · rw [ge_iff_le, UInt64.le_iff_toNat_le, h.size, not_le] at hout
    have hget := List.getElem?_eq_getElem hout
    rw [h.get hget, hget]
    rfl

/-- A loop that reads the elements of a list one after the other reads the list. -/
theorem mapM_range' {read : ℕ → Fueled E} {l : List E} {k : ℕ}
    (h : ∀ i e, l[i]? = some e → read (k + i) = .ok e) :
    (List.range' k l.length).mapM read = .ok l := by
  induction l generalizing k with
  | nil => rfl
  | cons e l ih =>
    have htail : ∀ i e, l[i]? = some e → read (k + 1 + i) = .ok e := by
      intro i e he
      rw [Nat.add_assoc, Nat.add_comm 1 i]
      exact h (i + 1) e he
    have hhead : read k = .ok e := h 0 e rfl
    rw [List.length_cons, List.range'_succ, List.mapM_cons, hhead, ok_bind, ih htail]
    rfl

/-- Iterating gives the elements in the order they were pushed. -/
theorem Holds.toList (h : v.Holds o) : v.toList = .ok (itemsOf o) := by
  have hword := v.size.toNat_lt
  rw [OptionalVector.toList, h.size, List.range_eq_range']
  refine mapM_range' fun i e he => h.get ?_
  have hlt := (List.getElem?_eq_some_iff.mp he).1
  rw [← h.size] at hlt
  rw [Nat.zero_add, UInt64.toNat_ofNat_of_lt' (hlt.trans hword)]
  exact he

theorem holds_empty : (empty : OptionalVector E).Holds none := trivial

/-- From an empty vector, a sequence of calls follows the list. -/
theorem run_iff_bounded {ops : List (Op E)} (hfits : ∀ op ∈ ops, op.Fits) :
    ((∃ v, ops.foldlM Op.run empty = .ok v) ↔ Bounded none ops) ∧
      ∀ v, ops.foldlM Op.run empty = .ok v → v.Holds (ops.foldl Op.apply none) :=
  foldlM_iff_within (fun op hop => refines_call (hfits op hop)) (fun _ _ h => h.capacity_lt)
    holds_empty

/-- **Containers.** A sequence of calls stays inside the memory exactly when the capacity of the
list fits into the header after every call. Then the vector reads as the list. -/
theorem inside_iff {ops : List (Op E)} (hfits : ∀ op ∈ ops, op.Fits) :
    ((∃ v, ops.foldlM Op.run empty = .ok v) ↔ Bounded none ops) ∧
    ∀ v, ops.foldlM Op.run empty = .ok v →
      v.hasValue = (ops.foldl Op.apply none).isSome ∧
      v.toList = .ok (itemsOf (ops.foldl Op.apply none)) ∧
      ∀ index, v.getAt index = .ok (itemsOf (ops.foldl Op.apply none))[index.toNat]? := by
  obtain ⟨hiff, hholds⟩ := run_iff_bounded hfits
  refine ⟨hiff, fun v hv => ?_⟩
  exact ⟨(hholds v hv).hasValue, (hholds v hv).toList, (hholds v hv).getAt⟩

/-- A vector with room for two grows for the third element. -/
theorem inside_iff_reserved :
    (∃ v, [Op.reserve 2, .pushBack 1, .pushBack 2, .pushBack 3].foldlM Op.run empty = .ok v) ↔
      Bounded none [Op.reserve 2, .pushBack 1, .pushBack 2, .pushBack 3] :=
  (inside_iff (by simp [Op.Fits])).1

/-! ### Pushing only -/

/-- After pushes, the capacity is the least power of two from 4 on that has room. -/
theorem exists_pushed (l : List E) (hne : l ≠ []) : ∃ n,
    (l.map Op.pushBack).foldl Op.apply none = some ⟨l, 2 ^ (n + 2)⟩ ∧ l.length ≤ 2 ^ (n + 2) ∧
      (n = 0 ∨ 2 ^ (n + 2) < 2 * l.length) := by
  induction l using List.reverseRecOn with
  | nil => exact absurd rfl hne
  | append_singleton l e ih =>
    rw [List.map_append, List.foldl_append]
    by_cases hnil : l = []
    · subst hnil
      exact ⟨0, rfl, by simp, .inl rfl⟩
    · obtain ⟨n, heq, hle, hleast⟩ := ih hnil
      rw [heq]
      have hpush : List.foldl Op.apply (some ⟨l, 2 ^ (n + 2)⟩) [Op.pushBack e] =
          some ((⟨l, 2 ^ (n + 2)⟩ : Growable E).push e) := rfl
      have hpos := Nat.two_pow_pos (n + 2)
      rw [List.map_singleton, hpush, Growable.push, List.length_append, List.length_singleton]
      by_cases hless : l.length < 2 ^ (n + 2)
      · refine ⟨n, by rw [if_pos hless], hless, hleast.imp_right fun h => by omega⟩
      · -- the list is full, and the capacity doubles
        have hdouble : 2 ^ (n + 1 + 2) = 2 * 2 ^ (n + 2) := by rw [← Nat.pow_succ']
        refine ⟨n + 1, ?_, by omega, .inr (by omega)⟩
        simp only [if_neg hless, if_neg hpos.ne', hdouble]

/-- The capacity fits into the header while there are at most `2^31` elements. -/
theorem bounded_pushes (l : List E) : Bounded none (l.map Op.pushBack) ↔ l.length ≤ 2 ^ 31 := by
  constructor
  · -- capacities are powers of two from 4 on, so the last one fits exactly when the length does
    intro h
    by_cases hnil : l = []
    · simp [hnil]
    · obtain ⟨n, heq, hle, -⟩ := exists_pushed l hnil
      have hfits := h _ List.prefix_rfl
      rw [heq] at hfits
      have hlt : n + 2 < 32 := (Nat.pow_lt_pow_iff_right (by decide)).mp hfits
      exact hle.trans (Nat.pow_le_pow_right (by decide) (by omega))
  · intro hle calls hcalls
    have htake : calls = (l.take calls.length).map Op.pushBack := by
      rw [List.map_take]
      exact List.prefix_iff_eq_take.mp hcalls
    by_cases hnil : l.take calls.length = []
    · rw [htake, hnil]
      exact Nat.two_pow_pos 32
    · obtain ⟨n, heq, -, hleast⟩ := exists_pushed _ hnil
      rw [htake, heq]
      have hshort := List.length_take_le' calls.length l
      show 2 ^ (n + 2) < 2 ^ 32
      rcases hleast with rfl | hlt
      · decide
      · omega

/-- Pushing does to the elements what the other models do to the list they have for a vector. -/
theorem map_items_pushes (l : List E) (o : Option (Growable E)) :
    ((l.map Op.pushBack).foldl Op.apply o).map Growable.items =
      l.foldl pushBack (o.map Growable.items) := by
  induction l generalizing o with
  | nil => rfl
  | cons e l ih =>
    rw [List.map_cons, List.foldl_cons, List.foldl_cons, ih]
    cases o <;> rfl

/-- **Capacity.** From an empty vector, pushing a list stays inside the memory exactly when the list
has at most `2^31` elements. Then the vector reads as the list that the other models have for
it. -/
theorem pushed_iff (l : List E) :
    ((∃ v, l.foldlM emplaceBack empty = .ok v) ↔ l.length ≤ 2 ^ 31) ∧
    ∀ v, l.foldlM emplaceBack empty = .ok v →
      v.hasValue = (l.foldl pushBack none).isSome ∧
      v.toList = .ok ((l.foldl pushBack none).getD []) := by
  have hfits : ∀ op ∈ l.map Op.pushBack, op.Fits := by
    intro op hop
    obtain ⟨e, -, rfl⟩ := List.mem_map.mp hop
    exact trivial
  have hsame : l.foldlM emplaceBack empty = (l.map Op.pushBack).foldlM Op.run empty := by
    rw [List.foldlM_map]
    rfl
  obtain ⟨hiff, hholds⟩ := run_iff_bounded hfits
  have hitems := map_items_pushes l none
  rw [Option.map_none] at hitems
  refine ⟨?_, fun v hv => ?_⟩
  · rw [hsame, hiff, bounded_pushes]
  · rw [hsame] at hv
    rw [(hholds v hv).hasValue, (hholds v hv).toList, ← hitems, Option.isSome_map]
    exact ⟨rfl, rfl⟩

end Refinement

end OptionalVector

end Cob
