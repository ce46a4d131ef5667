import Cob.Binary.Layout
import Cob.OptionalVector

/-!
# DepfileInputs

The dependency-file inputs of a step. A step that comes from the cache borrows them: they stay
references into the mapped file, and are decoded at each access. The first change copies them.

* `DepfileInputs` — the class with its members;
* `DepfileInputs.Holds` — the list that it stands for, borrowed or owned;
* `makeOwned_spec` — the copy stands for the same list;
* `borrowed_iff` — a borrowed list reads and changes as an owned one.
-/

namespace Cob

open Fueled OptionalVector CacheFile

/-- `DepfileInputs`. -/
structure DepfileInputs where
  owned : OptionalVector Bytes
  borrowedRefs : List StringRef
  borrowedStrings : Bytes
  borrowedSize : UInt64
  borrowed : Bool

namespace DepfileInputs

/-! ### The members -/

/-- `borrow`. -/
def borrow (refs : List StringRef) (count : UInt64) (strings : Bytes) : DepfileInputs :=
  ⟨.empty, refs, strings, count, true⟩

variable (d : DepfileInputs)

/-- `has_value`. -/
def hasValue : Bool := d.borrowed || d.owned.hasValue

/-- `size`. -/
def size : UInt64 := if d.borrowed then d.borrowedSize else d.owned.size

/-- `operator[]`. -/
def get (index : UInt64) : Fueled Bytes :=
  if d.borrowed then
    match d.borrowedRefs[index.toNat]? with
    | some ref =>
      if ref.InPool d.borrowedStrings then .ok (ref.text d.borrowedStrings)
      else .error .outOfBounds
    | none => .error .outOfBounds
  else d.owned.get index

/-- What a loop from `begin` to `end` reads. -/
def toList : Fueled (List Bytes) := (List.range d.size.toNat).mapM fun i => d.get (.ofNat i)

/-- `makeOwned`. -/
def makeOwned : Fueled DepfileInputs :=
  if d.borrowed then do
    let copy ← (List.range d.borrowedSize.toNat).foldlM
      (fun (copy : OptionalVector Bytes) i => do copy.emplaceBack (← d.get (.ofNat i)))
      (OptionalVector.empty.reserve d.borrowedSize)
    pure { d with owned := copy, borrowed := false }
  else pure d

/-- `reserve`. -/
def reserve (capacity : UInt64) : Fueled DepfileInputs := do
  let d ← d.makeOwned
  pure { d with owned := d.owned.reserve capacity }

/-- `emplace_back`, and `push_back`. -/
def emplaceBack (path : Bytes) : Fueled DepfileInputs := do
  let d ← d.makeOwned
  let owned ← d.owned.emplaceBack path
  pure { d with owned := owned }

end DepfileInputs

/-- A call that changes the list. -/
inductive DepfileOp where
  | reserve (capacity : UInt64)
  | emplaceBack (path : Bytes)

namespace DepfileOp

/-- The call. -/
def run (d : DepfileInputs) : DepfileOp → Fueled DepfileInputs
  | .reserve capacity => d.reserve capacity
  | .emplaceBack path => d.emplaceBack path

/-- The call of a vector that it comes to. -/
def op : DepfileOp → Op Bytes
  | .reserve capacity => .reserve capacity
  | .emplaceBack path => .pushBack path

end DepfileOp

namespace DepfileInputs

section Refinement

variable {d : DepfileInputs} {o : Option (Growable Bytes)}

/-- What a borrowed list refers to: so many references, each to a string that lies inside. -/
structure Decodes (d : DepfileInputs) (l : List Bytes) : Prop where
  size_eq : d.borrowedSize.toNat = l.length
  ref : ∀ (i : ℕ) (path : Bytes), l[i]? = some path → ∃ ref : StringRef,
    d.borrowedRefs[i]? = some ref ∧ ref.InPool d.borrowedStrings ∧
      ref.text d.borrowedStrings = path

/-- The list stands for the elements. A borrowed one has the room that its copy will have. -/
def Holds (d : DepfileInputs) (o : Option (Growable Bytes)) : Prop :=
  (d.borrowed = true ∧ ∃ l, o = some ⟨l, l.length⟩ ∧ d.Decodes l ∧ l.length < 2 ^ 32) ∨
    (d.borrowed = false ∧ d.owned.Holds o)

theorem Holds.get (h : d.Holds o) {index : UInt64} {path : Bytes}
    (hget : (itemsOf o)[index.toNat]? = some path) : d.get index = .ok path := by
  obtain ⟨hborrowed, l, rfl, hdecodes, -⟩ | ⟨howned, h⟩ := h
  · obtain ⟨ref, href, hin, htext⟩ := hdecodes.ref _ _ hget
    simp [DepfileInputs.get, hborrowed, href, hin, htext]
  · simpa [DepfileInputs.get, howned] using h.get hget

theorem Holds.size (h : d.Holds o) : d.size.toNat = (itemsOf o).length := by
  obtain ⟨hborrowed, l, rfl, hdecodes, -⟩ | ⟨howned, h⟩ := h
  · rw [DepfileInputs.size, if_pos hborrowed]
    exact hdecodes.size_eq
  · rw [DepfileInputs.size, if_neg (by simp [howned])]
    exact h.size

theorem Holds.hasValue (h : d.Holds o) : d.hasValue = o.isSome := by
  obtain ⟨hborrowed, l, rfl, -, -⟩ | ⟨howned, h⟩ := h
  · rw [DepfileInputs.hasValue, hborrowed]
    rfl
  · rw [DepfileInputs.hasValue, howned, Bool.false_or]
    exact h.hasValue

theorem Holds.toList (h : d.Holds o) : d.toList = .ok (itemsOf o) := by
  have hword := d.size.toNat_lt
  rw [DepfileInputs.toList, h.size, List.range_eq_range']
  refine mapM_range' fun i path hpath => h.get ?_
  have hlt := (List.getElem?_eq_some_iff.mp hpath).1
  rw [← h.size] at hlt
  rw [Nat.zero_add, UInt64.toNat_ofNat_of_lt' (hlt.trans hword)]
  exact hpath

/-- The header of the vector, or of the copy to come, has room for the capacity. -/
theorem Holds.fitsHeader (h : d.Holds o) : FitsHeader o := by
  obtain ⟨-, l, rfl, -, hlt⟩ | ⟨-, h⟩ := h
  · exact hlt
  · exact h.capacity_lt

/-- Copying one more element, with the room that was reserved. -/
theorem copyOne_spec {l : List Bytes} {i : ℕ} {copy : OptionalVector Bytes} (hd : d.Decodes l)
    (hborrowed : d.borrowed = true) (hlt : l.length < 2 ^ 32) (hi : i < l.length)
    (h : copy.Holds (some ⟨l.take i, l.length⟩)) :
    Returns (do copy.emplaceBack (← d.get (.ofNat i))) fun copy' =>
      copy'.Holds (some ⟨l.take (i + 1), l.length⟩) := by
  have hget : d.get (.ofNat i) = .ok l[i] := by
    have hholds : d.Holds (some ⟨l, l.length⟩) := .inl ⟨hborrowed, l, rfl, hd, hlt⟩
    refine hholds.get ?_
    rw [UInt64.toNat_ofNat_of_lt' (hi.trans (hlt.trans (by decide)))]
    exact List.getElem?_eq_getElem hi
  have hpush : (⟨l.take i, l.length⟩ : Growable Bytes).push l[i] =
      ⟨l.take (i + 1), l.length⟩ := by
    have hroom : (l.take i).length < l.length := by
      rw [List.length_take]
      omega
    rw [Growable.push, if_pos hroom, List.take_concat_get' l i hi]
  have hreturns := (h.pushBack l[i]).1
  rw [Option.getD_some, hpush] at hreturns
  rw [hget, ok_bind]
  exact hreturns hlt

/-- The copy stands for the list that was borrowed. -/
theorem makeOwned_spec (h : d.Holds o) :
    Returns d.makeOwned fun d' => d'.borrowed = false ∧ d'.owned.Holds o := by
  obtain ⟨hborrowed, l, rfl, hdecodes, hlt⟩ | ⟨howned, h⟩ := h
  · have hsize := hdecodes.size_eq
    have hstart : (OptionalVector.empty.reserve d.borrowedSize).Holds
        (some (⟨[], l.length⟩ : Growable Bytes)) := by
      rw [← hsize] at hlt ⊢
      exact Block.holds_create hlt
    -- the loop copies the borrowed strings one by one into a vector with room for them
    have hcopy : Returns ((List.range d.borrowedSize.toNat).foldlM
        (fun (copy : OptionalVector Bytes) i => do copy.emplaceBack (← d.get (.ofNat i)))
        (OptionalVector.empty.reserve d.borrowedSize))
        fun copy => copy.Holds
          (some ⟨l.take (List.range d.borrowedSize.toNat).length, l.length⟩) := by
      refine returns_foldlM (fun done (copy : OptionalVector Bytes) =>
        copy.Holds (some ⟨l.take done.length, l.length⟩))
        (fun done i rest copy heq hcopy => ?_) hstart
      have hith : (List.range d.borrowedSize.toNat)[done.length]? = some i := by simp [heq]
      obtain ⟨hi, rfl⟩ := List.getElem?_eq_some_iff.mp hith
      rw [List.getElem_range, List.length_append, List.length_singleton]
      rw [List.length_range, hsize] at hi
      exact copyOne_spec hdecodes hborrowed hlt hi hcopy
    simp only [makeOwned, hborrowed, if_true]
    refine hcopy.bind fun copy hholds => returns_pure ⟨rfl, ?_⟩
    rwa [List.length_range, hsize, List.take_length] at hholds
  · simp only [makeOwned, howned, Bool.false_eq_true, if_false]
    exact returns_pure ⟨howned, h⟩

/-- A call does to a borrowed or owned list what it does to the vector of its elements. -/
theorem refines_call {op : DepfileOp} (hfits : op.op.Fits) :
    Refines DepfileOp.run (fun o op => op.op.apply o) Holds FitsHeader op := by
  intro d o h
  obtain ⟨d', hd', howned, h'⟩ := makeOwned_spec h
  cases op with
  | reserve capacity =>
    have hreserved : (d'.owned.reserve capacity).Holds ((Op.reserve capacity).apply o) :=
      h'.reserve hfits
    refine ⟨fun _ => ?_, fun hnot => absurd hreserved.capacity_lt hnot⟩
    simp only [DepfileOp.run, DepfileInputs.reserve, hd', ok_bind]
    exact returns_pure (.inr ⟨howned, hreserved⟩)
  | emplaceBack path =>
    obtain ⟨hreturns, hstuck⟩ := h'.pushBack path
    simp only [DepfileOp.run, DepfileInputs.emplaceBack, hd', ok_bind]
    refine ⟨fun hnext => ?_, fun hnext => ?_⟩
    · exact (hreturns hnext).bind fun owned howned' => returns_pure (.inr ⟨howned, howned'⟩)
    · rw [hstuck hnext]
      rfl

/-- No call of the class makes the list go missing. -/
theorem isSome_foldl_op (ops : List DepfileOp) (h : o.isSome = true) :
    ((ops.map DepfileOp.op).foldl Op.apply o).isSome = true := by
  induction ops generalizing o with
  | nil => exact h
  | cons op ops ih => cases op <;> exact ih rfl

/-- **Borrowing.** A list borrowed from the cache file, whatever calls follow, stays inside the file
and the memory exactly when a vector of the same elements would, and then it reads as that
vector. -/
theorem borrowed_iff {refs : List StringRef} {strings : Bytes} {count : UInt64} {l : List Bytes}
    {ops : List DepfileOp} (hl : (borrow refs count strings).Decodes l)
    (hcount : count.toNat < 2 ^ 32) (hfits : ∀ op ∈ ops, op.op.Fits) :
    ((∃ d, ops.foldlM DepfileOp.run (borrow refs count strings) = .ok d) ↔
      Bounded (some ⟨l, l.length⟩) (ops.map DepfileOp.op)) ∧
    ∀ d, ops.foldlM DepfileOp.run (borrow refs count strings) = .ok d →
      d.hasValue = true ∧
      d.toList = .ok (itemsOf ((ops.map DepfileOp.op).foldl Op.apply (some ⟨l, l.length⟩))) := by
  have hborrow : (borrow refs count strings).Holds (some ⟨l, l.length⟩) :=
    .inl ⟨rfl, l, rfl, hl, hl.size_eq ▸ hcount⟩
  obtain ⟨hiff, hholds⟩ := foldlM_iff_within (fun op hop => refines_call (hfits op hop))
    (fun _ _ h => h.fitsHeader) hborrow
  refine ⟨hiff.trans within_map.symm, fun d hd => ?_⟩
  have hd' := hholds d hd
  rw [← List.foldl_map] at hd'
  refine ⟨?_, hd'.toList⟩
  rw [hd'.hasValue]
  exact isSome_foldl_op ops rfl


theorem decodes_headers : (borrow [⟨0, 3⟩, ⟨3, 3⟩] 2 (ascii "a.hb.h")).Decodes
    [ascii "a.h", ascii "b.h"] := by
  refine ⟨rfl, fun i path hpath => ?_⟩
  rcases i with _ | _ | i
  · exact ⟨⟨0, 3⟩, rfl, by decide, Option.some.inj hpath⟩
  · exact ⟨⟨3, 3⟩, rfl, by decide, Option.some.inj hpath⟩
  · cases hpath

/-- Two borrowed headers, and a third one that is pushed. -/
theorem borrowed_iff_headers :
    (∃ d, [DepfileOp.emplaceBack (ascii "c.h")].foldlM DepfileOp.run
      (borrow [⟨0, 3⟩, ⟨3, 3⟩] 2 (ascii "a.hb.h")) = .ok d) ↔
    Bounded (some ⟨[ascii "a.h", ascii "b.h"], 2⟩) [Op.pushBack (ascii "c.h")] :=
  (@borrowed_iff _ _ _ _ [DepfileOp.emplaceBack (ascii "c.h")] decodes_headers (by decide)
    (by simp [DepfileOp.op, Op.Fits])).1

end Refinement

end DepfileInputs

end Cob
