import Cob.Bytes

/-!
# The disk

Files by path, with the modification times the build looks at. Two paths that are not equal as
byte strings name different files, as they are different nodes of the graph. Times count the
clock ticks since `file_time_type::min()`; a `last_write_time` that fails is a missing file.
-/

namespace Cob

/-- `std::filesystem::file_time_type`. -/
abbrev FileTime := ℕ

/-- What is known about the contents of a file. -/
inductive Contents where
  /-- nothing -/
  | unknown
  /-- a tool wrote it when run with these arguments -/
  | made (args : List Bytes)
  /-- these bytes were written -/
  | text (bytes : Bytes)
  deriving DecidableEq

/-- A file on the disk. -/
structure File where
  mtime : FileTime
  contents : Contents
  deriving DecidableEq

/-- The files that exist; the first entry of a path counts. -/
structure Disk where
  entries : List (Bytes × File)
  deriving DecidableEq

namespace Disk

variable (disk : Disk)

/-- The file at a path. -/
def file (path : Bytes) : Option File := disk.entries.lookup path

/-- `last_write_time`. -/
def mtime (path : Bytes) : Option FileTime := (disk.file path).map File.mtime

/-- The bytes of a file, as far as they are known. -/
def content (path : Bytes) : Option Bytes :=
  match disk.file path with
  | some ⟨_, .text bytes⟩ => some bytes
  | _ => none

/-- The disk after a file was removed. -/
def remove (path : Bytes) : Disk := ⟨disk.entries.filter fun e => e.1 ≠ path⟩

/-- The disk after a file was written. -/
def write (path : Bytes) (f : File) : Disk := ⟨(path, f) :: disk.entries⟩

/-- Every file that exists is older than `time`. -/
def olderThan (time : FileTime) : Bool :=
  disk.entries.all fun e => (disk.file e.1).all fun f => decide (f.mtime < time)

variable {disk} {path : Bytes} {f : File} {time : FileTime}

theorem file_write (p : Bytes) :
    (disk.write path f).file p = if p = path then some f else disk.file p := by
  by_cases h : p = path
  · simp [file, write, h]
  · simp [file, write, List.lookup_cons, beq_false_of_ne h, h]

@[simp]
theorem file_write_self : (disk.write path f).file path = some f := by
  simp [file_write]

theorem file_write_of_ne {p : Bytes} (h : p ≠ path) :
    (disk.write path f).file p = disk.file p := by
  simp [file_write, h]

theorem file_remove_of_ne {p : Bytes} (h : p ≠ path) :
    (disk.remove path).file p = disk.file p := by
  obtain ⟨entries⟩ := disk
  simp only [file, remove]
  induction entries with
  | nil => rfl
  | cons e entries ih =>
    obtain ⟨q, f⟩ := e
    by_cases hq : q = path
    · subst hq
      simpa [List.lookup_cons, beq_false_of_ne h] using ih
    · simp only [List.filter_cons, hq, ne_eq, not_false_eq_true, decide_true, if_true,
        List.lookup_cons]
      rw [ih]

theorem content_congr {disk' : Disk} (h : disk'.file path = disk.file path) :
    disk'.content path = disk.content path := by
  simp [content, h]

theorem contents_of_content {bytes : Bytes} (h : disk.content path = some bytes)
    (hf : disk.file path = some f) : f.contents = .text bytes := by
  obtain ⟨mtime, contents⟩ := f
  cases contents <;> simp_all [content]

theorem content_of_contents {bytes : Bytes} (hf : disk.file path = some f)
    (h : f.contents = .text bytes) : disk.content path = some bytes := by
  obtain ⟨mtime, contents⟩ := f
  simp_all [content]

theorem olderThan_iff : disk.olderThan time = true ↔
    ∀ p f, disk.file p = some f → f.mtime < time := by
  simp only [olderThan, List.all_eq_true, Option.all_eq_true, decide_eq_true_eq]
  constructor
  · intro h p f hf
    obtain ⟨l₁, l₂, hl, -⟩ := List.lookup_eq_some_iff.mp hf
    exact h (p, f) (by simp [hl]) f hf
  · exact fun h e _ f hf => h e.1 f hf

end Disk

end Cob
