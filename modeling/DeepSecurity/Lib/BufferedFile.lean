import Mathlib.Logic.Function.Basic
import Mathlib.Data.List.Basic

/-!
# Files that are written through a buffer

A file that is open for appending takes what is written to it into a buffer, from which it comes to the
disk at any time, and at the latest when the file is closed. `Store.whole` is what a file holds together
with what is still in the buffer. Neither opening nor flushing nor closing changes it, but a copy is a
copy of what is on the disk.
-/

namespace BufferedFile

variable {ν α : Type} [DecidableEq ν]

/-- The files on the disk, and the file that is open with its buffer. -/
structure Store (ν α : Type) where
  /-- The contents of the files on the disk. -/
  files : ν → Option (List α)
  /-- The name of the open file, and what is in its buffer. -/
  out : Option (ν × List α)

namespace Store

variable (s : Store ν α)

/-- The files with `l` at the end of one of them, which is created if it does not exist. -/
def append (files : ν → Option (List α)) (name : ν) (l : List α) : ν → Option (List α) :=
  Function.update files name (some ((files name).getD [] ++ l))

/-- A file that does not exist is created. -/
def openAppend (name : ν) : Store ν α := ⟨append s.files name [], some (name, [])⟩

/-- Writing changes the buffer only. -/
def write (l : List α) : Store ν α := { s with out := s.out.map fun o => (o.1, o.2 ++ l) }

/-- So many elements of the buffer are written to the disk. -/
def flush (n : ℕ) : Store ν α :=
  match s.out with
  | some (name, buffer) => ⟨append s.files name (buffer.take n), some (name, buffer.drop n)⟩
  | none => s

/-- The rest of the buffer is written to the disk. -/
def close : Store ν α :=
  match s.out with
  | some (name, buffer) => ⟨append s.files name buffer, none⟩
  | none => s

/-- What is still in the buffer is not copied. -/
def copyFile (source target : ν) : Store ν α :=
  { s with files := Function.update s.files target (s.files source) }

/-- What has not come to the disk yet. -/
def buffered (name : ν) : List α :=
  match s.out with
  | some (current, buffer) => if current = name then buffer else []
  | none => []

/-- The contents of a file once it is closed. -/
def whole (name : ν) : List α := (s.files name).getD [] ++ s.buffered name

/-! ## What the operations do to a file -/

variable {s} {current name : ν} {buffer : List α}

theorem append_self (files : ν → Option (List α)) (name : ν) (l : List α) :
    append files name l name = some ((files name).getD [] ++ l) := Function.update_self ..

theorem append_of_ne {files : ν → Option (List α)} (h : name ≠ current) (l : List α) :
    append files current l name = files name := Function.update_of_ne h ..

theorem buffered_self (hout : s.out = some (current, buffer)) : s.buffered current = buffer := by
  rw [buffered, hout]
  exact if_pos rfl

theorem whole_flush (n : ℕ) (name : ν) : (s.flush n).whole name = s.whole name := by
  cases hout : s.out with
  | none => simp only [flush, hout]
  | some o =>
    obtain ⟨current, buffer⟩ := o
    simp only [whole, buffered, flush, hout]
    by_cases h : name = current
    · subst h
      simp [append_self]
    · simp [append_of_ne h, Ne.symm h]

theorem whole_close (name : ν) : s.close.whole name = s.whole name := by
  cases hout : s.out with
  | none => simp only [close, hout]
  | some o =>
    obtain ⟨current, buffer⟩ := o
    simp only [whole, buffered, close, hout]
    by_cases h : name = current
    · subst h
      simp [append_self]
    · simp [append_of_ne h, Ne.symm h]

theorem whole_openAppend (hout : s.out = none) (current name : ν) :
    (s.openAppend current).whole name = s.whole name := by
  simp only [whole, buffered, openAppend, hout]
  by_cases h : name = current
  · subst h
    simp [append_self]
  · simp [append_of_ne h]

theorem whole_write (hout : s.out = some (current, buffer)) (l : List α) (name : ν) :
    (s.write l).whole name = s.whole name ++ if current = name then l else [] := by
  simp only [whole, buffered, write, hout, Option.map_some]
  split_ifs with h
  · rw [List.append_assoc]
  · rw [List.append_nil, List.append_nil]

theorem whole_copyFile {source target : ν} (h : name ≠ target) :
    (s.copyFile source target).whole name = s.whole name := by
  simp only [whole, buffered, copyFile]
  rw [Function.update_of_ne h]

theorem files_append_isSome (files : ν → Option (List α)) (l : List α) (h : (files name).isSome) :
    (append files current l name).isSome := by
  by_cases hname : name = current
  · rw [hname, append_self]
    rfl
  · rwa [append_of_ne hname]

theorem out_flush (hout : s.out = some (current, buffer)) (n : ℕ) :
    (s.flush n).out = some (current, buffer.drop n) := by
  simp only [flush, hout]

theorem files_flush (hout : s.out = some (current, buffer)) (n : ℕ) :
    (s.flush n).files = append s.files current (buffer.take n) := by
  simp only [flush, hout]

/-- A file that is closed is on the disk as a whole. -/
theorem files_close (hout : s.out = some (current, buffer)) :
    s.close.files current = some (s.whole current) := by
  simp only [close, whole, buffered, hout, append_self, if_true]

theorem files_close_of_ne (hout : s.out = some (current, buffer)) (h : name ≠ current) :
    s.close.files name = s.files name := by
  simp only [close, hout, append_of_ne h]

theorem out_close : s.close.out = none := by
  unfold close
  split
  · rfl
  · assumption

end Store

end BufferedFile
