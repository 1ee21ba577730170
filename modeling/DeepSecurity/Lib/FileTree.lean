import Mathlib.Data.List.Basic

/-!
# Files under their path names

How an absolute path name is resolved in a tree of directories without links, and what a file holds
after a write at an offset, both as in POSIX.
-/

namespace FileTree

/-- The name of a directory entry. -/
abbrev Name := List Char

/-- The place of a file or a directory, as the entries on the way from the root. -/
abbrev Path := List Name

section Resolve

variable (isDir : Path → Bool)

/-- From the directory `dir` along the components of a path name to a file, which need not exist yet.
There is no way through an entry that is not a directory, and none to a directory. -/
def walk : Path → List Name → Option Path
  | _, [] => none
  | dir, c :: rest =>
    if c = [] ∨ c = ['.'] then walk dir rest
    else if c = ['.', '.'] then walk dir.dropLast rest
    else if isDir (dir ++ [c]) then walk (dir ++ [c]) rest
    else if rest = [] then some (dir ++ [c])
    else none

/-- The file with an absolute path name. -/
def resolve (name : List Char) : Option Path := walk isDir [] (name.splitOn '/')

variable {isDir}

/-- A component that names a directory is entered. -/
theorem walk_dir {dir rest : List Name} {c : Name} (hc : c ≠ [] ∧ c ≠ ['.'] ∧ c ≠ ['.', '.'])
    (h : isDir (dir ++ [c]) = true) : walk isDir dir (c :: rest) = walk isDir (dir ++ [c]) rest := by
  obtain ⟨h0, h1, h2⟩ := hc
  simp [walk, h0, h1, h2, h]

/-- The last component is the name of the file. -/
theorem walk_last {dir : Path} {c : Name} (hc : c ≠ [] ∧ c ≠ ['.'] ∧ c ≠ ['.', '.'])
    (h : isDir (dir ++ [c]) = false) : walk isDir dir [c] = some (dir ++ [c]) := by
  obtain ⟨h0, h1, h2⟩ := hc
  simp [walk, h0, h1, h2, h]

end Resolve

section Content

variable {α : Type} [Inhabited α]

/-- A file after a write at an offset. A gap between the old end and the offset is filled; writing
nothing leaves the file as it is. -/
def writeAt (content : List α) (offset : ℕ) (chunk : List α) : List α :=
  if chunk = [] then content
  else (content ++ List.replicate (offset - content.length) default).take offset ++ chunk ++
    content.drop (offset + chunk.length)

/-- A file that is written from the beginning to the end in pieces. -/
theorem writeAt_take (body : List α) {offset : ℕ} (n : ℕ) (h : offset ≤ body.length) :
    writeAt (body.take offset) offset ((body.drop offset).take n) = body.take (offset + n) := by
  have hlen : (body.take offset).length = offset := by
    rw [List.length_take]
    omega
  rw [List.take_add]
  unfold writeAt
  split_ifs with hchunk
  · rw [hchunk, List.append_nil]
  · have hdrop : (body.take offset).drop (offset + ((body.drop offset).take n).length) = [] :=
      List.drop_eq_nil_of_le (by omega)
    rw [hdrop, hlen, Nat.sub_self, List.replicate_zero, List.append_nil, List.append_nil,
      List.take_of_length_le (Nat.le_of_eq hlen)]

end Content

end FileTree
