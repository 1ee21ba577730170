import DeepSecurity.Lib.AssocMap
import DeepSecurity.Lib.FileTree
import Mathlib.Data.Int.Notation
import Mathlib.Data.List.Infix

/-!
# Filtering files

`filter_file` of `monitordir.py`, with `filetype.py`, `decompress.py` and `dirtest.py`. The virus
scanner, the check of signatures and the order in which a directory is walked are parameters. The
lines that `log_virus` and `log_sig_ok` write are appended to the file itself; they do not change its
type, which comes from its beginning.
-/

namespace Cloudagent

open FileTree

/-- The texts of Python. -/
abbrev Str := List Char

/-! ## Files -/

/-- A file: what `libmagic` says about it, and what it is unpacked to if it can be opened as a tar file
or else as a zip file. The members are given with the paths that they are written to. -/
inductive Content where
  | mk (filetype : Str) (members : Option (List (Path × Content)))

namespace Content

/-- What `libmagic` says about the file. -/
def filetype : Content → Str
  | mk filetype _ => filetype

/-- What the file is unpacked to. -/
def members : Content → Option (List (Path × Content))
  | mk _ members => members

end Content

/-- The files of the machine. -/
structure Files where
  /-- The files with their paths. -/
  entries : List (Path × Content)
  /-- No path occurs twice. -/
  nodup : (entries.map Prod.fst).Nodup

/-- `/tmp/decompression`. -/
def decompression : Path := ["tmp".toList, "decompression".toList]

/-- The path is one of a file in `/tmp/decompression` or below. -/
def InDir (p : Path) : Prop := decompression <+: p ∧ p ≠ decompression

instance (p : Path) : Decidable (InDir p) := inferInstanceAs (Decidable (_ ∧ _))

namespace Files

/-- The file at a path. -/
def find (files : Files) (p : Path) : Option Content := AssocMap.find files.entries p

/-- Writing a file. -/
def write (files : Files) (p : Path) (c : Content) : Files :=
  ⟨AssocMap.set files.entries p c, AssocMap.nodup_set files.nodup⟩

/-- `extractall`: the members are written one after the other. -/
def extractall (files : Files) (members : List (Path × Content)) : Files :=
  ⟨AssocMap.setAll files.entries members, AssocMap.nodup_setAll files.nodup⟩

/-- The files in `/tmp/decompression`. -/
def dir (files : Files) : List Path := (files.entries.map Prod.fst).filter fun p => InDir p

end Files

/-! ## `filetype.py` -/

/-- `is_pe` -/
def isPe (filemagic : Str) : Bool := "PE32".toList <:+: filemagic

/-- `is_pdf` -/
def isPdf (filemagic : Str) : Bool := "PDF".toList <:+: filemagic

/-- `is_compression` -/
def isCompression (filemagic : Str) : Bool :=
  "bzip2 compressed data".toList <:+: filemagic || "gzip compressed data".toList <:+: filemagic ||
    "Zip archive data".toList <:+: filemagic || "POSIX tar archive".toList <:+: filemagic

/-! ## `filter_file` -/

/-- What the programs around the agent answer. They may take the calls so far into account. -/
structure World where
  /-- The result of the scanner. -/
  sophosIt : List (Path × Content) → Path → ℤ
  /-- The result of the signature check. -/
  verifySig : List (Path × Content) → Path → ℤ
  /-- `get_files_for_dir("/tmp/decompression")`. -/
  walk : Files → List Path
  /-- Every file is there once, in any order. -/
  walk_perm : ∀ files, (walk files).Perm files.dir

/-- How a call may end without returning: a file that does not exist has no type, and the depth of the
recursion is limited. -/
inductive PyError where
  | attributeError
  | recursionError
deriving DecidableEq, Repr

/-- The lines that are appended to files. -/
inductive Note where
  | virus
  | sigOk
deriving DecidableEq, Repr

/-- The state of the agent. `calls` has the calls of `filter_file`, with what the file was then. -/
structure Agent where
  /-- The files on the disk. -/
  files : Files
  /-- The calls of `filter_file`. -/
  calls : List (Path × Content)
  /-- The lines that have been appended. -/
  noted : List (Path × Note)
  /-- The files that have been sent to a sandbox. -/
  sent : List Path

/-- The end of `filter_file`. -/
def sendPdf (filename : Path) (filetype : Str) (s : Agent) : Agent :=
  if isPdf filetype then { s with sent := s.sent ++ [filename] } else s

/-- The first argument is the depth of the recursion that is left. A result of `sophos_it` other than
`0`, also the one for a file that the scanner has not answered for, counts as a virus. -/
def filterFile (w : World) : ℕ → Agent → Path → Except PyError Agent
  | 0, _, _ => .error .recursionError
  | depth + 1, s, filename =>
    match s.files.find filename with
    | none => .error .attributeError
    | some content =>
      let s := { s with calls := s.calls ++ [(filename, content)] }
      if isPe content.filetype then
        if w.sophosIt s.calls filename ≠ 0 then
          .ok { s with noted := s.noted ++ [(filename, .virus)] }
        else if w.verifySig s.calls filename = 0 then
          .ok { s with noted := s.noted ++ [(filename, .sigOk)] }
        else .ok { s with sent := s.sent ++ [filename] }
      else if isCompression content.filetype then
        match content.members with
        | none => .ok s
        | some members =>
          -- everything that is in the directory now, not only the members
          let s := { s with files := s.files.extractall members }
          (sendPdf filename content.filetype) <$>
            (w.walk s.files).foldlM (filterFile w depth) s
      else .ok (sendPdf filename content.filetype s)

/-! ## What is to be filtered -/

namespace Content

/-- The members of a file that is recognised as an archive. -/
def unpacked (c : Content) : Option (List (Path × Content)) :=
  if isPe c.filetype then none else if isCompression c.filetype then c.members else none

theorem sizeOf_lt_of_unpacked {c : Content} {members : List (Path × Content)} {m : Path × Content}
    (h : c.unpacked = some members) (hm : m ∈ members) : sizeOf m.2 < sizeOf c := by
  obtain ⟨filetype, files⟩ := c
  unfold unpacked at h
  split_ifs at h
  have hmembers : files = some members := h
  have hlt := List.sizeOf_lt_of_mem hm
  rw [hmembers]
  obtain ⟨p, c⟩ := m
  simp only [mk.sizeOf_spec, Option.some.sizeOf_spec, Prod.mk.sizeOf_spec] at hlt ⊢
  omega

/-- The members of the archive and of all archives in it, archive by archive. -/
def archives (c : Content) : List (List (Path × Content)) :=
  match h : c.unpacked with
  | none => []
  | some members => members :: members.attach.flatMap fun m =>
      have := sizeOf_lt_of_unpacked h m.2
      m.1.2.archives
termination_by sizeOf c

end Content

/-- `filter_file` comes to an end for the file `c` with the path `p`: it reaches every file that `c`
contains at any depth, and processes a path at most once for each archive that has a member there. -/
def FiltersAll (w : World) (files : Files) (p : Path) (c : Content) : Prop :=
  ∃ depth s, filterFile w depth ⟨files.write p c, [], [], []⟩ p = .ok s ∧
    (∀ members ∈ c.archives, ∀ m ∈ members, m ∈ s.calls.tail) ∧
    ∀ q, (s.calls.tail.map Prod.fst).count q ≤
      c.archives.countP fun members => q ∈ members.map Prod.fst

/-- The file is not an archive, or its members are written to the directory, and then all files there
are members and none of them is an archive. -/
def Flat (files : Files) (p : Path) (c : Content) : Prop :=
  ∀ members, c.unpacked = some members →
    (∀ m ∈ members, InDir m.1 ∧ m ∈ ((files.write p c).extractall members).entries) ∧
    ∀ e ∈ ((files.write p c).extractall members).entries, InDir e.1 →
      e.1 ∈ members.map Prod.fst ∧ e.2.unpacked = none

/-- The files on the machine, and everything in the archives among them. -/
inductive Contained (files : Files) : Path × Content → Prop
  | file {e : Path × Content} (h : e ∈ files.entries) : Contained files e
  | member {e m : Path × Content} {members : List (Path × Content)} (h : Contained files e)
      (hmembers : e.2.unpacked = some members) (hm : m ∈ members) : Contained files m

/-- No two different files have the same path. -/
def OnePath (files : Files) : Prop :=
  ∀ e e', Contained files e → Contained files e' → e.1 = e'.1 → e = e'

end Cloudagent
