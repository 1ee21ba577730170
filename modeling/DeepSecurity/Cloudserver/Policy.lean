import Mathlib.Data.Nat.Notation
import Mathlib.Logic.Function.Basic

/-!
# The choice of the agent

`get_valid_server` of `policy.py`: every list of servers has a counter, and a call returns the server at
the counter's place in the list that the rule gives for the type of the file.
-/

namespace Cloudserver

/-- The value of `rule` in `sbxserver.config`. -/
inductive Rule where
  | rr
  | filetype
  | other
deriving DecidableEq, Repr

/-- The lists `servers`, `exe_servers`, `pdf_servers` and `doc_servers`. -/
inductive ServerList where
  | common
  | exe
  | pdf
  | doc
deriving DecidableEq, Repr

/-- What is read from `sbxserver.config`. -/
structure Config (σ : Type) where
  /-- How a server is chosen. -/
  rule : Rule
  /-- The servers of each list. -/
  servers : ServerList → List σ
  /-- No list is empty. -/
  servers_ne : ∀ l, servers l ≠ []

/-- `count`, `exe_count`, `pdf_count` and `doc_count`. -/
abbrev Counters := ServerList → ℕ

/-- The counters when the module is loaded. -/
def Counters.start : Counters := fun _ => 0

namespace Config

variable {σ : Type} (c : Config σ)

/-- The counter goes up by one before it gives the position in the list. -/
def next (l : ServerList) (s : Counters) : Option (ServerList × ℕ) × Counters :=
  (some (l, (s l + 1) % (c.servers l).length), Function.update s l (s l + 1))

/-- The position that is returned, and the counters afterwards. -/
def getValidServer (filetype : String) (s : Counters) : Option (ServerList × ℕ) × Counters :=
  match c.rule with
  | .rr => c.next .common s
  | .filetype =>
    if filetype = "exe" then c.next .exe s
    else if filetype = "pdf" then c.next .pdf s
    else if filetype = "doc" then c.next .doc s
    else c.next .common s
  | .other => (none, s)

/-- The server at a position. -/
def serverAt (position : ServerList × ℕ) : Option σ := (c.servers position.1)[position.2]?

/-- What the calls for files of the given types return, and the counters afterwards. -/
def calls : Counters → List String → List (Option (ServerList × ℕ)) × Counters
  | s, [] => ([], s)
  | s, filetype :: rest =>
    let (position, s') := c.getValidServer filetype s
    let (positions, s'') := calls s' rest
    (position :: positions, s'')

/-- How often a position has been returned. -/
def returned (filetypes : List String) (l : ServerList) (i : ℕ) : ℕ :=
  (c.calls .start filetypes).1.count (some (l, i))

/-- Every call returns a server, and the positions of a list are returned equally often, up to one. -/
structure Fair (filetypes : List String) : Prop where
  /-- Every call returns a server. -/
  served : ∀ position ∈ (c.calls .start filetypes).1, (position.bind c.serverAt).isSome
  /-- The positions of a list are returned equally often, up to one. -/
  balanced : ∀ l i j, i < (c.servers l).length → j < (c.servers l).length →
    c.returned filetypes l i ≤ c.returned filetypes l j + 1

end Config

end Cloudserver
