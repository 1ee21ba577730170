import DeepSecurity.Killerfinder.TcpSession
import DeepSecurity.Lib.AssocMap

/-!
# Block lists from files

`CDBManager::start` reads the three lists from text files and turns the one of the IPv4 addresses into
a map with binary keys. What the lists are meant to say is written down here, too: which entry decides
on a URL, which lines of a file count, and when an address is to be blocked.
-/

namespace Killerfinder

namespace CDBManager

/-! ## Loading -/

/-- An `unordered_map<string, string>` with its entries in the order of iteration, which is not
specified. -/
abbrev Entries := List (Bytes × Bytes)

/-- `I_IPV4_MAP`, `I_DOMAIN_MAP` and `I_HOSTNAME_MAP`. -/
inductive DbIndex where
  | ipv4 | domain | hostname
deriving DecidableEq, Repr

/-- What `getline` reads from a file: nothing comes after a line break at its end. -/
def getlines (text : Bytes) : List Bytes :=
  let lines := text.splitOn '\n'.toUInt8
  if lines.getLast? = some [] then lines.dropLast else lines

/-- Empty lines and lines that begin with a blank or a tab. -/
def Skipped (line : Bytes) : Prop :=
  line.head? = none ∨ line.head? = some ' '.toUInt8 ∨ line.head? = some '\t'.toUInt8

instance : DecidablePred Skipped := fun _ => inferInstanceAs (Decidable (_ ∨ _))

/-- The loop over the lines of a file. The result is `none` if a field is read that is not there: a line
without two fields is reported, but not skipped. -/
def loadLines (maxDb : ℕ) : Entries → ℕ → List Bytes → Option Entries
  | m, _, [] => some m
  | m, num, line :: lines =>
    if Skipped line then loadLines maxDb m num lines
    else
      match split line '\t'.toUInt8 with
      | key :: value :: _ =>
        let m := AssocMap.set m key value
        if maxDb ≠ 0 ∧ num + 1 > maxDb then some m else loadLines maxDb m (num + 1) lines
      | _ => none

/-- The entries of a file, read into an empty map. -/
def loadFile (maxDb : ℕ) (text : Bytes) : Option Entries := loadLines maxDb [] 0 (getlines text)

/-- The first part of `start`: `m_httpMap`. -/
def start (maxDb : ℕ) (files : DbIndex → Bytes) : Option (DbIndex → Entries) := do
  let ipv4 ← loadFile maxDb (files .ipv4)
  let domain ← loadFile maxDb (files .domain)
  let hostname ← loadFile maxDb (files .hostname)
  return fun
    | .ipv4 => ipv4
    | .domain => domain
    | .hostname => hostname

/-- The second part of `start`: `m_ip4Map`. The result of `inet_aton` is not checked, so a key that is
not an address stands for the address of the entry before it, and the first one for the bytes `addr`
that happen to be there. -/
def ip4Map (inetAton : Bytes → Option Bytes) : Bytes → Entries → Entries → Entries
  | _, m, [] => m
  | addr, m, (key, value) :: entries =>
    let addr := (inetAton key).getD addr
    ip4Map inetAton addr (AssocMap.set m addr value) entries

/-- The block lists that `start` leaves. -/
def ofMaps (inetAton : Bytes → Option Bytes) (addr : Bytes) (maps : DbIndex → Entries) :
    CDBManager where
  hostnameMap k := AssocMap.find (maps .hostname) k
  domainMap k := AssocMap.find (maps .domain) k
  mIp4Map k := AssocMap.find (ip4Map inetAton addr [] (maps .ipv4)) k

/-! ## The lines that count -/

/-- The fields of a line, as `split` gives them for a line without null characters. -/
def fields (line : Bytes) : List Bytes := (line.splitOn '\t'.toUInt8).filter (· ≠ [])

/-- A line that is read as an entry: it is not skipped and has a key and a value. -/
def WellFormed (line : Bytes) : Prop := ¬ Skipped line ∧ 2 ≤ (fields line).length

instance : DecidablePred WellFormed := fun _ => inferInstanceAs (Decidable (_ ∧ _))

/-- The first two fields of a line. -/
def entryOf (line : Bytes) : Bytes × Bytes := ((fields line).getD 0 [], (fields line).getD 1 [])

/-- What a file says: of its first `maxDb` well-formed lines, the last one for each key. -/
def reputation (maxDb : ℕ) (text : Bytes) : Bytes → Option Bytes :=
  AssocMap.last ((((getlines text).filter fun line => WellFormed line).take maxDb).map entryOf)

/-- No field is missed, and the maps are what the files say. -/
def LoadsAll (maxDb : ℕ) (files : DbIndex → Bytes) : Prop :=
  ∃ maps, start maxDb files = some maps ∧
    ∀ i k, AssocMap.find (maps i) k = reputation maxDb (files i) k

/-- The lines of a file that are not skipped. -/
def entryLines (text : Bytes) : List Bytes := (getlines text).filter fun line => ¬ Skipped line

/-- The lines of a file that are read: those that are not skipped, one more than the limit. -/
def linesRead (maxDb : ℕ) (text : Bytes) : List Bytes := (entryLines text).take (maxDb + 1)

/-- The first two fields of a line as `split` gives them, without what is behind a null character. -/
def readEntry (line : Bytes) : Bytes × Bytes :=
  ((split line '\t'.toUInt8).getD 0 [], (split line '\t'.toUInt8).getD 1 [])

/-- Every line that is read has two fields before its first null character, and the entries that are
read, of which the last one is one too many, give each key the value that the lines up to the limit
give it. -/
def CleanFor (maxDb : ℕ) (text : Bytes) : Prop :=
  (∀ line ∈ linesRead maxDb text, 2 ≤ (split line '\t'.toUInt8).length) ∧
    ∀ k, AssocMap.last ((linesRead maxDb text).map readEntry) k =
      AssocMap.last (((entryLines text).take maxDb).map entryOf) k

/-! ## The entry that decides on a URL -/

section Url

variable (db : CDBManager) (prot host path : Bytes)

/-- The protocols for which `isUrlHit` looks anything up. -/
def IsUrlProtocol : Prop :=
  prot = lit ['h', 't', 't', 'p'] ∨ prot = lit ['h', 't', 't', 'p', 's'] ∨ prot = lit ['f', 't', 'p']

/-- The host up to its first colon. -/
def withoutPort : Bytes :=
  match CxxString.find (lit [':']) host with
  | some pos => host.take pos
  | none => host

/-- A path begins with a slash. -/
def absolutePath : Bytes :=
  if path.head? ≠ some '/'.toUInt8 then lit ['/'] ++ path else path

/-- The entries for the URL, for the host and for the last two labels of the host. -/
def lookups : List (Option Bytes) :=
  [db.hostnameMap (withoutPort host ++ absolutePath path), db.hostnameMap (withoutPort host),
    (domainOf (withoutPort host)).bind db.domainMap]

/-- The first entry that says yes or no. -/
def verdict : Option Bool := (lookups db host path).findSome? fun entry => entry.bind entryVerdict

/-- The most specific valid entry decides. -/
def MostSpecificWins : Prop :=
  db.isUrlHit prot host path = true ↔ IsUrlProtocol prot ∧ verdict db host path = some true

/-- The last look-up that is made if no entry decides. -/
def lastLookup : Option Bytes :=
  match domainOf (withoutPort host) with
  | some domain => db.domainMap domain
  | none => db.hostnameMap (withoutPort host)

end Url

/-! ## The addresses to be blocked -/

section Ipv4

variable (inetAton : Bytes → Option Bytes) (addr : Bytes) (entries : Entries)

/-- The address has an entry with the given value. -/
def Listed (a value : Bytes) : Prop := ∃ key, (key, value) ∈ entries ∧ inetAton key = some a

/-- The address has an entry, or it is the one that an invalid first key happens to stand for. -/
def InMap (a : Bytes) : Prop :=
  (∃ e ∈ entries, inetAton e.1 = some a) ∨ ∃ e ∈ entries.head?, inetAton e.1 = none ∧ a = addr

end Ipv4

end CDBManager

/-- The packet with source and destination exchanged. -/
def CL4Info.exchanged (p : CL4Info) : CL4Info :=
  { p with srcIp := p.dstIp, dstIp := p.srcIp, srcPort := p.dstPort, dstPort := p.srcPort }

namespace CTcpSession

variable {P : HttpParser}

/-- The block flag is set if it was set before or an entry says so for one of the two addresses; and it
does not matter which one is the source. -/
structure TreatsAlike (inetAton : Bytes → Option Bytes) (addr : Bytes)
    (maps : CDBManager.DbIndex → CDBManager.Entries) (sess : CTcpSession P) (p : CL4Info) : Prop where
  /-- The flag afterwards is the flag before or an entry with the value `1` for the source or the
  destination. -/
  flag : (sess.blockMe (.ofMaps inetAton addr maps) p).1.mShouldBlock = true ↔
    sess.mShouldBlock = true ∨ p.ipVersion = 4 ∧
      (CDBManager.Listed inetAton (maps .ipv4) p.srcIp.getIpv4 (lit ['1']) ∨
        CDBManager.Listed inetAton (maps .ipv4) p.dstIp.getIpv4 (lit ['1']))
  /-- The opposite packet leads to the same flag. -/
  exchanged : (sess.blockMe (.ofMaps inetAton addr maps) p.exchanged).1.mShouldBlock =
    (sess.blockMe (.ofMaps inetAton addr maps) p).1.mShouldBlock

end CTcpSession

end Killerfinder
