import DeepSecurity.Killerfinder.TcpSegBuf

/-!
# The block lists

`CDBManager`: the look-up of requested URLs and of IPv4 addresses in the block lists.
-/

namespace Killerfinder

/-- The bytes of a string literal. -/
def lit (cs : List Char) : Bytes := cs.map Char.toUInt8

/-- `split` with one separator: `strsep` works on a C string, so everything from the first null byte
on is cut off, and empty pieces are left out. -/
def split (str : Bytes) (d : UInt8) : List Bytes :=
  ((str.takeWhile (· ≠ 0)).splitOn d).filter (· ≠ [])

/-- `unordered_map<string, string>`. -/
abbrev DbMap := Bytes → Option Bytes

/-- The block lists in memory. -/
structure CDBManager where
  /-- `m_httpMap[I_HOSTNAME_MAP]`, keyed by a host name or by a host name with a path. -/
  hostnameMap : DbMap
  /-- `m_httpMap[I_DOMAIN_MAP]`, keyed by a domain. -/
  domainMap : DbMap
  /-- `m_ip4Map`, keyed by the four bytes of an address. -/
  mIp4Map : DbMap

namespace CDBManager

/-- What the value of an entry says: block, do not block, or nothing ("wrong db"). -/
def entryVerdict (value : Bytes) : Option Bool :=
  if value = lit ['1'] then some true else if value = lit ['0'] then some false else none

/-- The last two labels of a host name. -/
def domainOf (host : Bytes) : Option Bytes :=
  match (split host '.'.toUInt8).reverse with
  | last :: prev :: _ => some (prev ++ lit ['.'] ++ last)
  | _ => none

/-- Is the URL blocked? The URL, the host name and the domain are looked up in this order; an entry
that says neither yes nor no lets the search go on, but counts as a hit if it was the last one. -/
def isUrlHit (db : CDBManager) (prot host path : Bytes) : Bool :=
  if prot = lit ['h', 't', 't', 'p'] ∨ prot = lit ['h', 't', 't', 'p', 's'] ∨
      prot = lit ['f', 't', 'p'] then
    let host := match CxxString.find (lit [':']) host with
      | some pos => host.take pos
      | none => host
    let path := if path.head? ≠ some '/'.toUInt8 then lit ['/'] ++ path else path
    match (db.hostnameMap (host ++ path)).bind entryVerdict with
    | some verdict => verdict
    | none =>
      match (db.hostnameMap host).bind entryVerdict with
      | some verdict => verdict
      | none =>
        match domainOf host with
        | none => (db.hostnameMap host).isSome
        | some domain =>
          match (db.domainMap domain).bind entryVerdict with
          | some verdict => verdict
          | none => (db.domainMap domain).isSome
  else false

/-- Any entry for the address counts, whatever its value is. -/
def isIpv4Hit (db : CDBManager) (ip4 : Bytes) : Bool := (db.mIp4Map ip4).isSome

end CDBManager

end Killerfinder
