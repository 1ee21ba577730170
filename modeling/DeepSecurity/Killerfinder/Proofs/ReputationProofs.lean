import DeepSecurity.Killerfinder.Reputation
import Mathlib.Data.List.TakeWhile

/-!
# Proofs: what the block lists decide

The maps that are loaded, the entry that decides on a URL, and the addresses that are blocked.
-/

namespace Killerfinder

namespace CDBManager

/-! ## Loading -/

section Load

variable {maxDb num : ℕ} {m : Entries} {line text : Bytes} {lines : List Bytes}

/-- The loop over the lines: it stops behind the first line without two fields or with the line that
makes one too many. -/
theorem loadLines_eq (hnum : num ≤ maxDb) (hmax : 0 < maxDb) :
    loadLines maxDb m num lines =
      if ∀ line ∈ (lines.filter fun line => ¬ Skipped line).take (maxDb + 1 - num),
          2 ≤ (split line '\t'.toUInt8).length then
        some (AssocMap.setAll m
          (((lines.filter fun line => ¬ Skipped line).take (maxDb + 1 - num)).map readEntry))
      else none := by
  induction lines generalizing m num with
  | nil => simp [loadLines, AssocMap.setAll]
  | cons line lines ih =>
    rw [loadLines]
    by_cases hskip : Skipped line
    · rw [if_pos hskip, ih hnum, List.filter_cons_of_neg (by simpa using hskip)]
    · rw [if_neg hskip, List.filter_cons_of_pos (by simpa using hskip), Nat.succ_sub hnum,
        List.take_succ_cons]
      rcases hfields : split line '\t'.toUInt8 with _ | ⟨key, _ | ⟨value, rest⟩⟩
      · simp [hfields]
      · simp [hfields]
      · have hentry : readEntry line = (key, value) := by simp [readEntry, hfields]
        have hwf : 2 ≤ (split line '\t'.toUInt8).length := by simp [hfields]
        have hall : (∀ l ∈ line :: (lines.filter fun l => ¬ Skipped l).take (maxDb - num),
            2 ≤ (split l '\t'.toUInt8).length) ↔
            ∀ l ∈ (lines.filter fun l => ¬ Skipped l).take (maxDb - num),
              2 ≤ (split l '\t'.toUInt8).length := by
          rw [List.forall_mem_cons, and_iff_right hwf]
        simp only [hall, List.map_cons, hentry]
        by_cases hlast : num + 1 > maxDb
        · have hzero : maxDb - num = 0 := by omega
          rw [if_pos ⟨by omega, hlast⟩, hzero]
          simp [AssocMap.setAll]
        · rw [if_neg (by omega), ih (by omega), Nat.add_sub_add_right]
          rfl

theorem loadFile_eq (hmax : 0 < maxDb) :
    loadFile maxDb text =
      if ∀ line ∈ linesRead maxDb text, 2 ≤ (split line '\t'.toUInt8).length then
        some (AssocMap.setAll [] ((linesRead maxDb text).map readEntry))
      else none :=
  loadLines_eq (Nat.zero_le _) hmax

theorem length_filter_cons_le {first first' : Bytes} {pieces pieces' : List Bytes}
    (hfirst : first ≠ [] → first' ≠ [])
    (hpieces : (pieces.filter (· ≠ [])).length ≤ (pieces'.filter (· ≠ [])).length) :
    ((first :: pieces).filter (· ≠ [])).length ≤ ((first' :: pieces').filter (· ≠ [])).length := by
  rw [List.filter_cons, List.filter_cons]
  by_cases hne : first = []
  · simp only [hne, ne_eq, not_true_eq_false, decide_false, Bool.false_eq_true, if_false]
    split_ifs
    · exact hpieces.trans (Nat.le_succ _)
    · exact hpieces
  · simpa [hne, hfirst hne] using hpieces

/-- A text has at least as many fields as a beginning of it: only the last field of the beginning may
go on behind it. -/
theorem length_fields_le (pre rest : Bytes) : (fields pre).length ≤ (fields (pre ++ rest)).length := by
  suffices ∃ first pieces first' pieces', pre.splitOn '\t'.toUInt8 = first :: pieces ∧
      (pre ++ rest).splitOn '\t'.toUInt8 = first' :: pieces' ∧ (first ≠ [] → first' ≠ []) ∧
      (pieces.filter (· ≠ [])).length ≤ (pieces'.filter (· ≠ [])).length by
    obtain ⟨first, pieces, first', pieces', h, h', hfirst, hpieces⟩ := this
    rw [fields, fields, h, h']
    exact length_filter_cons_le hfirst hpieces
  induction pre with
  | nil =>
    rcases hpieces : rest.splitOn '\t'.toUInt8 with _ | ⟨first, pieces⟩
    · exact absurd hpieces (List.splitOn_ne_nil _ _)
    · exact ⟨[], [], first, pieces, by simp, hpieces, by simp, by simp⟩
  | cons c pre ih =>
    obtain ⟨first, pieces, first', pieces', h, h', hfirst, hpieces⟩ := ih
    rw [List.cons_append, List.splitOn_cons_eq_if_modifyHead, List.splitOn_cons_eq_if_modifyHead, h, h']
    split_ifs
    · exact ⟨_, _, _, _, rfl, rfl, by simp, length_filter_cons_le hfirst hpieces⟩
    · exact ⟨_, _, _, _, rfl, rfl, by simp, hpieces⟩

/-- Two fields before the first null character are two fields. -/
theorem length_split_le (line : Bytes) : (split line '\t'.toUInt8).length ≤ (fields line).length := by
  have h := length_fields_le (line.takeWhile (· ≠ 0)) (line.dropWhile (· ≠ 0))
  rwa [List.takeWhile_append_dropWhile] at h

theorem take_filter_of_forall {α : Type} {p : α → Bool} {l : List α} {n : ℕ}
    (h : ∀ a ∈ l.take n, p a = true) : (l.filter p).take n = l.take n := by
  induction l generalizing n with
  | nil => rfl
  | cons a l ih =>
    cases n with
    | zero => rfl
    | succ n =>
      rw [List.take_succ_cons, List.forall_mem_cons] at h
      rw [List.filter_cons_of_pos h.1, List.take_succ_cons, List.take_succ_cons, ih h.2]

/-- If no line that is read is malformed, a file says what its first lines say. -/
theorem reputation_eq (h : ∀ line ∈ linesRead maxDb text, 2 ≤ (fields line).length) :
    reputation maxDb text = AssocMap.last (((entryLines text).take maxDb).map entryOf) := by
  have hfilter : ((getlines text).filter fun line => WellFormed line) =
      (entryLines text).filter fun line => 2 ≤ (fields line).length := by
    rw [entryLines, List.filter_filter]
    refine List.filter_congr fun line _ => ?_
    rw [Bool.eq_iff_iff, Bool.and_eq_true]
    simp only [decide_eq_true_eq]
    exact and_comm
  have htake : ∀ line ∈ (entryLines text).take maxDb,
      decide (2 ≤ (fields line).length) = true := by
    intro line hline
    refine decide_eq_true (h line ?_)
    exact (List.take_prefix_take_left (Nat.le_succ maxDb)).subset hline
  rw [reputation, hfilter, take_filter_of_forall htake]

/-- The map of a file is what the file says. -/
def Loads (maxDb : ℕ) (text : Bytes) : Prop :=
  ∃ m, loadFile maxDb text = some m ∧ ∀ k, AssocMap.find m k = reputation maxDb text k

theorem loads_iff (hmax : 0 < maxDb) : Loads maxDb text ↔ CleanFor maxDb text := by
  rw [Loads, loadFile_eq hmax, CleanFor]
  by_cases hread : ∀ line ∈ linesRead maxDb text, 2 ≤ (split line '\t'.toUInt8).length
  · have hwf : ∀ line ∈ linesRead maxDb text, 2 ≤ (fields line).length := fun line hline =>
      (hread line hline).trans (length_split_le line)
    rw [if_pos hread, and_iff_right hread, reputation_eq hwf]
    simp [AssocMap.find_setAll_nil]
  · rw [if_neg hread]
    simp [hread]

/-- If a null character cuts off nothing of the entries that are read, it is only the line that is one
too many that may say something new. -/
theorem cleanFor_iff_of_uncut (h : ∀ line ∈ linesRead maxDb text, readEntry line = entryOf line) :
    CleanFor maxDb text ↔
      (∀ line ∈ linesRead maxDb text, 2 ≤ (split line '\t'.toUInt8).length) ∧
        ∀ line ∈ (entryLines text)[maxDb]?,
          AssocMap.last (((entryLines text).take maxDb).map entryOf) (entryOf line).1 =
            some (entryOf line).2 := by
  rw [CleanFor, List.map_congr_left h]
  refine and_congr_right fun _ => ?_
  rcases hextra : (entryLines text)[maxDb]? with _ | line
  · have hsame : linesRead maxDb text = (entryLines text).take maxDb := by
      rw [linesRead, List.take_add_one, hextra]
      simp
    simp [hsame]
  · have hsnoc : linesRead maxDb text = (entryLines text).take maxDb ++ [line] := by
      rw [linesRead, List.take_add_one, hextra]
      rfl
    rw [hsnoc, List.map_append, List.map_singleton]
    simp only [Option.mem_some_iff, forall_eq']
    constructor
    · intro h
      rw [← h (entryOf line).1, AssocMap.last_snoc, if_pos rfl]
    · intro h k
      rw [AssocMap.last_snoc]
      split_ifs with hk
      · rw [hk, h]
      · rfl

theorem start_eq_some {files : DbIndex → Bytes} {maps : DbIndex → Entries} :
    start maxDb files = some maps ↔ ∀ i, loadFile maxDb (files i) = some (maps i) := by
  constructor
  · intro h i
    simp only [start, Option.bind_eq_bind, Option.bind_eq_some_iff, Option.pure_def,
      Option.some.injEq] at h
    obtain ⟨ipv4, h4, domain, hd, hostname, hh, rfl⟩ := h
    cases i with
    | ipv4 => exact h4
    | domain => exact hd
    | hostname => exact hh
  · intro h
    simp only [start, h, Option.bind_eq_bind, Option.bind_some, Option.pure_def, Option.some.injEq]
    funext i
    cases i <;> rfl

/-- The maps are what the files say if and only if no file has a line without two fields among those
that are read, and what is read says the same as the lines up to the limit. -/
theorem loadsAll_iff_cleanFor (hmax : 0 < maxDb) (files : DbIndex → Bytes) :
    LoadsAll maxDb files ↔ ∀ i, CleanFor maxDb (files i) := by
  simp only [← loads_iff hmax, LoadsAll, start_eq_some, Loads]
  constructor
  · rintro ⟨maps, hload, hmaps⟩ i
    exact ⟨maps i, hload i, hmaps i⟩
  · intro h
    choose maps hmaps using h
    exact ⟨maps, fun i => (hmaps i).1, fun i => (hmaps i).2⟩

/-- A file with one entry is loaded as it is, however small the limit is, and whatever there is in lines
that are skipped or behind the second field. -/
theorem loadsAll_one_line : LoadsAll 1 fun _ => [32, 0, 10] ++ lit ['a', '\t', '1', '\t'] ++ [0, 10] := by
  refine (loadsAll_iff_cleanFor (by decide) _).mpr fun _ => (cleanFor_iff_of_uncut ?_).mpr ?_
  · decide
  · decide

/-- A line without a second field is read beyond its fields, and with a limit of one line two lines are
loaded. -/
theorem not_loadsAll_malformed : ¬ LoadsAll 1 (fun _ => lit ['a', '\n']) ∧
    ¬ LoadsAll 1 (fun _ => lit ['a', '\t', '1', '\n', 'b', '\t', '1', '\n']) := by
  constructor
  · rintro ⟨maps, hstart, -⟩
    have hnone : loadFile 1 (lit ['a', '\n']) = none := by decide
    have hsome := start_eq_some.mp hstart .ipv4
    rw [hnone] at hsome
    cases hsome
  · rintro ⟨maps, hstart, hmaps⟩
    have hload : loadFile 1 (lit ['a', '\t', '1', '\n', 'b', '\t', '1', '\n']) =
        some [(lit ['b'], lit ['1']), (lit ['a'], lit ['1'])] := by decide
    have hsome := start_eq_some.mp hstart .ipv4
    rw [hload] at hsome
    have hb := hmaps .ipv4 (lit ['b'])
    rw [← Option.some.inj hsome] at hb
    exact absurd hb (by decide)

end Load

/-! ## URLs -/

section Url

variable (db : CDBManager) (prot host path : Bytes)

/-- If no entry decides, the answer is whether the last look-up has found one. -/
theorem isUrlHit_of_isUrlProtocol {prot : Bytes} (h : IsUrlProtocol prot) :
    db.isUrlHit prot host path = (verdict db host path).getD (lastLookup db host).isSome := by
  simp only [isUrlHit]
  rw [if_pos (show _ ∨ _ from h), verdict, lookups, lastLookup, List.findSome?_cons]
  -- the look-ups one after the other, each if the one before has not decided
  split
  · rename_i value hurl
    have hurl : (db.hostnameMap (withoutPort host ++ absolutePath path)).bind entryVerdict =
      some value := hurl
    rw [hurl]
    rfl
  · rename_i hurl
    have hurl : (db.hostnameMap (withoutPort host ++ absolutePath path)).bind entryVerdict = none :=
      hurl
    rw [hurl, List.findSome?_cons]
    split
    · rename_i value hhost
      have hhost : (db.hostnameMap (withoutPort host)).bind entryVerdict = some value := hhost
      rw [hhost]
      rfl
    · rename_i hhost
      have hhost : (db.hostnameMap (withoutPort host)).bind entryVerdict = none := hhost
      rw [hhost, List.findSome?_cons]
      split
      · rename_i hdomain
        have hdomain : domainOf (withoutPort host) = none := hdomain
        rw [hdomain]
        rfl
      · rename_i domain hdomain
        have hdomain : domainOf (withoutPort host) = some domain := hdomain
        rw [hdomain, Option.bind_some]
        cases (db.domainMap domain).bind entryVerdict <;> rfl

theorem isUrlHit_of_not_isUrlProtocol {prot : Bytes} (h : ¬ IsUrlProtocol prot) :
    db.isUrlHit prot host path = false := by
  simp only [isUrlHit]
  exact if_neg h

/-- The most specific valid entry decides if and only if there is one, or no URL is asked for, or the
last look-up finds no entry. -/
theorem mostSpecificWins_iff :
    MostSpecificWins db prot host path ↔
      (IsUrlProtocol prot → verdict db host path = none → lastLookup db host = none) := by
  unfold MostSpecificWins
  by_cases hprot : IsUrlProtocol prot
  · rw [isUrlHit_of_isUrlProtocol db host path hprot]
    cases hv : verdict db host path with
    | some v => simp [hprot]
    | none => simp [hprot]
  · simp [isUrlHit_of_not_isUrlProtocol db host path hprot, hprot]

/-- A value that is neither yes nor no counts as yes if it is the last one. -/
theorem not_mostSpecificWins_wrong_value :
    ¬ MostSpecificWins ⟨fun k => if k = lit ['a'] then some (lit ['x']) else none, fun _ => none,
      fun _ => none⟩ (lit ['h', 't', 't', 'p']) (lit ['a']) (lit ['/']) := by
  intro h
  exact absurd (h.mp (by decide)).2 (by decide)

end Url

/-! ## Addresses -/

section Ipv4

variable {inetAton : Bytes → Option Bytes} {addr a : Bytes} {m entries : Entries}

theorem inMap_cons {key value : Bytes} :
    InMap inetAton addr ((key, value) :: entries) a ↔
      a = (inetAton key).getD addr ∨ InMap inetAton ((inetAton key).getD addr) entries a := by
  rcases hkey : inetAton key with _ | b
  · by_cases ha : a = addr
    · simp [InMap, hkey, ha]
    · simp [InMap, hkey, ha]
  · by_cases ha : a = b
    · simp [InMap, hkey, ha]
    · simp [InMap, hkey, ha, Ne.symm ha]

theorem isSome_find_ip4Map :
    (AssocMap.find (ip4Map inetAton addr m entries) a).isSome ↔
      (AssocMap.find m a).isSome ∨ InMap inetAton addr entries a := by
  induction entries generalizing addr m with
  | nil => simp [ip4Map, InMap]
  | cons e entries ih =>
    obtain ⟨key, value⟩ := e
    rw [ip4Map, ih, AssocMap.find_set, inMap_cons]
    split_ifs with ha
    · simp [ha]
    · simp [ha]

theorem isIpv4Hit_ofMaps {maps : DbIndex → Entries} :
    (ofMaps inetAton addr maps).isIpv4Hit a = true ↔ InMap inetAton addr (maps .ipv4) a := by
  rw [isIpv4Hit, ofMaps, isSome_find_ip4Map]
  simp [AssocMap.find]

theorem Listed.inMap {value : Bytes} (h : Listed inetAton entries a value) :
    InMap inetAton addr entries a := by
  obtain ⟨key, hmem, hkey⟩ := h
  exact Or.inl ⟨_, hmem, hkey⟩

end Ipv4

end CDBManager

namespace CTcpSession

variable {P : HttpParser} (inetAton : Bytes → Option Bytes) (addr : Bytes)
  (maps : CDBManager.DbIndex → CDBManager.Entries) (sess : CTcpSession P) (p : CL4Info)

/-- The flag after a packet: the value of an entry and the address of the receiver do not matter. -/
theorem shouldBlock_blockMe :
    (sess.blockMe (.ofMaps inetAton addr maps) p).1.mShouldBlock = true ↔
      sess.mShouldBlock = true ∨
        p.ipVersion = 4 ∧ CDBManager.InMap inetAton addr (maps .ipv4) p.srcIp.getIpv4 := by
  rw [← CDBManager.isIpv4Hit_ofMaps]
  unfold blockMe checkAddress
  by_cases hversion : p.ipVersion = 4
  · simp only [if_pos hversion, Bool.or_self]
    split_ifs with hhit
    · simp [hhit, hversion]
    · simp [hhit]
  · simp [hversion]

/-- `ms` and `md` say whether source and destination are in the map, `ls` and `ld` whether an entry
lists them. -/
theorem alike_cases {ls ld ms md : Prop} (hs : ls → ms) (hd : ld → md) :
    (ms ↔ ls ∨ ld) ∧ (md ↔ ms) ↔ (¬ ms ∧ ¬ md) ∨ (ms ∧ md ∧ (ls ∨ ld)) := by
  constructor
  · rintro ⟨hflag, hexchanged⟩
    by_cases hms : ms
    · exact Or.inr ⟨hms, hexchanged.mpr hms, hflag.mp hms⟩
    · exact Or.inl ⟨hms, fun hmd => hms (hexchanged.mp hmd)⟩
  · rintro (⟨hms, hmd⟩ | ⟨hms, hmd, hlisted⟩)
    · have hnot : ¬ (ls ∨ ld) := by
        rintro (hls | hld)
        · exact hms (hs hls)
        · exact hmd (hd hld)
      exact ⟨iff_of_false hms hnot, iff_of_false hmd hms⟩
    · exact ⟨iff_of_true hms hlisted, iff_of_true hmd hms⟩

/-- Both ends are treated alike if and only if the flag is set already, the packet is not an IPv4
packet, neither address has an entry, or both have one and one of the values is `1`. -/
theorem treatsAlike_iff :
    TreatsAlike inetAton addr maps sess p ↔
      sess.mShouldBlock = true ∨ p.ipVersion ≠ 4 ∨
      (¬ CDBManager.InMap inetAton addr (maps .ipv4) p.srcIp.getIpv4 ∧
        ¬ CDBManager.InMap inetAton addr (maps .ipv4) p.dstIp.getIpv4) ∨
      (CDBManager.InMap inetAton addr (maps .ipv4) p.srcIp.getIpv4 ∧
        CDBManager.InMap inetAton addr (maps .ipv4) p.dstIp.getIpv4 ∧
        (CDBManager.Listed inetAton (maps .ipv4) p.srcIp.getIpv4 (lit ['1']) ∨
          CDBManager.Listed inetAton (maps .ipv4) p.dstIp.getIpv4 (lit ['1']))) := by
  have hiff : TreatsAlike inetAton addr maps sess p ↔
      ((sess.blockMe (.ofMaps inetAton addr maps) p).1.mShouldBlock = true ↔ _) ∧
      ((sess.blockMe (.ofMaps inetAton addr maps) p.exchanged).1.mShouldBlock = true ↔
        (sess.blockMe (.ofMaps inetAton addr maps) p).1.mShouldBlock = true) :=
    ⟨fun h => ⟨h.flag, Bool.eq_iff_iff.mp h.exchanged⟩,
      fun h => ⟨h.1, Bool.eq_iff_iff.mpr h.2⟩⟩
  rw [hiff, shouldBlock_blockMe, shouldBlock_blockMe]
  simp only [CL4Info.exchanged]
  by_cases hflag : sess.mShouldBlock = true
  · simp [hflag]
  by_cases hversion : p.ipVersion = 4
  · simp only [hflag, hversion, false_or, true_and, ne_eq, not_true_eq_false, Bool.false_eq_true]
    -- an entry with the value `1` is an entry
    exact alike_cases CDBManager.Listed.inMap CDBManager.Listed.inMap
  · simp [hversion]

/-- The address of the receiver has an entry with the value `1`, and the packet does not set the
flag; or the address of the sender has one with the value `0`, and the packet sets it. -/
theorem not_treatsAlike_receiver :
    ¬ TreatsAlike (P := .scripted []) (fun _ => some [2, 2, 2, 2]) []
      (fun _ => [(lit ['2', '.', '2', '.', '2', '.', '2'], lit ['1'])])
      (.new ⟨[], []⟩ ⟨.ofIpv4 1 1 1 1, 9, .ofIpv4 2 2 2 2, 80⟩)
      ⟨0, 4, .ofIpv4 1 1 1 1, .ofIpv4 2 2 2 2, 9, 80, 0, 0, 0, [], by decide⟩ ∧
    ¬ TreatsAlike (P := .scripted []) (fun _ => some [1, 1, 1, 1]) []
      (fun _ => [(lit ['1', '.', '1', '.', '1', '.', '1'], lit ['0'])])
      (.new ⟨[], []⟩ ⟨.ofIpv4 1 1 1 1, 9, .ofIpv4 2 2 2 2, 80⟩)
      ⟨0, 4, .ofIpv4 1 1 1 1, .ofIpv4 2 2 2 2, 9, 80, 0, 0, 0, [], by decide⟩ := by
  have hvalue : lit ['1'] ≠ lit ['0'] := by decide
  constructor
  · intro h
    have hset := h.flag.mpr (Or.inr ⟨rfl, Or.inr ⟨_, List.mem_singleton_self _, rfl⟩⟩)
    exact absurd hset (by decide)
  · intro h
    rcases h.flag.mp (by decide) with hnew | ⟨-, ⟨key, hmem, -⟩ | ⟨key, hmem, -⟩⟩
    · exact absurd hnew (by decide)
    · exact hvalue (Prod.ext_iff.mp (List.mem_singleton.mp hmem)).2
    · exact hvalue (Prod.ext_iff.mp (List.mem_singleton.mp hmem)).2

end CTcpSession

end Killerfinder
