import DeepSecurity.Cloudagent.FilterFile
import DeepSecurity.Lib.Trace

/-!
# Proofs: filtering archives

An archive in `/tmp/decompression` is in the list that its own unpacking returns, and so it is unpacked
again. Without one, a call ends after the files of one list.
-/

namespace Cloudagent

open FileTree

namespace Content

variable {c : Content} {members : List (Path × Content)}

theorem archives_of_unpacked_none (h : c.unpacked = none) : c.archives = [] := by
  unfold archives
  split
  · rfl
  · rename_i heq
    rw [h] at heq
    cases heq

theorem archives_of_unpacked (h : c.unpacked = some members) :
    c.archives = members :: members.flatMap fun m => m.2.archives := by
  rw [archives]
  split
  · rename_i heq
    rw [h] at heq
    cases heq
  · rename_i members' heq
    obtain rfl : members = members' := Option.some.inj (h.symm.trans heq)
    have hattach := List.attach_map_val (l := members) (f := fun m => m.2.archives)
    rw [List.flatMap_def, List.flatMap_def, hattach]

end Content

/-! ## Files -/

namespace Files

variable {files : Files} {members : List (Path × Content)} {p : Path} {c : Content}

theorem find_eq_some_iff : files.find p = some c ↔ (p, c) ∈ files.entries :=
  AssocMap.find_eq_some_iff files.nodup

theorem mem_dir : p ∈ files.dir ↔ InDir p ∧ ∃ c, (p, c) ∈ files.entries := by
  simp [dir, and_comm]

theorem eq_of_path_eq {e e' : Path × Content} (he : e ∈ files.entries) (he' : e' ∈ files.entries)
    (h : e.1 = e'.1) : e = e' :=
  List.inj_on_of_nodup_map files.nodup he he' h

end Files

theorem nodup_walk (w : World) (now : Files) : (w.walk now).Nodup :=
  (w.walk_perm now).nodup_iff.mpr (now.nodup.filter _)

theorem mem_walk_iff {w : World} {now : Files} {q : Path} :
    q ∈ w.walk now ↔ InDir q ∧ ∃ c, (q, c) ∈ now.entries := by
  rw [(w.walk_perm now).mem_iff, Files.mem_dir]

variable {s s' : Agent} {p : Path} {c : Content} {members : List (Path × Content)}

/-! ## One call -/

theorem sendPdf_files (s : Agent) (filetype : Str) : (sendPdf p filetype s).files = s.files := by
  unfold sendPdf
  split_ifs <;> rfl

theorem sendPdf_calls (s : Agent) (filetype : Str) : (sendPdf p filetype s).calls = s.calls := by
  unfold sendPdf
  split_ifs <;> rfl

theorem filterFile_of_unpacked_none (w : World) (depth : ℕ) (hc : s.files.find p = some c)
    (h : c.unpacked = none) :
    ∃ s', filterFile w (depth + 1) s p = .ok s' ∧ s'.files = s.files ∧
      s'.calls = s.calls ++ [(p, c)] := by
  unfold Content.unpacked at h
  simp only [filterFile, hc]
  split_ifs at h ⊢
  · exact ⟨_, rfl, rfl, rfl⟩
  · exact ⟨_, rfl, rfl, rfl⟩
  · exact ⟨_, rfl, rfl, rfl⟩
  · rw [h]
    exact ⟨_, rfl, rfl, rfl⟩
  · exact ⟨_, rfl, sendPdf_files _ _, sendPdf_calls _ _⟩

/-- The agent when the members of a file have been extracted. -/
def Agent.extracted (s : Agent) (p : Path) (c : Content) (members : List (Path × Content)) : Agent :=
  { s with files := s.files.extractall members, calls := s.calls ++ [(p, c)] }

/-- An archive is unpacked, and then the files in the directory are gone through. -/
theorem filterFile_of_unpacked (w : World) (depth : ℕ) (hc : s.files.find p = some c)
    (h : c.unpacked = some members) :
    filterFile w (depth + 1) s p = sendPdf p c.filetype <$>
      (w.walk (s.files.extractall members)).foldlM (filterFile w depth) (s.extracted p c members) := by
  unfold Content.unpacked at h
  split_ifs at h with hpe hcompression
  simp only [filterFile, hc, if_neg hpe, if_pos hcompression, h]
  rfl

theorem loop_of_filterFile {w : World} {depth : ℕ} (hc : s.files.find p = some c)
    (hmembers : c.unpacked = some members) (h : filterFile w (depth + 1) s p = .ok s') :
    ∃ s₁, (w.walk (s.files.extractall members)).foldlM (filterFile w depth)
      (s.extracted p c members) = .ok s₁ ∧ s'.files = s₁.files ∧ s'.calls = s₁.calls := by
  rw [filterFile_of_unpacked w depth hc hmembers] at h
  cases hloop : (w.walk (s.files.extractall members)).foldlM (filterFile w depth)
      (s.extracted p c members) with
  | error e =>
    rw [hloop] at h
    cases h
  | ok s₁ =>
    rw [hloop] at h
    obtain rfl : sendPdf p c.filetype s₁ = s' := Except.ok.inj h
    exact ⟨s₁, rfl, sendPdf_files _ _, sendPdf_calls _ _⟩

/-! ## Invariants -/

section

variable {w : World} {depth : ℕ}

/-- What unpacking a file of the machine keeps, a call keeps. -/
theorem filterFile_invariant {P : Files → Prop}
    (hunpack : ∀ files p c members, P files → files.find p = some c → c.unpacked = some members →
      P (files.extractall members))
    (hs : P s.files) (h : filterFile w depth s p = .ok s') : P s'.files := by
  induction depth generalizing s s' p with
  | zero => cases h
  | succ depth ih =>
    cases hc : s.files.find p with
    | none =>
      rw [filterFile, hc] at h
      cases h
    | some c =>
      cases hmembers : c.unpacked with
      | none =>
        obtain ⟨s₁, hok, hfiles, -⟩ := filterFile_of_unpacked_none w depth hc hmembers
        obtain rfl : s₁ = s' := Except.ok.inj (hok.symm.trans h)
        rw [hfiles]
        exact hs
      | some members =>
        obtain ⟨s₁, hloop, hfiles, -⟩ := loop_of_filterFile hc hmembers h
        rw [hfiles]
        have hextracted : P (s.extracted p c members).files := hunpack _ p c members hs hc hmembers
        exact Trace.foldlM_invariant (P := fun s => P s.files) (fun _ _ _ _ hs h => ih hs h) hextracted
          hloop

/-! ## Archives in the directory -/

/-- Everything on the machine comes from `files`, and at `i` there is an archive. -/
structure Stuck (files : Files) (i : Path) (now : Files) : Prop where
  contained : ∀ e ∈ now.entries, Contained files e
  archive : ∃ c, (i, c) ∈ now.entries ∧ c.unpacked ≠ none

theorem contained_extractall {files now : Files} (hnow : ∀ e ∈ now.entries, Contained files e)
    (hc : (p, c) ∈ now.entries) (hmembers : c.unpacked = some members) :
    ∀ e ∈ (now.extractall members).entries, Contained files e := by
  intro e he
  rcases AssocMap.mem_or_mem_of_mem_setAll he with he | he
  · exact hnow e he
  · exact Contained.member (hnow _ hc) hmembers he

/-- Another file cannot take the place of the archive. -/
theorem Stuck.extractall {files now : Files} {i : Path} (hone : OnePath files)
    (h : Stuck files i now) (hc : (p, c) ∈ now.entries) (hmembers : c.unpacked = some members) :
    Stuck files i (now.extractall members) := by
  obtain ⟨archive, hi, harchive⟩ := h.archive
  have hcontained := contained_extractall h.contained hc hmembers
  refine ⟨hcontained, archive, ?_, harchive⟩
  have hkey : i ∈ (now.extractall members).entries.map Prod.fst :=
    AssocMap.mem_keys_setAll (List.mem_map_of_mem hi)
  obtain ⟨e, he, hpath⟩ := List.mem_map.mp hkey
  rwa [← hone e (i, archive) (hcontained e he) (h.contained _ hi) hpath]

/-- The archive stays where it is during a call. -/
theorem Stuck.filterFile {files : Files} {i : Path} (hone : OnePath files)
    (h : Stuck files i s.files) (hok : filterFile w depth s p = .ok s') : Stuck files i s'.files := by
  refine filterFile_invariant ?_ h hok
  intro now q c members hnow hc hmembers
  exact hnow.extractall hone (Files.find_eq_some_iff.mp hc) hmembers

theorem Stuck.mem_walk {files now : Files} {i : Path} (h : Stuck files i now) (hdir : InDir i) :
    i ∈ w.walk now := by
  obtain ⟨archive, hi, -⟩ := h.archive
  exact mem_walk_iff.mpr ⟨hdir, archive, hi⟩

/-- A call for the archive does not come to an end, whatever the depth of the recursion. -/
theorem filterFile_ne_ok_of_stuck {files : Files} {i : Path} (hone : OnePath files) (hdir : InDir i)
    (h : Stuck files i s.files) : filterFile w depth s i ≠ .ok s' := by
  induction depth generalizing s s' with
  | zero => exact fun hok => nomatch hok
  | succ depth ih =>
    intro hok
    obtain ⟨archive, hi, harchive⟩ := h.archive
    obtain ⟨members, hmembers⟩ := Option.ne_none_iff_exists'.mp harchive
    obtain ⟨s₁, hloop, -⟩ := loop_of_filterFile (Files.find_eq_some_iff.mpr hi) hmembers hok
    have hextracted : Stuck files i (s.extracted i archive members).files :=
      h.extractall hone hi hmembers
    exact Trace.foldlM_ne_ok (P := fun s => Stuck files i s.files)
      (fun _ _ _ hs hq => hs.filterFile hone hq) hextracted (fun _ _ => ih)
      (hextracted.mem_walk hdir) hloop

theorem loop_ne_ok_of_stuck {files : Files} {i : Path} {l : List Path} (hone : OnePath files)
    (hdir : InDir i) (h : Stuck files i s.files) (hi : i ∈ l) :
    l.foldlM (filterFile w depth) s ≠ .ok s' := by
  refine Trace.foldlM_ne_ok (P := fun s => Stuck files i s.files) ?_ h ?_ hi
  · intro s q s' hs hq
    exact hs.filterFile hone hq
  · intro s s' hs
    exact filterFile_ne_ok_of_stuck hone hdir hs

/-! ## Directories without archives -/

/-- The files of the list are there, and none is an archive. -/
def Plain (files : Files) (l : List Path) : Prop :=
  ∀ q ∈ l, ∃ c, (q, c) ∈ files.entries ∧ c.unpacked = none

theorem exists_loop_of_plain (w : World) (depth : ℕ) {l : List Path} (h : Plain s.files l) :
    ∃ s', l.foldlM (filterFile w (depth + 1)) s = .ok s' := by
  induction l generalizing s with
  | nil => exact ⟨s, rfl⟩
  | cons q l ih =>
    obtain ⟨c, hc, hplain⟩ := h q List.mem_cons_self
    obtain ⟨s₁, hok, hfiles, -⟩ :=
      filterFile_of_unpacked_none w depth (Files.find_eq_some_iff.mpr hc) hplain
    have hrest : Plain s₁.files l := by
      rw [hfiles]
      exact fun q hq => h q (List.mem_cons_of_mem _ hq)
    rw [List.foldlM_cons, hok]
    exact ih hrest

/-- Each file of the list has been processed once. -/
theorem calls_of_loop {l : List Path} (h : Plain s.files l)
    (hloop : l.foldlM (filterFile w depth) s = .ok s') :
    ∃ calls, s'.calls = s.calls ++ calls ∧ calls.map Prod.fst = l ∧
      ∀ e ∈ calls, e ∈ s.files.entries := by
  induction l generalizing s with
  | nil =>
    rw [← Except.ok.inj hloop]
    exact ⟨[], by simp, rfl, by simp⟩
  | cons q l ih =>
    obtain ⟨c, hc, hplain⟩ := h q List.mem_cons_self
    cases depth with
    | zero => cases hloop
    | succ depth =>
      obtain ⟨s₁, hok, hfiles, hcalls⟩ :=
        filterFile_of_unpacked_none w depth (Files.find_eq_some_iff.mpr hc) hplain
      rw [List.foldlM_cons, hok] at hloop
      have hrest : Plain s₁.files l := by
        rw [hfiles]
        exact fun q hq => h q (List.mem_cons_of_mem _ hq)
      obtain ⟨calls, hs', hpaths, hmem⟩ := ih hrest hloop
      rw [hfiles] at hmem
      refine ⟨(q, c) :: calls, ?_, by rw [List.map_cons, hpaths], ?_⟩
      · rw [hs', hcalls, List.append_assoc]
        rfl
      · exact List.forall_mem_cons.mpr ⟨hc, hmem⟩

end

/-! ## Flat archives -/

variable {files now : Files}

theorem plain_walk (w : World) (hplain : ∀ e ∈ now.entries, InDir e.1 → e.2.unpacked = none) :
    Plain now (w.walk now) := by
  intro q hq
  obtain ⟨hdir, c, hc⟩ := mem_walk_iff.mp hq
  exact ⟨c, hc, hplain _ hc hdir⟩

/-- If all members of an archive are in the directory and none is an archive, they are all it has. -/
theorem archives_eq_singleton (hmembers : c.unpacked = some members)
    (hmem : ∀ m ∈ members, InDir m.1 ∧ m ∈ now.entries)
    (hplain : ∀ e ∈ now.entries, InDir e.1 → e.2.unpacked = none) : c.archives = [members] := by
  rw [Content.archives_of_unpacked hmembers, List.flatMap_eq_nil_iff.mpr]
  intro m hm
  obtain ⟨hdir, hnow⟩ := hmem m hm
  exact Content.archives_of_unpacked_none (hplain m hnow hdir)

/-- The agent before the call for the file `c` with the path `p`. -/
def Agent.start (files : Files) (p : Path) (c : Content) : Agent := ⟨files.write p c, [], [], []⟩

theorem find_start (files : Files) (p : Path) (c : Content) :
    (Agent.start files p c).files.find p = some c := by
  rw [Agent.start, Files.find, Files.write, AssocMap.find_set, if_pos rfl]

/-- The files of a directory without archives are what a call processes behind the archive itself. -/
theorem calls_of_unpacked {w : World} {depth : ℕ}
    (hplain : ∀ e ∈ ((files.write p c).extractall members).entries, InDir e.1 → e.2.unpacked = none)
    (hloop : (w.walk ((files.write p c).extractall members)).foldlM (filterFile w depth)
      ((Agent.start files p c).extracted p c members) = .ok s') :
    s'.calls.tail.map Prod.fst = w.walk ((files.write p c).extractall members) ∧
      ∀ e ∈ s'.calls.tail, e ∈ ((files.write p c).extractall members).entries := by
  obtain ⟨calls, hcalls, hpaths, hmem⟩ := calls_of_loop (plain_walk w hplain) hloop
  have htail : s'.calls.tail = calls := by
    rw [hcalls]
    rfl
  rw [htail]
  exact ⟨hpaths, hmem⟩

theorem filtersAll_of_flat (w : World) (h : Flat files p c) : FiltersAll w files p c := by
  have hfind := find_start files p c
  cases hmembers : c.unpacked with
  | none =>
    obtain ⟨s, hok, -, hcalls⟩ := filterFile_of_unpacked_none w 0 hfind hmembers
    have htail : s.calls.tail = [] := by
      rw [hcalls]
      rfl
    refine ⟨1, s, hok, ?_, ?_⟩
    · simp [Content.archives_of_unpacked_none hmembers]
    · simp [htail]
  | some members =>
    obtain ⟨hmem, hdir⟩ := h members hmembers
    have hplain := fun e he hin => (hdir e he hin).2
    obtain ⟨s₁, hloop⟩ : ∃ s₁, (w.walk ((files.write p c).extractall members)).foldlM
        (filterFile w 1) ((Agent.start files p c).extracted p c members) = .ok s₁ :=
      exists_loop_of_plain w 0 (plain_walk w hplain)
    obtain ⟨hpaths, hcalls⟩ := calls_of_unpacked hplain hloop
    have hok : filterFile w 2 (Agent.start files p c) p = .ok (sendPdf p c.filetype s₁) :=
      (filterFile_of_unpacked w 1 hfind hmembers).trans (congrArg _ hloop)
    rw [FiltersAll, archives_eq_singleton hmembers hmem hplain]
    refine ⟨2, _, hok, ?_, ?_⟩
    · rw [sendPdf_calls]
      intro members' hmembers' m hm
      obtain rfl := List.mem_singleton.mp hmembers'
      have hwalk : m.1 ∈ s₁.calls.tail.map Prod.fst := by
        rw [hpaths, mem_walk_iff]
        exact ⟨(hmem m hm).1, m.2, (hmem m hm).2⟩
      obtain ⟨e, he, hpath⟩ := List.mem_map.mp hwalk
      rwa [← Files.eq_of_path_eq (hcalls e he) (hmem m hm).2 hpath]
    · intro q
      rw [sendPdf_calls, hpaths]
      by_cases hq : q ∈ w.walk ((files.write p c).extractall members)
      · obtain ⟨hin, content, hcontent⟩ := mem_walk_iff.mp hq
        have hmember : q ∈ members.map Prod.fst := (hdir _ hcontent hin).1
        rw [List.countP_singleton, if_pos (by simpa using hmember)]
        exact List.nodup_iff_count_le_one.mp (nodup_walk w _) q
      · rw [List.count_eq_zero.mpr hq]
        exact Nat.zero_le _

/-- Where a call comes to an end, there is no archive in the directory. -/
theorem unpacked_none_of_ok {w : World} {depth : ℕ} (hone : OnePath (files.write p c))
    (hmembers : c.unpacked = some members)
    (hloop : (w.walk ((files.write p c).extractall members)).foldlM (filterFile w depth)
      ((Agent.start files p c).extracted p c members) = .ok s') :
    ∀ e ∈ ((files.write p c).extractall members).entries, InDir e.1 → e.2.unpacked = none := by
  intro e he hdir
  by_contra harchive
  have hroot : (p, c) ∈ (files.write p c).entries := Files.find_eq_some_iff.mp (find_start files p c)
  have hstuck : Stuck (files.write p c) e.1 ((files.write p c).extractall members) :=
    ⟨contained_extractall (fun e he => Contained.file he) hroot hmembers, e.2, he, harchive⟩
  exact loop_ne_ok_of_stuck hone hdir hstuck (hstuck.mem_walk hdir) hloop

theorem flat_of_filtersAll {w : World} (hone : OnePath (files.write p c))
    (h : FiltersAll w files p c) : Flat files p c := by
  intro members hmembers
  obtain ⟨depth, s, hok, hreach, honce⟩ := h
  cases depth with
  | zero => cases hok
  | succ depth =>
    obtain ⟨s₁, hloop, -, hcalls⟩ := loop_of_filterFile (find_start files p c) hmembers hok
    have hplain := unpacked_none_of_ok hone hmembers hloop
    obtain ⟨hpaths, hmem⟩ := calls_of_unpacked hplain hloop
    rw [hcalls] at hreach honce
    have hin : ∀ m ∈ members, InDir m.1 ∧ m ∈ ((files.write p c).extractall members).entries := by
      intro m hm
      have hself : members ∈ c.archives := by
        rw [Content.archives_of_unpacked hmembers]
        exact List.mem_cons_self
      have hcall := hreach members hself m hm
      have hwalk : m.1 ∈ w.walk ((files.write p c).extractall members) :=
        hpaths ▸ List.mem_map_of_mem hcall
      exact ⟨(mem_walk_iff.mp hwalk).1, hmem m hcall⟩
    refine ⟨hin, ?_⟩
    intro e he hdir
    refine ⟨?_, hplain e he hdir⟩
    have hwalk : e.1 ∈ w.walk ((files.write p c).extractall members) :=
      mem_walk_iff.mpr ⟨hdir, e.2, he⟩
    have hcount := honce e.1
    rw [hpaths, archives_eq_singleton hmembers hin hplain] at hcount
    have hpos := (List.count_pos_iff.mpr hwalk).trans_le hcount
    obtain ⟨members', hmembers', hmember⟩ := List.countP_pos_iff.mp hpos
    rw [List.mem_singleton.mp hmembers'] at hmember
    simpa using hmember

/-- A call filters everything if the archive is flat. If no two different files have the same path, it
does so only then. -/
theorem filtersAll_iff (w : World) (files : Files) (p : Path) (c : Content) :
    (Flat files p c → FiltersAll w files p c) ∧
      (OnePath (files.write p c) → (FiltersAll w files p c ↔ Flat files p c)) := by
  constructor
  · exact filtersAll_of_flat w
  · intro hone
    exact ⟨flat_of_filtersAll hone, filtersAll_of_flat w⟩

/-- A zip file with one member. -/
def zipFile (name : Name) (c : Content) : Content :=
  .mk "Zip archive data".toList (some [(decompression ++ [name], c)])

def textFile : Content := .mk "ASCII text".toList none

/-- There are no viruses, and all signatures are fine. -/
def quietWorld : World where
  sophosIt _ _ := 0
  verifySig _ _ := 0
  walk := Files.dir
  walk_perm _ := List.Perm.refl _

theorem isCompression_of_zip {filemagic : Str} (h : "Zip archive data".toList <:+: filemagic) :
    isCompression filemagic = true := by
  unfold isCompression
  apply Bool.or_eq_true_iff.mpr (Or.inl ?_)
  apply Bool.or_eq_true_iff.mpr (Or.inr ?_)
  exact decide_eq_true h

theorem unpacked_zipFile (name : Name) (c : Content) :
    (zipFile name c).unpacked = some [(decompression ++ [name], c)] := by
  have hpe : isPe "Zip archive data".toList = false := by
    apply decide_eq_false
    intro h
    have hP : 'P' ∈ "Zip archive data".toList := h.subset (by simp)
    simp at hP
  have hzip : isCompression "Zip archive data".toList = true := by
    apply isCompression_of_zip
    exact List.infix_refl _
  simp only [Content.unpacked, zipFile, Content.filetype, Content.members, hpe, hzip]
  rw [if_neg Bool.false_ne_true, if_pos trivial]

theorem unpacked_textFile : textFile.unpacked = none := by
  unfold Content.unpacked
  split_ifs
  · rfl
  · rfl
  · rfl

/-- A machine without files. -/
def noFiles : Files := ⟨[], List.nodup_nil⟩

section Nested

-- two archives, one in the other, with one member each
variable {q q' : Path} {outer inner : Content} (houter : outer.unpacked = some [(q, inner)])
  (hinner : inner.unpacked = some [(q', c)]) (hc : c.unpacked = none)

include houter hinner hc

theorem eq_of_contained_nested {e : Path × Content} (he : Contained (noFiles.write p outer) e) :
    e = (p, outer) ∨ e = (q, inner) ∨ e = (q', c) := by
  induction he with
  | file h =>
    rcases AssocMap.mem_set.mp h with heq | ⟨hnil, -⟩
    · exact Or.inl heq
    · cases hnil
  | member h hmembers hm ih =>
    rcases ih with rfl | rfl | rfl
    · rw [houter] at hmembers
      obtain rfl := Option.some.inj hmembers
      exact Or.inr (Or.inl (List.mem_singleton.mp hm))
    · rw [hinner] at hmembers
      obtain rfl := Option.some.inj hmembers
      exact Or.inr (Or.inr (List.mem_singleton.mp hm))
    · rw [hc] at hmembers
      cases hmembers

theorem onePath_nested (hpaths : [p, q, q'].Nodup) : OnePath (noFiles.write p outer) := by
  have hnodup : ([(p, outer), (q, inner), (q', c)].map Prod.fst).Nodup := hpaths
  intro e e' he he' hpath
  apply List.inj_on_of_nodup_map hnodup ?_ ?_ hpath
  · simpa using eq_of_contained_nested houter hinner hc he
  · simpa using eq_of_contained_nested houter hinner hc he'

theorem not_filtersAll_of_nested (w : World) (hpaths : [p, q, q'].Nodup) :
    ¬ FiltersAll w noFiles p outer := by
  intro h
  have hone := onePath_nested houter hinner hc hpaths
  obtain ⟨hmem, hdir⟩ := flat_of_filtersAll hone h _ houter
  obtain ⟨hin, hfile⟩ := hmem _ List.mem_cons_self
  have hnone := (hdir _ hfile hin).2
  rw [hinner] at hnone
  cases hnone

end Nested

/-- A zip file in a zip file is unpacked again and again. -/
theorem not_filtersAll_zip_in_zip :
    ¬ FiltersAll quietWorld noFiles [['x']] (zipFile ['b'] (zipFile ['a'] textFile)) := by
  apply not_filtersAll_of_nested (unpacked_zipFile _ _) (unpacked_zipFile _ _) unpacked_textFile
  simp [decompression]

end Cloudagent
