import DeepSecurity.CaptureHpc.WebServiceUpload

/-!
# Which uploads stay in the folder

The target is cut at its second slash, and taken as a whole if there is none.
-/

namespace CaptureHpc

namespace WebService

open Path

variable {app name rest : Bytes} {message : HttpMessage}

/-! ## The cut -/

theorem length_uriFile : uriFile.length = 6 := rfl

theorem drop_uriFile (l : Bytes) : (uriFile ++ l).drop 6 = l := rfl

/-- The two pieces for a position that is not zero, the second one not cut off. -/
theorem appAndFilepath_of_found {uri : Bytes} {found : UInt32}
    (hfound : findSlash uri uriFile.length = found) (hne : found ≠ 0) (hsix : 6 ≤ uri.length)
    (hle : (found + 1).toNat ≤ uri.length) (hlen : uri.length ≤ maxUriSize) :
    appAndFilepath uri = some ((uri.drop 6).take (found - 6).toNat, uri.drop (found + 1).toNat) := by
  have hrest : (uri.drop (found + 1).toNat).length ≤ npos.toNat := by
    have hmax : maxUriSize = 1024 := rfl
    have hnpos : npos.toNat = 2 ^ 32 - 1 := rfl
    rw [List.length_drop]
    omega
  have happ : CxxString.substr uri uriFile.length (found - UInt32.ofNat uriFile.length).toNat =
      some ((uri.drop 6).take (found - 6).toNat) := CxxString.substr_of_le hsix
  have hfilepath : CxxString.substr uri (found + 1).toNat npos.toNat =
      some (uri.drop (found + 1).toNat) := by
    rw [CxxString.substr_of_le hle, List.take_of_length_le hrest]
  simp only [appAndFilepath, hfound]
  rw [if_pos hne, happ, hfilepath]
  rfl

/-- With a second slash, the target is cut there. -/
theorem appAndFilepath_slash (happ : slash ∉ app)
    (hlen : (uriFile ++ (app ++ slash :: name)).length ≤ maxUriSize) :
    appAndFilepath (uriFile ++ (app ++ slash :: name)) = some (app, name) := by
  have hmax : maxUriSize = 1024 := rfl
  have hlength : (uriFile ++ (app ++ slash :: name)).length = 6 + (app.length + (name.length + 1)) := by
    simp [length_uriFile]
  have hfound : findSlash (uriFile ++ (app ++ slash :: name)) uriFile.length =
      UInt32.ofNat (6 + app.length) := by
    have hfind : CxxString.find [slash] (app ++ slash :: name) = some app.length :=
      CxxString.find_append happ [] name
    rw [findSlash, List.drop_left, hfind, length_uriFile]
  have hnat : (UInt32.ofNat (6 + app.length)).toNat = 6 + app.length :=
    UInt32.toNat_ofNat_of_lt' (by change _ < 2 ^ 32; omega)
  have hne : UInt32.ofNat (6 + app.length) ≠ 0 := by
    intro h
    have hzero := congrArg UInt32.toNat h
    rw [hnat] at hzero
    simp at hzero
  have hsub : (UInt32.ofNat (6 + app.length) - 6).toNat = app.length := by
    rw [UInt32.toNat_sub_of_le _ _ (by rw [UInt32.le_iff_toNat_le, hnat]; simp), hnat]
    simp
  have hadd : (UInt32.ofNat (6 + app.length) + 1).toNat = 6 + (app.length + 1) := by
    rw [UInt32.toNat_add, hnat]
    simp
    omega
  rw [appAndFilepath_of_found hfound hne (by omega) (by omega) hlen, hsub, hadd, ← List.drop_drop,
    drop_uriFile, List.take_left, ← List.drop_drop, List.drop_left]
  rfl

/-- Without a second slash, the file path is the whole target. -/
theorem appAndFilepath_no_slash (hrest : slash ∉ rest) (hlen : (uriFile ++ rest).length ≤ maxUriSize) :
    appAndFilepath (uriFile ++ rest) = some (rest, uriFile ++ rest) := by
  have hmax : maxUriSize = 1024 := rfl
  have hlength : (uriFile ++ rest).length = 6 + rest.length := by simp [length_uriFile]
  have hfound : findSlash (uriFile ++ rest) uriFile.length = npos := by
    rw [findSlash, List.drop_left, CxxString.find_singleton_none hrest]
  have hsub : (npos - 6).toNat = 2 ^ 32 - 7 := rfl
  rw [appAndFilepath_of_found hfound (by decide) (by omega) (Nat.zero_le _) hlen, hsub,
    drop_uriFile, List.take_of_length_le (by omega)]
  rfl

/-- A target is cut in one way only. -/
theorem eq_of_append_slash {app' name' : Bytes} (happ : slash ∉ app) (happ' : slash ∉ app')
    (h : app ++ slash :: name = app' ++ slash :: name') : name = name' := by
  have hlength : app.length = app'.length := by
    have hfind : CxxString.find [slash] (app ++ slash :: name) = some app.length :=
      CxxString.find_append happ [] name
    have hfind' : CxxString.find [slash] (app' ++ slash :: name') = some app'.length :=
      CxxString.find_append happ' [] name'
    rw [h, hfind'] at hfind
    exact (Option.some.inj hfind).symm
  exact (List.cons.inj (List.append_inj h hlength).2).2

/-! ## The path -/

/-- A body that is not empty. -/
def HttpMessage.HasData (message : HttpMessage) : Prop :=
  message.postData.isSome ∧ message.postDataLen ≠ 0

theorem serveFileUri_post (hdata : message.HasData)
    (hsplit : appAndFilepath (cStr message.requestUri) = some (app, name)) (hname : 0 ∉ name) :
    serveFileUri 3 message = if name.length ≤ 1007 then
      .ok (.writeFile (tempFileFolder ++ name) app name) else Checked.fault := by
  have hlength : (tempFileFolder ++ name).length + 1 ≤ 1024 ↔ name.length ≤ 1007 := by
    have hfolder : tempFileFolder.length = 16 := rfl
    rw [List.length_append, hfolder]
    omega
  rw [HttpMessage.HasData] at hdata
  rw [serveFileUri, hsplit]
  simp only [recvFile, sprintf, cStr_eq_self hname, hlength]
  rw [if_neg (by decide), if_pos trivial, if_pos hdata]
  split_ifs <;> rfl

/-- The path is confined exactly if the name is plain and leaves room for the folder. -/
theorem confined_iff_of_split (hdata : message.HasData)
    (hsplit : appAndFilepath (cStr message.requestUri) = some (app, name)) (hname : 0 ∉ name) :
    Confined message ↔ PlainName name ∧ name.length ≤ 1007 := by
  rw [Confined, serveFileUri_post hdata hsplit hname]
  constructor
  · rintro ⟨name', app', filepath, hserve, hplain⟩
    split_ifs at hserve with hlen
    · injection hserve with hserve
      injection hserve with hfile
      exact ⟨List.append_cancel_left hfile ▸ hplain, hlen⟩
    · cases hserve
  · rintro ⟨hplain, hlen⟩
    exact ⟨name, app, name, if_pos hlen, hplain⟩

/-- The path stays in the folder and in its buffer exactly if the target has a second slash, behind
which comes a plain name of at most 1007 characters. -/
theorem confined_iff (hdata : message.HasData) (huri : uriFile <+: cStr message.requestUri)
    (hlen : (cStr message.requestUri).length ≤ maxUriSize) :
    Confined message ↔ ∃ app name, cStr message.requestUri = uriFile ++ (app ++ slash :: name) ∧
      slash ∉ app ∧ PlainName name ∧ name.length ≤ 1007 := by
  obtain ⟨rest, hrest⟩ := huri
  have hzero : (0 : UInt8) ∉ uriFile ++ rest := by
    rw [hrest]
    intro h
    simpa using List.mem_takeWhile_imp h
  rw [← hrest] at hlen
  by_cases hslash : slash ∈ rest
  · obtain ⟨app, name, rfl, happ⟩ := List.eq_append_cons_of_mem hslash
    have hname : (0 : UInt8) ∉ name := fun h => hzero (by simp [h])
    rw [confined_iff_of_split hdata (hrest ▸ appAndFilepath_slash happ hlen) hname, ← hrest]
    constructor
    · rintro ⟨hplain, hle⟩
      exact ⟨app, name, rfl, happ, hplain, hle⟩
    · rintro ⟨app', name', heq, happ', hplain, hle⟩
      rw [eq_of_append_slash happ happ' (List.append_cancel_left heq)]
      exact ⟨hplain, hle⟩
  · -- The name is the whole target, which begins with a slash.
    have hsplit := appAndFilepath_no_slash hslash hlen
    rw [hrest] at hsplit
    rw [confined_iff_of_split hdata hsplit (hrest ▸ hzero), ← hrest]
    constructor
    · rintro ⟨hplain, -⟩
      exact absurd (List.mem_append_left rest (List.mem_cons_self (a := slash))) hplain.no_slash
    · rintro ⟨app, name, heq, -⟩
      exact absurd (List.append_cancel_left heq ▸ by simp) hslash

def upload (requestUri : Bytes) : HttpMessage := ⟨requestUri, some 0, 1⟩

/-- `/file/a/b` -/
theorem confined_name : Confined (upload (uriFile ++ [0x61, 0x2F, 0x62])) :=
  (confined_iff ⟨rfl, by decide⟩ ⟨[0x61, 0x2F, 0x62], by decide⟩ (by decide)).mpr
    ⟨[0x61], [0x62], by decide, by decide, ⟨by decide, by decide, by decide⟩, by decide⟩

/-- `/file/a/..\b` -/
def dotsUri : Bytes := uriFile ++ [0x61, 0x2F, 0x2E, 0x2E, 0x5C, 0x62]

/-- The path leads to the folder above. -/
theorem not_confined_dots : uriFile <+: cStr (upload dotsUri).requestUri ∧ (upload dotsUri).HasData ∧
    ¬ Confined (upload dotsUri) := by
  have hdata : (upload dotsUri).HasData := ⟨rfl, by decide⟩
  have hsplit : appAndFilepath (cStr (upload dotsUri).requestUri) =
      some ([0x61], [0x2E, 0x2E, 0x5C, 0x62]) := by decide
  refine ⟨⟨[0x61, 0x2F, 0x2E, 0x2E, 0x5C, 0x62], by decide⟩, hdata, fun h => ?_⟩
  have hplain := ((confined_iff_of_split hdata hsplit (by decide)).mp h).1
  exact hplain.no_backslash (by decide)

end WebService

end CaptureHpc
