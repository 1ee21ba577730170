import DeepSecurity.Cloudserver.LogServer
import Mathlib.Data.List.Induction

/-!
# What the receiver forwards

Along a connection every file holds, with what is in the buffer, the lines that have been written to it,
and the copies of all files but the current one are complete. What the copy of the current file lacks in
the end is what is in the buffer.
-/

namespace Cloudserver

open BufferedFile

/-! ## Names of files -/

theorem baseName_append (folder : Bytes) {name : Bytes} (h : solidus ∉ name) :
    baseName (folder ++ solidus :: name) = name := by
  have hdrop : (folder ++ solidus :: name).drop (folder.length + 1) = name := by
    rw [← List.drop_drop, List.drop_left]
    rfl
  simp only [baseName, CxxString.findLast_append h, hdrop]

namespace Folders

variable (f : Folders)

theorem dstFile_logFile (now : Minute) :
    f.dstFile (f.logFile now) = f.dstFolder ++ solidus :: now.1 := by
  rw [dstFile, logFile, baseName_append _ now.2]

theorem dstFile_ne_logFile (now now' : Minute) : f.dstFile (f.logFile now) ≠ f.logFile now' := by
  rw [dstFile_logFile]
  intro h
  have hname := congrArg baseName h
  rw [logFile, baseName_append _ now.2, baseName_append _ now'.2] at hname
  rw [logFile, hname] at h
  exact f.ne (List.append_cancel_right h).symm

theorem logFile_of_dstFile {now now' : Minute}
    (h : f.dstFile (f.logFile now) = f.dstFile (f.logFile now')) :
    f.logFile now = f.logFile now' := by
  rw [dstFile_logFile, dstFile_logFile] at h
  rw [logFile, logFile, List.append_cancel_left h]

theorem logFile_ne_nil (now : Minute) : f.logFile now ≠ [] := by simp [logFile]

end Folders

namespace CLogReceiver

variable {f : Folders} {files : Bytes → Option Bytes} {events : List LogEvent} {r : CLogReceiver}

/-! ## The invariant -/

/-- The state of a connection on which the lines of `events` have been received. -/
structure Inv (f : Folders) (files : Bytes → Option Bytes) (events : List LogEvent) (r : CLogReceiver) :
    Prop where
  out : r.store.out = some (r.file2Write, r.pending)
  current : ∃ now, r.file2Write = f.logFile now
  exists_current : (r.store.files r.file2Write).isSome
  paths : ∀ p ∈ r.saved, ∃ now, p.1 = f.logFile now
  whole : ∀ now, r.store.whole (f.logFile now) =
    (files (f.logFile now)).getD [] ++ textFor r.saved (f.logFile now)
  copied : ∀ p ∈ r.saved, p.1 ≠ r.file2Write → r.store.files (f.dstFile p.1) = some (r.store.whole p.1)
  wrote : r.pending ≠ [] → r.file2Write ∈ r.saved.map Prod.fst
  saved : r.saved.map Prod.snd = records events

theorem inv_connectionMade (now : Minute) : Inv f files [] (connectionMade f files now) := by
  have hmade : connectionMade f files now =
      ⟨Store.openAppend ⟨files, none⟩ (f.logFile now), f.logFile now, 64, []⟩ := by
    simp [connectionMade, createFD2Write, leaveFile, copyFile2Write, fileExists, Store.close,
      Ne.symm (f.logFile_ne_nil now)]
  rw [hmade]
  refine ⟨?_, ⟨now, rfl⟩, ?_, by simp, ?_, by simp, ?_, rfl⟩
  · simp [pending, Store.openAppend, Store.buffered]
  · simp [Store.openAppend, Store.append_self]
  · intro now'
    rw [Store.whole_openAppend rfl]
    simp [Store.whole, Store.buffered, textFor]
  · simp [pending, Store.openAppend, Store.buffered]

theorem pending_of_out {b : Bytes} (hout : r.store.out = some (r.file2Write, b)) : r.pending = b :=
  Store.buffered_self hout

/-- The copies have other names than the file that is written. -/
theorem Inv.dstFile_ne (h : Inv f files events r) {p : Bytes × Bytes} (hp : p ∈ r.saved)
    (now : Minute) : f.dstFile p.1 ≠ f.logFile now := by
  obtain ⟨now', hnow'⟩ := h.paths p hp
  rw [hnow']
  exact f.dstFile_ne_logFile now' now

theorem Inv.dstFile_ne_dstFile (h : Inv f files events r) {p : Bytes × Bytes} (hp : p ∈ r.saved)
    (hne : p.1 ≠ r.file2Write) : f.dstFile p.1 ≠ f.dstFile r.file2Write := by
  obtain ⟨now, hnow⟩ := h.paths p hp
  obtain ⟨last, hlast⟩ := h.current
  intro heq
  rw [hnow, hlast] at heq
  exact hne (by rw [hnow, hlast, f.logFile_of_dstFile heq])

theorem Inv.file2Write_ne_nil (h : Inv f files events r) : r.file2Write ≠ [] := by
  obtain ⟨now, hnow⟩ := h.current
  rw [hnow]
  exact f.logFile_ne_nil now

theorem Inv.flush (h : Inv f files events r) (n : ℕ) :
    Inv f files events { r with store := r.store.flush n } := by
  have hout := Store.out_flush h.out n
  have hpending : CLogReceiver.pending { r with store := r.store.flush n } = r.pending.drop n :=
    Store.buffered_self hout
  refine ⟨by rw [hpending]; exact hout, h.current, ?_, h.paths, ?_, ?_, ?_, h.saved⟩
  · rw [Store.files_flush h.out]
    exact Store.files_append_isSome _ _ h.exists_current
  · intro now
    rw [Store.whole_flush, h.whole]
  · intro p hp hne
    obtain ⟨now, hnow⟩ := h.current
    rw [Store.whole_flush, Store.files_flush h.out, Store.append_of_ne (hnow ▸ h.dstFile_ne hp now)]
    exact h.copied p hp hne
  · intro hne
    refine h.wrote fun hnil => hne ?_
    rw [hpending, hnil, List.drop_nil]

/-- In another minute the current file is closed and copied, and a new one is opened. -/
theorem Inv.createFD2Write_of_ne (h : Inv f files events r) {now : Minute}
    (hne : r.file2Write ≠ f.logFile now) :
    r.createFD2Write f now = { r with
      store := (r.store.close.copyFile r.file2Write (f.dstFile r.file2Write)).openAppend (f.logFile now)
      file2Write := f.logFile now } := by
  have hexists : fileExists { r with store := r.store.close } r.file2Write = true := by
    simp [fileExists, Store.files_close h.out, h.file2Write_ne_nil]
  have hnone : (r.store.close.copyFile r.file2Write (f.dstFile r.file2Write)).out = none :=
    Store.out_close
  simp only [createFD2Write, leaveFile, if_pos hne, copyFile2Write, if_pos hexists, hnone,
    Option.isNone_none, if_true]

theorem Inv.createFD2Write (h : Inv f files events r) (now : Minute) :
    Inv f files events (r.createFD2Write f now) := by
  by_cases hne : r.file2Write = f.logFile now
  · have hsame : r.createFD2Write f now = r := by
      simp [CLogReceiver.createFD2Write, leaveFile, hne, h.out]
    rw [hsame]
    exact h
  · rw [h.createFD2Write_of_ne hne]
    obtain ⟨old, hold⟩ := h.current
    have hwhole (now' : Minute) : Store.whole
        ((r.store.close.copyFile r.file2Write (f.dstFile r.file2Write)).openAppend (f.logFile now))
        (f.logFile now') = r.store.whole (f.logFile now') := by
      have hdst : f.logFile now' ≠ f.dstFile r.file2Write := by
        rw [hold]
        exact (f.dstFile_ne_logFile old now').symm
      have hnone : (r.store.close.copyFile r.file2Write (f.dstFile r.file2Write)).out = none :=
        Store.out_close
      rw [Store.whole_openAppend hnone, Store.whole_copyFile hdst, Store.whole_close]
    refine ⟨?_, ⟨now, rfl⟩, ?_, h.paths, ?_, ?_, ?_, h.saved⟩
    · simp [pending, Store.openAppend, Store.buffered]
    · simp [Store.openAppend, Store.append_self]
    · intro now'
      rw [hwhole, h.whole]
    · intro p hp _
      obtain ⟨now', hnow'⟩ := h.paths p hp
      have hnew := h.dstFile_ne hp now
      rw [hnow', hwhole, ← hnow']
      simp only [Store.openAppend, Store.append_of_ne hnew, Store.copyFile]
      by_cases hp' : p.1 = r.file2Write
      · rw [hp', Function.update_self, Store.files_close h.out]
      · rw [Function.update_of_ne (h.dstFile_ne_dstFile hp hp'),
          Store.files_close_of_ne h.out (hold ▸ h.dstFile_ne hp old)]
        exact h.copied p hp hp'
    · simp [pending, Store.openAppend, Store.buffered]

theorem Inv.write (h : Inv f files events r) {line : Bytes} (hline : line ≠ []) (now : Minute) :
    Inv f files (events ++ [.line line now]) { r with
      store := r.store.write (line ++ [newline])
      saved := r.saved ++ [(r.file2Write, line)] } := by
  have hout : (r.store.write (line ++ [newline])).out =
      some (r.file2Write, r.pending ++ (line ++ [newline])) := by
    rw [Store.write, h.out]
    rfl
  have hmem {p : Bytes × Bytes} (hp : p ∈ r.saved ++ [(r.file2Write, line)])
      (hne : p.1 ≠ r.file2Write) : p ∈ r.saved := by
    rcases List.mem_append.mp hp with hp | hp
    · exact hp
    · rw [List.mem_singleton.mp hp] at hne
      exact absurd rfl hne
  refine ⟨?_, h.current, h.exists_current, ?_, ?_, ?_, ?_, ?_⟩
  · rw [pending_of_out hout]
    exact hout
  · intro p hp
    by_cases hne : p.1 = r.file2Write
    · rw [hne]
      exact h.current
    · exact h.paths p (hmem hp hne)
  · intro now'
    rw [Store.whole_write h.out, h.whole, List.append_assoc, textFor, textFor, List.flatMap_append]
    simp
  · intro p hp hne
    rw [Store.whole_write h.out, if_neg (Ne.symm hne), List.append_nil]
    exact h.copied p (hmem hp hne) hne
  · intro _
    simp
  · rw [List.map_append, h.saved, records, records, List.filterMap_append]
    simp [hline]

/-! ## The connection -/

/-- The counter plays no part. -/
theorem Inv.withCounter (h : Inv f files events r) (c : ℕ) : Inv f files events { r with c := c } :=
  ⟨h.out, h.current, h.exists_current, h.paths, h.whole, h.copied, h.wrote, h.saved⟩

/-- An event that brings no line to be saved. -/
theorem Inv.skip (h : Inv f files events r) {e : LogEvent} (he : records [e] = []) :
    Inv f files (events ++ [e]) r := by
  refine { h with saved := ?_ }
  rw [records] at he
  rw [h.saved, records, records, List.filterMap_append, he, List.append_nil]

theorem Inv.revisitFD2Write (h : Inv f files events r) (now : Minute) :
    Inv f files events (r.revisitFD2Write f now) := by
  unfold CLogReceiver.revisitFD2Write
  split_ifs
  · exact (h.withCounter 64).createFD2Write now
  · exact h.withCounter _

theorem Inv.step (h : Inv f files events r) (e : LogEvent) :
    Inv f files (events ++ [e]) (step f r e) := by
  cases e with
  | flush n => exact (h.flush n).skip rfl
  | line line now =>
    simp only [CLogReceiver.step, lineReceived]
    split_ifs with hline
    · exact h.skip (by simp [records, hline])
    · exact (h.revisitFD2Write now).write hline now

theorem inv_run (f : Folders) (files : Bytes → Option Bytes) (now : Minute) (events : List LogEvent) :
    Inv f files events (run f files now events) := by
  induction events using List.reverseRecOn with
  | nil => exact inv_connectionMade now
  | append_singleton events e ih =>
    rw [run, List.foldl_append]
    exact ih.step e

/-- What the copies are after the loss of the connection: complete, but for what is in the buffer. -/
theorem Inv.files_connectionLost (h : Inv f files events r) {p : Bytes × Bytes} (hp : p ∈ r.saved) :
    ∃ copy, (r.connectionLost f).store.files (f.dstFile p.1) = some copy ∧
      copy ++ (if p.1 = r.file2Write then r.pending else []) =
        (files p.1).getD [] ++ textFor r.saved p.1 := by
  obtain ⟨now, hnow⟩ := h.paths p hp
  obtain ⟨last, hlast⟩ := h.current
  have hexists : r.fileExists r.file2Write = true := by
    simp [fileExists, h.exists_current, h.file2Write_ne_nil]
  have hout : (r.store.copyFile r.file2Write (f.dstFile r.file2Write)).out =
      some (r.file2Write, r.pending) := h.out
  have hwhole : r.store.whole p.1 = (files p.1).getD [] ++ textFor r.saved p.1 := hnow ▸ h.whole now
  simp only [connectionLost, copyFile2Write, if_pos hexists]
  rw [Store.files_close_of_ne hout (hlast ▸ h.dstFile_ne hp last), ← hwhole]
  simp only [Store.copyFile]
  by_cases hcurrent : p.1 = r.file2Write
  · obtain ⟨copy, hcopy⟩ := Option.isSome_iff_exists.mp h.exists_current
    refine ⟨copy, ?_, ?_⟩
    · rw [hcurrent, Function.update_self, hcopy]
    · rw [if_pos hcurrent, hcurrent, Store.whole, hcopy]
      rfl
  · refine ⟨_, ?_, by rw [if_neg hcurrent, List.append_nil]⟩
    rw [Function.update_of_ne (h.dstFile_ne_dstFile hp hcurrent), h.copied p hp hcurrent]

/-- Everything is forwarded exactly if nothing but a line break is in the buffer when the connection is
lost. -/
theorem forwards_iff (f : Folders) (files : Bytes → Option Bytes) (now : Minute)
    (events : List LogEvent) :
    Forwards f files events ((run f files now events).connectionLost f) ↔
      (run f files now events).pending = [] ∨ (run f files now events).pending = [newline] := by
  have h := inv_run f files now events
  generalize run f files now events = r at h ⊢
  have hsaved : (r.connectionLost f).saved = r.saved := by
    simp only [connectionLost, copyFile2Write]
    split_ifs <;> rfl
  constructor
  · intro hforwards
    by_cases hnil : r.pending = []
    · exact .inl hnil
    · obtain ⟨p, hp, hcurrent⟩ := List.mem_map.mp (h.wrote hnil)
      obtain ⟨copy, hcopy, htext⟩ := h.files_connectionLost hp
      have hmem : p.1 ∈ (r.connectionLost f).saved.map Prod.fst := hsaved ▸ List.mem_map_of_mem hp
      obtain ⟨copy', hcopy', htext'⟩ := hforwards.copies p.1 hmem
      obtain rfl : copy = copy' := Option.some.inj (hcopy.symm.trans hcopy')
      rw [if_pos hcurrent] at htext
      rw [hsaved, ← htext] at htext'
      rcases htext' with htext' | htext'
      · exact .inl (List.self_eq_append_right.mp htext')
      · exact .inr (List.append_cancel_left htext').symm
  · intro hpending
    refine ⟨hsaved ▸ h.saved, fun file hfile => ?_⟩
    rw [hsaved] at hfile ⊢
    obtain ⟨p, hp, rfl⟩ := List.mem_map.mp hfile
    obtain ⟨copy, hcopy, htext⟩ := h.files_connectionLost hp
    refine ⟨copy, hcopy, ?_⟩
    rw [← htext]
    split_ifs
    · rcases hpending with hpending | hpending
      · exact .inl (by rw [hpending, List.append_nil])
      · exact .inr (by rw [hpending])
    · exact .inl (List.append_nil copy).symm

def twoFolders : Folders := ⟨[0x6C], [0x64], by decide⟩

def someMinute : Minute := ⟨[0x30], by decide⟩

def oneLine : List LogEvent := [.line [0x61] someMinute]

/-- A line that is still in the buffer: the copy is empty. -/
theorem not_forwards_line : ¬ Forwards twoFolders (fun _ => none) oneLine
    ((run twoFolders (fun _ => none) someMinute oneLine).connectionLost twoFolders) := by
  intro h
  obtain ⟨copy, hcopy, htext⟩ := h.copies [0x6C, 0x2F, 0x30] (by decide)
  have hempty : ((run twoFolders (fun _ => none) someMinute oneLine).connectionLost
      twoFolders).store.files (twoFolders.dstFile [0x6C, 0x2F, 0x30]) = some [] := by decide
  obtain rfl : [] = copy := Option.some.inj (hempty.symm.trans hcopy)
  exact absurd htext (by decide)

end CLogReceiver

end Cloudserver
