import DeepSecurity.Killerfinder.Proofs.CloseProofs
import DeepSecurity.Killerfinder.TcpSessionPool
import Mathlib.Data.List.Nodup
import Mathlib.Data.List.Perm.Basic

/-!
# Proofs: every session is in one place

Each operation on the pool keeps the books (`Filed`): it moves the number of a session from one place
to another, or files a new number. The steps of the two threads are made of these operations.
-/

namespace Killerfinder

variable {P : HttpParser}

/-- The numbers of the sessions of some entries. -/
def nums (entries : List (PoolEntry P)) : List ℕ := entries.map (fun e => e.2.num)

/-- The entries without the one of the session `pend`, which has been moved. -/
def without (entries : List (PoolEntry P)) (pend : Option ℕ) : List (PoolEntry P) :=
  entries.filter (fun e => some e.2.num ≠ pend)

theorem without_none (entries : List (PoolEntry P)) : without entries none = entries := by
  simp [without]

theorem mem_nums {entries : List (PoolEntry P)} {e : PoolEntry P} (h : e ∈ entries) :
    e.2.num ∈ nums entries :=
  List.mem_map_of_mem h

/-- The books: the sessions 1 to `index` are each in one place, the entries have different numbers,
and each is under the id of its session. -/
structure Filed (entries : List (PoolEntry P)) (closed popped : List (SessionObj P)) (index : ℕ)
    (pend : Option ℕ) : Prop where
  once : (nums (without entries pend) ++ closed.map SessionObj.num ++
    popped.map SessionObj.num).Perm (List.range' 1 index)
  nodup : (nums entries).Nodup
  key : ∀ e ∈ entries, e.1 = e.2.sess.mSessId

namespace Filed

variable {entries : List (PoolEntry P)} {closed popped : List (SessionObj P)} {index : ℕ}
  {pend : Option ℕ}

theorem new : Filed ([] : List (PoolEntry P)) [] [] 0 none :=
  ⟨by simp [nums, without], by simp [nums], by simp⟩

/-- The decode thread takes the first closed session. -/
theorem pop {o : SessionObj P} (h : Filed entries (o :: closed) popped index pend) :
    Filed entries closed (popped ++ [o]) index pend := by
  refine ⟨List.Perm.trans ?_ h.once, h.nodup, h.key⟩
  simp only [List.map_cons, List.map_append, List.map_nil, List.append_assoc]
  refine List.Perm.append_left _ ?_
  rw [← List.append_assoc]
  exact List.perm_append_singleton _ _

/-- A session of the map is pushed on the list. -/
theorem push (h : Filed entries closed popped index none) {e : PoolEntry P} (he : e ∈ entries) :
    Filed entries (closed ++ [e.2]) popped index (some e.2.num) := by
  refine ⟨List.Perm.trans ?_ h.once, h.nodup, h.key⟩
  have hwithout : nums (without entries (some e.2.num)) = (nums entries).erase e.2.num := by
    rw [h.nodup.erase_eq_filter, nums, nums, without, List.filter_map]
    congr 1
    refine List.filter_congr fun a _ => ?_
    by_cases ha : a.2.num = e.2.num
    · simp [ha]
    · simp [ha]
  rw [hwithout, without_none]
  simp only [List.map_append, List.map_cons, List.map_nil]
  refine List.Perm.append_right _ ?_
  rw [← List.append_assoc]
  exact (List.perm_append_singleton _ _).trans
    ((List.perm_cons_erase (mem_nums he)).symm.append_right _)

/-- The entry of a session that has been pushed is erased. -/
theorem erase {num : ℕ} (h : Filed entries closed popped index (some num)) :
    Filed (entries.filter (fun e => e.2.num ≠ num)) closed popped index none := by
  refine ⟨?_, ?_, fun e he => h.key e (List.mem_filter.mp he).1⟩
  · rw [without_none]
    have := h.once
    simpa [without] using this
  · exact h.nodup.sublist (List.filter_sublist.map _)

theorem num_le (h : Filed entries closed popped index none) {k : ℕ} (hk : k ∈ nums entries) :
    k ≤ index := by
  have hmem : k ∈ List.range' 1 index := by
    refine h.once.subset ?_
    rw [without_none]
    simp [hk]
  rw [List.mem_range'_1] at hmem
  omega

/-- A new session is filed under its id. -/
theorem create (h : Filed entries closed popped index none) {id : CTcpSessionId}
    {sess : CTcpSession P} (hid : sess.mSessId = id) :
    Filed ((id, ⟨index + 1, sess⟩) :: entries) closed popped (index + 1) none := by
  refine ⟨?_, ?_, ?_⟩
  · have honce := h.once
    rw [without_none] at honce ⊢
    rw [List.range'_1_concat, Nat.add_comm 1 index]
    refine List.Perm.trans ?_ (List.perm_append_singleton _ _).symm
    exact honce.cons (index + 1)
  · refine List.nodup_cons.mpr ⟨fun hmem => ?_, h.nodup⟩
    have := h.num_le hmem
    simp only at this
    omega
  · intro e he
    rcases List.mem_cons.mp he with rfl | he
    · exact hid.symm
    · exact h.key e he

theorem rehash (h : Filed entries closed popped index none) {entries' : List (PoolEntry P)}
    (hperm : entries'.Perm entries) : Filed entries' closed popped index none := by
  refine ⟨List.Perm.trans ?_ h.once, ?_, fun e he => h.key e (hperm.subset he)⟩
  · rw [without_none, without_none]
    exact ((hperm.map _).append_right _).append_right _
  · exact (hperm.map _).symm.nodup h.nodup

/-- A session object changes, but not its id. -/
theorem set (h : Filed entries closed popped index none) {num : ℕ} {sess : CTcpSession P}
    (hid : ∀ e ∈ entries, e.2.num = num → sess.mSessId = e.2.sess.mSessId) :
    Filed (entries.map fun e => if e.2.num = num then (e.1, ⟨num, sess⟩) else e)
      closed popped index none := by
  have hnums : nums (entries.map fun e => if e.2.num = num then (e.1, ⟨num, sess⟩) else e) =
      nums entries := by
    rw [nums, nums, List.map_map]
    refine List.map_congr_left fun e _ => ?_
    by_cases hn : e.2.num = num
    · simp [hn]
    · simp [hn]
  have honce := h.once
  rw [without_none] at honce
  refine ⟨by rw [without_none, hnums]; exact honce, by rw [hnums]; exact h.nodup, ?_⟩
  intro e' he'
  obtain ⟨e, he, rfl⟩ := List.mem_map.mp he'
  by_cases hn : e.2.num = num
  · simp only [hn, if_true]
    rw [hid e he hn]
    exact h.key e he
  · simp only [hn, if_false]
    exact h.key e he

end Filed

/-! ## The threads -/

theorem CTcpSession.receive_sessId {db : CDBManager} {s s' : CTcpSession P} {p : CL4Info}
    {rst : Option Rst} (h : s.receive db p = .ok (s', rst)) : s'.mSessId = s.mSessId := by
  rcases receive_ok h with ⟨-, rfl, -⟩ | ⟨-, s1, hup, hblock⟩
  · rfl
  · have hs' : s' = (s1.blockMe db p).1 := by rw [hblock]
    rw [hs', blockMe_sessId, (updateMe_tcpState hup).1]
    rfl

namespace CTcpSessionPool

variable {cfg : CConfig} {db : CDBManager} {pool pool' : CTcpSessionPool P}

/-- The entries that a sweep has still to visit are in the map, and not the one that is to be
erased. -/
def TodoOk (pool : CTcpSessionPool P) : Prop :=
  match pool.pc with
  | .sweep _ todo _ => todo.Sublist pool.mActiveSessMap
  | .sweepErase _ num todo _ => todo.Sublist pool.mActiveSessMap ∧ ∀ e ∈ todo, e.2.num ≠ num
  | _ => True

/-- The invariant of the pool. -/
structure Inv (pool : CTcpSessionPool P) : Prop where
  filed : Filed pool.mActiveSessMap pool.mClosedSessList pool.popped pool.mIndex pool.pending
  isOpen : ∀ e ∈ pool.mActiveSessMap, some e.2.num ≠ pool.pending → e.2.sess.isClosed = false
  todo : pool.TodoOk

theorem inv_new : (new : CTcpSessionPool P).Inv :=
  ⟨Filed.new, by simp [new], trivial⟩

theorem Inv.popClosedSession (h : pool.Inv) : pool.popClosedSession.Inv := by
  unfold CTcpSessionPool.popClosedSession
  split
  · exact h
  · next o rest heq =>
    have hfiled := h.filed
    rw [heq] at hfiled
    exact ⟨hfiled.pop, h.isOpen, h.todo⟩

theorem Inv.advance (h : pool.Inv) : pool.advance.Inv := by
  obtain ⟨index, entries, closed, popped, pc⟩ := pool
  obtain ⟨hfiled, hopen, htodo⟩ := h
  cases pc with
  | idle => exact ⟨hfiled, hopen, htodo⟩
  | erase num =>
    refine ⟨hfiled.erase, fun e he _ => ?_, trivial⟩
    obtain ⟨he, hne⟩ := List.mem_filter.mp he
    exact hopen e he (by simpa [pending] using hne)
  | sweep now todo posted =>
    cases todo with
    | nil => exact ⟨hfiled, hopen, trivial⟩
    | cons e todo =>
      have hsub : (e :: todo).Sublist entries := htodo
      by_cases htime : e.2.sess.mLastUpdateTime + 60 < now
      · simp only [CTcpSessionPool.advance, htime, if_true]
        refine ⟨hfiled.push (hsub.subset (by simp)), fun e' he' _ => hopen e' he' (by simp [pending]),
          (List.sublist_cons_self _ _).trans hsub, fun e' he' hnum => ?_⟩
        -- a session is in the map only once, so it is not visited a second time
        have hnodup : (nums (e :: todo)).Nodup := hfiled.nodup.sublist (hsub.map _)
        have hmem : e.2.num ∈ nums todo := hnum ▸ mem_nums he'
        exact (List.nodup_cons.mp hnodup).1 hmem
      · simp only [CTcpSessionPool.advance, htime, if_false]
        exact ⟨hfiled, hopen, (List.sublist_cons_self _ _).trans hsub⟩
  | sweepErase now num todo posted =>
    obtain ⟨hsub, hne⟩ : todo.Sublist entries ∧ ∀ e ∈ todo, e.2.num ≠ num := htodo
    have hopen' : ∀ e ∈ entries.filter (fun e => e.2.num ≠ num), e.2.sess.isClosed = false := by
      intro e he
      obtain ⟨he, hne⟩ := List.mem_filter.mp he
      exact hopen e he (by simpa [pending] using hne)
    by_cases hlast : posted + 1 > 10
    · simp only [CTcpSessionPool.advance, hlast, if_true]
      exact ⟨hfiled.erase, fun e he _ => hopen' e he, trivial⟩
    · simp only [CTcpSessionPool.advance, hlast, if_false]
      refine ⟨hfiled.erase, fun e he _ => hopen' e he, ?_⟩
      have hself : todo.filter (fun e => e.2.num ≠ num) = todo :=
        List.filter_eq_self.mpr fun e he => by simpa using hne e he
      have := hsub.filter (fun e => e.2.num ≠ num)
      rw [hself] at this
      exact this

theorem find_setSession (num : ℕ) (sess : CTcpSession P) (id : CTcpSessionId) :
    (pool.setSession num sess).find id =
      (pool.find id).map fun e => if e.2.num = num then (e.1, ⟨num, sess⟩) else e := by
  unfold find setSession
  rw [List.find?_map]
  congr 2
  funext e
  by_cases hn : e.2.num = num
  · simp [hn]
  · simp [hn]

/-- What a packet does that is processed without an exception: it may create a session, and it may
change the session it belongs to. In the second case a sweep may begin, or the session be posted. -/
theorem processL5_ok {p : CL4Info} (h : pool.processL5 cfg db p = .ok pool') :
    pool' = pool ∨
    (pool.find p.sessionId = none ∧
      pool' = pool.createSession p.sessionId (CTcpSession.created cfg db p)) ∨
    ∃ e sess rst, pool.find p.sessionId = some e ∧ e.2.sess.receive db p = .ok (sess, rst) ∧
      (((e.2.sess.ReachesBlock p → sess.isClosed = false) ∧
          (pool' = pool.setSession e.2.num sess ∨ ∃ now, pool' = { pool.setSession e.2.num sess with
            pc := .sweep now (pool.setSession e.2.num sess).mActiveSessMap 0 })) ∨
        pool' = (pool.setSession e.2.num sess).postSession p.sessionId) := by
  unfold processL5 findActiveSession at h
  rcases hfind : pool.find p.sessionId with _ | e
  · simp only [hfind, Option.map_none] at h
    split_ifs at h
    · exact Or.inr (Or.inl ⟨rfl, (Except.ok.inj h).symm⟩)
    · exact Or.inl (Except.ok.inj h).symm
  · right; right
    simp only [hfind, Option.map_some] at h
    rcases hr : e.2.sess.receive db p with err | ⟨sess, rst⟩
    · rw [hr] at h
      cases h
    · simp only [hr] at h
      refine ⟨e, sess, rst, rfl, hr, ?_⟩
      split_ifs at h with hack hnow hclosed hclosed'
      · refine Or.inl ⟨fun hreach => ?_, Or.inr ⟨p.tvSec, (Except.ok.inj h).symm⟩⟩
        simp [hreach.1] at hack
      · refine Or.inl ⟨fun hreach => ?_, Or.inl (Except.ok.inj h).symm⟩
        simp [hreach.1] at hack
      · refine Or.inl ⟨fun hreach => ?_, Or.inl (Except.ok.inj h).symm⟩
        simp [hreach.2] at hclosed
      · exact Or.inr (Except.ok.inj h).symm
      · exact Or.inl ⟨fun _ => by simpa using hclosed', Or.inl (Except.ok.inj h).symm⟩

/-- The books after the session of a packet has changed. -/
theorem Inv.filed_setSession (h : pool.Inv) (hpc : pool.pc = .idle) {p : CL4Info} {e : PoolEntry P}
    {sess : CTcpSession P} {rst : Option Rst} (he : e ∈ pool.mActiveSessMap)
    (hr : e.2.sess.receive db p = .ok (sess, rst)) :
    Filed (pool.setSession e.2.num sess).mActiveSessMap pool.mClosedSessList pool.popped pool.mIndex
      none := by
  have hfiled := h.filed
  rw [pending, hpc] at hfiled
  refine hfiled.set fun e' he' hnum => ?_
  obtain rfl : e' = e := List.inj_on_of_nodup_map hfiled.nodup he' he hnum
  exact CTcpSession.receive_sessId hr

theorem mem_setSession {num : ℕ} {sess : CTcpSession P} {e' : PoolEntry P}
    (he' : e' ∈ (pool.setSession num sess).mActiveSessMap) :
    e'.2 = ⟨num, sess⟩ ∨ (e' ∈ pool.mActiveSessMap ∧ e'.2.num ≠ num) := by
  obtain ⟨e, he, rfl⟩ := List.mem_map.mp he'
  by_cases hn : e.2.num = num
  · simp [hn]
  · simp [hn, he]

theorem Inv.processL5 (h : pool.Inv) (hpc : pool.pc = .idle) {p : CL4Info}
    (hp : pool.processL5 cfg db p = .ok pool') : pool'.Inv := by
  have hpending : pool.pending = none := by rw [pending, hpc]
  have hopen : ∀ e ∈ pool.mActiveSessMap, e.2.sess.isClosed = false :=
    fun e he => h.isOpen e he (by rw [hpending]; simp)
  have hfiled := h.filed
  rw [hpending] at hfiled
  rcases processL5_ok hp with rfl | ⟨hfind, rfl⟩ | ⟨e, sess, rst, hfind, hr, hcase⟩
  · exact h
  · -- a new session: no entry has an equal key
    have hall : pool.mActiveSessMap.filter (fun e => !e.1.operatorEq p.sessionId) =
        pool.mActiveSessMap :=
      List.filter_eq_self.mpr fun e he => by simpa using List.find?_eq_none.mp hfind e he
    obtain ⟨hid, hst⟩ := created_tcpState P cfg db p
    refine ⟨?_, fun e he _ => ?_, ?_⟩
    · rw [createSession, hall, pending, hpc]
      exact hfiled.create hid
    · rw [createSession, hall] at he
      rcases List.mem_cons.mp he with rfl | he
      · simp [CTcpSession.isClosed, hst]
      · exact hopen e he
    · rw [TodoOk, createSession, hpc]
      trivial
  have he : e ∈ pool.mActiveSessMap := List.mem_of_find?_eq_some hfind
  have hset := h.filed_setSession hpc he hr
  rcases hcase with ⟨hreach, hcase⟩ | rfl
  · -- the session stays in the map, and it is not closed
    have hsess : sess.isClosed = false := by
      rcases CTcpSession.receive_ok hr with ⟨-, rfl, -⟩ | ⟨hb, -⟩
      · exact hopen e he
      · exact hreach hb
    have hopen' : ∀ e' ∈ (pool.setSession e.2.num sess).mActiveSessMap,
        e'.2.sess.isClosed = false := by
      intro e' he'
      rcases mem_setSession he' with heq | ⟨hmem, -⟩
      · rw [heq]
        exact hsess
      · exact hopen e' hmem
    rcases hcase with rfl | ⟨now, rfl⟩
    · refine ⟨?_, fun e' he' _ => hopen' e' he', ?_⟩
      · rw [pending, setSession, hpc]
        exact hset
      · rw [TodoOk, setSession, hpc]
        trivial
    · exact ⟨hset, fun e' he' _ => hopen' e' he', List.Sublist.refl _⟩
  · -- the session is posted, and its entry is to be erased
    have hfind' : (pool.setSession e.2.num sess).find p.sessionId = some (e.1, ⟨e.2.num, sess⟩) := by
      rw [find_setSession, hfind]
      simp
    have hmem := List.mem_of_find?_eq_some hfind'
    rw [postSession, hfind']
    refine ⟨hset.push hmem, fun e' he' hne => ?_, trivial⟩
    rcases mem_setSession he' with heq | ⟨hmem', -⟩
    · exact absurd (by rw [heq]; rfl) hne
    · exact hopen e' hmem'

theorem Inv.step (h : pool.Inv) (hs : Step cfg db pool pool') : pool'.Inv := by
  cases hs with
  | packet p idle hp => exact h.processL5 idle hp
  | rehash entries idle hperm =>
    have hfiled := h.filed
    rw [pending, idle] at hfiled
    refine ⟨?_, fun e he => h.isOpen e (hperm.subset he), ?_⟩
    · rw [pending, idle]
      exact hfiled.rehash hperm
    · rw [TodoOk, idle]
      trivial
  | advance => exact h.advance
  | pop => exact h.popClosedSession

theorem Inv.placed (h : pool.Inv) : pool.Placed := by
  refine ⟨h.filed.once, h.filed.key, fun hpc => ?_⟩
  have hpending : pool.pending = none := by rw [pending, hpc]
  refine ⟨?_, fun e he => h.isOpen e he (by rw [hpending]; simp)⟩
  rw [settled, hpending]
  exact without_none _

/-- In every interleaving of the capture thread with the decode thread, every session that has been
created is in exactly one place, and between two packets no session in the map is closed. -/
theorem placed_of_reachable (P : HttpParser) (cfg : CConfig) (db : CDBManager)
    {pool : CTcpSessionPool P} (h : Reachable cfg db pool) : pool.Placed := by
  refine Inv.placed ?_
  induction h with
  | refl => exact inv_new
  | tail _ hstep ih => exact ih.step hstep

/-- A session that a RST closes, popped by the decode thread before the capture thread has erased it
from the map. -/
theorem placed_popped_early : ∃ pool : CTcpSessionPool (.scripted []),
    Reachable ⟨[80], []⟩ .empty pool ∧ pool.mIndex = 1 ∧ pool.mActiveSessMap.length = 1 ∧
      pool.popped.map SessionObj.num = [1] ∧ pool.Placed := by
  have hnew : Reachable ⟨[80], []⟩ .empty (new : CTcpSessionPool (.scripted [])) := .refl
  have hsyn := Relation.ReflTransGen.tail hnew
    (Step.packet (clientPacket 999 0x02 [] (by decide)) rfl rfl)
  have hrst := hsyn.tail (Step.packet (serverPacket 0 0x04 [] (by decide)) rfl rfl)
  have hreach := hrst.tail Step.pop
  exact ⟨_, hreach, rfl, rfl, rfl, placed_of_reachable _ _ _ hreach⟩

end CTcpSessionPool

end Killerfinder
