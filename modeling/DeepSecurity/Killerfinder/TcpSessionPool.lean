import DeepSecurity.Killerfinder.SessionRun
import Mathlib.Logic.Relation

/-!
# The session pool and its two threads

`CTcpSessionPool`, used by the capture thread (`CPacketHandler::processL5`) and by the decode thread
(`CTxnDecodeThread::threadMain`), which takes the closed sessions off a list. Only that list is
shared, under a lock; the map of the active sessions belongs to the capture thread. When the capture
thread posts a session it pushes it on the list first and erases it from the map afterwards, so
between the two the decode thread may run. The steps below are cut at these points.
-/

namespace Killerfinder

/-- A session object. `num` tells the objects apart: it counts the calls of `new`. (The number
`m_tcpTxnId` that the source gives to a session has 64 bits and is only logged.) -/
structure SessionObj (P : HttpParser) where
  /-- The number of the object. -/
  num : ℕ
  /-- The session as it is now. -/
  sess : CTcpSession P

/-- An entry of `m_activeSessMap`. -/
abbrev PoolEntry (P : HttpParser) := CTcpSessionId × SessionObj P

/-- Where the capture thread is. -/
inductive CapturePc (P : HttpParser) where
  /-- Between two packets. -/
  | idle
  /-- In `postSession`, after the session `num` has been pushed and before it is erased. -/
  | erase (num : ℕ)
  /-- At the head of the loop of `postTimeoutSessions`, with the entries still to be visited and the
  number of sessions posted so far. -/
  | sweep (now : ℤ) (todo : List (PoolEntry P)) (posted : ℕ)
  /-- In this loop, after the session `num` has been pushed and before it is erased. -/
  | sweepErase (now : ℤ) (num : ℕ) (todo : List (PoolEntry P)) (posted : ℕ)

/-- The pool, with the position of the capture thread and the sessions the decode thread has popped so
far. -/
structure CTcpSessionPool (P : HttpParser) where
  /-- The number of sessions created so far. -/
  mIndex : ℕ
  /-- The entries in the order of iteration. -/
  mActiveSessMap : List (PoolEntry P)
  /-- The sessions posted for the decode thread, the oldest first. -/
  mClosedSessList : List (SessionObj P)
  /-- The sessions that the decode thread has popped, the oldest first. -/
  popped : List (SessionObj P)
  /-- The position of the capture thread. -/
  pc : CapturePc P

namespace CTcpSessionPool

variable {P : HttpParser} (cfg : CConfig) (db : CDBManager) (pool : CTcpSessionPool P)

/-- The pool at the start. -/
def new : CTcpSessionPool P := ⟨0, [], [], [], .idle⟩

/-! ## The capture thread -/

/-- The entry under an equal key. -/
def find (id : CTcpSessionId) : Option (PoolEntry P) :=
  pool.mActiveSessMap.find? (fun e => e.1.operatorEq id)

/-- The session under an equal key. -/
def findActiveSession (id : CTcpSessionId) : Option (SessionObj P) := (pool.find id).map Prod.snd

/-- `m_activeSessMap[id] = session` takes the place of an entry under an equal key. -/
def createSession (id : CTcpSessionId) (sess : CTcpSession P) : CTcpSessionPool P :=
  { pool with
    mIndex := pool.mIndex + 1
    mActiveSessMap := (id, ⟨pool.mIndex + 1, sess⟩) ::
      pool.mActiveSessMap.filter (fun e => !e.1.operatorEq id) }

/-- The session object `num` changes to `sess`. -/
def setSession (num : ℕ) (sess : CTcpSession P) : CTcpSessionPool P :=
  { pool with
    mActiveSessMap := pool.mActiveSessMap.map
      fun e => if e.2.num = num then (e.1, ⟨num, sess⟩) else e }

/-- `postSession` up to the unlocking of the list. -/
def postSession (id : CTcpSessionId) : CTcpSessionPool P :=
  match pool.find id with
  | none => pool
  | some e =>
    { pool with mClosedSessList := pool.mClosedSessList ++ [e.2], pc := .erase e.2.num }

/-- `m_activeSessMap.erase`, on the entry of the object `num`. -/
def eraseSession (num : ℕ) : List (PoolEntry P) :=
  pool.mActiveSessMap.filter (fun e => e.2.num ≠ num)

/-- `processL5`, up to the point where a posted session has been pushed or a sweep begins. -/
def processL5 (p : CL4Info) : Except OutOfRange (CTcpSessionPool P) :=
  match pool.findActiveSession p.sessionId with
  | none =>
    if p.isSynSet && !p.isAckSet then
      .ok (pool.createSession p.sessionId (CTcpSession.created cfg db p))
    else .ok pool
  | some o =>
    match o.sess.receive db p with
    | .error e => .error e
    | .ok (sess, _) =>
      let pool := pool.setSession o.num sess
      if p.isAckPacket then
        if p.tvSec % 10 = 0 then .ok { pool with pc := .sweep p.tvSec pool.mActiveSessMap 0 }
        else .ok pool
      else if o.sess.isClosed then .ok pool
      else if sess.isClosed then .ok (pool.postSession p.sessionId)
      else .ok pool

/-- The next step of the capture thread inside `postSession` or `postTimeoutSessions(now, 60)`. -/
def advance : CTcpSessionPool P :=
  match pool.pc with
  | .idle => pool
  | .erase num => { pool with mActiveSessMap := pool.eraseSession num, pc := .idle }
  | .sweep _ [] _ => { pool with pc := .idle }
  | .sweep now (e :: todo) posted =>
    if e.2.sess.mLastUpdateTime + 60 < now then
      { pool with
        mClosedSessList := pool.mClosedSessList ++ [e.2]
        pc := .sweepErase now e.2.num todo posted }
    else { pool with pc := .sweep now todo posted }
  | .sweepErase now num todo posted =>
    { pool with
      mActiveSessMap := pool.eraseSession num
      pc := if posted + 1 > 10 then .idle else .sweep now todo (posted + 1) }

/-! ## The decode thread -/

/-- The oldest posted session, if there is one. -/
def popClosedSession : CTcpSessionPool P :=
  match pool.mClosedSessList with
  | [] => pool
  | o :: rest => { pool with mClosedSessList := rest, popped := pool.popped ++ [o] }

/-! ## Interleavings -/

/-- A step of one of the two threads. A step in which an exception is thrown ends the process and so
leads nowhere. -/
inductive Step : CTcpSessionPool P → CTcpSessionPool P → Prop
  | packet {pool pool' : CTcpSessionPool P} (p : CL4Info) (idle : pool.pc = .idle)
      (h : pool.processL5 cfg db p = .ok pool') : Step pool pool'
  /-- The order in which the entries of an `unordered_map` are visited may change with its size. -/
  | rehash {pool : CTcpSessionPool P} (entries : List (PoolEntry P)) (idle : pool.pc = .idle)
      (h : entries.Perm pool.mActiveSessMap) : Step pool { pool with mActiveSessMap := entries }
  | advance {pool : CTcpSessionPool P} : Step pool pool.advance
  | pop {pool : CTcpSessionPool P} : Step pool pool.popClosedSession

/-- The pool can get into this state, by any interleaving of the two threads. -/
def Reachable (pool : CTcpSessionPool P) : Prop := Relation.ReflTransGen (Step cfg db) new pool

/-- The session that has been pushed and is to be erased next. -/
def pending : Option ℕ :=
  match pool.pc with
  | .erase num => some num
  | .sweepErase _ num _ _ => some num
  | _ => none

/-- The entries of the map that are there to stay: all but one whose session has already been pushed
and that is erased next. -/
def settled : List (PoolEntry P) :=
  pool.mActiveSessMap.filter (fun e => some e.2.num ≠ pool.pending)

/-- Every session that has been created is in exactly one place and there once: in the map, in the list
of closed sessions, or popped. The sessions in the map are under their own id, and between two packets
all entries of the map are there to stay and none of them is closed. -/
structure Placed : Prop where
  /-- The numbers of the sessions in the three places are those given out so far, each once. -/
  once : (pool.settled.map (fun e => e.2.num) ++ pool.mClosedSessList.map SessionObj.num ++
    pool.popped.map SessionObj.num).Perm (List.range' 1 pool.mIndex)
  /-- A session is under its own id. -/
  key : ∀ e ∈ pool.mActiveSessMap, e.1 = e.2.sess.mSessId
  /-- Between two packets no entry is about to be erased and no session in the map is closed. -/
  idle : pool.pc = .idle →
    pool.settled = pool.mActiveSessMap ∧ ∀ e ∈ pool.mActiveSessMap, e.2.sess.isClosed = false

end CTcpSessionPool

end Killerfinder
