/-
The threads of a parallel loop (kaapic_work.c), one shared access at a
time.

The thread that starts the loop computes the distribution, takes its own
slice and runs `kaapic_foreach_worknext` until nothing is left. An idle
thread posts a request to a running one; a splitter then replies with
the slice reserved for this thread, or with a part of the local queue of
the victim, and the thread enters the same loop. A thread whose queue is
empty subtracts what it has popped from `workremain`, takes another
slice of the map or steals half a queue, and leaves once `workremain`
is 0.

# The machine

An action is the next access of a thread, the choice of a victim, the
capture of a list of requests, or the next access of a splitter. The
local queues are popped and stolen from in one step: under the lock of
the victim the T.H.E. protocol makes them atomic
(`XKaapi.Workqueue.Safety`), and so is a reset of a queue, which a
thread does on its own queue under this lock, or a splitter on the queue
of a thread that waits for it. A reply is committed together with this
reset: the requester only starts earlier. A body is attached to the
loop, as it is to every loop of kaapic.

Three fields record what the code does not: `batch`, the ranges counted
in the `workdone` of a thread, `accounted`, those subtracted from
`workremain`, and `executed`, the calls of the body.
-/
import XKaapi.Lib.Run
import XKaapi.Foreach.Split

namespace XKaapi.Foreach

open Bitmap
open Function (update)

variable {w : Nat}

-- ======== state

/-- What a loop is started with. -/
structure Config (w : Nat) where
  selfTid : Nat
  cpuset : BitVec w
  nthreads : Nat
  concurrency : Nat
  first : Int
  last : Int
  parGrain : Int
  seqGrain : Int

/-- Where a thread stands. Inside `kaapic_foreach_globalwork_next` the
flag says whether it was called after the loop (`outer`) or by
`kaapic_foreach_worknext`. -/
inductive Pc
  | idle
  /-- its request is in the list of the splitter on `vid` -/
  | waiting (vid : Nat)
  | worknext
  | pop
  | popFailed
  | globalNext (outer : Bool)
  | firstSlice (outer : Bool)
  | popSlice (outer : Bool) (tid : Nat)
  | checkSlice (outer : Bool) (pos : Nat)
  | repopAny (outer : Bool)
  | repopUnset (outer : Bool) (idx : Nat)
  | repopEmpty (outer : Bool)
  | redoSelect (outer : Bool)
  | select (outer : Bool)
  | steal (outer : Bool) (vid : Nat) (unitSize : Int)
  | refill (i j : Int)
  | body (i j : Int)
  | loopEnd
  | ret
  /-- it read an entry that was never written -/
  | undefined
deriving DecidableEq

/-- Where the splitter on a victim stands; `free` is no splitter. -/
inductive SplitPc (w : Nat)
  | free
  | check (lri : ListrequestIterator w)
  | scan (lri : ListrequestIterator w)
  | clear (lri : ListrequestIterator w) (mask : BitVec w)
  | reply (lri : ListrequestIterator w) (replymask : BitVec w)
  | send (lri : ListrequestIterator w) (replymask : BitVec w) (tid : Nat)
      (first last : Int)
  | skipGlobal (lri : ListrequestIterator w)
  | stealLocal (lri : ListrequestIterator w) (nreq unitSize : Int)
  | cut (lri : ListrequestIterator w) (nreq : Nat) (unitSize last : Int)
  | undefined

/-- A thread: its position, its local work, and the ranges counted in its
`workdone`. -/
structure Thread where
  pc : Pc
  lwork : LocalWork
  batch : List (Int × Int)

structure St (w : Nat) where
  workremain : Int
  workerdone : Int
  wa : WorkDistribution w
  thread : Nat → Thread
  split : Nat → SplitPc w
  accounted : List (Int × Int)
  executed : List (Int × Int)

namespace St

def setThread (s : St w) (t : Nat) (th : Thread) : St w :=
  { s with thread := update s.thread t th }

def setSplit (s : St w) (vid : Nat) (sp : SplitPc w) : St w :=
  { s with split := update s.split vid sp }

def setMap (s : St w) (map : BitVec w) : St w :=
  { s with wa := { s.wa with map := map } }

/-- Thread `t` goes to another position. -/
def goto (s : St w) (t : Nat) (pc : Pc) : St w :=
  s.setThread t { s.thread t with pc := pc }

end St

-- ======== start

/-- The work of a thread before the loop reaches it. -/
def idleThread : Thread := ⟨.idle, ⟨0, 0, false, 0⟩, []⟩

/-- The state in which the thread `selfTid` enters the loop, its slice
`[i, j)` in its local work. -/
def Config.started (c : Config w) (wa : WorkDistribution w) (i j : Int) :
    St w where
  workremain := c.last - c.first
  workerdone := 0
  wa := wa
  thread := update (fun _ => idleThread) c.selfTid
    ⟨.worknext, idleThread.lwork.workinit i j, []⟩
  split := fun _ => .free
  accounted := []
  executed := []

/-- kaapic_foreach_workinit: there is no loop on an empty range; else the
distribution is computed, and the calling thread pops its first slice into
its local work. -/
def foreachWorkinit (c : Config w) : Option (Option (St w)) :=
  if c.last ≤ c.first then some none
  else
    (foreachInitwa c.selfTid c.cpuset c.nthreads c.concurrency c.first
        c.last).bind fun wa =>
      (globalWorkPop wa (c.last - c.first) c.selfTid).bind fun p =>
        p.2.map fun r => some (c.started p.1 r.1 r.2)

-- ======== local queues

/-- kaapi_workqueue_pop, no thief at work: at most `maxSize` iterations
off the front. -/
def LocalWork.pop (lwork : LocalWork) (maxSize : Int) :
    Option (LocalWork × Int × Int) :=
  let locBeg := lwork.crBeg + maxSize
  if locBeg < lwork.crEnd then
    some ({ lwork with crBeg := locBeg }, lwork.crBeg, locBeg)
  else
    let size := lwork.crEnd - lwork.crBeg
    if size = 0 then none
    else
      let size := if maxSize < size then maxSize else size
      some ({ lwork with crBeg := lwork.crBeg + size }, lwork.crBeg,
        lwork.crBeg + size)

/-- The argument of the body is an `int32_t`. -/
def toInt32 (x : Int) : Int := x.bmod (2 ^ 32)

-- ======== threads

/-- The ranges of the batch of thread `t` leave `workremain`, by
`KAAPI_ATOMIC_SUB(&gwork->workremain, lwork->workdone)`, and the thread
goes on with `workdone` at 0. -/
def St.account (s : St w) (t : Nat) (pc : Pc) (init : Bool) : St w :=
  let th := s.thread t
  { s with
    workremain := s.workremain - th.lwork.workdone
    accounted := s.accounted ++ th.batch
    thread := update s.thread t
      ⟨pc, { th.lwork with init := init, workdone := 0 }, []⟩ }

/-- Thread `t` has `[i, j)` to pass to the body, and counts it done. -/
def Thread.take (th : Thread) (lwork : LocalWork) (i j : Int) : Thread :=
  ⟨.body i j, { lwork with workdone := th.lwork.workdone + (j - i) },
    th.batch ++ [(i, j)]⟩

/-- The next access of thread `t`. A thread that is idle, waits for a
splitter, or is to choose a victim has none. -/
def threadStep (c : Config w) (t : Nat) (s : St w) : Option (St w) :=
  let th := s.thread t
  match th.pc with
  | .idle | .waiting _ | .select _ | .undefined => none
  -- kaapic_foreach_worknext
  | .worknext =>
    if s.workremain = 0 ∨ c.seqGrain = 0 then some (s.goto t .loopEnd)
    else some (s.goto t .pop)
  | .pop =>
    match th.lwork.pop c.seqGrain with
    | some (lwork, i, j) => some (s.setThread t (th.take lwork i j))
    | none => some (s.goto t .popFailed)
  | .popFailed => some (s.account t (.globalNext false) false)
  -- kaapic_foreach_globalwork_next
  | .globalNext outer =>
    if s.workremain = 0 then
      some (s.goto t (if outer then .ret else .loopEnd))
    else some (s.goto t (.firstSlice outer))
  -- kaapic_global_work_steal: a slice of the map first
  | .firstSlice outer =>
    match valueFirst1 s.wa.map with
    | 0 => some (s.goto t (.redoSelect outer))
    | tid + 1 => some (s.goto t (.popSlice outer tid))
  -- kaapic_global_work_pop
  | .popSlice outer tid =>
    match s.wa.tid2pos tid with
    | none => some (s.goto t .undefined)
    | some pos =>
      if pos = noPos then some (s.goto t (.repopAny outer))
      else
        match unset s.wa.map pos with
        | (true, map) => some ((s.setMap map).goto t (.checkSlice outer pos))
        | (false, _) => some (s.goto t (.repopAny outer))
  | .checkSlice outer pos =>
    match s.wa.slice pos with
    | none => some (s.goto t .undefined)
    | some (i, j) =>
      -- Here, because work may have been finished
      if s.workremain = 0 then some (s.goto t (.redoSelect outer))
      else some (s.goto t (.refill i j))
  | .repopAny outer =>
    match valueFirst1 s.wa.map with
    | 0 => some (s.goto t (.repopEmpty outer))
    | idx + 1 => some (s.goto t (.repopUnset outer idx))
  | .repopUnset outer idx =>
    match unset s.wa.map idx with
    | (true, map) =>
      match s.wa.slice idx with
      | none => some (s.goto t .undefined)
      | some (i, j) => some ((s.setMap map).goto t (.refill i j))
    | (false, _) => some (s.goto t (.repopEmpty outer))
  | .repopEmpty outer =>
    if s.wa.map = 0 then some (s.goto t (.redoSelect outer))
    else some (s.goto t (.repopAny outer))
  -- kaapic_global_work_steal: then half of a local queue
  | .redoSelect outer =>
    if s.workremain = 0 then some (s.goto t (.globalNext outer))
    else some (s.goto t (.select outer))
  | .steal outer vid unitSize =>
    match (s.thread vid).lwork.steal unitSize with
    | none => some (s.goto t (.redoSelect outer))
    | some (lwork, i, j) =>
      some ((s.setThread vid { s.thread vid with lwork := lwork }).goto t
        (.refill i j))
  -- the work found goes to the local queue but for its first grain
  | .refill i j =>
    if j - i ≤ c.seqGrain then
      some (s.setThread t (th.take th.lwork i j))
    else
      some (s.setThread t
        (th.take (th.lwork.workinit (i + c.seqGrain) j) i (i + c.seqGrain)))
  | .body i j =>
    some { s.goto t .worknext with
      executed := s.executed ++ [(toInt32 i, toInt32 j)] }
  -- after the loop on worknext
  | .loopEnd =>
    if s.workremain - th.lwork.workdone = 0 then
      some (s.account t .ret th.lwork.init)
    else some (s.account t (.globalNext true) th.lwork.init)
  | .ret =>
    some
      { s.setThread t ⟨.idle, { th.lwork with init := false, workdone := 0 },
          th.batch⟩ with
        workerdone := if t = c.selfTid then s.workerdone
          else s.workerdone - 1 }

/-- Thread `t` looks at the victim `vid`. -/
def selectStep (c : Config w) (t vid : Nat) (s : St w) : Option (St w) :=
  match (s.thread t).pc with
  | .select outer =>
    let lwork := (s.thread vid).lwork
    -- never pass by this function for a processor to steal itself
    if vid = t then some (s.goto t (.redoSelect outer))
    else if lwork.init = false then some (s.goto t (.redoSelect outer))
    else if lwork.size ≤ c.parGrain then some (s.goto t (.redoSelect outer))
    else some (s.goto t (.steal outer vid (lwork.size / 2)))
  | _ => none

-- ======== splitters

/-- The splitter on `vid` returns; the requests left get no work. -/
def St.finish (s : St w) (vid : Nat) : St w :=
  { s with
    split := update s.split vid .free
    thread := fun t =>
      if (s.thread t).pc = .waiting vid then { s.thread t with pc := .idle }
      else s.thread t }

/-- Thread `ident` is replied: its local work is initialised, and it
starts if it was waiting. -/
def St.replyTo (s : St w) (ident : Nat) (first last : Int) : St w :=
  let th := s.thread ident
  s.setThread ident
    { th with
      pc := match th.pc with
        | .waiting _ => .worknext
        | pc => pc
      lwork := th.lwork.workinit first last }

/-- The next access of the splitter on `vid`. -/
def splitStep (c : Config w) (vid : Nat) (s : St w) : Option (St w) :=
  match s.split vid with
  | .free | .undefined => none
  | .check lri =>
    if s.workremain = 0 then some (s.finish vid)
    else some (s.setSplit vid (.scan lri))
  | .scan lri =>
    match requestMask s.wa lri.count lri 0 with
    | none => some (s.setSplit vid .undefined)
    | some mask =>
      if mask &&& s.wa.map = 0 then
        some (s.setSplit vid (.skipGlobal lri))
      else some (s.setSplit vid (.clear lri mask))
  | .clear lri mask =>
    let (old, map) := Bitmap.and s.wa.map (~~~ mask)
    some ((s.setMap map).setSplit vid (.reply lri (old &&& mask)))
  | .reply lri replymask =>
    match valueFirst1AndZero replymask with
    | (0, _) =>
      if lri.isEmpty then some (s.finish vid)
      else some (s.setSplit vid (.skipGlobal lri))
    | (tid + 1, replymask) =>
      match globalGetwork s.workremain s.wa tid with
      | none => some (s.setSplit vid .undefined)
      | some none => some (s.setSplit vid (.reply lri replymask))
      | some (some (_, first, last)) =>
        some (s.setSplit vid (.send lri replymask tid first last))
  | .send lri replymask tid first last =>
    some
      { (s.replyTo tid first last).setSplit vid
          (.reply (lri.unsetAt tid) replymask) with
        workerdone := s.workerdone + 1 }
  | .skipGlobal lri =>
    match splitSize (s.thread vid).lwork c.parGrain lri.count with
    | none => some (s.finish vid)
    | some (nreq, unitSize) =>
      some (s.setSplit vid (.stealLocal lri nreq unitSize))
  | .stealLocal lri nreq unitSize =>
    match (s.thread vid).lwork.steal (nreq * unitSize) with
    | none => some (s.finish vid)
    | some (lwork, _, last) =>
      some ((s.setThread vid { s.thread vid with lwork := lwork }).setSplit
        vid (.cut lri nreq.toNat unitSize last))
  | .cut lri nreq unitSize last =>
    match nreq, lri.idcurr with
    | nreq + 1, some ident =>
      some ((s.replyTo ident (last - unitSize) last).setSplit vid
        (.cut lri.next nreq unitSize (last - unitSize)))
    | _, _ => some (s.finish vid)

/-- The requests of the idle threads in `requests` are captured by a
splitter on the running thread `vid`. -/
def beginSplit (c : Config w) (vid : Nat) (requests : BitVec w)
    (s : St w) : Option (St w) :=
  match s.split vid with
  | .free =>
    if (s.thread vid).pc ≠ .idle
        ∧ ∀ t < w, requests.getLsbD t = true →
          t < c.concurrency ∧ (s.thread t).pc = .idle then
      some
        { s with
          split := update s.split vid (.check (.ofBitmap requests))
          thread := fun t =>
            if requests.getLsbD t then
              { s.thread t with pc := .waiting vid }
            else s.thread t }
    else none
  | _ => none

/-- One party's next access. -/
inductive Act (w : Nat)
  | thread (t : Nat)
  | select (t vid : Nat)
  | beginSplit (vid : Nat) (requests : BitVec w)
  | split (vid : Nat)

def step (c : Config w) (a : Act w) (s : St w) : Option (St w) :=
  match a with
  | .thread t => threadStep c t s
  | .select t vid => selectStep c t vid s
  | .beginSplit vid requests => beginSplit c vid requests s
  | .split vid => splitStep c vid s

end XKaapi.Foreach
