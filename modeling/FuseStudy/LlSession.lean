import FuseStudy.LlRequest

/-! The session of lib/fuse_lowlevel.c and the functions of its opcode table. User code is what
the environment says each call of it does: it may answer any request it holds, once, register an
interrupt function or ask the kernel for data. -/
namespace FuseStudy.LlSession
open LlRequest

inductive LlOp
  | lookup | forget | getattr | setattr | readlink | mknod | mkdir | unlink | rmdir | symlink | rename | link
  | open | read | write | flush | release | fsync | opendir | readdir | releasedir | fsyncdir | statfs
  | setxattr | getxattr | listxattr | removexattr | access | create | getlk | setlk | bmap | ioctl | poll
  | writeBuf | retrieveReply | forgetMulti | flock | fallocate | readdirplus | copyFileRange | lseek | tmpfile
  | init | destroy
  deriving DecidableEq, Repr

structure Want where
  noOpenSupport : Bool
  noOpendirSupport : Bool
  ioctlDir : Bool
  deriving DecidableEq, Repr

/- `held` are the requests that a handler was given and has not answered, `holds` those of which
find_interrupted has a reference in another thread, `pipe` the unread bytes in the pipe of the
thread. -/
structure FuseSession extends Session where
  gotInit : Bool
  gotDestroy : Bool
  cuseData : Bool
  denyOthers : Bool
  owner : Nat
  protoMinor : Nat
  want : Want
  notifyCtr : Nat
  notifyList : List Nat
  held : List Nat
  holds : List Nat
  pipe : Nat

def FuseSession.on (s : FuseSession) (f : Session → Session) : FuseSession := {s with toSession := f s.toSession}

def fuseReqInterruptFunc (s : Session) (r func : Nat) : Session :=
  let s := setFunc s r func
  if (s.reqs r).interrupted then callFunc s r func else s

def linkReq (s : FuseSession) (r : Nat) : FuseSession :=
  let (t,intr) := checkInterrupt s.toSession r
  let s := {s with toSession := listAddReq t r}
  match intr with
  | some i => s.on (fuseReplyErr · i eagain)
  | none => s

/- A step of another thread: of find_interrupted for a request of the list, up to where it drops
the lock, the mark with the call of the interrupt function, or the end; another request that goes
to its handler; an INTERRUPT that finds no request. -/
inductive Other
  | find (r : Nat)
  | mark (r : Nat)
  | drop (r : Nat)
  | request (unique : Nat)
  | interrupt (unique target : Nat)
  deriving DecidableEq, Repr

def FuseSession.other (s : FuseSession) : Other → FuseSession
  | .find r => if r ∈ s.list then {s.on (holdReq · r) with holds := s.holds ++ [r]} else s
  | .mark r => if r ∈ s.holds then s.on fun t => callFunc (markInterrupted t r) r (t.reqs r).u else s
  | .drop r => if r ∈ s.holds then {s.on (unholdReq · r) with holds := s.holds.erase r} else s
  | .request unique =>
    let made := s.on (fuseLlAllocReq · unique)
    let entered := if s.noInterrupt then made else linkReq made s.next
    {entered with held := entered.held ++ [s.next]}
  | .interrupt unique target =>
    let made := s.on fun t => setTarget (fuseLlAllocReq t unique) t.next target
    if s.noInterrupt then made.on (fuseReplyErr · s.next enosys)
    else if interruptPending made.toSession s.next then made.on (destroyReq · s.next)
    else made.on (addInterrupt · s.next)

def FuseSession.others (s : FuseSession) (l : List Other) : FuseSession := l.foldl FuseSession.other s

inductive UserAct
  | reply (r : Nat) (error : Int)
  | replyNone (r : Nat)
  | interruptFunc (r func : Nat)
  | retrieve (sent : Bool)
  | other (o : Other)
  deriving DecidableEq, Repr

/- Only a held request is answered, so no request is answered twice. -/
def FuseSession.act (s : FuseSession) : UserAct → FuseSession
  | .reply r error => if r ∈ s.held then {s.on (sendReply · r error) with held := s.held.erase r} else s
  | .replyNone r => if r ∈ s.held then {s.on (fuseReplyNone · r) with held := s.held.erase r} else s
  | .interruptFunc r func => if r ∈ s.held then s.on (fuseReqInterruptFunc · r func) else s
  | .retrieve sent => {s with
      notifyCtr := s.notifyCtr + 1
      notifyList := if sent then s.notifyList ++ [s.notifyCtr] else s.notifyList}
  | .other o => s.other o

def FuseSession.acts (s : FuseSession) (l : List UserAct) : FuseSession := l.foldl FuseSession.act s

inductive Copied
  | done (bytes : Nat)
  | failed (errno bytes : Nat)
  deriving DecidableEq, Repr

structure InitRun where
  noInterrupt : Bool
  want : Want
  flagsValid : Bool
  maxReadSame : Bool

/- `header` and `rest` are none when memory for the copy is missing. `acts` is what each call of
user code does, `window` what other threads do while find_interrupted has dropped the lock, `drain`
how many bytes a data handler copied out of its buffer and how many more it lost, if it read at all.
`meanwhile` is what other threads do between the link of the request and the call of its function. -/
structure Env where
  header : Option Copied
  alloc : Bool
  rest : Option Copied
  dummies : Nat → Bool
  pollHandle : Bool
  init : InitRun
  acts : Nat → List UserAct
  window : List UserAct
  meanwhile : List Other
  drain : Option (Nat × Nat)

structure Msg where
  fd : Bool
  size : Nat
  opcode : Nat
  unique : Nat
  uid : Nat
  major : Nat
  minor : Nat
  count : Nat
  lkFlock : Bool
  ioctlDir : Bool
  pollNotify : Bool
  target : Nat
  argSize : Nat
  deriving DecidableEq, Repr

variable (ops : LlOp → Bool) (e : Env) (m : Msg) (s : FuseSession) (r : Nat)

def give (call : Nat) : FuseSession := {s with held := s.held ++ [r]}.acts (e.acts call)

def opOr (op : LlOp) (err : Int) : FuseSession := if ops op then give e s r 0 else s.on (fuseReplyErr · r err)

def opOrOk (op : LlOp) : FuseSession := if ops op then give e s r 0 else s.on (sendReply · r 0)

def doLookup : FuseSession := opOr ops e s r .lookup enosys

def doForget : FuseSession := if ops .forget then give e s r 0 else s.on (fuseReplyNone · r)

def forgetDummies : Nat → Nat → FuseSession → FuseSession
  | _,0,s => s
  | call,left + 1,s =>
    if e.dummies call then forgetDummies (call + 1) left
      (give e (s.on (fuseLlAllocReq · (s.reqs r).unique)) s.next call) else s

def doBatchForget : FuseSession :=
  if ops .forgetMulti then give e s r 0
  else if ops .forget then (forgetDummies e r 0 m.count s).on (fuseReplyNone · r)
  else s.on (fuseReplyNone · r)

def doGetattr : FuseSession := opOr ops e s r .getattr enosys

def doSetattr : FuseSession := opOr ops e s r .setattr enosys

def doAccess : FuseSession := opOr ops e s r .access enosys

def doReadlink : FuseSession := opOr ops e s r .readlink enosys

def doMknod : FuseSession := opOr ops e s r .mknod enosys

def doMkdir : FuseSession := opOr ops e s r .mkdir enosys

def doUnlink : FuseSession := opOr ops e s r .unlink enosys

def doRmdir : FuseSession := opOr ops e s r .rmdir enosys

def doSymlink : FuseSession := opOr ops e s r .symlink enosys

def doRename : FuseSession := opOr ops e s r .rename enosys

def doRename2 : FuseSession := opOr ops e s r .rename enosys

def doLink : FuseSession := opOr ops e s r .link enosys

def doTmpfile : FuseSession := opOr ops e s r .tmpfile enosys

def doCreate : FuseSession := opOr ops e s r .create enosys

def doOpen : FuseSession := if s.want.noOpenSupport then opOr ops e s r .open enosys else opOrOk ops e s r .open

def doRead : FuseSession := opOr ops e s r .read enosys

def doWrite : FuseSession := opOr ops e s r .write enosys

def doFlush : FuseSession := opOr ops e s r .flush enosys

def doRelease : FuseSession := opOr ops e s r .release 0

def doFsync : FuseSession := opOr ops e s r .fsync enosys

def doOpendir : FuseSession :=
  if s.want.noOpendirSupport then opOr ops e s r .opendir enosys else opOrOk ops e s r .opendir

def doReaddir : FuseSession := opOr ops e s r .readdir enosys

def doReaddirplus : FuseSession := opOr ops e s r .readdirplus enosys

def doReleasedir : FuseSession := opOr ops e s r .releasedir 0

def doFsyncdir : FuseSession := opOr ops e s r .fsyncdir enosys

def doStatfs : FuseSession := opOrOk ops e s r .statfs

def doSetxattr : FuseSession := opOr ops e s r .setxattr enosys

def doGetxattr : FuseSession := opOr ops e s r .getxattr enosys

def doListxattr : FuseSession := opOr ops e s r .listxattr enosys

def doRemovexattr : FuseSession := opOr ops e s r .removexattr enosys

def doGetlk : FuseSession := opOr ops e s r .getlk enosys

def doSetlkCommon : FuseSession := opOr ops e s r (if m.lkFlock then .flock else .setlk) enosys

def doSetlk : FuseSession := doSetlkCommon ops e m s r

def doSetlkw : FuseSession := doSetlkCommon ops e m s r

def doBmap : FuseSession := opOr ops e s r .bmap enosys

def doIoctl : FuseSession :=
  if m.ioctlDir ∧ s.want.ioctlDir = false then s.on (fuseReplyErr · r enotty) else opOr ops e s r .ioctl enosys

def doPoll : FuseSession :=
  if ops .poll ∧ m.pollNotify ∧ e.pollHandle = false then s.on (fuseReplyErr · r enomem)
    else opOr ops e s r .poll enosys

def doFallocate : FuseSession := opOr ops e s r .fallocate enosys

def doCopyFileRange : FuseSession := opOr ops e s r .copyFileRange enosys

def doLseek : FuseSession := opOr ops e s r .lseek enosys

def callInit : FuseSession :=
  let s := {s with gotInit := true, want := e.init.want}
  if ops .init then ({s with noInterrupt := e.init.noInterrupt}).acts (e.acts 0) else s

def noWant : Want := ⟨false,false,false⟩

def doInit : FuseSession :=
  let s := {s with protoMinor := m.minor, want := noWant}
  if m.major < 7 then s.on (fuseReplyErr · r eproto)
  else if m.major > 7 then s.on (sendReply · r 0)
  else
    let s := callInit ops e s
    if e.init.flagsValid = false ∨ e.init.maxReadSame = false then s.on (fuseReplyErr · r eproto)
    else s.on (sendReply · r 0)

/- The reply does not free the request, init_done runs in between. -/
def cuseLowlevelInit : FuseSession :=
  let s := {s with protoMinor := m.minor, want := noWant}
  if m.major < 7 then s.on (fuseReplyErr · r eproto)
  else (((callInit ops e s).on (fuseSendReplyNofree · r 0)).acts (e.acts 1)).on (fuseFreeReq · r)

def doDestroy : FuseSession :=
  let s := {s with gotDestroy := true, gotInit := false}
  (if ops .destroy then s.acts (e.acts 0) else s).on (sendReply · r 0)

/- find_interrupted drops the lock before it marks the request it has found, and holds a reference. -/
def interruptFound (curr : Nat) : FuseSession :=
  let s := ((s.on (holdReq · curr)).acts e.window).on (markInterrupted · curr)
  let func := (s.reqs curr).u
  (if func = 0 then s else (s.on (callFunc · curr func)).acts (e.acts 0)).on (unholdReq · curr)

def doInterrupt : FuseSession :=
  let s := s.on (setTarget · r m.target)
  match interruptTarget s.toSession r with
  | some curr => (interruptFound e s curr).on (destroyReq · r)
  | none => if interruptPending s.toSession r then s.on (destroyReq · r) else s.on (addInterrupt · r)

/- NOTIFY_REPLY has an entry that is never called. -/
def fuseLlOps : List (Nat × (FuseSession → Nat → FuseSession)) :=
  [(1,doLookup ops e),(2,doForget ops e),(3,doGetattr ops e),(4,doSetattr ops e),(5,doReadlink ops e),
    (6,doSymlink ops e),(8,doMknod ops e),(9,doMkdir ops e),(10,doUnlink ops e),(11,doRmdir ops e),
    (12,doRename ops e),(13,doLink ops e),(14,doOpen ops e),(15,doRead ops e),(16,doWrite ops e),
    (17,doStatfs ops e),(18,doRelease ops e),(20,doFsync ops e),(21,doSetxattr ops e),(22,doGetxattr ops e),
    (23,doListxattr ops e),(24,doRemovexattr ops e),(25,doFlush ops e),(26,doInit ops e m),(27,doOpendir ops e),
    (28,doReaddir ops e),(29,doReleasedir ops e),(30,doFsyncdir ops e),(31,doGetlk ops e),(32,doSetlk ops e m),
    (33,doSetlkw ops e m),(34,doAccess ops e),(35,doCreate ops e),(36,doInterrupt e m),(37,doBmap ops e),
    (38,doDestroy ops e),(39,doIoctl ops e m),(40,doPoll ops e m),(41,fun s _ => s),(42,doBatchForget ops e m),
    (43,doFallocate ops e),(44,doReaddirplus ops e),(45,doRename2 ops e),(46,doLseek ops e),
    (47,doCopyFileRange ops e),(51,doTmpfile ops e),(4096,cuseLowlevelInit ops e m)]

/- What holds of the few ways to answer, and of the five functions that do more, holds of the table. -/
theorem tableCases {P : Nat → (FuseSession → Nat → FuseSession) → Prop}
    (give : ∀ code, P code fun s r => give e s r 0)
    (err : ∀ code err, P code fun s r => s.on (fuseReplyErr · r err))
    (reply : ∀ code, P code fun s r => s.on (sendReply · r 0))
    (none : ∀ code, P code fun s r => s.on (fuseReplyNone · r))
    (either : ∀ code f g (c : FuseSession → Bool), P code f → P code g → P code fun s r => if c s then f s r else g s r)
    (batchForget : P 42 (doBatchForget ops e m)) (destroy : P 38 (doDestroy ops e))
    (init : P 26 (doInit ops e m)) (interrupt : P 36 (doInterrupt e m)) (notifyReply : P 41 fun s _ => s)
    (cuseInit : P 4096 (cuseLowlevelInit ops e m)) :
    ∀ p ∈ fuseLlOps ops e m, P p.1 p.2 := by
  have plain (op : LlOp) (code : Nat) (number : Int) : P code fun s r => opOr ops e s r op number :=
    either code _ _ (fun _ => ops op) (give code) (err code number)
  have usual (op : LlOp) (code : Nat) := plain op code enosys
  have succeed (op : LlOp) (code : Nat) : P code fun s r => opOrOk ops e s r op :=
    either code _ _ (fun _ => ops op) (give code) (reply code)
  have forget := either 2 _ _ (fun _ => ops .forget) (give 2) (none 2)
  have opened := either 14 _ _ (fun s => s.want.noOpenSupport) (usual .open 14) (succeed .open 14)
  have opendir := either 27 _ _ (fun s => s.want.noOpendirSupport) (usual .opendir 27) (succeed .opendir 27)
  have ioctl : P 39 (doIoctl ops e m) := by
    have both := either 39 _ _ (fun s => decide (m.ioctlDir ∧ s.want.ioctlDir = false)) (err 39 enotty)
      (usual .ioctl 39)
    simp only [decide_eq_true_eq] at both
    exact both
  have poll : P 40 (doPoll ops e m) := by
    have both := either 40 _ _ (fun _ => decide (ops .poll ∧ m.pollNotify ∧ e.pollHandle = false))
      (err 40 enomem) (usual .poll 40)
    simp only [decide_eq_true_eq] at both
    exact both
  simp only [fuseLlOps,List.forall_mem_cons]
  exact ⟨usual _ _,forget,usual _ _,usual _ _,usual _ _,usual _ _,usual _ _,usual _ _,usual _ _,usual _ _,
    usual _ _,usual _ _,opened,usual _ _,usual _ _,succeed _ _,plain _ _ 0,usual _ _,usual _ _,usual _ _,
    usual _ _,usual _ _,usual _ _,init,opendir,usual _ _,plain _ _ 0,usual _ _,usual _ _,usual _ _,
    usual _ _,usual _ _,usual _ _,interrupt,usual _ _,destroy,ioctl,poll,notifyReply,batchForget,
    usual _ _,usual _ _,usual _ _,usual _ _,usual _ _,usual _ _,cuseInit,fun _ mem => absurd mem List.not_mem_nil⟩

def fuseInit : Nat := 26

def cuseInit : Nat := 4096

def fuseWrite : Nat := 16

def fuseInterrupt : Nat := 36

def fuseNotifyReply : Nat := 41

/- The opcodes that allow_root lets through: INIT, READ, WRITE, FSYNC, RELEASE, READDIR, FSYNCDIR,
RELEASEDIR, NOTIFY_REPLY and READDIRPLUS. -/
def anyoneMay : List Nat := [26,15,16,20,18,28,30,29,41,44]

def clearPipe : FuseSession := {s with pipe := 0}

def dropPipe : FuseSession := if m.fd then clearPipe s else s

def writeHeaderSize : Nat := 80

def Copied.took (size : Nat) : Copied → Nat
  | .done bytes => min bytes size
  | .failed _ bytes => min bytes size

def fuseLlCopyFromPipe (size : Nat) : Copied → Int
  | .done bytes => if min bytes size < size then -1 else 0
  | .failed errno _ => -(errno + 1 : Int)

def sizeSub (a b : Nat) : Nat := if b ≤ a then a - b else a + 2 ^ 64 - b

/- A handler with a buffer of so many bytes: what it took out of the pipe, and the index of the
buffer vector when it is done. -/
def drained (size : Nat) : Option (Nat × Nat) → Nat × Nat
  | none => (0,0)
  | some (copied,lost) => (min (copied + lost) size,if size ≤ copied then 1 else 0)

def resetPipe (took idx : Nat) : FuseSession :=
  if m.fd then if idx < 1 then clearPipe s else {s with pipe := s.pipe - took} else s

/- none is the failed assertion: old protocols have no buffers in pipes. -/
def doWriteBuf : Option FuseSession :=
  if s.protoMinor < 9 ∧ m.fd then none
  else if sizeSub m.size (if s.protoMinor < 9 then 64 else writeHeaderSize) < m.argSize then
    some (resetPipe m (s.on (fuseReplyErr · r eio)) 0 0)
  else some (resetPipe m (give e s r 0) (drained m.argSize e.drain).1 (drained m.argSize e.drain).2)

def fuseLlRetrieveReply : FuseSession :=
  if sizeSub m.size writeHeaderSize < m.argSize then resetPipe m (s.on (fuseReplyNone · r)) 0 0
  else if ops .retrieveReply then
    resetPipe m (give e s r 0) (drained m.argSize e.drain).1 (drained m.argSize e.drain).2
  else resetPipe m (s.on (fuseReplyNone · r)) 0 0

def doNotifyReply : FuseSession :=
  if m.unique ∈ s.notifyList then fuseLlRetrieveReply ops e m
    {s with notifyList := s.notifyList.erase m.unique} r else s

/- Only the expected INIT comes first, and no INIT later. -/
def unexpected : Bool :=
  if s.gotInit then decide (m.opcode = fuseInit ∨ m.opcode = cuseInit)
  else decide (m.opcode ≠ if s.cuseData then cuseInit else fuseInit)

def denied : Bool := s.denyOthers && decide (m.uid ≠ s.owner ∧ m.uid ≠ 0 ∧ m.opcode ∉ anyoneMay)

def refused : Option Int :=
  if unexpected m s then some eio
  else if denied m s then some eacces
  else if (fuseLlOps ops e m).lookup m.opcode = none then some enosys
  else if s.noInterrupt ∧ m.opcode = fuseInterrupt then some enosys
  else none

/- Nobody else sees a request that is not linked. -/
def enterList : FuseSession :=
  if s.noInterrupt = false ∧ m.opcode ≠ fuseInterrupt then (linkReq s r).others e.meanwhile else s

def readsRest : Bool :=
  m.fd && decide (writeHeaderSize < m.size) && !(decide (m.opcode = fuseWrite) && ops .writeBuf) &&
    decide (m.opcode ≠ fuseNotifyReply)

def replyErrClear (err : Int) : FuseSession := dropPipe m (s.on (fuseReplyErr · r err))

/- none when the rest is in memory, else the error of the missing memory or of the copy. -/
def restError : Option Int :=
  if readsRest ops m then
    match e.rest with
    | none => some enomem
    | some c =>
      let res := fuseLlCopyFromPipe (m.size - writeHeaderSize) c
      if res < 0 then some (-res) else none
  else none

def readRest : FuseSession :=
  if readsRest ops m then {s with pipe := s.pipe - (e.rest.map (Copied.took (m.size - writeHeaderSize))).getD 0} else s

def dispatch : Option FuseSession :=
  if m.opcode = fuseWrite ∧ ops .writeBuf then doWriteBuf e m s r
  else if m.opcode = fuseNotifyReply then some (doNotifyReply ops e m s r)
  else some ((((fuseLlOps ops e m).lookup m.opcode).getD fun s _ => s) s r)

def handle : Option FuseSession :=
  match refused ops e m s with
  | some err => some (replyErrClear m s r err)
  | none =>
    let s := readRest ops e m (enterList e m s r)
    match restError ops e m with
    | some err => some (replyErrClear m s r err)
    | none => dispatch ops e m s r

def headerSize : Nat := min writeHeaderSize m.size

def headerRead : Bool :=
  !m.fd || match e.header with
    | none => false
    | some c => decide (0 ≤ fuseLlCopyFromPipe (headerSize m) c)

def readHeader : FuseSession :=
  if m.fd then {s with pipe := s.pipe - (e.header.map (Copied.took (headerSize m))).getD 0} else s

/- The state afterwards, and the request of the message if there was memory for one. -/
def fuseSessionProcessBufInternal : Option (FuseSession × Option Nat) :=
  let s := readHeader e m s
  if headerRead e m then
    if e.alloc then (handle ops e m (s.on (fuseLlAllocReq · m.unique)) s.next).map fun t => (t,some s.next)
    else some (dropPipe m {s with sent := s.sent ++ [(none,-enomem)]},none)
  else some (clearPipe s,none)

end FuseStudy.LlSession
