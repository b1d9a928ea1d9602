import FuseStudy.CacheCleaning
import FuseStudy.LockInvariant
import FuseStudy.Requests

/-! Requests running side by side. Each step is one critical section of one request, one
call of the file system or one reply; a request that has to wait stands in lockq and is
served from there by whoever gives a path back. -/
namespace FuseStudy.NodeStore
open CString LinearHash Script

def hexDigit (d : Nat) : UInt8 := UInt8.ofNat (if d < 10 then 48 + d else 87 + d)

def hex8 (v : Nat) : Bytes := [7,6,5,4,3,2,1,0].map fun i => hexDigit (v / 16 ^ i % 16)

def hiddenCandidate (nodeid hidectr : Nat) : Name := ascii ".fuse_hidden" ++ hex8 (nodeid % 2 ^ 32) ++ hex8 hidectr

/- After a full turn of the counter every candidate is known to be taken and the source
loops for ever. -/
def hiddenLoop (dir nodeid : Ino) : Nat → Fuse → Except Fault (Fuse × Name)
  | 0, _ => .error .diverges
  | fuel+1, s =>
    let s := {s with hidectr := (s.hidectr + 1) % 2 ^ 32}
    let newname := hiddenCandidate nodeid s.hidectr
    match s.lookupNode dir newname with
    | some _ => hiddenLoop dir nodeid fuel s
    | none => .ok (s,newname)

def Fuse.peekPath (s : Fuse) (nodeid : Ino) (name : Option Name) : Except Fault (Fuse × Except Int Bytes) := do
  let (s,r) ← s.tryGetPath ⟨nodeid,name,false⟩ false
  .ok (s,r.map Held.path)

def Fuse.hiddenName (s : Fuse) (dir : Ino) (oldname : Name) : Except Fault (Fuse × Option (Name × Except Int Bytes)) :=
  match s.lookupNode dir oldname with
  | none => .ok (s,none)
  | some p => do
    let n ← s.deref p
    let (s,newname) ← hiddenLoop dir n.nodeid (2 ^ 32) s
    let (s,path) ← s.peekPath dir (some newname)
    .ok (s,some (newname,path))

def Fuse.isOpen (s : Fuse) (dir : Ino) (name : Name) : Except Fault Bool :=
  match s.lookupNode dir name with
  | none => .ok false
  | some p => do
    let n ← s.deref p
    .ok (decide (0 < n.openCount))

def Fuse.derefNode (s : Fuse) : Option Ptr → Except Fault Node
  | none => .error .nullPointer
  | some p => s.deref p

def Fuse.openNode (s : Fuse) (nodeid : Ino) : Except Fault Fuse := do
  let p ← s.getNode nodeid
  let n ← s.deref p
  .ok (s.put p {n with openCount := n.openCount + 1})

/- The flag tells that the last user of a hidden file is gone. -/
def Fuse.releaseNode (s : Fuse) (nodeid : Ino) : Except Fault (Fuse × Bool) := do
  let p ← s.getNode nodeid
  let n ← s.deref p
  if n.openCount ≤ 0 then .error .openCount
  else
    let last := n.isHidden && decide (n.openCount = 1)
    .ok (s.put p {n with openCount := n.openCount - 1, isHidden := n.isHidden && !last},last)

def Fuse.pinNode (s : Fuse) (nodeid : Ino) : Except Fault (Fuse × Option Ptr) :=
  match s.getNodeNocheck nodeid with
  | none => .ok (s,none)
  | some p => do
    let n ← s.deref p
    .ok (s.put p {n with refctr := n.refctr + 1},some p)

def Fuse.parentId (s : Fuse) (nodeid : Ino) : Except Fault Ino := do
  let p ← s.getNode nodeid
  let n ← s.deref p
  let parent ← s.derefNode n.parent
  .ok parent.nodeid

/- EAGAIN keeps a request waiting, every other error is its answer. -/
def answered {α : Type} : Except Int α → Option (Except Int α)
  | .ok a => some (.ok a)
  | .error err => if err = -eagain then none else some (.error err)

/- One instruction; nothing is returned when the request has to wait. The result of the file
system and of a reply comes from outside. -/
def Fuse.exec (s : Fuse) (answer : Int) : (i : Instr) → Except Fault (Fuse × Option i.Result)
  | .getPath want => do
    let (s,r) ← s.tryGetPath want true
    .ok (s,answered r)
  | .getPath2 want1 want2 => do
    let (s,r) ← s.tryGetPath2 want1 want2
    .ok (s,answered r)
  | .freePath held => do
    let s ← s.unlockPath held.want.nodeid held.wnode none
    .ok (s,some ())
  | .freePath2 held1 held2 => do
    let s ← s.unlockPath held1.want.nodeid held1.wnode none
    let s ← s.unlockPath held2.want.nodeid held2.wnode none
    .ok (s,some ())
  | .peekPath nodeid => do
    let (s,path) ← s.peekPath nodeid none
    .ok (s,some path)
  | .findNode parent name => do
    let (s,found) ← s.findNode parent name
    match found with
    | none => .ok (s,some none)
    | some p => do
      let n ← s.deref p
      .ok (s,some (some n.nodeid))
  | .forgetNode nodeid nlookup => do
    let waits ← s.forgetWaits nodeid nlookup
    if waits then .ok (s,none)
    else do
      let s ← s.forgetNode nodeid nlookup
      .ok (s,some ())
  | .removeNode dir name => do
    let s ← s.removeNode dir name
    .ok (s,some ())
  | .renameNode olddir oldname newdir newname hide => do
    let (s,err) ← s.renameNode olddir oldname newdir newname hide
    .ok (s,some err)
  | .exchangeNode olddir oldname newdir newname => do
    let (s,err) ← s.exchangeNode olddir oldname newdir newname
    .ok (s,some err)
  | .isOpen dir name => do
    let isopen ← s.isOpen dir name
    .ok (s,some isopen)
  | .hiddenName dir oldname => do
    let (s,r) ← s.hiddenName dir oldname
    .ok (s,some r)
  | .nodeName node => do
    let n ← s.derefNode node
    match n.name with
    | none => .error .nullPointer
    | some name => .ok (s,some name)
  | .nodeId node => do
    let n ← s.derefNode node
    .ok (s,some n.nodeid)
  | .getNode nodeid => do
    let _ ← s.getNode nodeid
    .ok (s,some ())
  | .openNode nodeid => do
    let s ← s.openNode nodeid
    .ok (s,some ())
  | .releaseNode nodeid => do
    let (s,last) ← s.releaseNode nodeid
    .ok (s,some last)
  | .pinNode nodeid => do
    let (s,r) ← s.pinNode nodeid
    .ok (s,some r)
  | .unpinNode node => do
    let s ← s.unrefNode node
    .ok (s,some ())
  | .parentId nodeid => do
    let parent ← s.parentId nodeid
    .ok (s,some parent)
  | .callback .. => .ok (s,some answer)
  | .reply _ => .ok (s,some answer)

/- The paths a request holds, and the nodes it keeps in memory, after an instruction. -/
def Instr.holds : (i : Instr) → i.Result → List Held → List Held
  | .getPath _, .ok held, holds => held :: holds
  | .getPath2 .., .ok (held1,held2), holds => held1 :: held2 :: holds
  | .freePath held, _, holds => holds.erase held
  | .freePath2 held1 held2, _, holds => (holds.erase held1).erase held2
  | _, _, holds => holds

def Instr.pins : (i : Instr) → i.Result → List Ptr → List Ptr
  | .pinNode _, some p, pins => p :: pins
  | .unpinNode p, _, pins => pins.erase p
  | _, _, pins => pins

def Instr.frees : Instr → Bool
  | .freePath _ | .freePath2 .. => true
  | _ => false

def Instr.isPath : Instr → Bool
  | .getPath _ | .getPath2 .. => true
  | _ => false

def Instr.makes : Instr → List (Ino × Name)
  | .findNode parent (some name) => [(parent,name)]
  | .renameNode _ _ newdir newname _ => [(newdir,newname)]
  | .exchangeNode olddir oldname newdir newname => [(newdir,newname),(olddir,oldname)]
  | _ => []

/- granted: its paths are there but it has not left the queue yet; signalled: a forget that
is told to look again. -/
inductive Phase
  | running | waiting | granted | signalled
  deriving DecidableEq

structure Thread where
  -- the entries that the request unlinks or renames
  entries : List (Ino × Name)
  prog : Prog Unit
  holds : List Held
  pins : List Ptr
  phase : Phase

def Thread.take (t : Thread) (i : Instr) (next : i.Result → Prog Unit) (r : i.Result) (phase : Phase) : Thread :=
  {t with prog := next r, holds := i.holds r t.holds, pins := i.pins r t.pins, phase := phase}

def Thread.finished (t : Thread) : Bool :=
  match t.prog with
  | .done _ => true
  | .act .. => false

structure Sys where
  fuse : Fuse
  threads : List Thread
  lockq : List Nat

def Sys.put (y : Sys) (i : Nat) (t : Thread) : Sys := {y with threads := y.threads.set i t}

def Sys.wakeup (y : Sys) (i : Nat) : Except Fault Sys :=
  match y.threads[i]? with
  | none => .ok y
  | some t =>
    match t.phase,t.prog with
    | .running, _ => .ok y
    | .granted, _ => .ok y
    | _, .done _ => .ok y
    | _, .act (.forgetNode nodeid _) _ => do
      -- just waiting for it to be unlocked
      let p ← y.fuse.getNode nodeid
      let n ← y.fuse.deref p
      .ok (if n.treelock = 0 then y.put i {t with phase := .signalled} else y)
    | _, .act j next => do
      let (s,r) ← y.fuse.exec 0 j
      match r with
      | none => .ok {y with fuse := s}
      | some r => .ok ({y with fuse := s}.put i (t.take j next r .granted))

def Sys.wakeUpQueued (y : Sys) : Except Fault Sys := y.lockq.foldlM Sys.wakeup y

def Sys.run (y : Sys) (i : Nat) (answer : Int) : Except Fault Sys :=
  match y.threads[i]? with
  | none => .ok y
  | some t =>
    match t.phase,t.prog with
    | .granted, _ => .ok {y.put i {t with phase := .running} with lockq := y.lockq.erase i}
    | _, .done _ => .ok y
    | phase, .act j next =>
      -- woken without being served
      if phase = .waiting ∧ j.isPath then .ok y
      else do
        let (s,r) ← y.fuse.exec answer j
        let y := {y with fuse := s}
        match r with
        | none =>
          .ok {y.put i {t with phase := .waiting} with lockq := if i ∈ y.lockq then y.lockq else y.lockq ++ [i]}
        | some r => do
          let y := {y.put i (t.take j next r .running) with lockq := y.lockq.erase i}
          if j.frees then y.wakeUpQueued else .ok y

inductive Request
  | lookup (negative : Bool) (parent : Ino) (name : Name)
  | forget (ino : Ino) (nlookup : Nat)
  | forgetMulti (forgets : List (Ino × Nat))
  | getattr (fi : Bool) (ino : Ino)
  | setattr (fi : Bool) (ino : Ino) (mode owner size times : Bool)
  | access (ino : Ino)
  | readlink (ino : Ino)
  | mknod (parent : Ino) (name : Name) (regular : Bool)
  | mkdir (parent : Ino) (name : Name)
  | unlink (parent : Ino) (name : Name)
  | rmdir (parent : Ino) (name : Name)
  | symlink (parent : Ino) (name : Name)
  | rename (olddir : Ino) (oldname : Name) (newdir : Ino) (newname : Name) (exchange : Bool)
  | link (ino newparent : Ino) (newname : Name)
  | create (parent : Ino) (name : Name) (regular : Bool)
  | openFile (ino : Ino)
  | read (ino : Ino)
  | writeBuf (ino : Ino)
  | flush (ino : Ino)
  | release (ino : Ino) (flushes : Bool)
  | fsync (ino : Ino)
  | opendir (ino : Ino) (allocated : Bool)
  | readdir (nullok : Bool) (ino nodeid : Ino) (filled : Bool) (during late : List Name)
  | releasedir (ino : Ino)
  | fsyncdir (ino : Ino)
  | statfs (ino : Ino)
  | setxattr (ino : Ino)
  | getxattr (ino : Ino) (allocated : Bool)
  | listxattr (ino : Ino) (allocated : Bool)
  | removexattr (ino : Ino)
  | getlk (ino : Ino) (conflict : Bool)
  | setlk (ino : Ino)
  | flock (ino : Ino)
  | bmap (ino : Ino)
  | ioctl (ino : Ino) (unrestricted allocated : Bool)
  | poll (ino : Ino)
  | fallocate (ino : Ino)
  | copyFileRange (nodeidIn nodeidOut : Ino)
  | lseek (ino : Ino)

def Request.script (conf : Conf) : Request → Prog Unit
  | .lookup negative parent name => fuseLibLookup negative parent name
  | .forget ino nlookup => fuseLibForget ino nlookup
  | .forgetMulti forgets => fuseLibForgetMulti forgets
  | .getattr fi ino => fuseLibGetattr conf fi ino
  | .setattr fi ino mode owner size times => fuseLibSetattr conf fi ino mode owner size times
  | .access ino => fuseLibAccess ino
  | .readlink ino => fuseLibReadlink ino
  | .mknod parent name regular => fuseLibMknod parent name regular
  | .mkdir parent name => fuseLibMkdir parent name
  | .unlink parent name => fuseLibUnlink conf parent name
  | .rmdir parent name => fuseLibRmdir parent name
  | .symlink parent name => fuseLibSymlink parent name
  | .rename olddir oldname newdir newname exchange => fuseLibRename conf olddir oldname newdir newname exchange
  | .link ino newparent newname => fuseLibLink ino newparent newname
  | .create parent name regular => fuseLibCreate conf parent name regular
  | .openFile ino => fuseLibOpen conf ino
  | .read ino => fuseLibRead conf ino
  | .writeBuf ino => fuseLibWriteBuf conf ino
  | .flush ino => fuseLibFlush conf ino
  | .release ino flushes => fuseLibRelease conf ino flushes
  | .fsync ino => fuseLibFsync conf ino
  | .opendir ino allocated => fuseLibOpendir ino allocated
  | .readdir nullok ino nodeid filled during late =>
    fuseReaddirCommon (if nullok then some conf else none) ino nodeid filled during late
  | .releasedir ino => fuseLibReleasedir conf ino
  | .fsyncdir ino => fuseLibFsyncdir conf ino
  | .statfs ino => fuseLibStatfs ino
  | .setxattr ino => fuseLibSetxattr ino
  | .getxattr ino allocated => fuseLibGetxattr ino allocated
  | .listxattr ino allocated => fuseLibListxattr ino allocated
  | .removexattr ino => fuseLibRemovexattr ino
  | .getlk ino conflict => fuseLibGetlk conf ino conflict
  | .setlk ino => fuseLibSetlk conf ino
  | .flock ino => fuseLibFlock conf ino
  | .bmap ino => fuseLibBmap ino
  | .ioctl ino unrestricted allocated => fuseLibIoctl conf ino unrestricted allocated
  | .poll ino => fuseLibPoll conf ino
  | .fallocate ino => fuseLibFallocate conf ino
  | .copyFileRange nodeidIn nodeidOut => fuseLibCopyFileRange conf nodeidIn nodeidOut
  | .lseek ino => fuseLibLseek ino

/- The entries that the kernel keeps others from while the request runs. -/
def Request.entries : Request → List (Ino × Name)
  | .unlink parent name => [(parent,name)]
  | .rmdir parent name => [(parent,name)]
  | .rename olddir oldname newdir newname _ => [(olddir,oldname),(newdir,newname)]
  | _ => []

inductive Action
  | arrive (request : Request)
  | run (i : Nat) (answer : Int)
  | clean (aged : Ptr → Bool)

def Sys.step (y : Sys) : Action → Except Fault Sys
  | .arrive request =>
    .ok {y with threads := y.threads ++ [⟨request.entries,request.script y.fuse.conf,[],[],.running⟩]}
  | .run i answer => y.run i answer
  | .clean aged =>
    if y.fuse.lruEnabled then do
      let s ← y.fuse.cleanCache aged
      .ok {y with fuse := s}
    else .ok y

def Sys.start (conf : Conf) (memory : Nat → Bool) : Sys := ⟨fuseNew conf memory,[],[]⟩

def Sys.steps : Sys → List Action → Except Fault Sys
  | y, [] => .ok y
  | y, action :: actions => do
    let y ← y.step action
    y.steps actions

def Sys.unfinished (y : Sys) : Nat := y.threads.countP fun t => !t.finished

/- No other request works on an entry that this instruction looks up or creates. -/
def Sys.serial (y : Sys) (i : Nat) (j : Instr) : Bool :=
  y.threads.zipIdx.all fun (t,k) => k == i || t.finished || j.makes.all fun e => !t.entries.contains e

/- What the kernel promises for an instruction that is about to be run. -/
def Sys.promised (y : Sys) (i : Nat) : Bool :=
  match y.threads[i]? with
  | none => true
  | some t =>
    match t.prog with
    | .done _ => true
    | .act j _ => y.serial i j

def Request.forgetsSome : Request → Bool
  | .forget _ nlookup => decide (0 < nlookup)
  | .forgetMulti forgets => forgets.all fun forget => decide (0 < forget.2)
  | _ => true

/- The kernel keeps the directory entries of unlink, rmdir and rename to one request, never
forgets zero lookups and has fewer requests under way than an int can count twice. -/
def Sys.allowed (y : Sys) : Action → Bool
  | .arrive request => request.forgetsSome && decide (y.unfinished < 2 ^ 30 - 1)
  | .run i _ => y.promised i
  | .clean _ => true

inductive Reachable (conf : Conf) (memory : Nat → Bool) : Sys → Prop
  | start : Reachable conf memory (Sys.start conf memory)
  | step {y y' : Sys} {action : Action} (before : Reachable conf memory y) (allowed : y.allowed action)
      (ran : y.step action = .ok y') : Reachable conf memory y'

def Sys.legal : Sys → List Action → Bool
  | _, [] => true
  | y, action :: actions => y.allowed action && match y.step action with
    | .ok y => y.legal actions
    | .error _ => true

theorem stepsReachable {conf : Conf} {memory : Nat → Bool} {actions : List Action} {y y' : Sys}
    (reachable : Reachable conf memory y) (legal : y.legal actions) (ran : y.steps actions = .ok y') :
    Reachable conf memory y' := by
  induction actions generalizing y with
  | nil =>
    cases ran
    exact reachable
  | cons action actions ih =>
    simp only [Sys.legal,Bool.and_eq_true] at legal
    obtain ⟨allowed,rest⟩ := legal
    cases first : y.step action with
    | error fault =>
      simp only [Sys.steps,first] at ran
      cases ran
    | ok y₁ =>
      simp only [Sys.steps,first] at ran
      rw [first] at rest
      exact ih (.step reachable allowed first) rest ran

def Sys.held (y : Sys) : List Held := y.threads.flatMap Thread.holds

end FuseStudy.NodeStore
