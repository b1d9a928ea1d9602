import FuseStudy.StoreLookups

/-! The tree locks: a path is computed by walking up from a node, with a read lock on every
node passed and a write lock on the node under the last name when asked for. One counter a
node holds the number of readers, the mark of a writer, or the readers that a writer waits
for. -/
namespace FuseStudy.NodeStore
open CString LinearHash

def treelockWrite : Int := -1

def treelockWaitOffset : Int := -2147483648

def eagain : Int := 11

def estale : Int := 116

def enoent : Int := 2

def slash : UInt8 := 47

structure Want where
  nodeid : Ino
  name : Option Name
  write : Bool
  deriving DecidableEq

structure Held where
  want : Want
  wnode : Option Ptr
  path : Bytes
  deriving DecidableEq

/- The inner loop of add_name. From any size but zero 32 turns reach every need that an unsigned
can hold; the source goes on for ever when the need is larger still. -/
def growBuf : Nat → Nat → Nat → Nat
  | 0, newbufsize, _ => newbufsize
  | fuel+1, newbufsize, need =>
    if newbufsize < need then
      growBuf fuel (if newbufsize ≥ 0x80000000 then 0xffffffff else newbufsize * 2) need
    else newbufsize

/- The path stands at the end of the buffer with its NUL; none when the buffer cannot grow. -/
def Fuse.addName (s : Fuse) (bufsize : Nat) (path name : Bytes) : Fuse × Option (Nat × Bytes) :=
  let pathlen := path.length + 1
  if bufsize ≤ pathlen + name.length then
    let (grown,s) := s.takeMem
    (s,if grown then some (growBuf 32 bufsize (pathlen + name.length + 1),slash :: (name ++ path)) else none)
  else (s,some (bufsize,slash :: (name ++ path)))

def unlockLoop : Nat → Fuse → Option Ptr → Option Ptr → Except Fault Fuse
  | 0, _, _, _ => .error .diverges
  | fuel+1, s, node, stop =>
    if node = stop then .ok s
    else match node with
      | none => .error .nullPointer
      | some p => do
        let n ← s.deref p
        if n.nodeid = rootId then .ok s
        else if n.treelock = 0 ∨ n.treelock = treelockWaitOffset ∨ n.treelock = treelockWrite then .error .readLost
        else
          let left := n.treelock - 1
          unlockLoop fuel (s.put p {n with treelock := if left = treelockWaitOffset then 0 else left}) n.parent stop

def Fuse.unlockPath (s : Fuse) (nodeid : Ino) (wnode stop : Option Ptr) : Except Fault Fuse := do
  let s ← match wnode with
    | none => .ok s
    | some w => do
      let n ← s.deref w
      if n.treelock ≠ treelockWrite then .error .writeLost
      else .ok (s.put w {n with treelock := 0})
  let p ← s.getNode nodeid
  unlockLoop (s.brk+1) s (some p) stop

/- The walk of try_get_path: the path, or the error and the node it stopped at. -/
def walkPath (needLock : Bool) : Nat → Fuse → Ptr → Nat → Bytes → Except Fault (Fuse × Except (Int × Ptr) Bytes)
  | 0, _, _, _, _ => .error .diverges
  | fuel+1, s, p, bufsize, path => do
    let n ← s.deref p
    if n.nodeid = rootId then .ok (s,.ok path)
    else match n.name,n.parent with
      | some name,some parent =>
        match s.addName bufsize path name with
        | (s,none) => .ok (s,.error (-enomem,p))
        | (s,some (bufsize,path)) =>
          if needLock then
            if n.treelock < 0 then .ok (s,.error (-eagain,p))
            else walkPath needLock fuel (s.put p {n with treelock := n.treelock + 1}) parent bufsize path
          else walkPath needLock fuel s parent bufsize path
      | _,_ => .ok (s,.error (-estale,p))

def finishPath (path : Bytes) : Bytes := if path = [] then [slash] else path

/- The write lock on the node under the name, before the walk: none when it has to wait. -/
def Fuse.lockWnode (s : Fuse) (want : Want) : Except Fault (Fuse × Option (Option Ptr)) :=
  match want.write,want.name with
  | false,_ => .ok (s,some none)
  | true,none => .error .nullPointer
  | true,some name =>
    match s.lookupNode want.nodeid name with
    | none => .ok (s,some none)
    | some w => do
      let n ← s.deref w
      if n.treelock ≠ 0 then
        .ok (if 0 < n.treelock then s.put w {n with treelock := n.treelock + treelockWaitOffset} else s,none)
      else .ok (s.put w {n with treelock := treelockWrite},some (some w))

/- An empty buffer, or one with the last name already in it. -/
def Fuse.startBuf (s : Fuse) : Option Name → Fuse × Option (Nat × Bytes)
  | none => (s,some (256,[]))
  | some name => s.addName 256 [] name

def Fuse.tryGetPath (s : Fuse) (want : Want) (needLock : Bool) : Except Fault (Fuse × Except Int Held) := do
  let (allocated,s) := s.takeMem
  if !allocated then .ok (s,.error (-enomem))
  else
    match s.startBuf want.name with
    | (s,none) => .ok (s,.error (-enomem))
    | (s,some (bufsize,path)) =>
      if want.write ∧ !needLock then .error .needLock
      else
        let (s,wnode) ← s.lockWnode want
        match wnode with
        | none => .ok (s,.error (-eagain))
        | some wnode =>
          let p ← s.getNode want.nodeid
          let (s,walked) ← walkPath needLock (s.brk+1) s p bufsize path
          match walked with
          | .ok path => .ok (s,.ok ⟨want,wnode,finishPath path⟩)
          | .error (err,stopped) =>
            let s ← if needLock then s.unlockPath want.nodeid wnode (some stopped) else .ok s
            .ok (s,.error err)

def Fuse.tryGetPath2 (s : Fuse) (want1 want2 : Want) : Except Fault (Fuse × Except Int (Held × Held)) := do
  let (s,first) ← s.tryGetPath want1 true
  match first with
  | .error err => .ok (s,.error err)
  | .ok held1 =>
    let (s,second) ← s.tryGetPath want2 true
    match second with
    | .ok held2 => .ok (s,.ok (held1,held2))
    | .error err =>
      let s ← s.unlockPath want1.nodeid held1.wnode none
      .ok (s,.error err)

end FuseStudy.NodeStore
