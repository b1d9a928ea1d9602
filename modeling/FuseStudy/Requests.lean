import FuseStudy.Script
import FuseStudy.TreeLocks

/-! The requests of the high-level library as programs. An instruction is one critical
section under f->lock, one call of the user's file system or one reply to the kernel.
Attributes, buffers and the interrupt bookkeeping are left out; what a call of the file
system decides besides its result (the type of a created file, the names of a directory) is
a parameter of the request. -/
namespace FuseStudy.NodeStore
open CString Script

inductive FsOp
  | getattr | readlink | mknod | mkdir | unlink | rmdir | symlink | rename | link | chmod | chown | truncate
  | utimens | access | create | open | release | read | write | flush | fsync | opendir | readdir | releasedir
  | fsyncdir | statfs | setxattr | getxattr | listxattr | removexattr | lock | flock | bmap | ioctl | poll
  | fallocate | copyFileRange | lseek
  deriving DecidableEq

inductive Instr
  | getPath (want : Want)
  | getPath2 (want1 want2 : Want)
  | freePath (held : Held)
  | freePath2 (held1 held2 : Held)
  -- try_get_path without locks
  | peekPath (nodeid : Ino)
  | findNode (parent : Ino) (name : Option Name)
  | forgetNode (nodeid : Ino) (nlookup : Nat)
  | removeNode (dir : Ino) (name : Name)
  | renameNode (olddir : Ino) (oldname : Name) (newdir : Ino) (newname : Name) (hide : Bool)
  | exchangeNode (olddir : Ino) (oldname : Name) (newdir : Ino) (newname : Name)
  | isOpen (dir : Ino) (name : Name)
  -- the critical section of hidden_name: a free name and its path
  | hiddenName (dir : Ino) (oldname : Name)
  -- wnode->name and wnode->nodeid
  | nodeName (node : Option Ptr)
  | nodeId (node : Option Ptr)
  | getNode (nodeid : Ino)
  | openNode (nodeid : Ino)
  | releaseNode (nodeid : Ino)
  | pinNode (nodeid : Ino)
  | unpinNode (node : Ptr)
  | parentId (nodeid : Ino)
  | callback (op : FsOp) (path path2 : Option Bytes)
  | reply (err : Int)

@[reducible] def Instr.Result : Instr → Type
  | .getPath _ => Except Int Held
  | .getPath2 .. => Except Int (Held × Held)
  | .peekPath _ => Except Int Bytes
  | .findNode .. => Option Ino
  | .renameNode .. | .exchangeNode .. | .callback .. | .reply _ => Int
  | .isOpen .. | .releaseNode _ => Bool
  | .hiddenName .. => Option (Name × Except Int Bytes)
  | .nodeName _ => Name
  | .nodeId _ | .parentId _ => Ino
  | .pinNode _ => Option Ptr
  | _ => Unit

abbrev Prog := Script.Prog Instr Instr.Result

def ask (i : Instr) : Prog i.Result := call i

def enosys : Int := 38

def eperm : Int := 1

def getPath (nodeid : Ino) : Prog (Except Int Held) := ask (.getPath ⟨nodeid,none,false⟩)

def getPathName (nodeid : Ino) (name : Option Name) : Prog (Except Int Held) := ask (.getPath ⟨nodeid,name,false⟩)

def getPathWrlock (nodeid : Ino) (name : Name) : Prog (Except Int Held) := ask (.getPath ⟨nodeid,some name,true⟩)

def getPathNullok (conf : Conf) (nodeid : Ino) : Prog (Except Int (Option Held)) :=
  if conf.nullpathOk then pure (.ok none)
  else do
    match ← getPath nodeid with
    | .ok held => pure (.ok (some held))
    | .error err => pure (if err = -estale then .ok none else .error err)

def freePath : Option Held → Prog Unit
  | none => pure ()
  | some held => ask (.freePath held)

def pathString (held : Option Held) : Option Bytes := held.map Held.path

def fs (op : FsOp) (path : Option Bytes) : Prog Int := ask (.callback op path none)

def replyErr (err : Int) : Prog Unit := do
  let _ ← ask (.reply err)
  pure ()

def doLookup (nodeid : Ino) (name : Option Name) : Prog (Except Int Ino) := do
  match ← ask (.findNode nodeid name) with
  | none => pure (.error (-enomem))
  | some ino => pure (.ok ino)

def lookupPath (nodeid : Ino) (name : Option Name) (path : Bytes) : Prog (Except Int Ino) := do
  let res ← fs .getattr (some path)
  if res = 0 then doLookup nodeid name else pure (.error res)

/- An id of zero is a negative entry. -/
def replyEntry : Except Int Ino → Prog Unit
  | .error err => replyErr err
  | .ok ino => do
    let res ← ask (.reply 0)
    if res = -enoent ∧ ino ≠ 0 then ask (.forgetNode ino 1) else pure ()

def unpin : Option Ptr → Prog Unit
  | none => pure ()
  | some dot => ask (.unpinNode dot)

def lookupEntry (negative : Bool) (parent : Ino) (name : Option Name) (dot : Option Ptr) : Prog Unit := do
  match ← getPathName parent name with
  | .error err =>
    unpin dot
    replyErr err
  | .ok held =>
    let entry ← lookupPath parent name held.path
    ask (.freePath held)
    unpin dot
    match entry with
    | .error err => replyEntry (if err = -enoent ∧ negative then .ok 0 else .error err)
    | .ok ino => replyEntry (.ok ino)

def fuseLibLookup (negative : Bool) (parent : Ino) (name : Name) : Prog Unit :=
  if name = [46] then do
    match ← ask (.pinNode parent) with
    | none => replyEntry (.error (-estale))
    | some dot => lookupEntry negative parent none (some dot)
  else if name = [46,46] then do
    let parent ← ask (.parentId parent)
    lookupEntry negative parent none none
  else lookupEntry negative parent (some name) none

def fuseLibForget (ino : Ino) (nlookup : Nat) : Prog Unit := do
  ask (.forgetNode ino nlookup)
  replyErr 0

def doForgets : List (Ino × Nat) → Prog Unit
  | [] => pure ()
  | (ino,nlookup) :: rest => do
    ask (.forgetNode ino nlookup)
    doForgets rest

def fuseLibForgetMulti (forgets : List (Ino × Nat)) : Prog Unit := do
  doForgets forgets
  replyErr 0

/- Calls of the file system in turn, up to the first that fails. -/
def fsCalls (path : Option Bytes) : List FsOp → Prog Int
  | [] => pure 0
  | op :: rest => do
    let err ← fs op path
    if err = 0 then fsCalls path rest else pure err

/- The requests that do nothing but call the file system on the path of a node. -/
def withPath (nullok : Option Conf) (ino : Ino) (calls : List FsOp) : Prog Int := do
  match ← (match nullok with
    | some conf => getPathNullok conf ino
    | none => do
      match ← getPath ino with
      | .ok held => pure (.ok (some held))
      | .error err => pure (.error err)) with
  | .error err => pure err
  | .ok held =>
    let err ← fsCalls (pathString held) calls
    freePath held
    pure err

def pathRequest (nullok : Option Conf) (ino : Ino) (calls : List FsOp) : Prog Unit := do
  let err ← withPath nullok ino calls
  replyErr err

def fuseLibGetattr (conf : Conf) (fi : Bool) (ino : Ino) : Prog Unit := do
  let err ← withPath (if fi then some conf else none) ino [.getattr]
  if err = 0 then
    ask (.getNode ino)
    replyErr 0
  else replyErr err

def fuseLibSetattr (conf : Conf) (fi : Bool) (ino : Ino) (mode owner size times : Bool) : Prog Unit :=
  pathRequest (if fi then some conf else none) ino
    ((if mode then [.chmod] else []) ++ (if owner then [.chown] else []) ++ (if size then [.truncate] else []) ++
      (if times then [.utimens] else []) ++ [.getattr])

def fuseLibAccess (ino : Ino) : Prog Unit := pathRequest none ino [.access]

def fuseLibReadlink (ino : Ino) : Prog Unit := pathRequest none ino [.readlink]

def fuseLibRead (conf : Conf) (ino : Ino) : Prog Unit := pathRequest (some conf) ino [.read]

def fuseLibWriteBuf (conf : Conf) (ino : Ino) : Prog Unit := pathRequest (some conf) ino [.write]

def fuseLibFsync (conf : Conf) (ino : Ino) : Prog Unit := pathRequest (some conf) ino [.fsync]

def fuseLibFsyncdir (conf : Conf) (ino : Ino) : Prog Unit := pathRequest (some conf) ino [.fsyncdir]

def fuseLibSetxattr (ino : Ino) : Prog Unit := pathRequest none ino [.setxattr]

def fuseLibGetxattr (ino : Ino) (allocated : Bool) : Prog Unit :=
  if allocated then pathRequest none ino [.getxattr] else replyErr (-enomem)

def fuseLibListxattr (ino : Ino) (allocated : Bool) : Prog Unit :=
  if allocated then pathRequest none ino [.listxattr] else replyErr (-enomem)

def fuseLibRemovexattr (ino : Ino) : Prog Unit := pathRequest none ino [.removexattr]

def fuseLibFlock (conf : Conf) (ino : Ino) : Prog Unit := pathRequest (some conf) ino [.flock]

def fuseLibBmap (ino : Ino) : Prog Unit := pathRequest none ino [.bmap]

def fuseLibPoll (conf : Conf) (ino : Ino) : Prog Unit := pathRequest (some conf) ino [.poll]

def fuseLibFallocate (conf : Conf) (ino : Ino) : Prog Unit := pathRequest (some conf) ino [.fallocate]

def fuseLibLseek (ino : Ino) : Prog Unit := pathRequest none ino [.lseek]

def fuseLibIoctl (conf : Conf) (ino : Ino) (unrestricted allocated : Bool) : Prog Unit :=
  if unrestricted then replyErr (-eperm)
  else if allocated then pathRequest (some conf) ino [.ioctl]
  else replyErr (-enomem)

def fuseLibStatfs (ino : Ino) : Prog Unit :=
  if ino = 0 then do
    let err ← fs .statfs (some [slash])
    replyErr err
  else pathRequest none ino [.statfs]

/- A conflict with a lock the library knows of is answered without the file system. -/
def fuseLibGetlk (conf : Conf) (ino : Ino) (conflict : Bool) : Prog Unit := do
  ask (.getNode ino)
  if conflict then replyErr 0 else pathRequest (some conf) ino [.lock]

def fuseLibSetlk (conf : Conf) (ino : Ino) : Prog Unit := do
  let err ← withPath (some conf) ino [.lock]
  if err = 0 then
    ask (.getNode ino)
    replyErr 0
  else replyErr err

def pathOrNull (conf : Conf) (ino : Ino) : Prog (Option Held) := do
  match ← getPathNullok conf ino with
  | .ok held => pure held
  | .error _ => pure none

def fuseFlushCommon (ino : Ino) (path : Option Bytes) : Prog Int := do
  let err ← fs .flush path
  let errlock ← fs .lock path
  if errlock = -enosys then pure err
  else
    ask (.getNode ino)
    pure (if err = -enosys then 0 else err)

def fuseLibFlush (conf : Conf) (ino : Ino) : Prog Unit := do
  let held ← pathOrNull conf ino
  let err ← fuseFlushCommon ino (pathString held)
  freePath held
  replyErr err

def fuseLibReleasedir (conf : Conf) (ino : Ino) : Prog Unit := do
  let held ← pathOrNull conf ino
  let _ ← fs .releasedir (pathString held)
  freePath held
  replyErr 0

def fuseLibOpendir (ino : Ino) (allocated : Bool) : Prog Unit :=
  if allocated then do
    match ← getPath ino with
    | .error err => replyErr err
    | .ok held =>
      let err ← fs .opendir (some held.path)
      let res ← ask (.reply err)
      if err = 0 ∧ res = -enoent then
        let _ ← fs .releasedir (some held.path)
        ask (.freePath held)
      else ask (.freePath held)
  else replyErr (-enomem)

/- The lookups that a filler makes, up to the first that fails. -/
def doLookups (nodeid : Ino) : List Name → Prog Unit
  | [] => pure ()
  | name :: rest => do
    match ← doLookup nodeid (some name) with
    | .error _ => pure ()
    | .ok _ => doLookups nodeid rest

/- filled: the list of an earlier call is still good; during and late: the names looked up
while the file system lists the directory and afterwards, from the list. -/
def fuseReaddirCommon (nullok : Option Conf) (ino nodeid : Ino) (filled : Bool) (during late : List Name) : Prog Unit :=
  if filled then do
    doLookups nodeid late
    replyErr 0
  else do
    match ← (match nullok with
      | some conf => getPathNullok conf ino
      | none => do
        match ← getPath ino with
        | .ok held => pure (.ok (some held))
        | .error err => pure (.error err)) with
    | .error err => replyErr err
    | .ok held =>
      doLookups nodeid during
      let err ← fs .readdir (pathString held)
      freePath held
      if err = 0 then
        doLookups nodeid late
        replyErr 0
      else replyErr err

/- The entry made by the file system is looked up at once. -/
def makeEntry (parent : Ino) (name : Name) (op : FsOp) : Prog Unit := do
  match ← getPathName parent (some name) with
  | .error err => replyErr err
  | .ok held =>
    let err ← fs op (some held.path)
    if err = 0 then
      let entry ← lookupPath parent (some name) held.path
      ask (.freePath held)
      replyEntry entry
    else
      ask (.freePath held)
      replyErr err

def fuseLibMkdir (parent : Ino) (name : Name) : Prog Unit := makeEntry parent name .mkdir

def fuseLibSymlink (parent : Ino) (name : Name) : Prog Unit := makeEntry parent name .symlink

/- A regular file is created and closed again; only a file system without create is asked
for mknod. -/
def mknodLocked (parent : Ino) (name : Name) (path : Bytes) (regular : Bool) : Prog (Except Int Ino) := do
  let first ← (if regular then do
      let err ← fs .create (some path)
      if err = 0 then
        let entry ← lookupPath parent (some name) path
        let _ ← fs .release (some path)
        pure entry
      else pure (.error err)
    else pure (.error (-enosys)))
  match first with
  | .ok ino => pure (.ok ino)
  | .error err =>
    if err = -enosys then
      let err ← fs .mknod (some path)
      if err = 0 then lookupPath parent (some name) path else pure (.error err)
    else pure (.error err)

def fuseLibMknod (parent : Ino) (name : Name) (regular : Bool) : Prog Unit := do
  match ← getPathName parent (some name) with
  | .error err => replyErr err
  | .ok held =>
    let entry ← mknodLocked parent name held.path regular
    ask (.freePath held)
    replyEntry entry

def hiddenName : Nat → Ino → Name → Prog (Option (Name × Bytes))
  | 0, _, _ => pure none
  | failctr+1, dir, oldname => do
    match ← ask (.hiddenName dir oldname) with
    | none => pure none
    | some (_,.error _) => pure none
    | some (newname,.ok newpath) =>
      let res ← fs .getattr (some newpath)
      if res = -enoent then pure (some (newname,newpath))
      else if res = 0 then hiddenName failctr dir oldname
      else pure none

def hideNode (oldpath : Bytes) (dir : Ino) (oldname : Name) : Prog Int := do
  match ← hiddenName 10 dir oldname with
  | none => pure (-ebusy)
  | some (newname,newpath) =>
    let err ← ask (.callback .rename (some oldpath) (some newpath))
    if err = 0 then ask (.renameNode dir oldname dir newname true) else pure err

def isOpenSoft (conf : Conf) (dir : Ino) (name : Name) : Prog Bool :=
  if conf.hardRemove then pure false else ask (.isOpen dir name)

/- The node is hidden; it may have been closed in the meantime. -/
def unlinkHidden (parent : Ino) (wnode : Option Ptr) : Prog Int := do
  let hidden ← ask (.nodeName wnode)
  let isopen ← ask (.isOpen parent hidden)
  if isopen then pure 0
  else
    let nodeid ← ask (.nodeId wnode)
    match ← ask (.peekPath nodeid) with
    | .error _ => pure 0
    | .ok unlinkpath =>
      let err ← fs .unlink (some unlinkpath)
      if err = 0 then
        let hidden ← ask (.nodeName wnode)
        ask (.removeNode parent hidden)
        pure 0
      else pure err

def unlinkLocked (conf : Conf) (parent : Ino) (name : Name) (held : Held) : Prog Int := do
  let isopen ← isOpenSoft conf parent name
  if isopen then
    let err ← hideNode held.path parent name
    if err = 0 then unlinkHidden parent held.wnode else pure err
  else
    let err ← fs .unlink (some held.path)
    if err = 0 then
      ask (.removeNode parent name)
      pure 0
    else pure err

def fuseLibUnlink (conf : Conf) (parent : Ino) (name : Name) : Prog Unit := do
  match ← getPathWrlock parent name with
  | .error err => replyErr err
  | .ok held =>
    let err ← unlinkLocked conf parent name held
    ask (.freePath held)
    replyErr err

def fuseLibRmdir (parent : Ino) (name : Name) : Prog Unit := do
  match ← getPathWrlock parent name with
  | .error err => replyErr err
  | .ok held =>
    let err ← fs .rmdir (some held.path)
    if err = 0 then
      ask (.removeNode parent name)
      ask (.freePath held)
      replyErr 0
    else
      ask (.freePath held)
      replyErr err

def renameLocked (conf : Conf) (olddir : Ino) (oldname : Name) (newdir : Ino) (newname : Name) (exchange : Bool)
    (oldpath newpath : Bytes) : Prog Int := do
  let isopen ← (if exchange then pure false else isOpenSoft conf newdir newname)
  let err ← (if isopen then hideNode newpath newdir newname else pure 0)
  if err = 0 then
    let err ← ask (.callback .rename (some oldpath) (some newpath))
    if err = 0 then
      if exchange then ask (.exchangeNode olddir oldname newdir newname)
      else ask (.renameNode olddir oldname newdir newname false)
    else pure err
  else pure err

def fuseLibRename (conf : Conf) (olddir : Ino) (oldname : Name) (newdir : Ino) (newname : Name) (exchange : Bool) :
    Prog Unit := do
  match ← ask (.getPath2 ⟨olddir,some oldname,true⟩ ⟨newdir,some newname,true⟩) with
  | .error err => replyErr err
  | .ok (old,new) =>
    let err ← renameLocked conf olddir oldname newdir newname exchange old.path new.path
    ask (.freePath2 old new)
    replyErr err

def fuseLibLink (ino newparent : Ino) (newname : Name) : Prog Unit := do
  match ← ask (.getPath2 ⟨ino,none,false⟩ ⟨newparent,some newname,false⟩) with
  | .error err => replyErr err
  | .ok (old,new) =>
    let err ← ask (.callback .link (some old.path) (some new.path))
    if err = 0 then
      let entry ← lookupPath newparent (some newname) new.path
      ask (.freePath2 old new)
      replyEntry entry
    else
      ask (.freePath2 old new)
      replyErr err

def fuseDoRelease (conf : Conf) (ino : Ino) (path : Option Bytes) : Prog Unit := do
  let _ ← fs .release path
  let unlinkHidden ← ask (.releaseNode ino)
  if unlinkHidden then
    match path with
    | some path =>
      let _ ← fs .unlink (some path)
      pure ()
    | none =>
      if conf.nullpathOk then
        match ← getPath ino with
        | .error _ => pure ()
        | .ok held =>
          let _ ← fs .unlink (some held.path)
          ask (.freePath held)
      else pure ()
  else pure ()

def fuseLibRelease (conf : Conf) (ino : Ino) (flush : Bool) : Prog Unit := do
  let held ← pathOrNull conf ino
  let err ← (if flush then fuseFlushCommon ino (pathString held) else pure 0)
  fuseDoRelease conf ino (pathString held)
  freePath held
  replyErr (if err = -enosys then 0 else err)

/- A file that is not regular after all is closed and forgotten. -/
def createLocked (parent : Ino) (name : Name) (path : Bytes) (regular : Bool) : Prog (Except Int Ino) := do
  let err ← fs .create (some path)
  if err = 0 then
    match ← lookupPath parent (some name) path with
    | .error err =>
      let _ ← fs .release (some path)
      pure (.error err)
    | .ok ino =>
      if regular then pure (.ok ino)
      else
        let _ ← fs .release (some path)
        ask (.forgetNode ino 1)
        pure (.error (-eio))
  else pure (.error err)

def fuseLibCreate (conf : Conf) (parent : Ino) (name : Name) (regular : Bool) : Prog Unit := do
  match ← getPathName parent (some name) with
  | .error err => replyErr err
  | .ok held =>
    match ← createLocked parent name held.path regular with
    | .error err =>
      replyErr err
      ask (.freePath held)
    | .ok ino =>
      ask (.openNode ino)
      let res ← ask (.reply 0)
      if res = -enoent then
        fuseDoRelease conf ino (some held.path)
        ask (.forgetNode ino 1)
        ask (.freePath held)
      else ask (.freePath held)

def fuseLibOpen (conf : Conf) (ino : Ino) : Prog Unit := do
  match ← getPath ino with
  | .error err => replyErr err
  | .ok held =>
    let err ← fs .open (some held.path)
    if err = 0 then
      ask (.openNode ino)
      let res ← ask (.reply 0)
      if res = -enoent then
        fuseDoRelease conf ino (some held.path)
        ask (.freePath held)
      else ask (.freePath held)
    else
      replyErr err
      ask (.freePath held)

def fuseLibCopyFileRange (conf : Conf) (nodeidIn nodeidOut : Ino) : Prog Unit := do
  match ← getPathNullok conf nodeidIn with
  | .error err => replyErr err
  | .ok pathIn =>
    match ← getPathNullok conf nodeidOut with
    | .error err =>
      freePath pathIn
      replyErr err
    | .ok pathOut =>
      let res ← ask (.callback .copyFileRange (pathString pathIn) (pathString pathOut))
      replyErr (if 0 ≤ res then 0 else res)
      freePath pathIn
      freePath pathOut

end FuseStudy.NodeStore
