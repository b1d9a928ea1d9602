import FuseStudy.Script
import FuseStudy.MayUnmount
import FuseStudy.ConfFile

/-! util/fusermount.c as the system calls that it makes. Between any two of them the user may rename and replace
what he likes, so a path leads to anything, but for "." and for an open file. -/
namespace FuseStudy.SetuidMount
open CString Script
open DoMount (signed)
open ConfFile (Conf)

abbrev Obj := Nat

structure Stat where
  kind : UInt32
  sticky : Bool
  uid : UInt32

def sIfdir : UInt32 := 0o040000
def sIfreg : UInt32 := 0o100000

inductive OpenMnt where
  | opened | notConnected | notAllowed | other

/- System calls, and calls of functions that have a model of their own. -/
inductive Call where
  | setfsuid (uid : UInt32)
  | setfsgid (gid : UInt32)
  | realpath (path : Bytes)
  | chdir (path : Bytes)
  | getcwd
  | lstat (path : Bytes)
  | access (path : Bytes)
  | openFile (path : Bytes)
  | fstat (fd : Int32)
  | close (fd : Int32)
  | statfs (path : Bytes)
  | openDevice
  | readConf
  | countFuseFs
  | doMount (mnt dev opts : Bytes) (fd : Int32) (rootmode : UInt32) (userAllowOther : Bool)
  | addMount (source mnt type opts : Bytes)
  | isSock (cfd : Int64)
  | sendFd (cfd : Int64) (fd : Int32)
  | closeInheritedFds (cfd : Int64)
  | waitForEnd (cfd : Int64)
  | checkIsMount (last mnt : Bytes) (type : Option Bytes)
  | openMnt (mnt : Bytes)
  | recheckAsOwner (mnt : Bytes)
  | mayUnmount (mnt : Bytes)
  | umount2 (path : Bytes) (detach nofollow : Bool)
  | removeMount (mnt : Bytes)

@[reducible] def Call.Result : Call → Type
  | .setfsuid _ | .setfsgid _ => UInt32
  | .realpath _ | .getcwd => Option Bytes
  | .lstat _ | .fstat _ => Option Stat
  | .openFile _ => Option Int32
  | .close _ | .waitForEnd _ => Unit
  | .statfs _ => Option UInt64
  | .openDevice => Option (Int32 × Bytes)
  | .readConf => Option Conf
  | .countFuseFs => Int
  | .doMount .. => DoMount.Run × Bool
  | .openMnt _ => OpenMnt
  | _ => Bool

abbrev Prog := Script.Prog Call Call.Result

def ask (c : Call) : Prog c.Result := call c

/- The program is installed with the s-bit: its caller, and what its own rights are. -/
structure Caller where
  uid : UInt32
  gid : UInt32
  euid : UInt32
  egid : UInt32

variable (who : Caller)

def dropPrivs : Prog (UInt32 × UInt32) := do
  if who.uid ≠ 0 then
    let oldfsuid ← ask (.setfsuid who.uid)
    let oldfsgid ← ask (.setfsgid who.gid)
    pure (oldfsuid,oldfsgid)
  else pure (0,0)

def restorePrivs (old : UInt32 × UInt32) : Prog Unit := do
  if who.uid ≠ 0 then
    let _ ← ask (.setfsuid old.1)
    let _ ← ask (.setfsgid old.2)
    pure ()
  else pure ()

def slash : Bytes := [47]
def dot : Bytes := [46]
def procPath (fd : Int32) : Bytes := ascii "/proc/self/fd/" ++ signed fd

/- strrchr(s, '/'): what is before it and behind it. -/
def lastSlash (s : Bytes) : Option (Bytes × Bytes) :=
  if 47 ∈ s then some (joined 47 (split 47 s).dropLast,(split 47 s).getLastD []) else none

/- fuse_mnt_resolve_path: what to hand to realpath, and the name to put behind it. -/
def toResolve (orig : Bytes) : Bytes × Option Bytes :=
  let copy := orig.rdropWhile (· = 47)
  if copy = [] then (orig,none)
  else match lastSlash copy with
    | none => if copy = dot ∨ copy = ascii ".." then (copy,none) else (dot,some copy)
    | some (front,last) =>
      if last = dot ∨ last = ascii ".." then (copy,none) else (if front = [] then slash else front,some last)

def resolvePath (orig : Bytes) : Prog (Option Bytes) := do
  if orig = [] then pure none
  else
    let (toresolv,lastcomp) := toResolve orig
    match ← ask (.realpath toresolv) with
    | none => pure none
    | some buf =>
      match lastcomp with
      | none => pure (some buf)
      | some last => pure (some (if buf.getLast? = some 47 then buf ++ last else buf ++ slash ++ last))

/- f_type_whitelist -/
def whitelist : List UInt64 := [
  0x61756673,0x00000187,0xCA451A4E,0x9123683E,0x00C36400,0xFF534D42,0x0000F15F,0x2011BAB0,0x0000EF53,0xF2F52010,
  0x65735546,0x01161970,0x47504653,0x0000482b,0x000072B6,0x3153464A,0x0BD00BD0,0x00004D44,0x0000564C,0x00006969,
  0x00003434,0x5346544E,0x7366746E,0x5346414f,0x794C7630,0xAAD7AAEA,0x52654973,0xFE534D42,0x73717368,0x01021994,
  0x24051905,0x736675005346544e,0x58465342,0x2FC12FC1,0x858458f6]

structure Place where
  mnt : Bytes
  kind : UInt32
  fd : Option Int32

/- The end of check_perm. -/
def onWhitelist (place : Place) : Prog (Option Place) := do
  match ← ask (.statfs place.mnt) with
  | none => pure none
  | some type => pure (if type ∈ whitelist then some place else none)

def checkPerm (mnt : Bytes) : Prog (Option Place) := do
  match ← ask (.lstat mnt) with
  | none => pure none
  | some st =>
    if who.uid = 0 then pure (some ⟨mnt,st.kind,none⟩)
    else if st.kind = sIfdir then
      if ← ask (.chdir mnt) then
        match ← ask (.lstat dot) with
        | none => pure none
        | some st =>
          if st.sticky ∧ st.uid ≠ who.uid then pure none
          else if ← ask (.access dot) then onWhitelist ⟨dot,st.kind,none⟩
          else pure none
      else pure none
    else if st.kind = sIfreg then
      match ← ask (.openFile mnt) with
      | none => pure none
      | some fd =>
        match ← ask (.fstat fd) with
        | none => pure none
        | some st => if st.kind ≠ sIfreg then pure none else onWhitelist ⟨procPath fd,st.kind,some fd⟩
    else pure none

structure Mounted where
  fd : Int32
  type : Bytes
  autoUnmount : Bool

/- What follows a do_mount: from the mount table on. -/
def recordMount (mnt xOpts : Bytes) (fd : Int32) (autoUnmount : Bool) : DoMount.End → Prog (Option Mounted)
  | .mounted source type mntOpts => do
    if ← ask (.chdir slash) then
      if who.euid = 0 then
        if ← ask (.addMount source mnt type (MayUnmount.addBack mntOpts xOpts)) then pure (some ⟨fd,type,autoUnmount⟩)
        else pure none
      else pure (some ⟨fd,type,autoUnmount⟩)
    else pure none
  | _ => pure none

def mountChecked (mnt dev doMountOpts xOpts : Bytes) (fd : Int32) (conf : Conf) (place : Place) :
    Prog (Option Mounted) :=
  do
  let (run,autoUnmount) ← ask (.doMount place.mnt dev doMountOpts fd place.kind conf.userAllowOther)
  match place.fd with
  | some mountpointFd =>
    ask (.close mountpointFd)
    recordMount who mnt xOpts fd autoUnmount run.ended
  | none => recordMount who mnt xOpts fd autoUnmount run.ended

/- Too many mounts for a user. -/
def tooMany (conf : Conf) : Prog Bool := do
  if who.uid ≠ 0 ∧ conf.mountMax ≠ -1 then
    let count ← ask .countFuseFs
    pure (decide (conf.mountMax.toInt ≤ count))
  else pure false

/- A return of -1 ends the program like an exit: both are none here. -/
def mountFuse (mnt opts : Bytes) : Prog (Option Mounted) := do
  let old ← dropPrivs who
  let device ← ask .openDevice
  restorePrivs who old
  match device with
  | none => pure none
  | some (fd,dev) =>
    let old ← dropPrivs who
    match ← ask .readConf with
    | none => pure none
    | some conf =>
      if ← tooMany who conf then pure none
      else match XOptions.extractXOptions opts with
        | none => pure none
        | some (doMountOpts,xOpts) =>
          let place ← checkPerm who mnt
          restorePrivs who old
          match place with
          | none => pure none
          | some place => mountChecked who mnt dev doMountOpts xOpts fd conf place

def chdirToParent (copy : Bytes) : Prog (Option Bytes) := do
  match lastSlash copy with
  | none => pure none
  | some (front,last) =>
    if last = [] then pure none
    else
      let parent := if front = [] then slash else front
      if ← ask (.chdir parent) then
        match ← ask .getcwd with
        | none => pure none
        | some buf => pure (if buf = parent then some last else none)
      else pure none

/- unmount_fuse_locked, once may_unmount has been asked. -/
def unmountAllowed (mnt : Bytes) (isLazy : Bool) : Prog Unit := do
  let old ← dropPrivs who
  match ← chdirToParent mnt with
  | none => restorePrivs who old
  | some last =>
    let done ← ask (.umount2 last isLazy true)
    restorePrivs who old
    if done then
      if ← ask (.chdir slash) then
        let _ ← ask (.removeMount mnt)
        pure ()
      else pure ()
    else pure ()

def unmountFuseLocked (mnt : Bytes) (isLazy : Bool) : Prog Unit := do
  if who.uid ≠ 0 then
    if ← ask (.mayUnmount mnt) then unmountAllowed who mnt isLazy
    else pure ()
  else unmountAllowed who mnt isLazy

/- do_unmount in main -/
def doUnmount (mnt : Bytes) (isLazy : Bool) : Prog Unit := do
  if who.euid = 0 then unmountFuseLocked who mnt isLazy
  else
    let _ ← ask (.umount2 mnt isLazy false)
    pure ()

def shouldAutoUnmount (mnt : Bytes) (type : Option Bytes) : Prog Bool := do
  match ← chdirToParent mnt with
  | none => pure false
  | some last =>
    if ← ask (.checkIsMount last mnt type) then
      match ← ask (.openMnt mnt) with
      | .notConnected => pure true
      | .notAllowed => ask (.recheckAsOwner mnt)
      | _ => pure false
    else pure false

/- The loop over recv is one call. -/
def waitForAutoUnmount (cfd : Int64) (mnt : Bytes) (type : Option Bytes) : Prog Unit := do
  if ← ask (.closeInheritedFds cfd) then
    if ← ask (.chdir slash) then
      ask (.waitForEnd cfd)
      if ← shouldAutoUnmount mnt type then doUnmount who mnt true
      else pure ()
    else pure ()
  else pure ()

/- What getopt_long and the environment say. commfd is what libfuse_strtol makes of it. -/
structure Args where
  origmnt : Bytes
  opts : Bytes
  unmount : Bool
  isLazy : Bool
  setupAutoUnmountOnly : Bool
  commfd : Option Int64

def main (a : Args) : Prog Unit := do
  let old ← dropPrivs who
  match ← resolvePath a.origmnt with
  | none => restorePrivs who old
  | some mnt =>
    if ← ask (.chdir slash) then
      restorePrivs who old
      if a.unmount ∧ ¬a.setupAutoUnmountOnly then doUnmount who mnt a.isLazy
      else match a.commfd with
        | none => pure ()
        | some cfd =>
          if ← ask (.isSock cfd) then
            if a.setupAutoUnmountOnly then waitForAutoUnmount who cfd mnt none
            else match ← mountFuse who mnt a.opts with
              | none => pure ()
              | some mounted =>
                if ← ask (.sendFd cfd mounted.fd) then
                  if mounted.autoUnmount then waitForAutoUnmount who cfd mnt (some mounted.type)
                  else pure ()
                else
                  let _ ← ask (.umount2 mnt true false)
                  pure ()
          else pure ()
    else pure ()

/-! What the calls do, and what has come to be known by them. -/

inductive Fact where
  | stat (o : Obj) (st : Stat)
  | writable (o : Obj)
  | opened (o : Obj)
  | onType (o : Obj) (type : UInt64)
  | allowed (mnt : Bytes)
  | unsent

structure World where
  fsuid : UInt32
  fsgid : UInt32
  cwd : Obj
  -- what getcwd said, since the last chdir
  cwdPath : Option Bytes
  fds : Int32 → Option Obj
  facts : List Fact
  waiting : Bool

def World.learn (w : World) (fact : Fact) : World := {w with facts := fact :: w.facts}

/- What a path may lead to. -/
def World.Leads (w : World) (path : Bytes) (o : Obj) : Prop :=
  (path = dot → o = w.cwd) ∧ ∀ fd, path = procPath fd → w.fds fd = some o

-- The type of an object never changes.
variable (kind : Obj → UInt32)

def after (w : World) : (c : Call) → c.Result → World → Prop
  | .setfsuid uid,old,w' => old = w.fsuid ∧ w' = {w with fsuid := uid}
  | .setfsgid gid,old,w' => old = w.fsgid ∧ w' = {w with fsgid := gid}
  | .chdir path,true,w' => ∃ o, w.Leads path o ∧ kind o = sIfdir ∧ w' = {w with cwd := o, cwdPath := none}
  | .getcwd,path,w' => w' = {w with cwdPath := path}
  | .lstat path,some st,w' => ∃ o, w.Leads path o ∧ st.kind = kind o ∧ w' = w.learn (.stat o st)
  | .access path,true,w' => ∃ o, w.Leads path o ∧ w' = w.learn (.writable o)
  | .openFile path,some fd,w' => ∃ o, w.Leads path o ∧
      w' = {w.learn (.opened o) with fds := Function.update w.fds fd (some o)}
  | .fstat fd,some st,w' => ∃ o, w.fds fd = some o ∧ st.kind = kind o ∧ w' = w.learn (.stat o st)
  | .close fd,_,w' => w' = {w with fds := Function.update w.fds fd none}
  | .statfs path,some type,w' => ∃ o, w.Leads path o ∧ w' = w.learn (.onType o type)
  | .mayUnmount mnt,true,w' => ∃ env table, env.uid = who.uid ∧
      MayUnmount.mayUnmount env table mnt = true ∧ w' = w.learn (.allowed mnt)
  | .doMount mnt dev opts fd rootmode userAllowOther,(run,_),w' =>
    ∃ env, env.uid = who.uid ∧ env.userAllowOther = userAllowOther ∧
      run = DoMount.doMount env mnt dev opts fd rootmode ∧ w' = w
  | .sendFd ..,false,w' => w' = w.learn .unsent
  | .waitForEnd _,_,w' => w' = {w with waiting := true}
  | _,_,w' => w' = w

/- The file system rights of the caller. -/
def Dropped (w : World) : Prop := who.uid = 0 ∨ w.fsuid = who.uid ∧ w.fsgid = who.gid

def Plain (w : World) : Prop := w.fsuid = who.euid ∧ w.fsgid = who.egid

/- An object to mount on: a directory that the caller may write to and that is not sticky under another owner, or
a file that he could open for writing; on a file system that may be covered. -/
structure Checked (w : World) (o : Obj) : Prop where
  place : (kind o = sIfdir ∧ .writable o ∈ w.facts ∧ ∃ st, .stat o st ∈ w.facts ∧
    (st.sticky = true → st.uid = who.uid)) ∨
    (kind o = sIfreg ∧ .opened o ∈ w.facts)
  type : ∃ t ∈ whitelist, .onType o t ∈ w.facts

/- The parent directory of a path, in which its last name is. -/
def InParent (w : World) (mnt last : Bytes) : Prop :=
  ∃ front, lastSlash mnt = some (front,last) ∧ w.cwdPath = some (if front = [] then slash else front)

def Guarded (w : World) : Call → Prop
  | .realpath _ | .lstat _ | .access _ | .openFile _ | .fstat _ | .statfs
      _ | .openDevice | .readConf | .countFuseFs => Dropped who w
  | .chdir path => path = slash ∨ Dropped who w ∨ w.waiting = true
  | .checkIsMount .. | .openMnt _ | .recheckAsOwner _ => w.waiting = true
  | .doMount mnt dev opts fd rootmode _ => Plain who w ∧
    (who.uid ≠ 0 → ∃ o, Checked who kind w o ∧ rootmode = kind o ∧
      ∀ env, ∀ call ∈ (DoMount.doMount env mnt dev opts fd rootmode).calls, ∀ o', w.Leads call.target o' → o' = o)
  | .umount2 path _ true => Dropped who w ∧ ∃ mnt, (who.uid ≠ 0 → .allowed mnt ∈ w.facts) ∧ InParent w mnt path
  | .umount2 _ _ false => .unsent ∈ w.facts ∨ who.euid ≠ 0
  | _ => True

def rule : Discipline Call Call.Result World := ⟨Guarded who kind,after who kind⟩

variable {who kind} {α : Type} {post : α → World → Prop} {w : World}

theorem asks {c : Call} {f : c.Result → Prog α} (may : Guarded who kind w c)
    (rest : ∀ r w', after who kind w c r w' → Keeps (rule who kind) post (f r) w') :
    Keeps (rule who kind) post (ask c >>= f) w :=
  ⟨may,rest⟩

theorem asksLast {c : Call} {post : c.Result → World → Prop} (may : Guarded who kind w c)
    (rest : ∀ r w', after who kind w c r w' → post r w') : Keeps (rule who kind) post (ask c) w :=
  ⟨may,rest⟩

/- What drop_privs saves, and the world before and after it. -/
def World.ids (who : Caller) (w : World) : UInt32 × UInt32 := if who.uid ≠ 0 then (w.fsuid,w.fsgid) else (0,0)

def World.dropped (who : Caller) (w : World) : World :=
  if who.uid ≠ 0 then {w with fsuid := who.uid, fsgid := who.gid} else w

def World.restored (who : Caller) (old : UInt32 × UInt32) (w : World) : World :=
  if who.uid ≠ 0 then {w with fsuid := old.1, fsgid := old.2} else w

theorem dropKeeps {post : UInt32 × UInt32 → World → Prop} (rest : post (w.ids who) (w.dropped who)) :
    Keeps (rule who kind) post (dropPrivs who) w := by
  unfold dropPrivs
  unfold World.ids World.dropped at rest
  split
  · next user =>
    rw [if_pos user,if_pos user] at rest
    refine asks trivial ?_
    rintro r w' ⟨rfl,rfl⟩
    refine asks trivial ?_
    rintro r w' ⟨rfl,rfl⟩
    exact rest
  · next root =>
    rw [if_neg root,if_neg root] at rest
    exact rest

theorem restoreKeeps {post : Unit → World → Prop} {old : UInt32 × UInt32} (rest : post () (w.restored who old)) :
    Keeps (rule who kind) post (restorePrivs who old) w := by
  unfold restorePrivs
  unfold World.restored at rest
  split
  · next user =>
    rw [if_pos user] at rest
    refine asks trivial ?_
    rintro r w' ⟨rfl,rfl⟩
    refine asks trivial ?_
    rintro r w' ⟨rfl,rfl⟩
    exact rest
  · next root =>
    rw [if_neg root] at rest
    exact rest

/- A function that runs between them leaves the rights alone. -/
def Alike (w w' : World) : Prop := w'.fsuid = w.fsuid ∧ w'.fsgid = w.fsgid

theorem droppedIs (w : World) : Dropped who (w.dropped who) := by
  unfold World.dropped
  split
  · exact .inr ⟨rfl,rfl⟩
  · next root => exact .inl (not_not.mp root)

theorem Dropped.alike {w' : World} (dropped : Dropped who w) (alike : Alike w w') : Dropped who w' :=
  dropped.imp id fun ids => ⟨alike.1.trans ids.1,alike.2.trans ids.2⟩

theorem plainAgain {w' : World} (plain : Plain who w) (alike : Alike (w.dropped who) w') :
    Plain who (w'.restored who (w.ids who)) := by
  unfold World.restored World.ids
  unfold World.dropped at alike
  split
  · exact plain
  · next root =>
    rw [if_neg root] at alike
    exact ⟨alike.1.trans plain.1,alike.2.trans plain.2⟩

/-! Function by function. -/

theorem resolveKeeps (orig : Bytes) (dropped : Dropped who w) :
    Keeps (rule who kind) (fun _ w' => Alike w w') (resolvePath orig) w := by
  unfold resolvePath
  split
  · exact ⟨rfl,rfl⟩
  · generalize toResolve orig = parts
    obtain ⟨toresolv,lastcomp⟩ := parts
    refine asks dropped fun r w' is => ?_
    cases is
    cases r with
    | none => exact ⟨rfl,rfl⟩
    | some buf => cases lastcomp <;> exact ⟨rfl,rfl⟩

theorem tooManyKeeps (conf : Conf) (dropped : Dropped who w) :
    Keeps (rule who kind) (fun _ w' => w' = w) (tooMany who conf) w := by
  unfold tooMany
  split
  · refine asks dropped fun r w' is => ?_
    exact is
  · exact rfl

def Suits (who : Caller) (kind : Obj → UInt32) (w : World) (place : Place) : Prop :=
  ∃ o, Checked who kind w o ∧ place.kind = kind o ∧ ∀ o', w.Leads place.mnt o' → o' = o

theorem whitelistKeeps {w₀ : World} {o : Obj} {place : Place} (dropped : Dropped who w) (alike : Alike w₀ w)
    (same : place.kind = kind o) (leads : ∀ o', w.Leads place.mnt o' → o' = o)
    (found : (kind o = sIfdir ∧ .writable o ∈ w.facts ∧ ∃ st, .stat o st ∈ w.facts ∧
      (st.sticky = true → st.uid = who.uid)) ∨ (kind o = sIfreg ∧ .opened o ∈ w.facts)) :
    Keeps (rule who kind) (fun r w' => ∀ place, r = some place → Alike w₀ w' ∧ Suits who kind w' place)
      (onWhitelist place) w := by
  refine asks dropped fun r w' is => ?_
  cases r with
  | none =>
    exact fun place no => by cases no
  | some type =>
    obtain ⟨o',led,rfl⟩ := is
    cases leads o' led
    intro there got
    split at got
    · next allowed =>
      cases got
      refine ⟨alike,o,⟨?_,type,allowed,List.mem_cons_self⟩,same,leads⟩
      refine found.imp (fun dir => ⟨dir.1,List.mem_cons_of_mem _ dir.2.1,?_⟩) fun file =>
        ⟨file.1,List.mem_cons_of_mem _ file.2⟩
      obtain ⟨st,seen,owner⟩ := dir.2.2
      exact ⟨st,List.mem_cons_of_mem _ seen,owner⟩
    · cases got

theorem checkKeeps (mnt : Bytes) (dropped : Dropped who w) (user : who.uid ≠ 0) :
    Keeps (rule who kind) (fun r w' => ∀ place, r = some place → Alike w w' ∧ Suits who kind w' place)
      (checkPerm who mnt) w := by
  have nothing : ∀ w', (∀ place, (none : Option Place) = some place → Alike w w' ∧ Suits who kind w' place) :=
    fun w' place no => by cases no
  refine asks dropped fun r w₁ is => ?_
  cases r with
  | none => exact nothing _
  | some st =>
    obtain ⟨o₁,-,-,rfl⟩ := is
    simp only [if_neg user]
    split
    · refine asks (.inr (.inl dropped)) fun r w₂ is => ?_
      cases r with
      | false => exact nothing _
      | true =>
        obtain ⟨o,-,dir,rfl⟩ := is
        -- From here on "." is that directory, wherever it is moved.
        refine asks dropped fun r w₃ is => ?_
        cases r with
        | none => exact nothing _
        | some st =>
          obtain ⟨o₂,led,is,rfl⟩ := is
          cases led.1 rfl
          simp only
          split
          · exact nothing _
          · next owned =>
            refine asks dropped fun r w₄ may => ?_
            cases r with
            | false => exact nothing _
            | true =>
              obtain ⟨o₃,led,rfl⟩ := may
              cases led.1 rfl
              exact whitelistKeeps dropped ⟨rfl,rfl⟩ is (fun o' led => led.1 rfl)
                (.inl ⟨dir,List.mem_cons_self,st,List.mem_cons_of_mem _ List.mem_cons_self,
                  fun sticky => not_not.mp fun other => owned ⟨sticky,other⟩⟩)
    · split
      · refine asks dropped fun r w₂ is => ?_
        cases r with
        | none => exact nothing _
        | some fd =>
          obtain ⟨o,-,rfl⟩ := is
          refine asks dropped fun r w₃ is => ?_
          cases r with
          | none => exact nothing _
          | some st =>
            obtain ⟨o₂,led,is,rfl⟩ := is
            have here : o₂ = o := by
              have opened : Function.update w.fds fd (some o) fd = some o₂ := led
              rw [Function.update_self] at opened
              exact (Option.some.inj opened).symm
            cases here
            simp only
            split
            · exact nothing _
            · next file =>
              exact whitelistKeeps dropped ⟨rfl,rfl⟩ is
                (fun o' led' => Option.some.inj ((led'.2 fd rfl).symm.trans led))
                (.inr ⟨is.symm.trans (not_not.mp file),List.mem_cons_of_mem _ List.mem_cons_self⟩)
      · exact nothing _

theorem checkPermKeeps (mnt : Bytes) (dropped : Dropped who w) :
    Keeps (rule who kind) (fun r w' => ∀ place, r = some place → Alike w w' ∧ (who.uid ≠ 0 → Suits who kind w' place))
      (checkPerm who mnt) w := by
  by_cases root : who.uid = 0
  · refine asks dropped fun r w₁ is => ?_
    cases r with
    | none =>
      intro place no
      cases no
    | some st =>
      obtain ⟨o₁,-,-,rfl⟩ := is
      simp only [if_pos root]
      exact fun place _ => ⟨⟨rfl,rfl⟩,fun user => absurd root user⟩
  · exact (checkKeeps mnt dropped root).imp fun r w' done place got => ⟨(done place got).1,fun _ => (done place got).2⟩

theorem firstMountsTarget {env st mnt dev data call}
    (mem : call ∈ (DoMount.firstMounts env st mnt dev data).1) : call.target = mnt := by
  unfold DoMount.firstMounts at mem
  cases subtype : st.subtype with
  | none =>
    simp only [subtype] at mem
    rw [DoMount.mountNotruncCall mem]
  | some name =>
    simp only [subtype] at mem
    split at mem
    · obtain first | second := List.mem_append.mp mem
      · rw [DoMount.mountNotruncCall first]
      · rw [DoMount.mountNotruncCall second]
    · rw [DoMount.mountNotruncCall mem]

theorem doMountTarget {env mnt dev opts fd rootmode call}
    (mem : call ∈ (DoMount.doMount env mnt dev opts fd rootmode).calls) :
    call.target = mnt := by
  unfold DoMount.doMount at mem
  split at mem
  · cases mem
  · split at mem
    · cases mem
    · split at mem
      · cases mem
      · split at mem
        · cases mem
        · unfold DoMount.mountSequence at mem
          simp only at mem
          split at mem
          · obtain early | last := List.mem_append.mp mem
            · exact firstMountsTarget early
            · rw [DoMount.mountNotruncCall last]
          · exact firstMountsTarget mem

theorem recordKeeps (mnt xOpts : Bytes) (fd : Int32) (autoUnmount : Bool) (ended : DoMount.End) (plain : Plain who w) :
    Keeps (rule who kind) (fun _ w' => Plain who w') (recordMount who mnt xOpts fd autoUnmount ended) w := by
  cases ended with
  | mounted source type mntOpts =>
    refine asks (.inl rfl) fun r w₁ is => ?_
    cases r with
    | false =>
      cases is
      exact plain
    | true =>
      obtain ⟨o,-,-,rfl⟩ := is
      simp only [if_true]
      split
      · refine asks trivial fun r w₂ is => ?_
        cases is
        cases r <;> exact plain
      · exact plain
  | err => exact plain
  | exit => exact plain
  | loops => exact plain

theorem mountCheckedKeeps {mnt dev doMountOpts xOpts : Bytes} {fd : Int32} {conf : Conf} {place : Place}
    (plain : Plain who w) (suits : who.uid ≠ 0 → Suits who kind w place) :
    Keeps (rule who kind) (fun _ w' => Plain who w') (mountChecked who mnt dev doMountOpts xOpts fd conf place) w := by
  have may : who.uid ≠ 0 → ∃ o, Checked who kind w o ∧ place.kind = kind o ∧
      ∀ env, ∀ call ∈ (DoMount.doMount env place.mnt dev doMountOpts fd place.kind).calls, ∀ o',
        w.Leads call.target o' → o' = o := by
    intro user
    obtain ⟨o,checked,same,leads⟩ := suits user
    refine ⟨o,checked,same,fun env call mem o' led => leads o' ?_⟩
    rwa [doMountTarget mem] at led
  refine asks ⟨plain,may⟩ fun r w₁ is => ?_
  obtain ⟨run,autoUnmount⟩ := r
  obtain ⟨env,-,-,-,rfl⟩ := is
  simp only
  cases place.fd with
  | none => exact recordKeeps mnt xOpts fd autoUnmount run.ended plain
  | some mountpointFd =>
    refine asks trivial fun r w₂ is => ?_
    cases is
    exact recordKeeps mnt xOpts fd autoUnmount run.ended plain

theorem mountFuseKeeps (mnt opts : Bytes) (plain : Plain who w) :
    Keeps (rule who kind) (fun r w' => r.isSome → Plain who w') (mountFuse who mnt opts) w := by
  have nothing : ∀ w' : World, (none : Option Mounted).isSome = true → Plain who w' := fun _ no => by cases no
  refine Keeps.bind (dropKeeps ?_)
  refine asks (droppedIs w) fun device w₁ is => ?_
  cases is
  refine Keeps.bind (restoreKeeps ?_)
  have first : Plain who ((w.dropped who).restored who (w.ids who)) := plainAgain plain ⟨rfl,rfl⟩
  generalize (w.dropped who).restored who (w.ids who) = w at first
  cases device with
  | none => exact nothing _
  | some device =>
    refine Keeps.bind (dropKeeps ?_)
    refine asks (droppedIs w) fun conf w₂ is => ?_
    cases is
    cases conf with
    | none => exact nothing _
    | some conf =>
      refine Keeps.bind ((tooManyKeeps conf (droppedIs w)).imp fun many w₃ is => ?_)
      cases is
      cases many with
      | true => exact nothing _
      | false =>
        simp only [Bool.false_eq_true,if_false]
        cases XOptions.extractXOptions opts with
        | none => exact nothing _
        | some parts =>
          refine Keeps.bind ((checkPermKeeps mnt (droppedIs w)).imp fun place w₄ done => ?_)
          refine Keeps.bind (restoreKeeps ?_)
          cases place with
          | none => exact nothing _
          | some place =>
            obtain ⟨alike,suits⟩ := done place rfl
            refine (mountCheckedKeeps (plainAgain first alike) fun user => ?_).imp fun r w' plain _ => plain
            obtain ⟨o,checked,same,leads⟩ := suits user
            unfold World.restored
            split
            · exact ⟨o,⟨checked.place,checked.type⟩,same,leads⟩
            · exact ⟨o,⟨checked.place,checked.type⟩,same,leads⟩

theorem parentKeeps (copy : Bytes) (may : Dropped who w ∨ w.waiting = true) :
    Keeps (rule who kind) (fun r w' => Alike w w' ∧ w'.facts = w.facts ∧ w'.waiting = w.waiting ∧
      ∀ last, r = some last → InParent w' copy last) (chdirToParent copy) w := by
  have nothing : ∀ w', ∀ last, (none : Option Bytes) = some last → InParent w' copy last :=
    fun w' last no => by cases no
  unfold chdirToParent
  cases parts : lastSlash copy with
  | none => exact ⟨⟨rfl,rfl⟩,rfl,rfl,nothing _⟩
  | some found =>
    simp only
    split
    · exact ⟨⟨rfl,rfl⟩,rfl,rfl,nothing _⟩
    · refine asks (.inr may) fun r w₁ is => ?_
      cases r with
      | false =>
        cases is
        exact ⟨⟨rfl,rfl⟩,rfl,rfl,nothing _⟩
      | true =>
        obtain ⟨o,-,-,rfl⟩ := is
        refine asks trivial fun buf w₂ is => ?_
        cases is
        cases buf with
        | none => exact ⟨⟨rfl,rfl⟩,rfl,rfl,nothing _⟩
        | some buf =>
          refine ⟨⟨rfl,rfl⟩,rfl,rfl,fun last got => ?_⟩
          by_cases same : buf = if found.1 = [] then slash else found.1
          · rw [if_pos same] at got
            cases got
            exact ⟨found.1,parts,congrArg some same⟩
          · rw [if_neg same] at got
            cases got

theorem unmountAllowedKeeps {mnt : Bytes} {isLazy : Bool} (allowed : who.uid ≠ 0 → .allowed mnt ∈ w.facts) :
    Keeps (rule who kind) (fun _ _ => True) (unmountAllowed who mnt isLazy) w := by
  have facts : (w.dropped who).facts = w.facts := by
    unfold World.dropped
    split <;> rfl
  refine Keeps.bind (dropKeeps ?_)
  refine Keeps.bind ((parentKeeps mnt (.inl (droppedIs w))).imp fun last w₁ found => ?_)
  obtain ⟨alike,kept,-,inParent⟩ := found
  cases last with
  | none => exact restoreKeeps trivial
  | some last =>
    refine asks ⟨(droppedIs w).alike alike,mnt,fun user => ?_,inParent last rfl⟩ fun done w₂ is => ?_
    · rw [kept,facts]
      exact allowed user
    · refine Keeps.bind (restoreKeeps ?_)
      cases done with
      | false => trivial
      | true =>
        refine asks (.inl rfl) fun r w₃ is => ?_
        cases r with
        | false => trivial
        | true => exact asks trivial fun r w₄ is => trivial

theorem unmountFuseLockedKeeps (mnt : Bytes) (isLazy : Bool) :
    Keeps (rule who kind) (fun _ _ => True) (unmountFuseLocked who mnt isLazy) w := by
  unfold unmountFuseLocked
  split
  · refine asks trivial fun r w₁ is => ?_
    cases r with
    | false => trivial
    | true =>
      obtain ⟨env,table,-,-,rfl⟩ := is
      exact unmountAllowedKeeps fun _ => List.mem_cons_self
  · next root => exact unmountAllowedKeeps fun user => absurd user root

theorem doUnmountKeeps (mnt : Bytes) (isLazy : Bool) :
    Keeps (rule who kind) (fun _ _ => True) (doUnmount who mnt isLazy) w := by
  unfold doUnmount
  split
  · exact unmountFuseLockedKeeps mnt isLazy
  · next other => exact asks (.inr other) fun r w₁ is => trivial

theorem shouldKeeps (mnt : Bytes) (type : Option Bytes) (waiting : w.waiting = true) :
    Keeps (rule who kind) (fun _ _ => True) (shouldAutoUnmount mnt type) w := by
  refine Keeps.bind ((parentKeeps mnt (.inr waiting)).imp fun last w₁ found => ?_)
  have still : w₁.waiting = true := found.2.2.1.trans waiting
  cases last with
  | none => trivial
  | some last =>
    refine asks still fun r w₂ is => ?_
    cases is
    cases r with
    | false => trivial
    | true =>
      refine asks still fun r w₃ is => ?_
      cases is
      cases r with
      | notAllowed => exact asksLast still fun r w₄ is => trivial
      | opened => trivial
      | notConnected => trivial
      | other => trivial

theorem waitKeeps (cfd : Int64) (mnt : Bytes) (type : Option Bytes) :
    Keeps (rule who kind) (fun _ _ => True) (waitForAutoUnmount who cfd mnt type) w := by
  refine asks trivial fun r w₁ is => ?_
  cases r with
  | false => trivial
  | true =>
    refine asks (.inl rfl) fun r w₂ is => ?_
    cases r with
    | false => trivial
    | true =>
      refine asks trivial fun r w₃ is => ?_
      cases is
      refine Keeps.bind ((shouldKeeps mnt type rfl).imp fun r w₄ _ => ?_)
      cases r with
      | false => trivial
      | true => exact doUnmountKeeps mnt true

theorem mainKeeps (a : Args) (plain : Plain who w) : Keeps (rule who kind) (fun _ _ => True) (main who a) w := by
  refine Keeps.bind (dropKeeps ?_)
  refine Keeps.bind ((resolveKeeps a.origmnt (droppedIs w)).imp fun mnt w₁ alike => ?_)
  cases mnt with
  | none => exact restoreKeeps trivial
  | some mnt =>
    refine asks (.inl rfl) fun r w₂ is => ?_
    cases r with
    | false => trivial
    | true =>
      obtain ⟨o,-,-,rfl⟩ := is
      refine Keeps.bind (restoreKeeps ?_)
      have again : Plain who (World.restored who (w.ids who) {w₁ with cwd := o, cwdPath := none}) :=
        plainAgain plain alike
      split
      · exact doUnmountKeeps mnt a.isLazy
      · cases a.commfd with
        | none => trivial
        | some cfd =>
          refine asks trivial fun r w₃ is => ?_
          cases is
          cases r with
          | false => trivial
          | true =>
            simp only [if_true]
            split
            · exact waitKeeps cfd mnt none
            · refine Keeps.bind ((mountFuseKeeps mnt a.opts again).imp fun mounted w₄ done => ?_)
              cases mounted with
              | none => trivial
              | some mounted =>
                refine asks trivial fun r w₅ is => ?_
                cases r with
                | true =>
                  simp only [if_true]
                  split
                  · exact waitKeeps cfd mnt _
                  · trivial
                | false =>
                  cases is
                  exact asks (.inl List.mem_cons_self) fun r w₆ is => trivial

/- Whatever is renamed between any two calls: paths that the user can change are followed with his rights only,
until the program waits for the end of the file system; every mount by a user is on the object that was checked,
and with the type that it has; and what is unmounted for a user is in the parent directory of a mountpoint that the
table says is his, unless the mount of this run could not be handed over. -/
theorem callsGuarded {a : Args} {start : World} {c : Call} {next : c.Result → Prog Unit} (plain : Plain who start)
    (run : Unfolds (rule who kind) (main who a) start (.act c next) w) : Guarded who kind w c :=
  ((mainKeeps a plain).unfolds run).1

def user : Caller := ⟨1000,1000,0,0⟩

def onM : Args := ⟨[47,109],[],false,false,false,some 5⟩

def begun : World := ⟨0,0,0,none,fun _ => none,[],false⟩

theorem leadsThere {path : Bytes} {o : Obj} (other : path ≠ dot) (plain : path.take 2 ≠ [47,112]) : w.Leads path o :=
  ⟨fun same => absurd same other,fun _ same => absurd (congrArg (List.take 2) same) plain⟩

theorem leadsDot : w.Leads dot w.cwd := ⟨fun _ => rfl,fun _ same => by cases same⟩

theorem userMounts : ∃ w dev opts fd next, Unfolds (rule user fun _ => sIfdir) (main user onM) begun
      (.act (.doMount dot dev opts fd sIfdir false) next) w ∧
        Guarded user (fun _ => sIfdir) w (.doMount dot dev opts fd sIfdir false) := by
  have run : ∃ w dev opts fd next, Unfolds (rule user fun _ => sIfdir) (main user onM) begun
      (.act (.doMount dot dev opts fd sIfdir false) next) w := by
    refine ⟨?world,?dev,?opts,?fd,?next,?run⟩
    case run =>
      refine .step 0 ⟨rfl,rfl⟩ (.step 0 ⟨rfl,rfl⟩ ?_)
      refine .step (some slash) rfl (.step true ⟨0,leadsThere (by decide) (by decide),rfl,rfl⟩ ?_)
      refine .step 1000 ⟨rfl,rfl⟩ (.step 1000 ⟨rfl,rfl⟩ (.step true rfl ?_))
      refine .step 0 ⟨rfl,rfl⟩ (.step 0 ⟨rfl,rfl⟩ (.step (some (3,ascii "/dev/fuse")) rfl ?_))
      refine .step 1000 ⟨rfl,rfl⟩ (.step 1000 ⟨rfl,rfl⟩ (.step 0 ⟨rfl,rfl⟩ (.step 0 ⟨rfl,rfl⟩ ?_)))
      refine .step (some ConfFile.defaults) rfl (.step 0 rfl ?_)
      refine .step (some ⟨sIfdir,false,1000⟩) ⟨1,leadsThere (by decide) (by decide),rfl,rfl⟩ ?_
      refine .step true ⟨1,leadsThere (by decide) (by decide),rfl,rfl⟩ ?_
      refine .step (some ⟨sIfdir,false,1000⟩) ⟨1,leadsDot,rfl,rfl⟩ (.step true ⟨1,leadsDot,rfl⟩ ?_)
      refine .step (some 0x61756673) ⟨1,leadsDot,rfl⟩ ?_
      refine .step 1000 ⟨rfl,rfl⟩ (.step 1000 ⟨rfl,rfl⟩ ?_)
      exact .here
  obtain ⟨w,dev,opts,fd,next,run⟩ := run
  exact ⟨w,dev,opts,fd,next,run,callsGuarded ⟨rfl,rfl⟩ run⟩

end FuseStudy.SetuidMount
