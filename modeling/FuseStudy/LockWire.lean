import FuseStudy.PosixLocks
import Mathlib.Algebra.Group.Nat.Defs

/-! The way of a lock from the wire to the list of its node and back: SETLK, GETLK and
FLUSH of lib/fuse_lowlevel.c and lib/fuse.c. Every signed operation on off_t is checked,
as in the list. -/
namespace FuseStudy.PosixLocks

structure FileLock where
  start : UInt64
  stop : UInt64
  type : UInt32
  pid : UInt32
  deriving DecidableEq, Repr

/- struct flock; l_whence is SEEK_SET throughout. -/
structure Flock where
  type : LockType
  start : Int
  len : Int
  pid : Int
  deriving DecidableEq, Repr

def LockType.ofCode (code : Int) : LockType :=
  if code = 0 then .rdlck else if code = 1 then .wrlck else if code = 2 then .unlck else .other code

def LockType.code : LockType → Int
  | .rdlck => 0
  | .wrlck => 1
  | .unlck => 2
  | .other code => code

def offsetMaxWire : UInt64 := 0x7fffffffffffffff

/- The conversions to off_t, short and pid_t keep the low bits. -/
def toOff (x : UInt64) : Int := x.toBitVec.toInt
def toShort (x : UInt32) : Int := (x.toBitVec.setWidth 16).toInt
def toPid (x : UInt32) : Int := x.toBitVec.toInt

def convertFuseFileLock (fl : FileLock) : Flock where
  type := .ofCode (toShort fl.type)
  start := toOff fl.start
  len := if fl.stop = offsetMaxWire then 0 else toOff (fl.stop - fl.start + 1)
  pid := toPid fl.pid

def Flock.stop (flock : Flock) : Option Int :=
  if flock.len = 0 then some offsetMax
  else do
    let past ← off (flock.start + flock.len)
    off (past - 1)

/- The owner is still 0. -/
def flockToLock (flock : Flock) : Option Lock := do
  let stop ← flock.stop
  some ⟨flock.type,flock.start,stop,flock.pid,0⟩

def Lock.len (lock : Lock) : Option Int :=
  if lock.stop = offsetMax then some 0
  else do
    let len ← off (lock.stop - lock.start)
    off (len + 1)

def lockToFlock (lock : Lock) : Option Flock := do
  let len ← lock.len
  some ⟨lock.type,lock.start,len,lock.pid⟩

def fuseReplyLock (flock : Flock) : Option FileLock :=
  let type := UInt32.ofInt flock.type.code
  let pid := UInt32.ofInt flock.pid
  if flock.type = .unlck then some ⟨0,0,type,pid⟩
  else do
    let stop ← flock.stop
    some ⟨UInt64.ofInt flock.start,UInt64.ofInt stop,type,pid⟩

abbrev Nodes := Nat → List Lock

def fuseLkFlock : UInt32 := 1

/- err and errlock are what fuse_lock_common and fuse_fs_lock give; the callback leaves the
struct flock as it is. malloc1 and malloc2 are the allocations of locks_insert. -/
inductive Request where
  | setlk (ino : Nat) (owner : UInt64) (lk : FileLock) (lkFlags : UInt32) (err : Int) (malloc1 malloc2 : Bool)
  | flush (ino : Nat) (owner : UInt64) (errlock : Int) (malloc1 malloc2 : Bool)
  deriving DecidableEq, Repr

/- flock_to_lock, the owner, and locks_insert, whose result the callers drop. -/
def insertFlock (nodes : Nodes) (ino : Nat) (owner : UInt64) (flock : Flock) (malloc1 malloc2 : Bool) :
    Option Nodes := do
  let l ← flockToLock flock
  let inserted ← locksInsert malloc1 malloc2 (nodes ino) {l with owner}
  some (Function.update nodes ino inserted.2)

def fuseLibSetlk (nodes : Nodes) (ino : Nat) (owner : UInt64) (flock : Flock) (err : Int) (malloc1 malloc2 : Bool) :
    Option Nodes :=
  if err = 0 then insertFlock nodes ino owner flock malloc1 malloc2 else some nodes

/- A whole-file lock of BSD goes another way. -/
def doSetlkCommon (nodes : Nodes) (ino : Nat) (owner : UInt64) (lk : FileLock) (lkFlags : UInt32) (err : Int)
    (malloc1 malloc2 : Bool) : Option Nodes :=
  if lkFlags &&& fuseLkFlock ≠ 0 then some nodes
  else fuseLibSetlk nodes ino owner (convertFuseFileLock lk) err malloc1 malloc2

def enosys : Int := 38

def fuseFlushCommon (nodes : Nodes) (ino : Nat) (owner : UInt64) (errlock : Int) (malloc1 malloc2 : Bool) :
    Option Nodes :=
  if errlock ≠ -enosys then insertFlock nodes ino owner ⟨.unlck,0,0,0⟩ malloc1 malloc2 else some nodes

/- A file system without a lock operation has no SETLK, and its fuse_fs_lock is -ENOSYS. -/
def serve (opLock : Bool) (nodes : Nodes) : Request → Option Nodes
  | .setlk ino owner lk lkFlags err malloc1 malloc2 =>
    if opLock then doSetlkCommon nodes ino owner lk lkFlags err malloc1 malloc2 else some nodes
  | .flush ino owner errlock malloc1 malloc2 =>
    fuseFlushCommon nodes ino owner (if opLock then errlock else -enosys) malloc1 malloc2

def serveAll (opLock : Bool) (nodes : Nodes) : List Request → Option Nodes
  | [] => some nodes
  | request :: later => do
    let nodes ← serve opLock nodes request
    serveAll opLock nodes later

/- The reply to GETLK. none of the reply is an error of the callback. -/
def fuseLibGetlk (locks : List Lock) (owner : UInt64) (flock : Flock) (err : Int) : Option (Option FileLock) := do
  let l ← flockToLock flock
  match locksConflict locks {l with owner} with
  | some conflict => do
    let flock ← lockToFlock conflict
    let reply ← fuseReplyLock flock
    some (some reply)
  | none =>
    if err = 0 then do
      let reply ← fuseReplyLock flock
      some (some reply)
    else some none

def FileLock.RangeOk (lk : FileLock) : Prop := lk.start ≤ lk.stop ∧ lk.stop ≤ offsetMaxWire
instance (lk : FileLock) : Decidable lk.RangeOk := by unfold FileLock.RangeOk; infer_instance

def Request.RangeOk : Request → Prop
  | .setlk _ _ lk _ _ _ _ => lk.RangeOk
  | .flush .. => True
instance (request : Request) : Decidable request.RangeOk := by
  unfold Request.RangeOk
  cases request <;> infer_instance

variable {lk : FileLock} {flock : Flock} {start stop : Int}

/- How a struct flock writes the range from start to stop. -/
structure Flock.Spells (flock : Flock) (start stop : Int) : Prop where
  first : flock.start = start
  len : flock.len = if stop = offsetMax then 0 else stop - start + 1
  range : 0 ≤ start ∧ start ≤ stop ∧ stop ≤ offsetMax

theorem toOffSmall {x : UInt64} (small : x ≤ offsetMaxWire) : toOff x = x.toNat := by
  have bound : x.toNat ≤ 0x7fffffffffffffff := UInt64.le_iff_toNat_le.mp small
  have half : 2 * x.toBitVec.toNat < 2 ^ 64 := by
    rw [UInt64.toNat_toBitVec]
    omega
  exact BitVec.toInt_eq_toNat_of_lt half

theorem FileLock.RangeOk.bounds (ok : lk.RangeOk) :
    (0 : Int) ≤ lk.start.toNat ∧ (lk.start.toNat : Int) ≤ lk.stop.toNat ∧ (lk.stop.toNat : Int) ≤ offsetMax := by
  obtain ⟨proper,most⟩ := ok
  have low := UInt64.le_iff_toNat_le.mp proper
  have high : lk.stop.toNat ≤ 0x7fffffffffffffff := UInt64.le_iff_toNat_le.mp most
  simp only [offsetMax]
  omega

/- Before the end of the file the length fits in off_t; the subtraction is one of uint64_t. -/
theorem wireLen (ok : lk.RangeOk) (before : lk.stop ≠ offsetMaxWire) :
    toOff (lk.stop - lk.start + 1) = lk.stop.toNat - lk.start.toNat + 1 := by
  obtain ⟨proper,most⟩ := ok
  have low := UInt64.le_iff_toNat_le.mp proper
  have high : lk.stop.toNat ≤ 0x7fffffffffffffff := UInt64.le_iff_toNat_le.mp most
  have short : lk.stop.toNat ≠ 0x7fffffffffffffff := fun same => before (UInt64.toNat_inj.mp same)
  have one : (1 : UInt64).toNat = 1 := rfl
  have value : (lk.stop - lk.start + 1).toNat = lk.stop.toNat - lk.start.toNat + 1 := by
    rw [UInt64.toNat_add,UInt64.toNat_sub_of_le _ _ proper,one,Nat.mod_eq_of_lt (by omega)]
  have small : lk.stop - lk.start + 1 ≤ offsetMaxWire := by
    rw [UInt64.le_iff_toNat_le,value]
    show _ ≤ 0x7fffffffffffffff
    omega
  rw [toOffSmall small,value]
  omega

theorem convertSpells (ok : lk.RangeOk) : (convertFuseFileLock lk).Spells lk.start.toNat lk.stop.toNat := by
  refine ⟨toOffSmall (UInt64.le_trans ok.1 ok.2),?_,ok.bounds⟩
  have same : (lk.stop.toNat : Int) = offsetMax ↔ lk.stop = offsetMaxWire := by
    rw [← UInt64.toNat_inj]
    exact Int.ofNat_inj
  simp only [convertFuseFileLock,same]
  by_cases all : lk.stop = offsetMaxWire
  · rw [if_pos all,if_pos all]
  · rw [if_neg all,if_neg all,wireLen ok all]

theorem Flock.Spells.ends (spells : flock.Spells start stop) : flock.stop = some stop := by
  obtain ⟨first,len,low,proper,high⟩ := spells
  unfold Flock.stop
  by_cases all : stop = offsetMax
  · rw [if_pos all] at len
    rw [if_pos len,all]
  · rw [if_neg all] at len
    have past : flock.start + flock.len = stop + 1 := by omega
    have back : stop + 1 - 1 = stop := by omega
    rw [if_neg (by omega),past,offOfRange (by omega) (by omega)]
    simp only [bind,Option.bind,back]
    exact offOfRange (by omega) high

theorem flockToLockSpells (spells : flock.Spells start stop) :
    flockToLock flock = some ⟨flock.type,start,stop,flock.pid,0⟩ := by
  unfold flockToLock
  rw [spells.first,spells.ends]
  rfl

theorem lockToFlockSpells {l : Lock} (range : RangeOk l) :
    ∃ flock, lockToFlock l = some flock ∧ flock.Spells l.start l.stop ∧ flock.type = l.type := by
  have ⟨low,proper,high⟩ := range
  refine ⟨⟨l.type,l.start,_,l.pid⟩,?_,⟨rfl,rfl,range⟩,rfl⟩
  have len : l.len = some (if l.stop = offsetMax then 0 else l.stop - l.start + 1) := by
    unfold Lock.len
    by_cases all : l.stop = offsetMax
    · rw [if_pos all,if_pos all]
    · rw [if_neg all,if_neg all,offOfRange (by omega) (by omega)]
      exact offOfRange (by omega) (by omega)
  rw [lockToFlock,len]
  rfl

theorem ofIntSmall {x : Int} (low : 0 ≤ x) (high : x ≤ offsetMax) : ((UInt64.ofInt x).toNat : Int) = x := by
  simp only [offsetMax] at high
  have small : (x % 2 ^ 64).toNat < UInt64.size := by simp only [UInt64.size]; omega
  rw [UInt64.ofInt,UInt64.toNat_ofNat_of_lt' small]
  omega

theorem replySpells (spells : flock.Spells start stop) :
    ∃ wire, fuseReplyLock flock = some wire ∧
      (flock.type ≠ .unlck → (wire.start.toNat : Int) = start ∧ (wire.stop.toNat : Int) = stop) := by
  obtain ⟨low,proper,high⟩ := spells.range
  unfold fuseReplyLock
  by_cases unlock : flock.type = .unlck
  · rw [if_pos unlock]
    exact ⟨_,rfl,fun typed => absurd unlock typed⟩
  · rw [if_neg unlock,spells.ends,spells.first]
    exact ⟨_,rfl,fun _ => ⟨ofIntSmall low (Int.le_trans proper high),ofIntSmall (Int.le_trans low proper) high⟩⟩

/-! Runs: the lists of all nodes stay ordered, so that no request gets stuck. -/

theorem locksInsertKeeps {locks : List Lock} {lock : Lock} (ordered : Ordered locks) (range : RangeOk lock)
    (malloc1 malloc2 : Bool) : ∃ r, locksInsert malloc1 malloc2 locks lock = some r ∧ Ordered r.2 := by
  obtain ⟨out,inserted,spec⟩ := locksInsertInserted ordered range
  by_cases whole : wholeUnlock lock = true
  · rw [locksInsert,if_pos whole] at inserted
    rw [locksInsert,if_pos whole]
    exact ⟨_,inserted,spec.ordered⟩
  rw [locksInsert,if_neg whole] at inserted ⊢
  by_cases cells : (malloc1 && malloc2) = true
  · rw [if_pos cells]
    exact ⟨_,inserted,spec.ordered⟩
  · rw [if_neg cells]
    exact ⟨_,rfl,ordered⟩

def Nodes.Ordered (nodes : Nodes) : Prop := ∀ ino, PosixLocks.Ordered (nodes ino)

theorem insertFlockKeeps {nodes : Nodes} (ordered : nodes.Ordered) (spells : flock.Spells start stop) (ino : Nat)
    (owner : UInt64) (malloc1 malloc2 : Bool) :
    ∃ nodes', insertFlock nodes ino owner flock malloc1 malloc2 = some nodes' ∧ nodes'.Ordered := by
  have range : PosixLocks.RangeOk ⟨flock.type,start,stop,flock.pid,owner⟩ := spells.range
  obtain ⟨r,inserted,kept⟩ := locksInsertKeeps (ordered ino) range malloc1 malloc2
  refine ⟨Function.update nodes ino r.2,?_,?_⟩
  · simp only [insertFlock,flockToLockSpells spells,bind,Option.bind,inserted]
  · intro other
    by_cases same : other = ino
    · rw [same,Function.update_self]
      exact kept
    · rw [Function.update_of_ne same]
      exact ordered other

theorem serveKeeps {nodes : Nodes} (ordered : nodes.Ordered) (opLock : Bool) {request : Request}
    (ok : request.RangeOk) : ∃ nodes', serve opLock nodes request = some nodes' ∧ nodes'.Ordered := by
  cases request with
  | setlk ino owner lk lkFlags err malloc1 malloc2 =>
    have inserted := insertFlockKeeps ordered (convertSpells ok) ino owner malloc1 malloc2
    simp only [serve,doSetlkCommon,fuseLibSetlk]
    split
    · split
      · exact ⟨nodes,rfl,ordered⟩
      · split
        · exact inserted
        · exact ⟨nodes,rfl,ordered⟩
    · exact ⟨nodes,rfl,ordered⟩
  | flush ino owner errlock malloc1 malloc2 =>
    have whole : Flock.Spells ⟨.unlck,0,0,0⟩ 0 offsetMax := ⟨rfl,rfl,by decide⟩
    have inserted := insertFlockKeeps ordered whole ino owner malloc1 malloc2
    simp only [serve,fuseFlushCommon]
    generalize (if opLock then errlock else -enosys) = errlock
    split
    · exact inserted
    · exact ⟨nodes,rfl,ordered⟩

theorem serveAllKeeps {nodes : Nodes} (ordered : nodes.Ordered) (opLock : Bool) {requests : List Request}
    (ok : ∀ request ∈ requests, request.RangeOk) :
    ∃ nodes', serveAll opLock nodes requests = some nodes' ∧ nodes'.Ordered := by
  induction requests generalizing nodes with
  | nil => exact ⟨nodes,rfl,ordered⟩
  | cons request later ih =>
    obtain ⟨next,served,kept⟩ := serveKeeps ordered opLock (ok request List.mem_cons_self)
    obtain ⟨last,run,keptLast⟩ := ih kept (fun r inside => ok r (List.mem_cons_of_mem _ inside))
    exact ⟨last,by simp only [serveAll,served,bind,Option.bind,run],keptLast⟩

def Reported (l : Lock) (wire : FileLock) : Prop :=
  (wire.start.toNat : Int) = l.start ∧ (wire.stop.toNat : Int) = l.stop

theorem storedReported {locks : List Lock} (ordered : Ordered locks) {l : Lock} (stored : l ∈ locks) :
    ∃ flock wire, lockToFlock l = some flock ∧ fuseReplyLock flock = some wire ∧ Reported l wire := by
  obtain ⟨flock,back,spells,type⟩ := lockToFlockSpells (ordered.range l stored)
  obtain ⟨wire,replied,same⟩ := replySpells spells
  exact ⟨flock,wire,back,replied,same (type ▸ ordered.typed l stored)⟩

theorem getlkReports {locks : List Lock} (ordered : Ordered locks) (owner : UInt64) (spells : flock.Spells start stop)
    (err : Int) :
    ∃ reply, fuseLibGetlk locks owner flock err = some reply ∧
      ∀ l, locksConflict locks ⟨flock.type,start,stop,flock.pid,owner⟩ = some l →
        ∃ wire, reply = some wire ∧ Reported l wire := by
  unfold fuseLibGetlk
  rw [flockToLockSpells spells]
  simp only [bind,Option.bind]
  cases found : locksConflict locks ⟨flock.type,start,stop,flock.pid,owner⟩ with
  | some conflict =>
    obtain ⟨answer,wire,back,replied,same⟩ := storedReported ordered (List.mem_of_find?_eq_some found)
    refine ⟨some wire,by simp only [back,replied],?_⟩
    intro l is
    cases Option.some.inj is
    exact ⟨wire,rfl,same⟩
  | none =>
    obtain ⟨wire,replied,_⟩ := replySpells spells
    by_cases done : err = 0
    · exact ⟨some wire,by simp only [if_pos done,replied],fun l none => by cases none⟩
    · exact ⟨none,by simp only [if_neg done],fun l none => by cases none⟩

/- After any requests with proper ranges, from no lock at all: nothing overflowed and no cell was
used that was not there; what the lists hold is reported as it is stored, and what comes from the
wire keeps its range. -/
theorem lockWireSafe (opLock : Bool) (requests : List Request) (ok : ∀ request ∈ requests, request.RangeOk) :
    ∃ nodes, serveAll opLock (fun _ => []) requests = some nodes ∧
      (∀ ino, ∀ l ∈ nodes ino,
        ∃ flock wire, lockToFlock l = some flock ∧ fuseReplyLock flock = some wire ∧ Reported l wire) ∧
      ∀ lk : FileLock, lk.RangeOk →
        ∃ l, flockToLock (convertFuseFileLock lk) = some l ∧ l.start = lk.start.toNat ∧ l.stop = lk.stop.toNat ∧
          ∀ ino owner err, ∃ reply, fuseLibGetlk (nodes ino) owner (convertFuseFileLock lk) err = some reply ∧
            ∀ conflict, locksConflict (nodes ino) {l with owner} = some conflict →
              ∃ wire, reply = some wire ∧ Reported conflict wire := by
  have empty : Nodes.Ordered (fun _ => []) := fun _ => ⟨by simp,by simp,List.Pairwise.nil⟩
  obtain ⟨nodes,run,ordered⟩ := serveAllKeeps empty opLock ok
  refine ⟨nodes,run,fun ino l stored => storedReported (ordered ino) stored,fun lk proper => ?_⟩
  have spells := convertSpells proper
  exact ⟨_,flockToLockSpells spells,rfl,rfl,fun ino owner err => getlkReports (ordered ino) owner spells err⟩

theorem fullRangeServed :
    ∃ nodes, serveAll true (fun _ => []) [.setlk 1 7 ⟨0,offsetMaxWire,1,3⟩ 0 0 true true,
        .setlk 1 7 ⟨9,19,0,3⟩ 0 0 true true,.setlk 1 8 ⟨20,offsetMaxWire - 1,77,4⟩ 0 0 true true,
        .flush 1 7 0 false false] = some nodes ∧
      ∀ ino, ∀ l ∈ nodes ino,
        ∃ flock wire, lockToFlock l = some flock ∧ fuseReplyLock flock = some wire ∧ Reported l wire := by
  obtain ⟨nodes,run,reported,_⟩ := lockWireSafe true
    [.setlk 1 7 ⟨0,offsetMaxWire,1,3⟩ 0 0 true true,.setlk 1 7 ⟨9,19,0,3⟩ 0 0 true true,
      .setlk 1 8 ⟨20,offsetMaxWire - 1,77,4⟩ 0 0 true true,.flush 1 7 0 false false] (by decide +kernel)
  exact ⟨nodes,run,reported⟩

end FuseStudy.PosixLocks
