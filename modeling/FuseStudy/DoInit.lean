import FuseStudy.FlagWords

/-! do_init of lib/fuse_lowlevel.c: what the kernel offers in an INIT request, what the library and the
init callback want of it, and the reply that says so. -/
namespace FuseStudy.DoInit
open FlagWords

/-! The INIT flags of include/fuse_kernel.h. -/

def fuseAsyncRead : BitVec 64 := 1 <<< 0
def fusePosixLocks : BitVec 64 := 1 <<< 1
def fuseAtomicOTrunc : BitVec 64 := 1 <<< 3
def fuseExportSupport : BitVec 64 := 1 <<< 4
def fuseBigWrites : BitVec 64 := 1 <<< 5
def fuseDontMask : BitVec 64 := 1 <<< 6
def fuseFlockLocks : BitVec 64 := 1 <<< 10
def fuseAutoInvalData : BitVec 64 := 1 <<< 12
def fuseDoReaddirplus : BitVec 64 := 1 <<< 13
def fuseReaddirplusAuto : BitVec 64 := 1 <<< 14
def fuseAsyncDio : BitVec 64 := 1 <<< 15
def fuseWritebackCache : BitVec 64 := 1 <<< 16
def fuseNoOpenSupport : BitVec 64 := 1 <<< 17
def fuseParallelDirops : BitVec 64 := 1 <<< 18
def fuseHandleKillpriv : BitVec 64 := 1 <<< 19
def fusePosixAcl : BitVec 64 := 1 <<< 20
def fuseMaxPages : BitVec 64 := 1 <<< 22
def fuseCacheSymlinks : BitVec 64 := 1 <<< 23
def fuseNoOpendirSupport : BitVec 64 := 1 <<< 24
def fuseExplicitInvalData : BitVec 64 := 1 <<< 25
def fuseHandleKillprivV2 : BitVec 64 := 1 <<< 28
def fuseSetxattrExt : BitVec 64 := 1 <<< 29
def fuseInitExt : BitVec 64 := 1 <<< 30
def fuseHasExpireOnly : BitVec 64 := 1 <<< 35
def fuseDirectIoAllowMmap : BitVec 64 := 1 <<< 36
def fusePassthrough : BitVec 64 := 1 <<< 37
def fuseNoExportSupport : BitVec 64 := 1 <<< 38

/-! The capabilities of include/fuse_common.h, numbered differently. -/

def fuseCapAsyncRead : BitVec 64 := 1 <<< 0
def fuseCapPosixLocks : BitVec 64 := 1 <<< 1
def fuseCapAtomicOTrunc : BitVec 64 := 1 <<< 3
def fuseCapExportSupport : BitVec 64 := 1 <<< 4
def fuseCapDontMask : BitVec 64 := 1 <<< 6
def fuseCapSpliceWrite : BitVec 64 := 1 <<< 7
def fuseCapSpliceMove : BitVec 64 := 1 <<< 8
def fuseCapSpliceRead : BitVec 64 := 1 <<< 9
def fuseCapFlockLocks : BitVec 64 := 1 <<< 10
def fuseCapIoctlDir : BitVec 64 := 1 <<< 11
def fuseCapAutoInvalData : BitVec 64 := 1 <<< 12
def fuseCapReaddirplus : BitVec 64 := 1 <<< 13
def fuseCapReaddirplusAuto : BitVec 64 := 1 <<< 14
def fuseCapAsyncDio : BitVec 64 := 1 <<< 15
def fuseCapWritebackCache : BitVec 64 := 1 <<< 16
def fuseCapNoOpenSupport : BitVec 64 := 1 <<< 17
def fuseCapParallelDirops : BitVec 64 := 1 <<< 18
def fuseCapPosixAcl : BitVec 64 := 1 <<< 19
def fuseCapHandleKillpriv : BitVec 64 := 1 <<< 20
def fuseCapHandleKillprivV2 : BitVec 64 := 1 <<< 21
def fuseCapCacheSymlinks : BitVec 64 := 1 <<< 23
def fuseCapNoOpendirSupport : BitVec 64 := 1 <<< 24
def fuseCapExplicitInvalData : BitVec 64 := 1 <<< 25
def fuseCapExpireOnly : BitVec 64 := 1 <<< 26
def fuseCapSetxattrExt : BitVec 64 := 1 <<< 27
def fuseCapDirectIoAllowMmap : BitVec 64 := 1 <<< 28
def fuseCapPassthrough : BitVec 64 := 1 <<< 29
def fuseCapNoExportSupport : BitVec 64 := 1 <<< 30

/- `if (inargflags & FUSE_X) se->conn.capable_ext |= FUSE_CAP_X`, in the order of the source. -/
def capableTable : List (BitVec 64 × BitVec 64) :=
  [(fuseAsyncRead,fuseCapAsyncRead),(fusePosixLocks,fuseCapPosixLocks),(fuseAtomicOTrunc,fuseCapAtomicOTrunc),
   (fuseExportSupport,fuseCapExportSupport),(fuseDontMask,fuseCapDontMask),(fuseFlockLocks,fuseCapFlockLocks),
   (fuseAutoInvalData,fuseCapAutoInvalData),(fuseDoReaddirplus,fuseCapReaddirplus),
   (fuseReaddirplusAuto,fuseCapReaddirplusAuto),(fuseAsyncDio,fuseCapAsyncDio),
   (fuseWritebackCache,fuseCapWritebackCache),(fuseNoOpenSupport,fuseCapNoOpenSupport),
   (fuseParallelDirops,fuseCapParallelDirops),(fusePosixAcl,fuseCapPosixAcl),
   (fuseHandleKillpriv,fuseCapHandleKillpriv),(fuseHandleKillprivV2,fuseCapHandleKillprivV2),
   (fuseCacheSymlinks,fuseCapCacheSymlinks),(fuseNoOpendirSupport,fuseCapNoOpendirSupport),
   (fuseExplicitInvalData,fuseCapExplicitInvalData),(fuseSetxattrExt,fuseCapSetxattrExt),
   (fuseDirectIoAllowMmap,fuseCapDirectIoAllowMmap),(fusePassthrough,fuseCapPassthrough),
   (fuseNoExportSupport,fuseCapNoExportSupport)]

/- `if (se->conn.want_ext & FUSE_CAP_X) outargflags |= FUSE_X`. -/
def wantTable : List (BitVec 64 × BitVec 64) :=
  [(fuseCapAsyncRead,fuseAsyncRead),(fuseCapPosixLocks,fusePosixLocks),(fuseCapAtomicOTrunc,fuseAtomicOTrunc),
   (fuseCapExportSupport,fuseExportSupport),(fuseCapDontMask,fuseDontMask),(fuseCapFlockLocks,fuseFlockLocks),
   (fuseCapAutoInvalData,fuseAutoInvalData),(fuseCapReaddirplus,fuseDoReaddirplus),
   (fuseCapReaddirplusAuto,fuseReaddirplusAuto),(fuseCapAsyncDio,fuseAsyncDio),
   (fuseCapWritebackCache,fuseWritebackCache),(fuseCapParallelDirops,fuseParallelDirops),
   (fuseCapPosixAcl,fusePosixAcl),(fuseCapHandleKillpriv,fuseHandleKillpriv),
   (fuseCapHandleKillprivV2,fuseHandleKillprivV2),(fuseCapCacheSymlinks,fuseCacheSymlinks),
   (fuseCapExplicitInvalData,fuseExplicitInvalData),(fuseCapSetxattrExt,fuseSetxattrExt),
   (fuseCapDirectIoAllowMmap,fuseDirectIoAllowMmap),(fuseCapPassthrough,fusePassthrough),
   (fuseCapNoExportSupport,fuseNoExportSupport)]

structure ConnInfo where
  protoMajor : BitVec 32
  protoMinor : BitVec 32
  maxWrite : BitVec 32
  maxRead : BitVec 32
  maxReadahead : BitVec 32
  capable : BitVec 32
  want : BitVec 32
  maxBackground : BitVec 32
  congestionThreshold : BitVec 32
  timeGran : BitVec 32
  maxBackingStackDepth : BitVec 32
  capableExt : BitVec 64
  wantExt : BitVec 64
  deriving DecidableEq, Repr

inductive ConnAct
  | setFeatureFlag (flag : BitVec 64)
  | unsetFeatureFlag (flag : BitVec 64)
  | convertToConnWantExt
  | want (value : BitVec 32)
  | wantExt (value : BitVec 64)
  | maxWrite (value : BitVec 32)
  | maxRead (value : BitVec 32)
  | maxReadahead (value : BitVec 32)
  | maxBackground (value : BitVec 32)
  | congestionThreshold (value : BitVec 32)
  | timeGran (value : BitVec 32)
  | maxBackingStackDepth (value : BitVec 32)
  deriving DecidableEq, Repr

structure LowlevelOps where
  writeBuf : Bool
  getlk : Bool
  setlk : Bool
  flock : Bool
  readdirplus : Bool
  readdir : Bool
  init : Option (List ConnAct)
  deriving DecidableEq, Repr

structure CustomIo where
  spliceSend : Bool
  spliceReceive : Bool
  deriving DecidableEq, Repr

structure Session where
  op : LowlevelOps
  io : Option CustomIo
  moMaxRead : BitVec 32
  conn : ConnInfo
  connWant : BitVec 32
  connWantExt : BitVec 64
  bufsize : BitVec 64
  bufReallocable : Bool
  gotInit : Bool
  error : Int
  exited : Bool
  deriving DecidableEq, Repr

structure InitIn where
  major : BitVec 32
  minor : BitVec 32
  maxReadahead : BitVec 32
  flags : BitVec 32
  flags2 : BitVec 32
  deriving DecidableEq, Repr

structure InitOut where
  major : BitVec 32
  minor : BitVec 32
  maxReadahead : BitVec 32
  flags : BitVec 32
  maxBackground : BitVec 16
  congestionThreshold : BitVec 16
  maxWrite : BitVec 32
  timeGran : BitVec 32
  maxPages : BitVec 16
  flags2 : BitVec 32
  maxStackDepth : BitVec 32
  deriving DecidableEq, Repr

/- An error reply, or the first `size` bytes of the answer. -/
inductive Reply
  | err (errno : Int)
  | ok (outarg : InitOut) (size : Nat)
  deriving DecidableEq, Repr

structure Build where
  haveSplice : Bool
  haveVmsplice : Bool
  pagesize : Nat
  deriving DecidableEq, Repr

def eproto : Int := 71

def einval : Int := 22

def fuseLower32Bits (nr : BitVec 64) : BitVec 32 := nr.setWidth 32

def fuseHigher32Bits (nr : BitVec 64) : BitVec 64 := nr &&& ~~~0xffffffff#64

def wantFlagsValid (capable want : BitVec 64) : Bool := want &&& ~~~capable == 0#64

def fuseConvertToConnWantExt (s : Session) : Session × Int :=
  let sync (c : ConnInfo) : ConnInfo := {c with want := fuseLower32Bits c.wantExt}
  if s.conn.want ≠ s.connWant ∧ fuseLower32Bits s.conn.wantExt ≠ s.conn.want then
    if s.conn.wantExt ≠ s.connWantExt then (s,-einval)
    else ({s with conn := sync {s.conn with wantExt := fuseHigher32Bits s.conn.wantExt ||| s.conn.want.setWidth 64}},0)
  else ({s with conn := sync s.conn},0)

def fuseSetFeatureFlag (s : Session) (flag : BitVec 64) : Session × Bool :=
  if has s.conn.capableExt flag then
    ({s with
      conn := {s.conn with wantExt := s.conn.wantExt ||| flag, want := s.conn.want ||| flag.setWidth 32}
      connWantExt := s.connWantExt ||| flag
      connWant := s.connWant ||| flag.setWidth 32},true)
  else (s,false)

def fuseUnsetFeatureFlag (s : Session) (flag : BitVec 64) : Session := {s with
  conn := {s.conn with wantExt := s.conn.wantExt &&& ~~~flag, want := s.conn.want &&& ~~~(flag.setWidth 32)}
  connWantExt := s.connWantExt &&& ~~~flag
  connWant := s.connWant &&& ~~~(flag.setWidth 32)}

def Session.act (s : Session) : ConnAct → Session
  | .setFeatureFlag flag => (fuseSetFeatureFlag s flag).1
  | .unsetFeatureFlag flag => fuseUnsetFeatureFlag s flag
  | .convertToConnWantExt => (fuseConvertToConnWantExt s).1
  | .want value => {s with conn := {s.conn with want := value}}
  | .wantExt value => {s with conn := {s.conn with wantExt := value}}
  | .maxWrite value => {s with conn := {s.conn with maxWrite := value}}
  | .maxRead value => {s with conn := {s.conn with maxRead := value}}
  | .maxReadahead value => {s with conn := {s.conn with maxReadahead := value}}
  | .maxBackground value => {s with conn := {s.conn with maxBackground := value}}
  | .congestionThreshold value => {s with conn := {s.conn with congestionThreshold := value}}
  | .timeGran value => {s with conn := {s.conn with timeGran := value}}
  | .maxBackingStackDepth value => {s with conn := {s.conn with maxBackingStackDepth := value}}

def Session.acts (s : Session) (l : List ConnAct) : Session := l.foldl Session.act s

/- Two words of flags as one: the second counts only when the first has FUSE_INIT_EXT. -/
def joined (flags flags2 : BitVec 32) : BitVec 64 :=
  if has (flags.setWidth 64) fuseInitExt then flags.setWidth 64 ||| flags2.setWidth 64 <<< 32 else flags.setWidth 64

def inargflags (arg : InitIn) : BitVec 64 := if 6#32 ≤ arg.minor then joined arg.flags arg.flags2 else 0

/- The capabilities that no flag of the offer stands for alone. -/
def expireOnly (arg : InitIn) : BitVec 64 :=
  if 6#32 ≤ arg.minor ∧
    (38#32 ≤ arg.minor ∨ has (inargflags arg) fuseHasExpireOnly = true) then fuseCapExpireOnly else 0

def spliceCaps (b : Build) (s : Session) (arg : InitIn) : BitVec 64 :=
  if 14#32 ≤ arg.minor ∧ b.haveSplice = true then
    (if b.haveVmsplice = true ∧
      s.io.all CustomIo.spliceSend = true then fuseCapSpliceWrite ||| fuseCapSpliceMove else 0) |||
      (if s.io.all CustomIo.spliceReceive = true then fuseCapSpliceRead else 0)
  else 0

def ioctlCap (arg : InitIn) : BitVec 64 := if 18#32 ≤ arg.minor then fuseCapIoctlDir else 0

def capableExt (b : Build) (s : Session) (arg : InitIn) : BitVec 64 :=
  carry capableTable (inargflags arg) ||| (expireOnly arg ||| spliceCaps b s arg ||| ioctlCap arg)

def maxReadahead (s : Session) (arg : InitIn) : BitVec 32 :=
  if 6#32 ≤ arg.minor then if arg.maxReadahead < s.conn.maxReadahead then arg.maxReadahead else s.conn.maxReadahead
  else 0

def llSetDefault (cond : Bool) (cap : BitVec 64) (s : Session) : Session :=
  if cond then (fuseSetFeatureFlag s cap).1 else s

def llSetDefaults (s : Session) : Session :=
  let s := llSetDefault true fuseCapAsyncRead s
  let s := llSetDefault true fuseCapAutoInvalData s
  let s := llSetDefault true fuseCapAsyncDio s
  let s := llSetDefault true fuseCapIoctlDir s
  let s := llSetDefault true fuseCapAtomicOTrunc s
  let s := llSetDefault s.op.writeBuf fuseCapSpliceRead s
  let s := llSetDefault (s.op.getlk && s.op.setlk) fuseCapPosixLocks s
  let s := llSetDefault s.op.flock fuseCapFlockLocks s
  let s := llSetDefault s.op.readdirplus fuseCapReaddirplus s
  llSetDefault (s.op.readdirplus && s.op.readdir) fuseCapReaddirplusAuto s

/- The init callback, if there is one, and the conversion of what it left in want. -/
def callInit (s : Session) : Session :=
  match s.op.init with
  | none => s
  | some acts =>
    (fuseConvertToConnWantExt ({s with conn := {s.conn with capable := fuseLower32Bits s.conn.capableExt}}.acts acts)).1

def fuseBufferHeaderSize : Nat := 0x1000

def fuseMinReadBuffer : Nat := 8192

def fuseDefaultMaxPagesPerReq : Nat := 32

def uintMax : Nat := 4294967295

def fuseDefaultMaxPagesLimit : Nat := 256

/- The connection of a new session; all that is not set here is zero. -/
def fuseSessionNew (b : Build) (op : LowlevelOps) (io : Option CustomIo) (moMaxRead : BitVec 32) : Session :=
  let maxWrite := BitVec.ofNat 32 (fuseDefaultMaxPagesLimit * b.pagesize)
  ⟨op,io,moMaxRead,⟨0,0,maxWrite,0,BitVec.ofNat 32 uintMax,0,0,0,0,0,0,0,0⟩,0,0,
    (maxWrite + BitVec.ofNat 32 fuseBufferHeaderSize).setWidth 64,false,false,0,false⟩

def initBufsize (b : Build) (s : Session) (arg : InitIn) : BitVec 64 :=
  let maxBufsize := BitVec.ofNat 64 (fuseDefaultMaxPagesPerReq * b.pagesize + fuseBufferHeaderSize)
  let limited := 6#32 ≤ arg.minor ∧ has (inargflags arg) fuseMaxPages = false
  let bufsize := if limited ∧ maxBufsize < s.bufsize then maxBufsize else s.bufsize
  let bufsize := if bufsize < BitVec.ofNat 64 fuseMinReadBuffer then BitVec.ofNat 64 fuseMinReadBuffer else bufsize
  if s.bufReallocable ∧ ¬limited then BitVec.ofNat 64 uintMax else bufsize

/- MIN compares a 32 bit number with a 64 bit one. -/
def minWrite (maxWrite : BitVec 32) (room : BitVec 64) : BitVec 32 :=
  if maxWrite.setWidth 64 < room then maxWrite else room.setWidth 32

def setSizes (b : Build) (s : Session) (arg : InitIn) : Session :=
  let maxWrite := minWrite s.conn.maxWrite (initBufsize b s arg - BitVec.ofNat 64 fuseBufferHeaderSize)
  {s with
    conn := {s.conn with maxWrite := maxWrite}
    bufsize := (maxWrite + BitVec.ofNat 32 fuseBufferHeaderSize).setWidth 64}

def maxPages (b : Build) (s : Session) (arg : InitIn) : BitVec 16 :=
  if has (arg.flags.setWidth 64) fuseMaxPages then
    ((s.conn.maxWrite - 1) / BitVec.ofNat 32 b.pagesize + 1).setWidth 16
  else 0

def outargflags (s : Session) (arg : InitIn) : BitVec 64 :=
  (if has (arg.flags.setWidth 64) fuseMaxPages then fuseMaxPages else 0) ||| fuseBigWrites |||
    carry wantTable s.conn.wantExt ||| (if has (inargflags arg) fuseInitExt then fuseInitExt else 0)

def outFlags2 (s : Session) (arg : InitIn) : BitVec 32 :=
  if has (inargflags arg) fuseInitExt then (outargflags s arg >>> 32).setWidth 32 else 0

def setCongestion (c : ConnInfo) : ConnInfo :=
  let c := if 65536#32 ≤ c.maxBackground then {c with maxBackground := 65535} else c
  let c := if c.maxBackground < c.congestionThreshold then {c with congestionThreshold := c.maxBackground} else c
  if c.congestionThreshold = 0 then {c with congestionThreshold := c.maxBackground * 3 / 4} else c

def outargsize (arg : InitIn) : Nat := if arg.minor < 5#32 then 8 else if arg.minor < 23#32 then 24 else 64

def emptyOut : InitOut := ⟨7,40,0,0,0,0,0,0,0,0,0⟩

def outarg (b : Build) (s : Session) (arg : InitIn) : InitOut :=
  let limits := 13#32 ≤ arg.minor
  {emptyOut with
    maxReadahead := s.conn.maxReadahead
    flags := (outargflags s arg).setWidth 32
    maxBackground := if limits then s.conn.maxBackground.setWidth 16 else 0
    congestionThreshold := if limits then s.conn.congestionThreshold.setWidth 16 else 0
    maxWrite := s.conn.maxWrite
    timeGran := if 23#32 ≤ arg.minor then s.conn.timeGran else 0
    maxPages := maxPages b s arg
    flags2 := outFlags2 s arg
    maxStackDepth := if has s.conn.wantExt fuseCapPassthrough then s.conn.maxBackingStackDepth + 1 else 0}

def refuse (s : Session) : Session × Reply := ({s with error := -eproto, exited := true},.err eproto)

def replyInit (b : Build) (s : Session) (arg : InitIn) : Session × Reply :=
  if s.conn.maxRead ≠ s.moMaxRead then refuse s
  else
    let s := setSizes b s arg
    let s := if 13#32 ≤ arg.minor then {s with conn := setCongestion s.conn} else s
    (s,.ok (outarg b s arg) (outargsize arg))

def offerConn (b : Build) (s : Session) (arg : InitIn) : Session :=
  let s := llSetDefaults {s with conn := {s.conn with
    maxReadahead := maxReadahead s arg
    capableExt := capableExt b s arg}}
  {s with conn := {s.conn with timeGran := 1}, gotInit := true}

def doInit (b : Build) (s : Session) (arg : InitIn) : Session × Reply :=
  let s := {s with conn := {s.conn with
    protoMajor := arg.major
    protoMinor := arg.minor
    capableExt := 0
    wantExt := 0}}
  if arg.major < 7#32 then (s,.err eproto)
  else if 7#32 < arg.major then (s,.ok emptyOut 64)
  else
    let s := callInit (offerConn b s arg)
    if wantFlagsValid s.conn.capableExt s.conn.wantExt then replyInit b s arg else refuse s

end FuseStudy.DoInit
