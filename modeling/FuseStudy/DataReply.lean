import FuseStudy.BufCopy
import FuseStudy.LlRequest

/-! fuse_reply_data: the reply goes through the pipe of the thread, or is copied and written. -/
namespace FuseStudy.DataReply
open BufCopy
open LlRequest (outError eio enomem eagain)

structure OutHeader where
  len : Nat := 0
  error : Int
  unique : Nat
  deriving DecidableEq, Repr

/- sizeof(struct fuse_out_header), which is iov_length as long as iov has the header alone. -/
def headerLen : Nat := 16

/- A message that the device was given by writev or splice, and what it took of it or its errno. -/
structure Attempt where
  header : OutHeader
  data : List UInt8
  took : SSize
  deriving DecidableEq

/- struct fuse_ll_pipe; `fd` is pipe[1]. `sent` of it is what was written and is not yet read back. -/
structure Llp where
  size : Nat
  canGrow : Bool
  fd : Nat
  deriving DecidableEq, Repr

structure Host where
  splice : Bool
  vmsplice : Bool
  pagesize : Nat
  strerrordesc : Bool

structure Session where
  brokenSpliceNonblock : Bool
  protoMinor : Nat
  spliceWrite : Bool
  pipe : Option Llp
  sys : Sys

/- What the calls outside of fuse_buf_copy give: a new pipe (malloc and pipe), both F_SETPIPE_SZ, the
number in /proc/sys/fs/pipe-max-size, vmsplice, both reads back, posix_memalign, malloc, and the device
at its first try and at later ones. -/
structure Calls where
  newPipe : Option Nat
  setPipeSize : Except Nat Nat
  pipeMaxSize : Except Nat Nat
  setPipeMax : Except Nat Unit
  vmsplice : Answer
  readHeader : Answer
  readData : Answer
  memalign : Except Nat Nat
  malloc : Bool
  device : Nat → Answer

def answered (a : Answer) (len : Nat) : SSize :=
  match a with
  | .fail errno => .error errno
  | .done count => .ok (min count len)

def int : SSize → Int
  | .ok n => Int.bmod n (2 ^ 32)
  | .error errno => Int.bmod (-errno) (2 ^ 32)

structure Sent where
  res : Int
  tries : List Attempt := []
  session : Session

def fuseSendMsg (answer : Answer) (out : OutHeader) (data : List UInt8) : Int × Attempt :=
  let took := answered answer (headerLen + data.length)
  (match took with
    | .error errno => -errno
    | .ok _ => 0,
    {header := {out with len := (headerLen + data.length) % 2 ^ 32},data := data,took := took})

def Session.send (s : Session) (c : Calls) (out : OutHeader) (data : List UInt8) : Sent :=
  {res := (fuseSendMsg (c.device 0) out data).1,tries := [(fuseSendMsg (c.device 0) out data).2],session := s}

def memory (mbuf size : Nat) : Buf := {size := size,mem := mbuf}

def Session.bytes (s : Session) (b : Buf) (len : Nat) : List UInt8 := (s.sys.world.takes (b.cells 0 len)).1

def commonCase (v : Bufvec) : Option Buf :=
  match v.buf with
  | [b] => if v.idx = 0 ∧ v.off = 0 ∧ b.isFd = false then some b else none
  | _ => none

/- `none` is a failed assertion, here and below. -/
def fuseSendDataIovFallback (h : Host) (c : Calls) (out : OutHeader) (v : Bufvec) (len : Nat) (s : Session) :
    Option Sent :=
  match commonCase v with
  | some b => some (s.send c out (s.bytes b len))
  | none => match c.memalign with
    | .error errno => some {res := errno,session := s}
    | .ok mbuf => match fuseBufCopy h.splice {} false {buf := [memory mbuf len]} v s.sys with
      | none => none
      | some (r,_,_,sys) =>
        let s := {s with sys := sys}
        if int r < 0 then some {res := -int r,session := s}
        else some (s.send c out (s.bytes (memory mbuf len) (int r).toNat))

def totalBufSize (v : Bufvec) : Nat :=
  match v.buf.drop v.idx with
  | [] => 0
  | b :: later => later.foldl (fun total b => (total + b.size) % 2 ^ 64) ((b.size + 2 ^ 64 - v.off % 2 ^ 64) % 2 ^ 64)

def maySplice (h : Host) (flags : CopyFlags) (v : Bufvec) (s : Session) : Bool :=
  h.splice && h.vmsplice && !s.brokenSpliceNonblock && !flags.noSplice && 2 * h.pagesize ≤ totalBufSize v &&
    14 ≤ s.protoMinor && s.spliceWrite

def pipeHolding (w : World) (fd : Nat) (bytes : List UInt8) : World :=
  {w with sent := fun i => if i = fd then bytes else w.sent i}

def Session.pipeHolding (s : Session) (fd : Nat) (bytes : List UInt8) : Session :=
  {s with sys := {s.sys with world := DataReply.pipeHolding s.sys.world fd bytes}}

/- A new pipe is empty, and of 16 pages on linux. -/
def fuseLlGetPipe (h : Host) (c : Calls) (s : Session) : Option (Llp × Session) :=
  match s.pipe with
  | some llp => some (llp,s)
  | none => match c.newPipe with
    | none => none
    | some fd =>
      let llp := {size := h.pagesize * 16,canGrow := true,fd := fd}
      some (llp,{s.pipeHolding fd [] with pipe := some llp})

def fuseLlClearPipe (s : Session) : Session := {s with pipe := none}

def growPipeToMax (c : Calls) : Int :=
  match c.pipeMaxSize with
  | .error errno => -errno
  | .ok max => match c.setPipeMax with
    | .error errno => -errno
    | .ok _ => Int.bmod max (2 ^ 32)

def growPipe (c : Calls) (llp : Llp) (pipesize : Nat) : Bool × Llp :=
  if llp.size < pipesize then
    if llp.canGrow then match c.setPipeSize with
      | .error _ =>
          (false,{llp with size := if 0 < growPipeToMax c then (growPipeToMax c).toNat else llp.size,canGrow := false})
      | .ok size => (!(size < pipesize),{llp with size := size})
    else (false,llp)
  else (true,llp)

def pipeFor (h : Host) (c : Calls) (flags : CopyFlags) (v : Bufvec) (s : Session) : Except Session (Llp × Session) :=
  if maySplice h flags v s then match fuseLlGetPipe h c s with
    | none => .error s
    | some (llp,s) =>
      let outLen := (headerLen + fuseBufSize v) % 2 ^ 32
      let (enough,llp) := growPipe c llp (h.pagesize * (1 + v.buf.length + 1) + outLen)
      let s := {s with pipe := some llp}
      if enough then .ok (llp,s) else .error s
  else .error s

/- read_back from a pipe that has at least `len` bytes. -/
def readBack (a : Answer) (len : Nat) : Int :=
  match answered a len with
  | .error _ => -eio
  | .ok res => if res ≠ len then -eio else 0

/- The pipe holds the page of the header, not a copy: the device sees the len that stands there now. -/
def spliceOut (c : Calls) (out : OutHeader) (llp : Llp) (len : Nat) (s : Session) : Sent :=
  let out := {out with len := (headerLen + len) % 2 ^ 32}
  let moved := (s.sys.world.sent llp.fd).take (out.len - headerLen)
  let took := answered (c.device 0) out.len
  let tries := [{header := out,data := moved,took := took}]
  match took with
  | .error errno => {res := -errno,tries := tries,session := fuseLlClearPipe s}
  | .ok res =>
    if res ≠ out.len then {res := -eio,tries := tries,session := fuseLlClearPipe s}
    else {
      res := 0
      tries := tries
      session := s.pipeHolding llp.fd ((s.sys.world.sent llp.fd).drop (out.len - headerLen))}

/- Trickiest case: the bytes of the pipe come in front of those that were read after them. -/
def takeBack (c : Calls) (out : OutHeader) (llp : Llp) (mbuf len nowLen extraLen : Nat) (s : Session) : Sent :=
  if c.malloc = false then {res := enomem,session := fuseLlClearPipe s}
  else if readBack c.readHeader headerLen ≠ 0 then {res := readBack c.readHeader headerLen,session := fuseLlClearPipe s}
  else if readBack c.readData nowLen ≠ 0 then {res := readBack c.readData nowLen,session := fuseLlClearPipe s}
  else
    let piped := s.sys.world.sent llp.fd
    let s := s.pipeHolding llp.fd (piped.drop nowLen)
    let s := {s with sys := s.sys.puts ((memory mbuf len).cells 0 nowLen) (piped.take nowLen)}
    s.send c out (s.bytes (memory mbuf len) (nowLen + extraLen))

/- A short count: what else there is goes to memory, behind the place for what is in the pipe. -/
def copyRest (h : Host) (c : Calls) (out : OutHeader) (v : Bufvec) (llp : Llp) (len nowLen : Nat) (s : Session) :
    Option Sent :=
  match c.memalign with
  | .error errno => some {res := errno,session := fuseLlClearPipe s}
  | .ok mbuf => match fuseBufCopy h.splice {} false {off := nowLen,buf := [memory mbuf len]} v s.sys with
    | none => none
    | some (r,_,_,sys) =>
      let s := {s with sys := sys}
      some (if 0 < int r then takeBack c out llp mbuf len nowLen (int r).toNat s else spliceOut c out llp nowLen s)

def pipeBuf (llp : Llp) (len : Nat) : Buf := {size := len,isFd := true,fd := llp.fd}

def sendPiped (h : Host) (c : Calls) (out : OutHeader) (v : Bufvec) (llp : Llp) (len : Nat) (s : Session) :
    Option Sent :=
  match fuseBufCopy h.splice {forceSplice := true} false {buf := [pipeBuf llp len]} v s.sys with
  | none => none
  | some (r,_,v,sys) =>
    let s := {s with sys := sys}
    if int r < 0 then
      if int r = -eagain ∨ int r = -einval then
        fuseSendDataIovFallback h c out v len
          (fuseLlClearPipe {s with brokenSpliceNonblock := s.brokenSpliceNonblock || int r = -eagain})
      else some {res := -int r,session := fuseLlClearPipe s}
    else if int r ≠ 0 ∧ (int r).toNat < len then copyRest h c out v llp len (int r).toNat s
    else some (spliceOut c out llp (int r).toNat s)

/- Without both calls it is the fallback alone, which `pipeFor` then says. -/
def fuseSendDataIov (h : Host) (c : Calls) (out : OutHeader) (v : Bufvec) (flags : CopyFlags) (s : Session) :
    Option Sent :=
  let len := fuseBufSize v
  match pipeFor h c flags v s with
  | .error s => fuseSendDataIovFallback h c out v len s
  | .ok (llp,s) => match answered c.vmsplice headerLen with
    | .error _ => fuseSendDataIovFallback h c out v len s
    | .ok res =>
      if res ≠ headerLen then some {res := -eio,session := fuseLlClearPipe s}
      else sendPiped h c out v llp len s

/- fuse_reply_err, whose message is the header alone. -/
def fuseReplyErr (h : Host) (answer : Answer) (unique : Nat) (err : Int) : Int × Attempt :=
  fuseSendMsg answer {error := outError h.strerrordesc (-err),unique := unique} []

def finish (h : Host) (c : Calls) (unique : Nat) (sent : Sent) : Sent :=
  if sent.res ≤ 0 then sent
  else
    let (res,tried) := fuseReplyErr h (c.device sent.tries.length) unique sent.res
    {sent with res := res,tries := sent.tries ++ [tried]}

def fuseReplyData (h : Host) (c : Calls) (unique : Nat) (v : Bufvec) (flags : CopyFlags) (s : Session) : Option Sent :=
  match fuseSendDataIov h c {error := 0,unique := unique} v flags s with
  | none => none
  | some sent => some (finish h c unique sent)

end FuseStudy.DataReply
