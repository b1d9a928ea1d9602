import Mathlib.Algebra.Group.Nat.Defs
import Mathlib.Data.List.Basic
import Mathlib.Tactic.Common

/-! fuse_buf_copy over buffer vectors of memory and descriptors. Every system call may take any
part of what it is asked for, or fail. -/
namespace FuseStudy.BufCopy

/- struct fuse_buf with its flags FUSE_BUF_IS_FD, FUSE_BUF_FD_SEEK and FUSE_BUF_FD_RETRY. -/
structure Buf where
  size : Nat
  isFd : Bool := false
  fdSeek : Bool := false
  fdRetry : Bool := false
  mem : Nat := 0
  fd : Nat := 0
  pos : Nat := 0
  deriving DecidableEq, Repr

/- struct fuse_bufvec; its count is the length of buf. -/
structure Bufvec where
  idx : Nat := 0
  off : Nat := 0
  buf : List Buf
  deriving DecidableEq, Repr

/- enum fuse_buf_copy_flags. SPLICE_MOVE and SPLICE_NONBLOCK only go on to the kernel. -/
structure CopyFlags where
  noSplice : Bool := false
  forceSplice : Bool := false

/- Where one byte comes from or goes to: memory, a position of a file, or a stream, which is
read and written in order. -/
inductive Cell
  | mem (a : Nat)
  | file (fd p : Nat)
  | stream (fd : Nat)
  deriving DecidableEq, Repr

def Cell.isStream : Cell → Bool
  | .stream _ => true
  | _ => false

def Cell.isMem : Cell → Bool
  | .mem _ => true
  | _ => false

/- The byte `off` of a segment. read and write are used where FUSE_BUF_FD_SEEK is not set. -/
def Buf.cell (b : Buf) (off : Nat) : Cell :=
  if b.isFd then if b.fdSeek then .file b.fd (b.pos + off) else .stream b.fd else .mem (b.mem + off)

def Buf.cells (b : Buf) (off : Nat) : Nat → List Cell
  | 0 => []
  | n + 1 => b.cell off :: b.cells (off + 1) n

/- Memory and files, what each stream has to give, how much was taken from it, and what was
written to it. -/
@[ext]
structure World where
  mem : Nat → UInt8
  file : Nat → Nat → UInt8
  input : Nat → Nat → UInt8
  taken : Nat → Nat
  sent : Nat → List UInt8

def World.take (w : World) : Cell → UInt8 × World
  | .mem a => (w.mem a,w)
  | .file fd p => (w.file fd p,w)
  | .stream fd => (w.input fd (w.taken fd),{w with taken := fun i => if i = fd then w.taken fd + 1 else w.taken i})

def World.put (w : World) (byte : UInt8) : Cell → World
  | .mem a => {w with mem := fun x => if x = a then byte else w.mem x}
  | .file fd p => {w with file := fun i x => if i = fd ∧ x = p then byte else w.file i x}
  | .stream fd => {w with sent := fun i => if i = fd then w.sent fd ++ [byte] else w.sent i}

def World.takes (w : World) : List Cell → List UInt8 × World
  | [] => ([],w)
  | c :: cells => ((w.take c).1 :: ((w.take c).2.takes cells).1,((w.take c).2.takes cells).2)

def World.puts (w : World) : List Cell → List UInt8 → World
  | c :: cells,byte :: bytes => (w.put byte c).puts cells bytes
  | _,_ => w

/- All the bytes are taken before the first is put. -/
def World.transfer (w : World) (src dst : List Cell) : World :=
  (w.takes src).2.puts dst (w.takes src).1

/- What a system call answers: an errno, or how many bytes it moved of those it was asked for. -/
inductive Answer
  | fail (errno : Nat)
  | done (count : Nat)
  deriving DecidableEq, Repr

structure Sys where
  world : World
  answers : Nat → Answer

/- A ssize_t result: `error e` stands for -e. -/
abbrev SSize := Except Nat Nat

def ssize (n : Nat) : SSize :=
  if n < 2 ^ 63 then .ok n else .error (2 ^ 64 - n)

def Sys.call (s : Sys) (len : Nat) : SSize × Sys :=
  (match s.answers 0 with
    | .fail errno => .error errno
    | .done count => .ok (min count len),
    {s with answers := fun i => s.answers (i + 1)})

def Sys.takes (s : Sys) (cells : List Cell) : List UInt8 × Sys :=
  ((s.world.takes cells).1,{s with world := (s.world.takes cells).2})

def Sys.puts (s : Sys) (cells : List Cell) (bytes : List UInt8) : Sys :=
  {s with world := s.world.puts cells bytes}

def Sys.transfer (s : Sys) (src dst : List Cell) : Sys :=
  {s with world := s.world.transfer src dst}

def sizeMax : Nat := 2 ^ 64 - 1

def fuseBufSize (v : Bufvec) : Nat :=
  go 0 v.buf
where
  go (size : Nat) : List Buf → Nat
    | [] => size
    | b :: later => if sizeMax - size ≤ b.size then sizeMax else go (size + b.size) later

def minSize (s1 s2 : Nat) : Nat :=
  if s1 < s2 then s1 else s2

/- `data` is what stands at src->mem + src_off; its length is the code's len. -/
def writeLoop (dst : Buf) (dstOff : Nat) (data : List UInt8) (copied : Nat) (s : Sys) : SSize × Sys :=
  if data.length = 0 then (ssize copied,s)
  else match s.call data.length with
    | (.error errno,s) => if copied = 0 then (.error errno,s) else (ssize copied,s)
    | (.ok res,s) =>
      if res = 0 then (ssize copied,s)
      else if dst.fdRetry = false then
        (ssize (copied + res),s.puts (dst.cells dstOff res) (data.take res))
      else
        writeLoop dst (dstOff + res) (data.drop res) (copied + res) (s.puts (dst.cells dstOff res) (data.take res))
termination_by data.length
decreasing_by
  rw [List.length_drop]
  omega

def fuseBufWrite (dst : Buf) (dstOff : Nat) (data : List UInt8) (s : Sys) : SSize × Sys :=
  writeLoop dst dstOff data 0 s

/- With the result come the bytes that the loop puts at dst->mem + dst_off, one after the other. -/
def readLoop (src : Buf) (srcOff len copied : Nat) (s : Sys) : SSize × List UInt8 × Sys :=
  if len = 0 then (ssize copied,[],s)
  else match s.call len with
    | (.error errno,s) => if copied = 0 then (.error errno,[],s) else (ssize copied,[],s)
    | (.ok res,s) =>
      if res = 0 then (ssize copied,[],s)
      else
        let (bytes,s) := s.takes (src.cells srcOff res)
        if src.fdRetry = false then (ssize (copied + res),bytes,s)
        else
          let (result,later,s) := readLoop src (srcOff + res) (len - res) (copied + res) s
          (result,bytes ++ later,s)
termination_by len

def fuseBufRead (src : Buf) (srcOff len : Nat) (s : Sys) : SSize × List UInt8 × Sys :=
  readLoop src srcOff len 0 s

def tmpSize : Nat := 4096

def fdToFdLoop (dst : Buf) (dstOff : Nat) (src : Buf) (srcOff len copied : Nat) (s : Sys) : SSize × Sys :=
  if len = 0 then (ssize copied,s)
  else
    let thisLen := minSize tmpSize len
    match fuseBufRead src srcOff thisLen s with
    | (.error errno,_,s) => if copied = 0 then (.error errno,s) else (ssize copied,s)
    | (.ok readLen,tmp,s) =>
      if readLen = 0 then (ssize copied,s)
      else match fuseBufWrite dst dstOff tmp s with
        | (.error errno,s) => if copied = 0 then (.error errno,s) else (ssize copied,s)
        | (.ok res,s) =>
          if res = 0 then (ssize copied,s)
          else if res < thisLen then (ssize (copied + res),s)
          else fdToFdLoop dst (dstOff + res) src (srcOff + res) (len - res) (copied + res) s
termination_by len

def fuseBufFdToFd (dst : Buf) (dstOff : Nat) (src : Buf) (srcOff len : Nat) (s : Sys) : SSize × Sys :=
  fdToFdLoop dst dstOff src srcOff len 0 s

def einval : Nat := 22

/- The kernel moves srcpos and dstpos on by what it spliced. -/
def spliceLoop (flags : CopyFlags) (dst : Buf) (dstOff : Nat) (src : Buf) (srcOff len copied : Nat) (s : Sys) :
    SSize × Sys :=
  if len = 0 then (ssize copied,s)
  else match s.call len with
    | (.error errno,s) =>
      if copied ≠ 0 then (ssize copied,s)
      else if errno ≠ einval ∨ flags.forceSplice = true then (.error errno,s)
      -- splice may not be supported for this combination
      else fuseBufFdToFd dst dstOff src srcOff len s
    | (.ok res,s) =>
      if res = 0 then (ssize copied,s)
      else if src.fdRetry = false ∧ dst.fdRetry = false then
        (ssize (copied + res),s.transfer (src.cells srcOff res) (dst.cells dstOff res))
      else
        spliceLoop flags dst (dstOff + res) src (srcOff + res) (len - res) (copied + res)
          (s.transfer (src.cells srcOff res) (dst.cells dstOff res))
termination_by len

/- `haveSplice` is HAVE_SPLICE. -/
def fuseBufSplice (haveSplice : Bool) (flags : CopyFlags) (dst : Buf) (dstOff : Nat) (src : Buf) (srcOff len : Nat)
    (s : Sys) : SSize × Sys :=
  if haveSplice then spliceLoop flags dst dstOff src srcOff len 0 s else fuseBufFdToFd dst dstOff src srcOff len s

def fuseBufCopyOne (haveSplice : Bool) (flags : CopyFlags) (dst : Buf) (dstOff : Nat) (src : Buf) (srcOff len : Nat)
    (s : Sys) : SSize × Sys :=
  if src.isFd = false ∧ dst.isFd = false then
    (ssize len,if dst.mem + dstOff ≠ src.mem + srcOff then s.transfer (src.cells srcOff len)
      (dst.cells dstOff len) else s)
  else if src.isFd = false then fuseBufWrite dst dstOff (s.takes (src.cells srcOff len)).1 s
  else if dst.isFd = false then
    let (res,bytes,s) := fuseBufRead src srcOff len s
    (res,s.puts (dst.cells dstOff bytes.length) bytes)
  else if flags.noSplice then fuseBufFdToFd dst dstOff src srcOff len s
  else fuseBufSplice haveSplice flags dst dstOff src srcOff len s

def Bufvec.current (v : Bufvec) : Option Buf := v.buf[v.idx]?

/- fuse_bufvec_advance; `none` is a failed assertion. -/
def Bufvec.advance (v : Bufvec) (len : Nat) : Option (Bool × Bufvec) :=
  match v.current with
  | none => some (false,v)
  | some b =>
    if v.off + len ≤ b.size then
      if v.off + len = b.size then
        if v.idx + 1 = v.buf.length then some (false,{v with idx := v.idx + 1,off := v.off + len})
        else some (true,{v with idx := v.idx + 1,off := 0})
      else some (true,{v with off := v.off + len})
    else none

theorem Bufvec.advanceOn {v u : Bufvec} {b : Buf} {len : Nat} {more : Bool} (current : v.current = some b)
    (done : v.advance len = some (more,u)) :
    v.off + len ≤ b.size ∧ u.buf = v.buf ∧
      (v.off + len < b.size ∧ u.idx = v.idx ∨ v.off + len = b.size ∧ u.idx = v.idx + 1 ∧ v.idx < v.buf.length) := by
  have inside : v.idx < v.buf.length := (List.getElem?_eq_some_iff.mp current).1
  simp only [advance,current] at done
  split at done
  · rename_i fits
    split at done
    · rename_i full
      split at done <;> cases done <;> exact ⟨fits,rfl,.inr ⟨full,rfl,inside⟩⟩
    · rename_i partly
      cases done
      exact ⟨fits,rfl,.inl ⟨by omega,rfl⟩⟩
  · cases done

/- The loop of fuse_buf_copy; `none` is a failed assertion. -/
def copyLoop (haveSplice : Bool) (flags : CopyFlags) (dstv srcv : Bufvec) (copied : Nat) (s : Sys) :
    Option (SSize × Bufvec × Bufvec × Sys) :=
  match _source : srcv.current, _dest : dstv.current with
  | none,_ => some (ssize copied,dstv,srcv,s)
  | some _,none => some (ssize copied,dstv,srcv,s)
  | some src,some dst =>
    let len := minSize (src.size - srcv.off) (dst.size - dstv.off)
    match fuseBufCopyOne haveSplice flags dst dstv.off src srcv.off len s with
    | (.error errno,s) => if copied = 0 then some (.error errno,dstv,srcv,s) else some (ssize copied,dstv,srcv,s)
    | (.ok res,s) =>
      match _onward : srcv.advance res with
      | none => none
      | some (false,srcv) => some (ssize (copied + res),dstv,srcv,s)
      | some (true,srcv') =>
        match _onward' : dstv.advance res with
        | none => none
        | some (false,dstv) => some (ssize (copied + res),dstv,srcv',s)
        | some (true,dstv') =>
          if res < len then some (ssize (copied + res),dstv',srcv',s)
          else copyLoop haveSplice flags dstv' srcv' (copied + res) s
termination_by (srcv.buf.length - srcv.idx) + (dstv.buf.length - dstv.idx)
decreasing_by
  obtain ⟨fits,same,moved⟩ := Bufvec.advanceOn _source _onward
  obtain ⟨fits',same',moved'⟩ := Bufvec.advanceOn _dest _onward'
  rw [same,same']
  have least : len = min (src.size - srcv.off) (dst.size - dstv.off) := by
    simp only [len,minSize]
    split <;> omega
  omega

/- `same` says that both vectors are one object. -/
def fuseBufCopy (haveSplice : Bool) (flags : CopyFlags) (same : Bool) (dstv srcv : Bufvec) (s : Sys) :
    Option (SSize × Bufvec × Bufvec × Sys) :=
  if same then some (ssize (fuseBufSize dstv),dstv,srcv,s) else copyLoop haveSplice flags dstv srcv 0 s

end FuseStudy.BufCopy
