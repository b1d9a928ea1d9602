import FuseStudy.NetPacket

/-! server/server.c as it serves one connection: the loop of main that reads an opcode and
a path, and the handlers of thread_handler. A request is served to its end before the next
opcode is read from the same socket. -/
namespace FuseStudy.NetServer
open CString (Bytes)
open NetPacket

inductive Kind where
  | lookup | getattr | readdir | open | read | create | mkdir | write | unlink | rmdir
  deriving DecidableEq, Repr

inductive Purpose where
  | opcode | path | flags | mode | data | flag | result | stat | name | content
  deriving DecidableEq, Repr

structure Tag where
  kind : Kind
  purpose : Purpose
  deriving DecidableEq, Repr

def opcodeOf : Kind → Nat
  | .lookup => 0
  | .getattr => 1
  | .readdir => 2
  | .open => 3
  | .read => 4
  | .create => 5
  | .mkdir => 6
  | .write => 7
  | .unlink => 8
  | .rmdir => 9

def kindOf : Nat → Option Kind
  | 0 => some .lookup
  | 1 => some .getattr
  | 2 => some .readdir
  | 3 => some .open
  | 4 => some .read
  | 5 => some .create
  | 6 => some .mkdir
  | 7 => some .write
  | 8 => some .unlink
  | 9 => some .rmdir
  | _ => none

/- The numbers that have a description in the C library. -/
def knownErrno (e : Nat) : Bool := 1 ≤ e && e ≤ 133 && e ≠ 41 && e ≠ 58

structure Errno where
  value : Nat
  known : knownErrno value = true
  deriving DecidableEq, Repr

structure Stat where
  bytes : Bytes
  size : bytes.length = 144
  deriving DecidableEq, Repr

structure Dirent where
  name : Bytes
  ino : Nat
  type : Nat
  noNul : 0 ∉ name
  short : name.length ≤ 255
  deriving DecidableEq, Repr

structure Block where
  bytes : Bytes
  short : bytes.length < 2 ^ 63
  deriving DecidableEq, Repr

/- How the calls of one request end, and what the memory that a handler sends without setting
it holds. none is success where a call returns nothing else. calloc and statCalloc tell whether
there is memory for a handler's first packet and for the one with attributes. opendir goes with
the entries that are read, readdir with the error behind them, fopen with what fread then leaves
in data, room with whether malloc found memory for it. -/
structure Calls where
  mem : Pkt
  memory : mem.Memory
  unset : Stat
  calloc : Bool
  statCalloc : Bool
  access : Option Errno
  lstat : Except Errno Stat
  opendir : Except Errno (List Dirent)
  readdir : Option Errno
  openFd : BitVec 32 → Option Errno
  fopen : Except Errno Block
  room : Bool
  openCreate : Option Errno
  mkdir : Nat → Option Errno
  stat : Except Errno Stat
  unlink : Option Errno
  rmdir : Option Errno

inductive Out where
  | pkts (purpose : Purpose) (data : Bytes)
  | raw (purpose : Purpose) (data : Bytes)

def Out.octets (kind : Kind) (mem : Pkt) : Out → Stream Tag
  | .pkts purpose data => sentPkts ⟨kind,purpose⟩ (boundSend mem data)
  | .raw purpose data => written ⟨kind,purpose⟩ data

/- Where the connection's reader stands. No path yet: its buffer is still to be
allocated. crashed: the process is gone. -/
inductive Server where
  | opcode
  | path (opcode : Nat) (got : Option Bytes)
  | flags (path : Bytes)
  | mode (path : Bytes)
  | crashed
  deriving DecidableEq, Repr

def fileAttr (calls : Calls) : Stat :=
  match calls.lstat with
  | .ok st => st
  | .error _ => calls.unset

/- case 0x00 of thread_handler; the attributes follow whatever access said. -/
def fuseStudyLookup (calls : Calls) : List Out :=
  [.pkts .flag (intBytes (if calls.access = none then 1 else 0)),.pkts .stat (fileAttr calls).bytes]

/- Without a packet nothing is sent; the attributes are copied into the second one unchecked. -/
def fuseStudyGetattr (calls : Calls) : Server × List Out :=
  if !calls.calloc then (.opcode,[])
  else match calls.lstat with
    | .error e => (.opcode,[.pkts .result (intBytes (-e.value))])
    | .ok st =>
      if calls.statCalloc then (.opcode,[.pkts .result (intBytes 0),.pkts .stat st.bytes])
      else (.crashed,[.pkts .result (intBytes 0)])

def direntStat (de : Dirent) : Stat where
  bytes := le 8 0 ++ (le 8 de.ino ++ (le 8 0 ++ (le 4 (de.type * 4096) ++ List.replicate 116 0)))
  size := by simp [leLength]

def direntOut (de : Dirent) : List Out :=
  [.pkts .flag (intBytes 1),.pkts .name (de.name ++ [0]),.pkts .stat (direntStat de).bytes]

/- An error of readdir ends the loop like the end of the directory. Its packet is used whether
it is there or not. -/
def fuseStudyReaddir (calls : Calls) : Server × List Out :=
  if !calls.calloc then (.crashed,[])
  else match calls.opendir with
    | .error _ => (.opcode,[.pkts .flag (intBytes 0)])
    | .ok des => (.opcode,des.flatMap direntOut ++ [.pkts .flag (intBytes 0)])

def oCreat : BitVec 32 := 64
def oExcl : BitVec 32 := 128
def eio : Nat := 5

def errnoResult (res : Option Errno) : Int :=
  match res with
  | some e => -e.value
  | none => 0

def fuseStudyOpen (calls : Calls) (pkt : Pkt) : List Out :=
  if pkt.size < 4 then [.pkts .result (intBytes (-eio))]
  else
    let flags := BitVec.ofInt 32 (intOf pkt.buf)
    [.pkts .result (intBytes (errnoResult (calls.openFd (flags &&& ~~~(oCreat ||| oExcl)))))]

/- none: fseek on the NULL of a failed fopen, or memcpy from the NULL of a failed malloc. -/
def fuseStudyRead (calls : Calls) : Option (List Out) :=
  match calls.fopen with
  | .error _ => none
  | .ok file => if !calls.room && file.bytes ≠ [] then none else some [.pkts .content file.bytes]

/- Has the body of fuse_study_read. -/
def fuseStudyWrite (calls : Calls) : Option (List Out) :=
  match calls.fopen with
  | .error _ => none
  | .ok file => if !calls.room && file.bytes ≠ [] then none else some [.pkts .content file.bytes]

def fuseStudyCreate (calls : Calls) : List Out :=
  match calls.openCreate with
  | some _ => []
  | none => [.pkts .stat (fileAttr calls).bytes]

def callResult (res : Option Errno) : Int := if res = none then 0 else -1

/- The result goes out as a bare int, not as a packet. -/
def fuseStudyMkdir (calls : Calls) (pkt : Pkt) : Server × List Out :=
  let res := calls.mkdir (unle (pkt.buf.take 4))
  let result := Out.raw .result (intBytes (callResult res))
  match res,calls.stat with
  | none,.ok st => if calls.statCalloc then (.opcode,[result,.pkts .stat st.bytes]) else (.crashed,[result])
  | _,_ => (.opcode,[result])

def fuseStudyRmdir (calls : Calls) : Server × List Out :=
  if calls.calloc then (.opcode,[.pkts .result (intBytes (callResult calls.rmdir))]) else (.crashed,[])

def cString (bytes : Bytes) : Bytes := bytes.takeWhile (fun b => b ≠ 0)

def threadHandler (calls : Calls) (path : Bytes) : Option Kind → Server × List Out
  | some .lookup => (.opcode,fuseStudyLookup calls)
  | some .getattr => fuseStudyGetattr calls
  | some .readdir => fuseStudyReaddir calls
  | some .open => (.flags path,[])
  | some .read =>
    match fuseStudyRead calls with
    | some out => (.opcode,out)
    | none => (.crashed,[])
  | some .create => (.opcode,fuseStudyCreate calls)
  | some .mkdir => (.mode path,[])
  | some .write =>
    match fuseStudyWrite calls with
    | some out => (.opcode,out)
    | none => (.crashed,[])
  | some .unlink => (.opcode,[])
  | some .rmdir => fuseStudyRmdir calls
  | none => (.opcode,[])

/- sizeof(struct thread_arg): a longer payload goes over the end of the struct. -/
def threadArgSize : Nat := 40

def opcodeIn (pkt : Pkt) : Nat := unle ((pkt.buf.take pkt.size).take 2)

/- One bound_read of the server: where it stands then, the kind of request it was about, whether
that request was carried out, and what was written. -/
structure Turn where
  next : Server
  kind : Option Kind
  served : Bool
  out : List Out

def Server.done : Server → Bool
  | .opcode | .crashed => true
  | _ => false

/- room: there is memory for the path, which the first of its packets is copied to unchecked. -/
def serverPacket (room : Bool) (calls : Bytes → Calls) (pkt : Pkt) : Server → Turn
  | .opcode =>
    if threadArgSize < pkt.size then ⟨.crashed,none,false,[]⟩
    else ⟨.path (opcodeIn pkt) none,kindOf (opcodeIn pkt),false,[]⟩
  | .path opcode got =>
    if got = none ∧ room = false then ⟨.crashed,kindOf opcode,false,[]⟩
    else
      let got := got.getD [] ++ pkt.buf.take pkt.size
      if pkt.fin = 1 then
        let path := cString got
        let handled := threadHandler (calls path) path (kindOf opcode)
        ⟨handled.1,kindOf opcode,handled.1.done,handled.2⟩
      else ⟨.path opcode (some got),kindOf opcode,false,[]⟩
  | .flags path => ⟨.opcode,some .open,true,fuseStudyOpen (calls path) pkt⟩
  | .mode path =>
    let handled := fuseStudyMkdir (calls path) pkt
    ⟨handled.1,some .mkdir,true,handled.2⟩
  | .crashed => ⟨.crashed,none,false,[]⟩

def Server.purpose : Server → Purpose
  | .opcode => .opcode
  | .path _ _ => .path
  | .flags _ => .flags
  | .mode _ => .mode
  | .crashed => .opcode

def Server.pathIn (pkt : Pkt) : Server → Bytes
  | .opcode => []
  | .path _ got => cString (got.getD [] ++ pkt.buf.take pkt.size)
  | .flags target => target
  | .mode target => target
  | .crashed => []

def Server.argIn (pkt : Pkt) : Server → Bytes
  | .flags _ => pkt.buf.take 4
  | .mode _ => pkt.buf.take 4
  | _ => []

/- The machine the server runs on: whether there is memory for a path in a state, what the calls
say about that path, and the state that a request on a path with an argument leaves. -/
structure World (W : Type) where
  room : W → Bool
  calls : W → Bytes → Calls
  next : W → Kind → Bytes → Bytes → W

variable {W : Type}

/- The server with its two queues. matched: so far every packet was read for what it was
sent for, and whole. -/
structure Host (W : Type) where
  server : Server
  up : Stream Tag
  down : Stream Tag
  matched : Bool
  world : W

def Host.step (env : World W) (h : Host W) : Option (Host W) :=
  if h.server = .crashed then none
  else match boundRead h.up with
    | none => none
    | some (pkt,octets,rest) =>
      let turn := serverPacket (env.room h.world) (env.calls h.world) pkt h.server
      let path := h.server.pathIn pkt
      let mem := (env.calls h.world path).mem
      let right := match turn.kind with
        | some kind => Whole ⟨kind,h.server.purpose⟩ pktSize octets
        | none => false
      let sent := match turn.kind with
        | some kind => turn.out.flatMap (Out.octets kind mem)
        | none => []
      let world := match turn.kind with
        | some kind => if turn.served then env.next h.world kind path (h.server.argIn pkt) else h.world
        | none => h.world
      some ⟨turn.next,rest,h.down ++ sent,h.matched && right,world⟩

theorem Host.stepShorter {env : World W} {h h' : Host W} (step : h.step env = some h') :
    h'.up.length < h.up.length := by
  unfold Host.step at step
  split at step <;> try contradiction
  split at step <;> try contradiction
  rename_i pkt octets rest got
  cases Option.some.inj step
  exact boundReadShorter got

def settle (env : World W) (h : Host W) : Host W :=
  match _step : h.step env with
  | none => h
  | some h' => settle env h'
termination_by h.up.length
decreasing_by exact Host.stepShorter _step

theorem settleStep {env : World W} {h h' : Host W} (step : h.step env = some h') :
    settle env h = settle env h' := by
  rw [settle]
  split
  · rename_i none
    cases none.symm.trans step
  · rename_i other found
    cases found.symm.trans step
    rfl

theorem settleWaits {env : World W} {h : Host W} (step : h.step env = none) : settle env h = h := by
  rw [settle]
  split
  · rfl
  · rename_i other found
    cases found.symm.trans step

theorem boundReadMore {s octets rest : Stream Tag} {pkt : Pkt} (got : boundRead s = some (pkt,octets,rest))
    (more : Stream Tag) : boundRead (s ++ more) = some (pkt,octets,rest ++ more) := by
  unfold boundRead at *
  split at got
  · contradiction
  · rename_i enough
    have full : pktSize ≤ s.length := Nat.le_of_not_lt enough
    cases Option.some.inj got
    rw [if_neg (by rw [List.length_append]; omega),List.take_append_of_le_length full,
      List.drop_append_of_le_length full]

theorem Host.stepMore {env : World W} {h h' : Host W} (step : h.step env = some h') (more : Stream Tag) :
    Host.step env {h with up := h.up ++ more} = some {h' with up := h'.up ++ more} := by
  unfold Host.step at *
  split at step <;> try contradiction
  rename_i alive
  rw [if_neg alive]
  split at step <;> try contradiction
  rename_i got
  rw [← Option.some.inj step]
  simp only [boundReadMore got more]

theorem settleEager (env : World W) (h : Host W) (more : Stream Tag) :
    settle env {settle env h with up := (settle env h).up ++ more} = settle env {h with up := h.up ++ more} := by
  induction len : h.up.length using Nat.strongRecOn generalizing h with
  | ind n ih =>
    cases step : h.step env with
    | none => rw [settleWaits step]
    | some h' =>
      rw [settleStep step,settleStep (Host.stepMore step more)]
      exact ih _ (len ▸ Host.stepShorter step) h' rfl

/-! What the server makes of packets of the client. -/

theorem settlePkt {env : World W} {server next : Server} {tag : Tag} {pkt : Pkt} {rest down : Stream Tag}
    {matched served : Bool} {world : W} {kind : Kind} {out : List Out} (alive : server ≠ .crashed)
    (memory : pkt.Memory) (kept : pktOf (pktBytes pkt) = pkt)
    (packet : serverPacket (env.room world) (env.calls world) pkt server = ⟨next,some kind,served,out⟩) :
    settle env ⟨server,written tag (pktBytes pkt) ++ rest,down,matched,world⟩ =
      settle env ⟨next,rest,down ++ out.flatMap (Out.octets kind (env.calls world (server.pathIn pkt)).mem),
        matched && decide (tag = ⟨kind,server.purpose⟩),
        if served then env.next world kind (server.pathIn pkt) (server.argIn pkt) else world⟩ := by
  apply settleStep
  rw [Host.step,if_neg alive,boundReadWritten tag memory kept rest]
  simp only [packet,pktWhole tag _ memory]

/- The host once the whole path of a request has arrived. -/
def dispatched (env : World W) (kind : Kind) (path : Bytes) (rest down : Stream Tag) (matched : Bool)
    (world : W) : Host W :=
  let calls := env.calls world path
  let handled := threadHandler calls path (some kind)
  ⟨handled.1,rest,down ++ handled.2.flatMap (Out.octets kind calls.mem),matched,
    if handled.1.done then env.next world kind path [] else world⟩

/- The path arrives in as many packets as it needs; by induction on what is still to come. -/
theorem settlePath {env : World W} {mem : Pkt} (memory : mem.Memory) {tag : Tag} {opcode : Nat} {kind : Kind}
    (known : kindOf opcode = some kind) {got : Option Bytes} {remain : Bytes} {rest down : Stream Tag} {matched : Bool}
    {world : W} {totalSize : Nat} (room : got = none → env.room world = true) (ne : remain ≠ [])
    (short : totalSize < 256 ^ 8) :
    settle env ⟨.path opcode got,sentPkts tag (sendLoop mem totalSize remain) ++ rest,down,matched,world⟩ =
      settle env (dispatched env kind (cString (got.getD [] ++ remain)) rest down
        (matched && decide (tag = ⟨kind,.path⟩)) world) := by
  have goes : ¬ (got = none ∧ env.room world = false) := by
    rintro ⟨first,full⟩
    cases (room first).symm.trans full
  induction len : remain.length using Nat.strongRecOn generalizing mem got remain matched with
  | ind n ih =>
    rcases sendLoopSource memory ne short with ⟨pkt,last,good,fin⟩ | ⟨pkt,first,good,fin,tail,fewer⟩
    · rw [last]
      simp only [sentPkts,List.flatMap_cons,List.flatMap_nil,List.append_nil]
      rw [settlePkt (by simp) good.memory good.kept
        (by simp only [serverPacket,if_neg goes,good.data,known,fin,if_true]; rfl)]
      simp only [good.data,Server.pathIn,Server.purpose]
      rfl
    · have later := @ih _ (len ▸ fewer) _ good.memory (some (got.getD [] ++ remain.take bufSize)) (remain.drop bufSize)
        (matched && decide (tag = ⟨kind,.path⟩)) (fun no => by cases no) tail (fun both => by cases both.1) rfl
      rw [first]
      simp only [sentPkts,List.flatMap_cons,List.append_assoc]
      rw [settlePkt (by simp) good.memory good.kept
        (by simp only [serverPacket,if_neg goes,good.data,known,fin,Nat.zero_ne_one,if_false]; rfl)]
      simp only [Server.purpose,List.flatMap_nil,List.append_nil,Bool.false_eq_true,if_false]
      rw [Option.getD_some,sentPkts,List.append_assoc,List.take_append_drop,Bool.and_assoc,Bool.and_self] at later
      exact later

end FuseStudy.NetServer
