import FuseStudy.NetClient

/-! The two programs at the two ends of a connection. The client sends all of a request, the
server reads what there is, and the client reads the answer. With queues that hold any
number of bytes every other order of their steps ends the same way: neither program can see
whether a queue is empty. -/
namespace FuseStudy.NetLink
open CString (Bytes)
open NetPacket NetServer NetClient

/- What the system calls of the server say, and what the client's packets hold unset. -/
structure Setting (W : Type) where
  env : World W
  mem : Pkt
  memory : mem.Memory

variable {W : Type}

/- stuck: the client has crashed, or waits for bytes that do not come. -/
structure Link (W : Type) where
  client : Client
  host : Host W
  stuck : Bool

def requestOctets (kind : Kind) (mem : Pkt) (requests : List (Purpose × Bytes)) : Stream Tag :=
  requests.flatMap (fun r => sentPkts ⟨kind,r.1⟩ (boundSend mem r.2))

def received (client : Client) (host : Host W) : Option (Option Reply × Down) → Link W × Option Reply
  | none => (⟨client,host,true⟩,none)
  | some (reply,d) => (⟨client,{host with down := d.queue, matched := d.matched},false⟩,reply)

def Link.step (s : Setting W) (link : Link W) (op : Op) : Link W × Option Reply :=
  if link.stuck then (link,none)
  else match link.client.op op with
    | (client,.crash) => (⟨client,link.host,true⟩,none)
    | (client,.answer reply) => (⟨client,link.host,false⟩,some reply)
    | (client,.exchange requests receive) =>
      let host := settle s.env {link.host with up := link.host.up ++ requestOctets op.kind s.mem requests}
      received client host (receive ⟨host.down,host.matched⟩)

def run (s : Setting W) : Link W → List Op → Link W
  | link,[] => link
  | link,op :: ops => run s (link.step s op).1 ops

def Link.start (world : W) : Link W := ⟨⟨none⟩,⟨.opcode,[],[],true,world⟩,false⟩

/- Both queues are empty, nobody waits, and all that was read was meant for its reader. -/
structure Link.Clean (link : Link W) : Prop where
  going : link.stuck = false
  idle : link.host.server = .opcode
  up : link.host.up = []
  down : link.host.down = []
  matched : link.host.matched = true

def synced (client : Client) (world : W) : Link W := ⟨client,⟨.opcode,[],[],true,world⟩,false⟩

theorem Link.Clean.same {link : Link W} (clean : link.Clean) : link = synced link.client link.host.world := by
  obtain ⟨client,⟨server,up,down,matched,world⟩,stuck⟩ := link
  obtain ⟨rfl,rfl,rfl,rfl,rfl⟩ := clean
  rfl

theorem syncedClean (client : Client) (world : W) : (synced client world).Clean := ⟨rfl,rfl,rfl,rfl,rfl⟩

/-! C strings and single packets. -/

theorem cStringPast {bytes : Bytes} (noNul : 0 ∉ bytes) (rest : Bytes) :
    cString (bytes ++ rest) = bytes ++ cString rest := by
  have all : ∀ b ∈ bytes, decide (b ≠ 0) = true := by
    intro b inside
    exact decide_eq_true (fun zero => noNul (zero ▸ inside))
  exact List.takeWhile_append_of_pos all

theorem cStringAppend {bytes : Bytes} (noNul : 0 ∉ bytes) (rest : Bytes) :
    cString (bytes ++ 0 :: rest) = bytes := by
  rw [cStringPast noNul,cString,List.takeWhile_cons_of_neg (by simp),List.append_nil]

theorem cStringSelf {bytes : Bytes} (noNul : 0 ∉ bytes) : cString bytes = bytes := by
  have same := cStringPast noNul []
  simpa [cString] using same

def onePkt (mem : Pkt) (data : Bytes) : Pkt :=
  ⟨1,mem.pad,data.length,data.length,data ++ mem.buf.drop data.length⟩

theorem sentOne (tag : Tag) (mem : Pkt) {data : Bytes} (ne : data ≠ []) (fits : data.length ≤ bufSize) :
    sentPkts tag (boundSend mem data) = written tag (pktBytes (onePkt mem data)) := by
  rw [boundSendOne mem ne fits,sentPkts,List.flatMap_singleton,onePkt]

theorem onePktMemory {mem : Pkt} (memory : mem.Memory) {data : Bytes} (ne : data ≠ [])
    (fits : data.length ≤ bufSize) :
    (onePkt mem data).Memory ∧ pktOf (pktBytes (onePkt mem data)) = onePkt mem data := by
  have short : data.length < 256 ^ 8 := by
    unfold bufSize at fits
    omega
  refine boundSendMemory memory short (onePkt mem data) ?_
  rw [boundSendOne mem ne fits,onePkt]
  exact List.mem_singleton_self _

theorem recvPkt (tag : Tag) {pkt : Pkt} (whole : pkt.Memory) (kept : pktOf (pktBytes pkt) = pkt)
    (rest : Stream Tag) : Down.recv ⟨written tag (pktBytes pkt) ++ rest,true⟩ tag = some (pkt,⟨rest,true⟩) := by
  simp only [Down.recv,boundReadWritten tag whole kept rest,pktWhole tag tag whole,decide_true,Bool.and_self]

theorem recvOne {mem : Pkt} (memory : mem.Memory) (tag : Tag) {data : Bytes} (ne : data ≠ [])
    (fits : data.length ≤ bufSize) (rest : Stream Tag) :
    Down.recv ⟨sentPkts tag (boundSend mem data) ++ rest,true⟩ tag = some (onePkt mem data,⟨rest,true⟩) := by
  obtain ⟨whole,kept⟩ := onePktMemory memory ne fits
  rw [sentOne tag mem ne fits,recvPkt tag whole kept]

theorem recvLast {mem : Pkt} (memory : mem.Memory) (tag : Tag) {data : Bytes} (ne : data ≠ [])
    (fits : data.length ≤ bufSize) :
    Down.recv ⟨sentPkts tag (boundSend mem data),true⟩ tag = some (onePkt mem data,⟨[],true⟩) := by
  rw [← List.append_nil (sentPkts tag (boundSend mem data))]
  exact recvOne memory tag ne fits []

theorem onePktInt (mem : Pkt) {x : Int} (low : -2 ^ 31 ≤ x) (high : x < 2 ^ 31) :
    intOf (onePkt mem (intBytes x)).buf = x := intOfBytes low high _

theorem intBytesFits (x : Int) : intBytes x ≠ [] ∧ (intBytes x).length ≤ bufSize := by
  have len := intBytesLength x
  refine ⟨?_,by rw [len]; decide⟩
  intro empty
  rw [empty] at len
  cases len

theorem statFits (st : Stat) : st.bytes ≠ [] ∧ st.bytes.length ≤ bufSize := by
  refine ⟨?_,by rw [st.size]; decide⟩
  intro empty
  have len := st.size
  rw [empty] at len
  cases len

theorem onePktStat (mem : Pkt) (st : Stat) : statOf (onePkt mem st.bytes) = st.bytes := by
  rw [statOf,onePkt]
  exact List.take_left' st.size

/-! What the server makes of one request. -/

theorem settleIdle (env : World W) (server : Server) (down : Stream Tag) (matched : Bool) (world : W) :
    settle env ⟨server,[],down,matched,world⟩ = ⟨server,[],down,matched,world⟩ := by
  apply settleWaits
  have waits : boundRead ([] : Stream Tag) = none := rfl
  simp only [Host.step,waits]
  split <;> rfl

theorem kindOfOpcode (kind : Kind) : kindOf (opcodeOf kind) = some kind := by cases kind <;> rfl

theorem opcodeSmall (kind : Kind) : opcodeOf kind < 256 := by cases kind <;> decide

theorem opcodeOctets {kind : Kind} {opcode : Purpose × Bytes}
    (first : opcode = opcodeShort kind ∨ opcode = opcodeInt kind) :
    opcode.1 = .opcode ∧ opcode.2 ≠ [] ∧ opcode.2.length ≤ threadArgSize ∧
      unle (opcode.2.take 2) = opcodeOf kind := by
  have small := opcodeSmall kind
  rcases first with rfl | rfl
  · refine ⟨rfl,by simp [opcodeShort,le],by rw [opcodeShort,leLength]; decide,?_⟩
    rw [opcodeShort,List.take_of_length_le (by rw [leLength]),unleLe]
    omega
  · refine ⟨rfl,by simp [opcodeInt,le],by rw [opcodeInt,leLength]; decide,?_⟩
    have low : (le 4 (opcodeOf kind)).take 2 = le 2 (opcodeOf kind) := rfl
    rw [opcodeInt,low,unleLe]
    omega

theorem settleOpcode (s : Setting W) {sent kind : Kind} {opcode : Purpose × Bytes}
    (first : opcode = opcodeShort kind ∨ opcode = opcodeInt kind) (more : List (Purpose × Bytes)) (down : Stream Tag)
    (matched : Bool) (world : W) :
    settle s.env ⟨.opcode,requestOctets sent s.mem (opcode :: more),down,matched,world⟩ =
      settle s.env ⟨.path (opcodeOf kind) none,requestOctets sent s.mem more,down,matched && decide (sent = kind),
        world⟩ := by
  obtain ⟨purpose,code,size,value⟩ := opcodeOctets first
  have fits : opcode.2.length ≤ bufSize := Nat.le_trans size (by decide)
  obtain ⟨whole,kept⟩ := onePktMemory s.memory code fits
  have data : ((onePkt s.mem opcode.2).buf.take (onePkt s.mem opcode.2).size).take 2 = opcode.2.take 2 := by
    rw [onePkt,List.take_left' rfl]
  have read : opcodeIn (onePkt s.mem opcode.2) = opcodeOf kind := by
    rw [opcodeIn,data,value]
  have same : decide ((⟨sent,.opcode⟩ : Tag) = ⟨kind,Server.opcode.purpose⟩) = decide (sent = kind) := by
    simp only [Server.purpose,Tag.mk.injEq,and_true]
  have packet (room : Bool) (calls : Bytes → Calls) : serverPacket room calls (onePkt s.mem opcode.2) .opcode =
      ⟨.path (opcodeOf kind) none,some kind,false,[]⟩ := by
    have room : ¬ threadArgSize < (onePkt s.mem opcode.2).size := Nat.not_lt.mpr size
    simp only [serverPacket,if_neg room,read,kindOfOpcode]
  have octets : requestOctets sent s.mem (opcode :: more) =
      written ⟨sent,.opcode⟩ (pktBytes (onePkt s.mem opcode.2)) ++ requestOctets sent s.mem more := by
    simp only [requestOctets,List.flatMap_cons,purpose,sentOne _ s.mem code fits]
  rw [octets,settlePkt (by simp) whole kept (packet _ _),same]
  simp only [List.flatMap_nil,List.append_nil,Bool.false_eq_true,if_false]

theorem settleRequest (s : Setting W) {sent kind : Kind} {opcode : Purpose × Bytes}
    (first : opcode = opcodeShort kind ∨ opcode = opcodeInt kind) {path : Bytes} (ne : path ≠ [])
    (short : path.length < 256 ^ 8) (more : List (Purpose × Bytes)) (down : Stream Tag) (matched : Bool)
    {world : W} (room : s.env.room world = true) :
    settle s.env ⟨.opcode,requestOctets sent s.mem (opcode :: (.path,path) :: more),down,matched,world⟩ =
      settle s.env (dispatched s.env kind (cString path) (requestOctets sent s.mem more) down
        (matched && decide (sent = kind)) world) := by
  have same : decide ((⟨sent,.path⟩ : Tag) = ⟨kind,.path⟩) = decide (sent = kind) := by
    simp only [Tag.mk.injEq,and_true]
  have octets : requestOctets sent s.mem ((.path,path) :: more) =
      sentPkts ⟨sent,.path⟩ (sendLoop s.mem path.length path) ++ requestOctets sent s.mem more := rfl
  rw [settleOpcode s first,octets,settlePath s.memory (kindOfOpcode kind) (fun _ => room) ne short,same,
    Option.getD_none,
    List.nil_append,Bool.and_assoc,
    Bool.and_self]

theorem settleFull (s : Setting W) {kind : Kind} {opcode : Purpose × Bytes}
    (first : opcode = opcodeShort kind ∨ opcode = opcodeInt kind) {path : Bytes} (ne : path ≠ [])
    (short : path.length < 256 ^ 8) (more : List (Purpose × Bytes)) {world : W} (full : s.env.room world = false) :
    ∃ up, settle s.env ⟨.opcode,requestOctets kind s.mem (opcode :: (.path,path) :: more),[],true,world⟩ =
      ⟨.crashed,up,[],true,world⟩ := by
  have octets : requestOctets kind s.mem ((.path,path) :: more) =
      sentPkts ⟨kind,.path⟩ (sendLoop s.mem path.length path) ++ requestOctets kind s.mem more := rfl
  have gone (up down : Stream Tag) (matched : Bool) : settle s.env ⟨.crashed,up,down,matched,world⟩ =
      ⟨.crashed,up,down,matched,world⟩ := settleWaits (by rw [Host.step,if_pos rfl])
  have packet (calls : Bytes → Calls) (pkt : Pkt) :
    serverPacket (s.env.room world) calls pkt (.path (opcodeOf kind) none) =
      ⟨.crashed,some kind,false,[]⟩ := by
    simp only [serverPacket,full,and_self,if_true,kindOfOpcode]
  rw [settleOpcode s first,octets]
  rcases sendLoopSource s.memory ne short with ⟨pkt,last,good,-⟩ | ⟨pkt,next,good,-⟩
  · rw [last,sentPkts,List.flatMap_singleton,settlePkt (by simp) good.memory good.kept (packet _ _)]
    simp only [Server.purpose,List.flatMap_nil,List.append_nil,decide_true,Bool.and_self,Bool.false_eq_true,
      if_false,gone]
    exact ⟨_,rfl⟩
  · rw [next,sentPkts,List.flatMap_cons,List.append_assoc,settlePkt (by simp) good.memory good.kept (packet _ _)]
    simp only [Server.purpose,List.flatMap_nil,List.append_nil,decide_true,Bool.and_self,Bool.false_eq_true,
      if_false,gone]
    exact ⟨_,rfl⟩

theorem settleServed (s : Setting W) {kind : Kind} {opcode : Purpose × Bytes}
    (first : opcode = opcodeShort kind ∨ opcode = opcodeInt kind) {path : Bytes} (ne : path ≠ [])
    (short : path.length < 256 ^ 8) {world : W} (room : s.env.room world = true) {next : Server} {out : List Out}
    (handled : threadHandler (s.env.calls world (cString path)) (cString path) (some kind) = (next,out))
    (done : next.done = true) :
    settle s.env ⟨.opcode,requestOctets kind s.mem [opcode,(.path,path)],[],true,world⟩ =
      ⟨next,[],out.flatMap (Out.octets kind (s.env.calls world (cString path)).mem),true,
        s.env.next world kind (cString path) []⟩ := by
  rw [settleRequest s first ne short _ _ _ room]
  simp only [dispatched,handled,requestOctets,List.flatMap_nil,List.nil_append,decide_true,Bool.and_self,done,if_true]
  exact settleIdle _ _ _ _ _

def outOctets (kind : Kind) (calls : Calls) (out : List Out) : Stream Tag := out.flatMap (Out.octets kind calls.mem)

theorem settleArgument (s : Setting W) (kind : Kind) (purpose : Purpose) {path target data : Bytes} {world : W}
    {calls : Calls} {waiting next : Server} {out : List Out} (ne : path ≠ []) (short : path.length < 256 ^ 8)
    (room : s.env.room world = true) (text : cString path = target) (answers : s.env.calls world target = calls)
    (handled : threadHandler calls target (some kind) = (waiting,[]))
    (reads : waiting = .flags target ∨ waiting = .mode target) (wants : waiting.purpose = purpose)
    (four : data.length = 4)
    (packet : serverPacket (s.env.room world) (s.env.calls world) (onePkt s.mem data) waiting =
      ⟨next,some kind,true,out⟩) :
    settle s.env ⟨.opcode,requestOctets kind s.mem [opcodeShort kind,(.path,path),(purpose,data)],[],true,world⟩ =
      ⟨next,[],outOctets kind calls out,true,s.env.next world kind target data⟩ := by
  subst text answers wants
  have fits : data.length ≤ bufSize := by rw [four]; decide
  have full : data ≠ [] := by
    rintro rfl
    cases four
  obtain ⟨whole,kept⟩ := onePktMemory s.memory full fits
  have arg : (onePkt s.mem data).buf.take 4 = data := List.take_left' four
  have more : requestOctets kind s.mem [(waiting.purpose,data)] =
      written ⟨kind,waiting.purpose⟩ (pktBytes (onePkt s.mem data)) ++ [] := by
    simp only [requestOctets,List.flatMap_cons,List.flatMap_nil,sentOne _ s.mem full fits]
  have awake : waiting ≠ .crashed ∧ waiting.done = false ∧ waiting.pathIn (onePkt s.mem data) = cString path ∧
      waiting.argIn (onePkt s.mem data) = data := by
    rcases reads with rfl | rfl <;> exact ⟨by simp,rfl,rfl,arg⟩
  rw [settleRequest s (.inl rfl) ne short _ _ _ room]
  simp only [dispatched,handled,decide_true,Bool.and_self,List.flatMap_nil,List.append_nil,awake.2.1,Bool.false_eq_true,
    if_false,more]
  rw [← List.append_nil (written _ _),settlePkt awake.1 whole kept packet,settleIdle]
  simp only [awake.2.2.1,awake.2.2.2,decide_true,Bool.and_self,List.nil_append,if_true]
  rfl

/-! One operation on a connection that is in step. -/

theorem stepAnswer (s : Setting W) {client client' : Client} {world : W} {op : Op} {reply : Reply}
    (asks : client.op op = (client',.answer reply)) :
    (synced client world).step s op = (synced client' world,some reply) := by
  simp only [Link.step,synced,Bool.false_eq_true,if_false,asks]

theorem stepCrash (s : Setting W) {client client' : Client} (world : W) {op : Op}
    (asks : client.op op = (client',.crash)) :
    ((synced client world).step s op).1.stuck = true ∧ ((synced client world).step s op).2 = none := by
  simp only [Link.step,synced,Bool.false_eq_true,if_false,asks,and_self]

theorem stepExchange (s : Setting W) {client client' : Client} {world : W} {op : Op}
    {requests : List (Purpose × Bytes)} {receive : Receive}
    (asks : client.op op = (client',.exchange requests receive)) :
    (synced client world).step s op =
      let host := settle s.env ⟨.opcode,requestOctets op.kind s.mem requests,[],true,world⟩
      received client' host (receive ⟨host.down,host.matched⟩) := by
  simp only [Link.step,synced,Bool.false_eq_true,if_false,asks,List.nil_append]

theorem stepServed (s : Setting W) {client client' : Client} {world : W} {op : Op} {opcode : Purpose × Bytes}
    {path target : Bytes} {receive : Receive} {calls : Calls} {next : Server} {out : List Out}
    (asks : client.op op = (client',.exchange [opcode,(.path,path)] receive))
    (first : opcode = opcodeShort op.kind ∨ opcode = opcodeInt op.kind) (ne : path ≠ [])
    (short : path.length < 256 ^ 8) (room : s.env.room world = true) (text : cString path = target)
    (answers : s.env.calls world target = calls)
    (handled : threadHandler calls target (some op.kind) = (next,out)) (done : next.done = true) :
    (synced client world).step s op =
      received client' ⟨next,[],outOctets op.kind calls out,true,s.env.next world op.kind target []⟩
        (receive ⟨outOctets op.kind calls out,true⟩) := by
  subst text answers
  rw [stepExchange s asks,settleServed s first ne short room handled done]
  rfl

theorem stepFull (s : Setting W) {client client' : Client} {world : W} {op : Op} {opcode : Purpose × Bytes}
    {path : Bytes} {more : List (Purpose × Bytes)} {receive : Receive}
    (asks : client.op op = (client',.exchange (opcode :: (.path,path) :: more) receive))
    (first : opcode = opcodeShort op.kind ∨ opcode = opcodeInt op.kind) (ne : path ≠ [])
    (short : path.length < 256 ^ 8) (full : s.env.room world = false) :
    ∃ up, (synced client world).step s op = received client' ⟨.crashed,up,[],true,world⟩ (receive ⟨[],true⟩) := by
  obtain ⟨up,settled⟩ := settleFull s first ne short more full
  refine ⟨up,?_⟩
  rw [stepExchange s asks]
  simp only [settled]

theorem goneUnclean {link : Link W} (gone : link.host.server = .crashed) : ¬ link.Clean := by
  intro clean
  cases clean.idle.symm.trans gone

theorem stuckUnclean {link : Link W} (stuck : link.stuck = true) : ¬ link.Clean := by
  intro clean
  cases clean.going.symm.trans stuck

theorem receivedGone (client : Client) {host : Host W} (gone : host.server = .crashed)
    (got : Option (Option Reply × Down)) :
    (received client host got).1.host.server = .crashed := by
  rcases got with - | ⟨reply,d⟩ <;> exact gone

theorem pathSent (path : Path) : path.bytes ≠ [] ∧ path.bytes.length < 256 ^ 8 ∧ cString path.bytes = path.bytes := by
  have short := path.short
  exact ⟨path.ne,by omega,cStringSelf path.noNul⟩

theorem pathNulSent (path : Path) : path.bytes ++ [0] ≠ [] ∧ (path.bytes ++ [0]).length < 256 ^ 8 ∧
    cString (path.bytes ++ [0]) = path.bytes := by
  have short := path.short
  refine ⟨by simp,?_,cStringAppend path.noNul []⟩
  rw [List.length_append,List.length_singleton]
  omega

/-! What the handler of the client makes of what the handler of the server sent. -/

theorem readResultInt (mem : Pkt) (x : Int) : readResult (onePkt mem (intBytes x)) = 4 := by
  simp only [readResult,onePkt,intBytesLength]
  decide

theorem readResultStat (mem : Pkt) (st : Stat) : readResult (onePkt mem st.bytes) = 144 := by
  simp only [readResult,onePkt,st.size]
  decide

theorem lookupReceived (calls : Calls) :
    lookupReceive ⟨outOctets .lookup calls (NetServer.fuseStudyLookup calls),true⟩ =
      if calls.access = none then
        some (some (.entry (stIno (fileAttr calls).bytes) (fileAttr calls).bytes),⟨[],true⟩)
      else some (some (.err enoent),⟨sentPkts ⟨.lookup,.stat⟩ (boundSend calls.mem (fileAttr calls).bytes),true⟩) := by
  have flagFits := intBytesFits (if calls.access = none then 1 else 0)
  have attrFits := statFits (fileAttr calls)
  have attr := onePktStat calls.mem (fileAttr calls)
  simp only [outOctets,NetServer.fuseStudyLookup,List.flatMap_cons,List.flatMap_nil,List.append_nil,Out.octets]
  rw [lookupReceive,recvOne calls.memory _ flagFits.1 flagFits.2]
  by_cases found : calls.access = none
  · have flag := onePktInt calls.mem (x := 1) (by decide) (by decide)
    have last := recvLast calls.memory ⟨.lookup,.stat⟩ attrFits.1 attrFits.2
    simp only [if_pos found,flag,last,attr,if_true]
  · have flag := onePktInt calls.mem (x := 0) (by decide) (by decide)
    simp only [if_neg found,flag,if_neg (show ¬ (0 : Int) = 1 by decide)]
    rfl

theorem errnoNegative (e : Errno) :
    (-2 ^ 31 ≤ -(e.value : Int) ∧ -(e.value : Int) < 2 ^ 31) ∧ -(e.value : Int) ≠ 0 ∧
      fuseReplyErr (- -(e.value : Int)) = .err e.value := by
  have known := e.known
  simp only [knownErrno,Bool.and_eq_true,decide_eq_true_eq] at known
  refine ⟨by omega,by omega,?_⟩
  rw [Int.neg_neg,fuseReplyErr,if_pos (Or.inr ⟨by omega,by rw [Int.toNat_natCast]; exact e.known⟩),Int.toNat_natCast]

theorem recvInt {mem : Pkt} (memory : mem.Memory) (tag : Tag) {x : Int} (range : -2 ^ 31 ≤ x ∧ x < 2 ^ 31) :
    ∃ pkt, Down.recv ⟨sentPkts tag (boundSend mem (intBytes x)),true⟩ tag = some (pkt,⟨[],true⟩) ∧
      intOf pkt.buf = x ∧ readResult pkt = 4 := by
  have fits := intBytesFits x
  exact ⟨_,recvLast memory tag fits.1 fits.2,onePktInt mem range.1 range.2,readResultInt mem x⟩

theorem getattrReceived (calls : Calls) (packet : calls.calloc = true)
    (room : ∀ st, calls.lstat = .ok st → calls.statCalloc = true) :
    ∃ out, NetServer.fuseStudyGetattr calls = (.opcode,out) ∧
      getattrReceive ⟨outOctets .getattr calls out,true⟩ = some (some (match calls.lstat with
        | .ok st => .attr st.bytes
        | .error e => .err e.value),⟨[],true⟩) := by
  have goes : ¬ (!calls.calloc) = true := by rw [packet]; decide
  rw [NetServer.fuseStudyGetattr,if_neg goes]
  cases looked : calls.lstat with
  | error e =>
    obtain ⟨range,nonzero,reply⟩ := errnoNegative e
    obtain ⟨pkt,got,value,size⟩ := recvInt calls.memory ⟨.getattr,.result⟩ range
    refine ⟨_,rfl,?_⟩
    simp only [outOctets,List.flatMap_cons,List.flatMap_nil,List.append_nil,Out.octets]
    rw [getattrReceive,got]
    simp only [size,value,nonzero,reply,if_neg (show ¬ (4 : Int) ≤ 0 by decide),ne_eq,not_false_eq_true,if_true]
  | ok st =>
    have fits := intBytesFits 0
    have attrFits := statFits st
    have first := onePktInt calls.mem (x := 0) (by decide) (by decide)
    have last := recvLast calls.memory ⟨.getattr,.stat⟩ attrFits.1 attrFits.2
    have size : (onePkt calls.mem st.bytes).size = statSize := st.size
    refine ⟨_,if_pos (room st looked),?_⟩
    simp only [outOctets,List.flatMap_cons,List.flatMap_nil,List.append_nil,Out.octets]
    rw [getattrReceive,recvOne calls.memory _ fits.1 fits.2]
    simp only [readResultInt,first,last,readResultStat,size,onePktStat,Nat.lt_irrefl,
      if_neg (show ¬ (4 : Int) ≤ 0 by decide),if_neg (show ¬ ((144 : Int) ≤ 0 ∨ False) by decide),ne_eq,
      not_true_eq_false,if_false]

theorem nothingReceived (tag : Tag) : Down.recv ⟨[],true⟩ tag = none := rfl

theorem getattrGone {calls : Calls} (packet : calls.calloc = true) {st : Stat} (looked : calls.lstat = .ok st)
    (short : calls.statCalloc = false) :
    NetServer.fuseStudyGetattr calls = (.crashed,[.pkts .result (intBytes 0)]) := by
  rw [NetServer.fuseStudyGetattr,packet]
  simp only [looked,short]
  rfl

theorem openReceived (calls : Calls) (flags : BitVec 32) (pkt : Pkt) (size : ¬ pkt.size < 4)
    (given : BitVec.ofInt 32 (intOf pkt.buf) = flags) :
    openReceive flags ⟨outOctets .open calls (NetServer.fuseStudyOpen calls pkt),true⟩ =
      some (some (match calls.openFd (flags &&& ~~~(oCreat ||| oExcl)) with
        | none => .opened flags
        | some e => .err e.value),⟨[],true⟩) := by
  simp only [outOctets,NetServer.fuseStudyOpen,if_neg size,given,List.flatMap_cons,List.flatMap_nil,List.append_nil,
    Out.octets]
  cases opened : calls.openFd (flags &&& ~~~(oCreat ||| oExcl)) with
  | none =>
    obtain ⟨pkt,got,value,size⟩ := recvInt (x := 0) calls.memory ⟨.open,.result⟩ ⟨by decide,by decide⟩
    rw [openReceive,errnoResult,got]
    simp only [size,value,if_neg (show ¬ (4 : Int) ≤ 0 by decide),ne_eq,not_true_eq_false,if_false]
  | some e =>
    obtain ⟨range,nonzero,reply⟩ := errnoNegative e
    obtain ⟨pkt,got,value,size⟩ := recvInt calls.memory ⟨.open,.result⟩ range
    rw [openReceive,errnoResult,got]
    simp only [size,value,nonzero,reply,if_neg (show ¬ (4 : Int) ≤ 0 by decide),ne_eq,not_false_eq_true,if_true]

theorem createReceived (calls : Calls) :
    createReceive ⟨outOctets .create calls (NetServer.fuseStudyCreate calls),true⟩ =
      match calls.openCreate with
      | some _ => none
      | none => some
          (some (.created (stIno (fileAttr calls).bytes) (createAttr (fileAttr calls).bytes)),⟨[],true⟩) := by
  cases opened : calls.openCreate with
  | some e =>
    simp only [outOctets,NetServer.fuseStudyCreate,opened,List.flatMap_nil]
    rfl
  | none =>
    have attrFits := statFits (fileAttr calls)
    have last := recvLast calls.memory ⟨.create,.stat⟩ attrFits.1 attrFits.2
    simp only [outOctets,NetServer.fuseStudyCreate,opened,List.flatMap_cons,List.flatMap_nil,List.append_nil,Out.octets]
    rw [createReceive,last]
    simp only [onePktStat]

def eperm : Nat := 1

theorem rmdirReceived (calls : Calls) :
    rmdirReceive ⟨outOctets .rmdir calls [.pkts .result (intBytes (callResult calls.rmdir))],true⟩ =
      some (some (.err (if calls.rmdir = none then 0 else eperm)),⟨[],true⟩) := by
  simp only [outOctets,List.flatMap_cons,List.flatMap_nil,List.append_nil,Out.octets]
  by_cases removed : calls.rmdir = none
  · obtain ⟨pkt,got,value,size⟩ := recvInt (x := 0) calls.memory ⟨.rmdir,.result⟩ ⟨by decide,by decide⟩
    rw [callResult,if_pos removed,rmdirReceive,got]
    simp only [value,removed,if_true]
    rfl
  · obtain ⟨pkt,got,value,size⟩ := recvInt (x := -1) calls.memory ⟨.rmdir,.result⟩ ⟨by decide,by decide⟩
    rw [callResult,if_neg removed,rmdirReceive,got]
    simp only [value,if_neg removed,if_neg (show ¬ (-1 : Int) = 0 by decide)]
    rfl

/- The contents of a file, by induction on what is still to come. -/
theorem readLoopSent {mem : Pkt} (memory : mem.Memory) {totalSize : Nat} (short : totalSize < 256 ^ 8)
    {data remain : Bytes} (ne : remain ≠ []) :
    readLoop data ⟨sentPkts ⟨.read,.content⟩ (sendLoop mem totalSize remain),true⟩ =
      some (data ++ remain,⟨[],true⟩) := by
  induction len : remain.length using Nat.strongRecOn generalizing mem data remain with
  | ind n ih =>
    rcases sendLoopSource memory ne short with ⟨pkt,last,good,fin⟩ | ⟨pkt,first,good,fin,tail,fewer⟩
    · have got := recvPkt ⟨.read,.content⟩ good.memory good.kept []
      rw [List.append_nil] at got
      rw [last,sentPkts,List.flatMap_singleton,readLoop]
      split
      · rename_i waits
        cases waits.symm.trans got
      · rename_i read
        cases read.symm.trans got
        simp only [fin,if_true,good.data]
    · have got := recvPkt ⟨.read,.content⟩ good.memory good.kept
        (sentPkts ⟨.read,.content⟩ (sendLoop pkt totalSize (remain.drop bufSize)))
      have later := @ih _ (len ▸ fewer) _ good.memory (data ++ remain.take bufSize) (remain.drop bufSize) tail rfl
      rw [List.append_assoc,List.take_append_drop] at later
      rw [first,sentPkts,List.flatMap_cons,readLoop]
      split
      · rename_i waits
        cases waits.symm.trans got
      · rename_i read
        cases read.symm.trans got
        simp only [fin,Nat.zero_ne_one,if_false,good.data]
        exact later

theorem readReceived (calls : Calls) (file : Block) (ne : file.bytes ≠ []) :
    readReceive ⟨outOctets .read calls [.pkts .content file.bytes],true⟩ = some (some (.buf file.bytes),⟨[],true⟩) := by
  have short := file.short
  simp only [outOctets,List.flatMap_cons,List.flatMap_nil,List.append_nil,Out.octets,readReceive,boundSend]
  rw [readLoopSent calls.memory (by omega) ne]
  simp only [List.nil_append]

theorem readWaits (calls : Calls) : readReceive ⟨outOctets .read calls [.pkts .content []],true⟩ = none := by
  simp only [outOctets,List.flatMap_cons,List.flatMap_nil,List.append_nil,Out.octets,boundSendEmpty]
  rw [readReceive,readLoop]
  rfl

theorem shiftedInt {mem : Pkt} (memory : mem.Memory) (x : Int) (st : Stat) :
    intOf (pktOf ((intBytes x ++ pktBytes (onePkt mem st.bytes)).take pktSize)).buf = 0 := by
  have upper : (pktBytes (onePkt mem st.bytes)).drop 20 = (le 8 144).drop 4 ++ (onePkt mem st.bytes).buf := by
    have total : (onePkt mem st.bytes).totalSize = 144 := st.size
    have pad : (onePkt mem st.bytes).pad.length = 4 := memory.pad
    rw [pktBytes,dropPast 4 16 _ (leLength 4 _),dropPast 4 12 _ pad,dropPast 8 4 _ (leLength 8 _),total]
    rfl
  have word : (pktOf ((intBytes x ++ pktBytes (onePkt mem st.bytes)).take pktSize)).buf.take 4 = [0,0,0,0] := by
    change ((List.take pktSize _).drop 24).take 4 = _
    rw [List.drop_take,List.take_take,dropPast 4 20 _ (intBytesLength x),upper]
    rfl
  rw [intOf,word]
  decide

theorem recvShort {queue : Stream Tag} (few : queue.length < pktSize) (matched : Bool) (tag : Tag) :
    Down.recv ⟨queue,matched⟩ tag = none := by
  rw [Down.recv,boundRead,if_pos few]

theorem mkdirWaits (calls : Calls) (pkt : Pkt) : ∃ next out, NetServer.fuseStudyMkdir calls pkt = (next,out) ∧
    mkdirReceive ⟨outOctets .mkdir calls out,true⟩ = none := by
  have bare (x : Int) : (written (⟨.mkdir,.result⟩ : Tag) (intBytes x)).length = 4 := by
    rw [writtenLength,intBytesLength]
  -- the result alone
  have alone (x : Int) : mkdirReceive ⟨outOctets .mkdir calls [.raw .result (intBytes x)],true⟩ = none := by
    simp only [outOctets,List.flatMap_cons,List.flatMap_nil,List.append_nil,Out.octets]
    rw [mkdirReceive,recvShort (by rw [bare]; decide)]
  rw [NetServer.fuseStudyMkdir]
  cases made : calls.mkdir (unle (pkt.buf.take 4)) with
  | some e => exact ⟨_,_,rfl,alone _⟩
  | none =>
    have few := bare (callResult none)
    cases looked : calls.stat with
    | error e => exact ⟨_,_,rfl,alone _⟩
    | ok st =>
      cases room : calls.statCalloc with
      | false => exact ⟨_,_,rfl,alone _⟩
      | true =>
        have fits := statFits st
        obtain ⟨whole,kept⟩ := onePktMemory calls.memory fits.1 fits.2
        have len := pktBytesLength whole
        have size : (written (⟨.mkdir,.result⟩ : Tag) (intBytes (callResult none)) ++
            written (⟨.mkdir,.stat⟩ : Tag) (pktBytes (onePkt calls.mem st.bytes))).length = pktSize + 4 := by
          rw [List.length_append,few,writtenLength,len]
          rfl
        have zero := shiftedInt calls.memory (callResult none) st
        refine ⟨_,_,rfl,?_⟩
        simp only [outOctets,List.flatMap_cons,List.flatMap_nil,List.append_nil,Out.octets,sentOne _ _ fits.1 fits.2]
        rw [mkdirReceive,Down.recv,boundRead,if_neg (by rw [size]; omega)]
        simp only [List.map_take,List.map_append,writtenBytes,zero,if_true]
        rw [recvShort (by rw [List.length_drop,size]; decide)]

/-! A listing. The client reads an entry's three packets before it knows whether the entry
still fits. -/

theorem readdirLoopEnd {size : Nat} {off : Int} {current : Nat} {buffer : Bytes} {d d₁ : Down} {flag : Pkt}
    (got : d.recv ⟨.readdir,.flag⟩ = some (flag,d₁)) (zero : intOf flag.buf = 0) :
    readdirLoop size off current buffer d = some (buffer,d₁) := by
  rw [readdirLoop]
  split
  · rename_i waits
    cases waits.symm.trans got
  · rename_i read
    cases read.symm.trans got
    rw [if_pos zero]

theorem readdirLoopEntry {size : Nat} {off : Int} {current : Nat} {buffer : Bytes} {d d₁ d₂ d₃ : Down}
    {flag name st : Pkt} (gotFlag : d.recv ⟨.readdir,.flag⟩ = some (flag,d₁)) (nonzero : intOf flag.buf ≠ 0)
    (gotName : d₁.recv ⟨.readdir,.name⟩ = some (name,d₂)) (gotStat : d₂.recv ⟨.readdir,.stat⟩ = some (st,d₃)) :
    readdirLoop size off current buffer d =
      if off ≤ current then
        let entry := fuseAddDirentry (size - buffer.length) (cString name.buf) (statOf st) (current + 1)
        if size - buffer.length < entry.1 then some (buffer,d₃)
        else readdirLoop size off (current + 1) (buffer ++ entry.2) d₃
      else readdirLoop size off (current + 1) buffer d₃ := by
  rw [readdirLoop]
  split
  · rename_i waits
    cases waits.symm.trans gotFlag
  · rename_i read
    cases read.symm.trans gotFlag
    rw [if_neg nonzero]
    split
    · rename_i waits
      cases waits.symm.trans gotName
    · rename_i read
      cases read.symm.trans gotName
      split
      · rename_i waits
        cases waits.symm.trans gotStat
      · rename_i read
        cases read.symm.trans gotStat
        rfl

def direntLen (name : Bytes) : Nat := (nameOffset + name.length + 7) / 8 * 8

theorem fuseAddDirentryLen (bufsize : Nat) (name st : Bytes) (off : Nat) :
    (fuseAddDirentry bufsize name st off).1 = direntLen name ∧
      (direntLen name ≤ bufsize → (fuseAddDirentry bufsize name st off).2.length = direntLen name) := by
  have len : (fuseAddDirentry bufsize name st off).1 = direntLen name := by
    rw [fuseAddDirentry,direntLen]
    split <;> rfl
  refine ⟨len,?_⟩
  intro fits
  rw [fuseAddDirentry]
  unfold direntLen at *
  simp only [if_neg (Nat.not_lt.mpr fits),List.length_append,leLength,List.length_replicate]
  unfold nameOffset
  omega

theorem octetsNe {mem : Pkt} (memory : mem.Memory) (tag : Tag) {data : Bytes} (ne : data ≠ [])
    (fits : data.length ≤ bufSize) (rest : Stream Tag) : sentPkts tag (boundSend mem data) ++ rest ≠ [] := by
  intro empty
  have got := recvOne memory tag ne fits rest
  rw [empty] at got
  cases got

def listing (des : List Dirent) : List Out := des.flatMap direntOut ++ [.pkts .flag (intBytes 0)]

def listed (des : List Dirent) : Nat := (des.map (fun de => direntLen de.name)).sum

theorem listingOctets (calls : Calls) (des : List Dirent) : outOctets .readdir calls (listing des) ≠ [] := by
  have first := intBytesFits 1
  have last := intBytesFits 0
  cases des with
  | nil => exact octetsNe calls.memory ⟨.readdir,.flag⟩ last.1 last.2 []
  | cons de des => exact octetsNe calls.memory ⟨.readdir,.flag⟩ first.1 first.2 _

/- What the client leaves in the queue, by induction on the entries. -/
theorem readdirLoopSent (calls : Calls) {size : Nat} {off : Int} {des : List Dirent} {current : Nat} {buffer : Bytes}
    (room : buffer.length ≤ size) :
    ∃ buffer' rest, readdirLoop size off current buffer ⟨outOctets .readdir calls (listing des),true⟩ =
      some (buffer',⟨rest,true⟩) ∧
      (rest = [] ↔ listed (des.drop (off - current).toNat) ≤ size - buffer.length) := by
  induction des generalizing current buffer with
  | nil =>
    have fits := intBytesFits 0
    have last := recvLast calls.memory ⟨.readdir,.flag⟩ fits.1 fits.2
    have zero := onePktInt calls.mem (x := 0) (by decide) (by decide)
    refine ⟨buffer,[],?_,by simp [listed]⟩
    simp only [outOctets,listing,List.flatMap_nil,List.nil_append,List.flatMap_cons,List.append_nil,Out.octets]
    exact readdirLoopEnd last zero
  | cons de des ih =>
    have entry : outOctets .readdir calls (listing (de :: des)) =
        sentPkts ⟨.readdir,.flag⟩ (boundSend calls.mem (intBytes 1)) ++
          (sentPkts ⟨.readdir,.name⟩ (boundSend calls.mem (de.name ++ [0])) ++
            (sentPkts ⟨.readdir,.stat⟩ (boundSend calls.mem (direntStat de).bytes) ++
              outOctets .readdir calls (listing des))) := by
      simp only [outOctets,listing,direntOut,List.flatMap_cons,List.cons_append,List.nil_append,Out.octets]
    have flagFits := intBytesFits 1
    have nameFits : de.name ++ [0] ≠ [] ∧ (de.name ++ [0]).length ≤ bufSize := by
      have short := de.short
      refine ⟨by simp,?_⟩
      rw [List.length_append,List.length_singleton]
      unfold bufSize
      omega
    have statFits := statFits (direntStat de)
    have gotFlag := recvOne calls.memory ⟨.readdir,.flag⟩ flagFits.1 flagFits.2
    have gotName := recvOne calls.memory ⟨.readdir,.name⟩ nameFits.1 nameFits.2
    have gotStat := recvOne calls.memory ⟨.readdir,.stat⟩ statFits.1 statFits.2
    have one := onePktInt calls.mem (x := 1) (by decide) (by decide)
    have name : cString (onePkt calls.mem (de.name ++ [0])).buf = de.name := by
      rw [onePkt,List.append_assoc]
      exact cStringAppend de.noNul _
    have loop (st : Bytes) := fuseAddDirentryLen (size - buffer.length) de.name st (current + 1)
    rw [entry,readdirLoopEntry (gotFlag _) (by rw [one]; decide) (gotName _) (gotStat _),name]
    by_cases reached : off ≤ current
    · have here : (off - current).toNat = 0 := by omega
      have next : (off - (current + 1 : Nat)).toNat = 0 := by omega
      simp only [if_pos reached,here,List.drop_zero,(loop _).1]
      by_cases fits : direntLen de.name ≤ size - buffer.length
      · have grown : (buffer ++ (fuseAddDirentry (size - buffer.length) de.name
            (statOf (onePkt calls.mem (direntStat de).bytes)) (current + 1)).2).length =
            buffer.length + direntLen de.name := by
          rw [List.length_append,(loop _).2 fits]
        obtain ⟨buffer',rest,done,empty⟩ := @ih (current + 1) (buffer ++ (fuseAddDirentry (size - buffer.length)
          de.name (statOf (onePkt calls.mem (direntStat de).bytes)) (current + 1)).2) (by rw [grown]; omega)
        refine ⟨buffer',rest,?_,?_⟩
        · rw [if_neg (Nat.not_lt.mpr fits)]
          exact done
        · rw [empty,grown,next,List.drop_zero,listed,listed,List.map_cons,List.sum_cons]
          omega
      · refine ⟨buffer,_,if_pos (Nat.lt_of_not_le fits),?_⟩
        rw [listed,List.map_cons,List.sum_cons]
        constructor
        · intro empty
          exact absurd empty (listingOctets calls des)
        · intro small
          omega
    · have here : (off - current).toNat = (off - (current + 1 : Nat)).toNat + 1 := by omega
      obtain ⟨buffer',rest,done,empty⟩ := @ih (current + 1) buffer room
      refine ⟨buffer',rest,?_,?_⟩
      · rw [if_neg reached]
        exact done
      · rw [empty,here,List.drop_succ_cons]

/- The server's answer to a listing, an error being an empty one. -/
theorem readdirReceived (calls : Calls) (packet : calls.calloc = true) (size : Nat) (off : Int) :
    ∃ out buffer rest, NetServer.fuseStudyReaddir calls = (.opcode,out) ∧
      readdirReceive size off ⟨outOctets .readdir calls out,true⟩ = some (some (.buf buffer),⟨rest,true⟩) ∧
      outOctets .readdir calls out ≠ [] ∧
      (rest = [] ↔ ∀ des, calls.opendir = .ok des → listed (des.drop off.toNat) ≤ size) := by
  have goes : ¬ (!calls.calloc) = true := by rw [packet]; decide
  rw [NetServer.fuseStudyReaddir,if_neg goes]
  cases opened : calls.opendir with
  | error e =>
    obtain ⟨buffer,rest,done,empty⟩ := @readdirLoopSent calls size off [] 0 [] (Nat.zero_le size)
    refine ⟨_,buffer,rest,rfl,?_,listingOctets calls [],?_⟩
    · simp only [listing,List.flatMap_nil,List.nil_append] at done
      simp only [readdirReceive,done]
    · rw [empty]
      simp [listed]
  | ok des =>
    obtain ⟨buffer,rest,done,empty⟩ := @readdirLoopSent calls size off des 0 [] (Nat.zero_le size)
    refine ⟨_,buffer,rest,rfl,?_,listingOctets calls des,?_⟩
    · simp only [listing] at done
      simp only [readdirReceive,done]
    · rw [empty]
      simp

/- Without a packet of its own the server is gone before it has sent any. -/
end FuseStudy.NetLink
