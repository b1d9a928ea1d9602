import FuseStudy.NetServer

/-! The request handlers of source/fuse_study.c. A handler either answers by itself or sends
the packets of one request and then reads the packets of its answer. What memory lies past
the end of a buffer, which only a shifted stream reaches, is left out. -/
namespace FuseStudy.NetClient
open CString (Bytes)
open NetPacket NetServer

structure Name where
  bytes : Bytes
  noNul : 0 ∉ bytes
  short : bytes.length < 2 ^ 63
  deriving Repr

theorem Name.same {a b : Name} (bytes : a.bytes = b.bytes) : a = b := by
  cases a
  cases b
  cases bytes
  rfl

instance : DecidableEq Name := fun a b => decidable_of_iff (a.bytes = b.bytes) ⟨Name.same,congrArg Name.bytes⟩

structure Path extends Name where
  ne : bytes ≠ []
  deriving DecidableEq, Repr

structure Client where
  path : Option Path
  deriving DecidableEq, Repr

def rootId : Nat := 1
def enoent : Nat := 2
def enomem : Nat := 12
def erange : Nat := 34

/- calloc and malloc: whether the call finds memory. memory is what lies at buf of write, of
which size bytes are the data. -/
inductive Op where
  | lookup (parent : Nat) (name : Name)
  | getattr (ino : Nat)
  | readdir (ino size : Nat) (off : Int) (calloc malloc : Bool)
  | open (ino : Nat) (flags : BitVec 32)
  | read (ino size : Nat) (off : Int)
  | create (parent : Nat) (name : Name) (mode : BitVec 32)
  | mkdir (parent : Nat) (name : Name) (mode : BitVec 32)
  | write (ino : Nat) (memory : Block) (size : Nat) (off : Int)
  | unlink (parent : Nat) (name : Name)
  | rmdir (parent : Nat) (name : Name) (calloc : Bool)

def Op.kind : Op → Kind
  | .lookup .. => .lookup
  | .getattr .. => .getattr
  | .readdir .. => .readdir
  | .open .. => .open
  | .read .. => .read
  | .create .. => .create
  | .mkdir .. => .mkdir
  | .write .. => .write
  | .unlink .. => .unlink
  | .rmdir .. => .rmdir

/- rootAttr: the attributes made up for the root, which hold the time and the user. written:
the answer to a write, which no handler gives. -/
inductive Reply where
  | err (errno : Nat)
  | entry (ino : Nat) (attr : Bytes)
  | attr (st : Bytes)
  | rootAttr
  | opened (flags : BitVec 32)
  | created (ino : Nat) (attr : Bytes)
  | buf (bytes : Bytes)
  | written (count : Nat)
  deriving DecidableEq, Repr

/- fuse_reply_err, with the check of fuse_send_reply_iov_nofree. -/
def fuseReplyErr (err : Int) : Reply :=
  if err = 0 ∨ (0 < err ∧ knownErrno err.toNat) then .err err.toNat else .err erange

/- What the client reads from, as it goes through the packets of an answer. -/
structure Down where
  queue : Stream Tag
  matched : Bool
  deriving DecidableEq, Repr

def Down.recv (d : Down) (tag : Tag) : Option (Pkt × Down) :=
  match boundRead d.queue with
  | none => none
  | some (pkt,octets,rest) => some (pkt,⟨rest,d.matched && Whole tag pktSize octets⟩)

theorem Down.recvShorter {d d' : Down} {tag : Tag} {pkt : Pkt} (got : d.recv tag = some (pkt,d')) :
    d'.queue.length < d.queue.length := by
  unfold Down.recv at got
  split at got
  · contradiction
  · rename_i read
    cases Option.some.inj got
    exact boundReadShorter read

/- none: waits for bytes. The reply is none where the handler ends without one. -/
abbrev Receive := Down → Option (Option Reply × Down)

/- crash: strlen of the NULL in _path. -/
inductive Action where
  | crash
  | answer (reply : Reply)
  | exchange (requests : List (Purpose × Bytes)) (receive : Receive)

def opcodeShort (kind : Kind) : Purpose × Bytes := (.opcode,le 2 (opcodeOf kind))
def opcodeInt (kind : Kind) : Purpose × Bytes := (.opcode,le 4 (opcodeOf kind))

/- What bound_read returns: size as an int. -/
def readResult (pkt : Pkt) : Int := intOf (le 8 pkt.size)

def statSize : Nat := 144

def statOf (pkt : Pkt) : Bytes := pkt.buf.take statSize

def stIno (st : Bytes) : Nat := unle ((st.drop 8).take 8)
def stNlink (st : Bytes) : Bytes := (st.drop 16).take 8
def stMode (st : Bytes) : Nat := unle ((st.drop 24).take 4)
def stOwner (st : Bytes) : Bytes := (st.drop 28).take 8
def stSize (st : Bytes) : Bytes := (st.drop 48).take 8

def dotSlash : Path := ⟨⟨[46,47],by decide,by decide⟩,by decide⟩

def lookupPath (name : Name) : Path := if empty : name.bytes = [] then dotSlash else ⟨name,empty⟩

def lookupReceive (d : Down) : Option (Option Reply × Down) :=
  match d.recv ⟨.lookup,.flag⟩ with
  | none => none
  | some (flag,d) =>
    if intOf flag.buf = 1 then
      match d.recv ⟨.lookup,.stat⟩ with
      | none => none
      | some (st,d) => some (some (.entry (stIno (statOf st)) (statOf st)),d)
    else some (some (fuseReplyErr enoent),d)

def fuseStudyLookup (name : Name) : Client × Action :=
  let path := lookupPath name
  (⟨some path⟩,.exchange [opcodeShort .lookup,(.path,path.bytes)] lookupReceive)

def getattrReceive (d : Down) : Option (Option Reply × Down) :=
  match d.recv ⟨.getattr,.result⟩ with
  | none => none
  | some (res,d) =>
    if readResult res ≤ 0 then some (some (fuseReplyErr eio),d)
    else if intOf res.buf ≠ 0 then some (some (fuseReplyErr (-intOf res.buf)),d)
    else match d.recv ⟨.getattr,.stat⟩ with
      | none => none
      | some (st,d) =>
        if readResult st ≤ 0 ∨ st.size < statSize then some (some (fuseReplyErr eio),d)
        else some (some (.attr (statOf st)),d)

def fuseStudyGetattr (client : Client) (ino : Nat) : Action :=
  if ino = rootId then .answer .rootAttr
  else match client.path with
    | none => .answer (fuseReplyErr enoent)
    | some path => .exchange [opcodeShort .getattr,(.path,path.bytes ++ [0])] getattrReceive

def nameOffset : Nat := 24

/- fuse_add_direntry: the padded length, and the bytes it writes where they fit. -/
def fuseAddDirentry (bufsize : Nat) (name st : Bytes) (off : Nat) : Nat × Bytes :=
  let entlen := nameOffset + name.length
  let padded := (entlen + 7) / 8 * 8
  if bufsize < padded then (padded,[])
  else (padded,le 8 (stIno st) ++ (le 8 off ++ (le 4 name.length ++ (le 4 (stMode st % 2 ^ 16 / 2 ^ 12) ++
    (name ++ List.replicate (padded - entlen) 0)))))

def readdirLoop (size : Nat) (off : Int) (current : Nat) (buffer : Bytes) (d : Down) : Option (Bytes × Down) :=
  match _flag : d.recv ⟨.readdir,.flag⟩ with
  | none => none
  | some (flag,d₁) =>
    if intOf flag.buf = 0 then some (buffer,d₁)
    else match _name : d₁.recv ⟨.readdir,.name⟩ with
      | none => none
      | some (name,d₂) =>
        match _stat : d₂.recv ⟨.readdir,.stat⟩ with
        | none => none
        | some (st,d₃) =>
          if off ≤ current then
            let entry := fuseAddDirentry (size - buffer.length) (cString name.buf) (statOf st) (current + 1)
            if size - buffer.length < entry.1 then some (buffer,d₃)
            else readdirLoop size off (current + 1) (buffer ++ entry.2) d₃
          else readdirLoop size off (current + 1) buffer d₃
termination_by d.queue.length
decreasing_by
  all_goals
    have := Down.recvShorter _flag
    have := Down.recvShorter _name
    have := Down.recvShorter _stat
    omega

def readdirReceive (size : Nat) (off : Int) (d : Down) : Option (Option Reply × Down) :=
  match readdirLoop size off 0 [] d with
  | none => none
  | some (buffer,d) => some (some (.buf buffer),d)

def readdirPath (client : Client) (ino : Nat) : Path :=
  if ino = rootId then dotSlash else client.path.getD dotSlash

/- A failed malloc is found after the request has gone out. -/
def fuseStudyReaddir (client : Client) (ino size : Nat) (off : Int) (calloc malloc : Bool) : Action :=
  if calloc then
    .exchange [opcodeInt .readdir,(.path,(readdirPath client ino).bytes ++ [0])]
      (if malloc then readdirReceive size off else fun d => some (some (fuseReplyErr enomem),d))
  else .answer (fuseReplyErr enomem)

def openReceive (flags : BitVec 32) (d : Down) : Option (Option Reply × Down) :=
  match d.recv ⟨.open,.result⟩ with
  | none => none
  | some (res,d) =>
    if readResult res ≤ 0 then some (some (fuseReplyErr eio),d)
    else if intOf res.buf ≠ 0 then some (some (fuseReplyErr (-intOf res.buf)),d)
    else some (some (.opened flags),d)

def fuseStudyOpen (client : Client) (flags : BitVec 32) : Action :=
  match client.path with
  | none => .answer (fuseReplyErr enoent)
  | some path =>
    .exchange [opcodeShort .open,(.path,path.bytes ++ [0]),(.flags,le 4 flags.toNat)] (openReceive flags)

def readLoop (data : Bytes) (d : Down) : Option (Bytes × Down) :=
  match _read : d.recv ⟨.read,.content⟩ with
  | none => none
  | some (pkt,d') =>
    if pkt.fin = 1 then some (data ++ pkt.buf.take pkt.size,d')
    else readLoop (data ++ pkt.buf.take pkt.size) d'
termination_by d.queue.length
decreasing_by exact Down.recvShorter _read

def readReceive (d : Down) : Option (Option Reply × Down) :=
  match readLoop [] d with
  | none => none
  | some (data,d) => some (some (.buf data),d)

def fuseStudyRead (client : Client) : Action :=
  match client.path with
  | none => .crash
  | some path => .exchange [opcodeShort .read,(.path,path.bytes)] readReceive

/- Sends the opcode of read and does not reply. -/
def fuseStudyWrite (client : Client) (memory : Block) : Action :=
  match client.path with
  | none => .crash
  | some path =>
    .exchange [opcodeShort .read,(.path,path.bytes),(.data,cString memory.bytes)] (fun d => some (none,d))

/- The fields of the attributes that are set: mode, link count, owner and size. -/
def createAttr (st : Bytes) : Bytes :=
  le 16 0 ++ (stNlink st ++ (le 4 (2 ^ 15 ||| stMode st) ++ (stOwner st ++ (le 12 0 ++ (stSize st ++ le 88 0)))))

def createReceive (d : Down) : Option (Option Reply × Down) :=
  match d.recv ⟨.create,.stat⟩ with
  | none => none
  | some (st,d) => some (some (.created (stIno (statOf st)) (createAttr (statOf st))),d)

def fuseStudyCreate (name : Name) : Action :=
  .exchange [opcodeShort .create,(.path,name.bytes)] createReceive

def mkdirReceive (d : Down) : Option (Option Reply × Down) :=
  match d.recv ⟨.mkdir,.result⟩ with
  | none => none
  | some (res,d) =>
    if intOf res.buf = 0 then
      match d.recv ⟨.mkdir,.stat⟩ with
      | none => none
      | some (st,d) => some (some (.entry (stIno (statOf st)) (statOf st)),d)
    else some (some (fuseReplyErr (-intOf res.buf)),d)

/- The path is that of the last lookup, not the name of the request. -/
def fuseStudyMkdir (client : Client) (mode : BitVec 32) : Action :=
  match client.path with
  | none => .crash
  | some path =>
    .exchange [opcodeShort .mkdir,(.path,path.bytes),(.mode,le 4 mode.toNat)] mkdirReceive

/- Answered before the server has said anything. -/
def fuseStudyUnlink (name : Name) : Action :=
  .exchange [opcodeShort .unlink,(.path,name.bytes)] (fun d => some (some (fuseReplyErr 0),d))

def rmdirReceive (d : Down) : Option (Option Reply × Down) :=
  match d.recv ⟨.rmdir,.result⟩ with
  | none => none
  | some (res,d) =>
    if intOf res.buf = 0 then some (some (fuseReplyErr 0),d)
    else some (some (fuseReplyErr (-intOf res.buf)),d)

def fuseStudyRmdir (client : Client) (calloc : Bool) : Action :=
  if calloc then
    match client.path with
    | none => .crash
    | some path => .exchange [opcodeInt .rmdir,(.path,path.bytes)] rmdirReceive
  else .answer (fuseReplyErr enomem)

def Client.op (client : Client) : Op → Client × Action
  | .lookup _ name => fuseStudyLookup name
  | .getattr ino => (client,fuseStudyGetattr client ino)
  | .readdir ino size off calloc malloc => (client,fuseStudyReaddir client ino size off calloc malloc)
  | .open _ flags => (client,fuseStudyOpen client flags)
  | .read .. => (client,fuseStudyRead client)
  | .create _ name _ => (client,fuseStudyCreate name)
  | .mkdir _ _ mode => (client,fuseStudyMkdir client mode)
  | .write _ memory _ _ => (client,fuseStudyWrite client memory)
  | .unlink _ name => (client,fuseStudyUnlink name)
  | .rmdir _ _ calloc => (client,fuseStudyRmdir client calloc)

end FuseStudy.NetClient
