import FuseStudy.NetLink

/-! One client operation, and any number of them: what is left of a connection that was in
step when the operation began. -/
namespace FuseStudy.NetSteps
open CString (Bytes)
open NetPacket NetServer NetClient NetLink

variable {W : Type}

theorem stepLookup (s : Setting W) (client : Client) {world : W} (room : s.env.room world = true)
    (parent : Nat) (name : Name) {calls : Calls} (answers : s.env.calls world (lookupPath name).bytes = calls) :
    (synced client world).step s (.lookup parent name) =
      if calls.access = none then
        (synced ⟨some (lookupPath name)⟩ (s.env.next world .lookup (lookupPath name).bytes []),
          some (.entry (stIno (fileAttr calls).bytes) (fileAttr calls).bytes))
      else (⟨⟨some (lookupPath name)⟩,
        ⟨.opcode,[],sentPkts ⟨.lookup,.stat⟩ (boundSend calls.mem (fileAttr calls).bytes),true,
          s.env.next world .lookup (lookupPath name).bytes []⟩,false⟩,
        some (.err enoent)) := by
  obtain ⟨ne,short,text⟩ := pathSent (lookupPath name)
  have asks : client.op (.lookup parent name) = (⟨some (lookupPath name)⟩,
      .exchange [opcodeShort .lookup,(.path,(lookupPath name).bytes)] lookupReceive) := rfl
  have received := lookupReceived calls
  rw [stepServed s asks (.inl rfl) ne short room text answers rfl rfl]
  simp only [Op.kind,received]
  split <;> rfl

theorem getattrAsks {client : Client} {ino : Nat} {path : Path} (below : ino ≠ rootId) (set : client.path = some path) :
    client.op (.getattr ino) = (client,.exchange [opcodeShort .getattr,(.path,path.bytes ++ [0])] getattrReceive) := by
  simp only [Client.op,NetClient.fuseStudyGetattr,if_neg below,set]

theorem stepGetattr (s : Setting W) (client : Client) {world : W} (room : s.env.room world = true) {ino : Nat}
    {path : Path} {calls : Calls} (below : ino ≠ rootId) (set : client.path = some path)
    (answers : s.env.calls world path.bytes = calls) (packet : calls.calloc = true)
    (attr : ∀ st, calls.lstat = .ok st → calls.statCalloc = true) :
    (synced client world).step s (.getattr ino) =
      (synced client (s.env.next world .getattr path.bytes []),some (match calls.lstat with
        | .ok st => .attr st.bytes
        | .error e => .err e.value)) := by
  obtain ⟨ne,short,text⟩ := pathNulSent path
  obtain ⟨out,handled,received⟩ := getattrReceived calls packet attr
  rw [stepServed s (getattrAsks below set) (.inl rfl) ne short room text answers handled rfl]
  simp only [Op.kind,received]
  rfl

/- The return without a reply. -/
theorem stepGetattrWaits (s : Setting W) (client : Client) {world : W} (room : s.env.room world = true) {ino : Nat}
    {path : Path} (below : ino ≠ rootId) (set : client.path = some path)
    (packet : (s.env.calls world path.bytes).calloc = false) :
    ((synced client world).step s (.getattr ino)).1.stuck = true := by
  obtain ⟨ne,long,text⟩ := pathNulSent path
  have handled : threadHandler (s.env.calls world path.bytes) path.bytes (some .getattr) = (.opcode,[]) := by
    simp only [threadHandler,NetServer.fuseStudyGetattr,packet]
    rfl
  rw [stepServed s (getattrAsks below set) (.inl rfl) ne long room text rfl handled rfl]
  simp only [Op.kind,outOctets,List.flatMap_nil,getattrReceive,nothingReceived,received]

theorem stepGetattrGone (s : Setting W) (client : Client) {world : W} (room : s.env.room world = true) {ino : Nat}
    {path : Path} {st : Stat} (below : ino ≠ rootId) (set : client.path = some path)
    (packet : (s.env.calls world path.bytes).calloc = true) (looked : (s.env.calls world path.bytes).lstat = .ok st)
    (attr : (s.env.calls world path.bytes).statCalloc = false) :
    ((synced client world).step s (.getattr ino)).1.host.server = .crashed := by
  obtain ⟨ne,long,text⟩ := pathNulSent path
  rw [stepServed s (getattrAsks below set) (.inl rfl) ne long room text rfl (getattrGone packet looked attr) rfl]
  exact receivedGone client rfl _

theorem readdirAsks (client : Client) (ino size : Nat) (off : Int) (malloc : Bool) :
    client.op (.readdir ino size off true malloc) =
      (client,.exchange [opcodeInt .readdir,(.path,(readdirPath client ino).bytes ++ [0])]
        (if malloc then readdirReceive size off else fun d => some (some (fuseReplyErr enomem),d))) := rfl

theorem stepReaddir (s : Setting W) (client : Client) {world : W} (room : s.env.room world = true) (ino size : Nat)
    (off : Int) (malloc : Bool) {calls : Calls} (answers : s.env.calls world (readdirPath client ino).bytes = calls)
    (packet : calls.calloc = true) :
    ∃ reply rest, (synced client world).step s (.readdir ino size off true malloc) =
        (⟨client,⟨.opcode,[],rest,true,s.env.next world .readdir (readdirPath client ino).bytes []⟩,false⟩,some reply) ∧
      (malloc = true → ∃ buffer, reply = .buf buffer) ∧ (malloc = false → reply = .err enomem) ∧
      (rest = [] ↔ malloc = true ∧ ∀ des, calls.opendir = .ok des → listed (des.drop off.toNat) ≤ size) := by
  obtain ⟨ne,short,text⟩ := pathNulSent (readdirPath client ino)
  obtain ⟨out,buffer,rest,handled,received,sent,empty⟩ := readdirReceived calls packet size off
  rw [stepServed s (readdirAsks client ino size off malloc) (.inr rfl) ne short room text answers handled rfl]
  cases malloc with
  | true =>
    simp only [Op.kind,if_true,received]
    exact ⟨.buf buffer,rest,rfl,by simp,by simp,by simp [empty]⟩
  | false => exact ⟨.err enomem,_,rfl,by simp,by simp,by simp [Op.kind,sent]⟩

theorem stepReaddirGone (s : Setting W) (client : Client) {world : W} (room : s.env.room world = true) (ino size : Nat)
    (off : Int) (malloc : Bool) (packet : (s.env.calls world (readdirPath client ino).bytes).calloc = false) :
    ((synced client world).step s (.readdir ino size off true malloc)).1.host.server = .crashed := by
  obtain ⟨ne,short,text⟩ := pathNulSent (readdirPath client ino)
  have handled : threadHandler (s.env.calls world (readdirPath client ino).bytes) (readdirPath client ino).bytes
      (some .readdir) = (.crashed,[]) := by
    simp only [threadHandler,NetServer.fuseStudyReaddir,packet]
    rfl
  rw [stepServed s (readdirAsks client ino size off malloc) (.inr rfl) ne short room text rfl handled rfl]
  exact receivedGone client rfl _

theorem stepOpen (s : Setting W) (client : Client) {world : W} (room : s.env.room world = true) (ino : Nat)
    (flags : BitVec 32) {path : Path} {calls : Calls} (set : client.path = some path)
    (answers : s.env.calls world path.bytes = calls) :
    (synced client world).step s (.open ino flags) =
      (synced client (s.env.next world .open path.bytes (le 4 flags.toNat)),
        some (match calls.openFd (flags &&& ~~~(oCreat ||| oExcl)) with
        | none => .opened flags
        | some e => .err e.value)) := by
  obtain ⟨ne,short,text⟩ := pathNulSent path
  have asks : client.op (.open ino flags) =
      (client,.exchange [opcodeShort .open,(.path,path.bytes ++ [0]),(.flags,le 4 flags.toNat)]
        (openReceive flags)) := by
    simp only [Client.op,NetClient.fuseStudyOpen,set]
  have four : (le 4 flags.toNat).length = 4 := leLength 4 _
  have size : (onePkt s.mem (le 4 flags.toNat)).size = 4 := leLength 4 _
  have given : BitVec.ofInt 32 (intOf (onePkt s.mem (le 4 flags.toNat)).buf) = flags := by
    have word : (onePkt s.mem (le 4 flags.toNat)).buf.take 4 = le 4 flags.toNat := List.take_left' (leLength 4 _)
    have value : flags.toNat % 256 ^ 4 = flags.toNat := Nat.mod_eq_of_lt flags.isLt
    have small := flags.isLt
    apply BitVec.eq_of_toNat_eq
    rw [BitVec.toNat_ofInt]
    simp only [intOf,word,unleLe,value]
    split <;> omega
  have received := openReceived calls flags (onePkt s.mem (le 4 flags.toNat)) (by rw [size]; decide) given
  have settled := settleArgument s .open .flags ne short room text answers rfl (.inl rfl) rfl four rfl
  rw [answers] at settled
  rw [stepExchange s asks]
  simp only [Op.kind,settled,received]
  rfl

theorem stepRead (s : Setting W) (client : Client) {world : W} (room : s.env.room world = true)
    (ino size : Nat) (off : Int) {path : Path} {calls : Calls} {file : Block} (set : client.path = some path)
    (answers : s.env.calls world path.bytes = calls) (opened : calls.fopen = .ok file)
    (space : calls.room = true ∨ file.bytes = []) :
    (synced client world).step s (.read ino size off) =
      if file.bytes = [] then (⟨client,⟨.opcode,[],[],true,s.env.next world .read path.bytes []⟩,true⟩,none)
      else (synced client (s.env.next world .read path.bytes []),some (.buf file.bytes)) := by
  obtain ⟨ne,short,text⟩ := pathSent path
  have asks : client.op (.read ino size off) =
      (client,.exchange [opcodeShort .read,(.path,path.bytes)] readReceive) := by
    simp only [Client.op,NetClient.fuseStudyRead,set]
  have handled : threadHandler calls path.bytes (some .read) = (.opcode,[.pkts .content file.bytes]) := by
    have goes : ¬ ((!calls.room && decide (file.bytes ≠ [])) = true) := by
      rcases space with space | empty <;> simp [*]
    simp only [threadHandler,NetServer.fuseStudyRead,opened,if_neg goes]
  rw [stepServed s asks (.inl rfl) ne short room text answers handled rfl]
  by_cases empty : file.bytes = []
  · have waits := readWaits calls
    have nothing : outOctets .read calls [.pkts .content []] = [] := by
      simp only [outOctets,Out.octets,boundSendEmpty,List.flatMap_cons,List.flatMap_nil,List.append_nil]
      rfl
    rw [nothing] at waits
    simp only [Op.kind,empty,nothing,waits,if_true]
    rfl
  · have received := readReceived calls file empty
    simp only [Op.kind,received,if_neg empty]
    rfl

theorem stepCreate (s : Setting W) (client : Client) {world : W} (room : s.env.room world = true)
    (parent : Nat) {name : Name} (mode : BitVec 32) {calls : Calls} (ne : name.bytes ≠ [])
    (answers : s.env.calls world name.bytes = calls) :
    (synced client world).step s (.create parent name mode) =
      match calls.openCreate with
      | some _ => (⟨client,⟨.opcode,[],[],true,s.env.next world .create name.bytes []⟩,true⟩,none)
      | none => (synced client (s.env.next world .create name.bytes []),
          some (.created (stIno (fileAttr calls).bytes) (createAttr (fileAttr calls).bytes))) := by
  obtain ⟨ne,short,text⟩ := pathSent ⟨name,ne⟩
  have received := createReceived calls
  rw [stepServed s rfl (.inl rfl) ne short room text answers rfl rfl]
  simp only [Op.kind,received]
  cases opened : calls.openCreate with
  | none => rfl
  | some e =>
    simp only [NetServer.fuseStudyCreate,opened]
    rfl

theorem stepUnlink (s : Setting W) (client : Client) {world : W} (room : s.env.room world = true)
    (parent : Nat) {name : Name} (ne : name.bytes ≠ []) : (synced client world).step s (.unlink parent name) =
      (synced client (s.env.next world .unlink name.bytes []),some (.err 0)) := by
  obtain ⟨ne,short,text⟩ := pathSent ⟨name,ne⟩
  rw [stepServed s rfl (.inl rfl) ne short room text rfl rfl rfl]
  rfl

theorem rmdirAsks {client : Client} {path : Path} (parent : Nat) (name : Name) (set : client.path = some path) :
    client.op (.rmdir parent name true) = (client,.exchange [opcodeInt .rmdir,(.path,path.bytes)] rmdirReceive) := by
  simp only [Client.op,NetClient.fuseStudyRmdir,set,if_true]

theorem stepRmdir (s : Setting W) (client : Client) {world : W} (room : s.env.room world = true)
    (parent : Nat) (name : Name) {path : Path} {calls : Calls} (set : client.path = some path)
    (answers : s.env.calls world path.bytes = calls) (packet : calls.calloc = true) :
    (synced client world).step s (.rmdir parent name true) =
      (synced client (s.env.next world .rmdir path.bytes []),
        some (.err (if calls.rmdir = none then 0 else eperm))) := by
  obtain ⟨ne,short,text⟩ := pathSent path
  have handled :
      threadHandler calls path.bytes (some .rmdir) = (.opcode,[.pkts .result (intBytes (callResult calls.rmdir))]) :=
    if_pos packet
  have received := rmdirReceived calls
  rw [stepServed s (rmdirAsks parent name set) (.inr rfl) ne short room text answers handled rfl]
  simp only [Op.kind,received]
  rfl

theorem stepRmdirGone (s : Setting W) (client : Client) {world : W} (room : s.env.room world = true)
    (parent : Nat) (name : Name) {path : Path} (set : client.path = some path)
    (packet : (s.env.calls world path.bytes).calloc = false) :
    ((synced client world).step s (.rmdir parent name true)).1.host.server = .crashed := by
  obtain ⟨ne,short,text⟩ := pathSent path
  have handled : threadHandler (s.env.calls world path.bytes) path.bytes (some .rmdir) = (.crashed,[]) := by
    simp only [threadHandler,NetServer.fuseStudyRmdir,packet]
    rfl
  rw [stepServed s (rmdirAsks parent name set) (.inr rfl) ne short room text rfl handled rfl]
  exact receivedGone client rfl _

/-! The operations that leave the connection out of step. -/

theorem readNothing : readReceive ⟨[],true⟩ = none := by
  rw [readReceive,readLoop]
  rfl

theorem stepReadCrash (s : Setting W) (client : Client) {world : W} (ino size : Nat) (off : Int) {path : Path}
    (set : client.path = some path)
    (fails : s.env.room world = false ∨ NetServer.fuseStudyRead (s.env.calls world path.bytes) = none) :
    ((synced client world).step s (.read ino size off)).1.stuck = true ∧
      ((synced client world).step s (.read ino size off)).2 = none := by
  obtain ⟨ne,short,text⟩ := pathSent path
  have asks : client.op (.read ino size off) =
      (client,.exchange [opcodeShort .read,(.path,path.bytes)] readReceive) := by
    simp only [Client.op,NetClient.fuseStudyRead,set]
  have nothing := readNothing
  cases room : s.env.room world with
  | false =>
    obtain ⟨up,gone⟩ := stepFull s asks (.inl rfl) ne short room
    simp only [gone,nothing,received,and_self]
  | true =>
    have handled : threadHandler (s.env.calls world path.bytes) path.bytes (some .read) = (.crashed,[]) := by
      simp only [threadHandler,fails.resolve_left (by rw [room]; decide)]
    rw [stepServed s asks (.inl rfl) ne short room text rfl handled rfl]
    simp only [Op.kind,outOctets,List.flatMap_nil,nothing,received,and_self]

/- An empty name is not sent, and the server waits for it. -/
theorem stepNameless (s : Setting W) {client client' : Client} {world : W} {op : Op} {receive : Receive}
    (asks : client.op op = (client',.exchange [opcodeShort op.kind,(.path,[])] receive)) :
    ((synced client world).step s op).1.host.server ≠ .opcode := by
  rw [stepExchange s asks,settleOpcode s (.inl rfl)]
  simp only [requestOctets,List.flatMap_cons,List.flatMap_nil,boundSendEmpty,sentPkts,List.append_nil,settleIdle]
  generalize receive _ = result
  rcases result with - | ⟨reply,d⟩ <;> simp [received]

theorem stepMkdir (s : Setting W) (client : Client) (world : W) (parent : Nat) (name : Name) (mode : BitVec 32) :
    ((synced client world).step s (.mkdir parent name mode)).1.stuck = true ∧
      ((synced client world).step s (.mkdir parent name mode)).2 = none := by
  cases set : client.path with
  | none =>
    have asks : client.op (.mkdir parent name mode) = (client,.crash) := by
      simp only [Client.op,NetClient.fuseStudyMkdir,set]
    exact stepCrash s world asks
  | some path =>
    obtain ⟨ne,short,text⟩ := pathSent path
    have asks : client.op (.mkdir parent name mode) =
        (client,.exchange [opcodeShort .mkdir,(.path,path.bytes),(.mode,le 4 mode.toNat)] mkdirReceive) := by
      simp only [Client.op,NetClient.fuseStudyMkdir,set]
    cases room : s.env.room world with
    | false =>
      have nothing : mkdirReceive ⟨[],true⟩ = none := rfl
      obtain ⟨up,gone⟩ := stepFull s asks (.inl rfl) ne short room
      simp only [gone,nothing,received,and_self]
    | true =>
      have four : (le 4 mode.toNat).length = 4 := leLength 4 _
      obtain ⟨next,out,handled,waits⟩ := mkdirWaits (s.env.calls world path.bytes) (onePkt s.mem (le 4 mode.toNat))
      have packet : serverPacket (s.env.room world) (s.env.calls world) (onePkt s.mem (le 4 mode.toNat))
        (.mode path.bytes) =
          ⟨next,some .mkdir,true,out⟩ := by
        simp only [serverPacket,handled]
      have settled := settleArgument s .mkdir .mode ne short room text (rfl : s.env.calls world _ = _) rfl
        (.inr rfl) rfl
        four packet
      rw [stepExchange s asks]
      simp only [Op.kind,settled,waits,received,and_self]

theorem settleUnmatched (env : World W) {h : Host W} (unmatched : h.matched = false) :
    (settle env h).matched = false := by
  induction len : h.up.length using Nat.strongRecOn generalizing h with
  | ind n ih =>
    cases step : h.step env with
    | none =>
      rw [settleWaits step]
      exact unmatched
    | some h' =>
      have kept : h'.matched = false := by
        unfold Host.step at step
        split at step <;> try contradiction
        split at step <;> try contradiction
        cases Option.some.inj step
        simp only [unmatched,Bool.false_and]
      rw [settleStep step]
      exact ih _ (len ▸ Host.stepShorter step) kept rfl

/- The server takes the opcode for that of read. -/
theorem stepWrite (s : Setting W) (client : Client) (world : W) (ino : Nat) (memory : Block) (size : Nat) (off : Int) :
    (((synced client world).step s (.write ino memory size off)).1.stuck = true ∨
      ((synced client world).step s (.write ino memory size off)).1.host.matched = false) ∧
      ((synced client world).step s (.write ino memory size off)).2 = none := by
  cases set : client.path with
  | none =>
    have asks : client.op (.write ino memory size off) = (client,.crash) := by
      simp only [Client.op,NetClient.fuseStudyWrite,set]
    have crashed := stepCrash s world asks
    exact ⟨.inl crashed.1,crashed.2⟩
  | some path =>
    obtain ⟨ne,short,text⟩ := pathSent path
    have asks : client.op (.write ino memory size off) =
        (client,.exchange [opcodeShort .read,(.path,path.bytes),(.data,cString memory.bytes)]
          (fun d => some (none,d))) := by
      simp only [Client.op,NetClient.fuseStudyWrite,set]
    rw [stepExchange s asks]
    simp only [Op.kind,received,and_true]
    rw [settleOpcode s (.inl rfl)]
    exact .inr (settleUnmatched s.env rfl)

/-! When a connection stays in step. -/

/- What the client does not read stays in the queue, and what it reads for more it waits for.
Whatever is sent, the server needs memory for its path. -/
def Meets (s : Setting W) (link : Link W) : Op → Prop
  | .lookup _ name => s.env.room link.host.world = true ∧
      (s.env.calls link.host.world (lookupPath name).bytes).access = none
  | .getattr ino => ino ≠ rootId → ∀ path, link.client.path = some path → s.env.room link.host.world = true ∧
      (s.env.calls link.host.world path.bytes).calloc = true ∧
      ∀ st, (s.env.calls link.host.world path.bytes).lstat = .ok st →
        (s.env.calls link.host.world path.bytes).statCalloc = true
  | .readdir ino size off calloc malloc => calloc = true → s.env.room link.host.world = true ∧
      (s.env.calls link.host.world (readdirPath link.client ino).bytes).calloc = true ∧ malloc = true ∧
      ∀ des, (s.env.calls link.host.world (readdirPath link.client ino).bytes).opendir = .ok des →
        listed (des.drop off.toNat) ≤ size
  | .open .. => link.client.path ≠ none → s.env.room link.host.world = true
  | .read .. => ∃ path file, link.client.path = some path ∧ s.env.room link.host.world = true ∧
      (s.env.calls link.host.world path.bytes).fopen = .ok file ∧
      (s.env.calls link.host.world path.bytes).room = true ∧ file.bytes ≠ []
  | .create _ name _ => name.bytes ≠ [] ∧ s.env.room link.host.world = true ∧
      (s.env.calls link.host.world name.bytes).openCreate = none
  | .mkdir .. => False
  | .write .. => False
  | .unlink _ name => name.bytes ≠ [] ∧ s.env.room link.host.world = true
  | .rmdir _ _ calloc => calloc = true → ∃ path, link.client.path = some path ∧ s.env.room link.host.world = true ∧
      (s.env.calls link.host.world path.bytes).calloc = true

theorem fullUnclean (s : Setting W) {client client' : Client} {world : W} {op : Op} {opcode : Purpose × Bytes}
    {path : Bytes} {more : List (Purpose × Bytes)} {receive : Receive}
    (asks : client.op op = (client',.exchange (opcode :: (.path,path) :: more) receive))
    (first : opcode = opcodeShort op.kind ∨ opcode = opcodeInt op.kind) (ne : path ≠ [])
    (short : path.length < 256 ^ 8) (full : s.env.room world = false) :
    ¬ ((synced client world).step s op).1.Clean := by
  obtain ⟨up,gone⟩ := stepFull s asks first ne short full
  rw [gone]
  exact goneUnclean (receivedGone client' rfl _)

theorem lookupClean (s : Setting W) (client : Client) (world : W) (parent : Nat) (name : Name) :
    ((synced client world).step s (.lookup parent name)).1.Clean ↔
      Meets s (synced client world) (.lookup parent name) := by
  obtain ⟨ne,short,-⟩ := pathSent (lookupPath name)
  cases room : s.env.room world with
  | false =>
    exact iff_of_false (fullUnclean s rfl (.inl rfl) ne short room) (fun meets => by cases room.symm.trans meets.1)
  | true =>
    rw [stepLookup s client room parent name rfl]
    simp only [Meets,synced,room,true_and]
    split
    · rename_i found
      exact iff_of_true (syncedClean _ _) found
    · rename_i missing
      refine iff_of_false ?_ missing
      intro clean
      have fits := statFits (fileAttr (s.env.calls world (lookupPath name).bytes))
      exact octetsNe (s.env.calls world (lookupPath name).bytes).memory ⟨.lookup,.stat⟩ fits.1 fits.2 []
        ((List.append_nil _).trans clean.down)

theorem getattrClean (s : Setting W) (client : Client) (world : W) (ino : Nat) :
    ((synced client world).step s (.getattr ino)).1.Clean ↔ Meets s (synced client world) (.getattr ino) := by
  by_cases root : ino = rootId
  · have asks : client.op (.getattr ino) = (client,.answer .rootAttr) := by
      simp only [Client.op,NetClient.fuseStudyGetattr,if_pos root]
    rw [stepAnswer s asks]
    exact iff_of_true (syncedClean _ _) fun below => absurd root below
  · cases set : client.path with
    | none =>
      have asks : client.op (.getattr ino) = (client,.answer (fuseReplyErr enoent)) := by
        simp only [Client.op,NetClient.fuseStudyGetattr,if_neg root,set]
      rw [stepAnswer s asks]
      exact iff_of_true (syncedClean _ _) fun _ path there => by cases set.symm.trans there
    | some path =>
      obtain ⟨ne,short,-⟩ := pathNulSent path
      cases room : s.env.room world with
      | false =>
        refine iff_of_false (fullUnclean s (getattrAsks root set) (.inl rfl) ne short room) ?_
        intro meets
        cases room.symm.trans (meets root path set).1
      | true =>
        cases packet : (s.env.calls world path.bytes).calloc with
        | false =>
          refine iff_of_false (stuckUnclean (stepGetattrWaits s client room root set packet)) ?_
          intro meets
          cases packet.symm.trans (meets root path set).2.1
        | true =>
          by_cases attr : ∀ st, (s.env.calls world path.bytes).lstat = .ok st →
            (s.env.calls world path.bytes).statCalloc = true
          · rw [stepGetattr s client room root set rfl packet attr]
            refine iff_of_true (syncedClean _ _) ?_
            rintro - other there
            cases set.symm.trans there
            exact ⟨room,packet,attr⟩
          · obtain ⟨st,looked,short⟩ : ∃ st, (s.env.calls world path.bytes).lstat = .ok st ∧
                (s.env.calls world path.bytes).statCalloc = false := by simpa using attr
            refine iff_of_false (goneUnclean (stepGetattrGone s client room root set packet looked short)) ?_
            intro meets
            exact attr (meets root path set).2.2

theorem openClean (s : Setting W) (client : Client) (world : W) (ino : Nat) (flags : BitVec 32) :
    ((synced client world).step s (.open ino flags)).1.Clean ↔ Meets s (synced client world) (.open ino flags) := by
  cases set : client.path with
  | none =>
    have asks : client.op (.open ino flags) = (client,.answer (fuseReplyErr enoent)) := by
      simp only [Client.op,NetClient.fuseStudyOpen,set]
    rw [stepAnswer s asks]
    exact iff_of_true (syncedClean _ _) fun some => absurd set some
  | some path =>
    have asks : client.op (.open ino flags) =
        (client,.exchange [opcodeShort .open,(.path,path.bytes ++ [0]),(.flags,le 4 flags.toNat)]
          (openReceive flags)) := by
      simp only [Client.op,NetClient.fuseStudyOpen,set]
    obtain ⟨ne,short,-⟩ := pathNulSent path
    have there : (synced client world).client.path ≠ none := fun no => by cases set.symm.trans no
    cases room : s.env.room world with
    | false =>
      refine iff_of_false (fullUnclean s asks (.inl rfl) ne short room) ?_
      intro meets
      cases room.symm.trans (meets there)
    | true =>
      rw [stepOpen s client room ino flags set rfl]
      exact iff_of_true (syncedClean _ _) fun _ => room

theorem readdirClean (s : Setting W) (client : Client) (world : W) (ino size : Nat) (off : Int) (calloc malloc : Bool) :
    ((synced client world).step s (.readdir ino size off calloc malloc)).1.Clean ↔
      Meets s (synced client world) (.readdir ino size off calloc malloc) := by
  cases calloc with
  | false =>
    have asks : client.op (.readdir ino size off false malloc) = (client,.answer (fuseReplyErr enomem)) := rfl
    rw [stepAnswer s asks]
    exact iff_of_true (syncedClean _ _) (by simp [Meets])
  | true =>
    obtain ⟨ne,short,-⟩ := pathNulSent (readdirPath client ino)
    cases room : s.env.room world with
    | false =>
      refine iff_of_false (fullUnclean s (readdirAsks client ino size off malloc) (.inr rfl) ne short room) ?_
      intro meets
      cases room.symm.trans (meets rfl).1
    | true =>
      cases packet : (s.env.calls world (readdirPath client ino).bytes).calloc with
      | false =>
        refine iff_of_false (goneUnclean (stepReaddirGone s client room ino size off malloc packet)) ?_
        intro meets
        cases packet.symm.trans (meets rfl).2.1
      | true =>
        obtain ⟨reply,rest,step,-,-,empty⟩ := stepReaddir s client room ino size off malloc rfl packet
        rw [step]
        simp only [Meets,synced,forall_const,room,packet,true_and]
        rw [← empty]
        constructor
        · intro clean
          exact clean.down
        · rintro rfl
          exact syncedClean _ _

theorem readClean (s : Setting W) (client : Client) (world : W) (ino size : Nat) (off : Int) :
    ((synced client world).step s (.read ino size off)).1.Clean ↔
      Meets s (synced client world) (.read ino size off) := by
  cases set : client.path with
  | none =>
    have asks : client.op (.read ino size off) = (client,.crash) := by
      simp only [Client.op,NetClient.fuseStudyRead,set]
    refine iff_of_false (stuckUnclean (stepCrash s world asks).1) ?_
    rintro ⟨path,file,set',-⟩
    cases set.symm.trans set'
  | some path =>
    -- what it takes for an answer
    have needs (meets : Meets s (synced client world) (.read ino size off)) : s.env.room world = true ∧
        ∃ file, (s.env.calls world path.bytes).fopen = .ok file ∧
          (s.env.calls world path.bytes).room = true ∧ file.bytes ≠ [] := by
      obtain ⟨path',file,set',room,opened,space,ne⟩ := meets
      cases set.symm.trans set'
      exact ⟨room,file,opened,space,ne⟩
    cases room : s.env.room world with
    | false =>
      refine iff_of_false (stuckUnclean (stepReadCrash s client ino size off set (.inl room)).1) ?_
      intro meets
      cases room.symm.trans (needs meets).1
    | true =>
      cases opened : (s.env.calls world path.bytes).fopen with
      | error e =>
        have fails : NetServer.fuseStudyRead (s.env.calls world path.bytes) = none := by
          simp only [NetServer.fuseStudyRead,opened]
        refine iff_of_false (stuckUnclean (stepReadCrash s client ino size off set (.inr fails)).1) ?_
        intro meets
        obtain ⟨-,file,opened',-⟩ := needs meets
        cases opened.symm.trans opened'
      | ok file =>
        by_cases empty : file.bytes = []
        · rw [stepRead s client room ino size off set rfl opened (.inr empty),if_pos empty]
          refine iff_of_false (stuckUnclean rfl) ?_
          intro meets
          obtain ⟨-,file',opened',-,ne⟩ := needs meets
          cases opened.symm.trans opened'
          exact ne empty
        · cases space : (s.env.calls world path.bytes).room with
          | true =>
            rw [stepRead s client room ino size off set rfl opened (.inl space),if_neg empty]
            exact iff_of_true (syncedClean _ _) ⟨path,file,set,room,opened,space,empty⟩
          | false =>
            have fails : NetServer.fuseStudyRead (s.env.calls world path.bytes) = none := by
              simp only [NetServer.fuseStudyRead,opened,space]
              simp [empty]
            refine iff_of_false (stuckUnclean (stepReadCrash s client ino size off set (.inr fails)).1) ?_
            intro meets
            obtain ⟨-,file',-,space',-⟩ := needs meets
            cases space.symm.trans space'

theorem createClean (s : Setting W) (client : Client) (world : W) (parent : Nat) (name : Name) (mode : BitVec 32) :
    ((synced client world).step s (.create parent name mode)).1.Clean ↔
      Meets s (synced client world) (.create parent name mode) := by
  by_cases ne : name.bytes ≠ []
  · obtain ⟨_,short,-⟩ := pathSent ⟨name,ne⟩
    cases room : s.env.room world with
    | false =>
      refine iff_of_false (fullUnclean s rfl (.inl rfl) ne short room) ?_
      intro meets
      cases room.symm.trans meets.2.1
    | true =>
      rw [stepCreate s client room parent mode ne rfl]
      simp only [Meets,synced]
      cases opened : (s.env.calls world name.bytes).openCreate with
      | none => exact iff_of_true (syncedClean _ _) ⟨ne,room,rfl⟩
      | some e => exact iff_of_false (stuckUnclean rfl) (fun meets => by cases meets.2.2)
  · have asks : client.op (.create parent name mode) =
        (client,.exchange [opcodeShort .create,(.path,[])] createReceive) := by
      simp only [Client.op,NetClient.fuseStudyCreate,Classical.not_not.mp ne]
    exact iff_of_false (fun clean => stepNameless s asks clean.idle) (fun meets => ne meets.1)

theorem unlinkClean (s : Setting W) (client : Client) (world : W) (parent : Nat) (name : Name) :
    ((synced client world).step s (.unlink parent name)).1.Clean ↔
      Meets s (synced client world) (.unlink parent name) := by
  by_cases ne : name.bytes ≠ []
  · obtain ⟨_,short,-⟩ := pathSent ⟨name,ne⟩
    cases room : s.env.room world with
    | false =>
      refine iff_of_false (fullUnclean s rfl (.inl rfl) ne short room) ?_
      intro meets
      cases room.symm.trans meets.2
    | true =>
      rw [stepUnlink s client room parent ne]
      exact iff_of_true (syncedClean _ _) ⟨ne,room⟩
  · have asks : client.op (.unlink parent name) =
        (client,.exchange [opcodeShort .unlink,(.path,[])] (fun d => some (some (fuseReplyErr 0),d))) := by
      simp only [Client.op,NetClient.fuseStudyUnlink,Classical.not_not.mp ne]
    exact iff_of_false (fun clean => stepNameless s asks clean.idle) (fun meets => ne meets.1)

theorem rmdirClean (s : Setting W) (client : Client) (world : W) (parent : Nat) (name : Name) (calloc : Bool) :
    ((synced client world).step s (.rmdir parent name calloc)).1.Clean ↔
      Meets s (synced client world) (.rmdir parent name calloc) := by
  cases calloc with
  | false =>
    have asks : client.op (.rmdir parent name false) = (client,.answer (fuseReplyErr enomem)) := rfl
    rw [stepAnswer s asks]
    exact iff_of_true (syncedClean _ _) (by simp [Meets])
  | true =>
    cases set : client.path with
    | none =>
      have asks : client.op (.rmdir parent name true) = (client,.crash) := by
        simp only [Client.op,NetClient.fuseStudyRmdir,set,if_true]
      refine iff_of_false (stuckUnclean (stepCrash s world asks).1) ?_
      intro meets
      obtain ⟨path,there,-⟩ := meets rfl
      cases set.symm.trans there
    | some path =>
      obtain ⟨ne,short,-⟩ := pathSent path
      -- the path is that of the last lookup
      have needs (meets : Meets s (synced client world) (.rmdir parent name true)) : s.env.room world = true ∧
          (s.env.calls world path.bytes).calloc = true := by
        obtain ⟨other,there,enough⟩ := meets rfl
        cases set.symm.trans there
        exact enough
      cases room : s.env.room world with
      | false =>
        refine iff_of_false (fullUnclean s (rmdirAsks parent name set) (.inr rfl) ne short room) ?_
        intro meets
        cases room.symm.trans (needs meets).1
      | true =>
        cases packet : (s.env.calls world path.bytes).calloc with
        | false =>
          refine iff_of_false (goneUnclean (stepRmdirGone s client room parent name set packet)) ?_
          intro meets
          cases packet.symm.trans (needs meets).2
        | true =>
          rw [stepRmdir s client room parent name set rfl packet]
          exact iff_of_true (syncedClean _ _) fun _ => ⟨path,set,room,packet⟩

theorem stepClean (s : Setting W) {link : Link W} (clean : link.Clean) (op : Op) :
    (link.step s op).1.Clean ↔ Meets s link op := by
  rw [clean.same]
  generalize link.client = client
  generalize link.host.world = world
  cases op with
  | lookup parent name => exact lookupClean s client world parent name
  | getattr ino => exact getattrClean s client world ino
  | readdir ino size off calloc malloc => exact readdirClean s client world ino size off calloc malloc
  | «open» ino flags => exact openClean s client world ino flags
  | read ino size off => exact readClean s client world ino size off
  | create parent name mode => exact createClean s client world parent name mode
  | mkdir parent name mode => exact iff_of_false (stuckUnclean (stepMkdir s client world parent name mode).1) id
  | write ino memory size off =>
    refine iff_of_false ?_ id
    intro clean
    rcases (stepWrite s client world ino memory size off).1 with stuck | unmatched
    · exact stuckUnclean stuck clean
    · cases unmatched.symm.trans clean.matched
  | unlink parent name => exact unlinkClean s client world parent name
  | rmdir parent name calloc => exact rmdirClean s client world parent name calloc

def after (s : Setting W) (world : W) (ops : List Op) (k : Nat) : Link W := run s (.start world) (ops.take k)

theorem runCons (s : Setting W) (link : Link W) (ops : List Op) {k : Nat} (lt : k < ops.length) :
    run s link (ops.take (k + 1)) = ((run s link (ops.take k)).step s ops[k]).1 := by
  induction ops generalizing link k with
  | nil => cases lt
  | cons op ops ih =>
    cases k with
    | zero => rfl
    | succ k => exact ih (link.step s op).1 (Nat.lt_of_succ_lt_succ lt)

theorem startClean (world : W) : (Link.start world).Clean := syncedClean _ _

theorem streamsInStep (s : Setting W) (world : W) (ops : List Op) :
    (∀ k ≤ ops.length, (after s world ops k).Clean) ↔
      ∀ k (lt : k < ops.length), Meets s (after s world ops k) ops[k] := by
  constructor
  · intro clean k lt
    rw [← stepClean s (clean k lt.le),after,← runCons s (.start world) ops lt]
    exact clean (k + 1) lt
  · intro meets k
    induction k with
    | zero =>
      intro _
      exact startClean world
    | succ k ih =>
      intro le
      rw [after,runCons s (.start world) ops le]
      exact (stepClean s (ih (Nat.le_of_succ_le le)) _).mpr (meets k le)

/-! A server on which every call succeeds, and what may differ from it. -/

def zeroPkt : Pkt := ⟨0,List.replicate 4 0,0,0,List.replicate bufSize 0⟩

theorem zeroPktMemory : zeroPkt.Memory := ⟨List.length_replicate,List.length_replicate⟩

def zeroStat : Stat := ⟨List.replicate 144 0,List.length_replicate⟩

def plainCalls : Calls where
  mem := zeroPkt
  memory := zeroPktMemory
  unset := zeroStat
  calloc := true
  statCalloc := true
  access := none
  lstat := .ok zeroStat
  opendir := .ok []
  readdir := none
  openFd := fun _ => none
  fopen := .ok ⟨[],by decide⟩
  room := true
  openCreate := none
  mkdir := fun _ => none
  stat := .ok zeroStat
  unlink := none
  rmdir := none

def always (calls : Calls) : Setting Unit := ⟨⟨fun _ => true,fun _ _ => calls,fun _ _ _ _ => ()⟩,zeroPkt,zeroPktMemory⟩

theorem letterNoNul : 0 ∉ ([97] : CString.Bytes) := by decide

theorem letterShort : ([97] : CString.Bytes).length < 2 ^ 63 := by decide

def letterA : Name := ⟨[97],letterNoNul,letterShort⟩

def noEntry : Errno := ⟨2,by decide⟩

theorem missingNameLeavesPacket :
    ¬ ∀ k ≤ 1, (after (always {plainCalls with access := some noEntry}) () [.lookup rootId letterA] k).Clean := by
  intro clean
  have last := clean 1 (by decide)
  rw [after,runCons _ _ _ (by decide),List.take_zero,run] at last
  have found := (stepClean _ (startClean ()) _).mp last
  cases found.2

end FuseStudy.NetSteps
