import FuseStudy.NetSteps

/-! What becomes of a failed system call of the server: the answer to the kernel beside the
call it stands for. -/
namespace FuseStudy.NetErrors
open CString (Bytes)
open NetPacket NetServer NetClient NetLink NetSteps

variable {W : Type}

def failure {α : Type} : Except Errno α → Option Errno
  | .ok _ => none
  | .error e => some e

/- What the server's memory lets it do: read the path of the request. -/
def roomFor (s : Setting W) (link : Link W) {α : Type} (call : α) : Option α :=
  if s.env.room link.host.world then some call else none

/- The call a request comes down to, where the server makes one: none inside is success. An
entry is there for lookup and create when the first call and lstat find it, a directory is read
when opendir and each readdir succeed. -/
def serverCall (s : Setting W) (link : Link W) : Op → Option (Option Errno)
  | .lookup _ name =>
    let calls := s.env.calls link.host.world (lookupPath name).bytes
    roomFor s link (calls.access.orElse fun _ => failure calls.lstat)
  | .getattr ino =>
    if ino = rootId then none
    else link.client.path.bind fun path =>
      let calls := s.env.calls link.host.world path.bytes
      if calls.calloc then roomFor s link (failure calls.lstat) else none
  | .readdir ino _ _ calloc _ =>
    let calls := s.env.calls link.host.world (readdirPath link.client ino).bytes
    if calloc then roomFor s link ((failure calls.opendir).orElse fun _ => calls.readdir) else none
  | .open _ flags =>
    link.client.path.bind fun path =>
      roomFor s link ((s.env.calls link.host.world path.bytes).openFd (flags &&& ~~~(oCreat ||| oExcl)))
  | .create _ name _ =>
    let calls := s.env.calls link.host.world name.bytes
    if name.bytes = [] then none else roomFor s link (calls.openCreate.orElse fun _ => failure calls.lstat)
  | .mkdir _ _ mode =>
    link.client.path.bind fun path => roomFor s link ((s.env.calls link.host.world path.bytes).mkdir mode.toNat)
  | .unlink _ name =>
    if name.bytes = [] then none else roomFor s link (s.env.calls link.host.world name.bytes).unlink
  | .rmdir _ _ calloc =>
    if calloc then link.client.path.bind fun path => roomFor s link (s.env.calls link.host.world path.bytes).rmdir
    else none
  | .read .. => none
  | .write .. => none

/- The request comes down to the call, and the server is there to answer for it: one that uses
a packet it has no memory for takes the connection with it. -/
def Answers (s : Setting W) (link : Link W) (op : Op) (call : Option Errno) : Prop :=
  serverCall s link op = some call ∧ (link.step s op).1.host.server ≠ .crashed

def Reply.errno : Reply → Nat
  | .err e => e
  | _ => 0

def errnoOf : Option Errno → Nat
  | some e => e.value
  | none => 0

def Propagates (s : Setting W) (link : Link W) (op : Op) : Prop :=
  ∀ call, Answers s link op call → ∃ reply, (link.step s op).2 = some reply ∧ Reply.errno reply = errnoOf call

/- The outcomes that the answer tells apart: no other errno reaches the client. -/
def Told (s : Setting W) (link : Link W) (call : Option Errno) : Op → Prop
  | .lookup _ name => call = none ∨ ((s.env.calls link.host.world (lookupPath name).bytes).access ≠ none ∧
      errnoOf call = enoent)
  | .readdir _ _ _ _ malloc => if malloc then call = none else errnoOf call = enomem
  | .create .. => call = none
  | .mkdir .. => False
  | .unlink .. => call = none
  | .rmdir .. => call = none ∨ errnoOf call = eperm
  | _ => True

theorem errnoPositive (e : Errno) : e.value ≠ 0 := by
  intro zero
  have known := e.known
  rw [zero] at known
  cases known

theorem errnoOfZero {call : Option Errno} : errnoOf call = 0 ↔ call = none := by
  cases call with
  | none => exact iff_of_true rfl rfl
  | some e => exact iff_of_false (errnoPositive e) (by simp)

theorem roomForSome {s : Setting W} {client : Client} {world : W} {α : Type} {call call' : α} :
    roomFor s (synced client world) call = some call' ↔ s.env.room world = true ∧ call = call' := by
  cases room : s.env.room world <;> simp [roomFor,synced,room]

/- With the answer and the call known, the question is one about two numbers. -/
theorem propagatesIff {s : Setting W} {link : Link W} {op : Op} {call : Option Errno} {reply : Reply}
    (asked : Answers s link op call) (answer : (link.step s op).2 = some reply) :
    Propagates s link op ↔ Reply.errno reply = errnoOf call := by
  constructor
  · intro propagates
    obtain ⟨reply',answer',right⟩ := propagates call asked
    cases answer.symm.trans answer'
    exact right
  · intro right call' asked'
    cases asked.1.symm.trans asked'.1
    exact ⟨reply,answer,right⟩

theorem unansweredLost {s : Setting W} {link : Link W} {op : Op} {call : Option Errno}
    (asked : Answers s link op call) (answer : (link.step s op).2 = none) : ¬ Propagates s link op := by
  intro propagates
  obtain ⟨reply,answer',-⟩ := propagates call asked
  cases answer.symm.trans answer'

theorem lookupTold (s : Setting W) (client : Client) (world : W) (parent : Nat) (name : Name) {call : Option Errno}
    (asked : Answers s (synced client world) (.lookup parent name) call) :
    Propagates s (synced client world) (.lookup parent name) ↔
      Told s (synced client world) call (.lookup parent name) := by
  obtain ⟨room,same⟩ := roomForSome.mp asked.1
  have step := stepLookup s client room parent name rfl
  cases found : (s.env.calls world (lookupPath name).bytes).access with
  | none =>
    rw [if_pos found] at step
    rw [propagatesIff asked (congrArg Prod.snd step),Told,synced]
    simp only [found,ne_eq,not_true_eq_false,false_and,or_false]
    exact eq_comm.trans errnoOfZero
  | some e =>
    have same : some e = call := by simpa only [synced,found,Option.orElse_some] using same
    rw [if_neg (by simp [found])] at step
    rw [propagatesIff asked (congrArg Prod.snd step),Told,synced,← same]
    simp only [found,ne_eq,reduceCtorEq,not_false_eq_true,true_and,false_or]
    exact eq_comm

theorem getattrTold (s : Setting W) (client : Client) (world : W) (ino : Nat) {call : Option Errno}
    (asked : Answers s (synced client world) (.getattr ino) call) :
    Propagates s (synced client world) (.getattr ino) := by
  have made := asked.1
  simp only [serverCall,Option.ite_none_left_eq_some,Option.bind_eq_some_iff] at made
  obtain ⟨below,path,set,made⟩ := made
  split at made
  · rename_i packet
    obtain ⟨room,same⟩ := roomForSome.mp made
    have attr : ∀ st, (s.env.calls world path.bytes).lstat = .ok st →
        (s.env.calls world path.bytes).statCalloc = true := by
      intro st looked
      by_contra short
      exact asked.2 (stepGetattrGone s client room below set packet looked (Bool.eq_false_of_not_eq_true short))
    have step := stepGetattr s client room below set rfl packet attr
    refine (propagatesIff asked (congrArg Prod.snd step)).mpr ?_
    rw [← same,synced]
    cases (s.env.calls world path.bytes).lstat <;> rfl
  · cases made

theorem openTold (s : Setting W) (client : Client) (world : W) (ino : Nat) (flags : BitVec 32) {call : Option Errno}
    (asked : Answers s (synced client world) (.open ino flags) call) :
    Propagates s (synced client world) (.open ino flags) := by
  obtain ⟨path,set,made⟩ := Option.bind_eq_some_iff.mp asked.1
  obtain ⟨room,same⟩ := roomForSome.mp made
  have step := stepOpen s client room ino flags set rfl
  refine (propagatesIff asked (congrArg Prod.snd step)).mpr ?_
  rw [← same,synced]
  cases (s.env.calls world path.bytes).openFd (flags &&& ~~~(oCreat ||| oExcl)) <;> rfl

theorem readdirTold (s : Setting W) (client : Client) (world : W) (ino size : Nat) (off : Int) (calloc malloc : Bool)
    {call : Option Errno} (asked : Answers s (synced client world) (.readdir ino size off calloc malloc) call) :
    Propagates s (synced client world) (.readdir ino size off calloc malloc) ↔
      Told s (synced client world) call (.readdir ino size off calloc malloc) := by
  obtain ⟨made,alive⟩ := asked
  cases calloc with
  | false => cases made
  | true =>
    obtain ⟨room,-⟩ := roomForSome.mp made
    have packet : (s.env.calls world (readdirPath client ino).bytes).calloc = true := by
      by_contra short
      exact alive (stepReaddirGone s client room ino size off malloc (Bool.eq_false_of_not_eq_true short))
    obtain ⟨reply,rest,step,listing,full,-⟩ := stepReaddir s client room ino size off malloc rfl packet
    rw [propagatesIff ⟨made,alive⟩ (congrArg Prod.snd step),Told]
    cases malloc with
    | true =>
      obtain ⟨buffer,rfl⟩ := listing rfl
      exact eq_comm.trans errnoOfZero
    | false =>
      rw [full rfl]
      exact eq_comm

theorem createTold (s : Setting W) (client : Client) (world : W) (parent : Nat) (name : Name) (mode : BitVec 32)
    {call : Option Errno} (asked : Answers s (synced client world) (.create parent name mode) call) :
    Propagates s (synced client world) (.create parent name mode) ↔
      Told s (synced client world) call (.create parent name mode) := by
  have made := asked.1
  simp only [serverCall,Option.ite_none_left_eq_some] at made
  obtain ⟨ne,made⟩ := made
  obtain ⟨room,same⟩ := roomForSome.mp made
  have step := stepCreate s client room parent mode ne rfl
  rw [Told]
  cases opened : (s.env.calls world name.bytes).openCreate with
  | none =>
    simp only [opened] at step
    rw [propagatesIff asked (congrArg Prod.snd step)]
    exact eq_comm.trans errnoOfZero
  | some e =>
    simp only [opened] at step
    refine iff_of_false (unansweredLost asked (congrArg Prod.snd step)) ?_
    have same : some e = call := by simpa only [synced,opened,Option.orElse_some] using same
    rw [← same]
    simp

theorem unlinkTold (s : Setting W) (client : Client) (world : W) (parent : Nat) (name : Name) {call : Option Errno}
    (asked : Answers s (synced client world) (.unlink parent name) call) :
    Propagates s (synced client world) (.unlink parent name) ↔
      Told s (synced client world) call (.unlink parent name) := by
  have made := asked.1
  simp only [serverCall,Option.ite_none_left_eq_some] at made
  obtain ⟨ne,made⟩ := made
  have step := stepUnlink s client (roomForSome.mp made).1 parent ne
  rw [propagatesIff asked (congrArg Prod.snd step)]
  exact eq_comm.trans errnoOfZero

theorem rmdirTold (s : Setting W) (client : Client) (world : W) (parent : Nat) (name : Name) (calloc : Bool)
    {call : Option Errno} (asked : Answers s (synced client world) (.rmdir parent name calloc) call) :
    Propagates s (synced client world) (.rmdir parent name calloc) ↔
      Told s (synced client world) call (.rmdir parent name calloc) := by
  obtain ⟨made,alive⟩ := asked
  cases calloc with
  | false => cases made
  | true =>
    obtain ⟨path,set,inner⟩ := Option.bind_eq_some_iff.mp made
    obtain ⟨room,same⟩ := roomForSome.mp inner
    have packet : (s.env.calls world path.bytes).calloc = true := by
      by_contra short
      exact alive (stepRmdirGone s client room parent name set (Bool.eq_false_of_not_eq_true short))
    have step := stepRmdir s client room parent name set rfl packet
    have same : (s.env.calls world path.bytes).rmdir = call := same
    rw [propagatesIff ⟨made,alive⟩ (congrArg Prod.snd step),Told,same]
    cases call with
    | none => exact iff_of_true rfl (.inl rfl)
    | some e =>
      simp only [reduceCtorEq,if_false,false_or]
      exact eq_comm

def noAccess : Errno := ⟨13,by decide⟩

def locked : Setting Unit := always {plainCalls with unlink := some noAccess}

end FuseStudy.NetErrors
