import FuseStudy.NetSteps

/-! Reads and writes of one file beside a file in memory. -/
namespace FuseStudy.NetContents
open CString (Bytes)
open NetPacket NetServer NetClient NetLink NetSteps

abbrev Disk := Bytes → Option Block

theorem nothingShort : ([] : CString.Bytes).length < 2 ^ 63 := by decide

def emptyFile : Block := ⟨[],nothingShort⟩

def oTrunc : Nat := 512

/- The requests that change a file or the name of one: the server opens a file it is to write
for reading only. -/
def Disk.next (disk : Disk) (kind : Kind) (path arg : Bytes) : Disk :=
  match kind with
  | .create => fun p => if p = path then some ((disk path).getD emptyFile) else disk p
  | .open => fun p => if p = path ∧ unle arg &&& oTrunc ≠ 0 then (disk path).map fun _ => emptyFile else disk p
  | .unlink => fun p => if p = path then none else disk p
  | _ => disk

def Disk.calls (rest : Calls) (disk : Disk) (path : Bytes) : Calls :=
  {rest with
    fopen := match disk path with
      | some file => .ok file
      | none => .error noEntry
    room := true}

/- rest: all that reads and writes do not ask. -/
def diskSetting (rest : Calls) (mem : Pkt) (memory : mem.Memory) : Setting Disk :=
  ⟨⟨fun _ => true,Disk.calls rest,Disk.next⟩,mem,memory⟩

inductive FileOp where
  | read (size off : Nat)
  | write (memory : Block) (size off : Nat)

def FileOp.toOp (ino : Nat) : FileOp → Op
  | .read size off => .read ino size off
  | .write memory size off => .write ino memory size off

def readAt (file : Bytes) (off size : Nat) : Bytes := (file.drop off).take size

/- Zeros fill what lies between the old end and off. -/
def writeAt (file : Bytes) (off : Nat) (data : Bytes) : Bytes :=
  if data = [] then file
  else (file ++ List.replicate (off - file.length) 0).take off ++ (data ++ file.drop (off + data.length))

def FileOp.apply (file : Bytes) : FileOp → Bytes
  | .read _ _ => file
  | .write memory size off => writeAt file off (memory.bytes.take size)

def FileOp.Answered (file : Bytes) (answer : Option Reply) : FileOp → Prop
  | .read size off => ∀ reply, answer = some reply → reply = .buf (readAt file off size)
  | .write memory size _ => answer = some (.written (memory.bytes.take size).length)

def FileOp.span : FileOp → Nat × Nat
  | .read size off => (off,size)
  | .write _ size off => (off,size)

def stored (disk : Disk) (path : Path) : Bytes := ((disk path.bytes).getD emptyFile).bytes

def FileOp.Keeps (before after : Bytes) (op : FileOp) : Prop :=
  ∀ i < before.length, i < op.span.1 ∨ op.span.1 + op.span.2 ≤ i → after[i]? = before[i]?

/- Each operation of a sequence does to the link what it does to the file. -/
def Refines (s : Setting Disk) (path : Path) (ino : Nat) : Link Disk → Bytes → List FileOp → Prop
  | _,_,[] => True
  | link,file,op :: ops =>
    let next := link.step s (op.toOp ino)
    op.Answered file next.2 ∧ op.Keeps (stored link.host.world path) (stored next.1.host.world path) ∧
      Refines s path ino next.1 (op.apply file) ops

def FileOp.Reads : FileOp → Prop
  | .read _ _ => True
  | .write _ _ _ => False

def FileOp.Whole (file : Bytes) : FileOp → Prop
  | .read size off => off = 0 ∧ file.length ≤ size
  | .write _ _ _ => False

theorem stuckRefines (s : Setting Disk) (path : Path) (ino : Nat) {link : Link Disk} (stuck : link.stuck = true)
    (file : Bytes) (ops : List FileOp) : Refines s path ino link file ops ↔ ∀ op ∈ ops, op.Reads := by
  induction ops generalizing file with
  | nil => simp [Refines]
  | cons op ops ih =>
    have step : link.step s (op.toOp ino) = (link,none) := by
      simp only [Link.step,stuck,if_true]
    simp only [Refines,step,ih,List.forall_mem_cons]
    cases op with
    | read size off =>
      simp [FileOp.Answered,FileOp.Keeps,FileOp.Reads]
    | write memory size off =>
      simp [FileOp.Answered,FileOp.Reads]

theorem readAtWhole {file : Bytes} (ne : file ≠ []) (off size : Nat) :
    file = readAt file off size ↔ off = 0 ∧ file.length ≤ size := by
  have some := List.length_pos_iff.mpr ne
  constructor
  · intro same
    have len := congrArg List.length same
    rw [readAt,List.length_take,List.length_drop] at len
    omega
  · rintro ⟨rfl,all⟩
    rw [readAt,List.drop_zero,List.take_of_length_le all]

theorem writeUnrefined (s : Setting Disk) (path : Path) (client : Client) (disk : Disk) (ino : Nat) (file : Bytes)
    (memory : Block) (size off : Nat) (ops : List FileOp) :
    ¬ Refines s path ino (synced client disk) file (.write memory size off :: ops) := by
  rintro ⟨answered,-⟩
  have lost := (stepWrite s client disk ino memory size off).2
  cases answered.symm.trans lost

theorem wholeRefines (rest : Calls) (mem : Pkt) (memory : mem.Memory) {path : Path} (ino : Nat) {disk : Disk}
    {file : Block} (there : disk path.bytes = some file) (ne : file.bytes ≠ []) (ops : List FileOp) :
    Refines (diskSetting rest mem memory) path ino (synced ⟨some path⟩ disk) file.bytes ops ↔
      ∀ op ∈ ops, op.Whole file.bytes := by
  induction ops with
  | nil => simp [Refines]
  | cons op ops ih =>
    cases op with
    | write memory size off =>
      refine iff_of_false (writeUnrefined _ _ _ _ _ _ _ _ _ _) ?_
      intro whole
      exact whole _ List.mem_cons_self
    | read size off =>
      have opened : ((diskSetting rest mem memory).env.calls disk path.bytes).fopen = .ok file := by
        simp only [diskSetting,Disk.calls,there]
      have room : (diskSetting rest mem memory).env.room disk = true := rfl
      have step := stepRead (diskSetting rest mem memory) ⟨some path⟩ room ino size off rfl rfl opened (.inl rfl)
      have same : (diskSetting rest mem memory).env.next disk .read path.bytes [] = disk := rfl
      rw [if_neg ne,same] at step
      simp only [Refines,FileOp.toOp,step,List.forall_mem_cons,FileOp.apply,ih]
      have keeps : (FileOp.read size off).Keeps (stored disk path) (stored disk path) := fun _ _ _ => rfl
      have answered : (FileOp.read size off).Answered file.bytes (some (.buf file.bytes)) ↔
          (FileOp.read size off).Whole file.bytes := by
        rw [FileOp.Whole,← readAtWhole ne]
        simp [FileOp.Answered]
      rw [answered]
      exact ⟨fun ⟨whole,_,later⟩ => ⟨whole,later⟩,fun ⟨whole,later⟩ => ⟨whole,keeps,later⟩⟩

theorem emptyRefines (rest : Calls) (mem : Pkt) (memory : mem.Memory) {path : Path} (ino : Nat) {disk : Disk}
    {file : Block} (there : disk path.bytes = some file) (empty : file.bytes = []) (ops : List FileOp) :
    Refines (diskSetting rest mem memory) path ino (synced ⟨some path⟩ disk) file.bytes ops ↔
      ∀ op ∈ ops, op.Reads := by
  cases ops with
  | nil => simp [Refines]
  | cons op ops =>
    cases op with
    | write memory size off =>
      refine iff_of_false (writeUnrefined _ _ _ _ _ _ _ _ _ _) ?_
      intro reads
      exact reads _ List.mem_cons_self
    | read size off =>
      have opened : ((diskSetting rest mem memory).env.calls disk path.bytes).fopen = .ok file := by
        simp only [diskSetting,Disk.calls,there]
      have room : (diskSetting rest mem memory).env.room disk = true := rfl
      have step := stepRead (diskSetting rest mem memory) ⟨some path⟩ room ino size off rfl rfl opened (.inl rfl)
      have same : (diskSetting rest mem memory).env.next disk .read path.bytes [] = disk := rfl
      rw [if_pos empty,same] at step
      simp only [Refines,FileOp.toOp,step,List.forall_mem_cons]
      rw [stuckRefines _ _ _ rfl]
      simp [FileOp.Answered,FileOp.Keeps,FileOp.Reads,synced]

theorem contentsRefined (rest : Calls) (mem : Pkt) (memory : mem.Memory) {path : Path} (ino : Nat) {disk : Disk}
    {file : Block} (there : disk path.bytes = some file) (ops : List FileOp) :
    Refines (diskSetting rest mem memory) path ino (synced ⟨some path⟩ disk) file.bytes ops ↔
      (∀ op ∈ ops, op.Reads) ∧ (file.bytes ≠ [] → ∀ op ∈ ops, op.Whole file.bytes) := by
  by_cases empty : file.bytes = []
  · rw [emptyRefines rest mem memory ino there empty]
    exact ⟨fun reads => ⟨reads,fun ne => absurd empty ne⟩,And.left⟩
  · rw [wholeRefines rest mem memory ino there empty]
    have reads (op : FileOp) (whole : op.Whole file.bytes) : op.Reads := by
      cases op with
      | read size off => trivial
      | write memory size off => exact whole
    exact ⟨fun whole => ⟨fun op inside => reads op (whole op inside),fun _ => whole⟩,fun both => both.2 empty⟩

def threeBytes : Block := ⟨[97,0,98],by decide⟩

def onlyA : Disk := fun p => if p = letterA.bytes then some threeBytes else none

def pathA : Path := ⟨letterA,by decide⟩

/- Two reads of all of it. -/
theorem wholeReadsRefined : Refines (diskSetting plainCalls zeroPkt zeroPktMemory) pathA 7
    (synced ⟨some pathA⟩ onlyA) threeBytes.bytes [.read 4096 0,.read 3 0] :=
  (contentsRefined plainCalls zeroPkt zeroPktMemory 7 rfl _).mpr
    ⟨by simp [FileOp.Reads],fun _ => by simp [FileOp.Whole,threeBytes]⟩

theorem offsetIgnored : ¬ Refines (diskSetting plainCalls zeroPkt zeroPktMemory) pathA 7
    (synced ⟨some pathA⟩ onlyA) threeBytes.bytes [.read 4096 1] := by
  have there : onlyA pathA.bytes = some threeBytes := rfl
  rw [wholeRefines plainCalls zeroPkt zeroPktMemory 7 there (by decide)]
  intro whole
  cases (whole _ List.mem_cons_self).1

end FuseStudy.NetContents
