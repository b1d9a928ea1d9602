import FuseStudy.DataReplies
import FuseStudy.StackedModules

/-! Reads and writes of a stack of file systems in lib/fuse.c, of which each has the operation with a
buffer vector or the plain one. -/
namespace FuseStudy.FsBuffers
open BufCopy DataReply
open StackedModules (Path)

/- `fs` is the file system's own state, `live` the blocks that malloc gave and nobody freed, and `heap`
what malloc answers next, a NULL being 0. -/
structure Store (σ : Type) where
  fs : σ
  sys : Sys
  live : List Nat
  heap : Nat → Nat

variable {σ : Type}

def Store.malloc (s : Store σ) : Nat × Store σ :=
  (s.heap 0,{s with live := if s.heap 0 = 0 then s.live else s.heap 0 :: s.live, heap := fun i => s.heap (i + 1)})

/- `none` is a block that is not there, and a failed assertion or a NULL that is read below. -/
def Store.free (s : Store σ) (a : Nat) : Option (Store σ) :=
  if a = 0 then some s else if a ∈ s.live then some {s with live := s.live.erase a} else none

structure Place where
  path : Path
  off : Int
  fi : Nat

structure Vector where
  block : Nat
  vec : Bufvec

/- The operations of fs->op that move data. `read` gives its result and the bytes it put into the memory. -/
structure Ops (σ : Type) where
  read : Option (Place → Nat → σ → Int × List UInt8 × σ)
  readBuf : Option (Place → Nat → Store σ → Int × Option Vector × Store σ)
  write : Option (Place → List UInt8 → σ → Int × σ)
  writeBuf : Option (Place → Bufvec → Store σ → Int × Bufvec × Store σ)

/- A module has both operations with vectors: it converts the path and calls the next file system. -/
inductive Fs (σ : Type)
  | user (ops : Ops σ)
  | stacked (conv : Path → Except Int Path) (next : Fs σ)

def enosys : Int := 38

def enomem : Int := 12

def Store.puts (s : Store σ) (mem : Nat) (bytes : List UInt8) : Store σ :=
  {s with sys := s.sys.puts ((memory mem bytes.length).cells 0 bytes.length) bytes}

def Store.bytes (s : Store σ) (b : Buf) : List UInt8 := (s.sys.world.takes (b.cells 0 b.size)).1

def fuseFreeBuf (s : Store σ) : Option Vector → Option (Store σ)
  | none => some s
  | some v => (v.vec.buf.foldlM
      (fun (s : Store σ) (b : Buf) => if b.isFd then some s else s.free b.mem) s).bind fun s => s.free v.block

abbrev ReadBuf (σ : Type) := Place → Nat → Store σ → Option (Int × Option Vector × Store σ)

/- op.read into memory of its own. The result of an error is not the size of the segment. -/
def readToBuf (read : Place → Nat → σ → Int × List UInt8 × σ) : ReadBuf σ := fun at' size s =>
  let (buf,s) := s.malloc
  if buf = 0 then some (-enomem,none,s)
  else
    let (mem,s) := s.malloc
    if mem = 0 then (s.free buf).map fun s => (-enomem,none,s)
    else
      let (res,bytes,fs) := read at' size s.fs
      let s := {s with fs := fs}.puts mem bytes
      some (res,some ⟨buf,{buf := [memory mem (if 0 ≤ res then res.toNat else size)]}⟩,s)

def noCount : Int × Option Vector × Store σ → Int × Option Vector × Store σ
  | (res,buf,s) => (if res < 0 then res else 0,buf,s)

/- subdir_addpath and iconv_convpath with the block of newpath, which is NULL where the path is. What
realloc moves stays one block. -/
def Store.convpath (conv : Path → Except Int Path) (path : Path) (s : Store σ) :
    Option (Except Int (Path × Nat) × Store σ) :=
  match path with
  | none => some ((conv none).map fun newpath => (newpath,0),s)
  | some _ =>
    let (block,s) := s.malloc
    if block = 0 then some (.error (-enomem),s)
    else match conv path with
      | .error err => (s.free block).map fun s => (.error err,s)
      | .ok newpath => some (.ok (newpath,block),s)

def moduleReadBuf (conv : Path → Except Int Path) (next : ReadBuf σ) : ReadBuf σ := fun at' size s => do
  let (made,s) ← s.convpath conv at'.path
  match made with
  | .error err => some (err,none,s)
  | .ok (newpath,block) =>
    let (err,buf,s) ← next {at' with path := newpath} size s
    let s ← s.free block
    some (err,buf,s)

def fuseFsReadBuf : Fs σ → ReadBuf σ
  | .user ops => fun at' size s =>
    match ops.readBuf,ops.read with
    | none,none => some (-enosys,none,s)
    | some readBuf,_ => some (noCount (readBuf at' size s))
    | none,some read => (readToBuf read at' size s).map noCount
  | .stacked conv next => fun at' size s => (moduleReadBuf conv (fuseFsReadBuf next) at' size s).map noCount

/- op.read_buf, whose vector is copied out and freed. -/
def copyOut (splice : Bool) (readBuf : ReadBuf σ) (at' : Place) (mem size : Nat) (s : Store σ) :
    Option (Int × Store σ) :=
  do
  let (res,buf,s) ← readBuf at' size s
  if res = 0 then
    let v ← buf
    let (r,_,u,sys) ← fuseBufCopy splice {} false {buf := [memory mem size]} v.vec s.sys
    let s ← fuseFreeBuf {s with sys := sys} (some {v with vec := u})
    some (int r,s)
  else
    let s ← fuseFreeBuf s buf
    some (res,s)

def fuseFsRead (splice : Bool) : Fs σ → Place → Nat → Nat → Store σ → Option (Int × Store σ)
  | .user ops,at',mem,size,s =>
    match ops.readBuf,ops.read with
    | none,none => some (-enosys,s)
    | some readBuf,_ => copyOut splice (fun at' size s => some (readBuf at' size s)) at' mem size s
    | none,some read =>
      let (res,bytes,fs) := read at' size s.fs
      some (res,{s with fs := fs}.puts mem bytes)
  | .stacked conv next,at',mem,size,s => copyOut splice (moduleReadBuf conv (fuseFsReadBuf next)) at' mem size s

/- op.write of a vector: one segment of memory as it is, any other vector from memory of its own. -/
def writeFlat (splice : Bool) (write : Place → List UInt8 → σ → Int × σ) (at' : Place) (v : Bufvec) (s : Store σ) :
    Option (Int × Bufvec × Store σ) :=
  match commonCase v with
  | some b =>
    let (res,fs) := write at' (s.bytes b) s.fs
    some (res,v,{s with fs := fs})
  | none =>
    let size := fuseBufSize v
    let (mem,s) := s.malloc
    if mem = 0 then some (-enomem,v,s)
    else do
      let (r,_,v,sys) ← fuseBufCopy splice {} false {buf := [memory mem size]} v s.sys
      let s := {s with sys := sys}
      if int r ≤ 0 then
        let s ← s.free mem
        some (int r,v,s)
      else
        let (res,fs) := write at' (s.bytes (memory mem (int r).toNat)) s.fs
        let s ← {s with fs := fs}.free mem
        some (res,v,s)

def fuseFsWriteBuf (splice : Bool) : Fs σ → Place → Bufvec → Store σ → Option (Int × Bufvec × Store σ)
  | .user ops,at',v,s =>
    match ops.writeBuf,ops.write with
    | none,none => some (-enosys,v,s)
    | some writeBuf,_ => if v.idx = 0 ∧ v.off = 0 then some (writeBuf at' v s) else none
    | none,some write => if v.idx = 0 ∧ v.off = 0 then writeFlat splice write at' v s else none
  | .stacked conv next,at',v,s =>
    if v.idx = 0 ∧ v.off = 0 then do
      let (made,s) ← s.convpath conv at'.path
      match made with
      | .error err => some (err,v,s)
      | .ok (newpath,block) =>
        let (err,v,s) ← fuseFsWriteBuf splice next {at' with path := newpath} v s
        let s ← s.free block
        some (err,v,s)
    else none

def fuseFsWrite (splice : Bool) (fs : Fs σ) (at' : Place) (mem size : Nat) (s : Store σ) :
    Option (Int × Bufvec × Store σ) :=
  fuseFsWriteBuf splice fs at' {buf := [memory mem size]} s

/-! The file system at the end of a stack, and the path it is called with. -/

def Fs.bottom : Fs σ → Ops σ
  | .user ops => ops
  | .stacked _ next => next.bottom

def Fs.converted : Fs σ → Path → Except Int Path
  | .user _,path => .ok path
  | .stacked conv next,path => (conv path).bind next.converted

def Fs.Errors : Fs σ → Prop
  | .user _ => True
  | .stacked conv next => (∀ path e, conv path = .error e → e < 0) ∧ next.Errors

/- A file system puts what it says into the memory, and no more than fits; its result is an int. -/
def Reads (read : Place → Nat → σ → Int × List UInt8 × σ) : Prop :=
  ∀ at' size fs, (read at' size fs).1 ≤ (read at' size fs).2.1.length ∧ (read at' size fs).2.1.length ≤ size ∧
    (read at' size fs).1 < 2 ^ 31

structure Room (s : Store σ) : Prop where
  unused : ∀ i, s.heap i ≠ 0 → s.heap i ∉ s.live
  apart : ∀ i j, s.heap i ≠ 0 → s.heap i = s.heap j → i = j

structure Untouched (s t : Store σ) : Prop where
  fs : t.fs = s.fs
  sys : t.sys = s.sys
  heap : ∃ k, ∀ i, t.heap i = s.heap (i + k)

theorem Untouched.refl (s : Store σ) : Untouched s s := ⟨rfl,rfl,0,fun _ => rfl⟩

theorem Untouched.trans {s t u : Store σ} (first : Untouched s t) (second : Untouched t u) : Untouched s u := by
  obtain ⟨k,heap⟩ := first.heap
  obtain ⟨m,heap'⟩ := second.heap
  refine ⟨second.fs.trans first.fs,second.sys.trans first.sys,m + k,fun i => ?_⟩
  rw [heap',heap,Nat.add_assoc]

theorem Untouched.full {s t : Store σ} (same : Untouched s t) (none : ∃ i, t.heap i = 0) : ∃ i, s.heap i = 0 := by
  obtain ⟨k,heap⟩ := same.heap
  obtain ⟨i,zero⟩ := none
  exact ⟨i + k,by rw [← heap,zero]⟩

variable {splice : Bool} {fs : Fs σ} {at' : Place} {mem size : Nat} {s t : Store σ}
    {read : Place → Nat → σ → Int × List UInt8 × σ}

/- What a module's conversion leaves: an error with nothing allocated, or the path with its block. -/
inductive Made (conv : Path → Except Int Path) (path : Path) (s : Store σ) : Except Int (Path × Nat) × Store σ → Prop
  | full {t : Store σ} (same : Untouched s t) (live : t.live = s.live) (memory : ∃ i, s.heap i = 0) :
    Made conv path s (.error (-enomem),t)
  | failed {t : Store σ} {e : Int} (same : Untouched s t) (live : t.live = s.live) (error : conv path = .error e) :
    Made conv path s (.error e,t)
  | null {newpath : Path} (ok : conv path = .ok newpath) : Made conv path s (.ok (newpath,0),s)
  | block {t : Store σ} {newpath : Path} {block : Nat} (ok : conv path = .ok newpath) (some : block ≠ 0)
      (same : Untouched s t)
    (live : t.live = block :: s.live) (apart : ∀ i, t.heap i ≠ block) : Made conv path s (.ok (newpath,block),t)

theorem convpathMakes (conv : Path → Except Int Path) (path : Path) (room : Room s) :
    ∃ r, s.convpath conv path = some r ∧ Made conv path s r := by
  unfold Store.convpath
  cases path with
  | none =>
    cases made : conv none with
    | error e => exact ⟨_,rfl,.failed (.refl s) rfl made⟩
    | ok newpath => exact ⟨_,rfl,.null made⟩
  | some path =>
    have later : Untouched s s.malloc.2 := ⟨rfl,rfl,1,fun _ => rfl⟩
    have given : s.malloc.1 = s.heap 0 := rfl
    by_cases full : s.heap 0 = 0
    · refine ⟨(.error (-enomem),s.malloc.2),?_,.full later ?_ ⟨0,full⟩⟩
      · dsimp only
        rw [given,if_pos full]
      · simp only [Store.malloc,if_pos full]
    · have live : s.malloc.2.live = s.heap 0 :: s.live := if_neg full
      dsimp only
      rw [given,if_neg full]
      cases made : conv (some path) with
      | error e =>
        refine ⟨(.error e,{s.malloc.2 with live := s.live}),?_,.failed ⟨rfl,rfl,1,fun _ => rfl⟩ rfl made⟩
        simp [Store.free,full,live]
      | ok newpath =>
        refine ⟨_,rfl,.block made full later live fun i same => ?_⟩
        have first := room.apart 0 (i + 1) full same.symm
        omega

theorem Room.later (room : Room s) (same : Untouched s t) (live : t.live = s.live) : Room t := by
  obtain ⟨k,heap⟩ := same.heap
  refine ⟨fun i some => ?_,fun i j some equal => ?_⟩
  · rw [heap] at some ⊢
    rw [live]
    exact room.unused _ some
  · rw [heap] at some equal
    rw [heap] at equal
    have := room.apart _ _ some equal
    omega

theorem Room.block {block : Nat} (room : Room s) (same : Untouched s t) (live : t.live = block :: s.live)
    (apart : ∀ i, t.heap i ≠ block) : Room t := by
  have off := room.later (t := {t with live := s.live}) ⟨same.fs,same.sys,same.heap⟩ rfl
  refine ⟨fun i some inside => ?_,off.apart⟩
  rw [live] at inside
  obtain here | there := List.mem_cons.mp inside
  · exact apart i here
  · exact off.unused i some there

theorem noCountTwice (r : Int × Option Vector × Store σ) : noCount (noCount r) = noCount r := by
  obtain ⟨res,buf,s⟩ := r
  simp only [noCount,Prod.mk.injEq,and_true]
  split <;> simp_all

theorem noCountError {e : Int} (negative : e < 0) (buf : Option Vector) : noCount (e,buf,s) = (e,buf,s) := by
  rw [noCount,if_pos negative]

theorem Fs.Errors.converted {path : Path} {e : Int} (errors : fs.Errors)
    (failed : fs.converted path = .error e) : e < 0 := by
  induction fs generalizing path with
  | user ops => cases failed
  | stacked conv next ih =>
    obtain ⟨negative,later⟩ := errors
    simp only [Fs.converted] at failed
    cases made : conv path with
    | error e' =>
      rw [made] at failed
      cases failed
      exact negative _ e made
    | ok newpath =>
      rw [made] at failed
      exact ih later failed

/-! Reading. -/

structure ReadAs (read : Place → Nat → σ → Int × List UInt8 × σ) (at' : Place) (mem size : Nat)
    (s t : Store σ) (res : Int) : Prop where
  value : res = (read at' size s.fs).1
  state : t.fs = (read at' size s.fs).2.2
  bytes : (t.sys.world.takes ((memory mem size).cells 0 res.toNat)).1 = (read at' size s.fs).2.1.take res.toNat

theorem memorySize (mem m n off k : Nat) : (memory mem m).cells off k = (memory mem n).cells off k := by
  induction k generalizing off with
  | zero => rfl
  | succ k ih => rw [Buf.cells,Buf.cells,ih,memoryCell,memoryCell]

theorem putFront (s : Store σ) (mem m : Nat) {n : Nat} {bytes : List UInt8} (less : n ≤ bytes.length) :
    ((s.puts mem bytes).sys.world.takes ((memory mem m).cells 0 n)).1 = bytes.take n := by
  have whole : ((s.puts mem bytes).sys.world.takes ((memory mem bytes.length).cells 0 bytes.length)).1 = bytes :=
    putsTaken (memoryMem mem _ 0 _) (memoryOnce mem _ 0 _) (cellsLength _ _ _)
  have parts := takesAppend (s.puts mem bytes).sys.world ((memory mem bytes.length).cells 0 n)
    ((memory mem bytes.length).cells n (bytes.length - n))
  have cut : (memory mem bytes.length).cells 0 n ++ (memory mem bytes.length).cells n (bytes.length - n) =
      (memory mem bytes.length).cells 0 bytes.length := by
    have split := cellsSplit (memory mem bytes.length) 0 less
    rw [Nat.zero_add] at split
    exact split.symm
  rw [cut] at parts
  have length : (((s.puts mem bytes).sys.world.takes ((memory mem bytes.length).cells 0 n)).1).length = n := by
    rw [takesLength,cellsLength]
  have bytesSplit := whole.symm.trans (congrArg Prod.fst parts)
  have front := congrArg (List.take n) bytesSplit
  rw [List.take_left' length] at front
  rw [memorySize mem m bytes.length,front]

theorem freeVector {s : Store σ} {a b : Nat} {seg : Buf} {off idx : Nat} (memory : seg.isFd = false)
    (mem : seg.mem = a) (block : a ≠ 0) (block' : b ≠ 0) {live : List Nat} (given : s.live = a :: b :: live) :
    fuseFreeBuf s (some ⟨b,{idx := idx,off := off,buf := [seg]}⟩) = some {s with live := live} := by
  simp [fuseFreeBuf,Store.free,memory,mem,block,block',given]

/- What a read into a new vector leaves to the caller: an error without a vector, or one with its vector,
or the vector with all that was read. -/
inductive Filled (read : Place → Nat → σ → Int × List UInt8 × σ) (conv : Path → Except Int Path) (at' : Place)
    (size : Nat) (s : Store σ) : Int × Option Vector × Store σ → Prop
  | full {t : Store σ} (memory : ∃ i, s.heap i = 0) (live : t.live = s.live) (fs : t.fs = s.fs) :
    Filled read conv at' size s (-enomem,none,t)
  | failed {t : Store σ} {e : Int} (error : conv at'.path = .error e) (live : t.live = s.live) (fs : t.fs = s.fs) :
    Filled read conv at' size s (e,none,t)
  | done {t : Store σ} {path : Path} {below : Place} {b m : Nat} (ok : conv at'.path = .ok path)
    (place : below = {at' with path := path}) (block : b ≠ 0) (mem : m ≠ 0) (given : ∃ i, s.heap i = m)
    (given' : ∃ i, s.heap i = b) (live : t.live = m :: b :: s.live) (fs : t.fs = (read below size s.fs).2.2)
    (sys : t.sys = s.sys.puts ((memory m (read below size s.fs).2.1.length).cells 0 (read below size s.fs).2.1.length)
      (read below size s.fs).2.1) :
    Filled read conv at' size s ((read below size s.fs).1,
      some ⟨b,{buf := [memory m (if 0 ≤ (read below size s.fs).1 then (read below size s.fs).1.toNat else size)]}⟩,t)

theorem readFills (read : Place → Nat → σ → Int × List UInt8 × σ) (at' : Place) (size : Nat) (s : Store σ) :
    ∃ r, readToBuf read at' size s = some r ∧ Filled read .ok at' size s r := by
  unfold readToBuf
  by_cases none' : s.heap 0 = 0
  · refine ⟨(-enomem,none,s.malloc.2),?_,.full ⟨0,none'⟩ ?_ rfl⟩
    · simp [Store.malloc,none']
    · simp [Store.malloc,none']
  · by_cases full : s.heap 1 = 0
    · refine ⟨(-enomem,none,{s with heap := fun i => s.heap (i + 2)}),?_,.full ⟨1,full⟩ rfl rfl⟩
      simp [Store.malloc,Store.free,none',full]
    · refine ⟨_,?_,.done (t := {s with
        fs := (read at' size s.fs).2.2
        live := s.heap 1 :: s.heap 0 :: s.live
        heap := fun i => s.heap (i + 2)
        sys := s.sys.puts
          ((memory (s.heap 1) (read at' size s.fs).2.1.length).cells 0 (read at' size s.fs).2.1.length)
            (read at' size s.fs).2.1})
        rfl rfl none' full ⟨1,rfl⟩ ⟨0,rfl⟩ rfl rfl rfl⟩
      simp [Store.malloc,Store.puts,none',full]

theorem Filled.freed {conv later : Path → Except Int Path} {r : Int × Option Vector × Store σ}
    {newpath : Path} {block : Nat} (ok : conv at'.path = .ok newpath) (some' : block ≠ 0)
    (same : Untouched s t) (live : t.live = block :: s.live) (apart : ∀ i, t.heap i ≠ block)
    (filled : Filled read later {at' with path := newpath} size t r) :
    ∃ u, r.2.2.free block = some u ∧ Filled read (fun path => (conv path).bind later) at' size s (r.1,r.2.1,u) := by
  have bind : (conv at'.path).bind later = later newpath := by rw [ok]; rfl
  have mallocs {m : Nat} (given : ∃ i, t.heap i = m) : ∃ i, s.heap i = m := by
    obtain ⟨k,heap⟩ := same.heap
    obtain ⟨i,rfl⟩ := given
    exact ⟨i + k,(heap i).symm⟩
  cases filled with
  | @full u memory live' fs =>
    refine ⟨{u with live := s.live},?_,.full (same.full memory) rfl (fs.trans same.fs)⟩
    simp [Store.free,some',live',live]
  | @failed u e error live' fs =>
    refine ⟨{u with live := s.live},?_,.failed (bind.trans error) rfl (fs.trans same.fs)⟩
    simp [Store.free,some',live',live]
  | @done u path below b m made place block' mem given given' live' fs sys =>
    have other : m ≠ block := fun equal => given.elim fun i found => apart i (found.trans equal)
    have other' : b ≠ block := fun equal => given'.elim fun i found => apart i (found.trans equal)
    refine ⟨{u with live := m :: b :: s.live},?_,?_⟩
    · simp [Store.free,some',live',live,other,other']
    · rw [same.fs] at fs sys ⊢
      rw [same.sys] at sys
      exact .done (bind.trans made) place block' mem (mallocs given) (mallocs given') rfl fs sys

theorem moduleFills {conv later : Path → Except Int Path} {next : ReadBuf σ} (room : Room s)
    (negative : ∀ path e, conv path = .error e → e < 0)
    (below : ∀ at' t, Room t → ∃ r, next at' size t = some (noCount r) ∧ Filled read later at' size t r) :
    ∃ r, moduleReadBuf conv next at' size s = some (noCount r) ∧
      Filled read (fun path => (conv path).bind later) at' size s r := by
  obtain ⟨r,made,case⟩ := convpathMakes conv at'.path room
  unfold moduleReadBuf
  simp only [made,Option.bind_eq_bind,Option.bind_some]
  cases case with
  | @full t same live memory =>
    refine ⟨(-enomem,none,t),?_,.full memory live same.fs⟩
    rw [noCountError (by decide)]
  | @failed t e same live error =>
    refine ⟨(e,none,t),?_,.failed (by rw [error]; rfl) live same.fs⟩
    rw [noCountError (negative _ _ error)]
  | @null newpath ok =>
    obtain ⟨⟨res,buf,t⟩,gave,filled⟩ := below {at' with path := newpath} s room
    refine ⟨(res,buf,t),?_,?_⟩
    · simp only [gave,Option.bind_some,noCount,Store.free,if_true]
    · have bind : (conv at'.path).bind later = later newpath := by rw [ok]; rfl
      cases filled with
      | full memory live fs => exact .full memory live fs
      | failed error live fs => exact .failed (bind.trans error) live fs
      | done made place block mem given given' live fs sys =>
        exact .done (bind.trans made) place block mem given given' live fs sys
  | @block t newpath block ok some' same live apart =>
    obtain ⟨⟨res,buf,u⟩,gave,filled⟩ := below {at' with path := newpath} t (room.block same live apart)
    obtain ⟨u',freed,filled'⟩ := filled.freed ok some' same live apart
    refine ⟨(res,buf,u'),?_,filled'⟩
    simp only [gave,Option.bind_some,noCount]
    rw [show u.free block = some u' from freed]
    rfl

/- A stack reads what its bottom reads at the path that the modules make of the path. -/
theorem stackFills (plain : fs.bottom.readBuf = none) (has : fs.bottom.read = some read) (errors : fs.Errors)
    (room : Room s) :
    ∃ r, fuseFsReadBuf fs at' size s = some (noCount r) ∧ Filled read fs.converted at' size s r := by
  induction fs generalizing at' s with
  | user ops =>
    simp only [Fs.bottom] at plain has
    obtain ⟨r,gave,filled⟩ := readFills read at' size s
    refine ⟨r,?_,filled⟩
    simp only [fuseFsReadBuf,plain,has,gave,Option.map_some]
  | stacked conv next ih =>
    have below (at' : Place) (t : Store σ) (room : Room t) := @ih at' t plain has errors.2 room
    obtain ⟨r,gave,filled⟩ : ∃ r, moduleReadBuf conv (fuseFsReadBuf next) at' size s = some (noCount r) ∧
        Filled read (fun path => (conv path).bind next.converted) at' size s r := moduleFills room errors.1 below
    refine ⟨r,?_,filled⟩
    simp only [fuseFsReadBuf,gave,Option.map_some,noCountTwice]

theorem copiedOut {readBuf : ReadBuf σ} {conv : Path → Except Int Path} {r : Int × Option Vector × Store σ}
    (gave : readBuf at' size s = some (noCount r)) (filled : Filled read conv at' size s r)
    (negative : ∀ e, conv at'.path = .error e → e < 0) (reads : Reads read)
    (away : ∀ k i j, s.heap k ≠ 0 → i < size → j < size → s.heap k + i ≠ mem + j) :
    ∃ res t, copyOut splice readBuf at' mem size s = some (res,t) ∧ t.live = s.live ∧
      (res = -enomem ∧ t.fs = s.fs ∧ (∃ i, s.heap i = 0) ∨ match conv at'.path with
        | .error e => res = e ∧ t.fs = s.fs
        | .ok path => ReadAs read {at' with path := path} mem size s t res) := by
  cases filled with
  | @full t memory live fs =>
    refine ⟨-enomem,t,?_,live,.inl ⟨rfl,fs,memory⟩⟩
    unfold copyOut
    rw [gave]
    rfl
  | @failed t e error live fs =>
    have below := negative e error
    rw [noCountError below] at gave
    refine ⟨e,t,?_,live,.inr (by rw [error]; exact ⟨rfl,fs⟩)⟩
    unfold copyOut
    rw [gave]
    simp only [Option.bind_eq_bind,Option.bind_some,if_neg (Int.ne_of_lt below)]
    rfl
  | @done t path below b m ok place block mem' given given' live fs sys =>
    rw [ok]
    dsimp only
    rw [← place]
    obtain ⟨counted,fits,short⟩ := reads below size s.fs
    generalize same : read below size s.fs = did at counted fits short fs sys gave
    obtain ⟨res,bytes,after⟩ := did
    dsimp only at counted fits short fs sys gave
    by_cases error : res < 0
    · rw [noCountError error,if_neg (Int.not_le.mpr error)] at gave
      refine ⟨res,{t with live := s.live},?_,rfl,.inr ⟨by rw [same],by rw [same]; exact fs,?_⟩⟩
      · unfold copyOut
        rw [gave]
        simp only [Option.bind_eq_bind,Option.bind_some,if_neg (Int.ne_of_lt error)]
        rw [freeVector rfl rfl mem' block live]
        rfl
      · rw [Int.toNat_of_nonpos (Int.le_of_lt error)]
        rfl
    · rw [noCount,if_neg error,if_pos (Int.not_lt.mp error)] at gave
      obtain ⟨n,rfl⟩ := Int.eq_ofNat_of_zero_le (Int.not_lt.mp error)
      have less : n ≤ bytes.length := Int.ofNat_le.mp counted
      rw [Int.toNat_natCast] at gave
      have source : Bufvec.rest {buf := [memory m n]} = (memory m n).cells 0 n := memoryRest _ _ 0
      have target : Bufvec.rest {buf := [memory mem size]} = (memory mem size).cells 0 size := memoryRest _ _ 0
      have apart : ∀ c ∈ Bufvec.rest {buf := [memory m n]}, c ∉ Bufvec.rest {buf := [memory mem size]} := by
        rw [source,target]
        intro c here there
        obtain ⟨i,_,inside,rfl⟩ := memoryCells _ _ _ _ _ here
        obtain ⟨j,_,inside',equal⟩ := memoryCells _ _ _ _ _ there
        obtain ⟨k,found⟩ := given
        refine away k i j (by rw [found]; exact mem') (by omega) (by omega) ?_
        rw [found]
        exact Cell.mem.inj equal
      have all : min (Bufvec.rest {buf := [memory m n]}).length
          (Bufvec.rest {buf := [memory mem size]}).length = n := by
        rw [source,target,cellsLength,cellsLength,Nat.min_eq_left (by omega)]
      obtain ⟨k,l,d,u,sys',copy,ran⟩ := memoryRan splice {} t.sys (memoryInMemory m n 0) (memoryInMemory mem size 0)
        (memorySound m n 0 (Nat.zero_le _)) (memorySound mem size 0 (Nat.zero_le _)) (by omega) apart
      have whole : k = n := ran.count.trans all
      subst whole
      obtain ⟨idx,off,buf⟩ := u
      have segs : buf = [memory m k] := ran.sourceBuf
      subst segs
      refine ⟨k,{t with sys := sys', live := s.live},?_,rfl,.inr ⟨by rw [same],by rw [same]; exact fs,?_⟩⟩
      · unfold copyOut
        rw [gave]
        simp only [Option.bind_eq_bind,Option.bind_some,if_true,copy]
        rw [freeVector rfl rfl mem' block (show ({t with sys := sys'} : Store σ).live = _ from live),
          intCount (by omega)]
        rfl
      · have moved : sys'.world = _ := ran.world
        rw [source,target,cellsTake _ _ (Nat.le_refl _),cellsTake _ _ (by omega)] at moved
        change (sys'.world.takes ((memory mem size).cells 0 k)).1 = _
        have there := memoryTransfer t.sys.world ((memory m k).cells 0 k) mem size 0
        rw [cellsLength] at there
        rw [moved,there,same,sys]
        exact putFront s m k less

/- Through any stack of modules over a file system with a plain read, a read puts the same bytes into the
caller's memory as a read of the file system itself, and gives the same result; what was allocated on the
way is freed. -/
theorem readsAgree (splice : Bool) (fs : Fs σ) (at' : Place) (plain : fs.bottom.readBuf = none)
    (has : fs.bottom.read = some read) (errors : fs.Errors) (reads : Reads read) (room : Room s)
    (away : ∀ k i j, s.heap k ≠ 0 → i < size → j < size → s.heap k + i ≠ mem + j) :
    ∃ res t, fuseFsRead splice fs at' mem size s = some (res,t) ∧ t.live = s.live ∧
      (res = -enomem ∧ t.fs = s.fs ∧ (∃ i, s.heap i = 0) ∨ match fs.converted at'.path with
        | .error e => res = e ∧ t.fs = s.fs
        | .ok path => ReadAs read {at' with path := path} mem size s t res) := by
  cases fs with
  | user ops =>
    simp only [Fs.bottom] at plain has
    obtain ⟨counted,-⟩ := reads at' size s.fs
    refine ⟨(read at' size s.fs).1,
      {s with fs := (read at' size s.fs).2.2}.puts mem (read at' size s.fs).2.1,?_,rfl,.inr ⟨rfl,rfl,?_⟩⟩
    · simp only [fuseFsRead,plain,has]
    · exact putFront {s with fs := (read at' size s.fs).2.2} mem size (by omega)
  | stacked conv next =>
    have below (at' : Place) (t : Store σ) (room : Room t) :
        ∃ r, fuseFsReadBuf next at' size t = some (noCount r) ∧ Filled read next.converted at' size t r :=
      stackFills (show next.bottom.readBuf = none from plain) has errors.2 room
    obtain ⟨r,gave,filled⟩ := moduleFills room errors.1 below
    exact copiedOut gave filled (fun e failed => errors.converted failed) reads away

/- A file system whose files say "hi!" and that counts its calls, below a module that changes the root. -/
def sayHi : Fs (List (Path × Nat)) := .stacked (StackedModules.subdirAddpath ⟨CString.ascii "/base"⟩ true) (.user
  {read := some fun at' size fs => (min size 3,([104,105,33] : List UInt8).take size,fs ++ [(at'.path,size)]),
    readBuf := none, write := none, writeBuf := none})

theorem readsHi :
    ∃ t, fuseFsRead true sayHi ⟨some (CString.ascii "/f"),0,7⟩ 5 2
      ⟨[],memorySys,[9],fun i => 10 * i + 10⟩ = some (2,t) ∧
    t.live = [9] ∧ t.fs = [(some (CString.ascii "/basef"),2)] ∧
      (t.sys.world.takes ((memory 5 2).cells 0 2)).1 = [104,105] := by
  have reads : Reads fun (at' : Place) size (fs : List (Path × Nat)) =>
      ((min size 3 : Int),([104,105,33] : List UInt8).take size,fs ++ [(at'.path,size)]) := by
    intro at' size fs
    simp only [List.length_take,List.length_cons,List.length_nil]
    omega
  have room : Room (⟨[],memorySys,[9],fun i => 10 * i + 10⟩ : Store (List (Path × Nat))) := by
    refine ⟨fun i _ inside => ?_,fun i j _ same => ?_⟩
    · have nine : 10 * i + 10 = 9 := List.mem_singleton.mp inside
      omega
    · simp only at same
      omega
  have errors : sayHi.Errors := by
    refine ⟨fun path e failed => ?_,trivial⟩
    cases path with
    | none => cases failed
    | some path =>
      simp only [StackedModules.subdirAddpath,if_true] at failed
      cases failed
  obtain ⟨res,t,ran,live,done⟩ := readsAgree (s := ⟨[],memorySys,[9],fun i => 10 * i + 10⟩) true sayHi
    ⟨some (CString.ascii "/f"),0,7⟩ rfl rfl errors reads room
    (fun k i j _ (less : i < 2) (less' : j < 2) (same : 10 * k + 10 + i = 5 + j) => by omega)
  have path : sayHi.converted (some (CString.ascii "/f")) = .ok (some (CString.ascii "/basef")) := by decide
  rw [path] at done
  cases done with
  | inl full =>
    obtain ⟨-,-,i,zero⟩ := full
    simp only at zero
    omega
  | inr same =>
    have two : res = 2 := same.value
    subst two
    exact ⟨t,ran,live,same.state,same.bytes⟩

/-! Writing. -/

variable {v : Bufvec} {write : Place → List UInt8 → σ → Int × σ}

/- The file system was not called, or it was called once with the first bytes of the vector: all of them
when they are in memory. -/
inductive WroteAs (write : Place → List UInt8 → σ → Int × σ) (at' : Place) (v : Bufvec) (s t : Store σ)
    (res : Int) : Prop
  | not (nonpos : res ≤ 0) (state : t.fs = s.fs)
    (memory : v.InMemory → commonCase v = none ∧ (res = -enomem ∧ (∃ i, s.heap i = 0) ∨ res = 0 ∧ v.rest = []))
  | once (n : Nat) (most : n ≤ v.rest.length) (all : v.InMemory → n = v.rest.length)
      (did : write at' (s.sys.world.takes (v.rest.take n)).1 s.fs = (res,t.fs))

theorem flatWrites (splice : Bool) (at' : Place) (write : Place → List UInt8 → σ → Int × σ)
    (first : v.idx = 0 ∧ v.off = 0) (small : commonCase v = none → fuseBufSize v < 2 ^ 31)
    (errnos : Errnos s.sys)
    (fresh : ∀ k, s.heap k ≠ 0 → ∀ i < fuseBufSize v, Cell.mem (s.heap k + i) ∉ v.rest) :
    ∃ res u t, writeFlat splice write at' v s = some (res,u,t) ∧ t.live = s.live ∧ WroteAs write at' v s t res := by
  have sound : v.Sound := fun b _ => by
    rw [first.2]
    exact Nat.zero_le _
  unfold writeFlat
  cases common : commonCase v with
  | some b =>
    obtain ⟨rest,-,-⟩ := commonRest common
    refine ⟨_,_,_,rfl,rfl,.once v.rest.length (Nat.le_refl _) (fun _ => rfl) ?_⟩
    rw [List.take_length,rest]
    rfl
  | none =>
    have small := small common
    have size : v.rest.length ≤ fuseBufSize v := restSize (Nat.lt_trans small (by decide))
    dsimp only
    by_cases full : s.heap 0 = 0
    · refine ⟨-enomem,v,s.malloc.2,?_,?_,.not (by decide) rfl fun _ => ⟨common,.inl ⟨rfl,0,full⟩⟩⟩
      · rw [if_pos (show s.malloc.1 = 0 from full)]
      · simp only [Store.malloc,if_pos full]
    · rw [if_neg (show s.malloc.1 ≠ 0 from full)]
      have target :
          Bufvec.rest {buf := [memory (s.heap 0) (fuseBufSize v)]} =
            (memory (s.heap 0) (fuseBufSize v)).cells 0 (fuseBufSize v) :=
        memoryRest _ _ 0
      have mem : ∀ c ∈ Bufvec.rest {buf := [memory (s.heap 0) (fuseBufSize v)]}, c.isMem = true := by
        rw [target]
        exact memoryMem _ _ 0 _
      have away : ∀ c ∈ v.rest, c ∉ Bufvec.rest {buf := [memory (s.heap 0) (fuseBufSize v)]} := fun c inside put => by
        rw [target] at put
        obtain ⟨i,-,less,rfl⟩ := memoryCells _ _ _ _ c put
        exact fresh 0 full i (by omega) inside
      have room : v.rest.length ≤ (Bufvec.rest {buf := [memory (s.heap 0) (fuseBufSize v)]}).length := by
        rw [target,cellsLength]
        exact size
      obtain ⟨r,d,u,t,n,copy,gave⟩ :=
        copyGives splice {} s.sys (memorySound (s.heap 0) (fuseBufSize v) 0 (Nat.zero_le _)) sound (by omega)
        (memApart away) (memoryHeld mem)
      have whole : v.InMemory → r = .ok v.rest.length := by
        intro inside
        obtain ⟨k,m,d',u',t',copy',ran⟩ :=
          memoryRan splice {} s.sys inside (memoryInMemory (s.heap 0) (fuseBufSize v) 0) sound
          (memorySound (s.heap 0) (fuseBufSize v) 0 (Nat.zero_le _)) (by omega) away
        cases copy.symm.trans copy'
        rw [ran.count,Nat.min_eq_left room]
      have most := gave.source
      have same : s.malloc.2.sys = s.sys := rfl
      have block : s.malloc.1 = s.heap 0 := rfl
      rw [same,block,copy]
      simp only [Option.bind_eq_bind,Option.bind_some]
      have freed : ∀ fs, ({s.malloc.2 with sys := t, fs := fs} : Store σ).free (s.heap 0) =
          some {s with sys := t, fs := fs, heap := fun i => s.heap (i + 1)} := by
        intro fs
        simp [Store.malloc,Store.free,full]
      obtain rfl | ⟨rfl,e,rfl⟩ := gave.gave
      · have count : int (.ok n) = n := intCount (by omega)
        by_cases none' : n = 0
        · subst none'
          rw [count,if_pos (show ((0 : Nat) : Int) ≤ 0 from Int.le_refl _),
            show ({s.malloc.2 with sys := t} : Store σ).free (s.heap 0) = _ from freed s.fs]
          refine ⟨_,_,_,rfl,rfl,.not (Int.le_refl _) rfl fun inside => ⟨common,.inr ⟨rfl,?_⟩⟩⟩
          have zero := whole inside
          injection zero with zero
          exact List.eq_nil_of_length_eq_zero zero.symm
        · rw [count,if_neg (by omega),Int.toNat_natCast]
          rw [show ∀ fs, ({s.malloc.2 with sys := t, fs := fs} : Store σ).free (s.heap 0) = _ from freed]
          refine ⟨_,_,_,rfl,rfl,.once n most (fun inside => ?_) ?_⟩
          · have all := whole inside
            injection all with all
          · have cells : (memory (s.heap 0) (fuseBufSize v)).cells 0 n = (memory (s.heap 0) n).cells 0
                (v.rest.take n).length := by
              rw [List.length_take,Nat.min_eq_left most,memorySize]
            have world : t.world = s.sys.world.transfer (v.rest.take n)
                ((memory (s.heap 0) n).cells 0 (v.rest.take n).length) := by
              rw [gave.world,target,cellsTake _ _ (by omega),cells]
            have length : (v.rest.take n).length = n := by rw [List.length_take,Nat.min_eq_left most]
            have bytes : ({s.malloc.2 with sys := t} : Store σ).bytes
                (memory (s.heap 0) n) = (s.sys.world.takes (v.rest.take n)).1 := by
              change (t.world.takes ((memory (s.heap 0) n).cells 0 n)).1 = _
              have there := memoryTransfer s.sys.world (v.rest.take n) (s.heap 0) n 0
              rw [world]
              rw [length] at there ⊢
              exact there
            rw [← bytes]
            rfl
      · obtain ⟨i,failed⟩ := gave.honest.errno e rfl
        obtain ⟨positive,fits⟩ := errnos i e failed
        have negative : int (.error e) = -e := intErrno fits
        rw [negative,if_pos (by omega),show ({s.malloc.2 with sys := t} : Store σ).free (s.heap 0) = _ from freed s.fs]
        refine ⟨_,_,_,rfl,rfl,.not (by omega) rfl fun inside => ?_⟩
        cases whole inside

/- What two vectors come to in the same stack: the same error on the way, or the same call of the bottom. -/
inductive Reached (splice : Bool) (write : Place → List UInt8 → σ → Int × σ) (conv : Path → Except Int Path)
    (at' : Place) (v w : Bufvec) (s : Store σ) : Int × Store σ → Int × Store σ → Prop
  | stopped {e : Int} {t t' : Store σ} (why : conv at'.path = .error e ∨ e = -enomem ∧ ∃ i, s.heap i = 0)
      (state : t.fs = s.fs)
    (state' : t'.fs = s.fs) : Reached splice write conv at' v w s (e,t) (e,t')
  | called {path : Path} {below : Place} {b c c' t t' : Store σ} {u u' : Bufvec} {res res' : Int}
      (ok : conv at'.path = .ok path)
    (place : below = {at' with path := path}) (same : Untouched s b)
    (ran : writeFlat splice write below v b = some (res,u,c))
    (ran' : writeFlat splice write below w b = some (res',u',c')) (state : t.fs = c.fs) (state' : t'.fs = c'.fs) :
    Reached splice write conv at' v w s (res,t) (res',t')

theorem Reached.above {conv later : Path → Except Int Path} {newpath : Path} {w : Bufvec} {r r' : Int × Store σ}
    (ok : conv at'.path = .ok newpath) (same : Untouched s t)
    (reached : Reached splice write later {at' with path := newpath} v w t r r') {live live' : List Nat} :
    Reached splice write (fun path => (conv path).bind later) at' v w s (r.1,{r.2 with live := live})
      (r'.1,{r'.2 with live := live'}) := by
  have bind : (conv at'.path).bind later = later newpath := by rw [ok]; rfl
  cases reached with
  | stopped why state state' =>
    refine .stopped (why.imp bind.trans (And.imp_right same.full)) (state.trans same.fs) (state'.trans same.fs)
  | called ok' place same' ran ran' state state' =>
    exact .called (bind.trans ok') place (same.trans same') ran ran' state state'

def Writes (splice : Bool) (write : Place → List UInt8 → σ → Int × σ) (v : Bufvec) (s : Store σ) : Prop :=
  ∀ at' b, Untouched s b → ∃ res u t, writeFlat splice write at' v b = some (res,u,t) ∧ t.live = b.live

theorem stackWrites {w : Bufvec} (plain : fs.bottom.writeBuf = none) (has : fs.bottom.write = some write)
    (first : v.idx = 0 ∧ v.off = 0) (first' : w.idx = 0 ∧ w.off = 0) (room : Room s) (writes : Writes splice write v s)
    (writes' : Writes splice write w s) : ∃ res u t res' u' t', fuseFsWriteBuf splice fs at' v s = some (res,u,t) ∧
      fuseFsWriteBuf splice fs at' w s = some (res',u',t') ∧ t.live = s.live ∧ t'.live = s.live ∧
      Reached splice write fs.converted at' v w s (res,t) (res',t') := by
  induction fs generalizing at' s with
  | user ops =>
    simp only [Fs.bottom] at plain has
    obtain ⟨res,u,t,ran,live⟩ := writes at' s (.refl s)
    obtain ⟨res',u',t',ran',live'⟩ := writes' at' s (.refl s)
    refine ⟨res,u,t,res',u',t',?_,?_,live,live',.called rfl rfl (.refl s) ran ran' rfl rfl⟩
    · simp only [fuseFsWriteBuf,plain,has,if_pos first,ran]
    · simp only [fuseFsWriteBuf,plain,has,if_pos first',ran']
  | stacked conv next ih =>
    obtain ⟨r,made,case⟩ := convpathMakes conv at'.path room
    simp only [fuseFsWriteBuf,if_pos first,if_pos first',made,Option.bind_eq_bind,Option.bind_some]
    cases case with
    | @full t same live memory =>
      exact ⟨_,_,_,_,_,_,rfl,rfl,live,live,.stopped (.inr ⟨rfl,memory⟩) same.fs same.fs⟩
    | @failed t e same live error =>
      exact ⟨_,_,_,_,_,_,rfl,rfl,live,live,.stopped (.inl (by rw [Fs.converted,error]; rfl)) same.fs same.fs⟩
    | @null newpath ok =>
      obtain ⟨res,u,t,res',u',t',ran,ran',live,live',reached⟩ :=
        @ih {at' with path := newpath} s plain has room writes writes'
      refine ⟨res,u,t,res',u',t',?_,?_,live,live',reached.above ok (.refl s)⟩
      · simp only [ran,Option.bind_some,Store.free,if_true]
      · simp only [ran',Option.bind_some,Store.free,if_true]
    | @block t newpath block ok some' same live apart =>
      obtain ⟨res,u,b,res',u',b',ran,ran',blocks,blocks',reached⟩ := @ih {at' with path := newpath} t plain has
        (room.block same live apart) (fun at' b later => writes at' b (same.trans later))
        (fun at' b later => writes' at' b (same.trans later))
      have freed {c : Store σ} (blocks : c.live = t.live) : c.free block = some {c with live := s.live} := by
        simp [Store.free,some',blocks,live]
      refine ⟨res,u,{b with live := s.live},res',u',{b' with live := s.live},?_,?_,rfl,rfl,reached.above ok same⟩
      · simp only [ran,Option.bind_some,freed blocks]
      · simp only [ran',Option.bind_some,freed blocks']

/- Through any stack of modules over a file system with a plain write, the file system is called at most
once, with the first bytes that the vector has; what was allocated is freed. A vector in memory is written
as its bytes are from one place, unless the block for them is refused or it has none. -/
theorem writesAgree (splice : Bool) (fs : Fs σ) (at' : Place) (plain : fs.bottom.writeBuf = none)
    (has : fs.bottom.write = some write) (first : v.idx = 0 ∧ v.off = 0)
    (small : commonCase v = none → fuseBufSize v < 2 ^ 31) (errnos : Errnos s.sys) (room : Room s)
    (fresh : ∀ k, s.heap k ≠ 0 → ∀ i < fuseBufSize v, Cell.mem (s.heap k + i) ∉ v.rest) :
    ∃ res u t, fuseFsWriteBuf splice fs at' v s = some (res,u,t) ∧ t.live = s.live ∧
      (res = -enomem ∧ t.fs = s.fs ∧ (∃ i, s.heap i = 0) ∨ match fs.converted at'.path with
        | .error e => res = e ∧ t.fs = s.fs
        | .ok path => WroteAs write {at' with path := path} v s t res) ∧
      ∀ flat, v.InMemory →
        (s.sys.world.takes ((memory flat v.rest.length).cells 0 v.rest.length)).1 = (s.sys.world.takes v.rest).1 →
          ∃ res' u' t', fuseFsWrite splice fs at' flat v.rest.length s = some (res',u',t') ∧ t'.live = s.live ∧
            (res' = res ∧ t'.fs = t.fs ∨ commonCase v = none ∧ t.fs = s.fs ∧
              (res = -enomem ∧ (∃ i, s.heap i = 0) ∨ res = 0 ∧ v.rest = [])) := by
  have later (at' : Place) (b : Store σ) (same : Untouched s b) :
      ∃ res u t, writeFlat splice write at' v b = some (res,u,t) ∧ t.live = b.live ∧ WroteAs write at' v b t res := by
    refine flatWrites splice at' write first small (by rw [same.sys]; exact errnos) fun k some' i less => ?_
    obtain ⟨m,heap⟩ := same.heap
    rw [heap] at some' ⊢
    exact fresh _ some' i less
  have writes : Writes splice write v s := fun at' b same => by
    obtain ⟨res,u,t,ran,live,-⟩ := later at' b same
    exact ⟨res,u,t,ran,live⟩
  have flatly (flat n : Nat) : Writes splice write {buf := [memory flat n]} s := fun at' b _ => ⟨_,_,_,rfl,rfl⟩
  have both (flat : Nat) :=
    @stackWrites σ splice fs at' s v write {buf := [memory flat v.rest.length]} plain has first
      ⟨rfl,rfl⟩ room writes (flatly flat v.rest.length)
  obtain ⟨res,u,t,_,_,_,ran,-,live,-,reached⟩ := both 0
  refine ⟨res,u,t,ran,live,?_,fun flat inside bytes => ?_⟩
  · cases reached with
    | stopped why state =>
      obtain error | ⟨rfl,memory⟩ := why
      · rw [error]
        exact .inr ⟨rfl,state⟩
      · exact .inl ⟨rfl,state,memory⟩
    | @called path below b c _ _ _ _ _ _ _ ok place same ran _ state =>
      obtain ⟨res',u',c',ran',-,wrote⟩ := later below b same
      cases ran.symm.trans ran'
      rw [ok]
      subst place
      refine .inr ?_
      cases wrote with
      | not nonpos kept memory =>
        exact .not nonpos (state.trans (kept.trans same.fs)) fun inside => (memory inside).imp_right
          (Or.imp_left (And.imp_right same.full))
      | once n most all did =>
        rw [same.sys,same.fs,← state] at did
        exact .once n most all did
  · obtain ⟨res₂,u₂,t₂,res',u',t',ran₂,ran',-,live',reached'⟩ := both flat
    cases ran.symm.trans ran₂
    refine ⟨res',u',t',ran',live',?_⟩
    cases reached' with
    | stopped why state state' => exact .inl ⟨rfl,state'.trans state.symm⟩
    | @called path below b c c' _ _ _ _ _ _ ok place same call call' state state' =>
      obtain ⟨_,_,_,again,-,wrote⟩ := later below b same
      cases call.symm.trans again
      cases wrote with
      | not nonpos kept memory =>
        obtain ⟨common,why⟩ := memory inside
        exact .inr ⟨common,state.trans (kept.trans same.fs),why.imp_left (And.imp_right same.full)⟩
      | once n most all did =>
        have whole := all inside
        subst whole
        rw [List.take_length,same.sys,← bytes] at did
        have one : writeFlat splice write below {buf := [memory flat v.rest.length]} b =
            some ((write below (b.bytes (memory flat v.rest.length)) b.fs).1,{buf := [memory flat v.rest.length]},
              {b with fs := (write below (b.bytes (memory flat v.rest.length)) b.fs).2}) := rfl
        have stands : b.bytes (memory flat v.rest.length) =
            (s.sys.world.takes ((memory flat v.rest.length).cells 0 v.rest.length)).1 := by
          rw [Store.bytes,same.sys]
          rfl
        rw [one,stands,did] at call'
        cases call'
        exact .inl ⟨rfl,state'.trans state.symm⟩

/- A file system that keeps what it was given to write, below the same module. -/
def keeps : Fs (List (Path × List UInt8)) := .stacked (StackedModules.subdirAddpath ⟨CString.ascii "/base"⟩ true) (.user
  {read := none, readBuf := none, write := some fun at' bytes fs =>
    (bytes.length,fs ++ [(at'.path,bytes)]), writeBuf := none})

theorem keepsTwoSegments :
    ∃ u t, fuseFsWriteBuf true keeps ⟨some (CString.ascii "/f"),0,7⟩ {buf := [segment 70 2,segment 80 3]}
    ⟨[],memorySys,[9],fun i => 10 * i + 100⟩ = some (5,u,t) ∧ t.live = [9] ∧
      t.fs = [(some (CString.ascii "/basef"),[70,71,80,81,82])] := by
  have errnos : Errnos memorySys := by
    intro i e failed
    cases failed
    decide
  have room : Room (⟨[],memorySys,[9],fun i => 10 * i + 100⟩ : Store (List (Path × List UInt8))) := by
    refine ⟨fun i _ inside => ?_,fun i j _ same => ?_⟩
    · have nine : 10 * i + 100 = 9 := List.mem_singleton.mp inside
      omega
    · simp only at same
      omega
  have cells : Bufvec.rest {buf := [segment 70 2,segment 80 3]} = [.mem 70,.mem 71,.mem 80,.mem 81,.mem 82] := by decide
  obtain ⟨res,u,t,ran,live,done,-⟩ := writesAgree (s := ⟨[],memorySys,[9],fun i => 10 * i + 100⟩)
    (v := {buf := [segment 70 2,segment 80 3]}) true keeps ⟨some (CString.ascii "/f"),0,7⟩ rfl rfl
    ⟨rfl,rfl⟩ (by decide) errnos room
    (fun k _ i _ inside => by
      rw [cells] at inside
      simp at inside
      omega)
  have path : keeps.converted (some (CString.ascii "/f")) = .ok (some (CString.ascii "/basef")) := by decide
  have inside : Bufvec.InMemory {buf := [segment 70 2,segment 80 3]} := by decide
  rw [path] at done
  obtain ⟨-,-,i,zero⟩ | done := done
  · simp only at zero
    omega
  · cases done with
    | not nonpos state memory =>
      obtain ⟨-,⟨-,i,zero⟩ | ⟨-,empty⟩⟩ := memory inside
      · simp only at zero
        omega
      · cases cells.symm.trans empty
    | once n most all did =>
      have five : n = 5 := all inside
      subst five
      have told := congrArg Prod.fst did
      have left := congrArg Prod.snd did
      have result : res = 5 := told.symm
      subst result
      exact ⟨u,t,ran,live,left.symm⟩

end FuseStudy.FsBuffers
