import FuseStudy.InitOffer

/-! The memory that requests are read into: buf_alloc, fuse_buf_free and the reading loop of
_fuse_session_receive_buf in lib/fuse_lowlevel.c. -/
namespace FuseStudy.RequestBuffer
open DoInit InitOffer

/- A page size: a power of two that is an int. -/
structure Page where
  log : Nat
  least : 12 ≤ log
  most : log ≤ 30

def Page.size (page : Page) : Nat := 2 ^ page.log

def Page.pagesize (page : Page) : BitVec 64 := BitVec.ofNat 64 page.size

structure Pointer where
  block : Nat
  offset : Int
  deriving DecidableEq, Repr

def Pointer.add (p : Pointer) (bytes : Int) : Pointer := {p with offset := p.offset + bytes}

/- `sizes` are the blocks in the order they were allocated, `freed` what was passed to free and `reads`
where how many bytes were read to. -/
structure Heap where
  sizes : List Nat
  freed : List Pointer
  reads : List (Pointer × Nat)
  deriving DecidableEq, Repr

def Heap.blockSize (h : Heap) (p : Pointer) : Nat := (h.sizes[p.block]?).getD 0

/- The bytes of its block that a pointer has from itself on. -/
def Heap.addressable (h : Heap) (p : Pointer) : Int := if 0 ≤ p.offset then h.blockSize p - p.offset else 0

def alignedAlloc (h : Heap) (done : Bool) (size : BitVec 64) : Option Pointer × Heap :=
  if done then (some ⟨h.sizes.length,0⟩,{h with sizes := h.sizes ++ [size.toNat]}) else (none,h)

def malloc (h : Heap) (done : Bool) (size : BitVec 64) : Option Pointer × Heap := alignedAlloc h done size

def free (h : Heap) (p : Pointer) : Heap := {h with freed := h.freed ++ [p]}

def readInto (h : Heap) (p : Pointer) (bytes : BitVec 64) : Heap := {h with reads := h.reads ++ [(p,bytes.toNat)]}

def roundUp (val roundTo : BitVec 64) : BitVec 64 := (val + (roundTo - 1)) &&& ~~~(roundTo - 1)

def sizeofInHeader : Nat := 40

def sizeofWriteIn : Nat := 40

def writeHeaderSz : Nat := sizeofInHeader + sizeofWriteIn

structure FuseBuf where
  mem : Option Pointer
  memSize : BitVec 64
  deriving DecidableEq, Repr

variable (page : Page)

def fuseBufFree (h : Heap) (buf : FuseBuf) : Heap × FuseBuf :=
  match buf.mem with
  | none => (h,buf)
  | some p => (free h ((p.add (-page.size)).add writeHeaderSz),{buf with mem := none})

def bufAlloc (h : Heap) (done : Bool) (size : BitVec 64) (internal : Bool) : Option Pointer × Heap :=
  if internal then
    let newSize := roundUp (size + BitVec.ofNat 64 writeHeaderSz) page.pagesize
    let (buf,h) := alignedAlloc h done newSize
    (buf.map fun p => p.add (page.size - writeHeaderSz),h)
  else malloc h done size

inductive ReadEnd
  | exited
  | bytes
  | einval
  | enoent
  | error
  deriving DecidableEq, Repr

structure Attempt where
  res : ReadEnd
  bufsize : BitVec 64
  alloc : Bool
  deriving DecidableEq, Repr

def restart (internal : Bool) : List Attempt → BitVec 64 → Heap → Pointer → FuseBuf → Heap × FuseBuf
  | [],_,h,_,buf => (h,buf)
  | a::rest,bufsize,h,p,buf =>
    let h := readInto h p bufsize
    match a.res with
    | .enoent => restart internal rest bufsize h p buf
    | .einval =>
      if internal = true ∧ bufsize < a.bufsize then
        match bufAlloc page h a.alloc a.bufsize internal with
        | (none,h) => (h,buf)
        | (some newbuf,h) => restart internal rest a.bufsize (fuseBufFree page h buf).1 newbuf ⟨some newbuf,a.bufsize⟩
      else (h,buf)
    | _ => (h,buf)

/- From the label fallback on; `bufsize` and `alloc` are those of the first allocation. -/
def fallback (internal : Bool) (bufsize : BitVec 64) (alloc : Bool) (l : List Attempt) (h : Heap) (buf : FuseBuf) :
    Heap × FuseBuf :=
  match buf.mem with
  | some p => restart page internal l (if internal then buf.memSize else bufsize) h p buf
  | none =>
    match bufAlloc page h alloc bufsize internal with
    | (none,h) => (h,buf)
    | (some p,h) => restart page internal l bufsize h p ⟨some p,if internal then bufsize else buf.memSize⟩

theorem Page.one : 1 ≤ page.size := Nat.one_le_two_pow

theorem Page.large : 2 ^ 12 ≤ page.size := Nat.pow_le_pow_right (by omega) page.least

theorem Page.small : page.size ≤ 2 ^ 30 := Nat.pow_le_pow_right (by omega) page.most

theorem pagesizeValue : page.pagesize.toNat = page.size := by
  have small := page.small
  exact Nat.mod_eq_of_lt (by omega)

theorem maskValue : (page.pagesize - 1).toNat = page.size - 1 := by
  have le : 1 ≤ page.pagesize := by
    rw [BitVec.le_def,pagesizeValue]
    exact page.one
  rw [BitVec.toNat_sub_of_le le,pagesizeValue]
  rfl

theorem maskBits {k : Nat} : (page.pagesize - 1).getLsbD k = decide (k < page.log) := by
  rw [← BitVec.testBit_toNat,maskValue,Page.size,Nat.testBit_two_pow_sub_one]

theorem maskedShifts (word : BitVec 64) : word &&& ~~~(page.pagesize - 1) = (word >>> page.log) <<< page.log := by
  apply BitVec.eq_of_getLsbD_eq
  intro k small
  rw [BitVec.getLsbD_and,BitVec.getLsbD_not,maskBits,BitVec.getLsbD_shiftLeft,BitVec.getLsbD_ushiftRight]
  by_cases low : k < page.log
  · simp [low]
  · simp [low,small,Nat.add_sub_cancel' (Nat.le_of_not_lt low)]

theorem roundUpValue {val : BitVec 64} (fits : val.toNat + page.size ≤ 2 ^ 64) :
    (roundUp val page.pagesize).toNat = (val.toNat + (page.size - 1)) / page.size * page.size := by
  have one := page.one
  have sum : (val + (page.pagesize - 1)).toNat = val.toNat + (page.size - 1) := by
    rw [BitVec.toNat_add,maskValue,Nat.mod_eq_of_lt (by omega)]
  have below := Nat.div_mul_le_self (val.toNat + (page.size - 1)) page.size
  rw [roundUp,maskedShifts,BitVec.toNat_shiftLeft,BitVec.toNat_ushiftRight,sum,Nat.shiftRight_eq_div_pow,
    Nat.shiftLeft_eq]
  exact Nat.mod_eq_of_lt (by simp only [Page.size] at *; omega)

theorem roundedRoom {n p : Nat} (pos : 0 < p) (room : Nat) (small : room < p) :
    n + p ≤ (n + (p - 1)) / p * p + room ↔ 1 ≤ n % p ∧ n % p ≤ room := by
  have split := Nat.div_add_mod n p
  have rest := Nat.mod_lt n pos
  generalize n % p = r at *
  generalize quotient : n / p = q at *
  by_cases exact : r = 0
  · have up : (n + (p - 1)) / p = q := by
      rw [← split,exact,Nat.add_zero,Nat.mul_add_div pos,Nat.div_eq_of_lt (by omega),Nat.add_zero]
    rw [up,Nat.mul_comm q p]
    omega
  · have up : (n + (p - 1)) / p = q + 1 := by
      have past : n + (p - 1) = p * (q + 1) + (r - 1) := by rw [Nat.mul_add]; omega
      rw [past,Nat.mul_add_div pos,Nat.div_eq_of_lt (by omega),Nat.add_zero]
    rw [up,Nat.add_mul,Nat.mul_comm q p]
    omega

/- The sessions of a library: new ones, those that read their requests themselves, and what INIT requests
make of them. -/
inductive Reached (b : Build) : Session → Prop
  | new (op : LowlevelOps) (io : Option CustomIo) (moMaxRead : BitVec 32) : Reached b (fuseSessionNew b op io moMaxRead)
  | internal {s : Session} (before : Reached b s) : Reached b {s with bufReallocable := true}
  | init {s : Session} (arg : InitIn) (before : Reached b s) : Reached b (doInit b s arg).1

theorem widened (x : BitVec 32) : (x.setWidth 64).toNat < 2 ^ 32 := by
  have small := x.isLt
  rw [BitVec.toNat_setWidth]
  exact Nat.lt_of_le_of_lt (Nat.mod_le _ _) small

theorem replyBufsize {b : Build} {s : Session} {arg : InitIn} (small : s.bufsize.toNat < 2 ^ 32) :
    (replyInit b s arg).1.bufsize.toNat < 2 ^ 32 := by
  unfold replyInit
  split
  · exact small
  · dsimp only
    split <;> exact widened _

theorem initBufsizeSmall {b : Build} {s : Session} {arg : InitIn} (small : s.bufsize.toNat < 2 ^ 32) :
    (doInit b s arg).1.bufsize.toNat < 2 ^ 32 := by
  unfold doInit
  split
  · exact small
  · split
    · exact small
    · have called (t : Session) : (callInit (offerConn b t arg)).bufsize = t.bufsize :=
        calledTouched.bufsize.trans defaultsTouched.bufsize
      dsimp only
      split
      · apply replyBufsize
        rw [called]
        exact small
      · show (callInit _).bufsize.toNat < 2 ^ 32
        rw [called]
        exact small

theorem Reached.bufsize {b : Build} {s : Session} (reached : Reached b s) : s.bufsize.toNat < 2 ^ 32 := by
  induction reached with
  | new op io moMaxRead => exact widened _
  | internal before ih => exact ih
  | init arg before ih => exact initBufsizeSmall ih

variable {page}

def blockSize (page : Page) (size : BitVec 64) : Nat :=
  (size.toNat + writeHeaderSz + (page.size - 1)) / page.size * page.size

theorem newSizeValue {size : BitVec 64} (small : size.toNat < 2 ^ 63) :
    (roundUp (size + BitVec.ofNat 64 writeHeaderSz) page.pagesize).toNat = blockSize page size := by
  have bound := page.small
  have sum : (size + BitVec.ofNat 64 writeHeaderSz).toNat = size.toNat + writeHeaderSz := by
    rw [BitVec.toNat_add]
    exact Nat.mod_eq_of_lt (by simp only [writeHeaderSz,sizeofInHeader,sizeofWriteIn,BitVec.toNat_ofNat]; omega)
  rw [roundUpValue page (by rw [sum]; simp only [writeHeaderSz,sizeofInHeader,sizeofWriteIn]; omega),sum,blockSize]

def handedOut (page : Page) (h : Heap) : Pointer := ⟨h.sizes.length,page.size - writeHeaderSz⟩

theorem allocatedInternal {h : Heap} {size : BitVec 64} (small : size.toNat < 2 ^ 63) :
    bufAlloc page h true size true = (some (handedOut page h),{h with sizes := h.sizes ++ [blockSize page size]}) := by
  simp only [bufAlloc,alignedAlloc,if_true,newSizeValue small,Option.map_some,Pointer.add,handedOut,Int.zero_add]

theorem handedRoom {h : Heap} {n : Nat} :
    Heap.addressable {h with sizes := h.sizes ++ [n]} (handedOut page h) = n - (page.size - writeHeaderSz) := by
  have large := page.large
  have inside : (0 : Int) ≤ page.size - writeHeaderSz := by
    simp only [writeHeaderSz,sizeofInHeader,sizeofWriteIn]
    omega
  have found : Heap.blockSize {h with sizes := h.sizes ++ [n]} (handedOut page h) = n := by
    simp [Heap.blockSize,handedOut]
  rw [Heap.addressable,found]
  exact if_pos inside

theorem freedExactly {h g : Heap} {memSize : BitVec 64} :
    (fuseBufFree page g ⟨some (handedOut page h),memSize⟩).1 = free g ⟨h.sizes.length,0⟩ := by
  have back : (page.size - writeHeaderSz : Int) + -page.size + writeHeaderSz = 0 := by omega
  simp only [fuseBufFree,Pointer.add,handedOut,back]

/- The remainder of the room asked for, with the write header, is not more than twice that header. -/
def Fits (page : Page) (size : BitVec 64) : Prop :=
  1 ≤ (size.toNat + writeHeaderSz) % page.size ∧ (size.toNat + writeHeaderSz) % page.size ≤ 2 * writeHeaderSz

instance (page : Page) (size : BitVec 64) : Decidable (Fits page size) := inferInstanceAs (Decidable (_ ∧ _))

theorem roomFits {size : BitVec 64} :
    (size.toNat : Int) ≤ blockSize page size - (page.size - writeHeaderSz) ↔ Fits page size := by
  have large := page.large
  have room := roundedRoom (n := size.toNat + writeHeaderSz) page.one (2 * writeHeaderSz)
    (by simp only [writeHeaderSz,sizeofInHeader,sizeofWriteIn]; omega)
  rw [Fits,← room,blockSize]
  simp only [writeHeaderSz,sizeofInHeader,sizeofWriteIn]
  omega

/- What a request buffer of `size` bytes is for: that many bytes may be read into it, and freeing it
frees what was allocated. -/
def Holds (page : Page) (h : Heap) (size : BitVec 64) : Prop :=
  ∃ p g, bufAlloc page h true size true = (some p,g) ∧ (size.toNat : Int) ≤ g.addressable p ∧
    ∃ raw, (alignedAlloc h true (roundUp (size + BitVec.ofNat 64 writeHeaderSz) page.pagesize)) = (some raw,g) ∧
      (fuseBufFree page g ⟨some p,size⟩).1.freed = g.freed ++ [raw]

theorem holdsIff {h : Heap} {size : BitVec 64} (small : size.toNat < 2 ^ 63) : Holds page h size ↔ Fits page size := by
  have allocated :
      bufAlloc page h true size true = (some (handedOut page h),{h with sizes := h.sizes ++ [blockSize page size]}) :=
    allocatedInternal small
  rw [← roomFits]
  constructor
  · rintro ⟨p,g,same,room,-⟩
    rw [allocated] at same
    cases same
    exact handedRoom ▸ room
  · intro room
    refine ⟨_,_,allocated,handedRoom.symm ▸ room,⟨h.sizes.length,0⟩,?_,?_⟩
    · rw [alignedAlloc,if_pos rfl,newSizeValue small]
    · rw [freedExactly]
      rfl

/- Every buffer of the library, from its first request on. -/
theorem bufferHolds {b : Build} {s : Session} (page : Page) (h : Heap)
    (reached : Reached {b with pagesize := page.size} s) :
    Holds page h s.bufsize ↔ Fits page s.bufsize :=
  holdsIff (Nat.lt_trans reached.bufsize (by decide))

theorem bufferHoldsDefault :
    let page : Page := ⟨12,by decide,by decide⟩
    let s := fuseSessionNew ⟨true,true,page.size⟩ ⟨true,true,true,true,true,true,none⟩ none 0
    Holds page ⟨[],[],[]⟩ s.bufsize :=
  (bufferHolds (b := ⟨true,true,4096⟩) _ _ (.new _ _ _)).mpr (by decide +kernel)

/- A file system that writes at most 129 KiB at a time: 136192 bytes are read into 135248. -/
theorem bufferShort :
    let page : Page := ⟨12,by decide,by decide⟩
    let b : Build := ⟨true,true,page.size⟩
    let s := {fuseSessionNew b
      ⟨false,false,false,false,false,true,some [.maxWrite 132096]⟩ none 0 with bufReallocable := true}
    let arg : InitIn := ⟨7,40,131072,0x7ffffffb,0xff⟩
    let t := (doInit b s arg).1
    Reached b t ∧ (∃ out, (doInit b s arg).2 = .ok out 64) ∧ t.bufsize = 136192 ∧
      (bufAlloc page ⟨[],[],[]⟩ true t.bufsize true).1 = some ⟨0,4016⟩ ∧
      (bufAlloc page ⟨[],[],[]⟩ true t.bufsize true).2.addressable ⟨0,4016⟩ = 135248 ∧
        ¬Holds page ⟨[],[],[]⟩ t.bufsize := by
  intro page b s arg t
  have size : t.bufsize = 136192 := by decide +kernel
  refine ⟨.init _ (.internal (.new _ _ _)),⟨outarg b t arg,by decide +kernel⟩,size,?_,?_,?_⟩
  · rw [size]
    decide +kernel
  · rw [size]
    decide +kernel
  · rw [size,holdsIff (by decide)]
    decide +kernel

/- Every read was into memory that was there, and only whole blocks were freed. -/
structure Clean (h : Heap) : Prop where
  reads : ∀ r ∈ h.reads, r.1.block < h.sizes.length ∧ (r.2 : Int) ≤ h.addressable r.1
  freed : ∀ p ∈ h.freed, p.offset = 0

structure Room (page : Page) (h : Heap) (p : Pointer) (size : BitVec 64) : Prop where
  block : p.block < h.sizes.length
  offset : p.offset = page.size - writeHeaderSz
  size : (size.toNat : Int) ≤ h.addressable p

theorem addressableGrows {h : Heap} {p : Pointer} {n : Nat} (inside : p.block < h.sizes.length) :
    Heap.addressable {h with sizes := h.sizes ++ [n]} p = h.addressable p := by
  simp only [Heap.addressable,Heap.blockSize,List.getElem?_append_left inside]

theorem Clean.grow {h : Heap} (clean : Clean h) (n : Nat) : Clean {h with sizes := h.sizes ++ [n]} := by
  refine ⟨fun r seen => ?_,clean.freed⟩
  obtain ⟨inside,room⟩ := clean.reads r seen
  exact ⟨by simp only [List.length_append]; omega,(addressableGrows inside).symm ▸ room⟩

theorem Clean.read {h : Heap} {p : Pointer} {size : BitVec 64} (clean : Clean h) (room : Room page h p size) :
    Clean (readInto h p size) := by
  refine ⟨fun r seen => ?_,clean.freed⟩
  rcases List.mem_append.mp seen with before | now
  · exact clean.reads r before
  · cases List.mem_singleton.mp now
    exact ⟨room.block,room.size⟩

theorem Clean.free {h : Heap} {p : Pointer} (clean : Clean h) (whole : p.offset = 0) :
    Clean (RequestBuffer.free h p) := by
  refine ⟨clean.reads,fun q seen => ?_⟩
  rcases List.mem_append.mp seen with before | now
  · exact clean.freed q before
  · cases List.mem_singleton.mp now
    exact whole

theorem newRoom {h : Heap} {size : BitVec 64} (fits : Fits page size) :
    Room page {h with sizes := h.sizes ++ [blockSize page size]} (handedOut page h) size := by
  refine ⟨by simp [handedOut],rfl,?_⟩
  rw [handedRoom]
  exact roomFits.mpr fits

theorem freeClean {h : Heap} {p : Pointer} {memSize : BitVec 64} (clean : Clean h)
    (offset : p.offset = page.size - writeHeaderSz) : Clean (fuseBufFree page h ⟨some p,memSize⟩).1 := by
  refine clean.free ?_
  show p.offset + -page.size + writeHeaderSz = 0
  omega

theorem restartClean {l : List Attempt} {bufsize memSize : BitVec 64} {h : Heap} {p : Pointer} (clean : Clean h)
    (room : Room page h p bufsize) (fits : ∀ a ∈ l, a.bufsize.toNat < 2 ^ 63 ∧ Fits page a.bufsize) :
    Clean (restart page true l bufsize h p ⟨some p,memSize⟩).1 := by
  induction l generalizing bufsize memSize h p with
  | nil => exact clean
  | cons a l ih =>
    have read := clean.read room
    have later : ∀ x ∈ l, x.bufsize.toNat < 2 ^ 63 ∧ Fits page x.bufsize := fun x inside =>
      fits x (List.mem_cons_of_mem a inside)
    unfold restart
    dsimp only
    split
    · exact ih read ⟨room.block,room.offset,room.size⟩ later
    · split
      · obtain ⟨small,fit⟩ := fits a List.mem_cons_self
        cases done : a.alloc with
        | false => exact read
        | true =>
          rw [allocatedInternal small]
          have grown := newRoom (h := readInto h p bufsize) fit
          exact ih (freeClean (read.grow _) room.offset) ⟨grown.block,grown.offset,grown.size⟩ later
      · exact read
    · exact read

end FuseStudy.RequestBuffer
