import FuseStudy.InitOffer

/-! The sizes that do_init negotiates: max_write, the buffer for requests and max_pages. -/
namespace FuseStudy.InitSizes
open FlagWords DoInit InitOffer

/- A session as fuse_session_new made it, whatever INIT requests came since. -/
inductive Reached (b : Build) : Session → Prop
  | new (op : LowlevelOps) (io : Option CustomIo) (moMaxRead : BitVec 32) : Reached b (fuseSessionNew b op io moMaxRead)
  | reallocable {s : Session} (before : Reached b s) : Reached b {s with bufReallocable := true}
  | init {s : Session} (arg : InitIn) (before : Reached b s) : Reached b (doInit b s arg).1

def called (b : Build) (s : Session) (arg : InitIn) : Session :=
  callInit (offerConn b {s with conn := {s.conn with
    protoMajor := arg.major
    protoMinor := arg.minor
    capableExt := 0
    wantExt := 0}} arg)

theorem calledKeeps (b : Build) (s : Session) (arg : InitIn) :
    (called b s arg).bufsize = s.bufsize ∧ (called b s arg).bufReallocable = s.bufReallocable := by
  have offered := calledTouched (s := offerConn b {s with conn := {s.conn with
    protoMajor := arg.major
    protoMinor := arg.minor
    capableExt := 0
    wantExt := 0}} arg)
  have defaults := defaultsTouched (s := {s with conn := {s.conn with
    protoMajor := arg.major
    protoMinor := arg.minor
    maxReadahead := maxReadahead {s with conn := {s.conn with
      protoMajor := arg.major
      protoMinor := arg.minor
      capableExt := 0
      wantExt := 0}} arg
    capableExt := capableExt b {s with conn := {s.conn with
      protoMajor := arg.major
      protoMinor := arg.minor
      capableExt := 0
      wantExt := 0}} arg
    wantExt := 0}})
  exact ⟨offered.bufsize.trans defaults.bufsize,offered.reallocable.trans defaults.reallocable⟩

def limited (s : Session) (arg : InitIn) : Session :=
  if 13#32 ≤ arg.minor then {s with conn := setCongestion s.conn} else s

theorem limitedKeeps (s : Session) (arg : InitIn) :
    (limited s arg).bufsize = s.bufsize ∧ (limited s arg).conn.maxWrite = s.conn.maxWrite := by
  have write : (setCongestion s.conn).maxWrite = s.conn.maxWrite := by
    simp only [setCongestion,apply_ite ConnInfo.maxWrite,ite_self]
  unfold limited
  split
  · exact ⟨rfl,write⟩
  · exact ⟨rfl,rfl⟩

structure Negotiated (b : Build) (s t : Session) (arg : InitIn) (out : InitOut) : Prop where
  bufsize : t.bufsize = (setSizes b (called b s arg) arg).bufsize
  maxWrite : out.maxWrite = (setSizes b (called b s arg) arg).conn.maxWrite
  maxPages : out.maxPages = maxPages b (setSizes b (called b s arg) arg) arg
  flags : ∃ u : Session, out.flags = (outargflags u arg).setWidth 32

theorem doInitSource {b : Build} {s t : Session} {arg : InitIn} {reply : Reply} (done : doInit b s arg = (t,reply)) :
    t.bufsize = s.bufsize ∧ (arg.major = 7 → ∃ errno, reply = .err errno) ∨
      ∃ out size, reply = .ok out size ∧ Negotiated b s t arg out := by
  simp only [doInit] at done
  split at done
  · cases done
    exact .inl ⟨rfl,fun _ => ⟨_,rfl⟩⟩
  · split at done
    · rename_i new
      cases done
      exact .inl ⟨rfl,fun seven => absurd new (by rw [seven]; decide)⟩
    · change (if wantFlagsValid (called b s arg).conn.capableExt (called b s arg).conn.wantExt = true then
        replyInit b (called b s arg) arg else refuse (called b s arg)) = (t,reply) at done
      have kept := (calledKeeps b s arg).1
      split at done
      · unfold replyInit at done
        split at done
        · obtain ⟨rfl,rfl⟩ := Prod.mk.inj done
          exact .inl ⟨kept,fun _ => ⟨_,rfl⟩⟩
        · change (limited (setSizes b (called b s arg) arg) arg,
            Reply.ok (outarg b (limited (setSizes b (called b s arg) arg) arg) arg) (outargsize arg)) =
              (t,reply) at done
          obtain ⟨rfl,rfl⟩ := Prod.mk.inj done
          obtain ⟨same,write⟩ := limitedKeeps (setSizes b (called b s arg) arg) arg
          refine .inr ⟨_,_,rfl,same,write,?_,_,rfl⟩
          show maxPages b _ arg = _
          rw [maxPages,maxPages,write]
      · obtain ⟨rfl,rfl⟩ := Prod.mk.inj done
        exact .inl ⟨kept,fun _ => ⟨_,rfl⟩⟩

theorem Reached.bufsize {b : Build} {s : Session} (reached : Reached b s) : s.bufsize.toNat < 2 ^ 32 := by
  have narrow (x : BitVec 32) : (x.setWidth 64).toNat < 2 ^ 32 := by
    rw [BitVec.toNat_setWidth_of_le (by decide)]
    exact x.isLt
  induction reached with
  | new op io moMaxRead => exact narrow _
  | reallocable before ih => exact ih
  | @init s arg before ih =>
    obtain ⟨same,-⟩ | ⟨out,size,-,negotiated⟩ := doInitSource (Prod.eta (doInit b s arg)).symm
    · rw [same]
      exact ih
    · rw [negotiated.bufsize]
      exact narrow _

/- What is left for the data of a write before the callback's wish is looked at: all that an
unsigned int can say, or the buffer there is. -/
def initRoom (s : Session) : Nat :=
  if s.bufReallocable then uintMax - fuseBufferHeaderSize
    else max s.bufsize.toNat fuseMinReadBuffer - fuseBufferHeaderSize

theorem pagesOffered {arg : InitIn} (pages : has (arg.flags.setWidth 64) fuseMaxPages = true) :
    ¬(6#32 ≤ arg.minor ∧ has (inargflags arg) fuseMaxPages = false) := by
  rintro ⟨minor,none⟩
  rw [(offeredFlags minor).has pages] at none
  cases none

theorem initBufsizeBounds (b : Build) {s : Session} (fits : s.bufsize.toNat < 2 ^ 32) (arg : InitIn) :
    fuseMinReadBuffer ≤ (initBufsize b s arg).toNat ∧ (initBufsize b s arg).toNat ≤ uintMax := by
  have least : (BitVec.ofNat 64 fuseMinReadBuffer).toNat = 8192 := by decide
  have most : (BitVec.ofNat 64 uintMax).toNat = 4294967295 := by decide
  have two : fuseMinReadBuffer = 8192 ∧ uintMax = 4294967295 := ⟨rfl,rfl⟩
  simp only [initBufsize,BitVec.lt_def]
  generalize BitVec.ofNat 64 (fuseDefaultMaxPagesPerReq * b.pagesize + fuseBufferHeaderSize) = most'
  split
  · omega
  · rcases Decidable.em ((6#32 ≤ arg.minor ∧ has (inargflags arg) fuseMaxPages = false) ∧ most'.toNat < s.bufsize.toNat)
      with less | not
    · rw [if_pos less]
      split <;> omega
    · rw [if_neg not]
      split <;> omega

theorem initBufsizeRoom (b : Build) {s : Session} {arg : InitIn}
    (pages : has (arg.flags.setWidth 64) fuseMaxPages = true) :
    (initBufsize b s arg).toNat - fuseBufferHeaderSize = initRoom s := by
  have offered := pagesOffered pages
  have least : (BitVec.ofNat 64 fuseMinReadBuffer).toNat = 8192 := by decide
  have most : (BitVec.ofNat 64 uintMax).toNat = 4294967295 := by decide
  have two : fuseMinReadBuffer = 8192 ∧ uintMax = 4294967295 := ⟨rfl,rfl⟩
  simp only [initBufsize,initRoom,offered,not_false_eq_true,and_true,false_and,if_false,BitVec.lt_def]
  split
  · rw [most,two.2]
  · split <;> omega

theorem sizesSource (b : Build) {s : Session} (fits : s.bufsize.toNat < 2 ^ 32) (arg : InitIn) :
    (setSizes b s arg).conn.maxWrite.toNat = min s.conn.maxWrite.toNat
    ((initBufsize b s arg).toNat - fuseBufferHeaderSize) ∧
      (setSizes b s arg).bufsize.toNat = (setSizes b s arg).conn.maxWrite.toNat + fuseBufferHeaderSize := by
  obtain ⟨least,most⟩ := initBufsizeBounds b fits arg
  have header : (BitVec.ofNat 64 fuseBufferHeaderSize).toNat = 4096 ∧
    (BitVec.ofNat 32 fuseBufferHeaderSize).toNat = 4096 ∧
      fuseBufferHeaderSize = 4096 := by decide
  have two : fuseMinReadBuffer = 8192 ∧ uintMax = 4294967295 := ⟨rfl,rfl⟩
  have room : (initBufsize b s arg - BitVec.ofNat 64 fuseBufferHeaderSize).toNat =
      (initBufsize b s arg).toNat - fuseBufferHeaderSize := by
    rw [BitVec.toNat_sub]
    omega
  have wide : (s.conn.maxWrite.setWidth 64).toNat = s.conn.maxWrite.toNat := BitVec.toNat_setWidth_of_le (by decide)
  have write : (setSizes b s arg).conn.maxWrite.toNat =
      min s.conn.maxWrite.toNat ((initBufsize b s arg).toNat - fuseBufferHeaderSize) := by
    show (minWrite _ _).toNat = _
    unfold minWrite
    split
    · rename_i less
      rw [BitVec.lt_def,wide,room] at less
      omega
    · rename_i not
      rw [BitVec.lt_def,wide,room] at not
      rw [BitVec.toNat_setWidth,room]
      omega
  refine ⟨write,?_⟩
  show (BitVec.setWidth 64 ((setSizes b s arg).conn.maxWrite + BitVec.ofNat 32 fuseBufferHeaderSize)).toNat = _
  rw [BitVec.toNat_setWidth_of_le (by decide),BitVec.toNat_add]
  omega

/-! FUSE_MAX_PAGES goes back to a kernel that offered it. -/

theorem hasMaxPages (x : BitVec 64) : has x fuseMaxPages = x.getLsbD 22 := by
  have only : fuseMaxPages = BitVec.twoPow 64 22 := by decide
  apply Bool.eq_iff_iff.mpr
  rw [hasBits]
  constructor
  · rintro ⟨k,set,mask⟩
    rw [only,BitVec.getLsbD_twoPow,Bool.and_eq_true,decide_eq_true_eq,decide_eq_true_eq] at mask
    rw [mask.2]
    exact set
  · intro set
    exact ⟨22,set,by decide⟩

theorem wantTableClear (x : BitVec 64) : (carry wantTable x).getLsbD 22 = false := by
  have all : wantTable.all (fun p => !p.2.getLsbD 22) = true := by decide +kernel
  apply Bool.eq_false_iff.mpr
  intro set
  obtain ⟨p,mem,-,bit⟩ := carryBits.mp set
  have clear := List.all_eq_true.mp all p mem
  rw [bit] at clear
  cases clear

theorem pagesReplied (u : Session) (arg : InitIn) :
    has (((outargflags u arg).setWidth 32).setWidth 64) fuseMaxPages = has (arg.flags.setWidth 64) fuseMaxPages := by
  have big : fuseBigWrites.getLsbD 22 = false := by decide
  have ext : fuseInitExt.getLsbD 22 = false := by decide
  have pages : fuseMaxPages.getLsbD 22 = true := by decide
  rw [hasMaxPages,BitVec.getLsbD_setWidth,BitVec.getLsbD_setWidth,outargflags]
  simp only [BitVec.getLsbD_or,big,wantTableClear,apply_ite (fun x : BitVec 64 => x.getLsbD 22),ext,pages]
  simp

/-! What the sizes of a successful reply are to be. -/

def sizeofInHeader : Nat := 40

def sizeofWriteIn : Nat := 40

/- read: the buffer takes the smallest request; write: it takes the largest write. room, sum and
the first part of pages: no subtraction or addition went below zero or above the type. -/
structure Sized (b : Build) (s t : Session) (arg : InitIn) (out : InitOut) : Prop where
  read : fuseMinReadBuffer ≤ t.bufsize.toNat
  write : sizeofInHeader + sizeofWriteIn + out.maxWrite.toNat ≤ t.bufsize.toNat
  room : fuseBufferHeaderSize ≤ (initBufsize b (called b s arg) arg).toNat
  sum : out.maxWrite.toNat + fuseBufferHeaderSize ≤ uintMax
  pages : has (out.flags.setWidth 64) fuseMaxPages = true →
    1 ≤ out.maxWrite.toNat ∧ out.maxWrite.toNat ≤ out.maxPages.toNat * b.pagesize ∧ out.maxPages.toNat ≠ 0

theorem pagesEnough {write page : Nat} (large : 4096 ≤ page) (small : write < 2 ^ 32) (some : 1 ≤ write) :
    (write ≤ ((write - 1) / page + 1) % 2 ^ 16 * page ∧ ((write - 1) / page + 1) % 2 ^ 16 ≠ 0) ↔
    write ≤ 65535 * page := by
  have least : (write - 1) / page * page ≤ write - 1 := Nat.div_mul_le_self _ _
  have most : write - 1 < ((write - 1) / page + 1) * page := by
    rw [Nat.mul_comm]
    exact Nat.lt_mul_div_succ _ (by omega)
  constructor
  · rintro ⟨enough,-⟩
    have cap : ((write - 1) / page + 1) % 2 ^ 16 ≤ 65535 := by omega
    exact Nat.le_trans enough (Nat.mul_le_mul_right page cap)
  · intro fits
    have count : (write - 1) / page < 65535 := by
      rw [Nat.div_lt_iff_lt_mul (by omega)]
      omega
    have under : (write - 1) / page + 1 < 2 ^ 16 := Nat.lt_of_le_of_lt count (by decide)
    rw [Nat.mod_eq_of_lt under]
    exact ⟨Nat.le_of_pred_lt most,Nat.succ_ne_zero _⟩

theorem maxPagesCount (b : Build) {s : Session} {arg : InitIn} (page : 4096 ≤ b.pagesize) (int : b.pagesize < 2 ^ 31)
    (pages : has (arg.flags.setWidth 64) fuseMaxPages = true) (some : 1 ≤ s.conn.maxWrite.toNat) :
    (maxPages b s arg).toNat = ((s.conn.maxWrite.toNat - 1) / b.pagesize + 1) % 2 ^ 16 := by
  have one : (1 : BitVec 32).toNat = 1 := rfl
  have less : (s.conn.maxWrite - 1).toNat = s.conn.maxWrite.toNat - 1 := by
    rw [BitVec.toNat_sub,one]
    omega
  have size : (BitVec.ofNat 32 b.pagesize).toNat = b.pagesize := by
    rw [BitVec.toNat_ofNat]
    omega
  have count : (s.conn.maxWrite.toNat - 1) / b.pagesize ≤ (s.conn.maxWrite.toNat - 1) / 4096 :=
    Nat.div_le_div_left page (by decide)
  rw [maxPages,if_pos pages,BitVec.toNat_setWidth,BitVec.toNat_add,BitVec.toNat_udiv,less,size,one]
  omega

/- A reply tells sizes that hold just when the callback leaves at least a page of 4096 bytes to a
write and, where pages are counted, no more than 16 bits of them. -/
theorem sizesNegotiated (b : Build) (least : 4096 ≤ b.pagesize) (int : b.pagesize < 2 ^ 31) {s t : Session}
    (reached : Reached b s) (arg : InitIn) (major : arg.major = 7) {out : InitOut} {size : Nat}
    (ok : doInit b s arg = (t,.ok out size)) :
    Sized b s t arg out ↔ 4096 ≤ (called b s arg).conn.maxWrite.toNat ∧
      (has (arg.flags.setWidth 64) fuseMaxPages = true →
        min (called b s arg).conn.maxWrite.toNat (initRoom s) ≤ 65535 * b.pagesize) := by
  obtain ⟨-,refused⟩ | ⟨_,_,same,negotiated⟩ := doInitSource ok
  · obtain ⟨_,err⟩ := refused major
    cases err
  · cases same
    obtain ⟨keptSize,keptMode⟩ := calledKeeps b s arg
    have fits : (called b s arg).bufsize.toNat < 2 ^ 32 := keptSize ▸ reached.bufsize
    obtain ⟨low,high⟩ := initBufsizeBounds b fits arg
    obtain ⟨write,buffer⟩ := sizesSource b fits arg
    have sizes : fuseMinReadBuffer = 8192 ∧ uintMax = 4294967295 ∧ fuseBufferHeaderSize = 4096 ∧
      sizeofInHeader + sizeofWriteIn = 80 := by decide
    have told : has (out.flags.setWidth 64) fuseMaxPages = has (arg.flags.setWidth 64) fuseMaxPages := by
      obtain ⟨u,flags⟩ := negotiated.flags
      rw [flags]
      exact pagesReplied u arg
    have room : has (arg.flags.setWidth 64) fuseMaxPages = true →
        (initBufsize b (called b s arg) arg).toNat - fuseBufferHeaderSize = initRoom s := by
      intro pages
      rw [initBufsizeRoom b pages,initRoom,initRoom,keptSize,keptMode]
    rw [← negotiated.maxWrite] at write buffer
    rw [← negotiated.bufsize] at buffer
    constructor
    · intro sized
      have read := sized.read
      refine ⟨by omega,fun pages => ?_⟩
      obtain ⟨some,enough,nonzero⟩ := sized.pages (told.trans pages)
      rw [negotiated.maxPages,maxPagesCount b least int pages (negotiated.maxWrite ▸ some),
        ← negotiated.maxWrite] at enough nonzero
      have capped := (pagesEnough least out.maxWrite.isLt some).mp ⟨enough,nonzero⟩
      rw [← room pages,← write]
      exact capped
    · rintro ⟨wish,capped⟩
      refine ⟨by omega,by omega,by omega,by omega,fun pages => ?_⟩
      rw [told] at pages
      have some : 1 ≤ out.maxWrite.toNat := by omega
      have under := capped pages
      rw [← room pages,← write] at under
      rw [negotiated.maxPages,maxPagesCount b least int pages (negotiated.maxWrite ▸ some),← negotiated.maxWrite]
      exact ⟨some,(pagesEnough least out.maxWrite.isLt some).mpr under⟩

def pages4k : Build := ⟨true,true,4096⟩

/- A new session whose callback wants this max_write. -/
def wishing (maxWrite : BitVec 32) : Session :=
  fuseSessionNew pages4k ⟨true,false,false,false,true,true,some [.maxWrite maxWrite]⟩ none 0

def withPages : InitIn := ⟨7,40,131072,0x400000,0⟩

theorem largestWriteSized : ∃ t out, doInit pages4k (wishing 0x100000) withPages = (t,.ok out 64) ∧
    Sized pages4k (wishing 0x100000) t withPages out ∧ out.maxPages = 256 := by
  refine ⟨_,_,rfl,?_,rfl⟩
  refine (sizesNegotiated pages4k (by decide) (by decide) (.new _ none 0) withPages rfl rfl).mpr ⟨by decide,fun _ => ?_⟩
  decide

/- A callback that wants no writes leaves a buffer below FUSE_MIN_READ_BUFFER, and one that wants
as much as there is, over buffers that can grow, is told of 0xffff pages for 0xfffff. -/
theorem sizesLost :
    (∃ t out, doInit pages4k (wishing 0) withPages = (t,.ok out 64) ∧ ¬Sized pages4k (wishing 0) t withPages out) ∧
    ∃ t out, doInit pages4k {wishing 0xffffffff with bufReallocable := true} withPages = (t,.ok out 64) ∧
      ¬Sized pages4k {wishing 0xffffffff with bufReallocable := true} t withPages out := by
  constructor
  · refine ⟨_,_,rfl,fun sized => ?_⟩
    exact absurd sized.read (by decide)
  · refine ⟨_,_,rfl,fun sized => ?_⟩
    obtain ⟨-,enough,-⟩ := sized.pages (by decide)
    exact absurd enough (by decide)

end FuseStudy.InitSizes
