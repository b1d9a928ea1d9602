import FuseStudy.CString

/-! struct pkt of custom_include/bound.h and the two functions of bound.c that move it
over a connection. The connection is a queue of bytes; each byte also carries what its
sender sent it for, which no function reads. -/
namespace FuseStudy.NetPacket
open CString (Bytes)

/-! Little endian numbers, as the machine stores them. -/

def le : Nat → Nat → Bytes
  | 0,_ => []
  | width + 1,n => UInt8.ofNat (n % 256) :: le width (n / 256)

def unle : Bytes → Nat
  | [] => 0
  | b :: rest => b.toNat + 256 * unle rest

theorem leLength (width n : Nat) : (le width n).length = width := by
  induction width generalizing n with
  | zero => rfl
  | succ width ih => rw [le,List.length_cons,ih]

theorem unleLe (width n : Nat) : unle (le width n) = n % 256 ^ width := by
  induction width generalizing n with
  | zero => simp [le,unle,Nat.mod_one]
  | succ width ih =>
    have digit : (UInt8.ofNat (n % 256)).toNat = n % 256 :=
      UInt8.toNat_ofNat_of_lt' (Nat.mod_lt n (by decide))
    rw [le,unle,ih,digit,Nat.pow_succ',Nat.mod_mul]

/-! A 32-bit int. -/

def intBytes (x : Int) : Bytes := le 4 (x % 2 ^ 32).toNat

def intOf (bytes : Bytes) : Int :=
  let n := unle (bytes.take 4)
  if n < 2 ^ 31 then n else n - 2 ^ 32

theorem intBytesLength (x : Int) : (intBytes x).length = 4 := leLength 4 _

theorem intOfBytes {x : Int} (low : -2 ^ 31 ≤ x) (high : x < 2 ^ 31) (rest : Bytes) :
    intOf (intBytes x ++ rest) = x := by
  have word : (intBytes x ++ rest).take 4 = intBytes x := by
    rw [List.take_left' (intBytesLength x)]
  have value : unle (intBytes x) = (x % 2 ^ 32).toNat := by
    rw [intBytes,unleLe]
    exact Nat.mod_eq_of_lt (by omega)
  simp only [intOf,word,value]
  split <;> omega

def bufSize : Nat := 1024

/- pad is what the compiler leaves between end and size; buf is all BUF_SIZE bytes. -/
structure Pkt where
  fin : Nat
  pad : Bytes
  size : Nat
  totalSize : Nat
  buf : Bytes
  deriving DecidableEq, Repr

structure Pkt.Memory (pkt : Pkt) : Prop where
  pad : pkt.pad.length = 4
  buf : pkt.buf.length = bufSize

instance (pkt : Pkt) : Decidable pkt.Memory :=
  decidable_of_iff (pkt.pad.length = 4 ∧ pkt.buf.length = bufSize) ⟨fun h => ⟨h.1,h.2⟩,fun h => ⟨h.pad,h.buf⟩⟩

def pktBytes (pkt : Pkt) : Bytes :=
  le 4 pkt.fin ++ (pkt.pad ++ (le 8 pkt.size ++ (le 8 pkt.totalSize ++ pkt.buf)))

def pktOf (bytes : Bytes) : Pkt where
  fin := unle (bytes.take 4)
  pad := (bytes.drop 4).take 4
  size := unle ((bytes.drop 8).take 8)
  totalSize := unle ((bytes.drop 16).take 8)
  buf := bytes.drop 24

def pktSize : Nat := 1048

theorem pktBytesLength {pkt : Pkt} (memory : pkt.Memory) : (pktBytes pkt).length = pktSize := by
  simp only [pktBytes,List.length_append,leLength,memory.pad,memory.buf,bufSize,pktSize]

theorem dropPast {front : Bytes} (n k : Nat) (rest : Bytes) (len : front.length = n) :
    (front ++ rest).drop (n + k) = rest.drop k := by
  rw [← len,List.drop_length_add_append]

theorem pktOfBytes {pkt : Pkt} (memory : pkt.Memory) (fin : pkt.fin < 256 ^ 4) (size : pkt.size < 256 ^ 8)
    (totalSize : pkt.totalSize < 256 ^ 8) : pktOf (pktBytes pkt) = pkt := by
  have first : (pktBytes pkt).drop 4 = pkt.pad ++ (le 8 pkt.size ++ (le 8 pkt.totalSize ++ pkt.buf)) :=
    List.drop_left' (leLength 4 _)
  have second : (pktBytes pkt).drop 8 = le 8 pkt.size ++ (le 8 pkt.totalSize ++ pkt.buf) :=
    (dropPast 4 4 _ (leLength 4 _)).trans (List.drop_left' memory.pad)
  have third : (pktBytes pkt).drop 16 = le 8 pkt.totalSize ++ pkt.buf :=
    (dropPast 4 12 _ (leLength 4 _)).trans ((dropPast 4 8 _ memory.pad).trans (List.drop_left' (leLength 8 _)))
  have last : (pktBytes pkt).drop 24 = pkt.buf :=
    (dropPast 4 20 _ (leLength 4 _)).trans ((dropPast 4 16 _ memory.pad).trans
      ((dropPast 8 8 _ (leLength 8 _)).trans (List.drop_left' (leLength 8 _))))
  have head : (pktBytes pkt).take 4 = le 4 pkt.fin := List.take_left' (leLength 4 _)
  simp only [pktOf,first,second,third,last,head,List.take_left' memory.pad,List.take_left' (leLength 8 _),
    unleLe,Nat.mod_eq_of_lt fin,Nat.mod_eq_of_lt size,Nat.mod_eq_of_lt totalSize]

/-! bound_send cuts the data into packets. What a packet's buf holds behind its data is
what the struct held before. -/

def sendLoop (mem : Pkt) (totalSize : Nat) (remain : Bytes) : List Pkt :=
  if remain = [] then []
  else
    let chunk := remain.take bufSize
    let pkt : Pkt :=
      ⟨if remain.length ≤ bufSize then 1 else 0,mem.pad,chunk.length,totalSize,chunk ++ mem.buf.drop chunk.length⟩
    pkt :: sendLoop pkt totalSize (remain.drop bufSize)
termination_by remain.length
decreasing_by
  rename_i more
  have := List.length_pos_iff.mpr more
  simp only [List.length_drop,bufSize]
  omega

def boundSend (mem : Pkt) (data : Bytes) : List Pkt := sendLoop mem data.length data

theorem boundSendEmpty (mem : Pkt) : boundSend mem [] = [] := by
  rw [boundSend,sendLoop,if_pos rfl]

theorem boundSendOne (mem : Pkt) {data : Bytes} (some : data ≠ []) (fits : data.length ≤ bufSize) :
    boundSend mem data =
      [⟨1,mem.pad,data.length,data.length,data ++ mem.buf.drop data.length⟩] := by
  have whole : data.take bufSize = data := List.take_of_length_le fits
  have done : data.drop bufSize = [] := List.drop_eq_nil_of_le fits
  rw [boundSend,sendLoop,if_neg some]
  simp only [if_pos fits,whole,done]
  rw [sendLoop,if_pos rfl]

theorem sendLoopMemory {mem : Pkt} (memory : mem.Memory) (totalSize : Nat) (remain : Bytes) :
    ∀ pkt ∈ sendLoop mem totalSize remain, pkt.Memory ∧ pkt.fin ≤ 1 ∧ pkt.size ≤ bufSize ∧
      pkt.totalSize = totalSize := by
  induction len : remain.length using Nat.strongRecOn generalizing mem remain with
  | ind n ih =>
    intro pkt mem'
    rw [sendLoop] at mem'
    split at mem'
    · simp at mem'
    · rename_i some
      have room := List.length_pos_iff.mpr some
      have chunk : (remain.take bufSize).length ≤ bufSize := List.length_take_le bufSize remain
      have kept : (⟨if remain.length ≤ bufSize then 1 else 0,mem.pad,(remain.take bufSize).length,totalSize,
          remain.take bufSize ++ mem.buf.drop (remain.take bufSize).length⟩ : Pkt).Memory := by
        refine ⟨memory.pad,?_⟩
        simp only [List.length_append,List.length_drop,memory.buf]
        omega
      rcases List.mem_cons.mp mem' with same | later
      · rw [same]
        refine ⟨kept,?_,chunk,rfl⟩
        simp only
        split <;> omega
      · have fewer : (remain.drop bufSize).length < n := by
          simp only [List.length_drop,bufSize]
          omega
        exact ih _ fewer kept _ rfl pkt later

theorem sendLoopMore (mem : Pkt) (totalSize : Nat) {remain : Bytes} (more : bufSize < remain.length) :
    sendLoop mem totalSize remain =
      ⟨0,mem.pad,bufSize,totalSize,remain.take bufSize ++ mem.buf.drop bufSize⟩ ::
        sendLoop ⟨0,mem.pad,bufSize,totalSize,remain.take bufSize ++ mem.buf.drop bufSize⟩ totalSize
          (remain.drop bufSize) := by
  have ne : remain ≠ [] := by
    rintro rfl
    simp at more
  have len : (remain.take bufSize).length = bufSize := by
    rw [List.length_take]
    omega
  rw [sendLoop,if_neg ne]
  simp only [if_neg (Nat.not_le.mpr more),len]

theorem sendLoopLast (mem : Pkt) (totalSize : Nat) {remain : Bytes} (ne : remain ≠ [])
    (fits : remain.length ≤ bufSize) :
    sendLoop mem totalSize remain =
      [⟨1,mem.pad,remain.length,totalSize,remain ++ mem.buf.drop remain.length⟩] := by
  have whole : remain.take bufSize = remain := List.take_of_length_le fits
  have done : remain.drop bufSize = [] := List.drop_eq_nil_of_le fits
  rw [sendLoop,if_neg ne]
  simp only [if_pos fits,whole,done]
  rw [sendLoop,if_pos rfl]

/- A packet that carries these bytes and comes out of the queue as it went in. -/
structure Pkt.Carries (pkt : Pkt) (data : Bytes) : Prop where
  memory : pkt.Memory
  kept : pktOf (pktBytes pkt) = pkt
  data : pkt.buf.take pkt.size = data

theorem sendLoopSource {mem : Pkt} (memory : mem.Memory) {totalSize : Nat} {remain : Bytes} (ne : remain ≠ [])
    (short : totalSize < 256 ^ 8) :
    (∃ pkt, sendLoop mem totalSize remain = [pkt] ∧ pkt.Carries remain ∧ pkt.fin = 1) ∨
    (∃ pkt, sendLoop mem totalSize remain = pkt :: sendLoop pkt totalSize (remain.drop bufSize) ∧
      pkt.Carries (remain.take bufSize) ∧ pkt.fin = 0 ∧ remain.drop bufSize ≠ [] ∧
      (remain.drop bufSize).length < remain.length) := by
  have sent := sendLoopMemory memory totalSize remain
  by_cases fits : remain.length ≤ bufSize
  · have last := sendLoopLast mem totalSize ne fits
    have good := sent _ (last ▸ List.mem_singleton_self _)
    have kept := pktOfBytes good.1 (show 1 < 256 ^ 4 by decide)
      (show remain.length < 256 ^ 8 by unfold bufSize at fits; omega) short
    exact .inl ⟨_,last,⟨good.1,kept,List.take_left⟩,rfl⟩
  · have more : bufSize < remain.length := Nat.not_le.mp fits
    have first := sendLoopMore mem totalSize more
    have good := sent _ (first ▸ List.mem_cons_self)
    have kept := pktOfBytes good.1 (show 0 < 256 ^ 4 by decide) (show bufSize < 256 ^ 8 by decide) short
    have size : (remain.take bufSize).length = bufSize := by
      rw [List.length_take]
      omega
    refine .inr ⟨_,first,⟨good.1,kept,List.take_left' size⟩,rfl,?_,?_⟩
    · rw [← List.length_pos_iff,List.length_drop]
      omega
    · rw [List.length_drop]
      unfold bufSize at *
      omega

theorem boundSendMemory {mem : Pkt} (memory : mem.Memory) {data : Bytes} (short : data.length < 256 ^ 8) :
    ∀ pkt ∈ boundSend mem data, pkt.Memory ∧ pktOf (pktBytes pkt) = pkt := by
  intro pkt sent
  obtain ⟨kept,fin,size,total⟩ := sendLoopMemory memory data.length data pkt sent
  refine ⟨kept,pktOfBytes kept (by omega) ?_ (by omega)⟩
  unfold bufSize at size
  omega

/-! The connection. -/

structure Octet (T : Type) where
  byte : UInt8
  tag : T
  index : Nat
  deriving DecidableEq, Repr

abbrev Stream (T : Type) := List (Octet T)

variable {T : Type}

/- One write(2): the bytes, numbered from its start. -/
def written (tag : T) (bytes : Bytes) : Stream T := bytes.mapIdx (fun i b => ⟨b,tag,i⟩)

def sentPkts (tag : T) (pkts : List Pkt) : Stream T := pkts.flatMap (fun pkt => written tag (pktBytes pkt))

/- The octets are one whole write of n bytes made for this purpose. -/
def Whole [DecidableEq T] (tag : T) (n : Nat) (octets : Stream T) : Bool :=
  octets.map (fun o => (o.tag,o.index)) = (List.range n).map (fun i => (tag,i))

/- bound_read: sizeof(struct pkt) bytes are taken, or the reader waits. -/
def boundRead (s : Stream T) : Option (Pkt × Stream T × Stream T) :=
  if s.length < pktSize then none
  else some (pktOf ((s.take pktSize).map Octet.byte),s.take pktSize,s.drop pktSize)

theorem boundReadShorter {s octets rest : Stream T} {pkt : Pkt} (got : boundRead s = some (pkt,octets,rest)) :
    rest.length < s.length := by
  unfold boundRead at got
  split at got
  · contradiction
  · simp only [Option.some.injEq,Prod.mk.injEq] at got
    rw [← got.2.2,List.length_drop]
    unfold pktSize at *
    omega

theorem writtenLength (tag : T) (bytes : Bytes) : (written tag bytes).length = bytes.length := by
  simp [written]

theorem writtenBytes (tag : T) (bytes : Bytes) : (written tag bytes).map Octet.byte = bytes := by
  apply List.ext_getElem
  · simp [written]
  · intro i _ _
    simp [written]

theorem writtenWhole [DecidableEq T] (tag tag' : T) {bytes : Bytes} (some : bytes ≠ []) :
    Whole tag' bytes.length (written tag bytes) = decide (tag = tag') := by
  have tags : (written tag bytes).map (fun o => (o.tag,o.index)) = (List.range bytes.length).map
      (fun i => (tag,i)) := by
    apply List.ext_getElem
    · simp [written]
    · intro i _ _
      simp [written]
  have first := List.length_pos_iff.mpr some
  rw [Whole,tags]
  congr 1
  apply propext
  constructor
  · intro same
    have zero := congrArg (fun l => l[0]?) same
    simpa [first] using zero
  · rintro rfl
    rfl

theorem pktWhole [DecidableEq T] (tag tag' : T) {pkt : Pkt} (memory : pkt.Memory) :
    Whole tag' pktSize (written tag (pktBytes pkt)) = decide (tag = tag') := by
  have len := pktBytesLength memory
  have full : pktBytes pkt ≠ [] := by
    intro empty
    rw [empty] at len
    cases len
  rw [← len]
  exact writtenWhole tag tag' full

theorem boundReadWritten (tag : T) {pkt : Pkt} (memory : pkt.Memory) (kept : pktOf (pktBytes pkt) = pkt)
    (rest : Stream T) :
    boundRead (written tag (pktBytes pkt) ++ rest) = some (pkt,written tag (pktBytes pkt),rest) := by
  have size : (written tag (pktBytes pkt)).length = pktSize := by
    rw [writtenLength,pktBytesLength memory]
  rw [boundRead,if_neg (by simp only [List.length_append,size]; omega),List.take_left' size,List.drop_left' size,
    writtenBytes,kept]

end FuseStudy.NetPacket
