import FuseStudy.NetPacket

/-! bound_send and bound_read of custom_include/bound.c over a socket that takes the bytes
of a write, and gives those of a read, in pieces. -/
namespace FuseStudy.NetFraming
open CString (Bytes)
open NetPacket hiding boundRead

/- The bytes a reader can get, by their place; none where no more come. -/
abbrev Arrivals := Nat → Option UInt8

def arriving (bytes : Bytes) : Arrivals := fun i => bytes[i]?

@[grind =]
def taken (stream : Arrivals) (pos : Nat) : Nat → Bytes
  | 0 => []
  | want + 1 =>
    match stream pos with
    | none => []
    | some b => b :: taken stream (pos + 1) want

/- read(2): at least one of the bytes that come, and no more than were asked for. piece is
how many there are at that moment. -/
def readCall (stream : Arrivals) (piece : Nat → Nat) (pos want : Nat) : Bytes :=
  taken stream pos (min want (max 1 (piece pos)))

/- The loop of bound_read, which ends early when a read gives nothing. -/
@[grind =]
def readLoop (stream : Arrivals) (piece : Nat → Nat) (pos want : Nat) : Bytes :=
  if want = 0 then []
  else
    let got := readCall stream piece pos want
    if got = [] then []
    else got ++ readLoop stream piece (pos + got.length) (want - got.length)
termination_by want
decreasing_by
  rename_i more some
  exact Nat.sub_lt (Nat.pos_of_ne_zero more) (List.length_pos_iff.mpr some)

/- Whether the whole struct was read, what it then holds, and where the next read starts. -/
def boundRead (stream : Arrivals) (piece : Nat → Nat) (pos : Nat) (mem : Bytes) : Bool × Bytes × Nat :=
  let got := readLoop stream piece pos pktSize
  (got.length = pktSize,got ++ mem.drop got.length,pos + got.length)

theorem takenLength (stream : Arrivals) (pos want : Nat) : (taken stream pos want).length ≤ want := by
  induction want generalizing pos with
  | zero => exact Nat.le_refl 0
  | succ want ih =>
    rw [taken]
    split
    · exact Nat.zero_le _
    · exact Nat.succ_le_succ (ih (pos + 1))

theorem takenSplit (stream : Arrivals) (pos some more : Nat) :
    taken stream pos (some + more) = taken stream pos some ++
      taken stream (pos + (taken stream pos some).length) (some + more - (taken stream pos some).length) := by
  induction some generalizing pos with
  | zero => simp [taken]
  | succ some ih =>
    rw [Nat.add_right_comm,taken,taken]
    cases at' : stream pos with
    | none => simp [taken,at']
    | some b =>
      have rest := ih (pos + 1)
      simp only [List.length_cons,List.cons_append,List.cons.injEq,true_and]
      rw [rest,Nat.add_sub_add_right,Nat.add_assoc,Nat.add_comm 1]

theorem takenSome {stream : Arrivals} {pos want : Nat} (none : taken stream pos (want + 1) = []) (more : Nat) :
    taken stream pos more = [] := by
  cases more with
  | zero => rfl
  | succ more =>
    rw [taken] at none ⊢
    cases at' : stream pos with
    | none => rfl
    | some b => simp [at'] at none

theorem readLoopTakes (stream : Arrivals) (piece : Nat → Nat) (pos want : Nat) :
    readLoop stream piece pos want = taken stream pos want := by
  induction want using Nat.strongRecOn generalizing pos with
  | ind want ih =>
    rw [readLoop]
    split
    · rename_i zero
      rw [zero,taken]
    · rename_i more
      obtain ⟨k,part⟩ : ∃ k, min want (max 1 (piece pos)) = k + 1 := ⟨_,(Nat.sub_add_cancel (by omega)).symm⟩
      simp only [readCall,part]
      split
      · rename_i none
        exact (takenSome none want).symm
      · rename_i some
        have least := List.length_pos_iff.mpr some
        have fits : k + 1 + (want - (k + 1)) = want := by omega
        have both := takenSplit stream pos (k + 1) (want - (k + 1))
        rw [fits] at both
        rw [ih _ (by omega),← both]

theorem takenArriving (bytes : Bytes) (pos want : Nat) :
    taken (arriving bytes) pos want = (bytes.drop pos).take want := by
  induction want generalizing pos with
  | zero => simp [taken]
  | succ want ih =>
    rw [taken,arriving]
    cases at' : bytes[pos]? with
    | none => rw [List.drop_eq_nil_of_le (List.getElem?_eq_none_iff.mp at'),List.take_nil]
    | some b =>
      obtain ⟨inside,is⟩ := List.getElem?_eq_some_iff.mp at'
      rw [List.drop_eq_getElem_cons inside,List.take_succ_cons,is]
      exact congrArg (b :: ·) (ih (pos + 1))

/- bound_read again and again, until a packet is marked as the last: the packets, and where
the bytes of the next message start. none: it still waits for bytes. -/
@[grind =]
def receive (stream : Arrivals) (piece : Nat → Nat) : Nat → Nat → Bytes → Option (List Pkt × Nat)
  | 0,_,_ => none
  | fuel + 1,pos,mem =>
    let (whole,bytes,pos) := boundRead stream piece pos mem
    if !whole then none
    else if (pktOf bytes).fin = 1 then some ([pktOf bytes],pos)
    else (receive stream piece fuel pos bytes).map fun (pkts,pos) => (pktOf bytes :: pkts,pos)

/- The i-th write of bound_send hands over accepts i bytes of its packet at most; only a write
that fails ends bound_send. -/
@[grind =]
def writeCalls (accepts : Nat → Nat) : Nat → List Pkt → Bytes
  | _,[] => []
  | i,pkt :: rest => (pktBytes pkt).take (accepts i) ++ writeCalls accepts (i + 1) rest

def contents (pkts : List Pkt) : Bytes := pkts.flatMap fun pkt => pkt.buf.take pkt.size

/-! The packets of one message. -/

theorem sendLoopContents {mem : Pkt} (memory : mem.Memory) {totalSize : Nat} (short : totalSize < 256 ^ 8)
    {remain : Bytes} (ne : remain ≠ []) :
    contents (sendLoop mem totalSize remain) = remain ∧
      ∃ front last, sendLoop mem totalSize remain = front ++ [last] ∧ last.fin = 1 ∧ ∀ pkt ∈ front, pkt.fin = 0 := by
  induction len : remain.length using Nat.strongRecOn generalizing mem remain with
  | ind n ih =>
    rcases sendLoopSource memory ne short with ⟨pkt,only,good,fin⟩ | ⟨pkt,first,good,fin,more,fewer⟩
    · rw [only]
      refine ⟨?_,[],pkt,rfl,fin,List.forall_mem_nil _⟩
      simp only [contents,List.flatMap_cons,List.flatMap_nil,List.append_nil,good.data]
    · obtain ⟨rest,front,last,split,final,inner⟩ := ih _ (len ▸ fewer) good.memory more rfl
      rw [first]
      constructor
      · rw [contents,List.flatMap_cons,good.data]
        exact (congrArg (remain.take bufSize ++ ·) rest).trans (List.take_append_drop bufSize remain)
      · exact ⟨pkt :: front,last,by rw [split]; rfl,final,List.forall_mem_cons.mpr ⟨fin,inner⟩⟩

theorem sendLoopLength {mem : Pkt} (memory : mem.Memory) {totalSize : Nat} (short : totalSize < 256 ^ 8)
    {remain : Bytes} (ne : remain ≠ []) :
    bufSize * (sendLoop mem totalSize remain).length < remain.length + bufSize ∧
      remain.length ≤ bufSize * (sendLoop mem totalSize remain).length := by
  induction len : remain.length using Nat.strongRecOn generalizing mem remain with
  | ind n ih =>
    have least := List.length_pos_iff.mpr ne
    rcases sendLoopSource memory ne short with ⟨pkt,only,good,fin⟩ | ⟨pkt,first,good,fin,more,fewer⟩
    · have size : remain.length ≤ bufSize := by
        have took := congrArg List.length good.data
        rw [List.length_take,good.memory.buf] at took
        omega
      rw [only,List.length_singleton]
      omega
    · obtain ⟨under,enough⟩ := ih _ (len ▸ fewer) good.memory more rfl
      have some := List.length_pos_iff.mpr more
      rw [List.length_drop] at under enough some
      rw [first,List.length_cons,Nat.mul_succ]
      omega

/-! Whole packets come in as they went out. -/

theorem boundReadGets (stream : Arrivals) (piece : Nat → Nat) (pos : Nat) (mem : Bytes) :
    boundRead stream piece pos mem =
      (decide ((taken stream pos pktSize).length = pktSize),
        taken stream pos pktSize ++ mem.drop (taken stream pos pktSize).length,
        pos + (taken stream pos pktSize).length) := by
  rw [boundRead,readLoopTakes]

theorem boundReadFirst {wire tail : Bytes} {pos : Nat} {pkt : Pkt} (memory : pkt.Memory)
    (comes : wire.drop pos = pktBytes pkt ++ tail) (piece : Nat → Nat) {mem : Bytes} (fits : mem.length ≤ pktSize) :
    boundRead (arriving wire) piece pos mem = (true,pktBytes pkt,pos + pktSize) := by
  have size := pktBytesLength memory
  rw [boundReadGets,takenArriving,comes,List.take_left' size,size,List.drop_eq_nil_of_le fits,List.append_nil]
  simp

theorem receiveSent {mem : Pkt} (memory : mem.Memory) {totalSize : Nat} (short : totalSize < 256 ^ 8)
    {remain wire : Bytes} (ne : remain ≠ []) {accepts : Nat → Nat} (piece : Nat → Nat) {i pos : Nat} {old : Bytes}
    (fits : old.length ≤ pktSize) (whole : ∀ k, k * bufSize < remain.length → pktSize ≤ accepts (i + k))
    (comes : wire.drop pos = writeCalls accepts i (sendLoop mem totalSize remain)) :
    ∃ fuel, receive (arriving wire) piece fuel pos old = some (sendLoop mem totalSize remain,wire.length) := by
  induction len : remain.length using Nat.strongRecOn generalizing mem remain i pos old with
  | ind n ih =>
    have least := List.length_pos_iff.mpr ne
    have now : pktSize ≤ accepts i := whole 0 (by omega)
    rcases sendLoopSource memory ne short with ⟨pkt,only,good,fin⟩ | ⟨pkt,first,good,fin,more,fewer⟩
    · have size := pktBytesLength good.memory
      rw [only,writeCalls,List.take_of_length_le (by omega),writeCalls] at comes
      have ends := congrArg List.length comes
      rw [List.length_drop,List.append_nil,size] at ends
      have stop : pos + pktSize = wire.length := by
        unfold pktSize at *
        omega
      refine ⟨1,?_⟩
      rw [receive,boundReadFirst good.memory comes piece fits,only]
      simp only [good.kept,fin,Bool.not_true,Bool.false_eq_true,if_false,if_true,stop]
    · have size := pktBytesLength good.memory
      rw [first,writeCalls,List.take_of_length_le (by omega)] at comes
      have later : wire.drop (pos + pktSize) = writeCalls accepts (i + 1)
          (sendLoop pkt totalSize (remain.drop bufSize)) := by
        rw [← List.drop_drop,comes,List.drop_left' size]
      have enough : ∀ k, k * bufSize < (remain.drop bufSize).length → pktSize ≤ accepts (i + 1 + k) := by
        intro k inside
        rw [Nat.add_assoc,Nat.add_comm 1 k]
        refine whole (k + 1) ?_
        rw [List.length_drop] at inside
        rw [Nat.add_mul]
        omega
      obtain ⟨fuel,got⟩ := ih _ (len ▸ fewer) good.memory more (Nat.le_of_eq size) enough later rfl
      refine ⟨fuel + 1,?_⟩
      rw [receive,boundReadFirst good.memory comes piece fits,first]
      simp only [good.kept,fin,Bool.not_true,Bool.false_eq_true,if_false,Nat.zero_ne_one,got,Option.map_some]

/-! A write that takes less than its packet leaves the receiver with too few bytes. -/

theorem writeCallsLength {pkts : List Pkt} (memory : ∀ pkt ∈ pkts, pkt.Memory) (accepts : Nat → Nat) (i : Nat) :
    (writeCalls accepts i pkts).length ≤ pktSize * pkts.length := by
  induction pkts generalizing i with
  | nil => exact Nat.le_refl 0
  | cons pkt rest ih =>
    have tail := ih (fun pkt mem => memory pkt (List.mem_cons_of_mem _ mem)) (i + 1)
    have head := pktBytesLength (memory pkt List.mem_cons_self)
    rw [writeCalls,List.length_append,List.length_take,head,List.length_cons,Nat.mul_succ]
    omega

theorem writeCallsLess {pkts : List Pkt} (memory : ∀ pkt ∈ pkts, pkt.Memory) {accepts : Nat → Nat} {i k : Nat}
    (inside : k < pkts.length) (less : accepts (i + k) < pktSize) :
    (writeCalls accepts i pkts).length < pktSize * pkts.length := by
  induction pkts generalizing i k with
  | nil => cases inside
  | cons pkt rest ih =>
    have others : ∀ pkt ∈ rest, pkt.Memory := fun pkt mem => memory pkt (List.mem_cons_of_mem _ mem)
    have head := pktBytesLength (memory pkt List.mem_cons_self)
    rw [writeCalls,List.length_append,List.length_take,head,List.length_cons,Nat.mul_succ]
    cases k with
    | zero =>
      have tail := writeCallsLength others accepts (i + 1)
      rw [Nat.add_zero] at less
      omega
    | succ k =>
      have tail := ih others (i := i + 1) (k := k) (Nat.lt_of_succ_lt_succ inside)
        (by rwa [Nat.add_assoc,Nat.add_comm 1 k])
      omega

theorem receiveTakes {stream : Arrivals} {piece : Nat → Nat} {fuel pos stop : Nat} {old : Bytes} {pkts : List Pkt}
    (fits : old.length ≤ pktSize) (got : receive stream piece fuel pos old = some (pkts,stop)) :
    stop = pos + pktSize * pkts.length ∧ (contents pkts).length ≤ bufSize * pkts.length := by
  induction fuel generalizing pos old pkts with
  | zero => cases got
  | succ fuel ih =>
    rw [receive,boundReadGets] at got
    simp only [Bool.not_eq_true',decide_eq_false_iff_not] at got
    split at got
    · contradiction
    · rename_i whole
      have size : (taken stream pos pktSize).length = pktSize := not_not.mp whole
      rw [size,List.drop_eq_nil_of_le fits,List.append_nil] at got
      have chunk : ((pktOf (taken stream pos pktSize)).buf.take
          (pktOf (taken stream pos pktSize)).size).length ≤ bufSize := by
        rw [List.length_take]
        refine Nat.le_trans (Nat.min_le_right _ _) ?_
        show (List.drop 24 _).length ≤ _
        rw [List.length_drop,size]
        decide
      split at got
      · cases got
        rw [contents,List.flatMap_singleton,List.length_singleton]
        omega
      · obtain ⟨⟨rest,stop'⟩,later,same⟩ := Option.map_eq_some_iff.mp got
        obtain ⟨rfl,rfl⟩ := Prod.mk.inj same
        obtain ⟨ends,length⟩ := ih (Nat.le_of_eq size) later
        rw [contents] at length
        simp only [contents,List.flatMap_cons,List.length_append,List.length_cons,Nat.mul_succ]
        omega

/- What a sender and a receiver of one message owe each other. -/
structure Framed (mem : Pkt) (data : Bytes) (accepts piece : Nat → Nat) (old : Bytes) : Prop where
  marked : ∃ front last, boundSend mem data = front ++ [last] ∧ last.fin = 1 ∧ ∀ pkt ∈ front, pkt.fin ≠ 1
  sized : ∀ pkt ∈ boundSend mem data, pkt.totalSize = data.length
  received : ∃ fuel pkts,
    receive (arriving (writeCalls accepts 0 (boundSend mem data))) piece fuel 0 old =
      some (pkts,(writeCalls accepts 0 (boundSend mem data)).length) ∧
    contents pkts = data ∧ ∀ pkt ∈ pkts, pkt.totalSize = data.length

theorem framedSome {mem : Pkt} {data : Bytes} {accepts piece : Nat → Nat} {old : Bytes}
    (framed : Framed mem data accepts piece old) : data ≠ [] := by
  rintro rfl
  obtain ⟨front,last,sent,-,-⟩ := framed.marked
  rw [boundSendEmpty] at sent
  exact absurd sent.symm (by simp)

theorem framedWhole {mem : Pkt} (memory : mem.Memory) {data : Bytes} (short : data.length < 2 ^ 64)
    {accepts piece : Nat → Nat} {old : Bytes} (fits : old.length ≤ pktSize)
    (framed : Framed mem data accepts piece old) : ∀ i, i * bufSize < data.length → pktSize ≤ accepts i := by
  intro i inside
  have some := framedSome framed
  obtain ⟨fuel,pkts,got,same,-⟩ := framed.received
  obtain ⟨taken,length⟩ := receiveTakes fits got
  have count := sendLoopLength memory short some
  have sent := sendLoopMemory memory data.length data
  rw [same] at length
  apply Nat.le_of_not_lt
  intro less
  have place : i < (boundSend mem data).length := by
    apply Nat.lt_of_mul_lt_mul_left (a := bufSize)
    rw [Nat.mul_comm]
    exact Nat.lt_of_lt_of_le inside count.2
  have lost : (writeCalls accepts 0 (boundSend mem data)).length < pktSize * (boundSend mem data).length :=
    writeCallsLess (fun pkt mem => (sent pkt mem).1) place (by rwa [Nat.zero_add])
  rw [taken,Nat.zero_add] at lost
  have fewer := Nat.lt_of_mul_lt_mul_left lost
  have packets : bufSize * (boundSend mem data).length < data.length + bufSize := count.1
  have bound := Nat.mul_le_mul_left bufSize fewer
  rw [Nat.mul_succ] at bound
  omega

/- A message comes through, however it is cut up on the way to the reader, just when it is not
empty and each write of the sender takes its whole packet. -/
theorem framedExactly {mem : Pkt} (memory : mem.Memory) {data : Bytes} (short : data.length < 2 ^ 64)
    (accepts piece : Nat → Nat) {old : Bytes} (fits : old.length ≤ pktSize) :
    Framed mem data accepts piece old ↔ data ≠ [] ∧ ∀ i, i * bufSize < data.length → pktSize ≤ accepts i := by
  constructor
  · intro framed
    exact ⟨framedSome framed,framedWhole memory short fits framed⟩
  · rintro ⟨some,whole⟩
    obtain ⟨all,front,last,split,fin,inner⟩ := sendLoopContents memory short some
    have sent := sendLoopMemory memory data.length data
    have total : ∀ pkt ∈ boundSend mem data, pkt.totalSize = data.length := fun pkt mem => (sent pkt mem).2.2.2
    obtain ⟨fuel,got⟩ := receiveSent memory short some piece fits (i := 0)
      (by simpa using whole) (List.drop_zero)
    exact ⟨⟨front,last,split,fin,fun pkt mem => by rw [inner pkt mem]; decide⟩,total,fuel,_,got,all,total⟩

def blank : Pkt := ⟨0,[0,0,0,0],0,0,List.replicate bufSize 0⟩

theorem blankMemory : blank.Memory := ⟨rfl,by rw [blank,List.length_replicate]⟩

theorem threeBytesFramed : Framed blank [104,105,0] (fun _ => pktSize) (fun pos => pos % 7) [] :=
  (framedExactly blankMemory (by decide) (fun _ => pktSize) (fun pos => pos % 7) (Nat.zero_le _)).mpr
    ⟨by decide,fun _ _ => Nat.le_refl _⟩

/- Nothing is sent for an empty message, and a write that takes all but one byte of a packet
is taken for a whole one. -/
theorem emptyMessageLost :
    ¬Framed blank [] (fun _ => pktSize) (fun _ => pktSize) [] ∧
      ¬Framed blank [104,105,0] (fun _ => pktSize - 1) (fun _ => pktSize) [] := by
  constructor
  · intro framed
    exact framedSome framed rfl
  · intro framed
    have whole := framedWhole blankMemory (by decide) (Nat.zero_le _) framed 0 (by decide)
    exact absurd whole (by decide)

end FuseStudy.NetFraming
