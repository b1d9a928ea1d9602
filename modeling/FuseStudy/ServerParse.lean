import FuseStudy.NetFraming
import FuseStudy.NetServer
import Mathlib.Data.List.TakeWhile

/-! The part of main in server/server.c that reads an opcode and a path, on whatever bytes a
client may send. -/
namespace FuseStudy.ServerParse
open CString (Bytes)
open NetPacket hiding boundRead
open NetFraming
open NetServer (threadArgSize)

/- stray: a byte is read or written outside of its object. In a request copied counts the bytes
that went to the opcode, received is received_byte, and pkts are the packets bound_read got
as a whole. -/
inductive Parsed where
  | closed
  | stray
  | request (copied received : Nat) (pkts : List Pkt) (path : Bytes)
  deriving DecidableEq, Repr

/- room is whether there is memory at a call, fresh what it holds. -/
def malloc (room : Nat → Bool) (fresh : Nat → UInt8) (n : Nat) : Option Bytes :=
  if room n then some ((List.range n).map fresh) else none

/- The bytes strncpy writes. It reads past src when there is no NUL to stop it. -/
def strncpy (src : Bytes) (n : Nat) : Option Bytes :=
  let str := (src.take n).takeWhile (fun b => b ≠ 0)
  if str.length = src.length ∧ src.length < n then none
  else some (str ++ List.replicate (n - str.length) 0)

def copyChunk (path : Bytes) (received : Nat) (pkt : Pkt) : Option Bytes :=
  match strncpy pkt.buf pkt.size with
  | none => none
  | some bytes =>
    if path.length < received + pkt.size then none
    else some (path.take received ++ bytes ++ path.drop (received + pkt.size))

section
variable (room : Nat → Nat → Bool) (fresh : Nat → UInt8) (stream : Arrivals) (piece : Nat → Nat)

/- The do loop. What bound_read returns is not looked at. received_byte stays below the size of
the buffer, so it cannot wrap. A path that is still NULL bears a strncpy of no bytes, and the
next turn calls malloc again. -/
def pathLoop (copied : Nat) : Nat → Nat → Nat → Bytes → Option Bytes → Nat → List Pkt → Option Parsed
  | 0,_,_,_,_,_,_ => none
  | fuel + 1,turn,pos,mem,path,received,pkts =>
    let (whole,mem,pos) := boundRead stream piece pos mem
    let pkt := pktOf mem
    let pkts := if whole then pkts ++ [pkt] else pkts
    match path.or (malloc (room turn) fresh ((pkt.totalSize + 1) % 2 ^ 64)) with
    | none =>
      if pkt.size = 0 ∧ pkt.fin ≠ 1 then pathLoop copied fuel (turn + 1) pos mem none (received + pkt.size) pkts
      else some .stray
    | some path =>
      match copyChunk path received pkt with
      | none => some .stray
      | some path =>
        if pkt.fin = 1 then
          if pkt.totalSize < path.length then some
            (.request copied (received + pkt.size) pkts (path.set pkt.totalSize 0))
          else some .stray
        else pathLoop copied fuel (turn + 1) pos mem (some path) (received + pkt.size) pkts

/- bound_read gives an int: the size of a packet that is there; behind the last byte 0, or -1 when
the connection was reset. Only 0 is looked for. -/
def closed (reset whole : Bool) (pkt : Pkt) : Prop := if whole then pkt.size % 2 ^ 32 = 0 else reset = false

instance (reset whole : Bool) (pkt : Pkt) : Decidable (closed reset whole pkt) := by
  unfold closed
  infer_instance

def readRequest (reset : Bool) (fuel : Nat) (mem : Bytes) : Option Parsed :=
  let (whole,mem,pos) := boundRead stream piece 0 mem
  let pkt := pktOf mem
  if closed reset whole pkt then some .closed
  else if threadArgSize < pkt.size then some .stray
  else pathLoop room fresh stream piece pkt.size fuel 0 pos mem none 0 []

end

/- What the claim on the parser asks: the chunks it got, in a string of their own. -/
def Parsed.Proper : Parsed → Prop
  | .closed => True
  | .stray => False
  | .request copied received pkts path => copied ≤ 2 ∧ received = (contents pkts).length ∧ path = contents pkts ++ [0]

/-! The struct after a bound_read, whatever pieces it came in: a read that ends early leaves the
rest of the packet before. -/

def fetch (stream : Arrivals) (pos : Nat) (mem : Bytes) : Bool × Bytes × Nat :=
  let got := taken stream pos pktSize
  (got.length = pktSize,got ++ mem.drop got.length,pos + got.length)

theorem boundReadFetch (stream : Arrivals) (piece : Nat → Nat) (pos : Nat) (mem : Bytes) :
    boundRead stream piece pos mem = fetch stream pos mem := boundReadGets stream piece pos mem

theorem fetchMemory (stream : Arrivals) (pos : Nat) {mem : Bytes} (memory : mem.length = pktSize) :
    (fetch stream pos mem).2.1.length = pktSize ∧ (pktOf (fetch stream pos mem).2.1).buf.length = bufSize := by
  have fits := takenLength stream pos pktSize
  have size : (fetch stream pos mem).2.1.length = pktSize := by
    show (taken stream pos pktSize ++ mem.drop (taken stream pos pktSize).length).length = pktSize
    rw [List.length_append,List.length_drop,memory]
    omega
  refine ⟨size,?_⟩
  show (List.drop 24 _).length = _
  rw [List.length_drop,size]
  rfl

/- The packets the loop sees from a place on, with whether each came as a whole, up to the first
that is marked as the last. -/
inductive Message (stream : Arrivals) : Nat → Bytes → List (Bool × Pkt) → Prop
  | last {pos mem} (fin : (pktOf (fetch stream pos mem).2.1).fin = 1) :
      Message stream pos mem [((fetch stream pos mem).1,pktOf (fetch stream pos mem).2.1)]
  | more {pos mem rest} (fin : (pktOf (fetch stream pos mem).2.1).fin ≠ 1)
      (next : Message stream (fetch stream pos mem).2.2 (fetch stream pos mem).2.1 rest) :
      Message stream pos mem (((fetch stream pos mem).1,pktOf (fetch stream pos mem).2.1) :: rest)

def sizes (msg : List (Bool × Pkt)) : Nat := (msg.map fun entry => entry.2.size).sum

def wholePkts (msg : List (Bool × Pkt)) : List Pkt := (msg.filter fun entry => entry.1).map Prod.snd

/- A message whose packets are there, whose chunks fit their packets and have no NUL but at the
end, and whose first and last packet give the length of all of them. -/
structure Coherent (room : Nat → Bool) (msg : List (Bool × Pkt)) : Prop where
  chunk : ∀ entry ∈ msg, entry.2.size ≤ bufSize ∧ (entry.1 = true ∨ entry.2.size = 0)
  string : ∀ entry ∈ msg, ∀ b ∈ (entry.2.buf.take entry.2.size).dropWhile (fun b => b ≠ 0), b = 0
  first : ∀ entry ∈ msg.head?, entry.2.totalSize = sizes msg
  last : ∀ entry ∈ msg.getLast?, entry.2.totalSize = sizes msg
  memory : sizes msg + 1 < 2 ^ 64 ∧ room (sizes msg + 1) = true

/- From a turn on. Empty packets at the front may find no memory for the total_size they give. -/
inductive Parses (room : Nat → Nat → Bool) : Nat → List (Bool × Pkt) → Prop
  | refused {turn entry rest} (full : room turn ((entry.2.totalSize + 1) % 2 ^ 64) = false) (empty : entry.2.size = 0)
      (next : Parses room (turn + 1) rest) : Parses room turn (entry :: rest)
  | granted {turn msg} (coherent : Coherent (room turn) msg) (packets : msg ≠ []) : Parses room turn msg

theorem mallocGives {room : Nat → Bool} {fresh : Nat → UInt8} {n : Nat} {bytes : Bytes}
    (got : malloc room fresh n = some bytes) : room n = true ∧ (List.range n).map fresh = bytes := by
  rw [malloc] at got
  split at got
  · rename_i enough
    exact ⟨enough,Option.some.inj got⟩
  · cases got

theorem mallocRefuses {room : Nat → Bool} {fresh : Nat → UInt8} {n : Nat} (none : malloc room fresh n = none) :
    room n = false := by
  rw [malloc] at none
  split at none
  · cases none
  · rename_i full
    exact Bool.eq_false_of_not_eq_true full

/-! The copies of a whole message. -/

def laid (entry : Bool × Pkt) : Bytes := (strncpy entry.2.buf entry.2.size).getD []

def copyAll : Bytes → Nat → List (Bool × Pkt) → Option (Bytes × Nat)
  | path,received,[] => some (path,received)
  | path,received,(_,pkt) :: rest =>
    match copyChunk path received pkt with
    | none => none
    | some path => copyAll path (received + pkt.size) rest

theorem strncpyLength {src bytes : Bytes} {n : Nat} (ok : strncpy src n = some bytes) : bytes.length = n := by
  simp only [strncpy] at ok
  split at ok
  · cases ok
  · cases ok
    have short := (List.takeWhile_sublist (fun b : UInt8 => b ≠ 0) (l := src.take n)).length_le
    rw [List.length_take] at short
    rw [List.length_append,List.length_replicate]
    omega

theorem strncpyFits {src : Bytes} {n : Nat} (fits : n ≤ src.length) :
    strncpy src n = some ((src.take n).takeWhile (fun b => b ≠ 0) ++
      List.replicate (n - ((src.take n).takeWhile (fun b => b ≠ 0)).length) 0) := by
  simp only [strncpy]
  exact if_neg (fun both => Nat.not_lt.mpr fits both.2)

theorem laidSelf {entry : Bool × Pkt} (fits : entry.2.size ≤ entry.2.buf.length) :
    laid entry = entry.2.buf.take entry.2.size ↔
      ∀ b ∈ (entry.2.buf.take entry.2.size).dropWhile (fun b => b ≠ 0), b = 0 := by
  have size : (entry.2.buf.take entry.2.size).length = entry.2.size := List.length_take_of_le fits
  have split := List.takeWhile_append_dropWhile (p := fun b : UInt8 => b ≠ 0) (l := entry.2.buf.take entry.2.size)
  have count := congrArg List.length split
  rw [List.length_append,size] at count
  rw [laid,strncpyFits fits,Option.getD_some]
  constructor
  · intro same
    have rest := List.append_cancel_left (same.trans split.symm)
    rw [← rest]
    intro b mem
    exact List.eq_of_mem_replicate mem
  · intro zero
    have rest := List.eq_replicate_iff.mpr ⟨rfl,zero⟩
    conv => rhs; rw [← split]
    rw [rest]
    congr 2
    omega

theorem copyChunkForm {path path' : Bytes} {received : Nat} (entry : Bool × Pkt)
    (ok : copyChunk path received entry.2 = some path') :
    received + entry.2.size ≤ path.length ∧ (laid entry).length = entry.2.size ∧
      path' = path.take received ++ laid entry ++ path.drop (received + entry.2.size) := by
  rw [copyChunk] at ok
  split at ok
  · cases ok
  · rename_i bytes copied
    split at ok
    · cases ok
    · rename_i room
      cases ok
      rw [laid,copied]
      exact ⟨Nat.not_lt.mp room,strncpyLength copied,rfl⟩

theorem copyAllForm {path path' : Bytes} {received received' : Nat} {msg : List (Bool × Pkt)}
    (inside : received ≤ path.length) (ok : copyAll path received msg = some (path',received')) :
    received' = received + sizes msg ∧ received' ≤ path.length ∧ (∀ entry ∈ msg, (laid entry).length = entry.2.size) ∧
      path' = path.take received ++ msg.flatMap laid ++ path.drop received' := by
  induction msg generalizing path received with
  | nil =>
    cases ok
    refine ⟨rfl,inside,List.forall_mem_nil _,?_⟩
    rw [List.flatMap_nil,List.append_nil,List.take_append_drop]
  | cons entry rest ih =>
    obtain ⟨whole,pkt⟩ := entry
    rw [copyAll] at ok
    split at ok
    · cases ok
    · rename_i next copied
      obtain ⟨room,size,rfl⟩ := copyChunkForm (whole,pkt) copied
      have front : (path.take received ++ laid (whole,pkt)).length = received + pkt.size := by
        rw [List.length_append,List.length_take_of_le inside,size]
      have length :
          (path.take received ++ laid (whole,pkt) ++ path.drop (received + pkt.size)).length = path.length := by
        rw [List.length_append,front,List.length_drop]
        exact Nat.add_sub_cancel' room
      obtain ⟨count,within,each,form⟩ := ih (length.symm ▸ room) ok
      have later : received' = received + pkt.size + (received' - (received + pkt.size)) := by omega
      refine ⟨?_,length ▸ within,List.forall_mem_cons.mpr ⟨size,each⟩,?_⟩
      · rw [count,sizes,sizes,List.map_cons,List.sum_cons,Nat.add_assoc]
      · rw [form,List.take_left' front,later,dropPast _ _ _ front,List.drop_drop]
        simp only [List.flatMap_cons,List.append_assoc]

theorem copyAllFits {path : Bytes} {received : Nat} {msg : List (Bool × Pkt)}
    (fits : ∀ entry ∈ msg, entry.2.size ≤ entry.2.buf.length) (room : received + sizes msg ≤ path.length) :
    ∃ path' received', copyAll path received msg = some (path',received') := by
  induction msg generalizing path received with
  | nil => exact ⟨path,received,rfl⟩
  | cons entry rest ih =>
    obtain ⟨whole,pkt⟩ := entry
    obtain ⟨first,others⟩ := List.forall_mem_cons.mp fits
    rw [sizes,List.map_cons,List.sum_cons,← Nat.add_assoc] at room
    change received + pkt.size + sizes rest ≤ path.length at room
    have copied := strncpyFits (show pkt.size ≤ pkt.buf.length from first)
    have size := strncpyLength copied
    have chunk : ∃ next, copyChunk path received pkt = some next ∧ next.length = path.length := by
      refine ⟨_,by rw [copyChunk,copied]; exact if_neg (by omega),?_⟩
      rw [List.length_append,List.length_append,size,List.length_take,List.length_drop]
      omega
    obtain ⟨next,done,length⟩ := chunk
    rw [copyAll,done]
    exact ih others (length.symm ▸ room)

/-! The loop runs along a message. -/

section
variable {room : Nat → Nat → Bool} {fresh : Nat → UInt8} {stream : Arrivals} {piece : Nat → Nat} {copied : Nat}

theorem pathLoopTurn {fuel turn pos received : Nat} {mem path : Bytes} {pkts : List Pkt} :
    pathLoop room fresh stream piece copied (fuel + 1) turn pos mem (some path) received pkts =
      (let pkt := pktOf (fetch stream pos mem).2.1
      let pkts := if (fetch stream pos mem).1 then pkts ++ [pkt] else pkts
      match copyChunk path received pkt with
      | none => some .stray
      | some path =>
        if pkt.fin = 1 then
          if pkt.totalSize < path.length then some
            (.request copied (received + pkt.size) pkts (path.set pkt.totalSize 0))
          else some .stray
        else pathLoop room fresh stream piece copied fuel (turn + 1)
          (fetch stream pos mem).2.2 (fetch stream pos mem).2.1
          (some path) (received + pkt.size) pkts) := by
  rw [pathLoop,boundReadFetch]
  rfl

/- The first packet there is memory for makes the buffer. -/
theorem pathLoopFirst {fuel turn pos : Nat} {mem : Bytes} {pkts : List Pkt} :
    pathLoop room fresh stream piece copied (fuel + 1) turn pos mem none 0 pkts =
      (let pkt := pktOf (fetch stream pos mem).2.1
      match malloc (room turn) fresh ((pkt.totalSize + 1) % 2 ^ 64) with
      | none =>
        if pkt.size = 0 ∧ pkt.fin ≠ 1 then
          pathLoop room fresh stream piece copied fuel (turn + 1)
            (fetch stream pos mem).2.2 (fetch stream pos mem).2.1 none 0
            (if (fetch stream pos mem).1 then pkts ++ [pkt] else pkts)
        else some .stray
      | some path => pathLoop room fresh stream piece copied (fuel + 1) turn pos mem (some path) 0 pkts) := by
  rw [pathLoop,boundReadFetch]
  simp only [Option.none_or]
  cases malloc (room turn) fresh (((pktOf (fetch stream pos mem).2.1).totalSize + 1) % 2 ^ 64) with
  | none =>
    refine if_ctx_congr Iff.rfl (fun both => ?_) (fun _ => rfl)
    rw [both.1]
  | some path => exact pathLoopTurn.symm

theorem wholePktsCons (whole : Bool) (pkt : Pkt) (rest : List (Bool × Pkt)) (pkts : List Pkt) :
    (if whole then pkts ++ [pkt] else pkts) ++ wholePkts rest = pkts ++ wholePkts ((whole,pkt) :: rest) := by
  cases whole <;> simp [wholePkts]

theorem pathLoopRuns {msg : List (Bool × Pkt)} {turn pos received received' : Nat} {mem path path' : Bytes}
    {pkts : List Pkt} {entry : Bool × Pkt} (message : Message stream pos mem msg)
    (ok : copyAll path received msg = some (path',received')) (last : msg.getLast? = some entry)
    (inside : entry.2.totalSize < path'.length) :
    ∃ fuel, pathLoop room fresh stream piece copied (fuel + 1) turn pos mem (some path) received pkts =
      some (.request copied received' (pkts ++ wholePkts msg) (path'.set entry.2.totalSize 0)) := by
  induction message generalizing turn path received pkts with
  | @last pos mem fin =>
    obtain rfl : (_,_) = entry := Option.some.inj ((List.getLast?_singleton).symm.trans last)
    rw [copyAll] at ok
    split at ok
    · cases ok
    · rename_i next done
      cases ok
      refine ⟨0,?_⟩
      refine pathLoopTurn.trans ?_
      simp only [done,if_pos fin,if_pos inside]
      rw [← wholePktsCons,wholePkts,List.filter_nil,List.map_nil,List.append_nil]
  | @more pos mem rest fin next ih =>
    rw [copyAll] at ok
    split at ok
    · cases ok
    · rename_i path done
      have others : rest.getLast? = some entry := by
        cases next <;> exact (List.getLast?_cons_cons).symm.trans last
      obtain ⟨fuel,ran⟩ := @ih (turn + 1) _ path
        (if (fetch stream pos mem).1 then pkts ++ [pktOf (fetch stream pos mem).2.1] else pkts) ok others
      refine ⟨fuel + 1,?_⟩
      refine pathLoopTurn.trans ?_
      simp only [done,if_neg fin]
      rw [ran,wholePktsCons]

theorem pathLoopMessage {fuel turn pos received : Nat} {mem path : Bytes} {pkts : List Pkt} {parsed : Parsed}
    (done : pathLoop room fresh stream piece copied fuel turn pos mem (some path) received pkts = some parsed) :
    parsed = .stray ∨ ∃ msg entry path' received', Message stream pos mem msg ∧ msg.getLast? = some entry ∧
      copyAll path received msg = some (path',received') ∧ entry.2.totalSize < path'.length ∧
      parsed = .request copied received' (pkts ++ wholePkts msg) (path'.set entry.2.totalSize 0) := by
  induction fuel generalizing turn pos received mem path pkts with
  | zero => cases done
  | succ fuel ih =>
    rw [pathLoopTurn] at done
    dsimp only at done
    split at done
    · cases done
      exact .inl rfl
    · rename_i next laid
      split at done
      · rename_i fin
        split at done
        · rename_i inside
          cases done
          refine .inr ⟨_,_,next,_,.last fin,List.getLast?_singleton,by rw [copyAll,laid]; rfl,inside,?_⟩
          rw [← wholePktsCons,wholePkts,List.filter_nil,List.map_nil,List.append_nil]
        · cases done
          exact .inl rfl
      · rename_i fin
        obtain stray | ⟨msg,entry,path',received',message,last,all,inside,is⟩ := ih done
        · exact .inl stray
        · refine .inr ⟨_,entry,path',received',.more fin message,?_,by rw [copyAll,laid]; exact all,inside,?_⟩
          · cases message <;> exact (List.getLast?_cons_cons).trans last
          · rw [is,wholePktsCons]

end

/-! A coherent message and the string that is made of it. -/

theorem unleBound (bytes : Bytes) : unle bytes < 256 ^ bytes.length := by
  induction bytes with
  | nil => decide
  | cons b rest ih =>
    have digit : b.toNat < 256 := b.toNat_lt
    rw [unle,List.length_cons,Nat.pow_succ']
    omega

theorem Message.fields {stream : Arrivals} {msg : List (Bool × Pkt)} {pos : Nat} {mem : Bytes}
    (message : Message stream pos mem msg) (memory : mem.length = pktSize) :
    ∀ entry ∈ msg, entry.2.buf.length = bufSize ∧ entry.2.totalSize < 2 ^ 64 := by
  have total (bytes : Bytes) : (pktOf bytes).totalSize < 2 ^ 64 := by
    have bound := unleBound ((bytes.drop 16).take 8)
    have width : 256 ^ ((bytes.drop 16).take 8).length ≤ 256 ^ 8 :=
      Nat.pow_le_pow_right (by decide) (List.length_take_le 8 _)
    show unle ((bytes.drop 16).take 8) < 2 ^ 64
    omega
  induction message with
  | @last pos mem fin => exact List.forall_mem_singleton.mpr ⟨(fetchMemory stream pos memory).2,total _⟩
  | @more pos mem rest fin next ih =>
    have read := fetchMemory stream pos memory
    exact List.forall_mem_cons.mpr ⟨⟨read.2,total _⟩,ih read.1⟩

theorem Message.first {stream : Arrivals} {msg : List (Bool × Pkt)} {pos : Nat} {mem : Bytes}
    (message : Message stream pos mem msg) :
    msg.head? = some ((fetch stream pos mem).1,pktOf (fetch stream pos mem).2.1) := by
  cases message <;> rfl

theorem Message.packets {stream : Arrivals} {msg : List (Bool × Pkt)} {pos : Nat} {mem : Bytes}
    (message : Message stream pos mem msg) : msg ≠ [] := by
  cases message <;> exact List.cons_ne_nil _ _

/- The chunks that came with a whole packet are at most what the sizes say, and as much only when
every chunk came so. -/
theorem contentsSizes {msg : List (Bool × Pkt)} (memory : ∀ entry ∈ msg, entry.2.buf.length = bufSize) :
    (contents (wholePkts msg)).length ≤ sizes msg ∧ ((contents (wholePkts msg)).length = sizes msg →
      (∀ entry ∈ msg, entry.2.size ≤ bufSize ∧ (entry.1 = true ∨ entry.2.size = 0))) := by
  induction msg with
  | nil => exact ⟨Nat.le_refl 0,fun _ => List.forall_mem_nil _⟩
  | cons entry rest ih =>
    obtain ⟨whole,pkt⟩ := entry
    obtain ⟨first,others⟩ := List.forall_mem_cons.mp memory
    obtain ⟨below,equal⟩ := ih others
    change pkt.buf.length = bufSize at first
    have total : sizes ((whole,pkt) :: rest) = pkt.size + sizes rest := by
      rw [sizes,List.map_cons,List.sum_cons,sizes]
    rw [total,List.forall_mem_cons]
    cases whole with
    | true =>
      have all : contents (wholePkts ((true,pkt) :: rest)) = pkt.buf.take pkt.size ++ contents (wholePkts rest) := rfl
      rw [all,List.length_append,List.length_take,first]
      refine ⟨by omega,fun same => ⟨⟨?_,.inl rfl⟩,equal ?_⟩⟩
      · show pkt.size ≤ bufSize
        omega
      · omega
    | false =>
      have all : contents (wholePkts ((false,pkt) :: rest)) = contents (wholePkts rest) := rfl
      rw [all]
      refine ⟨by omega,fun same => ⟨⟨?_,.inr ?_⟩,equal ?_⟩⟩
      · show pkt.size ≤ bufSize
        omega
      · show pkt.size = 0
        omega
      · omega

theorem contentsChunks {msg : List (Bool × Pkt)} (chunk : ∀ entry ∈ msg, entry.1 = true ∨ entry.2.size = 0) :
    contents (wholePkts msg) = msg.flatMap fun entry => entry.2.buf.take entry.2.size := by
  induction msg with
  | nil => rfl
  | cons entry rest ih =>
    obtain ⟨whole,pkt⟩ := entry
    obtain ⟨first,others⟩ := List.forall_mem_cons.mp chunk
    rw [List.flatMap_cons,← ih others]
    cases whole with
    | true => rfl
    | false =>
      have empty : pkt.size = 0 := first.resolve_left Bool.false_ne_true
      simp only [empty,List.take_zero,List.nil_append]
      rfl

theorem flatMapPieces {α : Type} {f g : α → Bytes} {l : List α} (same : l.flatMap f = l.flatMap g)
    (lengths : ∀ x ∈ l, (f x).length = (g x).length) : ∀ x ∈ l, f x = g x := by
  induction l with
  | nil => exact List.forall_mem_nil _
  | cons x rest ih =>
    obtain ⟨first,others⟩ := List.forall_mem_cons.mp lengths
    rw [List.flatMap_cons,List.flatMap_cons] at same
    obtain ⟨head,tail⟩ := List.append_inj same first
    exact List.forall_mem_cons.mpr ⟨head,ih tail others⟩

theorem setLast (front : Bytes) (b : UInt8) (n : Nat) (len : front.length = n) :
    (front ++ [b]).set n 0 = front ++ [0] := by
  rw [List.set_append_right _ _ (Nat.le_of_eq len),len,Nat.sub_self]
  rfl

section
variable {room : Nat → Nat → Bool} {stream : Arrivals}

theorem coherentParses (fresh : Nat → UInt8) (piece : Nat → Nat) (copied : Nat) {msg : List (Bool × Pkt)}
    {turn pos : Nat} {mem : Bytes} (memory : mem.length = pktSize) (pkts : List Pkt)
    (message : Message stream pos mem msg) (coherent : Coherent (room turn) msg) :
    sizes msg = (contents (wholePkts msg)).length ∧
    ∃ fuel, pathLoop room fresh stream piece copied fuel turn pos mem none 0 pkts =
      some (.request copied (sizes msg) (pkts ++ wholePkts msg) (contents (wholePkts msg) ++ [0])) := by
  have fields := message.fields memory
  have fits : ∀ entry ∈ msg, entry.2.size ≤ entry.2.buf.length :=
    fun entry mem => (fields entry mem).1 ▸ (coherent.chunk entry mem).1
  have chunks := contentsChunks (fun entry mem => (coherent.chunk entry mem).2)
  have same : msg.flatMap laid = contents (wholePkts msg) := by
    rw [chunks,List.flatMap_def,List.flatMap_def]
    congr 1
    exact List.map_congr_left (fun entry mem => (laidSelf (fits entry mem)).mpr (coherent.string entry mem))
  obtain ⟨short,enough⟩ := coherent.memory
  have buffer :
      malloc (room turn) fresh ((sizes msg + 1) % 2 ^ 64) = some ((List.range (sizes msg + 1)).map fresh) := by
    rw [Nat.mod_eq_of_lt short,malloc,if_pos enough]
  have length : ((List.range (sizes msg + 1)).map fresh).length = sizes msg + 1 := by
    rw [List.length_map,List.length_range]
  have enoughBytes : 0 + sizes msg ≤ ((List.range (sizes msg + 1)).map fresh).length := by omega
  obtain ⟨path',received',all⟩ := copyAllFits fits enoughBytes
  obtain ⟨count,within,each,form⟩ := copyAllForm (Nat.zero_le _) all
  rw [Nat.zero_add] at count
  subst count
  have laidLength : (msg.flatMap laid).length = sizes msg := by
    rw [List.length_flatMap,sizes]
    exact congrArg List.sum (List.map_congr_left each)
  obtain ⟨b,rest⟩ : ∃ b, ((List.range (sizes msg + 1)).map fresh).drop (sizes msg) = [b] := by
    apply List.length_eq_one_iff.mp
    rw [List.length_drop,length]
    omega
  rw [List.take_zero,List.nil_append,rest,same] at form
  rw [same] at laidLength
  refine ⟨laidLength.symm,?_⟩
  obtain ⟨entry,last⟩ : ∃ entry, msg.getLast? = some entry := ⟨_,List.getLast?_eq_some_getLast message.packets⟩
  have total := coherent.last entry last
  have inside : entry.2.totalSize < path'.length := by
    rw [form,List.length_append,List.length_singleton,laidLength,total]
    exact Nat.lt_succ_self _
  obtain ⟨fuel,ran⟩ : ∃ fuel, pathLoop room fresh stream piece copied (fuel + 1) turn pos mem
      (some ((List.range (sizes msg + 1)).map fresh)) 0 pkts =
        some (.request copied (sizes msg) (pkts ++ wholePkts msg) (path'.set entry.2.totalSize 0)) :=
    pathLoopRuns message all last inside
  refine ⟨fuel + 1,?_⟩
  rw [pathLoopFirst]
  dsimp only
  rw [coherent.first _ message.first,buffer]
  simp only [ran]
  rw [form,total,setLast _ b _ laidLength]

theorem contentsAppend (pkts more : List Pkt) : contents (pkts ++ more) = contents pkts ++ contents more :=
  List.flatMap_append

theorem contentsEmpty {whole : Bool} {pkt : Pkt} {pkts : List Pkt} (empty : pkt.size = 0) :
    contents (if whole then pkts ++ [pkt] else pkts) = contents pkts := by
  cases whole with
  | false => rfl
  | true =>
    rw [if_pos rfl,contentsAppend]
    simp [contents,empty]

theorem Parses.packets {turn : Nat} {msg : List (Bool × Pkt)} (parses : Parses room turn msg) : msg ≠ [] := by
  cases parses with
  | refused => exact List.cons_ne_nil _ _
  | granted coherent packets => exact packets

theorem messageParses (fresh : Nat → UInt8) (piece : Nat → Nat) (copied : Nat) {msg : List (Bool × Pkt)}
    {turn pos : Nat} {mem : Bytes} (memory : mem.length = pktSize) (pkts : List Pkt)
    (message : Message stream pos mem msg) (parses : Parses room turn msg) :
    sizes msg = (contents (wholePkts msg)).length ∧
    ∃ fuel, pathLoop room fresh stream piece copied fuel turn pos mem none 0 pkts =
      some (.request copied (sizes msg) (pkts ++ wholePkts msg) (contents (wholePkts msg) ++ [0])) := by
  induction parses generalizing pos mem pkts with
  | granted coherent _ => exact coherentParses fresh piece copied memory pkts message coherent
  | @refused turn entry rest full empty next ih =>
    cases message with
    | last fin => exact absurd rfl next.packets
    | more fin message =>
      obtain ⟨count,fuel,ran⟩ := ih (fetchMemory stream pos memory).1
        (if (fetch stream pos mem).1 then pkts ++ [pktOf (fetch stream pos mem).2.1] else pkts) message
      change (pktOf (fetch stream pos mem).2.1).size = 0 at empty
      have none : malloc (room turn) fresh (((pktOf (fetch stream pos mem).2.1).totalSize + 1) % 2 ^ 64) = none := by
        rw [malloc,full]
        rfl
      have same : sizes (((fetch stream pos mem).1,pktOf (fetch stream pos mem).2.1) :: rest) = sizes rest := by
        rw [sizes,List.map_cons,List.sum_cons,empty,Nat.zero_add,sizes]
      have chunks : contents (wholePkts (((fetch stream pos mem).1,pktOf (fetch stream pos mem).2.1) :: rest)) =
          contents (wholePkts rest) := by
        rw [← List.nil_append (wholePkts (_ :: rest)),← wholePktsCons,contentsAppend,contentsEmpty empty]
        rfl
      rw [same,chunks]
      refine ⟨count,fuel + 1,?_⟩
      rw [pathLoopFirst]
      simp only [none,empty,fin,ne_eq,not_false_eq_true,and_self,if_true]
      rw [ran,wholePktsCons]

/- Memory that holds no NUL of its own shows how the string comes to its end. -/
theorem coherentMessage {room : Nat → Bool} {msg : List (Bool × Pkt)} {pos : Nat} {mem path path' : Bytes}
    {pkts : List Pkt} {entry : Bool × Pkt} (memory : mem.length = pktSize) (nothing : contents pkts = [])
    (buffer : malloc room (fun _ => 1) (((pktOf (fetch stream pos mem).2.1).totalSize + 1) % 2 ^ 64) = some path)
    (message : Message stream pos mem msg) (last : msg.getLast? = some entry) {received' : Nat}
    (all : copyAll path 0 msg = some (path',received')) (inside : entry.2.totalSize < path'.length)
    (exact' : received' = (contents (pkts ++ wholePkts msg)).length)
    (string : path'.set entry.2.totalSize 0 = contents (pkts ++ wholePkts msg) ++ [0]) : Coherent room msg := by
  rw [contentsAppend,nothing,List.nil_append] at exact' string
  have fields := message.fields memory
  obtain ⟨count,within,each,form⟩ := copyAllForm (Nat.zero_le _) all
  rw [Nat.zero_add] at count
  subst count
  have chunk := (contentsSizes fun entry mem => (fields entry mem).1).2 exact'.symm
  have chunks := contentsChunks fun entry mem => (chunk entry mem).2
  obtain ⟨enough,rfl⟩ := mallocGives buffer
  have laidLength : (msg.flatMap laid).length = sizes msg := by
    rw [List.length_flatMap,sizes]
    exact congrArg List.sum (List.map_congr_left each)
  rw [List.take_zero,List.nil_append] at form
  have first := message.first
  have total : (pktOf (fetch stream pos mem).2.1).totalSize < 2 ^ 64 := (fields _ (List.mem_of_mem_head? first)).2
  have length := congrArg List.length string
  rw [List.length_set,form,List.length_append,laidLength,List.length_drop,List.length_append,← exact',
    List.length_singleton,List.length_map,List.length_range] at length
  have size : (pktOf (fetch stream pos mem).2.1).totalSize = sizes msg ∧ sizes msg + 1 < 2 ^ 64 := by
    rcases Nat.lt_or_ge ((pktOf (fetch stream pos mem).2.1).totalSize + 1) (2 ^ 64) with small | large
    · rw [Nat.mod_eq_of_lt small] at length within
      omega
    · rw [show (pktOf (fetch stream pos mem).2.1).totalSize + 1 = 2 ^ 64 by omega,Nat.mod_self] at length
      omega
  rw [size.1,Nat.mod_eq_of_lt size.2] at form enough
  have tail : ((List.range (sizes msg + 1)).map fun _ => (1 : UInt8)).drop (sizes msg) = [1] := by
    rw [List.map_const',List.length_range,List.drop_replicate,Nat.add_sub_cancel_left]
    rfl
  rw [tail] at form
  have stop : entry.2.totalSize = sizes msg := by
    rw [form,List.length_append,laidLength,List.length_singleton] at inside
    apply Classical.byContradiction
    intro other
    have before : entry.2.totalSize < (msg.flatMap laid).length := by omega
    rw [form,List.set_append_left _ _ before] at string
    have ends := List.append_inj_right string (by rw [List.length_set,laidLength,exact'])
    exact absurd ends (by decide)
  rw [form,stop,setLast _ 1 _ laidLength] at string
  have same := List.append_inj_left string (by rw [laidLength,exact'])
  rw [chunks] at same
  have pieces := flatMapPieces same fun entry mem => by
    rw [each entry mem,List.length_take_of_le ((fields entry mem).1 ▸ (chunk entry mem).1)]
  refine ⟨chunk,fun entry mem => ?_,?_,?_,size.2,enough⟩
  · exact (laidSelf ((fields entry mem).1 ▸ (chunk entry mem).1)).mp (pieces entry mem)
  · intro entry head
    cases first.symm.trans head
    exact size.1
  · intro entry' tail
    cases last.symm.trans tail
    exact stop

theorem parsesCoherent {piece : Nat → Nat} {copied fuel turn pos : Nat} {mem : Bytes} {pkts : List Pkt}
    {parsed : Parsed} (memory : mem.length = pktSize) (nothing : contents pkts = [])
    (done : pathLoop room (fun _ => 1) stream piece copied fuel turn pos mem none 0 pkts = some parsed)
    (proper : parsed.Proper) : copied ≤ 2 ∧ ∃ msg, Message stream pos mem msg ∧ Parses room turn msg := by
  induction fuel generalizing turn pos mem pkts with
  | zero => cases done
  | succ fuel ih =>
    rw [pathLoopFirst] at done
    dsimp only at done
    split at done
    · rename_i none
      split at done
      · rename_i passed
        obtain ⟨two,rest,message,parses⟩ :=
          ih (fetchMemory stream pos memory).1 ((contentsEmpty passed.1).trans nothing) done
        exact ⟨two,_,.more passed.2 message,.refused (mallocRefuses none) passed.1 parses⟩
      · cases done
        exact absurd proper id
    · rename_i path buffer
      obtain rfl | ⟨msg,entry,path',received',message,last,all,inside,rfl⟩ := pathLoopMessage done
      · exact absurd proper id
      · obtain ⟨two,exact',string⟩ := proper
        have coherent := coherentMessage memory nothing buffer message last all inside exact' string
        exact ⟨two,msg,message,.granted coherent message.packets⟩

end

/-! What a client sends with bound_send is coherent. -/

def sentBytes (pkts : List Pkt) : Bytes := writeCalls (fun _ => pktSize) 0 pkts

theorem writeCallsWhole (i : Nat) (pkts : List Pkt) : writeCalls (fun _ => pktSize) i pkts = sentBytes pkts := by
  induction pkts generalizing i with
  | nil => rfl
  | cons pkt rest ih =>
    show (pktBytes pkt).take pktSize ++ writeCalls _ (i + 1) rest = (pktBytes pkt).take pktSize ++ writeCalls _ 1 rest
    rw [ih,ih]

theorem sentBytesCons {pkt : Pkt} (memory : pkt.Memory) (rest : List Pkt) :
    sentBytes (pkt :: rest) = pktBytes pkt ++ sentBytes rest := by
  rw [sentBytes,writeCalls,writeCallsWhole,List.take_of_length_le (Nat.le_of_eq (pktBytesLength memory))]

theorem fetchFirst {wire tail : Bytes} {pos : Nat} {pkt : Pkt} (memory : pkt.Memory)
    (comes : wire.drop pos = pktBytes pkt ++ tail) {mem : Bytes} (fits : mem.length = pktSize) :
    fetch (arriving wire) pos mem = (true,pktBytes pkt,pos + pktSize) := by
  rw [← boundReadFetch (arriving wire) (fun _ => 0)]
  exact boundReadFirst memory comes (fun _ => 0) (Nat.le_of_eq fits)

theorem messageSent {mem : Pkt} (memory : mem.Memory) {totalSize : Nat} (short : totalSize < 256 ^ 8) {remain : Bytes}
    (ne : remain ≠ []) {wire tail old : Bytes} {pos : Nat} (fits : old.length = pktSize)
    (comes : wire.drop pos = sentBytes (sendLoop mem totalSize remain) ++ tail) :
    Message (arriving wire) pos old ((sendLoop mem totalSize remain).map fun pkt => (true,pkt)) := by
  induction len : remain.length using Nat.strongRecOn generalizing mem remain pos old with
  | ind n ih =>
    rcases sendLoopSource memory ne short with ⟨pkt,only,good,fin⟩ | ⟨pkt,first,good,fin,more,fewer⟩
    · rw [only,sentBytesCons good.memory,List.append_assoc] at comes
      have got := fetchFirst good.memory comes fits
      have last : (pktOf (fetch (arriving wire) pos old).2.1).fin = 1 := by rw [got,good.kept,fin]
      have all := Message.last last
      rw [got,good.kept] at all
      rw [only]
      exact all
    · rw [first,sentBytesCons good.memory,List.append_assoc] at comes
      have got := fetchFirst good.memory comes fits
      have size := pktBytesLength good.memory
      have later : wire.drop (pos + pktSize) = sentBytes (sendLoop pkt totalSize (remain.drop bufSize)) ++ tail := by
        rw [← List.drop_drop,comes,List.drop_left' size]
      have between : (pktOf (fetch (arriving wire) pos old).2.1).fin ≠ 1 := by
        rw [got,good.kept,fin]
        decide
      have next := ih _ (len ▸ fewer) good.memory more size later rfl
      have all := Message.more between (by rw [got]; exact next)
      rw [got,good.kept] at all
      rw [first]
      exact all

theorem sizesSent (pkts : List Pkt) (fits : ∀ pkt ∈ pkts, pkt.Memory ∧ pkt.size ≤ bufSize) :
    sizes (pkts.map fun pkt => (true,pkt)) = (contents pkts).length := by
  induction pkts with
  | nil => rfl
  | cons pkt rest ih =>
    obtain ⟨first,others⟩ := List.forall_mem_cons.mp fits
    have chunk : (pkt.buf.take pkt.size).length = pkt.size := List.length_take_of_le (first.1.buf ▸ first.2)
    have tail := ih others
    rw [contents] at tail
    simp only [sizes,contents,List.map_cons,List.sum_cons,List.flatMap_cons,List.length_append,chunk] at tail ⊢
    omega

theorem coherentSent {mem : Pkt} (memory : mem.Memory) {path : Bytes} (some : path ≠ []) (noNul : 0 ∉ path)
    {room : Nat → Bool} (short : path.length + 1 < 2 ^ 64) (enough : room (path.length + 1) = true) :
    Coherent room ((boundSend mem path).map fun pkt => (true,pkt)) := by
  have below : path.length < 2 ^ 64 := by omega
  have sent := sendLoopMemory memory path.length path
  have all := (sendLoopContents memory below some).1
  have count : sizes ((boundSend mem path).map fun pkt => (true,pkt)) = path.length :=
    (sizesSent _ fun pkt mem => ⟨(sent pkt mem).1,(sent pkt mem).2.2.1⟩).trans (congrArg List.length all)
  have total : ∀ entry ∈ (boundSend mem path).map fun pkt => (true,pkt), entry.2.totalSize = path.length := by
    intro entry mem
    obtain ⟨pkt,is,rfl⟩ := List.mem_map.mp mem
    exact (sent pkt is).2.2.2
  refine ⟨?_,?_,?_,?_,count ▸ ⟨short,enough⟩⟩
  · intro entry mem
    obtain ⟨pkt,is,rfl⟩ := List.mem_map.mp mem
    exact ⟨(sent pkt is).2.2.1,.inl rfl⟩
  · intro entry mem b inside
    obtain ⟨pkt,is,rfl⟩ := List.mem_map.mp mem
    have nonzero : ∀ c ∈ pkt.buf.take pkt.size, c ≠ 0 := by
      intro c chunk zero
      have there : c ∈ contents (sendLoop _ path.length path) := List.mem_flatMap.mpr ⟨pkt,is,chunk⟩
      rw [all,zero] at there
      exact noNul there
    rw [List.dropWhile_eq_nil_iff.mpr (fun c chunk => by simpa using nonzero c chunk)] at inside
    cases inside
  · intro entry head
    rw [count]
    exact total entry (List.mem_of_mem_head? head)
  · intro entry last
    rw [count]
    exact total entry (List.mem_of_mem_getLast? last)

def opcodePkt : Pkt := ⟨1,blank.pad,2,2,[4,0] ++ blank.buf.drop 2⟩

theorem opcodeSent : boundSend blank [4,0] = [opcodePkt] := boundSendOne blank (by decide) (by decide)

theorem opcodeGood : opcodePkt.Memory ∧ pktOf (pktBytes opcodePkt) = opcodePkt := by
  have short : [4,0].length < 256 ^ 8 := by decide
  exact boundSendMemory blankMemory short _ (opcodeSent ▸ List.mem_singleton_self _)

theorem opcodeComes (tail : Bytes) : sentBytes (boundSend blank [4,0]) ++ tail = pktBytes opcodePkt ++ tail := by
  rw [opcodeSent,sentBytesCons opcodeGood.1,sentBytes,writeCalls,List.append_nil]

theorem opcodeFetched (tail : Bytes) :
    fetch (arriving (sentBytes (boundSend blank [4,0]) ++ tail)) 0 (List.replicate pktSize 0) =
      (true,pktBytes opcodePkt,0 + pktSize) :=
  fetchFirst opcodeGood.1 (List.drop_zero.trans (opcodeComes tail)) List.length_replicate

end FuseStudy.ServerParse
