import FuseStudy.BufRuns

/-! The laws of fuse_buf_copy between vectors of memory. -/
namespace FuseStudy.BufCopy

theorem cellsMem {b : Buf} (mem : b.isFd = false) (off n : Nat) : ∀ c ∈ b.cells off n, c.isMem = true := by
  intro c inside
  obtain ⟨i,rfl⟩ := cellsKind b off n c inside
  rw [cellMem,mem]
  rfl

theorem restMem {v : Bufvec} (mem : v.InMemory) : ∀ c ∈ v.rest, c.isMem = true := by
  intro c inside
  cases current : v.current with
  | none =>
    rw [restNone current] at inside
    cases inside
  | some b =>
    rw [restSome current,List.mem_append,Bufvec.behind,List.mem_flatMap] at inside
    obtain here | ⟨later,found,inside⟩ := inside
    · exact cellsMem (mem b (List.mem_of_getElem? current)) _ _ c here
    · exact cellsMem (mem later (List.mem_of_mem_drop found)) _ _ c inside

theorem memStill {c : Cell} (mem : c.isMem = true) : c.isStream = false := by
  cases c with
  | mem a => rfl
  | _ => cases mem

theorem memApart {src dst : List Cell} (away : ∀ c ∈ src, c ∉ dst) : Apart src dst := by
  rintro c inside d inside' rfl
  exact absurd inside' (away c inside)

theorem putsMem {w : World} {cells : List Cell} {bytes : List UInt8} {a : Nat} (other : Cell.mem a ∉ cells) :
    (w.puts cells bytes).mem a = w.mem a := by
  induction cells generalizing w bytes with
  | nil => rw [putsNil]
  | cons c cells ih =>
    cases bytes with
    | nil => rfl
    | cons byte bytes =>
      have first : (w.put byte c).mem a = w.mem a := by
        cases c with
        | mem x => exact if_neg fun same => other (List.mem_cons.mpr (.inl (congrArg Cell.mem same)))
        | _ => rfl
      rw [World.puts,ih fun later => other (List.mem_cons_of_mem _ later),first]

theorem putsTaken {w : World} {cells : List Cell} {bytes : List UInt8} (mem : ∀ c ∈ cells, c.isMem = true)
    (once : cells.Nodup) (same : cells.length = bytes.length) : ((w.puts cells bytes).takes cells).1 = bytes := by
  induction cells generalizing w bytes with
  | nil => exact (List.eq_nil_of_length_eq_zero same.symm).symm
  | cons c cells ih =>
    cases bytes with
    | nil => cases same
    | cons byte bytes =>
      obtain ⟨fresh,later⟩ := List.nodup_cons.mp once
      have first : c.isMem = true := mem c List.mem_cons_self
      cases c with
      | mem a =>
        have here : ((w.put byte (.mem a)).puts cells bytes).mem a = byte := by
          rw [putsMem fresh]
          exact if_pos rfl
        have rest := @ih (w.put byte (.mem a)) bytes (fun c inside => mem c (List.mem_cons_of_mem _ inside)) later
          (Nat.succ.inj same)
        simp only [World.takes,World.puts,World.take,here,rest]
      | _ => cases first

structure MemoryRan (dstv srcv dstv' srcv' : Bufvec) (s s' : Sys) (n m : Nat) : Prop where
  count : n = min srcv.rest.length dstv.rest.length
  world : s'.world = s.world.transfer (srcv.rest.take n) (dstv.rest.take n)
  source : srcv'.rest = srcv.rest.drop n
  sourceBuf : srcv'.buf = srcv.buf
  dest : dstv'.rest = dstv.rest.drop m
  behind : m ≤ n
  follows : m = n ↔ srcv.lastLeft = 0 ∨ dstv.rest.length < srcv.rest.length
  sound : dstv'.Sound
  buf : dstv'.buf = dstv.buf

theorem memoryRan {dstv srcv : Bufvec} (haveSplice : Bool) (flags : CopyFlags) (s : Sys) (mem : srcv.InMemory)
    (mem' : dstv.InMemory) (sound : srcv.Sound) (sound' : dstv.Sound)
    (fits : min srcv.rest.length dstv.rest.length < 2 ^ 63) (away : ∀ c ∈ srcv.rest, c ∉ dstv.rest) :
    ∃ n m dstv' srcv' s', fuseBufCopy haveSplice flags false dstv srcv s = some (.ok n,dstv',srcv',s') ∧
      MemoryRan dstv srcv dstv' srcv' s s' n m := by
  obtain ⟨r,dstv',srcv',s',n,m,lost,run,runs,-⟩ :=
    copyLoopRuns haveSplice flags dstv srcv 0 s sound' sound fits (memApart away)
  have count := runs.memory mem mem'
  have copy := (runs.copy (memApart away)).still fun c inside => memStill (restMem mem c inside)
  obtain ⟨dest,behind⟩ := runs.dest
  obtain ⟨sound,buf⟩ := runs.sound sound'
  have result : r = .ok n := by
    rw [runs.fine mem mem',Nat.zero_add]
    exact ssizeFits (by omega)
  subst result
  exact ⟨n,m,dstv',srcv',s',run,count,copy.world,runs.source,runs.sourceBuf,dest,behind,runs.follows mem mem',sound,buf⟩

theorem putsOnlyMem {w : World} {cells : List Cell} {bytes : List UInt8} (mem : ∀ c ∈ cells, c.isMem = true) :
    w.puts cells bytes = {w with mem := (w.puts cells bytes).mem} := by
  induction cells generalizing w bytes with
  | nil => rw [putsNil]
  | cons c cells ih =>
    cases bytes with
    | nil => rfl
    | cons byte bytes =>
      have first : c.isMem = true := mem c List.mem_cons_self
      cases c with
      | mem a =>
        rw [World.puts,ih fun c inside => mem c (List.mem_cons_of_mem _ inside)]
        rfl
      | _ => cases first

/- Between vectors of memory that do not overlap, the copy ends with as many bytes as both have, they
stand in the destination as they stood in the source, nothing else has changed, and the source is
moved on by them. No assertion fails. -/
theorem memoryCopied {dstv srcv : Bufvec} (haveSplice : Bool) (flags : CopyFlags) (s : Sys)
    (mem : srcv.InMemory) (mem' : dstv.InMemory) (sound : srcv.Sound) (sound' : dstv.Sound)
    (fits : min srcv.rest.length dstv.rest.length < 2 ^ 63) (once : dstv.rest.Nodup)
    (away : ∀ c ∈ srcv.rest, c ∉ dstv.rest) :
    ∃ n dstv' srcv' s', fuseBufCopy haveSplice flags false dstv srcv s = some (.ok n,dstv',srcv',s') ∧
      n = min srcv.rest.length dstv.rest.length ∧
      (s'.world.takes (dstv.rest.take n)).1 = (s.world.takes (srcv.rest.take n)).1 ∧
      (∀ a, Cell.mem a ∉ dstv.rest.take n → s'.world.mem a = s.world.mem a) ∧
      (∀ a, Cell.mem a ∈ srcv.rest → s'.world.mem a = s.world.mem a) ∧
      s'.world = {s.world with mem := s'.world.mem} ∧
      srcv'.rest = srcv.rest.drop n ∧ srcv'.buf = srcv.buf := by
  obtain ⟨n,m,dstv',srcv',s',run,ran⟩ := memoryRan haveSplice flags s mem mem' sound sound' fits away
  have still : (s.world.takes (srcv.rest.take n)).2 = s.world :=
    takesStill fun c inside => memStill (restMem mem c (List.mem_of_mem_take inside))
  have world := ran.world
  rw [World.transfer,still] at world
  have memory : ∀ c ∈ dstv.rest.take n, c.isMem = true := fun c inside => restMem mem' c (List.mem_of_mem_take inside)
  have same : (dstv.rest.take n).length = (s.world.takes (srcv.rest.take n)).1.length := by
    rw [takesLength,List.length_take,List.length_take,ran.count]
    omega
  have others (a : Nat) (other : Cell.mem a ∉ dstv.rest.take n) : s'.world.mem a = s.world.mem a := by
    rw [world]
    exact putsMem other
  refine ⟨n,dstv',srcv',s',run,ran.count,?_,others,fun a inside => others a fun put => ?_,?_,ran.source,ran.sourceBuf⟩
  · rw [world]
    exact putsTaken memory (once.sublist (List.take_sublist _ _)) same
  · exact away _ inside (List.mem_of_mem_take put)
  · rw [world]
    exact putsOnlyMem memory

def segment (mem size : Nat) : Buf := {mem := mem,size := size}

def memorySys : Sys where
  world := {mem := UInt8.ofNat,file := fun _ _ => 0,input := fun _ _ => 0,taken := fun _ => 0,sent := fun _ => []}
  answers := fun _ => .fail 5

/- Segments whose borders do not meet, with an empty one between. -/
theorem memoryCopiedAcross :
    ∃ n dstv' srcv' s', fuseBufCopy true {} false {off := 1,buf := [segment 20 3,segment 30 4]}
      {buf := [segment 0 3,segment 9 0,segment 10 2]} memorySys = some (.ok n,dstv',srcv',s') ∧ n = 5 := by
  have away : ∀ c ∈ Bufvec.rest {buf := [segment 0 3,segment 9 0,segment 10 2]},
      c ∉ Bufvec.rest {off := 1,buf := [segment 20 3,segment 30 4]} := by decide
  obtain ⟨n,dstv',srcv',s',run,count,-⟩ := memoryCopied true {} memorySys (by decide) (by decide)
    (by decide) (by decide)
    (by decide) (by decide) away
  exact ⟨n,dstv',srcv',s',run,count⟩

/- The segments that a vector still has, the current one cut at the position. -/
def Bufvec.left (v : Bufvec) : List Buf :=
  match v.current with
  | none => []
  | some b => {b with size := b.size - v.off,mem := b.mem + v.off,pos := b.pos + v.off} :: v.buf.drop (v.idx + 1)

/- One vector with what two vectors still have. -/
def concat (src1 src2 : Bufvec) : Bufvec := {buf := src1.left ++ src2.left}

theorem restStart (segments : List Buf) :
    Bufvec.rest {buf := segments} = segments.flatMap fun b => b.cells 0 b.size := by
  cases segments with
  | nil => rfl
  | cons b later => rfl

theorem cutCells (b : Buf) (size off i n : Nat) :
    Buf.cells {b with size := size,mem := b.mem + off,pos := b.pos + off} i n = b.cells (off + i) n := by
  induction n generalizing i with
  | zero => rfl
  | succ n ih =>
    rw [Buf.cells,Buf.cells,ih,Buf.cell,Buf.cell,Nat.add_assoc,Nat.add_assoc,Nat.add_assoc]

theorem restLeft (v : Bufvec) : (v.left.flatMap fun b => b.cells 0 b.size) = v.rest := by
  cases current : v.current with
  | none =>
    rw [Bufvec.left,current,restNone current]
    rfl
  | some b =>
    rw [Bufvec.left,current,restSome current,List.flatMap_cons,cutCells]
    rfl

theorem restConcat (src1 src2 : Bufvec) : (concat src1 src2).rest = src1.rest ++ src2.rest := by
  rw [concat,restStart,List.flatMap_append,restLeft,restLeft]

theorem leftMem {v : Bufvec} (mem : v.InMemory) : ∀ b ∈ v.left, b.isFd = false := by
  intro b inside
  cases current : v.current with
  | none =>
    rw [Bufvec.left,current] at inside
    cases inside
  | some first =>
    rw [Bufvec.left,current] at inside
    obtain rfl | later := List.mem_cons.mp inside
    · exact mem first (List.mem_of_getElem? current)
    · exact mem b (List.mem_of_mem_drop later)

/- Two copies, one after the other, leave what the copy of both sources leaves, and the first has
moved the destination on by what it copied. -/
def Composes (haveSplice : Bool) (flags : CopyFlags) (dst src1 src2 : Bufvec) (s : Sys) : Prop :=
  ∃ n1 dst1 src1' s1 n2 dst2 src2' s2 n dst' src' s',
    fuseBufCopy haveSplice flags false dst src1 s = some (.ok n1,dst1,src1',s1) ∧
    fuseBufCopy haveSplice flags false dst1 src2 s1 = some (.ok n2,dst2,src2',s2) ∧
    fuseBufCopy haveSplice flags false dst (concat src1 src2) s = some (.ok n,dst',src',s') ∧
    s2.world = s'.world ∧ n1 + n2 = n ∧ dst1.rest = dst.rest.drop n1

/- A first source that ends inside the destination leaves the destination behind by its last piece. -/
theorem copiesCompose {dst src1 src2 : Bufvec} (haveSplice : Bool) (flags : CopyFlags) (s : Sys) (mem1 : src1.InMemory)
    (mem2 : src2.InMemory) (mem : dst.InMemory) (sound1 : src1.Sound) (sound2 : src2.Sound) (sound : dst.Sound)
    (fits : min (src1.rest.length + src2.rest.length) dst.rest.length < 2 ^ 63) (away1 : ∀ c ∈ src1.rest, c ∉ dst.rest)
    (away2 : ∀ c ∈ src2.rest, c ∉ dst.rest) :
    Composes haveSplice flags dst src1 src2 s ↔ src1.lastLeft = 0 ∨ dst.rest.length < src1.rest.length := by
  obtain ⟨n1,m,dst1,src1',s1,run1,ran1⟩ := memoryRan haveSplice flags s mem1 mem sound1 sound (by omega) away1
  constructor
  · rintro ⟨n,dst1',_,_,_,_,_,_,_,_,_,_,run,-,-,-,-,dest⟩
    rw [run1] at run
    cases run
    refine ran1.follows.mp ?_
    have length := congrArg List.length (ran1.dest.symm.trans dest)
    rw [List.length_drop,List.length_drop] at length
    have most := ran1.behind
    have count := ran1.count
    omega
  · intro follows
    have whole : m = n1 := ran1.follows.mpr follows
    subst m
    have count1 := ran1.count
    have away : ∀ c ∈ src2.rest, c ∉ dst1.rest := by
      intro c inside there
      rw [ran1.dest] at there
      exact away2 c inside (List.mem_of_mem_drop there)
    have shorter : dst1.rest.length = dst.rest.length - n1 := by rw [ran1.dest,List.length_drop]
    obtain ⟨n2,m2,dst2,src2',s2,run2,ran2⟩ :=
      memoryRan haveSplice flags s1 mem2 (by rw [Bufvec.InMemory,ran1.buf]; exact mem)
      sound2 ran1.sound (by omega) away
    have all := restConcat src1 src2
    have memAll : (concat src1 src2).InMemory := by
      intro b inside
      obtain first | second := List.mem_append.mp inside
      · exact leftMem mem1 b first
      · exact leftMem mem2 b second
    have soundAll : (concat src1 src2).Sound := fun b _ => Nat.zero_le _
    have awayAll : ∀ c ∈ (concat src1 src2).rest, c ∉ dst.rest := by
      intro c inside
      rw [all] at inside
      exact (List.mem_append.mp inside).elim (away1 c) (away2 c)
    have fitsAll : min (concat src1 src2).rest.length dst.rest.length < 2 ^ 63 := by
      rw [all,List.length_append]
      exact fits
    obtain ⟨n,m3,dst',src',s',run,ran⟩ := memoryRan haveSplice flags s memAll mem soundAll sound fitsAll awayAll
    have count2 := ran2.count
    have count := ran.count
    rw [all,List.length_append] at count
    have total : n1 + n2 = n := by omega
    refine ⟨n1,dst1,src1',s1,n2,dst2,src2',s2,n,dst',src',s',run1,run2,run,?_,total,ran1.dest⟩
    have front : (src1.rest ++ src2.rest).take (n1 + n2) = src1.rest.take n1 ++ src2.rest.take n2 := by
      obtain less | equal := Nat.lt_or_eq_of_le (show n1 ≤ src1.rest.length by omega)
      · have none : n2 = 0 := by omega
        rw [none,Nat.add_zero,List.take_append_of_le_length (Nat.le_of_lt less),List.take_zero,List.append_nil]
      · rw [equal,List.take_length_add_append,List.take_length]
    have unread : Apart (src2.rest.take n2) (dst.rest.take n1) :=
      (memApart away2).mono (fun _ => List.mem_of_mem_take) fun _ => List.mem_of_mem_take
    have same : (src1.rest.take n1).length = (dst.rest.take n1).length := by
      rw [List.length_take,List.length_take]
      omega
    rw [ran2.world,ran1.world,ran.world,all,← total,front,List.take_add,transferAppend same unread,ran1.dest]

theorem copiesComposeEmptyLast :
    Composes true {} {buf := [segment 10 2]} {buf := [segment 0 1,segment 5 0]} {buf := [segment 1 1]} memorySys := by
  have away1 : ∀ c ∈ Bufvec.rest {buf := [segment 0 1,segment 5 0]}, c ∉ Bufvec.rest {buf := [segment 10 2]} := by
    decide
  have away2 : ∀ c ∈ Bufvec.rest {buf := [segment 1 1]}, c ∉ Bufvec.rest {buf := [segment 10 2]} := by decide
  have law := copiesCompose true {} memorySys (by decide) (by decide) (by decide) (by decide) (by decide) (by decide)
    (by decide) away1 away2
  exact law.mpr (.inl (by decide))

/- One byte, and then another, are copied to a vector of two: the second falls on the first, while a copy of both
fills the two. -/
theorem secondOverwrites :
    ¬Composes true {} {buf := [segment 10 2]} {buf := [segment 0 1]} {buf := [segment 1 1]} memorySys := by
  have run1 : fuseBufCopy true {} false {buf := [segment 10 2]} {buf := [segment 0 1]} memorySys =
      some (.ok 1,{buf := [segment 10 2]},{idx := 1,off := 1,buf := [segment 0 1]},
        memorySys.transfer [.mem 0] [.mem 10]) := by
    rw [fuseBufCopy,copyLoop]
    rfl
  have run2 : fuseBufCopy true {} false {buf := [segment 10 2]} {buf := [segment 1 1]}
    (memorySys.transfer [.mem 0] [.mem 10]) =
      some (.ok 1,{buf := [segment 10 2]},{idx := 1,off := 1,buf := [segment 1 1]},
        (memorySys.transfer [.mem 0] [.mem 10]).transfer [.mem 1] [.mem 10]) := by
    rw [fuseBufCopy,copyLoop]
    rfl
  have both : fuseBufCopy true {} false {buf := [segment 10 2]}
    (concat {buf := [segment 0 1]} {buf := [segment 1 1]}) memorySys =
      some (.ok 2,{off := 1,buf := [segment 10 2]},{idx := 2,off := 1,buf := [segment 0 1,segment 1 1]},
        (memorySys.transfer [.mem 0] [.mem 10]).transfer [.mem 1] [.mem 11]) := by
    rw [fuseBufCopy,copyLoop]
    show copyLoop true {} {off := 1,buf := [segment 10 2]} {idx := 1,buf := [segment 0 1,segment 1 1]} 1
      (memorySys.transfer [.mem 0] [.mem 10]) = _
    rw [copyLoop]
    rfl
  rintro ⟨n1,dst1,src1,s1,n2,dst2,src2,s2,n,dst,src,s,first,second,all,world,-⟩
  rw [run1] at first
  cases first
  rw [run2] at second
  cases second
  rw [both] at all
  cases all
  have byte := congrArg (fun w => w.mem 10) world
  exact absurd byte (by decide)

end FuseStudy.BufCopy
