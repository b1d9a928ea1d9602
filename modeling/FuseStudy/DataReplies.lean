import FuseStudy.BufAnswers
import FuseStudy.BufLaws
import FuseStudy.BufLosses
import FuseStudy.DataReply
import Mathlib.Algebra.Order.BigOperators.Group.List
import Mathlib.Algebra.Order.Ring.Nat

/-! When fuse_reply_data answers its request. -/
namespace FuseStudy.DataReply
open BufCopy
open LlRequest (outError eio enomem eagain)

structure Same (w w' : World) : Prop where
  mem : w'.mem = w.mem
  file : w'.file = w.file
  input : w'.input = w.input
  taken : w'.taken = w.taken

theorem Same.refl (w : World) : Same w w := ⟨rfl,rfl,rfl,rfl⟩

theorem Same.takes {w w' : World} (same : Same w w') (cells : List Cell) :
    (w'.takes cells).1 = (w.takes cells).1 ∧ Same (w.takes cells).2 (w'.takes cells).2 := by
  induction cells generalizing w w' with
  | nil => exact ⟨rfl,same⟩
  | cons c cells ih =>
    have first : (w'.take c).1 = (w.take c).1 ∧ Same (w.take c).2 (w'.take c).2 := by
      cases c with
      | mem a => exact ⟨congrFun same.mem a,same⟩
      | file fd p => exact ⟨congrFun (congrFun same.file fd) p,same⟩
      | stream fd =>
        refine ⟨?_,same.mem,same.file,same.input,?_⟩
        · simp only [World.take,same.input,same.taken]
        · simp only [World.take,same.taken]
    obtain ⟨bytes,rest⟩ := ih first.2
    exact ⟨congrArg₂ List.cons first.1 bytes,rest⟩

theorem takesMemory {w w' : World} {cells : List Cell} (memory : ∀ c ∈ cells, c.isMem = true) (same : w'.mem = w.mem) :
    (w'.takes cells).1 = (w.takes cells).1 := by
  have alone (u : World) : Same u {u with mem := u.mem} := ⟨rfl,rfl,rfl,rfl⟩
  induction cells generalizing w w' with
  | nil => rfl
  | cons c cells ih =>
    have first : c.isMem = true := memory c List.mem_cons_self
    cases c with
    | mem a =>
      exact congrArg₂ List.cons (congrFun same a) (ih (fun c inside => memory c (List.mem_cons_of_mem _ inside)) same)
    | _ => cases first

theorem pipeCells (llp : Llp) (len off n : Nat) :
    (pipeBuf llp len).cells off n = List.replicate n (.stream llp.fd) := by
  induction n generalizing off with
  | zero => rfl
  | succ n ih =>
    rw [Buf.cells,ih,List.replicate_succ]
    rfl

theorem pipeRest (llp : Llp) (len : Nat) :
    Bufvec.rest {buf := [pipeBuf llp len]} = List.replicate len (.stream llp.fd) := by
  show (pipeBuf llp len).cells 0 len ++ [] = _
  rw [pipeCells,List.append_nil]

theorem pipePuts (w : World) (fd : Nat) (bytes : List UInt8) :
    Same w (w.puts (List.replicate bytes.length (.stream fd)) bytes) ∧
      (w.puts (List.replicate bytes.length (.stream fd)) bytes).sent fd = w.sent fd ++ bytes := by
  induction bytes generalizing w with
  | nil => exact ⟨Same.refl w,(List.append_nil _).symm⟩
  | cons byte bytes ih =>
    obtain ⟨same,sent⟩ := ih (w.put byte (.stream fd))
    refine ⟨⟨same.mem,same.file,same.input,same.taken⟩,?_⟩
    rw [List.length_cons,List.replicate_succ,World.puts,sent]
    simp [World.put]

theorem memoryRest (mbuf len off : Nat) :
    Bufvec.rest {off := off,buf := [memory mbuf len]} = (memory mbuf len).cells off (len - off) :=
  List.append_nil _

theorem memoryCell (mbuf len i : Nat) : (memory mbuf len).cell i = .mem (mbuf + i) := rfl

theorem memoryCells (mbuf len off n : Nat) :
    ∀ c ∈ (memory mbuf len).cells off n, ∃ i, off ≤ i ∧ i < off + n ∧ c = .mem (mbuf + i) := by
  induction n generalizing off with
  | zero =>
    intro c inside
    cases inside
  | succ n ih =>
    intro c inside
    obtain rfl | later := List.mem_cons.mp inside
    · exact ⟨off,Nat.le_refl _,by omega,memoryCell mbuf len off⟩
    · obtain ⟨i,least,most,same⟩ := ih (off + 1) c later
      exact ⟨i,by omega,by omega,same⟩

theorem memoryOnce (mbuf len off n : Nat) : ((memory mbuf len).cells off n).Nodup := by
  induction n generalizing off with
  | zero => exact List.nodup_nil
  | succ n ih =>
    refine List.nodup_cons.mpr ⟨fun inside => ?_,ih (off + 1)⟩
    obtain ⟨i,least,-,same⟩ := memoryCells mbuf len (off + 1) n _ inside
    have equal : mbuf + off = mbuf + i := Cell.mem.inj same
    omega

theorem memoryMem (mbuf len off n : Nat) : ∀ c ∈ (memory mbuf len).cells off n, c.isMem = true := cellsMem rfl off n

theorem intCount {n : Nat} (fits : n < 2 ^ 31) : int (.ok n) = n := by
  show Int.bmod n 4294967296 = n
  exact Int.bmod_eq_of_le_mul_two (by omega) (by omega)

theorem intErrno {e : Nat} (fits : e < 2 ^ 31) : int (.error e) = -e := by
  show Int.bmod (-e) 4294967296 = -e
  exact Int.bmod_eq_of_le_mul_two (by omega) (by omega)

def Errnos (s : Sys) : Prop := ∀ i e, s.answers i = .fail e → 0 < e ∧ e < 2 ^ 31

theorem Errnos.later {s t : Sys} (errnos : Errnos s) (later : Later s t) : Errnos t := by
  obtain ⟨k,same⟩ := later
  intro i e failed
  exact errnos (i + k) e (by rw [← same,failed])

/- What a copy did, when none of what it took is lost. -/
structure CopyGave (dstv srcv : Bufvec) (s : Sys) (r : SSize) (u : Bufvec) (t : Sys) (n : Nat) : Prop where
  gave : Gave r n
  source : n ≤ srcv.rest.length
  dest : n ≤ dstv.rest.length
  rest : u.rest = srcv.rest.drop n
  buf : u.buf = srcv.buf
  sound : u.Sound
  world : t.world = s.world.transfer (srcv.rest.take n) (dstv.rest.take n)
  honest : Honest s r t
  ends : dstv.InMemory → EndsAt dstv srcv u

theorem copyGives {dstv srcv : Bufvec} (haveSplice : Bool) (flags : CopyFlags) (s : Sys) (sound' : dstv.Sound)
    (sound : srcv.Sound) (fits : min srcv.rest.length dstv.rest.length < 2 ^ 63) (apart : Apart srcv.rest dstv.rest)
    (held : ¬Bounced haveSplice flags srcv.rest dstv.rest) :
    ∃ r d u t n, fuseBufCopy haveSplice flags false dstv srcv s = some (r,d,u,t) ∧ CopyGave dstv srcv s r u t n := by
  obtain ⟨r,d,u,t,n,m,lost,run,runs,-⟩ := copyLoopRuns haveSplice flags dstv srcv 0 s sound' sound fits apart
  obtain ⟨r',d',u',t',run',honest,soundU,ends⟩ :=
    copyLoopAnswers haveSplice flags dstv srcv 0 s sound' sound (by omega) apart
  cases run.symm.trans run'
  have none : lost = 0 := Nat.eq_zero_of_not_pos fun some => held (runs.bounced some)
  subst none
  have copy := runs.copy apart
  exact ⟨r,d,u,t,n,run,(runs.result (by omega)).gave,copy.source,copy.dest,runs.source,runs.sourceBuf,soundU,copy.world,
    honest,ends⟩

/- The sources gave no more at byte n. Either the last that was done with them was to copy all that
was left into memory with room for it, or the first transfer into the pipe found the end; and that
byte is one of a descriptor. -/
inductive Dry (h : Host) (cells : List Cell) (s t : Sys) : Nat → Prop
  | read {u u' : Sys} {d d' srcv srcv' : Bufvec} {r : SSize} {m n : Nat} (later : Later s u) (memory : d.InMemory)
    (rest : srcv.rest = cells.drop m) (room : srcv.rest.length ≤ d.rest.length)
    (copy : fuseBufCopy h.splice {} false d srcv u = some (r,d',srcv',u')) (ended : srcv'.rest = cells.drop n)
    (last : t.answers = u'.answers) (descriptor : ∀ c, (cells.drop n).head? = some c → c.isMem = false) :
    Dry h cells s t n
  | splice {u u' : Sys} {d d' srcv srcv' : Bufvec} (later : Later s u) (rest : srcv.rest = cells) (room : d.rest ≠ [])
    (copy : fuseBufCopy h.splice {forceSplice := true} false d srcv u = some (.ok 0,d',srcv',u'))
    (last : t.answers = u'.answers) (descriptor : ∀ c, (cells.drop 0).head? = some c → c.isMem = false) :
    Dry h cells s t 0

/- `n` is what the sources could supply: all of it or up to where they ran dry, and no more was taken. -/
structure Supplied (h : Host) (cells : List Cell) (s t : Sys) (n : Nat) : Prop where
  most : n ≤ cells.length
  dry : n = cells.length ∨ Dry h cells s t n
  taken : t.world.taken = (s.world.takes (cells.take n)).2.taken

def reply (out : OutHeader) (cells : List Cell) (s : Sys) (answer : Answer) (n : Nat) : Attempt :=
  {header := {out with len := headerLen + n},data := (s.world.takes (cells.take n)).1,
    took := answered answer (headerLen + n)}

/- What fuse_send_data_iov does where it does no wrong: it asks for an error reply, or it has tried to
send the message, which is whole if the device has taken it. -/
inductive Outcome (h : Host) (cells : List Cell) (s : Sys) (out : OutHeader) (answer : Answer) (sent : Sent) : Prop
  | refused (positive : 0 < sent.res) (silent : sent.tries = [])
  | tried {n : Nat} (nonpos : sent.res ≤ 0) (one : sent.tries = [reply out cells s answer n]) (most : n ≤ cells.length)
    (supplied : answered answer (headerLen + n) = .ok (headerLen + n) → Supplied h cells s sent.session.sys n)

theorem bufSizeSum {v : Bufvec} (small : fuseBufSize v < sizeMax) : fuseBufSize v = (v.buf.map Buf.size).sum := by
  have sums (size : Nat) (buf : List Buf) (small : fuseBufSize.go size buf < sizeMax) :
      fuseBufSize.go size buf = size + (buf.map Buf.size).sum := by
    induction buf generalizing size with
    | nil => rfl
    | cons b later ih =>
      rw [fuseBufSize.go] at small ⊢
      split
      · rename_i full
        rw [if_pos full] at small
        exact absurd small (Nat.lt_irrefl _)
      · rename_i under
        rw [if_neg under] at small
        rw [ih _ small,List.map_cons,List.sum_cons,Nat.add_assoc]
  rw [fuseBufSize,sums 0 v.buf small,Nat.zero_add]

theorem behindLength (v : Bufvec) : v.behind.length = ((v.buf.drop (v.idx + 1)).map Buf.size).sum := by
  rw [Bufvec.behind,List.length_flatMap]
  exact congrArg List.sum (List.map_congr_left fun b _ => cellsLength b 0 b.size)

theorem restSize {v : Bufvec} (small : fuseBufSize v < sizeMax) : v.rest.length ≤ fuseBufSize v := by
  rw [bufSizeSum small]
  cases current : v.current with
  | none =>
    rw [restNone current]
    exact Nat.zero_le _
  | some b =>
    obtain ⟨inside,found⟩ := List.getElem?_eq_some_iff.mp current
    rw [restSome current,List.length_append,cellsLength,behindLength]
    have split : (v.buf.map Buf.size).sum = ((v.buf.take v.idx).map Buf.size).sum +
        (b.size + ((v.buf.drop (v.idx + 1)).map Buf.size).sum) := by
      conv_lhs => rw [← List.take_append_drop v.idx v.buf,List.drop_eq_getElem_cons inside,found]
      rw [List.map_append,List.sum_append,List.map_cons,List.sum_cons]
    omega

def Fresh (c : Calls) (v : Bufvec) : Prop :=
  ∀ mbuf, c.memalign = .ok mbuf → ∀ i < fuseBufSize v, Cell.mem (mbuf + i) ∉ v.rest

theorem memoryHeld {haveSplice : Bool} {flags : CopyFlags} {src dst : List Cell} (mem : ∀ c ∈ dst, c.isMem = true) :
    ¬Bounced haveSplice flags src dst := by
  rintro ⟨-,p,inside,-,other⟩
  rw [mem p.2 (List.of_mem_zip inside).2] at other
  cases other

theorem memorySound (mbuf len off : Nat) (less : off ≤ len) : Bufvec.Sound {off := off,buf := [memory mbuf len]} := by
  intro b found
  cases found
  exact less

theorem memoryInMemory (mbuf len off : Nat) : Bufvec.InMemory {off := off,buf := [memory mbuf len]} := by
  intro b inside
  rw [List.mem_singleton.mp inside]
  rfl

theorem memoryTransfer (w : World) (src : List Cell) (mbuf len off : Nat) :
    ((w.transfer src ((memory mbuf len).cells off src.length)).takes ((memory mbuf len).cells off src.length)).1 =
      (w.takes src).1 := by
  refine putsTaken (memoryMem mbuf len off _) (memoryOnce mbuf len off _) ?_
  rw [cellsLength,takesLength]

theorem readSupplies {h : Host} (cells : List Cell) {s u u' t : Sys} {d d' srcv srcv' : Bufvec} {r : SSize} {m k : Nat}
    (later : Later s u) (memory : d.InMemory) (rest : srcv.rest = cells.drop m) (front : m ≤ cells.length)
    (room : srcv.rest.length ≤ d.rest.length) (copy : fuseBufCopy h.splice {} false d srcv u = some (r,d',srcv',u'))
    (gave : CopyGave d srcv u r srcv' u' k) (last : t.answers = u'.answers) :
    m + k ≤ cells.length ∧ (m + k = cells.length ∨ Dry h cells s t (m + k)) := by
  have most := gave.source
  have behind : srcv'.rest = cells.drop (m + k) := by rw [gave.rest,rest,List.drop_drop]
  have length : srcv.rest.length = cells.length - m := by rw [rest,List.length_drop]
  have length' : srcv'.rest.length = cells.length - (m + k) := by rw [behind,List.length_drop]
  refine ⟨by omega,?_⟩
  obtain full | descriptor := gave.ends memory
  · exact .inl (by omega)
  · exact .inr (.read later memory rest room copy behind last (by rw [← behind]; exact descriptor))

theorem sendTries (cells : List Cell) {n : Nat} (s : Session) (u : Sys) (c : Calls) (out : OutHeader)
    (data : List UInt8) (bytes : data = (u.world.takes (cells.take n)).1) (most : n ≤ cells.length)
    (fits : headerLen + n < 2 ^ 32) :
    (s.send c out data).res ≤ 0 ∧ (s.send c out data).tries = [reply out cells u (c.device 0) n] := by
  have length : data.length = n := by rw [bytes,takesLength,List.length_take,Nat.min_eq_left most]
  have small : (headerLen + n) % 2 ^ 32 = headerLen + n := Nat.mod_eq_of_lt fits
  constructor
  · simp only [Session.send,fuseSendMsg]
    split <;> omega
  · simp only [Session.send,fuseSendMsg,length,small,reply,← bytes]

theorem commonRest {v : Bufvec} {b : Buf} (common : commonCase v = some b) :
    v.rest = b.cells 0 b.size ∧ b.isFd = false ∧
    v.buf = [b] := by
  unfold commonCase at common
  split at common
  · rename_i b' single
    split at common
    · rename_i start
      cases common
      have current : v.current = some b := by rw [Bufvec.current,start.1,single]; rfl
      refine ⟨?_,start.2.2,single⟩
      rw [restSome current,Bufvec.behind,start.1,start.2.1,single]
      exact List.append_nil _
    · cases common
  · cases common

def Idle (s : Session) : Prop := ∀ llp, s.pipe = some llp → s.sys.world.sent llp.fd = []

theorem idleCleared (s : Session) : Idle (fuseLlClearPipe s) := by
  intro llp pipe
  cases pipe

theorem takesSent (w : World) (cells : List Cell) : (w.takes cells).2.sent = w.sent := by
  induction cells generalizing w with
  | nil => rfl
  | cons c cells ih =>
    rw [World.takes,ih]
    cases c <;> rfl

theorem memorySent (w : World) (src : List Cell) (mbuf len off n : Nat) :
    (w.transfer src ((memory mbuf len).cells off n)).sent = w.sent := by
  rw [World.transfer,putsOnlyMem (memoryMem mbuf len off n)]
  exact takesSent w src

/- The fallback's count is too much for an int, or what it sends as it stands for the header. -/
def FallbackCuts (h : Host) (c : Calls) (v : Bufvec) (s : Sys) : Prop :=
  (∃ b, commonCase v = some b) ∧ 2 ^ 32 ≤ headerLen + fuseBufSize v ∨
    ∃ mbuf n d u t, commonCase v = none ∧ c.memalign = .ok mbuf ∧
      fuseBufCopy h.splice {} false {buf := [memory mbuf (fuseBufSize v)]} v s = some (.ok n,d,u,t) ∧ 2 ^ 31 ≤ n

theorem fallbackSends (h : Host) (c : Calls) (out : OutHeader) {v : Bufvec} {s : Session} (sound : v.Sound)
    (small : fuseBufSize v < 2 ^ 63) (fresh : Fresh c v) (errnos : Errnos s.sys)
    (alloc : ∀ e, c.memalign = .error e → 0 < e) (idle : Idle s) (uncut : ¬FallbackCuts h c v s.sys) :
    ∃ sent, fuseSendDataIovFallback h c out v (fuseBufSize v) s = some sent ∧
      Outcome h v.rest s.sys out (c.device 0) sent ∧ Idle sent.session := by
  have size : v.rest.length ≤ fuseBufSize v := restSize (Nat.lt_trans small (by decide))
  unfold fuseSendDataIovFallback
  cases common : commonCase v with
  | some b =>
    obtain ⟨rest,mem,single⟩ := commonRest common
    have whole : fuseBufSize v = b.size := by
      rw [bufSizeSum (Nat.lt_trans small (by decide)),single]
      exact Nat.add_zero _
    have length : v.rest.length = b.size := by rw [rest,cellsLength]
    have all : v.rest.take v.rest.length = v.rest := List.take_length
    have still : (s.sys.world.takes v.rest).2 = s.sys.world := takesStill fun c inside => by
      rw [rest] at inside
      exact memStill (cellsMem mem _ _ c inside)
    obtain ⟨nonpos,one⟩ := sendTries v.rest (n := v.rest.length) s s.sys c out (s.bytes b (fuseBufSize v))
      (by rw [all,rest,whole]; rfl) (Nat.le_refl _) (by
        rw [length,← whole]
        exact Nat.not_le.mp fun long => uncut (.inl ⟨⟨b,common⟩,long⟩))
    exact ⟨_,rfl,.tried nonpos one (Nat.le_refl _) fun _ => ⟨Nat.le_refl _,.inl rfl,by rw [all,still]; rfl⟩,idle⟩
  | none =>
    cases given : c.memalign with
    | error e => exact ⟨_,rfl,.refused (Int.natCast_pos.mpr (alloc e given)) rfl,idle⟩
    | ok mbuf =>
      have target :
          Bufvec.rest {buf := [memory mbuf (fuseBufSize v)]} = (memory mbuf (fuseBufSize v)).cells 0 (fuseBufSize v) :=
        memoryRest mbuf _ 0
      have mem : ∀ c ∈ Bufvec.rest {buf := [memory mbuf (fuseBufSize v)]}, c.isMem = true := by
        rw [target]
        exact memoryMem mbuf _ 0 _
      have away : Apart v.rest (Bufvec.rest {buf := [memory mbuf (fuseBufSize v)]}) := memApart fun c inside put => by
        rw [target] at put
        obtain ⟨i,-,less,rfl⟩ := memoryCells mbuf _ 0 _ c put
        exact fresh mbuf given i (by omega) inside
      have room : v.rest.length ≤ (Bufvec.rest {buf := [memory mbuf (fuseBufSize v)]}).length := by
        rw [target,cellsLength]
        exact size
      obtain ⟨r,d,u,t,n,copy,gave⟩ :=
        copyGives h.splice {} s.sys (memorySound mbuf _ 0 (Nat.zero_le _)) sound (by omega) away
        (memoryHeld mem)
      dsimp only
      rw [copy]
      dsimp only
      have most := gave.source
      have idle' : Idle {s with sys := t} := by
        intro llp pipe
        show t.world.sent llp.fd = []
        rw [gave.world,target,cellsTake _ _ (by omega),memorySent]
        exact idle llp pipe
      obtain rfl | ⟨rfl,e,rfl⟩ := gave.gave
      · have counted : n < 2 ^ 31 := Nat.not_le.mp fun long => uncut (.inr ⟨mbuf,n,d,u,t,common,given,copy,long⟩)
        have count : int (.ok n) = n := intCount counted
        rw [if_neg (by omega)]
        have cells : (memory mbuf (fuseBufSize v)).cells 0 n =
            (memory mbuf (fuseBufSize v)).cells 0 (v.rest.take n).length := by
            rw [List.length_take,Nat.min_eq_left most]
        have world : t.world = s.sys.world.transfer (v.rest.take n)
            ((memory mbuf (fuseBufSize v)).cells 0 (v.rest.take n).length) := by
          rw [gave.world,target,cellsTake _ _ (by omega),cells]
        have bytes : Session.bytes {s with sys := t}
            (memory mbuf (fuseBufSize v)) n = (s.sys.world.takes (v.rest.take n)).1 := by
          show (t.world.takes ((memory mbuf (fuseBufSize v)).cells 0 n)).1 = _
          rw [world,cells]
          exact memoryTransfer _ _ mbuf _ 0
        have supplied := readSupplies (h := h) v.rest (m := 0) (t := t) (.refl s.sys) (memoryInMemory mbuf _ 0) rfl
          (Nat.zero_le _) room copy gave rfl
        rw [Nat.zero_add] at supplied
        have number : (int (.ok n)).toNat = n := by rw [count]; rfl
        rw [number]
        obtain ⟨nonpos,one⟩ := sendTries v.rest {s with sys := t} s.sys c out _ bytes most (by rw [headerLen]; omega)
        refine ⟨_,rfl,.tried nonpos one most fun _ => ⟨supplied.1,supplied.2,?_⟩,idle'⟩
        show t.world.taken = _
        rw [world,World.transfer,putsUntaken]
      · obtain ⟨i,failed⟩ := gave.honest.errno e rfl
        obtain ⟨positive,fits⟩ := errnos i e failed
        have negative : int (.error e) = -e := intErrno fits
        rw [negative,if_pos (by omega)]
        exact ⟨_,rfl,.refused (by show (0 : Int) < - -e; omega) rfl,idle'⟩

structure Kept (s t : Sys) : Prop where
  same : Same s.world t.world
  answers : t.answers = s.answers

theorem Kept.refl (s : Sys) : Kept s s := ⟨Same.refl _,rfl⟩

theorem Kept.later {s t : Sys} (kept : Kept s t) : Later s t := (Later.refl s).same kept.answers

theorem Dry.before {h : Host} {cells : List Cell} {s u t : Sys} {n : Nat} (first : Later s u)
    (dry : Dry h cells u t n) :
    Dry h cells s t n := by
  cases dry with
  | read later memory rest room copy ended last descriptor =>
    exact .read (first.trans later) memory rest room copy ended last descriptor
  | splice later rest room copy last descriptor => exact .splice (first.trans later) rest room copy last descriptor

theorem Outcome.before {h : Host} {cells : List Cell} {s u : Sys} {out : OutHeader} {answer : Answer} {sent : Sent}
    (first : Later s u) (same : Same s.world u.world) (outcome : Outcome h cells u out answer sent) :
    Outcome h cells s out answer sent := by
  cases outcome with
  | refused positive silent => exact .refused positive silent
  | @tried n nonpos one most supplied =>
    obtain ⟨bytes,after⟩ := same.takes (cells.take n)
    refine .tried (n := n) nonpos ?_ most fun whole => ?_
    · rw [one,reply,reply,bytes]
    · obtain ⟨most,dry,taken⟩ := supplied whole
      exact ⟨most,dry.imp id (Dry.before first),by rw [taken,after.taken]⟩

theorem getPipeReady {h : Host} {c : Calls} {s t : Session} {llp : Llp} (got : fuseLlGetPipe h c s = some (llp,t)) :
    Kept s.sys t.sys ∧ (Idle s → t.sys.world.sent llp.fd = []) := by
  unfold fuseLlGetPipe at got
  cases pipe : s.pipe with
  | some llp' =>
    simp only [pipe] at got
    cases got
    exact ⟨Kept.refl _,fun idle => idle llp pipe⟩
  | none =>
    simp only [pipe] at got
    cases new : c.newPipe with
    | none =>
      simp only [new] at got
      cases got
    | some fd =>
      simp only [new] at got
      cases got
      exact ⟨⟨⟨rfl,rfl,rfl,rfl⟩,rfl⟩,fun _ => if_pos rfl⟩

theorem growPipeSame (c : Calls) (llp : Llp) (pipesize : Nat) : (growPipe c llp pipesize).2.fd = llp.fd := by
  unfold growPipe
  split
  · split
    · split <;> rfl
    · rfl
  · rfl

theorem pipeForReady (h : Host) (c : Calls) (flags : CopyFlags) (v : Bufvec) {s : Session} (idle : Idle s) :
    (∃ t, pipeFor h c flags v s = .error t ∧ Kept s.sys t.sys ∧ Idle t) ∨
    ∃ llp t, pipeFor h c flags v s = .ok (llp,t) ∧ Kept s.sys t.sys ∧ Idle t ∧ h.splice = true ∧ t.pipe = some llp := by
  unfold pipeFor
  split
  · rename_i may
    have splice : h.splice = true := by
      simp only [maySplice,Bool.and_eq_true] at may
      exact may.1.1.1.1.1.1
    cases got : fuseLlGetPipe h c s with
    | none => exact .inl ⟨s,rfl,Kept.refl _,idle⟩
    | some both =>
      obtain ⟨llp,t⟩ := both
      obtain ⟨kept,empty⟩ := getPipeReady got
      dsimp only
      have same := growPipeSame c llp (h.pagesize * (1 + v.buf.length + 1) + (headerLen + fuseBufSize v) % 2 ^ 32)
      have idle' : Idle {t with pipe := some (growPipe c llp (h.pagesize * (1 + v.buf.length + 1) +
          (headerLen + fuseBufSize v) % 2 ^ 32)).2} := by
        intro llp' found
        cases found
        rw [same]
        exact empty idle
      split
      · exact .inr ⟨_,_,rfl,kept,idle',splice,rfl⟩
      · exact .inl ⟨_,rfl,kept,idle'⟩
  · exact .inl ⟨s,rfl,Kept.refl _,idle⟩

theorem pipeTransfer (w : World) (src : List Cell) (fd : Nat) :
    Same (w.takes src).2 (w.transfer src (List.replicate src.length (.stream fd))) ∧
      (w.transfer src (List.replicate src.length (.stream fd))).sent fd = w.sent fd ++ (w.takes src).1 := by
  obtain ⟨same,sent⟩ := pipePuts (w.takes src).2 fd (w.takes src).1
  rw [takesLength] at same sent
  rw [takesSent] at sent
  exact ⟨same,sent⟩

theorem spliceOutTries (c : Calls) (out : OutHeader) (llp : Llp) {cells : List Cell} {n : Nat} {s : Session}
    {u : Sys} (pipe : s.pipe = some llp) (holds : s.sys.world.sent llp.fd = (u.world.takes (cells.take n)).1)
    (most : n ≤ cells.length) (fits : n < 2 ^ 31) :
    (spliceOut c out llp n s).res ≤ 0 ∧ (spliceOut c out llp n s).tries = [reply out cells u (c.device 0) n] ∧
      Kept s.sys (spliceOut c out llp n s).session.sys ∧ Idle (spliceOut c out llp n s).session := by
  have small : (headerLen + n) % 2 ^ 32 = headerLen + n := Nat.mod_eq_of_lt (by rw [headerLen]; omega)
  have length : (s.sys.world.sent llp.fd).length = n := by rw [holds,takesLength,List.length_take,Nat.min_eq_left most]
  have all : (s.sys.world.sent llp.fd).take (headerLen + n - headerLen) = (u.world.takes (cells.take n)).1 := by
    rw [Nat.add_sub_cancel_left,List.take_of_length_le (Nat.le_of_eq length),holds]
  have kept : Kept s.sys (fuseLlClearPipe s).sys := Kept.refl _
  unfold spliceOut
  dsimp only
  rw [small,all]
  split
  · exact ⟨by dsimp only; omega,by rw [reply],kept,idleCleared s⟩
  · split
    · exact ⟨show -eio ≤ 0 by decide,by rw [reply],kept,idleCleared s⟩
    · refine ⟨Int.le_refl 0,by rw [reply],⟨⟨rfl,rfl,rfl,rfl⟩,rfl⟩,fun llp' found => ?_⟩
      cases pipe.symm.trans found
      rw [Nat.add_sub_cancel_left,List.drop_eq_nil_of_le (Nat.le_of_eq length)]
      exact if_pos rfl

structure Filled (v : Bufvec) (llp : Llp) (s : Sys) (r : SSize) (u : Bufvec) (t : Sys) (n : Nat) : Prop where
  gave : Gave r n
  most : n ≤ v.rest.length
  rest : u.rest = v.rest.drop n
  buf : u.buf = v.buf
  sound : u.Sound
  honest : Honest s r t
  same : Same (s.world.takes (v.rest.take n)).2 t.world
  holds : t.world.sent llp.fd = (s.world.takes (v.rest.take n)).1

theorem pipeFills {h : Host} (splice : h.splice = true) {v : Bufvec} (llp : Llp) {s : Sys} (sound : v.Sound)
    (small : fuseBufSize v < 2 ^ 63) (empty : s.world.sent llp.fd = []) :
    ∃ r d u t n, fuseBufCopy h.splice {forceSplice := true} false {buf := [pipeBuf llp (fuseBufSize v)]} v s =
      some (r,d,u,t) ∧ Filled v llp s r u t n := by
  have size : v.rest.length ≤ fuseBufSize v := restSize (Nat.lt_trans small (by decide))
  have target := pipeRest llp (fuseBufSize v)
  have sound' : Bufvec.Sound {buf := [pipeBuf llp (fuseBufSize v)]} := by
    intro b found
    cases found
    exact Nat.zero_le _
  have apart : Apart v.rest (Bufvec.rest {buf := [pipeBuf llp (fuseBufSize v)]}) := by
    rw [target]
    intro c _ d put same
    rw [same,(List.mem_replicate.mp put).2]
    rfl
  have held : ¬Bounced h.splice {forceSplice := true} v.rest (Bufvec.rest {buf := [pipeBuf llp (fuseBufSize v)]}) := by
    rintro ⟨free,-⟩
    rw [splice] at free
    cases free
  obtain ⟨r,d,u,t,n,copy,gave⟩ := copyGives h.splice {forceSplice := true} s sound' sound (by omega) apart held
  have most := gave.source
  have length : (v.rest.take n).length = n := by rw [List.length_take,Nat.min_eq_left most]
  have world : t.world = s.world.transfer (v.rest.take n) (List.replicate (v.rest.take n).length (.stream llp.fd)) := by
    rw [gave.world,target,List.take_replicate,length,Nat.min_eq_left (by omega)]
  obtain ⟨same,sent⟩ := pipeTransfer s.world (v.rest.take n) llp.fd
  rw [← world] at same sent
  rw [empty,List.nil_append] at sent
  exact ⟨r,d,u,t,n,copy,gave.gave,most,gave.rest,gave.buf,gave.sound,gave.honest,same,sent⟩

theorem readBackWhole {a : Answer} {len : Nat} : readBack a len = 0 ↔ answered a len = .ok len := by
  unfold readBack
  cases answered a len with
  | error errno => exact iff_of_false (show ¬-eio = 0 by decide) (by intro same; cases same)
  | ok res =>
    dsimp only
    split
    · rename_i short
      exact iff_of_false (show ¬-eio = 0 by decide) fun same => short (Except.ok.inj same)
    · rename_i whole
      exact iff_of_true rfl (congrArg _ (Decidable.not_not.mp whole))

theorem readBackOver (a : Answer) (len : Nat) : readBack a len ≤ 0 := by
  have negative : -eio ≤ 0 := by decide
  unfold readBack
  split
  · exact negative
  · split
    · exact negative
    · exact Int.le_refl 0

theorem piecesTaken (w : World) (mbuf len n : Nat) {front : List UInt8} (behind : List UInt8)
    (first : front.length = n) :
    (((w.puts ((memory mbuf len).cells n behind.length) behind).puts ((memory mbuf len).cells 0 n) front).takes
      ((memory mbuf len).cells 0 (n + behind.length))).1 = front ++ behind := by
  have apart : Apart ((memory mbuf len).cells n behind.length) ((memory mbuf len).cells 0 n) :=
      memApart fun c inside put => by
    obtain ⟨i,least,-,rfl⟩ := memoryCells mbuf len n _ c inside
    obtain ⟨j,-,less,same⟩ := memoryCells mbuf len 0 n _ put
    have equal : mbuf + i = mbuf + j := Cell.mem.inj same
    omega
  have still (u : World) : (u.takes ((memory mbuf len).cells 0 n)).2 = u :=
    takesStill fun c inside => memStill (memoryMem mbuf len 0 n c inside)
  rw [cellsAppend,takesAppend,still,Nat.zero_add,putsTakes _ _ apart,
    putsTaken (memoryMem mbuf len 0 n) (memoryOnce mbuf len 0 n) (by rw [cellsLength,first]),
    putsTaken (memoryMem mbuf len n _) (memoryOnce mbuf len n _) (cellsLength _ _ _)]

theorem putsMemory {w w' : World} {cells : List Cell} {bytes : List UInt8} (memory : ∀ c ∈ cells, c.isMem = true)
    (same : w'.mem = w.mem) : (w'.puts cells bytes).mem = (w.puts cells bytes).mem := by
  induction cells generalizing w w' bytes with
  | nil =>
    rw [putsNil,putsNil]
    exact same
  | cons c cells ih =>
    cases bytes with
    | nil => exact same
    | cons byte bytes =>
      refine ih (fun c inside => memory c (List.mem_cons_of_mem _ inside)) ?_
      have first : c.isMem = true := memory c List.mem_cons_self
      cases c with
      | mem a => exact congrArg (fun (m : Nat → UInt8) x => if x = a then byte else m x) same
      | _ => cases first

structure Joined (v : Bufvec) (llp : Llp) (s : Sys) (mbuf len n k : Nat) (t' : Sys)
    (front behind : List UInt8) : Prop where
  first : front.length = n
  second : behind.length = k
  bytes : (s.world.takes (v.rest.take (n + k))).1 = front ++ behind
  taken : t'.world.taken = (s.world.takes (v.rest.take (n + k))).2.taken
  holds : t'.world.sent llp.fd = front
  stands : ∃ w : World, t'.world = w.puts ((memory mbuf len).cells n k) behind

theorem secondJoins {v u u' : Bufvec} {llp : Llp} {s t t' : Sys} {r r' : SSize} {mbuf len n k : Nat}
    (filled : Filled v llp s r u t n) (gave : CopyGave {off := n,buf := [memory mbuf len]} u t r' u' t' k)
    (less : k ≤ len - n) : ∃ front behind, Joined v llp s mbuf len n k t' front behind := by
  obtain ⟨bytes,after⟩ := filled.same.takes (u.rest.take k)
  have both : s.world.takes (v.rest.take (n + k)) = ((s.world.takes (v.rest.take n)).1 ++
      (t.world.takes (u.rest.take k)).1,((s.world.takes (v.rest.take n)).2.takes (u.rest.take k)).2) := by
    rw [List.take_add,takesAppend,bytes,filled.rest]
  have target : (Bufvec.rest {off := n,buf := [memory mbuf len]}).take k = (memory mbuf len).cells n k := by
    rw [memoryRest,cellsTake _ _ less]
  have world : t'.world = (t.world.takes (u.rest.take k)).2.puts ((memory mbuf len).cells n k)
      (t.world.takes (u.rest.take k)).1 := by
    rw [gave.world,target]
    rfl
  refine ⟨(s.world.takes (v.rest.take n)).1,(t.world.takes (u.rest.take k)).1,?_,?_,?_,?_,?_,_,world⟩
  · rw [takesLength,List.length_take,Nat.min_eq_left filled.most]
  · rw [takesLength,List.length_take,Nat.min_eq_left gave.source]
  · rw [both]
  · rw [both,world,putsUntaken,after.taken]
  · rw [world,putsOnlyMem (memoryMem mbuf len n k)]
    show (t.world.takes (u.rest.take k)).2.sent llp.fd = _
    rw [takesSent,filled.holds]

/- The message stands in memory once the front has come back from the pipe. -/
theorem bytesJoined {v : Bufvec} {llp : Llp} {s t' : Sys} {mbuf len n k : Nat} {front behind : List UInt8}
    {w : World} (joined : Joined v llp s mbuf len n k t' front behind)
    (stands : t'.world = w.puts ((memory mbuf len).cells n k) behind) :
    (((pipeHolding t'.world llp.fd (front.drop n)).puts ((memory mbuf len).cells 0 n) front).takes
      ((memory mbuf len).cells 0 (n + k))).1 = (s.world.takes (v.rest.take (n + k))).1 := by
  have pieces := piecesTaken w mbuf len n behind joined.first
  rw [joined.second,← stands] at pieces
  rw [joined.bytes,← pieces]
  exact takesMemory (memoryMem mbuf len 0 (n + k)) (putsMemory (memoryMem mbuf len 0 n) rfl)

def ReadsWhole (c : Calls) (n : Nat) : Prop :=
  answered c.readHeader headerLen = .ok headerLen ∧ answered c.readData n = .ok n

def Silent (sent : Sent) : Prop := sent.res ≤ 0 ∧ sent.tries = []

theorem takeBackSends (c : Calls) (out : OutHeader) {v : Bufvec} {llp : Llp} {s : Sys} {mbuf len n k : Nat}
    {front behind : List UInt8} (q : Session) (pipe : q.pipe = some llp)
    (joined : Joined v llp s mbuf len n k q.sys front behind) (most : n + k ≤ v.rest.length)
    (fits : c.malloc = true → ReadsWhole c n → headerLen + (n + k) < 2 ^ 32) :
    Idle (takeBack c out llp mbuf len n k q).session ∧
    ((0 < (takeBack c out llp mbuf len n k q).res ∧ (takeBack c out llp mbuf len n k q).tries = [] ∧ c.malloc = false) ∨
    (Silent (takeBack c out llp mbuf len n k q) ∧ c.malloc = true ∧ ¬ReadsWhole c n) ∨
    ((takeBack c out llp mbuf len n k q).res ≤ 0 ∧
      (takeBack c out llp mbuf len n k q).tries = [reply out v.rest s (c.device 0) (n + k)] ∧
      (takeBack c out llp mbuf len n k q).session.sys.answers = q.sys.answers ∧
      (takeBack c out llp mbuf len n k q).session.sys.world.taken = q.sys.world.taken ∧ ReadsWhole c n)) := by
  unfold takeBack
  split
  · rename_i full
    exact ⟨idleCleared q,.inl ⟨show 0 < enomem by decide,rfl,full⟩⟩
  · rename_i malloc
    have silent (e : Int) (nonpos : e ≤ 0) (lost : ¬ReadsWhole c n) :
        Silent {res := e,session := fuseLlClearPipe q} ∧ c.malloc = true ∧ ¬ReadsWhole c n :=
      ⟨⟨nonpos,rfl⟩,eq_true_of_ne_false malloc,lost⟩
    split
    · rename_i lost
      exact ⟨idleCleared q,.inr (.inl (silent _ (readBackOver _ _) fun both => lost (readBackWhole.mpr both.1)))⟩
    · rename_i header
      split
      · rename_i lost
        exact ⟨idleCleared q,.inr (.inl (silent _ (readBackOver _ _) fun both => lost (readBackWhole.mpr both.2)))⟩
      · rename_i data
        obtain ⟨w,stands⟩ := joined.stands
        have whole : front.take n = front := List.take_of_length_le (Nat.le_of_eq joined.first)
        dsimp only
        rw [joined.holds,whole]
        have reads : ReadsWhole c n :=
          ⟨readBackWhole.mp (Decidable.not_not.mp header),readBackWhole.mp (Decidable.not_not.mp data)⟩
        obtain ⟨nonpos,one⟩ := sendTries v.rest _ s c out _ (bytesJoined joined stands) most
          (fits (eq_true_of_ne_false malloc) reads)
        refine ⟨fun llp' found => ?_,.inr (.inr ⟨nonpos,one,rfl,putsUntaken _ _ _,reads⟩)⟩
        cases pipe.symm.trans found
        show ((pipeHolding q.sys.world llp.fd (front.drop n)).puts _ front).sent llp.fd = []
        rw [putsOnlyMem (memoryMem mbuf len 0 n),List.drop_eq_nil_of_le (Nat.le_of_eq joined.first)]
        exact if_pos rfl

def LostInPipe (h : Host) (c : Calls) (u : Bufvec) (len n : Nat) (t : Sys) : Prop :=
  ∃ mbuf k d u' t', c.memalign = .ok mbuf ∧
    fuseBufCopy h.splice {} false {off := n,buf := [memory mbuf len]} u t = some (.ok k,d,u',t') ∧ 0 < k ∧
      c.malloc = true ∧
    ¬ReadsWhole c n

/- What comes behind the pipe's bytes is too much for an int, or the two together for the header. -/
def RestCuts (h : Host) (c : Calls) (u : Bufvec) (len n : Nat) (t : Sys) : Prop :=
  ∃ mbuf k d u' t', c.memalign = .ok mbuf ∧
    fuseBufCopy h.splice {} false {off := n,buf := [memory mbuf len]} u t = some (.ok k,d,u',t') ∧
    (2 ^ 31 ≤ k ∨ 2 ^ 32 ≤ headerLen + (n + k) ∧ c.malloc = true ∧ ReadsWhole c n)

theorem copyRestSends (h : Host) (c : Calls) (out : OutHeader) {v u : Bufvec} {s : Session} {t : Sys}
    {llp : Llp} {r : SSize} {n : Nat} (filled : Filled v llp s.sys r u t n) (some : 0 < n)
    (counted : n < 2 ^ 31) (uncut : ¬RestCuts h c u (fuseBufSize v) n t) (small : fuseBufSize v < 2 ^ 63)
    (fresh : Fresh c v) (alloc : ∀ e, c.memalign = .error e → 0 < e) (errnos : Errnos s.sys) (q : Session)
    (sys : q.sys = t) (pipe : q.pipe = .some llp) :
    ∃ sent, copyRest h c out u llp (fuseBufSize v) n q = .some sent ∧ Idle sent.session ∧
      (Outcome h v.rest s.sys out (c.device 0) sent ∧ ¬LostInPipe h c u (fuseBufSize v) n t ∨
        Silent sent ∧ LostInPipe h c u (fuseBufSize v) n t) := by
  have size : v.rest.length ≤ fuseBufSize v := restSize (Nat.lt_trans small (by decide))
  have most := filled.most
  have left : u.rest.length = v.rest.length - n := by rw [filled.rest,List.length_drop]
  unfold copyRest
  cases given : c.memalign with
  | error e =>
    refine ⟨_,rfl,idleCleared q,.inl ⟨.refused (Int.natCast_pos.mpr (alloc e given)) rfl,?_⟩⟩
    rintro ⟨mbuf,k,d,u',t',found,-⟩
    cases given.symm.trans found
  | ok mbuf =>
    have target := memoryRest mbuf (fuseBufSize v) n
    have mem : ∀ c ∈ Bufvec.rest {off := n,buf := [memory mbuf (fuseBufSize v)]}, c.isMem = true := by
      rw [target]
      exact memoryMem mbuf _ n _
    have away : Apart u.rest (Bufvec.rest {off := n,buf := [memory mbuf (fuseBufSize v)]}) :=
        memApart fun c inside put => by
      rw [target] at put
      rw [filled.rest] at inside
      obtain ⟨i,-,less,rfl⟩ := memoryCells mbuf _ n _ c put
      exact fresh mbuf given i (by omega) (List.mem_of_mem_drop inside)
    have room : u.rest.length ≤ (Bufvec.rest {off := n,buf := [memory mbuf (fuseBufSize v)]}).length := by
      rw [target,cellsLength]
      omega
    obtain ⟨r',d,u',t',k,copy,gave⟩ :=
      copyGives h.splice {} t (memorySound mbuf _ n (by omega)) filled.sound (by omega) away
      (memoryHeld mem)
    dsimp only
    rw [sys,copy]
    dsimp only
    have supplied (sent : Sent) (last : sent.session.sys.answers = t'.answers) :=
      readSupplies (h := h) v.rest filled.honest.later (memoryInMemory mbuf _ n) filled.rest most room copy gave last
    have less : k ≤ fuseBufSize v - n := by
      have most' := gave.source
      omega
    obtain ⟨front,behind,joined⟩ := secondJoins filled gave less
    have same {k' : Nat} {d' u'' : Bufvec} {t'' : Sys} (again : fuseBufCopy h.splice {} false
        {off := n,buf := [memory mbuf (fuseBufSize v)]} u t = .some (.ok k',d',u'',t'')) : k' = k := by
      cases copy.symm.trans again
      obtain equal | ⟨-,e,failed⟩ := gave.gave
      · exact Except.ok.inj equal
      · cases failed
    have unlost (fine : 0 < k → c.malloc = true → ReadsWhole c n) : ¬LostInPipe h c u (fuseBufSize v) n t := by
      rintro ⟨mbuf',k',d',u'',t'',found,again,more,malloc,lost⟩
      cases given.symm.trans found
      exact lost (fine (by rw [← same again]; exact more) malloc)
    -- Nothing more came: what is in the pipe goes out.
    have piped (nothing : k = 0) : Outcome h v.rest s.sys out (c.device 0) (spliceOut c out llp n {q with sys := t'}) ∧
        ¬LostInPipe h c u (fuseBufSize v) n t ∧ Idle (spliceOut c out llp n {q with sys := t'}).session := by
      subst k
      have bytes : (s.sys.world.takes (v.rest.take n)).1 = front ++ behind := joined.bytes
      have holds : t'.world.sent llp.fd = (s.sys.world.takes (v.rest.take n)).1 := by
        rw [joined.holds,bytes,List.eq_nil_of_length_eq_zero joined.second,List.append_nil]
      obtain ⟨nonpos,one,kept,idle⟩ := spliceOutTries c out llp (s := {q with sys := t'}) pipe holds most (by omega)
      obtain ⟨-,dry⟩ := supplied _ kept.answers
      refine ⟨.tried nonpos one most fun _ => ⟨most,dry,?_⟩,unlost fun more => absurd more (Nat.lt_irrefl 0),idle⟩
      rw [kept.same.taken]
      exact joined.taken
    obtain rfl | ⟨rfl,e,rfl⟩ := gave.gave
    · have counted' : k < 2 ^ 31 := Nat.not_le.mp fun long => uncut ⟨mbuf,k,d,u',t',given,copy,.inl long⟩
      rw [intCount counted']
      split
      · rename_i more
        have positive : 0 < k := Int.natCast_pos.mp more
        rw [Int.toNat_natCast]
        have source := gave.source
        obtain ⟨idle,⟨nonpos,silent,full⟩ | ⟨silent,malloc,lost⟩ | ⟨nonpos,one,last,taken,whole⟩⟩ :=
          takeBackSends c out {q with sys := t'} pipe joined (by omega) fun malloc whole =>
            Nat.not_le.mp fun long => uncut ⟨mbuf,k,d,u',t',given,copy,.inr ⟨long,malloc,whole⟩⟩
        · refine ⟨_,rfl,idle,.inl ⟨.refused nonpos silent,unlost fun _ malloc => ?_⟩⟩
          rw [full] at malloc
          cases malloc
        · exact ⟨_,rfl,idle,.inr ⟨silent,mbuf,k,d,u',t',given,copy,positive,malloc,lost⟩⟩
        · obtain ⟨enough,dry⟩ := supplied _ last
          exact ⟨_,rfl,idle,
            .inl ⟨.tried nonpos one enough fun _ => ⟨enough,dry,taken.trans joined.taken⟩,unlost fun _ _ => whole⟩⟩
      · obtain ⟨outcome,kept,idle⟩ := piped (by omega)
        exact ⟨_,rfl,idle,.inl ⟨outcome,kept⟩⟩
    · obtain ⟨i,failed⟩ := gave.honest.errno e rfl
      obtain ⟨positive,fits⟩ := (errnos.later filled.honest.later) i e failed
      rw [intErrno fits,if_neg (by omega)]
      obtain ⟨outcome,kept,idle⟩ := piped rfl
      exact ⟨_,rfl,idle,.inl ⟨outcome,kept⟩⟩

def fillPipe (h : Host) (v : Bufvec) (llp : Llp) (s : Sys) : Option (SSize × Bufvec × Bufvec × Sys) :=
  fuseBufCopy h.splice {forceSplice := true} false {buf := [pipeBuf llp (fuseBufSize v)]} v s

/- The copy stopped halfway, the sources had more, and the pipe does not give back what it has. -/
def PipeLoses (h : Host) (c : Calls) (v : Bufvec) (llp : Llp) (s : Sys) : Prop :=
  ∃ n d u t, fillPipe h v llp s = some (.ok n,d,u,t) ∧ 0 < n ∧ n < fuseBufSize v ∧ LostInPipe h c u (fuseBufSize v) n t

/- A count on the way through the pipe is cut by an int. -/
def PipeCuts (h : Host) (c : Calls) (v : Bufvec) (llp : Llp) (s : Sys) : Prop :=
  (∃ n d u t, fillPipe h v llp s = some (.ok n,d,u,t) ∧
    (2 ^ 31 ≤ n ∨ 0 < n ∧ n < fuseBufSize v ∧ RestCuts h c u (fuseBufSize v) n t)) ∨
  ∃ e d u t, fillPipe h v llp s = some (.error e,d,u,t) ∧ ((e : Int) = eagain ∨ (e : Int) = einval) ∧
    FallbackCuts h c u t

/- The pipe takes nothing of memory, and the device takes the message without it. -/
def NothingTaken (h : Host) (c : Calls) (v : Bufvec) (llp : Llp) (s : Sys) : Prop :=
  (∃ d u t, fillPipe h v llp s = some (.ok 0,d,u,t)) ∧ (∃ a, v.rest.head? = some a ∧ a.isMem = true) ∧
    answered (c.device 0) headerLen = .ok headerLen

structure Hollow (v : Bufvec) (out : OutHeader) (s : Sys) (answer : Answer) (sent : Sent) : Prop where
  nonpos : sent.res ≤ 0
  one : sent.tries = [reply out v.rest s answer 0]
  whole : answered answer headerLen = .ok headerLen
  memory : ∃ a, v.rest.head? = some a ∧ a.isMem = true

theorem sendPipedSends {h : Host} (splice : h.splice = true) (c : Calls) (out : OutHeader) {v : Bufvec}
    (llp : Llp) {s : Session} (sound : v.Sound) (small : fuseBufSize v < 2 ^ 63) (fresh : Fresh c v)
    (alloc : ∀ e, c.memalign = .error e → 0 < e) (errnos : Errnos s.sys) (pipe : s.pipe = some llp)
    (idle : Idle s) (uncut : ¬PipeCuts h c v llp s.sys) :
    ∃ sent, sendPiped h c out v llp (fuseBufSize v) s = some sent ∧ Idle sent.session ∧
      (Outcome h v.rest s.sys out (c.device 0) sent ∧ ¬PipeLoses h c v llp s.sys ∧ ¬NothingTaken h c v llp s.sys ∨
        Silent sent ∧ PipeLoses h c v llp s.sys ∨ Hollow v out s.sys (c.device 0) sent ∧
          NothingTaken h c v llp s.sys) := by
  have size : v.rest.length ≤ fuseBufSize v := restSize (Nat.lt_trans small (by decide))
  obtain ⟨r,d,u,t,n,copy,filled⟩ := pipeFills splice llp sound small (idle llp pipe)
  have most := filled.most
  have same {k : Nat} {d' u' : Bufvec} {t' : Sys} (again : fillPipe h v llp s.sys = some (.ok k,d',u',t')) :
      k = n ∧ u' = u ∧ t' = t := by
    cases copy.symm.trans again
    obtain equal | ⟨-,e,failed⟩ := filled.gave
    · exact ⟨Except.ok.inj equal,rfl,rfl⟩
    · cases failed
  have taken (some : 0 < n) : ¬NothingTaken h c v llp s.sys := by
    rintro ⟨⟨d',u',t',again⟩,-⟩
    exact absurd (same again).1 (Nat.ne_of_lt some)
  have unlost (fine : ¬(0 < n ∧ n < fuseBufSize v ∧ LostInPipe h c u (fuseBufSize v) n t)) :
      ¬PipeLoses h c v llp s.sys := by
    rintro ⟨k,d',u',t',again,bad⟩
    obtain ⟨rfl,rfl,rfl⟩ := same again
    exact fine bad
  unfold sendPiped
  rw [copy]
  dsimp only
  obtain rfl | ⟨rfl,e,rfl⟩ := filled.gave
  · have counted : n < 2 ^ 31 := Nat.not_le.mp fun long => uncut (.inl ⟨n,d,u,t,copy,.inl long⟩)
    rw [intCount counted,if_neg (by omega),Int.toNat_natCast]
    split
    · rename_i short
      have some : 0 < n := by omega
      have rest : ¬RestCuts h c u (fuseBufSize v) n t := fun cuts =>
        uncut (.inl ⟨n,d,u,t,copy,.inr ⟨some,short.2,cuts⟩⟩)
      obtain ⟨sent,run,idle',⟨outcome,kept⟩ | ⟨silent,lost⟩⟩ :=
        copyRestSends h c out filled some counted rest small fresh alloc errnos {s with sys := t} rfl pipe
      · exact ⟨sent,run,idle',.inl ⟨outcome,unlost fun bad => kept bad.2.2,taken some⟩⟩
      · exact ⟨sent,run,idle',.inr (.inl ⟨silent,n,d,u,t,copy,some,short.2,lost⟩)⟩
    · rename_i done
      obtain ⟨nonpos,one,kept,idle'⟩ :=
        spliceOutTries c out llp (s := {s with sys := t}) pipe filled.holds most (by omega)
      have none : ¬PipeLoses h c v llp s.sys := unlost fun bad => done ⟨by omega,bad.2.1⟩
      have sources := kept.same.taken.trans filled.same.taken
      have sends (dry : n = v.rest.length ∨
        Dry h v.rest s.sys (spliceOut c out llp n {s with sys := t}).session.sys n) :
          Outcome h v.rest s.sys out (c.device 0) (spliceOut c out llp n {s with sys := t}) :=
        .tried nonpos one most fun _ => ⟨most,dry,sources⟩
      by_cases zero : n = 0
      · subst n
        cases first : v.rest.head? with
        | none =>
          have all : v.rest = [] := List.head?_eq_none_iff.mp first
          refine ⟨_,rfl,idle',.inl ⟨sends (.inl (by rw [all]; rfl)),none,?_⟩⟩
          rintro ⟨-,⟨a,found,-⟩,-⟩
          cases first.symm.trans found
        | some a =>
          by_cases mem : a.isMem = true
          · by_cases whole : answered (c.device 0) headerLen = .ok headerLen
            · exact ⟨_,rfl,idle',.inr (.inr ⟨⟨nonpos,one,whole,a,first,mem⟩,⟨d,u,t,copy⟩,⟨a,first,mem⟩,whole⟩)⟩
            · exact ⟨_,rfl,idle',
                .inl ⟨.tried nonpos one most fun took => absurd took whole,none,fun bad => whole bad.2.2⟩⟩
          · have room : Bufvec.rest {buf := [pipeBuf llp (fuseBufSize v)]} ≠ [] := by
              intro none
              have length := congrArg List.length none
              rw [pipeRest,List.length_replicate,List.length_nil] at length
              have empty : v.rest = [] := List.eq_nil_of_length_eq_zero (by omega)
              rw [empty] at first
              cases first
            have descriptor : ∀ b, (v.rest.drop 0).head? = some b → b.isMem = false := by
              intro b found
              cases first.symm.trans found
              exact eq_false_of_ne_true mem
            refine ⟨_,rfl,idle',.inl ⟨sends (.inr (.splice (.refl _) rfl room copy kept.answers descriptor)),none,?_⟩⟩
            rintro ⟨-,⟨b,found,memory⟩,-⟩
            cases first.symm.trans found
            exact mem memory
      · exact ⟨_,rfl,idle',.inl ⟨sends (.inl (by omega)),none,taken (by omega)⟩⟩
  · obtain ⟨i,failed⟩ := filled.honest.errno e rfl
    obtain ⟨positive,fits⟩ := errnos i e failed
    have lossless : ¬PipeLoses h c v llp s.sys ∧ ¬NothingTaken h c v llp s.sys := by
      constructor
      · exact unlost fun bad => absurd bad.1 (Nat.lt_irrefl 0)
      · rintro ⟨⟨d',u',t',again⟩,-⟩
        cases copy.symm.trans again
    rw [intErrno fits,if_pos (by omega)]
    split
    · have size' : fuseBufSize u = fuseBufSize v := by rw [fuseBufSize,filled.buf,fuseBufSize]
      have rest : u.rest = v.rest := filled.rest
      have fresh' : Fresh c u := by
        rw [Fresh,size',rest]
        exact fresh
      have later := filled.honest.later
      obtain ⟨sent,run,outcome,idle'⟩ := fallbackSends h c out
        (s := fuseLlClearPipe {s with sys := t,brokenSpliceNonblock := s.brokenSpliceNonblock || -(e : Int) = -eagain})
        filled.sound (by rw [size']; exact small) fresh' (errnos.later later) alloc (idleCleared _)
        (fun cuts => uncut (.inr ⟨e,d,u,t,copy,by omega,cuts⟩))
      rw [size'] at run
      rw [rest] at outcome
      exact ⟨sent,run,idle',.inl ⟨outcome.before later filled.same,lossless⟩⟩
    · exact ⟨_,rfl,idleCleared _,.inl ⟨.refused (show (0 : Int) < - -e by omega) rfl,lossless⟩⟩

def Attempt.Whole (a : Attempt) : Prop := a.took = .ok (headerLen + a.data.length)

/- One complete message: the first n bytes that the vector still has, with their length, n being what
the sources could supply. -/
def Completed (h : Host) (unique : Nat) (v : Bufvec) (s : Session) (sent : Sent) : Prop :=
  ∃ n a, sent.tries = [a] ∧ a.Whole ∧ a.header = {len := headerLen + n,error := 0,unique := unique} ∧
    a.data = (s.sys.world.takes (v.rest.take n)).1 ∧ Supplied h v.rest s.sys sent.session.sys n

def Refused (unique : Nat) (sent : Sent) : Prop :=
  ∃ a, sent.tries = [a] ∧ a.Whole ∧ a.header.len = headerLen ∧ a.header.unique = unique ∧
    a.header.error < 0 ∧ a.data = []

def DeviceFailed (sent : Sent) : Prop := ∃ a ∈ sent.tries, ¬a.Whole

def Answered (h : Host) (unique : Nat) (v : Bufvec) (s : Session) (sent : Sent) : Prop :=
  Completed h unique v s sent ∧ ¬Refused unique sent ∧ ¬DeviceFailed sent ∨
    ¬Completed h unique v s sent ∧ Refused unique sent ∧ ¬DeviceFailed sent ∨
    ¬Completed h unique v s sent ∧ ¬Refused unique sent ∧ DeviceFailed sent

theorem replyWhole (out : OutHeader) {cells : List Cell} {s : Sys} {answer : Answer} {n : Nat}
    (most : n ≤ cells.length) :
    (reply out cells s answer n).Whole ↔ answered answer (headerLen + n) = .ok (headerLen + n) := by
  rw [Attempt.Whole,reply,takesLength,List.length_take,Nat.min_eq_left most]

theorem failedAnswers {h : Host} {unique : Nat} {v : Bufvec} {s : Session} {sent : Sent} {a : Attempt}
    (one : sent.tries = [a]) (failed : ¬a.Whole) : Answered h unique v s sent := by
  refine .inr (.inr ⟨?_,?_,a,by rw [one]; exact List.mem_cons_self,failed⟩)
  · rintro ⟨n,b,one',whole,-⟩
    cases one.symm.trans one'
    exact failed whole
  · rintro ⟨b,one',whole,-⟩
    cases one.symm.trans one'
    exact failed whole

theorem wholeFails {sent : Sent} {a : Attempt} (one : sent.tries = [a]) (whole : a.Whole) : ¬DeviceFailed sent := by
  rintro ⟨b,inside,failed⟩
  rw [one] at inside
  rw [List.mem_singleton.mp inside] at failed
  exact failed whole

theorem outErrorNegative (strerrordesc : Bool) {e : Int} (positive : 0 < e) :
    outError strerrordesc (-e) < 0 := by
  unfold outError
  split <;> split <;> omega

theorem replyDataFinish {h : Host} {c : Calls} {unique : Nat} {v : Bufvec} {flags : CopyFlags} {s : Session}
    {sent : Sent} (run : fuseSendDataIov h c {error := 0,unique := unique} v flags s = some sent) :
    fuseReplyData h c unique v flags s = some (finish h c unique sent) := by
  rw [fuseReplyData,run]

theorem outcomeAnswers {h : Host} {c : Calls} {unique : Nat} {v : Bufvec} {s : Session} {sent : Sent}
    (outcome : Outcome h v.rest s.sys {error := 0,unique := unique} (c.device 0) sent) :
    Answered h unique v s (finish h c unique sent) := by
  cases outcome with
  | refused positive silent =>
    have one : (finish h c unique sent).tries = [(fuseReplyErr h (c.device sent.tries.length) unique sent.res).2] := by
      rw [finish,if_neg (by omega),silent]
      rfl
    have negative := outErrorNegative h.strerrordesc positive
    by_cases whole : (fuseReplyErr h (c.device sent.tries.length) unique sent.res).2.Whole
    · refine .inr (.inl ⟨?_,⟨_,one,whole,rfl,rfl,negative,rfl⟩,wholeFails one whole⟩)
      rintro ⟨n,b,one',-,header,-⟩
      cases one.symm.trans one'
      have zero : outError h.strerrordesc (-sent.res) = 0 := congrArg OutHeader.error header
      omega
    · exact failedAnswers one whole
  | @tried n nonpos one most supplied =>
    rw [finish,if_pos nonpos]
    by_cases took : answered (c.device 0) (headerLen + n) = .ok (headerLen + n)
    · have supply := supplied took
      have whole := (replyWhole {error := 0,unique := unique} (s := s.sys) most).mpr took
      refine .inl ⟨⟨n,_,one,whole,rfl,rfl,supply⟩,?_,wholeFails one whole⟩
      rintro ⟨b,one',-,-,-,negative,-⟩
      cases one.symm.trans one'
      exact absurd negative (Int.lt_irrefl 0)
    · exact failedAnswers one fun whole => took ((replyWhole _ most).mp whole)

def HeaderCut (h : Host) (c : Calls) (flags : CopyFlags) (v : Bufvec) (s : Session) : Prop :=
  ∃ llp t k, pipeFor h c flags v s = .ok (llp,t) ∧ answered c.vmsplice headerLen = .ok k ∧ k ≠ headerLen

/- The header is in the pipe, and `fails` of the pipe and of the system after it. -/
def Piped (h : Host) (c : Calls) (flags : CopyFlags) (v : Bufvec) (s : Session) (fails : Llp → Sys → Prop) : Prop :=
  ∃ llp t, pipeFor h c flags v s = .ok (llp,t) ∧ answered c.vmsplice headerLen = .ok headerLen ∧ fails llp t.sys

/- What a reply meets: a vector at a sound position whose size is one of a ssize_t, memory that nothing
else has, errnos that are some, and an empty pipe. -/
structure Proper (c : Calls) (v : Bufvec) (s : Session) : Prop where
  sound : v.Sound
  small : fuseBufSize v < 2 ^ 63
  fresh : Fresh c v
  errnos : Errnos s.sys
  alloc : ∀ e, c.memalign = .error e → 0 < e
  idle : Idle s

/- Every count fits the int that it is assigned to, and every message the len of its header. -/
structure Uncut (h : Host) (c : Calls) (flags : CopyFlags) (v : Bufvec) (s : Session) : Prop where
  pipeless : ∀ t, pipeFor h c flags v s = .error t → ¬FallbackCuts h c v t.sys
  headless : ∀ llp t e, pipeFor h c flags v s = .ok (llp,t) → answered c.vmsplice headerLen = .error e →
    ¬FallbackCuts h c v t.sys
  piped : ¬Piped h c flags v s (PipeCuts h c v)

theorem untriedUnanswered {h : Host} {unique : Nat} {v : Bufvec} {s : Session} {sent : Sent} (none : sent.tries = []) :
    ¬Answered h unique v s sent := by
  rintro (⟨⟨n,a,one,-⟩,-⟩ | ⟨-,⟨a,one,-⟩,-⟩ | ⟨-,-,a,inside,-⟩)
  · rw [none] at one
    cases one
  · rw [none] at one
    cases one
  · rw [none] at inside
    cases inside

theorem silentUnanswered {h : Host} {c : Calls} {unique : Nat} {v : Bufvec} {s : Session} {sent : Sent}
    (silent : Silent sent) :
    ¬Answered h unique v s (finish h c unique sent) := by
  rw [finish,if_pos silent.1]
  exact untriedUnanswered silent.2

theorem hollowUnanswered {h : Host} {c : Calls} {unique : Nat} {v : Bufvec} {s t : Session} {sent : Sent}
    (hollow : Hollow v {error := 0,unique := unique} t.sys (c.device 0) sent) :
    ¬Answered h unique v s (finish h c unique sent) := by
  have whole := (replyWhole {error := 0,unique := unique} (s := t.sys) (Nat.zero_le v.rest.length)).mpr hollow.whole
  obtain ⟨a,first,mem⟩ := hollow.memory
  rw [finish,if_pos hollow.nonpos]
  rintro (⟨⟨n,b,one,-,header,-,supplied⟩,-⟩ | ⟨-,⟨b,one,-,-,-,negative,-⟩,-⟩ | ⟨-,-,failed⟩)
  · cases hollow.one.symm.trans one
    have zero : 0 = n := Nat.add_left_cancel (congrArg OutHeader.len header)
    subst n
    obtain all | dry := supplied.dry
    · rw [List.eq_nil_of_length_eq_zero all.symm] at first
      cases first
    · have descriptor : a.isMem = false := by
        cases dry with
        | read later memory rest room copy ended last descriptor => exact descriptor a first
        | splice later rest room copy last descriptor => exact descriptor a first
      rw [mem] at descriptor
      cases descriptor
  · cases hollow.one.symm.trans one
    exact absurd negative (Int.lt_irrefl 0)
  · exact wholeFails hollow.one whole failed

theorem finishSession (c : Calls) (unique : Nat) (sent : Sent) : (finish h c unique sent).session = sent.session := by
  unfold finish
  split <;> rfl

theorem pipedHere {h : Host} {c : Calls} {flags : CopyFlags} {v : Bufvec} {s t : Session} {llp : Llp}
    {fails : Llp → Sys → Prop} (ready : pipeFor h c flags v s = .ok (llp,t))
    (took : answered c.vmsplice headerLen = .ok headerLen) :
    Piped h c flags v s fails ↔ fails llp t.sys := by
  constructor
  · rintro ⟨llp',t',ready',-,here⟩
    cases ready.symm.trans ready'
    exact here
  · exact fun here => ⟨llp,t,ready,took,here⟩

/- Every reply comes to an end, its pipe is empty again, and the request is answered unless the header
was cut, the pipe does not give back what it has, or it takes nothing of memory. -/
theorem replyDataAnswers (h : Host) (c : Calls) (unique : Nat) (flags : CopyFlags) {v : Bufvec} {s : Session}
    (proper : Proper c v s) (uncut : Uncut h c flags v s) :
    ∃ sent, fuseReplyData h c unique v flags s = some sent ∧ Idle sent.session ∧
      (Answered h unique v s sent ↔ ¬HeaderCut h c flags v s ∧ ¬Piped h c flags v s (PipeLoses h c v) ∧
        ¬Piped h c flags v s (NothingTaken h c v)) := by
  obtain ⟨sound,small,fresh,errnos,alloc,idle⟩ := proper
  have ends {sent : Sent} (run : fuseSendDataIov h c {error := 0,unique := unique} v flags s = some sent)
      (idle : Idle sent.session) : fuseReplyData h c unique v flags s = some (finish h c unique sent) ∧
        Idle (finish h c unique sent).session := by
    rw [finishSession]
    exact ⟨replyDataFinish run,idle⟩
  obtain ⟨t,early,kept,idle'⟩ | ⟨llp,t,ready,kept,idle',splice,pipe⟩ := pipeForReady h c flags v idle
  · obtain ⟨sent,run,outcome,idle⟩ := fallbackSends h c {error := 0,unique := unique} sound small fresh
      (errnos.later kept.later) alloc idle' (uncut.pipeless t early)
    have none {fails : Llp → Sys → Prop} : ¬Piped h c flags v s fails := by
      rintro ⟨llp,t',ready,-⟩
      cases early.symm.trans ready
    have unshort : ¬HeaderCut h c flags v s := by
      rintro ⟨llp,t',k,ready,-⟩
      cases early.symm.trans ready
    obtain ⟨run,idle⟩ := ends (by rw [fuseSendDataIov,early]; exact run) idle
    exact ⟨_,run,idle,iff_of_true (outcomeAnswers (outcome.before kept.later kept.same)) ⟨unshort,none,none⟩⟩
  · cases took : answered c.vmsplice headerLen with
    | error errno =>
      obtain ⟨sent,run,outcome,idle⟩ := fallbackSends h c {error := 0,unique := unique} sound small fresh
        (errnos.later kept.later) alloc idle' (uncut.headless llp t errno ready took)
      have none {fails : Llp → Sys → Prop} : ¬Piped h c flags v s fails := by
        rintro ⟨llp,t',-,took',-⟩
        cases took.symm.trans took'
      have unshort : ¬HeaderCut h c flags v s := by
        rintro ⟨llp,t',k,-,took',-⟩
        cases took.symm.trans took'
      obtain ⟨run,idle⟩ := ends (by rw [fuseSendDataIov,ready]; dsimp only; rw [took]; exact run) idle
      exact ⟨_,run,idle,iff_of_true (outcomeAnswers (outcome.before kept.later kept.same)) ⟨unshort,none,none⟩⟩
    | ok k =>
      by_cases whole : k = headerLen
      · subst k
        have unshort : ¬HeaderCut h c flags v s := by
          rintro ⟨llp,t',k,-,took',short⟩
          cases took.symm.trans took'
          exact short rfl
        rw [pipedHere ready took,pipedHere ready took]
        obtain ⟨sent,run,idle,verdict⟩ :=
          sendPipedSends splice c {error := 0,unique := unique} llp sound small fresh alloc
          (errnos.later kept.later) pipe idle' fun cuts => uncut.piped ((pipedHere ready took).mpr cuts)
        obtain ⟨run,idle⟩ := ends (by rw [fuseSendDataIov,ready]; dsimp only; rw [took]; exact run) idle
        obtain ⟨outcome,fine⟩ | ⟨silent,lost⟩ | ⟨hollow,nothing⟩ := verdict
        · exact ⟨_,run,idle,iff_of_true (outcomeAnswers (outcome.before kept.later kept.same)) ⟨unshort,fine⟩⟩
        · exact ⟨_,run,idle,iff_of_false (silentUnanswered silent) fun fine => fine.2.1 lost⟩
        · exact ⟨_,run,idle,iff_of_false (hollowUnanswered hollow) fun fine => fine.2.2 nothing⟩
      · have silent : Silent {res := -eio,session := fuseLlClearPipe t} := ⟨show -eio ≤ 0 by decide,rfl⟩
        obtain ⟨run,idle⟩ :=
          ends (by rw [fuseSendDataIov,ready]; dsimp only; rw [took]; exact if_pos whole) (idleCleared t)
        exact ⟨_,run,idle,iff_of_false (silentUnanswered silent) fun fine => fine.1 ⟨llp,t,k,ready,took,whole⟩⟩

def linux : Host := {splice := true,vmsplice := true,pagesize := 4096,strerrordesc := true}

/- Calls of which only vmsplice matters, and a device that takes everything. -/
def vmspliceGives (vmsplice : Answer) : Calls where
  newPipe := some 7
  setPipeSize := .error 1
  pipeMaxSize := .error 1
  setPipeMax := .error 1
  vmsplice := vmsplice
  readHeader := .done 16
  readData := .done 0
  memalign := .error 12
  malloc := true
  device := fun _ => .done (2 ^ 32)

def splicing : Session where
  brokenSpliceNonblock := false
  protoMinor := 40
  spliceWrite := true
  pipe := none
  sys := memorySys

/- Two pages of memory, written when vmsplice fails. -/
theorem replyDataAnswersFailing : ∃ sent,
    fuseReplyData linux (vmspliceGives (.fail 11)) 42 {buf := [segment 0 8192]} {} splicing = some sent ∧
      Answered linux 42 {buf := [segment 0 8192]} splicing sent := by
  have proper : Proper (vmspliceGives (.fail 11)) {buf := [segment 0 8192]} splicing := by
    refine ⟨by decide,by decide,?_,?_,?_,?_⟩
    · intro mbuf given
      cases given
    · intro i e failed
      cases failed
      decide
    · intro e failed
      cases failed
      decide
    · intro llp found
      cases found
  have fits (t : Sys) : ¬FallbackCuts linux (vmspliceGives (.fail 11)) {buf := [segment 0 8192]} t := by
    rintro (⟨-,long⟩ | ⟨mbuf,n,d,u,t,none,-⟩)
    · exact absurd long (by decide)
    · cases none
  have uncut : Uncut linux (vmspliceGives (.fail 11)) {} {buf := [segment 0 8192]} splicing :=
    ⟨fun t _ => fits t.sys,fun _ t _ _ _ => fits t.sys,fun ⟨_,_,_,took,_⟩ => nomatch took⟩
  obtain ⟨sent,run,-,answered⟩ := replyDataAnswers linux (vmspliceGives (.fail 11)) 42 {} proper uncut
  refine ⟨sent,run,answered.mpr ⟨?_,?_,?_⟩⟩
  · rintro ⟨llp,t,k,-,took,-⟩
    cases took
  · rintro ⟨llp,t,-,took,-⟩
    cases took
  · rintro ⟨llp,t,-,took,-⟩
    cases took

/- The same, when vmsplice takes 3 bytes of the 16: the request is freed and nothing is sent. -/
theorem shortVmspliceSilent : ∃ sent,
    fuseReplyData linux (vmspliceGives (.done 3)) 42 {buf := [segment 0 8192]} {} splicing = some sent ∧
      sent.res = -5 ∧ sent.tries = [] ∧ ¬Answered linux 42 {buf := [segment 0 8192]} splicing sent := by
  have run : (fuseReplyData linux (vmspliceGives (.done 3)) 42 {buf := [segment 0 8192]} {} splicing).map
      (fun sent => (sent.res,sent.tries)) = some (-5,[]) := by decide +kernel
  obtain ⟨sent,found,both⟩ := Option.map_eq_some_iff.mp run
  obtain ⟨res,none⟩ := Prod.mk.inj both
  exact ⟨sent,found,res,none,untriedUnanswered none⟩

end FuseStudy.DataReply
