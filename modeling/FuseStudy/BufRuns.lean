import FuseStudy.BufTransfers

/-! Whole runs of fuse_buf_copy over two vectors, however their segments lie. -/
namespace FuseStudy.BufCopy

def Bufvec.behind (v : Bufvec) : List Cell :=
  (v.buf.drop (v.idx + 1)).flatMap fun b => b.cells 0 b.size

/- The bytes that a vector still has, in order. -/
def Bufvec.rest (v : Bufvec) : List Cell :=
  match v.current with
  | none => []
  | some b => b.cells v.off (b.size - v.off) ++ v.behind

/- The position lies in the current segment or at its end. -/
def Bufvec.Sound (v : Bufvec) : Prop :=
  ∀ b, v.current = some b → v.off ≤ b.size

instance (v : Bufvec) : Decidable v.Sound :=
  inferInstanceAs (Decidable (∀ b ∈ v.current, v.off ≤ b.size))

theorem restNone {v : Bufvec} (current : v.current = none) : v.rest = [] := by
  rw [Bufvec.rest,current]

theorem restSome {v : Bufvec} {b : Buf} (current : v.current = some b) :
    v.rest = b.cells v.off (b.size - v.off) ++ v.behind := by
  rw [Bufvec.rest,current]

theorem restTake {v : Bufvec} {b : Buf} {len : Nat} (current : v.current = some b) (less : len ≤ b.size - v.off) :
    v.rest.take len = b.cells v.off len := by
  rw [restSome current,List.take_append_of_le_length (by rw [cellsLength]; exact less),cellsTake _ _ less]

theorem restDrop {v : Bufvec} {b : Buf} {len : Nat} (current : v.current = some b) (less : len ≤ b.size - v.off) :
    v.rest.drop len = b.cells (v.off + len) (b.size - v.off - len) ++ v.behind := by
  rw [restSome current,List.drop_append_of_le_length (by rw [cellsLength]; exact less),cellsDrop _ _ less]

theorem restLength {v : Bufvec} {b : Buf} {len : Nat} (current : v.current = some b) (less : len ≤ b.size - v.off) :
    len ≤ v.rest.length := by
  rw [restSome current,List.length_append,cellsLength]
  omega

def Bufvec.lastLeft (v : Bufvec) : Nat :=
  match v.current with
  | none => 0
  | some b => match (v.buf.drop (v.idx + 1)).getLast? with
    | none => b.size - v.off
    | some last => last.size

theorem lastLeftSome {v : Bufvec} {b : Buf} (current : v.current = some b) :
    v.lastLeft = match (v.buf.drop (v.idx + 1)).getLast? with
      | none => b.size - v.off
      | some last => last.size := by
  rw [Bufvec.lastLeft,current]

theorem lastLeftLess (v : Bufvec) : v.lastLeft ≤ v.rest.length := by
  cases current : v.current with
  | none =>
    rw [Bufvec.lastLeft,current]
    exact Nat.zero_le _
  | some b =>
    rw [lastLeftSome current,restSome current,List.length_append,cellsLength]
    split
    · exact Nat.le_add_right _ _
    · rename_i last found
      have inside : last ∈ v.buf.drop (v.idx + 1) := List.mem_of_getLast? found
      obtain ⟨front,later,split⟩ := List.append_of_mem inside
      rw [Bufvec.behind,split,List.flatMap_append,List.flatMap_cons,List.length_append,List.length_append,cellsLength]
      omega

structure Advanced (v u : Bufvec) (n : Nat) (more : Bool) : Prop where
  rest : u.rest = v.rest.drop n
  sound : u.Sound
  buf : u.buf = v.buf
  last : more = true → (u.lastLeft = 0 ↔ v.lastLeft = 0)
  ended : more = false → v.rest.length = n ∧ v.lastLeft = n

theorem advanceRest {v : Bufvec} {b : Buf} {len : Nat} (current : v.current = some b) (fits : v.off + len ≤ b.size) :
    ∃ more u, v.advance len = some (more,u) ∧ Advanced v u len more := by
  have inside : v.idx < v.buf.length := (List.getElem?_eq_some_iff.mp current).1
  have room : len ≤ b.size - v.off := by omega
  have dropped := restDrop current room
  simp only [Bufvec.advance,current,if_pos fits]
  split
  · rename_i full
    have gone : b.size - v.off - len = 0 := by omega
    rw [gone,Buf.cells,List.nil_append] at dropped
    split
    · rename_i last
      have none : (Bufvec.current {v with idx := v.idx + 1,off := v.off + len}) = none :=
        List.getElem?_eq_none (Nat.le_of_eq last.symm)
      have behind : v.buf.drop (v.idx + 1) = [] := by rw [last,List.drop_length]
      refine ⟨false,_,rfl,?_,fun c found => ?_,rfl,(fun no => by cases no),fun _ => ⟨?_,?_⟩⟩
      · rw [restNone none,dropped,Bufvec.behind,behind]
        rfl
      · rw [none] at found
        cases found
      · rw [restSome current,Bufvec.behind,behind,List.length_append,cellsLength,List.flatMap_nil,List.length_nil]
        omega
      · rw [lastLeftSome current,behind]
        show b.size - v.off = len
        omega
    · have next : v.idx + 1 < v.buf.length := by omega
      have found : (Bufvec.current {v with idx := v.idx + 1,off := 0}) = some v.buf[v.idx + 1] :=
        List.getElem?_eq_getElem next
      refine ⟨true,_,rfl,?_,fun c _ => Nat.zero_le _,rfl,fun _ => ?_,(fun no => by cases no)⟩
      · rw [restSome found,dropped,Bufvec.behind,Bufvec.behind,List.drop_eq_getElem_cons next,List.flatMap_cons]
        rfl
      · rw [lastLeftSome found,lastLeftSome current,List.drop_eq_getElem_cons next]
        cases v.buf.drop (v.idx + 1 + 1) with
        | nil => exact Iff.rfl
        | cons c later =>
          rw [List.getLast?_cons_cons]
          cases whole : (c :: later).getLast? with
          | none => cases List.getLast?_eq_none_iff.mp whole
          | some last => exact Iff.rfl
  · rename_i partly
    have same : Bufvec.current {v with off := v.off + len} = some b := current
    refine ⟨true,_,rfl,?_,fun c found => ?_,rfl,fun _ => ?_,(fun no => by cases no)⟩
    · rw [restSome same,dropped,Nat.sub_sub]
      rfl
    · have equal : c = b := Option.some.inj (found.symm.trans current)
      rw [equal]
      exact fits
    · rw [lastLeftSome same,lastLeftSome current]
      dsimp only
      cases (v.buf.drop (v.idx + 1)).getLast? with
      | none =>
        show b.size - (v.off + len) = 0 ↔ b.size - v.off = 0
        omega
      | some last => exact Iff.rfl

def Bufvec.InMemory (v : Bufvec) : Prop :=
  ∀ b ∈ v.buf, b.isFd = false

instance (v : Bufvec) : Decidable v.InMemory :=
  inferInstanceAs (Decidable (∀ b ∈ v.buf, b.isFd = false))

/- Some byte of a stream would go to a descriptor, and nothing holds the copy to splice. -/
def Bounced (haveSplice : Bool) (flags : CopyFlags) (src dst : List Cell) : Prop :=
  (haveSplice && !flags.noSplice && flags.forceSplice) = false ∧
    ∃ p ∈ src.zip dst, p.1.isStream = true ∧ p.2.isMem = false

instance (haveSplice : Bool) (flags : CopyFlags) (src dst : List Cell) : Decidable (Bounced haveSplice flags src dst) :=
  inferInstanceAs (Decidable (_ ∧ _))

theorem Bounced.behind {haveSplice : Bool} {flags : CopyFlags} {src dst src' dst' : List Cell}
    (same : src.length = dst.length) (bounced : Bounced haveSplice flags src' dst') :
    Bounced haveSplice flags (src ++ src') (dst ++ dst') := by
  obtain ⟨free,p,inside,stream⟩ := bounced
  refine ⟨free,p,?_,stream⟩
  rw [List.zip_append same]
  exact List.mem_append_right _ inside

theorem cellMem (b : Buf) (off : Nat) : (b.cell off).isMem = !b.isFd := by
  unfold Buf.cell
  cases b.isFd with
  | false => rfl
  | true => cases b.fdSeek <;> rfl

theorem bouncesFirst {haveSplice : Bool} {flags : CopyFlags} {src dst : Buf} {srcOff dstOff len : Nat}
    (some : 0 < len) (bounces : bounces haveSplice flags src dst = true) (src' dst' : List Cell) :
    Bounced haveSplice flags (src.cells srcOff len ++ src') (dst.cells dstOff len ++ dst') := by
  simp only [BufCopy.bounces,Bool.and_eq_true,Bool.not_eq_true'] at bounces
  obtain ⟨⟨⟨fd,seek⟩,fd'⟩,free⟩ := bounces
  refine ⟨free,(src.cell srcOff,dst.cell dstOff),?_,?_,?_⟩
  · cases len with
    | zero => cases some
    | succ len => exact List.mem_cons_self
  · rw [cellStream,fd,seek]
    rfl
  · rw [cellMem,fd']
    rfl

section
variable (haveSplice : Bool) (flags : CopyFlags)

/- One transfer of at most `len` bytes at the current positions. -/
structure Piece (dstv srcv : Bufvec) (s t : Sys) (len n lost : Nat) : Prop where
  source : len ≤ srcv.rest.length
  dest : len ≤ dstv.rest.length
  copy : Copied s.world t.world (srcv.rest.take len) (dstv.rest.take len) n lost
  memory : srcv.InMemory → dstv.InMemory → n = len
  streams : ∀ c ∈ ((srcv.rest.take len).drop n).take lost, c.isStream = true
  bounced : 0 < lost → Bounced haveSplice flags (srcv.rest.take len) (dstv.rest.take len)

/- The turns of the loop that a copy comes to: all before them have moved their piece whole. -/
inductive Reaches : Bufvec → Bufvec → Sys → Bufvec → Bufvec → Sys → Prop
  | here {dstv srcv s} : Reaches dstv srcv s dstv srcv s
  | turn {dstv srcv s src dst len t u u' dstv' srcv' s'} (source : srcv.current = some src)
      (dest : dstv.current = some dst)
    (least : len = min (src.size - srcv.off) (dst.size - dstv.off))
    (moved : fuseBufCopyOne haveSplice flags dst dstv.off src srcv.off len s = (.ok len,t))
    (onward : srcv.advance len = some (true,u)) (onward' : dstv.advance len = some (true,u'))
    (later : Reaches u' u t dstv' srcv' s') : Reaches dstv srcv s dstv' srcv' s'

/- In every turn that the copy comes to, what a stream gives to the local buffer is written. -/
def Keeps (dstv srcv : Bufvec) (s : Sys) : Prop :=
  ∀ dstv' srcv' s' src dst, Reaches haveSplice flags dstv srcv s dstv' srcv' s' → srcv'.current = some src →
    dstv'.current = some dst →
    pieceKeeps haveSplice flags dst src (min (src.size - srcv'.off) (dst.size - dstv'.off)) s'.answers = true

theorem keepsNone {dstv srcv : Bufvec} {s : Sys} (none : srcv.current = none ∨ dstv.current = none) :
    Keeps haveSplice flags dstv srcv s := by
  intro dstv' srcv' s' src dst reaches source' dest'
  have both {src dst : Buf} (source : srcv.current = some src) (dest : dstv.current = some dst) : False := by
    obtain none | none := none
    · cases none.symm.trans source
    · cases none.symm.trans dest
  cases reaches with
  | here => exact (both source' dest').elim
  | turn source dest => exact (both source dest).elim

theorem keepsTurn {dstv srcv : Bufvec} {s : Sys} {src dst : Buf} {len : Nat} (source : srcv.current = some src)
    (dest : dstv.current = some dst) (least : len = min (src.size - srcv.off) (dst.size - dstv.off)) :
    Keeps haveSplice flags dstv srcv s ↔ pieceKeeps haveSplice flags dst src len s.answers = true ∧
      ∀ t u u', fuseBufCopyOne haveSplice flags dst dstv.off src srcv.off len s = (.ok len,t) →
        srcv.advance len = some (true,u) → dstv.advance len = some (true,u') → Keeps haveSplice flags u' u t := by
  constructor
  · intro keeps
    refine ⟨least ▸ keeps _ _ _ _ _ .here source dest,?_⟩
    intro t u u' moved onward onward' dstv' srcv' s' src' dst' reaches
    exact keeps _ _ _ _ _ (.turn source dest least moved onward onward' reaches)
  · rintro ⟨first,rest⟩ dstv' srcv' s' src' dst' reaches source' dest'
    cases reaches with
    | here =>
      cases source.symm.trans source'
      cases dest.symm.trans dest'
      exact least ▸ first
    | turn source'' dest'' least' moved onward onward' later =>
      cases source.symm.trans source''
      cases dest.symm.trans dest''
      subst least least'
      exact rest _ _ _ moved onward onward' _ _ _ _ _ later source' dest'

theorem keepsLast {dstv srcv : Bufvec} {s : Sys} {src dst : Buf} {len : Nat} (source : srcv.current = some src)
    (dest : dstv.current = some dst) (least : len = min (src.size - srcv.off) (dst.size - dstv.off))
    (stops : ∀ t u u', fuseBufCopyOne haveSplice flags dst dstv.off src srcv.off len s = (.ok len,t) →
      srcv.advance len = some (true,u) → dstv.advance len = some (true,u') → False) :
    Keeps haveSplice flags dstv srcv s ↔ pieceKeeps haveSplice flags dst src len s.answers = true := by
  rw [keepsTurn haveSplice flags source dest least]
  exact ⟨And.left,fun holds => ⟨holds,fun t u u' moved onward onward' => (stops t u u' moved onward onward').elim⟩⟩

/- The turns of the loop: `n` bytes went over and `lost` were only taken, while the source was moved
on by `n` and the destination by `m`. -/
inductive Runs : Bufvec → Bufvec → Nat → Sys → SSize → Bufvec → Bufvec → Sys → Nat → Nat → Nat → Prop
  | ended {dstv srcv copied s} (none : srcv.rest = [] ∨ dstv.rest = []) :
    Runs dstv srcv copied s (ssize copied) dstv srcv s 0 0 0
  | failed {dstv srcv copied s t len lost} (errno : Nat) (piece : Piece haveSplice flags dstv srcv s t len 0 lost)
    (descriptor : srcv.InMemory → ¬dstv.InMemory) :
    Runs dstv srcv copied s (if copied = 0 then .error errno else ssize copied) dstv srcv t 0 0 lost
  | srcEnds {dstv srcv u copied s t len n lost} (piece : Piece haveSplice flags dstv srcv s t len n lost)
    (source : Advanced srcv u n false) :
    Runs dstv srcv copied s (ssize (copied + n)) dstv u t n 0 lost
  | dstEnds {dstv srcv u u' copied s t len n lost} (piece : Piece haveSplice flags dstv srcv s t len n lost)
    (source : Advanced srcv u n true) (dest : Advanced dstv u' n false) :
    Runs dstv srcv copied s (ssize (copied + n)) u' u t n n lost
  | short {dstv srcv u u' copied s t len n lost} (piece : Piece haveSplice flags dstv srcv s t len n lost)
    (source : Advanced srcv u n true) (dest : Advanced dstv u' n true) (less : n < len) :
    Runs dstv srcv copied s (ssize (copied + n)) u' u t n n lost
  | more {dstv srcv u u' copied s t len r dstv' srcv' s' n m lost}
      (piece : Piece haveSplice flags dstv srcv s t len len 0)
    (source : Advanced srcv u len true) (dest : Advanced dstv u' len true)
    (later : Runs u' u (copied + len) t r dstv' srcv' s' n m lost) :
    Runs dstv srcv copied s r dstv' srcv' s' (len + n) (len + m) lost

theorem copyOnePiece {dstv srcv : Bufvec} {src dst : Buf} {len : Nat} (s : Sys) (source : srcv.current = some src)
    (dest : dstv.current = some dst) (less : len ≤ src.size - srcv.off) (less' : len ≤ dst.size - dstv.off)
    (fits : len < 2 ^ 63) (apart : Apart srcv.rest dstv.rest) :
    ∃ n lost, Gave (fuseBufCopyOne haveSplice flags dst dstv.off src srcv.off len s).1 n ∧
      Piece haveSplice flags dstv srcv s
        (fuseBufCopyOne haveSplice flags dst dstv.off src srcv.off len s).2 len n lost ∧
      (srcv.InMemory → dstv.InMemory →
        (fuseBufCopyOne haveSplice flags dst dstv.off src srcv.off len s).1 = .ok len) ∧
      (lost = 0 ↔ pieceKeeps haveSplice flags dst src len s.answers = true) := by
  have front := restTake source less
  have front' := restTake dest less'
  have pieces : Apart (src.cells srcv.off len) (dst.cells dstv.off len) := by
    rw [← front,← front']
    exact apart.mono (fun _ => List.mem_of_mem_take) fun _ => List.mem_of_mem_take
  obtain ⟨n,lost,gave,copy,memory,bounce,keeps⟩ :=
    copyOneCopied haveSplice flags dst dstv.off src srcv.off len s fits pieces
  have taken := copy.source
  rw [cellsLength] at taken
  have full (mem : srcv.InMemory) (mem' : dstv.InMemory) := memory (mem src (List.mem_of_getElem? source))
    (mem' dst (List.mem_of_getElem? dest))
  refine ⟨n,lost,gave,
    ⟨restLength source less,restLength dest less',?_,fun mem mem' => (full mem mem').1,?_,fun some => ?_⟩,
    fun mem mem' => (full mem mem').2,keeps⟩
  · rw [front,front']
    exact copy
  · rw [front]
    intro c inside
    have some : 0 < lost := Nat.pos_of_ne_zero fun zero => by
      rw [zero] at inside
      cases inside
    have stream := bounce some
    simp only [bounces,Bool.and_eq_true,Bool.not_eq_true'] at stream
    obtain ⟨i,rfl⟩ := cellsKind src srcv.off len c (List.mem_of_mem_drop (List.mem_of_mem_take inside))
    rw [cellStream,stream.1.1.1,stream.1.1.2]
    rfl
  · rw [front,front']
    have first : Bounced haveSplice flags (src.cells srcv.off len ++ []) (dst.cells dstv.off len ++ []) :=
      bouncesFirst (by omega) (bounce some) [] []
    rw [List.append_nil,List.append_nil] at first
    exact first

theorem copyLoopRuns (dstv srcv : Bufvec) (copied : Nat) (s : Sys) (soundDst : dstv.Sound) (soundSrc : srcv.Sound)
    (fits : min srcv.rest.length dstv.rest.length < 2 ^ 63) (apart : Apart srcv.rest dstv.rest) :
    ∃ r dstv' srcv' s' n m lost, copyLoop haveSplice flags dstv srcv copied s = some (r,dstv',srcv',s') ∧
      Runs haveSplice flags dstv srcv copied s r dstv' srcv' s' n m lost ∧
      (lost = 0 ↔ Keeps haveSplice flags dstv srcv s) := by
  induction measure : (srcv.buf.length - srcv.idx) + (dstv.buf.length - dstv.idx) using Nat.strongRecOn
    generalizing dstv srcv copied s with
  | ind left ih =>
    rw [copyLoop]
    split
    · rename_i source
      exact ⟨_,_,_,_,0,0,0,rfl,.ended (.inl (restNone source)),iff_of_true rfl (keepsNone _ _ (.inl source))⟩
    · rename_i other source dest
      exact ⟨_,_,_,_,0,0,0,rfl,.ended (.inr (restNone dest)),iff_of_true rfl (keepsNone _ _ (.inr dest))⟩
    · rename_i src dst source dest
      rw [minSizeLeast]
      generalize length : min (src.size - srcv.off) (dst.size - dstv.off) = len
      dsimp only
      have less : len ≤ src.size - srcv.off := by omega
      have less' : len ≤ dst.size - dstv.off := by omega
      have ends : len = src.size - srcv.off ∨ len = dst.size - dstv.off := by omega
      have turn := keepsTurn haveSplice flags (s := s) source dest length.symm
      have last := keepsLast haveSplice flags (s := s) source dest length.symm
      clear length
      have inside := soundSrc src source
      have inside' := soundDst dst dest
      have fitsLen : len < 2 ^ 63 :=
        Nat.lt_of_le_of_lt (Nat.le_min.mpr ⟨restLength source less,restLength dest less'⟩) fits
      obtain ⟨n,lost,gave,piece,memory,keeps⟩ := copyOnePiece haveSplice flags s source dest less less' fitsLen apart
      rcases result : fuseBufCopyOne haveSplice flags dst dstv.off src srcv.off len s with ⟨r,t⟩
      rw [result] at gave piece memory turn last
      have taken := piece.copy.source
      rw [List.length_take] at taken
      have whole : n + lost ≤ len := Nat.le_trans taken (Nat.min_le_left _ _)
      clear taken
      obtain rfl | ⟨rfl,errno,rfl⟩ := gave
      · dsimp only
        have room : srcv.off + n ≤ src.size := by omega
        have room' : dstv.off + n ≤ dst.size := by omega
        obtain ⟨more,u,onward,advanced⟩ := advanceRest source room
        obtain ⟨more',u',onward',advanced'⟩ := advanceRest dest room'
        split
        · rename_i found
          rw [onward] at found
          cases found
        · rename_i v found
          rw [onward] at found
          cases found
          exact ⟨_,_,_,_,n,0,lost,rfl,.srcEnds piece advanced,keeps.trans (last fun _ _ _ moved on _ => by
            cases moved
            cases onward.symm.trans on).symm⟩
        · rename_i v found
          rw [onward] at found
          cases found
          split
          · rename_i found
            rw [onward'] at found
            cases found
          · rename_i v' found
            rw [onward'] at found
            cases found
            exact ⟨_,_,_,_,n,n,lost,rfl,.dstEnds piece advanced advanced',keeps.trans (last fun _ _ _ moved _ on => by
              cases moved
              cases onward'.symm.trans on).symm⟩
          · rename_i v' found
            rw [onward'] at found
            cases found
            split
            · rename_i short
              exact ⟨_,_,_,_,n,n,lost,rfl,.short piece advanced advanced' short,
                keeps.trans (last fun _ _ _ moved _ _ => by
                cases moved
                exact absurd short (Nat.lt_irrefl _)).symm⟩
            · have equal : n = len := by omega
              have none : lost = 0 := by omega
              subst n lost
              have shorter : min u.rest.length u'.rest.length < 2 ^ 63 := by
                rw [advanced.rest,advanced'.rest,List.length_drop,List.length_drop,Nat.sub_min_sub_right]
                exact Nat.lt_of_le_of_lt (Nat.sub_le _ _) fits
              have away : Apart u.rest u'.rest := by
                rw [advanced.rest,advanced'.rest]
                exact apart.mono (fun _ => List.mem_of_mem_drop) fun _ => List.mem_of_mem_drop
              have decreased : (u.buf.length - u.idx) + (u'.buf.length - u'.idx) < left := by
                obtain ⟨-,-,moved⟩ := Bufvec.advanceOn source onward
                obtain ⟨-,-,moved'⟩ := Bufvec.advanceOn dest onward'
                rw [← measure,advanced.buf,advanced'.buf]
                omega
              obtain ⟨r,dstv',srcv',s',n,m,lost,run,runs,later⟩ := ih _ decreased u' u (copied + len) t advanced'.sound
                advanced.sound shorter away rfl
              refine ⟨r,dstv',srcv',s',len + n,len + m,lost,run,.more piece advanced advanced' runs,later.trans ?_⟩
              rw [turn]
              constructor
              · intro rest
                refine ⟨keeps.mp rfl,fun t' v v' moved on on' => ?_⟩
                cases moved
                cases onward.symm.trans on
                cases onward'.symm.trans on'
                exact rest
              · intro both
                exact both.2 _ _ _ rfl onward onward'
      · dsimp only
        have failed :
          Runs haveSplice flags dstv srcv copied s (if copied = 0 then .error errno else ssize copied) dstv srcv t
            0 0 lost := .failed errno piece fun mem mem' => by cases memory mem mem'
        have only := keeps.trans (last fun _ _ _ moved _ _ => by cases moved).symm
        split
        · rename_i zero
          rw [if_pos zero] at failed
          exact ⟨_,_,_,_,0,0,lost,rfl,failed,only⟩
        · rename_i some
          rw [if_neg some] at failed
          exact ⟨_,_,_,_,0,0,lost,rfl,failed,only⟩

variable {haveSplice : Bool} {flags : CopyFlags}

theorem Piece.short {dstv srcv : Bufvec} {s t : Sys} {len n lost : Nat}
    (piece : Piece haveSplice flags dstv srcv s t len n lost) :
    n + lost ≤ len := by
  have most := piece.copy.source
  rw [List.length_take] at most
  omega

theorem Piece.lostStreams {dstv srcv : Bufvec} {s t : Sys} {len n lost : Nat}
    (piece : Piece haveSplice flags dstv srcv s t len n lost) :
    ∀ c ∈ (srcv.rest.drop n).take lost, c.isStream = true := by
  have streams := piece.streams
  rw [List.drop_take,List.take_take,Nat.min_eq_left (by have := piece.short; omega)] at streams
  exact streams

theorem Piece.whole {dstv srcv : Bufvec} {s t : Sys} {len n lost : Nat}
    (piece : Piece haveSplice flags dstv srcv s t len n lost) :
    Copied s.world t.world srcv.rest dstv.rest n lost := by
  have more := piece.copy.extend (srcv.rest.drop len) (dstv.rest.drop len)
  rw [List.take_append_drop,List.take_append_drop] at more
  exact more

theorem Piece.meets {dstv srcv : Bufvec} {s t : Sys} {len n lost : Nat}
    (piece : Piece haveSplice flags dstv srcv s t len n lost) (some : 0 < lost) :
    Bounced haveSplice flags srcv.rest dstv.rest := by
  obtain ⟨free,p,inside,stream⟩ := piece.bounced some
  refine ⟨free,p,?_,stream⟩
  rw [List.zip,← List.take_zipWith] at inside
  exact List.mem_of_mem_take inside

section
variable {dstv srcv dstv' srcv' : Bufvec} {copied : Nat} {s s' : Sys} {r : SSize} {n m lost : Nat}

theorem Runs.source (runs : Runs haveSplice flags dstv srcv copied s r dstv' srcv' s' n m lost) :
    srcv'.rest = srcv.rest.drop n := by
  induction runs with
  | ended none => rfl
  | failed errno piece descriptor => rfl
  | srcEnds piece source => exact source.rest
  | dstEnds piece source dest => exact source.rest
  | short piece source dest less => exact source.rest
  | more piece source dest later ih => rw [ih,source.rest,List.drop_drop]

theorem Runs.sourceBuf (runs : Runs haveSplice flags dstv srcv copied s r dstv' srcv' s' n m lost) :
    srcv'.buf = srcv.buf := by
  induction runs with
  | ended none => rfl
  | failed errno piece descriptor => rfl
  | srcEnds piece source => exact source.buf
  | dstEnds piece source dest => exact source.buf
  | short piece source dest less => exact source.buf
  | more piece source dest later ih => exact ih.trans source.buf

theorem Runs.dest (runs : Runs haveSplice flags dstv srcv copied s r dstv' srcv' s' n m lost) :
    dstv'.rest = dstv.rest.drop m ∧ m ≤ n := by
  induction runs with
  | ended none => exact ⟨rfl,Nat.le_refl _⟩
  | failed errno piece descriptor => exact ⟨rfl,Nat.le_refl _⟩
  | srcEnds piece source => exact ⟨rfl,Nat.zero_le _⟩
  | dstEnds piece source dest => exact ⟨dest.rest,Nat.le_refl _⟩
  | short piece source dest less => exact ⟨dest.rest,Nat.le_refl _⟩
  | more piece source dest later ih => exact ⟨by rw [ih.1,dest.rest,List.drop_drop],Nat.add_le_add_left ih.2 _⟩

theorem Runs.sound (runs : Runs haveSplice flags dstv srcv copied s r dstv' srcv' s' n m lost) (sound : dstv.Sound) :
    dstv'.Sound ∧ dstv'.buf = dstv.buf := by
  induction runs with
  | ended none => exact ⟨sound,rfl⟩
  | failed errno piece descriptor => exact ⟨sound,rfl⟩
  | srcEnds piece source => exact ⟨sound,rfl⟩
  | dstEnds piece source dest => exact ⟨dest.sound,dest.buf⟩
  | short piece source dest less => exact ⟨dest.sound,dest.buf⟩
  | more piece source dest later ih =>
    obtain ⟨sound',buf⟩ := ih dest.sound
    exact ⟨sound',buf.trans dest.buf⟩

theorem Runs.copy (runs : Runs haveSplice flags dstv srcv copied s r dstv' srcv' s' n m lost)
    (apart : Apart srcv.rest dstv.rest) : Copied s.world s'.world srcv.rest dstv.rest n lost := by
  induction runs with
  | ended none => exact Copied.none _ _ _
  | failed errno piece descriptor => exact piece.whole
  | srcEnds piece source => exact piece.whole
  | dstEnds piece source dest => exact piece.whole
  | short piece source dest less => exact piece.whole
  | @more dstv srcv u u' copied s t len r dstv' srcv' s' n m lost piece source dest later ih =>
    have behind := ih (by
      rw [source.rest,dest.rest]
      exact apart.mono (fun _ => List.mem_of_mem_drop) fun _ => List.mem_of_mem_drop)
    have length : (srcv.rest.take len).length = len := by rw [List.length_take,Nat.min_eq_left piece.source]
    have length' : (dstv.rest.take len).length = len := by rw [List.length_take,Nat.min_eq_left piece.dest]
    have first : t.world = s.world.transfer (srcv.rest.take len) (dstv.rest.take len) := by
      have world := piece.copy.world
      rw [List.take_take,List.take_take,Nat.min_self] at world
      exact world
    rw [first,source.rest,dest.rest] at behind
    have unread : Apart (srcv.rest.drop len) (dstv.rest.take len) :=
      apart.mono (fun _ => List.mem_of_mem_drop) fun _ => List.mem_of_mem_take
    have all := Copied.append (length.trans length'.symm) unread behind
    rw [length,List.take_append_drop,List.take_append_drop] at all
    exact all

theorem Runs.result (runs : Runs haveSplice flags dstv srcv copied s r dstv' srcv' s' n m lost)
    (fits : copied + min srcv.rest.length dstv.rest.length < 2 ^ 63) : Added r copied n := by
  have least {a b k : Nat} (less : k ≤ a) (less' : k ≤ b) : k ≤ min a b := Nat.le_min.mpr ⟨less,less'⟩
  induction runs with
  | ended none => exact addedNothing (Nat.lt_of_le_of_lt (Nat.le_add_right _ _) fits)
  | @failed dstv srcv copied s t len lost errno piece descriptor =>
    split
    · rename_i zero
      exact .inr ⟨zero,rfl,errno,rfl⟩
    · exact addedNothing (Nat.lt_of_le_of_lt (Nat.le_add_right _ _) fits)
  | srcEnds piece source | dstEnds piece source dest | short piece source dest less =>
    have most := least piece.source piece.dest
    have short := piece.short
    exact .inl (ssizeFits (by omega))
  | more piece source dest later ih =>
    have most := least piece.source piece.dest
    refine (ih ?_).before
    rw [source.rest,dest.rest,List.length_drop,List.length_drop,Nat.sub_min_sub_right]
    omega

theorem Runs.memory (runs : Runs haveSplice flags dstv srcv copied s r dstv' srcv' s' n m lost) (mem : srcv.InMemory)
    (mem' : dstv.InMemory) : n = min srcv.rest.length dstv.rest.length := by
  induction runs with
  | ended none => obtain none | none := none <;> simp [none]
  | failed errno piece descriptor => exact absurd mem' (descriptor mem)
  | srcEnds piece source =>
    have all := (source.ended rfl).1
    have less := Nat.le_trans (Nat.le_add_right _ _) (Nat.le_trans piece.short piece.dest)
    omega
  | dstEnds piece source dest =>
    have all := (dest.ended rfl).1
    have less := Nat.le_trans (Nat.le_add_right _ _) (Nat.le_trans piece.short piece.source)
    omega
  | short piece source dest less => exact absurd (piece.memory mem mem') (Nat.ne_of_lt less)
  | more piece source dest later ih =>
    have behind := ih (by rw [Bufvec.InMemory,source.buf]; exact mem) (by rw [Bufvec.InMemory,dest.buf]; exact mem')
    have most := Nat.le_min.mpr ⟨piece.source,piece.dest⟩
    rw [source.rest,dest.rest,List.length_drop,List.length_drop,Nat.sub_min_sub_right] at behind
    omega

theorem Runs.fine (runs : Runs haveSplice flags dstv srcv copied s r dstv' srcv' s' n m lost) (mem : srcv.InMemory)
    (mem' : dstv.InMemory) : r = ssize (copied + n) := by
  induction runs with
  | ended none => rfl
  | failed errno piece descriptor => exact absurd mem' (descriptor mem)
  | srcEnds piece source => rfl
  | dstEnds piece source dest => rfl
  | short piece source dest less => rfl
  | more piece source dest later ih =>
    rw [ih (by rw [Bufvec.InMemory,source.buf]; exact mem) (by rw [Bufvec.InMemory,dest.buf]; exact mem'),Nat.add_assoc]

theorem Runs.bounced (runs : Runs haveSplice flags dstv srcv copied s r dstv' srcv' s' n m lost) (some : 0 < lost) :
    Bounced haveSplice flags srcv.rest dstv.rest := by
  induction runs with
  | ended none => cases some
  | failed errno piece descriptor => exact piece.meets some
  | srcEnds piece source => exact piece.meets some
  | dstEnds piece source dest => exact piece.meets some
  | short piece source dest less => exact piece.meets some
  | @more dstv srcv u u' copied s t len r dstv' srcv' s' n m lost piece source dest later ih =>
    have behind := ih some
    rw [source.rest,dest.rest] at behind
    have same : (srcv.rest.take len).length = (dstv.rest.take len).length := by
      rw [List.length_take,List.length_take,Nat.min_eq_left piece.source,Nat.min_eq_left piece.dest]
    have all := behind.behind same
    rw [List.take_append_drop,List.take_append_drop] at all
    exact all

theorem Runs.streams (runs : Runs haveSplice flags dstv srcv copied s r dstv' srcv' s' n m lost) :
    ∀ c ∈ (srcv.rest.drop n).take lost, c.isStream = true := by
  induction runs with
  | ended none => nofun
  | failed errno piece descriptor => exact piece.lostStreams
  | srcEnds piece source => exact piece.lostStreams
  | dstEnds piece source dest => exact piece.lostStreams
  | short piece source dest less => exact piece.lostStreams
  | more piece source dest later ih =>
    rw [source.rest,List.drop_drop] at ih
    exact ih

/- A source that ends with bytes in its last segment keeps the destination from being moved on. -/
theorem Runs.follows (runs : Runs haveSplice flags dstv srcv copied s r dstv' srcv' s' n m lost) (mem : srcv.InMemory)
    (mem' : dstv.InMemory) : m = n ↔ srcv.lastLeft = 0 ∨ dstv.rest.length < srcv.rest.length := by
  induction runs with
  | @ended dstv srcv copied s none =>
    have less := lastLeftLess srcv
    obtain none | none := none
    · rw [none] at less
      exact iff_of_true rfl (.inl (Nat.le_zero.mp less))
    · rw [none,List.length_nil]
      exact iff_of_true rfl (by omega)
  | failed errno piece descriptor => exact absurd mem' (descriptor mem)
  | @srcEnds dstv srcv u copied s t len n lost piece source =>
    obtain ⟨all,last⟩ := source.ended rfl
    have short := piece.short
    have room := piece.dest
    omega
  | @dstEnds dstv srcv u u' copied s t len n lost piece source dest =>
    obtain ⟨all,-⟩ := dest.ended rfl
    have last := source.last rfl
    have left := lastLeftLess u
    rw [source.rest,List.length_drop] at left
    have room := piece.source
    have short := piece.short
    refine iff_of_true rfl ?_
    by_cases less : dstv.rest.length < srcv.rest.length
    · exact .inr less
    · exact .inl (last.mp (by omega))
  | short piece source dest less => exact absurd (piece.memory mem mem') (Nat.ne_of_lt less)
  | more piece source dest later ih =>
    have behind := ih (by rw [Bufvec.InMemory,source.buf]; exact mem) (by rw [Bufvec.InMemory,dest.buf]; exact mem')
    rw [source.last rfl,source.rest,dest.rest,List.length_drop,List.length_drop] at behind
    have room := piece.source
    have room' := piece.dest
    omega

end

end

end FuseStudy.BufCopy
