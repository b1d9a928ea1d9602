import FuseStudy.HeldPaths
import FuseStudy.PathRetries
import FuseStudy.StrCalls

/-! The buffer that try_get_path fills from its end, byte by byte: add_name moves what is
written to the end of a larger buffer when a name does not fit. -/
namespace FuseStudy.NodeStore
open CString LinearHash Forest StrCalls

/- buf, the variable bufsize, and the offset of s in buf. -/
structure PathBuf where
  buf : Bytes
  bufsize : Nat
  s : Nat
  deriving DecidableEq, Repr

/- An access outside an object, or a loop that does not end, next to the faults of the table. -/
inductive Crash where
  | fault (fault : Fault)
  | outside
  deriving DecidableEq

def sound {α : Type} : Except Fault α → Except Crash α
  | .ok a => .ok a
  | .error fault => .error (.fault fault)

def inside {α : Type} : Option α → Except Crash α
  | some a => .ok a
  | none => .error .outside

def readAt (object : Bytes) (i n : Nat) : Option Bytes :=
  if i + n ≤ object.length then some ((object.drop i).take n) else none

/- What fresh memory holds: sizes only grow while a path is built, so a size tells the allocations apart. -/
abbrev Junk := Nat → Nat → UInt8

def Junk.realloc (junk : Junk) (buf : Bytes) (size : Nat) : Bytes :=
  buf.take size ++ (List.range' buf.length (size - buf.length)).map (junk size)

/- The unsigned pathlen, and the loop over newbufsize. -/
def PathBuf.pathlen (b : PathBuf) : Nat := (b.bufsize - b.s) % 2 ^ 32

def PathBuf.newbufsize (b : PathBuf) (len : Nat) : Option Nat :=
  let need := b.pathlen + len + 1
  let size := growBuf 32 b.bufsize need
  -- short of this the loop goes on for ever
  if need ≤ size then some size else none

def PathBuf.regrown (b : PathBuf) (junk : Junk) (size : Nat) : Option PathBuf := do
  let newbuf := junk.realloc b.buf size
  let path ← readAt newbuf (b.bufsize - b.pathlen) b.pathlen
  let s := size - b.pathlen
  let newbuf ← overwrite newbuf s path
  some ⟨newbuf,size,s⟩

def PathBuf.prepend (b : PathBuf) (name : Bytes) (len : Nat) : Option PathBuf :=
  if len < b.s then do
    let s := b.s - len
    let bytes ← readAt name 0 len
    let buf ← overwrite b.buf s bytes
    let s := s - 1
    let buf ← overwrite buf s [slash]
    some ⟨buf,b.bufsize,s⟩
  else none

def Fuse.addNameBytes (s : Fuse) (junk : Junk) (b : PathBuf) (name : Bytes) : Except Crash (Fuse × Option PathBuf) := do
  let len ← inside (strlen name)
  if b.s ≤ len then
    let size ← inside (b.newbufsize len)
    let (grown,s) := s.takeMem
    if grown then
      let b ← inside (b.regrown junk size)
      let b ← inside (b.prepend name len)
      .ok (s,some b)
    else .ok (s,none)
  else
    let b ← inside (b.prepend name len)
    .ok (s,some b)

def walkBytes (junk : Junk) (needLock : Bool) : Nat → Fuse → Ptr → PathBuf →
    Except Crash (Fuse × Except (Int × Ptr) PathBuf)
  | 0, _, _, _ => .error (.fault .diverges)
  | fuel+1, s, p, b => do
    let n ← sound (s.deref p)
    if n.nodeid = rootId then .ok (s,.ok b)
    else match n.name,n.parent with
      | some name,some parent =>
        let (s,added) ← s.addNameBytes junk b (name ++ [0])
        match added with
        | none => .ok (s,.error (-enomem,p))
        | some b =>
          if needLock then
            if n.treelock < 0 then .ok (s,.error (-eagain,p))
            else walkBytes junk needLock fuel (s.put p {n with treelock := n.treelock + 1}) parent b
          else walkBytes junk needLock fuel s parent b
      | _,_ => .ok (s,.error (-estale,p))

/- *path: memmove to the start of buf, or strcpy of "/" when nothing was written. -/
def PathBuf.finish (b : PathBuf) : Option Bytes := do
  let first ← readAt b.buf b.s 1
  if first ≠ [0] then
    let path ← readAt b.buf b.s (b.bufsize - b.s)
    overwrite b.buf 0 path
  else overwrite b.buf 0 [slash,0]

def startBytes (junk : Junk) : Option PathBuf := do
  let buf ← overwrite (junk.realloc [] 256) 255 [0]
  some ⟨buf,256,255⟩

def Fuse.startBufBytes (s : Fuse) (junk : Junk) (name : Option Name) : Except Crash (Fuse × Option PathBuf) := do
  let b ← inside (startBytes junk)
  match name with
  | none => .ok (s,some b)
  | some name => s.addNameBytes junk b (name ++ [0])

def Fuse.tryGetPathBytes (s : Fuse) (junk : Junk) (want : Want) (needLock : Bool) :
    Except Crash (Fuse × Except Int (Bytes × Option Ptr)) := do
  let (allocated,s) := s.takeMem
  if !allocated then .ok (s,.error (-enomem))
  else
    let (s,started) ← s.startBufBytes junk want.name
    match started with
    | none => .ok (s,.error (-enomem))
    | some b =>
      if want.write ∧ !needLock then .error (.fault .needLock)
      else
        let (s,wnode) ← sound (s.lockWnode want)
        match wnode with
        | none => .ok (s,.error (-eagain))
        | some wnode =>
          let p ← sound (s.getNode want.nodeid)
          let (s,walked) ← walkBytes junk needLock (s.brk+1) s p b
          match walked with
          | .ok b =>
            let path ← inside b.finish
            .ok (s,.ok (path,wnode))
          | .error (err,stopped) =>
            let s ← if needLock then sound (s.unlockPath want.nodeid wnode (some stopped)) else .ok s
            .ok (s,.error err)

variable {s s' : Fuse} {b : PathBuf} {bufsize : Nat} {path name : Bytes} {junk : Junk}

structure PathBuf.Holds (b : PathBuf) (bufsize : Nat) (path : Bytes) : Prop where
  size : b.bufsize = bufsize
  room : 256 ≤ bufsize ∧ bufsize ≤ 0xffffffff
  text : ∃ front, b.buf = front ++ path ++ [0] ∧ front.length = b.s
  whole : b.buf.length = bufsize

theorem overwriteMiddle {front old back bytes : Bytes} {i : Nat} (at_ : front.length = i)
    (same : old.length = bytes.length) :
    overwrite (front ++ old ++ back) i bytes = some (front ++ bytes ++ back) := by
  subst at_
  have fits : front.length + bytes.length ≤ (front ++ old ++ back).length := by
    simp only [List.length_append]
    omega
  rw [overwrite,if_pos fits,← same]
  simp [List.append_assoc]

theorem readMiddle {front bytes back : Bytes} {i n : Nat} (at_ : front.length = i) (long : bytes.length = n) :
    readAt (front ++ bytes ++ back) i n = some bytes := by
  subst at_ long
  have fits : front.length + bytes.length ≤ (front ++ bytes ++ back).length := by
    simp only [List.length_append]
    omega
  rw [readAt,if_pos fits]
  simp [List.append_assoc]

theorem cutAt (bytes : Bytes) {i n : Nat} (fits : i + n ≤ bytes.length) :
    ∃ front middle back, bytes = front ++ middle ++ back ∧ front.length = i ∧ middle.length = n := by
  refine ⟨bytes.take i,(bytes.drop i).take n,(bytes.drop i).drop n,?_,?_,?_⟩
  · rw [List.append_assoc,List.take_append_drop,List.take_append_drop]
  · rw [List.length_take]
    omega
  · rw [List.length_take,List.length_drop]
    omega

theorem growBufEnough (fuel : Nat) {size need : Nat} (most : size ≤ 0xffffffff) (needs : need ≤ 0xffffffff)
    (fueled : 0xffffffff ≤ size * 2 ^ fuel) :
    need ≤ growBuf fuel size need ∧ growBuf fuel size need ≤ 0xffffffff ∧ size ≤ growBuf fuel size need := by
  induction fuel generalizing size with
  | zero =>
    simp only [growBuf]
    omega
  | succ fuel ih =>
    unfold growBuf
    split
    · rw [Nat.pow_succ,Nat.mul_comm (2 ^ fuel),← Nat.mul_assoc] at fueled
      split
      · have pos := Nat.one_le_two_pow (n := fuel)
        obtain ⟨enough,fits,_⟩ := ih (Nat.le_refl 0xffffffff) (Nat.le_mul_of_pos_right _ pos)
        exact ⟨enough,fits,by omega⟩
      · obtain ⟨enough,fits,_⟩ := ih (show size * 2 ≤ 0xffffffff by omega) fueled
        exact ⟨enough,fits,by omega⟩
    · omega

theorem PathBuf.Holds.lengths (holds : b.Holds bufsize path) :
    b.s + path.length + 1 = bufsize ∧ b.pathlen = path.length + 1 := by
  obtain ⟨size,room,⟨front,text,start⟩,whole⟩ := holds
  have parts := congrArg List.length text
  simp only [List.length_append,List.length_singleton] at parts
  have pathlen : b.bufsize - b.s = path.length + 1 := by omega
  refine ⟨by omega,?_⟩
  rw [PathBuf.pathlen,pathlen,Nat.mod_eq_of_lt (by omega)]

theorem prependHolds (name : Bytes) (holds : b.Holds bufsize path) (fits : name.length < b.s) :
    ∃ b', b.prepend (name ++ [0]) name.length = some b' ∧ b'.Holds bufsize (slash :: (name ++ path)) := by
  obtain ⟨size,room,⟨front,text,start⟩,whole⟩ := holds
  obtain ⟨before,old,after,rfl,beforeLen,oldLen⟩ := cutAt front
    (show b.s - name.length - 1 + (name.length + 1) ≤ front.length by omega)
  obtain ⟨c,old,rfl⟩ := List.exists_cons_of_length_eq_add_one oldLen
  have none : after = [] := by
    simp only [List.length_append] at start
    exact List.length_eq_zero_iff.mp (by omega)
  subst none
  simp only [List.length_cons,Nat.add_right_cancel_iff] at oldLen
  have bytes : readAt (name ++ [0]) 0 name.length = some name := by
    have read : readAt ([] ++ name ++ [0]) 0 name.length = some name := readMiddle rfl rfl
    exact read
  have first : overwrite b.buf (b.s - name.length) name = some (before ++ [c] ++ name ++ (path ++ [0])) := by
    rw [text,show before ++ c :: old ++ [] ++ path ++ [0] = before ++ [c] ++ old ++ (path ++ [0]) by simp]
    exact overwriteMiddle (by simp only [List.length_append,List.length_singleton]; omega) oldLen
  have second : overwrite (before ++ [c] ++ name ++ (path ++ [0])) (b.s - name.length - 1) [slash] =
      some (before ++ [slash] ++ (name ++ (path ++ [0]))) := by
    rw [List.append_assoc _ name]
    exact overwriteMiddle beforeLen rfl
  refine ⟨⟨before ++ [slash] ++ (name ++ (path ++ [0])),b.bufsize,b.s - name.length - 1⟩,?_,size,room,
    ⟨before,?_,beforeLen⟩,?_⟩
  · simp only [PathBuf.prepend,if_pos fits,bytes,first,second,bind,Option.bind]
  · simp
  · rw [text] at whole
    simp only [List.length_append,List.length_cons,List.length_nil] at whole ⊢
    omega

theorem regrownHolds (junk : Junk) (holds : b.Holds bufsize path) {size : Nat} (larger : bufsize ≤ size)
    (most : size ≤ 0xffffffff) :
    ∃ b', b.regrown junk size = some b' ∧ b'.Holds size path ∧ b'.s = size - (path.length + 1) := by
  obtain ⟨sum,pathlen⟩ := holds.lengths
  obtain ⟨same,room,⟨front,text,start⟩,whole⟩ := holds
  have grownLen : (junk.realloc b.buf size).length = size := by
    simp only [Junk.realloc,List.length_append,List.length_take,List.length_map,List.length_range']
    omega
  have read : readAt (junk.realloc b.buf size) (b.bufsize - b.pathlen) b.pathlen = some (path ++ [0]) := by
    rw [Junk.realloc,List.take_of_length_le (by omega),text,List.append_assoc front]
    exact readMiddle (by omega) (by simp only [List.length_append,List.length_singleton]; omega)
  obtain ⟨before,old,after,cut,beforeLen,oldLen⟩ := cutAt (junk.realloc b.buf size)
    (show size - b.pathlen + (path.length + 1) ≤ (junk.realloc b.buf size).length by omega)
  have none : after = [] := by
    have parts := congrArg List.length cut
    simp only [List.length_append] at parts
    exact List.length_eq_zero_iff.mp (by omega)
  subst none
  have moved : overwrite (junk.realloc b.buf size) (size - b.pathlen)
      (path ++ [0]) = some (before ++ (path ++ [0]) ++ []) := by
    rw [cut]
    exact overwriteMiddle beforeLen (by simp only [List.length_append,List.length_singleton]; omega)
  refine ⟨⟨before ++ (path ++ [0]) ++ [],size,size - b.pathlen⟩,?_,⟨rfl,by omega,⟨before,by simp,beforeLen⟩,?_⟩,?_⟩
  · simp only [PathBuf.regrown,read,moved,bind,Option.bind]
  · simp only [List.length_append,List.length_singleton,List.length_nil]
    omega
  · simp only [pathlen]

/- add_name writes inside the buffer, and what the list model says it writes. -/
theorem addNameBytesHolds (noNul : 0 ∉ name) (holds : b.Holds bufsize path)
    (short : path.length + name.length + 2 ≤ 0xffffffff) :
    ∃ s' r, s.addName bufsize path name = (s',r) ∧
      ((r = none ∧ s.addNameBytes junk b (name ++ [0]) = .ok (s',none)) ∨
      ∃ bufsize' b', r = some (bufsize',slash :: (name ++ path)) ∧
        s.addNameBytes junk b (name ++ [0]) = .ok (s',some b') ∧ b'.Holds bufsize' (slash :: (name ++ path))) := by
  obtain ⟨sum,pathlen⟩ := holds.lengths
  have len : strlen (name ++ [0]) = some name.length := strlenText noNul []
  unfold Fuse.addName Fuse.addNameBytes
  rw [len]
  simp only [inside,bind,Except.bind]
  by_cases full : b.s ≤ name.length
  · rw [if_pos full,if_pos (show bufsize ≤ path.length + 1 + name.length by omega)]
    obtain ⟨enough,most,larger⟩ :=
      growBufEnough 32 holds.room.2 (show path.length + 1 + name.length + 1 ≤ 0xffffffff by omega)
      (show 0xffffffff ≤ bufsize * 2 ^ 32 by have low := holds.room.1; omega)
    have size : b.newbufsize name.length = some (growBuf 32 bufsize (path.length + 1 + name.length + 1)) := by
      simp only [PathBuf.newbufsize,holds.size,pathlen,if_pos enough]
    rw [size]
    simp only
    cases s.takeMem with
    | mk grown s₁ =>
      cases grown with
      | false => exact ⟨_,_,rfl,.inl ⟨rfl,rfl⟩⟩
      | true =>
        obtain ⟨b₁,regrown,holds₁,start⟩ := regrownHolds junk holds larger most
        obtain ⟨b₂,added,holds₂⟩ := prependHolds name holds₁ (by omega)
        refine ⟨_,_,rfl,.inr ⟨_,b₂,rfl,?_,holds₂⟩⟩
        simp only [if_true,regrown,added]
  · rw [if_neg full,if_neg (show ¬ bufsize ≤ path.length + 1 + name.length by omega)]
    obtain ⟨b₁,added,holds₁⟩ := prependHolds name holds (by omega)
    exact ⟨_,_,rfl,.inr ⟨_,b₁,rfl,by simp only [added],holds₁⟩⟩

inductive Mirrors :
    Except Fault (Fuse × Except (Int × Ptr) Bytes) → Except Crash (Fuse × Except (Int × Ptr) PathBuf) → Prop
  | fault (fault : Fault) : Mirrors (.error fault) (.error (.fault fault))
  | stopped (s : Fuse) (why : Int × Ptr) : Mirrors (.ok (s,.error why)) (.ok (s,.error why))
  | arrived (s : Fuse) {b : PathBuf} {bufsize : Nat} {path : Bytes} (holds : b.Holds bufsize path) (noNul : 0 ∉ path) :
      Mirrors (.ok (s,.ok path)) (.ok (s,.ok b))

/- Every part of the way up from p is written with names that are C strings, and fits. -/
def Fits (s : Fuse) (p : Ptr) (path : Bytes) : Prop :=
  ∀ l stop, Climb (upOf s.heap) p l stop → (∀ e ∈ l, 0 ∉ e.2) ∧ (pathAlong l path).length + 1 ≤ 0xffffffff

variable {p q : Ptr}

theorem Fits.link (fits : Fits s p path) (link : upOf s.heap p = some (name,q)) :
    0 ∉ name ∧ path.length + name.length + 2 ≤ 0xffffffff ∧ Fits s q (slash :: (name ++ path)) := by
  obtain ⟨noNul,short⟩ := fits _ _ (.step link (.here q))
  simp only [pathAlong,List.length_cons,List.length_append] at short
  refine ⟨noNul (p,name) List.mem_cons_self,by omega,fun l stop climb => ?_⟩
  obtain ⟨plain,whole⟩ := fits _ _ (.step link climb)
  exact ⟨fun e inside => plain e (List.mem_cons_of_mem _ inside),whole⟩

theorem Fits.congr (fits : Fits s p path) (same : upOf s'.heap = upOf s.heap) : Fits s' p path := by
  unfold Fits
  rw [same]
  exact fits

theorem addNameHeap (s : Fuse) (bufsize : Nat) (path name : Bytes) : (s.addName bufsize path name).1.heap = s.heap := by
  obtain ⟨memory,failed | ⟨grown,added⟩⟩ := addNameSpec s bufsize path name
  · rw [failed]
  · rw [added]

/- Induction on the fuel, as the walks go. -/
theorem walkBytesMirrors (junk : Junk) (needLock : Bool) (fuel : Nat) (fits : Fits s p path)
    (holds : b.Holds bufsize path) (plain : 0 ∉ path) :
    Mirrors (walkPath needLock fuel s p bufsize path) (walkBytes junk needLock fuel s p b) := by
  induction fuel generalizing s p b bufsize path with
  | zero => exact .fault _
  | succ fuel ih =>
    unfold walkPath walkBytes
    cases live : s.heap p with
    | none =>
      rw [Fuse.deref,live]
      exact .fault _
    | some n =>
      rw [derefOk live]
      simp only [sound,bind,Except.bind]
      by_cases root : n.nodeid = rootId
      · rw [if_pos root,if_pos root]
        exact .arrived s holds plain
      rw [if_neg root,if_neg root]
      rcases Option.eq_none_or_eq_some n.name with noName | ⟨name,named⟩
      · simp only [noName]
        exact .stopped s _
      rcases Option.eq_none_or_eq_some n.parent with noParent | ⟨q,parent⟩
      · simp only [named,noParent]
        exact .stopped s _
      have link : upOf s.heap p = some (name,q) := upIff.mpr ⟨n,live,root,named,parent⟩
      obtain ⟨noNul,short,above⟩ := fits.link link
      simp only [named,parent]
      obtain ⟨s₁,r,added,⟨rfl,full⟩ | ⟨grown,b₁,rfl,wrote,holds₁⟩⟩ := addNameBytesHolds noNul holds short
      · rw [added,full]
        exact .stopped s₁ _
      rw [added,wrote]
      simp only
      have heap : s₁.heap = s.heap := by
        rw [← addNameHeap s bufsize path name,added]
      have plain₁ : 0 ∉ slash :: (name ++ path) := by
        rw [List.mem_cons,List.mem_append,not_or,not_or]
        exact ⟨by decide,noNul,plain⟩
      cases needLock with
      | false => exact ih (above.congr (by rw [heap])) holds₁ plain₁
      | true =>
        simp only [if_true]
        split
        · exact .stopped s₁ _
        · refine ih (above.congr ?_) holds₁ plain₁
          have same : n.SameEntry {n with treelock := n.treelock + 1, name := some name, parent := some q} :=
            ⟨rfl,named.symm,parent.symm⟩
          have alive : s₁.heap p = some n := heap ▸ live
          rw [upPut alive same,heap]

theorem startHolds (junk : Junk) : ∃ b, startBytes junk = some b ∧ b.Holds 256 [] := by
  have long : (junk.realloc [] 256).length = 256 := by
    simp only [Junk.realloc,List.length_append,List.length_take,List.length_map,List.length_range',List.length_nil]
    omega
  obtain ⟨front,old,back,cut,frontLen,oldLen⟩ := cutAt (junk.realloc [] 256) (show 255 + 1 ≤ _ by rw [long])
  have none : back = [] := by
    have parts := congrArg List.length cut
    simp only [List.length_append] at parts
    exact List.length_eq_zero_iff.mp (by omega)
  subst none
  have closed : overwrite (junk.realloc [] 256) 255 [0] = some (front ++ [0] ++ []) := by
    rw [cut]
    exact overwriteMiddle frontLen oldLen
  refine ⟨⟨front ++ [0] ++ [],256,255⟩,?_,rfl,⟨by decide,by decide⟩,⟨front,by simp,frontLen⟩,?_⟩
  · simp only [startBytes,closed,bind,Option.bind]
  · simp only [List.length_append,List.length_singleton,List.length_nil,frontLen]

theorem finishHolds (holds : b.Holds bufsize path) (noNul : 0 ∉ path) :
    ∃ object, b.finish = some object ∧ Terminated object (finishPath path) := by
  obtain ⟨sum,_⟩ := holds.lengths
  obtain ⟨size,room,⟨front,text,start⟩,whole⟩ := holds
  unfold finishPath
  cases path with
  | nil =>
    have first : readAt b.buf b.s 1 = some [0] := by
      rw [text,List.append_nil]
      have read : readAt (front ++ [0] ++ []) b.s 1 = some [0] := readMiddle start rfl
      rwa [List.append_nil] at read
    obtain ⟨before,old,back,cut,beforeLen,oldLen⟩ := cutAt b.buf (show 0 + 2 ≤ b.buf.length by omega)
    cases List.length_eq_zero_iff.mp beforeLen
    refine ⟨[] ++ [slash,0] ++ back,?_,by decide,back,rfl⟩
    simp only [PathBuf.finish,first,bind,Option.bind,ne_eq,not_true_eq_false,if_false]
    rw [cut]
    exact overwriteMiddle rfl oldLen
  | cons c path =>
    have first : readAt b.buf b.s 1 = some [c] := by
      rw [text,show front ++ c :: path ++ [0] = front ++ [c] ++ (path ++ [0]) by simp]
      exact readMiddle start rfl
    have visible : [c] ≠ [0] := by
      intro zero
      cases zero
      exact noNul List.mem_cons_self
    have read : readAt b.buf b.s (b.bufsize - b.s) = some (c :: path ++ [0]) := by
      rw [text,List.append_assoc front]
      have all : readAt (front ++ (c :: path ++ [0]) ++ []) b.s (b.bufsize - b.s) = some (c :: path ++ [0]) :=
        readMiddle start (by simp only [List.length_append,List.length_singleton]; omega)
      rwa [List.append_nil] at all
    obtain ⟨before,old,back,cut,beforeLen,oldLen⟩ := cutAt b.buf
      (show 0 + (c :: path ++ [0]).length ≤ b.buf.length by simp only [List.length_append,List.length_singleton]; omega)
    cases List.length_eq_zero_iff.mp beforeLen
    refine ⟨[] ++ (c :: path ++ [0]) ++ back,?_,noNul,back,by simp⟩
    simp only [PathBuf.finish,first,read,bind,Option.bind,if_pos visible]
    rw [cut]
    exact overwriteMiddle rfl oldLen

inductive MirrorsTry :
    Except Fault (Fuse × Except Int Held) → Except Crash (Fuse × Except Int (Bytes × Option Ptr)) → Prop
  | fault (fault : Fault) : MirrorsTry (.error fault) (.error (.fault fault))
  | refused (s : Fuse) (err : Int) : MirrorsTry (.ok (s,.error err)) (.ok (s,.error err))
  | granted (s : Fuse) (held : Held) {object : Bytes} (text : Terminated object held.path) :
      MirrorsTry (.ok (s,.ok held)) (.ok (s,.ok (object,held.wnode)))

theorem startMirrors (junk : Junk) (s : Fuse) {last : Option Name} (noNul : ∀ name, last = some name → 0 ∉ name)
    (short : (startPath last).length + 1 ≤ 0xffffffff) :
    ∃ s' r, s.startBuf last = (s',r) ∧ ((r = none ∧ s.startBufBytes junk last = .ok (s',none)) ∨
      ∃ bufsize b, r = some (bufsize,startPath last) ∧ s.startBufBytes junk last = .ok (s',some b) ∧
        b.Holds bufsize (startPath last)) := by
  obtain ⟨b,started,holds⟩ := startHolds junk
  unfold Fuse.startBuf Fuse.startBufBytes
  rw [started]
  cases last with
  | none => exact ⟨_,_,rfl,.inr ⟨_,b,rfl,rfl,holds⟩⟩
  | some name =>
    simp only [startPath,List.length_cons,List.length_append,List.length_nil] at short
    obtain ⟨s₁,r,added,cases_⟩ := addNameBytesHolds (noNul name rfl) holds (by simp only [List.length_nil]; omega)
    exact ⟨s₁,r,added,cases_⟩

theorem startPathNoNul {last : Option Name} (noNul : ∀ name, last = some name → 0 ∉ name) : 0 ∉ startPath last := by
  cases last with
  | none => exact List.not_mem_nil
  | some name =>
    rw [startPath,List.append_nil,List.mem_cons,not_or]
    exact ⟨by decide,noNul name rfl⟩

theorem tryGetPathMirrors {extra : Ptr → Nat} {want : Want} (junk : Junk) (tree : Tree extra s) (needLock : Bool)
    (named : want.write = true → want.name ≠ none) (noNul : ∀ name, want.name = some name → 0 ∉ name)
    (short : (startPath want.name).length + 1 ≤ 0xffffffff)
    (fits : ∀ p, s.getNodeNocheck want.nodeid = some p → Fits s p (startPath want.name)) :
    MirrorsTry (s.tryGetPath want needLock) (s.tryGetPathBytes junk want needLock) := by
  unfold Fuse.tryGetPath Fuse.tryGetPathBytes Fuse.takeMem
  cases s.memory 0 with
  | false => exact .refused _ _
  | true =>
    simp only [Bool.not_true,Bool.false_eq_true,if_false]
    obtain ⟨s₁,r,begun,⟨rfl,full⟩ | ⟨bufsize,b,rfl,started,holds⟩⟩ :=
      startMirrors junk {s with memory := fun i => s.memory (i+1)} noNul short
    · simp only [begun,full,bind,Except.bind]
      exact .refused _ _
    obtain ⟨memory,failed | ⟨bufsize',began⟩⟩ := startBufSpec s (fun i => s.memory (i+1)) want.name
    · rw [begun] at failed
      cases failed
    rw [begun] at began
    cases began
    simp only [begun,started,bind,Except.bind]
    split
    · exact .fault _
    obtain ⟨locked,_⟩ | ⟨w,_,_,waits⟩ := lockWnodeSpec tree named memory
    · rw [locked]
      simp only [sound]
      cases found : s.getNodeNocheck want.nodeid with
      | none =>
        have fault : (s.relock (claimed s.lock (want.target s)) memory).getNode want.nodeid = .error .getNode := by
          simp only [Fuse.getNode,getNodeRelock,found]
        rw [fault]
        exact .fault _
      | some p =>
        rw [getNodeOk ((getNodeRelock want.nodeid).trans found)]
        simp only
        have same : upOf (s.relock (claimed s.lock (want.target s)) memory).heap = upOf s.heap :=
          funext fun q => upRelock q
        have walks := walkBytesMirrors junk needLock ((s.relock (claimed s.lock (want.target s)) memory).brk+1)
          ((fits p found).congr same) holds (startPathNoNul noNul)
        generalize walkPath needLock _ _ p bufsize _ = walked at walks
        generalize walkBytes junk needLock _ _ p b = walkedBytes at walks
        cases walks with
        | fault fault => exact .fault fault
        | stopped s₂ why =>
          simp only
          cases needLock with
          | false => exact .refused _ _
          | true =>
            simp only [if_true]
            cases s₂.unlockPath want.nodeid (want.target s) (some why.2) with
            | ok s₃ => exact .refused _ _
            | error fault => exact .fault fault
        | @arrived s₂ b₂ bufsize₂ path₂ holds₂ noNul₂ =>
          obtain ⟨object,finished,text⟩ := finishHolds holds₂ noNul₂
          simp only [finished,inside]
          exact .granted s₂ ⟨want,want.target s,finishPath path₂⟩ text
    · rw [waits]
      exact .refused _ _

end FuseStudy.NodeStore
