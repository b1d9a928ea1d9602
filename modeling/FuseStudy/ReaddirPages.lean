import FuseStudy.DirentBytes
import FuseStudy.ReaddirLookups

/-! A directory read in pages: READDIR requests on one handle, each going on where the last
entry received says. The replies are bytes of a buffer that is kept with the handle. -/
namespace FuseStudy.NodeStore
open CString

/- dh->contents is mem, whatever it holds. -/
structure Handle where
  dh : Dh
  mem : Nat → UInt8

def writeAt (mem : Nat → UInt8) (start : Nat) (bytes : Bytes) : Nat → UInt8 :=
  fun i => if start ≤ i then (bytes[i - start]?).getD (mem i) else mem i

def readUpTo (mem : Nat → UInt8) (len : Nat) : Bytes := (List.range len).map mem

/- The size of the entry is returned also when it does not fit. -/
def addDirentry (mem : Nat → UInt8) (start bufsize : Nat) (e : Packed) : (Nat → UInt8) × Nat :=
  let entlenPadded := direntSize false e.name
  if bufsize < entlenPadded then (mem,entlenPadded) else (writeAt mem start e.dirent,entlenPadded)

/- The loop of readdir_fill_from_list for READDIR. Lengths are unsigned and wrap around. -/
def fillBytes (needlen : Nat) : (Nat → UInt8) → Nat → Int → List Direntry → (Nat → UInt8) × Nat
  | mem, len, _, [] => (mem,len)
  | mem, len, pos, de :: rest =>
    let rem := needlen - len
    let (mem,thislen) := addDirentry mem len rem ⟨0,0,de.stat.ino % 2 ^ 64,pos + 1,fileType de.stat.mode,de.name⟩
    let newlen := (len + thislen % 2 ^ 32) % 2 ^ 32
    if needlen < newlen then (mem,len) else fillBytes needlen mem newlen (pos+1) rest

inductive Answer
  | err (error : Int)
  | buf (bytes : Bytes)

def Fuse.fillPage (s : Fuse) (h : Handle) (off : Int) : Handle × Answer :=
  match s.extendContents {h.dh with len := 0} h.dh.needlen with
  | (_,dh,false) => (⟨dh,h.mem⟩,.err dh.error)
  | (_,dh,true) =>
    let (mem,len) := fillBytes dh.needlen h.mem 0 (min off.toNat dh.first.length) (dh.first.drop off.toNat)
    (⟨{dh with len := len},mem⟩,.buf (readUpTo mem len))

/- fuse_readdir_common with flags 0. -/
def Fuse.libReaddir (s : Fuse) (conf : InoConf) (size : UInt32) (off : Int) (h : Handle) (user : Directory) :
    Except Fault (Handle × Answer) := do
  let dh := h.dh.rewind off
  let (s,dh,err) ← if dh.filled then .ok (s,dh,0) else s.readdirFill conf false size.toNat dh user
  if err ≠ 0 then .ok (⟨dh,h.mem⟩,.err err)
  else if dh.filled then .ok (s.fillPage ⟨{dh with needlen := size.toNat},h.mem⟩ off)
  else
    let bytes := dh.contents.flatMap Packed.dirent
    .ok (⟨dh,writeAt h.mem 0 bytes⟩,.buf bytes)

def Answer.entries : Answer → List Packed
  | .err _ => []
  | .buf bytes => readDirents bytes.length bytes

/- What a request finds: the node table and the memory of its time, and the directory, should
it be read again. -/
structure PageRequest where
  fuse : Fuse
  size : UInt32
  user : Directory

def PageRequest.serve (conf : InoConf) (r : PageRequest) (off : Int) (h : Handle) : Except Fault (Handle × Answer) :=
  r.fuse.libReaddir conf r.size off h r.user

def PageRequest.names (r : PageRequest) : List Name := r.user.fills.map Fill.name

/- The entries the user's readdir passes on, at positions from 1. -/
def PageRequest.listing (conf : InoConf) (dh : Dh) (r : PageRequest) : List Packed :=
  r.user.fills.mapIdx fun i fill =>
    let stat := r.fuse.fillStat conf dh fill
    ⟨0,0,stat.ino % 2 ^ 64,i + 1,fileType stat.mode,fill.name⟩

/- The replies so far of a reader that starts at offset 0 and goes on at the offset of the last
entry received, as long as there is one. Each request is allowed by its size and the names
that are still to come. -/
inductive Reads (conf : InoConf) (allowed : Nat → List Name → Prop) (opened : Handle) (first : PageRequest) :
    Handle → List Answer → Prop
  | first {h : Handle} {answer : Answer} (may : allowed first.size.toNat first.names)
      (served : first.serve conf 0 opened = .ok (h,answer)) : Reads conf allowed opened first h [answer]
  | next {h h' : Handle} {answers : List Answer} {answer : Answer} {r : PageRequest} {e : Packed}
      (before : Reads conf allowed opened first h answers)
      (last : (answers.flatMap Answer.entries).getLast? = some e)
      (may : allowed r.size.toNat (first.names.drop (answers.flatMap Answer.entries).length))
      (served : r.serve conf e.off h = .ok (h',answer)) : Reads conf allowed opened first h' (answers ++ [answer])

def Enough (size : Nat) (names : List Name) : Prop := ∀ name, names.head? = some name → direntSize false name ≤ size

/- The first entry that does not fit does not make the sum of the lengths wrap round to one
that does. -/
def unwrapped (size : Nat) : Nat → List Name → Bool
  | _, [] => true
  | len, name :: rest =>
    if len + direntSize false name ≤ size then unwrapped size (len + direntSize false name) rest
    else decide (size < (len + direntSize false name) % 2 ^ 32)

def Whole (size : Nat) (names : List Name) : Prop := Enough size names ∧ unwrapped size 0 names

variable {conf : InoConf} {s : Fuse} {dh : Dh} {mem : Nat → UInt8}

theorem readWritten (mem : Nat → UInt8) (start : Nat) (bytes : Bytes) :
    readUpTo (writeAt mem start bytes) (start + bytes.length) = readUpTo mem start ++ bytes := by
  apply List.ext_getElem?
  intro i
  simp only [readUpTo,List.getElem?_map,List.getElem?_append,List.length_map,List.length_range]
  by_cases below : i < start
  · rw [List.getElem?_range (by omega),if_pos below,List.getElem?_range below,Option.map_some,writeAt,
      if_neg (Nat.not_le.mpr below),Option.map_some]
  · rw [if_neg below]
    by_cases inside : i < start + bytes.length
    · rw [List.getElem?_range inside,Option.map_some,writeAt,if_pos (Nat.not_lt.mp below),
        List.getElem?_eq_getElem (show i - start < bytes.length by omega),Option.getD_some]
    · rw [List.getElem?_eq_none (by simpa using inside),List.getElem?_eq_none (by omega)]
      rfl

def listed : Int → List Direntry → List Packed
  | _, [] => []
  | pos, de :: rest =>
    ⟨0,0,de.stat.ino % 2 ^ 64,pos + 1,fileType de.stat.mode,de.name⟩ :: listed (pos + 1) rest

theorem listedLength (pos : Int) (entries : List Direntry) : (listed pos entries).length = entries.length := by
  induction entries generalizing pos with
  | nil => rfl
  | cons de rest ih => rw [listed,List.length_cons,ih,List.length_cons]

theorem listedDrop (pos : Int) (entries : List Direntry) (k : Nat) :
    (listed pos entries).drop k = listed (pos + k) (entries.drop k) := by
  induction entries generalizing pos k with
  | nil => simp [listed]
  | cons de rest ih =>
    cases k with
    | zero => simp
    | succ k =>
      rw [listed,List.drop_succ_cons,ih,List.drop_succ_cons]
      congr 1
      omega

theorem listedOff {pos : Int} {entries : List Direntry} {k : Nat} {e : Packed}
    (there : (listed pos entries)[k]? = some e) : e.off = pos + k + 1 := by
  induction entries generalizing pos k with
  | nil => simp [listed] at there
  | cons de rest ih =>
    cases k with
    | zero =>
      cases there
      simp
    | succ k =>
      rw [listed,List.getElem?_cons_succ] at there
      rw [ih there]
      omega

theorem listedPlain {pos : Int} {entries : List Direntry} (start : 0 ≤ pos) (few : pos + entries.length < 2 ^ 64)
    (short : ∀ de ∈ entries, de.name.length < 2 ^ 32) : ∀ e ∈ listed pos entries, e.Plain := by
  induction entries generalizing pos with
  | nil => exact fun e mem => absurd mem (by simp [listed])
  | cons de rest ih =>
    rw [List.length_cons] at few
    intro e mem
    rw [listed,List.mem_cons] at mem
    rcases mem with rfl | later
    · refine ⟨⟨rfl,rfl⟩,Nat.mod_lt _ (by decide),⟨?_,?_⟩,?_,short de List.mem_cons_self⟩
      · simp only
        omega
      · simp only
        omega
      · have small : de.stat.mode % 2 ^ 16 / 2 ^ 12 < 2 ^ 32 := by omega
        exact small
    · exact ih (by omega) (by omega) (fun d m => short d (List.mem_cons_of_mem _ m)) e later

theorem fillBytesFits (mem : Nat → UInt8) (pos : Int) {needlen len : Nat} {entries : List Direntry}
    (small : needlen < 2 ^ 32) (within : len ≤ needlen)
    (below : unwrapped needlen len (entries.map Direntry.name)) :
    ∃ k ≤ entries.length, readUpTo (fillBytes needlen mem len pos entries).1 (fillBytes needlen mem len pos entries).2 =
      readUpTo mem len ++ ((listed pos entries).take k).flatMap Packed.dirent ∧
      (∀ de ∈ entries.take k, direntSize false de.name ≤ needlen) ∧
      (k = 0 → ∀ name, (entries.map Direntry.name).head? = some name → needlen < len + direntSize false name) := by
  induction entries generalizing mem pos len with
  | nil => exact ⟨0,Nat.le_refl _,by simp [fillBytes,listed],by simp,by simp⟩
  | cons de rest ih =>
    simp only [List.map_cons,unwrapped] at below
    simp only [fillBytes,addDirentry]
    by_cases fits : len + direntSize false de.name ≤ needlen
    · rw [if_pos fits] at below
      have room : ¬ needlen - len < direntSize false de.name := by omega
      have newlen : (len + direntSize false de.name % 2 ^ 32) % 2 ^ 32 = len + direntSize false de.name := by omega
      simp only [if_neg room,newlen,if_neg (Nat.not_lt.mpr fits)]
      obtain ⟨k,most,written,sizes,_⟩ := ih (writeAt mem len
        (⟨0,0,de.stat.ino % 2 ^ 64,pos + 1,fileType de.stat.mode,de.name⟩ : Packed).dirent) (pos + 1) fits below
      refine ⟨k+1,Nat.succ_le_succ most,?_,?_,fun zero => absurd zero (Nat.succ_ne_zero k)⟩
      · have first :=
          readWritten mem len (⟨0,0,de.stat.ino % 2 ^ 64,pos + 1,fileType de.stat.mode,de.name⟩ : Packed).dirent
        rw [direntLength] at first
        rw [written,first,listed,List.take_succ_cons,List.flatMap_cons,List.append_assoc]
      · intro d mem
        rw [List.take_succ_cons,List.mem_cons] at mem
        rcases mem with rfl | later
        · omega
        · exact sizes d later
    · rw [if_neg fits,decide_eq_true_iff] at below
      have room : needlen - len < direntSize false de.name := by omega
      have newlen : (len + direntSize false de.name % 2 ^ 32) % 2 ^ 32 = (len + direntSize false de.name) % 2 ^ 32 := by
        omega
      simp only [if_pos room,newlen,if_pos below]
      refine ⟨0,Nat.zero_le _,by simp,by simp,?_⟩
      rintro _ name ⟨⟩
      exact Nat.not_le.mp fits

/- Where nothing wraps round these bytes are those of the entries of fill_list. -/
theorem fillBytesList {pos : Int} {entries : List Direntry} (small : dh.needlen < 2 ^ 32) (within : dh.len ≤ dh.needlen)
    (below : unwrapped dh.needlen dh.len (entries.map Direntry.name)) (inodes : ∀ de ∈ entries, de.stat.ino < 2 ^ 64)
    (start : readUpTo mem dh.len = dh.contents.flatMap Packed.dirent) :
    ∃ dh', fillList conf false s dh pos entries = .ok (s,dh',0) ∧
      readUpTo (fillBytes dh.needlen mem dh.len pos entries).1 (fillBytes dh.needlen mem dh.len pos entries).2 =
        dh'.contents.flatMap Packed.dirent := by
  induction entries generalizing mem dh pos with
  | nil => exact ⟨dh,rfl,start⟩
  | cons de rest ih =>
    have inode := Nat.mod_eq_of_lt (inodes de List.mem_cons_self)
    simp only [List.map_cons,unwrapped] at below
    simp only [fillList,fillBytes,addDirentry,Bool.false_and,Bool.false_eq_true,if_false,bind,Except.bind,inode]
    by_cases fits : dh.len + direntSize false de.name ≤ dh.needlen
    · rw [if_pos fits] at below
      have room : ¬ dh.needlen - dh.len < direntSize false de.name := by omega
      have newlen : (dh.len + direntSize false de.name % 2 ^ 32) % 2 ^ 32 = dh.len + direntSize false de.name := by
        omega
      simp only [if_neg room,newlen,if_neg (Nat.not_lt.mpr fits),if_pos (Nat.not_lt.mp room)]
      have written := readWritten mem dh.len (⟨0,0,de.stat.ino,pos + 1,fileType de.stat.mode,de.name⟩ : Packed).dirent
      rw [direntLength,start] at written
      refine ih small fits below (fun d mem => inodes d (List.mem_cons_of_mem _ mem)) ?_
      rw [written,List.flatMap_append,List.flatMap_singleton]
    · rw [if_neg fits,decide_eq_true_iff] at below
      have room : dh.needlen - dh.len < direntSize false de.name := by omega
      have newlen :
          (dh.len + direntSize false de.name % 2 ^ 32) % 2 ^ 32 = (dh.len + direntSize false de.name) % 2 ^ 32 := by
        omega
      simp only [if_pos room,newlen,if_pos below]
      exact ⟨dh,rfl,start⟩

/- What the list keeps of a call of the filler. -/
def Fuse.direntryOf (s : Fuse) (conf : InoConf) (dh : Dh) (fill : Fill) : Direntry :=
  ⟨fill.name,fill.flags,s.fillStat conf dh fill⟩

theorem listingListed (conf : InoConf) (dh : Dh) (r : PageRequest) :
    r.listing conf dh = listed 0 (r.user.fills.map (r.fuse.direntryOf conf dh)) := by
  have shifted : ∀ (fills : List Fill) (pos : Int), listed pos (fills.map (r.fuse.direntryOf conf dh)) =
      fills.mapIdx fun i fill =>
        ⟨0,0,(r.fuse.fillStat conf dh fill).ino % 2 ^ 64,pos + i + 1,
          fileType (r.fuse.fillStat conf dh fill).mode,fill.name⟩ := by
    intro fills
    induction fills with
    | nil => exact fun pos => rfl
    | cons fill fills ih =>
      intro pos
      rw [List.map_cons,listed,ih,List.mapIdx_cons]
      congr 1
      · simp [Fuse.direntryOf]
      · congr 1
        funext i fill
        congr 1
        omega
  rw [shifted,PageRequest.listing]
  congr 1
  funext i fill
  simp

theorem fillAllListed {fills : List Fill} {r : Fuse × Dh} (plain : ∀ fill ∈ fills, fill.off = 0)
    (ok : fillAll (fun s dh fill => if false then s.fillDirPlus conf dh fill else s.fillDir conf dh fill) s
      dh fills = .ok r)
    (fine : r.2.error = 0) : dh.error = 0 ∧
      r.2 = {dh with first := dh.first ++ fills.map (s.direntryOf conf dh), filled := dh.filled || !fills.isEmpty} := by
  induction fills generalizing s dh with
  | nil =>
    cases ok
    exact ⟨fine,by simp⟩
  | cons fill fills ih =>
    obtain ⟨⟨s',dh',full⟩,first,ok⟩ := callBind ok
    have step : dh'.error ≠ 0 ∨ ∃ memory, s' = {s with memory := memory} ∧
        dh' = {dh with first := dh.first ++ [s.direntryOf conf dh fill], filled := true} ∧ full = false := by
      simp only [Fuse.fillDir,plain fill List.mem_cons_self,ne_eq,not_true_eq_false,if_false,
        Bool.false_eq_true] at first
      by_cases known : (!knownFlags fill.flags) = true
      · rw [if_pos known] at first
        cases first
        exact .inl (show -eio ≠ 0 by decide)
      · rw [if_neg known] at first
        obtain ⟨memory,added⟩ :=
          addDirentrySpec s {dh with filled := true} fill.name (s.fillStat conf dh fill) fill.flags
        split at added
        · rw [added] at first
          cases first
          exact .inr ⟨memory,rfl,rfl,rfl⟩
        · rw [added] at first
          cases first
          exact .inl (show -enomem ≠ 0 by decide)
    have later : dh'.error = 0 ∧ ((full && !fill.insists) = false → r.2 = {dh' with
        first := dh'.first ++ fills.map (s'.direntryOf conf dh'), filled := dh'.filled || !fills.isEmpty}) := by
      simp only at ok
      split at ok
      · rename_i stops
        cases ok
        exact ⟨fine,fun goes => absurd (stops.symm.trans goes) nofun⟩
      · obtain ⟨zero,is⟩ := ih (fun f mem => plain f (List.mem_cons_of_mem _ mem)) ok
        exact ⟨zero,fun _ => is⟩
    obtain ⟨zero,is⟩ := later
    rcases step with bad | ⟨memory,rfl,rfl,rfl⟩
    · exact absurd zero bad
    · refine ⟨zero,(is rfl).trans ?_⟩
      simp only [List.map_cons,List.append_assoc,List.singleton_append,List.isEmpty_cons,Bool.not_false,
        Bool.true_or,Bool.or_true]
      rfl

/- A handle that has the whole directory, and the entries a request at position k gets of it. -/
structure Paged (entries : List Direntry) (k : Nat) (r : Handle × Answer) : Prop where
  filled : r.1.dh.filled
  first : r.1.dh.first = entries
  given : ∃ j, r.2.entries = ((listed 0 entries).drop k).take j
  done : r.2 = .buf [] → entries.length ≤ k

theorem listedTake (pos : Int) (entries : List Direntry) (k : Nat) :
    (listed pos entries).take k = listed pos (entries.take k) := by
  induction entries generalizing pos k with
  | nil => simp [listed]
  | cons de rest ih =>
    cases k with
    | zero => simp [listed]
    | succ k => rw [listed,List.take_succ_cons,ih,List.take_succ_cons,listed]

theorem fillPagePaged {h : Handle} {entries : List Direntry} {k : Nat} (filled : h.dh.filled)
    (first : h.dh.first = entries) (small : h.dh.needlen < 2 ^ 32) (inside : k ≤ entries.length)
    (few : entries.length < 2 ^ 63) (whole : Whole h.dh.needlen ((entries.map Direntry.name).drop k)) :
    Paged entries k (s.fillPage h k) := by
  unfold Fuse.fillPage
  obtain ⟨memory,⟨newsize,extended⟩ | extended⟩ := extendContentsSpec s {h.dh with len := 0} h.dh.needlen
  · rw [extended]
    subst first
    rw [← List.map_drop] at whole
    obtain ⟨enough,below⟩ := whole
    have start : min (k : Int) h.dh.first.length = k := by omega
    have there : (listed 0 h.dh.first).drop k = listed k (h.dh.first.drop k) := by
      rw [listedDrop,Int.zero_add]
    obtain ⟨j,most,written,sizes,unfit⟩ := fillBytesFits h.mem k small (Nat.zero_le _) below
    simp only [Int.toNat_natCast,start]
    rw [show readUpTo h.mem 0 = [] from rfl,List.nil_append] at written
    refine ⟨filled,rfl,⟨j,?_⟩,?_⟩
    · simp only [Answer.entries,written,there]
      refine readDirentsAll ?_ (direntsMany _)
      rw [listedTake]
      apply listedPlain (Int.natCast_nonneg k)
      · rw [List.length_take,List.length_drop]
        omega
      · intro de mem
        have room := sizes de mem
        have padded := (direntAligned de.name).1
        omega
    · intro empty
      simp only [written,Answer.buf.injEq] at empty
      have none : j = 0 := by
        have many := direntsMany ((listed k (h.dh.first.drop k)).take j)
        rw [empty,List.length_nil,List.length_take,listedLength] at many
        omega
      by_contra more
      have next : (h.dh.first.drop k).length ≠ 0 := by
        rw [List.length_drop]
        omega
      obtain ⟨de,head⟩ := List.isSome_head?.mpr (mt List.length_eq_zero_iff.mpr next) |> Option.isSome_iff_exists.mp
      have named : ((h.dh.first.drop k).map Direntry.name).head? = some de.name := by
        rw [List.head?_map,head,Option.map_some]
      have large := enough de.name named
      have unfits := unfit none de.name named
      omega
  · rw [extended]
    exact ⟨filled,first,⟨0,by simp [Answer.entries]⟩,nofun⟩

theorem sizeSmall (size : UInt32) : size.toNat < 2 ^ 32 := size.toNat_lt

theorem serveFirst {opened : Handle} {first : PageRequest} {r : Handle × Answer}
    (plain : ∀ fill ∈ first.user.fills, fill.off = 0) (few : first.user.fills.length < 2 ^ 63)
    (whole : Whole first.size.toNat first.names) (ok : first.serve conf 0 opened = .ok r) :
    (r.2.entries = [] ∧ (r.2 = .buf [] → first.user.fills = [])) ∨
    Paged (first.user.fills.map (first.fuse.direntryOf conf opened.dh)) 0 r := by
  have small := sizeSmall first.size
  have unread : (opened.dh.rewind 0).filled = false := rfl
  unfold PageRequest.serve Fuse.libReaddir at ok
  simp only [unread,Bool.false_eq_true,if_false] at ok
  obtain ⟨⟨s,dh,err⟩,filling,ok⟩ := callBind ok
  by_cases failed : err ≠ 0
  · simp only [if_pos failed] at ok
    cases ok
    exact .inl ⟨rfl,nofun⟩
  simp only [if_neg failed] at ok
  unfold Fuse.readdirFill at filling
  by_cases lost : first.user.pathErr ≠ 0
  · rw [if_pos lost] at filling
    cases filling
    exact absurd lost failed
  rw [if_neg lost] at filling
  obtain ⟨⟨s₁,dh₁⟩,filled,ended⟩ := callBind filling
  simp only at ended
  cases ended
  rw [not_not] at failed
  have fine : dh₁.error = 0 := by
    by_cases bad : first.user.res ≠ 0
    · rw [if_pos bad] at failed
      exact absurd failed bad
    · rwa [if_neg bad] at failed
  simp only [failed,ne_eq,not_true_eq_false,if_false] at ok
  obtain ⟨_,is⟩ := fillAllListed plain filled fine
  simp only [Dh.restart,List.nil_append,Bool.false_or] at is
  subst is
  by_cases none : first.user.fills = []
  · simp only [none,List.isEmpty_nil,Bool.not_true,Bool.false_eq_true,if_false] at ok
    cases ok
    exact .inl ⟨rfl,fun _ => none⟩
  · have some : (!first.user.fills.isEmpty) = true := by simpa using none
    simp only [some,if_true] at ok
    cases ok
    refine .inr (fillPagePaged (k := 0) rfl rfl small (Nat.zero_le _) (by rwa [List.length_map]) ?_)
    simpa [PageRequest.names,List.map_map,Function.comp_def,Fuse.direntryOf] using whole

theorem serveNext {h : Handle} {r : PageRequest} {out : Handle × Answer} {entries : List Direntry} {k : Nat}
    (filled : h.dh.filled) (first : h.dh.first = entries) (further : 0 < k) (inside : k ≤ entries.length)
    (few : entries.length < 2 ^ 63) (whole : Whole r.size.toNat ((entries.map Direntry.name).drop k))
    (ok : r.serve conf k h = .ok out) : Paged entries k out := by
  have same : h.dh.rewind k = h.dh := if_neg (by omega)
  unfold PageRequest.serve Fuse.libReaddir at ok
  simp only [same,filled,if_true] at ok
  obtain ⟨_,⟨⟩,ok⟩ := callBind ok
  simp only [ne_eq,not_true_eq_false,if_false,filled,if_true] at ok
  cases ok
  exact fillPagePaged rfl first (sizeSmall r.size) inside few whole

structure Received (entries : List Direntry) (h : Handle) (answers : List Answer) : Prop where
  part : answers.flatMap Answer.entries = (listed 0 entries).take (answers.flatMap Answer.entries).length
  kept : answers.flatMap Answer.entries ≠ [] → h.dh.filled ∧ h.dh.first = entries
  done : ∀ i, answers[i]? = some (.buf []) → (answers.take i).flatMap Answer.entries = listed 0 entries

theorem Received.inside {entries : List Direntry} {h : Handle} {answers : List Answer}
    (received : Received entries h answers) :
    (answers.flatMap Answer.entries).length ≤ entries.length := by
  have same := congrArg List.length received.part
  rw [List.length_take,listedLength] at same
  omega

theorem Received.append {entries : List Direntry} {h : Handle} {answers : List Answer} {out : Handle × Answer}
    (received : Received entries h answers)
    (paged : Paged entries (answers.flatMap Answer.entries).length out) :
    Received entries out.1 (answers ++ [out.2]) := by
  have inside := received.inside
  obtain ⟨part,kept,done⟩ := received
  obtain ⟨j,given⟩ := paged.given
  have whole : (answers ++ [out.2]).flatMap Answer.entries =
      (listed 0 entries).take ((answers.flatMap Answer.entries).length + j) := by
    rw [List.flatMap_append,List.flatMap_singleton,given,List.take_add,← part]
  refine ⟨?_,fun _ => ⟨paged.filled,paged.first⟩,?_⟩
  · rw [whole,List.length_take,List.take_eq_take_iff]
    omega
  · intro i empty
    by_cases old : i < answers.length
    · rw [List.getElem?_append_left old] at empty
      rw [List.take_append_of_le_length (Nat.le_of_lt old)]
      exact done i empty
    · have last : i = answers.length := by
        by_contra other
        rw [List.getElem?_eq_none (by rw [List.length_append,List.length_singleton]; omega)] at empty
        cases empty
      rw [last,List.getElem?_append_right (Nat.le_refl _),Nat.sub_self] at empty
      have complete := paged.done (Option.some.inj empty)
      rw [last,List.take_left,part,List.take_of_length_le (by rw [listedLength]; exact complete)]

theorem readsReceived {opened h : Handle} {first : PageRequest} {answers : List Answer}
    (plain : ∀ fill ∈ first.user.fills, fill.off = 0) (few : first.user.fills.length < 2 ^ 63)
    (reads : Reads conf Whole opened first h answers) :
    Received (first.user.fills.map (first.fuse.direntryOf conf opened.dh)) h answers := by
  generalize entriesIs : first.user.fills.map (first.fuse.direntryOf conf opened.dh) = entries
  have count : entries.length = first.user.fills.length := by rw [← entriesIs,List.length_map]
  have names : first.names = entries.map Direntry.name := by
    rw [← entriesIs]
    simp [PageRequest.names,Fuse.direntryOf]
  induction reads with
  | @first h answer may served =>
    rcases serveFirst plain few may served with ⟨nothing,empty⟩ | paged
    · have none : [answer].flatMap Answer.entries = [] := by rw [List.flatMap_singleton,nothing]
      refine ⟨by rw [none]; rfl,fun some => absurd none some,?_⟩
      intro i at_
      cases i with
      | zero =>
        have gone := empty (Option.some.inj at_)
        rw [gone,List.map_nil] at entriesIs
        rw [← entriesIs]
        rfl
      | succ i => simp at at_
    · rw [entriesIs] at paged
      have start : Received entries opened [] := ⟨rfl,fun some => absurd rfl some,fun i at_ => by simp at at_⟩
      exact start.append paged
  | @next h h' answers answer r e before last may served ih =>
    have some : answers.flatMap Answer.entries ≠ [] := by
      intro none
      rw [none] at last
      cases last
    obtain ⟨filled,kept⟩ := ih.kept some
    have further := List.length_pos_iff.mpr some
    -- the offset of the last entry is the number of entries received
    have off : e.off = (answers.flatMap Answer.entries).length := by
      rw [List.getLast?_eq_getElem?,ih.part,List.length_take,listedLength,Nat.min_eq_left ih.inside,
        List.getElem?_take_of_lt (by omega)] at last
      rw [listedOff last]
      omega
    rw [off] at served
    rw [names] at may
    exact ih.append (serveNext filled kept further ih.inside (by rw [count]; exact few) may served)

/- Read page by page a directory comes whole and in order, nothing in it twice, and the empty
reply is the end of it. -/
theorem pagesInOrder (conf : InoConf) (opened : Handle) (first : PageRequest) (h : Handle) (answers : List Answer)
    (plain : ∀ fill ∈ first.user.fills, fill.off = 0) (few : first.user.fills.length < 2 ^ 63)
    (reads : Reads conf Whole opened first h answers) :
    answers.flatMap Answer.entries =
      (first.listing conf opened.dh).take (answers.flatMap Answer.entries).length ∧
    ∀ i, answers[i]? = some (.buf []) → (answers.take i).flatMap Answer.entries = first.listing conf opened.dh := by
  obtain ⟨part,_,done⟩ := readsReceived plain few reads
  rw [listingListed]
  exact ⟨part,done⟩

def twoNames (size : UInt32) (a b : Name) : PageRequest :=
  ⟨fuseNew ⟨0,false,false⟩ fun _ => true,size,⟨0,[⟨a,none,0,0,false⟩,⟨b,none,0,0,false⟩],0⟩⟩

def freshHandle : Handle := ⟨rootHandle,fun _ => 0⟩

theorem servedOk {r : PageRequest} {off : Int} {h : Handle} {entries : List Packed}
    (is : (r.serve conf off h).toOption.map (fun out => out.2.entries) = some entries) :
    ∃ out, r.serve conf off h = .ok out ∧ out.2.entries = entries := by
  cases result : r.serve conf off h with
  | error fault =>
    rw [result] at is
    cases is
  | ok out =>
    rw [result] at is
    exact ⟨out,rfl,Option.some.inj is⟩

theorem pagesInOrderTwo :
    ∃ h first second, Reads ⟨true,false⟩ Whole freshHandle (twoNames 40 (ascii "a") (ascii "bb")) h [first,second] ∧
    [first,second].flatMap Answer.entries =
    ((twoNames 40 (ascii "a") (ascii "bb")).listing ⟨true,false⟩ rootHandle).take
      ([first,second].flatMap Answer.entries).length := by
  have one : ((twoNames 40 (ascii "a") (ascii "bb")).serve ⟨true,false⟩ 0 freshHandle).toOption.map
      (fun out => out.2.entries) = some [⟨0,0,unknownIno,1,0,ascii "a"⟩] := by
    decide +kernel
  have two : (((twoNames 40 (ascii "a") (ascii "bb")).serve ⟨true,false⟩ 0 freshHandle).bind fun out =>
      (twoNames 40 (ascii "c") (ascii "d")).serve ⟨true,false⟩ 1 out.1).toOption.map (fun out => out.2.entries) =
      some [⟨0,0,unknownIno,2,0,ascii "bb"⟩] := by
    decide +kernel
  obtain ⟨⟨h,first⟩,servedFirst,isFirst⟩ := servedOk one
  rw [servedFirst] at two
  obtain ⟨⟨h',second⟩,servedSecond,_⟩ := servedOk two
  have whole : ∀ names, names = [ascii "a",ascii "bb"] ∨ names = [ascii "bb"] → Whole 40 names := by
    rintro names (rfl | rfl)
    · exact ⟨fun name is => Option.some.inj is ▸ (by decide),by decide⟩
    · exact ⟨fun name is => Option.some.inj is ▸ (by decide),by decide⟩
  have begun : Reads ⟨true,false⟩ Whole freshHandle (twoNames 40 (ascii "a") (ascii "bb")) h [first] :=
    .first (whole _ (.inl rfl)) servedFirst
  have received : [first].flatMap Answer.entries = [⟨0,0,unknownIno,1,0,ascii "a"⟩] := by
    rw [List.flatMap_singleton]
    exact isFirst
  have reads := begun.next (r := twoNames 40 (ascii "c") (ascii "d")) (e := ⟨0,0,unknownIno,1,0,ascii "a"⟩)
    (by rw [received]; rfl) (by rw [received]; exact whole _ (.inr rfl)) servedSecond
  exact ⟨h',first,second,reads,(pagesInOrder ⟨true,false⟩ freshHandle _ h' _ (by decide) (by decide) reads).1⟩

theorem fillPageGrown (grown : s.memory 0 = true) (h : Handle) (off : Int) : ∃ h', s.fillPage h off = (h',.buf (readUpTo
    (fillBytes h.dh.needlen h.mem 0 (min off.toNat h.dh.first.length) (h.dh.first.drop off.toNat)).1
    (fillBytes h.dh.needlen h.mem 0 (min off.toNat h.dh.first.length) (h.dh.first.drop off.toNat)).2)) := by
  unfold Fuse.fillPage Fuse.extendContents
  split
  · rename_i extended
    split at extended
    · simp [Fuse.takeMem,grown] at extended
    · simp at extended
  · rename_i extended
    split at extended
    · simp only [Fuse.takeMem,grown,if_true,Prod.mk.injEq,and_true] at extended
      obtain ⟨_,rfl⟩ := extended
      exact ⟨_,rfl⟩
    · simp only [Prod.mk.injEq,and_true] at extended
      obtain ⟨_,rfl⟩ := extended
      exact ⟨_,rfl⟩

theorem longNamesWrap {a b : Name} (sizeA : a.length = 2 ^ 31 - 24) (sizeB : b.length = 2 ^ 31 - 24) :
    ∃ h, (twoNames 0xffffffff a b).serve ⟨true,false⟩ 0 freshHandle = .ok (h,.buf []) := by
  have entA : direntSize false a = 2147483648 := by
    simp [direntSize,direntAlign,nameOffset,sizeA]
  have entB : direntSize false b = 2147483648 := by
    simp [direntSize,direntAlign,nameOffset,sizeB]
  have size : UInt32.toNat 0xffffffff = 4294967295 := rfl
  have wraps : ∀ (mem : Nat → UInt8) (x y : Direntry), x.name = a → y.name = b →
      (fillBytes (UInt32.toNat 0xffffffff) mem 0 0 [x,y]).2 = 0 := by
    rintro mem x y rfl rfl
    simp [fillBytes,addDirentry,entA,entB,size]
  have served : (twoNames 0xffffffff a b).serve ⟨true,false⟩ 0 freshHandle =
      .ok (Fuse.fillPage (fuseNew ⟨0,false,false⟩ fun _ => true) ⟨{rootHandle.restart (UInt32.toNat 0xffffffff) with
          first := [⟨a,0,⟨unknownIno,0⟩⟩,⟨b,0,⟨unknownIno,0⟩⟩], filled := true},fun _ => 0⟩ 0) := rfl
  have grown : (fuseNew ⟨0,false,false⟩ fun _ => true).memory 0 = true := rfl
  obtain ⟨h,page⟩ := fillPageGrown grown ⟨{rootHandle.restart (UInt32.toNat 0xffffffff) with
    first := [⟨a,0,⟨unknownIno,0⟩⟩,⟨b,0,⟨unknownIno,0⟩⟩], filled := true},fun _ => 0⟩ 0
  refine ⟨h,?_⟩
  rw [served,page]
  have none := wraps (fun _ => 0) ⟨a,0,⟨unknownIno,0⟩⟩ ⟨b,0,⟨unknownIno,0⟩⟩ rfl rfl
  simp only [Int.toNat_zero,List.drop_zero,Nat.cast_zero,min_eq_left (Int.natCast_nonneg _),Dh.restart]
  rw [none]
  rfl

theorem longNames (n : Nat) : ∃ name : Name, name.length = n := ⟨List.replicate n 97,List.length_replicate⟩

/- A directory of two names may be answered by an empty reply at once. -/
theorem longNamesLost : ∃ first h, (∀ fill ∈ first.user.fills, fill.off = 0) ∧ first.user.fills.length < 2 ^ 63 ∧
    Reads ⟨true,false⟩ Enough freshHandle first h [.buf []] ∧ first.listing ⟨true,false⟩ rootHandle ≠ [] := by
  obtain ⟨name,size⟩ := longNames (2 ^ 31 - 24)
  obtain ⟨h,served⟩ := longNamesWrap size size
  have enough : Enough (twoNames 0xffffffff name name).size.toNat (twoNames 0xffffffff name name).names := by
    intro first head
    have same : name = first := Option.some.inj head
    rw [← same]
    change direntAlign (nameOffset + name.length) ≤ 4294967295
    rw [size]
    decide
  refine ⟨twoNames 0xffffffff name name,h,?_,?_,.first enough served,nofun⟩
  · intro fill mem
    simp only [twoNames,List.mem_cons,List.not_mem_nil,or_false,or_self] at mem
    rw [mem]
  · change 2 < 2 ^ 63
    decide

end FuseStudy.NodeStore
