import FuseStudy.ByteMemory
import FuseStudy.Readdir

/-! The entries of a READDIR and of a READDIRPLUS reply, packed one behind the other into a
buffer, and the receiver's walk over them. Timeouts are floating point numbers in the source;
here the seconds and nanoseconds they are converted to are given. -/
namespace FuseStudy.DirentPacking
open CString (Bytes)
open NetPacket (le unle leLength unleLe)
open NodeStore (direntAlign nameOffset nameOffsetDirentplus)
open ByteMemory

/- struct stat as far as convert_stat reads it. -/
structure Stat where
  ino : UInt64
  mode : UInt32
  nlink : UInt64
  uid : UInt32
  gid : UInt32
  rdev : UInt64
  size : Int64
  blksize : Int64
  blocks : Int64
  atime : Int64
  mtime : Int64
  ctime : Int64
  atimensec : Int64
  mtimensec : Int64
  ctimensec : Int64

/- struct fuse_entry_param, the timeouts converted. -/
structure EntryParam where
  ino : UInt64
  generation : UInt64
  entryValid : UInt64
  entryValidNsec : UInt32
  attrValid : UInt64
  attrValidNsec : UInt32
  attr : Stat

/- A number is stored in as many bytes as its field has, so that it is cut to it. -/
def put32 (m : Memory) (a n : Nat) : Memory := store m a (le 4 n)

def put64 (m : Memory) (a n : Nat) : Memory := store m a (le 8 n)

def wordOf (x : Int64) : Nat := x.toUInt64.toNat

def fileType (mode : UInt32) : UInt32 := (mode &&& 0o170000) >>> 12

/- The fields of struct fuse_dirent, the name and the padding. -/
def putDirent (m : Memory) (d : Nat) (name : Bytes) (ino : UInt64) (mode : UInt32) (off : Int64) (pad : Nat) : Memory :=
  let m := put64 m d ino.toNat
  let m := put64 m (d + 8) (wordOf off)
  let m := put32 m (d + 16) name.length
  let m := put32 m (d + 20) (fileType mode).toNat
  let m := store m (d + nameOffset) name
  store m (d + nameOffset + name.length) (List.replicate pad 0)

/- The buffer may be missing, to learn the size. -/
def fuseAddDirentry (m : Memory) (buf : Option Nat) (bufsize : Nat) (name : Bytes) (ino : UInt64) (mode : UInt32)
    (off : Int64) : Memory × Nat :=
  let entlen := nameOffset + name.length
  let entlenPadded := direntAlign entlen
  match buf with
  | none => (m,entlenPadded)
  | some buf =>
    if entlenPadded > bufsize then (m,entlenPadded)
    else (putDirent m buf name ino mode off (entlenPadded - entlen),entlenPadded)

/- struct fuse_attr at a. -/
def convertStat (m : Memory) (a : Nat) (stbuf : Stat) : Memory :=
  let m := put64 m a stbuf.ino.toNat
  let m := put32 m (a + 60) stbuf.mode.toNat
  let m := put32 m (a + 64) stbuf.nlink.toNat
  let m := put32 m (a + 68) stbuf.uid.toNat
  let m := put32 m (a + 72) stbuf.gid.toNat
  let m := put32 m (a + 76) stbuf.rdev.toNat
  let m := put64 m (a + 8) (wordOf stbuf.size)
  let m := put32 m (a + 80) (wordOf stbuf.blksize)
  let m := put64 m (a + 16) (wordOf stbuf.blocks)
  let m := put64 m (a + 24) (wordOf stbuf.atime)
  let m := put64 m (a + 32) (wordOf stbuf.mtime)
  let m := put64 m (a + 40) (wordOf stbuf.ctime)
  let m := put32 m (a + 48) (wordOf stbuf.atimensec)
  let m := put32 m (a + 52) (wordOf stbuf.mtimensec)
  put32 m (a + 56) (wordOf stbuf.ctimensec)

/- sizeof(struct fuse_entry_out), where the dirent of a struct fuse_direntplus begins. -/
def entryOut : Nat := 128

def fillEntry (m : Memory) (a : Nat) (e : EntryParam) : Memory :=
  let m := put64 m a e.ino.toNat
  let m := put64 m (a + 8) e.generation.toNat
  let m := put64 m (a + 16) e.entryValid.toNat
  let m := put32 m (a + 32) e.entryValidNsec.toNat
  let m := put64 m (a + 24) e.attrValid.toNat
  let m := put32 m (a + 36) e.attrValidNsec.toNat
  convertStat m (a + 40) e.attr

def fuseAddDirentryPlus (m : Memory) (buf : Option Nat) (bufsize : Nat) (name : Bytes) (e : EntryParam) (off : Int64) :
    Memory × Nat :=
  let entlen := nameOffsetDirentplus + name.length
  let entlenPadded := direntAlign entlen
  match buf with
  | none => (m,entlenPadded)
  | some buf =>
    if entlenPadded > bufsize then (m,entlenPadded)
    else
      let m := store m buf (List.replicate entryOut 0)
      let m := fillEntry m buf e
      (putDirent m (buf + entryOut) name e.attr.ino e.attr.mode off (entlenPadded - entlen),entlenPadded)

/- What the caller packs: it stops at the first entry that does not fit. -/
structure Packed where
  mem : Memory
  len : Nat
  starts : List Nat

def pack {α : Type} (add : Memory → Nat → Nat → α → Memory × Nat) (buf bufsize : Nat) :
    Memory → Nat → List α → Packed
  | m, pos, [] => ⟨m,pos,[]⟩
  | m, pos, e :: rest =>
    let (m,entsize) := add m (buf + pos) (bufsize - pos) e
    if entsize > bufsize - pos then ⟨m,pos,[]⟩
    else
      let out := pack add buf bufsize m (pos + entsize) rest
      {out with starts := pos :: out.starts}

structure Entry where
  name : Bytes
  ino : UInt64
  mode : UInt32
  off : Int64

structure EntryPlus where
  name : Bytes
  e : EntryParam
  off : Int64

def addEntry (m : Memory) (buf bufsize : Nat) (entry : Entry) : Memory × Nat :=
  fuseAddDirentry m (some buf) bufsize entry.name entry.ino entry.mode entry.off

def addEntryPlus (m : Memory) (buf bufsize : Nat) (entry : EntryPlus) : Memory × Nat :=
  fuseAddDirentryPlus m (some buf) bufsize entry.name entry.e entry.off

structure Dirent where
  ino : UInt64
  off : Int64
  type : UInt32
  name : Bytes
  deriving DecidableEq

def namelenAt (m : Memory) (d : Nat) : Nat := unle (load m (d + 16) 4)

def direntAt (m : Memory) (d : Nat) : Dirent :=
  ⟨.ofNat (unle (load m d 8)),(UInt64.ofNat (unle (load m (d + 8) 8))).toInt64,.ofNat (unle (load m (d + 20) 4)),
    load m (d + nameOffset) (namelenAt m d)⟩

/- FUSE_DIRENT_SIZE and FUSE_DIRENTPLUS_SIZE, the dirent being `base` bytes into the record. -/
def recordSize (base : Nat) (m : Memory) (a : Nat) : Nat := direntAlign (base + nameOffset + namelenAt m (a + base))

def walk (base : Nat) (m : Memory) (fin : Nat) : Nat → Nat → Option (List Dirent)
  | 0, a => if a = fin then some [] else none
  | fuel+1, a =>
    if a = fin then some []
    else if a > fin then none
    else (walk base m fin fuel (a + recordSize base m a)).map (direntAt m (a + base) :: ·)

variable {m m' : Memory} {a d i : Nat} {name : Bytes} {ino : UInt64} {mode : UInt32} {off : Int64} {pad : Nat}

theorem put32Outside (outside : i < a ∨ a + 4 ≤ i) (m : Memory) (n : Nat) : put32 m a n i = m i := by
  rcases outside with before | after
  · exact storeBefore before m _
  · exact storeAfter (by rw [leLength]; exact after) m

theorem put64Outside (outside : i < a ∨ a + 8 ≤ i) (m : Memory) (n : Nat) : put64 m a n i = m i := by
  rcases outside with before | after
  · exact storeBefore before m _
  · exact storeAfter (by rw [leLength]; exact after) m

theorem fillEntryOutside (outside : i < a ∨ a + entryOut ≤ i) (m : Memory) (e : EntryParam) :
    fillEntry m a e i = m i := by
  unfold entryOut at outside
  simp (disch := omega) only [fillEntry,convertStat,put32Outside,put64Outside]

def direntBytes (name : Bytes) (ino : UInt64) (mode : UInt32) (off : Int64) (pad : Nat) : Bytes :=
  le 8 ino.toNat ++ le 8 (wordOf off) ++ le 4 name.length ++ le 4 (fileType mode).toNat ++ name ++ List.replicate pad 0

theorem direntBytesLength : (direntBytes name ino mode off pad).length = nameOffset + name.length + pad := by
  simp only [direntBytes,List.length_append,leLength,List.length_replicate,nameOffset]

theorem putDirentBytes (m : Memory) (d : Nat) :
    putDirent m d name ino mode off pad = store m d (direntBytes name ino mode off pad) := by
  have padding : 8 + (8 + (4 + (4 + name.length))) = nameOffset + name.length := by
    simp only [nameOffset]
    omega
  simp only [putDirent,put64,put32,direntBytes,storeAppend,List.length_append,leLength,Nat.add_assoc,padding]
  rfl

theorem putDirentOutside (outside : i < d ∨ d + (nameOffset + name.length + pad) ≤ i) (m : Memory) :
    putDirent m d name ino mode off pad i = m i := by
  rw [putDirentBytes]
  rcases outside with before | after
  · exact storeBefore before m _
  · exact storeAfter (by rw [direntBytesLength]; exact after) m

theorem direntField {field last : Bytes} {n : Nat} (offset : Nat) (first : Bytes)
    (whole : direntBytes name ino mode off pad = first ++ field ++ last) (before : first.length = offset)
    (wide : field.length = n) : load (putDirent m d name ino mode off pad) (d + offset) n = field := by
  rw [putDirentBytes,whole,← before]
  exact loadField m d wide

theorem putDirentNamelen (m : Memory) (d : Nat) (short : name.length < 2 ^ 32) :
    namelenAt (putDirent m d name ino mode off pad) d = name.length := by
  have field : load (putDirent m d name ino mode off pad) (d + 16) 4 = le 4 name.length := by
    apply direntField 16 (le 8 ino.toNat ++ le 8 (wordOf off))
    · simp only [direntBytes,List.append_assoc]
      rfl
    · simp only [List.length_append,leLength]
    · exact leLength 4 _
  rw [namelenAt,field,unleLe]
  exact Nat.mod_eq_of_lt short

theorem unleWord (x : UInt64) : unle (le 8 x.toNat) = x.toNat := by
  rw [unleLe]
  exact Nat.mod_eq_of_lt x.toNat_lt

theorem unleHalf (x : UInt32) : unle (le 4 x.toNat) = x.toNat := by
  rw [unleLe]
  exact Nat.mod_eq_of_lt x.toNat_lt

theorem putDirentRead (m : Memory) (d : Nat) (short : name.length < 2 ^ 32) :
    direntAt (putDirent m d name ino mode off pad) d = ⟨ino,off,fileType mode,name⟩ := by
  have inoField : load (putDirent m d name ino mode off pad) d 8 = le 8 ino.toNat := by
    apply direntField 0 []
    · simp only [direntBytes,List.append_assoc,List.nil_append]
      rfl
    · rfl
    · exact leLength 8 _
  have offField : load (putDirent m d name ino mode off pad) (d + 8) 8 = le 8 (wordOf off) := by
    apply direntField 8 (le 8 ino.toNat)
    · simp only [direntBytes,List.append_assoc]
      rfl
    · exact leLength 8 _
    · exact leLength 8 _
  have typeField : load (putDirent m d name ino mode off pad) (d + 20) 4 = le 4 (fileType mode).toNat := by
    apply direntField 20 (le 8 ino.toNat ++ le 8 (wordOf off) ++ le 4 name.length)
    · simp only [direntBytes,List.append_assoc]
      rfl
    · simp only [List.length_append,leLength]
    · exact leLength 4 _
  have nameField : load (putDirent m d name ino mode off pad) (d + nameOffset) name.length = name := by
    apply direntField nameOffset (le 8 ino.toNat ++ le 8 (wordOf off) ++ le 4 name.length ++ le 4 (fileType mode).toNat)
    · rfl
    · simp only [List.length_append,leLength,nameOffset]
    · rfl
  have inode : UInt64.ofNat (unle (le 8 ino.toNat)) = ino := by
    rw [unleWord,UInt64.ofNat_toNat]
  have offset : (UInt64.ofNat (unle (le 8 (wordOf off)))).toInt64 = off := by
    rw [wordOf,unleWord,UInt64.ofNat_toNat]
    exact Int64.toInt64_toUInt64 off
  have kind : UInt32.ofNat (unle (le 4 (fileType mode).toNat)) = fileType mode := by
    rw [unleHalf,UInt32.ofNat_toNat]
  simp only [direntAt,putDirentNamelen m d short,inoField,offField,typeField,nameField,inode,offset,kind]

theorem alignLe (x : Nat) : x ≤ direntAlign x := by
  unfold direntAlign
  omega

theorem alignMod (x : Nat) : direntAlign x % 8 = 0 := by
  unfold direntAlign
  omega

theorem direntAtCongr (same : ∀ i, d ≤ i → i < d + nameOffset + namelenAt m d → m' i = m i) :
    namelenAt m' d = namelenAt m d ∧ direntAt m' d = direntAt m d := by
  have part : ∀ a n, d ≤ a → a + n ≤ d + nameOffset + namelenAt m d → load m' a n = load m a n :=
    fun a n low high => loadCongr (fun i first last => same i (by omega) (by omega))
  unfold nameOffset at part
  have length : namelenAt m' d = namelenAt m d := by
    rw [namelenAt,namelenAt,part (d + 16) 4 (by omega) (by omega)]
  refine ⟨length,?_⟩
  rw [direntAt,direntAt,length,part d 8 (by omega) (by omega),part (d + 8) 8 (by omega) (by omega),
    part (d + 20) 4 (by omega) (by omega)]
  rw [part (d + nameOffset) (namelenAt m d) (by omega) (by unfold nameOffset; omega)]

section
variable {α : Type} {add : Memory → Nat → Nat → α → Memory × Nat} {base : Nat} {size : α → Nat} {view : α → Dirent}
  {short : α → Prop} {buf bufsize pos : Nat} {entries : List α}

structure Adds (add : Memory → Nat → Nat → α → Memory × Nat) (base : Nat) (size : α → Nat) (view : α → Dirent)
    (short : α → Prop) : Prop where
  returns : ∀ m b n e, (add m b n e).2 = size e
  refuses : ∀ m b n e, n < size e → (add m b n e).1 = m
  outside : ∀ m b n e i, i < b ∨ b + size e ≤ i → (add m b n e).1 i = m i
  reads : ∀ m b n e, size e ≤ n → short e → namelenAt (add m b n e).1 (b + base) = (view e).name.length ∧
    direntAt (add m b n e).1 (b + base) = view e
  sized : ∀ e, size e = direntAlign (base + nameOffset + (view e).name.length)

def packedSize (size : α → Nat) (entries : List α) (k : Nat) : Nat := ((entries.take k).map size).sum

theorem packedSizeCons (e : α) (rest : List α) (k : Nat) :
    packedSize size (e :: rest) (k + 1) = size e + packedSize size rest k := by
  rw [packedSize,List.take_succ_cons,List.map_cons,List.sum_cons,packedSize]

structure PackedFirst (base : Nat) (size : α → Nat) (view : α → Dirent) (buf bufsize : Nat) (m : Memory) (pos : Nat)
    (entries : List α) (out : Packed) (k : Nat) : Prop where
  count : k ≤ entries.length
  len : out.len = pos + packedSize size entries k
  within : out.len ≤ bufsize
  full : ∀ e, entries[k]? = some e → bufsize < out.len + size e
  starts : out.starts = (List.range k).map (fun j => pos + packedSize size entries j)
  outside : ∀ i, i < buf + pos ∨ buf + out.len ≤ i → out.mem i = m i
  walked : ∀ fuel, out.len - pos ≤ fuel →
    walk base out.mem (buf + out.len) fuel (buf + pos) = some ((entries.take k).map view)

theorem PackedFirst.nothing (m : Memory) (within : pos ≤ bufsize)
    (full : ∀ e, entries[0]? = some e → bufsize < pos + size e) :
    PackedFirst base size view buf bufsize m pos entries ⟨m,pos,[]⟩ 0 := by
  refine ⟨Nat.zero_le _,by rw [packedSize,List.take_zero]; rfl,within,full,rfl,fun _ _ => rfl,?_⟩
  intro fuel _
  cases fuel with
  | zero => rw [walk,if_pos rfl,List.take_zero]; rfl
  | succ fuel => rw [walk,if_pos rfl,List.take_zero]; rfl

/- Induction on the entries: what is packed later lies behind the first entry. -/
theorem packFirst (adds : Adds add base size view short) (fits : ∀ e ∈ entries, short e) (m : Memory)
    (within : pos ≤ bufsize) :
    ∃ k, PackedFirst base size view buf bufsize m pos entries (pack add buf bufsize m pos entries) k := by
  induction entries generalizing m pos with
  | nil => exact ⟨0,.nothing m within nofun⟩
  | cons e rest ih =>
    have returned := adds.returns m (buf + pos) (bufsize - pos) e
    unfold pack
    simp only [returned]
    split
    · rename_i large
      rw [adds.refuses m (buf + pos) (bufsize - pos) e large]
      refine ⟨0,.nothing m within ?_⟩
      intro e' first
      cases first
      omega
    · rename_i room
      generalize put : (add m (buf + pos) (bufsize - pos) e).1 = m₁
      obtain ⟨k,packed⟩ :=
        ih (fun e' mem => fits e' (List.mem_cons_of_mem e mem)) m₁ (show pos + size e ≤ bufsize by omega)
      generalize pack add buf bufsize m₁ (pos + size e) rest = out at packed
      have len := packed.len
      have later := packed.outside
      have outside := adds.outside m (buf + pos) (bufsize - pos) e
      obtain ⟨length,read⟩ := adds.reads m (buf + pos) (bufsize - pos) e (by omega) (fits e List.mem_cons_self)
      rw [put] at outside length read
      have sized := adds.sized e
      have covered := alignLe (base + nameOffset + (view e).name.length)
      refine ⟨k + 1,?_,?_,packed.within,packed.full,?_,?_,?_⟩
      · exact Nat.succ_le_succ packed.count
      · rw [packedSizeCons]
        simp only
        omega
      · simp only
        rw [List.range_succ_eq_map,List.map_cons,List.map_map,packed.starts]
        congr 1
        apply List.map_congr_left
        intro j _
        simp only [Function.comp,packedSizeCons,Nat.add_assoc]
      · intro i apart
        simp only at apart ⊢
        rw [later i (by omega),outside i (by omega)]
      · intro fuel enough
        have kept : ∀ i, buf + pos + base ≤ i → i < buf + pos + base + nameOffset + namelenAt m₁ (buf + pos + base) →
            out.mem i = m₁ i := by
          intro i _ high
          exact later i (by omega)
        obtain ⟨length',read'⟩ := direntAtCongr kept
        have step : recordSize base out.mem (buf + pos) = size e := by
          rw [recordSize,length',length,sized]
        have positive : 0 < size e := by
          unfold nameOffset at covered sized
          omega
        have enough : out.len - pos ≤ fuel := enough
        simp only
        cases fuel with
        | zero => omega
        | succ fuel =>
          rw [walk,if_neg (by omega),if_neg (by omega),step,read',read,Nat.add_assoc,packed.walked fuel (by omega)]
          rfl

theorem packedSizeStep (size : α → Nat) (entries : List α) (k : Nat) {e : α} (next : entries[k]? = some e) :
    packedSize size entries (k + 1) = packedSize size entries k + size e := by
  rw [packedSize,List.take_add_one,next,Option.toList_some,List.map_append,List.sum_append,packedSize]
  rfl

theorem packedSizeMono (size : α → Nat) (entries : List α) {j k : Nat} (le : j ≤ k) :
    packedSize size entries j ≤ packedSize size entries k := by
  have part : (entries.take j).Sublist (entries.take k) := List.take_sublist_take_left le
  exact (part.map size).sum_le_sum (fun _ _ => Nat.zero_le _)

/- What the caller and the receiver of a reply rely on. -/
structure RoundTrip (base : Nat) (size : α → Nat) (view : α → Dirent) (buf bufsize : Nat) (m : Memory)
    (entries : List α) (out : Packed) : Prop where
  outside : ∀ i, i < buf ∨ buf + bufsize ≤ i → out.mem i = m i
  count : out.starts.length ≤ entries.length
  longest : ∀ j ≤ entries.length, packedSize size entries j ≤ bufsize ↔ j ≤ out.starts.length
  starts : out.starts = (List.range out.starts.length).map (packedSize size entries)
  aligned : ∀ start ∈ out.starts, start % 8 = 0
  len : out.len = packedSize size entries out.starts.length
  walked : walk base out.mem (buf + out.len) out.len buf = some ((entries.take out.starts.length).map view)

theorem packedSizeAligned (sized : ∀ e, size e % 8 = 0) (entries : List α) (k : Nat) :
    packedSize size entries k % 8 = 0 := by
  induction entries generalizing k with
  | nil => rw [packedSize,List.take_nil]; rfl
  | cons e rest ih =>
    cases k with
    | zero => rw [packedSize,List.take_zero]; rfl
    | succ k =>
      rw [packedSizeCons]
      have first := sized e
      have later := ih k
      omega

theorem packRoundTrip (adds : Adds add base size view short) (fits : ∀ e ∈ entries, short e) (m : Memory)
    (buf bufsize : Nat) : RoundTrip base size view buf bufsize m entries (pack add buf bufsize m 0 entries) := by
  have packed : ∃ k, PackedFirst base size view buf bufsize m 0 entries (pack add buf bufsize m 0 entries) k :=
    packFirst adds fits m (Nat.zero_le bufsize)
  obtain ⟨k,packed⟩ := packed
  generalize pack add buf bufsize m 0 entries = out at packed
  have count : out.starts.length = k := by rw [packed.starts,List.length_map,List.length_range]
  have len : out.len = packedSize size entries k := packed.len.trans (Nat.zero_add _)
  have aligned : ∀ e, size e % 8 = 0 := fun e => adds.sized e ▸ alignMod _
  have starts : out.starts = (List.range k).map (packedSize size entries) := by
    rw [packed.starts]
    exact List.map_congr_left (fun j _ => Nat.zero_add _)
  have within := packed.within
  refine ⟨?_,?_,?_,?_,?_,?_,?_⟩
  · exact fun i apart => packed.outside i (by omega)
  · rw [count]
    exact packed.count
  · intro j low
    rw [count]
    constructor
    · intro fits
      by_contra more
      have next : entries[k]? = some (entries.get ⟨k,by omega⟩) := List.getElem?_eq_getElem (by omega)
      have full := packed.full _ next
      have step := packedSizeStep size entries k next
      have longer := packedSizeMono size entries (show k + 1 ≤ j by omega)
      omega
    · intro le
      exact (packedSizeMono size entries le).trans (len ▸ within)
  · rw [count]
    exact starts
  · intro start mem
    rw [starts] at mem
    obtain ⟨j,_,rfl⟩ := List.mem_map.mp mem
    exact packedSizeAligned aligned entries j
  · rw [count]
    exact len
  · rw [count]
    exact packed.walked out.len (Nat.sub_le _ _)

end

def Entry.size (entry : Entry) : Nat := direntAlign (nameOffset + entry.name.length)

def EntryPlus.size (entry : EntryPlus) : Nat := direntAlign (nameOffsetDirentplus + entry.name.length)

def Entry.view (entry : Entry) : Dirent := ⟨entry.ino,entry.off,fileType entry.mode,entry.name⟩

def EntryPlus.view (entry : EntryPlus) : Dirent := ⟨entry.e.attr.ino,entry.off,fileType entry.e.attr.mode,entry.name⟩

theorem addEntryAdds : Adds addEntry 0 Entry.size Entry.view (fun entry => entry.name.length < 2 ^ 32) := by
  have returns : ∀ m b n e, (addEntry m b n e).2 = e.size := by
    intro m b n e
    simp only [addEntry,fuseAddDirentry]
    split <;> rfl
  have padding : ∀ name : Bytes, nameOffset + name.length + (direntAlign (nameOffset + name.length) -
      (nameOffset + name.length)) = direntAlign (nameOffset + name.length) :=
    fun name => Nat.add_sub_of_le (alignLe _)
  refine ⟨returns,?_,?_,?_,?_⟩
  · intro m b n e large
    simp only [addEntry,fuseAddDirentry]
    exact congrArg Prod.fst (if_pos large)
  · intro m b n e i apart
    simp only [addEntry,fuseAddDirentry]
    split
    · rfl
    · apply putDirentOutside
      rw [padding]
      exact apart
  · intro m b n e room short
    simp only [addEntry,fuseAddDirentry]
    have fits : ¬ direntAlign (nameOffset + e.name.length) > n := Nat.not_lt.mpr room
    simp only [if_neg fits]
    exact ⟨putDirentNamelen m b short,putDirentRead m b short⟩
  · intro e
    rw [Nat.zero_add]
    rfl

theorem addEntryPlusAdds :
    Adds addEntryPlus entryOut EntryPlus.size EntryPlus.view (fun entry => entry.name.length < 2 ^ 32) := by
  have returns : ∀ m b n e, (addEntryPlus m b n e).2 = e.size := by
    intro m b n e
    simp only [addEntryPlus,fuseAddDirentryPlus]
    split <;> rfl
  have padding : ∀ name : Bytes,
    entryOut + (nameOffset + name.length + (direntAlign (nameOffsetDirentplus + name.length) -
      (nameOffsetDirentplus + name.length))) = direntAlign (nameOffsetDirentplus + name.length) := by
    intro name
    have padded := alignLe (nameOffsetDirentplus + name.length)
    simp only [entryOut,nameOffset,nameOffsetDirentplus] at padded ⊢
    omega
  refine ⟨returns,?_,?_,?_,fun _ => rfl⟩
  · intro m b n e large
    simp only [addEntryPlus,fuseAddDirentryPlus]
    exact congrArg Prod.fst (if_pos large)
  · intro m b n e i apart
    have padded := padding e.name
    simp only [addEntryPlus,fuseAddDirentryPlus]
    split
    · rfl
    · have covered : b + e.size = b + entryOut + (nameOffset + e.name.length + (direntAlign (nameOffsetDirentplus +
          e.name.length) - (nameOffsetDirentplus + e.name.length))) := by
        rw [Nat.add_assoc,padded]
        rfl
      simp only
      rw [putDirentOutside (by omega),fillEntryOutside (by omega)]
      rcases apart with before | after
      · exact storeBefore before m _
      · exact storeAfter (by rw [List.length_replicate]; omega) m
  · intro m b n e room short
    simp only [addEntryPlus,fuseAddDirentryPlus]
    have fits : ¬ direntAlign (nameOffsetDirentplus + e.name.length) > n := Nat.not_lt.mpr room
    simp only [if_neg fits]
    exact ⟨putDirentNamelen _ _ short,putDirentRead _ _ short⟩

/- Whatever is packed into whatever buffer is what the receiver gets out of it, in both
layouts. -/
theorem packedIsRead :
    (∀ (entries : List Entry) (m : Memory) (buf bufsize : Nat), (∀ e ∈ entries, e.name.length < 2 ^ 32) →
      RoundTrip 0 Entry.size Entry.view buf bufsize m entries (pack addEntry buf bufsize m 0 entries)) ∧
    ∀ (entries : List EntryPlus) (m : Memory) (buf bufsize : Nat), (∀ e ∈ entries, e.name.length < 2 ^ 32) →
      RoundTrip entryOut EntryPlus.size EntryPlus.view buf bufsize m entries
        (pack addEntryPlus buf bufsize m 0 entries) :=
  ⟨fun _ m buf bufsize short => packRoundTrip addEntryAdds short m buf bufsize,
    fun _ m buf bufsize short => packRoundTrip addEntryPlusAdds short m buf bufsize⟩

theorem packedIsReadTwo : (pack addEntry 64 40 (fun _ => 0) 0
    [⟨CString.ascii "a",2,0o100644,1⟩,⟨CString.ascii "b",3,0o40755,2⟩]).starts.length = 1 := by
  have trip := packedIsRead.1 [⟨CString.ascii "a",2,0o100644,1⟩,⟨CString.ascii "b",3,0o40755,2⟩] (fun _ => 0) 64 40
    (by decide)
  have one := (trip.longest 1 (by decide)).mp (by decide)
  have two := mt (trip.longest 2 (by decide)).mpr (by decide)
  omega

end FuseStudy.DirentPacking
