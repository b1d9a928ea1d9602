import FuseStudy.CString

/-! do_mount of util/fusermount.c: the setuid helper reads the user's option string,
keeps what it allows in optbuf, and ends it with the values it knows itself. The model
returns every mount(2) call that is made and how many bytes of optbuf were written. -/
namespace FuseStudy.DoMount
open CString (Bytes ascii split digits)

abbrev Flags := BitVec 32

def msRdonly : Flags := 1
def msNosuid : Flags := 2
def msNodev : Flags := 4
def msNoexec : Flags := 8
def msSynchronous : Flags := 16
def msDirsync : Flags := 128
def msNosymfollow : Flags := 256
def msNoatime : Flags := 1024
def msNodiratime : Flags := 2048
def msRelatime : Flags := 0x200000
def msStrictatime : Flags := 0x1000000
def msLazytime : Flags := 0x2000000

structure MountFlag where
  opt : Bytes
  flag : Flags
  on : Bool
  safe : Bool

def mountFlags : List MountFlag := [
  ⟨ascii "rw",msRdonly,false,true⟩,
  ⟨ascii "ro",msRdonly,true,true⟩,
  ⟨ascii "suid",msNosuid,false,false⟩,
  ⟨ascii "nosuid",msNosuid,true,true⟩,
  ⟨ascii "dev",msNodev,false,false⟩,
  ⟨ascii "nodev",msNodev,true,true⟩,
  ⟨ascii "exec",msNoexec,false,true⟩,
  ⟨ascii "noexec",msNoexec,true,true⟩,
  ⟨ascii "async",msSynchronous,false,true⟩,
  ⟨ascii "sync",msSynchronous,true,true⟩,
  ⟨ascii "atime",msNoatime,false,true⟩,
  ⟨ascii "noatime",msNoatime,true,true⟩,
  ⟨ascii "diratime",msNodiratime,false,true⟩,
  ⟨ascii "nodiratime",msNodiratime,true,true⟩,
  ⟨ascii "lazytime",msLazytime,true,true⟩,
  ⟨ascii "nolazytime",msLazytime,false,true⟩,
  ⟨ascii "relatime",msRelatime,true,true⟩,
  ⟨ascii "norelatime",msRelatime,false,true⟩,
  ⟨ascii "strictatime",msStrictatime,true,true⟩,
  ⟨ascii "nostrictatime",msStrictatime,false,true⟩,
  ⟨ascii "dirsync",msDirsync,true,true⟩,
  ⟨ascii "symfollow",msNosymfollow,false,true⟩,
  ⟨ascii "nosymfollow",msNosymfollow,true,true⟩]

/- What do_mount reads besides its arguments: the caller, the configuration, the kernel
release, the outcome of each allocation and of the mount(2) calls it may make. -/
structure Env where
  uid : UInt32
  gid : UInt32
  userAllowOther : Bool
  release : Option (Nat × Nat)
  pagesize : Nat
  optbufMem : Bool
  stringMem : Nat → Bool
  mntOptsMem : Bool
  sourceMem : Bool
  userName : Option Bytes
  mount1 : Option Nat
  mount2 : Option Nat
  mount3 : Option Nat

def findMountFlag (env : Env) (token : Bytes) : Option (Bool × Flags) := do
  let entry ← mountFlags.find? (fun m => m.opt = token)
  some (entry.on,if !entry.safe && env.uid ≠ 0 then 0 else entry.flag)

def beginsWith (s : Bytes) (beg : String) : Bool := (ascii beg).isPrefixOf s

def optEq (token : Bytes) (opt : String) : Bool := token = ascii opt

def comma : UInt8 := 44
def backslash : UInt8 := 92

/- The length of the option at s. A backslash hides the byte after it when escapes
count, unless that byte is the terminating NUL. -/
@[grind =]
def optionLen (escapeOk : Bool) : Bytes → Nat
  | [] => 0
  | [b] => if b = comma then 0 else 1
  | b :: next :: rest =>
    if escapeOk && b = backslash then 2 + optionLen escapeOk rest
    else if b = comma then 0
    else 1 + optionLen escapeOk (next :: rest)

@[grind =]
def unescape : Bytes → Bytes
  | [] => []
  | [b] => [b]
  | b :: next :: rest =>
    if b = backslash then next :: unescape rest else b :: unescape (next :: rest)

def getStringOpt (mem : Bool) (token : Bytes) (opt : String) : Option Bytes :=
  if mem then some (unescape (token.drop (ascii opt).length)) else none

inductive End where
  | mounted (source type mntOpts : Bytes)
  | err
  | exit
  | loops
  deriving DecidableEq, Repr

structure Scan where
  flags : Flags
  optbuf : Bytes
  fsname : Option Bytes
  subtype : Option Bytes
  blkdev : Bool
  autoUnmount : Bool
  deriving DecidableEq, Repr

def skipLargeRead (env : Env) (token : Bytes) : Bool :=
  optEq token "large_read" &&
    match env.release with
    | some (kmaj,kmin) => kmaj > 2 || (kmaj = 2 && kmin > 4)
    | none => false

def kernelOption (env : Env) (st : Scan) (s token : Bytes) : Except End Scan :=
  let skipOption := skipLargeRead env token
  if env.uid ≠ 0 && !env.userAllowOther && (optEq token "allow_other" || optEq token "allow_root") then
    .error .err
  else if skipOption then .ok st
  else match findMountFlag env token with
    | some (true,flag) => .ok {st with flags := st.flags ||| flag}
    | some (false,flag) => .ok {st with flags := st.flags &&& ~~~flag}
    | none =>
      if optEq token "default_permissions" || optEq token "allow_other" ||
          beginsWith s "max_read=" || beginsWith s "blksize=" then
        .ok {st with optbuf := st.optbuf ++ token ++ [comma]}
      else .error .exit

/- One round of the option loop; s is the unread rest, token its first option. -/
def readOption (env : Env) (st : Scan) (s token : Bytes) : Except End Scan :=
  if beginsWith s "fsname=" then
    match getStringOpt (env.stringMem s.length) token "fsname=" with
    | some value => .ok {st with fsname := some value}
    | none => .error .err
  else if beginsWith s "subtype=" then
    match getStringOpt (env.stringMem s.length) token "subtype=" with
    | some value => .ok {st with subtype := some value}
    | none => .error .err
  else if optEq token "blkdev" then
    if env.uid ≠ 0 then .error .err else .ok {st with blkdev := true}
  else if optEq token "auto_unmount" then .ok {st with autoUnmount := true}
  else if !optEq token "nonempty" && !beginsWith s "fd=" && !beginsWith s "rootmode=" &&
      !beginsWith s "user_id=" && !beginsWith s "group_id=" then
    kernelOption env st s token
  else .ok st

def tokenLen (s : Bytes) : Nat := optionLen (beginsWith s "fsname=" || beginsWith s "subtype=") s

/- The loop variable len is 32 bits wide: an option of 2^32 bytes or more makes it wrap
and the inner loop runs forever. -/
def optionLoop (env : Env) (st : Scan) (s : Bytes) : Except (End × Nat) Scan :=
  match s with
  | [] => .ok st
  | b :: rest =>
    let len := tokenLen (b :: rest)
    if 2 ^ 32 ≤ len then .error (.loops,st.optbuf.length)
    else match readOption env st (b :: rest) ((b :: rest).take len) with
      | .error e => .error (e,st.optbuf.length)
      | .ok st => optionLoop env st ((b :: rest).drop (len + 1))
termination_by s.length
decreasing_by simp only [List.length_drop,List.length_cons]; omega

def addOption (opts : Option Bytes) (opt : Bytes) : Option Bytes :=
  match opts with
  | none => some opt
  | some old => some (old ++ [comma] ++ opt)

def dropTrailingComma (opts : Bytes) : Bytes :=
  if opts.getLast? = some comma then opts.dropLast else opts

/- The option string recorded in the mount table. -/
def getMntOpts (env : Env) (flags : Flags) (opts : Bytes) : Option Bytes :=
  if !env.mntOptsMem then none
  else
    let rw := if flags &&& msRdonly = 0 then addOption none (ascii "rw") else none
    let named := mountFlags.foldl (fun acc m =>
      if m.on && flags &&& m.flag ≠ 0 then addOption acc m.opt else acc) rw
    match addOption named opts with
    | none => none
    | some all =>
      let all := dropTrailingComma all
      if env.uid ≠ 0 then
        match env.userName with
        | none => none
        | some user => (addOption (some all) (ascii "user=")).map (fun o => o ++ user)
      else some all

def decimal (n : Nat) : Bytes := digits 10 n

def signed (fd : Int32) : Bytes :=
  if fd.toInt < 0 then 45 :: decimal fd.toInt.natAbs else decimal fd.toInt.natAbs

def fdItem (fd : Int32) : Bytes := ascii "fd=" ++ signed fd
def rootmodeItem (rootmode : UInt32) : Bytes := ascii "rootmode=" ++ digits 8 rootmode.toNat
def userIdItem (env : Env) : Bytes := ascii "user_id=" ++ decimal env.uid.toNat
def groupIdItem (env : Env) : Bytes := ascii "group_id=" ++ decimal env.gid.toNat

/- The two sprintf calls at d. -/
def ownOpts (env : Env) (fd : Int32) (rootmode : UInt32) (groupId : Bool) : Bytes :=
  let short := fdItem fd ++ [comma] ++ rootmodeItem rootmode ++ [comma] ++ userIdItem env
  if groupId then short ++ [comma] ++ groupIdItem env else short

structure MountCall where
  source : Bytes
  target : Bytes
  type : Bytes
  flags : Flags
  data : Bytes
  deriving DecidableEq, Repr

def einval : Nat := 22
def enodev : Nat := 19

/- mount_notrunc: too long a data string fails without a mount(2) call. The result is
the call made, if any, and the errno of a failure. -/
def mountNotrunc (env : Env) (call : MountCall) (result : Option Nat) :
    List MountCall × Option Nat :=
  if call.data.length > env.pagesize - 1 then ([],some einval) else ([call],result)

structure Run where
  calls : List MountCall
  written : Nat
  ended : End
  deriving DecidableEq, Repr

def fsType (blkdev : Bool) : Bytes := if blkdev then ascii "fuseblk" else ascii "fuse"

/- The first attempt, and a second one for a kernel that does not know the subtype.
Also returns the errno left over and the source and type in use. -/
def firstMounts (env : Env) (st : Scan) (mnt dev data : Bytes) :
    List MountCall × Option Nat × Bytes × Bytes :=
  let type := match st.subtype with
    | some subtype => fsType st.blkdev ++ [46] ++ subtype
    | none => fsType st.blkdev
  let source := (st.fsname.or st.subtype).getD dev
  let first := mountNotrunc env ⟨source,mnt,type,st.flags,data⟩ env.mount1
  match st.subtype with
  | none => (first.1,first.2,source,type)
  | some subtype =>
    if first.2 = some enodev then
      let type := fsType st.blkdev
      let source := match st.fsname with
        | some fsname => if st.blkdev then source else subtype ++ [35] ++ fsname
        | none => type
      let second := mountNotrunc env ⟨source,mnt,type,st.flags,data⟩ env.mount2
      (first.1 ++ second.1,second.2,source,type)
    else (first.1,first.2,source,type)

/- The mounting part, from the first mount_notrunc on. -/
def mountSequence (env : Env) (st : Scan) (mnt dev mntOpts : Bytes) (fd : Int32) (rootmode : UInt32) : Run :=
  let full := st.optbuf ++ ownOpts env fd rootmode true
  let short := st.optbuf ++ ownOpts env fd rootmode false
  let (calls,error,source,type) := firstMounts env st mnt dev full
  if error = some einval then
    let last := mountNotrunc env ⟨source,mnt,type,st.flags,short⟩ env.mount3
    ⟨calls ++ last.1,max (full.length + 1) (short.length + 1),
      if last.2 = none then .mounted source type mntOpts else .err⟩
  else ⟨calls,full.length + 1,if error = none then .mounted source type mntOpts else .err⟩

def doMount (env : Env) (mnt dev opts : Bytes) (fd : Int32) (rootmode : UInt32) : Run :=
  if !env.optbufMem then ⟨[],0,.err⟩
  else match optionLoop env ⟨msNosuid ||| msNodev,[],none,none,false,false⟩ opts with
    | .error (e,written) => ⟨[],written,e⟩
    | .ok st =>
      match getMntOpts env st.flags st.optbuf with
      | none => ⟨[],st.optbuf.length + 1,.err⟩
      | some mntOpts =>
        if !env.sourceMem then ⟨[],(st.optbuf ++ ownOpts env fd rootmode true).length + 1,.err⟩
        else mountSequence env st mnt dev mntOpts fd rootmode

/-! Tokens. An option that is neither fsname= nor subtype= stops at its first comma. -/

theorem optionLenLe (escapeOk : Bool) (s : Bytes) : optionLen escapeOk s ≤ s.length := by
  induction s using optionLen.induct escapeOk with
  | case1 => simp [optionLen]
  | case2 => simp [optionLen]
  | case3 b other => simp [optionLen,other]
  | case4 b next rest hidden ih => simp only [optionLen,if_pos hidden,List.length_cons]; omega
  | case5 next rest plain => rw [optionLen,if_neg plain,if_pos rfl]; omega
  | case6 b next rest plain other ih =>
    simp only [optionLen,if_neg plain,if_neg other]
    simp only [List.length_cons] at ih ⊢
    omega

theorem optionPlain (s : Bytes) : comma ∉ s.take (optionLen false s) := by
  induction s using optionLen.induct false with
  | case1 => simp [optionLen]
  | case2 => simp [optionLen]
  | case3 b other => simp [optionLen,other,Ne.symm other]
  | case4 b next rest hidden ih => simp at hidden
  | case5 next rest plain => simp [optionLen]
  | case6 b next rest plain other ih =>
    simp only [optionLen,if_neg plain,if_neg other,Nat.add_comm 1,List.take_succ_cons]
    exact fun mem => (List.mem_cons.mp mem).elim (fun eq => other eq.symm) ih

theorem optionPrefix {beg s : Bytes} (plain : comma ∉ beg) (starts : beg <+: s) :
    beg <+: s.take (optionLen false s) := by
  induction beg generalizing s with
  | nil => exact List.nil_prefix
  | cons b beg ih =>
    obtain ⟨rest,rfl⟩ := starts
    obtain ⟨first,later⟩ := not_or.mp (mt List.mem_cons.mpr plain)
    have tail := ih later (List.prefix_append beg rest)
    cases hs : beg ++ rest with
    | nil => simp_all [optionLen,Ne.symm]
    | cons next more =>
      rw [List.cons_append,hs,optionLen,if_neg (by simp),if_neg (Ne.symm first),Nat.add_comm 1,
        List.take_succ_cons,← hs]
      exact List.cons_prefix_cons.mpr ⟨rfl,tail⟩

def Allowed (env : Env) (item : Bytes) : Prop :=
  item = ascii "default_permissions" ∨ (item = ascii "allow_other" ∧ env.userAllowOther = true) ∨
  ascii "max_read=" <+: item ∨ ascii "blksize=" <+: item

def Contains (flags mask : Flags) : Prop := flags &&& mask = mask

theorem Contains.or {flags mask : Flags} (h : Contains flags mask) (flag : Flags) :
    Contains (flags ||| flag) mask := by
  unfold Contains at *
  ext i hi
  have bit : (flags[i] && mask[i]) = mask[i] := by
    rw [← BitVec.getElem_and,h]
  rw [BitVec.getElem_and,BitVec.getElem_or]
  revert bit
  generalize flags[i] = a, mask[i] = b, flag[i] = c
  revert a b c
  decide

theorem Contains.clear {flags mask flag : Flags} (h : Contains flags mask) (apart : flag &&& mask = 0) :
    Contains (flags &&& ~~~flag) mask := by
  unfold Contains at *
  ext i hi
  have bit : (flags[i] && mask[i]) = mask[i] := by
    rw [← BitVec.getElem_and,h]
  have other : (flag[i] && mask[i]) = false := by
    rw [← BitVec.getElem_and,apart]
    simp
  rw [BitVec.getElem_and,BitVec.getElem_and,BitVec.getElem_not]
  revert bit other
  generalize flags[i] = a, mask[i] = b, flag[i] = c
  revert a b c
  decide

def safeMask : Flags := msNosuid ||| msNodev

theorem Contains.nosuid {flags : Flags} (h : Contains flags safeMask) : Contains flags msNosuid := by
  unfold Contains at *
  have both : msNosuid = safeMask &&& msNosuid := by decide
  rw [both,← BitVec.and_assoc,h]

theorem Contains.nodev {flags : Flags} (h : Contains flags safeMask) : Contains flags msNodev := by
  unfold Contains at *
  have both : msNodev = safeMask &&& msNodev := by decide
  rw [both,← BitVec.and_assoc,h]

theorem safeFlagsApart : ∀ m ∈ mountFlags, m.on = false → m.safe = true → m.flag &&& safeMask = 0 := by
  decide

theorem clearedFlagApart {env token flag} (unprivileged : env.uid ≠ 0)
    (found : findMountFlag env token = some (false,flag)) : flag &&& safeMask = 0 := by
  simp only [findMountFlag,bind,Option.bind_eq_some_iff] at found
  obtain ⟨m,hm,last⟩ := found
  simp only [Option.some.injEq,Prod.mk.injEq] at last
  obtain ⟨off,rfl⟩ := last
  split
  · simp [safeMask]
  · rename_i kept
    apply safeFlagsApart m (List.mem_of_find?_eq_some hm) off
    simpa [unprivileged] using kept

/- What the loop keeps: the two flags, and an optbuf made of allowed items. -/
structure Kept (env : Env) (st : Scan) : Prop where
  flags : Contains st.flags safeMask
  items : ∃ items : List Bytes, st.optbuf = items.flatMap (fun item => item ++ [comma]) ∧
    ∀ item ∈ items, comma ∉ item ∧ Allowed env item

theorem Kept.append {env st item} (h : Kept env st) (plain : comma ∉ item) (allowed : Allowed env item) :
    Kept env {st with optbuf := st.optbuf ++ item ++ [comma]} := by
  obtain ⟨items,buf,good⟩ := h.items
  refine ⟨h.flags,items ++ [item],by simp [buf],?_⟩
  intro x mem
  rcases List.mem_append.mp mem with old | new
  · exact good x old
  · rw [List.mem_singleton.mp new]
    exact ⟨plain,allowed⟩

theorem kernelOptionKept {env st s out} (unprivileged : env.uid ≠ 0) (h : Kept env st)
    (ok : kernelOption env st s (s.take (optionLen false s)) = .ok out) :
    Kept env out ∧ out.optbuf.length ≤ st.optbuf.length + optionLen false s + 1 := by
  have plain := optionPlain s
  have short : (s.take (optionLen false s)).length ≤ optionLen false s := by
    simp only [List.length_take]
    omega
  unfold kernelOption at ok
  simp only at ok
  split at ok <;> try contradiction
  rename_i permitted
  split at ok
  · cases ok
    exact ⟨h,by omega⟩
  split at ok
  · cases ok
    exact ⟨⟨h.flags.or _,h.items⟩,by simp only; omega⟩
  · rename_i flag found
    cases ok
    exact ⟨⟨h.flags.clear (clearedFlagApart unprivileged found),h.items⟩,by simp only; omega⟩
  · split at ok <;> try contradiction
    rename_i matched
    cases ok
    refine ⟨h.append plain ?_,by simp only [List.length_append,List.length_singleton]; omega⟩
    simp only [Bool.or_eq_true,optEq,decide_eq_true_eq,beginsWith,List.isPrefixOf_iff_prefix] at matched
    rcases matched with ((exact' | other) | read) | size
    · exact .inl exact'
    · refine .inr (.inl ⟨other,?_⟩)
      simpa [optEq,other,unprivileged] using permitted
    · exact .inr (.inr (.inl (optionPrefix (by decide) read)))
    · exact .inr (.inr (.inr (optionPrefix (by decide) size)))

theorem readOptionKept {env st s out} (unprivileged : env.uid ≠ 0) (h : Kept env st)
    (ok : readOption env st s (s.take (tokenLen s)) = .ok out) :
    Kept env out ∧ out.optbuf.length ≤ st.optbuf.length + tokenLen s + 1 := by
  unfold readOption at ok
  split at ok
  · split at ok <;> try contradiction
    cases ok
    exact ⟨⟨h.flags,h.items⟩,by simp only; omega⟩
  rename_i notFsname
  split at ok
  · split at ok <;> try contradiction
    cases ok
    exact ⟨⟨h.flags,h.items⟩,by simp only; omega⟩
  rename_i notSubtype
  have unescaped : tokenLen s = optionLen false s := by simp [tokenLen,notFsname,notSubtype]
  split at ok <;> try contradiction
  split at ok
  · cases ok
    exact ⟨⟨h.flags,h.items⟩,by simp only; omega⟩
  split at ok
  · rw [unescaped] at ok ⊢
    exact kernelOptionKept unprivileged h ok
  · cases ok
    exact ⟨h,by omega⟩

/- Bytes of optbuf the rest of the loop can still fill: the last option gains a comma. -/
def room (s : Bytes) : Nat := if s = [] then 0 else s.length + 1

theorem roomDrop {s : Bytes} {len : Nat} (bound : len ≤ s.length) (some : s ≠ []) :
    len + 1 + room (s.drop (len + 1)) ≤ room s := by
  rw [room,room,if_neg some]
  split
  · omega
  · rename_i left
    rw [List.drop_eq_nil_iff] at left
    simp only [List.length_drop]
    omega

theorem tokenLenLe (s : Bytes) : tokenLen s ≤ s.length := optionLenLe _ s

theorem optionLoopKept {env : Env} (unprivileged : env.uid ≠ 0) {st : Scan} {s : Bytes} (h : Kept env st) :
    (∀ out, optionLoop env st s = .ok out → Kept env out ∧ out.optbuf.length ≤ st.optbuf.length + room s) ∧
    ∀ e written, optionLoop env st s = .error (e,written) → written ≤ st.optbuf.length + room s := by
  induction st, s using optionLoop.induct env with
  | case1 st =>
    rw [optionLoop]
    refine ⟨?_,nofun⟩
    intro out ok
    cases ok
    exact ⟨h,by omega⟩
  | case2 st b rest len long =>
    rw [optionLoop,if_pos long]
    refine ⟨nofun,?_⟩
    intro e written failed
    cases failed
    omega
  | case3 st b rest len short e failed =>
    rw [optionLoop,if_neg short,failed]
    refine ⟨nofun,?_⟩
    intro e written failed
    cases failed
    omega
  | case4 st b rest len short next read ih =>
    obtain ⟨kept,grown⟩ := readOptionKept unprivileged h read
    obtain ⟨good,bad⟩ := ih kept
    have used : len + 1 + room ((b :: rest).drop (len + 1)) ≤ room (b :: rest) :=
      roomDrop (tokenLenLe _) (by simp)
    have counted : next.optbuf.length ≤ st.optbuf.length + len + 1 := grown
    rw [optionLoop,if_neg short,read]
    constructor
    · intro out ok
      obtain ⟨keptOut,size⟩ := good out ok
      exact ⟨keptOut,by omega⟩
    · intro e written failed
      have size := bad e written failed
      omega

theorem signedLength (fd : Int32) : (signed fd).length ≤ 11 := by
  have low := Int32.le_toInt fd
  have high := Int32.toInt_lt fd
  have short : (decimal fd.toInt.natAbs).length ≤ 10 := CString.digitsLength (k := 9) (by omega)
  unfold signed
  split
  · simp only [List.length_cons]; omega
  · omega

theorem ownOptsLength (env : Env) (fd : Int32) (rootmode : UInt32) (groupId : Bool) :
    (ownOpts env fd rootmode groupId).length ≤ 74 := by
  have fdLen := signedLength fd
  have modeBound := rootmode.toNat_lt
  have uidBound := env.uid.toNat_lt
  have gidBound := env.gid.toNat_lt
  have mode : (digits 8 rootmode.toNat).length ≤ 11 := CString.digitsLength (k := 10) (by omega)
  have user : (decimal env.uid.toNat).length ≤ 10 := CString.digitsLength (k := 9) (by omega)
  have group : (decimal env.gid.toNat).length ≤ 10 := CString.digitsLength (k := 9) (by omega)
  have keys : (ascii "fd=").length = 3 ∧ (ascii "rootmode=").length = 9 ∧
    (ascii "user_id=").length = 8 ∧ (ascii "group_id=").length = 9 := by decide
  obtain ⟨k1,k2,k3,k4⟩ := keys
  unfold ownOpts
  cases groupId <;>
    simp only [fdItem,rootmodeItem,userIdItem,groupIdItem,List.length_append,List.length_singleton,
      k1,k2,k3,k4,if_true,if_false,Bool.false_eq_true] <;> omega

theorem digitsPlain {base n : Nat} (ten : base ≤ 10) (two : 2 ≤ base) : comma ∉ digits base n := by
  intro mem
  have low := (CString.digitRange ten two comma mem).1
  simp [comma] at low

theorem signedPlain (fd : Int32) : comma ∉ signed fd := by
  unfold signed
  split
  · rw [List.mem_cons]
    rintro (bad | bad)
    · revert bad; decide
    · exact digitsPlain (by omega) (by omega) bad
  · exact digitsPlain (by omega) (by omega)

/- The items the program itself prints, with or without group_id=. -/
def ownItems (env : Env) (fd : Int32) (rootmode : UInt32) (groupId : Bool) : List Bytes :=
  [fdItem fd,rootmodeItem rootmode,userIdItem env] ++ if groupId then [groupIdItem env] else []

theorem splitOwnOpts (env : Env) (fd : Int32) (rootmode : UInt32) (groupId : Bool) :
    split comma (ownOpts env fd rootmode groupId) = ownItems env fd rootmode groupId := by
  have fdPlain : comma ∉ fdItem fd := by
    simp only [fdItem,List.mem_append,not_or]
    exact ⟨by decide,signedPlain fd⟩
  have modePlain : comma ∉ rootmodeItem rootmode := by
    simp only [rootmodeItem,List.mem_append,not_or]
    exact ⟨by decide,digitsPlain (by omega) (by omega)⟩
  have userPlain : comma ∉ userIdItem env := by
    simp only [userIdItem,List.mem_append,not_or]
    exact ⟨by decide,digitsPlain (by omega) (by omega)⟩
  have groupPlain : comma ∉ groupIdItem env := by
    simp only [groupIdItem,List.mem_append,not_or]
    exact ⟨by decide,digitsPlain (by omega) (by omega)⟩
  unfold ownOpts ownItems
  cases groupId <;>
    simp [CString.splitAppend fdPlain,CString.splitAppend modePlain,CString.splitAppend userPlain,
      CString.splitField userPlain,CString.splitField groupPlain]

theorem splitData {env st} (h : Kept env st) (fd : Int32) (rootmode : UInt32) (groupId : Bool) :
    ∃ kept, split comma (st.optbuf ++ ownOpts env fd rootmode groupId) =
        kept ++ ownItems env fd rootmode groupId ∧ ∀ item ∈ kept, Allowed env item := by
  obtain ⟨items,buf,good⟩ := h.items
  refine ⟨items,?_,fun item mem => (good item mem).2⟩
  rw [buf,CString.splitFlatMap (fun item mem => (good item mem).1),splitOwnOpts]

theorem mountNotruncCall {env call made result} (mem : call ∈ (mountNotrunc env made result).1) :
    call = made := by
  unfold mountNotrunc at mem
  split at mem
  · simp at mem
  · simpa using mem

theorem firstMountsCalls {env st mnt dev data call} (mem : call ∈ (firstMounts env st mnt dev data).1) :
    call.flags = st.flags ∧ call.data = data := by
  cases subtype : st.subtype with
  | none =>
    simp only [firstMounts,subtype] at mem
    rw [mountNotruncCall mem]
    exact ⟨rfl,rfl⟩
  | some name =>
    simp only [firstMounts,subtype] at mem
    split at mem
    · rcases List.mem_append.mp mem with first | second
      · rw [mountNotruncCall first]
        exact ⟨rfl,rfl⟩
      · rw [mountNotruncCall second]
        exact ⟨rfl,rfl⟩
    · rw [mountNotruncCall mem]
      exact ⟨rfl,rfl⟩

theorem mountSequenceCalls {env st mnt dev mntOpts fd rootmode call}
    (mem : call ∈ (mountSequence env st mnt dev mntOpts fd rootmode).calls) :
    call.flags = st.flags ∧ ∃ groupId, call.data = st.optbuf ++ ownOpts env fd rootmode groupId := by
  unfold mountSequence at mem
  simp only at mem
  split at mem
  · rcases List.mem_append.mp mem with early | last
    · obtain ⟨flags,data⟩ := firstMountsCalls early
      exact ⟨flags,true,data⟩
    · rw [mountNotruncCall last]
      exact ⟨rfl,false,rfl⟩
  · obtain ⟨flags,data⟩ := firstMountsCalls mem
    exact ⟨flags,true,data⟩

theorem mountSequenceWritten (env st mnt dev mntOpts fd rootmode) :
    (mountSequence env st mnt dev mntOpts fd rootmode).written ≤ st.optbuf.length + 75 := by
  have full := ownOptsLength env fd rootmode true
  have short := ownOptsLength env fd rootmode false
  unfold mountSequence
  simp only
  split <;> simp only [List.length_append] <;> omega

def ReservedKey (item : Bytes) : Prop :=
  ∃ key ∈ ["fd=","rootmode=","user_id=","group_id="], ascii key <+: item

theorem allowedNotReserved {env item} (allowed : Allowed env item) : ¬ ReservedKey item := by
  rintro ⟨key,mem,starts⟩
  have clash : ∀ key ∈ ["fd=","rootmode=","user_id=","group_id="],
      ∀ start ∈ ["default_permissions","allow_other","max_read=","blksize="],
        ¬ ascii key <+: ascii start ∧ ¬ ascii start <+: ascii key := by decide
  have either : ∀ start ∈ ["default_permissions","allow_other","max_read=","blksize="],
      ¬ ascii start <+: item := by
    intro start which other
    have apart := clash key mem start which
    rcases List.prefix_or_prefix_of_prefix starts other with short | long
    · exact apart.1 short
    · exact apart.2 long
  rcases allowed with rfl | ⟨rfl,_⟩ | read | size
  · exact either "default_permissions" (by simp) (List.prefix_refl _)
  · exact either "allow_other" (by simp) (List.prefix_refl _)
  · exact either "max_read=" (by simp) read
  · exact either "blksize=" (by simp) size

theorem doMountFiltersOptions (env : Env) (mnt dev opts : Bytes) (fd : Int32) (rootmode : UInt32)
    (unprivileged : env.uid ≠ 0) :
    (doMount env mnt dev opts fd rootmode).written ≤ opts.length + 128 ∧
    ∀ call ∈ (doMount env mnt dev opts fd rootmode).calls,
      Contains call.flags msNosuid ∧ Contains call.flags msNodev ∧
      ∃ kept groupId, split comma call.data = kept ++ ownItems env fd rootmode groupId ∧
        ∀ item ∈ kept, Allowed env item ∧ ¬ ReservedKey item := by
  have start : Kept env ⟨msNosuid ||| msNodev,[],none,none,false,false⟩ :=
    ⟨by unfold Contains; decide,[],rfl,by simp⟩
  obtain ⟨good,bad⟩ := optionLoopKept unprivileged (s := opts) start
  have space : room opts ≤ opts.length + 1 := by unfold room; split <;> omega
  have full := ownOptsLength env fd rootmode true
  simp only [List.length_nil] at good bad
  unfold doMount
  split
  · exact ⟨by simp,by simp⟩
  split
  · rename_i e written failed
    have size := bad e written failed
    exact ⟨by simp only; omega,by simp⟩
  · rename_i st scanned
    obtain ⟨kept,size⟩ := good st scanned
    split
    · exact ⟨by simp only; omega,by simp⟩
    split
    · exact ⟨by simp only [List.length_append]; omega,by simp⟩
    · rename_i mntOpts _ _
      have written := mountSequenceWritten env st mnt dev mntOpts fd rootmode
      refine ⟨by omega,fun call mem => ?_⟩
      obtain ⟨flags,groupId,data⟩ := mountSequenceCalls mem
      obtain ⟨items,splits,allowed⟩ := splitData kept fd rootmode groupId
      rw [flags,data]
      exact ⟨kept.flags.nosuid,kept.flags.nodev,items,groupId,splits,
        fun item mem => ⟨allowed item mem,allowedNotReserved (allowed item mem)⟩⟩

/- An ordinary user on a recent kernel, every allocation and the first mount succeeding. -/
def userEnv : Env :=
  ⟨1000,1000,false,some (6,1),4096,true,fun _ => true,true,true,some (ascii "user"),none,none,none⟩

theorem userCannotForgeKeys :
    (doMount userEnv (ascii "/mnt") (ascii "/dev/fuse") (ascii "suid,max_read=5,fd=9") 3 0o40000).calls.map
        MountCall.data = [ascii "max_read=5,fd=3,rootmode=40000,user_id=1000,group_id=1000"] ∧
    ∀ call ∈ (doMount userEnv (ascii "/mnt") (ascii "/dev/fuse") (ascii "suid,max_read=5,fd=9") 3 0o40000).calls,
      Contains call.flags msNosuid :=
  ⟨by decide +kernel,fun call mem => ((doMountFiltersOptions userEnv (ascii "/mnt") (ascii "/dev/fuse")
    (ascii "suid,max_read=5,fd=9") 3 0o40000 (by decide)).2 call mem).1⟩

end FuseStudy.DoMount
