import FuseStudy.XOptions

/-! The option string on its way from the library to fusermount: parse_mount_opts and
fuse_kern_mount of lib/mount.c build it, extract_x_options and the loop of do_mount in
util/fusermount.c take it apart again. -/
namespace FuseStudy.KernMount
open CString
open DoMount hiding Run
open XOptions (isXOpt)

/-! lib/fuse_opt.c: one more option behind those already in the list. -/

def escaped (opt : Bytes) : Bytes :=
  opt.flatMap (fun b => if b = comma ∨ b = backslash then [backslash,b] else [b])

/- The old length is an unsigned int, the text is written from there on. -/
def addOptCommon (opts : Option Bytes) (opt : Bytes) (esc : Bool) : Bytes :=
  let old := opts.getD []
  let oldlen := old.length % 2 ^ 32
  let text := if esc then escaped opt else opt
  if oldlen = 0 then text else old.take oldlen ++ comma :: text

def fuseOptAddOpt (opts : Option Bytes) (opt : Bytes) : Bytes := addOptCommon opts opt false
def fuseOptAddOptEscaped (opts : Option Bytes) (opt : Bytes) : Bytes := addOptCommon opts opt true

/- The position of the first '=' of a template, else of its first blank. -/
def separator (t : Bytes) : Option Nat := (t.idxOf? 61).or (t.idxOf? 32)

def matchTemplate (t arg : Bytes) : Bool :=
  (match separator t with
    | some sep =>
      let tlen := if t[sep]? = some 61 then sep + 1 else sep
      (t[sep+1]? = none || t[sep+1]? = some 37) && (t.take tlen).isPrefixOf arg
    | none => false) || t = arg

/-! lib/mount.c. -/

structure LibFlag where
  opt : Bytes
  flag : Flags
  on : Bool

def libMountFlags : List LibFlag := [
  ⟨ascii "rw",msRdonly,false⟩,
  ⟨ascii "ro",msRdonly,true⟩,
  ⟨ascii "suid",msNosuid,false⟩,
  ⟨ascii "nosuid",msNosuid,true⟩,
  ⟨ascii "dev",msNodev,false⟩,
  ⟨ascii "nodev",msNodev,true⟩,
  ⟨ascii "exec",msNoexec,false⟩,
  ⟨ascii "noexec",msNoexec,true⟩,
  ⟨ascii "async",msSynchronous,false⟩,
  ⟨ascii "sync",msSynchronous,true⟩,
  ⟨ascii "noatime",msNoatime,true⟩,
  ⟨ascii "nodiratime",msNodiratime,true⟩,
  ⟨ascii "norelatime",msRelatime,false⟩,
  ⟨ascii "nostrictatime",msStrictatime,false⟩,
  ⟨ascii "symfollow",msNosymfollow,false⟩,
  ⟨ascii "nosymfollow",msNosymfollow,true⟩,
  ⟨ascii "dirsync",msDirsync,true⟩]

structure MountOpts where
  allowOther : Bool
  flags : Flags
  autoUnmount : Bool
  blkdev : Bool
  fsname : Option Bytes
  subtype : Option Bytes
  subtypeOpt : Option Bytes
  mtabOpts : Option Bytes
  fusermountOpts : Option Bytes
  kernelOpts : Option Bytes
  deriving DecidableEq, Repr

inductive Key where
  | kernFlag | kernOpt | fusermountOpt | subtypeOpt | mtabOpt | ro | opt
  deriving DecidableEq, Repr

/- What a template does on a match: sets a field, or calls fuse_mount_opt_proc. -/
inductive Action where
  | allowOther | blkdev | autoUnmount | fsname | maxRead | subtype
  | proc (key : Key)
  deriving DecidableEq, Repr

def fuseMountOpts : List (Bytes × Action) := [
  (ascii "allow_other",.allowOther),
  (ascii "blkdev",.blkdev),
  (ascii "auto_unmount",.autoUnmount),
  (ascii "fsname=%s",.fsname),
  (ascii "max_read=%u",.maxRead),
  (ascii "subtype=%s",.subtype),
  (ascii "allow_other",.proc .kernOpt),
  (ascii "auto_unmount",.proc .fusermountOpt),
  (ascii "blkdev",.proc .fusermountOpt),
  (ascii "fsname=",.proc .fusermountOpt),
  (ascii "subtype=",.proc .subtypeOpt),
  (ascii "blksize=",.proc .kernOpt),
  (ascii "default_permissions",.proc .kernOpt),
  (ascii "context=",.proc .kernOpt),
  (ascii "fscontext=",.proc .kernOpt),
  (ascii "defcontext=",.proc .kernOpt),
  (ascii "rootcontext=",.proc .kernOpt),
  (ascii "max_read=",.proc .kernOpt),
  (ascii "user=",.proc .mtabOpt),
  (ascii "-n",.proc .mtabOpt),
  (ascii "-r",.proc .ro),
  (ascii "ro",.proc .kernFlag),
  (ascii "rw",.proc .kernFlag),
  (ascii "suid",.proc .kernFlag),
  (ascii "nosuid",.proc .kernFlag),
  (ascii "dev",.proc .kernFlag),
  (ascii "nodev",.proc .kernFlag),
  (ascii "exec",.proc .kernFlag),
  (ascii "noexec",.proc .kernFlag),
  (ascii "async",.proc .kernFlag),
  (ascii "sync",.proc .kernFlag),
  (ascii "dirsync",.proc .kernFlag),
  (ascii "noatime",.proc .kernFlag),
  (ascii "nodiratime",.proc .kernFlag),
  (ascii "nostrictatime",.proc .kernFlag),
  (ascii "symfollow",.proc .kernFlag),
  (ascii "nosymfollow",.proc .kernFlag)]

/- none is the abort on a name that is not in the table. -/
def setMountFlag (s : Bytes) (flags : Flags) : Option Flags :=
  (libMountFlags.find? (fun m => m.opt = s)).map
    (fun m => if m.on then flags ||| m.flag else flags &&& ~~~m.flag)

def fuseMountOptProc (mo : MountOpts) (arg : Bytes) : Key → Option MountOpts
  | .ro => (setMountFlag (ascii "ro") mo.flags).map (fun flags => {mo with flags})
  | .kernFlag => (setMountFlag arg mo.flags).map (fun flags => {mo with flags})
  | .kernOpt => some {mo with kernelOpts := some (fuseOptAddOpt mo.kernelOpts arg)}
  | .fusermountOpt => some {mo with fusermountOpts := some (fuseOptAddOptEscaped mo.fusermountOpts arg)}
  | .subtypeOpt => some {mo with subtypeOpt := some (fuseOptAddOpt mo.subtypeOpt arg)}
  | .mtabOpt => some {mo with mtabOpts := some (fuseOptAddOpt mo.mtabOpts arg)}
  | .opt =>
    if isXOpt arg then some {mo with mtabOpts := some (fuseOptAddOpt mo.mtabOpts arg)}
    else some mo

/- sscanf of "%u": blanks, a sign, and at least one digit. -/
def scansUnsigned (param : Bytes) : Bool :=
  let rest := param.dropWhile (fun b => b = 32 || (9 ≤ b && b ≤ 13))
  let digits := match rest with
    | b :: more => if b = 43 || b = 45 then more else rest
    | [] => []
  match digits with
  | b :: _ => 48 ≤ b && b ≤ 57
  | [] => false

def processOpt (mo : MountOpts) (arg : Bytes) : Action → Option MountOpts
  | .allowOther => some {mo with allowOther := true}
  | .blkdev => some {mo with blkdev := true}
  | .autoUnmount => some {mo with autoUnmount := true}
  | .fsname => some {mo with fsname := some (arg.drop (ascii "fsname=").length)}
  | .subtype => some {mo with subtype := some (arg.drop (ascii "subtype=").length)}
  | .maxRead => if scansUnsigned (arg.drop (ascii "max_read=").length) then some mo else none
  | .proc key => fuseMountOptProc mo arg key

/- Every matching template acts, in the order of the table. -/
def processGopt (mo : MountOpts) (arg : Bytes) : Option MountOpts :=
  match fuseMountOpts.filter (fun o => matchTemplate o.1 arg) with
  | [] => fuseMountOptProc mo arg .opt
  | found => found.foldlM (fun mo o => processOpt mo arg o.2) mo

def emptyOpts : MountOpts :=
  ⟨false,msNosuid ||| msNodev,false,false,none,none,none,none,none,none⟩

def parseMountOpts (args : List Bytes) : Option MountOpts := args.foldlM processGopt emptyOpts

def getMntFlagOpts (flags : Flags) : Option Bytes :=
  let rw := if flags &&& msRdonly = 0 then some (fuseOptAddOpt none (ascii "rw")) else none
  libMountFlags.foldl (fun opts m =>
    if m.on && flags &&& m.flag ≠ 0 then some (fuseOptAddOpt opts m.opt) else opts) rw

def addOpts (opts more : Option Bytes) : Option Bytes :=
  match more with
  | some more => some (fuseOptAddOpt opts more)
  | none => opts

/- The string of the first fuse_mount_fusermount call in fuse_kern_mount. -/
def fuseKernMount (mo : MountOpts) : Bytes :=
  let mntOpts := getMntFlagOpts mo.flags
  let mntOpts := addOpts mntOpts mo.kernelOpts
  let mntOpts := addOpts mntOpts mo.mtabOpts
  let mntOpts := addOpts mntOpts mo.fusermountOpts
  match mo.subtype with
  | some _ =>
    let tmpOpts := fuseOptAddOpt none (mntOpts.getD [])
    fuseOptAddOpt (some tmpOpts) (mo.subtypeOpt.getD [])
  | none => mntOpts.getD []

/-! The lists the library keeps are comma separated items. -/

def listed (items : List Bytes) : Option Bytes := if items = [] then none else some (joined comma items)

theorem joinedNe {items : List Bytes} (some : items ≠ []) (full : ∀ item ∈ items, item ≠ []) :
    joined comma items ≠ [] := by
  cases items with
  | nil => exact absurd rfl some
  | cons item rest =>
    cases rest with
    | nil => exact full item List.mem_cons_self
    | cons next rest =>
      rw [joinedCons comma item (by simp)]
      simp

theorem addListed {items more : List Bytes} (full : ∀ item ∈ items, item ≠ []) (some : more ≠ [])
    (short : (joined comma items).length < 2 ^ 32) :
    fuseOptAddOpt (listed items) (joined comma more) = joined comma (items ++ more) := by
  unfold fuseOptAddOpt addOptCommon listed
  by_cases none : items = []
  · simp [none]
  · have old := List.length_pos_iff.mpr (joinedNe none full)
    simp only [if_neg none,Option.getD_some,Nat.mod_eq_of_lt short,Bool.false_eq_true,if_false]
    rw [if_neg (by omega),List.take_length,joinedAppend comma none some]

theorem addListedEscaped {items : List Bytes} (full : ∀ item ∈ items, item ≠ []) (opt : Bytes)
    (short : (joined comma items).length < 2 ^ 32) :
    fuseOptAddOptEscaped (listed items) opt = joined comma (items ++ [escaped opt]) :=
  addListed full (List.cons_ne_nil (escaped opt) []) short

theorem addOptsListed {items more : List Bytes} (full : ∀ item ∈ items, item ≠ [])
    (short : (joined comma items).length < 2 ^ 32) :
    addOpts (listed items) (listed more) = listed (items ++ more) := by
  by_cases none : more = []
  · simp [addOpts,listed,none]
  · have text := addListed full none short
    have grown : items ++ more ≠ [] := by simp [none]
    have given : listed more = some (joined comma more) := if_neg none
    have result : listed (items ++ more) = some (joined comma (items ++ more)) := if_neg grown
    rw [given,result,← text]
    rfl

/-! What the command line asks for, each option given by its own text. -/

inductive Arg where
  | flag (name : Bytes)
  | kern (opt : Bytes)
  | third (opt : Bytes)
  | fsname (value : Bytes)
  | subtype (value : Bytes)
  deriving DecidableEq, Repr

def fsnameItem (value : Bytes) : Bytes := ascii "fsname=" ++ value
def subtypeItem (value : Bytes) : Bytes := ascii "subtype=" ++ value

def Arg.text : Arg → Bytes
  | .flag name => name
  | .kern opt => opt
  | .third opt => opt
  | .fsname value => fsnameItem value
  | .subtype value => subtypeItem value

def kerns : List Arg → List Bytes := List.filterMap fun
  | .kern opt => some opt
  | _ => none
def thirds : List Arg → List Bytes := List.filterMap fun
  | .third opt => some opt
  | _ => none
def fsnames : List Arg → List Bytes := List.filterMap fun
  | .fsname value => some value
  | _ => none
def subtypes : List Arg → List Bytes := List.filterMap fun
  | .subtype value => some value
  | _ => none

def flagNames : List Bytes := (fuseMountOpts.filter (fun o => o.2 = .proc .kernFlag)).map Prod.fst

def Accepted (env : Env) (opt : Bytes) : Prop :=
  opt = ascii "default_permissions" ∨
  (opt = ascii "allow_other" ∧ (env.uid = 0 ∨ env.userAllowOther = true)) ∨
  ascii "max_read=" <+: opt ∨ ascii "blksize=" <+: opt

def Plain (opt : Bytes) : Prop := comma ∉ opt ∧ backslash ∉ opt

def Arg.Proper (env : Env) : Arg → Prop
  | .flag name => name ∈ flagNames
  | .kern opt => Accepted env opt ∧ Plain opt
  | .third opt => ascii "x-" <+: opt ∧ Plain opt
  | .fsname _ => True
  | .subtype _ => True

/- Room for every option with each byte escaped, and for a comma. -/
def weight (args : List Arg) : Nat := (args.map (fun a => 2 * a.text.length + 1)).sum

def libMask : Flags := libMountFlags.foldl (fun mask m => if m.on then mask ||| m.flag else mask) 0

structure Parsed (mo : MountOpts) (args : List Arg) : Prop where
  flags : mo.flags &&& libMask = mo.flags
  kernel : mo.kernelOpts = listed (kerns args)
  mtab : mo.mtabOpts = listed (thirds args)
  fusermount : mo.fusermountOpts = listed ((fsnames args).map (fun value => escaped (fsnameItem value)))
  subtypeOpt : mo.subtypeOpt = listed ((subtypes args).map subtypeItem)
  subtype : mo.subtype = (subtypes args).getLast?

theorem flagMatch : ∀ name ∈ flagNames, fuseMountOpts.filter (fun o => matchTemplate o.1 name) =
    [(name,.proc .kernFlag)] := by decide

theorem libFlagMask : ∀ m ∈ libMountFlags, m.on = true → m.flag &&& libMask = m.flag := by decide

theorem setMountFlagWithin {name : Bytes} {flags after : Flags} (within : flags &&& libMask = flags)
    (found : setMountFlag name flags = some after) : after &&& libMask = after := by
  simp only [setMountFlag,Option.map_eq_some_iff] at found
  obtain ⟨m,hm,rfl⟩ := found
  split
  · rename_i on
    rw [BitVec.and_comm,BitVec.and_or_distrib_left,BitVec.and_comm,within,BitVec.and_comm,
      libFlagMask m (List.mem_of_find?_eq_some hm) on]
  · rw [BitVec.and_assoc,BitVec.and_comm (~~~m.flag),← BitVec.and_assoc,within]

theorem flagProcessed {mo mo' : MountOpts} {name : Bytes} (known : name ∈ flagNames)
    (done : processGopt mo name = some mo') :
    ∃ flags, setMountFlag name mo.flags = some flags ∧ mo' = {mo with flags} := by
  simp only [processGopt,flagMatch name known,List.foldlM_cons,List.foldlM_nil,processOpt,fuseMountOptProc,
    bind,Option.bind_eq_some_iff,Option.map_eq_some_iff] at done
  obtain ⟨_,⟨flags,found,rfl⟩,last⟩ := done
  exact ⟨flags,found,(Option.some.inj last).symm⟩

theorem kernProcessed {env : Env} {mo mo' : MountOpts} {opt : Bytes} (accepted : Accepted env opt)
    (done : processGopt mo opt = some mo') :
    ∃ other, mo' = {mo with allowOther := other,kernelOpts := some (fuseOptAddOpt mo.kernelOpts opt)} := by
  rcases accepted with rfl | ⟨rfl,-⟩ | ⟨value,rfl⟩ | ⟨value,rfl⟩
  · cases (show some _ = some mo' from done)
    exact ⟨mo.allowOther,rfl⟩
  · cases (show some _ = some mo' from done)
    exact ⟨true,rfl⟩
  · have found : fuseMountOpts.filter (fun o => matchTemplate o.1 (ascii "max_read=" ++ value)) =
        [(ascii "max_read=%u",.maxRead),(ascii "max_read=",.proc .kernOpt)] := rfl
    simp only [processGopt,found,List.foldlM_cons,List.foldlM_nil,processOpt,bind,Option.bind_eq_some_iff] at done
    obtain ⟨between,scanned,after,added,last⟩ := done
    split at scanned <;> try contradiction
    cases Option.some.inj scanned
    cases Option.some.inj last
    exact ⟨mo.allowOther,(Option.some.inj added).symm⟩
  · cases (show some _ = some mo' from done)
    exact ⟨mo.allowOther,rfl⟩

theorem thirdProcessed (mo : MountOpts) {opt : Bytes} (third : ascii "x-" <+: opt) :
    processGopt mo opt = some {mo with mtabOpts := some (fuseOptAddOpt mo.mtabOpts opt)} := by
  obtain ⟨rest,rfl⟩ := third
  rfl

theorem fsnameProcessed (mo : MountOpts) (value : Bytes) :
    processGopt mo (fsnameItem value) = some {mo with
      fsname := some value,
      fusermountOpts := some (fuseOptAddOptEscaped mo.fusermountOpts (fsnameItem value))} := rfl

theorem subtypeProcessed (mo : MountOpts) (value : Bytes) :
    processGopt mo (subtypeItem value) = some {mo with
      subtype := some value,
      subtypeOpt := some (fuseOptAddOpt mo.subtypeOpt (subtypeItem value))} := rfl

theorem escapedLength (opt : Bytes) : (escaped opt).length ≤ 2 * opt.length := by
  induction opt with
  | nil => simp [escaped]
  | cons b opt ih =>
    simp only [escaped,List.flatMap_cons,List.length_append,List.length_cons] at ih ⊢
    split <;> simp only [List.length_cons,List.length_nil] <;> omega

/- Whatever the library gathers from the options fits their weight. -/
theorem gatheredWeight {select : Arg → Option Bytes}
    (small : ∀ a item, select a = some item → item.length ≤ 2 * a.text.length) (args : List Arg) :
    (joined comma (args.filterMap select)).length ≤ weight args := by
  have sums : ((args.filterMap select).map (fun item => item.length + 1)).sum ≤ weight args := by
    induction args with
    | nil => simp [weight]
    | cons a args ih =>
      simp only [weight,List.map_cons,List.sum_cons] at ih ⊢
      cases chosen : select a with
      | none =>
        rw [List.filterMap_cons_none chosen]
        omega
      | some item =>
        have fits := small a item chosen
        rw [List.filterMap_cons_some chosen,List.map_cons,List.sum_cons]
        omega
  by_cases none : args.filterMap select = []
  · simp [none,joined]
  · have size := joinedLength comma none
    omega

theorem kernsShort (args : List Arg) : (joined comma (kerns args)).length ≤ weight args :=
  gatheredWeight (fun a item chosen => by
    cases a <;> simp only [Option.some.injEq,reduceCtorEq] at chosen
    simp only [Arg.text,chosen]
    omega) args

theorem thirdsShort (args : List Arg) : (joined comma (thirds args)).length ≤ weight args :=
  gatheredWeight (fun a item chosen => by
    cases a <;> simp only [Option.some.injEq,reduceCtorEq] at chosen
    simp only [Arg.text,chosen]
    omega) args

theorem fsnamesShort (args : List Arg) :
    (joined comma ((fsnames args).map (fun value => escaped (fsnameItem value)))).length ≤ weight args := by
  unfold fsnames
  rw [List.map_filterMap]
  apply gatheredWeight
  intro a item chosen
  cases a <;> simp only [Option.map_some,Option.map_none,Option.some.injEq,reduceCtorEq] at chosen
  rw [← chosen]
  exact escapedLength _

theorem subtypesShort (args : List Arg) :
    (joined comma ((subtypes args).map subtypeItem)).length ≤ weight args := by
  unfold subtypes
  rw [List.map_filterMap]
  apply gatheredWeight
  intro a item chosen
  cases a <;> simp only [Option.map_some,Option.map_none,Option.some.injEq,reduceCtorEq] at chosen
  rw [← chosen,Arg.text]
  omega

theorem escapedFsname (value : Bytes) : escaped (fsnameItem value) = fsnameItem (escaped value) := by
  simp only [escaped,fsnameItem,List.flatMap_append]
  rfl

theorem fsnameItemNe (value : Bytes) : fsnameItem value ≠ [] := List.cons_ne_nil _ _
theorem subtypeItemNe (value : Bytes) : subtypeItem value ≠ [] := List.cons_ne_nil _ _

theorem acceptedNe {env : Env} {opt : Bytes} (accepted : Accepted env opt) : opt ≠ [] := by
  rcases accepted with rfl | ⟨rfl,-⟩ | ⟨value,rfl⟩ | ⟨value,rfl⟩ <;> exact List.cons_ne_nil _ _

theorem kernsProper {env : Env} {args : List Arg} (proper : ∀ a ∈ args, a.Proper env) :
    ∀ opt ∈ kerns args, Accepted env opt ∧ Plain opt := by
  intro opt mem
  obtain ⟨a,inside,chosen⟩ := List.mem_filterMap.mp mem
  have good := proper a inside
  cases a <;> simp only [Option.some.injEq,reduceCtorEq] at chosen
  exact chosen ▸ good

theorem thirdsProper {env : Env} {args : List Arg} (proper : ∀ a ∈ args, a.Proper env) :
    ∀ opt ∈ thirds args, ascii "x-" <+: opt ∧ Plain opt := by
  intro opt mem
  obtain ⟨a,inside,chosen⟩ := List.mem_filterMap.mp mem
  have good := proper a inside
  cases a <;> simp only [Option.some.injEq,reduceCtorEq] at chosen
  exact chosen ▸ good

theorem thirdNe {opt : Bytes} (third : ascii "x-" <+: opt) : opt ≠ [] := by
  obtain ⟨rest,rfl⟩ := third
  exact List.cons_ne_nil _ _

theorem fsnamesFull (args : List Arg) :
    ∀ item ∈ (fsnames args).map (fun value => escaped (fsnameItem value)), item ≠ [] := by
  intro item mem
  obtain ⟨value,-,rfl⟩ := List.mem_map.mp mem
  rw [escapedFsname]
  exact fsnameItemNe _

theorem subtypesFull (args : List Arg) : ∀ item ∈ (subtypes args).map subtypeItem, item ≠ [] := by
  intro item mem
  obtain ⟨value,-,rfl⟩ := List.mem_map.mp mem
  exact subtypeItemNe value

theorem listedSnoc (items : List Bytes) (item : Bytes) :
    listed (items ++ [item]) = some (joined comma (items ++ [item])) := if_neg (by simp)

theorem Parsed.step {env : Env} {mo mo' : MountOpts} {args : List Arg} {a : Arg} (h : Parsed mo args)
    (proper : ∀ b ∈ args, b.Proper env) (last : a.Proper env) (short : weight args < 2 ^ 32)
    (done : processGopt mo a.text = some mo') : Parsed mo' (args ++ [a]) := by
  have kernel := addListed (fun opt mem => acceptedNe (kernsProper proper opt mem).1)
    (List.cons_ne_nil a.text []) ((kernsShort args).trans_lt short)
  have mtab := addListed (fun opt mem => thirdNe (thirdsProper proper opt mem).1)
    (List.cons_ne_nil a.text []) ((thirdsShort args).trans_lt short)
  have fusermount := addListedEscaped (fsnamesFull args) a.text ((fsnamesShort args).trans_lt short)
  have subtypeOpt := addListed (subtypesFull args) (List.cons_ne_nil a.text [])
    ((subtypesShort args).trans_lt short)
  rw [← h.kernel] at kernel
  rw [← h.mtab] at mtab
  rw [← h.fusermount] at fusermount
  rw [← h.subtypeOpt] at subtypeOpt
  cases a with
  | flag name =>
    obtain ⟨flags,found,rfl⟩ := flagProcessed last done
    exact ⟨setMountFlagWithin h.flags found,by simp [h.kernel,kerns],by simp [h.mtab,thirds],
      by simp [h.fusermount,fsnames],by simp [h.subtypeOpt,subtypes],by simp [h.subtype,subtypes]⟩
  | kern opt =>
    obtain ⟨other,rfl⟩ := kernProcessed last.1 done
    refine ⟨h.flags,?_,by simp [h.mtab,thirds],by simp [h.fusermount,fsnames],
      by simp [h.subtypeOpt,subtypes],by simp [h.subtype,subtypes]⟩
    have grown : kerns (args ++ [.kern opt]) = kerns args ++ [opt] := by simp [kerns]
    rw [grown,listedSnoc]
    exact congrArg some kernel
  | third opt =>
    cases (thirdProcessed mo last.1).symm.trans done
    refine ⟨h.flags,by simp [h.kernel,kerns],?_,by simp [h.fusermount,fsnames],
      by simp [h.subtypeOpt,subtypes],by simp [h.subtype,subtypes]⟩
    have grown : thirds (args ++ [.third opt]) = thirds args ++ [opt] := by simp [thirds]
    rw [grown,listedSnoc]
    exact congrArg some mtab
  | fsname value =>
    cases (fsnameProcessed mo value).symm.trans done
    refine ⟨h.flags,by simp [h.kernel,kerns],by simp [h.mtab,thirds],?_,
      by simp [h.subtypeOpt,subtypes],by simp [h.subtype,subtypes]⟩
    have grown : fsnames (args ++ [.fsname value]) = fsnames args ++ [value] := by simp [fsnames]
    rw [grown,List.map_append,List.map_singleton,listedSnoc]
    exact congrArg some fusermount
  | subtype value =>
    cases (subtypeProcessed mo value).symm.trans done
    have grown : subtypes (args ++ [.subtype value]) = subtypes args ++ [value] := by simp [subtypes]
    refine ⟨h.flags,by simp [h.kernel,kerns],by simp [h.mtab,thirds],by simp [h.fusermount,fsnames],
      ?_,by simp [grown]⟩
    rw [grown,List.map_append,List.map_singleton,listedSnoc]
    exact congrArg some subtypeOpt

theorem weightAppend (args more : List Arg) : weight (args ++ more) = weight args + weight more := by
  simp [weight]

theorem parsedFrom {env : Env} {mo mo' : MountOpts} {seen args : List Arg} (h : Parsed mo seen)
    (proper : ∀ a ∈ seen ++ args, a.Proper env) (short : weight (seen ++ args) < 2 ^ 32)
    (done : (args.map Arg.text).foldlM processGopt mo = some mo') : Parsed mo' (seen ++ args) := by
  induction args generalizing mo seen with
  | nil =>
    cases Option.some.inj done
    simpa using h
  | cons a args ih =>
    simp only [List.map_cons,List.foldlM_cons,bind,Option.bind_eq_some_iff] at done
    obtain ⟨between,first,later⟩ := done
    have now := h.step (fun b mem => proper b (List.mem_append_left _ mem)) (proper a (by simp))
      (by rw [weightAppend] at short; omega) first
    have regroup : seen ++ a :: args = seen ++ [a] ++ args := by simp
    rw [regroup] at proper short ⊢
    exact ih now proper short later

theorem parseMountOptsParsed {env : Env} {mo : MountOpts} {args : List Arg}
    (proper : ∀ a ∈ args, a.Proper env) (short : weight args < 2 ^ 32)
    (done : parseMountOpts (args.map Arg.text) = some mo) : Parsed mo args := by
  have start : Parsed emptyOpts [] := ⟨by decide,rfl,rfl,rfl,rfl,rfl⟩
  exact parsedFrom start proper short done

/-! The string that leaves the library. -/

def flagTokens (flags : Flags) : List Bytes :=
  (if flags &&& msRdonly = 0 then [ascii "rw"] else []) ++
    (libMountFlags.filter (fun m => m.on && flags &&& m.flag ≠ 0)).map LibFlag.opt

theorem flagFold (flags : Flags) {items : List Bytes} {ms : List LibFlag}
    (full : ∀ item ∈ items, item ≠ []) (named : ∀ m ∈ ms, m.opt ≠ [])
    (short : (joined comma (items ++ ms.map LibFlag.opt)).length < 2 ^ 32) :
    ms.foldl (fun opts m => if m.on && flags &&& m.flag ≠ 0 then some (fuseOptAddOpt opts m.opt) else opts)
        (listed items) =
      listed (items ++ (ms.filter (fun m => m.on && flags &&& m.flag ≠ 0)).map LibFlag.opt) := by
  induction ms generalizing items with
  | nil => simp
  | cons m ms ih =>
    have regroup : items ++ (m :: ms).map LibFlag.opt = items ++ [m.opt] ++ ms.map LibFlag.opt := by simp
    rw [regroup] at short
    have first : (joined comma items).length < 2 ^ 32 :=
      (joinedSublist comma ((List.sublist_append_left items [m.opt]).trans
        (List.sublist_append_left _ _))).trans_lt short
    have later := fun x mem => named x (List.mem_cons_of_mem m mem)
    rw [List.foldl_cons]
    by_cases shown : (m.on && flags &&& m.flag ≠ 0) = true
    · have text := addListed full (List.cons_ne_nil m.opt []) first
      have grown : ∀ item ∈ items ++ [m.opt], item ≠ [] := by
        intro item mem
        rcases List.mem_append.mp mem with old | new
        · exact full item old
        · rw [List.mem_singleton.mp new]
          exact named m List.mem_cons_self
      rw [if_pos shown,List.filter_cons,if_pos shown,show fuseOptAddOpt (listed items) m.opt =
        joined comma (items ++ [m.opt]) from text,← listedSnoc,ih grown later short]
      simp
    · have fewer : (joined comma (items ++ ms.map LibFlag.opt)).length < 2 ^ 32 :=
        (joinedSublist comma ((List.sublist_append_left items [m.opt]).append_right _)).trans_lt short
      rw [if_neg shown,List.filter_cons,if_neg shown,ih full later fewer]

theorem getMntFlagOptsTokens (flags : Flags) : getMntFlagOpts flags = listed (flagTokens flags) := by
  have named : ∀ m ∈ libMountFlags, m.opt ≠ [] := by decide
  have write : some (fuseOptAddOpt none (ascii "rw")) = listed [ascii "rw"] := by decide
  have neither : none = listed [] := rfl
  have short : (joined comma ([ascii "rw"] ++ libMountFlags.map LibFlag.opt)).length < 2 ^ 32 :=
    Nat.lt_of_lt_of_le (show _ < 200 by decide +kernel) (by decide)
  have shorter : (joined comma ([] ++ libMountFlags.map LibFlag.opt)).length < 2 ^ 32 :=
    Nat.lt_of_lt_of_le (show _ < 200 by decide +kernel) (by decide)
  unfold getMntFlagOpts flagTokens
  by_cases writable : flags &&& msRdonly = 0
  · simp only [if_pos writable]
    rw [write,flagFold flags (by decide) named short]
  · simp only [if_neg writable]
    rw [neither,flagFold flags (by decide) named shorter]

theorem flagTokensNe (flags : Flags) : flagTokens flags ≠ [] := by
  unfold flagTokens
  by_cases write : flags &&& msRdonly = 0
  · simp [write]
  · have shown : (⟨ascii "ro",msRdonly,true⟩ : LibFlag) ∈
        libMountFlags.filter (fun m => m.on && flags &&& m.flag ≠ 0) :=
      List.mem_filter.mpr ⟨List.mem_cons_of_mem _ List.mem_cons_self,decide_eq_true write⟩
    simp only [ne_eq,List.append_eq_nil_iff,List.map_eq_nil_iff,not_and]
    intro _ empty
    rw [empty] at shown
    exact List.not_mem_nil shown

def flagNamesOn : List Bytes := ascii "rw" :: (libMountFlags.filter LibFlag.on).map LibFlag.opt

theorem flagTokensSublist (flags : Flags) : (flagTokens flags).Sublist flagNamesOn := by
  have shown : ((libMountFlags.filter (fun m => m.on && flags &&& m.flag ≠ 0)).map LibFlag.opt).Sublist
      ((libMountFlags.filter LibFlag.on).map LibFlag.opt) := by
    apply List.Sublist.map
    apply List.monotone_filter_right
    intro m both
    simp only [Bool.and_eq_true] at both
    exact both.1
  unfold flagTokens flagNamesOn
  split
  · exact shown.cons_cons _
  · exact shown.cons _

theorem flagTokensShort (flags : Flags) : (joined comma (flagTokens flags)).length < 128 :=
  (joinedSublist comma (flagTokensSublist flags)).trans_lt (by decide)

theorem flagTokensFull (flags : Flags) : ∀ item ∈ flagTokens flags, item ≠ [] := fun item mem =>
  (show ∀ name ∈ flagNamesOn, name ≠ [] by decide) item ((flagTokensSublist flags).subset mem)

def handedOver (flags : Flags) (args : List Arg) (fsname subtype : Bytes) : List Bytes :=
  flagTokens flags ++ kerns args ++ thirds args ++ [escaped (fsnameItem fsname)] ++ [subtypeItem subtype]

theorem handedOverText {env : Env} {mo : MountOpts} {args : List Arg} {fsname subtype : Bytes}
    (parsed : Parsed mo args) (proper : ∀ a ∈ args, a.Proper env) (short : weight args < 2 ^ 30)
    (one : fsnames args = [fsname]) (single : subtypes args = [subtype]) :
    fuseKernMount mo = joined comma (handedOver mo.flags args fsname subtype) := by
  have full := flagTokensFull mo.flags
  have kernFull : ∀ item ∈ flagTokens mo.flags ++ kerns args, item ≠ [] := fun item mem =>
    (List.mem_append.mp mem).elim (full item) (fun kern => acceptedNe (kernsProper proper item kern).1)
  have thirdFull : ∀ item ∈ flagTokens mo.flags ++ kerns args ++ thirds args, item ≠ [] := fun item mem =>
    (List.mem_append.mp mem).elim (kernFull item) (fun third => thirdNe (thirdsProper proper item third).1)
  have fsnameFull : ∀ item ∈ flagTokens mo.flags ++ kerns args ++ thirds args ++ [escaped (fsnameItem fsname)],
      item ≠ [] := fun item mem =>
    (List.mem_append.mp mem).elim (thirdFull item) (fun name => fsnamesFull args item (by simpa [one] using name))
  have len := flagTokensShort mo.flags
  have kernLen := kernsShort args
  have thirdLen := thirdsShort args
  have fsnameLen := fsnamesShort args
  rw [one,List.map_singleton] at fsnameLen
  have first := joinedAppendLe comma (flagTokens mo.flags) (kerns args)
  have second := joinedAppendLe comma (flagTokens mo.flags ++ kerns args) (thirds args)
  have third := joinedAppendLe comma (flagTokens mo.flags ++ kerns args ++ thirds args)
    [escaped (fsnameItem fsname)]
  have ne : flagTokens mo.flags ++ kerns args ++ thirds args ++ [escaped (fsnameItem fsname)] ≠ [] := by simp
  have copied : fuseOptAddOpt none (joined comma (flagTokens mo.flags ++ kerns args ++ thirds args ++
      [escaped (fsnameItem fsname)])) = joined comma (flagTokens mo.flags ++ kerns args ++ thirds args ++
      [escaped (fsnameItem fsname)]) := by simp [fuseOptAddOpt,addOptCommon]
  have subtypeGiven : mo.subtype = some subtype := by rw [parsed.subtype,single]; rfl
  have subtypeText : mo.subtypeOpt.getD [] = joined comma [subtypeItem subtype] := by
    rw [parsed.subtypeOpt,single]
    rfl
  have given : listed (flagTokens mo.flags ++ kerns args ++ thirds args ++ [escaped (fsnameItem fsname)]) =
      some (joined comma (flagTokens mo.flags ++ kerns args ++ thirds args ++ [escaped (fsnameItem fsname)])) :=
    if_neg ne
  have gathered : addOpts (addOpts (addOpts (getMntFlagOpts mo.flags) mo.kernelOpts) mo.mtabOpts)
      mo.fusermountOpts =
      listed (flagTokens mo.flags ++ kerns args ++ thirds args ++ [escaped (fsnameItem fsname)]) := by
    rw [getMntFlagOptsTokens,parsed.kernel,parsed.mtab,parsed.fusermount,one,List.map_singleton,
      addOptsListed full (by omega),addOptsListed kernFull (by omega),addOptsListed thirdFull (by omega)]
  simp only [fuseKernMount,subtypeGiven,subtypeText,gathered,given,Option.getD_some,copied]
  rw [← given,addListed fsnameFull (by simp) (by omega),handedOver]

end FuseStudy.KernMount
