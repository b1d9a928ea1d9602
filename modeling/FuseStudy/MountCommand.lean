import FuseStudy.ShellWords

/-! util/mount.fuse.c: the arguments of mount are made into a command line for the shell, which runs the
file system's program. -/
namespace FuseStudy.MountCommand
open CString ShellWords

/- exit(1), or bytes written behind the end of a block. -/
inductive Stop
  | exit
  | overrun
  deriving DecidableEq, Repr

def escapeLoop : Bytes → Bytes
  | [] => []
  | b :: opt => if b = quote then quote :: backslash :: quote :: quote :: escapeLoop opt else b :: escapeLoop opt

/- SIZE_MAX - cmdlen - 4 and the new size are size_t. -/
def addArg (cmdp : Option Bytes) (opt : Bytes) : Except Stop Bytes :=
  let cmdlen := (cmdp.getD []).length
  if (2 ^ 64 - 1 + (2 ^ 64 - cmdlen % 2 ^ 64) + (2 ^ 64 - 4)) % 2 ^ 64 / 4 ≤ opt.length then .error .exit
  else
    let size := (cmdlen + opt.length * 4 + 4) % 2 ^ 64
    let start := match cmdp with
      | none => []
      | some cmd => cmd ++ [32]
    let cmd := start ++ quote :: escapeLoop opt ++ [quote]
    if cmd.length + 1 ≤ size then .ok cmd else .error .overrun

/- `oldlen` is an int. -/
def addOption (opt : Bytes) (options : Option Bytes) : Except Stop Bytes :=
  let oldlen := Int.bmod ((options.getD []).length : Int) (2 ^ 32)
  let size := (oldlen + 1 + opt.length + 1) % 2 ^ 64
  let text := if oldlen = 0 then opt else options.getD [] ++ 44 :: opt
  if (text.length : Int) + 1 ≤ size then .ok text else .error .overrun

structure Args where
  type : Option Bytes
  options : Option Bytes := none
  setuidName : Option Bytes := none
  dev : Bool := true
  suid : Bool := true
  passFuseFd : Bool := false
  dropPrivileges : Bool := false
  deriving DecidableEq, Repr

def ignoreOpts : List Bytes := ["","user","nofail","nouser","users","auto","noauto","_netdev"].map ascii

def setuidPrefix : Bytes := ascii "setuid="

def dropOpt : Bytes := ascii "drop_privileges"

def ignored (opt : Bytes) : Bool := setuidPrefix.isPrefixOf opt || opt = dropOpt || ignoreOpts.contains opt

def readOption (args : Args) (opt : Bytes) : Except Stop Args :=
  let args :=
    if setuidPrefix.isPrefixOf opt then {args with setuidName := some (opt.drop 7)}
    else if opt = dropOpt then {args with passFuseFd := true, dropPrivileges := true}
    else args
  if ignored opt then .ok args
  else
    let args :=
      if opt = ascii "nodev" then {args with dev := false}
      else if opt = ascii "nosuid" then {args with suid := false}
      else args
    (addOption opt args.options).map fun options => {args with options := some options}

def tokens (opts : Bytes) : List Bytes := (split 44 opts).filter (· ≠ [])

def behind (start name : Bytes) : Option Bytes := if start.isPrefixOf name then some (name.drop start.length) else none

def typeOption (type : Bytes) : Except Stop Bytes :=
  let type := ((behind (ascii "fuse.") type).or (behind (ascii "fuseblk.") type)).getD type
  if type = [] then .error .exit else .ok type

/- Any other argument is passed over, and an -o at the end. -/
def readArgs (args : Args) : List Bytes → Except Stop Args
  | [] => .ok args
  | arg :: argv =>
    if arg = ascii "-v" then readArgs args argv
    else if arg = ascii "-t" then
      match argv with
      | [] => .error .exit
      | type :: argv => do
        let type ← typeOption type
        readArgs {args with type := some type} argv
    else if arg = ascii "-o" then
      match argv with
      | [] => .ok args
      | opts :: argv => do
        let args ← (tokens opts).foldlM readOption args
        readArgs args argv
    else readArgs args argv

def basename (name : Bytes) : Bytes := (split 47 name).getLast?.getD []

def typeOfName (name : Bytes) : Option Bytes :=
  ((behind (ascii "mount.fuseblk.") (basename name)).or (behind (ascii "mount.fuse.") (basename name))).filter (· ≠ [])

/- What main finds outside of its arguments: whether the capabilities of drop_privileges are there and can
be dropped, whether the user can be changed to, and the descriptor of fuse_open_channel. -/
structure Env where
  caps : Bool
  drops : Bool
  changes : Bytes → Bool
  fuseFd : Bytes → Bytes → Option Nat

/- The type and the source, of which a first argument "type#source" may stand for both. -/
def typeAndSource (type : Option Bytes) (source : Option Bytes) : Except Stop (Bytes × Option Bytes) :=
  match type,source with
  | some type,source => .ok (type,source)
  | none,some source =>
    let type := source.takeWhile (· ≠ 35)
    if type = [] then .error .exit
      else .ok (type,if source.contains 35 then some (source.drop (type.length + 1)) else none)
  | none,none => .error .exit

def devFd (fd : Nat) : Bytes := ascii "/dev/fd/" ++ digits 10 (fd % 2 ^ 32)

/- `options` are there whenever it is called. -/
def prepareFuseFd (env : Env) (mountpoint subtype : Bytes) (options : Option Bytes) : Except Stop Bytes := do
  let options ← addOption (options.getD []) (some (ascii "subtype=" ++ subtype))
  match env.fuseFd mountpoint options with
  | some fd => .ok (devFd fd)
  | none => .error .exit

def check (ok : Bool) : Except Stop Unit := if ok then .ok () else .error .exit

/- `if (on) options = add_option(opt, options)`. -/
def addUnless (on : Bool) (opt : Bytes) (options : Option Bytes) : Except Stop (Option Bytes) :=
  if on then (addOption opt options).map some else .ok options

def defaults (args : Args) : Except Stop (Option Bytes) := do
  let options ← addUnless args.dev (ascii "dev") args.options
  addUnless args.suid (ascii "suid") options

/- With pass_fuse_fd the file system is opened here. -/
def mountpointOf (env : Env) (args : Args) (mountpoint type : Bytes) (options : Option Bytes) : Except Stop Bytes :=
  if args.passFuseFd then prepareFuseFd env mountpoint type options else .ok mountpoint

def buildCommand (type : Bytes) (source : Option Bytes) (mountpoint : Bytes) (options : Option Bytes) :
    Except Stop Bytes :=
  do
  let command ← addArg none type
  let command ← match source with
    | some source => addArg (some command) source
    | none => .ok command
  let command ← addArg (some command) mountpoint
  match options with
  | some options => do
    let command ← addArg (some command) (ascii "-o")
    addArg (some command) options
  | none => .ok command

def main (env : Env) : List Bytes → Except Stop Bytes
  | name :: source :: mountpoint :: argv => do
    let args ← readArgs {type := typeOfName name} argv
    check (!args.dropPrivileges || env.caps)
    let options ← defaults args
    let (type,source) ← typeAndSource args.type (if source = [] then none else some source)
    check (match args.setuidName with
      | some user => user = [] || env.changes user
      | none => true)
    let mountpoint ← mountpointOf env args mountpoint type options
    check (!args.dropPrivileges || env.drops)
    buildCommand type source mountpoint options
  | _ => .error .exit

/-! The options: what the command line has of them. -/

def given : List Bytes → List Bytes
  | [] => []
  | arg :: argv =>
    if arg = ascii "-v" then given argv
    else if arg = ascii "-t" then
      match argv with
      | [] => []
      | _ :: argv => given argv
    else if arg = ascii "-o" then
      match argv with
      | [] => []
      | opts :: argv => tokens opts ++ given argv
    else given argv

def kept (opts : List Bytes) : List Bytes := opts.filter fun opt => !ignored opt

def passed (argv : List Bytes) : List Bytes :=
  let opts := kept (given argv)
  opts ++ (if ascii "nodev" ∈ opts then [] else [ascii "dev"]) ++ if ascii "nosuid" ∈ opts then [] else [ascii "suid"]

def total (l : List Bytes) : Nat := (l.map fun a => a.length + 1).sum

def Plain (opt : Bytes) : Prop := opt ≠ [] ∧ 44 ∉ opt

def together (opts : List Bytes) : Option Bytes := if opts = [] then none else some (joined 44 opts)

theorem togetherLength (opts : List Bytes) : ((together opts).getD []).length ≤ total opts := by
  unfold together
  split
  · exact Nat.zero_le _
  · next some' =>
    have length := joinedLength 44 some'
    have same : total opts = (opts.map fun field => field.length + 1).sum := rfl
    change (joined 44 opts).length ≤ _
    omega

theorem togetherEmpty {opts : List Bytes} (plain : ∀ opt ∈ opts, Plain opt) :
    ((together opts).getD []).length = 0 ↔ opts = [] := by
  constructor
  · intro empty
    by_contra some'
    have length := joinedLength 44 some'
    rw [together,if_neg some'] at empty
    change (joined 44 opts).length = 0 at empty
    obtain ⟨opt,rest,rfl⟩ := List.exists_cons_of_ne_nil some'
    have nonempty := List.length_pos_iff.mpr (plain opt List.mem_cons_self).1
    rw [List.map_cons,List.sum_cons] at length
    omega
  · rintro rfl
    rfl

theorem totalAppend (l m : List Bytes) : total (l ++ m) = total l + total m := by
  rw [total,List.map_append,List.sum_append]
  rfl

theorem addOptionFits {opt : Bytes} {options : Option Bytes}
    (small : (options.getD []).length + opt.length + 2 < 2 ^ 31) :
    addOption opt options = .ok (if options.getD [] = [] then opt else options.getD [] ++ 44 :: opt) := by
  have oldlen : Int.bmod ((options.getD []).length : Int) (2 ^ 32) = (options.getD []).length :=
    Int.bmod_eq_of_le_mul_two (by omega) (by omega)
  have size : (((options.getD []).length : Int) + 1 + opt.length + 1) % 2 ^ 64 = (options.getD []).length +
      1 + opt.length + 1 :=
    Int.emod_eq_of_lt (by omega) (by omega)
  have same : (((options.getD []).length : Int) = 0) = (options.getD [] = []) := by
    rw [Int.natCast_eq_zero,List.length_eq_zero_iff]
  have length :
      (if options.getD [] = [] then opt else options.getD [] ++ 44 :: opt).length ≤
        (options.getD []).length + (opt.length + 1) := by
    split
    · omega
    · rw [List.length_append,List.length_cons]
  unfold addOption
  simp only [oldlen,size,same]
  rw [if_pos (by omega)]

theorem addOptionTogether {opts : List Bytes} {opt : Bytes} (plain : ∀ opt ∈ opts, Plain opt)
    (small : total (opts ++ [opt]) < 2 ^ 31 - 1) :
    addOption opt (together opts) = .ok (joined 44 (opts ++ [opt])) := by
  have sum : total (opts ++ [opt]) = total opts + (opt.length + 1) := by
    rw [totalAppend]
    rfl
  have short := togetherLength opts
  rw [addOptionFits (by omega)]
  by_cases empty : opts = []
  · subst empty
    rfl
  · have nonempty : (together opts).getD [] ≠ [] := fun none' =>
      empty ((togetherEmpty plain).mp (by rw [none']; rfl))
    rw [if_neg nonempty,joinedAppend 44 empty (by simp),together,if_neg empty]
    rfl

/- The arguments read so far have said to pass on `opts`, which take no more room than `used`. -/
structure Tells (args : Args) (opts : List Bytes) (used : Nat) : Prop where
  options : args.options = together opts
  dev : args.dev = !decide (ascii "nodev" ∈ opts)
  suid : args.suid = !decide (ascii "nosuid" ∈ opts)
  plain : ∀ opt ∈ opts, Plain opt
  room : total opts ≤ used
  type : ∀ t, args.type = some t → t ≠ [] ∧ t.length ≤ used

theorem unset (args : Args) (opt : Bytes) :
    ∃ args' : Args, (if setuidPrefix.isPrefixOf opt then {args with setuidName := some (opt.drop 7)}
      else if opt = dropOpt then {args with passFuseFd := true, dropPrivileges := true} else args) = args' ∧
    args'.options = args.options ∧ args'.dev = args.dev ∧ args'.suid = args.suid ∧ args'.type = args.type := by
  split
  · exact ⟨_,rfl,rfl,rfl,rfl,rfl⟩
  · split
    · exact ⟨_,rfl,rfl,rfl,rfl,rfl⟩
    · exact ⟨_,rfl,rfl,rfl,rfl,rfl⟩

variable {args : Args} {opts : List Bytes} {used : Nat}

theorem Tells.one {opt : Bytes} (tells : Tells args opts used) (plain : Plain opt)
    (small : used + (opt.length + 1) < 2 ^ 31 - 1) :
    ∃ args', readOption args opt = .ok args' ∧ Tells args' (opts ++ kept [opt]) (used + (opt.length + 1)) := by
  obtain ⟨args',same,options,dev,suid,type⟩ := unset args opt
  have types : ∀ t, args'.type = some t → t ≠ [] ∧ t.length ≤ used + (opt.length + 1) := fun t set =>
    ⟨(tells.type t (type ▸ set)).1,Nat.le_add_right_of_le (tells.type t (type ▸ set)).2⟩
  unfold readOption
  simp only [same]
  by_cases ignore : ignored opt = true
  · have none' : kept [opt] = [] := by simp [kept,ignore]
    rw [if_pos ignore,none',List.append_nil]
    exact ⟨args',rfl,options.trans tells.options,dev.trans tells.dev,suid.trans tells.suid,tells.plain,
      Nat.le_add_right_of_le tells.room,types⟩
  · have own : kept [opt] = [opt] := by simp [kept,ignore]
    have added : total (opts ++ [opt]) = total opts + (opt.length + 1) := by
      rw [totalAppend]
      rfl
    have room := tells.room
    have all : ∀ o ∈ opts ++ [opt], Plain o := by
      intro o mem
      obtain before | same := List.mem_append.mp mem
      · exact tells.plain o before
      · exact List.mem_singleton.mp same ▸ plain
    have set : together (opts ++ [opt]) = some (joined 44 (opts ++ [opt])) := if_neg (by simp)
    rw [if_neg ignore,own]
    by_cases nodev : opt = ascii "nodev"
    · rw [if_pos nodev]
      dsimp only
      rw [options,tells.options,addOptionTogether tells.plain (by omega)]
      refine ⟨_,rfl,set.symm,?_,?_,all,by omega,types⟩
      · simp [nodev]
      · have other : ascii "nosuid" ≠ ascii "nodev" := by decide
        simp [suid,tells.suid,nodev,other]
    · rw [if_neg nodev]
      by_cases nosuid : opt = ascii "nosuid"
      · rw [if_pos nosuid]
        dsimp only
        rw [options,tells.options,addOptionTogether tells.plain (by omega)]
        refine ⟨_,rfl,set.symm,?_,?_,all,by omega,types⟩
        · have other : ascii "nodev" ≠ ascii "nosuid" := by decide
          simp [dev,tells.dev,nosuid,other]
        · simp [nosuid]
      · rw [if_neg nosuid,options,tells.options,addOptionTogether tells.plain (by omega)]
        refine ⟨_,rfl,set.symm,?_,?_,all,by omega,types⟩
        · simp [dev,tells.dev,Ne.symm nodev]
        · simp [suid,tells.suid,Ne.symm nosuid]

theorem keptAppend (l m : List Bytes) : kept (l ++ m) = kept l ++ kept m := List.filter_append ..

theorem Tells.several {more : List Bytes} (tells : Tells args opts used) (plain : ∀ opt ∈ more, Plain opt)
    (small : used + total more < 2 ^ 31 - 1) :
    ∃ args', more.foldlM readOption args = .ok args' ∧ Tells args' (opts ++ kept more) (used + total more) := by
  induction more generalizing args opts used with
  | nil =>
    refine ⟨args,rfl,?_⟩
    rw [show kept [] = [] from rfl,List.append_nil]
    exact tells
  | cons opt more ih =>
    have sum : total (opt :: more) = opt.length + 1 + total more := by rw [total,List.map_cons,List.sum_cons]; rfl
    obtain ⟨args',read,tells'⟩ := tells.one (plain opt List.mem_cons_self) (by omega)
    obtain ⟨last,rest,done⟩ := ih tells' (fun o mem => plain o (List.mem_cons_of_mem _ mem)) (by omega)
    refine ⟨last,?_,?_⟩
    · rw [List.foldlM_cons,read]
      exact rest
    · have split : kept (opt :: more) = kept [opt] ++ kept more := keptAppend [opt] more
      rw [split,← List.append_assoc,sum,← Nat.add_assoc]
      exact done

theorem tokensPlain (opts : Bytes) : ∀ opt ∈ tokens opts, Plain opt := by
  intro opt mem
  obtain ⟨field,some'⟩ := List.mem_filter.mp mem
  exact ⟨of_decide_eq_true some',splitPlain 44 opts opt field⟩

theorem tokensTotal (opts : Bytes) : total (tokens opts) ≤ opts.length + 1 := by
  have whole := joinedLength 44 (splitNe 44 opts)
  rw [joinedSplit] at whole
  have part : (tokens opts).Sublist (split 44 opts) := List.filter_sublist
  have less := (part.map fun field : Bytes => field.length + 1).sum_le_sum (by simp)
  change total (tokens opts) ≤ _ at less
  omega

theorem totalCons (a : Bytes) (l : List Bytes) : total (a :: l) = a.length + 1 + total l := by
  rw [total,List.map_cons,List.sum_cons]
  rfl

theorem Tells.more (tells : Tells args opts used) {n : Nat} (more : used ≤ n) : Tells args opts n :=
  ⟨tells.options,tells.dev,tells.suid,tells.plain,Nat.le_trans tells.room more,fun t set =>
    ⟨(tells.type t set).1,Nat.le_trans (tells.type t set).2 more⟩⟩

theorem behindShort {start name rest : Bytes} (found : MountCommand.behind start name = some rest) :
    rest.length ≤ name.length := by
  unfold MountCommand.behind at found
  split at found
  · cases found
    rw [List.length_drop]
    exact Nat.sub_le _ _
  · cases found

theorem typeNonempty {type type' : Bytes} (ok : typeOption type = .ok type') :
    type' ≠ [] ∧ type'.length ≤ type.length := by
  simp only [typeOption] at ok
  split at ok
  · cases ok
  · next some' =>
    cases ok
    refine ⟨some',?_⟩
    cases first : MountCommand.behind (ascii "fuse.") type with
    | some rest => exact behindShort first
    | none =>
      cases second : MountCommand.behind (ascii "fuseblk.") type with
      | some rest => exact behindShort second
      | none => exact Nat.le_refl _

theorem Tells.arguments (argv : List Bytes) (tells : Tells args opts used) (small : used + total argv < 2 ^ 31 - 1) :
    readArgs args argv ≠ .error .overrun ∧
      ∀ args', readArgs args argv = .ok args' → Tells args' (opts ++ kept (given argv)) (used + total argv) := by
  induction h : argv.length using Nat.strongRecOn generalizing args opts used argv with
  | ind n ih =>
    cases argv with
    | nil =>
      refine ⟨(fun no => by cases no),fun args' ok => ?_⟩
      cases ok
      rw [given,show kept [] = [] from rfl,List.append_nil]
      exact tells
    | cons arg argv =>
      rw [totalCons] at small
      subst h
      have later := @ih argv.length (Nat.lt_succ_self _)
      rw [readArgs.eq_def,given.eq_def]
      dsimp only
      by_cases verbose : arg = ascii "-v"
      · rw [if_pos verbose,if_pos verbose]
        obtain ⟨fits,ends⟩ := @later args opts used argv tells (by omega) rfl
        exact ⟨fits,fun args' ok => (ends args' ok).more (by rw [totalCons]; omega)⟩
      rw [if_neg verbose,if_neg verbose]
      by_cases typed : arg = ascii "-t"
      · rw [if_pos typed,if_pos typed]
        cases argv with
        | nil => exact ⟨(fun no => by cases no),fun args' ok => by cases ok⟩
        | cons type argv =>
          rw [totalCons] at small
          dsimp only
          cases read : typeOption type with
          | error stop =>
            refine ⟨fun same => ?_,fun args' ok => by cases ok⟩
            cases same
            simp only [typeOption] at read
            split at read <;> cases read
          | ok type' =>
            obtain ⟨nonempty,short⟩ := typeNonempty read
            have typed' : Tells {args with type := some type'} opts (used + (type.length + 1)) :=
              ⟨tells.options,tells.dev,tells.suid,tells.plain,Nat.le_add_right_of_le tells.room,fun t set =>
                Option.some.inj set ▸ ⟨nonempty,by omega⟩⟩
            obtain ⟨fits,ends⟩ :=
              @ih argv.length (by simp only [List.length_cons]; omega) _ opts _ argv typed' (by omega) rfl
            exact ⟨fits,fun args' ok => (ends args' ok).more (by rw [totalCons,totalCons]; omega)⟩
      rw [if_neg typed,if_neg typed]
      by_cases option : arg = ascii "-o"
      · rw [if_pos option,if_pos option]
        cases argv with
        | nil =>
          refine ⟨(fun no => by cases no),fun args' ok => ?_⟩
          cases ok
          rw [show kept [] = [] from rfl,List.append_nil]
          exact tells.more (Nat.le_add_right _ _)
        | cons optArg argv =>
          rw [totalCons] at small
          dsimp only
          have short := tokensTotal optArg
          obtain ⟨args1,read,tells1⟩ := tells.several (tokensPlain optArg) (by omega)
          obtain ⟨fits,ends⟩ :=
            @ih argv.length (by simp only [List.length_cons]; omega) args1 _ _ argv tells1 (by omega) rfl
          rw [read]
          refine ⟨fits,fun args' ok => ?_⟩
          have last := ends args' ok
          rw [List.append_assoc,← keptAppend] at last
          exact last.more (by rw [totalCons,totalCons]; omega)
      rw [if_neg option,if_neg option]
      obtain ⟨fits,ends⟩ := @later args opts used argv tells (by omega) rfl
      exact ⟨fits,fun args' ok => (ends args' ok).more (by rw [totalCons]; omega)⟩

/-! The command line: a quoted word for each argument. -/

theorem escapeLoopAll (opt : Bytes) : escapeLoop opt = escape opt := by
  induction opt with
  | nil => rfl
  | cons b opt ih =>
    rw [escapeLoop,escapeCons,ih]
    split <;> rfl

def line (l : List Bytes) : Bytes := joined 32 (l.map quoteWord)

def lineOf (l : List Bytes) : Option Bytes := if l = [] then none else some (line l)

def Short (l : List Bytes) : Prop := ((lineOf l).getD []).length + 5 < 2 ^ 64

theorem addArgLine {l : List Bytes} (opt : Bytes) (short : Short l) :
    addArg (lineOf l) opt = .error .exit ∨ addArg (lineOf l) opt = .ok (line (l ++ [opt])) ∧ Short (l ++ [opt]) := by
  have most := escapeLength opt
  have text : (match lineOf l with
      | none => ([] : Bytes)
      | some cmd => cmd ++ [32]) ++ quote :: escapeLoop opt ++ [quote] = line (l ++ [opt]) := by
    rw [escapeLoopAll,lineOf]
    by_cases empty : l = []
    · subst empty
      rfl
    · have whole : line (l ++ [opt]) = line l ++ 32 :: quoteWord opt := by
        rw [line,List.map_append,joinedAppend 32 (by simpa using empty) (by simp)]
        rfl
      rw [if_neg empty,whole]
      simp [quoteWord]
  have size : (line (l ++ [opt])).length ≤ ((lineOf l).getD []).length + opt.length * 4 + 3 := by
    rw [← text,escapeLoopAll]
    cases lineOf l with
    | none =>
      simp only [List.length_append,List.length_cons,List.length_nil,Option.getD_none]
      omega
    | some cmd =>
      simp only [List.length_append,List.length_cons,List.length_nil,Option.getD_some]
      omega
  have next : ((lineOf (l ++ [opt])).getD []).length = (line (l ++ [opt])).length := by
    rw [lineOf,if_neg (by simp)]; rfl
  unfold addArg Short
  simp only [text,next]
  unfold Short at short
  split
  · exact .inl rfl
  · rw [if_pos (by omega)]
    exact .inr ⟨rfl,by omega⟩

theorem lineOfSome {l : List Bytes} (some' : l ≠ []) : lineOf l = some (line l) := if_neg some'

def Safe {α : Type} (good : α → Prop) (r : Except Stop α) : Prop := r ≠ .error .overrun ∧ ∀ a, r = .ok a → good a

theorem Safe.bind {α β : Type} {good : β → Prop} {r : Except Stop α} {next : α → Except Stop β}
    (first : r ≠ .error .overrun) (later : ∀ a, r = .ok a → Safe good (next a)) : Safe good (r >>= next) := by
  cases r with
  | error stop => exact ⟨fun same => first (by cases same; rfl),fun a no => by cases no⟩
  | ok a => exact later a rfl

theorem Safe.weaken {α : Type} {good good' : α → Prop} {r : Except Stop α} (safe : Safe good r)
    (weaker : ∀ a, good a → good' a) : Safe good' r :=
  ⟨safe.1,fun a made => weaker a (safe.2 a made)⟩

def Gives (l : List Bytes) (r : Except Stop Bytes) : Prop := Safe (fun command => words command = some l) r

theorem addArgsLine {l : List Bytes} (opt : Bytes) {m : List Bytes} {next : Bytes → Except Stop Bytes} (short : Short l)
    (later : ∀ command, lineOf (l ++ [opt]) = some command → Short (l ++ [opt]) → Gives m (next command)) :
    Gives m (addArg (lineOf l) opt >>= next) := by
  obtain failed | ⟨done,short'⟩ := addArgLine opt short
  · rw [failed]
    exact ⟨(fun no => by cases no),fun command no => by cases no⟩
  · rw [done]
    exact later _ (lineOfSome (by simp)) short'

theorem shortNone : Short [] := by
  have length : ((lineOf []).getD []).length = 0 := rfl
  rw [Short,length]
  omega

theorem addArgLast {l : List Bytes} (opt : Bytes) (short : Short l) : Gives (l ++ [opt]) (addArg (lineOf l) opt) := by
  obtain failed | ⟨done,-⟩ := addArgLine opt short
  · rw [failed]
    exact ⟨(fun no => by cases no),fun command no => by cases no⟩
  · rw [done]
    refine ⟨(fun no => by cases no),fun command made => ?_⟩
    cases made
    exact wordsQuoted _

theorem buildGives (type : Bytes) (source : Option Bytes) (mountpoint options : Bytes) :
    Gives (type :: source.toList ++ [mountpoint,ascii "-o",options])
      (buildCommand type source mountpoint (some options)) := by
  -- From the mountpoint on, whatever stands before it.
  have rest : ∀ l command, lineOf l = some command → Short l → Gives (l ++ [mountpoint,ascii "-o",options]) (do
      let command ← addArg (some command) mountpoint
      let command ← addArg (some command) (ascii "-o")
      addArg (some command) options) := by
    intro l command made short
    rw [← made]
    refine addArgsLine mountpoint short fun command made short => ?_
    rw [← made]
    refine addArgsLine (ascii "-o") short fun command made short => ?_
    rw [← made]
    have last := addArgLast options short
    rwa [List.append_assoc,List.append_assoc] at last
  unfold buildCommand
  refine addArgsLine (l := []) type shortNone fun command made short => ?_
  have ready : ∀ (command : Bytes) (f : Bytes → Except Stop Bytes),
    (Except.ok command >>= f) = f command := fun _ _ => rfl
  cases source with
  | none =>
    dsimp only
    rw [ready]
    exact rest [type] command made short
  | some source =>
    dsimp only
    rw [← made]
    exact addArgsLine source short fun command made short => rest [type,source] command made short

def own (on : Bool) (opt : Bytes) : List Bytes := if on then [opt] else []

theorem ownOption (on : Bool) (opt : Bytes) (plain : ∀ o ∈ opts, Plain o) (small : total (opts ++ [opt]) < 2 ^ 31 - 1) :
    addUnless on opt (together opts) = .ok (together (opts ++ own on opt)) := by
  cases on with
  | false => rw [addUnless,own,if_neg Bool.false_ne_true,if_neg Bool.false_ne_true,List.append_nil]
  | true =>
    rw [addUnless,own,if_pos rfl,if_pos rfl,addOptionTogether plain small,together,if_neg (by simp)]
    rfl

theorem ownTotal (on : Bool) (opt : Bytes) : total (own on opt) ≤ opt.length + 1 := by
  cases on with
  | false => exact Nat.zero_le _
  | true => exact Nat.le_refl _

theorem ownPlain {on : Bool} {opt o : Bytes} (plain : Plain opt) (mem : o ∈ own on opt) : Plain o := by
  cases on with
  | false => cases mem
  | true => exact List.mem_singleton.mp mem ▸ plain

theorem ownUnless {on : Bool} {off : Bytes} (opt : Bytes) (turned : on = !decide (off ∈ opts)) :
    own on opt = if off ∈ opts then [] else [opt] := by
  rw [turned,own]
  by_cases inside : off ∈ opts <;> simp [inside]

theorem defaultsGive (tells : Tells args opts used) (small : used + 9 < 2 ^ 31 - 1) :
    ∃ options, defaults args = .ok (some options) ∧
    options.length ≤ used + 9 ∧ split 44 options =
      opts ++ (if ascii "nodev" ∈ opts then [] else [ascii "dev"]) ++ if ascii "nosuid" ∈ opts then []
        else [ascii "suid"] := by
  have room := tells.room
  have devTotal : total [ascii "dev"] = 4 := rfl
  have suidTotal : total [ascii "suid"] = 5 := rfl
  have devOwn : total (own args.dev (ascii "dev")) ≤ 4 := ownTotal _ _
  have suidOwn : total (own args.suid (ascii "suid")) ≤ 5 := ownTotal _ _
  have more : ∀ o ∈ opts ++ own args.dev (ascii "dev"), Plain o := by
    intro o mem
    obtain before | last := List.mem_append.mp mem
    · exact tells.plain o before
    · exact ownPlain ⟨by decide,by decide⟩ last
  have all : ∀ o ∈ opts ++ own args.dev (ascii "dev") ++ own args.suid (ascii "suid"), Plain o := by
    intro o mem
    obtain before | last := List.mem_append.mp mem
    · exact more o before
    · exact ownPlain ⟨by decide,by decide⟩ last
  have dev := ownOption args.dev (ascii "dev") tells.plain (by rw [totalAppend]; omega)
  have suid := ownOption args.suid (ascii "suid") more (by rw [totalAppend,totalAppend]; omega)
  have devs := ownUnless (ascii "dev") tells.dev
  have suids := ownUnless (ascii "suid") tells.suid
  -- There is an option at all: without dev there is nodev.
  have some' : opts ++ own args.dev (ascii "dev") ++ own args.suid (ascii "suid") ≠ [] := by
    intro none'
    obtain ⟨⟨empty,undev⟩,-⟩ := (List.append_eq_nil_iff.trans (and_congr_left' List.append_eq_nil_iff)).mp none'
    rw [devs,empty] at undev
    cases undev
  refine ⟨joined 44 (opts ++ own args.dev (ascii "dev") ++ own args.suid (ascii "suid")),?_,?_,?_⟩
  · unfold defaults
    rw [tells.options,dev]
    change addUnless args.suid (ascii "suid") (together (opts ++ own args.dev (ascii "dev"))) = _
    rw [suid,together,if_neg some']
  · have length : _ = total _ := joinedLength 44 some'
    rw [totalAppend,totalAppend] at length
    omega
  · rw [splitPlainJoined some' fun o mem => (all o mem).2,devs,suids]

theorem typeOfNameShort {name type : Bytes} (found : typeOfName name = some type) :
    type ≠ [] ∧ type.length ≤ name.length := by
  obtain ⟨found,some'⟩ := Option.filter_eq_some_iff.mp found
  have base : (basename name).length ≤ name.length := by
    have whole := joinedLength 47 (splitNe 47 name)
    rw [joinedSplit] at whole
    have last : basename name = (split 47 name).getLast (splitNe 47 name) := by
      rw [basename,List.getLast?_eq_some_getLast (splitNe 47 name)]
      rfl
    have part := List.single_le_sum (l := (split 47 name).map fun field => field.length + 1) (by simp)
      ((basename name).length + 1)
      (List.mem_map.mpr ⟨basename name,by rw [last]; exact List.getLast_mem _,rfl⟩)
    omega
  refine ⟨of_decide_eq_true some',?_⟩
  cases first : MountCommand.behind (ascii "mount.fuseblk.") (basename name) with
  | some rest =>
    rw [first] at found
    cases found
    exact Nat.le_trans (behindShort first) base
  | none =>
    rw [first] at found
    exact Nat.le_trans (behindShort found) base

theorem typeAndSourceShort {type : Option Bytes} {source : Option Bytes} {type' : Bytes} {source' : Option Bytes}
    (ok : typeAndSource type source = .ok (type',source')) (some' : ∀ t, type = some t → t ≠ []) :
    type' ≠ [] ∧ (type = some type' ∨ type'.length ≤ (source.getD []).length) := by
  unfold typeAndSource at ok
  split at ok
  · cases ok
    exact ⟨some' _ rfl,.inl rfl⟩
  · dsimp only at ok
    split at ok
    · cases ok
    · next nonempty =>
      cases ok
      exact ⟨nonempty,.inr (List.takeWhile_sublist _).length_le⟩
  · cases ok

theorem checkFits (ok : Bool) : check ok ≠ .error .overrun := by
  cases ok <;> exact fun no => by cases no

theorem typeAndSourceFits (type source : Option Bytes) : typeAndSource type source ≠ .error .overrun := by
  unfold typeAndSource
  split
  · exact fun no => by cases no
  · dsimp only
    split <;> exact fun no => by cases no
  · exact fun no => by cases no

/- The path of the file system that the program is given: with drop_privileges it is open already, with the
options and its type. -/
def Target (env : Env) (args : Args) (mountpoint type options target : Bytes) : Prop :=
  if args.passFuseFd then
    ∃ fd, env.fuseFd mountpoint (ascii "subtype=" ++ type ++ 44 :: options) = some fd ∧ target = devFd fd
  else target = mountpoint

theorem mountpointSafe (env : Env) (args : Args) (mountpoint type options : Bytes)
    (small : type.length + options.length + 10 < 2 ^ 31) :
    Safe (Target env args mountpoint type options) (mountpointOf env args mountpoint type (some options)) := by
  unfold mountpointOf Target
  split
  · have length : ((some (ascii "subtype=" ++ type)).getD []).length = 8 + type.length := by
      rw [Option.getD_some,List.length_append]
      rfl
    have some' : (some (ascii "subtype=" ++ type)).getD [] ≠ [] := by
      intro none'
      rw [none',List.length_nil] at length
      omega
    unfold prepareFuseFd
    rw [addOptionFits (by rw [length]; change 8 + type.length + options.length + 2 < _; omega),if_neg some']
    refine .bind (fun no => by cases no) fun options' made => ?_
    cases made
    split
    · next fd opened =>
      refine ⟨(fun no => by cases no),fun target made => ?_⟩
      cases made
      exact ⟨fd,opened,rfl⟩
    · exact ⟨(fun no => by cases no),fun target no => by cases no⟩
  · exact ⟨(fun no => by cases no),fun target made => (Except.ok.inj made).symm⟩

/- No argument makes mount.fuse write behind the end of a block, and the shell takes the command line apart
into the type, the source, the mountpoint and the options, whatever bytes they have: the options that were
given and are not for mount itself, in their order, and then dev and suid unless they were turned off. -/
theorem commandReaches (env : Env) {argv : List Bytes} (small : total argv + 16 ≤ 2 ^ 30) :
    main env argv ≠ .error .overrun ∧
    ∀ command, main env argv = .ok command → ∃ name source mountpoint rest args type own target options,
      argv = name :: source :: mountpoint :: rest ∧ readArgs {type := typeOfName name} rest = .ok args ∧
      typeAndSource args.type (if source = [] then none else some source) = .ok (type,own) ∧ type ≠ [] ∧
      Target env args mountpoint type options target ∧
        words command = some (type :: own.toList ++ [target,ascii "-o",options]) ∧
      split 44 options = passed rest := by
  rcases argv with _ | ⟨name,_ | ⟨source,_ | ⟨mountpoint,rest⟩⟩⟩
  case cons.cons.cons =>
    rw [totalCons,totalCons,totalCons] at small
    have start : Tells {type := typeOfName name} [] (name.length + 1) :=
      ⟨rfl,rfl,rfl,(fun o mem => by cases mem),Nat.zero_le _,fun t found =>
        ⟨(typeOfNameShort found).1,Nat.le_succ_of_le (typeOfNameShort found).2⟩⟩
    obtain ⟨fits,ends⟩ := start.arguments rest (by omega)
    refine Safe.bind fits fun args read => ?_
    have tells := ends args read
    obtain ⟨options,made,long,parts⟩ := defaultsGive tells (by omega)
    refine Safe.bind (checkFits _) fun _ _ => ?_
    rw [made]
    change Safe _ (typeAndSource args.type (if source = [] then none else some source) >>= _)
    refine Safe.bind (typeAndSourceFits _ _) fun both named => ?_
    obtain ⟨type,own⟩ := both
    obtain ⟨nonempty,from'⟩ := typeAndSourceShort named fun t set => (tells.type t set).1
    have short : type.length + 16 ≤ 2 ^ 30 := by
      cases from' with
      | inl own =>
        have most := (tells.type type own).2
        omega
      | inr source' =>
        have most : ((if source = [] then none else some source).getD []).length ≤ source.length := by
          split
          · exact Nat.zero_le _
          · exact Nat.le_refl _
        omega
    refine Safe.bind (checkFits _) fun _ _ => ?_
    have target := mountpointSafe env args mountpoint type options (by omega)
    refine Safe.bind target.1 fun target' opened => ?_
    refine Safe.bind (checkFits _) fun _ _ => ?_
    refine (buildGives type own target' options).weaken fun command line => ?_
    exact ⟨name,source,mountpoint,rest,args,type,own,target',options,rfl,read,named,nonempty,
      target.2 target' opened,line,parts⟩
  all_goals exact ⟨(fun no => by cases no),fun command no => by cases no⟩

/- The source is it's, and there are options of mount's own among the others. -/
def sshfs : List Bytes :=
  [ascii "mount.fuse.sshfs",[105,116,39,115],ascii "/m t",ascii "-o",ascii "user,nodev,,idmap=$x"]

theorem sshfsReaches : ∃ command, main ⟨true,true,fun _ => true,fun _ _ => none⟩ sshfs = .ok command ∧
    ∃ (type : Bytes) (own : Option Bytes) (target options : Bytes),
      words command = some (type :: own.toList ++ [target,ascii "-o",options]) ∧
      split 44 options = [ascii "nodev",ascii "idmap=$x",ascii "suid"] := by
  have ran : main ⟨true,true,fun _ => true,fun _ _ => none⟩ sshfs =
      .ok (line [ascii "sshfs",[105,116,39,115],ascii "/m t",ascii "-o",ascii "nodev,idmap=$x,suid"]) := by
      decide +kernel
  obtain ⟨name,source,mountpoint,rest,args,type,own,target,options,same,-,-,-,-,line',parts⟩ :=
    (@commandReaches ⟨true,true,fun _ => true,fun _ _ => none⟩ sshfs (by decide)).2 _ ran
  refine ⟨_,ran,type,own,target,options,line',?_⟩
  rw [parts]
  cases same
  decide +kernel

end FuseStudy.MountCommand
