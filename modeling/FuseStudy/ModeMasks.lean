import FuseStudy.OptGroups
import FuseStudy.OptRuns

/-! The options umask, fmask and dmask of lib/fuse.c, from the command line to set_stat. -/
namespace FuseStudy.ModeMasks
open CString
open DoMount (comma backslash)
open KernMount (escaped separator)
open FuseOpt

/-! The members of struct fuse_config that fuse_lib_opts stores into, by number. -/

def setGid : Nat := 0
def gid : Nat := 1
def setUid : Nat := 2
def uid : Nat := 3
def setMode : Nat := 4
def umask : Nat := 5
def entryTimeout : Nat := 6
def negativeTimeout : Nat := 7
def attrTimeout : Nat := 8
def remember : Nat := 9
def kernelCache : Nat := 10
def autoCache : Nat := 11
def acAttrTimeoutSet : Nat := 12
def acAttrTimeout : Nat := 13
def modules : Nat := 14
def debug : Nat := 15
def fmask : Nat := 16
def dmask : Nat := 17
def noRofdFlush : Nat := 18
def parallelDirectWrites : Nat := 19
def useIno : Nat := 20

/- The 32 bit members, and the parameters of the others as they were given. -/
structure FuseConfig where
  word : Nat → BitVec 32
  text : Nat → Bytes

def FuseConfig.store (conf : FuseConfig) (member : Nat) (value : BitVec 32) : FuseConfig :=
  {conf with word := fun m => if m = member then value else conf.word m}

def zeroed : FuseConfig := ⟨fun _ => 0,fun _ => []⟩

def fuseOptKey (templ : String) (key : Int) : Template := ⟨ascii templ,none,key⟩

def fuseLibOpt (templ : String) (member : Nat) (value : Int) : Template := ⟨ascii templ,some member,value⟩

def fuseLibOpts : List Template :=
  [fuseOptKey "debug" keyKeep,
   fuseOptKey "-d" keyKeep,
   fuseLibOpt "debug" debug 1,
   fuseLibOpt "-d" debug 1,
   fuseLibOpt "kernel_cache" kernelCache 1,
   fuseLibOpt "auto_cache" autoCache 1,
   fuseLibOpt "noauto_cache" autoCache 0,
   fuseLibOpt "no_rofd_flush" noRofdFlush 1,
   fuseLibOpt "umask=" setMode 1,
   fuseLibOpt "umask=%o" umask 0,
   fuseLibOpt "fmask=" setMode 1,
   fuseLibOpt "fmask=%o" fmask 0,
   fuseLibOpt "dmask=" setMode 1,
   fuseLibOpt "dmask=%o" dmask 0,
   fuseLibOpt "uid=" setUid 1,
   fuseLibOpt "uid=%d" uid 0,
   fuseLibOpt "gid=" setGid 1,
   fuseLibOpt "gid=%d" gid 0,
   fuseLibOpt "entry_timeout=%lf" entryTimeout 0,
   fuseLibOpt "attr_timeout=%lf" attrTimeout 0,
   fuseLibOpt "ac_attr_timeout=%lf" acAttrTimeout 0,
   fuseLibOpt "ac_attr_timeout=" acAttrTimeoutSet 1,
   fuseLibOpt "negative_timeout=%lf" negativeTimeout 0,
   fuseLibOpt "noforget" remember (-1),
   fuseLibOpt "remember=%u" remember 0,
   fuseLibOpt "modules=%s" modules 0,
   fuseLibOpt "parallel_direct_write=%d" parallelDirectWrites 0]

/- A number as sscanf reads it: blanks, a sign, and digits below the base. -/
def scanDigits (base : Nat) (param : Bytes) : Option (Bool × Nat) :=
  let rest := param.dropWhile (fun b => b = 32 ∨ (9 ≤ b ∧ b ≤ 13))
  let negative := rest.head? = some 45
  let rest := if rest.head? = some 45 ∨ rest.head? = some 43 then rest.tail else rest
  let digits := rest.takeWhile (fun b => 48 ≤ b ∧ b.toNat < 48 + base)
  if digits = [] then none else some (negative,digits.foldl (fun n b => n * base + (b.toNat - 48)) 0)

/- By way of an unsigned long, which stays at its largest value. -/
def scanUnsigned (base : Nat) (param : Bytes) : Option (BitVec 32) :=
  (scanDigits base param).map fun (negative,n) =>
    if 2 ^ 64 ≤ n then BitVec.ofNat 32 (2 ^ 64 - 1) else if negative then -BitVec.ofNat 32 n else BitVec.ofNat 32 n

def scanSigned (param : Bytes) : Option (BitVec 32) :=
  (scanDigits 10 param).map fun (negative,n) =>
    if negative then -BitVec.ofNat 32 (min n (2 ^ 63)) else BitVec.ofNat 32 (min n (2 ^ 63 - 1))

/- isFloat: whether sscanf reads a double. -/
def processOptParam (isFloat : Bytes → Bool) (member : Nat) (format param : Bytes) (conf : FuseConfig) :
    Option FuseConfig :=
  let asText := {conf with text := fun m => if m = member then param else conf.text m}
  if format = ascii "%s" then some asText
  else if format = ascii "%lf" then if isFloat param then some asText else none
  else if format = ascii "%o" then (scanUnsigned 8 param).map (conf.store member)
  else if format = ascii "%u" then (scanUnsigned 10 param).map (conf.store member)
  else (scanSigned param).map (conf.store member)

/- fuse_lib_opt_proc passes everything through. -/
def libClient (isFloat : Bytes → Bool) : Client FuseConfig where
  opt := fuseLibOpts
  proc := some fun conf _ _ outargs => (1,conf,outargs)
  set := fun member value conf => conf.store member (BitVec.ofInt 32 value)
  param := processOptParam isFloat

/-! set_stat -/

structure Stat where
  ino : BitVec 64
  mode : BitVec 32
  uid : BitVec 32
  gid : BitVec 32
  deriving DecidableEq, Repr

def sIfmt : BitVec 32 := 0xf000

def sIsdir (mode : BitVec 32) : Bool := mode &&& sIfmt == 0x4000

def perms : BitVec 32 := 0x1ff

def setStat (conf : FuseConfig) (nodeid : BitVec 64) (stbuf : Stat) : Stat :=
  let masked (mask : BitVec 32) : BitVec 32 := stbuf.mode &&& sIfmt ||| perms &&& ~~~mask
  let stbuf := if conf.word useIno = 0 then {stbuf with ino := nodeid} else stbuf
  let stbuf :=
    if conf.word setMode ≠ 0 then
      if conf.word dmask ≠ 0 ∧ sIsdir stbuf.mode then {stbuf with mode := masked (conf.word dmask)}
      else if conf.word fmask ≠ 0 then {stbuf with mode := masked (conf.word fmask)}
      else {stbuf with mode := masked (conf.word umask)}
    else stbuf
  let stbuf := if conf.word setUid ≠ 0 then {stbuf with uid := conf.word uid} else stbuf
  if conf.word setGid ≠ 0 then {stbuf with gid := conf.word gid} else stbuf

/-! Options that set a mask. -/

inductive Kind
  | umask | fmask | dmask
  deriving DecidableEq, Repr

def Kind.name : Kind → Bytes
  | .umask => ascii "umask="
  | .fmask => ascii "fmask="
  | .dmask => ascii "dmask="

def Kind.member : Kind → Nat
  | .umask => ModeMasks.umask
  | .fmask => ModeMasks.fmask
  | .dmask => ModeMasks.dmask

/- A mask in octal digits, one at least. -/
structure MaskOpt where
  kind : Kind
  digits : Bytes
  some : digits ≠ []
  octal : ∀ b ∈ digits, 48 ≤ b ∧ b ≤ 55
  deriving DecidableEq

def MaskOpt.text (opt : MaskOpt) : Bytes := opt.kind.name ++ opt.digits

def octalValue (digits : Bytes) : Nat := digits.foldl (fun n b => n * 8 + (b.toNat - 48)) 0

def MaskOpt.mask (opt : MaskOpt) : BitVec 32 := BitVec.ofNat 32 (min (octalValue opt.digits) (2 ^ 64 - 1))

theorem scanOctal (opt : MaskOpt) : scanUnsigned 8 opt.digits = some opt.mask := by
  have digit : ∀ b ∈ opt.digits, (decide (48 ≤ b ∧ b.toNat < 48 + 8)) = true := by
    intro b mem
    have bounds := opt.octal b mem
    have high : b.toNat ≤ 55 := bounds.2
    rw [decide_eq_true_eq]
    exact ⟨bounds.1,by omega⟩
  obtain ⟨first,rest,is⟩ := List.exists_cons_of_ne_nil opt.some
  have least := opt.octal first (is ▸ List.mem_cons_self)
  have low : 48 ≤ first.toNat := least.1
  have blank : ¬(first = 32 ∨ (9 ≤ first ∧ first ≤ 13)) := by
    rintro (same | ⟨-,small⟩)
    · rw [same] at low
      exact absurd low (by decide)
    · have : first.toNat ≤ 13 := small
      omega
  have sign : ¬(first = 45) ∧ ¬(first = 43) := by
    constructor <;> rintro rfl <;> exact absurd low (by decide)
  have unspaced : opt.digits.dropWhile (fun b => decide (b = 32 ∨ (9 ≤ b ∧ b ≤ 13))) = opt.digits := by
    rw [is,List.dropWhile_cons_of_neg (by simpa using blank)]
  have head : opt.digits.head? = Option.some first := by rw [is]; rfl
  have scanned : scanDigits 8 opt.digits = Option.some (false,octalValue opt.digits) := by
    unfold scanDigits
    simp only [unspaced,head,Option.some.injEq,sign.1,sign.2,or_self,if_false]
    rw [List.takeWhile_eq_self_iff.mpr digit,if_neg opt.some]
    rfl
  rw [scanUnsigned,scanned,MaskOpt.mask]
  show Option.some (if 2 ^ 64 ≤ octalValue opt.digits then _ else BitVec.ofNat 32 (octalValue opt.digits)) = _
  rcases Nat.lt_or_ge (octalValue opt.digits) (2 ^ 64) with small | large
  · rw [if_neg (Nat.not_le.mpr small),Nat.min_eq_left (by omega)]
  · rw [if_pos large,Nat.min_eq_right (by omega)]

def FuseConfig.give (conf : FuseConfig) (opt : MaskOpt) : FuseConfig :=
  (conf.store setMode 1).store opt.kind.member opt.mask

/- A template that the first two bytes of an argument already tell from it. -/
def apart (two : Bytes) (opt : Template) : Bool :=
  opt.templ.take 2 != two && decide (2 ≤ opt.templ.length) && (separator opt.templ).all fun sep => decide (2 ≤ sep)

theorem apartUnmatched {two arg : Bytes} {opt : Template} (same : arg.take 2 = two) (other : apart two opt = true) :
    matchTemplate opt.templ arg = none := by
  simp only [apart,Bool.and_eq_true,bne_iff_ne,decide_eq_true_eq] at other
  obtain ⟨⟨differ,long⟩,behind⟩ := other
  rw [← same] at differ
  have whole : opt.templ ≠ arg := fun is => differ (by rw [is])
  have begins (n : Nat) (more : 2 ≤ n) : ¬(opt.templ.take n).isPrefixOf arg = true := by
    intro starts
    obtain ⟨rest,is⟩ := List.isPrefixOf_iff_prefix.mp starts
    have size : 2 ≤ (opt.templ.take n).length := by
      rw [List.length_take]
      omega
    apply differ
    rw [← is,List.take_append_of_le_length size,List.take_take,Nat.min_eq_left more]
  unfold matchTemplate
  cases found : separator opt.templ with
  | none => simp only [if_neg whole]
  | some sep =>
    rw [found,Option.all_some,decide_eq_true_eq] at behind
    have more : 2 ≤ if opt.templ[sep]? = some 61 then sep + 1 else sep := by
      split <;> omega
    simp only [if_neg whole]
    exact if_neg (fun both => begins _ more both.2)

theorem matchingSkips {δ : Type} {client : Client δ} {arg : Bytes} {iso : Bool} {ctx : Context δ}
    {others : List Template} (unmatched : ∀ opt ∈ others, matchTemplate opt.templ arg = none)
    (opts : List Template) :
    Context.matching client arg iso ctx (others ++ opts) = Context.matching client arg iso ctx opts := by
  induction others with
  | nil => rfl
  | cons opt others ih =>
    obtain ⟨first,rest⟩ := List.forall_mem_cons.mp unmatched
    rw [List.cons_append,Context.matching]
    simp only [first]
    exact ih rest

theorem matchingOne {δ : Type} {client : Client δ} {arg : Bytes} {iso : Bool} {ctx next : Context δ} {opt : Template}
    {sep : Nat} (found : matchTemplate opt.templ arg = some sep) (equals : opt.templ[sep]? = some 61)
    (ok : ctx.processOpt client opt sep arg iso = .ok next) (opts : List Template) :
    Context.matching client arg iso ctx (opt :: opts) = Context.matching client arg iso next opts := by
  have attached : ¬(sep ≠ 0 ∧ opt.templ[sep]? = some 32 ∧ arg[sep]? = none) := by
    rintro ⟨-,blank,-⟩
    rw [equals] at blank
    exact absurd (Option.some.inj blank) (by decide)
  rw [Context.matching]
  simp only [found,if_neg attached,ok]
  rfl

theorem textTwo (opt : MaskOpt) : opt.text.take 2 = opt.kind.name.take 2 := by
  cases kind : opt.kind <;> rw [MaskOpt.text,kind] <;> rfl

theorem maskTemplates (kind : Kind) : ∃ before after, fuseLibOpts =
    before ++ (⟨kind.name,some setMode,1⟩ :: ⟨kind.name ++ ascii "%o",some kind.member,0⟩ :: after) ∧
    (before ++ after).all (apart (kind.name.take 2)) = true := by
  cases kind with
  | umask => exact ⟨fuseLibOpts.take 8,fuseLibOpts.drop 10,rfl,by decide⟩
  | fmask => exact ⟨fuseLibOpts.take 10,fuseLibOpts.drop 12,rfl,by decide⟩
  | dmask => exact ⟨fuseLibOpts.take 12,fuseLibOpts.drop 14,rfl,by decide⟩

theorem matchSeparator {t arg : Bytes} {sep : Nat} (found : separator t = some sep) (equals : t[sep]? = some 61)
    (format : t[sep+1]? = none ∨ t[sep+1]? = some 37) (starts : t.take (sep + 1) <+: arg) :
    matchTemplate t arg = some sep := by
  unfold matchTemplate
  simp only [found,if_pos equals]
  exact if_pos ⟨format,List.isPrefixOf_iff_prefix.mpr starts⟩

theorem maskMatches (opt : MaskOpt) :
    matchTemplate opt.kind.name opt.text = some 5 ∧ matchTemplate (opt.kind.name ++ ascii "%o") opt.text = some 5 := by
  have bare : separator opt.kind.name = some 5 ∧ opt.kind.name[5]? = some 61 ∧ opt.kind.name[6]? = none ∧
      opt.kind.name.take 6 = opt.kind.name := by
    cases opt.kind <;> decide
  have format : separator (opt.kind.name ++ ascii "%o") = some 5 ∧ (opt.kind.name ++ ascii "%o")[5]? = some 61 ∧
      (opt.kind.name ++ ascii "%o")[6]? = some 37 ∧ (opt.kind.name ++ ascii "%o").take 6 = opt.kind.name := by
    cases opt.kind <;> decide
  constructor
  · refine matchSeparator bare.1 bare.2.1 (.inl bare.2.2.1) ?_
    rw [bare.2.2.2]
    exact List.prefix_append _ _
  · refine matchSeparator format.1 format.2.1 (.inr format.2.2.1) ?_
    rw [format.2.2.2]
    exact List.prefix_append _ _

theorem processMask (isFloat : Bytes → Bool) (ctx : Context FuseConfig) (opt : MaskOpt) :
    ctx.processGopt (libClient isFloat) opt.text true = .ok {ctx with data := ctx.data.give opt} := by
  obtain ⟨before,after,split,other⟩ := maskTemplates opt.kind
  obtain ⟨first,second⟩ := maskMatches opt
  have unmatched : ∀ o ∈ before ++ after, matchTemplate o.templ opt.text = none := fun o mem =>
    apartUnmatched (textTwo opt) (List.all_eq_true.mp other o mem)
  have early := fun o mem => unmatched o (List.mem_append_left after mem)
  have late := fun o mem => unmatched o (List.mem_append_right before mem)
  have matched : (libClient isFloat).opt.any (fun o => (matchTemplate o.templ opt.text).isSome) = true := by
    rw [List.any_eq_true]
    refine ⟨⟨opt.kind.name,some setMode,1⟩,?_,by rw [first]; rfl⟩
    show _ ∈ fuseLibOpts
    rw [split]
    exact List.mem_append_right before List.mem_cons_self
  have mode : ctx.processOpt (libClient isFloat) ⟨opt.kind.name,some setMode,1⟩ 5 opt.text true =
      .ok {ctx with data := ctx.data.store setMode 1} := by
    have ends : opt.kind.name[6]? = none := by cases opt.kind <;> rfl
    unfold Context.processOpt
    simp only [ends,ne_eq,not_true_eq_false,and_false,if_false]
    rfl
  have mask (ctx : Context FuseConfig) :
      ctx.processOpt (libClient isFloat) ⟨opt.kind.name ++ ascii "%o",some opt.kind.member,0⟩ 5 opt.text true =
        .ok {ctx with data := ctx.data.store opt.kind.member opt.mask} := by
    have format : (opt.kind.name ++ ascii "%o")[6]? ≠ none ∧ (opt.kind.name ++ ascii "%o")[5]? = some 61 ∧
        (opt.kind.name ++ ascii "%o").drop 6 = ascii "%o" := by
      cases opt.kind <;> decide
    have param : opt.text.drop 6 = opt.digits := by
      have size : opt.kind.name.length = 6 := by cases opt.kind <;> rfl
      exact List.drop_left' size
    unfold Context.processOpt
    have read : (libClient isFloat).param opt.kind.member (ascii "%o") opt.digits ctx.data =
        (scanUnsigned 8 opt.digits).map (ctx.data.store opt.kind.member) := by
      show processOptParam isFloat opt.kind.member (ascii "%o") opt.digits ctx.data = _
      unfold processOptParam
      rw [if_neg (by decide),if_neg (by decide),if_pos rfl]
    simp only [format.2.1,format.2.2,param,if_true,read]
    rw [if_pos ⟨by decide,format.1⟩,scanOctal]
    rfl
  have equals : opt.kind.name[5]? = some 61 ∧ (opt.kind.name ++ ascii "%o")[5]? = some 61 := by
    cases opt.kind <;> decide
  rw [Context.processGopt,if_pos matched]
  show Context.matching (libClient isFloat) opt.text true ctx fuseLibOpts = _
  rw [split,matchingSkips early,matchingOne first equals.1 mode,matchingOne second equals.2 (mask _),
    ← List.append_nil after,
    matchingSkips late]
  rfl

/-! Groups of these options on a command line. -/

/- -oOPTIONS or -o OPTIONS, one option at least. -/
structure Group where
  attached : Bool
  first : MaskOpt
  more : List MaskOpt

def Group.opts (group : Group) : List MaskOpt := group.first :: group.more

def Group.text (group : Group) : Bytes := joined comma (group.opts.map MaskOpt.text)

def Group.args (group : Group) : List Bytes := if group.attached then [dashO ++ group.text] else [dashO,group.text]

def FuseConfig.giveAll (conf : FuseConfig) (opts : List MaskOpt) : FuseConfig := opts.foldl FuseConfig.give conf

theorem textBytes (opt : MaskOpt) : ∀ b ∈ opt.text, b ≠ 0 ∧ b ≠ comma ∧ b ≠ backslash := by
  intro b mem
  rcases List.mem_append.mp mem with named | digit
  · have all : opt.kind.name.all (fun b => decide (b ≠ 0 ∧ b ≠ comma ∧ b ≠ backslash)) = true := by
      cases opt.kind <;> decide
    exact of_decide_eq_true (List.all_eq_true.mp all b named)
  · have bounds := opt.octal b digit
    refine ⟨?_,?_,?_⟩ <;> rintro rfl <;> exact absurd bounds (by decide)

theorem escapedText (opt : MaskOpt) : escaped opt.text = opt.text := by
  have plain : ∀ b ∈ opt.text, (if b = comma ∨ b = backslash then [backslash,b] else [b]) = [b] := by
    intro b mem
    obtain ⟨-,first,second⟩ := textBytes opt b mem
    exact if_neg (fun either => either.elim first second)
  rw [escaped,List.flatMap_congr plain,List.flatMap_singleton']

theorem groupOptions (group : Group) : options group.text = group.opts.map MaskOpt.text := by
  have same : (group.opts.map MaskOpt.text).map escaped = group.opts.map MaskOpt.text := by
    rw [List.map_map]
    exact List.map_congr_left (fun opt _ => escapedText opt)
  have some : group.opts.map MaskOpt.text ≠ [] := by simp [Group.opts]
  have plain : ∀ text ∈ group.opts.map MaskOpt.text, upToNul text = text := by
    intro text mem
    obtain ⟨opt,-,rfl⟩ := List.mem_map.mp mem
    exact upToNulPlain (fun nul => (textBytes opt 0 nul).1 rfl)
  have split := optionsJoined some plain
  rw [same] at split
  exact split

theorem processMasks (isFloat : Bytes → Bool) (opts : List MaskOpt) (ctx : Context FuseConfig) :
    (opts.map MaskOpt.text).foldlM (fun ctx opt => ctx.processGopt (libClient isFloat) opt true) ctx =
      .ok {ctx with data := ctx.data.giveAll opts} := by
  induction opts generalizing ctx with
  | nil => rfl
  | cons opt opts ih =>
    rw [List.map_cons,List.foldlM_cons,processMask]
    exact ih _

theorem optionGroupMasks {isFloat : Bytes → Bool} {group : Group} {ctx next : Context FuseConfig}
    (ok : ctx.optionGroup (libClient isFloat) group.text = .ok next) :
    ∃ memory, next = {ctx with data := ctx.data.giveAll group.opts, memory := memory} := by
  unfold Context.optionGroup Context.takeMem at ok
  dsimp only at ok
  split at ok
  · rw [groupProcessed] at ok
    change (options group.text).foldlM _ _ = _ at ok
    rw [groupOptions,processMasks] at ok
    cases ok
    exact ⟨_,rfl⟩
  · cases ok

theorem groupText (group : Group) : group.text ≠ [] := by
  have first : group.first.text ≠ [] := by
    intro empty
    exact group.first.some (List.append_eq_nil_iff.mp empty).2
  rw [Group.text,Group.opts,List.map_cons]
  cases group.more with
  | nil => exact first
  | cons opt more =>
    rw [List.map_cons,joined]
    exact fun empty => first (List.append_eq_nil_iff.mp empty).1

theorem processAttached {client : Client δ} {ctx : Context δ} (before : ctx.nonopt = 0) {text : Bytes}
    (some : text ≠ []) :
    ctx.processOne client (dashO ++ text) = ctx.optionGroup client text := by
  obtain ⟨b,rest,rfl⟩ := List.exists_cons_of_ne_nil some
  have plain : ¬(ctx.nonopt ≠ 0 ∨ (dashO ++ b :: rest)[0]? ≠ Option.some dash) :=
    fun either => either.elim (fun late => late before) (fun other => other rfl)
  have second : (dashO ++ b :: rest)[1]? = Option.some 111 := rfl
  have third : (dashO ++ b :: rest)[2]? ≠ none := by
    intro none
    cases none
  unfold Context.processOne
  rw [if_neg plain,if_pos second,if_pos third]
  rfl

theorem processSeparate {client : Client δ} {ctx : Context δ} (before : ctx.nonopt = 0) {text : Bytes}
    (next : ctx.argv[ctx.argctr + 1]? = some text) :
    ctx.processOne client dashO = Context.optionGroup client {ctx with argctr := ctx.argctr + 1} text := by
  obtain ⟨inside,-⟩ := List.getElem?_eq_some_iff.mp next
  have plain : ¬(ctx.nonopt ≠ 0 ∨ dashO[0]? ≠ some dash) :=
    fun either => either.elim (fun late => late before) (fun other => other rfl)
  have second : dashO[1]? = some 111 := rfl
  have third : ¬dashO[2]? ≠ none := fun more => more rfl
  unfold Context.processOne
  rw [if_neg plain,if_pos second,if_neg third]
  unfold Context.nextArg
  rw [if_neg (Nat.not_le.mpr inside)]
  show Context.optionGroup client {ctx with argctr := ctx.argctr + 1} ((ctx.argv[ctx.argctr + 1]?).getD []) = _
  rw [next]
  rfl

theorem loopMasks {isFloat : Bytes → Bool} {groups : List Group} {fuel : Nat} {ctx last : Context FuseConfig}
    (here : ctx.argv.drop ctx.argctr = groups.flatMap Group.args) (enough : ctx.argv.length ≤ ctx.argctr + fuel)
    (before : ctx.nonopt = 0) (ok : Context.loop (libClient isFloat) fuel ctx = .ok last) :
    last.data = ctx.data.giveAll (groups.flatMap Group.opts) ∧ last.opts = ctx.opts := by
  induction groups generalizing fuel ctx with
  | nil =>
    rw [loopEnd (List.drop_eq_nil_iff.mp here) ok]
    exact ⟨rfl,rfl⟩
  | cons group groups ih =>
    obtain ⟨arg,tail,comes,rest⟩ : ∃ arg tail, group.args = arg :: tail ∧
        ctx.argv.drop (ctx.argctr + 1) = tail ++ groups.flatMap Group.args := by
      obtain ⟨arg,tail,is⟩ : ∃ arg tail, group.args = arg :: tail := by
        unfold Group.args
        split <;> exact ⟨_,_,rfl⟩
      refine ⟨arg,tail,is,?_⟩
      rw [← List.tail_drop,here,List.flatMap_cons,is]
      rfl
    have found : ctx.argv[ctx.argctr]? = some arg := by
      rw [← List.head?_drop,here,List.flatMap_cons,comes]
      rfl
    obtain ⟨inside,-⟩ := List.getElem?_eq_some_iff.mp found
    obtain ⟨k,rfl⟩ : ∃ k, fuel = k + 1 := ⟨fuel - 1,by omega⟩
    have room : ctx.argv.length ≤ ctx.argctr + 1 + k := by omega
    obtain ⟨mid,turn,onward⟩ := loopTurn found ok
    have given : (ctx.data.giveAll group.opts).giveAll (groups.flatMap Group.opts) =
        ctx.data.giveAll ((group :: groups).flatMap Group.opts) := by
      rw [List.flatMap_cons,FuseConfig.giveAll,FuseConfig.giveAll,FuseConfig.giveAll,List.foldl_append]
    cases form : group.attached with
    | true =>
      rw [Group.args,form] at comes
      obtain ⟨rfl,rfl⟩ := List.cons.inj comes
      rw [processAttached before (groupText group)] at turn
      obtain ⟨memory,rfl⟩ := optionGroupMasks turn
      have later := ih (by exact rest) (by exact room) (by exact before) onward
      exact ⟨later.1.trans given,later.2⟩
    | false =>
      rw [Group.args,form] at comes
      obtain ⟨rfl,rfl⟩ := List.cons.inj comes
      have next : ctx.argv[ctx.argctr + 1]? = some group.text := by
        rw [← List.head?_drop,rest]
        rfl
      rw [processSeparate before next] at turn
      obtain ⟨memory,rfl⟩ := optionGroupMasks turn
      have further : ctx.argv.length ≤ ctx.argctr + 1 + 1 + k := by omega
      have behind : ctx.argv.drop (ctx.argctr + 1 + 1) = groups.flatMap Group.args := by
        rw [← List.tail_drop,rest]
        rfl
      have later := ih (by exact behind) (by exact further) (by exact before) onward
      exact ⟨later.1.trans given,later.2⟩

theorem masksParsed (isFloat : Bytes → Bool) (conf : FuseConfig) (memory : Nat → Bool) (prog : Bytes)
    (groups : List Group)
    (ok : (fuseOptParse (libClient isFloat) conf memory (prog :: groups.flatMap Group.args)).1 = 0) :
    (fuseOptParse (libClient isFloat) conf memory (prog :: groups.flatMap Group.args)).2.2 =
      conf.giveAll (groups.flatMap Group.opts) := by
  obtain ⟨last,parsed,eq⟩ | ⟨_,_,eq⟩ :=
    fuseOptParseCases (libClient isFloat) conf memory prog (groups.flatMap Group.args)
  · rw [eq]
    unfold Context.optParse at parsed
    obtain ⟨named,added,parsed⟩ := okBind parsed
    obtain ⟨_,rfl⟩ := addArgOk added
    obtain ⟨mid,looped,parsed⟩ := okBind parsed
    obtain ⟨inserted,grouped,parsed⟩ := okBind parsed
    have here : (prog :: groups.flatMap Group.args).drop 1 = groups.flatMap Group.args := rfl
    obtain ⟨data,opts⟩ := loopMasks here (by simp) rfl looped
    have none : mid.opts = none := opts
    unfold Context.insertOpts at grouped
    rw [none] at grouped
    cases grouped
    cases parsed
    show mid.dropSeparator.data = _
    rw [← data]
    unfold Context.dropSeparator
    split <;> rfl
  · rw [eq] at ok
    cases ok

/-! What the options leave in the configuration. -/

def lastMask (kind : Kind) (opts : List MaskOpt) : BitVec 32 :=
  ((opts.filter (fun opt => opt.kind = kind)).getLast?.map MaskOpt.mask).getD 0

theorem giveWord (conf : FuseConfig) (opt : MaskOpt) (kind : Kind) :
    (conf.give opt).word kind.member = if opt.kind = kind then opt.mask else conf.word kind.member := by
  have apart : kind.member ≠ setMode := by cases kind <;> decide
  have same : kind.member = opt.kind.member ↔ opt.kind = kind := by
    cases kind <;> cases opt.kind <;> decide
  show (if kind.member = opt.kind.member then opt.mask else if kind.member = setMode then 1
    else conf.word kind.member) = _
  rw [if_neg apart]
  exact if_congr same rfl rfl

theorem giveAllWord (conf : FuseConfig) (opts : List MaskOpt) (kind : Kind) :
    (conf.giveAll opts).word kind.member =
      ((opts.filter (fun opt => opt.kind = kind)).getLast?.map MaskOpt.mask).getD (conf.word kind.member) := by
  induction opts generalizing conf with
  | nil => rfl
  | cons opt opts ih =>
    show ((conf.give opt).giveAll opts).word kind.member = _
    rw [ih,giveWord]
    rcases Decidable.em (opt.kind = kind) with same | other
    · rw [if_pos same,List.filter_cons_of_pos (by simpa using same),List.getLast?_cons]
      cases (opts.filter (fun opt => opt.kind = kind)).getLast? <;> rfl
    · rw [if_neg other,List.filter_cons_of_neg (by simpa using other)]

theorem giveMode (conf : FuseConfig) (opt : MaskOpt) : (conf.give opt).word setMode = 1 := by
  have apart : setMode ≠ opt.kind.member := by cases opt.kind <;> decide
  show (if setMode = opt.kind.member then opt.mask else 1) = _
  rw [if_neg apart]

theorem giveAllMode (conf : FuseConfig) {opts : List MaskOpt} (some : opts ≠ []) :
    (conf.giveAll opts).word setMode = 1 := by
  induction opts generalizing conf with
  | nil => exact absurd rfl some
  | cons opt opts ih =>
    cases opts with
    | nil => exact giveMode conf opt
    | cons next opts => exact ih (conf.give opt) (List.cons_ne_nil next opts)

/-! Permission bits -/

theorem maskedPerms (mode mask : BitVec 32) :
    (mode &&& sIfmt ||| perms &&& ~~~mask) &&& perms = perms &&& ~~~mask ∧
      (mode &&& sIfmt ||| perms &&& ~~~mask) &&& sIfmt = mode &&& sIfmt := by
  have apart : sIfmt &&& perms = 0#32 := by decide
  have bit (k : Nat) : (sIfmt.getLsbD k && perms.getLsbD k) = false := by
    rw [← BitVec.getLsbD_and,apart,BitVec.getLsbD_zero]
  have words : ∀ m i p n : Bool, (i && p) = false →
      ((m && i || p && n) && p) = (p && n) ∧ ((m && i || p && n) && i) = (m && i) := by decide
  constructor
  · apply BitVec.eq_of_getLsbD_eq
    intro k _
    rw [BitVec.getLsbD_and,BitVec.getLsbD_or,BitVec.getLsbD_and,BitVec.getLsbD_and]
    exact (words _ _ _ _ (bit k)).1
  · apply BitVec.eq_of_getLsbD_eq
    intro k _
    rw [BitVec.getLsbD_and,BitVec.getLsbD_or,BitVec.getLsbD_and,BitVec.getLsbD_and]
    exact (words _ _ _ _ (bit k)).2

def chosen (conf : FuseConfig) (mode : BitVec 32) : BitVec 32 :=
  if conf.word dmask ≠ 0 ∧ sIsdir mode then conf.word dmask
  else if conf.word fmask ≠ 0 then conf.word fmask
  else conf.word umask

theorem setStatMode (conf : FuseConfig) (nodeid : BitVec 64) (stbuf : Stat) (set : conf.word setMode ≠ 0) :
    (setStat conf nodeid stbuf).mode = stbuf.mode &&& sIfmt ||| perms &&& ~~~chosen conf stbuf.mode := by
  have ino : (if conf.word useIno = 0 then {stbuf with ino := nodeid} else stbuf).mode = stbuf.mode := by
    split <;> rfl
  unfold setStat chosen
  simp only [if_pos set,apply_ite Stat.mode,ite_self]
  split
  · rfl
  · split <;> rfl

/- What set_stat makes of a mode after options of these kinds: a mask that is zero counts as none. -/
structure Masked (opts : List MaskOpt) (before after : BitVec 32) : Prop where
  type : after &&& sIfmt = before &&& sIfmt
  file : sIsdir before = false → after &&& perms =
    perms &&& ~~~(if lastMask .fmask opts ≠ 0 then lastMask .fmask opts else lastMask .umask opts)
  dir : sIsdir before = true → lastMask .dmask opts ≠ 0 → after &&& perms = perms &&& ~~~lastMask .dmask opts
  both : sIsdir before = true → lastMask .dmask opts = 0 → lastMask .fmask opts = 0 →
    after &&& perms = perms &&& ~~~lastMask .umask opts

theorem masksApplied (isFloat : Bytes → Bool) (conf : FuseConfig) (memory : Nat → Bool) (prog : Bytes)
    (groups : List Group) (fresh : ∀ kind : Kind, conf.word kind.member = 0) (some : groups ≠ [])
    (ok : (fuseOptParse (libClient isFloat) conf memory (prog :: groups.flatMap Group.args)).1 = 0)
    (nodeid : BitVec 64) (stbuf : Stat) :
    Masked (groups.flatMap Group.opts) stbuf.mode
      (setStat (fuseOptParse (libClient isFloat) conf memory (prog :: groups.flatMap Group.args)).2.2
        nodeid stbuf).mode := by
  rw [masksParsed isFloat conf memory prog groups ok]
  have opts : groups.flatMap Group.opts ≠ [] := by
    obtain ⟨group,rest,rfl⟩ := List.exists_cons_of_ne_nil some
    exact List.cons_ne_nil group.first (group.more ++ rest.flatMap Group.opts)
  have set : (conf.giveAll (groups.flatMap Group.opts)).word setMode ≠ 0 := by
    rw [giveAllMode conf opts]
    decide
  have word (kind : Kind) : (conf.giveAll (groups.flatMap Group.opts)).word kind.member =
      lastMask kind (groups.flatMap Group.opts) := by
    rw [giveAllWord,fresh,lastMask]
  have masks : chosen (conf.giveAll (groups.flatMap Group.opts)) stbuf.mode =
      if lastMask .dmask (groups.flatMap Group.opts) ≠ 0 ∧
        sIsdir stbuf.mode then lastMask .dmask (groups.flatMap Group.opts)
      else if lastMask .fmask (groups.flatMap Group.opts) ≠ 0 then lastMask .fmask (groups.flatMap Group.opts)
      else lastMask .umask (groups.flatMap Group.opts) := by
    rw [← word .umask,← word .fmask,← word .dmask]
    rfl
  rw [setStatMode _ nodeid stbuf set,masks]
  refine ⟨(maskedPerms _ _).2,fun file => ?_,fun dir given => ?_,fun dir none free => ?_⟩
  · rw [(maskedPerms _ _).1,if_neg (fun both => Bool.false_ne_true (file.symm.trans both.2))]
  · rw [(maskedPerms _ _).1,if_pos ⟨given,dir⟩]
  · rw [(maskedPerms _ _).1,if_neg (fun both => both.1 none),if_neg (fun more => more free)]

def given (kind : Kind) (digits : String) (some : ascii digits ≠ [])
    (octal : (ascii digits).all (fun b => decide (48 ≤ b ∧ b ≤ 55)) = true) : MaskOpt :=
  ⟨kind,ascii digits,some,fun b mem => of_decide_eq_true (List.all_eq_true.mp octal b mem)⟩

def someGroups : List Group :=
  [⟨false,given .umask "077" (by decide) (by decide),[given .dmask "22" (by decide) (by decide)]⟩,
   ⟨true,given .fmask "0" (by decide) (by decide),[]⟩]

theorem someGroupsParsed :
    (fuseOptParse (libClient fun _ => false) zeroed (fun _ => true)
      (ascii "p" :: someGroups.flatMap Group.args)).1 = 0 := by
  decide +kernel

theorem someGroupsApplied : Masked (someGroups.flatMap Group.opts) 0x8124
    (setStat (fuseOptParse (libClient fun _ => false) zeroed (fun _ => true)
      (ascii "p" :: someGroups.flatMap Group.args)).2.2 7 ⟨0,0x8124,0,0⟩).mode :=
  masksApplied (fun _ => false) zeroed (fun _ => true) (ascii "p") someGroups (fun _ => rfl)
    (by decide) someGroupsParsed 7
    ⟨0,0x8124,0,0⟩

/- fmask=0 behind umask=077: a file has 0700, not all the permissions that the fmask leaves. -/
theorem zeroMaskIgnored :
    lastMask .fmask (someGroups.flatMap Group.opts) = 0 ∧ (∃ opt ∈ someGroups.flatMap Group.opts, opt.kind = .fmask) ∧
    (setStat (fuseOptParse (libClient fun _ => false) zeroed (fun _ => true)
      (ascii "p" :: someGroups.flatMap Group.args)).2.2 7 ⟨0,0x8124,0,0⟩).mode &&& perms ≠
        perms &&& ~~~lastMask .fmask (someGroups.flatMap Group.opts) := by
  rw [masksParsed _ _ _ _ _ someGroupsParsed]
  refine ⟨by decide,⟨given .fmask "0" (by decide) (by decide),by decide,rfl⟩,by decide⟩

end FuseStudy.ModeMasks
