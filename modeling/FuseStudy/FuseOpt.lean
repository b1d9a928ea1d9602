import FuseStudy.KernMount

/-! fuse_opt_parse of lib/fuse_opt.c. Every allocation asks the stream `memory`; a call that
returns -1 leaves the context as it was at that moment. -/
namespace FuseStudy.FuseOpt
open CString
open DoMount (comma backslash)
open KernMount (addOptCommon escaped separator)

/- struct fuse_opt, an offset of -1U being none. -/
structure Template where
  templ : Bytes
  offset : Option Nat
  value : Int

def keyOpt : Int := -1
def keyNonopt : Int := -2
def keyKeep : Int := -3
def keyDiscard : Int := -4

/- What the caller passes in: the templates, the processing function on data, argument, key and
outargs, and the two ways of storing something in the data: a value, or a parameter read by
its format, which may fail. -/
structure Client (δ : Type) where
  opt : List Template
  proc : Option (δ → Bytes → Int → List Bytes → Int × δ × List Bytes)
  set : Nat → Int → δ → δ
  param : Nat → Bytes → Bytes → δ → Option δ

structure Context (δ : Type) where
  data : δ
  argctr : Nat
  argv : List Bytes
  outargs : List Bytes
  opts : Option Bytes
  nonopt : Nat
  memory : Nat → Bool

variable {δ : Type}

def Context.takeMem (ctx : Context δ) : Bool × Context δ :=
  (ctx.memory 0,{ctx with memory := fun i => ctx.memory (i+1)})

def Context.nextArg (ctx : Context δ) : Except (Context δ) (Context δ) :=
  if ctx.argctr + 1 ≥ ctx.argv.length then .error ctx else .ok {ctx with argctr := ctx.argctr + 1}

def Context.addArg (ctx : Context δ) (arg : Bytes) : Except (Context δ) (Context δ) :=
  let (copied,ctx) := ctx.takeMem
  if copied then
    let (grown,ctx) := ctx.takeMem
    if grown then .ok {ctx with outargs := ctx.outargs ++ [arg]} else .error ctx
  else .error ctx

/- The new argument is put at the end, then moved. -/
def Context.insertArg (ctx : Context δ) (pos : Nat) (arg : Bytes) : Except (Context δ) (Context δ) := do
  let ctx ← ctx.addArg arg
  let old := ctx.outargs.dropLast
  if pos ≠ ctx.outargs.length - 1 then .ok {ctx with outargs := old.take pos ++ arg :: old.drop pos} else .ok ctx

def Context.addOpt (ctx : Context δ) (opt : Bytes) : Except (Context δ) (Context δ) :=
  let (grown,ctx) := ctx.takeMem
  if grown then .ok {ctx with opts := some (addOptCommon ctx.opts opt true)} else .error ctx

def Context.callProc (client : Client δ) (ctx : Context δ) (arg : Bytes) (key : Int) (iso : Bool) :
    Except (Context δ) (Context δ) :=
  let keep := fun ctx : Context δ => if iso then ctx.addOpt arg else ctx.addArg arg
  if key = keyDiscard then .ok ctx
  else match client.proc with
    | some proc =>
      if key = keyKeep then keep ctx
      else
        let (res,data,outargs) := proc ctx.data arg key ctx.outargs
        let ctx := {ctx with data := data, outargs := outargs}
        if res = -1 then .error ctx
        else if res = 0 then .ok ctx
        else keep ctx
    | none => keep ctx

/- The position of the separator of a template with a parameter, zero for one without. The
lengths are int and unsigned in the source, and hold those of every string that execve passes. -/
def matchTemplate (t arg : Bytes) : Option Nat :=
  let whole := if t = arg then some 0 else none
  match separator t with
  | some sep =>
    let tlen := if t[sep]? = some 61 then sep + 1 else sep
    if (t[sep+1]? = none ∨ t[sep+1]? = some 37) ∧ (t.take tlen).isPrefixOf arg then some sep else whole
  | none => whole

def Context.processOpt (client : Client δ) (ctx : Context δ) (opt : Template) (sep : Nat) (arg : Bytes) (iso : Bool) :
    Except (Context δ) (Context δ) :=
  match opt.offset with
  | none => ctx.callProc client arg opt.value iso
  | some offset =>
    if sep ≠ 0 ∧ opt.templ[sep+1]? ≠ none then
      let param := arg.drop (if opt.templ[sep]? = some 61 then sep + 1 else sep)
      match client.param offset (opt.templ.drop (sep+1)) param ctx.data with
      | some data => .ok {ctx with data := data}
      | none => .error ctx
    else .ok {ctx with data := client.set offset opt.value ctx.data}

def Context.processOptSepArg (client : Client δ) (ctx : Context δ) (opt : Template) (sep : Nat) (arg : Bytes)
    (iso : Bool) : Except (Context δ) (Context δ) := do
  let ctx ← ctx.nextArg
  let param := (ctx.argv[ctx.argctr]?).getD []
  let (allocated,ctx) := ctx.takeMem
  if allocated then ctx.processOpt client opt sep (arg.take sep ++ param) iso else .error ctx

def Context.matching (client : Client δ) (arg : Bytes) (iso : Bool) :
    Context δ → List Template → Except (Context δ) (Context δ)
  | ctx, [] => .ok ctx
  | ctx, opt :: rest => match matchTemplate opt.templ arg with
    | none => Context.matching client arg iso ctx rest
    | some sep => do
      let ctx ← if sep ≠ 0 ∧ opt.templ[sep]? = some 32 ∧ arg[sep]? = none
        then ctx.processOptSepArg client opt sep arg iso
        else ctx.processOpt client opt sep arg iso
      Context.matching client arg iso ctx rest

def Context.processGopt (client : Client δ) (ctx : Context δ) (arg : Bytes) (iso : Bool) :
    Except (Context δ) (Context δ) :=
  if client.opt.any (fun opt => (matchTemplate opt.templ arg).isSome) then Context.matching client arg iso
    ctx client.opt
  else ctx.callProc client arg keyOpt iso

/- What strlen and strdup see of a buffer. -/
def upToNul (d : Bytes) : Bytes := d.takeWhile (· ≠ 0)

def octal (a x y : UInt8) : Bool := 48 ≤ a && a ≤ 51 && 48 ≤ x && x ≤ 55 && 48 ≤ y && y ≤ 55

def octalByte (a x y : UInt8) : UInt8 := (a - 48) * 64 + (x - 48) * 8 + (y - 48)

/- The character a backslash stands for and how many it takes up after the backslash, which is
an ordinary character at the end of the string. -/
def unescaped : Bytes → UInt8 × Nat
  | [] => (backslash,0)
  | a :: x :: y :: _ => if octal a x y then (octalByte a x y,3) else (a,1)
  | a :: _ => (a,1)

/- d is what stands between opts and d; s moves over skip characters at once. -/
def Context.realOptionGroup (client : Client δ) : Nat → Context δ → Bytes → Bytes → Except (Context δ) (Context δ)
  | _, ctx, d, [] => ctx.processGopt client (upToNul d) true
  | skip+1, ctx, d, _ :: s => Context.realOptionGroup client skip ctx d s
  | 0, ctx, d, b :: s =>
    if b = comma then do
      let ctx ← ctx.processGopt client (upToNul d) true
      Context.realOptionGroup client 0 ctx [] s
    else
      let (c,skip) := if b = backslash then unescaped s else (b,0)
      Context.realOptionGroup client skip ctx (d ++ [c]) s

def Context.optionGroup (client : Client δ) (ctx : Context δ) (opts : Bytes) : Except (Context δ) (Context δ) :=
  let (copied,ctx) := ctx.takeMem
  if copied then Context.realOptionGroup client 0 ctx [] opts else .error ctx

def dash : UInt8 := 45

def Context.processOne (client : Client δ) (ctx : Context δ) (arg : Bytes) : Except (Context δ) (Context δ) :=
  if ctx.nonopt ≠ 0 ∨ arg[0]? ≠ some dash then ctx.callProc client arg keyNonopt false
  else if arg[1]? = some 111 then
    if arg[2]? ≠ none then ctx.optionGroup client (arg.drop 2)
    else do
      let ctx ← ctx.nextArg
      ctx.optionGroup client ((ctx.argv[ctx.argctr]?).getD [])
  else if arg[1]? = some dash ∧ arg[2]? = none then do
    let ctx ← ctx.addArg arg
    .ok {ctx with nonopt := ctx.outargs.length}
  else ctx.processGopt client arg false

/- The loop of opt_parse; argctr grows with every turn. -/
def Context.loop (client : Client δ) : Nat → Context δ → Except (Context δ) (Context δ)
  | 0, ctx => .ok ctx
  | fuel+1, ctx => match ctx.argv[ctx.argctr]? with
    | none => .ok ctx
    | some arg => do
      let ctx ← ctx.processOne client arg
      Context.loop client fuel {ctx with argctr := ctx.argctr + 1}

def dashO : Bytes := ascii "-o"

def dashDash : Bytes := ascii "--"

/- The group comes behind the program name. -/
def Context.insertOpts (ctx : Context δ) : Except (Context δ) (Context δ) :=
  match ctx.opts with
  | none => .ok ctx
  | some opts => do
    let ctx ← ctx.insertArg 1 dashO
    ctx.insertArg 2 opts

/- "If option separator ("--") is the last argument, remove it"; nonopt is the number of arguments
up to the separator before the group was inserted. -/
def Context.dropSeparator (ctx : Context δ) : Context δ :=
  if ctx.nonopt ≠ 0 ∧ ctx.nonopt = ctx.outargs.length ∧ ctx.outargs.getLast? = some dashDash
  then {ctx with outargs := ctx.outargs.dropLast}
  else ctx

def Context.optParse (client : Client δ) (ctx : Context δ) : Except (Context δ) (Context δ) := do
  let ctx ← match ctx.argv with
    | [] => .ok ctx
    | first :: _ => ctx.addArg first
  let ctx ← Context.loop client ctx.argv.length {ctx with argctr := 1}
  let ctx ← ctx.insertOpts
  .ok ctx.dropSeparator

def fuseOptParse (client : Client δ) (data : δ) (memory : Nat → Bool) (args : List Bytes) : Int × List Bytes × δ :=
  if args = [] then (0,args,data)
  else match Context.optParse client ⟨data,0,args,[],none,0,memory⟩ with
    | .ok ctx => (0,ctx.outargs,ctx.data)
    | .error ctx => (-1,args,ctx.data)

end FuseStudy.FuseOpt
