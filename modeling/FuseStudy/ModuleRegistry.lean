import FuseStudy.CString
import Mathlib.Logic.Function.Basic

/-! The list of file system modules in lib/fuse.c: one for the process, with a count on each module
that fuse_new takes and fuse_destroy gives back. -/
namespace FuseStudy.ModuleRegistry
open CString

structure FuseModule where
  name : Bytes
  so : Option Nat
  ctr : Nat
  deriving DecidableEq, Repr

/- Modules and shared objects are named by the order of their allocation; `modules` is the list at
fuse_modules, `builtin` the flag builtin_modules_registered, and `tried` has the calls of fuse_load_so_module. -/
structure Registry where
  mods : Nat → FuseModule
  modules : List Nat
  next : Nat
  soCtr : Nat → Nat
  soNext : Nat
  closed : List Nat
  tried : List Bytes
  builtin : Bool

def Registry.setCtr (r : Registry) (m ctr : Nat) : Registry :=
  {r with mods := Function.update r.mods m {r.mods m with ctr := ctr}}

def fuseRegisterModule (r : Registry) (memory : Bool) (name : Bytes) (so : Option Nat) : Registry × Bool :=
  if memory then
    ({r with
      mods := Function.update r.mods r.next ⟨name,so,0⟩
      modules := r.next :: r.modules
      next := r.next + 1
      soCtr := match so with
        | none => r.soCtr
        | some so => Function.update r.soCtr so (r.soCtr so + 1)},true)
  else (r,false)

def fuseUnregisterModule (r : Registry) (m : Nat) : Registry := {r with modules := r.modules.erase m}

/- `loads` is whether the shared object and its factory are found and there is memory for them. -/
def fuseLoadSoModule (r : Registry) (loads : Bool) (name : Bytes) : Registry × Bool :=
  let r := {r with tried := r.tried ++ [name]}
  if loads then
    fuseRegisterModule {r with soCtr := Function.update r.soCtr r.soNext 0, soNext := r.soNext + 1} true
      name (some r.soNext)
  else (r,false)

def fuseFindModule (r : Registry) (name : Bytes) : Registry × Option Nat :=
  match r.modules.find? fun m => (r.mods m).name = name with
  | none => (r,none)
  | some m => (r.setCtr m ((r.mods m).ctr + 1),some m)

def fuseGetModule (r : Registry) (loads : Bool) (name : Bytes) : Registry × Option Nat :=
  match fuseFindModule r name with
  | (r,some m) => (r,some m)
  | (r,none) =>
    match fuseLoadSoModule r loads name with
    | (r,true) => fuseFindModule r name
    | (r,false) => (r,none)

/- A builtin module may have the count 0 already. -/
def fusePutModule (r : Registry) (m : Nat) : Registry :=
  let r := r.setCtr m ((r.mods m).ctr - 1)
  if (r.mods m).ctr = 0 then
    match (r.mods m).so with
    | none => fuseUnregisterModule r m
    | some so =>
      let r := {r with soCtr := Function.update r.soCtr so (r.soCtr so - 1)}
      if r.soCtr so = 0 then
        {r with
          modules := r.modules.filter fun other => (r.mods other).so ≠ some so
          closed := r.closed ++ [so]}
      else r
  else r

/- What one module of the list meets: can it be loaded, and does its factory make a file system. -/
structure Push where
  loads : Bool
  factory : Bool
  deriving DecidableEq, Repr

def fusePushModule (r : Registry) (e : Push) (name : Bytes) : Registry × Option Nat :=
  match fuseGetModule r e.loads name with
  | (r,none) => (r,none)
  | (r,some m) => if e.factory then (r,some m) else (fusePutModule r m,none)

def pushAll : List (Bytes × Push) → Registry → Registry × Option (List Nat)
  | [],r => (r,some [])
  | (name,e)::rest,r =>
    match fusePushModule r e name with
    | (r,none) => (r,none)
    | (r,some m) =>
      let (r,pushed) := pushAll rest r
      (r,pushed.map (m :: ·))

def subdir : Bytes := ascii "subdir"

def iconv : Bytes := ascii "iconv"

/- `options`, `context` and `rest` are the parts of fuse_new before and after the modules. -/
structure NewRun where
  haveIconv : Bool
  modules : Option Bytes
  pushes : Nat → Push
  options : Bool
  memory : Bool
  iconvMemory : Bool
  context : Bool
  rest : Bool

def NewRun.names (e : NewRun) : List Bytes :=
  match e.modules with
  | none => []
  | some modules => (split 58 modules).filter (· ≠ [])

def NewRun.list (e : NewRun) : List (Bytes × Push) := e.names.zipIdx.map fun n => (n.1,e.pushes n.2)

def registerBuiltin (r : Registry) (e : NewRun) : Registry :=
  if r.builtin then r
  else
    let r := (fuseRegisterModule r e.memory subdir none).1
    let r := if e.haveIconv then (fuseRegisterModule r e.iconvMemory iconv none).1 else r
    {r with builtin := true}

structure Instance where
  id : Nat
  modules : List Nat
  deriving DecidableEq, Repr

structure Process where
  registry : Registry
  live : List Instance
  next : Nat

/- An instance that could not be made is freed with the counts it took. -/
def fuseNew (p : Process) (e : NewRun) : Process :=
  if e.options then
    let r := registerBuiltin p.registry e
    if e.context then
      match pushAll e.list r with
      | (r,none) => {p with registry := r}
      | (r,some modules) =>
        if e.rest then ⟨r,⟨p.next,modules⟩ :: p.live,p.next + 1⟩ else {p with registry := r}
    else {p with registry := r}
  else p

/- `while (fuse_modules) fuse_put_module(fuse_modules)`, for a number of turns. -/
def putAll : Nat → Registry → Registry
  | 0,r => r
  | turns + 1,r =>
    match r.modules with
    | [] => r
    | m::_ => putAll turns (fusePutModule r m)

/- Enough turns to take every count and every module away. -/
def Registry.turns (r : Registry) : Nat := (r.modules.map fun m => (r.mods m).ctr + 1).sum

def fuseDestroy (p : Process) (f : Nat) : Process :=
  {p with registry := putAll p.registry.turns p.registry, live := p.live.filter fun g => g.id ≠ f}

def start : Process := ⟨⟨fun _ => ⟨[],none,0⟩,[],0,fun _ => 0,0,[],[],false⟩,[],0⟩

end FuseStudy.ModuleRegistry
