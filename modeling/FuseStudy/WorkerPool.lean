import Mathlib.Logic.Function.Basic
import Mathlib.Data.List.Basic

/-! The multi-threaded session loop of lib/fuse_loop_mt.c. Every critical section of mt->lock is one step,
and so is every piece of a thread between two of them. -/
namespace FuseStudy.WorkerPool

/- Where a worker thread stands in fuse_do_work: at the condition of the loop, reading the device,
before and after its first critical section, past the loop, taken out of the list by itself, returned
or cancelled, and returned after it freed itself. -/
inductive WorkerPc
  | top
  | receiving
  | received (isforget : Bool)
  | processing (isforget : Bool)
  | leaving
  | unlinked
  | ended
  | gone
  deriving DecidableEq, Repr

/- `ch` is whether it has a channel of its own, `cancelled` a pthread_cancel that has not acted yet. -/
structure Worker where
  pc : WorkerPc
  ch : Bool
  cancelled : Bool
  deriving DecidableEq, Repr

inductive MainPc
  | starting
  | waiting
  | joining
  | freeing (w : Nat)
  | returned
  deriving DecidableEq, Repr

inductive Releaser
  | itself
  | main
  deriving DecidableEq, Repr

structure Config where
  cloneFd : Bool
  maxIdle : Int
  maxThreads : Int
  deriving DecidableEq, Repr

/- `listed` is the list at mt->main, `exit` and `finish` are fields of mt, `exited` is the session's flag
and `released` who was freed by whom. -/
structure Pool where
  listed : List Nat
  workers : Nat → Worker
  next : Nat
  numworker : Int
  numavail : Int
  exit : Bool
  error : Int
  finish : Nat
  cloneFd : Bool
  exited : Bool
  main : MainPc
  released : List (Nat × Releaser)

def Pool.move (p : Pool) (w : Nat) (pc : WorkerPc) : Pool :=
  {p with workers := Function.update p.workers w {p.workers w with pc := pc}}

structure Start where
  memory : Bool
  clone : Bool
  create : Bool
  deriving DecidableEq, Repr

/- A clone that fails is not attempted again. -/
def cloneChan (p : Pool) (e : Start) : Pool := {p with cloneFd := p.cloneFd && e.clone}

def fuseLoopStartThread (p : Pool) (e : Start) : Pool × Bool :=
  if e.memory then
    let p := cloneChan p e
    if e.create then
      ({p with
        listed := p.listed ++ [p.next]
        workers := Function.update p.workers p.next ⟨.top,p.cloneFd,false⟩
        next := p.next + 1
        numavail := p.numavail + 1
        numworker := p.numworker + 1},true)
    else (p,false)
  else (p,false)

/- What fuse_session_receive_buf_internal returns: interrupted, 0 (the session may have been left for it),
an error, or a message. -/
inductive Received
  | intr
  | nothing (exits : Bool)
  | failed (res : Int)
  | message (isforget : Bool)
  deriving DecidableEq, Repr

def countMessage (p : Pool) (isforget : Bool) (change : Int) : Pool :=
  {p with numavail := if isforget then p.numavail else p.numavail + change}

def makeRoom (c : Config) (p : Pool) (e : Start) : Pool :=
  if p.numavail = 0 ∧ p.numworker < c.maxThreads then (fuseLoopStartThread p e).1 else p

def takeMessage (c : Config) (p : Pool) (w : Nat) (isforget : Bool) (e : Start) : Pool :=
  if p.exit then p.move w .ended else (makeRoom c (countMessage p isforget (-1)) e).move w (.processing isforget)

def messageDone (c : Config) (p : Pool) (w : Nat) (isforget : Bool) : Pool :=
  let p := countMessage p isforget 1
  if c.maxIdle ≠ -1 ∧ c.maxIdle < p.numavail ∧ 1 < p.numworker then
    if p.exit then p.move w .ended
    else {p with listed := p.listed.erase w, numavail := p.numavail - 1, numworker := p.numworker - 1}.move w .unlinked
  else p.move w .top

def received (p : Pool) (w : Nat) : Received → Pool
  | .intr => p.move w .top
  | .nothing exits => {p with exited := p.exited || exits}.move w .leaving
  | .failed res => {p with exited := true, error := res}.move w .leaving
  | .message isforget => p.move w (.received isforget)

def stopPool (p : Pool) : Pool := {p with
  workers := fun w => if w ∈ p.listed then {p.workers w with cancelled := true} else p.workers w
  exit := true
  main := .joining}

inductive Event
  | begin (e : Start)
  | wait (interrupted : Bool)
  | stop
  | join
  | freeJoined
  | finish
  | sessionExit
  | enter (w : Nat)
  | receive (w : Nat) (res : Received)
  | cancel (w : Nat)
  | take (w : Nat) (e : Start)
  | done (w : Nat)
  | post (w : Nat)
  | free (w : Nat)
  deriving DecidableEq, Repr

/- Any thread may leave the session at any time. Only a worker that reads the device can be cancelled. -/
def Pool.step (c : Config) (p : Pool) : Event → Option Pool
  | .begin e =>
    if p.main = .starting then
      let (p,ok) := fuseLoopStartThread p e
      some {p with main := if ok then .waiting else .returned}
    else none
  | .wait interrupted =>
    if p.main = .waiting ∧ (interrupted = true ∨ 0 < p.finish) then
      some {p with finish := if interrupted then p.finish else p.finish - 1}
    else none
  | .stop => if p.main = .waiting ∧ p.exited = true then some (stopPool p) else none
  | .join =>
    match p.main,p.listed with
    | .joining,w::rest => if (p.workers w).pc = .ended then some {p with listed := rest, main := .freeing w} else none
    | _,_ => none
  | .freeJoined =>
    match p.main with
    | .freeing w => some {p with released := p.released ++ [(w,Releaser.main)], main := .joining}
    | _ => none
  | .finish => if p.main = .joining ∧ p.listed = [] then some {p with main := .returned} else none
  | .sessionExit => some {p with exited := true}
  | .enter w =>
    if w < p.next ∧ (p.workers w).pc = .top then some (p.move w (if p.exited then .leaving else .receiving)) else none
  | .receive w res => if w < p.next ∧ (p.workers w).pc = .receiving then some (received p w res) else none
  | .cancel w =>
    if w < p.next ∧ (p.workers w).pc = .receiving ∧ (p.workers w).cancelled = true then some (p.move w .ended) else none
  | .take w e =>
    match (p.workers w).pc with
    | .received isforget => if w < p.next then some (takeMessage c p w isforget e) else none
    | _ => none
  | .done w =>
    match (p.workers w).pc with
    | .processing isforget => if w < p.next then some (messageDone c p w isforget) else none
    | _ => none
  | .post w => if w < p.next ∧
      (p.workers w).pc = .leaving then some ({p with finish := p.finish + 1}.move w .ended) else none
  | .free w =>
    if w < p.next ∧
      (p.workers w).pc = .unlinked then some
        ({p with released := p.released ++ [(w,Releaser.itself)]}.move w .gone) else none

def newPool (c : Config) : Pool := ⟨[],fun _ => ⟨.top,false,false⟩,0,0,0,false,0,0,c.cloneFd,false,.starting,[]⟩

inductive Reachable (c : Config) : Pool → Prop
  | start : Reachable c (newPool c)
  | step {p q} (before : Reachable c p) (e : Event) (next : p.step c e = some q) : Reachable c q

end FuseStudy.WorkerPool
