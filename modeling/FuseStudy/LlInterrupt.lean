import FuseStudy.LlSession
import Mathlib.Data.Finset.Card
import Mathlib.Data.List.Perm.Basic

/-! Interrupts and their targets in a session that processes interrupts. Every critical section of
the session lock is one step, and so is every piece of code between two of them, so the steps of
any number of threads interleave as they like. Each request has a place of its own in the code. -/
namespace FuseStudy.LlInterrupt
open LlRequest

inductive Kind
  | ordinary
  | interrupt
  deriving DecidableEq, Repr

/- Where the processing of a request stands. An ordinary request is allocated, entered into
se->list and handed to its handler, which may register an interrupt function (`registering` with
req->lock held, `calling` about to call it) and replies. An INTERRUPT is aimed at its target; it
has found a request in se->list and taken a reference, has marked it and read its function while
holding its lock, has released that lock, and is matched; or it duplicates a pending one, or it
is pending itself until its target arrives or a thread takes it out to answer it. The last three
are fuse_free_req: the answer is sent, the counter was 1, the request is done with. -/
inductive Pc
  | absent
  | arrived
  | held
  | registering (func : Nat)
  | calling (func : Nat)
  | aimed
  | found (r : Nat)
  | marked (r func : Nat)
  | dropping (r : Nat)
  | matched (r : Nat)
  | duplicate
  | pending
  | taken
  | sent (kind : Kind)
  | unused (kind : Kind)
  | gone (kind : Kind)
  deriving DecidableEq, Repr

/- `lock` is req->lock: free, with the handler, or with an INTERRUPT. `called` says whether the
function that is registered was called since then. -/
structure Sys extends Session where
  pc : Nat → Pc
  lock : Nat → Option (Option Nat)
  called : Nat → Bool

def Sys.on (s : Sys) (f : Session → Session) : Sys := {s with toSession := f s.toSession}

def Sys.move (s : Sys) (x : Nat) (p : Pc) : Sys := {s with pc := Function.update s.pc x p}

def Sys.setLock (s : Sys) (r : Nat) (holder : Option (Option Nat)) : Sys :=
  {s with lock := Function.update s.lock r holder}

def Sys.setCalled (s : Sys) (r : Nat) (now : Bool) : Sys := {s with called := Function.update s.called r now}

inductive Event
  | request (unique : Nat)
  | enter (r : Nat)
  | register (r func : Nat)
  | check (r : Nat)
  | callback (r : Nat)
  | reply (r : Nat) (error : Option Int)
  | interrupt (unique target : Nat)
  | find (i : Nat)
  | mark (i : Nat)
  | signal (i : Nat)
  | drop (i : Nat)
  | answer (i : Nat)
  | free (x : Nat)
  | destroy (x : Nat)
  deriving DecidableEq, Repr

def Pc.ordinary : Pc → Bool
  | .arrived | .held | .registering _ | .calling _ | .sent .ordinary | .unused .ordinary | .gone .ordinary => true
  | _ => false

def Pc.linked : Pc → Bool
  | .held | .registering _ | .calling _ | .sent .ordinary => true
  | _ => false

def Pc.target : Pc → Option Nat
  | .found r | .marked r _ | .dropping r | .matched r => some r
  | _ => none

def Pc.holds : Pc → Option Nat
  | .found r | .marked r _ | .dropping r => some r
  | _ => none

def Pc.flags : Pc → Option Nat
  | .marked r _ | .dropping r | .matched r => some r
  | _ => none

def Pc.registers : Pc → Option Nat
  | .registering func | .calling func => some func
  | _ => none

/- The kernel does not use the unique of an ordinary request twice. -/
def Sys.unused (s : Sys) (unique : Nat) : Bool :=
  (List.range s.next).all fun x => !((s.pc x).ordinary && decide ((s.reqs x).unique = unique))

/- The critical section of fuse_session_process_buf_internal. The thread answers the interrupt it
was given before it calls the handler, but nothing depends on that. -/
def Sys.enter (s : Sys) (r : Nat) : Sys :=
  let t := {s with toSession := listAddReq (checkInterrupt s.toSession r).1 r}.move r .held
  match s.interrupts.find? fun curr => (s.reqs curr).u = (s.reqs r).unique with
  | some i => t.move i (.matched r)
  | none => match (checkInterrupt s.toSession r).2 with
    | some i => t.move i .taken
    | none => t

/- The first critical section of do_interrupt. -/
def Sys.find (s : Sys) (i : Nat) : Sys :=
  match interruptTarget s.toSession i with
  | some r => (s.on (holdReq · r)).move i (.found r)
  | none => if interruptPending s.toSession i then (s.on (destroyReq · i)).move i .duplicate
    else (s.on (addInterrupt · i)).move i .pending

/- fuse_req_interrupt_func up to the point where it looks at the flag. -/
def Sys.register (s : Sys) (r func : Nat) : Sys :=
  (((s.on (setFunc · r func)).setCalled r false).setLock r (some none)).move r (.registering func)

def Sys.check (s : Sys) (r func : Nat) : Sys :=
  if (s.reqs r).interrupted = true ∧ func ≠ 0 then s.move r (.calling func) else (s.setLock r none).move r .held

def Sys.call (s : Sys) (r func : Nat) : Sys :=
  if func = 0 then s else (s.on (callFunc · r func)).setCalled r (s.called r || decide ((s.reqs r).u = func))

/- The locked part of fuse_free_req. -/
def Sys.free (s : Sys) (x : Nat) (kind : Kind) : Sys :=
  let t := s.on (dropReq · x)
  t.move x (if (t.reqs x).refCnt = 0 then .unused kind else .gone kind)

def Sys.step (s : Sys) : Event → Option Sys
  | .request unique =>
    if s.unused unique then some ((s.on (fuseLlAllocReq · unique)).move s.next .arrived) else none
  | .enter r => if s.pc r = .arrived then some (s.enter r) else none
  | .register r func => if s.pc r = .held ∧ s.lock r = none then some (s.register r func) else none
  | .check r => match s.pc r with
    | .registering func => some (s.check r func)
    | _ => none
  | .callback r => match s.pc r with
    | .calling func => some (((s.call r func).setLock r none).move r .held)
    | _ => none
  | .reply r error =>
    if s.pc r = .held then
      some ((error.elim s fun error => s.on (fuseSendReplyNofree · r error)).move r (.sent .ordinary))
    else none
  | .interrupt unique target =>
    some ((s.on fun t => setTarget (fuseLlAllocReq t unique) s.next target).move s.next .aimed)
  | .find i => if s.pc i = .aimed then some (s.find i) else none
  | .mark i => match s.pc i with
    | .found r =>
      if s.lock r = none then
        some (((s.on (markInterrupted · r)).setLock r (some (some i))).move i (.marked r (s.reqs r).u))
      else none
    | _ => none
  | .signal i => match s.pc i with
    | .marked r func => some (((s.call r func).setLock r none).move i (.dropping r))
    | _ => none
  | .drop i => match s.pc i with
    | .dropping r => some ((s.on fun t => destroyReq (unholdReq t r) i).move i (.matched r))
    | _ => none
  | .answer i =>
      if s.pc i = .taken then some ((s.on (fuseSendReplyNofree · i (-eagain))).move i (.sent .interrupt)) else none
  | .free x => match s.pc x with
    | .sent kind => some (s.free x kind)
    | _ => none
  | .destroy x => match s.pc x with
    | .unused kind => some ((s.on (destroyReq · x)).move x (.gone kind))
    | _ => none

section fields
variable (s : Sys) (x y : Nat)

@[simp] theorem onSession (f : Session → Session) : (s.on f).toSession = f s.toSession := rfl

@[simp] theorem onPc (f : Session → Session) : (s.on f).pc = s.pc := rfl

@[simp] theorem onLock (f : Session → Session) : (s.on f).lock = s.lock := rfl

@[simp] theorem onCalled (f : Session → Session) : (s.on f).called = s.called := rfl

@[simp] theorem moveSession (p : Pc) : (s.move x p).toSession = s.toSession := rfl

@[simp] theorem movePc (p : Pc) : (s.move x p).pc y = if y = x then p else s.pc y := Function.update_apply s.pc x p y

@[simp] theorem moveLock (p : Pc) : (s.move x p).lock = s.lock := rfl

@[simp] theorem moveCalled (p : Pc) : (s.move x p).called = s.called := rfl

@[simp] theorem setLockSession (h : Option (Option Nat)) : (s.setLock x h).toSession = s.toSession := rfl

@[simp] theorem setLockPc (h : Option (Option Nat)) : (s.setLock x h).pc = s.pc := rfl

@[simp] theorem setLockLock (h : Option (Option Nat)) : (s.setLock x h).lock y = if y = x then h else s.lock y :=
  Function.update_apply s.lock x h y

@[simp] theorem setLockCalled (h : Option (Option Nat)) : (s.setLock x h).called = s.called := rfl

@[simp] theorem setCalledSession (b : Bool) : (s.setCalled x b).toSession = s.toSession := rfl

@[simp] theorem setCalledPc (b : Bool) : (s.setCalled x b).pc = s.pc := rfl

@[simp] theorem setCalledLock (b : Bool) : (s.setCalled x b).lock = s.lock := rfl

@[simp] theorem setCalledCalled (b : Bool) : (s.setCalled x b).called y = if y = x then b else s.called y :=
  Function.update_apply s.called x b y

theorem callFields (func : Nat) :
    (s.call x func).pc = s.pc ∧ (s.call x func).lock = s.lock ∧ (s.call x func).reqs = s.reqs ∧
    (s.call x func).list = s.list ∧ (s.call x func).interrupts = s.interrupts ∧ (s.call x func).next = s.next ∧
    (s.call x func).noInterrupt = s.noInterrupt ∧ (s.call x func).sent = s.sent := by
  by_cases none : func = 0
  · simp [Sys.call,none]
  · simp [Sys.call,callFunc,none]

end fields

inductive Stepped (s : Sys) : Sys → Prop
  | request (unique : Nat) (unused : s.unused unique = true) :
      Stepped s ((s.on (fuseLlAllocReq · unique)).move s.next .arrived)
  | meets {r i : Nat} (arrived : s.pc r = .arrived)
      (waits : (s.interrupts.find? fun curr => (s.reqs curr).u = (s.reqs r).unique) = some i) :
      Stepped s (((s.on fun t =>
        listAddReq (destroyReq (listDelReq (t.put r {t.reqs r with interrupted := true}) i) i) r).move r
          .held).move i (.matched r))
  | relieves {r i : Nat} {rest : List Nat} (arrived : s.pc r = .arrived)
      (none : (s.interrupts.find? fun curr => (s.reqs curr).u = (s.reqs r).unique) = none)
        (first : s.interrupts = i :: rest) :
      Stepped s (((s.on fun t => listAddReq (listDelReq t i) r).move r .held).move i .taken)
  | enters {r : Nat} (arrived : s.pc r = .arrived) (none : s.interrupts = []) :
      Stepped s ((s.on (listAddReq · r)).move r .held)
  | register {r : Nat} (func : Nat) (held : s.pc r = .held) (free : s.lock r = none) : Stepped s (s.register r func)
  | notices {r func : Nat} (registering : s.pc r = .registering func)
      (interrupted : (s.reqs r).interrupted = true) (some : func ≠ 0) : Stepped s (s.move r (.calling func))
  | quiet {r func : Nat} (registering : s.pc r = .registering func)
      (quiet : (s.reqs r).interrupted = false ∨ func = 0) : Stepped s ((s.setLock r none).move r .held)
  | callback {r func : Nat} (calling : s.pc r = .calling func) :
      Stepped s (((s.call r func).setLock r none).move r .held)
  | reply {r : Nat} (error : Option Int) (held : s.pc r = .held) :
      Stepped s ((error.elim s fun error => s.on (fuseSendReplyNofree · r error)).move r (.sent .ordinary))
  | interrupt (unique target : Nat) :
      Stepped s ((s.on fun t => setTarget (fuseLlAllocReq t unique) s.next target).move s.next .aimed)
  | finds {i r : Nat} (aimed : s.pc i = .aimed) (found : interruptTarget s.toSession i = some r) :
      Stepped s ((s.on (holdReq · r)).move i (.found r))
  | duplicates {i : Nat} (aimed : s.pc i = .aimed) (none : interruptTarget s.toSession i = none)
      (again : interruptPending s.toSession i = true) : Stepped s ((s.on (destroyReq · i)).move i .duplicate)
  | waits {i : Nat} (aimed : s.pc i = .aimed) (none : interruptTarget s.toSession i = none)
      (first : interruptPending s.toSession i = false) : Stepped s ((s.on (addInterrupt · i)).move i .pending)
  | mark {i r : Nat} (found : s.pc i = .found r) (free : s.lock r = none) :
      Stepped s (((s.on (markInterrupted · r)).setLock r (some (some i))).move i (.marked r (s.reqs r).u))
  | signal {i r func : Nat} (marked : s.pc i = .marked r func) :
      Stepped s (((s.call r func).setLock r none).move i (.dropping r))
  | drop {i r : Nat} (dropping : s.pc i = .dropping r) :
      Stepped s ((s.on fun t => destroyReq (unholdReq t r) i).move i (.matched r))
  | answer {i : Nat} (taken : s.pc i = .taken) :
      Stepped s ((s.on (fuseSendReplyNofree · i (-eagain))).move i (.sent .interrupt))
  | free {x : Nat} {kind : Kind} (sent : s.pc x = .sent kind) : Stepped s (s.free x kind)
  | destroy {x : Nat} {kind : Kind} (unused : s.pc x = .unused kind) :
      Stepped s ((s.on (destroyReq · x)).move x (.gone kind))

theorem enterStepped {s : Sys} {r : Nat} (arrived : s.pc r = .arrived) : Stepped s (s.enter r) := by
  unfold Sys.enter checkInterrupt
  cases waits : s.interrupts.find? fun curr => (s.reqs curr).u = (s.reqs r).unique with
  | some i => exact .meets arrived waits
  | none =>
    cases list : s.interrupts with
    | nil => exact .enters arrived list
    | cons i rest => exact .relieves arrived waits list

theorem findStepped {s : Sys} {i : Nat} (aimed : s.pc i = .aimed) : Stepped s (s.find i) := by
  unfold Sys.find
  cases found : interruptTarget s.toSession i with
  | some r => exact .finds aimed found
  | none =>
    cases again : interruptPending s.toSession i with
    | true => exact .duplicates aimed found again
    | false => exact .waits aimed found again

theorem checkStepped {s : Sys} {r func : Nat} (registering : s.pc r = .registering func) :
    Stepped s (s.check r func) := by
  unfold Sys.check
  split
  · rename_i both
    exact .notices registering both.1 both.2
  · rename_i not
    refine .quiet registering ?_
    by_cases zero : func = 0
    · exact .inr zero
    · exact .inl (by simpa [zero] using not)

theorem stepCases {s t : Sys} {e : Event} (ran : s.step e = some t) : Stepped s t := by
  cases e with
  | request unique =>
    simp only [Sys.step,Option.ite_none_right_eq_some,Option.some.injEq] at ran
    exact ran.2 ▸ .request unique ran.1
  | enter r =>
    simp only [Sys.step,Option.ite_none_right_eq_some,Option.some.injEq] at ran
    exact ran.2 ▸ enterStepped ran.1
  | register r func =>
    simp only [Sys.step,Option.ite_none_right_eq_some,Option.some.injEq] at ran
    exact ran.2 ▸ .register func ran.1.1 ran.1.2
  | check r =>
    simp only [Sys.step] at ran
    split at ran <;> cases ran
    exact checkStepped (by assumption)
  | callback r =>
    simp only [Sys.step] at ran
    split at ran <;> cases ran
    exact .callback (by assumption)
  | reply r error =>
    simp only [Sys.step,Option.ite_none_right_eq_some,Option.some.injEq] at ran
    exact ran.2 ▸ .reply error ran.1
  | interrupt unique target =>
    cases ran
    exact .interrupt unique target
  | find i =>
    simp only [Sys.step,Option.ite_none_right_eq_some,Option.some.injEq] at ran
    exact ran.2 ▸ findStepped ran.1
  | mark i =>
    simp only [Sys.step] at ran
    split at ran
    · rename_i found
      simp only [Option.ite_none_right_eq_some,Option.some.injEq] at ran
      exact ran.2 ▸ .mark found ran.1
    · cases ran
  | signal i =>
    simp only [Sys.step] at ran
    split at ran <;> cases ran
    exact .signal (by assumption)
  | drop i =>
    simp only [Sys.step] at ran
    split at ran <;> cases ran
    exact .drop (by assumption)
  | answer i =>
    simp only [Sys.step,Option.ite_none_right_eq_some,Option.some.injEq] at ran
    exact ran.2 ▸ .answer ran.1
  | free x =>
    simp only [Sys.step] at ran
    split at ran <;> cases ran
    exact .free (by assumption)
  | destroy x =>
    simp only [Sys.step] at ran
    split at ran <;> cases ran
    exact .destroy (by assumption)

def Sys.run : Sys → List Event → Option Sys
  | s,[] => some s
  | s,e :: rest => (s.step e).bind fun t => t.run rest

def start (strerrordesc : Bool) : Sys :=
  {reqs := fun _ => ⟨0,0,false,0,0⟩, next := 0, list := [], interrupts := [], noInterrupt := false,
    sent := [], calls := [], strerrordesc := strerrordesc,
    pc := fun _ => .absent, lock := fun _ => none, called := fun _ => false}

theorem callSession (s : Sys) (r func : Nat) :
    (s.call r func).toSession = if func = 0 then s.toSession else callFunc s.toSession r func := by
  unfold Sys.call
  split <;> rfl

/- The steps of a thread that nobody gets in the way of are do_interrupt. -/
theorem doInterruptRuns (e : LlSession.Env) (m : LlSession.Msg) (s : LlSession.FuseSession) (i : Nat) (y : Sys)
    (window : e.window = []) (acts : e.acts 0 = []) (aimed : y.pc i = .aimed) (free : ∀ r, y.lock r = none)
    (same : y.toSession = setTarget s.toSession i m.target) :
    ∃ events t, y.run events = some t ∧ t.toSession = (LlSession.doInterrupt e m s i).toSession := by
  have same : y.toSession = (s.on (setTarget · i m.target)).toSession := same
  unfold LlSession.doInterrupt
  dsimp only
  generalize s.on (setTarget · i m.target) = z at same
  rw [← same]
  cases found : interruptTarget y.toSession i with
  | some r =>
    refine ⟨[.find i,.mark i,.signal i,.drop i],_,by simp [Sys.run,Sys.step,Sys.find,found,aimed,free]; rfl,?_⟩
    simp only [onSession,moveSession,callSession,setLockSession,LlSession.interruptFound,window,acts,
      LlSession.FuseSession.acts,List.foldl_nil,LlSession.FuseSession.on,same]
    have func : ((markInterrupted (holdReq z.toSession r) r).reqs r).u = ((holdReq z.toSession r).reqs r).u := by
      simp [markInterrupted]
    rw [func]
    split <;> rfl
  | none =>
    refine ⟨[.find i],y.find i,by simp [Sys.run,Sys.step,aimed],?_⟩
    unfold Sys.find
    rw [found]
    dsimp only
    rw [same]
    split <;> simp [LlSession.FuseSession.on,same]

end FuseStudy.LlInterrupt
