import Mathlib.Algebra.Group.Nat.Defs
import Mathlib.Logic.Function.Basic
import Mathlib.Data.List.Basic
import Mathlib.Data.List.Nodup

/-! Request objects of lib/fuse_lowlevel.c: the reference count, the list of requests being
processed, the list of pending interrupts, and what happens to both at one critical section of
the session lock. A request is named by the order of its allocation, so a freed one keeps its
record and the number of times it was destroyed. -/
namespace FuseStudy.LlRequest

/- `u` is the first word of the union: the target of an INTERRUPT, or the address of the
interrupt function, 0 for none. `freed` counts the calls of destroy_req. -/
structure Req where
  unique : Nat
  refCnt : Int
  interrupted : Bool
  u : Nat
  freed : Nat
  deriving DecidableEq, Repr

/- `sent` are the errors sent so far and the requests they were sent for, `calls` the calls of
interrupt functions. `strerrordesc`: the C library has strerrordesc_np (glibc 2.32 and later). -/
structure Session where
  reqs : Nat → Req
  next : Nat
  list : List Nat
  interrupts : List Nat
  noInterrupt : Bool
  sent : List (Option Nat × Int)
  calls : List (Nat × Nat)
  strerrordesc : Bool

def Session.put (s : Session) (r : Nat) (q : Req) : Session := {s with reqs := Function.update s.reqs r q}

def listDelReq (s : Session) (r : Nat) : Session := {s with list := s.list.erase r, interrupts := s.interrupts.erase r}

def destroyReq (s : Session) (r : Nat) : Session := s.put r {s.reqs r with freed := (s.reqs r).freed + 1}

def fuseLlAllocReq (s : Session) (unique : Nat) : Session :=
  {s.put s.next ⟨unique,1,false,0,0⟩ with next := s.next + 1}

/- The part of fuse_free_req before the counter is tested. -/
def dropReq (s : Session) (r : Nat) : Session :=
  if s.noInterrupt then s.put r {s.reqs r with refCnt := (s.reqs r).refCnt - 1}
  else (listDelReq s r).put r {s.reqs r with u := 0, refCnt := (s.reqs r).refCnt - 1}

def destroyIfUnused (s : Session) (r : Nat) : Session := if (s.reqs r).refCnt = 0 then destroyReq s r else s

def fuseFreeReq (s : Session) (r : Nat) : Session := destroyIfUnused (dropReq s r) r

/- The errors for which glibc has a text on Linux. -/
def described (e : Int) : Bool := 0 ≤ e && e ≤ 133 && e ≠ 41 && e ≠ 58

/- The error that goes into the header: fuse_send_reply_iov_nofree. -/
def outError (strerrordesc : Bool) (error : Int) : Int :=
  if strerrordesc then if (described (-error) = false ∧ error ≠ 0) ∨ error > 0 then -34 else error
  else if error ≤ -1000 ∨ error > 0 then -34 else error

def fuseSendReplyNofree (s : Session) (r : Nat) (error : Int) : Session :=
  {s with sent := s.sent ++ [(some r,outError s.strerrordesc error)]}

def sendReply (s : Session) (r : Nat) (error : Int) : Session := fuseFreeReq (fuseSendReplyNofree s r error) r

def fuseReplyErr (s : Session) (r : Nat) (err : Int) : Session := sendReply s r (-err)

def fuseReplyNone (s : Session) (r : Nat) : Session := fuseFreeReq s r

def enosys : Int := 38

def eagain : Int := 11

def eio : Int := 5

def eacces : Int := 13

def enomem : Int := 12

def enotty : Int := 25

def eproto : Int := 71

/- check_interrupt: a pending interrupt for this request, or else the oldest one, to be answered. -/
def checkInterrupt (s : Session) (r : Nat) : Session × Option Nat :=
  match s.interrupts.find? fun curr => (s.reqs curr).u = (s.reqs r).unique with
  | some curr => (destroyReq (listDelReq (s.put r {s.reqs r with interrupted := true}) curr) curr,none)
  | none => match s.interrupts with
    | [] => (s,none)
    | curr :: _ => (listDelReq s curr,some curr)

def listAddReq (s : Session) (r : Nat) : Session := {s with list := s.list ++ [r]}

/- The scans of find_interrupted. -/
def interruptTarget (s : Session) (r : Nat) : Option Nat := s.list.find? fun curr => (s.reqs curr).unique = (s.reqs r).u

def interruptPending (s : Session) (r : Nat) : Bool := s.interrupts.any fun curr => (s.reqs curr).u = (s.reqs r).u

def holdReq (s : Session) (r : Nat) : Session := s.put r {s.reqs r with refCnt := (s.reqs r).refCnt + 1}

def markInterrupted (s : Session) (r : Nat) : Session := s.put r {s.reqs r with interrupted := true}

def callFunc (s : Session) (r func : Nat) : Session := if func = 0 then s else {s with calls := s.calls ++ [(r,func)]}

def unholdReq (s : Session) (r : Nat) : Session :=
  destroyIfUnused (s.put r {s.reqs r with refCnt := (s.reqs r).refCnt - 1}) r

def setTarget (s : Session) (r target : Nat) : Session := s.put r {s.reqs r with u := target}

def addInterrupt (s : Session) (r : Nat) : Session := {s with interrupts := s.interrupts ++ [r]}

def setFunc (s : Session) (r func : Nat) : Session := s.put r {s.reqs r with u := func}

section fields
variable (s : Session) (r x : Nat) (q : Req)

@[simp] theorem putReqs : (s.put r q).reqs x = if x = r then q else s.reqs x := Function.update_apply s.reqs r q x

@[simp] theorem putNext : (s.put r q).next = s.next := rfl

@[simp] theorem putList : (s.put r q).list = s.list := rfl

@[simp] theorem putInterrupts : (s.put r q).interrupts = s.interrupts := rfl

@[simp] theorem putNoInterrupt : (s.put r q).noInterrupt = s.noInterrupt := rfl

@[simp] theorem putSent : (s.put r q).sent = s.sent := rfl

@[simp] theorem delReqs : (listDelReq s r).reqs = s.reqs := rfl

@[simp] theorem delNext : (listDelReq s r).next = s.next := rfl

@[simp] theorem delList : (listDelReq s r).list = s.list.erase r := rfl

@[simp] theorem delInterrupts : (listDelReq s r).interrupts = s.interrupts.erase r := rfl

@[simp] theorem delNoInterrupt : (listDelReq s r).noInterrupt = s.noInterrupt := rfl

@[simp] theorem delSent : (listDelReq s r).sent = s.sent := rfl

theorem unholdPut : unholdReq s r = s.put r {s.reqs r with
    refCnt := (s.reqs r).refCnt - 1
    freed := (s.reqs r).freed + if (s.reqs r).refCnt = 1 then 1 else 0} := by
  have last : (s.reqs r).refCnt - 1 = 0 ↔ (s.reqs r).refCnt = 1 := by omega
  unfold unholdReq destroyIfUnused destroyReq
  simp only [putReqs,if_true,last]
  split
  · simp only [Session.put,Function.update_idem]
  · rfl

theorem dropPut (on : s.noInterrupt = false) :
    dropReq s r = (listDelReq s r).put r {s.reqs r with u := 0, refCnt := (s.reqs r).refCnt - 1} := by
  simp [dropReq,on]

end fields

end FuseStudy.LlRequest
