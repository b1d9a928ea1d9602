import FuseStudy.LlSession

/-! What becomes of the request of a message: how often it is freed, whether it is still linked,
and which two things keep it from being freed once and unlinked. -/
namespace FuseStudy.LlRelease
open LlRequest LlSession

structure Account where
  freed : Nat
  refCnt : Int
  listed : Nat
  pending : Nat

def account (s : Session) (r : Nat) : Account :=
  ⟨(s.reqs r).freed,(s.reqs r).refCnt,s.list.count r,s.interrupts.count r⟩

section requests
variable {s : Session} {r x : Nat}

theorem accountPut (q : Req) (other : x ≠ r) : account (s.put x q) r = account s r := by
  simp only [account,Session.put,Function.update_of_ne other.symm]

theorem accountPutSelf {q : Req} (freed : q.freed = (s.reqs r).freed) (count : q.refCnt = (s.reqs r).refCnt) :
    account (s.put r q) r = account s r := by
  simp only [account,Session.put,Function.update_self,freed,count]

theorem accountDel (other : x ≠ r) : account (listDelReq s x) r = account s r := by
  simp only [account,listDelReq,List.count_erase_of_ne other.symm]

theorem accountDestroy (other : x ≠ r) : account (destroyReq s x) r = account s r := accountPut _ other

theorem accountDrop (other : x ≠ r) : account (dropReq s x) r = account s r := by
  unfold dropReq
  split
  · exact accountPut _ other
  · rw [accountPut _ other,accountDel other]

theorem accountIfUnused (other : x ≠ r) : account (destroyIfUnused s x) r = account s r := by
  unfold destroyIfUnused
  split
  · exact accountDestroy other
  · rfl

theorem accountFree (other : x ≠ r) : account (fuseFreeReq s x) r = account s r := by
  rw [fuseFreeReq,accountIfUnused other,accountDrop other]

theorem accountReply (error : Int) (other : x ≠ r) : account (sendReply s x error) r = account s r := accountFree other

theorem accountUnhold (other : x ≠ r) : account (unholdReq s x) r = account s r := by
  rw [unholdReq,accountIfUnused other,accountPut _ other]

theorem accountFunc (x func : Nat) : account (fuseReqInterruptFunc s x func) r = account s r := by
  have set : account (setFunc s x func) r = account s r := by
    by_cases same : x = r
    · subst same
      exact accountPutSelf rfl rfl
    · exact accountPut _ same
  unfold fuseReqInterruptFunc callFunc
  dsimp only
  split
  · split <;> exact set
  · exact set

def left (noInterrupt : Bool) (linked : Nat) : Nat := if noInterrupt then linked else linked - 1

theorem accountFreed : account (fuseFreeReq s r) r =
    ⟨(s.reqs r).freed + (if (s.reqs r).refCnt = 1 then 1 else 0),(s.reqs r).refCnt - 1,
      left s.noInterrupt (s.list.count r),left s.noInterrupt (s.interrupts.count r)⟩ := by
  have last : (s.reqs r).refCnt - 1 = 0 ↔ (s.reqs r).refCnt = 1 := by omega
  unfold fuseFreeReq destroyIfUnused dropReq left
  split <;> simp only [putReqs,if_true,last] <;> split <;> simp [*,account,destroyReq,listDelReq]

theorem accountHold : account (holdReq s r) r =
    ⟨(s.reqs r).freed,(s.reqs r).refCnt + 1,s.list.count r,s.interrupts.count r⟩ := by
  simp [account,holdReq]

theorem accountUnheld : account (unholdReq s r) r =
    ⟨(s.reqs r).freed + (if (s.reqs r).refCnt = 1 then 1 else 0),(s.reqs r).refCnt - 1,
      s.list.count r,s.interrupts.count r⟩ := by
  simp [account,unholdPut]

theorem accountMark (x : Nat) : account (callFunc (markInterrupted s x) x (s.reqs x).u) r = account s r := by
  have marked : account (markInterrupted s x) r = account s r := by
    by_cases same : x = r
    · subst same
      exact accountPutSelf rfl rfl
    · exact accountPut _ same
  unfold callFunc
  split <;> exact marked

theorem accountAlloc (unique : Nat) (other : s.next ≠ r) : account (fuseLlAllocReq s unique) r = account s r :=
  accountPut _ other

end requests

def Same (s t : Session) : Prop := t.noInterrupt = s.noInterrupt ∧ t.next = s.next

section kept
variable (s : Session) (r : Nat)

theorem sameDrop : Same s (dropReq s r) := by
  unfold dropReq
  split <;> exact ⟨rfl,rfl⟩

theorem sameIfUnused : Same s (destroyIfUnused s r) := by
  unfold destroyIfUnused
  split <;> exact ⟨rfl,rfl⟩

theorem Same.trans {s t u : Session} (first : Same s t) (second : Same t u) : Same s u :=
  ⟨second.1.trans first.1,second.2.trans first.2⟩

theorem sameFree : Same s (fuseFreeReq s r) := (sameDrop s r).trans (sameIfUnused _ r)

theorem sameReply (error : Int) : Same s (sendReply s r error) := sameFree (fuseSendReplyNofree s r error) r

theorem sameFunc (func : Nat) : Same s (fuseReqInterruptFunc s r func) := by
  unfold fuseReqInterruptFunc callFunc
  dsimp only
  split
  · split <;> exact ⟨rfl,rfl⟩
  · exact ⟨rfl,rfl⟩

theorem sameMark : Same s (callFunc (markInterrupted s r) r (s.reqs r).u) := by
  unfold callFunc
  split <;> exact ⟨rfl,rfl⟩

theorem sameUnhold : Same s (unholdReq s r) := sameIfUnused _ r

end kept

variable {s t u : FuseSession} {r l : Nat}

structure Untouched (r : Nat) (s t : FuseSession) : Prop where
  account : account t.toSession r = account s.toSession r
  held : t.held.count r = s.held.count r
  holds : t.holds.count r = s.holds.count r
  same : t.noInterrupt = s.noInterrupt
  next : s.next ≤ t.next

theorem Untouched.refl : Untouched r s s := ⟨rfl,rfl,rfl,rfl,Nat.le_refl _⟩

theorem Untouched.trans (first : Untouched r s t) (second : Untouched r t u) : Untouched r s u :=
  ⟨second.account.trans first.account,second.held.trans first.held,second.holds.trans first.holds,
    second.same.trans first.same,Nat.le_trans first.next second.next⟩

theorem Untouched.on {f : Session → Session}
    (account : LlRelease.account (f s.toSession) r = LlRelease.account s.toSession r)
    (same : Same s.toSession (f s.toSession)) : Untouched r s (s.on f) :=
  ⟨account,rfl,rfl,same.1,Nat.le_of_eq same.2.symm⟩

/- A request with its own reference: `linked` says whether it is in the list, `given` whether user
code has it to answer. Only a linked one is found by other threads, which then hold it. -/
structure Live (r linked given : Nat) (s : FuseSession) : Prop where
  account : account s.toSession r = ⟨0,1 + s.holds.count r,linked,0⟩
  held : s.held.count r = given
  hidden : linked = 0 → s.holds.count r = 0
  few : linked ≤ 1
  known : r < s.next

abbrev InHand (r linked : Nat) (s : FuseSession) : Prop := Live r linked 0 s

abbrev Given (r linked : Nat) (s : FuseSession) : Prop := Live r linked 1 s

/- A request without its own reference. Unless it is still linked it is freed as soon as no other
thread holds it. -/
structure Gone (r linked : Nat) (s : FuseSession) : Prop where
  listed : s.list.count r = linked
  pending : s.interrupts.count r = 0
  held : s.held.count r = 0
  known : r < s.next
  freed : linked = 0 → (s.reqs r).freed = (if s.holds.count r = 0 then 1 else 0) ∧
    (s.holds.count r ≠ 0 → (s.reqs r).refCnt = s.holds.count r)

/- A request that is in the hands of user code or was answered: unless interrupts are off it is unlinked. -/
def Ends (r linked : Nat) (s : FuseSession) : Prop := Given r linked s ∨ Gone r (left s.noInterrupt linked) s

theorem Live.move {given : Nat} (live : Live r l given s) (step : Untouched r s t) : Live r l given t :=
  ⟨by rw [step.holds]; exact step.account.trans live.account,step.held.trans live.held,
    fun none => step.holds.trans (live.hidden none),live.few,Nat.lt_of_lt_of_le live.known step.next⟩

theorem Gone.move (gone : Gone r l s) (step : Untouched r s t) : Gone r l t := by
  have same := step.account
  simp only [account,Account.mk.injEq] at same
  refine ⟨same.2.2.1.trans gone.listed,same.2.2.2.trans gone.pending,step.held.trans gone.held,
    Nat.lt_of_lt_of_le gone.known step.next,?_⟩
  rw [step.holds,same.1,same.2.1]
  exact gone.freed

theorem Live.parts {given : Nat} (live : Live r l given s) : (s.reqs r).freed = 0 ∧
    (s.reqs r).refCnt = 1 + s.holds.count r ∧ s.list.count r = l ∧ s.interrupts.count r = 0 := by
  have mine := live.account
  simpa only [LlRelease.account,Account.mk.injEq] using mine

theorem leftNone (no : Bool) : left no 0 = 0 := by
  unfold left
  split <;> rfl

theorem Live.free (hand : InHand r l s) : Gone r (left s.noInterrupt l) (s.on (fuseFreeReq · r)) := by
  obtain ⟨freed,count,listed,pending⟩ := Live.parts hand
  have spent := accountFreed (s := s.toSession) (r := r)
  simp only [LlRelease.account,Account.mk.injEq,freed,count,listed,pending,leftNone] at spent
  obtain ⟨freed',count',listed',pending'⟩ := spent
  refine ⟨listed',pending',hand.held,
    Nat.lt_of_lt_of_le hand.known (Nat.le_of_eq (sameFree s.toSession r).2.symm),fun _ => ⟨?_,fun _ => ?_⟩⟩
  · refine freed'.trans ?_
    by_cases alone : s.holds.count r = 0
    · simp [FuseSession.on,alone]
    · rw [if_neg (by omega)]
      exact (if_neg alone).symm
  · refine count'.trans ?_
    show 1 + (s.holds.count r : Int) - 1 = s.holds.count r
    omega

theorem Live.sent (hand : InHand r l s) (error : Int) : Gone r (left s.noInterrupt l) (s.on (sendReply · r error)) := by
  have sent : InHand r l (s.on (fuseSendReplyNofree · r error)) :=
    ⟨hand.account,hand.held,hand.hidden,hand.few,hand.known⟩
  exact sent.free

theorem Live.reply (hand : InHand r l s) (error : Int) : Ends r l (s.on (sendReply · r error)) := by
  right
  show Gone r (left (sendReply s.toSession r error).noInterrupt l) _
  rw [(sameReply s.toSession r error).1]
  exact hand.sent error

theorem Live.replyErr (hand : InHand r l s) (err : Int) : Ends r l (s.on (fuseReplyErr · r err)) := hand.reply (-err)

theorem Live.replyNone (hand : InHand r l s) : Ends r l (s.on (fuseReplyNone · r)) := by
  right
  show Gone r (left (fuseFreeReq s.toSession r).noInterrupt l) _
  rw [(sameFree s.toSession r).1]
  exact hand.free

/- Linking a request leaves another one alone, unless that one is an interrupt that it meets or
relieves. -/
inductive Linked (x r : Nat) (s : FuseSession) : FuseSession → Prop
  | untouched {t : FuseSession} (step : Untouched r s t) : Linked x r s t
  | meets (pending : r ∈ s.interrupts) : Linked x r s
      (s.on fun t => listAddReq (destroyReq (listDelReq (t.put x {t.reqs x with interrupted := true}) r) r) x)
  | relieves (pending : r ∈ s.interrupts) : Linked x r s
      ((s.on fun t => listAddReq (listDelReq t r) x).on (fuseReplyErr · r eagain))

theorem accountAdd {u : Session} {x : Nat} (other : x ≠ r) : account (listAddReq u x) r = account u r := by
  have apart : ([x] : List Nat).count r = 0 := by simp [other]
  simp [account,listAddReq,apart]

theorem linkCases {x : Nat} (other : x ≠ r) : Linked x r s (linkReq s x) := by
  unfold linkReq checkInterrupt
  split
  · rename_i t intr checked
    split at checked
    · rename_i y found
      cases checked
      by_cases mine : y = r
      · subst mine
        exact .meets (List.mem_of_find?_eq_some found)
      · refine .untouched ⟨?_,rfl,rfl,rfl,Nat.le_refl _⟩
        exact (accountAdd other).trans ((accountDestroy mine).trans ((accountDel mine).trans (accountPut _ other)))
    · split at checked
      · cases checked
        exact .untouched ⟨accountAdd other,rfl,rfl,rfl,Nat.le_refl _⟩
      · rename_i y rest waiting
        cases checked
        by_cases mine : y = r
        · subst mine
          exact .relieves (waiting ▸ List.mem_cons_self)
        · obtain ⟨same,next⟩ := sameReply (listAddReq (listDelReq s.toSession y) x) y (-eagain)
          refine .untouched ⟨?_,rfl,rfl,same,Nat.le_of_eq next.symm⟩
          exact (accountReply _ mine).trans ((accountAdd other).trans (accountDel mine))

theorem linkSame (x : Nat) : Same s.toSession (linkReq s x).toSession := by
  unfold linkReq checkInterrupt
  split
  · rename_i t intr checked
    split at checked
    · cases checked
      exact ⟨rfl,rfl⟩
    · split at checked <;> cases checked
      · exact ⟨rfl,rfl⟩
      · exact sameReply (listAddReq (listDelReq s.toSession _) x) _ (-eagain)

inductive Stepped (r : Nat) (s : FuseSession) : FuseSession → Prop
  | untouched {t : FuseSession} (step : Untouched r s t) : Stepped r s t
  | found (listed : r ∈ s.list) : Stepped r s {s.on (holdReq · r) with holds := s.holds ++ [r]}
  | dropped (held : r ∈ s.holds) : Stepped r s {s.on (unholdReq · r) with holds := s.holds.erase r}
  | linked {t u : FuseSession} {x : Nat} (made : Untouched r s t) (linked : Linked x r t u) (new : x ≠ r) :
      Stepped r s {u with held := u.held ++ [x]}

theorem Untouched.given {x : Nat} (new : x ≠ r) : Untouched r s {s with held := s.held ++ [x]} := by
  refine ⟨rfl,?_,rfl,rfl,Nat.le_refl _⟩
  rw [List.count_append,List.count_singleton,if_neg (by simpa using new)]
  rfl

theorem otherCases (o : Other) (known : r < s.next) : Stepped r s (s.other o) := by
  have new : s.next ≠ r := Nat.ne_of_gt known
  cases o with
  | find x =>
    simp only [FuseSession.other]
    split
    · rename_i listed
      by_cases mine : x = r
      · subst mine
        exact .found listed
      · refine .untouched ⟨accountPut _ mine,rfl,?_,rfl,Nat.le_refl _⟩
        simp [mine]
    · exact .untouched .refl
  | mark x =>
    simp only [FuseSession.other]
    split
    · exact .untouched (.on (accountMark x) (sameMark s.toSession x))
    · exact .untouched .refl
  | drop x =>
    simp only [FuseSession.other]
    split
    · rename_i held
      by_cases mine : x = r
      · subst mine
        exact .dropped held
      · obtain ⟨same,next⟩ := sameUnhold s.toSession x
        exact .untouched ⟨accountUnhold mine,rfl,List.count_erase_of_ne (Ne.symm mine),same,Nat.le_of_eq next.symm⟩
    · exact .untouched .refl
  | request unique =>
    have made : Untouched r s (s.on (fuseLlAllocReq · unique)) := ⟨accountAlloc _ new,rfl,rfl,rfl,Nat.le_succ _⟩
    simp only [FuseSession.other]
    split
    · exact .untouched (made.trans (.given new))
    · exact .linked made (linkCases new) new
  | interrupt unique target =>
    have made : Untouched r s (s.on fun t => setTarget (fuseLlAllocReq t unique) t.next target) :=
      ⟨(accountPut _ new).trans (accountAlloc _ new),rfl,rfl,rfl,Nat.le_succ _⟩
    simp only [FuseSession.other]
    split
    · exact .untouched (made.trans (.on (accountReply _ new) (sameReply _ _ _)))
    · split
      · exact .untouched (made.trans (.on (accountDestroy new) ⟨rfl,rfl⟩))
      · refine .untouched (made.trans (.on ?_ ⟨rfl,rfl⟩))
        have apart : ([s.next] : List Nat).count r = 0 := by simp [new]
        simp [account,addInterrupt,apart]

theorem otherSame (o : Other) : (s.other o).noInterrupt = s.noInterrupt := by
  cases o with
  | find x => simp only [FuseSession.other]; split <;> rfl
  | mark x =>
    simp only [FuseSession.other]
    split
    · exact (sameMark s.toSession x).1
    · rfl
  | drop x =>
    simp only [FuseSession.other]
    split
    · exact (sameUnhold s.toSession x).1
    · rfl
  | request unique =>
    simp only [FuseSession.other]
    split
    · rfl
    · exact (linkSame (s := s.on (fuseLlAllocReq · unique)) s.next).1
  | interrupt unique target =>
    simp only [FuseSession.other]
    split
    · exact (sameReply (setTarget (fuseLlAllocReq s.toSession unique) s.next target) s.next (-enosys)).1
    · split <;> rfl

theorem Live.stepped {given : Nat} (live : Live r l given s) (stepped : Stepped r s t) : Live r l given t := by
  obtain ⟨freed,count,listed,pending⟩ := live.parts
  cases stepped with
  | untouched step => exact live.move step
  | found inside =>
    have linked : l ≠ 0 := by
      rw [← listed]
      exact Nat.ne_of_gt (List.count_pos_iff.mpr inside)
    refine ⟨?_,live.held,fun none => absurd none linked,live.few,live.known⟩
    refine (accountHold (s := s.toSession)).trans ?_
    rw [freed,count,listed,pending]
    simp
    omega
  | dropped inside =>
    have some : 0 < s.holds.count r := List.count_pos_iff.mpr inside
    have fewer : (s.holds.erase r).count r = s.holds.count r - 1 := List.count_erase_self
    refine ⟨?_,live.held,fun none => ?_,live.few,
      Nat.lt_of_lt_of_le live.known (Nat.le_of_eq (sameUnhold s.toSession r).2.symm)⟩
    · refine (accountUnheld (s := s.toSession)).trans ?_
      rw [freed,count,listed,pending,fewer,if_neg (by omega)]
      simp
      omega
    · exact fewer.trans (by rw [live.hidden none])
  | linked made linked new =>
    have none := (live.move made).parts.2.2.2
    cases linked with
    | untouched step => exact (live.move made).move (step.trans (.given new))
    | meets inside => exact absurd (List.count_pos_iff.mpr inside) (by omega)
    | relieves inside => exact absurd (List.count_pos_iff.mpr inside) (by omega)

theorem Gone.stepped (gone : Gone r l s) (stepped : Stepped r s t) : Gone r l t := by
  cases stepped with
  | untouched step => exact gone.move step
  | found inside =>
    have linked : l ≠ 0 := by
      rw [← gone.listed]
      exact Nat.ne_of_gt (List.count_pos_iff.mpr inside)
    exact ⟨gone.listed,gone.pending,gone.held,gone.known,fun none => absurd none linked⟩
  | dropped inside =>
    have some : 0 < s.holds.count r := List.count_pos_iff.mpr inside
    have fewer : (s.holds.erase r).count r = s.holds.count r - 1 := List.count_erase_self
    have parts := accountUnheld (s := s.toSession) (r := r)
    simp only [account,Account.mk.injEq] at parts
    refine ⟨parts.2.2.1.trans gone.listed,parts.2.2.2.trans gone.pending,gone.held,
      Nat.lt_of_lt_of_le gone.known (Nat.le_of_eq (sameUnhold s.toSession r).2.symm),fun none => ?_⟩
    obtain ⟨freed,count⟩ := gone.freed none
    rw [if_neg (by omega)] at freed
    have count := count (by omega)
    refine ⟨?_,fun others => ?_⟩
    · refine parts.1.trans ?_
      rw [freed,count,fewer]
      split <;> split <;> omega
    · refine parts.2.1.trans ?_
      rw [count,fewer]
      omega
  | linked made linked new =>
    have none := (gone.move made).pending
    cases linked with
    | untouched step => exact (gone.move made).move (step.trans (.given new))
    | meets inside => exact absurd (List.count_pos_iff.mpr inside) (by omega)
    | relieves inside => exact absurd (List.count_pos_iff.mpr inside) (by omega)

structure Kept (r : Nat) (s : FuseSession) : Prop where
  account : account s.toSession r = ⟨0,1,0,1⟩
  held : s.held.count r = 0
  holds : s.holds.count r = 0
  known : r < s.next

def Waits (r : Nat) (s : FuseSession) : Prop := Kept r s ∨ Gone r 0 s

theorem Kept.move (kept : Kept r s) (step : Untouched r s t) : Kept r t :=
  ⟨step.account.trans kept.account,step.held.trans kept.held,step.holds.trans kept.holds,
    Nat.lt_of_lt_of_le kept.known step.next⟩

theorem Kept.parts (kept : Kept r s) : (s.reqs r).freed = 0 ∧ (s.reqs r).refCnt = 1 ∧ s.list.count r = 0 ∧
    s.interrupts.count r = 1 := by
  have mine := kept.account
  simpa only [LlRelease.account,Account.mk.injEq] using mine

theorem Kept.linked {x : Nat} (kept : Kept r s) (new : x ≠ r) (linked : Linked x r s t) : Waits r t := by
  obtain ⟨freed,count,listed,pending⟩ := kept.parts
  have apart : ([x] : List Nat).count r = 0 := by simp [new]
  have outside : (s.list.erase r).count r = 0 := by
    rw [List.count_erase_self,listed]
  have once : (s.interrupts.erase r).count r = 0 := by
    rw [List.count_erase_self,pending]
  cases linked with
  | untouched step => exact .inl (kept.move step)
  | meets =>
    refine .inr ⟨?_,once,kept.held,kept.known,fun _ => ⟨?_,fun holds => absurd kept.holds holds⟩⟩
    · simp [FuseSession.on,listAddReq,destroyReq,listDelReq,Session.put,List.count_append,apart,outside]
    · rw [show (s.on _).holds.count r = s.holds.count r from rfl,kept.holds]
      simp [FuseSession.on,listAddReq,destroyReq,listDelReq,new.symm,freed]
  | relieves =>
    have hand : InHand r 0 (s.on fun t => listAddReq (listDelReq t r) x) := by
      refine ⟨?_,kept.held,fun _ => kept.holds,Nat.zero_le _,kept.known⟩
      rw [show (s.on _).holds.count r = s.holds.count r from rfl,kept.holds]
      simp [LlRelease.account,FuseSession.on,listAddReq,listDelReq,freed,count,apart,outside,once]
    have freed := hand.sent (-eagain)
    rw [leftNone] at freed
    exact .inr freed

theorem Waits.stepped (waits : Waits r s) (stepped : Stepped r s t) : Waits r t := by
  rcases waits with kept | gone
  · obtain ⟨-,-,listed,-⟩ := kept.parts
    cases stepped with
    | untouched step => exact .inl (kept.move step)
    | found inside => exact absurd (List.count_pos_iff.mpr inside) (by omega)
    | dropped inside => exact absurd (List.count_pos_iff.mpr inside) (by rw [kept.holds]; omega)
    | linked made linked new =>
      exact ((kept.move made).linked new linked).imp (·.move (.given new)) (·.move (.given new))
  · exact .inr (gone.stepped stepped)

theorem actCases (a : UserAct) (known : r < s.next) : Stepped r s (s.act a) ∨
    ∃ error, (a = .reply r error ∨ a = .replyNone r) ∧ r ∈ s.held := by
  have other {x : Nat} (ne : x ≠ r) : (s.held.erase x).count r = s.held.count r := List.count_erase_of_ne ne.symm
  cases a with
  | reply x error =>
    simp only [FuseSession.act]
    split
    · rename_i has
      by_cases ne : x = r
      · subst ne
        exact .inr ⟨error,.inl rfl,has⟩
      · obtain ⟨same,next⟩ := sameReply s.toSession x error
        exact .inl (.untouched ⟨accountReply error ne,other ne,rfl,same,Nat.le_of_eq next.symm⟩)
    · exact .inl (.untouched .refl)
  | replyNone x =>
    simp only [FuseSession.act]
    split
    · rename_i has
      by_cases ne : x = r
      · subst ne
        exact .inr ⟨0,.inr rfl,has⟩
      · obtain ⟨same,next⟩ := sameFree s.toSession x
        exact .inl (.untouched ⟨accountFree ne,other ne,rfl,same,Nat.le_of_eq next.symm⟩)
    · exact .inl (.untouched .refl)
  | interruptFunc x func =>
    simp only [FuseSession.act]
    split
    · exact .inl (.untouched (.on (accountFunc x func) (sameFunc s.toSession x func)))
    · exact .inl (.untouched .refl)
  | retrieve sent => exact .inl (.untouched ⟨rfl,rfl,rfl,rfl,Nat.le_refl _⟩)
  | other o => exact .inl (otherCases o known)

theorem actSame (a : UserAct) : (s.act a).noInterrupt = s.noInterrupt := by
  cases a with
  | reply x error =>
    simp only [FuseSession.act]
    split
    · exact (sameReply s.toSession x error).1
    · rfl
  | replyNone x =>
    simp only [FuseSession.act]
    split
    · exact (sameFree s.toSession x).1
    · rfl
  | interruptFunc x func =>
    simp only [FuseSession.act]
    split
    · exact (sameFunc s.toSession x func).1
    · rfl
  | retrieve sent => rfl
  | other o => exact otherSame o

theorem unheldStepped (a : UserAct) (known : r < s.next) (mine : s.held.count r = 0) : Stepped r s (s.act a) := by
  rcases actCases a known with step | ⟨-,-,has⟩
  · exact step
  · exact absurd (List.count_pos_iff.mpr has) (by omega)

theorem Live.act (a : UserAct) (hand : InHand r l s) : InHand r l (s.act a) :=
  Live.stepped hand (unheldStepped a hand.known hand.held)

theorem Waits.act (a : UserAct) (waits : Waits r s) : Waits r (s.act a) := by
  refine waits.stepped ?_
  rcases waits with kept | gone
  · exact unheldStepped a kept.known kept.held
  · exact unheldStepped a gone.known gone.held

theorem Ends.act (a : UserAct) (ends : Ends r l s) : Ends r l (s.act a) := by
  rcases ends with given | gone
  · rcases actCases a given.known with step | ⟨error,answers,has⟩
    · exact .inl (given.stepped step)
    · have hand : InHand r l {s with held := s.held.erase r} :=
        ⟨given.account,by simp [given.held],given.hidden,given.few,given.known⟩
      rcases answers with rfl | rfl
      · rw [FuseSession.act,if_pos has]
        exact hand.reply error
      · rw [FuseSession.act,if_pos has]
        exact hand.replyNone
  · right
    rw [actSame]
    exact gone.stepped (unheldStepped a gone.known gone.held)

theorem actsInduct {P : FuseSession → Prop} (step : ∀ s a, P s → P (s.act a)) (acts : List UserAct) (start : P s) :
    P (s.acts acts) := by
  induction acts generalizing s with
  | nil => exact start
  | cons a rest ih => exact ih (step s a start)

theorem Live.acts (acts : List UserAct) (hand : InHand r l s) : InHand r l (s.acts acts) :=
  actsInduct (fun _ a before => Live.act a before) acts hand

theorem Ends.acts (acts : List UserAct) (ends : Ends r l s) : Ends r l (s.acts acts) :=
  actsInduct (fun _ a before => Ends.act a before) acts ends

theorem Waits.acts (acts : List UserAct) (waits : Waits r s) : Waits r (s.acts acts) :=
  actsInduct (fun _ a before => Waits.act a before) acts waits

theorem actsSame (acts : List UserAct) : (s.acts acts).noInterrupt = s.noInterrupt :=
  actsInduct (P := fun t => t.noInterrupt = s.noInterrupt) (fun _ a before => (actSame a).trans before) acts rfl

theorem othersKeep (l' : List Other) (hand : InHand r l s) :
    InHand r l (s.others l') ∧ (s.others l').noInterrupt = s.noInterrupt := by
  induction l' generalizing s with
  | nil => exact ⟨hand,rfl⟩
  | cons o rest ih =>
    obtain ⟨kept,same⟩ := ih (Live.stepped hand (otherCases o hand.known))
    exact ⟨kept,same.trans (otherSame o)⟩

/- What every function of the table but three does with the request it is called with. -/
def Answers (f : FuseSession → Nat → FuseSession) : Prop := ∀ (s : FuseSession) (r l : Nat),
  InHand r l s → Ends r l (f s r) ∧ (f s r).noInterrupt = s.noInterrupt

variable (ops : LlOp → Bool) (e : Env) (m : Msg)

theorem errAnswers (err : Int) : Answers (fun s r => s.on (fuseReplyErr · r err)) :=
  fun s r _ hand => ⟨hand.replyErr err,(sameReply s.toSession r (-err)).1⟩

theorem noneAnswers : Answers (fun s r => s.on (fuseReplyNone · r)) :=
  fun s r _ hand => ⟨hand.replyNone,(sameFree s.toSession r).1⟩

theorem replyAnswers (error : Int) : Answers (fun s r => s.on (sendReply · r error)) :=
  fun s r _ hand => ⟨hand.reply error,(sameReply s.toSession r error).1⟩

theorem giveAnswers (call : Nat) : Answers (fun s r => give e s r call) := by
  intro s r l hand
  have given : Given r l {s with held := s.held ++ [r]} :=
    ⟨hand.account,by simp [hand.held],hand.hidden,hand.few,hand.known⟩
  exact ⟨Ends.acts _ (.inl given),actsSame _⟩

theorem Answers.ite {f g : FuseSession → Nat → FuseSession} (yes : Answers f) (no : Answers g)
    (c : FuseSession → Prop) [∀ s, Decidable (c s)] : Answers (fun s r => if c s then f s r else g s r) := by
  intro s r l hand
  dsimp only
  split
  · exact yes s r l hand
  · exact no s r l hand

theorem forgetKeeps (left : Nat) (call : Nat) (hand : InHand r l s) :
    InHand r l (forgetDummies e r call left s) ∧ (forgetDummies e r call left s).noInterrupt = s.noInterrupt := by
  induction left generalizing call s with
  | zero => exact ⟨hand,rfl⟩
  | succ left ih =>
    unfold forgetDummies
    split
    · have other : s.next ≠ r := Nat.ne_of_gt hand.known
      have allocated : Untouched r s (s.on (fuseLlAllocReq · (s.reqs r).unique)) :=
        ⟨accountAlloc _ other,rfl,rfl,rfl,Nat.le_succ _⟩
      have made := allocated.trans (.given other)
      obtain ⟨rest,same⟩ := ih (call + 1) (Live.acts (e.acts call) (Live.move hand made))
      exact ⟨rest,same.trans ((actsSame _).trans made.same)⟩
    · exact ⟨hand,rfl⟩

theorem batchForgetAnswers : Answers (doBatchForget ops e m) := by
  intro s r l hand
  unfold doBatchForget
  split
  · exact giveAnswers e 0 s r l hand
  · split
    · obtain ⟨kept,same⟩ := forgetKeeps e m.count 0 hand
      obtain ⟨ends,steady⟩ := noneAnswers _ r l kept
      exact ⟨ends,steady.trans same⟩
    · exact noneAnswers s r l hand

theorem destroyAnswers : Answers (doDestroy ops e) := by
  intro s r l hand
  have off : InHand r l {s with gotDestroy := true, gotInit := false} :=
    ⟨hand.account,hand.held,hand.hidden,hand.few,hand.known⟩
  unfold doDestroy
  dsimp only
  split
  · obtain ⟨ends,steady⟩ := replyAnswers 0 _ r l (Live.acts (e.acts 0) off)
    exact ⟨ends,steady.trans (actsSame _)⟩
  · exact replyAnswers 0 _ r l off

/- Whether the init callback of this message changes whether interrupts are processed. -/
def initRuns (m : Msg) : Bool := if m.opcode = fuseInit then decide (m.major = 7) else decide (7 ≤ m.major)

theorem initKeeps (hand : InHand r l s) : InHand r l (callInit ops e s) ∧
    (callInit ops e s).noInterrupt = if ops .init then e.init.noInterrupt else s.noInterrupt := by
  unfold callInit
  dsimp only
  split
  · have called : InHand r l {s with gotInit := true, want := e.init.want, noInterrupt := e.init.noInterrupt} :=
      ⟨hand.account,hand.held,hand.hidden,hand.few,hand.known⟩
    exact ⟨Live.acts _ called,actsSame _⟩
  · exact ⟨⟨hand.account,hand.held,hand.hidden,hand.few,hand.known⟩,rfl⟩

theorem doInitEnds (hand : InHand r l s) : Ends r l (doInit ops e m s r) ∧
    (doInit ops e m s r).noInterrupt = if m.major = 7 ∧ ops .init then e.init.noInterrupt else s.noInterrupt := by
  have set : InHand r l {s with protoMinor := m.minor, want := noWant} :=
    ⟨hand.account,hand.held,hand.hidden,hand.few,hand.known⟩
  unfold doInit
  dsimp only
  split
  · obtain ⟨ends,steady⟩ := errAnswers eproto _ r l set
    exact ⟨ends,by rw [steady,if_neg (by omega)]⟩
  · split
    · obtain ⟨ends,steady⟩ := replyAnswers 0 _ r l set
      exact ⟨ends,by rw [steady,if_neg (by omega)]⟩
    · obtain ⟨called,now⟩ := initKeeps ops e set
      have seven : m.major = 7 := by omega
      simp only [seven,true_and]
      split
      · obtain ⟨ends,steady⟩ := errAnswers eproto _ r l called
        exact ⟨ends,steady.trans now⟩
      · obtain ⟨ends,steady⟩ := replyAnswers 0 _ r l called
        exact ⟨ends,steady.trans now⟩

theorem cuseInitEnds (hand : InHand r l s) : Ends r l (cuseLowlevelInit ops e m s r) ∧
    (cuseLowlevelInit ops e m s r).noInterrupt = if 7 ≤ m.major ∧ ops .init then e.init.noInterrupt
    else s.noInterrupt := by
  have set : InHand r l {s with protoMinor := m.minor, want := noWant} :=
    ⟨hand.account,hand.held,hand.hidden,hand.few,hand.known⟩
  unfold cuseLowlevelInit
  dsimp only
  split
  · obtain ⟨ends,steady⟩ := errAnswers eproto _ r l set
    exact ⟨ends,by rw [steady,if_neg (by omega)]⟩
  · obtain ⟨called,now⟩ := initKeeps ops e set
    have sent : InHand r l
        ((callInit ops e {s with protoMinor := m.minor, want := noWant}).on (fuseSendReplyNofree · r 0)) :=
      ⟨called.account,called.held,called.hidden,called.few,called.known⟩
    obtain ⟨ends,steady⟩ := noneAnswers _ r l (Live.acts (e.acts 1) sent)
    have seven : 7 ≤ m.major := by omega
    simp only [seven,true_and]
    exact ⟨ends,(steady.trans (actsSame _)).trans now⟩

theorem foundOther {x : Nat} (hand : InHand r 0 s) (found : interruptTarget s.toSession r = some x) : x ≠ r := by
  rintro rfl
  have listed := List.count_pos_iff.mpr (List.mem_of_find?_eq_some found)
  have mine := (Live.parts hand).2.2.1
  omega

theorem foundKeeps {x : Nat} (other : x ≠ r) (hand : InHand r l s) :
    InHand r l (interruptFound e s x) ∧ (interruptFound e s x).noInterrupt = s.noInterrupt := by
  have held : Untouched r s (s.on (holdReq · x)) := .on (accountPut _ other) ⟨rfl,rfl⟩
  have waited := Live.acts e.window (Live.move hand held)
  have marked : InHand r l (((s.on (holdReq · x)).acts e.window).on (markInterrupted · x)) :=
    waited.move (.on (accountPut _ other) ⟨rfl,rfl⟩)
  have same : (((s.on (holdReq · x)).acts e.window).on (markInterrupted · x)).noInterrupt =
    s.noInterrupt := actsSame e.window
  unfold interruptFound
  dsimp only
  generalize ((s.on (holdReq · x)).acts e.window).on (markInterrupted · x) = t at marked same
  have unheld {u : FuseSession} : Untouched r u (u.on (unholdReq · x)) := .on (accountUnhold other) (sameUnhold _ x)
  split
  · exact ⟨Live.move marked unheld,unheld.same.trans same⟩
  · rename_i func
    have called : Untouched r t (t.on (callFunc · x (t.reqs x).u)) := by
      unfold callFunc
      exact .on (by rw [if_neg func]; rfl) (by rw [if_neg func]; exact ⟨rfl,rfl⟩)
    have ran := Live.acts (e.acts 0) (Live.move marked called)
    exact ⟨Live.move ran unheld,unheld.same.trans ((actsSame _).trans (called.same.trans same))⟩

theorem Live.destroyed (hand : InHand r 0 s) : Ends r 0 (s.on (destroyReq · r)) := by
  obtain ⟨freed,-,listed,pending⟩ := Live.parts hand
  right
  rw [leftNone]
  refine ⟨listed,pending,hand.held,hand.known,fun _ => ⟨?_,fun holds => absurd (hand.hidden rfl) holds⟩⟩
  rw [show (s.on _).holds.count r = s.holds.count r from rfl,hand.hidden rfl]
  simp [FuseSession.on,destroyReq,freed]

theorem doInterruptEnds (hand : InHand r 0 s) :
    (Ends r 0 (doInterrupt e m s r) ∨ Kept r (doInterrupt e m s r) ∧ ∀ x ∈ s.list, (s.reqs x).unique ≠ m.target) ∧
      (doInterrupt e m s r).noInterrupt = s.noInterrupt := by
  have set : Untouched r s (s.on (setTarget · r m.target)) := .on (accountPutSelf rfl rfl) ⟨rfl,rfl⟩
  have mine := hand.account
  simp only [account,Account.mk.injEq] at mine
  obtain ⟨-,-,listed,-⟩ := mine
  have aimed : ((s.on (setTarget · r m.target)).reqs r).u = m.target := by
    simp [FuseSession.on,setTarget,Session.put]
  have same : ∀ x ∈ s.list, ((s.on (setTarget · r m.target)).reqs x).unique = (s.reqs x).unique := by
    intro x mem
    have other : x ≠ r := by
      rintro rfl
      exact absurd (List.count_pos_iff.mpr mem) (by omega)
    simp [FuseSession.on,setTarget,Session.put,Function.update_of_ne other]
  unfold doInterrupt
  dsimp only
  have ready := hand.move set
  have steady := set.same
  have sameList : (s.on (setTarget · r m.target)).list = s.list := rfl
  generalize s.on (setTarget · r m.target) = t at ready steady aimed same sameList
  split
  · rename_i x found
    obtain ⟨kept,now⟩ := foundKeeps e (foundOther ready found) ready
    exact ⟨.inl kept.destroyed,now.trans steady⟩
  · rename_i missing
    split
    · exact ⟨.inl ready.destroyed,steady⟩
    · obtain ⟨freed,count,listed,pending⟩ := ready.parts
      have alone := ready.hidden rfl
      refine ⟨.inr ⟨⟨?_,ready.held,alone,ready.known⟩,?_⟩,steady⟩
      · simp [LlRelease.account,FuseSession.on,addInterrupt,freed,count,listed,pending,alone]
      · intro x mem here
        have none := List.find?_eq_none.mp missing x (sameList ▸ mem)
        rw [aimed,same x mem] at none
        exact none (decide_eq_true here)

def special : List Nat := [fuseInit,fuseInterrupt,fuseNotifyReply,cuseInit]

theorem tableAnswers : ∀ p ∈ fuseLlOps ops e m, p.1 ∈ special ∨ Answers p.2 := by
  apply tableCases (P := fun c f => c ∈ special ∨ Answers f)
  case give => exact fun _ => .inr (giveAnswers e 0)
  case err => exact fun _ err => .inr (errAnswers err)
  case reply => exact fun _ => .inr (replyAnswers 0)
  case none => exact fun _ => .inr noneAnswers
  case either =>
    intro code f g c yes no
    rcases yes with special | yes
    · exact .inl special
    · exact no.imp id fun no => yes.ite no fun s => c s
  case batchForget => exact .inr (batchForgetAnswers ops e m)
  case destroy => exact .inr (destroyAnswers ops e)
  case init => exact .inl (by decide)
  case interrupt => exact .inl (by decide)
  case notifyReply => exact .inl (by decide)
  case cuseInit => exact .inl (by decide)

theorem lookupMem {α β : Type} [BEq α] [LawfulBEq α] {k : α} {v : β} {l : List (α × β)} (found : l.lookup k = some v) :
    (k,v) ∈ l := by
  obtain ⟨before,after,rfl,-⟩ := List.lookup_eq_some_iff.mp found
  simp

theorem Ends.pipe (ends : Ends r l s) (n : Nat) : Ends r l {s with pipe := n} := by
  rcases ends with given | gone
  · exact .inl ⟨given.account,given.held,given.hidden,given.few,given.known⟩
  · exact .inr ⟨gone.listed,gone.pending,gone.held,gone.known,gone.freed⟩

theorem resetEnds (took idx : Nat) (ends : Ends r l s) : Ends r l (resetPipe m s took idx) := by
  unfold resetPipe clearPipe
  split
  · split <;> exact ends.pipe _
  · exact ends

theorem resetSame (took idx : Nat) : (resetPipe m s took idx).noInterrupt = s.noInterrupt := by
  unfold resetPipe clearPipe
  split
  · split <;> rfl
  · rfl

theorem dropEnds (ends : Ends r l s) : Ends r l (dropPipe m s) := by
  unfold dropPipe clearPipe
  split
  · exact ends.pipe _
  · exact ends

theorem dropSame : (dropPipe m s).noInterrupt = s.noInterrupt := by
  unfold dropPipe
  split <;> rfl

theorem writeBufEnds (hand : InHand r l s) (ran : doWriteBuf e m s r = some t) :
    Ends r l t ∧ t.noInterrupt = s.noInterrupt := by
  unfold doWriteBuf at ran
  generalize sizeSub m.size _ = room at ran
  split at ran
  · cases ran
  · split at ran
    · cases ran
      obtain ⟨ends,same⟩ := errAnswers eio s r l hand
      exact ⟨resetEnds m 0 0 ends,(resetSame m 0 0).trans same⟩
    · cases ran
      obtain ⟨ends,same⟩ := giveAnswers e 0 s r l hand
      exact ⟨resetEnds m _ _ ends,(resetSame m _ _).trans same⟩

theorem retrieveEnds (hand : InHand r l s) : Ends r l (fuseLlRetrieveReply ops e m s r) ∧
    (fuseLlRetrieveReply ops e m s r).noInterrupt = s.noInterrupt := by
  obtain ⟨ends,same⟩ := noneAnswers s r l hand
  unfold fuseLlRetrieveReply
  split
  · exact ⟨resetEnds m 0 0 ends,(resetSame m 0 0).trans same⟩
  · split
    · obtain ⟨ends,same⟩ := giveAnswers e 0 s r l hand
      exact ⟨resetEnds m _ _ ends,(resetSame m _ _).trans same⟩
    · exact ⟨resetEnds m 0 0 ends,(resetSame m 0 0).trans same⟩

def linked (m : Msg) (s : FuseSession) : Nat := if s.noInterrupt = false ∧ m.opcode ≠ fuseInterrupt then 1 else 0

theorem checkKeeps {s : Session} {r : Nat} (mine : s.interrupts.count r = 0) :
    account (checkInterrupt s r).1 r = account s r ∧ Same s (checkInterrupt s r).1 ∧
      (checkInterrupt s r).2 ≠ some r := by
  have other {x : Nat} (mem : x ∈ s.interrupts) : x ≠ r := by
    rintro rfl
    exact absurd (List.count_pos_iff.mpr mem) (by omega)
  unfold checkInterrupt
  split
  · rename_i x found
    have ne := other (List.mem_of_find?_eq_some found)
    refine ⟨?_,⟨rfl,rfl⟩,by simp⟩
    rw [accountDestroy ne,accountDel ne]
    exact accountPutSelf rfl rfl
  · split
    · exact ⟨rfl,⟨rfl,rfl⟩,by simp⟩
    · rename_i x rest now
      have ne := other (now ▸ List.mem_cons_self)
      exact ⟨accountDel ne,⟨rfl,rfl⟩,by simpa using ne⟩

theorem linkRest (x : Nat) : (linkReq s x).notifyList = s.notifyList ∧ (linkReq s x).pipe = s.pipe := by
  unfold linkReq
  dsimp only
  split <;> exact ⟨rfl,rfl⟩

theorem otherRest (o : Other) : (s.other o).notifyList = s.notifyList ∧ (s.other o).pipe = s.pipe := by
  cases o with
  | find x => simp only [FuseSession.other]; split <;> exact ⟨rfl,rfl⟩
  | mark x => simp only [FuseSession.other]; split <;> exact ⟨rfl,rfl⟩
  | drop x => simp only [FuseSession.other]; split <;> exact ⟨rfl,rfl⟩
  | request unique =>
    simp only [FuseSession.other]
    split
    · exact ⟨rfl,rfl⟩
    · exact linkRest (s := s.on (fuseLlAllocReq · unique)) s.next
  | interrupt unique target =>
    simp only [FuseSession.other]
    split
    · exact ⟨rfl,rfl⟩
    · split <;> exact ⟨rfl,rfl⟩

theorem enterRest : (enterList e m s r).notifyList = s.notifyList ∧ (enterList e m s r).pipe = s.pipe := by
  have others : ∀ (l : List Other) (t : FuseSession), (t.others l).notifyList = t.notifyList ∧
      (t.others l).pipe = t.pipe := by
    intro l
    induction l with
    | nil => exact fun t => ⟨rfl,rfl⟩
    | cons o rest ih => exact fun t => ⟨(ih _).1.trans (otherRest o).1,(ih _).2.trans (otherRest o).2⟩
  unfold enterList
  split
  · obtain ⟨notify,pipe⟩ := others e.meanwhile (linkReq s r)
    exact ⟨notify.trans (linkRest r).1,pipe.trans (linkRest r).2⟩
  · exact ⟨rfl,rfl⟩

theorem linkInHand (hand : InHand r 0 s) : InHand r 1 (linkReq s r) := by
  obtain ⟨-,-,-,none⟩ := hand.parts
  obtain ⟨kept,⟨same,next⟩,other⟩ := checkKeeps (s := s.toSession) none
  have added : InHand r 1 {s with toSession := listAddReq (checkInterrupt s.toSession r).1 r} := by
    refine ⟨?_,hand.held,nofun,Nat.le_refl _,next ▸ hand.known⟩
    have all := kept.trans hand.account
    simp only [account,Account.mk.injEq] at all
    obtain ⟨freed,count,listed,pending⟩ := all
    simp [account,listAddReq,freed,count,listed,pending]
  unfold linkReq
  dsimp only
  split
  · rename_i i taken
    have ne : i ≠ r := fun eq => other (eq ▸ taken)
    exact added.move (.on (accountReply (-eagain) ne) (sameReply _ i (-eagain)))
  · exact added

theorem enterInHand (hand : InHand r 0 s) : InHand r (linked m s) (enterList e m s r) ∧
    (enterList e m s r).noInterrupt = s.noInterrupt ∧ (m.opcode = fuseInterrupt → enterList e m s r = s) := by
  unfold enterList linked
  split
  · rename_i goes
    obtain ⟨kept,same⟩ := othersKeep e.meanwhile (linkInHand hand)
    exact ⟨kept,same.trans (linkSame r).1,fun int => absurd int goes.2⟩
  · exact ⟨hand,rfl,fun _ => rfl⟩

theorem readRestInHand (hand : InHand r l s) : InHand r l (readRest ops e m s) ∧
    (readRest ops e m s).noInterrupt = s.noInterrupt ∧ (readRest ops e m s).notifyList = s.notifyList ∧
    (readRest ops e m s).toSession = s.toSession := by
  unfold readRest
  split
  · exact ⟨⟨hand.account,hand.held,hand.hidden,hand.few,hand.known⟩,rfl,rfl,rfl⟩
  · exact ⟨hand,rfl,rfl,rfl⟩

def accepted (s : FuseSession) : Bool := decide (refused ops e m s = none) && decide (restError ops e m = none)

def unmatched (s : FuseSession) : Bool :=
  accepted ops e m s && decide (m.opcode = fuseNotifyReply) && decide (m.unique ∉ s.notifyList)

def turnsOff (s : FuseSession) : Bool :=
  accepted ops e m s && (decide (m.opcode = fuseInit) || decide (m.opcode = cuseInit)) && initRuns m && ops .init &&
    e.init.noInterrupt && !s.noInterrupt

theorem leftLinked : left s.noInterrupt (linked m s) = 0 := by
  unfold left linked
  split
  · rename_i off
    rw [if_neg (by simp [off])]
  · split <;> rfl

inductive Outcome (s : FuseSession) (r : Nat) (t : FuseSession) : Prop
  | lost (linked : Nat) (unmatched : unmatched ops e m s = true) (hand : InHand r linked t)
  | kept (matched : unmatched ops e m s = false) (steady : turnsOff ops e m s = false) (kept : Kept r t)
      (interrupt : m.opcode = fuseInterrupt) (missing : ∀ x ∈ s.list, (s.reqs x).unique ≠ m.target)
  | ends (linked : Nat) (matched : unmatched ops e m s = false) (ends : Ends r linked t)
      (unlinked : left t.noInterrupt linked = 0 ↔ turnsOff ops e m s = false)

section outcome
variable {ops e m}

theorem refusedOutcome (hand : InHand r l s) (err : Int) (skipped : accepted ops e m s₀ = false)
    (unlinks : left s.noInterrupt l = 0) :
    Outcome ops e m s₀ r (replyErrClear m s r err) := by
  obtain ⟨ends,same⟩ := errAnswers err s r l hand
  refine .ends l (by simp [unmatched,skipped]) (dropEnds m ends) ?_
  rw [replyErrClear,dropSame]
  simp only [same,unlinks,turnsOff,skipped,Bool.false_and]

theorem answeredOutcome (ends : Ends r (linked m s) t) (same : t.noInterrupt = s.noInterrupt)
    (matched : unmatched ops e m s = false) (steady : turnsOff ops e m s = false) : Outcome ops e m s r t :=
  .ends _ matched ends (by simp [same,leftLinked,steady])

theorem initOutcome (taken : accepted ops e m s = true) (init : m.opcode = fuseInit ∨ m.opcode = cuseInit)
    (ends : Ends r (linked m s) t)
    (now : t.noInterrupt = if initRuns m ∧ ops .init then e.init.noInterrupt else s.noInterrupt) :
    Outcome ops e m s r t := by
  have other : m.opcode ≠ fuseInterrupt ∧ m.opcode ≠ fuseNotifyReply := by
    rcases init with is | is <;> rw [is] <;> decide
  have code : (decide (m.opcode = fuseInit) || decide (m.opcode = cuseInit)) = true := by simpa using init
  have links : linked m s = if s.noInterrupt then 0 else 1 := by
    unfold linked
    cases s.noInterrupt <;> simp [other.1]
  refine .ends _ (by simp [unmatched,other.2]) ends ?_
  rw [now,links]
  simp only [turnsOff,taken,code,left]
  cases s.noInterrupt <;> cases initRuns m <;> cases ops .init <;> cases e.init.noInterrupt <;> simp

theorem refusedUnknown (unknown : (fuseLlOps ops e m).lookup m.opcode = none) : refused ops e m s ≠ none := by
  unfold refused
  rw [unknown]
  split
  · simp
  · split <;> simp

theorem handleOutcome (hand : InHand r 0 s) (ran : handle ops e m s r = some t) : Outcome ops e m s r t := by
  unfold handle at ran
  dsimp only at ran
  cases checked : refused ops e m s with
  | some err =>
    rw [checked] at ran
    cases ran
    exact refusedOutcome hand err (by simp [accepted,checked]) (leftNone _)
  | none =>
    rw [checked] at ran
    obtain ⟨entered,sameE,intE⟩ := enterInHand e m hand
    obtain ⟨ready,sameR,listR,restR⟩ := readRestInHand ops e m entered
    have same := sameR.trans sameE
    have notify := listR.trans ((enterRest e m).1)
    cases rest : restError ops e m with
    | some err =>
      rw [rest] at ran
      cases ran
      exact refusedOutcome ready err (by simp [accepted,rest]) (same ▸ leftLinked m)
    | none =>
      have taken : accepted ops e m s = true := by simp [accepted,checked,rest]
      rw [rest] at ran
      dsimp only at ran
      unfold dispatch at ran
      split at ran
      · rename_i write
        obtain ⟨ends,steady⟩ := writeBufEnds e m ready ran
        exact answeredOutcome ends (steady.trans same) (by simp [unmatched,write.1,fuseWrite,fuseNotifyReply])
          (by simp [turnsOff,write.1,fuseWrite,fuseInit,cuseInit])
      · split at ran
        · rename_i notified
          have steady : turnsOff ops e m s = false := by simp [turnsOff,notified,fuseNotifyReply,fuseInit,cuseInit]
          cases ran
          unfold doNotifyReply
          rw [notify]
          split
          · rename_i known
            have shorter : InHand r (linked m s)
                {readRest ops e m (enterList e m s r) with notifyList := s.notifyList.erase m.unique} :=
              ⟨ready.account,ready.held,ready.hidden,ready.few,ready.known⟩
            obtain ⟨ends,replied⟩ := retrieveEnds ops e m shorter
            exact answeredOutcome ends (replied.trans same) (by simp [unmatched,known]) steady
          · rename_i unknown
            exact .lost _ (by simp [unmatched,taken,notified,unknown]) ready
        · rename_i other
          cases ran
          cases found : (fuseLlOps ops e m).lookup m.opcode with
          | none =>
            exact absurd checked (refusedUnknown found)
          | some f =>
            have matched : unmatched ops e m s = false := by simp [unmatched,other]
            by_cases unusual : m.opcode ∈ special
            · simp only [special,List.mem_cons,List.not_mem_nil,or_false,other,false_or] at unusual
              rcases unusual with init | interrupt | cuse
              · have is : f = doInit ops e m := by
                  rw [init] at found
                  exact (Option.some.inj found).symm
                subst is
                obtain ⟨ends,now⟩ := doInitEnds ops e m ready
                rw [same] at now
                exact initOutcome taken (.inl init) ends (by simpa [initRuns,init] using now)
              · have is : f = doInterrupt e m := by
                  rw [interrupt] at found
                  exact (Option.some.inj found).symm
                subst is
                have unlinked : linked m s = 0 := by simp [linked,interrupt]
                have steady : turnsOff ops e m s = false := by simp [turnsOff,interrupt,fuseInterrupt,fuseInit,cuseInit]
                rw [unlinked] at ready
                obtain ⟨ends | ⟨kept,missing⟩,now⟩ := doInterruptEnds e m ready
                · exact .ends 0 matched ends (by simp [leftNone,steady])
                · rw [restR,intE interrupt] at missing
                  exact .kept matched steady kept interrupt missing
              · have is : f = cuseLowlevelInit ops e m := by
                  rw [cuse] at found
                  exact (Option.some.inj found).symm
                subst is
                obtain ⟨ends,now⟩ := cuseInitEnds ops e m ready
                rw [same] at now
                exact initOutcome taken (.inr cuse) ends (by simpa [initRuns,cuse,cuseInit,fuseInit] using now)
            · have answers := (tableAnswers ops e m _ (lookupMem found)).resolve_left unusual
              obtain ⟨ends,now⟩ := answers _ r _ ready
              simp only [special,List.mem_cons,not_or] at unusual
              exact answeredOutcome ends (now.trans same) matched (by simp [turnsOff,unusual.1,unusual.2.2.2.1])

end outcome

def Known (s : FuseSession) : Prop := ∀ x ∈ s.list ++ s.interrupts ++ s.held ++ s.holds, x < s.next

/- What is promised for the request `r` of a message: it is freed once, or it is an interrupt that
waits, once, for a target that was not there, and it is not linked. -/
def Disposed (m : Msg) (s t : FuseSession) (r : Nat) : Prop :=
  r ∉ t.list ∧ ((t.reqs r).freed = 1 ∧ r ∉ t.interrupts ∨
    (t.reqs r).freed = 0 ∧ t.interrupts.count r = 1 ∧ m.opcode = fuseInterrupt ∧ ∀ x ∈ s.list,
    (s.reqs x).unique ≠ m.target)

theorem allocInHand (known : Known s) (unique : Nat) : InHand s.next 0 (s.on (fuseLlAllocReq · unique)) := by
  have absent {l : List Nat} (part : ∀ x ∈ l, x ∈ s.list ++ s.interrupts ++ s.held ++ s.holds) : l.count s.next = 0 :=
    List.count_eq_zero.mpr fun mem => Nat.lt_irrefl _ (known _ (part _ mem))
  have listed : s.list.count s.next = 0 := absent (by simp +contextual)
  have pending : s.interrupts.count s.next = 0 := absent (by simp +contextual)
  have held : s.held.count s.next = 0 := absent (by simp +contextual)
  have holds : s.holds.count s.next = 0 := absent (by simp +contextual)
  refine ⟨?_,held,fun _ => holds,Nat.zero_le _,Nat.lt_succ_self _⟩
  rw [show (s.on _).holds.count s.next = s.holds.count s.next from rfl,holds]
  simp [account,FuseSession.on,fuseLlAllocReq,Session.put,listed,pending]

theorem headerKeeps : readHeader e m s = {s with pipe := (readHeader e m s).pipe} := by
  unfold readHeader
  split <;> rfl

theorem processSource {r : Nat} (ran : fuseSessionProcessBufInternal ops e m s = some (t,some r)) :
    r = s.next ∧ ∃ n, handle ops e m ({s with pipe := n}.on (fuseLlAllocReq · m.unique)) r = some t := by
  have same := headerKeeps e m (s := s)
  unfold fuseSessionProcessBufInternal at ran
  rw [same] at ran
  dsimp only at ran
  split at ran
  · split at ran
    · obtain ⟨u,handled,is⟩ := Option.map_eq_some_iff.mp ran
      cases is
      exact ⟨rfl,_,handled⟩
    · cases ran
  · cases ran

theorem Gone.disposed (gone : Gone r 0 t) (alone : r ∉ t.holds) : Disposed m s t r := by
  have none := List.count_eq_zero.mpr alone
  have freed := (gone.freed rfl).1
  rw [if_pos none] at freed
  exact ⟨List.count_eq_zero.mp gone.listed,.inl ⟨freed,List.count_eq_zero.mp gone.pending⟩⟩

theorem finished (outcome : Outcome ops e m s r t) (later : List UserAct) (answered : r ∉ (t.acts later).held)
    (alone : r ∉ (t.acts later).holds) :
    (Disposed m s (t.acts later) r ↔ unmatched ops e m s = false ∧ turnsOff ops e m s = false) := by
  cases outcome with
  | lost l unmatched hand =>
    obtain ⟨freed,-,-,pending⟩ := (hand.acts later).parts
    refine ⟨fun ⟨_,once⟩ => ?_,fun ⟨matched,_⟩ => by simp [unmatched] at matched⟩
    rcases once with ⟨one,-⟩ | ⟨-,one,-⟩ <;> omega
  | kept matched steady kept interrupt missing =>
    refine ⟨fun _ => ⟨matched,steady⟩,fun _ => ?_⟩
    rcases Waits.acts later (.inl kept) with kept | gone
    · obtain ⟨freed,-,listed,pending⟩ := kept.parts
      exact ⟨List.count_eq_zero.mp listed,.inr ⟨freed,pending,interrupt,missing⟩⟩
    · exact gone.disposed m alone
  | ends l matched ends unlinked =>
    rcases ends.acts later with given | gone
    · have held := given.held
      rw [List.count_eq_zero.mpr answered] at held
      cases held
    · rw [actsSame] at gone
      refine ⟨fun ⟨out,_⟩ => ⟨matched,unlinked.mp (gone.listed ▸ List.count_eq_zero.mpr out)⟩,fun ⟨_,steady⟩ => ?_⟩
      rw [unlinked.mpr steady] at gone
      exact gone.disposed m alone

/- For every session, message and environment, once the request is answered and no other thread
is on the way to interrupt it. -/
theorem requestReleased {s t : FuseSession} {r : Nat} (known : Known s)
    (ran : fuseSessionProcessBufInternal ops e m s = some (t,some r)) (later : List UserAct)
    (answered : r ∉ (t.acts later).held) (alone : r ∉ (t.acts later).holds) :
    Disposed m s (t.acts later) r ↔ unmatched ops e m s = false ∧ turnsOff ops e m s = false := by
  obtain ⟨rfl,n,handled⟩ := processSource ops e m ran
  have piped : Known {s with pipe := n} := known
  have outcome := handleOutcome (allocInHand piped m.unique) handled
  have whole := finished ops e m outcome later answered alone
  have same : ∀ x ∈ s.list,
      ((({s with pipe := n}.on (fuseLlAllocReq · m.unique)).reqs x).unique = (s.reqs x).unique) := by
    intro x mem
    have before : x ≠ s.next := Nat.ne_of_lt (known x (by simp [mem]))
    simp [FuseSession.on,fuseLlAllocReq,Session.put,Function.update_of_ne before]
  have target : (∀ x ∈ s.list, (({s with pipe := n}.on (fuseLlAllocReq · m.unique)).reqs x).unique ≠ m.target) ↔
      ∀ x ∈ s.list, (s.reqs x).unique ≠ m.target :=
    forall₂_congr fun x mem => by rw [same x mem]
  refine Iff.trans ?_ whole
  exact and_congr Iff.rfl (or_congr Iff.rfl (and_congr Iff.rfl (and_congr Iff.rfl (and_congr Iff.rfl target.symm))))

/- A session after INIT, with interrupts on and nothing going on. -/
def idle : FuseSession :=
  {reqs := fun _ => ⟨0,0,false,0,0⟩, next := 0, list := [], interrupts := [], noInterrupt := false,
    sent := [], calls := [], strerrordesc := true,
    gotInit := true, gotDestroy := false, cuseData := false, denyOthers := false, owner := 0, protoMinor := 31,
    want := noWant, notifyCtr := 0, notifyList := [], held := [], holds := [], pipe := 0}

/- No call fails, and a handler answers request 0 at once. -/
def willing : Env :=
  {header := none, alloc := true, rest := none, dummies := fun _ => true, pollHandle := true,
    init := ⟨true,noWant,true,true⟩, acts := fun _ => [.reply 0 0], window := [], meanwhile := [], drain := none}

def inMemory (opcode : Nat) : Msg := ⟨false,48,opcode,7,0,7,31,0,false,false,false,0,0⟩

def interrupting : Env :=
  {willing with meanwhile := [.find 0], acts := fun _ => [.interruptFunc 0 5,.other (.mark 0),.reply 0 0]}

theorem lookupReleased : ∃ t,
    fuseSessionProcessBufInternal (fun _ => true) interrupting (inMemory 1) idle = some (t,some 0) ∧
    (Disposed (inMemory 1) idle (t.acts [.other (.drop 0)]) 0 ↔
      unmatched (fun _ => true) interrupting (inMemory 1) idle = false ∧
        turnsOff (fun _ => true) interrupting (inMemory 1) idle = false) :=
  ⟨_,rfl,requestReleased _ _ _ (by simp [Known,idle]) rfl [.other (.drop 0)] (by decide) (by decide)⟩

/- A retrieve reply that nobody waits for, and an INIT after which interrupts are off: in neither
case does anybody hold the request any more. -/
theorem requestsKept :
    (∃ t, fuseSessionProcessBufInternal (fun _ => true) willing (inMemory fuseNotifyReply) idle = some (t,some 0) ∧
      0 ∉ t.held ∧ (t.reqs 0).freed = 0 ∧ 0 ∈ t.list ∧ ¬ Disposed (inMemory fuseNotifyReply) idle t 0) ∧
    ∃ t, fuseSessionProcessBufInternal (fun _ => true) willing (inMemory fuseInit)
      {idle with gotInit := false} = some (t,some 0) ∧
      0 ∉ t.held ∧ (t.reqs 0).freed = 1 ∧ 0 ∈ t.list ∧ ¬ Disposed (inMemory fuseInit)
        {idle with gotInit := false} t 0 :=
  ⟨⟨_,rfl,by decide,rfl,by decide,fun kept => kept.1 (by decide)⟩,
    ⟨_,rfl,by decide,rfl,by decide,fun kept => kept.1 (by decide)⟩⟩

end FuseStudy.LlRelease
