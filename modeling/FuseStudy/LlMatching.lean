import FuseStudy.LlInterrupt

/-! Interrupts find their targets: the invariants of every run, one after the other, and what they
say together about the pending interrupts, the marks, the calls and the release of an INTERRUPT. -/
namespace FuseStudy.LlMatching
open LlRequest LlInterrupt

variable {s t : Sys}

structure Places (s : Sys) : Prop where
  fresh : ∀ x, s.next ≤ x ↔ s.pc x = .absent
  listed : ∀ x, x ∈ s.list ↔ (s.pc x).linked = true
  waiting : ∀ x, x ∈ s.interrupts ↔ s.pc x = .pending
  listOnce : s.list.Nodup
  waitOnce : s.interrupts.Nodup
  on : s.noInterrupt = false

/- A step that takes one request from one place to another, in no list and out of none. -/
structure Quiet (x : Nat) (p : Pc) (s t : Sys) : Prop where
  pc : t.pc = Function.update s.pc x p
  next : t.next = s.next
  list : t.list = s.list
  interrupts : t.interrupts = s.interrupts
  on : t.noInterrupt = s.noInterrupt
  unique : ∀ y, (t.reqs y).unique = (s.reqs y).unique
  aim : ∀ y, (s.pc y).ordinary = false → (t.reqs y).u = (s.reqs y).u
  known : s.pc x ≠ .absent ∧ p ≠ .absent
  waits : s.pc x ≠ .pending ∧ p ≠ .pending
  linked : p.linked = (s.pc x).linked
  ordinary : p.ordinary = (s.pc x).ordinary

section quiet
variable {r i func : Nat} {p : Pc}

theorem Quiet.only {x : Nat} (pc : t.pc = Function.update s.pc x p) (session : t.toSession = s.toSession)
    (known : s.pc x ≠ .absent ∧ p ≠ .absent) (waits : s.pc x ≠ .pending ∧ p ≠ .pending)
    (linked : p.linked = (s.pc x).linked) (ordinary : p.ordinary = (s.pc x).ordinary) : Quiet x p s t where
  pc := pc
  next := by rw [session]
  list := by rw [session]
  interrupts := by rw [session]
  on := by rw [session]
  unique := fun _ => by rw [session]
  aim := fun _ _ => by rw [session]
  known := known
  waits := waits
  linked := linked
  ordinary := ordinary

theorem registerQuiet (held : s.pc r = .held) : Quiet r (.registering func) s (s.register r func) where
  pc := rfl
  next := rfl
  list := rfl
  interrupts := rfl
  on := rfl
  unique := fun y => by
    simp only [Sys.register,setFunc,moveSession,setLockSession,setCalledSession,onSession,putReqs]
    split <;> simp [*]
  aim := fun y interrupt => by
    have ne : y ≠ r := by
      rintro rfl
      rw [held] at interrupt
      cases interrupt
    simp [Sys.register,setFunc,ne]
  known := by simp [held]
  waits := by simp [held]
  linked := by rw [held]; rfl
  ordinary := by rw [held]; rfl

theorem noticesQuiet (registering : s.pc r = .registering func) :
    Quiet r (.calling func) s (s.move r (.calling func)) :=
  .only rfl rfl (by simp [registering]) (by simp [registering]) (by rw [registering]; rfl) (by rw [registering]; rfl)

theorem unnoticedQuiet (registering : s.pc r = .registering func) : Quiet r .held s ((s.setLock r none).move r .held) :=
  .only rfl rfl (by simp [registering]) (by simp [registering]) (by rw [registering]; rfl) (by rw [registering]; rfl)

theorem callQuiet {x : Nat} (h : Option (Option Nat)) (known : s.pc x ≠ .absent ∧ p ≠ .absent)
    (waits : s.pc x ≠ .pending ∧ p ≠ .pending) (linked : p.linked = (s.pc x).linked)
    (ordinary : p.ordinary = (s.pc x).ordinary) : Quiet x p s (((s.call r func).setLock r h).move x p) := by
  obtain ⟨pc,-,reqs,list,interrupts,next,on,-⟩ := callFields s r func
  refine ⟨?_,next,list,interrupts,on,fun y => ?_,fun y _ => ?_,known,waits,linked,ordinary⟩
  · exact congrArg (Function.update · x p) pc
  · exact congrArg (fun f => (f y).unique) reqs
  · exact congrArg (fun f => (f y).u) reqs

theorem callbackQuiet (calling : s.pc r = .calling func) :
    Quiet r .held s (((s.call r func).setLock r none).move r .held) :=
  callQuiet none (by simp [calling]) (by simp [calling]) (by rw [calling]; rfl) (by rw [calling]; rfl)

theorem signalQuiet (marked : s.pc i = .marked r func) :
    Quiet i (.dropping r) s (((s.call r func).setLock r none).move i (.dropping r)) :=
  callQuiet none (by simp [marked]) (by simp [marked]) (by rw [marked]; rfl) (by rw [marked]; rfl)

theorem replyQuiet (error : Option Int) (held : s.pc r = .held) : Quiet r (.sent .ordinary) s
    ((error.elim s fun error => s.on (fuseSendReplyNofree · r error)).move r (.sent .ordinary)) := by
  cases error with
  | none => exact .only rfl rfl (by simp [held]) (by simp [held]) (by rw [held]; rfl) (by rw [held]; rfl)
  | some error =>
    exact ⟨rfl,rfl,rfl,rfl,rfl,fun _ => rfl,fun _ _ => rfl,by simp [held],by simp [held],by rw [held]; rfl,
      by rw [held]; rfl⟩

theorem putQuiet {x : Nat} {q : Req} {f : Session → Session} (put : f s.toSession = s.toSession.put r q)
    (unique : q.unique = (s.reqs r).unique) (u : q.u = (s.reqs r).u) (known : s.pc x ≠ .absent ∧ p ≠ .absent)
    (waits : s.pc x ≠ .pending ∧ p ≠ .pending) (linked : p.linked = (s.pc x).linked)
    (ordinary : p.ordinary = (s.pc x).ordinary) : Quiet x p s ((s.on f).move x p) := by
  have session : ((s.on f).move x p).toSession = s.toSession.put r q := put
  refine ⟨rfl,?_,?_,?_,?_,fun y => ?_,fun y _ => ?_,known,waits,linked,ordinary⟩
  · rw [session,putNext]
  · rw [session,putList]
  · rw [session,putInterrupts]
  · rw [session,putNoInterrupt]
  · rw [session,putReqs]
    split
    · rename_i same
      rw [unique,same]
    · rfl
  · rw [session,putReqs]
    split
    · rename_i same
      rw [u,same]
    · rfl

theorem findsQuiet (aimed : s.pc i = .aimed) : Quiet i (.found r) s ((s.on (holdReq · r)).move i (.found r)) :=
  putQuiet rfl rfl rfl (by simp [aimed]) (by simp [aimed]) (by rw [aimed]; rfl) (by rw [aimed]; rfl)

theorem duplicatesQuiet (aimed : s.pc i = .aimed) : Quiet i .duplicate s ((s.on (destroyReq · i)).move i .duplicate) :=
  putQuiet rfl rfl rfl (by simp [aimed]) (by simp [aimed]) (by rw [aimed]; rfl) (by rw [aimed]; rfl)

theorem markQuiet (found : s.pc i = .found r) : Quiet i (.marked r (s.reqs r).u) s
    (((s.on (markInterrupted · r)).setLock r (some (some i))).move i (.marked r (s.reqs r).u)) := by
  obtain ⟨pc,next,list,interrupts,on,unique,aim,-,-,-,-⟩ := putQuiet (s := s) (x := i) (p := .found r)
    (f := (markInterrupted · r)) rfl rfl rfl (by simp [found]) (by simp [found]) (by rw [found]) (by rw [found])
  exact ⟨rfl,next,list,interrupts,on,unique,aim,by simp [found],by simp [found],by rw [found]; rfl,by rw [found]; rfl⟩

theorem dropQuiet (dropping : s.pc i = .dropping r) :
    Quiet i (.matched r) s ((s.on fun t => destroyReq (unholdReq t r) i).move i (.matched r)) := by
  refine ⟨rfl,?_,?_,?_,?_,fun y => ?_,fun y _ => ?_,by simp [dropping],by simp [dropping],
    by rw [dropping]; rfl,by rw [dropping]; rfl⟩
  all_goals simp only [moveSession,onSession,destroyReq,unholdPut,putNext,putList,putInterrupts,putNoInterrupt,putReqs]
  all_goals split <;> split <;> simp_all

theorem answerQuiet (taken : s.pc i = .taken) :
    Quiet i (.sent .interrupt) s ((s.on (fuseSendReplyNofree · i (-eagain))).move i (.sent .interrupt)) :=
  ⟨rfl,rfl,rfl,rfl,rfl,fun _ => rfl,fun _ _ => rfl,by simp [taken],by simp [taken],by rw [taken]; rfl,
    by rw [taken]; rfl⟩

theorem destroyQuiet {x : Nat} {kind : Kind} (unused : s.pc x = .unused kind) :
    Quiet x (.gone kind) s ((s.on (destroyReq · x)).move x (.gone kind)) :=
  putQuiet rfl rfl rfl (by simp [unused]) (by simp [unused]) (by rw [unused]; rfl) (by rw [unused]; cases kind <;> rfl)

end quiet

theorem Places.quiet {x : Nat} {p : Pc} (places : Places s) (quiet : Quiet x p s t) : Places t := by
  have at_ (y : Nat) : t.pc y = if y = x then p else s.pc y := by
    rw [quiet.pc]
    exact Function.update_apply s.pc x p y
  constructor
  · intro y
    rw [quiet.next,places.fresh,at_]
    split
    · rename_i same
      simp [same,quiet.known]
    · rfl
  · intro y
    rw [quiet.list,places.listed,at_]
    split
    · rename_i same
      rw [same,quiet.linked]
    · rfl
  · intro y
    rw [quiet.interrupts,places.waiting,at_]
    split
    · rename_i same
      simp [same,quiet.waits]
    · rfl
  · exact quiet.list ▸ places.listOnce
  · exact quiet.interrupts ▸ places.waitOnce
  · exact quiet.on.trans places.on

theorem placesStep (places : Places s) (stepped : Stepped s t) : Places t := by
  have all := places
  obtain ⟨fresh,listed,waiting,listOnce,waitOnce,on⟩ := all
  cases stepped with
  | request unique => constructor <;> simp [fuseLlAllocReq] <;> grind [Pc.linked]
  | meets arrived waits =>
    have mem := List.mem_of_find?_eq_some waits
    constructor <;> simp [destroyReq,listAddReq] <;> grind [Pc.linked]
  | relieves arrived none first => constructor <;> simp [listAddReq] <;> grind [Pc.linked]
  | enters arrived none => constructor <;> simp [listAddReq] <;> grind [Pc.linked]
  | interrupt unique target => constructor <;> simp [setTarget,fuseLlAllocReq] <;> grind [Pc.linked]
  | waits aimed none first => constructor <;> simp [addInterrupt] <;> grind [Pc.linked]
  | free sent => constructor <;> simp [Sys.free,dropPut _ _ on] <;> grind [Pc.linked]
  | register func held free => exact places.quiet (registerQuiet held)
  | notices registering => exact places.quiet (noticesQuiet registering)
  | quiet registering => exact places.quiet (unnoticedQuiet registering)
  | callback calling => exact places.quiet (callbackQuiet calling)
  | reply error held => exact places.quiet (replyQuiet error held)
  | finds aimed found => exact places.quiet (findsQuiet aimed)
  | duplicates aimed none again => exact places.quiet (duplicatesQuiet aimed)
  | mark found free => exact places.quiet (markQuiet found)
  | signal marked => exact places.quiet (signalQuiet marked)
  | drop dropping => exact places.quiet (dropQuiet dropping)
  | answer taken => exact places.quiet (answerQuiet taken)
  | destroy unused => exact places.quiet (destroyQuiet unused)

/- Who is after whom: a unique names one ordinary request, and no two interrupts wait for one. -/
structure Aims (s : Sys) : Prop where
  distinct : ∀ x y, (s.pc x).ordinary = true → (s.pc y).ordinary = true → (s.reqs x).unique = (s.reqs y).unique → x = y
  apart : ∀ i r, s.pc i = .pending → (s.pc r).linked = true → (s.reqs i).u ≠ (s.reqs r).unique
  oneEach : ∀ i j, s.pc i = .pending → s.pc j = .pending → (s.reqs i).u = (s.reqs j).u → i = j
  aims : ∀ i r, (s.pc i).target = some r → (s.pc r).ordinary = true ∧ (s.reqs r).unique = (s.reqs i).u

theorem targetInterrupt {p : Pc} {r : Nat} (target : p.target = some r) : p.ordinary = false := by
  cases p <;> simp_all [Pc.target,Pc.ordinary]

/- A step that takes one request further and leaves alone what the others are after: a target must
fit, and a request enters the list when nobody waits for it. -/
theorem Aims.moved {x : Nat} {p : Pc} (aims : Aims s) (pc : t.pc = Function.update s.pc x p)
    (unique : ∀ y, (t.reqs y).unique = (s.reqs y).unique)
    (aim : ∀ y, s.pc y = .pending ∨ (s.pc y).target ≠ none → (t.reqs y).u = (s.reqs y).u)
    (waits : p ≠ .pending)
    (linked : p.linked = true → (s.pc x).linked = true ∨ ∀ i, i ≠ x → s.pc i = .pending →
      (s.reqs i).u ≠ (s.reqs x).unique)
    (ordinary : p.ordinary = (s.pc x).ordinary)
    (target : ∀ r, p.target = some r → (s.pc r).ordinary = true ∧ (s.reqs r).unique = (t.reqs x).u) : Aims t := by
  have at_ (y : Nat) : t.pc y = if y = x then p else s.pc y := by
    rw [pc]
    exact Function.update_apply s.pc x p y
  have ordinary (y : Nat) : (t.pc y).ordinary = (s.pc y).ordinary := by
    rw [at_]
    split
    · rename_i same
      rw [same,ordinary]
    · rfl
  have pending (y : Nat) (now : t.pc y = .pending) : y ≠ x ∧ s.pc y = .pending ∧ (t.reqs y).u = (s.reqs y).u := by
    rw [at_] at now
    split at now
    · exact absurd now waits
    · rename_i ne
      exact ⟨ne,now,aim y (.inl now)⟩
  constructor
  · intro x y ordX ordY same
    rw [ordinary] at ordX ordY
    rw [unique,unique] at same
    exact aims.distinct x y ordX ordY same
  · intro i r now list
    obtain ⟨ne,now,aim⟩ := pending i now
    rw [aim,unique]
    rw [at_] at list
    split at list
    · rename_i same
      subst same
      rcases linked list with before | missing
      · exact aims.apart i r now before
      · exact missing i ne now
    · exact aims.apart i r now list
  · intro i j waitsI waitsJ same
    obtain ⟨-,waitsI,aimI⟩ := pending i waitsI
    obtain ⟨-,waitsJ,aimJ⟩ := pending j waitsJ
    rw [aimI,aimJ] at same
    exact aims.oneEach i j waitsI waitsJ same
  · intro i r now
    rw [ordinary,unique]
    rw [at_] at now
    split at now
    · rename_i same
      exact same ▸ target r now
    · rw [aim i (.inr (by rw [now]; simp))]
      exact aims.aims i r now

theorem Aims.quiet {x : Nat} {p : Pc} (aims : Aims s) (quiet : Quiet x p s t)
    (target : ∀ r, p.target = some r → (s.pc r).ordinary = true ∧ (s.reqs r).unique = (s.reqs x).u) : Aims t := by
  refine aims.moved quiet.pc quiet.unique (fun y after => quiet.aim y ?_) quiet.waits.2
    (fun list => .inl (quiet.linked ▸ list))
    quiet.ordinary fun r found => ?_
  · rcases after with waits | aimed
    · rw [waits]
      rfl
    · obtain ⟨r,aimed⟩ := Option.ne_none_iff_exists'.mp aimed
      exact targetInterrupt aimed
  · rw [quiet.aim x (by rw [← quiet.ordinary]; exact targetInterrupt found)]
    exact target r found

theorem Aims.further {x : Nat} {p : Pc} (aims : Aims s) (quiet : Quiet x p s t)
    (target : ∀ r, p.target = some r → (s.pc x).target = some r) : Aims t :=
  aims.quiet quiet fun r found => aims.aims x r (target r found)

theorem freeFields (x : Nat) (kind : Kind) (on : s.noInterrupt = false) : ∃ p, (p = .unused kind ∨ p = .gone kind) ∧
    (s.free x kind).pc = Function.update s.pc x p ∧
    (s.free x kind).reqs = Function.update s.reqs x {s.reqs x with u := 0, refCnt := (s.reqs x).refCnt - 1} ∧
    (s.free x kind).lock = s.lock ∧ (s.free x kind).called = s.called := by
  refine ⟨_,?_,rfl,?_,rfl,rfl⟩
  · split
    · exact .inl rfl
    · exact .inr rfl
  · simp only [Sys.free,moveSession,onSession,dropPut _ _ on]
    rfl

/- What the guard of a new request says. -/
theorem unusedSource {unique x : Nat} (unused : s.unused unique = true) (known : x < s.next)
    (ordinary : (s.pc x).ordinary = true) : (s.reqs x).unique ≠ unique := by
  have all := List.all_eq_true.mp unused x (List.mem_range.mpr known)
  simpa [ordinary] using all

theorem foundSource {i r : Nat} (places : Places s) (found : interruptTarget s.toSession i = some r) :
    (s.pc r).linked = true ∧ (s.reqs r).unique = (s.reqs i).u :=
  ⟨(places.listed r).mp (List.mem_of_find?_eq_some found),by simpa using List.find?_some found⟩

theorem missedSource {i r : Nat} (places : Places s) (none : interruptTarget s.toSession i = none)
    (linked : (s.pc r).linked = true) : (s.reqs r).unique ≠ (s.reqs i).u := by
  simpa using List.find?_eq_none.mp none r ((places.listed r).mpr linked)

theorem firstSource {i j : Nat} (places : Places s) (first : interruptPending s.toSession i = false)
    (pending : s.pc j = .pending) : (s.reqs j).u ≠ (s.reqs i).u := by
  simpa using List.any_eq_false.mp first j ((places.waiting j).mpr pending)

theorem linkedOrdinary {p : Pc} (linked : p.linked = true) : p.ordinary = true := by
  unfold Pc.linked at linked
  split at linked <;> first | rfl | cases linked

theorem Aims.meets {r i : Nat} (aims : Aims s) (arrived : s.pc r = .arrived) (pending : s.pc i = .pending)
    (same : (s.reqs i).u = (s.reqs r).unique) : Aims (((s.on fun t =>
      listAddReq (destroyReq (listDelReq (t.put r {t.reqs r with interrupted := true}) i) i) r).move r
        .held).move i (.matched r)) := by
  have ne : r ≠ i := by
    rintro rfl
    rw [arrived] at pending
    cases pending
  have matched :
      Aims ((s.on fun t => destroyReq (listDelReq (t.put r {t.reqs r with interrupted := true}) i) i).move
        i (.matched r)) := by
    refine aims.moved rfl (fun y => ?_) (fun y _ => ?_) (by simp) (by simp [Pc.linked])
      (by rw [pending]; rfl) fun x found => ?_
    · simp only [moveSession,onSession,destroyReq,delReqs,putReqs]
      split <;> split <;> simp_all
    · simp only [moveSession,onSession,destroyReq,delReqs,putReqs]
      split <;> split <;> simp_all
    · cases found
      simp [arrived,Pc.ordinary,destroyReq,ne.symm,same]
  have swapped : Function.update (Function.update s.pc r .held) i (.matched r) =
      Function.update (Function.update s.pc i (.matched r)) r .held := Function.update_comm ne _ _ _
  refine matched.moved (x := r) (p := .held) swapped (fun _ => rfl) (fun _ _ => rfl) (by simp)
    (fun _ => .inr fun j _ waits alike => ?_) (by simp [ne,arrived,Pc.ordinary]) (by simp [Pc.target])
  have other : j ≠ i := by
    rintro rfl
    simp at waits
  have waiting : s.pc j = .pending := by simpa [other] using waits
  have apart : j ≠ r := by
    rintro rfl
    rw [arrived] at waiting
    cases waiting
  have alike : (s.reqs j).u = (s.reqs r).unique := by simpa [destroyReq,other,ne,apart] using alike
  exact other (aims.oneEach j i waiting pending (alike.trans same.symm))

theorem aimsStep (places : Places s) (aims : Aims s) (stepped : Stepped s t) : Aims t := by
  have on := places.on
  cases stepped with
  | request unique unused =>
    have new := fun x => unusedSource (x := x) unused
    obtain ⟨fresh,-,-,-,-,-⟩ := places
    obtain ⟨distinct,apart,oneEach,aims⟩ := aims
    constructor <;> simp [fuseLlAllocReq] <;> grind [Pc.linked,Pc.ordinary,Pc.target]
  | meets arrived waits =>
    exact aims.meets arrived ((places.waiting _).mp (List.mem_of_find?_eq_some waits))
      (by simpa using List.find?_some waits)
  | @relieves r i rest arrived none first =>
    have waits : s.pc i = .pending := (places.waiting i).mp (first ▸ List.mem_cons_self)
    have ne : i ≠ r := by
      rintro rfl
      rw [arrived] at waits
      cases waits
    have missing : ∀ j, j ≠ r → s.pc j = .pending → (s.reqs j).u ≠ (s.reqs r).unique := fun j _ pending => by
      simpa using List.find?_eq_none.mp none j ((places.waiting j).mpr pending)
    have entered : Aims ((s.on fun t => listAddReq (listDelReq t i) r).move r .held) :=
      aims.moved rfl (fun _ => rfl) (fun _ _ => rfl) (by simp) (fun _ => .inr missing)
        (by rw [arrived]; rfl) (by simp [Pc.target])
    exact entered.moved rfl (fun _ => rfl) (fun _ _ => rfl) (by simp) (by simp [Pc.linked])
      (by simp [ne,waits,Pc.ordinary])
      (by simp [Pc.target])
  | @enters r arrived none =>
    have missing : ∀ j, j ≠ r → s.pc j = .pending → (s.reqs j).u ≠ (s.reqs r).unique := fun j _ pending => by
      rw [← places.waiting,none] at pending
      cases pending
    exact aims.moved rfl (fun _ => rfl) (fun _ _ => rfl) (by simp) (fun _ => .inr missing)
      (by rw [arrived]; rfl) (by simp [Pc.target])
  | interrupt unique target =>
    obtain ⟨fresh,-,-,-,-,-⟩ := places
    obtain ⟨distinct,apart,oneEach,aims⟩ := aims
    constructor <;> simp [setTarget,fuseLlAllocReq] <;> grind [Pc.linked,Pc.ordinary,Pc.target]
  | @finds i r aimed found =>
    obtain ⟨linked,unique⟩ := foundSource places found
    refine aims.quiet (findsQuiet aimed) fun x is => ?_
    cases is
    exact ⟨linkedOrdinary linked,unique⟩
  | waits aimed none first =>
    have missed := fun r => missedSource (r := r) places none
    have alone := fun j => firstSource (j := j) places first
    obtain ⟨distinct,apart,oneEach,aims⟩ := aims
    constructor <;> simp [addInterrupt] <;> grind [Pc.linked,Pc.ordinary,Pc.target]
  | @free x kind sent =>
    obtain ⟨p,ends,pc,reqs,-⟩ := freeFields x kind on
    refine aims.moved pc (fun y => ?_) (fun y after => ?_) ?_ ?_ ?_ ?_
    · rw [reqs,Function.update_apply]
      split <;> simp [*]
    · have ne : y ≠ x := by
        rintro rfl
        simp [sent,Pc.target] at after
      rw [reqs,Function.update_of_ne ne]
    all_goals rcases ends with rfl | rfl
    all_goals simp [sent,Pc.linked,Pc.target]
    all_goals cases kind <;> rfl
  | register func held free => exact aims.further (registerQuiet held) (by simp [Pc.target])
  | notices registering => exact aims.further (noticesQuiet registering) (by simp [Pc.target])
  | quiet registering => exact aims.further (unnoticedQuiet registering) (by simp [Pc.target])
  | callback calling => exact aims.further (callbackQuiet calling) (by simp [Pc.target])
  | reply error held => exact aims.further (replyQuiet error held) (by simp [Pc.target])
  | duplicates aimed none again => exact aims.further (duplicatesQuiet aimed) (by simp [Pc.target])
  | mark found free => exact aims.further (markQuiet found) (by simp [found,Pc.target])
  | signal marked => exact aims.further (signalQuiet marked) (by simp [marked,Pc.target])
  | drop dropping => exact aims.further (dropQuiet dropping) (by simp [dropping,Pc.target])
  | answer taken => exact aims.further (answerQuiet taken) (by simp [Pc.target])
  | destroy unused => exact aims.further (destroyQuiet unused) (by simp [Pc.target])

/- A mark stays, and who is past marking has marked. -/
def Flagged (s : Sys) : Prop := ∀ i r, (s.pc i).flags = some r → (s.reqs r).interrupted = true

theorem flagsTarget {p : Pc} {r : Nat} (flags : p.flags = some r) : p.target = some r := by
  cases p <;> simp_all [Pc.flags,Pc.target]

theorem holdsTarget {p : Pc} {r : Nat} (holds : p.holds = some r) : p.target = some r := by
  cases p <;> simp_all [Pc.holds,Pc.target]

theorem targetKnown {i r : Nat} (places : Places s) (aims : Aims s) (target : (s.pc i).target = some r) :
    r < s.next := by
  have ordinary := (aims.aims i r target).1
  by_contra beyond
  rw [(places.fresh r).mp (Nat.le_of_not_lt beyond)] at ordinary
  cases ordinary

theorem Flagged.moved {x : Nat} {p : Pc} (flagged : Flagged s) (pc : t.pc = Function.update s.pc x p)
    (kept : ∀ r, (s.reqs r).interrupted = true → (t.reqs r).interrupted = true)
    (flags : ∀ r, p.flags = some r → (s.pc x).flags = some r) : Flagged t := by
  intro i r marked
  rw [pc,Function.update_apply] at marked
  split at marked
  · rename_i same
    exact kept r (flagged i r (same ▸ flags r marked))
  · exact kept r (flagged i r marked)

theorem markKept {x : Nat} {q : Req} (put : t.toSession = s.toSession.put x q)
    (same : q.interrupted = (s.reqs x).interrupted) (r : Nat) (set : (s.reqs r).interrupted = true) :
    (t.reqs r).interrupted = true := by
  rw [put,putReqs]
  split <;> simp_all

theorem flaggedStep (places : Places s) (aims : Aims s) (flagged : Flagged s) (stepped : Stepped s t) : Flagged t := by
  have on := places.on
  cases stepped with
  | request unique unused =>
    have known : ∀ i r, (s.pc i).flags = some r → r < s.next :=
      fun i r flags => targetKnown places aims (flagsTarget flags)
    unfold Flagged at *
    simp [fuseLlAllocReq]; grind [Pc.flags]
  | interrupt unique target =>
    have known : ∀ i r, (s.pc i).flags = some r → r < s.next :=
      fun i r flags => targetKnown places aims (flagsTarget flags)
    unfold Flagged at *
    simp [setTarget,fuseLlAllocReq]; grind [Pc.flags]
  | meets arrived waits => unfold Flagged at *; simp [destroyReq,listAddReq]; grind [Pc.flags]
  | relieves arrived none first => unfold Flagged at *; simp [listAddReq]; grind [Pc.flags]
  | mark found free => unfold Flagged at *; simp [markInterrupted] ; grind [Pc.flags]
  | enters arrived none => exact flagged.moved rfl (fun r set => set) (by simp [Pc.flags])
  | register func held free => exact flagged.moved rfl (markKept rfl rfl) (by simp [Pc.flags])
  | notices registering => exact flagged.moved rfl (fun r set => set) (by simp [Pc.flags])
  | quiet registering => exact flagged.moved rfl (fun r set => set) (by simp [Pc.flags])
  | @callback r func calling =>
    obtain ⟨pc,-,reqs,-⟩ := callFields s r func
    exact flagged.moved (congrArg (Function.update · r _) pc)
      (fun r set => (congrArg (fun f => (f r).interrupted) reqs).trans set)
      (by simp [Pc.flags])
  | reply error held => cases error <;> exact flagged.moved rfl (fun r set => set) (by simp [Pc.flags])
  | finds aimed found => exact flagged.moved rfl (markKept rfl rfl) (by simp [Pc.flags])
  | duplicates aimed none again => exact flagged.moved rfl (markKept rfl rfl) (by simp [Pc.flags])
  | waits aimed none first => exact flagged.moved rfl (fun r set => set) (by simp [Pc.flags])
  | @signal i r func marked =>
    obtain ⟨pc,-,reqs,-⟩ := callFields s r func
    exact flagged.moved (congrArg (Function.update · i _) pc)
      (fun r set => (congrArg (fun f => (f r).interrupted) reqs).trans set)
      (by simp [marked,Pc.flags])
  | drop dropping =>
    refine flagged.moved rfl (fun r set => ?_) (by simp [dropping,Pc.flags])
    simp only [moveSession,onSession,destroyReq,unholdPut,putReqs]
    split <;> split <;> simp_all
  | answer taken => exact flagged.moved rfl (fun r set => set) (by simp [Pc.flags])
  | @free x kind sent =>
    obtain ⟨p,ends,pc,reqs,-⟩ := freeFields x kind on
    refine flagged.moved pc (fun r set => ?_) (by rcases ends with rfl | rfl <;> simp [Pc.flags])
    rw [reqs,Function.update_apply]
    split <;> simp_all
  | destroy unused => exact flagged.moved rfl (markKept rfl rfl) (by simp [Pc.flags])

/- The lock of a request is with whoever runs its function, and a marked request's function is
called now or when the handler sees the mark. A request that was answered has no function. -/
structure Called (s : Sys) : Prop where
  handler : ∀ r func, (s.pc r).registers = some func → s.lock r = some none ∧ (s.reqs r).u = func
  marker : ∀ i r func, s.pc i = .marked r func → s.lock r = some (some i) ∧ ((s.reqs r).u = func ∨ (s.reqs r).u = 0)
  bare : ∀ r, s.pc r = .arrived ∨ s.pc r = .unused .ordinary ∨ s.pc r = .gone .ordinary → (s.reqs r).u = 0
  called : ∀ r, (s.pc r).ordinary = true → (s.reqs r).interrupted = true → (s.reqs r).u ≠ 0 →
    s.called r = true ∨ (s.pc r).registers ≠ none ∨ ∃ i, s.pc i = .marked r (s.reqs r).u

theorem Called.moved {x : Nat} {p : Pc} (before : Called s) (pc : t.pc = Function.update s.pc x p)
    (lock : t.lock = s.lock) (calls : t.called = s.called)
    (mark : ∀ y, (t.reqs y).interrupted = (s.reqs y).interrupted ∨ (t.reqs y).u = 0)
    (func : ∀ y, (t.reqs y).u = (s.reqs y).u ∨ (t.reqs y).u = 0 ∧ (s.pc y).registers = none)
    (registers : p.registers = (s.pc x).registers) (ordinary : p.ordinary = true → (s.pc x).ordinary = true)
    (unmarked : ∀ r g, p ≠ .marked r g ∧ s.pc x ≠ .marked r g)
    (bare : p = .arrived ∨ p = .unused .ordinary ∨ p = .gone .ordinary → (t.reqs x).u = 0) : Called t := by
  have at_ (y : Nat) : t.pc y = if y = x then p else s.pc y := by
    rw [pc]
    exact Function.update_apply s.pc x p y
  have same (y : Nat) : (t.pc y).registers = (s.pc y).registers := by
    rw [at_]
    split
    · rename_i here
      rw [here,registers]
    · rfl
  constructor
  · intro r g now
    rw [same] at now
    obtain ⟨holder,is⟩ := before.handler r g now
    rcases func r with kept | ⟨-,none⟩
    · exact ⟨lock ▸ holder,kept.trans is⟩
    · rw [none] at now
      cases now
  · intro i r g now
    rw [at_] at now
    split at now
    · exact absurd now (unmarked r g).1
    · obtain ⟨holder,is⟩ := before.marker i r g now
      refine ⟨lock ▸ holder,?_⟩
      rcases func r with kept | ⟨zero,-⟩
      · rwa [kept]
      · exact .inr zero
  · intro r ends
    rw [at_] at ends
    split at ends
    · rename_i here
      exact here ▸ bare ends
    · have zero := before.bare r ends
      rcases func r with kept | ⟨zero,-⟩
      · exact kept.trans zero
      · exact zero
  · intro r now marked some
    have was : (s.pc r).ordinary = true := by
      rw [at_] at now
      split at now
      · rename_i here
        exact here ▸ ordinary now
      · exact now
    have kept := (func r).resolve_right fun zero => some zero.1
    rw [(mark r).resolve_right some] at marked
    rw [kept] at some ⊢
    rw [calls,same]
    refine (before.called r was marked some).imp_right (Or.imp_right fun ⟨i,marks⟩ => ⟨i,?_⟩)
    rw [at_,if_neg]
    · exact marks
    · rintro rfl
      exact (unmarked r _).2 marks

theorem Called.put {x r : Nat} {p : Pc} {q : Req} (before : Called s) (pc : t.pc = Function.update s.pc x p)
    (lock : t.lock = s.lock) (calls : t.called = s.called) (put : t.toSession = s.toSession.put r q)
    (u : q.u = (s.reqs r).u) (mark : q.interrupted = (s.reqs r).interrupted)
    (registers : p.registers = (s.pc x).registers) (ordinary : p.ordinary = true → (s.pc x).ordinary = true)
    (unmarked : ∀ r g, p ≠ .marked r g ∧ s.pc x ≠ .marked r g)
    (bare : p = .arrived ∨ p = .unused .ordinary ∨ p = .gone .ordinary → (s.reqs x).u = 0) : Called t := by
  have func (y : Nat) : (t.reqs y).u = (s.reqs y).u := by
    rw [put,putReqs]
    split <;> simp [*]
  refine before.moved pc lock calls (fun y => .inl ?_) (fun y => .inl (func y)) registers ordinary unmarked fun ends =>
    (func x).trans (bare ends)
  rw [put,putReqs]
  split <;> simp [*]

theorem Called.register {r func : Nat} (before : Called s) (held : s.pc r = .held) (free : s.lock r = none) :
    Called (s.register r func) := by
  obtain ⟨handler,marker,bare,called⟩ := before
  constructor <;> simp [Sys.register,setFunc] <;> grind [Pc.registers,Pc.ordinary]

theorem Called.mark {i r : Nat} (before : Called s) (found : s.pc i = .found r) (free : s.lock r = none) :
    Called (((s.on (markInterrupted · r)).setLock r (some (some i))).move i (.marked r (s.reqs r).u)) := by
  obtain ⟨handler,marker,bare,called⟩ := before
  constructor <;> simp [markInterrupted] <;> grind [Pc.registers,Pc.ordinary]

/- The handler has the lock, so no interrupt is between its mark and its call. -/
theorem Called.callback {r func : Nat} (before : Called s) (calling : s.pc r = .calling func) :
    Called (((s.call r func).setLock r none).move r .held) := by
  obtain ⟨handler,marker,bare,called⟩ := before
  have mine := handler r func (by rw [calling]; rfl)
  have alone : ∀ i g, s.pc i ≠ .marked r g := fun i g marked => by simpa [mine.1] using (marker i r g marked).1
  by_cases zero : func = 0
  · constructor <;> simp [Sys.call,zero] <;> grind [Pc.registers,Pc.ordinary]
  · constructor <;> simp [Sys.call,callFunc,zero] <;> grind [Pc.registers,Pc.ordinary]

/- The interrupt has the lock, so neither the handler nor another interrupt is at work. -/
theorem Called.signal {i r func : Nat} (before : Called s) (marked : s.pc i = .marked r func) :
    Called (((s.call r func).setLock r none).move i (.dropping r)) := by
  obtain ⟨handler,marker,bare,called⟩ := before
  have mine := marker i r func marked
  have quiet : (s.pc r).registers = none := by
    cases registers : (s.pc r).registers with
    | none => rfl
    | some g => simpa [mine.1] using (handler r g registers).1
  have alone : ∀ j g, s.pc j = .marked r g → j = i := fun j g marked => by
    have other := (marker j r g marked).1
    rw [mine.1] at other
    simpa using other.symm
  by_cases zero : func = 0
  · constructor <;> simp [Sys.call,zero] <;> grind [Pc.registers,Pc.ordinary]
  · constructor <;> simp [Sys.call,callFunc,zero] <;> grind [Pc.registers,Pc.ordinary]

theorem calledStep (places : Places s) (aims : Aims s) (called : Called s) (stepped : Stepped s t) : Called t := by
  have on := places.on
  have before := called
  obtain ⟨handler,marker,bare,called⟩ := called
  cases stepped with
  | request unique unused =>
    have fresh := places.fresh
    have target := aims.aims
    constructor <;> simp [fuseLlAllocReq] <;> grind [Pc.registers,Pc.ordinary,Pc.target]
  | interrupt unique target =>
    have fresh := places.fresh
    have target := aims.aims
    constructor <;> simp [setTarget,fuseLlAllocReq] <;> grind [Pc.registers,Pc.ordinary,Pc.target]
  | @meets r i arrived waits =>
    have pending := (places.waiting i).mp (List.mem_of_find?_eq_some waits)
    have ne : i ≠ r := by
      rintro rfl
      rw [arrived] at pending
      cases pending
    have bareR := bare r (.inl arrived)
    have entered : Called ((s.on fun t =>
        listAddReq (destroyReq (listDelReq (t.put r {t.reqs r with interrupted := true}) i) i) r).move r .held) := by
      refine before.moved rfl rfl rfl (fun y => ?_) (fun y => .inl ?_) (by rw [arrived]; rfl)
        (by simp [arrived,Pc.ordinary])
        (by simp [arrived]) (by simp)
      all_goals simp only [moveSession,onSession,listAddReq,destroyReq,delReqs,putReqs]
      all_goals by_cases mine : y = i
      all_goals by_cases its : y = r
      all_goals simp_all
    refine entered.moved rfl rfl rfl (fun _ => .inl rfl) (fun _ => .inl rfl) ?_ (by simp [Pc.ordinary]) ?_ (by simp)
    all_goals simp [ne,pending,Pc.registers]
  | @relieves r i rest arrived none first =>
    have waits : s.pc i = .pending := (places.waiting i).mp (first ▸ List.mem_cons_self)
    have ne : i ≠ r := by
      rintro rfl
      rw [arrived] at waits
      cases waits
    have entered : Called ((s.on fun t => listAddReq (listDelReq t i) r).move r .held) :=
      before.moved rfl rfl rfl (fun _ => .inl rfl) (fun _ => .inl rfl) (by rw [arrived]; rfl)
        (by simp [arrived,Pc.ordinary])
        (by simp [arrived]) (by simp)
    have waits : ((s.on fun t => listAddReq (listDelReq t i) r).move r .held).pc i = .pending := by simp [ne,waits]
    exact entered.moved rfl rfl rfl (fun _ => .inl rfl) (fun _ => .inl rfl) (by rw [waits]; rfl) (by simp [Pc.ordinary])
      (by rw [waits]; simp) (by simp)
  | enters arrived none =>
    exact before.moved rfl rfl rfl (fun _ => .inl rfl) (fun _ => .inl rfl) (by rw [arrived]; rfl)
      (by simp [arrived,Pc.ordinary])
      (by simp [arrived]) (by simp)
  | register func held free => exact before.register held free
  | notices registering =>
    exact before.moved rfl rfl rfl (fun _ => .inl rfl) (fun _ => .inl rfl) (by rw [registering]; rfl)
      (by simp [registering,Pc.ordinary]) (by simp [registering]) (by simp)
  | quiet registering => constructor <;> simp <;> grind [Pc.registers,Pc.ordinary]
  | reply error held =>
    cases error with
    | none =>
      exact before.moved rfl rfl rfl (fun _ => .inl rfl) (fun _ => .inl rfl) (by rw [held]; rfl)
        (by simp [held,Pc.ordinary])
        (by simp [held]) (by simp)
    | some error =>
      exact before.moved rfl rfl rfl (fun _ => .inl rfl) (fun _ => .inl rfl) (by rw [held]; rfl)
        (by simp [held,Pc.ordinary])
        (by simp [held]) (by simp)
  | finds aimed found =>
    exact before.put rfl rfl rfl rfl rfl rfl (by rw [aimed]; rfl) (by simp [Pc.ordinary]) (by simp [aimed]) (by simp)
  | duplicates aimed none again =>
    exact before.put rfl rfl rfl rfl rfl rfl (by rw [aimed]; rfl) (by simp [Pc.ordinary]) (by simp [aimed]) (by simp)
  | waits aimed none first =>
    exact before.moved rfl rfl rfl (fun _ => .inl rfl) (fun _ => .inl rfl) (by rw [aimed]; rfl) (by simp [Pc.ordinary])
      (by simp [aimed]) (by simp)
  | mark found free => exact before.mark found free
  | drop dropping =>
    refine before.moved rfl rfl rfl (fun y => .inl ?_) (fun y => .inl ?_) (by rw [dropping]; rfl)
      (by simp [Pc.ordinary])
      (by simp [dropping]) (by simp)
    all_goals simp only [moveSession,onSession,destroyReq,unholdPut,putReqs]
    all_goals split <;> split <;> simp_all
  | answer taken =>
    exact before.moved rfl rfl rfl (fun _ => .inl rfl) (fun _ => .inl rfl) (by rw [taken]; rfl) (by simp [Pc.ordinary])
      (by simp [taken]) (by simp)
  | @free x kind sent =>
    obtain ⟨p,ends,pc,reqs,lock,calls⟩ := freeFields x kind on
    refine before.moved pc lock calls (fun y => .inl ?_) (fun y => ?_) ?_ ?_ ?_ fun _ =>
      by rw [reqs,Function.update_self]
    · rw [reqs,Function.update_apply]
      split <;> simp_all
    · rw [reqs,Function.update_apply]
      split
      · rename_i here
        exact .inr ⟨rfl,by rw [here,sent]; rfl⟩
      · exact .inl rfl
    all_goals rcases ends with rfl | rfl
    all_goals simp [sent,Pc.registers]
    all_goals cases kind <;> simp [Pc.ordinary]
  | @destroy x kind unused =>
    refine before.put rfl rfl rfl rfl rfl rfl (by rw [unused]; rfl) ?_ (by simp [unused]) fun ends => bare x ?_
    · cases kind <;> simp [unused,Pc.ordinary]
    · cases kind <;> simp_all
  | callback calling => exact before.callback calling
  | signal marked => exact before.signal marked

end FuseStudy.LlMatching
