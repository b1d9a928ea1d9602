import FuseStudy.LlMatching

/-! The references of requests, the answers to interrupts, and every run of the interrupt protocol. -/
namespace FuseStudy.LlDisposal
open LlRequest LlInterrupt LlMatching

variable {s t : Sys}

def holders (s : Sys) (r : Nat) : Finset Nat := (Finset.range s.next).filter fun i => (s.pc i).holds = some r

theorem memHolders {i r : Nat} (places : Places s) : i ∈ holders s r ↔ (s.pc i).holds = some r := by
  simp only [holders,Finset.mem_filter,Finset.mem_range,and_iff_right_iff_imp]
  intro holds
  by_contra beyond
  rw [(places.fresh i).mp (Nat.le_of_not_lt beyond)] at holds
  cases holds

theorem holdersSame {r : Nat} (places : Places s) (places' : Places t)
    (same : ∀ i, (t.pc i).holds = some r ↔ (s.pc i).holds = some r) : holders t r = holders s r := by
  ext i
  rw [memHolders places',memHolders places,same]

theorem holdersMoved {x : Nat} {p : Pc} (pc : t.pc = Function.update s.pc x p) (next : t.next = s.next)
    (holds : p.holds = (s.pc x).holds) (r : Nat) : holders t r = holders s r := by
  unfold holders
  rw [next]
  refine Finset.filter_congr fun i _ => ?_
  rw [pc,Function.update_apply]
  split
  · rename_i same
    rw [same,holds]
  · rfl

def own : Pc → Int
  | .unused _ | .gone _ => 0
  | _ => 1

def destroyed (alone : Bool) : Pc → Nat
  | .matched _ | .duplicate => 1
  | .gone _ => if alone then 1 else 0
  | _ => 0

structure Counted (s : Sys) : Prop where
  count : ∀ x, x < s.next → (s.reqs x).refCnt = own (s.pc x) + (holders s x).card
  freed : ∀ x, x < s.next → (s.reqs x).freed = destroyed (decide (holders s x = ∅)) (s.pc x)
  alone : ∀ x kind, s.pc x = .unused kind → holders s x = ∅

theorem Counted.moved {x : Nat} {p : Pc} (counted : Counted s) (pc : t.pc = Function.update s.pc x p)
    (next : t.next = s.next) (holds : p.holds = (s.pc x).holds)
    (others : ∀ y, y ≠ x → (t.reqs y).refCnt = (s.reqs y).refCnt ∧ (t.reqs y).freed = (s.reqs y).freed)
    (refs : (t.reqs x).refCnt + own (s.pc x) = (s.reqs x).refCnt + own p)
    (freed : x < s.next →
      (t.reqs x).freed + destroyed (decide (holders s x = ∅))
        (s.pc x) = (s.reqs x).freed + destroyed (decide (holders s x = ∅)) p)
    (unused : ∀ kind, p = .unused kind → holders s x = ∅) : Counted t := by
  have same := holdersMoved pc next holds
  have here : t.pc x = p := by rw [pc,Function.update_self]
  have there {y : Nat} (ne : y ≠ x) : t.pc y = s.pc y := by rw [pc,Function.update_of_ne ne]
  constructor
  · intro y known
    rw [next] at known
    have before := counted.count y known
    rw [same]
    by_cases mine : y = x
    · subst mine
      rw [here]
      omega
    · rw [there mine,(others y mine).1]
      exact before
  · intro y known
    rw [next] at known
    have before := counted.freed y known
    rw [same]
    by_cases mine : y = x
    · subst mine
      have freed := freed known
      rw [here]
      omega
    · rw [there mine,(others y mine).2]
      exact before
  · intro y kind at_
    rw [same]
    by_cases mine : y = x
    · subst mine
      exact unused kind (here.symm.trans at_)
    · exact counted.alone y kind (there mine ▸ at_)

theorem Counted.still {x : Nat} {p : Pc} (counted : Counted s) (pc : t.pc = Function.update s.pc x p)
    (next : t.next = s.next)
    (reqs : ∀ y, (t.reqs y).refCnt = (s.reqs y).refCnt ∧ (t.reqs y).freed = (s.reqs y).freed)
    (holds : p.holds = (s.pc x).holds) (owns : own p = own (s.pc x))
    (ends : ∀ b, destroyed b p = destroyed b (s.pc x)) (unused : ∀ kind, p ≠ .unused kind) : Counted t := by
  refine counted.moved pc next holds (fun y _ => reqs y) ?_ (fun _ => ?_) (fun kind is => absurd is (unused kind))
  · rw [(reqs x).1,owns]
  · rw [(reqs x).2,ends]

theorem Counted.allocated {p : Pc} (counted : Counted s) (none : holders s s.next = ∅)
    (pc : t.pc = Function.update s.pc s.next p) (next : t.next = s.next + 1)
    (others : ∀ y, y ≠ s.next → (t.reqs y).refCnt = (s.reqs y).refCnt ∧ (t.reqs y).freed = (s.reqs y).freed)
    (refs : (t.reqs s.next).refCnt = 1) (freed : (t.reqs s.next).freed = 0) (holds : p.holds = .none)
    (owns : own p = 1) (ends : ∀ b, destroyed b p = 0) (unused : ∀ kind, p ≠ .unused kind) : Counted t := by
  have same (r : Nat) : holders t r = holders s r := by
    unfold holders
    rw [next,Finset.range_add_one,Finset.filter_insert,pc,Function.update_self,holds,if_neg (by simp)]
    refine Finset.filter_congr fun i inside => ?_
    rw [Function.update_of_ne (Nat.ne_of_lt (Finset.mem_range.mp inside))]
  have here : t.pc s.next = p := by rw [pc,Function.update_self]
  have there {y : Nat} (ne : y ≠ s.next) : t.pc y = s.pc y := by rw [pc,Function.update_of_ne ne]
  constructor
  · intro y known
    rw [same]
    by_cases mine : y = s.next
    · rw [mine,here,none,refs,owns]
      rfl
    · rw [there mine,(others y mine).1]
      exact counted.count y (by omega)
  · intro y known
    rw [same]
    by_cases mine : y = s.next
    · rw [mine,here,freed,ends]
    · rw [there mine,(others y mine).2]
      exact counted.freed y (by omega)
  · intro y kind at_
    by_cases mine : y = s.next
    · rw [mine,here] at at_
      exact absurd at_ (unused kind)
    · rw [same]
      exact counted.alone y kind (there mine ▸ at_)

theorem putCounts {x : Nat} {q : Req} (put : t.reqs = Function.update s.reqs x q)
    (refs : q.refCnt = (s.reqs x).refCnt) (freed : q.freed = (s.reqs x).freed) (y : Nat) :
    (t.reqs y).refCnt = (s.reqs y).refCnt ∧ (t.reqs y).freed = (s.reqs y).freed := by
  rw [put,Function.update_apply]
  split <;> simp [*]

theorem holderless {x : Nat} (aims : Aims s) (places : Places s) (other : (s.pc x).ordinary = false) :
    holders s x = ∅ := by
  ext i
  rw [memHolders places]
  constructor
  · intro holds
    rw [(aims.aims i x (holdsTarget holds)).1] at other
    cases other
  · exact fun mem => absurd mem (Finset.notMem_empty i)

theorem linkedOwn {p : Pc} (linked : p.linked = true) :
    own p = 1 ∧ (∀ b, destroyed b p = 0) ∧ ∀ kind, p ≠ .unused kind := by
  cases p <;> simp_all [Pc.linked,own,destroyed]

theorem Counted.frees {x : Nat} {kind : Kind} (places : Places s) (before : Counted s) (sent : s.pc x = .sent kind) :
    Counted (s.free x kind) := by
  have on := places.on
  have known : x < s.next := by
    by_contra beyond
    rw [(places.fresh x).mp (Nat.le_of_not_lt beyond)] at sent
    cases sent
  have refs := before.count x known
  rw [sent] at refs
  -- the last reference makes it unused
  have last : (s.reqs x).refCnt - 1 = 0 ↔ holders s x = ∅ := by
    rw [← Finset.card_eq_zero]
    simp only [own] at refs
    omega
  have fields :
      (s.free x kind).reqs = Function.update s.reqs x {s.reqs x with u := 0, refCnt := (s.reqs x).refCnt - 1} := by
    simp only [Sys.free,moveSession,onSession,dropPut _ _ on]
    rfl
  have ends : ((s.on (dropReq · x)).reqs x).refCnt = 0 ↔ holders s x = ∅ := by
    rw [← last,onSession,dropPut _ _ on,putReqs,if_pos rfl]
  refine before.moved (x := x) rfl (by simp [Sys.free,dropPut _ _ on]) ?_ (fun y other => ?_) ?_
    (fun _ => ?_) fun k is => ?_
  · rw [sent]
    split <;> rfl
  · rw [fields,Function.update_of_ne other]
    exact ⟨rfl,rfl⟩
  · rw [fields,Function.update_self,sent]
    split <;> simp [own]
  · rw [fields,Function.update_self,sent]
    split
    · simp [destroyed]
    · rename_i some
      simp [destroyed,mt ends.mpr some]
  · split at is
    · exact ends.mp ‹_›
    · cases is

theorem Counted.finds {i r : Nat} (places : Places s) (counted : Counted s) (aimed : s.pc i = .aimed)
    (found : interruptTarget s.toSession i = some r) (places' : Places ((s.on (holdReq · r)).move i (.found r))) :
    Counted ((s.on (holdReq · r)).move i (.found r)) := by
  have same {x : Nat} := holdersSame (r := x) places places'
  obtain ⟨count,freed,alone⟩ := counted
  have more : holders ((s.on (holdReq · r)).move i (.found r)) r = insert i (holders s r) := by
    ext j
    rw [memHolders places',Finset.mem_insert,memHolders places]
    simp [holdReq]
    grind [Pc.holds]
  have others : ∀ x, x ≠ r → holders ((s.on (holdReq · r)).move i (.found r)) x = holders s x :=
    fun x ne => same (by simp [holdReq]; grind [Pc.holds])
  have new : i ∉ holders s r := by
    rw [memHolders places,aimed]
    simp [Pc.holds]
  obtain ⟨one,alive,kept⟩ := linkedOwn (foundSource places found).1
  have larger := Finset.card_insert_of_notMem new
  have other : r ≠ i := by
    rintro rfl
    have linked := (foundSource places found).1
    rw [aimed] at linked
    cases linked
  constructor
  · intro x
    by_cases ne : x = r
    · subst ne
      rw [more,larger]
      simp [holdReq,other,one]
      grind
    · rw [others x ne]
      simp [holdReq,ne]
      grind [own]
  · intro x
    by_cases ne : x = r
    · subst ne
      rw [more]
      simp [holdReq,other,alive]
      grind
    · rw [others x ne]
      simp [holdReq,ne]
      grind [destroyed]
  · intro x kind unused
    by_cases ne : x = r
    · subst ne
      simp [other,kept] at unused
    · rw [others x ne]
      refine alone x kind ?_
      simp only [movePc,onPc] at unused
      split at unused
      · cases unused
      · exact unused

theorem Counted.drops {i r : Nat} (places : Places s) (aims : Aims s) (counted : Counted s)
    (dropping : s.pc i = .dropping r)
    (places' : Places ((s.on fun t => destroyReq (unholdReq t r) i).move i (.matched r))) :
    Counted ((s.on fun t => destroyReq (unholdReq t r) i).move i (.matched r)) := by
  have same {x : Nat} := holdersSame (r := x) places places'
  obtain ⟨count,freed,alone⟩ := counted
  have fewer : holders ((s.on fun t => destroyReq (unholdReq t r) i).move i (.matched r)) r =
      (holders s r).erase i := by
    ext j
    rw [memHolders places',Finset.mem_erase,memHolders places]
    simp [unholdPut,destroyReq]
    grind [Pc.holds]
  have others : ∀ x, x ≠ r →
      holders ((s.on fun t => destroyReq (unholdReq t r) i).move i (.matched r)) x = holders s x :=
    fun x ne => same (by simp [unholdPut,destroyReq]; grind [Pc.holds])
  have mem : i ∈ holders s r := by
    rw [memHolders places,dropping]
    simp [Pc.holds]
  have ordinary := (aims.aims i r (by rw [dropping]; rfl)).1
  have other : r ≠ i := by
    rintro rfl
    rw [dropping] at ordinary
    cases ordinary
  have some : holders s r ≠ ∅ := Finset.ne_empty_of_mem mem
  have smaller := Finset.card_erase_add_one mem
  have last : (holders s r).card = 1 ↔ (holders s r).erase i = ∅ := by
    rw [← Finset.card_eq_zero]
    omega
  have known := targetKnown places aims (i := i) (r := r) (by rw [dropping]; rfl)
  have atR := count r known
  have freedR := freed r known
  have notUnused : ∀ kind, s.pc r ≠ .unused kind := fun kind unused => some (alone r kind unused)
  constructor
  · intro x
    by_cases ne : x = r
    · subst ne
      rw [fewer]
      simp [unholdPut,destroyReq,other]
      omega
    · rw [others x ne]
      simp [unholdPut,destroyReq,ne]
      grind [own]
  · intro x
    by_cases ne : x = r
    · subst ne
      rw [fewer]
      simp only [moveSession,onSession,unholdPut,destroyReq,putReqs,putNext,movePc,onPc,if_neg other,if_true,freedR]
      intro _
      rw [decide_eq_false some]
      cases at_ : s.pc x with
      | gone kind =>
        rw [at_] at atR
        simp only [own] at atR
        have only : (s.reqs x).refCnt = 1 ↔ (holders s x).erase i = ∅ := by
          rw [← last]
          omega
        simp [destroyed,only]
      | unused kind => exact absurd at_ (notUnused kind)
      | _ =>
        rw [at_] at atR
        simp only [own] at atR
        rw [if_neg (by omega)]
        rfl
    · rw [others x ne]
      simp [unholdPut,destroyReq,ne]
      grind [destroyed]
  · intro x kind unused
    by_cases ne : x = r
    · subst ne
      simp [other,notUnused] at unused
    · rw [others x ne]
      refine alone x kind ?_
      simp only [movePc,onPc] at unused
      split at unused
      · cases unused
      · exact unused

theorem countedStep (places : Places s) (aims : Aims s) (before : Counted s) (stepped : Stepped s t) : Counted t := by
  have places' := placesStep places stepped
  have none := fun x => holderless (x := x) aims places
  have fresh : s.pc s.next = .absent := (places.fresh s.next).mp (Nat.le_refl _)
  cases stepped with
  | request unique unused =>
    exact before.allocated (none s.next (by rw [fresh]; rfl)) rfl rfl (fun y ne => by simp [fuseLlAllocReq,ne])
      (by simp [fuseLlAllocReq]) (by simp [fuseLlAllocReq]) rfl rfl (fun _ => rfl) (by simp)
  | interrupt unique target =>
    exact before.allocated (none s.next (by rw [fresh]; rfl)) rfl rfl
      (fun y ne => by simp [setTarget,fuseLlAllocReq,ne])
      (by simp [setTarget,fuseLlAllocReq]) (by simp [setTarget,fuseLlAllocReq]) rfl rfl (fun _ => rfl) (by simp)
  | @meets r i arrived waits =>
    have pending := (places.waiting i).mp (List.mem_of_find?_eq_some waits)
    have ne : i ≠ r := by
      rintro rfl
      rw [arrived] at pending
      cases pending
    have entered :
        Counted ((s.on fun t =>
          listAddReq (listDelReq (t.put r {t.reqs r with interrupted := true}) i) r).move r .held) :=
      before.still rfl rfl (putCounts rfl rfl rfl) (by rw [arrived]; rfl) (by rw [arrived]; rfl)
        (fun b => by rw [arrived]; rfl) (by simp)
    refine entered.moved rfl rfl ?_ (fun y other => ?_) ?_ (fun _ => ?_) (by simp)
    · simp [ne,pending,Pc.holds]
    · simp [destroyReq,listAddReq,other]
    · simp [destroyReq,listAddReq,ne,pending,own]
    · simp [destroyReq,listAddReq,ne,pending,destroyed]
  | @relieves r i rest arrived none first =>
    have pending : s.pc i = .pending := (places.waiting i).mp (first ▸ List.mem_cons_self)
    have ne : i ≠ r := by
      rintro rfl
      rw [arrived] at pending
      cases pending
    have entered : Counted ((s.on fun t => listAddReq (listDelReq t i) r).move r .held) :=
      before.still rfl rfl (fun _ => ⟨rfl,rfl⟩) (by rw [arrived]; rfl) (by rw [arrived]; rfl)
        (fun b => by rw [arrived]; rfl) (by simp)
    refine entered.still rfl rfl (fun _ => ⟨rfl,rfl⟩) ?_ ?_ (fun b => ?_) (by simp)
    all_goals simp [ne,pending,Pc.holds,own,destroyed]
  | enters arrived none =>
    exact before.still rfl rfl (fun _ => ⟨rfl,rfl⟩) (by rw [arrived]; rfl) (by rw [arrived]; rfl)
      (fun b => by rw [arrived]; rfl) (by simp)
  | register func held free =>
    exact before.still rfl rfl (putCounts rfl rfl rfl) (by rw [held]; rfl) (by rw [held]; rfl)
      (fun b => by rw [held]; rfl) (by simp)
  | notices registering =>
    exact before.still rfl rfl (fun _ => ⟨rfl,rfl⟩) (by rw [registering]; rfl) (by rw [registering]; rfl)
      (fun b => by rw [registering]; rfl) (by simp)
  | quiet registering =>
    exact before.still rfl rfl (fun _ => ⟨rfl,rfl⟩) (by rw [registering]; rfl) (by rw [registering]; rfl)
      (fun b => by rw [registering]; rfl) (by simp)
  | @callback r func calling =>
    obtain ⟨pc,-,reqs,-,-,next,-⟩ := callFields s r func
    exact before.still (congrArg (Function.update · r _) pc) next
      (fun y => ⟨congrArg (fun f => (f y).refCnt) reqs,congrArg (fun f => (f y).freed) reqs⟩)
      (by rw [calling]; rfl) (by rw [calling]; rfl) (fun b => by rw [calling]; rfl) (by simp)
  | reply error held =>
    cases error <;> exact before.still rfl rfl (fun _ => ⟨rfl,rfl⟩) (by rw [held]; rfl) (by rw [held]; rfl)
      (fun b => by rw [held]; rfl) (by simp)
  | @duplicates i aimed none again =>
    refine before.moved rfl rfl (by rw [aimed]; rfl)
      (fun y other => by simp [destroyReq,other]) ?_ (fun _ => ?_) (by simp)
    · simp [destroyReq,aimed,own]
    · simp [destroyReq,aimed,destroyed]
  | waits aimed none first =>
    exact before.still rfl rfl (fun _ => ⟨rfl,rfl⟩) (by rw [aimed]; rfl) (by rw [aimed]; rfl)
      (fun b => by rw [aimed]; rfl) (by simp)
  | mark found free =>
    exact before.still rfl rfl (putCounts rfl rfl rfl) (by rw [found]; rfl) (by rw [found]; rfl)
      (fun b => by rw [found]; rfl) (by simp)
  | @signal i r func marked =>
    obtain ⟨pc,-,reqs,-,-,next,-⟩ := callFields s r func
    exact before.still (congrArg (Function.update · i _) pc) next
      (fun y => ⟨congrArg (fun f => (f y).refCnt) reqs,congrArg (fun f => (f y).freed) reqs⟩)
      (by rw [marked]; rfl) (by rw [marked]; rfl) (fun b => by rw [marked]; rfl) (by simp)
  | answer taken =>
    exact before.still rfl rfl (fun _ => ⟨rfl,rfl⟩) (by rw [taken]; rfl) (by rw [taken]; rfl)
      (fun b => by rw [taken]; rfl) (by simp)
  | free sent => exact before.frees places sent
  | @destroy x kind unused =>
    refine before.moved rfl rfl (by rw [unused]; rfl)
      (fun y other => by simp [destroyReq,other]) ?_ (fun _ => ?_) (by simp)
    · simp [destroyReq,unused,own]
    · simp [destroyReq,unused,destroyed,before.alone x kind unused]
  | finds aimed found => exact before.finds places aimed found places'
  | drop dropping => exact before.drops places aims dropping places'

def answers (s : Session) (x : Nat) : List (Option Nat × Int) := s.sent.filter fun a => a.1 = some x

def told : Pc → Bool
  | .sent .interrupt | .unused .interrupt | .gone .interrupt => true
  | _ => false

def Answered (s : Sys) : Prop := ∀ x, (s.pc x).ordinary = false →
  answers s.toSession x = if told (s.pc x) then [(some x,-eagain)] else []

theorem outErrorEagain (strerrordesc : Bool) : outError strerrordesc (-eagain) = -eagain := by
  cases strerrordesc <;> rfl

theorem answersSent (s : Session) (r x : Nat) (error : Int) : answers (fuseSendReplyNofree s r error) x =
    answers s x ++ if r = x then [(some r,outError s.strerrordesc error)] else [] := by
  simp only [answers,fuseSendReplyNofree,List.filter_append]
  by_cases same : r = x <;> simp [same]

theorem Answered.keep (answered : Answered s) (sent : t.sent = s.sent)
    (places : ∀ x, (t.pc x).ordinary = false → (s.pc x).ordinary = false ∧ told (t.pc x) = told (s.pc x)) :
    Answered t := by
  intro x other
  obtain ⟨before,same⟩ := places x other
  rw [answers,sent,same]
  exact answered x before

theorem answeredStep (places : Places s) (answered : Answered s) (stepped : Stepped s t) : Answered t := by
  have on := places.on
  have fresh := places.fresh
  cases stepped with
  | request unique unused =>
    exact answered.keep (by simp [fuseLlAllocReq]) (by simp [fuseLlAllocReq]; grind [Pc.ordinary,told])
  | interrupt unique target =>
    have new := (fresh s.next).mp (Nat.le_refl _)
    exact answered.keep (by simp [setTarget,fuseLlAllocReq])
      (by simp [setTarget,fuseLlAllocReq]; grind [Pc.ordinary,told])
  | meets arrived waits =>
    have mem := (places.waiting _).mp (List.mem_of_find?_eq_some waits)
    exact answered.keep (by simp [destroyReq,listAddReq]) (by simp [destroyReq,listAddReq]; grind [Pc.ordinary,told])
  | @relieves r i rest arrived none first =>
    have waits : s.pc i = .pending := (places.waiting i).mp (first ▸ List.mem_cons_self)
    exact answered.keep (by simp [listAddReq]) (by simp [listAddReq]; grind [Pc.ordinary,told])
  | enters arrived none =>
    exact answered.keep (by simp [listAddReq]) (by simp [listAddReq]; grind [Pc.ordinary,told])
  | register func held free =>
    exact answered.keep (by simp [Sys.register,setFunc]) (by simp [Sys.register,setFunc]; grind [Pc.ordinary,told])
  | notices registering =>
    exact answered.keep (by simp) (by simp; grind [Pc.ordinary,told])
  | quiet registering =>
    exact answered.keep (by simp) (by simp; grind [Pc.ordinary,told])
  | callback calling =>
    exact answered.keep (by simp [callFields]) (by simp [callFields]; grind [Pc.ordinary,told])
  | @reply r error held =>
    cases error with
    | none => exact answered.keep (by simp) (by simp; grind [Pc.ordinary])
    | some error =>
      intro x other
      have ne : r ≠ x := by
        rintro rfl
        simp [Pc.ordinary] at other
      have place : (s.move r (.sent .ordinary)).pc x = s.pc x := by simp [ne.symm]
      have before : (s.pc x).ordinary = false := place ▸ other
      show answers (fuseSendReplyNofree s.toSession r error) x = if told
        ((s.move r (.sent .ordinary)).pc x) then _ else _
      rw [answersSent,if_neg ne,List.append_nil,place]
      exact answered x before
  | finds aimed found =>
    exact answered.keep (by simp [holdReq]) (by simp [holdReq]; grind [Pc.ordinary,told])
  | duplicates aimed none again =>
    exact answered.keep (by simp [destroyReq]) (by simp [destroyReq]; grind [Pc.ordinary,told])
  | waits aimed none first =>
    exact answered.keep (by simp [addInterrupt]) (by simp [addInterrupt]; grind [Pc.ordinary,told])
  | mark found free =>
    exact answered.keep (by simp [markInterrupted]) (by simp [markInterrupted]; grind [Pc.ordinary,told])
  | signal marked =>
    exact answered.keep (by simp [callFields]) (by simp [callFields]; grind [Pc.ordinary,told])
  | drop dropping =>
    exact answered.keep (by simp [unholdPut,destroyReq]) (by simp [unholdPut,destroyReq]; grind [Pc.ordinary,told])
  | @answer i taken =>
    intro x other
    show answers (fuseSendReplyNofree s.toSession i (-eagain)) x = if told
      ((s.move i (.sent .interrupt)).pc x) then _ else _
    rw [answersSent]
    by_cases same : i = x
    · subst same
      have before := answered i (by rw [taken]; rfl)
      rw [taken] at before
      simp only [movePc,if_true,before,outErrorEagain]
      rfl
    · have place : (s.move i (.sent .interrupt)).pc x = s.pc x := by simp [Ne.symm same]
      rw [if_neg same,List.append_nil,place]
      exact answered x (place ▸ other)
  | @free x kind sent =>
    exact answered.keep (by simp [Sys.free,dropPut _ _ on])
      (by cases kind <;> simp [Sys.free,dropPut _ _ on] <;> grind [Pc.ordinary,told])
  | @destroy x kind unused =>
    exact answered.keep (by simp [destroyReq])
      (by cases kind <;> simp [destroyReq] <;> grind [Pc.ordinary,told])

structure Recorded (s : Sys) : Prop where
  ordinary : ∀ r, s.called r = true → (s.pc r).ordinary = true
  recorded : ∀ r, s.called r = true → (s.reqs r).u ≠ 0 → (r,(s.reqs r).u) ∈ s.calls

theorem Recorded.keep (before : Recorded s) (calls : t.calls = s.calls) (called : t.called = s.called)
    (func : ∀ r, s.called r = true → (t.reqs r).u = (s.reqs r).u ∨ (t.reqs r).u = 0)
    (ordinary : ∀ r, (s.pc r).ordinary = true → (t.pc r).ordinary = true) : Recorded t := by
  constructor
  · intro r was
    exact ordinary r (before.ordinary r (called ▸ was))
  · intro r was some
    have was := called ▸ was
    rcases func r was with same | none
    · rw [same] at some ⊢
      exact calls ▸ before.recorded r was some
    · exact absurd none some

theorem Recorded.call {r : Nat} (before : Recorded s) (func : Nat) (ordinary : (s.pc r).ordinary = true) :
    Recorded (s.call r func) := by
  unfold Sys.call
  split
  · exact before
  · rename_i some
    constructor
    · intro x was
      by_cases mine : x = r
      · exact mine ▸ ordinary
      · exact before.ordinary x (by simpa [Sys.setCalled,Function.update_of_ne mine] using was)
    · intro x was set
      have record : (callFunc s.toSession r func).calls = s.calls ++ [(r,func)] := by simp [callFunc,some]
      have same : (callFunc s.toSession r func).reqs = s.reqs := by simp [callFunc,some]
      show (x,((callFunc s.toSession r func).reqs x).u) ∈ (callFunc s.toSession r func).calls
      replace set : ((callFunc s.toSession r func).reqs x).u ≠ 0 := set
      rw [same] at set ⊢
      rw [record,List.mem_append,List.mem_singleton]
      by_cases mine : x = r
      · subst mine
        simp only [Sys.setCalled,Function.update_self,Bool.or_eq_true,decide_eq_true_eq] at was
        rcases was with was | now
        · exact .inl (before.recorded x was set)
        · exact .inr (by rw [now])
      · exact .inl (before.recorded x (by simpa [Sys.setCalled,Function.update_of_ne mine] using was) set)

theorem recordedStep (places : Places s) (aims : Aims s) (before : Recorded s) (stepped : Stepped s t) :
    Recorded t := by
  have on := places.on
  have fresh := places.fresh
  have known := before.ordinary
  cases stepped with
  | request unique unused => exact before.keep rfl rfl (by simp [fuseLlAllocReq]; grind) (by simp; grind [Pc.ordinary])
  | interrupt unique target =>
    exact before.keep rfl rfl (by simp [setTarget,fuseLlAllocReq]; grind [Pc.ordinary])
      (by simp [setTarget,fuseLlAllocReq]; grind [Pc.ordinary])
  | meets arrived waits =>
    have mem := (places.waiting _).mp (List.mem_of_find?_eq_some waits)
    exact before.keep rfl rfl (by simp [destroyReq,listAddReq]; grind) (by simp; grind [Pc.ordinary])
  | @relieves r i rest arrived none first =>
    have waits : s.pc i = .pending := (places.waiting i).mp (first ▸ List.mem_cons_self)
    exact before.keep rfl rfl (by simp [listAddReq]) (by simp; grind [Pc.ordinary])
  | enters arrived none => exact before.keep rfl rfl (by simp [listAddReq]) (by simp; grind [Pc.ordinary])
  | @register r func held free =>
    have others {x : Nat} (was : (s.register r func).called x = true) : x ≠ r ∧ s.called x = true := by
      simpa [Sys.register] using was
    constructor
    · intro x was
      obtain ⟨ne,was⟩ := others was
      simpa [Sys.register,ne] using known x was
    · intro x was set
      obtain ⟨ne,was⟩ := others was
      have same : ((s.register r func).reqs x).u = (s.reqs x).u := by simp [Sys.register,setFunc,ne]
      rw [same] at set ⊢
      exact before.recorded x was set
  | notices registering => exact before.keep rfl rfl (by simp) (by simp; grind [Pc.ordinary])
  | quiet registering => exact before.keep rfl rfl (by simp) (by simp; grind [Pc.ordinary])
  | @callback r func calling =>
    have now := before.call (r := r) func (by rw [calling]; rfl)
    exact now.keep rfl rfl (by simp) (by simp; grind [Pc.ordinary])
  | @signal i r func marked =>
    have now := before.call (r := r) func (aims.aims i r (by rw [marked]; rfl)).1
    exact now.keep rfl rfl (by simp) (by simp [callFields]; grind [Pc.ordinary])
  | reply error held =>
    cases error <;> exact before.keep rfl rfl (by simp [fuseSendReplyNofree])
      (by simp; grind [Pc.ordinary])
  | finds aimed found => exact before.keep rfl rfl (by simp [holdReq]; grind) (by simp; grind [Pc.ordinary])
  | duplicates aimed none again =>
    exact before.keep rfl rfl (by simp [destroyReq]; grind)
      (by simp; grind [Pc.ordinary])
  | waits aimed none first => exact before.keep rfl rfl (by simp [addInterrupt]) (by simp; grind [Pc.ordinary])
  | mark found free => exact before.keep rfl rfl (by simp [markInterrupted]; grind) (by simp; grind [Pc.ordinary])
  | drop dropping =>
    refine before.keep ?_ rfl (by simp [unholdPut,destroyReq]; grind) (by simp; grind [Pc.ordinary])
    simp [unholdPut,destroyReq,Session.put]
  | answer taken => exact before.keep rfl rfl (by simp [fuseSendReplyNofree]) (by simp; grind [Pc.ordinary])
  | @free x kind sent =>
    obtain ⟨p,ends,pc,reqs,lock,calls⟩ := freeFields x kind on
    refine before.keep ?_ calls (fun r _ => ?_) fun r was => ?_
    · simp [Sys.free,dropPut _ _ on,Session.put,listDelReq]
    · rw [reqs,Function.update_apply]
      split <;> simp
    · rw [pc,Function.update_apply]
      split
      · rename_i here
        rw [here,sent] at was
        rcases ends with rfl | rfl <;> cases kind <;> simp_all [Pc.ordinary]
      · exact was
  | @destroy x kind unused =>
    refine before.keep rfl rfl (by simp [destroyReq]; grind) ?_
    cases kind <;> simp <;> grind [Pc.ordinary]

structure Sound (s : Sys) : Prop where
  places : Places s
  aims : Aims s
  flagged : Flagged s
  called : Called s
  recorded : Recorded s
  counted : Counted s
  answered : Answered s

theorem soundStart (strerrordesc : Bool) : Sound (start strerrordesc) where
  places := by constructor <;> simp [start,Pc.linked]
  aims := by constructor <;> simp [start,Pc.ordinary,Pc.target]
  flagged := by simp [Flagged,start,Pc.flags]
  called := by constructor <;> simp [start,Pc.registers,Pc.ordinary]
  recorded := by constructor <;> simp [start]
  counted := by constructor <;> simp [start]
  answered := by simp [Answered,start,answers,told]

theorem soundStep (sound : Sound s) (stepped : Stepped s t) : Sound t where
  places := placesStep sound.places stepped
  aims := aimsStep sound.places sound.aims stepped
  flagged := flaggedStep sound.places sound.aims sound.flagged stepped
  called := calledStep sound.places sound.aims sound.called stepped
  recorded := recordedStep sound.places sound.aims sound.recorded stepped
  counted := countedStep sound.places sound.aims sound.counted stepped
  answered := answeredStep sound.places sound.answered stepped

theorem soundRun {events : List Event} (sound : Sound s) (ran : s.run events = some t) : Sound t := by
  induction events generalizing s with
  | nil => cases ran; exact sound
  | cons e rest ih =>
    obtain ⟨u,first,next⟩ := Option.bind_eq_some_iff.mp ran
    exact ih (soundStep sound (stepCases first)) next

/- Marks are never taken back, and who has found a request goes on to mark it. -/
theorem markedStep {r : Nat} (places : Places s) (known : r < s.next) (marked : (s.reqs r).interrupted = true)
    (stepped : Stepped s t) :
    (t.reqs r).interrupted = true := by
  cases stepped with
  | request unique => simp [fuseLlAllocReq]; grind
  | interrupt unique target => simp [setTarget,fuseLlAllocReq]; grind
  | meets arrived waits => simp [destroyReq,listAddReq]; grind
  | relieves arrived none first => simpa [listAddReq] using marked
  | enters arrived none => simpa [listAddReq] using marked
  | register func held free => simp [Sys.register,setFunc]; grind
  | notices registering => simpa using marked
  | quiet registering => simpa using marked
  | callback calling => simpa [callFields] using marked
  | reply error held => cases error <;> simpa [fuseSendReplyNofree] using marked
  | finds aimed found => simp [holdReq]; grind
  | duplicates aimed none again => simp [destroyReq]; grind
  | waits aimed none first => simpa [addInterrupt] using marked
  | mark found free => simp [markInterrupted]; grind
  | signal now => simpa [callFields] using marked
  | drop dropping => simp [unholdPut,destroyReq]; grind
  | answer taken => simpa [fuseSendReplyNofree] using marked
  | free sent => simp [Sys.free,dropPut _ _ places.on]; grind
  | destroy unused => simp [destroyReq]; grind

theorem foundStep {i r : Nat} (places : Places s) (found : s.pc i = .found r) (stepped : Stepped s t) :
    t.pc i = .found r ∨ (t.reqs r).interrupted = true := by
  have fresh := places.fresh s.next
  cases stepped with
  | request unique => left; simp [fuseLlAllocReq]; grind
  | interrupt unique target => left; simp [setTarget,fuseLlAllocReq]; grind
  | meets arrived waits =>
    have mem := (places.waiting _).mp (List.mem_of_find?_eq_some waits)
    left
    simp [destroyReq,listAddReq]
    grind
  | @relieves q j rest arrived none first =>
    have waits : s.pc j = .pending := (places.waiting j).mp (first ▸ List.mem_cons_self)
    left
    simp [listAddReq]
    grind
  | enters arrived none => left; simp [listAddReq]; grind
  | register func held free => left; simp [Sys.register,setFunc]; grind
  | notices registering => left; simp; grind
  | quiet registering => left; simp; grind
  | callback calling => left; simp [callFields]; grind
  | reply error held => left; cases error <;> simp [fuseSendReplyNofree] <;> grind
  | finds aimed found => left; simp [holdReq]; grind
  | duplicates aimed none again => left; simp [destroyReq]; grind
  | waits aimed none first => left; simp [addInterrupt]; grind
  | @mark j q now free =>
    by_cases same : j = i
    · subst same
      rw [found] at now
      cases now
      right
      simp [markInterrupted]
    · left
      simp [Ne.symm same,found]
  | signal marked => left; simp [callFields]; grind
  | drop dropping => left; simp [unholdPut,destroyReq]; grind
  | answer taken => left; simp [fuseSendReplyNofree]; grind
  | free sent => left; simp [Sys.free,dropPut _ _ places.on]; grind
  | destroy unused => left; simp [destroyReq]; grind

theorem nextStep (places : Places s) (stepped : Stepped s t) : s.next ≤ t.next := by
  cases stepped with
  | reply error held => cases error <;> exact Nat.le_refl _
  | free sent => simp [Sys.free,dropPut _ _ places.on]
  | callback calling => simp [callFields]
  | signal marked => simp [callFields]
  | drop dropping => simp [unholdPut,destroyReq]
  | request unique => exact Nat.le_succ _
  | interrupt unique target => exact Nat.le_succ _
  | _ => exact Nat.le_refl _

theorem foundRun {i r : Nat} {rest : List Event} (sound : Sound s) (known : r < s.next)
    (now : s.pc i = .found r ∨ (s.reqs r).interrupted = true) (ran : s.run rest = some t) :
    t.pc i = .found r ∨ (t.reqs r).interrupted = true := by
  induction rest generalizing s with
  | nil => cases ran; exact now
  | cons e rest ih =>
    obtain ⟨u,first,next⟩ := Option.bind_eq_some_iff.mp ran
    have stepped := stepCases first
    refine ih (soundStep sound stepped) (Nat.lt_of_lt_of_le known (nextStep sound.places stepped)) ?_ next
    rcases now with found | marked
    · exact foundStep sound.places found stepped
    · exact .inr (markedStep sound.places known marked stepped)

/- How an INTERRUPT is disposed of. One whose processing has not got so far is destroyed by nobody. -/
inductive Disposed (s : Sys) (i : Nat) : Prop
  | pending (listed : s.interrupts.count i = 1) (live : (s.reqs i).freed = 0) (silent : answers s.toSession i = [])
  | matched (unlisted : i ∉ s.interrupts) (freed : (s.reqs i).freed = 1) (silent : answers s.toSession i = [])
      (target : s.pc i = .duplicate ∨ ∃ r, s.pc i = .matched r ∧ (s.reqs r).unique = (s.reqs i).u ∧
        (s.reqs r).interrupted = true)
  | answered (unlisted : i ∉ s.interrupts) (freed : (s.reqs i).freed = 1)
      (once : answers s.toSession i = [(some i,-eagain)])
  | underway (unlisted : i ∉ s.interrupts) (live : (s.reqs i).freed = 0)
      (place : s.pc i = .aimed ∨ (s.pc i).holds ≠ none ∨ s.pc i = .taken ∨ s.pc i = .sent .interrupt ∨
        s.pc i = .unused .interrupt)

/- What every state of a session that processes interrupts satisfies. -/
structure Matched (s : Sys) : Prop where
  oneEach : (s.interrupts.map fun i => (s.reqs i).u).Nodup
  finds : ∀ i r, s.pc i = .aimed → r ∈ s.list → (s.reqs r).unique = (s.reqs i).u →
    ∀ t, s.step (.find i) = some t → t.pc i = .found r
  marks : ∀ i r, s.pc i = .found r → ∀ rest t, s.run rest = some t → t.pc i = .found r ∨ (t.reqs r).interrupted = true
  calls : ∀ r ∈ s.list, (s.reqs r).interrupted = true → (s.reqs r).u ≠ 0 → s.lock r = none →
    s.called r = true ∧ (r,(s.reqs r).u) ∈ s.calls
  arrives : ∀ i r, s.pc i = .pending → s.pc r = .arrived → (s.reqs i).u = (s.reqs r).unique →
    ∀ t, s.step (.enter r) = some t → (t.reqs r).interrupted = true ∧ t.pc i = .matched r
  disposes : ∀ i, s.pc i ≠ .absent → (s.pc i).ordinary = false → Disposed s i

theorem Sound.disposes (sound : Sound s) {i : Nat} (known : s.pc i ≠ .absent) (interrupt : (s.pc i).ordinary = false) :
    Disposed s i := by
  have inside : i < s.next := Nat.lt_of_not_le fun beyond => known ((sound.places.fresh i).mp beyond)
  have alone := holderless sound.aims sound.places interrupt
  have freed := sound.counted.freed i inside
  have said := sound.answered i interrupt
  have waiting := sound.places.waiting i
  have target := sound.aims.aims i
  have flagged := sound.flagged i
  rw [alone] at freed
  cases place : s.pc i with
  | pending =>
    rw [place] at freed said waiting
    exact .pending ((sound.places.waitOnce.count).trans (if_pos (waiting.mpr rfl))) freed said
  | matched r =>
    rw [place] at freed said waiting target flagged
    exact .matched (by simp [waiting]) freed said (.inr ⟨r,place,(target r rfl).2,flagged r rfl⟩)
  | duplicate =>
    rw [place] at freed said waiting
    exact .matched (by simp [waiting]) freed said (.inl place)
  | gone kind =>
    rw [place] at freed said waiting interrupt
    cases kind with
    | ordinary => cases interrupt
    | interrupt => exact .answered (by simp [waiting]) (by simpa [destroyed] using freed) said
  | aimed =>
    rw [place] at freed waiting
    exact .underway (by simp [waiting]) freed (.inl place)
  | taken =>
    rw [place] at freed waiting
    exact .underway (by simp [waiting]) freed (by simp [place])
  | found r =>
    rw [place] at freed waiting
    exact .underway (by simp [waiting]) freed (by simp [place,Pc.holds])
  | marked r func =>
    rw [place] at freed waiting
    exact .underway (by simp [waiting]) freed (by simp [place,Pc.holds])
  | dropping r =>
    rw [place] at freed waiting
    exact .underway (by simp [waiting]) freed (by simp [place,Pc.holds])
  | sent kind =>
    rw [place] at freed waiting interrupt
    cases kind with
    | ordinary => cases interrupt
    | interrupt => exact .underway (by simp [waiting]) freed (by simp [place])
  | unused kind =>
    rw [place] at freed waiting interrupt
    cases kind with
    | ordinary => cases interrupt
    | interrupt => exact .underway (by simp [waiting]) freed (by simp [place])
  | absent => exact absurd place known
  | arrived => rw [place] at interrupt; cases interrupt
  | held => rw [place] at interrupt; cases interrupt
  | registering func => rw [place] at interrupt; cases interrupt
  | calling func => rw [place] at interrupt; cases interrupt

theorem Sound.finds (sound : Sound s) {i r : Nat} (aimed : s.pc i = .aimed) (listed : r ∈ s.list)
    (same : (s.reqs r).unique = (s.reqs i).u) (ran : s.step (.find i) = some t) : t.pc i = .found r := by
  have is : s.find i = t := by simpa [Sys.step,aimed] using ran
  have linked := (sound.places.listed r).mp listed
  unfold Sys.find at is
  cases target : interruptTarget s.toSession i with
  | none => exact absurd same (missedSource sound.places target linked)
  | some q =>
    obtain ⟨linkedQ,sameQ⟩ := foundSource sound.places target
    have only := sound.aims.distinct q r (linkedOrdinary linkedQ) (linkedOrdinary linked) (sameQ.trans same.symm)
    rw [target] at is
    rw [← is,← only]
    simp

theorem Sound.arrives (sound : Sound s) {i r : Nat} (pending : s.pc i = .pending) (arrived : s.pc r = .arrived)
    (same : (s.reqs i).u = (s.reqs r).unique) (ran : s.step (.enter r) = some t) :
    (t.reqs r).interrupted = true ∧ t.pc i = .matched r := by
  have is : s.enter r = t := by simpa [Sys.step,arrived] using ran
  have listed := (sound.places.waiting i).mpr pending
  unfold Sys.enter checkInterrupt at is
  cases target : s.interrupts.find? fun curr => (s.reqs curr).u = (s.reqs r).unique with
  | none => exact absurd same (by simpa using List.find?_eq_none.mp target i listed)
  | some j =>
    have pendingJ := (sound.places.waiting j).mp (List.mem_of_find?_eq_some target)
    have sameJ : (s.reqs j).u = (s.reqs r).unique := by simpa using List.find?_some target
    have only := sound.aims.oneEach j i pendingJ pending (sameJ.trans same.symm)
    subst only
    have ne : r ≠ j := by
      rintro rfl
      rw [pending] at arrived
      cases arrived
    rw [target] at is
    rw [← is]
    simp [listAddReq,destroyReq,ne]

theorem Sound.calls (sound : Sound s) {r : Nat} (listed : r ∈ s.list) (marked : (s.reqs r).interrupted = true)
    (func : (s.reqs r).u ≠ 0) (free : s.lock r = none) : s.called r = true ∧ (r,(s.reqs r).u) ∈ s.calls := by
  have ordinary := linkedOrdinary ((sound.places.listed r).mp listed)
  have called : s.called r = true := by
    rcases sound.called.called r ordinary marked func with called | registers | ⟨i,now⟩
    · exact called
    · cases held : (s.pc r).registers with
      | none => exact absurd held registers
      | some g => simpa [free] using (sound.called.handler r g held).1
    · simpa [free] using (sound.called.marker i r _ now).1
  exact ⟨called,sound.recorded.recorded r called func⟩

theorem Sound.matched (sound : Sound s) : Matched s where
  oneEach := by
    refine List.Nodup.map_on (fun i mem j mem' same => ?_) sound.places.waitOnce
    exact sound.aims.oneEach i j ((sound.places.waiting i).mp mem) ((sound.places.waiting j).mp mem') same
  finds := fun i r aimed listed same t ran => sound.finds aimed listed same ran
  marks := fun i r found rest t ran =>
    foundRun sound (targetKnown sound.places sound.aims (by rw [found]; rfl)) (.inl found) ran
  calls := fun r listed marked func free => sound.calls listed marked func free
  arrives := fun i r pending arrived same t ran => sound.arrives pending arrived same ran
  disposes := fun i known interrupt => sound.disposes known interrupt

/- An interrupt that crosses the reply of its target, which is destroyed with the last reference. -/
def crossing : List Event :=
  [.request 2,.enter 0,.interrupt 3 2,.find 1,.reply 0 (some 0),.free 0,.mark 1,.signal 1,.drop 1]

end FuseStudy.LlDisposal
