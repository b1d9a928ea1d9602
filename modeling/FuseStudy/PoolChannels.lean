import FuseStudy.PoolShutdown

/-! The channels that the worker threads read from and that requests are answered on. A channel is
counted by its worker and by each request that came through it, and its descriptor is closed with
the last of them. -/
namespace FuseStudy.PoolChannels
open WorkerPool WorkerRuns

inductive Fault
  -- a channel is used after free, or got from a count of zero
  | freed | uncounted
  deriving DecidableEq

/- `ch` is w->ch of each worker and `reqs` req->ch of each request. Channels are named by their
descriptors, and `ctr` is there as long as one is allocated. -/
structure Sys where
  pool : Pool
  ch : Nat → Option Nat
  ctr : Nat → Option Int
  next : Nat
  closed : List Nat
  reqs : List (Option Nat)

def fuseChanNew (s : Sys) : Sys := {s with ctr := Function.update s.ctr s.next (some 1), next := s.next + 1}

def fuseChanGet (s : Sys) (x : Nat) : Except Fault Sys :=
  match s.ctr x with
  | none => .error .freed
  | some ctr => if 0 < ctr then .ok {s with ctr := Function.update s.ctr x (some (ctr + 1))} else .error .uncounted

def fuseChanPut (s : Sys) : Option Nat → Except Fault Sys
  | none => .ok s
  | some x =>
    match s.ctr x with
    | none => .error .freed
    | some ctr =>
      if ctr - 1 = 0 then .ok {s with ctr := Function.update s.ctr x none, closed := s.closed ++ [x]}
      else .ok {s with ctr := Function.update s.ctr x (some (ctr - 1))}

def attempts (c : Config) (p : Pool) : Event → Option Start
  | .begin e => some e
  | .take w e =>
    match (p.workers w).pc with
    | .received isforget =>
      if p.exit = false ∧ (countMessage p isforget (-1)).numavail = 0 ∧ p.numworker < c.maxThreads then some e else none
    | _ => none
  | _ => none

/- A thread that cannot be created gives its channel back. -/
def Sys.starts (s : Sys) (e : Start) : Except Fault Sys :=
  if e.memory then
    if s.pool.cloneFd && e.clone then
      let t := fuseChanNew s
      if e.create then .ok {t with ch := Function.update t.ch s.pool.next (some s.next)}
        else fuseChanPut t (some s.next)
    else if e.create then .ok {s with ch := Function.update s.ch s.pool.next none} else .ok s
  else .ok s

def frees (p : Pool) : Event → Option Nat
  | .freeJoined =>
    match p.main with
    | .freeing w => some w
    | _ => none
  | .free w => some w
  | _ => none

inductive Action
  | pool (e : Event)
  | get (w : Nat)
  | send (i : Nat)
  | put (i : Nat)
  deriving DecidableEq

def Sys.step (c : Config) (s : Sys) : Action → Option (Except Fault Sys)
  | .pool e =>
    (s.pool.step c e).map fun q => do
      let t ← match attempts c s.pool e with
        | none => .ok s
        | some e => s.starts e
      let t ← match frees s.pool e with
        | none => .ok t
        | some w => fuseChanPut t (t.ch w)
      .ok {t with pool := q}
  -- fuse_session_process_buf_internal makes a request of the message
  | .get w =>
    match (s.pool.workers w).pc with
    | .processing _ =>
      if w < s.pool.next then
        some (match s.ch w with
        | none => .ok {s with reqs := s.reqs ++ [none]}
        | some x => do
          let t ← fuseChanGet s x
          .ok {t with reqs := t.reqs ++ [some x]})
      else none
    | _ => none
  | .send i =>
    match s.reqs[i]? with
    | some (some x) => some (if s.ctr x = none then .error .freed else .ok s)
    | _ => none
  | .put i => (s.reqs[i]?).map fun ch => do
    let t ← fuseChanPut s ch
    .ok {t with reqs := t.reqs.set i none}

def newSys (c : Config) : Sys := ⟨newPool c,fun _ => none,fun _ => none,0,[],[]⟩

def runSys (c : Config) : List Action → Sys → Option Sys
  | [],s => some s
  | a::l,s => (s.step c a).bind fun
    | .ok s => runSys c l s
    | .error _ => none

inductive Reached (c : Config) : Sys → Prop
  | start : Reached c (newSys c)
  | step {s s' : Sys} {a : Action} (before : Reached c s) (ran : s.step c a = some (.ok s')) : Reached c s'

/-! What a step of the pool does to its workers. -/

variable {c : Config} {p q : Pool} {w x : Nat} {e : Event}

theorem startNext (p : Pool) (e : Start) :
    (fuseLoopStartThread p e).1.next = p.next + (if e.memory && e.create then 1 else 0) ∧
    (fuseLoopStartThread p e).1.released = p.released := by
  obtain ⟨memory,clone,create⟩ := e
  cases memory <;> cases create <;> exact ⟨rfl,rfl⟩

theorem stepBears (kept : frees p e = none) (next : p.step c e = some q) : q.released = p.released ∧
    q.next = p.next + match attempts c p e with
      | some e => if e.memory && e.create then 1 else 0
      | none => 0 := by
  cases e with
  | begin e =>
    simp only [Pool.step] at next
    split at next <;> cases next
    exact ⟨(startNext p e).2,(startNext p e).1⟩
  | take w e =>
    simp only [Pool.step] at next
    split at next
    · next isforget pc =>
      split at next <;> cases next
      simp only [attempts,pc,takeMessage]
      by_cases exit : p.exit = true
      · simp only [exit,if_true,Bool.true_eq_false,false_and,if_false,Nat.add_zero]
        exact ⟨rfl,rfl⟩
      · have running : p.exit = false := Bool.eq_false_iff.mpr exit
        simp only [running,Bool.false_eq_true,if_false,true_and]
        change (makeRoom c (countMessage p isforget (-1)) e).released = p.released ∧
          (makeRoom c (countMessage p isforget (-1)) e).next = _
        unfold makeRoom
        have same : (countMessage p isforget (-1)).numworker = p.numworker := rfl
        rw [same]
        split
        · exact ⟨(startNext _ e).2,(startNext _ e).1⟩
        · exact ⟨rfl,rfl⟩
    · cases next
  | done w =>
    simp only [Pool.step] at next
    split at next
    · split at next <;> cases next
      unfold messageDone
      dsimp only
      split
      · split <;> exact ⟨rfl,rfl⟩
      · exact ⟨rfl,rfl⟩
    · cases next
  | receive w res =>
    simp only [Pool.step] at next
    split at next <;> cases next
    cases res <;> exact ⟨rfl,rfl⟩
  | join =>
    simp only [Pool.step] at next
    split at next
    · split at next <;> cases next
      exact ⟨rfl,rfl⟩
    · cases next
  | freeJoined =>
    simp only [Pool.step] at next
    split at next
    · next w main =>
      simp only [frees,main] at kept
      cases kept
    · cases next
  | free w => cases kept
  | sessionExit =>
    cases next
    exact ⟨rfl,rfl⟩
  | wait | stop | finish | enter | cancel | post =>
    simp only [Pool.step] at next
    split at next <;> cases next
    exact ⟨rfl,rfl⟩

theorem stepFrees (placed : Placed p) (one : frees p e = some w) (next : p.step c e = some q) :
    attempts c p e = none ∧ w < p.next ∧
    releasers p w = [] ∧ q.next = p.next ∧ ∀ v, releasers q v = [] ↔ releasers p v = [] ∧ v ≠ w := by
  have more : ∀ by', q.released = p.released ++ [(w,by')] → ∀ v, releasers q v = [] ↔ releasers p v = [] ∧ v ≠ w := by
    intro by' released v
    have after : releasers q v = _ := releasersMore released
    rw [after]
    by_cases same : w = v
    · simp [same]
    · simp [same,Ne.symm same]
  cases e with
  | freeJoined =>
    simp only [Pool.step] at next
    split at next
    · next v main =>
      simp only [frees,main] at one
      cases one
      cases next
      obtain ⟨born,_,_,unreleased⟩ := placed.freeing w main
      exact ⟨rfl,born,unreleased,rfl,more .main rfl⟩
    · cases next
  | free v =>
    cases one
    simp only [Pool.step] at next
    split at next
    · next runs =>
      cases next
      exact ⟨rfl,runs.1,placed.unreleased runs.1 runs.2,rfl,more .itself rfl⟩
    · cases next
  | _ => cases one

/-! A count of references that the channels agree with. -/

variable {s t : Sys} {n : Nat → Nat}

structure Held (s : Sys) (n : Nat → Nat) : Prop where
  counts : ∀ x, s.ctr x = if n x = 0 then none else some (n x : Int)
  fresh : ∀ x, s.next ≤ x → n x = 0
  closed : ∀ x, s.closed.count x = if x < s.next ∧ n x = 0 then 1 else 0

structure Same (s t : Sys) : Prop where
  pool : t.pool = s.pool
  ch : t.ch = s.ch
  reqs : t.reqs = s.reqs

theorem Held.new (held : Held s n) : Held (fuseChanNew s) (Function.update n s.next 1) where
  counts := by
    intro x
    by_cases same : x = s.next
    · subst same
      simp [fuseChanNew]
    · simp [fuseChanNew,Function.update_of_ne same,held.counts x]
  fresh := by
    intro x le
    have after : s.next + 1 ≤ x := le
    rw [Function.update_of_ne (Nat.ne_of_gt after)]
    exact held.fresh x (Nat.le_of_succ_le after)
  closed := by
    intro x
    have before : (fuseChanNew s).closed.count x = _ := held.closed x
    rw [before]
    by_cases same : x = s.next
    · subst same
      simp
    · have next : x < (fuseChanNew s).next ↔ x < s.next := by
        change x < s.next + 1 ↔ _
        omega
      simp only [Function.update_of_ne same,next]

theorem Held.get (held : Held s n) (used : n x ≠ 0) :
    ∃ t, fuseChanGet s x = .ok t ∧ Held t (Function.update n x (n x + 1)) ∧ Same s t := by
  have there := held.counts x
  rw [if_neg used] at there
  have old : x < s.next := by
    by_contra fresh
    exact used (held.fresh x (Nat.le_of_not_lt fresh))
  refine ⟨{s with ctr := Function.update s.ctr x (some ((n x : Int) + 1))},?_,⟨?_,?_,?_⟩,⟨rfl,rfl,rfl⟩⟩
  · simp only [fuseChanGet,there]
    rw [if_pos (by omega)]
  · intro y
    by_cases same : y = x
    · subst same
      simp
    · simp [Function.update_of_ne same,held.counts y]
  · intro y le
    have other : y ≠ x := by
      rintro rfl
      exact absurd old (Nat.not_lt_of_le le)
    rw [Function.update_of_ne other]
    exact held.fresh y le
  · intro y
    have before := held.closed y
    by_cases same : y = x
    · subst same
      simpa [used] using before
    · simpa [Function.update_of_ne same] using before

theorem Held.put (held : Held s n) (used : n x ≠ 0) :
    ∃ t, fuseChanPut s (some x) = .ok t ∧ Held t (Function.update n x (n x - 1)) ∧ Same s t := by
  have there := held.counts x
  rw [if_neg used] at there
  have old : x < s.next := by
    by_contra fresh
    exact used (held.fresh x (Nat.le_of_not_lt fresh))
  have unclosed := held.closed x
  rw [if_neg (fun both => used both.2)] at unclosed
  have later : ∀ y, s.next ≤ y → Function.update n x (n x - 1) y = 0 := by
    intro y le
    have other : y ≠ x := by
      rintro rfl
      exact absurd old (Nat.not_lt_of_le le)
    rw [Function.update_of_ne other]
    exact held.fresh y le
  by_cases last : n x = 1
  · refine ⟨{s with ctr := Function.update s.ctr x none, closed := s.closed ++ [x]},?_,⟨?_,later,?_⟩,⟨rfl,rfl,rfl⟩⟩
    · simp [fuseChanPut,there,last]
    · intro y
      by_cases same : y = x
      · subst same
        simp [last]
      · simp [Function.update_of_ne same,held.counts y]
    · intro y
      have before := held.closed y
      simp only [List.count_append]
      by_cases same : y = x
      · subst same
        simp [unclosed,old,last]
      · have apart : [x].count y = 0 := List.count_eq_zero_of_not_mem fun mem => same (List.mem_singleton.mp mem)
        rw [Function.update_of_ne same,apart,Nat.add_zero]
        exact before
  · refine ⟨{s with ctr := Function.update s.ctr x (some ((n x : Int) - 1))},?_,⟨?_,later,?_⟩,⟨rfl,rfl,rfl⟩⟩
    · simp only [fuseChanPut,there]
      rw [if_neg (by omega)]
    · intro y
      by_cases same : y = x
      · subst same
        have left : n y - 1 ≠ 0 := by omega
        have fewer : ((n y - 1 : Nat) : Int) = (n y : Int) - 1 := by omega
        simp [left,fewer]
      · simp [Function.update_of_ne same,held.counts y]
    · intro y
      have before := held.closed y
      by_cases same : y = x
      · subst same
        have left : n y - 1 ≠ 0 := by omega
        rw [Function.update_self,if_neg (fun both => left both.2)]
        exact unclosed
      · rw [Function.update_of_ne same]
        exact before

/-! The references there are: a worker that was not freed has one, and so has each request. -/

def holds (s : Sys) (x w : Nat) : Bool := decide (releasers s.pool w = [] ∧ s.ch w = some x)

def refs (s : Sys) (x : Nat) : Nat := (List.range s.pool.next).countP (holds s x) + s.reqs.count (some x)

theorem refsPool (next : t.pool.next = s.pool.next) (released : t.pool.released = s.pool.released) (ch : t.ch = s.ch)
    (reqs : t.reqs = s.reqs) : refs t = refs s := by
  funext x
  have entries : ∀ w, releasers t.pool w = releasers s.pool w := fun w => by rw [releasers,released]; rfl
  have same : holds t x = holds s x := by
    funext w
    simp only [holds,entries,ch]
  rw [refs,refs,same,next,reqs]

theorem refsBorn {own : Option Nat} (placed : Placed s.pool) (next : t.pool.next = s.pool.next + 1)
    (released : t.pool.released = s.pool.released) (ch : t.ch = Function.update s.ch s.pool.next own)
    (reqs : t.reqs = s.reqs) (x : Nat) :
    refs t x = refs s x + if own = some x then 1 else 0 := by
  have entries : ∀ w, releasers t.pool w = releasers s.pool w := fun w => by rw [releasers,released]; rfl
  have older : (List.range s.pool.next).countP (holds t x) = (List.range s.pool.next).countP (holds s x) := by
    refine List.countP_congr fun w mem => ?_
    have other : w ≠ s.pool.next := Nat.ne_of_lt (List.mem_range.mp mem)
    simp only [holds,entries,ch,Function.update_of_ne other]
  have new : holds t x s.pool.next = decide (own = some x) := by
    simp only [holds,entries,ch,Function.update_self,placed.unborn _ (Nat.le_refl _),true_and]
  rw [refs,refs,next,List.range_succ,List.countP_append,older,List.countP_singleton,new,reqs]
  simp only [decide_eq_true_eq]
  omega

theorem refsFreed (born : w < s.pool.next) (unreleased : releasers s.pool w = [])
    (next : t.pool.next = s.pool.next) (gone : ∀ v, releasers t.pool v = [] ↔ releasers s.pool v = [] ∧ v ≠ w)
    (ch : t.ch = s.ch) (reqs : t.reqs = s.reqs) (x : Nat) :
    refs t x + (if s.ch w = some x then 1 else 0) = refs s x := by
  have perm := List.perm_cons_erase (List.mem_range.mpr born)
  have others :
      ((List.range s.pool.next).erase w).countP (holds t x) = ((List.range s.pool.next).erase w).countP
        (holds s x) := by
    refine List.countP_congr fun v mem => ?_
    have other : v ≠ w := (List.nodup_range.mem_erase_iff.mp mem).1
    simp only [holds,gone,ch,and_iff_left other]
  have mine : holds t x w = false := by simp [holds,gone]
  have before : holds s x w = decide (s.ch w = some x) := by simp only [holds,unreleased,true_and]
  rw [refs,refs,next,perm.countP_eq,perm.countP_eq,List.countP_cons,List.countP_cons,others,mine,before,reqs]
  simp only [decide_eq_true_eq]
  simp only [Bool.false_eq_true,if_false]
  omega

theorem holdsRefs (born : w < s.pool.next) (unreleased : releasers s.pool w = []) (own : s.ch w = some x) :
    refs s x ≠ 0 := by
  have some' : 0 < (List.range s.pool.next).countP (holds s x) :=
    List.countP_pos_iff.mpr ⟨w,List.mem_range.mpr born,decide_eq_true ⟨unreleased,own⟩⟩
  rw [refs]
  omega

theorem reqRefs (mem : some x ∈ s.reqs) : refs s x ≠ 0 := by
  have some' := List.count_pos_iff.mpr mem
  rw [refs]
  omega

/-! A step keeps the counts right. -/

theorem Same.refs (same : Same s t) : PoolChannels.refs t = PoolChannels.refs s :=
  refsPool (by rw [same.pool]) (by rw [same.pool]) same.ch same.reqs

structure Right (c : Config) (s : Sys) : Prop where
  pool : Reachable c s.pool
  held : Held s (refs s)

theorem Held.congr {m : Nat → Nat} (held : Held s n) (ctr : t.ctr = s.ctr) (next : t.next = s.next)
    (closed : t.closed = s.closed) (same : ∀ x, m x = n x) : Held t m where
  counts := fun x => by rw [ctr,same]; exact held.counts x
  fresh := fun x le => by rw [same]; exact held.fresh x (next ▸ le)
  closed := fun x => by rw [closed,same,next]; exact held.closed x

theorem startHeld (placed : Placed s.pool) (held : Held s (refs s)) (e : Start)
    (next : q.next = s.pool.next + if e.memory && e.create then 1 else 0)
    (released : q.released = s.pool.released) :
    ∃ t, s.starts e = .ok t ∧ Held {t with pool := q} (refs {t with pool := q}) := by
  obtain ⟨memory,clone,create⟩ := e
  cases memory with
  | false =>
    refine ⟨s,rfl,held.congr rfl rfl rfl fun x => ?_⟩
    exact congrFun (refsPool (s := s) (t := {s with pool := q}) next released rfl rfl) x
  | true =>
    cases create with
    | false =>
      by_cases cloned : (s.pool.cloneFd && clone) = true
      · obtain ⟨t,put,held',same⟩ := held.new.put (x := s.next) (by rw [Function.update_self]; exact Nat.one_ne_zero)
        refine ⟨t,by simp only [Sys.starts,cloned,if_true,Bool.false_eq_true,if_false]; exact put,
          held'.congr rfl rfl rfl fun x => ?_⟩
        rw [refsPool (s := s) (t := {t with pool := q}) next released same.ch same.reqs]
        by_cases new : x = s.next
        · subst new
          rw [Function.update_self,Function.update_self]
          exact held.fresh _ (Nat.le_refl _)
        · rw [Function.update_of_ne new,Function.update_of_ne new]
      · refine ⟨s,by simp only [Sys.starts,cloned,if_true,Bool.false_eq_true,if_false],
          held.congr rfl rfl rfl fun x => ?_⟩
        exact congrFun (refsPool (s := s) (t := {s with pool := q}) next released rfl rfl) x
    | true =>
      by_cases cloned : (s.pool.cloneFd && clone) = true
      · let t := {fuseChanNew s with ch := Function.update s.ch s.pool.next (some s.next)}
        refine ⟨t,by simp only [Sys.starts,cloned,if_true]; rfl,held.new.congr rfl rfl rfl fun x => ?_⟩
        rw [refsBorn (s := s) (t := {t with pool := q}) placed next released rfl rfl]
        by_cases new : x = s.next
        · subst new
          rw [Function.update_self,held.fresh _ (Nat.le_refl _),if_pos rfl]
        · rw [Function.update_of_ne new,if_neg (fun same => new (Option.some.inj same).symm)]
          rfl
      · let t := {s with ch := Function.update s.ch s.pool.next none}
        refine ⟨t,by simp only [Sys.starts,cloned,if_true,Bool.false_eq_true,if_false]; rfl,
          held.congr rfl rfl rfl fun x => ?_⟩
        rw [refsBorn (s := s) (t := {t with pool := q}) placed next released rfl rfl,if_neg (fun no => by cases no)]
        rfl

theorem freeHeld (held : Held s (refs s)) (born : w < s.pool.next) (unreleased : releasers s.pool w = [])
    (next : q.next = s.pool.next) (gone : ∀ v, releasers q v = [] ↔ releasers s.pool v = [] ∧ v ≠ w) :
    ∃ t, fuseChanPut s (s.ch w) = .ok t ∧ Held {t with pool := q} (refs {t with pool := q}) := by
  cases own : s.ch w with
  | none =>
    refine ⟨s,rfl,held.congr rfl rfl rfl fun x => ?_⟩
    have freed := refsFreed (t := {s with pool := q}) born unreleased next gone rfl rfl x
    rwa [own,if_neg (fun no => by cases no)] at freed
  | some y =>
    obtain ⟨t,put,held',same⟩ := held.put (holdsRefs born unreleased own)
    refine ⟨t,put,held'.congr rfl rfl rfl fun x => ?_⟩
    have freed := refsFreed (t := {t with pool := q}) born unreleased next gone same.ch same.reqs x
    rw [own] at freed
    by_cases mine : x = y
    · subst mine
      rw [if_pos rfl] at freed
      rw [Function.update_self,← freed]
      rfl
    · rw [if_neg (fun same => mine (Option.some.inj same).symm)] at freed
      rw [Function.update_of_ne mine,← freed]
      rfl

theorem poolHeld (room : 1 ≤ c.maxThreads) (right : Right c s) (next : s.pool.step c e = some q) :
    ∃ t, s.step c (.pool e) = some (.ok t) ∧ Right c t := by
  have placed := (reachedSound room right.pool).placed
  have reached : Reachable c q := .step right.pool e next
  simp only [Sys.step,next,Option.map_some]
  cases freed : frees s.pool e with
  | none =>
    obtain ⟨released,more⟩ := stepBears freed next
    cases tried : attempts c s.pool e with
    | none =>
      rw [tried] at more
      refine ⟨{s with pool := q},rfl,reached,right.held.congr rfl rfl rfl fun x => ?_⟩
      exact congrFun (refsPool (s := s) (t := {s with pool := q}) more released rfl rfl) x
    | some a =>
      rw [tried] at more
      obtain ⟨t,starts,held⟩ := startHeld placed right.held a more released
      refine ⟨{t with pool := q},?_,reached,held⟩
      dsimp only
      rw [starts]
      rfl
  | some w =>
    obtain ⟨still,born,unreleased,same,gone⟩ := stepFrees placed freed next
    obtain ⟨t,put,held⟩ := freeHeld right.held born unreleased same gone
    rw [still]
    refine ⟨{t with pool := q},?_,reached,held⟩
    change some ((fuseChanPut s (s.ch w)).bind _) = _
    rw [put]
    rfl

theorem countSet {l : List (Option Nat)} {i : Nat} {ch : Option Nat} (at_ : l[i]? = some ch) (x : Nat) :
    (l.set i none).count (some x) + (if ch = some x then 1 else 0) = l.count (some x) := by
  obtain ⟨inside,here⟩ := List.getElem?_eq_some_iff.mp at_
  rw [List.count_set inside,here]
  have positive : ch = some x → 0 < l.count (some x) := by
    rintro rfl
    exact List.count_pos_iff.mpr (here ▸ List.getElem_mem inside)
  by_cases same : ch = some x
  · have some' := positive same
    simp [same]
    omega
  · simp [same]

theorem Right.step {a : Action} {r : Except Fault Sys} (room : 1 ≤ c.maxThreads) (right : Right c s)
    (next : s.step c a = some r) :
    ∃ t, r = .ok t ∧ Right c t := by
  cases a with
  | pool e =>
    have goes : s.pool.step c e ≠ none := by
      intro stops
      simp only [Sys.step,stops,Option.map_none] at next
      cases next
    obtain ⟨q,steps⟩ := Option.ne_none_iff_exists'.mp goes
    obtain ⟨t,same,right'⟩ := poolHeld room right steps
    rw [next] at same
    exact ⟨t,Option.some.inj same,right'⟩
  | get w =>
    simp only [Sys.step] at next
    split at next
    · next pc =>
      split at next
      · next born =>
        cases own : s.ch w with
        | none =>
          rw [own] at next
          cases next
          refine ⟨_,rfl,right.pool,right.held.congr rfl rfl rfl fun x => ?_⟩
          change _ + (s.reqs ++ [none]).count (some x) = _
          rw [List.count_append]
          rfl
        | some y =>
          rw [own] at next
          have placed := (reachedSound room right.pool).placed
          have inside :=
            placed.running born
              (by rw [pc]; exact ⟨(fun no => by cases no),(fun no => by cases no),fun no => by cases no⟩)
          have used := holdsRefs born ((placed.fates w born).inList inside) own
          obtain ⟨t,get,held,same⟩ := right.held.get used
          refine ⟨{t with reqs := t.reqs ++ [some y]},?_,?_,?_⟩
          · rw [← Option.some.inj next]
            change (fuseChanGet s y).bind _ = _
            rw [get]
            rfl
          · exact same.pool ▸ right.pool
          · refine held.congr rfl rfl rfl fun x => ?_
            have before : refs t x = refs s x := congrFun same.refs x
            have after : refs {t with reqs := t.reqs ++ [some y]} x = refs t x + if y = x then 1 else 0 := by
              change (List.range t.pool.next).countP (holds t x) + (t.reqs ++ [some y]).count (some x) = _
              rw [List.count_append,refs]
              by_cases mine : y = x <;> simp [mine,Nat.add_assoc]
            rw [after,before]
            by_cases mine : x = y
            · subst mine
              simp
            · simp [Function.update_of_ne mine,Ne.symm mine]
      · cases next
    · cases next
  | send i =>
    simp only [Sys.step] at next
    split at next
    · next y at_ =>
      have there := right.held.counts y
      rw [if_neg (reqRefs (List.mem_of_getElem? at_))] at there
      rw [there,if_neg (fun no => by cases no)] at next
      cases next
      exact ⟨s,rfl,right⟩
    · cases next
  | put i =>
    simp only [Sys.step] at next
    obtain ⟨ch,at_,runs⟩ := Option.map_eq_some_iff.mp next
    have counted := countSet at_
    cases ch with
    | none =>
      refine ⟨{s with reqs := s.reqs.set i none},runs.symm,right.pool,right.held.congr rfl rfl rfl fun x => ?_⟩
      have same := counted x
      rw [if_neg (fun no => by cases no)] at same
      change _ + (s.reqs.set i none).count (some x) = _ + s.reqs.count (some x)
      rw [← same]
      rfl
    | some y =>
      obtain ⟨t,put,held,same⟩ := right.held.put (reqRefs (List.mem_of_getElem? at_))
      refine ⟨{t with reqs := t.reqs.set i none},?_,same.pool ▸ right.pool,held.congr rfl rfl rfl fun x => ?_⟩
      · rw [← runs]
        change (fuseChanPut s (some y)).bind _ = _
        rw [put]
        rfl
      · have before : refs t x = refs s x := congrFun same.refs x
        have fewer := counted x
        have after : refs {t with reqs := t.reqs.set i none} x + (if y = x then 1 else 0) = refs s x := by
          change (List.range t.pool.next).countP (holds t x) + (t.reqs.set i none).count (some x) + _ = _
          rw [← before,refs,same.reqs,← fewer]
          by_cases mine : y = x <;> simp [mine,Nat.add_assoc]
        by_cases mine : x = y
        · subst mine
          rw [if_pos rfl] at after
          rw [Function.update_self]
          omega
        · rw [if_neg (Ne.symm mine)] at after
          rw [Function.update_of_ne mine]
          exact after

theorem reachedRight (room : 1 ≤ c.maxThreads) (reached : Reached c s) : Right c s := by
  induction reached with
  | start => exact ⟨.start,⟨fun _ => rfl,fun _ _ => rfl,fun _ => rfl⟩⟩
  | step before ran ih =>
    obtain ⟨t,same,right⟩ := ih.step room ran
    cases same
    exact right

/- In any run, no step of a worker, of the main thread or of a request uses a channel that was freed,
no channel is closed twice, and none that a worker or a request still has is closed. When the main
thread has returned, the workers that left the pool by themselves are over and no request is left,
every channel that was opened has been closed. -/
theorem channelsClosedOnce (room : 1 ≤ c.maxThreads) (reached : Reached c s) :
    (∀ a f, s.step c a ≠ some (.error f)) ∧ s.closed.Nodup ∧ (∀ x, some x ∈ s.reqs → x ∉ s.closed) ∧
      (∀ w < s.pool.next, releasers s.pool w = [] → ∀ x, s.ch w = some x → x ∉ s.closed) ∧
      (s.pool.main = .returned → (∀ w < s.pool.next, (s.pool.workers w).pc ≠ .unlinked) → (∀ ch ∈ s.reqs, ch = none) →
        ∀ x < s.next, x ∈ s.closed) := by
  have right := reachedRight room reached
  have open' : ∀ x, refs s x ≠ 0 → x ∉ s.closed := by
    intro x used
    have count := right.held.closed x
    rw [if_neg (fun both => used both.2)] at count
    exact List.count_eq_zero.mp count
  refine ⟨?_,?_,fun x mem => open' x (reqRefs mem),fun w born unreleased x own =>
    open' x (holdsRefs born unreleased own),?_⟩
  · intro a f fails
    obtain ⟨t,same,_⟩ := right.step room fails
    cases same
  · refine List.nodup_iff_count_le_one.mpr fun x => ?_
    rw [right.held.closed x]
    split <;> omega
  · intro returned apart free x old
    have sound := reachedSound room right.pool
    have unheld : (List.range s.pool.next).countP (holds s x) = 0 := by
      refine List.countP_eq_zero.mpr fun w mem held => ?_
      obtain ⟨unreleased,_⟩ := of_decide_eq_true held
      have born := List.mem_range.mp mem
      have empty := sound.returned returned
      cases sound.placed.fates w born with
      | listed inside =>
        rw [empty] at inside
        cases inside
      | unlinked pc => exact apart w born pc
      | itself _ _ one | joined _ _ one =>
        rw [unreleased] at one
        cases one
      | joining main =>
        rw [returned] at main
        cases main
    have unasked : s.reqs.count (some x) = 0 := by
      refine List.count_eq_zero.mpr fun mem => ?_
      cases free _ mem
    have count := right.held.closed x
    rw [if_pos ⟨old,by rw [refs,unheld,unasked]⟩] at count
    exact List.count_pos_iff.mp (count ▸ Nat.one_pos)

theorem sysReached {l : List Action} (reached : Reached c s) (ran : runSys c l s = some t) : Reached c t := by
  induction l generalizing s with
  | nil =>
    cases ran
    exact reached
  | cons a l ih =>
    obtain ⟨r,next,rest⟩ := Option.bind_eq_some_iff.mp ran
    cases r with
    | ok u => exact ih (reached.step next) rest
    | error f => cases rest

/- The first of two workers frees itself while a request that came on its channel is not answered yet;
the answer is sent after the main thread has returned. -/
theorem answeredLast :
    ∃ s, Reached ⟨true,0,2⟩ s ∧ s.pool.released = [(0,.itself),(1,.main)] ∧ 0 ∈ s.closed ∧ 1 ∈ s.closed := by
  have run : ∃ s,
    runSys ⟨true,0,2⟩ [.pool (.begin ⟨true,true,true⟩),.pool (.enter 0),.pool (.receive 0 (.message false)),
      .pool (.take 0 ⟨true,true,true⟩),.get 0,.pool (.done 0),.pool (.free 0),.pool .sessionExit,
        .pool .stop,.pool (.enter 1),.pool (.post 1),
      .pool .join,.pool .freeJoined,.pool .finish,.send 0,.put 0] (newSys ⟨true,0,2⟩) = some s ∧
        s.pool.main = .returned ∧ s.reqs = [none] ∧
      s.pool.next = 2 ∧ s.next = 2 ∧ (s.pool.workers 0).pc = .gone ∧ (s.pool.workers 1).pc = .ended ∧
      s.pool.released = [(0,.itself),(1,.main)] := ⟨_,rfl,rfl,rfl,rfl,rfl,rfl,rfl,rfl⟩
  obtain ⟨s,run,returned,reqs,workers,next,first,second,released⟩ := run
  have reached := sysReached .start run
  have apart : ∀ w < s.pool.next, (s.pool.workers w).pc ≠ .unlinked := by
    rw [workers]
    intro w born
    obtain rfl | rfl : w = 0 ∨ w = 1 := by omega
    · rw [first]
      exact fun no => by cases no
    · rw [second]
      exact fun no => by cases no
  have free : ∀ ch ∈ s.reqs, ch = none := by
    rw [reqs]
    exact fun ch mem => List.mem_singleton.mp mem
  have all := (channelsClosedOnce (by decide) reached).2.2.2.2 returned apart free
  exact ⟨s,reached,released,all 0 (by omega),all 1 (by omega)⟩

end FuseStudy.PoolChannels
