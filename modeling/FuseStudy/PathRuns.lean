import FuseStudy.PathExec

/-! Whatever order the requests run in, the paths they hold, the locks and what each of them
knows fit together. -/
namespace FuseStudy.NodeStore
open CString LinearHash Forest Script

variable {s s' : Fuse} {y y' : Sys} {t u : Thread} {i k : Nat} {hs : List Held} {pins : List Ptr}
    {threads : List Thread}
  {lockq : List Nat}

def Thread.ghost (t : Thread) (facts : Facts) : Ghost := ⟨t.entries,t.holds,t.pins,facts⟩

structure Sane (s : Fuse) (t : Thread) : Prop where
  pair : t.holds.length ≤ 2
  knows : ∃ facts, Keeps pathRule Empty t.prog (t.ghost facts) ∧ Knows s (t.ghost facts)
  waits : t.phase = .waiting ∨ t.phase = .signalled →
    ∃ j next, t.prog = .act j next ∧ (j.isPath = true ∨ ∃ nodeid nlookup, j = .forgetNode nodeid nlookup)

/- Requests stand in lockq from the moment they have to wait until they run again. -/
structure Queue (threads : List Thread) (lockq : List Nat) : Prop where
  nodup : lockq.Nodup
  mem : ∀ k, k ∈ lockq ↔ ∃ t, threads[k]? = some t ∧ t.phase ≠ .running

def Sys.pinned (y : Sys) : List Ptr := y.threads.flatMap Thread.pins

structure Coherent (y : Sys) : Prop where
  world : World y.held y.pinned y.fuse
  sane : ∀ (k : Nat) (t : Thread), y.threads[k]? = some t → Sane y.fuse t
  queue : Queue y.threads y.lockq
  few : y.unfinished < 2 ^ 30

theorem Sane.idle (sane : Sane s t) (finished : t.finished = true) : t.holds = [] ∧ t.pins = [] := by
  obtain ⟨facts,keeps,_⟩ := sane.knows
  unfold Thread.finished at finished
  split at finished
  · next _ is =>
    rw [is] at keeps
    exact keeps
  · cases finished

theorem Sane.rest (sane : Sane s t) (finished : t.finished = true) (s' : Fuse) : Sane s' t := by
  obtain ⟨facts,keeps,_⟩ := sane.knows
  refine ⟨sane.pair,⟨forgotten,?_,.nothing s' rfl⟩,sane.waits⟩
  have idle := sane.idle finished
  unfold Thread.finished at finished
  split at finished
  · next _ is =>
    rw [is]
    exact idle
  · cases finished

/-! One request among the others. -/

theorem splitAt {α β : Type} {l : List α} {a : α} (f : α → List β) (at_ : l[k]? = some a) :
    (l.flatMap f).Perm (f a ++ (l.eraseIdx k).flatMap f) := by
  obtain ⟨low,is⟩ := List.getElem?_eq_some_iff.mp at_
  have perm := (List.getElem_cons_eraseIdx_perm low).symm.flatMap_right f
  rwa [is,List.flatMap_cons] at perm

theorem splitSet {α β : Type} {l : List α} {a : α} (f : α → List β) (at_ : l[k]? = some a) (b : α) :
    ((l.set k b).flatMap f).Perm (f b ++ (l.eraseIdx k).flatMap f) := by
  have here : (l.set k b)[k]? = some b := by
    rw [List.getElem?_set_self (List.getElem?_eq_some_iff.mp at_).1]
  have perm := splitAt f here
  rwa [List.eraseIdx_set_eq] at perm

def Sys.others (y : Sys) (k : Nat) : List Held := (y.threads.eraseIdx k).flatMap Thread.holds

def Sys.otherPins (y : Sys) (k : Nat) : List Ptr := (y.threads.eraseIdx k).flatMap Thread.pins

theorem Coherent.split (coherent : Coherent y) (at_ : y.threads[k]? = some t) :
    World (t.holds ++ y.others k) (t.pins ++ y.otherPins k) y.fuse :=
  coherent.world.perm (splitAt _ at_) (splitAt _ at_)

theorem atSet {α : Type} {l : List α} {a b : α} (at_ : (l.set k b)[i]? = some a) :
    (i = k ∧ a = b) ∨ (i ≠ k ∧ l[i]? = some a) := by
  by_cases here : i = k
  · subst here
    obtain ⟨low,is⟩ := List.getElem?_eq_some_iff.mp at_
    rw [List.getElem_set_self] at is
    exact .inl ⟨rfl,is.symm⟩
  · rw [List.getElem?_set_ne (Ne.symm here)] at at_
    exact .inr ⟨here,at_⟩

theorem Sys.holdsOf (at_ : y.threads[i]? = some u) (other : i ≠ k) : ∀ h ∈ u.holds, h ∈ y.others k := by
  intro h mem
  refine List.mem_flatMap.mpr ⟨u,?_,mem⟩
  rw [List.mem_eraseIdx_iff_getElem?]
  exact ⟨i,other,at_⟩

/- At most two paths for every request that is not finished. -/
theorem heldBound {l : List Thread} (pairs : ∀ t ∈ l, t.holds.length ≤ 2)
    (idle : ∀ t ∈ l, t.finished = true → t.holds = []) :
    (l.flatMap Thread.holds).length ≤ 2 * l.countP fun t => !t.finished := by
  induction l with
  | nil => simp
  | cons t rest ih =>
    have later := ih (fun t mem => pairs t (List.mem_cons_of_mem _ mem)) fun t mem =>
      idle t (List.mem_cons_of_mem _ mem)
    have first := pairs t List.mem_cons_self
    rw [List.flatMap_cons,List.length_append,List.countP_cons]
    cases finished : t.finished with
    | true =>
      rw [idle t List.mem_cons_self finished]
      simpa using later
    | false =>
      simp only [Bool.not_false,if_true]
      omega

theorem Coherent.room (coherent : Coherent y) (at_ : y.threads[k]? = some t) (running : t.finished = false) :
    (y.others k).length + 2 < 2147483647 := by
  obtain ⟨low,is⟩ := List.getElem?_eq_some_iff.mp at_
  have each : ∀ u ∈ y.threads.eraseIdx k, Sane y.fuse u := by
    intro u mem
    obtain ⟨i,_,at_⟩ := List.mem_eraseIdx_iff_getElem?.mp mem
    exact coherent.sane i u at_
  have bound : (y.others k).length ≤ _ := heldBound (fun u mem => (each u mem).pair) fun u mem finished =>
    ((each u mem).idle finished).1
  have count := (List.getElem_cons_eraseIdx_perm low).countP_eq fun t => !t.finished
  rw [is,List.countP_cons,running] at count
  have few := coherent.few
  rw [Sys.unfinished,← count] at few
  simp only [Bool.not_false,if_true] at few
  omega

/-! The queue. -/

theorem Queue.stays (queue : Queue threads lockq) (at_ : threads[k]? = some t)
    (same : u.phase = .running ↔ t.phase = .running) :
    Queue (threads.set k u) lockq := by
  refine ⟨queue.nodup,fun i => (queue.mem i).trans ?_⟩
  by_cases here : i = k
  · subst here
    rw [List.getElem?_set_self (List.getElem?_eq_some_iff.mp at_).1,at_]
    simp [same]
  · rw [List.getElem?_set_ne (Ne.symm here)]

theorem Queue.leaves (queue : Queue threads lockq) (at_ : threads[k]? = some t) (running : u.phase = .running) :
    Queue (threads.set k u) (lockq.erase k) := by
  refine ⟨queue.nodup.erase k,fun i => ?_⟩
  rw [queue.nodup.mem_erase_iff,queue.mem i]
  by_cases here : i = k
  · subst here
    rw [List.getElem?_set_self (List.getElem?_eq_some_iff.mp at_).1]
    simp [running]
  · rw [List.getElem?_set_ne (Ne.symm here)]
    simp [here]

theorem Queue.enters (queue : Queue threads lockq) (at_ : threads[k]? = some t) (waits : u.phase ≠ .running) :
    Queue (threads.set k u) (if k ∈ lockq then lockq else lockq ++ [k]) := by
  have low := (List.getElem?_eq_some_iff.mp at_).1
  have here : (∃ v, (threads.set k u)[k]? = some v ∧ v.phase ≠ .running) := ⟨u,List.getElem?_set_self low,waits⟩
  refine ⟨?_,fun i => ?_⟩
  · split
    · exact queue.nodup
    · next out =>
      exact List.Nodup.append queue.nodup (List.nodup_singleton k) fun i mem last => out (List.mem_singleton.mp last ▸ mem)
  · by_cases same : i = k
    · subst same
      refine iff_of_true ?_ here
      split
      · assumption
      · simp
    · rw [List.getElem?_set_ne (Ne.symm same),← queue.mem i]
      split
      · rfl
      · simp [same]

theorem Queue.arrives (queue : Queue threads lockq) (running : t.phase = .running) : Queue (threads ++ [t]) lockq := by
  refine ⟨queue.nodup,fun i => (queue.mem i).trans ?_⟩
  rcases Nat.lt_trichotomy i threads.length with low | rfl | high
  · rw [List.getElem?_append_left low]
  · simp [running]
  · rw [List.getElem?_eq_none (Nat.le_of_lt high),List.getElem?_eq_none (by rw [List.length_append]; exact high)]

/-! Steps. -/

theorem holdsPair {g : Ghost} {j : Instr} (r : j.Result) (may : May g j) (pair : g.holds.length ≤ 2) :
    (j.holds r g.holds).length ≤ 2 := by
  cases j with
  | getPath want =>
    cases r with
    | ok held => exact Nat.succ_le_succ may.1
    | error err => exact pair
  | getPath2 want1 want2 =>
    cases r with
    | ok both => simp only [Instr.holds,may.1,List.length_cons,List.length_nil,Nat.le_refl]
    | error err => exact pair
  | freePath held => exact Nat.le_trans List.erase_sublist.length_le pair
  | freePath2 held1 held2 => exact Nat.le_trans (List.erase_sublist.trans List.erase_sublist).length_le pair
  | _ => exact pair

theorem unfinishedSet {l : List Thread} (at_ : l[k]? = some t) (same : u.finished = false → t.finished = false) :
    (l.set k u).countP (fun t => !t.finished) ≤ l.countP fun t => !t.finished := by
  obtain ⟨low,is⟩ := List.getElem?_eq_some_iff.mp at_
  have before := (List.getElem_cons_eraseIdx_perm low).countP_eq fun t => !t.finished
  have low' : k < (l.set k u).length := by rwa [List.length_set]
  have after := (List.getElem_cons_eraseIdx_perm low').countP_eq fun t => !t.finished
  rw [List.eraseIdx_set_eq,List.getElem_set_self,List.countP_cons] at after
  rw [is,List.countP_cons] at before
  rw [← after,← before]
  cases left : u.finished with
  | true => simp
  | false => simp [same left]

theorem Coherent.served {j : Instr} {next : j.Result → Prog Unit} {r : j.Result} {answer : Int}
    {phase : Phase} (coherent : Coherent y) (at_ : y.threads[k]? = some t) (is : t.prog = .act j next)
    (ran : y.fuse.exec answer j = .ok (s',some r))
    (serial : ∀ (i : Nat) (u : Thread), i ≠ k → y.threads[i]? = some u → u.finished = false →
      ∀ e ∈ u.entries, e ∉ j.makes)
    (settled : phase = .running ∨ phase = .granted)
    (queue : Queue (y.threads.set k (t.take j next r phase)) lockq) :
    Coherent ⟨s',y.threads.set k (t.take j next r phase),lockq⟩ := by
  have sane := coherent.sane k t at_
  obtain ⟨facts,keeps,knows⟩ := sane.knows
  rw [is] at keeps
  obtain ⟨may,rest⟩ := keeps
  have running : t.finished = false := by rw [Thread.finished,is]
  have step : Ran (y.others k) (y.otherPins k) (t.ghost facts) j y.fuse s' r :=
    execRan (coherent.split at_) knows may ⟨sane.pair,coherent.room at_ running⟩ ran
  refine ⟨?_,?_,queue,?_⟩
  · exact step.world.perm (splitSet Thread.holds at_ (t.take j next r phase)).symm
      (splitSet Thread.pins at_ (t.take j next r phase)).symm
  · intro i u here
    rcases atSet here with ⟨_,rfl⟩ | ⟨other,before⟩
    · refine ⟨holdsPair r may sane.pair,⟨_,rest r _ ⟨rfl,step.tells⟩,step.knows⟩,?_⟩
      rintro (waiting | signalled)
      · rcases settled with rfl | rfl <;> cases waiting
      · rcases settled with rfl | rfl <;> cases signalled
    · have sane := coherent.sane i u before
      cases finished : u.finished with
      | true => exact sane.rest finished s'
      | false =>
        obtain ⟨facts,keeps,knows⟩ := sane.knows
        exact ⟨sane.pair,
          ⟨facts,keeps,step.others _ knows (Sys.holdsOf before other) (serial i u other before finished)⟩,sane.waits⟩
  · exact Nat.lt_of_le_of_lt (unfinishedSet at_ fun _ => running) coherent.few

theorem Coherent.refused {j : Instr} {next : j.Result → Prog Unit} {answer : Int} (coherent : Coherent y)
    (at_ : y.threads[k]? = some t) (is : t.prog = .act j next) (ran : y.fuse.exec answer j = .ok (s',none)) :
    Coherent {y with fuse := s'} ∧ (j.isPath = true ∨ ∃ nodeid nlookup, j = .forgetNode nodeid nlookup) := by
  have sane := coherent.sane k t at_
  obtain ⟨facts,keeps,_⟩ := sane.knows
  rw [is] at keeps
  have running : t.finished = false := by rw [Thread.finished,is]
  have waited : Waited (t.holds ++ y.others k) (t.pins ++ y.otherPins k) j y.fuse s' :=
    @execWaits _ _ _ _ (t.ghost facts) _ _ (coherent.split at_) keeps.1 ⟨sane.pair,coherent.room at_ running⟩ ran
  refine ⟨⟨waited.world.perm (splitAt _ at_).symm (splitAt _ at_).symm,?_,coherent.queue,coherent.few⟩,waited.kind⟩
  intro i u here
  have sane := coherent.sane i u here
  obtain ⟨facts,keeps,knows⟩ := sane.knows
  exact ⟨sane.pair,⟨facts,keeps,knows.lookups waited.relocked.lookups⟩,sane.waits⟩

theorem Coherent.rephase {phase : Phase} (coherent : Coherent y) (at_ : y.threads[k]? = some t)
    (waits : phase = .waiting ∨ phase = .signalled →
      ∃ j next, t.prog = .act j next ∧ (j.isPath = true ∨ ∃ nodeid nlookup, j = .forgetNode nodeid nlookup))
    (queue : Queue (y.threads.set k {t with phase := phase}) lockq) :
    Coherent ⟨y.fuse,y.threads.set k {t with phase := phase},lockq⟩ := by
  have sane := coherent.sane k t at_
  refine ⟨?_,?_,queue,Nat.lt_of_le_of_lt (unfinishedSet at_ fun running => running) coherent.few⟩
  · exact (coherent.split at_).perm (splitSet Thread.holds at_ {t with phase := phase}).symm
      (splitSet Thread.pins at_ {t with phase := phase}).symm
  · intro i u here
    rcases atSet here with ⟨_,rfl⟩ | ⟨_,before⟩
    · exact ⟨sane.pair,sane.knows,waits⟩
    · exact coherent.sane i u before

inductive Woken (y : Sys) (k : Nat) : Sys → Prop
  | idle (why : ∀ t j next, y.threads[k]? = some t → t.phase = .waiting ∨ t.phase = .signalled → t.prog = .act j next →
      ∃ nodeid nlookup p n, j = .forgetNode nodeid nlookup ∧ y.fuse.getNode nodeid = .ok p ∧ y.fuse.heap p = some n ∧
        n.treelock ≠ 0) : Woken y k y
  | signalled {t : Thread} {nodeid nlookup next p n} (at_ : y.threads[k]? = some t)
      (waits : t.phase = .waiting ∨ t.phase = .signalled) (is : t.prog = .act (.forgetNode nodeid nlookup) next)
      (found : y.fuse.getNode nodeid = .ok p) (live : y.fuse.heap p = some n) (unlocked : n.treelock = 0) :
      Woken y k (y.put k {t with phase := .signalled})
  | refused {t : Thread} {j : Instr} {next s} (at_ : y.threads[k]? = some t)
      (waits : t.phase = .waiting ∨ t.phase = .signalled)
      (is : t.prog = .act j next) (other : ∀ nodeid nlookup, j ≠ .forgetNode nodeid nlookup)
      (ran : y.fuse.exec 0 j = .ok (s,none)) : Woken y k {y with fuse := s}
  | granted {t : Thread} {j : Instr} {next s r} (at_ : y.threads[k]? = some t)
      (waits : t.phase = .waiting ∨ t.phase = .signalled)
      (is : t.prog = .act j next) (other : ∀ nodeid nlookup, j ≠ .forgetNode nodeid nlookup)
      (ran : y.fuse.exec 0 j = .ok (s,some r)) : Woken y k ({y with fuse := s}.put k (t.take j next r .granted))

theorem wakeupSpec (ran : y.wakeup k = .ok y') : Woken y k y' := by
  unfold Sys.wakeup at ran
  cases at_ : y.threads[k]? with
  | none =>
    rw [at_] at ran
    cases ran
    exact .idle fun t j next here => by rw [at_] at here; cases here
  | some t =>
    rw [at_] at ran
    dsimp only at ran
    have idle : (∀ j next, t.phase = .waiting ∨ t.phase = .signalled → t.prog = .act j next → False) → Woken y k y := by
      intro none
      refine .idle fun t' j next here waits is => ?_
      rw [at_] at here
      cases here
      exact (none j next waits is).elim
    have waits : t.phase ≠ .running → t.phase ≠ .granted → t.phase = .waiting ∨ t.phase = .signalled := by
      cases t.phase <;> simp
    split at ran
    · next phase =>
      cases ran
      exact idle fun j next waits _ => by rw [phase] at waits; simp at waits
    · next phase =>
      cases ran
      exact idle fun j next waits _ => by rw [phase] at waits; simp at waits
    · next prog _ _ =>
      cases ran
      exact idle fun j next _ is => by rw [prog] at is; cases is
    · next nodeid nlookup next prog notRunning notGranted =>
      obtain ⟨p,found,ran⟩ := callBind ran
      obtain ⟨n,deref,ran⟩ := callBind ran
      have live : y.fuse.heap p = some n := by
        unfold Fuse.deref at deref
        split at deref
        · cases deref
          assumption
        · cases deref
      cases ran
      split
      · next unlocked => exact .signalled at_ (waits notRunning notGranted) prog found live unlocked
      · next locked =>
        refine .idle fun t' j next here _ is => ?_
        rw [at_] at here
        cases here
        rw [prog] at is
        cases is
        exact ⟨nodeid,nlookup,p,n,rfl,found,live,locked⟩
    · next j next other prog notRunning notGranted =>
      obtain ⟨⟨s,r⟩,exec,ran⟩ := callBind ran
      have other : ∀ nodeid nlookup, j ≠ .forgetNode nodeid nlookup := by
        rintro nodeid nlookup rfl
        exact other nodeid nlookup next rfl .rfl
      cases r with
      | none =>
        cases ran
        exact .refused at_ (waits notRunning notGranted) prog other exec
      | some r =>
        cases ran
        exact .granted at_ (waits notRunning notGranted) prog other exec

theorem pathMakes {j : Instr} (path : j.isPath = true) : j.makes = [] := by
  cases j <;> first | rfl | cases path

theorem Woken.coherent (woken : Woken y k y') (coherent : Coherent y) : Coherent y' := by
  cases woken with
  | idle => exact coherent
  | @signalled t nodeid nlookup next p n at_ waits is found live unlocked =>
    refine coherent.rephase at_ (fun _ => ⟨_,next,is,.inr ⟨nodeid,nlookup,rfl⟩⟩) (coherent.queue.stays at_ ?_)
    rcases waits with waiting | signalled <;> simp [*]
  | refused at_ waits is other ran => exact (coherent.refused at_ is ran).1
  | @granted t j next s r at_ waits is other ran =>
    have path : j.isPath = true := by
      obtain ⟨j',next',is',path | ⟨nodeid,nlookup,forget⟩⟩ :=
        (coherent.sane k t at_).waits waits <;> rw [is] at is' <;> cases is'
      · exact path
      · exact absurd forget (other nodeid nlookup)
    refine coherent.served at_ is ran (fun _ _ _ _ _ e _ => by rw [pathMakes path]; exact List.not_mem_nil)
      (.inr rfl) ?_
    refine coherent.queue.stays at_ ?_
    rcases waits with waiting | signalled <;> simp [*,Thread.take]

theorem wokenCoherent {l : List Nat} (coherent : Coherent y) (ran : l.foldlM Sys.wakeup y = .ok y') : Coherent y' := by
  induction l generalizing y with
  | nil =>
    cases ran
    exact coherent
  | cons k rest ih =>
    obtain ⟨y₁,first,rest⟩ := callBind ran
    exact ih ((wakeupSpec first).coherent coherent) rest

theorem Sys.serialOthers {j : Instr} (serial : y.serial k j = true) :
    ∀ (i : Nat) (u : Thread), i ≠ k → y.threads[i]? = some u → u.finished = false → ∀ e ∈ u.entries, e ∉ j.makes := by
  intro i u other at_ running e mem makes
  have all := List.all_eq_true.mp serial (u,i) (List.mem_zipIdx_iff_getElem?.mpr at_)
  have differs : (i == k) = false := beq_eq_false_iff_ne.mpr other
  simp only [differs,running,Bool.false_or,List.all_eq_true] at all
  have out := all e makes
  simp [mem] at out

theorem Coherent.run {answer : Int} (coherent : Coherent y) (promised : y.promised k = true)
    (ran : y.run k answer = .ok y') : Coherent y' := by
  unfold Sys.run at ran
  cases at_ : y.threads[k]? with
  | none =>
    rw [at_] at ran
    cases ran
    exact coherent
  | some t =>
    rw [at_] at ran
    dsimp only at ran
    split at ran
    · next phase =>
      cases ran
      exact coherent.rephase at_ (by rintro (no | no) <;> cases no) (coherent.queue.leaves at_ rfl)
    · cases ran
      exact coherent
    · next j next is notGranted =>
      split at ran
      · cases ran
        exact coherent
      · obtain ⟨⟨s,r⟩,exec,ran⟩ := callBind ran
        cases r with
        | none =>
          cases ran
          obtain ⟨coherent',kind⟩ := coherent.refused at_ is exec
          exact coherent'.rephase at_ (fun _ => ⟨j,next,is,kind⟩) (coherent.queue.enters at_ (by nofun))
        | some r =>
          dsimp only at ran
          have serial : y.serial k j = true := by
            unfold Sys.promised at promised
            rw [at_] at promised
            dsimp only at promised
            rw [is] at promised
            exact promised
          have served := coherent.served at_ is exec (Sys.serialOthers serial) (.inl rfl)
            (coherent.queue.leaves at_ rfl)
          split at ran
          · exact wokenCoherent served ran
          · cases ran
            exact served

theorem Swept.frame {aged : Ptr → Bool} {extra : Ptr → Nat} (swept : Swept aged s s') (steady : Steady extra s)
    (steady' : Steady extra s') : Frame Never Never s s' := by
  have effect : Effect Never Never Never (fun p k => if (s'.heap p).isSome then k else 0) s s' := by
    refine ⟨swept.conf,Nat.le_of_eq swept.brk.symm,swept.hidectr,?_,?_,?_,?_,?_⟩
    · intro p n n' was now
      obtain ⟨m,was',same⟩ := swept.kept p n' now
      rw [was] at was'
      cases was'
      rw [same,now]
      exact ⟨rfl,rfl,rfl,rfl,(or_iff_left (fun no => no)).symm,fun _ => rfl,fun _ => rfl⟩
    · intro p n was gone
      exact ⟨(swept.gone p n was gone).1,by rw [gone]; rfl⟩
    · intro p n' none now
      obtain ⟨m,was,_⟩ := swept.kept p n' now
      rw [none] at was
      cases was
    · exact fun p _ _ => swept.names p
    · rintro p (no | none) named
      · exact no.elim
      · exact absurd none (steady.namedLive ((swept.names p).mp named).1)
  exact effect.frame steady steady'

theorem Coherent.fewHeld (coherent : Coherent y) : Few y.held := by
  have bound : y.held.length ≤ _ := heldBound (fun t mem => by
    obtain ⟨k,at_⟩ := List.mem_iff_getElem?.mp mem
    exact (coherent.sane k t at_).pair) fun t mem finished => by
    obtain ⟨k,at_⟩ := List.mem_iff_getElem?.mp mem
    exact ((coherent.sane k t at_).idle finished).1
  have few := coherent.few
  rw [Sys.unfinished] at few
  rw [Few]
  omega

theorem Coherent.swept {aged : Ptr → Bool} (coherent : Coherent y) (enabled : y.fuse.lruEnabled)
    (ran : y.fuse.cleanCache aged = .ok s') :
    Steady (fun p => y.pinned.count p) s' ∧ Swept aged y.fuse s' := by
  refine cleanLoopKeeps _ _ coherent.world.tree.toSteady enabled coherent.world.unlisted ?_ ran
  intro q head
  have mem := List.mem_of_head? head
  exact ⟨fun zero => coherent.world.unlisted (zero ▸ mem),fun _ => mem⟩

theorem Coherent.firmClean {aged : Ptr → Bool} (coherent : Coherent y) (enabled : y.fuse.lruEnabled)
    (ran : y.fuse.cleanCache aged = .ok s') : Firm y.held y.fuse s' := by
  obtain ⟨steady',swept⟩ := coherent.swept enabled ran
  exact coherent.world.firmFrame coherent.fewHeld (swept.frame coherent.world.tree.toSteady steady') fun _ no => no.elim

theorem Coherent.clean {aged : Ptr → Bool} (coherent : Coherent y) (enabled : y.fuse.lruEnabled)
    (ran : y.fuse.cleanCache aged = .ok s') :
    Coherent {y with fuse := s'} := by
  have world := coherent.world
  obtain ⟨steady',swept⟩ := coherent.swept enabled ran
  have frame := swept.frame world.tree.toSteady steady'
  refine ⟨world.still coherent.fewHeld steady' frame (Nat.le_of_eq swept.brk.symm) ?_ (fun _ => .inl)
    (fun zero => world.unlisted (swept.lru.subset zero)),?_,coherent.queue,coherent.few⟩
  · intro p none
    by_contra there
    obtain ⟨n',now⟩ := Option.ne_none_iff_exists'.mp there
    obtain ⟨n,was,_⟩ := swept.kept p n' now
    rw [none] at was
    cases was
  · intro k t at_
    have sane := coherent.sane k t at_
    obtain ⟨facts,keeps,knows⟩ := sane.knows
    refine ⟨sane.pair,⟨facts,keeps,?_⟩,sane.waits⟩
    refine knows.frame frame world ?_ (fun _ _ _ _ no => no) fun _ _ no => no
    exact fun h mem => List.mem_flatMap.mpr ⟨t,List.mem_of_getElem? at_,mem⟩

theorem Coherent.arrive {request : Request} (coherent : Coherent y) (forgets : request.forgetsSome = true)
    (few : y.unfinished < 2 ^ 30 - 1) :
    Coherent {y with threads := y.threads ++ [⟨request.entries,request.script y.fuse.conf,[],[],.running⟩]} := by
  refine ⟨?_,?_,coherent.queue.arrives rfl,?_⟩
  · simp only [Sys.held,Sys.pinned,List.flatMap_append,List.flatMap_cons,List.flatMap_nil,List.append_nil]
    exact coherent.world
  · intro k t at_
    rcases Nat.lt_trichotomy k y.threads.length with low | rfl | high
    · rw [List.getElem?_append_left low] at at_
      exact coherent.sane k t at_
    · simp only [List.getElem?_concat_length,Option.some.injEq] at at_
      subst at_
      exact ⟨Nat.zero_le _,⟨forgotten,requestKeeps _ forgets,.nothing _ rfl⟩,by rintro (no | no) <;> cases no⟩
    · rw [List.getElem?_eq_none (by rw [List.length_append]; exact high)] at at_
      cases at_
  · rw [Sys.unfinished,List.countP_append]
    have last : List.countP (fun t => !t.finished)
        [(⟨request.entries,request.script y.fuse.conf,[],[],.running⟩ : Thread)] ≤ 1 :=
      List.countP_le_length
    rw [Sys.unfinished] at few
    omega

theorem Coherent.step {action : Action} (coherent : Coherent y) (allowed : y.allowed action = true)
    (ran : y.step action = .ok y') :
    Coherent y' := by
  cases action with
  | arrive request =>
    cases ran
    simp only [Sys.allowed,Bool.and_eq_true,decide_eq_true_eq] at allowed
    exact coherent.arrive allowed.1 allowed.2
  | run i answer => exact coherent.run allowed ran
  | clean aged =>
    simp only [Sys.step] at ran
    split at ran
    · next enabled =>
      obtain ⟨s,cleaned,ran⟩ := callBind ran
      cases ran
      exact coherent.clean enabled cleaned
    · cases ran
      exact coherent

theorem startCoherent (conf : Conf) (memory : Nat → Bool) : Coherent (Sys.start conf memory) := by
  have steady := fuseNewSteady conf memory
  have alone : ∀ p n, (fuseNew conf memory).heap p = some n → p = 0 ∧ n = rootNode := fun p n live =>
    emptyTreeCell conf memory live
  refine ⟨⟨⟨steady,?_⟩,⟨nofun,?_⟩,nofun,List.not_mem_nil⟩,?_,⟨List.nodup_nil,?_⟩,by simp [Sys.start,Sys.unfinished]⟩
  · intro p live
    obtain ⟨n,at_⟩ := Option.ne_none_iff_exists'.mp live
    obtain ⟨rfl,rfl⟩ := alone p n at_
    exact ⟨[],0,.here 0,IsRoot.top ⟨rootNode,at_,rfl⟩⟩
  · intro p n live
    obtain ⟨rfl,rfl⟩ := alone p n live
    exact .free rfl rfl
  · intro k t at_
    simp [Sys.start] at at_
  · simp [Sys.start]

theorem Reachable.coherent {conf : Conf} {memory : Nat → Bool} (reachable : Reachable conf memory y) : Coherent y := by
  induction reachable with
  | start => exact startCoherent conf memory
  | step _ allowed ran ih => exact ih.step allowed ran

end FuseStudy.NodeStore
