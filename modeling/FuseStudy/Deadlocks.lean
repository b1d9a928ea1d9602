import FuseStudy.HeldPaths

/-! Who waits for whom. Whoever waits for a path is barred by a path that is held, and as long
as nobody holds one path while it waits for another, the holder can go on. -/
namespace FuseStudy.NodeStore
open CString LinearHash Forest Script

variable {y y' : Sys} {t u : Thread} {i k : Nat} {j : Instr} {next : j.Result → Prog Unit} {s : Fuse} {conf : Conf}
  {memory : Nat → Bool} {Fits : Sys → Prop}

/- The request stands in lockq for a path and is not done. -/
def Thread.queued (t : Thread) : Bool := decide (t.phase = .waiting) && t.goesOn Instr.isPath

/- No name is renamed onto itself, into its own subtree or over its own ancestor. -/
def Sys.apart (y : Sys) : Prop :=
  ∀ (k : Nat) (t : Thread) (want1 want2 : Want) (next : (Instr.getPath2 want1 want2).Result → Prog Unit),
    y.threads[k]? = some t → t.prog = .act (.getPath2 want1 want2) next → ¬ Clash y.fuse want1 want2

/- Nobody waits for a path with another one in hand. -/
def Sys.lone (y : Sys) : Prop := ∀ t ∈ y.threads, t.queued = true → t.holds = []

inductive RunOf (conf : Conf) (memory : Nat → Bool) (Fits : Sys → Prop) : Sys → Prop
  | start : RunOf conf memory Fits (Sys.start conf memory)
  | step {y y' : Sys} {action : Action} (before : RunOf conf memory Fits y) (allowed : y.allowed action)
      (ran : y.step action = .ok y') (fits : Fits y') : RunOf conf memory Fits y'

theorem RunOf.reachable (run : RunOf conf memory Fits y) : Reachable conf memory y := by
  induction run with
  | start => exact .start
  | step _ allowed ran _ ih => exact .step ih allowed ran

theorem queuedSo (queued : t.queued = true) :
    t.phase = .waiting ∧ ∃ j next, t.prog = .act j next ∧ j.isPath = true := by
  simp only [Thread.queued,Bool.and_eq_true,decide_eq_true_eq] at queued
  exact ⟨queued.1,goesOnSo queued.2⟩

/-! Whoever is barred is barred by a path that is held. -/

theorem Coherent.unlocked (coherent : Coherent y) (none : y.held = []) (p : Ptr) : y.fuse.lock p = 0 := by
  cases live : y.fuse.heap p with
  | none => simp [Fuse.lock,live]
  | some n =>
    have state := coherent.world.locked.state p n live
    rw [none] at state
    rw [lockAt live]
    cases state with
    | free _ is => exact is
    | marked _ some _ => exact absurd some (Nat.lt_irrefl 0)
    | owned owner => cases owner

theorem Coherent.idle {want : Want} (coherent : Coherent y) (none : y.held = []) : ¬ Busy y.fuse want := by
  rintro (⟨w,_,taken⟩ | ⟨_,_,stop,_,_,_,negative⟩)
  · exact taken (coherent.unlocked none w)
  · rw [coherent.unlocked none stop] at negative
    exact absurd negative (Int.lt_irrefl 0)

theorem Coherent.barredHeld (coherent : Coherent y) (apart : y.apart) (at_ : y.threads[k]? = some t)
    (is : t.prog = .act j next) (path : j.isPath = true) (barred : Barred y.fuse j) : y.held ≠ [] := by
  intro none
  cases j with
  | getPath want => exact coherent.idle none barred
  | getPath2 want1 want2 =>
    rcases barred with first | ⟨_,second | clash⟩
    · exact coherent.idle none first
    · exact coherent.idle none second
    · exact apart k t want1 want2 next at_ is clash
  | _ => cases path

/-! One pass over the queue: whoever still waits is barred at its end. -/

theorem Woken.bars (woken : Woken y k y') (coherent : Coherent y) : Tighter y.fuse y'.fuse ∧
    (∀ i, i ≠ k → y'.threads[i]? = y.threads[i]?) ∧
    ∀ t j next, y'.threads[k]? = some t → t.phase = .waiting → t.prog = .act j next → Barred y'.fuse j := by
  cases woken with
  | idle why =>
    refine ⟨.refl _,fun _ _ => rfl,?_⟩
    intro t j next at_ waits is
    obtain ⟨_,_,p,_,rfl,found,live,locked⟩ := why t j next at_ (.inl waits) is
    exact ⟨p,getNodeFound found,lockNode live locked⟩
  | @signalled t nodeid nlookup next p n at_ waits is found live unlocked =>
    refine ⟨.refl _,fun i other => List.getElem?_set_ne (Ne.symm other),?_⟩
    intro t' j' next' at' waits' _
    rcases atSet at' with ⟨_,rfl⟩ | ⟨other,_⟩
    · cases waits'
    · exact absurd rfl other
  | @refused t j next s at_ waits is other ran =>
    obtain ⟨tighter,_,barred⟩ := coherent.attempt at_ is (coherent.waitsPath at_ waits is other) ran
    refine ⟨tighter,fun _ _ => rfl,?_⟩
    intro t' j' next' at' _ is'
    have same : t' = t := Option.some.inj (at'.symm.trans at_)
    subst same
    rw [is] at is'
    cases is'
    exact barred rfl
  | @granted t j next s r at_ waits is other ran =>
    obtain ⟨tighter,_,_⟩ := coherent.attempt at_ is (coherent.waitsPath at_ waits is other) ran
    refine ⟨tighter,fun i other => List.getElem?_set_ne (Ne.symm other),?_⟩
    intro t' j' next' at' waits' _
    rcases atSet at' with ⟨_,rfl⟩ | ⟨other,_⟩
    · cases waits'
    · exact absurd rfl other

theorem passBars {queue : List Nat} (nodup : queue.Nodup) (coherent : Coherent y)
    (ran : queue.foldlM Sys.wakeup y = .ok y') :
    Tighter y.fuse y'.fuse ∧ (∀ i, i ∉ queue → y'.threads[i]? = y.threads[i]?) ∧
    ∀ k ∈ queue, ∀ t j next, y'.threads[k]? = some t → t.phase = .waiting → t.prog = .act j next →
      Barred y'.fuse j := by
  induction queue generalizing y with
  | nil =>
    cases ran
    exact ⟨.refl _,fun _ _ => rfl,fun k mem => absurd mem List.not_mem_nil⟩
  | cons first rest ih =>
    obtain ⟨y₁,woke,ran⟩ := callBind ran
    obtain ⟨out,nodup⟩ := List.nodup_cons.mp nodup
    have woken := wakeupSpec woke
    obtain ⟨tighter,others,bars⟩ := woken.bars coherent
    obtain ⟨tighter',others',bars'⟩ := ih nodup (woken.coherent coherent) ran
    refine ⟨tighter.trans tighter',?_,?_⟩
    · intro i outside
      rw [List.mem_cons,not_or] at outside
      exact (others' i outside.2).trans (others i outside.1)
    · intro k mem t j next at_ waits is
      rcases List.mem_cons.mp mem with rfl | later
      · rw [others' k out] at at_
        exact (bars t j next at_ waits is).tighter tighter'
      · exact bars' k later t j next at_ waits is

/-! Steps. -/

theorem pathAnswer (path : j.isPath = true) (answer : Int) : s.exec answer j = s.exec 0 j := by
  cases j <;> first | rfl | cases path

theorem holdsKept {h : Held} {hs : List Held} (keeps : j.frees = false) (r : j.Result) (mem : h ∈ hs) :
    h ∈ j.holds r hs := by
  cases j with
  | getPath want =>
    cases r with
    | ok held => exact List.mem_cons_of_mem _ mem
    | error err => exact mem
  | getPath2 want1 want2 =>
    cases r with
    | ok both => exact List.mem_cons_of_mem _ (List.mem_cons_of_mem _ mem)
    | error err => exact mem
  | freePath | freePath2 => cases keeps
  | _ => exact mem

theorem heldOf {h : Held} (at_ : y.threads[k]? = some t) (mem : h ∈ t.holds) : y.held ≠ [] :=
  List.ne_nil_of_mem (List.mem_flatMap.mpr ⟨t,List.mem_of_getElem? at_,mem⟩)

theorem heldSet {fuse : Fuse} {lockq : List Nat} (at_ : y.threads[k]? = some t)
    (more : ∀ h ∈ t.holds, h ∈ u.holds) (some : y.held ≠ []) :
    Sys.held ⟨fuse,y.threads.set k u,lockq⟩ ≠ [] := by
  obtain ⟨h,mem⟩ := List.exists_mem_of_ne_nil _ some
  obtain ⟨v,inside,own⟩ := List.mem_flatMap.mp mem
  obtain ⟨i,here⟩ := List.mem_iff_getElem?.mp inside
  by_cases same : i = k
  · subst same
    have is : v = t := Option.some.inj (here.symm.trans at_)
    subst is
    exact heldOf (y := ⟨fuse,y.threads.set i u,lockq⟩)
      (List.getElem?_set_self (List.getElem?_eq_some_iff.mp at_).1) (more h own)
  · exact heldOf (y := ⟨fuse,y.threads.set k u,lockq⟩) ((List.getElem?_set_ne (Ne.symm same)).trans here) own

/- Somebody holds a path while anybody waits for one. -/
def Sys.awaited (y : Sys) : Prop := ∀ (i : Nat) (u : Thread), y.threads[i]? = some u → u.queued = true → y.held ≠ []

theorem awaitedSet {fuse : Fuse} {lockq : List Nat} (awaited : y.awaited) (at_ : y.threads[k]? = some t)
    (more : ∀ h ∈ t.holds, h ∈ u.holds) (queued : u.queued = true → t.queued = true) :
    Sys.awaited ⟨fuse,y.threads.set k u,lockq⟩ := by
  intro i v here waits
  refine heldSet at_ more ?_
  rcases atSet here with ⟨_,rfl⟩ | ⟨_,before⟩
  · exact awaited k t at_ (queued waits)
  · exact awaited i v before waits

theorem Coherent.freedBars {answer : Int} {r : j.Result} (coherent : Coherent y)
    (at_ : y.threads[k]? = some t) (is : t.prog = .act j next) (frees : j.frees = true)
    (exec : y.fuse.exec answer j = .ok (s,some r))
    (ran : Sys.wakeUpQueued
      {({y with fuse := s} : Sys).put k (t.take j next r .running) with lockq := y.lockq.erase k} = .ok y') :
    ∀ (i : Nat) (v : Thread) (l : Instr) (rest : l.Result → Prog Unit), y'.threads[i]? = some v →
      v.phase = .waiting → v.prog = .act l rest → Barred y'.fuse l := by
  have start : Coherent
      {({y with fuse := s} : Sys).put k (t.take j next r .running) with lockq := y.lockq.erase k} := by
    refine coherent.served at_ is exec ?_ (.inl rfl) (coherent.queue.leaves at_ rfl)
    intro _ _ _ _ _ e _
    rw [freesMakes frees]
    exact List.not_mem_nil
  obtain ⟨_,others,bars⟩ := passBars start.queue.nodup start ran
  intro i v l rest here phase prog
  refine bars i ?_ v l rest here phase prog
  by_contra outside
  rw [others i outside] at here
  exact outside ((start.queue.mem i).mpr ⟨v,here,by rw [phase]; exact fun no => by cases no⟩)

theorem Sys.awaited.run {answer : Int} (awaited : y.awaited) (coherent : Coherent y) (promised : y.promised k = true)
    (ran : y.run k answer = .ok y') (apart : y'.apart) : y'.awaited := by
  have after : Coherent y' := coherent.run promised ran
  unfold Sys.run at ran
  cases at_ : y.threads[k]? with
  | none =>
    rw [at_] at ran
    cases ran
    exact awaited
  | some t =>
    rw [at_] at ran
    dsimp only at ran
    split at ran
    · cases ran
      exact awaitedSet awaited at_ (fun _ => id) fun queued => by cases queued
    · cases ran
      exact awaited
    · next j next is notGranted =>
      split at ran
      · cases ran
        exact awaited
      · obtain ⟨⟨s,r⟩,exec,ran⟩ := callBind ran
        cases r with
        | none =>
          cases ran
          intro i v here waits
          obtain ⟨_,l,rest,prog,path⟩ := queuedSo waits
          rcases atSet here with ⟨rfl,rfl⟩ | ⟨_,before⟩
          · -- it has just been refused
            replace prog : t.prog = .act l rest := prog
            rw [is] at prog
            cases prog
            rw [pathAnswer path] at exec
            have barred : Barred s j := (coherent.attempt at_ is path exec).2.2 rfl
            exact after.barredHeld apart here is path barred
          · exact heldSet at_ (fun _ => id) (awaited i v before waits)
        | some r =>
          dsimp only at ran
          split at ran
          · next frees =>
            intro i v here waits
            obtain ⟨phase,l,rest,prog,path⟩ := queuedSo waits
            exact after.barredHeld apart here prog path
              (coherent.freedBars at_ is frees exec ran i v l rest here phase prog)
          · next keeps =>
            cases ran
            exact awaitedSet awaited at_ (fun h mem => holdsKept (Bool.not_eq_true _ ▸ keeps) r mem)
              fun queued => by cases queued

theorem RunOf.awaited (fits : ∀ y, Fits y → y.apart) (run : RunOf conf memory Fits y) : y.awaited := by
  induction run with
  | start =>
    intro i u at_
    simp [Sys.start] at at_
  | @step y y' action before allowed ran fit ih =>
    have coherent := before.reachable.coherent
    cases action with
    | arrive request =>
      cases ran
      intro i u here waits
      obtain ⟨h,mem⟩ : ∃ h, h ∈ y.held := by
        rcases Nat.lt_or_ge i y.threads.length with low | high
        · rw [List.getElem?_append_left low] at here
          exact List.exists_mem_of_ne_nil _ (ih i u here waits)
        · rw [List.getElem?_append_right high] at here
          obtain ⟨_,is⟩ := List.getElem?_eq_some_iff.mp here
          rw [List.getElem_singleton] at is
          subst is
          cases waits
      refine List.ne_nil_of_mem (a := h) ?_
      simp only [Sys.held,List.flatMap_append]
      exact List.mem_append_left _ mem
    | run k answer => exact ih.run coherent allowed ran (fits y' fit)
    | clean aged =>
      simp only [Sys.step] at ran
      split at ran
      · obtain ⟨s,_,ran⟩ := callBind ran
        cases ran
        exact ih
      · cases ran
        exact ih

/-! A forget that waits does so behind a path through its node. -/

/- Every forget that waits finds its node locked. -/
def Sys.detained (y : Sys) : Prop :=
  ∀ (k : Nat) (t : Thread) (nodeid : Ino) (nlookup : Nat) (next : (Instr.forgetNode nodeid nlookup).Result → Prog Unit),
    y.threads[k]? = some t → t.phase = .waiting → t.prog = .act (.forgetNode nodeid nlookup) next →
      Barred y.fuse (.forgetNode nodeid nlookup)

theorem Frame.bars {Cut : Ptr → Prop} {Made : Ino × Name → Prop} {hs hs' : List Held} {pins pins' : List Ptr}
    {nodeid : Ino} {nlookup : Nat} (frame : Frame Cut Made s s') (world : World hs pins s)
    (after : World hs' pins' s') (barred : Barred s (.forgetNode nodeid nlookup)) :
    Barred s' (.forgetNode nodeid nlookup) := by
  obtain ⟨p,found,taken⟩ := barred
  obtain ⟨_,n,live,id⟩ := (world.tree.toStore.getNodeIff nodeid).mp found
  rw [lockAt live] at taken
  obtain ⟨n',now⟩ := Option.ne_none_iff_exists'.mp (frame.locked p n live taken)
  obtain ⟨same,lock,_⟩ := frame.kept p n n' live now
  have steady := after.tree.toSteady
  refine ⟨p,(steady.toStore.getNodeIff nodeid).mpr ⟨(steady.alive p n' now).1,n',now,same.trans id⟩,?_⟩
  rwa [lockAt now,lock]

theorem forgetWaiting {nodeid : Ino} {nlookup : Nat} {answer : Int}
    (ran : s.exec answer (.forgetNode nodeid nlookup) = .ok (s',none)) :
    s' = s ∧ Barred s (.forgetNode nodeid nlookup) := by
  obtain ⟨waits,asked,ran⟩ := callBind ran
  cases waits with
  | false =>
    obtain ⟨_,_,ran⟩ := callBind ran
    cases ran
  | true =>
    cases ran
    unfold Fuse.forgetWaits at asked
    split at asked
    · cases asked
    · obtain ⟨p,found,asked⟩ := callBind asked
      obtain ⟨n,deref,asked⟩ := callBind asked
      injection asked with locked
      obtain ⟨_,taken⟩ := of_decide_eq_true locked
      have live : s.heap p = some n := by
        unfold Fuse.deref at deref
        split at deref
        · cases deref
          assumption
        · cases deref
      exact ⟨rfl,p,getNodeFound found,lockNode live taken⟩

theorem Coherent.stillBars {answer : Int} {r : Option j.Result} {nodeid : Ino} {nlookup : Nat}
    (coherent : Coherent y) (at_ : y.threads[k]? = some t) (is : t.prog = .act j next)
    (keeps : j.frees = false) (exec : y.fuse.exec answer j = .ok (s,r))
    (barred : Barred y.fuse (.forgetNode nodeid nlookup)) : Barred s (.forgetNode nodeid nlookup) := by
  have sane := coherent.sane k t at_
  obtain ⟨facts,rest,knows⟩ := sane.knows
  rw [is] at rest
  obtain ⟨may,_⟩ := rest
  have running : t.finished = false := by rw [Thread.finished,is]
  cases path : j.isPath with
  | true =>
    rw [pathAnswer path] at exec
    exact barred.tighter (coherent.attempt at_ is path exec).1
  | false =>
    cases r with
    | none =>
      rcases (coherent.refused at_ is exec).2 with waits | ⟨_,_,rfl⟩
      · rw [path] at waits
        cases waits
      · obtain ⟨rfl,_⟩ := forgetWaiting exec
        exact barred
    | some r =>
      have step : Ran (y.others k) (y.otherPins k) (t.ghost facts) j y.fuse s r :=
        execRan (coherent.split at_) knows may ⟨sane.pair,coherent.room at_ running⟩ exec
      obtain ⟨_,_,frame⟩ := step.framed path keeps
      exact frame.bars coherent.world step.world barred

theorem Sys.detained.run {answer : Int} (detained : y.detained) (coherent : Coherent y)
    (ran : y.run k answer = .ok y') :
    y'.detained := by
  unfold Sys.run at ran
  cases at_ : y.threads[k]? with
  | none =>
    rw [at_] at ran
    cases ran
    exact detained
  | some t =>
    rw [at_] at ran
    dsimp only at ran
    split at ran
    · cases ran
      intro i v nodeid nlookup rest here waits prog
      rcases atSet here with ⟨_,rfl⟩ | ⟨_,before⟩
      · cases waits
      · exact detained i v nodeid nlookup rest before waits prog
    · cases ran
      exact detained
    · next j next is notGranted =>
      split at ran
      · cases ran
        exact detained
      · obtain ⟨⟨s,r⟩,exec,ran⟩ := callBind ran
        cases r with
        | none =>
          cases ran
          have keeps : j.frees = false := by
            by_contra frees
            exact freesAnswered (Bool.not_eq_false _ ▸ frees) exec rfl
          intro i v nodeid nlookup rest here waits prog
          rcases atSet here with ⟨rfl,rfl⟩ | ⟨_,before⟩
          · -- it has just been told to wait
            replace prog : t.prog = .act (.forgetNode nodeid nlookup) rest := prog
            rw [is] at prog
            cases prog
            obtain ⟨rfl,barred⟩ := forgetWaiting exec
            exact barred
          · exact coherent.stillBars at_ is keeps exec (detained i v nodeid nlookup rest before waits prog)
        | some r =>
          dsimp only at ran
          split at ran
          · next frees =>
            intro i v nodeid nlookup rest here waits prog
            exact coherent.freedBars at_ is frees exec ran i v _ rest here waits prog
          · next keeps =>
            cases ran
            intro i v nodeid nlookup rest here waits prog
            rcases atSet here with ⟨_,rfl⟩ | ⟨_,before⟩
            · cases waits
            · exact coherent.stillBars at_ is (Bool.not_eq_true _ ▸ keeps) exec
                (detained i v nodeid nlookup rest before waits prog)

theorem Reachable.detained (reachable : Reachable conf memory y) : y.detained := by
  induction reachable with
  | start =>
    intro k t _ _ _ at_
    simp [Sys.start] at at_
  | @step y y' action before allowed ran ih =>
    have coherent := before.coherent
    cases action with
    | arrive request =>
      cases ran
      intro k t nodeid nlookup next here waits prog
      rcases Nat.lt_or_ge k y.threads.length with low | high
      · rw [List.getElem?_append_left low] at here
        exact ih k t nodeid nlookup next here waits prog
      · rw [List.getElem?_append_right high] at here
        obtain ⟨_,is⟩ := List.getElem?_eq_some_iff.mp here
        rw [List.getElem_singleton] at is
        subst is
        cases waits
    | run k answer => exact ih.run coherent ran
    | clean aged =>
      simp only [Sys.step] at ran
      split at ran
      · next enabled =>
        obtain ⟨s,cleaned,ran⟩ := callBind ran
        cases ran
        obtain ⟨steady',swept⟩ := coherent.swept enabled cleaned
        intro k t nodeid nlookup next here waits prog
        exact (swept.frame coherent.world.tree.toSteady steady').bars coherent.world
          (coherent.clean enabled cleaned).world
          (ih k t nodeid nlookup next here waits prog)
      · cases ran
        exact ih

/- The path that a waiting forget waits for: it goes through the node, or it is that of the node
itself, taken for writing. -/
def Sys.blocks (y : Sys) (nodeid : Ino) (v : Thread) : Prop :=
  ∃ p, y.fuse.getNodeNocheck nodeid = some p ∧ ∃ h ∈ v.holds, p ∈ y.fuse.chainOf h.want.nodeid ∨ h.wnode = some p

theorem Coherent.blocked {nodeid : Ino} {nlookup : Nat} (coherent : Coherent y)
    (barred : Barred y.fuse (.forgetNode nodeid nlookup)) :
    ∃ v ∈ y.threads, y.blocks nodeid v := by
  obtain ⟨p,found,taken⟩ := barred
  obtain ⟨_,n,live,_⟩ := (coherent.world.tree.toStore.getNodeIff nodeid).mp found
  rw [lockAt live] at taken
  have held : ∃ h ∈ y.held, p ∈ y.fuse.chainOf h.want.nodeid ∨ h.wnode = some p := by
    cases coherent.world.locked.state p n live with
    | free _ is =>
      obtain ⟨h,mem,passed⟩ := readersPos.mp (show 0 < readers y.fuse y.held p by omega)
      exact ⟨h,mem,.inl passed⟩
    | marked _ some _ =>
      obtain ⟨h,mem,passed⟩ := readersPos.mp some
      exact ⟨h,mem,.inl passed⟩
    | owned owner _ _ =>
      obtain ⟨h,mem,is⟩ := writersPos.mp (show 0 < writers y.held p by omega)
      exact ⟨h,mem,.inr is⟩
  obtain ⟨h,mem,through⟩ := held
  obtain ⟨v,inside,own⟩ := List.mem_flatMap.mp mem
  exact ⟨v,inside,p,found,h,own,through⟩

theorem RunOf.serves (run : RunOf conf memory Fits y) (fits : ∀ y, Fits y → y.apart) (lone : y.lone)
    (mem : t ∈ y.threads) (queued : t.queued = true) :
    ∃ u ∈ y.threads, u.holds ≠ [] ∧ u.queued = false ∧ (u.phase = .waiting →
      ∃ nodeid nlookup next, u.prog = .act (.forgetNode nodeid nlookup) next ∧ ∃ v ∈ y.threads,
        v.queued = false ∧ y.blocks nodeid v) := by
  obtain ⟨i,at_⟩ := List.mem_iff_getElem?.mp mem
  obtain ⟨h,held⟩ := List.exists_mem_of_ne_nil _ (run.awaited fits i t at_ queued)
  obtain ⟨u,inside,own⟩ := List.mem_flatMap.mp held
  have goesOn : u.queued = false := by
    by_contra waits
    rw [lone u inside (Bool.not_eq_false _ ▸ waits)] at own
    exact absurd own List.not_mem_nil
  refine ⟨u,inside,List.ne_nil_of_mem own,goesOn,?_⟩
  intro waits
  obtain ⟨k,here⟩ := List.mem_iff_getElem?.mp inside
  obtain ⟨j,next,is,path | ⟨nodeid,nlookup,rfl⟩⟩ := (run.reachable.coherent.sane k u here).waits (.inl waits)
  · simp [Thread.queued,Thread.goesOn,waits,is,path] at goesOn
  · obtain ⟨v,among,blocks⟩ :=
      run.reachable.coherent.blocked (run.reachable.detained k u nodeid nlookup next here waits is)
    refine ⟨nodeid,nlookup,next,is,v,among,?_,blocks⟩
    obtain ⟨_,_,h,own,_⟩ := blocks
    by_contra stands
    rw [lone v among (Bool.not_eq_false _ ▸ stands)] at own
    exact absurd own List.not_mem_nil

/- As long as no request waits for a path with another one in hand, whoever waits for a path
waits while one is held by a request that goes on, or that only waits to forget a node, behind a
path through that node. -/
theorem waitersAreServed (run : RunOf conf memory (fun y => y.apart ∧ y.lone) y) (mem : t ∈ y.threads)
    (queued : t.queued = true) :
    ∃ u ∈ y.threads, u.holds ≠ [] ∧ u.queued = false ∧ (u.phase = .waiting →
      ∃ nodeid nlookup next, u.prog = .act (.forgetNode nodeid nlookup) next ∧ ∃ v ∈ y.threads,
        v.queued = false ∧ y.blocks nodeid v) := by
  have lone : y.lone := by
    cases run with
    | start => exact fun u inside => absurd inside List.not_mem_nil
    | step _ _ _ fit => exact fit.2
  exact run.serves (fun _ fit => fit.1) lone mem queued

/-! Runs that are executed. -/

def Instr.isPair : Instr → Bool
  | .getPath2 .. => true
  | _ => false

theorem apartSo (none : (y.threads.all fun t => !t.goesOn Instr.isPair) = true) : y.apart := by
  intro k t want1 want2 next at_ is
  have never := List.all_eq_true.mp none t (List.mem_of_getElem? at_)
  simp [Thread.goesOn,is,Instr.isPair] at never

theorem loneSo (empty : (y.threads.all fun t => !t.queued || t.holds.isEmpty) = true) : y.lone := by
  intro t mem queued
  have idle := List.all_eq_true.mp empty t mem
  simpa [queued] using idle

def Sys.keepsTo (check : Sys → Bool) : Sys → List Action → Bool
  | _, [] => true
  | y, action :: actions => y.allowed action && match y.step action with
    | .ok y => check y && y.keepsTo check actions
    | .error _ => true

theorem stepsRunOf {check : Sys → Bool} {actions : List Action} (fits : ∀ y, check y = true → Fits y)
    (run : RunOf conf memory Fits y) (keeps : y.keepsTo check actions = true) (ran : y.steps actions = .ok y') :
    RunOf conf memory Fits y' := by
  induction actions generalizing y with
  | nil =>
    cases ran
    exact run
  | cons action actions ih =>
    simp only [Sys.keepsTo,Bool.and_eq_true] at keeps
    obtain ⟨allowed,rest⟩ := keeps
    cases first : y.step action with
    | error fault =>
      simp only [Sys.steps,first] at ran
      cases ran
    | ok y₁ =>
      simp only [Sys.steps,first] at ran
      rw [first] at rest
      simp only [Bool.and_eq_true] at rest
      exact ih (.step run allowed first (fits y₁ rest.1)) rest.2 ran

theorem unlinkIsServed :
    ∃ y t, RunOf ⟨0,false,false⟩ (fun _ => true) (fun y => y.apart ∧ y.lone) y ∧ t ∈ y.threads ∧ t.queued = true ∧
    ∃ u ∈ y.threads, u.holds ≠ [] ∧ u.queued = false ∧ (u.phase = .waiting →
      ∃ nodeid nlookup next, u.prog = .act (.forgetNode nodeid nlookup) next ∧ ∃ v ∈ y.threads,
        v.queued = false ∧ y.blocks nodeid v) := by
  have keeps : (Sys.start ⟨0,false,false⟩ fun _ => true).keepsTo
    (fun y => (y.threads.all fun t => !t.goesOn Instr.isPair) &&
      y.threads.all fun t => !t.queued || t.holds.isEmpty) twoUnlinks = true := by
    decide +kernel
  have passes : ((Sys.start ⟨0,false,false⟩ fun _ => true).steps twoUnlinks).toOption.any
      (fun y => y.threads.any Thread.queued) = true := by
    decide +kernel
  obtain ⟨y,result,waits⟩ := ranSo passes
  obtain ⟨t,mem,queued⟩ := List.any_eq_true.mp waits
  have run : RunOf ⟨0,false,false⟩ (fun _ => true) (fun y => y.apart ∧ y.lone) y := by
    refine stepsRunOf ?_ .start keeps result
    intro y both
    rw [Bool.and_eq_true] at both
    exact ⟨apartSo both.1,loneSo both.2⟩
  exact ⟨y,t,run,mem,queued,waitersAreServed run mem queued⟩

def lookedUp (k : Nat) (parent : Ino) (name : Name) : List Action :=
  .arrive (.lookup false parent name) :: List.replicate 5 (.run k 0)

/- Two files in two directories are copied in both directions. When each copy has the path it
reads from, both directories are to be removed, and the two copies have to wait behind that. -/
def crossedCopies : List Action :=
  lookedUp 0 1 (ascii "x") ++ lookedUp 1 1 (ascii "q") ++ lookedUp 2 3 (ascii "y") ++ lookedUp 3 2
    (ascii "f") ++ lookedUp 4 4 (ascii "g") ++
    [.arrive (.copyFileRange 5 6),.run 5 0,.arrive (.copyFileRange 6 5),.run 6 0,
      .arrive (.rmdir 1 (ascii "x")),.run 7 0,
      .arrive (.rmdir 3 (ascii "y")),.run 8 0,.run 5 0,.run 6 0]

theorem copiesWaitForEver : ∃ y t, RunOf ⟨0,false,false⟩ (fun _ => true) Sys.apart y ∧ t ∈ y.threads ∧ t.queued = true ∧
    (∃ u ∈ y.threads, u.holds ≠ []) ∧ ∀ u ∈ y.threads, u.holds ≠ [] → u.queued = true := by
  have keeps : (Sys.start ⟨0,false,false⟩ fun _ => true).keepsTo
      (fun y => y.threads.all fun t => !t.goesOn Instr.isPair) crossedCopies = true := by
    decide +kernel
  have passes : ((Sys.start ⟨0,false,false⟩ fun _ => true).steps crossedCopies).toOption.any (fun y =>
      y.threads.any (fun t => t.queued && !t.holds.isEmpty) && y.threads.all fun u =>
        u.holds.isEmpty || u.queued) = true := by
    decide +kernel
  obtain ⟨y,result,stuck⟩ := ranSo passes
  rw [Bool.and_eq_true] at stuck
  obtain ⟨t,mem,both⟩ := List.any_eq_true.mp stuck.1
  rw [Bool.and_eq_true] at both
  refine ⟨y,t,stepsRunOf (fun y => apartSo) .start keeps result,mem,both.1,⟨t,mem,by simpa using both.2⟩,?_⟩
  intro u inside some
  have waits := List.all_eq_true.mp stuck.2 u inside
  simpa [some] using waits

end FuseStudy.NodeStore
