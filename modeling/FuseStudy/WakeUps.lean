import FuseStudy.PathRetries

/-! Giving a path back ends with one pass over lockq. Nothing that a later element of the
queue does in this pass makes way for an earlier one that was refused. -/
namespace FuseStudy.NodeStore
open CString LinearHash Forest Script

variable {s s' : Fuse} {y y' y₁ : Sys} {t u : Thread} {i k : Nat} {j : Instr} {next : j.Result → Prog Unit}

def Barred (s : Fuse) : Instr → Prop
  | .getPath want => Busy s want
  | .getPath2 want1 want2 => Barred2 s want1 want2
  | .forgetNode nodeid _ => ∃ p, s.getNodeNocheck nodeid = some p ∧ s.lock p ≠ 0
  | _ => False

theorem Barred.tighter (barred : Barred s j) (tighter : Tighter s s') : Barred s' j := by
  cases j with
  | getPath want => exact Busy.tighter barred tighter
  | getPath2 want1 want2 => exact Barred2.tighter barred tighter
  | forgetNode nodeid nlookup =>
    obtain ⟨p,found,taken⟩ := barred
    have still := tighter.taken p taken
    obtain ⟨locks,memory,rfl⟩ := tighter.relocked
    exact ⟨p,(getNodeRelock nodeid).trans found,still⟩
  | _ => exact barred.elim

/- One more attempt comes back with EAGAIN. -/
def Fuse.refuses (s : Fuse) : Instr → Prop
  | .getPath want => ∃ s', s.tryGetPath want true = .ok (s',.error (-eagain))
  | .getPath2 want1 want2 => ∃ s', s.tryGetPath2 want1 want2 = .ok (s',.error (-eagain))
  | _ => False

theorem Coherent.attempt {r : Option j.Result} (coherent : Coherent y) (at_ : y.threads[k]? = some t)
    (is : t.prog = .act j next) (path : j.isPath = true) (ran : y.fuse.exec 0 j = .ok (s,r)) :
    Tighter y.fuse s ∧ (Ample y.fuse → Ample s) ∧ (r = none → Barred s j) := by
  have sane := coherent.sane k t at_
  obtain ⟨facts,keeps,_⟩ := sane.knows
  rw [is] at keeps
  obtain ⟨may,_⟩ := keeps
  have world := coherent.split at_
  have room := coherent.room at_ (by rw [Thread.finished,is])
  have few : Few (t.holds ++ y.others k) := by
    have pair := sane.pair
    rw [Few,List.length_append]
    omega
  cases j with
  | getPath want =>
    obtain ⟨_,wants⟩ := may
    obtain ⟨⟨s₁,r₁⟩,tries,ran⟩ := callBind ran
    injection ran with both
    injection both with first second
    subst first
    obtain ⟨_,ok,tried⟩ | ⟨fault,_⟩ := tryGetPathSpec world.tree wants.named
    · rw [tries] at ok
      cases ok
      have tighter : Tighter y.fuse s₁ := tried.tighter world.locked few
      refine ⟨tighter,fun ample => (tryAmple ample tries).1,?_⟩
      rintro rfl
      exact (tried.waits world.tree (answeredNone second)).tighter tighter
    · rw [tries] at fault
      cases fault
  | getPath2 want1 want2 =>
    obtain ⟨none,wants1,wants2⟩ := may
    have none : t.holds = [] := none
    have room' : (t.holds ++ y.others k).length + 1 < 2147483647 := by
      rw [none]
      exact Nat.lt_of_succ_lt room
    obtain ⟨⟨s₁,r₁⟩,tries,ran⟩ := callBind ran
    injection ran with both
    injection both with first second
    subst first
    obtain ⟨_,ok,tried⟩ | ⟨fault,_⟩ := tryGetPath2Spec world.tree world.locked room' wants1.named wants2.named
    · rw [tries] at ok
      cases ok
      have tighter : Tighter y.fuse s₁ := tried.tighter world.tree world.locked room'
      refine ⟨tighter,fun ample => (try2Ample ample tries).1,?_⟩
      rintro rfl
      rw [answeredNone second] at tries
      exact (refused2Barred world.tree wants1.named wants2.named tries).tighter tighter
    · rw [tries] at fault
      cases fault
  | _ => cases path

theorem Coherent.refuses (coherent : Coherent y) (at_ : y.threads[k]? = some t) (is : t.prog = .act j next)
    (path : j.isPath = true) (barred : Barred y.fuse j) (ample : Ample y.fuse) : y.fuse.refuses j := by
  obtain ⟨facts,keeps,_⟩ := (coherent.sane k t at_).knows
  rw [is] at keeps
  obtain ⟨may,_⟩ := keeps
  have world := coherent.split at_
  cases j with
  | getPath want => exact Busy.again barred world.tree may.2.named ample
  | getPath2 want1 want2 =>
    have none : t.holds = [] := may.1
    have room : (t.holds ++ y.others k).length + 1 < 2147483647 := by
      rw [none]
      exact Nat.lt_of_succ_lt (coherent.room at_ (by rw [Thread.finished,is]))
    exact Barred2.again barred world.tree world.locked room may.2.1.named may.2.2.named ample
  | _ => cases path

def Sys.signals (y : Sys) (k : Nat) : Prop :=
  ∃ t nodeid nlookup next p n, y.threads[k]? = some t ∧ t.prog = .act (.forgetNode nodeid nlookup) next ∧
    (t.phase = .waiting ∨ t.phase = .signalled) ∧ y.fuse.getNode nodeid = .ok p ∧ y.fuse.heap p = some n ∧
    n.treelock = 0

def Sys.signalsDuring (y : Sys) (queue : List Nat) (k : Nat) : Prop :=
  ∃ before after y₁, queue = before ++ k :: after ∧ before.foldlM Sys.wakeup y = .ok y₁ ∧ y₁.signals k

/- A request that the pass has left in the queue is still barred, or has been signalled. -/
def Left (y : Sys) (k : Nat) (signalled : Prop) : Prop :=
  ∀ t j next, y.threads[k]? = some t → t.phase = .waiting ∨ t.phase = .signalled → t.prog = .act j next →
    Barred y.fuse j ∨ (t.phase = .signalled ∧ signalled ∧ j.isPath = false)

structure Passed (y y' : Sys) : Prop where
  tighter : Tighter y.fuse y'.fuse
  ample : Ample y'.fuse
  lockq : y'.lockq = y.lockq

theorem lockNode {p : Ptr} {n : Node} (live : s.heap p = some n) (locked : n.treelock ≠ 0) : s.lock p ≠ 0 := by
  rwa [lockAt live]

theorem Coherent.waitsPath (coherent : Coherent y) (at_ : y.threads[k]? = some t)
    (waits : t.phase = .waiting ∨ t.phase = .signalled) (is : t.prog = .act j next)
    (other : ∀ nodeid nlookup, j ≠ .forgetNode nodeid nlookup) : j.isPath = true := by
  obtain ⟨j',next',is',path | ⟨nodeid,nlookup,forget⟩⟩ :=
    (coherent.sane k t at_).waits waits <;> rw [is] at is' <;> cases is'
  · exact path
  · exact absurd forget (other nodeid nlookup)

theorem Woken.passed (woken : Woken y k y') (coherent : Coherent y) (ample : Ample y.fuse) :
    Passed y y' ∧ (∀ i, i ≠ k → y'.threads[i]? = y.threads[i]?) ∧ Left y' k (y.signals k) := by
  cases woken with
  | idle why =>
    refine ⟨⟨.refl _,ample,rfl⟩,fun _ _ => rfl,?_⟩
    intro t j next at_ waits is
    obtain ⟨nodeid,nlookup,p,n,rfl,found,live,locked⟩ := why t j next at_ waits is
    exact .inl ⟨p,getNodeFound found,lockNode live locked⟩
  | @signalled t nodeid nlookup next p n at_ waits is found live unlocked =>
    refine ⟨⟨.refl _,ample,rfl⟩,fun i other => List.getElem?_set_ne (Ne.symm other),?_⟩
    intro t' j' next' at' _ is'
    rcases atSet at' with ⟨_,rfl⟩ | ⟨other,_⟩
    · rw [is] at is'
      cases is'
      exact .inr ⟨rfl,⟨t,nodeid,nlookup,next,p,n,at_,is,waits,found,live,unlocked⟩,rfl⟩
    · exact absurd rfl other
  | @refused t j next s at_ waits is other ran =>
    obtain ⟨tighter,still,barred⟩ := coherent.attempt at_ is (coherent.waitsPath at_ waits is other) ran
    refine ⟨⟨tighter,still ample,rfl⟩,fun _ _ => rfl,?_⟩
    intro t' j' next' at' _ is'
    have same : t' = t := Option.some.inj (at'.symm.trans at_)
    subst same
    rw [is] at is'
    cases is'
    exact .inl (barred rfl)
  | @granted t j next s r at_ waits is other ran =>
    obtain ⟨tighter,still,_⟩ := coherent.attempt at_ is (coherent.waitsPath at_ waits is other) ran
    refine ⟨⟨tighter,still ample,rfl⟩,fun i other => List.getElem?_set_ne (Ne.symm other),?_⟩
    intro t' j' next' at' waits' _
    rcases atSet at' with ⟨_,rfl⟩ | ⟨other,_⟩
    · rcases waits' with no | no <;> cases no
    · exact absurd rfl other

/- The whole pass: an element keeps its state once its turn is over, and what bars it can
only get worse. -/
theorem passLeaves {queue : List Nat} (nodup : queue.Nodup) (coherent : Coherent y) (ample : Ample y.fuse)
    (ran : queue.foldlM Sys.wakeup y = .ok y') :
    Passed y y' ∧ (∀ i, i ∉ queue → y'.threads[i]? = y.threads[i]?) ∧ ∀ k ∈ queue,
      Left y' k (y.signalsDuring queue k) := by
  induction queue generalizing y with
  | nil =>
    cases ran
    exact ⟨⟨.refl _,ample,rfl⟩,fun _ _ => rfl,nofun⟩
  | cons first rest ih =>
    obtain ⟨y₁,woke,ran⟩ := callBind ran
    obtain ⟨out,nodup⟩ := List.nodup_cons.mp nodup
    have woken := wakeupSpec woke
    obtain ⟨passed,others,left⟩ := woken.passed coherent ample
    obtain ⟨passed',others',left'⟩ := ih nodup (woken.coherent coherent) passed.ample ran
    refine ⟨⟨passed.tighter.trans passed'.tighter,passed'.ample,passed'.lockq.trans passed.lockq⟩,?_,?_⟩
    · intro i outside
      rw [List.mem_cons,not_or] at outside
      exact (others' i outside.2).trans (others i outside.1)
    · intro k mem t j next at_ waits is
      rcases List.mem_cons.mp mem with rfl | later
      · rw [others' k out] at at_
        refine (left t j next at_ waits is).imp (fun barred => barred.tighter passed'.tighter) ?_
        rintro ⟨phase,signals,kind⟩
        exact ⟨phase,⟨[],rest,y,rfl,rfl,signals⟩,kind⟩
      · refine (left' k later t j next at_ waits is).imp_right ?_
        rintro ⟨phase,⟨before,after,y₂,rfl,ran₂,signals⟩,kind⟩
        refine ⟨phase,⟨first :: before,after,y₂,rfl,?_,signals⟩,kind⟩
        simp only [List.foldlM_cons,woke,bind,Except.bind]
        exact ran₂

theorem freesMakes (frees : j.frees = true) : j.makes = [] := by
  cases j <;> first | rfl | cases frees

theorem freesMemory {answer : Int} {r : Option j.Result} (frees : j.frees = true) (ran : s.exec answer j = .ok (s',r)) :
    s'.memory = s.memory := by
  cases j with
  | freePath held =>
    obtain ⟨s₁,freed,ran⟩ := callBind ran
    cases ran
    exact unlockPathMemory freed
  | freePath2 held1 held2 =>
    obtain ⟨s₁,first,ran⟩ := callBind ran
    obtain ⟨s₂,second,ran⟩ := callBind ran
    cases ran
    exact (unlockPathMemory second).trans (unlockPathMemory first)
  | _ => cases frees

theorem freesAnswered {answer : Int} {r : Option j.Result} (frees : j.frees = true)
    (ran : s.exec answer j = .ok (s',r)) : r ≠ none := by
  rintro rfl
  cases j with
  | freePath held =>
    obtain ⟨s₁,_,ran⟩ := callBind ran
    cases ran
  | freePath2 held1 held2 =>
    obtain ⟨s₁,_,ran⟩ := callBind ran
    obtain ⟨s₂,_,ran⟩ := callBind ran
    cases ran
  | _ => cases frees

/- After a path is given back, every request that is left in the queue for a path would be
refused again, and every forget whose node is unlocked has been signalled on the way. -/
theorem noLostWakeup {conf : Conf} {memory : Nat → Bool} {answer : Int} (reachable : Reachable conf memory y)
    (at_ : y.threads[i]? = some t) (running : t.phase = .running) (is : t.prog = .act j next) (frees : j.frees = true)
    (ample : ∀ m, y.fuse.memory m = true) (ran : y.run i answer = .ok y') :
    ∃ s r y₀, y.fuse.exec answer j = .ok (s,some r) ∧
      y₀ = {({y with fuse := s} : Sys).put i (t.take j next r .running) with lockq := y.lockq.erase i} ∧
      y₀.wakeUpQueued = .ok y' ∧
      ∀ k ∈ y'.lockq, ∀ u l rest, y'.threads[k]? = some u → u.phase ≠ .granted → u.prog = .act l rest →
        (l.isPath = true ∨ ∃ nodeid nlookup, l = .forgetNode nodeid nlookup) ∧ (l.isPath = true → y'.fuse.refuses l) ∧
        ∀ nodeid nlookup p n, l = .forgetNode nodeid nlookup → y'.fuse.getNodeNocheck nodeid = some p →
          y'.fuse.heap p = some n →
          n.treelock = 0 → u.phase = .signalled ∧ y₀.signalsDuring y₀.lockq k := by
  have coherent := reachable.coherent
  unfold Sys.run at ran
  rw [at_] at ran
  dsimp only at ran
  split at ran
  · next granted =>
    rw [running] at granted
    cases granted
  · next done _ =>
    rw [is] at done
    cases done
  · next j' next' is' _ =>
    rw [is] at is'
    cases is'
    rw [if_neg (by rw [running]; rintro ⟨no,_⟩; cases no)] at ran
    obtain ⟨⟨s,r⟩,exec,ran⟩ := callBind ran
    cases r with
    | none => exact absurd rfl (freesAnswered frees exec)
    | some r =>
      dsimp only at ran
      rw [if_pos frees] at ran
      have serial : ∀ (k : Nat) (u : Thread), k ≠ i → y.threads[k]? = some u → u.finished = false →
          ∀ e ∈ u.entries, e ∉ j.makes := by
        intro k u _ _ _ e _
        rw [freesMakes frees]
        exact List.not_mem_nil
      have start := coherent.served at_ is exec serial (.inl rfl) (coherent.queue.leaves at_ rfl)
      have plenty : Ample s := fun m => by rw [freesMemory frees exec]; exact ample m
      refine ⟨s,r,_,exec,rfl,ran,?_⟩
      have final := wokenCoherent start ran
      obtain ⟨passed,_,left⟩ := passLeaves start.queue.nodup start plenty ran
      intro k mem u l rest here ungranted prog
      have waits : u.phase = .waiting ∨ u.phase = .signalled := by
        obtain ⟨v,at',stopped⟩ := (final.queue.mem k).mp mem
        rw [here] at at'
        cases at'
        cases phase : u.phase with
        | running => exact absurd phase stopped
        | granted => exact absurd phase ungranted
        | waiting => exact .inl rfl
        | signalled => exact .inr rfl
      have outcome := left k (by rwa [← passed.lockq]) u l rest here waits prog
      obtain ⟨l',rest',prog',kind⟩ := (final.sane k u here).waits waits
      rw [prog] at prog'
      cases prog'
      refine ⟨kind,fun path => ?_,?_⟩
      · rcases outcome with barred | ⟨_,_,other⟩
        · exact final.refuses here prog path barred passed.ample
        · rw [path] at other
          cases other
      · rintro nodeid nlookup p n rfl found live unlocked
        rcases outcome with ⟨q,found',taken⟩ | ⟨phase,signals,_⟩
        · rw [found] at found'
          cases found'
          exact absurd unlocked (lockAt live ▸ taken)
        · exact ⟨phase,signals⟩

/- The directory a is looked up and used by one request when two others come to unlink it:
both have to wait, and the second still has to once the first has the path. -/
def twoUnlinks : List Action :=
  [.arrive (.lookup false 1 (ascii "a")),.run 0 0,.run 0 0,.run 0 0,.run 0 0,.run 0 0,.arrive (.access 2),.run 1 0,
    .arrive (.unlink 1 (ascii "a")),.run 2 0,.arrive (.unlink 1 (ascii "a")),.run 3 0,.run 1 0]

def Thread.goesOn (t : Thread) (check : Instr → Bool) : Bool :=
  match t.prog with
  | .act i _ => check i
  | .done _ => false

theorem goesOnSo {t : Thread} {check : Instr → Bool} (goes : t.goesOn check = true) :
    ∃ i next, t.prog = .act i next ∧ check i = true := by
  unfold Thread.goesOn at goes
  cases prog : t.prog with
  | act i next =>
    rw [prog] at goes
    exact ⟨i,next,rfl,goes⟩
  | done _ =>
    rw [prog] at goes
    cases goes

theorem secondUnlinkStillWaits :
    ∃ y y' u l rest, Reachable ⟨0,false,false⟩ (fun _ => true) y ∧ y.run 1 0 = .ok y' ∧ 3 ∈ y'.lockq ∧
    y'.threads[3]? = some u ∧ u.phase = .waiting ∧ u.prog = .act l rest ∧ y'.fuse.refuses l := by
  have legal : (Sys.start ⟨0,false,false⟩ fun _ => true).legal twoUnlinks = true := by decide +kernel
  have passes : ((Sys.start ⟨0,false,false⟩ fun _ => true).steps twoUnlinks).toOption.any (fun y =>
      y.threads[1]?.any (fun t => t.phase = .running && t.goesOn Instr.frees) && (y.run 1 0).toOption.any fun y' =>
        3 ∈ y'.lockq && y'.threads[3]?.any fun u => u.phase = .waiting && u.goesOn Instr.isPath) = true := by
    decide +kernel
  obtain ⟨y,result,both⟩ := ranSo passes
  simp only [Bool.and_eq_true] at both
  obtain ⟨freeing,waits⟩ := both
  obtain ⟨y',ran,waiting⟩ := ranSo waits
  simp only [Bool.and_eq_true,decide_eq_true_eq,Option.any_eq_true] at freeing waiting
  obtain ⟨t,at_,running,goes⟩ := freeing
  obtain ⟨j,next,is,frees⟩ := goesOnSo goes
  obtain ⟨mem,u,here,phase,follows⟩ := waiting
  obtain ⟨l,rest,prog,path⟩ := goesOnSo follows
  have ample : ∀ m, y.fuse.memory m = true := by
    intro m
    have kept : ((Sys.start ⟨0,false,false⟩ fun _ => true).steps twoUnlinks).toOption.all
      (fun y => y.fuse.memory m) = true := rfl
    rwa [result] at kept
  have reachable := stepsReachable .start legal result
  obtain ⟨_,_,_,_,_,_,all⟩ := noLostWakeup reachable at_ running is frees ample ran
  exact ⟨y,y',u,l,rest,reachable,ran,mem,here,phase,prog,
    (all 3 mem u l rest here (by rw [phase]; decide) prog).2.1 path⟩

end FuseStudy.NodeStore
