import FuseStudy.WakeUps

/-! What the locks are for: the counters always tell who holds what, no assertion about them
fails, and a path that is held stays the path of its node. -/
namespace FuseStudy.NodeStore
open CString LinearHash Forest Script

variable {s s' : Fuse} {y y' : Sys} {t u : Thread} {i k : Nat} {p q : Ptr} {n m : Node} {hs : List Held}
    {pins : List Ptr}
  {extra : Ptr → Nat} {others : List Held} {otherPins : List Ptr} {g : Ghost} {conf : Conf} {memory : Nat → Bool}

/-! The assertions of unlock_path. -/

def LocksKept (fault : Fault) : Prop := fault ≠ .readLost ∧ fault ≠ .writeLost

theorem callFault {α β : Type} {run : Except Fault α} {next : α → Except Fault β} {fault : Fault}
    (fails : run.bind next = .error fault) : run = .error fault ∨ ∃ a, run = .ok a ∧ next a = .error fault := by
  cases run with
  | error fault' =>
    cases fails
    exact .inl rfl
  | ok a => exact .inr ⟨a,rfl,fails⟩

theorem derefFault {fault : Fault} (fails : s.deref p = .error fault) : LocksKept fault := by
  unfold Fuse.deref at fails
  split at fails
  · cases fails
  · cases fails
    exact ⟨nofun,nofun⟩

theorem getNodeFault {nodeid : Ino} {fault : Fault} (fails : s.getNode nodeid = .error fault) : LocksKept fault := by
  unfold Fuse.getNode at fails
  split at fails
  · cases fails
  · cases fails
    exact ⟨nofun,nofun⟩

theorem derefNodeFault {node : Option Ptr} {fault : Fault} (fails : s.derefNode node = .error fault) :
    LocksKept fault := by
  cases node with
  | none =>
    cases fails
    exact ⟨nofun,nofun⟩
  | some p => exact derefFault fails

theorem Bad.locksKept {dirs : List Ino} {fault : Fault} (bad : Bad s dirs fault) : LocksKept fault := by
  cases bad <;> exact ⟨nofun,nofun⟩

theorem peekPathFault {nodeid : Ino} {name : Option Name} {fault : Fault} (tree : Tree extra s)
    (fails : s.peekPath nodeid name = .error fault) : LocksKept fault := by
  obtain ⟨s₁,r₁,ok,_⟩ | fault := peekSpec tree (show (Want.mk nodeid name false).write = false from rfl)
  · simp only [Fuse.peekPath,ok,bind,Except.bind] at fails
    cases fails
  · simp only [Fuse.peekPath,fault,bind,Except.bind] at fails
    cases fails
    exact ⟨nofun,nofun⟩

theorem hiddenLoopFault {dir nodeid : Ino} {fault : Fault} (fuel : Nat) (s : Fuse)
    (fails : hiddenLoop dir nodeid fuel s = .error fault) : LocksKept fault := by
  induction fuel generalizing s with
  | zero =>
    cases fails
    exact ⟨nofun,nofun⟩
  | succ fuel ih =>
    unfold hiddenLoop at fails
    dsimp only at fails
    split at fails
    · exact ih _ fails
    · cases fails

theorem forgetNodeFault {nodeid : Ino} {nlookup : Nat} {fault : Fault} (world : World hs pins s)
    (positive : 0 < nlookup) (fails : s.forgetNode nodeid nlookup = .error fault) : LocksKept fault := by
  by_cases plain : nodeid = rootId
  · simp only [Fuse.forgetNode,if_pos plain] at fails
    cases fails
  have again := fails
  simp only [Fuse.forgetNode,if_neg plain] at again
  rcases callFault again with noNode | ⟨p,get,again⟩
  · exact getNodeFault noNode
  have found := getNodeFound get
  obtain ⟨_,n,live,_⟩ := (world.tree.toStore.getNodeIff nodeid).mp found
  rcases callFault again with gone | ⟨n',deref,again⟩
  · exact derefFault gone
  rw [derefOk live] at deref
  cases deref
  by_cases short : n.nlookup < nlookup
  · rw [if_pos short] at again
    cases again
    exact ⟨(fun no => by cases no),(fun no => by cases no)⟩
  have outcome := forgetNodeSpec world.tree.toSteady plain found live (by omega) (Nat.le_of_not_lt short)
  rw [fails] at outcome
  exact outcome.locksKept

theorem unpinFault {node : Ptr} {fault : Fault} (world : World hs pins s) (pinned : node ∈ pins)
    (fails : s.unrefNode node = .error fault) : LocksKept fault := by
  have counts : (fun p => pins.count p) = bump (fun p => (pins.erase node).count p) node := by
    funext p
    rw [(List.perm_cons_erase pinned).count_eq,bump]
    split
    · next here => rw [here,List.count_cons_self]
    · next other => exact List.count_cons_of_ne (Ne.symm other)
  have owed := world.tree.toStore
  rw [counts] at owed
  cases live : s.heap node with
  | none =>
    unfold Fuse.unrefNode unrefLoop at fails
    rcases callFault fails with gone | ⟨n,deref,_⟩
    · exact derefFault gone
    · simp only [Fuse.deref,live] at deref
      cases deref
  | some n =>
    have cascade := unrefCascade owed live (apartNone _ _)
    rw [fails] at cascade
    cases cascade
    exact ⟨(fun no => by cases no),(fun no => by cases no)⟩

theorem getPathFault {want : Want} {fault : Fault} (tree : Tree extra s) (named : want.write = true → want.name ≠ none)
    (fails : s.tryGetPath want true = .error fault) : LocksKept fault := by
  obtain ⟨r,ok,_⟩ | ⟨bad,_⟩ := tryGetPathSpec tree named
  · rw [ok] at fails
    cases fails
  · rw [bad] at fails
    cases fails
    exact ⟨nofun,nofun⟩

theorem getPath2Fault {want1 want2 : Want} {fault : Fault} (world : World hs pins s) (room : hs.length + 1 < 2147483647)
    (named1 : want1.write = true → want1.name ≠ none) (named2 : want2.write = true → want2.name ≠ none)
    (fails : s.tryGetPath2 want1 want2 = .error fault) : LocksKept fault := by
  obtain ⟨r,ok,_⟩ | ⟨bad,_⟩ := tryGetPath2Spec world.tree world.locked room named1 named2
  · rw [ok] at fails
    cases fails
  · rw [bad] at fails
    cases fails
    exact ⟨nofun,nofun⟩

theorem World.unlocks {h : Held} (world : World hs pins s) (few : Few hs) (mem : h ∈ hs) :
    ∃ s', s.unlockPath h.want.nodeid h.wnode none = .ok s' ∧ World (hs.erase h) pins s' := by
  have perm := List.perm_cons_erase mem
  have world := world.perm perm (.refl _)
  obtain ⟨_,_,_,_,_,_,ok,_⟩ := world.locked.unlocked (few.perm perm) world.tree
  exact ⟨_,ok,(world.unlock (few.perm perm) ok).1⟩

theorem forgetWaitsFault {nodeid : Ino} {nlookup : Nat} {fault : Fault}
    (fails : s.forgetWaits nodeid nlookup = .error fault) :
    LocksKept fault := by
  unfold Fuse.forgetWaits at fails
  split at fails
  · cases fails
  · rcases callFault fails with noNode | ⟨p,_,fails⟩
    · exact getNodeFault noNode
    · rcases callFault fails with gone | ⟨_,_,fails⟩
      · exact derefFault gone
      · cases fails

theorem isOpenFault {dir : Ino} {name : Name} {fault : Fault} (fails : s.isOpen dir name = .error fault) :
    LocksKept fault := by
  unfold Fuse.isOpen at fails
  split at fails
  · cases fails
  · rcases callFault fails with gone | ⟨_,_,fails⟩
    · exact derefFault gone
    · cases fails

theorem hiddenNameFault {dir : Ino} {oldname : Name} {fault : Fault} (world : World hs pins s) (few : Few hs)
    (fails : s.hiddenName dir oldname = .error fault) : LocksKept fault := by
  unfold Fuse.hiddenName at fails
  split at fails
  · cases fails
  · rcases callFault fails with gone | ⟨_,_,fails⟩
    · exact derefFault gone
    · rcases callFault fails with stuck | ⟨⟨s₁,newname⟩,loop,fails⟩
      · exact hiddenLoopFault _ s stuck
      · rcases callFault fails with bad | ⟨_,_,fails⟩
        · obtain ⟨hidectr,rfl,_⟩ := hiddenLoopSpec _ s loop
          have same : SameTables s {s with hidectr := hidectr} := ⟨rfl,rfl,rfl,rfl,Nat.le_refl _⟩
          exact peekPathFault (world.same few same).tree bad
        · cases fails

theorem openNodeFault {nodeid : Ino} {fault : Fault} (fails : s.openNode nodeid = .error fault) : LocksKept fault := by
  rcases callFault fails with noNode | ⟨_,_,fails⟩
  · exact getNodeFault noNode
  · rcases callFault fails with gone | ⟨_,_,fails⟩
    · exact derefFault gone
    · cases fails

theorem releaseNodeFault {nodeid : Ino} {fault : Fault} (fails : s.releaseNode nodeid = .error fault) :
    LocksKept fault := by
  rcases callFault fails with noNode | ⟨_,_,fails⟩
  · exact getNodeFault noNode
  · rcases callFault fails with gone | ⟨_,_,fails⟩
    · exact derefFault gone
    · split at fails
      · cases fails
        exact ⟨nofun,nofun⟩
      · cases fails

theorem pinNodeFault {nodeid : Ino} {fault : Fault} (fails : s.pinNode nodeid = .error fault) : LocksKept fault := by
  unfold Fuse.pinNode at fails
  split at fails
  · cases fails
  · rcases callFault fails with gone | ⟨_,_,fails⟩
    · exact derefFault gone
    · cases fails

theorem parentIdFault {nodeid : Ino} {fault : Fault} (fails : s.parentId nodeid = .error fault) : LocksKept fault := by
  rcases callFault fails with noNode | ⟨_,_,fails⟩
  · exact getNodeFault noNode
  · rcases callFault fails with gone | ⟨_,_,fails⟩
    · exact derefFault gone
    · rcases callFault fails with gone | ⟨_,_,fails⟩
      · exact derefNodeFault gone
      · cases fails

theorem execLocksKept {i : Instr} {answer : Int} {fault : Fault}
    (world : World (g.holds ++ others) (g.pins ++ otherPins) s) (knows : Knows s g) (may : May g i)
    (few : g.holds.length ≤ 2 ∧ others.length + 2 < 2147483647) (fails : s.exec answer i = .error fault) :
    LocksKept fault := by
  have few₁ : Few (g.holds ++ others) := by
    rw [Few,List.length_append]
    omega
  cases i with
  | getPath want =>
    rcases callFault fails with bad | ⟨_,_,fails⟩
    · exact getPathFault world.tree may.2.named bad
    · cases fails
  | getPath2 want1 want2 =>
    have room : (g.holds ++ others).length + 1 < 2147483647 := by
      rw [may.1]
      exact Nat.lt_of_succ_lt few.2
    rcases callFault fails with bad | ⟨_,_,fails⟩
    · exact getPath2Fault world room may.2.1.named may.2.2.named bad
    · cases fails
  | freePath held =>
    obtain ⟨_,ok,_⟩ := world.unlocks few₁ (List.mem_append_left _ may)
    simp only [Fuse.exec,ok,bind,Except.bind] at fails
    cases fails
  | freePath2 held1 held2 =>
    obtain ⟨s₁,ok,world₁⟩ := world.unlocks few₁ (List.mem_append_left _ may.1)
    rw [List.erase_append_left _ may.1] at world₁
    have few₂ : Few (g.holds.erase held1 ++ others) :=
      Nat.lt_of_le_of_lt ((List.erase_sublist (a := held1)).append_right others).length_le few₁
    obtain ⟨_,ok₂,_⟩ := world₁.unlocks few₂ (List.mem_append_left _ may.2)
    simp only [Fuse.exec,ok,ok₂,bind,Except.bind] at fails
    cases fails
  | peekPath nodeid =>
    rcases callFault fails with bad | ⟨r,_,fails⟩
    · exact peekPathFault world.tree bad
    · cases fails
  | findNode parent name =>
    rcases callFault fails with bad | ⟨⟨s₁,found⟩,_,fails⟩
    · have outcome := findNodeSpec world.tree.toSteady world.spare parent name
      rw [bad] at outcome
      exact outcome.locksKept
    · cases found with
      | none => cases fails
      | some p =>
        rcases callFault fails with gone | ⟨_,_,fails⟩
        · exact derefFault gone
        · cases fails
  | forgetNode nodeid nlookup =>
    rcases callFault fails with bad | ⟨waits,_,fails⟩
    · exact forgetWaitsFault bad
    · cases waits with
      | true => cases fails
      | false =>
        rcases callFault fails with bad | ⟨_,_,fails⟩
        · exact forgetNodeFault world may bad
        · cases fails
  | removeNode dir name =>
    rcases callFault fails with bad | ⟨_,_,fails⟩
    · have outcome : Outcome _ (Removed _ s dir name) _ :=
        removeNodeSpec world.tree.toSteady (world.dirPinned few₁ may.2)
      rw [bad] at outcome
      exact outcome.locksKept
    · cases fails
  | renameNode olddir oldname newdir newname hide =>
    rcases callFault fails with bad | ⟨_,_,fails⟩
    · have outcome := renameNodeOutcome world knows may few₁
      rw [bad] at outcome
      exact outcome.locksKept
    · cases fails
  | exchangeNode olddir oldname newdir newname =>
    rcases callFault fails with bad | ⟨_,_,fails⟩
    · obtain ⟨_,same⟩ | outcome := exchangeNodeOutcome world knows may few₁
      · rw [bad] at same
        cases same
      · rw [bad] at outcome
        exact outcome.locksKept
    · cases fails
  | isOpen dir name =>
    rcases callFault fails with bad | ⟨_,_,fails⟩
    · exact isOpenFault bad
    · cases fails
  | hiddenName dir oldname =>
    rcases callFault fails with bad | ⟨_,_,fails⟩
    · exact hiddenNameFault world few₁ bad
    · cases fails
  | nodeName node =>
    rcases callFault fails with bad | ⟨_,_,fails⟩
    · exact derefNodeFault bad
    · split at fails
      · cases fails
        exact ⟨(fun no => by cases no),(fun no => by cases no)⟩
      · cases fails
  | nodeId node =>
    rcases callFault fails with bad | ⟨_,_,fails⟩
    · exact derefNodeFault bad
    · cases fails
  | getNode nodeid =>
    rcases callFault fails with bad | ⟨_,_,fails⟩
    · exact getNodeFault bad
    · cases fails
  | openNode nodeid =>
    rcases callFault fails with bad | ⟨_,_,fails⟩
    · exact openNodeFault bad
    · cases fails
  | releaseNode nodeid =>
    rcases callFault fails with bad | ⟨_,_,fails⟩
    · exact releaseNodeFault bad
    · cases fails
  | pinNode nodeid =>
    rcases callFault fails with bad | ⟨_,_,fails⟩
    · exact pinNodeFault bad
    · cases fails
  | unpinNode node =>
    rcases callFault fails with bad | ⟨_,_,fails⟩
    · exact unpinFault world (List.mem_append_left _ may) bad
    · cases fails
  | parentId nodeid =>
    rcases callFault fails with bad | ⟨_,_,fails⟩
    · exact parentIdFault bad
    · cases fails
  | callback op path path2 => cases fails
  | reply err => cases fails

/-! States that occur. -/

/- Every state that occurs, also between the steps of a pass over the queue. -/
inductive Visited (conf : Conf) (memory : Nat → Bool) : Sys → Prop
  | start : Visited conf memory (Sys.start conf memory)
  | step {y y' : Sys} {action : Action} (before : Visited conf memory y) (allowed : y.allowed action)
      (ran : y.step action = .ok y') : Visited conf memory y'
  -- a path has been given back and the pass is about to begin
  | freed {y : Sys} {i : Nat} {t : Thread} {j next s answer r} (before : Visited conf memory y)
      (at_ : y.threads[i]? = some t)
      (running : t.phase = .running) (is : t.prog = .act j next) (frees : j.frees = true)
      (ran : y.fuse.exec answer j = .ok (s,some r)) :
      Visited conf memory {({y with fuse := s} : Sys).put i (t.take j next r .running) with lockq := y.lockq.erase i}
  | woken {y y' : Sys} {k : Nat} (before : Visited conf memory y) (queued : k ∈ y.lockq) (ran : y.wakeup k = .ok y') :
      Visited conf memory y'

theorem Reachable.visited (reachable : Reachable conf memory y) : Visited conf memory y := by
  induction reachable with
  | start => exact .start
  | step _ allowed ran ih => exact ih.step allowed ran

theorem Visited.coherent (visited : Visited conf memory y) : Coherent y := by
  induction visited with
  | start => exact startCoherent conf memory
  | step _ allowed ran ih => exact ih.step allowed ran
  | @freed y i t j next s answer r _ at_ running is frees ran ih =>
    refine ih.served at_ is ran ?_ (.inl rfl) (ih.queue.leaves at_ rfl)
    intro _ _ _ _ _ e _
    rw [freesMakes frees]
    exact List.not_mem_nil
  | woken _ _ ran ih => exact (wakeupSpec ran).coherent ih

def MarkedAtMost (s s' : Fuse) (wanted : Ptr → Prop) : Prop :=
  ∀ p n, s.heap p = some n → ∃ n', s'.heap p = some n' ∧
    (n'.treelock = n.treelock ∨ (wanted p ∧ n'.treelock = n.treelock + treelockWaitOffset))

theorem markedAtMost {wanted : Ptr → Prop} {w : Ptr} (memory : Nat → Bool) (is : wanted w) :
    MarkedAtMost s (s.relock (marked s.lock w) memory) wanted := by
  intro p n live
  refine ⟨_,relockAt live,?_⟩
  rw [markedAt,lockAt live]
  split
  · next here =>
    split
    · exact .inr ⟨here ▸ is,rfl⟩
    · exact .inl rfl
  · exact .inl rfl

theorem sameAtMost (wanted : Ptr → Prop) (memory : Nat → Bool) : MarkedAtMost s (s.relock s.lock memory) wanted := by
  intro p n live
  exact ⟨_,relockAt live,.inl (lockAt live)⟩

theorem Tried.markedAtMost {want : Want} {err : Int} (tried : Tried s want (s',.error err)) :
    MarkedAtMost s s' fun p => want.target s = some p := by
  cases tried with
  | refused memory => exact sameAtMost _ memory
  | marked memory wanted => exact NodeStore.markedAtMost memory wanted

theorem Tried2.markedAtMost {want1 want2 : Want} {err : Int} (tried : Tried2 s want1 want2 (s',.error err)) :
    MarkedAtMost s s' fun p => want1.target s = some p ∨ want2.target s = some p := by
  cases tried with
  | refused memory => exact sameAtMost _ memory
  | marked memory wanted => exact NodeStore.markedAtMost memory wanted

/- Exactly one of the three ways to read a counter is right: so many paths go through the
node, so many do and a writer waits, or none does and one path owns it. -/
def OneReading (treelock : Int) (reads writes : Nat) : Prop :=
  let shared := treelock = reads
  let waitedFor := treelock = treelockWaitOffset + reads ∧ 0 < reads
  let owned := treelock = treelockWrite ∧ reads = 0 ∧ writes = 1
  (shared ∧ ¬ waitedFor ∧ ¬ owned) ∨ (¬ shared ∧ waitedFor ∧ ¬ owned) ∨ (¬ shared ∧ ¬ waitedFor ∧ owned)

/- The counter of a node is the number of paths through it, that number with the mark of a
waiting writer, or the sign of the one path that owns it. So giving paths back and undoing
attempts never runs into an assertion, and a failed attempt leaves a mark at most. -/
theorem countersTell (visited : Visited conf memory y) :
    (∀ p n, y.fuse.heap p = some n → n.nodeid ≠ rootId →
      OneReading n.treelock (readers y.fuse y.held p) (writers y.held p)) ∧
    ∀ (i : Nat) (t : Thread) (j : Instr) (next : j.Result → Prog Unit), y.threads[i]? = some t → t.prog = .act j next →
      (∀ answer, y.fuse.exec answer j ≠ .error .readLost ∧ y.fuse.exec answer j ≠ .error .writeLost) ∧
      (∀ want s err, j = .getPath want → y.fuse.tryGetPath want true = .ok (s,.error err) →
        MarkedAtMost y.fuse s fun p => want.target y.fuse = some p) ∧
      (∀ want1 want2 s err, j = .getPath2 want1 want2 → y.fuse.tryGetPath2 want1 want2 = .ok (s,.error err) →
        MarkedAtMost y.fuse s fun p => want1.target y.fuse = some p ∨ want2.target y.fuse = some p) := by
  have coherent := visited.coherent
  refine ⟨?_,?_⟩
  · intro p n live _
    exact (coherent.world.locked.state p n live).exclusive
  · intro i t j next at_ is
    have sane := coherent.sane i t at_
    obtain ⟨facts,keeps,knows⟩ := sane.knows
    rw [is] at keeps
    obtain ⟨may,_⟩ := keeps
    have world := coherent.split at_
    have room := coherent.room at_ (by rw [Thread.finished,is])
    have kept : ∀ answer fault, y.fuse.exec answer j = .error fault → LocksKept fault := fun answer fault =>
      @execLocksKept _ _ _ (t.ghost facts) _ _ _ world knows may ⟨sane.pair,room⟩
    refine ⟨fun answer => ⟨fun lost => (kept answer _ lost).1 rfl,fun lost => (kept answer _ lost).2 rfl⟩,?_,?_⟩
    · rintro want s err rfl ran
      obtain ⟨_,ok,tried⟩ | ⟨fault,_⟩ := tryGetPathSpec world.tree may.2.named
      · rw [ran] at ok
        cases ok
        exact tried.markedAtMost
      · rw [ran] at fault
        cases fault
    · rintro want1 want2 s err rfl ran
      have none : t.holds = [] := may.1
      have room' : (t.holds ++ y.others i).length + 1 < 2147483647 := by
        rw [none]
        exact Nat.lt_of_succ_lt room
      obtain ⟨_,ok,tried⟩ | ⟨fault,_⟩ := tryGetPath2Spec world.tree world.locked room' may.2.1.named may.2.2.named
      · rw [ran] at ok
        cases ok
        exact tried.markedAtMost
      · rw [ran] at fault
        cases fault

theorem waitedForDirectory : ∃ y n, Visited ⟨0,false,false⟩ (fun _ => true) y ∧ y.fuse.heap 1 = some n ∧
    n.treelock = treelockWaitOffset + 1 ∧ OneReading n.treelock (readers y.fuse y.held 1) (writers y.held 1) := by
  have legal : (Sys.start ⟨0,false,false⟩ fun _ => true).legal twoUnlinks = true := by decide +kernel
  have passes : ((Sys.start ⟨0,false,false⟩ fun _ => true).steps twoUnlinks).toOption.any (fun y =>
      (y.fuse.heap 1).any fun n => n.treelock = treelockWaitOffset + 1 && n.nodeid != rootId) = true := by
    decide +kernel
  obtain ⟨y,result,marked⟩ := ranSo passes
  simp only [Option.any_eq_true,Bool.and_eq_true,decide_eq_true_eq,bne_iff_ne] at marked
  obtain ⟨n,live,lock,plain⟩ := marked
  have visited := (stepsReachable .start legal result).visited
  exact ⟨y,n,visited,live,lock,(countersTell visited).1 1 n live plain⟩

/-! Paths that are held. -/

theorem Firm.relocked {s₂ : Fuse} (firm : Firm hs s s') (relocked : Relocked s' s₂) : Firm hs s s₂ := by
  obtain ⟨locks,memory,rfl⟩ := relocked
  intro h mem p passed
  obtain ⟨n,n',was,now,entry⟩ := firm h mem p passed
  exact ⟨n,_,was,relockAt now,entry⟩

theorem Coherent.firmExec {j : Instr} {next : j.Result → Prog Unit} {answer : Int} {r : Option j.Result}
    (coherent : Coherent y) (at_ : y.threads[k]? = some t) (is : t.prog = .act j next)
    (ran : y.fuse.exec answer j = .ok (s',r)) : Firm y.held y.fuse s' := by
  have sane := coherent.sane k t at_
  obtain ⟨facts,keeps,knows⟩ := sane.knows
  rw [is] at keeps
  have world := coherent.split at_
  have few : t.holds.length ≤ 2 ∧ (y.others k).length + 2 < 2147483647 :=
    ⟨sane.pair,coherent.room at_ (by rw [Thread.finished,is])⟩
  have firm : Firm (t.holds ++ y.others k) y.fuse s' := by
    cases r with
    | some r =>
      have step : Ran (y.others k) (y.otherPins k) (t.ghost facts) j y.fuse s' r := execRan world knows keeps.1 few ran
      exact step.firm
    | none =>
      have waited : Waited (t.holds ++ y.others k) (t.pins ++ y.otherPins k) j y.fuse s' :=
        @execWaits _ _ _ _ (t.ghost facts) _ _ world keeps.1 few ran
      exact world.firmRelock waited.relocked
  exact fun h mem => firm h ((splitAt Thread.holds at_).mem_iff.mp mem)

theorem passRelocks {queue : List Nat} (coherent : Coherent y) (ran : queue.foldlM Sys.wakeup y = .ok y') :
    Relocked y.fuse y'.fuse := by
  induction queue generalizing y with
  | nil =>
    cases ran
    exact ⟨_,_,(relockSelf y'.fuse y'.fuse.memory).symm⟩
  | cons first rest ih =>
    obtain ⟨y₁,woke,ran⟩ := callBind ran
    have woken := wakeupSpec woke
    refine Relocked.trans ?_ (ih (woken.coherent coherent) ran)
    cases woken with
    | idle => exact ⟨_,_,(relockSelf y.fuse y.fuse.memory).symm⟩
    | signalled => exact ⟨_,_,(relockSelf y.fuse y.fuse.memory).symm⟩
    | refused at_ waits is other exec =>
        exact (coherent.attempt at_ is (coherent.waitsPath at_ waits is other) exec).1.relocked
    | granted at_ waits is other exec =>
        exact (coherent.attempt at_ is (coherent.waitsPath at_ waits is other) exec).1.relocked

theorem Coherent.firmStep {action : Action} (coherent : Coherent y) (ran : y.step action = .ok y') :
    Firm y.held y.fuse y'.fuse := by
  cases action with
  | arrive request =>
    cases ran
    exact coherent.world.firmSame
  | clean aged =>
    simp only [Sys.step] at ran
    split at ran
    · next enabled =>
      obtain ⟨s,cleaned,ran⟩ := callBind ran
      cases ran
      exact coherent.firmClean enabled cleaned
    · cases ran
      exact coherent.world.firmSame
  | run k answer =>
    replace ran : y.run k answer = .ok y' := ran
    unfold Sys.run at ran
    cases at_ : y.threads[k]? with
    | none =>
      rw [at_] at ran
      cases ran
      exact coherent.world.firmSame
    | some t =>
      rw [at_] at ran
      dsimp only at ran
      split at ran
      · cases ran
        exact coherent.world.firmSame
      · cases ran
        exact coherent.world.firmSame
      · next j next is _ =>
        split at ran
        · cases ran
          exact coherent.world.firmSame
        · obtain ⟨⟨s,r⟩,exec,ran⟩ := callBind ran
          have firm := coherent.firmExec at_ is exec
          cases r with
          | none =>
            cases ran
            exact firm
          | some r =>
            dsimp only at ran
            split at ran
            · next frees =>
              have start : Coherent
                  {({y with fuse := s} : Sys).put k (t.take j next r .running) with lockq := y.lockq.erase k} := by
                refine coherent.served at_ is exec ?_ (.inl rfl) (coherent.queue.leaves at_ rfl)
                intro _ _ _ _ _ e _
                rw [freesMakes frees]
                exact List.not_mem_nil
              exact firm.relocked (passRelocks start ran)
            · cases ran
              exact firm

/- A path that is held is the path of its node in the tree as it is, in every state until it
is given back; no step renames, moves or removes a directory on it. -/
theorem heldPathsStand (reachable : Reachable conf memory y) :
    (∀ h ∈ y.held, y.fuse.pathOf h.want.nodeid h.want.name = some h.path) ∧
    ∀ action y', y.step action = .ok y' → ∀ h ∈ y.held, ∀ p ∈ y.fuse.chainOf h.want.nodeid,
      ∃ n n', y.fuse.heap p = some n ∧ y'.fuse.heap p = some n' ∧ n'.name = n.name ∧ n'.parent = n.parent := by
  have coherent := reachable.coherent
  exact ⟨fun h mem => (coherent.world.locked.stands h mem).path coherent.world.tree,fun _ _ ran =>
    coherent.firmStep ran⟩

theorem usedDirectoryStands : ∃ y h, Reachable ⟨0,false,false⟩ (fun _ => true) y ∧ h ∈ y.held ∧ h.want.nodeid = 2 ∧
    y.fuse.pathOf 2 none = some (ascii "/a") := by
  have legal : (Sys.start ⟨0,false,false⟩ fun _ => true).legal twoUnlinks = true := by decide +kernel
  have passes : ((Sys.start ⟨0,false,false⟩ fun _ => true).steps twoUnlinks).toOption.any (fun y =>
      decide (y.held.map (fun h => (h.want.nodeid,h.want.name,h.path)) = [(2,none,ascii "/a")])) = true := by
    decide +kernel
  obtain ⟨y,result,held⟩ := ranSo passes
  have reachable := stepsReachable .start legal result
  obtain ⟨h,mem,is⟩ := List.mem_map.mp (of_decide_eq_true held ▸ List.mem_singleton_self _)
  simp only [Prod.mk.injEq] at is
  obtain ⟨nodeid,name,path⟩ := is
  have stands := (heldPathsStand reachable).1 h mem
  rw [nodeid,name,path] at stands
  exact ⟨y,h,reachable,mem,nodeid,stands⟩

/-! The walks end. -/

theorem upPut (live : s.heap p = some n) (same : n.SameEntry m) : upOf (s.put p m).heap = upOf s.heap := by
  funext q
  by_cases here : q = p
  · subst here
    obtain ⟨id,name,parent⟩ := same
    simp only [upOf,putSelf,live,bind,Option.bind_some,id,name,parent]
  · simp only [upOf,putOther here]

theorem unlockLoopEnds {l : List (Ptr × Name)} {top : Ptr} (fuel : Nat) (s : Fuse) (stop : Option Ptr)
    (climb : Climb (upOf s.heap) p l top) (end_ : upOf s.heap top = none) (enough : l.length + 1 < fuel)
    (orphans : ∀ q m, s.heap q = some m → m.name = none → m.parent = none) :
    unlockLoop fuel s (some p) stop ≠ .error .diverges := by
  induction fuel generalizing s p l with
  | zero => exact absurd enough (Nat.not_lt_zero _)
  | succ fuel ih =>
    intro fails
    unfold unlockLoop at fails
    split at fails
    · cases fails
    · rcases callFault fails with gone | ⟨n,deref,fails⟩
      · unfold Fuse.deref at gone
        split at gone <;> cases gone
      · have live : s.heap p = some n := by
          unfold Fuse.deref at deref
          split at deref
          · cases deref
            assumption
          · cases deref
        split at fails
        · cases fails
        · next below =>
          split at fails
          · cases fails
          · obtain ⟨m,fails,same⟩ : ∃ m, unlockLoop fuel (s.put p m) n.parent stop = .error .diverges ∧ n.SameEntry m :=
              ⟨_,fails,rfl,rfl,rfl⟩
            cases climb with
            | here =>
              have parent : n.parent = none := by
                cases name : n.name with
                | none => exact orphans _ n live name
                | some own =>
                  cases up : n.parent with
                  | none => rfl
                  | some q =>
                    rw [upIff.mpr ⟨n,live,below,name,up⟩] at end_
                    cases end_
              rw [parent] at fails
              cases fuel with
              | zero => exact absurd enough (by simp)
              | succ fuel =>
                unfold unlockLoop at fails
                split at fails <;> cases fails
            | @step p q _ name rest link above =>
              obtain ⟨n',live',_,_,parent⟩ := upIff.mp link
              rw [live] at live'
              cases live'
              rw [parent] at fails
              refine ih (s.put p m) ?_ ?_ (Nat.lt_of_succ_lt_succ enough) ?_ fails
              · rwa [upPut live same]
              · rwa [upPut live same]
              · intro r k now noName
                rcases atUpdate now with ⟨rfl,rfl⟩ | ⟨_,old⟩
                · exact same.2.2.trans (orphans r n live (same.2.1.symm.trans noName))
                · exact orphans r k old noName

theorem Tree.climbFits {l : List (Ptr × Name)} {stop : Ptr} (tree : Tree extra s) (live : s.heap p ≠ none)
    (climb : Climb (upOf s.heap) p l stop) : l.length + 1 ≤ s.brk := by
  obtain ⟨nodup,outside⟩ := climb.nodupGrounded (tree.grounded p live)
  obtain ⟨all,last⟩ := tree.toSteady.climbLive live climb
  have low : ∀ q, s.heap q ≠ none → q < s.brk := by
    intro q there
    obtain ⟨n,at_⟩ := Option.ne_none_iff_exists'.mp there
    exact tree.shape.lt at_
  have inside : stop :: l.map Prod.fst ⊆ List.range s.brk := by
    intro q mem
    rcases List.mem_cons.mp mem with rfl | passed
    · exact List.mem_range.mpr (low q last)
    · exact List.mem_range.mpr (low q (all q passed))
  have fits := ((List.nodup_cons.mpr ⟨outside,nodup⟩).subperm inside).length_le
  rwa [List.length_cons,List.length_map,List.length_range] at fits

theorem unlockPathEnds (tree : Tree extra s) (nodeid : Ino) (wnode stop : Option Ptr) :
    s.unlockPath nodeid wnode stop ≠ .error .diverges := by
  have loop : ∀ locks memory, ((s.relock locks memory).getNode nodeid).bind
      (fun p => unlockLoop ((s.relock locks memory).brk + 1) (s.relock locks memory) (some p) stop) ≠
        .error .diverges := by
    intro locks memory fails
    have tree := tree.relock locks memory
    rcases callFault fails with noNode | ⟨p,get,fails⟩
    · unfold Fuse.getNode at noNode
      split at noNode <;> cases noNode
    · obtain ⟨_,n,live,_⟩ := (tree.toStore.getNodeIff nodeid).mp (getNodeFound get)
      have alive : (s.relock locks memory).heap p ≠ none := by rw [live]; nofun
      obtain ⟨l,top,climb,end_⟩ := tree.grounded p alive
      refine unlockLoopEnds _ _ stop climb end_ (Nat.lt_succ_of_le (tree.climbFits alive climb)) ?_ fails
      exact fun q m now => (tree.shape.settled q m now (tree.alive q m now).2 nofun).1
  intro fails
  have self := relockSelf s s.memory
  unfold Fuse.unlockPath at fails
  cases wnode with
  | none =>
    refine loop s.lock s.memory ?_
    rw [self]
    exact fails
  | some w =>
    rcases callFault fails with gone | ⟨n,deref,fails⟩
    · unfold Fuse.deref at gone
      split at gone <;> cases gone
    · have live : s.heap w = some n := by
        unfold Fuse.deref at deref
        split at deref
        · cases deref
          assumption
        · cases deref
      split at fails
      · cases fails
      · have put := relockPut s.lock s.memory live 0
        rw [self] at put
        refine loop (Function.update s.lock w 0) s.memory ?_
        rw [← put]
        exact fails

theorem lockWnodeRelocks {want : Want} {r : Option (Option Ptr)} (ran : s.lockWnode want = .ok (s',r)) :
    Relocked s s' := by
  have self := relockSelf s s.memory
  have same : Relocked s s := ⟨s.lock,s.memory,self.symm⟩
  have put : ∀ w n v, s.heap w = some n → Relocked s (s.put w {n with treelock := v}) := by
    intro w n v live
    have is := relockPut s.lock s.memory live v
    rw [self] at is
    exact ⟨_,_,is⟩
  unfold Fuse.lockWnode at ran
  split at ran
  · cases ran
    exact same
  · cases ran
  · split at ran
    · cases ran
      exact same
    · next w _ =>
      obtain ⟨n,deref,ran⟩ := callBind ran
      have live : s.heap w = some n := by
        unfold Fuse.deref at deref
        split at deref
        · cases deref
          assumption
        · cases deref
      split at ran
      · cases ran
        split
        · exact put w n _ live
        · exact same
      · cases ran
        exact put w n _ live

theorem lockWnodeEnds (want : Want) : s.lockWnode want ≠ .error .diverges := by
  intro fails
  unfold Fuse.lockWnode at fails
  split at fails
  · cases fails
  · cases fails
  · split at fails
    · cases fails
    · rcases callFault fails with gone | ⟨n,_,fails⟩
      · unfold Fuse.deref at gone
        split at gone <;> cases gone
      · split at fails <;> cases fails

theorem tryGetPathEnds (tree : Tree extra s) (want : Want) (needLock : Bool) :
    s.tryGetPath want needLock ≠ .error .diverges := by
  intro fails
  unfold Fuse.tryGetPath Fuse.takeMem at fails
  dsimp only at fails
  split at fails
  · cases fails
  · obtain ⟨memory,failed | ⟨bufsize,started⟩⟩ := startBufSpec s (fun i => s.memory (i+1)) want.name
    · rw [failed] at fails
      cases fails
    · rw [started] at fails
      dsimp only at fails
      split at fails
      · cases fails
      · rcases callFault fails with stuck | ⟨⟨s₁,wnode⟩,locked,fails⟩
        · exact lockWnodeEnds want stuck
        · obtain ⟨locks,memory₁,is⟩ := Relocked.trans ⟨_,memory,rfl⟩ (lockWnodeRelocks locked)
          subst is
          cases wnode with
          | none => cases fails
          | some wnode =>
            rcases callFault fails with noNode | ⟨p,get,fails⟩
            · unfold Fuse.getNode at noNode
              split at noNode <;> cases noNode
            · have found := getNodeFound get
              rw [getNodeRelock] at found
              obtain ⟨_,n,live,_⟩ := (tree.toStore.getNodeIff want.nodeid).mp found
              have alive : s.heap p ≠ none := by rw [live]; nofun
              obtain ⟨⟨s₂,walked⟩,walk,walks⟩ :=
                walkPathSpec needLock (s.brk+1) locks memory₁ p bufsize (startPath want.name) tree
                alive (fun l stop climb => tree.climbShort alive climb)
              rcases callFault fails with stuck | ⟨⟨s₃,walked'⟩,walk',fails⟩
              · rw [show (s.relock locks memory₁).brk = s.brk from rfl,walk] at stuck
                cases stuck
              · rw [show (s.relock locks memory₁).brk = s.brk from rfl,walk] at walk'
                cases walk'
                cases walks with
                | arrived => cases fails
                | stopped memory₂ climb below blocked free =>
                  dsimp only at fails
                  split at fails
                  · rcases callFault fails with stuck | ⟨_,_,fails⟩
                    · exact unlockPathEnds (tree.relock _ memory₂) _ _ _ stuck
                    · cases fails
                  · cases fails

/- A directory is to be moved below its own child: the request waits for itself. -/
def moveBelowItself : List Action :=
  [.arrive (.lookup false 1 (ascii "d")),.run 0 0,.run 0 0,.run 0 0,.run 0 0,.run 0 0,
    .arrive (.lookup false 2 (ascii "c")),.run 1 0,
    .run 1 0,.run 1 0,.run 1 0,.run 1 0,.arrive (.rename 1 (ascii "d") 3 (ascii "e") false),.run 2 0]

end FuseStudy.NodeStore
