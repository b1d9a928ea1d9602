import FuseStudy.Forest
import FuseStudy.TreeLocks

/-! What the walks of try_get_path and unlock_path do to the locks. The locks are a function
on pointers laid over a node table that no walk changes otherwise. -/
namespace FuseStudy.NodeStore
open CString LinearHash Forest

variable {extra : Ptr → Nat} {s : Fuse} {p q : Ptr} {n : Node} {locks : Ptr → Int} {memory : Nat → Bool}
  {l : List (Ptr × Name)} {stop : Ptr}

def Fuse.relock (s : Fuse) (locks : Ptr → Int) (memory : Nat → Bool) : Fuse :=
  {s with heap := fun p => (s.heap p).map fun n => {n with treelock := locks p}, memory := memory}

def Fuse.lock (s : Fuse) (p : Ptr) : Int := ((s.heap p).map Node.treelock).getD 0

/- The name of a node and its parent, for a node below the root that has both. -/
def upOf (heap : Ptr → Option Node) (p : Ptr) : Option (Name × Ptr) := do
  let n ← heap p
  if n.nodeid = rootId then none
  else
    let name ← n.name
    let q ← n.parent
    some (name,q)

theorem relockAt (live : s.heap p = some n) :
    (s.relock locks memory).heap p = some {n with treelock := locks p} := by
  simp [Fuse.relock,live]

theorem relockSelf (s : Fuse) (memory : Nat → Bool) : s.relock s.lock memory = {s with memory := memory} := by
  have same : (fun p => (s.heap p).map fun n => {n with treelock := s.lock p}) = s.heap := by
    funext p
    cases live : s.heap p with
    | none => rfl
    | some n => simp [Fuse.lock,live]
  rw [Fuse.relock,same]

theorem relockPut (locks : Ptr → Int) (memory : Nat → Bool) (live : s.heap p = some n) (v : Int) :
    (s.relock locks memory).put p {n with treelock := v} = s.relock (Function.update locks p v) memory := by
  have same : Function.update (fun q => (s.heap q).map fun n => {n with treelock := locks q}) p
      (some {n with treelock := v}) = fun q => (s.heap q).map fun n =>
        {n with treelock := Function.update locks p v q} := by
    funext q
    by_cases here : q = p
    · subst here
      simp [live]
    · simp [here]
  simp only [Fuse.put,Fuse.relock,same]

@[simp] theorem relockRelock (locks' : Ptr → Int) (memory' : Nat → Bool) :
    (s.relock locks memory).relock locks' memory' = s.relock locks' memory' := by
  simp [Fuse.relock,Option.map_map,Function.comp_def]

theorem lockRelock (live : s.heap p = some n) : (s.relock locks memory).lock p = locks p := by
  simp [Fuse.lock,relockAt live]

theorem entryRelock (s : Fuse) (locks : Ptr → Int) (memory : Nat → Bool) (q : Ptr) :
    entryOf (s.relock locks memory).heap q = entryOf s.heap q := by
  rw [entryViaId,entryViaId s.heap]
  simp [Fuse.relock,Option.bind_map,Option.map_map,Function.comp_def]

@[simp] theorem getNodeRelock (i : Ino) : (s.relock locks memory).getNodeNocheck i = s.getNodeNocheck i := by
  simp only [Fuse.getNodeNocheck,Fuse.relock,Option.map_map,Function.comp_def]

@[simp] theorem lookupRelock (i : Ino) (name : Name) :
    (s.relock locks memory).lookupNode i name = s.lookupNode i name := by
  have same : (s.relock locks memory).entry = s.entry := funext (entryRelock s locks memory)
  simp only [Fuse.lookupNode,same]
  rfl

@[simp] theorem upRelock (p : Ptr) : upOf (s.relock locks memory).heap p = upOf s.heap p := by
  simp only [upOf,Fuse.relock]
  cases s.heap p <;> rfl

theorem liveRelock (p : Ptr) : (s.relock locks memory).heap p ≠ none ↔ s.heap p ≠ none := by
  simp [Fuse.relock]

theorem atRelock (now : (s.relock locks memory).heap p = some n) :
    ∃ m, s.heap p = some m ∧ n = {m with treelock := locks p} := by
  simp only [Fuse.relock,Option.map_eq_some_iff] at now
  obtain ⟨m,live,rfl⟩ := now
  exact ⟨m,live,rfl⟩

theorem Shape.relock {Named Hashed : Ptr → Prop} {brk : Nat} {hole : Option Ptr}
    (shape : Shape s.heap Named Hashed brk extra hole) :
    Shape (s.relock locks memory).heap Named Hashed brk extra hole := by
  have parents : ∀ q, parentOf (s.relock locks memory).heap q = parentOf s.heap q := by
    intro q
    simp only [parentOf,Fuse.relock]
    cases s.heap q <;> rfl
  have kids : ∀ p, children (s.relock locks memory).heap Named brk p = children s.heap Named brk p := by
    intro p
    apply childrenCongr
    intro q
    rw [parents]
  refine ⟨?_,?_,?_,?_,?_,?_,?_,?_⟩
  · intro p above
    simp [Fuse.relock,shape.fresh p above]
  · intro p hashed
    obtain ⟨n,live⟩ := shape.hashed p hashed
    exact ⟨_,relockAt live⟩
  · intro p q n m hashedP hashedQ atP atQ same
    obtain ⟨n',liveP,rfl⟩ := atRelock atP
    obtain ⟨m',liveQ,rfl⟩ := atRelock atQ
    exact shape.distinct p q n' m' hashedP hashedQ liveP liveQ same
  · intro p named
    obtain ⟨e,is⟩ := shape.named p named
    exact ⟨e,(entryRelock s locks memory p).trans is⟩
  · intro p q namedP namedQ same
    rw [entryRelock,entryRelock] at same
    exact shape.apart p q namedP namedQ same
  · intro p n now
    obtain ⟨m,live,rfl⟩ := atRelock now
    rw [kids]
    exact shape.counted p m live
  · intro p n now
    obtain ⟨m,live,rfl⟩ := atRelock now
    exact shape.settled p m live
  · obtain ⟨n,live,rest⟩ := shape.root
    exact ⟨_,relockAt live,rest⟩

theorem Steady.relock (steady : Steady extra s) (locks : Ptr → Int) (memory : Nat → Bool) :
    Steady extra (s.relock locks memory) := by
  have nameHash : (s.relock locks memory).nameHash = s.nameHash := by
    funext q
    simp only [Fuse.nameHash,Fuse.entry,entryRelock]
  have idHash : (s.relock locks memory).idHash = s.idHash := by
    funext q
    simp only [Fuse.idHash,Fuse.relock]
    cases s.heap q <;> rfl
  refine ⟨⟨nameHash ▸ steady.names,idHash ▸ steady.ids,steady.shape.relock⟩,?_⟩
  intro p n now
  obtain ⟨m,live,rfl⟩ := atRelock now
  exact steady.alive p m live

theorem upIff {name : Name} : upOf s.heap p = some (name,q) ↔
    ∃ n, s.heap p = some n ∧ n.nodeid ≠ rootId ∧ n.name = some name ∧ n.parent = some q := by
  cases live : s.heap p with
  | none => simp [upOf,live]
  | some n =>
    by_cases root : n.nodeid = rootId
    · simp [upOf,live,root]
    · simp [upOf,live,root,Option.bind_eq_some_iff]

/- Walking up ends at the root or at a node that has lost its name. -/
structure Tree (extra : Ptr → Nat) (s : Fuse) : Prop extends Steady extra s where
  grounded : ∀ p, s.heap p ≠ none → Grounded (upOf s.heap) p

theorem Tree.relock (tree : Tree extra s) (locks : Ptr → Int) (memory : Nat → Bool) :
    Tree extra (s.relock locks memory) := by
  refine ⟨tree.toSteady.relock locks memory,?_⟩
  intro p live
  have same : upOf (s.relock locks memory).heap = upOf s.heap := funext (fun q => upRelock q)
  rw [same]
  exact tree.grounded p ((liveRelock p).mp live)

theorem Steady.upLive {name : Name} (steady : Steady extra s) (up : upOf s.heap p = some (name,q)) :
    s.heap q ≠ none := by
  obtain ⟨n,live,_,hasName,parent⟩ := upIff.mp up
  have plain : p ≠ 0 := by
    rintro rfl
    obtain ⟨r,atRoot,_,_,none⟩ := steady.shape.root
    rw [live] at atRoot
    cases atRoot
    rw [parent] at none
    cases none
  obtain ⟨n',q',d,_,live',_,parent',alive⟩ :=
    steady.shape.namedParent ((steady.named live plain).mpr (by rw [hasName]; nofun))
  rw [live] at live'
  cases live'
  rw [parent] at parent'
  cases parent'
  rw [alive]
  nofun

theorem Steady.climbLive (steady : Steady extra s) (live : s.heap p ≠ none) (climb : Climb (upOf s.heap) p l stop) :
    (∀ q ∈ l.map Prod.fst, s.heap q ≠ none) ∧ s.heap stop ≠ none := by
  induction climb with
  | here => exact ⟨by simp,live⟩
  | step link _ ih =>
    obtain ⟨all,last⟩ := ih (steady.upLive link)
    refine ⟨?_,last⟩
    intro q mem
    rw [List.map_cons,List.mem_cons] at mem
    rcases mem with rfl | later
    · exact live
    · exact all q later

def raised (locks : Ptr → Int) (l : List (Ptr × Name)) : Ptr → Int :=
  fun q => if q ∈ l.map Prod.fst then locks q + 1 else locks q

def dropLock (v : Int) : Int := if v - 1 = treelockWaitOffset then 0 else v - 1

def dropped (locks : Ptr → Int) (l : List (Ptr × Name)) : Ptr → Int :=
  fun q => if q ∈ l.map Prod.fst then dropLock (locks q) else locks q

def pathAlong : List (Ptr × Name) → Bytes → Bytes
  | [], path => path
  | (_,name) :: rest, path => pathAlong rest (slash :: (name ++ path))

theorem raisedStep (name : Name) (outside : p ∉ l.map Prod.fst) :
    raised (Function.update locks p (locks p + 1)) l = raised locks ((p,name) :: l) := by
  funext q
  simp only [raised,List.map_cons,List.mem_cons]
  by_cases here : q = p
  · subst here
    simp [outside]
  · have same : (q = p ∨ q ∈ l.map Prod.fst) ↔ q ∈ l.map Prod.fst := or_iff_right here
    simp only [Function.update_of_ne here,same]

theorem droppedStep (name : Name) (outside : p ∉ l.map Prod.fst) :
    dropped (Function.update locks p (dropLock (locks p))) l = dropped locks ((p,name) :: l) := by
  funext q
  simp only [dropped,List.map_cons,List.mem_cons]
  by_cases here : q = p
  · subst here
    simp [outside]
  · have same : (q = p ∨ q ∈ l.map Prod.fst) ↔ q ∈ l.map Prod.fst := or_iff_right here
    simp only [Function.update_of_ne here,same]

theorem droppedRaised (free : ∀ q ∈ l.map Prod.fst, 0 ≤ locks q) : dropped (raised locks l) l = locks := by
  funext q
  simp only [dropped,raised]
  split
  · rename_i mem
    have positive := free q mem
    rw [dropLock,Int.add_sub_cancel,if_neg]
    simp only [treelockWaitOffset]
    omega
  · rfl

theorem addNameSpec (s : Fuse) (bufsize : Nat) (path name : Bytes) : ∃ memory,
    s.addName bufsize path name = ({s with memory := memory},none) ∨
    ∃ grown, s.addName bufsize path name = ({s with memory := memory},some (grown,slash :: (name ++ path))) := by
  unfold Fuse.addName Fuse.takeMem
  simp only
  split
  · cases s.memory 0 with
    | true => exact ⟨_,.inr ⟨_,rfl⟩⟩
    | false => exact ⟨_,.inl rfl⟩
  · exact ⟨s.memory,.inr ⟨_,rfl⟩⟩

/- What stops a walk below the root. -/
def Blocked (s : Fuse) (locks : Ptr → Int) (needLock : Bool) (stop : Ptr) (err : Int) : Prop :=
  (err = -estale ∧ upOf s.heap stop = none) ∨ err = -enomem ∨
  (err = -eagain ∧ needLock = true ∧ locks stop < 0 ∧ upOf s.heap stop ≠ none)

def IsRoot (s : Fuse) (p : Ptr) : Prop := ∃ n, s.heap p = some n ∧ n.nodeid = rootId

theorem IsRoot.top (root : IsRoot s p) : upOf s.heap p = none := by
  obtain ⟨n,live,is⟩ := root
  simp [upOf,live,is]

inductive Walked (s : Fuse) (needLock : Bool) (locks : Ptr → Int) (p : Ptr) (path : Bytes) :
    Fuse × Except (Int × Ptr) Bytes → Prop
  | arrived {l : List (Ptr × Name)} {stop : Ptr} (memory : Nat → Bool) (climb : Climb (upOf s.heap) p l stop)
      (root : IsRoot s stop) (free : needLock = true → ∀ q ∈ l.map Prod.fst, 0 ≤ locks q) :
      Walked s needLock locks p path
        (s.relock (if needLock then raised locks l else locks) memory,.ok (pathAlong l path))
  | stopped {l : List (Ptr × Name)} {stop : Ptr} {err : Int} (memory : Nat → Bool)
      (climb : Climb (upOf s.heap) p l stop) (below : ¬ IsRoot s stop) (blocked : Blocked s locks needLock stop err)
      (free : needLock = true → ∀ q ∈ l.map Prod.fst, 0 ≤ locks q) :
      Walked s needLock locks p path
        (s.relock (if needLock then raised locks l else locks) memory,.error (err,stop))

/- Induction on the fuel, one node of the walk at a time. The node just locked is not met
again, so the locks above it are still as they were. -/
theorem walkPathSpec (needLock : Bool) (fuel : Nat) (locks : Ptr → Int) (memory : Nat → Bool) (p : Ptr)
    (bufsize : Nat) (path : Bytes) (tree : Tree extra s) (live : s.heap p ≠ none)
    (enough : ∀ l stop, Climb (upOf s.heap) p l stop → l.length < fuel) :
    ∃ r, walkPath needLock fuel (s.relock locks memory) p bufsize path = .ok r ∧ Walked s needLock locks p path r := by
  induction fuel generalizing locks memory p bufsize path with
  | zero => exact absurd (enough [] p (.here p)) (Nat.not_lt_zero _)
  | succ fuel ih =>
    obtain ⟨n,at_⟩ := Option.ne_none_iff_exists'.mp live
    have same : (if needLock then raised locks [] else locks) = locks := by
      split
      · exact funext (fun q => if_neg (by simp))
      · rfl
    unfold walkPath
    rw [derefOk (relockAt at_)]
    simp only [bind,Except.bind]
    by_cases root : n.nodeid = rootId
    · rw [if_pos root]
      have arrived : Walked s needLock locks p path _ := .arrived memory (.here p) ⟨n,at_,root⟩ (by simp)
      rw [same] at arrived
      exact ⟨_,rfl,arrived⟩
    rw [if_neg root]
    have below : ¬ IsRoot s p := by
      rintro ⟨m,live',is⟩
      rw [at_] at live'
      cases live'
      exact root is
    have halt : ∀ memory err, Blocked s locks needLock p err →
        Walked s needLock locks p path (s.relock locks memory,.error (err,p)) := by
      intro memory err blocked
      have stopped : Walked s needLock locks p path _ := .stopped memory (.here p) below blocked (by simp)
      rwa [same] at stopped
    rcases Option.eq_none_or_eq_some n.name with noName | ⟨name,named⟩
    · simp only [noName]
      exact ⟨_,rfl,halt memory _ (.inl ⟨rfl,by simp [upOf,at_,root,noName]⟩)⟩
    rcases Option.eq_none_or_eq_some n.parent with noParent | ⟨q,parent⟩
    · simp only [named,noParent]
      exact ⟨_,rfl,halt memory _ (.inl ⟨rfl,by simp [upOf,at_,root,named,noParent]⟩)⟩
    have link : upOf s.heap p = some (name,q) := upIff.mpr ⟨n,at_,root,named,parent⟩
    simp only [named,parent]
    obtain ⟨memory',failed | ⟨grown,added⟩⟩ := addNameSpec (s.relock locks memory) bufsize path name
    · rw [failed]
      exact ⟨_,rfl,halt memory' _ (.inr (.inl rfl))⟩
    rw [added]
    simp only
    have above : s.heap q ≠ none := tree.upLive link
    have less : ∀ l stop, Climb (upOf s.heap) q l stop → l.length < fuel := by
      intro l stop climb
      have longer := enough _ _ (.step link climb)
      rw [List.length_cons] at longer
      omega
    have once : ∀ {l stop}, Climb (upOf s.heap) q l stop → p ∉ l.map Prod.fst := by
      intro l stop climb
      have nodup := (Climb.nodupGrounded (.step link climb) (tree.grounded p live)).1
      rw [List.map_cons,List.nodup_cons] at nodup
      exact nodup.1
    cases needLock with
    | false =>
      simp only [Bool.false_eq_true,if_false]
      obtain ⟨r,ran,walked⟩ := ih locks memory' q grown (slash :: (name ++ path)) above less
      refine ⟨r,ran,?_⟩
      cases walked with
      | arrived memory climb root _ => exact .arrived memory (.step link climb) root nofun
      | stopped memory climb below blocked _ =>
        have stopped : Walked s false locks p path _ := .stopped memory (.step link climb) below blocked nofun
        exact stopped
    | true =>
      simp only [if_true]
      by_cases taken : locks p < 0
      · rw [if_pos taken]
        exact ⟨_,rfl,halt memory' _ (.inr (.inr ⟨rfl,rfl,taken,by rw [link]; nofun⟩))⟩
      rw [if_neg taken]
      have put : ({s.relock locks memory with memory := memory'} : Fuse).put p
          {n with treelock := locks p + 1, name := some name, parent := some q} =
          s.relock (Function.update locks p (locks p + 1)) memory' := by
        rw [← relockPut locks memory' at_]
        congr 1
        rw [← named,← parent]
      rw [put]
      obtain ⟨r,ran,walked⟩ :=
        ih (Function.update locks p (locks p + 1)) memory' q grown (slash :: (name ++ path)) above less
      have lower : ∀ {l stop}, Climb (upOf s.heap) q l stop →
          (∀ r ∈ l.map Prod.fst, 0 ≤ Function.update locks p (locks p + 1) r) →
          ∀ r ∈ ((p,name) :: l).map Prod.fst, 0 ≤ locks r := by
        intro l stop climb free r mem
        rw [List.map_cons,List.mem_cons] at mem
        rcases mem with rfl | later
        · exact Int.not_lt.mp taken
        · have other : r ≠ p := fun same => once climb (same ▸ later)
          have positive := free r later
          rwa [Function.update_of_ne other] at positive
      refine ⟨r,ran,?_⟩
      cases walked with
      | @arrived l stop memory climb root free =>
        have arrived : Walked s true locks p path _ :=
          .arrived memory (.step link climb) root (fun _ => lower climb (free rfl))
        rw [if_pos rfl,raisedStep name (once climb)]
        exact arrived
      | @stopped l stop err memory climb below blocked free =>
        have other : stop ≠ p := by
          have nodup := (Climb.nodupGrounded (.step link climb) (tree.grounded p live)).2
          rw [List.map_cons,List.mem_cons,not_or] at nodup
          exact nodup.1
        have blocked' : Blocked s locks true stop err := by
          rwa [Blocked,Function.update_of_ne other] at blocked
        have stopped : Walked s true locks p path _ :=
          .stopped memory (.step link climb) below blocked' (fun _ => lower climb (free rfl))
        rw [if_pos rfl,raisedStep name (once climb)]
        exact stopped

def Droppable (v : Int) : Prop := v ≠ 0 ∧ v ≠ treelockWaitOffset ∧ v ≠ treelockWrite

/- The climb that is unlocked ends at the root or at the node the walk had stopped at. -/
theorem unlockLoopSpec (fuel : Nat) (locks : Ptr → Int) (memory : Nat → Bool) {end_ : Option Ptr} (tree : Tree extra s)
    (climb : Climb (upOf s.heap) p l stop) (live : s.heap p ≠ none) (ended : end_ = some stop ∨ IsRoot s stop)
    (before : ∀ q ∈ l.map Prod.fst, end_ ≠ some q) (held : ∀ q ∈ l.map Prod.fst, Droppable (locks q))
    (enough : l.length < fuel) :
    unlockLoop fuel (s.relock locks memory) (some p) end_ = .ok (s.relock (dropped locks l) memory) := by
  induction fuel generalizing locks p l with
  | zero => exact absurd enough (Nat.not_lt_zero _)
  | succ fuel ih =>
    obtain ⟨n,at_⟩ := Option.ne_none_iff_exists'.mp live
    unfold unlockLoop
    cases climb with
    | here =>
      have same : dropped locks [] = locks := funext (fun q => if_neg (by simp))
      rw [same]
      by_cases here : some stop = end_
      · rw [if_pos here]
      · rw [if_neg here]
        obtain ⟨m,live',root⟩ := ended.resolve_left (fun same => here same.symm)
        rw [at_] at live'
        cases live'
        simp only [derefOk (relockAt at_),bind,Except.bind,root,if_true]
    | @step p q _ name rest link above =>
      obtain ⟨m,live',notRoot,named,parent⟩ := upIff.mp link
      rw [at_] at live'
      cases live'
      have other : some p ≠ end_ := fun same => before p (by simp) same.symm
      have fit := held p (by simp)
      have nodup := (Climb.nodupGrounded (.step link above) (tree.grounded p live)).1
      rw [List.map_cons,List.nodup_cons] at nodup
      have kept : ¬ (locks p = 0 ∨ locks p = treelockWaitOffset ∨ locks p = treelockWrite) := by
        rintro (zero | mark | write)
        · exact fit.1 zero
        · exact fit.2.1 mark
        · exact fit.2.2 write
      have put := relockPut locks memory at_ (dropLock (locks p))
      rw [if_neg other]
      simp only [derefOk (relockAt at_),bind,Except.bind,if_neg notRoot,if_neg kept,parent]
      simp only [parent,dropLock] at put
      rw [put]
      have rest := ih (Function.update locks p (dropLock (locks p))) above (tree.upLive link)
        (fun q mem => before q (by rw [List.map_cons]; exact List.mem_cons_of_mem _ mem)) ?_ (by simpa using enough)
      · rw [droppedStep name nodup.1] at rest
        exact rest
      · intro q mem
        have differs : q ≠ p := fun same => nodup.1 (same ▸ mem)
        rw [Function.update_of_ne differs]
        exact held q (by rw [List.map_cons]; exact List.mem_cons_of_mem _ mem)

def claimed (locks : Ptr → Int) : Option Ptr → Ptr → Int
  | none => locks
  | some w => Function.update locks w treelockWrite

def released (locks : Ptr → Int) : Option Ptr → Ptr → Int
  | none => locks
  | some w => Function.update locks w 0

theorem Tree.climbShort (tree : Tree extra s) (live : s.heap p ≠ none) (climb : Climb (upOf s.heap) p l stop) :
    l.length < s.brk + 1 := by
  apply Nat.lt_succ_of_le
  refine climb.lengthLe (tree.grounded p live) ?_
  intro q up
  obtain ⟨⟨name,r⟩,link⟩ := Option.ne_none_iff_exists'.mp up
  obtain ⟨n,alive,_⟩ := upIff.mp link
  exact tree.shape.lt alive

theorem unlockPathSpec (locks : Ptr → Int) (memory : Nat → Bool) {nodeid : Ino} {wnode : Option Ptr} (end_ : Option Ptr)
    (tree : Tree extra s) (found : s.getNodeNocheck nodeid = some p) (climb : Climb (upOf s.heap) p l stop)
    (write : ∀ w, wnode = some w → s.heap w ≠ none ∧ locks w = treelockWrite)
    (ended : end_ = some stop ∨ IsRoot s stop) (before : ∀ q ∈ l.map Prod.fst, end_ ≠ some q)
    (held : ∀ q ∈ l.map Prod.fst, Droppable (released locks wnode q)) :
    (s.relock locks memory).unlockPath nodeid wnode end_ =
      .ok (s.relock (dropped (released locks wnode) l) memory) := by
  obtain ⟨_,n,live,_⟩ := (tree.toStore.getNodeIff nodeid).mp found
  have alive : s.heap p ≠ none := by rw [live]; nofun
  have loop := unlockLoopSpec (s.brk+1) (released locks wnode) memory tree climb alive ended before held
    (tree.climbShort alive climb)
  have node : ∀ locks, (s.relock locks memory).getNode nodeid = .ok p :=
    fun locks => getNodeOk ((getNodeRelock nodeid).trans found)
  unfold Fuse.unlockPath
  cases wnode with
  | none =>
    simp only [bind,Except.bind,node]
    exact loop
  | some w =>
    obtain ⟨aliveW,claimed⟩ := write w rfl
    obtain ⟨m,liveW⟩ := Option.ne_none_iff_exists'.mp aliveW
    simp only [bind,Except.bind,derefOk (relockAt liveW),claimed,ne_eq,not_true_eq_false,if_false]
    have put := relockPut locks memory liveW 0
    simp only [put,node]
    exact loop

def startPath : Option Name → Bytes
  | none => []
  | some name => slash :: (name ++ [])

def Want.target (want : Want) (s : Fuse) : Option Ptr :=
  if want.write then want.name.bind (s.lookupNode want.nodeid) else none

def marked (locks : Ptr → Int) (w : Ptr) : Ptr → Int :=
  if 0 < locks w then Function.update locks w (locks w + treelockWaitOffset) else locks

def Occupied (s : Fuse) (want : Want) (locks : Ptr → Int) : Prop :=
  ∃ p l stop, s.getNodeNocheck want.nodeid = some p ∧ Climb (upOf s.heap) p l stop ∧ upOf s.heap stop ≠ none ∧
    locks stop < 0

/- The way up is free and ends at a node that has lost its name. -/
def Detached (s : Fuse) (want : Want) (locks : Ptr → Int) : Prop :=
  ∃ p l stop, s.getNodeNocheck want.nodeid = some p ∧ Climb (upOf s.heap) p l stop ∧ upOf s.heap stop = none ∧
    ¬ IsRoot s stop ∧ (∀ q ∈ l.map Prod.fst, 0 ≤ locks q) ∧ ∀ w, want.target s = some w → s.lock w = 0

inductive Tried (s : Fuse) (want : Want) : Fuse × Except Int Held → Prop
  | granted {p top : Ptr} {l : List (Ptr × Name)} (memory : Nat → Bool)
      (found : s.getNodeNocheck want.nodeid = some p) (climb : Climb (upOf s.heap) p l top) (root : IsRoot s top)
      (free : ∀ q ∈ l.map Prod.fst, 0 ≤ s.lock q)
      (clear : ∀ w, want.target s = some w → s.heap w ≠ none ∧ s.lock w = 0 ∧ w ∉ l.map Prod.fst) :
      Tried s want (s.relock (raised (claimed s.lock (want.target s)) l) memory,
        .ok ⟨want,want.target s,finishPath (pathAlong l (startPath want.name))⟩)
  | refused {err : Int} (memory : Nat → Bool) (why : err = -enomem ∨
        (err = -estale ∧ Detached s want (claimed s.lock (want.target s))) ∨
        (err = -eagain ∧ Occupied s want (claimed s.lock (want.target s)))) :
      Tried s want (s.relock s.lock memory,.error err)
  | marked {w : Ptr} (memory : Nat → Bool) (wanted : want.target s = some w) (taken : s.lock w ≠ 0) :
      Tried s want (s.relock (marked s.lock w) memory,.error (-eagain))

theorem Steady.lookupAlive {dir : Ino} {name : Name} (steady : Steady extra s)
    (found : s.lookupNode dir name = some p) :
    s.heap p ≠ none := by
  obtain ⟨_,n,live,_⟩ := steady.lookupLive found
  rw [live]
  nofun

theorem lockWnodeSpec {want : Want} (tree : Tree extra s) (named : want.write = true → want.name ≠ none)
    (memory : Nat → Bool) :
    ((s.relock s.lock memory).lockWnode want =
        .ok (s.relock (claimed s.lock (want.target s)) memory,some (want.target s)) ∧
      ∀ w, want.target s = some w → s.heap w ≠ none ∧ s.lock w = 0) ∨
    ∃ w, want.target s = some w ∧ s.lock w ≠ 0 ∧
      (s.relock s.lock memory).lockWnode want = .ok (s.relock (marked s.lock w) memory,none) := by
  unfold Fuse.lockWnode Want.target
  cases write : want.write with
  | false => exact .inl ⟨rfl,by simp⟩
  | true =>
    obtain ⟨name,is⟩ := Option.ne_none_iff_exists'.mp (named write)
    simp only [is,if_true,lookupRelock,Option.bind_some]
    cases found : s.lookupNode want.nodeid name with
    | none => exact .inl ⟨rfl,by simp⟩
    | some w =>
      obtain ⟨n,live⟩ := Option.ne_none_iff_exists'.mp (tree.toSteady.lookupAlive found)
      simp only [derefOk (relockAt live),bind,Except.bind]
      by_cases taken : s.lock w ≠ 0
      · rw [if_pos taken]
        refine .inr ⟨w,rfl,taken,?_⟩
        unfold marked
        split
        · have put := relockPut s.lock memory live (s.lock w + treelockWaitOffset)
          rw [put]
        · rfl
      · rw [if_neg taken]
        rw [not_not] at taken
        refine .inl ⟨?_,?_⟩
        · have put := relockPut s.lock memory live treelockWrite
          rw [put]
          rfl
        · rintro _ ⟨⟩
          exact ⟨by rw [live]; nofun,taken⟩

theorem undoneLocks {wnode : Option Ptr} (clear : ∀ w, wnode = some w → locks w = 0)
    (free : ∀ q ∈ l.map Prod.fst, 0 ≤ claimed locks wnode q) :
    dropped (released (raised (claimed locks wnode) l) wnode) l = locks ∧
    ∀ q ∈ l.map Prod.fst, Droppable (released (raised (claimed locks wnode) l) wnode q) := by
  have outside : ∀ w, wnode = some w → w ∉ l.map Prod.fst := by
    rintro w rfl mem
    have positive := free w mem
    simp only [claimed,Function.update_self,treelockWrite] at positive
    omega
  have value : released (raised (claimed locks wnode) l) wnode = raised locks l := by
    cases wnode with
    | none => rfl
    | some w =>
      funext q
      by_cases here : q = w
      · subst here
        simp only [released,Function.update_self,raised,if_neg (outside q rfl),clear q rfl]
      · simp only [released,claimed,raised,Function.update_of_ne here]
  have same : ∀ q ∈ l.map Prod.fst, claimed locks wnode q = locks q := by
    intro q mem
    cases wnode with
    | none => rfl
    | some w => exact Function.update_of_ne (fun here => outside w rfl (by rw [← here]; exact mem)) ..
  rw [value]
  refine ⟨droppedRaised (fun q mem => same q mem ▸ free q mem),?_⟩
  intro q mem
  have positive := free q mem
  rw [same q mem] at positive
  simp only [Droppable,raised,if_pos mem,treelockWaitOffset,treelockWrite]
  omega

theorem startBufSpec (s : Fuse) (left : Nat → Bool) (name : Option Name) : ∃ memory,
    ({s with memory := left} : Fuse).startBuf name = (s.relock s.lock memory,none) ∨
    ∃ bufsize, ({s with memory := left} : Fuse).startBuf name =
      (s.relock s.lock memory,some (bufsize,startPath name)) := by
  cases name with
  | none => exact ⟨left,.inr ⟨256,by rw [relockSelf]; rfl⟩⟩
  | some name =>
    obtain ⟨memory,failed | ⟨grown,added⟩⟩ := addNameSpec {s with memory := left} 256 [] name
    · exact ⟨memory,.inl (failed.trans (by rw [relockSelf]))⟩
    · exact ⟨memory,.inr ⟨grown,added.trans (by rw [relockSelf]; rfl)⟩⟩

theorem tryGetPathSpec {want : Want} (tree : Tree extra s) (named : want.write = true → want.name ≠ none) :
    (∃ r, s.tryGetPath want true = .ok r ∧ Tried s want r) ∨
    (s.tryGetPath want true = .error .getNode ∧ s.getNodeNocheck want.nodeid = none) := by
  have keep : ∀ memory, ({s with memory := memory} : Fuse) = s.relock s.lock memory := fun memory =>
    (relockSelf s memory).symm
  unfold Fuse.tryGetPath Fuse.takeMem
  cases s.memory 0 with
  | false =>
    refine .inl ⟨_,rfl,?_⟩
    rw [keep]
    exact .refused _ (.inl rfl)
  | true =>
    simp only [Bool.not_true,Bool.false_eq_true,if_false]
    obtain ⟨memory,failed | ⟨bufsize,started⟩⟩ := startBufSpec s _ want.name
    · rw [failed]
      exact .inl ⟨_,rfl,.refused _ (.inl rfl)⟩
    rw [started]
    simp only [and_false,if_false]
    obtain ⟨locked,clear⟩ | ⟨w,wanted,taken,waits⟩ := lockWnodeSpec tree named memory
    · rw [locked]
      simp only [bind,Except.bind]
      cases found : s.getNodeNocheck want.nodeid with
      | none =>
        have fault : (s.relock (claimed s.lock (want.target s)) memory).getNode want.nodeid = .error .getNode := by
          simp only [Fuse.getNode,getNodeRelock,found]
        rw [fault]
        exact .inr ⟨rfl,rfl⟩
      | some p =>
        obtain ⟨_,n,live,_⟩ := (tree.toStore.getNodeIff want.nodeid).mp found
        have alive : s.heap p ≠ none := by rw [live]; exact Option.some_ne_none _
        rw [getNodeOk ((getNodeRelock want.nodeid).trans found)]
        simp only
        obtain ⟨r,ran,walked⟩ := walkPathSpec true (s.brk+1) (claimed s.lock (want.target s)) memory p bufsize
          (startPath want.name) tree alive (fun l stop climb => tree.climbShort alive climb)
        rw [show (s.relock (claimed s.lock (want.target s)) memory).brk = s.brk from rfl,ran]
        left
        cases walked with
        | @arrived l top memory' climb root free =>
          have outside : ∀ w, want.target s = some w → w ∉ l.map Prod.fst := by
            intro w wanted mem
            have positive := free rfl w mem
            rw [wanted,claimed,Function.update_self,treelockWrite] at positive
            omega
          refine ⟨_,rfl,.granted memory' found climb root ?_ ?_⟩
          · intro q mem
            have positive := free rfl q mem
            cases wanted : want.target s with
            | none => rwa [wanted] at positive
            | some w =>
              have other : q ≠ w := fun same => outside w wanted (same ▸ mem)
              rwa [wanted,claimed,Function.update_of_ne other] at positive
          · exact fun w wanted => ⟨(clear w wanted).1,(clear w wanted).2,outside w wanted⟩
        | @stopped l stop err memory' climb below blocked free =>
          obtain ⟨undone,droppable⟩ := undoneLocks (fun w wanted => (clear w wanted).2) (free rfl)
          have beyond := (climb.nodupGrounded (tree.grounded p alive)).2
          have back := unlockPathSpec (raised (claimed s.lock (want.target s)) l) memory' (some stop) tree found climb
            ?_ (.inl rfl) (fun q mem same => beyond (Option.some.inj same ▸ mem)) droppable
          · simp only [if_true,back,undone]
            refine ⟨_,rfl,.refused memory' ?_⟩
            rcases blocked with ⟨stale,top⟩ | full | ⟨again,_,negative,up⟩
            · exact .inr (.inl ⟨stale,p,l,stop,found,climb,top,below,free rfl,fun w wanted => (clear w wanted).2⟩)
            · exact .inl full
            · exact .inr (.inr ⟨again,p,l,stop,found,climb,up,negative⟩)
          · intro w wanted
            have outside : w ∉ l.map Prod.fst := by
              intro mem
              have positive := free rfl w mem
              rw [wanted,claimed,Function.update_self,treelockWrite] at positive
              omega
            refine ⟨(clear w wanted).1,?_⟩
            rw [raised,if_neg outside,wanted,claimed,Function.update_self]
    · rw [waits]
      exact .inl ⟨_,rfl,.marked memory wanted taken⟩

end FuseStudy.NodeStore
