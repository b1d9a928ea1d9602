import FuseStudy.LockWalks

/-! What the counter of a node says about the paths that are held: every path held is the
path its nodes have now, and a node counts the paths through it, the mark of a waiting
writer, or the one path that owns it. -/
namespace FuseStudy.NodeStore
open CString LinearHash Forest

variable {extra extra' : Ptr → Nat} {s s' : Fuse} {p q : Ptr} {n m : Node} {hs : List Held} {h : Held}
  {l : List (Ptr × Name)} {top : Ptr} {locks : Ptr → Int} {memory : Nat → Bool}

/- The nodes that a path through nodeid locks, and the path itself, in the tree as it is. -/
def Fuse.chainOf (s : Fuse) (nodeid : Ino) : List Ptr :=
  match s.getNodeNocheck nodeid with
  | none => []
  | some p => (trail (upOf s.heap) (s.brk+1) p).1.map Prod.fst

def Fuse.pathOf (s : Fuse) (nodeid : Ino) (name : Option Name) : Option Bytes := do
  let p ← s.getNodeNocheck nodeid
  let n ← s.heap (trail (upOf s.heap) (s.brk+1) p).2
  if n.nodeid = rootId then some (finishPath (pathAlong (trail (upOf s.heap) (s.brk+1) p).1 (startPath name))) else none

def readers (s : Fuse) (hs : List Held) (p : Ptr) : Nat := hs.countP fun h => p ∈ s.chainOf h.want.nodeid

def writers (hs : List Held) (p : Ptr) : Nat := hs.countP fun h => h.wnode = some p

inductive LockState (treelock : Int) (reads writes : Nat) : Prop
  | free (unowned : writes = 0) (is : treelock = reads)
  | marked (unowned : writes = 0) (some : 0 < reads) (is : treelock = treelockWaitOffset + reads)
  | owned (owner : writes = 1) (none : reads = 0) (is : treelock = treelockWrite)

/- The path was found by walking up, and still would be. -/
def Stands (s : Fuse) (h : Held) : Prop :=
  ∃ p l top, s.getNodeNocheck h.want.nodeid = some p ∧ Climb (upOf s.heap) p l top ∧ IsRoot s top ∧
    h.path = finishPath (pathAlong l (startPath h.want.name)) ∧ ∀ w, h.wnode = some w → s.heap w ≠ none

structure Locked (hs : List Held) (s : Fuse) : Prop where
  stands : ∀ h ∈ hs, Stands s h
  state : ∀ p n, s.heap p = some n → LockState n.treelock (readers s hs p) (writers hs p)

/- The counter of a node is a C int: so many paths can be held at a time. -/
def Few (hs : List Held) : Prop := hs.length < 2147483647

theorem Tree.trailOf (tree : Tree extra s) (found : s.getNodeNocheck q = some p) (climb : Climb (upOf s.heap) p l top)
    (root : IsRoot s top) : trail (upOf s.heap) (s.brk+1) p = (l,top) := by
  obtain ⟨_,n,live,_⟩ := (tree.toStore.getNodeIff q).mp found
  exact climb.trail root.top (tree.climbShort (by rw [live]; nofun) climb)

theorem Tree.chain {nodeid : Ino} (tree : Tree extra s) (found : s.getNodeNocheck nodeid = some p)
    (climb : Climb (upOf s.heap) p l top) (root : IsRoot s top) : s.chainOf nodeid = l.map Prod.fst := by
  rw [Fuse.chainOf,found]
  simp only [tree.trailOf found climb root]

theorem Stands.path (stands : Stands s h) (tree : Tree extra s) :
    s.pathOf h.want.nodeid h.want.name = some h.path := by
  obtain ⟨p,l,top,found,climb,root,path,_⟩ := stands
  obtain ⟨n,live,is⟩ := root
  simp only [Fuse.pathOf,found,tree.trailOf found climb ⟨n,live,is⟩,bind,Option.bind_some,live,if_pos is,path]

theorem Locked.perm {hs' : List Held} (locked : Locked hs s) (perm : hs.Perm hs') : Locked hs' s := by
  refine ⟨fun h mem => locked.stands h (perm.mem_iff.mpr mem),?_⟩
  intro p n live
  have state := locked.state p n live
  rwa [readers,writers,perm.countP_eq,perm.countP_eq] at state

theorem Few.perm {hs' : List Held} (few : Few hs) (perm : hs.Perm hs') : Few hs' := by
  rwa [Few,← perm.length_eq]

theorem Few.readers (few : Few hs) (s : Fuse) (p : Ptr) : NodeStore.readers s hs p < 2147483647 :=
  Nat.lt_of_le_of_lt List.countP_le_length few

theorem LockState.ofOwner {t : Int} {r w : Nat} (state : LockState t r w) (owner : 0 < w) :
    w = 1 ∧ r = 0 ∧ t = treelockWrite := by
  cases state with
  | free unowned _ => omega
  | marked unowned _ _ => omega
  | owned owner none is => exact ⟨owner,none,is⟩

theorem LockState.ofReader {t : Int} {r w : Nat} (state : LockState t r w) (reads : 0 < r) (few : r < 2147483647) :
    w = 0 ∧ t ≠ 0 ∧ Droppable t := by
  unfold Droppable treelockWaitOffset treelockWrite
  cases state with
  | free unowned is => omega
  | marked unowned some is =>
    rw [treelockWaitOffset] at is
    omega
  | owned _ none _ => omega

theorem LockState.ofPositive {t : Int} {r w : Nat} (state : LockState t r w) (positive : 0 ≤ t) (few : r < 2147483647) :
    w = 0 ∧ t = r := by
  cases state with
  | free unowned is => exact ⟨unowned,is⟩
  | marked unowned some is =>
    rw [treelockWaitOffset] at is
    omega
  | owned _ _ is =>
    rw [treelockWrite] at is
    omega

theorem LockState.exclusive {t : Int} {r w : Nat} (state : LockState t r w) :
    (t = r ∧ ¬ (t = treelockWaitOffset + r ∧ 0 < r) ∧ ¬ (t = treelockWrite ∧ r = 0 ∧ w = 1)) ∨
    (t ≠ r ∧ (t = treelockWaitOffset + r ∧ 0 < r) ∧ ¬ (t = treelockWrite ∧ r = 0 ∧ w = 1)) ∨
    (t ≠ r ∧ ¬ (t = treelockWaitOffset + r ∧ 0 < r) ∧ (t = treelockWrite ∧ r = 0 ∧ w = 1)) := by
  unfold treelockWaitOffset treelockWrite
  cases state with
  | free unowned is =>
    left
    omega
  | marked unowned some is =>
    rw [treelockWaitOffset] at is
    right
    left
    omega
  | owned owner none is =>
    rw [treelockWrite] at is
    right
    right
    omega

theorem readersPos : 0 < readers s hs p ↔ ∃ h ∈ hs, p ∈ s.chainOf h.want.nodeid := by
  simp [readers,List.countP_pos_iff]

theorem writersPos : 0 < writers hs p ↔ ∃ h ∈ hs, h.wnode = some p := by
  simp [writers,List.countP_pos_iff]

/- A change of the node table as far as locks can tell: locked nodes stay, only cut nodes
move, only made entries appear. -/
structure Frame (Cut : Ptr → Prop) (Made : Ino × Name → Prop) (s s' : Fuse) : Prop where
  locked : ∀ p n, s.heap p = some n → n.treelock ≠ 0 → s'.heap p ≠ none
  kept : ∀ p n n', s.heap p = some n → s'.heap p = some n' → n'.nodeid = n.nodeid ∧ n'.treelock = n.treelock ∧
    (¬ Cut p → n'.name = n.name ∧ n'.parent = n.parent)
  new : ∀ p n', s.heap p = none → s'.heap p = some n' → n'.treelock = 0
  found : ∀ dir name p, s.lookupNode dir name = some p → ¬ Cut p → s'.heap p ≠ none → s'.lookupNode dir name = some p
  absent : ∀ dir name, s.lookupNode dir name = none → ¬ Made (dir,name) → s'.lookupNode dir name = none

theorem Steady.rootIs (steady : Steady extra s) (root : IsRoot s p) : p = 0 := by
  obtain ⟨n,live,is⟩ := root
  obtain ⟨r,atRoot,rootIs,_⟩ := steady.shape.root
  exact steady.shape.distinct p 0 n r (steady.alive p n live).1 (steady.alive 0 r atRoot).1 live atRoot
    (is.trans rootIs.symm)

theorem Steady.rootStands (steady : Steady extra s) : IsRoot s 0 := by
  obtain ⟨r,atRoot,rootIs,_⟩ := steady.shape.root
  exact ⟨r,atRoot,rootIs⟩

variable {Cut : Ptr → Prop} {Made : Ino × Name → Prop}

theorem Frame.upSame (frame : Frame Cut Made s s') (live : s.heap p ≠ none) (live' : s'.heap p ≠ none)
    (uncut : ¬ Cut p) :
    upOf s'.heap p = upOf s.heap p := by
  obtain ⟨n,was⟩ := Option.ne_none_iff_exists'.mp live
  obtain ⟨n',now⟩ := Option.ne_none_iff_exists'.mp live'
  obtain ⟨id,_,entry⟩ := frame.kept p n n' was now
  obtain ⟨name,parent⟩ := entry uncut
  simp only [upOf,was,now,bind,Option.bind_some,id,name,parent]

/- The nodes of a path that is held are locked, so they stay and keep their names. -/
theorem Locked.stays (locked : Locked hs s) (few : Few hs) (tree : Tree extra s) (mem : h ∈ hs)
    (passed : p ∈ s.chainOf h.want.nodeid) (frame : Frame Cut Made s s') (owned : ∀ p, Cut p → 0 < writers hs p) :
    s.heap p ≠ none ∧ s'.heap p ≠ none ∧ ¬ Cut p := by
  obtain ⟨q,l,top,found,climb,root,_⟩ := locked.stands h mem
  obtain ⟨_,k,at_,_⟩ := (tree.toStore.getNodeIff _).mp found
  have inside := passed
  rw [tree.chain found climb root] at inside
  have live := (tree.climbLive (by rw [at_]; nofun) climb).1 p inside
  obtain ⟨n,was⟩ := Option.ne_none_iff_exists'.mp live
  have reads := readersPos.mpr ⟨h,mem,passed⟩
  obtain ⟨unowned,taken,_⟩ := (locked.state p n was).ofReader reads (few.readers s p)
  refine ⟨live,frame.locked p n was taken,?_⟩
  intro cut
  have positive := owned p cut
  omega

theorem Locked.standsFrame (locked : Locked hs s) (few : Few hs) (tree : Tree extra s) (steady' : Steady extra' s')
    (frame : Frame Cut Made s s') (owned : ∀ p, Cut p → 0 < writers hs p) (mem : h ∈ hs) :
    Stands s' h ∧ (Tree extra' s' → s'.chainOf h.want.nodeid = s.chainOf h.want.nodeid) := by
  obtain ⟨p,l,top,found,climb,root,path,wnode⟩ := locked.stands h mem
  have chain := tree.chain found climb root
  have stays : ∀ q ∈ l.map Prod.fst, s.heap q ≠ none ∧ s'.heap q ≠ none ∧ ¬ Cut q :=
    fun q inside => locked.stays few tree mem (chain ▸ inside) frame owned
  have climb' : Climb (upOf s'.heap) p l top := climb.frame fun q inside =>
    frame.upSame (stays q inside).1 (stays q inside).2.1 (stays q inside).2.2
  have root' : IsRoot s' top := by
    rw [tree.rootIs root]
    exact steady'.rootStands
  obtain ⟨_,n,was,id⟩ := (tree.toStore.getNodeIff _).mp found
  -- the node itself is on the way up unless it is the root
  have alive : s'.heap p ≠ none := by
    cases climb with
    | here =>
      obtain ⟨r,now,_⟩ := root'
      rw [now]
      exact fun no => by cases no
    | step link above => exact (stays p (by simp)).2.1
  obtain ⟨n',now⟩ := Option.ne_none_iff_exists'.mp alive
  have found' : s'.getNodeNocheck h.want.nodeid = some p :=
    (steady'.toStore.getNodeIff _).mpr ⟨(steady'.alive p n' now).1,n',now,(frame.kept p n n' was now).1.trans id⟩
  refine ⟨⟨p,l,top,found',climb',root',path,?_⟩,?_⟩
  · intro w is
    obtain ⟨k,at_⟩ := Option.ne_none_iff_exists'.mp (wnode w is)
    obtain ⟨_,_,write⟩ := (locked.state w k at_).ofOwner (writersPos.mpr ⟨h,mem,is⟩)
    exact frame.locked w k at_ (by rw [write,treelockWrite]; decide)
  · intro tree'
    rw [chain,tree'.chain found' climb' root']

theorem Tree.frame (tree : Tree extra s) (steady' : Steady extra' s') (frame : Frame Cut Made s s')
    (rerooted : ∀ p name q, Cut p ∨ s.heap p = none → upOf s'.heap p = some (name,q) → Grounded (upOf s'.heap) q) :
    Tree extra' s' := by
  classical
  refine ⟨steady',?_⟩
  have moved : ∀ p, upOf s'.heap p ≠ upOf s.heap p → Grounded (upOf s'.heap) p := by
    intro p changed
    cases up : upOf s'.heap p with
    | none => exact ⟨[],p,.here p,up⟩
    | some link =>
      obtain ⟨name,q⟩ := link
      have alive : s'.heap p ≠ none := by
        obtain ⟨n,now,_⟩ := upIff.mp up
        rw [now]
        nofun
      obtain ⟨l,top,climb,last⟩ := rerooted p name q (by
        by_contra neither
        rw [not_or] at neither
        exact changed (frame.upSame neither.2 alive neither.1)) up
      exact ⟨_,top,.step up climb,last⟩
  intro p live
  by_cases old : s.heap p = none
  · cases up : upOf s'.heap p with
    | none => exact ⟨[],p,.here p,up⟩
    | some link =>
      obtain ⟨l,top,climb,last⟩ := rerooted p link.1 link.2 (.inr old) up
      exact ⟨_,top,.step up climb,last⟩
  · exact groundedFrame (fun q same => not_not.mp same) moved (tree.grounded p old)

theorem Locked.frame (locked : Locked hs s) (few : Few hs) (tree : Tree extra s) (tree' : Tree extra' s')
    (frame : Frame Cut Made s s') (owned : ∀ p, Cut p → 0 < writers hs p) : Locked hs s' := by
  have each := fun h mem => locked.standsFrame few tree tree'.toSteady frame owned (h := h) mem
  have same : ∀ p, readers s' hs p = readers s hs p := by
    intro p
    apply List.countP_congr
    intro h mem
    rw [(each h mem).2 tree']
  refine ⟨fun h mem => (each h mem).1,?_⟩
  intro p n' now
  rw [same]
  cases was : s.heap p with
  | some n =>
    rw [(frame.kept p n n' was now).2.1]
    exact locked.state p n was
  | none =>
    have unread : ¬ 0 < readers s hs p := by
      rw [readersPos]
      rintro ⟨h,mem,passed⟩
      exact (locked.stays few tree mem passed frame owned).1 was
    have unowned : ¬ 0 < writers hs p := by
      rw [writersPos]
      rintro ⟨h,mem,is⟩
      obtain ⟨_,_,_,_,_,_,_,wnode⟩ := locked.stands h mem
      exact wnode p is was
    refine .free (by omega) ?_
    rw [frame.new p n' was now]
    omega

theorem Effect.frame {Hide : Ptr → Prop} {count : Ptr → Nat → Nat} (effect : Effect Cut Hide Made count s s')
    (steady : Steady extra s) (steady' : Steady extra' s') : Frame Cut Made s s' := by
  have entry : ∀ p, Has s.nameTable p → Has s'.nameTable p → ¬ Cut p → s'.entry p = s.entry p := by
    intro p named named' uncut
    obtain ⟨n,q,d,own,live,hasName,parent,alive⟩ := steady.shape.namedParent named
    obtain ⟨n',q',d',own',live',hasName',parent',alive'⟩ := steady'.shape.namedParent named'
    have agrees := effect.kept p n n' live live'
    have sameName := agrees.name uncut
    have sameParent := agrees.parent uncut
    rw [hasName,hasName'] at sameName
    rw [parent,parent'] at sameParent
    cases sameName
    cases sameParent
    have sameId := (effect.kept q d d' alive alive').nodeid
    have before : s.entry p = some (d.nodeid,own) := entryIff.mpr ⟨n,q,d,live,hasName,parent,alive,rfl⟩
    have after : s'.entry p = some (d.nodeid,own) := entryIff.mpr ⟨n',q,d',live',hasName',parent',alive',sameId⟩
    rw [before,after]
  refine ⟨?_,?_,?_,?_,?_⟩
  · intro p n live taken gone
    exact taken (effect.gone p n live gone).1
  · intro p n n' live live'
    have agrees := effect.kept p n n' live live'
    exact ⟨agrees.nodeid,agrees.treelock,fun uncut => ⟨agrees.name uncut,agrees.parent uncut⟩⟩
  · exact fun p n' gone live' => (effect.new p n' gone live').2.1
  · intro dir name p found uncut alive
    obtain ⟨named,at_⟩ := (steady.toStore.lookupIff dir name).mp found
    have named' := (effect.names p (steady.namedLive named) uncut).mpr ⟨named,alive⟩
    exact (steady'.toStore.lookupIff dir name).mpr ⟨named',(entry p named named' uncut).trans at_⟩
  · intro dir name missing unmade
    rw [Option.eq_none_iff_forall_ne_some]
    intro p found'
    obtain ⟨named',at_⟩ := (steady'.toStore.lookupIff dir name).mp found'
    by_cases fresh : Cut p ∨ s.heap p = none
    · obtain ⟨e,is,made⟩ := effect.made p fresh named'
      rw [at_] at is
      cases is
      exact unmade made
    · rw [not_or] at fresh
      have named := ((effect.names p fresh.2 fresh.1).mp named').1
      have found := (steady.toStore.lookupIff dir name).mpr ⟨named,(entry p named named' fresh.1).symm.trans at_⟩
      rw [missing] at found
      cases found

theorem touchFrame (live : s.heap p = some n) (same : n.SameEntry m)
    (treelock : m.treelock = n.treelock) (lru : List Ptr) : Frame Never Never s ({s with lruTable := lru}.put p m) := by
  have lookups : ({s with lruTable := lru}.put p m).lookupNode = s.lookupNode := by
    have entries : ({s with lruTable := lru}.put p m).entry = s.entry := funext (fun q => entryUpdate live same q)
    funext dir name
    simp only [Fuse.lookupNode,entries]
    rfl
  refine ⟨?_,?_,?_,?_,?_⟩
  · intro q k was _ gone
    by_cases here : q = p
    · subst here
      rw [putSelf] at gone
      cases gone
    · rw [putOther here] at gone
      rw [was] at gone
      cases gone
  · intro q k k' was now
    rcases atUpdate now with ⟨rfl,rfl⟩ | ⟨_,old⟩
    · rw [live] at was
      cases was
      exact ⟨same.1,treelock,fun _ => ⟨same.2.1,same.2.2⟩⟩
    · rw [was] at old
      cases old
      exact ⟨rfl,rfl,fun _ => ⟨rfl,rfl⟩⟩
  · intro q k' was now
    rcases atUpdate now with ⟨rfl,rfl⟩ | ⟨_,old⟩
    · rw [live] at was
      cases was
    · rw [was] at old
      cases old
  · intro dir name q found _ _
    rwa [lookups]
  · intro dir name missing _
    rwa [lookups]

@[simp] theorem chainRelock (nodeid : Ino) : (s.relock locks memory).chainOf nodeid = s.chainOf nodeid := by
  have same : upOf (s.relock locks memory).heap = upOf s.heap := funext (fun q => upRelock q)
  simp only [Fuse.chainOf,getNodeRelock,same]
  rfl

theorem readersRelock (hs : List Held) (p : Ptr) : readers (s.relock locks memory) hs p = readers s hs p := by
  simp only [readers,chainRelock]

theorem isRootRelock (root : IsRoot s p) : IsRoot (s.relock locks memory) p := by
  obtain ⟨n,live,is⟩ := root
  exact ⟨_,relockAt live,is⟩

theorem Stands.relock (stands : Stands s h) : Stands (s.relock locks memory) h := by
  obtain ⟨p,l,top,found,climb,root,path,wnode⟩ := stands
  refine ⟨p,l,top,(getNodeRelock _).trans found,climb.frame (fun q _ => upRelock q),isRootRelock root,path,?_⟩
  exact fun w is => (liveRelock w).mpr (wnode w is)

theorem lockAt (live : s.heap p = some n) : s.lock p = n.treelock := by
  simp [Fuse.lock,live]

theorem Locked.relock (stands : ∀ h ∈ hs, Stands s h)
    (state : ∀ p, s.heap p ≠ none → LockState (locks p) (readers s hs p) (writers hs p)) :
    Locked hs (s.relock locks memory) := by
  refine ⟨fun h mem => (stands h mem).relock,?_⟩
  intro p n now
  obtain ⟨m,live,rfl⟩ := atRelock now
  rw [readersRelock]
  exact state p (by rw [live]; nofun)

theorem Locked.at (locked : Locked hs s) (live : s.heap p ≠ none) :
    LockState (s.lock p) (readers s hs p) (writers hs p) := by
  obtain ⟨n,at_⟩ := Option.ne_none_iff_exists'.mp live
  rw [lockAt at_]
  exact locked.state p n at_

theorem LockState.ofMark {t : Int} {r w : Nat} (state : LockState t r w) (few : r < 2147483647) :
    LockState (if 0 < t then t + treelockWaitOffset else t) r w := by
  split
  · rename_i positive
    obtain ⟨unowned,is⟩ := state.ofPositive (Int.le_of_lt positive) few
    exact .marked unowned (by omega) (by rw [is,Int.add_comm])
  · exact state

theorem markedAt (locks : Ptr → Int) (w p : Ptr) :
    marked locks w p = if p = w then if 0 < locks p then locks p + treelockWaitOffset else locks p else locks p := by
  unfold marked
  by_cases here : p = w
  · subst here
    rw [if_pos rfl]
    split
    · rw [Function.update_self]
    · rfl
  · rw [if_neg here]
    split
    · rw [Function.update_of_ne here]
    · rfl

theorem Locked.marked (locked : Locked hs s) (few : Few hs) (w : Ptr) (memory : Nat → Bool) :
    Locked hs (s.relock (marked s.lock w) memory) := by
  apply Locked.relock locked.stands
  intro p live
  rw [markedAt]
  split
  · exact (locked.at live).ofMark (few.readers s p)
  · exact locked.at live

theorem Locked.same (locked : Locked hs s) (memory : Nat → Bool) : Locked hs (s.relock s.lock memory) :=
  Locked.relock locked.stands fun _ live => locked.at live

theorem Locked.granted (locked : Locked hs s) (few : Few hs) (tree : Tree extra s) {want : Want} {wnode : Option Ptr}
    (found : s.getNodeNocheck want.nodeid = some p) (climb : Climb (upOf s.heap) p l top) (root : IsRoot s top)
    (free : ∀ q ∈ l.map Prod.fst, 0 ≤ s.lock q)
    (clear : ∀ w, wnode = some w → s.heap w ≠ none ∧ s.lock w = 0 ∧ w ∉ l.map Prod.fst) (memory : Nat → Bool) :
    Locked (⟨want,wnode,finishPath (pathAlong l (startPath want.name))⟩ :: hs)
      (s.relock (raised (claimed s.lock wnode) l) memory) := by
  have chain := tree.chain found climb root
  apply Locked.relock
  · intro h mem
    rcases List.mem_cons.mp mem with rfl | mem
    · exact ⟨p,l,top,found,climb,root,rfl,fun w is => (clear w is).1⟩
    · exact locked.stands h mem
  intro q live
  have before := locked.at live
  rw [readers,writers,List.countP_cons,List.countP_cons]
  change LockState _ (readers s hs q + _) (writers hs q + _)
  simp only [chain]
  by_cases inside : q ∈ l.map Prod.fst
  · have other : wnode ≠ some q := fun is => (clear q is).2.2 inside
    have lock : claimed s.lock wnode q = s.lock q := by
      cases wnode with
      | none => rfl
      | some w => exact Function.update_of_ne (fun same => other (by rw [same])) ..
    obtain ⟨unowned,is⟩ := before.ofPositive (free q inside) (few.readers s q)
    refine .free (by simp [other,unowned]) ?_
    simp [raised,inside,lock,is]
  · by_cases here : wnode = some q
    · obtain ⟨_,zero,_⟩ := clear q here
      obtain ⟨unowned,is⟩ := before.ofPositive (by omega) (few.readers s q)
      refine .owned (by simp [here,unowned]) (by simp [inside]; omega) ?_
      simp [raised,inside,here,claimed]
    · have lock : claimed s.lock wnode q = s.lock q := by
        cases wnode with
        | none => rfl
        | some w => exact Function.update_of_ne (fun same => here (by rw [same])) ..
      simpa [raised,inside,here,lock] using before

theorem Locked.unlocked (locked : Locked (h :: hs) s) (few : Few (h :: hs)) (tree : Tree extra s) :
    ∃ p l top, s.getNodeNocheck h.want.nodeid = some p ∧ Climb (upOf s.heap) p l top ∧ IsRoot s top ∧
      s.unlockPath h.want.nodeid h.wnode none = .ok (s.relock (dropped (released s.lock h.wnode) l) s.memory) ∧
      Locked hs (s.relock (dropped (released s.lock h.wnode) l) s.memory) := by
  obtain ⟨p,l,top,found,climb,root,path,wnode⟩ := locked.stands h List.mem_cons_self
  have chain := tree.chain found climb root
  have counts : ∀ q, readers s (h :: hs) q = readers s hs q + (if q ∈ l.map Prod.fst then 1 else 0) ∧
      writers (h :: hs) q = writers hs q + (if h.wnode = some q then 1 else 0) := by
    intro q
    rw [readers,writers,List.countP_cons,List.countP_cons]
    simp only [chain,decide_eq_true_eq]
    exact ⟨rfl,rfl⟩
  have reader : ∀ q ∈ l.map Prod.fst, writers (h :: hs) q = 0 ∧ Droppable (s.lock q) := by
    intro q mem
    have live := (tree.climbLive (by
      obtain ⟨_,n,at_,_⟩ := (tree.toStore.getNodeIff _).mp found
      rw [at_]; nofun) climb).1 q mem
    have fit := (locked.at live).ofReader (readersPos.mpr ⟨h,List.mem_cons_self,chain ▸ mem⟩) (few.readers s q)
    exact ⟨fit.1,fit.2.2⟩
  have owner : ∀ w, h.wnode = some w → s.heap w ≠ none ∧ s.lock w = treelockWrite ∧ w ∉ l.map Prod.fst := by
    intro w is
    have fit := (locked.at (wnode w is)).ofOwner (writersPos.mpr ⟨h,List.mem_cons_self,is⟩)
    refine ⟨wnode w is,fit.2.2,?_⟩
    intro mem
    have none := (reader w mem).1
    omega
  have released : ∀ q, h.wnode ≠ some q → released s.lock h.wnode q = s.lock q := by
    intro q other
    cases is : h.wnode with
    | none => rfl
    | some w => exact Function.update_of_ne (fun same => other (by rw [is,same])) ..
  have outside : ∀ q ∈ l.map Prod.fst, h.wnode ≠ some q := fun q mem is => (owner q is).2.2 mem
  have ran := unlockPathSpec s.lock s.memory none tree found climb (fun w is => ⟨(owner w is).1,(owner w is).2.1⟩)
    (.inr root) nofun (fun q mem => by rw [released q (outside q mem)]; exact (reader q mem).2)
  rw [relockSelf] at ran
  refine ⟨p,l,top,found,climb,root,ran,Locked.relock (fun k mem => locked.stands k (List.mem_cons_of_mem _ mem)) ?_⟩
  intro q live
  have before := locked.at live
  rw [(counts q).1,(counts q).2] at before
  simp only [dropped]
  by_cases mem : q ∈ l.map Prod.fst
  · have other := outside q mem
    have total := few.readers s q
    rw [(counts q).1,if_pos mem] at total
    rw [if_pos mem,released q other]
    simp only [if_pos mem,if_neg other] at before
    unfold dropLock
    cases before with
    | free unowned is =>
      refine .free unowned ?_
      rw [treelockWaitOffset,if_neg] <;> omega
    | marked unowned some is =>
      rw [treelockWaitOffset] at is ⊢
      by_cases last : readers s hs q = 0
      · rw [if_pos (by omega)]
        exact .free unowned (by omega)
      · rw [if_neg (by omega)]
        exact .marked unowned (by omega) (by rw [treelockWaitOffset]; omega)
    | owned _ none _ => omega
  · rw [if_neg mem]
    simp only [if_neg mem] at before
    by_cases here : h.wnode = some q
    · rw [here,NodeStore.released,Function.update_self]
      simp only [here,if_true] at before
      obtain ⟨one,none,_⟩ := before.ofOwner (by omega)
      exact .free (by omega) (by omega)
    · rw [released q here]
      simpa [here] using before

/- Some lock of the state keeps the path from being granted. -/
def Busy (s : Fuse) (want : Want) : Prop :=
  (∃ w, want.target s = some w ∧ s.lock w ≠ 0) ∨ Occupied s want s.lock

theorem Want.targetIs {want : Want} {w : Ptr} (wanted : want.target s = some w) :
    ∃ name, want.name = some name ∧ s.lookupNode want.nodeid name = some w := by
  unfold Want.target at wanted
  split at wanted
  · exact Option.bind_eq_some_iff.mp wanted
  · cases wanted

theorem Steady.lookupUp {dir : Ino} {name : Name} {w : Ptr} (steady : Steady extra s)
    (found : s.lookupNode dir name = some w) (asked : s.getNodeNocheck dir = some p) :
    upOf s.heap w = some (name,p) := by
  obtain ⟨named,at_⟩ := (steady.toStore.lookupIff dir name).mp found
  obtain ⟨n,q,d,live,hasName,parent,alive,id⟩ := entryIff.mp at_
  have same := (steady.toStore.getNodeIff dir).mpr ⟨(steady.alive q d alive).1,d,alive,id⟩
  rw [asked] at same
  cases same
  refine upIff.mpr ⟨n,live,?_,hasName,parent⟩
  intro is
  exact steady.shape.notRoot named (steady.rootIs ⟨n,live,is⟩)

/- The node to be write locked is never above the directory it is in. -/
theorem Tree.targetBelow {want : Want} {w stop : Ptr} (tree : Tree extra s) (wanted : want.target s = some w)
    (found : s.getNodeNocheck want.nodeid = some p) (climb : Climb (upOf s.heap) p l stop) : stop ≠ w := by
  rintro rfl
  obtain ⟨name,_,lookup⟩ := Want.targetIs wanted
  have link := tree.toSteady.lookupUp lookup found
  have loop := Climb.nodupGrounded (.step link climb) (tree.grounded _ (tree.toSteady.lookupAlive lookup))
  exact loop.2 (by simp)

theorem claimedAt (locks : Ptr → Int) {wnode : Option Ptr} (other : wnode ≠ some p) :
    claimed locks wnode p = locks p := by
  cases wnode with
  | none => rfl
  | some w => exact Function.update_of_ne (fun same => other (by rw [same])) ..

theorem Tried.waits {want : Want} {r : Fuse × Except Int Held} (tried : Tried s want r) (tree : Tree extra s)
    (again : r.2 = .error (-eagain)) : Busy s want := by
  cases tried with
  | granted => cases again
  | @refused err memory why =>
    cases again
    rcases why with full | stale | ⟨_,q,l,stop,found,climb,up,negative⟩
    · exact absurd full (by decide)
    · exact absurd stale.1 (by decide)
    · rw [claimedAt _ (fun wanted => tree.targetBelow wanted found climb rfl)] at negative
      exact .inr ⟨q,l,stop,found,climb,up,negative⟩
  | @marked w memory wanted taken => exact .inl ⟨w,wanted,taken⟩

theorem relockCongr {locks' : Ptr → Int} (memory : Nat → Bool) (same : ∀ p, s.heap p ≠ none → locks p = locks' p) :
    s.relock locks memory = s.relock locks' memory := by
  have heaps : (fun p => (s.heap p).map fun n => {n with treelock := locks p}) =
      fun p => (s.heap p).map fun n => {n with treelock := locks' p} := by
    funext p
    cases live : s.heap p with
    | none => rfl
    | some n => rw [same p (by rw [live]; nofun)]
  rw [Fuse.relock,heaps]
  rfl

theorem lockRelocked (live : s.heap p ≠ none) : (s.relock locks memory).lock p = locks p := by
  obtain ⟨n,at_⟩ := Option.ne_none_iff_exists'.mp live
  exact lockRelock at_

@[simp] theorem targetRelock (want : Want) : want.target (s.relock locks memory) = want.target s := by
  have same : (s.relock locks memory).lookupNode want.nodeid = s.lookupNode want.nodeid :=
    funext (fun name => lookupRelock want.nodeid name)
  simp only [Want.target,same]

/- A mark that was set while the first of two paths was held stays after it is undone, as
far as there are other readers. -/
theorem undoneMarked {wnode : Option Ptr} (w : Ptr) (clear : ∀ w, wnode = some w → locks w = 0)
    (free : ∀ q ∈ l.map Prod.fst, 0 ≤ claimed locks wnode q) :
    dropped (released (marked (raised (claimed locks wnode) l) w) wnode) l = marked locks w := by
  have plain := (undoneLocks clear free).1
  funext q
  have here := congrFun plain q
  by_cases at_ : q = w
  · subst at_
    rw [markedAt,if_pos rfl]
    by_cases mine : wnode = some q
    · have outside : q ∉ l.map Prod.fst := by
        intro mem
        have positive := free q mem
        rw [mine,claimed,Function.update_self,treelockWrite] at positive
        omega
      simp only [dropped,if_neg outside,mine,released,Function.update_self,clear q mine]
      decide
    · have released : ∀ locks, released locks wnode q = locks q := by
        intro locks
        cases wnode with
        | none => rfl
        | some w => exact Function.update_of_ne (fun same => mine (by rw [same])) ..
      by_cases mem : q ∈ l.map Prod.fst
      · have positive := free q mem
        rw [claimedAt _ mine] at positive
        simp only [dropped,if_pos mem,released,markedAt,if_true,raised,claimedAt _ mine,dropLock,treelockWaitOffset]
        split <;> split <;> split <;> omega
      · simp only [dropped,if_neg mem,released,markedAt,if_true,raised,claimedAt _ mine]
  · have same : marked (raised (claimed locks wnode) l) w q = raised (claimed locks wnode) l q := by
      rw [markedAt,if_neg at_]
    have same' : marked locks w q = locks q := by rw [markedAt,if_neg at_]
    rw [same',← here]
    have released : released (marked (raised (claimed locks wnode) l) w) wnode q =
        released (raised (claimed locks wnode) l) wnode q := by
      cases wnode with
      | none => exact same
      | some v =>
        by_cases there : q = v
        · subst there
          simp only [NodeStore.released,Function.update_self]
        · simp only [NodeStore.released,Function.update_of_ne there]
          exact same
    simp only [dropped,released]

/- Two paths that would stand in each other's way, whoever else holds one. -/
def Clash (s : Fuse) (want1 want2 : Want) : Prop :=
  ∃ w, (want1.target s = some w ∧ (want2.target s = some w ∨ w ∈ s.chainOf want2.nodeid)) ∨
    (want2.target s = some w ∧ w ∈ s.chainOf want1.nodeid)

inductive Tried2 (s : Fuse) (want1 want2 : Want) : Fuse × Except Int (Held × Held) → Prop
  | granted {s₁ s₂ : Fuse} {held1 held2 : Held} (first : Tried s want1 (s₁,.ok held1))
      (second : Tried s₁ want2 (s₂,.ok held2)) : Tried2 s want1 want2 (s₂,.ok (held1,held2))
  | refused {err : Int} (memory : Nat → Bool) (why : err = -enomem ∨ err = -estale ∨
        (err = -eagain ∧ (Busy s want1 ∨ Busy s want2 ∨ Clash s want1 want2))) :
      Tried2 s want1 want2 (s.relock s.lock memory,.error err)
  | marked {w : Ptr} (memory : Nat → Bool) (wanted : want1.target s = some w ∨ want2.target s = some w)
      (why : Busy s want1 ∨ Busy s want2 ∨ Clash s want1 want2) :
      Tried2 s want1 want2 (s.relock (marked s.lock w) memory,.error (-eagain))

/- What blocks the second path once the first is held was there before, or is the first. -/
theorem busyAfter {want1 want2 : Want} {s₁ : Fuse} {held1 : Held} (tree : Tree extra s)
    (first : Tried s want1 (s₁,.ok held1)) (busy : Busy s₁ want2) : Busy s want2 ∨ Clash s want1 want2 := by
  cases first with
  | @granted p top l memory found climb root free clear =>
    have value : ∀ q, s.heap q ≠ none → (s.relock (raised (claimed s.lock (want1.target s)) l) memory).lock q =
        raised (claimed s.lock (want1.target s)) l q := fun q live => lockRelocked live
    have chain := tree.chain found climb root
    rcases busy with ⟨w,wanted,taken⟩ | ⟨q,m,stop,found2,climb2,up,negative⟩
    · rw [targetRelock] at wanted
      obtain ⟨name,_,lookup⟩ := Want.targetIs wanted
      rw [value w (tree.toSteady.lookupAlive lookup)] at taken
      by_cases mine : want1.target s = some w
      · exact .inr ⟨w,.inl ⟨mine,.inl wanted⟩⟩
      by_cases passed : w ∈ l.map Prod.fst
      · exact .inr ⟨w,.inr ⟨wanted,chain ▸ passed⟩⟩
      rw [raised,if_neg passed,claimedAt _ mine] at taken
      exact .inl (.inl ⟨w,wanted,taken⟩)
    · rw [getNodeRelock] at found2
      have climb2' : Climb (upOf s.heap) q m stop := climb2.frame (fun r _ => (upRelock r).symm)
      rw [upRelock] at up
      have live : s.heap stop ≠ none := by
        obtain ⟨⟨name,r⟩,link⟩ := Option.ne_none_iff_exists'.mp up
        obtain ⟨n,at_,_⟩ := upIff.mp link
        rw [at_]
        exact fun no => by cases no
      rw [value stop live] at negative
      by_cases mine : want1.target s = some stop
      · obtain ⟨_,n,at_,_⟩ := (tree.toStore.getNodeIff _).mp found2
        obtain ⟨⟨name,r⟩,link⟩ := Option.ne_none_iff_exists'.mp up
        obtain ⟨rest,last,above,end_⟩ := tree.grounded stop live
        have whole := climb2'.trans above
        refine .inr ⟨stop,.inl ⟨mine,.inr ?_⟩⟩
        rw [Fuse.chainOf,found2]
        simp only [whole.trail end_ (tree.climbShort (by rw [at_]; exact Option.some_ne_none _) whole)]
        cases above with
        | here =>
          rw [end_] at link
          cases link
        | step _ _ => simp
      · have lower : s.lock stop < 0 := by
          by_cases passed : stop ∈ l.map Prod.fst
          · have positive := free stop passed
            rw [raised,if_pos passed,claimedAt _ mine] at negative
            omega
          · rwa [raised,if_neg passed,claimedAt _ mine] at negative
        exact .inl (.inr ⟨q,m,stop,found2,climb2',up,lower⟩)

theorem Tried.tree {want : Want} {r : Fuse × Except Int Held} (tried : Tried s want r) (tree : Tree extra s) :
    ∃ locks memory, r.1 = s.relock locks memory ∧ Tree extra r.1 := by
  cases tried with
  | granted memory => exact ⟨_,memory,rfl,tree.relock _ _⟩
  | refused memory => exact ⟨_,memory,rfl,tree.relock _ _⟩
  | marked memory => exact ⟨_,memory,rfl,tree.relock _ _⟩

theorem Tried.held {want : Want} {s' : Fuse} {held : Held} (tried : Tried s want (s',.ok held)) (tree : Tree extra s)
    (locked : Locked hs s) (few : Few hs) : Locked (held :: hs) s' ∧ held.want = want ∧ held.wnode = want.target s := by
  cases tried with
  | granted memory found climb root free clear =>
      exact ⟨locked.granted few tree found climb root free clear memory,rfl,rfl⟩

theorem Tried.failed {want : Want} {s' : Fuse} {err : Int} (tried : Tried s want (s',.error err))
    (locked : Locked hs s) (few : Few hs) : Locked hs s' := by
  cases tried with
  | refused memory => exact locked.same memory
  | marked memory => exact locked.marked few _ memory

theorem undoFirst {want1 want2 : Want} {s₁ s₂ : Fuse} {held1 : Held} {err : Int} (tree : Tree extra s)
    (locked : Locked hs s) (few : Few (held1 :: hs)) (first : Tried s want1 (s₁,.ok held1))
    (second : Tried s₁ want2 (s₂,.error err)) : ∃ s₃, s₂.unlockPath want1.nodeid held1.wnode none = .ok s₃ ∧
      Tried2 s want1 want2 (s₃,.error err) := by
  have few' : Few hs := Nat.lt_of_succ_lt few
  obtain ⟨locked₁,asked,_⟩ := first.held tree locked few'
  obtain ⟨locks₁,memory₁,is₁,tree₁⟩ := first.tree tree
  obtain ⟨locks₂,memory₂,is₂,tree₂⟩ := second.tree tree₁
  have locked₂ := second.failed locked₁ few
  obtain ⟨q,m,end_,found',climb',root',ran,_⟩ := locked₂.unlocked few tree₂
  rw [asked] at ran found'
  refine ⟨_,ran,?_⟩
  cases first with
  | @granted p top l memory found climb root free clear =>
    have climbed : Climb (upOf s.heap) q m end_ := by
      dsimp only at is₂
      rw [is₂] at climb'
      exact climb'.frame (fun r _ => by rw [upRelock,upRelock])
    have top' : upOf s.heap end_ = none := by
      have last := root'.top
      dsimp only at is₂
      rwa [is₂,upRelock,upRelock] at last
    have start : q = p := by
      dsimp only at is₂
      rw [is₂,getNodeRelock,getNodeRelock,found] at found'
      exact (Option.some.inj found').symm
    subst start
    have same : m = l := (Climb.unique climbed climb top' root.top).1
    subst same
    have zero : ∀ w, want1.target s = some w → s.lock w = 0 := fun w is => (clear w is).2.1
    have nonneg : ∀ r ∈ m.map Prod.fst, 0 ≤ claimed s.lock (want1.target s) r := by
      intro r mem
      rw [claimedAt _ (fun is => (clear r is).2.2 mem)]
      exact free r mem
    -- the unlocked counters depend on the counters of live nodes only
    have pointwise : ∀ f g : Ptr → Int, (∀ r, s.heap r ≠ none → f r = g r) → ∀ r, s.heap r ≠ none →
        dropped (released f (want1.target s)) m r = dropped (released g (want1.target s)) m r := by
      intro f g agree r live
      have each : released f (want1.target s) r = released g (want1.target s) r := by
        cases want1.target s with
        | none => exact agree r live
        | some w =>
          by_cases here : r = w
          · subst here
            simp only [released,Function.update_self]
          · simp only [released,Function.update_of_ne here]
            exact agree r live
      simp only [dropped,each]
    cases second with
    | @refused err memory' why =>
      have back : (s.relock (raised (claimed s.lock (want1.target s)) m) memory).relock
          (s.relock (raised (claimed s.lock (want1.target s)) m) memory).lock memory' =
          s.relock (raised (claimed s.lock (want1.target s)) m) memory' := by
        rw [relockRelock]
        exact relockCongr _ (fun r live => lockRelocked live)
      simp only [back,relockRelock]
      rw [relockCongr _ (pointwise _ _ (fun r live => lockRelocked live)),(undoneLocks zero nonneg).1]
      refine .refused _ ?_
      rcases why with full | stale | ⟨again,occupied⟩
      · exact .inl full
      · exact .inr (.inl stale.1)
      · have tried : Tried (s.relock (raised (claimed s.lock (want1.target s)) m) memory) want2 _ :=
          .refused memory' (.inr (.inr ⟨again,occupied⟩))
        have busy := busyAfter tree (.granted memory found climb root free clear) (tried.waits tree₁ (by rw [again]))
        exact .inr (.inr ⟨again,.inr busy⟩)
    | @marked w memory' wanted taken =>
      have back : (s.relock (raised (claimed s.lock (want1.target s)) m) memory).relock
          (marked (s.relock (raised (claimed s.lock (want1.target s)) m) memory).lock w) memory' =
          s.relock (marked (raised (claimed s.lock (want1.target s)) m) w) memory' := by
        rw [relockRelock]
        refine relockCongr _ (fun r live => ?_)
        rw [markedAt,markedAt,lockRelocked live]
      simp only [back,relockRelock]
      rw [relockCongr _ (pointwise _ _ (fun r live => lockRelocked live)),undoneMarked w zero nonneg]
      have tried : Tried (s.relock (raised (claimed s.lock (want1.target s)) m) memory) want2 _ :=
        .marked memory' wanted taken
      have busy := busyAfter tree (.granted memory found climb root free clear) (tried.waits tree₁ rfl)
      exact .marked _ (.inr (by rwa [targetRelock] at wanted)) (.inr busy)

theorem tryGetPath2Spec {want1 want2 : Want} (tree : Tree extra s) (locked : Locked hs s)
    (few : hs.length + 1 < 2147483647) (named1 : want1.write = true → want1.name ≠ none)
    (named2 : want2.write = true → want2.name ≠ none) :
    (∃ r, s.tryGetPath2 want1 want2 = .ok r ∧ Tried2 s want1 want2 r) ∨
    (s.tryGetPath2 want1 want2 = .error .getNode ∧
      (s.getNodeNocheck want1.nodeid = none ∨ s.getNodeNocheck want2.nodeid = none)) := by
  unfold Fuse.tryGetPath2
  obtain ⟨⟨s₁,r₁⟩,ran₁,tried₁⟩ | ⟨fault,missing⟩ := tryGetPathSpec tree named1
  · rw [ran₁]
    simp only [bind,Except.bind]
    cases r₁ with
    | error err =>
      refine .inl ⟨_,rfl,?_⟩
      have reason := fun again => tried₁.waits tree (again : Except.error err = _)
      cases tried₁ with
      | refused memory why =>
        refine .refused memory (why.imp_right (Or.imp And.left fun h => ⟨h.1,.inl (reason (by rw [h.1]))⟩))
      | marked memory wanted taken => exact .marked memory (.inl wanted) (.inl (reason rfl))
    | ok held1 =>
      obtain ⟨locks₁,memory₁,is₁,tree₁⟩ := tried₁.tree tree
      simp only
      obtain ⟨⟨s₂,r₂⟩,ran₂,tried₂⟩ | ⟨fault,missing⟩ := tryGetPathSpec tree₁ named2
      · rw [ran₂]
        cases r₂ with
        | ok held2 => exact .inl ⟨_,rfl,.granted tried₁ tried₂⟩
        | error err =>
          obtain ⟨s₃,back,tried⟩ := undoFirst tree locked few tried₁ tried₂
          simp only [back]
          exact .inl ⟨_,rfl,tried⟩
      · rw [fault]
        dsimp only at is₁
        rw [is₁,getNodeRelock] at missing
        exact .inr ⟨rfl,.inr missing⟩
  · rw [fault]
    exact .inr ⟨rfl,.inl missing⟩

end FuseStudy.NodeStore
