import FuseStudy.StoreLookups

/-! Sequences of calls on a node table without remembered nodes and without path locks:
whatever the calls and whatever memory gives out, both tables, the tree and the counters
stay in agreement. -/
namespace FuseStudy.NodeStore
open CString LinearHash

inductive Op
  | find (parent : Ino) (name : Option Name)
  | forget (nodeid : Ino) (nlookup : Nat)
  | remove (dir : Ino) (name : Name)
  | rename (olddir : Ino) (oldname : Name) (newdir : Ino) (newname : Name) (hide : Bool)
  | exchange (olddir : Ino) (oldname : Name) (newdir : Ino) (newname : Name)

def step (s : Fuse) : Op → Except Fault Fuse
  | .find parent name => (s.findNode parent name).map Prod.fst
  | .forget nodeid nlookup => s.forgetNode nodeid nlookup
  | .remove dir name => s.removeNode dir name
  | .rename olddir oldname newdir newname hide => (s.renameNode olddir oldname newdir newname hide).map Prod.fst
  | .exchange olddir oldname newdir newname => (s.exchangeNode olddir oldname newdir newname).map Prod.fst

def run : Fuse → List Op → Except Fault Fuse
  | s, [] => .ok s
  | s, op :: ops => do
    let s ← step s op
    run s ops

def Fuse.nlookupOf (s : Fuse) (nodeid : Ino) : Option Nat := do
  let p ← s.getNodeNocheck nodeid
  let n ← s.heap p
  some n.nlookup

def Fuse.looked (s : Fuse) (nodeid : Ino) : Bool := (s.nlookupOf nodeid).any (0 < ·)

/- What the kernel promises: it works in directories it has looked up, forgets no more
than it was given and never names one entry twice. -/
def Op.allowed (s : Fuse) : Op → Bool
  | .find parent _ => s.looked parent
  | .forget nodeid nlookup => nodeid == rootId || (s.nlookupOf nodeid).any (nlookup ≤ ·)
  | .remove dir _ => s.looked dir
  | .rename olddir oldname newdir newname _ =>
      s.looked olddir && s.looked newdir && (olddir,oldname) != (newdir,newname)
  | .exchange olddir oldname newdir newname =>
      s.looked olddir && s.looked newdir && (olddir,oldname) != (newdir,newname)

/- A node is forgotten only while the kernel has lookups of it. -/
def Op.forgetsKnown (s : Fuse) : Op → Bool
  | .forget nodeid _ => nodeid == rootId || s.looked nodeid
  | _ => true

def legal (allowed : Fuse → Op → Bool) : Fuse → List Op → Bool
  | _, [] => true
  | s, op :: ops => allowed s op && match step s op with
    | .ok s' => legal allowed s' ops
    | .error _ => true

def namedChildren (s : Fuse) (p : Ptr) : Nat :=
  ((Finset.range s.brk).filter (fun q => (s.heap q).bind Node.name ≠ none ∧ parentOf s.heap q = some p)).card

structure Consistent (s : Fuse) : Prop where
  byId : ∀ p n, s.heap p = some n → ∀ i, s.getNodeNocheck i = some p ↔ i = n.nodeid
  byName : ∀ p n, s.heap p = some n → p ≠ 0 → n.name ≠ none → ∃ e, s.entry p = some e ∧
    ∀ i name, s.lookupNode i name = some p ↔ (i,name) = e
  unshared : ∀ p q e, s.entry p = some e → s.entry q = some e → p = q
  parentLive : ∀ p n q, s.heap p = some n → n.parent = some q → ∃ d, s.heap q = some d
  counted : ∀ p n, s.heap p = some n →
    n.refctr = (if 0 < n.nlookup then 1 else 0) + namedChildren s p ∧ 1 ≤ n.refctr

variable {s s' : Fuse} {p q : Ptr} {n : Node}

theorem Steady.parentNamed {extra : Ptr → Nat} (steady : Steady extra s) (live : s.heap p = some n)
    (parent : n.parent = some q) : p ≠ 0 ∧ n.name ≠ none := by
  constructor
  · rintro rfl
    obtain ⟨r,atRoot,_,_,none⟩ := steady.shape.root
    rw [live] at atRoot
    cases atRoot
    rw [parent] at none
    cases none
  · intro noName
    have none := (steady.shape.settled p n live (steady.alive p n live).2 nofun).1 noName
    rw [parent] at none
    cases none

theorem Steady.consistent (steady : Steady (fun _ => 0) s) : Consistent s := by
  have entryNamed : ∀ p e, s.entry p = some e → Has s.nameTable p := by
    rintro p ⟨i,name⟩ at_
    obtain ⟨n,q,d,live,hasName,parent,_⟩ := entryIff.mp at_
    exact (steady.named live (steady.parentNamed live parent).1).mpr (by rw [hasName]; nofun)
  refine ⟨?_,?_,?_,?_,?_⟩
  · intro p n live i
    rw [steady.toStore.getNodeIff]
    constructor
    · rintro ⟨_,m,live',id⟩
      rw [live] at live'
      cases live'
      exact id.symm
    · rintro rfl
      exact ⟨(steady.alive p n live).1,n,live,rfl⟩
  · intro p n live plain hasName
    have named := (steady.named live plain).mpr hasName
    obtain ⟨e,at_⟩ := steady.shape.named p named
    refine ⟨e,at_,?_⟩
    intro i name
    rw [steady.toStore.lookupIff,show s.entry p = some e from at_]
    constructor
    · exact fun h => (Option.some.inj h.2).symm
    · rintro rfl
      exact ⟨named,rfl⟩
  · intro p q e atP atQ
    exact steady.shape.apart p q (entryNamed p e atP) (entryNamed q e atQ) (atP.trans atQ.symm)
  · intro p n q live parent
    obtain ⟨plain,hasName⟩ := steady.parentNamed live parent
    obtain ⟨n',q',d,_,live',_,parent',alive⟩ := steady.shape.namedParent ((steady.named live plain).mpr hasName)
    rw [live] at live'
    cases live'
    rw [parent] at parent'
    cases parent'
    exact ⟨d,alive⟩
  · intro p n live
    have count := steady.shape.counted p n live
    have same : namedChildren s p = (children s.heap (Has s.nameTable) s.brk p).card := by
      unfold namedChildren
      congr 1
      ext c
      rw [memChildren,Finset.mem_filter,Finset.mem_range]
      apply and_congr_right
      intro _
      apply and_congr_left
      intro child
      cases live' : s.heap c with
      | none =>
        rw [parentOf,live'] at child
        cases child
      | some m =>
        have parent : m.parent = some p := by rwa [parentOf,live',Option.bind_some] at child
        rw [Option.bind_some]
        exact (steady.named live' (steady.parentNamed live' parent).1).symm
    have used := (steady.alive p n live).2
    rw [same]
    exact ⟨count,by omega⟩

structure Idle (s : Fuse) : Prop where
  steady : Steady (fun _ => 0) s
  remember : s.conf.remember = 0
  unlocked : ∀ p n, s.heap p = some n → n.treelock = 0

theorem lookedFound {dir : Ino} (looked : s.looked dir) :
    ∃ p n, s.getNodeNocheck dir = some p ∧ s.heap p = some n ∧ 0 < n.nlookup := by
  rw [Fuse.looked,Option.any_eq_true] at looked
  obtain ⟨k,is,positive⟩ := looked
  simp only [Fuse.nlookupOf,bind,Option.bind_eq_some_iff,Option.some.injEq] at is
  obtain ⟨p,found,n,live,rfl⟩ := is
  exact ⟨p,n,found,live,of_decide_eq_true positive⟩

theorem lookedPinned {dir : Ino} (looked : s.looked dir) : DirPinned s dir := by
  intro q found d alive
  obtain ⟨p,n,found',live,positive⟩ := lookedFound looked
  rw [found] at found'
  cases found'
  rw [alive] at live
  cases live
  exact .inl positive

/- With nothing locked or remembered and every directory known, only the ids can run out. -/
theorem Idle.bad (idle : Idle s) {dirs : List Ino} (looked : ∀ dir ∈ dirs, s.looked dir) {fault : Fault}
    (bad : Bad s dirs fault) : fault = .idsExhausted := by
  cases bad with
  | deleteLocked live locked => exact absurd (idle.unlocked _ _ live) locked
  | idsExhausted => rfl
  | getNode passed unknown =>
    obtain ⟨p,n,found,_⟩ := lookedFound (looked _ passed)
    rw [found] at unknown
    cases unknown
  | unlinkCount remember => exact absurd idle.remember remember

theorem Idle.relabels {Cut Hide : Ptr → Prop} {Made : Ino × Name → Prop} {count : Ptr → Nat → Nat}
    (idle : Idle s) (steady : Steady (fun _ => 0) s') (relabels : Relabels Cut Hide Made count s s') : Idle s' := by
  refine ⟨steady,relabels.conf ▸ idle.remember,?_⟩
  intro p n' now
  cases was : s.heap p with
  | none =>
    rw [relabels.absent p was] at now
    cases now
  | some n =>
    obtain ⟨m,live,agrees,_⟩ := relabels.kept p n was
    rw [now] at live
    cases live
    rw [agrees.treelock]
    exact idle.unlocked p n was

theorem Idle.effect {Cut Hide : Ptr → Prop} {Made : Ino × Name → Prop} {count : Ptr → Nat → Nat}
    (idle : Idle s) (steady : Steady (fun _ => 0) s') (effect : Effect Cut Hide Made count s s') : Idle s' := by
  refine ⟨steady,effect.conf ▸ idle.remember,?_⟩
  intro p n' now
  cases was : s.heap p with
  | none => exact (effect.new p n' was now).2.1
  | some n =>
    rw [(effect.kept p n n' was now).treelock]
    exact idle.unlocked p n was

theorem Outcome.map {α β : Type} {BadFault : Fault → Prop} {Good : β → Prop} {run : Except Fault α} {f : α → β}
    (outcome : Outcome BadFault (fun a => Good (f a)) run) : Outcome BadFault Good (run.map f) := by
  cases run with
  | ok a => exact outcome
  | error fault => exact outcome

theorem stepIdle {op : Op} (idle : Idle s) (allowed : op.allowed s) (known : op.forgetsKnown s) :
    Outcome (· = .idsExhausted) Idle (step s op) := by
  cases op with
  | find parent name =>
    apply Outcome.map
    refine (findNodeSpec idle.steady rfl parent name).imp (fun _ => idle.bad (by simpa [Op.allowed] using allowed)) ?_
    rintro _ (⟨live,_,_,steady⟩ | ⟨_,_,steady,effect,_⟩ | ⟨_,_,steady,_⟩)
    · refine ⟨steady,idle.remember,?_⟩
      intro r k now
      rcases atUpdate now with ⟨rfl,rfl⟩ | ⟨_,old⟩
      · have unlocked := idle.unlocked r _ live
        exact unlocked
      · exact idle.unlocked r k old
    · exact idle.effect steady effect
    · exact ⟨steady,idle.remember,idle.unlocked⟩
  | forget nodeid nlookup =>
    by_cases root : nodeid = rootId
    · have same : step s (.forget nodeid nlookup) = .ok s := by
        simp only [step,Fuse.forgetNode,if_pos root]
      rw [same]
      exact idle
    · simp only [Op.allowed,Op.forgetsKnown,root,beq_iff_eq,Bool.or_eq_true,false_or] at allowed known
      obtain ⟨p,n,found,live,positive⟩ := lookedFound known
      have enough : nlookup ≤ n.nlookup := by
        simpa [Fuse.nlookupOf,found,live] using allowed
      refine (forgetNodeSpec idle.steady root found live positive enough).imp (fun _ => idle.bad (by simp)) ?_
      exact fun s' good => idle.effect good.1 good.2.1
  | remove dir name =>
    refine (removeNodeSpec idle.steady (lookedPinned allowed)).imp (fun _ => idle.bad (by simp)) ?_
    exact fun s' good => idle.relabels good.steady good.relabels
  | rename olddir oldname newdir newname hide =>
    simp only [Op.allowed,Bool.and_eq_true,bne_iff_ne] at allowed
    obtain ⟨⟨old,new⟩,names⟩ := allowed
    apply Outcome.map
    have differ : ∀ p, s.lookupNode olddir oldname = some p → s.lookupNode newdir newname ≠ some p :=
      fun p source target => names (idle.steady.toStore.lookupSame source target)
    refine (renameNodeSpec idle.steady differ (lookedPinned old) (lookedPinned new)).imp
      (fun _ => idle.bad (by simpa using new)) ?_
    rintro _ (_ | _ | ⟨_,steady,relabels⟩ | ⟨_,steady,relabels⟩)
    · exact idle
    · exact idle
    · exact idle.relabels steady relabels
    · exact idle.relabels steady relabels
  | exchange olddir oldname newdir newname =>
    simp only [Op.allowed,Bool.and_eq_true,bne_iff_ne] at allowed
    obtain ⟨⟨old,new⟩,names⟩ := allowed
    apply Outcome.map
    refine (exchangeNodeSpec idle.steady names (lookedPinned old) (lookedPinned new)).imp
      (fun _ => idle.bad (by simpa using ⟨new,old⟩)) ?_
    exact fun r good => idle.relabels good.steady good.relabels

theorem runIdle (ops : List Op) (idle : Idle s)
    (ok : legal (fun s op => op.allowed s && op.forgetsKnown s) s ops) :
    Outcome (· = .idsExhausted) Idle (run s ops) := by
  induction ops generalizing s with
  | nil => exact idle
  | cons op ops ih =>
    simp only [legal,Bool.and_eq_true] at ok
    obtain ⟨⟨allowed,known⟩,rest⟩ := ok
    have first := stepIdle idle allowed known
    unfold run
    simp only [bind]
    cases result : step s op with
    | error fault =>
      rw [result] at first
      exact first
    | ok s' =>
      rw [result] at first rest
      exact ih first rest

theorem initEmpty (p : Ptr) : ¬ Has (init minTable) p := by
  rintro ⟨i,mem⟩
  simp [init] at mem

theorem emptyTreeCell (conf : Conf) (memory : Nat → Bool) (live : (emptyTree conf memory).heap p = some n) :
    p = 0 ∧ n = rootNode := by
  by_cases here : p = 0
  · subst here
    exact ⟨rfl,(Option.some.inj live).symm⟩
  · simp [emptyTree,here] at live

theorem emptyTreeStore (conf : Conf) (memory : Nat → Bool) : Store (fun _ => 0) none (emptyTree conf memory) := by
  have valid : ∀ key : Ptr → Nat, Valid minTable key (init minTable) := initValid (show 0 < 4096 by decide)
  refine ⟨valid _,valid _,?_⟩
  refine ⟨?_,fun p hashed => absurd hashed (initEmpty p),fun p _ _ _ hashed => absurd hashed (initEmpty p),
    fun p named => absurd named (initEmpty p),fun p _ named => absurd named (initEmpty p),?_,?_,?_⟩
  · intro p above
    cases live : (emptyTree conf memory).heap p with
    | none => rfl
    | some n =>
      obtain ⟨rfl,_⟩ := emptyTreeCell conf memory live
      exact absurd above (Nat.not_succ_le_zero 0)
  · intro p n live
    obtain ⟨rfl,rfl⟩ := emptyTreeCell conf memory live
    have childless : children (emptyTree conf memory).heap (Has (init minTable)) 1 0 = ∅ := by
      apply Finset.eq_empty_of_forall_notMem
      exact fun c mem => initEmpty c (memChildren.mp mem).2.1
    exact (congrArg (fun c : Finset Ptr => 1 + c.card + 0) childless).symm
  · intro p n live _ _
    obtain ⟨rfl,rfl⟩ := emptyTreeCell conf memory live
    exact ⟨nofun,fun other => absurd rfl other⟩
  · exact ⟨rootNode,rfl,rfl,Nat.one_pos,rfl⟩

theorem fuseNewSteady (conf : Conf) (memory : Nat → Bool) : Steady (fun _ => 0) (fuseNew conf memory) := by
  have store := emptyTreeStore conf memory
  obtain ⟨valid,has⟩ := insertSpec store.ids (initEmpty 0) (memory 0)
  have same : Has (fuseNew conf memory).idTable = fun r => Has (emptyTree conf memory).idTable r ∨ r = 0 :=
    funext (fun r => propext (has r))
  refine ⟨⟨store.names,valid,?_⟩,?_⟩
  · rw [same]
    exact store.shape.hash (p := 0) (n := rootNode) rfl (fun r _ hashed => absurd hashed (initEmpty r))
  · intro p n live
    obtain ⟨rfl,rfl⟩ := emptyTreeCell conf memory live
    exact ⟨(has 0).mpr (.inr rfl),nofun⟩

/- Forgetting known nodes only, no sequence of calls runs into an abort or an assertion, and
the table is consistent after each of them. -/
theorem storeStaysConsistent (conf : Conf) (memory : Nat → Bool) (ops : List Op) (remember : conf.remember = 0)
    (ok : legal (fun s op => op.allowed s && op.forgetsKnown s) (fuseNew conf memory) ops) :
    (∃ s, run (fuseNew conf memory) ops = .ok s ∧ Consistent s) ∨
    run (fuseNew conf memory) ops = .error .idsExhausted := by
  have start : Idle (fuseNew conf memory) := by
    refine ⟨fuseNewSteady conf memory,remember,?_⟩
    intro p n live
    obtain ⟨_,rfl⟩ := emptyTreeCell conf memory live
    rfl
  have outcome := runIdle ops start ok
  cases result : run (fuseNew conf memory) ops with
  | ok s =>
    rw [result] at outcome
    exact .inl ⟨s,rfl,outcome.steady.consistent⟩
  | error fault =>
    rw [result] at outcome
    exact .inr (congrArg Except.error outcome)

theorem exchangedTreeConsistent :
    (∃ s, run (fuseNew ⟨0,false,false⟩ fun _ => true) [.find 1 (some (ascii "d")),.find 2 (some (ascii "c")),
        .find 1 (some (ascii "e")),.exchange 2 (ascii "c") 1 (ascii "e"),.rename 1 (ascii "c") 2 (ascii "f") false,
        .remove 1 (ascii "e"),.forget 4 1,.forget 2 1] = .ok s ∧ Consistent s) ∨
    run (fuseNew ⟨0,false,false⟩ fun _ => true) [.find 1 (some (ascii "d")),.find 2 (some (ascii "c")),
      .find 1 (some (ascii "e")),.exchange 2 (ascii "c") 1 (ascii "e"),.rename 1 (ascii "c") 2 (ascii "f") false,
      .remove 1 (ascii "e"),.forget 4 1,.forget 2 1] = .error .idsExhausted :=
  storeStaysConsistent ⟨0,false,false⟩ (fun _ => true) _ rfl (by decide +kernel)

/- A directory d with a child c is forgotten, then forgotten once more with a count of
zero: the node of d is freed under its child. -/
def forgetTwice : List Op :=
  [.find 1 (some (ascii "d")),.find 2 (some (ascii "c")),.forget 2 1,.forget 2 0]

theorem forgetZeroFreesParent :
    ∃ s, legal (fun s op => op.allowed s) (fuseNew ⟨0,false,false⟩ fun _ => true) forgetTwice ∧
    run (fuseNew ⟨0,false,false⟩ fun _ => true) forgetTwice = .ok s ∧ ¬ Consistent s := by
  have ok : legal (fun s op => op.allowed s) (fuseNew ⟨0,false,false⟩ fun _ => true) forgetTwice = true := by
    decide +kernel
  have child : (match run (fuseNew ⟨0,false,false⟩ fun _ => true) forgetTwice with
      | .ok s => (s.heap 2).bind Node.parent
      | .error _ => none) = some 1 := by
    decide +kernel
  have freed : (match run (fuseNew ⟨0,false,false⟩ fun _ => true) forgetTwice with
      | .ok s => s.heap 1
      | .error _ => none) = none := by
    decide +kernel
  cases result : run (fuseNew ⟨0,false,false⟩ fun _ => true) forgetTwice with
  | error fault =>
    rw [result] at child
    cases child
  | ok s =>
    rw [result] at child freed
    refine ⟨s,ok,rfl,fun consistent => ?_⟩
    obtain ⟨n,live,parent⟩ := Option.bind_eq_some_iff.mp child
    obtain ⟨d,alive⟩ := consistent.parentLive 2 n 1 live parent
    exact absurd (freed.symm.trans alive) nofun

end FuseStudy.NodeStore
