import FuseStudy.StoreShape

/-! What each operation of the node table does to a table whose relation holds: the
cascade of deletions, taking a name out and putting one in, then the five entry points. -/
namespace FuseStudy.NodeStore
open CString LinearHash

structure Store (extra : Ptr → Nat) (hole : Option Ptr) (s : Fuse) : Prop where
  names : Valid minTable s.nameHash s.nameTable
  ids : Valid minTable s.idHash s.idTable
  shape : Shape s.heap (Has s.nameTable) (Has s.idTable) s.brk extra hole

variable {extra : Ptr → Nat} {hole : Option Ptr} {s : Fuse} {p q : Ptr} {n m : Node}

theorem derefOk (live : s.heap p = some n) : s.deref p = .ok n := by
  rw [Fuse.deref,live]

theorem idHashLive (live : s.heap p = some n) : s.idHash p = idKey n.nodeid := by
  rw [Fuse.idHash,live]

theorem Store.getNodeIff (store : Store extra hole s) (i : Ino) :
    s.getNodeNocheck i = some p ↔ Has s.idTable p ∧ ∃ n, s.heap p = some n ∧ n.nodeid = i := by
  unfold Fuse.getNodeNocheck
  have matched : ∀ a, decide ((s.heap a).map Node.nodeid = some i) = true ↔ ∃ n, s.heap a = some n ∧ n.nodeid = i := by
    intro a
    rw [decide_eq_true_iff,Option.map_eq_some_iff]
  rw [findIff store.ids ?_ ?_,matched]
  · intro a _ found
    obtain ⟨n,live,id⟩ := (matched a).mp found
    rw [idHashLive live,id]
  · intro a b hashedA hashedB foundA foundB
    obtain ⟨n,liveA,idA⟩ := (matched a).mp foundA
    obtain ⟨m,liveB,idB⟩ := (matched b).mp foundB
    exact store.shape.distinct a b n m hashedA hashedB liveA liveB (idA.trans idB.symm)

theorem Store.lookupIff (store : Store extra hole s) (i : Ino) (name : Name) :
    s.lookupNode i name = some p ↔ Has s.nameTable p ∧ s.entry p = some (i,name) := by
  unfold Fuse.lookupNode
  rw [findIff store.names ?_ ?_,decide_eq_true_iff]
  · intro a _ found
    rw [Fuse.nameHash,decide_eq_true_iff.mp found]
  · intro a b namedA namedB foundA foundB
    apply store.shape.apart a b namedA namedB
    exact (decide_eq_true_iff.mp foundA).trans (decide_eq_true_iff.mp foundB).symm

theorem getNodeOk {i : Ino} (found : s.getNodeNocheck i = some p) : s.getNode i = .ok p := by
  rw [Fuse.getNode,found]

theorem getNodeFound {i : Ino} (found : s.getNode i = .ok p) : s.getNodeNocheck i = some p := by
  unfold Fuse.getNode at found
  split at found
  · cases found
    assumption
  · cases found

theorem Store.touch (store : Store extra hole s) (live : s.heap p = some n) {extra' : Ptr → Nat}
    (same : n.SameEntry m) (count : m.refctr + n.held + extra p = n.refctr + m.held + extra' p)
    (others : ∀ q, q ≠ p → extra' q = extra q)
    (busy : m.refctr ≠ 0 → n.refctr ≠ 0 ∨ Has s.nameTable p) (root : p = 0 → 0 < m.nlookup) :
    Store extra' hole (s.put p m) := by
  have entries : (s.put p m).entry = s.entry := funext (entryUpdate live same)
  have nameHash : (s.put p m).nameHash = s.nameHash := by
    funext q
    simp only [Fuse.nameHash,entries]
  have idHash : (s.put p m).idHash = s.idHash := by
    funext q
    by_cases here : q = p
    · subst here
      rw [idHashLive live,idHashLive (n := m) (Function.update_self ..),same.1]
    · simp only [Fuse.idHash,Fuse.put,Function.update_of_ne here]
  exact ⟨nameHash ▸ store.names,idHash ▸ store.ids,store.shape.touch live same count others busy root⟩

theorem Store.reorganise (store : Store extra hole s) {names ids : Table Ptr} {memory : Nat → Bool}
    {lru : List Ptr} (keptNames : Keeps minTable s.nameHash s.nameTable names)
    (keptIds : Keeps minTable s.idHash s.idTable ids) :
    Store extra hole {s with nameTable := names, idTable := ids, lruTable := lru, memory := memory} := by
  refine ⟨keptNames.valid,keptIds.valid,?_⟩
  have sameNames : Has names = Has s.nameTable := funext (fun a => propext (keptNames.has a))
  have sameIds : Has ids = Has s.idTable := funext (fun a => propext (keptIds.has a))
  simp only [sameNames,sameIds]
  exact store.shape

/- What a cascade leaves: nodes keep everything but their reference count, and the nodes
that are gone had neither lookups nor locks. The cut node has lost its name as well. -/
structure Shrinks (cut : Option Ptr) (s s' : Fuse) : Prop where
  conf : s'.conf = s.conf
  brk : s'.brk = s.brk
  ctr : s'.ctr = s.ctr
  hidectr : s'.hidectr = s.hidectr
  kept : ∀ p n', s'.heap p = some n' → ∃ n, s.heap p = some n ∧ (cut ≠ some p → n' = {n with refctr := n'.refctr})
  gone : ∀ p n, s.heap p = some n → s'.heap p = none → n.nlookup = 0 ∧ n.treelock = 0
  names : ∀ p, Has s'.nameTable p ↔ Has s.nameTable p ∧ s'.heap p ≠ none ∧ cut ≠ some p
  ids : ∀ p, Has s'.idTable p ↔ Has s.idTable p ∧ s'.heap p ≠ none
  lru : s'.lruTable.Sublist s.lruTable
  lruKept : ∀ p ∈ s.lruTable, s'.heap p ≠ none → p ∈ s'.lruTable
  lruGone : s.lruEnabled → s.lruTable.Nodup → ∀ p ∈ s'.lruTable, s.heap p ≠ none → s'.heap p ≠ none

/- A node nobody looks up, with nothing but such nodes below it. -/
inductive Fading (s : Fuse) : Ptr → Prop
  | node {p : Ptr} {n : Node} (live : s.heap p = some n) (unused : n.nlookup = 0)
      (below : ∀ c, Has s.nameTable c → parentOf s.heap c = some p → Fading s c) : Fading s p

/- A cascade either ends in a table whose relation holds or stops at a locked node. A node
whose references were gone before is not freed by it, the one it starts from excepted. -/
inductive Cascade (extra : Ptr → Nat) (hole dying : Option Ptr) (s : Fuse) : Except Fault Fuse → Prop
  | done {s'} (store : Store extra hole s') (shrinks : Shrinks none s s')
      (spared : ∀ q m, s.heap q = some m → m.refctr = 0 ∨ hole = some q → dying ≠ some q → s'.heap q ≠ none)
      (idle : ∀ q m, s'.heap q = some m → m.refctr = 0 → ∃ m', s.heap q = some m' ∧ m'.refctr = 0) :
      Cascade extra hole dying s (.ok s')
  | locked {at_ : Ptr} {node : Node} (live : s.heap at_ = some node) (fading : Fading s at_)
      (locked : node.treelock ≠ 0) :
      Cascade extra hole dying s (.error .deleteLocked)

theorem Fading.unchained {table : Table Ptr} (first : Fading s p)
    (without : ∀ r, Has table r ↔ Has s.nameTable r ∧ r ≠ p) (fading : Fading {s with nameTable := table} q) :
    Fading s q := by
  induction fading with
  | node live unused _ ih =>
    refine .node live unused ?_
    intro c named child
    by_cases here : c = p
    · exact here ▸ first
    · exact ih c ((without c).mpr ⟨named,here⟩) child

theorem Fading.put (live : s.heap p = some n) (same : m.nlookup = n.nlookup) (parent : m.parent = n.parent)
    (fading : Fading (s.put p m) q) : Fading s q := by
  induction fading with
  | @node r k alive unused _ ih =>
    have below : ∀ c, Has s.nameTable c → parentOf s.heap c = some r → Fading s c := by
      intro c named child
      exact ih c named ((parentUpdate live parent c).trans child)
    rcases atUpdate alive with ⟨rfl,rfl⟩ | ⟨_,old⟩
    · exact .node live (same ▸ unused) below
    · exact .node old unused below

open Classical in
noncomputable def busy (s : Fuse) : Finset Ptr :=
  (Finset.range s.brk).filter (fun p => ∃ n, s.heap p = some n ∧ n.refctr ≠ 0)

theorem memBusy : p ∈ busy s ↔ p < s.brk ∧ ∃ n, s.heap p = some n ∧ n.refctr ≠ 0 := by
  classical
  simp only [busy,Finset.mem_filter,Finset.mem_range]

theorem unhashIdSpec (ids : Valid minTable s.idHash s.idTable) (p : Ptr) :
    ∃ table memory, s.unhashId p = {s with idTable := table, memory := memory} ∧
      Valid minTable s.idHash table ∧ ∀ q, Has table q ↔ Has s.idTable q ∧ q ≠ p := by
  by_cases present : Has s.idTable p
  · obtain ⟨out,chained,valid,has⟩ := unchainSpec ids present
    have kept := releaseKeeps valid (s.memory 0)
    refine ⟨_,_,by simp only [Fuse.unhashId,chained]; rfl,kept.valid,?_⟩
    intro q
    rw [kept.has,has]
  · have absent : unchain s.idHash s.idTable p = none := by
      have unchained := mt (hasIff ids p).mpr present
      simp only [unchain,if_neg unchained]
    refine ⟨s.idTable,s.memory,by simp only [Fuse.unhashId,absent],ids,?_⟩
    intro q
    constructor
    · exact fun has => ⟨has,fun same => present (same ▸ has)⟩
    · exact fun has => has.1

/- The name of a node is unchained: the parent is owed a reference. -/
theorem Store.unchained (store : Store extra hole s) (hole' : Option Ptr) (named : Has s.nameTable p)
    (live : s.heap p = some n) (parent : n.parent = some q)
    (opened : (hole = none ∧ hole' = some p) ∨ (n.refctr = 0 ∧ hole' = hole)) :
    ∃ table, unchain s.nameHash s.nameTable p = some table ∧
      Store (bump extra q) hole' {s with nameTable := table} ∧
      ∀ r, Has table r ↔ Has s.nameTable r ∧ r ≠ p := by
  obtain ⟨out,chained,valid,has⟩ := unchainSpec store.names named
  refine ⟨out,chained,⟨valid,store.ids,?_⟩,has⟩
  have same : Has out = fun r => Has s.nameTable r ∧ r ≠ p := funext (fun r => propext (has r))
  simp only [same]
  exact store.shape.unname named live parent opened

theorem Store.cleared (store : Store extra hole s) (live : s.heap p = some n)
    (unnamed : ¬ Has s.nameTable p) (plain : p ≠ 0) (hole' : Option Ptr)
    (closed : hole = hole' ∨ hole = some p) :
    ∃ table, release minTable (s.memory 0) s.nameTable = table ∧
      (∀ r, Has table r ↔ Has s.nameTable r) ∧
      Store extra hole' {s.put p {n with name := none, parent := none} with
        nameTable := table, memory := fun i => s.memory (i+1)} := by
  have entries : ∀ r, Has s.nameTable r →
      (s.put p {n with name := none, parent := none}).entry r = s.entry r :=
    fun r named => entryOther live rfl (fun same => unnamed (same ▸ named))
  have valid : Valid minTable (s.put p {n with name := none, parent := none}).nameHash s.nameTable := by
    apply store.names.congr
    intro r named
    simp only [Fuse.nameHash,entries r named]
  have idHash : (s.put p {n with name := none, parent := none}).idHash = s.idHash := by
    funext r
    by_cases here : r = p
    · subst here
      simp only [Fuse.idHash,Fuse.put,Function.update_self,live]
    · simp only [Fuse.idHash,Fuse.put,Function.update_of_ne here]
  have kept := releaseKeeps valid (s.memory 0)
  have base : Store extra hole' (s.put p {n with name := none, parent := none}) :=
    ⟨valid,idHash ▸ store.ids,store.shape.clear live unnamed plain closed⟩
  exact ⟨_,rfl,kept.has,base.reorganise kept (.refl base.ids)⟩

theorem Store.freed (store : Store extra hole s) (live : s.heap p = some n) (zero : n.refctr = 0)
    (unnamed : ¬ Has s.nameTable p) (plain : p ≠ 0) (lru : List Ptr) :
    ∃ ids memory, {s with lruTable := lru}.unhashId p =
        {s with lruTable := lru, idTable := ids, memory := memory} ∧
      (∀ r, Has ids r ↔ Has s.idTable r ∧ r ≠ p) ∧
      Store extra hole {s with
        lruTable := lru, idTable := ids, memory := memory, heap := Function.update s.heap p none} := by
  obtain ⟨ids,memory,unhashed,valid,has⟩ := unhashIdSpec (s := {s with lruTable := lru}) store.ids p
  obtain ⟨_,childless,_⟩ := store.shape.childless live zero
  have shape := store.shape.free live childless unnamed plain
  have same : Has ids = fun r => Has s.idTable r ∧ r ≠ p := funext (fun r => propext (has r))
  have entries : ∀ r, Has s.nameTable r → entryOf (Function.update s.heap p none) r = entryOf s.heap r := by
    intro r named
    obtain ⟨⟨i,name⟩,now⟩ := shape.named r named
    obtain ⟨k,c,d,liveR,hasName,parent,alive,id⟩ := entryIff.mp now
    have other : ∀ {c d}, Function.update s.heap p none c = some d → s.heap c = some d := by
      intro c d found
      by_cases here : c = p
      · rw [here,Function.update_self] at found
        cases found
      · rwa [Function.update_of_ne here] at found
    rw [now]
    exact (entryIff.mpr ⟨k,c,d,other liveR,hasName,parent,other alive,id⟩).symm
  refine ⟨ids,memory,unhashed,has,?_,?_,?_⟩
  · apply store.names.congr
    intro r named
    simp only [Fuse.nameHash,Fuse.entry,entries r named]
  · apply valid.congr
    intro r hashed
    simp only [Fuse.idHash,Function.update_of_ne ((has r).mp hashed).2]
  · simp only [same]
    exact shape

theorem Store.namedLive (store : Store extra hole s) (named : Has s.nameTable p) : s.heap p ≠ none := by
  obtain ⟨n,_,_,_,live,_⟩ := store.shape.namedParent named
  rw [live]
  nofun

theorem Store.hashedLive (store : Store extra hole s) (hashed : Has s.idTable p) : s.heap p ≠ none := by
  obtain ⟨n,live⟩ := store.shape.hashed p hashed
  rw [live]
  nofun

theorem Shrinks.refl (cut : Option Ptr) (store : Store extra hole s)
    (unnamed : ∀ r, cut = some r → ¬ Has s.nameTable r) : Shrinks cut s s := by
  refine ⟨rfl,rfl,rfl,rfl,fun r n live => ⟨n,live,fun _ => rfl⟩,?_,?_,?_,List.Sublist.refl _,
    fun r mem _ => mem,fun _ _ r _ live => live⟩
  · intro r n live none
    rw [live] at none
    cases none
  · intro r
    exact ⟨fun named => ⟨named,store.namedLive named,fun cut => unnamed r cut named⟩,fun named => named.1⟩
  · exact fun r => ⟨fun hashed => ⟨hashed,store.hashedLive hashed⟩,fun hashed => hashed.1⟩

/- The cascade ran on a table without the name of p; now the fields of p go as well. -/
theorem Shrinks.cleared {s' : Fuse} {table after : Table Ptr} (memory : Nat → Bool)
    (shrinks : Shrinks none {s with nameTable := table} s') (live : s'.heap p = some n)
    (without : ∀ r, Has table r ↔ Has s.nameTable r ∧ r ≠ p)
    (same : ∀ r, Has after r ↔ Has s'.nameTable r) :
    Shrinks (some p) s {s'.put p {n with name := none, parent := none} with
      nameTable := after, memory := memory} := by
  have alive : ∀ r, (s'.put p {n with name := none, parent := none}).heap r ≠ none ↔ s'.heap r ≠ none := by
    intro r
    by_cases here : r = p
    · subst here
      simp [Fuse.put,live]
    · simp only [Fuse.put,Function.update_of_ne here]
  refine ⟨shrinks.conf,shrinks.brk,shrinks.ctr,shrinks.hidectr,?_,?_,?_,?_,shrinks.lru,?_,?_⟩
  · intro r k found
    rcases atUpdate found with ⟨rfl,rfl⟩ | ⟨_,old⟩
    · obtain ⟨m,was,_⟩ := shrinks.kept r n live
      exact ⟨m,was,fun other => absurd rfl other⟩
    · obtain ⟨m,was,eq⟩ := shrinks.kept r k old
      exact ⟨m,was,fun _ => eq nofun⟩
  · intro r k was none
    apply shrinks.gone r k was
    by_contra some
    exact (alive r).mpr some none
  · intro r
    simp only
    rw [same,shrinks.names,without,alive,ne_eq (some p),Option.some.injEq]
    tauto
  · intro r
    rw [alive]
    exact shrinks.ids r
  · exact fun r mem live => shrinks.lruKept r mem ((alive r).mp live)
  · exact fun enabled nodup r mem was => (alive r).mpr (shrinks.lruGone enabled nodup r mem was)

theorem Shrinks.freed {s' : Fuse} {k : Node} {ids : Table Ptr} {memory : Nat → Bool}
    (shrinks : Shrinks (some p) s s') (was : s.heap p = some n) (unused : n.nlookup = 0)
    (unlocked : n.treelock = 0) (live : s'.heap p = some k)
    (without : ∀ r, Has ids r ↔ Has s'.idTable r ∧ r ≠ p) :
    Shrinks none s {s' with
      lruTable := if s'.lruEnabled then s'.lruTable.erase p else s'.lruTable
      idTable := ids, memory := memory, heap := Function.update s'.heap p none} := by
  have at_ : ∀ r, Function.update s'.heap p none r ≠ none ↔ s'.heap r ≠ none ∧ r ≠ p := by
    intro r
    by_cases here : r = p
    · subst here
      simp
    · simp [here]
  have enabled : s'.lruEnabled = s.lruEnabled := by rw [Fuse.lruEnabled,shrinks.conf]; rfl
  refine ⟨shrinks.conf,shrinks.brk,shrinks.ctr,shrinks.hidectr,?_,?_,?_,?_,?_,?_,?_⟩
  · intro r m found
    simp only at found
    have here := ((at_ r).mp (by rw [found]; nofun)).2
    rw [Function.update_of_ne here] at found
    obtain ⟨m',old,same⟩ := shrinks.kept r m found
    exact ⟨m',old,fun _ => same (fun eq => here (Option.some.inj eq).symm)⟩
  · intro r m old gone
    by_cases here : r = p
    · subst here
      rw [was] at old
      cases old
      exact ⟨unused,unlocked⟩
    · simp only [Function.update_of_ne here] at gone
      exact shrinks.gone r m old gone
  · intro r
    simp only
    rw [shrinks.names,at_,ne_eq (some p),Option.some.injEq]
    constructor
    · exact fun ⟨named,live,other⟩ => ⟨named,⟨live,fun same => other same.symm⟩,nofun⟩
    · exact fun ⟨named,⟨live,other⟩,_⟩ => ⟨named,live,fun same => other same.symm⟩
  · intro r
    simp only
    rw [without,shrinks.ids,at_,and_assoc]
  · simp only
    split
    · exact List.erase_sublist.trans shrinks.lru
    · exact shrinks.lru
  · intro r mem live
    obtain ⟨alive,other⟩ := (at_ r).mp live
    have inside := shrinks.lruKept r mem alive
    simp only
    split
    · exact (List.mem_erase_of_ne other).mpr inside
    · exact inside
  · intro on nodup r mem before
    simp only [enabled,on,if_true] at mem
    have distinct := nodup.sublist shrinks.lru
    obtain ⟨other,inside⟩ := distinct.mem_erase_iff.mp mem
    exact (at_ r).mpr ⟨shrinks.lruGone on nodup r inside before,other⟩

theorem unhashUnnamed {unref : Fuse → Ptr → Except Fault Fuse} (live : s.heap p = some n)
    (unnamed : n.name = none) : unhashNameWith unref s p = .ok s := by
  unfold unhashNameWith
  rw [derefOk live]
  simp only [bind,Except.bind,unnamed]

theorem unhashNamed {unref : Fuse → Ptr → Except Fault Fuse} {name : Name} {table : Table Ptr}
    (live : s.heap p = some n) (named : n.name = some name) (parent : n.parent = some q)
    (chained : unchain s.nameHash s.nameTable p = some table) :
    unhashNameWith unref s p = (unref {s with nameTable := table} q).bind fun s' =>
      (s'.deref p).bind fun k => .ok {s'.put p {k with name := none, parent := none} with
        nameTable := release minTable (s'.memory 0) s'.nameTable, memory := fun i => s'.memory (i+1)} := by
  unfold unhashNameWith
  rw [derefOk live]
  simp only [bind,Except.bind,named,parent,chained]
  rfl

theorem deleteUnlocked {unref : Fuse → Ptr → Except Fault Fuse} (live : s.heap p = some n)
    (unlocked : n.treelock = 0) : deleteNodeWith unref s p = (unhashNameWith unref s p).bind fun s' =>
      .ok (((if s'.lruEnabled then s'.removeNodeLru p else s').unhashId p).freeNode p) := by
  unfold deleteNodeWith
  rw [derefOk live]
  simp only [bind,Except.bind,unlocked,ne_eq,not_true_eq_false,if_false]

theorem deleteLocked {unref : Fuse → Ptr → Except Fault Fuse} (live : s.heap p = some n)
    (locked : n.treelock ≠ 0) : deleteNodeWith unref s p = .error .deleteLocked := by
  unfold deleteNodeWith
  rw [derefOk live]
  simp only [bind,Except.bind,if_pos locked]

theorem Store.rootHeld (store : Store extra hole s) (live : s.heap p = some n) (unused : n.nlookup = 0) :
    p ≠ 0 := by
  rintro rfl
  obtain ⟨r,atRoot,_,positive,_⟩ := store.shape.root
  rw [live] at atRoot
  cases atRoot
  omega

theorem finishDelete {mid : Fuse} {k : Node} (was : s.heap p = some n) (unused : n.nlookup = 0)
    (unlocked : n.treelock = 0) (plain : p ≠ 0) (store : Store extra hole mid)
    (shrinks : Shrinks (some p) s mid) (live : mid.heap p = some k) (zero : k.refctr = 0)
    (spared : ∀ q m, s.heap q = some m → m.refctr = 0 ∨ hole = some q → mid.heap q ≠ none)
    (idle : ∀ q m, mid.heap q = some m → m.refctr = 0 → ∃ m', s.heap q = some m' ∧ m'.refctr = 0) :
    (∀ s', Except.ok (((if mid.lruEnabled then mid.removeNodeLru p else mid).unhashId p).freeNode p) =
      (.ok s' : Except Fault Fuse) → s'.heap p = none) ∧
    Cascade extra hole (some p) s
      (.ok (((if mid.lruEnabled then mid.removeNodeLru p else mid).unhashId p).freeNode p)) := by
  have unnamed : ¬ Has mid.nameTable p := fun named => ((shrinks.names p).mp named).2.2 rfl
  have lru : (if mid.lruEnabled then mid.removeNodeLru p else mid) =
      {mid with lruTable := if mid.lruEnabled then mid.lruTable.erase p else mid.lruTable} := by
    split <;> rfl
  obtain ⟨ids,memory,unhashed,without,final⟩ := store.freed live zero unnamed plain
    (if mid.lruEnabled then mid.lruTable.erase p else mid.lruTable)
  rw [lru,unhashed]
  refine ⟨?_,.done final (shrinks.freed was unused unlocked live without) ?_ ?_⟩
  · rintro _ ⟨⟩
    exact Function.update_self ..
  · intro r m before done other
    have differs : r ≠ p := fun same => other (same ▸ rfl)
    simp only [Fuse.freeNode,Function.update_of_ne differs]
    exact spared r m before done
  · intro r m now done
    by_cases here : r = p
    · simp only [here,Fuse.freeNode,Function.update_self] at now
      cases now
    · simp only [Fuse.freeNode,Function.update_of_ne here] at now
      exact idle r m now done

theorem Shrinks.childless {s' : Fuse} (shrinks : Shrinks none s s')
    (childless : children s.heap (Has s.nameTable) s.brk p = ∅) :
    children s'.heap (Has s'.nameTable) s'.brk p = ∅ := by
  apply Finset.eq_empty_of_forall_notMem
  intro c mem
  obtain ⟨low,named,child⟩ := memChildren.mp mem
  obtain ⟨wasNamed,alive,_⟩ := (shrinks.names c).mp named
  obtain ⟨k,live⟩ := Option.ne_none_iff_exists'.mp alive
  obtain ⟨m,was,same⟩ := shrinks.kept c k live
  have parent : k.parent = m.parent := by rw [same nofun]
  have before : c ∈ children s.heap (Has s.nameTable) s.brk p := by
    refine memChildren.mpr ⟨shrinks.brk ▸ low,wasNamed,?_⟩
    rw [parentOf,was,Option.bind_some,← parent]
    rwa [parentOf,live,Option.bind_some] at child
  rw [childless] at before
  simp at before

theorem childrenFewer {heap : Ptr → Option Node} {Named Named' : Ptr → Prop} {brk : Nat}
    (childless : children heap Named brk p = ∅) (fewer : ∀ q, Named' q → Named q) :
    children heap Named' brk p = ∅ := by
  apply Finset.eq_empty_of_forall_notMem
  intro c mem
  obtain ⟨low,inside,child⟩ := memChildren.mp mem
  have before : c ∈ children heap Named brk p := memChildren.mpr ⟨low,fewer c inside,child⟩
  rw [childless] at before
  simp at before

/- The hole has no children, so no cascade from another node comes to it. -/
def Apart (hole : Option Ptr) (p : Ptr) (s : Fuse) : Prop :=
  ∀ h, hole = some h → h ≠ p ∧ children s.heap (Has s.nameTable) s.brk h = ∅

theorem Apart.put {r : Ptr} (apart : Apart hole r s) (live : s.heap p = some n) (same : m.parent = n.parent) :
    Apart hole r (s.put p m) := by
  intro h is
  obtain ⟨other,childless⟩ := apart h is
  refine ⟨other,Eq.trans ?_ childless⟩
  apply childrenCongr
  intro c
  rw [show parentOf (s.put p m).heap c = parentOf s.heap c from parentUpdate live same c]
  rfl

theorem Apart.parent {table : Table Ptr} (apart : Apart hole p s) (named : Has s.nameTable p)
    (live : s.heap p = some n) (parent : n.parent = some q) (low : p < s.brk)
    (without : ∀ r, Has table r ↔ Has s.nameTable r ∧ r ≠ p) : Apart hole q {s with nameTable := table} := by
  intro h is
  obtain ⟨_,childless⟩ := apart h is
  refine ⟨?_,childrenFewer childless (fun c inside => ((without c).mp inside).1)⟩
  rintro rfl
  have child : p ∈ children s.heap (Has s.nameTable) s.brk h :=
    memChildren.mpr ⟨low,named,by simp [parentOf,live,parent]⟩
  rw [childless] at child
  simp at child

/- delete_node of a node whose last reference was just dropped, over any unref_node that
cascades on the parent. -/
theorem deleteCascade {unref : Fuse → Ptr → Except Fault Fuse} {bound : Nat}
    (cascade : ∀ (extra : Ptr → Nat) (s : Fuse) (q : Ptr) (m : Node), Store (bump extra q) hole s →
      s.heap q = some m → Apart hole q s → (busy s).card < bound → Cascade extra hole none s (unref s q))
    (store : Store extra hole s) (live : s.heap p = some n) (zero : n.refctr = 0)
    (inTable : n.name ≠ none ↔ Has s.nameTable p) (apart : Apart hole p s)
    (bounded : (busy s).card < bound) :
    (∀ s', deleteNodeWith unref s p = .ok s' → s'.heap p = none) ∧
    Cascade extra hole (some p) s (deleteNodeWith unref s p) := by
  obtain ⟨unused,childless,owed⟩ := store.shape.childless live zero
  have plain := store.rootHeld live unused
  have fading : Fading s p := by
    refine .node live unused ?_
    intro c named child
    obtain ⟨k,_,_,_,alive,_⟩ := store.shape.namedParent named
    have inside : c ∈ children s.heap (Has s.nameTable) s.brk p :=
      memChildren.mpr ⟨store.shape.lt alive,named,child⟩
    rw [childless] at inside
    simp at inside
  by_cases locked : n.treelock ≠ 0
  · rw [deleteLocked live locked]
    exact ⟨nofun,.locked live fading locked⟩
  rw [not_not] at locked
  rw [deleteUnlocked live locked]
  cases named : n.name with
  | none =>
    have unnamed : ∀ r, some p = some r → ¬ Has s.nameTable r := by
      rintro _ ⟨⟩ has
      exact inTable.mpr has named
    rw [unhashUnnamed live named]
    refine finishDelete live unused locked plain store (Shrinks.refl _ store unnamed) live zero ?_
      (fun q m alive done => ⟨m,alive,done⟩)
    intro q m alive _
    rw [alive]
    nofun
  | some name =>
    have has := inTable.mp (by rw [named]; nofun)
    obtain ⟨_,q,d,_,live',_,parent,alive⟩ := store.shape.namedParent has
    rw [live] at live'
    cases live'
    obtain ⟨table,chained,closed,without⟩ := store.unchained hole has live parent (.inr ⟨zero,rfl⟩)
    have above : Apart hole q {s with nameTable := table} := apart.parent has live parent (store.shape.lt live) without
    rw [unhashNamed live named parent chained]
    cases outcome : unref {s with nameTable := table} q with
    | error fault =>
      have stopped := cascade extra _ q d closed alive above bounded
      rw [outcome] at stopped
      cases stopped with
      | locked liveL fadingL lockedL => exact ⟨nofun,.locked (s := s) liveL (fading.unchained without fadingL) lockedL⟩
    | ok s' =>
      have finished := cascade extra _ q d closed alive above bounded
      rw [outcome] at finished
      cases finished with
      | done store' shrinks spared idle =>
        obtain ⟨k,liveK⟩ := Option.ne_none_iff_exists'.mp (spared p n live (.inl zero) nofun)
        have unnamed : ¬ Has s'.nameTable p :=
          fun named => ((without p).mp ((shrinks.names p).mp named).1).2 rfl
        obtain ⟨after,released,same,store''⟩ := store'.cleared liveK unnamed plain hole (.inl rfl)
        have shrunk := shrinks.cleared (fun i => s'.memory (i+1)) liveK without same
        -- the node had no children and its table entries only went away
        have still : k.refctr = 0 := by
          have alone : children s.heap (Has table) s.brk p = ∅ :=
            childrenFewer childless (fun c inside => ((without c).mp inside).1)
          have count := store'.shape.counted p k liveK
          obtain ⟨m,was,same⟩ := shrinks.kept p k liveK
          rw [live] at was
          cases was
          have lookups : k.nlookup = 0 := by rw [same nofun]; exact unused
          rw [shrinks.childless alone,Finset.card_empty,owed,Node.held,if_neg (by omega)] at count
          exact count
        simp only [Except.bind,derefOk liveK,released]
        refine finishDelete live unused locked plain store'' shrunk (Function.update_self ..) still ?_ ?_
        · intro r m before done
          by_cases here : r = p
          · rw [here]
            simp [Fuse.put]
          · simp only [Fuse.put,Function.update_of_ne here]
            exact spared r m before done nofun
        · intro r m now done
          rcases atUpdate now with ⟨rfl,_⟩ | ⟨_,old⟩
          · exact ⟨n,live,zero⟩
          · exact idle r m old done

theorem busyPut (store : Store extra hole s) (live : s.heap p = some n) (used : n.refctr ≠ 0)
    (zero : m.refctr = 0) : (busy (s.put p m)).card < (busy s).card := by
  apply Finset.card_lt_card
  apply Finset.ssubset_iff_subset_ne.mpr
  constructor
  · intro q mem
    obtain ⟨low,k,alive,busy⟩ := memBusy.mp mem
    rcases atUpdate alive with ⟨rfl,rfl⟩ | ⟨_,old⟩
    · exact absurd zero busy
    · exact memBusy.mpr ⟨low,k,old,busy⟩
  · intro same
    have before : p ∈ busy s := memBusy.mpr ⟨store.shape.lt live,n,live,used⟩
    rw [← same] at before
    obtain ⟨_,k,alive,busy⟩ := memBusy.mp before
    rcases atUpdate alive with ⟨_,rfl⟩ | ⟨other,_⟩
    · exact busy zero
    · exact other rfl

theorem Shrinks.refctr {s' : Fuse} (live : s.heap p = some n)
    (same : m = {n with refctr := m.refctr}) (shrinks : Shrinks none (s.put p m) s') : Shrinks none s s' := by
  have at_ : ∀ r, (s.put p m).heap r ≠ none ↔ s.heap r ≠ none := by
    intro r
    by_cases here : r = p
    · subst here
      simp [Fuse.put,live]
    · simp only [Fuse.put,Function.update_of_ne here]
  refine ⟨shrinks.conf,shrinks.brk,shrinks.ctr,shrinks.hidectr,?_,?_,shrinks.names,shrinks.ids,shrinks.lru,
    shrinks.lruKept,fun on nodup r mem was => shrinks.lruGone on nodup r mem ((at_ r).mpr was)⟩
  · intro r k found
    obtain ⟨k',mid,equal⟩ := shrinks.kept r k found
    rcases atUpdate mid with ⟨rfl,rfl⟩ | ⟨_,old⟩
    · refine ⟨n,live,fun _ => ?_⟩
      rw [equal nofun,same]
    · exact ⟨k',old,equal⟩
  · intro r k was none
    by_cases here : r = p
    · subst here
      rw [live] at was
      cases was
      have gone := shrinks.gone r m (Function.update_self ..) none
      rw [same] at gone
      exact gone
    · exact shrinks.gone r k (by rw [putOther here]; exact was) none

/- Induction on the fuel: each level of the cascade leaves one node less with references. -/
theorem unrefLoopCascade (fuel : Nat) (extra : Ptr → Nat) (s : Fuse) (p : Ptr) (n : Node)
    (store : Store (bump extra p) hole s) (live : s.heap p = some n) (apart : Apart hole p s)
    (bounded : (busy s).card < fuel) : Cascade extra hole none s (unrefLoop fuel s p) := by
  induction fuel generalizing extra s p n with
  | zero => omega
  | succ fuel ih =>
    have count := store.shape.counted p n live
    have owed : bump extra p p = extra p + 1 := if_pos rfl
    have used : n.refctr ≠ 0 := by omega
    unfold unrefLoop
    rw [derefOk live]
    simp only [bind,Except.bind,if_neg used]
    have lower : Store extra hole (s.put p {n with refctr := n.refctr - 1}) := by
      refine store.touch live ⟨rfl,rfl,rfl⟩ ?_ (fun q other => (if_neg other).symm) (fun _ => .inl used) ?_
      · simp only [Node.held]
        omega
      · rintro rfl
        obtain ⟨r,atRoot,_,positive,_⟩ := store.shape.root
        rw [live] at atRoot
        cases atRoot
        exact positive
    split
    · rename_i last
      have now : (s.put p {n with refctr := n.refctr - 1}).heap p = some {n with refctr := n.refctr - 1} :=
        Function.update_self ..
      have zero : n.refctr - 1 = 0 := by omega
      have inTable : n.name ≠ none ↔ Has s.nameTable p := by
        constructor
        · obtain ⟨unused,_,_⟩ := lower.shape.childless now zero
          have closed : hole ≠ some p := fun same => (apart p same).1 rfl
          exact (store.shape.settled p n live used closed).2 (lower.rootHeld now unused)
        · intro named
          obtain ⟨_,_,_,_,live',name,_⟩ := store.shape.namedParent named
          rw [live] at live'
          cases live'
          rw [name]
          nofun
      have smaller := busyPut (m := {n with refctr := n.refctr - 1}) store live used zero
      obtain ⟨freed,outcome⟩ := deleteCascade ih lower now zero inTable (apart.put live rfl) (by omega)
      cases result : deleteNodeWith (unrefLoop fuel) (s.put p {n with refctr := n.refctr - 1}) p with
      | error fault =>
        rw [result] at outcome
        cases outcome with
        | locked liveL fadingL lockedL =>
          have fading := fadingL.put (m := {n with refctr := n.refctr - 1}) live rfl rfl
          rcases atUpdate liveL with ⟨rfl,rfl⟩ | ⟨_,old⟩
          · exact .locked live fading lockedL
          · exact .locked old fading lockedL
      | ok s' =>
        rw [result] at outcome
        cases outcome with
        | done store' shrinks spared idle =>
          refine .done store' (shrinks.refctr live rfl) ?_ ?_
          · intro q m alive done _
            by_cases here : q = p
            · subst here
              rw [live] at alive
              cases alive
              rcases done with none | same
              · exact absurd none used
              · exact absurd rfl (apart q same).1
            · refine spared q m ?_ done (fun same => here (Option.some.inj same).symm)
              rw [putOther here]
              exact alive
          · intro q m after done
            obtain ⟨m',mid,zero⟩ := idle q m after done
            rcases atUpdate mid with ⟨rfl,_⟩ | ⟨_,old⟩
            · rw [freed s' result] at after
              cases after
            · exact ⟨m',old,zero⟩
    · rename_i more
      refine .done lower ((Shrinks.refl none lower nofun).refctr live rfl) ?_ ?_
      · intro q m alive _ _
        by_cases here : q = p
        · rw [here,putSelf]
          nofun
        · rw [putOther here,alive]
          nofun
      · intro q m now done
        rcases atUpdate now with ⟨rfl,rfl⟩ | ⟨_,old⟩
        · simp only at done
          omega
        · exact ⟨m,old,done⟩

theorem busyBounded (s : Fuse) : (busy s).card < s.brk + 1 := by
  classical
  have most := Finset.card_filter_le (Finset.range s.brk) (fun p => ∃ n, s.heap p = some n ∧ n.refctr ≠ 0)
  rw [Finset.card_range] at most
  unfold busy
  convert Nat.lt_succ_of_le most

theorem unrefCascade (store : Store (bump extra p) hole s) (live : s.heap p = some n)
    (apart : Apart hole p s) : Cascade extra hole none s (s.unrefNode p) :=
  unrefLoopCascade _ extra s p n store live apart (busyBounded s)

/- A table between two operations: every node in memory is hashed and referenced. -/
structure Steady (extra : Ptr → Nat) (s : Fuse) : Prop extends Store extra none s where
  alive : ∀ p n, s.heap p = some n → Has s.idTable p ∧ n.refctr ≠ 0

theorem Steady.named (steady : Steady extra s) (live : s.heap p = some n) (plain : p ≠ 0) :
    Has s.nameTable p ↔ n.name ≠ none := by
  constructor
  · intro named
    obtain ⟨_,_,_,_,live',name,_⟩ := steady.shape.namedParent named
    rw [live] at live'
    cases live'
    rw [name]
    nofun
  · exact (steady.shape.settled p n live (steady.alive p n live).2 nofun).2 plain

end FuseStudy.NodeStore
