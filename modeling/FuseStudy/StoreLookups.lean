import FuseStudy.StoreOperations

/-! find_node and forget_node: the operations that count the kernel's lookups, create
nodes and start the cascades. -/
namespace FuseStudy.NodeStore
open CString LinearHash

variable {extra : Ptr → Nat} {s s' : Fuse} {p q : Ptr} {n m d : Node}

theorem Shrinks.effect {k : Nat} (live : s.heap p = some n)
    (shrinks : Shrinks none (s.put p {n with nlookup := k}) s') (store : Store extra none s) :
    Effect Never Never Never (fun r j => if r = p then k else j) s s' := by
  have at_ : ∀ r, (s.put p {n with nlookup := k}).heap r ≠ none ↔ s.heap r ≠ none := by
    intro r
    by_cases here : r = p
    · subst here
      simp [Fuse.put,live]
    · simp only [Fuse.put,Function.update_of_ne here]
  refine ⟨shrinks.conf,Nat.le_of_eq shrinks.brk.symm,shrinks.hidectr,?_,?_,?_,?_,?_⟩
  · intro r j j' was now
    obtain ⟨mid,between,same⟩ := shrinks.kept r j' now
    rw [same (fun no => by cases no)]
    rcases atUpdate between with ⟨rfl,rfl⟩ | ⟨other,old⟩
    · rw [live] at was
      cases was
      exact ⟨rfl,rfl,rfl,(if_pos rfl).symm,(or_iff_left (fun h => h)).symm,fun _ => rfl,fun _ => rfl⟩
    · rw [was] at old
      cases old
      exact ⟨rfl,rfl,rfl,(if_neg other).symm,(or_iff_left (fun h => h)).symm,fun _ => rfl,fun _ => rfl⟩
  · intro r j was gone
    by_cases here : r = p
    · subst here
      rw [live] at was
      cases was
      obtain ⟨unused,unlocked⟩ := shrinks.gone r _ (putSelf ..) gone
      exact ⟨unlocked,by rw [if_pos rfl]; exact unused⟩
    · obtain ⟨unused,unlocked⟩ := shrinks.gone r j ((putOther here ..).trans was) gone
      exact ⟨unlocked,by rw [if_neg here]; exact unused⟩
  · intro r j none now
    obtain ⟨mid,between,_⟩ := shrinks.kept r j now
    exact absurd none ((at_ r).mp (by rw [between]; exact Option.some_ne_none _))
  · intro r was _
    rw [shrinks.names]
    exact ⟨fun h => ⟨h.1,h.2.1⟩,fun h => ⟨h.1,h.2,(fun no => by cases no)⟩⟩
  · rintro r (no | none) named
    · exact no.elim
    · obtain ⟨before,_,_⟩ := (shrinks.names r).mp named
      exact absurd none (store.namedLive before)

theorem Shrinks.steady (shrinks : Shrinks none s s') (store' : Store extra none s')
    (hashed : ∀ r j, s.heap r = some j → Has s.idTable r)
    (busy : ∀ r j, s'.heap r = some j → j.refctr ≠ 0) : Steady extra s' := by
  refine ⟨store',?_⟩
  intro r j now
  obtain ⟨mid,was,_⟩ := shrinks.kept r j now
  exact ⟨(shrinks.ids r).mpr ⟨hashed r mid was,by rw [now]; nofun⟩,busy r j now⟩

theorem apartNone (p : Ptr) (s : Fuse) : Apart none p s := nofun

/- What forget_node does to lru_table: nodes that are freed leave it, the forgotten node
comes to its end when one lookup is left. -/
structure Relisted (p : Ptr) (left : Nat) (s s' : Fuse) : Prop where
  brk : s'.brk = s.brk
  nodup : s.lruTable.Nodup → s'.lruTable.Nodup
  mem : ∀ r ∈ s'.lruTable, r ∈ s.lruTable ∨ (r = p ∧ left = 1)
  live : s.lruEnabled → s.lruTable.Nodup → ∀ r ∈ s'.lruTable, s.heap r ≠ none → s'.heap r ≠ none

theorem forgetNodeSpec {nodeid : Ino} {nlookup : Nat} (steady : Steady extra s) (plain : nodeid ≠ rootId)
    (found : s.getNodeNocheck nodeid = some p) (live : s.heap p = some n) (positive : 0 < n.nlookup)
    (enough : nlookup ≤ n.nlookup) :
    Outcome (Bad s []) (fun s' => Steady extra s' ∧
      Effect Never Never Never (fun r k => if r = p then n.nlookup - nlookup else k) s s' ∧
      Relisted p (n.nlookup - nlookup) s s') (s.forgetNode nodeid nlookup) := by
  have notRoot : p ≠ 0 := by
    rintro rfl
    obtain ⟨_,k,alive,id⟩ := (steady.toStore.getNodeIff nodeid).mp found
    obtain ⟨r,atRoot,rootIs,_⟩ := steady.shape.root
    rw [alive] at atRoot
    cases atRoot
    exact plain (id.symm.trans rootIs)
  unfold Fuse.forgetNode
  rw [if_neg plain,getNodeOk found]
  simp only [bind,Except.bind,derefOk live]
  rw [if_neg (Nat.not_lt.mpr enough)]
  split
  · rename_i last
    have owed : Store (bump extra p) none (s.put p {n with nlookup := n.nlookup - nlookup}) := by
      refine steady.toStore.touch live ⟨rfl,rfl,rfl⟩ ?_ (fun r other => if_neg other) (fun h => .inl h)
        (fun same => absurd same notRoot)
      simp only [bump,if_pos,Node.held]
      rw [if_pos positive,if_neg (by omega)]
      omega
    have outcome := unrefCascade owed (putSelf ..) (apartNone _ _)
    cases result : (s.put p {n with nlookup := n.nlookup - nlookup}).unrefNode p with
    | error fault =>
      rw [result] at outcome
      cases outcome with
      | locked liveL _ locked =>
        rcases atUpdate liveL with ⟨rfl,rfl⟩ | ⟨_,old⟩
        · exact .deleteLocked live locked
        · exact .deleteLocked old locked
    | ok s' =>
      rw [result] at outcome
      cases outcome with
      | done store' shrinks _ idle =>
        refine ⟨shrinks.steady store' ?_ ?_,shrinks.effect live steady.toStore,shrinks.brk,fun nodup =>
          nodup.sublist shrinks.lru,
          fun r mem => .inl (shrinks.lru.subset mem),?_⟩
        · intro r j was
          rcases atUpdate was with ⟨rfl,rfl⟩ | ⟨_,old⟩
          · exact (steady.alive r n live).1
          · exact (steady.alive r j old).1
        · intro r j now zero
          obtain ⟨mid,was,none⟩ := idle r j now zero
          rcases atUpdate was with ⟨rfl,rfl⟩ | ⟨_,old⟩
          · exact (steady.alive r n live).2 none
          · exact (steady.alive r mid old).2 none
        · intro enabled nodup r mem was
          apply shrinks.lruGone enabled nodup r mem
          by_cases here : r = p
          · rw [here,putSelf]
            exact fun no => by cases no
          · rwa [putOther here]
  · rename_i more
    have store' : Store extra none (s.put p {n with nlookup := n.nlookup - nlookup}) := by
      refine steady.toStore.touch live ⟨rfl,rfl,rfl⟩ ?_ (fun _ _ => rfl) (fun h => .inl h)
        (fun same => absurd same notRoot)
      simp only [Node.held]
      rw [if_pos positive,if_pos (by omega)]
    have alive : ∀ r j, (s.put p {n with nlookup := n.nlookup - nlookup}).heap r = some j →
        Has s.idTable r ∧ j.refctr ≠ 0 := by
      intro r j now
      rcases atUpdate now with ⟨rfl,rfl⟩ | ⟨_,old⟩
      · exact steady.alive r n live
      · exact steady.alive r j old
    have effect := (Shrinks.refl none store' (fun _ no => by cases no)).effect live steady.toStore
    have living : ∀ r, s.heap r ≠ none → (s.put p {n with nlookup := n.nlookup - nlookup}).heap r ≠ none := by
      intro r was
      by_cases here : r = p
      · rw [here,putSelf]
        exact fun no => by cases no
      · rwa [putOther here]
    split
    · rename_i listed
      refine ⟨⟨⟨store'.names,store'.ids,store'.shape⟩,alive⟩,
        ⟨effect.conf,effect.brk,effect.hidectr,effect.kept,effect.gone,effect.new,effect.names,effect.made⟩,rfl,?_,?_,
        fun _ _ r _ => living r⟩
      · intro nodup
        apply List.Nodup.append (nodup.erase p) (List.nodup_singleton p)
        intro r mem last
        rw [List.mem_singleton.mp last] at mem
        exact (nodup.mem_erase_iff.mp mem).1 rfl
      · intro r mem
        rcases List.mem_append.mp mem with before | last
        · exact .inl (List.mem_of_mem_erase before)
        · exact .inr ⟨List.mem_singleton.mp last,listed.2⟩
    · exact ⟨⟨store',alive⟩,effect,rfl,fun nodup => nodup,fun r mem => .inl mem,fun _ _ r _ => living r⟩

theorem nextIdLoopSpec (fuel : Nat) (s : Fuse) : nextIdLoop fuel s = .error .idsExhausted ∨
    ∃ ctr generation, nextIdLoop fuel s = .ok {s with ctr := ctr, generation := generation} ∧
      s.getNodeNocheck ctr = none ∧ ctr ≠ 0 ∧ ctr ≠ unknownIno ∧ ctr < 2 ^ 32 := by
  induction fuel generalizing s with
  | zero => exact .inl rfl
  | succ fuel ih =>
    unfold nextIdLoop
    simp only
    generalize (if (s.ctr + 1) % 2 ^ 32 = 0 then (s.generation + 1) % 2 ^ 32 else s.generation) = turn
    split
    · rcases ih {s with ctr := (s.ctr + 1) % 2 ^ 32, generation := turn} with
        exhausted | ⟨ctr,generation,found,rest⟩
      · exact .inl exhausted
      · exact .inr ⟨ctr,generation,found,rest⟩
    · rename_i fresh
      simp only [not_or,Bool.not_eq_true,Option.isSome_eq_false_iff,Option.isNone_iff_eq_none] at fresh
      obtain ⟨nonzero,known,unused⟩ := fresh
      exact .inr ⟨_,_,rfl,unused,nonzero,known,Nat.mod_lt _ (by decide)⟩

theorem Steady.allocated (steady : Steady extra s) (spare : extra s.brk = 0) (memory : Nat → Bool)
    (ctr generation : Nat) (blank : n.name = none ∧ n.parent = none ∧ n.refctr = n.held) :
    Store extra none
      ({s with brk := s.brk + 1, ctr := ctr, generation := generation, memory := memory}.put s.brk n) := by
  have shape := steady.shape.alloc (some n) (by
    rintro m ⟨⟩
    exact ⟨blank.1,blank.2.1,by rw [spare]; exact blank.2.2⟩)
  refine ⟨?_,?_,shape⟩
  · apply steady.names.congr
    intro r named
    have same := steady.shape.entryAlloc (some n) named
    simp only [Fuse.nameHash,Fuse.entry,Fuse.put,same]
  · apply steady.ids.congr
    intro r hashed
    obtain ⟨k,live⟩ := steady.shape.hashed r hashed
    simp only [Fuse.idHash,putOther (Nat.ne_of_lt (steady.shape.lt live))]

inductive Found (extra : Ptr → Nat) (s : Fuse) (parent : Ino) (name : Option Name) : Fuse × Option Ptr → Prop
  | existing {p : Ptr} {n : Node} {lru : List Ptr} (live : s.heap p = some n)
      (found : (name = none ∧ s.getNodeNocheck parent = some p) ∨ ∃ nm, name = some nm ∧
        s.lookupNode parent nm = some p)
      (lruIs : lru = if s.lruEnabled ∧ n.nlookup = 1 then s.lruTable.erase p else s.lruTable)
      (steady : Steady extra ({s with lruTable := lru}.put p n.incNlookup)) :
      Found extra s parent name ({s with lruTable := lru}.put p n.incNlookup,some p)
  | created {nm : Name} {s' : Fuse} {n : Node} (asked : name = some nm) (absent : s.lookupNode parent nm = none)
      (steady : Steady extra s') (effect : Effect Never Never (· = (parent,nm)) Unchanged s s')
      (live : s'.heap s.brk = some n) (brk : s'.brk = s.brk + 1) (lookup : s'.lookupNode parent nm = some s.brk)
      (lookups : n.nlookup = if s.conf.remember ≠ 0 then 2 else 1) (lru : s'.lruTable = s.lruTable)
      (rest : ∀ r k, s.heap r = some k → ∃ k', s'.heap r = some k')
      (ids : s.getNodeNocheck n.nodeid = none ∧ n.nodeid ≠ 0 ∧ n.nodeid ≠ unknownIno)
      (stale : n.generation = s'.generation) :
      Found extra s parent name (s',some s.brk)
  | failed {nm : Name} {brk ctr generation : Nat} {memory : Nat → Bool} (asked : name = some nm)
      (absent : s.lookupNode parent nm = none)
      (steady : Steady extra {s with brk := brk, ctr := ctr, generation := generation, memory := memory})
      (grown : s.brk ≤ brk) :
      Found extra s parent name ({s with brk := brk, ctr := ctr, generation := generation, memory := memory},none)

theorem incNlookupSteady (steady : Steady extra s) (live : s.heap p = some n) (lru : List Ptr) :
    Steady extra ({s with lruTable := lru}.put p n.incNlookup) := by
  have plain : Store extra none {s with lruTable := lru} := ⟨steady.names,steady.ids,steady.shape⟩
  have used := (steady.alive p n live).2
  refine ⟨plain.touch live ⟨rfl,rfl,rfl⟩ ?_ (fun _ _ => rfl) (fun _ => .inl used) (fun _ => Nat.succ_pos _),?_⟩
  · simp only [Node.incNlookup,Node.held]
    by_cases zero : n.nlookup = 0
    · simp [zero]
    · simp [zero,Nat.pos_of_ne_zero zero]
  · intro r k found
    rcases atUpdate found with ⟨rfl,rfl⟩ | ⟨_,old⟩
    · refine ⟨(steady.alive r n live).1,?_⟩
      simp only [Node.incNlookup]
      split <;> omega
    · exact steady.alive r k old

theorem findExisting {parent : Ino} {name : Option Name} (steady : Steady extra s) (live : s.heap p = some n)
    (found : (name = none ∧ s.getNodeNocheck parent = some p) ∨ ∃ nm, name = some nm ∧
      s.lookupNode parent nm = some p) :
    Found extra s parent name
      ((if s.lruEnabled ∧ n.nlookup = 1 then s.removeNodeLru p else s).put p n.incNlookup,some p) := by
  have lru : (if s.lruEnabled ∧ n.nlookup = 1 then s.removeNodeLru p else s) =
      {s with lruTable := if s.lruEnabled ∧ n.nlookup = 1 then s.lruTable.erase p else s.lruTable} := by
    split <;> rfl
  rw [lru]
  exact .existing live found rfl (incNlookupSteady steady live _)

theorem Store.hashed (store : Store extra none s) (live : s.heap p = some n) (named : Has s.nameTable p)
    (outside : ¬ Has s.idTable p) (unused : ∀ r k, Has s.idTable r → s.heap r = some k → k.nodeid ≠ n.nodeid) :
    ∃ ids memory, s.hashId p = {s with idTable := ids, memory := memory} ∧ (∀ r, Has ids r ↔ Has s.idTable r ∨ r = p) ∧
      Store extra none ({s with idTable := ids, memory := memory}.put p n.incNlookup) := by
  obtain ⟨valid,has⟩ := insertSpec store.ids outside (s.memory 0)
  have same : Has (insert s.idHash (s.memory 0) s.idTable p) = fun r => Has s.idTable r ∨ r = p :=
    funext (fun r => propext (has r))
  have base : Store extra none {s with
      idTable := insert s.idHash (s.memory 0) s.idTable p, memory := fun i => s.memory (i+1)} := by
    refine ⟨store.names,valid,?_⟩
    simp only [same]
    exact store.shape.hash live unused
  refine ⟨_,_,rfl,has,?_⟩
  refine base.touch live ⟨rfl,rfl,rfl⟩ ?_ (fun _ _ => rfl) (fun _ => .inr named) (fun _ => Nat.succ_pos _)
  simp only [Node.incNlookup,Node.held]
  by_cases zero : n.nlookup = 0
  · simp [zero]
  · simp [zero,Nat.pos_of_ne_zero zero]

theorem Steady.allocatedLookup (steady : Steady extra s) {memory : Nat → Bool} {ctr generation : Nat}
    {extra' : Ptr → Nat} (store' : Store extra' none
      ({s with brk := s.brk + 1, ctr := ctr, generation := generation, memory := memory}.put s.brk n))
    (i : Ino) (name : Name) :
    ({s with brk := s.brk + 1, ctr := ctr, generation := generation, memory := memory}.put s.brk n).getNodeNocheck i =
      s.getNodeNocheck i ∧
    ({s with brk := s.brk + 1, ctr := ctr, generation := generation, memory := memory}.put s.brk n).lookupNode i name =
      s.lookupNode i name := by
  constructor
  · apply Option.ext
    intro r
    rw [store'.getNodeIff,steady.toStore.getNodeIff]
    apply and_congr_right
    intro hashed
    obtain ⟨k,live⟩ := steady.shape.hashed r hashed
    rw [putOther (Nat.ne_of_lt (steady.shape.lt live))]
  · apply Option.ext
    intro r
    rw [store'.lookupIff,steady.toStore.lookupIff]
    apply and_congr_right
    intro named
    have same := steady.shape.entryAlloc (some n) named
    simp only [Fuse.entry,Fuse.put,same]

/- The new node is in its place and its directory counts it; nothing else has changed. -/
structure Entered (s s' : Fuse) (q : Ptr) (d n : Node) : Prop where
  atNew : s'.heap s.brk = some n
  atDir : s'.heap q = some {d with refctr := d.refctr + 1}
  rest : ∀ r, r ≠ s.brk → r ≠ q → s'.heap r = s.heap r

variable {d : Node}

theorem Entered.put {t : Fuse} (entered : Entered s s' q d n) (same : t.heap = s'.heap) (other : q ≠ s.brk) (m : Node) :
    Entered s (t.put s.brk m) q d m := by
  refine ⟨putSelf ..,?_,fun r new dir => ?_⟩
  · rw [putOther other,same,entered.atDir]
  · rw [putOther new,same,entered.rest r new dir]

theorem Steady.known (steady : Steady extra s) {r : Ptr} {k : Node} (live : s.heap r = some k) : r ≠ s.brk :=
  Nat.ne_of_lt (steady.shape.lt live)

theorem Entered.kept (entered : Entered s s' q d n) (steady : Steady extra s) (alive : s.heap q = some d)
    {r : Ptr} {k : Node} (was : s.heap r = some k) :
    ∃ k', s'.heap r = some k' ∧ k' = {k with refctr := k'.refctr} ∧ k'.refctr ≠ 0 := by
  by_cases dir : r = q
  · subst dir
    rw [alive] at was
    cases was
    exact ⟨_,entered.atDir,rfl,Nat.succ_ne_zero _⟩
  · exact ⟨k,(entered.rest r (steady.known was) dir).trans was,rfl,(steady.alive r k was).2⟩

theorem Entered.was (entered : Entered s s' q d n) (alive : s.heap q = some d) {r : Ptr} {k : Node} (old : r ≠ s.brk)
    (now : s'.heap r = some k) : s.heap r ≠ none := by
  intro none
  have notDir : r ≠ q := by
    rintro rfl
    rw [alive] at none
    cases none
  rw [entered.rest r old notDir,none] at now
  cases now

theorem Entered.apart (entered : Entered s s' q d n) (steady : Steady extra s) (alive : s.heap q = some d)
    (unused : s.getNodeNocheck n.nodeid = none) {r : Ptr} {k : Node} (hashed : Has s.idTable r)
    (now : s'.heap r = some k) :
    k.nodeid ≠ n.nodeid := by
  intro same
  obtain ⟨k',was⟩ := steady.shape.hashed r hashed
  obtain ⟨k'',at_,is,_⟩ := entered.kept steady alive was
  rw [now] at at_
  cases at_
  have taken := (steady.toStore.getNodeIff n.nodeid).mpr ⟨hashed,k',was,by rw [← same,is]⟩
  rw [unused] at taken
  cases taken

theorem Entered.steady (entered : Entered s s' q d n) (steady : Steady extra s) (alive : s.heap q = some d)
    (store : Store extra none s') (ids : ∀ r, Has s'.idTable r ↔ Has s.idTable r ∨ r = s.brk) (used : n.refctr ≠ 0) :
    Steady extra s' := by
  refine ⟨store,?_⟩
  intro r k now
  rw [ids]
  by_cases new : r = s.brk
  · subst new
    rw [entered.atNew] at now
    cases now
    exact ⟨.inr rfl,used⟩
  · obtain ⟨k',was⟩ := Option.ne_none_iff_exists'.mp (entered.was alive new now)
    obtain ⟨k'',at_,_,usedR⟩ := entered.kept steady alive was
    rw [now] at at_
    cases at_
    exact ⟨.inl (steady.alive r k' was).1,usedR⟩

/- Apart from the entry that is made, nothing in the store has changed for anybody. -/
theorem Entered.effect {e : Ino × Name} (entered : Entered s s' q d n) (steady : Steady extra s)
    (alive : s.heap q = some d) (conf : s'.conf = s.conf) (brk : s.brk ≤ s'.brk)
    (hidectr : s'.hidectr = s.hidectr) (names : ∀ r, Has s'.nameTable r ↔ Has s.nameTable r ∨ r = s.brk)
    (entry : s'.entry s.brk = some e) (new : n.treelock = 0 ∧ n.openCount = 0 ∧ n.isHidden = false) :
    Effect Never Never (fun e' => e' = e) Unchanged s s' := by
  refine ⟨conf,brk,hidectr,?_,?_,?_,?_,?_⟩
  · intro r k k' was now
    obtain ⟨k'',at_,same,_⟩ := entered.kept steady alive was
    rw [now] at at_
    cases at_
    rw [same]
    exact ⟨rfl,rfl,rfl,rfl,(or_iff_left (fun h => h)).symm,fun _ => rfl,fun _ => rfl⟩
  · intro r k was gone
    obtain ⟨k'',at_,_⟩ := entered.kept steady alive was
    rw [gone] at at_
    cases at_
  · intro r k none now
    have here : r = s.brk := by
      by_contra old
      exact entered.was alive old now none
    subst here
    rw [entered.atNew] at now
    cases now
    exact ⟨Nat.le_refl _,new⟩
  · intro r was _
    obtain ⟨k,at_⟩ := Option.ne_none_iff_exists'.mp was
    obtain ⟨k',now,_⟩ := entered.kept steady alive at_
    rw [names]
    constructor
    · exact fun h => ⟨h.resolve_right (steady.known at_),by rw [now]; exact Option.some_ne_none _⟩
    · exact fun h => .inl h.1
  · rintro r (no | none) inside
    · exact no.elim
    · rcases (names r).mp inside with old | rfl
      · exact absurd none (steady.toStore.namedLive old)
      · exact ⟨e,entry,rfl⟩

theorem createNode {parent : Ino} {name : Name} {memory : Nat → Bool} {ctr generation : Nat}
    (steady : Steady extra s) (spare : extra s.brk = 0) (absent : s.lookupNode parent name = none)
    (unused : s.getNodeNocheck ctr = none) (valid : ctr ≠ 0 ∧ ctr ≠ unknownIno)
    (new : n = if s.conf.remember ≠ 0 then {Node.zero with nodeid := ctr, generation := generation}.incNlookup
      else {Node.zero with nodeid := ctr, generation := generation}) :
    Outcome (Bad s [parent]) (Found extra s parent (some name))
      ((({s with brk := s.brk + 1, ctr := ctr, generation := generation, memory := memory}.put s.brk n).hashName
        s.brk parent name).bind fun r =>
        if r.2 then ((r.1.hashId s.brk).deref s.brk).bind fun n =>
          .ok ((r.1.hashId s.brk).put s.brk n.incNlookup,some s.brk)
        else .ok (r.1.freeNode s.brk,none)) := by
  have blank : n.name = none ∧ n.parent = none ∧ n.refctr = n.held ∧ n.nodeid = ctr ∧ n.treelock = 0 ∧
      n.openCount = 0 ∧ n.isHidden = false ∧ n.generation = generation ∧
      n.nlookup = if s.conf.remember ≠ 0 then 1 else 0 := by
    rw [new]
    split <;> exact ⟨rfl,rfl,rfl,rfl,rfl,rfl,rfl,rfl,rfl⟩
  obtain ⟨noName,noParent,counted,id,unlocked,closed,visible,stamp,lookups⟩ := blank
  have store := steady.allocated spare memory ctr generation ⟨noName,noParent,counted⟩
  obtain ⟨sameNode,_⟩ := steady.allocatedLookup store parent name
  obtain ⟨_,sameName⟩ := steady.allocatedLookup store parent name
  have cells : ∀ r, r ≠ s.brk → ({s with
      brk := s.brk + 1, ctr := ctr, generation := generation, memory := memory}.put s.brk n).heap r = s.heap r :=
    fun r other => putOther other ..
  have own : ({s with brk := s.brk + 1, ctr := ctr, generation := generation, memory := memory}.put
      s.brk n).heap s.brk = some n := putSelf ..
  have unnamed : ¬ Has s.nameTable s.brk := fun named =>
    absurd (steady.shape.fresh s.brk (Nat.le_refl _)) (steady.toStore.namedLive named)
  have unhashed : ¬ Has s.idTable s.brk := fun hashed =>
    absurd (steady.shape.fresh s.brk (Nat.le_refl _)) (steady.toStore.hashedLive hashed)
  have plain : s.brk ≠ 0 := by
    obtain ⟨r,atRoot,_⟩ := steady.shape.root
    exact Ne.symm (steady.known atRoot)
  generalize state : ({s with brk := s.brk + 1, ctr := ctr, generation := generation, memory := memory} : Fuse).put
    s.brk n = s₁ at store sameNode sameName cells own ⊢
  have base : s₁.conf = s.conf ∧ s₁.hidectr = s.hidectr ∧ s₁.brk = s.brk + 1 ∧ s₁.idTable = s.idTable ∧
      s₁.nameTable = s.nameTable ∧ s₁.lruTable = s.lruTable ∧ s₁.generation = generation := by
    rw [← state]
    exact ⟨rfl,rfl,rfl,rfl,rfl,rfl,rfl⟩
  obtain ⟨conf,hidectr,brk,idTable,nameTable,lruTable,turn⟩ := base
  cases found : s.getNodeNocheck parent with
  | none =>
    have fault : s₁.hashName s.brk parent name = .error .getNode := by
      simp only [Fuse.hashName,Fuse.getNode,sameNode,found,bind,Except.bind]
    rw [fault]
    exact .getNode (List.mem_singleton_self parent) found
  | some q =>
    obtain ⟨hashedQ,d,alive,idQ⟩ := (steady.toStore.getNodeIff parent).mp found
    have other : q ≠ s.brk := steady.known alive
    have alive₁ : s₁.heap q = some d := (cells q other).trans alive
    rcases hashNameSpec store own (by rw [nameTable]; exact unnamed) plain (sameNode.trans found) alive₁
      (steady.alive q d alive).2 (sameName.trans absent) with
      ⟨k,table,memory',liveK,result,has,named⟩ | ⟨_,memory',result⟩
    · rw [putOther (Ne.symm other),own] at liveK
      cases liveK
      rw [result]
      generalize second : ({(s₁.put q {d with refctr := d.refctr + 1}).put s.brk
        {n with name := some name, parent := some q} with nameTable := table, memory := memory'} : Fuse) = s₂ at named ⊢
      have entered₂ : Entered s s₂ q d {n with name := some name, parent := some q} := by
        rw [← second]
        refine ⟨putSelf ..,(putOther other ..).trans (putSelf ..),?_⟩
        intro r notNew notDir
        exact (putOther notNew ..).trans ((putOther notDir ..).trans (cells r notNew))
      have base₂ : s₂.conf = s.conf ∧ s₂.hidectr = s.hidectr ∧ s₂.brk = s.brk + 1 ∧ s₂.idTable = s.idTable ∧
          s₂.nameTable = table ∧ s₂.lruTable = s.lruTable ∧ s₂.generation = generation := by
        rw [← second]
        exact ⟨conf,hidectr,brk,idTable,rfl,lruTable,turn⟩
      obtain ⟨conf₂,hidectr₂,brk₂,idTable₂,nameTable₂,lruTable₂,turn₂⟩ := base₂
      have inTable : Has s₂.nameTable s.brk := by
        rw [nameTable₂]
        exact (has s.brk).mpr (.inr rfl)
      have live₂ := entered₂.atNew
      obtain ⟨ids,memory₃,hashId,idsHas,final⟩ := named.hashed live₂ inTable (by rw [idTable₂]; exact unhashed)
        fun r k hashed now => entered₂.apart steady alive (by rw [id]; exact unused) (idTable₂ ▸ hashed) now
      have live₃ : ({s₂ with idTable := ids, memory := memory₃} : Fuse).deref s.brk =
          .ok {n with name := some name, parent := some q} := derefOk live₂
      simp only [Except.bind,if_true,hashId,live₃]
      generalize third : ({s₂ with idTable := ids, memory := memory₃} : Fuse).put s.brk
        {n with name := some name, parent := some q}.incNlookup = s₃ at final ⊢
      have entered : Entered s s₃ q d {n with name := some name, parent := some q}.incNlookup := by
        rw [← third]
        refine entered₂.put ?_ other _
        rfl
      have base₃ : s₃.conf = s.conf ∧ s₃.hidectr = s.hidectr ∧ s₃.brk = s.brk + 1 ∧ s₃.idTable = ids ∧
          s₃.nameTable = table ∧ s₃.lruTable = s.lruTable ∧ s₃.generation = generation := by
        rw [← third]
        exact ⟨conf₂,hidectr₂,brk₂,rfl,nameTable₂,lruTable₂,turn₂⟩
      obtain ⟨conf₃,hidectr₃,brk₃,idTable₃,nameTable₃,lruTable₃,turn₃⟩ := base₃
      have entry : s₃.entry s.brk = some (parent,name) :=
        entryIff.mpr ⟨_,q,_,entered.atNew,rfl,rfl,entered.atDir,idQ⟩
      have hasIs : ∀ r, Has s₃.nameTable r ↔ Has s.nameTable r ∨ r = s.brk := by
        intro r
        rw [nameTable₃,has,nameTable]
      have used : {n with name := some name, parent := some q}.incNlookup.refctr ≠ 0 := by
        simp only [Node.incNlookup]
        rw [counted,Node.held]
        split <;> simp_all
      have steady₃ := entered.steady steady alive final (fun r => by rw [idTable₃,idsHas,idTable₂]) used
      refine .created rfl absent steady₃
        (entered.effect steady alive conf₃ (by rw [brk₃]; exact Nat.le_succ _) hidectr₃ hasIs entry
        ⟨unlocked,closed,visible⟩) entered.atNew brk₃
          ((final.lookupIff parent name).mpr ⟨(hasIs _).mpr (.inr rfl),entry⟩) ?_ lruTable₃
        (fun r k was => (entered.kept steady alive was).imp (fun _ h => h.1)) ?_ (stamp.trans turn₃.symm)
      · simp only [Node.incNlookup,lookups]
        split <;> rfl
      · simp only [Node.incNlookup,id]
        exact ⟨unused,valid⟩
    · rw [result]
      have vacant := steady.shape.fresh s.brk (Nat.le_refl _)
      have blankHeap : Function.update s.heap s.brk none = s.heap := by
        rw [← vacant]
        exact Function.update_eq_self ..
      have same : ({s₁.put s.brk {n with name := none} with memory := memory'} : Fuse).freeNode s.brk =
          {s with brk := s.brk + 1, ctr := ctr, generation := generation, memory := memory'} := by
        rw [← state]
        simp only [Fuse.put,Fuse.freeNode,Function.update_idem,blankHeap]
      simp only [Except.bind,Bool.false_eq_true,if_false,same]
      have shape := steady.shape.alloc none (fun _ no => by cases no)
      rw [blankHeap] at shape
      exact .failed rfl absent ⟨⟨steady.names,steady.ids,shape⟩,steady.alive⟩ (Nat.le_succ _)

theorem putOver (s : Fuse) (p : Ptr) (m n : Node) (ctr generation : Nat) :
    ({s.put p m with ctr := ctr, generation := generation} : Fuse).put p n =
      {s with ctr := ctr, generation := generation}.put p n := by
  simp only [Fuse.put,Function.update_idem]

theorem findNodeSpec (steady : Steady extra s) (spare : extra s.brk = 0) (parent : Ino) (name : Option Name) :
    Outcome (Bad s [parent]) (Found extra s parent name) (s.findNode parent name) := by
  unfold Fuse.findNode
  cases name with
  | none =>
    cases found : s.getNodeNocheck parent with
    | none =>
      have fault : s.getNode parent = .error .getNode := by simp only [Fuse.getNode,found]
      rw [fault]
      exact .getNode (List.mem_singleton_self parent) found
    | some p =>
      obtain ⟨_,n,live,_⟩ := (steady.toStore.getNodeIff parent).mp found
      rw [getNodeOk found]
      simp only [Except.map,bind,Except.bind,derefOk live]
      exact findExisting steady live (.inl ⟨rfl,found⟩)
  | some name =>
    cases found : s.lookupNode parent name with
    | some p =>
      obtain ⟨_,n,live,_⟩ := steady.lookupLive found
      simp only [bind,Except.bind,found,derefOk live]
      exact findExisting steady live (.inr ⟨name,rfl,found⟩)
    | none =>
      simp only [bind,Except.bind,found,Fuse.takeMem]
      cases memory : s.memory 0 with
      | false =>
        simp only [Bool.false_eq_true,if_false]
        exact .failed rfl found (steady.memory _) (Nat.le_refl _)
      | true =>
        simp only [if_true]
        have zero := steady.allocated spare (fun i => s.memory (i+1)) s.ctr s.generation (n := Node.zero) ⟨rfl,rfl,rfl⟩
        rcases nextIdLoopSpec (2 ^ 32) ({s with
            brk := s.brk + 1, ctr := s.ctr, generation := s.generation, memory := fun i => s.memory (i+1)}.put
            s.brk Node.zero) with exhausted | ⟨ctr,generation,next,unused,nonzero,known,_⟩
        · rw [Fuse.nextId,exhausted]
          exact .idsExhausted
        · rw [(steady.allocatedLookup zero ctr name).1] at unused
          rw [Fuse.nextId,next]
          simp only [putOver]
          exact createNode steady spare found unused ⟨nonzero,known⟩ rfl

end FuseStudy.NodeStore
