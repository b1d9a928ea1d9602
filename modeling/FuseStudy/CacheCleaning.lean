import FuseStudy.StoreRuns

/-! Remembered nodes: with a time to remember, a node keeps one lookup of the library's own
for as long as it has a name. Once the kernel's lookups are gone the node is put on
lru_table, from where fuse_clean_cache drops it when it has aged. -/
namespace FuseStudy.NodeStore
open CString LinearHash

variable {extra : Ptr → Nat} {s s' : Fuse} {p q : Ptr} {n m : Node} {aged : Ptr → Bool}

structure Listed (s : Fuse) : Prop where
  nodup : s.lruTable.Nodup
  once : ∀ p ∈ s.lruTable, p ≠ 0 ∧ ∃ n, s.heap p = some n ∧ n.nlookup = 1

/- What keeps a node out of reach of the cleaner: a lookup that is not on the list, or not
there for long, on the node or below it. -/
inductive Kept (s : Fuse) (aged : Ptr → Bool) : Ptr → Prop
  | looked {p : Ptr} {n : Node} (live : s.heap p = some n) (used : 0 < n.nlookup)
      (recent : p ∈ s.lruTable → aged p = false) : Kept s aged p
  | child {p c : Ptr} (parent : parentOf s.heap c = some p) (kept : Kept s aged c) : Kept s aged p

structure Swept (aged : Ptr → Bool) (s s' : Fuse) : Prop where
  conf : s'.conf = s.conf
  brk : s'.brk = s.brk
  hidectr : s'.hidectr = s.hidectr
  kept : ∀ p n', s'.heap p = some n' → ∃ n, s.heap p = some n ∧ n' = {n with refctr := n'.refctr}
  gone : ∀ p n, s.heap p = some n → s'.heap p = none →
    n.treelock = 0 ∧ (n.nlookup = 0 ∨ (p ∈ s.lruTable ∧ aged p))
  names : ∀ p, Has s'.nameTable p ↔ Has s.nameTable p ∧ s'.heap p ≠ none
  lru : s'.lruTable.Sublist s.lruTable

theorem Swept.refl (steady : Steady extra s) : Swept aged s s := by
  refine ⟨rfl,rfl,rfl,fun p n live => ⟨n,live,rfl⟩,?_,?_,List.Sublist.refl _⟩
  · intro p n live gone
    rw [live] at gone
    cases gone
  · exact fun p => ⟨fun named => ⟨named,steady.namedLive named⟩,fun named => named.1⟩

theorem Swept.trans {s₂ : Fuse} (first : Swept aged s s') (second : Swept aged s' s₂) : Swept aged s s₂ := by
  refine ⟨second.conf.trans first.conf,second.brk.trans first.brk,second.hidectr.trans first.hidectr,
    ?_,?_,?_,second.lru.trans first.lru⟩
  · intro p n₂ now
    obtain ⟨n',mid,same'⟩ := second.kept p n₂ now
    obtain ⟨n,was,same⟩ := first.kept p n' mid
    refine ⟨n,was,?_⟩
    rw [same',same]
  · intro p n was gone
    cases mid : s'.heap p with
    | none => exact first.gone p n was mid
    | some n' =>
      obtain ⟨m,was',same⟩ := first.kept p n' mid
      rw [was] at was'
      cases was'
      obtain ⟨unlocked,why⟩ := second.gone p n' mid gone
      rw [same] at unlocked why
      exact ⟨unlocked,why.imp_right (fun h => ⟨first.lru.subset h.1,h.2⟩)⟩
  · intro p
    rw [second.names,first.names]
    constructor
    · exact fun h => ⟨h.1.1,h.2⟩
    · intro h
      obtain ⟨n₂,now⟩ := Option.ne_none_iff_exists'.mp h.2
      obtain ⟨n',mid,_⟩ := second.kept p n₂ now
      exact ⟨⟨h.1,by rw [mid]; nofun⟩,h.2⟩

theorem Steady.childNamed (steady : Steady extra s) (parent : parentOf s.heap p = some q) :
    Has s.nameTable p ∧ s.heap q ≠ none := by
  obtain ⟨n,live,is⟩ := Option.bind_eq_some_iff.mp parent
  obtain ⟨plain,hasName⟩ := steady.parentNamed live is
  have named := (steady.named live plain).mpr hasName
  obtain ⟨n',q',d,_,live',_,parent',alive⟩ := steady.shape.namedParent named
  rw [live] at live'
  cases live'
  rw [is] at parent'
  cases parent'
  exact ⟨named,by rw [alive]; nofun⟩

theorem Kept.live (kept : Kept s aged p) (steady : Steady extra s) : s.heap p ≠ none := by
  cases kept with
  | looked live _ _ =>
    rw [live]
    nofun
  | child parent _ => exact (steady.childNamed parent).2

/- Induction from the lookup that keeps the node up to the node. -/
theorem Kept.swept (kept : Kept s aged p) (swept : Swept aged s s')
    (steady' : Steady extra s') : Kept s' aged p := by
  induction kept with
  | @looked p n live used recent =>
    cases now : s'.heap p with
    | none =>
      rcases (swept.gone p n live now).2 with unused | ⟨listed,old⟩
      · exact absurd unused (Nat.ne_of_gt used)
      · rw [recent listed] at old
        cases old
    | some n' =>
      obtain ⟨m,was,same⟩ := swept.kept p n' now
      rw [live] at was
      cases was
      refine .looked now ?_ (fun listed => recent (swept.lru.subset listed))
      rw [same]
      exact used
  | @child p c parent _ ih =>
    obtain ⟨k',now⟩ := Option.ne_none_iff_exists'.mp (ih.live steady')
    obtain ⟨k,was,same⟩ := swept.kept c k' now
    refine .child ?_ ih
    rw [parentOf,now,Option.bind_some,same]
    rwa [parentOf,was,Option.bind_some] at parent

theorem Steady.childless (steady : Steady extra s) (live : s.heap p = some n) (used : 0 < n.nlookup)
    (few : n.refctr ≤ 1) : children s.heap (Has s.nameTable) s.brk p = ∅ ∧ extra p = 0 := by
  have count := steady.shape.counted p n live
  rw [Node.held,if_pos used] at count
  exact ⟨Finset.card_eq_zero.mp (by omega),by omega⟩

theorem notKept (steady : Steady extra s) (mem : p ∈ s.lruTable) (live : s.heap p = some n) (once : n.nlookup = 1)
    (old : aged p) (few : n.refctr ≤ 1) : ¬ Kept s aged p := by
  obtain ⟨childless,_⟩ := steady.childless live (by omega) few
  intro kept
  cases kept with
  | looked _ _ recent =>
    rw [recent mem] at old
    cases old
  | @child _ c parent _ =>
    obtain ⟨k,alive,_⟩ := Option.bind_eq_some_iff.mp parent
    have inside : c ∈ children s.heap (Has s.nameTable) s.brk p :=
      memChildren.mpr ⟨steady.shape.lt alive,(steady.childNamed parent).1,parent⟩
    rw [childless] at inside
    simp at inside

/- The cleaner stops at a locked node that nothing keeps. -/
def Stuck (s : Fuse) (aged : Ptr → Bool) (fault : Fault) : Prop :=
  fault = .deleteLocked ∧ ∃ q k, s.heap q = some k ∧ k.treelock ≠ 0 ∧ ¬ Kept s aged q

theorem Kept.notFading {table : Table Ptr} (kept : Kept s aged q) (steady : Steady extra s)
    (unkept : ¬ Kept s aged p) (without : ∀ r, Has table r ↔ Has s.nameTable r ∧ r ≠ p)
    (live : s.heap p = some n) (same : m.parent = n.parent) :
    ¬ Fading {s.put p m with nameTable := table} q := by
  induction kept with
  | @looked q k alive used recent =>
    rintro ⟨now,unused,_⟩
    have other : q ≠ p := fun here => unkept (here ▸ .looked alive used recent)
    rw [show ({s.put p m with nameTable := table} : Fuse).heap q = s.heap q from putOther other s m,alive] at now
    cases now
    omega
  | @child q c parent kept ih =>
    rintro ⟨_,_,below⟩
    have other : c ≠ p := fun here => unkept (here ▸ kept)
    exact ih (below c ((without c).mpr ⟨(steady.childNamed parent).1,other⟩)
      ((parentUpdate live same c).trans parent))

structure Unhashed (extra : Ptr → Nat) (s : Fuse) (p : Ptr) (n : Node) (s' : Fuse) : Prop where
  store : Store (bump extra p) none s'
  shrinks : Shrinks (some p) (s.put p {n with nlookup := 0}) s'
  busy : ∀ q m, s'.heap q = some m → m.refctr ≠ 0
  node : ∃ k, s'.heap p = some k ∧ k.name = none ∧ k.refctr = 1 ∧ k.nlookup = 0 ∧ k.treelock = n.treelock

/- unhash_name of a node to be dropped: the parents it kept in memory may go, the node
itself still has the reference of its lookups. -/
theorem unhashDropped (steady : Steady extra s) (plain : p ≠ 0) (mem : p ∈ s.lruTable) (live : s.heap p = some n)
    (once : n.nlookup = 1) (old : aged p) (few : n.refctr ≤ 1) :
    Outcome (Stuck s aged) (Unhashed extra s p n) ((s.put p {n with nlookup := 0}).unhashName p) := by
  obtain ⟨childless,alone⟩ := steady.childless live (by omega) few
  have used := (steady.alive p n live).2
  have now : (s.put p {n with nlookup := 0}).heap p = some {n with nlookup := 0} := putSelf ..
  have dropped : Store (bump extra p) none (s.put p {n with nlookup := 0}) := by
    refine steady.toStore.touch live ⟨rfl,rfl,rfl⟩ ?_ (fun r other => if_neg other) (fun h => .inl h)
      (fun same => absurd same plain)
    simp only [bump,if_pos,Node.held]
    rw [if_pos (by omega),if_neg (by omega)]
    omega
  have busy : ∀ q m, (s.put p {n with nlookup := 0}).heap q = some m → m.refctr ≠ 0 := by
    intro q m at_
    rcases atUpdate at_ with ⟨rfl,rfl⟩ | ⟨_,was⟩
    · exact used
    · exact (steady.alive q m was).2
  unfold Fuse.unhashName
  rcases Option.eq_none_or_eq_some n.name with named | ⟨name,named⟩
  · have outside : ¬ Has s.nameTable p := fun has => (steady.named live plain).mp has named
    rw [unhashUnnamed now named]
    refine ⟨dropped,Shrinks.refl _ dropped ?_,busy,_,now,named,by simp only; omega,rfl,rfl⟩
    rintro _ ⟨⟩
    exact outside
  · have has : Has s.nameTable p := (steady.named live plain).mpr (by rw [named]; exact Option.some_ne_none _)
    obtain ⟨_,q,d,_,live',_,parent,alive⟩ := steady.shape.namedParent has
    rw [live] at live'
    cases live'
    have other : p ≠ q := by
      rintro rfl
      have inside : p ∈ children s.heap (Has s.nameTable) s.brk p :=
        memChildren.mpr ⟨steady.shape.lt live,has,by simp [parentOf,live,parent]⟩
      rw [childless] at inside
      simp at inside
    obtain ⟨table,chained,opened,without⟩ := dropped.unchained (some p) has now parent (.inl ⟨rfl,rfl⟩)
    have apart : Apart (some p) q {s.put p {n with nlookup := 0} with nameTable := table} := by
      have none : children (s.put p {n with nlookup := 0}).heap (Has s.nameTable) s.brk p = ∅ := by
        rw [← childless]
        apply childrenCongr
        intro c
        rw [show parentOf (s.put p {n with nlookup := 0}).heap c = parentOf s.heap c from
          parentUpdate (m := {n with nlookup := 0}) live rfl c]
      rintro _ ⟨⟩
      exact ⟨other,childrenFewer none (fun c inside => ((without c).mp inside).1)⟩
    have aliveNow : ({s.put p {n with nlookup := 0} with nameTable := table} : Fuse).heap q = some d :=
      (putOther (fun same => other same.symm) ..).trans alive
    have outcome := unrefCascade opened aliveNow apart
    rw [unhashNamed now named parent chained]
    cases result : ({s.put p {n with nlookup := 0} with nameTable := table} : Fuse).unrefNode q with
    | error fault =>
      rw [result] at outcome
      cases outcome with
      | @locked at_ node liveL fading locked =>
        have unkept := notKept steady mem live once old few
        refine ⟨rfl,at_,?_⟩
        rcases atUpdate liveL with ⟨rfl,rfl⟩ | ⟨_,was⟩
        · exact ⟨n,live,locked,unkept⟩
        · exact ⟨node,was,locked,fun kept => kept.notFading (m := {n with nlookup := 0})
            steady unkept without live rfl fading⟩
    | ok s' =>
      rw [result] at outcome
      cases outcome with
      | done store shrinks spared idle =>
        obtain ⟨k,liveK⟩ := Option.ne_none_iff_exists'.mp (spared p _ now (.inr rfl) (fun no => by cases no))
        obtain ⟨m,was,same⟩ := shrinks.kept p k liveK
        rw [show ({s.put p {n with nlookup := 0} with nameTable := table} : Fuse).heap p = _ from now] at was
        cases was
        have same := same (fun no => by cases no)
        have unnamed : ¬ Has s'.nameTable p :=
          fun named => ((without p).mp ((shrinks.names p).mp named).1).2 rfl
        obtain ⟨after,released,samed,closed⟩ := store.cleared liveK unnamed plain none (.inr rfl)
        have shrunk := shrinks.cleared (fun i => s'.memory (i+1)) liveK without samed
        simp only [Except.bind,derefOk liveK,released]
        have single : k.refctr = 1 := by
          have count := store.shape.counted p k liveK
          rw [shrinks.childless (apart p rfl).2,Finset.card_empty,Node.held,if_neg (by rw [same]; simp),bump,
            if_pos rfl,alone] at count
          exact count
        refine ⟨closed,shrunk,?_,_,putSelf ..,rfl,single,by rw [same],by rw [same]⟩
        intro r m at_
        rcases atUpdate at_ with ⟨rfl,rfl⟩ | ⟨_,before⟩
        · simp only
          omega
        · intro zero
          obtain ⟨m',mid,none⟩ := idle r m before zero
          exact busy r m' mid none

theorem unrefUnnamed {k : Node} (live : s.heap p = some k) (last : k.refctr = 1) (noName : k.name = none) :
    k.treelock = 0 ↔ ∃ s', s.unrefNode p = .ok s' := by
  unfold Fuse.unrefNode unrefLoop
  rw [derefOk live]
  simp only [bind,Except.bind,last,Nat.one_ne_zero,if_false,if_true]
  have now : (s.put p {k with refctr := 1 - 1}).heap p = some {k with refctr := 1 - 1} := putSelf ..
  constructor
  · intro unlocked
    rw [deleteUnlocked now unlocked,unhashUnnamed now noName]
    exact ⟨_,rfl⟩
  · rintro ⟨s',ok⟩
    by_contra locked
    rw [deleteLocked now locked] at ok
    cases ok

theorem sublistErase {l l' : List Ptr} (sublist : l'.Sublist l) (nodup : l.Nodup) (out : p ∉ l')
    (others : ∀ r ∈ l, r ≠ p → r ∈ l') : l' = l.erase p := by
  have inside : l'.Sublist (l.erase p) := by
    have erased := sublist.erase p
    rwa [List.erase_of_not_mem out] at erased
  apply inside.eq_of_length_le
  apply ((nodup.erase p).subperm ?_).length_le
  intro r mem
  obtain ⟨other,mem⟩ := nodup.mem_erase_iff.mp mem
  exact others r mem other

structure Dropped (extra : Ptr → Nat) (aged : Ptr → Bool) (s : Fuse) (p : Ptr) (s' : Fuse) : Prop where
  steady : Steady extra s'
  swept : Swept aged s s'
  left : s.lruTable.Nodup → p ∉ s'.lruTable
  stay : ∀ r ∈ s.lruTable, s'.heap r ≠ none → r ∈ s'.lruTable
  gone : ∀ r j, s.heap r = some j → s'.heap r = none → r ≠ p → j.nlookup = 0

theorem Unhashed.dropped {s₂ : Fuse} (unhashed : Unhashed extra s p n s₂) (steady : Steady extra s)
    (enabled : s.lruEnabled) (mem : p ∈ s.lruTable) (live : s.heap p = some n) (once : n.nlookup = 1)
    (old : aged p) (few : n.refctr ≤ 1) (unlocked : n.treelock = 0) (store : Store extra none s')
    (shrinks : Shrinks none s₂ s')
    (idle : ∀ q m, s'.heap q = some m → m.refctr = 0 → ∃ m', s₂.heap q = some m' ∧ m'.refctr = 0) :
    Dropped extra aged s p s' := by
  obtain ⟨childless,alone⟩ := steady.childless live (by omega) few
  obtain ⟨k,liveK,_,_,unused,_⟩ := unhashed.node
  have first := unhashed.shrinks
  have busy : ∀ q m, s'.heap q = some m → m.refctr ≠ 0 := by
    intro q m now zero
    obtain ⟨m',mid,none⟩ := idle q m now zero
    exact unhashed.busy q m' mid none
  -- the fields of every other node come through both cascades
  have kept : ∀ r j', s'.heap r = some j' → r ≠ p → ∃ j, s.heap r = some j ∧ j' = {j with refctr := j'.refctr} := by
    intro r j' now other
    obtain ⟨j₂,mid,same₂⟩ := shrinks.kept r j' now
    obtain ⟨j,was,same⟩ := first.kept r j₂ mid
    rw [putOther other] at was
    refine ⟨j,was,?_⟩
    rw [same₂ (fun no => by cases no),same (fun h => other (Option.some.inj h).symm)]
  -- a node that still had children or references of its own would be counted
  have freed : s'.heap p = none := by
    by_contra alive
    obtain ⟨k',now⟩ := Option.ne_none_iff_exists'.mp alive
    obtain ⟨k₂,mid,same⟩ := shrinks.kept p k' now
    rw [liveK] at mid
    cases mid
    have count := store.shape.counted p k' now
    have none : children s'.heap (Has s'.nameTable) s'.brk p = ∅ := by
      apply Finset.eq_empty_of_forall_notMem
      intro c inside
      obtain ⟨low,named,child⟩ := memChildren.mp inside
      obtain ⟨j,_,_,_,aliveC,_⟩ := store.shape.namedParent named
      obtain ⟨before,_,_⟩ := (shrinks.names c).mp named
      obtain ⟨named₀,_,uncut⟩ := (first.names c).mp before
      obtain ⟨j₀,was,same⟩ := kept c j aliveC (fun same => uncut (same ▸ rfl))
      have parent : parentOf s.heap c = some p := by
        rw [parentOf,aliveC,Option.bind_some,same] at child
        rwa [parentOf,was,Option.bind_some]
      have inside : c ∈ children s.heap (Has s.nameTable) s.brk p :=
        memChildren.mpr ⟨steady.shape.lt was,named₀,parent⟩
      rw [childless] at inside
      simp at inside
    rw [none,Finset.card_empty,Node.held,
      if_neg (by rw [same (fun no => by cases no),unused]; exact Nat.lt_irrefl 0),alone] at count
    exact busy p k' now count
  have gone : ∀ r j, s.heap r = some j → s'.heap r = none → r ≠ p → j.treelock = 0 ∧ j.nlookup = 0 := by
    intro r j was now other
    have at₁ : (s.put p {n with nlookup := 0}).heap r = some j := (putOther other ..).trans was
    cases mid : s₂.heap r with
    | none => exact (first.gone r j at₁ mid).symm
    | some j₂ =>
      obtain ⟨j',was',same⟩ := first.kept r j₂ mid
      rw [at₁] at was'
      cases was'
      have both := shrinks.gone r j₂ mid now
      rw [same (fun h => other (Option.some.inj h).symm)] at both
      exact both.symm
  have hashed : ∀ r j, s'.heap r = some j → Has s'.idTable r := by
    intro r j now
    have other : r ≠ p := by
      rintro rfl
      rw [freed] at now
      cases now
    obtain ⟨j₂,mid,_⟩ := shrinks.kept r j now
    obtain ⟨j₀,was,_⟩ := kept r j now other
    exact (shrinks.ids r).mpr
      ⟨(first.ids r).mpr ⟨(steady.alive r j₀ was).1,by rw [mid]; exact Option.some_ne_none _⟩,
        by rw [now]; exact Option.some_ne_none _⟩
  refine ⟨⟨store,fun r j now => ⟨hashed r j now,busy r j now⟩⟩,?_,?_,?_,fun r j was none other =>
    (gone r j was none other).2⟩
  · refine ⟨shrinks.conf.trans first.conf,shrinks.brk.trans first.brk,shrinks.hidectr.trans first.hidectr,?_,?_,?_,
      shrinks.lru.trans first.lru⟩
    · intro r j now
      refine kept r j now ?_
      rintro rfl
      rw [freed] at now
      cases now
    · intro r j was now
      by_cases here : r = p
      · subst here
        rw [live] at was
        cases was
        exact ⟨unlocked,.inr ⟨mem,old⟩⟩
      · have both := gone r j was now here
        exact ⟨both.1,.inl both.2⟩
    · intro r
      rw [shrinks.names,first.names]
      constructor
      · exact fun h => ⟨h.1.1,h.2.1⟩
      · intro h
        obtain ⟨j,now⟩ := Option.ne_none_iff_exists'.mp h.2
        obtain ⟨j₂,mid,_⟩ := shrinks.kept r j now
        refine ⟨⟨h.1,by rw [mid]; exact Option.some_ne_none _,?_⟩,h.2,(fun no => by cases no)⟩
        rintro ⟨⟩
        exact h.2 freed
  · intro nodup inside
    have on : s₂.lruEnabled := by rw [Fuse.lruEnabled,first.conf]; exact enabled
    exact shrinks.lruGone on (nodup.sublist first.lru) p inside (by rw [liveK]; exact Option.some_ne_none _) freed
  · intro r inside alive
    obtain ⟨j',now⟩ := Option.ne_none_iff_exists'.mp alive
    obtain ⟨j₂,mid,_⟩ := shrinks.kept r j' now
    exact shrinks.lruKept r (first.lruKept r inside (by rw [mid]; exact Option.some_ne_none _)) alive

theorem cleanDrop (steady : Steady extra s) (plain : p ≠ 0) (enabled : s.lruEnabled) (mem : p ∈ s.lruTable)
    (live : s.heap p = some n) (once : n.nlookup = 1) (old : aged p) (few : n.refctr ≤ 1) :
    Outcome (Stuck s aged) (Dropped extra aged s p)
      (((s.put p {n with nlookup := 0}).unhashName p).bind fun s => s.unrefNode p) := by
  refine (unhashDropped steady plain mem live once old few).bind ?_
  intro s₂ unhashed
  obtain ⟨k,liveK,noName,single,_,lock⟩ := unhashed.node
  have outcome := unrefCascade unhashed.store liveK (apartNone _ _)
  cases result : s₂.unrefNode p with
  | error fault =>
    rw [result] at outcome
    cases outcome with
    | locked _ _ _ =>
      refine ⟨rfl,p,n,live,?_,notKept steady mem live once old few⟩
      intro unlocked
      obtain ⟨s',ok⟩ := (unrefUnnamed liveK single noName).mp (lock.trans unlocked)
      rw [result] at ok
      cases ok
  | ok s' =>
    rw [result] at outcome
    cases outcome with
    | done store shrinks _ idle =>
      have unlocked := (unrefUnnamed liveK single noName).mpr ⟨s',result⟩
      exact unhashed.dropped steady enabled mem live once old few (lock.symm.trans unlocked) store shrinks idle

theorem nextLruAppend {before rest : List Ptr} (nodup : (before ++ p :: rest).Nodup) :
    nextLru (before ++ p :: rest) p = rest.head? := by
  have outside : ∀ r ∈ before, decide (r ≠ p) = true := by
    intro r mem
    apply decide_eq_true
    rintro rfl
    exact (List.nodup_append.mp nodup).2.2 r mem r List.mem_cons_self rfl
  rw [nextLru,List.dropWhile_append_of_pos outside]
  simp

theorem Stuck.back {fault : Fault} (stuck : Stuck s' aged fault) (swept : Swept aged s s') (steady' : Steady extra s') :
    Stuck s aged fault := by
  obtain ⟨rfl,q,k,live,locked,unkept⟩ := stuck
  obtain ⟨k₀,was,same⟩ := swept.kept q k live
  refine ⟨rfl,q,k₀,was,?_,fun kept => unkept (kept.swept swept steady')⟩
  rw [same] at locked
  exact locked

theorem Dropped.alive (dropped : Dropped extra aged s p s') (listed : Listed s) :
    ∀ r ∈ s.lruTable, r ≠ p → s'.heap r ≠ none := by
  intro r inside other none
  obtain ⟨_,j,was,single⟩ := listed.once r inside
  have unused := dropped.gone r j was none other
  omega

theorem Dropped.lru (dropped : Dropped extra aged s p s') (listed : Listed s) : s'.lruTable = s.lruTable.erase p :=
  sublistErase dropped.swept.lru listed.nodup (dropped.left listed.nodup)
    fun r inside other => dropped.stay r inside (dropped.alive listed r inside other)

theorem Dropped.listed (dropped : Dropped extra aged s p s') (listed : Listed s) : Listed s' := by
  refine ⟨listed.nodup.sublist dropped.swept.lru,?_⟩
  intro r mem
  rw [dropped.lru listed] at mem
  obtain ⟨other,inside⟩ := listed.nodup.mem_erase_iff.mp mem
  obtain ⟨plain,n,was,once⟩ := listed.once r inside
  refine ⟨plain,?_⟩
  obtain ⟨n',now⟩ := Option.ne_none_iff_exists'.mp (dropped.alive listed r inside other)
  obtain ⟨m,was',same⟩ := dropped.swept.kept r n' now
  rw [was] at was'
  cases was'
  exact ⟨n',now,by rw [same]; exact once⟩

theorem cleanLoopSpec (fuel : Nat) (before rest : List Ptr) (s : Fuse) (steady : Steady extra s) (listed : Listed s)
    (enabled : s.lruEnabled) (split : s.lruTable = before ++ rest) (enough : rest.length ≤ fuel) :
    Outcome (Stuck s aged) (fun s' => Steady extra s' ∧ Listed s' ∧ Swept aged s s')
      (cleanLoop aged fuel s rest.head?) := by
  induction fuel generalizing before rest s with
  | zero =>
    rw [List.length_eq_zero_iff.mp (Nat.le_zero.mp enough)]
    exact ⟨steady,listed,.refl steady⟩
  | succ fuel ih =>
    cases rest with
    | nil => exact ⟨steady,listed,.refl steady⟩
    | cons p rest =>
      have mem : p ∈ s.lruTable := by simp [split]
      have next : nextLru s.lruTable p = rest.head? := by
        rw [split]
        exact nextLruAppend (split ▸ listed.nodup)
      obtain ⟨plain,n,live,once⟩ := listed.once p mem
      have fits : rest.length ≤ fuel := Nat.le_of_succ_le_succ enough
      have step : cleanLoop aged (fuel+1) s (p :: rest).head? =
          if aged p then
            if 1 < n.refctr then cleanLoop aged fuel s rest.head?
            else (((s.put p {n with nlookup := 0}).unhashName p).bind fun s => s.unrefNode p).bind fun s =>
              cleanLoop aged fuel s rest.head?
          else .ok s := by
        simp only [List.head?_cons,cleanLoop,next,derefOk live,bind,Except.bind,once,ne_eq,not_true_eq_false,if_false]
        cases (s.put p {n with nlookup := 0}).unhashName p <;> rfl
      rw [step]
      split_ifs with old many
      · exact ih (before ++ [p]) rest s steady listed enabled (by simp [split]) fits
      · refine Outcome.bind (cleanDrop steady plain enabled mem live once old (Nat.not_lt.mp many)) ?_
        intro s' dropped
        have split' : s'.lruTable = before ++ rest := by
          have outside : p ∉ before := by
            intro inside
            have nodup := listed.nodup
            rw [split] at nodup
            exact (List.nodup_append.mp nodup).2.2 p inside p List.mem_cons_self rfl
          rw [dropped.lru listed,split,List.erase_append_right _ outside,List.erase_cons_head]
        have on : s'.lruEnabled := by rw [Fuse.lruEnabled,dropped.swept.conf]; exact enabled
        refine (ih before rest s' dropped.steady (dropped.listed listed) on split' fits).imp ?_ ?_
        · exact fun fault stuck => stuck.back dropped.swept dropped.steady
        · exact fun s₂ h => ⟨h.1,h.2.1,dropped.swept.trans h.2.2⟩
      · exact ⟨steady,listed,.refl steady⟩

theorem cleanCacheSpec (steady : Steady extra s) (listed : Listed s) (enabled : s.lruEnabled) :
    Outcome (Stuck s aged) (fun s' => Steady extra s' ∧ Listed s' ∧ Swept aged s s') (s.cleanCache aged) :=
  cleanLoopSpec _ [] s.lruTable s steady listed enabled rfl (Nat.le_refl _)

theorem nextLruMem {lru : List Ptr} (next : nextLru lru p = some q) : q ∈ lru :=
  (List.dropWhile_sublist _).subset (List.mem_of_mem_tail (List.mem_of_head? next))

/- Whatever stands on the list: a cleaner that comes to its end has swept what it should. -/
theorem cleanLoopKeeps (fuel : Nat) (cur : Option Ptr) (steady : Steady extra s) (enabled : s.lruEnabled)
    (plain : 0 ∉ s.lruTable) (listed : ∀ q, cur = some q → q ≠ 0 ∧ (s.heap q ≠ none → q ∈ s.lruTable))
    (ran : cleanLoop aged fuel s cur = .ok s') :
    Steady extra s' ∧ Swept aged s s' := by
  induction fuel generalizing s cur with
  | zero =>
    cases cur with
    | none =>
      cases ran
      exact ⟨steady,.refl steady⟩
    | some p => cases ran
  | succ fuel ih =>
    cases cur with
    | none =>
      cases ran
      exact ⟨steady,.refl steady⟩
    | some p =>
      obtain ⟨notRoot,inside⟩ := listed p rfl
      unfold cleanLoop at ran
      obtain ⟨n,deref,ran⟩ := callBind ran
      have live : s.heap p = some n := by
        unfold Fuse.deref at deref
        split at deref
        · cases deref
          assumption
        · cases deref
      have mem := inside (by rw [live]; nofun)
      have after : ∀ q, nextLru s.lruTable p = some q → q ≠ 0 ∧ q ∈ s.lruTable := by
        intro q next
        have there := nextLruMem next
        exact ⟨fun zero => plain (zero ▸ there),there⟩
      split_ifs at ran with old many shared
      · exact ih _ steady enabled plain (fun q next => ⟨(after q next).1,fun _ => (after q next).2⟩) ran
      · obtain ⟨s₁,unhash,ran⟩ := callBind ran
        obtain ⟨s₂,unref,ran⟩ := callBind ran
        have once : n.nlookup = 1 := by omega
        have outcome := cleanDrop steady notRoot enabled mem live once old (Nat.not_lt.mp shared)
        rw [unhash] at outcome
        have dropped := Outcome.good outcome unref
        have on : s₂.lruEnabled := by rw [Fuse.lruEnabled,dropped.swept.conf]; exact enabled
        obtain ⟨steady',swept⟩ := ih _ dropped.steady on (fun zero => plain (dropped.swept.lru.subset zero))
          (fun q next => ⟨(after q next).1,dropped.stay q (after q next).2⟩) ran
        exact ⟨steady',dropped.swept.trans swept⟩
      · cases ran
        exact ⟨steady,.refl steady⟩

end FuseStudy.NodeStore
