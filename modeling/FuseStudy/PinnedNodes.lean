import FuseStudy.HeldPaths

/-! A node with a reference of a request's own stays in memory with its id, whatever other
requests and the cleaner do. -/
namespace FuseStudy.NodeStore
open CString LinearHash Forest Script

variable {s s' : Fuse} {p q : Ptr} {n m : Node} {extra : Ptr → Nat} {hole : Option Ptr} {bound : Nat}

def Spared (extra : Ptr → Nat) (s s' : Fuse) : Prop :=
  ∀ q m, extra q ≠ 0 → s.heap q = some m → ∃ m', s'.heap q = some m' ∧ m'.nodeid = m.nodeid

theorem Spared.refl (extra : Ptr → Nat) (s : Fuse) : Spared extra s s := fun _ m _ live => ⟨m,live,rfl⟩

theorem Spared.trans {s₂ : Fuse} (first : Spared extra s s') (second : Spared extra s' s₂) : Spared extra s s₂ := by
  intro q m pinned live
  obtain ⟨m',live',id⟩ := first q m pinned live
  obtain ⟨m₂,live₂,id₂⟩ := second q m' pinned live'
  exact ⟨m₂,live₂,id₂.trans id⟩

theorem Spared.fewer {extra' : Ptr → Nat} (spares : Spared extra s s')
    (fewer : ∀ q, extra' q ≠ 0 → extra q ≠ 0) : Spared extra' s s' :=
  fun q m pinned live => spares q m (fewer q pinned) live

theorem Spared.put (live : s.heap p = some n) (same : m.nodeid = n.nodeid) : Spared extra s (s.put p m) := by
  intro q k _ alive
  by_cases here : q = p
  · subst here
    rw [live] at alive
    cases alive
    exact ⟨m,putSelf ..,same⟩
  · exact ⟨k,(putOther here ..).trans alive,rfl⟩

theorem Relocked.spares (relocked : Relocked s s') : Spared extra s s' := by
  obtain ⟨locks,memory,rfl⟩ := relocked
  exact fun q m _ live => ⟨_,relockAt live,rfl⟩

theorem Relabels.spares {Cut Hide : Ptr → Prop} {Made : Ino × Name → Prop} {count : Ptr → Nat → Nat}
    (relabels : Relabels Cut Hide Made count s s') : Spared extra s s' := by
  intro q m _ live
  obtain ⟨m',live',agrees,_⟩ := relabels.kept q m live
  exact ⟨m',live',agrees.nodeid⟩

theorem derefLive (deref : s.deref p = .ok n) : s.heap p = some n := by
  unfold Fuse.deref at deref
  split at deref
  · cases deref
    assumption
  · cases deref

/-! Cascades. A node is freed when its last reference goes, so it had no other. -/

/- Any unref_node that frees no node with a reference left. -/
def Frugal (hole : Option Ptr) (unref : Fuse → Ptr → Except Fault Fuse) : Prop :=
  ∀ (extra : Ptr → Nat) (s : Fuse) (q : Ptr) (m : Node) (s' : Fuse), Store (bump extra q) hole s →
    s.heap q = some m → Apart hole q s →
    unref s q = .ok s' → Spared extra s s'

theorem unhashSpares {unref : Fuse → Ptr → Except Fault Fuse} {hole' : Option Ptr}
    (frugal : Frugal hole' unref) (store : Store extra hole s) (live : s.heap p = some n)
    (inTable : n.name ≠ none → Has s.nameTable p)
    (opened : (hole = none ∧ hole' = some p) ∨ (n.refctr = 0 ∧ hole' = hole))
    (apart : ∀ q table, Has s.nameTable p → n.parent = some q →
      (∀ r, Has table r ↔ Has s.nameTable r ∧ r ≠ p) → Apart hole' q {s with nameTable := table})
    (ran : unhashNameWith unref s p = .ok s') : Spared extra s s' := by
  cases named : n.name with
  | none =>
    rw [unhashUnnamed live named] at ran
    cases ran
    exact Spared.refl extra _
  | some name =>
    have has := inTable (by rw [named]; exact Option.some_ne_none _)
    obtain ⟨_,q,d,_,live',_,parent,alive⟩ := store.shape.namedParent has
    rw [live] at live'
    cases live'
    obtain ⟨table,chained,closed,without⟩ := store.unchained hole' has live parent opened
    rw [unhashNamed live named parent chained] at ran
    obtain ⟨s₁,cascade,ran⟩ := callBind ran
    obtain ⟨k,deref,ran⟩ := callBind ran
    have live₁ := derefLive deref
    cases ran
    have first : Spared extra s s₁ :=
      frugal extra {s with nameTable := table} q d s₁ closed alive (apart q table has parent without) cascade
    have second : Spared extra s₁ (s₁.put p {k with name := none, parent := none}) := .put live₁ rfl
    exact first.trans second

theorem finishedHeap (s : Fuse) (p : Ptr) :
    ((if s.lruEnabled then s.removeNodeLru p else s).unhashId p |>.freeNode p).heap =
    Function.update s.heap p none := by
  have unhashed : ∀ t : Fuse, (t.unhashId p).heap = t.heap := by
    intro t
    unfold Fuse.unhashId
    split <;> rfl
  simp only [Fuse.freeNode,unhashed]
  split <;> rfl

theorem deleteSpares {unref : Fuse → Ptr → Except Fault Fuse} (frugal : Frugal hole unref)
    (store : Store extra hole s) (live : s.heap p = some n) (zero : n.refctr = 0)
    (inTable : n.name ≠ none → Has s.nameTable p) (apart : Apart hole p s)
    (ran : deleteNodeWith unref s p = .ok s') : Spared extra s s' := by
  obtain ⟨_,_,owed⟩ := store.shape.childless live zero
  by_cases locked : n.treelock = 0
  · rw [deleteUnlocked live locked] at ran
    obtain ⟨mid,unhash,ran⟩ := callBind ran
    cases ran
    have first : Spared extra s mid := unhashSpares frugal store live inTable (.inr ⟨zero,rfl⟩)
      (fun q table has parent without => apart.parent has live parent (store.shape.lt live) without) unhash
    intro q m pinned alive
    obtain ⟨m',there,id⟩ := first q m pinned alive
    refine ⟨m',?_,id⟩
    rw [finishedHeap,Function.update_of_ne (by rintro rfl; exact pinned owed)]
    exact there
  · rw [deleteLocked live locked] at ran
    cases ran

theorem unrefLoopFrugal (fuel : Nat) : Frugal hole (unrefLoop fuel) := by
  induction fuel with
  | zero => exact fun _ _ _ _ _ _ _ _ ran => by cases ran
  | succ fuel ih =>
    intro extra s p n s' store live apart ran
    have count := store.shape.counted p n live
    have owed : bump extra p p = extra p + 1 := if_pos rfl
    have used : n.refctr ≠ 0 := by omega
    unfold unrefLoop at ran
    rw [derefOk live] at ran
    simp only [bind,Except.bind,if_neg used] at ran
    have dropped : Spared extra s (s.put p {n with refctr := n.refctr - 1}) := .put live rfl
    split at ran
    · next last =>
      have lower : Store extra hole (s.put p {n with refctr := n.refctr - 1}) := by
        refine store.touch live ⟨rfl,rfl,rfl⟩ ?_ (fun q other => (if_neg other).symm) (fun _ => .inl used) ?_
        · simp only [Node.held]
          omega
        · rintro rfl
          obtain ⟨r,atRoot,_,positive,_⟩ := store.shape.root
          rw [live] at atRoot
          cases atRoot
          exact positive
      have now : (s.put p {n with refctr := n.refctr - 1}).heap p = some {n with refctr := n.refctr - 1} := putSelf ..
      have zero : n.refctr - 1 = 0 := by omega
      obtain ⟨unused,_,_⟩ := lower.shape.childless now zero
      have closed : hole ≠ some p := fun same => (apart p same).1 rfl
      have inTable : n.name ≠ none → Has s.nameTable p :=
        (store.shape.settled p n live used closed).2 (lower.rootHeld now unused)
      exact dropped.trans (deleteSpares ih lower now zero inTable (apart.put live rfl) ran)
    · cases ran
      exact dropped

theorem unrefNodeFrugal (hole : Option Ptr) : Frugal hole Fuse.unrefNode :=
  fun extra s p n s' => unrefLoopFrugal (s.brk+1) extra s p n s'

theorem unrefSpares (store : Store (bump extra p) none s) (live : s.heap p = some n)
    (ran : s.unrefNode p = .ok s') : Spared extra s s' :=
  unrefNodeFrugal none extra s p n s' store live (apartNone p s) ran

/-! forget_node and the cleaner. -/

theorem Steady.forgotten {left : Nat} (steady : Steady extra s) (plain : p ≠ 0) (live : s.heap p = some n)
    (positive : 0 < n.nlookup) (last : left = 0) : Store (bump extra p) none (s.put p {n with nlookup := left}) := by
  refine steady.toStore.touch live ⟨rfl,rfl,rfl⟩ ?_ (fun r other => if_neg other) (fun h => .inl h)
    (fun same => absurd same plain)
  simp only [bump,if_pos,Node.held]
  rw [if_pos positive,if_neg (by omega)]
  omega

theorem forgetSpares {nodeid : Ino} {nlookup : Nat} (steady : Steady extra s) (positive : 0 < nlookup)
    (ran : s.forgetNode nodeid nlookup = .ok s') : Spared extra s s' := by
  unfold Fuse.forgetNode at ran
  split at ran
  · cases ran
    exact Spared.refl extra _
  · next plain =>
    obtain ⟨p,get,ran⟩ := callBind ran
    obtain ⟨n,deref,ran⟩ := callBind ran
    obtain ⟨_,n',live,id⟩ := (steady.toStore.getNodeIff nodeid).mp (getNodeFound get)
    rw [derefOk live] at deref
    cases deref
    have notRoot : p ≠ 0 := by
      rintro rfl
      obtain ⟨r,atRoot,rootIs,_⟩ := steady.shape.root
      rw [live] at atRoot
      cases atRoot
      exact plain (id.symm.trans rootIs)
    split at ran
    · cases ran
    · next enough =>
      have fewer : Spared extra s (s.put p {n with nlookup := n.nlookup - nlookup}) := .put live rfl
      dsimp only at ran
      split at ran
      · next last =>
        exact fewer.trans (unrefSpares (steady.forgotten notRoot live (by omega) last) (putSelf ..) ran)
      · split at ran
        · cases ran
          exact fewer
        · cases ran
          exact fewer

/- One node dropped by the cleaner: first its name goes, then the node. -/
theorem droppedSpares {aged : Ptr → Bool} {s₁ : Fuse} (steady : Steady extra s) (plain : p ≠ 0)
    (mem : p ∈ s.lruTable) (live : s.heap p = some n) (once : n.nlookup = 1) (old : aged p)
    (few : n.refctr ≤ 1) (unhash : (s.put p {n with nlookup := 0}).unhashName p = .ok s₁)
    (unref : s₁.unrefNode p = .ok s') : Spared extra s s' := by
  obtain ⟨childless,_⟩ := steady.childless live (by omega) few
  have outcome := unhashDropped steady plain mem live once old few
  rw [unhash] at outcome
  have unhashed : Unhashed extra s p n s₁ := outcome
  obtain ⟨k,liveK,_⟩ := unhashed.node
  have now : (s.put p {n with nlookup := 0}).heap p = some {n with nlookup := 0} := putSelf ..
  have dropped : Store (bump extra p) none (s.put p {n with nlookup := 0}) := steady.forgotten plain live (by omega) rfl
  have first : Spared (bump extra p) (s.put p {n with nlookup := 0}) s₁ := by
    refine unhashSpares (unrefNodeFrugal (some p)) dropped now (steady.named live plain).mpr (.inl ⟨rfl,rfl⟩) ?_ unhash
    intro q table has above without
    have parent : n.parent = some q := above
    have none : children (s.put p {n with nlookup := 0}).heap (Has s.nameTable) s.brk p = ∅ := by
      rw [← childless]
      apply childrenCongr
      intro c
      rw [show parentOf (s.put p {n with nlookup := 0}).heap c = parentOf s.heap c from parentUpdate
        (m := {n with nlookup := 0}) live rfl c]
    rintro _ ⟨⟩
    refine ⟨?_,childrenFewer none (fun c inside => ((without c).mp inside).1)⟩
    rintro rfl
    have inside : p ∈ children s.heap (Has s.nameTable) s.brk p :=
      memChildren.mpr ⟨steady.shape.lt live,has,by simp [parentOf,live,parent]⟩
    rw [childless] at inside
    simp at inside
  have start : Spared extra s (s.put p {n with nlookup := 0}) := .put live rfl
  have middle : Spared extra (s.put p {n with nlookup := 0}) s₁ := first.fewer fun q pinned => by
    rw [bump]
    split <;> omega
  exact (start.trans middle).trans (unrefSpares unhashed.store liveK unref)

theorem cleanLoopSpares {aged : Ptr → Bool} (fuel : Nat) (cur : Option Ptr) (steady : Steady extra s)
    (enabled : s.lruEnabled) (plain : 0 ∉ s.lruTable)
    (listed : ∀ q, cur = some q → q ≠ 0 ∧ (s.heap q ≠ none → q ∈ s.lruTable))
    (ran : cleanLoop aged fuel s cur = .ok s') : Spared extra s s' := by
  induction fuel generalizing s cur with
  | zero =>
    cases cur with
    | none =>
      cases ran
      exact Spared.refl extra _
    | some p => cases ran
  | succ fuel ih =>
    cases cur with
    | none =>
      cases ran
      exact Spared.refl extra _
    | some p =>
      obtain ⟨notRoot,inside⟩ := listed p rfl
      unfold cleanLoop at ran
      obtain ⟨n,deref,ran⟩ := callBind ran
      have live := derefLive deref
      have mem := inside (by rw [live]; exact Option.some_ne_none _)
      have after : ∀ q, nextLru s.lruTable p = some q → q ≠ 0 ∧ q ∈ s.lruTable := by
        intro q next
        have there := nextLruMem next
        exact ⟨fun zero => plain (zero ▸ there),there⟩
      split_ifs at ran with old many shared
      · exact ih _ steady enabled plain (fun q next => ⟨(after q next).1,fun _ => (after q next).2⟩) ran
      · obtain ⟨s₁,unhash,ran⟩ := callBind ran
        obtain ⟨s₂,unref,ran⟩ := callBind ran
        have once : n.nlookup = 1 := by omega
        have few := Nat.not_lt.mp shared
        have outcome := cleanDrop steady notRoot enabled mem live once old few
        rw [unhash] at outcome
        have dropped := Outcome.good outcome unref
        have on : s₂.lruEnabled := by rw [Fuse.lruEnabled,dropped.swept.conf]; exact enabled
        have rest := ih _ dropped.steady on (fun zero => plain (dropped.swept.lru.subset zero))
          (fun q next => ⟨(after q next).1,dropped.stay q (after q next).2⟩) ran
        exact (droppedSpares steady notRoot mem live once old few unhash unref).trans rest
      · cases ran
        exact Spared.refl extra _

/-! One instruction of a request. -/

variable {others : List Held} {otherPins : List Ptr} {g : Ghost}

theorem SameTables.spares (same : SameTables s s') : Spared extra s s' := by
  intro q m _ live
  exact ⟨m,by rw [same.heap]; exact live,rfl⟩

theorem findSpares {parent : Ino} {name : Option Name} {found : Option Ptr} (steady : Steady extra s)
    (spare : extra s.brk = 0) (ran : s.findNode parent name = .ok (s',found)) : Spared extra s s' := by
  have outcome := findNodeSpec steady spare parent name
  rw [ran] at outcome
  cases outcome with
  | @existing p n lru live =>
    have relisted : Spared extra s {s with lruTable := lru} := .refl extra s
    exact relisted.trans (.put live rfl)
  | created asked absent steady' effect live brk lookup lookups lru rest =>
    intro q m _ alive
    obtain ⟨m',there⟩ := rest q m alive
    exact ⟨m',there,(effect.kept q m m' alive there).nodeid⟩
  | failed => exact .refl extra s

theorem unpinCounts {pins : List Ptr} (otherPins : List Ptr) (mem : p ∈ pins) : (fun q => (pins ++ otherPins).count q) =
    bump (fun q => (pins.erase p ++ otherPins).count q) p := by
  have perm : (pins ++ otherPins).Perm (p :: (pins.erase p ++ otherPins)) :=
    (List.perm_cons_erase mem).append_right otherPins
  funext q
  rw [perm.count_eq,bump]
  split
  · next here => rw [here,List.count_cons_self]
  · next other => exact List.count_cons_of_ne (Ne.symm other)

theorem getPathSpares {want : Want} {r : Except Int Held} (world : World hs pins s)
    (named : want.write = true → want.name ≠ none) (ran : s.tryGetPath want true = .ok (s',r)) : Spared extra s s' := by
  obtain ⟨_,ok,tries⟩ | ⟨fault,_⟩ := tryGetPathSpec world.tree named
  · rw [ran] at ok
    cases ok
    obtain ⟨locks,memory,is,_⟩ := tries.tree world.tree
    exact Relocked.spares ⟨locks,memory,is⟩
  · rw [ran] at fault
    cases fault

theorem getPath2Spares {want1 want2 : Want} {r : Except Int (Held × Held)} (world : World hs pins s)
    (room : hs.length + 1 < 2147483647) (named1 : want1.write = true → want1.name ≠ none)
    (named2 : want2.write = true → want2.name ≠ none) (ran : s.tryGetPath2 want1 want2 = .ok (s',r)) :
    Spared extra s s' := by
  obtain ⟨_,ok,tries⟩ | ⟨fault,_⟩ := tryGetPath2Spec world.tree world.locked room named1 named2
  · rw [ran] at ok
    cases ok
    exact Relocked.spares (tries.tighter world.tree world.locked room).relocked
  · rw [ran] at fault
    cases fault

theorem hiddenNameSpares {dir : Ino} {oldname : Name} {r : Option (Name × Except Int Bytes)}
    (world : World hs pins s) (few : Few hs) (ran : s.hiddenName dir oldname = .ok (s',r)) : Spared extra s s' := by
  unfold Fuse.hiddenName at ran
  split at ran
  · cases ran
    exact .refl _ s
  · obtain ⟨n,_,ran⟩ := callBind ran
    obtain ⟨⟨s₂,newname⟩,loop,ran⟩ := callBind ran
    obtain ⟨⟨s₃,path⟩,peeked,ran⟩ := callBind ran
    cases ran
    obtain ⟨hidectr,rfl,_⟩ := hiddenLoopSpec _ s loop
    have same : SameTables s {s with hidectr := hidectr} := ⟨rfl,rfl,rfl,rfl,Nat.le_refl _⟩
    exact same.spares.trans (peekPathSame (world.same few same).tree peeked).spares

theorem openNodeSpares {nodeid : Ino} (ran : s.openNode nodeid = .ok s') : Spared extra s s' := by
  obtain ⟨p,_,ran⟩ := callBind ran
  obtain ⟨n,deref,ran⟩ := callBind ran
  cases ran
  exact .put (derefLive deref) rfl

theorem releaseNodeSpares {nodeid : Ino} {last : Bool} (ran : s.releaseNode nodeid = .ok (s',last)) :
    Spared extra s s' := by
  obtain ⟨p,_,ran⟩ := callBind ran
  obtain ⟨n,deref,ran⟩ := callBind ran
  split at ran
  · cases ran
  · cases ran
    exact .put (derefLive deref) rfl

theorem pinNodeSpares {nodeid : Ino} {found : Option Ptr} (ran : s.pinNode nodeid = .ok (s',found)) :
    Spared extra s s' := by
  unfold Fuse.pinNode at ran
  split at ran
  · cases ran
    exact .refl _ s
  · obtain ⟨n,deref,ran⟩ := callBind ran
    cases ran
    exact .put (derefLive deref) rfl

theorem unpinNodeSpares {node : Ptr} (owed : Store (bump extra node) none s) (ran : s.unrefNode node = .ok s') :
    Spared extra s s' := by
  have unrefs := ran
  unfold Fuse.unrefNode unrefLoop at unrefs
  obtain ⟨n,deref,_⟩ := callBind unrefs
  exact unrefSpares owed (derefLive deref) ran

theorem execSpares {i : Instr} {answer : Int} {r : i.Result}
    (world : World (g.holds ++ others) (g.pins ++ otherPins) s) (knows : Knows s g) (may : May g i)
    (few : g.holds.length ≤ 2 ∧ others.length + 2 < 2147483647) (ran : s.exec answer i = .ok (s',some r)) :
    Spared (fun p => (i.pins r g.pins ++ otherPins).count p) s s' := by
  have few₁ : Few (g.holds ++ others) := by
    rw [Few,List.length_append]
    omega
  have steady := world.tree.toSteady
  cases i with
  | getPath want =>
    obtain ⟨⟨s₁,r₁⟩,tried,ran⟩ := callBind ran
    injection ran with both
    injection both with first _
    subst first
    exact getPathSpares world may.2.named tried
  | getPath2 want1 want2 =>
    obtain ⟨⟨s₁,r₁⟩,tried,ran⟩ := callBind ran
    injection ran with both
    injection both with first _
    subst first
    have room : (g.holds ++ others).length + 1 < 2147483647 := by
      rw [may.1]
      exact Nat.lt_of_succ_lt few.2
    exact getPath2Spares world room may.2.1.named may.2.2.named tried
  | freePath held =>
    obtain ⟨s₁,freed,ran⟩ := callBind ran
    cases ran
    have perm : (g.holds ++ others).Perm (held :: (g.holds.erase held ++ others)) :=
      (List.perm_cons_erase may).append_right others
    exact ((world.perm perm (.refl _)).unlock (few₁.perm perm) freed).2.spares
  | freePath2 held1 held2 =>
    obtain ⟨s₁,first,ran⟩ := callBind ran
    obtain ⟨s₂,second,ran⟩ := callBind ran
    cases ran
    exact (world.unlock2 may few₁ first second).2.spares
  | peekPath nodeid =>
    obtain ⟨⟨s₁,path⟩,peeked,ran⟩ := callBind ran
    cases ran
    exact (peekPathSame world.tree peeked).spares
  | findNode parent name =>
    obtain ⟨⟨s₁,found⟩,looked,ran⟩ := callBind ran
    have spares : Spared (fun p => (g.pins ++ otherPins).count p) s s₁ := findSpares steady world.spare looked
    cases found with
    | none =>
      cases ran
      exact spares
    | some p =>
      obtain ⟨n,_,ran⟩ := callBind ran
      cases ran
      exact spares
  | forgetNode nodeid nlookup =>
    obtain ⟨waits,_,ran⟩ := callBind ran
    cases waits with
    | true => cases ran
    | false =>
      obtain ⟨s₁,forgot,ran⟩ := callBind ran
      cases ran
      exact forgetSpares steady may forgot
  | removeNode dir name =>
    obtain ⟨s₁,removed,ran⟩ := callBind ran
    cases ran
    have outcome : Outcome _ (Removed _ s dir name) _ := removeNodeSpec steady (world.dirPinned few₁ may.2)
    exact (Outcome.good outcome removed).relabels.spares
  | renameNode olddir oldname newdir newname hide =>
    obtain ⟨⟨s₁,err⟩,moved,ran⟩ := callBind ran
    cases ran
    have outcome := renameNodeOutcome world knows may few₁
    rw [moved] at outcome
    cases outcome with
    | missing | busy => exact .refl _ s
    | moved _ _ relabels => exact relabels.spares
    | failed _ _ relabels => exact relabels.spares
  | exchangeNode olddir oldname newdir newname =>
    obtain ⟨⟨s₁,err⟩,moved,ran⟩ := callBind ran
    cases ran
    obtain ⟨_,same⟩ | outcome := exchangeNodeOutcome world knows may few₁
    · rw [moved] at same
      cases same
      exact .refl _ s
    · exact (Outcome.good outcome moved).relabels.spares
  | isOpen dir name =>
    obtain ⟨isopen,_,ran⟩ := callBind ran
    cases ran
    exact .refl _ s
  | hiddenName dir oldname =>
    obtain ⟨⟨s₁,hidden⟩,named,ran⟩ := callBind ran
    cases ran
    exact hiddenNameSpares world few₁ named
  | nodeName node =>
    obtain ⟨n,_,ran⟩ := callBind ran
    split at ran
    · cases ran
    · cases ran
      exact .refl _ s
  | nodeId node =>
    obtain ⟨n,_,ran⟩ := callBind ran
    cases ran
    exact .refl _ s
  | getNode nodeid =>
    obtain ⟨p,_,ran⟩ := callBind ran
    cases ran
    exact .refl _ s
  | openNode nodeid =>
    obtain ⟨s₁,opened,ran⟩ := callBind ran
    cases ran
    exact openNodeSpares opened
  | releaseNode nodeid =>
    obtain ⟨⟨s₁,last⟩,released,ran⟩ := callBind ran
    cases ran
    exact releaseNodeSpares released
  | pinNode nodeid =>
    obtain ⟨⟨s₁,found⟩,pinned,ran⟩ := callBind ran
    cases ran
    exact pinNodeSpares pinned
  | unpinNode node =>
    obtain ⟨s₁,unpinned,ran⟩ := callBind ran
    cases ran
    have owed := steady.toStore
    rw [unpinCounts otherPins may] at owed
    exact unpinNodeSpares owed unpinned
  | parentId nodeid =>
    obtain ⟨parent,_,ran⟩ := callBind ran
    cases ran
    exact .refl _ s
  | callback op path path2 =>
    cases ran
    exact .refl _ s
  | reply err =>
    cases ran
    exact .refl _ s

/-! A step is made of moves, each of which changes one request, or the node table alone. -/

variable {y y' : Sys} {t u : Thread} {k : Nat} {j : Instr} {next : j.Result → Prog Unit}

inductive Moves (y : Sys) : Sys → Prop
  | served {k : Nat} {t : Thread} {j : Instr} {next : j.Result → Prog Unit} {s : Fuse} {r : j.Result}
      {answer : Int} (at_ : y.threads[k]? = some t)
      (is : t.prog = .act j next) (ran : y.fuse.exec answer j = .ok (s,some r)) (phase : Phase) (lockq : List Nat) :
      Moves y ⟨s,y.threads.set k (t.take j next r phase),lockq⟩
  | refused {k : Nat} {t : Thread} {j : Instr} {next : j.Result → Prog Unit} {s : Fuse} {answer : Int}
      (at_ : y.threads[k]? = some t)
      (is : t.prog = .act j next) (ran : y.fuse.exec answer j = .ok (s,none)) : Moves y {y with fuse := s}
  | rephased {k : Nat} {t : Thread} (at_ : y.threads[k]? = some t) (phase : Phase) (lockq : List Nat) :
      Moves y ⟨y.fuse,y.threads.set k {t with phase := phase},lockq⟩
  | cleaned {aged : Ptr → Bool} {s : Fuse} (enabled : y.fuse.lruEnabled) (ran : y.fuse.cleanCache aged = .ok s) :
      Moves y {y with fuse := s}

def KeptByMoves (P : Sys → Prop) : Prop := ∀ y y', Coherent y → Moves y y' → P y → P y'

theorem Woken.keeps {P : Sys → Prop} (kept : KeptByMoves P) (woken : Woken y k y') (coherent : Coherent y)
    (holds : P y) : P y' := by
  cases woken with
  | idle => exact holds
  | signalled at_ => exact kept _ _ coherent (.rephased at_ _ _) holds
  | refused at_ _ is _ ran => exact kept _ _ coherent (.refused at_ is ran) holds
  | granted at_ _ is _ ran => exact kept _ _ coherent (.served at_ is ran _ _) holds

theorem passKeeps {P : Sys → Prop} {l : List Nat} (kept : KeptByMoves P) (coherent : Coherent y)
    (ran : l.foldlM Sys.wakeup y = .ok y') (holds : P y) :
    P y' := by
  induction l generalizing y with
  | nil =>
    cases ran
    exact holds
  | cons k rest ih =>
    obtain ⟨y₁,first,rest⟩ := callBind ran
    have woken := wakeupSpec first
    exact ih (woken.coherent coherent) rest (woken.keeps kept coherent holds)

theorem Coherent.stepKeeps {P : Sys → Prop} {action : Action} (kept : KeptByMoves P)
    (arrives : ∀ request, action = .arrive request →
      P {y with threads := y.threads ++ [⟨request.entries,request.script y.fuse.conf,[],[],.running⟩]})
    (coherent : Coherent y) (ran : y.step action = .ok y') (holds : P y) : P y' := by
  cases action with
  | arrive request =>
    cases ran
    exact arrives request rfl
  | clean aged =>
    simp only [Sys.step] at ran
    split at ran
    · next enabled =>
      obtain ⟨s,cleaned,ran⟩ := callBind ran
      cases ran
      exact kept _ _ coherent (.cleaned enabled cleaned) holds
    · cases ran
      exact holds
  | run i answer =>
    replace ran : y.run i answer = .ok y' := ran
    unfold Sys.run at ran
    cases at_ : y.threads[i]? with
    | none =>
      rw [at_] at ran
      cases ran
      exact holds
    | some t =>
      rw [at_] at ran
      dsimp only at ran
      split at ran
      · cases ran
        exact kept _ _ coherent (.rephased at_ _ _) holds
      · cases ran
        exact holds
      · next j next is _ =>
        split at ran
        · cases ran
          exact holds
        · obtain ⟨⟨s,r⟩,exec,ran⟩ := callBind ran
          cases r with
          | none =>
            cases ran
            have waits := kept _ _ coherent (.refused at_ is exec) holds
            exact kept _ _ (coherent.refused at_ is exec).1
              (Moves.rephased (y := {y with fuse := s}) at_ .waiting _) waits
          | some r =>
            have served := kept _ _ coherent (.served at_ is exec .running (y.lockq.erase i)) holds
            dsimp only at ran
            split at ran
            · next frees =>
              have start : Coherent
                  {({y with fuse := s} : Sys).put i (t.take j next r .running) with lockq := y.lockq.erase i} := by
                refine coherent.served at_ is exec ?_ (.inl rfl) (coherent.queue.leaves at_ rfl)
                intro _ _ _ _ _ e _
                rw [freesMakes frees]
                exact List.not_mem_nil
              exact passKeeps kept start ran served
            · cases ran
              exact served

theorem Coherent.servedSpares {answer : Int} {r : j.Result} (coherent : Coherent y)
    (at_ : y.threads[k]? = some t) (is : t.prog = .act j next) (ran : y.fuse.exec answer j = .ok (s,some r)) :
    Spared (fun p => (j.pins r t.pins ++ y.otherPins k).count p) y.fuse s := by
  have sane := coherent.sane k t at_
  obtain ⟨facts,keeps,knows⟩ := sane.knows
  rw [is] at keeps
  have running : t.finished = false := by rw [Thread.finished,is]
  exact @execSpares _ _ _ _ (t.ghost facts) _ _ _ (coherent.split at_) knows keeps.1
    ⟨sane.pair,coherent.room at_ running⟩ ran

theorem Coherent.refusedSpares {answer : Int} (coherent : Coherent y) (at_ : y.threads[k]? = some t)
    (is : t.prog = .act j next) (ran : y.fuse.exec answer j = .ok (s,none)) : Spared extra y.fuse s := by
  have sane := coherent.sane k t at_
  obtain ⟨facts,keeps,_⟩ := sane.knows
  rw [is] at keeps
  have running : t.finished = false := by rw [Thread.finished,is]
  have waited : Waited (t.holds ++ y.others k) (t.pins ++ y.otherPins k) j y.fuse s :=
    @execWaits _ _ _ _ (t.ghost facts) _ _ (coherent.split at_) keeps.1 ⟨sane.pair,coherent.room at_ running⟩ ran
  exact waited.relocked.spares

theorem Coherent.cleanSpares {aged : Ptr → Bool} (coherent : Coherent y) (enabled : y.fuse.lruEnabled)
    (ran : y.fuse.cleanCache aged = .ok s) :
    Spared (fun p => y.pinned.count p) y.fuse s := by
  refine cleanLoopSpares _ _ coherent.world.tree.toSteady enabled coherent.world.unlisted ?_ ran
  intro q head
  have mem := List.mem_of_head? head
  exact ⟨fun zero => coherent.world.unlisted (zero ▸ mem),fun _ => mem⟩

theorem Sys.pinsOf (at_ : y.threads[k]? = some u) {i : Nat} (other : k ≠ i) : ∀ p ∈ u.pins, p ∈ y.otherPins i := by
  intro p mem
  refine List.mem_flatMap.mpr ⟨u,?_,mem⟩
  rw [List.mem_eraseIdx_iff_getElem?]
  exact ⟨k,other,at_⟩

/- Whatever moves, a request that is not served itself is as it was, but for its phase, and the
nodes it has pinned are there. -/
inductive Stays (k : Nat) (t : Thread) (s : Fuse) (y' : Sys) : Prop
  | same (phase : Phase) (at_ : y'.threads[k]? = some {t with phase := phase})
      (spares : ∀ p ∈ t.pins, ∀ n, s.heap p = some n → ∃ n', y'.fuse.heap p = some n' ∧
        n'.nodeid = n.nodeid) : Stays k t s y'
  | served {j : Instr} {next : j.Result → Prog Unit} {r : j.Result} {answer : Int} {phase : Phase}
      (is : t.prog = .act j next)
      (ran : s.exec answer j = .ok (y'.fuse,some r)) (at_ : y'.threads[k]? = some (t.take j next r phase))
      (spares : ∀ p ∈ j.pins r t.pins, ∀ n, s.heap p = some n → ∃ n', y'.fuse.heap p = some n' ∧
        n'.nodeid = n.nodeid) : Stays k t s y'

theorem countMem {l : List Ptr} (mem : p ∈ l) : l.count p ≠ 0 := Nat.pos_iff_ne_zero.mp (List.count_pos_iff.mpr mem)

theorem Moves.stays (moves : Moves y y') (coherent : Coherent y) (at_ : y.threads[k]? = some t) :
    Stays k t y.fuse y' := by
  have mine : ∀ p ∈ t.pins, p ∈ y.pinned := fun p mem => List.mem_flatMap.mpr ⟨t,List.mem_of_getElem? at_,mem⟩
  have self : ∀ p ∈ t.pins, ∀ n, y.fuse.heap p = some n → ∃ n', y.fuse.heap p = some n' ∧ n'.nodeid = n.nodeid :=
    fun p _ n live => ⟨n,live,rfl⟩
  cases moves with
  | @served i u j next s r answer here is ran phase lockq =>
    have spares := coherent.servedSpares here is ran
    by_cases same : k = i
    · subst same
      have own : u = t := Option.some.inj (here.symm.trans at_)
      subst own
      refine .served is ran (List.getElem?_set_self (List.getElem?_eq_some_iff.mp at_).1)
        fun p mem n live => spares p n ?_ live
      exact countMem (List.mem_append_left _ mem)
    · refine .same t.phase ((List.getElem?_set_ne (Ne.symm same)).trans at_) fun p mem n live => spares p n ?_ live
      exact countMem (List.mem_append_right _ (Sys.pinsOf at_ same p mem))
  | refused here is ran =>
    have spares : Spared (fun p => y.pinned.count p) _ _ := coherent.refusedSpares here is ran
    exact .same t.phase at_ fun p mem n live => spares p n (countMem (mine p mem)) live
  | @rephased i u here phase lockq =>
    by_cases same : k = i
    · subst same
      have own : u = t := Option.some.inj (here.symm.trans at_)
      subst own
      exact .same phase (List.getElem?_set_self (List.getElem?_eq_some_iff.mp at_).1) self
    · exact .same t.phase ((List.getElem?_set_ne (Ne.symm same)).trans at_) self
  | cleaned enabled ran =>
    have spares := coherent.cleanSpares enabled ran
    exact .same t.phase at_ fun p mem n live => spares p n (countMem (mine p mem)) live

end FuseStudy.NodeStore
