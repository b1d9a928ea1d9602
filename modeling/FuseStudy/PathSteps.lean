import FuseStudy.RequestPaths

/-! What one instruction of a request does to the node table and the locks, and what it
leaves of the paths, pins and knowledge of the others. -/
namespace FuseStudy.NodeStore
open CString LinearHash Forest

variable {s s' : Fuse} {p q : Ptr} {n m : Node} {hs : List Held} {pins : List Ptr} {extra : Ptr → Nat}
  {Cut : Ptr → Prop} {Made : Ino × Name → Prop} {l : List (Ptr × Name)} {top : Ptr}

structure World (hs : List Held) (pins : List Ptr) (s : Fuse) : Prop where
  tree : Tree (fun p => pins.count p) s
  locked : Locked hs s
  below : ∀ p ∈ pins, p < s.brk
  -- the root is never forgotten
  unlisted : 0 ∉ s.lruTable

theorem World.perm {hs' : List Held} {pins' : List Ptr} (world : World hs pins s) (holds : hs.Perm hs')
    (keeps : pins.Perm pins') :
    World hs' pins' s := by
  have same : (fun p => pins.count p) = fun p => pins'.count p := funext fun p => keeps.count_eq p
  exact ⟨same ▸ world.tree,world.locked.perm holds,fun p mem => world.below p (keeps.mem_iff.mpr mem),world.unlisted⟩

theorem World.relock {hs' : List Held} (world : World hs pins s) (locks : Ptr → Int) (memory : Nat → Bool)
    (locked : Locked hs' (s.relock locks memory)) : World hs' pins (s.relock locks memory) :=
  ⟨world.tree.relock locks memory,locked,world.below,world.unlisted⟩

theorem Frame.grounded (frame : Frame Cut Made s s') {extra' : Ptr → Nat} (steady : Steady extra s)
    (steady' : Steady extra' s') (climb : Climb (upOf s.heap) p l top) (end_ : upOf s.heap top = none)
    (live : s.heap p ≠ none) (live' : s'.heap p ≠ none) (uncut : ∀ q ∈ l.map Prod.fst, ¬ Cut q)
    (last : ¬ Cut top) : Grounded (upOf s'.heap) p := by
  induction climb with
  | here p => exact ⟨[],p,.here p,(frame.upSame live live' last).trans end_⟩
  | @step p q top name rest link above ih =>
    have link' : upOf s'.heap p = some (name,q) := (frame.upSame live live' (uncut p (by simp))).trans link
    obtain ⟨more,end',climb',top'⟩ := ih end_ (steady.upLive link) (steady'.upLive link')
      (fun r mem => uncut r (by rw [List.map_cons]; exact List.mem_cons_of_mem _ mem)) last
    exact ⟨_,end',.step link' climb',top'⟩

theorem World.frame {pins' : List Ptr} (world : World hs pins s) (few : Few hs)
    (steady' : Steady (fun p => pins'.count p) s') (frame : Frame Cut Made s s') (brk : s.brk ≤ s'.brk)
    (owned : ∀ p, Cut p → 0 < writers hs p)
    (rerooted : ∀ p name q, Cut p ∨ s.heap p = none → upOf s'.heap p = some (name,q) → Grounded (upOf s'.heap) q)
    (fewer : ∀ p ∈ pins', p ∈ pins ∨ p < s.brk) (unlisted : 0 ∉ s'.lruTable) : World hs pins' s' := by
  have tree' := world.tree.frame steady' frame rerooted
  refine ⟨tree',world.locked.frame few world.tree tree' frame owned,fun p mem => Nat.lt_of_lt_of_le ?_ brk,unlisted⟩
  rcases fewer p mem with old | low
  · exact world.below p old
  · exact low

theorem World.still {pins' : List Ptr} (world : World hs pins s) (few : Few hs)
    (steady' : Steady (fun p => pins'.count p) s') (frame : Frame Never Never s s') (brk : s.brk ≤ s'.brk)
    (same : ∀ p, s.heap p = none → s'.heap p = none) (fewer : ∀ p ∈ pins', p ∈ pins ∨ p < s.brk)
    (unlisted : 0 ∉ s'.lruTable) : World hs pins' s' := by
  refine world.frame few steady' frame brk (fun p no => no.elim) ?_ fewer unlisted
  rintro p name q (no | none) up
  · exact no.elim
  · obtain ⟨n,now,_⟩ := upIff.mp up
    rw [same p none] at now
    cases now

/- What the tables tell depends on the heap and the tables alone. -/
structure SameTables (s s' : Fuse) : Prop where
  heap : s'.heap = s.heap
  names : s'.nameTable = s.nameTable
  ids : s'.idTable = s.idTable
  lru : s'.lruTable = s.lruTable
  brk : s.brk ≤ s'.brk

theorem SameTables.steady (same : SameTables s s') (steady : Steady extra s) : Steady extra s' := by
  have nameHash : s'.nameHash = s.nameHash := by
    funext r
    simp only [Fuse.nameHash,Fuse.entry,same.heap]
  have idHash : s'.idHash = s.idHash := by
    funext r
    simp only [Fuse.idHash,same.heap]
  have kids : ∀ r, children s'.heap (Has s'.nameTable) s'.brk r = children s.heap (Has s.nameTable) s.brk r := by
    intro r
    ext c
    rw [memChildren,memChildren,same.heap,same.names]
    constructor
    · rintro ⟨_,named,parent⟩
      obtain ⟨n,live,_⟩ := Option.bind_eq_some_iff.mp parent
      exact ⟨steady.shape.lt live,named,parent⟩
    · rintro ⟨low,rest⟩
      exact ⟨Nat.lt_of_lt_of_le low same.brk,rest⟩
  refine ⟨⟨?_,?_,?_⟩,?_⟩
  · rw [nameHash,same.names]
    exact steady.names
  · rw [idHash,same.ids]
    exact steady.ids
  · refine ⟨fun r above => ?_,?_,?_,?_,?_,?_,?_,?_⟩
    · rw [same.heap]
      exact steady.shape.fresh r (Nat.le_trans same.brk above)
    · rw [same.heap,same.ids]
      exact steady.shape.hashed
    · rw [same.heap,same.ids]
      exact steady.shape.distinct
    · rw [same.heap,same.names]
      exact steady.shape.named
    · rw [same.heap,same.names]
      exact steady.shape.apart
    · intro r n live
      rw [kids]
      exact steady.shape.counted r n (same.heap ▸ live)
    · rw [same.heap,same.names]
      exact steady.shape.settled
    · rw [same.heap]
      exact steady.shape.root
  · rw [same.heap,same.ids]
    exact steady.alive

theorem SameTables.lookup (same : SameTables s s') : s'.lookupNode = s.lookupNode := by
  have entries : s'.entry = s.entry := congrArg entryOf same.heap
  funext dir name
  simp only [Fuse.lookupNode,entries,same.names]

theorem SameTables.frame (same : SameTables s s') : Frame Never Never s s' := by
  refine ⟨fun r n live _ => ?_,fun r n n' live now => ?_,fun r n' none now => ?_,fun dir name r found _ _ => ?_,
    fun dir name none _ => ?_⟩
  · rw [same.heap,live]
    nofun
  · rw [same.heap,live] at now
    cases now
    exact ⟨rfl,rfl,fun _ => ⟨rfl,rfl⟩⟩
  · rw [same.heap,none] at now
    cases now
  · rwa [same.lookup]
  · rwa [same.lookup]

theorem World.same (world : World hs pins s) (few : Few hs) (same : SameTables s s') : World hs pins s' :=
  world.still few (same.steady world.tree.toSteady) same.frame same.brk
    (fun p none => by rw [same.heap,none]) (fun _ => .inl)
    (same.lru ▸ world.unlisted)

/- What a request knows is true, it owns the nodes it knows of, and others keep away from
the entries it knows to be empty. -/
structure Knows (s : Fuse) (g : Ghost) : Prop where
  told : ∀ dir name node, g.facts (dir,name) = some node → s.lookupNode dir name = node
  mine : ∀ e p, g.facts e = some (some p) → ∃ h ∈ g.holds, h.wnode = some p
  entry : ∀ e, g.facts e = some none → e ∈ g.entries

theorem Knows.nothing (s : Fuse) {g : Ghost} (none : g.facts = forgotten) : Knows s g := by
  refine ⟨fun dir name node is => ?_,fun e p is => ?_,fun e is => ?_⟩ <;> rw [none] at is <;> cases is

theorem World.owned {h : Held} (world : World hs pins s) (mem : h ∈ hs) (is : h.wnode = some p) :
    0 < writers hs p ∧ ∃ n, s.heap p = some n ∧ n.treelock = treelockWrite := by
  obtain ⟨_,_,_,_,_,_,_,wnode⟩ := world.locked.stands h mem
  obtain ⟨n,live⟩ := Option.ne_none_iff_exists'.mp (wnode p is)
  have owner := writersPos.mpr ⟨h,mem,is⟩
  exact ⟨owner,n,live,((world.locked.state p n live).ofOwner owner).2.2⟩

theorem World.apart {h : Held} {hs' : List Held} (world : World hs pins s) (split : hs.Perm (h :: hs'))
    (is : h.wnode = some p) :
    ∀ k ∈ hs', k.wnode ≠ some p := by
  intro k mem other
  have world := world.perm split (.refl _)
  obtain ⟨owner,n,live,_⟩ := world.owned List.mem_cons_self is
  have one := ((world.locked.state p n live).ofOwner owner).1
  have more : 0 < writers hs' p := writersPos.mpr ⟨k,mem,other⟩
  rw [writers,List.countP_cons,if_pos (by simpa using is)] at one
  rw [writers] at more
  omega

/- The knowledge of a request survives what moves only other nodes and fills only other entries. -/
theorem Knows.frame {g : Ghost} (knows : Knows s g) (frame : Frame Cut Made s s') (world : World hs pins s)
    (mine : ∀ h ∈ g.holds, h ∈ hs) (uncut : ∀ h ∈ g.holds, ∀ p, h.wnode = some p → ¬ Cut p)
    (unmade : ∀ e ∈ g.entries, ¬ Made e) : Knows s' g := by
  refine ⟨fun dir name node is => ?_,knows.mine,knows.entry⟩
  have found := knows.told dir name node is
  cases node with
  | none => exact frame.absent dir name found (unmade _ (knows.entry _ is))
  | some p =>
    obtain ⟨h,mem,owns⟩ := knows.mine _ p is
    obtain ⟨_,n,live,write⟩ := world.owned (mine h mem) owns
    refine frame.found dir name p found (uncut h mem p owns) (frame.locked p n live ?_)
    rw [write,treelockWrite]
    decide

theorem Knows.lookups {g : Ghost} (knows : Knows s g) (same : s'.lookupNode = s.lookupNode) : Knows s' g :=
  ⟨fun dir name node is => by rw [same]; exact knows.told dir name node is,knows.mine,knows.entry⟩

def Relocked (s s' : Fuse) : Prop := ∃ locks memory, s' = s.relock locks memory

theorem Relocked.trans {s₂ : Fuse} (first : Relocked s s') (second : Relocked s' s₂) : Relocked s s₂ := by
  obtain ⟨locks,memory,rfl⟩ := first
  obtain ⟨locks₂,memory₂,rfl⟩ := second
  exact ⟨locks₂,memory₂,relockRelock ..⟩

theorem Relocked.lookups (relocked : Relocked s s') : s'.lookupNode = s.lookupNode := by
  obtain ⟨locks,memory,rfl⟩ := relocked
  exact funext fun dir => funext fun name => lookupRelock dir name

/- The nodes on the paths that are held stay, with their names and in their places. -/
def Firm (hs : List Held) (s s' : Fuse) : Prop :=
  ∀ h ∈ hs, ∀ p ∈ s.chainOf h.want.nodeid, ∃ n n', s.heap p = some n ∧ s'.heap p = some n' ∧
    n'.name = n.name ∧ n'.parent = n.parent

theorem World.chainLive {h : Held} (world : World hs pins s) (mem : h ∈ hs) (passed : p ∈ s.chainOf h.want.nodeid) :
    ∃ n, s.heap p = some n := by
  obtain ⟨q,l,top,found,climb,root,_⟩ := world.locked.stands h mem
  obtain ⟨_,d,alive,_⟩ := (world.tree.toStore.getNodeIff h.want.nodeid).mp found
  rw [world.tree.chain found climb root] at passed
  exact Option.ne_none_iff_exists'.mp ((world.tree.toSteady.climbLive (by rw [alive]; nofun) climb).1 p passed)

theorem World.firmSame (world : World hs pins s) : Firm hs s s := by
  intro h mem p passed
  obtain ⟨n,live⟩ := world.chainLive mem passed
  exact ⟨n,n,live,live,rfl,rfl⟩

theorem World.firmRelock (world : World hs pins s) (relocked : Relocked s s') : Firm hs s s' := by
  obtain ⟨locks,memory,rfl⟩ := relocked
  intro h mem p passed
  obtain ⟨n,live⟩ := world.chainLive mem passed
  exact ⟨n,_,live,relockAt live,rfl,rfl⟩

theorem World.firmFrame (world : World hs pins s) (few : Few hs) (frame : Frame Cut Made s s')
    (owned : ∀ p, Cut p → 0 < writers hs p) : Firm hs s s' := by
  intro h mem p passed
  obtain ⟨live,live',uncut⟩ := world.locked.stays few world.tree mem passed frame owned
  obtain ⟨n,was⟩ := Option.ne_none_iff_exists'.mp live
  obtain ⟨n',now⟩ := Option.ne_none_iff_exists'.mp live'
  obtain ⟨_,_,entry⟩ := frame.kept p n n' was now
  exact ⟨n,n',was,now,entry uncut⟩

structure Ran (others : List Held) (otherPins : List Ptr) (g : Ghost) (i : Instr) (s s' : Fuse) (r : i.Result) :
    Prop where
  tells : Tells g i r
  world : World (i.holds r g.holds ++ others) (i.pins r g.pins ++ otherPins) s'
  knows : Knows s' (g.next i r)
  firm : Firm (g.holds ++ others) s s'
  framed : i.isPath = false → i.frees = false → ∃ Cut Made, Frame Cut Made s s'
  others : ∀ k : Ghost, Knows s k → (∀ h ∈ k.holds, h ∈ others) → (∀ e ∈ k.entries, e ∉ i.makes) → Knows s' k

structure Waited (hs : List Held) (pins : List Ptr) (i : Instr) (s s' : Fuse) : Prop where
  kind : i.isPath = true ∨ ∃ nodeid nlookup, i = .forgetNode nodeid nlookup
  world : World hs pins s'
  relocked : Relocked s s'

variable {others : List Held} {otherPins : List Ptr} {g : Ghost}

structure Granted (hs : List Held) (pins : List Ptr) (s : Fuse) (want : Want) (s' : Fuse) (held : Held) : Prop where
  world : World (held :: hs) pins s'
  asked : held.want = want
  wnode : held.wnode = want.target s
  relocked : Relocked s s'

theorem Tried.grants {want : Want} {held : Held} (tried : Tried s want (s',.ok held))
    (world : World hs pins s) (few : Few hs) :
    Granted hs pins s want s' held := by
  obtain ⟨locks,memory,is,_⟩ := tried.tree world.tree
  obtain ⟨locked,want,wnode⟩ := tried.held world.tree world.locked few
  dsimp only at is
  subst is
  exact ⟨world.relock locks memory locked,want,wnode,locks,memory,rfl⟩

theorem Tried.fails {want : Want} {err : Int} (tried : Tried s want (s',.error err)) (world : World hs pins s)
    (few : Few hs) :
    World hs pins s' ∧ Relocked s s' := by
  obtain ⟨locks,memory,is,_⟩ := tried.tree world.tree
  have locked := tried.failed world.locked few
  dsimp only at is
  subst is
  exact ⟨world.relock locks memory locked,locks,memory,rfl⟩

theorem Tried2.fails {want1 want2 : Want} {err : Int} (tried : Tried2 s want1 want2 (s',.error err))
    (world : World hs pins s) (few : Few hs) : World hs pins s' ∧ Relocked s s' := by
  cases tried with
  | refused memory _ => exact ⟨world.relock _ _ (world.locked.same memory),_,memory,rfl⟩
  | marked memory _ _ => exact ⟨world.relock _ _ (world.locked.marked few _ memory),_,memory,rfl⟩

theorem Knows.learned (knows : Knows s g) {want : Want} {held : Held} (wants : g.wants want)
    (wnode : held.wnode = want.target s) (lookups : s'.lookupNode = s.lookupNode) {holds : List Held}
    (mem : held ∈ holds) (more : ∀ h ∈ g.holds, h ∈ holds) (pins : List Ptr) :
    Knows s' ⟨g.entries,holds,pins,learn g.facts want held⟩ := by
  have kept := knows.lookups lookups
  obtain ⟨nodeid,name,write⟩ := want
  cases write with
  | false =>
    refine ⟨kept.told,fun e p is => ?_,kept.entry⟩
    obtain ⟨h,old,owns⟩ := kept.mine e p is
    exact ⟨h,more h old,owns⟩
  | true =>
    obtain ⟨nm,is,listed⟩ := wants rfl
    dsimp only at is listed
    subst is
    have at_ : s.lookupNode nodeid nm = held.wnode := wnode.symm
    refine ⟨fun dir name node is => ?_,fun e p is => ?_,fun e is => ?_⟩
    · by_cases here : (dir,name) = (nodeid,nm)
      · cases here
        simp only [learn,Function.update_self,Option.some.injEq] at is
        rw [lookups,at_,is]
      · simp only [learn,Function.update_of_ne here] at is
        exact kept.told dir name node is
    · by_cases here : e = (nodeid,nm)
      · cases here
        simp only [learn,Function.update_self,Option.some.injEq] at is
        exact ⟨held,mem,is⟩
      · simp only [learn,Function.update_of_ne here] at is
        obtain ⟨h,old,owns⟩ := kept.mine e p is
        exact ⟨h,more h old,owns⟩
    · by_cases here : e = (nodeid,nm)
      · rw [here]
        exact listed
      · simp only [learn,Function.update_of_ne here] at is
        exact kept.entry e is

theorem answeredSome {α : Type} {r r' : Except Int α} (is : answered r = some r') : r' = r := by
  unfold answered at is
  split at is
  · cases is; rfl
  · split at is
    · cases is
    · cases is; rfl

theorem answeredNone {α : Type} {r : Except Int α} (is : answered r = none) : r = .error (-eagain) := by
  unfold answered at is
  split at is
  · cases is
  · split at is
    · next err again => rw [again]
    · cases is

theorem Ghost.wants.named {want : Want} (wants : g.wants want) : want.write = true → want.name ≠ none := by
  intro write
  obtain ⟨name,is,_⟩ := wants write
  rw [is]
  nofun

theorem getPathRan {want : Want} {r : Except Int Held}
    (world : World (g.holds ++ others) (g.pins ++ otherPins) s) (knows : Knows s g)
    (may : May g (.getPath want)) (few : Few (g.holds ++ others)) (ran : s.tryGetPath want true = .ok (s',r)) :
    Ran others otherPins g (.getPath want) s s' r := by
  obtain ⟨_,wants⟩ := may
  obtain ⟨_,ok,tried⟩ | ⟨fault,_⟩ := tryGetPathSpec world.tree wants.named
  · rw [ran] at ok
    cases ok
    cases r with
    | ok held =>
      have granted := tried.grants world few
      exact ⟨granted.asked,granted.world,knows.learned wants granted.wnode granted.relocked.lookups List.mem_cons_self
        (fun h mem => List.mem_cons_of_mem _ mem) _,world.firmRelock granted.relocked,nofun,
          fun k known _ _ => known.lookups granted.relocked.lookups⟩
    | error err =>
      obtain ⟨world',relocked⟩ := tried.fails world few
      exact ⟨trivial,world',knows.lookups relocked.lookups,world.firmRelock relocked,nofun,
        fun k known _ _ => known.lookups relocked.lookups⟩
  · rw [ran] at fault
    cases fault

theorem getPath2Ran {want1 want2 : Want} {r : Except Int (Held × Held)}
    (world : World (g.holds ++ others) (g.pins ++ otherPins) s) (knows : Knows s g)
    (may : May g (.getPath2 want1 want2)) (few : others.length + 1 < 2147483647)
    (ran : s.tryGetPath2 want1 want2 = .ok (s',r)) : Ran others otherPins g (.getPath2 want1 want2) s s' r := by
  obtain ⟨none,wants1,wants2⟩ := may
  have few₁ : Few (g.holds ++ others) := by
    rw [none]
    exact Nat.lt_of_succ_lt few
  have room : (g.holds ++ others).length + 1 < 2147483647 := by rw [none]; exact few
  obtain ⟨_,ok,tried⟩ | ⟨fault,_⟩ := tryGetPath2Spec world.tree world.locked room wants1.named wants2.named
  · rw [ran] at ok
    cases ok
    cases r with
    | error err =>
      obtain ⟨world',relocked⟩ := tried.fails world few₁
      exact ⟨trivial,world',knows.lookups relocked.lookups,world.firmRelock relocked,nofun,
        fun k known _ _ => known.lookups relocked.lookups⟩
    | ok both =>
      cases tried with
      | @granted s₁ _ held1 held2 first second =>
        have granted1 := first.grants world few₁
        have granted2 := second.grants granted1.world room
        have relocked := granted1.relocked.trans granted2.relocked
        have target : want2.target s₁ = want2.target s := by simp only [Want.target,granted1.relocked.lookups]
        have final := granted2.world.perm (List.Perm.swap held1 held2 _) (.refl _)
        refine ⟨⟨granted1.asked,granted2.asked,?_⟩,final,?_,world.firmRelock relocked,nofun,
          fun k known _ _ => known.lookups relocked.lookups⟩
        · intro write1 write2 dir name
          have same : held1.wnode = held2.wnode := by
            rw [granted1.wnode,granted2.wnode,target,Want.target,Want.target,dir,name,write1,write2]
          cases is : held2.wnode with
          | none => rfl
          | some p =>
            exact absurd is (final.apart (.refl _) (same.trans is) held2 List.mem_cons_self)
        · have mine : held1 ∈ held1 :: held2 :: g.holds := List.mem_cons_self
          have one := knows.learned wants1 granted1.wnode granted1.relocked.lookups mine
            (fun h mem => by simp [mem]) g.pins
          exact one.learned wants2 granted2.wnode granted2.relocked.lookups (by simp) (fun h mem => mem) g.pins
  · rw [ran] at fault
    cases fault

/-! Giving paths back. -/

theorem World.unlock {h : Held} (world : World (h :: hs) pins s) (few : Few (h :: hs))
    (ran : s.unlockPath h.want.nodeid h.wnode none = .ok s') : World hs pins s' ∧ Relocked s s' := by
  obtain ⟨_,_,_,_,_,_,ok,locked⟩ := world.locked.unlocked few world.tree
  rw [ran] at ok
  cases ok
  exact ⟨world.relock _ _ locked,_,_,rfl⟩

theorem freePathRan {held : Held} (world : World (g.holds ++ others) (g.pins ++ otherPins) s)
    (may : May g (.freePath held)) (few : Few (g.holds ++ others))
    (ran : s.unlockPath held.want.nodeid held.wnode none = .ok s') :
    Ran others otherPins g (.freePath held) s s' () := by
  have perm : (g.holds ++ others).Perm (held :: (g.holds.erase held ++ others)) :=
    (List.perm_cons_erase may).append_right others
  obtain ⟨world',relocked⟩ := (world.perm perm (.refl _)).unlock (few.perm perm) ran
  exact ⟨trivial,world',.nothing s' rfl,world.firmRelock relocked,nofun,fun k known _ _ =>
    known.lookups relocked.lookups⟩

theorem World.unlock2 {held1 held2 : Held} {s₁ : Fuse} (world : World (g.holds ++ others) pins s)
    (may : May g (.freePath2 held1 held2)) (few : Few (g.holds ++ others))
    (first : s.unlockPath held1.want.nodeid held1.wnode none = .ok s₁)
    (second : s₁.unlockPath held2.want.nodeid held2.wnode none = .ok s') :
    World ((g.holds.erase held1).erase held2 ++ others) pins s' ∧ Relocked s s' := by
  have perm : (g.holds ++ others).Perm (held1 :: (g.holds.erase held1 ++ others)) :=
    (List.perm_cons_erase may.1).append_right others
  have perm2 : (g.holds.erase held1 ++ others).Perm (held2 :: ((g.holds.erase held1).erase held2 ++ others)) :=
    (List.perm_cons_erase may.2).append_right others
  obtain ⟨world₁,relocked₁⟩ := (world.perm perm (.refl _)).unlock (few.perm perm) first
  have few₁ : Few (g.holds.erase held1 ++ others) := Nat.lt_of_succ_lt (few.perm perm)
  obtain ⟨world₂,relocked₂⟩ := (world₁.perm perm2 (.refl _)).unlock (few₁.perm perm2) second
  exact ⟨world₂,relocked₁.trans relocked₂⟩

theorem freePath2Ran {held1 held2 : Held} {s₁ : Fuse} (world : World (g.holds ++ others) (g.pins ++ otherPins) s)
    (may : May g (.freePath2 held1 held2)) (few : Few (g.holds ++ others))
    (first : s.unlockPath held1.want.nodeid held1.wnode none = .ok s₁)
    (second : s₁.unlockPath held2.want.nodeid held2.wnode none = .ok s') :
    Ran others otherPins g (.freePath2 held1 held2) s s' () := by
  obtain ⟨world₂,relocked⟩ := world.unlock2 may few first second
  exact ⟨trivial,world₂,.nothing s' rfl,world.firmRelock relocked,nofun,fun k known _ _ =>
    known.lookups relocked.lookups⟩

/-! Looking up. -/

theorem findNodeAsked {parent : Ino} {name : Name} (steady : Steady extra s) (spare : extra s.brk = 0)
    (absent : s.lookupNode parent name = none) (unknown : s.getNodeNocheck parent = none) :
    s.findNode parent (some name) ≠ .ok (s',some p) := by
  intro ran
  unfold Fuse.findNode at ran
  simp only [bind,Except.bind,absent,Fuse.takeMem] at ran
  cases memory : s.memory 0 with
  | false =>
    simp only [memory,Bool.false_eq_true,if_false] at ran
    cases ran
  | true =>
    simp only [memory,if_true] at ran
    have zero := steady.allocated spare (fun i => s.memory (i+1)) s.ctr s.generation (n := Node.zero) ⟨rfl,rfl,rfl⟩
    rcases nextIdLoopSpec (2 ^ 32) ({s with
        brk := s.brk + 1, ctr := s.ctr, generation := s.generation, memory := fun i => s.memory (i+1)}.put
        s.brk Node.zero) with exhausted | ⟨ctr,generation,next,_⟩
    · rw [Fuse.nextId,exhausted] at ran
      cases ran
    · rw [Fuse.nextId,next] at ran
      simp only [putOver] at ran
      have fault : ∀ n : Node, n.name = none ∧ n.parent = none ∧ n.refctr = n.held →
          ({s with brk := s.brk + 1, ctr := ctr, generation := generation, memory := fun i => s.memory (i+1)}.put
            s.brk n).hashName s.brk parent name = .error .getNode := by
        intro n blank
        have store := steady.allocated spare (fun i => s.memory (i+1)) ctr generation blank
        obtain ⟨same,_⟩ := steady.allocatedLookup store parent name
        simp only [Fuse.hashName,Fuse.getNode,same,unknown,bind,Except.bind]
      rw [fault] at ran
      · cases ran
      · split <;> exact ⟨rfl,rfl,rfl⟩

theorem World.spare (world : World hs pins s) : (fun p => pins.count p) s.brk = 0 :=
  List.count_eq_zero.mpr fun mem => Nat.lt_irrefl _ (world.below _ mem)

theorem findNodeWorld {parent : Ino} {name : Option Name} {found : Option Ptr} (world : World hs pins s) (few : Few hs)
    (ran : s.findNode parent name = .ok (s',found)) :
    World hs pins s' ∧ ∃ Made, Frame Never Made s s' ∧ ∀ e, Made e → ∃ nm, name = some nm ∧ e = (parent,nm) := by
  have outcome := findNodeSpec world.tree.toSteady world.spare parent name
  rw [ran] at outcome
  cases outcome with
  | @existing p n lru live how lruIs steady =>
    have entry : n.SameEntry n.incNlookup := ⟨rfl,rfl,rfl⟩
    have frame := touchFrame live entry rfl lru
    refine ⟨world.still few steady frame (Nat.le_refl _) ?_ (fun _ => .inl) ?_,Never,frame,fun _ no => no.elim⟩
    · intro q none
      exact (putOther (by rintro rfl; rw [live] at none; cases none) ..).trans none
    · subst lruIs
      intro zero
      simp only [Fuse.put] at zero
      split at zero
      · exact world.unlisted (List.mem_of_mem_erase zero)
      · exact world.unlisted zero
  | @created nm _ n asked absent steady effect live brk lookup lookups lru rest ids stale =>
    subst asked
    have frame := effect.frame world.tree.toSteady steady
    refine ⟨world.frame few steady frame (by rw [brk]; exact Nat.le_succ _) (fun _ no => no.elim) ?_ (fun _ => .inl)
      (by rw [lru]; exact world.unlisted),_,frame,
      fun e is => ⟨nm,rfl,is⟩⟩
    rintro q label d (no | none) up
    · exact no.elim
    have alive := steady.upLive up
    cases was : s.heap d with
    | some k =>
      obtain ⟨l,top,climb,end_⟩ := world.tree.grounded d (by rw [was]; exact Option.some_ne_none _)
      exact frame.grounded world.tree.toSteady steady climb end_
        (by rw [was]; exact Option.some_ne_none _) alive (fun _ _ no => no) (fun no => no)
    | none =>
      -- only the new node itself is left, and its parent was known before it
      have fresh : ∀ r, s.heap r = Option.none → s'.heap r ≠ Option.none → r = s.brk := by
        intro r gone there
        obtain ⟨k,now⟩ := Option.ne_none_iff_exists'.mp there
        have low := steady.shape.lt now
        rw [brk] at low
        exact Nat.le_antisymm (Nat.le_of_lt_succ low) (effect.new r k gone now).1
      have same := fresh d was alive
      subst same
      obtain ⟨k,now,_,named,parent'⟩ := upIff.mp up
      have here := fresh q none (by rw [now]; exact Option.some_ne_none _)
      subst here
      obtain ⟨e,at_,is⟩ := effect.made s.brk (.inr none) ((steady.toStore.lookupIff parent nm).mp lookup).1
      subst is
      obtain ⟨n',q',d',live',_,parent₂,alive',id⟩ := entryIff.mp at_
      rw [now] at live'
      cases live'
      rw [parent'] at parent₂
      cases parent₂
      rw [live] at alive'
      cases alive'
      have unknown := ids.1
      rw [id] at unknown
      exact absurd ran (findNodeAsked world.tree.toSteady world.spare absent unknown)
  | @failed nm brk ctr generation memory asked absent steady grown =>
    have same : SameTables s {s with brk := brk, ctr := ctr, generation := generation, memory := memory} :=
      ⟨rfl,rfl,rfl,rfl,grown⟩
    exact ⟨world.same few same,Never,same.frame,fun _ no => no.elim⟩

theorem findNodeRan {parent : Ino} {name : Option Name} {found : Option Ptr} (r : Option Ino)
    (world : World (g.holds ++ others) (g.pins ++ otherPins) s) (knows : Knows s g)
    (may : May g (.findNode parent name)) (few : Few (g.holds ++ others))
    (ran : s.findNode parent name = .ok (s',found)) :
    Ran others otherPins g (.findNode parent name) s s' r := by
  obtain ⟨world',Made,frame,made⟩ := findNodeWorld world few ran
  refine ⟨trivial,world',?_,world.firmFrame few frame fun _ no => no.elim,fun _ _ => ⟨_,_,frame⟩,?_⟩
  · refine knows.frame frame world (fun h mem => List.mem_append_left _ mem) (fun _ _ _ _ no => no) ?_
    intro e mem is
    obtain ⟨nm,named,rfl⟩ := made e is
    exact may nm named mem
  · intro k known mine unmade
    refine known.frame frame world (fun h mem => List.mem_append_right _ (mine h mem)) (fun _ _ _ _ no => no) ?_
    intro e mem is
    obtain ⟨nm,named,rfl⟩ := made e is
    apply unmade _ mem
    rw [named]
    exact List.mem_singleton_self _

/-! Operations on the names. -/

theorem World.inside {dir : Ino} {h : Held} (world : World hs pins s) (few : Few hs) (mem : h ∈ hs)
    (is : h.want.nodeid = dir) :
    DirPinned s dir := by
  intro q found d alive
  obtain ⟨p,l,top,found',climb,root,_⟩ := world.locked.stands h mem
  have chain := world.tree.chain found' climb root
  rw [is,found] at found'
  cases found'
  cases climb with
  | here =>
    obtain ⟨r,atRoot,_,used,_⟩ := world.tree.shape.root
    rw [world.tree.rootIs root,atRoot] at alive
    cases alive
    exact .inl used
  | step link above =>
    have passed : q ∈ s.chainOf h.want.nodeid := by
      rw [chain]
      exact List.mem_cons_self
    have reads := readersPos.mpr ⟨h,mem,passed⟩
    exact .inr ((world.locked.state q d alive).ofReader reads (few.readers s q)).2.1

theorem relabelsWorld {Hide : Ptr → Prop} {count : Ptr → Nat → Nat} (world : World hs pins s) (few : Few hs)
    (relabels : Relabels Cut Hide Made count s s') (steady' : Steady (fun p => pins.count p) s')
    (owned : ∀ p, Cut p → 0 < writers hs p) (inside : ∀ e, Made e → ∃ h ∈ hs, h.want.nodeid = e.1) :
    World hs pins s' ∧ Frame Cut Made s s' := by
  have steady := world.tree.toSteady
  have live : ∀ p, Cut p → s.heap p ≠ none := by
    intro p cut
    obtain ⟨h,mem,is⟩ := writersPos.mp (owned p cut)
    obtain ⟨_,n,live,_⟩ := world.owned mem is
    rw [live]
    nofun
  have frame := (relabels.effect steady steady' live).frame steady steady'
  refine ⟨world.frame few steady' frame (Nat.le_of_eq relabels.brk.symm) owned ?_ (fun _ => .inl)
    (by rw [relabels.lruTable]; exact world.unlisted),frame⟩
  intro p name q moved up
  obtain ⟨n,now,notRoot,named,parent⟩ := upIff.mp up
  have cut : Cut p := by
    refine moved.resolve_right fun none => ?_
    rw [relabels.absent p none] at now
    cases now
  have plain : p ≠ 0 := by
    rintro rfl
    obtain ⟨r,atRoot,is,_⟩ := steady'.shape.root
    rw [now] at atRoot
    cases atRoot
    exact notRoot is
  obtain ⟨e,at_,made⟩ := relabels.made p cut ((steady'.named now plain).mpr (by rw [named]; nofun))
  obtain ⟨h,mem,is⟩ := inside e made
  obtain ⟨d,l,top,found,climb,root,_⟩ := (world.locked.standsFrame few world.tree steady' frame owned mem).1
  obtain ⟨n',q',k,now',_,parent',alive,id⟩ := entryIff.mp at_
  rw [now] at now'
  cases now'
  rw [parent] at parent'
  cases parent'
  have here := (steady'.toStore.getNodeIff h.want.nodeid).mpr ⟨(steady'.alive q k alive).1,k,alive,id.trans is.symm⟩
  rw [found] at here
  cases here
  exact ⟨l,top,climb,root.top⟩

theorem relabelsRan {i : Instr} {r : i.Result} {Hide : Ptr → Prop} {count : Ptr → Nat → Nat}
    (world : World (g.holds ++ others) (g.pins ++ otherPins) s) (few : Few (g.holds ++ others))
    (relabels : Relabels Cut Hide Made count s s') (steady' : Steady (fun p => (g.pins ++ otherPins).count p) s')
    (mine : ∀ p, Cut p → ∃ h ∈ g.holds, h.wnode = some p) (made : ∀ e, Made e → e ∈ i.makes ∧ g.inside e.1)
    (holds : i.holds r g.holds = g.holds) (keeps : i.pins r g.pins = g.pins) (tells : Tells g i r)
    (after : Frame Cut Made s s' → Knows s' (g.next i r)) : Ran others otherPins g i s s' r := by
  have owned : ∀ p, Cut p → 0 < writers (g.holds ++ others) p := by
    intro p cut
    obtain ⟨h,mem,is⟩ := mine p cut
    exact writersPos.mpr ⟨h,List.mem_append_left _ mem,is⟩
  obtain ⟨world',frame⟩ := relabelsWorld world few relabels steady' owned (fun e is => by
    obtain ⟨h,mem,dir⟩ := (made e is).2
    exact ⟨h,List.mem_append_left _ mem,dir⟩)
  refine ⟨tells,by rw [holds,keeps]; exact world',after frame,world.firmFrame few frame owned,fun _ _ => ⟨_,_,frame⟩,?_⟩
  intro k known theirs unmade
  refine known.frame frame world (fun h mem => List.mem_append_right _ (theirs h mem)) ?_
    (fun e mem is => unmade e mem (made e is).1)
  intro h mem p is cut
  obtain ⟨h',mem',is'⟩ := mine p cut
  have perm : (g.holds ++ others).Perm (h' :: (g.holds.erase h' ++ others)) :=
    (List.perm_cons_erase mem').append_right others
  exact world.apart perm is' h (List.mem_append_right _ (theirs h mem)) is

theorem Knows.owner (knows : Knows s g) {dir : Ino} {name : Name} (known : g.facts (dir,name) ≠ none)
    (found : s.lookupNode dir name = some p) :
    g.facts (dir,name) = some (some p) ∧ ∃ h ∈ g.holds, h.wnode = some p := by
  obtain ⟨node,fact⟩ := Option.ne_none_iff_exists'.mp known
  have told := knows.told dir name node fact
  rw [found] at told
  subst told
  exact ⟨fact,knows.mine _ p fact⟩

theorem World.dirPinned (world : World (g.holds ++ others) pins s) (few : Few (g.holds ++ others)) {dir : Ino}
    (inside : g.inside dir) : DirPinned s dir := by
  obtain ⟨h,mem,is⟩ := inside
  exact world.inside few (List.mem_append_left _ mem) is

theorem removeNodeRan {dir : Ino} {name : Name} (world : World (g.holds ++ others) (g.pins ++ otherPins) s)
    (knows : Knows s g) (may : May g (.removeNode dir name)) (few : Few (g.holds ++ others))
    (ran : s.removeNode dir name = .ok s') :
    Ran others otherPins g (.removeNode dir name) s s' () := by
  obtain ⟨known,inside⟩ := may
  have outcome : Outcome _ (Removed _ s dir name) _ := removeNodeSpec world.tree.toSteady (world.dirPinned few inside)
  rw [ran] at outcome
  obtain ⟨steady',relabels,_⟩ := outcome
  exact relabelsRan world few relabels steady' (fun p cut => (knows.owner known cut).2)
    (fun e no => no.elim) rfl rfl trivial
    fun _ => .nothing s' rfl

/- What hiding a node tells: it has the new name, and nothing has the old one. -/
theorem hideKnows {dir newdir : Ino} {name newname : Name} {Hide : Ptr → Prop} {count : Ptr → Nat → Nat}
    (steady : Steady extra s) (steady' : Steady extra s') (knows : Knows s g)
    (relabels : Relabels (· = p) Hide (· = (newdir,newname)) count s s')
    (alive : ∀ q, (∃ h ∈ g.holds, h.wnode = some q) → s'.heap q ≠ none)
    (source : s.lookupNode dir name = some p) (target : s'.lookupNode newdir newname = some p)
    (apart : (dir,name) ≠ (newdir,newname)) (mine : (dir,name) ∈ g.entries)
    (owner : ∃ h ∈ g.holds, h.wnode = some p) (frame : Frame (· = p) (· = (newdir,newname)) s s') :
    Knows s' ⟨g.entries,g.holds,g.pins,
      Function.update (Function.update g.facts (newdir,newname) (some (some p))) (dir,name) (some none)⟩ := by
  refine ⟨fun dir' name' node is => ?_,fun e q is => ?_,fun e is => ?_⟩
  · by_cases old : (dir',name') = (dir,name)
    · cases old
      simp only [Function.update_self,Option.some.injEq] at is
      subst is
      rw [Option.eq_none_iff_forall_ne_some]
      intro q found
      by_cases here : q = p
      · rw [here] at found
        exact apart (steady'.toStore.lookupSame found target)
      · have before := (relabels.lookup steady steady' here).mp found
        rw [source] at before
        cases before
        exact here rfl
    · simp only [Function.update_of_ne old] at is
      by_cases new : (dir',name') = (newdir,newname)
      · cases new
        simp only [Function.update_self,Option.some.injEq] at is
        rw [target,is]
      · simp only [Function.update_of_ne new] at is
        have found := knows.told dir' name' node is
        cases node with
        | none => exact frame.absent dir' name' found new
        | some q =>
          have other : q ≠ p := by
            rintro rfl
            exact old (steady.toStore.lookupSame found source)
          exact frame.found dir' name' q found other (alive q (knows.mine _ q is))
  · by_cases old : e = (dir,name)
    · rw [old] at is
      simp only [Function.update_self,Option.some.injEq,reduceCtorEq] at is
    · simp only [Function.update_of_ne old] at is
      by_cases new : e = (newdir,newname)
      · rw [new] at is
        simp only [Function.update_self,Option.some.injEq] at is
        rw [← is]
        exact owner
      · simp only [Function.update_of_ne new] at is
        exact knows.mine e q is
  · by_cases old : e = (dir,name)
    · rw [old]
      exact mine
    · simp only [Function.update_of_ne old] at is
      by_cases new : e = (newdir,newname)
      · rw [new] at is
        simp only [Function.update_self,Option.some.injEq,reduceCtorEq] at is
      · simp only [Function.update_of_ne new] at is
        exact knows.entry e is

theorem Ran.unchanged {i : Instr} {r : i.Result} (world : World (g.holds ++ others) (g.pins ++ otherPins) s)
    (holds : i.holds r g.holds = g.holds) (keeps : i.pins r g.pins = g.pins) (tells : Tells g i r)
    (after : Knows s (g.next i r)) : Ran others otherPins g i s s r :=
  ⟨tells,by rw [holds,keeps]; exact world,after,world.firmSame,fun _ _ =>
    ⟨_,_,(SameTables.mk rfl rfl rfl rfl (Nat.le_refl _)).frame⟩,
    fun k known _ _ => known⟩

theorem renameNodeOutcome {olddir newdir : Ino} {oldname newname : Name} {hide : Bool}
    (world : World (g.holds ++ others) pins s) (knows : Knows s g)
    (may : May g (.renameNode olddir oldname newdir newname hide)) (few : Few (g.holds ++ others)) :
    Outcome (Bad s [newdir]) (Moved (fun p => pins.count p) s olddir oldname newdir newname hide)
      (s.renameNode olddir oldname newdir newname hide) := by
  obtain ⟨known,hides,plain,insideOld,insideNew⟩ := may
  refine renameNodeSpec world.tree.toSteady ?_ (world.dirPinned few insideOld) (world.dirPinned few insideNew)
  intro p source target
  have same := world.tree.toStore.lookupSame source target
  cases hide with
  | true => exact (hides rfl).1 same
  | false => exact (plain rfl).2 p (knows.owner known source).1 same

theorem renameNodeRan {olddir newdir : Ino} {oldname newname : Name} {hide : Bool} {err : Int}
    (world : World (g.holds ++ others) (g.pins ++ otherPins) s) (knows : Knows s g)
    (may : May g (.renameNode olddir oldname newdir newname hide)) (few : Few (g.holds ++ others))
    (ran : s.renameNode olddir oldname newdir newname hide = .ok (s',err)) :
    Ran others otherPins g (.renameNode olddir oldname newdir newname hide) s s' err := by
  have outcome := renameNodeOutcome world knows may few
  obtain ⟨known,hides,plain,insideOld,insideNew⟩ := may
  have steady := world.tree.toSteady
  -- a free name is asked for when a node is hidden
  by_cases busy : hide = true ∧ s.lookupNode olddir oldname ≠ none ∧ s.lookupNode newdir newname ≠ none
  · obtain ⟨rfl,source,target⟩ := busy
    obtain ⟨p,source⟩ := Option.ne_none_iff_exists'.mp source
    obtain ⟨q,target⟩ := Option.ne_none_iff_exists'.mp target
    simp only [Fuse.renameNode,source,target,Option.isSome_some,and_self,if_true] at ran
    cases ran
    exact .unchanged world rfl rfl trivial (.nothing s rfl)
  have free : hide = true → ∀ p, s.lookupNode olddir oldname = some p → s.lookupNode newdir newname = none := by
    intro on p source
    by_contra target
    exact busy ⟨on,by rw [source]; nofun,target⟩
  have mine : ∀ p, s.lookupNode olddir oldname = some p → ∀ r, s.lookupNode newdir newname = some r ∨ r = p →
      ∃ h ∈ g.holds, h.wnode = some r := by
    rintro p source r (target | rfl)
    · cases hide with
      | true =>
        rw [free rfl p source] at target
        cases target
      | false => exact (knows.owner (plain rfl).1 target).2
    · exact (knows.owner known source).2
  rw [ran] at outcome
  cases outcome with
  | missing absent =>
    refine .unchanged world rfl rfl trivial ?_
    obtain ⟨node,fact⟩ := Option.ne_none_iff_exists'.mp known
    have told := knows.told olddir oldname node fact
    rw [absent] at told
    subst told
    cases hide with
    | false => exact .nothing s rfl
    | true =>
      have facts : Instr.facts (.renameNode olddir oldname newdir newname true) (0 : Int) g.facts = g.facts := by
        simp only [Instr.facts,and_self,if_true,fact]
      refine ⟨?_,?_,?_⟩ <;> simp only [Ghost.next,facts]
      · exact knows.told
      · exact knows.mine
      · exact knows.entry
  | busy source target on =>
    subst on
    refine .unchanged world rfl rfl trivial (.nothing s ?_)
    simp only [Ghost.next,Instr.facts]
    rw [if_neg (by rintro ⟨_,zero⟩; cases zero)]
  | @moved p _ source steady' relabels lookup dropped =>
    have made : ∀ e, e = (newdir,newname) →
        e ∈ (Instr.renameNode olddir oldname newdir newname hide).makes ∧ g.inside e.1 := by
      rintro e rfl
      exact ⟨List.mem_singleton_self _,insideNew⟩
    cases hide with
    | false => exact relabelsRan world few relabels steady' (mine p source) made rfl rfl trivial fun _ => .nothing _ rfl
    | true =>
      have target := free rfl p source
      have relabels : Relabels (· = p) (fun r => true = true ∧ r = p) (· = (newdir,newname))
          (unlinkCounts s (s.lookupNode newdir newname)) s s' :=
        relabels.congr (fun r => by rw [target]; simp) (fun _ => Iff.rfl) (fun _ is => is) fun _ _ => rfl
      obtain ⟨fact,owner⟩ := knows.owner known source
      have only : ∀ r, r = p → ∃ h ∈ g.holds, h.wnode = some r := by
        rintro r rfl
        exact owner
      refine relabelsRan world few relabels steady' only made rfl rfl trivial fun frame => ?_
      have facts : Instr.facts (.renameNode olddir oldname newdir newname true) (0 : Int) g.facts =
          Function.update (Function.update g.facts (newdir,newname) (some (some p))) (olddir,oldname) (some none) := by
        simp only [Instr.facts,and_self,if_true,fact]
      have after := hideKnows steady steady' knows relabels ?_ source lookup (hides rfl).1 (hides rfl).2 owner frame
      · rw [← facts] at after
        exact after
      · rintro q ⟨h,mem,is⟩
        obtain ⟨_,n,live,write⟩ := world.owned (List.mem_append_left _ mem) is
        exact frame.locked q n live (by rw [write]; decide)
  | @failed p _ source steady' relabels unnamed dropped long =>
    exact relabelsRan world few relabels steady' (mine p source) (fun e no => no.elim) rfl rfl trivial fun _ => by
      refine .nothing _ ?_
      simp only [Ghost.next,Instr.facts]
      rw [if_neg (by rintro ⟨_,zero⟩; cases zero)]

/- A name exchanged with itself is one that the request knows to be absent. -/
theorem exchangeNodeOutcome {olddir newdir : Ino} {oldname newname : Name}
    (world : World (g.holds ++ others) pins s) (knows : Knows s g)
    (may : May g (.exchangeNode olddir oldname newdir newname)) (few : Few (g.holds ++ others)) :
    (∃ err, s.exchangeNode olddir oldname newdir newname = .ok (s,err)) ∨
      Outcome (Bad s [newdir,olddir]) (Exchanged (fun p => pins.count p) s olddir oldname newdir newname)
        (s.exchangeNode olddir oldname newdir newname) := by
  obtain ⟨knownOld,_,distinct,insideOld,insideNew⟩ := may
  by_cases same : (olddir,oldname) = (newdir,newname)
  · cases same
    obtain ⟨node,fact⟩ := Option.ne_none_iff_exists'.mp knownOld
    cases node with
    | some p => exact absurd rfl (distinct p fact)
    | none =>
      refine .inl ⟨0,?_⟩
      simp only [Fuse.exchangeNode,knows.told _ _ _ fact,Fuse.unhashNode,Fuse.hashNode,bind,Except.bind,if_true]
  · exact .inr (exchangeNodeSpec world.tree.toSteady same (world.dirPinned few insideOld)
      (world.dirPinned few insideNew))

theorem exchangeNodeRan {olddir newdir : Ino} {oldname newname : Name} {err : Int}
    (world : World (g.holds ++ others) (g.pins ++ otherPins) s) (knows : Knows s g)
    (may : May g (.exchangeNode olddir oldname newdir newname)) (few : Few (g.holds ++ others))
    (ran : s.exchangeNode olddir oldname newdir newname = .ok (s',err)) :
    Ran others otherPins g (.exchangeNode olddir oldname newdir newname) s s' err := by
  obtain ⟨_,same⟩ | outcome := exchangeNodeOutcome world knows may few
  · rw [ran] at same
    cases same
    exact .unchanged world rfl rfl trivial (.nothing s rfl)
  · obtain ⟨knownOld,knownNew,_,insideOld,insideNew⟩ := may
    rw [ran] at outcome
    refine relabelsRan world few outcome.relabels outcome.steady ?_ ?_ rfl rfl trivial fun _ => .nothing _ rfl
    · rintro p (source | target)
      · exact (knows.owner knownOld source).2
      · exact (knows.owner knownNew target).2
    · rintro e (rfl | rfl)
      · exact ⟨List.mem_cons_self,insideNew⟩
      · exact ⟨List.mem_cons_of_mem _ (List.mem_singleton_self _),insideOld⟩

end FuseStudy.NodeStore
