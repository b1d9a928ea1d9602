import FuseStudy.PathSteps

/-! Every instruction of a request, run or put off: the world stays consistent, and each
request is right about what it knows. -/
namespace FuseStudy.NodeStore
open CString LinearHash Forest Script

variable {s s' : Fuse} {p q : Ptr} {n m : Node} {hs : List Held} {pins : List Ptr} {extra extra' : Ptr → Nat}
  {others : List Held} {otherPins : List Ptr} {g : Ghost}

theorem stillRan {i : Instr} {r : i.Result} (world : World (g.holds ++ others) (g.pins ++ otherPins) s)
    (knows : Knows s g) (few : Few (g.holds ++ others))
    (steady' : Steady (fun p => (i.pins r g.pins ++ otherPins).count p) s') (frame : Frame Never Never s s')
    (brk : s.brk ≤ s'.brk) (same : ∀ p, s.heap p = none → s'.heap p = none)
    (fewer : ∀ p ∈ i.pins r g.pins, p ∈ g.pins ∨ p < s.brk) (unlisted : 0 ∉ s'.lruTable)
    (holds : i.holds r g.holds = g.holds) (facts : i.facts r g.facts = g.facts) (tells : Tells g i r) :
    Ran others otherPins g i s s' r := by
  refine ⟨tells,?_,?_,world.firmFrame few frame fun _ no => no.elim,fun _ _ => ⟨_,_,frame⟩,?_⟩
  · rw [holds]
    refine world.still few steady' frame brk same ?_ unlisted
    intro p mem
    rcases List.mem_append.mp mem with mine | theirs
    · exact (fewer p mine).imp_left (List.mem_append_left _)
    · exact .inl (List.mem_append_right _ theirs)
  · have kept : Knows s' g :=
      knows.frame frame world (fun h mem => List.mem_append_left _ mem) (fun _ _ _ _ no => no) fun _ _ no => no
    refine ⟨?_,?_,?_⟩
    · simp only [Ghost.next,facts]
      exact kept.told
    · simp only [Ghost.next,facts,holds]
      exact kept.mine
    · simp only [Ghost.next,facts]
      exact kept.entry
  · intro k known mine _
    exact known.frame frame world (fun h mem => List.mem_append_right _ (mine h mem))
      (fun _ _ _ _ no => no) fun _ _ no => no

theorem forgetNodeRan {nodeid : Ino} {nlookup : Nat}
    (world : World (g.holds ++ others) (g.pins ++ otherPins) s) (knows : Knows s g)
    (may : May g (.forgetNode nodeid nlookup)) (few : Few (g.holds ++ others))
    (ran : s.forgetNode nodeid nlookup = .ok s') :
    Ran others otherPins g (.forgetNode nodeid nlookup) s s' () := by
  by_cases plain : nodeid = rootId
  · simp only [Fuse.forgetNode,if_pos plain] at ran
    cases ran
    exact .unchanged world rfl rfl trivial knows
  have steady := world.tree.toSteady
  have again := ran
  simp only [Fuse.forgetNode,if_neg plain] at again
  obtain ⟨p,get,again⟩ := callBind again
  obtain ⟨n,deref,again⟩ := callBind again
  have found := getNodeFound get
  obtain ⟨_,n',live,_⟩ := (steady.toStore.getNodeIff nodeid).mp found
  rw [derefOk live] at deref
  cases deref
  by_cases short : n.nlookup < nlookup
  · rw [if_pos short] at again
    cases again
  have positive : 0 < nlookup := may
  have outcome := forgetNodeSpec steady plain found live (by omega) (Nat.le_of_not_lt short)
  rw [ran] at outcome
  obtain ⟨steady',effect,relisted⟩ := outcome
  refine stillRan world knows few steady' (effect.frame steady steady') effect.brk ?_ (fun _ => .inl) ?_ rfl rfl trivial
  · intro q none
    by_contra there
    obtain ⟨k,now⟩ := Option.ne_none_iff_exists'.mp there
    have low := steady'.shape.lt now
    have high := (effect.new q k none now).1
    rw [relisted.brk] at low
    exact Nat.not_lt.mpr high low
  · intro zero
    rcases relisted.mem 0 zero with before | ⟨rfl,_⟩
    · exact world.unlisted before
    · obtain ⟨_,k,alive,id⟩ := (steady.toStore.getNodeIff nodeid).mp found
      obtain ⟨r,atRoot,rootIs,_⟩ := steady.shape.root
      rw [alive] at atRoot
      cases atRoot
      exact plain (id.symm.trans rootIs)

/-! Operations on one node. -/

theorem Steady.touch (steady : Steady extra s) (live : s.heap p = some n) (same : n.SameEntry m)
    (count : m.refctr + n.held + extra p = n.refctr + m.held + extra' p) (others : ∀ q, q ≠ p → extra' q = extra q)
    (used : m.refctr ≠ 0) (lookups : n.nlookup ≤ m.nlookup) : Steady extra' (s.put p m) := by
  refine ⟨steady.toStore.touch live same count others (fun _ => .inl (steady.alive p n live).2) ?_,?_⟩
  · rintro rfl
    obtain ⟨r,atRoot,_,positive,_⟩ := steady.shape.root
    rw [live] at atRoot
    cases atRoot
    exact Nat.lt_of_lt_of_le positive lookups
  · intro r k now
    rcases atUpdate now with ⟨rfl,rfl⟩ | ⟨_,old⟩
    · exact ⟨(steady.alive r n live).1,used⟩
    · exact steady.alive r k old

theorem touchRan {i : Instr} {r : i.Result} (world : World (g.holds ++ others) (g.pins ++ otherPins) s)
    (knows : Knows s g) (few : Few (g.holds ++ others)) (live : s.heap p = some n) (same : n.SameEntry m)
    (treelock : m.treelock = n.treelock)
    (steady' : Steady (fun p => (i.pins r g.pins ++ otherPins).count p) (s.put p m))
    (fewer : ∀ p ∈ i.pins r g.pins, p ∈ g.pins ∨ p < s.brk) (holds : i.holds r g.holds = g.holds)
    (facts : i.facts r g.facts = g.facts) (tells : Tells g i r) : Ran others otherPins g i s (s.put p m) r := by
  refine stillRan world knows few steady' (touchFrame live same treelock s.lruTable)
    (Nat.le_refl _) ?_ fewer world.unlisted
    holds facts tells
  intro q none
  exact (putOther (by rintro rfl; rw [live] at none; cases none) ..).trans none

theorem openNodeRan {nodeid : Ino} (world : World (g.holds ++ others) (g.pins ++ otherPins) s)
    (knows : Knows s g) (few : Few (g.holds ++ others)) (ran : s.openNode nodeid = .ok s') :
    Ran others otherPins g (.openNode nodeid) s s' () := by
  obtain ⟨p,get,ran⟩ := callBind ran
  obtain ⟨n,deref,ran⟩ := callBind ran
  obtain ⟨_,n',live,_⟩ := (world.tree.toStore.getNodeIff nodeid).mp (getNodeFound get)
  rw [derefOk live] at deref
  cases deref
  cases ran
  exact touchRan world knows few live ⟨rfl,rfl,rfl⟩ rfl
    (world.tree.toSteady.touch live ⟨rfl,rfl,rfl⟩ rfl (fun _ _ => rfl) (world.tree.alive p n live).2 (Nat.le_refl _))
    (fun _ => .inl) rfl rfl trivial

theorem releaseNodeRan {nodeid : Ino} {last : Bool}
    (world : World (g.holds ++ others) (g.pins ++ otherPins) s) (knows : Knows s g)
    (few : Few (g.holds ++ others)) (ran : s.releaseNode nodeid = .ok (s',last)) :
    Ran others otherPins g (.releaseNode nodeid) s s' last := by
  obtain ⟨p,get,ran⟩ := callBind ran
  obtain ⟨n,deref,ran⟩ := callBind ran
  obtain ⟨_,n',live,_⟩ := (world.tree.toStore.getNodeIff nodeid).mp (getNodeFound get)
  rw [derefOk live] at deref
  cases deref
  split at ran
  · cases ran
  · cases ran
    exact touchRan world knows few live ⟨rfl,rfl,rfl⟩ rfl
      (world.tree.toSteady.touch live ⟨rfl,rfl,rfl⟩ rfl (fun _ _ => rfl) (world.tree.alive p n live).2 (Nat.le_refl _))
      (fun _ => .inl) rfl rfl trivial

theorem pinNodeRan {nodeid : Ino} {found : Option Ptr}
    (world : World (g.holds ++ others) (g.pins ++ otherPins) s) (knows : Knows s g)
    (few : Few (g.holds ++ others)) (ran : s.pinNode nodeid = .ok (s',found)) :
    Ran others otherPins g (.pinNode nodeid) s s' found := by
  unfold Fuse.pinNode at ran
  cases get : s.getNodeNocheck nodeid with
  | none =>
    rw [get] at ran
    cases ran
    exact .unchanged world rfl rfl trivial knows
  | some p =>
    rw [get] at ran
    obtain ⟨n,deref,ran⟩ := callBind ran
    obtain ⟨_,n',live,_⟩ := (world.tree.toStore.getNodeIff nodeid).mp get
    rw [derefOk live] at deref
    cases deref
    cases ran
    refine touchRan world knows few live ⟨rfl,rfl,rfl⟩ rfl ?_ ?_ rfl rfl trivial
    · refine world.tree.toSteady.touch live ⟨rfl,rfl,rfl⟩ ?_ ?_ (Nat.succ_ne_zero _) (Nat.le_refl _)
      · simp only [Instr.pins,List.cons_append,List.count_cons_self,Node.held]
        omega
      · intro q other
        simp only [Instr.pins,List.cons_append]
        exact List.count_cons_of_ne (Ne.symm other)
    · intro q mem
      rcases List.mem_cons.mp mem with rfl | old
      · exact .inr (world.tree.shape.lt live)
      · exact .inl old

theorem unpinNodeRan {node : Ptr} (world : World (g.holds ++ others) (g.pins ++ otherPins) s) (knows : Knows s g)
    (may : May g (.unpinNode node)) (few : Few (g.holds ++ others)) (ran : s.unrefNode node = .ok s') :
    Ran others otherPins g (.unpinNode node) s s' () := by
  have steady := world.tree.toSteady
  have perm : (g.pins ++ otherPins).Perm (node :: (g.pins.erase node ++ otherPins)) :=
    (List.perm_cons_erase may).append_right otherPins
  have counts :
      (fun p => (g.pins ++ otherPins).count p) = bump (fun p => (g.pins.erase node ++ otherPins).count p) node := by
    funext p
    rw [perm.count_eq,bump]
    split
    · next here => rw [here,List.count_cons_self]
    · next other => exact List.count_cons_of_ne (Ne.symm other)
  have owed := steady.toStore
  rw [counts] at owed
  obtain ⟨n,live⟩ : ∃ n, s.heap node = some n := by
    have unrefs := ran
    unfold Fuse.unrefNode unrefLoop at unrefs
    obtain ⟨n,deref,_⟩ := callBind unrefs
    unfold Fuse.deref at deref
    split at deref
    · next n live => exact ⟨n,live⟩
    · cases deref
  have cascade := unrefCascade owed live (apartNone _ _)
  rw [ran] at cascade
  cases cascade with
  | done store' shrinks _ idle =>
    have steady' : Steady (fun p => (g.pins.erase node ++ otherPins).count p) s' := by
      refine shrinks.steady store' (fun r j was => (steady.alive r j was).1) ?_
      intro r j now zero
      obtain ⟨mid,was,none⟩ := idle r j now zero
      exact (steady.alive r mid was).2 none
    have same : s.put node {n with nlookup := n.nlookup} = s := by
      simp only [Fuse.put,← live,Function.update_eq_self]
    have effect := Shrinks.effect live (same.symm ▸ shrinks) steady.toStore
    refine stillRan world knows few steady' (effect.frame steady steady') effect.brk ?_
      (fun p mem => .inl (List.mem_of_mem_erase mem))
      (fun zero => world.unlisted (shrinks.lru.subset zero)) rfl rfl trivial
    intro q none
    by_contra there
    obtain ⟨k,now⟩ := Option.ne_none_iff_exists'.mp there
    obtain ⟨mid,was,_⟩ := shrinks.kept q k now
    rw [none] at was
    cases was

/-! Reading the tables. -/

theorem peekSpec {want : Want} (tree : Tree extra s) (reads : want.write = false) :
    (∃ s' r, s.tryGetPath want false = .ok (s',r) ∧ SameTables s s') ∨ s.tryGetPath want false = .error .getNode := by
  have same : ∀ memory, SameTables s (s.relock s.lock memory) := by
    intro memory
    rw [relockSelf]
    exact ⟨rfl,rfl,rfl,rfl,Nat.le_refl _⟩
  unfold Fuse.tryGetPath Fuse.takeMem
  cases s.memory 0 with
  | false => exact .inl ⟨_,_,rfl,⟨rfl,rfl,rfl,rfl,Nat.le_refl _⟩⟩
  | true =>
    simp only [Bool.not_true,Bool.false_eq_true,if_false]
    obtain ⟨memory,failed | ⟨bufsize,started⟩⟩ := startBufSpec s (fun i => s.memory (i+1)) want.name
    · rw [failed]
      exact .inl ⟨_,_,rfl,same memory⟩
    · rw [started]
      simp only [reads,Bool.false_eq_true,false_and,if_false,Fuse.lockWnode,bind,Except.bind]
      cases get : s.getNodeNocheck want.nodeid with
      | none =>
        have fault : (s.relock s.lock memory).getNode want.nodeid = .error .getNode := by
          simp only [Fuse.getNode,getNodeRelock,get]
        rw [fault]
        exact .inr rfl
      | some p =>
        obtain ⟨_,n,live,_⟩ := (tree.toStore.getNodeIff want.nodeid).mp get
        have alive : s.heap p ≠ none := by rw [live]; exact Option.some_ne_none _
        rw [getNodeOk ((getNodeRelock want.nodeid).trans get)]
        obtain ⟨r,walk,walked⟩ := walkPathSpec false (s.brk+1) s.lock memory p bufsize (startPath want.name) tree alive
          (fun l stop climb => tree.climbShort alive climb)
        simp only [show (s.relock s.lock memory).brk = s.brk from rfl,walk]
        cases walked <;> exact .inl ⟨_,_,rfl,same _⟩

theorem tablesRan {i : Instr} {r : i.Result} (world : World (g.holds ++ others) (g.pins ++ otherPins) s)
    (knows : Knows s g) (few : Few (g.holds ++ others)) (same : SameTables s s')
    (keeps : i.pins r g.pins = g.pins) (holds : i.holds r g.holds = g.holds)
    (facts : i.facts r g.facts = g.facts) (tells : Tells g i r) : Ran others otherPins g i s s' r := by
  refine stillRan world knows few ?_ same.frame same.brk (fun p none => by rw [same.heap,none]) ?_
    (same.lru ▸ world.unlisted) holds facts tells
  · rw [keeps]
    exact same.steady world.tree.toSteady
  · rw [keeps]
    exact fun _ => .inl

theorem peekPathSame {nodeid : Ino} {name : Option Name} {r : Except Int Bytes} (tree : Tree extra s)
    (ran : s.peekPath nodeid name = .ok (s',r)) : SameTables s s' := by
  obtain ⟨⟨s₁,r₁⟩,tried,ran⟩ := callBind ran
  cases ran
  obtain ⟨s₂,r₂,ok,same⟩ | fault := peekSpec tree (show (Want.mk nodeid name false).write = false from rfl)
  · rw [tried] at ok
    cases ok
    exact same
  · rw [tried] at fault
    cases fault

theorem hiddenLoopSpec {dir nodeid : Ino} {newname : Name} (fuel : Nat) (s : Fuse)
    (ran : hiddenLoop dir nodeid fuel s = .ok (s',newname)) :
    ∃ hidectr, s' = {s with hidectr := hidectr} ∧ s.lookupNode dir newname = none := by
  induction fuel generalizing s with
  | zero => cases ran
  | succ fuel ih =>
    unfold hiddenLoop at ran
    dsimp only at ran
    split at ran
    · obtain ⟨hidectr,is,absent⟩ := ih _ ran
      exact ⟨hidectr,is,absent⟩
    · next absent =>
      cases ran
      exact ⟨_,rfl,absent⟩

theorem hiddenNameRan {dir : Ino} {oldname : Name} {r : Option (Name × Except Int Bytes)}
    (world : World (g.holds ++ others) (g.pins ++ otherPins) s) (knows : Knows s g) (few : Few (g.holds ++ others))
    (ran : s.hiddenName dir oldname = .ok (s',r)) : Ran others otherPins g (.hiddenName dir oldname) s s' r := by
  unfold Fuse.hiddenName at ran
  cases source : s.lookupNode dir oldname with
  | none =>
    rw [source] at ran
    cases ran
    exact .unchanged world rfl rfl trivial knows
  | some p =>
    rw [source] at ran
    obtain ⟨n,_,ran⟩ := callBind ran
    obtain ⟨⟨s₁,newname⟩,loop,ran⟩ := callBind ran
    obtain ⟨⟨s₂,path⟩,peeked,ran⟩ := callBind ran
    cases ran
    obtain ⟨hidectr,rfl,absent⟩ := hiddenLoopSpec _ s loop
    have first : SameTables s {s with hidectr := hidectr} := ⟨rfl,rfl,rfl,rfl,Nat.le_refl _⟩
    have world₁ := world.same few first
    have second := peekPathSame world₁.tree peeked
    have differ : newname ≠ oldname := by
      rintro rfl
      rw [source] at absent
      cases absent
    exact tablesRan world knows few
      ⟨second.heap.trans first.heap,second.names.trans first.names,second.ids.trans first.ids,
        second.lru.trans first.lru,
      Nat.le_trans first.brk second.brk⟩ rfl rfl rfl differ

theorem isOpenTells {dir : Ino} {name : Name} {isopen : Bool} (knows : Knows s g)
    (ran : s.isOpen dir name = .ok isopen) :
    Tells g (.isOpen dir name) isopen := by
  intro on fact
  have told := knows.told dir name none fact
  rw [Fuse.isOpen,told] at ran
  cases ran
  cases on

theorem nodeNameTells {node : Option Ptr} {name : Name} (world : World hs pins s) (knows : Knows s g)
    (deref : s.derefNode node = .ok n) (named : n.name = some name) : Tells g (.nodeName node) name := by
  cases node with
  | none => cases deref
  | some p =>
    rintro ⟨dir,own⟩ fact
    have found := knows.told dir own (some p) fact
    obtain ⟨_,n',live,own'⟩ := world.tree.toSteady.lookupLive found
    have here : s.deref p = .ok n := deref
    rw [derefOk live] at here
    cases here
    rw [named] at own'
    exact (Option.some.inj own').symm

/-! One instruction of any kind. -/

theorem execRan {i : Instr} {answer : Int} {r : i.Result}
    (world : World (g.holds ++ others) (g.pins ++ otherPins) s) (knows : Knows s g) (may : May g i)
    (few : g.holds.length ≤ 2 ∧ others.length + 2 < 2147483647) (ran : s.exec answer i = .ok (s',some r)) :
    Ran others otherPins g i s s' r := by
  have few₁ : Few (g.holds ++ others) := by
    rw [Few,List.length_append]
    omega
  cases i with
  | getPath want =>
    obtain ⟨⟨s₁,r₁⟩,tried,ran⟩ := callBind ran
    injection ran with both
    injection both with first second
    rw [answeredSome second,← first]
    exact getPathRan world knows may few₁ tried
  | getPath2 want1 want2 =>
    obtain ⟨⟨s₁,r₁⟩,tried,ran⟩ := callBind ran
    injection ran with both
    injection both with first second
    rw [answeredSome second,← first]
    exact getPath2Ran world knows may (Nat.lt_of_succ_lt few.2) tried
  | freePath held =>
    obtain ⟨s₁,freed,ran⟩ := callBind ran
    cases ran
    exact freePathRan world may few₁ freed
  | freePath2 held1 held2 =>
    obtain ⟨s₁,first,ran⟩ := callBind ran
    obtain ⟨s₂,second,ran⟩ := callBind ran
    cases ran
    exact freePath2Ran world may few₁ first second
  | peekPath nodeid =>
    obtain ⟨⟨s₁,path⟩,peeked,ran⟩ := callBind ran
    cases ran
    exact tablesRan world knows few₁ (peekPathSame world.tree peeked) rfl rfl rfl trivial
  | findNode parent name =>
    obtain ⟨⟨s₁,found⟩,looked,ran⟩ := callBind ran
    have all := fun r => findNodeRan r world knows may few₁ looked
    cases found with
    | none =>
      cases ran
      exact all _
    | some p =>
      obtain ⟨n,_,ran⟩ := callBind ran
      cases ran
      exact all _
  | forgetNode nodeid nlookup =>
    obtain ⟨waits,_,ran⟩ := callBind ran
    cases waits with
    | true => cases ran
    | false =>
      obtain ⟨s₁,forgot,ran⟩ := callBind ran
      cases ran
      exact forgetNodeRan world knows may few₁ forgot
  | removeNode dir name =>
    obtain ⟨s₁,removed,ran⟩ := callBind ran
    cases ran
    exact removeNodeRan world knows may few₁ removed
  | renameNode olddir oldname newdir newname hide =>
    obtain ⟨⟨s₁,err⟩,moved,ran⟩ := callBind ran
    cases ran
    exact renameNodeRan world knows may few₁ moved
  | exchangeNode olddir oldname newdir newname =>
    obtain ⟨⟨s₁,err⟩,moved,ran⟩ := callBind ran
    cases ran
    exact exchangeNodeRan world knows may few₁ moved
  | isOpen dir name =>
    obtain ⟨isopen,asked,ran⟩ := callBind ran
    cases ran
    exact .unchanged world rfl rfl (isOpenTells knows asked) knows
  | hiddenName dir oldname =>
    obtain ⟨⟨s₁,hidden⟩,named,ran⟩ := callBind ran
    cases ran
    exact hiddenNameRan world knows few₁ named
  | nodeName node =>
    obtain ⟨n,deref,ran⟩ := callBind ran
    split at ran
    · cases ran
    · next name named =>
      cases ran
      exact .unchanged world rfl rfl (nodeNameTells world knows deref named) knows
  | nodeId node =>
    obtain ⟨n,_,ran⟩ := callBind ran
    cases ran
    exact .unchanged world rfl rfl trivial knows
  | getNode nodeid =>
    obtain ⟨p,_,ran⟩ := callBind ran
    cases ran
    exact .unchanged world rfl rfl trivial knows
  | openNode nodeid =>
    obtain ⟨s₁,opened,ran⟩ := callBind ran
    cases ran
    exact openNodeRan world knows few₁ opened
  | releaseNode nodeid =>
    obtain ⟨⟨s₁,last⟩,released,ran⟩ := callBind ran
    cases ran
    exact releaseNodeRan world knows few₁ released
  | pinNode nodeid =>
    obtain ⟨⟨s₁,found⟩,pinned,ran⟩ := callBind ran
    cases ran
    exact pinNodeRan world knows few₁ pinned
  | unpinNode node =>
    obtain ⟨s₁,unpinned,ran⟩ := callBind ran
    cases ran
    exact unpinNodeRan world knows may few₁ unpinned
  | parentId nodeid =>
    obtain ⟨parent,_,ran⟩ := callBind ran
    cases ran
    exact .unchanged world rfl rfl trivial knows
  | callback op path path2 =>
    cases ran
    exact .unchanged world rfl rfl trivial knows
  | reply err =>
    cases ran
    exact .unchanged world rfl rfl trivial knows

theorem execWaits {i : Instr} {answer : Int} (world : World (g.holds ++ others) (g.pins ++ otherPins) s) (may : May g i)
    (few : g.holds.length ≤ 2 ∧ others.length + 2 < 2147483647) (ran : s.exec answer i = .ok (s',none)) :
    Waited (g.holds ++ others) (g.pins ++ otherPins) i s s' := by
  have few₁ : Few (g.holds ++ others) := by
    rw [Few,List.length_append]
    omega
  cases i with
  | getPath want =>
    obtain ⟨⟨s₁,r₁⟩,tried,ran⟩ := callBind ran
    injection ran with both
    injection both with first second
    have again := answeredNone second
    subst again
    subst first
    obtain ⟨_,ok,tries⟩ | ⟨fault,_⟩ := tryGetPathSpec world.tree may.2.named
    · rw [tried] at ok
      cases ok
      obtain ⟨world,relocked⟩ := tries.fails world few₁
      exact ⟨.inl rfl,world,relocked⟩
    · rw [tried] at fault
      cases fault
  | getPath2 want1 want2 =>
    obtain ⟨⟨s₁,r₁⟩,tried,ran⟩ := callBind ran
    injection ran with both
    injection both with first second
    have again := answeredNone second
    subst again
    subst first
    have room : (g.holds ++ others).length + 1 < 2147483647 := by
      rw [may.1]
      exact Nat.lt_of_succ_lt few.2
    obtain ⟨_,ok,tries⟩ | ⟨fault,_⟩ := tryGetPath2Spec world.tree world.locked room may.2.1.named may.2.2.named
    · rw [tried] at ok
      cases ok
      obtain ⟨world,relocked⟩ := tries.fails world few₁
      exact ⟨.inl rfl,world,relocked⟩
    · rw [tried] at fault
      cases fault
  | forgetNode nodeid nlookup =>
    obtain ⟨waits,_,ran⟩ := callBind ran
    cases waits with
    | true =>
      cases ran
      exact ⟨.inr ⟨nodeid,nlookup,rfl⟩,world,s.lock,s.memory,(relockSelf s s.memory).symm⟩
    | false =>
      obtain ⟨s₁,_,ran⟩ := callBind ran
      cases ran
  | findNode parent name =>
    obtain ⟨⟨s₁,found⟩,_,ran⟩ := callBind ran
    cases found with
    | none => cases ran
    | some p =>
      obtain ⟨n,_,ran⟩ := callBind ran
      cases ran
  | nodeName node =>
    obtain ⟨n,_,ran⟩ := callBind ran
    split at ran <;> cases ran
  | freePath2 held1 held2 =>
    obtain ⟨s₁,_,ran⟩ := callBind ran
    obtain ⟨s₂,_,ran⟩ := callBind ran
    cases ran
  | callback | reply => cases ran
  | _ =>
    obtain ⟨_,_,ran⟩ := callBind ran
    cases ran

end FuseStudy.NodeStore
