import FuseStudy.PinnedNodes

/-! Lookups of '.' and of '..' among other requests. The first pins its node before it asks for
the path; the second only notes the id of the parent. -/
namespace FuseStudy.NodeStore
open CString LinearHash Forest Script

variable {s s' : Fuse} {y y' : Sys} {t u : Thread} {k : Nat} {p q : Ptr} {n m : Node} {j : Instr}
    {next : j.Result → Prog Unit}
  {conf : Conf} {memory : Nat → Bool} {ino : Ino} {name : Name}

/- With the last reference of the node gone it is freed, and so are the nodes above it that it
alone kept, up to one that is locked. -/
inductive DropsLocked (s : Fuse) : Ptr → Prop
  | here {p : Ptr} {n : Node} (live : s.heap p = some n) (last : n.refctr = 1) (locked : n.treelock ≠ 0) :
      DropsLocked s p
  | above {p q : Ptr} {n : Node} (live : s.heap p = some n) (last : n.refctr = 1) (named : n.name ≠ none)
      (parent : n.parent = some q)
      (drops : DropsLocked s q) : DropsLocked s p

theorem DropsLocked.back {table : Table Ptr} (drops : DropsLocked {s.put p m with nameTable := table} q)
    (zero : m.refctr = 0) :
    DropsLocked s q := by
  induction drops with
  | here live last locked =>
    rcases atUpdate live with ⟨rfl,rfl⟩ | ⟨_,old⟩
    · omega
    · exact .here old last locked
  | above live last named parent _ ih =>
    rcases atUpdate live with ⟨rfl,rfl⟩ | ⟨_,old⟩
    · omega
    · exact .above old last named parent ih

theorem derefNever {fault : Fault} (fails : s.deref p = .error fault) : fault = .freedPointer := by
  unfold Fuse.deref at fails
  split at fails <;> cases fails
  rfl

theorem unhashLocked {unref : Fuse → Ptr → Except Fault Fuse}
    (fails : unhashNameWith unref s p = .error .deleteLocked) :
    ∃ n q table, s.heap p = some n ∧ n.name ≠ none ∧ n.parent = some q ∧
      unref {s with nameTable := table} q = .error .deleteLocked := by
  unfold unhashNameWith at fails
  rcases callFault fails with gone | ⟨n,deref,fails⟩
  · cases derefNever gone
  split at fails
  · cases fails
  · cases fails
  · next name q named parent =>
    split at fails
    · cases fails
    · next table _ =>
      rcases callFault fails with stopped | ⟨_,_,fails⟩
      · exact ⟨n,q,table,derefLive deref,by rw [named]; exact Option.some_ne_none _,parent,stopped⟩
      · rcases callFault fails with gone | ⟨_,_,fails⟩
        · cases derefNever gone
        · cases fails

theorem unrefLocked (fuel : Nat) (s : Fuse) (p : Ptr) (fails : unrefLoop fuel s p = .error .deleteLocked) :
    DropsLocked s p := by
  induction fuel generalizing s p with
  | zero => cases fails
  | succ fuel ih =>
    unfold unrefLoop at fails
    rcases callFault fails with gone | ⟨n,deref,fails⟩
    · cases derefNever gone
    have live := derefLive deref
    split at fails
    · cases fails
    · dsimp only at fails
      split at fails
      · next last =>
        unfold deleteNodeWith at fails
        rcases callFault fails with gone | ⟨k,deref,fails⟩
        · cases derefNever gone
        have now := derefLive deref
        rw [putSelf] at now
        cases now
        split at fails
        · next locked => exact .here live last locked
        · rcases callFault fails with stopped | ⟨_,_,fails⟩
          · obtain ⟨k,q,table,now,named,parent,above⟩ := unhashLocked stopped
            rw [putSelf] at now
            cases now
            exact .above live last named parent ((ih _ q above).back (show n.refctr - 1 = 0 by omega))
          · cases fails
      · cases fails

/-! The reply. -/

/- What may be left of a lookup once it is answered. -/
inductive Told : Prog Unit → Prop
  | done : Told (.done ())
  | forgets (ino : Ino) : Told (ask (.forgetNode ino 1))

/- Every way on through the program gives one reply. -/
inductive Replies : Prog Unit → Prop
  | here {err : Int} {next : (Instr.reply err).Result → Prog Unit} (told : ∀ r, Told (next r)) :
      Replies (.act (.reply err) next)
  | later {i : Instr} {next : i.Result → Prog Unit} (quiet : ∀ err, i ≠ .reply err)
      (rest : ∀ r, Replies (next r)) : Replies (.act i next)

theorem bindAssoc {α β γ : Type} (prog : Prog α) (f : α → Prog β) (g : β → Prog γ) :
    prog >>= f >>= g = prog >>= fun a => f a >>= g := by
  induction prog with
  | done a => rfl
  | act i next ih => exact congrArg (Prog.act i) (funext ih)

/- A part of a program that gives no reply. -/
def Quiet {α : Type} (prog : Prog α) : Prop := ∀ f : α → Prog Unit, (∀ a, Replies (f a)) → Replies (prog >>= f)

theorem quietPure {α : Type} (a : α) : Quiet (pure a : Prog α) := fun _ rest => rest a

theorem quietAsk {i : Instr} (quiet : ∀ err, i ≠ .reply err) : Quiet (ask i) := fun _ rest => .later quiet rest

theorem Quiet.bind {α β : Type} {prog : Prog α} {f : α → Prog β} (first : Quiet prog) (second : ∀ a, Quiet (f a)) :
    Quiet (prog >>= f) := by
  intro g rest
  have whole : prog >>= f >>= g = prog >>= fun a => f a >>= g := bindAssoc prog f g
  rw [whole]
  exact first _ fun a => second a g rest

theorem replyErrReplies (err : Int) : Replies (replyErr err) := .here fun _ => .done

theorem replyEntryReplies (entry : Except Int Ino) : Replies (replyEntry entry) := by
  cases entry with
  | error err => exact replyErrReplies err
  | ok ino =>
    refine .here fun res => ?_
    change Told (if res = -enoent ∧ ino ≠ 0 then ask (.forgetNode ino 1) else pure ())
    split
    · exact .forgets ino
    · exact .done

theorem unpinQuiet (dot : Option Ptr) : Quiet (unpin dot) := by
  cases dot with
  | none => exact quietPure ()
  | some dot => exact quietAsk fun _ no => by cases no

theorem lookupPathQuiet (nodeid : Ino) (name : Option Name) (path : Bytes) : Quiet (lookupPath nodeid name path) := by
  refine Quiet.bind (quietAsk fun _ no => by cases no) fun res => ?_
  split
  · refine Quiet.bind (quietAsk fun _ no => by cases no) fun found => ?_
    cases found with
    | none => exact quietPure _
    | some ino => exact quietPure _
  · exact quietPure _

theorem lookupEntryReplies (negative : Bool) (parent : Ino) (name : Option Name) (dot : Option Ptr) :
    Replies (lookupEntry negative parent name dot) := by
  refine quietAsk (i := .getPath ⟨parent,name,false⟩) (fun _ no => by cases no) _ fun r => ?_
  cases r with
  | error err => exact unpinQuiet dot _ fun _ => replyErrReplies err
  | ok held =>
    refine lookupPathQuiet parent name held.path _ fun entry => ?_
    refine quietAsk (i := .freePath held) (fun _ no => by cases no) _ fun _ => unpinQuiet dot _ fun _ => ?_
    cases entry with
    | error err => exact replyEntryReplies _
    | ok ino => exact replyEntryReplies _

theorem lookupReplies (negative : Bool) (ino : Ino) (name : Name) : Replies (fuseLibLookup negative ino name) := by
  unfold fuseLibLookup
  split
  · refine quietAsk (i := .pinNode ino) (fun _ no => by cases no) _ fun r => ?_
    cases r with
    | none => exact replyEntryReplies _
    | some dot => exact lookupEntryReplies negative ino none (some dot)
  · split
    · exact quietAsk (i := .parentId ino) (fun _ no => by cases no) _ fun parent =>
        lookupEntryReplies negative parent none none
    · exact lookupEntryReplies negative ino (some name) none

/-! What a lookup of dots goes about. -/

/- The directory that was resolved, the node pinned for it and the path held on it. -/
structure Resolved where
  target : Option Ino
  pin : Option Ptr
  held : Option Held

def dotMay (ino : Ino) (name : Name) (g : Resolved) : Instr → Prop
  | .pinNode id => id = ino ∧ name = [46]
  | .parentId id => id = ino ∧ name = [46,46]
  | .getPath want => g.target = some want.nodeid ∧ want.name = none ∧ want.write = false ∧ (name = [46] → g.pin ≠ none)
  | .callback .. => True
  | .findNode parent nm => nm = none ∧ ∃ h, g.held = some h ∧ h.want.nodeid = parent
  | .freePath held => g.held = some held
  | .unpinNode node => g.pin = some node
  | .reply _ => True
  | _ => False

def Resolved.after (g : Resolved) : (i : Instr) → i.Result → Resolved
  | .pinNode id, some p => ⟨some id,some p,none⟩
  | .parentId _, id => ⟨some id,none,none⟩
  | .getPath _, .ok held => {g with held := some held}
  | .freePath _, _ => {g with held := none}
  | .unpinNode _, _ => {g with pin := none}
  | _, _ => g

def dotTells : (i : Instr) → i.Result → Prop
  | .getPath want, .ok held => held.want = want
  | _, _ => True

/- The rule ends with the reply. -/
def dotRule (ino : Ino) (name : Name) : Discipline Instr Instr.Result Resolved where
  may := dotMay ino name
  after g i r g' := (∀ err, i ≠ .reply err) ∧ g' = g.after i r ∧ dotTells i r

variable {α : Type} {g : Resolved} {post : α → Resolved → Prop}

theorem dotAsk {i : Instr} {f : i.Result → Prog α} (may : dotMay ino name g i)
    (rest : ∀ r, dotTells i r → Keeps (dotRule ino name) post (f r) (g.after i r)) :
    Keeps (dotRule ino name) post (ask i >>= f) g := by
  refine ⟨may,?_⟩
  rintro r _ ⟨_,rfl,tells⟩
  exact rest r tells

theorem dotReplyErr (err : Int) (post : Unit → Resolved → Prop) : Keeps (dotRule ino name) post (replyErr err) g :=
  ⟨trivial,fun _ _ after => absurd rfl (after.1 err)⟩

theorem dotReplyEntry (entry : Except Int Ino) (post : Unit → Resolved → Prop) :
    Keeps (dotRule ino name) post (replyEntry entry) g := by
  cases entry with
  | error err => exact dotReplyErr err post
  | ok ino => exact ⟨trivial,fun _ _ after => absurd rfl (after.1 0)⟩

theorem dotUnpin {dot : Option Ptr} {f : Unit → Prog Unit} {post : Unit → Resolved → Prop} (is : g.pin = dot)
    (rest : ∀ g', Keeps (dotRule ino name) post (f ()) g') : Keeps (dotRule ino name) post (unpin dot >>= f) g := by
  cases dot with
  | none => exact rest g
  | some dot => exact dotAsk is fun _ _ => rest _

theorem dotLookupPath {parent : Ino} {post : Except Int Ino → Resolved → Prop} (path : Bytes)
    (held : ∃ h, g.held = some h ∧ h.want.nodeid = parent) (rest : ∀ r, post r g) :
    Keeps (dotRule ino name) post (lookupPath parent none path) g := by
  refine dotAsk (i := .callback .getattr (some path) none) trivial fun res _ => ?_
  split
  · refine dotAsk (i := .findNode parent none) ⟨rfl,held⟩ fun found _ => ?_
    cases found with
    | none => exact rest _
    | some ino => exact rest _
  · exact rest _

theorem dotLookupEntry {post : Unit → Resolved → Prop} (negative : Bool) (parent : Ino) (dot : Option Ptr)
    (pinned : name = [46] → dot ≠ none) :
    Keeps (dotRule ino name) post (lookupEntry negative parent none dot) ⟨some parent,dot,none⟩ := by
  refine dotAsk (i := .getPath ⟨parent,none,false⟩) ⟨rfl,rfl,rfl,pinned⟩ fun r tells => ?_
  cases r with
  | error err => exact dotUnpin rfl fun _ => dotReplyErr err post
  | ok held =>
    have asked : held.want.nodeid = parent := congrArg Want.nodeid tells
    refine Keeps.bind (dotLookupPath held.path ⟨held,rfl,asked⟩ fun entry => ?_)
    refine dotAsk (i := .freePath held) rfl fun _ _ => dotUnpin rfl fun _ => ?_
    cases entry with
    | error err => exact dotReplyEntry _ post
    | ok ino => exact dotReplyEntry _ post

theorem dotLookup {post : Unit → Resolved → Prop} (negative : Bool) (dots : name = [46] ∨ name = [46,46]) :
    Keeps (dotRule ino name) post (fuseLibLookup negative ino name) ⟨none,none,none⟩ := by
  rcases dots with rfl | rfl
  · refine dotAsk (i := .pinNode ino) ⟨rfl,rfl⟩ fun r _ => ?_
    cases r with
    | none => exact dotReplyEntry _ post
    | some dot => exact dotLookupEntry negative ino (some dot) fun _ no => by cases no
  · exact dotAsk (i := .parentId ino) ⟨rfl,rfl⟩ fun parent _ =>
      dotLookupEntry negative parent none fun no => absurd no (by decide)

/- A lookup of dots that is not answered yet. -/
structure Dotted (ino : Ino) (name : Name) (s : Fuse) (t : Thread) : Prop where
  replies : Replies t.prog
  knows : ∃ g, Keeps (dotRule ino name) (fun _ _ => True) t.prog g ∧ (∀ h, g.held = some h → h ∈ t.holds) ∧
    ∀ p, g.pin = some p → p ∈ t.pins ∧ ∃ n, s.heap p = some n ∧ g.target = some n.nodeid

def Serves (ino : Ino) (name : Name) (k : Nat) (y : Sys) : Prop :=
  ∃ t, y.threads[k]? = some t ∧ (Told t.prog ∨ Dotted ino name y.fuse t)

theorem Coherent.servedTells {answer : Int} {r : j.Result} (coherent : Coherent y)
    (at_ : y.threads[k]? = some t) (is : t.prog = .act j next) (ran : y.fuse.exec answer j = .ok (s,some r)) :
    dotTells j r := by
  have sane := coherent.sane k t at_
  obtain ⟨facts,keeps,knows⟩ := sane.knows
  rw [is] at keeps
  have running : t.finished = false := by rw [Thread.finished,is]
  have step : Ran (y.others k) (y.otherPins k) (t.ghost facts) j y.fuse s r :=
    execRan (coherent.split at_) knows keeps.1 ⟨sane.pair,coherent.room at_ running⟩ ran
  have tells := step.tells
  cases j with
  | getPath want =>
    cases r with
    | error err => trivial
    | ok held => exact tells
  | _ => trivial

theorem pinnedNode {answer : Int} {id : Ino} {extra : Ptr → Nat} (steady : Steady extra s)
    (ran : s.exec answer (.pinNode id) = .ok (s',some (some p))) :
    ∃ n, s'.heap p = some n ∧ n.nodeid = id := by
  obtain ⟨⟨s₁,found⟩,pinned,ran⟩ := callBind ran
  cases ran
  unfold Fuse.pinNode at pinned
  split at pinned
  · cases pinned
  · next q found =>
    obtain ⟨n,deref,pinned⟩ := callBind pinned
    cases pinned
    obtain ⟨_,n',live,is⟩ := (steady.toStore.getNodeIff id).mp found
    rw [derefOk live] at deref
    cases deref
    exact ⟨_,putSelf ..,is⟩

theorem servesKept : KeptByMoves (Serves ino name k) := by
  intro y y' coherent moves serves
  obtain ⟨t,at_,now⟩ := serves
  cases moves.stays coherent at_ with
  | @same phase here spares =>
    refine ⟨_,here,now.imp_right fun dotted => ⟨dotted.replies,?_⟩⟩
    obtain ⟨g,keeps,holds,pins⟩ := dotted.knows
    refine ⟨g,keeps,holds,fun p is => ?_⟩
    obtain ⟨mem,n,live,target⟩ := pins p is
    obtain ⟨n',live',id⟩ := spares p mem n live
    exact ⟨mem,n',live',by rw [id]; exact target⟩
  | @served j next r answer phase is ran here spares =>
    refine ⟨_,here,?_⟩
    rcases now with told | dotted
    · rw [is] at told
      cases told with
      | forgets => exact .inl .done
    · obtain ⟨g,keeps,holds,pins⟩ := dotted.knows
      have replies := dotted.replies
      rw [is] at keeps replies
      obtain ⟨may,rest⟩ := keeps
      cases replies with
      | here told => exact .inl (told r)
      | later quiet replies =>
        have tells := coherent.servedTells at_ is ran
        refine .inr ⟨replies r,g.after j r,rest r _ ⟨quiet,rfl,tells⟩,?_⟩
        -- what is pinned stays so, unless it is given back
        have still : ∀ p, g.pin = some p → p ∈ j.pins r t.pins → p ∈ j.pins r t.pins ∧
            ∃ n, y'.fuse.heap p = some n ∧ g.target = some n.nodeid := by
          intro p is mem
          obtain ⟨_,n,live,target⟩ := pins p is
          obtain ⟨n',live',id⟩ := spares p mem n live
          exact ⟨mem,n',live',by rw [id]; exact target⟩
        cases j with
        | pinNode id =>
          cases r with
          | none => exact ⟨holds,fun p is => still p is (pins p is).1⟩
          | some q =>
            refine ⟨(fun h no => by cases no),fun p same => ?_⟩
            cases same
            obtain ⟨n,live,id⟩ := pinnedNode coherent.world.tree.toSteady ran
            exact ⟨List.mem_cons_self,n,live,by rw [id]; rfl⟩
        | parentId id => exact ⟨(fun h no => by cases no),(fun p no => by cases no)⟩
        | getPath want =>
          cases r with
          | error err => exact ⟨holds,fun p is => still p is (pins p is).1⟩
          | ok held =>
            refine ⟨fun h same => ?_,fun p is => still p is (pins p is).1⟩
            cases same
            exact List.mem_cons_self
        | callback op path path2 => exact ⟨holds,fun p is => still p is (pins p is).1⟩
        | findNode parent nm => exact ⟨holds,fun p is => still p is (pins p is).1⟩
        | freePath held => exact ⟨(fun h no => by cases no),fun p is => still p is (pins p is).1⟩
        | unpinNode node =>
          have given : g.pin = some node := may
          exact ⟨holds,(fun p no => by cases no)⟩
        | reply err => exact absurd rfl (quiet err)
        | _ => exact may.elim

/-! What the next critical section of a lookup of dots comes to. -/

/- The directory still has its parent when '..' is resolved, the parent is still there when the
path to it is asked for, and the pin of '.' is not the last thing that keeps a locked node. -/
def DotFits (name : Name) (s : Fuse) : Instr → Prop
  | .parentId ino => ∃ p n, s.getNodeNocheck ino = some p ∧ s.heap p = some n ∧ n.parent ≠ none
  | .getPath want => name = [46] ∨ s.getNodeNocheck want.nodeid ≠ none ∨ s.memory 0 = false
  | .unpinNode p => ¬ DropsLocked s p
  | _ => True

theorem Steady.parentLive {extra : Ptr → Nat} (steady : Steady extra s) (live : s.heap p = some n)
    (parent : n.parent = some q) :
    ∃ d, s.heap q = some d := by
  have plain : p ≠ 0 := by
    rintro rfl
    obtain ⟨r,atRoot,_,_,top⟩ := steady.shape.root
    rw [live] at atRoot
    cases atRoot
    rw [parent] at top
    cases top
  have named : n.name ≠ none := by
    intro none
    have orphan := (steady.shape.settled p n live (steady.alive p n live).2 (fun no => by cases no)).1 none
    rw [parent] at orphan
    cases orphan
  obtain ⟨_,q',d,_,live',_,parent',alive⟩ := steady.shape.namedParent ((steady.named live plain).mpr named)
  rw [live] at live'
  cases live'
  rw [parent] at parent'
  cases parent'
  exact ⟨d,alive⟩

theorem parentIdGoes {extra : Ptr → Nat} (steady : Steady extra s) (found : s.getNodeNocheck ino = some p)
    (live : s.heap p = some n) (parent : n.parent ≠ none) : ∃ id, s.parentId ino = .ok id := by
  obtain ⟨q,above⟩ := Option.ne_none_iff_exists'.mp parent
  obtain ⟨d,alive⟩ := steady.parentLive live above
  refine ⟨d.nodeid,?_⟩
  simp only [Fuse.parentId,getNodeOk found,bind,Except.bind,derefOk live,above,Fuse.derefNode,derefOk alive]

theorem unpinGoes {pins : List Ptr} {hs : List Held} (world : World hs pins s) (mem : p ∈ pins)
    (live : s.heap p = some n) (fits : ¬ DropsLocked s p) : ∃ s', s.unrefNode p = .ok s' := by
  have owed := world.tree.toStore
  have counts := unpinCounts [] mem
  simp only [List.append_nil] at counts
  rw [counts] at owed
  have cascade := unrefCascade owed live (apartNone _ _)
  cases result : s.unrefNode p with
  | ok s' => exact ⟨s',rfl⟩
  | error fault =>
    rw [result] at cascade
    cases cascade
    exact absurd (unrefLocked _ s p result) fits

theorem findKnown {parent : Ino} (answer : Int) (found : s.getNodeNocheck parent = some p) (live : s.heap p = some n) :
    ∃ o, s.exec answer (.findNode parent none) = .ok o := by
  have known : s.findNode parent none = .ok
      ((if s.lruEnabled ∧ n.nlookup = 1 then s.removeNodeLru p else s).put p n.incNlookup,some p) := by
    simp only [Fuse.findNode,getNodeOk found,Except.map,bind,Except.bind,derefOk live]
  simp only [Fuse.exec,known,bind,Except.bind,derefOk (putSelf ..)]
  exact ⟨_,rfl⟩

theorem shortPath (want : Want) (short : s.memory 0 = false) : ∃ o, s.tryGetPath want true = .ok o := by
  unfold Fuse.tryGetPath Fuse.takeMem
  rw [short]
  exact ⟨_,rfl⟩

theorem Dotted.goes (dotted : Dotted ino name y.fuse t) (coherent : Coherent y) (at_ : y.threads[k]? = some t)
    (is : t.prog = .act j next) (fits : DotFits name y.fuse j) (answer : Int) : ∃ o, y.fuse.exec answer j = .ok o := by
  obtain ⟨g,keeps,holds,pins⟩ := dotted.knows
  rw [is] at keeps
  obtain ⟨may,_⟩ := keeps
  have tree := coherent.world.tree
  cases j with
  | pinNode id =>
    cases found : y.fuse.getNodeNocheck id with
    | none =>
      simp only [Fuse.exec,Fuse.pinNode,found,bind,Except.bind]
      exact ⟨_,rfl⟩
    | some p =>
      obtain ⟨_,n,live,_⟩ := (tree.toStore.getNodeIff id).mp found
      simp only [Fuse.exec,Fuse.pinNode,found,bind,Except.bind,derefOk live]
      exact ⟨_,rfl⟩
  | parentId id =>
    obtain ⟨p,n,found,live,parent⟩ := fits
    obtain ⟨above,ran⟩ := parentIdGoes tree.toSteady found live parent
    simp only [Fuse.exec,ran,bind,Except.bind]
    exact ⟨_,rfl⟩
  | getPath want =>
    obtain ⟨target,_,reads,pinned⟩ := may
    have goes : ∃ r, y.fuse.tryGetPath want true = .ok r := by
      obtain ⟨r,ok,_⟩ | ⟨_,unknown⟩ := tryGetPathSpec tree (fun write => by rw [reads] at write; cases write)
      · exact ⟨r,ok⟩
      · rcases fits with dot | there | short
        · obtain ⟨p,pin⟩ := Option.ne_none_iff_exists'.mp (pinned dot)
          obtain ⟨_,n,live,same⟩ := pins p pin
          rw [target] at same
          have id : n.nodeid = want.nodeid := (Option.some.inj same).symm
          rw [(tree.toStore.getNodeIff want.nodeid).mpr ⟨(tree.alive p n live).1,n,live,id⟩] at unknown
          cases unknown
        · exact absurd unknown there
        · exact shortPath want short
    obtain ⟨r,ok⟩ := goes
    simp only [Fuse.exec,ok,bind,Except.bind]
    exact ⟨_,rfl⟩
  | callback op path path2 => exact ⟨_,rfl⟩
  | findNode parent nm =>
    obtain ⟨rfl,h,held,rfl⟩ := may
    have mem : h ∈ y.held := List.mem_flatMap.mpr ⟨t,List.mem_of_getElem? at_,holds h held⟩
    obtain ⟨p,_,_,found,_⟩ := coherent.world.locked.stands h mem
    obtain ⟨_,n,live,_⟩ := (tree.toStore.getNodeIff h.want.nodeid).mp found
    exact findKnown answer found live
  | freePath held =>
    have few : Few (t.holds ++ y.others k) := by
      have pair := (coherent.sane k t at_).pair
      have room := coherent.room at_ (by rw [Thread.finished,is])
      rw [Few,List.length_append]
      omega
    have perm : (t.holds ++ y.others k).Perm (held :: (t.holds.erase held ++ y.others k)) :=
      (List.perm_cons_erase (holds held may)).append_right _
    have world := (coherent.split at_).perm perm (.refl _)
    obtain ⟨_,_,_,_,_,_,ok,_⟩ := world.locked.unlocked (few.perm perm) world.tree
    simp only [Fuse.exec,ok,bind,Except.bind]
    exact ⟨_,rfl⟩
  | unpinNode p =>
    obtain ⟨mem,n,live,_⟩ := pins p may
    have pinned : p ∈ y.pinned := List.mem_flatMap.mpr ⟨t,List.mem_of_getElem? at_,mem⟩
    obtain ⟨s',ok⟩ := unpinGoes coherent.world pinned live fits
    simp only [Fuse.exec,ok,bind,Except.bind]
    exact ⟨_,rfl⟩
  | reply err => exact ⟨_,rfl⟩
  | _ => exact may.elim

/-! From the arrival of a lookup on. -/

inductive Follows (conf : Conf) (memory : Nat → Bool) (request : Request) (k : Nat) : Sys → Prop
  | arrives {y y' : Sys} (before : Visited conf memory y) (allowed : y.allowed (.arrive request))
      (ran : y.step (.arrive request) = .ok y')
      (number : k = y.threads.length) : Follows conf memory request k y'
  | step {y y' : Sys} {action : Action} (before : Follows conf memory request k y) (allowed : y.allowed action)
      (ran : y.step action = .ok y') : Follows conf memory request k y'
  | freed {y : Sys} {i : Nat} {t : Thread} {j next s answer r} (before : Follows conf memory request k y)
      (at_ : y.threads[i]? = some t)
      (running : t.phase = .running) (is : t.prog = .act j next) (frees : j.frees = true)
        (ran : y.fuse.exec answer j = .ok (s,some r)) :
      Follows conf memory request k
        {({y with fuse := s} : Sys).put i (t.take j next r .running) with lockq := y.lockq.erase i}
  | woken {y y' : Sys} {i : Nat} (before : Follows conf memory request k y) (queued : i ∈ y.lockq)
      (ran : y.wakeup i = .ok y') :
      Follows conf memory request k y'

theorem Follows.visited {request : Request} (follows : Follows conf memory request k y) : Visited conf memory y := by
  induction follows with
  | arrives before allowed ran => exact before.step allowed ran
  | step _ allowed ran ih => exact ih.step allowed ran
  | freed _ at_ running is frees ran ih => exact ih.freed at_ running is frees ran
  | woken _ queued ran ih => exact ih.woken queued ran

theorem Follows.serves {negative : Bool} (dots : name = [46] ∨ name = [46,46])
    (follows : Follows conf memory (.lookup negative ino name) k y) :
    Serves ino name k y := by
  induction follows with
  | @arrives y y' before allowed ran number =>
    cases ran
    subst number
    refine ⟨_,List.getElem?_concat_length,
      .inr ⟨lookupReplies negative ino name,⟨none,none,none⟩,dotLookup negative dots,?_,?_⟩⟩
    · exact fun h no => by cases no
    · exact fun p no => by cases no
  | step before allowed ran ih =>
    refine before.visited.coherent.stepKeeps servesKept (fun request _ => ?_) ran ih
    obtain ⟨t,at_,now⟩ := ih
    exact ⟨t,(List.getElem?_append_left (List.getElem?_eq_some_iff.mp at_).1).trans at_,now⟩
  | freed before at_ _ is _ ran ih => exact servesKept _ _ before.visited.coherent (.served at_ is ran _ _) ih
  | woken before _ ran ih => exact (wakeupSpec ran).keeps servesKept before.visited.coherent ih

/- A lookup of '.' or '..' is answered: until it is, every way on gives a reply, and its next
critical section comes to its end where it fits. -/
theorem dotLookupsAnswered {negative : Bool} (dots : name = [46] ∨ name = [46,46])
    (follows : Follows conf memory (.lookup negative ino name) k y)
    (fits : ∀ t j next, y.threads[k]? = some t → t.prog = .act j next → DotFits name y.fuse j) :
    ∃ t, y.threads[k]? = some t ∧ (Told t.prog ∨
      (Replies t.prog ∧ ∃ j next, t.prog = .act j next ∧ ∀ answer, ∃ o, y.fuse.exec answer j = .ok o)) := by
  obtain ⟨t,at_,now⟩ := follows.serves dots
  refine ⟨t,at_,now.imp_right fun dotted => ⟨dotted.replies,?_⟩⟩
  have ahead : ∃ j next, t.prog = .act j next := by
    have replies := dotted.replies
    cases is : t.prog with
    | done a =>
      rw [is] at replies
      cases replies
    | act j next => exact ⟨j,next,rfl⟩
  obtain ⟨j,next,is⟩ := ahead
  exact ⟨j,next,is,dotted.goes follows.visited.coherent at_ is (fits t j next at_ is)⟩

/-! Runs that are executed. -/

theorem followsSteps {request : Request} {actions : List Action} (follows : Follows conf memory request k y)
    (legal : y.legal actions) (ran : y.steps actions = .ok y') : Follows conf memory request k y' := by
  induction actions generalizing y with
  | nil =>
    cases ran
    exact follows
  | cons action actions ih =>
    simp only [Sys.legal,Bool.and_eq_true] at legal
    obtain ⟨allowed,rest⟩ := legal
    cases first : y.step action with
    | error fault =>
      simp only [Sys.steps,first] at ran
      cases ran
    | ok y₁ =>
      simp only [Sys.steps,first] at ran
      rw [first] at rest
      exact ih (.step follows allowed first) rest ran

def Sys.leadsOn (conf : Conf) (memory : Nat → Bool) (before : List Action) (request : Request) (k : Nat)
    (after : List Action) (check : Sys → Bool) : Bool :=
  (Sys.start conf memory).legal before && ((Sys.start conf memory).steps before).toOption.any fun y =>
    decide (k = y.threads.length) && y.allowed (.arrive request) && (y.step (.arrive request)).toOption.any fun y =>
      y.legal after && (y.steps after).toOption.any check

theorem leadsFollows {before after : List Action} {request : Request} {check : Sys → Bool}
    (leads : Sys.leadsOn conf memory before request k after check = true) :
    ∃ y, Follows conf memory request k y ∧ check y = true := by
  simp only [Sys.leadsOn,Bool.and_eq_true] at leads
  obtain ⟨legal,leads⟩ := leads
  obtain ⟨y,result,leads⟩ := ranSo leads
  simp only [Bool.and_eq_true,decide_eq_true_eq] at leads
  obtain ⟨⟨number,allowed⟩,leads⟩ := leads
  obtain ⟨y₁,arrived,leads⟩ := ranSo leads
  rw [Bool.and_eq_true] at leads
  obtain ⟨y₂,ran,passes⟩ := ranSo leads.2
  exact ⟨y₂,followsSteps
    (.arrives (stepsReachable .start legal result).visited allowed arrived number) leads.1 ran,passes⟩

def dotDot : Name := [46,46]

def directoryKnown : List Action := .arrive (.lookup false 1 (ascii "d")) :: List.replicate 5 (.run 0 0)

def Sys.asks (y : Sys) (k : Nat) : Option Want :=
  y.threads[k]?.bind fun t => match t.prog with
    | .act (.getPath want) _ => some want
    | _ => none

theorem asksSo {want : Want} (asks : y.asks k = some want) (at_ : y.threads[k]? = some t) (is : t.prog = .act j next) :
    j = .getPath want := by
  simp only [Sys.asks,at_,is,Option.bind_some] at asks
  cases j with
  | getPath asked => exact congrArg Instr.getPath (Option.some.inj asks)
  | _ => cases asks

theorem parentIsFound :
    ∃ y t, Follows ⟨0,false,false⟩ (fun _ => true) (.lookup false 2 dotDot) 1 y ∧ y.threads[1]? = some t ∧
      (Told t.prog ∨
    (Replies t.prog ∧ ∃ j next, t.prog = .act j next ∧ ∀ answer, ∃ o, y.fuse.exec answer j = .ok o)) := by
  have leads : Sys.leadsOn ⟨0,false,false⟩ (fun _ => true) directoryKnown
    (.lookup false 2 dotDot) 1 [.run 1 0] (fun y =>
      decide (y.asks 1 = some ⟨1,none,false⟩) && decide (y.fuse.getNodeNocheck 1 ≠ none)) = true := by
    decide +kernel
  obtain ⟨y,follows,passes⟩ := leadsFollows leads
  simp only [Bool.and_eq_true,decide_eq_true_eq] at passes
  obtain ⟨asks,there⟩ := passes
  have answered := dotLookupsAnswered (.inr rfl) follows fun t j next at_ is => by
    rw [asksSo asks at_ is]
    exact .inr (.inl there)
  obtain ⟨t,at_,now⟩ := answered
  exact ⟨y,t,follows,at_,now⟩

/- The directory is removed while the kernel still knows it. -/
def parentRemoved : List Action := directoryKnown ++ .arrive (.rmdir 1 (ascii "d")) :: List.replicate 5 (.run 1 0)

def childKnown : List Action := directoryKnown ++ .arrive (.lookup false 2 (ascii "c")) :: List.replicate 5 (.run 1 0)

/- Between the two critical sections of the lookup its directory moves to the root and the parent
is forgotten. -/
def parentForgotten : List Action :=
  .run 2 0 :: .arrive (.rename 2 (ascii "c") 1 (ascii "c") false) :: List.replicate 5 (.run 3 0) ++
    .arrive (.forget 2 1) :: List.replicate 3 (.run 4 0)

def Sys.knows (y : Sys) (ino : Ino) : Bool :=
  ((y.fuse.getNodeNocheck ino).bind y.fuse.heap).any fun n => decide (0 < n.nlookup)

def Sys.faults (y : Sys) (k : Nat) (fault : Fault) : Bool :=
  match y.step (.run k 0) with
  | .ok _ => false
  | .error found => decide (found = fault)

theorem faultsSo {fault : Fault} (faults : y.faults k fault = true) : y.step (.run k 0) = .error fault := by
  unfold Sys.faults at faults
  split at faults
  · cases faults
  · next found result =>
    rw [result,of_decide_eq_true faults]

theorem dotDotFaults :
    (∃ y, Follows ⟨0,false,false⟩ (fun _ => true) (.lookup false 2 dotDot) 2 y ∧ y.knows 2 = true ∧
      y.step (.run 2 0) = .error .nullPointer) ∧
    ∃ y, Follows ⟨0,false,false⟩ (fun _ => true) (.lookup false 3 dotDot) 2 y ∧ y.knows 3 = true ∧
      y.step (.run 2 0) = .error .getNode := by
  have null : Sys.leadsOn ⟨0,false,false⟩ (fun _ => true) parentRemoved (.lookup false 2 dotDot) 2 []
      (fun y => y.knows 2 && y.faults 2 .nullPointer) = true := by
    decide +kernel
  have abort : Sys.leadsOn ⟨0,false,false⟩ (fun _ => true) childKnown (.lookup false 3 dotDot) 2 parentForgotten
      (fun y => y.knows 3 && y.faults 2 .getNode) = true := by
    decide +kernel
  obtain ⟨y,follows,passes⟩ := leadsFollows null
  obtain ⟨y₁,follows₁,passes₁⟩ := leadsFollows abort
  rw [Bool.and_eq_true] at passes passes₁
  exact ⟨⟨y,follows,passes.1,faultsSo passes.2⟩,y₁,follows₁,passes₁.1,faultsSo passes₁.2⟩

end FuseStudy.NodeStore
