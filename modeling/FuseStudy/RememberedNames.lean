import FuseStudy.IdentityRuns

/-! With conf.remember set a node that has a name holds one lookup of the library's own
besides the kernel's. unlink_node asserts that there is a lookup to spare, and there is one
exactly when the kernel still holds one. -/
namespace FuseStudy.NodeStore
open CString LinearHash

variable {s s' t : Fuse} {p q : Ptr} {n m : Node} {kernel : Ptr → Nat} {Cut : Ptr → Prop}

/- Only a node with a name and a parent is found by name. -/
def Node.Placed (n : Node) : Prop := n.name ≠ none ∧ n.parent ≠ none

/- The root has the name "/" and no parent, so that unhash_name would follow a null pointer. -/
def Rooted (s : Fuse) : Prop := ∃ r, s.heap 0 = some r ∧ r.nodeid = rootId ∧ r.name ≠ none ∧ r.parent = none

def Spares {α : Type} (Good : α → Prop) (run : Except Fault α) : Prop := Outcome (· ≠ .unlinkCount) Good run

theorem Spares.bind {α β : Type} {Good : α → Prop} {Goal : β → Prop} {run : Except Fault α}
    {next : α → Except Fault β} (first : Spares Good run) (second : ∀ a, Good a → Spares Goal (next a)) :
    Spares Goal (run >>= next) :=
  Outcome.bind first second

theorem Spares.imp {α : Type} {Good Good' : α → Prop} {run : Except Fault α} (spares : Spares Good run)
    (better : ∀ a, Good a → Good' a) : Spares Good' run :=
  Outcome.imp spares (fun _ h => h) better

theorem Spares.fault {α : Type} (Good : α → Prop) {fault : Fault} (other : fault ≠ .unlinkCount) :
    Spares Good (.error fault) := other

theorem derefSpares (s : Fuse) (p : Ptr) : Spares (fun n => s.heap p = some n) (s.deref p) := by
  unfold Fuse.deref
  cases live : s.heap p with
  | none => exact .fault _ nofun
  | some n => exact rfl

theorem getNodeSpares (s : Fuse) (i : Ino) : Spares (fun p => s.getNodeNocheck i = some p) (s.getNode i) := by
  unfold Fuse.getNode
  cases found : s.getNodeNocheck i with
  | none => exact .fault _ nofun
  | some p => exact rfl

/- Nodes keep their lookups and none comes to a name; those cut have lost theirs. -/
structure Sheds (Cut : Ptr → Prop) (s s' : Fuse) : Prop where
  conf : s'.conf = s.conf
  brk : s'.brk = s.brk
  nodes : ∀ p n', s'.heap p = some n' → ∃ n, s.heap p = some n ∧ (¬ Cut p → n'.nlookup = n.nlookup) ∧
    (n'.Placed → n.Placed ∧ ¬ Cut p)
  rooted : Rooted s → Rooted s'

theorem Sheds.refl (s : Fuse) : Sheds Never s s :=
  ⟨rfl,rfl,fun _ n live => ⟨n,live,fun _ => rfl,fun placed => ⟨placed,fun no => no⟩⟩,fun rooted => rooted⟩

theorem Sheds.trans {Cut' : Ptr → Prop} (first : Sheds Cut s t) (second : Sheds Cut' t s') :
    Sheds (fun p => Cut p ∨ Cut' p) s s' := by
  refine ⟨second.conf.trans first.conf,second.brk.trans first.brk,?_,fun rooted => second.rooted (first.rooted rooted)⟩
  intro p n' now
  obtain ⟨k,between,same',placed'⟩ := second.nodes p n' now
  obtain ⟨n,was,same,placed⟩ := first.nodes p k between
  refine ⟨n,was,fun uncut => ?_,fun last => ?_⟩
  · rw [same' (fun cut => uncut (.inr cut)),same (fun cut => uncut (.inl cut))]
  · obtain ⟨middle,uncut'⟩ := placed' last
    obtain ⟨start,uncut⟩ := placed middle
    exact ⟨start,fun cut => cut.elim uncut uncut'⟩

theorem Sheds.congr {Cut' : Ptr → Prop} (sheds : Sheds Cut s s') (same : ∀ p, Cut' p ↔ Cut p) : Sheds Cut' s s' := by
  have equal : Cut' = Cut := funext (fun p => propext (same p))
  rw [equal]
  exact sheds

theorem Sheds.then (first : Sheds Cut s t) (second : Sheds Never t s') : Sheds Cut s s' :=
  (first.trans second).congr (fun _ => ⟨.inl,fun either => either.elim (fun cut => cut) (fun no => absurd no id)⟩)

theorem Rooted.put (rooted : Rooted s) (live : s.heap p = some n) (id : m.nodeid = n.nodeid)
    (kept : p = 0 → m.name = n.name ∧ m.parent = n.parent) : Rooted (s.put p m) := by
  obtain ⟨r,atRoot,rootIs,named,parent⟩ := rooted
  by_cases here : p = 0
  · subst here
    rw [live] at atRoot
    cases atRoot
    obtain ⟨name,above⟩ := kept rfl
    exact ⟨m,putSelf ..,id.trans rootIs,name ▸ named,above.trans parent⟩
  · exact ⟨r,(putOther (Ne.symm here) ..).trans atRoot,rootIs,named,parent⟩

theorem Sheds.put (live : s.heap p = some n) (id : m.nodeid = n.nodeid) (lookups : m.nlookup = n.nlookup)
    (entry : m.name = n.name ∧ m.parent = n.parent) : Sheds Never s (s.put p m) := by
  refine ⟨rfl,rfl,?_,fun rooted => rooted.put live id (fun _ => entry)⟩
  intro q k now
  rcases atUpdate now with ⟨rfl,rfl⟩ | ⟨_,was⟩
  · refine ⟨n,live,fun _ => lookups,fun placed => ⟨?_,fun no => no⟩⟩
    rw [Node.Placed,entry.1,entry.2] at placed
    exact placed
  · exact ⟨k,was,fun _ => rfl,fun placed => ⟨placed,fun no => no⟩⟩

theorem Sheds.tables (s : Fuse) (names ids : Table Ptr) (lru : List Ptr) (memory : Nat → Bool) :
    Sheds Never s {s with nameTable := names, idTable := ids, lruTable := lru, memory := memory} :=
  ⟨rfl,rfl,fun _ n live => ⟨n,live,fun _ => rfl,fun placed => ⟨placed,fun no => no⟩⟩,fun rooted => rooted⟩

def Unplaced (p : Ptr) (s : Fuse) : Prop := ∀ n, s.heap p = some n → ¬ n.Placed

def UnrefSheds (unref : Fuse → Ptr → Except Fault Fuse) : Prop := ∀ s p, Spares (Sheds Never s) (unref s p)

variable {unref : Fuse → Ptr → Except Fault Fuse}

/- unhash_name comes back for the root only if the root was lost before. -/
theorem unhashNameSheds (sheds : UnrefSheds unref) (s : Fuse) (p : Ptr) :
    Spares (fun s' => Sheds Never s s' ∧ Unplaced p s' ∧ (Rooted s → p ≠ 0)) (unhashNameWith unref s p) := by
  unfold unhashNameWith
  refine (derefSpares s p).bind ?_
  intro n live
  have atRoot : ∀ name, n.name = name → Rooted s → p = 0 → n.parent = none ∧ name ≠ none := by
    rintro name rfl ⟨r,atRoot,_,named,parent⟩ rfl
    rw [live] at atRoot
    cases atRoot
    exact ⟨parent,named⟩
  split
  · rename_i unset
    refine ⟨.refl s,?_,fun rooted here => (atRoot none unset rooted here).2 rfl⟩
    intro k now placed
    rw [live] at now
    cases now
    exact placed.1 unset
  · exact .fault _ nofun
  · rename_i name q set parent
    have plain : Rooted s → p ≠ 0 := by
      intro rooted here
      have none := (atRoot _ set rooted here).1
      rw [parent] at none
      cases none
    split
    · exact .fault _ nofun
    · rename_i table _
      refine (sheds _ _).bind ?_
      intro t first
      refine (derefSpares t p).bind ?_
      intro k now
      have before : Sheds Never s t := (Sheds.tables s table s.idTable s.lruTable s.memory).then first
      have cleared : Sheds Never s (t.put p {k with name := none, parent := none}) := by
        refine ⟨before.conf,before.brk,?_,?_⟩
        · intro r j after
          rcases atUpdate after with ⟨rfl,rfl⟩ | ⟨_,old⟩
          · obtain ⟨i,was,same,_⟩ := before.nodes r k now
            exact ⟨i,was,same,fun placed => absurd rfl placed.1⟩
          · exact before.nodes r j old
        · intro rooted
          exact (before.rooted rooted).put now rfl (fun here => absurd here (plain rooted))
      refine ⟨cleared.then (.tables ..),?_,plain⟩
      intro j after placed
      have own : (t.put p {k with name := none, parent := none}).heap p = some j := after
      rw [putSelf] at own
      cases own
      exact placed.1 rfl

theorem unhashIdFreed (s : Fuse) (p : Ptr) : ((s.unhashId p).freeNode p).heap = Function.update s.heap p none ∧
    ((s.unhashId p).freeNode p).conf = s.conf ∧ ((s.unhashId p).freeNode p).brk = s.brk := by
  unfold Fuse.unhashId
  split <;> exact ⟨rfl,rfl,rfl⟩

theorem Sheds.freed (first : Sheds Never s t) (plain : Rooted s → p ≠ 0) :
    Sheds Never s ((t.unhashId p).freeNode p) := by
  obtain ⟨cells,conf,brk⟩ := unhashIdFreed t p
  refine ⟨conf.trans first.conf,brk.trans first.brk,?_,?_⟩
  · intro q k now
    rw [cells] at now
    by_cases here : q = p
    · rw [here,Function.update_self] at now
      cases now
    · rw [Function.update_of_ne here] at now
      exact first.nodes q k now
  · intro rooted
    obtain ⟨r,atRoot,kept⟩ := first.rooted rooted
    refine ⟨r,?_,kept⟩
    rw [cells,Function.update_of_ne (Ne.symm (plain rooted))]
    exact atRoot

theorem deleteNodeSheds (sheds : UnrefSheds unref) (s : Fuse) (p : Ptr) :
    Spares (Sheds Never s) (deleteNodeWith unref s p) := by
  unfold deleteNodeWith
  refine (derefSpares s p).bind ?_
  intro n live
  split
  · exact .fault _ nofun
  · refine (unhashNameSheds sheds s p).bind ?_
    rintro t ⟨first,_,plain⟩
    by_cases on : t.lruEnabled
    · simp only [on,if_true]
      exact (first.then (.tables t t.nameTable t.idTable (t.lruTable.erase p) t.memory)).freed plain
    · simp only [on]
      exact first.freed plain

theorem unrefLoopSheds (fuel : Nat) : UnrefSheds (unrefLoop fuel) := by
  induction fuel with
  | zero => exact fun s p => .fault _ (fun no => by cases no)
  | succ fuel ih =>
    intro s p
    unfold unrefLoop
    refine (derefSpares s p).bind ?_
    intro n live
    split
    · exact .fault _ (fun no => by cases no)
    · have dropped : Sheds Never s (s.put p {n with refctr := n.refctr - 1}) := .put live rfl rfl ⟨rfl,rfl⟩
      simp only
      split
      · exact (deleteNodeSheds ih _ p).imp fun _ rest => dropped.then rest
      · exact dropped

theorem unrefNodeSheds (s : Fuse) (p : Ptr) : Spares (Sheds Never s) (s.unrefNode p) := unrefLoopSheds _ s p

theorem unhashSheds (s : Fuse) (p : Ptr) :
    Spares (fun s' => Sheds Never s s' ∧ Unplaced p s' ∧ (Rooted s → p ≠ 0)) (s.unhashName p) :=
  unhashNameSheds unrefNodeSheds s p

/- hash_name changes no lookups and gives only its own node a name. -/
structure Titles (p : Ptr) (s s' : Fuse) : Prop where
  conf : s'.conf = s.conf
  brk : s'.brk = s.brk
  nodes : ∀ q n', s'.heap q = some n' → ∃ n, s.heap q = some n ∧ n'.nlookup = n.nlookup ∧ n'.nodeid = n.nodeid ∧
    (q ≠ p → n'.Placed → n.Placed)
  rooted : p ≠ 0 → Rooted s → Rooted s'

theorem Titles.put (live : s.heap p = some n) (id : m.nodeid = n.nodeid) (lookups : m.nlookup = n.nlookup) :
    Titles p s (s.put p m) := by
  refine ⟨rfl,rfl,?_,fun plain rooted => rooted.put live id (fun here => absurd here plain)⟩
  intro q k now
  rcases atUpdate now with ⟨rfl,rfl⟩ | ⟨_,was⟩
  · exact ⟨n,live,lookups,id,fun other => absurd rfl other⟩
  · exact ⟨k,was,rfl,rfl,fun _ placed => placed⟩

theorem hashNameTitles (s : Fuse) (p : Ptr) (dir : Ino) (name : Name) :
    Spares (fun r => Titles p s r.1) (s.hashName p dir name) := by
  unfold Fuse.hashName
  refine (getNodeSpares s dir).bind ?_
  intro q _
  have asked : ∃ memory, (if name.length < inlineName then (true,s) else s.takeMem).2 = {s with memory := memory} := by
    split
    · exact ⟨s.memory,rfl⟩
    · exact ⟨_,rfl⟩
  obtain ⟨memory,asked⟩ := asked
  generalize (if name.length < inlineName then (true,s) else s.takeMem) = answer at asked ⊢
  obtain ⟨copied,t⟩ := answer
  simp only at asked ⊢
  subst asked
  cases copied with
  | true =>
    refine (derefSpares _ q).bind ?_
    intro d above
    have counted : Sheds Never {s with memory := memory}
        ({s with memory := memory}.put q {d with refctr := d.refctr + 1}) := .put above rfl rfl ⟨rfl,rfl⟩
    refine (derefSpares _ p).bind ?_
    intro n live
    have titled : Titles p _ (({s with memory := memory}.put q {d with refctr := d.refctr + 1}).put p
      {n with name := some name, parent := some q}) := .put live rfl rfl
    refine ⟨rfl,rfl,?_,fun plain rooted => titled.rooted plain (counted.rooted rooted)⟩
    intro r k now
    obtain ⟨i,between,same,id,placed⟩ := titled.nodes r k now
    rcases atUpdate between with ⟨rfl,rfl⟩ | ⟨_,was⟩
    · exact ⟨d,above,same,id,fun other last => placed other last⟩
    · exact ⟨i,was,same,id,placed⟩
  | false =>
    refine (derefSpares _ p).bind ?_
    intro n live
    have unnamed : Titles p {s with memory := memory} ({s with memory := memory}.put p {n with name := none}) :=
      .put live rfl rfl
    exact ⟨rfl,rfl,unnamed.nodes,unnamed.rooted⟩

/- The kernel's lookups of a node with a name are all its lookups but one. -/
structure Accounted (kernel : Ptr → Nat) (s : Fuse) : Prop where
  remember : s.conf.remember ≠ 0
  rooted : Rooted s
  placed : ∀ p n, s.heap p = some n → n.Placed → n.nlookup = kernel p + 1
  fresh : ∀ p, s.brk ≤ p → kernel p = 0

theorem Accounted.sheds (accounted : Accounted kernel s) (sheds : Sheds Cut s s') : Accounted kernel s' := by
  refine ⟨by rw [sheds.conf]; exact accounted.remember,sheds.rooted accounted.rooted,?_,?_⟩
  · intro p n' now placed
    obtain ⟨n,was,same,before⟩ := sheds.nodes p n' now
    obtain ⟨start,uncut⟩ := before placed
    rw [same uncut]
    exact accounted.placed p n was start
  · rw [sheds.brk]
    exact accounted.fresh

theorem Accounted.titles (accounted : Accounted kernel s) (titles : Titles p s s') (plain : p ≠ 0)
    (lookups : ∀ n, s.heap p = some n → n.nlookup = kernel p + 1) : Accounted kernel s' := by
  refine ⟨by rw [titles.conf]; exact accounted.remember,titles.rooted plain accounted.rooted,?_,?_⟩
  · intro q n' now placed
    obtain ⟨n,was,same,_,before⟩ := titles.nodes q n' now
    rw [same]
    by_cases here : q = p
    · subst here
      exact lookups n was
    · exact accounted.placed q n was (before here placed)
  · rw [titles.brk]
    exact accounted.fresh

theorem lookupPlaced {dir : Ino} {name : Name} (found : s.lookupNode dir name = some p) :
    s.entry p = some (dir,name) ∧ ∃ n, s.heap p = some n ∧ n.Placed := by
  unfold Fuse.lookupNode find at found
  have holds := List.find?_some found
  have entry : s.entry p = some (dir,name) := of_decide_eq_true holds
  obtain ⟨n,q,d,live,named,parent,_⟩ := entryIff.mp entry
  exact ⟨entry,n,live,by rw [named]; nofun,by rw [parent]; nofun⟩

theorem Rooted.unplaced (rooted : Rooted s) : Unplaced 0 s := by
  obtain ⟨r,atRoot,_,_,parent⟩ := rooted
  intro n live placed
  rw [atRoot] at live
  cases live
  exact placed.2 parent

theorem Accounted.found {dir : Ino} {name : Name} (accounted : Accounted kernel s)
    (found : s.lookupNode dir name = some p) : p ≠ 0 ∧ ∃ n, s.heap p = some n ∧ n.nlookup = kernel p + 1 := by
  obtain ⟨_,n,live,placed⟩ := lookupPlaced found
  refine ⟨?_,n,live,accounted.placed p n live placed⟩
  rintro rfl
  exact accounted.rooted.unplaced n live placed

theorem unlinkSheds (accounted : Accounted kernel s) (live : s.heap p = some n) (lookups : n.nlookup = kernel p + 1) :
    (kernel p = 0 → s.unlinkNode p = .error .unlinkCount) ∧
    (kernel p ≠ 0 → Spares (fun s' => Sheds (· = p) s s') (s.unlinkNode p)) := by
  have unlink : s.unlinkNode p = if n.nlookup ≤ 1 then .error .unlinkCount
      else (s.put p {n with nlookup := n.nlookup - 1}).unhashName p := by
    simp only [Fuse.unlinkNode,accounted.remember,ne_eq,not_false_eq_true,if_true,derefOk live]
    rfl
  rw [unlink]
  constructor
  · intro none
    exact if_pos (by omega)
  · intro held
    rw [if_neg (by omega)]
    refine (unhashSheds _ p).imp ?_
    rintro s' ⟨rest,unplaced,_⟩
    refine ⟨rest.conf,rest.brk,?_,?_⟩
    · intro q n' now
      obtain ⟨k,between,same,placed⟩ := rest.nodes q n' now
      rcases atUpdate between with ⟨rfl,rfl⟩ | ⟨other,was⟩
      · exact ⟨n,live,fun uncut => absurd rfl uncut,fun last => absurd last (unplaced n' now)⟩
      · exact ⟨k,was,fun _ => same id,fun last => ⟨(placed last).1,other⟩⟩
    · intro rooted
      exact rest.rooted (rooted.put live rfl (fun _ => ⟨rfl,rfl⟩))

/- The node a call takes the name from, for good. -/
def Session.target (t : Session) : Call → Option Ptr
  | .remove dir name => t.fuse.lookupNode dir name
  | .rename olddir oldname newdir newname hide =>
    if (t.fuse.lookupNode olddir oldname).isSome && !hide then t.fuse.lookupNode newdir newname else none
  | _ => none

def Call.takesForgotten (t : Session) (call : Call) : Bool := (t.target call).any (fun p => t.kernel p == 0)

/- A node that is being renamed: it may be without a name for a while, its lookups stay. -/
structure Moving (kernel : Ptr → Nat) (p : Ptr) (s : Fuse) : Prop where
  accounted : Accounted kernel s
  plain : p ≠ 0
  lookups : ∀ n, s.heap p = some n → n.nlookup = kernel p + 1

theorem Accounted.moving {dir : Ino} {name : Name} (accounted : Accounted kernel s)
    (found : s.lookupNode dir name = some p) : Moving kernel p s := by
  obtain ⟨plain,n,live,lookups⟩ := accounted.found found
  refine ⟨accounted,plain,?_⟩
  intro k now
  rw [live] at now
  cases now
  exact lookups

theorem Moving.sheds (moving : Moving kernel p s) (sheds : Sheds Cut s s') (uncut : ¬ Cut p) :
    Moving kernel p s' := by
  refine ⟨moving.accounted.sheds sheds,moving.plain,?_⟩
  intro n now
  obtain ⟨k,was,same,_⟩ := sheds.nodes p n now
  rw [same uncut]
  exact moving.lookups k was

theorem Moving.titles (moving : Moving kernel q s) (titled : Titles p s s') (plain : p ≠ 0)
    (lookups : ∀ n, s.heap p = some n → n.nlookup = kernel p + 1) : Moving kernel q s' := by
  refine ⟨moving.accounted.titles titled plain lookups,moving.plain,?_⟩
  intro n now
  obtain ⟨k,was,same,_⟩ := titled.nodes q n now
  rw [same]
  exact moving.lookups k was

theorem Moving.unhash (moving : Moving kernel p s) (q : Ptr) :
    Spares (fun t => Sheds Never s t ∧ Moving kernel p t) (s.unhashName q) :=
  (unhashSheds s q).imp fun _ done => ⟨done.1,moving.sheds done.1 id⟩

theorem Moving.hash (moving : Moving kernel p s) (dir : Ino) (name : Name) :
    Spares (fun r => Titles p s r.1 ∧ Moving kernel p r.1) (s.hashName p dir name) :=
  (hashNameTitles s p dir name).imp fun _ titled => ⟨titled,moving.titles titled moving.plain moving.lookups⟩

/- The part of rename_node after the target is out of the way. -/
theorem Moving.moved (moving : Moving kernel p s) (newdir : Ino) (newname : Name) (hide : Bool) :
    Spares (fun r : Fuse × Int => Accounted kernel r.1) (do
      let s ← s.unhashName p
      let (s,hashed) ← s.hashName p newdir newname
      if hashed then
        if hide then
          let n ← s.deref p
          .ok (s.put p {n with isHidden := true},0)
        else .ok (s,0)
      else .ok (s,-enomem)) := by
  refine (moving.unhash p).bind ?_
  rintro t ⟨_,second⟩
  refine (second.hash newdir newname).bind ?_
  rintro ⟨u,hashed⟩ ⟨_,third⟩
  simp only
  split
  · split
    · refine (derefSpares u p).bind ?_
      intro n live
      have hidden : Sheds Never u (u.put p {n with isHidden := true}) := .put live rfl rfl ⟨rfl,rfl⟩
      exact third.accounted.sheds hidden
    · exact third.accounted
  · exact third.accounted

theorem renameAccounted {olddir newdir : Ino} {oldname newname : Name} (hide : Bool)
    (accounted : Accounted kernel s) (names : (olddir,oldname) ≠ (newdir,newname))
    (held : (s.lookupNode olddir oldname).isSome → hide = false →
      ∀ q, s.lookupNode newdir newname = some q → kernel q ≠ 0) :
    Spares (fun r : Fuse × Int => Accounted kernel r.1) (s.renameNode olddir oldname newdir newname hide) := by
  unfold Fuse.renameNode
  cases source : s.lookupNode olddir oldname with
  | none => exact accounted
  | some p =>
    have moving := accounted.moving source
    rw [source] at held
    cases target : s.lookupNode newdir newname with
    | none => exact moving.moved newdir newname hide
    | some q =>
      cases hide with
      | true => exact accounted
      | false =>
        have apart : p ≠ q := by
          rintro rfl
          have one := (lookupPlaced source).1
          rw [(lookupPlaced target).1] at one
          exact names (Option.some.inj one).symm
        obtain ⟨_,n,live,lookups⟩ := accounted.found target
        have unlinked := (unlinkSheds accounted live lookups).2 (held rfl rfl q target)
        refine Spares.bind unlinked ?_
        intro t first
        exact (moving.sheds first apart).moved newdir newname false

theorem renameForgotten {olddir newdir : Ino} {oldname newname : Name} (accounted : Accounted kernel s)
    (source : (s.lookupNode olddir oldname).isSome) (target : s.lookupNode newdir newname = some q)
    (none : kernel q = 0) :
    s.renameNode olddir oldname newdir newname false = .error .unlinkCount := by
  obtain ⟨p,source⟩ := Option.isSome_iff_exists.mp source
  obtain ⟨_,n,live,lookups⟩ := accounted.found target
  have asserts := (unlinkSheds accounted live lookups).1 none
  unfold Fuse.renameNode
  simp only [source,target,Option.isSome_some,true_and,Bool.false_eq_true,if_false,asserts]
  rfl

theorem removeAccounted {dir : Ino} {name : Name} (accounted : Accounted kernel s)
    (held : ∀ q, s.lookupNode dir name = some q → kernel q ≠ 0) :
    Spares (Accounted kernel) (s.removeNode dir name) := by
  unfold Fuse.removeNode
  cases target : s.lookupNode dir name with
  | none => exact accounted
  | some q =>
    obtain ⟨_,n,live,lookups⟩ := accounted.found target
    exact ((unlinkSheds accounted live lookups).2 (held q target)).imp fun _ first => accounted.sheds first

theorem removeForgotten {dir : Ino} {name : Name} (accounted : Accounted kernel s)
    (target : s.lookupNode dir name = some q) (none : kernel q = 0) :
    s.removeNode dir name = .error .unlinkCount := by
  obtain ⟨_,n,live,lookups⟩ := accounted.found target
  simp only [Fuse.removeNode,target]
  exact (unlinkSheds accounted live lookups).1 none

theorem hashNodeAccounted {node : Option Ptr} (accounted : Accounted kernel s)
    (moving : ∀ p, node = some p → Moving kernel p s) (dir : Ino) (name : Name) :
    Spares (fun r => Accounted kernel r.1 ∧ ∀ q, Moving kernel q s → Moving kernel q r.1)
      (s.hashNode node dir name) := by
  cases node with
  | none => exact ⟨accounted,fun _ same => same⟩
  | some p =>
    have mine := moving p rfl
    refine (mine.hash dir name).imp ?_
    rintro r ⟨titled,done⟩
    exact ⟨done.accounted,fun q other => other.titles titled mine.plain mine.lookups⟩

theorem unhashNodeAccounted (node : Option Ptr) (accounted : Accounted kernel s) :
    Spares (fun t => Accounted kernel t ∧ ∀ p, Moving kernel p s → Moving kernel p t) (s.unhashNode node) := by
  cases node with
  | none => exact ⟨accounted,fun _ same => same⟩
  | some q =>
    refine (unhashSheds s q).imp ?_
    rintro t ⟨sheds,_,_⟩
    exact ⟨accounted.sheds sheds,fun p moving => moving.sheds sheds id⟩

theorem exchangeAccounted (olddir : Ino) (oldname : Name) (newdir : Ino) (newname : Name)
    (accounted : Accounted kernel s) :
    Spares (fun r : Fuse × Int => Accounted kernel r.1) (s.exchangeNode olddir oldname newdir newname) := by
  have source : ∀ p, s.lookupNode olddir oldname = some p → Moving kernel p s := fun p found => accounted.moving found
  have target : ∀ p, s.lookupNode newdir newname = some p → Moving kernel p s := fun p found => accounted.moving found
  unfold Fuse.exchangeNode
  generalize s.lookupNode olddir oldname = oldnode at source ⊢
  generalize s.lookupNode newdir newname = newnode at target ⊢
  refine (unhashNodeAccounted oldnode accounted).bind ?_
  rintro t ⟨first,kept⟩
  refine (unhashNodeAccounted newnode first).bind ?_
  rintro u ⟨second,kept₂⟩
  have before : ∀ p, Moving kernel p s → Moving kernel p u := fun p moving => kept₂ p (kept p moving)
  refine (hashNodeAccounted second (fun p is => before p (source p is)) newdir newname).bind ?_
  rintro ⟨v,hashed⟩ ⟨third,kept₃⟩
  simp only
  split
  · refine (hashNodeAccounted third (fun p is => kept₃ p (before p (target p is))) olddir oldname).bind ?_
    rintro ⟨w,again⟩ ⟨fourth,_⟩
    simp only
    split
    · exact fourth
    · exact fourth
  · exact third

theorem Accounted.looked (accounted : Accounted kernel s) (live : s.heap p = some n) (low : p < s.brk) :
    Accounted (Function.update kernel p (kernel p + 1)) (s.put p n.incNlookup) := by
  refine ⟨accounted.remember,accounted.rooted.put live rfl (fun _ => ⟨rfl,rfl⟩),?_,?_⟩
  · intro q k now placed
    rcases atUpdate now with ⟨rfl,rfl⟩ | ⟨other,was⟩
    · rw [Function.update_self]
      exact congrArg (· + 1) (accounted.placed q n live placed)
    · rw [Function.update_of_ne other]
      exact accounted.placed q k was placed
  · intro q above
    have other : q ≠ p := fun same => Nat.not_le.mpr low (same ▸ above)
    rw [Function.update_of_ne other]
    exact accounted.fresh q above

theorem Identified.low (known : Identified none s) (live : s.heap p = some n) : p < s.brk := by
  by_contra above
  rw [known.bound p (Nat.not_lt.mp above)] at live
  cases live

theorem hashIdSheds (s : Fuse) (p : Ptr) : Sheds Never s (s.hashId p) :=
  ⟨rfl,rfl,fun _ n live => ⟨n,live,fun _ => rfl,fun placed => ⟨placed,fun no => no⟩⟩,fun rooted => rooted⟩

theorem createAccounted {memory : Nat → Bool} {ctr generation : Nat} (known : Identified none s)
    (accounted : Accounted kernel s) (bare : n.name = none) (one : n.nlookup = 1) (parent : Ino) (name : Name) :
    Spares (fun r : Fuse × Option Ptr => (r.2 = none ∧ Accounted kernel r.1) ∨
        (r.2 = some s.brk ∧ Accounted (Function.update kernel s.brk (kernel s.brk + 1)) r.1)) (do
      let (s',hashed) ← ({s with brk := s.brk + 1, ctr := ctr, generation := generation, memory := memory}.put
        s.brk n).hashName s.brk parent name
      if hashed then
        let s' := s'.hashId s.brk
        let n ← s'.deref s.brk
        .ok (s'.put s.brk n.incNlookup,some s.brk)
      else .ok (s'.freeNode s.brk,none)) := by
  have plain : s.brk ≠ 0 := by
    obtain ⟨r,atRoot,_⟩ := accounted.rooted
    exact Nat.ne_of_gt (known.low atRoot)
  have cells : ∀ q k, ({s with brk := s.brk + 1, ctr := ctr, generation := generation, memory := memory}.put
      s.brk n).heap q = some k → (q = s.brk ∧ k = n) ∨ (q ≠ s.brk ∧ s.heap q = some k) := fun q k => atUpdate
  have begun : Accounted kernel
      ({s with brk := s.brk + 1, ctr := ctr, generation := generation, memory := memory}.put s.brk n) := by
    refine ⟨accounted.remember,?_,?_,fun q above => accounted.fresh q (Nat.le_of_succ_le above)⟩
    · obtain ⟨r,atRoot,kept⟩ := accounted.rooted
      exact ⟨r,(putOther (Ne.symm plain) ..).trans atRoot,kept⟩
    · intro q k now placed
      rcases cells q k now with ⟨_,rfl⟩ | ⟨_,was⟩
      · exact absurd bare placed.1
      · exact accounted.placed q k was placed
  have lookups : ∀ k, ({s with brk := s.brk + 1, ctr := ctr, generation := generation, memory := memory}.put
      s.brk n).heap s.brk = some k → k.nlookup = kernel s.brk + 1 := by
    intro k now
    rw [putSelf] at now
    cases now
    rw [one,accounted.fresh s.brk (Nat.le_refl _)]
  have brk : ({s with brk := s.brk + 1, ctr := ctr, generation := generation, memory := memory}.put s.brk
    n).brk = s.brk + 1 := rfl
  generalize ({s with brk := s.brk + 1, ctr := ctr, generation := generation, memory := memory} : Fuse).put s.brk n = t
    at begun lookups brk ⊢
  refine (hashNameTitles t s.brk parent name).bind ?_
  rintro ⟨u,hashed⟩ titled
  have named : Accounted kernel u := begun.titles titled plain lookups
  have brkU : u.brk = s.brk + 1 := titled.brk.trans brk
  cases hashed with
  | false =>
    refine .inl ⟨rfl,named.remember,?_,?_,named.fresh⟩
    · obtain ⟨r,atRoot,kept⟩ := named.rooted
      exact ⟨r,(Function.update_of_ne (Ne.symm plain) ..).trans atRoot,kept⟩
    · intro q k now
      by_cases here : q = s.brk
      · simp [Fuse.freeNode,here] at now
      · exact named.placed q k (by simpa [Fuse.freeNode,here] using now)
  | true =>
    simp only [if_true]
    refine (derefSpares _ s.brk).bind ?_
    intro k live
    have hashedIn : Accounted kernel (u.hashId s.brk) := named.sheds (hashIdSheds u s.brk)
    have low : s.brk < (u.hashId s.brk).brk := by
      show s.brk < u.brk
      rw [brkU]
      exact Nat.lt_succ_self _
    exact .inr ⟨rfl,hashedIn.looked live low⟩

theorem nextIdSpares (s : Fuse) :
    Spares (fun s' => ∃ ctr generation, s' = {s with ctr := ctr, generation := generation}) s.nextId := by
  rcases nextIdLoopSpec (2 ^ 32) s with exhausted | ⟨ctr,generation,found,_⟩
  · rw [Fuse.nextId,exhausted]
    exact .fault _ (fun no => by cases no)
  · rw [Fuse.nextId,found]
    exact ⟨ctr,generation,rfl⟩

theorem findAccounted {t : Session} (known : Identified none t.fuse) (accounted : Accounted t.kernel t.fuse)
    (parent : Ino) (name : Option Name) :
    Spares (fun r : Fuse × Option Ptr => Accounted (t.granted r.2) r.1) (t.fuse.findNode parent name) := by
  have existing : ∀ p, Spares (fun r : Fuse × Option Ptr => Accounted (t.granted r.2) r.1) (do
      let n ← t.fuse.deref p
      let s := if t.fuse.lruEnabled ∧ n.nlookup = 1 then t.fuse.removeNodeLru p else t.fuse
      .ok (s.put p n.incNlookup,some p)) := by
    intro p
    refine (derefSpares t.fuse p).bind ?_
    intro n live
    simp only
    split
    · have off : Accounted t.kernel (t.fuse.removeNodeLru p) :=
        accounted.sheds (.tables t.fuse t.fuse.nameTable t.fuse.idTable (t.fuse.lruTable.erase p) t.fuse.memory)
      exact off.looked live (known.low live)
    · exact accounted.looked live (known.low live)
  unfold Fuse.findNode
  cases name with
  | none =>
    dsimp only
    have looked := getNodeSpares t.fuse parent
    cases result : t.fuse.getNode parent with
    | error fault =>
      rw [result] at looked
      exact looked
    | ok p => exact existing p
  | some name =>
    dsimp only
    cases t.fuse.lookupNode parent name with
    | some p => exact existing p
    | none =>
      cases memory : t.fuse.memory 0 with
      | false =>
        simp only [okBind,Fuse.takeMem,memory]
        exact accounted.sheds (.tables t.fuse t.fuse.nameTable t.fuse.idTable t.fuse.lruTable _)
      | true =>
        simp only [okBind,Fuse.takeMem,memory,if_true]
        refine Spares.bind (nextIdSpares _) ?_
        rintro u ⟨ctr,generation,rfl⟩
        simp only [putOver]
        split
        · refine (createAccounted known accounted rfl rfl parent name).imp ?_
          rintro r (⟨none,done⟩ | ⟨made,done⟩)
          · rw [none]
            exact done
          · rw [made]
            exact done
        · rename_i forgets
          exact absurd accounted.remember forgets

/- The root is never found by name, so what the kernel gives back of it does not matter. -/
theorem forgetAccounted {t : Session} (known : Identified none t.fuse) (accounted : Accounted t.kernel t.fuse)
    {nodeid : Ino} {nlookup : Nat} (enough : nlookup ≤ t.holds nodeid) :
    Spares (fun s' => Accounted (t.returned nodeid nlookup) s') (t.fuse.forgetNode nodeid nlookup) := by
  have fresh : ∀ p, t.fuse.brk ≤ p → t.returned nodeid nlookup p = 0 := by
    intro p above
    have less := t.returnedLe nodeid nlookup p
    rw [accounted.fresh p above] at less
    exact Nat.le_zero.mp less
  unfold Fuse.forgetNode
  split
  · rename_i root
    refine ⟨accounted.remember,accounted.rooted,?_,fresh⟩
    intro p n live placed
    have other : p ≠ 0 := fun here => accounted.rooted.unplaced n (here ▸ live) placed
    have same : t.returned nodeid nlookup p = t.kernel p := by
      cases found : t.fuse.getNodeNocheck nodeid with
      | none => simp only [Session.returned,found]
      | some q =>
        obtain ⟨_,k,atQ,id⟩ := (known.getNodeIff nodeid).mp found
        obtain ⟨r,atRoot,rootIs,_⟩ := accounted.rooted
        have here : q = 0 := known.distinct q 0 k r (fun no => by cases no)
          (fun no => by cases no) atQ atRoot (by rw [id,rootIs,root])
        simp only [Session.returned,found,here,Function.update_of_ne other]
    rw [same]
    exact accounted.placed p n live placed
  · refine (getNodeSpares t.fuse nodeid).bind ?_
    intro p found
    refine (derefSpares t.fuse p).bind ?_
    intro n live
    simp only
    split
    · exact .fault _ (fun no => by cases no)
    · rw [Session.holds,found] at enough
      simp only at enough
      have less : Accounted (t.returned nodeid nlookup) (t.fuse.put p {n with nlookup := n.nlookup - nlookup}) := by
        refine ⟨accounted.remember,accounted.rooted.put live rfl (fun _ => ⟨rfl,rfl⟩),?_,fresh⟩
        intro q k now placed
        simp only [Session.returned,found]
        rcases atUpdate now with ⟨rfl,rfl⟩ | ⟨other,was⟩
        · have lookups := accounted.placed q n live placed
          rw [Function.update_self]
          simp only
          omega
        · rw [Function.update_of_ne other]
          exact accounted.placed q k was placed
      split
      · exact (unrefNodeSheds _ p).imp fun _ rest => less.sheds rest
      · split
        · exact less.sheds (.tables ..)
        · exact less

theorem cleanLoopSheds (aged : Ptr → Bool) (fuel : Nat) (s : Fuse) (at_ : Option Ptr) :
    Spares (fun s' => ∃ Cut, Sheds Cut s s') (cleanLoop aged fuel s at_) := by
  induction fuel generalizing s at_ with
  | zero =>
    cases at_ with
    | none => exact ⟨_,Sheds.refl s⟩
    | some p => exact .fault _ (fun no => by cases no)
  | succ fuel ih =>
    cases at_ with
    | none => exact ⟨_,Sheds.refl s⟩
    | some p =>
      unfold cleanLoop
      refine (derefSpares s p).bind ?_
      intro n live
      split
      · split
        · exact .fault _ (fun no => by cases no)
        · split
          · exact ih s _
          · refine (unhashSheds (s.put p {n with nlookup := 0}) p).bind ?_
            rintro t ⟨first,unplaced,_⟩
            have taken : Sheds (· = p) s t := by
              refine ⟨first.conf,first.brk,?_,?_⟩
              · intro q n' now
                obtain ⟨k,between,same,placed⟩ := first.nodes q n' now
                rcases atUpdate between with ⟨rfl,rfl⟩ | ⟨other,was⟩
                · exact ⟨n,live,fun uncut => absurd rfl uncut,fun last => absurd last (unplaced n' now)⟩
                · exact ⟨k,was,fun _ => same id,fun last => ⟨(placed last).1,other⟩⟩
              · intro rooted
                exact first.rooted (rooted.put live rfl (fun _ => ⟨rfl,rfl⟩))
            refine (unrefNodeSheds t p).bind ?_
            intro u second
            refine (ih u _).imp ?_
            rintro s' ⟨Cut,rest⟩
            exact ⟨_,(taken.then second).trans rest⟩
      · exact ⟨_,Sheds.refl s⟩

theorem setLockSheds (s : Fuse) (p : Ptr) (treelock : Int) : Sheds Never s (s.setLock p treelock) := by
  unfold Fuse.setLock
  cases live : s.heap p with
  | none => exact .refl s
  | some n => exact .put live rfl rfl ⟨rfl,rfl⟩

/- Between calls: every call but one that takes the name of a forgotten node keeps the
account, and such a call fails the assertion. -/
theorem callAccounted {t : Session} (known : Identified none t.fuse) (accounted : Accounted t.kernel t.fuse)
    (call : Call) (promised : call.promised t) (spared : call.takesForgotten t = false) :
    Spares (fun t' => Accounted t'.kernel t'.fuse) (t.call call) := by
  have held : ∀ p, t.target call = some p → t.kernel p ≠ 0 := by
    intro p is none
    simp [Call.takesForgotten,is,none] at spared
  cases call with
  | find parent name =>
    refine (findAccounted known accounted parent name).bind ?_
    exact fun _ done => done
  | forget nodeid nlookup =>
    have waits : Spares (fun _ => True) (t.fuse.forgetWaits nodeid nlookup) := by
      unfold Fuse.forgetWaits
      split
      · trivial
      · refine (getNodeSpares t.fuse nodeid).bind ?_
        intro p _
        refine (derefSpares t.fuse p).bind ?_
        exact fun _ _ => trivial
    refine waits.bind ?_
    intro waits _
    split
    · exact accounted
    · refine (forgetAccounted known accounted (of_decide_eq_true promised)).bind ?_
      exact fun _ done => done
  | remove dir name =>
    refine (removeAccounted accounted held).bind ?_
    exact fun _ done => done
  | rename olddir oldname newdir newname hide =>
    simp only [Call.promised,Bool.and_eq_true,bne_iff_ne] at promised
    refine (renameAccounted hide accounted promised.2 ?_).bind ?_
    · intro source hidden q target
      apply held q
      simp only [Session.target,source,hidden,Bool.not_false,Bool.and_true,if_true,target]
    · exact fun _ done => done
  | exchange olddir oldname newdir newname =>
    refine (exchangeAccounted olddir oldname newdir newname accounted).bind ?_
    exact fun _ done => done
  | clean aged =>
    refine (cleanLoopSheds aged _ t.fuse _).bind ?_
    rintro s' ⟨Cut,sheds⟩
    exact accounted.sheds sheds
  | lock p treelock => exact accounted.sheds (setLockSheds t.fuse p treelock)

theorem callAsserts {t : Session} (accounted : Accounted t.kernel t.fuse) (call : Call)
    (taken : call.takesForgotten t) :
    t.call call = .error .unlinkCount := by
  rw [Call.takesForgotten,Option.any_eq_true] at taken
  obtain ⟨p,is,none⟩ := taken
  have none : t.kernel p = 0 := beq_iff_eq.mp none
  cases call with
  | remove dir name =>
    have asserts := removeForgotten accounted is none
    simp only [Session.call,asserts]
    rfl
  | rename olddir oldname newdir newname hide =>
    simp only [Session.target] at is
    split at is
    · rename_i source
      obtain ⟨found,shown⟩ := Bool.and_eq_true_iff.mp source
      have hidden : hide = false := by simpa using shown
      subst hidden
      have asserts := renameForgotten accounted found is none
      simp only [Session.call,asserts]
      rfl
    · cases is
  | find | forget | exchange | clean | lock => cases is

theorem newAccounted (conf : Conf) (memory : Nat → Bool) (remember : conf.remember ≠ 0) :
    Accounted (Session.new conf memory).kernel (Session.new conf memory).fuse := by
  have cell : ∀ p n, (fuseNew conf memory).heap p = some n → p = 0 ∧ n = rootNode :=
    fun p n live => emptyTreeCell conf memory live
  refine ⟨remember,⟨rootNode,rfl,rfl,nofun,rfl⟩,?_,fun _ _ => rfl⟩
  intro p n live placed
  obtain ⟨_,rfl⟩ := cell p n live
  exact absurd rfl placed.2

/- Induction on the calls; a call that came back has not failed the assertion. -/
theorem callsAccounted {log : List (Ptr × Ino × Nat)} (calls : List Call) {t t' : Session}
    (chronicle : Chronicle log t.fuse) (accounted : Accounted t.kernel t.fuse)
    (legal : t.legal (fun t call => call.promised t) calls) (run : t.calls calls = .ok t') :
    Accounted t'.kernel t'.fuse ∧ Identified none t'.fuse := by
  induction calls generalizing t log with
  | nil =>
    cases run
    exact ⟨accounted,chronicle.identified⟩
  | cons call rest ih =>
    simp only [Session.legal,Bool.and_eq_true] at legal
    obtain ⟨promised,later⟩ := legal
    unfold Session.calls at run
    cases taken : call.takesForgotten t with
    | true =>
      rw [callAsserts accounted call taken] at run
      cases run
    | false =>
      have next := callAccounted chronicle.identified accounted call promised taken
      cases ok : t.call call with
      | error fault =>
        rw [ok] at run
        cases run
      | ok u =>
        rw [ok] at next run later
        exact ih (chronicle.call ok) next later run

theorem callsSpared {log : List (Ptr × Ino × Nat)} (calls : List Call) {t : Session} (chronicle : Chronicle log t.fuse)
    (accounted : Accounted t.kernel t.fuse)
    (legal : t.legal (fun t call => call.promised t && !call.takesForgotten t) calls) :
    t.calls calls ≠ .error .unlinkCount := by
  induction calls generalizing t log with
  | nil => nofun
  | cons call rest ih =>
    simp only [Session.legal,Bool.and_eq_true,Bool.not_eq_true'] at legal
    obtain ⟨⟨promised,spared⟩,later⟩ := legal
    have next := callAccounted chronicle.identified accounted call promised spared
    unfold Session.calls
    cases ok : t.call call with
    | error fault =>
      rw [ok] at next
      exact fun same => next (Except.error.inj same)
    | ok u =>
      rw [ok] at next later
      exact ih (chronicle.call ok) next later

/- The assertion of unlink_node after any calls of the kernel and the cleaner: it holds if and
only if the kernel still holds a lookup of the node that loses its name. A run whose calls are
all of that kind does not end in it. -/
theorem unlinkHolds (conf : Conf) (memory : Nat → Bool) (remember : conf.remember ≠ 0) (calls : List Call) :
    ((Session.new conf memory).legal (fun t call => call.promised t) calls →
      ∀ t, (Session.new conf memory).calls calls = .ok t → ∀ call, call.promised t →
        (t.call call ≠ .error .unlinkCount ↔ call.takesForgotten t = false)) ∧
    ((Session.new conf memory).legal (fun t call => call.promised t && !call.takesForgotten t) calls →
      (Session.new conf memory).calls calls ≠ .error .unlinkCount) := by
  have start := fuseNewChronicle conf memory
  have accounted := newAccounted conf memory remember
  constructor
  · intro legal t reached call promised
    obtain ⟨now,known⟩ := callsAccounted calls start accounted legal reached
    cases taken : call.takesForgotten t with
    | true =>
      have asserts := callAsserts now call taken
      exact ⟨fun other => absurd asserts other,nofun⟩
    | false =>
      have next := callAccounted known now call promised taken
      refine ⟨fun _ => rfl,fun _ fails => ?_⟩
      rw [fails] at next
      exact next rfl
  · exact callsSpared calls start accounted

/- Two files are looked up and the second is given back. -/
def forgottenTarget : List Call := [.find 1 (some (ascii "a")),.find 1 (some (ascii "b")),.forget 3 1]

theorem unlinkHoldsLooked :
    ((Session.new ⟨10,false,false⟩ fun _ => true).legal (fun t call => call.promised t && !call.takesForgotten t)
      (forgottenTarget ++ [.find 1 (some (ascii "b")),.rename 1 (ascii "a") 1 (ascii "b") false])) ∧
    (Session.new ⟨10,false,false⟩ fun _ => true).calls
      (forgottenTarget ++ [.find 1 (some (ascii "b")),.rename 1 (ascii "a") 1 (ascii "b") false]) ≠
        .error .unlinkCount := by
  have legal : ((Session.new ⟨10,false,false⟩ fun _ => true).legal
    (fun t call => call.promised t && !call.takesForgotten t)
      (forgottenTarget ++ [.find 1 (some (ascii "b")),.rename 1 (ascii "a") 1 (ascii "b") false])) = true := by
    decide +kernel
  exact ⟨legal,(unlinkHolds ⟨10,false,false⟩ (fun _ => true) (by decide) _).2 legal⟩

/- b has vanished: the kernel finds nothing there, and the rename of a, which it still holds,
onto b fails the assertion. -/
theorem forgottenTargetAsserts : ∃ t, (Session.new ⟨10,false,false⟩ fun _ => true).calls forgottenTarget = .ok t ∧
    (Session.new ⟨10,false,false⟩ fun _ => true).legal (fun t call => call.promised t) forgottenTarget ∧
    (Call.rename 1 (ascii "a") 1 (ascii "b") false).promised t ∧ 0 < t.holds 2 ∧
    t.call (.rename 1 (ascii "a") 1 (ascii "b") false) = .error .unlinkCount := by
  have legal : (Session.new ⟨10,false,false⟩ fun _ => true).legal
      (fun t call => call.promised t) forgottenTarget = true := by
    decide +kernel
  have passes : ((Session.new ⟨10,false,false⟩ fun _ => true).calls forgottenTarget).toOption.any (fun t =>
      (Call.rename 1 (ascii "a") 1 (ascii "b") false).promised t && decide (0 < t.holds 2) &&
        (Call.rename 1 (ascii "a") 1 (ascii "b") false).takesForgotten t) = true := by
    decide +kernel
  obtain ⟨t,reached,facts⟩ := ranSo passes
  simp only [Bool.and_eq_true,decide_eq_true_eq] at facts
  obtain ⟨⟨promised,held⟩,taken⟩ := facts
  have start := fuseNewChronicle ⟨10,false,false⟩ fun _ => true
  have accounted := newAccounted ⟨10,false,false⟩ (fun _ => true) (by decide)
  obtain ⟨now,_⟩ := callsAccounted forgottenTarget (t := Session.new ⟨10,false,false⟩ fun _ => true) start accounted
    legal reached
  exact ⟨t,reached,legal,promised,held,callAsserts now _ taken⟩

end FuseStudy.NodeStore
