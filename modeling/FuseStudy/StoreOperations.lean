import FuseStudy.StoreInvariant

/-! Each operation on a steady node table leads to a steady table again, with a known
effect on the nodes, or to one of the faults its arguments allow. -/
namespace FuseStudy.NodeStore
open CString LinearHash

/- How a node may differ after an operation: only a cut node changes its name, and only a
hidden one is marked as such. -/
structure Agrees (cut hidden : Prop) (count : Nat → Nat) (n n' : Node) : Prop where
  nodeid : n'.nodeid = n.nodeid
  treelock : n'.treelock = n.treelock
  openCount : n'.openCount = n.openCount
  nlookup : n'.nlookup = count n.nlookup
  isHidden : n'.isHidden ↔ n.isHidden ∨ hidden
  name : ¬ cut → n'.name = n.name
  parent : ¬ cut → n'.parent = n.parent

theorem Agrees.refl (cut : Prop) (n : Node) : Agrees cut False (fun k => k) n n :=
  ⟨rfl,rfl,rfl,rfl,(or_iff_left (fun h => h)).symm,fun _ => rfl,fun _ => rfl⟩

theorem Agrees.trans {cut cut₂ hidden hidden₂ : Prop} {count count₂ : Nat → Nat} {n n' n₂ : Node}
    (first : Agrees cut hidden count n n') (second : Agrees cut₂ hidden₂ count₂ n' n₂) :
    Agrees (cut ∨ cut₂) (hidden ∨ hidden₂) (fun k => count₂ (count k)) n n₂ where
  nodeid := second.nodeid.trans first.nodeid
  treelock := second.treelock.trans first.treelock
  openCount := second.openCount.trans first.openCount
  nlookup := by rw [second.nlookup,first.nlookup]
  isHidden := by rw [second.isHidden,first.isHidden,or_assoc]
  name uncut := (second.name (fun h => uncut (.inr h))).trans (first.name (fun h => uncut (.inl h)))
  parent uncut := (second.parent (fun h => uncut (.inr h))).trans (first.parent (fun h => uncut (.inl h)))

/- Names move, no node comes or goes. Every new name is one that was made; count tells how
the lookups of each node change. -/
structure Relabels (Cut Hide : Ptr → Prop) (Made : Ino × Name → Prop) (count : Ptr → Nat → Nat)
    (s s' : Fuse) : Prop where
  conf : s'.conf = s.conf
  brk : s'.brk = s.brk
  hidectr : s'.hidectr = s.hidectr
  idTable : s'.idTable = s.idTable
  lruTable : s'.lruTable = s.lruTable
  absent : ∀ p, s.heap p = none → s'.heap p = none
  kept : ∀ p n, s.heap p = some n → ∃ n', s'.heap p = some n' ∧
    Agrees (Cut p) (Hide p) (count p) n n' ∧ (0 < n.nlookup → 0 < n'.nlookup)
  names : ∀ p, ¬ Cut p → (Has s'.nameTable p ↔ Has s.nameTable p)
  made : ∀ p, Cut p → Has s'.nameTable p → ∃ e, s'.entry p = some e ∧ Made e

/- The same for operations that create and free nodes. -/
structure Effect (Cut Hide : Ptr → Prop) (Made : Ino × Name → Prop) (count : Ptr → Nat → Nat)
    (s s' : Fuse) : Prop where
  conf : s'.conf = s.conf
  brk : s.brk ≤ s'.brk
  hidectr : s'.hidectr = s.hidectr
  kept : ∀ p n n', s.heap p = some n → s'.heap p = some n' → Agrees (Cut p) (Hide p) (count p) n n'
  gone : ∀ p n, s.heap p = some n → s'.heap p = none → n.treelock = 0 ∧ count p n.nlookup = 0
  new : ∀ p n', s.heap p = none → s'.heap p = some n' →
    s.brk ≤ p ∧ n'.treelock = 0 ∧ n'.openCount = 0 ∧ n'.isHidden = false
  names : ∀ p, s.heap p ≠ none → ¬ Cut p → (Has s'.nameTable p ↔ Has s.nameTable p ∧ s'.heap p ≠ none)
  made : ∀ p, Cut p ∨ s.heap p = none → Has s'.nameTable p → ∃ e, s'.entry p = some e ∧ Made e

def Never {α : Type} : α → Prop := fun _ => False

def Unchanged : Ptr → Nat → Nat := fun _ k => k

inductive Bad (s : Fuse) (dirs : List Ino) : Fault → Prop
  | deleteLocked {p : Ptr} {n : Node} (live : s.heap p = some n) (locked : n.treelock ≠ 0) : Bad s dirs .deleteLocked
  | idsExhausted : Bad s dirs .idsExhausted
  | getNode {dir : Ino} (passed : dir ∈ dirs) (unknown : s.getNodeNocheck dir = none) : Bad s dirs .getNode
  | unlinkCount (remember : s.conf.remember ≠ 0) : Bad s dirs .unlinkCount

def Outcome {α : Type} (BadFault : Fault → Prop) (Good : α → Prop) : Except Fault α → Prop
  | .ok a => Good a
  | .error fault => BadFault fault

theorem Outcome.bind {α β : Type} {BadFault : Fault → Prop} {Good : α → Prop} {Goal : β → Prop}
    {run : Except Fault α} {next : α → Except Fault β} (first : Outcome BadFault Good run)
    (second : ∀ a, Good a → Outcome BadFault Goal (next a)) : Outcome BadFault Goal (run.bind next) := by
  cases run with
  | ok a => exact second a first
  | error fault => exact first

theorem callBind {α β : Type} {run : Except Fault α} {next : α → Except Fault β} {b : β}
    (ok : run.bind next = .ok b) : ∃ a, run = .ok a ∧ next a = .ok b := by
  cases run with
  | error fault => cases ok
  | ok a => exact ⟨a,rfl,ok⟩

theorem ranSo {α : Type} {run : Except Fault α} {check : α → Bool} (passes : run.toOption.any check = true) :
    ∃ a, run = .ok a ∧ check a = true := by
  cases run with
  | error fault => cases passes
  | ok a => exact ⟨a,rfl,passes⟩

theorem Outcome.good {α : Type} {BadFault : Fault → Prop} {Good : α → Prop} {run : Except Fault α} {a : α}
    (outcome : Outcome BadFault Good run) (ok : run = .ok a) : Good a := by
  rw [ok] at outcome
  exact outcome

theorem Outcome.imp {α : Type} {BadFault BadFault' : Fault → Prop} {Good Good' : α → Prop}
    {run : Except Fault α} (outcome : Outcome BadFault Good run) (worse : ∀ f, BadFault f → BadFault' f)
    (better : ∀ a, Good a → Good' a) : Outcome BadFault' Good' run := by
  cases run with
  | ok a => exact better a outcome
  | error fault => exact worse fault outcome

variable {extra : Ptr → Nat} {s s' : Fuse} {p q : Ptr} {n m d : Node}
  {Cut Hide : Ptr → Prop} {Made : Ino × Name → Prop} {count : Ptr → Nat → Nat}

theorem Relabels.effect (relabels : Relabels Cut Hide Made count s s') (steady : Steady extra s)
    {extra' : Ptr → Nat} (steady' : Steady extra' s') (cutLive : ∀ p, Cut p → s.heap p ≠ none) :
    Effect Cut Hide Made count s s' := by
  refine ⟨relabels.conf,Nat.le_of_eq relabels.brk.symm,relabels.hidectr,?_,?_,?_,?_,?_⟩
  · intro p n n' live live'
    obtain ⟨k,alive,agrees,_⟩ := relabels.kept p n live
    rw [live'] at alive
    cases alive
    exact agrees
  · intro p n live gone
    obtain ⟨k,alive,_⟩ := relabels.kept p n live
    rw [gone] at alive
    cases alive
  · intro p n' gone live
    rw [relabels.absent p gone] at live
    cases live
  · intro p live uncut
    rw [relabels.names p uncut]
    exact ⟨fun named => ⟨named,steady'.namedLive ((relabels.names p uncut).mpr named)⟩,fun h => h.1⟩
  · rintro p (cut | gone) named
    · exact relabels.made p cut named
    · by_cases cut : Cut p
      · exact absurd gone (cutLive p cut)
      · exact absurd gone (steady.namedLive ((relabels.names p cut).mp named))

theorem unrefPinned (live : s.heap q = some d) (used : d.refctr ≠ 0)
    (pinned : d.treelock ≠ 0 ∨ 1 < d.refctr) : s.unrefNode q =
      if d.refctr = 1 then .error .deleteLocked else .ok (s.put q {d with refctr := d.refctr - 1}) := by
  unfold Fuse.unrefNode unrefLoop
  rw [derefOk live]
  simp only [bind,Except.bind,if_neg used]
  split
  · rename_i last
    have locked : d.treelock ≠ 0 := by omega
    exact deleteLocked (putSelf ..) locked
  · rfl

/- A directory that a request works in: the kernel knows it, or a path through it is held. -/
def Pinned (s : Fuse) (q : Ptr) : Prop := ∀ d, s.heap q = some d → 0 < d.nlookup ∨ d.treelock ≠ 0

theorem Relabels.trans {s₂ : Fuse} {Cut₂ Hide₂ : Ptr → Prop} {Made₂ : Ino × Name → Prop}
    {count₂ : Ptr → Nat → Nat} (first : Relabels Cut Hide Made count s s')
    (second : Relabels Cut₂ Hide₂ Made₂ count₂ s' s₂) :
    Relabels (fun p => Cut p ∨ Cut₂ p) (fun p => Hide p ∨ Hide₂ p) (fun e => Made e ∨ Made₂ e)
      (fun p k => count₂ p (count p k)) s s₂ := by
  refine ⟨second.conf.trans first.conf,second.brk.trans first.brk,second.hidectr.trans first.hidectr,
    second.idTable.trans first.idTable,second.lruTable.trans first.lruTable,
    fun p none => second.absent p (first.absent p none),?_,?_,?_⟩
  · intro p n live
    obtain ⟨n',live',agrees,known⟩ := first.kept p n live
    obtain ⟨n₂,live₂,agrees₂,known₂⟩ := second.kept p n' live'
    exact ⟨n₂,live₂,agrees.trans agrees₂,fun positive => known₂ (known positive)⟩
  · intro p uncut
    rw [second.names p (fun cut => uncut (.inr cut)),first.names p (fun cut => uncut (.inl cut))]
  · intro p cut named
    by_cases last : Cut₂ p
    · obtain ⟨e,at_,made⟩ := second.made p last named
      exact ⟨e,at_,.inr made⟩
    · have earlier : Cut p := cut.resolve_right last
      have mid := (second.names p last).mp named
      obtain ⟨⟨i,name⟩,at_,made⟩ := first.made p earlier mid
      obtain ⟨n,q,d,live,hasName,parent,alive,id⟩ := entryIff.mp at_
      obtain ⟨n₂,live₂,agrees,_⟩ := second.kept p n live
      obtain ⟨d₂,alive₂,agreesD,_⟩ := second.kept q d alive
      refine ⟨(i,name),entryIff.mpr ⟨n₂,q,d₂,live₂,?_,?_,alive₂,agreesD.nodeid.trans id⟩,.inl made⟩
      · rw [agrees.name last,hasName]
      · rw [agrees.parent last,parent]

theorem Relabels.congr {Cut' Hide' : Ptr → Prop} {Made' : Ino × Name → Prop} {count' : Ptr → Nat → Nat}
    (relabels : Relabels Cut Hide Made count s s') (cut : ∀ p, Cut p ↔ Cut' p) (hide : ∀ p, Hide p ↔ Hide' p)
    (made : ∀ e, Made e → Made' e) (same : ∀ p k, count p k = count' p k) :
    Relabels Cut' Hide' Made' count' s s' := by
  obtain rfl : Cut = Cut' := funext (fun p => propext (cut p))
  obtain rfl : Hide = Hide' := funext (fun p => propext (hide p))
  obtain rfl : count = count' := funext (fun p => funext (same p))
  exact {relabels with
    made := fun p cut named => (relabels.made p cut named).imp (fun e h => ⟨h.1,made e h.2⟩)}

theorem unhashPinned (steady : Steady extra s) (live : s.heap p = some n) (plain : p ≠ 0)
    (pinned : ∀ q, n.parent = some q → Pinned s q) (dirs : List Ino) :
    Outcome (Bad s dirs) (fun s' => Steady extra s' ∧
      Relabels (· = p) Never Never Unchanged s s' ∧ ¬ Has s'.nameTable p ∧
      ∃ n', s'.heap p = some n' ∧ n'.name = none) (s.unhashName p) := by
  unfold Fuse.unhashName
  cases named : n.name with
  | none =>
    have unnamed : ¬ Has s.nameTable p := fun has => (steady.named live plain).mp has named
    rw [unhashUnnamed live named]
    refine ⟨steady,⟨rfl,rfl,rfl,rfl,rfl,fun _ h => h,fun r k h => ⟨k,h,.refl _ k,fun h => h⟩,fun _ _ => Iff.rfl,?_⟩,
      unnamed,n,live,named⟩
    rintro r rfl has
    exact absurd has unnamed
  | some name =>
    have has := (steady.named live plain).mpr (by rw [named]; nofun)
    obtain ⟨_,q,d,_,live',_,parent,alive⟩ := steady.shape.namedParent has
    rw [live] at live'
    cases live'
    obtain ⟨table,chained,opened,without⟩ :=
      steady.toStore.unchained (some p) has live parent (.inl ⟨rfl,rfl⟩)
    have referenced := steady.shape.counted q d alive
    have child := Finset.card_pos.mpr ⟨p,steady.shape.child has live parent⟩
    have used : d.refctr ≠ 0 := by omega
    have held : d.treelock ≠ 0 ∨ 1 < d.refctr := by
      rcases pinned q parent d alive with known | locked
      · rw [Node.held,if_pos known] at referenced
        omega
      · exact .inl locked
    rw [unhashNamed live named parent chained,unrefPinned (s := {s with nameTable := table}) alive used held]
    split
    · exact .deleteLocked (p := q) alive (by omega)
    rename_i more
    generalize dropped : ({s with nameTable := table} : Fuse).put q {d with refctr := d.refctr - 1} = s₃
    have lower : Store extra (some p) s₃ := by
      rw [← dropped]
      refine opened.touch alive ⟨rfl,rfl,rfl⟩ ?_ (fun r other => (if_neg other).symm) (fun _ => .inl used) ?_
      · simp only [bump,if_pos,Node.held]
        omega
      · rintro rfl
        obtain ⟨r,atRoot,_,positive,_⟩ := steady.shape.root
        rw [alive] at atRoot
        cases atRoot
        exact positive
    -- every node but the parent is untouched so far
    have kept : ∀ r k, s.heap r = some k → ∃ k', s₃.heap r = some k' ∧
        k' = {k with refctr := k'.refctr} ∧ k'.refctr ≠ 0 := by
      intro r k was
      rw [← dropped]
      by_cases here : r = q
      · subst here
        rw [alive] at was
        cases was
        exact ⟨_,putSelf ..,rfl,by simp only; omega⟩
      · exact ⟨k,(putOther here ..).trans was,rfl,(steady.alive r k was).2⟩
    have gone : ∀ r, s.heap r = none → s₃.heap r = none := by
      intro r none
      rw [← dropped,putOther (by rintro rfl; rw [alive] at none; cases none)]
      exact none
    obtain ⟨k,liveK,sameK,usedK⟩ := kept p n live
    have unnamed : ¬ Has s₃.nameTable p := by
      rw [← dropped]
      exact fun has => ((without p).mp has).2 rfl
    obtain ⟨after,released,same,store⟩ := lower.cleared liveK unnamed plain none (.inr rfl)
    simp only [Except.bind,derefOk liveK,released]
    have base : s₃.conf = s.conf ∧ s₃.brk = s.brk ∧ s₃.hidectr = s.hidectr ∧ s₃.idTable = s.idTable ∧
        s₃.lruTable = s.lruTable ∧ s₃.nameTable = table := by
      rw [← dropped]
      exact ⟨rfl,rfl,rfl,rfl,rfl,rfl⟩
    obtain ⟨conf,brk,hidectr,idTable,lruTable,nameTable⟩ := base
    refine ⟨⟨store,?_⟩,⟨conf,brk,hidectr,idTable,lruTable,?_,?_,?_,?_⟩,?_,_,putSelf ..,rfl⟩
    · intro r k' found
      rcases atUpdate found with ⟨rfl,rfl⟩ | ⟨_,mid⟩
      · exact ⟨idTable ▸ (steady.alive r n live).1,usedK⟩
      · cases was : s.heap r with
        | none =>
          rw [gone r was] at mid
          cases mid
        | some k =>
          obtain ⟨k',mid',_,usedR⟩ := kept r k was
          rw [mid] at mid'
          cases mid'
          exact ⟨idTable ▸ (steady.alive r k was).1,usedR⟩
    · intro r none
      have other : r ≠ p := by
        rintro rfl
        rw [live] at none
        cases none
      exact (putOther other ..).trans (gone r none)
    · intro r k was
      obtain ⟨k',mid,sameR,_⟩ := kept r k was
      by_cases here : r = p
      · subst here
        rw [live] at was
        cases was
        rw [liveK] at mid
        cases mid
        refine ⟨_,putSelf ..,?_⟩
        rw [sameK]
        exact ⟨⟨rfl,rfl,rfl,rfl,(or_iff_left (fun h => h)).symm,fun cut => absurd rfl cut,fun cut =>
          absurd rfl cut⟩,fun h => h⟩
      · refine ⟨k',(putOther here ..).trans mid,?_⟩
        rw [sameR]
        exact ⟨⟨rfl,rfl,rfl,rfl,(or_iff_left (fun h => h)).symm,fun _ => rfl,fun _ => rfl⟩,fun h => h⟩
    · intro r other
      simp only
      rw [same,nameTable,without]
      exact ⟨fun h => h.1,fun h => ⟨h,other⟩⟩
    · rintro r rfl has
      exact absurd ((same r).mp has) unnamed
    · exact fun has => unnamed ((same p).mp has)

theorem Store.memory {hole : Option Ptr} (store : Store extra hole s) (memory : Nat → Bool) :
    Store extra hole {s with memory := memory} :=
  ⟨store.names,store.ids,store.shape⟩

theorem Store.lookupNone {hole : Option Ptr} (store : Store extra hole s) {dir : Ino} {name : Name}
    (free : s.lookupNode dir name = none) : ∀ r, Has s.nameTable r → s.entry r ≠ some (dir,name) := by
  intro r named at_
  rw [(store.lookupIff dir name).mpr ⟨named,at_⟩] at free
  cases free

theorem Store.insertName {name : Name} (store : Store (bump extra q) none s) (live : s.heap p = some n)
    (unnamed : ¬ Has s.nameTable p) (plain : p ≠ 0) (alive : s.heap q = some d)
    (free : ∀ r, Has s.nameTable r → s.entry r ≠ some (d.nodeid,name)) (realloc : Bool) (memory : Nat → Bool) :
    ∃ table, insert (s.put p {n with name := some name, parent := some q}).nameHash realloc s.nameTable p = table ∧
      (∀ r, Has table r ↔ Has s.nameTable r ∨ r = p) ∧
      Store extra none {s.put p {n with name := some name, parent := some q} with
        nameTable := table, memory := memory} := by
  have valid : Valid minTable (s.put p {n with name := some name, parent := some q}).nameHash s.nameTable := by
    apply store.names.congr
    intro r named
    have other : r ≠ p := fun same => unnamed (same ▸ named)
    have same : (s.put p {n with name := some name, parent := some q}).entry r = s.entry r :=
      entryOther live rfl other
    simp only [Fuse.nameHash,same]
  obtain ⟨inserted,has⟩ := insertSpec valid unnamed realloc
  refine ⟨_,rfl,has,inserted,?_,?_⟩
  · apply store.ids.congr
    intro r _
    by_cases here : r = p
    · subst here
      simp only [Fuse.idHash,putSelf,live]
    · simp only [Fuse.idHash,putOther here]
  · have sameNames : Has (insert (s.put p {n with name := some name, parent := some q}).nameHash realloc
        s.nameTable p) = fun r => Has s.nameTable r ∨ r = p := funext (fun r => propext (has r))
    simp only [sameNames]
    exact store.shape.name live unnamed plain alive free

theorem hashNameSpec {dir : Ino} {name : Name} (store : Store extra none s) (live : s.heap p = some n)
    (unnamed : ¬ Has s.nameTable p) (plain : p ≠ 0) (found : s.getNodeNocheck dir = some q)
    (alive : s.heap q = some d) (used : d.refctr ≠ 0) (free : s.lookupNode dir name = none) :
    (∃ k table memory, (s.put q {d with refctr := d.refctr + 1}).heap p = some k ∧
      s.hashName p dir name = .ok ({(s.put q {d with refctr := d.refctr + 1}).put p
        {k with name := some name, parent := some q} with nameTable := table, memory := memory},true) ∧
      (∀ r, Has table r ↔ Has s.nameTable r ∨ r = p) ∧
      Store extra none {(s.put q {d with refctr := d.refctr + 1}).put p
        {k with name := some name, parent := some q} with nameTable := table, memory := memory}) ∨
    (inlineName ≤ name.length ∧ ∃ memory,
      s.hashName p dir name = .ok ({s.put p {n with name := none} with memory := memory},false)) := by
  have id : d.nodeid = dir := by
    obtain ⟨_,d',alive',id⟩ := (store.getNodeIff dir).mp found
    rw [alive] at alive'
    cases alive'
    exact id
  obtain ⟨k,liveK⟩ : ∃ k, (s.put q {d with refctr := d.refctr + 1}).heap p = some k := by
    by_cases here : p = q
    · subst here
      exact ⟨_,putSelf ..⟩
    · exact ⟨n,(putOther here ..).trans live⟩
  -- the parent takes the reference first, whatever is left of memory
  have raised : ∀ memory, Store (bump extra q) none
      ({s with memory := memory}.put q {d with refctr := d.refctr + 1}) := by
    intro memory
    refine (store.memory memory).touch alive ⟨rfl,rfl,rfl⟩ ?_ (fun r other => if_neg other) (fun _ => .inl used) ?_
    · simp only [bump,if_pos,Node.held]
      omega
    · rintro rfl
      obtain ⟨r,atRoot,_,positive,_⟩ := store.shape.root
      rw [alive] at atRoot
      cases atRoot
      exact positive
  have still : ∀ r, Has s.nameTable r →
      (s.put q {d with refctr := d.refctr + 1}).entry r ≠ some (d.nodeid,name) := by
    intro r named
    rw [show (s.put q {d with refctr := d.refctr + 1}).entry r = s.entry r from
      entryUpdate (m := {d with refctr := d.refctr + 1}) alive ⟨rfl,rfl,rfl⟩ r,id]
    exact store.lookupNone free r named
  have copied : ∀ memory : Nat → Bool, ∃ table,
      insert (({s with memory := memory}.put q {d with refctr := d.refctr + 1}).put p
        {k with name := some name, parent := some q}).nameHash (memory 0) s.nameTable p = table ∧
      (∀ r, Has table r ↔ Has s.nameTable r ∨ r = p) ∧
      Store extra none {(s.put q {d with refctr := d.refctr + 1}).put p
        {k with name := some name, parent := some q} with
          nameTable := table, memory := fun i => memory (i+1)} := fun memory =>
    (raised memory).insertName liveK unnamed plain (putSelf ..) still (memory 0) (fun i => memory (i+1))
  unfold Fuse.hashName
  rw [getNodeOk found]
  simp only [bind,Except.bind]
  by_cases short : name.length < inlineName
  · obtain ⟨table,inserted,has,final⟩ := copied s.memory
    refine .inl ⟨k,table,_,liveK,?_,has,final⟩
    simp only [if_pos short,if_true,derefOk alive,derefOk liveK,← inserted]
    rfl
  · simp only [if_neg short,Fuse.takeMem]
    cases memory : s.memory 0 with
    | true =>
      obtain ⟨table,inserted,has,final⟩ := copied (fun i => s.memory (i+1))
      refine .inl ⟨k,table,_,liveK,?_,has,final⟩
      have aliveM : {s with memory := fun i => s.memory (i+1)}.deref q = .ok d := derefOk alive
      have liveM : ({s with memory := fun i => s.memory (i+1)}.put q {d with refctr := d.refctr + 1}).deref p =
          .ok k := derefOk liveK
      simp only [if_true,aliveM,liveM,← inserted]
      rfl
    | false =>
      refine .inr ⟨Nat.not_lt.mp short,fun i => s.memory (i+1),?_⟩
      have liveM : {s with memory := fun i => s.memory (i+1)}.deref p = .ok n := derefOk live
      simp only [Bool.false_eq_true,if_false,liveM]
      rfl

structure Renamed (extra : Ptr → Nat) (s : Fuse) (p : Ptr) (dir : Ino) (name : Name) (r : Fuse × Bool) : Prop where
  steady : Steady extra r.1
  relabels : Relabels (· = p) Never (· = (dir,name)) Unchanged s r.1
  hashed : r.2 = true → Has r.1.nameTable p ∧ r.1.entry p = some (dir,name)
  failed : r.2 = false → ¬ Has r.1.nameTable p ∧ inlineName ≤ name.length

theorem Steady.memory (steady : Steady extra s) (memory : Nat → Bool) : Steady extra {s with memory := memory} :=
  ⟨steady.toStore.memory memory,steady.alive⟩

theorem hashRenamed {dir : Ino} {name : Name} (steady : Steady extra s) (live : s.heap p = some n)
    (unnamed : ¬ Has s.nameTable p) (noName : n.name = none) (plain : p ≠ 0)
    (free : s.lookupNode dir name = none) {dirs : List Ino} (passed : dir ∈ dirs) :
    Outcome (Bad s dirs) (Renamed extra s p dir name) (s.hashName p dir name) := by
  cases found : s.getNodeNocheck dir with
  | none =>
    have fault : s.hashName p dir name = .error .getNode := by
      simp only [Fuse.hashName,Fuse.getNode,found,bind,Except.bind]
    rw [fault]
    exact .getNode passed found
  | some q =>
    obtain ⟨_,d,alive,id⟩ := (steady.toStore.getNodeIff dir).mp found
    obtain ⟨hashedQ,used⟩ := steady.alive q d alive
    rcases hashNameSpec steady.toStore live unnamed plain found alive used free with
      ⟨k,table,memory,liveK,result,has,store⟩ | ⟨long,memory,result⟩
    · rw [result]
      have kept : ∀ r k, s.heap r = some k → ∃ k', (s.put q {d with refctr := d.refctr + 1}).heap r = some k' ∧
          k' = {k with refctr := k'.refctr} ∧ k'.refctr ≠ 0 := by
        intro r k was
        by_cases here : r = q
        · subst here
          rw [alive] at was
          cases was
          exact ⟨_,putSelf ..,rfl,Nat.succ_ne_zero _⟩
        · exact ⟨k,(putOther here ..).trans was,rfl,(steady.alive r k was).2⟩
      obtain ⟨k',liveK',sameK,usedK⟩ := kept p n live
      rw [liveK] at liveK'
      cases liveK'
      have own : (s.put q {d with refctr := d.refctr + 1} |>.put p
          {k with name := some name, parent := some q}).entry p = some (dir,name) := by
        apply entryIff.mpr
        by_cases here : q = p
        · subst here
          rw [putSelf] at liveK
          cases liveK
          exact ⟨_,q,_,putSelf ..,rfl,rfl,putSelf ..,id⟩
        · exact ⟨_,q,_,putSelf ..,rfl,rfl,(putOther here ..).trans (putSelf ..),id⟩
      have gone : ∀ r, s.heap r = none → (s.put q {d with refctr := d.refctr + 1}).heap r = none := by
        intro r none
        rw [putOther (by rintro rfl; rw [alive] at none; cases none)]
        exact none
      refine ⟨⟨store,?_⟩,⟨rfl,rfl,rfl,rfl,rfl,?_,?_,?_,?_⟩,fun _ => ⟨(has p).mpr (.inr rfl),own⟩,
        (fun no => by cases no)⟩
      · intro r j found
        rcases atUpdate found with ⟨rfl,rfl⟩ | ⟨_,mid⟩
        · exact ⟨(steady.alive r n live).1,usedK⟩
        · cases was : s.heap r with
          | none =>
            rw [gone r was] at mid
            cases mid
          | some j' =>
            obtain ⟨j'',mid',_,usedR⟩ := kept r j' was
            rw [mid] at mid'
            cases mid'
            exact ⟨(steady.alive r j' was).1,usedR⟩
      · intro r none
        have other : r ≠ p := by
          rintro rfl
          rw [live] at none
          cases none
        exact (putOther other ..).trans (gone r none)
      · intro r j was
        obtain ⟨j',mid,sameR,_⟩ := kept r j was
        by_cases here : r = p
        · subst here
          rw [live] at was
          cases was
          refine ⟨_,putSelf ..,?_⟩
          rw [sameK]
          exact ⟨⟨rfl,rfl,rfl,rfl,(or_iff_left (fun h => h)).symm,fun cut => absurd rfl cut,fun cut =>
            absurd rfl cut⟩,fun h => h⟩
        · refine ⟨j',(putOther here ..).trans mid,?_⟩
          rw [sameR]
          exact ⟨⟨rfl,rfl,rfl,rfl,(or_iff_left (fun h => h)).symm,fun _ => rfl,fun _ => rfl⟩,fun h => h⟩
      · intro r other
        rw [has]
        exact ⟨fun h => h.resolve_right other,.inl⟩
      · rintro r rfl _
        exact ⟨_,own,rfl⟩
    · rw [result]
      have same : s.put p {n with name := none} = s := by
        have cell : Function.update s.heap p (some {n with name := none}) = s.heap := by
          rw [show {n with name := none} = n by rw [← noName],← live]
          exact Function.update_eq_self ..
        simp only [Fuse.put,cell]
      rw [same]
      refine ⟨steady.memory memory,⟨rfl,rfl,rfl,rfl,rfl,fun _ h => h,fun r k h => ⟨k,h,.refl _ k,fun h => h⟩,
        fun _ _ => Iff.rfl,?_⟩,(fun no => by cases no),fun _ => ⟨unnamed,long⟩⟩
      rintro r rfl has
      exact absurd has unnamed

theorem Bad.back (relabels : Relabels Cut Hide Made count s s') (steady : Steady extra s)
    {extra' : Ptr → Nat} (steady' : Steady extra' s') {dirs : List Ino} {fault : Fault}
    (bad : Bad s' dirs fault) : Bad s dirs fault := by
  cases bad with
  | @deleteLocked p n live locked =>
    cases was : s.heap p with
    | none =>
      rw [relabels.absent p was] at live
      cases live
    | some m =>
      obtain ⟨n',live',agrees,_⟩ := relabels.kept p m was
      rw [live] at live'
      cases live'
      exact .deleteLocked was (agrees.treelock ▸ locked)
  | idsExhausted => exact .idsExhausted
  | @getNode dir passed unknown =>
    refine .getNode passed ?_
    cases found : s.getNodeNocheck dir with
    | none => rfl
    | some q =>
      obtain ⟨hashed,d,alive,id⟩ := (steady.toStore.getNodeIff dir).mp found
      obtain ⟨d',alive',agrees,_⟩ := relabels.kept q d alive
      have still := (steady'.toStore.getNodeIff dir).mpr
        ⟨relabels.idTable ▸ hashed,d',alive',agrees.nodeid.trans id⟩
      rw [unknown] at still
      cases still
  | unlinkCount remember => exact .unlinkCount (relabels.conf ▸ remember)

def DirPinned (s : Fuse) (dir : Ino) : Prop := ∀ q, s.getNodeNocheck dir = some q → Pinned s q

theorem Steady.lookupParent {dir : Ino} {name : Name} (steady : Steady extra s)
    (found : s.lookupNode dir name = some p) (live : s.heap p = some n) (pinned : DirPinned s dir) :
    ∀ q, n.parent = some q → Pinned s q := by
  intro q parent
  obtain ⟨named,at_⟩ := (steady.toStore.lookupIff dir name).mp found
  obtain ⟨n',q',d,live',_,parent',alive,id⟩ := entryIff.mp at_
  rw [live] at live'
  cases live'
  rw [parent] at parent'
  cases parent'
  exact pinned q ((steady.toStore.getNodeIff dir).mpr ⟨(steady.alive q d alive).1,d,alive,id⟩)

theorem Steady.lookupLive {dir : Ino} {name : Name} (steady : Steady extra s)
    (found : s.lookupNode dir name = some p) : p ≠ 0 ∧ ∃ n, s.heap p = some n ∧ n.name = some name := by
  obtain ⟨named,at_⟩ := (steady.toStore.lookupIff dir name).mp found
  obtain ⟨n,_,_,live,hasName,_⟩ := entryIff.mp at_
  exact ⟨steady.shape.notRoot named,n,live,hasName⟩

/- unlink_node gives up the remembered lookup of its node. -/
def unlinkCount (s : Fuse) (p : Ptr) : Ptr → Nat → Nat :=
  fun r k => if s.conf.remember ≠ 0 ∧ r = p then k - 1 else k

theorem unlinkPinned (steady : Steady extra s) (live : s.heap p = some n) (plain : p ≠ 0)
    (pinned : ∀ q, n.parent = some q → Pinned s q) (dirs : List Ino) :
    Outcome (Bad s dirs) (fun s' => Steady extra s' ∧
      Relabels (· = p) Never Never (unlinkCount s p) s s' ∧ ¬ Has s'.nameTable p) (s.unlinkNode p) := by
  unfold Fuse.unlinkNode
  by_cases remember : s.conf.remember ≠ 0
  · rw [if_pos remember,derefOk live]
    simp only [bind,Except.bind]
    split
    · exact .unlinkCount remember
    rename_i more
    have count : Steady extra (s.put p {n with nlookup := n.nlookup - 1}) := by
      refine ⟨steady.toStore.touch live ⟨rfl,rfl,rfl⟩ ?_ (fun _ _ => rfl) (fun h => .inl h)
        (fun _ => by simp only; omega),?_⟩
      · simp only [Node.held]
        rw [if_pos (by omega),if_pos (by omega)]
      · intro r k found
        rcases atUpdate found with ⟨rfl,rfl⟩ | ⟨_,old⟩
        · exact steady.alive r n live
        · exact steady.alive r k old
    have dropped : Relabels Never Never Never (unlinkCount s p) s (s.put p {n with nlookup := n.nlookup - 1}) := by
      refine ⟨rfl,rfl,rfl,rfl,rfl,?_,?_,fun _ _ => Iff.rfl,(fun _ no => by cases no)⟩
      · intro r none
        rw [putOther (by rintro rfl; rw [live] at none; cases none)]
        exact none
      · intro r k was
        by_cases here : r = p
        · subst here
          rw [live] at was
          cases was
          refine ⟨_,putSelf ..,⟨rfl,rfl,rfl,?_,(or_iff_left (fun h => h)).symm,fun _ => rfl,fun _ => rfl⟩,?_⟩
          · rw [unlinkCount,if_pos ⟨remember,rfl⟩]
          · simp only
            omega
        · refine ⟨k,(putOther here ..).trans was,⟨rfl,rfl,rfl,?_,(or_iff_left (fun h => h)).symm,
            fun _ => rfl,fun _ => rfl⟩,fun h => h⟩
          rw [unlinkCount,if_neg (fun both => here both.2)]
    have still : ∀ q, n.parent = some q → Pinned (s.put p {n with nlookup := n.nlookup - 1}) q := by
      intro q parent d alive
      rcases atUpdate alive with ⟨rfl,rfl⟩ | ⟨_,old⟩
      · exact (pinned q parent n live).imp (fun _ => by simp only; omega) (fun h => h)
      · exact pinned q parent d old
    refine (unhashPinned count (putSelf ..) plain still dirs).imp (fun _ bad => bad.back dropped steady count) ?_
    rintro s' ⟨steady',relabels,unnamed,_⟩
    exact ⟨steady',(dropped.trans relabels).congr (by simp [Never]) (by simp [Never]) (by simp [Never])
      (fun _ _ => rfl),unnamed⟩
  · rw [if_neg remember]
    refine (unhashPinned steady live plain pinned dirs).imp (fun _ bad => bad) ?_
    rintro s' ⟨steady',relabels,unnamed,_⟩
    refine ⟨steady',relabels.congr (fun _ => Iff.rfl) (fun _ => Iff.rfl) (fun _ h => h) ?_,unnamed⟩
    intro r k
    rw [unlinkCount,if_neg (fun both => remember both.1)]
    rfl

theorem Relabels.refl (s : Fuse) : Relabels Never Never Never Unchanged s s :=
  ⟨rfl,rfl,rfl,rfl,rfl,fun _ h => h,fun _ k h => ⟨k,h,.refl _ k,fun h => h⟩,fun _ _ => Iff.rfl,nofun⟩

def unlinkCounts (s : Fuse) (target : Option Ptr) : Ptr → Nat → Nat :=
  match target with
  | some p => unlinkCount s p
  | none => Unchanged

structure Removed (extra : Ptr → Nat) (s : Fuse) (dir : Ino) (name : Name) (s' : Fuse) : Prop where
  steady : Steady extra s'
  relabels : Relabels (fun r => s.lookupNode dir name = some r) Never Never
    (unlinkCounts s (s.lookupNode dir name)) s s'
  unnamed : ∀ p, s.lookupNode dir name = some p → ¬ Has s'.nameTable p

theorem removeNodeSpec {dir : Ino} {name : Name} (steady : Steady extra s) (pinned : DirPinned s dir) :
    Outcome (Bad s []) (Removed extra s dir name) (s.removeNode dir name) := by
  unfold Fuse.removeNode
  cases found : s.lookupNode dir name with
  | none =>
    refine ⟨steady,?_,by simp [found]⟩
    rw [found]
    exact (Relabels.refl s).congr (by simp [Never]) (fun _ => Iff.rfl) (fun _ h => h) (fun _ _ => rfl)
  | some p =>
    obtain ⟨plain,n,live,_⟩ := steady.lookupLive found
    have dirs := steady.lookupParent found live pinned
    refine (unlinkPinned steady live plain dirs []).imp (fun _ bad => bad) ?_
    rintro s' ⟨steady',relabels,unnamed⟩
    refine ⟨steady',?_,?_⟩
    · rw [found]
      refine relabels.congr ?_ (fun _ => Iff.rfl) (fun _ h => h) (fun _ _ => rfl)
      intro r
      rw [Option.some.injEq]
      exact eq_comm
    · intro q same
      rw [found] at same
      cases same
      exact unnamed

inductive Moved (extra : Ptr → Nat) (s : Fuse) (olddir : Ino) (oldname : Name) (newdir : Ino) (newname : Name)
    (hide : Bool) : Fuse × Int → Prop
  | missing (absent : s.lookupNode olddir oldname = none) : Moved extra s olddir oldname newdir newname hide (s,0)
  | busy {p q : Ptr} (source : s.lookupNode olddir oldname = some p) (target : s.lookupNode newdir newname = some q)
      (hides : hide = true) : Moved extra s olddir oldname newdir newname hide (s,-ebusy)
  | moved {p : Ptr} {s' : Fuse} (source : s.lookupNode olddir oldname = some p) (steady : Steady extra s')
      (relabels : Relabels (fun r => s.lookupNode newdir newname = some r ∨ r = p) (fun r => hide = true ∧ r = p)
        (· = (newdir,newname)) (unlinkCounts s (s.lookupNode newdir newname)) s s')
      (lookup : s'.lookupNode newdir newname = some p)
      (dropped : ∀ q, s.lookupNode newdir newname = some q → ¬ Has s'.nameTable q) :
      Moved extra s olddir oldname newdir newname hide (s',0)
  | failed {p : Ptr} {s' : Fuse} (source : s.lookupNode olddir oldname = some p) (steady : Steady extra s')
      (relabels : Relabels (fun r => s.lookupNode newdir newname = some r ∨ r = p) Never Never
        (unlinkCounts s (s.lookupNode newdir newname)) s s')
      (unnamed : ¬ Has s'.nameTable p)
      (dropped : ∀ q, s.lookupNode newdir newname = some q → ¬ Has s'.nameTable q)
      (long : inlineName ≤ newname.length) :
      Moved extra s olddir oldname newdir newname hide (s',-enomem)

theorem Pinned.relabels (pinned : Pinned s q) (relabels : Relabels Cut Hide Made count s s') : Pinned s' q := by
  intro d' alive'
  cases was : s.heap q with
  | none =>
    rw [relabels.absent q was] at alive'
    cases alive'
  | some d =>
    obtain ⟨k,live,agrees,known⟩ := relabels.kept q d was
    rw [alive'] at live
    cases live
    exact (pinned d was).imp known (fun locked => agrees.treelock ▸ locked)

theorem Relabels.lookup {dir : Ino} {name : Name} (relabels : Relabels Cut Hide Made count s s')
    (steady : Steady extra s) {extra' : Ptr → Nat} (steady' : Steady extra' s') (uncut : ¬ Cut p) :
    s'.lookupNode dir name = some p ↔ s.lookupNode dir name = some p := by
  rw [steady.toStore.lookupIff,steady'.toStore.lookupIff,relabels.names p uncut]
  apply and_congr_right
  intro named
  obtain ⟨n,q,d,own,live,hasName,parent,alive⟩ := steady.shape.namedParent named
  obtain ⟨n',live',agrees,_⟩ := relabels.kept p n live
  obtain ⟨d',alive',agreesD,_⟩ := relabels.kept q d alive
  have before : s.entry p = some (d.nodeid,own) := entryIff.mpr ⟨n,q,d,live,hasName,parent,alive,rfl⟩
  have after : s'.entry p = some (d.nodeid,own) :=
    entryIff.mpr ⟨n',q,d',live',(agrees.name uncut).trans hasName,(agrees.parent uncut).trans parent,alive',
      agreesD.nodeid⟩
  rw [before,after]

theorem hideMarks (steady : Steady extra s) (live : s.heap p = some n) :
    Steady extra (s.put p {n with isHidden := true}) ∧
    Relabels Never (· = p) Never Unchanged s (s.put p {n with isHidden := true}) := by
  constructor
  · refine ⟨steady.toStore.touch live ⟨rfl,rfl,rfl⟩ rfl (fun _ _ => rfl) (fun h => .inl h) ?_,?_⟩
    · rintro rfl
      obtain ⟨r,atRoot,_,positive,_⟩ := steady.shape.root
      rw [live] at atRoot
      cases atRoot
      exact positive
    · intro r k found
      rcases atUpdate found with ⟨rfl,rfl⟩ | ⟨_,old⟩
      · exact steady.alive r n live
      · exact steady.alive r k old
  · refine ⟨rfl,rfl,rfl,rfl,rfl,?_,?_,fun _ _ => Iff.rfl,nofun⟩
    · intro r none
      rw [putOther (by rintro rfl; rw [live] at none; cases none)]
      exact none
    · intro r k was
      by_cases here : r = p
      · subst here
        rw [live] at was
        cases was
        exact ⟨_,putSelf ..,⟨rfl,rfl,rfl,rfl,by simp,fun _ => rfl,fun _ => rfl⟩,fun h => h⟩
      · exact ⟨k,(putOther here ..).trans was,⟨rfl,rfl,rfl,rfl,by simp [here],fun _ => rfl,fun _ => rfl⟩,fun h => h⟩

/- The second half of rename_node, once the target is out of the way. -/
theorem renameTail {newdir : Ino} {newname : Name} (hide : Bool) (steady : Steady extra s)
    (live : s.heap p = some n) (plain : p ≠ 0) (pinned : ∀ q, n.parent = some q → Pinned s q)
    (free : ∀ r, s.lookupNode newdir newname = some r → r = p) :
    Outcome (Bad s [newdir]) (fun r : Fuse × Int =>
      (r.2 = 0 ∧ Steady extra r.1 ∧ r.1.lookupNode newdir newname = some p ∧
        Relabels (· = p) (fun r => hide = true ∧ r = p) (· = (newdir,newname)) Unchanged s r.1) ∨
      (r.2 = -enomem ∧ Steady extra r.1 ∧ ¬ Has r.1.nameTable p ∧ inlineName ≤ newname.length ∧
        Relabels (· = p) Never Never Unchanged s r.1))
      ((s.unhashName p).bind fun s => (s.hashName p newdir newname).bind fun r =>
        if r.2 then
          if hide then (r.1.deref p).bind fun n => .ok (r.1.put p {n with isHidden := true},0)
          else .ok (r.1,0)
        else .ok (r.1,-enomem)) := by
  refine (unhashPinned steady live plain pinned [newdir]).bind ?_
  rintro s₁ ⟨steady₁,relabels₁,unnamed₁,n₁,live₁,noName⟩
  have vacant : s₁.lookupNode newdir newname = none := by
    cases found : s₁.lookupNode newdir newname with
    | none => rfl
    | some r =>
      by_cases here : r = p
      · subst here
        exact absurd ((steady₁.toStore.lookupIff newdir newname).mp found).1 unnamed₁
      · exact absurd (free r ((relabels₁.lookup steady steady₁ here).mp found)) here
  refine ((hashRenamed steady₁ live₁ unnamed₁ noName plain vacant (List.mem_singleton_self newdir)).imp
    (fun _ bad => bad.back relabels₁ steady steady₁) (fun _ good => good)).bind ?_
  rintro ⟨s₂,copied⟩ ⟨steady₂,relabels₂,hashed,failed⟩
  have both := relabels₁.trans relabels₂
  cases copied with
  | false =>
    obtain ⟨unnamed,long⟩ := failed rfl
    refine .inr ⟨rfl,steady₂,unnamed,long,?_⟩
    refine ⟨both.conf,both.brk,both.hidectr,both.idTable,both.lruTable,both.absent,?_,?_,?_⟩
    · intro r k was
      obtain ⟨k',now,agrees,known⟩ := both.kept r k was
      simp only [Never,or_self] at agrees
      exact ⟨k',now,agrees,known⟩
    · exact fun r other => both.names r (by simpa using other)
    · rintro r rfl named
      exact absurd named unnamed
  | true =>
    obtain ⟨named,entry⟩ := hashed rfl
    have lookup := (steady₂.toStore.lookupIff newdir newname).mpr ⟨named,entry⟩
    cases hide with
    | false =>
      refine .inl ⟨rfl,steady₂,lookup,both.congr (by simp) (by simp [Never]) (by simp [Never]) (fun _ _ => rfl)⟩
    | true =>
      obtain ⟨_,n₂,live₂,_⟩ := steady₂.lookupLive lookup
      obtain ⟨steady₃,relabels₃⟩ := hideMarks steady₂ live₂
      simp only [if_true,derefOk live₂,Except.bind]
      refine .inl ⟨rfl,steady₃,(relabels₃.lookup steady₂ steady₃ (fun h => h)).mpr lookup,?_⟩
      exact (both.trans relabels₃).congr (by simp [Never]) (by simp [Never]) (by simp [Never]) (fun _ _ => rfl)

theorem renameNodeSpec {olddir newdir : Ino} {oldname newname : Name} {hide : Bool} (steady : Steady extra s)
    (differ : ∀ p, s.lookupNode olddir oldname = some p → s.lookupNode newdir newname ≠ some p)
    (pinnedOld : DirPinned s olddir) (pinnedNew : DirPinned s newdir) :
    Outcome (Bad s [newdir]) (Moved extra s olddir oldname newdir newname hide)
      (s.renameNode olddir oldname newdir newname hide) := by
  unfold Fuse.renameNode
  cases source : s.lookupNode olddir oldname with
  | none => exact .missing source
  | some p =>
    obtain ⟨plain,n,live,_⟩ := steady.lookupLive source
    have parents := steady.lookupParent source live pinnedOld
    cases target : s.lookupNode newdir newname with
    | none =>
      simp only [Option.isSome_none,Bool.false_eq_true,false_and,if_false,bind]
      refine (renameTail hide steady live plain parents (by simp [target])).imp (fun _ bad => bad) ?_
      rintro ⟨s',err⟩ (⟨rfl,steady',lookup,relabels⟩ | ⟨rfl,steady',unnamed,long,relabels⟩)
      · refine .moved source steady' ?_ lookup (by simp [target])
        rw [target]
        exact relabels.congr (by simp) (fun _ => Iff.rfl) (fun _ h => h) (fun _ _ => rfl)
      · refine .failed source steady' ?_ unnamed (by simp [target]) long
        rw [target]
        exact relabels.congr (by simp) (fun _ => Iff.rfl) (fun _ h => h) (fun _ _ => rfl)
    | some q =>
      have other : p ≠ q := fun same => differ p source (same ▸ target)
      cases hide with
      | true =>
        simp only [Option.isSome_some,and_self,if_true]
        exact .busy source target rfl
      | false =>
        simp only [Option.isSome_some,Bool.false_eq_true,and_false,if_false,bind]
        obtain ⟨plainQ,m,liveQ,_⟩ := steady.lookupLive target
        refine (unlinkPinned steady liveQ plainQ (steady.lookupParent target liveQ pinnedNew) [newdir]).bind ?_
        rintro s₁ ⟨steady₁,relabels₁,unnamed₁⟩
        obtain ⟨n₁,live₁,agrees,_⟩ := relabels₁.kept p n live
        have parents₁ : ∀ r, n₁.parent = some r → Pinned s₁ r :=
          fun r parent => (parents r ((agrees.parent other).symm.trans parent)).relabels relabels₁
        have free : ∀ r, s₁.lookupNode newdir newname = some r → r = p := by
          intro r found
          by_cases here : r = q
          · subst here
            exact absurd ((steady₁.toStore.lookupIff newdir newname).mp found).1 unnamed₁
          · have before := (relabels₁.lookup steady steady₁ here).mp found
            rw [target] at before
            exact absurd (Option.some.inj before).symm here
        refine (renameTail false steady₁ live₁ plain parents₁ free).imp
          (fun _ bad => bad.back relabels₁ steady steady₁) ?_
        rintro ⟨s',err⟩ (⟨rfl,steady',lookup,relabels⟩ | ⟨rfl,steady',unnamed,long,relabels⟩)
        · refine .moved source steady' ?_ lookup ?_
          · rw [target]
            refine (relabels₁.trans relabels).congr ?_ (by simp [Never]) (by simp [Never]) (fun _ _ => rfl)
            simp [eq_comm]
          · intro r same
            rw [target] at same
            cases same
            rw [relabels.names q (Ne.symm other)]
            exact unnamed₁
        · refine .failed source steady' ?_ unnamed ?_ long
          · rw [target]
            refine (relabels₁.trans relabels).congr ?_ (by simp [Never]) (by simp [Never]) (fun _ _ => rfl)
            simp [eq_comm]
          · intro r same
            rw [target] at same
            cases same
            rw [relabels.names q (Ne.symm other)]
            exact unnamed₁

theorem Store.lookupSame {dir dir' : Ino} {name name' : Name} (store : Store extra none s)
    (first : s.lookupNode dir name = some p) (second : s.lookupNode dir' name' = some p) :
    (dir,name) = (dir',name') :=
  Option.some.inj (((store.lookupIff dir name).mp first).2.symm.trans ((store.lookupIff dir' name').mp second).2)

/- A node that has lost its name and waits for another. -/
def Nameless (s : Fuse) (node : Option Ptr) : Prop :=
  ∀ p, node = some p → p ≠ 0 ∧ ¬ Has s.nameTable p ∧ ∃ n, s.heap p = some n ∧ n.name = none

theorem Nameless.relabels {node : Option Ptr} (nameless : Nameless s node)
    (relabels : Relabels Cut Hide Made count s s') (uncut : ∀ p, node = some p → ¬ Cut p) : Nameless s' node := by
  intro p is
  obtain ⟨plain,unnamed,n,live,noName⟩ := nameless p is
  obtain ⟨n',live',agrees,_⟩ := relabels.kept p n live
  exact ⟨plain,by rw [relabels.names p (uncut p is)]; exact unnamed,n',live',(agrees.name (uncut p is)).trans noName⟩

theorem unhashNodeSpec (steady : Steady extra s) (node : Option Ptr) (dirs : List Ino)
    (known : ∀ p, node = some p → p ≠ 0 ∧ ∃ n, s.heap p = some n ∧ ∀ q, n.parent = some q → Pinned s q) :
    Outcome (Bad s dirs) (fun s' => Steady extra s' ∧ Relabels (fun r => node = some r) Never Never Unchanged s s' ∧
      Nameless s' node) (s.unhashNode node) := by
  cases node with
  | none =>
    refine ⟨steady,?_,nofun⟩
    exact (Relabels.refl s).congr (by simp [Never]) (fun _ => Iff.rfl) (fun _ h => h) (fun _ _ => rfl)
  | some p =>
    obtain ⟨plain,n,live,parents⟩ := known p rfl
    refine (unhashPinned steady live plain parents dirs).imp (fun _ bad => bad) ?_
    rintro s' ⟨steady',relabels,unnamed,rest⟩
    refine ⟨steady',relabels.congr ?_ (fun _ => Iff.rfl) (fun _ h => h) (fun _ _ => rfl),?_⟩
    · simp [eq_comm]
    · rintro _ ⟨⟩
      exact ⟨plain,unnamed,rest⟩

structure Rehashed (extra : Ptr → Nat) (s : Fuse) (node : Option Ptr) (dir : Ino) (name : Name)
    (r : Fuse × Bool) : Prop where
  steady : Steady extra r.1
  relabels : Relabels (fun r => node = some r) Never (· = (dir,name)) Unchanged s r.1
  hashed : r.2 = true → r.1.lookupNode dir name = node
  failed : r.2 = false → ∃ p, node = some p ∧ ¬ Has r.1.nameTable p ∧ inlineName ≤ name.length

theorem hashNodeSpec {node : Option Ptr} {dir : Ino} {name : Name} (steady : Steady extra s)
    (nameless : Nameless s node) (free : s.lookupNode dir name = none) {dirs : List Ino} (passed : dir ∈ dirs) :
    Outcome (Bad s dirs) (Rehashed extra s node dir name) (s.hashNode node dir name) := by
  cases node with
  | none =>
    refine ⟨steady,?_,fun _ => free,nofun⟩
    refine ⟨rfl,rfl,rfl,rfl,rfl,fun _ h => h,fun _ k h => ⟨k,h,.refl _ k,fun h => h⟩,fun _ _ => Iff.rfl,nofun⟩
  | some p =>
    obtain ⟨plain,unnamed,n,live,noName⟩ := nameless p rfl
    refine (hashRenamed steady live unnamed noName plain free passed).imp (fun _ bad => bad) ?_
    rintro ⟨s',copied⟩ ⟨steady',relabels,hashed,failed⟩
    refine ⟨steady',relabels.congr ?_ (fun _ => Iff.rfl) (fun _ h => h) (fun _ _ => rfl),?_,?_⟩
    · simp [eq_comm]
    · exact fun ok => (steady'.toStore.lookupIff dir name).mpr (hashed ok)
    · exact fun no => ⟨p,rfl,failed no⟩

structure Exchanged (extra : Ptr → Nat) (s : Fuse) (olddir : Ino) (oldname : Name) (newdir : Ino) (newname : Name)
    (r : Fuse × Int) : Prop where
  steady : Steady extra r.1
  relabels : Relabels (fun r => s.lookupNode olddir oldname = some r ∨ s.lookupNode newdir newname = some r) Never
    (fun e => e = (newdir,newname) ∨ e = (olddir,oldname)) Unchanged s r.1
  result : (r.2 = 0 ∧ r.1.lookupNode newdir newname = s.lookupNode olddir oldname ∧
      r.1.lookupNode olddir oldname = s.lookupNode newdir newname) ∨
    (r.2 = -enomem ∧ ∃ p, (s.lookupNode olddir oldname = some p ∧ inlineName ≤ newname.length ∨
      s.lookupNode newdir newname = some p ∧ inlineName ≤ oldname.length) ∧ ¬ Has r.1.nameTable p)

theorem exchangeNodeSpec {olddir newdir : Ino} {oldname newname : Name} (steady : Steady extra s)
    (names : (olddir,oldname) ≠ (newdir,newname)) (pinnedOld : DirPinned s olddir) (pinnedNew : DirPinned s newdir) :
    Outcome (Bad s [newdir,olddir]) (Exchanged extra s olddir oldname newdir newname)
      (s.exchangeNode olddir oldname newdir newname) := by
  have differ : ∀ r, s.lookupNode olddir oldname = some r → s.lookupNode newdir newname ≠ some r := by
    intro r source target
    exact names (steady.toStore.lookupSame source target)
  have known : ∀ dir name, DirPinned s dir → ∀ p, s.lookupNode dir name = some p →
      p ≠ 0 ∧ ∃ n, s.heap p = some n ∧ ∀ q, n.parent = some q → Pinned s q := by
    intro dir name pinned p found
    obtain ⟨plain,n,live,_⟩ := steady.lookupLive found
    exact ⟨plain,n,live,steady.lookupParent found live pinned⟩
  unfold Fuse.exchangeNode
  simp only [bind]
  refine (unhashNodeSpec steady _ [newdir,olddir] (known olddir oldname pinnedOld)).bind ?_
  rintro s₁ ⟨steady₁,relabels₁,nameless₁⟩
  have known₁ : ∀ p, s.lookupNode newdir newname = some p →
      p ≠ 0 ∧ ∃ n, s₁.heap p = some n ∧ ∀ q, n.parent = some q → Pinned s₁ q := by
    intro p target
    obtain ⟨plain,n,live,parents⟩ := known newdir newname pinnedNew p target
    have uncut : ¬ s.lookupNode olddir oldname = some p := fun source => differ p source target
    obtain ⟨n₁,live₁,agrees,_⟩ := relabels₁.kept p n live
    exact ⟨plain,n₁,live₁,fun q parent =>
      (parents q ((agrees.parent uncut).symm.trans parent)).relabels relabels₁⟩
  refine ((unhashNodeSpec steady₁ _ [newdir,olddir] known₁).imp
    (fun _ bad => bad.back relabels₁ steady steady₁) (fun _ good => good)).bind ?_
  rintro s₂ ⟨steady₂,relabels₂,nameless₂⟩
  have both := relabels₁.trans relabels₂
  have namelessOld : Nameless s₂ (s.lookupNode olddir oldname) :=
    nameless₁.relabels relabels₂ differ
  -- both names are free now
  have free : ∀ dir name, (dir,name) = (olddir,oldname) ∨ (dir,name) = (newdir,newname) →
      s₂.lookupNode dir name = none := by
    intro dir name which
    cases found : s₂.lookupNode dir name with
    | none => rfl
    | some r =>
      have named := ((steady₂.toStore.lookupIff dir name).mp found).1
      have notOld : ¬ s.lookupNode olddir oldname = some r := fun source => (namelessOld r source).2.1 named
      have notNew : ¬ s.lookupNode newdir newname = some r := fun target => (nameless₂ r target).2.1 named
      have before := (both.lookup steady steady₂ (fun cut => cut.elim notOld notNew)).mp found
      rcases which with same | same
      · cases same
        exact absurd before notOld
      · cases same
        exact absurd before notNew
  refine ((hashNodeSpec steady₂ namelessOld (free newdir newname (.inr rfl)) (by simp)).imp
    (fun _ bad => bad.back both steady steady₂) (fun _ good => good)).bind ?_
  rintro ⟨s₃,copied⟩ ⟨steady₃,relabels₃,hashed₃,failed₃⟩
  have three := both.trans relabels₃
  cases copied with
  | false =>
    obtain ⟨p,source,unnamed,long⟩ := failed₃ rfl
    refine ⟨steady₃,?_,.inr ⟨rfl,p,.inl ⟨source,long⟩,unnamed⟩⟩
    refine three.congr ?_ (by simp [Never]) ?_ (fun _ _ => rfl)
    · intro r
      tauto
    · rintro e ((no | no) | made)
      · exact no.elim
      · exact no.elim
      · exact .inl made
  | true =>
    have there := hashed₃ rfl
    have namelessNew : Nameless s₃ (s.lookupNode newdir newname) :=
      nameless₂.relabels relabels₃ (fun r target source => differ r source target)
    have vacant : s₃.lookupNode olddir oldname = none := by
      cases found : s₃.lookupNode olddir oldname with
      | none => rfl
      | some r =>
        by_cases cut : s.lookupNode olddir oldname = some r
        · exact absurd (steady₃.toStore.lookupSame found (there.trans cut)) names
        · have before := (relabels₃.lookup steady₂ steady₃ cut).mp found
          rw [free olddir oldname (.inl rfl)] at before
          cases before
    refine ((hashNodeSpec steady₃ namelessNew vacant (by simp)).imp
      (fun _ bad => bad.back three steady steady₃) (fun _ good => good)).bind ?_
    rintro ⟨s₄,copied⟩ ⟨steady₄,relabels₄,hashed₄,failed₄⟩
    have four := three.trans relabels₄
    have all : Relabels (fun r => s.lookupNode olddir oldname = some r ∨ s.lookupNode newdir newname = some r) Never
        (fun e => e = (newdir,newname) ∨ e = (olddir,oldname)) Unchanged s s₄ :=
      four.congr (by intro r; tauto) (by simp [Never]) (by simp [Never]) (fun _ _ => rfl)
    cases copied with
    | false =>
      obtain ⟨p,target,unnamed,long⟩ := failed₄ rfl
      exact ⟨steady₄,all,.inr ⟨rfl,p,.inr ⟨target,long⟩,unnamed⟩⟩
    | true =>
      refine ⟨steady₄,all,.inl ⟨rfl,?_,hashed₄ rfl⟩⟩
      rw [← there]
      apply Option.ext
      intro r
      by_cases cut : s.lookupNode newdir newname = some r
      · constructor
        · intro found
          exact absurd (steady₄.toStore.lookupSame ((hashed₄ rfl).trans cut) found) names
        · intro found
          rw [there] at found
          exact absurd cut (differ r found)
      · exact relabels₄.lookup steady₃ steady₄ cut

end FuseStudy.NodeStore
