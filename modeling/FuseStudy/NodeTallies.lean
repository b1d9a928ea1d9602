import FuseStudy.RenameErrors

/-! What each instruction of a request does to the lookups and to the open files of every node. -/
namespace FuseStudy.NodeStore
open CString LinearHash Script

variable {s s' : Fuse} {p q : Ptr} {n m : Node} {extra extra' : Ptr → Nat} {Cut Hide : Ptr → Prop}
    {Made : Ino × Name → Prop}
  {count : Ptr → Nat → Nat} {more less ups downs : Ino → Nat}

/- With conf.remember set a node that has a name has one lookup of the library's own. -/
def Fuse.own (s : Fuse) (n : Node) : Nat := if s.conf.remember ≠ 0 ∧ n.name ≠ none then 1 else 0

/- Lookups are taken (more) and given back (less), files are opened (ups) and closed (downs), each
for the node with an id. -/
structure Tally (more less ups downs : Ino → Nat) (s s' : Fuse) : Prop where
  kept : ∀ p n n', s.heap p = some n → s'.heap p = some n' → n'.nodeid = n.nodeid ∧
    (downs n.nodeid = 0 ∨ (downs n.nodeid : Int) ≤ n.openCount) ∧
    n'.openCount + downs n.nodeid = n.openCount + ups n.nodeid ∧
    (p ≠ 0 → n'.nlookup + less n.nodeid + s.own n = n.nlookup + more n.nodeid + s'.own n')
  gone : ∀ p n, s.heap p = some n → s'.heap p = none → p ≠ 0 ∧ n.nlookup = less n.nodeid
  made : ∀ p n', s.heap p = none → s'.heap p = some n' → p ≠ 0 ∧ n'.openCount = 0 ∧ ups n'.nodeid = 0 ∧
    n'.nlookup = more n'.nodeid + s'.own n' ∧ less n'.nodeid = 0 ∧ n'.nodeid ≠ 0 ∧
      ∀ q n, s.heap q = some n → n.nodeid ≠ n'.nodeid
  taken : ∀ ino, more ino ≠ 0 ∨ ups ino ≠ 0 → ∃ p n', s'.heap p = some n' ∧ n'.nodeid = ino

def nobody : Ino → Nat := fun _ => 0

abbrev Level (s s' : Fuse) : Prop := Tally nobody nobody nobody nobody s s'

def Instr.takes : (i : Instr) → i.Result → Ino → Nat
  | .findNode .., some found, ino => if ino = found then 1 else 0
  | _, _, _ => 0

/- The root is never forgotten. -/
def Instr.gives : Instr → Ino → Nat
  | .forgetNode nodeid nlookup, ino => if ino = nodeid ∧ ino ≠ rootId then nlookup else 0
  | _, _ => 0

def Instr.opens : Instr → Ino → Nat
  | .openNode nodeid, ino => if ino = nodeid then 1 else 0
  | _, _ => 0

def Instr.closes : Instr → Ino → Nat
  | .releaseNode nodeid, ino => if ino = nodeid then 1 else 0
  | _, _ => 0

/- Only rename_node and exchange_node can leave a node without its name, for want of memory. -/
def Instr.names : (i : Instr) → i.Result → Bool
  | .renameNode .., err => decide (err ≠ -enomem)
  | .exchangeNode .., err => decide (err ≠ -enomem)
  | _, _ => true

theorem Steady.idsApart (steady : Steady extra s) (live : s.heap p = some n) (live' : s.heap q = some m)
    (same : n.nodeid = m.nodeid) : p = q :=
  steady.shape.distinct p q n m (steady.alive p n live).1 (steady.alive q m live').1 live live' same

/-! Operations that free nothing and make nothing. -/

theorem levelOf
    (kept : ∀ p n, s.heap p = some n → ∃ n', s'.heap p = some n' ∧ n'.nodeid = n.nodeid ∧
      n'.openCount = n.openCount ∧ (p ≠ 0 → n'.nlookup + s.own n = n.nlookup + s'.own n'))
    (absent : ∀ p, s.heap p = none → s'.heap p = none) : Level s s' := by
  refine ⟨?_,?_,?_,fun ino no => no.elim (absurd rfl) (absurd rfl)⟩
  · intro p n n' live live'
    obtain ⟨k,now,id,opened,lookups⟩ := kept p n live
    rw [live'] at now
    cases now
    exact ⟨id,.inl rfl,by rw [opened],lookups⟩
  · intro p n live none
    obtain ⟨k,now,_⟩ := kept p n live
    rw [none] at now
    cases now
  · intro p n' none live'
    rw [absent p none] at live'
    cases live'

theorem Level.refl (s : Fuse) : Level s s := levelOf (fun _ n live => ⟨n,live,rfl,rfl,fun _ => rfl⟩) fun _ none => none

theorem LocksOnly.level (only : LocksOnly s s') : Level s s' := by
  refine levelOf (fun p n live => ?_) fun p none => ?_
  · have same := only.nodes p
    rw [live,Option.map_some] at same
    obtain ⟨n',live',is⟩ := Option.map_eq_some_iff.mp same
    simp only [Node.unlocked,Node.mk.injEq] at is
    obtain ⟨id,_,_,_,name,lookups,opened,_⟩ := is
    refine ⟨n',live',id,opened,fun _ => ?_⟩
    rw [Fuse.own,Fuse.own,only.conf,name,lookups]
  · have same := only.nodes p
    rw [none,Option.map_none] at same
    exact Option.map_eq_none_iff.mp same

theorem Relabels.level (relabels : Relabels Cut Hide Made count s s')
    (cut : ∀ p n n', s.heap p = some n → s'.heap p = some n' → p ≠ 0 → Cut p →
      count p n.nlookup + s.own n = n.nlookup + s'.own n')
    (uncut : ∀ p k, ¬ Cut p → count p k = k) : Level s s' := by
  refine levelOf (fun p n live => ?_) relabels.absent
  obtain ⟨n',live',agrees,_⟩ := relabels.kept p n live
  refine ⟨n',live',agrees.nodeid,agrees.openCount,fun plain => ?_⟩
  rw [agrees.nlookup]
  by_cases moved : Cut p
  · exact cut p n n' live live' plain moved
  · rw [uncut p _ moved,Fuse.own,Fuse.own,relabels.conf,agrees.name moved]

/-! Operations on one node. -/

theorem Tally.put (steady : Steady extra s) (live : s.heap p = some n) (at_ : s'.heap = (s.put p m).heap)
    (conf : s'.conf = s.conf) (id : m.nodeid = n.nodeid) (name : m.name = n.name)
    (elsewhere : ∀ ino, ino ≠ n.nodeid → more ino = 0 ∧ less ino = 0 ∧ ups ino = 0 ∧ downs ino = 0)
    (closed : downs n.nodeid = 0 ∨ (downs n.nodeid : Int) ≤ n.openCount)
    (opened : m.openCount + downs n.nodeid = n.openCount + ups n.nodeid)
    (looked : p ≠ 0 → m.nlookup + less n.nodeid = n.nlookup + more n.nodeid) : Tally more less ups downs s s' := by
  refine ⟨?_,?_,?_,?_⟩
  · intro q k k' was now
    rw [at_] at now
    rcases atUpdate now with ⟨rfl,rfl⟩ | ⟨other,same⟩
    · rw [live] at was
      cases was
      refine ⟨id,closed,opened,fun plain => ?_⟩
      have own : s'.own k' = s.own n := by rw [Fuse.own,Fuse.own,name,conf]
      rw [own,looked plain]
    · rw [was] at same
      cases same
      obtain ⟨take,give,open_,close⟩ := elsewhere k.nodeid fun same => other (steady.idsApart was live same)
      rw [take,give,open_,close,Fuse.own,Fuse.own,conf]
      exact ⟨rfl,.inl rfl,rfl,fun _ => rfl⟩
  · intro q k was none
    rw [at_] at none
    by_cases here : q = p
    · subst here
      rw [putSelf] at none
      cases none
    · rw [putOther here,was] at none
      cases none
  · intro q k none now
    rw [at_] at now
    rcases atUpdate now with ⟨rfl,_⟩ | ⟨_,same⟩
    · rw [live] at none
      cases none
    · rw [none] at same
      cases same
  · intro ino some
    by_cases here : ino = n.nodeid
    · exact ⟨p,m,by rw [at_]; exact putSelf ..,id.trans here.symm⟩
    · obtain ⟨take,_,open_,_⟩ := elsewhere ino here
      exact some.elim (absurd take) (absurd open_)

/-! Operations that free nodes. -/

theorem Effect.tally {nlookup : Nat}
    (effect : Effect Never Never Never (fun r k => if r = p then n.nlookup - nlookup else k) s s')
    (steady : Steady extra s) (steady' : Steady extra' s') (brk : s'.brk = s.brk) (live : s.heap p = some n)
    (enough : nlookup ≤ n.nlookup) :
    Tally nobody (fun ino => if ino = n.nodeid then nlookup else 0) nobody nobody s s' := by
  have counts : ∀ q k, s.heap q = some k →
      (if q = p then n.nlookup - nlookup else k.nlookup) + (if k.nodeid = n.nodeid then nlookup else 0) =
        k.nlookup := by
    intro q k was
    by_cases here : q = p
    · subst here
      rw [live] at was
      cases was
      rw [if_pos rfl,if_pos rfl]
      omega
    · rw [if_neg here,if_neg fun same => here (steady.idsApart was live same),Nat.add_zero]
  refine ⟨?_,?_,?_,fun ino no => no.elim (absurd rfl) (absurd rfl)⟩
  · intro q k k' was now
    have agrees := effect.kept q k k' was now
    refine ⟨agrees.nodeid,.inl rfl,by rw [agrees.openCount],fun _ => ?_⟩
    have own : s'.own k' = s.own k := by rw [Fuse.own,Fuse.own,effect.conf,agrees.name fun no => no]
    rw [agrees.nlookup,counts q k was,own]
    rfl
  · intro q k was none
    refine ⟨?_,?_⟩
    · rintro rfl
      obtain ⟨r,atRoot,_⟩ := steady'.shape.root
      rw [none] at atRoot
      cases atRoot
    · have count := counts q k was
      rw [(effect.gone q k was none).2,Nat.zero_add] at count
      exact count.symm
  · intro q k none now
    have low := steady'.shape.lt now
    rw [brk] at low
    exact absurd (effect.new q k none now).1 (Nat.not_le.mpr low)

theorem forgetTally {nodeid : Ino} {nlookup : Nat} (steady : Steady extra s) (positive : 0 < nlookup)
    (ran : s.forgetNode nodeid nlookup = .ok s') :
    Tally nobody (Instr.forgetNode nodeid nlookup).gives nobody nobody s s' := by
  by_cases plain : nodeid = rootId
  · have quiet : (Instr.forgetNode nodeid nlookup).gives = nobody := by
      funext ino
      exact if_neg fun is => is.2 (is.1.trans plain)
    simp only [Fuse.forgetNode,if_pos plain] at ran
    cases ran
    rw [quiet]
    exact Level.refl s
  · have again := ran
    simp only [Fuse.forgetNode,if_neg plain] at again
    obtain ⟨p,get,again⟩ := callBind again
    obtain ⟨n,deref,again⟩ := callBind again
    have found := getNodeFound get
    obtain ⟨_,n',live,id⟩ := (steady.toStore.getNodeIff nodeid).mp found
    rw [derefOk live] at deref
    cases deref
    by_cases short : n.nlookup < nlookup
    · rw [if_pos short] at again
      cases again
    · have outcome := forgetNodeSpec steady plain found live (by omega) (Nat.le_of_not_lt short)
      rw [ran] at outcome
      obtain ⟨steady',effect,relisted⟩ := outcome
      have gives : (Instr.forgetNode nodeid nlookup).gives = fun ino => if ino = n.nodeid then nlookup else 0 := by
        funext ino
        simp only [Instr.gives,id]
        by_cases here : ino = nodeid
        · rw [if_pos ⟨here,here ▸ plain⟩,if_pos here]
        · rw [if_neg fun both => here both.1,if_neg here]
      rw [gives]
      exact effect.tally steady steady' relisted.brk live (Nat.le_of_not_lt short)

/-! Names. -/

/- With conf.remember set a node that has a name has a lookup to go with it. -/
def Titled (s : Fuse) : Prop :=
  ∀ p n, s.heap p = some n → p ≠ 0 → s.conf.remember ≠ 0 → n.name ≠ none → 0 < n.nlookup

theorem unlinkedOwn {m : Node} (steady : Steady extra s) (steady' : Steady extra' s') (titled : Titled s)
    (live : s.heap p = some n) (live' : s'.heap p = some m) (plain : p ≠ 0) (named : Has s.nameTable p)
    (unnamed : ¬ Has s'.nameTable p) :
    unlinkCount s p p n.nlookup + s.own n = n.nlookup + s'.own m := by
  have name := (steady.named live plain).mp named
  have noName : m.name = none := by
    by_contra some
    exact unnamed ((steady'.named live' plain).mpr some)
  by_cases remember : s.conf.remember ≠ 0
  · have positive := titled p n live plain remember name
    have before : s.own n = 1 := if_pos ⟨remember,name⟩
    have after : s'.own m = 0 := if_neg fun both => both.2 noName
    have less : unlinkCount s p p n.nlookup = n.nlookup - 1 := if_pos ⟨remember,rfl⟩
    rw [before,after,less]
    omega
  · have before : s.own n = 0 := if_neg fun both => remember both.1
    have after : s'.own m = 0 := if_neg fun both => both.2 noName
    have same : unlinkCount s p p n.nlookup = n.nlookup := if_neg fun both => remember both.1
    rw [before,after,same]

theorem renamedOwn {m : Node} (steady : Steady extra s) (steady' : Steady extra' s') (conf : s'.conf = s.conf)
    (live : s.heap p = some n) (live' : s'.heap p = some m) (plain : p ≠ 0) (named : Has s.nameTable p)
    (named' : Has s'.nameTable p) :
    s'.own m = s.own n := by
  have name := (steady.named live plain).mp named
  have name' := (steady'.named live' plain).mp named'
  simp only [Fuse.own,conf,name,name',ne_eq,not_false_eq_true,and_true]

theorem Removed.level {dir : Ino} {name : Name} (removed : Removed extra s dir name s')
    (steady : Steady extra s) (titled : Titled s) :
    Level s s' := by
  refine removed.relabels.level ?_ ?_
  · intro p n n' live live' plain found
    rw [found]
    exact unlinkedOwn steady removed.steady titled live live' plain
      ((steady.toStore.lookupIff dir name).mp found).1 (removed.unnamed p found)
  · intro p k uncut
    cases found : s.lookupNode dir name with
    | none => rfl
    | some q => exact if_neg fun both => uncut (found.trans (congrArg some both.2.symm))

theorem Moved.level {olddir newdir : Ino} {oldname newname : Name} {hide : Bool} {r : Fuse × Int}
    (moved : Moved extra s olddir oldname newdir newname hide r) (steady : Steady extra s) (titled : Titled s)
    (names : r.2 ≠ -enomem) :
    Level s r.1 := by
  cases moved with
  | missing | busy => exact .refl s
  | failed => exact absurd rfl names
  | @moved p s' source steady' relabels lookup dropped =>
    have inside := ((steady'.toStore.lookupIff newdir newname).mp lookup).1
    have apart : ∀ r, s.lookupNode newdir newname = some r → r ≠ p := by
      rintro r target rfl
      exact dropped r target inside
    have count : ∀ r k, s.lookupNode newdir newname ≠ some r →
        unlinkCounts s (s.lookupNode newdir newname) r k = k := by
      intro r k other
      cases target : s.lookupNode newdir newname with
      | none => rfl
      | some q => exact if_neg fun both => other (target.trans (congrArg some both.2.symm))
    refine relabels.level ?_ fun r k uncut => count r k fun target => uncut (.inl target)
    intro r n n' live live' plain cut
    by_cases target : s.lookupNode newdir newname = some r
    · rw [target]
      exact unlinkedOwn steady steady' titled live live' plain
        ((steady.toStore.lookupIff newdir newname).mp target).1 (dropped r target)
    · obtain rfl : r = p := cut.resolve_left target
      rw [count r _ target,renamedOwn steady steady' relabels.conf live live' plain
        ((steady.toStore.lookupIff olddir oldname).mp source).1 inside]

theorem Exchanged.level {olddir newdir : Ino} {oldname newname : Name} {r : Fuse × Int}
    (exchanged : Exchanged extra s olddir oldname newdir newname r) (steady : Steady extra s)
    (names : r.2 ≠ -enomem) : Level s r.1 := by
  obtain ⟨_,toNew,toOld⟩ | ⟨short,_⟩ := exchanged.result
  · refine exchanged.relabels.level ?_ fun _ _ _ => rfl
    intro p n n' live live' plain cut
    have named : Has s.nameTable p := by
      rcases cut with source | target
      · exact ((steady.toStore.lookupIff olddir oldname).mp source).1
      · exact ((steady.toStore.lookupIff newdir newname).mp target).1
    have named' : Has r.1.nameTable p := by
      rcases cut with source | target
      · exact ((exchanged.steady.toStore.lookupIff newdir newname).mp (toNew.trans source)).1
      · exact ((exchanged.steady.toStore.lookupIff olddir oldname).mp (toOld.trans target)).1
    rw [renamedOwn steady exchanged.steady exchanged.relabels.conf live live' plain named named']
    rfl
  · exact absurd short names

/-! Lookups. -/

theorem Found.tally {parent : Ino} {name : Option Name} {r : Fuse × Option Ptr} {answer : Option Ino}
    (looked : Found extra s parent name r) (steady : Steady extra s)
    (is : answer = r.2.bind fun p => (r.1.heap p).map Node.nodeid) :
    Tally (Instr.takes (.findNode parent name) answer) nobody nobody nobody s r.1 := by
  cases looked with
  | @existing p n lru live found lruIs steady' =>
    have at_ : answer = some n.nodeid := by rw [is]; simp [Fuse.put,Node.incNlookup]
    subst at_
    refine Tally.put steady live rfl rfl rfl rfl (fun ino other => ⟨if_neg other,rfl,rfl,rfl⟩)
      (.inl rfl) rfl fun _ => ?_
    have one : Instr.takes (.findNode parent name) (some n.nodeid) n.nodeid = 1 := if_pos rfl
    rw [one]
    rfl
  | @created nm s' n asked absent steady' effect live brk lookup lookups lru rest ids =>
    have at_ : answer = some n.nodeid := by rw [is]; simp [live]
    subst at_
    have unused : ∀ q k, s.heap q = some k → k.nodeid ≠ n.nodeid := by
      intro q k was same
      have there := (steady.toStore.getNodeIff n.nodeid).mpr ⟨(steady.alive q k was).1,k,was,same⟩
      rw [ids.1] at there
      cases there
    have below : s.brk ≠ 0 := by
      intro zero
      obtain ⟨r,atRoot,_⟩ := steady.shape.root
      rw [steady.shape.fresh 0 (Nat.le_of_eq zero)] at atRoot
      cases atRoot
    refine ⟨?_,?_,?_,?_⟩
    · intro q k k' was now
      have agrees := effect.kept q k k' was now
      have none : Instr.takes (.findNode parent name) (some n.nodeid) k.nodeid = 0 := if_neg (unused q k was)
      refine ⟨agrees.nodeid,.inl rfl,by rw [agrees.openCount],fun _ => ?_⟩
      rw [none,agrees.nlookup,Fuse.own,Fuse.own,effect.conf,agrees.name fun no => no]
      rfl
    · intro q k was none
      obtain ⟨k',now⟩ := rest q k was
      rw [now] at none
      cases none
    · intro q k none now
      have low := steady'.shape.lt now
      rw [brk] at low
      obtain ⟨high,_,opened,_⟩ := effect.new q k none now
      obtain rfl : q = s.brk := Nat.le_antisymm (Nat.le_of_lt_succ low) high
      rw [live] at now
      cases now
      have one : Instr.takes (.findNode parent name) (some n.nodeid) n.nodeid = 1 := if_pos rfl
      have name := (steady'.named live below).mp ((steady'.toStore.lookupIff parent nm).mp lookup).1
      refine ⟨below,opened,rfl,?_,rfl,ids.2.1,unused⟩
      rw [lookups,one,Fuse.own,effect.conf]
      by_cases remember : s.conf.remember ≠ 0
      · rw [if_pos remember,if_pos ⟨remember,name⟩]
      · rw [if_neg remember,if_neg fun both => remember both.1]
    · intro ino some
      have here : ino = n.nodeid := by
        by_contra other
        exact some.elim (absurd (if_neg other)) (absurd rfl)
      exact ⟨s.brk,n,live,here.symm⟩
  | failed =>
    have at_ : answer = none := is
    subst at_
    exact levelOf (fun _ n live => ⟨n,live,rfl,rfl,fun _ => rfl⟩) fun _ none => none

/-! One instruction of a request. -/

variable {others : List Held} {otherPins : List Ptr} {g : Ghost}

theorem unpinLevel {node : Ptr} (steady : Steady extra s) (owed : Store (bump extra' node) none s)
    (ran : s.unrefNode node = .ok s') :
    Level s s' := by
  have unrefs := ran
  unfold Fuse.unrefNode unrefLoop at unrefs
  obtain ⟨n,deref,_⟩ := callBind unrefs
  have live := derefLive deref
  have cascade := unrefCascade owed live (apartNone _ _)
  rw [ran] at cascade
  cases cascade with
  | done store' shrinks _ idle =>
    have steady' : Steady extra' s' := by
      refine shrinks.steady store' (fun r j was => (steady.alive r j was).1) ?_
      intro r j now zero
      obtain ⟨mid,was,none⟩ := idle r j now zero
      exact (steady.alive r mid was).2 none
    have same : s.put node {n with nlookup := n.nlookup} = s := by
      simp only [Fuse.put,← live,Function.update_eq_self]
    have effect := Shrinks.effect live (same.symm ▸ shrinks) steady.toStore
    have tally : Tally nobody (fun ino => if ino = n.nodeid then 0 else 0) nobody nobody s s' :=
      Effect.tally effect steady steady' shrinks.brk live (Nat.zero_le _)
    have quiet : (fun ino => if ino = n.nodeid then 0 else 0) = nobody := funext fun ino => ite_self 0
    rwa [quiet] at tally

theorem openNodeTally {nodeid : Ino} (steady : Steady extra s) (ran : s.openNode nodeid = .ok s') :
    Tally nobody nobody (Instr.openNode nodeid).opens nobody s s' := by
  obtain ⟨p,get,ran⟩ := callBind ran
  obtain ⟨n,deref,ran⟩ := callBind ran
  cases ran
  obtain ⟨_,n',live,id⟩ := (steady.toStore.getNodeIff nodeid).mp (getNodeFound get)
  rw [derefOk live] at deref
  cases deref
  have quiet : ∀ ino, ino ≠ n.nodeid → (Instr.openNode nodeid).opens ino = 0 := fun ino other =>
    if_neg fun is => other (is.trans id.symm)
  have here : (Instr.openNode nodeid).opens n.nodeid = 1 := if_pos id
  refine Tally.put steady live rfl rfl rfl rfl (fun ino other => ⟨rfl,rfl,quiet ino other,rfl⟩)
    (.inl rfl) ?_ fun _ => rfl
  rw [here]
  exact Int.add_zero _

theorem releaseNodeTally {nodeid : Ino} {last : Bool} (steady : Steady extra s)
    (ran : s.releaseNode nodeid = .ok (s',last)) :
    Tally nobody nobody nobody (Instr.releaseNode nodeid).closes s s' := by
  obtain ⟨p,get,ran⟩ := callBind ran
  obtain ⟨n,deref,ran⟩ := callBind ran
  obtain ⟨_,n',live,id⟩ := (steady.toStore.getNodeIff nodeid).mp (getNodeFound get)
  rw [derefOk live] at deref
  cases deref
  have quiet : ∀ ino, ino ≠ n.nodeid → (Instr.releaseNode nodeid).closes ino = 0 :=
    fun ino other => if_neg fun is => other (is.trans id.symm)
  have here : (Instr.releaseNode nodeid).closes n.nodeid = 1 := if_pos id
  split at ran
  · cases ran
  · next open_ =>
    cases ran
    refine Tally.put steady live rfl rfl rfl rfl (fun ino other => ⟨rfl,rfl,rfl,quiet ino other⟩)
      (.inr ?_) ?_ fun _ => rfl
    · rw [here]
      exact Int.not_le.mp open_
    · rw [here]
      exact (Int.sub_add_cancel ..).trans (Int.add_zero _).symm

theorem pinNodeLevel {nodeid : Ino} {found : Option Ptr} (steady : Steady extra s)
    (ran : s.pinNode nodeid = .ok (s',found)) :
    Level s s' := by
  unfold Fuse.pinNode at ran
  split at ran
  · cases ran
    exact Level.refl s
  · obtain ⟨n,deref,ran⟩ := callBind ran
    cases ran
    exact Tally.put steady (derefLive deref) rfl rfl rfl rfl (fun ino _ => ⟨rfl,rfl,rfl,rfl⟩)
      (.inl rfl) rfl fun _ => rfl

theorem execTally {i : Instr} {answer : Int} {r : i.Result}
    (world : World (g.holds ++ others) (g.pins ++ otherPins) s) (knows : Knows s g) (may : May g i)
    (few : g.holds.length ≤ 2 ∧ others.length + 2 < 2147483647) (titled : Titled s) (names : i.names r)
    (ran : s.exec answer i = .ok (s',some r)) : Tally (i.takes r) i.gives i.opens i.closes s s' := by
  have few₁ : Few (g.holds ++ others) := by
    rw [Few,List.length_append]
    omega
  have steady := world.tree.toSteady
  cases i with
  | getPath want =>
    obtain ⟨⟨s₁,tried⟩,result,ran⟩ := callBind ran
    injection ran with both
    injection both with first _
    subst first
    exact (tryGetPathLocks result).level
  | getPath2 want1 want2 => exact (execLocks (i := .getPath2 want1 want2) rfl ran).level
  | freePath held =>
    obtain ⟨s₁,freed,ran⟩ := callBind ran
    cases ran
    exact (unlockPathLocks freed).level
  | freePath2 held1 held2 => exact (execLocks (i := .freePath2 held1 held2) rfl ran).level
  | peekPath nodeid =>
    obtain ⟨⟨s₁,path⟩,peeked,ran⟩ := callBind ran
    cases ran
    exact (peekPathLocks peeked).level
  | findNode parent name =>
    obtain ⟨⟨s₁,found⟩,looked,ran⟩ := callBind ran
    have outcome := findNodeSpec steady world.spare parent name
    rw [looked] at outcome
    cases found with
    | none =>
      cases ran
      exact Found.tally outcome steady rfl
    | some p =>
      obtain ⟨n,deref,ran⟩ := callBind ran
      cases ran
      refine Found.tally outcome steady ?_
      simp only [Option.bind_some,derefLive deref,Option.map_some]
  | forgetNode nodeid nlookup =>
    obtain ⟨waits,_,ran⟩ := callBind ran
    cases waits with
    | true => cases ran
    | false =>
      obtain ⟨s₁,forgot,ran⟩ := callBind ran
      cases ran
      exact forgetTally steady may forgot
  | removeNode dir name =>
    obtain ⟨s₁,removed,ran⟩ := callBind ran
    cases ran
    have outcome : Outcome _ (Removed _ s dir name) _ := removeNodeSpec steady (world.dirPinned few₁ may.2)
    exact (Outcome.good outcome removed).level steady titled
  | renameNode olddir oldname newdir newname hide =>
    obtain ⟨⟨s₁,err⟩,moved,ran⟩ := callBind ran
    cases ran
    have outcome := renameNodeOutcome world knows may few₁
    exact (Outcome.good outcome moved).level steady titled (of_decide_eq_true names)
  | exchangeNode olddir oldname newdir newname =>
    obtain ⟨⟨s₁,err⟩,moved,ran⟩ := callBind ran
    cases ran
    obtain ⟨_,same⟩ | outcome := exchangeNodeOutcome world knows may few₁
    · rw [moved] at same
      cases same
      exact Level.refl s
    · exact (Outcome.good outcome moved).level steady (of_decide_eq_true names)
  | isOpen dir name => exact (execLocks (i := .isOpen dir name) rfl ran).level
  | hiddenName dir oldname => exact (execLocks (i := .hiddenName dir oldname) rfl ran).level
  | nodeName node =>
    obtain ⟨n,_,ran⟩ := callBind ran
    split at ran
    · cases ran
    · cases ran
      exact Level.refl s
  | nodeId node =>
    obtain ⟨n,_,ran⟩ := callBind ran
    cases ran
    exact Level.refl s
  | getNode nodeid =>
    obtain ⟨p,_,ran⟩ := callBind ran
    cases ran
    exact Level.refl s
  | openNode nodeid =>
    obtain ⟨s₁,opened,ran⟩ := callBind ran
    cases ran
    exact openNodeTally steady opened
  | releaseNode nodeid =>
    obtain ⟨⟨s₁,last⟩,released,ran⟩ := callBind ran
    cases ran
    exact releaseNodeTally steady released
  | pinNode nodeid =>
    obtain ⟨⟨s₁,found⟩,pinned,ran⟩ := callBind ran
    cases ran
    exact pinNodeLevel steady pinned
  | unpinNode node =>
    obtain ⟨s₁,unpinned,ran⟩ := callBind ran
    cases ran
    have owed := steady.toStore
    rw [unpinCounts otherPins may] at owed
    exact unpinLevel steady owed unpinned
  | parentId nodeid =>
    obtain ⟨parent,_,ran⟩ := callBind ran
    cases ran
    exact Level.refl s
  | callback op path path2 => exact (execLocks (i := .callback op path path2) rfl ran).level
  | reply err => exact (execLocks (i := .reply err) rfl ran).level

end FuseStudy.NodeStore
