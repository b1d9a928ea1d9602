import FuseStudy.CacheCleaning

/-! Sequences of calls on a node table that remembers nodes, with path locks coming and
going and the cleaner run at any time. Beside the table stands what the kernel holds of each
node: the lookups it was given less those it gave back. -/
namespace FuseStudy.NodeStore
open CString LinearHash

structure Session where
  fuse : Fuse
  kernel : Ptr → Nat

inductive Call
  | find (parent : Ino) (name : Option Name)
  | forget (nodeid : Ino) (nlookup : Nat)
  | remove (dir : Ino) (name : Name)
  | rename (olddir : Ino) (oldname : Name) (newdir : Ino) (newname : Name) (hide : Bool)
  | exchange (olddir : Ino) (oldname : Name) (newdir : Ino) (newname : Name)
  | clean (aged : Ptr → Bool)
  | lock (p : Ptr) (treelock : Int)

def Session.granted (t : Session) : Option Ptr → Ptr → Nat
  | some p => Function.update t.kernel p (t.kernel p + 1)
  | none => t.kernel

def Session.returned (t : Session) (nodeid : Ino) (nlookup : Nat) : Ptr → Nat :=
  match t.fuse.getNodeNocheck nodeid with
  | some p => Function.update t.kernel p (t.kernel p - nlookup)
  | none => t.kernel

def Fuse.setLock (s : Fuse) (p : Ptr) (treelock : Int) : Fuse :=
  match s.heap p with
  | some n => s.put p {n with treelock := treelock}
  | none => s

/- A forget that has to wait for a lock does nothing yet. -/
def Session.call (t : Session) : Call → Except Fault Session
  | .find parent name => do
    let (s,found) ← t.fuse.findNode parent name
    .ok ⟨s,t.granted found⟩
  | .forget nodeid nlookup => do
    let waits ← t.fuse.forgetWaits nodeid nlookup
    if waits then .ok t
    else
      let s ← t.fuse.forgetNode nodeid nlookup
      .ok ⟨s,t.returned nodeid nlookup⟩
  | .remove dir name => do
    let s ← t.fuse.removeNode dir name
    .ok {t with fuse := s}
  | .rename olddir oldname newdir newname hide => do
    let (s,_) ← t.fuse.renameNode olddir oldname newdir newname hide
    .ok {t with fuse := s}
  | .exchange olddir oldname newdir newname => do
    let (s,_) ← t.fuse.exchangeNode olddir oldname newdir newname
    .ok {t with fuse := s}
  | .clean aged => do
    let s ← t.fuse.cleanCache aged
    .ok {t with fuse := s}
  | .lock p treelock => .ok {t with fuse := t.fuse.setLock p treelock}

def Session.calls : Session → List Call → Except Fault Session
  | t, [] => .ok t
  | t, call :: rest => do
    let t ← t.call call
    t.calls rest

def Session.holds (t : Session) (nodeid : Ino) : Nat :=
  match t.fuse.getNodeNocheck nodeid with
  | some p => t.kernel p
  | none => 0

def Session.knows (t : Session) (dir : Ino) : Bool := dir == rootId || decide (0 < t.holds dir)

/- What the kernel promises: it forgets no more than it was given, works in directories it
has looked up and never renames an entry to itself. -/
def Call.promised (t : Session) : Call → Bool
  | .forget nodeid nlookup => decide (nlookup ≤ t.holds nodeid)
  | .remove dir _ => t.knows dir
  | .rename olddir oldname newdir newname _ => t.knows olddir && t.knows newdir && (olddir,oldname) != (newdir,newname)
  | .exchange olddir oldname newdir newname => t.knows olddir && t.knows newdir && (olddir,oldname) != (newdir,newname)
  | _ => true

/- A forget takes something from a node that has lookups, and if it leaves exactly one there,
that one is not the kernel's. -/
def Call.leavesOwn (t : Session) : Call → Bool
  | .forget nodeid nlookup => nodeid == rootId ||
    (t.fuse.nlookupOf nodeid).any (fun n => 0 < n && (n - nlookup != 1 || t.holds nodeid == nlookup))
  | _ => true

def Session.legal (allowed : Session → Call → Bool) : Session → List Call → Bool
  | _, [] => true
  | t, call :: rest => allowed t call && match t.call call with
    | .ok t' => t'.legal allowed rest
    | .error _ => true

def Session.new (conf : Conf) (memory : Nat → Bool) : Session := ⟨fuseNew conf memory,fun _ => 0⟩

variable {t t' : Session} {s' : Fuse} {p q : Ptr} {n : Node}

/- A node with a name has a lookup beyond the kernel's; a node on the list has none of the
kernel's. -/
structure Tracked (t : Session) : Prop where
  steady : Steady (fun _ => 0) t.fuse
  enabled : t.fuse.lruEnabled
  listed : Listed t.fuse
  own : ∀ p ∈ t.fuse.lruTable, t.kernel p = 0
  counted : ∀ p n, t.fuse.heap p = some n → t.kernel p ≤ n.nlookup
  remembered : ∀ p n, Has t.fuse.nameTable p → t.fuse.heap p = some n → t.kernel p < n.nlookup
  gone : ∀ p, t.fuse.heap p = none → t.kernel p = 0

theorem Tracked.remember (tracked : Tracked t) : t.fuse.conf.remember ≠ 0 := by
  have on := of_decide_eq_true tracked.enabled
  omega

theorem Tracked.pinned {dir : Ino} (tracked : Tracked t) (knows : t.knows dir) : DirPinned t.fuse dir := by
  intro q found d alive
  refine .inl ?_
  rw [Session.knows,Bool.or_eq_true] at knows
  rcases knows with root | held
  · obtain ⟨r,atRoot,id,positive,_⟩ := tracked.steady.shape.root
    obtain ⟨hashed,d',alive',id'⟩ := (tracked.steady.toStore.getNodeIff dir).mp found
    rw [alive] at alive'
    cases alive'
    have same := tracked.steady.shape.distinct q 0 d r hashed (tracked.steady.alive 0 r atRoot).1 alive atRoot
      (by rw [id',id]; exact beq_iff_eq.mp root)
    subst same
    rw [alive] at atRoot
    cases atRoot
    exact positive
  · have more := of_decide_eq_true held
    rw [Session.holds,found] at more
    exact Nat.lt_of_lt_of_le more (tracked.counted q d alive)

/- The structural updates: names go and come, a node that loses its name for good loses the
library's own lookup with it. -/
theorem Tracked.relabels {Cut Hide : Ptr → Prop} {Made : Ino × Name → Prop} (target : Option Ptr)
    (tracked : Tracked t) (steady : Steady (fun _ => 0) s')
    (relabels : Relabels Cut Hide Made (unlinkCounts t.fuse target) t.fuse s')
    (named : ∀ p, target = some p → Has t.fuse.nameTable p ∧ ¬ Has s'.nameTable p)
    (cut : ∀ p, Cut p → Has t.fuse.nameTable p) : Tracked {t with fuse := s'} := by
  have lookups : ∀ p n', s'.heap p = some n' → ∃ n, t.fuse.heap p = some n ∧
      n'.nlookup = (if target = some p then n.nlookup - 1 else n.nlookup) ∧ (0 < n.nlookup → 0 < n'.nlookup) := by
    intro p n' now
    cases was : t.fuse.heap p with
    | none =>
      rw [relabels.absent p was] at now
      cases now
    | some n =>
      obtain ⟨m,live,agrees,positive⟩ := relabels.kept p n was
      rw [now] at live
      cases live
      refine ⟨n,rfl,?_,positive⟩
      rw [agrees.nlookup]
      cases target with
      | none => rfl
      | some q =>
        have remember := tracked.remember
        simp only [unlinkCounts,unlinkCount,remember,ne_eq,not_false_eq_true,true_and,Option.some.injEq,
          eq_comm (a := q)]
  have spared : ∀ p ∈ t.fuse.lruTable, ∀ n', s'.heap p = some n' → n'.nlookup = 1 := by
    intro p mem n' now
    obtain ⟨n,was,is,positive⟩ := lookups p n' now
    obtain ⟨_,m,live,once⟩ := tracked.listed.once p mem
    rw [was] at live
    cases live
    have more := positive (by omega)
    split at is <;> omega
  refine ⟨steady,?_,⟨relabels.lruTable ▸ tracked.listed.nodup,?_⟩,?_,?_,?_,?_⟩
  · rw [Fuse.lruEnabled,relabels.conf]
    exact tracked.enabled
  · intro p mem
    simp only [relabels.lruTable] at mem
    obtain ⟨plain,n,was,_⟩ := tracked.listed.once p mem
    obtain ⟨n',now,_⟩ := relabels.kept p n was
    exact ⟨plain,n',now,spared p mem n' now⟩
  · intro p mem
    simp only [relabels.lruTable] at mem
    exact tracked.own p mem
  · intro p n' now
    obtain ⟨n,was,is,_⟩ := lookups p n' now
    have most := tracked.counted p n was
    split at is
    · rename_i dropped
      have own := tracked.remembered p n (named p dropped).1 was
      simp only
      omega
    · simp only
      omega
  · intro p n' has now
    obtain ⟨n,was,is,_⟩ := lookups p n' now
    have before : Has t.fuse.nameTable p := by
      by_cases cutP : Cut p
      · exact cut p cutP
      · exact (relabels.names p cutP).mp has
    rw [if_neg (fun dropped => (named p dropped).2 has)] at is
    rw [is]
    exact tracked.remembered p n before was
  · intro p none
    apply tracked.gone p
    cases was : t.fuse.heap p with
    | none => rfl
    | some n =>
      obtain ⟨n',now,_⟩ := relabels.kept p n was
      simp only [now] at none
      cases none

theorem Tracked.swept {aged : Ptr → Bool} (tracked : Tracked t) (steady : Steady (fun _ => 0) s') (listed : Listed s')
    (swept : Swept aged t.fuse s') : Tracked {t with fuse := s'} ∧
      ∀ p n, t.fuse.heap p = some n → s'.heap p = none → t.kernel p = 0 ∧ n.treelock = 0 := by
  have lost : ∀ p n, t.fuse.heap p = some n → s'.heap p = none → t.kernel p = 0 ∧ n.treelock = 0 := by
    intro p n was none
    obtain ⟨unlocked,unused | ⟨mem,_⟩⟩ := swept.gone p n was none
    · have most := tracked.counted p n was
      exact ⟨by omega,unlocked⟩
    · exact ⟨tracked.own p mem,unlocked⟩
  refine ⟨⟨steady,?_,listed,fun p mem => tracked.own p (swept.lru.subset mem),?_,?_,?_⟩,lost⟩
  · rw [Fuse.lruEnabled,swept.conf]
    exact tracked.enabled
  · intro p n' now
    obtain ⟨n,was,same⟩ := swept.kept p n' now
    rw [same]
    exact tracked.counted p n was
  · intro p n' named now
    obtain ⟨n,was,same⟩ := swept.kept p n' now
    rw [same]
    exact tracked.remembered p n ((swept.names p).mp named).1 was
  · intro p none
    cases was : t.fuse.heap p with
    | none => exact tracked.gone p was
    | some n => exact (lost p n was none).1

theorem Session.returnedLe (t : Session) (nodeid : Ino) (nlookup : Nat) (p : Ptr) :
    t.returned nodeid nlookup p ≤ t.kernel p := by
  cases found : t.fuse.getNodeNocheck nodeid with
  | none => simp only [Session.returned,found,Nat.le_refl]
  | some q =>
    simp only [Session.returned,found,Function.update_apply]
    split
    · rename_i here
      rw [here]
      exact Nat.sub_le _ _
    · exact Nat.le_refl _

theorem Tracked.found {parent : Ino} {name : Option Name} {r : Fuse × Option Ptr} (tracked : Tracked t)
    (found : Found (fun _ => 0) t.fuse parent name r) : Tracked ⟨r.1,t.granted r.2⟩ := by
  cases found with
  | @existing p n lru live _ lruIs steady =>
    have sublist : lru.Sublist t.fuse.lruTable := by
      rw [lruIs]
      split
      · exact List.erase_sublist
      · exact List.Sublist.refl _
    have out : p ∉ lru := by
      intro mem
      obtain ⟨_,m,live',once⟩ := tracked.listed.once p (sublist.subset mem)
      rw [live] at live'
      cases live'
      rw [lruIs,if_pos ⟨tracked.enabled,once⟩] at mem
      exact (tracked.listed.nodup.mem_erase_iff.mp mem).1 rfl
    have other : ∀ r ∈ lru, r ≠ p := fun r mem same => out (same ▸ mem)
    refine ⟨steady,tracked.enabled,⟨tracked.listed.nodup.sublist sublist,?_⟩,?_,?_,?_,?_⟩
    · intro r mem
      obtain ⟨plain,m,was,once⟩ := tracked.listed.once r (sublist.subset mem)
      exact ⟨plain,m,(putOther (other r mem) ..).trans was,once⟩
    · intro r mem
      simp only [Session.granted,Function.update_of_ne (other r mem)]
      exact tracked.own r (sublist.subset mem)
    · intro r m now
      rcases atUpdate now with ⟨rfl,rfl⟩ | ⟨differs,was⟩
      · simp only [Session.granted,Function.update_self]
        exact Nat.succ_le_succ (tracked.counted r n live)
      · simp only [Session.granted,Function.update_of_ne differs]
        exact tracked.counted r m was
    · intro r m named now
      rcases atUpdate now with ⟨rfl,rfl⟩ | ⟨differs,was⟩
      · simp only [Session.granted,Function.update_self]
        exact Nat.succ_lt_succ (tracked.remembered r n named live)
      · simp only [Session.granted,Function.update_of_ne differs]
        exact tracked.remembered r m named was
    · intro r none
      by_cases here : r = p
      · simp only [here] at none
        rw [putSelf] at none
        cases none
      · simp only [Session.granted,Function.update_of_ne here]
        exact tracked.gone r ((putOther here ..).symm.trans none)
  | @created nm s' n _ _ steady effect live brk _ lookups lru rest ids stale =>
    rw [if_pos tracked.remember] at lookups
    have fresh : t.fuse.heap t.fuse.brk = none := tracked.steady.shape.fresh _ (Nat.le_refl _)
    have before : ∀ r m, s'.heap r = some m → r ≠ t.fuse.brk → ∃ m₀, t.fuse.heap r = some m₀ ∧
        m.nlookup = m₀.nlookup := by
      intro r m now other
      cases was : t.fuse.heap r with
      | none =>
        have above := (effect.new r m was now).1
        have low : r < s'.brk := steady.shape.lt now
        rw [brk] at low
        exact absurd (Nat.le_antisymm (Nat.le_of_lt_succ low) above) other
      | some m₀ => exact ⟨m₀,rfl,(effect.kept r m₀ m was now).nlookup⟩
    refine ⟨steady,?_,⟨lru ▸ tracked.listed.nodup,?_⟩,?_,?_,?_,?_⟩
    · rw [Fuse.lruEnabled,effect.conf]
      exact tracked.enabled
    · intro r mem
      simp only [lru] at mem
      obtain ⟨plain,m,was,once⟩ := tracked.listed.once r mem
      obtain ⟨m',now⟩ := rest r m was
      exact ⟨plain,m',now,(effect.kept r m m' was now).nlookup.trans once⟩
    · intro r mem
      simp only [lru] at mem
      obtain ⟨_,m,was,_⟩ := tracked.listed.once r mem
      have other : r ≠ t.fuse.brk := by
        rintro rfl
        rw [fresh] at was
        cases was
      simp only [Session.granted,Function.update_of_ne other]
      exact tracked.own r mem
    · intro r m now
      by_cases here : r = t.fuse.brk
      · subst here
        rw [live] at now
        cases now
        simp only [Session.granted,Function.update_self,tracked.gone _ fresh]
        omega
      · obtain ⟨m₀,was,same⟩ := before r m now here
        simp only [Session.granted,Function.update_of_ne here,same]
        exact tracked.counted r m₀ was
    · intro r m named now
      by_cases here : r = t.fuse.brk
      · subst here
        rw [live] at now
        cases now
        simp only [Session.granted,Function.update_self,tracked.gone _ fresh]
        omega
      · obtain ⟨m₀,was,same⟩ := before r m now here
        simp only [Session.granted,Function.update_of_ne here,same]
        refine tracked.remembered r m₀ ?_ was
        exact ((effect.names r (by rw [was]; exact Option.some_ne_none _) (fun no => no)).mp named).1
    · intro r none
      have here : r ≠ t.fuse.brk := by
        rintro rfl
        simp only [live] at none
        cases none
      simp only [Session.granted,Function.update_of_ne here]
      apply tracked.gone r
      cases was : t.fuse.heap r with
      | none => rfl
      | some m =>
        obtain ⟨m',now⟩ := rest r m was
        simp only [now] at none
        cases none
  | failed _ _ steady _ =>
    exact ⟨steady,tracked.enabled,⟨tracked.listed.nodup,tracked.listed.once⟩,tracked.own,tracked.counted,
      tracked.remembered,tracked.gone⟩

theorem Tracked.forgot {nodeid : Ino} {nlookup : Nat} (tracked : Tracked t) (plain : nodeid ≠ rootId)
    (found : t.fuse.getNodeNocheck nodeid = some p) (live : t.fuse.heap p = some n) (enough : nlookup ≤ t.kernel p)
    (own : n.nlookup - nlookup = 1 → t.kernel p = nlookup) (steady : Steady (fun _ => 0) s')
    (effect : Effect Never Never Never (fun r k => if r = p then n.nlookup - nlookup else k) t.fuse s')
    (relisted : Relisted p (n.nlookup - nlookup) t.fuse s') : Tracked ⟨s',t.returned nodeid nlookup⟩ := by
  have kernel : ∀ r, t.returned nodeid nlookup r = if r = p then t.kernel p - nlookup else t.kernel r := by
    intro r
    simp only [Session.returned,found,Function.update_apply]
  have most := tracked.counted p n live
  have before : ∀ r m, s'.heap r = some m → ∃ m₀, t.fuse.heap r = some m₀ ∧
      m.nlookup = if r = p then n.nlookup - nlookup else m₀.nlookup := by
    intro r m now
    cases was : t.fuse.heap r with
    | none =>
      have low := steady.shape.lt now
      rw [relisted.brk] at low
      exact absurd (effect.new r m was now).1 (Nat.not_le.mpr low)
    | some m₀ => exact ⟨m₀,rfl,(effect.kept r m₀ m was now).nlookup⟩
  have notRoot : p ≠ 0 := by
    rintro rfl
    obtain ⟨_,k,alive,id⟩ := (tracked.steady.toStore.getNodeIff nodeid).mp found
    obtain ⟨r,atRoot,rootIs,_⟩ := tracked.steady.shape.root
    rw [alive] at atRoot
    cases atRoot
    exact plain (id.symm.trans rootIs)
  have wasLive : ∀ r ∈ s'.lruTable, t.fuse.heap r ≠ none := by
    intro r mem
    rcases relisted.mem r mem with old | ⟨rfl,_⟩
    · obtain ⟨_,m,was,_⟩ := tracked.listed.once r old
      rw [was]
      nofun
    · rw [live]
      nofun
  refine ⟨steady,?_,⟨relisted.nodup tracked.listed.nodup,?_⟩,?_,?_,?_,?_⟩
  · rw [Fuse.lruEnabled,effect.conf]
    exact tracked.enabled
  · intro r mem
    obtain ⟨m,now⟩ := Option.ne_none_iff_exists'.mp
      (relisted.live tracked.enabled tracked.listed.nodup r mem (wasLive r mem))
    obtain ⟨m₀,was,is⟩ := before r m now
    rcases relisted.mem r mem with old | ⟨rfl,one⟩
    · obtain ⟨plainR,m₁,was',once⟩ := tracked.listed.once r old
      rw [was] at was'
      cases was'
      refine ⟨plainR,m,now,?_⟩
      by_cases here : r = p
      · -- a listed node has nothing of the kernel's to give back
        subst here
        rw [live] at was
        cases was
        have nothing := tracked.own r old
        rw [is,if_pos rfl]
        omega
      · rw [is,if_neg here,once]
    · exact ⟨notRoot,m,now,by rw [is,if_pos rfl,one]⟩
  · intro r mem
    simp only [kernel]
    rcases relisted.mem r mem with old | ⟨rfl,one⟩
    · have nothing := tracked.own r old
      split
      · rename_i here
        rw [← here]
        omega
      · exact nothing
    · rw [if_pos rfl,own one,Nat.sub_self]
  · intro r m now
    obtain ⟨m₀,was,is⟩ := before r m now
    simp only [kernel,is]
    split
    · omega
    · exact tracked.counted r m₀ was
  · intro r m named now
    obtain ⟨m₀,was,is⟩ := before r m now
    have old := ((effect.names r (by rw [was]; nofun) (fun no => no)).mp named).1
    have more := tracked.remembered r m₀ old was
    simp only [kernel,is]
    split
    · rename_i here
      subst here
      rw [live] at was
      cases was
      omega
    · exact more
  · intro r none
    simp only [kernel]
    cases was : t.fuse.heap r with
    | none =>
      have nothing := tracked.gone r was
      split
      · rename_i here
        rw [← here]
        omega
      · exact nothing
    | some m =>
      have unused := (effect.gone r m was none).2
      have bound := tracked.counted r m was
      split
      · rename_i here
        rw [if_pos here] at unused
        omega
      · rename_i here
        rw [if_neg here] at unused
        omega

theorem Tracked.locked (tracked : Tracked t) (p : Ptr) (treelock : Int) :
    Tracked {t with fuse := t.fuse.setLock p treelock} := by
  unfold Fuse.setLock
  cases live : t.fuse.heap p with
  | none => exact tracked
  | some n =>
    simp only
    have store := tracked.steady.toStore.touch (m := {n with treelock := treelock}) live ⟨rfl,rfl,rfl⟩ rfl
      (fun _ _ => rfl)
      (fun h => .inl h) (by
        rintro rfl
        obtain ⟨r,atRoot,_,positive,_⟩ := tracked.steady.shape.root
        rw [live] at atRoot
        cases atRoot
        exact positive)
    have before : ∀ r m, (t.fuse.put p {n with treelock := treelock}).heap r = some m →
        ∃ m₀, t.fuse.heap r = some m₀ ∧ m.nlookup = m₀.nlookup ∧ m.refctr = m₀.refctr := by
      intro r m now
      rcases atUpdate now with ⟨rfl,rfl⟩ | ⟨_,was⟩
      · exact ⟨n,live,rfl,rfl⟩
      · exact ⟨m,was,rfl,rfl⟩
    refine ⟨⟨store,?_⟩,tracked.enabled,⟨tracked.listed.nodup,?_⟩,tracked.own,?_,?_,?_⟩
    · intro r m now
      obtain ⟨m₀,was,_,same⟩ := before r m now
      rw [same]
      exact tracked.steady.alive r m₀ was
    · intro r mem
      obtain ⟨plain,m,was,once⟩ := tracked.listed.once r mem
      refine ⟨plain,?_⟩
      by_cases here : r = p
      · subst here
        rw [live] at was
        cases was
        exact ⟨_,putSelf ..,once⟩
      · exact ⟨m,(putOther here ..).trans was,once⟩
    · intro r m now
      obtain ⟨m₀,was,same,_⟩ := before r m now
      rw [same]
      exact tracked.counted r m₀ was
    · intro r m named now
      obtain ⟨m₀,was,same,_⟩ := before r m now
      rw [same]
      exact tracked.remembered r m₀ named was
    · intro r none
      apply tracked.gone r
      by_cases here : r = p
      · rw [here] at none
        simp only [putSelf] at none
        cases none
      · rwa [← putOther here t.fuse {n with treelock := treelock}]

theorem Tracked.call {call : Call} (tracked : Tracked t) (promised : call.promised t) (own : call.leavesOwn t)
    (ok : t.call call = .ok t') : Tracked t' := by
  cases call with
  | find parent name =>
    obtain ⟨r,found,⟨⟩⟩ := callBind ok
    exact tracked.found ((findNodeSpec tracked.steady rfl parent name).good found)
  | forget nodeid nlookup =>
    obtain ⟨waits,waiting,ok⟩ := callBind ok
    split at ok
    · cases ok
      exact tracked
    obtain ⟨s',forgot,⟨⟩⟩ := callBind ok
    by_cases root : nodeid = rootId
    · rw [Fuse.forgetNode,if_pos root] at forgot
      cases forgot
      refine ⟨tracked.steady,tracked.enabled,tracked.listed,?_,?_,?_,?_⟩
      · exact fun p mem => Nat.le_zero.mp (tracked.own p mem ▸ t.returnedLe nodeid nlookup p)
      · exact fun p n live => (t.returnedLe nodeid nlookup p).trans (tracked.counted p n live)
      · exact fun p n named live => (t.returnedLe nodeid nlookup p).trans_lt (tracked.remembered p n named live)
      · exact fun p none => Nat.le_zero.mp (tracked.gone p none ▸ t.returnedLe nodeid nlookup p)
    · simp only [Call.leavesOwn,root,beq_iff_eq,Bool.or_eq_true,false_or,Option.any_eq_true,Fuse.nlookupOf,bind,
        Option.bind_eq_some_iff,Option.some.injEq,Bool.and_eq_true,decide_eq_true_eq,bne_iff_ne] at own
      obtain ⟨_,⟨p,found,n,live,rfl⟩,positive,alone⟩ := own
      simp only [Call.promised,Session.holds,found,decide_eq_true_eq] at promised alone
      obtain ⟨steady,effect,relisted⟩ := (forgetNodeSpec tracked.steady root found live positive
        (promised.trans (tracked.counted p n live))).good forgot
      exact tracked.forgot root found live promised (fun one => alone.resolve_left (fun other => other one)) steady
        effect relisted
  | remove dir name =>
    obtain ⟨s',removed,⟨⟩⟩ := callBind ok
    obtain ⟨steady,relabels,unnamed⟩ := (removeNodeSpec tracked.steady (tracked.pinned promised)).good removed
    have named := fun p found => ((tracked.steady.toStore.lookupIff (p := p) dir name).mp found).1
    exact tracked.relabels _ steady relabels (fun p found => ⟨named p found,unnamed p found⟩) named
  | rename olddir oldname newdir newname hide =>
    simp only [Call.promised,Bool.and_eq_true,bne_iff_ne] at promised
    obtain ⟨⟨old,new⟩,names⟩ := promised
    obtain ⟨r,renamed,⟨⟩⟩ := callBind ok
    have differ : ∀ p, t.fuse.lookupNode olddir oldname = some p → t.fuse.lookupNode newdir newname ≠ some p :=
      fun p source target => names (tracked.steady.toStore.lookupSame source target)
    have moved := (renameNodeSpec tracked.steady differ (tracked.pinned old) (tracked.pinned new)).good renamed
    have named : ∀ {p dir name}, t.fuse.lookupNode dir name = some p → Has t.fuse.nameTable p :=
      fun found => ((tracked.steady.toStore.lookupIff _ _).mp found).1
    have cut : ∀ p r, t.fuse.lookupNode olddir oldname = some p →
        t.fuse.lookupNode newdir newname = some r ∨ r = p → Has t.fuse.nameTable r := by
      rintro p r source (target | rfl)
      · exact named target
      · exact named source
    cases moved with
    | missing _ => exact tracked
    | busy _ _ _ => exact tracked
    | moved source steady relabels _ dropped =>
      exact tracked.relabels _ steady relabels (fun q target => ⟨named target,dropped q target⟩)
        (fun r => cut _ r source)
    | failed source steady relabels _ dropped _ =>
      exact tracked.relabels _ steady relabels (fun q target => ⟨named target,dropped q target⟩)
        (fun r => cut _ r source)
  | exchange olddir oldname newdir newname =>
    simp only [Call.promised,Bool.and_eq_true,bne_iff_ne] at promised
    obtain ⟨⟨old,new⟩,names⟩ := promised
    obtain ⟨r,exchanged,⟨⟩⟩ := callBind ok
    have done := (exchangeNodeSpec tracked.steady names (tracked.pinned old) (tracked.pinned new)).good exchanged
    refine tracked.relabels none done.steady done.relabels (fun _ no => by cases no) ?_
    rintro p (source | target)
    · exact ((tracked.steady.toStore.lookupIff _ _).mp source).1
    · exact ((tracked.steady.toStore.lookupIff _ _).mp target).1
  | clean aged =>
    obtain ⟨s',cleaned,⟨⟩⟩ := callBind ok
    obtain ⟨steady,listed,swept⟩ := (cleanCacheSpec tracked.steady tracked.listed tracked.enabled).good cleaned
    exact (tracked.swept steady listed swept).1
  | lock p treelock =>
    cases ok
    exact tracked.locked p treelock

theorem Tracked.calls (calls : List Call) (tracked : Tracked t)
    (legal : t.legal (fun t call => call.promised t && call.leavesOwn t) calls) (ok : t.calls calls = .ok t') :
    Tracked t' := by
  induction calls generalizing t with
  | nil =>
    cases ok
    exact tracked
  | cons call rest ih =>
    simp only [Session.legal,Bool.and_eq_true] at legal
    obtain ⟨⟨promised,own⟩,later⟩ := legal
    obtain ⟨t₁,first,ok⟩ := callBind ok
    rw [first] at later
    exact ih (tracked.call promised own first) later ok

theorem Tracked.new (conf : Conf) (memory : Nat → Bool) (remember : 0 < conf.remember) :
    Tracked (Session.new conf memory) := by
  refine ⟨fuseNewSteady conf memory,decide_eq_true remember,⟨List.nodup_nil,nofun⟩,nofun,fun _ _ _ => Nat.zero_le _,?_,
    fun _ _ => rfl⟩
  intro p n named live
  exact absurd named (initEmpty p)

/- Whatever the cleaner finds aged, it drops no node of the kernel's and no locked one, and it
finishes when every locked node is kept by a lookup at or below it. -/
def Session.cleansSafely (t : Session) (aged : Ptr → Bool) : Prop :=
  t.fuse.cleanCache aged ≠ .error .cleanCount ∧
  (∀ s', t.fuse.cleanCache aged = .ok s' →
    ∀ p n, t.fuse.heap p = some n → s'.heap p = none → t.kernel p = 0 ∧ n.treelock = 0)

theorem Tracked.cleans (tracked : Tracked t) (aged : Ptr → Bool) : t.cleansSafely aged ∧
    ((∀ p n, t.fuse.heap p = some n → n.treelock ≠ 0 → Kept t.fuse aged p) →
      ∃ s', t.fuse.cleanCache aged = .ok s') := by
  have outcome : Outcome (Stuck t.fuse aged) _ (t.fuse.cleanCache aged) :=
    cleanCacheSpec tracked.steady tracked.listed tracked.enabled
  cases result : t.fuse.cleanCache aged with
  | ok s' =>
    rw [result] at outcome
    obtain ⟨steady,listed,swept⟩ := outcome
    refine ⟨⟨by rw [result]; nofun,?_⟩,fun _ => ⟨s',rfl⟩⟩
    rw [result]
    rintro _ ⟨⟩
    exact (tracked.swept steady listed swept).2
  | error fault =>
    rw [result] at outcome
    obtain ⟨rfl,p,n,live,locked,unkept⟩ := outcome
    refine ⟨⟨by rw [result]; nofun,by rw [result]; nofun⟩,?_⟩
    intro kept
    exact absurd (kept p n live locked) unkept

theorem cleaningIsSafe (conf : Conf) (memory : Nat → Bool) (calls : List Call) (remember : 0 < conf.remember)
    (legal : (Session.new conf memory).legal (fun t call => call.promised t && call.leavesOwn t) calls) (t : Session)
    (reached : (Session.new conf memory).calls calls = .ok t) :
    (∀ p ∈ t.fuse.lruTable, ∃ n, t.fuse.heap p = some n ∧ n.nlookup = 1) ∧
    ∀ aged, t.cleansSafely aged ∧
      ((∀ p n, t.fuse.heap p = some n → n.treelock ≠ 0 → Kept t.fuse aged p) →
        ∃ s', t.fuse.cleanCache aged = .ok s') := by
  have tracked := (Tracked.new conf memory remember).calls calls legal reached
  exact ⟨fun p mem => (tracked.listed.once p mem).2,tracked.cleans⟩

/- A directory and a file in it are looked up, the file is renamed, both are given back. -/
def rememberedTree : List Call :=
  [.find 1 (some (ascii "d")),.find 2 (some (ascii "a")),.lock 1 1,.rename 2 (ascii "a") 1 (ascii "b") false,.lock 1 0,
    .forget 3 1,.forget 2 1]

theorem rememberedTreeCleaned : ∃ t, (Session.new ⟨10,false,false⟩ fun _ => true).calls rememberedTree = .ok t ∧
    (∀ p ∈ t.fuse.lruTable, ∃ n, t.fuse.heap p = some n ∧ n.nlookup = 1) ∧
    ∀ aged, t.cleansSafely aged ∧
      ((∀ p n, t.fuse.heap p = some n → n.treelock ≠ 0 → Kept t.fuse aged p) →
        ∃ s', t.fuse.cleanCache aged = .ok s') := by
  have returns : ((Session.new ⟨10,false,false⟩ fun _ => true).calls rememberedTree).toOption.isSome := by
    decide +kernel
  cases result : (Session.new ⟨10,false,false⟩ fun _ => true).calls rememberedTree with
  | error fault =>
    rw [result] at returns
    cases returns
  | ok t =>
    exact ⟨t,rfl,cleaningIsSafe ⟨10,false,false⟩ (fun _ => true) rememberedTree (by decide)
      (by decide +kernel) t result⟩

/- A remembered node is unlinked while the kernel has two lookups of it and gives back one. -/
def unlinkedForgotten : List Call :=
  [.find 1 (some (ascii "a")),.find 1 (some (ascii "a")),.remove 1 (ascii "a"),.forget 2 1]

theorem unlinkedNodeCleaned : ∃ t,
    (Session.new ⟨10,false,false⟩ fun _ => true).legal (fun t call => call.promised t) unlinkedForgotten ∧
    (Session.new ⟨10,false,false⟩ fun _ => true).calls unlinkedForgotten = .ok t ∧
    ∃ s' n, t.fuse.cleanCache (fun _ => true) = .ok s' ∧ t.fuse.heap 1 = some n ∧ s'.heap 1 = none ∧
      t.kernel 1 = 1 := by
  have held : ((Session.new ⟨10,false,false⟩ fun _ => true).calls unlinkedForgotten).toOption.any (fun t =>
      (t.fuse.cleanCache fun _ => true).toOption.any fun s' =>
        (t.fuse.heap 1).isSome && (s'.heap 1).isNone && t.kernel 1 == 1) = true := by
    decide +kernel
  obtain ⟨t,result,cleans⟩ := ranSo held
  obtain ⟨s',cleaned,facts⟩ := ranSo cleans
  simp only [Bool.and_eq_true,beq_iff_eq,Option.isNone_iff_eq_none] at facts
  obtain ⟨⟨was,gone⟩,one⟩ := facts
  obtain ⟨n,live⟩ := Option.isSome_iff_exists.mp was
  exact ⟨t,by decide +kernel,result,s',n,cleaned,live,gone,one⟩

end FuseStudy.NodeStore
