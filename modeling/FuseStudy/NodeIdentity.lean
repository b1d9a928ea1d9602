import FuseStudy.CacheRuns
import Mathlib.Order.Interval.Finset.Nat

/-! The id and the generation of a node over any sequence of calls, also one no kernel would
send: an abort or a failed assertion ends it, and until then no node shares its id with
another live node, nor both with any node made before. -/
namespace FuseStudy.NodeStore
open CString LinearHash

/- Every node stands in the id table with an id of its own. The node find_node is about to
add does not yet. -/
structure Identified (fresh : Option Ptr) (s : Fuse) : Prop where
  ids : Valid minTable s.idHash s.idTable
  hashed : ∀ p, Has s.idTable p ↔ fresh ≠ some p ∧ ∃ n, s.heap p = some n
  distinct : ∀ p q n m, fresh ≠ some p → fresh ≠ some q → s.heap p = some n → s.heap q = some m →
    n.nodeid = m.nodeid → p = q
  bound : ∀ p, s.brk ≤ p → s.heap p = none

structure Retains (fresh : Option Ptr) (s s' : Fuse) : Prop where
  counters : s'.brk = s.brk ∧ s'.ctr = s.ctr ∧ s'.generation = s.generation
  nodes : ∀ p n', s'.heap p = some n' → ∃ n, s.heap p = some n ∧ n'.nodeid = n.nodeid ∧ n'.generation = n.generation
  identified : Identified fresh s → Identified fresh s'

def Leads {α : Type} (Good : α → Prop) (run : Except Fault α) : Prop := Outcome (fun _ => True) Good run

variable {fresh : Option Ptr} {s s' : Fuse} {p q : Ptr} {n m : Node}

theorem Leads.bind {α β : Type} {Good : α → Prop} {Goal : β → Prop} {run : Except Fault α}
    {next : α → Except Fault β} (first : Leads Good run) (second : ∀ a, Good a → Leads Goal (next a)) :
    Leads Goal (run >>= next) :=
  Outcome.bind first second

theorem Leads.imp {α : Type} {Good Good' : α → Prop} {run : Except Fault α} (leads : Leads Good run)
    (better : ∀ a, Good a → Good' a) : Leads Good' run :=
  Outcome.imp leads (fun _ h => h) better

theorem Leads.fault {α : Type} (Good : α → Prop) (fault : Fault) : Leads Good (.error fault) := trivial

theorem Leads.done {α : Type} {Good : α → Prop} {run : Except Fault α} {a : α} (leads : Leads Good run)
    (ok : run = .ok a) : Good a := by
  rw [ok] at leads
  exact leads

theorem derefLeads (s : Fuse) (p : Ptr) : Leads (fun n => s.heap p = some n) (s.deref p) := by
  unfold Fuse.deref
  cases live : s.heap p with
  | none => exact .fault _ _
  | some n => exact rfl

theorem getNodeLeads (s : Fuse) (i : Ino) : Leads (fun p => s.getNodeNocheck i = some p) (s.getNode i) := by
  unfold Fuse.getNode
  cases found : s.getNodeNocheck i with
  | none => exact .fault _ _
  | some p => exact rfl

theorem Identified.getNodeIff (known : Identified fresh s) (i : Ino) :
    s.getNodeNocheck i = some p ↔ fresh ≠ some p ∧ ∃ n, s.heap p = some n ∧ n.nodeid = i := by
  unfold Fuse.getNodeNocheck
  have matched : ∀ a, decide ((s.heap a).map Node.nodeid = some i) = true ↔ ∃ n, s.heap a = some n ∧ n.nodeid = i := by
    intro a
    rw [decide_eq_true_iff,Option.map_eq_some_iff]
  rw [findIff known.ids ?_ ?_,matched,known.hashed]
  · constructor
    · exact fun ⟨⟨old,_⟩,found⟩ => ⟨old,found⟩
    · rintro ⟨old,n,live,id⟩
      exact ⟨⟨old,n,live⟩,n,live,id⟩
  · intro a _ found
    obtain ⟨n,live,id⟩ := (matched a).mp found
    rw [idHashLive live,id]
  · intro a b hashedA hashedB foundA foundB
    obtain ⟨n,liveA,idA⟩ := (matched a).mp foundA
    obtain ⟨m,liveB,idB⟩ := (matched b).mp foundB
    exact known.distinct a b n m ((known.hashed a).mp hashedA).1 ((known.hashed b).mp hashedB).1 liveA liveB
      (idA.trans idB.symm)

theorem Retains.refl (s : Fuse) : Retains fresh s s := ⟨⟨rfl,rfl,rfl⟩,fun _ n live => ⟨n,live,rfl,rfl⟩,fun h => h⟩

theorem Retains.trans {t : Fuse} (first : Retains fresh s t) (second : Retains fresh t s') : Retains fresh s s' := by
  obtain ⟨brk,ctr,generation⟩ := first.counters
  obtain ⟨brk',ctr',generation'⟩ := second.counters
  refine ⟨⟨brk'.trans brk,ctr'.trans ctr,generation'.trans generation⟩,?_,fun h =>
    second.identified (first.identified h)⟩
  intro p n' now
  obtain ⟨k,between,id',stamp'⟩ := second.nodes p n' now
  obtain ⟨n,was,id,stamp⟩ := first.nodes p k between
  exact ⟨n,was,id'.trans id,stamp'.trans stamp⟩

theorem Retains.put (live : s.heap p = some n) (id : m.nodeid = n.nodeid) (stamp : m.generation = n.generation) :
    Retains fresh s (s.put p m) := by
  have back : ∀ q k', (s.put p m).heap q = some k' → ∃ k, s.heap q = some k ∧ k'.nodeid = k.nodeid ∧
      k'.generation = k.generation := by
    intro q k' now
    rcases atUpdate now with ⟨rfl,rfl⟩ | ⟨_,old⟩
    · exact ⟨n,live,id,stamp⟩
    · exact ⟨k',old,rfl,rfl⟩
  have forth : ∀ q k, s.heap q = some k → ∃ k', (s.put p m).heap q = some k' := by
    intro q k was
    by_cases here : q = p
    · exact ⟨m,by rw [here,putSelf]⟩
    · exact ⟨k,(putOther here ..).trans was⟩
  refine ⟨⟨rfl,rfl,rfl⟩,back,fun known => ⟨?_,?_,?_,?_⟩⟩
  · apply known.ids.congr
    intro q hashed
    obtain ⟨_,k,was⟩ := (known.hashed q).mp hashed
    obtain ⟨k',now⟩ := forth q k was
    obtain ⟨j,was',same,_⟩ := back q k' now
    rw [idHashLive now,same,idHashLive was']
  · intro q
    rw [show (s.put p m).idTable = s.idTable from rfl,known.hashed]
    apply and_congr_right
    intro _
    constructor
    · exact fun ⟨k,was⟩ => forth q k was
    · exact fun ⟨k',now⟩ => (back q k' now).imp fun _ h => h.1
  · intro a b j k oldA oldB atA atB same
    obtain ⟨j',wasA,idA,_⟩ := back a j atA
    obtain ⟨k',wasB,idB,_⟩ := back b k atB
    exact known.distinct a b j' k' oldA oldB wasA wasB (by rw [← idA,← idB,same])
  · intro q above
    have other : q ≠ p := by
      rintro rfl
      rw [known.bound q above] at live
      cases live
    exact (putOther other ..).trans (known.bound q above)

theorem Retains.tables (s : Fuse) (names : Table Ptr) (lru : List Ptr) (memory : Nat → Bool) :
    Retains fresh s {s with nameTable := names, lruTable := lru, memory := memory} :=
  ⟨⟨rfl,rfl,rfl⟩,fun _ n live => ⟨n,live,rfl,rfl⟩,fun known => ⟨known.ids,known.hashed,known.distinct,known.bound⟩⟩

theorem Retains.unhashed (s : Fuse) (p : Ptr) : Retains fresh s ((s.unhashId p).freeNode p) := by
  have base : ∃ table memory, s.unhashId p = {s with idTable := table, memory := memory} := by
    unfold Fuse.unhashId
    cases unchain s.idHash s.idTable p with
    | none => exact ⟨s.idTable,s.memory,rfl⟩
    | some table => exact ⟨_,_,rfl⟩
  have cells : ((s.unhashId p).freeNode p).heap = Function.update s.heap p none := by
    obtain ⟨table,memory,is⟩ := base
    rw [is]
    rfl
  have back : ∀ q k, ((s.unhashId p).freeNode p).heap q = some k ↔ q ≠ p ∧ s.heap q = some k := by
    intro q k
    rw [cells]
    by_cases here : q = p
    · simp [here]
    · simp [here]
  refine ⟨?_,fun q k now => ⟨k,((back q k).mp now).2,rfl,rfl⟩,fun known => ?_⟩
  · obtain ⟨table,memory,is⟩ := base
    rw [is]
    exact ⟨rfl,rfl,rfl⟩
  · obtain ⟨table,memory,is,valid,has⟩ := unhashIdSpec known.ids p
    have sameTable : ((s.unhashId p).freeNode p).idTable = table := by rw [is]; rfl
    have sameBrk : ((s.unhashId p).freeNode p).brk = s.brk := by rw [is]; rfl
    refine ⟨?_,?_,?_,?_⟩
    · rw [sameTable]
      apply valid.congr
      intro q hashed
      obtain ⟨_,k,was⟩ := (known.hashed q).mp ((has q).mp hashed).1
      rw [idHashLive ((back q k).mpr ⟨((has q).mp hashed).2,was⟩),idHashLive was]
    · intro q
      rw [sameTable,has,known.hashed]
      simp only [back]
      tauto
    · intro a b j k oldA oldB atA atB same
      exact known.distinct a b j k oldA oldB ((back a j).mp atA).2 ((back b k).mp atB).2 same
    · intro q above
      rw [sameBrk] at above
      rw [cells]
      by_cases here : q = p
      · simp [here]
      · simp [here,known.bound q above]

def Unrefs (fresh : Option Ptr) (unref : Fuse → Ptr → Except Fault Fuse) : Prop :=
  ∀ s p, Leads (Retains fresh s) (unref s p)

variable {unref : Fuse → Ptr → Except Fault Fuse}

theorem unhashNameLeads (unrefs : Unrefs fresh unref) (s : Fuse) (p : Ptr) :
    Leads (Retains fresh s) (unhashNameWith unref s p) := by
  unfold unhashNameWith
  refine (derefLeads s p).bind ?_
  intro n live
  split
  · exact Retains.refl s
  · exact .fault _ _
  · split
    · exact .fault _ _
    · rename_i table _
      refine (unrefs _ _).bind ?_
      intro t first
      refine (derefLeads t p).bind ?_
      intro m now
      have cleared : Retains fresh t (t.put p {m with name := none, parent := none}) := .put now rfl rfl
      exact ((Retains.tables s table s.lruTable s.memory).trans first).trans (cleared.trans (.tables ..))

theorem deleteNodeLeads (unrefs : Unrefs fresh unref) (s : Fuse) (p : Ptr) :
    Leads (Retains fresh s) (deleteNodeWith unref s p) := by
  unfold deleteNodeWith
  refine (derefLeads s p).bind ?_
  intro n live
  split
  · exact .fault _ _
  · refine (unhashNameLeads unrefs s p).bind ?_
    intro t first
    by_cases on : t.lruEnabled
    · simp only [on,if_true]
      exact first.trans ((Retains.tables t t.nameTable (t.lruTable.erase p) t.memory).trans (.unhashed _ p))
    · simp only [on]
      exact first.trans (.unhashed t p)

theorem unrefLoopLeads (fuel : Nat) : Unrefs fresh (unrefLoop fuel) := by
  induction fuel with
  | zero => exact fun s p => .fault _ _
  | succ fuel ih =>
    intro s p
    unfold unrefLoop
    refine (derefLeads s p).bind ?_
    intro n live
    split
    · exact .fault _ _
    · have dropped : Retains fresh s (s.put p {n with refctr := n.refctr - 1}) := .put live rfl rfl
      simp only
      split
      · exact (deleteNodeLeads ih _ p).imp fun _ rest => dropped.trans rest
      · exact dropped

theorem unrefNodeLeads (s : Fuse) (p : Ptr) : Leads (Retains fresh s) (s.unrefNode p) := unrefLoopLeads _ s p

theorem unhashedLeads (s : Fuse) (p : Ptr) : Leads (Retains fresh s) (s.unhashName p) :=
  unhashNameLeads unrefNodeLeads s p

theorem hashNameLeads (s : Fuse) (p : Ptr) (dir : Ino) (name : Name) :
    Leads (fun r => Retains fresh s r.1) (s.hashName p dir name) := by
  unfold Fuse.hashName
  refine (getNodeLeads s dir).bind ?_
  intro q _
  have asked : ∃ memory, (if name.length < inlineName then (true,s) else s.takeMem).2 = {s with memory := memory} := by
    split
    · exact ⟨s.memory,rfl⟩
    · exact ⟨_,rfl⟩
  obtain ⟨memory,asked⟩ := asked
  generalize (if name.length < inlineName then (true,s) else s.takeMem) = answer at asked ⊢
  obtain ⟨copied,t⟩ := answer
  simp only at asked ⊢
  have same : Retains fresh s t := by
    rw [asked]
    exact .tables s s.nameTable s.lruTable memory
  cases copied with
  | true =>
    refine (derefLeads t q).bind ?_
    intro d alive
    have counted : Retains fresh t (t.put q {d with refctr := d.refctr + 1}) := .put alive rfl rfl
    refine (derefLeads _ p).bind ?_
    intro n live
    have named : Retains fresh (t.put q {d with refctr := d.refctr + 1})
        ((t.put q {d with refctr := d.refctr + 1}).put p {n with name := some name, parent := some q}) :=
          .put live rfl rfl
    exact same.trans (counted.trans (named.trans (.tables ..)))
  | false =>
    refine (derefLeads t p).bind ?_
    intro n live
    have unnamed : Retains fresh t (t.put p {n with name := none}) := .put live rfl rfl
    exact same.trans unnamed

theorem unlinkNodeLeads (s : Fuse) (p : Ptr) : Leads (Retains fresh s) (s.unlinkNode p) := by
  unfold Fuse.unlinkNode
  split
  · refine (derefLeads s p).bind ?_
    intro n live
    split
    · exact .fault _ _
    · have fewer : Retains fresh s (s.put p {n with nlookup := n.nlookup - 1}) := .put live rfl rfl
      exact (unhashedLeads _ p).imp fun _ rest => fewer.trans rest
  · exact unhashedLeads s p

theorem forgetNodeLeads (s : Fuse) (nodeid : Ino) (nlookup : Nat) :
    Leads (Retains fresh s) (s.forgetNode nodeid nlookup) := by
  unfold Fuse.forgetNode
  split
  · exact Retains.refl s
  · refine (getNodeLeads s nodeid).bind ?_
    intro p _
    refine (derefLeads s p).bind ?_
    intro n live
    have fewer : Retains fresh s (s.put p {n with nlookup := n.nlookup - nlookup}) := .put live rfl rfl
    simp only
    split
    · exact .fault _ _
    · split
      · exact (unrefNodeLeads _ p).imp fun _ rest => fewer.trans rest
      · split
        · exact fewer.trans (.tables ..)
        · exact fewer

theorem removeNodeLeads (s : Fuse) (dir : Ino) (name : Name) : Leads (Retains fresh s) (s.removeNode dir name) := by
  unfold Fuse.removeNode
  split
  · exact unlinkNodeLeads s _
  · exact Retains.refl s

theorem renameTailLeads {s t : Fuse} (p : Ptr) (newdir : Ino) (newname : Name) (hide : Bool)
    (first : Retains fresh s t) :
    Leads (fun r : Fuse × Int => Retains fresh s r.1) (do
      let t ← t.unhashName p
      let (t,hashed) ← t.hashName p newdir newname
      if hashed then
        if hide then
          let n ← t.deref p
          .ok (t.put p {n with isHidden := true},0)
        else .ok (t,0)
      else .ok (t,-enomem)) := by
  have taken : Leads (Retains fresh t) (t.unhashName p) := unhashedLeads t p
  refine taken.bind ?_
  intro u second
  have given : Leads (fun r => Retains fresh u r.1) (u.hashName p newdir newname) := hashNameLeads u p newdir newname
  refine given.bind ?_
  rintro ⟨v,hashed⟩ third
  have all := first.trans (second.trans third)
  simp only
  split
  · split
    · refine (derefLeads v p).bind ?_
      intro n live
      have hidden : Retains fresh v (v.put p {n with isHidden := true}) := .put live rfl rfl
      exact all.trans hidden
    · exact all
  · exact all

theorem renameNodeLeads (s : Fuse) (olddir : Ino) (oldname : Name) (newdir : Ino) (newname : Name) (hide : Bool) :
    Leads (fun r => Retains fresh s r.1) (s.renameNode olddir oldname newdir newname hide) := by
  unfold Fuse.renameNode
  cases s.lookupNode olddir oldname with
  | none => exact Retains.refl s
  | some p =>
    simp only
    split
    · exact Retains.refl s
    · cases s.lookupNode newdir newname with
      | some q => exact (unlinkNodeLeads s q).bind fun t first => renameTailLeads p newdir newname hide first
      | none => exact renameTailLeads p newdir newname hide (.refl s)

theorem exchangeNodeLeads (s : Fuse) (olddir : Ino) (oldname : Name) (newdir : Ino) (newname : Name) :
    Leads (fun r => Retains fresh s r.1) (s.exchangeNode olddir oldname newdir newname) := by
  have unhash : ∀ s node, Leads (Retains fresh s) (Fuse.unhashNode s node) := by
    intro s node
    cases node with
    | some p => exact unhashedLeads s p
    | none => exact Retains.refl s
  have hash : ∀ s node dir name, Leads (fun r => Retains fresh s r.1) (Fuse.hashNode s node dir name) := by
    intro s node dir name
    cases node with
    | some p => exact hashNameLeads s p dir name
    | none => exact Retains.refl s
  unfold Fuse.exchangeNode
  refine (unhash s _).bind ?_
  intro t first
  refine (unhash t _).bind ?_
  intro u second
  refine (hash u _ newdir newname).bind ?_
  rintro ⟨v,hashed⟩ third
  have three := first.trans (second.trans third)
  simp only
  split
  · refine (hash v _ olddir oldname).bind ?_
    rintro ⟨w,again⟩ fourth
    simp only
    split
    · exact three.trans fourth
    · exact three.trans fourth
  · exact three

theorem cleanLoopLeads (aged : Ptr → Bool) (fuel : Nat) (s : Fuse) (at_ : Option Ptr) :
    Leads (Retains fresh s) (cleanLoop aged fuel s at_) := by
  induction fuel generalizing s at_ with
  | zero =>
    cases at_ with
    | none => exact Retains.refl s
    | some p => exact .fault _ _
  | succ fuel ih =>
    cases at_ with
    | none => exact Retains.refl s
    | some p =>
      unfold cleanLoop
      refine (derefLeads s p).bind ?_
      intro n live
      split
      · split
        · exact .fault _ _
        · split
          · exact ih s _
          · have unused : Retains fresh s (s.put p {n with nlookup := 0}) := .put live rfl rfl
            have taken : Leads (Retains fresh (s.put p {n with nlookup := 0})) _ := unhashedLeads _ p
            refine taken.bind ?_
            intro t first
            have dropped : Leads (Retains fresh t) (t.unrefNode p) := unrefNodeLeads t p
            refine dropped.bind ?_
            intro u second
            exact (ih u _).imp fun _ rest => unused.trans (first.trans (second.trans rest))
      · exact Retains.refl s

end FuseStudy.NodeStore
