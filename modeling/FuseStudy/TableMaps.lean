import FuseStudy.NodeIdentity
import FuseStudy.TableCounts

/-! The id table and the name table over any sequence of hash_id, unhash_id, hash_name and
unhash_name that a run can make, whatever the reallocations answer. Between two calls the
rest of the library may do anything that leaves both tables, the ids and the names of their
nodes alone and every node a reference for each of its children. -/
namespace FuseStudy.NodeStore
open CString LinearHash

def alive (s : Fuse) (p : Ptr) : Bool := (s.heap p).isSome

def idOf (s : Fuse) (p : Ptr) : Option Ino := (s.heap p).map Node.nodeid

def childCount (s : Fuse) (names : List Ptr) (p : Ptr) : Nat :=
  names.countP (fun c => parentOf s.heap c = some p)

/- The nodes in the tables are `ids` and `names`; the names of `pending` more nodes are
being taken out. -/
structure Maps (s : Fuse) (ids names : List Ptr) (pending : Nat) : Prop where
  inIds : Represents minTable s.idHash s.idTable ids 0
  inNames : Represents minTable s.nameHash s.nameTable names pending
  hashed : ∀ p ∈ ids, ∃ n, s.heap p = some n
  apart : ∀ p ∈ ids, ∀ q ∈ ids, idOf s p = idOf s q → p = q
  entered : ∀ p ∈ names, ∃ e, s.entry p = some e
  counted : ∀ p n, s.heap p = some n → childCount s names p ≤ n.refctr

structure Drops (s : Fuse) (ids names : List Ptr) (pending : Nat) (s' : Fuse) : Prop where
  maps : Maps s' (ids.filter (alive s')) (names.filter (alive s')) pending
  nodes : ∀ p, alive s' p → alive s p
  parents : ∀ p ∈ names, alive s' p → parentOf s'.heap p = parentOf s.heap p

variable {s s' t : Fuse} {ids names : List Ptr} {pending : Nat} {p q : Ptr} {n m : Node}

theorem aliveIff : alive s p = true ↔ ∃ n, s.heap p = some n := Option.isSome_iff_exists

theorem Maps.namedAlive (maps : Maps s ids names pending) (named : p ∈ names) : alive s p := by
  obtain ⟨⟨i,name⟩,entered⟩ := maps.entered p named
  obtain ⟨n,_,_,live,_⟩ := entryIff.mp entered
  exact aliveIff.mpr ⟨n,live⟩

theorem Maps.hashedAlive (maps : Maps s ids names pending) (hashed : p ∈ ids) : alive s p :=
  aliveIff.mpr (maps.hashed p hashed)

theorem idHashOf {i : Ino} (is : idOf s p = some i) : s.idHash p = idKey i := by
  obtain ⟨n,live,rfl⟩ := Option.map_eq_some_iff.mp is
  exact idHashLive live

theorem Maps.getNodeIff (maps : Maps s ids names pending) (i : Ino) :
    s.getNodeNocheck i = some p ↔ p ∈ ids ∧ idOf s p = some i := by
  have hashed : ∀ a, Has s.idTable a ↔ a ∈ ids := maps.inIds.has
  unfold Fuse.getNodeNocheck
  rw [findIff maps.inIds.valid ?_ ?_,hashed,decide_eq_true_iff]
  · rfl
  · intro a _ found
    exact idHashOf (of_decide_eq_true found)
  · intro a b first second foundA foundB
    exact maps.apart a ((hashed a).mp first) b ((hashed b).mp second)
      ((of_decide_eq_true foundA).trans (of_decide_eq_true foundB).symm)

/- A name stored twice below one parent: any of its nodes may be found. -/
theorem Maps.lookupSome (maps : Maps s ids names pending) {i : Ino} {name : Name}
    (found : s.lookupNode i name = some p) : p ∈ names ∧ s.entry p = some (i,name) := by
  unfold Fuse.lookupNode find at found
  have holds := List.find?_some found
  exact ⟨(maps.inNames.has p).mp ⟨_,List.mem_of_find?_eq_some found⟩,of_decide_eq_true holds⟩

theorem Maps.lookupNone (maps : Maps s ids names pending) {i : Ino} {name : Name} (named : p ∈ names)
    (entry : s.entry p = some (i,name)) : ∃ q, s.lookupNode i name = some q := by
  have mem := (hasIff maps.inNames.valid p).mp ((maps.inNames.has p).mpr named)
  rw [Fuse.nameHash,entry] at mem
  cases found : s.lookupNode i name with
  | some q => exact ⟨q,rfl⟩
  | none =>
    have absent := List.find?_eq_none.mp found p mem
    exact absurd (decide_eq_true entry) absent

theorem Drops.refl (maps : Maps s ids names pending) : Drops s ids names pending s := by
  have everyId : ids.filter (alive s) = ids := List.filter_eq_self.mpr (fun _ mem => maps.hashedAlive mem)
  have everyName : names.filter (alive s) = names := List.filter_eq_self.mpr (fun _ mem => maps.namedAlive mem)
  refine ⟨?_,fun _ live => live,fun _ _ _ => rfl⟩
  rw [everyId,everyName]
  exact maps

theorem Drops.filtered (nodes : ∀ p, alive s' p → alive t p) (list : List Ptr) :
    (list.filter (alive t)).filter (alive s') = list.filter (alive s') := by
  rw [List.filter_filter]
  apply List.filter_congr
  intro p _
  have before := nodes p
  cases after : alive s' p with
  | false => rfl
  | true => rw [before after]; rfl

theorem Drops.trans (first : Drops s ids names pending t)
    (second : Drops t (ids.filter (alive t)) (names.filter (alive t)) pending s') :
    Drops s ids names pending s' := by
  refine ⟨?_,fun p live => first.nodes p (second.nodes p live),?_⟩
  · have maps := second.maps
    rwa [Drops.filtered second.nodes,Drops.filtered second.nodes] at maps
  · intro p named live
    have before := second.nodes p live
    rw [second.parents p (List.mem_filter.mpr ⟨named,before⟩) live,first.parents p named before]

theorem childCountCongr (same : ∀ p ∈ names, parentOf s'.heap p = parentOf s.heap p) (q : Ptr) :
    childCount s' names q = childCount s names q := by
  apply List.countP_congr
  intro p mem
  rw [same p mem]

theorem Maps.congr (maps : Maps s ids names pending) (heap : s'.heap = s.heap) (idTable : s'.idTable = s.idTable)
    (nameTable : s'.nameTable = s.nameTable) : Maps s' ids names pending := by
  obtain ⟨idsOk,namesOk,hashed,apart,entered,counted⟩ := maps
  refine ⟨?_,?_,?_,?_,?_,?_⟩
  · rw [idTable]
    exact idsOk.congr (fun p _ => by simp only [Fuse.idHash,heap])
  · rw [nameTable]
    exact namesOk.congr (fun p _ => by simp only [Fuse.nameHash,Fuse.entry,heap])
  · rw [heap]
    exact hashed
  · simp only [idOf,heap]
    exact apart
  · simp only [Fuse.entry,heap]
    exact entered
  · simp only [childCount,heap]
    exact counted

theorem Maps.put (maps : Maps s ids names pending) (live : s.heap p = some n) (id : m.nodeid = n.nodeid)
    (entry : p ∈ names → m.name = n.name ∧ m.parent = n.parent) (count : childCount s names p ≤ m.refctr) :
    Maps (s.put p m) ids names pending := by
  have idSame : ∀ q, idOf (s.put p m) q = idOf s q := by
    intro q
    by_cases here : q = p
    · rw [here]
      simp [idOf,Fuse.put,live,id]
    · simp only [idOf,Fuse.put,Function.update_of_ne here]
  have entries : ∀ q ∈ names, (s.put p m).entry q = s.entry q := by
    intro q named
    by_cases here : q = p
    · obtain ⟨name,parent⟩ := entry (here ▸ named)
      exact entryUpdate live ⟨id,name,parent⟩ q
    · exact entryOther live id here
  have parents : ∀ q ∈ names, parentOf (s.put p m).heap q = parentOf s.heap q := by
    intro q named
    by_cases here : q = p
    · rw [here]
      simp only [parentOf,Fuse.put,Function.update_self,live,Option.bind_some]
      exact (entry (here ▸ named)).2
    · simp only [parentOf,Fuse.put,Function.update_of_ne here]
  refine ⟨?_,?_,?_,?_,?_,?_⟩
  · apply maps.inIds.congr
    intro q hashed
    obtain ⟨k,was⟩ := maps.hashed q hashed
    have same := idSame q
    unfold Fuse.idHash
    rw [idOf,idOf,was] at same
    obtain ⟨k',now,equal⟩ := Option.map_eq_some_iff.mp same
    rw [now,was]
    simp only [equal]
  · apply maps.inNames.congr
    intro q named
    simp only [Fuse.nameHash,entries q named]
  · intro q hashed
    obtain ⟨k,was⟩ := maps.hashed q hashed
    by_cases here : q = p
    · exact ⟨m,here ▸ putSelf s p m⟩
    · exact ⟨k,(putOther here ..).trans was⟩
  · intro a first b second same
    rw [idSame,idSame] at same
    exact maps.apart a first b second same
  · intro q named
    rw [entries q named]
    exact maps.entered q named
  · intro q k found
    rw [childCountCongr parents]
    rcases atUpdate found with ⟨rfl,rfl⟩ | ⟨_,old⟩
    · exact count
    · exact maps.counted q k old

theorem unhashIdFields (s : Fuse) (p : Ptr) :
    (s.unhashId p).heap = s.heap ∧ (s.unhashId p).nameTable = s.nameTable := by
  unfold Fuse.unhashId
  split <;> exact ⟨rfl,rfl⟩

theorem Maps.unhashId (maps : Maps s ids names pending) (p : Ptr) :
    Maps (s.unhashId p) (ids.erase p) names pending := by
  by_cases present : p ∈ ids
  · obtain ⟨out,chained,left⟩ := maps.inIds.unchain present
    have released := left.release (s.memory 0)
    have is : s.unhashId p = {s with
        idTable := release minTable (s.memory 0) out, memory := fun i => s.memory (i+1)} := by
      simp only [Fuse.unhashId,chained,Fuse.takeMem]
    rw [is]
    exact ⟨released,maps.inNames,fun q mem => maps.hashed q (List.mem_of_mem_erase mem),
      fun a first b second => maps.apart a (List.mem_of_mem_erase first) b (List.mem_of_mem_erase second),
      maps.entered,maps.counted⟩
  · have is : s.unhashId p = s := by
      simp only [Fuse.unhashId,maps.inIds.unchainAbsent present]
    rw [is,List.erase_of_not_mem present]
    exact maps

theorem Maps.freeNode (maps : Maps s ids names pending) (unhashed : p ∉ ids) (unnamed : p ∉ names)
    (childless : childCount s names p = 0) : Maps (s.freeNode p) ids names pending := by
  have others : ∀ {q}, q ≠ p → (s.freeNode p).heap q = s.heap q := fun other => Function.update_of_ne other ..
  have entries : ∀ q ∈ names, (s.freeNode p).entry q = s.entry q := by
    intro q named
    obtain ⟨⟨i,name⟩,entered⟩ := maps.entered q named
    obtain ⟨n,r,d,live,hasName,parent,above,id⟩ := entryIff.mp entered
    have notParent : r ≠ p := by
      rintro rfl
      have child := List.countP_eq_zero.mp childless q named
      simp [parentOf,live,parent] at child
    have other : q ≠ p := fun same => unnamed (same ▸ named)
    have kept := entryIff.mpr ⟨n,r,d,(others other).trans live,hasName,parent,(others notParent).trans above,id⟩
    exact Eq.trans kept entered.symm
  have parents : ∀ q ∈ names, parentOf (s.freeNode p).heap q = parentOf s.heap q := by
    intro q named
    have other : q ≠ p := fun same => unnamed (same ▸ named)
    rw [parentOf,others other,parentOf]
  have idKept : ∀ q ∈ ids, (s.freeNode p).heap q = s.heap q :=
    fun q hashed => others (fun same => unhashed (same ▸ hashed))
  refine ⟨?_,?_,?_,?_,?_,?_⟩
  · apply maps.inIds.congr
    intro q hashed
    simp only [Fuse.idHash,idKept q hashed]
  · apply maps.inNames.congr
    intro q named
    simp only [Fuse.nameHash,entries q named]
  · intro q hashed
    rw [idKept q hashed]
    exact maps.hashed q hashed
  · intro a first b second same
    rw [idOf,idOf,idKept a first,idKept b second] at same
    exact maps.apart a first b second same
  · intro q named
    rw [entries q named]
    exact maps.entered q named
  · intro q k found
    rw [childCountCongr parents]
    by_cases here : q = p
    · simp only [here,Fuse.freeNode,Function.update_self] at found
      cases found
    · exact maps.counted q k ((others here).symm.trans found)

/- unhash_name takes the node out before it drops the parent, whose count then has one
reference that no child stands for. -/
theorem Maps.unchain (maps : Maps s ids names pending) (named : p ∈ names) (live : s.heap p = some n)
    (parent : n.parent = some q) :
    ∃ table, unchain s.nameHash s.nameTable p = some table ∧
      Maps {s with nameTable := table} ids (names.erase p) (pending + 1) ∧
      childCount s names q = childCount s (names.erase p) q + 1 := by
  obtain ⟨table,chained,left⟩ := maps.inNames.unchain named
  have fewer : ∀ r, childCount s (names.erase p) r ≤ childCount s names r :=
    fun r => List.Sublist.countP_le List.erase_sublist
  refine ⟨table,chained,⟨maps.inIds,left,maps.hashed,maps.apart,?_,?_⟩,?_⟩
  · exact fun r mem => maps.entered r (List.mem_of_mem_erase mem)
  · exact fun r k found => (fewer r).trans (maps.counted r k found)
  · have child : decide (parentOf s.heap p = some q) = true := by
      simp [parentOf,live,parent]
    have positive : 0 < names.countP (fun c => decide (parentOf s.heap c = some q)) :=
      List.countP_pos_iff.mpr ⟨p,named,child⟩
    have erased := List.countP_erase (fun c => decide (parentOf s.heap c = some q)) names p
    have both : p ∈ names ∧ decide (parentOf s.heap p = some q) = true := ⟨named,child⟩
    rw [if_pos both] at erased
    unfold childCount
    omega

theorem Maps.opens (maps : Maps s ids names pending) (named : p ∈ names) (live : s.heap p = some n)
    (parent : n.parent = some q) :
    ∃ table, LinearHash.unchain s.nameHash s.nameTable p = some table ∧
      Maps {s with nameTable := table} ids (names.erase p) (pending + 1) ∧ ∀ m, s.heap q = some m →
        childCount s (names.erase p) q < m.refctr := by
  obtain ⟨table,chained,opened,one⟩ := maps.unchain named live parent
  refine ⟨table,chained,opened,?_⟩
  intro m found
  have counted := maps.counted q m found
  omega

theorem Drops.cleared {table : Table Ptr} (dropped : Drops {s with nameTable := table} ids names (pending + 1) t)
    (live : t.heap p = some n) (unnamed : p ∉ names) (realloc : Bool) (memory : Nat → Bool) :
    Drops s ids names pending {t.put p {n with name := none, parent := none} with
      nameTable := release minTable realloc t.nameTable, memory := memory} := by
  have outside : p ∉ names.filter (alive t) := fun mem => unnamed (List.mem_filter.mp mem).1
  have base : Maps (t.put p {n with name := none, parent := none}) (ids.filter (alive t))
      (names.filter (alive t)) (pending + 1) :=
    dropped.maps.put live rfl (fun named => absurd named outside) (dropped.maps.counted p n live)
  have alike : alive {t.put p {n with name := none, parent := none} with
      nameTable := release minTable realloc t.nameTable, memory := memory} = alive t := by
    funext r
    by_cases here : r = p
    · rw [here]
      simp [alive,Fuse.put,live]
    · simp only [alive,Fuse.put,Function.update_of_ne here]
  refine ⟨?_,?_,?_⟩
  · rw [alike]
    exact ⟨base.inIds,base.inNames.release realloc,base.hashed,base.apart,base.entered,base.counted⟩
  · intro r after
    rw [alike] at after
    exact dropped.nodes r after
  · intro r mem after
    rw [alike] at after
    have other : r ≠ p := fun same => unnamed (same ▸ mem)
    rw [← show parentOf t.heap r = parentOf s.heap r from dropped.parents r mem after]
    simp only [parentOf,Fuse.put,Function.update_of_ne other]

def UnrefDrops (unref : Fuse → Ptr → Except Fault Fuse) : Prop :=
  ∀ s p ids names pending, Maps s ids names pending → (∀ n, s.heap p = some n → childCount s names p < n.refctr) →
    Leads (Drops s ids names pending) (unref s p)

variable {unref : Fuse → Ptr → Except Fault Fuse}

theorem unhashNameDrops (drops : UnrefDrops unref) (maps : Maps s ids names pending) :
    Leads (Drops s ids (names.erase p) pending) (unhashNameWith unref s p) := by
  unfold unhashNameWith
  refine (derefLeads s p).bind ?_
  intro n live
  split
  · rename_i unset
    have unnamed : p ∉ names := by
      intro named
      obtain ⟨⟨i,name⟩,entered⟩ := maps.entered p named
      obtain ⟨k,_,_,live',hasName,_⟩ := entryIff.mp entered
      rw [live] at live'
      cases live'
      rw [unset] at hasName
      cases hasName
    rw [List.erase_of_not_mem unnamed]
    exact Drops.refl maps
  · exact .fault _ _
  · rename_i name q _ parent
    by_cases named : p ∈ names
    · obtain ⟨table,chained,opened,reference⟩ := maps.opens named live parent
      rw [chained]
      refine (drops _ q ids _ _ opened reference).bind ?_
      intro t dropped
      refine (derefLeads t p).bind ?_
      intro k now
      exact dropped.cleared now maps.inNames.distinct.not_mem_erase (t.memory 0) _
    · rw [maps.inNames.unchainAbsent named]
      exact .fault _ _

theorem deleteNodeDrops (drops : UnrefDrops unref) (maps : Maps s ids names pending)
    (childless : childCount s names p = 0) : Leads (Drops s ids names pending) (deleteNodeWith unref s p) := by
  unfold deleteNodeWith
  refine (derefLeads s p).bind ?_
  intro n live
  split
  · exact .fault _ _
  refine (unhashNameDrops drops maps).bind ?_
  intro t dropped
  have distinctNames := maps.inNames.distinct
  have distinctIds : (ids.filter (alive t)).Nodup := maps.inIds.distinct.filter _
  have unnamed : p ∉ (names.erase p).filter (alive t) :=
    fun mem => distinctNames.not_mem_erase (List.mem_filter.mp mem).1
  have alone : ∀ c ∈ names, parentOf s.heap c ≠ some p := by
    intro c mem child
    exact List.countP_eq_zero.mp childless c mem (decide_eq_true child)
  have stillAlone : childCount t ((names.erase p).filter (alive t)) p = 0 := by
    apply List.countP_eq_zero.mpr
    intro c mem child
    obtain ⟨inside,after⟩ := List.mem_filter.mp mem
    have same := dropped.parents c inside after
    exact alone c (List.mem_of_mem_erase inside) (same ▸ of_decide_eq_true child)
  have finish : ∀ u : Fuse, u.heap = t.heap → u.idTable = t.idTable → u.nameTable = t.nameTable →
      Drops s ids names pending ((u.unhashId p).freeNode p) := by
    intro u heap idTable nameTable
    have before : Maps u (ids.filter (alive t)) ((names.erase p).filter (alive t)) pending :=
      dropped.maps.congr heap idTable nameTable
    have unhashed := before.unhashId p
    have cells : ((u.unhashId p).freeNode p).heap = Function.update t.heap p none := by
      rw [Fuse.freeNode,(unhashIdFields u p).1,heap]
    have count : childCount (u.unhashId p) ((names.erase p).filter (alive t)) p = 0 := by
      simp only [childCount,(unhashIdFields u p).1,heap]
      exact stillAlone
    have freed := unhashed.freeNode distinctIds.not_mem_erase unnamed count
    have left : ∀ r, alive ((u.unhashId p).freeNode p) r = (alive t r && r != p) := by
      intro r
      simp only [alive,cells]
      by_cases here : r = p
      · simp [here]
      · simp [here]
    have idsLeft : ids.filter (alive ((u.unhashId p).freeNode p)) = (ids.filter (alive t)).erase p := by
      rw [distinctIds.erase_eq_filter,List.filter_filter]
      apply List.filter_congr
      intro r _
      rw [left,Bool.and_comm]
    have namesLeft : names.filter (alive ((u.unhashId p).freeNode p)) = (names.erase p).filter (alive t) := by
      rw [distinctNames.erase_eq_filter,List.filter_filter]
      exact List.filter_congr (fun r _ => left r)
    refine ⟨?_,?_,?_⟩
    · rw [idsLeft,namesLeft]
      exact freed
    · intro r after
      rw [left,Bool.and_eq_true] at after
      exact dropped.nodes r after.1
    · intro r mem after
      rw [left,Bool.and_eq_true,bne_iff_ne] at after
      have inside : r ∈ names.erase p := distinctNames.mem_erase_iff.mpr ⟨after.2,mem⟩
      rw [← dropped.parents r inside after.1,parentOf,cells,Function.update_of_ne after.2,parentOf]
  by_cases enabled : t.lruEnabled
  · simp only [enabled,if_true]
    exact finish (t.removeNodeLru p) rfl rfl rfl
  · simp only [enabled]
    exact finish t rfl rfl rfl

theorem Maps.unreferenced (maps : Maps s ids names pending) (live : s.heap p = some n)
    (reference : childCount s names p < n.refctr) :
    Drops s ids names pending (s.put p {n with refctr := n.refctr - 1}) := by
  have lower : Maps (s.put p {n with refctr := n.refctr - 1}) ids names pending := by
    refine maps.put live rfl (fun _ => ⟨rfl,rfl⟩) ?_
    simp only
    omega
  have alike : alive (s.put p {n with refctr := n.refctr - 1}) = alive s := by
    funext r
    by_cases here : r = p
    · rw [here]
      simp [alive,Fuse.put,live]
    · simp only [alive,Fuse.put,Function.update_of_ne here]
  have whole := (Drops.refl lower).maps
  refine ⟨whole,?_,fun r _ _ => parentUpdate (m := {n with refctr := n.refctr - 1}) live rfl r⟩
  intro r after
  rwa [alike] at after

theorem unrefLoopDrops (fuel : Nat) : UnrefDrops (unrefLoop fuel) := by
  induction fuel with
  | zero => exact fun _ _ _ _ _ _ _ => .fault _ _
  | succ fuel ih =>
    intro s p ids names pending maps reference
    unfold unrefLoop
    refine (derefLeads s p).bind ?_
    intro n live
    split
    · exact .fault _ _
    have dropped := maps.unreferenced live (reference n live)
    simp only
    split
    · rename_i last
      have lower := dropped.maps
      have childless : childCount (s.put p {n with refctr := n.refctr - 1})
          (names.filter (alive (s.put p {n with refctr := n.refctr - 1}))) p = 0 := by
        have counted := lower.counted p _ (putSelf s p {n with refctr := n.refctr - 1})
        simp only at counted
        omega
      exact (deleteNodeDrops ih lower childless).imp fun _ rest => dropped.trans rest
    · exact dropped

theorem unrefNodeDrops : UnrefDrops Fuse.unrefNode := fun s => unrefLoopDrops (s.brk+1) s

/-! The slots of both tables that unhash_name touches, down the whole cascade. -/

def Fuse.unhashIdTouches (s : Fuse) (p : Ptr) : List (Nat × Nat) :=
  unchainTouches s.idHash s.idTable p ++ match unchain s.idHash s.idTable p with
    | none => []
    | some table => releaseTouches minTable (s.memory 0) table

def unhashNameTouchesWith (unref : Fuse → Ptr → Except Fault Fuse) (touches : Fuse → Ptr → List (Nat × Nat))
    (s : Fuse) (p : Ptr) :
    List (Nat × Nat) :=
  match (s.heap p).bind Node.name,parentOf s.heap p with
  | some _,some parent =>
    unchainTouches s.nameHash s.nameTable p ++ match unchain s.nameHash s.nameTable p with
      | none => []
      | some table => touches {s with nameTable := table} parent ++ match unref {s with nameTable := table} parent with
        | .error _ => []
        | .ok s => releaseTouches minTable (s.memory 0) s.nameTable
  | _,_ => []

def deleteNodeTouchesWith (unref : Fuse → Ptr → Except Fault Fuse) (touches : Fuse → Ptr → List (Nat × Nat))
    (s : Fuse) (p : Ptr) :
    List (Nat × Nat) :=
  unhashNameTouchesWith unref touches s p ++ match unhashNameWith unref s p with
    | .error _ => []
    | .ok s => s.unhashIdTouches p

def unrefLoopTouches : Nat → Fuse → Ptr → List (Nat × Nat)
  | 0, _, _ => []
  | fuel+1, s, p => match s.heap p with
    | none => []
    | some n =>
      if n.refctr = 1 then
        deleteNodeTouchesWith (unrefLoop fuel) (unrefLoopTouches fuel) (s.put p {n with refctr := n.refctr - 1}) p
      else []

def Fuse.unhashNameTouches (s : Fuse) (p : Ptr) : List (Nat × Nat) :=
  unhashNameTouchesWith Fuse.unrefNode (fun s => unrefLoopTouches (s.brk+1) s) s p

def UnrefAllocated (touches : Fuse → Ptr → List (Nat × Nat)) : Prop :=
  ∀ s p ids names pending, Maps s ids names pending → (∀ n, s.heap p = some n → childCount s names p < n.refctr) →
    Allocated (touches s p)

variable {touches : Fuse → Ptr → List (Nat × Nat)}

theorem Maps.unhashIdAllocated (maps : Maps s ids names pending) (p : Ptr) : Allocated (s.unhashIdTouches p) := by
  have map := maps.inIds.finiteMap
  refine allocatedAppend.mpr ⟨map.unchaining _ p,?_⟩
  split
  · exact allocatedNil
  · next table chained => exact map.releasing p table _ chained

theorem unhashNameAllocated (drops : UnrefDrops unref) (allocated : UnrefAllocated touches)
    (maps : Maps s ids names pending) :
    Allocated (unhashNameTouchesWith unref touches s p) := by
  unfold unhashNameTouchesWith
  split
  · next name q _ above =>
    obtain ⟨n,live,parent⟩ := Option.bind_eq_some_iff.mp above
    refine allocatedAppend.mpr ⟨unchainAllocated maps.inNames.valid _ p,?_⟩
    by_cases named : p ∈ names
    · obtain ⟨table,chained,opened,reference⟩ := maps.opens named live parent
      rw [chained]
      refine allocatedAppend.mpr ⟨allocated _ q _ _ _ opened reference,?_⟩
      split
      · exact allocatedNil
      · next t dropped =>
        have after : Maps t _ _ (pending + 1) := ((drops _ q _ _ _ opened reference).done dropped).maps
        exact releaseAllocated after.inNames.valid _
    · rw [maps.inNames.unchainAbsent named]
      exact allocatedNil
  · exact allocatedNil

theorem deleteNodeAllocated (drops : UnrefDrops unref) (allocated : UnrefAllocated touches)
    (maps : Maps s ids names pending) :
    Allocated (deleteNodeTouchesWith unref touches s p) := by
  refine allocatedAppend.mpr ⟨unhashNameAllocated drops allocated maps,?_⟩
  split
  · exact allocatedNil
  · next t ran => exact ((unhashNameDrops drops maps).done ran).maps.unhashIdAllocated p

theorem unrefLoopAllocated (fuel : Nat) : UnrefAllocated (unrefLoopTouches fuel) := by
  induction fuel with
  | zero => exact fun _ _ _ _ _ _ _ => allocatedNil
  | succ fuel ih =>
    intro s p ids names pending maps reference
    unfold unrefLoopTouches
    split
    · exact allocatedNil
    · next n live =>
      split
      · exact deleteNodeAllocated (unrefLoopDrops fuel) ih (maps.unreferenced live (reference n live)).maps
      · exact allocatedNil

theorem Maps.cascadeAllocated (maps : Maps s ids names pending) (p : Ptr) : Allocated (s.unhashNameTouches p) :=
  unhashNameAllocated unrefNodeDrops (fun s => unrefLoopAllocated (s.brk+1) s) maps

theorem Maps.unhashName (maps : Maps s ids names 0) (p : Ptr) :
    Leads (fun s' => Maps s' (ids.filter (alive s')) ((names.erase p).filter (alive s')) 0) (s.unhashName p) :=
  (unhashNameDrops unrefNodeDrops maps).imp fun _ dropped => dropped.maps

theorem Maps.hashId (maps : Maps s ids names pending) (live : s.heap p = some n)
    (other : ∀ q ∈ ids, idOf s q ≠ some n.nodeid) : Maps (s.hashId p) (p :: ids) names pending := by
  have mine : idOf s p = some n.nodeid := by rw [idOf,live,Option.map_some]
  have fresh : p ∉ ids := fun mem => other p mem mine
  refine ⟨maps.inIds.insert fresh _,maps.inNames,?_,?_,maps.entered,maps.counted⟩
  · exact List.forall_mem_cons.mpr ⟨⟨n,live⟩,maps.hashed⟩
  · intro a first b second same
    have same : idOf s a = idOf s b := same
    rcases List.mem_cons.mp first with rfl | oldA
    · rcases List.mem_cons.mp second with rfl | oldB
      · rfl
      · exact absurd (same.symm.trans mine) (other b oldB)
    · rcases List.mem_cons.mp second with rfl | oldB
      · exact absurd (same.trans mine) (other a oldA)
      · exact maps.apart a oldA b oldB same

theorem Maps.named {parent : Ino} {name : Name} {d : Node} {memory : Nat → Bool} (realloc : Bool)
    (maps : Maps s ids names pending) (fresh : p ∉ names) (above : s.heap q = some d) (id : d.nodeid = parent)
    (live : (s.put q {d with refctr := d.refctr + 1}).heap p = some n) :
    Maps {(s.put q {d with refctr := d.refctr + 1}).put p {n with name := some name, parent := some q} with
      nameTable := insert ((s.put q {d with refctr := d.refctr + 1}).put p
        {n with name := some name, parent := some q}).nameHash realloc
          (s.put q {d with refctr := d.refctr + 1}).nameTable p
      memory := memory} ids (p :: names) pending := by
  generalize owned : s.put q {d with refctr := d.refctr + 1} = r at live ⊢
  have more : Maps r ids names pending := by
    rw [← owned]
    refine maps.put above rfl (fun _ => ⟨rfl,rfl⟩) ?_
    have counted := maps.counted q d above
    simp only
    omega
  have spare : ∀ k, r.heap q = some k → childCount r names q + 1 ≤ k.refctr := by
    intro k found
    have same : childCount r names q = childCount s names q :=
      childCountCongr
        (fun c _ => by rw [← owned]; exact parentUpdate (m := {d with refctr := d.refctr + 1}) above rfl c) q
    rw [← owned,putSelf] at found
    cases found
    have counted := maps.counted q d above
    simp only
    omega
  have idOfParent : idOf r q = some parent := by
    rw [idOf,← owned,putSelf,Option.map_some,id]
  have base : Maps (r.put p {n with name := some name, parent := some q}) ids names pending :=
    more.put live rfl (fun named => absurd named fresh) (more.counted p n live)
  have entered : (r.put p {n with name := some name, parent := some q}).entry p = some (parent,name) := by
    by_cases self : q = p
    · subst self
      rw [idOf,live,Option.map_some,Option.some.injEq] at idOfParent
      exact entryIff.mpr ⟨_,q,_,putSelf ..,rfl,rfl,putSelf ..,idOfParent⟩
    · obtain ⟨k,found,same⟩ := Option.map_eq_some_iff.mp idOfParent
      exact entryIff.mpr ⟨_,q,k,putSelf ..,rfl,rfl,(putOther self ..).trans found,same⟩
  refine ⟨base.inIds,base.inNames.insert fresh realloc,base.hashed,base.apart,?_,?_⟩
  · exact List.forall_mem_cons.mpr ⟨⟨_,entered⟩,base.entered⟩
  · intro c k found
    have own : parentOf (r.put p {n with name := some name, parent := some q}).heap p = some q := by
      rw [parentOf,putSelf,Option.bind_some]
    have count : childCount (r.put p {n with name := some name, parent := some q}) (p :: names) c =
        childCount (r.put p {n with name := some name, parent := some q}) names c + if q = c then 1 else 0 := by
      simp only [childCount,List.countP_cons,own,Option.some.injEq,decide_eq_true_eq]
    have counted := base.counted c k found
    have apart : childCount (r.put p {n with name := some name, parent := some q}) names c = childCount r names c := by
      apply childCountCongr
      intro e mem
      have other : e ≠ p := fun same => fresh (same ▸ mem)
      simp only [parentOf,Fuse.put,Function.update_of_ne other]
    show childCount (r.put p {n with name := some name, parent := some q}) (p :: names) c ≤ k.refctr
    rw [count]
    split
    · rename_i same
      subst same
      rw [apart]
      rcases atUpdate found with ⟨rfl,rfl⟩ | ⟨_,old⟩
      · exact spare n live
      · exact spare k old
    · exact counted

theorem Maps.hashName (maps : Maps s ids names 0) (fresh : p ∉ names) (parent : Ino) (name : Name) :
    Leads (fun r => Maps r.1 ids (if r.2 then p :: names else names) 0) (s.hashName p parent name) := by
  unfold Fuse.hashName
  refine (getNodeLeads s parent).bind ?_
  intro q found
  obtain ⟨_,isParent⟩ := (maps.getNodeIff parent).mp found
  obtain ⟨d,above,isParent⟩ := Option.map_eq_some_iff.mp isParent
  have asked : ∃ memory, (if name.length < inlineName then (true,s) else s.takeMem).2 = {s with memory := memory} := by
    split
    · exact ⟨s.memory,rfl⟩
    · exact ⟨_,rfl⟩
  obtain ⟨memory,asked⟩ := asked
  generalize (if name.length < inlineName then (true,s) else s.takeMem) = answer at asked ⊢
  obtain ⟨copied,t⟩ := answer
  simp only at asked ⊢
  subst asked
  have maps : Maps {s with memory := memory} ids names 0 := maps.congr rfl rfl rfl
  cases copied with
  | true =>
    refine (derefLeads _ q).bind ?_
    intro d' above'
    have again : s.heap q = some d' := above'
    rw [above] at again
    cases again
    refine (derefLeads _ p).bind ?_
    intro n live
    exact maps.named _ fresh above isParent live
  | false =>
    refine (derefLeads _ p).bind ?_
    intro n live
    exact maps.put live rfl (fun named => absurd named fresh) (maps.counted p n live)

/- What the rest of the library leaves alone between two calls. -/
structure Between (ids names : List Ptr) (s s' : Fuse) : Prop where
  tables : s'.idTable = s.idTable ∧ s'.nameTable = s.nameTable
  hashed : ∀ p ∈ ids, idOf s' p = idOf s p
  named : ∀ p ∈ names, s'.entry p = s.entry p ∧ parentOf s'.heap p = parentOf s.heap p
  references : ∀ p n, s'.heap p = some n → childCount s' names p ≤ n.refctr

/- Any sequence of calls from node_table_init on, with the nodes put in and not taken out of
the id table and of the name table. unhash_name drops the parent and with its last reference
the parent leaves both tables and the memory. A call that aborts has no state after it. -/
inductive Calls : Fuse → List Ptr → List Ptr → Prop
  | start (s : Fuse) (ids : s.idTable = init minTable) (names : s.nameTable = init minTable) : Calls s [] []
  | hashId {s : Fuse} {ids names : List Ptr} {p : Ptr} {n : Node} (calls : Calls s ids names)
      (live : s.heap p = some n) (other : ∀ q ∈ ids, idOf s q ≠ some n.nodeid) :
      Calls (s.hashId p) (p :: ids) names
  | unhashId {s : Fuse} {ids names : List Ptr} (p : Ptr) (calls : Calls s ids names) :
      Calls (s.unhashId p) (ids.erase p) names
  | hashName {s s' : Fuse} {ids names : List Ptr} {p : Ptr} {parent : Ino} {name : Name}
      (calls : Calls s ids names) (fresh : p ∉ names) (called : s.hashName p parent name = .ok (s',true)) :
      Calls s' ids (p :: names)
  | uncopied {s s' : Fuse} {ids names : List Ptr} {p : Ptr} {parent : Ino} {name : Name}
      (calls : Calls s ids names) (fresh : p ∉ names) (called : s.hashName p parent name = .ok (s',false)) :
      Calls s' ids names
  | unhashName {s s' : Fuse} {ids names : List Ptr} {p : Ptr} (calls : Calls s ids names)
      (called : s.unhashName p = .ok s') :
      Calls s' (ids.filter (alive s')) ((names.erase p).filter (alive s'))
  | between {s s' : Fuse} {ids names : List Ptr} (calls : Calls s ids names)
      (between : Between ids names s s') : Calls s' ids names

theorem Maps.between (maps : Maps s ids names pending) (between : Between ids names s s') :
    Maps s' ids names pending := by
  obtain ⟨idTable,nameTable⟩ := between.tables
  refine ⟨?_,?_,?_,?_,?_,between.references⟩
  · rw [idTable]
    apply maps.inIds.congr
    intro p mem
    obtain ⟨n,live⟩ := maps.hashed p mem
    have is : idOf s p = some n.nodeid := by rw [idOf,live,Option.map_some]
    rw [idHashOf ((between.hashed p mem).trans is),idHashOf is]
  · rw [nameTable]
    apply maps.inNames.congr
    intro p mem
    simp only [Fuse.nameHash,(between.named p mem).1]
  · intro p mem
    obtain ⟨n,live⟩ := maps.hashed p mem
    have is : idOf s p = some n.nodeid := by rw [idOf,live,Option.map_some]
    obtain ⟨k,now,_⟩ := Option.map_eq_some_iff.mp ((between.hashed p mem).trans is)
    exact ⟨k,now⟩
  · intro a first b second same
    rw [between.hashed a first,between.hashed b second] at same
    exact maps.apart a first b second same
  · intro p mem
    rw [(between.named p mem).1]
    exact maps.entered p mem

/- Induction on the sequence of calls. -/
theorem Calls.maps (calls : Calls s ids names) : Maps s ids names 0 := by
  induction calls with
  | start _ ids names =>
    refine ⟨?_,?_,nofun,nofun,nofun,?_⟩
    · rw [ids]
      exact representsInit (show 0 < 4096 by omega) _
    · rw [names]
      exact representsInit (show 0 < 4096 by omega) _
    · exact fun _ _ _ => Nat.zero_le _
  | hashId _ live other ih => exact ih.hashId live other
  | unhashId _ _ ih => exact ih.unhashId _
  | hashName _ fresh called ih => exact (ih.hashName fresh _ _).done called
  | uncopied _ fresh called ih => exact (ih.hashName fresh _ _).done called
  | unhashName _ called ih => exact (ih.unhashName _).done called
  | between _ between ih => exact ih.between between

/- After every call both tables are finite maps: get_node_nocheck finds the nodes of the id
table and no others, and so does lookup_node for the names stored once below a parent. The
next call stays within the slots there are, unhash_name with every deletion that follows from it. -/
theorem tablesAreMaps (calls : Calls s ids names) :
    FiniteMap minTable s.idHash s.idTable ids ∧
    (∀ i p, s.getNodeNocheck i = some p ↔ p ∈ ids ∧ idOf s p = some i) ∧
    FiniteMap minTable s.nameHash s.nameTable names ∧
    (∀ i name p, s.lookupNode i name = some p → p ∈ names ∧ s.entry p = some (i,name)) ∧
    (∀ i name p, p ∈ names → s.entry p = some (i,name) → ∃ q, s.lookupNode i name = some q) ∧
    (∀ i name p, p ∈ names → s.entry p = some (i,name) →
      (∀ q ∈ names, s.entry q = some (i,name) → q = p) → s.lookupNode i name = some p) ∧
    ∀ p, Allocated (s.unhashNameTouches p) ∧ Allocated (s.unhashIdTouches p) := by
  have maps := calls.maps
  refine ⟨maps.inIds.finiteMap,fun i p => maps.getNodeIff i,maps.inNames.finiteMap,
    fun _ _ _ found => maps.lookupSome found,fun _ _ _ named entry => maps.lookupNone named entry,?_,
    fun p => ⟨maps.cascadeAllocated p,maps.unhashIdAllocated p⟩⟩
  intro i name p named entry once
  obtain ⟨q,found⟩ := maps.lookupNone named entry
  obtain ⟨inside,same⟩ := maps.lookupSome found
  rw [found,once q inside same]

def twoNodes : Fuse := (emptyTree ⟨0,false,false⟩ (fun _ => true)).put 1 {Node.zero with nodeid := 2}

theorem tablesAreMapsChild : ∃ s t : Fuse, s.getNodeNocheck rootId = some 0 ∧
    s.lookupNode rootId (ascii "a") = some 1 ∧ FiniteMap minTable s.nameHash s.nameTable [1] ∧
    s.unhashName 1 = .ok t ∧ Allocated (s.unhashNameTouches 1) ∧ t.lookupNode rootId (ascii "a") = none ∧
    FiniteMap minTable t.nameHash t.nameTable [] := by
  have root : Calls (twoNodes.hashId 0) [0] [] := (Calls.start twoNodes rfl rfl).hashId (n := rootNode) rfl nofun
  have called : ∃ s', (twoNodes.hashId 0).hashName 1 rootId (ascii "a") = .ok (s',true) := ⟨_,rfl⟩
  obtain ⟨s',called⟩ := called
  have id : idOf s' 0 = some rootId := by
    cases called
    rfl
  have entry : s'.entry 1 = some (rootId,ascii "a") := by
    cases called
    rfl
  have calls := root.hashName nofun called
  obtain ⟨_,ids,names,_,_,stored,touched⟩ := tablesAreMaps calls
  have first : s'.lookupNode rootId (ascii "a") = some 1 :=
    stored rootId _ 1 (List.mem_singleton_self 1) entry (fun q mem _ => List.mem_singleton.mp mem)
  have unhashed : ∃ t, s'.unhashName 1 = .ok t := by
    cases called
    exact ⟨_,rfl⟩
  obtain ⟨t,unhashed⟩ := unhashed
  obtain ⟨_,_,empty,found,_,_⟩ := tablesAreMaps (calls.unhashName unhashed)
  refine ⟨s',t,(ids rootId 0).mpr ⟨List.mem_singleton_self 0,id⟩,first,names,unhashed,(touched 1).1,?_,empty⟩
  cases lookup : t.lookupNode rootId (ascii "a") with
  | none => rfl
  | some q => exact absurd (found _ _ _ lookup).1 List.not_mem_nil

end FuseStudy.NodeStore
