import FuseStudy.NodeStore
import Mathlib.Data.Finset.Card
import Mathlib.Data.Finset.Range

/-! The relation between the heap, the two tables and the reference counts, over the
sets of named and of hashed nodes alone. A node counts one reference for the kernel's
lookups, one for each named child and extra ones for references on their way out. While
a name is being taken out of the table, its node is the hole of the relation. -/
namespace FuseStudy.NodeStore
open CString LinearHash

variable {heap : Ptr → Option Node} {Named Hashed : Ptr → Prop} {brk : Nat} {extra : Ptr → Nat}
  {hole : Option Ptr} {p q : Ptr} {n m : Node}

def parentOf (heap : Ptr → Option Node) (p : Ptr) : Option Ptr := (heap p).bind Node.parent

def Node.held (n : Node) : Nat := if 0 < n.nlookup then 1 else 0

open Classical in
noncomputable def children (heap : Ptr → Option Node) (Named : Ptr → Prop) (brk : Nat) (p : Ptr) : Finset Ptr :=
  (Finset.range brk).filter (fun q => Named q ∧ parentOf heap q = some p)

structure Shape (heap : Ptr → Option Node) (Named Hashed : Ptr → Prop) (brk : Nat)
    (extra : Ptr → Nat) (hole : Option Ptr) : Prop where
  fresh : ∀ p, brk ≤ p → heap p = none
  hashed : ∀ p, Hashed p → ∃ n, heap p = some n
  distinct : ∀ p q n m, Hashed p → Hashed q → heap p = some n → heap q = some m →
    n.nodeid = m.nodeid → p = q
  named : ∀ p, Named p → ∃ e, entryOf heap p = some e
  apart : ∀ p q, Named p → Named q → entryOf heap p = entryOf heap q → p = q
  counted : ∀ p n, heap p = some n → n.refctr = n.held + (children heap Named brk p).card + extra p
  settled : ∀ p n, heap p = some n → n.refctr ≠ 0 → hole ≠ some p →
    (n.name = none → n.parent = none) ∧ (p ≠ 0 → n.name ≠ none → Named p)
  root : ∃ n, heap 0 = some n ∧ n.nodeid = rootId ∧ 0 < n.nlookup ∧ n.parent = none

theorem entryIff {i : Ino} {name : Name} : entryOf heap p = some (i,name) ↔
    ∃ n q d, heap p = some n ∧ n.name = some name ∧ n.parent = some q ∧ heap q = some d ∧ d.nodeid = i := by
  simp only [entryOf,bind,Option.bind_eq_some_iff,Option.some.injEq,Prod.mk.injEq]
  constructor
  · rintro ⟨n,at_,_,named,q,parent,d,live,rfl,rfl⟩
    exact ⟨n,q,d,at_,named,parent,live,rfl⟩
  · rintro ⟨n,q,d,at_,named,parent,live,rfl⟩
    exact ⟨n,at_,name,named,q,parent,d,live,rfl,rfl⟩

theorem memChildren : q ∈ children heap Named brk p ↔ q < brk ∧ Named q ∧ parentOf heap q = some p := by
  classical
  simp only [children,Finset.mem_filter,Finset.mem_range]

def Node.SameEntry (n m : Node) : Prop := m.nodeid = n.nodeid ∧ m.name = n.name ∧ m.parent = n.parent

theorem atUpdate {r : Ptr} (found : Function.update heap p (some m) r = some n) :
    (r = p ∧ n = m) ∨ (r ≠ p ∧ heap r = some n) := by
  by_cases here : r = p
  · subst here
    rw [Function.update_self] at found
    exact .inl ⟨rfl,(Option.some.inj found).symm⟩
  · rw [Function.update_of_ne here] at found
    exact .inr ⟨here,found⟩

theorem entryViaId (heap : Ptr → Option Node) (q : Ptr) :
    entryOf heap q = (heap q).bind fun n => n.name.bind fun name =>
      n.parent.bind fun r => ((heap r).map Node.nodeid).bind fun i => some (i,name) := by
  simp only [entryOf,bind,Option.bind_map]
  rfl

theorem entryOther (live : heap p = some n) (same : m.nodeid = n.nodeid) (other : q ≠ p) :
    entryOf (Function.update heap p (some m)) q = entryOf heap q := by
  have nodeids : ∀ r, (Function.update heap p (some m) r).map Node.nodeid = (heap r).map Node.nodeid := by
    intro r
    by_cases here : r = p
    · subst here
      simp [live,same]
    · rw [Function.update_of_ne here]
  rw [entryViaId,entryViaId heap]
  simp only [nodeids,Function.update_of_ne other]

theorem entryUpdate (live : heap p = some n) (same : n.SameEntry m) (q : Ptr) :
    entryOf (Function.update heap p (some m)) q = entryOf heap q := by
  obtain ⟨id,name,parent⟩ := same
  by_cases here : q = p
  · subst here
    simp only [entryOf,Function.update_self,live,name,parent,bind,Option.bind_some]
    congr
    funext given
    congr
    funext r
    by_cases self : r = q
    · subst self
      rw [Function.update_self,live,Option.bind_some,Option.bind_some,id]
    · rw [Function.update_of_ne self]
  · exact entryOther live id here

theorem parentUpdate (live : heap p = some n) (same : m.parent = n.parent) (q : Ptr) :
    parentOf (Function.update heap p (some m)) q = parentOf heap q := by
  by_cases here : q = p
  · subst here
    simp [parentOf,live,same]
  · simp only [parentOf,Function.update_of_ne here]

theorem Shape.distinctUpdate (shape : Shape heap Named Hashed brk extra hole) (live : heap p = some n)
    (same : m.nodeid = n.nodeid) {a b : Ptr} {j k : Node} (hashedA : Hashed a) (hashedB : Hashed b)
    (atA : Function.update heap p (some m) a = some j) (atB : Function.update heap p (some m) b = some k)
    (ids : j.nodeid = k.nodeid) : a = b := by
  have back : ∀ r k, Function.update heap p (some m) r = some k →
      ∃ k', heap r = some k' ∧ k'.nodeid = k.nodeid := by
    intro r k found
    rcases atUpdate found with ⟨rfl,rfl⟩ | ⟨_,old⟩
    · exact ⟨n,live,same.symm⟩
    · exact ⟨k,old,rfl⟩
  obtain ⟨j',oldA,idA⟩ := back a j atA
  obtain ⟨k',oldB,idB⟩ := back b k atB
  exact shape.distinct a b j' k' hashedA hashedB oldA oldB (by rw [idA,idB,ids])

theorem Shape.hashedUpdate (shape : Shape heap Named Hashed brk extra hole) (m : Node) {r : Ptr}
    (hashed : Hashed r) : ∃ k, Function.update heap p (some m) r = some k := by
  by_cases here : r = p
  · exact ⟨m,by rw [here,Function.update_self]⟩
  · rw [Function.update_of_ne here]
    exact shape.hashed r hashed

theorem childrenCongr {heap' : Ptr → Option Node} {Named' : Ptr → Prop}
    (same : ∀ q, Named' q ∧ parentOf heap' q = some p ↔ Named q ∧ parentOf heap q = some p) :
    children heap' Named' brk p = children heap Named brk p := by
  ext q
  rw [memChildren,memChildren,same]

theorem Shape.lt (shape : Shape heap Named Hashed brk extra hole) (live : heap p = some n) : p < brk := by
  by_contra above
  rw [shape.fresh p (Nat.not_lt.mp above)] at live
  cases live

theorem Shape.above (shape : Shape heap Named Hashed brk extra hole) (live : heap p = some n) :
    ∀ r, brk ≤ r → r ≠ p := by
  rintro r above rfl
  exact Nat.not_le.mpr (shape.lt live) above

theorem Shape.namedParent (shape : Shape heap Named Hashed brk extra hole) (named : Named p) :
    ∃ n q d name, heap p = some n ∧ n.name = some name ∧ n.parent = some q ∧ heap q = some d := by
  obtain ⟨⟨i,name⟩,at_⟩ := shape.named p named
  obtain ⟨n,q,d,live,name,parent,alive,_⟩ := entryIff.mp at_
  exact ⟨n,q,d,_,live,name,parent,alive⟩

theorem Shape.child (shape : Shape heap Named Hashed brk extra hole) (named : Named p)
    (live : heap p = some n) (parent : n.parent = some q) : p ∈ children heap Named brk q :=
  memChildren.mpr ⟨shape.lt live,named,by rw [parentOf,live,Option.bind_some,parent]⟩

theorem Shape.notRoot (shape : Shape heap Named Hashed brk extra hole) (named : Named p) : p ≠ 0 := by
  rintro rfl
  obtain ⟨n,q,d,_,live,_,parent,_⟩ := shape.namedParent named
  obtain ⟨r,atRoot,_,_,none⟩ := shape.root
  rw [live] at atRoot
  cases atRoot
  rw [parent] at none
  cases none

theorem Shape.touch (shape : Shape heap Named Hashed brk extra hole) (live : heap p = some n)
    {extra' : Ptr → Nat} (same : n.SameEntry m)
    (count : m.refctr + n.held + extra p = n.refctr + m.held + extra' p)
    (others : ∀ q, q ≠ p → extra' q = extra q)
    (busy : m.refctr ≠ 0 → n.refctr ≠ 0 ∨ Named p) (root : p = 0 → 0 < m.nlookup) :
    Shape (Function.update heap p (some m)) Named Hashed brk extra' hole := by
  have children : ∀ r, children (Function.update heap p (some m)) Named brk r = children heap Named brk r :=
    fun r => childrenCongr (fun q => by rw [parentUpdate live same.2.2])
  refine ⟨?_,?_,?_,?_,?_,?_,?_,?_⟩
  · intro r above
    rw [Function.update_of_ne (shape.above live r above)]
    exact shape.fresh r above
  · exact fun r hashed => shape.hashedUpdate m hashed
  · exact fun a b j k hashedA hashedB => shape.distinctUpdate live same.1 hashedA hashedB
  · intro r named
    rw [entryUpdate live same]
    exact shape.named r named
  · intro a b namedA namedB
    rw [entryUpdate live same,entryUpdate live same]
    exact shape.apart a b namedA namedB
  · intro r k found
    rw [children]
    rcases atUpdate found with ⟨rfl,rfl⟩ | ⟨other,old⟩
    · have before := shape.counted r n live
      omega
    · rw [others r other]
      exact shape.counted r k old
  · intro r k found used notHole
    rcases atUpdate found with ⟨rfl,rfl⟩ | ⟨other,old⟩
    · obtain ⟨_,name,parent⟩ := same
      rw [name,parent]
      rcases busy used with before | named
      · exact shape.settled r n live before notHole
      · obtain ⟨n',_,_,_,live',hasName,_⟩ := shape.namedParent named
        rw [live] at live'
        cases live'
        exact ⟨fun none => absurd (hasName.symm.trans none) nofun,fun _ _ => named⟩
    · exact shape.settled r k old used notHole
  · obtain ⟨r,atRoot,id,positive,parent⟩ := shape.root
    by_cases here : 0 = p
    · subst here
      rw [atRoot] at live
      cases live
      exact ⟨m,Function.update_self ..,same.1.trans id,root rfl,same.2.2.trans parent⟩
    · exact ⟨r,by rw [Function.update_of_ne here]; exact atRoot,id,positive,parent⟩

def bump (extra : Ptr → Nat) (p : Ptr) : Ptr → Nat := fun q => if q = p then extra q + 1 else extra q

theorem Shape.unname (shape : Shape heap Named Hashed brk extra hole) (named : Named p)
    (live : heap p = some n) (parent : n.parent = some q) {hole' : Option Ptr}
    (opened : (hole = none ∧ hole' = some p) ∨ (n.refctr = 0 ∧ hole' = hole)) :
    Shape heap (fun r => Named r ∧ r ≠ p) Hashed brk (bump extra q) hole' := by
  have fewer : ∀ r, children heap (fun r => Named r ∧ r ≠ p) brk r =
      (children heap Named brk r).erase p := by
    intro r
    ext c
    rw [memChildren,Finset.mem_erase,memChildren]
    constructor
    · rintro ⟨low,⟨was,other⟩,child⟩
      exact ⟨other,low,was,child⟩
    · rintro ⟨other,low,was,child⟩
      exact ⟨low,⟨was,other⟩,child⟩
  refine ⟨shape.fresh,shape.hashed,shape.distinct,fun r was => shape.named r was.1,
    fun a b wasA wasB => shape.apart a b wasA.1 wasB.1,?_,?_,shape.root⟩
  · intro r k found
    have before := shape.counted r k found
    rw [fewer]
    by_cases here : r = q
    · subst here
      have child := shape.child named live parent
      have card := Finset.card_erase_of_mem child
      have positive := Finset.card_pos.mpr ⟨p,child⟩
      simp only [bump,if_pos]
      omega
    · have absent : p ∉ children heap Named brk r := by
        rw [memChildren]
        rintro ⟨_,_,child⟩
        simp only [parentOf,live,Option.bind_some,parent,Option.some.injEq] at child
        exact here child.symm
      rw [Finset.erase_eq_of_notMem absent]
      simp only [bump,if_neg here]
      exact before
  · intro r k found used notHole
    rcases opened with ⟨rfl,rfl⟩ | ⟨done,rfl⟩
    · obtain ⟨name,inTable⟩ := shape.settled r k found used nofun
      refine ⟨name,fun other has => ⟨inTable other has,?_⟩⟩
      rintro rfl
      exact notHole rfl
    · obtain ⟨name,inTable⟩ := shape.settled r k found used notHole
      refine ⟨name,fun other has => ⟨inTable other has,?_⟩⟩
      rintro rfl
      rw [live] at found
      cases found
      exact used done

theorem Shape.clear (shape : Shape heap Named Hashed brk extra hole) (live : heap p = some n)
    (unnamed : ¬ Named p) (plain : p ≠ 0) {hole' : Option Ptr} (closed : hole = hole' ∨ hole = some p) :
    Shape (Function.update heap p (some {n with name := none, parent := none})) Named Hashed brk extra hole' := by
  have entries : ∀ r, Named r →
      entryOf (Function.update heap p (some {n with name := none, parent := none})) r = entryOf heap r :=
    fun r named => entryOther live rfl (fun same => unnamed (same ▸ named))
  have same : ∀ r, children (Function.update heap p (some {n with name := none, parent := none})) Named brk r =
      children heap Named brk r := by
    intro r
    apply childrenCongr
    intro c
    by_cases here : c = p
    · subst here
      simp only [unnamed,false_and]
    · simp only [parentOf,Function.update_of_ne here]
  refine ⟨?_,?_,?_,?_,?_,?_,?_,?_⟩
  · intro r above
    rw [Function.update_of_ne (shape.above live r above)]
    exact shape.fresh r above
  · exact fun r hashed => shape.hashedUpdate _ hashed
  · intro a b j k hashedA hashedB atA atB ids
    exact shape.distinctUpdate live (by rfl) hashedA hashedB atA atB ids
  · intro r named
    rw [entries r named]
    exact shape.named r named
  · intro a b namedA namedB
    rw [entries a namedA,entries b namedB]
    exact shape.apart a b namedA namedB
  · intro r k found
    rw [same]
    rcases atUpdate found with ⟨rfl,rfl⟩ | ⟨_,old⟩
    · exact shape.counted r n live
    · exact shape.counted r k old
  · intro r k found used notHole
    rcases atUpdate found with ⟨rfl,rfl⟩ | ⟨other,old⟩
    · exact ⟨fun _ => rfl,fun _ has => absurd rfl has⟩
    · apply shape.settled r k old used
      rcases closed with h | h <;> rw [h]
      · exact notHole
      · rintro ⟨⟩
        exact other rfl
  · obtain ⟨r,atRoot,id,positive,parent⟩ := shape.root
    exact ⟨r,by rw [Function.update_of_ne (Ne.symm plain)]; exact atRoot,id,positive,parent⟩

theorem Shape.childless (shape : Shape heap Named Hashed brk extra hole) (live : heap p = some n)
    (zero : n.refctr = 0) : n.nlookup = 0 ∧ children heap Named brk p = ∅ ∧ extra p = 0 := by
  have count := shape.counted p n live
  refine ⟨?_,Finset.card_eq_zero.mp (by omega),by omega⟩
  unfold Node.held at count
  split at count <;> omega

theorem Shape.free (shape : Shape heap Named Hashed brk extra hole) (live : heap p = some n)
    (childless : children heap Named brk p = ∅) (unnamed : ¬ Named p) (plain : p ≠ 0) :
    Shape (Function.update heap p none) Named (fun r => Hashed r ∧ r ≠ p) brk extra hole := by
  have at_ : ∀ r k, Function.update heap p none r = some k → r ≠ p ∧ heap r = some k := by
    intro r k found
    by_cases here : r = p
    · rw [here,Function.update_self] at found
      cases found
    · rw [Function.update_of_ne here] at found
      exact ⟨here,found⟩
  have entries : ∀ r, Named r → entryOf (Function.update heap p none) r = entryOf heap r := by
    intro r named
    obtain ⟨⟨i,name⟩,old⟩ := shape.named r named
    obtain ⟨k,c,d,liveR,hasName,parent,alive,id⟩ := entryIff.mp old
    have other : r ≠ p := fun same => unnamed (same ▸ named)
    have dir : c ≠ p := by
      rintro rfl
      have child := shape.child named liveR parent
      rw [childless] at child
      simp at child
    rw [old]
    exact entryIff.mpr ⟨k,c,d,by rw [Function.update_of_ne other]; exact liveR,hasName,parent,
      by rw [Function.update_of_ne dir]; exact alive,id⟩
  have same : ∀ r, children (Function.update heap p none) Named brk r = children heap Named brk r := by
    intro r
    apply childrenCongr
    intro c
    by_cases here : c = p
    · subst here
      simp only [unnamed,false_and]
    · simp only [parentOf,Function.update_of_ne here]
  refine ⟨?_,?_,?_,?_,?_,?_,?_,?_⟩
  · intro r above
    rw [Function.update_of_ne (shape.above live r above)]
    exact shape.fresh r above
  · rintro r ⟨hashed,other⟩
    rw [Function.update_of_ne other]
    exact shape.hashed r hashed
  · intro a b j k hashedA hashedB atA atB
    exact shape.distinct a b j k hashedA.1 hashedB.1 (at_ a j atA).2 (at_ b k atB).2
  · intro r named
    rw [entries r named]
    exact shape.named r named
  · intro a b namedA namedB
    rw [entries a namedA,entries b namedB]
    exact shape.apart a b namedA namedB
  · intro r k found
    rw [same]
    exact shape.counted r k (at_ r k found).2
  · intro r k found
    exact shape.settled r k (at_ r k found).2
  · obtain ⟨r,atRoot,id,positive,parent⟩ := shape.root
    exact ⟨r,by rw [Function.update_of_ne (Ne.symm plain)]; exact atRoot,id,positive,parent⟩

theorem Shape.name {d : Node} {name : Name} (shape : Shape heap Named Hashed brk (bump extra q) hole)
    (live : heap p = some n) (unnamed : ¬ Named p) (plain : p ≠ 0) (dir : heap q = some d)
    (free : ∀ r, Named r → entryOf heap r ≠ some (d.nodeid,name)) :
    Shape (Function.update heap p (some {n with name := some name, parent := some q}))
      (fun r => Named r ∨ r = p) Hashed brk extra hole := by
  have entries : ∀ r, Named r → entryOf
      (Function.update heap p (some {n with name := some name, parent := some q})) r = entryOf heap r :=
    fun r named => entryOther live rfl (fun same => unnamed (same ▸ named))
  have own : entryOf (Function.update heap p (some {n with name := some name, parent := some q})) p =
      some (d.nodeid,name) := by
    apply entryIff.mpr
    by_cases self : q = p
    · subst self
      rw [live] at dir
      cases dir
      exact ⟨_,q,_,Function.update_self ..,rfl,rfl,Function.update_self ..,rfl⟩
    · exact ⟨_,q,d,Function.update_self ..,rfl,rfl,by rw [Function.update_of_ne self]; exact dir,rfl⟩
  refine ⟨?_,?_,?_,?_,?_,?_,?_,?_⟩
  · intro r above
    rw [Function.update_of_ne (shape.above live r above)]
    exact shape.fresh r above
  · exact fun r hashed => shape.hashedUpdate _ hashed
  · intro a b j k hashedA hashedB atA atB ids
    exact shape.distinctUpdate live (by rfl) hashedA hashedB atA atB ids
  · rintro r (named | rfl)
    · rw [entries r named]
      exact shape.named r named
    · exact ⟨_,own⟩
  · rintro a b (namedA | rfl) (namedB | rfl) same
    · rw [entries a namedA,entries b namedB] at same
      exact shape.apart a b namedA namedB same
    · rw [entries a namedA,own] at same
      exact absurd same (free a namedA)
    · rw [entries b namedB,own] at same
      exact absurd same.symm (free b namedB)
    · rfl
  · intro r k found
    have count : k.refctr = k.held + (children heap Named brk r).card + bump extra q r := by
      rcases atUpdate found with ⟨rfl,rfl⟩ | ⟨_,old⟩
      · exact shape.counted r n live
      · exact shape.counted r k old
    have outside : p ∉ children heap Named brk r := fun mem => unnamed (memChildren.mp mem).2.1
    by_cases here : r = q
    · subst here
      have more : children (Function.update heap p (some {n with name := some name, parent := some r}))
          (fun r => Named r ∨ r = p) brk r = Finset.cons p (children heap Named brk r) outside := by
        ext c
        rw [Finset.mem_cons,memChildren,memChildren]
        by_cases self : c = p
        · subst self
          simp [parentOf,shape.lt live]
        · simp [parentOf,self]
      rw [more,Finset.card_cons,count]
      simp only [bump,if_pos]
      omega
    · have same : children (Function.update heap p (some {n with name := some name, parent := some q}))
          (fun r => Named r ∨ r = p) brk r = children heap Named brk r := by
        apply childrenCongr
        intro c
        by_cases self : c = p
        · subst self
          simp [parentOf,unnamed,Ne.symm here]
        · simp [parentOf,self]
      rw [same,count]
      simp only [bump,if_neg here]
  · intro r k found used notHole
    rcases atUpdate found with ⟨rfl,rfl⟩ | ⟨_,old⟩
    · exact ⟨nofun,fun _ _ => .inr rfl⟩
    · obtain ⟨clear,inTable⟩ := shape.settled r k old used notHole
      exact ⟨clear,fun other has => .inl (inTable other has)⟩
  · obtain ⟨r,atRoot,id,positive,parent⟩ := shape.root
    exact ⟨r,by rw [Function.update_of_ne (Ne.symm plain)]; exact atRoot,id,positive,parent⟩

theorem Shape.entryAlloc (shape : Shape heap Named Hashed brk extra hole) (cell : Option Node) {r : Ptr}
    (named : Named r) : entryOf (Function.update heap brk cell) r = entryOf heap r := by
  have keep : ∀ r k, heap r = some k → Function.update heap brk cell r = some k := by
    intro r k live
    rw [Function.update_of_ne (Nat.ne_of_lt (shape.lt live))]
    exact live
  obtain ⟨⟨i,name⟩,old⟩ := shape.named r named
  obtain ⟨k,c,d,liveR,hasName,parent,alive,id⟩ := entryIff.mp old
  rw [old]
  exact entryIff.mpr ⟨k,c,d,keep r k liveR,hasName,parent,keep c d alive,id⟩

theorem Shape.alloc (shape : Shape heap Named Hashed brk extra hole) (cell : Option Node)
    (blank : ∀ m, cell = some m → m.name = none ∧ m.parent = none ∧ m.refctr = m.held + extra brk) :
    Shape (Function.update heap brk cell) Named Hashed (brk + 1) extra hole := by
  have vacant := shape.fresh brk (Nat.le_refl _)
  have other : ∀ r k, heap r = some k → r ≠ brk := by
    rintro r k live rfl
    rw [vacant] at live
    cases live
  have keep : ∀ r k, heap r = some k → Function.update heap brk cell r = some k := by
    intro r k live
    rw [Function.update_of_ne (other r k live)]
    exact live
  have at_ : ∀ r k, Function.update heap brk cell r = some k → (r = brk ∧ cell = some k) ∨ heap r = some k := by
    intro r k found
    by_cases here : r = brk
    · subst here
      rw [Function.update_self] at found
      exact .inl ⟨rfl,found⟩
    · rw [Function.update_of_ne here] at found
      exact .inr found
  have outside : ∀ r, Named r → r ≠ brk := by
    intro r named
    obtain ⟨k,_,_,_,live,_⟩ := shape.namedParent named
    exact other r k live
  have entries : ∀ r, Named r → entryOf (Function.update heap brk cell) r = entryOf heap r :=
    fun r named => shape.entryAlloc cell named
  have same : ∀ r, children (Function.update heap brk cell) Named (brk + 1) r = children heap Named brk r := by
    intro r
    ext c
    rw [memChildren,memChildren]
    constructor
    · rintro ⟨low,named,child⟩
      have old := outside c named
      simp only [parentOf,Function.update_of_ne old] at child
      exact ⟨Nat.lt_of_le_of_ne (Nat.le_of_lt_succ low) old,named,child⟩
    · rintro ⟨low,named,child⟩
      refine ⟨Nat.lt_succ_of_lt low,named,?_⟩
      simp only [parentOf,Function.update_of_ne (outside c named)]
      exact child
  have childless : children heap Named brk brk = ∅ := by
    apply Finset.eq_empty_of_forall_notMem
    intro c mem
    obtain ⟨_,named,child⟩ := memChildren.mp mem
    obtain ⟨k,q,d,_,live,_,parent,alive⟩ := shape.namedParent named
    simp only [parentOf,live,Option.bind_some,parent,Option.some.injEq] at child
    exact other q d alive child
  refine ⟨?_,?_,?_,?_,?_,?_,?_,?_⟩
  · intro r above
    rw [Function.update_of_ne (Nat.ne_of_gt above)]
    exact shape.fresh r (Nat.le_of_succ_le above)
  · intro r hashed
    obtain ⟨k,live⟩ := shape.hashed r hashed
    exact ⟨k,keep r k live⟩
  · intro a b j k hashedA hashedB atA atB
    obtain ⟨_,liveA⟩ := shape.hashed a hashedA
    obtain ⟨_,liveB⟩ := shape.hashed b hashedB
    rw [Function.update_of_ne (other a _ liveA)] at atA
    rw [Function.update_of_ne (other b _ liveB)] at atB
    exact shape.distinct a b j k hashedA hashedB atA atB
  · intro r named
    rw [entries r named]
    exact shape.named r named
  · intro a b namedA namedB
    rw [entries a namedA,entries b namedB]
    exact shape.apart a b namedA namedB
  · intro r k found
    rw [same]
    rcases at_ r k found with ⟨rfl,new⟩ | old
    · rw [childless]
      exact (blank k new).2.2
    · exact shape.counted r k old
  · intro r k found used notHole
    rcases at_ r k found with ⟨rfl,new⟩ | old
    · obtain ⟨name,parent,_⟩ := blank k new
      exact ⟨fun _ => parent,fun _ has => absurd name has⟩
    · exact shape.settled r k old used notHole
  · obtain ⟨r,atRoot,rest⟩ := shape.root
    exact ⟨r,keep 0 r atRoot,rest⟩

theorem Shape.hash (shape : Shape heap Named Hashed brk extra hole) (live : heap p = some n)
    (new : ∀ r k, Hashed r → heap r = some k → k.nodeid ≠ n.nodeid) :
    Shape heap Named (fun r => Hashed r ∨ r = p) brk extra hole :=
  {shape with
    hashed := fun r either => either.elim (shape.hashed r) (fun same => same ▸ ⟨n,live⟩)
    distinct := by
      rintro a b j k (hashedA | rfl) (hashedB | rfl) atA atB ids
      · exact shape.distinct a b j k hashedA hashedB atA atB ids
      · rw [live] at atB
        cases atB
        exact absurd ids (new a j hashedA atA)
      · rw [live] at atA
        cases atA
        exact absurd ids.symm (new b k hashedB atB)
      · rfl}

end FuseStudy.NodeStore
