import FuseStudy.NodeSlabs

/-! Whole runs of the slab allocator. The lists that are read off the memory and the counts are
looked after apart: no write to a cell of one list reaches another list. -/
namespace FuseStudy.NodeSlabs
open ListHeads
open RequestBuffer (Page)

variable {f : Fuse}

/-! Cells that keep clear of one another. -/

def ListCell (f : Fuse) (a : Nat) : Prop := a = f.partialSlabs ∨ a = f.fullSlabs ∨ Placed f a

def FreeCell (f : Fuse) (slab a : Nat) : Prop := a = freelist slab ∨ a ∈ slots f slab

theorem Placed.apart {x y : Nat} (placedX : Placed f x) (placedY : Placed f y) (other : x ≠ y) :
    x + f.page.size ≤ y ∨ y + f.page.size ≤ x := by
  have pos := f.page.one
  have splitX := Nat.div_add_mod x f.page.size
  have splitY := Nat.div_add_mod y f.page.size
  rw [placedX.aligned,Nat.add_zero] at splitX
  rw [placedY.aligned,Nat.add_zero] at splitY
  rcases Nat.lt_trichotomy (x / f.page.size) (y / f.page.size) with less | same | more
  · have grows := Nat.mul_le_mul_left f.page.size (Nat.succ_le_of_lt less)
    rw [Nat.mul_succ] at grows
    omega
  · rw [same] at splitX
    omega
  · have grows := Nat.mul_le_mul_left f.page.size (Nat.succ_le_of_lt more)
    rw [Nat.mul_succ] at grows
    omega

theorem freeCellInside {slab a : Nat} (cell : FreeCell f slab a) :
    slab + sizeofListHead ≤ a ∧ a + sizeofListHead ≤ slab + f.page.size := by
  have large := f.page.large
  have bounds := nodeSizeBounds (f := f)
  unfold sizeofNode at bounds
  unfold sizeofListHead
  rcases cell with rfl | mem
  · unfold freelist sizeofListHead
    omega
  · obtain ⟨behind,inside⟩ := slotOf mem
    unfold sizeofNodeSlab at behind
    omega

theorem listCellsApart {a b : Nat} (cellA : ListCell f a) (cellB : ListCell f b) (other : a ≠ b) : Apart a b := by
  have large := f.page.large
  unfold Apart
  rcases cellA with rfl | rfl | placedA
  · rcases cellB with rfl | rfl | placedB
    · exact absurd rfl other
    · exact .inl (Nat.le_refl _)
    · have outside := placedB.outside
      unfold sizeofListHead at *
      omega
  · unfold Fuse.fullSlabs
    rcases cellB with rfl | rfl | placedB
    · exact .inr (Nat.le_refl _)
    · exact absurd rfl other
    · have outside := placedB.outside
      unfold sizeofListHead at *
      omega
  · rcases cellB with rfl | rfl | placedB
    · have outside := placedA.outside
      unfold sizeofListHead at *
      omega
    · have outside := placedA.outside
      unfold Fuse.fullSlabs sizeofListHead at *
      omega
    · have pages := placedA.apart placedB other
      unfold sizeofListHead
      omega

theorem freeCellList {slab a b : Nat} (placed : Placed f slab) (cellA : FreeCell f slab a)
    (cellB : ListCell f b) : Apart a b := by
  have large := f.page.large
  obtain ⟨behind,inside⟩ := freeCellInside cellA
  have outside := placed.outside
  unfold Apart
  rcases cellB with rfl | rfl | placedB
  · unfold sizeofListHead at *
    omega
  · unfold Fuse.fullSlabs sizeofListHead at *
    omega
  · by_cases same : slab = b
    · rw [← same]
      exact .inr behind
    · have pages := placed.apart placedB same
      unfold sizeofListHead at *
      omega

theorem freeCellsApart {x y a b : Nat} (placedX : Placed f x) (placedY : Placed f y) (other : x ≠ y)
    (cellA : FreeCell f x a) (cellB : FreeCell f y b) : Apart a b := by
  have pages := placedX.apart placedY other
  obtain ⟨behindA,insideA⟩ := freeCellInside cellA
  obtain ⟨behindB,insideB⟩ := freeCellInside cellB
  unfold Apart
  omega

theorem freeCellsPairwise (slab : Nat) : (freelist slab :: slots f slab).Pairwise Apart := by
  have bounds := nodeSizeBounds (f := f)
  unfold sizeofNode at bounds
  refine List.pairwise_cons.mpr ⟨?_,(slotsApart slab).imp ?_⟩
  · intro n mem
    have behind := (slotOf mem).behind
    unfold sizeofNodeSlab at behind
    unfold Apart freelist sizeofListHead
    omega
  · intro a b less
    unfold Apart sizeofListHead
    omega

def Clear (f : Fuse) (node a : Nat) : Prop := a + sizeofListHead ≤ node ∨ node + f.getNodeSize ≤ a

theorem listCellClear {slab node a : Nat} (placed : Placed f slab) (slot : Slot f slab node) (cell : ListCell f a) :
    Clear f node a := by
  obtain ⟨behind,inside⟩ := slot
  have outside := placed.outside
  unfold sizeofNodeSlab at behind
  unfold Clear
  rcases cell with rfl | rfl | placedA
  · unfold sizeofListHead at *
    omega
  · unfold Fuse.fullSlabs sizeofListHead at *
    omega
  · by_cases same : slab = a
    · unfold sizeofListHead
      omega
    · have pages := placed.apart placedA same
      have large := f.page.large
      unfold sizeofListHead
      omega

theorem freeCellClear {x y node a : Nat} (placedX : Placed f x) (placedY : Placed f y) (slot : node ∈ slots f x)
    (cell : FreeCell f y a) (other : a ≠ node) : Clear f node a := by
  have bounds := nodeSizeBounds (f := f)
  unfold sizeofNode at bounds
  obtain ⟨behind,inside⟩ := slotOf slot
  unfold Clear
  by_cases same : x = y
  · subst same
    rcases cell with rfl | mem
    · unfold sizeofNodeSlab at behind
      unfold freelist sizeofListHead
      omega
    · have distant := slotsDistant mem slot other
      unfold Distant at distant
      unfold sizeofListHead
      omega
  · have pages := placedX.apart placedY same
    obtain ⟨behindA,insideA⟩ := freeCellInside cell
    omega

/-! The lists read off the memory. -/

structure Slab where
  page : Nat
  free : List Nat

def Ends (f : Fuse) (head head' : Nat) : Prop :=
  head = f.partialSlabs ∧ head' = f.fullSlabs ∨ head = f.fullSlabs ∧ head' = f.partialSlabs

structure Rings (mem : Memory) (head : Nat) (here : List Slab) (head' : Nat) (there : List Slab) : Prop where
  first : Ring mem head (here.map Slab.page)
  second : Ring mem head' (there.map Slab.page)
  free : ∀ slab ∈ here ++ there, Ring mem (freelist slab.page) slab.free

structure Proper (f : Fuse) (slabs : List Slab) : Prop where
  placed : ∀ slab ∈ slabs, Placed f slab.page
  slots : ∀ slab ∈ slabs, ∀ n ∈ slab.free, n ∈ slots f slab.page
  distinct : (slabs.map Slab.page).Nodup

def Inside (f : Fuse) (node : Nat) (mem mem' : Memory) : Prop :=
  ∀ w, w + 8 ≤ node ∨ node + f.getNodeSize ≤ w → mem' w = mem w

variable {mem mem' : Memory} {here there slabs others before after : List Slab} {cells entries fl : List Nat}
  {head head' page node : Nat} {slab : Slab}

theorem Ends.symm (ends : Ends f head head') : Ends f head' head := by
  unfold Ends at *
  tauto

theorem Ends.cell (ends : Ends f head head') : ListCell f head := by
  rcases ends with ⟨is,-⟩ | ⟨is,-⟩
  · exact .inl is
  · exact .inr (.inl is)

theorem Ends.apart (ends : Ends f head head') : head ≠ head' := by
  unfold Ends Fuse.fullSlabs sizeofListHead at ends
  omega

theorem Ends.notPage (ends : Ends f head head') (placed : Placed f page) : head ≠ page := by
  have outside := placed.outside
  have large := f.page.large
  unfold Ends Fuse.fullSlabs at ends
  unfold sizeofListHead at *
  omega

theorem Proper.perm (proper : Proper f slabs) (order : slabs.Perm others) : Proper f others :=
  ⟨fun slab inside => proper.placed slab (order.mem_iff.mpr inside),fun slab inside =>
    proper.slots slab (order.mem_iff.mpr inside),
    (order.map Slab.page).nodup_iff.mp proper.distinct⟩

theorem Proper.fewer (proper : Proper f (⟨page,node :: fl⟩ :: others)) : Proper f (⟨page,fl⟩ :: others) := by
  refine ⟨?_,?_,proper.distinct⟩
  · intro slab inside
    rcases List.mem_cons.mp inside with rfl | old
    · exact proper.placed ⟨page,node :: fl⟩ List.mem_cons_self
    · exact proper.placed slab (List.mem_cons_of_mem _ old)
  · intro slab inside n free
    rcases List.mem_cons.mp inside with rfl | old
    · exact proper.slots ⟨page,node :: fl⟩ List.mem_cons_self n (List.mem_cons_of_mem node free)
    · exact proper.slots slab (List.mem_cons_of_mem _ old) n free

theorem Proper.cell (proper : Proper f slabs) (inside : slab ∈ slabs) {a : Nat}
    (cell : a ∈ freelist slab.page :: slab.free) :
    FreeCell f slab.page a := by
  rcases List.mem_cons.mp cell with rfl | free
  · exact .inl rfl
  · exact .inr (proper.slots slab inside a free)

theorem Proper.listCell (proper : Proper f (here ++ there)) (ends : Ends f head head') {a : Nat}
    (inside : a ∈ head :: here.map Slab.page) : ListCell f a := by
  rcases List.mem_cons.mp inside with rfl | page
  · exact ends.cell
  · obtain ⟨slab,mem,rfl⟩ := List.mem_map.mp page
    exact .inr (.inr (proper.placed slab (List.mem_append_left there mem)))

theorem Proper.swap (proper : Proper f (here ++ there)) : Proper f (there ++ here) := proper.perm List.perm_append_comm

theorem Proper.listsApart (proper : Proper f (here ++ there)) (ends : Ends f head head') :
    ∀ a ∈ head :: here.map Slab.page,
    ∀ b ∈ head' :: there.map Slab.page, Apart a b := by
  intro a insideA b insideB
  refine listCellsApart (proper.listCell ends insideA) (proper.swap.listCell ends.symm insideB) ?_
  rintro rfl
  have distinct := proper.distinct
  rw [List.map_append] at distinct
  rcases List.mem_cons.mp insideA with rfl | pageA
  · rcases List.mem_cons.mp insideB with same | pageB
    · exact ends.apart same
    · obtain ⟨slab,mem,same⟩ := List.mem_map.mp pageB
      exact ends.notPage (proper.placed slab (List.mem_append_right here mem)) same.symm
  · rcases List.mem_cons.mp insideB with same | pageB
    · obtain ⟨slab,mem,is⟩ := List.mem_map.mp pageA
      exact ends.symm.notPage (proper.placed slab (List.mem_append_left there mem)) (same.symm.trans is.symm)
    · exact List.disjoint_of_nodup_append distinct pageA pageB

/- Writes to the list of free nodes of one slab reach neither list of slabs. -/
theorem listKept (ring : Ring mem head entries) (lists : ∀ a ∈ head :: entries, ListCell f a) (placed : Placed f page)
    (within : Within cells mem mem') (free : ∀ b ∈ cells, FreeCell f page b) : Ring mem' head entries :=
  ring.kept within fun a insideA b insideB => (freeCellList placed (free b insideB) (lists a insideA)).symm

/- Nor that of another slab. -/
theorem otherKept (ring : Ring mem (freelist slab.page) slab.free) (proper : Proper f slabs) (inside : slab ∈ slabs)
    (placed : Placed f page) (other : slab.page ≠ page) (within : Within cells mem mem')
    (free : ∀ b ∈ cells, FreeCell f page b) : Ring mem' (freelist slab.page) slab.free :=
  ring.kept within fun _ insideA b insideB =>
    freeCellsApart (proper.placed slab inside) placed other (proper.cell inside insideA) (free b insideB)

/- Writes to the two lists of slabs reach no list of free nodes. -/
theorem freeKept (ring : Ring mem (freelist slab.page) slab.free) (proper : Proper f slabs) (inside : slab ∈ slabs)
    (within : Within cells mem mem') (lists : ∀ b ∈ cells, ListCell f b) : Ring mem' (freelist slab.page) slab.free :=
  ring.kept within fun _ insideA b insideB => freeCellList (proper.placed slab inside)
    (proper.cell inside insideA) (lists b insideB)

theorem Rings.freed (rings : Rings mem head (before ++ slab :: after) head' there) (ends : Ends f head head')
    (proper : Proper f (before ++ slab :: after ++ there)) (within : Within cells mem mem')
    (free : ∀ b ∈ cells, FreeCell f slab.page b) (ring : Ring mem' (freelist slab.page) fl) :
    Rings mem' head (before ++ ⟨slab.page,fl⟩ :: after) head' there := by
  have mine : slab ∈ before ++ slab :: after ++ there := by simp
  have placed := proper.placed slab mine
  have order : (before ++ slab :: after ++ there).Perm (slab :: (before ++ after ++ there)) := by
    rw [List.append_assoc,List.append_assoc]
    exact List.perm_middle
  have distinct := (proper.perm order).distinct
  refine ⟨?_,listKept rings.second (fun a inside => proper.swap.listCell ends.symm inside) placed within free,?_⟩
  · have same : (before ++ ⟨slab.page,fl⟩ :: after).map Slab.page = (before ++ slab :: after).map Slab.page := by simp
    rw [same]
    exact listKept rings.first (fun a inside => proper.listCell ends inside) placed within free
  · intro other inside
    have order' : (before ++ ⟨slab.page,fl⟩ :: after ++ there).Perm (⟨slab.page,fl⟩ :: (before ++ after ++ there)) := by
      rw [List.append_assoc,List.append_assoc]
      exact List.perm_middle
    rcases List.mem_cons.mp (order'.mem_iff.mp inside) with rfl | old
    · exact ring
    · have there' : other ∈ before ++ slab :: after ++ there := order.mem_iff.mpr (List.mem_cons_of_mem slab old)
      have apart : other.page ≠ slab.page := by
        intro same
        exact (List.nodup_cons.mp distinct).1 (List.mem_map.mpr ⟨other,old,same⟩)
      exact otherKept (rings.free other there') proper there' placed apart within free

theorem Rings.take (rings : Rings mem head (before ++ ⟨page,node :: fl⟩ :: after) head' there)
    (ends : Ends f head head') (proper : Proper f (before ++ ⟨page,node :: fl⟩ :: after ++ there)) :
    Rings (listDel mem node) head (before ++ ⟨page,fl⟩ :: after) head' there := by
  have mine : (⟨page,node :: fl⟩ : Slab) ∈ before ++ ⟨page,node :: fl⟩ :: after ++ there := by simp
  have ring : Ring mem (freelist page) ([] ++ node :: fl) := rings.free _ mine
  obtain ⟨left,within⟩ := ring.del
  refine rings.freed ends proper within ?_ left
  intro b inside
  refine proper.cell mine ?_
  rcases List.mem_cons.mp inside with rfl | free
  · exact List.mem_cons_self
  · exact List.mem_cons_of_mem _ (List.mem_cons_of_mem node free)

theorem Rings.give (rings : Rings mem head (before ++ ⟨page,fl⟩ :: after) head' there) (ends : Ends f head head')
    (proper : Proper f (before ++ ⟨page,fl⟩ :: after ++ there)) (slot : node ∈ slots f page) (spare : node ∉ fl) :
    Rings (listAddHead mem node (freelist page)) head (before ++ ⟨page,node :: fl⟩ :: after) head' there := by
  have mine : (⟨page,fl⟩ : Slab) ∈ before ++ ⟨page,fl⟩ :: after ++ there := by simp
  have ring := rings.free _ mine
  have cells := freeCellsPairwise (f := f) page
  have fresh : ∀ a ∈ freelist page :: fl, Apart node a := by
    intro a inside
    have other : node ≠ a := by
      rintro rfl
      rcases List.mem_cons.mp inside with same | free
      · exact (List.rel_of_pairwise_cons cells slot).words.1 same.symm
      · exact spare free
    have there : a ∈ freelist page :: slots f page := by
      rcases List.mem_cons.mp inside with rfl | free
      · exact List.mem_cons_self
      · exact List.mem_cons_of_mem _ (proper.slots _ mine a free)
    exact cells.forall (List.mem_cons_of_mem _ slot) there other
  refine rings.freed ends proper (ring.addHeadWithin node) ?_ (ring.addHead fresh)
  intro b inside
  rcases List.mem_cons.mp inside with rfl | old
  · exact .inr slot
  · exact proper.cell mine old

theorem Rings.move (rings : Rings mem head (before ++ slab :: after) head' there) (ends : Ends f head head')
    (proper : Proper f (before ++ slab :: after ++ there)) :
    Rings (listAddTail (listDel mem slab.page) slab.page head') head (before ++ after) head' (there ++ [slab]) := by
  have first := rings.first
  have apart := proper.listsApart ends
  rw [List.map_append,List.map_cons] at first apart
  obtain ⟨left,moved,within⟩ := first.transfer rings.second apart
  refine ⟨by rw [List.map_append]; exact left,by rw [List.map_append]; exact moved,?_⟩
  intro other inside
  have there' : other ∈ before ++ slab :: after ++ there := by
    simp only [List.mem_append,List.mem_cons,List.not_mem_nil,or_false] at inside ⊢
    tauto
  refine freeKept (rings.free other there') proper there' within ?_
  intro b cell
  rcases List.mem_append.mp cell with one | two
  · exact proper.listCell ends (by rw [List.map_append,List.map_cons]; exact one)
  · exact proper.swap.listCell ends.symm two

theorem Rings.drop (rings : Rings mem head (before ++ slab :: after) head' there) (ends : Ends f head head')
    (proper : Proper f (before ++ slab :: after ++ there)) :
    Rings (listDel mem slab.page) head (before ++ after) head' there := by
  have first := rings.first
  have apart := proper.listsApart ends
  rw [List.map_append,List.map_cons] at first apart
  obtain ⟨left,within⟩ := first.del
  have part : ∀ a ∈ head :: (before.map Slab.page ++ after.map Slab.page),
      a ∈ head :: (before.map Slab.page ++ slab.page :: after.map Slab.page) := by
    intro a inside
    simp only [List.mem_cons,List.mem_append] at inside ⊢
    tauto
  refine ⟨by rw [List.map_append]; exact left,?_,?_⟩
  · exact rings.second.kept within fun a insideA b insideB => (apart b (part b insideB) a insideA).symm
  · intro other inside
    have there' : other ∈ before ++ slab :: after ++ there := by
      simp only [List.mem_append,List.mem_cons] at inside ⊢
      tauto
    refine freeKept (rings.free other there') proper there' within ?_
    intro b cell
    exact proper.listCell ends (by rw [List.map_append,List.map_cons]; exact part b cell)

theorem Rings.clear (rings : Rings mem head here head' there) (ends : Ends f head head')
    (proper : Proper f (here ++ there)) (placed : Placed f page) (slot : node ∈ slots f page)
    (spared : ∀ slab ∈ here ++ there, node ∉ slab.free) (inside : Inside f node mem mem') :
    Rings mem' head here head' there := by
  refine ⟨rings.first.beside inside ?_,rings.second.beside inside ?_,?_⟩
  · exact fun a mine => listCellClear placed (slotOf slot) (proper.listCell ends mine)
  · exact fun a mine => listCellClear placed (slotOf slot) (proper.swap.listCell ends.symm mine)
  · intro slab mem
    refine (rings.free slab mem).beside inside fun a mine => ?_
    refine freeCellClear placed (proper.placed slab mem) slot (proper.cell mem mine) ?_
    rintro rfl
    rcases List.mem_cons.mp mine with same | free
    · have cell : FreeCell f page a := .inr slot
      by_cases other : slab.page = page
      · have cells := freeCellsPairwise (f := f) page
        rw [← other] at cells
        exact (List.rel_of_pairwise_cons cells (other ▸ slot)).words.1 same.symm
      · exact (freeCellsApart (proper.placed slab mem) placed other (.inl same) cell).words.1 rfl
    · exact spared slab mem free

/-! Slabs with free nodes are on the one list, those without on the other. -/

structure Laid (f : Fuse) (mem : Memory) (parts fulls : List Slab) : Prop extends
    Rings mem f.partialSlabs parts f.fullSlabs fulls where
  roomy : ∀ slab ∈ parts, slab.free ≠ []
  spent : ∀ slab ∈ fulls, slab.free = []

variable {s : State} {parts fulls rest : List Slab}

theorem Rings.symm (rings : Rings mem head here head' there) : Rings mem head' there head here :=
  ⟨rings.second,rings.first,fun slab inside => rings.free slab (List.mem_append.mpr (List.mem_append.mp inside).symm)⟩

theorem partialEnds : Ends f f.partialSlabs f.fullSlabs := .inl ⟨rfl,rfl⟩

theorem zeroedInside (mem : Memory) (node : Nat) : Inside f node mem (zeroed mem node sizeofNode) := by
  intro w outside
  have bounds := nodeSizeBounds (f := f)
  exact if_neg (by omega)

theorem middleFirst (slab : Slab) (before after there : List Slab) :
    (before ++ slab :: after ++ there).Perm (slab :: (before ++ after ++ there)) := by
  rw [List.append_assoc,List.append_assoc]
  exact List.perm_middle

theorem Laid.taken (laid : Laid f s.mem (⟨page,node :: fl⟩ :: rest) fulls)
    (proper : Proper f (⟨page,node :: fl⟩ :: rest ++ fulls)) :
    (takeNode f s).1 = (node,page) ∧ (takeNode f s).2.mapped = s.mapped ∧ (takeNode f s).2.used = (s.add page 1).used ∧
      ∃ parts fulls', Laid f (takeNode f s).2.mem parts fulls' ∧
        (parts ++ fulls').Perm (⟨page,fl⟩ :: (rest ++ fulls)) := by
  have mine : (⟨page,node :: fl⟩ : Slab) ∈ ⟨page,node :: fl⟩ :: rest ++ fulls := List.mem_cons_self
  have slabIs : s.mem f.partialSlabs = page := laid.first.nextHead
  have ring := laid.free _ mine
  have nodeIs : s.mem (freelist page) = node := ring.nextHead
  have slot := proper.slots _ mine node List.mem_cons_self
  have placed := proper.placed _ mine
  have fewer : Proper f (⟨page,fl⟩ :: (rest ++ fulls)) := Proper.fewer proper
  -- the node is on no list any more
  have spared : ∀ slab ∈ (⟨page,fl⟩ :: (rest ++ fulls) : List Slab), node ∉ slab.free := by
    intro slab inside free
    rcases List.mem_cons.mp inside with rfl | old
    · exact (List.rel_of_pairwise_cons (List.pairwise_cons.mp ring.apart).2 free).words.1 rfl
    · have other : slab.page ≠ page := by
        rintro same
        have listed : page ∈ (rest ++ fulls).map Slab.page := List.mem_map.mpr ⟨slab,old,same⟩
        exact (List.nodup_cons.mp fewer.distinct).1 listed
      have there := List.mem_cons_of_mem (⟨page,fl⟩ : Slab) old
      exact (freeCellsApart (fewer.placed slab there) placed other (.inr (fewer.slots slab there node free))
        (.inr slot)).words.1 rfl
  have start : Rings s.mem f.partialSlabs ([] ++ ⟨page,node :: fl⟩ :: rest) f.fullSlabs fulls := laid.toRings
  have took := start.take partialEnds proper
  have empty : listEmpty (listDel s.mem node) (freelist page) = fl.isEmpty := (took.free ⟨page,fl⟩ (by simp)).empty
  have ran : takeNode f s = ((node,page),{s.add page 1 with
      mem := zeroed
        (if fl.isEmpty then listAddTail (listDel (listDel s.mem node) page) page f.fullSlabs else listDel s.mem node)
        node sizeofNode}) := by
    rw [← empty,← nodeIs,← slabIs]
    rfl
  rw [ran]
  refine ⟨rfl,rfl,rfl,?_⟩
  cases fl with
  | nil =>
    have moved := took.move partialEnds fewer
    have order : (rest ++ (fulls ++ [(⟨page,[]⟩ : Slab)])).Perm (⟨page,[]⟩ :: (rest ++ fulls)) := by
      rw [← List.append_assoc]
      exact List.perm_append_singleton _ _
    refine ⟨rest,fulls ++ [⟨page,[]⟩],⟨?_,?_,?_⟩,order⟩
    · exact moved.clear partialEnds (fewer.perm order.symm) placed slot
        (fun slab inside => spared slab (order.mem_iff.mp inside))
        (zeroedInside _ node)
    · exact fun slab inside => laid.roomy slab (List.mem_cons_of_mem _ inside)
    · intro slab inside
      rcases List.mem_append.mp inside with old | new
      · exact laid.spent slab old
      · rw [List.mem_singleton.mp new]
  | cons n fl =>
    refine ⟨⟨page,n :: fl⟩ :: rest,fulls,⟨?_,?_,laid.spent⟩,List.Perm.refl _⟩
    · exact took.clear partialEnds fewer placed slot spared (zeroedInside _ node)
    · intro slab inside
      rcases List.mem_cons.mp inside with rfl | old
      · exact List.cons_ne_nil n fl
      · exact laid.roomy slab (List.mem_cons_of_mem _ old)

theorem slabCases (order : (parts ++ fulls).Perm (slab :: others)) :
    (∃ before after, parts = before ++ slab :: after ∧ (before ++ after ++ fulls).Perm others) ∨
      ∃ before after, fulls = before ++ slab :: after ∧ (parts ++ (before ++ after)).Perm others := by
  have mine : slab ∈ parts ++ fulls := order.mem_iff.mpr List.mem_cons_self
  rcases List.mem_append.mp mine with inParts | inFulls
  · obtain ⟨before,after,rfl⟩ := List.append_of_mem inParts
    exact .inl ⟨before,after,rfl,List.Perm.cons_inv ((middleFirst slab before after fulls).symm.trans order)⟩
  · obtain ⟨before,after,rfl⟩ := List.append_of_mem inFulls
    refine .inr ⟨before,after,rfl,List.Perm.cons_inv (List.Perm.trans ?_ order)⟩
    rw [← List.append_assoc,← List.append_assoc]
    exact List.perm_middle.symm

theorem Laid.given (laid : Laid f mem parts fulls) (proper : Proper f (parts ++ fulls))
    (order : (parts ++ fulls).Perm (⟨page,fl⟩ :: others)) (slot : node ∈ slots f page) (spare : node ∉ fl) :
    ∃ parts' fulls', Laid f (listAddHead (if listEmpty mem (freelist page) then
        listAddTail (listDel mem page) page f.partialSlabs else mem) node (freelist page)) parts' fulls' ∧
      (parts' ++ fulls').Perm (⟨page,node :: fl⟩ :: others) := by
  rw [(laid.free ⟨page,fl⟩ (order.mem_iff.mpr List.mem_cons_self)).empty]
  rcases slabCases order with ⟨before,after,rfl,left⟩ | ⟨before,after,rfl,left⟩
  · have some : fl ≠ [] := laid.roomy ⟨page,fl⟩ (by simp)
    rw [List.isEmpty_eq_false_iff.mpr some]
    refine ⟨before ++ ⟨page,node :: fl⟩ :: after,fulls,
      ⟨laid.toRings.give partialEnds proper slot spare,?_,laid.spent⟩,?_⟩
    · intro slab inside
      rcases List.mem_append.mp inside with old | new
      · exact laid.roomy slab (List.mem_append_left _ old)
      · rcases List.mem_cons.mp new with rfl | old
        · exact List.cons_ne_nil node fl
        · exact laid.roomy slab (List.mem_append_right _ (List.mem_cons_of_mem _ old))
    · exact (middleFirst _ before after fulls).trans (left.cons _)
  · have none : fl = [] := laid.spent ⟨page,fl⟩ (by simp)
    subst none
    simp only [List.isEmpty_nil,if_true]
    have moved := laid.toRings.symm.move partialEnds.symm proper.swap
    have order' : (parts ++ [(⟨page,[]⟩ : Slab)] ++ (before ++ after)).Perm (⟨page,[]⟩ :: others) := by
      rw [List.append_assoc]
      exact List.perm_middle.trans (left.cons _)
    refine ⟨parts ++ [⟨page,[node]⟩],before ++ after,
      ⟨moved.symm.give partialEnds (proper.perm (order.trans order'.symm)) slot spare,?_,?_⟩,?_⟩
    · intro slab inside
      rcases List.mem_append.mp inside with old | new
      · exact laid.roomy slab old
      · rw [List.mem_singleton.mp new]
        exact List.cons_ne_nil node []
    · intro slab inside
      refine laid.spent slab ?_
      simp only [List.mem_append,List.mem_cons] at inside ⊢
      tauto
    · rw [List.append_assoc]
      exact List.perm_middle.trans (left.cons _)

theorem Laid.dropped (laid : Laid f mem parts fulls) (proper : Proper f (parts ++ fulls))
    (order : (parts ++ fulls).Perm (slab :: others)) :
    ∃ parts' fulls', Laid f (listDel mem slab.page) parts' fulls' ∧ (parts' ++ fulls').Perm others := by
  rcases slabCases order with ⟨before,after,rfl,left⟩ | ⟨before,after,rfl,left⟩
  · refine ⟨before ++ after,fulls,⟨laid.toRings.drop partialEnds proper,?_,laid.spent⟩,left⟩
    intro slab inside
    refine laid.roomy slab ?_
    simp only [List.mem_append,List.mem_cons] at inside ⊢
    tauto
  · refine ⟨parts,before ++ after,⟨(laid.toRings.symm.drop partialEnds.symm proper.swap).symm,laid.roomy,?_⟩,left⟩
    intro slab inside
    refine laid.spent slab ?_
    simp only [List.mem_append,List.mem_cons] at inside ⊢
    tauto

theorem Laid.grown (laid : Laid f s.mem [] fulls) (proper : Proper f fulls) (placed : Placed f page)
    (fresh : page ∉ fulls.map Slab.page) :
    ∃ mem', allocSlab f s (some page) = some ⟨mem',Function.update s.used page 0,page :: s.mapped⟩ ∧
      Laid f mem' [⟨page,slots f page⟩] fulls := by
  have cells : (freelist page :: ([] ++ slots f page)).Pairwise Apart := freeCellsPairwise page
  obtain ⟨rings,within⟩ := (initRing (zeroed s.mem page f.page.size) (freelist page)).addTails cells
  have init := initWithin (zeroed s.mem page f.page.size) (freelist page)
  generalize made : (slots f page).foldl (fun mem n => listAddTail mem n (freelist page))
    (initListHead (zeroed s.mem page f.page.size) (freelist page)) = built at *
  -- so far only the new page has been written to
  have only : ∀ w, w + 8 ≤ page ∨ page + f.page.size ≤ w → built w = s.mem w := by
    intro w outside
    have away : ∀ a ∈ freelist page :: ([] ++ slots f page), w ≠ a ∧ w ≠ a + 8 := by
      intro a inside
      have cell : FreeCell f page a := by
        rcases List.mem_cons.mp inside with rfl | slot
        · exact .inl rfl
        · exact .inr slot
      have bounds := freeCellInside cell
      unfold sizeofListHead at bounds
      omega
    rw [within w away,init w (fun a inside => by rw [List.mem_singleton.mp inside]; exact away _ List.mem_cons_self)]
    exact if_neg (by have one := f.page.large; omega)
  have first : Ring built f.partialSlabs [] := by
    refine laid.first.beside only fun a inside => ?_
    rw [List.mem_singleton.mp inside]
    have outside := placed.outside
    unfold sizeofListHead at *
    omega
  have second : Ring built f.fullSlabs (fulls.map Slab.page) := by
    refine laid.second.beside only fun a inside => ?_
    have outside := placed.outside
    rcases List.mem_cons.mp inside with rfl | old
    · unfold Fuse.fullSlabs sizeofListHead at *
      omega
    · obtain ⟨slab,mem,rfl⟩ := List.mem_map.mp old
      have other : slab.page ≠ page := fun same => fresh (same ▸ old)
      have pages := (proper.placed slab mem).apart placed other
      have large := f.page.large
      unfold sizeofListHead
      omega
  have others : ∀ slab ∈ fulls, Ring built (freelist slab.page) slab.free := by
    intro slab mem
    refine (laid.free slab mem).beside only fun a inside => ?_
    have other : slab.page ≠ page := fun same => fresh (List.mem_map.mpr ⟨slab,mem,same⟩)
    have pages := (proper.placed slab mem).apart placed other
    have bounds := freeCellInside (proper.cell mem inside)
    omega
  have listed : ∀ a ∈ f.partialSlabs :: ([] : List Nat), Apart page a := by
    intro a inside
    rw [List.mem_singleton.mp inside]
    exact listCellsApart (.inr (.inr placed)) (.inl rfl) (partialEnds.notPage placed).symm
  have grows := first.addTailWithin page
  have writes : ∀ b ∈ page :: f.partialSlabs :: ([] : List Nat), ListCell f b := by
    intro b inside
    rcases List.mem_cons.mp inside with rfl | head
    · exact .inr (.inr placed)
    · exact .inl (List.mem_singleton.mp head)
  have properNew : Proper f ([⟨page,slots f page⟩] ++ fulls) := by
    refine ⟨?_,?_,List.nodup_cons.mpr ⟨fresh,proper.distinct⟩⟩
    · intro slab inside
      rcases List.mem_cons.mp inside with rfl | old
      · exact placed
      · exact proper.placed slab old
    · intro slab inside n free
      rcases List.mem_cons.mp inside with rfl | old
      · exact free
      · exact proper.slots slab old n free
  refine ⟨listAddTail built page f.partialSlabs,by rw [← made]; rfl,⟨⟨first.addTail listed,?_,?_⟩,?_,laid.spent⟩⟩
  · refine second.kept grows fun a insideA b insideB => ?_
    have swapped : b ∈ f.partialSlabs :: [page] := List.mem_cons.mpr ((List.mem_cons.mp insideB).symm.imp
      List.mem_singleton.mp List.mem_singleton.mpr)
    exact (properNew.listsApart partialEnds b swapped a insideA).symm
  · intro slab inside
    have ring : Ring built (freelist slab.page) slab.free := by
      rcases List.mem_cons.mp inside with rfl | old
      · exact rings
      · exact others slab old
    exact freeKept ring properNew inside grows writes
  · intro slab inside
    rw [List.mem_singleton.mp inside]
    exact slotsNe page

/-! What the counts say, whatever the order of the slabs. -/

structure Accounts (f : Fuse) (used : Nat → Int) (mapped : List Nat) (live : List (Nat × Nat))
    (slabs : List Slab) : Prop where
  shared : ∀ slab ∈ slabs, (slab.free ++ nodesIn live slab.page).Perm (slots f slab.page)
  used : ∀ slab ∈ slabs, used slab.page = (nodesIn live slab.page).length
  pages : (slabs.map Slab.page).Perm mapped
  nodup : mapped.Nodup
  placed : ∀ page ∈ mapped, Placed f page
  owned : ∀ n ∈ live, n.2 ∈ mapped
  apart : live.Pairwise fun a b => Distant f a.1 b.1

variable {used : Nat → Int} {mapped : List Nat} {live : List (Nat × Nat)}

theorem nodesInOwn (live : List (Nat × Nat)) (node slab : Nat) :
    nodesIn ((node,slab) :: live) slab = node :: nodesIn live slab := by
  simp [nodesIn]

theorem nodesInOther {slab other : Nat} (apart : other ≠ slab) (live : List (Nat × Nat)) (node : Nat) :
    nodesIn ((node,slab) :: live) other = nodesIn live other := by
  simp [nodesIn,apart.symm]

theorem nodesInFreed (live : List (Nat × Nat)) (node slab : Nat) :
    nodesIn (live.filter fun n => n.1 ≠ node) slab = (nodesIn live slab).filter (· ≠ node) := by
  simp only [nodesIn,List.filter_map,List.filter_filter]
  congr 1
  refine List.filter_congr fun n _ => ?_
  simp only [Function.comp,Bool.and_comm]

theorem memNodesIn {slab : Nat} : node ∈ nodesIn live slab ↔ (node,slab) ∈ live := by
  simp [nodesIn]

theorem Accounts.perm (accounts : Accounts f used mapped live slabs) (order : slabs.Perm others) :
    Accounts f used mapped live others :=
  ⟨fun slab inside => accounts.shared slab (order.mem_iff.mpr inside),fun slab inside =>
    accounts.used slab (order.mem_iff.mpr inside),
    (order.map Slab.page).symm.trans accounts.pages,accounts.nodup,accounts.placed,accounts.owned,accounts.apart⟩

theorem Accounts.proper (accounts : Accounts f used mapped live slabs) : Proper f slabs := by
  refine ⟨?_,?_,accounts.pages.nodup_iff.mpr accounts.nodup⟩
  · intro slab inside
    exact accounts.placed _ (accounts.pages.mem_iff.mp (List.mem_map_of_mem inside))
  · intro slab inside n free
    exact (accounts.shared slab inside).mem_iff.mp (List.mem_append_left _ free)

theorem slotsNodup (slab : Nat) : (slots f slab).Nodup :=
  (List.pairwise_cons.mp (freeCellsPairwise slab)).2.imp fun apart => apart.words.1

theorem Accounts.slabOf (accounts : Accounts f used mapped live slabs) (owned : page ∈ mapped) :
    ∃ slab ∈ slabs, slab.page = page :=
  List.mem_map.mp (accounts.pages.mem_iff.mpr owned)

theorem Accounts.slot (accounts : Accounts f used mapped live slabs) (mine : (node,page) ∈ live) :
    node ∈ slots f page ∧ Placed f page := by
  have owned := accounts.owned _ mine
  obtain ⟨slab,inside,rfl⟩ := accounts.slabOf owned
  exact ⟨(accounts.shared slab inside).mem_iff.mp (List.mem_append_right _ (memNodesIn.mpr mine)),
    accounts.placed _ owned⟩

theorem Accounts.notFree (accounts : Accounts f used mapped live slabs) (inside : slab ∈ slabs)
    (mine : (node,slab.page) ∈ live) :
    node ∉ slab.free := by
  have nodup := (accounts.shared slab inside).nodup_iff.mpr (slotsNodup slab.page)
  exact fun free => List.disjoint_of_nodup_append nodup free (memNodesIn.mpr mine)

theorem distinctSlots {x y a b : Nat} (placedX : Placed f x) (placedY : Placed f y) (other : x ≠ y)
    (slotX : a ∈ slots f x) (slotY : b ∈ slots f y) : Distant f a b := by
  have pages := placedX.apart placedY other
  obtain ⟨behindA,insideA⟩ := slotOf slotX
  obtain ⟨behindB,insideB⟩ := slotOf slotY
  unfold Distant
  omega

theorem Distant.ne {a b : Nat} (distant : Distant f a b) : a ≠ b := by
  have bounds := nodeSizeBounds (f := f)
  unfold Distant at distant
  unfold sizeofNode at bounds
  omega

theorem Accounts.grown (accounts : Accounts f used mapped live slabs) (placed : Placed f page) (fresh : page ∉ mapped) :
    Accounts f (Function.update used page 0) (page :: mapped) live (⟨page,slots f page⟩ :: slabs) := by
  have unused : nodesIn live page = [] := by
    refine List.eq_nil_iff_forall_not_mem.mpr fun node mine => ?_
    exact fresh (accounts.owned _ (memNodesIn.mp mine))
  refine ⟨?_,?_,accounts.pages.cons page,List.nodup_cons.mpr ⟨fresh,accounts.nodup⟩,?_,?_,accounts.apart⟩
  · intro slab inside
    rcases List.mem_cons.mp inside with rfl | old
    · rw [unused,List.append_nil]
    · exact accounts.shared slab old
  · intro slab inside
    rcases List.mem_cons.mp inside with rfl | old
    · rw [unused,Function.update_self]
      rfl
    · have other : slab.page ≠ page := by
        rintro same
        exact fresh (accounts.pages.mem_iff.mp (same ▸ List.mem_map_of_mem old))
      rw [Function.update_of_ne other]
      exact accounts.used slab old
  · intro other inside
    rcases List.mem_cons.mp inside with rfl | old
    · exact placed
    · exact accounts.placed other old
  · exact fun n mine => List.mem_cons_of_mem page (accounts.owned n mine)

theorem Accounts.otherPage (accounts : Accounts f used mapped live (⟨page,fl⟩ :: others)) (inside : slab ∈ others) :
    slab.page ≠ page := by
  have distinct := accounts.proper.distinct
  rintro same
  exact (List.nodup_cons.mp distinct).1 (List.mem_map.mpr ⟨slab,inside,same⟩)

theorem Accounts.taken (accounts : Accounts f used mapped live (⟨page,node :: fl⟩ :: others)) :
    Accounts f (Function.update used page (used page + 1)) mapped ((node,page) :: live) (⟨page,fl⟩ :: others) := by
  have mine : (⟨page,node :: fl⟩ : Slab) ∈ ⟨page,node :: fl⟩ :: others := List.mem_cons_self
  have owned : page ∈ mapped := accounts.pages.mem_iff.mp List.mem_cons_self
  have slot : node ∈ slots f page := accounts.proper.slots _ mine node List.mem_cons_self
  refine ⟨?_,?_,accounts.pages,accounts.nodup,accounts.placed,?_,List.pairwise_cons.mpr ⟨?_,accounts.apart⟩⟩
  · intro slab inside
    rcases List.mem_cons.mp inside with rfl | old
    · rw [nodesInOwn]
      exact List.perm_middle.trans (accounts.shared _ mine)
    · rw [nodesInOther (accounts.otherPage old)]
      exact accounts.shared slab (List.mem_cons_of_mem _ old)
  · intro slab inside
    rcases List.mem_cons.mp inside with rfl | old
    · rw [nodesInOwn,Function.update_self,accounts.used _ mine,List.length_cons]
      rfl
    · rw [nodesInOther (accounts.otherPage old),Function.update_of_ne (accounts.otherPage old)]
      exact accounts.used slab (List.mem_cons_of_mem _ old)
  · intro n inside
    rcases List.mem_cons.mp inside with rfl | old
    · exact owned
    · exact accounts.owned n old
  · rintro ⟨other,slab⟩ old
    obtain ⟨slot',placed'⟩ := accounts.slot old
    by_cases same : slab = page
    · subst same
      refine slotsDistant slot slot' ?_
      rintro rfl
      exact accounts.notFree mine old List.mem_cons_self
    · exact distinctSlots (accounts.placed page owned) placed' (Ne.symm same) slot slot'

theorem Accounts.freedHere (accounts : Accounts f used mapped live slabs) (mine : (node,page) ∈ live) :
    (node :: nodesIn (live.filter fun n => n.1 ≠ node) page).Perm (nodesIn live page) := by
  obtain ⟨slab,inside,rfl⟩ := accounts.slabOf (accounts.owned _ mine)
  have nodup := (List.nodup_append.mp ((accounts.shared slab inside).nodup_iff.mpr (slotsNodup slab.page))).2.1
  have erased : (nodesIn live slab.page).erase node = (nodesIn live slab.page).filter (· ≠ node) := by
    rw [nodup.erase_eq_filter]
    exact List.filter_congr fun n _ => by by_cases same : n = node <;> simp [same]
  rw [nodesInFreed,← erased]
  exact (List.perm_cons_erase (memNodesIn.mpr mine)).symm

theorem Accounts.freedThere (accounts : Accounts f used mapped live slabs) (mine : (node,page) ∈ live) {other : Nat}
    (apart : other ≠ page) : nodesIn (live.filter fun n => n.1 ≠ node) other = nodesIn live other := by
  obtain ⟨slot,placed⟩ := accounts.slot mine
  rw [nodesInFreed]
  refine List.filter_eq_self.mpr fun n inside => ?_
  obtain ⟨slot',placed'⟩ := accounts.slot (memNodesIn.mp inside)
  exact decide_eq_true (distinctSlots placed' placed apart slot' slot).ne

theorem Accounts.given (accounts : Accounts f used mapped live (⟨page,fl⟩ :: others)) (mine : (node,page) ∈ live) :
    Accounts f (Function.update used page (used page + -1)) mapped (live.filter fun n => n.1 ≠ node)
      (⟨page,node :: fl⟩ :: others) := by
  have here : (⟨page,fl⟩ : Slab) ∈ ⟨page,fl⟩ :: others := List.mem_cons_self
  have left := accounts.freedHere mine
  refine ⟨?_,?_,accounts.pages,accounts.nodup,accounts.placed,fun n inside =>
    accounts.owned n (List.mem_of_mem_filter inside),
    accounts.apart.filter _⟩
  · intro slab inside
    rcases List.mem_cons.mp inside with rfl | old
    · exact (List.perm_middle.symm.trans (left.append_left fl)).trans (accounts.shared _ here)
    · rw [accounts.freedThere mine (accounts.otherPage old)]
      exact accounts.shared slab (List.mem_cons_of_mem _ old)
  · intro slab inside
    rcases List.mem_cons.mp inside with rfl | old
    · have count := left.length_eq
      rw [List.length_cons] at count
      rw [Function.update_self,accounts.used _ here,← count]
      simp only
      omega
    · rw [accounts.freedThere mine (accounts.otherPage old),Function.update_of_ne (accounts.otherPage old)]
      exact accounts.used slab (List.mem_cons_of_mem _ old)

theorem Accounts.dropped (accounts : Accounts f used mapped live (⟨page,fl⟩ :: others))
    (only : nodesIn live page = [node]) :
    Accounts f (Function.update used page (used page + -1)) (mapped.erase page)
      (live.filter fun n => n.1 ≠ node) others := by
  have mine : (node,page) ∈ live := memNodesIn.mp (only ▸ List.mem_singleton_self node)
  have owned := accounts.owned _ mine
  refine ⟨?_,?_,?_,accounts.nodup.erase page,fun other inside =>
    accounts.placed other (List.mem_of_mem_erase inside),?_,
    accounts.apart.filter _⟩
  · intro slab inside
    rw [accounts.freedThere mine (accounts.otherPage inside)]
    exact accounts.shared slab (List.mem_cons_of_mem _ inside)
  · intro slab inside
    rw [accounts.freedThere mine (accounts.otherPage inside),Function.update_of_ne (accounts.otherPage inside)]
    exact accounts.used slab (List.mem_cons_of_mem _ inside)
  · exact List.Perm.cons_inv (accounts.pages.trans (List.perm_cons_erase owned))
  · intro n inside
    obtain ⟨old,other⟩ := List.mem_filter.mp inside
    refine (List.mem_erase_of_ne ?_).mpr (accounts.owned n old)
    intro same
    have here : n.1 ∈ nodesIn live page := memNodesIn.mpr (same ▸ old)
    rw [only] at here
    exact of_decide_eq_true other (List.mem_singleton.mp here)

/-! Runs. -/

/- No slab is kept for nothing. -/
def Sound (f : Fuse) (t : Session) : Prop :=
  ∃ parts fulls, Laid f t.mem parts fulls ∧ Accounts f t.used t.mapped t.live (parts ++ fulls) ∧
    ∀ slab ∈ parts ++ fulls, nodesIn t.live slab.page ≠ []

variable {t : Session}

theorem startSound (mem : Memory) (used : Nat → Int) : Sound f (Session.start f mem used) := by
  have apart : Apart f.partialSlabs f.fullSlabs :=
    listCellsApart partialEnds.cell partialEnds.symm.cell partialEnds.apart
  have first : Ring (Session.start f mem used).mem f.partialSlabs [] :=
    (initRing mem f.partialSlabs).kept (initWithin _ f.fullSlabs) fun a insideA b insideB => by
      rw [List.mem_singleton.mp insideA,List.mem_singleton.mp insideB]
      exact apart
  have second : Ring (Session.start f mem used).mem f.fullSlabs [] := initRing _ f.fullSlabs
  exact ⟨[],[],⟨⟨first,second,nofun⟩,nofun,nofun⟩,⟨nofun,nofun,List.Perm.refl [],List.nodup_nil,nofun,nofun,.nil⟩,nofun⟩

theorem takeSound (laid : Laid f s.mem (slab :: rest) fulls)
    (accounts : Accounts f s.used s.mapped live (slab :: rest ++ fulls))
    (busy : ∀ other ∈ rest ++ fulls, nodesIn live other.page ≠ []) :
    Sound f ⟨(takeNode f s).2,(takeNode f s).1 :: live⟩ ∧ (takeNode f s).2.mapped = s.mapped := by
  obtain ⟨page,free⟩ := slab
  cases free with
  | nil => exact absurd rfl (laid.roomy _ List.mem_cons_self)
  | cons node fl =>
    obtain ⟨taken,mapped,used,parts,fulls',laid',order⟩ := laid.taken accounts.proper
    have accounts' := accounts.taken.perm order.symm
    refine ⟨⟨parts,fulls',laid',?_,?_⟩,mapped⟩
    · rw [taken,mapped,used]
      exact accounts'
    · intro other inside
      rw [taken]
      rcases List.mem_cons.mp (order.mem_iff.mp inside) with rfl | old
      · rw [nodesInOwn]
        exact List.cons_ne_nil _ _
      · rw [nodesInOther (accounts.taken.otherPage old)]
        exact busy other old

theorem allocSound {mmap : Option Nat} (sound : Sound f t) (allowed : t.allowed f (.allocNode mmap) = true) :
    Sound f (t.call f (.allocNode mmap)) ∧ ∀ slab ∈ t.mapped, slab ∈ (t.call f (.allocNode mmap)).mapped := by
  obtain ⟨parts,fulls,laid,accounts,busy⟩ := sound
  have empty := laid.first.empty
  cases parts with
  | cons slab rest =>
    have some : listEmpty t.mem f.partialSlabs = false := empty
    simp only [Session.call,allocNode,some,Bool.false_eq_true,if_false]
    obtain ⟨taken,mapped⟩ := takeSound laid accounts fun other inside => busy other (List.mem_cons_of_mem slab inside)
    exact ⟨taken,fun slab inside => mapped ▸ inside⟩
  | nil =>
    have none : listEmpty t.mem f.partialSlabs = true := empty
    cases mmap with
    | none =>
      simp only [Session.call,allocNode,none,if_true,allocSlab]
      exact ⟨⟨[],fulls,laid,accounts,busy⟩,fun slab inside => inside⟩
    | some page =>
      obtain ⟨placed,fresh⟩ := of_decide_eq_true allowed
      obtain ⟨mem',grew,laid'⟩ := laid.grown accounts.proper placed fun listed =>
        fresh (accounts.pages.mem_iff.mp listed)
      simp only [Session.call,allocNode,none,if_true,grew]
      obtain ⟨taken,mapped⟩ := takeSound (s := ⟨mem',_,_⟩) laid' (accounts.grown placed fresh) busy
      exact ⟨taken,fun slab inside => mapped ▸ List.mem_cons_of_mem page inside⟩

theorem freeSound (sound : Sound f t) (mine : (node,page) ∈ t.live) : Sound f (t.call f (.freeNodeMem node)) ∧
    (t.call f (.freeNodeMem node)).mapped = if nodesIn t.live page = [node] then t.mapped.erase page else t.mapped := by
  obtain ⟨parts,fulls,laid,accounts,busy⟩ := sound
  obtain ⟨slot,placed⟩ := accounts.slot mine
  have slabIs := nodeToSlabOf placed (slotOf slot)
  obtain ⟨slab,inside,is⟩ := accounts.slabOf (accounts.owned _ mine)
  obtain ⟨before,after,split⟩ := List.append_of_mem inside
  have order : (parts ++ fulls).Perm (⟨page,slab.free⟩ :: (before ++ after)) := by
    have own : slab.page = page := is
    rw [split,← own]
    exact List.perm_middle
  have accounts' := accounts.perm order
  have left := accounts.freedHere mine
  have counted := accounts'.used _ List.mem_cons_self
  have rests : ∀ other ∈ before ++ after, nodesIn (t.live.filter fun n => n.1 ≠ node) other.page ≠ [] := by
    intro other old
    rw [accounts.freedThere mine (accounts'.otherPage old)]
    exact busy other (order.mem_iff.mpr (List.mem_cons_of_mem _ old))
  have after' : (t.toState.add page (-1)).used page = (nodesIn (t.live.filter fun n => n.1 ≠ node) page).length := by
    have count := left.length_eq
    rw [List.length_cons] at count
    simp only [State.add,Function.update_self]
    simp only at counted
    omega
  unfold Session.call freeNodeMem
  simp only [slabIs]
  by_cases only : nodesIn t.live page = [node]
  · have none : nodesIn (t.live.filter fun n => n.1 ≠ node) page = [] := by
      rw [only] at left
      exact List.perm_nil.mp (List.Perm.cons_inv left)
    rw [none] at after'
    rw [if_neg (fun some => some after'),if_pos only]
    obtain ⟨parts',fulls',laid',order'⟩ := laid.dropped accounts.proper order
    refine ⟨⟨parts',fulls',laid',(accounts'.dropped only).perm order'.symm,?_⟩,rfl⟩
    exact fun other old => rests other (order'.mem_iff.mp old)
  · have some : nodesIn (t.live.filter fun n => n.1 ≠ node) page ≠ [] := by
      intro none
      rw [none] at left
      exact only (List.perm_singleton.mp left.symm)
    have used : (t.toState.add page (-1)).used page ≠ 0 := by
      rw [after']
      have pos := List.length_pos_iff.mpr some
      omega
    rw [if_pos used,if_neg only]
    have spare : node ∉ (⟨page,slab.free⟩ : Slab).free := accounts'.notFree List.mem_cons_self mine
    obtain ⟨parts',fulls',laid',order'⟩ := laid.given accounts.proper order slot spare
    refine ⟨⟨parts',fulls',laid',(accounts'.given mine).perm order'.symm,?_⟩,rfl⟩
    intro other old
    rcases List.mem_cons.mp (order'.mem_iff.mp old) with rfl | old
    · exact some
    · exact rests other old

theorem writeSound {address word : Nat} (sound : Sound f t) (allowed : t.allowed f (.write address word) = true) :
    Sound f (t.call f (.write address word)) := by
  obtain ⟨parts,fulls,laid,accounts,busy⟩ := sound
  obtain ⟨⟨node,page⟩,mine,within⟩ := List.any_eq_true.mp allowed
  simp only [Bool.and_eq_true,decide_eq_true_eq] at within
  obtain ⟨slot,placed⟩ := accounts.slot mine
  have inside : Inside f node t.mem (Function.update t.mem address word) := by
    intro w outside
    exact Function.update_of_ne (by omega) ..
  have spared : ∀ slab ∈ parts ++ fulls, node ∉ slab.free := by
    intro slab mem
    by_cases same : slab.page = page
    · subst same
      exact accounts.notFree mem mine
    · intro free
      exact (distinctSlots (accounts.proper.placed slab mem) placed same
        (accounts.proper.slots slab mem node free) slot).ne rfl
  exact ⟨parts,fulls,
    ⟨laid.toRings.clear partialEnds accounts.proper placed slot spared inside,laid.roomy,laid.spent⟩,accounts,busy⟩

theorem callSound (sound : Sound f t) (call : Call) (allowed : t.allowed f call = true) : Sound f (t.call f call) := by
  cases call with
  | allocNode mmap => exact (allocSound sound allowed).1
  | freeNodeMem node =>
    obtain ⟨⟨_,page⟩,mine,rfl⟩ := List.mem_map.mp (of_decide_eq_true allowed)
    exact (freeSound sound mine).1
  | write address word => exact writeSound sound allowed

theorem callsSound (l : List Call) (sound : Sound f t) (legal : t.legal f l = true) : Sound f (t.calls f l) := by
  induction l generalizing t with
  | nil => exact sound
  | cons call l ih =>
    simp only [Session.legal,Bool.and_eq_true] at legal
    exact ih (callSound sound call legal.1) legal.2

/- What the allocator owes: places for the nodes, the slabs on the right list and the right counts. -/
structure Holds (f : Fuse) (t : Session) : Prop where
  inside : ∀ n ∈ t.live, n.2 ∈ t.mapped ∧ n.2 + sizeofNodeSlab ≤ n.1 ∧ n.1 + f.getNodeSize ≤ n.2 + f.page.size
  disjoint : t.live.Pairwise fun a b => Distant f a.1 b.1
  slabOf : ∀ n ∈ t.live, nodeToSlab f n.1 = n.2
  lists : ∃ partials fulls, Ring t.mem f.partialSlabs partials ∧ Ring t.mem f.fullSlabs fulls ∧
    (partials ++ fulls).Perm t.mapped ∧
    ∀ slab ∈ t.mapped, ∃ free, Ring t.mem (freelist slab) free ∧ (slab ∈ partials ↔ free ≠ [])
  once : t.mapped.Nodup
  counts : ∀ slab ∈ t.mapped, t.used slab = (nodesIn t.live slab).length ∧ 1 ≤ t.used slab
  -- the two assertions of fuse_destroy
  destroyed : t.live = [] → t.mapped = [] ∧ listEmpty t.mem f.partialSlabs = true ∧ listEmpty t.mem f.fullSlabs = true

theorem Sound.holds (sound : Sound f t) : Holds f t := by
  obtain ⟨parts,fulls,laid,accounts,busy⟩ := sound
  refine ⟨?_,accounts.apart,?_,⟨parts.map Slab.page,fulls.map Slab.page,laid.first,laid.second,?_,?_⟩,
    accounts.nodup,?_,?_⟩
  · rintro ⟨node,page⟩ mine
    obtain ⟨slot,-⟩ := accounts.slot mine
    exact ⟨accounts.owned _ mine,(slotOf slot).behind,(slotOf slot).inside⟩
  · rintro ⟨node,page⟩ mine
    obtain ⟨slot,placed⟩ := accounts.slot mine
    exact nodeToSlabOf placed (slotOf slot)
  · rw [← List.map_append]
    exact accounts.pages
  · intro page owned
    obtain ⟨slab,inside,rfl⟩ := accounts.slabOf owned
    refine ⟨slab.free,laid.free slab inside,?_⟩
    rcases List.mem_append.mp inside with inParts | inFulls
    · exact ⟨fun _ => laid.roomy slab inParts,fun _ => List.mem_map_of_mem inParts⟩
    · refine ⟨fun listed => ?_,fun some => absurd (laid.spent slab inFulls) some⟩
      have distinct := accounts.proper.distinct
      rw [List.map_append] at distinct
      exact absurd (List.mem_map_of_mem inFulls) (List.disjoint_of_nodup_append distinct listed)
  · intro page owned
    obtain ⟨slab,inside,rfl⟩ := accounts.slabOf owned
    have pos := List.length_pos_iff.mpr (busy slab inside)
    have used := accounts.used slab inside
    exact ⟨used,by omega⟩
  · intro none
    have idle : ∀ slab ∈ parts ++ fulls, False := fun slab inside => busy slab inside (by rw [none]; rfl)
    have nothing : parts ++ fulls = [] := List.eq_nil_iff_forall_not_mem.mpr idle
    obtain ⟨noParts,noFulls⟩ := List.append_eq_nil_iff.mp nothing
    have pages := accounts.pages
    rw [nothing] at pages
    subst noParts noFulls
    exact ⟨List.nil_perm.mp pages,laid.first.empty,laid.second.empty⟩

theorem Sound.unmaps (sound : Sound f t) {call : Call} (allowed : t.allowed f call = true) {slab : Nat}
    (mapped : slab ∈ t.mapped) :
    slab ∉ (t.call f call).mapped ↔ ∃ node, call = .freeNodeMem node ∧ nodesIn t.live slab = [node] := by
  cases call with
  | allocNode mmap =>
    refine ⟨fun gone => absurd ((allocSound sound allowed).2 slab mapped) gone,?_⟩
    rintro ⟨_,no,_⟩
    cases no
  | write address word =>
    refine ⟨fun gone => absurd mapped gone,?_⟩
    rintro ⟨_,no,_⟩
    cases no
  | freeNodeMem node =>
    obtain ⟨⟨own,page⟩,mine,is⟩ := List.mem_map.mp (of_decide_eq_true allowed)
    have mine : (node,page) ∈ t.live := is ▸ mine
    have holds := sound.holds
    rw [(freeSound sound mine).2]
    have same : nodesIn t.live slab = [node] → slab = page := by
      intro only
      have listed : (node,slab) ∈ t.live := memNodesIn.mp (only ▸ List.mem_singleton_self node)
      exact (holds.slabOf _ listed).symm.trans (holds.slabOf _ mine)
    constructor
    · intro gone
      split at gone
      · rename_i only
        by_cases is : slab = page
        · exact ⟨node,rfl,is ▸ only⟩
        · exact absurd ((List.mem_erase_of_ne is).mpr mapped) gone
      · exact absurd mapped gone
    · rintro ⟨other,call,only⟩
      cases call
      obtain rfl := same only
      rw [if_pos only]
      exact holds.once.not_mem_erase

/- Whatever order nodes are allocated and freed in, and whenever mmap fails. -/
theorem slabsHold (f : Fuse) (mem : Memory) (used : Nat → Int) (l : List Call)
    (legal : (Session.start f mem used).legal f l = true) :
    Holds f ((Session.start f mem used).calls f l) ∧
      ∀ call, ((Session.start f mem used).calls f l).allowed f call = true →
        ∀ slab ∈ ((Session.start f mem used).calls f l).mapped,
          (slab ∉ (((Session.start f mem used).calls f l).call f call).mapped ↔
            ∃ node, call = .freeNodeMem node ∧ nodesIn ((Session.start f mem used).calls f l).live slab = [node]) := by
  have sound := callsSound l (startSound mem used) legal
  exact ⟨sound.holds,fun call allowed slab mapped => sound.unmaps allowed mapped⟩

/- Pages of 4096 bytes; two nodes are allocated, the first is written to and freed, mmap fails for
a third that the slab still has room for, and both are freed. -/
def smallPages : Fuse := ⟨⟨12,by decide,by decide⟩,false,64⟩

def threeNodes : List Call :=
  [.allocNode (some 8192),.allocNode none,.write 8344 7,.freeNodeMem 8336,.allocNode none,.freeNodeMem 8488,
    .freeNodeMem 8336]

theorem threeNodesHold : (Session.start smallPages (fun _ => 0) fun _ => 0).legal smallPages threeNodes = true ∧
    Holds smallPages ((Session.start smallPages (fun _ => 0) fun _ => 0).calls smallPages threeNodes) := by
  have legal : (Session.start smallPages (fun _ => 0) fun _ => 0).legal smallPages threeNodes = true := by
    decide +kernel
  exact ⟨legal,(slabsHold smallPages (fun _ => 0) (fun _ => 0) threeNodes legal).1⟩

end FuseStudy.NodeSlabs
