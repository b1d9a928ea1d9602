import FuseStudy.ListHeads
import FuseStudy.RequestBuffer

/-! The slab allocator for nodes of lib/fuse.c: pages of nodes, with a list of the free ones
threaded through them, on two lists of struct fuse. -/
namespace FuseStudy.NodeSlabs
open ListHeads
open RequestBuffer (Page)

/-! The sizes are those of a 64 bit system. -/

def sizeofNode : Nat := 152

def sizeofNodeLru : Nat := 184

def sizeofNodeSlab : Nat := 40

def freelist (slab : Nat) : Nat := slab + sizeofListHead

structure Fuse where
  page : Page
  lruEnabled : Bool
  -- where the member is; full_slabs comes right behind it
  partialSlabs : Nat

variable (f : Fuse)

def Fuse.fullSlabs : Nat := f.partialSlabs + sizeofListHead

def Fuse.getNodeSize : Nat := if f.lruEnabled then sizeofNodeLru else sizeofNode

/- The counter of a slab has its own place in the header. -/
structure State where
  mem : Memory
  used : Nat → Int
  mapped : List Nat

def State.add (s : State) (slab : Nat) (n : Int) : State :=
  {s with used := Function.update s.used slab (s.used slab + n)}

def zeroed (mem : Memory) (start size : Nat) : Memory := fun w => if start ≤ w ∧ w < start + size then 0 else mem w

def nodeToSlab (node : Nat) : Nat := (BitVec.ofNat 64 node &&& ~~~(f.page.pagesize - 1)).toNat

def Fuse.num : Nat := (f.page.size - sizeofNodeSlab) / f.getNodeSize

def slots (slab : Nat) : List Nat :=
  let start := slab + f.page.size - f.num * f.getNodeSize
  (List.range f.num).map fun i => start + i * f.getNodeSize

/- `mmap` is what mmap returns, if it does not fail. -/
def allocSlab (s : State) (mmap : Option Nat) : Option State :=
  match mmap with
  | none => none
  | some slab =>
    let mem := initListHead (zeroed s.mem slab f.page.size) (freelist slab)
    let mem := (slots f slab).foldl (fun mem n => listAddTail mem n (freelist slab)) mem
    some ⟨listAddTail mem slab f.partialSlabs,Function.update s.used slab 0,slab :: s.mapped⟩

/- The second half of alloc_node: the node, the slab that it is taken from and the state. -/
def takeNode (s : State) : (Nat × Nat) × State :=
  let slab := s.mem f.partialSlabs
  let s := s.add slab 1
  let node := s.mem (freelist slab)
  let mem := listDel s.mem node
  let mem := if listEmpty mem (freelist slab) then listAddTail (listDel mem slab) slab f.fullSlabs else mem
  ((node,slab),{s with mem := zeroed mem node sizeofNode})

def allocNode (s : State) (mmap : Option Nat) : Option (Nat × Nat) × State :=
  if listEmpty s.mem f.partialSlabs then
    match allocSlab f s mmap with
    | none => (none,s)
    | some s => ((takeNode f s).1,(takeNode f s).2)
  else ((takeNode f s).1,(takeNode f s).2)

/- munmap of a page that mmap gave does not fail. -/
def freeSlab (s : State) (slab : Nat) : State := {s with mem := listDel s.mem slab, mapped := s.mapped.erase slab}

def freeNodeMem (s : State) (node : Nat) : State :=
  let slab := nodeToSlab f node
  let s := s.add slab (-1)
  if s.used slab ≠ 0 then
    let mem := if listEmpty s.mem (freelist slab) then listAddTail (listDel s.mem slab) slab f.partialSlabs else s.mem
    {s with mem := listAddHead mem node (freelist slab)}
  else freeSlab s slab

inductive Call
  | allocNode (mmap : Option Nat)
  | freeNodeMem (node : Nat)
  -- the owner of a node writes to it
  | write (address word : Nat)
  deriving DecidableEq, Repr

/- `live` are the nodes handed out and not yet freed, each with the slab it came from. -/
structure Session extends State where
  live : List (Nat × Nat)

def Session.start (mem : Memory) (used : Nat → Int) : Session :=
  ⟨⟨initListHead (initListHead mem f.partialSlabs) f.fullSlabs,used,[]⟩,[]⟩

def Session.call (t : Session) : Call → Session
  | .allocNode mmap =>
    match allocNode f t.toState mmap with
    | (none,s) => ⟨s,t.live⟩
    | (some taken,s) => ⟨s,taken :: t.live⟩
  | .freeNodeMem node => ⟨freeNodeMem f t.toState node,t.live.filter fun n => n.1 ≠ node⟩
  | .write address word => {t with mem := Function.update t.mem address word}

/- What mmap promises of the page it returns: it is aligned and lies in nothing that is in
use, neither a page that is mapped nor struct fuse. -/
structure Placed (slab : Nat) : Prop where
  aligned : slab % f.page.size = 0
  fits : slab + f.page.size ≤ 2 ^ 64
  outside : f.partialSlabs + 2 * sizeofListHead ≤ slab ∨ slab + f.page.size ≤ f.partialSlabs

instance (slab : Nat) : Decidable (Placed f slab) :=
  decidable_of_iff (slab % f.page.size = 0 ∧ slab + f.page.size ≤ 2 ^ 64 ∧
    (f.partialSlabs + 2 * sizeofListHead ≤ slab ∨ slab + f.page.size ≤ f.partialSlabs))
    ⟨fun h => ⟨h.1,h.2.1,h.2.2⟩,fun h => ⟨h.aligned,h.fits,h.outside⟩⟩

/- mmap keeps its promise, only live nodes are freed and only live nodes are written to. -/
def Session.allowed (t : Session) : Call → Bool
  | .allocNode none => true
  | .allocNode (some slab) => decide (Placed f slab ∧ slab ∉ t.mapped)
  | .freeNodeMem node => decide (node ∈ t.live.map Prod.fst)
  | .write address _ => t.live.any fun n => n.1 ≤ address && address + 8 ≤ n.1 + f.getNodeSize

def Session.calls (t : Session) (l : List Call) : Session := l.foldl (Session.call f) t

def Session.legal (t : Session) : List Call → Bool
  | [] => true
  | call :: l => t.allowed f call && (t.call f call).legal l

def nodesIn (live : List (Nat × Nat)) (slab : Nat) : List Nat := (live.filter fun n => n.2 = slab).map Prod.fst

/-! Where things lie in a page. -/

variable {f}

theorem nodeSizeBounds : sizeofNode ≤ f.getNodeSize ∧ f.getNodeSize ≤ sizeofNodeLru := by
  unfold Fuse.getNodeSize sizeofNode sizeofNodeLru
  split <;> omega

theorem slotsFit : f.num * f.getNodeSize + sizeofNodeSlab ≤ f.page.size := by
  have large := f.page.large
  have most := Nat.div_mul_le_self (f.page.size - sizeofNodeSlab) f.getNodeSize
  unfold Fuse.num
  unfold sizeofNodeSlab at *
  omega

theorem numPos : 0 < f.num := by
  have large := f.page.large
  have bounds := (nodeSizeBounds (f := f))
  unfold sizeofNode sizeofNodeLru at bounds
  refine Nat.div_pos ?_ (by omega)
  unfold sizeofNodeSlab
  omega

structure Slot (f : Fuse) (slab n : Nat) : Prop where
  behind : slab + sizeofNodeSlab ≤ n
  inside : n + f.getNodeSize ≤ slab + f.page.size

theorem slotOf {slab n : Nat} (mem : n ∈ slots f slab) : Slot f slab n := by
  obtain ⟨i,below,rfl⟩ := List.mem_map.mp mem
  have fit := slotsFit (f := f)
  have small : (i + 1) * f.getNodeSize ≤ f.num * f.getNodeSize := Nat.mul_le_mul_right _ (List.mem_range.mp below)
  rw [Nat.succ_mul] at small
  exact ⟨by omega,by omega⟩

theorem slotsApart (slab : Nat) : (slots f slab).Pairwise fun a b => a + f.getNodeSize ≤ b := by
  refine List.pairwise_map.mpr (List.pairwise_lt_range.imp ?_)
  intro i j less
  have grows : (i + 1) * f.getNodeSize ≤ j * f.getNodeSize := Nat.mul_le_mul_right _ less
  rw [Nat.succ_mul] at grows
  omega

def Distant (f : Fuse) (a b : Nat) : Prop := a + f.getNodeSize ≤ b ∨ b + f.getNodeSize ≤ a

instance : Std.Symm (Distant f) := ⟨fun _ _ => Or.symm⟩

theorem slotsDistant {slab a b : Nat} (memA : a ∈ slots f slab) (memB : b ∈ slots f slab) (other : a ≠ b) :
    Distant f a b := by
  have pairs : (slots f slab).Pairwise (Distant f) := (slotsApart slab).imp .inl
  exact pairs.forall memA memB other

theorem slotsNe (slab : Nat) : slots f slab ≠ [] := by
  have pos := numPos (f := f)
  intro none
  have count := congrArg List.length none
  simp only [slots,List.length_map,List.length_range,List.length_nil] at count
  omega

theorem nodeToSlabValue {node : Nat} (small : node < 2 ^ 64) :
    nodeToSlab f node = node / f.page.size * f.page.size := by
  have below := Nat.div_mul_le_self node f.page.size
  rw [nodeToSlab,RequestBuffer.maskedShifts,BitVec.toNat_shiftLeft,BitVec.toNat_ushiftRight,BitVec.toNat_ofNat,
    Nat.mod_eq_of_lt small,Nat.shiftRight_eq_div_pow,Nat.shiftLeft_eq]
  exact Nat.mod_eq_of_lt (by simp only [Page.size] at *; omega)

theorem nodeToSlabOf {slab node : Nat} (placed : Placed f slab) (slot : Slot f slab node) :
    nodeToSlab f node = slab := by
  have pos := f.page.one
  have bounds := nodeSizeBounds (f := f)
  obtain ⟨behind,inside⟩ := slot
  obtain ⟨aligned,fits,-⟩ := placed
  unfold sizeofNode at bounds
  rw [nodeToSlabValue (by omega)]
  have split := Nat.div_add_mod slab f.page.size
  rw [aligned,Nat.add_zero] at split
  have quotient : node / f.page.size = slab / f.page.size :=
    Nat.div_eq_of_lt_le (by rw [Nat.mul_comm]; omega) (by rw [Nat.succ_mul,Nat.mul_comm]; omega)
  rw [quotient,Nat.mul_comm,split]

end FuseStudy.NodeSlabs
