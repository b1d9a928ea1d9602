import Mathlib.Data.List.Cycle
import Mathlib.Logic.Function.Basic

/-! Circular lists threaded through memory: the word at an address is the cell's next, the
word behind it its prev. Cells may lie in any blocks as long as no two of them overlap. -/
namespace FuseStudy.ListHeads

abbrev Memory := Nat → Nat

def sizeofListHead : Nat := 16

def setNext (mem : Memory) (cell to_ : Nat) : Memory := Function.update mem cell to_

def setPrev (mem : Memory) (cell to_ : Nat) : Memory := Function.update mem (cell + 8) to_

def initListHead (mem : Memory) (list : Nat) : Memory := setPrev (setNext mem list list) list list

def listEmpty (mem : Memory) (head : Nat) : Bool := mem head == head

def listAdd (mem : Memory) (new prev next : Nat) : Memory :=
  let mem := setPrev mem next new
  let mem := setNext mem new next
  let mem := setPrev mem new prev
  setNext mem prev new

def listAddHead (mem : Memory) (new head : Nat) : Memory := listAdd mem new head (mem head)

def listAddTail (mem : Memory) (new head : Nat) : Memory := listAdd mem new (mem (head + 8)) head

def listDel (mem : Memory) (entry : Nat) : Memory :=
  let prev := mem (entry + 8)
  let next := mem entry
  let mem := setPrev mem next prev
  setNext mem prev next

/-! A list read off the memory. -/

def Follows (mem : Memory) (a b : Nat) : Prop := mem a = b ∧ mem (b + 8) = a

def Apart (a b : Nat) : Prop := a + sizeofListHead ≤ b ∨ b + sizeofListHead ≤ a

structure Ring (mem : Memory) (head : Nat) (entries : List Nat) : Prop where
  chain : Cycle.Chain (Follows mem) (head :: entries : List Nat)
  apart : (head :: entries).Pairwise Apart

def Within (cells : List Nat) (mem mem' : Memory) : Prop :=
  ∀ w, (∀ a ∈ cells, w ≠ a ∧ w ≠ a + 8) → mem' w = mem w

variable {mem mem' mem'' : Memory} {head new : Nat} {entries cells cells' : List Nat}

theorem Apart.symm {a b : Nat} (apart : Apart a b) : Apart b a := Or.symm apart

instance : Std.Symm Apart := ⟨fun _ _ => Apart.symm⟩

theorem Apart.words {a b : Nat} (apart : Apart a b) : a ≠ b ∧ a ≠ b + 8 ∧ a + 8 ≠ b ∧ a + 8 ≠ b + 8 := by
  unfold Apart sizeofListHead at apart
  omega

theorem Within.refl (cells : List Nat) (mem : Memory) : Within cells mem mem := fun _ _ => rfl

theorem Within.trans (first : Within cells mem mem') (second : Within cells mem' mem'') : Within cells mem mem'' :=
  fun w other => (second w other).trans (first w other)

theorem Within.mono (within : Within cells mem mem') (more : cells ⊆ cells') : Within cells' mem mem' :=
  fun w other => within w fun a inside => other a (more inside)

theorem Within.next (within : Within cells mem mem') {a : Nat} (apart : ∀ b ∈ cells, Apart a b) : mem' a = mem a :=
  within a fun b inside => ⟨(apart b inside).words.1,(apart b inside).words.2.1⟩

theorem Within.prev (within : Within cells mem mem') {a : Nat} (apart : ∀ b ∈ cells, Apart a b) :
    mem' (a + 8) = mem (a + 8) :=
  within (a + 8) fun b inside => (apart b inside).words.2.2

theorem Within.setNext (mem : Memory) {cell : Nat} (inside : cell ∈ cells) (to_ : Nat) :
    Within cells mem (setNext mem cell to_) :=
  fun _ other => Function.update_of_ne (other cell inside).1 ..

theorem Within.setPrev (mem : Memory) {cell : Nat} (inside : cell ∈ cells) (to_ : Nat) :
    Within cells mem (setPrev mem cell to_) :=
  fun _ other => Function.update_of_ne (other cell inside).2 ..

theorem pieceKept {a : Nat} {m : List Nat} (apart : (a :: m).Pairwise Apart) (chain : (a :: m).IsChain (Follows mem))
    (next : ∀ b ∈ a :: m, b ≠ (a :: m).getLast (List.cons_ne_nil a m) → mem' b = mem b)
    (prev : ∀ b ∈ m, mem' (b + 8) = mem (b + 8)) : (a :: m).IsChain (Follows mem') := by
  induction m generalizing a with
  | nil => exact List.isChain_singleton a
  | cons b m ih =>
    obtain ⟨first,rest⟩ := List.isChain_cons_cons.mp chain
    have lastIs : (a :: b :: m).getLast (List.cons_ne_nil a _) = (b :: m).getLast (List.cons_ne_nil b m) :=
      List.getLast_cons (List.cons_ne_nil b m)
    have notLast : a ≠ (b :: m).getLast (List.cons_ne_nil b m) :=
      (List.rel_of_pairwise_cons apart (List.getLast_mem _)).words.1
    refine List.isChain_cons_cons.mpr ⟨⟨?_,?_⟩,?_⟩
    · rw [next a List.mem_cons_self (lastIs ▸ notLast),first.1]
    · rw [prev b List.mem_cons_self,first.2]
    · exact ih (List.pairwise_cons.mp apart).2 rest
        (fun c inside other => next c (List.mem_cons_of_mem a inside) (lastIs ▸ other))
        (fun c inside => prev c (List.mem_cons_of_mem b inside))

theorem cycleIff (mem : Memory) (a : Nat) (m : List Nat) : Cycle.Chain (Follows mem) (a :: m : List Nat) ↔
    Follows mem ((a :: m).getLast (List.cons_ne_nil a m)) a ∧ (a :: m).IsChain (Follows mem) := by
  rw [Cycle.chain_ne_nil _ (List.cons_ne_nil a m),List.isChain_cons_cons]

theorem cellWords {l : List Nat} (apart : l.Pairwise Apart) {a b : Nat} (insideA : a ∈ l) (insideB : b ∈ l) :
    a + 8 ≠ b := by
  by_cases same : a = b
  · omega
  · exact (apart.forall insideA insideB same).words.2.2.1

theorem addedCycle {a : Nat} {m : List Nat} (chain : Cycle.Chain (Follows mem) (a :: m : List Nat))
    (apart : (a :: m).Pairwise Apart) (fresh : ∀ b ∈ a :: m, Apart new b) :
    Cycle.Chain (Follows (listAdd mem new ((a :: m).getLast (List.cons_ne_nil a m)) a)) (new :: a :: m : List Nat) := by
  have around := (cycleIff mem a m).mp chain
  have mine : a ∈ a :: m := List.mem_cons_self
  have inside := List.getLast_mem (List.cons_ne_nil a m)
  generalize lastIs : (a :: m).getLast (List.cons_ne_nil a m) = last at *
  have newLast := (fresh last inside).words
  have newA := (fresh a mine).words
  have cross := cellWords apart mine inside
  have nextOf : ∀ w, w ≠ last → w ≠ new → w ≠ new + 8 → w ≠ a + 8 → listAdd mem new last a w = mem w := by
    intro w first second third fourth
    rw [listAdd,setNext,Function.update_of_ne first,setPrev,Function.update_of_ne third,setNext,
      Function.update_of_ne second,
      setPrev,Function.update_of_ne fourth]
  refine (cycleIff _ new (a :: m)).mpr ⟨⟨?_,?_⟩,List.isChain_cons_cons.mpr ⟨⟨?_,?_⟩,?_⟩⟩
  · rw [List.getLast_cons (List.cons_ne_nil a m),lastIs]
    exact Function.update_self ..
  · rw [List.getLast_cons (List.cons_ne_nil a m),lastIs,listAdd,setNext,Function.update_of_ne newLast.2.2.1]
    exact Function.update_self ..
  · rw [listAdd,setNext,Function.update_of_ne newLast.1,setPrev,Function.update_of_ne (by omega)]
    exact Function.update_self ..
  · rw [listAdd,setNext,Function.update_of_ne cross,setPrev,Function.update_of_ne newA.2.2.2.symm,setNext,
      Function.update_of_ne newA.2.1.symm]
    exact Function.update_self ..
  · refine pieceKept apart around.2 ?_ ?_
    · intro b on other
      rw [lastIs] at other
      exact nextOf b other (fresh b on).words.1.symm (fresh b on).words.2.2.1.symm (cellWords apart mine on).symm
    · intro b on
      have other : b + 8 ≠ a + 8 := (List.rel_of_pairwise_cons apart on).words.2.2.2.symm
      have there := List.mem_cons_of_mem a on
      exact nextOf (b + 8) (cellWords apart there inside)
        (fresh b there).words.2.1.symm (fresh b there).words.2.2.2.symm other

theorem deletedCycle {e a : Nat} {m : List Nat} (chain : Cycle.Chain (Follows mem) (e :: a :: m : List Nat))
    (apart : (e :: a :: m).Pairwise Apart) : Cycle.Chain (Follows (listDel mem e)) (a :: m : List Nat) := by
  obtain ⟨closing,rest⟩ := (cycleIff mem e (a :: m)).mp chain
  obtain ⟨opening,piece⟩ := List.isChain_cons_cons.mp rest
  rw [List.getLast_cons (List.cons_ne_nil a m)] at closing
  have apart' := (List.pairwise_cons.mp apart).2
  have mine : a ∈ a :: m := List.mem_cons_self
  have inside := List.getLast_mem (List.cons_ne_nil a m)
  generalize lastIs : (a :: m).getLast (List.cons_ne_nil a m) = last at *
  have del : listDel mem e = setNext (setPrev mem a last) last a := by rw [listDel,closing.2,opening.1]
  have cross := cellWords apart' mine inside
  refine (cycleIff _ a m).mpr ⟨⟨?_,?_⟩,?_⟩
  · rw [lastIs,del]
    exact Function.update_self ..
  · rw [lastIs,del,setNext,Function.update_of_ne cross]
    exact Function.update_self ..
  · refine pieceKept apart' piece ?_ ?_
    · intro b on other
      rw [lastIs] at other
      rw [del,setNext,Function.update_of_ne other,setPrev,Function.update_of_ne (cellWords apart' mine on).symm]
    · intro b on
      have other : b + 8 ≠ a + 8 := (List.rel_of_pairwise_cons apart' on).words.2.2.2.symm
      rw [del,setNext,Function.update_of_ne (cellWords apart' (List.mem_cons_of_mem a on) inside),setPrev,
        Function.update_of_ne other]

/-! The operations on a list at a head. -/

theorem Ring.same (ring : Ring mem head entries)
    (same : ∀ a ∈ head :: entries, mem' a = mem a ∧ mem' (a + 8) = mem (a + 8)) : Ring mem' head entries := by
  refine ⟨?_,ring.apart⟩
  obtain ⟨closing,chain⟩ := (cycleIff mem head entries).mp ring.chain
  refine (cycleIff mem' head entries).mpr ⟨⟨?_,?_⟩,?_⟩
  · rw [(same _ (List.getLast_mem _)).1,closing.1]
  · rw [(same head List.mem_cons_self).2,closing.2]
  · exact pieceKept ring.apart chain (fun b inside _ => (same b inside).1)
      (fun b inside => (same b (List.mem_cons_of_mem head inside)).2)

theorem Ring.kept (ring : Ring mem head entries) (within : Within cells mem mem')
    (apart : ∀ a ∈ head :: entries, ∀ b ∈ cells, Apart a b) : Ring mem' head entries :=
  ring.same fun a inside => ⟨within.next (apart a inside),within.prev (apart a inside)⟩

/- A list that lies beside the words that have changed. -/
theorem Ring.beside {low high : Nat} (ring : Ring mem head entries)
    (only : ∀ w, w + 8 ≤ low ∨ high ≤ w → mem' w = mem w)
    (away : ∀ a ∈ head :: entries, a + sizeofListHead ≤ low ∨ high ≤ a) : Ring mem' head entries := by
  refine ring.same fun a inside => ⟨only a ?_,only (a + 8) ?_⟩
  · have beside := away a inside
    unfold sizeofListHead at beside
    omega
  · have beside := away a inside
    unfold sizeofListHead at beside
    omega

theorem Ring.prevHead (ring : Ring mem head entries) :
    mem (head + 8) = (head :: entries).getLast (List.cons_ne_nil head entries) :=
  ((cycleIff mem head entries).mp ring.chain).1.2

theorem Ring.nextHead (ring : Ring mem head entries) : mem head = entries.headD head := by
  obtain ⟨closing,chain⟩ := (cycleIff mem head entries).mp ring.chain
  cases entries with
  | nil => exact closing.1
  | cons b rest => exact (List.isChain_cons_cons.mp chain).1.1

theorem Ring.nextEntry {before after : List Nat} {a : Nat} (ring : Ring mem head (before ++ a :: after)) :
    mem a = after.headD head := by
  obtain ⟨closing,chain⟩ := (cycleIff mem head _).mp ring.chain
  cases after with
  | nil =>
    have lastIs : (head :: (before ++ [a])).getLast (List.cons_ne_nil head _) = a := by simp
    rw [lastIs] at closing
    exact closing.1
  | cons b rest =>
    rw [← List.cons_append] at chain
    exact (List.isChain_cons_cons.mp chain.right_of_append).1.1

theorem Ring.prevEntry {before after : List Nat} {a : Nat} (ring : Ring mem head (before ++ a :: after)) :
    mem (a + 8) = (head :: before).getLast (List.cons_ne_nil head before) := by
  obtain ⟨_,chain⟩ := (cycleIff mem head _).mp ring.chain
  rw [← List.cons_append] at chain
  exact ((List.isChain_append.mp chain).2.2 _ (List.getLast_mem_getLast? (List.cons_ne_nil head before)) a rfl).2

theorem Ring.neighbours {before after : List Nat} {a : Nat} (ring : Ring mem head (before ++ a :: after)) :
    mem a ∈ head :: (before ++ after) ∧ mem (a + 8) ∈ head :: (before ++ after) := by
  rw [ring.nextEntry,ring.prevEntry]
  refine ⟨?_,?_⟩
  · cases after with
    | nil => exact List.mem_cons_self
    | cons b rest => exact List.mem_cons_of_mem head (List.mem_append_right before List.mem_cons_self)
  · rcases List.mem_cons.mp (List.getLast_mem (List.cons_ne_nil head before)) with first | inside
    · rw [first]
      exact List.mem_cons_self
    · exact List.mem_cons_of_mem head (List.mem_append_left after inside)

theorem Ring.empty (ring : Ring mem head entries) : listEmpty mem head = entries.isEmpty := by
  rw [listEmpty,ring.nextHead]
  cases entries with
  | nil => exact beq_self_eq_true head
  | cons b rest => exact beq_false_of_ne (List.rel_of_pairwise_cons ring.apart List.mem_cons_self).words.1.symm

theorem initRing (mem : Memory) (head : Nat) : Ring (initListHead mem head) head [] := by
  refine ⟨(cycleIff _ head []).mpr ⟨⟨?_,?_⟩,List.isChain_singleton head⟩,List.pairwise_singleton _ head⟩
  · rw [initListHead,setPrev,Function.update_of_ne (by simp)]
    exact Function.update_self ..
  · exact Function.update_self ..

theorem initWithin (mem : Memory) (head : Nat) : Within [head] mem (initListHead mem head) :=
  (Within.setNext mem List.mem_cons_self head).trans (.setPrev _ List.mem_cons_self head)

theorem addWithin (mem : Memory) {prev next : Nat} (insideNew : new ∈ cells) (insidePrev : prev ∈ cells)
    (insideNext : next ∈ cells) : Within cells mem (listAdd mem new prev next) := by
  have first : Within cells mem (setPrev mem next new) := .setPrev mem insideNext new
  exact ((first.trans (.setNext _ insideNew next)).trans (.setPrev _ insideNew prev)).trans (.setNext _ insidePrev new)

theorem Ring.addTail (ring : Ring mem head entries) (fresh : ∀ a ∈ head :: entries, Apart new a) :
    Ring (listAddTail mem new head) head (entries ++ [new]) := by
  refine ⟨?_,?_⟩
  · rw [listAddTail,ring.prevHead]
    have added := addedCycle ring.chain ring.apart fresh
    rwa [Cycle.coe_cons_eq_coe_append] at added
  · rw [← List.cons_append]
    exact List.pairwise_append.mpr ⟨ring.apart,List.pairwise_singleton _ new,
      fun a inside b only => by rw [List.mem_singleton.mp only]; exact (fresh a inside).symm⟩

theorem Ring.addTailWithin (ring : Ring mem head entries) (new : Nat) :
    Within (new :: head :: entries) mem (listAddTail mem new head) := by
  rw [listAddTail,ring.prevHead]
  exact addWithin mem List.mem_cons_self (List.mem_cons_of_mem new (List.getLast_mem _)) (by simp)

theorem Ring.addHead (ring : Ring mem head entries) (fresh : ∀ a ∈ head :: entries, Apart new a) :
    Ring (listAddHead mem new head) head (new :: entries) := by
  refine ⟨?_,?_⟩
  · rw [listAddHead,ring.nextHead]
    have chain := ring.chain
    have apart := ring.apart
    cases entries with
    | nil =>
      have added := addedCycle chain apart fresh
      rwa [Cycle.coe_cons_eq_coe_append] at added
    | cons b rest =>
      rw [Cycle.coe_cons_eq_coe_append,List.cons_append] at chain
      have order : (head :: b :: rest).Perm (b :: (rest ++ [head])) :=
        (List.perm_append_singleton head (b :: rest)).symm
      have added := addedCycle chain (order.pairwise apart Apart.symm) fun c inside =>
        fresh c (order.mem_iff.mpr inside)
      have lastIs : (b :: (rest ++ [head])).getLast (List.cons_ne_nil b _) = head := by simp
      rw [lastIs] at added
      rw [Cycle.coe_cons_eq_coe_append]
      exact added
  · refine List.pairwise_cons.mpr
      ⟨?_,List.pairwise_cons.mpr ⟨fun a inside => fresh a (List.mem_cons_of_mem head inside),
      (List.pairwise_cons.mp ring.apart).2⟩⟩
    intro a inside
    rcases List.mem_cons.mp inside with rfl | old
    · exact (fresh head List.mem_cons_self).symm
    · exact List.rel_of_pairwise_cons ring.apart old

theorem Ring.addHeadWithin (ring : Ring mem head entries) (new : Nat) :
    Within (new :: head :: entries) mem (listAddHead mem new head) := by
  rw [listAddHead,ring.nextHead]
  refine addWithin mem List.mem_cons_self (by simp) ?_
  cases entries with
  | nil => simp
  | cons b rest => simp

theorem Ring.addTails {more : List Nat} (ring : Ring mem head entries)
    (apart : (head :: (entries ++ more)).Pairwise Apart) :
    Ring (more.foldl (fun mem new => listAddTail mem new head) mem) head (entries ++ more) ∧
      Within (head :: (entries ++ more)) mem (more.foldl (fun mem new => listAddTail mem new head) mem) := by
  induction more generalizing mem entries with
  | nil => exact ⟨by rw [List.append_nil]; exact ring,.refl _ mem⟩
  | cons new more ih =>
    have split : entries ++ new :: more = entries ++ [new] ++ more := (List.append_cons entries new more)
    have fresh : ∀ a ∈ head :: entries, Apart new a := by
      intro a inside
      rw [← List.cons_append] at apart
      exact ((List.pairwise_append.mp apart).2.2 a inside new List.mem_cons_self).symm
    have within : Within (head :: (entries ++ new :: more)) mem (listAddTail mem new head) :=
      (ring.addTailWithin new).mono (by
        intro a inside
        simp only [List.mem_cons,List.mem_append] at inside ⊢
        tauto)
    rw [split] at apart within ⊢
    obtain ⟨rings,rest⟩ := ih (ring.addTail fresh) apart
    exact ⟨rings,within.trans rest⟩

theorem Ring.del {before after : List Nat} {e : Nat} (ring : Ring mem head (before ++ e :: after)) :
    Ring (listDel mem e) head (before ++ after) ∧ Within (head :: (before ++ after)) mem (listDel mem e) := by
  have turned : (head :: (before ++ e :: after)).IsRotated (e :: (after ++ head :: before)) := by
    have split : head :: (before ++ e :: after) = (head :: before) ++ (e :: after) := rfl
    rw [split]
    exact List.isRotated_append
  have back : (after ++ head :: before).IsRotated (head :: (before ++ after)) := List.isRotated_append
  have chain := ring.chain
  rw [Cycle.coe_eq_coe.mpr turned] at chain
  have apart := turned.perm.pairwise ring.apart Apart.symm
  have cells := back.perm
  rw [← Cycle.coe_eq_coe] at back
  cases rest : after ++ head :: before with
  | nil => exact absurd rest (by simp)
  | cons a m =>
    rw [rest] at chain apart back cells
    have deleted := deletedCycle chain apart
    rw [back] at deleted
    refine ⟨⟨deleted,cells.pairwise (List.pairwise_cons.mp apart).2 Apart.symm⟩,?_⟩
    obtain ⟨closing,opens⟩ := (cycleIff mem e (a :: m)).mp chain
    rw [List.getLast_cons (List.cons_ne_nil a m)] at closing
    rw [listDel,closing.2,(List.isChain_cons_cons.mp opens).1.1]
    have first : a ∈ head :: (before ++ after) := cells.mem_iff.mp List.mem_cons_self
    have last := cells.mem_iff.mp (List.getLast_mem (List.cons_ne_nil a m))
    exact (Within.setPrev mem first _).trans (.setNext _ last a)

theorem Ring.transfer {before after entries' : List Nat} {e head' : Nat}
    (ring : Ring mem head (before ++ e :: after)) (ring' : Ring mem head' entries')
    (apart : ∀ a ∈ head :: (before ++ e :: after), ∀ b ∈ head' :: entries', Apart a b) :
    Ring (listAddTail (listDel mem e) e head') head (before ++ after) ∧
      Ring (listAddTail (listDel mem e) e head') head' (entries' ++ [e]) ∧
      Within ((head :: (before ++ e :: after)) ++ head' :: entries') mem (listAddTail (listDel mem e) e head') := by
  have order : (head :: (before ++ e :: after)).Perm (e :: head :: (before ++ after)) :=
    (List.perm_middle.cons head).trans (List.Perm.swap e head _)
  have mine := List.pairwise_cons.mp (order.pairwise ring.apart Apart.symm)
  obtain ⟨left,within⟩ := ring.del
  have there : Ring (listDel mem e) head' entries' :=
    ring'.kept within fun a insideA b insideB =>
      (apart b (order.mem_iff.mpr (List.mem_cons_of_mem e insideB)) a insideA).symm
  have fresh : ∀ a ∈ head' :: entries', Apart e a := apart e (order.mem_iff.mpr List.mem_cons_self)
  have after' := there.addTailWithin e
  refine ⟨left.kept after' ?_,there.addTail fresh,?_⟩
  · intro a insideA b insideB
    rcases List.mem_cons.mp insideB with rfl | old
    · exact (mine.1 a insideA).symm
    · exact apart a (order.mem_iff.mpr (List.mem_cons_of_mem e insideA)) b old
  · refine (within.mono ?_).trans (after'.mono ?_)
    · intro a inside
      exact List.mem_append_left _ (order.mem_iff.mpr (List.mem_cons_of_mem e inside))
    · intro a inside
      rcases List.mem_cons.mp inside with rfl | old
      · exact List.mem_append_left _ (order.mem_iff.mpr List.mem_cons_self)
      · exact List.mem_append_right _ old

end FuseStudy.ListHeads
