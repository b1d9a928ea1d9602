import Mathlib.Tactic.Common

/-! The per-node POSIX lock list of lib/fuse.c. One list holds the locks of every
owner; locks_insert walks it once while it merges, truncates, splits and deletes.
off_t arithmetic is checked: a result outside 64 bits, like a use of a lock cell
that was not allocated, makes the model return none. -/
namespace FuseStudy.PosixLocks

/- A type is a number; other is one without a name. -/
inductive LockType where
  | rdlck | wrlck | unlck
  | other (code : Int)
  deriving DecidableEq, Repr

structure Lock where
  type : LockType
  start : Int
  stop : Int
  pid : Int
  owner : UInt64
  deriving DecidableEq, Repr

def offsetMax : Int := 0x7fffffffffffffff
def offsetMin : Int := -0x8000000000000000

def off (x : Int) : Option Int := if offsetMin ≤ x ∧ x ≤ offsetMax then some x else none

def locksConflict (locks : List Lock) (lock : Lock) : Option Lock :=
  locks.find? (fun l => l.owner ≠ lock.owner ∧ lock.start ≤ l.stop ∧ l.start ≤ lock.stop ∧
    (l.type = .wrlck ∨ lock.type = .wrlck))

/- What one iteration of the loop does with the element l: `skip` keeps it (perhaps
truncated) and goes on, `place` leaves the loop in front of it, `covered` is the
jump to out, `delete` drops it and carries the widened lock, `split` cuts it in two. -/
inductive Move where
  | skip (l : Lock)
  | place (l : Lock)
  | covered
  | delete (lock : Lock)
  | split (left right : Lock)
  deriving DecidableEq, Repr

def move (lock l : Lock) : Option Move :=
  if l.owner ≠ lock.owner then some (.skip l)
  else if lock.type = l.type then do
    let before ← off (lock.start - 1)
    if l.stop < before then some (.skip l)
    else do
      let before ← off (l.start - 1)
      if lock.stop < before then some (.place l)
      else if l.start ≤ lock.start ∧ lock.stop ≤ l.stop then some .covered
      else some (.delete {lock with
        start := if l.start < lock.start then l.start else lock.start
        stop := if lock.stop < l.stop then l.stop else lock.stop})
  else if l.stop < lock.start then some (.skip l)
  else if lock.stop < l.start then some (.place l)
  else if lock.start ≤ l.start ∧ l.stop ≤ lock.stop then some (.delete lock)
  else if l.stop ≤ lock.stop then do
    let before ← off (lock.start - 1)
    some (.skip {l with stop := before})
  else if lock.start ≤ l.start then do
    let after ← off (lock.stop + 1)
    some (.place {l with start := after})
  else do
    let after ← off (lock.stop + 1)
    let before ← off (lock.start - 1)
    some (.split {l with stop := before} {l with start := after})

/- newl1 and newl2 say whether the cell is allocated and still unused. -/
def place (newl1 : Bool) (lock : Lock) (rest : List Lock) : Option (List Lock) :=
  if lock.type = .unlck then some rest
  else if newl1 then some (lock :: rest) else none

def insertLoop (newl1 newl2 : Bool) (lock : Lock) : List Lock → Option (List Lock)
  | [] => place newl1 lock []
  | l :: rest =>
    match move lock l with
    | none => none
    | some (.skip l) => do
        let tail ← insertLoop newl1 newl2 lock rest
        some (l :: tail)
    | some (.place l) => place newl1 lock (l :: rest)
    | some .covered => some (l :: rest)
    | some (.delete lock) => insertLoop newl1 newl2 lock rest
    | some (.split left right) =>
        match newl2 with
        | false => none
        | true => do
            let tail ← insertLoop newl1 false lock (right :: rest)
            some (left :: tail)
termination_by locks => (newl2.toNat,locks.length)

def enolck : Int := 37

def wholeUnlock (lock : Lock) : Bool :=
  lock.type = .unlck && lock.start = 0 && lock.stop = offsetMax

/- malloc1 and malloc2 are the results of the two allocations. -/
def locksInsert (malloc1 malloc2 : Bool) (locks : List Lock) (lock : Lock) :
    Option (Int × List Lock) :=
  if wholeUnlock lock then do
    let out ← insertLoop false false lock locks
    some (0,out)
  else if malloc1 && malloc2 then do
    let out ← insertLoop true true lock locks
    some (0,out)
  else some (-enolck,locks)

/-! The abstract lock state is a map from owner and byte to a lock type. -/

def Covers (l : Lock) (owner : UInt64) (byte : Int) : Prop :=
  l.owner = owner ∧ l.start ≤ byte ∧ byte ≤ l.stop
instance (l owner byte) : Decidable (Covers l owner byte) := by unfold Covers; infer_instance

def typeAt (locks : List Lock) (owner : UInt64) (byte : Int) : Option LockType :=
  (locks.find? (fun l => Covers l owner byte)).map Lock.type

def override (map : UInt64 → Int → Option LockType) (lock : Lock) (owner : UInt64) (byte : Int) :
    Option LockType :=
  if Covers lock owner byte then (if lock.type = .unlck then none else some lock.type)
  else map owner byte

def RangeOk (l : Lock) : Prop := 0 ≤ l.start ∧ l.start ≤ l.stop ∧ l.stop ≤ offsetMax
instance (l) : Decidable (RangeOk l) := by unfold RangeOk; infer_instance

def Before (a b : Lock) : Prop :=
  a.stop < b.start ∧ (a.stop + 1 = b.start → a.type ≠ b.type)
instance (a b) : Decidable (Before a b) := by unfold Before; infer_instance

def SameOwnerBefore (a b : Lock) : Prop := a.owner = b.owner → Before a b

structure Ordered (locks : List Lock) : Prop where
  range : ∀ l ∈ locks, RangeOk l
  typed : ∀ l ∈ locks, l.type ≠ .unlck
  sorted : locks.Pairwise SameOwnerBefore

theorem offOfRange {x : Int} (low : -1 ≤ x) (high : x ≤ offsetMax) : off x = some x := by
  apply if_pos
  simp only [offsetMin]
  omega

def Touching (lock l : Lock) : Prop := lock.start ≤ l.stop + 1 ∧ l.start ≤ lock.stop + 1

def Inside (lock l : Lock) : Prop := l.start < lock.start ∧ lock.stop < l.stop

def Clear (x lock : Lock) : Prop :=
  x.stop < lock.start ∧ (x.type = lock.type → x.stop + 1 < lock.start)

inductive MoveSource (lock l : Lock) : Move → Prop where
  | other (differs : l.owner ≠ lock.owner) : MoveSource lock l (.skip l)
  | left (same : l.owner = lock.owner) (clear : Clear l lock) : MoveSource lock l (.skip l)
  | right (same : l.owner = lock.owner) (clear : Clear lock l) : MoveSource lock l (.place l)
  | covered (same : l.owner = lock.owner) (type : lock.type = l.type)
      (inside : l.start ≤ lock.start ∧ lock.stop ≤ l.stop) : MoveSource lock l .covered
  | merge (same : l.owner = lock.owner) (type : lock.type = l.type) (touching : Touching lock l)
      {hull} (hullIs : hull = {lock with start := min l.start lock.start, stop := max lock.stop l.stop}) :
      MoveSource lock l (.delete hull)
  | overwrite (same : l.owner = lock.owner) (type : lock.type ≠ l.type)
      (inside : lock.start ≤ l.start ∧ l.stop ≤ lock.stop) : MoveSource lock l (.delete lock)
  | cutEnd (same : l.owner = lock.owner) (type : lock.type ≠ l.type)
      (overlap : l.start < lock.start ∧ lock.start ≤ l.stop ∧ l.stop ≤ lock.stop) :
      MoveSource lock l (.skip {l with stop := lock.start - 1})
  | cutStart (same : l.owner = lock.owner) (type : lock.type ≠ l.type)
      (overlap : lock.start ≤ l.start ∧ l.start ≤ lock.stop ∧ lock.stop < l.stop) :
      MoveSource lock l (.place {l with start := lock.stop + 1})
  | split (same : l.owner = lock.owner) (type : lock.type ≠ l.type) (inside : Inside lock l) :
      MoveSource lock l (.split {l with stop := lock.start - 1} {l with start := lock.stop + 1})

theorem moveSource {lock l} (lockRange : RangeOk lock) (range : RangeOk l) :
    ∃ m, move lock l = some m ∧ MoveSource lock l m := by
  obtain ⟨low,proper,high⟩ := lockRange
  obtain ⟨low',proper',high'⟩ := range
  unfold move
  split
  · rename_i differs
    exact ⟨_,rfl,.other differs⟩
  rename_i same
  rw [not_not] at same
  split
  · rename_i type
    rw [offOfRange (x := lock.start - 1) (by omega) (by omega)]
    simp only [bind,Option.bind]
    split
    · exact ⟨_,rfl,.left same ⟨by omega,by omega⟩⟩
    rw [offOfRange (x := l.start - 1) (by omega) (by omega)]
    simp only
    split
    · exact ⟨_,rfl,.right same ⟨by omega,by omega⟩⟩
    split
    · exact ⟨_,rfl,.covered same type (by assumption)⟩
    · refine ⟨_,rfl,.merge same type ⟨by omega,by omega⟩ ?_⟩
      congr 1 <;> split <;> omega
  · rename_i type
    split
    · exact ⟨_,rfl,.left same ⟨by omega,fun eq => absurd eq.symm type⟩⟩
    split
    · exact ⟨_,rfl,.right same ⟨by omega,fun eq => absurd eq type⟩⟩
    split
    · exact ⟨_,rfl,.overwrite same type (by assumption)⟩
    split
    · rw [offOfRange (by omega) (by omega)]
      exact ⟨_,rfl,.cutEnd same type ⟨by omega,by omega,by omega⟩⟩
    split
    · rw [offOfRange (by omega) (by omega)]
      exact ⟨_,rfl,.cutStart same type ⟨by omega,by omega,by omega⟩⟩
    · rw [offOfRange (x := lock.stop + 1) (by omega) (by omega),
        offOfRange (x := lock.start - 1) (by omega) (by omega)]
      exact ⟨_,rfl,.split same type ⟨by omega,by omega⟩⟩

theorem typeAtCons (l : Lock) (ls : List Lock) (owner : UInt64) (byte : Int) :
    typeAt (l :: ls) owner byte =
      if Covers l owner byte then some l.type else typeAt ls owner byte := by
  unfold typeAt
  rw [List.find?_cons]
  by_cases covers : Covers l owner byte <;> simp [covers]

theorem typeAtNone {locks : List Lock} {owner : UInt64} {byte : Int}
    (absent : ∀ l ∈ locks, ¬ Covers l owner byte) : typeAt locks owner byte = none := by
  simpa [typeAt] using absent

theorem typeAtMem {locks : List Lock} {owner byte type} (found : typeAt locks owner byte = some type) :
    ∃ l ∈ locks, Covers l owner byte ∧ l.type = type := by
  obtain ⟨l,hl,rfl⟩ := Option.map_eq_some_iff.mp found
  exact ⟨l,List.mem_of_find?_eq_some hl,by simpa using List.find?_some hl,rfl⟩

theorem Ordered.tail {l locks} (h : Ordered (l :: locks)) : Ordered locks :=
  ⟨fun x hx => h.range x (List.mem_cons_of_mem _ hx),
    fun x hx => h.typed x (List.mem_cons_of_mem _ hx),(List.pairwise_cons.mp h.sorted).2⟩

theorem Ordered.cons {l locks} (h : Ordered locks) (range : RangeOk l) (typed : l.type ≠ .unlck)
    (before : ∀ x ∈ locks, SameOwnerBefore l x) : Ordered (l :: locks) := by
  refine ⟨?_,?_,List.pairwise_cons.mpr ⟨before,h.sorted⟩⟩
  · intro x hx
    rcases List.mem_cons.mp hx with rfl | hx
    · exact range
    · exact h.range x hx
  · intro x hx
    rcases List.mem_cons.mp hx with rfl | hx
    · exact typed
    · exact h.typed x hx

theorem Ordered.head {l locks} (h : Ordered (l :: locks)) :
    RangeOk l ∧ l.type ≠ .unlck ∧ ∀ x ∈ locks, SameOwnerBefore l x :=
  ⟨h.range l List.mem_cons_self,h.typed l List.mem_cons_self,(List.pairwise_cons.mp h.sorted).1⟩

theorem typeAtOfCovers {locks : List Lock} (ordered : Ordered locks) {l owner byte} (mem : l ∈ locks)
    (covers : Covers l owner byte) : typeAt locks owner byte = some l.type := by
  induction locks with
  | nil => simp at mem
  | cons head rest ih =>
    rw [typeAtCons]
    rcases List.mem_cons.mp mem with rfl | mem
    · rw [if_pos covers]
    · have before := ordered.head.2.2 l mem
      rw [if_neg,ih ordered.tail mem]
      intro both
      have apart := (before (both.1.trans covers.1.symm)).1
      have first := both.2
      have second := covers.2
      omega

/- What the loop owes its caller: the rest of the list is ordered again, a lock that
stood clear of the old rest and of the new lock stands before the new rest, and the
denoted map is overridden. -/
structure Inserted (lock : Lock) (locks out : List Lock) : Prop where
  ordered : Ordered out
  before : ∀ x, (∀ l ∈ locks, SameOwnerBefore x l) → (x.owner = lock.owner → Clear x lock) →
    ∀ l ∈ out, SameOwnerBefore x l
  map : ∀ owner byte, typeAt out owner byte = override (typeAt locks) lock owner byte

theorem clearBefore {a b : Lock} (clear : Clear a b) : Before a b :=
  ⟨clear.1,fun adjacent type => by have := clear.2 type; omega⟩

/- Leaving the loop in front of rest, when every lock of this owner in rest is clear. -/
theorem placeInserted {newl1 : Bool} {lock : Lock} {rest : List Lock} (ordered : Ordered rest)
    (range : RangeOk lock) (cell1 : newl1 = true ∨ lock.type = .unlck)
    (clear : ∀ l ∈ rest, l.owner = lock.owner → Clear lock l) :
    ∃ out, place newl1 lock rest = some out ∧ Inserted lock rest out := by
  have beyond : ∀ owner byte, Covers lock owner byte → typeAt rest owner byte = none := by
    intro owner byte covers
    apply typeAtNone
    intro l mem other
    have apart := (clear l mem (other.1.trans covers.1.symm)).1
    have first := covers.2
    have second := other.2
    omega
  by_cases unlock : lock.type = .unlck
  · refine ⟨rest,if_pos unlock,ordered,fun x old _ => old,?_⟩
    intro owner byte
    unfold override
    by_cases covers : Covers lock owner byte
    · rw [if_pos covers,if_pos unlock,beyond owner byte covers]
    · rw [if_neg covers]
  · have cell : newl1 = true := cell1.resolve_right unlock
    refine ⟨lock :: rest,by rw [place,if_neg unlock,if_pos cell],?_,?_,?_⟩
    · exact ordered.cons range unlock (fun l mem same => clearBefore (clear l mem same.symm))
    · intro x old apart l mem same
      rcases List.mem_cons.mp mem with rfl | mem
      · exact clearBefore (apart same)
      · exact old l mem same
    · intro owner byte
      rw [typeAtCons,override,if_neg unlock]

/- One lemma per kind of iteration that keeps an element and goes on: the element
it keeps, l', may be the old l or its cut-off start. -/
theorem Inserted.cons {lock l l' locks out} (old : Ordered (l :: locks)) (rest : Inserted lock locks out)
    (start : l'.start = l.start) (stop : l'.start ≤ l'.stop ∧ l'.stop ≤ l.stop)
    (type : l'.type = l.type) (owner : l'.owner = l.owner)
    (clear : l.owner = lock.owner → Clear l' lock)
    (cut : ∀ byte, l'.stop < byte → byte ≤ l.stop → Covers lock l.owner byte) :
    Inserted lock (l :: locks) (l' :: out) := by
  obtain ⟨range,typed,before⟩ := old.head
  have ahead : ∀ x ∈ locks, SameOwnerBefore l' x := by
    intro x mem same
    obtain ⟨apart,distinct⟩ := before x mem (owner.symm.trans same)
    refine ⟨by omega,fun adjacent => ?_⟩
    rw [type]
    exact distinct (by omega)
  refine ⟨rest.ordered.cons ⟨start ▸ range.1,stop.1,Int.le_trans stop.2 range.2.2⟩ (type ▸ typed)
    (rest.before l' ahead (fun same => clear (owner.symm.trans same))),?_,?_⟩
  · intro x sorted apart y mem same
    rcases List.mem_cons.mp mem with rfl | mem
    · have first := sorted l List.mem_cons_self (same.trans owner)
      unfold Before
      rw [start,type]
      exact first
    · exact rest.before x (fun z mem => sorted z (List.mem_cons_of_mem _ mem)) apart y mem same
  · intro o byte
    rw [typeAtCons,rest.map,override,override,typeAtCons]
    by_cases covers' : Covers l' o byte
    · have covers : Covers l o byte := ⟨owner ▸ covers'.1,start ▸ covers'.2.1,Int.le_trans covers'.2.2 stop.2⟩
      have outside : ¬ Covers lock o byte := by
        intro both
        have apart := (clear (covers.1.trans both.1.symm)).1
        have first := covers'.2
        have second := both.2
        omega
      rw [if_pos covers',if_neg outside,if_pos covers,type]
    · rw [if_neg covers']
      by_cases inside : Covers lock o byte
      · rw [if_pos inside,if_pos inside]
      · have uncovered : ¬ Covers l o byte := by
          intro covers
          by_cases short : byte ≤ l'.stop
          · exact covers' ⟨owner.trans covers.1,start ▸ covers.2.1,short⟩
          · exact inside (covers.1 ▸ cut byte (by omega) covers.2.2)
        rw [if_neg inside,if_neg inside,if_neg uncovered]

theorem Inserted.delete {lock hull l locks out} (rest : Inserted hull locks out)
    (owner : hull.owner = lock.owner) (type : hull.type = lock.type) (same : l.owner = lock.owner)
    (start : hull.start = lock.start ∨ hull.type = l.type ∧ hull.start = min l.start lock.start)
    (covers : ∀ byte, Covers hull lock.owner byte ↔
      Covers lock lock.owner byte ∨ Covers l lock.owner byte)
    (kept : ∀ byte, Covers l lock.owner byte → ¬ Covers lock lock.owner byte → lock.type = l.type)
    (typed : l.type ≠ .unlck) : Inserted lock (l :: locks) out := by
  refine ⟨rest.ordered,?_,?_⟩
  · intro x sorted apart
    apply rest.before x (fun z mem => sorted z (List.mem_cons_of_mem _ mem))
    intro sameOwner
    obtain ⟨first,firstType⟩ := apart (sameOwner.trans owner)
    obtain ⟨second,secondType⟩ := sorted l List.mem_cons_self ((sameOwner.trans owner).trans same.symm)
    rcases start with keeps | ⟨equal,lower⟩
    · exact ⟨keeps ▸ first,fun eq => keeps ▸ firstType (eq.trans type)⟩
    · refine ⟨by omega,fun eq => ?_⟩
      have low := firstType (eq.trans type)
      have distinct := mt secondType (not_not.mpr (eq.trans equal))
      omega
  · intro o byte
    rw [rest.map,override,override,typeAtCons]
    by_cases sameOwner : lock.owner = o
    · subst o
      by_cases inside : Covers lock lock.owner byte
      · rw [if_pos ((covers byte).mpr (.inl inside)),if_pos inside,type]
      · rw [if_neg inside]
        by_cases inner : Covers l lock.owner byte
        · have equal := kept byte inner inside
          rw [if_pos ((covers byte).mpr (.inr inner)),if_pos inner,type,equal,if_neg typed]
        · rw [if_neg inner,if_neg (fun both => ((covers byte).mp both).elim inside inner)]
    · rw [if_neg (fun both => sameOwner (owner ▸ both.1)),if_neg (fun both => sameOwner both.1),
        if_neg (fun both => sameOwner (same ▸ both.1))]

/- Cutting an element inside the new lock's range does not show in the result. -/
theorem Inserted.ofCut {lock locks cut out} (h : Inserted lock cut out)
    (before : ∀ x, (∀ l ∈ locks, SameOwnerBefore x l) → (x.owner = lock.owner → Clear x lock) →
      ∀ l ∈ cut, SameOwnerBefore x l)
    (map : ∀ owner byte, ¬ Covers lock owner byte → typeAt cut owner byte = typeAt locks owner byte) :
    Inserted lock locks out := by
  refine ⟨h.ordered,fun x sorted apart => h.before x (before x sorted apart) apart,?_⟩
  intro owner byte
  rw [h.map,override,override]
  by_cases covers : Covers lock owner byte
  · rw [if_pos covers,if_pos covers]
  · rw [if_neg covers,if_neg covers,map owner byte covers]

/- The element starts inside the new lock and ends after it: only its start moves, and
the lock is placed in front of what is left. -/
theorem cutStartInserted {newl1 : Bool} {lock l : Lock} {rest : List Lock}
    (ordered : Ordered (l :: rest)) (range : RangeOk lock)
    (cell1 : newl1 = true ∨ lock.type = .unlck) (same : l.owner = lock.owner)
    (type : lock.type ≠ l.type) (overlap : lock.start ≤ l.start ∧ l.start ≤ lock.stop ∧ lock.stop < l.stop) :
    ∃ out, place newl1 lock ({l with start := lock.stop + 1} :: rest) = some out ∧
      Inserted lock (l :: rest) out := by
  obtain ⟨lRange,typed,before⟩ := ordered.head
  have cutRange : RangeOk {l with start := lock.stop + 1} := by
    obtain ⟨low,proper,high⟩ := range
    exact ⟨by simp only; omega,by simp only; omega,lRange.2.2⟩
  have cutOrdered : Ordered ({l with start := lock.stop + 1} :: rest) :=
    ordered.tail.cons cutRange typed before
  have clear : ∀ x ∈ {l with start := lock.stop + 1} :: rest, x.owner = lock.owner → Clear lock x := by
    intro x mem sameOwner
    rcases List.mem_cons.mp mem with rfl | mem
    · exact ⟨by simp only; omega,fun eq => absurd eq type⟩
    · have later := (before x mem (same.trans sameOwner.symm)).1
      exact ⟨by omega,fun _ => by omega⟩
  obtain ⟨out,placed,inserted⟩ := placeInserted cutOrdered range cell1 clear
  refine ⟨out,placed,inserted.ofCut ?_ ?_⟩
  · intro x sorted apart z mem sameOwner
    rcases List.mem_cons.mp mem with rfl | mem
    · have first := (apart (sameOwner.trans same)).1
      have proper := range.2.1
      exact ⟨by simp only; omega,fun adjacent => by simp only at adjacent; omega⟩
    · exact sorted z (List.mem_cons_of_mem _ mem) sameOwner
  · intro owner byte outside
    have agree : Covers {l with start := lock.stop + 1} owner byte ↔ Covers l owner byte := by
      constructor
      · rintro ⟨ho,above,below⟩
        simp only at above
        exact ⟨ho,by omega,below⟩
      · rintro ⟨ho,above,below⟩
        have past : ¬ byte ≤ lock.stop := fun high => outside ⟨same.symm.trans ho,by omega,high⟩
        exact ⟨ho,by simp only; omega,below⟩
    simp only [typeAtCons,agree]

theorem splitOrdered {lock l : Lock} {rest : List Lock} (ordered : Ordered (l :: rest))
    (range : RangeOk lock) (inside : Inside lock l) :
    Ordered ({l with stop := lock.start - 1} :: {l with start := lock.stop + 1} :: rest) := by
  obtain ⟨⟨low',proper',high'⟩,typed,before⟩ := ordered.head
  obtain ⟨low,proper,high⟩ := range
  obtain ⟨first,last⟩ := inside
  have rightOrdered : Ordered ({l with start := lock.stop + 1} :: rest) :=
    ordered.tail.cons ⟨by simp only; omega,by simp only; omega,high'⟩ typed before
  refine rightOrdered.cons ⟨low',by simp only; omega,by simp only; omega⟩ typed ?_
  intro x mem sameOwner
  rcases List.mem_cons.mp mem with rfl | mem
  · exact ⟨by simp only; omega,fun adjacent => by simp only at adjacent; omega⟩
  · have later := (before x mem sameOwner).1
    exact ⟨by simp only; omega,fun adjacent => by simp only at adjacent; omega⟩

theorem splitInserted {lock l : Lock} {rest out : List Lock} (ordered : Ordered (l :: rest))
    (range : RangeOk lock) (same : l.owner = lock.owner) (type : lock.type ≠ l.type)
    (inside : Inside lock l) (inserted : Inserted lock ({l with start := lock.stop + 1} :: rest) out) :
    Inserted lock (l :: rest) ({l with stop := lock.start - 1} :: out) := by
  have halves := splitOrdered ordered range inside
  obtain ⟨low,proper,high⟩ := range
  obtain ⟨first,last⟩ := inside
  have left : Clear {l with stop := lock.start - 1} lock :=
    ⟨by simp only; omega,fun eq => absurd eq.symm type⟩
  have kept := inserted.cons halves rfl ⟨by simp only; omega,Int.le_refl _⟩ rfl rfl (fun _ => left)
    (fun byte _ _ => by omega)
  refine kept.ofCut ?_ ?_
  · intro x sorted apart z mem sameOwner
    rcases List.mem_cons.mp mem with rfl | mem
    · exact sorted l List.mem_cons_self sameOwner
    rcases List.mem_cons.mp mem with rfl | mem
    · have past := (apart (sameOwner.trans same)).1
      exact ⟨by simp only; omega,fun adjacent => by simp only at adjacent; omega⟩
    · exact sorted z (List.mem_cons_of_mem _ mem) sameOwner
  · intro owner byte outside
    have agree : Covers l owner byte ↔ Covers {l with stop := lock.start - 1} owner byte ∨
        Covers {l with start := lock.stop + 1} owner byte := by
      constructor
      · rintro ⟨ho,above,below⟩
        have past : ¬ (lock.start ≤ byte ∧ byte ≤ lock.stop) :=
          fun both => outside ⟨same.symm.trans ho,both⟩
        by_cases lower : byte < lock.start
        · exact .inl ⟨ho,above,by simp only; omega⟩
        · exact .inr ⟨ho,by simp only; omega,below⟩
      · rintro (⟨ho,above,below⟩ | ⟨ho,above,below⟩) <;> simp only at above below
        · exact ⟨ho,above,by omega⟩
        · exact ⟨ho,by omega,below⟩
    simp only [typeAtCons,agree]
    by_cases inLeft : Covers {l with stop := lock.start - 1} owner byte <;> simp [inLeft]

theorem insertLoopInserted (newl1 newl2 : Bool) {lock : Lock} {locks : List Lock}
    (ordered : Ordered locks) (range : RangeOk lock) (cell1 : newl1 = true ∨ lock.type = .unlck)
    (cell2 : newl2 = true ∨ ∀ l ∈ locks, l.owner = lock.owner → ¬ Inside lock l) :
    ∃ out, insertLoop newl1 newl2 lock locks = some out ∧ Inserted lock locks out := by
  induction newl2, lock, locks using insertLoop.induct with
  | case1 newl2 lock =>
    simp only [insertLoop]
    exact placeInserted ordered range cell1 (by simp)
  | case2 newl2 lock l rest moved =>
    obtain ⟨m,found,_⟩ := moveSource range ordered.head.1
    rw [moved] at found
    contradiction
  | case3 newl2 lock l rest l' moved ih =>
    obtain ⟨m,found,source⟩ := moveSource range ordered.head.1
    cases Option.some.inj (moved.symm.trans found)
    obtain ⟨out,loop,inserted⟩ := ih ordered.tail range cell1
      (cell2.imp_right (fun h x mem => h x (List.mem_cons_of_mem _ mem)))
    refine ⟨l' :: out,by simp only [insertLoop,moved,loop,bind,Option.bind],?_⟩
    obtain ⟨_,proper,_⟩ := ordered.head.1
    cases source with
    | other differs =>
      exact inserted.cons ordered rfl ⟨proper,Int.le_refl _⟩ rfl rfl (fun same => absurd same differs)
        (fun byte _ _ => by omega)
    | left same clear =>
      exact inserted.cons ordered rfl ⟨proper,Int.le_refl _⟩ rfl rfl (fun _ => clear)
        (fun byte _ _ => by omega)
    | cutEnd same type overlap =>
      refine inserted.cons ordered rfl ⟨?_,?_⟩ rfl rfl (fun _ => ⟨?_,?_⟩) ?_
      · simp only; omega
      · simp only; omega
      · simp only; omega
      · exact fun eq => absurd eq.symm type
      · intro byte above below
        simp only at above
        exact ⟨same.symm,by omega,by omega⟩
  | case4 newl2 lock l rest l' moved =>
    obtain ⟨m,found,source⟩ := moveSource range ordered.head.1
    cases Option.some.inj (moved.symm.trans found)
    obtain ⟨lRange,typed,before⟩ := ordered.head
    simp only [insertLoop,moved]
    cases source with
    | right same clear =>
      apply placeInserted ordered range cell1
      intro x mem sameOwner
      rcases List.mem_cons.mp mem with rfl | mem
      · exact clear
      · have later := (before x mem (same.trans sameOwner.symm)).1
        have proper := lRange.2.1
        have first := clear.1
        exact ⟨by omega,fun _ => by omega⟩
    | cutStart same type overlap => exact cutStartInserted ordered range cell1 same type overlap
  | case5 newl2 lock l rest moved =>
    obtain ⟨m,found,source⟩ := moveSource range ordered.head.1
    cases Option.some.inj (moved.symm.trans found)
    cases source with
    | covered same type inside =>
      refine ⟨l :: rest,by simp only [insertLoop,moved],ordered,fun x old _ => old,?_⟩
      intro owner byte
      unfold override
      by_cases covers : Covers lock owner byte
      · have typed := ordered.head.2.1
        have inner : Covers l owner byte :=
          ⟨same.trans covers.1,Int.le_trans inside.1 covers.2.1,Int.le_trans covers.2.2 inside.2⟩
        rw [if_pos covers,typeAtCons,if_pos inner,type,if_neg typed]
      · rw [if_neg covers]
  | case6 newl2 lock l rest lock' moved ih =>
    obtain ⟨m,found,source⟩ := moveSource range ordered.head.1
    cases Option.some.inj (moved.symm.trans found)
    obtain ⟨lRange,typed,before⟩ := ordered.head
    simp only [insertLoop,moved]
    cases source with
    | overwrite same type inside =>
      obtain ⟨out,loop,inserted⟩ := ih ordered.tail range cell1
        (cell2.imp_right (fun h x mem => h x (List.mem_cons_of_mem _ mem)))
      refine ⟨out,loop,inserted.delete rfl rfl same (.inl rfl) ?_ ?_ typed⟩
      · intro byte
        refine ⟨.inl,fun either => either.elim id (fun inner => ?_)⟩
        exact ⟨rfl,Int.le_trans inside.1 inner.2.1,Int.le_trans inner.2.2 inside.2⟩
      · intro byte inner outside
        exact absurd ⟨rfl,Int.le_trans inside.1 inner.2.1,Int.le_trans inner.2.2 inside.2⟩ outside
    | merge same type touching hullIs =>
      subst hullIs
      obtain ⟨low,proper,high⟩ := range
      obtain ⟨low',proper',high'⟩ := lRange
      obtain ⟨near,near'⟩ := touching
      obtain ⟨out,loop,inserted⟩ := ih ordered.tail
        ⟨by simp only; omega,by simp only; omega,by simp only; omega⟩ cell1 (by
          refine cell2.imp_right (fun h x mem sameOwner inside => ?_)
          have none := h x (List.mem_cons_of_mem _ mem) sameOwner
          unfold Inside at inside none
          simp only at inside
          omega)
      refine ⟨out,loop,inserted.delete rfl rfl same (.inr ⟨type,rfl⟩) ?_ (fun _ _ _ => type) typed⟩
      intro byte
      unfold Covers
      simp only [same,true_and]
      omega
  | case7 lock l rest left right moved =>
    obtain ⟨m,found,source⟩ := moveSource range ordered.head.1
    cases Option.some.inj (moved.symm.trans found)
    cases source with
    | split same type inside =>
      exact absurd inside (cell2.resolve_left (by simp) l List.mem_cons_self same)
  | case8 lock l rest left right moved ih =>
    obtain ⟨m,found,source⟩ := moveSource range ordered.head.1
    cases Option.some.inj (moved.symm.trans found)
    obtain ⟨lRange,typed,before⟩ := ordered.head
    cases source with
    | split same type inside =>
      -- newl2 is spent; the right half lies past the lock, so no second split can follow
      obtain ⟨out,loop,inserted⟩ := ih (splitOrdered ordered range inside).tail range cell1 (.inr (by
        intro x mem sameOwner within
        have within' := within.1
        have proper := range.2.1
        rcases List.mem_cons.mp mem with rfl | mem
        · simp only at within'; omega
        · have later := (before x mem (same.trans sameOwner.symm)).1
          have last := inside.2
          omega))
      exact ⟨_,by simp only [insertLoop,moved,loop,bind,Option.bind],
        splitInserted ordered range same type inside inserted⟩

theorem locksInsertInserted {locks lock} (ordered : Ordered locks) (range : RangeOk lock) :
    ∃ out, locksInsert true true locks lock = some (0,out) ∧ Inserted lock locks out := by
  unfold locksInsert
  by_cases whole : wholeUnlock lock = true
  · have unlock : (lock.type = .unlck ∧ lock.start = 0) ∧ lock.stop = offsetMax := by
      simpa [wholeUnlock] using whole
    obtain ⟨out,loop,inserted⟩ := insertLoopInserted false false ordered range
      (.inr unlock.1.1) (.inr (by
        intro l mem _ inside
        have low := (ordered.range l mem).1
        have first := inside.1
        omega))
    exact ⟨out,by simp [whole,loop],inserted⟩
  · obtain ⟨out,loop,inserted⟩ := insertLoopInserted true true ordered range
      (.inl rfl) (.inl rfl)
    exact ⟨out,by simp [whole,loop],inserted⟩

def insertAll (locks : List Lock) : List Lock → Option (List Lock)
  | [] => some locks
  | lock :: calls => do
      let out ← locksInsert true true locks lock
      insertAll out.2 calls

theorem insertAllOrdered {locks} (ordered : Ordered locks) (calls : List Lock)
    (ranges : ∀ lock ∈ calls, RangeOk lock) :
    ∃ out, insertAll locks calls = some out ∧ Ordered out ∧
      typeAt out = calls.foldl override (typeAt locks) := by
  induction calls generalizing locks with
  | nil => exact ⟨locks,rfl,ordered,rfl⟩
  | cons lock calls ih =>
    obtain ⟨next,inserted,spec⟩ := locksInsertInserted ordered (ranges lock List.mem_cons_self)
    obtain ⟨out,rest,last,map⟩ := ih spec.ordered (fun l mem => ranges l (List.mem_cons_of_mem _ mem))
    have step : typeAt next = override (typeAt locks) lock := by
      funext owner byte
      exact spec.map owner byte
    refine ⟨out,by simp only [insertAll,inserted,bind,Option.bind,rest],last,?_⟩
    rw [map,step,List.foldl_cons]

theorem conflictIffByte {locks lock} (ordered : Ordered locks) (proper : lock.start ≤ lock.stop) :
    (locksConflict locks lock).isSome ↔
      ∃ byte owner, lock.start ≤ byte ∧ byte ≤ lock.stop ∧ owner ≠ lock.owner ∧
        (typeAt locks owner byte = some .wrlck ∨
          lock.type = .wrlck ∧ typeAt locks owner byte ≠ none) := by
  simp only [locksConflict,List.find?_isSome,decide_eq_true_eq]
  constructor
  · rintro ⟨l,mem,other,first,last,types⟩
    have inside := (ordered.range l mem).2.1
    have covers : Covers l l.owner (max l.start lock.start) := ⟨rfl,by omega,by omega⟩
    refine ⟨max l.start lock.start,l.owner,by omega,by omega,other,?_⟩
    rw [typeAtOfCovers ordered mem covers]
    exact types.imp (fun write => by rw [write]) (fun write => ⟨write,by simp⟩)
  · rintro ⟨byte,owner,low,high,other,types⟩
    have found : ∃ l ∈ locks, Covers l owner byte ∧ (l.type = .wrlck ∨ lock.type = .wrlck) := by
      rcases types with write | ⟨write,some⟩
      · obtain ⟨l,mem,covers,type⟩ := typeAtMem write
        exact ⟨l,mem,covers,.inl type⟩
      · obtain ⟨type,found⟩ := Option.ne_none_iff_exists'.mp some
        obtain ⟨l,mem,covers,_⟩ := typeAtMem found
        exact ⟨l,mem,covers,.inr write⟩
    obtain ⟨l,mem,covers,write⟩ := found
    obtain ⟨owns,first,last⟩ := covers
    exact ⟨l,mem,by rw [owns]; exact other,by omega,by omega,write⟩

def ownerLocks (locks : List Lock) (owner : UInt64) : List Lock :=
  locks.filter (fun l => l.owner = owner)

theorem ownerSorted {locks} (ordered : Ordered locks) (owner : UInt64) :
    (ownerLocks locks owner).Pairwise Before := by
  apply List.Pairwise.imp_of_mem _ (ordered.sorted.filter _)
  intro a b first second before
  have ha : a.owner = owner := by simpa using (List.mem_filter.mp first).2
  have hb : b.owner = owner := by simpa using (List.mem_filter.mp second).2
  exact before (ha.trans hb.symm)

theorem lockListRefinesByteMap (calls : List Lock) (ranges : ∀ lock ∈ calls, RangeOk lock) :
    ∃ locks, insertAll [] calls = some locks ∧
      typeAt locks = calls.foldl override (fun _ _ => none) ∧
      (∀ owner, (ownerLocks locks owner).Pairwise Before ∧
        ∀ l ∈ ownerLocks locks owner, l.start ≤ l.stop ∧ l.type ≠ .unlck) ∧
      (∀ lock, RangeOk lock → ∃ out, locksInsert true true locks lock = some (0,out) ∧
        typeAt out = override (typeAt locks) lock) ∧
      ∀ lock, lock.start ≤ lock.stop →
        ((locksConflict locks lock).isSome ↔
          ∃ byte owner, lock.start ≤ byte ∧ byte ≤ lock.stop ∧ owner ≠ lock.owner ∧
            (typeAt locks owner byte = some .wrlck ∨
              lock.type = .wrlck ∧ typeAt locks owner byte ≠ none)) := by
  have empty : Ordered [] := ⟨by simp,by simp,List.Pairwise.nil⟩
  obtain ⟨locks,all,ordered,map⟩ := insertAllOrdered empty calls ranges
  refine ⟨locks,all,map,?_,?_,fun lock proper => conflictIffByte ordered proper⟩
  · intro owner
    refine ⟨ownerSorted ordered owner,fun l mem => ?_⟩
    have inList := (List.mem_filter.mp mem).1
    exact ⟨(ordered.range l inList).2.1,ordered.typed l inList⟩
  · intro lock range
    obtain ⟨out,inserted,spec⟩ := locksInsertInserted ordered range
    refine ⟨out,inserted,?_⟩
    funext owner byte
    exact spec.map owner byte

theorem lockListReadInsideWrite :
    ∃ locks, insertAll [] [⟨.wrlck,0,offsetMax,1,7⟩,⟨.rdlck,10,19,1,7⟩] = some locks ∧
      typeAt locks 7 15 = some .rdlck ∧ typeAt locks 7 20 = some .wrlck ∧ typeAt locks 8 15 = none := by
  obtain ⟨locks,all,map,_⟩ := lockListRefinesByteMap
    [⟨.wrlck,0,offsetMax,1,7⟩,⟨.rdlck,10,19,1,7⟩] (by decide)
  refine ⟨locks,all,?_⟩
  rw [map]
  decide

end FuseStudy.PosixLocks
