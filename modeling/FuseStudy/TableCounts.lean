import FuseStudy.LinearHash

/-! A linear hash table as a finite map: it holds the elements of a list without
repetitions, and `use` counts them and the elements whose place is not given back yet. -/
namespace FuseStudy.LinearHash

variable {α : Type} {minSize : Nat} {key : α → Nat} {t : Table α}

theorem mergeLoopUse (iter : Nat) (t : Table α) : (mergeLoop iter t).use = t.use := by
  induction iter generalizing t with
  | zero => rfl
  | succ iter ih =>
    unfold mergeLoop
    split
    · rfl
    · simp only
      split
      · exact ih _
      · rfl

theorem remergeUse (realloc : Bool) (t : Table α) : (remerge minSize realloc t).use = t.use := by
  have reduced : (reduce minSize realloc t).use = t.use := by
    unfold reduce
    simp only
    split <;> rfl
  unfold remerge
  rw [mergeLoopUse]
  split
  · exact reduced
  · rfl

theorem rehashUse (realloc : Bool) (t : Table α) : (rehash key realloc t).use = t.use := by
  unfold rehash resize
  split
  · rfl
  · simp only
    split
    · split <;> rfl
    · rfl

theorem insertUse (realloc : Bool) (t : Table α) (a : α) : (insert key realloc t a).use = t.use + 1 := by
  unfold insert
  simp only
  split
  · rw [rehashUse]
  · rfl

theorem releaseUse (realloc : Bool) (t : Table α) : (release minSize realloc t).use = t.use - 1 := by
  unfold release
  simp only
  split
  · rw [remergeUse]
  · rfl

theorem unchainUse [DecidableEq α] {a : α} {out : Table α} (chained : unchain key t a = some out) :
    out.use = t.use := by
  unfold unchain at chained
  simp only at chained
  split at chained
  · cases chained
    rfl
  · cases chained

/- Unchaining and giving the place back are separate, so that `pending` elements may be
counted that the table no longer holds. -/
structure Represents (minSize : Nat) (key : α → Nat) (t : Table α) (elements : List α) (pending : Nat) : Prop where
  valid : Valid minSize key t
  distinct : elements.Nodup
  has : ∀ a, Has t a ↔ a ∈ elements
  use : t.use = elements.length + pending

variable {elements : List α} {pending : Nat}

theorem Represents.congr {key' : α → Nat} (represents : Represents minSize key t elements pending)
    (same : ∀ a ∈ elements, key' a = key a) : Represents minSize key' t elements pending :=
  ⟨represents.valid.congr (fun a has => same a ((represents.has a).mp has)),represents.distinct,
    represents.has,represents.use⟩

theorem representsInit {half : Nat} (pos : 0 < half) (key : α → Nat) :
    Represents (2 * half) key (init (2 * half)) [] 0 := by
  refine ⟨initValid pos key,List.nodup_nil,?_,rfl⟩
  intro a
  simp [Has,init]

theorem Represents.insert (represents : Represents minSize key t elements pending) {a : α}
    (fresh : a ∉ elements) (realloc : Bool) :
    Represents minSize key (insert key realloc t a) (a :: elements) pending := by
  have absent : ¬ Has t a := fun has => fresh ((represents.has a).mp has)
  obtain ⟨valid,has⟩ := insertSpec represents.valid absent realloc
  refine ⟨valid,List.nodup_cons.mpr ⟨fresh,represents.distinct⟩,?_,?_⟩
  · intro b
    rw [has,represents.has,List.mem_cons,or_comm]
  · rw [insertUse,represents.use,List.length_cons]
    omega

theorem Represents.unchain [DecidableEq α] (represents : Represents minSize key t elements pending) {a : α}
    (present : a ∈ elements) :
    ∃ out, unchain key t a = some out ∧ Represents minSize key out (elements.erase a) (pending + 1) := by
  obtain ⟨out,chained,valid,has⟩ := unchainSpec represents.valid ((represents.has a).mpr present)
  refine ⟨out,chained,valid,represents.distinct.erase a,?_,?_⟩
  · intro b
    rw [has,represents.has,represents.distinct.mem_erase_iff,and_comm]
  · have positive := List.length_pos_of_mem present
    rw [unchainUse chained,represents.use,List.length_erase_of_mem present]
    omega

theorem Represents.unchainAbsent [DecidableEq α] (represents : Represents minSize key t elements pending) {a : α}
    (absent : a ∉ elements) : LinearHash.unchain key t a = none := by
  have outside : a ∉ t.bucket (index t (key a)) := fun mem => absent ((represents.has a).mp ⟨_,mem⟩)
  simp only [LinearHash.unchain,if_neg outside]

theorem Represents.release (represents : Represents minSize key t elements (pending + 1)) (realloc : Bool) :
    Represents minSize key (release minSize realloc t) elements pending := by
  have kept := releaseKeeps represents.valid realloc
  refine ⟨kept.valid,represents.distinct,?_,?_⟩
  · intro a
    rw [kept.has,represents.has]
  · rw [releaseUse,represents.use]
    omega

/- The slots an operation reads or writes, each with the number of slots there are then. -/
def mergeTouches : Nat → Table α → List (Nat × Nat)
  | 0, _ => []
  | iter+1, t =>
    if t.split = 0 then []
    else
      let split := t.split - 1
      let upper := split + t.size / 2
      if t.bucket upper = [] then (upper,t.slots) :: mergeTouches iter {t with split := split}
      else [(upper,t.slots),(split,t.slots)]

def remergeTouches (minSize : Nat) (realloc : Bool) (t : Table α) : List (Nat × Nat) :=
  mergeTouches 8 (if t.split = 0 then reduce minSize realloc t else t)

/- The fill of resize goes to the end of the array it was given. -/
def rehashTouches (key : α → Nat) (realloc : Bool) (t : Table α) : List (Nat × Nat) :=
  if t.split = t.size / 2 then []
  else
    let moved := {t with split := t.split + 1}
    let walk := (t.split,t.slots) :: (t.bucket t.split).map (fun a => (index moved (key a),t.slots))
    if moved.split = moved.size / 2 ∧ realloc then
      walk ++ (List.range t.size).map (fun i => (t.size + i,t.size * 2))
    else walk

def insertTouches (key : α → Nat) (realloc : Bool) (t : Table α) (a : α) : List (Nat × Nat) :=
  let pushed := {t with bucket := push t.bucket (index t (key a)) a, use := t.use + 1}
  (index t (key a),t.slots) :: if pushed.use ≥ pushed.size / 2 then rehashTouches key realloc pushed else []

def unchainTouches (key : α → Nat) (t : Table α) (a : α) : List (Nat × Nat) := [(index t (key a),t.slots)]

def releaseTouches (minSize : Nat) (realloc : Bool) (t : Table α) : List (Nat × Nat) :=
  let t := {t with use := t.use - 1}
  if t.use < t.size / 4 then remergeTouches minSize realloc t else []

def Allocated (touches : List (Nat × Nat)) : Prop := ∀ touch ∈ touches, touch.1 < touch.2

theorem allocatedNil : Allocated [] := by simp [Allocated]

theorem allocatedCons {touch : Nat × Nat} {touches : List (Nat × Nat)} :
    Allocated (touch :: touches) ↔ touch.1 < touch.2 ∧ Allocated touches := List.forall_mem_cons

theorem allocatedAppend {touches later : List (Nat × Nat)} :
    Allocated (touches ++ later) ↔ Allocated touches ∧ Allocated later := List.forall_mem_append

theorem Valid.indexSlots (valid : Valid minSize key t) (k : Nat) : index t k < t.slots := by
  have bound := indexLt valid k
  have split := valid.split
  have slots := valid.slots
  omega

theorem mergeAllocated (iter : Nat) (t : Table α) (within : t.split ≤ t.size / 2) (slots : t.size ≤ t.slots) :
    Allocated (mergeTouches iter t) := by
  induction iter generalizing t with
  | zero => exact allocatedNil
  | succ iter ih =>
    unfold mergeTouches
    simp only
    split
    · exact allocatedNil
    rename_i positive
    split
    · apply allocatedCons.mpr
      constructor
      · simp only
        omega
      · apply ih
        · simp only
          omega
        · exact slots
    · apply allocatedCons.mpr
      constructor
      · simp only
        omega
      · apply allocatedCons.mpr
        constructor
        · simp only
          omega
        · exact allocatedNil

theorem releaseAllocated (valid : Valid minSize key t) (realloc : Bool) :
    Allocated (releaseTouches minSize realloc t) := by
  have lower : Valid minSize key {t with use := t.use - 1} :=
    ⟨valid.least,valid.size,valid.split,valid.slots,valid.placed,valid.nodup⟩
  unfold releaseTouches remergeTouches
  simp only
  split
  · split
    · rename_i zero
      have reduced := (reduceKeeps lower zero realloc).valid
      exact mergeAllocated 8 _ reduced.split reduced.slots
    · exact mergeAllocated 8 _ lower.split lower.slots
  · exact allocatedNil

theorem unchainAllocated (valid : Valid minSize key t) (key' : α → Nat) (a : α) :
    Allocated (unchainTouches key' t a) :=
  allocatedCons.mpr ⟨valid.indexSlots _,allocatedNil⟩

/- Nothing here depends on where the elements are, only on how the table is divided. -/
theorem rehashAllocated (valid : Valid minSize key t) (key' : α → Nat) (realloc : Bool) {buckets : Nat → List α}
    {use : Nat} : Allocated (rehashTouches key' realloc {t with bucket := buckets, use := use}) := by
  obtain ⟨half,pos,size⟩ := valid.half
  have within := valid.split
  have slots := valid.slots
  unfold rehashTouches
  simp only
  split
  · exact allocatedNil
  rename_i more
  have walk : Allocated ((t.split,t.slots) :: (buckets t.split).map
      (fun a => (index {t with bucket := buckets, use := use, split := t.split + 1} (key' a),t.slots))) := by
    apply allocatedCons.mpr
    constructor
    · simp only
      omega
    · intro touch mem
      obtain ⟨a,_,rfl⟩ := List.mem_map.mp mem
      have low := Nat.mod_lt (key' a) pos
      have twice := modTwice half (key' a)
      simp only
      rw [indexHalf half (by simp only [size])]
      simp only
      split <;> omega
  split
  · intro touch mem
    rcases List.mem_append.mp mem with before | filled
    · exact walk touch before
    · obtain ⟨i,low,rfl⟩ := List.mem_map.mp filled
      rw [List.mem_range] at low
      simp only
      omega
  · exact walk

theorem insertAllocated (valid : Valid minSize key t) (key' : α → Nat) (realloc : Bool) (a : α) :
    Allocated (insertTouches key' realloc t a) := by
  unfold insertTouches
  apply allocatedCons.mpr
  constructor
  · exact valid.indexSlots _
  · simp only
    split
    · exact rehashAllocated valid key' realloc
    · exact allocatedNil

/- What a table says of the elements put in and not taken out, and what the next call may
touch. -/
structure FiniteMap [DecidableEq α] (minSize : Nat) (hash : α → Nat) (t : Table α) (elements : List α) : Prop where
  distinct : elements.Nodup
  bucket : ∀ a i, a ∈ t.bucket i ↔ a ∈ elements ∧ i = index t (hash a)
  chains : ∀ i, (t.bucket i).Nodup
  use : t.use = elements.length
  size : ∃ rounds, t.size = minSize * 2 ^ rounds
  least : minSize ≤ t.size
  split : t.split ≤ t.size / 2
  empty : ∀ i, t.size / 2 + t.split ≤ i → t.bucket i = []
  slots : ∀ k, index t k < t.slots
  inserting : ∀ key realloc a, Allocated (insertTouches key realloc t a)
  unchaining : ∀ key a, Allocated (unchainTouches key t a)
  releasing : ∀ a out realloc, LinearHash.unchain hash t a = some out → Allocated (releaseTouches minSize realloc out)

theorem Represents.finiteMap [DecidableEq α] (represents : Represents minSize key t elements 0) :
    FiniteMap minSize key t elements := by
  have valid := represents.valid
  obtain ⟨rounds,size⟩ := valid.size
  have positive : 0 < 2 ^ rounds := Nat.pow_pos (by omega)
  refine {
    distinct := represents.distinct
    bucket := ?_
    chains := valid.nodup
    use := represents.use
    size := valid.size
    least := size ▸ Nat.le_mul_of_pos_right _ positive
    split := valid.split
    empty := fun i above => emptyAbove valid above
    slots := valid.indexSlots
    inserting := insertAllocated valid
    unchaining := unchainAllocated valid
    releasing := ?_ }
  · intro a i
    constructor
    · intro mem
      exact ⟨(represents.has a).mp ⟨i,mem⟩,(valid.placed i a mem).symm⟩
    · rintro ⟨mem,rfl⟩
      exact (hasIff valid a).mp ((represents.has a).mpr mem)
  · intro a out realloc chained
    by_cases present : a ∈ elements
    · obtain ⟨out',chained',left⟩ := represents.unchain present
      rw [chained] at chained'
      cases chained'
      exact releaseAllocated left.valid realloc
    · rw [represents.unchainAbsent present] at chained
      cases chained

end FuseStudy.LinearHash
