import Mathlib.Algebra.Order.Ring.Nat
import Mathlib.Logic.Function.Basic
import Mathlib.Tactic.Common
import Mathlib.Tactic.Ring

/-! Linear hashing with chained buckets over an arbitrary element type. An element is
hashed by a caller's function; buckets below `split` have been divided between the
lower and the upper half of the table. Growing and shrinking move one bucket at a time
and double or halve the array when a round is complete; either reallocation may fail. -/
namespace FuseStudy.LinearHash

variable {α : Type}

structure Table (α : Type) where
  bucket : Nat → List α
  slots : Nat
  use : Nat
  size : Nat
  split : Nat

def init (minSize : Nat) : Table α := ⟨fun _ => [],minSize,0,minSize,0⟩

def index (t : Table α) (key : Nat) : Nat :=
  let hash := key % t.size
  let oldhash := hash % (t.size / 2)
  if oldhash ≥ t.split then oldhash else hash

def find (t : Table α) (key : Nat) (p : α → Bool) : Option α := (t.bucket (index t key)).find? p

def reduce (minSize : Nat) (realloc : Bool) (t : Table α) : Table α :=
  let newsize := t.size / 2
  if newsize < minSize then t
  else {t with
    bucket := if realloc then fun i => if i < newsize then t.bucket i else [] else t.bucket
    slots := if realloc then newsize else t.slots
    size := newsize
    split := newsize / 2}

def mergeLoop : Nat → Table α → Table α
  | 0, t => t
  | iter+1, t =>
    if t.split = 0 then t
    else
      let split := t.split - 1
      let upper := split + t.size / 2
      if t.bucket upper = [] then mergeLoop iter {t with split := split}
      else {t with
        bucket := Function.update (Function.update t.bucket split (t.bucket split ++ t.bucket upper)) upper []
        split := split}

def remerge (minSize : Nat) (realloc : Bool) (t : Table α) : Table α :=
  mergeLoop 8 (if t.split = 0 then reduce minSize realloc t else t)

def resize (realloc : Bool) (t : Table α) : Table α :=
  if realloc then {t with
    bucket := fun i => if t.size ≤ i then [] else t.bucket i
    slots := t.size * 2
    size := t.size * 2
    split := 0}
  else t

def push (buckets : Nat → List α) (i : Nat) (a : α) : Nat → List α :=
  Function.update buckets i (a :: buckets i)

/- Walks the chain of bucket `hash` after split was advanced: an element that now belongs
elsewhere is pushed there, the others stay in order. -/
def redistribute (key : α → Nat) (t : Table α) (hash : Nat) (buckets : Nat → List α) :
    List α → (Nat → List α)
  | [] => buckets
  | a :: rest =>
    let newhash := index t (key a)
    if newhash ≠ hash then redistribute key t hash (push buckets newhash a) rest
    else redistribute key t hash (Function.update buckets hash (buckets hash ++ [a])) rest

def rehash (key : α → Nat) (realloc : Bool) (t : Table α) : Table α :=
  if t.split = t.size / 2 then t
  else
    let hash := t.split
    let moved := {t with split := t.split + 1}
    let full := {moved with
      bucket := redistribute key moved hash (Function.update t.bucket hash []) (t.bucket hash)}
    if full.split = full.size / 2 then resize realloc full else full

def insert (key : α → Nat) (realloc : Bool) (t : Table α) (a : α) : Table α :=
  let t := {t with bucket := push t.bucket (index t (key a)) a, use := t.use + 1}
  if t.use ≥ t.size / 2 then rehash key realloc t else t

/- Unchaining an element and giving its place back are separate: the caller may do other
work, even on this table, in between. -/
def unchain [DecidableEq α] (key : α → Nat) (t : Table α) (a : α) : Option (Table α) :=
  let i := index t (key a)
  if a ∈ t.bucket i then some {t with bucket := Function.update t.bucket i ((t.bucket i).erase a)}
  else none

def release (minSize : Nat) (realloc : Bool) (t : Table α) : Table α :=
  let t := {t with use := t.use - 1}
  if t.use < t.size / 4 then remerge minSize realloc t else t

def Has (t : Table α) (a : α) : Prop := ∃ i, a ∈ t.bucket i

/- minSize is even and positive; the size is minSize doubled some number of times. -/
structure Valid (minSize : Nat) (key : α → Nat) (t : Table α) : Prop where
  least : ∃ half, 0 < half ∧ minSize = 2 * half
  size : ∃ rounds, t.size = minSize * 2 ^ rounds
  split : t.split ≤ t.size / 2
  slots : t.size ≤ t.slots
  placed : ∀ i a, a ∈ t.bucket i → index t (key a) = i
  nodup : ∀ i, (t.bucket i).Nodup

variable {minSize : Nat} {key : α → Nat} {t : Table α}

theorem Valid.half (valid : Valid minSize key t) : ∃ half, 0 < half ∧ t.size = 2 * half := by
  obtain ⟨least,pos,min⟩ := valid.least
  obtain ⟨rounds,size⟩ := valid.size
  refine ⟨least * 2 ^ rounds,Nat.mul_pos pos (Nat.pow_pos (by omega)),?_⟩
  rw [size,min,Nat.mul_assoc]

theorem Valid.congr {key' : α → Nat} (valid : Valid minSize key t)
    (same : ∀ a, Has t a → key' a = key a) : Valid minSize key' t :=
  ⟨valid.least,valid.size,valid.split,valid.slots,
    fun i a mem => by rw [same a ⟨i,mem⟩]; exact valid.placed i a mem,valid.nodup⟩

theorem hasIff (valid : Valid minSize key t) (a : α) :
    Has t a ↔ a ∈ t.bucket (index t (key a)) := by
  constructor
  · rintro ⟨i,mem⟩
    rw [valid.placed i a mem]
    exact mem
  · exact fun mem => ⟨_,mem⟩

theorem indexHalf {t : Table α} (half : Nat) (size : t.size = 2 * half) (key : Nat) :
    index t key = if key % half ≥ t.split then key % half else key % (2 * half) := by
  have old : key % (2 * half) % half = key % half := Nat.mod_mod_of_dvd key (Dvd.intro_left 2 rfl)
  have halved : 2 * half / 2 = half := by omega
  simp only [index,size,halved,old]

theorem modTwice (half k : Nat) :
    k % (2 * half) = k % half ∨ k % (2 * half) = k % half + half := by
  rw [Nat.mul_comm,Nat.mod_mul]
  rcases (show k / half % 2 = 0 ∨ k / half % 2 = 1 by omega) with h | h <;> simp [h]

theorem indexLt (valid : Valid minSize key t) (k : Nat) : index t k < t.size / 2 + t.split := by
  obtain ⟨half,pos,size⟩ := valid.half
  have low := Nat.mod_lt k pos
  have twice := modTwice half k
  rw [indexHalf half size]
  split <;> omega

theorem emptyAbove (valid : Valid minSize key t) {i : Nat} (above : t.size / 2 + t.split ≤ i) :
    t.bucket i = [] := by
  apply List.eq_nil_iff_forall_not_mem.mpr
  intro a mem
  have bound := indexLt valid (key a)
  rw [valid.placed i a mem] at bound
  omega

theorem findIff (valid : Valid minSize key t) {k : Nat} {p : α → Bool}
    (hashed : ∀ a, Has t a → p a → key a = k)
    (unique : ∀ a b, Has t a → Has t b → p a → p b → a = b) (a : α) :
    find t k p = some a ↔ Has t a ∧ p a := by
  constructor
  · intro found
    exact ⟨⟨_,List.mem_of_find?_eq_some found⟩,List.find?_some found⟩
  · rintro ⟨has,holds⟩
    have mem := (hasIff valid a).mp has
    rw [hashed a has holds] at mem
    cases found : find t k p with
    | none =>
      have absent := List.find?_eq_none.mp found a mem
      exact absurd holds absent
    | some b =>
      have hb : Has t b := ⟨_,List.mem_of_find?_eq_some found⟩
      rw [unique a b has hb holds (List.find?_some found)]

theorem initValid {half : Nat} (pos : 0 < half) (key : α → Nat) :
    Valid (2 * half) key (init (2 * half)) := by
  refine ⟨⟨half,pos,rfl⟩,⟨0,by simp [init]⟩,by simp [init],by simp [init],?_,by simp [init]⟩
  intro i a mem
  simp [init] at mem

/- A reorganisation keeps the elements and leaves the table valid. -/
structure Keeps (minSize : Nat) (key : α → Nat) (t out : Table α) : Prop where
  valid : Valid minSize key out
  has : ∀ a, Has out a ↔ Has t a

theorem Keeps.refl (valid : Valid minSize key t) : Keeps minSize key t t := ⟨valid,fun _ => Iff.rfl⟩

theorem Keeps.trans {mid out : Table α} (first : Keeps minSize key t mid)
    (second : Keeps minSize key mid out) : Keeps minSize key t out :=
  ⟨second.valid,fun a => (second.has a).trans (first.has a)⟩

/- With split at zero the upper half is empty, so halving the size loses nothing and no
element changes its bucket. -/
theorem reduceKeeps (valid : Valid minSize key t) (zero : t.split = 0) (realloc : Bool) :
    Keeps minSize key t (reduce minSize realloc t) := by
  unfold reduce
  simp only
  split
  · exact .refl valid
  rename_i large
  obtain ⟨least,pos,min⟩ := valid.least
  obtain ⟨rounds,size⟩ := valid.size
  cases rounds with
  | zero =>
    rw [Nat.pow_zero,Nat.mul_one] at size
    omega
  | succ rounds =>
    have halved : t.size / 2 = minSize * 2 ^ rounds := by
      rw [size,Nat.pow_succ,← Nat.mul_assoc]
      omega
    have whole : t.size = 2 * (minSize * 2 ^ rounds) := by
      rw [size,Nat.pow_succ]
      ring
    have quarter : t.size / 2 = 2 * (least * 2 ^ rounds) := by
      rw [halved,min,Nat.mul_assoc]
    have same : (if realloc then fun i => if i < t.size / 2 then t.bucket i else [] else t.bucket) = t.bucket := by
      cases realloc with
      | false => rfl
      | true =>
        funext i
        simp only [if_true]
        split
        · rfl
        · rw [emptyAbove valid (by omega)]
    rw [same]
    refine ⟨⟨valid.least,⟨rounds,halved⟩,Nat.le_refl _,?_,?_,valid.nodup⟩,fun _ => Iff.rfl⟩
    · have slots := valid.slots
      simp only
      split <;> omega
    · intro i a mem
      rw [← valid.placed i a mem]
      rw [indexHalf (t := t) _ whole,indexHalf (least * 2 ^ rounds) quarter,zero]
      have low := Nat.mod_lt (key a) (show 0 < least * 2 ^ rounds from Nat.mul_pos pos (Nat.pow_pos (by omega)))
      simp only
      rw [if_neg (by omega),if_pos (by omega),← quarter,halved]

theorem indexMerge {half split : Nat} (k : Nat) (out : Table α) (size : t.size = 2 * half)
    (was : t.split = split + 1) (outSize : out.size = t.size) (outSplit : out.split = split) :
    (k % half ≠ split → index out k = index t k) ∧
    (k % half = split → index out k = split ∧ (index t k = split ∨ index t k = split + half)) := by
  have twice := modTwice half k
  rw [indexHalf half (outSize.trans size),indexHalf half size,outSplit,was]
  constructor
  · intro other
    by_cases low : k % half ≥ split
    · rw [if_pos low,if_pos (by omega)]
    · rw [if_neg low,if_neg (by omega)]
  · intro same
    rw [if_pos (by omega),if_neg (by omega)]
    omega

theorem mergeLoopKeeps (valid : Valid minSize key t) (iter : Nat) :
    Keeps minSize key t (mergeLoop iter t) := by
  induction iter generalizing t with
  | zero => exact .refl valid
  | succ iter ih =>
    unfold mergeLoop
    split
    · exact .refl valid
    rename_i positive
    obtain ⟨half,pos,size⟩ := valid.half
    have halved : t.size / 2 = half := by omega
    have within := valid.split
    obtain ⟨split,was⟩ := Nat.exists_eq_succ_of_ne_zero positive
    have back : t.split - 1 = split := by omega
    simp only [halved,back]
    split
    · rename_i vacant
      have lower : Valid minSize key {t with split := split} := by
        refine ⟨valid.least,valid.size,by simp only; omega,valid.slots,?_,valid.nodup⟩
        intro i a mem
        have old := valid.placed i a mem
        obtain ⟨other,same⟩ := indexMerge (key a) {t with split := split} size was rfl rfl
        by_cases here : key a % half = split
        · obtain ⟨now,either⟩ := same here
          rcases either with low | high
          · rw [now,← low,old]
          · rw [old] at high
            rw [high,vacant] at mem
            simp at mem
        · rw [other here,old]
      have moved : Keeps minSize key t {t with split := split} := ⟨lower,fun _ => Iff.rfl⟩
      exact moved.trans (ih lower)
    · generalize hb : Function.update (Function.update t.bucket split
        (t.bucket split ++ t.bucket (split + half))) (split + half) [] = buckets
      have apart : split ≠ split + half := by omega
      have atLow : buckets split = t.bucket split ++ t.bucket (split + half) := by
        rw [← hb,Function.update_of_ne apart,Function.update_self]
      have atHigh : buckets (split + half) = [] := by
        rw [← hb,Function.update_self]
      have elsewhere : ∀ i, i ≠ split → i ≠ split + half → buckets i = t.bucket i := by
        intro i low high
        rw [← hb,Function.update_of_ne high,Function.update_of_ne low]
      refine ⟨⟨valid.least,valid.size,by simp only; omega,valid.slots,?_,?_⟩,?_⟩
      · intro i a mem
        obtain ⟨other,same⟩ := indexMerge (key a)
          {t with bucket := buckets, split := split} size was rfl rfl
        simp only at mem
        by_cases low : i = split
        · subst low
          rw [atLow] at mem
          apply (same ?_).1
          by_contra differs
          have keeps := indexHalf (t := t) half size (key a)
          have twice := modTwice half (key a)
          have small := Nat.mod_lt (key a) pos
          rcases List.mem_append.mp mem with here | there
          · rw [valid.placed _ a here] at keeps
            split at keeps <;> omega
          · rw [valid.placed _ a there] at keeps
            split at keeps <;> omega
        · by_cases high : i = split + half
          · subst high
            rw [atHigh] at mem
            simp at mem
          · rw [elsewhere i low high] at mem
            have old := valid.placed i a mem
            rw [other ?_,old]
            intro here
            rcases (same here).2 with h | h <;> omega
      · intro i
        simp only
        by_cases low : i = split
        · subst low
          rw [atLow,List.nodup_append]
          refine ⟨valid.nodup _,valid.nodup _,?_⟩
          intro a here b there equal
          subst equal
          have one := valid.placed _ a here
          have two := valid.placed _ a there
          omega
        · by_cases high : i = split + half
          · rw [high,atHigh]
            exact List.nodup_nil
          · rw [elsewhere i low high]
            exact valid.nodup i
      · intro a
        constructor
        · rintro ⟨i,mem⟩
          simp only at mem
          by_cases low : i = split
          · rw [low,atLow] at mem
            exact (List.mem_append.mp mem).elim (fun m => ⟨_,m⟩) (fun m => ⟨_,m⟩)
          · by_cases high : i = split + half
            · rw [high,atHigh] at mem
              simp at mem
            · rw [elsewhere i low high] at mem
              exact ⟨i,mem⟩
        · rintro ⟨i,mem⟩
          by_cases low : i = split
          · subst low
            exact ⟨_,by simp only; rw [atLow]; exact List.mem_append_left _ mem⟩
          · by_cases high : i = split + half
            · subst high
              exact ⟨split,by simp only; rw [atLow]; exact List.mem_append_right _ mem⟩
            · exact ⟨i,by simp only; rw [elsewhere i low high]; exact mem⟩

theorem remergeKeeps (valid : Valid minSize key t) (realloc : Bool) :
    Keeps minSize key t (remerge minSize realloc t) := by
  unfold remerge
  split
  · rename_i zero
    have reduced := reduceKeeps valid zero realloc
    exact reduced.trans (mergeLoopKeeps reduced.valid 8)
  · exact mergeLoopKeeps valid 8

theorem releaseKeeps (valid : Valid minSize key t) (realloc : Bool) :
    Keeps minSize key t (release minSize realloc t) := by
  have lower : Valid minSize key {t with use := t.use - 1} :=
    ⟨valid.least,valid.size,valid.split,valid.slots,valid.placed,valid.nodup⟩
  unfold release
  simp only
  split
  · have counted : Keeps minSize key t {t with use := t.use - 1} := ⟨lower,fun _ => Iff.rfl⟩
    exact counted.trans (remergeKeeps lower realloc)
  · exact ⟨lower,fun _ => Iff.rfl⟩

theorem pushMem {buckets : Nat → List α} {i j : Nat} {a b : α} :
    b ∈ push buckets i a j ↔ b ∈ buckets j ∨ (b = a ∧ j = i) := by
  unfold push
  by_cases here : j = i
  · subst here
    simp [or_comm]
  · simp [here]

theorem redistributeMem {hash : Nat} {buckets : Nat → List α} {chain : List α} {i : Nat} {a : α} :
    a ∈ redistribute key t hash buckets chain i ↔
      a ∈ buckets i ∨ (a ∈ chain ∧ index t (key a) = i) := by
  induction chain generalizing buckets with
  | nil => simp [redistribute]
  | cons head rest ih =>
    have either : ∀ {P : Prop}, (P ∨ a = head ∧ i = index t (key head)) ∨ a ∈ rest ∧ index t (key a) = i ↔
        P ∨ a ∈ head :: rest ∧ index t (key a) = i := by
      intro P
      rw [List.mem_cons,or_assoc]
      apply or_congr_right
      constructor
      · rintro (⟨rfl,rfl⟩ | ⟨mem,at_⟩)
        · exact ⟨.inl rfl,rfl⟩
        · exact ⟨.inr mem,at_⟩
      · rintro ⟨rfl | mem,rfl⟩
        · exact .inl ⟨rfl,rfl⟩
        · exact .inr ⟨mem,rfl⟩
    unfold redistribute
    simp only
    split
    · rw [ih,pushMem,either]
    · rename_i stays
      rw [not_not] at stays
      rw [ih,← either,stays]
      apply or_congr_left
      by_cases here : i = hash
      · subst here
        simp
      · simp [here]

theorem redistributeNodup {hash : Nat} {buckets : Nat → List α} {chain : List α}
    (nodup : ∀ i, (buckets i).Nodup) (chainNodup : chain.Nodup)
    (fresh : ∀ a ∈ chain, ∀ i, a ∉ buckets i) (i : Nat) :
    (redistribute key t hash buckets chain i).Nodup := by
  induction chain generalizing buckets with
  | nil => exact nodup i
  | cons head rest ih =>
    obtain ⟨outside,restNodup⟩ := List.nodup_cons.mp chainNodup
    have headFresh := fresh head List.mem_cons_self
    have restFresh := fun a mem => fresh a (List.mem_cons_of_mem head mem)
    unfold redistribute
    simp only
    split
    · apply ih _ restNodup
      · intro a mem j
        rw [pushMem]
        rintro (old | ⟨rfl,_⟩)
        · exact restFresh a mem j old
        · exact outside mem
      · intro j
        unfold push
        by_cases here : j = index t (key head)
        · subst here
          rw [Function.update_self]
          exact List.nodup_cons.mpr ⟨headFresh _,nodup _⟩
        · rw [Function.update_of_ne here]
          exact nodup j
    · apply ih _ restNodup
      · intro a mem j
        by_cases here : j = hash
        · subst here
          rw [Function.update_self,List.mem_append,List.mem_singleton]
          rintro (old | rfl)
          · exact restFresh a mem j old
          · exact outside mem
        · rw [Function.update_of_ne here]
          exact restFresh a mem j
      · intro j
        by_cases here : j = hash
        · subst here
          rw [Function.update_self,List.nodup_append]
          refine ⟨nodup j,by simp,?_⟩
          intro a old b new equal
          rw [List.mem_singleton] at new
          exact headFresh j (new ▸ equal ▸ old)
        · rw [Function.update_of_ne here]
          exact nodup j

/- split has reached half the size: every bucket already has its final place in the
doubled table. -/
theorem resizeKeeps (valid : Valid minSize key t) (complete : t.split = t.size / 2) (realloc : Bool) :
    Keeps minSize key t (resize realloc t) := by
  cases realloc with
  | false => exact .refl valid
  | true =>
    obtain ⟨half,pos,size⟩ := valid.half
    obtain ⟨rounds,power⟩ := valid.size
    have same : (fun i => if t.size ≤ i then [] else t.bucket i) = t.bucket := by
      funext i
      split
      · rw [emptyAbove valid (by omega)]
      · rfl
    unfold resize
    rw [if_pos rfl,same]
    refine ⟨⟨valid.least,⟨rounds + 1,?_⟩,Nat.zero_le _,Nat.le_refl _,?_,valid.nodup⟩,fun _ => Iff.rfl⟩
    · simp only
      rw [power,Nat.pow_succ,Nat.mul_assoc]
    · intro i a mem
      rw [← valid.placed i a mem,indexHalf t.size (by simp only; omega),indexHalf (t := t) half size]
      have low := Nat.mod_lt (key a) pos
      simp only
      rw [if_pos (by omega),if_neg (by omega),size]

theorem rehashKeeps (valid : Valid minSize key t) (realloc : Bool) :
    Keeps minSize key t (rehash key realloc t) := by
  unfold rehash
  split
  · exact .refl valid
  rename_i more
  obtain ⟨half,pos,size⟩ := valid.half
  have within := valid.split
  simp only
  generalize hm : ({t with split := t.split + 1} : Table α) = moved
  have movedSplit : moved.split = t.split + 1 := by rw [← hm]
  have movedSize : moved.size = t.size := by rw [← hm]
  generalize hb : redistribute key moved t.split (Function.update t.bucket t.split []) (t.bucket t.split) = buckets
  have old : ∀ k, (k % half ≠ t.split → index t k = index moved k) ∧
      (k % half = t.split → index t k = t.split ∧ (index moved k = t.split ∨ index moved k = t.split + half)) :=
    fun k => indexMerge k t (movedSize.trans size) movedSplit movedSize.symm rfl
  have mem : ∀ i a, a ∈ buckets i ↔
      (a ∈ t.bucket i ∧ i ≠ t.split) ∨ (a ∈ t.bucket t.split ∧ index moved (key a) = i) := by
    intro i a
    rw [← hb,redistributeMem]
    apply or_congr_left
    by_cases here : i = t.split
    · subst here
      simp
    · simp [here]
  have full : Keeps minSize key t {moved with bucket := buckets} := by
    refine ⟨⟨valid.least,?_,?_,?_,?_,?_⟩,?_⟩
    · rw [movedSize]
      exact valid.size
    · rw [movedSplit,movedSize]
      omega
    · rw [← hm]
      exact valid.slots
    · intro i a here
      rcases (mem i a).mp here with ⟨stays,other⟩ | ⟨_,now⟩
      · have was := valid.placed i a stays
        have unaffected : key a % half ≠ t.split := fun same => other (was.symm.trans ((old _).2 same).1)
        exact ((old _).1 unaffected).symm.trans was
      · exact now
    · intro i
      rw [← hb]
      apply redistributeNodup _ (valid.nodup _)
      · intro a chain j
        by_cases here : j = t.split
        · rw [here,Function.update_self]
          simp
        · rw [Function.update_of_ne here]
          intro there
          exact here ((valid.placed j a there).symm.trans (valid.placed _ a chain))
      · intro j
        by_cases here : j = t.split
        · rw [here,Function.update_self]
          exact List.nodup_nil
        · rw [Function.update_of_ne here]
          exact valid.nodup j
    · intro a
      constructor
      · rintro ⟨i,here⟩
        exact ((mem i a).mp here).elim (fun h => ⟨i,h.1⟩) (fun h => ⟨_,h.1⟩)
      · rintro ⟨i,here⟩
        by_cases first : i = t.split
        · exact ⟨index moved (key a),(mem _ a).mpr (.inr ⟨first ▸ here,rfl⟩)⟩
        · exact ⟨i,(mem i a).mpr (.inl ⟨here,first⟩)⟩
  subst hm
  split
  · rename_i complete
    exact full.trans (resizeKeeps full.valid complete realloc)
  · exact full

theorem insertSpec (valid : Valid minSize key t) {a : α} (fresh : ¬ Has t a) (realloc : Bool) :
    Valid minSize key (insert key realloc t a) ∧
    ∀ b, Has (insert key realloc t a) b ↔ Has t b ∨ b = a := by
  have pushed : Valid minSize key {t with bucket := push t.bucket (index t (key a)) a, use := t.use + 1} := by
    refine ⟨valid.least,valid.size,valid.split,valid.slots,?_,?_⟩
    · intro i b mem
      rcases pushMem.mp mem with old | ⟨rfl,rfl⟩
      · exact valid.placed i b old
      · rfl
    · intro i
      simp only [push]
      by_cases here : i = index t (key a)
      · rw [here,Function.update_self]
        exact List.nodup_cons.mpr ⟨fun mem => fresh ⟨_,mem⟩,valid.nodup _⟩
      · rw [Function.update_of_ne here]
        exact valid.nodup i
  have has : ∀ b, Has {t with bucket := push t.bucket (index t (key a)) a, use := t.use + 1} b ↔
      Has t b ∨ b = a := by
    intro b
    constructor
    · rintro ⟨i,mem⟩
      exact (pushMem.mp mem).imp (fun old => ⟨i,old⟩) (fun new => new.1)
    · rintro (⟨i,mem⟩ | rfl)
      · exact ⟨i,pushMem.mpr (.inl mem)⟩
      · exact ⟨_,pushMem.mpr (.inr ⟨rfl,rfl⟩)⟩
  unfold insert
  simp only
  split
  · have kept := rehashKeeps pushed realloc
    exact ⟨kept.valid,fun b => (kept.has b).trans (has b)⟩
  · exact ⟨pushed,has⟩

theorem unchainSpec [DecidableEq α] (valid : Valid minSize key t) {a : α} (present : Has t a) :
    ∃ out, unchain key t a = some out ∧ Valid minSize key out ∧ ∀ b, Has out b ↔ Has t b ∧ b ≠ a := by
  have chained := (hasIff valid a).mp present
  refine ⟨_,if_pos chained,⟨valid.least,valid.size,valid.split,valid.slots,?_,?_⟩,?_⟩
  · intro i b mem
    by_cases here : i = index t (key a)
    · subst here
      simp only [Function.update_self] at mem
      exact valid.placed _ b (List.mem_of_mem_erase mem)
    · simp only [Function.update_of_ne here] at mem
      exact valid.placed i b mem
  · intro i
    by_cases here : i = index t (key a)
    · subst here
      simp only [Function.update_self]
      exact (valid.nodup _).erase a
    · simp only [Function.update_of_ne here]
      exact valid.nodup i
  · intro b
    constructor
    · rintro ⟨i,mem⟩
      by_cases here : i = index t (key a)
      · subst here
        simp only [Function.update_self] at mem
        obtain ⟨differs,old⟩ := (valid.nodup _).mem_erase_iff.mp mem
        exact ⟨⟨_,old⟩,differs⟩
      · simp only [Function.update_of_ne here] at mem
        refine ⟨⟨i,mem⟩,?_⟩
        rintro rfl
        exact here (valid.placed i b mem).symm
    · rintro ⟨⟨i,mem⟩,differs⟩
      refine ⟨i,?_⟩
      by_cases here : i = index t (key a)
      · subst here
        simp only [Function.update_self]
        exact (valid.nodup _).mem_erase_iff.mpr ⟨differs,mem⟩
      · simp only [Function.update_of_ne here]
        exact mem

end FuseStudy.LinearHash
