import Mathlib.Algebra.Order.BigOperators.Group.List
import Mathlib.Algebra.Order.Ring.Nat
import Mathlib.Tactic.Common

/-! C strings as byte lists without the terminating NUL: literals, splitting at a
separator, and the digits printed by the integer conversions of printf. -/
namespace FuseStudy.CString

abbrev Bytes := List UInt8

def ascii (s : String) : Bytes := s.toList.map (fun c => UInt8.ofNat c.toNat)

-- Keeps empty fields, also the last one: n separators give n+1 fields.
@[grind =]
def split (separator : UInt8) : Bytes → List Bytes
  | [] => [[]]
  | b :: rest =>
    if b = separator then [] :: split separator rest
    else match split separator rest with
      | [] => [[b]]
      | head :: tail => (b :: head) :: tail

theorem splitField {separator : UInt8} {field : Bytes} (plain : separator ∉ field) :
    split separator field = [field] := by
  induction field with
  | nil => rfl
  | cons b rest ih =>
    obtain ⟨first,later⟩ := not_or.mp (mt List.mem_cons.mpr plain)
    simp only [split,if_neg (Ne.symm first),ih later]

theorem splitAppend {separator : UInt8} {field : Bytes} (plain : separator ∉ field) (rest : Bytes) :
    split separator (field ++ separator :: rest) = field :: split separator rest := by
  induction field with
  | nil => simp [split]
  | cons b field ih =>
    obtain ⟨first,later⟩ := not_or.mp (mt List.mem_cons.mpr plain)
    simp only [List.cons_append,split,if_neg (Ne.symm first),ih later]

theorem splitNe (separator : UInt8) (s : Bytes) : split separator s ≠ [] := by
  cases s with
  | nil => simp [split]
  | cons b rest =>
    simp only [split]
    split
    · simp
    · split <;> simp

theorem splitSeparated (separator : UInt8) (s rest : Bytes) :
    split separator (s ++ separator :: rest) = split separator s ++ split separator rest := by
  induction s with
  | nil => simp [split]
  | cons b s ih =>
    simp only [List.cons_append,split,ih]
    split
    · rfl
    · cases fields : split separator s with
      | nil => exact absurd fields (splitNe separator s)
      | cons head tail => rfl

/- The inverse of split: a separator between any two fields. -/
@[grind =]
def joined (separator : UInt8) : List Bytes → Bytes
  | [] => []
  | [field] => field
  | field :: next :: rest => field ++ separator :: joined separator (next :: rest)

theorem joinedCons (separator : UInt8) (field : Bytes) {fields : List Bytes} (more : fields ≠ []) :
    joined separator (field :: fields) = field ++ separator :: joined separator fields := by
  cases fields with
  | nil => exact absurd rfl more
  | cons next rest => rfl

theorem joinedAppend (separator : UInt8) {first later : List Bytes} (some : first ≠ []) (more : later ≠ []) :
    joined separator (first ++ later) = joined separator first ++ separator :: joined separator later := by
  induction first with
  | nil => exact absurd rfl some
  | cons field fields ih =>
    cases fields with
    | nil => exact joinedCons separator field more
    | cons next rest =>
      have tail := ih (by simp)
      rw [List.cons_append,joinedCons separator field (by simp),tail,joinedCons separator field (by simp)]
      simp

theorem splitJoined (separator : UInt8) {fields : List Bytes} (some : fields ≠ []) :
    split separator (joined separator fields) = fields.flatMap (split separator) := by
  induction fields with
  | nil => exact absurd rfl some
  | cons field rest ih =>
    cases rest with
    | nil => simp [joined]
    | cons next rest =>
      rw [joinedCons separator field (by simp),splitSeparated,ih (by simp)]
      rfl

theorem joinedSplit (separator : UInt8) (s : Bytes) : joined separator (split separator s) = s := by
  induction s with
  | nil => rfl
  | cons b s ih =>
    simp only [split]
    split
    · rename_i stop
      rw [joinedCons separator [] (splitNe separator s),ih,stop]
      rfl
    · cases fields : split separator s with
      | nil => exact absurd fields (splitNe separator s)
      | cons head tail =>
        rw [fields] at ih
        cases tail with
        | nil => simpa [joined] using ih
        | cons next rest =>
          rw [joinedCons separator head (by simp)] at ih
          simp only
          rw [joinedCons separator (b :: head) (by simp),List.cons_append,ih]

theorem splitPlain (separator : UInt8) (s : Bytes) : ∀ field ∈ split separator s, separator ∉ field := by
  induction s with
  | nil => simp [split]
  | cons b s ih =>
    rw [split]
    split
    · intro field inside
      obtain rfl | later := List.mem_cons.mp inside
      · exact List.not_mem_nil
      · exact ih field later
    · rename_i other
      split
      · rename_i none
        exact absurd none (splitNe separator s)
      · rename_i head tail fields
        rw [fields] at ih
        intro field inside
        obtain rfl | later := List.mem_cons.mp inside
        · intro mem
          obtain same | mem := List.mem_cons.mp mem
          · exact other same.symm
          · exact ih head List.mem_cons_self mem
        · exact ih field (List.mem_cons_of_mem _ later)

theorem splitPlainFields {separator : UInt8} {fields : List Bytes} (plain : ∀ field ∈ fields, separator ∉ field) :
    fields.flatMap (split separator) = fields := by
  induction fields with
  | nil => rfl
  | cons field fields ih =>
    rw [List.flatMap_cons,splitField (plain field List.mem_cons_self),
      ih fun later inside => plain later (List.mem_cons_of_mem _ inside)]
    rfl

theorem splitPlainJoined {separator : UInt8} {fields : List Bytes} (some : fields ≠ [])
    (plain : ∀ field ∈ fields, separator ∉ field) :
    split separator (joined separator fields) = fields := by
  rw [splitJoined separator some,splitPlainFields plain]

theorem joinedLength (separator : UInt8) {fields : List Bytes} (some : fields ≠ []) :
    (joined separator fields).length + 1 = (fields.map (fun field => field.length + 1)).sum := by
  induction fields with
  | nil => exact absurd rfl some
  | cons field rest ih =>
    cases rest with
    | nil => simp [joined]
    | cons next rest =>
      rw [joinedCons separator field (by simp),List.map_cons,List.sum_cons,← ih (by simp)]
      simp only [List.length_append,List.length_cons]
      omega

theorem joinedMem (separator : UInt8) {fields : List Bytes} {field : Bytes} {b : UInt8} (inside : field ∈ fields)
    (mem : b ∈ field) : b ∈ joined separator fields := by
  induction fields with
  | nil => cases inside
  | cons head rest ih =>
    cases rest with
    | nil => rwa [List.mem_singleton.mp inside] at mem
    | cons next rest =>
      rw [joinedCons separator head (by simp),List.mem_append,List.mem_cons]
      obtain rfl | later := List.mem_cons.mp inside
      · exact Or.inl mem
      · exact Or.inr (Or.inr (ih later))

theorem joinedSublist (separator : UInt8) {some all : List Bytes} (part : some.Sublist all) :
    (joined separator some).length ≤ (joined separator all).length := by
  by_cases none : some = []
  · simp [none,joined]
  · have more : all ≠ [] := fun empty => none (List.sublist_nil.mp (empty ▸ part))
    have sums := (part.map (fun field : Bytes => field.length + 1)).sum_le_sum (by simp)
    rw [← joinedLength separator none,← joinedLength separator more] at sums
    omega

theorem joinedAppendLe (separator : UInt8) (first later : List Bytes) :
    (joined separator (first ++ later)).length ≤
      (joined separator first).length + (joined separator later).length + 1 := by
  by_cases none : first = []
  · simp only [none,List.nil_append]
    omega
  by_cases last : later = []
  · simp only [last,List.append_nil]
    omega
  rw [joinedAppend separator none last]
  simp only [List.length_append,List.length_cons]
  omega

theorem joinedFlat (separator : UInt8) (first : List Bytes) {later : List Bytes} (more : later ≠ []) :
    joined separator (first ++ later) =
      first.flatMap (fun field => field ++ [separator]) ++ joined separator later := by
  induction first with
  | nil => rfl
  | cons field first ih =>
    have tail : first ++ later ≠ [] := by simp [more]
    rw [List.cons_append,joinedCons separator field tail,ih]
    simp

/- Each field closed by a separator, then a last part: what a program that appends
"field," in a loop and prints the rest leaves in its buffer. -/
theorem splitFlatMap {separator : UInt8} {fields : List Bytes}
    (plain : ∀ field ∈ fields, separator ∉ field) (rest : Bytes) :
    split separator (fields.flatMap (fun field => field ++ [separator]) ++ rest) =
      fields ++ split separator rest := by
  induction fields with
  | nil => rfl
  | cons field fields ih =>
    have later := ih (fun f mem => plain f (List.mem_cons_of_mem _ mem))
    have first := splitAppend (plain field List.mem_cons_self)
      (fields.flatMap (fun field => field ++ [separator]) ++ rest)
    simp only [List.flatMap_cons,List.append_assoc,List.cons_append,List.nil_append]
    rw [first,later]

-- Most significant digit first; base at most ten.
def digits (base n : Nat) : Bytes :=
  if base ≤ n ∧ 2 ≤ base then digits base (n / base) ++ [UInt8.ofNat (48 + n % base)]
  else [UInt8.ofNat (48 + n)]
termination_by n
decreasing_by
  rename_i large
  exact Nat.div_lt_self (by omega) large.2

theorem digitsLength {base k n : Nat} (bound : n < base ^ (k+1)) :
    (digits base n).length ≤ k + 1 := by
  induction k generalizing n with
  | zero =>
    rw [Nat.zero_add,Nat.pow_one] at bound
    rw [digits,if_neg (by omega)]
    simp
  | succ k ih =>
    rw [digits]
    split
    · have smaller : n / base < base ^ (k+1) := by
        apply Nat.div_lt_of_lt_mul
        rw [← Nat.pow_succ']
        exact bound
      have rest := ih smaller
      simp only [List.length_append,List.length_singleton]
      omega
    · simp

theorem digitRange {base n : Nat} (ten : base ≤ 10) (two : 2 ≤ base) :
    ∀ b ∈ digits base n, 48 ≤ b.toNat ∧ b.toNat ≤ 57 := by
  induction n using Nat.strongRecOn with
  | ind n ih =>
    intro b mem
    rw [digits] at mem
    split at mem
    · rename_i large
      rcases List.mem_append.mp mem with earlier | last
      · exact ih (n / base) (Nat.div_lt_self (by omega) large.2) b earlier
      · have digit := Nat.mod_lt n (show 0 < base by omega)
        rw [List.mem_singleton.mp last,UInt8.toNat_ofNat_of_lt' (by simp [UInt8.size]; omega)]
        omega
    · rename_i small
      rw [List.mem_singleton.mp mem,UInt8.toNat_ofNat_of_lt' (by simp [UInt8.size]; omega)]
      omega

end FuseStudy.CString
