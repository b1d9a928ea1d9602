import Mathlib.Algebra.Group.Nat.Defs
import Mathlib.Data.List.Basic

/-! Words of flags: which flags a word has, and tables that carry the flags of one numbering over
to another. -/
namespace FuseStudy.FlagWords

variable {w : Nat}

def Within (a b : BitVec w) : Prop := a &&& ~~~b = 0#w

instance (a b : BitVec w) : Decidable (Within a b) := inferInstanceAs (Decidable (_ = _))

@[grind =]
def has (x mask : BitVec w) : Bool := x &&& mask != 0#w

theorem eqZeroBits {x : BitVec w} : x = 0#w ↔ ∀ k, x.getLsbD k = false := by
  constructor
  · rintro rfl k
    simp
  · intro clear
    apply BitVec.eq_of_getLsbD_eq
    intro k _
    rw [clear k,BitVec.getLsbD_zero]

theorem withinBits {a b : BitVec w} : Within a b ↔ ∀ k, a.getLsbD k = true → b.getLsbD k = true := by
  rw [Within,eqZeroBits]
  constructor
  · intro clear k set
    have small := BitVec.lt_of_getLsbD set
    simpa [set,small] using clear k
  · intro sub k
    cases set : a.getLsbD k with
    | false => simp [set]
    | true => simp [set,sub k set]

theorem hasBits {x mask : BitVec w} : has x mask = true ↔ ∃ k, x.getLsbD k = true ∧ mask.getLsbD k = true := by
  rw [has,bne_iff_ne,Ne,eqZeroBits,Classical.not_forall]
  apply exists_congr
  intro k
  rw [BitVec.getLsbD_and,Bool.not_eq_false,Bool.and_eq_true]

theorem Within.refl (a : BitVec w) : Within a a := withinBits.mpr fun _ set => set

theorem Within.trans {a b c : BitVec w} (ab : Within a b) (bc : Within b c) : Within a c :=
  withinBits.mpr fun k set => withinBits.mp bc k (withinBits.mp ab k set)

theorem Within.or {a b c : BitVec w} (ac : Within a c) (bc : Within b c) : Within (a ||| b) c := by
  rw [withinBits] at *
  intro k set
  rw [BitVec.getLsbD_or,Bool.or_eq_true] at set
  exact set.elim (ac k) (bc k)

theorem withinOrLeft (a b : BitVec w) : Within a (a ||| b) := by
  rw [withinBits]
  intro k set
  rw [BitVec.getLsbD_or,set,Bool.true_or]

theorem withinOrRight (a b : BitVec w) : Within b (a ||| b) := by
  rw [withinBits]
  intro k set
  rw [BitVec.getLsbD_or,set,Bool.or_true]

theorem zeroWithin (a : BitVec w) : Within 0#w a := by simp [Within]

theorem Within.has {a b mask : BitVec w} (ab : Within a b) (set : has a mask = true) : has b mask = true := by
  obtain ⟨k,bit,inMask⟩ := hasBits.mp set
  exact hasBits.mpr ⟨k,withinBits.mp ab k bit,inMask⟩

def Single (mask : BitVec w) : Prop := ∃ k < w, mask = BitVec.twoPow w k

instance (mask : BitVec w) : Decidable (Single mask) :=
  inferInstanceAs (Decidable (∃ k, k < w ∧ mask = BitVec.twoPow w k))

theorem Single.within {x mask : BitVec w} (single : Single mask) (set : FlagWords.has x mask = true) :
    Within mask x := by
  obtain ⟨k,_,rfl⟩ := single
  obtain ⟨j,bit,same⟩ := hasBits.mp set
  rw [withinBits]
  intro i here
  simp only [BitVec.getLsbD_twoPow,Bool.and_eq_true,decide_eq_true_eq] at same here
  rw [← here.2,same.2]
  exact bit

/- `if (x & p.1) out |= p.2` for every pair of the table. -/
@[grind =]
def carry (table : List (BitVec w × BitVec w)) (x : BitVec w) : BitVec w :=
  table.foldl (fun out p => if has x p.1 then out ||| p.2 else out) 0#w

theorem carryFrom {table : List (BitVec w × BitVec w)} {x start : BitVec w} {k : Nat} :
    (table.foldl (fun out p => if has x p.1 then out ||| p.2 else out) start).getLsbD k = true ↔
      start.getLsbD k = true ∨ ∃ p ∈ table, has x p.1 = true ∧ p.2.getLsbD k = true := by
  induction table generalizing start with
  | nil => simp
  | cons p table ih =>
    rw [List.foldl_cons,ih,List.exists_mem_cons_iff]
    by_cases set : has x p.1 = true
    · rw [if_pos set,BitVec.getLsbD_or,Bool.or_eq_true,or_assoc,and_iff_right set]
    · rw [if_neg set]
      simp [set]

theorem carryBits {table : List (BitVec w × BitVec w)} {x : BitVec w} {k : Nat} :
    (carry table x).getLsbD k = true ↔ ∃ p ∈ table, has x p.1 = true ∧ p.2.getLsbD k = true := by
  rw [carry,carryFrom]
  simp

/- Whatever of `forth` raises a flag that `back` tests was tested under the name `back` gives it. -/
def Undoes (back forth : List (BitVec w × BitVec w)) : Prop :=
  ∀ b ∈ back, ∀ f ∈ forth, has f.2 b.1 = true → f.1 = b.2 ∧ Single b.2

instance (back forth : List (BitVec w × BitVec w)) : Decidable (Undoes back forth) :=
  @List.decidableBAll (BitVec w × BitVec w) (fun b => ∀ f ∈ forth, has f.2 b.1 = true → f.1 = b.2 ∧ Single b.2)
    (fun _ => List.decidableBAll _ forth) back

/- A word chosen among what was carried forth, and among flags that have no name, is carried back
to what it came from. -/
theorem carriedBack {back forth : List (BitVec w × BitVec w)} {x y rest : BitVec w}
    (undoes : Undoes back forth) (nameless : ∀ b ∈ back, has rest b.1 = false)
    (chosen : Within y (carry forth x ||| rest)) : Within (carry back y) x := by
  rw [withinBits]
  intro k set
  obtain ⟨b,inBack,tested,raised⟩ := carryBits.mp set
  obtain ⟨j,bit,inMask⟩ := hasBits.mp tested
  have source := withinBits.mp chosen j bit
  rw [BitVec.getLsbD_or,Bool.or_eq_true] at source
  rcases source with carried | other
  · obtain ⟨f,inForth,offered,forthBit⟩ := carryBits.mp carried
    obtain ⟨same,single⟩ := undoes b inBack f inForth (hasBits.mpr ⟨j,forthBit,inMask⟩)
    rw [same] at offered
    exact withinBits.mp (single.within offered) k raised
  · have none := nameless b inBack
    rw [hasBits.mpr ⟨j,other,inMask⟩] at none
    contradiction

end FuseStudy.FlagWords
