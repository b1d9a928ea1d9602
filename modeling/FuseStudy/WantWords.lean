import FuseStudy.DoInit

/-! conn->want and conn->want_ext beside the words in which the session keeps what the library
itself put into them. -/
namespace FuseStudy.WantWords
open FlagWords DoInit

inductive Field
  | want
  | wantExt
  deriving DecidableEq, Repr

def Uses (field : Field) : ConnAct → Prop
  | .setFeatureFlag _ => True
  | .unsetFeatureFlag _ => True
  | .want _ => field = .want
  | .wantExt _ => field = .wantExt
  | _ => False

/- The field that is left to the library holds what the session remembers, and the session's two
words remember the same flags. -/
structure Shadowed (field : Field) (s : Session) : Prop where
  narrow : s.connWant = fuseLower32Bits s.connWantExt
  other : match field with
    | .want => s.conn.wantExt = s.connWantExt
    | .wantExt => s.conn.want = s.connWant

theorem lowerOr (x y : BitVec 64) : fuseLower32Bits (x ||| y) = fuseLower32Bits x ||| y.setWidth 32 := by
  rw [fuseLower32Bits,BitVec.setWidth_or]
  rfl

theorem lowerClear (x y : BitVec 64) : fuseLower32Bits (x &&& ~~~y) = fuseLower32Bits x &&& ~~~(y.setWidth 32) := by
  rw [fuseLower32Bits,BitVec.setWidth_and,BitVec.setWidth_not (by decide)]
  rfl

theorem Shadowed.act {field : Field} {s : Session} {a : ConnAct} (shadowed : Shadowed field s) (uses : Uses field a) :
    Shadowed field (s.act a) := by
  obtain ⟨narrow,other⟩ := shadowed
  cases a with
  | setFeatureFlag flag =>
    show Shadowed field (fuseSetFeatureFlag s flag).1
    unfold fuseSetFeatureFlag
    split
    · refine ⟨?_,?_⟩
      · show s.connWant ||| flag.setWidth 32 = fuseLower32Bits (s.connWantExt ||| flag)
        rw [lowerOr,narrow]
      · cases field with
        | want => exact congrArg (· ||| flag) other
        | wantExt => exact congrArg (· ||| flag.setWidth 32) other
    · exact ⟨narrow,other⟩
  | unsetFeatureFlag flag =>
    refine ⟨?_,?_⟩
    · show s.connWant &&& ~~~(flag.setWidth 32) = fuseLower32Bits (s.connWantExt &&& ~~~flag)
      rw [lowerClear,narrow]
    · cases field with
      | want => exact congrArg (· &&& ~~~flag) other
      | wantExt => exact congrArg (· &&& ~~~(flag.setWidth 32)) other
  | want value =>
    cases uses
    exact ⟨narrow,other⟩
  | wantExt value =>
    cases uses
    exact ⟨narrow,other⟩
  | _ => exact absurd uses id

theorem Shadowed.acts {field : Field} {l : List ConnAct} {s : Session} (shadowed : Shadowed field s)
    (uses : ∀ a ∈ l, Uses field a) : Shadowed field (s.acts l) := by
  induction l generalizing s with
  | nil => exact shadowed
  | cons a l ih =>
    obtain ⟨first,rest⟩ := List.forall_mem_cons.mp uses
    exact ih (shadowed.act first) rest

theorem lowerJoined (x : BitVec 64) (y : BitVec 32) : fuseLower32Bits (fuseHigher32Bits x ||| y.setWidth 64) = y := by
  apply BitVec.eq_of_getLsbD_eq
  intro k small
  have mask : (0xffffffff#64).getLsbD k = true := by
    have ones : (0xffffffff#64) = BitVec.setWidth 64 (BitVec.allOnes 32) := by decide
    rw [ones,BitVec.getLsbD_setWidth,BitVec.getLsbD_allOnes]
    simp only [Bool.and_eq_true,decide_eq_true_eq]
    omega
  simp only [fuseLower32Bits,fuseHigher32Bits,BitVec.getLsbD_setWidth,BitVec.getLsbD_or,BitVec.getLsbD_and,
    BitVec.getLsbD_not,mask]
  simp [small,show k < 64 by omega]

theorem higherJoined (x : BitVec 64) (y : BitVec 32) :
    fuseHigher32Bits (fuseHigher32Bits x ||| y.setWidth 64) = fuseHigher32Bits x := by
  apply BitVec.eq_of_getLsbD_eq
  intro k small
  have ones : (0xffffffff#64) = BitVec.setWidth 64 (BitVec.allOnes 32) := by decide
  simp only [fuseHigher32Bits,ones,BitVec.getLsbD_setWidth,BitVec.getLsbD_or,BitVec.getLsbD_and,BitVec.getLsbD_not,
    BitVec.getLsbD_allOnes]
  rcases Nat.lt_or_ge k 32 with low | high
  · simp [small,low]
  · simp [small,show ¬k < 32 by omega,BitVec.getLsbD_of_ge y k high]

/- What a conversion owes: nothing of the file system's choice is lost. -/
structure Converted (field : Field) (s : Session) : Prop where
  accepted : (fuseConvertToConnWantExt s).2 = 0
  low : fuseLower32Bits (fuseConvertToConnWantExt s).1.conn.wantExt = match field with
    | .want => s.conn.want
    | .wantExt => fuseLower32Bits s.conn.wantExt
  high : fuseHigher32Bits (fuseConvertToConnWantExt s).1.conn.wantExt = fuseHigher32Bits s.conn.wantExt
  want : (fuseConvertToConnWantExt s).1.conn.want = fuseLower32Bits (fuseConvertToConnWantExt s).1.conn.wantExt
  again : fuseConvertToConnWantExt (fuseConvertToConnWantExt s).1 = ((fuseConvertToConnWantExt s).1,0)

theorem convertSettled {s : Session} (same : s.conn.want = fuseLower32Bits s.conn.wantExt) :
    fuseConvertToConnWantExt s = (s,0) := by
  have settled : {s with conn := {s.conn with want := fuseLower32Bits s.conn.wantExt}} = s := by
    rw [← same]
  unfold fuseConvertToConnWantExt
  rw [if_neg (fun both => both.2 same.symm)]
  exact congrArg (·,0) settled

theorem Shadowed.converted {field : Field} {s : Session} (shadowed : Shadowed field s) : Converted field s := by
  obtain ⟨narrow,other⟩ := shadowed
  cases field with
  | want =>
    change s.conn.wantExt = s.connWantExt at other
    rcases Decidable.em (s.conn.want = s.connWant) with same | differs
    · have agree : s.conn.want = fuseLower32Bits s.conn.wantExt := by rw [same,narrow,other]
      have settled := convertSettled agree
      refine ⟨by rw [settled],?_,by rw [settled],?_,?_⟩
      · rw [settled]
        exact agree.symm
      · rw [settled]
        exact agree
      · rw [settled]
        exact settled
    · have low : fuseLower32Bits s.conn.wantExt ≠ s.conn.want := by
        rw [other,← narrow]
        exact fun same => differs same.symm
      have joined : fuseConvertToConnWantExt s = ({s with conn := {s.conn with
          want := fuseLower32Bits (fuseHigher32Bits s.conn.wantExt ||| s.conn.want.setWidth 64)
          wantExt := fuseHigher32Bits s.conn.wantExt ||| s.conn.want.setWidth 64}},0) := by
        unfold fuseConvertToConnWantExt
        rw [if_pos ⟨differs,low⟩,if_neg (fun both => both other)]
      refine ⟨by rw [joined],?_,?_,by rw [joined],?_⟩
      · rw [joined]
        exact lowerJoined _ _
      · rw [joined]
        exact higherJoined _ _
      · rw [joined]
        exact convertSettled rfl
  | wantExt =>
    change s.conn.want = s.connWant at other
    have kept : fuseConvertToConnWantExt s =
        ({s with conn := {s.conn with want := fuseLower32Bits s.conn.wantExt}},0) := by
      unfold fuseConvertToConnWantExt
      rw [if_neg (fun both => both.1 other)]
    refine ⟨by rw [kept],by rw [kept],by rw [kept],by rw [kept],?_⟩
    rw [kept]
    exact convertSettled rfl

/- From words that are all zero, flags set and unset by the library's functions and assignments to
one of the two fields, in any order, come through the conversion. -/
theorem wantConverted (field : Field) (s : Session) (acts : List ConnAct)
    (zero : s.conn.want = 0 ∧ s.conn.wantExt = 0 ∧ s.connWant = 0 ∧ s.connWantExt = 0)
    (uses : ∀ a ∈ acts, Uses field a) : Converted field (s.acts acts) := by
  have start : Shadowed field s := by
    obtain ⟨want,wantExt,connWant,connWantExt⟩ := zero
    refine ⟨by rw [connWant,connWantExt]; decide,?_⟩
    cases field with
    | want => exact wantExt.trans connWantExt.symm
    | wantExt => exact want.trans connWant.symm
  exact (start.acts uses).converted

/- The old style init of test_want_conversion.c. -/
theorem oldStyleConverted :
    let s := fuseSessionNew ⟨true,true,4096⟩ ⟨false,false,false,false,false,false,none⟩ none 0
    let capable := {s with conn := {s.conn with capableExt := fuseCapIoctlDir ||| fuseCapSpliceRead}}
    Converted .want (capable.acts [.setFeatureFlag fuseCapSpliceRead,.want 1,.setFeatureFlag fuseCapIoctlDir]) := by
  intro s capable
  exact wantConverted .want capable [.setFeatureFlag fuseCapSpliceRead,.want 1,.setFeatureFlag fuseCapIoctlDir]
    ⟨rfl,rfl,rfl,rfl⟩
    (List.forall_mem_cons.mpr ⟨trivial,List.forall_mem_cons.mpr ⟨rfl,List.forall_mem_singleton.mpr trivial⟩⟩)

end FuseStudy.WantWords
