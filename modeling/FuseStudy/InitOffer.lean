import FuseStudy.DoInit

/-! A successful INIT reply enables nothing that the kernel did not offer, but for big writes. -/
namespace FuseStudy.InitOffer
open FlagWords DoInit

structure Touched (s t : Session) : Prop where
  capable : t.conn.capableExt = s.conn.capableExt
  bufsize : t.bufsize = s.bufsize
  reallocable : t.bufReallocable = s.bufReallocable

theorem Touched.refl (s : Session) : Touched s s := ⟨rfl,rfl,rfl⟩

theorem Touched.trans {s t u : Session} (first : Touched s t) (next : Touched t u) : Touched s u :=
  ⟨next.capable.trans first.capable,next.bufsize.trans first.bufsize,next.reallocable.trans first.reallocable⟩

theorem setTouched {s : Session} {flag : BitVec 64} : Touched s (fuseSetFeatureFlag s flag).1 := by
  unfold fuseSetFeatureFlag
  split <;> exact ⟨rfl,rfl,rfl⟩

theorem convertTouched {s : Session} : Touched s (fuseConvertToConnWantExt s).1 := by
  unfold fuseConvertToConnWantExt
  split
  · split <;> exact ⟨rfl,rfl,rfl⟩
  · exact ⟨rfl,rfl,rfl⟩

theorem actTouched {s : Session} {a : ConnAct} : Touched s (s.act a) := by
  cases a with
  | setFeatureFlag flag => exact setTouched
  | convertToConnWantExt => exact convertTouched
  | _ => exact ⟨rfl,rfl,rfl⟩

theorem actsTouched {l : List ConnAct} {s : Session} : Touched s (s.acts l) := by
  induction l generalizing s with
  | nil => exact .refl s
  | cons a l ih => exact actTouched.trans ih

theorem defaultTouched {cond : Bool} {cap : BitVec 64} {s : Session} : Touched s (llSetDefault cond cap s) := by
  unfold llSetDefault
  split
  · exact setTouched
  · exact .refl s

theorem defaultsTouched {s : Session} : Touched s (llSetDefaults s) :=
  defaultTouched.trans <| defaultTouched.trans <| defaultTouched.trans <| defaultTouched.trans
    <| defaultTouched.trans <|
    defaultTouched.trans <| defaultTouched.trans <| defaultTouched.trans <| defaultTouched.trans defaultTouched

theorem calledTouched {s : Session} : Touched s (callInit s) := by
  unfold callInit
  split
  · exact .refl s
  · have called : Touched s {s with conn := {s.conn with capable := fuseLower32Bits s.conn.capableExt}} := ⟨rfl,rfl,rfl⟩
    exact called.trans (actsTouched.trans convertTouched)

theorem calledOffer {b : Build} {s : Session} {arg : InitIn} :
    (callInit (offerConn b s arg)).conn.capableExt = capableExt b s arg :=
  calledTouched.capable.trans defaultsTouched.capable

/- The capabilities that no INIT flag of the reply stands for. -/
def nameless : BitVec 64 :=
  fuseCapExpireOnly ||| fuseCapSpliceWrite ||| fuseCapSpliceMove ||| fuseCapSpliceRead ||| fuseCapIoctlDir

theorem namelessClear : ∀ b ∈ wantTable, has nameless b.1 = false := by
  have all : wantTable.all (fun b => has nameless b.1 == false) = true := by decide
  intro b mem
  exact beq_iff_eq.mp (List.all_eq_true.mp all b mem)

theorem wantUndoesCapable : Undoes wantTable capableTable := by decide +kernel

theorem expireNameless {arg : InitIn} : Within (expireOnly arg) nameless := by
  unfold expireOnly
  split <;> decide

theorem spliceNameless {b : Build} {s : Session} {arg : InitIn} : Within (spliceCaps b s arg) nameless := by
  unfold spliceCaps
  split
  · apply Within.or <;> split <;> decide
  · decide

theorem ioctlNameless {arg : InitIn} : Within (ioctlCap arg) nameless := by
  unfold ioctlCap
  split <;> decide

theorem capableWithin {b : Build} {s : Session} {arg : InitIn} :
    Within (capableExt b s arg) (carry capableTable (inargflags arg) ||| nameless) := by
  have rest : Within (expireOnly arg ||| spliceCaps b s arg ||| ioctlCap arg) nameless :=
    (expireNameless.or spliceNameless).or ioctlNameless
  exact (withinOrLeft _ _).or (rest.trans (withinOrRight _ _))

theorem offerJoined {arg : InitIn} (minor : 6#32 ≤ arg.minor) : inargflags arg = joined arg.flags arg.flags2 :=
  if_pos minor

theorem offeredFlags {arg : InitIn} (minor : 6#32 ≤ arg.minor) : Within (arg.flags.setWidth 64) (inargflags arg) := by
  rw [offerJoined minor,joined]
  split
  · exact withinOrLeft _ _
  · exact Within.refl _

theorem initExtSingle : Single fuseInitExt := by decide

theorem maxPagesSingle : Single fuseMaxPages := by decide

theorem outWithin {b : Build} {s t : Session} {arg : InitIn} (minor : 6#32 ≤ arg.minor)
    (wanted : Within t.conn.wantExt (capableExt b s arg)) :
    Within (outargflags t arg) (inargflags arg ||| fuseBigWrites) := by
  have carried := carriedBack wantUndoesCapable namelessClear (wanted.trans capableWithin)
  have offered := withinOrLeft (inargflags arg) fuseBigWrites
  refine ((Within.or ?_ (withinOrRight _ _)).or (carried.trans offered)).or ?_
  · split
    · rename_i set
      exact ((maxPagesSingle.within set).trans (offeredFlags minor)).trans offered
    · exact zeroWithin _
  · split
    · rename_i set
      exact (initExtSingle.within set).trans offered
    · exact zeroWithin _

theorem lowWithin {x : BitVec 64} : Within ((x.setWidth 32).setWidth 64) x := by
  rw [withinBits]
  intro k set
  simp only [BitVec.getLsbD_setWidth,Bool.and_eq_true] at set
  exact set.2.2

theorem highWithin {x : BitVec 64} : Within (((x >>> 32).setWidth 32).setWidth 64 <<< 32) x := by
  rw [withinBits]
  intro k set
  simp only [BitVec.getLsbD_shiftLeft,BitVec.getLsbD_setWidth,BitVec.getLsbD_ushiftRight,Bool.and_eq_true,
    Bool.not_eq_true',decide_eq_false_iff_not,decide_eq_true_eq] at set
  have high : 32 + (k - 32) = k := by omega
  rw [← high]
  exact set.2.2.2

theorem joinedWithin {low high : BitVec 32} {x : BitVec 64} (lowIn : Within (low.setWidth 64) x)
    (highIn : Within (high.setWidth 64 <<< 32) x) : Within (joined low high) x := by
  unfold joined
  split
  · exact lowIn.or highIn
  · exact lowIn

/- The flags that the kernel reads in a reply of `size` bytes; flags2 ends at byte 36. -/
def replyFlags (out : InitOut) (size : Nat) : BitVec 64 := joined out.flags (if 36 ≤ size then out.flags2 else 0)

theorem replyWithin {b : Build} {s : Session} {arg : InitIn} {size : Nat} :
    Within (replyFlags (outarg b s arg) size) (outargflags s arg) := by
  apply joinedWithin lowWithin
  split
  · show Within ((outFlags2 s arg).setWidth 64 <<< 32) _
    unfold outFlags2
    split
    · exact highWithin
    · exact zeroWithin _
  · exact zeroWithin _

/- What is promised of the answer to an INIT request. -/
def Offered (arg : InitIn) : Session × Reply → Prop
  | (_,.ok out size) => Within (replyFlags out size) (joined arg.flags arg.flags2 ||| fuseBigWrites)
  | (s,.err errno) => errno = eproto ∧ s.error = -eproto ∧ s.exited = true

theorem congestionWant {c : ConnInfo} : (setCongestion c).wantExt = c.wantExt := by
  simp only [setCongestion,apply_ite ConnInfo.wantExt,ite_self]

theorem filledOffered {b : Build} {s t : Session} {arg : InitIn} {size : Nat} (minor : 6#32 ≤ arg.minor)
    (wanted : Within t.conn.wantExt (capableExt b s arg)) :
    Within (replyFlags (outarg b t arg) size) (joined arg.flags arg.flags2 ||| fuseBigWrites) := by
  rw [← offerJoined minor]
  exact replyWithin.trans (outWithin minor wanted)

theorem replyOffered {b : Build} {s t : Session} {arg : InitIn} (minor : 6#32 ≤ arg.minor)
    (wanted : Within t.conn.wantExt (capableExt b s arg)) : Offered arg (replyInit b t arg) := by
  unfold replyInit
  split
  · exact ⟨rfl,rfl,rfl⟩
  · apply filledOffered minor
    split
    · rw [congestionWant]
      exact wanted
    · exact wanted

theorem initOffered (b : Build) (s : Session) (arg : InitIn) (major : arg.major = 7) (minor : 6#32 ≤ arg.minor) :
    Offered arg (doInit b s arg) := by
  have notOld : ¬arg.major < 7#32 := by rw [major]; decide
  have notNew : ¬7#32 < arg.major := by rw [major]; decide
  simp only [doInit,if_neg notOld,if_neg notNew]
  split
  · rename_i valid
    apply replyOffered minor
    rw [wantFlagsValid,beq_iff_eq,calledOffer] at valid
    exact valid
  · exact ⟨rfl,rfl,rfl⟩

/- Passthrough wanted of a kernel that offers it in the extension word. -/
theorem initOfferedPassthrough :
    let b : Build := ⟨true,true,4096⟩
    let acts : List ConnAct := [.setFeatureFlag fuseCapPassthrough,.maxBackingStackDepth 1]
    let s := fuseSessionNew b ⟨true,false,false,true,true,true,some acts⟩ none 0
    let arg : InitIn := ⟨7,40,131072,0x7ffffffb,0xff⟩
    Offered arg (doInit b s arg) ∧ (∃ t out, doInit b s arg = (t,.ok out 64) ∧ out.maxStackDepth = 2) :=
  ⟨initOffered _ _ _ rfl (by decide),_,_,rfl,rfl⟩

end FuseStudy.InitOffer
