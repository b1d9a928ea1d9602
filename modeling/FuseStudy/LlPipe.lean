import FuseStudy.LlRelease

/-! The bytes that a message leaves in the pipe of its thread. -/
namespace FuseStudy.LlPipe
open LlRequest LlSession LlRelease

variable {s t : FuseSession} {r : Nat}

theorem actPipe (a : UserAct) : (s.act a).pipe = s.pipe := by
  cases a with
  | reply x error => simp only [FuseSession.act]; split <;> rfl
  | replyNone x => simp only [FuseSession.act]; split <;> rfl
  | interruptFunc x func => simp only [FuseSession.act]; split <;> rfl
  | retrieve sent => rfl
  | other o => exact (otherRest o).2

theorem actsPipe (acts : List UserAct) : (s.acts acts).pipe = s.pipe :=
  actsInduct (P := fun t => t.pipe = s.pipe) (fun _ a before => (actPipe a).trans before) acts rfl

variable (ops : LlOp → Bool) (e : Env) (m : Msg)

theorem givePipe (call : Nat) : (give e s r call).pipe = s.pipe := actsPipe _

theorem forgetPipe (left call : Nat) : (forgetDummies e r call left s).pipe = s.pipe := by
  induction left generalizing call s with
  | zero => rfl
  | succ left ih =>
    unfold forgetDummies
    split
    · exact (ih (call + 1)).trans (givePipe e call)
    · rfl

theorem initPipe : (callInit ops e s).pipe = s.pipe := by
  unfold callInit
  dsimp only
  split
  · exact actsPipe _
  · rfl

theorem foundPipe (x : Nat) : (interruptFound e s x).pipe = s.pipe := by
  have waited : ((s.on (holdReq · x)).acts e.window).pipe = s.pipe := actsPipe _
  unfold interruptFound
  dsimp only
  split
  · exact waited
  · exact (actsPipe _).trans waited

theorem tablePipe : ∀ p ∈ fuseLlOps ops e m, ∀ (s : FuseSession) (r : Nat), (p.2 s r).pipe = s.pipe := by
  apply tableCases (P := fun _ f => ∀ (s : FuseSession) (r : Nat), (f s r).pipe = s.pipe)
  case give => exact fun _ s r => givePipe e 0
  case err => exact fun _ _ _ _ => rfl
  case reply => exact fun _ _ _ => rfl
  case none => exact fun _ _ _ => rfl
  case either =>
    intro _ f g c yes no s r
    dsimp only
    split
    · exact yes s r
    · exact no s r
  case batchForget =>
    intro s r
    unfold doBatchForget
    split
    · exact givePipe e 0
    · split
      · exact forgetPipe e m.count 0
      · rfl
  case destroy =>
    intro s r
    unfold doDestroy
    dsimp only
    split
    · exact actsPipe _
    · rfl
  case init =>
    intro s r
    unfold doInit
    dsimp only
    split
    · rfl
    · split
      · rfl
      · split <;> exact initPipe ops e
  case interrupt =>
    intro s r
    unfold doInterrupt
    dsimp only
    split
    · exact foundPipe e _
    · split <;> rfl
  case notifyReply => exact fun _ _ => rfl
  case cuseInit =>
    intro s r
    unfold cuseLowlevelInit
    dsimp only
    split
    · rfl
    · exact (actsPipe _).trans (initPipe ops e)

section copies
variable {e m} {ops}

theorem copiedAll {size : Nat} {c : Copied} (whole : 0 ≤ fuseLlCopyFromPipe size c) : c.took size = size := by
  cases c with
  | done bytes =>
    simp only [fuseLlCopyFromPipe] at whole
    split at whole <;> simp only [Copied.took] <;> omega
  | failed errno bytes =>
    simp only [fuseLlCopyFromPipe] at whole
    omega

theorem headerPipe (fd : m.fd = true) (read : headerRead e m = true) (filled : s.pipe = m.size) :
    (readHeader e m s).pipe = m.size - headerSize m := by
  unfold headerRead at read
  unfold readHeader
  cases c : e.header with
  | none => simp [fd,c] at read
  | some c' =>
    have whole : 0 ≤ fuseLlCopyFromPipe (headerSize m) c' := by simpa [fd,c] using read
    simp [fd,filled,copiedAll whole]

theorem restPipe (reads : readsRest ops m = true) (read : restError ops e m = none) :
    (readRest ops e m s).pipe = s.pipe - (m.size - writeHeaderSize) := by
  unfold restError at read
  unfold readRest
  rw [if_pos reads] at read
  cases c : e.rest with
  | none => simp [c] at read
  | some c' =>
    have whole : 0 ≤ fuseLlCopyFromPipe (m.size - writeHeaderSize) c' := by
      simp only [c] at read
      split at read
      · cases read
      · omega
    simp [reads,copiedAll whole]

theorem dropped (fd : m.fd = true) : (dropPipe m s).pipe = 0 := by simp [dropPipe,fd,clearPipe]

/- Either the handler has consumed all the data, or the vector says that it has not. -/
theorem drainedAll (size : Nat) (d : Option (Nat × Nat)) : (drained size d).2 < 1 ∨ (drained size d).1 = size := by
  cases d with
  | none => exact .inl Nat.one_pos
  | some d =>
    by_cases all : size ≤ d.1
    · right
      simp only [drained]
      omega
    · left
      simp [drained,all]

theorem resetEmpty (fd : m.fd = true) (filled : s.pipe ≤ m.argSize) :
    (resetPipe m s (drained m.argSize e.drain).1 (drained m.argSize e.drain).2).pipe = 0 := by
  have all := drainedAll m.argSize e.drain
  generalize drained m.argSize e.drain = d at all
  unfold resetPipe clearPipe
  rw [if_pos fd]
  split
  · rfl
  · rename_i consumed
    have took := all.resolve_left consumed
    dsimp only
    omega

theorem resetNone (fd : m.fd = true) : (resetPipe m s 0 0).pipe = 0 := by simp [resetPipe,fd,clearPipe]

theorem writeBufPipe (fd : m.fd = true) (filled : s.pipe ≤ m.argSize) (ran : doWriteBuf e m s r = some t) :
    t.pipe = 0 := by
  unfold doWriteBuf at ran
  generalize sizeSub m.size _ = room at ran
  split at ran
  · cases ran
  · split at ran
    · cases ran
      exact resetNone fd
    · cases ran
      exact resetEmpty fd (by rw [givePipe]; exact filled)

theorem retrievePipe (fd : m.fd = true) (filled : s.pipe ≤ m.argSize) : (fuseLlRetrieveReply ops e m s r).pipe = 0 := by
  unfold fuseLlRetrieveReply
  split
  · exact resetNone fd
  · split
    · exact resetEmpty fd (by rw [givePipe]; exact filled)
    · exact resetNone fd

end copies

/- The declared payload of the two messages that carry data is all that follows their header. -/
def Msg.WellFormed (m : Msg) : Prop :=
  m.opcode = fuseWrite ∨ m.opcode = fuseNotifyReply → m.size = writeHeaderSize + m.argSize

/- A reply to no retrieve request that has a payload, when memory suffices. -/
def payloadStays (ops : LlOp → Bool) (e : Env) (m : Msg) (s : FuseSession) : Bool :=
  headerRead e m && e.alloc && unmatched ops e m s && decide (writeHeaderSize < m.size)

section message
variable {ops e m}

theorem unmatchedPipe (n : Nat) (unique : Nat) :
    unmatched ops e m ({s with pipe := n}.on (fuseLlAllocReq · unique)) = unmatched ops e m s := rfl

theorem handlePipe (fd : m.fd = true) (formed : Msg.WellFormed m) (filled : s.pipe = m.size - headerSize m)
    (ran : handle ops e m s r = some t) :
    t.pipe = 0 ↔ ¬ (unmatched ops e m s = true ∧ writeHeaderSize < m.size) := by
  have short (small : m.size ≤ writeHeaderSize) : s.pipe = 0 := by
    simp only [headerSize] at filled
    omega
  have long (big : writeHeaderSize ≤ m.size) : s.pipe = m.size - writeHeaderSize := by
    simp only [headerSize] at filled
    omega
  unfold handle at ran
  dsimp only at ran
  cases checked : refused ops e m s with
  | some err =>
    rw [checked] at ran
    cases ran
    simp [replyErrClear,dropped fd,unmatched,accepted,checked]
  | none =>
    rw [checked] at ran
    cases rest : restError ops e m with
    | some err =>
      rw [rest] at ran
      cases ran
      simp [replyErrClear,dropped fd,unmatched,accepted,rest]
    | none =>
      rw [rest] at ran
      dsimp only at ran
      have entered : (enterList e m s r).pipe = s.pipe := (enterRest e m).2
      -- the two kinds of message whose payload is left in the pipe for the handler
      by_cases data : m.opcode = fuseWrite ∧ ops .writeBuf = true ∨ m.opcode = fuseNotifyReply
      · have unread : readRest ops e m (enterList e m s r) = enterList e m s r := by
          unfold readRest
          rw [if_neg]
          rcases data with ⟨write,buf⟩ | notify
          · simp [readsRest,write,buf]
          · simp [readsRest,notify]
        have size : m.size = writeHeaderSize + m.argSize := formed (data.imp And.left id)
        have all := long (by omega)
        rw [unread] at ran
        unfold dispatch at ran
        split at ran
        · rename_i write
          have empty := writeBufPipe fd (by omega) ran
          simp [empty,unmatched,write.1,fuseWrite,fuseNotifyReply]
        · rename_i other
          have notify := data.resolve_left other
          rw [if_pos notify] at ran
          cases ran
          unfold doNotifyReply
          rw [(enterRest e m).1]
          split
          · rename_i known
            have empty : (fuseLlRetrieveReply ops e m
                {enterList e m s r with notifyList := s.notifyList.erase m.unique} r).pipe = 0 :=
              retrievePipe fd (show (enterList e m s r).pipe ≤ m.argSize by omega)
            simp [empty,unmatched,known]
          · rename_i unknown
            simp only [unmatched,accepted,checked,rest,notify,unknown]
            simp
            omega
      · have quiet : unmatched ops e m s = false := by
          simp [unmatched,not_or.mp data]
        have empty : (readRest ops e m (enterList e m s r)).pipe = 0 := by
          cases reads : readsRest ops m with
          | true =>
            rw [restPipe reads rest,entered]
            have big : writeHeaderSize < m.size := by
              simp only [readsRest,Bool.and_eq_true,decide_eq_true_eq] at reads
              exact reads.1.1.2
            have all := long (by omega)
            omega
          | false =>
            have small : m.size ≤ writeHeaderSize := by
              have no := not_or.mp data
              by_cases big : writeHeaderSize < m.size
              · simp [readsRest,fd,big,no.2] at reads
                exact absurd reads (by simpa using no.1)
              · omega
            unfold readRest
            rw [reads]
            exact entered.trans (short small)
        unfold dispatch at ran
        rw [if_neg (not_or.mp data).1,if_neg (not_or.mp data).2] at ran
        cases ran
        have same : ((((fuseLlOps ops e m).lookup m.opcode).getD fun s _ => s)
            (readRest ops e m (enterList e m s r)) r).pipe = (readRest ops e m (enterList e m s r)).pipe := by
          cases found : (fuseLlOps ops e m).lookup m.opcode with
          | none => rfl
          | some f => exact tablePipe ops e m _ (lookupMem found) _ r
        simp [same,empty,quiet]

end message

/- For every session, environment and well-formed message that came in the thread's pipe. -/
theorem pipeEmptied {s t : FuseSession} {made : Option Nat} (fd : m.fd = true) (filled : s.pipe = m.size)
    (formed : Msg.WellFormed m) (ran : fuseSessionProcessBufInternal ops e m s = some (t,made)) :
    t.pipe = 0 ↔ payloadStays ops e m s = false := by
  unfold fuseSessionProcessBufInternal at ran
  dsimp only at ran
  split at ran
  · rename_i read
    split at ran
    · rename_i alloc
      obtain ⟨u,handled,is⟩ := Option.map_eq_some_iff.mp ran
      cases is
      have start : ((readHeader e m s).on (fuseLlAllocReq · m.unique)).pipe = m.size - headerSize m :=
        headerPipe fd read filled
      have whole := handlePipe fd formed start handled
      rw [headerKeeps e m,unmatchedPipe] at whole
      rw [whole]
      simp [payloadStays,read,alloc]
    · rename_i alloc
      cases ran
      simp [dropped fd,payloadStays,alloc]
  · rename_i unread
    cases ran
    simp [clearPipe,payloadStays,unread]

/- A message with five bytes of payload in the pipe, and all copies succeed. -/
def inPipe (opcode : Nat) : Msg := ⟨true,85,opcode,7,0,7,31,0,false,false,false,0,5⟩

def pumping : Env := {willing with header := some (.done 80), rest := some (.done 5), drain := some (2,0)}

theorem partWriteEmptied :
    ∃ t, fuseSessionProcessBufInternal (fun _ => true) pumping (inPipe fuseWrite)
      {idle with pipe := 85} = some (t,some 0) ∧
      (t.pipe = 0 ↔ payloadStays (fun _ => true) pumping (inPipe fuseWrite) {idle with pipe := 85} = false) :=
  ⟨_,rfl,pipeEmptied _ _ _ rfl rfl (fun _ => rfl) rfl⟩

/- The header of the next message would be read behind five bytes of this one. -/
theorem unmatchedPayloadStays : Msg.WellFormed (inPipe fuseNotifyReply) ∧
    ∃ t, fuseSessionProcessBufInternal (fun _ => true) pumping (inPipe fuseNotifyReply)
      {idle with pipe := 85} = some (t,some 0) ∧
      t.pipe = 5 :=
  ⟨fun _ => rfl,_,rfl,rfl⟩

end FuseStudy.LlPipe
