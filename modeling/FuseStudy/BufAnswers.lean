import FuseStudy.BufRuns

/-! Which answers a copy has used, where its errors come from, and where a copy into memory ends. -/
namespace FuseStudy.BufCopy

def Later (s t : Sys) : Prop := ∃ k, ∀ i, t.answers i = s.answers (i + k)

theorem Later.refl (s : Sys) : Later s s := ⟨0,fun _ => rfl⟩

theorem Later.trans {s t u : Sys} (first : Later s t) (second : Later t u) : Later s u := by
  obtain ⟨k,first⟩ := first
  obtain ⟨m,second⟩ := second
  refine ⟨m + k,fun i => ?_⟩
  rw [second,first,Nat.add_assoc]

theorem Later.same {s t u : Sys} (later : Later s t) (same : u.answers = t.answers) : Later s u := by
  obtain ⟨k,later⟩ := later
  exact ⟨k,fun i => by rw [same,later]⟩

/- What a function of the copy leaves: an error is one that a call has answered. -/
structure Honest (s : Sys) (r : SSize) (t : Sys) : Prop where
  later : Later s t
  errno : ∀ e, r = .error e → ∃ i, s.answers i = .fail e

theorem Honest.counted {s t : Sys} {n : Nat} (later : Later s t) (fits : n < 2 ^ 63) : Honest s (ssize n) t where
  later := later
  errno := by
    intro e failed
    rw [ssizeFits fits] at failed
    cases failed

theorem Honest.after {s t u : Sys} {r : SSize} (first : Later s t) (rest : Honest t r u) : Honest s r u where
  later := first.trans rest.later
  errno := by
    intro e failed
    obtain ⟨i,answer⟩ := rest.errno e failed
    obtain ⟨k,same⟩ := first
    exact ⟨i + k,by rw [← same,answer]⟩

theorem Honest.world {s t u : Sys} {r : SSize} (honest : Honest s r t) (same : u.answers = t.answers) : Honest s r u :=
  ⟨honest.later.same same,honest.errno⟩

theorem callHonest (s : Sys) (len : Nat) : Honest s (s.call len).1 (s.call len).2 where
  later := ⟨1,fun _ => rfl⟩
  errno := by
    intro e failed
    simp only [Sys.call] at failed
    split at failed
    · rename_i errno answer
      cases failed
      exact ⟨0,answer⟩
    · cases failed

theorem callSplit (s : Sys) (len : Nat) : ∃ t, Later s t ∧
    ((∃ errno, s.call len = (.error errno,t) ∧ Honest s (.error errno) t) ∨ ∃ res, res ≤ len ∧
      s.call len = (.ok res,t)) := by
  have honest := callHonest s len
  obtain ⟨t,-,⟨errno,called⟩ | ⟨res,most,called⟩⟩ := callCases s len
  · rw [called] at honest
    exact ⟨t,honest.later,.inl ⟨errno,called,honest⟩⟩
  · rw [called] at honest
    exact ⟨t,honest.later,.inr ⟨res,most,called⟩⟩

theorem writeLoopHonest (dst : Buf) (dstOff : Nat) (data : List UInt8) (copied : Nat) (s : Sys)
    (fits : copied + data.length < 2 ^ 63) :
    Honest s (writeLoop dst dstOff data copied s).1 (writeLoop dst dstOff data copied s).2 := by
  induction length : data.length using Nat.strongRecOn generalizing dstOff data copied s with
  | ind len ih =>
    subst len
    rw [writeLoop]
    split
    · exact .counted (.refl s) (by omega)
    · rename_i more
      obtain ⟨t,later,⟨errno,called,honest⟩ | ⟨res,most,called⟩⟩ := callSplit s data.length
      · simp only [called]
        split
        · exact honest
        · exact .counted later (by omega)
      · simp only [called]
        split
        · exact .counted later (by omega)
        · have written : Later s (t.puts (dst.cells dstOff res) (data.take res)) := later.same rfl
          split
          · exact .counted written (by omega)
          · have less : (data.drop res).length = data.length - res := List.length_drop
            exact .after written (ih _ (by omega) _ _ _ _ (by omega) rfl)

theorem readLoopHonest (src : Buf) (srcOff len copied : Nat) (s : Sys) (fits : copied + len < 2 ^ 63) :
    Honest s (readLoop src srcOff len copied s).1 (readLoop src srcOff len copied s).2.2 := by
  induction len using Nat.strongRecOn generalizing srcOff copied s with
  | ind len ih =>
    rw [readLoop]
    split
    · exact .counted (.refl s) (by omega)
    · rename_i more
      obtain ⟨t,later,⟨errno,called,honest⟩ | ⟨res,most,called⟩⟩ := callSplit s len
      · simp only [called]
        split
        · exact honest
        · exact .counted later (by omega)
      · simp only [called]
        split
        · exact .counted later (by omega)
        · have taken : Later s (t.takes (src.cells srcOff res)).2 := later.same rfl
          split
          · exact .counted taken (by omega)
          · exact .after taken (ih (len - res) (by omega) _ _ _ (by omega))

theorem fdToFdLoopHonest (dst : Buf) (dstOff : Nat) (src : Buf) (srcOff len copied : Nat) (s : Sys)
    (fits : copied + len < 2 ^ 63) :
    Honest s (fdToFdLoop dst dstOff src srcOff len copied s).1 (fdToFdLoop dst dstOff src srcOff len copied s).2 := by
  induction len using Nat.strongRecOn generalizing dstOff srcOff copied s with
  | ind len ih =>
    rw [fdToFdLoop]
    split
    · exact .counted (.refl s) (by omega)
    · rename_i more
      rw [minSizeLeast]
      dsimp only
      have read : Honest s (fuseBufRead src srcOff (min tmpSize len) s).1
          (fuseBufRead src srcOff (min tmpSize len) s).2.2 :=
        readLoopHonest src srcOff _ 0 s (by omega)
      obtain ⟨got,most,gave,bytes,-⟩ := fuseBufReadMoved src srcOff (min tmpSize len) s (by omega)
      rcases result : fuseBufRead src srcOff (min tmpSize len) s with ⟨r,tmp,t⟩
      rw [result] at read gave bytes
      have given : tmp = (s.world.takes (src.cells srcOff got)).1 := (Prod.mk.inj bytes).1
      have length : tmp.length = got := by rw [given,takesLength,cellsLength]
      obtain rfl | ⟨rfl,errno,rfl⟩ := gave
      · dsimp only
        split
        · exact .counted read.later (by omega)
        · have wrote : Honest t (fuseBufWrite dst dstOff tmp t).1 (fuseBufWrite dst dstOff tmp t).2 :=
            writeLoopHonest dst dstOff tmp 0 t (by omega)
          obtain ⟨kept,less,gave,-⟩ := fuseBufWriteMoved dst dstOff tmp t (by omega)
          rcases result' : fuseBufWrite dst dstOff tmp t with ⟨r',t'⟩
          rw [result'] at wrote gave
          have later := read.later.trans wrote.later
          obtain rfl | ⟨rfl,errno,rfl⟩ := gave
          · dsimp only
            split
            · exact .counted later (by omega)
            · split
              · exact .counted later (by omega)
              · exact .after later (ih (len - kept) (by omega) _ _ _ _ (by omega))
          · dsimp only
            split
            · exact .after read.later wrote
            · exact .counted later (by omega)
      · dsimp only
        split
        · exact read
        · exact .counted read.later (by omega)

theorem spliceLoopHonest (flags : CopyFlags) (dst : Buf) (dstOff : Nat) (src : Buf) (srcOff len copied : Nat) (s : Sys)
    (fits : copied + len < 2 ^ 63) : Honest s (spliceLoop flags dst dstOff src srcOff len copied s).1
      (spliceLoop flags dst dstOff src srcOff len copied s).2 := by
  induction len using Nat.strongRecOn generalizing dstOff srcOff copied s with
  | ind len ih =>
    rw [spliceLoop]
    split
    · exact .counted (.refl s) (by omega)
    · rename_i more
      obtain ⟨t,later,⟨errno,called,honest⟩ | ⟨res,most,called⟩⟩ := callSplit s len
      · simp only [called]
        split
        · exact .counted later (by omega)
        · split
          · exact honest
          · exact .after later (fdToFdLoopHonest dst dstOff src srcOff len 0 t (by omega))
      · simp only [called]
        split
        · exact .counted later (by omega)
        · have moved : Later s (t.transfer (src.cells srcOff res) (dst.cells dstOff res)) := later.same rfl
          split
          · exact .counted moved (by omega)
          · exact .after moved (ih (len - res) (by omega) _ _ _ _ (by omega))

theorem copyOneHonest (haveSplice : Bool) (flags : CopyFlags) (dst : Buf) (dstOff : Nat) (src : Buf) (srcOff len : Nat)
    (s : Sys) (fits : len < 2 ^ 63) : Honest s (fuseBufCopyOne haveSplice flags dst dstOff src srcOff len s).1
      (fuseBufCopyOne haveSplice flags dst dstOff src srcOff len s).2 := by
  have bounced := fdToFdLoopHonest dst dstOff src srcOff len 0 s (by omega)
  unfold fuseBufCopyOne
  split
  · refine .counted ?_ fits
    split
    · exact (Later.refl s).same rfl
    · exact .refl s
  · split
    · exact writeLoopHonest dst dstOff _ 0 s (by rw [Sys.takes,takesLength,cellsLength]; omega)
    · split
      · exact (readLoopHonest src srcOff len 0 s (by omega)).world rfl
      · split
        · exact bounced
        · unfold fuseBufSplice
          split
          · exact spliceLoopHonest flags dst dstOff src srcOff len 0 s (by omega)
          · exact bounced

/- A copy out of memory ends where one side does, and any other at a byte of a descriptor. -/
def EndsAt (dstv srcv u : Bufvec) : Prop :=
  dstv.rest.length + u.rest.length ≤ srcv.rest.length ∨ ∀ c, u.rest.head? = some c → c.isMem = false

theorem restHead {v : Bufvec} {b : Buf} {n : Nat} (current : v.current = some b) (more : v.off + n < b.size)
    (fd : b.isFd = true) (c : Cell) (first : (v.rest.drop n).head? = some c) : c.isMem = false := by
  obtain ⟨k,left⟩ : ∃ k, b.size - v.off - n = k + 1 := ⟨b.size - v.off - n - 1,by omega⟩
  rw [restDrop current (by omega),left,Buf.cells,List.cons_append,List.head?_cons] at first
  cases first
  rw [cellMem,fd]
  rfl

theorem copyOneNothing (haveSplice : Bool) (flags : CopyFlags) (dst : Buf) (dstOff : Nat) (src : Buf) (srcOff : Nat)
    (s : Sys) : (fuseBufCopyOne haveSplice flags dst dstOff src srcOff 0 s).1 = .ok 0 := by
  have zero : ssize 0 = .ok 0 := ssizeFits (by decide)
  have bounce : (fuseBufFdToFd dst dstOff src srcOff 0 s).1 = .ok 0 := by
    rw [fuseBufFdToFd,fdToFdLoop,if_pos rfl]
    exact zero
  unfold fuseBufCopyOne
  split
  · exact zero
  · split
    · show (writeLoop dst dstOff [] 0 s).1 = .ok 0
      rw [writeLoop,if_pos List.length_nil]
      exact zero
    · split
      · rw [fuseBufRead,readLoop,if_pos rfl]
        exact zero
      · split
        · exact bounce
        · unfold fuseBufSplice
          split
          · rw [spliceLoop,if_pos rfl]
            exact zero
          · exact bounce

theorem copyLoopAnswers (haveSplice : Bool) (flags : CopyFlags) (dstv srcv : Bufvec) (copied : Nat) (s : Sys)
    (soundDst : dstv.Sound) (soundSrc : srcv.Sound) (fits : copied + min srcv.rest.length dstv.rest.length < 2 ^ 63)
    (apart : Apart srcv.rest dstv.rest) :
    ∃ r d u t, copyLoop haveSplice flags dstv srcv copied s = some (r,d,u,t) ∧ Honest s r t ∧ u.Sound ∧
      (dstv.InMemory → EndsAt dstv srcv u) := by
  induction measure : (srcv.buf.length - srcv.idx) + (dstv.buf.length - dstv.idx) using Nat.strongRecOn
    generalizing dstv srcv copied s with
  | ind left ih =>
    have still : Honest s (ssize copied) s := .counted (.refl s) (by omega)
    rw [copyLoop]
    split
    · rename_i source
      refine ⟨_,_,_,_,rfl,still,soundSrc,fun _ => .inr fun c first => ?_⟩
      rw [restNone source] at first
      cases first
    · rename_i other source dest
      refine ⟨_,_,_,_,rfl,still,soundSrc,fun _ => .inl (Nat.le_of_eq ?_)⟩
      rw [restNone dest,List.length_nil,Nat.zero_add]
    · rename_i src dst source dest
      rw [minSizeLeast]
      generalize length : min (src.size - srcv.off) (dst.size - dstv.off) = len
      dsimp only
      have less : len ≤ src.size - srcv.off := by omega
      have less' : len ≤ dst.size - dstv.off := by omega
      have whichever : len = src.size - srcv.off ∨ len = dst.size - dstv.off := by omega
      clear length
      have inside := soundSrc src source
      have inside' := soundDst dst dest
      have room := restLength source less
      have room' := restLength dest less'
      obtain ⟨n,lost,gave,piece,-⟩ := copyOnePiece haveSplice flags s source dest less less' (by omega) apart
      have honest := copyOneHonest haveSplice flags dst dstv.off src srcv.off len s (by omega)
      have whole := piece.short
      have full (mem : dstv.InMemory) (other : src.isFd = false) :
          (fuseBufCopyOne haveSplice flags dst dstv.off src srcv.off len s).1 = .ok len := by
        simp only [fuseBufCopyOne,other,mem dst (List.mem_of_getElem? dest),and_self,if_true]
        exact ssizeFits (by omega)
      have nothing : len = 0 → (fuseBufCopyOne haveSplice flags dst dstv.off src srcv.off len s).1 = .ok 0 := by
        rintro rfl
        exact copyOneNothing haveSplice flags dst dstv.off src srcv.off s
      rcases result : fuseBufCopyOne haveSplice flags dst dstv.off src srcv.off len s with ⟨r,t⟩
      rw [result] at gave piece honest full nothing
      obtain rfl | ⟨rfl,errno,rfl⟩ := gave
      · dsimp only
        have onward : srcv.off + n ≤ src.size := by omega
        have onward' : dstv.off + n ≤ dst.size := by omega
        obtain ⟨more,u,moved,advanced⟩ := advanceRest source onward
        obtain ⟨more',u',moved',advanced'⟩ := advanceRest dest onward'
        have counted : Honest s (ssize (copied + n)) t := .counted honest.later (by omega)
        have rest : u.rest.length = srcv.rest.length - n := by rw [advanced.rest,List.length_drop]
        have rest' : u'.rest.length = dstv.rest.length - n := by rw [advanced'.rest,List.length_drop]
        split
        · rename_i found
          rw [moved] at found
          cases found
        · rename_i v found
          rw [moved] at found
          cases found
          refine ⟨_,_,_,_,rfl,counted,advanced.sound,fun _ => .inr fun c first => ?_⟩
          rw [advanced.rest,List.drop_eq_nil_of_le (Nat.le_of_eq (advanced.ended rfl).1)] at first
          cases first
        · rename_i v found
          rw [moved] at found
          cases found
          split
          · rename_i found
            rw [moved'] at found
            cases found
          · rename_i v' found
            rw [moved'] at found
            cases found
            have all := (advanced'.ended rfl).1
            exact ⟨_,_,_,_,rfl,counted,advanced.sound,fun _ => .inl (by omega)⟩
          · rename_i v' found
            rw [moved'] at found
            cases found
            split
            · rename_i short
              refine ⟨_,_,_,_,rfl,counted,advanced.sound,fun mem => .inr fun c first => ?_⟩
              -- Memory gives all that it is asked for.
              have fd : src.isFd = true := eq_true_of_ne_false fun other => by
                have all := full mem other
                cases all
                omega
              rw [advanced.rest] at first
              exact restHead source (by omega) fd c first
            · have equal : n = len := by omega
              have none : lost = 0 := by omega
              subst n lost
              have away : Apart u.rest u'.rest := by
                rw [advanced.rest,advanced'.rest]
                exact apart.mono (fun _ => List.mem_of_mem_drop) fun _ => List.mem_of_mem_drop
              have decreased : (u.buf.length - u.idx) + (u'.buf.length - u'.idx) < left := by
                obtain ⟨-,-,moved⟩ := Bufvec.advanceOn source moved
                obtain ⟨-,-,moved'⟩ := Bufvec.advanceOn dest moved'
                rw [← measure,advanced.buf,advanced'.buf]
                omega
              obtain ⟨r,d,v,t',run,answers,sound,ends⟩ := ih _ decreased u' u (copied + len) t advanced'.sound
                advanced.sound (by omega) away rfl
              refine ⟨r,d,v,t',run,.after honest.later answers,sound,fun mem => ?_⟩
              obtain filled | descriptor := ends (by rw [Bufvec.InMemory,advanced'.buf]; exact mem)
              · exact .inl (by omega)
              · exact .inr descriptor
      · dsimp only
        have some : 0 < len := Nat.pos_of_ne_zero fun zero => by
          cases nothing zero
        have ends (mem : dstv.InMemory) : EndsAt dstv srcv srcv := .inr fun c first => by
          have fd : src.isFd = true := eq_true_of_ne_false fun other => by cases full mem other
          have first : (srcv.rest.drop 0).head? = .some c := first
          exact restHead source (by omega) fd c first
        split
        · exact ⟨_,_,_,_,rfl,honest,soundSrc,ends⟩
        · exact ⟨_,_,_,_,rfl,.counted honest.later (by omega),soundSrc,ends⟩

end FuseStudy.BufCopy
