import FuseStudy.BufCopy

/-! What each transfer of fuse_buf_copy moved, whatever the system calls answered. -/
namespace FuseStudy.BufCopy

theorem cellsLength (b : Buf) (off n : Nat) : (b.cells off n).length = n := by
  induction n generalizing off with
  | zero => rfl
  | succ n ih => rw [Buf.cells,List.length_cons,ih]

theorem cellsAppend (b : Buf) (off m n : Nat) : b.cells off (m + n) = b.cells off m ++ b.cells (off + m) n := by
  induction m generalizing off with
  | zero => rw [Nat.zero_add,Buf.cells,List.nil_append,Nat.add_zero]
  | succ m ih => rw [Nat.succ_add,Buf.cells,Buf.cells,ih,List.cons_append,Nat.add_assoc,Nat.add_comm 1 m]

theorem cellsSplit (b : Buf) (off : Nat) {m n : Nat} (less : m ≤ n) :
    b.cells off n = b.cells off m ++ b.cells (off + m) (n - m) := by
  rw [← cellsAppend,Nat.add_sub_cancel' less]

theorem cellsTake (b : Buf) (off : Nat) {m n : Nat} (less : m ≤ n) : (b.cells off n).take m = b.cells off m := by
  rw [cellsSplit b off less,List.take_left' (cellsLength b off m)]

theorem cellsDrop (b : Buf) (off : Nat) {m n : Nat} (less : m ≤ n) :
    (b.cells off n).drop m = b.cells (off + m) (n - m) := by
  rw [cellsSplit b off less,List.drop_left' (cellsLength b off m)]

theorem cellsKind (b : Buf) (off n : Nat) : ∀ c ∈ b.cells off n, ∃ i, c = b.cell i := by
  induction n generalizing off with
  | zero => nofun
  | succ n ih =>
    intro c inside
    obtain rfl | later := List.mem_cons.mp inside
    · exact ⟨off,rfl⟩
    · exact ih (off + 1) c later

theorem takesAppend (w : World) (xs ys : List Cell) :
    w.takes (xs ++ ys) = ((w.takes xs).1 ++ ((w.takes xs).2.takes ys).1,((w.takes xs).2.takes ys).2) := by
  induction xs generalizing w with
  | nil => rfl
  | cons c xs ih => simp only [List.cons_append,World.takes,ih]

theorem takesLength (w : World) (xs : List Cell) : (w.takes xs).1.length = xs.length := by
  induction xs generalizing w with
  | nil => rfl
  | cons c xs ih => simp only [World.takes,List.length_cons,ih]

theorem putsAppend {w : World} {xs : List Cell} {bytes : List UInt8} (ys : List Cell) (later : List UInt8)
    (same : xs.length = bytes.length) : w.puts (xs ++ ys) (bytes ++ later) = (w.puts xs bytes).puts ys later := by
  induction xs generalizing w bytes with
  | nil =>
    cases bytes with
    | nil => cases ys <;> rfl
    | cons byte bytes => cases same
  | cons c xs ih =>
    cases bytes with
    | nil => cases same
    | cons byte bytes => exact ih (Nat.succ.inj same)

theorem putsNil (w : World) (bytes : List UInt8) : w.puts [] bytes = w := by
  cases bytes <;> rfl

theorem takesStill {w : World} {xs : List Cell} (still : ∀ c ∈ xs, c.isStream = false) : (w.takes xs).2 = w := by
  induction xs generalizing w with
  | nil => rfl
  | cons c xs ih =>
    have one : (w.take c).2 = w := by
      cases c with
      | stream fd => cases still (.stream fd) List.mem_cons_self
      | _ => rfl
    rw [World.takes,one,ih fun d inside => still d (List.mem_cons_of_mem _ inside)]

/- What goes to one list does not change what the other gives. A stream's two directions are apart. -/
def Apart (src dst : List Cell) : Prop :=
  ∀ c ∈ src, ∀ d ∈ dst, c = d → c.isStream = true

instance (src dst : List Cell) : Decidable (Apart src dst) :=
  inferInstanceAs (Decidable (∀ c ∈ src, ∀ d ∈ dst, c = d → c.isStream = true))

theorem Apart.mono {src dst src' dst' : List Cell} (apart : Apart src dst) (less : ∀ c ∈ src', c ∈ src)
    (less' : ∀ c ∈ dst', c ∈ dst) : Apart src' dst' :=
  fun c inside d inside' => apart c (less c inside) d (less' d inside')

theorem putTake {c d : Cell} (w : World) (byte : UInt8) (apart : c = d → c.isStream = true) :
    (w.put byte d).take c = ((w.take c).1,(w.take c).2.put byte d) := by
  cases c with
  | stream fd => cases d <;> rfl
  | mem a =>
    cases d with
    | mem x =>
      have other : a ≠ x := fun same => nomatch apart (congrArg Cell.mem same)
      simp only [World.take,World.put,if_neg other]
    | _ => rfl
  | file fd p =>
    cases d with
    | file i x =>
      have other : ¬(fd = i ∧ p = x) := by
        rintro ⟨rfl,rfl⟩
        cases apart rfl
      simp only [World.take,World.put,if_neg other]
    | _ => rfl

theorem putTakes {src : List Cell} {d : Cell} (w : World) (byte : UInt8) (apart : Apart src [d]) :
    (w.put byte d).takes src = ((w.takes src).1,(w.takes src).2.put byte d) := by
  induction src generalizing w with
  | nil => rfl
  | cons c src ih =>
    have first := putTake w byte (apart c List.mem_cons_self d List.mem_cons_self)
    have rest := ih (w.take c).2 (apart.mono (fun c inside => List.mem_cons_of_mem _ inside) fun _ inside => inside)
    simp only [World.takes,first,rest]

theorem putsTakes {src dst : List Cell} (w : World) (bytes : List UInt8) (apart : Apart src dst) :
    (w.puts dst bytes).takes src = ((w.takes src).1,(w.takes src).2.puts dst bytes) := by
  induction dst generalizing w bytes with
  | nil => rw [putsNil,putsNil]
  | cons d dst ih =>
    cases bytes with
    | nil => rfl
    | cons byte bytes =>
      have first : Apart src [d] := apart.mono (fun _ inside => inside) (by simp)
      have rest : Apart src dst := apart.mono (fun _ inside => inside) fun _ inside => List.mem_cons_of_mem _ inside
      simp only [World.puts,ih _ _ rest,putTakes w byte first]

theorem transferAppend {w : World} {src dst src' dst' : List Cell} (same : src.length = dst.length)
    (apart : Apart src' dst) : w.transfer (src ++ src') (dst ++ dst') = (w.transfer src dst).transfer src' dst' := by
  have length : dst.length = (w.takes src).1.length := by rw [takesLength,same]
  simp only [World.transfer,takesAppend,putsAppend dst' _ length,putsTakes _ _ apart]

/- Of the bytes of src `kept` went to dst, and `lost` more were taken. -/
structure Copied (w w' : World) (src dst : List Cell) (kept lost : Nat) : Prop where
  source : kept + lost ≤ src.length
  dest : kept ≤ dst.length
  world : w' = ((w.transfer (src.take kept) (dst.take kept)).takes ((src.drop kept).take lost)).2

theorem Copied.none (w : World) (src dst : List Cell) : Copied w w src dst 0 0 where
  source := Nat.zero_le _
  dest := Nat.zero_le _
  world := rfl

theorem Copied.append {w w' : World} {src dst src' dst' : List Cell} {kept lost : Nat} (same : src.length = dst.length)
    (apart : Apart src' dst) (later : Copied (w.transfer src dst) w' src' dst' kept lost) :
    Copied w w' (src ++ src') (dst ++ dst') (src.length + kept) lost where
  source := by
    have := later.source
    rw [List.length_append]
    omega
  dest := by
    have := later.dest
    rw [List.length_append]
    omega
  world := by
    have first : (src ++ src').take (src.length + kept) = src ++ src'.take kept := List.take_length_add_append kept
    have second : (dst ++ dst').take (src.length + kept) = dst ++ dst'.take kept := by
      rw [same]
      exact List.take_length_add_append kept
    have behind : (src ++ src').drop (src.length + kept) = src'.drop kept := List.drop_length_add_append kept
    rw [first,second,behind,transferAppend same (apart.mono (fun _ inside => List.mem_of_mem_take inside) fun _ h => h)]
    exact later.world

theorem Copied.extend {w w' : World} {src dst : List Cell} {kept lost : Nat} (copied : Copied w w' src dst kept lost)
    (src' dst' : List Cell) : Copied w w' (src ++ src') (dst ++ dst') kept lost where
  source := by
    have := copied.source
    rw [List.length_append]
    omega
  dest := by
    have := copied.dest
    rw [List.length_append]
    omega
  world := by
    have most := copied.source
    rw [List.take_append_of_le_length (by omega),List.take_append_of_le_length copied.dest,
      List.drop_append_of_le_length (by omega),List.take_append_of_le_length (by rw [List.length_drop]; omega)]
    exact copied.world

/- A ssize_t result that says `n`; an error is one only where nothing was moved. -/
def Gave (r : SSize) (n : Nat) : Prop :=
  r = .ok n ∨ n = 0 ∧ ∃ errno, r = .error errno

theorem ssizeFits {n : Nat} (fits : n < 2 ^ 63) : ssize n = .ok n := if_pos fits

theorem gaveFits {n : Nat} (fits : n < 2 ^ 63) : Gave (ssize n) n := .inl (ssizeFits fits)

theorem callCases (s : Sys) (len : Nat) : ∃ t : Sys, t.world = s.world ∧
    ((∃ errno, s.call len = (.error errno,t)) ∨ ∃ res, res ≤ len ∧ s.call len = (.ok res,t)) := by
  refine ⟨(s.call len).2,rfl,?_⟩
  unfold Sys.call
  cases s.answers 0 with
  | fail errno => exact .inl ⟨errno,rfl⟩
  | done count => exact .inr ⟨min count len,Nat.min_le_right _ _,rfl⟩

/- The result of a loop that had copied some bytes before it moved `n` more. -/
def Added (r : SSize) (copied n : Nat) : Prop :=
  r = .ok (copied + n) ∨ copied = 0 ∧ n = 0 ∧ ∃ errno, r = .error errno

theorem addedNothing {copied : Nat} (fits : copied < 2 ^ 63) : Added (ssize copied) copied 0 := .inl (ssizeFits fits)

theorem Added.before {r : SSize} {copied m n : Nat} (added : Added r (copied + m) n) : Added r copied (m + n) := by
  obtain rfl | ⟨zero,rfl,failed⟩ := added
  · exact .inl (congrArg _ (Nat.add_assoc _ _ _))
  · exact .inr ⟨by omega,by omega,failed⟩

theorem Added.gave {r : SSize} {n : Nat} (added : Added r 0 n) : Gave r n := by
  obtain rfl | ⟨-,none,failed⟩ := added
  · exact .inl (congrArg _ (Nat.zero_add n))
  · exact .inr ⟨none,failed⟩

/- The bytes that a loop of reads or of writes moves of `len`, and the answers that it leaves. -/
def moves (retry : Bool) (len : Nat) (answers : Nat → Answer) : Nat × (Nat → Answer) :=
  if len = 0 then (0,answers)
  else match answers 0 with
    | .fail _ => (0,fun i => answers (i + 1))
    | .done count =>
      if min count len = 0 then (0,fun i => answers (i + 1))
      else if retry = false then (min count len,fun i => answers (i + 1))
      else
        let (more,later) := moves retry (len - min count len) fun i => answers (i + 1)
        (min count len + more,later)
termination_by len

theorem movesNone (retry : Bool) (answers : Nat → Answer) : moves retry 0 answers = (0,answers) := by
  rw [moves,if_pos rfl]

theorem movesCall (retry : Bool) {len : Nat} (s : Sys) (some : len ≠ 0) :
    moves retry len s.answers = match s.call len with
      | (.error _,t) => (0,t.answers)
      | (.ok res,t) =>
        if res = 0 then (0,t.answers)
        else if retry = false then (res,t.answers)
        else (res + (moves retry (len - res) t.answers).1,(moves retry (len - res) t.answers).2) := by
  rw [moves,if_neg some]
  unfold Sys.call
  cases s.answers 0 with
  | fail errno => rfl
  | done count => rfl

theorem writeLoopMoved (dst : Buf) (dstOff : Nat) (data : List UInt8) (copied : Nat) (s : Sys)
    (fits : copied + data.length < 2 ^ 63) :
    ∃ n, n ≤ data.length ∧ Added (writeLoop dst dstOff data copied s).1 copied n ∧
      (writeLoop dst dstOff data copied s).2.world = s.world.puts (dst.cells dstOff n) (data.take n) ∧
      moves dst.fdRetry data.length s.answers = (n,(writeLoop dst dstOff data copied s).2.answers) := by
  induction length : data.length using Nat.strongRecOn generalizing dstOff data copied s with
  | ind len ih =>
    subst len
    have ended : Added (ssize copied) copied 0 := addedNothing (by omega)
    rw [writeLoop]
    split
    · rename_i zero
      exact ⟨0,Nat.zero_le _,ended,rfl,by rw [zero,movesNone]⟩
    · rename_i more
      rw [movesCall dst.fdRetry s more]
      obtain ⟨t,same,⟨errno,called⟩ | ⟨res,most,called⟩⟩ := callCases s data.length
      · simp only [called]
        split
        · rename_i zero
          exact ⟨0,Nat.zero_le _,.inr ⟨zero,rfl,errno,rfl⟩,same,rfl⟩
        · exact ⟨0,Nat.zero_le _,ended,same,rfl⟩
      · simp only [called]
        split
        · exact ⟨0,Nat.zero_le _,ended,same,rfl⟩
        · rename_i positive
          have written : (t.puts (dst.cells dstOff res) (data.take res)).world =
              s.world.puts (dst.cells dstOff res) (data.take res) := congrArg (World.puts · _ _) same
          split
          · exact ⟨res,most,.inl (ssizeFits (by omega)),written,rfl⟩
          · have less : (data.drop res).length = data.length - res := List.length_drop
            obtain ⟨n,rest,added,world,moved⟩ := ih (data.drop res).length (by omega) (dstOff + res) (data.drop res)
              (copied + res) (t.puts (dst.cells dstOff res) (data.take res)) (by omega) rfl
            have taken : (dst.cells dstOff res).length = (data.take res).length := by
              rw [List.length_take,cellsLength]
              omega
            rw [less] at moved
            change moves dst.fdRetry (data.length - res) t.answers = _ at moved
            refine ⟨res + n,by omega,added.before,?_,by rw [moved]⟩
            rw [cellsAppend,List.take_add,putsAppend _ _ taken,← written]
            exact world

theorem fuseBufWriteMoved (dst : Buf) (dstOff : Nat) (data : List UInt8) (s : Sys) (fits : data.length < 2 ^ 63) :
    ∃ n, n ≤ data.length ∧ Gave (fuseBufWrite dst dstOff data s).1 n ∧
      (fuseBufWrite dst dstOff data s).2.world = s.world.puts (dst.cells dstOff n) (data.take n) ∧
      moves dst.fdRetry data.length s.answers = (n,(fuseBufWrite dst dstOff data s).2.answers) := by
  obtain ⟨n,most,added,world⟩ := writeLoopMoved dst dstOff data 0 s (by omega)
  exact ⟨n,most,added.gave,world⟩

theorem readLoopMoved (src : Buf) (srcOff len copied : Nat) (s : Sys) (fits : copied + len < 2 ^ 63) :
    ∃ n, n ≤ len ∧ Added (readLoop src srcOff len copied s).1 copied n ∧
      ((readLoop src srcOff len copied s).2.1,(readLoop src srcOff len copied s).2.2.world) =
        s.world.takes (src.cells srcOff n) ∧
      moves src.fdRetry len s.answers = (n,(readLoop src srcOff len copied s).2.2.answers) := by
  induction len using Nat.strongRecOn generalizing srcOff copied s with
  | ind len ih =>
    have ended : Added (ssize copied) copied 0 := addedNothing (by omega)
    rw [readLoop]
    split
    · rename_i zero
      exact ⟨0,Nat.zero_le _,ended,rfl,by rw [zero,movesNone]⟩
    · rename_i more
      rw [movesCall src.fdRetry s more]
      obtain ⟨t,same,⟨errno,called⟩ | ⟨res,most,called⟩⟩ := callCases s len
      · simp only [called]
        split
        · rename_i zero
          exact ⟨0,Nat.zero_le _,.inr ⟨zero,rfl,errno,rfl⟩,congrArg (Prod.mk []) same,rfl⟩
        · exact ⟨0,Nat.zero_le _,ended,congrArg (Prod.mk []) same,rfl⟩
      · simp only [called]
        split
        · exact ⟨0,Nat.zero_le _,ended,congrArg (Prod.mk []) same,rfl⟩
        · split
          · exact ⟨res,most,.inl (ssizeFits (by omega)),congrArg (World.takes · _) same,rfl⟩
          · obtain ⟨n,rest,added,read,moved⟩ := ih (len - res) (by omega) (srcOff + res) (copied + res)
              (t.takes (src.cells srcOff res)).2 (by omega)
            change moves src.fdRetry (len - res) t.answers = _ at moved
            refine ⟨res + n,by omega,added.before,?_,by rw [moved]⟩
            rw [cellsAppend,takesAppend,← same]
            obtain ⟨bytes,world⟩ := Prod.mk.inj read
            exact congrArg₂ Prod.mk (congrArg (_ ++ ·) bytes) world

theorem fuseBufReadMoved (src : Buf) (srcOff len : Nat) (s : Sys) (fits : len < 2 ^ 63) :
    ∃ n, n ≤ len ∧ Gave (fuseBufRead src srcOff len s).1 n ∧
      ((fuseBufRead src srcOff len s).2.1,(fuseBufRead src srcOff len s).2.2.world) =
        s.world.takes (src.cells srcOff n) ∧
      moves src.fdRetry len s.answers = (n,(fuseBufRead src srcOff len s).2.2.answers) := by
  obtain ⟨n,most,added,read⟩ := readLoopMoved src srcOff len 0 s (by omega)
  exact ⟨n,most,added.gave,read⟩

theorem bounceCopied {dst src : Buf} {dstOff srcOff len : Nat} (w : World) {got kept : Nat} (read : got ≤ len)
    (less : kept ≤ got) (apart : Apart (src.cells srcOff len) (dst.cells dstOff len)) :
    Copied w ((w.takes (src.cells srcOff got)).2.puts (dst.cells dstOff kept)
      ((w.takes (src.cells srcOff got)).1.take kept))
      (src.cells srcOff len) (dst.cells dstOff len) kept (got - kept) where
  source := by
    rw [cellsLength]
    omega
  dest := by
    rw [cellsLength]
    omega
  world := by
    have behind : ((src.cells srcOff len).drop kept).take (got - kept) = src.cells (srcOff + kept) (got - kept) := by
      rw [cellsDrop _ _ (by omega),cellsTake _ _ (by omega)]
    have front : (w.takes (src.cells srcOff got)).1.take kept = (w.takes (src.cells srcOff kept)).1 := by
      rw [cellsSplit src srcOff less,takesAppend]
      exact List.take_left' ((takesLength _ _).trans (cellsLength _ _ _))
    have unread : Apart (src.cells (srcOff + kept) (got - kept)) (dst.cells dstOff kept) := by
      refine apart.mono (fun c inside => ?_) (fun c inside => ?_)
      · rw [← behind] at inside
        exact List.mem_of_mem_drop (List.mem_of_mem_take inside)
      · rw [← cellsTake dst dstOff (Nat.le_trans less read)] at inside
        exact List.mem_of_mem_take inside
    rw [front,behind,cellsTake _ _ (by omega),cellsTake _ _ (by omega),World.transfer,putsTakes _ _ unread]
    rw [cellsSplit src srcOff less,takesAppend]

theorem apartBehind {dst src : Buf} {dstOff srcOff len res : Nat} (less : res ≤ len)
    (apart : Apart (src.cells srcOff len) (dst.cells dstOff len)) :
    Apart (src.cells (srcOff + res) (len - res)) (dst.cells (dstOff + res) (len - res)) ∧
      Apart (src.cells (srcOff + res) (len - res)) (dst.cells dstOff res) := by
  rw [cellsSplit src srcOff less,cellsSplit dst dstOff less] at apart
  exact ⟨apart.mono (fun _ => List.mem_append_right _) fun _ => List.mem_append_right _,
    apart.mono (fun _ => List.mem_append_right _) fun _ => List.mem_append_left _⟩

theorem pieceCopied {dst src : Buf} {dstOff srcOff len res kept lost : Nat} {w w' : World} (less : res ≤ len)
    (apart : Apart (src.cells srcOff len) (dst.cells dstOff len))
    (later : Copied (w.transfer (src.cells srcOff res) (dst.cells dstOff res)) w' (src.cells (srcOff + res) (len - res))
      (dst.cells (dstOff + res) (len - res)) kept lost) :
    Copied w w' (src.cells srcOff len) (dst.cells dstOff len) (res + kept) lost := by
  have same : (src.cells srcOff res).length = (dst.cells dstOff res).length := by rw [cellsLength,cellsLength]
  have whole := Copied.append same (apartBehind less apart).2 later
  rw [cellsLength,← cellsSplit src srcOff less,← cellsSplit dst dstOff less] at whole
  exact whole

theorem minSizeLeast (m n : Nat) : minSize m n = min m n := by
  unfold minSize
  split <;> omega

/- In fuse_buf_fd_to_fd the writes take all that the read before them gave. -/
def bounceKeeps (retry retry' : Bool) (len : Nat) (answers : Nat → Answer) : Bool :=
  if len = 0 then true
  else match moves retry (min tmpSize len) answers with
    | (got,later) =>
      if (moves retry' got later).1 ≠ got then false
      else if got < min tmpSize len then true
      else bounceKeeps retry retry' (len - got) (moves retry' got later).2
termination_by len
decreasing_by
  have piece : min tmpSize len ≠ 0 := by
    unfold tmpSize
    omega
  omega

theorem fdToFdLoopCopied (dst : Buf) (dstOff : Nat) (src : Buf) (srcOff len copied : Nat) (s : Sys)
    (fits : copied + len < 2 ^ 63) (apart : Apart (src.cells srcOff len) (dst.cells dstOff len)) :
    ∃ n lost, Added (fdToFdLoop dst dstOff src srcOff len copied s).1 copied n ∧
      Copied s.world (fdToFdLoop dst dstOff src srcOff len copied s).2.world (src.cells srcOff len)
        (dst.cells dstOff len)
        n lost ∧ (lost = 0 ↔ bounceKeeps src.fdRetry dst.fdRetry len s.answers = true) := by
  induction len using Nat.strongRecOn generalizing dstOff srcOff copied s with
  | ind len ih =>
    have ended : Added (ssize copied) copied 0 := addedNothing (by omega)
    have failed (errno : Nat) (zero : copied = 0) : Added (.error errno) copied 0 := .inr ⟨zero,rfl,errno,rfl⟩
    rw [fdToFdLoop,bounceKeeps]
    split
    · exact ⟨0,0,ended,Copied.none _ _ _,iff_of_true rfl rfl⟩
    · rename_i more
      rw [minSizeLeast]
      dsimp only
      have piece : min tmpSize len ≠ 0 := by
        unfold tmpSize
        omega
      obtain ⟨got,most,gave,read,moved⟩ := fuseBufReadMoved src srcOff (min tmpSize len) s (by omega)
      rcases result : fuseBufRead src srcOff (min tmpSize len) s with ⟨r,tmp,t⟩
      rw [result] at gave read moved
      rw [moved]
      obtain ⟨bytes,world⟩ := Prod.mk.inj read
      dsimp only at gave bytes world ⊢
      have gone : got ≤ len := Nat.le_trans most (Nat.min_le_right _ _)
      obtain rfl | ⟨rfl,errno,rfl⟩ := gave
      · dsimp only
        split
        · rename_i zero
          subst got
          rw [movesNone,if_neg (not_not.mpr rfl),if_pos (Nat.pos_of_ne_zero piece)]
          exact ⟨0,0,ended,by rw [world]; exact Copied.none _ _ _,iff_of_true rfl rfl⟩
        · rename_i some
          have length : tmp.length = got := by rw [bytes,takesLength,cellsLength]
          obtain ⟨kept,less,wrote,world',moved'⟩ := fuseBufWriteMoved dst dstOff tmp t (by omega)
          rcases result' : fuseBufWrite dst dstOff tmp t with ⟨r',t'⟩
          rw [result'] at wrote world' moved'
          rw [length] at less moved'
          rw [moved']
          dsimp only
          have copy := bounceCopied s.world gone less apart
          rw [← bytes,← world,← world'] at copy
          have short (fewer : kept ≠ got) : got - kept = 0 ↔ (if kept ≠ got then false
              else if got < min tmpSize len then true
              else bounceKeeps src.fdRetry dst.fdRetry (len - got) t'.answers) = true := by
            rw [if_pos fewer]
            exact iff_of_false (by omega) Bool.false_ne_true
          obtain rfl | ⟨rfl,errno,rfl⟩ := wrote
          · dsimp only
            split
            · rename_i zero
              subst kept
              exact ⟨0,_,ended,copy,short (Ne.symm some)⟩
            · split
              · rename_i below
                refine ⟨kept,_,.inl (ssizeFits (by omega)),copy,?_⟩
                by_cases all : kept = got
                · subst kept
                  rw [if_neg (not_not.mpr rfl),if_pos below]
                  exact iff_of_true (Nat.sub_self _) rfl
                · exact short all
              · rename_i positive whole
                have all : kept = got := by omega
                subst kept
                have moved : t'.world = s.world.transfer (src.cells srcOff got) (dst.cells dstOff got) := by
                  rw [world',bytes,world,List.take_of_length_le (Nat.le_of_eq (by rw [takesLength,cellsLength]))]
                  rfl
                obtain ⟨n,lost,added,later,keeps⟩ := ih (len - got) (by omega) (dstOff + got)
                  (srcOff + got) (copied + got) t'
                  (by omega) (apartBehind gone apart).1
                rw [moved] at later
                rw [if_neg (not_not.mpr rfl),if_neg whole]
                exact ⟨got + n,lost,added.before,pieceCopied gone apart later,keeps⟩
          · dsimp only
            split
            · rename_i zero
              exact ⟨0,_,failed errno zero,copy,short (Ne.symm some)⟩
            · exact ⟨0,_,ended,copy,short (Ne.symm some)⟩
      · dsimp only
        have same : t.world = s.world := world
        rw [← same,movesNone,if_neg (not_not.mpr rfl),if_pos (Nat.pos_of_ne_zero piece)]
        split
        · rename_i zero
          exact ⟨0,0,failed errno zero,Copied.none _ _ _,iff_of_true rfl rfl⟩
        · exact ⟨0,0,ended,Copied.none _ _ _,iff_of_true rfl rfl⟩

/- A first splice that is not supported leaves the bytes to the bounce. -/
def spliceKeeps (flags : CopyFlags) (retry retry' : Bool) (len : Nat) (answers : Nat → Answer) : Bool :=
  if answers 0 = .fail einval ∧ flags.forceSplice = false then bounceKeeps retry retry' len fun i => answers (i + 1)
  else true

theorem bounceKeepsNone (retry retry' : Bool) (answers : Nat → Answer) : bounceKeeps retry retry' 0 answers = true := by
  rw [bounceKeeps,if_pos rfl]

theorem spliceLoopCopied (flags : CopyFlags) (dst : Buf) (dstOff : Nat) (src : Buf) (srcOff len copied : Nat) (s : Sys)
    (fits : copied + len < 2 ^ 63) (apart : Apart (src.cells srcOff len) (dst.cells dstOff len)) :
    ∃ n lost, Added (spliceLoop flags dst dstOff src srcOff len copied s).1 copied n ∧
      Copied s.world (spliceLoop flags dst dstOff src srcOff len copied s).2.world (src.cells srcOff len)
        (dst.cells dstOff len) n lost ∧ (flags.forceSplice = true → lost = 0) ∧ (copied ≠ 0 → lost = 0) ∧
        (copied = 0 → (lost = 0 ↔ spliceKeeps flags src.fdRetry dst.fdRetry len s.answers = true)) := by
  induction len using Nat.strongRecOn generalizing dstOff srcOff copied s with
  | ind len ih =>
    have ended : Added (ssize copied) copied 0 := addedNothing (by omega)
    rw [spliceLoop]
    split
    · rename_i zero
      refine ⟨0,0,ended,Copied.none _ _ _,fun _ => rfl,fun _ => rfl,fun _ => iff_of_true rfl ?_⟩
      rw [spliceKeeps,zero,bounceKeepsNone,ite_self]
    · rename_i more
      obtain ⟨errno,answer⟩ | ⟨count,answer⟩ : (∃ errno, s.answers 0 = .fail errno) ∨ ∃ count,
          s.answers 0 = .done count := by
        cases s.answers 0 with
        | fail errno => exact .inl ⟨errno,rfl⟩
        | done count => exact .inr ⟨count,rfl⟩
      · have called : s.call len = (.error errno,{s with answers := fun i => s.answers (i + 1)}) := by
          rw [Sys.call,answer]
        simp only [called]
        split
        · rename_i some
          exact ⟨0,0,ended,Copied.none _ _ _,fun _ => rfl,fun _ => rfl,fun zero => absurd zero some⟩
        · rename_i first
          have zero : copied = 0 := Decidable.not_not.mp first
          subst copied
          split
          · rename_i stops
            refine ⟨0,0,.inr ⟨rfl,rfl,errno,rfl⟩,Copied.none _ _ _,fun _ => rfl,fun _ => rfl,fun _ =>
              iff_of_true rfl ?_⟩
            rw [spliceKeeps,answer,if_neg]
            rintro ⟨same,unforced⟩
            cases same
            obtain other | forced := stops
            · exact other rfl
            · cases unforced.symm.trans forced
          · rename_i fallback
            obtain ⟨n,lost,added,copy,keeps⟩ :=
              fdToFdLoopCopied dst dstOff src srcOff len 0 {s with answers := fun i => s.answers (i + 1)} fits apart
            have unforced : flags.forceSplice = false := eq_false_of_ne_true fun force => fallback (.inr force)
            have unsupported : errno = einval := Decidable.not_not.mp fun other => fallback (.inl other)
            refine ⟨n,lost,added,copy,fun force => absurd (.inr force) fallback,fun some => absurd rfl some,fun _ => ?_⟩
            rw [spliceKeeps,answer,unsupported,if_pos ⟨rfl,unforced⟩]
            exact keeps
      · have called : s.call len = (.ok (min count len),{s with answers := fun i => s.answers (i + 1)}) := by
          rw [Sys.call,answer]
        have most : min count len ≤ len := Nat.min_le_right _ _
        have held : spliceKeeps flags src.fdRetry dst.fdRetry len s.answers = true := by
          rw [spliceKeeps,answer,if_neg (fun both => nomatch both.1)]
        simp only [called]
        generalize min count len = res at most
        split
        · exact ⟨0,0,ended,Copied.none _ _ _,fun _ => rfl,fun _ => rfl,fun _ => iff_of_true rfl held⟩
        · rename_i positive
          split
          · exact ⟨res,0,.inl (ssizeFits (by omega)),pieceCopied most apart (Copied.none _ _ _),fun _ =>
              rfl,fun _ => rfl,
              fun _ => iff_of_true rfl held⟩
          · obtain ⟨n,lost,added,later,-,none,-⟩ := ih (len - res) (by omega) (dstOff + res) (srcOff + res)
              (copied + res)
              (Sys.transfer {s with answers := fun i => s.answers (i + 1)} (src.cells srcOff res)
                (dst.cells dstOff res))
              (by omega) (apartBehind most apart).1
            have kept : lost = 0 := none (by omega)
            exact ⟨res + n,lost,added.before,pieceCopied most apart later,fun _ => kept,fun _ => kept,
              fun _ => iff_of_true kept held⟩

/- A stream's bytes may go through the local buffer of fuse_buf_fd_to_fd: the source is a stream, the
destination a descriptor, and nothing holds the copy to splice. -/
def bounces (haveSplice : Bool) (flags : CopyFlags) (src dst : Buf) : Bool :=
  src.isFd && !src.fdSeek && dst.isFd && !(haveSplice && !flags.noSplice && flags.forceSplice)

theorem cellStream (b : Buf) (off : Nat) : (b.cell off).isStream = (b.isFd && !b.fdSeek) := by
  unfold Buf.cell
  cases b.isFd with
  | false => rfl
  | true => cases b.fdSeek <;> rfl

theorem Copied.still {w w' : World} {src dst : List Cell} {kept lost : Nat} (copied : Copied w w' src dst kept lost)
    (still : ∀ c ∈ src, c.isStream = false) : Copied w w' src dst kept 0 where
  source := Nat.le_trans (Nat.le_add_right _ _) copied.source
  dest := copied.dest
  world := by
    rw [copied.world]
    exact takesStill fun c inside => still c (List.mem_of_mem_drop (List.mem_of_mem_take inside))

theorem allCopied {dst src : Buf} {dstOff srcOff len : Nat} (w : World) :
    Copied w (w.transfer (src.cells srcOff len) (dst.cells dstOff len)) (src.cells srcOff len)
      (dst.cells dstOff len) len 0 where
  source := Nat.le_of_eq (cellsLength _ _ _).symm
  dest := Nat.le_of_eq (cellsLength _ _ _).symm
  world := by
    rw [cellsTake _ _ (Nat.le_refl _),cellsTake _ _ (Nat.le_refl _)]
    rfl

/- A stream's bytes that go to a descriptor through the local buffer are all written. -/
def pieceKeeps (haveSplice : Bool) (flags : CopyFlags) (dst src : Buf) (len : Nat) (answers : Nat → Answer) : Bool :=
  if (src.isFd && !src.fdSeek && dst.isFd) = false then true
  else if haveSplice = false ∨ flags.noSplice = true then bounceKeeps src.fdRetry dst.fdRetry len answers
  else spliceKeeps flags src.fdRetry dst.fdRetry len answers

theorem writtenCopied {dst src : Buf} {dstOff srcOff len kept : Nat} (w : World) (less : kept ≤ len)
    (apart : Apart (src.cells srcOff len) (dst.cells dstOff len))
    (still : ∀ c ∈ src.cells srcOff len, c.isStream = false) :
    Copied w (w.puts (dst.cells dstOff kept) ((w.takes (src.cells srcOff len)).1.take kept)) (src.cells srcOff len)
      (dst.cells dstOff len) kept 0 := by
  have copy := (bounceCopied w (Nat.le_refl len) less apart).still still
  rw [takesStill still] at copy
  exact copy

theorem readCopied {dst src : Buf} {dstOff srcOff len kept : Nat} (w : World) (less : kept ≤ len)
    (apart : Apart (src.cells srcOff len) (dst.cells dstOff len)) :
    Copied w ((w.takes (src.cells srcOff kept)).2.puts (dst.cells dstOff kept) (w.takes (src.cells srcOff kept)).1)
      (src.cells srcOff len) (dst.cells dstOff len) kept 0 := by
  have copy := bounceCopied w less (Nat.le_refl kept) apart
  rw [Nat.sub_self,List.take_of_length_le (Nat.le_of_eq (by rw [takesLength,cellsLength]))] at copy
  exact copy

theorem copyOneCopied (haveSplice : Bool) (flags : CopyFlags) (dst : Buf) (dstOff : Nat) (src : Buf) (srcOff len : Nat)
    (s : Sys) (fits : len < 2 ^ 63) (apart : Apart (src.cells srcOff len) (dst.cells dstOff len)) :
    ∃ n lost, Gave (fuseBufCopyOne haveSplice flags dst dstOff src srcOff len s).1 n ∧
      Copied s.world (fuseBufCopyOne haveSplice flags dst dstOff src srcOff len s).2.world (src.cells srcOff len)
        (dst.cells dstOff len) n lost ∧
      (src.isFd = false → dst.isFd = false →
        n = len ∧ (fuseBufCopyOne haveSplice flags dst dstOff src srcOff len s).1 = .ok len) ∧
      (0 < lost → bounces haveSplice flags src dst = true) ∧
      (lost = 0 ↔ pieceKeeps haveSplice flags dst src len s.answers = true) := by
  have seekable (notStream : (src.isFd && !src.fdSeek) = false) : ∀ c ∈ src.cells srcOff len, c.isStream = false := by
    intro c inside
    obtain ⟨i,rfl⟩ := cellsKind src srcOff len c inside
    rw [cellStream,notStream]
  have kept (other : (src.isFd && !src.fdSeek && dst.isFd) = false) :
      0 = 0 ↔ pieceKeeps haveSplice flags dst src len s.answers = true := by
    rw [pieceKeeps,if_pos other]
    exact iff_of_true rfl rfl
  unfold fuseBufCopyOne
  split
  · rename_i memory
    refine ⟨len,0,gaveFits fits,?_,fun _ _ => ⟨rfl,ssizeFits fits⟩,nofun,kept (by rw [memory.1]; rfl)⟩
    split
    · exact allCopied s.world
    · rename_i same
      cases len with
      | zero => exact Copied.none _ _ _
      | succ len =>
        have place : src.cell srcOff = dst.cell dstOff := by
          simp only [Buf.cell,memory.1,memory.2,Bool.false_eq_true,if_false]
          exact congrArg Cell.mem (Decidable.not_not.mp same).symm
        have stream := apart _ List.mem_cons_self _ List.mem_cons_self place
        rw [cellStream,memory.1] at stream
        cases stream
  · rename_i descriptor
    split
    · rename_i memory
      have still := seekable (by rw [memory]; rfl)
      have length : (s.takes (src.cells srcOff len)).1.length = len := (takesLength _ _).trans (cellsLength _ _ _)
      obtain ⟨n,less,gave,world,-⟩ := fuseBufWriteMoved dst dstOff (s.takes (src.cells srcOff len)).1 s (by omega)
      refine ⟨n,0,gave,?_,fun _ other => absurd ⟨memory,other⟩ descriptor,nofun,
        kept (by rw [memory]; rfl)⟩
      rw [world]
      exact writtenCopied s.world (by omega) apart still
    · rename_i source
      have fd : src.isFd = true := eq_true_of_ne_false source
      split
      · rename_i memory
        obtain ⟨n,less,gave,read,-⟩ := fuseBufReadMoved src srcOff len s fits
        rcases result : fuseBufRead src srcOff len s with ⟨r,bytes,t⟩
        rw [result] at gave read
        obtain ⟨given,world⟩ := Prod.mk.inj read
        dsimp only at gave given world
        refine ⟨n,0,gave,?_,fun other _ => absurd other source,nofun,
          kept (by rw [memory,Bool.and_false])⟩
        have length : bytes.length = n := by rw [given,takesLength,cellsLength]
        show Copied s.world (t.world.puts (dst.cells dstOff bytes.length) bytes) _ _ n 0
        rw [length,world,given]
        exact readCopied s.world less apart
      · rename_i dest
        have fd' : dst.isFd = true := eq_true_of_ne_false dest
        have bounced {r : SSize} {t : Sys} {n lost : Nat} (gave : Gave r n)
            (copy : Copied s.world t.world (src.cells srcOff len) (dst.cells dstOff len) n lost)
            (forced : (haveSplice && !flags.noSplice && flags.forceSplice) = true → lost = 0)
            (keeps : lost = 0 ↔ (if haveSplice = false ∨ flags.noSplice = true then
                bounceKeeps src.fdRetry dst.fdRetry len s.answers
              else spliceKeeps flags src.fdRetry dst.fdRetry len s.answers) = true) :
            ∃ n lost, Gave r n ∧ Copied s.world t.world (src.cells srcOff len) (dst.cells dstOff len) n lost ∧
              (src.isFd = false → dst.isFd = false → n = len ∧ r = .ok len) ∧
              (0 < lost → bounces haveSplice flags src dst = true) ∧
              (lost = 0 ↔ pieceKeeps haveSplice flags dst src len s.answers = true) := by
          cases seek : src.fdSeek with
          | true =>
            exact ⟨n,0,gave,copy.still (seekable (by rw [seek,fd]; rfl)),fun other _ => absurd other source,
              nofun,kept (by rw [seek,fd]; rfl)⟩
          | false =>
            refine ⟨n,lost,gave,copy,fun other _ => absurd other source,fun some => ?_,?_⟩
            · cases held : haveSplice && !flags.noSplice && flags.forceSplice with
              | true => exact absurd (forced held) (Nat.ne_of_gt some)
              | false => rw [bounces,held,fd,fd',seek]; rfl
            · rw [pieceKeeps,if_neg (by rw [fd,fd',seek]; decide)]
              exact keeps
        split
        · rename_i noSplice
          obtain ⟨n,lost,added,copy,keeps⟩ := fdToFdLoopCopied dst dstOff src srcOff len 0 s (by omega) apart
          exact bounced added.gave copy (by rw [noSplice]; simp) (by rw [if_pos (.inr noSplice)]; exact keeps)
        · rename_i splice
          unfold fuseBufSplice
          split
          · rename_i supported
            obtain ⟨n,lost,added,copy,forced,-,keeps⟩ :=
              spliceLoopCopied flags dst dstOff src srcOff len 0 s (by omega) apart
            refine bounced added.gave copy (fun held => forced (Bool.and_eq_true_iff.mp held).2) ?_
            rw [if_neg (fun either => either.elim (fun without => nomatch without.symm.trans supported) splice)]
            exact keeps rfl
          · rename_i without
            obtain ⟨n,lost,added,copy,keeps⟩ := fdToFdLoopCopied dst dstOff src srcOff len 0 s (by omega) apart
            exact bounced added.gave copy (by simp [without])
              (by rw [if_pos (.inl (eq_false_of_ne_true without))]; exact keeps)

end FuseStudy.BufCopy
