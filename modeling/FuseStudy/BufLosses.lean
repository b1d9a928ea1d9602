import FuseStudy.BufRuns

/-! What fuse_buf_copy keeps account of between descriptors, and what it loses on the way. -/
namespace FuseStudy.BufCopy

/- A result of `n` stands for exactly the first n bytes of the source, taken from it and stored at the
first n places of the destination; an error for nothing taken and nothing stored. -/
def Accounts (src dst : List Cell) (w w' : World) (r : SSize) : Prop :=
  (∀ n, r = .ok n → n ≤ src.length ∧ n ≤ dst.length ∧ w' = w.transfer (src.take n) (dst.take n)) ∧
    ∀ errno, r = .error errno → w' = w

theorem putTaken (w : World) (byte : UInt8) (c : Cell) : (w.put byte c).taken = w.taken := by
  cases c <;> rfl

theorem putsUntaken (w : World) (cells : List Cell) (bytes : List UInt8) : (w.puts cells bytes).taken = w.taken := by
  induction cells generalizing w bytes with
  | nil => rw [putsNil]
  | cons c cells ih =>
    cases bytes with
    | nil => rfl
    | cons byte bytes => rw [World.puts,ih,putTaken]

theorem takesCount (w : World) (cells : List Cell) (fd : Nat) :
    (w.takes cells).2.taken fd = w.taken fd + cells.count (.stream fd) := by
  induction cells generalizing w with
  | nil => rfl
  | cons c cells ih =>
    rw [World.takes,ih,List.count_cons]
    cases c with
    | stream i =>
      by_cases same : fd = i
      · subst same
        simp only [World.take,if_true,BEq.rfl]
        omega
      · have other : (Cell.stream i == Cell.stream fd) = false := by
          rw [beq_eq_false_iff_ne]
          exact fun equal => same (Cell.stream.inj equal).symm
        simp only [World.take,if_neg same,other]
        simp
    | _ => rfl

theorem streamsCount {cells : List Cell} {lost : Nat} (streams : ∀ c ∈ cells.take lost, c.isStream = true)
    (some : 0 < (cells.take lost).length) : ∃ fd, 0 < (cells.take lost).count (.stream fd) := by
  obtain ⟨c,inside⟩ := List.exists_mem_of_length_pos some
  cases c with
  | stream fd => exact ⟨fd,List.count_pos_iff.mpr inside⟩
  | _ => cases streams _ inside

theorem accountsKept {src dst : List Cell} {w w' : World} {r : SSize} {n lost : Nat}
    (copy : Copied w w' src dst n lost) (added : Added r 0 n)
    (streams : ∀ c ∈ (src.drop n).take lost, c.isStream = true) (accounts : Accounts src dst w w' r) :
    lost = 0 := by
  have world : w' = w.transfer (src.take n) (dst.take n) := by
    obtain rfl | ⟨-,rfl,errno,rfl⟩ := added
    · have counted := (accounts.1 _ rfl).2.2
      rw [Nat.zero_add] at counted
      exact counted
    · exact accounts.2 errno rfl
  refine Nat.eq_zero_of_not_pos fun some => ?_
  have length : 0 < ((src.drop n).take lost).length := by
    have most := copy.source
    rw [List.length_take,List.length_drop]
    omega
  obtain ⟨fd,taken⟩ := streamsCount streams length
  have count := congrArg (fun w => w.taken fd) copy.world
  rw [takesCount,world] at count
  omega

def streamSegment (fd size : Nat) : Buf := {size := size,isFd := true,fd := fd}

def streamWorld : World where
  mem := fun _ => 0
  file := fun _ _ => 0
  input := fun _ => UInt8.ofNat
  taken := fun _ => 0
  sent := fun _ => []

end FuseStudy.BufCopy
