import FuseStudy.ConfFile
import FuseStudy.MayUnmount

/-! fuse_req_getgroups of lib/fuse_lowlevel.c: the groups of a task, from its status file in /proc. The file is read
at once, into a larger buffer each time until it fits. -/
namespace FuseStudy.TaskGroups
open CString
open ConfFile (isspace isDigit digitValue basePrefix)
open MayUnmount (strstr strstrFound strstrLeast)

/- A base of 0 is told by the number itself. -/
def baseOf (binary : Bool) (s : Bytes) : Nat × Bytes :=
  if s.head? = some 48 then
    match s.tail.head?.bind (basePrefix binary) with
    | some base => if s.tail.tail.head?.any (isDigit base) then (base,s.tail.tail) else (8,s)
    | none => (8,s)
  else (10,s)

/- strtoul(s, &end, 0): the value and the rest, none if there is no number. -/
def strtoul (binary : Bool) (s : Bytes) : Option (BitVec 64 × Bytes) :=
  let s := s.dropWhile isspace
  let negative := s.head? = some 45
  let s := if s.head? = some 45 ∨ s.head? = some 43 then s.tail else s
  let (base,s) := baseOf binary s
  let digits := s.takeWhile (isDigit base)
  if digits = [] then none
  else
    let n := digits.foldl (fun n b => n * base + digitValue b) 0
    -- What does not fit is ULONG_MAX, with a sign too.
    let val := if 2 ^ 64 ≤ n then BitVec.allOnes 64 else if negative then -BitVec.ofNat 64 n else BitVec.ofNat 64 n
    some (val,s.dropWhile (isDigit base))

theorem behindShorter {p : UInt8 → Bool} {s t : Bytes} (part : t.length ≤ s.length) (some' : t.takeWhile p ≠ []) :
    (t.dropWhile p).length < s.length := by
  have whole := congrArg List.length (List.takeWhile_append_dropWhile (p := p) (l := t))
  rw [List.length_append] at whole
  have least := List.length_pos_iff.mpr some'
  omega

theorem baseShorter (binary : Bool) (s : Bytes) : (baseOf binary s).2.length ≤ s.length := by
  unfold baseOf
  split
  · split
    · split
      · simp only [List.length_tail]
        omega
      · exact Nat.le_refl _
    · exact Nat.le_refl _
  · exact Nat.le_refl _

theorem strtoulShorter {binary : Bool} {s rest : Bytes} {val : BitVec 64} (read : strtoul binary s = some (val,rest)) :
    rest.length < s.length := by
  have blank : (s.dropWhile isspace).length ≤ s.length := (List.dropWhile_suffix _).length_le
  unfold strtoul at read
  generalize s.dropWhile isspace = t at read blank
  have sign : (if t.head? = some 45 ∨ t.head? = some 43 then t.tail else t).length ≤ s.length := by
    split
    · rw [List.length_tail]
      omega
    · exact blank
  simp only at read
  generalize (if t.head? = some 45 ∨ t.head? = some 43 then t.tail else t) = u at read sign
  have part := (baseShorter binary u).trans sign
  generalize baseOf binary u = parts at read part
  obtain ⟨base,v⟩ := parts
  simp only at read
  by_cases none : v.takeWhile (isDigit base) = []
  · rw [if_pos none] at read
    cases read
  · rw [if_neg none] at read
    cases read
    exact behindShorter part none

inductive Ended where
  | outside
  | running
  | returned (ret : Int) (list : List (BitVec 32))
  deriving DecidableEq

/- list has the room that the caller gives it; size is what he says of it. -/
def groupsLoop (binary : Bool) (size : Int) (s : Bytes) (ret : Nat) (list : List (BitVec 32)) : Ended :=
  match _read : strtoul binary s with
  | none => .returned ret list
  | some (val,rest) =>
    if (ret : Int) < size then
      if ret < list.length then groupsLoop binary size rest (ret + 1) (list.set ret (val.setWidth 32)) else .outside
    else groupsLoop binary size rest (ret + 1) list
termination_by s.length
decreasing_by all_goals exact strtoulShorter _read

def eio : Int := 5
def enomem : Int := 12

def groupsField : Bytes := 10 :: ascii "Groups:"

/- What one round comes to; the file is what can be read of it at that time. -/
inductive Attempt where
  | noMemory
  | notOpened
  | notRead
  | file (content : Bytes)

def getgroups (binary : Bool) (size : Int) (list : List (BitVec 32)) : Nat → List Attempt → Ended
  | _,[] => .running
  | _,.noMemory :: _ => .returned (-enomem) list
  | _,.notOpened :: _ => .returned (-eio) list
  | _,.notRead :: _ => .returned (-eio) list
  | bufsize,.file content :: later =>
    let buf := content.take bufsize
    if buf.length = bufsize then getgroups binary size list (bufsize * 4) later
    else match strstr groupsField (buf.takeWhile (· ≠ 0)) with
      | none => .returned (-eio) list
      | some (_,s) => groupsLoop binary size (s.drop 8) 0 list

/- Whether the C library takes 0b in a number is binary. -/
def fuseReqGetgroups (binary : Bool) (size : Int) (list : List (BitVec 32)) (attempts : List Attempt) : Ended :=
  getgroups binary size list 1024 attempts

variable {binary : Bool}

/-! Numbers as the kernel prints them. -/

theorem digitOf {k : Nat} (small : k < 10) :
    isDigit 10 (UInt8.ofNat (48 + k)) = true ∧ digitValue (UInt8.ofNat (48 + k)) = k ∧
    isspace (UInt8.ofNat (48 + k)) = false := by
  revert k
  decide

theorem digitsValue (n : Nat) : (digits 10 n).foldl (fun n b => n * 10 + digitValue b) 0 = n := by
  induction n using Nat.strongRecOn with
  | ind n ih =>
    rw [digits]
    split
    · next large =>
      have digit := digitOf (Nat.mod_lt n (by decide : 10 > 0))
      rw [List.foldl_append,ih (n / 10) (Nat.div_lt_self (by omega) large.2),List.foldl_cons,List.foldl_nil,digit.2.1]
      omega
    · next small =>
      have digit := digitOf (show n < 10 by omega)
      rw [List.foldl_cons,List.foldl_nil,digit.2.1]
      omega

theorem digitsAre (n : Nat) : ∀ b ∈ digits 10 n, isDigit 10 b = true ∧ isspace b = false := by
  induction n using Nat.strongRecOn with
  | ind n ih =>
    intro b mem
    rw [digits] at mem
    split at mem
    · next large =>
      obtain earlier | last := List.mem_append.mp mem
      · exact ih (n / 10) (Nat.div_lt_self (by omega) large.2) b earlier
      · have digit := digitOf (Nat.mod_lt n (by decide : 10 > 0))
        rw [List.mem_singleton.mp last]
        exact ⟨digit.1,digit.2.2⟩
    · next small =>
      have digit := digitOf (show n < 10 by omega)
      rw [List.mem_singleton.mp mem]
      exact ⟨digit.1,digit.2.2⟩

theorem digitsFirst {n : Nat} (some' : 0 < n) : ∃ b ds, digits 10 n = b :: ds ∧ b ≠ 48 := by
  induction n using Nat.strongRecOn with
  | ind n ih =>
    rw [digits]
    split
    · next large =>
      obtain ⟨b,ds,is,other⟩ := ih (n / 10) (Nat.div_lt_self (by omega) large.2) (by omega)
      exact ⟨b,ds ++ [UInt8.ofNat (48 + n % 10)],by rw [is]; rfl,other⟩
    · next small =>
      refine ⟨_,[],rfl,fun zero => ?_⟩
      have values := congrArg UInt8.toNat zero
      rw [UInt8.toNat_ofNat_of_lt' (by simp [UInt8.size]; omega)] at values
      have : (48 : UInt8).toNat = 48 := rfl
      omega

theorem notDigit : isDigit 10 32 = false ∧ isDigit 8 32 = false := by decide

theorem signless {b : UInt8} (digit : isDigit 10 b = true) : b ≠ 45 ∧ b ≠ 43 := by
  constructor
  · rintro rfl
    cases digit
  · rintro rfl
    cases digit

theorem strtoulNumber (binary : Bool) {w : UInt8} (blank : isspace w = true) (n : Nat) (small : n < 2 ^ 32)
    (rest : Bytes) :
    strtoul binary (w :: (digits 10 n ++ 32 :: rest)) = some (BitVec.ofNat 64 n,32 :: rest) := by
  have clip : ¬2 ^ 64 ≤ n := by omega
  by_cases zero : n = 0
  · subst zero
    have one : digits 10 0 = [48] := by
      rw [digits]
      rfl
    rw [one]
    unfold strtoul
    rw [List.dropWhile_cons_of_pos blank]
    cases binary <;> rfl
  · obtain ⟨b,ds,is,other⟩ := digitsFirst (Nat.pos_of_ne_zero zero)
    have all := digitsAre n
    rw [is] at all
    have first := all b List.mem_cons_self
    have sign := signless first.1
    have value := digitsValue n
    rw [is] at value
    have every : ∀ x ∈ b :: ds, isDigit 10 x = true := fun x mem => (all x mem).1
    have taken : (b :: (ds ++ 32 :: rest)).takeWhile (isDigit 10) = b :: ds := by
      rw [← List.cons_append,List.takeWhile_append_of_pos every,
        List.takeWhile_cons_of_neg (by rw [notDigit.1]; exact Bool.noConfusion),
        List.append_nil]
    have left : (b :: (ds ++ 32 :: rest)).dropWhile (isDigit 10) = 32 :: rest := by
      rw [← List.cons_append,List.dropWhile_append_of_pos every,
        List.dropWhile_cons_of_neg (by rw [notDigit.1]; exact Bool.noConfusion)]
    rw [is]
    have base : baseOf binary (b :: (ds ++ 32 :: rest)) = (10,b :: (ds ++ 32 :: rest)) := by
      unfold baseOf
      rw [if_neg]
      rintro same
      exact other (Option.some.inj same)
    unfold strtoul
    rw [List.dropWhile_cons_of_pos blank,List.cons_append,
      List.dropWhile_cons_of_neg (by rw [first.2]; exact Bool.noConfusion)]
    simp only [List.head?_cons,Option.some.injEq,sign.1,sign.2,or_self,if_false,base,taken,left,value]
    rw [if_neg (List.cons_ne_nil b ds),if_neg clip]

def Ends (behind : Bytes) : Prop :=
  ∀ b, behind.head? = some b → isspace b = false ∧ isDigit 10 b = false ∧ b ≠ 45 ∧ b ≠ 43

theorem strtoulNone (binary : Bool) {w : UInt8} {behind : Bytes} (blank : isspace w = true) (blanks : Nat)
    (ends : Ends behind) :
    strtoul binary (w :: (List.replicate blanks 32 ++ 10 :: behind)) = none := by
  have skipped : ∀ b ∈ List.replicate blanks (32 : UInt8), isspace b = true := fun b mem =>
    List.eq_of_mem_replicate mem ▸ rfl
  unfold strtoul
  rw [List.dropWhile_cons_of_pos blank,List.dropWhile_append_of_pos skipped,List.dropWhile_cons_of_pos (by decide)]
  cases behind with
  | nil => rfl
  | cons b behind =>
    obtain ⟨space,digit,minus,plus⟩ := ends b rfl
    have base : baseOf binary (b :: behind) = (10,b :: behind) := by
      unfold baseOf
      rw [if_neg]
      intro same
      rw [Option.some.inj same] at digit
      cases digit
    rw [List.dropWhile_cons_of_neg (by rw [space]; exact Bool.noConfusion)]
    simp only [List.head?_cons,Option.some.injEq,minus,plus,or_self,if_false,base]
    rw [List.takeWhile_cons_of_neg (by rw [digit]; exact Bool.noConfusion),if_pos rfl]

/- The groups as the kernel writes them: a blank behind each, and in newer ones also one where there is none. -/
def written (groups : List Nat) : Bytes := groups.flatMap fun g => digits 10 g ++ [32]

theorem loopReads {groups : List Nat} (small : ∀ g ∈ groups, g < 2 ^ 32) {behind : Bytes} (blanks : Nat)
    (ends : Ends behind) {size : Int} {w : UInt8} (blank : isspace w = true) (ret : Nat)
    (list : List (BitVec 32)) (room : size ≤ list.length) :
    ∃ list', groupsLoop binary size (w :: (written groups ++ (List.replicate blanks 32 ++ 10 :: behind))) ret list =
      .returned (ret + groups.length : Nat) list' ∧
      list'.length = list.length ∧ ∀ j, list'[j]? =
        if ret ≤ j ∧ j < ret + groups.length ∧ (j : Int) < size then groups[j - ret]?.map (BitVec.ofNat 32)
          else list[j]? := by
  induction groups generalizing w ret list with
  | nil =>
    have none := strtoulNone binary blank blanks ends
    refine ⟨list,?_,rfl,fun j => ?_⟩
    · rw [groupsLoop]
      split
      · rfl
      · next read =>
        rw [show written [] ++ (List.replicate blanks 32 ++ 10 :: behind) = List.replicate blanks 32 ++
          10 :: behind from rfl,none]
          at read
        cases read
    · rw [if_neg]
      rintro ⟨least,most,-⟩
      simp only [List.length_nil] at most
      omega
  | cons g groups ih =>
    have text (rest : Bytes) : written (g :: groups) ++ rest = digits 10 g ++ 32 :: (written groups ++ rest) := by
      simp [written]
    have number := strtoulNumber binary blank g (small g List.mem_cons_self)
      (written groups ++ (List.replicate blanks 32 ++ 10 :: behind))
    have later := fun g mem => small g (List.mem_cons_of_mem _ mem)
    have width : (BitVec.ofNat 64 g).setWidth 32 = BitVec.ofNat 32 g := by
      apply BitVec.eq_of_toNat_eq
      have := small g List.mem_cons_self
      simp only [BitVec.toNat_setWidth,BitVec.toNat_ofNat]
      omega
    rw [groupsLoop]
    split
    · next read =>
      rw [text,number] at read
      cases read
    · next read =>
      rw [text,number] at read
      cases read
      by_cases inside : (ret : Int) < size
      · have there : ret < list.length := by omega
        rw [if_pos inside,if_pos there,width]
        obtain ⟨list',ran,length,entries⟩ := ih later (w := 32) (by decide) (ret + 1) (list.set ret (BitVec.ofNat 32 g))
          (by rw [List.length_set]; exact room)
        refine ⟨list',?_,length.trans List.length_set,fun j => ?_⟩
        · rw [ran,List.length_cons]
          congr 2
          omega
        · rw [entries j,List.length_cons]
          by_cases here : j = ret
          · subst here
            rw [if_neg (by omega),if_pos ⟨Nat.le_refl _,by omega,inside⟩,Nat.sub_self,List.getElem?_set_self there]
            rfl
          · rw [List.getElem?_set_ne (Ne.symm here)]
            by_cases behind' : ret + 1 ≤ j ∧ j < ret + 1 + groups.length ∧ (j : Int) < size
            · rw [if_pos behind',if_pos ⟨by omega,by omega,behind'.2.2⟩,show j - ret = (j - (ret + 1)) + 1 by omega]
              rfl
            · rw [if_neg behind',if_neg]
              rintro ⟨least,most,small⟩
              exact behind' ⟨by omega,by omega,small⟩
      · rw [if_neg inside]
        obtain ⟨list',ran,length,entries⟩ := ih later (w := 32) (by decide) (ret + 1) list room
        refine ⟨list',?_,length,fun j => ?_⟩
        · rw [ran,List.length_cons]
          congr 2
          omega
        · rw [entries j,if_neg (by omega),if_neg (by omega)]

/-! The whole file. -/

theorem strstrFirst {needle front : Bytes} (first : ¬needle <:+: front ++ needle.dropLast) (rest : Bytes) :
    strstr needle (front ++ needle ++ rest) = some (front,needle ++ rest) := by
  obtain ⟨before,p,found,least⟩ := strstrLeast needle front rest
  obtain ⟨whole,starts⟩ := strstrFound found
  obtain ⟨behind,rfl⟩ := starts
  have same : before.length = front.length := by
    by_contra other
    have some' : needle ≠ [] := fun none => first (none ▸ List.nil_infix)
    have some'' := List.length_pos_iff.mpr some'
    -- An earlier one would end before the needle does.
    have early : before ++ needle <+: front ++ needle ++ rest := ⟨behind,by rw [whole,List.append_assoc]⟩
    have late : front ++ needle.dropLast <+: front ++ needle ++ rest := by
      rw [List.append_assoc]
      exact (List.prefix_append_right_inj front).mpr
        ((List.dropLast_prefix needle).trans (List.prefix_append needle rest))
    have inside := List.prefix_of_prefix_length_le early late (by
      simp only [List.length_append,List.length_dropLast]
      omega)
    exact first ((List.suffix_append before needle).isInfix.trans inside.isInfix)
  rw [List.append_assoc] at whole
  obtain ⟨rfl,rest'⟩ := List.append_inj whole same.symm
  rw [found,rest']

theorem getgroupsOnce {size : Int} {list : List (BitVec 32)} {file : Bytes} {bufsize : Nat}
    {later : List Attempt} (fits : file.length < bufsize) :
    getgroups binary size list bufsize (.file file :: later) = match strstr groupsField (file.takeWhile (· ≠ 0)) with
      | none => .returned (-eio) list
      | some (_,s) => groupsLoop binary size (s.drop 8) 0 list := by
  rw [getgroups]
  simp only [List.take_of_length_le (Nat.le_of_lt fits)]
  rw [if_neg (Nat.ne_of_lt fits)]

theorem getgroupsFits {size : Int} {list : List (BitVec 32)} {file : Bytes} {bufsize k n : Nat}
    (fits : file.length < bufsize * 4 ^ k) (rounds : k < n) :
    getgroups binary size list bufsize (List.replicate n (.file file)) =
      match strstr groupsField (file.takeWhile (· ≠ 0)) with
      | none => .returned (-eio) list
      | some (_,s) => groupsLoop binary size (s.drop 8) 0 list := by
  induction k generalizing bufsize n with
  | zero =>
    obtain ⟨n,rfl⟩ := Nat.exists_eq_succ_of_ne_zero (Nat.ne_of_gt rounds)
    exact getgroupsOnce (by omega)
  | succ k ih =>
    obtain ⟨n,rfl⟩ := Nat.exists_eq_succ_of_ne_zero (Nat.ne_of_gt (Nat.zero_lt_of_lt rounds))
    rw [List.replicate_succ]
    by_cases now : file.length < bufsize
    · exact getgroupsOnce now
    · rw [getgroups,if_pos (by rw [List.length_take]; omega)]
      refine ih ?_ (Nat.lt_of_succ_lt_succ rounds)
      rw [Nat.mul_assoc,← Nat.pow_succ']
      exact fits

/- A status file with the groups of the task, and the groups in it. -/
structure Status (file : Bytes) (groups : List Nat) : Prop where
  text : 0 ∉ file
  small : ∀ g ∈ groups, g < 2 ^ 32
  line : ∃ front blanks behind,
    file = front ++ groupsField ++ 9 :: (written groups ++ (List.replicate blanks 32 ++ 10 :: behind)) ∧
    (¬groupsField <:+: front ++ groupsField.dropLast) ∧ Ends behind

/- However long the file is, the number of all groups is returned, and as many of them as the caller has room
for are in his list, in their order; nothing is written behind that. -/
theorem groupsRead {size : Int} {list : List (BitVec 32)} {file : Bytes} {groups : List Nat} {k n : Nat}
    (status : Status file groups) (room : size ≤ list.length) (fits : file.length < 1024 * 4 ^ k)
    (rounds : k < n) :
    ∃ list', fuseReqGetgroups binary size list (List.replicate n (.file file)) = .returned groups.length list' ∧
      list'.length = list.length ∧ ∀ j, list'[j]? =
        if j < groups.length ∧ (j : Int) < size then groups[j]?.map (BitVec.ofNat 32) else list[j]? := by
  obtain ⟨front,blanks,behind,is,first,ends⟩ := status.line
  obtain ⟨list',ran,length,entries⟩ := loopReads status.small blanks ends (w := 9) (by decide) 0 list room
  refine ⟨list',?_,length,fun j => ?_⟩
  · have whole : file.takeWhile (· ≠ 0) = file := by
      refine List.takeWhile_eq_self_iff.mpr fun b mem => decide_eq_true fun zero => ?_
      exact status.text (zero ▸ mem)
    have found := strstrFirst first (9 :: (written groups ++ (List.replicate blanks 32 ++ 10 :: behind)))
    rw [← is] at found
    have tail (rest : Bytes) : (groupsField ++ rest).drop 8 = rest := rfl
    rw [fuseReqGetgroups,getgroupsFits fits rounds,whole,found]
    simp only [tail]
    rw [ran,Nat.zero_add]
  · rw [entries j,Nat.zero_add,Nat.sub_zero]
    by_cases inside : j < groups.length ∧ (j : Int) < size
    · rw [if_pos inside,if_pos ⟨Nat.zero_le j,inside⟩]
    · rw [if_neg inside,if_neg fun both => inside both.2]

def catStatus : Bytes := ascii "Name:\tcat\nGroups:\t0 1000 \nNStgid:\t7\n"

theorem firstGroupRead :
    ∃ list', fuseReqGetgroups true 1 [7] [.file catStatus] = .returned 2 list' ∧ list'[0]? = some 0 := by
  have status : Status catStatus [0,1000] := by
    refine ⟨by decide +kernel,by decide,ascii "Name:\tcat",0,ascii "NStgid:\t7\n",?_,by decide +kernel,?_⟩
    · have digits0 : digits 10 0 = [48] := by simp [digits]
      have digits1 : digits 10 1000 = ascii "1000" := by
        simp [digits]
        decide +kernel
      simp only [written,List.flatMap_cons,List.flatMap_nil,digits0,digits1]
      decide +kernel
    · intro b first
      have is : b = 78 := by
        have head : (ascii "NStgid:\t7\n").head? = some 78 := by decide +kernel
        exact (Option.some.inj (head.symm.trans first)).symm
      subst is
      decide
  have fits : catStatus.length < 1024 * 4 ^ 0 := by decide +kernel
  have room : (1 : Int) ≤ ([7] : List (BitVec 32)).length := by decide
  obtain ⟨list',ran,-,entries⟩ := groupsRead status room fits Nat.zero_lt_one
  exact ⟨list',ran,entries 0⟩

end FuseStudy.TaskGroups
