import FuseStudy.CString
import Mathlib.Data.List.DropRight

/-! read_conf of util/fusermount.c: fuse.conf is read in pieces of at most 255 bytes, and a line counts if it
came in one piece. -/
namespace FuseStudy.ConfFile
open CString

structure Conf where
  userAllowOther : Bool
  mountMax : BitVec 32
  deriving DecidableEq, Repr

def defaults : Conf := ⟨false,1000⟩

structure File where
  content : Bytes
  error : Bool

def newline : UInt8 := 10

def piece : Nat → Bytes → Bytes × Bytes
  | 0,s => ([],s)
  | _,[] => ([],[])
  | n + 1,b :: s =>
    if b = newline then ([b],s)
    else
      let (line,rest) := piece n s
      (b :: line,rest)

/- Without a piece at the end of the file, and where the piece that was begun cannot be read to its end. -/
def fgets (size : Nat) (file : File) : Option (Bytes × File) :=
  let (line,rest) := piece (size - 1) file.content
  if line = [] then none
  else if file.error ∧ rest = [] ∧ line.length < size - 1 ∧ line.getLast? ≠ some newline then none
  else some (line,{file with content := rest})

def isspace (b : UInt8) : Bool := b = 32 ∨ (9 ≤ b ∧ b ≤ 13)

def stripLine (line : Bytes) : Bytes := ((line.takeWhile (· ≠ 35)).rdropWhile isspace).dropWhile isspace

def isDigit (base : Nat) (b : UInt8) : Bool :=
  (48 ≤ b ∧ b ≤ 57 ∧ b.toNat < 48 + base) ∨ (base = 16 ∧ ((97 ≤ b ∧ b ≤ 102) ∨ (65 ≤ b ∧ b ≤ 70)))

def digitValue (b : UInt8) : Nat := if b ≤ 57 then b.toNat - 48 else if b ≤ 70 then b.toNat - 55 else b.toNat - 87

/- What may follow the 0 of a number that tells its own base; 0b since C23. -/
def basePrefix (binary : Bool) (b : UInt8) : Option Nat :=
  if b = 120 ∨ b = 88 then some 16 else if binary ∧ (b = 98 ∨ b = 66) then some 2 else none

/- The conversion %i: the base comes from the number itself. It goes by way of a long, which stays at its
largest value. -/
def scanInt (binary : Bool) (s : Bytes) : Option (BitVec 32) :=
  let s := s.dropWhile isspace
  let negative := s.head? = some 45
  let s := if s.head? = some 45 ∨ s.head? = some 43 then s.tail else s
  let (base,zero,s) := match s with
    | 48 :: s => match s.head?.bind (basePrefix binary) with
      | some base => (base,true,s.tail)
      | none => (8,true,s)
    | s => (10,false,s)
  let digits := s.takeWhile (isDigit base)
  if !zero && digits = [] then none
  else
    let n := digits.foldl (fun n b => n * base + digitValue b) 0
    some (if negative then -BitVec.ofNat 32 (min n (2 ^ 63)) else BitVec.ofNat 32 (min n (2 ^ 63 - 1)))

/- sscanf(line, "mount_max = %i", &tmp): a blank of the format stands for any number of them. -/
def scanMax (binary : Bool) (line : Bytes) : Option (BitVec 32) :=
  if (ascii "mount_max").isPrefixOf line then
    match (line.drop (ascii "mount_max").length).dropWhile isspace with
    | 61 :: s => scanInt binary s
    | _ => none
  else none

/- The name the program was called by, the path of the file, and of the C library the texts of errors and
whether numbers may be binary, which they may since glibc 2.38. -/
structure Env where
  progname : Bytes
  fuseConf : Bytes
  strerror : Nat → Bytes
  binary : Bool

variable (env : Env)

def unknownParameter (linenum : Nat) (line : Bytes) : Bytes :=
  env.progname ++ ascii ": unknown parameter in " ++ env.fuseConf ++ ascii " at line " ++ digits 10 linenum ++
    ascii ": '" ++ line ++ ascii "'\n"

def tooLong (linenum : Nat) : Bytes :=
  env.progname ++ ascii ": reading " ++ env.fuseConf ++ ascii ": line " ++ digits 10 linenum ++ ascii " too long\n"

def missingNewline : Bytes :=
  env.progname ++ ascii ": reading " ++ env.fuseConf ++ ascii ": missing newline at end of file\n"

def readFailed : Bytes := env.progname ++ ascii ": reading " ++ env.fuseConf ++ ascii ": read failed\n"

def failedToOpen (errno : Nat) : Bytes :=
  env.progname ++ ascii ": failed to open " ++ env.fuseConf ++ ascii ": " ++ env.strerror errno ++ ascii "\n"

structure State where
  conf : Conf
  said : List Bytes
  deriving DecidableEq

def parseLine (linenum : Nat) (line : Bytes) (s : State) : State :=
  if line = ascii "user_allow_other" then {s with conf := {s.conf with userAllowOther := true}}
  else match scanMax env.binary line with
    | some tmp => {s with conf := {s.conf with mountMax := tmp}}
    | none => if line ≠ [] then {s with said := s.said ++ [unknownParameter env linenum line]} else s

structure Reading extends State where
  linenum : Nat
  isnewline : Bool

/- The body of the loop. The line ends at its first NUL; where it starts with one, line[-1] is read. -/
def turn (line : Bytes) (r : Reading) : Option Reading :=
  let line := line.takeWhile (· ≠ 0)
  match line.getLast? with
  | none => none
  | some last =>
    let r :=
      if r.isnewline then
        if last = newline then {r with toState := parseLine env r.linenum (stripLine line) r.toState}
        else {r with isnewline := false}
      else if last = newline then {r with said := r.said ++ [tooLong env r.linenum], isnewline := true}
      else r
    some (if r.isnewline then {r with linenum := r.linenum + 1} else r)

theorem pieceShorter {n : Nat} {s line rest : Bytes} (read : piece n s = (line,rest)) :
    s = line ++ rest ∧ line.length ≤ n := by
  induction n generalizing s line with
  | zero =>
    cases read
    exact ⟨rfl,Nat.le_refl _⟩
  | succ n ih =>
    cases s with
    | nil =>
      cases read
      exact ⟨rfl,Nat.zero_le _⟩
    | cons b s =>
      rw [piece] at read
      split at read
      · cases read
        exact ⟨rfl,by simp⟩
      · cases later : piece n s with
        | mk front back =>
          rw [later] at read
          cases read
          obtain ⟨whole,short⟩ := ih later
          exact ⟨congrArg (b :: ·) whole,Nat.succ_le_succ short⟩

theorem fgetsShorter {size : Nat} {file next : File} {line : Bytes} (read : fgets size file = some (line,next)) :
    next.content.length < file.content.length := by
  unfold fgets at read
  cases taken : piece (size - 1) file.content with
  | mk front back =>
    rw [taken] at read
    have whole := (pieceShorter taken).1
    simp only at read
    split at read
    · cases read
    · next some =>
      split at read
      · cases read
      · cases read
        rw [whole,List.length_append]
        exact Nat.lt_add_of_pos_left (List.length_pos_iff.mpr some)

def readLoop (file : File) (r : Reading) : Option Reading :=
  match _read : fgets 256 file with
  | none => some r
  | some (line,next) =>
    match turn env line r with
    | none => none
    | some r => readLoop next r
termination_by file.content.length
decreasing_by exact fgetsShorter _read

inductive Ended where
  | outside
  | exit (said : List Bytes)
  | read (s : State)
  deriving DecidableEq

def enoent : Nat := 2
def eacces : Nat := 13
def enotdir : Nat := 20
def enametoolong : Nat := 36
def eloop : Nat := 40
def eoverflow : Nat := 75

def readConf (opened : Except Nat File) (conf : Conf) : Ended :=
  match opened with
  | .ok file =>
    match readLoop env file ⟨⟨conf,[]⟩,1,true⟩ with
    | none => .outside
    | some r =>
      let said := if !r.isnewline then r.said ++ [missingNewline env] else r.said
      if file.error then .exit (said ++ [readFailed env]) else .read ⟨r.conf,said⟩
  | .error errno =>
    if errno ≠ enoent then
      let fatal := errno ≠ eacces ∧ errno ≠ eloop ∧ errno ≠ enametoolong ∧ errno ≠ enotdir ∧ errno ≠ eoverflow
      if fatal then .exit [failedToOpen env errno] else .read ⟨conf,[failedToOpen env errno]⟩
    else .read ⟨conf,[]⟩

/-! The file line by line. -/

def lines (content : Bytes) : List Bytes := (split newline content).dropLast

def unended (content : Bytes) : Bytes := (split newline content).getLastD []

def short (line : Bytes) : Bool := line.length < 255

def readLine (s : State × Nat) (line : Bytes) : State × Nat :=
  (if short line then parseLine env s.2 (stripLine line) s.1
    else {s.1 with said := s.1.said ++ [tooLong env s.2]},s.2 + 1)

def readLines (content : Bytes) (conf : Conf) : State :=
  let s := ((lines content).foldl (readLine env) (⟨conf,[]⟩,1)).1
  if unended content = [] then s else {s with said := s.said ++ [missingNewline env]}

variable {env} {line rest s : Bytes} {r : Reading}

theorem pieceLine {n : Nat} (plain : newline ∉ line) (fits : line.length < n) :
    piece n (line ++ newline :: rest) = (line ++ [newline],rest) := by
  induction line generalizing n with
  | nil =>
    obtain ⟨n,rfl⟩ := Nat.exists_eq_succ_of_ne_zero (Nat.ne_of_gt fits)
    rfl
  | cons b line ih =>
    obtain ⟨n,rfl⟩ := Nat.exists_eq_succ_of_ne_zero (Nat.ne_of_gt (Nat.lt_of_le_of_lt (Nat.zero_le _) fits))
    obtain ⟨first,later⟩ := not_or.mp (mt List.mem_cons.mpr plain)
    rw [List.cons_append,piece,if_neg (Ne.symm first),ih later (Nat.lt_of_succ_lt_succ fits)]
    rfl

theorem pieceInside {n : Nat} (plain : newline ∉ line) (long : n ≤ line.length) :
    piece n (line ++ rest) = (line.take n,line.drop n ++ rest) := by
  induction n generalizing line with
  | zero => rw [piece,List.take_zero,List.drop_zero]
  | succ n ih =>
    cases line with
    | nil => cases long
    | cons b line =>
      obtain ⟨first,later⟩ := not_or.mp (mt List.mem_cons.mpr plain)
      rw [List.cons_append,piece,if_neg (Ne.symm first),ih later (Nat.le_of_succ_le_succ long)]
      rfl

theorem pieceRest (n : Nat) (plain : newline ∉ s) : piece n s = (s.take n,s.drop n) := by
  induction n generalizing s with
  | zero => rfl
  | succ n ih =>
    cases s with
    | nil => rfl
    | cons b s =>
      obtain ⟨first,later⟩ := not_or.mp (mt List.mem_cons.mpr plain)
      rw [piece,if_neg (Ne.symm first),ih later]
      rfl

theorem fgetsSome (read : piece 255 s = (line,rest)) (some' : line ≠ []) :
    fgets 256 ⟨s,false⟩ = some (line,⟨rest,false⟩) := by
  unfold fgets
  rw [read]
  simp only [if_neg some']
  rw [if_neg]
  rintro ⟨no,-⟩
  cases no

theorem readLoopNone {file : File} (read : fgets 256 file = none) : readLoop env file r = some r := by
  rw [readLoop]
  split
  · rfl
  · next again =>
    rw [read] at again
    cases again

theorem readLoopSome {file next : File} {r' : Reading} (read : fgets 256 file = some (line,next))
    (turned : turn env line r = some r') :
    readLoop env file r = readLoop env next r' := by
  rw [readLoop]
  split
  · next again =>
    rw [read] at again
    cases again
  · next again =>
    rw [read] at again
    cases again
    rw [turned]

theorem withoutNul (text : 0 ∉ line) : line.takeWhile (· ≠ 0) = line := by
  refine List.takeWhile_eq_self_iff.mpr fun b mem => decide_eq_true fun zero => ?_
  exact text (zero ▸ mem)

theorem lastIn (plain : newline ∉ line) (some' : line ≠ []) : ∃ last, line.getLast? = some last ∧ last ≠ newline := by
  refine ⟨line.getLast some',List.getLast?_eq_getLast_of_ne_nil some',fun same => plain ?_⟩
  exact same ▸ List.getLast_mem some'

theorem turnInside (text : 0 ∉ line) (plain : newline ∉ line) (some' : line ≠ []) :
    turn env line r = some {r with isnewline := false} := by
  obtain ⟨last,is,other⟩ := lastIn plain some'
  unfold turn
  simp only [withoutNul text,is,if_neg other]
  cases r with
  | mk s linenum isnewline => cases isnewline <;> rfl

theorem turnEnd (text : 0 ∉ line) (inside : r.isnewline = false) : turn env (line ++ [newline]) r =
    some {r with said := r.said ++ [tooLong env r.linenum], isnewline := true, linenum := r.linenum + 1} := by
  have whole : 0 ∉ line ++ [newline] := List.not_mem_append text (by decide)
  unfold turn
  simp only [withoutNul whole,List.getLast?_concat,inside]
  rfl

theorem stripNewline : stripLine (line ++ [newline]) = stripLine line := by
  unfold stripLine
  congr 1
  by_cases hash : ∃ b ∈ line, b = 35
  · have stop : ∃ b ∈ line, ¬decide (b ≠ 35) = true := by simpa using hash
    obtain ⟨b,mem,is⟩ := stop
    rw [List.takeWhile_append,if_neg]
    intro all
    have every := List.takeWhile_eq_self_iff.mp ((List.takeWhile_prefix _).eq_of_length all)
    exact is (every b mem)
  · have every : ∀ b ∈ line, decide (b ≠ 35) = true := fun b mem => decide_eq_true fun is => hash ⟨b,mem,is⟩
    rw [List.takeWhile_append_of_pos every,List.takeWhile_eq_self_iff.mpr every]
    exact List.rdropWhile_concat_pos _ _ _ (by decide)

theorem turnLine (text : 0 ∉ line) (start : r.isnewline = true) : turn env (line ++ [newline]) r =
    some {r with toState := parseLine env r.linenum (stripLine line) r.toState, linenum := r.linenum + 1} := by
  have whole : 0 ∉ line ++ [newline] := List.not_mem_append text (by decide)
  unfold turn
  simp only [withoutNul whole,List.getLast?_concat,start,stripNewline]
  rfl

theorem outsidePart {b : UInt8} (n : Nat) (out : b ∉ line) : b ∉ line.take n ∧ b ∉ line.drop n :=
  ⟨fun mem => out (List.mem_of_mem_take mem),fun mem => out (List.mem_of_mem_drop mem)⟩

theorem stillInside (inside : r.isnewline = false) : {r with isnewline := false} = r := by rw [← inside]

theorem insideRead (text : 0 ∉ line) (plain : newline ∉ line) (long : 255 ≤ line.length) :
    readLoop env ⟨line ++ rest,false⟩ r = readLoop env ⟨line.drop 255 ++ rest,false⟩ {r with isnewline := false} := by
  have some' : line.take 255 ≠ [] := fun none => by
    have lengths := congrArg List.length none
    rw [List.length_take,Nat.min_eq_left long] at lengths
    cases lengths
  exact readLoopSome (fgetsSome (pieceInside plain long) some')
    (turnInside (outsidePart 255 text).1 (outsidePart 255 plain).1 some')

theorem restRead (text : 0 ∉ s) (plain : newline ∉ s) (some' : s ≠ []) :
    readLoop env ⟨s,false⟩ r = readLoop env ⟨s.drop 255,false⟩ {r with isnewline := false} := by
  obtain ⟨b,s,rfl⟩ := List.exists_cons_of_ne_nil some'
  exact readLoopSome (fgetsSome (pieceRest 255 plain) (List.cons_ne_nil b (s.take 254)))
    (turnInside (outsidePart 255 text).1 (outsidePart 255 plain).1 (List.cons_ne_nil b (s.take 254)))

/- The rest of a line that is too long. The pieces get it shorter by 255 bytes each. -/
theorem swallowed (text : 0 ∉ line) (plain : newline ∉ line) (inside : r.isnewline = false) :
    readLoop env ⟨line ++ newline :: rest,false⟩ r =
      readLoop env ⟨rest,false⟩
        {r with said := r.said ++ [tooLong env r.linenum], isnewline := true, linenum := r.linenum + 1} := by
  induction h : line.length using Nat.strong_induction_on generalizing line with
  | _ length ih =>
    subst h
    by_cases fits : line.length < 255
    · exact readLoopSome (fgetsSome (pieceLine plain fits) (by simp)) (turnEnd text inside)
    · have long : 255 ≤ line.length := Nat.le_of_not_lt fits
      rw [insideRead text plain long,stillInside inside]
      refine ih _ ?_ (outsidePart 255 text).2 (outsidePart 255 plain).2 rfl
      rw [List.length_drop]
      omega

theorem swallowedEnd (text : 0 ∉ s) (plain : newline ∉ s) (inside : r.isnewline = false) :
    readLoop env ⟨s,false⟩ r = some r := by
  induction h : s.length using Nat.strong_induction_on generalizing s with
  | _ length ih =>
    subst h
    cases s with
    | nil => exact readLoopNone rfl
    | cons b s =>
      rw [restRead text plain (List.cons_ne_nil b s),stillInside inside]
      refine ih _ ?_ (outsidePart 255 text).2 (outsidePart 255 plain).2 rfl
      rw [List.length_drop,List.length_cons]
      omega

theorem readLoopLine (text : 0 ∉ line) (plain : newline ∉ line) (start : r.isnewline = true) :
    readLoop env ⟨line ++ newline :: rest,false⟩ r =
      readLoop env ⟨rest,false⟩ ⟨(readLine env (r.toState,r.linenum) line).1,r.linenum + 1,true⟩ := by
  obtain ⟨state,linenum,isnewline⟩ := r
  cases start
  by_cases fits : line.length < 255
  · rw [readLoopSome (fgetsSome (pieceLine plain fits) (by simp)) (turnLine text rfl)]
    simp only [readLine,short,fits,decide_true,if_true]
  · rw [insideRead text plain (Nat.le_of_not_lt fits),swallowed (outsidePart 255 text).2 (outsidePart 255 plain).2 rfl]
    simp only [readLine,short,fits,decide_false,Bool.false_eq_true,if_false]

theorem readLoopEnd (text : 0 ∉ s) (plain : newline ∉ s) (start : r.isnewline = true) :
    readLoop env ⟨s,false⟩ r = some {r with isnewline := decide (s = [])} := by
  cases s with
  | nil =>
    have same : {r with isnewline := true} = r := by rw [← start]
    rw [decide_eq_true rfl,same]
    exact readLoopNone rfl
  | cons b s =>
    rw [restRead text plain (List.cons_ne_nil b s)]
    exact swallowedEnd (outsidePart 255 text).2 (outsidePart 255 plain).2 rfl

theorem readLoopFields (fields : List Bytes) (last : Bytes) (text : ∀ field ∈ fields ++ [last], 0 ∉ field)
    (plain : ∀ field ∈ fields ++ [last], newline ∉ field) (start : r.isnewline = true) :
    readLoop env ⟨joined newline (fields ++ [last]),false⟩ r =
      some ⟨(fields.foldl (readLine env) (r.toState,r.linenum)).1,(fields.foldl (readLine env) (r.toState,r.linenum)).2,
        decide (last = [])⟩ := by
  induction fields generalizing r with
  | nil =>
    have one : last ∈ ([] : List Bytes) ++ [last] := List.mem_singleton_self last
    exact readLoopEnd (text last one) (plain last one) start
  | cons line fields ih =>
    rw [List.cons_append,joinedCons newline line (by simp),
      readLoopLine (text line List.mem_cons_self) (plain line List.mem_cons_self) start]
    exact ih (fun field mem => text field (List.mem_cons_of_mem line mem))
      (fun field mem => plain field (List.mem_cons_of_mem line mem)) rfl

theorem fieldsOf (content : Bytes) : split newline content = lines content ++ [unended content] := by
  have some' := splitNe newline content
  rw [lines,unended,List.getLastD_eq_getLast?,List.getLast?_eq_getLast_of_ne_nil some']
  exact (List.dropLast_concat_getLast some').symm

theorem fieldsText (text : 0 ∉ s) : ∀ field ∈ split newline s, 0 ∉ field := by
  intro field mem zero
  refine text ?_
  rw [← joinedSplit newline s]
  exact joinedMem newline mem zero

/- However the file is cut into pieces, read_conf gives what its lines give one after the other. -/
theorem confReadByLines (text : 0 ∉ s) (conf : Conf) :
    readConf env (.ok ⟨s,false⟩) conf = .read (readLines env s conf) := by
  have read : readLoop env ⟨joined newline (lines s ++ [unended s]),false⟩ ⟨⟨conf,[]⟩,1,true⟩ = some _ :=
    readLoopFields (lines s) (unended s) (fieldsOf s ▸ fieldsText text) (fieldsOf s ▸ splitPlain newline s) rfl
  rw [← fieldsOf,joinedSplit] at read
  unfold readConf readLines
  simp only [read]
  by_cases done : unended s = [] <;> simp [done]

/-! What the lines set. -/

theorem parsed (linenum : Nat) (s : State) : (parseLine env linenum line s).conf =
    ⟨s.conf.userAllowOther || decide (line = ascii "user_allow_other"),
      (scanMax env.binary line).getD s.conf.mountMax⟩ := by
  unfold parseLine
  by_cases allow : line = ascii "user_allow_other"
  · have no : scanMax env.binary (ascii "user_allow_other") = none := by cases env.binary <;> decide
    rw [if_pos allow,allow,no]
    simp
  · rw [if_neg allow]
    cases scanMax env.binary line with
    | some tmp => simp [allow]
    | none =>
      have same : (s.conf.userAllowOther || decide (line = ascii "user_allow_other")) = s.conf.userAllowOther := by
        rw [decide_eq_false allow,Bool.or_false]
      rw [same]
      by_cases empty : line = [] <;> simp [empty]

theorem linesAllow (ls : List Bytes) (s : State × Nat) : (ls.foldl (readLine env) s).1.conf.userAllowOther = true ↔
    s.1.conf.userAllowOther = true ∨ ∃ line ∈ ls, short line = true ∧ stripLine line = ascii "user_allow_other" := by
  induction ls generalizing s with
  | nil => simp
  | cons line ls ih =>
    rw [List.foldl_cons,ih,readLine]
    by_cases fits : short line = true
    · simp only [if_pos fits,parsed,Bool.or_eq_true,decide_eq_true_eq]
      simp [fits,or_assoc]
    · simp [fits]

theorem linesMax (ls : List Bytes) (s : State × Nat) : (ls.foldl (readLine env) s).1.conf.mountMax =
    ((ls.filter short).filterMap fun line => scanMax env.binary (stripLine line)).getLastD s.1.conf.mountMax := by
  induction ls generalizing s with
  | nil => rfl
  | cons line ls ih =>
    rw [List.foldl_cons,ih,readLine]
    by_cases fits : short line = true
    · simp only [if_pos fits,parsed,List.filter_cons_of_pos fits]
      rw [List.filterMap_cons]
      cases scanMax env.binary (stripLine line) with
      | none => rfl
      | some tmp => exact List.getLastD_cons.symm
    · rw [if_neg fits,List.filter_cons_of_neg fits]

example : scanMax true (ascii "mount_max = 0b11") = some 3 ∧ scanMax false (ascii "mount_max = 0b11") = some 0 := by
  decide

/- However the file is cut into pieces, read_conf gives what its lines give one after the other. Other users
are allowed in when a line says so that is short enough, and the last one with a number sets the limit. -/
theorem confRead (text : 0 ∉ s) (conf : Conf) : readConf env (.ok ⟨s,false⟩) conf = .read (readLines env s conf) ∧
    ((readLines env s conf).conf.userAllowOther = true ↔ conf.userAllowOther = true ∨
      ∃ line ∈ lines s, short line = true ∧ stripLine line = ascii "user_allow_other") ∧
    (readLines env s conf).conf.mountMax =
      (((lines s).filter short).filterMap fun line => scanMax env.binary (stripLine line)).getLastD conf.mountMax := by
  have settings : (readLines env s conf).conf = ((lines s).foldl (readLine env) (⟨conf,[]⟩,1)).1.conf := by
    unfold readLines
    by_cases done : unended s = [] <;> simp [done]
  refine ⟨confReadByLines text conf,?_,?_⟩
  · rw [settings]
    exact linesAllow _ _
  · rw [settings]
    exact linesMax _ _

/- A comment, a setting, and one that lacks its newline. -/
def someConf : Bytes := ascii "# limits\n mount_max = 0x10 # few\nuser_allow_other"

theorem limitRead :
    readConf ⟨ascii "fusermount3",ascii "/etc/fuse.conf",fun _ => [],true⟩ (.ok ⟨someConf,false⟩) defaults =
    .read ⟨⟨false,16⟩,[missingNewline ⟨ascii "fusermount3",ascii "/etc/fuse.conf",fun _ => [],true⟩]⟩ := by
  rw [(confRead (by decide) defaults).1]
  decide +kernel

end FuseStudy.ConfFile
