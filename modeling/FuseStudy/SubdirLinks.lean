import FuseStudy.CString

/-! The subdir module with rellinks: absolute link targets made relative to the directory of the link. -/
namespace FuseStudy.SubdirLinks
open CString

def slash : UInt8 := 47

def dropSlashes (p : Bytes) : Bytes := p.dropWhile (fun b => b == slash)
def dropName (p : Bytes) : Bytes := p.dropWhile (fun b => b != slash)

/- subdir_addpath where there is a path and memory for the new one. -/
def subdirAddpath (base path : Bytes) : Bytes :=
  let newpath := base ++ if path.head? = some slash then path.tail else path
  if newpath = [] then ascii "." else newpath

theorem dropSlashesLess (p : Bytes) : (dropSlashes p).length ≤ p.length := (List.dropWhile_sublist _).length_le
theorem dropNameLess (p : Bytes) : (dropName p).length ≤ p.length := (List.dropWhile_sublist _).length_le

theorem nameShorter {b : UInt8} {p : Bytes} : (dropSlashes (dropName (b :: p))).length < (b :: p).length := by
  by_cases same : b = slash
  · subst same
    exact Nat.lt_succ_of_le (dropSlashesLess p)
  · have gone : dropName (b :: p) = dropName p := by simp [dropName,same]
    rw [gone]
    exact Nat.lt_succ_of_le (Nat.le_trans (dropSlashesLess _) (dropNameLess p))

def countLoop : Bytes → Nat
  | [] => 0
  | b :: p => countLoop (dropSlashes (dropName (b :: p))) + 1
termination_by p => p.length
decreasing_by exact nameShorter

def countComponents (p : Bytes) : Nat := countLoop (dropSlashes p)

def skipEqual : Bytes → Bytes → Bytes × Bytes
  | a :: s,b :: t => if a = b ∧ a ≠ slash then skipEqual s t else (a :: s,b :: t)
  | s,t => (s,t)

def goesOn : Bytes → Bytes → Bool
  | a :: _,b :: _ => a = b
  | [],b :: _ => b = slash
  | a :: _,[] => a = slash
  | [],[] => false

theorem skipEqualSplit (s t : Bytes) :
    ∃ c, slash ∉ c ∧ s = c ++ (skipEqual s t).1 ∧ t = c ++ (skipEqual s t).2 ∧
      ∀ a u v, (skipEqual s t).1 = a :: u → (skipEqual s t).2 = a :: v → a = slash := by
  induction s generalizing t with
  | nil => exact ⟨[],nofun,rfl,rfl,nofun⟩
  | cons a s ih =>
    cases t with
    | nil => exact ⟨[],nofun,rfl,rfl,nofun⟩
    | cons b t =>
      by_cases same : a = b ∧ a ≠ slash
      · obtain ⟨c,plain,left,right,last⟩ := ih t
        have next : skipEqual (a :: s) (b :: t) = skipEqual s t := if_pos same
        rw [next]
        refine ⟨a :: c,fun inside => ?_,congrArg (a :: ·) left,?_,last⟩
        · obtain here | later := List.mem_cons.mp inside
          · exact same.2 here.symm
          · exact plain later
        · rw [← same.1]
          exact congrArg (a :: ·) right
      · have stop : skipEqual (a :: s) (b :: t) = (a :: s,b :: t) := if_neg same
        rw [stop]
        refine ⟨[],nofun,rfl,rfl,fun d u v first second => ?_⟩
        obtain ⟨rfl,-⟩ := List.cons.inj first
        obtain ⟨rfl,-⟩ := List.cons.inj second
        exact Decidable.of_not_not fun other => same ⟨rfl,other⟩

theorem dropSlashesHead (p : Bytes) : (dropSlashes p).head? ≠ some slash := by
  induction p with
  | nil => nofun
  | cons b p ih =>
    by_cases same : b = slash
    · subst same
      exact ih
    · have still : dropSlashes (b :: p) = b :: p := by simp [dropSlashes,same]
      rw [still]
      exact fun head => same (Option.some.inj head)

theorem goesOnCases {s t : Bytes} (headS : s.head? ≠ some slash) (headT : t.head? ≠ some slash)
    (on : goesOn (skipEqual s t).1 (skipEqual s t).2 = true) :
    ∃ c, c ≠ [] ∧ slash ∉ c ∧ s = c ++ (skipEqual s t).1 ∧ t = c ++ (skipEqual s t).2 ∧
      ((skipEqual s t).1 = [] ∨ (skipEqual s t).1.head? = some slash) ∧
      ((skipEqual s t).2 = [] ∨ (skipEqual s t).2.head? = some slash) := by
  obtain ⟨c,plain,left,right,last⟩ := skipEqualSplit s t
  generalize (skipEqual s t).1 = u,(skipEqual s t).2 = v at *
  cases u with
  | nil =>
    cases v with
    | nil => cases on
    | cons b v =>
      have here : b = slash := of_decide_eq_true on
      subst here
      refine ⟨c,?_,plain,left,right,.inl rfl,.inr rfl⟩
      rintro rfl
      exact headT (congrArg List.head? right)
  | cons a u =>
    have here : a = slash := by
      cases v with
      | nil => exact of_decide_eq_true on
      | cons b v =>
        have same : a = b := of_decide_eq_true on
        exact last a u v rfl (by rw [same])
    subst here
    refine ⟨c,?_,plain,left,right,.inr rfl,?_⟩
    · rintro rfl
      exact headS (congrArg List.head? left)
    · cases v with
      | nil => exact .inl rfl
      | cons b v =>
        have same : slash = b := of_decide_eq_true on
        exact .inr (congrArg some same.symm)

/- strip_common: the two pointers that it leaves. -/
def stripCommon (s t : Bytes) : Bytes × Bytes :=
  let s1 := dropSlashes s
  let t1 := dropSlashes t
  if goesOn (skipEqual s1 t1).1 (skipEqual s1 t1).2 = true then
    stripCommon (skipEqual s1 t1).1 (skipEqual s1 t1).2
  else (s1,t1)
termination_by s.length
decreasing_by
  rename_i on
  obtain ⟨c,some,-,left,-⟩ := goesOnCases (dropSlashesHead s) (dropSlashesHead t) on
  have length := congrArg List.length left
  have least := List.length_pos_of_ne_nil some
  have less := dropSlashesLess s
  rw [List.length_append] at length
  omega

/- A store of some bytes at an offset of a buffer; outside of it there is none. -/
def store (buf : Bytes) (off : Nat) (data : Bytes) : Option Bytes :=
  if off + data.length ≤ buf.length then some (buf.take off ++ data ++ buf.drop (off + data.length)) else none

def cstr (buf : Bytes) : Bytes := buf.takeWhile (fun b => b != 0)

/- The last loop of transform_symlink: "../" at `s` and then on, `n` times. -/
def fillDots : Nat → Nat → Bytes → Option Bytes
  | 0,_,buf => some buf
  | n + 1,s,buf => (store buf s (ascii "../")).bind (fillDots n (s + 3))

/- transform_symlink, with a buffer of `size` bytes; the directory's base and the link's path are strings. -/
def transformSymlink (base path buf : Bytes) : Option Bytes :=
  if (cstr buf).head? ≠ some slash ∨ base.head? ≠ some slash then some buf
  else
    let (l,path) := stripCommon (cstr buf) path
    if (cstr buf).length - l.length < base.length then some buf
    else if countComponents path = 0 then some buf
    else
      let dotdots := countComponents path - 1
      let llen := l.length
      if buf.length < dotdots * 3 + llen + 2 then some buf
      else
        let s := dotdots * 3
        (if llen ≠ 0 then store buf s (l ++ [0])
          else if dotdots = 0 then store buf s (ascii "." ++ [0])
          else store buf s [0]).bind (fillDots dotdots 0)

def names (p : Bytes) : List Bytes := (split slash p).filter (fun name => !name.isEmpty)

theorem namesSlash (p : Bytes) : names (slash :: p) = names p := by
  simp [names,split]

theorem namesDrop (p : Bytes) : names (dropSlashes p) = names p := by
  induction p with
  | nil => rfl
  | cons b p ih =>
    by_cases same : b = slash
    · subst same
      exact ih.trans (namesSlash p).symm
    · have still : dropSlashes (b :: p) = b :: p := by simp [dropSlashes,same]
      rw [still]

theorem namesBehind (p q : Bytes) : names (p ++ slash :: q) = names p ++ names q := by
  rw [names,splitSeparated,List.filter_append]
  rfl

theorem namesOne {c : Bytes} (some : c ≠ []) (plain : slash ∉ c) : names c = [c] := by
  rw [names,splitField plain]
  cases c with
  | nil => exact absurd rfl some
  | cons b c => rfl

theorem namesCons {c rest : Bytes} (filled : c ≠ []) (plain : slash ∉ c) (ends : rest = [] ∨ rest.head? = some slash) :
    names (c ++ rest) = c :: names rest := by
  cases rest with
  | nil => rw [List.append_nil,namesOne filled plain]; rfl
  | cons b rest =>
    obtain none | here := ends
    · cases none
    · obtain rfl := Option.some.inj here
      rw [namesBehind,namesOne filled plain,namesSlash]
      rfl

theorem takeName (p : Bytes) : slash ∉ p.takeWhile (fun b => b != slash) := by
  intro inside
  have every := List.all_takeWhile (l := p) (p := fun b => b != slash)
  exact absurd (List.all_eq_true.mp every slash inside) (by decide)

theorem dropNameHead (p : Bytes) : dropName p = [] ∨ (dropName p).head? = some slash := by
  induction p with
  | nil => exact .inl rfl
  | cons b p ih =>
    by_cases same : b = slash
    · subst same
      exact .inr rfl
    · have gone : dropName (b :: p) = dropName p := by simp [dropName,same]
      rw [gone]
      exact ih

theorem namesFirst {b : UInt8} {p : Bytes} (head : b ≠ slash) :
    names (b :: p) = (b :: p).takeWhile (fun x => x != slash) :: names (dropName (b :: p)) := by
  have filled : (b :: p).takeWhile (fun x => x != slash) ≠ [] := by simp [head]
  have all : (b :: p).takeWhile (fun x => x != slash) ++ dropName (b :: p) = b :: p := List.takeWhile_append_dropWhile
  rw [← namesCons filled (takeName _) (dropNameHead _),all]

theorem countLoopNames {p : Bytes} (head : p.head? ≠ some slash) : countLoop p = (names p).length := by
  induction p using countLoop.induct with
  | case1 =>
    rw [countLoop]
    rfl
  | case2 b p ih =>
    have first : b ≠ slash := fun same => head (congrArg some same)
    rw [countLoop,ih (dropSlashesHead _),namesDrop,namesFirst first,List.length_cons]

theorem countComponentsNames (p : Bytes) : countComponents p = (names p).length := by
  rw [countComponents,countLoopNames (dropSlashesHead p),namesDrop]

/- What is left of a path behind its first `k` names and the slashes after them. -/
def beyond : Nat → Bytes → Bytes
  | 0,p => dropSlashes p
  | k + 1,p => beyond k (dropName (dropSlashes p))

theorem dropNameCons {c rest : Bytes} (plain : slash ∉ c) (ends : rest = [] ∨ rest.head? = some slash) :
    dropName (c ++ rest) = rest := by
  induction c with
  | nil =>
    obtain rfl | here := ends
    · rfl
    · cases rest with
      | nil => rfl
      | cons b rest =>
        obtain rfl := Option.some.inj here
        rfl
  | cons b c ih =>
    obtain ⟨first,later⟩ := not_or.mp (mt List.mem_cons.mpr plain)
    have gone : dropName (b :: (c ++ rest)) = dropName (c ++ rest) := by simp [dropName,Ne.symm first]
    exact gone.trans (ih later)

def Diverge (xs ys : List Bytes) : Prop :=
  ∀ name us vs, xs = name :: us → ys ≠ name :: vs

theorem stopDiverges {s t : Bytes} (headS : s.head? ≠ some slash) (headT : t.head? ≠ some slash)
    (off : goesOn (skipEqual s t).1 (skipEqual s t).2 ≠ true) (other : s ≠ t) : Diverge (names s) (names t) := by
  have firstName {p : Bytes} {name : Bytes} {us : List Bytes} (head : p.head? ≠ some slash)
    (found : names p = name :: us) :
      name = p.takeWhile (fun b => b != slash) := by
    cases p with
    | nil => cases found
    | cons b p =>
      have first : b ≠ slash := fun same => head (congrArg some same)
      rw [namesFirst first] at found
      exact (List.cons.inj found).1.symm
  intro name us vs left right
  have same := (firstName headS left).symm.trans (firstName headT right)
  obtain ⟨c,plain,whole,whole',last⟩ := skipEqualSplit s t
  generalize (skipEqual s t).1 = u,(skipEqual s t).2 = v at *
  subst whole whole'
  have every : ∀ b ∈ c, (b != slash) = true := fun b inside => bne_iff_ne.mpr fun here => plain (here ▸ inside)
  rw [List.takeWhile_append_of_pos every,List.takeWhile_append_of_pos every] at same
  have rest := List.append_cancel_left same
  cases u with
  | nil =>
    cases v with
    | nil => exact other rfl
    | cons b v =>
      have plainB : b ≠ slash := fun here => off (decide_eq_true here)
      simp [plainB] at rest
  | cons a u =>
    cases v with
    | nil =>
      have plainA : a ≠ slash := fun here => off (decide_eq_true here)
      simp [plainA] at rest
    | cons b v =>
      have differ : a ≠ b := fun here => off (decide_eq_true here)
      by_cases plainA : a = slash
      · subst plainA
        simp [Ne.symm differ] at rest
      · by_cases plainB : b = slash
        · subst plainB
          simp [plainA] at rest
        · simp [plainA,plainB,differ] at rest

structure Stripped (s t s' t' : Bytes) (common : List Bytes) : Prop where
  source : names s = common ++ names s'
  target : names t = common ++ names t'
  left : s' = beyond common.length s
  ends : s' = t' ∨ Diverge (names s') (names t')

theorem stripCommonNames (s t : Bytes) : ∃ common, Stripped s t (stripCommon s t).1 (stripCommon s t).2 common := by
  induction s,t using stripCommon.induct with
  | case1 s t s1 t1 on ih =>
    obtain ⟨c,some,plain,left,right,ends,ends'⟩ := goesOnCases (dropSlashesHead s) (dropSlashesHead t) on
    obtain ⟨common,stripped⟩ := ih
    have next : stripCommon s t = stripCommon (skipEqual s1 t1).1 (skipEqual s1 t1).2 := by
      rw [stripCommon]
      exact if_pos on
    rw [next]
    refine ⟨c :: common,?_,?_,?_,stripped.ends⟩
    · rw [← namesDrop s,left,namesCons some plain ends,stripped.source]
      rfl
    · rw [← namesDrop t,right,namesCons some plain ends',stripped.target]
      rfl
    · have gone : dropName (dropSlashes s) = (skipEqual s1 t1).1 := by
        rw [left]
        exact dropNameCons plain ends
      rw [List.length_cons,beyond,gone]
      exact stripped.left
  | case2 s t s1 t1 off =>
    have stop : stripCommon s t = (s1,t1) := by
      rw [stripCommon]
      exact if_neg off
    rw [stop]
    refine ⟨[],(namesDrop s).symm,(namesDrop t).symm,rfl,?_⟩
    by_cases same : s1 = t1
    · exact .inl same
    · exact .inr (stopDiverges (dropSlashesHead s) (dropSlashesHead t) off same)

def step (dir : List Bytes) (name : Bytes) : List Bytes :=
  if name = ascii ".." then dir.dropLast else if name = ascii "." then dir else dir ++ [name]

def resolve (dir path : List Bytes) : List Bytes := path.foldl step dir

theorem resolveAppend (dir first later : List Bytes) :
    resolve dir (first ++ later) = resolve (resolve dir first) later := List.foldl_append

def Plain (path : List Bytes) : Prop := ∀ name ∈ path, name ≠ ascii "." ∧ name ≠ ascii ".."

instance (path : List Bytes) : Decidable (Plain path) :=
  inferInstanceAs (Decidable (∀ name ∈ path, name ≠ ascii "." ∧ name ≠ ascii ".."))

theorem resolvePlain {path : List Bytes} (plain : Plain path) (dir : List Bytes) : resolve dir path = dir ++ path := by
  induction path generalizing dir with
  | nil => exact (List.append_nil dir).symm
  | cons name path ih =>
    obtain ⟨dot,dots⟩ := plain name List.mem_cons_self
    have rest := ih (fun later inside => plain later (List.mem_cons_of_mem _ inside)) (dir ++ [name])
    have one : step dir name = dir ++ [name] := by rw [step,if_neg dots,if_neg dot]
    rw [resolve,List.foldl_cons,one]
    exact rest.trans (by rw [List.append_assoc]; rfl)

theorem resolveUp (dir path : List Bytes) : resolve (dir ++ path) (List.replicate path.length (ascii "..")) = dir := by
  induction length : path.length generalizing path with
  | zero =>
    rw [List.eq_nil_of_length_eq_zero length,List.append_nil]
    rfl
  | succ n ih =>
    have filled : path ≠ [] := by
      rintro rfl
      cases length
    have up : step (dir ++ path) (ascii "..") = dir ++ path.dropLast := by
      rw [step,if_pos rfl,List.dropLast_append_of_ne_nil filled]
    rw [List.replicate_succ,resolve,List.foldl_cons,up]
    exact ih path.dropLast (by rw [List.length_dropLast,length]; rfl)

def dots : Nat → Bytes
  | 0 => []
  | n + 1 => ascii "../" ++ dots n

theorem dotsLength (n : Nat) : (dots n).length = n * 3 := by
  induction n with
  | zero => rfl
  | succ n ih =>
    rw [dots,List.length_append,ih,Nat.succ_mul,Nat.add_comm]
    rfl

theorem namesDots (n : Nat) (rest : Bytes) : names (dots n ++ rest) = List.replicate n (ascii "..") ++ names rest := by
  induction n with
  | zero => rfl
  | succ n ih =>
    have first : dots (n + 1) ++ rest = ascii ".." ++ slash :: (dots n ++ rest) := rfl
    have one : names (ascii "..") = [ascii ".."] := by decide
    rw [first,namesBehind,ih,one]
    rfl

theorem storeSplit {front data middle behind : Bytes} (same : middle.length = data.length) :
    store (front ++ middle ++ behind) front.length data = some (front ++ data ++ behind) := by
  have room : front.length + data.length ≤ (front ++ middle ++ behind).length := by
    rw [List.length_append,List.length_append]
    omega
  have rest : (front ++ middle ++ behind).drop (front.length + data.length) = behind := by
    rw [← same,← List.length_append]
    exact List.drop_left
  rw [store,if_pos room,rest,List.append_assoc front middle,List.take_left]

theorem fillDotsFilled (n : Nat) (front middle behind : Bytes) (same : middle.length = n * 3) :
    fillDots n front.length (front ++ middle ++ behind) = some (front ++ dots n ++ behind) := by
  induction n generalizing front middle with
  | zero =>
    rw [List.eq_nil_of_length_eq_zero (same.trans (Nat.zero_mul 3))]
    rfl
  | succ n ih =>
    have first : (middle.take 3).length = (ascii "../").length := by
      rw [List.length_take]
      exact Nat.min_eq_left (by omega)
    have whole : front ++ middle ++ behind = front ++ middle.take 3 ++ (middle.drop 3 ++ behind) := by
      rw [List.append_assoc,List.append_assoc,← List.append_assoc (middle.take 3),List.take_append_drop]
    have rest := ih (front ++ ascii "../") (middle.drop 3) (by rw [List.length_drop]; omega)
    have next : (front ++ ascii "../").length = front.length + 3 := List.length_append
    have written :
        front ++ ascii "../" ++ (middle.drop 3 ++ behind) = front ++ ascii "../" ++ middle.drop 3 ++ behind := by
      rw [List.append_assoc _ (middle.drop 3)]
    rw [next] at rest
    rw [fillDots,whole,storeSplit first,Option.bind_some,written,rest,dots,List.append_assoc front]

def tail (dotdots : Nat) (l : Bytes) : Bytes :=
  if l ≠ [] then l else if dotdots = 0 then ascii "." else []

theorem transformDone {base path buf l rest : Bytes} (absolute : (cstr buf).head? = some slash)
    (absolute' : base.head? = some slash) (stripped : stripCommon (cstr buf) path = (l,rest))
    (far : base.length ≤ (cstr buf).length - l.length) (more : names rest ≠ [])
    (fits : ((names rest).length - 1) * 3 + l.length + 2 ≤ buf.length) :
    ∃ behind, transformSymlink base path buf =
        some (dots ((names rest).length - 1) ++ (tail ((names rest).length - 1) l ++ [0]) ++ behind) ∧
      (dots ((names rest).length - 1) ++ (tail ((names rest).length - 1) l ++ [0]) ++ behind).length = buf.length := by
  have some : (names rest).length ≠ 0 := fun none => more (List.eq_nil_of_length_eq_zero none)
  have absoluteBoth : ¬((cstr buf).head? ≠ Option.some slash ∨ base.head? ≠ Option.some slash) := by
    rintro (other | other)
    · exact other absolute
    · exact other absolute'
  generalize depth : (names rest).length - 1 = dotdots at *
  have length : (tail dotdots l ++ [0]).length ≤ l.length + 2 := by
    rw [List.length_append,tail]
    split
    · exact Nat.le_succ _
    · split
      · exact Nat.le_add_left _ _
      · exact Nat.le_add_left _ _
  generalize data : tail dotdots l ++ [0] = written at *
  have chosen : (if l.length ≠ 0 then store buf (dotdots * 3) (l ++ [0])
      else if dotdots = 0 then store buf (dotdots * 3) (ascii "." ++ [0])
      else store buf (dotdots * 3) [0]) = store buf (dotdots * 3) written := by
    rw [← data,tail]
    cases l with
    | nil =>
      simp only [List.length_nil,ne_eq,not_true_eq_false,if_false]
      split <;> rfl
    | cons b l => rfl
  have front : (buf.take (dotdots * 3)).length = dotdots * 3 := by
    rw [List.length_take]
    exact Nat.min_eq_left (by omega)
  have middle : ((buf.drop (dotdots * 3)).take written.length).length = written.length := by
    rw [List.length_take,List.length_drop]
    exact Nat.min_eq_left (by omega)
  have whole : buf = buf.take (dotdots * 3) ++ (buf.drop (dotdots * 3)).take written.length ++
      (buf.drop (dotdots * 3)).drop written.length := by
    rw [List.append_assoc,List.take_append_drop,List.take_append_drop]
  have stored : store buf (dotdots * 3) written =
      Option.some (buf.take (dotdots * 3) ++ written ++ (buf.drop (dotdots * 3)).drop written.length) := by
    have split := @storeSplit (buf.take (dotdots * 3)) written _ ((buf.drop (dotdots * 3)).drop written.length) middle
    rw [← whole,front] at split
    exact split
  have filled := fillDotsFilled dotdots [] (buf.take (dotdots * 3))
    (written ++ (buf.drop (dotdots * 3)).drop written.length) front
  refine ⟨(buf.drop (dotdots * 3)).drop written.length,?_,?_⟩
  · rw [transformSymlink,if_neg absoluteBoth,stripped]
    simp only [countComponentsNames,if_neg (Nat.not_lt.mpr far),if_neg some,depth,
      if_neg (Nat.not_lt.mpr fits),chosen,stored,
      Option.bind_some]
    rw [List.append_assoc]
    rw [List.nil_append] at filled
    exact filled.trans (by rw [List.nil_append,List.append_assoc])
  · have same := congrArg List.length whole
    rw [List.length_append,List.length_append,front,middle] at same
    rw [List.length_append,List.length_append,dotsLength]
    exact same.symm

theorem cstrEnds {s : Bytes} (plain : 0 ∉ s) (behind : Bytes) : cstr (s ++ 0 :: behind) = s := by
  have every : ∀ b ∈ s, (b != 0) = true := fun b inside => bne_iff_ne.mpr fun zero => plain (zero ▸ inside)
  have stop : List.takeWhile (fun b : UInt8 => b != 0) (0 :: behind) = [] := rfl
  rw [cstr,List.takeWhile_append_of_pos every,stop,List.append_nil]

theorem cstrPlain (buf : Bytes) : 0 ∉ cstr buf := by
  intro inside
  have every := List.all_takeWhile (l := buf) (p := fun b => b != 0)
  exact absurd (List.all_eq_true.mp every 0 inside) (by decide)

theorem beyondInside (k : Nat) (p : Bytes) : ∀ b ∈ beyond k p, b ∈ p := by
  induction k generalizing p with
  | zero => exact fun b inside => (List.dropWhile_sublist _).mem inside
  | succ k ih =>
    intro b inside
    exact (List.dropWhile_sublist _).mem ((List.dropWhile_sublist _).mem (ih (dropName (dropSlashes p)) b inside))

theorem beyondHead (k : Nat) (p : Bytes) : (beyond k p).head? ≠ some slash := by
  induction k generalizing p with
  | zero => exact dropSlashesHead p
  | succ k ih => exact ih _

theorem dotsPlain (n : Nat) : 0 ∉ dots n := by
  induction n with
  | zero => nofun
  | succ n ih =>
    intro inside
    obtain first | later := List.mem_append.mp inside
    · exact absurd first (by decide)
    · exact ih later

theorem tailPlain {dotdots : Nat} {l : Bytes} (plain : 0 ∉ l) : 0 ∉ tail dotdots l := by
  unfold tail
  split
  · exact plain
  · split
    · decide
    · nofun

theorem tailHead {dotdots : Nat} {l : Bytes} (head : l.head? ≠ some slash) : (tail dotdots l).head? ≠ some slash := by
  unfold tail
  split
  · exact head
  · split
    · decide
    · nofun

theorem resolveTail (dotdots : Nat) (l : Bytes) (dir : List Bytes) :
    resolve dir (names (tail dotdots l)) = resolve dir (names l) := by
  unfold tail
  split
  · rfl
  · rename_i none
    rw [Decidable.not_not.mp none]
    split
    · have dot : names (ascii ".") = [ascii "."] := by decide
      rw [dot]
      rfl
    · rfl

theorem rewrittenResolves {s path l rest : Bytes} {common : List Bytes} (stripped : Stripped s path l rest common)
    (plain : Plain (names path)) (more : names rest ≠ []) :
    resolve (names path).dropLast (names (dots ((names rest).length - 1) ++ tail ((names rest).length - 1) l)) =
      resolve [] (names s) := by
  have plainCommon : Plain common := fun name inside => plain name (by
    rw [stripped.target]
    exact List.mem_append_left _ inside)
  have up : (names path).dropLast = common ++ (names rest).dropLast := by
    rw [stripped.target,List.dropLast_append_of_ne_nil more]
  have back := resolveUp common (names rest).dropLast
  rw [List.length_dropLast] at back
  rw [namesDots,up,resolveAppend,back,resolveTail,stripped.source,resolveAppend,resolvePlain plainCommon,
    List.nil_append]

def commonLength : List Bytes → List Bytes → Nat
  | x :: xs,y :: ys => if x = y then commonLength xs ys + 1 else 0
  | _,_ => 0

theorem commonLengthAppend (common : List Bytes) {xs ys : List Bytes} (diverge : Diverge xs ys) :
    commonLength (common ++ xs) (common ++ ys) = common.length := by
  induction common with
  | nil =>
    cases xs with
    | nil => rfl
    | cons x xs =>
      cases ys with
      | nil => rfl
      | cons y ys => exact if_neg fun same => diverge x xs ys rfl (congrArg (· :: ys) same.symm)
  | cons name common ih =>
    have first : commonLength (name :: common ++ xs) (name :: common ++ ys) =
        commonLength (common ++ xs) (common ++ ys) + 1 := if_pos rfl
    rw [first,ih,List.length_cons]

/- The target up to its first name that the link's path does not share is shorter than base, or the
rewritten target would not fit into the buffer. -/
def Left (base path target : Bytes) (size : Nat) : Prop :=
  target.length - (beyond (commonLength (names target) (names path)) target).length < base.length ∨
    size < ((names path).length - commonLength (names target) (names path) - 1) * 3 +
      (beyond (commonLength (names target) (names path)) target).length + 2

/- The target is as it was, or it starts with all of base and the new one leads from the directory of the
link to the same place. -/
def Rewritten (base path target target' : Bytes) : Prop :=
  target' = target ∨
    names base <+: names target ∧ target'.head? ≠ some slash ∧
      resolve (names path).dropLast (names target') = resolve [] (names target)

theorem namesAddpath {base rel : Bytes} (dir : base.getLast? = some slash) :
    names (subdirAddpath base rel) = names base ++ names rel := by
  obtain ⟨front,rfl⟩ := List.getLast?_eq_some_iff.mp dir
  have filled (path : Bytes) : front ++ [slash] ++ path ≠ [] := by
    rw [List.append_assoc]
    exact List.append_ne_nil_of_right_ne_nil _ (List.cons_ne_nil _ _)
  have path : names (if rel.head? = some slash then rel.tail else rel) = names rel := by
    split
    · rename_i here
      cases rel with
      | nil => rfl
      | cons b rel =>
        obtain rfl := Option.some.inj here
        exact (namesSlash rel).symm
    · rfl
  rw [subdirAddpath,if_neg (filled _),List.append_assoc,List.singleton_append,namesBehind,path,namesBehind]
  simp [names,split]

theorem transformKept {base path buf l rest : Bytes} (stripped : stripCommon (cstr buf) path = (l,rest))
    (kept : (cstr buf).length - l.length < base.length ∨ names rest = [] ∨
      buf.length < ((names rest).length - 1) * 3 + l.length + 2) : transformSymlink base path buf = some buf := by
  have size := countComponentsNames rest
  unfold transformSymlink
  rw [stripped]
  split
  · rfl
  · dsimp only
    split
    · rfl
    · split
      · rfl
      · rename_i far more
        rw [size] at more ⊢
        obtain short | none | big := kept
        · exact absurd short far
        · exact absurd (congrArg List.length none) more
        · exact if_pos big

/- What is rewritten leads to the same place, and it is a target inside of base, unless repeated slashes
in the target have made the common part as long as base. -/
theorem targetRewritten {base rel buf : Bytes} (absolute : base.head? = some slash) (dir : base.getLast? = some slash)
    (plain : Plain (names (subdirAddpath base rel))) (target : (cstr buf).head? = some slash)
    (terminated : 0 ∈ buf) :
    ∃ buf', transformSymlink base (subdirAddpath base rel) buf = some buf' ∧ buf'.length = buf.length ∧ 0 ∈ buf' ∧
      (Rewritten base (subdirAddpath base rel) (cstr buf) (cstr buf') ↔
        names base <+: names (cstr buf) ∨ Left base (subdirAddpath base rel) (cstr buf) buf.length) := by
  have path := @namesAddpath base rel dir
  generalize subdirAddpath base rel = link at *
  obtain ⟨common,split⟩ := stripCommonNames (cstr buf) link
  rcases stripped : stripCommon (cstr buf) link with ⟨l,rest⟩
  rw [stripped] at split
  -- outside of base, the loop has stopped where the names part
  have parted (outside : ¬names base <+: names (cstr buf)) : commonLength (names (cstr buf))
      (names link) = common.length := by
    obtain same | diverge := split.ends
    · refine absurd ?_ outside
      have all : names (cstr buf) = names link := by rw [split.source,split.target,show l = rest from same]
      rw [all,path]
      exact List.prefix_append _ _
    · rw [split.source,split.target]
      exact commonLengthAppend common diverge
  have measured (outside : ¬names base <+: names (cstr buf)) : Left base link (cstr buf) buf.length ↔
      (cstr buf).length - l.length < base.length ∨ buf.length < ((names rest).length - 1) * 3 + l.length + 2 := by
    have left : beyond common.length (cstr buf) = l := split.left.symm
    have size : (names link).length - common.length = (names rest).length := by
      rw [split.target,List.length_append,Nat.add_sub_cancel_left]
    rw [Left,parted outside,left,size]
  by_cases kept : (cstr buf).length - l.length < base.length ∨ names rest = [] ∨
      buf.length < ((names rest).length - 1) * 3 + l.length + 2
  · refine ⟨buf,transformKept stripped kept,rfl,terminated,iff_of_true (.inl rfl) ?_⟩
    by_cases inside : names base <+: names (cstr buf)
    · exact .inl inside
    · refine .inr ((measured inside).mpr ?_)
      obtain short | none | big := kept
      · exact .inl short
      · refine absurd ?_ inside
        have all : names link = common := by rw [split.target,show names rest = [] from none,List.append_nil]
        rw [split.source,← all,path,List.append_assoc]
        exact List.prefix_append _ _
      · exact .inr big
  · obtain ⟨far,more,fits⟩ : base.length ≤ (cstr buf).length - l.length ∧ names rest ≠ [] ∧
        ((names rest).length - 1) * 3 + l.length + 2 ≤ buf.length := by
      refine ⟨Nat.not_lt.mp fun short => kept (.inl short),fun none => kept (.inr (.inl none)),
        Nat.not_lt.mp fun big => kept (.inr (.inr big))⟩
    obtain ⟨behind,done,length⟩ := transformDone target absolute stripped far more fits
    have plainL : 0 ∉ l := by
      rw [show l = _ from split.left]
      exact fun inside => cstrPlain buf (beyondInside _ _ 0 inside)
    have headL : l.head? ≠ some slash := by
      rw [show l = _ from split.left]
      exact beyondHead _ _
    have resolved := rewrittenResolves split plain more
    generalize (names rest).length - 1 = depth at *
    have written : cstr (dots depth ++ (tail depth l ++ [0]) ++ behind) = dots depth ++ tail depth l := by
      rw [List.append_assoc,List.append_assoc,← List.append_assoc]
      refine cstrEnds (fun inside => ?_) behind
      exact (List.mem_append.mp inside).elim (dotsPlain depth) (tailPlain plainL)
    have relative : (dots depth ++ tail depth l).head? ≠ some slash := by
      cases depth with
      | zero => exact tailHead headL
      | succ depth => exact (by decide : some 46 ≠ some slash)
    refine ⟨_,done,length,by simp,?_⟩
    rw [written]
    by_cases inside : names base <+: names (cstr buf)
    · exact iff_of_true (.inr ⟨inside,relative,resolved⟩) (.inl inside)
    · refine iff_of_false ?_ ?_
      · rintro (same | ⟨covers,-⟩)
        · rw [same] at relative
          exact relative target
        · exact inside covers
      · rintro (covers | left)
        · exact inside covers
        · obtain short | big := (measured inside).mp left
          · exact kept (.inl short)
          · exact kept (.inr (.inr big))

def linkBuffer (target : String) : Bytes := ascii target ++ List.replicate (16 - (ascii target).length) 0

theorem targetRewrittenInside : ∃ buf', transformSymlink (ascii "/b/c/") (subdirAddpath (ascii "/b/c/") (ascii "/d/l"))
      (linkBuffer "/b/c/x") = some buf' ∧
    Rewritten (ascii "/b/c/") (subdirAddpath (ascii "/b/c/") (ascii "/d/l")) (cstr (linkBuffer "/b/c/x"))
      (cstr buf') := by
  obtain ⟨buf',done,-,-,rewritten⟩ := @targetRewritten (ascii "/b/c/") (ascii "/d/l") (linkBuffer "/b/c/x")
    (by decide) (by decide)
    (by decide) (by decide) (by decide)
  exact ⟨buf',done,rewritten.mpr (.inl (by decide))⟩

/- The slashes of /b/////x count for the components of /b/c that it lacks. -/
theorem outsideRewritten :
    transformSymlink (ascii "/b/c/") (subdirAddpath (ascii "/b/c/") (ascii "/l")) (linkBuffer "/b/////x") =
      some (ascii "../x" ++ 0 :: ascii "//x" ++ List.replicate 8 0) ∧
    ¬Rewritten (ascii "/b/c/") (subdirAddpath (ascii "/b/c/") (ascii "/l")) (cstr (linkBuffer "/b/////x"))
      (cstr (ascii "../x" ++ 0 :: ascii "//x" ++ List.replicate 8 0)) := by
  have stripped : stripCommon (cstr (linkBuffer "/b/////x")) (subdirAddpath (ascii "/b/c/") (ascii "/l")) =
      (ascii "x",ascii "c/l") := by
    rw [stripCommon,if_pos (by decide),stripCommon,if_neg (by decide)]
    decide
  refine ⟨?_,?_⟩
  · rw [transformSymlink,stripped]
    simp only [countComponentsNames]
    decide
  rintro (same | ⟨covers,-⟩)
  · exact absurd same (by decide)
  · exact absurd covers (by decide)

end FuseStudy.SubdirLinks
