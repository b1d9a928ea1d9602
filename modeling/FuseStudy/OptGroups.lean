import FuseStudy.OptNormal

/-! Options put together with fuse_opt_add_opt_escaped and taken apart again by
process_real_option_group, with the sizes the first asks for and the places the second writes. -/
namespace FuseStudy.FuseOpt
open CString
open DoMount (comma backslash)
open KernMount (addOptCommon escaped)

variable {δ : Type}

/- realloc(*opts, oldlen + 1 + strlen(opt) * 2 + 1): only the first sum is one of unsigned ints. -/
def addOptSize (opts : Option Bytes) (opt : Bytes) : Nat :=
  ((opts.getD []).length % 2 ^ 32 + 1) % 2 ^ 32 + opt.length * 2 + 1

def addOptWritten (opts : Option Bytes) (opt : Bytes) : Nat := (addOptCommon opts opt true).length + 1

/- process_real_option_group on the buffer it is given: what it hands to process_gopt, and each
write with the position s has at that moment. -/
def inPlace : Nat → Bytes → Nat → Nat → List Bytes × List (Nat × Nat)
  | 0, _, _, _ => ([],[])
  | fuel+1, buf, s, d =>
    let b := buf.getD s 0
    if b = 0 ∨ b = comma then
      let buf := buf.set d 0
      if b = 0 then ([upToNul buf],[(d,s)])
      else
        let (opts,writes) := inPlace fuel buf (s+1) 0
        (upToNul buf :: opts,(d,s) :: writes)
    else if b = backslash ∧ buf.getD (s+1) 0 ≠ 0 then
      let a := buf.getD (s+1) 0
      let x := buf.getD (s+2) 0
      let y := buf.getD (s+3) 0
      if octal a x y then
        let (opts,writes) := inPlace fuel (buf.set d (octalByte a x y)) (s+4) (d+1)
        (opts,(d,s+1) :: writes)
      else
        let (opts,writes) := inPlace fuel (buf.set d a) (s+2) (d+1)
        (opts,(d,s+1) :: writes)
    else
      let (opts,writes) := inPlace fuel (buf.set d b) (s+1) (d+1)
      (opts,(d,s) :: writes)

def decodeGroup (group : Bytes) : List Bytes × List (Nat × Nat) := inPlace (group.length + 1) (group ++ [0]) 0 0

/-! What stands before d is the option so far, what stands from s on is still as it was. -/

structure Layout (buf : Bytes) (s d : Nat) (done rest : Bytes) : Prop where
  done : buf.take d = done
  rest : buf.drop s = rest ++ [0]
  behind : d ≤ s

theorem Layout.inside {buf : Bytes} {s d : Nat} {done rest : Bytes} (layout : Layout buf s d done rest) :
    s + rest.length + 1 = buf.length := by
  have count := congrArg List.length layout.rest
  rw [List.length_drop,List.length_append,List.length_singleton] at count
  omega

theorem Layout.reads {buf : Bytes} {s d : Nat} {done rest : Bytes} (layout : Layout buf s d done rest) (k : Nat) :
    buf.getD (s+k) 0 = rest.getD k 0 := by
  have at_ : buf[s+k]? = (rest ++ [0])[k]? := by rw [← layout.rest,List.getElem?_drop]
  simp only [List.getD_eq_getElem?_getD,at_]
  by_cases inside : k < rest.length
  · rw [List.getElem?_append_left inside]
  · rw [List.getElem?_append_right (by omega),List.getElem?_eq_none (l := rest) (by omega)]
    cases k - rest.length <;> rfl

theorem Layout.write {buf : Bytes} {s d k : Nat} {done rest : Bytes} (layout : Layout buf s d done rest) (c : UInt8)
    (more : k < rest.length) : Layout (buf.set d c) (s+k+1) (d+1) (done ++ [c]) (rest.drop (k+1)) := by
  have inside := layout.inside
  have behind := layout.behind
  refine ⟨?_,?_,by omega⟩
  · rw [← layout.done,List.take_add_one,List.take_set_of_le (Nat.le_refl d),List.getElem?_set_self (by omega)]
    rfl
  · rw [List.drop_set_of_lt (by omega),Nat.add_assoc,← List.drop_drop,layout.rest,
      List.drop_append_of_le_length (by omega)]

theorem upToNulEnds (done more : Bytes) : upToNul (done ++ 0 :: more) = upToNul done := by
  induction done with
  | nil => rfl
  | cons b done ih =>
    have tail : (done ++ 0 :: more).takeWhile (· ≠ 0) = done.takeWhile (· ≠ 0) := ih
    by_cases zero : b = 0
    · subst zero
      rfl
    · simp only [upToNul,List.cons_append,List.takeWhile_cons,tail]

theorem Layout.ends {buf : Bytes} {s d : Nat} {done rest : Bytes} (layout : Layout buf s d done rest) :
    upToNul (buf.set d 0) = upToNul done := by
  have inside := layout.inside
  have behind := layout.behind
  rw [List.set_eq_take_append_cons_drop,if_pos (by omega),layout.done,upToNulEnds]

theorem octalShort {a x : UInt8} : octal a 0 x = false ∧ octal a x 0 = false := by
  have digit : ¬(48 : UInt8) ≤ 0 := by decide
  simp only [octal,digit,decide_false,Bool.and_false,Bool.false_and,and_self]

theorem unescapedOf (a : UInt8) (rest : Bytes) : unescaped (a :: rest) =
    if octal a (rest.getD 0 0) (rest.getD 1 0) then (octalByte a (rest.getD 0 0) (rest.getD 1 0),3) else (a,1) := by
  match rest with
  | [] => exact (if_neg (by rw [show ([] : Bytes).getD 0 0 = 0 from rfl,octalShort.1]; decide)).symm
  | [x] => exact (if_neg (by rw [show [x].getD 1 0 = 0 from rfl,octalShort.2]; decide)).symm
  | x :: y :: more => rfl

theorem octalRoom {a : UInt8} {rest : Bytes} (digits : octal a (rest.getD 0 0) (rest.getD 1 0) = true) :
    2 ≤ rest.length := by
  match rest with
  | [] => rw [show ([] : Bytes).getD 0 0 = 0 from rfl,octalShort.1] at digits; cases digits
  | [x] => rw [show [x].getD 1 0 = 0 from rfl,octalShort.2] at digits; cases digits
  | x :: y :: more => exact Nat.le_add_left ..

/- Decoding in place gives what decoding apart gives, and writes only where it has read. -/
theorem inPlaceDecodes {fuel : Nat} {buf : Bytes} {s d : Nat} {done rest : Bytes} (layout : Layout buf s d done rest)
    (plain : (0 : UInt8) ∉ rest) (enough : rest.length < fuel) :
    (inPlace fuel buf s d).1 = decode 0 done rest ∧ ∀ w ∈ (inPlace fuel buf s d).2, w.1 ≤ w.2 := by
  induction fuel generalizing buf s d done rest with
  | zero => omega
  | succ fuel ih =>
    have ends := layout.ends
    have behind := layout.behind
    cases rest with
    | nil =>
      have zero : buf.getD s 0 = 0 := layout.reads 0
      simp only [inPlace,zero,true_or,if_true,ends,decode,List.mem_singleton,forall_eq,true_and]
      exact behind
    | cons b rest =>
      have here : buf.getD s 0 = b := layout.reads 0
      have some : b ≠ 0 := fun zero => plain (zero ▸ List.mem_cons_self)
      have plain' : (0 : UInt8) ∉ rest := fun mem => plain (List.mem_cons_of_mem _ mem)
      rw [List.length_cons] at enough
      by_cases ended : b = comma
      · have later : Layout (buf.set d 0) (s+1) 0 [] rest :=
          ⟨List.take_zero,(layout.write 0 (k := 0) (Nat.succ_pos _)).rest,Nat.zero_le _⟩
        obtain ⟨opts,writes⟩ := ih later plain' (by omega)
        have stops : comma ≠ 0 := by decide
        subst ended
        simp only [inPlace,here,or_true,if_true,if_neg stops,decode,ends,opts,true_and,List.mem_cons,forall_eq_or_imp]
        exact ⟨behind,writes⟩
      · have goes : ¬(b = 0 ∨ b = comma) := not_or.mpr ⟨some,ended⟩
        have next : buf.getD (s+1) 0 = rest.getD 0 0 := layout.reads 1
        by_cases escape : b = backslash ∧ rest.getD 0 0 ≠ 0
        · obtain ⟨rfl,follows⟩ := escape
          cases rest with
          | nil => exact absurd rfl follows
          | cons a rest =>
            have next : buf.getD (s+1) 0 = a := next
            have second : buf.getD (s+2) 0 = rest.getD 0 0 := layout.reads 2
            have third : buf.getD (s+3) 0 = rest.getD 1 0 := layout.reads 3
            have follows : a ≠ 0 := follows
            simp only [inPlace,here,next,second,third,if_neg goes,ne_eq,follows,not_false_eq_true,and_self,
              if_true,decode,
              if_neg ended,unescapedOf]
            by_cases digits : octal a (rest.getD 0 0) (rest.getD 1 0) = true
            · have room := octalRoom digits
              have later := layout.write (octalByte a (rest.getD 0 0) (rest.getD 1 0)) (k := 3)
                (by simp only [List.length_cons]; omega)
              obtain ⟨opts,writes⟩ := ih later (fun mem => plain (List.mem_of_mem_drop mem)) (by
                simp only [List.length_drop,List.length_cons] at enough ⊢
                omega)
              simp only [if_pos digits,decodeSkip 3,List.mem_cons,forall_eq_or_imp]
              exact ⟨opts,Nat.le_succ_of_le behind,writes⟩
            · have later := layout.write a (k := 1) (by simp only [List.length_cons]; omega)
              obtain ⟨opts,writes⟩ := ih later (fun mem => plain (List.mem_of_mem_drop mem)) (by
                simp only [List.length_drop,List.length_cons] at enough ⊢
                omega)
              simp only [if_neg digits,decodeSkip 1,List.mem_cons,forall_eq_or_imp]
              exact ⟨opts,Nat.le_succ_of_le behind,writes⟩
        · have later := layout.write b (k := 0) (Nat.succ_pos _)
          obtain ⟨opts,writes⟩ := ih later plain' (by simpa using enough)
          have alone : (if b = backslash then unescaped rest else (b,0)) = (b,0) := by
            split
            · rename_i is
              cases rest with
              | nil => rw [is]; rfl
              | cons a rest => exact absurd ⟨is,fun zero => plain' (zero ▸ List.mem_cons_self)⟩ escape
            · rfl
          simp only [inPlace,here,next,if_neg goes,if_neg escape,decode,if_neg ended,alone,List.mem_cons,
            forall_eq_or_imp]
          exact ⟨opts,behind,writes⟩

theorem decodeGroupOptions {group : Bytes} (plain : (0 : UInt8) ∉ group) :
    (decodeGroup group).1 = options group ∧ ∀ w ∈ (decodeGroup group).2, w.1 ≤ w.2 :=
  inPlaceDecodes ⟨List.take_zero,List.drop_zero,Nat.le_refl _⟩ plain (Nat.lt_succ_self _)

theorem groupProcessed (client : Client δ) (skip : Nat) (ctx : Context δ) (d s : Bytes) :
    Context.realOptionGroup client skip ctx d s = (decode skip d s).foldlM
      (fun ctx opt => ctx.processGopt client opt true) ctx := by
  induction s generalizing skip ctx d with
  | nil => simp [Context.realOptionGroup,decode]
  | cons b s ih =>
    cases skip with
    | succ skip => exact ih skip ctx d
    | zero =>
      rw [Context.realOptionGroup,decode]
      split
      · simp only [List.foldlM_cons,ih]
      · exact ih _ _ _

/-! How long the text of some options is when nothing is lost. -/

def textLength (opts : List Bytes) : Nat := (joined comma (opts.map escaped)).length

theorem textLengthCons (opt : Bytes) {opts : List Bytes} (more : opts ≠ []) :
    textLength (opt :: opts) = (escaped opt).length + 1 + textLength opts := by
  rw [textLength,List.map_cons,joinedCons comma _ (by simpa using more),List.length_append,List.length_cons,textLength]
  omega

theorem escapedPrefix (d : Bytes) : (escaped (upToNul d)).length ≤ (escaped d).length := by
  have cut : d = upToNul d ++ d.dropWhile (· ≠ 0) := List.takeWhile_append_dropWhile.symm
  have parts : escaped d = escaped (upToNul d) ++ escaped (d.dropWhile (· ≠ 0)) := by
    conv_lhs => rw [cut]
    exact List.flatMap_append
  rw [parts,List.length_append]
  omega

theorem escapedSnoc (d : Bytes) (c : UInt8) : (escaped (d ++ [c])).length ≤ (escaped d).length + 2 ∧
    (c ≠ comma → c ≠ backslash → (escaped (d ++ [c])).length = (escaped d).length + 1) := by
  have parts : escaped (d ++ [c]) = escaped d ++ escaped [c] := List.flatMap_append
  have single : escaped [c] = if c = comma ∨ c = backslash then [backslash,c] else [c] := List.flatMap_singleton ..
  rw [parts,List.length_append,single]
  constructor
  · split <;> simp
  · intro notComma notBackslash
    rw [if_neg (not_or.mpr ⟨notComma,notBackslash⟩)]
    rfl

theorem unescapedSkip {s : Bytes} (some : s ≠ []) : 1 ≤ (unescaped s).2 ∧ (unescaped s).2 ≤ s.length := by
  obtain ⟨a,rest,rfl⟩ := List.exists_cons_of_ne_nil some
  rw [unescapedOf,List.length_cons]
  split
  · rename_i digits
    have room := octalRoom digits
    show 1 ≤ 3 ∧ 3 ≤ rest.length + 1
    omega
  · exact ⟨Nat.le_refl _,Nat.le_add_left ..⟩

/- Decoding gives no more than a text of this length can hold; a backslash at its end alone
stands for two bytes. -/
theorem decodeLength (skip : Nat) (d s : Bytes) (room : skip ≤ s.length) :
    textLength (decode skip d s) ≤ (escaped d).length + (s.length - skip) + if s = [] then 0 else 1 := by
  induction s generalizing skip d with
  | nil =>
    have whole := escapedPrefix d
    simpa [decode,textLength,joined] using whole
  | cons b s ih =>
    cases skip with
    | succ skip =>
      have later := ih skip d (Nat.le_of_succ_le_succ room)
      rw [decode,List.length_cons,if_neg (List.cons_ne_nil b s)]
      split at later <;> omega
    | zero =>
      rw [decode,if_neg (List.cons_ne_nil b s),List.length_cons]
      by_cases ended : b = comma
      · have whole := escapedPrefix d
        have later := ih 0 [] (Nat.zero_le _)
        have none : (escaped []).length = 0 := rfl
        rw [if_pos ended,textLengthCons _ (decodeNe 0 [] s)]
        split at later <;> omega
      · rw [if_neg ended]
        by_cases escape : b = backslash
        · rw [if_pos escape]
          have more := (escapedSnoc d (unescaped s).1).1
          by_cases last : s = []
          · have later := ih (unescaped s).2 (d ++ [(unescaped s).1]) (by subst last; exact Nat.le_refl _)
            rw [if_pos last] at later
            dsimp only
            omega
          · obtain ⟨one,room⟩ := unescapedSkip last
            have later := ih (unescaped s).2 (d ++ [(unescaped s).1]) room
            rw [if_neg last] at later
            dsimp only
            omega
        · rw [if_neg escape]
          have more := (escapedSnoc d b).2 ended escape
          have later := ih 0 (d ++ [b]) (Nat.zero_le _)
          dsimp only
          split at later <;> omega

theorem addOptLength (old : Option Bytes) (opt : Bytes) :
    (addOptCommon old opt true).length ≤ (old.getD []).length % 2 ^ 32 + 1 + (escaped opt).length := by
  simp only [addOptCommon,if_true]
  split
  · omega
  · rw [List.length_append,List.length_cons,List.length_take]
    omega

theorem textLengthSnoc (opt : Bytes) {opts : List Bytes} (some : opts ≠ []) :
    textLength (opts ++ [opt]) = textLength opts + 1 + (escaped opt).length := by
  rw [textLength,List.map_append,joinedAppend comma (by simpa using some) (by simp),List.length_append,
    List.length_cons,textLength]
  show _ + ((escaped opt).length + 1) = _
  omega

theorem textLengthPos {first : Bytes} (some : first ≠ []) (more : List Bytes) : 0 < textLength (first :: more) := by
  have head : escaped first ≠ [] := by
    obtain ⟨b,rest,rfl⟩ := List.exists_cons_of_ne_nil some
    simp only [escaped,List.flatMap_cons]
    split <;> simp
  have pos := List.length_pos_iff.mpr head
  cases more with
  | nil => exact pos
  | cons next more =>
    rw [textLengthCons first (List.cons_ne_nil next more)]
    omega

/- What add_opt_common collects: nothing is lost as long as an option is added to less than 2^32
bytes, and that many at least from then on. -/
inductive Gathers (opts : List Bytes) : Prop
  | whole (short : textLength opts.dropLast < 2 ^ 32)
      (text : collected none opts = some (joined comma (opts.map escaped)))
  | lost (long : 2 ^ 32 ≤ textLength opts.dropLast) (text : Bytes) (is : collected none opts = some text)
    (short : text.length + 2 ^ 32 ≤ textLength opts)

theorem gathers {first : Bytes} (some : first ≠ []) (more : List Bytes) : Gathers (first :: more) := by
  induction more using List.reverseRecOn with
  | nil => exact .whole (show 0 < 2 ^ 32 by decide) (by simp [collected,addOptCommon,joined])
  | append_singleton more opt ih =>
    have pos := textLengthPos some more
    have ne : first :: more ≠ [] := List.cons_ne_nil first more
    have shape : first :: (more ++ [opt]) = (first :: more) ++ [opt] := rfl
    have before : (first :: (more ++ [opt])).dropLast = first :: more := by rw [shape,List.dropLast_concat]
    have last : collected none (first :: (more ++ [opt])) = .some
        (addOptCommon (collected none (first :: more)) opt true) := by
      rw [shape,collected,List.foldl_append]
      rfl
    have total := textLengthSnoc opt ne
    have length := addOptLength (collected none (first :: more)) opt
    cases ih with
    | whole short text =>
      rw [text] at last length
      by_cases small : textLength (first :: more) < 2 ^ 32
      · refine .whole (before ▸ small) (last.trans (congrArg _ ?_))
        have count : (joined comma ((first :: more).map escaped)).length % 2 ^ 32 = textLength
          (first :: more) := Nat.mod_eq_of_lt small
        rw [shape,List.map_append,joinedAppend comma (by simp) (by simp)]
        simp only [addOptCommon,Option.getD_some,count,if_neg (Nat.ne_of_gt pos),if_true]
        rw [textLength,List.take_length]
        rfl
      · refine .lost (by rw [before]; omega) _ last ?_
        have count : ((Option.some (joined comma ((first :: more).map escaped))).getD []).length =
          textLength (first :: more) := rfl
        rw [count] at length
        rw [shape,total]
        have cut := Nat.mod_lt (textLength (first :: more)) (show 0 < 2 ^ 32 by decide)
        have rest := Nat.mod_add_div (textLength (first :: more)) (2 ^ 32)
        have turns : 1 ≤ textLength (first :: more) / 2 ^ 32 := (Nat.one_le_div_iff (by decide)).mpr (by omega)
        omega
    | lost long text is short =>
      rw [is] at last length
      refine .lost (by rw [before]; omega) _ last ?_
      have part := Nat.mod_le ((Option.some text).getD []).length (2 ^ 32)
      have count : ((Option.some text).getD []).length = text.length := rfl
      rw [shape,total]
      omega

theorem escapedPlain {opt : Bytes} (plain : (0 : UInt8) ∉ opt) : (0 : UInt8) ∉ escaped opt := by
  intro mem
  obtain ⟨b,inside,is⟩ := List.mem_flatMap.mp mem
  have other : b ≠ 0 := fun zero => plain (zero ▸ inside)
  split at is
  · rcases List.mem_cons.mp is with zero | zero
    · exact absurd zero (by decide)
    · exact other (List.mem_singleton.mp zero).symm
  · exact other (List.mem_singleton.mp is).symm

theorem collectedPlain {opts : List Bytes} (plain : ∀ opt ∈ opts, (0 : UInt8) ∉ opt) {text : Bytes}
    (is : collected none opts = some text) : (0 : UInt8) ∉ text := by
  induction opts using List.reverseRecOn generalizing text with
  | nil => cases is
  | append_singleton opts opt ih =>
    rw [collected,List.foldl_append] at is
    change some (addOptCommon (collected none opts) opt true) = some text at is
    cases is
    have new := escapedPlain (plain opt (List.mem_append_right _ (List.mem_singleton.mpr rfl)))
    have old : (0 : UInt8) ∉ (collected none opts).getD [] := by
      cases before : collected none opts with
      | none => exact List.not_mem_nil
      | some text => exact ih (fun opt mem => plain opt (List.mem_append_left _ mem)) before
    simp only [addOptCommon,if_true]
    split
    · exact new
    · intro mem
      rcases List.mem_append.mp mem with front | back
      · exact old (List.mem_of_mem_take front)
      · rcases List.mem_cons.mp back with zero | back
        · exact absurd zero (by decide)
        · exact new back

theorem upToNulPlain {opt : Bytes} (plain : (0 : UInt8) ∉ opt) : upToNul opt = opt := by
  refine List.takeWhile_eq_self_iff.mpr fun b mem => decide_eq_true fun zero => plain (zero ▸ mem)

structure RoundTrip (opts : List Bytes) : Prop where
  passes : ∃ text, collected none opts = some text ∧ (decodeGroup text).1 = opts ∧ ∀ w ∈ (decodeGroup text).2, w.1 ≤ w.2
  fits : ∀ done opt rest, opts = done ++ opt :: rest →
    addOptWritten (collected none done) opt ≤ addOptSize (collected none done) opt

theorem fitsIff (old : Option Bytes) (opt : Bytes) (short : (old.getD []).length < 2 ^ 32) :
    addOptWritten old opt ≤ addOptSize old opt ↔
      ((old.getD []).length = 2 ^ 32 - 1 → 2 ^ 32 + (escaped opt).length ≤ 2 * opt.length) := by
  have double := KernMount.escapedLength opt
  have length : (addOptCommon old opt true).length =
      (if (old.getD []).length = 0 then 0 else (old.getD []).length + 1) + (escaped opt).length := by
    simp only [addOptCommon,Nat.mod_eq_of_lt short,if_true]
    split
    · exact (Nat.zero_add _).symm
    · rw [List.length_append,List.length_cons,List.length_take,Nat.min_self]
      omega
  rw [addOptWritten,addOptSize,length,Nat.mod_eq_of_lt short]
  by_cases wraps : (old.getD []).length = 2 ^ 32 - 1
  · have zero : (2 ^ 32 - 1 + 1) % 2 ^ 32 = 0 := by decide
    rw [wraps,zero,if_neg (by decide)]
    omega
  · rw [Nat.mod_eq_of_lt (by omega)]
    refine ⟨fun _ is => absurd is wraps,fun _ => ?_⟩
    split <;> omega

theorem textLengthAppend (first later : List Bytes) : textLength first ≤ textLength (first ++ later) := by
  refine joinedSublist comma ?_
  rw [List.map_append]
  exact List.sublist_append_left ..

theorem gatheredLength {first : Bytes} (some : first ≠ []) (more : List Bytes)
    (short : textLength (first :: more) < 2 ^ 32) :
    ((collected none (first :: more)).getD []).length = textLength (first :: more) := by
  cases gathers some more with
  | whole _ text =>
    rw [text]
    rfl
  | lost long _ _ _ =>
    have parts := List.dropLast_append_getLast (List.cons_ne_nil first more)
    have before := textLengthAppend (first :: more).dropLast [(first :: more).getLast (List.cons_ne_nil first more)]
    rw [parts] at before
    omega

/- Options put together one after the other come back exactly if the text before the last of them
has less than 2^32 bytes, and 2^32-1 only if the last is long enough to make room. -/
theorem escapedListReturns {first : Bytes} (some : first ≠ []) (more : List Bytes)
    (plain : ∀ opt ∈ first :: more, (0 : UInt8) ∉ opt) :
    (∀ text, collected none (first :: more) = .some text → ∀ (client : Client δ) (ctx : Context δ),
      Context.realOptionGroup client 0 ctx [] text =
        (decodeGroup text).1.foldlM (fun ctx opt => ctx.processGopt client opt true) ctx) ∧
    (RoundTrip (first :: more) ↔ textLength (first :: more).dropLast < 2 ^ 32 ∧
      (textLength (first :: more).dropLast = 2 ^ 32 - 1 → ∀ last, (first :: more).getLast? = .some last →
        2 ^ 32 + (escaped last).length ≤ 2 * last.length)) := by
  have decoded {text : Bytes} (is : collected none (first :: more) = .some text) :=
    decodeGroupOptions (collectedPlain plain is)
  refine ⟨fun text is client ctx => ?_,?_,?_⟩
  · rw [(decoded is).1]
    exact groupProcessed client 0 ctx [] text
  · intro returns
    obtain ⟨text,is,passes,-⟩ := returns.passes
    rw [(decoded is).1] at passes
    cases gathers some more with
    | lost long text' is' short =>
      cases is.symm.trans is'
      have bound := decodeLength 0 [] text (Nat.zero_le _)
      have none : (escaped []).length = 0 := rfl
      rw [show decode 0 [] text = first :: more from passes] at bound
      split at bound <;> omega
    | whole short is' =>
      refine ⟨short,fun full last ends => ?_⟩
      obtain ⟨done,parts⟩ := List.getLast?_eq_some_iff.mp ends
      have fits := returns.fits done last [] parts
      rw [parts,List.dropLast_concat] at short full
      cases done with
      | nil => exact absurd full (by decide)
      | cons head done =>
        cases (List.cons.inj parts).1
        have length := gatheredLength some done short
        exact (fitsIff _ last (by rw [length]; exact short)).mp fits (by rw [length]; exact full)
  · rintro ⟨short,room⟩
    constructor
    · cases gathers some more with
      | lost long _ _ _ => omega
      | whole _ text =>
        refine ⟨_,text,?_,(decoded text).2⟩
        rw [(decoded text).1]
        exact optionsJoined (List.cons_ne_nil first more) fun opt mem => upToNulPlain (plain opt mem)
    · intro done opt rest parts
      cases done with
      | nil => exact (fitsIff none opt (show 0 < 2 ^ 32 by decide)).mpr fun full => absurd full (by decide)
      | cons head done =>
        cases (List.cons.inj parts).1
        cases rest with
        | nil =>
          rw [parts,List.dropLast_concat] at short room
          have length := gatheredLength some done short
          refine (fitsIff _ opt (by rw [length]; exact short)).mpr fun full => room (length.symm.trans full) opt ?_
          exact List.getLast?_concat
        | cons next rest =>
          have before : (first :: more).dropLast = (first :: done) ++ [opt] ++ (next :: rest).dropLast := by
            rw [parts,List.append_assoc,List.dropLast_append_of_ne_nil (List.cons_ne_nil opt _),List.dropLast_cons_cons]
            rfl
          have part := textLengthAppend ((first :: done) ++ [opt]) (next :: rest).dropLast
          have grown := textLengthSnoc opt (List.cons_ne_nil first done)
          rw [← before] at part
          have length := gatheredLength some done (by omega)
          exact (fitsIff _ opt (by omega)).mpr fun full => by omega

theorem threeOptionsReturn : RoundTrip [ascii "a,b",[],ascii "\\101"] :=
  (escapedListReturns (δ := Unit) (by decide) [[],ascii "\\101"] (by decide)).2.mpr
    ⟨by decide,fun full => absurd full (by decide)⟩

theorem escapedReplicate (n : Nat) : escaped (List.replicate n 97) = List.replicate n 97 := by
  induction n with
  | zero => rfl
  | succ n ih =>
    rw [List.replicate_succ]
    exact congrArg (List.cons 97) ih

theorem longTextLost {n : Nat} (turns : n % 2 ^ 32 = 0) :
    collected none [List.replicate n 97,ascii "b"] = some (ascii "b") := by
  have first : addOptCommon none (List.replicate n 97) true = List.replicate n 97 := by
    simp only [addOptCommon,if_true,escapedReplicate]
    rfl
  show some (addOptCommon (some (addOptCommon none (List.replicate n 97) true)) (ascii "b") true) = _
  rw [first]
  simp only [addOptCommon,Option.getD_some,List.length_replicate,turns,if_true]
  rfl

theorem longOptionLost : ¬RoundTrip [List.replicate (2 ^ 32) 97,ascii "b"] := by
  intro returns
  obtain ⟨text,is,passes,-⟩ := returns.passes
  cases (longTextLost (Nat.mod_self (2 ^ 32))).symm.trans is
  have count := congrArg List.length passes
  exact absurd count (by decide)

end FuseStudy.FuseOpt
