import FuseStudy.StrCalls
import FuseStudy.XOptions

/-! What extract_x_options reads and writes byte by byte: the option string is an object
that ends with its NUL, the two copies are objects of calloc, and the room left in them
is counted in size_t. -/
namespace FuseStudy.XOptions
open CString StrCalls
open DoMount (comma)

def eio : Int := 5
def enomem : Int := 12

/- Zeroed memory, when there is some; never more than PTRDIFF_MAX bytes. -/
def calloc (granted : Bool) (size : Nat) : Option Bytes :=
  if granted && size < 2 ^ 63 then some (List.replicate size 0) else none

@[irreducible] def sizeSub (a b : Nat) : Nat := (a + 2 ^ 64 - b) % 2 ^ 64

@[irreducible] def ssizeT (n : Nat) : Int := if n < 2 ^ 63 then n else n - 2 ^ 64

structure Copy where
  object : Bytes
  len : Nat
  deriving DecidableEq, Repr

/- The second half of a turn, over opt_buf and buf_len; false is the way out with -EIO. -/
def Copy.add (copy : Copy) (origLen : Nat) (opt : Bytes) (optLen : Nat) : Option (Bool × Copy) := do
  let copy ← if copy.len < origLen then do
      let object ← strncat copy.object [comma,0] 2
      some ⟨object,sizeSub copy.len 1⟩
    else some copy
  if ssizeT (sizeSub copy.len optLen) < 0 then some (false,copy)
  else do
    let object ← strncat copy.object opt optLen
    some (true,⟨object,sizeSub copy.len optLen⟩)

/- opt_end, the offset of what strchr found. -/
def optEndAt (origLen opt : Nat) : Option Nat → Nat
  | some k => opt + k
  | none => origLen

def optTurn (original : Bytes) (origLen opt : Nat) (nonX x : Copy) : Option (Nat × Bool × Copy × Copy) := do
  let found ← strchr comma (original.drop opt)
  let optEnd := optEndAt origLen opt found
  let optLen := optEnd - opt
  let optLenLeft := origLen - opt
  let cmp ← strncmp (original.drop opt) (ascii "x-" ++ [0]) (min 2 optLenLeft)
  if cmp = 0 then do
    let (fits,x) ← x.add origLen (original.drop opt) optLen
    some (optEnd,fits,nonX,x)
  else do
    let (fits,nonX) ← nonX.add origLen (original.drop opt) optLen
    some (optEnd,fits,nonX,x)

inductive Stop where
  /- an access outside its object -/
  | outside
  /- more turns than were given to the loop -/
  | endless
  deriving DecidableEq, Repr

def optTurns (original : Bytes) (origLen : Nat) : Nat → Nat → Copy → Copy → Except Stop (Int × Copy × Copy)
  | 0, _, _, _ => .error .endless
  | turns+1, opt, nonX, x =>
    if opt < origLen then
      match optTurn original origLen opt nonX x with
      | none => .error .outside
      | some (_,false,nonX,x) => .ok (-eio,nonX,x)
      | some (optEnd,true,nonX,x) => optTurns original origLen turns (optEnd + 1) nonX x
    else .ok (0,nonX,x)

structure Extracted where
  ret : Int
  nonXOpts : Option Bytes
  xOpts : Option Bytes
  deriving DecidableEq, Repr

def extractXOptionsBytes (turns : Nat) (first second : Bool) (original : Bytes) : Except Stop Extracted :=
  match strlen original with
  | none => .error .outside
  | some len =>
    let origLen := len + 1
    match calloc first origLen, calloc second origLen with
    | some nonXOpts, some xOpts =>
      (optTurns original origLen turns 0 ⟨nonXOpts,origLen⟩ ⟨xOpts,origLen⟩).map
        (fun (ret,nonX,x) => ⟨ret,some nonX.object,some x.object⟩)
    | nonXOpts, xOpts => .ok ⟨-enomem,nonXOpts,xOpts⟩

/- An object and its counter stand for a buffer of the items. -/
structure Copy.Backs (copy : Copy) (origLen : Nat) (buf : Buffer) : Prop where
  text : Terminated copy.object buf.text
  size : copy.object.length = origLen
  left : (copy.len : Int) = buf.left
  most : copy.len ≤ origLen

variable {original opt rest : Bytes} {origLen start optLen : Nat}

theorem sizeSubLe {a b : Nat} (le : b ≤ a) (small : a < 2 ^ 63) : sizeSub a b = a - b := by
  unfold sizeSub
  omega

theorem ssizeTFits {n : Nat} (small : n < 2 ^ 63) : ¬ ssizeT n < 0 := by
  rw [ssizeT,if_pos small]
  exact Int.not_lt.mpr (Int.natCast_nonneg n)

theorem Copy.Backs.add {copy : Copy} {buf buf' : Buffer} {src : Bytes} (backs : copy.Backs origLen buf)
    (small : origLen < 2 ^ 63) (added : buf.add origLen opt optLen = some buf')
    (read : strnread src optLen = some opt) (noNul : 0 ∉ opt) (room : buf'.text.length < origLen) :
    ∃ copy', copy.add origLen src optLen = some (true,copy') ∧ copy'.Backs origLen buf' := by
  obtain ⟨text,size,left,most⟩ := backs
  unfold Buffer.add at added
  by_cases used : buf.left < origLen
  · simp only [if_pos used] at added
    split at added
    · cases added
    · rename_i enough
      cases added
      simp only [List.length_append,List.length_singleton] at room
      have sep : strnread [comma,0] 2 = some [comma] := rfl
      obtain ⟨object,wrote,text1,size1⟩ := strncatFits text sep (by decide)
        (by simp only [List.length_singleton]; omega)
      obtain ⟨object',wrote',text2,size2⟩ := strncatFits text1 read noNul
        (by rw [List.length_append,List.length_singleton]; omega)
      have less : sizeSub copy.len 1 = copy.len - 1 := sizeSubLe (by omega) (by omega)
      have rest : sizeSub (copy.len - 1) optLen = copy.len - 1 - optLen := sizeSubLe (by omega) (by omega)
      have fits : ¬ ssizeT (copy.len - 1 - optLen) < 0 := ssizeTFits (by omega)
      have earlier : copy.len < origLen := by omega
      refine ⟨⟨object',copy.len - 1 - optLen⟩,?_,text2,size2.trans (size1.trans size),by simp only; omega,
        by simp only; omega⟩
      unfold Copy.add
      rw [if_pos earlier,wrote]
      simp only [bind]
      rw [Option.bind_some,Option.bind_some,less,rest,if_neg fits,wrote']
      exact Option.bind_some ..
  · simp only [if_neg used] at added
    split at added
    · cases added
    · rename_i enough
      cases added
      simp only [List.length_append] at room
      obtain ⟨object',wrote',text2,size2⟩ := strncatFits text read noNul (by omega)
      have rest : sizeSub copy.len optLen = copy.len - optLen := sizeSubLe (by omega) (by omega)
      have fits : ¬ ssizeT (copy.len - optLen) < 0 := ssizeTFits (by omega)
      have first : ¬ copy.len < origLen := by omega
      refine ⟨⟨object',copy.len - optLen⟩,?_,text2,size2.trans size,by simp only; omega,by simp only; omega⟩
      unfold Copy.add
      rw [if_neg first]
      simp only [bind]
      rw [Option.bind_some,rest,if_neg fits,wrote']
      exact Option.bind_some ..

/- Where an item ends: at a comma, or at the NUL of the string, which is counted. -/
inductive Ends (opt rest : Bytes) : UInt8 → Nat → Prop
  | comma : Ends opt rest comma opt.length
  | nul (last : rest = []) : Ends opt rest 0 (opt.length + 1)

theorem optTurnAdds {stop : UInt8} {nonX x : Copy} {bufNonX bufX bufNonX' bufX' : Buffer}
    (whole : original.length = origLen) (small : origLen < 2 ^ 63) (ahead : original.drop start = opt ++ stop :: rest)
    (plain : comma ∉ opt) (noNul : 0 ∉ opt) (ends : Ends opt rest stop optLen)
    (backs : nonX.Backs origLen bufNonX) (backsX : x.Backs origLen bufX)
    (added : addItem origLen bufNonX bufX opt optLen = some (bufNonX',bufX'))
    (room : bufNonX'.text.length < origLen) (roomX : bufX'.text.length < origLen) :
    ∃ nonX' x', optTurn original origLen start nonX x = some (start + optLen,true,nonX',x') ∧
      nonX'.Backs origLen bufNonX' ∧ x'.Backs origLen bufX' := by
  have long := congrArg List.length ahead
  simp only [List.length_drop,List.length_append,List.length_cons] at long
  have foreign : stop ∉ ascii "x-" := by cases ends <;> decide
  obtain ⟨cmp,compared,zero⟩ := strncmpPrefix foreign (by decide) opt rest [0] (n := min 2 (origLen - start))
    (by simp only [show (ascii "x-").length = 2 from rfl]; omega) (Nat.min_le_left ..)
  have read : strnread (original.drop start) optLen = some opt := by
    rw [ahead]
    cases ends with
    | comma => exact strnreadField noNul _
    | nul last => exact strnreadAll noNul rest (Nat.lt_succ_self _)
  have scanned : ∃ found, strchr comma (original.drop start) = some found ∧
      optEndAt origLen start found = start + optLen := by
    rw [ahead]
    cases ends with
    | comma => exact ⟨_,strchrFound plain noNul rest,rfl⟩
    | nul last =>
      cases last
      refine ⟨none,strchrNull (by decide) plain noNul [],?_⟩
      simp only [List.length_nil,optEndAt] at long ⊢
      omega
  obtain ⟨found,scan,optEnd⟩ := scanned
  rw [← ahead] at compared
  have len : start + optLen - start = optLen := Nat.add_sub_cancel_left ..
  unfold addItem at added
  by_cases third : isXOpt opt
  · rw [if_pos third] at added
    obtain ⟨buf,fits,same⟩ := Option.map_eq_some_iff.mp added
    cases same
    obtain ⟨x',did,backsX'⟩ := backsX.add small fits read noNul roomX
    refine ⟨nonX,x',?_,backs,backsX'⟩
    unfold optTurn
    rw [scan]
    simp only [bind]
    rw [Option.bind_some,optEnd,len,compared,Option.bind_some,if_pos (zero.mpr third),did,Option.bind_some]
  · rw [if_neg third] at added
    obtain ⟨buf,fits,same⟩ := Option.map_eq_some_iff.mp added
    cases same
    obtain ⟨nonX',did,backs'⟩ := backs.add small fits read noNul room
    refine ⟨nonX',x,?_,backs',backsX⟩
    unfold optTurn
    rw [scan]
    simp only [bind]
    rw [Option.bind_some,optEnd,len,compared,Option.bind_some,if_neg fun none => third (zero.mp none),did,
      Option.bind_some]

/- What is left in an output: the items as one C string, in an object of its first size. -/
def Copy.Leaves (copy : Copy) (origLen : Nat) (items : List Bytes) : Prop :=
  Terminated copy.object (kept items) ∧ copy.object.length = origLen

theorem Copy.Backs.leaves {copy : Copy} {buf : Buffer} {items : List Bytes} (backs : copy.Backs origLen buf)
    (text : buf.text = kept items) : copy.Leaves origLen items :=
  ⟨text ▸ backs.text,backs.size⟩

/- The loop from the start of an item. By induction over the items ahead; the copies back the
buffers that hold those already seen. -/
theorem optTurnsCopy {nonX x : Copy} {bufNonX bufX : Buffer} {seen items : List Bytes} {turns : Nat}
    (whole : original.length = origLen) (small : origLen < 2 ^ 63) (more : items ≠ [])
    (ahead : original.drop start = joined comma items ++ [0]) (plain : ∀ item ∈ items, comma ∉ item ∧ 0 ∉ item)
    (backs : nonX.Backs origLen bufNonX) (backsX : x.Backs origLen bufX)
    (holds : Holds origLen bufNonX (nonXItems seen)) (holdsX : Holds origLen bufX (xItems seen))
    (room : (joined comma (seen ++ items)).length < origLen) (enough : items.length < turns) :
    ∃ nonX' x', optTurns original origLen turns start nonX x = .ok (0,nonX',x') ∧
      nonX'.Leaves origLen (nonXItems (seen ++ items)) ∧ x'.Leaves origLen (xItems (seen ++ items)) := by
  induction items generalizing start nonX x bufNonX bufX seen turns with
  | nil => exact absurd rfl more
  | cons opt rest ih =>
    obtain ⟨turns,rfl⟩ := Nat.exists_eq_succ_of_ne_zero (Nat.ne_zero_of_lt enough)
    obtain ⟨noComma,noNul⟩ := plain opt List.mem_cons_self
    have long := congrArg List.length ahead
    simp only [List.length_drop,List.length_append,List.length_singleton] at long
    have here : start < origLen := by omega
    cases rest with
    | nil =>
      have single : joined comma [opt] = opt := rfl
      rw [single] at ahead long
      obtain ⟨bufNonX',bufX',added,text,textX⟩ := addItemLast holds holdsX room
      have fits := (keptFilter (seen ++ [opt]) (fun opt => !isXOpt opt)).trans_lt room
      have fitsX := (keptFilter (seen ++ [opt]) isXOpt).trans_lt room
      obtain ⟨nonX',x',turned,left,leftX⟩ := optTurnAdds whole small ahead noComma noNul (.nul rfl) backs backsX added
        (text ▸ fits) (textX ▸ fitsX)
      refine ⟨nonX',x',?_,left.leaves text,leftX.leaves textX⟩
      obtain ⟨turns,rfl⟩ :=
        Nat.exists_eq_succ_of_ne_zero (show turns ≠ 0 by simp only [List.length_singleton] at enough; omega)
      have done : ¬ start + (opt.length + 1) + 1 < origLen := by omega
      simp only [optTurns,if_pos here,turned,if_neg done]
    | cons next rest =>
      have regroup : seen ++ opt :: next :: rest = seen ++ [opt] ++ (next :: rest) := by simp
      have shorter : (joined comma (seen ++ [opt])).length < origLen := by
        have part : (seen ++ [opt]).Sublist (seen ++ opt :: next :: rest) :=
          List.Sublist.append_left (by simp) seen
        exact (joinedSublist comma part).trans_lt room
      obtain ⟨bufNonX',bufX',added,holds',holdsX'⟩ := addItemHolds holds holdsX shorter.le
      have fits := (keptFilter (seen ++ [opt]) (fun opt => !isXOpt opt)).trans_lt shorter
      have fitsX := (keptFilter (seen ++ [opt]) isXOpt).trans_lt shorter
      rw [joinedCons comma opt (by simp),List.append_assoc,List.cons_append] at ahead
      obtain ⟨nonX',x',turned,left,leftX⟩ := optTurnAdds whole small ahead noComma noNul .comma backs backsX added
        (holds'.text ▸ fits) (holdsX'.text ▸ fitsX)
      have onward : original.drop (start + opt.length + 1) = joined comma (next :: rest) ++ [0] := by
        rw [Nat.add_assoc,← List.drop_drop,ahead,← List.drop_drop,List.drop_left,List.drop_one,List.tail_cons]
      rw [regroup] at room ⊢
      obtain ⟨last,lastX,looped,ends⟩ :=
        ih (by simp) onward (fun item inside => plain item (List.mem_cons_of_mem _ inside))
        left leftX holds' holdsX' room (Nat.lt_of_succ_lt_succ enough)
      refine ⟨last,lastX,?_,ends⟩
      simp only [optTurns,if_pos here,turned]
      exact looped

def itemsOf (text : Bytes) : List Bytes := if text = [] then [] else split comma text

theorem itemsOfKept {items : List Bytes} (plain : ∀ item ∈ items, comma ∉ item) :
    itemsOf (kept items) = items.dropWhile (fun item => item.isEmpty) := by
  have part : ∀ item ∈ items.dropWhile (fun item => item.isEmpty), comma ∉ item :=
    fun item inside => plain item ((List.dropWhile_sublist _).subset inside)
  have front := List.head?_dropWhile_not (fun item : Bytes => item.isEmpty) items
  unfold itemsOf kept
  cases rest : items.dropWhile (fun item => item.isEmpty) with
  | nil => exact if_pos rfl
  | cons item later =>
    rw [rest] at part front
    have full : joined comma (item :: later) ≠ [] := by
      intro empty
      cases item with
      | nil => simp at front
      | cons b item => cases later <;> simp [joined] at empty
    rw [if_neg full,splitPlainJoined (by simp) part]

theorem xItemsOfKept {items : List Bytes} (plain : ∀ item ∈ items, comma ∉ item) :
    itemsOf (kept (xItems items)) = xItems items := by
  have plainX : ∀ item ∈ xItems items, comma ∉ item := fun item inside => plain item (List.mem_filter.mp inside).1
  rw [itemsOfKept plainX]
  cases kept : xItems items with
  | nil => rfl
  | cons item later =>
    have third : isXOpt item = true :=
      (List.mem_filter.mp (show item ∈ xItems items by rw [kept]; exact List.mem_cons_self)).2
    refine List.dropWhile_cons_of_neg ?_
    intro empty
    rw [List.isEmpty_iff.mp empty] at third
    cases third

theorem splitItems {s : Bytes} (noNul : 0 ∉ s) :
    (∀ item ∈ split comma s, comma ∉ item ∧ 0 ∉ item) ∧ (split comma s).length ≤ s.length + 1 := by
  constructor
  · intro item inside
    refine ⟨splitPlain comma s item inside,fun nul => noNul ?_⟩
    rw [← joinedSplit comma s]
    exact joinedMem comma inside nul
  · have sums := joinedLength comma (splitNe comma s)
    rw [joinedSplit] at sums
    rw [sums,← List.length_map (fun field : Bytes => field.length + 1)]
    apply List.length_le_sum_of_one_le
    intro n inside
    obtain ⟨field,_,rfl⟩ := List.mem_map.mp inside
    exact Nat.le_add_left ..

theorem callocBacks {granted : Bool} {object : Bytes} (found : calloc granted origLen = some object)
    (nonempty : 0 < origLen) :
    origLen < 2 ^ 63 ∧ Copy.Backs ⟨object,origLen⟩ origLen ⟨[],origLen⟩ := by
  unfold calloc at found
  split at found
  · rename_i room
    cases found
    simp only [Bool.and_eq_true,decide_eq_true_eq] at room
    obtain ⟨n,rfl⟩ := Nat.exists_eq_succ_of_ne_zero (Nat.ne_of_gt nonempty)
    exact ⟨room.2,⟨List.not_mem_nil,_,List.replicate_succ⟩,List.length_replicate,rfl,Nat.le_refl _⟩
  · cases found

/- Both callocs find memory: no access leaves its object, the loop ends, and the items of the
option string are parted between the two outputs, but for empty ones in front of non_x_opts. -/
theorem extractXOptionsParts {s nonXOpts xOpts : Bytes} {first second : Bool} {turns : Nat} (noNul : 0 ∉ s)
    (found : calloc first (s.length + 1) = some nonXOpts) (foundX : calloc second (s.length + 1) = some xOpts)
    (enough : s.length + 1 < turns) :
    ∃ nonX x text textX, extractXOptionsBytes turns first second (s ++ [0]) = .ok ⟨0,some nonX,some x⟩ ∧
      nonX.length = s.length + 1 ∧ x.length = s.length + 1 ∧ Terminated nonX text ∧ Terminated x textX ∧
      itemsOf textX = xItems (split comma s) ∧
      ∃ dropped, (∀ item ∈ dropped, item = []) ∧ nonXItems (split comma s) = dropped ++ itemsOf text := by
  obtain ⟨small,backs⟩ := callocBacks found (Nat.succ_pos _)
  obtain ⟨_,backsX⟩ := callocBacks foundX (Nat.succ_pos _)
  obtain ⟨plain,few⟩ := splitItems noNul
  have room : (joined comma ([] ++ split comma s)).length < s.length + 1 := by
    simp [joinedSplit]
  have whole : (s ++ [0]).drop 0 = joined comma (split comma s) ++ [0] := by rw [joinedSplit,List.drop_zero]
  obtain ⟨nonX,x,looped,left,leftX⟩ := optTurnsCopy (by simp) small (splitNe comma s) whole plain backs backsX
    (emptyHolds _) (emptyHolds _) room (Nat.lt_of_le_of_lt few enough)
  rw [List.nil_append] at left leftX
  have noComma : ∀ item ∈ split comma s, comma ∉ item := fun item inside => (plain item inside).1
  refine ⟨nonX.object,x.object,_,_,?_,left.2,leftX.2,left.1,leftX.1,xItemsOfKept noComma,
    (nonXItems (split comma s)).takeWhile (fun item => item.isEmpty),?_,?_⟩
  · simp only [extractXOptionsBytes,strlenText noNul,found,foundX,looped]
    rfl
  · intro item inside
    exact List.isEmpty_iff.mp (List.mem_takeWhile_imp inside)
  · have plainNonX : ∀ item ∈ nonXItems (split comma s), comma ∉ item :=
      fun item inside => noComma item (List.mem_filter.mp inside).1
    rw [itemsOfKept plainNonX]
    exact (List.takeWhile_append_dropWhile ..).symm

theorem mixedParts :
    calloc true 18 = some (List.replicate 18 0) ∧
    ∃ nonX x text textX, extractXOptionsBytes 19 true true (ascii ",,ro,x-a,,x-bc,x," ++ [0]) = .ok
      ⟨0,some nonX,some x⟩ ∧
      nonX.length = 18 ∧ x.length = 18 ∧ Terminated nonX text ∧ Terminated x textX ∧
      itemsOf textX = [ascii "x-a",ascii "x-bc"] ∧
      ∃ dropped, (∀ item ∈ dropped, item = []) ∧
        [[],[],ascii "ro",[],ascii "x",[]] = dropped ++ itemsOf text :=
  ⟨rfl,extractXOptionsParts (s := ascii ",,ro,x-a,,x-bc,x,") (by decide +kernel)
    (show calloc true 18 = some (List.replicate 18 0) from rfl)
    (show calloc true 18 = some (List.replicate 18 0) from rfl)
    (by decide +kernel)⟩

end FuseStudy.XOptions
