import FuseStudy.DoMount
import Mathlib.Data.List.TakeWhile

/-! extract_x_options of util/fusermount.c: one pass over the comma separated items of
the option string, each copied behind those already in one of two buffers. The loop
knows nothing of escapes: every comma ends an item. -/
namespace FuseStudy.XOptions
open CString
open DoMount (comma)

structure Buffer where
  text : Bytes
  left : Int
  deriving DecidableEq, Repr

/- strncat of one item. A comma goes first when the buffer has been used; optLen counts
the terminating NUL for the last item. -/
def Buffer.add (buf : Buffer) (origLen : Nat) (opt : Bytes) (optLen : Nat) : Option Buffer :=
  let buf := if buf.left < origLen then ⟨buf.text ++ [comma],buf.left - 1⟩ else buf
  if buf.left - optLen < 0 then none else some ⟨buf.text ++ opt,buf.left - optLen⟩

def isXOpt (opt : Bytes) : Bool := (ascii "x-").isPrefixOf opt

def addItem (origLen : Nat) (nonX x : Buffer) (opt : Bytes) (optLen : Nat) : Option (Buffer × Buffer) :=
  if isXOpt opt then (x.add origLen opt optLen).map (fun x => (nonX,x))
  else (nonX.add origLen opt optLen).map (fun nonX => (nonX,x))

/- Over what lies between the commas. The end of the last item is one past the NUL. -/
def extractLoop (origLen : Nat) (nonX x : Buffer) : List Bytes → Option (Buffer × Buffer)
  | [] => some (nonX,x)
  | [opt] => addItem origLen nonX x opt (opt.length + 1)
  | opt :: next :: rest =>
    match addItem origLen nonX x opt opt.length with
    | none => none
    | some (nonX,x) => extractLoop origLen nonX x (next :: rest)

/- The texts of non_x_opts and x_opts; none is the return of -EIO. -/
def extractXOptions (original : Bytes) : Option (Bytes × Bytes) :=
  let origLen := original.length + 1
  (extractLoop origLen ⟨[],origLen⟩ ⟨[],origLen⟩ (split comma original)).map
    (fun (nonX,x) => (nonX.text,x.text))

/- Empty items in front of the first used one leave no trace: the buffer still counts as
unused. -/
def kept (items : List Bytes) : Bytes := joined comma (items.dropWhile (fun item => item.isEmpty))

/- What a buffer holds after the items routed to it, when none of them was the last of
the input. -/
structure Holds (origLen : Nat) (buf : Buffer) (items : List Bytes) : Prop where
  text : buf.text = kept items
  left : buf.left = origLen - buf.text.length
  used : buf.left < origLen ↔ items.dropWhile (fun item => item.isEmpty) ≠ []

theorem keptSnocEmpty {items : List Bytes} (unused : items.dropWhile (fun item => item.isEmpty) = [])
    (opt : Bytes) : kept (items ++ [opt]) = opt := by
  have empty : ∀ item ∈ items, item.isEmpty := List.dropWhile_eq_nil_iff.mp unused
  unfold kept
  rw [List.dropWhile_append_of_pos empty]
  cases opt with
  | nil => rfl
  | cons b opt => rfl

theorem keptSnoc {items : List Bytes} (used : items.dropWhile (fun item => item.isEmpty) ≠ [])
    (opt : Bytes) : kept (items ++ [opt]) = kept items ++ [comma] ++ opt := by
  unfold kept
  have grows : (items ++ [opt]).dropWhile (fun item => item.isEmpty) =
      items.dropWhile (fun item => item.isEmpty) ++ [opt] := by
    rw [List.dropWhile_append]
    cases rest : items.dropWhile (fun item => item.isEmpty) with
    | nil => exact absurd rest used
    | cons => rfl
  rw [grows,joinedAppend comma used (by simp)]
  simp [joined]

theorem usedSnoc (items : List Bytes) (opt : Bytes) :
    (items ++ [opt]).dropWhile (fun item => item.isEmpty) ≠ [] ↔
      items.dropWhile (fun item => item.isEmpty) ≠ [] ∨ opt ≠ [] := by
  simp only [ne_eq,List.dropWhile_eq_nil_iff,List.mem_append,List.mem_singleton]
  constructor
  · intro some
    by_cases empty : opt = []
    · left
      intro all
      exact some (fun item mem => mem.elim (all item) (fun same => by simp [same,empty]))
    · exact Or.inr empty
  · rintro (some | full) all
    · exact some (fun item mem => all item (Or.inl mem))
    · exact full (List.isEmpty_iff.mp (all opt (Or.inr rfl)))

theorem Holds.add {origLen : Nat} {buf : Buffer} {items : List Bytes} (h : Holds origLen buf items)
    {opt : Bytes} (room : (kept (items ++ [opt])).length ≤ origLen) :
    ∃ buf', buf.add origLen opt opt.length = some buf' ∧ Holds origLen buf' (items ++ [opt]) := by
  unfold Buffer.add
  by_cases used : items.dropWhile (fun item => item.isEmpty) = []
  · have unused : ¬ buf.left < origLen := by rw [h.used]; exact fun more => more used
    have empty : buf.text = [] := by rw [h.text,kept,used]; rfl
    have full : buf.left = origLen := by rw [h.left,empty]; simp
    have text := keptSnocEmpty used opt
    rw [text] at room
    simp only [if_neg unused]
    rw [if_neg (by omega)]
    refine ⟨_,rfl,by simp [empty,text],by simp [empty,full],?_⟩
    rw [usedSnoc]
    simp only [used,ne_eq,not_true_eq_false,false_or,full,← List.length_eq_zero_iff (l := opt)]
    omega
  · have before : buf.left < origLen := h.used.mpr used
    have text := keptSnoc used opt
    have size := congrArg List.length text
    rw [← h.text] at size text
    simp only [List.length_append,List.length_singleton] at size
    have left := h.left
    simp only [if_pos before]
    rw [if_neg (by omega)]
    refine ⟨_,rfl,by simp [text],by simp only [List.length_append,List.length_singleton]; omega,?_⟩
    rw [usedSnoc]
    exact ⟨fun _ => Or.inl used,fun _ => by simp only; omega⟩

theorem Holds.last {origLen : Nat} {buf : Buffer} {items : List Bytes} (h : Holds origLen buf items)
    {opt : Bytes} (room : (kept (items ++ [opt])).length < origLen) :
    ∃ buf', buf.add origLen opt (opt.length + 1) = some buf' ∧ buf'.text = kept (items ++ [opt]) := by
  obtain ⟨after,added,holds⟩ := h.add (Nat.le_of_lt room)
  have text := holds.text
  have left := holds.left
  unfold Buffer.add at added ⊢
  generalize (if buf.left < origLen then ⟨buf.text ++ [comma],buf.left - 1⟩ else buf : Buffer) = started at *
  simp only at added ⊢
  split at added
  · contradiction
  · cases Option.some.inj added
    simp only at text left
    rw [if_neg (by rw [text] at left; push_cast; omega)]
    exact ⟨_,rfl,text⟩

/- The items on one side never need more than the input had. -/
theorem keptFilter (items : List Bytes) (side : Bytes → Bool) :
    (kept (items.filter side)).length ≤ (joined comma items).length :=
  joinedSublist comma ((List.dropWhile_sublist _).trans List.filter_sublist)

def nonXItems (items : List Bytes) : List Bytes := items.filter (fun opt => !isXOpt opt)
def xItems (items : List Bytes) : List Bytes := items.filter isXOpt

theorem addItemHolds {origLen : Nat} {nonX x : Buffer} {seen : List Bytes} {opt : Bytes}
    (holds : Holds origLen nonX (nonXItems seen)) (holdsX : Holds origLen x (xItems seen))
    (room : (joined comma (seen ++ [opt])).length ≤ origLen) :
    ∃ nonX' x', addItem origLen nonX x opt opt.length = some (nonX',x') ∧
      Holds origLen nonX' (nonXItems (seen ++ [opt])) ∧ Holds origLen x' (xItems (seen ++ [opt])) := by
  have roomNonX := (keptFilter (seen ++ [opt]) (fun opt => !isXOpt opt)).trans room
  have roomX := (keptFilter (seen ++ [opt]) isXOpt).trans room
  unfold addItem nonXItems xItems at *
  simp only [List.filter_append,List.filter_cons,List.filter_nil] at *
  by_cases third : isXOpt opt
  · simp only [third,Bool.not_true,Bool.false_eq_true,if_true,if_false,List.append_nil] at *
    obtain ⟨x',added,after⟩ := holdsX.add roomX
    exact ⟨nonX,x',by rw [added]; rfl,holds,after⟩
  · simp only [third,Bool.not_false,Bool.false_eq_true,if_true,if_false,List.append_nil] at *
    obtain ⟨nonX',added,after⟩ := holds.add roomNonX
    exact ⟨nonX',x,by rw [added]; rfl,after,holdsX⟩

theorem addItemLast {origLen : Nat} {nonX x : Buffer} {seen : List Bytes} {opt : Bytes}
    (holds : Holds origLen nonX (nonXItems seen)) (holdsX : Holds origLen x (xItems seen))
    (room : (joined comma (seen ++ [opt])).length < origLen) :
    ∃ nonX' x', addItem origLen nonX x opt (opt.length + 1) = some (nonX',x') ∧
      nonX'.text = kept (nonXItems (seen ++ [opt])) ∧ x'.text = kept (xItems (seen ++ [opt])) := by
  have roomNonX := (keptFilter (seen ++ [opt]) (fun opt => !isXOpt opt)).trans_lt room
  have roomX := (keptFilter (seen ++ [opt]) isXOpt).trans_lt room
  unfold addItem nonXItems xItems at *
  simp only [List.filter_append,List.filter_cons,List.filter_nil] at *
  by_cases third : isXOpt opt
  · simp only [third,Bool.not_true,Bool.false_eq_true,if_true,if_false,List.append_nil] at *
    obtain ⟨x',added,text⟩ := holdsX.last roomX
    exact ⟨nonX,x',by rw [added]; rfl,holds.text,text⟩
  · simp only [third,Bool.not_false,Bool.false_eq_true,if_true,if_false,List.append_nil] at *
    obtain ⟨nonX',added,text⟩ := holds.last roomNonX
    exact ⟨nonX',x,by rw [added]; rfl,text,holdsX.text⟩

/- By induction over the items still to come; seen are those already routed. -/
theorem extractLoopSpec {origLen : Nat} {nonX x : Buffer} {seen items : List Bytes} (more : items ≠ [])
    (holds : Holds origLen nonX (nonXItems seen)) (holdsX : Holds origLen x (xItems seen))
    (room : (joined comma (seen ++ items)).length < origLen) :
    ∃ nonX' x', extractLoop origLen nonX x items = some (nonX',x') ∧
      nonX'.text = kept (nonXItems (seen ++ items)) ∧ x'.text = kept (xItems (seen ++ items)) := by
  induction items generalizing nonX x seen with
  | nil => exact absurd rfl more
  | cons opt rest ih =>
    cases rest with
    | nil => exact addItemLast holds holdsX room
    | cons next rest =>
      have enough : (joined comma (seen ++ [opt])).length ≤ origLen := by
        have part : (seen ++ [opt]).Sublist (seen ++ opt :: next :: rest) :=
          List.Sublist.append_left (by simp) seen
        exact ((joinedSublist comma part).trans_lt room).le
      obtain ⟨nonX1,x1,added,holds1,holdsX1⟩ := addItemHolds holds holdsX enough
      have regroup : seen ++ opt :: next :: rest = seen ++ [opt] ++ (next :: rest) := by simp
      rw [regroup] at room ⊢
      simp only [extractLoop,added]
      exact ih (by simp) holds1 holdsX1 room

theorem emptyHolds (origLen : Nat) : Holds origLen ⟨[],origLen⟩ [] :=
  ⟨rfl,by simp,by simp⟩

theorem extractXOptionsSpec (original : Bytes) :
    extractXOptions original =
      some (kept (nonXItems (split comma original)),kept (xItems (split comma original))) := by
  have room : (joined comma ([] ++ split comma original)).length < original.length + 1 := by
    simp [joinedSplit]
  obtain ⟨nonX,x,looped,text,textX⟩ := extractLoopSpec (splitNe comma original)
    (emptyHolds _) (emptyHolds _) room
  simp only [extractXOptions,looped,Option.map_some,text,textX,List.nil_append]

end FuseStudy.XOptions
