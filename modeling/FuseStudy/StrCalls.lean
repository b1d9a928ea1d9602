import FuseStudy.CString

/-! The functions of string.h over objects of the memory. An object is the list of its
bytes, a pointer into it a suffix of the list; none is an access behind its last byte. -/
namespace FuseStudy.StrCalls
open CString (Bytes)

def strlen : Bytes → Option Nat
  | [] => none
  | b :: rest => if b = 0 then some 0 else (strlen rest).map (· + 1)

/- The inner none is NULL. The NUL itself is compared with c, too. -/
def strchr (c : UInt8) : Bytes → Option (Option Nat)
  | [] => none
  | b :: rest =>
    if b = c then some (some 0)
    else if b = 0 then some none
    else (strchr c rest).map (Option.map (· + 1))

def strncmp : Bytes → Bytes → Nat → Option Int
  | _, _, 0 => some 0
  | a :: s, b :: t, n+1 =>
    if a ≠ b then some (a.toNat - b.toNat) else if a = 0 then some 0 else strncmp s t n
  | _, _, _+1 => none

/- The bytes before the NUL, n at most, and no byte behind them is read. -/
def strnread : Bytes → Nat → Option Bytes
  | _, 0 => some []
  | [], _+1 => none
  | b :: rest, n+1 => if b = 0 then some [] else (strnread rest n).map (b :: ·)

def overwrite (object : Bytes) (i : Nat) (bytes : Bytes) : Option Bytes :=
  if i + bytes.length ≤ object.length then
    some (object.take i ++ bytes ++ object.drop (i + bytes.length))
  else none

def strncat (dest src : Bytes) (n : Nat) : Option Bytes := do
  let i ← strlen dest
  let bytes ← strnread src n
  overwrite dest i (bytes ++ [0])

def Terminated (object text : Bytes) : Prop := 0 ∉ text ∧ ∃ pad, object = text ++ 0 :: pad

theorem strlenText {text : Bytes} (noNul : 0 ∉ text) (pad : Bytes) :
    strlen (text ++ 0 :: pad) = some text.length := by
  induction text with
  | nil => rfl
  | cons b text ih =>
    obtain ⟨first,later⟩ := not_or.mp (mt List.mem_cons.mpr noNul)
    rw [List.cons_append,strlen,if_neg (Ne.symm first),ih later]
    rfl

theorem strchrFound {c : UInt8} {field : Bytes} (plain : c ∉ field) (noNul : 0 ∉ field) (rest : Bytes) :
    strchr c (field ++ c :: rest) = some (some field.length) := by
  induction field with
  | nil => simp [strchr]
  | cons b field ih =>
    obtain ⟨first,later⟩ := not_or.mp (mt List.mem_cons.mpr plain)
    obtain ⟨ends,laterEnds⟩ := not_or.mp (mt List.mem_cons.mpr noNul)
    rw [List.cons_append,strchr,if_neg (Ne.symm first),if_neg (Ne.symm ends),ih later laterEnds]
    rfl

theorem strchrNull {c : UInt8} (visible : c ≠ 0) {field : Bytes} (plain : c ∉ field) (noNul : 0 ∉ field)
    (rest : Bytes) : strchr c (field ++ 0 :: rest) = some none := by
  induction field with
  | nil => simp [strchr,Ne.symm visible]
  | cons b field ih =>
    obtain ⟨first,later⟩ := not_or.mp (mt List.mem_cons.mpr plain)
    obtain ⟨ends,laterEnds⟩ := not_or.mp (mt List.mem_cons.mpr noNul)
    rw [List.cons_append,strchr,if_neg (Ne.symm first),if_neg (Ne.symm ends),ih later laterEnds]
    rfl

theorem strncmpPrefix {pattern : Bytes} {stop : UInt8} (foreign : stop ∉ pattern) (noNul : 0 ∉ pattern)
    (field rest tail : Bytes) {n : Nat} (least : min pattern.length (field.length + 1) ≤ n)
    (most : n ≤ pattern.length) :
    ∃ d, strncmp (field ++ stop :: rest) (pattern ++ tail) n = some d ∧
      (d = 0 ↔ pattern.isPrefixOf field = true) := by
  induction pattern generalizing field n with
  | nil =>
    cases Nat.le_zero.mp most
    exact ⟨0,by rw [strncmp],by simp⟩
  | cons p pattern ih =>
    obtain ⟨first,later⟩ := not_or.mp (mt List.mem_cons.mpr foreign)
    obtain ⟨ends,laterEnds⟩ := not_or.mp (mt List.mem_cons.mpr noNul)
    cases n with
    | zero => simp at least
    | succ n =>
      cases field with
      | nil =>
        rw [List.nil_append,List.cons_append,strncmp,if_pos first]
        refine ⟨_,rfl,iff_of_false ?_ (by simp)⟩
        intro same
        exact first (UInt8.toNat_inj.mp (by omega))
      | cons b field =>
        rw [List.cons_append,List.cons_append,strncmp]
        by_cases same : b = p
        · cases same
          rw [if_neg (by simp),if_neg (Ne.symm ends)]
          simp only [List.length_cons] at least most
          obtain ⟨d,cmp,zero⟩ := ih later laterEnds field (n := n) (by omega) (by omega)
          exact ⟨d,cmp,by simp [zero]⟩
        · rw [if_pos same]
          refine ⟨_,rfl,iff_of_false ?_ (by simp [Ne.symm same])⟩
          intro equal
          exact same (UInt8.toNat_inj.mp (by omega))

theorem strnreadField {field : Bytes} (noNul : 0 ∉ field) (rest : Bytes) :
    strnread (field ++ rest) field.length = some field := by
  induction field with
  | nil => cases rest <;> rfl
  | cons b field ih =>
    obtain ⟨first,later⟩ := not_or.mp (mt List.mem_cons.mpr noNul)
    rw [List.cons_append,List.length_cons,strnread,if_neg (Ne.symm first),ih later]
    rfl

theorem strnreadAll {field : Bytes} (noNul : 0 ∉ field) (rest : Bytes) {n : Nat} (long : field.length < n) :
    strnread (field ++ 0 :: rest) n = some field := by
  induction field generalizing n with
  | nil =>
    cases n with
    | zero => cases long
    | succ n => rfl
  | cons b field ih =>
    obtain ⟨first,later⟩ := not_or.mp (mt List.mem_cons.mpr noNul)
    cases n with
    | zero => cases long
    | succ n =>
      rw [List.cons_append,strnread,if_neg (Ne.symm first),ih later (Nat.lt_of_succ_lt_succ long)]
      rfl

theorem strncatFits {object text src bytes : Bytes} {n : Nat} (held : Terminated object text)
    (read : strnread src n = some bytes) (noNul : 0 ∉ bytes)
    (room : text.length + bytes.length < object.length) :
    ∃ object', strncat object src n = some object' ∧ Terminated object' (text ++ bytes) ∧
      object'.length = object.length := by
  obtain ⟨plain,pad,rfl⟩ := held
  have fits : text.length + (bytes ++ [0]).length ≤ (text ++ 0 :: pad).length := by
    rw [List.length_append,List.length_singleton]
    omega
  have wrote : strncat (text ++ 0 :: pad) src n =
      some (text ++ bytes ++ 0 :: (text ++ 0 :: pad).drop (text.length + (bytes ++ [0]).length)) := by
    simp only [strncat,strlenText plain,read,Option.bind_eq_bind,Option.bind_some,overwrite,if_pos fits,
      List.take_left',List.append_assoc,List.cons_append,List.nil_append]
  refine ⟨_,wrote,⟨?_,_,rfl⟩,?_⟩
  · rw [List.mem_append]
    exact not_or.mpr ⟨plain,noNul⟩
  · simp only [List.length_append,List.length_cons,List.length_drop,List.length_nil] at room fits ⊢
    omega

end FuseStudy.StrCalls
