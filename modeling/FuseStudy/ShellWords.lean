import FuseStudy.CString

/-! How a shell takes a line of quoted words apart. -/
namespace FuseStudy.ShellWords
open CString (Bytes)

def blank (b : UInt8) : Bool := b = 32 || b = 9

def quote : UInt8 := 39

def backslash : UInt8 := 92

/- Where the reader stands: between two words, in one, behind an opening quote or behind a backslash. -/
inductive Place
  | between
  | word
  | quoted
  | escaped
  deriving DecidableEq, Repr

/- `word` is what was read of a word. Outside of quotes there may be blanks, quotes and backslashes only:
any other byte may mean something to the shell, or may make a word a keyword, an alias or an assignment. -/
def scan : Place → Bytes → Bytes → Option (List Bytes)
  | .between,_,[] => some []
  | .word,word,[] => some [word]
  | _,_,[] => none
  | .between,_,b :: rest =>
    if blank b then scan .between [] rest
    else if b = quote then scan .quoted [] rest
    else if b = backslash then scan .escaped [] rest
    else none
  | .word,word,b :: rest =>
    if blank b then (scan .between [] rest).map (word :: ·)
    else if b = quote then scan .quoted word rest
    else if b = backslash then scan .escaped word rest
    else none
  | .quoted,word,b :: rest => if b = quote then scan .word word rest else scan .quoted (word ++ [b]) rest
  -- a backslash before a newline continues the line
  | .escaped,word,b :: rest => if b = 10 then none else scan .word (word ++ [b]) rest

def words (line : Bytes) : Option (List Bytes) := scan .between [] line

/-! A word in single quotes, each quote of its own outside of them behind a backslash. -/

def escape (text : Bytes) : Bytes := text.flatMap fun b => if b = quote then [quote,backslash,quote,quote] else [b]

def quoteWord (text : Bytes) : Bytes := quote :: escape text ++ [quote]

theorem escapeCons (b : UInt8) (text : Bytes) :
    escape (b :: text) = (if b = quote then [quote,backslash,quote,quote] else [b]) ++ escape text :=
  List.flatMap_cons

theorem escapeLength (text : Bytes) : (escape text).length ≤ text.length * 4 := by
  induction text with
  | nil => exact Nat.le_refl _
  | cons b text ih =>
    rw [escapeCons,List.length_append,List.length_cons]
    split
    · simp only [List.length_cons,List.length_nil]
      omega
    · simp only [List.length_cons,List.length_nil]
      omega

theorem scanEscaped (text word rest : Bytes) :
    scan .quoted word (escape text ++ rest) = scan .quoted (word ++ text) rest := by
  induction text generalizing word with
  | nil => rw [List.append_nil]; rfl
  | cons b text ih =>
    rw [escapeCons,List.append_assoc]
    by_cases same : b = quote
    · subst same
      have back : scan .quoted word ([quote,backslash,quote,quote] ++ (escape text ++ rest)) =
          scan .quoted (word ++ [quote]) (escape text ++ rest) := by
        simp [scan,quote,backslash,blank]
      rw [if_pos rfl,back,ih,List.append_assoc]
      rfl
    · rw [if_neg same,List.singleton_append,scan,if_neg same,ih,List.append_assoc]
      rfl

theorem scanQuoted (text rest : Bytes) : scan .between [] (quoteWord text ++ rest) = scan .word text rest := by
  have opened : scan .between [] (quote :: (escape text ++ (quote :: rest))) = scan .quoted []
      (escape text ++ (quote :: rest)) := by
    simp [scan,quote,blank]
  rw [quoteWord,List.append_assoc,List.cons_append,List.singleton_append,opened,scanEscaped,List.nil_append,
    scan,if_pos rfl]

theorem wordsQuoted (texts : List Bytes) : words (CString.joined 32 (texts.map quoteWord)) = some texts := by
  induction texts with
  | nil => rfl
  | cons text texts ih =>
    cases texts with
    | nil =>
      have alone := scanQuoted text []
      rw [List.append_nil] at alone
      exact alone
    | cons next rest =>
      rw [List.map_cons,CString.joinedCons 32 _ (by simp),words,scanQuoted,scan,if_pos (by decide)]
      rw [words] at ih
      rw [ih]
      rfl

end FuseStudy.ShellWords
