import Mathlib.Data.List.Induction
import FuseStudy.FuseOpt

/-! fuse_opt_parse without templates and without a processing function brings an argument
vector into a normal form: one group of options, then the other arguments. -/
namespace FuseStudy.FuseOpt
open CString
open DoMount (comma backslash)
open KernMount (addOptCommon escaped)

variable {δ : Type}

/- The options of a group as process_gopt gets them, d standing before the rest. -/
@[grind =]
def decode : Nat → Bytes → Bytes → List Bytes
  | _, d, [] => [upToNul d]
  | skip+1, d, _ :: s => decode skip d s
  | 0, d, b :: s =>
    if b = comma then upToNul d :: decode 0 [] s
    else
      let (c,skip) := if b = backslash then unescaped s else (b,0)
      decode skip (d ++ [c]) s

def options (group : Bytes) : List Bytes := decode 0 [] group

/- Leading empty options leave no trace, unless there is nothing else. -/
@[grind =]
def dropLeading : List Bytes → List Bytes
  | [] :: next :: rest => dropLeading (next :: rest)
  | opts => opts

def groupText (opts : List Bytes) : Bytes := joined comma ((dropLeading opts).map escaped)

/- The arguments after the first, sorted: groups of options, others, and what follows the
separator if there is one. -/
structure Sorted where
  groups : List Bytes
  plain : List Bytes
  rest : Option (List Bytes)
  deriving DecidableEq

def IsGroup (arg : Bytes) : Prop := arg[0]? = some dash ∧ arg[1]? = some 111

instance : DecidablePred IsGroup := fun _ => inferInstanceAs (Decidable (_ ∧ _))

@[grind =]
def sorted : List Bytes → Option Sorted
  | [] => some ⟨[],[],none⟩
  | arg :: args =>
    if IsGroup arg then
      if arg[2]? ≠ none then (sorted args).map (fun s => {s with groups := arg.drop 2 :: s.groups})
      else match args with
        | [] => none
        | group :: args => (sorted args).map (fun s => {s with groups := group :: s.groups})
    else if arg = dashDash then some ⟨[],[],some args⟩
    else (sorted args).map (fun s => {s with plain := arg :: s.plain})

def Sorted.options (s : Sorted) : List Bytes := s.groups.flatMap FuseOpt.options

/- The separator is kept if anything follows it or a group comes before it. -/
def Sorted.others (s : Sorted) : List Bytes := s.plain ++ match s.rest with
  | none => []
  | some rest => if rest = [] ∧ s.groups = [] then [] else dashDash :: rest

def Sorted.normal (s : Sorted) (first : Bytes) : List Bytes :=
  first :: (if s.groups = [] then [] else [dashO,groupText s.options]) ++ s.others

/-! Taking a group apart undoes putting it together. -/

theorem decodeSkip (skip : Nat) (d s : Bytes) : decode skip d s = decode 0 d (s.drop skip) := by
  induction skip generalizing s with
  | zero => rfl
  | succ skip ih =>
    cases s with
    | nil => rfl
    | cons b s => exact ih s

theorem decodeEscaped (d opt s : Bytes) : decode 0 d (escaped opt ++ s) = decode 0 (d ++ opt) s := by
  induction opt generalizing d with
  | nil => simp [escaped]
  | cons b opt ih =>
    have step : escaped (b :: opt) = (if b = comma ∨ b = backslash then [backslash,b] else [b]) ++ escaped opt := rfl
    have later := ih (d ++ [b])
    rw [List.append_assoc,List.singleton_append] at later
    rw [step,List.append_assoc]
    by_cases special : b = comma ∨ b = backslash
    · have literal : unescaped (b :: (escaped opt ++ s)) = (b,1) := by
        have digit : ∀ x y, octal b x y = false := by
          intro x y
          rcases special with rfl | rfl <;> rfl
        cases escaped opt ++ s with
        | nil => rfl
        | cons x more =>
          cases more with
          | nil => rfl
          | cons y last => simp only [unescaped,digit,Bool.false_eq_true,if_false]
      have other : backslash ≠ comma := by decide
      rw [if_pos special]
      simp only [List.cons_append,List.nil_append,decode,if_neg other,if_true,literal]
      exact later
    · obtain ⟨notComma,notBackslash⟩ := not_or.mp special
      rw [if_neg special,List.singleton_append]
      simp only [decode,if_neg notComma,if_neg notBackslash]
      exact later

theorem decodeJoined {opts : List Bytes} (d first : Bytes) (plain : ∀ opt ∈ opts, upToNul opt = opt) :
    decode 0 d (joined comma ((first :: opts).map escaped)) = upToNul (d ++ first) :: opts := by
  induction opts generalizing d first with
  | nil =>
    have alone := decodeEscaped d first []
    rw [List.append_nil] at alone
    rw [List.map_singleton,joined,alone]
    rfl
  | cons next opts ih =>
    have rest := ih [] next (fun opt mem => plain opt (List.mem_cons_of_mem _ mem))
    rw [List.nil_append,plain next List.mem_cons_self] at rest
    rw [List.map_cons,joinedCons comma (escaped first) (by simp),decodeEscaped]
    simp only [decode,if_true,rest]

theorem optionsJoined {opts : List Bytes} (some : opts ≠ []) (plain : ∀ opt ∈ opts, upToNul opt = opt) :
    options (joined comma (opts.map escaped)) = opts := by
  cases opts with
  | nil => exact absurd rfl some
  | cons first opts =>
    rw [options,decodeJoined [] first (fun opt mem => plain opt (List.mem_cons_of_mem _ mem)),List.nil_append,
      plain first List.mem_cons_self]

theorem upToNulTwice (d : Bytes) : upToNul (upToNul d) = upToNul d := by
  unfold upToNul
  rw [List.takeWhile_takeWhile]
  simp

theorem decodePlain (skip : Nat) (d s : Bytes) : ∀ opt ∈ decode skip d s, upToNul opt = opt := by
  induction s generalizing skip d with
  | nil =>
    intro opt mem
    rw [decode,List.mem_singleton] at mem
    rw [mem,upToNulTwice]
  | cons b s ih =>
    cases skip with
    | succ skip => exact ih skip d
    | zero =>
      rw [decode]
      split
      · intro opt mem
        rcases List.mem_cons.mp mem with rfl | later
        · exact upToNulTwice d
        · exact ih 0 [] opt later
      · exact ih _ _

theorem decodeNe (skip : Nat) (d s : Bytes) : decode skip d s ≠ [] := by
  induction s generalizing skip d with
  | nil => simp [decode]
  | cons b s ih =>
    cases skip with
    | succ skip => exact ih skip d
    | zero =>
      rw [decode]
      split
      · simp
      · exact ih _ _

/-! Dropping leading empty options. -/

theorem dropLeadingHead {opts : List Bytes} (some : opts ≠ []) :
    dropLeading opts = [[]] ∨ ∃ b opt rest, dropLeading opts = (b :: opt) :: rest := by
  fun_induction dropLeading opts with
  | case1 next rest ih => exact ih (by simp)
  | case2 opts other =>
    match opts with
    | [] => exact absurd rfl some
    | [[]] => exact .inl rfl
    | [] :: next :: rest => exact absurd rfl (other next rest)
    | (b :: opt) :: rest => exact .inr ⟨b,opt,rest,rfl⟩

theorem dropLeadingTwice (opts : List Bytes) : dropLeading (dropLeading opts) = dropLeading opts := by
  by_cases none : opts = []
  · rw [none]; rfl
  · rcases dropLeadingHead none with alone | ⟨b,opt,rest,found⟩
    · rw [alone]; rfl
    · rw [found]; rfl

theorem dropLeadingSub (opts : List Bytes) : ∀ opt ∈ dropLeading opts, opt ∈ opts := by
  fun_induction dropLeading opts with
  | case1 next rest ih => exact fun opt mem => List.mem_cons_of_mem _ (ih opt mem)
  | case2 opts other => exact fun _ mem => mem

theorem dropLeadingSnoc {opts : List Bytes} (some : opts ≠ []) (opt : Bytes) :
    dropLeading (opts ++ [opt]) = if dropLeading opts = [[]] then [opt] else dropLeading opts ++ [opt] := by
  fun_induction dropLeading opts with
  | case1 next rest ih => exact ih (by simp)
  | case2 opts other =>
    match opts with
    | [] => exact absurd rfl some
    | [[]] => cases opt <;> rfl
    | [] :: next :: rest => exact absurd rfl (other next rest)
    | (b :: first) :: rest => rfl

/-! What add_opt collects, one option after the other. -/

def collected (opts : Option Bytes) (added : List Bytes) : Option Bytes :=
  added.foldl (fun opts opt => some (addOptCommon opts opt true)) opts

theorem groupTextSnoc {opts : List Bytes} (some : opts ≠ []) (opt : Bytes) :
    groupText (opts ++ [opt]) =
      if groupText opts = [] then escaped opt else groupText opts ++ comma :: escaped opt := by
  rcases dropLeadingHead some with alone | ⟨b,first,rest,found⟩
  · have empty : groupText opts = [] := by rw [groupText,alone]; rfl
    rw [if_pos empty,groupText,dropLeadingSnoc some,if_pos alone]
    rfl
  · have more : groupText opts ≠ [] := by
      intro empty
      rw [groupText,found,List.map_cons] at empty
      cases rest with
      | nil => simp only [List.map_nil,joined,escaped,List.flatMap_cons] at empty; split at empty <;> simp at empty
      | cons next rest => rw [joinedCons comma _ (by simp)] at empty; simp at empty
    have several : dropLeading opts ≠ [[]] := by rw [found]; simp
    rw [if_neg more,groupText,dropLeadingSnoc some,if_neg several,List.map_append,
      joinedAppend comma (by rw [found]; simp) (by simp)]
    rfl

theorem collectedText {opts : List Bytes} (more : opts ≠ []) (small : (groupText opts).length < 2 ^ 32) :
    collected none opts = some (groupText opts) := by
  induction opts using List.reverseRecOn with
  | nil => exact absurd rfl more
  | append_singleton opts opt ih =>
    have last : collected none (opts ++ [opt]) = some (addOptCommon (collected none opts) opt true) := by
      simp [collected,List.foldl_append]
    rw [last]
    by_cases first : opts = []
    · subst first
      simp [collected,addOptCommon,groupText,dropLeading,joined]
    · have text := groupTextSnoc first opt
      by_cases empty : groupText opts = []
      · rw [if_pos empty] at text
        rw [ih first (by rw [empty]; decide),text,empty]
        simp [addOptCommon]
      · rw [if_neg empty] at text
        rw [text,List.length_append] at small
        have below : (groupText opts).length < 2 ^ 32 := by omega
        have longer : (groupText opts).length ≠ 0 := fun zero => empty (List.length_eq_zero_iff.mp zero)
        rw [ih first below,text]
        simp only [addOptCommon,Option.getD_some,Nat.mod_eq_of_lt below,if_neg longer,List.take_length,if_true]

/-! What the pieces of the parser do for a client without templates and without a function. -/

structure Client.Plain (client : Client δ) : Prop where
  opt : client.opt = []
  proc : client.proc = none

theorem addArgOk {ctx next : Context δ} {arg : Bytes} (ok : ctx.addArg arg = .ok next) :
    ∃ memory, next = {ctx with outargs := ctx.outargs ++ [arg], memory := memory} := by
  unfold Context.addArg Context.takeMem at ok
  by_cases copied : ctx.memory 0 = true
  · by_cases grown : ctx.memory 1 = true
    · simp only [copied,grown,if_true] at ok
      cases ok
      exact ⟨_,rfl⟩
    · simp only [copied,grown,if_true] at ok
      cases ok
  · simp only [copied] at ok
    cases ok

theorem addOptOk {ctx next : Context δ} {opt : Bytes} (ok : ctx.addOpt opt = .ok next) :
    ∃ memory, next = {ctx with opts := some (addOptCommon ctx.opts opt true), memory := memory} := by
  unfold Context.addOpt Context.takeMem at ok
  by_cases grown : ctx.memory 0 = true
  · simp only [grown,if_true] at ok
    cases ok
    exact ⟨_,rfl⟩
  · simp only [grown] at ok
    cases ok

theorem callProcPlain {client : Client δ} (plain : client.Plain) (ctx : Context δ) (arg : Bytes) {key : Int}
    (kept : key ≠ keyDiscard) (iso : Bool) :
    ctx.callProc client arg key iso = if iso then ctx.addOpt arg else ctx.addArg arg := by
  simp only [Context.callProc,plain.proc,if_neg kept]

theorem goptPlain {client : Client δ} (plain : client.Plain) (ctx : Context δ) (arg : Bytes) (iso : Bool) :
    ctx.processGopt client arg iso = if iso then ctx.addOpt arg else ctx.addArg arg := by
  simp only [Context.processGopt,plain.opt,List.any_nil,Bool.false_eq_true,if_false]
  exact callProcPlain plain ctx arg (by decide) iso

theorem groupOptions {client : Client δ} (plain : client.Plain) (skip : Nat) (ctx : Context δ) (d s : Bytes) :
    Context.realOptionGroup client skip ctx d s = (decode skip d s).foldlM Context.addOpt ctx := by
  induction s generalizing skip ctx d with
  | nil => simp [Context.realOptionGroup,decode,goptPlain plain]
  | cons b s ih =>
    cases skip with
    | succ skip => exact ih skip ctx d
    | zero =>
      rw [Context.realOptionGroup,decode]
      split
      · simp only [goptPlain plain,if_true,List.foldlM_cons,ih]
      · exact ih _ _ _

theorem addOptsOk {opts : List Bytes} {ctx next : Context δ} (ok : opts.foldlM Context.addOpt ctx = .ok next) :
    ∃ memory, next = {ctx with opts := collected ctx.opts opts, memory := memory} := by
  induction opts generalizing ctx with
  | nil => cases ok; exact ⟨_,rfl⟩
  | cons opt opts ih =>
    rw [List.foldlM_cons] at ok
    cases added : ctx.addOpt opt with
    | error failed => rw [added] at ok; cases ok
    | ok mid =>
      rw [added] at ok
      obtain ⟨_,rfl⟩ := addOptOk added
      obtain ⟨memory,rfl⟩ := ih ok
      exact ⟨memory,rfl⟩

theorem optionGroupOk {client : Client δ} (plain : client.Plain) {ctx next : Context δ} {group : Bytes}
    (ok : ctx.optionGroup client group = .ok next) :
    ∃ memory, next = {ctx with opts := collected ctx.opts (options group), memory := memory} := by
  unfold Context.optionGroup Context.takeMem at ok
  by_cases copied : ctx.memory 0 = true
  · simp only [copied,if_true,groupOptions plain] at ok
    obtain ⟨memory,rfl⟩ := addOptsOk ok
    exact ⟨memory,rfl⟩
  · simp only [copied] at ok
    cases ok

/-! One turn of the loop, then the loop. -/

theorem dashDashIff (arg : Bytes) : arg = dashDash ↔ arg[0]? = some dash ∧ arg[1]? = some dash ∧ arg[2]? = none := by
  have spelled : dashDash = [dash,dash] := by decide
  rw [spelled]
  match arg with
  | [] => simp
  | [a] => simp
  | [a,b] => simp
  | a :: b :: c :: rest => simp

inductive Turn (ctx : Context δ) (arg : Bytes) : Context δ → Prop where
  | attached (memory : Nat → Bool) (group : IsGroup arg) (more : arg[2]? ≠ none) :
    Turn ctx arg {ctx with opts := collected ctx.opts (options (arg.drop 2)), memory := memory}
  | separate (memory : Nat → Bool) (group : IsGroup arg) (alone : arg[2]? = none) (opts : Bytes)
    (next : ctx.argv[ctx.argctr+1]? = some opts) :
    Turn ctx arg {ctx with argctr := ctx.argctr + 1, opts := collected ctx.opts (options opts), memory := memory}
  | separator (memory : Nat → Bool) (dashes : arg = dashDash) :
    Turn ctx arg {ctx with outargs := ctx.outargs ++ [arg], nonopt := ctx.outargs.length + 1, memory := memory}
  | other (memory : Nat → Bool) (group : ¬IsGroup arg) (word : arg ≠ dashDash) :
    Turn ctx arg {ctx with outargs := ctx.outargs ++ [arg], memory := memory}

theorem processOneTurn {client : Client δ} (plain : client.Plain) {ctx next : Context δ} {arg : Bytes}
    (before : ctx.nonopt = 0) (ok : ctx.processOne client arg = .ok next) : Turn ctx arg next := by
  have word : arg[0]? ≠ some dash → arg ≠ dashDash := fun absent eq => absent ((dashDashIff arg).mp eq).1
  by_cases first : arg[0]? = some dash
  · by_cases group : arg[1]? = some 111
    · by_cases more : arg[2]? = none
      · simp only [Context.processOne,before,first,group,more,ne_eq,not_true_eq_false,or_self,if_false,if_true,
          Context.nextArg] at ok
        by_cases last : ctx.argctr + 1 ≥ ctx.argv.length
        · rw [if_pos last] at ok
          cases ok
        · rw [if_neg last] at ok
          have inside : ctx.argctr + 1 < ctx.argv.length := by omega
          have value := List.getElem?_eq_getElem inside
          obtain ⟨memory,rfl⟩ := optionGroupOk plain ok
          have made := Turn.separate memory ⟨first,group⟩ more _ value
          rw [before] at made
          simp only [value,Option.getD_some]
          exact made
      · simp only [Context.processOne,before,first,group,more,ne_eq,not_true_eq_false,or_self,if_false,if_true,
          not_false_eq_true] at ok
        obtain ⟨memory,rfl⟩ := optionGroupOk plain ok
        exact .attached memory ⟨first,group⟩ more
    · by_cases dashes : arg[1]? = some dash ∧ arg[2]? = none
      · simp only [Context.processOne,before,first,dashes,ne_eq,not_true_eq_false,or_self,if_false,and_self,
          if_true] at ok
        rw [if_neg (by decide)] at ok
        cases added : ctx.addArg arg with
        | error failed => rw [added] at ok; cases ok
        | ok mid =>
          rw [added] at ok
          obtain ⟨memory,rfl⟩ := addArgOk added
          cases ok
          simp only [List.length_append,List.length_singleton]
          exact .separator memory ((dashDashIff arg).mpr ⟨first,dashes⟩)
      · simp only [Context.processOne,before,first,group,dashes,ne_eq,not_true_eq_false,or_self,if_false,
          goptPlain plain,Bool.false_eq_true] at ok
        obtain ⟨memory,rfl⟩ := addArgOk ok
        exact .other memory (fun named => group named.2) (fun eq => dashes ((dashDashIff arg).mp eq).2)
  · simp only [Context.processOne,before,first,ne_eq,not_true_eq_false,not_false_eq_true,or_true,if_true,
      callProcPlain plain ctx arg (show keyNonopt ≠ keyDiscard by decide),Bool.false_eq_true,if_false] at ok
    obtain ⟨memory,rfl⟩ := addArgOk ok
    exact .other memory (fun named => first named.1) (word first)

theorem Sorted.optionsNe (s : Sorted) (some : s.groups ≠ []) : s.options ≠ [] := by
  obtain ⟨group,rest,groups⟩ := List.exists_cons_of_ne_nil some
  rw [Sorted.options,groups,List.flatMap_cons]
  exact List.append_ne_nil_of_left_ne_nil (decodeNe 0 [] group) _

theorem loopTurn {client : Client δ} {fuel : Nat} {ctx next : Context δ} {arg : Bytes}
    (found : ctx.argv[ctx.argctr]? = some arg) (ok : Context.loop client (fuel+1) ctx = .ok next) :
    ∃ mid, ctx.processOne client arg = .ok mid ∧
      Context.loop client fuel {mid with argctr := mid.argctr + 1} = .ok next := by
  rw [Context.loop] at ok
  simp only [found] at ok
  cases turn : ctx.processOne client arg with
  | error failed => rw [turn] at ok; cases ok
  | ok mid =>
    rw [turn] at ok
    exact ⟨mid,rfl,ok⟩

theorem loopEnd {client : Client δ} {fuel : Nat} {ctx next : Context δ} (finished : ctx.argv.length ≤ ctx.argctr)
    (ok : Context.loop client fuel ctx = .ok next) : next = ctx := by
  cases fuel with
  | zero => cases ok; rfl
  | succ fuel =>
    rw [Context.loop,List.getElem?_eq_none finished] at ok
    cases ok
    rfl

theorem loopRest {client : Client δ} (plain : client.Plain) {fuel : Nat} {ctx next : Context δ}
    (ok : Context.loop client fuel ctx = .ok next) (after : ctx.nonopt ≠ 0)
    (enough : ctx.argv.length ≤ ctx.argctr + fuel) :
    next.outargs = ctx.outargs ++ ctx.argv.drop ctx.argctr ∧ next.opts = ctx.opts ∧ next.nonopt = ctx.nonopt := by
  induction fuel generalizing ctx with
  | zero =>
    have finished : ctx.argv.length ≤ ctx.argctr := enough
    rw [loopEnd finished ok,List.drop_eq_nil_of_le finished,List.append_nil]
    exact ⟨rfl,rfl,rfl⟩
  | succ fuel ih =>
    by_cases finished : ctx.argv.length ≤ ctx.argctr
    · rw [loopEnd finished ok,List.drop_eq_nil_of_le finished,List.append_nil]
      exact ⟨rfl,rfl,rfl⟩
    have inside : ctx.argctr < ctx.argv.length := by omega
    obtain ⟨mid,turn,ok⟩ := loopTurn (List.getElem?_eq_getElem inside) ok
    simp only [Context.processOne,after,ne_eq,not_false_eq_true,true_or,if_true,
      callProcPlain plain ctx _ (show keyNonopt ≠ keyDiscard by decide),Bool.false_eq_true,if_false] at turn
    obtain ⟨_,rfl⟩ := addArgOk turn
    obtain ⟨outargs,opts,nonopt⟩ := ih ok after (by simp only; omega)
    refine ⟨?_,opts,nonopt⟩
    rw [outargs,List.drop_eq_getElem_cons inside,List.append_assoc,List.singleton_append]

theorem sortedAttached {arg : Bytes} (group : IsGroup arg) (more : arg[2]? ≠ none) (args : List Bytes) :
    sorted (arg :: args) = (sorted args).map (fun s => {s with groups := arg.drop 2 :: s.groups}) := by
  rw [sorted.eq_def]
  simp only [if_pos group,if_pos more]

theorem sortedSeparate {arg : Bytes} (named : IsGroup arg) (alone : arg[2]? = none) (group : Bytes)
    (args : List Bytes) :
    sorted (arg :: group :: args) = (sorted args).map (fun s => {s with groups := group :: s.groups}) := by
  rw [sorted.eq_def]
  simp only [if_pos named,if_neg (not_not_intro alone)]

theorem sortedSeparator (args : List Bytes) : sorted (dashDash :: args) = some ⟨[],[],some args⟩ := by
  have group : ¬IsGroup dashDash := by decide
  rw [sorted.eq_def]
  simp only [if_neg group,if_true]

theorem sortedOther {arg : Bytes} (group : ¬IsGroup arg) (word : arg ≠ dashDash) (args : List Bytes) :
    sorted (arg :: args) = (sorted args).map (fun s => {s with plain := arg :: s.plain}) := by
  rw [sorted.eq_def]
  simp only [if_neg group,if_neg word]

def Sorted.behind (s : Sorted) : List Bytes := match s.rest with
  | none => []
  | some rest => dashDash :: rest

structure Collects (ctx next : Context δ) (s : Sorted) : Prop where
  outargs : next.outargs = ctx.outargs ++ s.plain ++ s.behind
  opts : next.opts = collected ctx.opts s.options
  nonopt : next.nonopt = if s.rest = none then 0 else ctx.outargs.length + s.plain.length + 1

theorem loopOk {client : Client δ} (plain : client.Plain) {fuel : Nat} {ctx next : Context δ}
    (ok : Context.loop client fuel ctx = .ok next) (before : ctx.nonopt = 0)
    (enough : ctx.argv.length ≤ ctx.argctr + fuel) :
    ∃ s, sorted (ctx.argv.drop ctx.argctr) = some s ∧ Collects ctx next s := by
  induction fuel generalizing ctx with
  | zero =>
    have finished : ctx.argv.length ≤ ctx.argctr := enough
    rw [loopEnd finished ok,List.drop_eq_nil_of_le finished]
    exact ⟨_,rfl,by simp [Sorted.behind],rfl,before⟩
  | succ fuel ih =>
    by_cases finished : ctx.argv.length ≤ ctx.argctr
    · rw [loopEnd finished ok,List.drop_eq_nil_of_le finished]
      exact ⟨_,rfl,by simp [Sorted.behind],rfl,before⟩
    have inside : ctx.argctr < ctx.argv.length := by omega
    obtain ⟨mid,turn,ok⟩ := loopTurn (List.getElem?_eq_getElem inside) ok
    rw [List.drop_eq_getElem_cons inside]
    generalize ctx.argv[ctx.argctr] = arg at turn
    cases processOneTurn plain before turn with
    | attached memory group more =>
      obtain ⟨s,rest,later⟩ := ih ok before (by simp only; omega)
      rw [sortedAttached group more]
      refine ⟨_,congrArg _ rest,later.outargs,?_,later.nonopt⟩
      rw [later.opts]
      simp [Sorted.options,collected,List.foldl_append]
    | separate memory group alone opts follows =>
      obtain ⟨short,content⟩ := List.getElem?_eq_some_iff.mp follows
      obtain ⟨s,rest,later⟩ := ih ok before (by simp only; omega)
      rw [List.drop_eq_getElem_cons short,content,sortedSeparate group alone]
      refine ⟨_,congrArg _ rest,later.outargs,?_,later.nonopt⟩
      rw [later.opts]
      simp [Sorted.options,collected,List.foldl_append]
    | separator memory dashes =>
      obtain ⟨outargs,opts,nonopt⟩ := loopRest plain ok (Nat.succ_ne_zero _) (by simp only; omega)
      rw [dashes,sortedSeparator]
      exact ⟨_,rfl,by simp [Sorted.behind,dashes,outargs],opts,by simp [nonopt]⟩
    | other memory group word =>
      obtain ⟨s,rest,later⟩ := ih ok before (by simp only; omega)
      rw [sortedOther group word]
      refine ⟨_,congrArg _ rest,?_,later.opts,?_⟩
      · rw [later.outargs]
        simp [Sorted.behind]
      · rw [later.nonopt]
        simp only [List.length_append,List.length_cons,List.length_nil]
        split <;> omega

/-! The whole parse. -/

theorem insertArgOk {ctx next : Context δ} {pos : Nat} {arg : Bytes} (ok : ctx.insertArg pos arg = .ok next) :
    ∃ memory, next = {ctx with outargs := ctx.outargs.take pos ++ arg :: ctx.outargs.drop pos, memory := memory} := by
  unfold Context.insertArg at ok
  cases added : ctx.addArg arg with
  | error failed => rw [added] at ok; cases ok
  | ok mid =>
    obtain ⟨memory,rfl⟩ := addArgOk added
    rw [added] at ok
    change (if pos ≠ (ctx.outargs ++ [arg]).length - 1 then _ else _) = _ at ok
    refine ⟨memory,?_⟩
    by_cases last : pos = ctx.outargs.length
    · rw [if_neg (by simp [last])] at ok
      cases ok
      rw [last,List.take_length,List.drop_length]
    · rw [if_pos (by simpa using last)] at ok
      simp only [List.dropLast_concat] at ok
      cases ok
      rfl

theorem insertOptsOk {ctx next : Context δ} {first : Bytes} {others : List Bytes} (ok : ctx.insertOpts = .ok next)
    (outargs : ctx.outargs = first :: others) :
    next.nonopt = ctx.nonopt ∧
      next.outargs = first :: (match ctx.opts with | none => [] | some opts => [dashO,opts]) ++ others := by
  unfold Context.insertOpts at ok
  cases opts : ctx.opts with
  | none =>
    rw [opts] at ok
    cases ok
    exact ⟨rfl,outargs⟩
  | some opts' =>
    rw [opts] at ok
    cases put : ctx.insertArg 1 dashO with
    | error failed => simp only [put] at ok; cases ok
    | ok mid =>
      simp only [put] at ok
      obtain ⟨_,rfl⟩ := insertArgOk put
      obtain ⟨_,rfl⟩ := insertArgOk ok
      rw [outargs]
      exact ⟨rfl,rfl⟩

/- Before the group is put in, nonopt is the number of arguments exactly if nothing follows the separator. -/
theorem dropSeparatorNormal {ctx : Context δ} {s : Sorted} {first : Bytes} {group : List Bytes}
    (outargs : ctx.outargs = first :: group ++ (s.plain ++ s.behind))
    (nonopt : ctx.nonopt = if s.rest = none then 0 else 1 + s.plain.length + 1) (empty : group = [] ↔ s.groups = []) :
    ctx.dropSeparator.outargs = first :: group ++ s.others := by
  unfold Context.dropSeparator Sorted.others
  cases rest : s.rest with
  | none =>
    rw [rest,if_pos rfl] at nonopt
    simp only [nonopt,ne_eq,not_true_eq_false,false_and,if_false,outargs,Sorted.behind,rest]
  | some rest' =>
    rw [rest,if_neg (by simp)] at nonopt
    have count : ctx.outargs.length = 1 + group.length + s.plain.length + 1 + rest'.length := by
      simp [outargs,Sorted.behind,rest]
      omega
    by_cases last : rest' = [] ∧ s.groups = []
    · have none := empty.mpr last.2
      have final : ctx.outargs = (first :: s.plain) ++ [dashDash] := by simp [outargs,Sorted.behind,rest,last.1,none]
      have here : ctx.nonopt ≠ 0 ∧ ctx.nonopt = ctx.outargs.length ∧ ctx.outargs.getLast? = some dashDash := by
        refine ⟨by omega,?_,by rw [final,List.getLast?_concat]⟩
        rw [nonopt,count,none,last.1]
        simp only [List.length_nil,Nat.add_zero]
      rw [if_pos here]
      simp only [final,List.dropLast_concat,if_pos last,none,List.append_nil]
      rfl
    · have more : ¬(ctx.nonopt ≠ 0 ∧ ctx.nonopt = ctx.outargs.length ∧ ctx.outargs.getLast? = some dashDash) := by
        rintro ⟨_,same,_⟩
        have sizes : rest'.length = 0 ∧ group.length = 0 := by omega
        exact last ⟨List.length_eq_zero_iff.mp sizes.1,empty.mp (List.length_eq_zero_iff.mp sizes.2)⟩
      rw [if_neg more]
      simp only [outargs,Sorted.behind,rest,if_neg last]

theorem optParseOk {client : Client δ} (plain : client.Plain) {data : δ} {memory : Nat → Bool} {first : Bytes}
    {args : List Bytes} {next : Context δ}
    (ok : Context.optParse client ⟨data,0,first :: args,[],none,0,memory⟩ = .ok next) :
    ∃ s, sorted args = some s ∧ ((groupText s.options).length < 2 ^ 32 → next.outargs = s.normal first) := by
  unfold Context.optParse at ok
  cases added : Context.addArg ⟨data,0,first :: args,[],none,0,memory⟩ first with
  | error failed => simp only [added] at ok; cases ok
  | ok start =>
    simp only [added] at ok
    obtain ⟨_,rfl⟩ := addArgOk added
    change (Context.loop client (first :: args).length ⟨data,1,first :: args,[first],none,0,_⟩ >>= _) = _ at ok
    cases turns : Context.loop client (first :: args).length ⟨data,1,first :: args,[first],none,0,_⟩ with
    | error failed => rw [turns] at ok; cases ok
    | ok mid =>
      rw [turns] at ok
      obtain ⟨s,found,collects⟩ := loopOk plain turns rfl (Nat.le_add_left ..)
      have outargs : mid.outargs = first :: (s.plain ++ s.behind) := by rw [collects.outargs,List.append_assoc]; rfl
      change (mid.insertOpts >>= _) = _ at ok
      cases put : mid.insertOpts with
      | error failed => rw [put] at ok; cases ok
      | ok last =>
        rw [put] at ok
        cases ok
        obtain ⟨nonopt,inserted⟩ := insertOptsOk put outargs
        refine ⟨s,found,fun small => ?_⟩
        have opts : mid.opts = if s.groups = [] then none else some (groupText s.options) := by
          rw [collects.opts]
          split
          · next none => rw [Sorted.options,none]; rfl
          · next some => exact collectedText (s.optionsNe some) small
        rw [Sorted.normal]
        refine dropSeparatorNormal ?_ (nonopt.trans collects.nonopt) ?_
        · rw [inserted,opts]
          by_cases groups : s.groups = []
          · rw [if_pos groups,if_pos groups]
          · rw [if_neg groups,if_neg groups]
        · by_cases groups : s.groups = []
          · simp [groups]
          · simp [groups]

/-! With memory for every allocation the parse fails only for want of an argument of -o. -/

def Context.Ample (ctx : Context δ) : Prop := ∀ i, ctx.memory i = true

def Goes (call : Except (Context δ) (Context δ)) : Prop := ∃ next, call = .ok next ∧ next.Ample

theorem Goes.bind {call : Except (Context δ) (Context δ)} {rest : Context δ → Except (Context δ) (Context δ)}
    (goes : Goes call) (later : ∀ next, call = .ok next → next.Ample → Goes (rest next)) : Goes (call >>= rest) := by
  obtain ⟨next,ok,ample⟩ := goes
  rw [ok]
  exact later next ok ample

theorem Goes.addArg {ctx : Context δ} (ample : ctx.Ample) (arg : Bytes) : Goes (ctx.addArg arg) := by
  simp only [Context.addArg,Context.takeMem,ample _,if_true]
  exact ⟨_,rfl,fun _ => rfl⟩

theorem Goes.addOpt {ctx : Context δ} (ample : ctx.Ample) (opt : Bytes) : Goes (ctx.addOpt opt) := by
  simp only [Context.addOpt,Context.takeMem,ample _,if_true]
  exact ⟨_,rfl,fun _ => rfl⟩

theorem Goes.addOpts {ctx : Context δ} (ample : ctx.Ample) (opts : List Bytes) :
    Goes (opts.foldlM Context.addOpt ctx) := by
  induction opts generalizing ctx with
  | nil => exact ⟨ctx,rfl,ample⟩
  | cons opt opts ih =>
    rw [List.foldlM_cons]
    exact (Goes.addOpt ample opt).bind (fun next _ ample => ih ample)

theorem Goes.optionGroup {client : Client δ} (plain : client.Plain) {ctx : Context δ} (ample : ctx.Ample)
    (group : Bytes) :
    Goes (ctx.optionGroup client group) := by
  simp only [Context.optionGroup,Context.takeMem,ample _,if_true,groupOptions plain]
  exact Goes.addOpts (fun _ => rfl) _

theorem Goes.insertArg {ctx : Context δ} (ample : ctx.Ample) (pos : Nat) (arg : Bytes) :
    Goes (ctx.insertArg pos arg) := by
  refine (Goes.addArg ample arg).bind (fun next _ ample => ?_)
  split
  · exact ⟨_,rfl,ample⟩
  · exact ⟨_,rfl,ample⟩

theorem Goes.insertOpts {ctx : Context δ} (ample : ctx.Ample) : Goes ctx.insertOpts := by
  unfold Context.insertOpts
  split
  · exact ⟨_,rfl,ample⟩
  · exact (Goes.insertArg ample 1 dashO).bind (fun next _ ample => Goes.insertArg ample 2 _)

theorem Goes.processOne {client : Client δ} (plain : client.Plain) {ctx : Context δ} (ample : ctx.Ample) (arg : Bytes)
    (value : ctx.nonopt = 0 → IsGroup arg → arg[2]? = none → ctx.argctr + 1 < ctx.argv.length) :
    Goes (ctx.processOne client arg) := by
  unfold Context.processOne
  split
  · rw [callProcPlain plain ctx arg (by decide)]
    exact Goes.addArg ample arg
  · next first =>
    obtain ⟨before,dashed⟩ := not_or.mp first
    split
    · next group =>
      split
      · exact Goes.optionGroup plain ample _
      · next alone =>
        have inside := value (not_not.mp before) ⟨not_not.mp dashed,group⟩ (not_not.mp alone)
        rw [Context.nextArg,if_neg (by omega)]
        exact Goes.bind ⟨_,rfl,ample⟩ (fun next _ ample => Goes.optionGroup plain ample _)
    · split
      · exact (Goes.addArg ample arg).bind (fun next _ ample => ⟨_,rfl,ample⟩)
      · rw [goptPlain plain]
        exact Goes.addArg ample arg

theorem Goes.loop {client : Client δ} (plain : client.Plain) (fuel : Nat) {ctx : Context δ} (ample : ctx.Ample)
    (values : ctx.nonopt = 0 → sorted (ctx.argv.drop ctx.argctr) ≠ none) : Goes (Context.loop client fuel ctx) := by
  induction fuel generalizing ctx with
  | zero => exact ⟨ctx,rfl,ample⟩
  | succ fuel ih =>
    rw [Context.loop]
    cases found : ctx.argv[ctx.argctr]? with
    | none => exact ⟨ctx,rfl,ample⟩
    | some arg =>
      obtain ⟨inside,value⟩ := List.getElem?_eq_some_iff.mp found
      rw [List.drop_eq_getElem_cons inside,value] at values
      refine (Goes.processOne plain ample arg ?_).bind (fun mid turn ample => ih ample ?_)
      · intro before group alone
        by_cases last : ctx.argctr + 1 < ctx.argv.length
        · exact last
        · refine absurd ?_ (values before)
          rw [List.drop_eq_nil_of_le (by omega),sorted.eq_def]
          simp only [if_pos group,if_neg (not_not_intro alone)]
      · intro before
        by_cases after : ctx.nonopt = 0
        · have parts := values after
          cases processOneTurn plain after turn with
          | attached memory group more =>
            rw [sortedAttached group more] at parts
            exact fun none => parts (by simp only at none; rw [none]; rfl)
          | separate memory group alone opts follows =>
            obtain ⟨short,content⟩ := List.getElem?_eq_some_iff.mp follows
            rw [List.drop_eq_getElem_cons short,sortedSeparate group alone] at parts
            exact fun none => parts (by simp only at none; rw [none]; rfl)
          | separator memory dashes => exact absurd before (Nat.succ_ne_zero _)
          | other memory group word =>
            rw [sortedOther group word] at parts
            exact fun none => parts (by simp only at none; rw [none]; rfl)
        · simp only [Context.processOne,after,ne_eq,not_false_eq_true,true_or,if_true,
            callProcPlain plain ctx arg (show keyNonopt ≠ keyDiscard by decide),Bool.false_eq_true,if_false] at turn
          obtain ⟨_,rfl⟩ := addArgOk turn
          exact absurd before after

theorem Goes.optParse {client : Client δ} (plain : client.Plain) (data : δ) {memory : Nat → Bool}
    (ample : ∀ i, memory i = true) {first : Bytes} {args : List Bytes} (values : sorted args ≠ none) :
    Goes (Context.optParse client ⟨data,0,first :: args,[],none,0,memory⟩) := by
  unfold Context.optParse
  have start : (⟨data,0,first :: args,[],none,0,memory⟩ : Context δ).Ample := ample
  refine (Goes.addArg start first).bind (fun start added ample => ?_)
  obtain ⟨_,rfl⟩ := addArgOk added
  refine Goes.bind (Goes.loop plain _ ample (fun _ => values)) (fun mid _ ample => ?_)
  refine (Goes.insertOpts ample).bind (fun last _ ample => ⟨_,rfl,?_⟩)
  unfold Context.dropSeparator
  split
  · exact ample
  · exact ample

/-! The normal form is its own normal form. -/

theorem sortedPlain {args : List Bytes} {s : Sorted} (ok : sorted args = some s) :
    ∀ arg ∈ s.plain, ¬IsGroup arg ∧ arg ≠ dashDash := by
  fun_induction sorted args generalizing s with
  | case1 => cases ok; simp
  | case2 arg args group more ih =>
    obtain ⟨part,found,rfl⟩ := Option.map_eq_some_iff.mp ok
    have later := ih found
    exact later
  | case3 => cases ok
  | case4 arg named alone group args ih =>
    obtain ⟨part,found,rfl⟩ := Option.map_eq_some_iff.mp ok
    have later := ih found
    exact later
  | case5 args => cases ok; simp
  | case6 arg args group word ih =>
    obtain ⟨part,found,rfl⟩ := Option.map_eq_some_iff.mp ok
    intro other mem
    rcases List.mem_cons.mp mem with rfl | later
    · exact ⟨group,word⟩
    · have behind := ih found
      exact behind other later

theorem sortedAppend {plain : List Bytes} (others : ∀ arg ∈ plain, ¬IsGroup arg ∧ arg ≠ dashDash) (args : List Bytes) :
    sorted (plain ++ args) = (sorted args).map (fun s => {s with plain := plain ++ s.plain}) := by
  induction plain with
  | nil => cases found : sorted args <;> simp [found]
  | cons arg plain ih =>
    have here := others arg List.mem_cons_self
    rw [List.cons_append,sortedOther here.1 here.2,ih (fun other mem => others other (List.mem_cons_of_mem _ mem)),
      Option.map_map]
    rfl

theorem groupTextDropped (opts : List Bytes) : groupText (dropLeading opts) = groupText opts := by
  rw [groupText,dropLeadingTwice,groupText]

theorem Sorted.decoded (s : Sorted) (some : s.groups ≠ []) :
    FuseOpt.options (groupText s.options) = dropLeading s.options := by
  have plain : ∀ opt ∈ dropLeading s.options, upToNul opt = opt := by
    intro opt mem
    obtain ⟨group,_,decoded⟩ := List.mem_flatMap.mp (dropLeadingSub _ opt mem)
    exact decodePlain 0 [] group opt decoded
  have more : dropLeading s.options ≠ [] := by
    rcases dropLeadingHead (s.optionsNe some) with alone | ⟨b,opt,rest,found⟩
    · simp [alone]
    · simp [found]
  exact optionsJoined more plain

theorem Sorted.othersAgain {args : List Bytes} {s : Sorted} (ok : sorted args = some s) :
    ∃ rest, sorted s.others = some ⟨[],s.plain,rest⟩ ∧
      (⟨s.groups,s.plain,rest⟩ : Sorted).others = s.others := by
  have plain := sortedAppend (sortedPlain ok)
  obtain ⟨groups,others,rest⟩ := s
  cases rest with
  | none => exact ⟨none,by simp only [Sorted.others]; rw [plain]; simp [sorted],rfl⟩
  | some rest =>
    by_cases last : rest = [] ∧ groups = []
    · refine ⟨none,?_,?_⟩
      · simp only [Sorted.others,if_pos last]
        rw [plain]
        simp [sorted]
      · simp only [Sorted.others,if_pos last]
    · refine ⟨some rest,?_,rfl⟩
      simp only [Sorted.others,if_neg last]
      rw [plain,sortedSeparator]
      simp

theorem Sorted.again {args : List Bytes} {s : Sorted} (ok : sorted args = some s) (first : Bytes) :
    ∃ rest again, s.normal first = first :: rest ∧ sorted rest = some again ∧ again.normal first = s.normal first ∧
      groupText again.options = groupText s.options := by
  obtain ⟨kept,others,same⟩ := Sorted.othersAgain ok
  by_cases groups : s.groups = []
  · rw [groups] at same
    refine ⟨s.others,_,?_,others,?_,?_⟩
    · simp only [Sorted.normal,if_pos groups]
      rfl
    · simp only [Sorted.normal,if_pos groups,if_true,same]
    · rw [Sorted.options,Sorted.options,groups]
  · have text : (⟨[groupText s.options],s.plain,kept⟩ : Sorted).options = dropLeading s.options := by
      rw [Sorted.options,List.flatMap_singleton]
      exact s.decoded groups
    have behind : (⟨[groupText s.options],s.plain,kept⟩ : Sorted).others = s.others := by
      rw [← same]
      simp [Sorted.others,groups]
    refine ⟨dashO :: groupText s.options :: s.others,⟨[groupText s.options],s.plain,kept⟩,?_,?_,?_,?_⟩
    · simp only [Sorted.normal,if_neg groups]
      rfl
    · rw [sortedSeparate (by decide) (by decide),others]
      rfl
    · simp only [Sorted.normal,if_neg groups,text,behind,groupTextDropped]
      rfl
    · rw [text,groupTextDropped]

structure Normalises (client : Client δ) (data : δ) (memory : Nat → Bool) (args : List Bytes) : Prop where
  result : (fuseOptParse client data memory args).1 = 0 ∨ (fuseOptParse client data memory args).1 = -1
  failed : (fuseOptParse client data memory args).1 = -1 → (fuseOptParse client data memory args).2.1 = args
  nothing : args = [] → (fuseOptParse client data memory args).2.1 = []
  -- add_opt_common has to count the text of the group in an unsigned int.
  normal : ∀ first rest, args = first :: rest → (fuseOptParse client data memory args).1 = 0 →
    ∃ s, sorted rest = some s ∧ ((groupText s.options).length < 2 ^ 32 →
      (fuseOptParse client data memory args).2.1 = s.normal first ∧
      (s.groups ≠ [] → options (groupText s.options) = dropLeading s.options) ∧
      (∀ later memory, (fuseOptParse client later memory (s.normal first)).2.1 = s.normal first) ∧
      ∀ later memory, (∀ i, memory i = true) → (fuseOptParse client later memory (s.normal first)).1 = 0)

theorem fuseOptParseCases (client : Client δ) (data : δ) (memory : Nat → Bool) (first : Bytes) (args : List Bytes) :
    (∃ ctx, Context.optParse client ⟨data,0,first :: args,[],none,0,memory⟩ = .ok ctx ∧
      fuseOptParse client data memory (first :: args) = (0,ctx.outargs,ctx.data)) ∨
    (∃ ctx, Context.optParse client ⟨data,0,first :: args,[],none,0,memory⟩ = .error ctx ∧
      fuseOptParse client data memory (first :: args) = (-1,first :: args,ctx.data)) := by
  rw [fuseOptParse,if_neg (by simp)]
  cases done : Context.optParse client ⟨data,0,first :: args,[],none,0,memory⟩ with
  | ok ctx => exact .inl ⟨ctx,rfl,rfl⟩
  | error ctx => exact .inr ⟨ctx,rfl,rfl⟩

theorem parseSorted {client : Client δ} (plain : client.Plain) {data : δ} {memory : Nat → Bool}
    {first : Bytes} {args : List Bytes} (ok : (fuseOptParse client data memory (first :: args)).1 = 0) :
    ∃ s, sorted args = some s ∧
      ((groupText s.options).length < 2 ^ 32 →
        (fuseOptParse client data memory (first :: args)).2.1 = s.normal first) := by
  rcases fuseOptParseCases client data memory first args with ⟨ctx,done,eq⟩ | ⟨ctx,_,eq⟩
  · rw [eq]
    exact optParseOk plain done
  · rw [eq] at ok
    cases ok

theorem parseNormalises {client : Client δ} (plain : client.Plain) (data : δ) (memory : Nat → Bool)
    (args : List Bytes) :
    Normalises client data memory args := by
  cases args with
  | nil => exact ⟨.inl rfl,fun _ => rfl,fun _ => rfl,fun first rest eq => nomatch eq⟩
  | cons first args =>
    refine ⟨?_,?_,fun none => absurd none (List.cons_ne_nil first args),?_⟩
    · rcases fuseOptParseCases client data memory first args with ⟨ctx,_,eq⟩ | ⟨ctx,_,eq⟩
      · exact .inl (by rw [eq])
      · exact .inr (by rw [eq])
    · rcases fuseOptParseCases client data memory first args with ⟨ctx,_,eq⟩ | ⟨ctx,_,eq⟩
      · intro failed
        rw [eq] at failed
        cases failed
      · exact fun _ => by rw [eq]
    · intro first' rest same ok
      cases same
      obtain ⟨s,parts,small⟩ := parseSorted plain ok
      refine ⟨s,parts,fun below => ⟨small below,s.decoded,?_,?_⟩⟩
      · intro later memory
        obtain ⟨tail,again,shape,found,fixed,text⟩ := Sorted.again parts first
        rw [shape]
        rcases fuseOptParseCases client later memory first tail with ⟨ctx,_,eq⟩ | ⟨ctx,_,eq⟩
        · obtain ⟨s',parts',small'⟩ := parseSorted plain (congrArg Prod.fst eq)
          cases found.symm.trans parts'
          rw [small' (by rw [text]; exact below),fixed,shape]
        · rw [eq]
      · intro later memory ample
        obtain ⟨tail,again,shape,found,_,_⟩ := Sorted.again parts first
        rw [shape]
        obtain ⟨ctx,done,_⟩ := Goes.optParse plain later ample (show sorted tail ≠ none by rw [found]; simp)
        rw [fuseOptParse,if_neg (by simp),done]

def bare : Client Unit := ⟨[],none,fun _ _ data => data,fun _ _ _ data => some data⟩

theorem parseNormalisesGroups :
    let args := [ascii "p",ascii "-o,a",ascii "x",dashO,ascii "b\\,c",dashDash,ascii "-oq"]
    Normalises bare () (fun _ => true) args ∧
      (fuseOptParse bare () (fun _ => true) args).2.1 =
        [ascii "p",dashO,ascii "a,b\\,c",ascii "x",dashDash,ascii "-oq"] :=
  ⟨parseNormalises ⟨rfl,rfl⟩ () _ _,by decide⟩

/- An empty group alone stays, and an empty group is one empty option, not none. -/
theorem emptyGroupStays :
    (fuseOptParse bare () (fun _ => true) [ascii "p",dashO,[]]).1 = 0 ∧
      (fuseOptParse bare () (fun _ => true) [ascii "p",dashO,[]]).2.1 = [ascii "p",dashO,[]] ∧
      options [] ≠ (options []).dropWhile (· = []) := by
  decide

end FuseStudy.FuseOpt
