import FuseStudy.OptNormal

/-! Runs of fuse_opt_parse with any templates and any processing function, turn by turn: what an
option with a separate parameter takes, and what is left of the separator. -/
namespace FuseStudy.FuseOpt
open CString

variable {δ : Type} {client : Client δ} {ctx next mid last start : Context δ} {arg : Bytes} {iso : Bool}

def Client.Quiet (client : Client δ) : Prop :=
  ∀ proc, client.proc = some proc → ∀ data arg key outargs, (proc data arg key outargs).2.2 = outargs

/-! What the calls below one argument leave alone. -/

structure Stays (client : Client δ) (ctx next : Context δ) : Prop where
  argv : next.argv = ctx.argv
  argctr : next.argctr = ctx.argctr
  nonopt : next.nonopt = ctx.nonopt
  outargs : client.Quiet → ctx.outargs <+: next.outargs

theorem Stays.trans (first : Stays client ctx mid) (later : Stays client mid next) : Stays client ctx next :=
  ⟨later.argv.trans first.argv,later.argctr.trans first.argctr,later.nonopt.trans first.nonopt,
    fun quiet => (first.outargs quiet).trans (later.outargs quiet)⟩

theorem addArgStays (ok : ctx.addArg arg = .ok next) : Stays client ctx next := by
  obtain ⟨_,rfl⟩ := addArgOk ok
  exact ⟨rfl,rfl,rfl,fun _ => List.prefix_append ..⟩

inductive Given (client : Client δ) (ctx : Context δ) (arg : Bytes) (key : Int) : Context δ → Prop
  | unasked : Given client ctx arg key ctx
  | asked {proc : δ → Bytes → Int → List Bytes → Int × δ × List Bytes} (is : client.proc = some proc) :
    Given client ctx arg key
      {ctx with data := (proc ctx.data arg key ctx.outargs).2.1, outargs := (proc ctx.data arg key ctx.outargs).2.2}

theorem Given.stays {key : Int} (given : Given client ctx arg key next) : Stays client ctx next := by
  cases given with
  | unasked => exact ⟨rfl,rfl,rfl,fun _ => List.prefix_rfl⟩
  | asked is => exact ⟨rfl,rfl,rfl,fun quiet => ⟨[],(List.append_nil _).trans (quiet _ is ..).symm⟩⟩

theorem callProcSource {key : Int} (ok : ctx.callProc client arg key iso = .ok next) :
    ∃ mid, Given client ctx arg key mid ∧
      (next = mid ∨ (if iso then mid.addOpt arg else mid.addArg arg) = .ok next) := by
  unfold Context.callProc at ok
  dsimp only at ok
  by_cases discarded : key = keyDiscard
  · rw [if_pos discarded] at ok
    cases ok
    exact ⟨ctx,.unasked,.inl rfl⟩
  · rw [if_neg discarded] at ok
    cases is : client.proc with
    | none =>
      simp only [is] at ok
      exact ⟨ctx,.unasked,.inr ok⟩
    | some proc =>
      simp only [is] at ok
      by_cases keep : key = keyKeep
      · rw [if_pos keep] at ok
        exact ⟨ctx,.unasked,.inr ok⟩
      · rw [if_neg keep] at ok
        refine ⟨_,.asked is,?_⟩
        by_cases failed : (proc ctx.data arg key ctx.outargs).1 = -1
        · rw [if_pos failed] at ok
          cases ok
        · rw [if_neg failed] at ok
          by_cases done : (proc ctx.data arg key ctx.outargs).1 = 0
          · rw [if_pos done] at ok
            cases ok
            exact .inl rfl
          · rw [if_neg done] at ok
            exact .inr ok

theorem keepStays (ok : (if iso then ctx.addOpt arg else ctx.addArg arg) = .ok next) : Stays client ctx next := by
  cases iso with
  | true =>
    obtain ⟨_,rfl⟩ := addOptOk ok
    exact ⟨rfl,rfl,rfl,fun _ => List.prefix_rfl⟩
  | false => exact addArgStays ok

theorem callProcStays {key : Int} (ok : ctx.callProc client arg key iso = .ok next) : Stays client ctx next := by
  obtain ⟨mid,given,rfl | kept⟩ := callProcSource ok
  · exact given.stays
  · exact given.stays.trans (keepStays kept)

theorem processOptStays {opt : Template} {sep : Nat} (ok : ctx.processOpt client opt sep arg iso = .ok next) :
    Stays client ctx next := by
  unfold Context.processOpt at ok
  split at ok
  · exact callProcStays ok
  · split at ok
    · dsimp only at ok
      split at ok
      · cases ok
        exact ⟨rfl,rfl,rfl,fun _ => List.prefix_rfl⟩
      · cases ok
    · cases ok
      exact ⟨rfl,rfl,rfl,fun _ => List.prefix_rfl⟩

/-! Options with a separate parameter. -/

/- The template wants the parameter of this argument from the next one. -/
def separate (arg : Bytes) (opt : Template) : Bool := match matchTemplate opt.templ arg with
  | none => false
  | some sep => decide (sep ≠ 0 ∧ opt.templ[sep]? = some 32 ∧ arg[sep]? = none)

def Context.withParam (client : Client δ) (ctx : Context δ) (opt : Template) (sep : Nat) (arg param : Bytes)
    (iso : Bool) :
    Except (Context δ) (Context δ) :=
  let (allocated,ctx) := ctx.takeMem
  if allocated then ctx.processOpt client opt sep (arg.take sep ++ param) iso else .error ctx

/- The documented rule: one argument is taken for the option, and the action of every template
that matches is executed with it. -/
def Context.jointly (client : Client δ) (arg : Bytes) (iso : Bool) :
    Option Bytes → Context δ → List Template → Except (Context δ) (Context δ)
  | _, ctx, [] => .ok ctx
  | taken, ctx, opt :: rest => match matchTemplate opt.templ arg with
    | none => Context.jointly client arg iso taken ctx rest
    | some sep =>
      if sep ≠ 0 ∧ opt.templ[sep]? = some 32 ∧ arg[sep]? = none then
        match taken with
        | some param => do
          let ctx ← ctx.withParam client opt sep arg param iso
          Context.jointly client arg iso taken ctx rest
        | none => do
          let ctx ← ctx.nextArg
          let param := (ctx.argv[ctx.argctr]?).getD []
          let ctx ← ctx.withParam client opt sep arg param iso
          Context.jointly client arg iso (some param) ctx rest
      else do
        let ctx ← ctx.processOpt client opt sep arg iso
        Context.jointly client arg iso taken ctx rest

theorem withParamStays {opt : Template} {sep : Nat} {param : Bytes}
    (ok : ctx.withParam client opt sep arg param iso = .ok next) : Stays client ctx next := by
  unfold Context.withParam Context.takeMem at ok
  dsimp only at ok
  split at ok
  · have stays := processOptStays ok
    exact ⟨stays.argv,stays.argctr,stays.nonopt,stays.outargs⟩
  · cases ok

theorem okBind {α β ε : Type} {call : Except ε α} {rest : α → Except ε β} {b : β} (ok : (call >>= rest) = .ok b) :
    ∃ a, call = .ok a ∧ rest a = .ok b := by
  cases call with
  | error failed => cases ok
  | ok a => exact ⟨a,rfl,ok⟩

/- A call that may take arguments, and puts the output arguments behind those it finds. -/
structure Onward (client : Client δ) (taken : Nat) (ctx next : Context δ) : Prop where
  argv : next.argv = ctx.argv
  argctr : next.argctr = ctx.argctr + taken
  nonopt : next.nonopt = ctx.nonopt
  outargs : client.Quiet → ctx.outargs <+: next.outargs

theorem Stays.onward (stays : Stays client ctx next) : Onward client 0 ctx next :=
  ⟨stays.argv,stays.argctr,stays.nonopt,stays.outargs⟩

theorem Onward.trans {m n : Nat} (first : Onward client m ctx mid) (later : Onward client n mid next) :
    Onward client (m+n) ctx next :=
  ⟨later.argv.trans first.argv,by rw [later.argctr,first.argctr,Nat.add_assoc],later.nonopt.trans first.nonopt,
    fun quiet => (first.outargs quiet).trans (later.outargs quiet)⟩

theorem nextArgOnward (ok : ctx.nextArg = .ok next) : Onward client 1 ctx next := by
  unfold Context.nextArg at ok
  split at ok
  · cases ok
  · cases ok
    exact ⟨rfl,rfl,rfl,fun _ => List.prefix_rfl⟩

theorem processOptSepArgOnward {opt : Template} {sep : Nat}
    (ok : ctx.processOptSepArg client opt sep arg iso = .ok next) :
    Onward client 1 ctx next := by
  obtain ⟨mid,taken,done⟩ := okBind ok
  exact (nextArgOnward taken).trans (withParamStays done).onward

theorem matchingTakes {opts : List Template} (ok : Context.matching client arg iso ctx opts = .ok next) :
    Onward client (opts.countP (separate arg)) ctx next := by
  induction opts generalizing ctx with
  | nil =>
    cases ok
    exact ⟨rfl,rfl,rfl,fun _ => List.prefix_rfl⟩
  | cons opt rest ih =>
    rw [Context.matching] at ok
    cases found : matchTemplate opt.templ arg with
    | none =>
      rw [found] at ok
      have plain : separate arg opt = false := by simp only [separate,found]
      rw [List.countP_cons_of_neg (by rw [plain]; decide)]
      exact ih ok
    | some sep =>
      rw [found] at ok
      by_cases apart : sep ≠ 0 ∧ opt.templ[sep]? = some 32 ∧ arg[sep]? = none
      · have counts : separate arg opt = true := by simpa only [separate,found,decide_eq_true_eq] using apart
        simp only [if_pos apart] at ok
        obtain ⟨after,done,ok⟩ := okBind ok
        rw [List.countP_cons_of_pos counts,Nat.add_comm]
        exact (processOptSepArgOnward done).trans (ih ok)
      · have plain : separate arg opt = false := by simpa only [separate,found,decide_eq_false_iff_not] using apart
        simp only [if_neg apart] at ok
        obtain ⟨after,done,ok⟩ := okBind ok
        have onward := (processOptStays done).onward.trans (ih ok)
        rw [Nat.zero_add] at onward
        rw [List.countP_cons_of_neg (by rw [plain]; decide)]
        exact onward

theorem separateMatches {opts : List Template} (wanted : 0 < opts.countP (separate arg)) :
    opts.any (fun opt => (matchTemplate opt.templ arg).isSome) = true := by
  obtain ⟨opt,mem,counts⟩ := List.countP_pos_iff.mp wanted
  refine List.any_eq_true.mpr ⟨opt,mem,?_⟩
  unfold separate at counts
  split at counts
  · cases counts
  · rename_i matched
    rw [matched]
    rfl

theorem processGoptTakes (ok : ctx.processGopt client arg iso = .ok next) :
    Onward client (client.opt.countP (separate arg)) ctx next := by
  unfold Context.processGopt at ok
  split at ok
  · exact matchingTakes ok
  · rename_i none
    have unmatched : client.opt.countP (separate arg) = 0 := by
      by_contra some
      exact none (separateMatches (Nat.pos_of_ne_zero some))
    rw [unmatched]
    exact (callProcStays ok).onward

theorem jointlyPlain {opts : List Template} (none : opts.countP (separate arg) = 0) (taken : Option Bytes) :
    Context.matching client arg iso ctx opts = Context.jointly client arg iso taken ctx opts := by
  induction opts generalizing ctx with
  | nil => rfl
  | cons opt rest ih =>
    have apart : separate arg opt = false := by
      by_contra counts
      rw [List.countP_cons_of_pos (Bool.eq_true_of_not_eq_false counts)] at none
      omega
    rw [List.countP_cons_of_neg (by rw [apart]; decide)] at none
    rw [Context.matching,Context.jointly]
    cases found : matchTemplate opt.templ arg with
    | none => exact ih none
    | some sep =>
      have plain : ¬(sep ≠ 0 ∧ opt.templ[sep]? = some 32 ∧ arg[sep]? = .none) := by
        simpa only [separate,found,decide_eq_false_iff_not] using apart
      simp only [if_neg plain]
      exact congrArg _ (funext fun ctx => ih none)

theorem jointlyOne {opts : List Template} (one : opts.countP (separate arg) = 1) :
    Context.matching client arg iso ctx opts = Context.jointly client arg iso none ctx opts := by
  induction opts generalizing ctx with
  | nil => cases one
  | cons opt rest ih =>
    rw [Context.matching,Context.jointly]
    cases found : matchTemplate opt.templ arg with
    | none =>
      have plain : separate arg opt = false := by simp only [separate,found]
      rw [List.countP_cons_of_neg (by rw [plain]; decide)] at one
      exact ih one
    | some sep =>
      by_cases apart : sep ≠ 0 ∧ opt.templ[sep]? = some 32 ∧ arg[sep]? = none
      · have counts : separate arg opt = true := by simpa only [separate,found,decide_eq_true_eq] using apart
        rw [List.countP_cons_of_pos counts] at one
        simp only [if_pos apart]
        unfold Context.processOptSepArg
        rw [bind_assoc]
        refine congrArg _ (funext fun mid => ?_)
        exact congrArg _ (funext fun after => jointlyPlain (by omega) _)
      · have plain : separate arg opt = false := by simpa only [separate,found,decide_eq_false_iff_not] using apart
        rw [List.countP_cons_of_neg (by rw [plain]; decide)] at one
        simp only [if_neg apart]
        exact congrArg _ (funext fun ctx => ih one)

/-! The turns of the loop. -/

inductive Turned (client : Client δ) (start : Context δ) : Nat → Context δ → Prop
  | start : Turned client start 0 start
  | turn {n : Nat} {ctx mid : Context δ} {arg : Bytes} (before : Turned client start n ctx)
      (found : ctx.argv[ctx.argctr]? = some arg) (ok : ctx.processOne client arg = .ok mid) :
      Turned client start (n+1) {mid with argctr := mid.argctr + 1}

theorem realGroupOnward {skip : Nat} {d s : Bytes} (ok : Context.realOptionGroup client skip ctx d s = .ok next) :
    ∃ taken, Onward client taken ctx next := by
  induction s generalizing skip ctx d with
  | nil => exact ⟨_,processGoptTakes ok⟩
  | cons b s ih =>
    cases skip with
    | succ skip => exact ih ok
    | zero =>
      rw [Context.realOptionGroup] at ok
      split at ok
      · obtain ⟨mid,done,ok⟩ := okBind ok
        obtain ⟨taken,later⟩ := ih ok
        exact ⟨_,(processGoptTakes done).trans later⟩
      · exact ih ok

theorem optionGroupOnward {group : Bytes} (ok : ctx.optionGroup client group = .ok next) :
    ∃ taken, Onward client taken ctx next := by
  unfold Context.optionGroup Context.takeMem at ok
  dsimp only at ok
  split at ok
  · obtain ⟨taken,onward⟩ := realGroupOnward ok
    exact ⟨taken,onward.argv,onward.argctr,onward.nonopt,onward.outargs⟩
  · cases ok

def IsOption (arg : Bytes) : Prop := arg[0]? = some dash ∧ arg[1]? ≠ some 111 ∧ arg ≠ dashDash

inductive Ran (client : Client δ) (ctx : Context δ) (arg : Bytes) : Context δ → Prop
  | option {next : Context δ} (before : ctx.nonopt = 0) (option : IsOption arg)
      (done : ctx.processGopt client arg false = .ok next) :
    Ran client ctx arg next
  | separator (memory : Nat → Bool) (before : ctx.nonopt = 0) (dashes : arg = dashDash) :
    Ran client ctx arg {ctx with outargs := ctx.outargs ++ [arg], nonopt := ctx.outargs.length + 1, memory := memory}
  | other {next : Context δ} {taken : Nat} (other : ctx.nonopt ≠ 0 ∨ ¬IsOption arg)
      (dashes : ctx.nonopt ≠ 0 ∨ arg ≠ dashDash)
    (onward : Onward client taken ctx next) : Ran client ctx arg next

theorem processOneRan (ok : ctx.processOne client arg = .ok next) : Ran client ctx arg next := by
  unfold Context.processOne at ok
  split at ok
  · rename_i rest
    have onward := (callProcStays ok).onward
    rcases rest with after | plain
    · exact .other (.inl after) (.inl after) onward
    · exact .other (.inr fun option => plain option.1) (.inr fun dashes => plain ((dashDashIff arg).mp dashes).1) onward
  · rename_i first
    obtain ⟨before,dashed⟩ := not_or.mp first
    have before := not_not.mp before
    split at ok
    · rename_i group
      have named : arg ≠ dashDash := fun dashes => by
        have second := ((dashDashIff arg).mp dashes).2.1
        rw [group] at second
        exact absurd second (by decide)
      have plain : ¬IsOption arg := fun option => option.2.1 group
      split at ok
      · obtain ⟨taken,onward⟩ := optionGroupOnward ok
        exact .other (.inr plain) (.inr named) onward
      · obtain ⟨mid,taken,ok⟩ := okBind ok
        obtain ⟨_,onward⟩ := optionGroupOnward ok
        exact .other (.inr plain) (.inr named) ((nextArgOnward taken).trans onward)
    · rename_i group
      split at ok
      · rename_i dashes
        obtain ⟨mid,added,ok⟩ := okBind ok
        obtain ⟨memory,rfl⟩ := addArgOk added
        cases ok
        simp only [List.length_append,List.length_singleton]
        exact .separator memory before ((dashDashIff arg).mpr ⟨not_not.mp dashed,dashes⟩)
      · rename_i dashes
        exact .option before ⟨not_not.mp dashed,group,fun same => dashes ((dashDashIff arg).mp same).2⟩ ok

theorem Ran.args (ran : Ran client ctx arg next) : next.argv = ctx.argv ∧ ctx.argctr ≤ next.argctr := by
  cases ran with
  | option before option done =>
    have onward := processGoptTakes done
    exact ⟨onward.argv,by rw [onward.argctr]; omega⟩
  | separator memory before dashes => exact ⟨rfl,Nat.le_refl _⟩
  | other other dashes onward => exact ⟨onward.argv,by rw [onward.argctr]; omega⟩

theorem Turned.args {n : Nat} (turned : Turned client start n ctx) :
    ctx.argv = start.argv ∧ start.argctr + n ≤ ctx.argctr := by
  induction turned with
  | start => exact ⟨rfl,Nat.le_refl _⟩
  | turn before found ok ih =>
    have args := (processOneRan ok).args
    refine ⟨args.1.trans ih.1,?_⟩
    show _ ≤ _ + 1
    omega

theorem Turned.rest {n fuel : Nat} (turned : Turned client start n ctx) (below : n ≤ fuel)
    (ok : Context.loop client fuel start = .ok last) : Context.loop client (fuel - n) ctx = .ok last := by
  induction turned with
  | start => exact ok
  | @turn n ctx mid arg before found done ih =>
    have rest := ih (by omega)
    rw [show fuel - n = fuel - (n + 1) + 1 by omega] at rest
    obtain ⟨mid',same,rest⟩ := loopTurn found rest
    cases done.symm.trans same
    exact rest

/- The context of a parse, and the one in which its loop starts: the program name is kept. -/
def initial (data : δ) (memory : Nat → Bool) (args : List Bytes) : Context δ := ⟨data,0,args,[],none,0,memory⟩

def Begun (ctx start : Context δ) : Prop := ∃ name rest named, ctx.argv = name :: rest ∧ ctx.addArg name = .ok named ∧
  start = {named with argctr := 1}

theorem begunFields (begun : Begun ctx start) : start.argv = ctx.argv ∧ start.argctr = 1 ∧ start.nonopt = ctx.nonopt ∧
    ∃ name, ctx.argv.head? = some name ∧ start.outargs = ctx.outargs ++ [name] := by
  obtain ⟨name,rest,named,args,added,rfl⟩ := begun
  obtain ⟨_,rfl⟩ := addArgOk added
  exact ⟨rfl,rfl,rfl,name,by rw [args]; rfl,rfl⟩

theorem parseSource {data : δ} {memory : Nat → Bool} {args : List Bytes}
    (begun : Begun (initial data memory args) start) (ok : (fuseOptParse client data memory args).1 = 0) :
    ∃ mid inserted,
    Context.loop client args.length start = .ok mid ∧ mid.insertOpts = .ok inserted ∧
    (fuseOptParse client data memory args).2.1 = inserted.dropSeparator.outargs := by
  obtain ⟨name,rest,named,is,added,rfl⟩ := begun
  change args = name :: rest at is
  subst is
  obtain ⟨last,parsed,eq⟩ | ⟨_,_,eq⟩ := fuseOptParseCases client data memory name rest
  · rw [eq]
    unfold Context.optParse at parsed
    rw [initial] at added
    simp only [added] at parsed
    obtain ⟨_,rfl⟩ := addArgOk added
    change (Context.loop client (name :: rest).length ⟨data,1,name :: rest,[name],none,0,_⟩ >>= _) = _ at parsed
    obtain ⟨mid,looped,parsed⟩ := okBind parsed
    change (mid.insertOpts >>= _) = _ at parsed
    obtain ⟨inserted,grouped,parsed⟩ := okBind parsed
    cases parsed
    exact ⟨mid,inserted,looped,grouped,rfl⟩
  · rw [eq] at ok
    cases ok

theorem Turned.taken {n fuel : Nat} (turned : Turned client start n ctx) (first : start.argctr = 1)
    (found : ctx.argv[ctx.argctr]? = some arg) (enough : start.argv.length ≤ fuel)
    (ok : Context.loop client fuel start = .ok last) : ∃ mid, ctx.processOne client arg = .ok mid := by
  obtain ⟨same,count⟩ := turned.args
  obtain ⟨inside,-⟩ := List.getElem?_eq_some_iff.mp found
  rw [same] at inside
  have below : n ≤ fuel := by omega
  have rest := turned.rest below ok
  rw [show fuel - n = fuel - n - 1 + 1 by omega] at rest
  obtain ⟨mid,done,-⟩ := loopTurn found rest
  exact ⟨mid,done⟩

/- In a parse that succeeds an option for which a template wants a separate parameter takes one
argument, and every such template works on the same joined argument, just when no other template
wants one. -/
theorem parameterShared (client : Client δ) (data : δ) (memory : Nat → Bool) (args : List Bytes)
    (ok : (fuseOptParse client data memory args).1 = 0) (begun : Begun (initial data memory args) start)
    {n : Nat} (turned : Turned client start n ctx) (found : ctx.argv[ctx.argctr]? = some arg) (before : ctx.nonopt = 0)
    (option : IsOption arg) (wanted : 0 < client.opt.countP (separate arg)) :
    ∃ next, ctx.processOne client arg = .ok next ∧
      ((next.argctr = ctx.argctr + 1 ∧ Context.jointly client arg false none ctx client.opt = .ok next) ↔
        client.opt.countP (separate arg) = 1) := by
  obtain ⟨mid,_,looped,-,-⟩ := parseSource begun ok
  obtain ⟨argv,one,-⟩ := begunFields begun
  obtain ⟨next,done⟩ := turned.taken one found (Nat.le_of_eq (congrArg List.length argv)) looped
  refine ⟨next,done,?_⟩
  cases processOneRan done with
  | option before option parsed =>
    have takes := (processGoptTakes parsed).argctr
    constructor
    · intro both
      omega
    · intro single
      refine ⟨by rw [takes,single],?_⟩
      rw [← jointlyOne single]
      rw [Context.processGopt,if_pos (separateMatches wanted)] at parsed
      exact parsed
  | separator memory before dashes => exact absurd dashes option.2.2
  | other other dashes onward =>
    rcases other with after | plain
    · exact absurd before after
    · exact absurd option plain

/- A processing function that takes every option and keeps a list of its calls. -/
def recorder (opt : List Template) : Client (List (Bytes × Int)) :=
  ⟨opt,some fun data arg key outargs => (0,data ++ [(arg,key)],outargs),fun _ _ data =>
    data,fun _ _ _ data => some data⟩

theorem oneParameterTaken :
    let client := recorder [⟨ascii "-y",none,1⟩,⟨ascii "-x ",none,2⟩]
    let start : Context (List (Bytes × Int)) := ⟨[],1,[ascii "p",ascii "-x",ascii "a"],[ascii "p"],none,0,fun _ => true⟩
    ∃ next, start.processOne client (ascii "-x") = .ok next ∧ next.argctr = 2 ∧ next.data = [(ascii "-xa",2)] := by
  intro client start
  have begun : Begun (initial [] (fun _ => true) [ascii "p",ascii "-x",ascii "a"]) start := ⟨_,_,_,rfl,rfl,rfl⟩
  have found : start.argv[start.argctr]? = some (ascii "-x") := by decide
  obtain ⟨next,done,shared⟩ := parameterShared client [] (fun _ => true) [ascii "p",ascii "-x",ascii "a"]
    (by decide) begun
    .start found rfl (by unfold IsOption; decide) (by decide)
  obtain ⟨taken,-⟩ := shared.mpr (by decide)
  exact ⟨next,done,taken,by cases done; decide⟩

/- With two templates for -x the second takes the next argument but one. -/
theorem parameterTakenTwice :
    let client := recorder [⟨ascii "-x ",none,1⟩,⟨ascii "-x ",none,2⟩]
    let args := [ascii "p",ascii "-x",ascii "a",ascii "b"]
    let start : Context (List (Bytes × Int)) := ⟨[],1,args,[ascii "p"],none,0,fun _ => true⟩
    Begun (initial [] (fun _ => true) args) start ∧ Turned client start 0 start ∧
      start.argv[start.argctr]? = some (ascii "-x") ∧
      IsOption (ascii "-x") ∧ 0 < client.opt.countP (separate (ascii "-x")) ∧
      (∃ next, start.processOne client (ascii "-x") = .ok next ∧ next.argctr = start.argctr + 2) ∧
      fuseOptParse client [] (fun _ => true) args = (0,[ascii "p"],[(ascii "-xa",1),(ascii "-xb",2)]) :=
  ⟨⟨_,_,_,rfl,rfl,rfl⟩,.start,rfl,by unfold IsOption; decide,by decide,⟨_,rfl,rfl⟩,by decide⟩

/-! The separator. -/

/- The separator was met in some turn and is kept in the output where nonopt says. -/
def Recognised (client : Client δ) (start ctx : Context δ) : Prop :=
  ∃ n before, Turned client start n before ∧ before.nonopt = 0 ∧ before.argv[before.argctr]? = some dashDash ∧
    ctx.nonopt = before.outargs.length + 1 ∧ before.outargs ++ [dashDash] <+: ctx.outargs

theorem Turned.recognises {n : Nat} (turned : Turned client start n ctx) (quiet : client.Quiet)
    (clear : start.nonopt = 0) :
    start.outargs <+: ctx.outargs ∧ (ctx.nonopt ≠ 0 → Recognised client start ctx) := by
  have onward {taken : Nat} {ctx next : Context δ} (onward : Onward client taken ctx next)
      (ih : start.outargs <+: ctx.outargs ∧ (ctx.nonopt ≠ 0 → Recognised client start ctx)) :
      start.outargs <+: next.outargs ∧ (next.nonopt ≠ 0 → Recognised client start next) := by
    refine ⟨ih.1.trans (onward.outargs quiet),fun after => ?_⟩
    rw [onward.nonopt] at after
    obtain ⟨n,before,turned,none,found,nonopt,inside⟩ := ih.2 after
    exact ⟨n,before,turned,none,found,onward.nonopt.trans nonopt,inside.trans (onward.outargs quiet)⟩
  induction turned with
  | start => exact ⟨List.prefix_rfl,fun after => absurd clear after⟩
  | @turn n ctx mid arg before found ok ih =>
    cases processOneRan ok with
    | option none option done =>
      have kept := onward (processGoptTakes done) ih
      exact kept
    | separator memory none dashes =>
      subst dashes
      refine ⟨ih.1.trans (List.prefix_append ..),fun _ => ⟨n,ctx,before,none,found,rfl,List.prefix_rfl⟩⟩
    | other other dashes goes =>
      have kept := onward goes ih
      exact kept

theorem loopTurned {n fuel : Nat} (turned : Turned client start n ctx)
    (enough : start.argv.length ≤ start.argctr + n + fuel) (ok : Context.loop client fuel ctx = .ok last) :
    ∃ n, Turned client start n last ∧ last.argv.length ≤ last.argctr := by
  induction fuel generalizing n ctx with
  | zero =>
    cases ok
    obtain ⟨same,count⟩ := turned.args
    exact ⟨n,turned,by rw [same]; omega⟩
  | succ fuel ih =>
    cases found : ctx.argv[ctx.argctr]? with
    | none =>
      have finished := List.getElem?_eq_none_iff.mp found
      rw [loopEnd finished ok]
      exact ⟨n,turned,finished⟩
    | some arg =>
      obtain ⟨mid,done,ok⟩ := loopTurn found ok
      exact ih (.turn turned found done) (by omega) ok

/- The output with the group put in, before the clean-up, and where the separator stands there. -/
def Context.grouped (ctx : Context δ) : List Bytes :=
  ctx.outargs.take 1 ++ (match ctx.opts with | none => [] | some opts => [dashO,opts]) ++ ctx.outargs.drop 1

def Context.separatorAt (ctx : Context δ) : Nat := ctx.nonopt - 1 + if ctx.opts = none then 0 else 2

/- What the clean-up is for: the separator is not the last argument, and nothing else is gone. -/
structure SeparatorGone (ctx : Context δ) (output : List Bytes) : Prop where
  last : ctx.nonopt ≠ 0 → output.length ≠ ctx.separatorAt + 1
  only : output = ctx.grouped ∨
    ctx.nonopt ≠ 0 ∧ ctx.grouped.length = ctx.separatorAt + 1 ∧ output = ctx.grouped.dropLast

theorem Recognised.shape {name : Bytes} (recognised : Recognised client start ctx) (quiet : client.Quiet)
    (clear : start.nonopt = 0) (named : start.outargs = [name]) :
    ∃ others more, ctx.outargs = name :: (others ++ dashDash :: more) ∧ ctx.nonopt = others.length + 2 := by
  obtain ⟨n,before,turned,-,-,nonopt,⟨more,inside⟩⟩ := recognised
  obtain ⟨others,first⟩ := (turned.recognises quiet clear).1
  rw [named,List.singleton_append] at first
  refine ⟨others,more,?_,?_⟩
  · rw [← inside,← first]
    simp
  · rw [nonopt,← first,List.length_cons]

theorem groupedOf {name : Bytes} {others : List Bytes} (outargs : ctx.outargs = name :: others) :
    ctx.grouped = name :: (match ctx.opts with | none => [] | some opts => [dashO,opts]) ++ others := by
  rw [Context.grouped,outargs]
  rfl

/- After the last turn the clean-up does what it is for, unless a group was put in front of a
separator that nothing follows. -/
theorem separatorRemoved (client : Client δ) (quiet : client.Quiet) (data : δ) (memory : Nat → Bool) (args : List Bytes)
    (ok : (fuseOptParse client data memory args).1 = 0) (begun : Begun (initial data memory args) start) :
    ∃ n ctx, Turned client start n ctx ∧ ctx.argv.length ≤ ctx.argctr ∧
      (ctx.nonopt ≠ 0 → Recognised client start ctx ∧ ctx.grouped[ctx.separatorAt]? = some dashDash) ∧
      (SeparatorGone ctx (fuseOptParse client data memory args).2.1 ↔
        ctx.opts = none ∨ ctx.nonopt = 0 ∨ ctx.nonopt < ctx.outargs.length) := by
  obtain ⟨ctx,inserted,looped,grouped,output⟩ := parseSource begun ok
  obtain ⟨argv,one,clear,name,-,named⟩ := begunFields begun
  obtain ⟨n,turned,finished⟩ := loopTurned .start (by rw [argv,one]; exact Nat.le_add_left ..) looped
  obtain ⟨begins,recognised⟩ := turned.recognises quiet clear
  obtain ⟨others,outargs⟩ := begins
  rw [named,List.append_assoc] at outargs
  have outargs : ctx.outargs = name :: others := outargs.symm
  obtain ⟨nonopt,full⟩ := insertOptsOk grouped outargs
  have full : inserted.outargs = ctx.grouped := full.trans (groupedOf outargs).symm
  refine ⟨n,ctx,turned,finished,fun after => ⟨recognised after,?_⟩,?_⟩
  · obtain ⟨before,more,shape,place⟩ := (recognised after).shape quiet clear named
    rw [groupedOf shape,Context.separatorAt,place]
    cases ctx.opts <;> simp
  rw [output,Context.dropSeparator,nonopt,full]
  by_cases after : ctx.nonopt = 0
  · rw [if_neg (by simp [after])]
    exact ⟨fun _ => .inr (.inl after),fun _ => ⟨fun some => absurd after some,.inl full⟩⟩
  · obtain ⟨before,more,shape,place⟩ := (recognised after).shape quiet clear named
    have whole := groupedOf shape
    have count : ctx.outargs.length = ctx.nonopt + more.length := by
      rw [shape,place]
      simp only [List.length_cons,List.length_append]
      omega
    cases opts : ctx.opts with
    | none =>
      rw [opts] at whole
      have size : ctx.grouped.length = ctx.nonopt + more.length := by rw [whole,← count,shape]; rfl
      have at_ : ctx.separatorAt + 1 = ctx.nonopt := by rw [Context.separatorAt,opts,if_pos rfl]; omega
      refine ⟨fun _ => .inl rfl,fun _ => ?_⟩
      by_cases ends : more = []
      · subst ends
        have lastOne : ctx.grouped.getLast? = some dashDash := by
          rw [whole]
          exact List.getLast?_concat (l := name :: before)
        rw [if_pos ⟨after,size.symm,lastOne⟩]
        refine ⟨fun _ => ?_,.inr ⟨after,by rw [at_,size]; rfl,rfl⟩⟩
        show ctx.grouped.dropLast.length ≠ _
        rw [List.length_dropLast,size,at_,List.length_nil]
        omega
      · have some := List.length_pos_iff.mpr ends
        rw [if_neg (by omega)]
        exact ⟨fun _ => by rw [full,size,at_]; omega,.inl full⟩
    | some group =>
      rw [opts] at whole
      have size : ctx.grouped.length = ctx.nonopt + 2 + more.length := by
        rw [whole,place]
        simp only [List.length_cons,List.length_append,List.length_nil]
        omega
      have at_ : ctx.separatorAt + 1 = ctx.nonopt + 2 := by rw [Context.separatorAt,opts,if_neg (by simp)]; omega
      rw [if_neg (by omega),full]
      constructor
      · intro gone
        have behind := gone.last after
        rw [size,at_] at behind
        refine .inr (.inr ?_)
        omega
      · intro behind
        refine ⟨fun _ => ?_,.inl rfl⟩
        rw [size,at_]
        have behind := behind.resolve_left (by simp)
        omega

theorem separatorRemovedAlone : ∃ start n ctx, Begun (initial () (fun _ => true) [ascii "p",dashDash]) start ∧
    Turned bare start n ctx ∧ (SeparatorGone ctx [ascii "p"] ↔
      ctx.opts = none ∨ ctx.nonopt = 0 ∨ ctx.nonopt < ctx.outargs.length) := by
  have begun : Begun (initial () (fun _ => true) [ascii "p",dashDash])
      ⟨(),1,[ascii "p",dashDash],[ascii "p"],none,0,fun _ => true⟩ :=
    ⟨_,_,_,rfl,rfl,rfl⟩
  obtain ⟨n,ctx,turned,-,-,gone⟩ := separatorRemoved bare (fun _ is => nomatch is) () (fun _ => true)
    [ascii "p",dashDash]
    (by decide) begun
  exact ⟨_,n,ctx,begun,turned,gone⟩

/- An option of a group is kept, so two arguments are put in front of the separator. -/
theorem separatorBehindGroup :
    let args := [ascii "p",ascii "-oa",dashDash]
    (∃ start ctx, Begun (initial () (fun _ => true) args) start ∧ Turned bare start 2 ctx ∧
      ctx.argv.length ≤ ctx.argctr ∧
      Recognised bare start ctx ∧ ¬SeparatorGone ctx (fuseOptParse bare () (fun _ => true) args).2.1) ∧
    fuseOptParse bare () (fun _ => true) args = (0,[ascii "p",dashO,ascii "a",dashDash],()) := by
  intro args
  have grouped : Context.processOne bare ⟨(),1,args,[ascii "p"],none,0,fun _ => true⟩ (ascii "-oa") =
      .ok ⟨(),1,args,[ascii "p"],some (ascii "a"),0,fun _ => true⟩ := rfl
  have separated : Context.processOne bare ⟨(),2,args,[ascii "p"],some (ascii "a"),0,fun _ => true⟩ dashDash =
      .ok ⟨(),2,args,[ascii "p",dashDash],some (ascii "a"),2,fun _ => true⟩ := rfl
  have one := Turned.turn .start (show args[1]? = some (ascii "-oa") from rfl) grouped
  refine ⟨⟨_,_,⟨_,_,_,rfl,rfl,rfl⟩,.turn one (show args[2]? = some dashDash from rfl) separated,by decide,
    ?_,?_⟩,by decide⟩
  · exact ⟨1,_,one,rfl,rfl,rfl,List.prefix_rfl⟩
  · intro gone
    exact gone.last (by decide) (by decide)

end FuseStudy.FuseOpt
