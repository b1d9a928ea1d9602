import FuseStudy.KernMount

/-! mount_fuse and may_unmount of util/fusermount.c: what is recorded of a mount, and who may take it back. -/
namespace FuseStudy.MayUnmount
open CString DoMount XOptions
open KernMount (listed)

structure Entry where
  source : Bytes
  dir : Bytes
  type : Bytes
  opts : Bytes
  deriving DecidableEq, Repr

/- What mount_fuse finds besides what do_mount reads: the device it opened, whether there are too many
mounts, what check_perm says of the mountpoint, and the outcome of the calls after the mount. -/
structure Host where
  device : Option (Int32 × Bytes)
  tooMany : Bool
  place : Option (Bytes × UInt32)
  chdir : Bool
  euid : UInt32
  addMount : Bool

def addBack (mntOpts xOpts : Bytes) : Bytes :=
  if xOpts = [] then mntOpts else (if mntOpts = [] then [] else mntOpts ++ [comma]) ++ xOpts

def mountFuse (env : Env) (host : Host) (mnt opts : Bytes) : Option (Option Entry) :=
  match host.device with
  | none => none
  | some (fd,dev) =>
    if host.tooMany then none
    else match extractXOptions opts with
      | none => none
      | some (doMountOpts,xOpts) =>
        match host.place with
        | none => none
        | some (realMnt,rootmode) =>
          match (doMount env realMnt dev doMountOpts fd rootmode).ended with
          | .mounted source type mntOpts =>
            if host.chdir = false then none
            else if host.euid ≠ 0 then some none
            else if host.addMount = false then none
            else some (some ⟨source,mnt,type,addBack mntOpts xOpts⟩)
          | _ => none

def strstr (needle : Bytes) : Bytes → Option (Bytes × Bytes)
  | [] => if needle.isPrefixOf [] then some ([],[]) else none
  | b :: s =>
    if needle.isPrefixOf (b :: s) then some ([],b :: s)
    else (strstr needle s).map fun found => (b :: found.1,found.2)

/- p == mnt_opts || *(p-1) == ',' -/
def ownOption (before : Bytes) : Bool := before = [] || before.getLast? = some comma

def fuseType (type : Bytes) : Bool :=
  type = ascii "fuse" || type = ascii "fuseblk" || beginsWith type "fuse." || beginsWith type "fuseblk."

def namesUser (user opts : Bytes) : Bool :=
  match strstr (ascii "user=") opts with
  | some (before,p) => ownOption before && p.drop 5 = user
  | none => false

def namesUid (uid : UInt32) (opts : Bytes) : Bool :=
  match strstr (ascii "user_id=") opts with
  | some (before,p) =>
    ownOption before && (decimal uid.toNat).isPrefixOf (p.drop 8) &&
      ((p.drop (8 + (decimal uid.toNat).length)).head? = some comma || p.drop (8 + (decimal uid.toNat).length) = [])
  | none => false

def acceptsEntry (user : Bytes) (uid : UInt32) (mnt : Bytes) (e : Entry) : Bool :=
  e.dir = mnt && fuseType e.type && (namesUser user e.opts || namesUid uid e.opts)

/- Over the entries of the mount table; none where it cannot be opened. -/
def mayUnmount (env : Env) (table : Option (List Entry)) (mnt : Bytes) : Bool :=
  match env.userName,table with
  | some user,some entries => entries.any (acceptsEntry user env.uid mnt)
  | _,_ => false

/-! Searching in an option string. -/

theorem strstrFound {needle s before p : Bytes} (found : strstr needle s = some (before,p)) :
    s = before ++ p ∧ needle <+: p := by
  induction s generalizing before with
  | nil =>
    rw [strstr] at found
    split at found
    · rename_i here
      cases found
      exact ⟨rfl,List.isPrefixOf_iff_prefix.mp here⟩
    · cases found
  | cons b s ih =>
    rw [strstr] at found
    split at found
    · rename_i here
      cases found
      exact ⟨rfl,List.isPrefixOf_iff_prefix.mp here⟩
    · obtain ⟨⟨front,q⟩,later,same⟩ := Option.map_eq_some_iff.mp found
      cases same
      obtain ⟨split,starts⟩ := ih later
      exact ⟨congrArg (b :: ·) split,starts⟩

theorem strstrLeast (needle front rest : Bytes) :
    ∃ before p, strstr needle (front ++ needle ++ rest) = some (before,p) ∧ before.length ≤ front.length := by
  induction front with
  | nil =>
    have here : needle.isPrefixOf (needle ++ rest) = true := List.isPrefixOf_iff_prefix.mpr (List.prefix_append _ _)
    refine ⟨[],needle ++ rest,?_,Nat.le_refl _⟩
    cases needle with
    | nil => cases rest <;> rfl
    | cons b needle => exact if_pos here
  | cons b front ih =>
    obtain ⟨before,p,found,least⟩ := ih
    rw [List.cons_append,List.cons_append,strstr]
    split
    · exact ⟨[],_,rfl,Nat.zero_le _⟩
    · exact ⟨b :: before,p,by rw [found]; rfl,Nat.succ_le_succ least⟩

theorem strstrAbsent {needle s : Bytes} (none : strstr needle s = none) : ¬needle <:+: s := by
  rintro ⟨front,rest,rfl⟩
  obtain ⟨before,p,found,-⟩ := strstrLeast needle front rest
  rw [found] at none
  cases none

theorem prefixField {needle front rest : Bytes} (plain : comma ∉ needle) (starts : needle <+: front ++ comma :: rest) :
    needle <+: front := by
  induction needle generalizing front with
  | nil => exact List.nil_prefix
  | cons b needle ih =>
    obtain ⟨first,later⟩ := not_or.mp (mt List.mem_cons.mpr plain)
    cases front with
    | nil => exact absurd (List.cons_prefix_cons.mp starts).1.symm first
    | cons c front =>
      obtain ⟨same,starts⟩ := List.cons_prefix_cons.mp starts
      exact List.cons_prefix_cons.mpr ⟨same,ih later starts⟩

theorem strstrBehind {needle front : Bytes} (rest : Bytes) (some : needle ≠ []) (plain : comma ∉ needle)
    (absent : ¬needle <:+: front) :
    strstr needle (front ++ comma :: rest) =
      (strstr needle rest).map fun found => (front ++ comma :: found.1,found.2) := by
  induction front with
  | nil =>
    have off : needle.isPrefixOf (comma :: rest) ≠ true := by
      intro here
      have starts := List.isPrefixOf_iff_prefix.mp here
      exact some (List.prefix_nil.mp (@prefixField needle [] rest plain starts))
    exact if_neg off
  | cons b front ih =>
    have off : needle.isPrefixOf (b :: (front ++ comma :: rest)) ≠ true := by
      intro here
      have starts : needle <+: (b :: front) ++ comma :: rest := List.isPrefixOf_iff_prefix.mp here
      exact absent (prefixField plain starts).isInfix
    have step : strstr needle (b :: (front ++ comma :: rest)) =
        (strstr needle (front ++ comma :: rest)).map fun found => (b :: found.1,found.2) := if_neg off
    rw [List.cons_append,step,ih fun inside => absent (inside.trans (List.suffix_cons b front).isInfix),Option.map_map]
    rfl

theorem ownField {needle before p : Bytes} {fields : List Bytes} (plain : comma ∉ needle)
    (fieldsPlain : ∀ field ∈ fields, comma ∉ field) (some : fields ≠ []) (whole : joined comma fields = before ++ p)
    (starts : needle <+: p) (own : ownOption before = true) : ∃ field ∈ fields, needle <+: field := by
  have inside : ∀ field ∈ split comma p, field ∈ fields := by
    rw [← splitPlainJoined some fieldsPlain,whole]
    simp only [ownOption,Bool.or_eq_true,decide_eq_true_eq] at own
    obtain rfl | last := own
    · exact fun field inside => inside
    · obtain ⟨front,rfl⟩ := List.getLast?_eq_some_iff.mp last
      intro field inside
      rw [List.append_assoc,List.singleton_append,splitSeparated]
      exact List.mem_append_right _ inside
  cases fieldsP : split comma p with
  | nil => exact absurd fieldsP (splitNe comma p)
  | cons head tail =>
    rw [fieldsP] at inside
    refine ⟨head,inside head List.mem_cons_self,?_⟩
    have text := joinedSplit comma p
    rw [fieldsP] at text
    cases tail with
    | nil =>
      rw [← text] at starts
      exact starts
    | cons next tail =>
      rw [joinedCons comma head (List.cons_ne_nil _ _)] at text
      rw [← text] at starts
      exact prefixField plain starts

theorem infixSplit {needle front rest : Bytes} (some : needle ≠ []) (plain : comma ∉ needle) :
    needle <:+: front ++ comma :: rest ↔ needle <:+: front ∨ needle <:+: rest := by
  constructor
  · intro inside
    by_cases absent : needle <:+: front
    · exact .inl absent
    · obtain ⟨a,b,whole⟩ := inside
      obtain ⟨before,p,found,-⟩ := strstrLeast needle a b
      rw [whole,strstrBehind rest some plain absent] at found
      obtain ⟨⟨front',q⟩,later,same⟩ := Option.map_eq_some_iff.mp found
      obtain ⟨split,starts⟩ := strstrFound later
      rw [split]
      exact .inr (starts.isInfix.trans (List.suffix_append front' q).isInfix)
  · rintro (inside | inside)
    · exact inside.trans (List.prefix_append _ _).isInfix
    · exact inside.trans ((List.suffix_cons comma rest).trans (List.suffix_append front _)).isInfix

theorem infixJoined {needle : Bytes} {fields : List Bytes} (some : needle ≠ []) (plain : comma ∉ needle) :
    needle <:+: joined comma fields ↔ ∃ field ∈ fields, needle <:+: field := by
  induction fields with
  | nil =>
    refine iff_of_false (fun inside => some (List.infix_nil.mp inside)) ?_
    rintro ⟨field,⟨⟩,-⟩
  | cons field rest ih =>
    cases rest with
    | nil => simp [joined]
    | cons next rest =>
      rw [joinedCons comma field (List.cons_ne_nil _ _),infixSplit some plain,ih]
      simp only [List.mem_cons,or_and_right,exists_or,exists_eq_left]

/-! What do_mount records. -/

/- The options as the loop of do_mount takes them from the string. -/
def tokens (s : Bytes) : List Bytes :=
  match s with
  | [] => []
  | b :: rest => (b :: rest).take (tokenLen (b :: rest)) :: tokens ((b :: rest).drop (tokenLen (b :: rest) + 1))
termination_by s.length
decreasing_by simp only [List.length_drop,List.length_cons]; omega

def goesOn (token : Bytes) : Bool :=
  optEq token "default_permissions" || optEq token "allow_other" || beginsWith token "max_read=" ||
    beginsWith token "blksize="

def kernelTokens (s : Bytes) : List Bytes := (tokens s).filter goesOn

theorem goesOnClash {token s : Bytes} {key : String} (starts : token <+: s) (other : beginsWith s key = true)
    (clash : ∀ start ∈ ["default_permissions","allow_other","max_read=","blksize="],
      ¬ascii key <+: ascii start ∧ ¬ascii start <+: ascii key) : goesOn token = false := by
  have key' : ascii key <+: s := List.isPrefixOf_iff_prefix.mp other
  have apart : ∀ start ∈ ["default_permissions","allow_other","max_read=","blksize="], ¬ascii start <+: token := by
    intro start which here
    obtain short | long := List.prefix_or_prefix_of_prefix (here.trans starts) key'
    · exact (clash start which).2 short
    · exact (clash start which).1 long
  cases on : goesOn token with
  | false => rfl
  | true =>
    simp only [goesOn,optEq,beginsWith,Bool.or_eq_true,decide_eq_true_eq,List.isPrefixOf_iff_prefix] at on
    obtain ((rfl | rfl) | read) | size := on
    · exact absurd List.prefix_rfl (apart "default_permissions" (by simp))
    · exact absurd List.prefix_rfl (apart "allow_other" (by simp))
    · exact absurd read (apart "max_read=" (by simp))
    · exact absurd size (apart "blksize=" (by simp))

theorem kernelOptionBuf {env : Env} {st out : Scan} {s : Bytes}
    (ok : kernelOption env st s (s.take (optionLen false s)) = .ok out) :
    out.optbuf = st.optbuf ++ if goesOn (s.take (optionLen false s)) = true then s.take
      (optionLen false s) ++ [comma] else [] := by
  unfold kernelOption at ok
  simp only at ok
  split at ok
  · cases ok
  · split at ok
    · rename_i skip
      cases ok
      have large : s.take (optionLen false s) = ascii "large_read" := by
        simp only [skipLargeRead,Bool.and_eq_true,optEq,decide_eq_true_eq] at skip
        exact skip.1
      rw [large,if_neg (by decide),List.append_nil]
    · have named : ∀ m ∈ mountFlags, goesOn m.opt = false := by decide
      have flagged {on : Bool} {flag : Flags}
        (found : findMountFlag env (s.take (optionLen false s)) = some (on,flag)) :
          goesOn (s.take (optionLen false s)) = false := by
        simp only [findMountFlag,bind,Option.bind_eq_some_iff] at found
        obtain ⟨m,found,-⟩ := found
        have same := List.find?_some found
        rw [← of_decide_eq_true same]
        exact named m (List.mem_of_find?_eq_some found)
      split at ok
      · rename_i flag found
        cases ok
        rw [flagged found]
        exact (List.append_nil _).symm
      · rename_i flag found
        cases ok
        rw [flagged found]
        exact (List.append_nil _).symm
      · split at ok
        · rename_i matched
          cases ok
          have on : goesOn (s.take (optionLen false s)) = true := by
            simp only [Bool.or_eq_true,beginsWith,List.isPrefixOf_iff_prefix] at matched
            simp only [goesOn,Bool.or_eq_true,beginsWith,List.isPrefixOf_iff_prefix]
            obtain ((same | same) | read) | size := matched
            · exact .inl (.inl (.inl same))
            · exact .inl (.inl (.inr same))
            · exact .inl (.inr (optionPrefix (by decide) read))
            · exact .inr (optionPrefix (by decide) size)
          rw [if_pos on,List.append_assoc]
        · cases ok

theorem readOptionBuf {env : Env} {st out : Scan} {s : Bytes}
    (ok : readOption env st s (s.take (tokenLen s)) = .ok out) :
    out.optbuf = st.optbuf ++ if goesOn (s.take (tokenLen s)) = true then s.take (tokenLen s) ++ [comma] else [] := by
  have starts : s.take (tokenLen s) <+: s := List.take_prefix _ _
  have unkept (off : goesOn (s.take (tokenLen s)) = false) {st' : Scan} (same : st'.optbuf = st.optbuf) :
      st'.optbuf = st.optbuf ++ if goesOn (s.take (tokenLen s)) = true then s.take (tokenLen s) ++ [comma] else [] := by
    rw [off,same]
    exact (List.append_nil _).symm
  unfold readOption at ok
  split at ok
  · rename_i key
    split at ok
    · cases ok
      exact unkept (goesOnClash starts key (by decide)) rfl
    · cases ok
  · rename_i notFsname
    split at ok
    · rename_i key
      split at ok
      · cases ok
        exact unkept (goesOnClash starts key (by decide)) rfl
      · cases ok
    · rename_i notSubtype
      split at ok
      · split at ok <;> cases ok
        rename_i block user
        rw [optEq,decide_eq_true_eq] at block
        exact unkept (by rw [block]; decide) rfl
      · split at ok
        · rename_i auto
          cases ok
          rw [optEq,decide_eq_true_eq] at auto
          exact unkept (by rw [auto]; decide) rfl
        · split at ok
          · have unescaped : tokenLen s = optionLen false s := by simp [tokenLen,notFsname,notSubtype]
            rw [unescaped] at ok ⊢
            exact kernelOptionBuf ok
          · rename_i own
            cases ok
            refine unkept ?_ rfl
            simp only [Bool.not_eq_true,Bool.and_eq_false_iff,Bool.not_eq_false'] at own
            obtain (((empty | key) | key) | key) | key := own
            · rw [optEq,decide_eq_true_eq] at empty
              rw [empty]
              decide
            · exact goesOnClash starts key (by decide)
            · exact goesOnClash starts key (by decide)
            · exact goesOnClash starts key (by decide)
            · exact goesOnClash starts key (by decide)

theorem optionLoopBuf {env : Env} {st out : Scan} {s : Bytes} (ok : optionLoop env st s = .ok out) :
    out.optbuf = st.optbuf ++ (kernelTokens s).flatMap (fun token => token ++ [comma]) := by
  induction st, s using optionLoop.induct env with
  | case1 st =>
    rw [optionLoop] at ok
    cases ok
    rw [kernelTokens,tokens]
    exact (List.append_nil _).symm
  | case2 st b rest len long =>
    rw [optionLoop,if_pos long] at ok
    cases ok
  | case3 st b rest len short e failed =>
    rw [optionLoop,if_neg short,failed] at ok
    cases ok
  | case4 st b rest len short next read ih =>
    rw [optionLoop,if_neg short,read] at ok
    rw [ih ok,readOptionBuf read,kernelTokens,kernelTokens,tokens,List.filter_cons,List.append_assoc]
    split
    · rw [List.flatMap_cons]
    · rfl

theorem kernelTokensPlain (s : Bytes) : ∀ token ∈ kernelTokens s, comma ∉ token := by
  induction s using tokens.induct with
  | case1 =>
    rw [kernelTokens,tokens]
    nofun
  | case2 b rest ih =>
    intro token inside
    rw [kernelTokens,tokens,List.filter_cons] at inside
    split at inside
    · rename_i on
      obtain rfl | later := List.mem_cons.mp inside
      · have notKey {key : String} (clash : ∀ start ∈ ["default_permissions","allow_other","max_read=","blksize="],
            ¬ascii key <+: ascii start ∧ ¬ascii start <+: ascii key) : beginsWith (b :: rest) key = false := by
          refine Bool.of_not_eq_true fun starts => ?_
          rw [goesOnClash (List.take_prefix _ _) starts clash] at on
          cases on
        have unescaped : tokenLen (b :: rest) = optionLen false (b :: rest) := by
          rw [tokenLen,@notKey "fsname=" (by decide),@notKey "subtype=" (by decide)]
          rfl
        rw [unescaped]
        exact optionPlain _
      · exact ih token later
    · exact ih token inside

def flagNames (flags : Flags) : List Bytes :=
  (if flags &&& msRdonly = 0 then [ascii "rw"] else []) ++
    (mountFlags.filter (fun m => m.on && flags &&& m.flag ≠ 0)).map MountFlag.opt

theorem addOptionListed (items : List Bytes) (opt : Bytes) :
    addOption (listed items) opt = listed (items ++ [opt]) := by
  have grown : listed (items ++ [opt]) = some (joined comma (items ++ [opt])) := if_neg (by simp)
  rw [grown]
  cases items with
  | nil => rfl
  | cons item items =>
    rw [joinedAppend comma (List.cons_ne_nil _ _) (List.cons_ne_nil _ _)]
    exact congrArg some (List.append_assoc _ _ _)

theorem flagFold (flags : Flags) (items : List Bytes) (ms : List MountFlag) :
    ms.foldl (fun acc m => if m.on && flags &&& m.flag ≠ 0 then addOption acc m.opt else acc) (listed items) =
      listed (items ++ (ms.filter (fun m => m.on && flags &&& m.flag ≠ 0)).map MountFlag.opt) := by
  induction ms generalizing items with
  | nil => exact congrArg listed (List.append_nil items).symm
  | cons m ms ih =>
    rw [List.foldl_cons,List.filter_cons]
    split
    · rw [addOptionListed,ih,List.map_cons,List.append_assoc]
      rfl
    · rw [ih]

theorem flagNamesSome {flags : Flags} (contains : Contains flags safeMask) : flagNames flags ≠ [] := by
  have shown : (⟨ascii "nosuid",msNosuid,true,true⟩ : MountFlag) ∈
      mountFlags.filter (fun m => m.on && flags &&& m.flag ≠ 0) := by
    have flag : flags &&& msNosuid = msNosuid := contains.nosuid
    refine List.mem_filter.mpr ⟨?_,?_⟩
    · simp [mountFlags]
    · simp only [flag]
      decide
  intro none
  obtain ⟨-,none⟩ := List.append_eq_nil_iff.mp none
  rw [List.map_eq_nil_iff.mp none] at shown
  cases shown

theorem flagNamesFrom (flags : Flags) :
    ∀ name ∈ flagNames flags, name ∈ ascii "rw" :: mountFlags.map MountFlag.opt := by
  intro name inside
  obtain write | flag := List.mem_append.mp inside
  · split at write
    · rw [List.mem_singleton.mp write]
      exact List.mem_cons_self
    · cases write
  · obtain ⟨m,found,rfl⟩ := List.mem_map.mp flag
    exact List.mem_cons_of_mem _ (List.mem_map_of_mem (List.mem_of_mem_filter found))

theorem getMntOptsRecorded {env : Env} {flags : Flags} {kept : List Bytes} {user text : Bytes}
    (unprivileged : env.uid ≠ 0) (name : env.userName = some user) (contains : Contains flags safeMask)
    (done : getMntOpts env flags (kept.flatMap fun token => token ++ [comma]) = some text) :
    text = joined comma (flagNames flags ++ kept) ++ comma :: (ascii "user=" ++ user) := by
  have named : mountFlags.foldl (fun acc m => if m.on && flags &&& m.flag ≠ 0 then addOption acc m.opt else acc)
      (if flags &&& msRdonly = 0 then addOption none (ascii "rw") else none) = some
        (joined comma (flagNames flags)) := by
    have first : (if flags &&& msRdonly = 0 then addOption none (ascii "rw") else none) =
        listed (if flags &&& msRdonly = 0 then [ascii "rw"] else []) := by
      split <;> rfl
    rw [first,flagFold]
    exact if_neg (flagNamesSome contains)
  have all : dropTrailingComma
    (joined comma (flagNames flags) ++ [comma] ++ kept.flatMap fun token => token ++ [comma]) =
      joined comma (flagNames flags ++ kept) := by
    have whole : joined comma (flagNames flags) ++ [comma] ++ (kept.flatMap fun token => token ++ [comma]) =
        joined comma (flagNames flags ++ kept) ++ [comma] := by
      have flat := joinedFlat comma (flagNames flags ++ kept) (List.cons_ne_nil [] [])
      have flat' := joinedFlat comma (flagNames flags) (List.cons_ne_nil [] [])
      have filled : flagNames flags ++ kept ≠ [] := fun none =>
        flagNamesSome contains (List.append_eq_nil_iff.mp none).1
      rw [joinedAppend comma filled (List.cons_ne_nil _ _)] at flat
      rw [joinedAppend comma (flagNamesSome contains) (List.cons_ne_nil _ _)] at flat'
      rw [show joined comma [[]] = [] from rfl,List.append_nil] at flat flat'
      rw [flat',flat,List.flatMap_append]
    rw [whole,dropTrailingComma,if_pos List.getLast?_concat,List.dropLast_concat]
  unfold getMntOpts at done
  split at done
  · cases done
  · have grown (old opt : Bytes) : addOption (some old) opt = some (old ++ [comma] ++ opt) := rfl
    simp only [named,grown,name,Option.map_some,Option.some.injEq] at done
    rw [all] at done
    rw [← done]
    simp

theorem mountSequenceEnds {env : Env} {st : Scan} {mnt dev mntOpts source type recorded : Bytes} {fd : Int32}
    {rootmode : UInt32}
    (mounted : (mountSequence env st mnt dev mntOpts fd rootmode).ended = .mounted source type recorded) :
    recorded = mntOpts ∧ ∃ st', type = (firstMounts env st mnt dev st').2.2.2 := by
  unfold mountSequence at mounted
  simp only at mounted
  split at mounted
  · simp only at mounted
    split at mounted <;> cases mounted
    exact ⟨rfl,_,rfl⟩
  · simp only at mounted
    split at mounted <;> cases mounted
    exact ⟨rfl,_,rfl⟩

theorem firstMountsType (env : Env) (st : Scan) (mnt dev data : Bytes) :
    fuseType (firstMounts env st mnt dev data).2.2.2 = true := by
  have plain : fuseType (fsType st.blkdev) = true := by
    unfold fsType
    split <;> decide
  have dotted (subtype : Bytes) : fuseType (fsType st.blkdev ++ [46] ++ subtype) = true := by
    have starts (key : String) : beginsWith (ascii key ++ subtype) key = true :=
      List.isPrefixOf_iff_prefix.mpr (List.prefix_append _ _)
    simp only [fuseType,Bool.or_eq_true]
    unfold fsType
    split
    · exact .inr (starts "fuseblk.")
    · exact .inl (.inr (starts "fuse."))
  unfold firstMounts
  cases st.subtype with
  | none => exact plain
  | some subtype =>
    dsimp only
    split
    · exact plain
    · exact dotted subtype

theorem optionLoopUnmounted {env : Env} {st : Scan} {s : Bytes} {e : End} {written : Nat}
    (failed : optionLoop env st s = .error (e,written)) : e = .err ∨ e = .exit ∨ e = .loops := by
  induction st, s using optionLoop.induct env with
  | case1 st =>
    rw [optionLoop] at failed
    cases failed
  | case2 st b rest len long =>
    rw [optionLoop,if_pos long] at failed
    cases failed
    exact .inr (.inr rfl)
  | case3 st b rest len short e read =>
    rw [optionLoop,if_neg short,read] at failed
    cases failed
    unfold readOption kernelOption at read
    simp only at read
    repeat' split at read
    all_goals first
      | cases read; exact .inl rfl
      | cases read; exact .inr (.inl rfl)
      | cases read
  | case4 st b rest len short next read ih =>
    rw [optionLoop,if_neg short,read] at failed
    exact ih failed

theorem doMountRecorded {env : Env} {mnt dev opts source type text user : Bytes} {fd : Int32} {rootmode : UInt32}
    (unprivileged : env.uid ≠ 0) (name : env.userName = some user)
    (mounted : (doMount env mnt dev opts fd rootmode).ended = .mounted source type text) :
    fuseType type = true ∧ ∃ flags, Contains flags safeMask ∧
      text = joined comma (flagNames flags ++ kernelTokens opts) ++ comma :: (ascii "user=" ++ user) := by
  unfold doMount at mounted
  split at mounted
  · cases mounted
  · split at mounted
    · rename_i e written failed
      obtain rfl | rfl | rfl := optionLoopUnmounted failed <;> cases mounted
    · rename_i st scanned
      have start : Kept env ⟨msNosuid ||| msNodev,[],none,none,false,false⟩ :=
        ⟨by unfold Contains; decide,[],rfl,nofun⟩
      have kept := ((optionLoopKept unprivileged start).1 st scanned).1
      have buf := optionLoopBuf scanned
      rw [List.nil_append] at buf
      split at mounted
      · cases mounted
      · rename_i mntOpts made
        split at mounted
        · cases mounted
        · obtain ⟨rfl,data,rfl⟩ := mountSequenceEnds mounted
          rw [buf] at made
          exact ⟨firstMountsType _ _ _ _ _,st.flags,kept.flags,getMntOptsRecorded unprivileged name kept.flags made⟩

/-! Who may take a mount back. -/

/- The option string that was recorded, with what an own option of the user has before and behind it. -/
theorem namesUserBehind {front user behind : Bytes} :
    namesUser user (front ++ comma :: (ascii "user=" ++ user ++ behind)) = true ↔
      behind = [] ∧ ¬ascii "user=" <:+: front := by
  have plain : comma ∉ ascii "user=" := by decide
  have some : ascii "user=" ≠ [] := by decide
  constructor
  · intro names
    unfold namesUser at names
    split at names
    · rename_i before p found
      obtain ⟨own,rest⟩ := Bool.and_eq_true_iff.mp names
      have same : p.drop 5 = user := of_decide_eq_true rest
      obtain ⟨whole,starts⟩ := strstrFound found
      obtain ⟨tail,rfl⟩ := starts
      have length := congrArg List.length whole
      have five : (ascii "user=").length = 5 := by decide
      rw [show (ascii "user=" ++ tail).drop 5 = tail from List.drop_left' five] at same
      subst same
      simp only [List.length_append,List.length_cons,five] at length
      have least {a b : Bytes} (split : front ++ comma :: (ascii "user=" ++ tail ++ behind) = a ++ ascii "user=" ++ b) :
          before.length ≤ a.length := by
        obtain ⟨before',p',found',less⟩ := strstrLeast (ascii "user=") a b
        rw [← split,found] at found'
        cases found'
        exact less
      have here : before.length ≤ (front ++ [comma]).length := @least _ (tail ++ behind) (by simp [List.append_assoc])
      rw [List.length_append,List.length_singleton] at here
      refine ⟨List.eq_nil_of_length_eq_zero (by omega),?_⟩
      rintro ⟨a,b,inside⟩
      have earlier : before.length ≤ a.length :=
        @least a (b ++ comma :: (ascii "user=" ++ tail ++ behind)) (by rw [← inside,List.append_assoc (a ++ _)])
      have size := congrArg List.length inside
      simp only [List.length_append,five] at size
      omega
    · cases names
  · rintro ⟨rfl,absent⟩
    have found : strstr (ascii "user=") (ascii "user=" ++ user ++ []) = Option.some ([],ascii "user=" ++ user) := by
      rw [List.append_nil]
      exact if_pos (List.isPrefixOf_iff_prefix.mpr (List.prefix_append _ _))
    rw [namesUser,strstrBehind _ some plain absent,found]
    simp [ownOption,ascii]

theorem namesUidNever {uid : UInt32} {flags : Flags} {opts user : Bytes} {xs : List Bytes} (plain : comma ∉ user)
    (xPlain : ∀ x ∈ xs, comma ∉ x) (xStarts : ∀ x ∈ xs, isXOpt x = true) :
    namesUid uid (joined comma (flagNames flags ++ kernelTokens opts ++ ((ascii "user=" ++ user) :: xs))) = false := by
  have allPlain : ∀ field ∈ flagNames flags ++ kernelTokens opts ++ ((ascii "user=" ++ user) :: xs), comma ∉ field := by
    have named : ∀ name ∈ ascii "rw" :: mountFlags.map MountFlag.opt, comma ∉ name := by decide
    intro field inside
    obtain first | own := List.mem_append.mp inside
    · obtain name | token := List.mem_append.mp first
      · exact named field (flagNamesFrom flags field name)
      · exact kernelTokensPlain opts field token
    · obtain rfl | x := List.mem_cons.mp own
      · exact fun mem => (List.mem_append.mp mem).elim (by decide) plain
      · exact xPlain field x
  unfold namesUid
  split
  · rename_i before p found
    obtain ⟨whole,starts⟩ := strstrFound found
    cases own : ownOption before with
    | false => rfl
    | true =>
      obtain ⟨field,inside,here⟩ := ownField (by decide) allPlain (by simp) whole starts own
      exfalso
      obtain first | own := List.mem_append.mp inside
      · obtain name | token := List.mem_append.mp first
        · have named : ∀ name ∈ ascii "rw" :: mountFlags.map MountFlag.opt, ¬ascii "user_id=" <+: name := by decide
          exact named field (flagNamesFrom flags field name) here
        · have on := (List.mem_filter.mp token).2
          rw [goesOnClash List.prefix_rfl (List.isPrefixOf_iff_prefix.mpr here) (by decide)] at on
          cases on
      · obtain rfl | x := List.mem_cons.mp own
        · have five : ascii "user=" <+: ascii "user=" ++ user := List.prefix_append _ _
          obtain short | long := List.prefix_or_prefix_of_prefix here five
          · exact absurd short (by decide)
          · exact absurd long (by decide)
        · have starts := List.isPrefixOf_iff_prefix.mp (xStarts field x)
          obtain short | long := List.prefix_or_prefix_of_prefix here starts
          · exact absurd short (by decide)
          · exact absurd long (by decide)
  · rfl

/- No option starts with "x-", and none whose value the kernel is to read has "user=" in it. -/
def Undisturbed (opts : Bytes) : Prop :=
  (∀ item ∈ split comma opts, isXOpt item = false) ∧
    ∀ token ∈ tokens opts, (beginsWith token "max_read=" || beginsWith token "blksize=") = true →
      ¬ascii "user=" <:+: token

instance (opts : Bytes) : Decidable (Undisturbed opts) :=
  inferInstanceAs (Decidable ((∀ item ∈ split comma opts, isXOpt item = false) ∧
    ∀ token ∈ tokens opts, (beginsWith token "max_read=" || beginsWith token "blksize=") = true →
      ¬ascii "user=" <:+: token))

theorem keptTokens (opts : Bytes) : kernelTokens (kept (split comma opts)) = kernelTokens opts := by
  induction opts with
  | nil => rfl
  | cons b opts ih =>
    by_cases same : b = comma
    · subst same
      have front : kept (split comma (comma :: opts)) = kept (split comma opts) := rfl
      have none : tokens (comma :: opts) = [] :: tokens opts := by
        rw [tokens]
        have zero : tokenLen (comma :: opts) = 0 := by
          have plain : beginsWith (comma :: opts) "fsname=" = false ∧
              beginsWith (comma :: opts) "subtype=" = false := by
            constructor <;> rfl
          rw [tokenLen,plain.1,plain.2]
          cases opts with
          | nil => rfl
          | cons c opts => rfl
        rw [zero]
        rfl
      rw [front,ih,kernelTokens,kernelTokens,none]
      rfl
    · have whole : kept (split comma (b :: opts)) = b :: opts := by
        have text := joinedSplit comma (b :: opts)
        rw [kept]
        have first : (split comma (b :: opts)).dropWhile (fun item => item.isEmpty) = split comma (b :: opts) := by
          rw [split,if_neg same]
          split <;> rfl
        rw [first,text]
      rw [whole]

theorem xItemsText {opts : Bytes} :
    kept (xItems (split comma opts)) = joined comma (xItems (split comma opts)) := by
  have full : ∀ item ∈ xItems (split comma opts), item.isEmpty = false := by
    intro item inside
    have starts := (List.mem_filter.mp inside).2
    cases item with
    | nil => cases starts
    | cons b item => rfl
  rw [kept]
  cases items : xItems (split comma opts) with
  | nil => rfl
  | cons item rest =>
    rw [items] at full
    rw [List.dropWhile_cons,full item List.mem_cons_self]
    rfl

/- What is recorded of a mount that an ordinary user has made. -/
theorem mountFuseRecorded {env : Env} {host : Host} {mnt opts user : Bytes} {e : Entry} (unprivileged : env.uid ≠ 0)
    (name : env.userName = some user) (mounted : mountFuse env host mnt opts = some (some e)) :
    e.dir = mnt ∧ fuseType e.type = true ∧ ∃ flags, Contains flags safeMask ∧
      e.opts = joined comma (flagNames flags ++ kernelTokens (kept (nonXItems (split comma opts))) ++
        ((ascii "user=" ++ user) :: xItems (split comma opts))) := by
  unfold mountFuse at mounted
  split at mounted
  · cases mounted
  · split at mounted
    · cases mounted
    · rw [extractXOptionsSpec] at mounted
      dsimp only at mounted
      split at mounted
      · cases mounted
      · split at mounted
        · rename_i source type text ended
          split at mounted
          · cases mounted
          · split at mounted
            · cases mounted
            · split at mounted
              · cases mounted
              · cases mounted
                obtain ⟨fuse,flags,contains,rfl⟩ := doMountRecorded unprivileged name ended
                refine ⟨rfl,fuse,flags,contains,?_⟩
                have filled : flagNames flags ++ kernelTokens (kept (nonXItems (split comma opts))) ≠ [] :=
                  fun none => flagNamesSome contains (List.append_eq_nil_iff.mp none).1
                rw [joinedAppend comma filled (List.cons_ne_nil _ _)]
                dsimp only
                rw [xItemsText,addBack]
                cases items : xItems (split comma opts) with
                | nil => exact if_pos rfl
                | cons x xs =>
                  have some : joined comma (x :: xs) ≠ [] := by
                    refine KernMount.joinedNe (List.cons_ne_nil _ _) fun item inside => ?_
                    rw [← items] at inside
                    rintro rfl
                    cases (List.mem_filter.mp inside).2
                  rw [if_neg some,if_neg (by simp),joinedCons comma _ (List.cons_ne_nil _ _)]
                  simp
        · cases mounted

/- A user can take back the own mounts, unless an option that starts with "x-" stands behind the user's
name, or the value of an option for the kernel is found in its place. -/
theorem ownMountAccepted {env : Env} {host : Host} {mnt opts user : Bytes} {e : Entry} (unprivileged : env.uid ≠ 0)
    (name : env.userName = some user) (plain : comma ∉ user) (mounted : mountFuse env host mnt opts = some (some e)) :
    (∀ table, e ∈ table → mayUnmount env (some table) mnt = true) ↔ Undisturbed opts := by
  obtain ⟨dir,fuse,flags,contains,text⟩ := mountFuseRecorded unprivileged name mounted
  have filled : flagNames flags ++ kernelTokens (kept (nonXItems (split comma opts))) ≠ [] :=
    fun none => flagNamesSome contains (List.append_eq_nil_iff.mp none).1
  have noUid : namesUid env.uid e.opts = false := by
    rw [text]
    exact namesUidNever plain (fun x inside => splitPlain comma opts x (List.mem_filter.mp inside).1)
      fun x inside => (List.mem_filter.mp inside).2
  have accepts : acceptsEntry user env.uid mnt e = namesUser user e.opts := by
    rw [acceptsEntry,dir,fuse,noUid,Bool.or_false]
    simp
  have table : (∀ table, e ∈ table → mayUnmount env (some table) mnt = true) ↔ namesUser user e.opts = true := by
    rw [← accepts]
    simp only [mayUnmount,name]
    constructor
    · intro every
      have one := every [e] List.mem_cons_self
      rw [List.any_cons,List.any_nil,Bool.or_false] at one
      exact one
    · exact fun here table inside => List.any_eq_true.mpr ⟨e,inside,here⟩
  have free : ∀ field ∈ ascii "rw" :: ascii "default_permissions" :: ascii "allow_other" :: mountFlags.map
    MountFlag.opt,
      strstr (ascii "user=") field = none := by decide
  have front (opts' : Bytes) : ascii "user=" <:+: joined comma (flagNames flags ++ kernelTokens opts') ↔
      ∃ token ∈ tokens opts', (beginsWith token "max_read=" || beginsWith token "blksize=") = true ∧
        ascii "user=" <:+: token := by
    rw [infixJoined (by decide) (by decide)]
    constructor
    · rintro ⟨field,inside,here⟩
      obtain named | token := List.mem_append.mp inside
      · obtain rfl | flag := List.mem_cons.mp (flagNamesFrom flags field named)
        · exact absurd here (strstrAbsent (free _ List.mem_cons_self))
        · refine absurd here (strstrAbsent (free field ?_))
          exact List.mem_cons_of_mem _ (List.mem_cons_of_mem _ (List.mem_cons_of_mem _ flag))
      · obtain ⟨token,on⟩ := List.mem_filter.mp token
        refine ⟨field,token,?_,here⟩
        simp only [goesOn,Bool.or_eq_true,optEq,decide_eq_true_eq] at on ⊢
        obtain ((rfl | rfl) | read) | size := on
        · exact absurd here (strstrAbsent (free _ (List.mem_cons_of_mem _ List.mem_cons_self)))
        · exact absurd here (strstrAbsent (free _ (List.mem_cons_of_mem _ (List.mem_cons_of_mem _ List.mem_cons_self))))
        · exact .inl read
        · exact .inr size
    · rintro ⟨token,inside,starts,here⟩
      refine ⟨token,List.mem_append_right _ (List.mem_filter.mpr ⟨inside,?_⟩),here⟩
      rw [goesOn,Bool.or_assoc,starts,Bool.or_true]
  rw [table,text,joinedAppend comma filled (List.cons_ne_nil _ _)]
  cases items : xItems (split comma opts) with
  | nil =>
    have noX : ∀ item ∈ split comma opts, isXOpt item = false := by
      intro item inside
      refine Bool.of_not_eq_true fun third => ?_
      have found : item ∈ xItems (split comma opts) := List.mem_filter.mpr ⟨inside,third⟩
      rw [items] at found
      cases found
    have all : nonXItems (split comma opts) = split comma opts :=
      List.filter_eq_self.mpr fun item inside => by rw [noX item inside]; rfl
    have names :=
      @namesUserBehind (joined comma (flagNames flags ++ kernelTokens (kept (nonXItems (split comma opts))))) user []
    rw [List.append_nil] at names
    rw [joined,names,all,keptTokens,front,Undisturbed]
    constructor
    · rintro ⟨-,none⟩
      exact ⟨noX,fun token inside starts here => none ⟨token,inside,starts,here⟩⟩
    · rintro ⟨-,none⟩
      refine ⟨rfl,?_⟩
      rintro ⟨token,inside,starts,here⟩
      exact none token inside starts here
  | cons x xs =>
    have found : x ∈ xItems (split comma opts) := by
      rw [items]
      exact List.mem_cons_self
    obtain ⟨inside,third⟩ := List.mem_filter.mp found
    rw [joinedCons comma _ (List.cons_ne_nil _ _),namesUserBehind]
    refine iff_of_false (fun names => List.cons_ne_nil _ _ names.1) fun undisturbed => ?_
    rw [undisturbed.1 x inside] at third
    cases third

/- The setuid helper, with everything else in order. -/
def setuidHost : Host where
  device := some (3,ascii "/dev/fuse")
  tooMany := false
  place := some (ascii "/mnt",0o40000)
  chdir := true
  euid := 0
  addMount := true

def recordedOf (more : String) : Entry where
  source := ascii "/dev/fuse"
  dir := ascii "/mnt"
  type := ascii "fuse"
  opts := ascii "rw,nosuid,nodev,max_read=5,user=user" ++ ascii more

theorem ownMountAcceptedPlain : mayUnmount userEnv (some [recordedOf ""]) (ascii "/mnt") = true := by
  have mounted : mountFuse userEnv setuidHost (ascii "/mnt") (ascii "max_read=5") = some (some (recordedOf "")) := by
    decide +kernel
  exact (ownMountAccepted (by decide) rfl (by decide) mounted).mpr (by decide +kernel)
    [recordedOf ""] List.mem_cons_self

/- The option behind the user's name makes the entry another's. -/
theorem ownMountRefused :
    mountFuse userEnv setuidHost (ascii "/mnt") (ascii "max_read=5,x-a") = some (some (recordedOf ",x-a")) ∧
      mayUnmount userEnv (some [recordedOf ",x-a"]) (ascii "/mnt") = false :=
  ⟨by decide +kernel,by decide +kernel⟩

end FuseStudy.MayUnmount
