import FuseStudy.KernMount

/-! fusermount reads the string of fuse_kern_mount. The two sides agree on an escaped
fsname, but extract_x_options cuts at every comma, and subtype is not escaped at all. -/
namespace FuseStudy.HandOver
open CString
open DoMount hiding Run
open KernMount
open XOptions (extractXOptions isXOpt xItems nonXItems kept extractXOptionsSpec)

/-! Tokens. -/

theorem optionLenPlain {token : Bytes} (plain : comma ∉ token) (rest : Bytes) :
    optionLen false (token ++ comma :: rest) = token.length := by
  induction token with
  | nil => cases rest <;> simp [optionLen]
  | cons b token ih =>
    obtain ⟨first,later⟩ := not_or.mp (mt List.mem_cons.mpr plain)
    have tail := ih later
    cases more : token ++ comma :: rest with
    | nil => simp at more
    | cons next text =>
      rw [more] at tail
      rw [List.cons_append,more,optionLen,if_neg (by simp),if_neg (Ne.symm first),tail,List.length_cons]
      omega

theorem escapedCons (b : UInt8) (s : Bytes) :
    escaped (b :: s) = (if b = comma ∨ b = backslash then [backslash,b] else [b]) ++ escaped s := rfl

theorem optionLenEscaped (value rest : Bytes) :
    optionLen true (escaped value ++ comma :: rest) = (escaped value).length := by
  induction value with
  | nil => cases rest <;> simp [escaped,optionLen,comma,backslash]
  | cons b value ih =>
    rw [escapedCons]
    split
    · simp only [List.cons_append,List.nil_append,optionLen,Bool.true_and,decide_true,if_true,ih,
        List.length_cons]
      omega
    · rename_i plain
      obtain ⟨other,shown⟩ := not_or.mp plain
      cases more : escaped value ++ comma :: rest with
      | nil => simp at more
      | cons next text =>
        rw [more] at ih
        simp only [List.cons_append,List.nil_append,more,optionLen,Bool.true_and,decide_eq_true_eq,
          if_neg shown,if_neg other,ih,List.length_cons]
        omega

theorem unescapeEscaped (value : Bytes) : unescape (escaped value) = value := by
  induction value with
  | nil => rfl
  | cons b value ih =>
    rw [escapedCons]
    split
    · simp only [List.cons_append,List.nil_append,unescape,if_true,ih]
    · rename_i plain
      obtain ⟨other,shown⟩ := not_or.mp plain
      simp only [List.cons_append,List.nil_append]
      cases more : escaped value with
      | nil => rw [← ih,more]; rfl
      | cons next text =>
        rw [more] at ih
        rw [unescape,if_neg shown,ih]

theorem unescapeLe (s : Bytes) : (unescape s).length ≤ s.length := by
  induction s using unescape.induct with
  | case1 => simp [unescape]
  | case2 b => simp [unescape]
  | case3 next rest ih =>
    rw [unescape,if_pos rfl]
    simp only [List.length_cons]
    omega
  | case4 b next rest other ih =>
    rw [unescape,if_neg other]
    simp only [List.length_cons] at ih ⊢
    omega

theorem loopToken {env : Env} {st st' : Scan} {token rest : Bytes} (some : token ≠ [])
    (len : tokenLen (token ++ comma :: rest) = token.length) (short : token.length < 2 ^ 32)
    (read : readOption env st (token ++ comma :: rest) token = .ok st') :
    optionLoop env st (token ++ comma :: rest) = optionLoop env st' rest := by
  obtain ⟨b,more,rfl⟩ := List.exists_cons_of_ne_nil some
  rw [List.cons_append] at len read ⊢
  rw [optionLoop]
  simp only [len]
  rw [if_neg (by omega),← List.cons_append,List.take_left,List.cons_append,read]
  simp

theorem loopLast {env : Env} {st st' : Scan} {token : Bytes} (some : token ≠ [])
    (len : tokenLen token = token.length) (short : token.length < 2 ^ 32)
    (read : readOption env st token token = .ok st') : optionLoop env st token = .ok st' := by
  obtain ⟨b,more,rfl⟩ := List.exists_cons_of_ne_nil some
  rw [optionLoop]
  simp only [len]
  have done : (b :: more).drop ((b :: more).length + 1) = [] := List.drop_eq_nil_of_le (by omega)
  rw [if_neg (by omega),List.take_length,read]
  simp only [done]
  rw [optionLoop]

def ordinary (s token : Bytes) : Bool :=
  !beginsWith s "fsname=" && !beginsWith s "subtype=" && !optEq token "blkdev" &&
  !optEq token "auto_unmount" && !optEq token "nonempty" && !beginsWith s "fd=" &&
  !beginsWith s "rootmode=" && !beginsWith s "user_id=" && !beginsWith s "group_id=" &&
  !optEq token "large_read"

theorem readOrdinary (env : Env) (st : Scan) {s token : Bytes} (kind : ordinary s token = true) :
    readOption env st s token = kernelOption env st s token ∧ skipLargeRead env token = false ∧
      tokenLen s = optionLen false s := by
  simp only [ordinary,Bool.and_eq_true,Bool.not_eq_true'] at kind
  obtain ⟨⟨⟨⟨⟨⟨⟨⟨⟨noFsname,noSubtype⟩,noBlkdev⟩,noAuto⟩,noNonempty⟩,noFd⟩,noRootmode⟩,noUser⟩,noGroup⟩,
    noLarge⟩ := kind
  simp [readOption,skipLargeRead,tokenLen,noFsname,noSubtype,noBlkdev,noAuto,noNonempty,noFd,noRootmode,noUser,
    noGroup,noLarge]

theorem kernelFlag {env : Env} {st : Scan} {s token : Bytes} {on : Bool} {flag : Flags}
    (other : optEq token "allow_other" = false) (root : optEq token "allow_root" = false)
    (large : skipLargeRead env token = false) (found : findMountFlag env token = some (on,flag)) :
    kernelOption env st s token =
      .ok {st with flags := if on then st.flags ||| flag else st.flags &&& ~~~flag} := by
  cases on <;> simp [kernelOption,other,root,large,found]

theorem loopOrdinary {env : Env} {st st' : Scan} {token rest : Bytes} (some : token ≠ [])
    (plain : comma ∉ token) (kind : ordinary (token ++ comma :: rest) token = true)
    (short : token.length < 2 ^ 32)
    (read : kernelOption env st (token ++ comma :: rest) token = .ok st') :
    optionLoop env st (token ++ comma :: rest) = optionLoop env st' rest := by
  obtain ⟨same,-,len⟩ := readOrdinary env st kind
  exact loopToken some (len.trans (optionLenPlain plain rest)) short (same.trans read)

/-! The flags. Each of them is one bit, so those that are printed make up the whole. -/

theorem flagNamesPlain : ∀ m ∈ libMountFlags, comma ∉ m.opt ∧ m.opt ≠ [] ∧ m.opt.length < 64 := by decide

theorem flagNamesKnown : ∀ m ∈ libMountFlags, m.on = true →
    optEq m.opt "allow_other" = false ∧ optEq m.opt "allow_root" = false ∧
    (mountFlags.find? (fun k => k.opt = m.opt)).map (fun k => (k.on,k.safe,k.flag)) =
      some (true,true,m.flag) := by decide

theorem flagNamesOrdinary (rest : Bytes) : ∀ m ∈ libMountFlags, m.on = true →
    ordinary (m.opt ++ comma :: rest) m.opt = true := by
  intro m mem on
  simp only [libMountFlags,List.mem_cons,List.not_mem_nil,or_false] at mem
  rcases mem with rfl | rfl | rfl | rfl | rfl | rfl | rfl | rfl | rfl | rfl | rfl | rfl | rfl | rfl | rfl |
    rfl | rfl <;> first | exact absurd on (by decide) | rfl

theorem loopFlag (env : Env) (st : Scan) (rest : Bytes) {m : LibFlag} (mem : m ∈ libMountFlags)
    (on : m.on = true) : optionLoop env st (m.opt ++ comma :: rest) =
      optionLoop env {st with flags := st.flags ||| m.flag} rest := by
  obtain ⟨plain,ne,short⟩ := flagNamesPlain m mem
  obtain ⟨other,root,table⟩ := flagNamesKnown m mem on
  obtain ⟨entry,found,fields⟩ := Option.map_eq_some_iff.mp table
  simp only [Prod.mk.injEq] at fields
  have kind := flagNamesOrdinary rest m mem on
  have known : findMountFlag env m.opt = some (true,m.flag) := by
    simp [findMountFlag,found,fields]
  exact loopOrdinary ne plain kind (by omega)
    (kernelFlag other root (readOrdinary env st kind).2.1 known)

theorem loopFlags (env : Env) (st : Scan) (rest : Bytes) {ms : List LibFlag}
    (mem : ∀ m ∈ ms, m ∈ libMountFlags ∧ m.on = true) :
    optionLoop env st ((ms.map LibFlag.opt).flatMap (fun item => item ++ [comma]) ++ rest) =
      optionLoop env {st with flags := ms.foldl (fun flags m => flags ||| m.flag) st.flags} rest := by
  induction ms generalizing st with
  | nil => rfl
  | cons m ms ih =>
    obtain ⟨known,on⟩ := mem m List.mem_cons_self
    have later := ih {st with flags := st.flags ||| m.flag} (fun x inside => mem x (List.mem_cons_of_mem m inside))
    simp only [List.map_cons,List.flatMap_cons,List.append_assoc,List.cons_append,List.nil_append,List.foldl_cons]
    rw [loopFlag env st _ known on,later]

theorem loopReadWrite (env : Env) (st : Scan) (rest : Bytes) :
    optionLoop env st (ascii "rw" ++ comma :: rest) =
      optionLoop env {st with flags := st.flags &&& ~~~msRdonly} rest := by
  have kind : ordinary (ascii "rw" ++ comma :: rest) (ascii "rw") = true := rfl
  exact loopOrdinary (by decide) (by decide) kind (by decide)
    (kernelFlag rfl rfl (readOrdinary env st kind).2.1 rfl)

theorem libFlagBit : ∀ m ∈ libMountFlags, ∃ k < 32, m.flag = BitVec.twoPow 32 k := by decide

theorem printedFlag {m : LibFlag} (mem : m ∈ libMountFlags) (flags acc : Flags) :
    (if flags &&& m.flag ≠ 0 then acc ||| m.flag else acc) = acc ||| (flags &&& m.flag) := by
  obtain ⟨k,-,bit⟩ := libFlagBit m mem
  by_cases present : flags &&& m.flag = 0
  · simp [present]
  · rw [if_pos present]
    rw [bit,BitVec.and_twoPow] at present ⊢
    split at present
    · rename_i set
      rw [if_pos set]
    · exact absurd rfl present

/- By induction over the table, with the mask of what has been printed so far. -/
theorem printedFlags (flags start mask : Flags) {ms : List LibFlag} (mem : ∀ m ∈ ms, m ∈ libMountFlags) :
    (ms.filter (fun m => m.on && flags &&& m.flag ≠ 0)).foldl (fun acc m => acc ||| m.flag)
        (start ||| (flags &&& mask)) =
      start ||| (flags &&& ms.foldl (fun mask m => if m.on then mask ||| m.flag else mask) mask) := by
  induction ms generalizing mask with
  | nil => rfl
  | cons m ms ih =>
    have later := fun mask => ih mask (fun x inside => mem x (List.mem_cons_of_mem m inside))
    have printed := printedFlag (mem m List.mem_cons_self) flags (start ||| (flags &&& mask))
    rw [List.filter_cons,List.foldl_cons]
    by_cases on : m.on
    · simp only [on,Bool.true_and,decide_eq_true_eq,if_true]
      rw [← later,BitVec.and_or_distrib_left,← BitVec.or_assoc,← printed]
      split <;> rfl
    · simp only [on,Bool.false_and,Bool.false_eq_true,if_false]
      exact later mask

theorem loopFlagTokens (env : Env) (rest : Bytes) {flags : Flags} (within : flags &&& libMask = flags) :
    optionLoop env ⟨safeMask,[],none,none,false,false⟩
        ((flagTokens flags).flatMap (fun item => item ++ [comma]) ++ rest) =
      optionLoop env ⟨safeMask ||| flags,[],none,none,false,false⟩ rest := by
  have printed := printedFlags flags safeMask 0 (fun m (mem : m ∈ libMountFlags) => mem)
  have start : safeMask ||| (flags &&& 0) = safeMask := by simp
  rw [show libMountFlags.foldl (fun mask m => if m.on then mask ||| m.flag else mask) 0 = libMask from rfl,
    within,start] at printed
  have known : ∀ m ∈ libMountFlags.filter (fun m => m.on && flags &&& m.flag ≠ 0),
      m ∈ libMountFlags ∧ m.on = true := by
    intro m mem
    obtain ⟨inside,both⟩ := List.mem_filter.mp mem
    simp only [Bool.and_eq_true] at both
    exact ⟨inside,both.1⟩
  unfold flagTokens
  by_cases writable : flags &&& msRdonly = 0
  · have kept : safeMask &&& ~~~msRdonly = safeMask := by decide
    rw [if_pos writable,List.singleton_append,List.flatMap_cons,List.append_assoc,List.append_assoc,
      List.singleton_append,loopReadWrite,loopFlags env _ rest known,kept,printed]
  · rw [if_neg writable,List.nil_append,loopFlags env _ rest known,printed]

/-! Kernel options, fsname and subtype. -/

theorem keptOption {env : Env} {st : Scan} {s token : Bytes}
    (allowed : (env.uid ≠ 0 && !env.userAllowOther &&
      (optEq token "allow_other" || optEq token "allow_root")) = false)
    (large : skipLargeRead env token = false) (flag : findMountFlag env token = none)
    (known : (optEq token "default_permissions" || optEq token "allow_other" ||
      beginsWith s "max_read=" || beginsWith s "blksize=") = true) :
    kernelOption env st s token = .ok {st with optbuf := st.optbuf ++ token ++ [comma]} := by
  simp only [kernelOption,allowed,large,flag,known,Bool.false_eq_true,if_false,if_true]

theorem acceptedKept {env : Env} {token : Bytes} (accepted : Accepted env token) (st : Scan) (rest : Bytes) :
    ordinary (token ++ comma :: rest) token = true ∧
    kernelOption env st (token ++ comma :: rest) token =
      .ok {st with optbuf := st.optbuf ++ token ++ [comma]} := by
  rcases accepted with rfl | ⟨rfl,free⟩ | ⟨value,rfl⟩ | ⟨value,rfl⟩
  · have kind : ordinary (ascii "default_permissions" ++ comma :: rest) (ascii "default_permissions") = true := rfl
    exact ⟨kind,keptOption (Bool.and_false _) (readOrdinary env st kind).2.1 rfl rfl⟩
  · have kind : ordinary (ascii "allow_other" ++ comma :: rest) (ascii "allow_other") = true := rfl
    refine ⟨kind,keptOption ?_ (readOrdinary env st kind).2.1 rfl rfl⟩
    rcases free with root | allowed
    · simp [root]
    · simp [allowed]
  · have kind : ordinary (ascii "max_read=" ++ value ++ comma :: rest) (ascii "max_read=" ++ value) = true := rfl
    exact ⟨kind,keptOption (Bool.and_false _) (readOrdinary env st kind).2.1 rfl rfl⟩
  · have kind : ordinary (ascii "blksize=" ++ value ++ comma :: rest) (ascii "blksize=" ++ value) = true := rfl
    exact ⟨kind,keptOption (Bool.and_false _) (readOrdinary env st kind).2.1 rfl rfl⟩

theorem loopKerns {env : Env} {opts : List Bytes} (st : Scan) (rest : Bytes)
    (good : ∀ opt ∈ opts, Accepted env opt ∧ Plain opt) (short : ∀ opt ∈ opts, opt.length < 2 ^ 32) :
    optionLoop env st (opts.flatMap (fun item => item ++ [comma]) ++ rest) =
      optionLoop env {st with optbuf := st.optbuf ++ opts.flatMap (fun item => item ++ [comma])} rest := by
  induction opts generalizing st with
  | nil => simp
  | cons opt opts ih =>
    obtain ⟨accepted,plain,-⟩ := good opt List.mem_cons_self
    have tail := fun st => ih st (fun x mem => good x (List.mem_cons_of_mem opt mem))
      (fun x mem => short x (List.mem_cons_of_mem opt mem))
    simp only [List.flatMap_cons,List.append_assoc,List.cons_append,List.nil_append]
    obtain ⟨kind,read⟩ := acceptedKept accepted st (opts.flatMap (fun item => item ++ [comma]) ++ rest)
    rw [loopOrdinary (acceptedNe accepted) plain kind (short opt List.mem_cons_self) read,tail]
    simp

theorem optionLenPast {front : Bytes} (shown : backslash ∉ front) (plain : comma ∉ front) (s : Bytes) :
    optionLen true (front ++ s) = front.length + optionLen true s := by
  induction front with
  | nil => simp
  | cons b front ih =>
    obtain ⟨open',later⟩ := not_or.mp (mt List.mem_cons.mpr shown)
    obtain ⟨first,rest⟩ := not_or.mp (mt List.mem_cons.mpr plain)
    have tail := ih later rest
    rw [List.cons_append]
    cases more : front ++ s with
    | nil =>
      rw [more] at tail
      have empty : front = [] ∧ s = [] := List.append_eq_nil_iff.mp more
      simp [empty,optionLen,Ne.symm first]
    | cons next text =>
      rw [more] at tail
      simp only [optionLen,Bool.true_and,decide_eq_true_eq,if_neg (Ne.symm open'),if_neg (Ne.symm first),tail,
        List.length_cons]
      omega

theorem loopFsname {env : Env} (memory : ∀ n, env.stringMem n = true) (st : Scan) (value rest : Bytes)
    (short : (escaped (fsnameItem value)).length < 2 ^ 32) :
    optionLoop env st (escaped (fsnameItem value) ++ comma :: rest) =
      optionLoop env {st with fsname := some value} rest := by
  rw [escapedFsname] at short ⊢
  have opens : beginsWith (fsnameItem (escaped value) ++ comma :: rest) "fsname=" = true := rfl
  have len : tokenLen (fsnameItem (escaped value) ++ comma :: rest) = (fsnameItem (escaped value)).length := by
    have body := optionLenPast (by decide : backslash ∉ ascii "fsname=") (by decide) (escaped value ++ comma :: rest)
    rw [optionLenEscaped] at body
    rw [tokenLen,opens,Bool.true_or,fsnameItem,List.append_assoc,body,List.length_append]
  have shown : unescape (List.drop (ascii "fsname=").length (fsnameItem (escaped value))) = value := by
    rw [fsnameItem,List.drop_left,unescapeEscaped]
  apply loopToken (fsnameItemNe _) len short
  simp only [readOption,opens,getStringOpt,memory,if_true,shown]

theorem unescapeSame {s : Bytes} : (unescape s).length = s.length ↔ backslash ∉ s.dropLast := by
  induction s using unescape.induct with
  | case1 => simp [unescape]
  | case2 b => simp [unescape]
  | case3 next rest ih =>
    have less := unescapeLe rest
    rw [unescape,if_pos rfl]
    simp only [List.length_cons]
    constructor
    · omega
    · intro hidden
      exact absurd (by simp) hidden
  | case4 b next rest other ih =>
    rw [unescape,if_neg other,List.dropLast_cons_of_ne_nil (by simp),List.mem_cons,not_or,← ih]
    simp only [List.length_cons,Nat.add_right_cancel_iff]
    exact ⟨fun same => ⟨Ne.symm other,same⟩,fun both => both.2⟩

theorem unescapePlain {s : Bytes} (plain : backslash ∉ s.dropLast) : unescape s = s := by
  induction s with
  | nil => rfl
  | cons b s ih =>
    cases s with
    | nil => rfl
    | cons next rest =>
      rw [List.dropLast_cons_of_ne_nil (by simp),List.mem_cons,not_or] at plain
      rw [unescape,if_neg (Ne.symm plain.1),ih plain.2]

theorem optionLenSame {s : Bytes} (plain : backslash ∉ s.dropLast) :
    optionLen true s = s.length ↔ comma ∉ s := by
  induction s with
  | nil => simp [optionLen]
  | cons b s ih =>
    cases s with
    | nil =>
      by_cases stop : b = comma
      · simp [optionLen,stop]
      · simp [optionLen,stop,Ne.symm stop]
    | cons next rest =>
      rw [List.dropLast_cons_of_ne_nil (by simp),List.mem_cons,not_or] at plain
      have shown : ¬(true && decide (b = backslash)) = true := by simp [Ne.symm plain.1]
      rw [optionLen,if_neg shown]
      by_cases stop : b = comma
      · simp [stop]
      · rw [if_neg stop,List.mem_cons,not_or,← ih plain.2,List.length_cons]
        constructor
        · intro len
          exact ⟨Ne.symm stop,by omega⟩
        · intro both
          omega

theorem readSubtype {env : Env} {st st' : Scan} {s token : Bytes} (ok : readOption env st s token = .ok st') :
    st'.subtype = st.subtype ∨
      (ascii "subtype=" <+: s ∧ st'.subtype = some (unescape (token.drop (ascii "subtype=").length))) := by
  unfold readOption at ok
  split at ok
  · split at ok <;> cases ok
    exact Or.inl rfl
  split at ok
  · rename_i opens
    split at ok <;> cases ok
    rename_i value found
    simp only [getStringOpt,Option.ite_none_right_eq_some,Option.some.injEq] at found
    exact Or.inr ⟨List.isPrefixOf_iff_prefix.mp opens,by rw [found.2]⟩
  split at ok
  · split at ok <;> cases ok
    exact Or.inl rfl
  split at ok
  · cases ok
    exact Or.inl rfl
  split at ok
  · simp only [kernelOption] at ok
    split at ok <;> try contradiction
    split at ok
    · cases ok
      exact Or.inl rfl
    · split at ok <;> (try split at ok) <;> cases ok <;> exact Or.inl rfl
  · cases ok
    exact Or.inl rfl

theorem subtypeShorter {env : Env} {st st' : Scan} {s : Bytes} (ok : optionLoop env st s = .ok st') :
    st'.subtype = st.subtype ∨ ∃ value, st'.subtype = some value ∧ value.length + 8 ≤ s.length := by
  induction len : s.length using Nat.strongRecOn generalizing st s with
  | ind n ih =>
    cases s with
    | nil =>
      rw [optionLoop] at ok
      cases ok
      exact Or.inl rfl
    | cons b rest =>
      rw [optionLoop] at ok
      split at ok <;> try contradiction
      split at ok <;> try contradiction
      rename_i long st1 read
      have fewer : ((b :: rest).drop (tokenLen (b :: rest) + 1)).length < n := by
        rw [← len]
        simp only [List.length_drop,List.length_cons]
        omega
      rcases ih _ fewer ok rfl with same | ⟨value,found,small⟩
      · rcases readSubtype read with old | ⟨opens,new⟩
        · exact Or.inl (same.trans old)
        · refine Or.inr ⟨_,same.trans new,?_⟩
          have most := unescapeLe (((b :: rest).take (tokenLen (b :: rest))).drop (ascii "subtype=").length)
          have enough := opens.length_le
          have eight : (ascii "subtype=").length = 8 := rfl
          simp only [List.length_drop,List.length_take,eight] at most enough ⊢
          omega
      · exact Or.inr ⟨value,found,by omega⟩

theorem loopSubtype {env : Env} (memory : ∀ n, env.stringMem n = true) (st : Scan) {value : Bytes}
    (short : (subtypeItem value).length < 2 ^ 32) (comma' : comma ∉ value)
    (plain : backslash ∉ value.dropLast) :
    optionLoop env st (subtypeItem value) = .ok {st with subtype := some value} := by
  have other : beginsWith (subtypeItem value) "fsname=" = false := rfl
  have opens : beginsWith (subtypeItem value) "subtype=" = true := rfl
  have len : tokenLen (subtypeItem value) = (subtypeItem value).length := by
    have body := optionLenPast (by decide : backslash ∉ ascii "subtype=") (by decide) value
    rw [(optionLenSame plain).mpr comma'] at body
    rw [tokenLen,opens,Bool.or_true,subtypeItem,body,List.length_append]
  have shown : unescape (List.drop (ascii "subtype=").length (subtypeItem value)) = value := by
    rw [subtypeItem,List.drop_left,unescapePlain plain]
  apply loopLast (subtypeItemNe value) len short
  simp only [readOption,other,opens,getStringOpt,memory,if_true,Bool.false_eq_true,if_false,shown]

theorem subtypeRead {env : Env} (memory : ∀ n, env.stringMem n = true) {st st' : Scan} {value : Bytes}
    (ok : optionLoop env st (subtypeItem value) = .ok st') (found : st'.subtype = some value) :
    comma ∉ value ∧ backslash ∉ value.dropLast := by
  have other : beginsWith (subtypeItem value) "fsname=" = false := rfl
  have opens : beginsWith (subtypeItem value) "subtype=" = true := rfl
  have len : tokenLen (subtypeItem value) = 8 + optionLen true value := by
    rw [tokenLen,opens,Bool.or_true]
    exact optionLenPast (by decide : backslash ∉ ascii "subtype=") (by decide) value
  have eight : (ascii "subtype=").length = 8 := rfl
  obtain ⟨b,more,text⟩ := List.exists_cons_of_ne_nil (subtypeItemNe value)
  have token : List.drop 8 (List.take (8 + optionLen true value) (subtypeItem value)) =
      value.take (optionLen true value) := by
    rw [subtypeItem,← eight,List.take_length_add_append,List.drop_left]
  rw [text,optionLoop,← text] at ok
  simp only [len] at ok
  split at ok <;> try contradiction
  simp only [readOption,other,opens,getStringOpt,memory,if_true,Bool.false_eq_true,if_false,eight,token] at ok
  have most := unescapeLe (value.take (optionLen true value))
  have cut := optionLenLe true value
  have whole : unescape (value.take (optionLen true value)) = value := by
    rcases subtypeShorter ok with same | ⟨later,again,small⟩
    · exact Option.some.inj (same.symm.trans found)
    · cases Option.some.inj (again.symm.trans found)
      simp only [List.length_drop,subtypeItem,List.length_append,eight] at small
      omega
  rw [whole,List.length_take] at most
  have all : optionLen true value = value.length := by omega
  rw [all,List.take_length] at whole
  have plain := unescapeSame.mp (congrArg List.length whole)
  exact ⟨(optionLenSame plain).mp all,plain⟩

/-! What extract_x_options takes away. -/

theorem splitEscaped (b : UInt8) (s : Bytes) :
    split comma (escaped (b :: s)) =
      if b = comma then [backslash] :: split comma (escaped s)
      else ((if b = backslash then [backslash,backslash] else [b]) ++ (split comma (escaped s)).headD []) ::
        (split comma (escaped s)).tail := by
  have different : backslash ≠ comma := by decide
  rw [escapedCons]
  cases fields : split comma (escaped s) with
  | nil => exact absurd fields (splitNe comma _)
  | cons head tail =>
    by_cases stop : b = comma
    · simp only [stop,true_or,if_true,List.cons_append,List.nil_append,split,if_neg different,fields]
    · by_cases hidden : b = backslash
      · simp only [hidden,or_true,if_true,if_neg different,List.cons_append,List.nil_append,split,fields,
          List.headD_cons,List.tail_cons]
      · simp only [stop,hidden,or_self,if_false,List.cons_append,List.nil_append,split,fields,
          List.headD_cons,List.tail_cons]

theorem headPrefix {front : Bytes} (plain : Plain front) (s : Bytes) :
    front <+: (split comma (escaped s)).headD [] ↔ front <+: s := by
  induction front generalizing s with
  | nil => simp
  | cons a front ih =>
    obtain ⟨noComma,noBackslash⟩ := plain
    obtain ⟨first,later⟩ := not_or.mp (mt List.mem_cons.mpr noComma)
    obtain ⟨shown,rest⟩ := not_or.mp (mt List.mem_cons.mpr noBackslash)
    cases s with
    | nil => simp [escaped,split]
    | cons b s =>
      have tail := ih ⟨later,rest⟩ s
      rw [splitEscaped,List.cons_prefix_cons]
      by_cases stop : b = comma
      · subst stop
        simp [List.cons_prefix_cons,Ne.symm first,Ne.symm shown]
      · by_cases hidden : b = backslash
        · rw [if_neg stop,if_pos hidden]
          simp [hidden,List.cons_prefix_cons,Ne.symm shown]
        · simp only [if_neg stop,if_neg hidden,List.headD_cons,List.singleton_append,List.cons_prefix_cons,tail]

/- An item in the middle of the escaped value looks like a third party option. -/
theorem insideX (s : Bytes) :
    (∃ item ∈ (split comma (escaped s)).tail, isXOpt item = true) ↔ ascii ",x-" <:+: s := by
  induction s with
  | nil => decide
  | cons b s ih =>
    have head := headPrefix (⟨by decide,by decide⟩ : Plain (ascii "x-")) s
    rw [splitEscaped,List.infix_cons_iff]
    have starts : ascii ",x-" <+: b :: s ↔ b = comma ∧ ascii "x-" <+: s := by
      rw [show ascii ",x-" = comma :: ascii "x-" from rfl,List.cons_prefix_cons]
      exact and_congr_left (fun _ => eq_comm)
    rw [starts,← ih,← head]
    by_cases stop : b = comma
    · cases fields : split comma (escaped s) with
      | nil => exact absurd fields (splitNe comma _)
      | cons first rest => simp [stop,isXOpt]
    · simp [stop]

theorem infixPast {front : Bytes} (plain : comma ∉ front) (s : Bytes) :
    ascii ",x-" <:+: front ++ s ↔ ascii ",x-" <:+: s := by
  induction front with
  | nil => rfl
  | cons b front ih =>
    obtain ⟨first,later⟩ := not_or.mp (mt List.mem_cons.mpr plain)
    have starts : ¬ ascii ",x-" <+: b :: (front ++ s) := fun same => first (List.cons_prefix_cons.mp same).1
    rw [List.cons_append,List.infix_cons_iff,ih later]
    exact or_iff_right starts

theorem fsnameX (value : Bytes) :
    xItems (split comma (escaped (fsnameItem value))) = [] ↔ ¬ ascii ",x-" <:+: value := by
  have inside := insideX (fsnameItem value)
  rw [fsnameItem,infixPast (by decide),← fsnameItem] at inside
  have head := headPrefix (⟨by decide,by decide⟩ : Plain (ascii "x-")) (fsnameItem value)
  have other : ¬ ascii "x-" <+: fsnameItem value := by
    intro same
    have first : (102 : UInt8) = 120 := (List.cons_prefix_cons.mp same).1.symm
    exact absurd first (by decide)
  rw [← inside,XOptions.xItems,List.filter_eq_nil_iff]
  cases fields : split comma (escaped (fsnameItem value)) with
  | nil => exact absurd fields (splitNe comma _)
  | cons first rest =>
    rw [fields,List.headD_cons] at head
    have plainHead : ¬ isXOpt first = true := fun same =>
      other (head.mp (List.isPrefixOf_iff_prefix.mp same))
    simp only [List.mem_cons,List.tail_cons,not_exists,not_and]
    constructor
    · exact fun none item mem => none item (Or.inr mem)
    · intro none item mem
      rcases mem with same | later
      · exact same ▸ plainHead
      · exact none item later

theorem joinedMore {items extra : List Bytes} (full : ∀ item ∈ extra, item ≠ [])
    (same : joined comma (items ++ extra) = joined comma items) : extra = [] := by
  by_contra more
  have len := congrArg List.length same
  have room := List.length_pos_iff.mpr (joinedNe more full)
  by_cases none : items = []
  · rw [none,List.nil_append] at len
    simp only [joined,List.length_nil] at len
    omega
  · rw [joinedAppend comma none more] at len
    simp only [List.length_append,List.length_cons] at len
    omega

theorem xItemsFull (items : List Bytes) : ∀ item ∈ xItems items, item ≠ [] := by
  intro item mem
  have third := (List.mem_filter.mp mem).2
  exact thirdNe (List.isPrefixOf_iff_prefix.mp third)

theorem keptFull {items : List Bytes} (full : ∀ item ∈ items, item ≠ []) : kept items = joined comma items := by
  cases items with
  | nil => rfl
  | cons item rest =>
    obtain ⟨b,more,rfl⟩ := List.exists_cons_of_ne_nil (full item List.mem_cons_self)
    rfl

theorem keptStart {first later : List Bytes} (some : first ≠ []) (full : ∀ item ∈ first, item ≠ []) :
    kept (first ++ later) = joined comma (first ++ later) := by
  cases first with
  | nil => exact absurd rfl some
  | cons item rest =>
    obtain ⟨b,more,rfl⟩ := List.exists_cons_of_ne_nil (full item List.mem_cons_self)
    rfl

theorem xItemsAppend (first later : List Bytes) : xItems (first ++ later) = xItems first ++ xItems later :=
  List.filter_append first later

theorem nonXItemsAppend (first later : List Bytes) :
    nonXItems (first ++ later) = nonXItems first ++ nonXItems later := List.filter_append first later

theorem nonXItemsAll {items : List Bytes} (none : xItems items = []) : nonXItems items = items := by
  rw [XOptions.xItems,List.filter_eq_nil_iff] at none
  rw [XOptions.nonXItems,List.filter_eq_self]
  intro item mem
  simpa using none item mem

theorem flagsNotX (flags : Flags) : xItems (flagTokens flags) = [] := by
  have names : ∀ name ∈ flagNamesOn, ¬ isXOpt name = true := by decide
  exact List.filter_eq_nil_iff.mpr (fun name mem => names name ((flagTokensSublist flags).subset mem))

theorem flagTokensPlain (flags : Flags) : ∀ item ∈ flagTokens flags, comma ∉ item := fun item mem =>
  (show ∀ name ∈ flagNamesOn, comma ∉ name by decide) item ((flagTokensSublist flags).subset mem)

theorem kernsNotX {env : Env} {args : List Arg} (proper : ∀ a ∈ args, a.Proper env) : xItems (kerns args) = [] := by
  apply List.filter_eq_nil_iff.mpr
  intro opt mem
  rcases (kernsProper proper opt mem).1 with rfl | ⟨rfl,-⟩ | ⟨value,rfl⟩ | ⟨value,rfl⟩ <;>
    exact Bool.false_ne_true

theorem thirdsX {env : Env} {args : List Arg} (proper : ∀ a ∈ args, a.Proper env) :
    xItems (thirds args) = thirds args ∧ nonXItems (thirds args) = [] := by
  have third : ∀ opt ∈ thirds args, isXOpt opt = true := fun opt mem =>
    List.isPrefixOf_iff_prefix.mpr (thirdsProper proper opt mem).1
  refine ⟨List.filter_eq_self.mpr third,List.filter_eq_nil_iff.mpr ?_⟩
  intro opt mem
  simp [third opt mem]

/- The two texts that extract_x_options makes of the string: what is behind the flags and
the kernel options depends on the commas inside the two names. -/
theorem extracted {env : Env} {args : List Arg} (proper : ∀ a ∈ args, a.Proper env) (flags : Flags)
    (fsname subtype : Bytes) :
    extractXOptions (joined comma (handedOver flags args fsname subtype)) =
      some (joined comma (flagTokens flags ++ (kerns args ++ (nonXItems (split comma (escaped (fsnameItem fsname))) ++
          nonXItems (split comma (subtypeItem subtype))))),
        joined comma (thirds args ++ (xItems (split comma (escaped (fsnameItem fsname))) ++
          xItems (split comma (subtypeItem subtype))))) := by
  have plain : ∀ item ∈ flagTokens flags ++ kerns args ++ thirds args, comma ∉ item := by
    intro item mem
    rcases List.mem_append.mp mem with front | third
    · rcases List.mem_append.mp front with flag | kern
      · exact flagTokensPlain flags item flag
      · exact (kernsProper proper item kern).2.1
    · exact (thirdsProper proper item third).2.1
  have some : handedOver flags args fsname subtype ≠ [] := by simp [handedOver]
  have pieces : split comma (joined comma (handedOver flags args fsname subtype)) =
      flagTokens flags ++ kerns args ++ thirds args ++ split comma (escaped (fsnameItem fsname)) ++
        split comma (subtypeItem subtype) := by
    rw [splitJoined comma some,handedOver]
    simp only [List.flatMap_append,List.flatMap_singleton]
    rw [← List.flatMap_append,← List.flatMap_append,splitPlainFields plain]
  have third := thirdsX proper
  rw [extractXOptionsSpec,pieces]
  simp only [xItemsAppend,nonXItemsAppend,flagsNotX,kernsNotX proper,third.1,third.2,
    nonXItemsAll (flagsNotX flags),nonXItemsAll (kernsNotX proper),List.append_assoc,List.nil_append]
  rw [keptStart (flagTokensNe flags) (flagTokensFull flags),keptFull]
  rw [← third.1,← xItemsAppend,← xItemsAppend]
  exact xItemsFull _

theorem loopToSubtype {env : Env} {mo : MountOpts} {args : List Arg} {fsname : Bytes} (subtype : Bytes)
    (parsed : Parsed mo args) (proper : ∀ a ∈ args, a.Proper env) (one : fsnames args = [fsname])
    (short : weight args < 2 ^ 30) (memory : ∀ n, env.stringMem n = true) :
    optionLoop env ⟨safeMask,[],none,none,false,false⟩
        (joined comma (flagTokens mo.flags ++ (kerns args ++ (split comma (escaped (fsnameItem fsname)) ++
          split comma (subtypeItem subtype))))) =
      optionLoop env ⟨safeMask ||| mo.flags,(kerns args).flatMap (fun item => item ++ [comma]),some fsname,none,
        false,false⟩ (subtypeItem subtype) := by
  have rejoined : joined comma (split comma (escaped (fsnameItem fsname)) ++ split comma (subtypeItem subtype)) =
      escaped (fsnameItem fsname) ++ comma :: subtypeItem subtype := by
    rw [joinedAppend comma (splitNe comma _) (splitNe comma _),joinedSplit,joinedSplit]
  have small : ∀ opt ∈ kerns args, opt.length < 2 ^ 32 := by
    intro opt mem
    have part := joinedSublist comma (List.singleton_sublist.mpr mem)
    have total := kernsShort args
    simp only [joined] at part
    omega
  have fsnameShort : (escaped (fsnameItem fsname)).length < 2 ^ 32 := by
    have total := fsnamesShort args
    rw [one,List.map_singleton] at total
    simp only [joined] at total
    omega
  rw [joinedFlat comma (flagTokens mo.flags) (by simp [splitNe]),joinedFlat comma (kerns args) (by simp [splitNe]),
    rejoined,loopFlagTokens env _ parsed.flags,loopKerns _ _ (kernsProper proper) small,
    loopFsname memory _ fsname _ fsnameShort]
  rfl

theorem containsOr {flags mask : Flags} : Contains flags mask ↔ mask ||| flags = flags := by
  unfold Contains
  constructor
  · intro same
    ext i hi
    have bit : (flags[i] && mask[i]) = mask[i] := by rw [← BitVec.getElem_and,same]
    rw [BitVec.getElem_or]
    revert bit
    cases flags[i] <;> cases mask[i] <;> decide
  · intro same
    ext i hi
    have bit : (mask[i] || flags[i]) = flags[i] := by rw [← BitVec.getElem_or,same]
    rw [BitVec.getElem_and]
    revert bit
    cases flags[i] <;> cases mask[i] <;> decide

theorem optionsHandedOver (env : Env) (args : List Arg) (fsname subtype : Bytes) (mo : MountOpts)
    (proper : ∀ a ∈ args, a.Proper env) (one : fsnames args = [fsname]) (single : subtypes args = [subtype])
    (done : parseMountOpts (args.map Arg.text) = some mo) (short : weight args < 2 ^ 30)
    (memory : ∀ n, env.stringMem n = true) :
    (∃ nonX xOpts st, extractXOptions (fuseKernMount mo) = some (nonX,xOpts) ∧
      optionLoop env ⟨msNosuid ||| msNodev,[],none,none,false,false⟩ nonX = .ok st ∧
      st.fsname = some fsname ∧ st.subtype = some subtype ∧ st.flags = mo.flags ∧
      st.optbuf = (kerns args).flatMap (fun opt => opt ++ [comma]) ∧ xOpts = joined comma (thirds args)) ↔
    ¬ ascii ",x-" <:+: fsname ∧ comma ∉ subtype ∧ backslash ∉ subtype.dropLast ∧
      Contains mo.flags safeMask := by
  have parsed := parseMountOptsParsed proper (by omega) done
  have text := handedOverText parsed proper short one single
  have parts := extracted proper mo.flags fsname subtype
  have subtypeShort : (subtypeItem subtype).length < 2 ^ 32 := by
    have total := subtypesShort args
    rw [single,List.map_singleton] at total
    simp only [joined] at total
    omega
  have toSubtype := loopToSubtype subtype parsed proper one short memory
  rw [text,parts]
  constructor
  · rintro ⟨nonX,xOpts,st,same,looped,-,gotSubtype,gotFlags,-,sameX⟩
    simp only [Option.some.injEq,Prod.mk.injEq] at same
    obtain ⟨rfl,rfl⟩ := same
    have extra : ∀ item ∈ xItems (split comma (escaped (fsnameItem fsname))) ++
        xItems (split comma (subtypeItem subtype)), item ≠ [] := by
      rw [← xItemsAppend]
      exact xItemsFull _
    obtain ⟨noneFsname,noneSubtype⟩ := List.append_eq_nil_iff.mp (joinedMore extra sameX)
    rw [nonXItemsAll noneFsname,nonXItemsAll noneSubtype] at looped
    have last := toSubtype.symm.trans looped
    obtain ⟨noComma,plain⟩ := subtypeRead memory last gotSubtype
    have value := (loopSubtype memory _ subtypeShort noComma plain).symm.trans last
    cases value
    exact ⟨(fsnameX fsname).mp noneFsname,noComma,plain,containsOr.mpr gotFlags⟩
  · rintro ⟨noX,noComma,plain,safe⟩
    have noneFsname := (fsnameX fsname).mpr noX
    have noneSubtype : xItems (split comma (subtypeItem subtype)) = [] := by
      have whole : comma ∉ subtypeItem subtype := by
        rw [subtypeItem,List.mem_append,not_or]
        exact ⟨by decide,noComma⟩
      rw [splitField whole]
      rfl
    rw [noneFsname,noneSubtype,nonXItemsAll noneFsname,nonXItemsAll noneSubtype]
    refine ⟨_,_,_,rfl,toSubtype.trans (loopSubtype memory _ subtypeShort noComma plain),rfl,rfl,
      containsOr.mp safe,rfl,by simp⟩

/- A name with a comma and a backslash, read only, one option of each other kind. -/
def readOnlyArgs : List Arg :=
  [.third (ascii "x-a"),.flag (ascii "ro"),.fsname (ascii "a,\\b"),.kern (ascii "blksize=512"),.subtype (ascii "s")]

def readOnlyOpts : MountOpts :=
  {emptyOpts with
    flags := msRdonly ||| msNosuid ||| msNodev, fsname := some (ascii "a,\\b"), subtype := some (ascii "s"),
    subtypeOpt := some (ascii "subtype=s"), mtabOpts := some (ascii "x-a"),
    fusermountOpts := some (ascii "fsname=a\\,\\\\b"), kernelOpts := some (ascii "blksize=512")}

theorem readOnlyNamesArrive :
    parseMountOpts (readOnlyArgs.map Arg.text) = some readOnlyOpts ∧
    ∃ nonX xOpts st, extractXOptions (fuseKernMount readOnlyOpts) = some (nonX,xOpts) ∧
      optionLoop userEnv ⟨msNosuid ||| msNodev,[],none,none,false,false⟩ nonX = .ok st ∧
      st.fsname = some (ascii "a,\\b") ∧ st.subtype = some (ascii "s") ∧ st.flags = readOnlyOpts.flags ∧
      st.optbuf = ascii "blksize=512," ∧ xOpts = ascii "x-a" := by
  have done : parseMountOpts (readOnlyArgs.map Arg.text) = some readOnlyOpts := by decide
  have proper : ∀ a ∈ readOnlyArgs, a.Proper userEnv := by
    simp only [readOnlyArgs,List.forall_mem_cons,List.not_mem_nil,false_implies,implies_true,and_true,Arg.Proper,
      Accepted,Plain]
    decide
  refine ⟨done,(optionsHandedOver userEnv readOnlyArgs (ascii "a,\\b") (ascii "s") readOnlyOpts proper rfl rfl done
    (by decide) (fun _ => rfl)).mpr ⟨by decide,by decide,by decide,?_⟩⟩
  unfold Contains
  decide

/- The item behind the comma is an option of its own, and one that fusermount does not know. -/
theorem commaInSubtypeExits :
    (parseMountOpts ([.fsname (ascii "disk"),.subtype (ascii "a,b")].map Arg.text)).map fuseKernMount =
      some (ascii "rw,nosuid,nodev,fsname=disk,subtype=a,b") ∧
    extractXOptions (ascii "rw,nosuid,nodev,fsname=disk,subtype=a,b") =
      some (ascii "rw,nosuid,nodev,fsname=disk,subtype=a,b",[]) ∧
    optionLoop userEnv ⟨msNosuid ||| msNodev,[],none,none,false,false⟩
      (ascii "rw,nosuid,nodev,fsname=disk,subtype=a,b") = .error (.exit,0) := by
  refine ⟨by decide,by decide,by decide +kernel⟩

end FuseStudy.HandOver
