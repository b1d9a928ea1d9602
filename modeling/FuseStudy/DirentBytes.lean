import FuseStudy.NetPacket
import FuseStudy.Readdir

/-! The bytes of struct fuse_dirent as fuse_add_direntry puts them into the buffer of a
READDIR reply, and how the receiver takes them apart again. -/
namespace FuseStudy.NodeStore
open CString
open NetPacket (le unle leLength unleLe)

/- A header of 24 bytes, the name, and zeros up to a multiple of eight. -/
def Packed.dirent (e : Packed) : Bytes :=
  le 8 e.ino ++ le 8 (e.off % 2 ^ 64).toNat ++ le 4 e.name.length ++ le 4 e.type ++ e.name ++
  List.replicate (direntSize false e.name - (nameOffset + e.name.length)) 0

/- The first entry of a reply and what follows it. -/
def takeDirent (bytes : Bytes) : Option (Packed × Bytes) :=
  let namelen := unle ((bytes.drop 16).take 4)
  let reclen := direntAlign (nameOffset + namelen)
  if bytes.length < nameOffset ∨ bytes.length < reclen then none
  else some (⟨0,0,unle (bytes.take 8),unle ((bytes.drop 8).take 8),unle ((bytes.drop 20).take 4),
    (bytes.drop nameOffset).take namelen⟩,bytes.drop reclen)

def readDirents : Nat → Bytes → List Packed
  | 0, _ => []
  | fuel+1, bytes => match takeDirent bytes with
    | some (e,rest) => e :: readDirents fuel rest
    | none => []

/- What can be written down in a dirent. -/
structure Packed.Plain (e : Packed) : Prop where
  node : e.nodeid = 0 ∧ e.generation = 0
  ino : e.ino < 2 ^ 64
  off : 0 ≤ e.off ∧ e.off < 2 ^ 64
  type : e.type < 2 ^ 32
  name : e.name.length < 2 ^ 32

theorem direntAligned (name : Name) : nameOffset + name.length ≤ direntSize false name ∧
    direntAlign (nameOffset + name.length) = direntSize false name := by
  refine ⟨?_,rfl⟩
  simp only [direntSize,direntAlign,Bool.false_eq_true,if_false]
  omega

theorem direntLength (e : Packed) : e.dirent.length = direntSize false e.name := by
  have padded := (direntAligned e.name).1
  simp only [Packed.dirent,List.length_append,leLength,List.length_replicate]
  simp only [nameOffset] at padded ⊢
  omega

theorem takeDirentEntry {e : Packed} (plain : e.Plain) (rest : Bytes) :
    takeDirent (e.dirent ++ rest) = some (e,rest) := by
  obtain ⟨⟨nodeid,generation⟩,ino,⟨off,off'⟩,type,name⟩ := plain
  have size := direntLength e
  obtain ⟨padded,aligned⟩ := direntAligned e.name
  -- the fields one after the other
  have whole : e.dirent ++ rest = le 8 e.ino ++ (le 8 (e.off % 2 ^ 64).toNat ++ (le 4 e.name.length ++ (le 4 e.type ++
      (e.name ++ (List.replicate (direntSize false e.name - (nameOffset + e.name.length)) 0 ++ rest))))) := by
    simp only [Packed.dirent,List.append_assoc]
  have fields : (e.dirent ++ rest).take 8 = le 8 e.ino ∧
    ((e.dirent ++ rest).drop 8).take 8 = le 8 (e.off % 2 ^ 64).toNat ∧
      ((e.dirent ++ rest).drop 16).take 4 = le 4 e.name.length ∧ ((e.dirent ++ rest).drop 20).take 4 = le 4 e.type ∧
      ((e.dirent ++ rest).drop nameOffset).take e.name.length = e.name := by
    rw [whole]
    refine ⟨List.take_left' (leLength 8 _),?_,?_,?_,?_⟩
    · rw [List.drop_left' (leLength 8 _)]
      exact List.take_left' (leLength 8 _)
    · rw [show 16 = 8 + 8 from rfl,← List.drop_drop,List.drop_left' (leLength 8 _),List.drop_left' (leLength 8 _)]
      exact List.take_left' (leLength 4 _)
    · rw [show 20 = 8 + (8 + 4) from rfl,← List.drop_drop,List.drop_left' (leLength 8 _),← List.drop_drop,
        List.drop_left' (leLength 8 _),List.drop_left' (leLength 4 _)]
      exact List.take_left' (leLength 4 _)
    · rw [show nameOffset = 8 + (8 + (4 + 4)) from rfl,← List.drop_drop,List.drop_left' (leLength 8 _),← List.drop_drop,
        List.drop_left' (leLength 8 _),← List.drop_drop,List.drop_left' (leLength 4 _),List.drop_left' (leLength 4 _)]
      exact List.take_left' rfl
  obtain ⟨first,second,third,fourth,fifth⟩ := fields
  have namelen : unle (le 4 e.name.length) = e.name.length := by
    rw [unleLe]
    exact Nat.mod_eq_of_lt name
  have long : direntSize false e.name ≤ (e.dirent ++ rest).length := by
    rw [List.length_append,size]
    exact Nat.le_add_right _ _
  have enough : ¬ ((e.dirent ++ rest).length < nameOffset ∨ (e.dirent ++ rest).length < direntSize false e.name) := by
    omega
  have inode : unle (le 8 e.ino) = e.ino := by
    rw [unleLe]
    exact Nat.mod_eq_of_lt ino
  have offset : ((unle (le 8 (e.off % 2 ^ 64).toNat) : Nat) : Int) = e.off := by
    rw [unleLe]
    omega
  have kind : unle (le 4 e.type) = e.type := by
    rw [unleLe]
    exact Nat.mod_eq_of_lt type
  have record : (⟨0,0,e.ino,e.off,e.type,e.name⟩ : Packed) = e := by
    cases e
    cases nodeid
    cases generation
    rfl
  simp only [takeDirent,third,namelen,aligned,if_neg enough,first,second,fourth,fifth,inode,offset,kind,record,
    List.drop_left' size]

theorem readDirentsAll {entries : List Packed} (plain : ∀ e ∈ entries, e.Plain) {fuel : Nat}
    (enough : entries.length ≤ fuel) : readDirents fuel (entries.flatMap Packed.dirent) = entries := by
  induction entries generalizing fuel with
  | nil =>
    cases fuel with
    | zero => rfl
    | succ fuel => rfl
  | cons e rest ih =>
    cases fuel with
    | zero => exact absurd enough (Nat.not_succ_le_zero _)
    | succ fuel =>
      have first := takeDirentEntry (plain e List.mem_cons_self) (rest.flatMap Packed.dirent)
      rw [List.flatMap_cons,readDirents,first]
      simp only
      rw [ih (fun e' mem => plain e' (List.mem_cons_of_mem _ mem)) (Nat.le_of_succ_le_succ enough)]

theorem direntsMany (entries : List Packed) : entries.length ≤ (entries.flatMap Packed.dirent).length := by
  induction entries with
  | nil => exact Nat.zero_le _
  | cons e rest ih =>
    have padded := (direntAligned e.name).1
    have size := direntLength e
    simp only [List.flatMap_cons,List.length_append,List.length_cons,nameOffset] at padded ⊢
    omega

end FuseStudy.NodeStore
