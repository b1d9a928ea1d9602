import FuseStudy.NetPacket

/-! Bytes at addresses: storing a run of bytes and loading one. -/
namespace FuseStudy.ByteMemory
open CString (Bytes)

abbrev Memory := Nat → UInt8

@[grind =]
def store (m : Memory) (a : Nat) : Bytes → Memory
  | [] => m
  | b :: rest => store (Function.update m a b) (a + 1) rest

@[grind =]
def load (m : Memory) (a : Nat) : Nat → Bytes
  | 0 => []
  | n + 1 => m a :: load m (a + 1) n

variable {m m' : Memory} {a b n : Nat}

theorem storeBefore {i : Nat} (before : i < a) (m : Memory) (bytes : Bytes) : store m a bytes i = m i := by
  induction bytes generalizing m a with
  | nil => rfl
  | cons b rest ih =>
    rw [store,ih (Nat.lt_succ_of_lt before)]
    exact Function.update_of_ne (Nat.ne_of_lt before) ..

theorem storeAfter {bytes : Bytes} {i : Nat} (after : a + bytes.length ≤ i) (m : Memory) :
    store m a bytes i = m i := by
  induction bytes generalizing m a with
  | nil => rfl
  | cons b rest ih =>
    rw [List.length_cons] at after
    rw [store,ih (by omega)]
    exact Function.update_of_ne (by omega) ..

theorem storeAppend (m : Memory) (a : Nat) (first second : Bytes) :
    store m a (first ++ second) = store (store m a first) (a + first.length) second := by
  induction first generalizing m a with
  | nil => rfl
  | cons b rest ih => rw [List.cons_append,store,store,ih,List.length_cons,Nat.add_right_comm,Nat.add_assoc a]

theorem loadCongr (same : ∀ i, a ≤ i → i < a + n → m' i = m i) : load m' a n = load m a n := by
  induction n generalizing a with
  | zero => rfl
  | succ n ih =>
    rw [load,load,same a (Nat.le_refl a) (by omega),ih]
    intro i low high
    exact same i (by omega) (by omega)

theorem loadStore (m : Memory) (a : Nat) (bytes : Bytes) : load (store m a bytes) a bytes.length = bytes := by
  induction bytes generalizing m a with
  | nil => rfl
  | cons b rest ih =>
    have head : store m a (b :: rest) a = b := by
      rw [store,storeBefore (Nat.lt_succ_self a),Function.update_self]
    rw [List.length_cons,load,head,store,ih]

theorem loadField {first field last : Bytes} {n : Nat} (m : Memory) (a : Nat) (wide : field.length = n) :
    load (store m a (first ++ field ++ last)) (a + first.length) n = field := by
  subst wide
  rw [storeAppend,storeAppend]
  have kept : load (store (store (store m a first) (a + first.length) field) (a + (first ++ field).length) last)
      (a + first.length) field.length = load (store (store m a first) (a + first.length) field) (a + first.length)
        field.length := by
    apply loadCongr
    intro i _ high
    apply storeBefore
    rw [List.length_append]
    omega
  rw [kept,loadStore]

end FuseStudy.ByteMemory
