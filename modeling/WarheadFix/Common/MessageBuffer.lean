import WarheadFix.Lib.Memory

/-! The buffer between a socket and its messages: a storage, the position up to which
it is written and the position up to which it is read. -/

namespace Warhead
open Lib

structure MessageBuffer where
  wpos : Nat
  rpos : Nat
  storage : Bytes
  deriving DecidableEq

namespace MessageBuffer

def new : MessageBuffer := ⟨0, 0, List.replicate 4096 0⟩

def ofSize (initialSize : Nat) : MessageBuffer := ⟨0, 0, List.replicate initialSize 0⟩

def reset (b : MessageBuffer) : MessageBuffer := { b with wpos := 0, rpos := 0 }

def resize (b : MessageBuffer) (bytes : Nat) : MessageBuffer :=
  { b with storage := resized b.storage bytes }

def readCompleted (b : MessageBuffer) (bytes : Nat) : MessageBuffer :=
  { b with rpos := b.rpos + bytes }

def writeCompleted (b : MessageBuffer) (bytes : Nat) : MessageBuffer :=
  { b with wpos := b.wpos + bytes }

def activeSize (b : MessageBuffer) : Nat := b.wpos - b.rpos

def remainingSpace (b : MessageBuffer) : Nat := b.storage.length - b.wpos

def active (b : MessageBuffer) : Bytes := (b.storage.drop b.rpos).take b.activeSize

def normalize (b : MessageBuffer) : MessageBuffer :=
  if b.rpos = 0 then b
  else if b.rpos = b.wpos then { b with wpos := b.wpos - b.rpos, rpos := 0 }
  else { wpos := b.wpos - b.rpos, rpos := 0, storage := overwrite b.storage 0 b.active }

def ensureFreeSpace (b : MessageBuffer) : MessageBuffer :=
  if b.remainingSpace = 0 then b.resize (b.storage.length * 3 / 2) else b

/-- memcpy to the write pointer; past the storage it writes over foreign memory. -/
def write {ε : Type} (b : MessageBuffer) (data : Bytes) : Outcome ε MessageBuffer :=
  if data = [] then .ok b
  else if b.storage.length < b.wpos + data.length then .error .undefined
  else .ok (writeCompleted { b with storage := overwrite b.storage b.wpos data } data.length)

def Valid (b : MessageBuffer) : Prop := b.rpos ≤ b.wpos ∧ b.wpos ≤ b.storage.length

variable {b : MessageBuffer}

theorem new_resize (n : Nat) : new.resize n = ofSize n :=
  congrArg (MessageBuffer.mk 0 0) (resized_replicate 4096 n)

theorem length_active (h : b.Valid) : b.active.length = b.activeSize := by
  obtain ⟨hr, hw⟩ := h
  simp only [active, activeSize, List.length_take, List.length_drop]
  omega

theorem active_eq_nil_iff (h : b.Valid) : b.active = [] ↔ b.activeSize = 0 := by
  rw [← List.length_eq_zero_iff, length_active h]

theorem active_of_rpos_zero (h : b.rpos = 0) : b.active = b.storage.take b.wpos := by
  simp [active, activeSize, h]

theorem active_readCompleted (b : MessageBuffer) (n : Nat) :
    (b.readCompleted n).active = b.active.drop n := by
  simp only [active, activeSize, readCompleted, List.drop_take, List.drop_drop]
  congr 1
  omega

theorem take_append_active (b : MessageBuffer) (n : Nat) :
    b.active.take n ++ (b.readCompleted n).active = b.active := by
  rw [active_readCompleted, List.take_append_drop]

theorem activeSize_readCompleted (b : MessageBuffer) (n : Nat) :
    (b.readCompleted n).activeSize = b.activeSize - n := by
  simp only [activeSize, readCompleted]
  omega

theorem valid_readCompleted {n : Nat} (h : b.Valid) (hn : n ≤ b.activeSize) :
    (b.readCompleted n).Valid := by
  obtain ⟨hr, hw⟩ := h
  simp only [Valid, readCompleted, activeSize] at hn ⊢
  omega

theorem normalize_of_rpos_zero (h : b.rpos = 0) : b.normalize = b := if_pos h

theorem ensureFreeSpace_of_space (h : b.wpos < b.storage.length) : b.ensureFreeSpace = b := by
  refine if_neg ?_
  simp only [remainingSpace]
  omega

theorem write_eq_ok {ε : Type} {data : Bytes} (hne : data ≠ [])
    (h : b.wpos + data.length ≤ b.storage.length) :
    (b.write data : Outcome ε MessageBuffer) = .ok
      ⟨b.wpos + data.length, b.rpos, overwrite b.storage b.wpos data⟩ := by
  rw [write, if_neg hne, if_neg (Nat.not_lt.mpr h), writeCompleted]

theorem write_ofSize {ε : Type} {data : Bytes} (hne : data ≠ []) :
    ((ofSize data.length).write data : Outcome ε MessageBuffer) = .ok ⟨data.length, 0, data⟩ := by
  have hlen : (ofSize data.length).wpos + data.length ≤ (ofSize data.length).storage.length := by
    simp [ofSize]
  rw [write_eq_ok hne hlen]
  simp [ofSize]

end MessageBuffer
end Warhead
