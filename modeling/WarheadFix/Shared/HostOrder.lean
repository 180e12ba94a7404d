import WarheadFix.Common.ByteConverter
import WarheadFix.Shared.TypedValues

/-! The typed operators of the byte buffer on hosts of either byte order. The object that is
converted is a variable of the call, wherever that lies in the memory of the host. -/

namespace Warhead
open Lib ByteConverter

/-- A `bool` is written as a `uint8` and read as a `char`, one byte that nothing changes. -/
def Scalar.fundamental (k : Scalar) : Fundamental k.carrier where
  toFixed := k.fixed
  overloaded := k = .bool ∨ k = .uint8 ∨ k = .int8
  size_of_overloaded h := by
    rcases of_decide_eq_true h with rfl | rfl | rfl <;> rfl

namespace ByteBuffer
variable {α : Type}

def appendAs (host : Host) (T : Fundamental α) (val : Nat) (mem : Memory) (b : ByteBuffer)
    (value : α) : Result ByteBuffer :=
  b.append (load (endianConvert host T val (store mem val (host.object T value))) val T.size)

def putAs (host : Host) (T : Fundamental α) (val : Nat) (mem : Memory) (b : ByteBuffer)
    (pos : Nat) (value : α) : Result ByteBuffer :=
  b.put pos (load (endianConvert host T val (store mem val (host.object T value))) val T.size)

def readAtAs (host : Host) (T : Fundamental α) (val : Nat) (mem : Memory) (b : ByteBuffer)
    (pos : Nat) : Result α := do
  let bytes ← b.readAt T.size pos
  return host.value T (load (endianConvert host T val (store mem val bytes)) val T.size)

variable (host : Host) (T : Fundamental α) (val : Nat) (mem : Memory) (b : ByteBuffer)

theorem load_converted {bytes : Bytes} (h : bytes.length = T.size) :
    load (endianConvert host T val (store mem val bytes)) val T.size = host.ordered bytes := by
  rw [load_endianConvert, ← h, load_store]

theorem load_converted_object (value : α) :
    load (endianConvert host T val (store mem val (host.object T value))) val T.size =
      T.toBytes value := by
  have hlength : (host.object T value).length = T.size := by
    rw [Host.object, Host.length_ordered, Fixed.length_toBytes]
  rw [load_converted host T val mem hlength, Host.object, Host.ordered_ordered]

theorem appendAs_eq (value : α) :
    b.appendAs host T val mem value = b.append (T.toBytes value) :=
  congrArg b.append (load_converted_object host T val mem value)

theorem putAs_eq (pos : Nat) (value : α) :
    b.putAs host T val mem pos value = b.put pos (T.toBytes value) :=
  congrArg (b.put pos) (load_converted_object host T val mem value)

theorem length_readAt {b : ByteBuffer} {valueSize pos : Nat} {bytes : Bytes}
    (h : b.readAt valueSize pos = .ok bytes) : bytes.length = valueSize := by
  unfold readAt at h
  split_ifs at h
  rw [length_of_span_eq_ok h]
  omega

theorem readAtAs_eq (pos : Nat) :
    b.readAtAs host T val mem pos = (b.readAt T.size pos).map T.ofBytes := by
  unfold readAtAs
  cases hread : b.readAt T.size pos with
  | error f => rfl
  | ok bytes =>
    rw [bind_of_ok rfl, load_converted host T val mem (length_readAt hread), Host.value,
      Host.ordered_ordered]
    rfl

theorem readAt_append {b after : ByteBuffer} {src : Bytes} (h : b.append src = .ok after) :
    after.readAt src.length b.wpos = .ok src := by
  unfold append at h
  split_ifs at h with hfault
  obtain rfl := Except.ok.inj h
  set grown := if b.size < b.wpos + src.length then resized b.storage (b.wpos + src.length)
    else b.storage with hgrown
  have hroom : b.wpos + src.length ≤ grown.length := by
    rw [hgrown]
    split_ifs with hsmall
    · exact (length_resized _ _).ge
    · exact Nat.not_lt.mp hsmall
  have hsize : b.wpos + src.length ≤ (overwrite grown b.wpos src).length :=
    hroom.trans_eq (length_overwrite hroom).symm
  have hfits : ¬ (overwrite grown b.wpos src).length < addSize b.wpos src.length :=
    Nat.not_lt.mpr ((Nat.mod_le _ _).trans hsize)
  have hplace : (grown.take b.wpos).length = b.wpos :=
    List.length_take_of_le ((Nat.le_add_right _ _).trans hroom)
  have hdrop : (overwrite grown b.wpos src).drop b.wpos =
      src ++ grown.drop (b.wpos + src.length) := by
    rw [overwrite, List.append_assoc, List.drop_left' hplace]
  rw [readAt, size, if_neg hfits]
  exact span_of_drop _ hdrop rfl

theorem readAtAs_appendAs (host' : Host) (val' : Nat) (mem' : Memory) (value : α) :
    (b.appendAs host T val mem value >>= fun after => after.readAtAs host' T val' mem' b.wpos) =
      (b.append (T.toBytes value)).map fun _ => value := by
  rw [appendAs_eq]
  cases happend : b.append (T.toBytes value) with
  | error f => rfl
  | ok after =>
    have hread := readAt_append happend
    rw [Fixed.length_toBytes] at hread
    rw [bind_of_ok rfl, readAtAs_eq, hread]
    exact congrArg Except.ok (T.ofBytes_toBytes value)

theorem insert_scalar (k : Scalar) (v : k.carrier) :
    b.insert (.scalar k v) = b.appendAs host k.fundamental val mem v :=
  (appendAs_eq host k.fundamental val mem b v).symm

theorem extract_scalar (k : Scalar) :
    b.extract (.scalar k) =
      match b.readAtAs host k.fundamental val mem b.rpos with
      | .ok v => ({ b with rpos := b.rpos + k.fixed.size }, .ok (.scalar k v))
      | .error f => (b, .error f) := by
  have hsize : k.fundamental.size = k.fixed.size := rfl
  rw [extract, readAtAs_eq, hsize, read]
  cases b.readAt k.fixed.size b.rpos <;> rfl

/-- The conversion turns the bytes of an object around and is undone by being done twice, and the
packets have the lowest byte first whatever the host that writes or reads them. -/
theorem wire_bytes_of_any_host :
    (∀ (width val : Nat) (mem : Memory),
      (∀ i < width, convert width val mem (val + i) = mem (val + (width - 1 - i))) ∧
      (∀ i, i < val ∨ val + width ≤ i → convert width val mem i = mem i) ∧
      convert width val (convert width val mem) = mem) ∧
    ∀ (T : Fundamental α) (value : α) (b : ByteBuffer) (host : Host) (val : Nat) (mem : Memory),
      b.appendAs host T val mem value = b.append (LittleEndian.toBytes T.size (T.bits value)) ∧
      (∀ pos, b.putAs host T val mem pos value =
        b.put pos (LittleEndian.toBytes T.size (T.bits value))) ∧
      (∀ pos, b.readAt T.size pos = .ok (LittleEndian.toBytes T.size (T.bits value)) →
        b.readAtAs host T val mem pos = .ok value) ∧
      ∀ (host' : Host) (val' : Nat) (mem' : Memory),
        (b.appendAs host T val mem value >>= fun after =>
          after.readAtAs host' T val' mem' b.wpos) =
            (b.append (LittleEndian.toBytes T.size (T.bits value))).map fun _ => value := by
  refine ⟨fun width val mem => ⟨fun i => convert_of_lt mem, fun i => convert_of_outside mem,
    convert_convert width val mem⟩, ?_⟩
  intro T value b host val mem
  refine ⟨appendAs_eq host T val mem b value, fun pos => putAs_eq host T val mem b pos value, ?_,
    fun host' val' mem' => readAtAs_appendAs host T val mem b host' val' mem' value⟩
  intro pos hread
  rw [readAtAs_eq, hread]
  exact congrArg Except.ok (T.ofBytes_toBytes value)

end ByteBuffer
end Warhead
