import WarheadFix.Shared.FixMessage
import WarheadFix.Shared.TimeFields

/-! Messages as the writer makes them. A message is a MsgType and fields, each appended by the
method for its type. If it fits into the buffer it is written as a frame, else the writer throws. -/

namespace Warhead.Hffix
open Lib MessageWriter

inductive FieldEntry where
  | string (tag : Int) (s : Bytes)
  | char (tag : Int) (character : UInt8)
  | int (tag number : Int)
  | decimal (tag mantissa exponent : Int)
  | timestamp (tag : Int) (t : Timestamp)
  | timePoint (tag tp : Int)
  | data (tagDataLength tagData : Int) (bytes : Bytes)

namespace FieldEntry

def push : FieldEntry → MessageWriter → Result MessageWriter
  | string tag s => (·.pushBackString tag s)
  | char tag character => (·.pushBackChar tag character)
  | int tag number => (·.pushBackInt tag number)
  | decimal tag mantissa exponent => (·.pushBackDecimal tag mantissa exponent)
  | timestamp tag t => (·.pushBackTimestamp tag t)
  | timePoint tag tp => (pushBackTimePoint · tag tp)
  | data tagDataLength tagData bytes => (·.pushBackData tagDataLength tagData bytes)

def tag : FieldEntry → Int
  | string tag _ | char tag _ | int tag _ | decimal tag _ _ | timestamp tag _ | timePoint tag _ => tag
  | data _ tagData _ => tagData

def value : FieldEntry → Bytes
  | string _ s => s
  | char _ character => [character]
  | int _ number => itoa number
  | decimal _ mantissa exponent => dtoa mantissa exponent
  | timestamp _ t => timestampText t
  | timePoint _ tp => timestampText (timepointtoparts tp)
  | data _ _ bytes => bytes

def text : FieldEntry → Bytes
  | data tagDataLength tagData bytes =>
    fieldBytes tagDataLength (itoa bytes.length) ++ fieldBytes tagData bytes
  | entry => fieldBytes entry.tag entry.value

end FieldEntry

namespace MessageWriter

def write (room : Nat) (version type : Bytes) (entries : List FieldEntry) : Result Bytes := do
  let w ← (new room).pushBackHeader version
  let w ← w.pushBackString 35 type
  let w ← pushAll (entries.map FieldEntry.push) w
  let w ← w.pushBackTrailer
  pure w.written

def Writes (call : MessageWriter → Result MessageWriter) (text : Bytes) : Prop :=
  ∀ w : MessageWriter, w.written.length ≤ w.room → call w =
    if w.room < w.written.length + text.length then .error (.thrown .outOfRange)
    else .ok { w with written := w.written ++ text }

theorem writes_pushField (tag : Int) (value : Bytes) :
    Writes (·.pushField tag value) (fieldBytes tag value) := fun _ _ => rfl

theorem writes_push (entry : FieldEntry) : Writes entry.push entry.text := by
  cases entry with
  | data => exact fun _ _ => rfl
  | _ => exact writes_pushField _ _

theorem writes_pushAll (entries : List FieldEntry) :
    Writes (pushAll (entries.map FieldEntry.push)) (entries.flatMap FieldEntry.text) := by
  induction entries with
  | nil =>
    intro w hw
    rw [List.flatMap_nil, List.length_nil, Nat.add_zero, if_neg (Nat.not_lt.mpr hw),
      List.append_nil]
    rfl
  | cons entry entries ih =>
    intro w hw
    change (entry.push w >>= pushAll (entries.map FieldEntry.push)) = _
    rw [writes_push entry w hw, List.flatMap_cons, List.length_append]
    by_cases hfull : w.room < w.written.length + entry.text.length
    · rw [if_pos hfull, if_pos (by omega)]
      rfl
    · rw [if_neg hfull]
      change pushAll (entries.map FieldEntry.push)
        { w with written := w.written ++ entry.text } = _
      rw [ih _ (by dsimp only; rw [List.length_append]; omega)]
      dsimp only
      rw [List.length_append, Nat.add_assoc, List.append_assoc]

/-! ## Header and trailer -/

theorem overwrite_middle (before old new after : Bytes) (h : new.length = old.length) :
    overwrite (before ++ old ++ after) before.length new = before ++ new ++ after := by
  have hassoc : before ++ old ++ after = before ++ (old ++ after) := List.append_assoc _ _ _
  rw [overwrite, h, hassoc, List.take_left, ← List.drop_drop, List.drop_left, List.drop_left]

theorem toNat_checkSum (s : Bytes) : (checkSum s).toNat = byteSum s := by
  have hfold : ∀ a : UInt8, (s.foldl (· + ·) a).toNat =
      (a.toNat + (s.map UInt8.toNat).sum) % 256 := by
    induction s with
    | nil => exact fun a => (Nat.mod_eq_of_lt a.toNat_lt).symm
    | cons c s ih =>
      intro a
      rw [List.foldl_cons, ih, UInt8.toNat_add, List.map_cons, List.sum_cons, Nat.mod_add_mod,
        Nat.add_assoc]
  have hsum := hfold 0
  rwa [UInt8.toNat_zero, Nat.zero_add] at hsum

theorem itoaPadded_three (n : Nat) : itoaPadded 3 n = threeDigits n := by
  have hhundred : n / 10 / 10 = n / 100 := Nat.div_div_eq_div_mul n 10 10
  rw [itoaPadded_succ, itoaPadded_succ, itoaPadded_succ, hhundred]
  rfl

def lengthTag (version : Bytes) : Bytes := ascii "8=" ++ version ++ [SOH] ++ ascii "9="

theorem length_lengthTag (version : Bytes) : (lengthTag version).length = version.length + 5 := by
  simp only [lengthTag, List.length_append, List.length_singleton]
  change 2 + version.length + 1 + 2 = _
  omega

theorem head_eq_lengthTag (version digits : Bytes) :
    Frame.head version digits = lengthTag version ++ digits ++ [SOH] := by
  simp only [Frame.head, lengthTag, List.append_assoc, List.cons_append, List.nil_append]

theorem pushBackHeader_eq (room : Nat) (version : Bytes) : (new room).pushBackHeader version =
    if room < version.length + 12 then .error (.thrown .outOfRange)
    else .ok ⟨room, lengthTag version ++ List.replicate 6 0 ++ [SOH],
      some (lengthTag version).length⟩ := by
  have hroom : ([] : Bytes).length + (2 + version.length + 3 + 7) = version.length + 12 := by
    rw [List.length_nil]
    omega
  unfold pushBackHeader new
  rw [if_neg (by simp)]
  simp only [hroom, List.nil_append]
  rfl

theorem pushBackTrailer_eq {room : Nat} {version body : Bytes} :
    pushBackTrailer ⟨room, lengthTag version ++ List.replicate 6 0 ++ ([SOH] ++ body),
      some (lengthTag version).length⟩ =
    if room < version.length + 12 + body.length + 7 then .error (.thrown .outOfRange)
    else .ok ⟨room, Frame.head version (itoaPadded 6 body.length) ++ body ++
      Frame.trailer (Frame.head version (itoaPadded 6 body.length) ++ body),
      some (lengthTag version).length⟩ := by
  have hlen : (lengthTag version ++ List.replicate 6 0 ++ ([SOH] ++ body)).length -
      ((lengthTag version).length + 7) = body.length := by
    simp only [List.length_append, List.length_replicate, List.length_singleton]
    omega
  have hdigits : (itoaPadded 6 body.length).length = (List.replicate 6 (0 : UInt8)).length := by
    rw [length_itoaPadded, List.length_replicate]
  have hover := overwrite_middle (lengthTag version) _ _ ([SOH] ++ body) hdigits
  have hhead : lengthTag version ++ itoaPadded 6 body.length ++ ([SOH] ++ body) =
      Frame.head version (itoaPadded 6 body.length) ++ body := by
    rw [head_eq_lengthTag]
    simp only [List.append_assoc]
  have hroom : (Frame.head version (itoaPadded 6 body.length) ++ body).length =
      version.length + 12 + body.length := by
    rw [List.length_append, Frame.length_head, length_itoaPadded]
  have htrailer : ∀ s : Bytes, ascii "10=" ++ itoaPadded 3 (checkSum s).toNat ++ [SOH] =
      Frame.trailer s := by
    intro s
    rw [toNat_checkSum, itoaPadded_three]
    rfl
  unfold pushBackTrailer
  dsimp only
  rw [hlen, hover, hhead, hroom]
  by_cases hfull : room < version.length + 12 + body.length + 7
  · rw [if_pos hfull, if_pos hfull]
  · rw [if_neg hfull, if_neg hfull, ← htrailer]
    simp only [List.append_assoc]

/-! ## The whole message -/

/-- A MsgType and fields that are written as a frame: the six digits of the BodyLength hold the
length of the body, and the MsgType is a text. -/
structure Sendable (type : Bytes) (entries : List FieldEntry) : Prop where
  type_ne : type ≠ []
  type_soh : SOH ∉ type
  length : type.length + (entries.flatMap FieldEntry.text).length + 4 < 10 ^ 6

theorem text_ends (entry : FieldEntry) : ∃ fields, entry.text = fields ++ [SOH] := by
  cases entry with
  | data tagDataLength tagData bytes =>
    exact ⟨fieldBytes tagDataLength (itoa bytes.length) ++ (itoa tagData ++ [61] ++ bytes),
      (List.append_assoc _ _ _).symm⟩
  | _ => exact ⟨_, rfl⟩

theorem flatMap_text_ends (entries : List FieldEntry) : entries.flatMap FieldEntry.text = [] ∨
    ∃ fields, entries.flatMap FieldEntry.text = fields ++ [SOH] := by
  induction entries with
  | nil => exact .inl rfl
  | cons entry entries ih =>
    refine .inr ?_
    rw [List.flatMap_cons]
    rcases ih with hnil | ⟨fields, hends⟩
    · rw [hnil, List.append_nil]
      exact text_ends entry
    · exact ⟨entry.text ++ fields, by rw [hends, List.append_assoc]⟩

def Sendable.frame {type : Bytes} {entries : List FieldEntry} (h : Sendable type entries) :
    Frame where
  digits := itoaPadded 6 (type.length + (entries.flatMap FieldEntry.text).length + 4 : Nat)
  msgType := type
  rest := entries.flatMap FieldEntry.text
  isDigits := isDigits_itoaPadded _ _
  digits_ne := by
    intro hnil
    have hlen := congrArg List.length hnil
    rw [length_itoaPadded] at hlen
    cases hlen
  type_ne := h.type_ne
  type_soh := h.type_soh
  rest_ends := flatMap_text_ends entries
  length_eq := by rw [decimal_itoaPadded, Nat.mod_eq_of_lt h.length]

theorem write_eq {type : Bytes} {entries : List FieldEntry} (h : Sendable type entries)
    (room : Nat) (version : Bytes) : write room version type entries =
      if room < (h.frame.bytes version).length then .error (.thrown .outOfRange)
      else .ok (h.frame.bytes version) := by
  have htotal := Frame.length_bytes version h.frame
  have hsix : h.frame.digits.length = 6 := length_itoaPadded 6 _
  have htype : (fieldBytes 35 type).length = type.length + 4 := by
    simp only [fieldBytes, List.length_append, List.length_singleton]
    change 2 + 1 + type.length + 1 = _
    omega
  have hbody : h.frame.body = fieldBytes 35 type ++ entries.flatMap FieldEntry.text := by
    simp only [Frame.body, Sendable.frame, fieldBytes, List.append_assoc, List.cons_append]
    rfl
  have hlen : h.frame.body.length =
      type.length + (entries.flatMap FieldEntry.text).length + 4 := Frame.length_body h.frame
  have hdigits : h.frame.digits = itoaPadded 6 h.frame.body.length := by
    rw [hlen]
    rfl
  change _ = _ + type.length + (entries.flatMap FieldEntry.text).length + 17 at htotal
  unfold write
  rw [pushBackHeader_eq]
  by_cases hheader : room < version.length + 12
  · rw [if_pos hheader, if_pos (by omega)]
    rfl
  rw [if_neg hheader]
  simp only [Bind.bind, Except.bind]
  have hwritten : (lengthTag version ++ List.replicate 6 (0 : UInt8) ++ [SOH]).length =
      version.length + 12 := by
    simp only [List.length_append, length_lengthTag, List.length_replicate, List.length_singleton]
  have hpush := writes_pushField 35 type ⟨room, lengthTag version ++ List.replicate 6 0 ++ [SOH],
    some (lengthTag version).length⟩ (by dsimp only; omega)
  dsimp only at hpush
  rw [hwritten, htype] at hpush
  rw [pushBackString, hpush]
  by_cases hfirst : room < version.length + 12 + (type.length + 4)
  · rw [if_pos hfirst, if_pos (by omega)]
  rw [if_neg hfirst]
  dsimp only
  have hall := writes_pushAll entries
    ⟨room, lengthTag version ++ List.replicate 6 0 ++ [SOH] ++ fieldBytes 35 type,
      some (lengthTag version).length⟩
    (by dsimp only; rw [List.length_append, hwritten, htype]; omega)
  dsimp only at hall
  rw [List.length_append, hwritten, htype] at hall
  rw [hall]
  by_cases hfields : room < version.length + 12 + (type.length + 4) +
      (entries.flatMap FieldEntry.text).length
  · rw [if_pos hfields, if_pos (by omega)]
  rw [if_neg hfields]
  dsimp only
  have hassoc : lengthTag version ++ List.replicate 6 (0 : UInt8) ++ [SOH] ++ fieldBytes 35 type ++
      entries.flatMap FieldEntry.text =
      lengthTag version ++ List.replicate 6 0 ++ ([SOH] ++ h.frame.body) := by
    rw [hbody]
    simp only [List.append_assoc]
  rw [hassoc, pushBackTrailer_eq]
  by_cases hlast : room < version.length + 12 + h.frame.body.length + 7
  · rw [if_pos hlast, if_pos (by omega)]
  · rw [if_neg hlast, if_neg (by omega), ← hdigits]
    rfl

end MessageWriter
end Warhead.Hffix
